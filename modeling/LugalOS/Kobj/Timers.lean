import Mathlib.Algebra.Order.Ring.Nat
import Mathlib.Data.List.MinMax
import Mathlib.Data.Prod.Lex
import Mathlib.Data.Fintype.Card
import LugalOS.Lib.Run

namespace LugalOS.Ktimer

open Function (update update_self update_of_ne)
open Run

def ktimerMax : Nat := 64

abbrev Slot := Fin ktimerMax

/-- A slot of g_tm; deadline, period and seq are 64 bits wide. -/
structure Timer where
  used : Bool
  armed : Bool
  periodic : Bool
  owner : Nat
  key : Nat
  fn : Nat
  arg : Nat
  deadline : Nat
  period : Nat
  seq : Nat

def Timer.zero : Timer := ⟨false,false,false,0,0,0,0,0,0,0⟩

/-- g_tm and g_tm_seq. -/
structure Timers where
  tm : Slot → Timer
  seq : Nat

def Timers.set (s : Timers) (i : Slot) (t : Timer) : Timers := {s with tm := update s.tm i t}

@[simp] theorem set_self (s : Timers) (i : Slot) (t : Timer) : (s.set i t).tm i=t :=
  update_self ..

theorem set_ne (s : Timers) {i j : Slot} (t : Timer) (h : j≠i) : (s.set i t).tm j=s.tm j :=
  update_of_ne h ..

def Timer.isOf (t : Timer) (owner key : Nat) : Bool := t.used && t.key==key && t.owner==owner

def tmFind (s : Timers) (owner key : Nat) : Option Slot :=
  (List.finRange ktimerMax).find? fun i => (s.tm i).isOf owner key

/-- tm_get: where the slot is, and the table. -/
def tmGet (s : Timers) (owner key : Nat) : Option (Slot×Timers) :=
  match tmFind s owner key with
  | some i => some (i,s)
  | none => ((List.finRange ktimerMax).find? fun i => !(s.tm i).used).map fun i =>
    (i,s.set i {Timer.zero with used := true, key := key, owner := owner})

/-- KO_OK is true. -/
def ktimerSetfn (s : Timers) (owner key fn arg : Nat) : Bool×Timers :=
  match tmGet s owner key with
  | none => (false,s)
  | some (i,s) => (true,s.set i {s.tm i with fn := fn, arg := arg})

/-- A zero period would spin the thread. -/
def delayOf (delay : Nat) (periodic : Bool) : Nat := if periodic ∧ delay=0 then 1 else delay

def ktimerArm (s : Timers) (owner key fn arg now delay : Nat) (periodic : Bool) : Bool×Timers :=
  match tmGet s owner key with
  | none => (false,s)
  | some (i,s) =>
    let t := if fn≠0 then {s.tm i with fn := fn, arg := arg} else s.tm i
    let delay := delayOf delay periodic
    let seq := (s.seq+1)%2^64
    (true,{s.set i {t with
      armed := true
      periodic := periodic
      deadline := (now+delay)%2^64
      period := delay
      seq := seq} with seq := seq})

def ktimerDisarm (s : Timers) (owner key : Nat) : Bool×Timers :=
  match tmFind s owner key with
  | none => (false,s)
  | some i => (true,s.set i {s.tm i with armed := false})

def ktimerDone (s : Timers) (owner key : Nat) : Bool×Timers :=
  match tmFind s owner key with
  | none => (false,s)
  | some i => (true,s.set i Timer.zero)

/-- What the loop of ktimer_pop_due does not pass over. -/
def Timer.due (t : Timer) (owner now : Nat) : Bool :=
  t.used && t.armed && t.owner==owner && decide (t.deadline≤now)

/-- The loop of ktimer_pop_due. -/
def dueLoop (s : Timers) (owner now : Nat) (best : Option Slot) (i : Slot) : Option Slot :=
  if (s.tm i).due owner now then
    match best with
    | none => some i
    | some b =>
      if (s.tm i).deadline<(s.tm b).deadline ∨
          (s.tm i).deadline=(s.tm b).deadline ∧ (s.tm i).seq<(s.tm b).seq then some i
      else some b
  else best

def dueBest (s : Timers) (owner now : Nat) : Option Slot :=
  (List.finRange ktimerMax).foldl (dueLoop s owner now) none

/-- The next deadline of a periodic timer that fires at now; missed periods are dropped. -/
def nextDeadline (t : Timer) (now : Nat) : Nat :=
  let next := (t.deadline+t.period)%2^64
  if next≤now then (now+t.period)%2^64 else next

/-- The key, the callback and its argument. -/
def ktimerPopDue (s : Timers) (owner now : Nat) : Option (Nat×Nat×Nat)×Timers :=
  match dueBest s owner now with
  | none => (none,s)
  | some b =>
    let t := s.tm b
    (some (t.key,t.fn,t.arg),
      if t.periodic then
        let seq := (s.seq+1)%2^64
        {s.set b {t with deadline := nextDeadline t now, seq := seq} with seq := seq}
      else s.set b {t with armed := false})

section Table

variable {s s' : Timers} {owner key now : Nat} {i j : Slot}

/-- No two slots are for the same owner and key. -/
def Single (s : Timers) : Prop :=
  ∀i j owner key,(s.tm i).isOf owner key=true → (s.tm j).isOf owner key=true → i=j

theorem isOf_iff {t : Timer} : t.isOf owner key=true ↔ t.used=true ∧ t.key=key ∧ t.owner=owner := by
  simp [Timer.isOf,and_assoc]

theorem due_iff {t : Timer} : t.due owner now=true ↔
    t.used=true ∧ t.armed=true ∧ t.owner=owner ∧ t.deadline≤now := by
  simp [Timer.due,and_assoc]

theorem tmFind_some (h : tmFind s owner key=some i) : (s.tm i).isOf owner key=true :=
  List.find?_some (p := fun i => (s.tm i).isOf owner key) h

theorem tmFind_none (h : tmFind s owner key=none) (i : Slot) : (s.tm i).isOf owner key=false := by
  have := List.find?_eq_none.mp h i (List.mem_finRange i)
  simpa using this

/-- The slot of an owner and a key, found or taken. -/
structure Got (s s' : Timers) (owner key : Nat) (i : Slot) : Prop where
  mine : (s'.tm i).isOf owner key=true
  seq : s'.seq=s.seq
  other : ∀j≠i,s'.tm j=s.tm j
  apart : ∀j≠i,(s.tm j).isOf owner key=false
  armed : (s'.tm i).armed=true → s'.tm i=s.tm i
  free : (s.tm i).used=true → s'.tm i=s.tm i

theorem found_got (hs : Single s) (h : tmFind s owner key=some i) : Got s s owner key i where
  mine := tmFind_some h
  seq := rfl
  other _ _ := rfl
  apart j hj := by
    rw [Bool.eq_false_iff]
    exact fun hf => hj (hs j i owner key hf (tmFind_some h))
  armed _ := rfl
  free _ := rfl

theorem tmGet_got (hs : Single s) (h : tmGet s owner key=some (i,s')) : Got s s' owner key i := by
  unfold tmGet at h
  cases hf : tmFind s owner key with
  | some k =>
    rw [hf] at h
    obtain ⟨rfl,rfl⟩ := Prod.mk.inj (Option.some.inj h)
    exact found_got hs hf
  | none =>
    rw [hf] at h
    obtain ⟨k,hk,he⟩ := Option.map_eq_some_iff.mp h
    obtain ⟨rfl,rfl⟩ := Prod.mk.inj he
    have hfree : (s.tm k).used=false := by simpa using List.find?_some hk
    refine ⟨?_,rfl,fun j hj => set_ne s _ hj,fun j _ => tmFind_none hf j,fun ha => ?_,fun hu => ?_⟩
    · rw [set_self,isOf_iff]
      exact ⟨rfl,rfl,rfl⟩
    · rw [set_self] at ha
      cases ha
    · rw [hfree] at hu
      cases hu

/-- Earlier deadlines first, and then what was armed first. -/
def order (t : Timer) : ℕ ×ₗ ℕ := toLex (t.deadline,t.seq)

theorem dueBest_eq (s : Timers) (owner now : Nat) : dueBest s owner now=
    ((List.finRange ktimerMax).filter fun i => (s.tm i).due owner now).argmin
      fun i => order (s.tm i) := by
  rw [List.argmin,List.foldl_filter,dueBest]
  congr 1
  funext best i
  unfold dueLoop
  cases best with
  | none => rfl
  | some b =>
    simp only [List.argAux,order,Prod.Lex.toLex_lt_toLex]

theorem dueBest_none (h : dueBest s owner now=none) (i : Slot) : (s.tm i).due owner now=false := by
  rw [dueBest_eq,List.argmin_eq_none,List.filter_eq_nil_iff] at h
  simpa using h i (List.mem_finRange i)

theorem dueBest_some (h : dueBest s owner now=some i) : (s.tm i).due owner now=true ∧
    ∀j,(s.tm j).due owner now=true → order (s.tm i)≤order (s.tm j) := by
  rw [dueBest_eq] at h
  refine ⟨(List.mem_filter.mp (List.argmin_mem h)).2,fun j hj => ?_⟩
  have hm : j∈(List.finRange ktimerMax).filter fun i => (s.tm i).due owner now :=
    List.mem_filter.mpr ⟨List.mem_finRange j,hj⟩
  exact List.le_of_mem_argmin (f := fun i => order (s.tm i)) hm h

end Table

/-- A call. -/
inductive Event where
  | setfn (owner key fn arg : Nat)
  | arm (owner key fn arg now delay : Nat) (periodic : Bool)
  | disarm (owner key : Nat)
  | done (owner key : Nat)
  | pop (owner now : Nat)

def Event.owner : Event → Nat
  | .setfn o _ _ _ | .arm o _ _ _ _ _ _ | .disarm o _ | .done o _ | .pop o _ => o

def Event.run (s : Timers) : Event → Timers
  | .setfn o k fn arg => (ktimerSetfn s o k fn arg).2
  | .arm o k fn arg now delay periodic => (ktimerArm s o k fn arg now delay periodic).2
  | .disarm o k => (ktimerDisarm s o k).2
  | .done o k => (ktimerDone s o k).2
  | .pop o now => (ktimerPopDue s o now).2

/-- What a timer is armed for: which arming it is, when it is due next, and how many were
scheduled up to it. Nothing here is cut to 64 bits. -/
structure Arming where
  id : Nat
  due : Nat
  serial : Nat

/-- A timer has fired: for which arming, when it was due, and when it was popped. -/
structure Fire where
  id : Nat
  due : Nat
  now : Nat
  periodic : Bool
  period : Nat

/-- Fires, and armings that ended by a call: a disarm, a done, or a new arming of the timer. -/
inductive Note where
  | fired (f : Fire)
  | ended (id : Nat)

def Note.id : Note → Nat
  | .fired f => f.id
  | .ended id => id

/-- The timers beside what they are armed for and everything that has happened, latest first. -/
structure Sys where
  timers : Timers
  arming : Slot → Arming
  count : Nat
  trace : List Note

def Sys.init : Sys := ⟨⟨fun _ => Timer.zero,0⟩,fun _ => ⟨0,0,0⟩,0,[]⟩

/-- The trace when the arming of slot i ends. -/
def Sys.ended (s : Sys) (i : Slot) : List Note :=
  if (s.timers.tm i).armed then .ended (s.arming i).id::s.trace else s.trace

/-- When a periodic timer is due after it fired at now. -/
def nextDue (due period now : Nat) : Nat := if due+period≤now then now+period else due+period

def Sys.play (s : Sys) (e : Event) : Sys :=
  let timers := e.run s.timers
  match e with
  | .setfn _ _ _ _ => {s with timers := timers}
  | .arm o k _ _ now delay periodic =>
    match tmGet s.timers o k with
    | none => {s with timers := timers}
    | some (i,_) =>
      ⟨timers,update s.arming i ⟨s.count+1,now+delayOf delay periodic,s.count+1⟩,s.count+1,
        s.ended i⟩
  | .disarm o k | .done o k =>
    match tmFind s.timers o k with
    | none => {s with timers := timers}
    | some i => {s with timers := timers,trace := s.ended i}
  | .pop o now =>
    match dueBest s.timers o now with
    | none => {s with timers := timers}
    | some i =>
      let t := s.timers.tm i
      let a := s.arming i
      let trace := .fired ⟨a.id,a.due,now,t.periodic,t.period⟩::s.trace
      if t.periodic then
        ⟨timers,update s.arming i ⟨a.id,nextDue a.due t.period now,s.count+1⟩,s.count+1,trace⟩
      else {s with timers := timers,trace := trace}

/-- What a call computes fits into 64 bits: the deadline it sets, the next deadlines of the
periodic timers that are due, and the number of armings. -/
def Fits (s : Timers) : Event → Prop
  | .arm _ _ _ _ now delay periodic => now+delayOf delay periodic<2^64 ∧ s.seq+1<2^64
  | .pop o now => ∀i,(s.tm i).due o now=true → (s.tm i).periodic=true →
    nextDue (s.tm i).deadline (s.tm i).period now<2^64 ∧ s.seq+1<2^64
  | .setfn _ _ _ _ | .disarm _ _ | .done _ _ => True

instance (s : Timers) : (e : Event) → Decidable (Fits s e)
  | .arm _ _ _ _ now delay periodic =>
    inferInstanceAs (Decidable (now+delayOf delay periodic<2^64 ∧ s.seq+1<2^64))
  | .pop o now => inferInstanceAs (Decidable (∀i,(s.tm i).due o now=true →
      (s.tm i).periodic=true → nextDue (s.tm i).deadline (s.tm i).period now<2^64 ∧ s.seq+1<2^64))
  | .setfn _ _ _ _ | .disarm _ _ | .done _ _ => isTrue trivial

/-- Of one arming, no fire follows its end, and fires are a period apart. -/
def Apart : Note → Note → Prop
  | .fired g,.ended id => id≠g.id
  | .fired g,.fired f => f.id=g.id → f.periodic=true ∧ f.due+f.period≤g.due
  | .ended _,_ => True

/-- An armed timer, what it is armed for, and what has happened to that arming. -/
structure Armed (t : Timer) (a : Arming) (count : Nat) (trace : List Note) : Prop where
  used : t.used=true
  deadline : t.deadline=a.due
  seq : t.seq=a.serial
  period : t.periodic=true → 0<t.period
  id : a.id≤count
  going : Note.ended a.id∉trace
  fired : ∀f,Note.fired f∈trace → f.id=a.id →
    f.periodic=true ∧ t.periodic=true ∧ f.due+f.period≤a.due

structure Inv (s : Sys) : Prop where
  single : Single s.timers
  seq : s.timers.seq=s.count
  armed : ∀i,(s.timers.tm i).armed=true → Armed (s.timers.tm i) (s.arming i) s.count s.trace
  ids : ∀i j,(s.timers.tm i).armed=true → (s.timers.tm j).armed=true →
    (s.arming i).id=(s.arming j).id → i=j
  noted : ∀n∈s.trace,n.id≤ s.count
  apart : s.trace.Pairwise Apart
  late : ∀f,Note.fired f∈s.trace → f.due≤f.now

/-- A step at slot i: its arming goes on, ends or fires, or a new one starts. -/
structure Change (s s' : Sys) (i : Slot) : Prop where
  other : ∀j≠i,s'.timers.tm j=s.timers.tm j ∧ s'.arming j=s.arming j
  count : s.count≤ s'.count
  seq : s'.timers.seq=s'.count
  trace : s'.trace=s.trace ∨ (s.timers.tm i).armed=true ∧ ∃n,n.id=(s.arming i).id ∧
    (∀m∈s.trace,Apart n m) ∧ (∀f,n=.fired f → f.due≤f.now) ∧ s'.trace=n::s.trace
  own : (s'.timers.tm i).armed=true →
    Armed (s'.timers.tm i) (s'.arming i) s'.count s'.trace ∧
      ((s.timers.tm i).armed=true ∧ (s'.arming i).id=(s.arming i).id ∨ s.count<(s'.arming i).id)
  single : ∀owner key,(s'.timers.tm i).isOf owner key=true →
    ∀j≠i,(s.timers.tm j).isOf owner key=false

section Steps

variable {s s' : Sys} {i : Slot} {o k : Nat}

theorem Inv.armed_other (h : Inv s) (c : Change s s' i) {j : Slot} (hj : j≠i)
    (ha : (s.timers.tm j).armed=true) :
    Armed (s.timers.tm j) (s.arming j) s'.count s'.trace := by
  have hb := h.armed j ha
  have hid := hb.id.trans c.count
  obtain ht | ⟨hi,n,hn,-,-,ht⟩ := c.trace
  · rw [ht]
    exact {hb with id := hid}
  · have hne : n.id≠(s.arming j).id := fun he => hj (h.ids j i ha hi (he.symm.trans hn))
    rw [ht]
    refine {hb with id := hid,going := fun hm => ?_,fired := fun f hm hf => ?_}
    · obtain he | hm := List.mem_cons.mp hm
      · exact hne (congrArg Note.id he).symm
      · exact hb.going hm
    · obtain he | hm := List.mem_cons.mp hm
      · exact absurd ((congrArg Note.id he).symm.trans hf) hne
      · exact hb.fired f hm hf

theorem Inv.change (h : Inv s) (c : Change s s' i) : Inv s' := by
  have hother : ∀j≠i,(s'.timers.tm j).armed=true → (s.timers.tm j).armed=true := fun j hj ha => by
    rwa [(c.other j hj).1] at ha
  -- the arming of slot i is an old one of that slot, or has a number of its own
  have hid : ∀j≠i,(s'.timers.tm i).armed=true → (s'.timers.tm j).armed=true →
      (s'.arming i).id≠(s'.arming j).id := fun j hj hi ha he => by
    rw [(c.other j hj).2] at he
    obtain ⟨hb,hold⟩ | hnew := (c.own hi).2
    · exact hj (h.ids j i (hother j hj ha) hb (he.symm.trans hold))
    · have := (h.armed j (hother j hj ha)).id
      omega
  refine ⟨fun a b owner key ha hb => ?_,c.seq,fun j ha => ?_,fun a b ha hb he => ?_,?_,?_,?_⟩
  · by_cases hai : a=i
    · by_cases hbi : b=i
      · rw [hai,hbi]
      · subst hai
        rw [(c.other b hbi).1,c.single owner key ha b hbi] at hb
        cases hb
    · rw [(c.other a hai).1] at ha
      by_cases hbi : b=i
      · subst hbi
        rw [c.single owner key hb a hai] at ha
        cases ha
      · rw [(c.other b hbi).1] at hb
        exact h.single a b owner key ha hb
  · by_cases hj : j=i
    · rw [hj] at ha ⊢
      exact (c.own ha).1
    · rw [(c.other j hj).1,(c.other j hj).2]
      exact h.armed_other c hj (hother j hj ha)
  · by_cases hai : a=i
    · subst hai
      by_contra hne
      exact hid b (Ne.symm hne) ha hb he
    · by_cases hbi : b=i
      · subst hbi
        exact absurd he.symm (hid a hai hb ha)
      · rw [(c.other a hai).2,(c.other b hbi).2] at he
        exact h.ids a b (hother a hai ha) (hother b hbi hb) he
  · have hold : ∀n∈s.trace,n.id≤ s'.count := fun n hn => (h.noted n hn).trans c.count
    obtain ht | ⟨hi,n,hn,-,-,ht⟩ := c.trace
    · rwa [ht]
    · rw [ht]
      refine List.forall_mem_cons.mpr ⟨?_,hold⟩
      rw [hn]
      exact (h.armed i hi).id.trans c.count
  · obtain ht | ⟨-,n,-,ha,-,ht⟩ := c.trace
    · rw [ht]
      exact h.apart
    · rw [ht]
      exact List.pairwise_cons.mpr ⟨ha,h.apart⟩
  · intro f hf
    obtain ht | ⟨-,n,-,-,hl,ht⟩ := c.trace
    · exact h.late f (ht ▸ hf)
    · rw [ht] at hf
      obtain he | hf := List.mem_cons.mp hf
      · exact hl f he.symm
      · exact h.late f hf

theorem isOf_eq {t : Timer} {owner key : Nat} (h : t.isOf o k=true) (h' : t.isOf owner key=true) :
    owner=o ∧ key=k := by
  rw [isOf_iff] at h h'
  exact ⟨h'.2.2.symm.trans h.2.2,h'.2.1.symm.trans h.2.1⟩

theorem Got.single {t s1 : Timers} (g : Got t s1 o k i) {u : Timer} (hu : u.isOf o k=true) :
    ∀owner key,u.isOf owner key=true → ∀j≠i,(t.tm j).isOf owner key=false := by
  intro owner key h j hj
  obtain ⟨rfl,rfl⟩ := isOf_eq hu h
  exact g.apart j hj

theorem Sys.ended_trace (s : Sys) (i : Slot) : s.ended i=s.trace ∨ (s.timers.tm i).armed=true ∧
    ∃n,n.id=(s.arming i).id ∧ (∀m∈s.trace,Apart n m) ∧ (∀f,n=.fired f → f.due≤f.now) ∧
      s.ended i=n::s.trace := by
  rw [ended]
  by_cases ha : (s.timers.tm i).armed=true
  · rw [if_pos ha]
    exact .inr ⟨ha,.ended _,rfl,fun _ _ => trivial,fun f hf => (by cases hf),rfl⟩
  · rw [if_neg ha]
    exact .inl rfl

theorem Inv.setfn (h : Inv s) (fn arg : Nat) : Inv (s.play (.setfn o k fn arg)) := by
  cases hg : tmGet s.timers o k with
  | none =>
    have he : s.play (.setfn o k fn arg)=s := by simp only [Sys.play,Event.run,ktimerSetfn,hg]
    rwa [he]
  | some r =>
    obtain ⟨i,s1⟩ := r
    have g := tmGet_got h.single hg
    refine h.change (i := i) ?_
    simp only [Sys.play,Event.run,ktimerSetfn,hg]
    refine ⟨fun j hj => ⟨(set_ne _ _ hj).trans (g.other j hj),rfl⟩,Nat.le_refl _,
      g.seq.trans h.seq,.inl rfl,fun ha => ?_,?_⟩
    · rw [set_self] at ha ⊢
      have he := g.armed ha
      have hb := h.armed i (he ▸ ha)
      rw [he]
      exact ⟨{hb with},.inl ⟨he ▸ ha,rfl⟩⟩
    · rw [set_self]
      exact g.single (u := {s1.tm i with fn := fn,arg := arg}) g.mine

theorem arm_eq {t s1 : Timers} (hg : tmGet t o k=some (i,s1)) (fn arg now delay : Nat) (p : Bool) :
    ∃fn' arg',ktimerArm t o k fn arg now delay p=(true,{s1.set i {s1.tm i with
      armed := true
      periodic := p
      fn := fn'
      arg := arg'
      deadline := (now+delayOf delay p)%2^64
      period := delayOf delay p
      seq := (s1.seq+1)%2^64} with seq := (s1.seq+1)%2^64}) := by
  simp only [ktimerArm,hg]
  by_cases hf : fn≠0
  · exact ⟨fn,arg,by rw [if_pos hf]⟩
  · exact ⟨(s1.tm i).fn,(s1.tm i).arg,by rw [if_neg hf]⟩

theorem delayOf_pos {delay : Nat} {p : Bool} (hp : p=true) : 0<delayOf delay p := by
  rw [delayOf]
  split_ifs with h
  · exact Nat.one_pos
  · exact Nat.pos_of_ne_zero fun h0 => h ⟨hp,h0⟩

theorem Inv.arm (h : Inv s) {fn arg now delay : Nat} {p : Bool}
    (hf : Fits s.timers (.arm o k fn arg now delay p)) :
    Inv (s.play (.arm o k fn arg now delay p)) := by
  cases hg : tmGet s.timers o k with
  | none =>
    have he : s.play (.arm o k fn arg now delay p)=s := by
      simp only [Sys.play,Event.run,ktimerArm,hg]
    rwa [he]
  | some r =>
    obtain ⟨i,s1⟩ := r
    have g := tmGet_got h.single hg
    obtain ⟨fn',arg',he⟩ := arm_eq hg fn arg now delay p
    refine h.change (i := i) ?_
    simp only [Sys.play,Event.run,he,hg]
    have hseq : (s1.seq+1)%2^64=s.count+1 := by
      rw [g.seq,h.seq]
      exact Nat.mod_eq_of_lt (h.seq ▸ hf.2)
    have hnew : ∀n∈s.ended i,n.id≤ s.count := by
      obtain ht | ⟨ha,n,hn,-,-,ht⟩ := s.ended_trace i
      · rw [ht]
        exact h.noted
      · rw [ht]
        exact List.forall_mem_cons.mpr ⟨hn ▸ (h.armed i ha).id,h.noted⟩
    refine ⟨fun j hj => ⟨(set_ne _ _ hj).trans (g.other j hj),update_of_ne hj ..⟩,
      Nat.le_succ _,hseq,s.ended_trace i,fun _ => ?_,?_⟩
    · dsimp only
      rw [set_self,update_self]
      refine ⟨⟨(isOf_iff.mp g.mine).1,Nat.mod_eq_of_lt hf.1,hseq,delayOf_pos,Nat.le_refl _,
        fun hm => ?_,fun f hm hid => ?_⟩,.inr (Nat.lt_succ_self _)⟩
      · exact absurd (hnew _ hm) (Nat.not_succ_le_self _)
      · have := hnew _ hm
        rw [Note.id,hid] at this
        exact absurd this (Nat.not_succ_le_self _)
    · rw [set_self]
      exact g.single (isOf_iff.mpr (isOf_iff.mp g.mine))

theorem Inv.stop (h : Inv s) (hf : tmFind s.timers o k=some i) {t : Timer} (ht : t.armed=false)
    (hu : t.used=true → t.isOf o k=true) :
    Inv {s with timers := s.timers.set i t,trace := s.ended i} := by
  have g := found_got h.single hf
  refine h.change (i := i) ⟨fun j hj => ⟨set_ne _ _ hj,rfl⟩,Nat.le_refl _,h.seq,s.ended_trace i,
    fun ha => ?_,fun owner key hk => ?_⟩
  · dsimp only at ha
    rw [set_self,ht] at ha
    cases ha
  · dsimp only at hk
    rw [set_self] at hk
    exact g.single (hu (isOf_iff.mp hk).1) owner key hk

theorem Inv.disarm (h : Inv s) : Inv (s.play (.disarm o k)) := by
  simp only [Sys.play,Event.run,ktimerDisarm]
  cases hf : tmFind s.timers o k with
  | none => exact h
  | some i => exact h.stop hf rfl fun _ => isOf_iff.mpr (isOf_iff.mp (tmFind_some hf))

theorem Inv.done (h : Inv s) : Inv (s.play (.done o k)) := by
  simp only [Sys.play,Event.run,ktimerDone]
  cases hf : tmFind s.timers o k with
  | none => exact h
  | some i => exact h.stop hf rfl fun hu => by cases hu

theorem nextDue_ge (due period now : Nat) : due+period≤nextDue due period now := by
  rw [nextDue]
  split_ifs <;> omega

theorem nextDue_after {period : Nat} (due now : Nat) (hp : 0<period) :
    now < nextDue due period now := by
  rw [nextDue]
  split_ifs <;> omega

theorem nextDeadline_eq {t : Timer} {now : Nat} (h : nextDue t.deadline t.period now<2^64) :
    nextDeadline t now=nextDue t.deadline t.period now := by
  have hle := Nat.lt_of_le_of_lt (nextDue_ge t.deadline t.period now) h
  unfold nextDeadline nextDue at *
  dsimp only
  rw [Nat.mod_eq_of_lt hle]
  by_cases hn : t.deadline+t.period≤now
  · rw [if_pos hn] at h ⊢
    rw [if_pos hn,Nat.mod_eq_of_lt h]
  · rw [if_neg hn,if_neg hn]

theorem Inv.pop (h : Inv s) {now : Nat} (hf : Fits s.timers (.pop o now)) :
    Inv (s.play (.pop o now)) := by
  simp only [Sys.play,Event.run,ktimerPopDue]
  cases hb : dueBest s.timers o now with
  | none => exact h
  | some i =>
    have hdue := (dueBest_some hb).1
    obtain ⟨hused,harm,hown,hle⟩ := due_iff.mp hdue
    have ha := h.armed i harm
    -- the fire, and that it follows everything before it
    have hfire : ∀m∈s.trace,Apart (.fired ⟨(s.arming i).id,(s.arming i).due,now,
        (s.timers.tm i).periodic,(s.timers.tm i).period⟩) m := by
      intro m hm
      cases m with
      | ended id =>
        intro he
        rw [he] at hm
        exact ha.going hm
      | fired f => exact fun he => ⟨(ha.fired f hm he).1,(ha.fired f hm he).2.2⟩
    have hlate : ∀f,Note.fired ⟨(s.arming i).id,(s.arming i).due,now,
        (s.timers.tm i).periodic,(s.timers.tm i).period⟩=.fired f → f.due≤f.now := by
      rintro f ⟨⟩
      exact ha.deadline ▸ hle
    have hone : ∀{u : Timer},u.isOf o (s.timers.tm i).key=true → ∀owner key,
        u.isOf owner key=true → ∀j≠i,(s.timers.tm j).isOf owner key=false := by
      intro u hu owner key hk j hj
      obtain ⟨rfl,rfl⟩ := isOf_eq hu hk
      rw [Bool.eq_false_iff]
      exact fun hc => hj (h.single j i _ _ hc (isOf_iff.mpr ⟨hused,rfl,hown⟩))
    by_cases hp : (s.timers.tm i).periodic=true
    · obtain ⟨hnext,hroom⟩ := hf i hdue hp
      have hseq : (s.timers.seq+1)%2^64=s.count+1 := by
        rw [Nat.mod_eq_of_lt hroom,h.seq]
      have hge := nextDue_ge (s.arming i).due (s.timers.tm i).period now
      have hd := (nextDeadline_eq hnext).trans (by rw [ha.deadline])
      simp only [if_pos hp]
      refine h.change (i := i) ⟨fun j hj => ⟨set_ne _ _ hj,update_of_ne hj ..⟩,Nat.le_succ _,
        hseq,.inr ⟨harm,_,rfl,hfire,hlate,rfl⟩,fun _ => ?_,?_⟩
      · dsimp only
        rw [set_self,update_self]
        refine ⟨⟨hused,hd,hseq,ha.period,ha.id.trans (Nat.le_succ _),fun hm => ?_,
          fun f hm he => ?_⟩,.inl ⟨harm,rfl⟩⟩
        · obtain hm | hm := List.mem_cons.mp hm
          · cases hm
          · exact ha.going hm
        · obtain hm | hm := List.mem_cons.mp hm
          · cases hm
            exact ⟨hp,hp,hge⟩
          · have hold := ha.fired f hm he
            exact ⟨hold.1,hp,hold.2.2.trans ((Nat.le_add_right _ _).trans hge)⟩
      · dsimp only
        rw [set_self]
        exact hone (isOf_iff.mpr ⟨hused,rfl,hown⟩)
    · simp only [if_neg hp]
      refine h.change (i := i) ⟨fun j hj => ⟨set_ne _ _ hj,rfl⟩,Nat.le_refl _,h.seq,
        .inr ⟨harm,_,rfl,hfire,hlate,rfl⟩,fun hc => ?_,?_⟩
      · dsimp only at hc
        rw [set_self] at hc
        cases hc
      · dsimp only
        rw [set_self]
        exact hone (isOf_iff.mpr ⟨hused,rfl,hown⟩)

theorem inv_init : Inv Sys.init where
  single _ _ _ _ h := by cases h
  seq := rfl
  armed _ h := by cases h
  ids _ _ h := by cases h
  noted _ h := by cases h
  apart := List.Pairwise.nil
  late _ h := by cases h

theorem Inv.step (h : Inv s) {e : Event} (hf : Fits s.timers e) : Inv (s.play e) := by
  cases e with
  | setfn o k fn arg => exact h.setfn fn arg
  | arm o k fn arg now delay p => exact h.arm hf
  | disarm o k => exact h.disarm
  | done o k => exact h.done
  | pop o now => exact h.pop hf

end Steps

/-- The timers of an owner that are due, by what they are armed for. -/
def Sys.Due (s : Sys) (owner now : Nat) (i : Slot) : Prop :=
  (s.timers.tm i).used=true ∧ (s.timers.tm i).armed=true ∧ (s.timers.tm i).owner=owner ∧
    (s.arming i).due≤now

/-- What is popped at now: the first of the owner's timers that are due, in order of deadline and
then arming, if there is one. A one-shot is no longer armed then, and a periodic timer is armed
for a time after now. -/
def Pops (s : Sys) (owner now : Nat) : Prop :=
  match ktimerPopDue s.timers owner now with
  | (none,t) => t=s.timers ∧ ∀i,¬s.Due owner now i
  | (some r,t) => ∃i,s.Due owner now i ∧
    r=((s.timers.tm i).key,(s.timers.tm i).fn,(s.timers.tm i).arg) ∧
    (∀j,s.Due owner now j → (s.arming i).due<(s.arming j).due ∨
      (s.arming i).due=(s.arming j).due ∧ (s.arming i).serial≤(s.arming j).serial) ∧
    (∀j≠i,t.tm j=s.timers.tm j) ∧
    ((s.timers.tm i).periodic=false → (t.tm i).armed=false) ∧
    ((s.timers.tm i).periodic=true → (t.tm i).armed=true ∧ now < (t.tm i).deadline)

def popped (owner now : Nat) (s : Timers) : Nat → Timers
  | 0 => s
  | n+1 => popped owner now (ktimerPopDue s owner now).2 n

/-- A loop that pops until false ends. -/
def Ends (s : Timers) (owner now : Nat) : Prop :=
  ∃n≤ktimerMax,(ktimerPopDue (popped owner now s n) owner now).1=none

def Timer.mine (owner : Nat) (t : Timer) : Option Timer :=
  if t.used=true ∧ t.owner=owner then some t else none

/-- What a call does. -/
structure Lawful (s : Sys) (e : Event) : Prop where
  arm : ∀o k fn arg now delay p,e=.arm o k fn arg now delay p →
    (ktimerArm s.timers o k fn arg now delay p).1=true →
    ∃i,((e.run s.timers).tm i).isOf o k=true ∧ ((e.run s.timers).tm i).armed=true ∧
      ((e.run s.timers).tm i).periodic=p ∧
      ((e.run s.timers).tm i).deadline=now+delayOf delay p
  disarm : ∀o k,(e=.disarm o k ∨ e=.done o k) →
    ∀i,((e.run s.timers).tm i).isOf o k=true → ((e.run s.timers).tm i).armed=false
  pop : ∀o now,e=.pop o now → Pops s o now ∧ Ends s.timers o now
  others : ∀o≠e.owner,∀i,((e.run s.timers).tm i).mine o=(s.timers.tm i).mine o
  apart : (s.play e).trace.Pairwise Apart
  late : ∀f,Note.fired f∈(s.play e).trace → f.due≤f.now

section Laws

variable {s : Sys} {t : Timers} {o k now : Nat}

theorem isOf_mine {u : Timer} {o' : Nat} (h : u.isOf o k=true) (ho : o'≠o) : u.mine o'=none :=
  if_neg fun hc => ho (hc.2.symm.trans (isOf_iff.mp h).2.2)

theorem Got.mine_other {t s1 : Timers} {i : Slot} (g : Got t s1 o k i) {o' : Nat} (ho : o'≠o) :
    (t.tm i).mine o'=none := by
  by_cases hu : (t.tm i).used=true
  · rw [← g.free hu]
    exact isOf_mine g.mine ho
  · exact if_neg fun hc => hu hc.1

theorem set_mine {s1 : Timers} {i : Slot} {u : Timer} {o' : Nat} (g : Got t s1 o k i) (ho : o'≠o)
    (hu : u.used=true → u.owner=o) (j : Slot) :
    ((s1.set i u).tm j).mine o'=(t.tm j).mine o' := by
  by_cases hj : j=i
  · rw [hj,set_self,g.mine_other ho]
    exact if_neg fun hc => ho (hc.2.symm.trans (hu hc.1))
  · rw [set_ne _ _ hj,g.other j hj]

theorem pop_eq {i : Slot} (hb : dueBest t o now=some i) : ktimerPopDue t o now=
    (some ((t.tm i).key,(t.tm i).fn,(t.tm i).arg),
      if (t.tm i).periodic then
        {t.set i {t.tm i with deadline := nextDeadline (t.tm i) now,seq := (t.seq+1)%2^64} with
          seq := (t.seq+1)%2^64}
      else t.set i {t.tm i with armed := false}) := by
  rw [ktimerPopDue,hb]

theorem run_others (hs : Single t) (e : Event) (o' : Nat) (ho : o'≠e.owner) (j : Slot) :
    ((e.run t).tm j).mine o'=(t.tm j).mine o' := by
  cases e with
  | setfn o k fn arg =>
    cases hg : tmGet t o k with
    | none => simp only [Event.run,ktimerSetfn,hg]
    | some r =>
      have g := tmGet_got hs hg
      simp only [Event.run,ktimerSetfn,hg]
      refine set_mine g ho ?_ j
      exact fun _ => (isOf_iff.mp g.mine).2.2
  | arm o k fn arg now delay p =>
    cases hg : tmGet t o k with
    | none => simp only [Event.run,ktimerArm,hg]
    | some r =>
      have g := tmGet_got hs hg
      obtain ⟨fn',arg',he⟩ := arm_eq hg fn arg now delay p
      simp only [Event.run,he]
      refine set_mine g ho ?_ j
      exact fun _ => (isOf_iff.mp g.mine).2.2
  | disarm o k =>
    cases hf : tmFind t o k with
    | none => simp only [Event.run,ktimerDisarm,hf]
    | some i =>
      have g := found_got hs hf
      simp only [Event.run,ktimerDisarm,hf]
      refine set_mine g ho ?_ j
      exact fun _ => (isOf_iff.mp g.mine).2.2
  | done o k =>
    cases hf : tmFind t o k with
    | none => simp only [Event.run,ktimerDone,hf]
    | some i =>
      simp only [Event.run,ktimerDone,hf]
      exact set_mine (found_got hs hf) ho (fun hu => by cases hu) j
  | pop o now =>
    cases hb : dueBest t o now with
    | none => simp only [Event.run,ktimerPopDue,hb]
    | some i =>
      have hi := (due_iff.mp (dueBest_some hb).1).2.2.1
      have hnone : ∀u : Timer,u.owner=o → u.mine o'=none := fun u hu =>
        if_neg fun hc => ho (hc.2.symm.trans hu)
      rw [Event.run,pop_eq hb]
      by_cases hj : j=i
      · rw [hj,hnone _ hi]
        refine hnone _ ?_
        split_ifs <;> simp only [set_self] <;> exact hi
      · split_ifs <;> simp only [set_ne _ _ hj]

theorem stopped {t' : Timers} {f : Timer → Timer} (hs : Single t)
    (hnone : tmFind t o k=none → t'=t)
    (hsome : ∀j,tmFind t o k=some j → t'=t.set j (f (t.tm j))) (hf : ∀u,(f u).armed=false)
    (i : Slot) (hi : (t'.tm i).isOf o k=true) : (t'.tm i).armed=false := by
  cases hk : tmFind t o k with
  | none =>
    rw [hnone hk,tmFind_none hk i] at hi
    cases hi
  | some j =>
    rw [hsome j hk] at hi ⊢
    by_cases hj : i=j
    · rw [hj,set_self]
      exact hf _
    · rw [set_ne _ _ hj,(found_got hs hk).apart i hj] at hi
      cases hi

theorem Inv.due_iff (h : Inv s) (i : Slot) : s.Due o now i ↔ (s.timers.tm i).due o now=true := by
  rw [Ktimer.due_iff,Sys.Due]
  constructor
  · rintro ⟨h1,h2,h3,h4⟩
    exact ⟨h1,h2,h3,(h.armed i h2).deadline ▸ h4⟩
  · rintro ⟨h1,h2,h3,h4⟩
    exact ⟨h1,h2,h3,(h.armed i h2).deadline ▸ h4⟩

theorem pop_slot {i : Slot} (hb : dueBest t o now=some i)
    (hf : (t.tm i).periodic=true → nextDue (t.tm i).deadline (t.tm i).period now<2^64) :
    (ktimerPopDue t o now).1=some ((t.tm i).key,(t.tm i).fn,(t.tm i).arg) ∧
    (∀j≠i,(ktimerPopDue t o now).2.tm j=t.tm j) ∧
    ((t.tm i).periodic=false → ((ktimerPopDue t o now).2.tm i).armed=false) ∧
    ((t.tm i).periodic=true → ((ktimerPopDue t o now).2.tm i).armed=true ∧
      ((ktimerPopDue t o now).2.tm i).deadline=nextDue (t.tm i).deadline (t.tm i).period now) := by
  rw [pop_eq hb]
  refine ⟨rfl,?_⟩
  by_cases hp : (t.tm i).periodic=true
  · rw [if_pos hp]
    refine ⟨fun j hj => set_ne _ _ hj,fun hc => absurd hp (by rw [hc]; decide),fun _ => ?_⟩
    dsimp only
    rw [set_self]
    exact ⟨(Ktimer.due_iff.mp (dueBest_some hb).1).2.1,nextDeadline_eq (hf hp)⟩
  · rw [if_neg hp]
    refine ⟨fun j hj => set_ne _ _ hj,fun _ => ?_,fun hc => absurd hc hp⟩
    dsimp only
    rw [set_self]

theorem Inv.pops (h : Inv s) (hf : Fits s.timers (.pop o now)) : Pops s o now := by
  rw [Pops]
  cases hb : dueBest s.timers o now with
  | none =>
    have he : ktimerPopDue s.timers o now=(none,s.timers) := by simp only [ktimerPopDue,hb]
    rw [he]
    refine ⟨rfl,fun i hi => ?_⟩
    rw [h.due_iff,dueBest_none hb i] at hi
    cases hi
  | some i =>
    obtain ⟨hdue,hfirst⟩ := dueBest_some hb
    have ha := h.armed i (Ktimer.due_iff.mp hdue).2.1
    obtain ⟨hr,hother,hone,hper⟩ := pop_slot hb fun hp => (hf i hdue hp).1
    rw [← Prod.eta (ktimerPopDue s.timers o now),hr]
    refine ⟨i,(h.due_iff i).mpr hdue,rfl,fun j hj => ?_,hother,hone,fun hp => ?_⟩
    · have hle := hfirst j ((h.due_iff j).mp hj)
      have hb := h.armed j hj.2.1
      rwa [order,order,Prod.Lex.toLex_le_toLex,ha.deadline,ha.seq,hb.deadline,hb.seq] at hle
    · refine ⟨(hper hp).1,?_⟩
      rw [(hper hp).2]
      exact nextDue_after _ _ (ha.period hp)

open Finset in
theorem ends_of_due {n : Nat} (hf : ∀i,(t.tm i).due o now=true → (t.tm i).periodic=true →
      0<(t.tm i).period ∧ nextDue (t.tm i).deadline (t.tm i).period now<2^64)
    (hn : #{i | (t.tm i).due o now=true}≤n) :
    ∃m≤n,(ktimerPopDue (popped o now t m) o now).1=none := by
  induction n generalizing t with
  | zero =>
    refine ⟨0,Nat.le_refl 0,?_⟩
    cases hb : dueBest t o now with
    | none => simp only [popped,ktimerPopDue,hb]
    | some i =>
      have hm := card_eq_zero.mp (Nat.le_zero.mp hn)
      exact absurd (mem_filter.mpr ⟨mem_univ i,(dueBest_some hb).1⟩) (by rw [hm]; exact notMem_empty i)
  | succ n ih =>
    cases hb : dueBest t o now with
    | none => exact ⟨0,Nat.zero_le _,by simp only [popped,ktimerPopDue,hb]⟩
    | some i =>
      have hdue := (dueBest_some hb).1
      obtain ⟨-,hother,hone,hper⟩ := pop_slot hb fun hp => (hf i hdue hp).2
      have hgone : ((ktimerPopDue t o now).2.tm i).due o now=false := by
        rw [Bool.eq_false_iff,Ne,Ktimer.due_iff]
        rintro ⟨-,hc,-,hd⟩
        cases hpi : (t.tm i).periodic with
        | false => exact absurd hc (by rw [hone hpi]; decide)
        | true =>
          rw [(hper hpi).2] at hd
          exact absurd (nextDue_after _ now (hf i hdue hpi).1) (Nat.not_lt.mpr hd)
      have hstay : ∀j,((ktimerPopDue t o now).2.tm j).due o now=true → j≠i ∧
          (ktimerPopDue t o now).2.tm j=t.tm j := by
        intro j hj
        have hne : j≠i := by
          rintro rfl
          rw [hgone] at hj
          cases hj
        exact ⟨hne,hother j hne⟩
      have hless : #{j | ((ktimerPopDue t o now).2.tm j).due o now=true}≤n := by
        have hsub : ({j | ((ktimerPopDue t o now).2.tm j).due o now=true} : Finset Slot)⊂
            ({j | (t.tm j).due o now=true} : Finset Slot) := by
          refine (ssubset_iff_of_subset fun j hj => ?_).mpr ⟨i,by simpa using hdue,by simpa using hgone⟩
          have hj := (mem_filter.mp hj).2
          rw [(hstay j hj).2] at hj
          exact mem_filter.mpr ⟨mem_univ j,hj⟩
        exact Nat.le_of_lt_succ ((card_lt_card hsub).trans_le hn)
      obtain ⟨m,hm,he⟩ := ih (fun j hj hp => by
        have he := (hstay j hj).2
        rw [he] at hj hp ⊢
        exact hf j hj hp) hless
      exact ⟨m+1,Nat.succ_le_succ hm,he⟩

theorem Inv.ends (h : Inv s) (hf : Fits s.timers (.pop o now)) : Ends s.timers o now := by
  refine ends_of_due (n := ktimerMax) (fun i hi hp => ⟨?_,(hf i hi hp).1⟩) ?_
  · exact (h.armed i (Ktimer.due_iff.mp hi).2.1).period hp
  · exact (Finset.card_le_univ _).trans_eq (Fintype.card_fin ktimerMax)

theorem Inv.lawful (h : Inv s) {e : Event} (hf : Fits s.timers e) : Lawful s e where
  arm := by
    rintro o k fn arg now delay p rfl hok
    cases hg : tmGet s.timers o k with
    | none =>
      rw [ktimerArm,hg] at hok
      cases hok
    | some r =>
      obtain ⟨i,s1⟩ := r
      obtain ⟨fn',arg',he⟩ := arm_eq hg fn arg now delay p
      have g := tmGet_got h.single hg
      refine ⟨i,?_⟩
      rw [Event.run,he]
      dsimp only
      rw [set_self]
      exact ⟨isOf_iff.mpr (isOf_iff.mp g.mine),rfl,rfl,Nat.mod_eq_of_lt hf.1⟩
  disarm := by
    rintro o k (rfl | rfl) i hi
    · refine stopped (f := fun u => {u with armed := false}) h.single (fun hk => ?_) (fun j hk => ?_)
        (fun _ => rfl) i hi
      · rw [Event.run,ktimerDisarm,hk]
      · rw [Event.run,ktimerDisarm,hk]
    · refine stopped (f := fun _ => Timer.zero) h.single (fun hk => ?_) (fun j hk => ?_)
        (fun _ => rfl) i hi
      · rw [Event.run,ktimerDone,hk]
      · rw [Event.run,ktimerDone,hk]
  pop := by
    rintro o now rfl
    exact ⟨h.pops hf,h.ends hf⟩
  others := run_others h.single e
  apart := (h.step hf).apart
  late := (h.step hf).late

/-- Along every run, as long as what is computed fits. -/
theorem ktimer_law {h : List Event}
    (hr : Reach (fun s e s' => Fits s.timers e ∧ s'=s.play e) Sys.init h s) (e : Event)
    (hf : Fits s.timers e) : Lawful s e := by
  refine Inv.lawful (hr.invariant (fun _ s => Inv s) inv_init fun _ s e s' hi hs => ?_) hf
  rw [hs.2]
  exact hi.step hs.1

/-- A periodic timer that is late by nine periods. -/
def late : Sys :=
  (Sys.init.play (.arm 1 1 7 8 0 100 true)).play (.arm 2 1 7 9 0 50 false)

theorem ktimer_law_late : Lawful late (.pop 1 1000) ∧
    (ktimerPopDue late.timers 1 1000).1=some (1,7,8) :=
  ⟨ktimer_law ((Reach.start.next ⟨by decide,rfl⟩).next ⟨by decide,rfl⟩) (.pop 1 1000)
    (by decide +kernel),by decide +kernel⟩

/-- Armed with a period of 2^64-1 at 5: the deadline is 4, and after a fire 3, or 4 again. -/
def wrapped : Sys := Sys.init.play (.arm 1 1 7 8 5 (2^64-1) true)

/-- What is due only after 2^64 is popped at once. -/
theorem delay_wraps : ¬∀(h : List Event) (s : Sys),
    Reach (fun s e s' => s'=s.play e) Sys.init h s → ∀e,Lawful s e := by
  intro hall
  have hrun : Reach (fun s e s' => s'=s.play e) Sys.init _ wrapped := Reach.start.next rfl
  have hp := ((hall _ _ hrun (.pop 1 5)).pop 1 5 rfl).1
  have hpop : (ktimerPopDue wrapped.timers 1 5).1=some (1,7,8) := by decide +kernel
  have hdue : ∀i,(wrapped.timers.tm i).armed=true → ¬(wrapped.arming i).due≤5 := by decide +kernel
  rw [Pops,← Prod.eta (ktimerPopDue wrapped.timers 1 5),hpop] at hp
  obtain ⟨i,hi,-⟩ := hp
  exact hdue i hi.2.1 hi.2.2.2

end Laws

end LugalOS.Ktimer
