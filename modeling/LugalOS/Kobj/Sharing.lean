import LugalOS.Kobj.Semaphores
import LugalOS.Kobj.Mutexes
import LugalOS.Kobj.Queues
import LugalOS.Kobj.Events

namespace LugalOS.Kobj

open Function (update)
open Run

variable {n : Nat}

def membersOf : (κ : Kind) → Waiters n → Obj n κ → List (Fin n)
  | .sem,ws,s => s.w.members ws
  | .mutex,ws,m => m.w.members ws
  | .queue,ws,q => q.members ws
  | .event,ws,e => e.w.members ws

def SoundObj : (κ : Kind) → Waiters n → Obj n κ → Prop
  | .sem,ws,s => s.Sound ws
  | .mutex,ws,m => m.Sound ws
  | .queue,ws,q => q.Sound ws
  | .event,ws,e => e.Sound ws

/-- Those that wait for the object in a slot. -/
def Objects.members (k : Objects n) (κ : Kind) (i : Nat) : List (Fin n) :=
  if (k.tab κ i).used then membersOf κ k.ws (k.tab κ i).obj else []

/-- Each waiter that waits is in one place. -/
structure Objects.Inv (k : Objects n) : Prop where
  sound : ∀κ i,(k.tab κ i).used=true → SoundObj κ k.ws (k.tab κ i).obj
  apart : ∀κ i κ' j w,w∈k.members κ i → w∈k.members κ' j → κ'=κ ∧ j=i
  placed : ∀w,(k.ws w).state=.wait → ∃κ i,w∈k.members κ i

/-- An object that the operation is not about, and those that wait for it. -/
structure Quiet (κ : Kind) (i : Nat) (k k' : Objects n) : Prop where
  obj : (k'.tab κ i).obj=(k.tab κ i).obj
  used : (k'.tab κ i).used=(k.tab κ i).used
  ws : ∀w∈k.members κ i,k'.ws w=k.ws w
  members : k'.members κ i=k.members κ i

/-- What an operation on one object does to it, where w may be made to wait. -/
structure LocalStep (κ : Kind) (w : Option (Fin n)) (ws : Waiters n) (o : Obj n κ)
    (r : Answer×Waiters n×Obj n κ) : Prop where
  sound : SoundObj κ r.2.1 r.2.2
  edit : Edit ws r.2.1 (membersOf κ ws o) (membersOf κ r.2.1 r.2.2)
  joined : ∀x∈membersOf κ r.2.1 r.2.2,x∈membersOf κ ws o ∨ (w=some x ∧ r.1.ko=.block)
  blocked : r.1.ko=.block → ∃x,w=some x ∧ x∈membersOf κ r.2.1 r.2.2
  left : ∀x∈membersOf κ ws o,x∉membersOf κ r.2.1 r.2.2 → (r.2.1 x).state=.grant

section Objects

variable {ws ws' : Waiters n} {κ : Kind} {o : Obj n κ}

theorem SoundObj.waiting (h : SoundObj κ ws o) : ∀w∈membersOf κ ws o,(ws w).state=.wait := by
  cases κ with
  | sem | mutex => exact h.threads.waiting
  | queue =>
    intro w hw
    exact (List.mem_append.mp hw).elim (h.rx.waiting w) (h.tx.waiting w)
  | event => exact h.threads.waiting

theorem SoundObj.congr (h : SoundObj κ ws o) (hs : ∀w∈membersOf κ ws o,ws' w=ws w) :
    SoundObj κ ws' o ∧ membersOf κ ws' o=membersOf κ ws o := by
  cases κ with
  | sem => exact Sem.Sound.congr h hs
  | mutex => exact Mutex.Sound.congr h hs
  | queue => exact Queue.Sound.congr h hs
  | event => exact Evt.Sound.congr h hs

end Objects

section Slots

variable {k : Objects n} {κ κ' : Kind} {i j : Nat} {w : Fin n}

theorem members_used (hw : w∈k.members κ i) :
    (k.tab κ i).used=true ∧ w∈membersOf κ k.ws (k.tab κ i).obj := by
  unfold Objects.members at hw
  split_ifs at hw with hu
  · exact ⟨hu,hw⟩
  · exact absurd hw List.not_mem_nil

theorem members_of_used (hu : (k.tab κ i).used=true) :
    k.members κ i=membersOf κ k.ws (k.tab κ i).obj := if_pos hu

theorem Objects.Inv.waiting (hk : k.Inv) (hw : w∈k.members κ i) : (k.ws w).state=.wait :=
  (hk.sound κ i (members_used hw).1).waiting w (members_used hw).2

theorem Quiet.refl (κ : Kind) (i : Nat) (k : Objects n) : Quiet κ i k k :=
  ⟨rfl,rfl,fun _ _ => rfl,rfl⟩

theorem Objects.Inv.setSlot (hk : k.Inv) {ws' : Waiters n} {s' : Slot (Obj n κ)}
    (hs : s'.used=true → SoundObj κ ws' s'.obj)
    (hed : Edit k.ws ws' (k.members κ i) (if s'.used then membersOf κ ws' s'.obj else [])) :
    (k.setSlot κ i ws' s').Inv ∧
      (k.setSlot κ i ws' s').members κ i=(if s'.used then membersOf κ ws' s'.obj else []) ∧
      ∀κ' j,¬(κ'=κ ∧ j=i) → Quiet κ' j k (k.setSlot κ i ws' s') := by
  set k' := k.setSlot κ i ws' s' with hk'
  have hws : k'.ws=ws' := rfl
  have hmem : k'.members κ i=if s'.used then membersOf κ ws' s'.obj else [] := by
    unfold Objects.members
    rw [hk',setSlot_same]
    rfl
  have hsame : ∀κ' j,¬(κ'=κ ∧ j=i) → ∀w∈k.members κ' j,ws' w=k.ws w := by
    intro κ' j hne w hw
    refine hed.frame w (fun hm => hne (hk.apart κ i κ' j w hm hw)) fun hm => ?_
    rcases hed.entered w hm with hm|hst
    · exact hne (hk.apart κ i κ' j w hm hw)
    · exact hst (hk.waiting hw)
  have hother : ∀κ' j,¬(κ'=κ ∧ j=i) → Quiet κ' j k k' := by
    intro κ' j hne
    have htab : k'.tab κ' j=k.tab κ' j := setSlot_other _ _ hne
    refine ⟨by rw [htab],by rw [htab],hsame κ' j hne,?_⟩
    unfold Objects.members
    rw [htab]
    by_cases hu : (k.tab κ' j).used=true
    · rw [if_pos hu,if_pos hu]
      refine ((hk.sound κ' j hu).congr fun w hw => hsame κ' j hne w ?_).2
      rw [members_of_used hu]
      exact hw
    · rw [if_neg hu,if_neg hu]
  refine ⟨⟨?_,?_,?_⟩,hmem,hother⟩
  · intro κ' j hu
    by_cases hne : κ'=κ ∧ j=i
    · obtain ⟨rfl,rfl⟩ := hne
      rw [hk',setSlot_same] at hu ⊢
      exact hs hu
    · have hq := hother κ' j hne
      rw [hq.used] at hu
      rw [hq.obj]
      refine ((hk.sound κ' j hu).congr fun w hw => hsame κ' j hne w ?_).1
      rw [members_of_used hu]
      exact hw
  · -- Who has joined this slot's waiters waited nowhere before.
    have hnew : ∀κ₂ j₂ w,w∈k'.members κ i → w∈k'.members κ₂ j₂ → κ₂=κ ∧ j₂=i := by
      intro κ₂ j₂ w hw h₂
      by_contra hne
      rw [(hother κ₂ j₂ hne).members] at h₂
      rw [hmem] at hw
      rcases hed.entered w hw with hm|hst
      · exact hne (hk.apart κ i κ₂ j₂ w hm h₂)
      · exact hst (hk.waiting h₂)
    intro κ₁ j₁ κ₂ j₂ w h₁ h₂
    by_cases hne₁ : κ₁=κ ∧ j₁=i
    · obtain ⟨rfl,rfl⟩ := hne₁
      exact hnew κ₂ j₂ w h₁ h₂
    · by_cases hne₂ : κ₂=κ ∧ j₂=i
      · obtain ⟨rfl,rfl⟩ := hne₂
        obtain ⟨ha,hb⟩ := hnew κ₁ j₁ w h₂ h₁
        exact ⟨ha.symm,hb.symm⟩
      · rw [(hother κ₁ j₁ hne₁).members] at h₁
        rw [(hother κ₂ j₂ hne₂).members] at h₂
        exact hk.apart κ₁ j₁ κ₂ j₂ w h₁ h₂
  · intro w hw
    by_cases hm' : w∈(if s'.used then membersOf κ ws' s'.obj else [])
    · exact ⟨κ,i,by rw [hmem]; exact hm'⟩
    · by_cases hm : w∈k.members κ i
      · exact absurd hw (hed.left w hm hm')
      · have hwk : (k.ws w).state=.wait := by
          rw [← hed.frame w hm hm']
          exact hw
        obtain ⟨κ',j,hp⟩ := hk.placed w hwk
        have hne : ¬(κ'=κ ∧ j=i) := by
          rintro ⟨rfl,rfl⟩
          exact hm hp
        exact ⟨κ',j,by rw [(hother κ' j hne).members]; exact hp⟩

end Slots

def Op.waiter : Op n → Option (Fin n)
  | .semTake _ w _ => w
  | .mutexLock _ w _ => w
  | .qSend _ _ _ w _ => w
  | .qRecv _ _ w _ => w
  | .evWait _ _ _ _ w _ => w
  | _ => none

/-- The task that makes the call, where the call says so. -/
def Op.who : Op n → Option Int
  | .semTake _ _ who => some who
  | .mutexLock _ _ who => some who
  | .mutexUnlock _ who => some who
  | .qSend _ _ _ _ who => some who
  | .qRecv _ _ _ who => some who
  | .evWait _ _ _ _ _ who => some who
  | _ => none

def Op.handle : Op n → Option (Kind×UInt32)
  | .semTake h _ _ => some (.sem,h)
  | .semGive h => some (.sem,h)
  | .mutexLock h _ _ => some (.mutex,h)
  | .mutexUnlock h _ => some (.mutex,h)
  | .qSend h _ _ _ _ => some (.queue,h)
  | .qRecv h _ _ _ => some (.queue,h)
  | .evSet h _ => some (.event,h)
  | .evClear h _ => some (.event,h)
  | .evWait h _ _ _ _ _ => some (.event,h)
  | .cancel κ h _ => some (κ,h)
  | .delete κ h => some (κ,h)
  | _ => none

/-- waits is the object each waiter was last made to wait for, as the call named it. -/
structure World (n : Nat) where
  obj : Objects n
  waits : Fin n → Option (Kind×UInt32)

/-- What callers keep to: a waiter that waits is not passed again, a wait is cancelled by the
handle it was begun with and once, a task that waits makes no calls, and its pid is no number
below 0. -/
structure Legal (s : World n) (op : Op n) : Prop where
  fresh : ∀w,op.waiter=some w → (s.obj.ws w).state≠.wait
  ended : ∀κ h w,op=.cancel κ h w → s.waits w=some (κ,h) ∧ (s.obj.ws w).state≠.idle
  caller : ∀who,op.who=some who → 0≤who ∧ ∀w,(s.obj.ws w).state=.wait → (s.obj.ws w).who≠who

structure World.Inv (s : World n) : Prop where
  obj : s.obj.Inv
  held : ∀w,(s.obj.ws w).state=.wait →
    ∃κ h i,s.waits w=some (κ,h) ∧ s.obj.find κ h=some i ∧ w∈s.obj.members κ i

/-- What every operation keeps to. -/
structure Outcome (k : Objects n) (op : Op n) (a : Answer) (k' : Objects n) : Prop where
  inv : k'.Inv
  quiet : ∀κ i,(∀h,op.handle=some (κ,h) → k.find κ h≠some i) →
    (op.creates=some κ → freeSlot (k.tab κ) κ≠some i) → Quiet κ i k k'
  entered : ∀κ i w,w∈k'.members κ i → w∈k.members κ i ∨ (op.waiter=some w ∧ a.ko=.block)
  blocked : a.ko=.block → ∃w κ h i,op.waiter=some w ∧ op.handle=some (κ,h) ∧
    k.find κ h=some i ∧ w∈k'.members κ i
  others : ∀w,(k.ws w).state≠.wait → k'.ws w=k.ws w ∨ (op.waiter=some w ∧ a.ko=.block)
  ended : ∀w,(k.ws w).state=.wait → (k'.ws w).state=.wait ∨ (k'.ws w).state=.grant ∨
    ((k'.ws w).state=.failed ∧ ∃κ h,op=.delete κ h) ∨
    ((k'.ws w).state=.idle ∧ a.ko=.timeout ∧ ∃κ h,op=.cancel κ h w)

section Operations

variable {k : Objects n} {κ : Kind} {h : UInt32} {i : Nat} {op : Op n} {a : Answer}

theorem outcome_alike {k' : Objects n} (hk : k.Inv) (hws : k'.ws=k.ws)
    (ht : ∀κ i,(k'.tab κ i).obj=(k.tab κ i).obj ∧ (k'.tab κ i).used=(k.tab κ i).used)
    (ha : a.ko≠.block) : Outcome k op a k' := by
  have hm : ∀κ i,k'.members κ i=k.members κ i := fun κ i => by
    unfold Objects.members
    rw [(ht κ i).1,(ht κ i).2,hws]
  refine ⟨⟨?_,?_,?_⟩,?_,?_,fun hb => absurd hb ha,fun w _ => .inl (by rw [hws]),
    fun w hw => .inl (by rw [hws]; exact hw)⟩
  · intro κ i hu
    rw [(ht κ i).2] at hu
    rw [(ht κ i).1,hws]
    exact hk.sound κ i hu
  · intro κ i κ' j w h₁ h₂
    rw [hm] at h₁ h₂
    exact hk.apart κ i κ' j w h₁ h₂
  · intro w hw
    rw [hws] at hw
    obtain ⟨κ,i,hp⟩ := hk.placed w hw
    exact ⟨κ,i,by rw [hm]; exact hp⟩
  · intro κ i _ _
    exact ⟨(ht κ i).1,(ht κ i).2,fun w _ => by rw [hws],hm κ i⟩
  · intro κ i w hw
    rw [hm] at hw
    exact .inl hw

theorem outcome_same (hk : k.Inv) (ha : a.ko≠.block) : Outcome k op a k :=
  outcome_alike hk rfl (fun _ _ => ⟨rfl,rfl⟩) ha

theorem outcome_setSlot (hk : k.Inv) {ws' : Waiters n} {s' : Slot (Obj n κ)}
    (hs : s'.used=true → SoundObj κ ws' s'.obj)
    (hed : Edit k.ws ws' (k.members κ i) (if s'.used then membersOf κ ws' s'.obj else []))
    (hop : (∃h,op.handle=some (κ,h) ∧ k.find κ h=some i) ∨
      (op.creates=some κ ∧ freeSlot (k.tab κ) κ=some i))
    (hj : ∀w∈(if s'.used then membersOf κ ws' s'.obj else []),
      w∈k.members κ i ∨ (op.waiter=some w ∧ a.ko=.block))
    (hb : a.ko=.block → ∃h,op.handle=some (κ,h) ∧ k.find κ h=some i ∧
      ∃w,op.waiter=some w ∧ w∈(if s'.used then membersOf κ ws' s'.obj else []))
    (hl : ∀w∈k.members κ i,w∉(if s'.used then membersOf κ ws' s'.obj else []) →
      (ws' w).state=.grant ∨ ((ws' w).state=.failed ∧ ∃κ h,op=.delete κ h) ∨
        ((ws' w).state=.idle ∧ a.ko=.timeout ∧ ∃κ h,op=.cancel κ h w)) :
    Outcome k op a (k.setSlot κ i ws' s') := by
  obtain ⟨hinv,hmem,hq⟩ := hk.setSlot hs hed
  have hent : ∀κ' j w,w∈(k.setSlot κ i ws' s').members κ' j →
      w∈k.members κ' j ∨ (op.waiter=some w ∧ a.ko=.block) := by
    intro κ' j w hw
    by_cases hne : κ'=κ ∧ j=i
    · obtain ⟨rfl,rfl⟩ := hne
      rw [hmem] at hw
      exact hj w hw
    · rw [(hq κ' j hne).members] at hw
      exact .inl hw
  refine ⟨hinv,?_,hent,?_,?_,?_⟩
  · intro κ' j hh hc
    refine hq κ' j ?_
    rintro ⟨rfl,rfl⟩
    rcases hop with ⟨h,h1,h2⟩|⟨h1,h2⟩
    · exact hh h h1 h2
    · exact hc h1 h2
  · intro hko
    obtain ⟨h,h1,h2,w,h3,h4⟩ := hb hko
    exact ⟨w,κ,h,i,h3,h1,h2,by rw [hmem]; exact h4⟩
  · intro w hw
    by_cases hm' : w∈(if s'.used then membersOf κ ws' s'.obj else [])
    · exact (hj w hm').elim (fun hm => absurd (hk.waiting hm) hw) .inr
    · exact .inl (hed.frame w (fun hm => hw (hk.waiting hm)) hm')
  · intro w hw
    by_cases hm' : w∈(if s'.used then membersOf κ ws' s'.obj else [])
    · rw [← hmem] at hm'
      exact .inl (hinv.waiting hm')
    · by_cases hm : w∈k.members κ i
      · exact .inr (hl w hm hm')
      · refine .inl ?_
        change (ws' w).state=.wait
        rw [hed.frame w hm hm']
        exact hw

theorem outcome_on (hk : k.Inv) (hop : op.handle=some (κ,h)) {fail : Answer}
    (hfail : fail.ko≠.block) {f : Waiters n → Obj n κ → Answer×Waiters n×Obj n κ}
    (hf : ∀i,(k.tab κ i).used=true → SoundObj κ k.ws (k.tab κ i).obj →
      LocalStep κ op.waiter k.ws (k.tab κ i).obj (f k.ws (k.tab κ i).obj)) :
    Outcome k op (k.on κ h fail f).1 (k.on κ h fail f).2 := by
  unfold Objects.on
  cases hfind : k.find κ h with
  | none => exact outcome_same hk hfail
  | some i =>
    have hu : (k.tab κ i).used=true := (lookup_some.mp hfind).2.2.2.1
    obtain ⟨hsound,hed,hj,hb,hleft⟩ := hf i hu (hk.sound κ i hu)
    dsimp only
    have hif : (if (k.tab κ i).used then membersOf κ (f k.ws (k.tab κ i).obj).2.1
        (f k.ws (k.tab κ i).obj).2.2 else [])=membersOf κ (f k.ws (k.tab κ i).obj).2.1
          (f k.ws (k.tab κ i).obj).2.2 := if_pos hu
    refine outcome_setSlot hk (fun _ => hsound) ?_ (.inl ⟨h,hop,hfind⟩) ?_ ?_ ?_
    · rw [members_of_used hu]
      exact (congrArg (Edit k.ws _ _) hif).mpr hed
    · rw [members_of_used hu]
      exact fun w hw => hj w ((congrArg (w∈·) hif).mp hw)
    · intro hko
      obtain ⟨x,h1,h2⟩ := hb hko
      exact ⟨h,hop,hfind,x,h1,(congrArg (x∈·) hif).mpr h2⟩
    · rw [members_of_used hu]
      exact fun w hw hn => .inl (hleft w hw fun hx => hn ((congrArg (w∈·) hif).mpr hx))

theorem outcome_create (hk : k.Inv) (hop : op.creates=some κ) {obj : Obj n κ}
    (hsound : SoundObj κ k.ws obj) (hempty : membersOf κ k.ws obj=[]) :
    Outcome k op (k.create κ obj).1 (k.create κ obj).2 := by
  unfold Objects.create createIn
  cases hfree : freeSlot (k.tab κ) κ with
  | none =>
    dsimp only
    rw [Function.update_eq_self]
    exact outcome_same hk fun hx => by cases hx
  | some i =>
    obtain ⟨-,hu⟩ := freeSlot_some hfree
    have hmem : k.members κ i=[] := by
      unfold Objects.members
      rw [hu]
      rfl
    have hsl : (⟨true,(k.tab κ i).gen,0,obj⟩ : Slot (Obj n κ)).used=true →
        SoundObj κ k.ws (⟨true,(k.tab κ i).gen,0,obj⟩ : Slot (Obj n κ)).obj := fun _ => hsound
    refine outcome_setSlot (i := i) hk hsl ?_
      (.inr ⟨hop,hfree⟩) ?_ (fun hx => by cases hx) ?_
    · rw [hmem,if_pos rfl,hempty]
      exact .refl _ _
    · rw [if_pos rfl,hempty]
      exact fun w hw => absurd hw List.not_mem_nil
    · rw [hmem]
      exact fun w hw => absurd hw List.not_mem_nil

theorem outcome_delete (hk : k.Inv)
    {failAll : Waiters n → Obj n κ → Waiters n×Obj n κ×KWake}
    (hf : ∀i,SoundObj κ k.ws (k.tab κ i).obj →
      Edit k.ws (failAll k.ws (k.tab κ i).obj).1 (membersOf κ k.ws (k.tab κ i).obj) [] ∧
        ∀x∈membersOf κ k.ws (k.tab κ i).obj,
          ((failAll k.ws (k.tab κ i).obj).1 x).state=.failed) :
    Outcome k (.delete κ h) (k.delete κ h failAll).1 (k.delete κ h failAll).2 := by
  unfold Objects.delete
  cases hfind : k.find κ h with
  | none => exact outcome_same hk fun hx => by cases hx
  | some i =>
    have hu : (k.tab κ i).used=true := (lookup_some.mp hfind).2.2.2.1
    refine outcome_setSlot hk (fun hx => by cases hx) ?_ (.inl ⟨h,rfl,hfind⟩) ?_
      (fun hx => by cases hx) ?_
    · rw [members_of_used hu]
      exact (hf i (hk.sound κ i hu)).1
    · exact fun w hw => absurd hw List.not_mem_nil
    · rw [members_of_used hu]
      exact fun w hw _ => .inr (.inl ⟨(hf i (hk.sound κ i hu)).2 w hw,κ,h,rfl⟩)

theorem cancel_cases {s : World n} (hs : s.Inv) {w : Fin n} (hl : Legal s (.cancel κ h w))
    (unlink : Waiters n → Obj n κ → Waiters n×Obj n κ) :
    ((s.obj.ws w).state=.grant ∧ s.obj.cancel κ h w unlink=(.ok,s.obj)) ∨
    ((s.obj.ws w).state=.failed ∧ s.obj.cancel κ h w unlink=(.deleted,s.obj)) ∨
    ((s.obj.ws w).state=.wait ∧ ∃i,s.obj.find κ h=some i ∧ w∈s.obj.members κ i ∧
      s.obj.cancel κ h w unlink=(.timeout,
        s.obj.setObj κ i ((unlink s.obj.ws (s.obj.tab κ i).obj).1.setState w .idle)
          (unlink s.obj.ws (s.obj.tab κ i).obj).2)) := by
  obtain ⟨hby,hidle⟩ := hl.ended κ h w rfl
  unfold Objects.cancel
  cases hst : (s.obj.ws w).state with
  | idle => exact absurd hst hidle
  | grant => exact .inl ⟨rfl,rfl⟩
  | failed => exact .inr (.inl ⟨rfl,rfl⟩)
  | wait =>
    obtain ⟨κ',h',i,hby',hfind,hw⟩ := hs.held w hst
    obtain ⟨rfl,rfl⟩ := Prod.mk.inj (Option.some.inj (hby'.symm.trans hby))
    refine .inr (.inr ⟨rfl,i,hfind,hw,?_⟩)
    rw [if_neg (fun hx => by cases hx),if_neg (fun hx => by cases hx),hfind]

theorem outcome_cancel {s : World n} (hs : s.Inv) {w : Fin n} (hl : Legal s (.cancel κ h w))
    (unlink : Waiters n → Obj n κ → Waiters n×Obj n κ) {bits : UInt32}
    (hf : ∀i,SoundObj κ s.obj.ws (s.obj.tab κ i).obj →
      w∈membersOf κ s.obj.ws (s.obj.tab κ i).obj →
      let r := unlink s.obj.ws (s.obj.tab κ i).obj
      SoundObj κ (r.1.setState w .idle) r.2 ∧
        Edit s.obj.ws (r.1.setState w .idle) (membersOf κ s.obj.ws (s.obj.tab κ i).obj)
          (membersOf κ (r.1.setState w .idle) r.2) ∧
        (∀x,x∈membersOf κ (r.1.setState w .idle) r.2 ↔
          x∈membersOf κ s.obj.ws (s.obj.tab κ i).obj ∧ x≠w) ∧
        (r.1.setState w .idle w).state=.idle) :
    Outcome s.obj (.cancel κ h w) {ko := (s.obj.cancel κ h w unlink).1,bits := bits}
      (s.obj.cancel κ h w unlink).2 := by
  rcases cancel_cases hs hl unlink with ⟨-,hc⟩|⟨-,hc⟩|⟨-,i,hfind,hw,hc⟩
  · rw [hc]
    exact outcome_same hs.obj fun hx => by cases hx
  · rw [hc]
    exact outcome_same hs.obj fun hx => by cases hx
  · rw [hc]
    have hu : (s.obj.tab κ i).used=true := (lookup_some.mp hfind).2.2.2.1
    rw [members_of_used hu] at hw
    obtain ⟨hsound,hed,hsub,hidle⟩ := hf i (hs.obj.sound κ i hu) hw
    set r := unlink s.obj.ws (s.obj.tab κ i).obj with hr
    have hif : (if (s.obj.tab κ i).used then membersOf κ (r.1.setState w .idle) r.2 else [])=
        membersOf κ (r.1.setState w .idle) r.2 := if_pos hu
    refine outcome_setSlot hs.obj (fun _ => hsound) ?_ (.inl ⟨h,rfl,hfind⟩) ?_
      (fun hx => by cases hx) ?_
    · rw [members_of_used hu]
      exact (congrArg (Edit s.obj.ws _ _) hif).mpr hed
    · rw [members_of_used hu]
      exact fun x hx => .inl ((hsub x).mp ((congrArg (x∈·) hif).mp hx)).1
    · rw [members_of_used hu]
      intro x hx hn
      have hxw : x=w := by
        by_contra hne
        exact hn ((congrArg (x∈·) hif).mpr ((hsub x).mpr ⟨hx,hne⟩))
      rw [hxw]
      exact .inr (.inr ⟨hidle,rfl,κ,h,rfl⟩)

end Operations

section Locals

variable {ws : Waiters n} {w : Option (Fin n)} {κ : Kind} {o : Obj n κ}
  {r : Answer×Waiters n×Obj n κ}

theorem LocalStep.stays (hs : SoundObj κ r.2.1 r.2.2)
    (hed : Edit ws r.2.1 (membersOf κ ws o) (membersOf κ r.2.1 r.2.2)) (hko : r.1.ko≠.block)
    (hsub : ∀x∈membersOf κ r.2.1 r.2.2,x∈membersOf κ ws o)
    (hleft : ∀x∈membersOf κ ws o,x∉membersOf κ r.2.1 r.2.2 → (r.2.1 x).state=.grant) :
    LocalStep κ w ws o r :=
  ⟨hs,hed,fun y hy => .inl (hsub y hy),fun hb => absurd hb hko,hleft⟩

theorem LocalStep.same (hs : SoundObj κ r.2.1 r.2.2)
    (hed : Edit ws r.2.1 (membersOf κ ws o) (membersOf κ r.2.1 r.2.2)) (hko : r.1.ko≠.block)
    (hm : membersOf κ r.2.1 r.2.2=membersOf κ ws o) : LocalStep κ w ws o r :=
  .stays hs hed hko (fun _ hx => hm ▸ hx) fun _ hx hn => absurd (hm ▸ hx) hn

theorem LocalStep.joins (hs : SoundObj κ r.2.1 r.2.2)
    (hed : Edit ws r.2.1 (membersOf κ ws o) (membersOf κ r.2.1 r.2.2)) (hko : r.1.ko=.block)
    {x : Fin n} (hw : w=some x)
    (hm : ∀y,y∈membersOf κ r.2.1 r.2.2 ↔ y∈membersOf κ ws o ∨ y=x) : LocalStep κ w ws o r := by
  refine ⟨hs,hed,fun y hy => ?_,fun _ => ⟨x,hw,(hm x).mpr (.inr rfl)⟩,
    fun y hy hn => absurd ((hm y).mpr (.inl hy)) hn⟩
  exact ((hm y).mp hy).imp_right fun he => ⟨by rw [he]; exact hw,hko⟩

theorem mem_snoc {m m' : List (Fin n)} {x : Fin n} (h : m'=m++[x]) (y : Fin n) :
    y∈m' ↔ y∈m ∨ y=x := by rw [h,List.mem_append,List.mem_singleton]

theorem take_local {s : Sem n} (h : s.Sound ws) (hw : ∀x∈w,(ws x).state≠.wait) (who : Int) :
    LocalStep .sem w ws s (Sem.take ws s w who) := by
  obtain ⟨hs,hed,-,hc⟩ := Sem.take_spec h hw who rfl
  rcases hc with ⟨hko,hws,hl,-⟩|⟨hko,hr⟩|⟨x,hx,hko,-,hm,-⟩
  · refine .same hs hed (by rw [hko]; decide) ?_
    change WList.members _ _=_
    rw [hws,hl]
    rfl
  · exact .same hs hed (by rw [hko]; decide) (by rw [hr])
  · exact .joins hs hed hko hx (mem_snoc hm)

theorem left_first {ws' : Waiters n} {m m' : List (Fin n)} {x : Fin n} (hm : m=x::m')
    (hx : (ws' x).state=.grant) : ∀y∈m,y∉m' → (ws' y).state=.grant := by
  intro y hy hn
  rw [hm] at hy
  rw [(List.mem_cons.mp hy).resolve_right hn]
  exact hx

theorem give_local {s : Sem n} (h : s.Sound ws) : LocalStep .sem none ws s (Sem.give ws s) := by
  obtain ⟨hs,hed,-,hc⟩ := Sem.give_spec h rfl
  rcases hc with ⟨x,hm,hko,hx,-⟩|⟨-,hko,hr⟩|⟨-,hko,hws,hl,-⟩
  · refine .stays hs hed (by rw [hko]; decide) (fun y hy => ?_) (left_first hm hx)
    change y∈s.w.members ws
    rw [hm]
    exact List.mem_cons_of_mem _ hy
  · exact .same hs hed (by rw [hko]; decide) (by rw [hr])
  · refine .same hs hed (by rw [hko]; decide) ?_
    change WList.members _ _=_
    rw [hws,hl]
    rfl

theorem lock_local {m : Mutex n} (h : m.Sound ws) (hw : ∀x∈w,(ws x).state≠.wait) {who : Int}
    (hwho : 0≤who) (hnew : ∀x∈m.w.members ws,(ws x).who≠who) :
    LocalStep .mutex w ws m (Mutex.lock ws m w who) := by
  obtain ⟨hs,hed,hc⟩ := Mutex.lock_spec h hw hwho hnew rfl
  rcases hc with ⟨hko,hws,hl,-⟩|⟨-,hko,hr⟩|⟨x,hx,hko,-,-,hm,-⟩
  · refine .same hs hed (by rw [hko]; decide) ?_
    change WList.members _ _=_
    rw [hws,hl]
    rfl
  · exact .same hs hed hko (by rw [hr])
  · exact .joins hs hed hko hx (mem_snoc hm)

theorem unlock_local {m : Mutex n} (h : m.Sound ws) (who : Int) :
    LocalStep .mutex none ws m (Mutex.unlock ws m who) := by
  obtain ⟨hs,hed,hc⟩ := Mutex.unlock_spec h who rfl
  rcases hc with ⟨-,hko,hr⟩|⟨-,hko,⟨-,hws,hl,-⟩|⟨x,-,hm,hx,-⟩|⟨-,-,hws,hl,-⟩⟩
  · exact .same hs hed (by rw [hko]; decide) (by rw [hr])
  · refine .same hs hed (by rw [hko]; decide) ?_
    change WList.members _ _=_
    rw [hws,hl]
    rfl
  · refine .stays hs hed (by rw [hko]; decide) (fun y hy => ?_) (left_first hm hx)
    change y∈m.w.members ws
    rw [hm]
    exact List.mem_cons_of_mem _ hy
  · refine .same hs hed (by rw [hko]; decide) ?_
    change WList.members _ _=_
    rw [hws,hl]
    rfl

theorem send_local {q : Queue n} (h : q.Sound ws) {item : Item} {front : Bool}
    (hw : ∀x∈w,(ws x).state≠.wait) (who : Int) :
    LocalStep .queue w ws q (Queue.send ws q item front w who) := by
  obtain ⟨hs,hed,-,hc⟩ := Queue.send_spec h hw who (Eq.refl (Queue.send ws q item front w who))
  rcases hc with ⟨x,hm,hm',hko,hx,-⟩|⟨-,hko,hws,hr,ht,-⟩|⟨-,hko,hr⟩|⟨x,hx,hko,hm,hm',-⟩
  · refine .stays hs hed (by rw [hko]; decide) (fun y hy => ?_) fun y hy hn => ?_
    · change y∈_++_ at hy
      change y∈_++_
      rw [hm'] at hy
      rw [hm]
      exact List.mem_cons_of_mem _ hy
    · change y∈_++_ at hy
      change y∉_++_ at hn
      rw [hm] at hy
      rw [hm'] at hn
      rw [(List.mem_cons.mp hy).resolve_right hn]
      exact hx
  · refine .same hs hed (by rw [hko]; decide) ?_
    change _++_=_
    rw [hws,hr,ht]
    rfl
  · exact .same hs hed hko (by rw [hr])
  · refine .joins hs hed hko hx fun y => ?_
    change y∈_++_ ↔ y∈_++_ ∨ y=x
    rw [hm,hm',List.mem_append,List.mem_append,List.mem_append,List.mem_singleton,or_assoc]

theorem recv_local {q : Queue n} (h : q.Sound ws) {item : Item}
    (hw : ∀x∈w,(ws x).state≠.wait) (who : Int) :
    LocalStep .queue w ws q (Queue.recv ws q item w who) := by
  obtain ⟨hs,hed,-,hc⟩ := Queue.recv_spec h hw who (Eq.refl (Queue.recv ws q item w who))
  rcases hc with ⟨rest,-,hko,hr,⟨hm,-,hm',-⟩|⟨x,hm,hx,-⟩⟩|⟨-,hko,hr⟩|⟨x,hx,hko,hm,hm',-⟩
  · refine .same hs hed (by rw [hko]; decide) ?_
    change _++_=_++_
    rw [hr,hm,hm']
  · refine .stays hs hed (by rw [hko]; decide) (fun y hy => ?_) fun y hy hn => ?_
    · change y∈_++_ at hy
      change y∈_++_
      rw [hr] at hy
      rw [hm]
      rw [List.mem_append] at hy ⊢
      exact hy.imp_right (List.mem_cons_of_mem _)
    · change y∈_++_ at hy
      change y∉_++_ at hn
      rw [hr,List.mem_append,not_or] at hn
      rw [hm] at hy
      rw [(List.mem_cons.mp ((List.mem_append.mp hy).resolve_left hn.1)).resolve_right hn.2]
      exact hx
  · exact .same hs hed hko (by rw [hr])
  · refine .joins hs hed hko hx fun y => ?_
    change y∈_++_ ↔ y∈_++_ ∨ y=x
    rw [hm,hm',List.mem_append,List.mem_append,List.mem_append,List.mem_singleton,or_right_comm]

theorem set_local {e : Evt n} (h : e.Sound ws) (bits : UInt32) :
    LocalStep .event none ws e (Evt.set ws e bits) := by
  obtain ⟨hs,hed,hj,-,hgrant⟩ := Evt.set_spec h bits rfl
  refine .stays hs hed (fun hb => by cases hb) (fun y hy => ?_) fun y hy hn => (hgrant y hy hn).1
  change y∈WList.members _ _ at hy
  rw [(Prod.mk.inj hj).1] at hy
  exact (judged_sublist ws _ _).subset hy

theorem clear_local {e : Evt n} (h : e.Sound ws) (bits : UInt32) :
    LocalStep .event none ws e (Evt.clear ws e bits) :=
  .same (h.fewer _) (.refl ws _) (fun hb => by cases hb) rfl

theorem wait_local {e : Evt n} (h : e.Sound ws) {want : UInt32} {all clear : Bool}
    (hw : ∀x∈w,(ws x).state≠.wait) (who : Int) :
    LocalStep .event w ws e (Evt.wait ws e want all clear w who) := by
  obtain ⟨hs,hed,hc⟩ := Evt.wait_spec h hw who (Eq.refl (Evt.wait ws e want all clear w who))
  rcases hc with ⟨hko,-,-,hws,hl⟩|⟨-,hko,hr⟩|⟨x,hx,hko,-,hm,-⟩
  · refine .same hs hed (by rw [hko]; decide) ?_
    change WList.members _ _=_
    rw [hws,hl]
    rfl
  · exact .same hs hed hko (by rw [hr])
  · exact .joins hs hed hko hx (mem_snoc hm)

end Locals

section Steps

variable {s s' : World n} {k' : Objects n} {op : Op n} {e : Event n}

theorem mem_erase_iff {m : List (Fin n)} {w : Fin n} (h : m.Nodup) (x : Fin n) :
    x∈m.erase w ↔ x∈m ∧ x≠w := by rw [h.mem_erase_iff,and_comm]

theorem Edit.cleared_twice {ws ws₁ ws₂ : Waiters n} {a b : List (Fin n)}
    (h : Edit ws ws₁ (a++b) b) (h' : Edit ws₁ ws₂ b []) : Edit ws ws₂ (a++b) [] :=
  h.trans h' (fun _ hx => List.mem_append_right _ hx) fun _ hx => absurd hx List.not_mem_nil

theorem queue_failAll {ws : Waiters n} {q : Queue n} (h : q.Sound ws) :
    Edit ws (Queue.failAll ws q).1 (q.members ws) [] ∧
      ∀x∈q.members ws,((Queue.failAll ws q).1 x).state=.failed := by
  obtain ⟨-,hed,hfail⟩ := failAll_spec h.rx []
  have htx := hed.threads h.tx h.apart'
  obtain ⟨-,hed',hfail'⟩ := failAll_spec htx (wlFailAll ws q.rx []).2.2
  refine ⟨(hed.under_left h.apart' h.sending).cleared_twice hed',fun x hx => ?_⟩
  rcases List.mem_append.mp hx with hr|ht
  · have hkeep := hed'.frame x (h.apart x hr) List.not_mem_nil
    exact (congrArg KWaiter.state hkeep).trans (hfail x hr)
  · exact hfail' x ht

theorem exec_outcome (hs : s.Inv) (hl : Legal s op) :
    Outcome s.obj op (exec s.obj op).1 (exec s.obj op).2 := by
  have hk := hs.obj
  have hws : ∀{w : Option (Fin n)},op.waiter=w → ∀x∈w,(s.obj.ws x).state≠.wait := fun hw x hx =>
    hl.fresh x (hw.trans hx)
  cases op with
  | semCreate max init =>
    change Outcome _ _ (ksemCreate s.obj max init).1 (ksemCreate s.obj max init).2
    unfold ksemCreate
    split_ifs with hbad
    · exact outcome_same hk fun hx => by cases hx
    · refine outcome_create hk rfl ⟨Threads.empty.self,fun hne => absurd Threads.empty.members hne,?_⟩
        Threads.empty.members
      rw [not_or] at hbad
      exact UInt32.not_lt.mp hbad.2
  | semTake h w who =>
    exact outcome_on hk rfl (fun hx => by cases hx) fun i _ hso => take_local hso (hws rfl) who
  | semGive h => exact outcome_on hk rfl (fun hx => by cases hx) fun i _ hso => give_local hso
  | mutexCreate recursive =>
    refine outcome_create hk rfl ⟨Threads.empty.self,fun hne => absurd Threads.empty.members hne,
      ?_,?_⟩ Threads.empty.members
    · dsimp only
      rw [Threads.empty.members]
      exact fun x hx => absurd hx List.not_mem_nil
    · dsimp only
      rw [Threads.empty.members]
      exact List.nodup_nil
  | mutexLock h w who =>
    obtain ⟨hwho,hnew⟩ := hl.caller who rfl
    exact outcome_on hk rfl (fun hx => by cases hx) fun i _ hso =>
      lock_local hso (hws rfl) hwho fun x hx => hnew x (hso.threads.waiting x hx)
  | mutexUnlock h who =>
    exact outcome_on hk rfl (fun hx => by cases hx) fun i _ hso => unlock_local hso who
  | qCreate len isz storage =>
    change Outcome _ _ (kqCreate s.obj len isz storage).1 (kqCreate s.obj len isz storage).2
    unfold kqCreate
    split_ifs with hbad
    · exact outcome_same hk fun hx => by cases hx
    · cases storage with
      | none => exact outcome_same hk fun hx => by cases hx
      | some buf =>
        rw [not_or] at hbad
        have hnil : (WList.empty : WList n).members s.obj.ws=[] := Threads.empty.members
        refine outcome_create hk rfl ⟨Threads.empty.self,Threads.empty.self,?_,
          fun hne => absurd hnil hne,fun hne => absurd hnil hne,Nat.zero_le _,
          Nat.pos_of_ne_zero hbad.1⟩ ?_
        · dsimp only
          rw [hnil]
          exact fun x hx => absurd hx List.not_mem_nil
        · change _++_=[]
          rw [hnil]
          rfl
  | qSend h item front w who =>
    exact outcome_on hk rfl (fun hx => by cases hx) fun i _ hso => send_local hso (hws rfl) who
  | qRecv h item w who =>
    exact outcome_on hk rfl (fun hx => by cases hx) fun i _ hso => recv_local hso (hws rfl) who
  | evCreate =>
    refine outcome_create hk rfl ⟨Threads.empty.self,?_⟩ Threads.empty.members
    dsimp only
    rw [Threads.empty.members]
    exact fun x hx => absurd hx List.not_mem_nil
  | evSet h bits => exact outcome_on hk rfl (fun hx => by cases hx) fun i _ hso => set_local hso bits
  | evClear h bits =>
    exact outcome_on hk rfl (fun hx => by cases hx) fun i _ hso => clear_local hso bits
  | evWait h want all clear w who =>
    exact outcome_on hk rfl (fun hx => by cases hx) fun i _ hso => wait_local hso (hws rfl) who
  | cancel κ h w =>
    cases κ with
    | sem =>
      refine outcome_cancel hs hl (Sem.drop w) fun i hso hw => ?_
      obtain ⟨hs',hed,hm,-,-,hidle⟩ := Sem.drop_spec hso hw rfl
      refine ⟨hs',hed,fun x => ?_,hidle⟩
      change x∈WList.members _ _ ↔ _
      rw [hm]
      exact mem_erase_iff hso.threads.nodup x
    | mutex =>
      refine outcome_cancel hs hl (Mutex.drop w) fun i hso hw => ?_
      obtain ⟨hs',hed,hm,-,-,hidle⟩ := Mutex.drop_spec hso hw rfl
      refine ⟨hs',hed,fun x => ?_,hidle⟩
      change x∈WList.members _ _ ↔ _
      rw [hm]
      exact mem_erase_iff hso.threads.nodup x
    | queue =>
      refine outcome_cancel hs hl (Queue.drop w) fun i hso hw => ?_
      obtain ⟨hs',hed,hr,ht,-,-,hidle⟩ := Queue.drop_spec hso hw rfl
      refine ⟨hs',hed,fun x => ?_,hidle⟩
      change x∈_++_ ↔ x∈_++_ ∧ x≠w
      rw [hr,ht,List.mem_append,List.mem_append,mem_erase_iff hso.rx.nodup,
        mem_erase_iff hso.tx.nodup,or_and_right]
    | event =>
      refine outcome_cancel hs hl (Evt.drop w) fun i hso hw => ?_
      obtain ⟨hs',hed,hm,-,hidle⟩ := Evt.drop_spec hso hw rfl
      refine ⟨hs',hed,fun x => ?_,hidle⟩
      change x∈WList.members _ _ ↔ _
      rw [hm]
      exact mem_erase_iff hso.threads.nodup x
  | delete κ h =>
    cases κ with
    | sem | mutex => exact outcome_delete hk fun i hso => (failAll_spec hso.threads []).2
    | queue => exact outcome_delete hk fun i hso => queue_failAll hso
    | event => exact outcome_delete hk fun i hso => (failAll_spec hso.threads []).2
  | setOwner h owner =>
    change Outcome _ _ (kobjSetOwner s.obj h owner).1 (kobjSetOwner s.obj h owner).2
    unfold kobjSetOwner
    cases ownerSlot s.obj h with
    | none => exact outcome_same hk fun hx => by cases hx
    | some x =>
      obtain ⟨κ,i⟩ := x
      refine outcome_alike hk rfl (fun κ' j => ?_) fun hx => by cases hx
      by_cases hne : κ'=κ ∧ j=i
      · obtain ⟨rfl,rfl⟩ := hne
        rw [setSlot_same]
        exact ⟨rfl,rfl⟩
      · rw [setSlot_other _ _ hne]
        exact ⟨rfl,rfl⟩

/-- The wait that an operation has begun is noted. -/
def noteWait (waits : Fin n → Option (Kind×UInt32)) (e : Event n) :
    Fin n → Option (Kind×UInt32) := fun w =>
  if e.op.waiter=some w ∧ e.answer.ko=.block then e.op.handle else waits w

def Move (s : World n) (e : Event n) (s' : World n) : Prop :=
  Legal s e.op ∧ Step s.obj e s'.obj ∧ s'.waits=noteWait s.waits e

def World.init (ws : Waiters n) : World n := ⟨Objects.init ws,fun _ => none⟩

theorem Move.outcome (hs : s.Inv) (hm : Move s e s') : Outcome s.obj e.op e.answer s'.obj := by
  obtain ⟨hl,⟨-,-,hx⟩,-⟩ := hm
  have := exec_outcome hs hl
  rwa [hx] at this

theorem noteWait_other {waits : Fin n → Option (Kind×UInt32)} {w : Fin n}
    (h : e.op.waiter≠some w) : noteWait waits e w=waits w := if_neg fun hx => h hx.1

theorem noteWait_self {waits : Fin n → Option (Kind×UInt32)} {w : Fin n}
    (h : e.op.waiter=some w) (hb : e.answer.ko=.block) : noteWait waits e w=e.op.handle :=
  if_pos ⟨h,hb⟩

theorem find_kept {k k' : Objects n} (he : Step k e k') {κ : Kind} {h : UInt32} {i : Nat}
    (hf : k.find κ h=some i) (hu : (k'.tab κ i).used=true) : k'.find κ h=some i := by
  obtain ⟨hidx,ht,hi,hused,hg⟩ := lookup_some.mp hf
  rcases step_slot he κ i with ⟨-,-,-,hno,-⟩|⟨-,-,-,hs⟩|⟨-,-,hs⟩
  · rw [hused] at hno
    cases hno
  · rw [show (k'.tab κ i).used=false from congrArg Prod.fst hs] at hu
    cases hu
  · refine lookup_some.mpr ⟨hidx,ht,hi,hu,?_⟩
    rw [show (k'.tab κ i).gen=(k.tab κ i).gen from congrArg Prod.snd hs]
    exact hg

theorem move_inv (hs : s.Inv) (hm : Move s e s') : s'.Inv := by
  have ho := hm.outcome hs
  obtain ⟨hl,he,hwaits⟩ := hm
  refine ⟨ho.inv,fun w hw => ?_⟩
  obtain ⟨κ,i,hp⟩ := ho.inv.placed w hw
  rw [hwaits]
  rcases ho.entered κ i w hp with hold|⟨hwaiter,hblock⟩
  · have hst := hs.obj.waiting hold
    obtain ⟨κ',h,j,hby,hfind,hin⟩ := hs.held w hst
    obtain ⟨rfl,rfl⟩ := hs.obj.apart κ i κ' j w hold hin
    refine ⟨κ',h,j,?_,find_kept he hfind (members_used hp).1,hp⟩
    rw [noteWait_other fun hx => hl.fresh w hx hst]
    exact hby
  · obtain ⟨w',κ',h,j,hw',hh,hfind,hin⟩ := ho.blocked hblock
    obtain rfl : w'=w := Option.some.inj (hw'.symm.trans hwaiter)
    refine ⟨κ',h,j,?_,find_kept he hfind (members_used hin).1,hin⟩
    rw [noteWait_self hwaiter hblock]
    exact hh

theorem init_members (ws : Waiters n) (κ : Kind) (i : Nat) : (Objects.init ws).members κ i=[] := by
  unfold Objects.members
  cases κ <;> rfl

theorem init_inv {ws : Waiters n} (hw : ∀w,(ws w).state≠.wait) : (World.init ws).Inv := by
  refine ⟨⟨?_,?_,fun w hst => absurd hst (hw w)⟩,fun w hst => absurd hst (hw w)⟩
  · intro κ i hu
    cases κ <;> cases hu
  · intro κ i κ' j w h _
    change w∈(Objects.init ws).members κ i at h
    rw [init_members] at h
    exact absurd h List.not_mem_nil

theorem reach_inv {ws : Waiters n} (hw : ∀w,(ws w).state≠.wait) {hist : List (Event n)}
    (hr : Reach Move (World.init ws) hist s) : s.Inv :=
  Reach.invariant (fun _ s => s.Inv) (init_inv hw) (fun _ _ _ _ hs hm => move_inv hs hm) hr

/-- The operation is on the object in that slot. -/
def Event.reaches (e : Event n) (κ : Kind) (i : Nat) : Bool :=
  match e.op.handle with
  | some (κ',h) => decide (κ'=κ ∧ e.before.find κ' h=some i)
  | none => false

def World.play (s : World n) (op : Op n) : World n :=
  ⟨(exec s.obj op).2,noteWait s.waits (act s.obj op)⟩

theorem legal_nobody (s : World 0) {op : Op 0} (hwho : ∀who,op.who=some who → 0≤who) :
    Legal s op :=
  ⟨fun w => w.elim0,fun _ _ w => w.elim0,fun who h => ⟨hwho who h,fun w => w.elim0⟩⟩

theorem move_play (hl : Legal s op) : Move s (act s.obj op) (s.play op) := ⟨hl,step_act _ _,rfl⟩

/-- Those of a list whose waits the operation has granted. -/
def Event.granted (e : Event n) (m : List (Fin n)) : List (Fin n) :=
  m.filter fun w => decide ((e.after.ws w).state=.grant)

/-- Those of a list who wait after the operation. -/
def Event.waiting (e : Event n) (m : List (Fin n)) : List (Fin n) :=
  m.filter fun w => decide ((e.after.ws w).state=.wait)

theorem Move.found (hm : Move s e s') {κ : Kind} {h : UInt32} {i : Nat} {fail : Answer}
    {f : Waiters n → Obj n κ → Answer×Waiters n×Obj n κ}
    (hx : exec s.obj e.op=s.obj.on κ h fail f) (hf : s.obj.find κ h=some i) :
    e.answer=(f s.obj.ws (s.obj.tab κ i).obj).1 ∧
      s'.obj=s.obj.setObj κ i (f s.obj.ws (s.obj.tab κ i).obj).2.1
        (f s.obj.ws (s.obj.tab κ i).obj).2.2 ∧ (s.obj.tab κ i).used=true := by
  obtain ⟨-,⟨-,-,hop⟩,-⟩ := hm
  rw [hx,Objects.on,hf] at hop
  obtain ⟨h1,h2⟩ := Prod.mk.inj hop
  exact ⟨h1.symm,h2.symm,(lookup_some.mp hf).2.2.2.1⟩

theorem reaches_of_find {h : UInt32} {κ : Kind} {i : Nat} (hop : e.op.handle=some (κ,h))
    (hf : e.before.find κ h=some i) : e.reaches κ i=true := by
  rw [Event.reaches,hop]
  exact decide_eq_true ⟨rfl,hf⟩

/-- Where an operation has found an object: what it has become, and that all who wait for it after
wait indeed. -/
structure FoundAt (s s' : World n) (e : Event n) (κ : Kind) (i : Nat)
    (r : Answer×Waiters n×Obj n κ) : Prop where
  answer : e.answer=r.1
  obj : (s'.obj.tab κ i).obj=r.2.2
  ws : e.after.ws=r.2.1
  before : e.before=s.obj
  after : s'.obj=e.after
  used : (s.obj.tab κ i).used=true
  used' : (s'.obj.tab κ i).used=true
  members : s'.obj.members κ i=membersOf κ r.2.1 r.2.2
  wait : ∀w∈s'.obj.members κ i,(e.after.ws w).state=.wait
  reaches : e.reaches κ i=true

theorem Move.foundAt (hs : s.Inv) (hm : Move s e s') {κ : Kind} {h : UInt32} {i : Nat}
    {fail : Answer} {f : Waiters n → Obj n κ → Answer×Waiters n×Obj n κ}
    (hx : exec s.obj e.op=s.obj.on κ h fail f) (hop : e.op.handle=some (κ,h))
    (hf : s.obj.find κ h=some i) : FoundAt s s' e κ i (f s.obj.ws (s.obj.tab κ i).obj) := by
  have hs' := move_inv hs hm
  obtain ⟨hans,hk,hu⟩ := hm.found hx hf
  obtain ⟨-,⟨hbefore,hafter,-⟩,-⟩ := hm
  have htab : s'.obj.tab κ i={s.obj.tab κ i with
      obj := (f s.obj.ws (s.obj.tab κ i).obj).2.2} := by
    rw [hk]
    exact setSlot_same _ _
  have hu' : (s'.obj.tab κ i).used=true := (congrArg Slot.used htab).trans hu
  have hws : s'.obj.ws=(f s.obj.ws (s.obj.tab κ i).obj).2.1 := by
    rw [hk]
    rfl
  refine ⟨hans,congrArg Slot.obj htab,hafter ▸ hws,hbefore,hafter.symm,hu,hu',?_,fun w hw => ?_,
    reaches_of_find hop (by rw [hbefore]; exact hf)⟩
  · rw [members_of_used hu',hws,htab]
  · rw [hafter]
    exact hs'.obj.waiting hw

section Ends

variable {m : List (Fin n)}

theorem granted_none (h : ∀w∈m,(e.after.ws w).state≠.grant) : e.granted m=[] :=
  List.filter_eq_nil_iff.mpr fun w hw hx => h w hw (of_decide_eq_true hx)

theorem waiting_keep (h : ∀w∈m,(e.after.ws w).state=.wait) :
    e.waiting m=m ∧ e.granted m=[] := by
  refine ⟨List.filter_eq_self.mpr fun w hw => decide_eq_true (h w hw),granted_none fun w hw => ?_⟩
  rw [h w hw]
  decide

theorem waiting_first {x : Fin n} (hx : (e.after.ws x).state=.grant)
    (h : ∀w∈m,(e.after.ws w).state=.wait) :
    e.waiting (x::m)=m ∧ e.granted (x::m)=[x] := by
  obtain ⟨hw,hg⟩ := waiting_keep h
  constructor
  · rw [← hw]
    refine (List.filter_cons_of_neg ?_).trans (by rw [hw]; exact hw)
    rw [hx]
    decide
  · refine (List.filter_cons_of_pos ?_).trans (congrArg _ hg)
    exact decide_eq_true hx

theorem waiting_erase {w : Fin n} (hn : m.Nodup) (hw : (e.after.ws w).state=.idle)
    (h : ∀x∈m.erase w,(e.after.ws x).state=.wait) :
    e.waiting m=m.erase w ∧ e.granted m=[] := by
  have hstay : ∀x∈m,x≠w → (e.after.ws x).state=.wait := fun x hx hxw =>
    h x ((List.mem_erase_of_ne hxw).mpr hx)
  constructor
  · rw [hn.erase_eq_filter]
    refine List.filter_congr fun x hx => ?_
    by_cases hxw : x=w
    · rw [hxw,hw]
      simp
    · rw [hstay x hx hxw]
      simp [hxw]
  · refine granted_none fun x hx => ?_
    by_cases hxw : x=w
    · rw [hxw,hw]
      decide
    · rw [hstay x hx hxw]
      decide

theorem waiting_failed (h : ∀w∈m,(e.after.ws w).state=.failed) :
    e.waiting m=[] ∧ e.granted m=[] := by
  refine ⟨List.filter_eq_nil_iff.mpr fun w hw hx => ?_,granted_none fun w hw => ?_⟩
  · rw [decide_eq_true_eq,h w hw] at hx
    cases hx
  · rw [h w hw]
    decide

end Ends

/-- An operation that neither makes the object in a slot nor is on it leaves it alone. -/
theorem Move.quiet (hs : s.Inv) (hm : Move s e s') {κ : Kind} {i : Nat}
    (hr : e.reaches κ i=false) (hc : e.creates κ i=false) : Quiet κ i s.obj s'.obj := by
  have ho := hm.outcome hs
  obtain ⟨-,⟨hbefore,-,hx⟩,-⟩ := hm
  have hh : ∀h,e.op.handle=some (κ,h) → s.obj.find κ h≠some i := by
    intro h hop hf
    rw [Event.reaches,hop] at hr
    rw [hbefore] at hr
    simp [hf] at hr
  by_cases hop : e.op.creates=some κ
  · rcases exec_cases s.obj e.op with ⟨κ',obj,hc',-,hcr⟩|⟨_,_,_,hc',-⟩|⟨-,hbad,-⟩
    · obtain rfl : κ'=κ := Option.some.inj (hc'.symm.trans hop)
      refine ho.quiet κ' i hh fun _ hfree => ?_
      have hi := (freeSlot_some hfree).1
      rw [hcr,Objects.create,createIn,hfree] at hx
      have ha : e.answer.handle=hMake κ'.type (s.obj.tab κ' i).gen i := by
        rw [← (Prod.mk.inj hx).1]
      rw [Event.creates,decide_eq_false_iff_not] at hc
      exact hc ⟨hop,by rw [ha]; exact hMake_ne _ hi,by rw [ha]; exact hIdx_hMake _ hi⟩
    · rw [hop] at hc'
      cases hc'
    · have hk : s.obj=s'.obj := (Prod.mk.inj ((hbad (by rw [hop]; exact Option.some_ne_none κ)).symm.trans
        hx)).2
      rw [← hk]
      exact .refl κ i _
  · exact ho.quiet κ i hh fun hop' => absurd hop' hop

end Steps

end LugalOS.Kobj
