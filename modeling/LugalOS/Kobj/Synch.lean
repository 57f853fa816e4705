import LugalOS.Kobj.Sharing

namespace LugalOS.Kobj

open Function (update)
open Run

/-! Semaphores, mutexes and event groups over any sequence of operations: what has been given and
granted, who holds what, and how waits end. -/

variable {n : Nat}

def Objects.sem (k : Objects n) (i : Nat) : Sem n := (k.tab .sem i).obj
def Objects.mutex (k : Objects n) (i : Nat) : Mutex n := (k.tab .mutex i).obj
def Objects.event (k : Objects n) (i : Nat) : Evt n := (k.tab .event i).obj

section Counting

/-- How often the operation has given to the semaphore in a slot. -/
def Event.gives (e : Event n) (i : Nat) : Nat :=
  match e.op with
  | .semGive _ => if e.reaches .sem i && e.answer.ko==.ok then 1 else 0
  | _ => 0

/-- How many takes of it the operation has granted, at once or to one that waited. -/
def Event.takes (e : Event n) (i : Nat) : Nat :=
  (match e.op with
  | .semTake _ _ _ => if e.reaches .sem i && e.answer.ko==.ok then 1 else 0
  | _ => 0)+(e.granted (e.before.members .sem i)).length

def Op.init : Op n → Nat
  | .semCreate _ init => init.toNat
  | _ => 0

structure SemTally where
  init : Nat
  gives : Nat
  grants : Nat

/-- The count of the semaphore in a slot since it was made. -/
def semTally (i : Nat) : List (Event n) → SemTally
  | [] => ⟨0,0,0⟩
  | e::hist =>
    if e.creates .sem i then ⟨e.op.init,0,0⟩
    else ⟨(semTally i hist).init,(semTally i hist).gives+e.gives i,
      (semTally i hist).grants+e.takes i⟩

/-- What an operation does to the semaphore in a slot. -/
structure SemMove (s s' : World n) (e : Event n) (i : Nat) : Prop where
  fresh : e.creates .sem i=true → (s'.obj.sem i).count.toNat=e.op.init
  count : e.creates .sem i=false → (s'.obj.tab .sem i).used=true → (s.obj.tab .sem i).used=true ∧
    (s'.obj.sem i).count.toNat+e.takes i=(s.obj.sem i).count.toNat+e.gives i

variable {s s' : World n} {e : Event n} {i : Nat}

theorem Move.quiet_waiting (hs : s.Inv) (hm : Move s e s') {κ : Kind}
    (hq : Quiet κ i s.obj s'.obj) : ∀w∈e.before.members κ i,(e.after.ws w).state=.wait := by
  have hs' := move_inv hs hm
  obtain ⟨-,⟨hbefore,hafter,-⟩,-⟩ := hm
  intro w hw
  rw [hafter]
  rw [hbefore,← hq.members] at hw
  exact hs'.obj.waiting hw

theorem semMove_quiet (hs : s.Inv) (hm : Move s e s') (hr : e.reaches .sem i=false)
    (hc : e.creates .sem i=false) : SemMove s s' e i := by
  have hq := hm.quiet hs hr hc
  obtain ⟨-,hg⟩ := waiting_keep (hm.quiet_waiting hs hq)
  refine ⟨fun hx => absurd (hc.symm.trans hx) Bool.false_ne_true,fun _ hu =>
    ⟨hq.used.symm.trans hu,?_⟩⟩
  have ht : e.takes i=0 := by
    rw [Event.takes,hr,hg]
    cases e.op <;> rfl
  have hgv : e.gives i=0 := by
    rw [Event.gives,hr]
    cases e.op <;> rfl
  rw [ht,hgv,Objects.sem,hq.obj]
  rfl

theorem semMove_take (hs : s.Inv) (hm : Move s e s') {h : UInt32} {w : Option (Fin n)} {who : Int}
    (hop : e.op=.semTake h w who) (hf : s.obj.find .sem h=some i) : SemMove s s' e i := by
  have hfound := hm.foundAt hs (κ := .sem) (f := fun ws s => Sem.take ws s w who)
    (by rw [hop]; rfl : exec s.obj e.op=s.obj.on .sem h {ko := .fail} _) (by rw [hop]; rfl) hf
  obtain ⟨r,hr⟩ : ∃r,Sem.take s.obj.ws (s.obj.tab .sem i).obj w who=r := ⟨_,rfl⟩
  change FoundAt s s' e .sem i (Sem.take s.obj.ws (s.obj.tab .sem i).obj w who) at hfound
  rw [hr] at hfound
  obtain ⟨hans,hobj,hws,hbefore,hafter,hu,hu',hmem,hwait,hreach⟩ := hfound
  obtain ⟨-,-,-,hc⟩ := Sem.take_spec (hs.obj.sound .sem i hu)
    (fun x hx => hm.1.fresh x (by rw [hop]; exact hx)) who hr
  refine ⟨fun hx => ?_,fun _ _ => ⟨hu,?_⟩⟩
  · rw [Event.creates,hop] at hx
    exact absurd (of_decide_eq_true hx).1 (Option.some_ne_none _).symm
  have hgv : e.gives i=0 := by rw [Event.gives,hop]
  have hkeep : ∀x∈e.before.members .sem i,(e.after.ws x).state=.wait := by
    intro x hx
    rw [hbefore,members_of_used hu] at hx
    refine hwait x ?_
    rw [hmem]
    change x∈WList.members _ _
    rcases hc with ⟨-,h1,h2,-⟩|⟨-,h1⟩|⟨y,-,-,-,h1,-⟩
    · rw [h1,h2]
      exact hx
    · rw [h1]
      exact hx
    · rw [h1]
      exact List.mem_append_left _ hx
  have ht : e.takes i=if r.1.ko==.ok then 1 else 0 := by
    rw [Event.takes,hop,hreach,(waiting_keep hkeep).2,hans]
    rfl
  rw [ht,hgv,Objects.sem,hobj]
  rcases hc with ⟨hko,-,-,hcnt⟩|⟨hko,hsame⟩|⟨y,-,hko,hcnt,-⟩
  · rw [hko]
    exact hcnt
  · rw [hko,hsame]
    rfl
  · rw [hko,hcnt]
    rfl

theorem semMove_give (hs : s.Inv) (hm : Move s e s') {h : UInt32}
    (hop : e.op=.semGive h) (hf : s.obj.find .sem h=some i) : SemMove s s' e i := by
  have hfound := hm.foundAt hs (κ := .sem) (f := Sem.give)
    (by rw [hop]; rfl : exec s.obj e.op=s.obj.on .sem h {ko := .fail} _) (by rw [hop]; rfl) hf
  obtain ⟨r,hr⟩ : ∃r,Sem.give s.obj.ws (s.obj.tab .sem i).obj=r := ⟨_,rfl⟩
  rw [hr] at hfound
  obtain ⟨hans,hobj,hws,hbefore,hafter,hu,hu',hmem,hwait,hreach⟩ := hfound
  obtain ⟨-,-,-,hc⟩ := Sem.give_spec (hs.obj.sound .sem i hu) hr
  refine ⟨fun hx => ?_,fun _ _ => ⟨hu,?_⟩⟩
  · rw [Event.creates,hop] at hx
    exact absurd (of_decide_eq_true hx).1 (Option.some_ne_none _).symm
  have hgv : e.gives i=if r.1.ko==.ok then 1 else 0 := by
    rw [Event.gives,hop,hreach,hans]
    rfl
  have ht : e.takes i=(e.granted (WList.members (Sem.w (s.obj.tab .sem i).obj) s.obj.ws)).length := by
    rw [Event.takes,hop,hbefore,members_of_used hu]
    exact Nat.zero_add _
  have hwait' : ∀x∈WList.members (Sem.w r.2.2) r.2.1,(e.after.ws x).state=.wait := fun x hx =>
    hwait x (by rw [hmem]; exact hx)
  rw [ht,hgv,Objects.sem,hobj]
  rcases hc with ⟨x,h1,hko,hx,hcnt⟩|⟨h1,hko,hsame⟩|⟨h1,hko,-,-,hcnt⟩
  · have hx' : (e.after.ws x).state=.grant := by
      rw [hws]
      exact hx
    rw [hko,h1,(waiting_first hx' hwait').2,hcnt]
    rfl
  · rw [hko,h1,hsame]
    rfl
  · rw [hko,h1]
    exact hcnt

theorem Move.cancelled (hs : s.Inv) (hm : Move s e s') {κ : Kind} {h : UInt32} {w : Fin n}
    {unlink : Waiters n → Obj n κ → Waiters n×Obj n κ} (hop : e.op=.cancel κ h w)
    (hx : (s.obj.cancel κ h w unlink).2=s'.obj) (hf : s.obj.find κ h=some i) :
    s'.obj=s.obj ∨ ((s.obj.ws w).state=.wait ∧ w∈membersOf κ s.obj.ws (s.obj.tab κ i).obj ∧
      (s'.obj.tab κ i).obj=(unlink s.obj.ws (s.obj.tab κ i).obj).2 ∧
      s'.obj.ws=(unlink s.obj.ws (s.obj.tab κ i).obj).1.setState w .idle) := by
  have hl := hm.1
  rw [hop] at hl
  rcases cancel_cases hs hl unlink with ⟨-,hc⟩|⟨-,hc⟩|⟨hst,j,hj,hw,hc⟩
  · exact .inl (hx.symm.trans (congrArg Prod.snd hc))
  · exact .inl (hx.symm.trans (congrArg Prod.snd hc))
  · obtain rfl : j=i := Option.some.inj (hj.symm.trans hf)
    have hset := hx.symm.trans (congrArg Prod.snd hc)
    refine .inr ⟨hst,(members_used hw).2,?_,?_⟩
    · rw [hset]
      exact congrArg Slot.obj (setSlot_same _ _)
    · rw [hset]
      rfl

theorem Move.deleted (hm : Move s e s') {κ : Kind} {h : UInt32} (hop : e.op=.delete κ h)
    (hf : s.obj.find κ h=some i) : (s'.obj.tab κ i).used=false := by
  obtain ⟨-,⟨-,-,hx⟩,-⟩ := hm
  rcases exec_cases s.obj e.op with ⟨_,_,-,hd,-⟩|⟨κ',h',f,-,hd,hex⟩|⟨hd,-⟩
  · rw [hop] at hd
    cases hd
  · rw [hop] at hd
    obtain ⟨rfl,rfl⟩ := Prod.mk.inj (Option.some.inj hd)
    rw [hex,Objects.delete,hf] at hx
    rw [← (Prod.mk.inj hx).2,setSlot_same]
    rfl
  · rw [hop] at hd
    cases hd

theorem Move.created (hm : Move s e s') {κ : Kind} {obj : Obj n κ}
    (hx : exec s.obj e.op=s.obj.create κ obj) (hc : e.creates κ i=true) :
    (s'.obj.tab κ i).obj=obj := by
  obtain ⟨-,⟨-,-,hop⟩,-⟩ := hm
  obtain ⟨-,hne,hidx⟩ := of_decide_eq_true hc
  rw [hx,Objects.create] at hop
  rcases createIn_cases obj (Eq.refl (createIn (s.obj.tab κ) κ obj)) with hr|⟨j,hj,-,hr⟩
  · rw [hr] at hop
    exact absurd (congrArg Answer.handle (Prod.mk.inj hop).1).symm hne
  · rw [hr] at hop
    obtain ⟨hans,hk⟩ := Prod.mk.inj hop
    obtain rfl : j=i := by
      rw [← hans] at hidx
      exact Option.some.inj ((hIdx_hMake _ hj).symm.trans hidx)
    rw [← hk]
    exact congrArg Slot.obj (setSlot_same (k := s.obj) (κ := κ) (i := j) s.obj.ws _)

theorem no_create {κ : Kind} (hop : e.op.creates=none) : e.creates κ i=true → False := fun hx => by
  rw [Event.creates,hop] at hx
  exact Option.some_ne_none _ (of_decide_eq_true hx).1.symm

theorem semMove_cancel (hs : s.Inv) (hm : Move s e s') {h : UInt32} {w : Fin n}
    (hop : e.op=.cancel .sem h w) (hf : s.obj.find .sem h=some i) : SemMove s s' e i := by
  have hu : (s.obj.tab .sem i).used=true := (lookup_some.mp hf).2.2.2.1
  have hs' := move_inv hs hm
  have hx : (s.obj.cancel .sem h w (Sem.drop w)).2=s'.obj := by
    have hx := hm.2.1.2.2
    rw [hop] at hx
    exact (Prod.mk.inj hx).2
  have hc := hm.cancelled hs hop hx hf
  obtain ⟨-,⟨hbefore,hafter,-⟩,-⟩ := hm
  refine ⟨fun hx => (no_create (by rw [hop]; rfl) hx).elim,fun _ hu' => ⟨hu,?_⟩⟩
  have hfacts : e.granted (e.before.members .sem i)=[] ∧
      (s'.obj.sem i).count=(s.obj.sem i).count := by
    rw [hbefore]
    rcases hc with hsame|⟨-,hw,hobj,hws⟩
    · have hwait : ∀x∈s.obj.members .sem i,(e.after.ws x).state=.wait := fun x hx => by
        rw [hafter,hsame]
        exact hs.obj.waiting hx
      exact ⟨(waiting_keep hwait).2,by rw [hsame]⟩
    · have hsound := hs.obj.sound .sem i hu
      obtain ⟨-,-,hmem,hcount,-,hidle⟩ := Sem.drop_spec hsound hw rfl
      rw [← hws] at hmem hidle
      rw [← hobj] at hmem hcount
      rw [members_of_used hu]
      refine ⟨(waiting_erase (w := w) hsound.threads.nodup (by rw [hafter]; exact hidle)
        fun x hx => ?_).2,hcount⟩
      rw [hafter]
      refine hs'.obj.waiting (κ := .sem) (i := i) ?_
      rw [members_of_used hu']
      exact (congrArg (x∈·) hmem).mpr hx
  have hgv : e.gives i=0 := by rw [Event.gives,hop]
  have ht : e.takes i=0 := by
    rw [Event.takes,hop,hfacts.1]
    rfl
  rw [ht,hgv,hfacts.2]

theorem semMove_create (hm : Move s e s') (hc : e.creates .sem i=true) : SemMove s s' e i := by
  refine ⟨fun _ => ?_,fun hx => absurd (hx.symm.trans hc) Bool.false_ne_true⟩
  obtain ⟨hop,hne,-⟩ := of_decide_eq_true hc
  cases hq : e.op with
  | semCreate max init =>
    by_cases hbad : max=0 ∨ init > max
    · have hx : exec s.obj e.op=({},s.obj) := by
        rw [hq]
        exact if_pos hbad
      rw [hm.2.1.2.2] at hx
      exact absurd (congrArg Answer.handle (Prod.mk.inj hx).1) hne
    · have hx : exec s.obj e.op=s.obj.create .sem ⟨init,max,WList.empty⟩ := by
        rw [hq]
        exact if_neg hbad
      rw [Objects.sem,hm.created hx hc]
      rfl
  | _ =>
    rw [hq] at hop
    cases hop

theorem sem_move (hs : s.Inv) (hm : Move s e s') (i : Nat) : SemMove s s' e i := by
  by_cases hc : e.creates .sem i=true
  · exact semMove_create hm hc
  · by_cases hr : e.reaches .sem i=true
    · have hbefore : e.before=s.obj := hm.2.1.1
      unfold Event.reaches at hr
      cases hop : e.op with
      | semTake h w who =>
        rw [hop] at hr
        exact semMove_take hs hm hop (hbefore ▸ (of_decide_eq_true hr).2)
      | semGive h =>
        rw [hop] at hr
        exact semMove_give hs hm hop (hbefore ▸ (of_decide_eq_true hr).2)
      | cancel κ h w =>
        rw [hop] at hr
        obtain ⟨rfl,hf⟩ := of_decide_eq_true hr
        exact semMove_cancel hs hm hop (hbefore ▸ hf)
      | delete κ h =>
        rw [hop] at hr
        obtain ⟨rfl,hf⟩ := of_decide_eq_true hr
        have hu' := hm.deleted hop (hbefore ▸ hf)
        exact ⟨fun hx => absurd hx hc,fun _ hx => absurd (hu'.symm.trans hx) Bool.false_ne_true⟩
      | _ =>
        rw [hop] at hr
        exact absurd hr Bool.false_ne_true
    · exact semMove_quiet hs hm (by simpa using hr) (by simpa using hc)

end Counting

section Holding

/-- How many times the operation makes the task t hold the mutex in a slot once more. -/
def Event.locks (e : Event n) (i : Nat) (t : Int) : Nat :=
  (match e.op with
  | .mutexLock _ _ who => if who=t ∧ e.reaches .mutex i=true ∧ e.answer.ko=.ok then 1 else 0
  | _ => 0)+((e.granted (e.before.members .mutex i)).map fun w => (e.before.ws w).who).count t

/-- How many times it makes it hold the mutex once less. -/
def Event.unlocks (e : Event n) (i : Nat) (t : Int) : Nat :=
  match e.op with
  | .mutexUnlock _ who => if who=t ∧ e.reaches .mutex i=true ∧ e.answer.ko=.ok then 1 else 0
  | _ => 0

/-- How many times a task holds the mutex in a slot, since it was made. -/
def holds (i : Nat) (t : Int) : List (Event n) → Int
  | [] => 0
  | e::hist => if e.creates .mutex i then 0 else holds i t hist+e.locks i t-e.unlocks i t

/-- relock says who locks a mutex that it owns. -/
inductive MutexChange (m m' : Mutex n) (locks unlocks : Int → Nat) (relock : Int → Prop) : Prop
  | same (ho : m'.owner=m.owner) (hd : m'.depth=m.depth) (hl : ∀t,locks t=0)
      (hu : ∀t,unlocks t=0)
  | taken (who : Int) (hwho : 0≤who) (ho : m.owner < 0) (ho' : m'.owner=who) (hd : m'.depth=1)
      (hl : ∀t,locks t=if who=t then 1 else 0) (hu : ∀t,unlocks t=0)
  | again (who : Int) (hwho : 0≤who) (hr : relock who) (ho : m.owner=who) (ho' : m'.owner=who)
      (hd : m'.depth=m.depth+1) (hl : ∀t,locks t=if who=t then 1 else 0) (hu : ∀t,unlocks t=0)
  | lessened (who : Int) (hwho : 0≤who) (ho : m.owner=who) (ho' : m'.owner=who)
      (hone : m.depth≠1) (hd : m'.depth=m.depth-1) (hl : ∀t,locks t=0)
      (hu : ∀t,unlocks t=if who=t then 1 else 0)
  | passed (who next : Int) (hwho : 0≤who) (hnext : 0≤next) (hne : next≠who) (ho : m.owner=who)
      (ho' : m'.owner=next) (hone : m.depth=1) (hd : m'.depth=1)
      (hl : ∀t,locks t=if next=t then 1 else 0) (hu : ∀t,unlocks t=if who=t then 1 else 0)
  | freed (who : Int) (hwho : 0≤who) (ho : m.owner=who) (ho' : m'.owner < 0) (hone : m.depth=1)
      (hl : ∀t,locks t=0) (hu : ∀t,unlocks t=if who=t then 1 else 0)

/-- What the counts of locks say of the owner and of its depth, which wraps at 2^32. -/
structure Nest (m : Mutex n) (held : Int → Int) : Prop where
  owner : 0 ≤ m.owner → ∃d : Nat,1≤d ∧ d≤2^32 ∧ m.depth=UInt32.ofNat d ∧ held m.owner=d
  others : ∀t,t≠m.owner ∨ m.owner < 0 → held t=0

theorem ofNat_eq_one {d : Nat} (h1 : 1≤d) (h2 : d≤2^32) : UInt32.ofNat d=1 ↔ d=1 := by
  rw [← UInt32.toNat_inj,UInt32.toNat_ofNat']
  change d%2^32=1 ↔ d=1
  omega

/-- The counts go with the mutex, as long as no task that holds it 2^32 times locks it again. -/
theorem Nest.step {m m' : Mutex n} {held held' : Int → Int} {locks unlocks : Int → Nat}
    {relock : Int → Prop} (h : Nest m held) (hc : MutexChange m m' locks unlocks relock)
    (hs : relock m.owner → m.depth≠0)
    (hh : ∀t,held' t=held t+locks t-unlocks t) : Nest m' held' := by
  obtain ⟨hown,hoth⟩ := h
  cases hc with
  | same ho hd hl hu =>
    have heq : ∀t,held' t=held t := fun t => by rw [hh,hl,hu]; omega
    refine ⟨fun hpos => ?_,fun t ht => ?_⟩
    · rw [ho] at hpos ⊢
      rw [hd,heq]
      exact hown hpos
    · rw [heq]
      rw [ho] at ht
      exact hoth t ht
  | taken who hwho ho ho' hd hl hu =>
    refine ⟨fun _ => ⟨1,Nat.le_refl _,by decide,hd,?_⟩,fun t ht => ?_⟩
    · rw [ho',hh,hl,hu,hoth who (.inr ho),if_pos rfl]
      rfl
    · rw [ho'] at ht
      have hne : who≠t := by
        rintro rfl
        rcases ht with ht|ht
        · exact ht rfl
        · omega
      rw [hh,hl,hu,hoth t (.inr ho),if_neg hne]
      rfl
  | again who hwho hr ho ho' hd hl hu =>
    subst ho
    obtain ⟨d,h1,h2,hdep,hheld⟩ := hown hwho
    have hlt : d < 2^32 := by
      rcases Nat.lt_or_eq_of_le h2 with hlt|rfl
      · exact hlt
      · exact absurd hdep (hs hr)
    refine ⟨fun _ => ⟨d+1,Nat.le_add_left _ _,hlt,?_,?_⟩,fun t ht => ?_⟩
    · rw [hd,hdep,UInt32.ofNat_add]
      rfl
    · rw [ho',hh,hl,hu,hheld,if_pos rfl]
      push_cast
      omega
    · rw [ho'] at ht
      have hne : m.owner≠t := by
        rintro rfl
        rcases ht with ht|ht
        · exact ht rfl
        · omega
      rw [hh,hl,hu,hoth t (.inl hne.symm),if_neg hne]
      rfl
  | lessened who hwho ho ho' hone hd hl hu =>
    subst ho
    obtain ⟨d,h1,h2,hdep,hheld⟩ := hown hwho
    have hgt : d≠1 := fun he => hone (by rw [hdep,he]; rfl)
    refine ⟨fun _ => ⟨d-1,by omega,by omega,?_,?_⟩,fun t ht => ?_⟩
    · rw [hd,hdep,show d=d-1+1 by omega,UInt32.ofNat_add]
      exact UInt32.add_sub_cancel _ _
    · rw [ho',hh,hl,hu,hheld,if_pos rfl]
      omega
    · rw [ho'] at ht
      have hne : m.owner≠t := by
        rintro rfl
        rcases ht with ht|ht
        · exact ht rfl
        · omega
      rw [hh,hl,hu,hoth t (.inl hne.symm),if_neg hne]
      rfl
  | passed who next hwho hnext hne ho ho' hone hd hl hu =>
    subst ho
    obtain ⟨d,h1,h2,hdep,hheld⟩ := hown hwho
    have hd1 : d=1 := (ofNat_eq_one h1 h2).mp (hdep.symm.trans hone)
    refine ⟨fun _ => ⟨1,Nat.le_refl _,by decide,hd,?_⟩,fun t ht => ?_⟩
    · rw [ho',hh,hl,hu,hoth next (.inl hne),if_pos rfl,if_neg hne.symm]
      rfl
    · rw [ho'] at ht
      have hnt : next≠t := by
        rintro rfl
        rcases ht with ht|ht
        · exact ht rfl
        · omega
      by_cases hw : m.owner=t
      · rw [hh,hl,hu,if_neg hnt,if_pos hw,← hw,hheld,hd1]
        rfl
      · rw [hh,hl,hu,hoth t (.inl fun he => hw he.symm),if_neg hnt,if_neg hw]
        rfl
  | freed who hwho ho ho' hone hl hu =>
    subst ho
    obtain ⟨d,h1,h2,hdep,hheld⟩ := hown hwho
    have hd1 : d=1 := (ofNat_eq_one h1 h2).mp (hdep.symm.trans hone)
    refine ⟨fun hpos => by omega,fun t _ => ?_⟩
    by_cases hw : m.owner=t
    · rw [hh,hl,hu,if_pos hw,← hw,hheld,hd1]
      rfl
    · rw [hh,hl,hu,hoth t (.inl fun he => hw he.symm),if_neg hw]
      rfl

/-- What an unlock that succeeds does with the mutex: it keeps it, or, having held it once, passes
it to the first waiter. -/
def Passing (k k' : Objects n) (i : Nat) (who : Int) : Prop :=
  (k.mutex i).owner=who ∧
    (((k.mutex i).depth≠1 ∧ (k'.mutex i).owner=who ∧ k'.members .mutex i=k.members .mutex i) ∨
      ((k.mutex i).depth=1 ∧ k.members .mutex i=[] ∧ (k'.mutex i).owner < 0) ∨
      ((k.mutex i).depth=1 ∧ ∃x,k.members .mutex i=x::k'.members .mutex i ∧
        (k'.ws x).state=.grant ∧ (k'.mutex i).owner=(k.ws x).who))

/-- The operation is the owner's, who locks its recursive mutex once more. -/
def Relocks (k : Objects n) (op : Op n) (i : Nat) (who : Int) : Prop :=
  ∃h w,op=.mutexLock h w who ∧ k.find .mutex h=some i ∧ (k.mutex i).recursive=true

/-- What an operation does to the mutex in a slot. -/
structure MutexMove (s s' : World n) (e : Event n) (i : Nat) : Prop where
  fresh : e.creates .mutex i=true → (s'.obj.mutex i).owner < 0
  change : e.creates .mutex i=false → (s'.obj.tab .mutex i).used=true →
    (s.obj.tab .mutex i).used=true ∧
      MutexChange (s.obj.mutex i) (s'.obj.mutex i) (e.locks i) (e.unlocks i)
        (Relocks s.obj e.op i)
  passing : ∀h who,e.op=.mutexUnlock h who → e.reaches .mutex i=true → e.answer.ko=.ok →
    Passing s.obj s'.obj i who

variable {s s' : World n} {e : Event n} {i : Nat}

theorem locks_none (hop : ∀h w who,e.op≠.mutexLock h w who)
    (hg : e.granted (e.before.members .mutex i)=[]) (t : Int) : e.locks i t=0 := by
  rw [Event.locks,hg]
  cases hq : e.op with
  | mutexLock h w who => exact absurd hq (hop h w who)
  | _ => rfl

theorem unlocks_none (hop : ∀h who,e.op≠.mutexUnlock h who) (t : Int) : e.unlocks i t=0 := by
  rw [Event.unlocks]
  cases hq : e.op with
  | mutexUnlock h who => exact absurd hq (hop h who)
  | _ => rfl

theorem mutexMove_quiet (hs : s.Inv) (hm : Move s e s') (hr : e.reaches .mutex i=false)
    (hc : e.creates .mutex i=false) : MutexMove s s' e i := by
  have hq := hm.quiet hs hr hc
  obtain ⟨-,hg⟩ := waiting_keep (hm.quiet_waiting hs hq)
  have hobj : s'.obj.mutex i=s.obj.mutex i := hq.obj
  refine ⟨fun hx => absurd (hc.symm.trans hx) Bool.false_ne_true,fun _ hu =>
    ⟨hq.used.symm.trans hu,.same (by rw [hobj]) (by rw [hobj]) (fun t => ?_) fun t => ?_⟩,
    fun h who _ hx => absurd (hr.symm.trans hx) Bool.false_ne_true⟩
  · rw [Event.locks,hr,hg]
    cases e.op <;> simp
  · rw [Event.unlocks,hr]
    cases e.op <;> simp

theorem mutexMove_lock (hs : s.Inv) (hm : Move s e s') {h : UInt32} {w : Option (Fin n)}
    {who : Int} (hop : e.op=.mutexLock h w who) (hf : s.obj.find .mutex h=some i) :
    MutexMove s s' e i := by
  have hfound := hm.foundAt hs (κ := .mutex) (f := fun ws m => Mutex.lock ws m w who)
    (by rw [hop]; rfl : exec s.obj e.op=s.obj.on .mutex h {ko := .fail} _) (by rw [hop]; rfl) hf
  obtain ⟨r,hr⟩ : ∃r,Mutex.lock s.obj.ws (s.obj.tab .mutex i).obj w who=r := ⟨_,rfl⟩
  change FoundAt s s' e .mutex i (Mutex.lock s.obj.ws (s.obj.tab .mutex i).obj w who) at hfound
  rw [hr] at hfound
  obtain ⟨hans,hobj,hws,hbefore,hafter,hu,hu',hmem,hwait,hreach⟩ := hfound
  obtain ⟨hwho,hnew⟩ := hm.1.caller who (by rw [hop]; rfl)
  have hsound := hs.obj.sound .mutex i hu
  obtain ⟨-,-,hc⟩ := Mutex.lock_spec hsound
    (fun x hx => hm.1.fresh x (by rw [hop]; exact hx)) hwho
    (fun x hx => hnew x (SoundObj.waiting hsound x hx)) hr
  refine ⟨fun hx => (no_create (by rw [hop]; rfl) hx).elim,fun _ _ => ⟨hu,?_⟩,
    fun h' who' hop' => by rw [hop] at hop'; cases hop'⟩
  have hkeep : ∀x∈e.before.members .mutex i,(e.after.ws x).state=.wait := by
    intro x hx
    rw [hbefore,members_of_used hu] at hx
    refine hwait x ?_
    rw [hmem]
    change x∈WList.members _ _
    rcases hc with ⟨-,h1,h2,-⟩|⟨-,-,h1⟩|⟨y,-,-,-,-,h1,-⟩
    · rw [h1,h2]
      exact hx
    · rw [h1]
      exact hx
    · rw [h1]
      exact List.mem_append_left _ hx
  have hul : ∀t,e.unlocks i t=0 := unlocks_none fun h' who' hop' => by rw [hop] at hop'; cases hop'
  have hlk : ∀t,e.locks i t=if who=t ∧ r.1.ko=.ok then 1 else 0 := fun t => by
    rw [Event.locks,hop,hreach,(waiting_keep hkeep).2,hans]
    simp
  have hm' : s'.obj.mutex i=r.2.2 := hobj
  rcases hc with ⟨hko,-,-,ho',⟨ho,hd⟩|⟨ho,hrec,hd⟩⟩|⟨hko,-,hsame⟩|⟨x,-,hko,ho,hd,-⟩
  · refine .taken who hwho ho (by rw [hm',ho']) (by rw [hm',hd]) (fun t => ?_) hul
    rw [hlk,hko]
    simp
  · refine .again who hwho ⟨h,w,hop,hf,hrec⟩ ho (by rw [hm',ho']) (by rw [hm',hd]; rfl) (fun t => ?_) hul
    rw [hlk,hko]
    simp
  · refine .same (by rw [hm',hsame]; rfl) (by rw [hm',hsame]; rfl) (fun t => ?_) hul
    rw [hlk]
    simp [hko]
  · refine .same (by rw [hm',ho]; rfl) (by rw [hm',hd]; rfl) (fun t => ?_) hul
    rw [hlk,hko]
    simp

theorem mutexMove_unlock (hs : s.Inv) (hm : Move s e s') {h : UInt32} {who : Int}
    (hop : e.op=.mutexUnlock h who) (hf : s.obj.find .mutex h=some i) : MutexMove s s' e i := by
  have hfound := hm.foundAt hs (κ := .mutex) (f := fun ws m => Mutex.unlock ws m who)
    (by rw [hop]; rfl : exec s.obj e.op=s.obj.on .mutex h {ko := .fail} _) (by rw [hop]; rfl) hf
  obtain ⟨r,hr⟩ : ∃r,Mutex.unlock s.obj.ws (s.obj.tab .mutex i).obj who=r := ⟨_,rfl⟩
  change FoundAt s s' e .mutex i (Mutex.unlock s.obj.ws (s.obj.tab .mutex i).obj who) at hfound
  rw [hr] at hfound
  obtain ⟨hans,hobj,hws,hbefore,hafter,hu,hu',hmem,hwait,hreach⟩ := hfound
  obtain ⟨hwho,-⟩ := hm.1.caller who (by rw [hop]; rfl)
  have hsound := hs.obj.sound .mutex i hu
  obtain ⟨-,-,hc⟩ := Mutex.unlock_spec hsound who hr
  have hm' : s'.obj.mutex i=r.2.2 := hobj
  have hmem' : s'.obj.members .mutex i=WList.members (Mutex.w r.2.2) r.2.1 := hmem
  have hmem₀ : s.obj.members .mutex i=WList.members (Mutex.w (s.obj.tab .mutex i).obj) s.obj.ws :=
    members_of_used hu
  have hws' : s'.obj.ws=r.2.1 := (congrArg Objects.ws hafter).trans hws
  have hul : ∀t,e.unlocks i t=if who=t ∧ r.1.ko=.ok then 1 else 0 := fun t => by
    rw [Event.unlocks,hop,hreach,hans]
    simp
  have hlk : ∀t,e.locks i t=((e.granted (s.obj.members .mutex i)).map fun w =>
      (s.obj.ws w).who).count t := fun t => by
    rw [Event.locks,hop,hbefore]
    exact Nat.zero_add _
  rcases hc with ⟨hown,hko,hsame⟩|⟨hown,hko,⟨hd,hw1,hw2,ho',hd'⟩|⟨x,hd,h1,hx,ho',hd'⟩|
    ⟨hd,h1,hw1,hw2,ho'⟩⟩
  · have hsm : s'.obj.members .mutex i=s.obj.members .mutex i := by rw [hmem',hmem₀,hsame]
    rw [hsm] at hwait
    refine ⟨fun hx => (no_create (by rw [hop]; rfl) hx).elim,fun _ _ => ⟨hu,
      .same (by rw [hm',hsame]; rfl) (by rw [hm',hsame]; rfl) (fun t => ?_) fun t => ?_⟩,?_⟩
    · rw [hlk,(waiting_keep hwait).2]
      rfl
    · rw [hul,hko]
      simp
    · intro _ _ _ _ hok
      rw [hans,hko] at hok
      cases hok
  · have hsm : s'.obj.members .mutex i=s.obj.members .mutex i := by rw [hmem',hmem₀,hw1,hw2]
    rw [hsm] at hwait
    refine ⟨fun hx => (no_create (by rw [hop]; rfl) hx).elim,fun _ _ => ⟨hu,
      .lessened who hwho hown (by rw [hm',ho']) hd (by rw [hm',hd']; rfl) (fun t => ?_)
        fun t => ?_⟩,?_⟩
    · rw [hlk,(waiting_keep hwait).2]
      rfl
    · rw [hul,hko]
      simp
    · intro h' who' hop' _ _
      rw [hop] at hop'
      obtain ⟨-,rfl⟩ := Op.mutexUnlock.inj hop'
      exact ⟨hown,.inl ⟨hd,by rw [hm',ho'],hsm⟩⟩
  · rw [← hmem',← hmem₀] at h1
    have hx' : (e.after.ws x).state=.grant := by
      rw [hws]
      exact hx
    have hothers := hsound.others x (by rw [← hmem₀,h1]; exact List.mem_cons_self)
    refine ⟨fun hx => (no_create (by rw [hop]; rfl) hx).elim,fun _ _ => ⟨hu,
      .passed who (s.obj.ws x).who hwho hothers.1 (fun he => hothers.2 (he.trans hown.symm)) hown
        (by rw [hm',ho']) hd (by rw [hm',hd']) (fun t => ?_) fun t => ?_⟩,?_⟩
    · rw [hlk,h1,(waiting_first hx' hwait).2,List.map_singleton,List.count_singleton]
      simp
    · rw [hul,hko]
      simp
    · intro h' who' hop' _ _
      rw [hop] at hop'
      obtain ⟨-,rfl⟩ := Op.mutexUnlock.inj hop'
      exact ⟨hown,.inr (.inr ⟨hd,x,h1,by rw [hws']; exact hx,by rw [hm',ho']⟩)⟩
  · rw [← hmem₀] at h1
    refine ⟨fun hx => (no_create (by rw [hop]; rfl) hx).elim,fun _ _ => ⟨hu,
      .freed who hwho hown (by rw [hm',ho']; decide) hd (fun t => ?_) fun t => ?_⟩,?_⟩
    · rw [hlk,h1]
      rfl
    · rw [hul,hko]
      simp
    · intro h' who' hop' _ _
      rw [hop] at hop'
      obtain ⟨-,rfl⟩ := Op.mutexUnlock.inj hop'
      exact ⟨hown,.inr (.inl ⟨hd,h1,by rw [hm',ho']; decide⟩)⟩

theorem mutexMove_cancel (hs : s.Inv) (hm : Move s e s') {h : UInt32} {w : Fin n}
    (hop : e.op=.cancel .mutex h w) (hf : s.obj.find .mutex h=some i) : MutexMove s s' e i := by
  have hu : (s.obj.tab .mutex i).used=true := (lookup_some.mp hf).2.2.2.1
  have hs' := move_inv hs hm
  have hx : (s.obj.cancel .mutex h w (Mutex.drop w)).2=s'.obj := by
    have hx := hm.2.1.2.2
    rw [hop] at hx
    exact (Prod.mk.inj hx).2
  have hc := hm.cancelled hs hop hx hf
  obtain ⟨-,⟨hbefore,hafter,-⟩,-⟩ := hm
  refine ⟨fun hx => (no_create (by rw [hop]; rfl) hx).elim,fun _ hu' => ⟨hu,?_⟩,
    fun h' who' hop' => by rw [hop] at hop'; cases hop'⟩
  have hfacts : e.granted (e.before.members .mutex i)=[] ∧
      (s'.obj.mutex i).owner=(s.obj.mutex i).owner ∧
      (s'.obj.mutex i).depth=(s.obj.mutex i).depth := by
    rw [hbefore]
    rcases hc with hsame|⟨-,hw,hobj,hws⟩
    · have hwait : ∀x∈s.obj.members .mutex i,(e.after.ws x).state=.wait := fun x hx => by
        rw [hafter,hsame]
        exact hs.obj.waiting hx
      exact ⟨(waiting_keep hwait).2,by rw [hsame],by rw [hsame]⟩
    · have hsound := hs.obj.sound .mutex i hu
      obtain ⟨-,-,hmem,hown,hdep,hidle⟩ := Mutex.drop_spec hsound hw rfl
      rw [← hws] at hmem hidle
      rw [← hobj] at hmem hown hdep
      rw [members_of_used hu]
      refine ⟨(waiting_erase (w := w) hsound.threads.nodup (by rw [hafter]; exact hidle)
        fun x hx => ?_).2,hown,hdep⟩
      rw [hafter]
      refine hs'.obj.waiting (κ := .mutex) (i := i) ?_
      rw [members_of_used hu']
      exact (congrArg (x∈·) hmem).mpr hx
  exact .same hfacts.2.1 hfacts.2.2
    (locks_none (fun h' w' who' hop' => by rw [hop] at hop'; cases hop') hfacts.1)
    (unlocks_none fun h' who' hop' => by rw [hop] at hop'; cases hop')

theorem mutexMove_create (hm : Move s e s') (hc : e.creates .mutex i=true) :
    MutexMove s s' e i := by
  obtain ⟨hop,-,-⟩ := of_decide_eq_true hc
  cases hq : e.op with
  | mutexCreate recursive =>
    refine ⟨fun _ => ?_,fun hx => absurd (hx.symm.trans hc) Bool.false_ne_true,
      fun h' who' hop' => by rw [hq] at hop'; cases hop'⟩
    have hx : exec s.obj e.op=s.obj.create .mutex ⟨recursive,-1,0,WList.empty⟩ := by
      rw [hq]
      rfl
    rw [Objects.mutex,hm.created hx hc]
    exact (by decide : (-1 : Int) < 0)
  | _ =>
    rw [hq] at hop
    cases hop

theorem mutex_move (hs : s.Inv) (hm : Move s e s') (i : Nat) : MutexMove s s' e i := by
  by_cases hc : e.creates .mutex i=true
  · exact mutexMove_create hm hc
  · by_cases hr : e.reaches .mutex i=true
    · have hbefore : e.before=s.obj := hm.2.1.1
      unfold Event.reaches at hr
      cases hop : e.op with
      | mutexLock h w who =>
        rw [hop] at hr
        exact mutexMove_lock hs hm hop (hbefore ▸ (of_decide_eq_true hr).2)
      | mutexUnlock h who =>
        rw [hop] at hr
        exact mutexMove_unlock hs hm hop (hbefore ▸ (of_decide_eq_true hr).2)
      | cancel κ h w =>
        rw [hop] at hr
        obtain ⟨rfl,hf⟩ := of_decide_eq_true hr
        exact mutexMove_cancel hs hm hop (hbefore ▸ hf)
      | delete κ h =>
        rw [hop] at hr
        obtain ⟨rfl,hf⟩ := of_decide_eq_true hr
        have hu' := hm.deleted hop (hbefore ▸ hf)
        exact ⟨fun hx => absurd hx hc,fun _ hx => absurd (hu'.symm.trans hx) Bool.false_ne_true,
          fun h' who' hop' => by rw [hop] at hop'; cases hop'⟩
      | _ =>
        rw [hop] at hr
        exact absurd hr Bool.false_ne_true
    · exact mutexMove_quiet hs hm (by simpa using hr) (by simpa using hc)

end Holding

section Ending

/-- What becomes of a wait. -/
inductive Mark
  | queued
  | granted
  | timedOut
  | deleted
  deriving DecidableEq

/-- What the operation does to the waits of w, by its answer and by the states before and after. -/
def Event.marks (e : Event n) (w : Fin n) : List Mark :=
  (if e.op.waiter=some w ∧ e.answer.ko=.block then [.queued] else [])++
  (if (e.before.ws w).state≠.grant ∧ (e.after.ws w).state=.grant then [.granted] else [])++
  (match e.op with
  | .cancel _ _ w' => if w'=w ∧ e.answer.ko=.timeout then [.timedOut] else []
  | _ => [])++
  (if (e.before.ws w).state≠.failed ∧ (e.after.ws w).state=.failed then [.deleted] else [])

/-- The marks of a waiter, the last first. -/
def fates (w : Fin n) : List (Event n) → List Mark
  | [] => []
  | e::hist => e.marks w++fates w hist

/-- Each wait that is begun ends in one way before the next is begun; the state tells how. -/
inductive Turns : List Mark → KwState → Prop
  | start {s : KwState} (hs : s≠.wait) : Turns [] s
  | queued {l : List Mark} {s : KwState} (h : Turns l s) (hs : s≠.wait) : Turns (.queued::l) .wait
  | granted {l : List Mark} (h : Turns l .wait) : Turns (.granted::l) .grant
  | timedOut {l : List Mark} (h : Turns l .wait) : Turns (.timedOut::l) .idle
  | deleted {l : List Mark} (h : Turns l .wait) : Turns (.deleted::l) .failed

variable {s s' : World n} {e : Event n}

theorem timeout_idles (hs : s.Inv) (hm : Move s e s') {κ : Kind} {h : UInt32} {w : Fin n}
    (hop : e.op=.cancel κ h w) (hko : e.answer.ko=.timeout) :
    (s.obj.ws w).state=.wait ∧ (s'.obj.ws w).state=.idle := by
  have hl := hm.1
  have hx := hm.2.1.2.2
  rw [hop] at hl hx
  have hmain : ∀unlink : Waiters n → Obj n κ → Waiters n×Obj n κ,
      (s.obj.cancel κ h w unlink).1=e.answer.ko → (s.obj.cancel κ h w unlink).2=s'.obj →
      (s.obj.ws w).state=.wait ∧ (s'.obj.ws w).state=.idle := by
    intro unlink h1 h2
    rcases cancel_cases hs hl unlink with ⟨-,hc⟩|⟨-,hc⟩|⟨hst,j,-,-,hc⟩
    · rw [hc,hko] at h1
      cases h1
    · rw [hc,hko] at h1
      cases h1
    · refine ⟨hst,?_⟩
      rw [hc] at h2
      rw [← h2]
      change (Waiters.setState _ w .idle w).state=.idle
      rw [setState_self]
  cases κ with
  | sem => exact hmain (Sem.drop w) (congrArg (fun x => x.1.ko) hx) (Prod.mk.inj hx).2
  | mutex => exact hmain (Mutex.drop w) (congrArg (fun x => x.1.ko) hx) (Prod.mk.inj hx).2
  | queue => exact hmain (Queue.drop w) (congrArg (fun x => x.1.ko) hx) (Prod.mk.inj hx).2
  | event => exact hmain (Evt.drop w) (congrArg (fun x => x.1.ko) hx) (Prod.mk.inj hx).2

theorem turns_step (hs : s.Inv) (hm : Move s e s') {w : Fin n} {l : List Mark}
    (h : Turns l (s.obj.ws w).state) : Turns (e.marks w++l) (s'.obj.ws w).state := by
  have ho := hm.outcome hs
  have hidle := fun κ h w hop hko => timeout_idles (w := w) hs hm (κ := κ) (h := h) hop hko
  have hfresh := hm.1.fresh w
  have hinv' := move_inv hs hm
  obtain ⟨-,⟨hbefore,hafter,-⟩,-⟩ := hm
  unfold Event.marks
  rw [hbefore,hafter]
  have hnt : ((s.obj.ws w).state=.wait → (s'.obj.ws w).state≠.idle) → (match e.op with
      | .cancel _ _ w' => if w'=w ∧ e.answer.ko=.timeout then [Mark.timedOut] else []
      | _ => [])=[] := fun hno => by
    cases hop : e.op with
    | cancel κ h' w' =>
      refine if_neg ?_
      rintro ⟨rfl,hko⟩
      exact hno (hidle κ h' w' hop hko).1 (hidle κ h' w' hop hko).2
    | _ => rfl
  by_cases hw : (s.obj.ws w).state=.wait
  · have hnq : ¬(e.op.waiter=some w ∧ e.answer.ko=.block) := fun hx => hfresh hx.1 hw
    rw [if_neg hnq]
    rcases ho.ended w hw with hst|hst|⟨hst,κ,h',hop⟩|⟨hst,hko,κ,h',hop⟩
    · rw [hst,hw,hnt fun _ hn => (by rw [hst] at hn; cases hn)]
      rw [hw] at h
      exact h
    · rw [hst,hw,hnt fun _ hn => (by rw [hst] at hn; cases hn)]
      rw [hw] at h
      exact .granted h
    · rw [hst,hw,hop]
      rw [hw] at h
      exact .deleted h
    · rw [hst,hw,hop]
      rw [hw] at h
      have hmark : Turns (.timedOut::l) .idle := .timedOut h
      simpa [hko] using hmark
  · rw [hnt fun h => absurd h hw]
    by_cases hq : e.op.waiter=some w ∧ e.answer.ko=.block
    · obtain ⟨w',κ,h',i,hw',-,-,hin⟩ := ho.blocked hq.2
      obtain rfl : w'=w := Option.some.inj (hw'.symm.trans hq.1)
      have hst : (s'.obj.ws w').state=.wait := hinv'.obj.waiting hin
      have hmark : Turns (.queued::l) .wait := .queued h hw
      rw [if_pos hq,hst]
      simpa using hmark
    · have hsame := (ho.others w hw).resolve_right hq
      rw [if_neg hq,hsame]
      cases hst : (s.obj.ws w).state with
      | wait => exact absurd hst hw
      | idle | grant | failed =>
        rw [hst] at h
        exact h

theorem late_cancel (hs : s.Inv) (hm : Move s e s') {κ : Kind} {h : UInt32} {w : Fin n}
    (hop : e.op=.cancel κ h w) (hst : (s.obj.ws w).state=.grant) :
    e.answer.ko=.ok ∧ s'.obj=s.obj ∧ (κ=.event → e.answer.bits=(s.obj.ws w).got) := by
  have hl := hm.1
  have hx := hm.2.1.2.2
  rw [hop] at hl hx
  have hmain : ∀unlink : Waiters n → Obj n κ → Waiters n×Obj n κ,
      s.obj.cancel κ h w unlink=(.ok,s.obj) := by
    intro unlink
    rcases cancel_cases hs hl unlink with ⟨-,hc⟩|⟨hno,-⟩|⟨hno,-⟩
    · exact hc
    · rw [hst] at hno
      cases hno
    · rw [hst] at hno
      cases hno
  cases κ with
  | sem =>
    change (({ko := (s.obj.cancel .sem h w (Sem.drop w)).1} : Answer),
      (s.obj.cancel .sem h w (Sem.drop w)).2)=_ at hx
    rw [hmain] at hx
    obtain ⟨h1,h2⟩ := Prod.mk.inj hx
    exact ⟨by rw [← h1],h2.symm,fun hκ => by cases hκ⟩
  | mutex =>
    change (({ko := (s.obj.cancel .mutex h w (Mutex.drop w)).1} : Answer),
      (s.obj.cancel .mutex h w (Mutex.drop w)).2)=_ at hx
    rw [hmain] at hx
    obtain ⟨h1,h2⟩ := Prod.mk.inj hx
    exact ⟨by rw [← h1],h2.symm,fun hκ => by cases hκ⟩
  | queue =>
    change (({ko := (s.obj.cancel .queue h w (Queue.drop w)).1} : Answer),
      (s.obj.cancel .queue h w (Queue.drop w)).2)=_ at hx
    rw [hmain] at hx
    obtain ⟨h1,h2⟩ := Prod.mk.inj hx
    exact ⟨by rw [← h1],h2.symm,fun hκ => by cases hκ⟩
  | event =>
    change kevCancel s.obj h w=_ at hx
    unfold kevCancel at hx
    rw [hmain] at hx
    obtain ⟨h1,h2⟩ := Prod.mk.inj hx
    exact ⟨by rw [← h1],h2.symm,fun _ => by rw [← h1]⟩

theorem set_judges (hs : s.Inv) (hm : Move s e s') {h bits : UInt32} {i : Nat}
    (hop : e.op=.evSet h bits) (hr : e.reaches .event i=true) :
    (s'.obj.members .event i,(s'.obj.event i).bits)=
        judged s.obj.ws ((s.obj.event i).bits ||| bits) (s.obj.members .event i) ∧
      ∀w∈s.obj.members .event i,w∉s'.obj.members .event i → (s'.obj.ws w).state=.grant := by
  have hf : s.obj.find .event h=some i := by
    rw [Event.reaches,hop] at hr
    have := (of_decide_eq_true hr).2
    rwa [hm.2.1.1] at this
  have hfound := hm.foundAt hs (κ := .event) (f := fun ws e => Evt.set ws e bits)
    (by rw [hop]; rfl : exec s.obj e.op=s.obj.on .event h {} _) (by rw [hop]; rfl) hf
  obtain ⟨r,hr'⟩ : ∃r,Evt.set s.obj.ws (s.obj.tab .event i).obj bits=r := ⟨_,rfl⟩
  change FoundAt s s' e .event i (Evt.set s.obj.ws (s.obj.tab .event i).obj bits) at hfound
  rw [hr'] at hfound
  obtain ⟨-,hobj,hws,-,hafter,hu,-,hmem,-,-⟩ := hfound
  obtain ⟨-,-,hj,-,hgrant⟩ := Evt.set_spec (hs.obj.sound .event i hu) bits hr'
  have hws' : s'.obj.ws=r.2.1 := (congrArg Objects.ws hafter).trans hws
  rw [hmem,members_of_used hu,Objects.event,hobj]
  refine ⟨hj,fun w hw hn => ?_⟩
  rw [hws']
  exact (hgrant w hw hn).1

end Ending

/-- A recursive mutex that its owner locks has not been locked 2^32 times already: its depth
would have come round to 0. -/
def Shallow (k : Objects n) (op : Op n) : Prop :=
  ∀h w who i,op=.mutexLock h w who → k.find .mutex h=some i → (k.mutex i).owner=who →
    (k.mutex i).recursive=true → (k.mutex i).depth≠0

/-- What an unlock that succeeds does, by how often its task has held the mutex. -/
def Passes (e : Event n) (i : Nat) (who held : Int) : Prop :=
  (1 < held → (e.after.mutex i).owner=who ∧
    e.after.members .mutex i=e.before.members .mutex i) ∧
  (held=1 → (e.before.members .mutex i=[] ∧ (e.after.mutex i).owner < 0) ∨
    ∃x,e.before.members .mutex i=x::e.after.members .mutex i ∧
      (e.after.ws x).state=.grant ∧ (e.after.mutex i).owner=(e.before.ws x).who) ∧ 1≤held

/-- Every last unlock of a run has passed the mutex on, and no other has. -/
def AllPass (i : Nat) : List (Event n) → Prop
  | [] => True
  | e::hist => AllPass i hist ∧ ∀h who,e.op=.mutexUnlock h who → e.reaches .mutex i=true →
      e.answer.ko=.ok → Passes e i who (holds i who hist)

/-- What holds of semaphores, mutexes and event groups after any run. -/
structure SynchKept (hist : List (Event n)) (s : World n) : Prop where
  semWaits : ∀i,s.obj.members .sem i≠[] → (s.obj.sem i).count=0
  semCount : ∀i,(s.obj.tab .sem i).used=true →
    (s.obj.sem i).count.toNat+(semTally i hist).grants=
      (semTally i hist).init+(semTally i hist).gives ∧ (s.obj.sem i).count≤(s.obj.sem i).max
  mutexWaits : ∀i,∀w∈s.obj.members .mutex i,
    0≤(s.obj.mutex i).owner ∧ (s.obj.ws w).who≠(s.obj.mutex i).owner
  mutexHolds : ∀i,(s.obj.tab .mutex i).used=true → ∀t,holds i t hist≠0 →
    t=(s.obj.mutex i).owner ∧ 0 < holds i t hist
  mutexPasses : ∀i,AllPass i hist
  eventWaits : ∀i,∀w∈s.obj.members .event i,
    evSatisfied (s.obj.event i).bits (s.obj.ws w).want (s.obj.ws w).all=false
  eventJudges : ∀e∈hist,∀h bits i,e.op=.evSet h bits → e.reaches .event i=true →
    (e.after.members .event i,(e.after.event i).bits)=
        judged e.before.ws ((e.before.event i).bits ||| bits) (e.before.members .event i) ∧
      ∀w∈e.before.members .event i,w∉e.after.members .event i → (e.after.ws w).state=.grant
  ends : ∀w,Turns (fates w hist) (s.obj.ws w).state
  races : ∀e∈hist,∀κ h w,e.op=.cancel κ h w → (e.before.ws w).state=.grant →
    e.answer.ko=.ok ∧ e.after=e.before ∧ (κ=.event → e.answer.bits=(e.before.ws w).got)

def CalmMove (s : World n) (e : Event n) (s' : World n) : Prop := Move s e s' ∧ Shallow s.obj e.op

section Runs

variable {s s' : World n} {hist : List (Event n)} {e : Event n}

/-- What a run keeps to, of which the rest follows. -/
structure Tallied (hist : List (Event n)) (s : World n) : Prop where
  inv : s.Inv
  sems : ∀i,(s.obj.tab .sem i).used=true → (s.obj.sem i).count.toNat+(semTally i hist).grants=
    (semTally i hist).init+(semTally i hist).gives
  nests : ∀i,(s.obj.tab .mutex i).used=true → Nest (s.obj.mutex i) fun t => holds i t hist
  passes : ∀i,AllPass i hist
  judges : ∀e∈hist,∀h bits i,e.op=.evSet h bits → e.reaches .event i=true →
    (e.after.members .event i,(e.after.event i).bits)=
        judged e.before.ws ((e.before.event i).bits ||| bits) (e.before.members .event i) ∧
      ∀w∈e.before.members .event i,w∉e.after.members .event i → (e.after.ws w).state=.grant
  ends : ∀w,Turns (fates w hist) (s.obj.ws w).state
  races : ∀e∈hist,∀κ h w,e.op=.cancel κ h w → (e.before.ws w).state=.grant →
    e.answer.ko=.ok ∧ e.after=e.before ∧ (κ=.event → e.answer.bits=(e.before.ws w).got)

theorem reached_used (hb : e.before=s.obj) {κ : Kind} {i : Nat} (hr : e.reaches κ i=true) :
    (s.obj.tab κ i).used=true := by
  unfold Event.reaches at hr
  rw [hb] at hr
  cases hop : e.op.handle with
  | none =>
    rw [hop] at hr
    exact absurd hr Bool.false_ne_true
  | some x =>
    rw [hop] at hr
    obtain ⟨hκ,hf⟩ := of_decide_eq_true hr
    have hu := (lookup_some.mp hf).2.2.2.1
    rwa [hκ] at hu

theorem nest_step {i : Nat} (hshallow : Shallow s.obj e.op)
    (hnest : Nest (s.obj.mutex i) fun t => holds i t hist) (hc : e.creates .mutex i=false)
    (hch : MutexChange (s.obj.mutex i) (s'.obj.mutex i) (e.locks i) (e.unlocks i)
      (Relocks s.obj e.op i)) :
    Nest (s'.obj.mutex i) fun t => holds i t (e::hist) := by
  refine hnest.step hch ?_ fun t => by rw [holds,hc]; rfl
  rintro ⟨h,w,hop,hf,hrec⟩
  exact hshallow h w _ i hop hf rfl hrec

theorem passes_of {i : Nat} (hm : Move s e s')
    (hnest : Nest (s.obj.mutex i) fun t => holds i t hist) {h : UInt32} {who : Int}
    (hop : e.op=.mutexUnlock h who) (hp : Passing s.obj s'.obj i who) :
    Passes e i who (holds i who hist) := by
  have hwho : 0≤who := (hm.1.caller who (by rw [hop]; rfl)).1
  obtain ⟨-,⟨hbefore,hafter,-⟩,-⟩ := hm
  obtain ⟨hown,hp⟩ := hp
  obtain ⟨d,h1,h2,hdep,hheld⟩ := hnest.owner (by rw [hown]; exact hwho)
  rw [hown] at hheld
  have hone : (s.obj.mutex i).depth=1 ↔ holds i who hist=1 := by
    rw [hdep,ofNat_eq_one h1 h2,hheld]
    omega
  unfold Passes
  rw [hbefore,hafter]
  refine ⟨fun hlt => ?_,fun heq => ?_,by omega⟩
  · rcases hp with ⟨-,ho,hmem⟩|⟨hd,-⟩|⟨hd,-⟩
    · exact ⟨ho,hmem⟩
    · have := hone.mp hd
      omega
    · have := hone.mp hd
      omega
  · rcases hp with ⟨hd,-⟩|⟨-,hmem,ho⟩|⟨-,hx⟩
    · exact absurd (hone.mpr heq) hd
    · exact .inl ⟨hmem,ho⟩
    · exact .inr hx

theorem tallied_step (h : Tallied hist s) (hm : CalmMove s e s') : Tallied (e::hist) s' := by
  obtain ⟨hs,hsem,hnest,hpass,hjudge,hends,hraces⟩ := h
  obtain ⟨hm,hshallow⟩ := hm
  have hbefore : e.before=s.obj := hm.2.1.1
  have hafter : e.after=s'.obj := hm.2.1.2.1
  refine ⟨move_inv hs hm,fun i hu' => ?_,fun i hu' => ?_,fun i => ?_,?_,fun w => ?_,?_⟩
  · obtain ⟨hfresh,hcount⟩ := sem_move hs hm i
    rw [semTally]
    by_cases hc : e.creates .sem i=true
    · rw [if_pos hc]
      exact hfresh hc
    · rw [if_neg hc]
      obtain ⟨hu,hstep⟩ := hcount (by simpa using hc) hu'
      have := hsem i hu
      dsimp only
      omega
  · obtain ⟨hfresh,hchange,-⟩ := mutex_move hs hm i
    by_cases hc : e.creates .mutex i=true
    · have ho := hfresh hc
      exact ⟨fun hpos => by omega,fun t _ => by rw [holds,if_pos hc]⟩
    · have hc : e.creates .mutex i=false := by simpa using hc
      obtain ⟨hu,hch⟩ := hchange hc hu'
      exact nest_step hshallow (hnest i hu) hc hch
  · refine ⟨hpass i,fun h who hop hr hok => ?_⟩
    exact passes_of hm (hnest i (reached_used hbefore hr)) hop
      ((mutex_move hs hm i).passing h who hop hr hok)
  · intro x hx
    rcases List.mem_cons.mp hx with rfl|hx
    · intro h bits i hop hr
      rw [hbefore,hafter]
      exact set_judges hs hm hop hr
    · exact hjudge x hx
  · exact turns_step hs hm (hends w)
  · intro x hx
    rcases List.mem_cons.mp hx with rfl|hx
    · intro κ h w hop hst
      rw [hbefore] at hst ⊢
      rw [hafter]
      exact late_cancel hs hm hop hst
    · exact hraces x hx

theorem synch_kept {ws : Waiters n} (hw : ∀w,(ws w).state≠.wait)
    (hr : Reach CalmMove (World.init ws) hist s) : SynchKept hist s := by
  have ht : Tallied hist s := by
    refine Reach.invariant (fun hist s => Tallied hist s) ?_
      (fun _ _ _ _ ht hm => tallied_step ht hm) hr
    exact ⟨init_inv hw,(fun i hu => by cases hu),(fun i hu => by cases hu),fun _ => trivial,
      (fun e he => absurd he List.not_mem_nil),(fun w => .start (hw w)),
      fun e he => absurd he List.not_mem_nil⟩
  obtain ⟨hs,hsem,hnest,hpass,hjudge,hends,hraces⟩ := ht
  refine ⟨fun i hne => ?_,fun i hu => ⟨hsem i hu,?_⟩,fun i w hin => ?_,fun i hu t hne => ?_,hpass,
    fun i w hin => ?_,hjudge,hends,hraces⟩
  · obtain ⟨w,hin⟩ := List.exists_mem_of_ne_nil _ hne
    have hu := (members_used hin).1
    rw [members_of_used hu] at hne
    exact (hs.obj.sound .sem i hu).none hne
  · exact (hs.obj.sound .sem i hu).bound
  · obtain ⟨hu,hin⟩ := members_used hin
    have hsound := hs.obj.sound .mutex i hu
    exact ⟨hsound.owned (List.ne_nil_of_mem hin),(hsound.others w hin).2⟩
  · obtain ⟨hown,hoth⟩ := hnest i hu
    have hto : ¬(t≠(s.obj.mutex i).owner ∨ (s.obj.mutex i).owner < 0) := fun hx => hne (hoth t hx)
    rw [not_or,not_not] at hto
    obtain ⟨rfl,hpos⟩ := hto
    obtain ⟨d,h1,-,-,hheld⟩ := hown (by omega)
    exact ⟨rfl,by rw [hheld]; omega⟩
  · obtain ⟨hu,hin⟩ := members_used hin
    exact (hs.obj.sound .event i hu).wanting w hin

end Runs

section Examples

/-- One who waits for a semaphore, and gets it. -/
def given0 : World 1 := World.init idle
def given1 : World 1 := given0.play (.semCreate 1 0)
def given2 : World 1 := given1.play (.semTake 0x10000001 (some ⟨0,Nat.one_pos⟩) 5)

theorem calm_give :
    CalmMove given0 (act given0.obj (.semCreate 1 0)) given1 ∧
      CalmMove given1 (act given1.obj (.semTake 0x10000001 (some ⟨0,Nat.one_pos⟩) 5)) given2 ∧
      CalmMove given2 (act given2.obj (.semGive 0x10000001))
        (given2.play (.semGive 0x10000001)) := by
  refine ⟨⟨move_play ⟨?_,?_,?_⟩,?_⟩,⟨move_play ⟨?_,?_,?_⟩,?_⟩,⟨move_play ⟨?_,?_,?_⟩,?_⟩⟩
  · intro w h
    cases h
  · intro κ h w hop
    cases hop
  · intro who h
    cases h
  · intro h w who i hop
    cases hop
  · decide +kernel
  · intro κ h w hop
    cases hop
  · intro who h
    obtain rfl := Option.some.inj h
    decide +kernel
  · intro h w who i hop
    cases hop
  · intro w h
    cases h
  · intro κ h w hop
    cases hop
  · intro who h
    cases h
  · intro h w who i hop
    cases hop

theorem synch_kept_give :
    SynchKept [act given2.obj (.semGive 0x10000001),
      act given1.obj (.semTake 0x10000001 (some ⟨0,Nat.one_pos⟩) 5),act given0.obj (.semCreate 1 0)]
      (given2.play (.semGive 0x10000001)) :=
  synch_kept (by decide : ∀w : Fin 1,(idle w).state≠.wait)
    (((Reach.start.next calm_give.1).next calm_give.2.1).next calm_give.2.2)

/-- Task 1 has locked a recursive mutex that many times. -/
structure Relocked (c : Nat) (hist : List (Event 0)) (s : World 0) : Prop where
  run : Reach Move (World.init idle) hist s
  found : s.obj.find .mutex 0x20000001=some 0
  owner : (s.obj.mutex 0).owner=1
  recursive : (s.obj.mutex 0).recursive=true
  depth : (s.obj.mutex 0).depth=UInt32.ofNat c
  held : holds 0 1 hist=c

theorem legal_one (s : World 0) {op : Op 0} (hop : op.who=some 1) : Legal s op :=
  legal_nobody s fun who h => by
    obtain rfl := Option.some.inj (hop.symm.trans h)
    decide

theorem relocked (c : Nat) : ∃hist s,Relocked (c+1) hist s := by
  induction c with
  | zero =>
    have h1 := Reach.start.next (move_play (legal_nobody _ (fun who h => by cases h) :
      Legal (World.init idle) (.mutexCreate true)))
    have h2 := h1.next (move_play (legal_one _ rfl : Legal _ (.mutexLock 0x20000001 none 1)))
    exact ⟨_,_,h2,by decide +kernel,by decide +kernel,by decide +kernel,by decide +kernel,
      by decide +kernel⟩
  | succ c ih =>
    obtain ⟨hist,s,hr,hf,hown,hrec,hd,hh⟩ := ih
    have hm : Move s _ _ := move_play (legal_one s rfl : Legal s (.mutexLock 0x20000001 none 1))
    have hfound := hm.foundAt (reach_inv (fun w => w.elim0) hr) (κ := .mutex)
      (f := fun ws m => Mutex.lock ws m none 1) rfl rfl hf
    have hlock : Mutex.lock s.obj.ws (s.obj.mutex 0) none 1=
        ({},s.obj.ws,{s.obj.mutex 0 with depth := (s.obj.mutex 0).depth+1}) := by
      rw [Mutex.lock,if_neg (by rw [hown]; decide),if_pos hown,if_neg (by rw [hrec]; decide)]
    change FoundAt s _ _ .mutex 0 (Mutex.lock s.obj.ws (s.obj.mutex 0) none 1) at hfound
    rw [hlock] at hfound
    obtain ⟨hans,hobj,-,-,-,-,hu',-,-,hreach⟩ := hfound
    have hobj' : (s.play (.mutexLock 0x20000001 none 1)).obj.mutex 0=
        {s.obj.mutex 0 with depth := (s.obj.mutex 0).depth+1} := hobj
    refine ⟨_,_,hr.next hm,find_kept hm.2.1 hf hu',by rw [hobj',hown],by rw [hobj',hrec],?_,?_⟩
    · rw [hobj']
      dsimp only
      rw [hd,UInt32.ofNat_add (c+1) 1]
      rfl
    · have hnone : ∀l : List (Fin 0),l=[] := fun l =>
        List.eq_nil_iff_forall_not_mem.mpr fun w => w.elim0
      have hlocks : (act s.obj (.mutexLock 0x20000001 none 1)).locks 0 1=1 := by
        rw [Event.locks,hnone (Event.granted _ _)]
        exact congrArg (·+0) (if_pos ⟨rfl,hreach,(congrArg Answer.ko hans).trans rfl⟩)
      have hunlocks : (act s.obj (.mutexLock 0x20000001 none 1)).unlocks 0 1=0 := rfl
      have hcreate : (act s.obj (.mutexLock 0x20000001 none 1)).creates .mutex 0=false := by
        rw [Event.creates]
        rfl
      rw [holds,if_neg (by rw [hcreate]; decide),hh,hlocks,hunlocks]
      push_cast
      omega

/-- A depth that has come round to 1: the next unlock is taken for the last. -/
theorem deep_unlock : ∃(hist : List (Event 0)) (s : World 0),
    Reach Move (World.init idle) hist s ∧ ¬SynchKept hist s := by
  obtain ⟨hist,s,hr,hf,hown,hrec,hd,hh⟩ := relocked (2^32)
  have hm : Move s _ _ := move_play (legal_one s rfl : Legal s (.mutexUnlock 0x20000001 1))
  have hinv := reach_inv (fun w => w.elim0) hr
  have hfound := hm.foundAt hinv (κ := .mutex) (f := fun ws m => Mutex.unlock ws m 1) rfl rfl hf
  have hone : (s.obj.mutex 0).depth=1 := hd
  have hok : (act s.obj (.mutexUnlock 0x20000001 1)).answer.ko=.ok := by
    rw [hfound.answer]
    rcases (Mutex.unlock_spec (hinv.obj.sound .mutex 0 hfound.used) 1 rfl).2.2 with
      ⟨hne,-⟩|⟨-,hok,-⟩
    · exact absurd hown hne
    · exact hok
  obtain ⟨-,hpass⟩ := (mutexMove_unlock hinv hm rfl hf).passing _ _ rfl hfound.reaches hok
  refine ⟨_,_,hr.next hm,fun hk => ?_⟩
  obtain ⟨hkeeps,-⟩ := ((hk.mutexPasses 0).2 _ _ rfl hfound.reaches hok).1 (by rw [hh]; decide)
  rcases hpass with ⟨hne,-⟩|⟨-,-,hfree⟩|⟨-,x,-⟩
  · exact hne hone
  · rw [hfound.after,hkeeps] at hfree
    exact absurd hfree (by decide)
  · exact x.elim0

end Examples

end LugalOS.Kobj
