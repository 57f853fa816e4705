import LugalOS.Kobj.Objects

namespace LugalOS.Kobj

open Function (update)
open Run

variable {n : Nat}

structure Event (n : Nat) where
  op : Op n
  before : Objects n
  answer : Answer
  after : Objects n

def act (k : Objects n) (op : Op n) : Event n := ⟨op,k,(exec k op).1,(exec k op).2⟩

/-- One operation, whoever makes it. -/
def Step (k : Objects n) (e : Event n) (k' : Objects n) : Prop :=
  e.before=k ∧ e.after=k' ∧ exec k e.op=(e.answer,k')

def Slot.empty {α : Type} (obj : α) : Slot α := ⟨false,0,0,obj⟩

/-- What kobj_init leaves: no object, and waiters of whom none waits. -/
def Objects.init (ws : Waiters n) : Objects n where
  ws := ws
  tab
    | .sem,_ => .empty ⟨0,0,WList.empty⟩
    | .mutex,_ => .empty ⟨false,0,0,WList.empty⟩
    | .queue,_ => .empty ⟨0,0,0,0,fun _ => [],WList.empty,WList.empty⟩
    | .event,_ => .empty ⟨0,WList.empty⟩

def Op.creates : Op n → Option Kind
  | .semCreate _ _ => some .sem
  | .mutexCreate _ => some .mutex
  | .qCreate _ _ _ => some .queue
  | .evCreate => some .event
  | _ => none

def Op.deletes : Op n → Option (Kind×UInt32)
  | .delete κ h => some (κ,h)
  | _ => none

/-- The operation has put an object in that slot. -/
def Event.creates (e : Event n) (κ : Kind) (i : Nat) : Bool :=
  decide (e.op.creates=some κ ∧ e.answer.handle≠0 ∧ hIdx e.answer.handle=some i)

/-- The operation has deleted the object that the handle named. -/
def Event.deleted (e : Event n) (h : UInt32) : Bool :=
  decide ((e.op.deletes.map Prod.snd)=some h ∧ e.answer.ko=.ok)

/-- The operation has deleted the object in that slot. -/
def Event.deletes (e : Event n) (κ : Kind) (i : Nat) : Bool :=
  match e.op.deletes with
  | some (κ',h) => decide (κ'=κ ∧ hIdx h=some i ∧ e.answer.ko=.ok)
  | none => false

def creations (κ : Kind) (i : Nat) (hist : List (Event n)) : Nat :=
  hist.countP fun e => e.creates κ i

def deletions (κ : Kind) (i : Nat) (hist : List (Event n)) : Nat :=
  hist.countP fun e => e.deletes κ i

/-- Every operation that the handle is passed to reaches that slot, or, for another kind of
object, fails. -/
def Names (k : Objects n) (h : UInt32) (κ : Kind) (i : Nat) : Prop :=
  kobjValid k h ∧ k.find κ h=some i ∧ ∀κ',κ'≠κ → k.find κ' h=none

/-- What a handle made in that slot is promised from k on. -/
structure Lifetime (k : Objects n) (h : UInt32) (κ : Kind) (i : Nat) : Prop where
  names : ∀later k',Reach Step k later k' → (∀e∈later,e.deleted h=false) → Names k' h κ i
  stale : ∀since e till k',Reach Step k (since++e::till) k' → e.deleted h →
    creations κ i since < 4095 → kobjValid k' h=false

section Slots

variable {k : Objects n} {κ κ' : Kind} {i j : Nat}

theorem setSlot_same (ws : Waiters n) (s : Slot (Obj n κ)) :
    (k.setSlot κ i ws s).tab κ i=s := by simp [Objects.setSlot]

theorem setSlot_other (ws : Waiters n) (s : Slot (Obj n κ)) (hne : ¬(κ'=κ ∧ j=i)) :
    (k.setSlot κ i ws s).tab κ' j=k.tab κ' j := by
  unfold Objects.setSlot
  by_cases hκ : κ'=κ
  · subst hκ
    have hj : j≠i := fun hj => hne ⟨rfl,hj⟩
    simp [hj]
  · simp [hκ]

/-- What of a slot decides whom its handles name. -/
def Slot.head {α : Type} (s : Slot α) : Bool×UInt16 := (s.used,s.gen)

theorem setSlot_head (ws : Waiters n) {s : Slot (Obj n κ)} (hs : s.head=(k.tab κ i).head)
    (κ' : Kind) (j : Nat) : ((k.setSlot κ i ws s).tab κ' j).head=(k.tab κ' j).head := by
  by_cases hne : κ'=κ ∧ j=i
  · obtain ⟨rfl,rfl⟩ := hne
    rw [setSlot_same,hs]
  · rw [setSlot_other ws s hne]

theorem on_head (h : UInt32) (fail : Answer)
    (f : Waiters n → Obj n κ → Answer×Waiters n×Obj n κ) (κ' : Kind) (j : Nat) :
    ((k.on κ h fail f).2.tab κ' j).head=(k.tab κ' j).head := by
  unfold Objects.on
  cases k.find κ h with
  | none => rfl
  | some i => exact setSlot_head _ (by rfl) κ' j

theorem cancel_head (h : UInt32) (w : Fin n) (unlink : Waiters n → Obj n κ → Waiters n×Obj n κ)
    (κ' : Kind) (j : Nat) :
    ((k.cancel κ h w unlink).2.tab κ' j).head=(k.tab κ' j).head := by
  unfold Objects.cancel
  split_ifs
  · rfl
  · rfl
  · cases k.find κ h with
    | none => rfl
    | some i => exact setSlot_head _ (by rfl) κ' j

theorem setOwner_head (h : UInt32) (owner : Nat) (κ' : Kind) (j : Nat) :
    ((kobjSetOwner k h owner).2.tab κ' j).head=(k.tab κ' j).head := by
  unfold kobjSetOwner
  cases ownerSlot k h with
  | none => rfl
  | some x => exact setSlot_head _ (by rfl) κ' j

end Slots

theorem exec_cases (k : Objects n) (op : Op n) :
    (∃κ obj,op.creates=some κ ∧ op.deletes=none ∧ exec k op=k.create κ obj) ∨
    (∃κ h failAll,op.creates=none ∧ op.deletes=some (κ,h) ∧ exec k op=k.delete κ h failAll) ∨
    (op.deletes=none ∧ (op.creates≠none → exec k op=({},k)) ∧
      ∀κ i,((exec k op).2.tab κ i).head=(k.tab κ i).head) := by
  cases op with
  | semCreate max init =>
    by_cases hx : max=0 ∨ init > max
    · have he : exec k (.semCreate max init)=({},k) := if_pos hx
      exact .inr (.inr ⟨rfl,fun _ => he,fun κ i => by rw [he]⟩)
    · exact .inl ⟨.sem,_,rfl,rfl,if_neg hx⟩
  | mutexCreate recursive => exact .inl ⟨.mutex,_,rfl,rfl,rfl⟩
  | qCreate len isz storage =>
    by_cases hx : len=0 ∨ len > kqueueMaxLen ∨ isz=0 ∨ isz > kqueueMaxItem
    · have he : exec k (.qCreate len isz storage)=({},k) := if_pos hx
      exact .inr (.inr ⟨rfl,fun _ => he,fun κ i => by rw [he]⟩)
    · cases storage with
      | none =>
        have he : exec k (.qCreate len isz none)=({},k) := if_neg hx
        exact .inr (.inr ⟨rfl,fun _ => he,fun κ i => by rw [he]⟩)
      | some buf => exact .inl ⟨.queue,_,rfl,rfl,if_neg hx⟩
  | evCreate => exact .inl ⟨.event,_,rfl,rfl,rfl⟩
  | delete κ h => cases κ <;> exact .inr (.inl ⟨_,h,_,rfl,rfl,rfl⟩)
  | cancel κ h w =>
    refine .inr (.inr ⟨rfl,fun hc => absurd rfl hc,?_⟩)
    cases κ <;> exact cancel_head h w _
  | setOwner h owner =>
    exact .inr (.inr ⟨rfl,fun hc => absurd rfl hc,setOwner_head h owner⟩)
  | _ => exact .inr (.inr ⟨rfl,fun hc => absurd rfl hc,on_head _ _ _⟩)

section Steps

variable {k k' : Objects n} {e : Event n} {κ : Kind} {i : Nat}

theorem step_slot (he : Step k e k') (κ : Kind) (i : Nat) :
    (e.creates κ i=true ∧ e.deletes κ i=false ∧ i < κ.max ∧ (k.tab κ i).used=false ∧
      (k'.tab κ i).head=(true,(k.tab κ i).gen) ∧
      e.answer.handle=hMake κ.type (k.tab κ i).gen i) ∨
    (e.creates κ i=false ∧ e.deletes κ i=true ∧ (∃h,e.deleted h=true ∧ k.find κ h=some i) ∧
      (k'.tab κ i).head=(false,(k.tab κ i).gen+1)) ∨
    (e.creates κ i=false ∧ e.deletes κ i=false ∧ (k'.tab κ i).head=(k.tab κ i).head) := by
  obtain ⟨-,-,hx⟩ := he
  rcases exec_cases k e.op with ⟨κ',obj,hc,hd,hop⟩|⟨κ',h,f,hc,hd,hop⟩|⟨hd,hc,hop⟩
  · have hdel : e.deletes κ i=false := by simp [Event.deletes,hd]
    rw [hop,Objects.create] at hx
    rcases createIn_cases obj (Eq.refl (createIn (k.tab κ') κ' obj)) with hr|⟨j,hj,hu,hr⟩
    · rw [hr,Function.update_eq_self] at hx
      obtain ⟨ha,hk⟩ := Prod.mk.inj hx
      refine .inr (.inr ⟨by simp [Event.creates,← ha],hdel,?_⟩)
      rw [← hk]
    · rw [hr] at hx
      obtain ⟨hans,hset⟩ := Prod.mk.inj hx
      have ha : e.answer.handle=hMake κ'.type (k.tab κ' j).gen j := by rw [← hans]
      have hk : k'=k.setSlot κ' j k.ws ⟨true,(k.tab κ' j).gen,0,obj⟩ := hset.symm
      have hidx : hIdx e.answer.handle=some j := by rw [ha,hIdx_hMake _ hj]
      by_cases hs : κ=κ' ∧ i=j
      · obtain ⟨rfl,rfl⟩ := hs
        refine .inl ⟨?_,hdel,hj,hu,?_,ha⟩
        · have hne : e.answer.handle≠0 := by
            rw [ha]
            exact hMake_ne _ hj
          simp [Event.creates,hc,hidx,hne]
        · rw [hk,setSlot_same]
          rfl
      · refine .inr (.inr ⟨?_,hdel,?_⟩)
        · simp only [Event.creates,hc,hidx,decide_eq_false_iff_not]
          rintro ⟨h1,-,h2⟩
          exact hs ⟨(Option.some.inj h1).symm,(Option.some.inj h2).symm⟩
        · rw [hk,setSlot_other _ _ hs]
  · have hcr : e.creates κ i=false := by simp [Event.creates,hc]
    rw [hop,Objects.delete] at hx
    cases hf : k.find κ' h with
    | none =>
      rw [hf] at hx
      obtain ⟨ha,hk⟩ := Prod.mk.inj hx
      refine .inr (.inr ⟨hcr,by simp [Event.deletes,hd,← ha],?_⟩)
      rw [← hk]
    | some j =>
      rw [hf] at hx
      obtain ⟨hans,hk⟩ := Prod.mk.inj hx
      have ha : e.answer.ko=.ok := by rw [← hans]
      have hidx : hIdx h=some j := (lookup_some.mp hf).1
      by_cases hs : κ=κ' ∧ i=j
      · obtain ⟨rfl,rfl⟩ := hs
        refine .inr (.inl ⟨hcr,by simp [Event.deletes,hd,ha,hidx],⟨h,?_,hf⟩,?_⟩)
        · simp [Event.deleted,hd,ha]
        · rw [← hk,setSlot_same]
          rfl
      · refine .inr (.inr ⟨hcr,?_,?_⟩)
        · simp only [Event.deletes,hd,hidx,decide_eq_false_iff_not]
          rintro ⟨h1,h2,-⟩
          exact hs ⟨h1.symm,(Option.some.inj h2).symm⟩
        · rw [← hk,setSlot_other _ _ hs]
  · refine .inr (.inr ⟨?_,by simp [Event.deletes,hd],?_⟩)
    · by_cases hn : e.op.creates=none
      · simp [Event.creates,hn]
      · obtain ⟨ha,-⟩ := Prod.mk.inj ((hc hn).symm.trans hx)
        simp [Event.creates,← ha]
    · have hk : (exec k e.op).2=k' := congrArg Prod.snd hx
      rw [← hk]
      exact hop κ i

theorem creates_of_handle (he : Step k e k') (hc : e.op.creates=some κ)
    (hh : e.answer.handle≠0) : ∃i,e.creates κ i=true := by
  obtain ⟨-,-,hx⟩ := he
  rcases exec_cases k e.op with ⟨κ',obj,hc',-,hop⟩|⟨κ',h,f,hc',-⟩|⟨-,hbad,-⟩
  · obtain rfl : κ=κ' := Option.some.inj (hc.symm.trans hc')
    rw [hop,Objects.create] at hx
    rcases createIn_cases obj (Eq.refl (createIn (k.tab κ) κ obj)) with hr|⟨j,hj,-,hr⟩
    · rw [hr] at hx
      exact absurd (congrArg Answer.handle (Prod.mk.inj hx).1).symm hh
    · rw [hr] at hx
      refine ⟨j,decide_eq_true ⟨hc,hh,?_⟩⟩
      rw [← (Prod.mk.inj hx).1]
      exact hIdx_hMake _ hj
  · rw [hc] at hc'
    cases hc'
  · have hx' := (hbad (by rw [hc]; exact Option.some_ne_none κ)).symm.trans hx
    exact absurd (congrArg Answer.handle (Prod.mk.inj hx').1).symm hh

theorem deleted_find {h : UInt32} (he : Step k e k') (hd : e.deleted h=true) :
    ∃κ j,e.op.deletes=some (κ,h) ∧ k.find κ h=some j ∧ e.deletes κ j=true := by
  obtain ⟨-,-,hx⟩ := he
  obtain ⟨hsnd,hok⟩ := of_decide_eq_true hd
  rcases exec_cases k e.op with ⟨κ',obj,-,hd',-⟩|⟨κ',h',f,-,hd',hop⟩|⟨hd',-⟩
  · rw [hd'] at hsnd
    cases hsnd
  · rw [hd'] at hsnd
    obtain rfl : h'=h := Option.some.inj hsnd
    rw [hop,Objects.delete] at hx
    cases hf : k.find κ' h' with
    | none =>
      rw [hf] at hx
      rw [← (Prod.mk.inj hx).1] at hok
      cases hok
    | some j => exact ⟨κ',j,hd',hf,by simp [Event.deletes,hd',hok,(lookup_some.mp hf).1]⟩
  · rw [hd'] at hsnd
    cases hsnd

theorem ownerSlot_some {h : UInt32} : ownerSlot k h=some (κ,i) ↔ k.find κ h=some i := by
  unfold Objects.find
  rw [lookup_some]
  unfold ownerSlot
  cases hIdx h with
  | none => simp
  | some j =>
    by_cases ht : ∃κ',hType h=Kind.type κ'
    · obtain ⟨κ',ht⟩ := ht
      have hfind : ([Kind.sem,.mutex,.queue,.event].find? fun κ => decide (hType h=κ.type))=
          some κ' := by
        rw [ht]
        cases κ' <;> decide
      rw [hfind]
      simp only [Option.bind_some,Option.ite_none_right_eq_some,Option.some.injEq,Prod.mk.injEq]
      constructor
      · rintro ⟨hc,rfl,rfl⟩
        exact ⟨rfl,ht,hc⟩
      · rintro ⟨rfl,ht',hc⟩
        obtain rfl : κ=κ' := type_inj (ht'.symm.trans ht)
        exact ⟨hc,rfl,rfl⟩
    · have hfind : ([Kind.sem,.mutex,.queue,.event].find? fun κ => decide (hType h=κ.type))=
          none := by
        rw [List.find?_eq_none]
        intro κ' _ hκ
        exact ht ⟨κ',of_decide_eq_true hκ⟩
      rw [hfind]
      simp only [Option.bind_none,reduceCtorEq,false_iff]
      rintro ⟨-,hκ,-⟩
      exact ht ⟨κ,hκ⟩

theorem kobjValid_iff {h : UInt32} : kobjValid k h=true ↔ ∃κ i,k.find κ h=some i := by
  rw [kobjValid,Option.isSome_iff_exists,Prod.exists]
  simp only [ownerSlot_some]

end Steps

section Runs

variable {ws : Waiters n} {k k' : Objects n} {hist : List (Event n)} {e : Event n} {κ : Kind}
  {i : Nat} {h : UInt32}

theorem find_gen_lt (hf : k.find κ h=some i) : (k.tab κ i).gen.toNat < 4096 := by
  obtain ⟨-,-,-,-,hg⟩ := lookup_some.mp hf
  rw [hg,hGen_toNat]
  exact Nat.mod_lt _ (by decide)

theorem eq_hMake (hf : k.find κ h=some i) : h=hMake κ.type (k.tab κ i).gen i := by
  have hlt := find_gen_lt hf
  obtain ⟨hidx,ht,hi,-,hg⟩ := lookup_some.mp hf
  apply UInt32.toNat_inj.mp
  have h1 := congrArg UInt32.toNat ht
  have h2 := congrArg UInt16.toNat hg
  rw [hType_toNat] at h1
  rw [hGen_toNat] at h2
  rw [hIdx_some] at hidx
  rw [hMake_toNat κ _ hi]
  omega

theorem find_hMake (hi : i < κ.max) (hu : (k.tab κ i).used=true)
    (hg : (k.tab κ i).gen.toNat < 4096) :
    k.find κ (hMake κ.type (k.tab κ i).gen i)=some i := by
  refine lookup_some.mpr ⟨hIdx_hMake _ hi,hType_hMake _ hi,hi,hu,?_⟩
  apply UInt16.toNat_inj.mp
  rw [hGen_hMake _ hi]
  omega

/-- The generation counts the objects deleted in the slot, and stops at the first that no handle
can carry. -/
theorem gen_eq_deletions (hr : Reach Step (Objects.init ws) hist k) (κ : Kind) (i : Nat) :
    (k.tab κ i).gen.toNat=deletions κ i hist ∧ deletions κ i hist≤4096 := by
  refine Reach.invariant (fun hist k => (k.tab κ i).gen.toNat=deletions κ i hist ∧
    deletions κ i hist≤4096) ?_ ?_ hr
  · refine ⟨?_,Nat.zero_le _⟩
    cases κ <;> rfl
  · rintro hist k e k' ⟨hg,hle⟩ he
    unfold deletions
    rw [List.countP_cons]
    rcases step_slot he κ i with ⟨-,hd,-,-,hh,-⟩|⟨-,hd,⟨h,-,hf⟩,hh⟩|⟨-,hd,hh⟩
    · rw [hd,show (k'.tab κ i).gen=(k.tab κ i).gen from congrArg Prod.snd hh]
      exact ⟨hg,hle⟩
    · have hlt := find_gen_lt hf
      rw [hd,show (k'.tab κ i).gen=(k.tab κ i).gen+1 from congrArg Prod.snd hh,UInt16.toNat_add]
      change (_+1)%2^16=deletions κ i hist+1 ∧ deletions κ i hist+1≤4096
      omega
    · rw [hd,show (k'.tab κ i).gen=(k.tab κ i).gen from congrArg Prod.snd hh]
      exact ⟨hg,hle⟩

/-- Where the generation g of an object is, with its deletion in the history or not. -/
structure Tracked (g : UInt16) (κ : Kind) (i : Nat) (h : UInt32) (hist : List (Event n))
    (k : Objects n) : Prop where
  bound : (k.tab κ i).gen.toNat≤4096
  live : (∀e∈hist,e.deleted h=false) → (k.tab κ i).head=(true,g)
  gone : (∃e∈hist,e.deleted h=true) → g.toNat < (k.tab κ i).gen.toNat

theorem tracked_step {g : UInt16} (hi : i < κ.max)
    (ht : Tracked g κ i (hMake κ.type g i) hist k) (he : Step k e k') :
    Tracked g κ i (hMake κ.type g i) (e::hist) k' := by
  set h := hMake κ.type g i with hh
  obtain ⟨hb,hl,hgone⟩ := ht
  have hkeep : (k.tab κ i).gen.toNat≤(k'.tab κ i).gen.toNat ∧ (k'.tab κ i).gen.toNat≤4096 ∧
      (e.deletes κ i=true → (k.tab κ i).gen.toNat < (k'.tab κ i).gen.toNat) := by
    rcases step_slot he κ i with ⟨-,hd,-,-,hs,-⟩|⟨-,hd,⟨h',-,hf⟩,hs⟩|⟨-,hd,hs⟩
    · rw [hd,show (k'.tab κ i).gen=(k.tab κ i).gen from congrArg Prod.snd hs]
      exact ⟨Nat.le_refl _,hb,fun hx => absurd hx Bool.false_ne_true⟩
    · have hlt := find_gen_lt hf
      rw [show (k'.tab κ i).gen=(k.tab κ i).gen+1 from congrArg Prod.snd hs,UInt16.toNat_add]
      change _≤(_+1)%2^16 ∧ (_+1)%2^16≤4096 ∧ (_ → _ < (_+1)%2^16)
      omega
    · rw [hd,show (k'.tab κ i).gen=(k.tab κ i).gen from congrArg Prod.snd hs]
      exact ⟨Nat.le_refl _,hb,fun hx => absurd hx Bool.false_ne_true⟩
  refine ⟨hkeep.2.1,?_,?_⟩
  · intro hno
    have hs := hl fun e' h' => hno e' (List.mem_cons_of_mem _ h')
    have hgen : (k.tab κ i).gen=g := congrArg Prod.snd hs
    rcases step_slot he κ i with ⟨-,-,-,hu,-⟩|⟨-,-,⟨h',hd,hf⟩,-⟩|⟨-,-,hs'⟩
    · rw [show (k.tab κ i).used=true from congrArg Prod.fst hs] at hu
      cases hu
    · have hh' : h'=h := (eq_hMake hf).trans (by rw [hgen])
      rw [hh',hno e List.mem_cons_self] at hd
      cases hd
    · rw [hs',hs]
  · rintro ⟨e',hm,hd⟩
    by_cases hold : ∃e∈hist,e.deleted h=true
    · exact Nat.lt_of_lt_of_le (hgone hold) hkeep.1
    · have hs := hl fun x hx => by
        by_contra hne
        exact hold ⟨x,hx,by simpa using hne⟩
      have hgen : (k.tab κ i).gen=g := congrArg Prod.snd hs
      obtain rfl : e'=e := (List.mem_cons.mp hm).resolve_right fun hx => hold ⟨e',hx,hd⟩
      obtain ⟨κ',j,-,hf,hdel⟩ := deleted_find he hd
      obtain ⟨hidx,htype,-⟩ := lookup_some.mp hf
      obtain rfl : κ'=κ := type_inj (htype.symm.trans (hType_hMake _ hi))
      obtain rfl : j=i := Option.some.inj (hidx.symm.trans (hIdx_hMake _ hi))
      have := hkeep.2.2 hdel
      rwa [hgen] at this

theorem names_of_head {g : UInt16} (hi : i < κ.max) (hg : g.toNat < 4096)
    (hs : (k.tab κ i).head=(true,g)) : Names k (hMake κ.type g i) κ i := by
  have hgen : (k.tab κ i).gen=g := congrArg Prod.snd hs
  have hf : k.find κ (hMake κ.type g i)=some i := by
    rw [← hgen]
    exact find_hMake hi (congrArg Prod.fst hs) (by rwa [hgen])
  refine ⟨kobjValid_iff.mpr ⟨κ,i,hf⟩,hf,?_⟩
  intro κ' hne
  rw [Option.eq_none_iff_forall_ne_some]
  intro j hj
  exact hne (type_inj ((lookup_some.mp hj).2.1.symm.trans (hType_hMake _ hi)))

theorem lifetime_kept {g : UInt16} (hi : i < κ.max) (hg : g.toNat < 4096)
    (hs : (k.tab κ i).head=(true,g)) : Lifetime k (hMake κ.type g i) κ i := by
  have hrun : ∀later k',Reach Step k later k' → Tracked g κ i (hMake κ.type g i) later k' := by
    intro later k' hr
    refine Reach.invariant (fun hist k => Tracked g κ i (hMake κ.type g i) hist k) ?_
      (fun _ _ _ _ ht he => tracked_step hi ht he) hr
    refine ⟨?_,fun _ => hs,fun hx => ?_⟩
    · rw [show (k.tab κ i).gen=g from congrArg Prod.snd hs]
      omega
    · obtain ⟨e,hm,-⟩ := hx
      exact absurd hm List.not_mem_nil
  constructor
  · intro later k' hr hno
    exact names_of_head hi hg ((hrun later k' hr).live hno)
  · intro since e till k' hr hd _
    have hgone := (hrun _ _ hr).gone ⟨e,List.mem_append_right _ List.mem_cons_self,hd⟩
    rw [Bool.eq_false_iff]
    intro hv
    obtain ⟨κ',j,hf⟩ := kobjValid_iff.mp hv
    obtain ⟨hidx,htype,-,-,hgen⟩ := lookup_some.mp hf
    obtain rfl : κ'=κ := type_inj (htype.symm.trans (hType_hMake _ hi))
    obtain rfl : j=i := Option.some.inj (hidx.symm.trans (hIdx_hMake _ hi))
    rw [hgen,hGen_hMake _ hi] at hgone
    omega

theorem lifetime_lost (hg : 4096≤(k.tab κ i).gen.toNat)
    (hl : Lifetime k h κ i) : False := by
  have hn := (hl.names [] k .start fun _ hx => absurd hx List.not_mem_nil).2.1
  have := find_gen_lt hn
  omega

theorem handle_lifetime (hr : Reach Step (Objects.init ws) hist k) (he : Step k e k')
    (hc : e.op.creates=some κ) (hh : e.answer.handle≠0) :
    ∃i,e.creates κ i=true ∧
      (Lifetime k' e.answer.handle κ i ↔ deletions κ i hist < 4096) := by
  obtain ⟨i,hi⟩ := creates_of_handle he hc hh
  refine ⟨i,hi,?_⟩
  obtain ⟨hgen,-⟩ := gen_eq_deletions hr κ i
  rcases step_slot he κ i with ⟨-,-,hmax,-,hs,ha⟩|⟨hno,-⟩|⟨hno,-⟩
  · constructor
    · intro hl
      by_contra hge
      refine lifetime_lost ?_ hl
      rw [show (k'.tab κ i).gen=(k.tab κ i).gen from congrArg Prod.snd hs]
      omega
    · intro hlt
      rw [ha]
      exact lifetime_kept hmax (by omega) hs
  · rw [hi] at hno
    cases hno
  · rw [hi] at hno
    cases hno

end Runs

def idle : Waiters n := fun _ => ⟨none,0,.idle,[],0,0,false,false⟩

theorem step_act (k : Objects n) (op : Op n) : Step k (act k op) (exec k op).2 := ⟨rfl,rfl,rfl⟩

def made : Objects 1 := (exec (Objects.init idle) (.mutexCreate false)).2

/-- The first mutex has been made and deleted. -/
def deletedOnce : Objects 1 := (exec made (.delete .mutex (hMake 2 0 0))).2

def onceHistory : List (Event 1) :=
  [act made (.delete .mutex (hMake 2 0 0)),act (Objects.init idle) (.mutexCreate false)]

theorem handle_lifetime_again :
    (exec deletedOnce (.mutexCreate false)).1.handle=hMake 2 1 0 ∧
      deletions .mutex 0 onceHistory=1 ∧
      ∃i,(act deletedOnce (.mutexCreate false)).creates .mutex i=true ∧
        (Lifetime (exec deletedOnce (.mutexCreate false)).2 (hMake 2 1 0) .mutex i ↔
          deletions .mutex i onceHistory < 4096) := by
  have hrun : Reach Step (Objects.init idle) onceHistory deletedOnce :=
    (Reach.start.next (step_act _ _)).next (step_act made _)
  have hh : (exec deletedOnce (.mutexCreate false)).1.handle=hMake 2 1 0 := by decide +kernel
  refine ⟨hh,by decide +kernel,?_⟩
  rw [← hh]
  exact handle_lifetime hrun (step_act _ _) rfl (by rw [act,hh]; decide)

section Wear

variable {k : Objects n}

theorem create_mutex (hu : ∀i,(k.tab .mutex i).used=false) :
    exec k (.mutexCreate false)=({handle := hMake 2 (k.tab .mutex 0).gen 0},
      k.setSlot .mutex 0 k.ws ⟨true,(k.tab .mutex 0).gen,0,⟨false,-1,0,WList.empty⟩⟩) := by
  have hfree : freeSlot (k.tab .mutex) .mutex=some 0 := by
    change (0::(List.range 31).map Nat.succ).find? _=_
    rw [List.find?_cons_of_pos (by simp [hu])]
  change k.create .mutex _=_
  rw [Objects.create,createIn,hfree]
  rfl

theorem wear (c : Nat) (hc : c≤4096) : ∃hist,∃k : Objects n,Reach Step (Objects.init idle) hist k ∧
    (∀i,(k.tab .mutex i).used=false) ∧ (k.tab .mutex 0).gen.toNat=c := by
  induction c with
  | zero => exact ⟨[],_,.start,fun _ => rfl,rfl⟩
  | succ c ih =>
    obtain ⟨hist,k,hr,hu,hg⟩ := ih (Nat.le_of_succ_le hc)
    have h1 := create_mutex hu
    set s : Slot (Mutex n) := ⟨true,(k.tab .mutex 0).gen,0,⟨false,-1,0,WList.empty⟩⟩ with hs
    set k1 := k.setSlot .mutex 0 k.ws s with hk1
    have hslot : k1.tab .mutex 0=s := setSlot_same _ _
    have hf : k1.find .mutex (hMake 2 (k.tab .mutex 0).gen 0)=some 0 := by
      have hgs : s.gen.toNat < 4096 := by
        change (k.tab .mutex 0).gen.toNat < 4096
        omega
      have := find_hMake (k := k1) (κ := .mutex) (i := 0) (by decide) (by rw [hslot])
        (by rwa [hslot])
      rwa [hslot] at this
    obtain ⟨ws,obj,hk2⟩ : ∃ws obj,
        (exec k1 (.delete .mutex (hMake 2 (k.tab .mutex 0).gen 0))).2=
          k1.setSlot .mutex 0 ws ((k1.tab .mutex 0).release obj) := by
      refine ⟨(Mutex.failAll k1.ws (k1.tab .mutex 0).obj).1,
        (Mutex.failAll k1.ws (k1.tab .mutex 0).obj).2.1,?_⟩
      change (k1.delete .mutex _ Mutex.failAll).2=_
      rw [Objects.delete,hf]
    have hr1 : Reach Step (Objects.init idle) (act k (.mutexCreate false)::hist) k1 := by
      have := hr.next (step_act k (.mutexCreate false))
      rwa [h1] at this
    have hr2 := hr1.next (step_act k1 (.delete .mutex (hMake 2 (k.tab .mutex 0).gen 0)))
    refine ⟨_,_,hr2,?_,?_⟩
    · intro i
      by_cases hi : i=0
      · rw [hi,hk2,setSlot_same]
        rfl
      · have hne : ¬((Kind.mutex=Kind.mutex) ∧ i=0) := fun hx => hi hx.2
        rw [hk2,setSlot_other _ _ hne,hk1,setSlot_other _ _ hne]
        exact hu i
    · rw [hk2,setSlot_same,hslot]
      change ((k.tab .mutex 0).gen+1).toNat=c+1
      rw [UInt16.toNat_add,hg]
      change (c+1)%2^16=c+1
      omega

/-- The object made after 4096 deletions in its slot: its handle is good for nothing. -/
theorem handle_lost : ∃(hist : List (Event 0)) (k k' : Objects 0) (e : Event 0),
    Reach Step (Objects.init idle) hist k ∧ Step k e k' ∧ e.op.creates=some .mutex ∧
      e.answer.handle≠0 ∧ ∃i,e.creates .mutex i=true ∧ ¬Lifetime k' e.answer.handle .mutex i := by
  obtain ⟨hist,k,hr,hu,hg⟩ := wear (n := 0) 4096 (Nat.le_refl _)
  have h1 := create_mutex hu
  have hne : (exec k (.mutexCreate false)).1.handle≠0 := by
    rw [h1]
    exact hMake_ne (κ := .mutex) _ (by decide)
  have hidx : hIdx (exec k (.mutexCreate false)).1.handle=some 0 := by
    rw [h1]
    exact hIdx_hMake (κ := .mutex) _ (by decide)
  refine ⟨hist,k,_,_,hr,step_act k (.mutexCreate false),rfl,hne,0,
    decide_eq_true ⟨rfl,hne,hidx⟩,lifetime_lost ?_⟩
  rw [h1]
  dsimp only
  rw [setSlot_same]
  exact Nat.le_of_eq hg.symm

end Wear

end LugalOS.Kobj
