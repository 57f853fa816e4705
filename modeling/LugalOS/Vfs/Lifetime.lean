import LugalOS.Lib.Tokens
import LugalOS.Vfs.Mounts

namespace LugalOS.Vfs

open CString Run Tokens
open Function (update update_of_ne update_self update_eq_self)

variable {n : Nat}

/-- A caller comes to w, and entry i to m. -/
def State.goes (s : State n) (p : Fin n) (w : Place) (i : Slot) (m : Mount) : State n :=
  s.set p w (update s.table i m)

theorem goes_same (s : State n) (p : Fin n) (w : Place) (i : Slot) :
    s.goes p w i (s.table i)=s.set p w s.table := by rw [State.goes,update_eq_self]

theorem set_same {s : State n} {p : Fin n} {w : Place} (h : s.place p=w) :
    s.set p w s.table=s := by
  rw [State.set,← h,update_eq_self]

/-- What a step can do, other than nothing. -/
inductive Change (s : State n) (p : Fin n) : Act → State n → Prop
  | get {path : Bytes} {i : Slot} (hp : s.place p=.outside) (hu : (s.table i).inUse)
      (hr : (s.table i).ready) (hd : (s.table i).dying=false) :
      Change s p (.get path)
        (s.goes p (.inside i) i {s.table i with users := (s.table i).users+1})
  | put {i : Slot} (hp : s.place p=.inside i ∨ s.place p=.unmounting i)
      (hl : ¬((s.table i).dying ∧ (s.table i).users=1)) :
      Change s p .put (s.goes p .outside i {s.table i with users := (s.table i).users-1})
  | last {i : Slot} {w : Place} (hp : s.place p=.inside i ∨ s.place p=.unmounting i)
      (hd : (s.table i).dying) (hu : (s.table i).users=1)
      (hw : w=((s.table i).remote.elim .outside .closing)) :
      Change s p .put (s.goes p w i Mount.zero)
  | close {r : Nat} (i : Slot) (hp : s.place p=.closing r) :
      Change s p .close {s.goes p .outside i (s.table i) with closed := r::s.closed}
  | mount {name : Bytes} {i : Slot} (hp : s.place p=.outside) (hu : (s.table i).inUse=false)
      (hn : ∀j,(s.table j).live → (s.table j).name≠name) :
      Change s p (.mount name)
        (s.goes p (.opening i) i {Mount.zero with inUse := true, name, ready := false})
  | refused {i : Slot} (hp : s.place p=.opening i) :
      Change s p .refused (s.goes p .outside i Mount.zero)
  | opened {i : Slot} (hp : s.place p=.opening i) :
      Change s p .opened {s.goes p (.filling i s.opened) i (s.table i) with opened := s.opened+1}
  | setKind {i : Slot} {r : Nat} (hp : s.place p=.filling i r) :
      Change s p .setKind (s.goes p (.linking i r) i {s.table i with kind := .remote9p})
  | setRemote {i : Slot} {r : Nat} (hp : s.place p=.linking i r) :
      Change s p .setRemote (s.goes p (.readying i) i {s.table i with remote := some r})
  | ready {i : Slot} (hp : s.place p=.readying i) :
      Change s p .ready (s.goes p .outside i {s.table i with ready := true})
  | unmount {name : Bytes} {i : Slot} (hp : s.place p=.outside) (hu : (s.table i).inUse)
      (hr : (s.table i).ready) (hd : (s.table i).dying=false) (hk : (s.table i).kind=.remote9p) :
      Change s p (.unmount name) (s.goes p (.unmounting i) i
        {s.table i with dying := true, users := (s.table i).users+1})
  | format {i : Slot} {q : Option Slot} (hp : s.place p=.inside i)
      (hq : q=liveNamed s.table (s.table i).name) (hi : ∀j,q=some j → j=i) :
      Change s p .format (s.goes p (.formatting i q) i
        {s.table i with ready := (s.table i).ready && q≠some i})
  | formatted {i : Slot} {q : Option Slot} (hp : s.place p=.formatting i q)
      (hi : ∀j,q=some j → j=i) :
      Change s p .formatted (s.goes p (.inside i) i
        {s.table i with ready := (s.table i).ready || q=some i})
  | replace {q : Option Slot} (hp : s.place p=.outside) (hq : q=liveNamed s.table ram0)
      (hi : ∀j,q=some j → j=2) :
      Change s p .replace (s.goes p (.replacing q) 2
        {s.table 2 with ready := (s.table 2).ready && q≠some 2})
  | replaced {q : Option Slot} (hp : s.place p=.replacing q) (hi : ∀j,q=some j → j=2) :
      Change s p .replaced (s.goes p .outside 2
        {s.table 2 with ready := (s.table 2).ready || q=some 2})

theorem references_set (s : State n) (p : Fin n) (w : Place) (t : Table) (i : Slot) :
    references (s.set p w t) i=
      Holders.count (update (fun q => (s.place q).ref) p w.ref) i := by
  rw [references,State.set]
  congr 1
  exact Function.comp_update Place.ref s.place p w

theorem references_take {s : State n} {p : Fin n} {w : Place} {t : Table} {i : Slot}
    (h : (s.place p).ref≠some i) (hw : w.ref=some i) :
    references (s.set p w t) i=references s i+1 := by
  rw [references_set,hw]
  exact Holders.count_take h

theorem references_drop {s : State n} {p : Fin n} {w : Place} {t : Table} {i : Slot}
    (h : (s.place p).ref=some i) (hw : w.ref≠some i) :
    references (s.set p w t) i+1=references s i := by
  rw [references_set]
  exact Holders.count_drop h hw

theorem references_same {s : State n} {p : Fin n} {w : Place} {t : Table} {i : Slot}
    (h : (s.place p).ref=some i ↔ w.ref=some i) :
    references (s.set p w t) i=references s i := by
  rw [references_set]
  exact Holders.count_other h

theorem references_pos {s : State n} {p : Fin n} {i : Slot} (h : (s.place p).ref=some i) :
    0 < references s i := Holders.count_pos h

theorem references_lt {s : State n} {p : Fin n} {i : Slot} (h : (s.place p).ref≠some i) :
    references s i < n :=
  calc references s i < Fintype.card (Fin n) := Holders.count_lt h
    _ = n := Fintype.card_fin n

/-- Where a session can be. -/
inductive Cell (n : Nat)
  | entry (i : Slot) | call (p : Fin n) | closed
deriving DecidableEq

def cells (s : State n) : Cell n → List Nat
  | .entry i => (s.table i).remote.toList
  | .call p => (s.place p).session.toList
  | .closed => s.closed

/-- An entry that its mount call is filling in. -/
structure Fresh (s : State n) (w : Place) (i : Slot) : Prop where
  live : (s.table i).live
  hidden : (s.table i).ready=false
  unused : (s.table i).users=0
  later : 6 ≤ i.val
  unlinked : w≠.readying i → (s.table i).remote=none

structure Inv (s : State n) : Prop where
  zero : ∀i,(s.table i).inUse=false → s.table i=Mount.zero
  users : ∀i,(s.table i).users.toNat=references s i
  dying : ∀i,(s.table i).dying → (s.table i).users≠0
  names : ∀i j,(s.table i).live → (s.table j).live → (s.table i).name=(s.table j).name → i=j
  builtin : ∀i : Slot,i.val < 6 → (s.table i).live ∧ (s.table i).kind≠.remote9p ∧
    (s.table i).name=(mountTableInit i).name
  fresh : ∀p i,(s.place p).mounting=some i → Fresh s (s.place p) i
  single : ∀p q i,(s.place p).mounting=some i → (s.place q).mounting=some i → p=q
  format : ∀p m q,s.place p=.formatting m (some q) → q=m
  replace : ∀p q,s.place p=.replacing (some q) → q=2
  sessions : Conserved (cells s) (· < s.opened)

/-- What has to be seen of a step that changes one entry and one caller. -/
structure Fits (s : State n) (p : Fin n) (w : Place) (i : Slot) (m : Mount) : Prop where
  zero : m.inUse=false → m=Mount.zero
  refs : ∀j,j≠i → ((s.place p).ref=some j ↔ w.ref=some j)
  users : m.users.toNat=references (s.goes p w i m) i
  dying : m.dying → m.users≠0
  name : m.live → (s.table i).live ∧ m.name=(s.table i).name ∨
    ∀j,(s.table j).live → (s.table j).name≠m.name
  builtin : i.val < 6 → m.live ∧ m.kind=(s.table i).kind ∧ m.name=(s.table i).name
  others : ∀q,q≠p → (s.place q).mounting=some i → m=s.table i
  fresh : ∀j,w.mounting=some j → j=i ∧ Fresh (s.goes p w i m) w i ∧
    ∀q,q≠p → (s.place q).mounting≠some i
  format : ∀a q,w=.formatting a (some q) → q=a
  replace : ∀q,w=.replacing (some q) → q=2

theorem Inv.ref_inUse {s : State n} (h : Inv s) {p : Fin n} {i : Slot}
    (hr : (s.place p).ref=some i) : (s.table i).inUse ∧ (s.table i).users≠0 := by
  have hpos := references_pos hr
  rw [← h.users] at hpos
  have hu : (s.table i).users≠0 := by
    intro h0
    rw [h0] at hpos
    exact absurd hpos (by decide)
  refine ⟨?_,hu⟩
  by_contra hn
  rw [h.zero i (by simpa using hn)] at hu
  exact hu rfl

theorem Inv.not_mounting {s : State n} (h : Inv s) {p q : Fin n} {i : Slot}
    (hr : (s.place p).ref=some i) : (s.place q).mounting≠some i := fun hm =>
  (h.ref_inUse hr).2 (h.fresh q i hm).unused

theorem Inv.goes {s : State n} (h : Inv s) {p : Fin n} {w : Place} {i : Slot} {m : Mount}
    (hf : Fits s p w i m) {o : Nat} {c : List Nat} :
    let s' : State n := {s.goes p w i m with opened := o, closed := c}
    Conserved (cells s') (· < s'.opened) → Inv s' := by
  intro s' hs
  have hti : s'.table i=m := update_self ..
  have hto {j : Slot} (hj : j≠i) : s'.table j=s.table j := update_of_ne hj ..
  have hpp : s'.place p=w := update_self ..
  have hpo {q : Fin n} (hq : q≠p) : s'.place q=s.place q := update_of_ne hq ..
  refine ⟨fun j => ?_,fun j => ?_,fun j => ?_,fun j k => ?_,fun j hj => ?_,fun q j hq => ?_,
    fun q r j hq hr => ?_,fun q a b hq => ?_,fun q b hq => ?_,hs⟩
  · by_cases hj : j=i
    · subst hj; rw [hti]; exact hf.zero
    · rw [hto hj]; exact h.zero j
  · by_cases hj : j=i
    · subst hj; rw [hti]; exact hf.users
    · rw [hto hj,h.users j]; exact (references_same (t := s.table) (hf.refs j hj)).symm
  · by_cases hj : j=i
    · subst hj; rw [hti]; exact hf.dying
    · rw [hto hj]; exact h.dying j
  · by_cases hj : j=i <;> by_cases hk : k=i
    · intro _ _ _; rw [hj,hk]
    · subst hj
      rw [hti,hto hk]
      intro hl hlk he
      obtain ⟨hlj,hn⟩ | hn := hf.name hl
      · exact h.names _ _ hlj hlk (hn.symm.trans he)
      · exact absurd he.symm (hn k hlk)
    · subst hk
      rw [hti,hto hj]
      intro hlj hl he
      obtain ⟨hlk,hn⟩ | hn := hf.name hl
      · exact h.names _ _ hlj hlk (he.trans hn)
      · exact absurd he (hn j hlj)
    · rw [hto hj,hto hk]; exact h.names j k
  · by_cases hji : j=i
    · subst hji
      obtain ⟨hl,hk,hn⟩ := hf.builtin hj
      obtain ⟨_,hk',hn'⟩ := h.builtin j hj
      rw [hti]
      exact ⟨hl,hk ▸ hk',hn.trans hn'⟩
    · rw [hto hji]; exact h.builtin j hj
  · by_cases hqp : q=p
    · subst hqp
      rw [hpp] at hq ⊢
      obtain ⟨rfl,hfr,_⟩ := hf.fresh j hq
      exact ⟨hfr.live,hfr.hidden,hfr.unused,hfr.later,hfr.unlinked⟩
    · rw [hpo hqp] at hq ⊢
      have hfr := h.fresh q j hq
      have heq : s'.table j=s.table j := by
        by_cases hj : j=i
        · subst hj; rw [hti]; exact hf.others q hqp hq
        · exact hto hj
      refine ⟨?_,?_,?_,hfr.later,?_⟩
      · rw [heq]; exact hfr.live
      · rw [heq]; exact hfr.hidden
      · rw [heq]; exact hfr.unused
      · rw [heq]; exact hfr.unlinked
  · by_cases hqp : q=p <;> by_cases hrp : r=p
    · rw [hqp,hrp]
    · subst hqp
      rw [hpp] at hq
      rw [hpo hrp] at hr
      obtain ⟨rfl,_,hno⟩ := hf.fresh j hq
      exact absurd hr (hno r hrp)
    · subst hrp
      rw [hpp] at hr
      rw [hpo hqp] at hq
      obtain ⟨rfl,_,hno⟩ := hf.fresh j hr
      exact absurd hq (hno q hqp)
    · rw [hpo hqp] at hq
      rw [hpo hrp] at hr
      exact h.single q r j hq hr
  · by_cases hqp : q=p
    · subst hqp; rw [hpp] at hq; exact hf.format a b hq
    · rw [hpo hqp] at hq; exact h.format q a b hq
  · by_cases hqp : q=p
    · subst hqp; rw [hpp] at hq; exact hf.replace b hq
    · rw [hpo hqp] at hq; exact h.replace q b hq

theorem Inv.liveNamed_ram0 {s : State n} (h : Inv s) {j : Slot}
    (hj : liveNamed s.table ram0=some j) : j=2 := by
  obtain ⟨hl,hn⟩ := liveNamed_some hj
  obtain ⟨hl2,_,hn2⟩ := h.builtin 2 (by decide)
  exact h.names j 2 hl hl2 (hn.trans (mountTableInit_spec.2.2.2.2.symm.trans hn2.symm))

theorem Inv.ram0_kept {s : State n} (h : Inv s) {p : Fin n} :
    (s.table 2).inUse ∧ ∀q,q≠p → (s.place q).mounting≠some 2 := by
  have hl := (h.builtin 2 (by decide)).1
  rw [Mount.live,Bool.and_eq_true] at hl
  exact ⟨hl.1,fun q _ hm => absurd (h.fresh q 2 hm).later (by decide)⟩

theorem quiesce_update {t t' : Table} {q : Option Slot} {i : Slot} (hi : ∀j,q=some j → j=i)
    (h : ∀j,t' j={t j with ready := (t j).ready && q≠some j}) :
    t'=update t i {t i with ready := (t i).ready && q≠some i} := by
  funext j
  rw [h j]
  by_cases hj : j=i
  · subst hj; rw [update_self]
  · rw [update_of_ne hj]
    have : q≠some j := fun hq => hj (hi j hq)
    simp [this]

theorem giveBack_update {t : Table} {q : Option Slot} {i : Slot} (hi : ∀j,q=some j → j=i) :
    giveBack t q=update t i {t i with ready := (t i).ready || q=some i} := by
  cases q with
  | none => simp [giveBack]
  | some j =>
    cases hi j rfl
    simp [giveBack,mountReady]

theorem put_change {s : State n} (h : Inv s) {p : Fin n} {m : Slot}
    (hp : s.place p=.inside m ∨ s.place p=.unmounting m) : Change s p .put (put s p m) := by
  have hr : (s.place p).ref=some m := by obtain hp | hp := hp <;> rw [hp] <;> rfl
  rw [put]
  obtain ⟨hd,hu,he⟩ | ⟨hn,he⟩ := mountPut_cases (h.ref_inUse hr).2
  · have hlast := Change.last hp hd hu rfl
    rw [he]
    cases hrem : (s.table m).remote with
    | none | some r => rw [hrem] at hlast; exact hlast
  · rw [he]
    exact Change.put hp hn

theorem enter_change {s s' : State n} (h : Inv s) {p : Fin n} {a : Act}
    (hp : s.place p=.outside) (he : enter s p a=some s') : s'=s ∨ Change s p a s' := by
  cases a with
  | get path =>
    rw [enter] at he
    cases hm : (mountGet s.table path).1.mount with
    | none =>
      simp only [hm,mountGet_none hm] at he
      cases he
      exact .inl (set_same hp)
    | some m =>
      obtain ⟨hu,hr,hd,ht⟩ := mountGet_some hm
      simp only [hm,ht] at he
      cases he
      exact .inr (Change.get hp hu hr hd)
  | mount name =>
    rw [enter] at he
    cases hm : mountAlloc s.table name false with
    | none => rw [hm] at he; cases he; exact .inl rfl
    | some r =>
      obtain ⟨i,t⟩ := r
      rw [hm] at he
      cases he
      obtain ⟨hu,hn,rfl⟩ := mountAlloc_some hm
      exact .inr (Change.mount hp hu hn)
  | unmount name =>
    rw [enter] at he
    cases hm : unmountMark s.table name with
    | none => rw [hm] at he; cases he; exact .inl rfl
    | some r =>
      obtain ⟨i,t⟩ := r
      rw [hm] at he
      cases he
      obtain ⟨hu,hr,hd,hk,rfl⟩ := unmountMark_some hm
      exact .inr (Change.unmount hp hu hr hd hk)
  | replace =>
    rw [enter] at he
    cases hm : mountQuiesce s.table ram0 0 with
    | none => rw [hm] at he; cases he; exact .inl rfl
    | some r =>
      obtain ⟨q,t⟩ := r
      rw [hm] at he
      cases he
      obtain ⟨hq,ht⟩ := mountQuiesce_some hm
      have hi : ∀j,q=some j → j=2 := fun j hj => h.liveNamed_ram0 (hq.symm.trans hj)
      rw [quiesce_update hi ht]
      exact .inr (Change.replace hp hq hi)
  | put | close | refused | opened | setKind | setRemote | ready | format | formatted | replaced =>
    cases he

theorem format_change {s s' : State n} {e : Event n} (ho : Orderly s e) {m : Slot}
    (ha : e.act=.format) (hp : s.place e.who=.inside m) (he : step e s=some s') :
    s'=s ∨ Change s e.who e.act s' := by
  rw [step] at he
  simp only [hp,ha] at he
  rw [ha]
  cases hm : mountQuiesce s.table (s.table m).name 1 with
  | none => simp only [hm] at he; cases he; exact .inl rfl
  | some r =>
    obtain ⟨q,t⟩ := r
    simp only [hm] at he
    cases he
    obtain ⟨hq,ht⟩ := mountQuiesce_some hm
    have hi : ∀j,q=some j → j=m := fun j hj => ho ha m hp j (hq.symm.trans hj)
    rw [quiesce_update hi ht]
    exact .inr (Change.format hp hq hi)

theorem step_change {s s' : State n} (h : Inv s) {e : Event n} (ho : Orderly s e)
    (he : step e s=some s') : s'=s ∨ Change s e.who e.act s' := by
  obtain ⟨p,a⟩ := e
  cases hp : s.place p with
  | outside =>
    rw [step] at he
    simp only [hp] at he
    exact enter_change h hp he
  | inside m =>
    by_cases ha : a=.format
    · exact format_change ho ha hp he
    · rw [step] at he
      simp only [hp] at he
      cases a with
      | put => cases he; exact .inr (put_change h (.inl hp))
      | format => exact absurd rfl ha
      | _ => cases he
  | unmounting m =>
    rw [step] at he
    simp only [hp] at he
    cases a <;> cases he
    exact .inr (put_change h (.inr hp))
  | closing r =>
    rw [step] at he
    simp only [hp] at he
    cases a <;> cases he
    rw [← goes_same s p .outside 0]
    exact .inr (Change.close 0 hp)
  | opening m =>
    rw [step] at he
    simp only [hp] at he
    cases a <;> cases he
    · exact .inr (Change.refused hp)
    · rw [← goes_same s p _ m]
      exact .inr (Change.opened hp)
  | filling m r =>
    rw [step] at he
    simp only [hp] at he
    cases a <;> cases he
    exact .inr (Change.setKind hp)
  | linking m r =>
    rw [step] at he
    simp only [hp] at he
    cases a <;> cases he
    exact .inr (Change.setRemote hp)
  | readying m =>
    rw [step] at he
    simp only [hp] at he
    cases a <;> cases he
    exact .inr (Change.ready hp)
  | formatting m q =>
    rw [step] at he
    simp only [hp] at he
    cases a <;> cases he
    have hi : ∀j,q=some j → j=m := by
      intro j hj
      exact h.format p m j (hj ▸ hp)
    rw [giveBack_update hi]
    exact .inr (Change.formatted hp hi)
  | replacing q =>
    rw [step] at he
    simp only [hp] at he
    cases a <;> cases he
    have hi : ∀j,q=some j → j=2 := by
      intro j hj
      exact h.replace p j (hj ▸ hp)
    rw [giveBack_update hi]
    exact .inr (Change.replaced hp hi)

theorem Place.ref_of_mounting {w : Place} {i : Slot} (h : w.mounting=some i) : w.ref=none := by
  cases w <;> first | rfl | cases h

theorem fits_take {s : State n} (h : Inv s) (hn : n < 65536) {p : Fin n} {w : Place} {i : Slot}
    {d : Bool} (hp : s.place p=.outside) (hw : w.ref=some i) (hm : w.mounting=none)
    (hu : (s.table i).inUse) (hr : (s.table i).ready) (hd : (s.table i).dying=false)
    (hk : d → (s.table i).kind=.remote9p)
    (hf : ∀a q,w≠.formatting a (some q)) (hrep : ∀q,w≠.replacing (some q)) :
    Fits s p w i {s.table i with dying := d, users := (s.table i).users+1} := by
  have hlive : (s.table i).live := by rw [Mount.live,hu,hd]; rfl
  have hnone : (s.place p).ref≠some i := by rw [hp]; exact fun hc => by cases hc
  have hcount : ((s.table i).users+1).toNat=references s i+1 := by
    have hlt := references_lt hnone
    rw [← h.users i] at hlt ⊢
    have hone : (1 : UInt16).toNat=1 := rfl
    rw [UInt16.toNat_add,hone,Nat.mod_eq_of_lt]
    omega
  refine ⟨fun hz => ?_,fun j hj => ?_,?_,fun _ h0 => ?_,fun _ => .inl ⟨hlive,rfl⟩,fun hi => ?_,
    fun q _ hq => ?_,fun j hj => ?_,fun a q hq => absurd hq (hf a q),fun q hq => absurd hq (hrep q)⟩
  · exact absurd (hu.symm.trans hz) Bool.noConfusion
  · rw [hp,hw]
    constructor
    · intro hc
      cases hc
    · intro hc
      exact absurd (Option.some.inj hc).symm hj
  · rw [State.goes,references_take hnone hw]
    exact hcount
  · rw [show (s.table i).users+1=0 from h0] at hcount
    cases hcount
  · obtain ⟨hl,hkind,_⟩ := h.builtin i hi
    have hdf : d=false := by
      cases d
      · rfl
      · exact absurd (hk rfl) hkind
    subst hdf
    rw [Mount.live,Bool.and_eq_true] at hl ⊢
    exact ⟨⟨hl.1,rfl⟩,rfl,rfl⟩
  · exact absurd ((h.fresh q i hq).hidden.symm.trans hr) Bool.noConfusion
  · rw [hm] at hj
    cases hj

theorem fits_drop {s : State n} (h : Inv s) {p : Fin n} {w : Place} {i : Slot} {m : Mount}
    (hp : (s.place p).ref=some i) (hw : w.ref=none) (hmw : w.mounting=none)
    (hm : m=Mount.zero ∧ (s.table i).dying ∧ (s.table i).users=1 ∨
      m={s.table i with users := (s.table i).users-1} ∧
        ¬((s.table i).dying ∧ (s.table i).users=1))
    (hf : ∀a q,w≠.formatting a (some q)) (hrep : ∀q,w≠.replacing (some q)) :
    Fits s p w i m := by
  obtain ⟨hu,hne⟩ := h.ref_inUse hp
  have hdrop := references_drop (t := update s.table i m) hp (by rw [hw]; exact fun hc => by cases hc)
  rw [← h.users i] at hdrop
  have hno (q : Fin n) : (s.place q).mounting≠some i := h.not_mounting hp
  refine ⟨fun hz => ?_,fun j hj => ?_,?_,fun hd h0 => ?_,fun hl => ?_,fun hi => ?_,
    fun q _ hq => absurd hq (hno q),
    fun j hj => ?_,fun a q hq => absurd hq (hf a q),fun q hq => absurd hq (hrep q)⟩
  · obtain ⟨hm,_⟩ | ⟨hm,_⟩ := hm
    · exact hm
    · rw [hm] at hz
      exact absurd (hu.symm.trans hz) Bool.noConfusion
  · rw [hp,hw]
    constructor
    · intro hc
      exact absurd (Option.some.inj hc).symm hj
    · intro hc
      cases hc
  · change m.users.toNat=references (s.set p w (update s.table i m)) i
    obtain ⟨hm,_,h1⟩ | ⟨hm,_⟩ := hm
    · rw [h1] at hdrop
      rw [hm]
      exact (Nat.succ.inj hdrop).symm
    · have h1 : (1 : UInt16)≤(s.table i).users := by
        rw [UInt16.le_iff_toNat_le]
        exact Nat.one_le_iff_ne_zero.2 fun h0 => hne (UInt16.toNat.inj h0)
      have hsub := UInt16.toNat_sub_of_le _ _ h1
      have hone : (1 : UInt16).toNat=1 := rfl
      subst hm
      change ((s.table i).users-1).toNat=_
      rw [hsub,hone]
      omega
  · obtain ⟨hm,_⟩ | ⟨hm,hlast⟩ := hm
    · rw [hm] at hd
      cases hd
    · rw [hm] at hd h0
      exact hlast ⟨hd,users_sub_eq_zero.1 h0⟩
  · obtain ⟨hm,_⟩ | ⟨hm,_⟩ := hm
    · rw [hm] at hl
      cases hl
    · rw [hm] at hl ⊢
      exact .inl ⟨hl,rfl⟩
  · obtain ⟨hl,_,_⟩ := h.builtin i hi
    obtain ⟨_,hd,_⟩ | ⟨hm,_⟩ := hm
    · rw [Mount.live,hd] at hl
      simp at hl
    · rw [hm]
      exact ⟨hl,rfl,rfl⟩
  · rw [hmw] at hj
    cases hj

theorem fits_ready {s : State n} (h : Inv s) {p : Fin n} {w : Place} {i : Slot} {r : Bool}
    (hc : r=(s.table i).ready ∨ (s.table i).inUse ∧ ∀q,q≠p → (s.place q).mounting≠some i)
    (hr : (s.place p).ref=w.ref) (hw : w.mounting=none)
    (hf : ∀a q,w=.formatting a (some q) → q=a) (hrep : ∀q,w=.replacing (some q) → q=2) :
    Fits s p w i {s.table i with ready := r} := by
  refine ⟨fun hz => ?_,fun j _ => by rw [hr],?_,h.dying i,fun hl => .inl ⟨hl,rfl⟩,
    fun hi => ⟨(h.builtin i hi).1,rfl,rfl⟩,fun q hq hm => ?_,fun j hj => ?_,hf,hrep⟩
  · obtain rfl | ⟨hu,_⟩ := hc
    · exact h.zero i hz
    · exact absurd (hu.symm.trans hz) Bool.noConfusion
  · rw [State.goes,references_same (by rw [hr])]
    exact h.users i
  · obtain rfl | ⟨_,hno⟩ := hc
    · rfl
    · exact absurd hm (hno q hq)
  · rw [hw] at hj
    cases hj

theorem fits_fill {s : State n} (h : Inv s) {p : Fin n} {w : Place} {i : Slot} {k : MountKind}
    {r : Option Nat} (hp : (s.place p).mounting=some i) (hw : w.mounting=some i)
    (hr : w≠.readying i → r=none) :
    Fits s p w i {s.table i with kind := k, remote := r} := by
  obtain ⟨hl,hready,hu,hlater,_⟩ := h.fresh p i hp
  have hrp := Place.ref_of_mounting hp
  have hrw := Place.ref_of_mounting hw
  have hself (m : Mount) : (s.goes p w i m).table i=m := update_self ..
  refine ⟨fun hz => ?_,fun j _ => by rw [hrp,hrw],?_,h.dying i,fun _ => .inl ⟨hl,rfl⟩,
    fun hi => absurd hi (Nat.not_lt.2 hlater),fun q hq hm => absurd (h.single q p i hm hp) hq,
    fun j hj => ?_,fun a q hq => ?_,fun q hq => ?_⟩
  · rw [Mount.live,Bool.and_eq_true] at hl
    exact absurd (hl.1.symm.trans hz) Bool.noConfusion
  · rw [State.goes,references_same (by rw [hrp,hrw])]
    exact h.users i
  · obtain rfl := Option.some.inj (hw.symm.trans hj)
    refine ⟨rfl,⟨?_,?_,?_,hlater,?_⟩,fun q hq hm => hq (h.single q p _ hm hp)⟩
    · rw [hself]; exact hl
    · rw [hself]; exact hready
    · rw [hself]; exact hu
    · rw [hself]; exact hr
  · rw [hq] at hw; cases hw
  · rw [hq] at hw; cases hw

theorem fits_mount {s : State n} (h : Inv s) {p : Fin n} {i : Slot} {name : Bytes}
    (hp : s.place p=.outside) (hu : (s.table i).inUse=false)
    (hn : ∀j,(s.table j).live → (s.table j).name≠name) :
    Fits s p (.opening i) i {Mount.zero with inUse := true, name, ready := false} := by
  have hself (m : Mount) : (s.goes p (.opening i) i m).table i=m := update_self ..
  have hnot (hl : (s.table i).live) : False := by
    rw [Mount.live,hu] at hl
    cases hl
  have hno (q : Fin n) (hq : (s.place q).mounting=some i) : False := hnot (h.fresh q i hq).live
  refine ⟨Bool.noConfusion,fun j _ => (by rw [hp]; exact Iff.rfl),?_,Bool.noConfusion,
    fun _ => .inr hn,
    fun hi => (hnot (h.builtin i hi).1).elim,fun q _ hq => (hno q hq).elim,fun j hj => ?_,
    fun a q hq => Place.noConfusion hq,fun q hq => Place.noConfusion hq⟩
  · have h0 : (s.table i).users=0 := by rw [h.zero i hu]; rfl
    rw [State.goes,references_same (by rw [hp]; exact Iff.rfl),← h.users i,h0]
    rfl
  · cases hj
    refine ⟨rfl,⟨?_,?_,?_,?_,?_⟩,fun q _ => hno q⟩
    · rw [hself]; rfl
    · rw [hself]
    · rw [hself]; rfl
    · exact Nat.not_lt.1 fun hi => hnot (h.builtin i hi).1
    · rw [hself]; exact fun _ => rfl

theorem fits_refused {s : State n} (h : Inv s) {p : Fin n} {i : Slot}
    (hp : s.place p=.opening i) : Fits s p .outside i Mount.zero := by
  have hm : (s.place p).mounting=some i := by rw [hp]; rfl
  obtain ⟨_,_,hu,hlater,_⟩ := h.fresh p i hm
  refine ⟨fun _ => rfl,fun j _ => (by rw [hp]; exact Iff.rfl),?_,Bool.noConfusion,Bool.noConfusion,
    fun hi => absurd hi (Nat.not_lt.2 hlater),fun q hq hq' => absurd (h.single q p i hq' hm) hq,
    fun j hj => (by cases hj),fun a q hq => (by cases hq),fun q hq => (by cases hq)⟩
  rw [State.goes,references_same (by rw [hp]; exact Iff.rfl),← h.users i,hu]
  rfl

theorem cells_goes (s : State n) (p : Fin n) (w : Place) (i : Slot) (m : Mount) (o : Nat)
    (c : List Nat) : cells {s.goes p w i m with opened := o, closed := c}=
      update (update (update (cells s) (.entry i) m.remote.toList) (.call p) w.session.toList)
        .closed c := by
  funext x
  cases x with
  | entry j =>
    rw [update_of_ne (fun hc => by cases hc),update_of_ne (fun hc => by cases hc)]
    change (update s.table i m j).remote.toList=_
    by_cases hj : j=i
    · subst hj
      rw [update_self,update_self]
    · rw [update_of_ne fun he => hj (Cell.entry.inj he),update_of_ne hj]
      rfl
  | call q =>
    rw [update_of_ne (fun hc => by cases hc)]
    change (update s.place p w q).session.toList=_
    by_cases hq : q=p
    · subst hq
      rw [update_self,update_self]
    · rw [update_of_ne fun he => hq (Cell.call.inj he),update_of_ne hq,
        update_of_ne (fun hc => by cases hc)]
      rfl
  | closed => rw [update_self]; rfl

theorem cells_open (s : State n) (p : Fin n) (w : Place) (i : Slot) (m : Mount) (o : Nat) :
    cells {s.goes p w i m with opened := o}=
      update (update (cells s) (.entry i) m.remote.toList) (.call p) w.session.toList := by
  have hclosed : s.closed=update (update (cells s) (.entry i) m.remote.toList) (.call p)
      w.session.toList .closed := by
    rw [update_of_ne (fun hc => by cases hc),update_of_ne (fun hc => by cases hc)]
    rfl
  refine (cells_goes s p w i m o s.closed).trans ?_
  nth_rewrite 1 [hclosed]
  exact update_eq_self ..

theorem cells_entry {s : State n} {i : Slot} {l : List Nat} (h : l=(s.table i).remote.toList) :
    update (cells s) (.entry i) l=cells s := by
  rw [h]
  exact update_eq_self (Cell.entry i) (cells s)

theorem cells_call {s : State n} {p : Fin n} {l : List Nat}
    (h : l=(s.place p).session.toList) : update (cells s) (.call p) l=cells s := by
  rw [h]
  exact update_eq_self (Cell.call p) (cells s)

theorem sessions_same {s : State n} (h : Inv s) {p : Fin n} {w : Place} {i : Slot} {m : Mount}
    (hm : m.remote=(s.table i).remote) (hw : w.session=(s.place p).session) :
    Conserved (cells (s.goes p w i m)) (· < s.opened) := by
  have hc := cells_open s p w i m s.opened
  rw [cells_entry (by rw [hm]),cells_call (by rw [hw])] at hc
  exact hc ▸ h.sessions

theorem sessions_last {s : State n} (h : Inv s) {p : Fin n} {i : Slot}
    (hp : (s.place p).session=none) :
    Conserved (cells (s.goes p ((s.table i).remote.elim .outside .closing) i Mount.zero))
      (· < s.opened) := by
  cases hr : (s.table i).remote with
  | none => exact sessions_same h hr.symm hp.symm
  | some r =>
    have hto := h.sessions.move (x := r) (a := .entry i) (b := .call p) (l := [])
      (fun hc => by cases hc) (by rw [cells,hr]; rfl)
    have hcall : cells s (.call p)=[] := by rw [cells,hp]; rfl
    rw [hcall] at hto
    exact (cells_open s p (.closing r) i Mount.zero s.opened) ▸ hto

theorem sessions_close {s : State n} (h : Inv s) {p : Fin n} {i : Slot} {r : Nat}
    (hp : s.place p=.closing r) :
    Conserved (cells {s.goes p .outside i (s.table i) with closed := r::s.closed})
      (· < s.opened) := by
  have hto := h.sessions.move (x := r) (a := .call p) (b := .closed) (l := [])
    (fun hc => by cases hc) (by rw [cells,hp]; rfl)
  have hc := cells_goes s p .outside i (s.table i) s.opened (r::s.closed)
  rw [cells_entry rfl] at hc
  exact hc ▸ hto

theorem sessions_opened {s : State n} (h : Inv s) {p : Fin n} {i : Slot}
    (hp : s.place p=.opening i) :
    Conserved (cells {s.goes p (.filling i s.opened) i (s.table i) with opened := s.opened+1})
      (· < s.opened+1) := by
  have hto := h.sessions.issue (x := s.opened) (Nat.lt_irrefl _) (.call p)
    (P := (· < s.opened+1)) fun y => Nat.lt_succ_iff_lt_or_eq
  have hcall : cells s (.call p)=[] := by rw [cells,hp]; rfl
  rw [hcall] at hto
  have hc := cells_open s p (.filling i s.opened) i (s.table i) (s.opened+1)
  rw [cells_entry rfl] at hc
  exact hc ▸ hto

theorem sessions_setRemote {s : State n} (h : Inv s) {p : Fin n} {i : Slot} {r : Nat}
    (hp : s.place p=.linking i r) :
    Conserved (cells (s.goes p (.readying i) i {s.table i with remote := some r}))
      (· < s.opened) := by
  have hm : (s.place p).mounting=some i := by rw [hp]; rfl
  have hnone : (s.table i).remote=none :=
    (h.fresh p i hm).unlinked (by rw [hp]; exact fun hc => by cases hc)
  have hto := h.sessions.move (x := r) (a := .call p) (b := .entry i) (l := [])
    (fun hc => by cases hc) (by rw [cells,hp]; rfl)
  have hentry : cells s (.entry i)=[] := by rw [cells,hnone]; rfl
  rw [hentry,Function.update_comm (fun hc => by cases hc)] at hto
  exact (cells_open s p (.readying i) i {s.table i with remote := some r} s.opened) ▸ hto

theorem Change.inv {s s' : State n} {p : Fin n} {a : Act} (hn : n < 65536) (h : Inv s)
    (c : Change s p a s') : Inv s' := by
  cases c with
  | get hp hu hr hd =>
    refine h.goes (o := s.opened) (c := s.closed) (fits_take h hn hp rfl rfl hu hr hd
      (fun hd' => ?_) (fun _ _ => Place.noConfusion) fun _ => Place.noConfusion)
      (sessions_same h rfl (by rw [hp]; rfl))
    exact absurd (hd.symm.trans hd') Bool.noConfusion
  | @put i hp hl =>
    have hr : (s.place p).ref=some i := by obtain hp | hp := hp <;> rw [hp] <;> rfl
    refine h.goes (o := s.opened) (c := s.closed) (fits_drop h hr rfl rfl (.inr ⟨rfl,hl⟩)
      (fun _ _ => Place.noConfusion) fun _ => Place.noConfusion) (sessions_same h rfl ?_)
    obtain hp | hp := hp <;> rw [hp] <;> rfl
  | @last i w hp hd hu hw =>
    have hr : (s.place p).ref=some i := by obtain hp | hp := hp <;> rw [hp] <;> rfl
    have hs : (s.place p).session=none := by obtain hp | hp := hp <;> rw [hp] <;> rfl
    have hsess := sessions_last h (i := i) hs
    rw [← hw] at hsess
    refine h.goes (o := s.opened) (c := s.closed) (fits_drop h hr ?_ ?_ (.inl ⟨rfl,hd,hu⟩) ?_ ?_)
      hsess
    all_goals rw [hw]; cases (s.table i).remote
    all_goals first | rfl | exact fun _ _ => Place.noConfusion | exact fun _ => Place.noConfusion
  | close i hp =>
    exact h.goes (o := s.opened) (c := _::s.closed) (fits_ready h (.inl rfl) (by rw [hp]; rfl) rfl
      (fun _ _ hq => by cases hq) fun _ hq => (by cases hq)) (sessions_close h hp)
  | mount hp hu hna =>
    refine h.goes (o := s.opened) (c := s.closed) (fits_mount h hp hu hna)
      (sessions_same h ?_ (by rw [hp]; rfl))
    rw [h.zero _ hu]
  | @refused i hp =>
    have hm : (s.place p).mounting=some i := by rw [hp]; rfl
    have hnone := (h.fresh p i hm).unlinked (by rw [hp]; exact Place.noConfusion)
    exact h.goes (o := s.opened) (c := s.closed) (fits_refused h hp)
      (sessions_same h hnone.symm (by rw [hp]; rfl))
  | @opened i hp =>
    have hm : (s.place p).mounting=some i := by rw [hp]; rfl
    have hnone := (h.fresh p i hm).unlinked (by rw [hp]; exact Place.noConfusion)
    exact h.goes (o := s.opened+1) (c := s.closed) (fits_fill h hm rfl fun _ => hnone)
      (sessions_opened h hp)
  | @setKind i r hp =>
    have hm : (s.place p).mounting=some i := by rw [hp]; rfl
    have hnone := (h.fresh p i hm).unlinked (by rw [hp]; exact Place.noConfusion)
    exact h.goes (o := s.opened) (c := s.closed) (fits_fill h hm rfl fun _ => hnone)
      (sessions_same h rfl (by rw [hp]; rfl))
  | @setRemote i r hp =>
    have hm : (s.place p).mounting=some i := by rw [hp]; rfl
    exact h.goes (o := s.opened) (c := s.closed) (fits_fill h hm rfl fun hc => absurd rfl hc)
      (sessions_setRemote h hp)
  | @ready i hp =>
    have hm : (s.place p).mounting=some i := by rw [hp]; rfl
    have hlive := (h.fresh p i hm).live
    rw [Mount.live,Bool.and_eq_true] at hlive
    exact h.goes (o := s.opened) (c := s.closed) (fits_ready h
      (.inr ⟨hlive.1,fun q hq hm' => hq (h.single q p i hm' hm)⟩) (by rw [hp]; rfl) rfl
      (fun _ _ hq => by cases hq) fun _ hq => (by cases hq))
      (sessions_same h rfl (by rw [hp]; rfl))
  | unmount hp hu hr hd hk =>
    exact h.goes (o := s.opened) (c := s.closed) (fits_take h hn hp rfl rfl hu hr hd (fun _ => hk)
      (fun _ _ => Place.noConfusion) fun _ => Place.noConfusion)
      (sessions_same h rfl (by rw [hp]; rfl))
  | @format i q hp hq hi =>
    have hr : (s.place p).ref=some i := by rw [hp]; rfl
    refine h.goes (o := s.opened) (c := s.closed) (fits_ready h
      (.inr ⟨(h.ref_inUse hr).1,fun q _ => h.not_mounting hr⟩) (by rw [hp]; rfl) rfl
      (fun a b hab => ?_) fun _ hq => by cases hq) (sessions_same h rfl (by rw [hp]; rfl))
    cases hab
    exact hi b rfl
  | @formatted i q hp hi =>
    have hr : (s.place p).ref=some i := by rw [hp]; rfl
    exact h.goes (o := s.opened) (c := s.closed) (fits_ready h
      (.inr ⟨(h.ref_inUse hr).1,fun q _ => h.not_mounting hr⟩) (by rw [hp]; rfl) rfl
      (fun _ _ hq => by cases hq) fun _ hq => (by cases hq))
      (sessions_same h rfl (by rw [hp]; rfl))
  | replace hp hq hi =>
    refine h.goes (o := s.opened) (c := s.closed) (fits_ready h (.inr h.ram0_kept)
      (by rw [hp]; rfl) rfl (fun _ _ hq => by cases hq) fun b hb => ?_)
      (sessions_same h rfl (by rw [hp]; rfl))
    cases hb
    exact hi b rfl
  | replaced hp hi =>
    exact h.goes (o := s.opened) (c := s.closed) (fits_ready h (.inr h.ram0_kept)
      (by rw [hp]; rfl) rfl (fun _ _ hq => by cases hq) fun _ hq => (by cases hq))
      (sessions_same h rfl (by rw [hp]; rfl))

end LugalOS.Vfs
