import Mathlib.Data.Fintype.Card

namespace LugalOS.Walk

open Relation

variable {α : Type*} {next : α → Option α} {a b c : α}

def Edge (next : α → Option α) (a b : α) : Prop := next a=some b

abbrev Reaches (next : α → Option α) : α → α → Prop := ReflTransGen (Edge next)

def Acyclic (next : α → Option α) : Prop := ∀a,¬TransGen (Edge next) a a

def walk (next : α → Option α) : ℕ → α → Option α
  | 0,a => some a
  | k+1,a => (next a).bind (walk next k)

theorem walk_add (j k : ℕ) (a : α) :
    walk next (j+k) a=(walk next j a).bind (walk next k) := by
  induction j generalizing a with
  | zero => simp [walk]
  | succ j ih =>
    rw [Nat.add_right_comm]
    cases hn : next a with
    | none => simp [walk,hn]
    | some b => simp [walk,hn,ih]

theorem reaches_iff : Reaches next a b ↔ ∃k,walk next k a=some b := by
  constructor
  · intro h
    induction h using ReflTransGen.head_induction_on with
    | refl => exact ⟨0,rfl⟩
    | head he _ ih =>
      obtain ⟨k,hk⟩ := ih
      exact ⟨k+1,by simpa [walk,show next _=some _ from he] using hk⟩
  · rintro ⟨k,hk⟩
    induction k generalizing a with
    | zero =>
      have heq : a=b := by simpa [walk] using hk
      exact heq ▸ ReflTransGen.refl
    | succ k ih =>
      obtain ⟨c,hc,hk⟩ := Option.bind_eq_some_iff.mp hk
      exact ReflTransGen.head hc (ih hk)

theorem walk_cut {i j k : ℕ} (hjk : j≤k) (heq : walk next i a=walk next j a) :
    walk next (i+(k-j)) a=walk next k a := by
  rw [walk_add,heq,← walk_add,Nat.add_sub_cancel' hjk]

/-- What is reached at all is reached in fewer steps than there are nodes. -/
theorem Reaches.short [Fintype α] (h : Reaches next a b) :
    ∃k,k < Fintype.card α ∧ walk next k a=some b := by
  classical
  have hex := reaches_iff.mp h
  have hmin := Nat.find_spec hex
  refine ⟨Nat.find hex,?_,hmin⟩
  -- on a shortest walk no node comes twice, so that there are as many nodes as steps and one more
  have hsome : ∀i : Fin (Nat.find hex+1),∃c,walk next i a=some c := by
    intro i
    have hcut : walk next (i+(Nat.find hex-i)) a=some b := by
      rwa [Nat.add_sub_cancel' (Nat.le_of_lt_succ i.isLt)]
    rw [walk_add] at hcut
    obtain ⟨c,hc,_⟩ := Option.bind_eq_some_iff.mp hcut
    exact ⟨c,hc⟩
  choose node hnode using hsome
  have hinj : Function.Injective node := by
    intro i j heq
    have hsame : walk next i a=walk next j a := by rw [hnode,hnode,heq]
    by_contra hne
    rcases lt_or_gt_of_ne (fun h => hne (Fin.ext h)) with hlt | hlt
    · have hshort := walk_cut (Nat.le_of_lt_succ j.isLt) hsame
      exact Nat.find_min hex (by omega) (hshort.trans hmin)
    · have hshort := walk_cut (Nat.le_of_lt_succ i.isLt) hsame.symm
      exact Nat.find_min hex (by omega) (hshort.trans hmin)
  have hcard := Fintype.card_le_of_injective node hinj
  rw [Fintype.card_fin] at hcard
  exact hcard

variable [DecidableEq α]

theorem edge_update_of_ne {x : α} {o : Option α} (hne : a≠x) :
    Edge (Function.update next x o) a b ↔ Edge next a b := by
  simp [Edge,Function.update_of_ne hne]

theorem edge_update_self {x : α} {o : Option α} :
    Edge (Function.update next x o) x b ↔ o=some b := by
  simp [Edge]

theorem reaches_update {x : α} {o : Option α} :
    Reaches (Function.update next x o) a x ↔ Reaches next a x := by
  constructor
  · intro h
    induction h using ReflTransGen.head_induction_on with
    | refl => exact ReflTransGen.refl
    | @head c d he _ ih =>
      by_cases hc : c=x
      · exact hc ▸ ReflTransGen.refl
      · exact ReflTransGen.head ((edge_update_of_ne hc).mp he) ih
  · intro h
    induction h using ReflTransGen.head_induction_on with
    | refl => exact ReflTransGen.refl
    | @head c d he _ ih =>
      by_cases hc : c=x
      · exact hc ▸ ReflTransGen.refl
      · exact ReflTransGen.head ((edge_update_of_ne hc).mpr he) ih

theorem update_cases {x y : α} (h : TransGen (Edge (Function.update next x (some y))) a b) :
    TransGen (Edge next) a b ∨ Reaches (Function.update next x (some y)) a x ∧
      Reaches (Function.update next x (some y)) y b := by
  have hedge : ∀{c d : α},Edge (Function.update next x (some y)) c d →
      Edge next c d ∨ c=x ∧ d=y := by
    intro c d he
    by_cases hc : c=x
    · subst hc
      have heq : y=d := by simpa using edge_update_self.mp he
      exact .inr ⟨rfl,heq.symm⟩
    · exact .inl ((edge_update_of_ne hc).mp he)
  induction h with
  | single he =>
    rcases hedge he with he | ⟨rfl,rfl⟩
    · exact .inl (TransGen.single he)
    · exact .inr ⟨ReflTransGen.refl,ReflTransGen.refl⟩
  | @tail c d hc he ih =>
    rcases ih with ih | ⟨hx,hy⟩
    · rcases hedge he with he | ⟨rfl,rfl⟩
      · exact .inl (ih.tail he)
      · exact .inr ⟨hc.to_reflTransGen,ReflTransGen.refl⟩
    · exact .inr ⟨hx,hy.tail he⟩

theorem Acyclic.update {x y : α} (h : Acyclic next) (hr : ¬Reaches next y x) :
    Acyclic (Function.update next x (some y)) := by
  intro a hcycle
  rcases update_cases hcycle with hold | ⟨hx,hy⟩
  · exact h a hold
  · exact hr (reaches_update.mp (hy.trans hx))

theorem Acyclic.erase {x : α} (h : Acyclic next) : Acyclic (Function.update next x none) := by
  intro a hcycle
  have hedge : ∀c d,Edge (Function.update next x none) c d → Edge next c d := by
    intro c d he
    by_cases hc : c=x
    · subst hc
      exact absurd (edge_update_self.mp he) (by simp)
    · exact (edge_update_of_ne hc).mp he
  exact h a (TransGen.mono hedge a a hcycle)

end LugalOS.Walk
