import Mathlib.Data.List.Induction
import Mathlib.Data.Prod.Basic

namespace LugalOS.Precedence

variable {α : Type*} {x y : α} {l m : List α}

/-- x is in the history, and y not before it. -/
def Leads (x y : α) (l : List α) : Prop := ∃u v,l=u++x::v ∧ y∉u

theorem Leads.mem (h : Leads x y l) : x∈l := by
  obtain ⟨u,v,rfl,-⟩ := h
  simp

theorem not_leads_nil : ¬Leads x y [] := fun h => by simpa using h.mem

theorem Leads.append (h : Leads x y l) (m : List α) : Leads x y (l++m) := by
  obtain ⟨u,v,rfl,hy⟩ := h
  exact ⟨u,v++m,by simp,hy⟩

theorem leads_snoc {z : α} :
    Leads x y (l++[z]) ↔ Leads x y l ∨ x=z ∧ y∉l := by
  constructor
  · rintro ⟨u,v,heq,hy⟩
    rcases List.eq_nil_or_concat v with rfl | ⟨v,z,rfl⟩
    · obtain ⟨rfl,hlast⟩ := List.append_inj' heq rfl
      exact .inr ⟨(List.singleton_inj.mp hlast).symm,hy⟩
    · refine .inl ⟨u,v,?_,hy⟩
      rw [List.concat_eq_append,← List.cons_append,← List.append_assoc] at heq
      exact (List.append_inj' heq rfl).1
  · rintro (h | ⟨rfl,hy⟩)
    · exact h.append _
    · exact ⟨l,[],rfl,hy⟩

theorem leads_or (h : x∈l) : Leads x y l ∨ Leads y x l := by
  induction l using List.reverseRecOn with
  | nil => simp at h
  | append_singleton l z ih =>
    rw [leads_snoc,leads_snoc]
    by_cases hl : x∈l
    · rcases ih hl with h | h
      · exact .inl (.inl h)
      · exact .inr (.inl h)
    · have hz : x=z := by simpa [hl] using h
      by_cases hy : y∈l
      · obtain ⟨u,v,rfl⟩ := List.append_of_mem hy
        exact .inr (.inl ⟨u,v,rfl,fun hu => hl (by simp [hu])⟩)
      · exact .inl (.inr ⟨hz,hy⟩)

variable [DecidableEq α]

/-- A pair is taken in unless it or its inverse is known. -/
def learn (known : List (α×α)) (p : α×α) : List (α×α) :=
  if p.swap∈known ∨ p∈known then known else known++[p]

theorem mem_learn {known : List (α×α)} {p q : α×α} :
    p∈learn known q ↔ p∈known ∨ p=q ∧ q.swap∉known := by
  unfold learn
  split
  · rename_i h
    constructor
    · exact .inl
    · rintro (hp | ⟨rfl,hs⟩)
      · exact hp
      · exact h.resolve_left hs
  · rename_i h
    rw [not_or] at h
    simp [h.1]

theorem mem_foldl_learn {l : List (α×α)} (hl : ∀p∈l,p.1≠p.2) {p : α×α} (hp : p.1≠p.2) :
    p∈l.foldl learn [] ↔ Leads p p.swap l := by
  induction l using List.reverseRecOn generalizing p with
  | nil => simp [not_leads_nil]
  | append_singleton l q ih =>
    have hih : ∀{p : α×α},p.1≠p.2 → (p∈l.foldl learn [] ↔ Leads p p.swap l) :=
      ih fun p h => hl p (by simp [h])
    rw [List.foldl_append,List.foldl_cons,List.foldl_nil,mem_learn,leads_snoc,hih hp]
    constructor
    · rintro (h | ⟨rfl,hs⟩)
      · exact .inl h
      · by_cases hmem : p.swap∈l
        · have hne : p.swap.1≠p.swap.2 := hp.symm
          rcases leads_or hmem with h | h
          · exact absurd ((hih hne).mpr h) hs
          · rw [Prod.swap_swap] at h
            exact .inl h
        · exact .inr ⟨rfl,hmem⟩
    · rintro (h | ⟨rfl,hs⟩)
      · exact .inl h
      · refine .inr ⟨rfl,fun hk => hs ?_⟩
        have hne : p.swap.1≠p.swap.2 := hp.symm
        exact ((hih hne).mp hk).mem

end LugalOS.Precedence
