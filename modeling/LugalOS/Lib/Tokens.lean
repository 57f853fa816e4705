import Mathlib.Data.List.Nodup
import Mathlib.Algebra.Order.Ring.Nat

namespace LugalOS.Tokens

open Function (update update_of_ne update_self)

variable {κ τ : Type} [DecidableEq τ]

/-- Every token that was issued lies in one cell, once, and nothing else lies in any. -/
def Conserved (cells : κ → List τ) (issued : τ → Prop) : Prop := ∃place : τ → κ,∀x c,
  (issued x ∧ place x=c → (cells c).count x=1) ∧ (¬(issued x ∧ place x=c) → (cells c).count x=0)

variable {cells : κ → List τ} {issued : τ → Prop}

theorem Conserved.issued_of_mem (h : Conserved cells issued) {x : τ} {c : κ} (hx : x∈cells c) :
    issued x := by
  obtain ⟨p,hp⟩ := h
  by_contra hn
  have := (hp x c).2 fun hi => hn hi.1
  exact List.count_eq_zero.1 this hx

theorem Conserved.unique (h : Conserved cells issued) {x : τ} {c d : κ} (hc : x∈cells c)
    (hd : x∈cells d) : c=d := by
  obtain ⟨p,hp⟩ := h
  have hat {e : κ} (he : x∈cells e) : p x=e := by
    by_contra hn
    exact List.count_eq_zero.1 ((hp x e).2 fun hi => hn hi.2) he
  rw [← hat hc,← hat hd]

theorem Conserved.nodup (h : Conserved cells issued) (c : κ) : (cells c).Nodup := by
  obtain ⟨p,hp⟩ := h
  rw [List.nodup_iff_count_le_one]
  intro x
  by_cases hx : issued x ∧ p x=c
  · rw [(hp x c).1 hx]
  · rw [(hp x c).2 hx]; exact Nat.zero_le 1

theorem Conserved.kept (h : Conserved cells issued) {x : τ} (hx : issued x) : ∃c,x∈cells c := by
  obtain ⟨p,hp⟩ := h
  refine ⟨p x,?_⟩
  rw [← List.count_pos_iff,(hp x (p x)).1 ⟨hx,rfl⟩]
  exact Nat.one_pos

variable [DecidableEq κ]

theorem Conserved.move (h : Conserved cells issued) {x : τ} {a b : κ} {l : List τ} (hab : a≠b)
    (ha : cells a=x::l) : Conserved (update (update cells a l) b (x::cells b)) issued := by
  have hx := h.issued_of_mem (x := x) (c := a) (by rw [ha]; exact List.mem_cons_self)
  obtain ⟨p,hp⟩ := h
  have hpx : p x=a := by
    by_contra hn
    have := (hp x a).2 fun hi => hn hi.2
    rw [ha,List.count_cons_self] at this
    exact absurd this (Nat.succ_ne_zero _)
  refine ⟨update p x b,fun y c => ?_⟩
  by_cases hyx : y=x
  · subst hyx
    rw [update_self]
    have hxa : (cells a).count y=1 := (hp y a).1 ⟨hx,hpx⟩
    rw [ha,List.count_cons_self] at hxa
    have hxb : (cells b).count y=0 := (hp y b).2 fun hi => hab (hpx.symm.trans hi.2)
    by_cases hcb : c=b
    · subst hcb
      rw [update_self,List.count_cons_self,hxb]
      exact ⟨fun _ => rfl,fun hn => absurd ⟨hx,rfl⟩ hn⟩
    · rw [update_of_ne hcb]
      refine ⟨fun hi => absurd hi.2.symm hcb,fun _ => ?_⟩
      by_cases hca : c=a
      · subst hca; rw [update_self]; omega
      · rw [update_of_ne hca]
        exact (hp y c).2 fun hi => hca (hi.2.symm.trans hpx)
  · rw [update_of_ne hyx]
    have hcount : (update (update cells a l) b (x::cells b) c).count y=(cells c).count y := by
      by_cases hcb : c=b
      · subst hcb; rw [update_self,List.count_cons_of_ne (Ne.symm hyx)]
      · rw [update_of_ne hcb]
        by_cases hca : c=a
        · subst hca; rw [update_self,ha,List.count_cons_of_ne (Ne.symm hyx)]
        · rw [update_of_ne hca]
    rw [hcount]
    exact hp y c

theorem Conserved.issue (h : Conserved cells issued) {x : τ} (hx : ¬issued x) (a : κ) {P : τ → Prop}
    (hP : ∀y,P y ↔ issued y ∨ y=x) : Conserved (update cells a (x::cells a)) P := by
  have hnone (c : κ) : (cells c).count x=0 := by
    rw [List.count_eq_zero]
    exact fun hm => hx (h.issued_of_mem hm)
  obtain ⟨p,hp⟩ := h
  refine ⟨update p x a,fun y c => ?_⟩
  rw [hP]
  by_cases hyx : y=x
  · subst hyx
    rw [update_self]
    by_cases hca : c=a
    · subst hca
      rw [update_self,List.count_cons_self,hnone]
      exact ⟨fun _ => rfl,fun hn => absurd ⟨.inr rfl,rfl⟩ hn⟩
    · rw [update_of_ne hca]
      exact ⟨fun hi => absurd hi.2.symm hca,fun _ => hnone c⟩
  · rw [update_of_ne hyx]
    have hcount : (update cells a (x::cells a) c).count y=(cells c).count y := by
      by_cases hca : c=a
      · subst hca; rw [update_self,List.count_cons_of_ne (Ne.symm hyx)]
      · rw [update_of_ne hca]
    rw [hcount]
    refine ⟨fun hi => (hp y c).1 ⟨hi.1.resolve_right hyx,hi.2⟩,fun hn => (hp y c).2 fun hi => ?_⟩
    exact hn ⟨.inl hi.1,hi.2⟩

end LugalOS.Tokens
