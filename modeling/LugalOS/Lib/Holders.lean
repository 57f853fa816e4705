import Mathlib.Data.Fintype.Card

namespace LugalOS.Holders

open Function (update)

variable {π κ : Type} [Fintype π] [DecidableEq κ]

/-- The parties that hold a reference to k, where each party holds at most one. -/
def holders (held : π → Option κ) (k : κ) : Finset π := Finset.univ.filter fun p => held p=some k

def count (held : π → Option κ) (k : κ) : Nat := (holders held k).card

variable {held : π → Option κ} {p : π} {k : κ} {w : Option κ}

@[simp] theorem mem_holders : p∈holders held k ↔ held p=some k := by simp [holders]

theorem count_pos (h : held p=some k) : 0<count held k :=
  Finset.card_pos.2 ⟨p,mem_holders.2 h⟩

theorem count_lt (h : held p≠some k) : count held k<Fintype.card π :=
  Finset.card_lt_univ_of_notMem fun hm => h (mem_holders.1 hm)

theorem count_eq_zero_iff : count held k=0 ↔ ∀p,held p≠some k := by
  rw [count,Finset.card_eq_zero,Finset.eq_empty_iff_forall_notMem]
  simp only [mem_holders,ne_eq]

variable [DecidableEq π]

theorem count_take (h : held p≠some k) : count (update held p (some k)) k=count held k+1 := by
  have hins : holders (update held p (some k)) k=insert p (holders held k) := by
    ext q
    by_cases hq : q=p
    · subst hq; simp
    · simp [hq]
  rw [count,hins,Finset.card_insert_of_notMem (mt mem_holders.1 h),count]

theorem count_drop (h : held p=some k) (hw : w≠some k) :
    count (update held p w) k+1=count held k := by
  have hback : update (update held p w) p (some k)=held := by
    rw [Function.update_idem,← h,Function.update_eq_self]
  have hnone : update held p w p≠some k := by rw [Function.update_self]; exact hw
  have := count_take hnone
  rw [hback] at this
  exact this.symm

theorem count_other (h : held p=some k ↔ w=some k) : count (update held p w) k=count held k := by
  have hsame : holders (update held p w) k=holders held k := by
    ext q
    by_cases hq : q=p
    · subst hq; simp [h]
    · simp [hq]
  rw [count,hsame,count]

end LugalOS.Holders
