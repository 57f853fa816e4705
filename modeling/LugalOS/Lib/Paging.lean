import Mathlib.Data.List.Basic

namespace LugalOS.Paging

variable {α β : Type} {enc : α → Option (List β)}

/-- A page of at most cap over the items left: it passes the first k, holds what they encode to (an
item without encoding takes no room), and the next item does not fit any more. -/
structure Fills (enc : α → Option (List β)) (cap : ℕ) (items : List α) (k : ℕ)
    (part : List (List β)) : Prop where
  le : k ≤ items.length
  holds : part=(items.take k).filterMap enc
  fits : part.flatten.length≤cap
  full : ∀x,items[k]?=some x → ∃b,enc x=some b ∧ cap < part.flatten.length+b.length

theorem Fills.done {cap k : ℕ} {items : List α} {part : List (List β)}
    (h : Fills enc cap items k part) (hroom : ∀x∈items,∀b,enc x=some b → b.length≤cap)
    (hpart : part=[]) : k=items.length := by
  by_contra hne
  have hlt : k < items.length := Nat.lt_of_le_of_ne h.le hne
  obtain ⟨b,hb,hcap⟩ := h.full items[k] (List.getElem?_eq_getElem hlt)
  have hle := hroom _ (List.getElem_mem hlt) b hb
  rw [hpart] at hcap
  simp only [List.flatten_nil,List.length_nil,Nat.zero_add] at hcap
  omega

theorem Fills.pos {cap k : ℕ} {items : List α} {part : List (List β)}
    (h : Fills enc cap items k part) (hpart : part≠[]) : 0 < k := by
  rcases Nat.eq_zero_or_pos k with hk | hk
  · rw [h.holds,hk] at hpart
    exact absurd rfl hpart
  · exact hk

/-- Pages one behind the other, from the item at pos on. -/
inductive Pages (enc : α → Option (List β)) (items : List α) : ℕ → List (ℕ×List (List β)) → Prop
  | nil (pos : ℕ) : Pages enc items pos []
  | cons {pos cap k : ℕ} {part : List (List β)} {rest : List (ℕ×List (List β))} :
    Fills enc cap (items.drop pos) k part → Pages enc items (pos+k) rest →
    Pages enc items pos ((cap,part)::rest)

variable {items : List α} {pos : ℕ} {ps : List (ℕ×List (List β))}

theorem Pages.fits (h : Pages enc items pos ps) : ∀p∈ps,p.2.flatten.length≤p.1 := by
  induction h with
  | nil => simp
  | cons hfill _ ih =>
    intro p hp
    rcases List.mem_cons.mp hp with rfl | hp
    · exact hfill.fits
    · exact ih p hp

theorem Pages.mem (h : Pages enc items pos ps) : ∀p∈ps,∀b∈p.2,b∈items.filterMap enc := by
  induction h with
  | nil => simp
  | cons hfill _ ih =>
    intro p hp b hb
    rcases List.mem_cons.mp hp with rfl | hp
    · rw [hfill.holds,List.mem_filterMap] at hb
      obtain ⟨x,hx,hxb⟩ := hb
      exact List.mem_filterMap.mpr ⟨x,List.mem_of_mem_drop (List.mem_of_mem_take hx),hxb⟩
    · exact ih p hp b hb

theorem Pages.exact (h : Pages enc items pos ps)
    (hroom : ∀p∈ps,∀x∈items,∀b,enc x=some b → b.length≤p.1) {j : ℕ} {cap : ℕ}
    (hj : ps[j]?=some (cap,[])) :
    ((ps.take j).map Prod.snd).flatten=(items.drop pos).filterMap enc := by
  induction h generalizing j with
  | nil => simp at hj
  | @cons pos cap' k part rest hfill hrest ih =>
    cases j with
    | zero =>
      obtain ⟨rfl,rfl⟩ : cap'=cap ∧ part=[] := by simpa using hj
      have hk := hfill.done (fun x hx => hroom _ List.mem_cons_self x (List.mem_of_mem_drop hx)) rfl
      have hholds := hfill.holds
      rw [hk,List.take_length] at hholds
      simpa using hholds
    | succ j =>
      have hj' : rest[j]?=some (cap,[]) := by simpa using hj
      rw [List.take_succ_cons,List.map_cons,List.flatten_cons,
        ih (fun p hp => hroom p (List.mem_cons_of_mem _ hp)) hj',hfill.holds,
        ← List.filterMap_append,← List.drop_drop,List.take_append_drop]

theorem Pages.bounded (h : Pages enc items pos ps) (hfull : ∀p∈ps,p.2≠[]) :
    ps.length ≤ items.length-pos := by
  induction h with
  | nil => simp
  | cons hfill _ ih =>
    have hpos := hfill.pos (hfull _ List.mem_cons_self)
    have hle := hfill.le
    have hrest := ih fun p hp => hfull p (List.mem_cons_of_mem _ hp)
    rw [List.length_drop] at hle
    rw [List.length_cons]
    omega

end LugalOS.Paging
