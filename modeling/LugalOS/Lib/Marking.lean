import Mathlib.Data.Finset.Card

/-! Marking what can be reached: a thing is marked when it is met, and what it refers to is met
when its turn comes. -/

namespace LugalOS.Marking

/-- What each thing refers to, in the order it is met. A leaf refers to nothing and gets no turn. -/
structure Graph (V : Type*) where
  succ : V → List V
  leaf : V → Bool

structure Work (V : Type*) where
  marked : V → Bool
  todo : List V

variable {V : Type*} [DecidableEq V] (g : Graph V) (frozen : V → Bool) (roots : List V)

def push (w : Work V) (v : V) : Work V :=
  if w.marked v then w
  else ⟨Function.update w.marked v true,if g.leaf v then w.todo else v::w.todo⟩

/-- What the roots lead to. A frozen thing is not looked into. -/
inductive Reach : V → Prop
  | root {v} : v∈roots → Reach v
  | next {v u} : Reach v → frozen v=false → u∈g.succ v → Reach u

/-- While pend is still to be met, roots and the successors of what has had its turn are marked. -/
structure Inv (pend : List V) (w : Work V) : Prop where
  kept : ∀v,frozen v=true → w.marked v=true
  sound : ∀v,w.marked v=true → frozen v=true ∨ Reach g frozen roots v
  todo : ∀v∈w.todo,w.marked v=true ∧ frozen v=false ∧ g.leaf v=false
  nodup : w.todo.Nodup
  met : ∀v∈roots,w.marked v=true ∨ v∈pend
  closed : ∀v,w.marked v=true → frozen v=false → g.leaf v=false → v∉w.todo →
    ∀u∈g.succ v,w.marked u=true ∨ u∈pend

variable {g frozen roots}
variable {w : Work V} {pend : List V} {v : V}

theorem push_marked (u : V) : (push g w v).marked u=true ↔ u=v ∨ w.marked u=true := by
  rw [push]
  split
  · next h =>
    constructor
    · exact .inr
    · rintro (rfl|h')
      · exact h
      · exact h'
  · by_cases hu : u=v
    · simp [hu]
    · simp [hu]

theorem push_todo : (push g w v).todo=
    if w.marked v=true ∨ g.leaf v=true then w.todo else v::w.todo := by
  rw [push]
  by_cases hm : w.marked v=true
  · simp [hm]
  · by_cases hl : g.leaf v=true <;> simp [hm,hl]

omit [DecidableEq V] in
theorem inv_init : Inv g frozen roots roots ⟨frozen,[]⟩ where
  kept _ h := h
  sound _ h := .inl h
  todo _ h := by cases h
  nodup := List.nodup_nil
  met _ h := .inr h
  closed v h hf := by
    rw [show frozen v=true from h] at hf
    cases hf

theorem Inv.push (h : Inv g frozen roots (v::pend) w) (hv : Reach g frozen roots v) :
    Inv g frozen roots pend (push g w v) := by
  have hcase : ∀u,u∈v::pend → (Marking.push g w v).marked u=true ∨ u∈pend := by
    intro u hu
    rcases List.mem_cons.mp hu with rfl|hu
    · exact .inl ((push_marked u).mpr (.inl rfl))
    · exact .inr hu
  have hkeep : ∀u,w.marked u=true → (Marking.push g w v).marked u=true :=
    fun u hu => (push_marked u).mpr (.inr hu)
  constructor
  · exact fun u hu => hkeep u (h.kept u hu)
  · intro u hu
    rcases (push_marked u).mp hu with rfl|hu
    · exact .inr hv
    · exact h.sound u hu
  · intro u hu
    rw [push_todo] at hu
    split at hu
    · obtain ⟨hm,hr⟩ := h.todo u hu
      exact ⟨hkeep u hm,hr⟩
    · next hn =>
      rw [not_or] at hn
      rcases List.mem_cons.mp hu with rfl|hu
      · refine ⟨(push_marked u).mpr (.inl rfl),?_,Bool.eq_false_iff.mpr hn.2⟩
        exact Bool.eq_false_iff.mpr fun hf => hn.1 (h.kept u hf)
      · obtain ⟨hm,hr⟩ := h.todo u hu
        exact ⟨hkeep u hm,hr⟩
  · rw [push_todo]
    split
    · exact h.nodup
    · next hn =>
      rw [not_or] at hn
      exact List.nodup_cons.mpr ⟨fun hm => hn.1 (h.todo v hm).1,h.nodup⟩
  · intro u hu
    rcases h.met u hu with hm|hp
    · exact .inl (hkeep u hm)
    · exact hcase u hp
  · intro u hm hf hl hn x hx
    rw [push_todo] at hn
    have hold : w.marked u=true := by
      rcases (push_marked u).mp hm with rfl|hm
      · by_contra hc
        rw [if_neg (by simp [hc,hl])] at hn
        exact hn List.mem_cons_self
      · exact hm
    have hnot : u∉w.todo := by
      intro ht
      split at hn
      · exact hn ht
      · exact hn (List.mem_cons_of_mem _ ht)
    rcases h.closed u hold hf hl hnot x hx with hx|hx
    · exact .inl (hkeep x hx)
    · exact hcase x hx

omit [DecidableEq V] in
theorem Inv.reach (h : Inv g frozen roots pend w) (hv : v∈w.todo) : Reach g frozen roots v := by
  obtain ⟨hm,hf,_⟩ := h.todo v hv
  rcases h.sound v hm with hc|hr
  · rw [hc] at hf
    cases hf
  · exact hr

theorem Inv.pop {rest : List V} (h : Inv g frozen roots [] w) (ht : w.todo=v::rest) :
    Inv g frozen roots (g.succ v) ⟨w.marked,rest⟩ ∧
      ∀u∈g.succ v,Reach g frozen roots u := by
  have hv : v∈w.todo := by rw [ht]; exact List.mem_cons_self
  have hn := h.nodup
  rw [ht,List.nodup_cons] at hn
  constructor
  · constructor
    · exact h.kept
    · exact h.sound
    · intro u hu
      exact h.todo u (by rw [ht]; exact List.mem_cons_of_mem _ hu)
    · exact hn.2
    · intro u hu
      rcases h.met u hu with hm|hp
      · exact .inl hm
      · cases hp
    · intro u hm hf hl hu x hx
      by_cases huv : u=v
      · rw [huv] at hx
        exact .inr hx
      · have hnu : u∉w.todo := by
          rw [ht,List.mem_cons,not_or]
          exact ⟨huv,hu⟩
        rcases h.closed u hm hf hl hnu x hx with hx|hx
        · exact .inl hx
        · cases hx
  · exact fun u hu => (h.reach hv).next (h.todo v hv).2.1 hu

omit [DecidableEq V] in
theorem Inv.done (h : Inv g frozen roots [] w) (ht : w.todo=[])
    (hl : ∀v,g.leaf v=true → g.succ v=[]) (v : V) :
    w.marked v=true ↔ frozen v=true ∨ Reach g frozen roots v := by
  constructor
  · exact h.sound v
  · rintro (hf|hr)
    · exact h.kept v hf
    · induction hr with
      | root hv =>
        rcases h.met _ hv with hm|hp
        · exact hm
        · cases hp
      | @next v u hv hf hu ih =>
        have hlf : g.leaf v=false := by
          by_contra hc
          rw [hl v (Bool.not_eq_false _ ▸ hc)] at hu
          cases hu
        rcases h.closed v ih hf hlf (by rw [ht]; exact List.not_mem_nil) u hu with hm|hp
        · exact hm
        · cases hp

section Bound

variable (s : Finset V)

/-- What is left: turns to come, and things that may still get one. -/
def left (w : Work V) : Nat := (s.filter fun v => w.marked v=false).card+w.todo.length

variable {s}

theorem Inv.room (h : Inv g frozen roots pend w) (hs : ∀v∈w.todo,v∈s) (hv : v∈s)
    (hm : w.marked v=false) : w.todo.length < s.card := by
  have hnd : (v::w.todo).Nodup := by
    refine List.nodup_cons.mpr ⟨?_,h.nodup⟩
    intro ht
    rw [(h.todo v ht).1] at hm
    cases hm
  have hsub : (v::w.todo).toFinset⊆s := by
    intro u hu
    rw [List.mem_toFinset,List.mem_cons] at hu
    rcases hu with rfl|hu
    · exact hv
    · exact hs u hu
  have hc := Finset.card_le_card hsub
  rw [List.toFinset_card_of_nodup hnd,List.length_cons] at hc
  omega

theorem push_left (hv : v∈s ∨ g.leaf v=true) : left s (push g w v)≤left s w := by
  by_cases hm : w.marked v=true
  · rw [push,if_pos hm]
  have hle : (s.filter fun u => (push g w v).marked u=false)⊆
      s.filter fun u => w.marked u=false := by
    intro u hu
    rw [Finset.mem_filter] at hu ⊢
    refine ⟨hu.1,Bool.eq_false_iff.mpr ?_⟩
    intro hu'
    rw [(push_marked u).mpr (.inr hu')] at hu
    cases hu.2
  rw [left,left,push_todo]
  by_cases hl : g.leaf v=true
  · rw [if_pos (.inr hl)]
    exact Nat.add_le_add_right (Finset.card_le_card hle) _
  · have hvs : v∈s := hv.resolve_right hl
    rw [if_neg (by simp [hm,hl]),List.length_cons]
    have hlt : (s.filter fun u => (push g w v).marked u=false)⊂
        s.filter fun u => w.marked u=false := by
      refine Finset.ssubset_iff_of_subset hle |>.mpr ⟨v,?_,?_⟩
      · exact Finset.mem_filter.mpr ⟨hvs,Bool.eq_false_iff.mpr hm⟩
      · rw [Finset.mem_filter,(push_marked v).mpr (.inl rfl)]
        simp
    have := Finset.card_lt_card hlt
    omega

end Bound

end LugalOS.Marking
