import Mathlib.Data.List.Nodup

namespace LugalOS.Links

variable {α : Type*} {next next' : α → Option α} {p : Option α} {x : α} {l m : List α}

/-- From p the links lead through the cells of l to the end. -/
def Linked (next : α → Option α) : Option α → List α → Prop
  | p,[] => p=none
  | p,x::l => p=some x ∧ Linked next (next x) l

theorem Linked.head (h : Linked next p l) : p=l.head? := by
  cases l with
  | nil => exact h
  | cons x l => exact h.1

theorem Linked.congr (h : Linked next p l) (hn : ∀x∈l,next' x=next x) : Linked next' p l := by
  induction l generalizing p with
  | nil => exact h
  | cons x l ih =>
    refine ⟨h.1,?_⟩
    rw [hn x List.mem_cons_self]
    exact ih h.2 fun y hy => hn y (List.mem_cons_of_mem _ hy)

theorem Linked.push (h : Linked next p l) (hx : next' x=p) (hn : ∀y∈l,next' y=next y) :
    Linked next' (some x) (x::l) :=
  ⟨rfl,hx.symm ▸ h.congr hn⟩

theorem Linked.after {a : List α} (h : Linked next p (a++x::l)) :
    Linked next (some x) (x::l) := by
  induction a generalizing p with
  | nil => exact ⟨rfl,h.2⟩
  | cons y a ih => exact ih h.2

theorem Linked.snoc {t : α} (h : Linked next p l) (hd : l.Nodup) (ht : l.getLast?=some t)
    (hx : next' t=some x) (he : next' x=none) (hn : ∀y∈l,y≠t → next' y=next y) :
    Linked next' p (l++[x]) := by
  induction l generalizing p with
  | nil => cases ht
  | cons y l ih =>
    refine ⟨h.1,?_⟩
    cases l with
    | nil =>
      obtain rfl : y=t := Option.some.inj ht
      exact ⟨hx,he⟩
    | cons z l =>
      have hyt : y≠t := by
        rintro rfl
        rw [List.getLast?_cons_cons] at ht
        exact (List.nodup_cons.mp hd).1 (List.mem_of_getLast? ht)
      rw [hn y List.mem_cons_self hyt]
      rw [List.getLast?_cons_cons] at ht
      exact ih h.2 (List.nodup_cons.mp hd).2 ht fun w hw => hn w (List.mem_cons_of_mem _ hw)

theorem Linked.without {a b : List α} (h : Linked next p (a++x::b)) (hd : (a++x::b).Nodup)
    (ha : ∀t,a.getLast?=some t → next' t=next x)
    (hn : ∀y∈a++b,a.getLast?≠some y → next' y=next y) :
    Linked next' (if a=[] then next x else p) (a++b) := by
  induction a generalizing p with
  | nil =>
    rw [if_pos rfl]
    exact h.2.congr fun y hy => hn y hy (by simp)
  | cons y a ih =>
    rw [if_neg (List.cons_ne_nil _ _)]
    refine ⟨h.1,?_⟩
    have hd' : (a++x::b).Nodup := (List.nodup_cons.mp hd).2
    cases a with
    | nil =>
      rw [ha y rfl]
      refine (h.2.2).congr fun z hz => hn z (List.mem_cons_of_mem _ hz) ?_
      rintro he
      obtain rfl : y=z := Option.some.inj he
      exact (List.nodup_cons.mp hd).1 (List.mem_cons_of_mem _ hz)
    | cons z a =>
      have hy : (y::z::a).getLast?≠some y := by
        intro he
        rw [List.getLast?_cons_cons] at he
        exact (List.nodup_cons.mp hd).1 (List.mem_append_left _ (List.mem_of_getLast? he))
      rw [hn y List.mem_cons_self hy]
      have := ih h.2 hd' (fun t ht => ha t (by rwa [List.getLast?_cons_cons]))
        (fun w hw hl => hn w (List.mem_cons_of_mem _ hw) (by rwa [List.getLast?_cons_cons]))
      rwa [if_neg (List.cons_ne_nil _ _)] at this

end LugalOS.Links

namespace LugalOS.Linked

/-- What a node points to: the end, nothing that is a node, or the next node. -/
inductive Link (α : Type*)
  | stop
  | broken
  | to (a : α)

variable {α : Type*} {next : α → Link α}

/-- The nodes of a structure that ends: each points to the one behind it, the last to the end. -/
def Ends (next : α → Link α) : List α → Prop
  | [] => False
  | [a] => next a=.stop
  | a::b::l => next a=.to b ∧ Ends next (b::l)

theorem Ends.unique {a : α} {l l' : List α} (h : Ends next (a::l)) (h' : Ends next (a::l')) :
    l=l' := by
  induction l generalizing a l' with
  | nil =>
    cases l' with
    | nil => rfl
    | cons b l' =>
      have heq := Eq.trans h.symm h'.1
      cases heq
  | cons b l ih =>
    cases l' with
    | nil =>
      have heq := Eq.trans h'.symm h.1
      cases heq
    | cons c l' =>
      have heq : b=c := by
        have hto := h.1.symm.trans h'.1
        cases hto
        rfl
      subst heq
      rw [ih h.2 h'.2]

theorem Ends.suffix {l l' : List α} {a : α} (h : Ends next (l++a::l')) : Ends next (a::l') := by
  induction l with
  | nil => exact h
  | cons b l ih =>
    cases l with
    | nil => exact h.2
    | cons c l => exact ih h.2

theorem Ends.nodup {l : List α} (h : Ends next l) : l.Nodup := by
  induction l with
  | nil => exact List.nodup_nil
  | cons a l ih =>
    refine List.nodup_cons.mpr ⟨fun hm => ?_,?_⟩
    · obtain ⟨x,y,rfl⟩ := List.append_of_mem hm
      have hback : Ends next (a::y) := Ends.suffix (l := a::x) h
      have hlen := congrArg List.length (h.unique hback)
      rw [List.length_append,List.length_cons] at hlen
      omega
    · cases l with
      | nil => exact List.nodup_nil
      | cons b l => exact ih h.2

theorem Ends.congr {next' : α → Link α} {l : List α} (hn : ∀a∈l,next' a=next a)
    (h : Ends next l) : Ends next' l := by
  induction l with
  | nil => exact h
  | cons a l ih =>
    cases l with
    | nil => exact (hn a List.mem_cons_self).trans h
    | cons b l =>
      exact ⟨(hn a List.mem_cons_self).trans h.1,
        ih (fun x hx => hn x (List.mem_cons_of_mem a hx)) h.2⟩

theorem Ends.not_broken {l : List α} (h : Ends next l) : ∀a∈l,next a≠.broken := by
  induction l with
  | nil => exact h.elim
  | cons a l ih =>
    intro x hx hb
    cases l with
    | nil =>
      rw [List.mem_singleton.mp hx] at hb
      have heq := Eq.trans h.symm hb
      cases heq
    | cons b l =>
      rcases List.mem_cons.mp hx with rfl | hx
      · have heq := h.1.symm.trans hb
        cases heq
      · exact ih h.2 x hx hb

theorem Ends.concat {next' : α → Link α} {l : List α} {a b : α} (h : Ends next (l++[a]))
    (hl : ∀x∈l,next' x=next x) (ha : next' a=.to b) (hb : next' b=.stop) :
    Ends next' (l++[a]++[b]) := by
  induction l with
  | nil => exact ⟨ha,hb⟩
  | cons c l ih =>
    have hi := fun h' => ih h' fun x hx => hl x (List.mem_cons_of_mem c hx)
    have hc := hl c List.mem_cons_self
    cases l with
    | nil | cons d l => exact ⟨hc.trans h.1,hi h.2⟩

end LugalOS.Linked
