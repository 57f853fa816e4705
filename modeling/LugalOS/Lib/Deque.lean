import Mathlib.Data.List.Perm.Basic
import Mathlib.Data.List.Range

namespace LugalOS.Deque

variable {α : Type}

inductive Traffic (α : Type)
  | accept (a : α) (front : Bool)
  | deliver (a : α)

/-- What is inside: sent to the front and sent to the back, each with its number in the order of
acceptance. out is the numbers of those taken out, the last first. -/
structure Ledger (α : Type) where
  front : List (Nat×α)
  back : List (Nat×α)
  next : Nat
  out : List Nat

namespace Ledger

def start : Ledger α := ⟨[],[],0,[]⟩

def inside (l : Ledger α) : List (Nat×α) := l.front++l.back

def contents (l : Ledger α) : List α := l.inside.map Prod.snd

/-- None where what is taken out is not what stands first. -/
def step [DecidableEq α] (l : Ledger α) : Traffic α → Option (Ledger α)
  | .accept a true => some {l with front := (l.next,a)::l.front,next := l.next+1}
  | .accept a false => some {l with back := l.back++[(l.next,a)],next := l.next+1}
  | .deliver a =>
    match l.front,l.back with
    | x::f,_ => if x.2=a then some {l with front := f,out := x.1::l.out} else none
    | [],x::b => if x.2=a then some {l with back := b,out := x.1::l.out} else none
    | [],[] => none

def replay [DecidableEq α] : List (Traffic α) → Ledger α → Option (Ledger α)
  | [],l => some l
  | t::ts,l => (l.step t).bind (replay ts)

/-- Each number is inside or has been taken out, once. Inside, what was sent to the front stands
before what was sent to the back, the former last first and the latter first first. -/
structure Sound (l : Ledger α) : Prop where
  once : (l.out++l.inside.map Prod.fst).Perm (List.range l.next)
  fronts : (l.front.map Prod.fst).Pairwise (·>·)
  backs : (l.back.map Prod.fst).Pairwise (·<·)

theorem start_sound : (start : Ledger α).Sound := ⟨.refl _,.nil,.nil⟩

theorem Sound.lt {l : Ledger α} (h : l.Sound) {i : Nat} (hi : i∈l.inside.map Prod.fst) :
    i < l.next :=
  List.mem_range.mp (h.once.subset (List.mem_append_right _ hi))

variable [DecidableEq α] {l l' : Ledger α} {a : α}

theorem step_sound {t : Traffic α} (h : l.Sound) (ht : l.step t=some l') : l'.Sound := by
  obtain ⟨honce,hf,hb⟩ := h
  have hlt : ∀i∈l.inside.map Prod.fst,i < l.next := fun i hi => Sound.lt ⟨honce,hf,hb⟩ hi
  cases t with
  | accept a front =>
    cases front with
    | true =>
      obtain rfl := Option.some.inj ht
      refine ⟨?_,?_,hb⟩
      · rw [List.range_succ]
        change (l.out++l.next::l.inside.map Prod.fst).Perm _
        refine List.perm_middle.trans ?_
        exact (honce.cons l.next).trans (List.perm_append_singleton _ _).symm
      · refine List.Pairwise.cons ?_ hf
        intro i hi
        refine hlt i ?_
        rw [inside,List.map_append]
        exact List.mem_append_left _ hi
    | false =>
      obtain rfl := Option.some.inj ht
      refine ⟨?_,hf,?_⟩
      · rw [List.range_succ]
        change (l.out++(l.front++(l.back++[(l.next,a)])).map Prod.fst).Perm _
        rw [← List.append_assoc,List.map_append,← List.append_assoc]
        exact honce.append_right _
      · change ((l.back++[(l.next,a)]).map Prod.fst).Pairwise _
        rw [List.map_append,List.pairwise_append]
        refine ⟨hb,List.pairwise_singleton _ _,?_⟩
        intro i hi j hj
        rw [List.mem_singleton.mp hj]
        refine hlt i ?_
        rw [inside,List.map_append]
        exact List.mem_append_right _ hi
  | deliver a =>
    have hmove : ∀(i : Nat) (m : List Nat),(l.out++i::m).Perm (i::l.out++m) := fun i m =>
      List.perm_middle
    unfold step at ht
    dsimp only at ht
    cases hfr : l.front with
    | cons x f =>
      rw [hfr] at ht hf
      dsimp only at ht
      split_ifs at ht
      obtain rfl := Option.some.inj ht
      refine ⟨?_,hf.of_cons,hb⟩
      rw [inside,hfr] at honce
      exact (hmove _ _).symm.trans honce
    | nil =>
      rw [hfr] at ht
      cases hbk : l.back with
      | cons x b =>
        rw [hbk] at ht hb
        dsimp only at ht
        split_ifs at ht
        obtain rfl := Option.some.inj ht
        rw [inside,hfr,hbk] at honce
        exact ⟨(hmove _ _).symm.trans honce,.nil,hb.of_cons⟩
      | nil =>
        rw [hbk] at ht
        cases ht

theorem replay_sound {ts : List (Traffic α)} (h : l.Sound) (ht : replay ts l=some l') :
    l'.Sound := by
  induction ts generalizing l with
  | nil =>
    obtain rfl := Option.some.inj ht
    exact h
  | cons t ts ih =>
    obtain ⟨m,hm,hr⟩ := Option.bind_eq_some_iff.mp ht
    exact ih (step_sound h hm) hr

theorem step_accept (l : Ledger α) (a : α) (front : Bool) :
    ∃l',l.step (.accept a front)=some l' ∧
      l'.contents=if front then a::l.contents else l.contents++[a] := by
  cases front with
  | true => exact ⟨_,rfl,rfl⟩
  | false =>
    refine ⟨_,rfl,?_⟩
    change ((l.front++(l.back++[(l.next,a)])).map Prod.snd)=(l.front++l.back).map Prod.snd++[a]
    rw [← List.append_assoc,List.map_append]
    rfl

theorem step_deliver {rest : List α} (h : l.contents=a::rest) :
    ∃l',l.step (.deliver a)=some l' ∧ l'.contents=rest := by
  unfold step
  dsimp only
  cases hfr : l.front with
  | cons x f =>
    rw [contents,inside,hfr] at h
    obtain ⟨hx,hr⟩ := List.cons.inj h
    dsimp only
    rw [if_pos hx]
    exact ⟨_,rfl,hr⟩
  | nil =>
    cases hbk : l.back with
    | cons x b =>
      rw [contents,inside,hfr,hbk] at h
      obtain ⟨hx,hr⟩ := List.cons.inj h
      dsimp only
      rw [if_pos hx]
      exact ⟨_,rfl,hr⟩
    | nil =>
      rw [contents,inside,hfr,hbk] at h
      cases h

end Ledger

end LugalOS.Deque
