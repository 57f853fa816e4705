import Mathlib.Data.Fintype.Card
import LugalOS.Lib.Links

namespace LugalOS.Kobj

open Function (update)
open Links

inductive KwState
  | idle
  | wait
  | grant
  | failed
  deriving DecidableEq,Repr

abbrev Item := List UInt8

/-- item is what the pointer of that name leads to: what a sender sends, or what a receiver has
been handed. all is also a sender's front flag. -/
structure KWaiter (n : Nat) where
  next : Option (Fin n)
  who : Int
  state : KwState
  item : Item
  want : UInt32
  got : UInt32
  all : Bool
  clear : Bool
  deriving DecidableEq

abbrev Waiters (n : Nat) := Fin n → KWaiter n

structure WList (n : Nat) where
  head : Option (Fin n)
  tail : Option (Fin n)
  deriving DecidableEq

variable {n : Nat}

def WList.empty : WList n := ⟨none,none⟩

def Waiters.setNext (ws : Waiters n) (w : Fin n) (next : Option (Fin n)) : Waiters n :=
  update ws w {ws w with next := next}

def Waiters.setState (ws : Waiters n) (w : Fin n) (state : KwState) : Waiters n :=
  update ws w {ws w with state := state}

def wlPush (ws : Waiters n) (l : WList n) (w : Fin n) : Waiters n×WList n :=
  let ws := (ws.setNext w none).setState w .wait
  match l.tail with
  | some t => (ws.setNext t (some w),⟨l.head,some w⟩)
  | none => (ws,⟨some w,some w⟩)

def wlPop (ws : Waiters n) (l : WList n) : Option (Fin n×Waiters n×WList n) :=
  match l.head with
  | none => none
  | some w =>
    let next := (ws w).next
    some (w,ws.setNext w none,⟨next,if next=none then none else l.tail⟩)

/-- c leaves the list, where prev is what leads to it. -/
def wlUnlink (ws : Waiters n) (l : WList n) (prev : Option (Fin n)) (c : Fin n) :
    Waiters n×WList n :=
  let x := match prev with
    | some p => (ws.setNext p (ws c).next,l)
    | none => (ws,{l with head := (ws c).next})
  (x.1.setNext c none,if l.tail=some c then {x.2 with tail := prev} else x.2)

/-- The loop of wl_remove, its variables prev and c; the number bounds its turns. None when it
does not find w. -/
def wlRemoveLoop (ws : Waiters n) (l : WList n) (w : Fin n) :
    Nat → Option (Fin n) → Option (Fin n) → Option (Waiters n×WList n)
  | 0,_,_ => none
  | _+1,_,none => none
  | turns+1,prev,some c =>
    if c≠w then wlRemoveLoop ws l w turns (some c) (ws c).next
    else some (wlUnlink ws l prev c)

/-- There are n waiters, so a list ends after n turns. -/
def wlRemove (ws : Waiters n) (l : WList n) (w : Fin n) : Option (Waiters n×WList n) :=
  wlRemoveLoop ws l w (n+1) none l.head

/-- Whom to wake. -/
abbrev KWake := List Int

def kwakeMax : Nat := 32

def kwAdd (wk : KWake) (who : Int) : KWake := if wk.length < kwakeMax then wk++[who] else wk

def wlFailLoop : Nat → Waiters n → WList n → KWake → Waiters n×WList n×KWake
  | 0,ws,l,wk => (ws,l,wk)
  | turns+1,ws,l,wk =>
    match wlPop ws l with
    | none => (ws,l,wk)
    | some (w,ws,l) => wlFailLoop turns (ws.setState w .failed) l (kwAdd wk (ws w).who)

def wlFailAll (ws : Waiters n) (l : WList n) (wk : KWake) : Waiters n×WList n×KWake :=
  wlFailLoop (n+1) ws l wk

def KWaiter.core (w : KWaiter n) : KWaiter n := {w with next := none}

/-- The list holds the waiters of m, in this order. -/
structure Threads (ws : Waiters n) (l : WList n) (m : List (Fin n)) : Prop where
  links : Linked (fun w => (ws w).next) l.head m
  last : l.tail=m.getLast?
  nodup : m.Nodup
  waiting : ∀w∈m,(ws w).state=.wait

section Lists

variable {ws ws' : Waiters n} {l : WList n} {m : List (Fin n)} {w : Fin n}

theorem Threads.empty : Threads ws (WList.empty : WList n) [] :=
  ⟨rfl,rfl,List.nodup_nil,fun _ h => absurd h List.not_mem_nil⟩

theorem Threads.congr (h : Threads ws l m) (hs : ∀w∈m,ws' w=ws w) : Threads ws' l m :=
  ⟨h.links.congr fun w hw => by rw [hs w hw],h.last,h.nodup,
    fun w hw => by rw [hs w hw]; exact h.waiting w hw⟩

theorem Threads.length_le (h : Threads ws l m) : m.length≤n := by
  have hs := List.Nodup.length_le_card h.nodup
  rwa [Fintype.card_fin] at hs

theorem core_state {x y : KWaiter n} (h : x.core=y.core) : x.state=y.state :=
  show x.core.state=y.core.state from congrArg KWaiter.state h

theorem setNext_core (ws : Waiters n) (w : Fin n) (p : Option (Fin n)) (x : Fin n) :
    (ws.setNext w p x).core=(ws x).core := by
  unfold Waiters.setNext
  by_cases hx : x=w
  · subst hx
    simp [KWaiter.core]
  · rw [Function.update_of_ne hx]

theorem setNext_other {x : Fin n} (h : x≠w) (p : Option (Fin n)) : ws.setNext w p x=ws x :=
  Function.update_of_ne h _ _

theorem setNext_next (ws : Waiters n) (w : Fin n) (p : Option (Fin n)) :
    (ws.setNext w p w).next=p := by simp [Waiters.setNext]

theorem setState_other {x : Fin n} (h : x≠w) (s : KwState) : ws.setState w s x=ws x :=
  Function.update_of_ne h _ _

theorem setState_self (ws : Waiters n) (w : Fin n) (s : KwState) :
    ws.setState w s w={ws w with state := s} := by simp [Waiters.setState]

theorem wlPush_spec (h : Threads ws l m) (hw : (ws w).state≠.wait) :
    Threads (wlPush ws l w).1 (wlPush ws l w).2 (m++[w]) ∧
      (∀x,x∉m → x≠w → (wlPush ws l w).1 x=ws x) ∧
      (∀x,x≠w → ((wlPush ws l w).1 x).core=(ws x).core) ∧
      ((wlPush ws l w).1 w).core={ws w with state := .wait}.core := by
  have hnew : w∉m := fun hm => hw (h.waiting w hm)
  set ws₁ := (ws.setNext w none).setState w .wait with h₁
  have hself : ws₁ w={ws w with next := none,state := .wait} := by
    rw [h₁,setState_self]
    simp [Waiters.setNext]
  have hother : ∀x,x≠w → ws₁ x=ws x := fun x hx => by
    rw [h₁,setState_other hx,setNext_other hx]
  have hnodup : (m++[w]).Nodup := by
    rw [List.nodup_append]
    refine ⟨h.nodup,List.nodup_singleton w,?_⟩
    intro x hx y hy
    rw [List.mem_singleton.mp hy]
    rintro rfl
    exact hnew hx
  have hpush : wlPush ws l w=match l.tail with
      | some t => (ws₁.setNext t (some w),⟨l.head,some w⟩)
      | none => (ws₁,⟨some w,some w⟩) := rfl
  have hwait : ∀ws' : Waiters n,(∀x,(ws' x).core=(ws₁ x).core) →
      ∀x∈m++[w],(ws' x).state=.wait := by
    intro ws' hc x hx
    rw [core_state (hc x)]
    by_cases hxw : x=w
    · rw [hxw,hself]
    · rw [hother x hxw]
      exact h.waiting x ((List.mem_append.mp hx).resolve_right fun hs =>
        hxw (List.mem_singleton.mp hs))
  cases ht : l.tail with
  | none =>
    have hp : wlPush ws l w=(ws₁,⟨some w,some w⟩) := by rw [hpush,ht]
    rw [hp]
    dsimp only
    have hm : m=[] := List.getLast?_eq_none_iff.mp (h.last ▸ ht)
    subst hm
    refine ⟨⟨⟨rfl,?_⟩,rfl,hnodup,hwait ws₁ fun _ => rfl⟩,fun x _ hx => hother x hx,
      fun x hx => congrArg KWaiter.core (hother x hx),(congrArg KWaiter.core hself).trans rfl⟩
    exact congrArg KWaiter.next hself
  | some t =>
    have hp : wlPush ws l w=(ws₁.setNext t (some w),⟨l.head,some w⟩) := by rw [hpush,ht]
    rw [hp]
    dsimp only
    have htm : m.getLast?=some t := h.last ▸ ht
    have htw : t≠w := by
      rintro rfl
      exact hnew (List.mem_of_getLast? htm)
    refine ⟨⟨?_,by simp,hnodup,hwait _ fun x => setNext_core _ _ _ x⟩,?_,?_,?_⟩
    · refine h.links.snoc h.nodup htm (setNext_next _ _ _) ?_ ?_
      · rw [setNext_other htw.symm,hself]
      · intro y hy hyt
        have hyw : y≠w := fun he => hnew (he ▸ hy)
        rw [setNext_other hyt,hother y hyw]
    · intro x hx hxw
      have hxt : x≠t := fun he => hx (he ▸ List.mem_of_getLast? htm)
      rw [setNext_other hxt,hother x hxw]
    · intro x hx
      rw [setNext_core,hother x hx]
    · rw [setNext_core]
      exact (congrArg KWaiter.core hself).trans rfl

theorem wlPop_none (h : Threads ws l []) : wlPop ws l=none := by
  have hh : l.head=none := h.links
  rw [wlPop,hh]

theorem wlPop_spec (h : Threads ws l (w::m)) :
    ∃l',wlPop ws l=some (w,ws.setNext w none,l') ∧ Threads (ws.setNext w none) l' m := by
  have hh : l.head=some w := h.links.1
  have hw : w∉m := (List.nodup_cons.mp h.nodup).1
  refine ⟨_,by rw [wlPop,hh],?_⟩
  refine ⟨?_,?_,(List.nodup_cons.mp h.nodup).2,?_⟩
  · refine h.links.2.congr fun x hx => ?_
    rw [setNext_other fun he : x=w => hw (he ▸ hx)]
  · have hl := h.last
    cases m with
    | nil =>
      have hn : (ws w).next=none := h.links.2
      rw [if_pos hn]
      rfl
    | cons y m =>
      have hn : (ws w).next=some y := h.links.2.1
      rw [if_neg (by rw [hn]; exact Option.some_ne_none y),hl,List.getLast?_cons_cons]
  · intro x hx
    rw [setNext_other fun he : x=w => hw (he ▸ hx)]
    exact h.waiting x (List.mem_cons_of_mem _ hx)

theorem wlRemoveLoop_turn (turns : Nat) (prev : Option (Fin n)) (c : Fin n) :
    wlRemoveLoop ws l w (turns+1) prev (some c)=
      if c≠w then wlRemoveLoop ws l w turns (some c) (ws c).next
      else some (wlUnlink ws l prev c) := rfl

theorem wlRemoveLoop_found {a b : List (Fin n)} (turns : Nat) (prev c : Option (Fin n))
    (h : Linked (fun x => (ws x).next) c (a++w::b)) (hw : w∉a) (hn : a.length < turns) :
    wlRemoveLoop ws l w turns prev c=some (wlUnlink ws l ((a.getLast?).or prev) w) := by
  induction a generalizing prev c turns with
  | nil =>
    cases turns with
    | zero => exact absurd hn (Nat.lt_irrefl _)
    | succ turns =>
      rw [show c=some w from h.1,wlRemoveLoop_turn,if_neg (not_not.mpr rfl)]
      rfl
  | cons y a ih =>
    cases turns with
    | zero => exact absurd hn (Nat.not_lt_zero _)
    | succ turns =>
      have hy : y≠w := fun he => hw (he ▸ List.mem_cons_self)
      have hrest := ih turns (some y) (ws y).next h.2 (fun hm => hw (List.mem_cons_of_mem _ hm))
        (Nat.lt_of_succ_lt_succ hn)
      have hlast : ((y::a).getLast?).or prev=(a.getLast?).or (some y) := by
        rw [List.getLast?_cons]
        cases a.getLast? <;> rfl
      rw [show c=some y from h.1,hlast,wlRemoveLoop_turn,if_pos hy]
      exact hrest

theorem wlRemoveLoop_missing (turns : Nat) (prev c : Option (Fin n))
    (h : Linked (fun x => (ws x).next) c m) (hw : w∉m) : wlRemoveLoop ws l w turns prev c=none := by
  induction m generalizing prev c turns with
  | nil =>
    rw [show c=none from h]
    cases turns <;> rfl
  | cons y m ih =>
    have hy : y≠w := fun he => hw (he ▸ List.mem_cons_self)
    cases turns with
    | zero => rfl
    | succ turns =>
      rw [show c=some y from h.1,wlRemoveLoop_turn,if_pos hy]
      exact ih turns (some y) (ws y).next h.2 fun hm => hw (List.mem_cons_of_mem _ hm)

theorem wlRemove_none (h : Threads ws l m) (hw : w∉m) : wlRemove ws l w=none :=
  wlRemoveLoop_missing _ _ _ h.links hw

theorem wlUnlink_spec {a b : List (Fin n)} (h : Threads ws l (a++w::b)) :
    Threads (wlUnlink ws l a.getLast? w).1 (wlUnlink ws l a.getLast? w).2 (a++b) ∧
      (∀x,x∉a++w::b → (wlUnlink ws l a.getLast? w).1 x=ws x) ∧
      ∀x,((wlUnlink ws l a.getLast? w).1 x).core=(ws x).core := by
  have hnodup := h.nodup
  rw [List.nodup_append] at hnodup
  obtain ⟨-,hb,hab⟩ := hnodup
  have hwa : w∉a := fun hm => hab w hm w List.mem_cons_self rfl
  have hwb : w∉b := (List.nodup_cons.mp hb).1
  obtain ⟨x,hxe⟩ : ∃x,x=match a.getLast? with
      | some p => (ws.setNext p (ws w).next,l)
      | none => (ws,{l with head := (ws w).next}) := ⟨_,rfl⟩
  have hx : wlUnlink ws l a.getLast? w=(x.1.setNext w none,
      if l.tail=some w then {x.2 with tail := a.getLast?} else x.2) := by
    rw [hxe]
    rfl
  rw [hx]
  have hcore : ∀y,(x.1.setNext w none y).core=(ws y).core := by
    intro y
    rw [setNext_core,hxe]
    cases a.getLast? with
    | none => rfl
    | some p => exact setNext_core _ _ _ _
  have hnd : (a++b).Nodup := h.nodup.sublist ((List.sublist_cons_self w b).append_left a)
  have hnext : ∀y∈a++b,a.getLast?≠some y → (x.1.setNext w none y).next=(ws y).next := by
    intro y hy hl
    have hyw : y≠w := by
      rintro rfl
      exact (List.mem_append.mp hy).elim hwa hwb
    rw [setNext_other hyw,hxe]
    cases hal : a.getLast? with
    | none => rfl
    | some p =>
      have hyp : y≠p := by
        rintro rfl
        exact hl hal
      exact congrArg KWaiter.next (setNext_other hyp _)
  refine ⟨⟨?_,?_,hnd,?_⟩,?_,hcore⟩
  · have hlinks := h.links.without h.nodup (show ∀t,a.getLast?=some t →
        (fun y => (x.1.setNext w none y).next) t=(ws w).next by
      intro t ht
      have htw : t≠w := by
        rintro rfl
        exact hwa (List.mem_of_getLast? ht)
      change (x.1.setNext w none t).next=_
      rw [setNext_other htw,hxe,ht]
      exact setNext_next _ _ _) hnext
    have hhead : (if l.tail=some w then {x.2 with tail := a.getLast?} else x.2).head=
        if a=[] then (ws w).next else l.head := by
      have hx2 : x.2.head=if a=[] then (ws w).next else l.head := by
        rw [hxe]
        cases hal : a.getLast? with
        | none => rw [if_pos (List.getLast?_eq_none_iff.mp hal)]
        | some p => rw [if_neg (fun he => by rw [he] at hal; cases hal)]
      by_cases ht : l.tail=some w
      · rw [if_pos ht]
        exact hx2
      · rw [if_neg ht]
        exact hx2
    rw [hhead]
    exact hlinks
  · have hx2 : x.2.tail=l.tail := by
      rw [hxe]
      cases a.getLast? <;> rfl
    have hl := h.last
    rw [List.getLast?_append,List.getLast?_cons] at hl
    rw [List.getLast?_append]
    cases hbl : b.getLast? with
    | none =>
      rw [hbl] at hl
      rw [if_pos (by simpa using hl)]
      rfl
    | some z =>
      rw [hbl] at hl
      have hz : l.tail=some z := by simpa using hl
      have hzw : z≠w := by
        rintro rfl
        exact hwb (List.mem_of_getLast? hbl)
      rw [if_neg (by rw [hz]; exact fun he => hzw (Option.some.inj he)),hx2,hz]
      rfl
  · intro y hy
    rw [core_state (hcore y)]
    refine h.waiting y ?_
    rw [List.mem_append,List.mem_cons]
    exact (List.mem_append.mp hy).imp_right .inr
  · intro y hy
    have hyw : y≠w := by
      rintro rfl
      exact hy (List.mem_append_right _ List.mem_cons_self)
    dsimp only
    rw [setNext_other hyw,hxe]
    cases hal : a.getLast? with
    | none => rfl
    | some p =>
      have hyp : y≠p := by
        rintro rfl
        exact hy (List.mem_append_left _ (List.mem_of_getLast? hal))
      exact setNext_other hyp _

/-- The turns of wl_fail_all, of which there are enough for the list. -/
theorem wlFailLoop_spec (turns : Nat) (wk : KWake) (h : Threads ws l m) (ht : m.length < turns) :
    Threads (wlFailLoop turns ws l wk).1 (wlFailLoop turns ws l wk).2.1 [] ∧
      (∀x,x∉m → (wlFailLoop turns ws l wk).1 x=ws x) ∧
      ∀x∈m,((wlFailLoop turns ws l wk).1 x).core={ws x with state := .failed}.core := by
  induction m generalizing ws l wk turns with
  | nil =>
    cases turns with
    | zero => exact absurd ht (Nat.lt_irrefl _)
    | succ turns =>
      have hl : wlFailLoop (turns+1) ws l wk=(ws,l,wk) := by rw [wlFailLoop,wlPop_none h]
      rw [hl]
      exact ⟨h,fun _ _ => rfl,fun x hx => absurd hx List.not_mem_nil⟩
  | cons w m ih =>
    cases turns with
    | zero => exact absurd ht (Nat.not_lt_zero _)
    | succ turns =>
      obtain ⟨l',hpop,hrest⟩ := wlPop_spec h
      have hw : w∉m := (List.nodup_cons.mp h.nodup).1
      set ws₁ := (ws.setNext w none).setState w .failed with h₁
      have hl : wlFailLoop (turns+1) ws l wk=
          wlFailLoop turns ws₁ l' (kwAdd wk ((ws.setNext w none) w).who) := by
        rw [wlFailLoop,hpop]
      have hother : ∀x,x≠w → ws₁ x=ws x := fun x hx => by
        rw [h₁,setState_other hx,setNext_other hx]
      have hthreads : Threads ws₁ l' m := hrest.congr fun x hx =>
        setState_other (fun he : x=w => hw (he ▸ hx)) _
      rw [hl]
      obtain ⟨hempty,hkeep,hfail⟩ := ih turns (kwAdd wk ((ws.setNext w none) w).who) hthreads
        (Nat.lt_of_succ_lt_succ ht)
      refine ⟨hempty,?_,?_⟩
      · intro x hx
        rw [hkeep x fun hm => hx (List.mem_cons_of_mem _ hm)]
        exact hother x fun he => hx (he ▸ List.mem_cons_self)
      · intro x hx
        rcases List.mem_cons.mp hx with rfl|hm
        · rw [hkeep x hw,h₁,setState_self]
          simp [Waiters.setNext,KWaiter.core]
        · rw [hfail x hm,hother x fun he : x=w => hw (he ▸ hm)]

theorem wlFailAll_spec (h : Threads ws l m) (wk : KWake) :
    Threads (wlFailAll ws l wk).1 (wlFailAll ws l wk).2.1 [] ∧
      (∀x,x∉m → (wlFailAll ws l wk).1 x=ws x) ∧
      ∀x∈m,((wlFailAll ws l wk).1 x).core={ws x with state := .failed}.core :=
  wlFailLoop_spec (n+1) wk h (Nat.lt_succ_of_le h.length_le)

theorem wlRemove_spec {a b : List (Fin n)} (h : Threads ws l (a++w::b)) :
    wlRemove ws l w=some (wlUnlink ws l a.getLast? w) := by
  have hwa : w∉a := fun hm =>
    (List.nodup_append.mp h.nodup).2.2 w hm w List.mem_cons_self rfl
  have hlen : a.length < n+1 := by
    have := h.length_le
    rw [List.length_append] at this
    omega
  have hf := wlRemoveLoop_found (l := l) (n+1) none l.head h.links hwa hlen
  rwa [Option.or_none] at hf

end Lists

end LugalOS.Kobj
