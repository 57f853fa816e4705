import Mathlib.Data.List.Dedup

/-! One-sided matching: variables that are asked for values one after the other, some of them bound
before. The first value that a free variable is asked for binds it. -/

namespace LugalOS.Matching

variable {K V : Type} [DecidableEq K]

/-- The value of a variable: bound on the way, or before. -/
def find (base : K → Option V) (new : List (K × V)) (x : K) : Option V :=
  (new.lookup x).or (base x)

/-- A variable is asked for a value. -/
def demand (agree : V → V → Bool) (base : K → Option V) (new : List (K × V)) (d : K × V) :
    Option (List (K × V)) :=
  match find base new d.1 with
  | some v => if agree v d.2 then some new else none
  | none => some (d::new)

/-- The free variables of l get one value each, and every value of l agrees with its variable's. -/
structure Solves (agree : V → V → Bool) (base : K → Option V) (l new : List (K × V)) : Prop where
  nodup : (new.map Prod.fst).Nodup
  keys : ∀x,x∈new.map Prod.fst ↔ x∈l.map Prod.fst ∧ base x=none
  agrees : ∀d∈l,∃v,find base new d.1=some v ∧ agree v d.2=true

/-- What l has for a variable first. -/
def lead (l : List (K × V)) (x : K) : Option V := l.lookup x

/-- What a variable has to agree with. -/
def first (base : K → Option V) (new l : List (K × V)) (x : K) : Option V :=
  (find base new x).or (lead l x)

section Runs

variable {agree : V → V → Bool} {base : K → Option V} {l new new' : List (K × V)}

theorem lookup_self (d : K × V) : (d::l).lookup d.1=some d.2 := by
  rw [List.lookup_cons,beq_self_eq_true]

theorem lookup_other {d : K × V} {x : K} (h : ¬x=d.1) : (d::l).lookup x=l.lookup x := by
  rw [List.lookup_cons,beq_eq_false_iff_ne.mpr h]

theorem find_cons (d : K × V) (x : K) :
    find base (d::new) x=if x=d.1 then some d.2 else find base new x := by
  rw [find,find]
  by_cases h : x=d.1
  · rw [h,lookup_self,if_pos rfl,Option.some_or]
  · rw [lookup_other h,if_neg h]

theorem first_nil (x : K) : first base [] l x=(base x).or (lead l x) := rfl

/-- Every value is found and agreed with, exactly where the run goes through. -/
theorem run_iff (hrefl : ∀d∈l,agree d.2 d.2=true) :
    (∃new',l.foldlM (demand agree base) new=some new') ↔
      ∀d∈l,∀v,first base new l d.1=some v → agree v d.2=true := by
  induction l generalizing new with
  | nil => simp
  | cons d l ih =>
    have hself := hrefl d List.mem_cons_self
    have hrest : ∀e∈l,agree e.2 e.2=true := fun e he => hrefl e (List.mem_cons_of_mem d he)
    rw [List.foldlM_cons,demand]
    cases hfind : find base new d.1 with
    | some v =>
      have hsame : ∀x,first base new (d::l) x=first base new l x := by
        intro x
        rw [first,first,lead,lead]
        by_cases h : x=d.1
        · rw [h,hfind]
          rfl
        · rw [lookup_other h]
      have hd : first base new (d::l) d.1=some v := by rw [first,hfind]; rfl
      have hd' := (hsame d.1).symm.trans hd
      simp only [List.forall_mem_cons,hsame,hd']
      by_cases ha : agree v d.2=true
      · simp only [ha,if_true,Option.bind_eq_bind,Option.bind_some,Option.some.injEq]
        rw [ih hrest]
        simp [ha]
      · simp [ha]
    | none =>
      have hsame : ∀x,first base new (d::l) x=first base (d::new) l x := by
        intro x
        rw [first,first,find_cons,lead,lead]
        by_cases h : x=d.1
        · rw [h,hfind,lookup_self,if_pos rfl]
          rfl
        · rw [lookup_other h,if_neg h]
      have hd : first base (d::new) l d.1=some d.2 := by
        rw [first,find_cons]
        simp
      simp only [List.forall_mem_cons,hsame,hd,Option.bind_eq_bind,Option.bind_some]
      rw [ih hrest]
      simp [hself]

theorem run_spec (hrefl : ∀d∈l,agree d.2 d.2=true) (h : l.foldlM (demand agree base) new=some new') :
    (∀x v,find base new x=some v → find base new' x=some v) ∧
      (∀x,x∈new'.map Prod.fst ↔ x∈new.map Prod.fst ∨ x∈l.map Prod.fst ∧ find base new x=none) ∧
      ((new.map Prod.fst).Nodup → (new'.map Prod.fst).Nodup) ∧
      ∀d∈l,∃v,find base new' d.1=some v ∧ agree v d.2=true := by
  induction l generalizing new with
  | nil =>
    cases h
    simp
  | cons d l ih =>
    have hrest : ∀e∈l,agree e.2 e.2=true := fun e he => hrefl e (List.mem_cons_of_mem d he)
    rw [List.foldlM_cons,demand] at h
    cases hfind : find base new d.1 with
    | some v =>
      rw [hfind] at h
      by_cases ha : agree v d.2=true
      · simp only [ha,if_true,Option.bind_eq_bind,Option.bind_some] at h
        obtain ⟨hkeep,hkeys,hnodup,hagree⟩ := ih hrest h
        refine ⟨hkeep,?_,hnodup,?_⟩
        · intro x
          rw [hkeys,List.map_cons,List.mem_cons]
          by_cases hx : x=d.1
          · simp [hx,hfind]
          · simp [hx]
        · intro e he
          cases List.mem_cons.mp he with
          | inl he => exact he ▸ ⟨v,hkeep _ _ hfind,ha⟩
          | inr he => exact hagree e he
      · simp [ha] at h
    | none =>
      rw [hfind] at h
      simp only [Option.bind_eq_bind,Option.bind_some] at h
      obtain ⟨hkeep,hkeys,hnodup,hagree⟩ := ih hrest h
      have hself : find base (d::new) d.1=some d.2 := by
        rw [find_cons]
        simp
      have hfresh : d.1∉new.map Prod.fst := by
        intro hmem
        rw [find,Option.or_eq_none_iff,List.lookup_eq_none_iff] at hfind
        obtain ⟨e,he,hk⟩ := List.mem_map.mp hmem
        have := hfind.1 e he
        simp [hk] at this
      refine ⟨?_,?_,?_,?_⟩
      · intro x v hx
        apply hkeep
        rw [find_cons]
        by_cases h : x=d.1
        · rw [h,hfind] at hx
          cases hx
        · rw [if_neg h]
          exact hx
      · intro x
        rw [hkeys,find_cons,List.map_cons,List.map_cons,List.mem_cons,List.mem_cons]
        by_cases hx : x=d.1
        · simp [hx,hfind]
        · simp [hx]
      · intro hn
        apply hnodup
        rw [List.map_cons,List.nodup_cons]
        exact ⟨hfresh,hn⟩
      · intro e he
        cases List.mem_cons.mp he with
        | inl he => exact he ▸ ⟨d.2,hkeep _ _ hself,hrefl d List.mem_cons_self⟩
        | inr he => exact hagree e he

theorem run_subset (h : l.foldlM (demand agree base) new=some new') : ∀d∈new',d∈new ∨ d∈l := by
  induction l generalizing new with
  | nil =>
    cases h
    exact fun d hd => .inl hd
  | cons e l ih =>
    rw [List.foldlM_cons,demand] at h
    intro d hd
    cases hfind : find base new e.1 with
    | some v =>
      rw [hfind] at h
      by_cases ha : agree v e.2=true
      · simp only [ha,if_true,Option.bind_eq_bind,Option.bind_some] at h
        exact (ih h d hd).imp_right (List.mem_cons_of_mem e)
      · simp [ha] at h
    | none =>
      rw [hfind] at h
      simp only [Option.bind_eq_bind,Option.bind_some] at h
      cases ih h d hd with
      | inl hnew =>
        cases List.mem_cons.mp hnew with
        | inl he => exact .inr (he ▸ List.mem_cons_self)
        | inr hnew => exact .inl hnew
      | inr hl => exact .inr (List.mem_cons_of_mem e hl)

theorem run_solves (hrefl : ∀d∈l,agree d.2 d.2=true) (h : l.foldlM (demand agree base) []=some new) :
    Solves agree base l new := by
  obtain ⟨_,hkeys,hnodup,hagree⟩ := run_spec hrefl h
  refine ⟨hnodup List.nodup_nil,?_,hagree⟩
  intro x
  rw [hkeys]
  simp [find]

end Runs

section Lookup

variable {l : List (K × V)}

theorem lookup_mem {x : K} {v : V} (h : l.lookup x=some v) : (x,v)∈l := by
  obtain ⟨l1,l2,hl,_⟩ := List.lookup_eq_some_iff.mp h
  rw [hl]
  exact List.mem_append_right l1 List.mem_cons_self

theorem lookup_of_mem {d : K × V} (h : d∈l) : ∃v,l.lookup d.1=some v := by
  rw [← Option.isSome_iff_exists,List.lookup_isSome_iff]
  exact ⟨d,h,beq_self_eq_true _⟩

theorem lookup_table (f : K → V) {keys : List K} (x : K) :
    (keys.map fun k => (k,f k)).lookup x=if x∈keys then some (f x) else none := by
  induction keys with
  | nil => rfl
  | cons k keys ih =>
    rw [List.map_cons]
    by_cases h : x=k
    · rw [h,if_pos List.mem_cons_self]
      exact lookup_self (k,f k)
    · rw [lookup_other h,ih]
      simp only [List.mem_cons,h,false_or]

end Lookup

/-- The variables of l that are not bound before. -/
def freeKeys (base : K → Option V) (l : List (K × V)) : List K :=
  (l.map Prod.fst).dedup.filter fun x => (base x).isNone

/-- For a free variable, of what l has for it first. -/
def answer [Inhabited V] (widen : V → V) (l : List (K × V)) (x : K) : V :=
  ((lead l x).map widen).getD default

section Completeness

variable [Inhabited V] {agree : V → V → Bool} {base : K → Option V} {l : List (K × V)}
variable {similar : V → V → Prop} {good : V → Prop} {widen : V → V}

/-- Two values are similar where some good value agrees with both; then there are good values that
solve just where the bound variables agree and the values of each free one are similar. -/
theorem solvable_iff (hgood : ∀d∈l,good d.2)
    (hsim : ∀v s,good v → good s → agree v s=true → similar v s)
    (heuclid : ∀v s t,good v → good s → good t → similar v s → similar v t → similar s t)
    (hwiden : ∀s t,good s → good t → similar s t → good (widen s) ∧ agree (widen s) t=true) :
    (∃new,(∀d∈new,good d.2) ∧ Solves agree base l new) ↔
      ∀d∈l,(∀v,base d.1=some v → agree v d.2=true) ∧
        (base d.1=none → ∀s,lead l d.1=some s → similar s d.2) := by
  constructor
  · intro h d hd
    obtain ⟨new,hnew,hsolves⟩ := h
    obtain ⟨v,hv,ha⟩ := hsolves.agrees d hd
    constructor
    · intro u hu
      have hnone : new.lookup d.1=none := by
        rw [List.lookup_eq_none_iff]
        intro e he
        rw [bne_iff_ne]
        intro heq
        have hkey := (hsolves.keys d.1).mp (heq ▸ List.mem_map.mpr ⟨e,he,rfl⟩)
        rw [hu] at hkey
        cases hkey.2
      rw [find,hnone,Option.none_or,hu] at hv
      exact Option.some.inj hv ▸ ha
    · intro hbase s hs
      have hsmem := lookup_mem hs
      obtain ⟨u,hu,hau⟩ := hsolves.agrees (d.1,s) hsmem
      have huv : u=v := Option.some.inj (hu.symm.trans hv)
      rw [find,hbase,Option.or_none] at hv
      have hvgood := hnew _ (lookup_mem hv)
      rw [huv] at hau
      exact heuclid v s d.2 hvgood (hgood _ hsmem) (hgood d hd) (hsim v s hvgood (hgood _ hsmem) hau)
        (hsim v d.2 hvgood (hgood d hd) ha)
  · intro h
    have hkeys (x : K) : x∈freeKeys base l ↔ x∈l.map Prod.fst ∧ base x=none := by
      rw [freeKeys,List.mem_filter,List.mem_dedup,Option.isNone_iff_eq_none]
    have hfst : ((freeKeys base l).map fun k => (k,answer widen l k)).map Prod.fst=freeKeys base l := by
      rw [List.map_map]
      exact List.map_id _
    have hfree (d : K × V) (hd : d∈l) (hbase : base d.1=none) :
        ∃s,(d.1,s)∈l ∧ answer widen l d.1=widen s ∧ good (widen s) ∧ agree (widen s) d.2=true := by
      obtain ⟨s,hs⟩ := lookup_of_mem hd
      have hmem := lookup_mem hs
      refine ⟨s,hmem,?_,hwiden s d.2 (hgood _ hmem) (hgood d hd) ((h d hd).2 hbase s hs)⟩
      simp only [answer,lead,hs,Option.map_some,Option.getD_some]
    refine ⟨(freeKeys base l).map fun k => (k,answer widen l k),?_,?_,?_,?_⟩
    · intro e he
      obtain ⟨x,hx,rfl⟩ := List.mem_map.mp he
      obtain ⟨hmem,hbase⟩ := (hkeys x).mp hx
      obtain ⟨d,hd,rfl⟩ := List.mem_map.mp hmem
      obtain ⟨s,_,hfs,hg,_⟩ := hfree d hd hbase
      exact hfs ▸ hg
    · rw [hfst]
      exact (List.nodup_dedup _).filter _
    · intro x
      rw [hfst]
      exact hkeys x
    · intro d hd
      rw [find,lookup_table]
      cases hbase : base d.1 with
      | some v =>
        have hout : d.1∉freeKeys base l := by
          intro hin
          have := ((hkeys _).mp hin).2
          rw [hbase] at this
          cases this
        rw [if_neg hout]
        exact ⟨v,rfl,(h d hd).1 v hbase⟩
      | none =>
        obtain ⟨s,_,hfs,_,ha⟩ := hfree d hd hbase
        rw [if_pos ((hkeys _).mpr ⟨List.mem_map.mpr ⟨d,hd,rfl⟩,hbase⟩),hfs]
        exact ⟨widen s,rfl,ha⟩

end Completeness

end LugalOS.Matching
