import LugalOS.Lib.Walk
import LugalOS.Sched.Switch

/-! The wait-for graph: which task each task waits for, and the refusal of a wait that would close
a cycle. -/

namespace LugalOS.Lock

open Sched (maxTasks)
open Walk (Reaches Acyclic)

/-- g_waitfor and g_waitfor_ready. -/
structure Waitfor where
  target : Vector Int maxTasks
  ready : Bool

namespace Waitfor

/-- The static arrays as they are at boot. -/
def boot : Waitfor := ⟨Vector.replicate maxTasks 0,false⟩

def initOnce (g : Waitfor) : Waitfor :=
  if g.ready then g else ⟨Vector.replicate maxTasks (-1),true⟩

theorem toNat_lt {pid : Int} (h : 0≤pid ∧ pid < maxTasks) : pid.toNat < maxTasks := by omega

/-- The walk of waitfor_reaches from cur, with the turns that guard leaves. -/
def reachesLoop (g : Waitfor) (me : Int) : ℕ → Int → Bool
  | 0,_ => false
  | guard+1,cur =>
    if h : 0≤cur ∧ cur < maxTasks then
      if cur=me then true
      else reachesLoop g me guard
        (getElem g.target (⟨cur.toNat,toNat_lt h⟩ : Fin maxTasks) (toNat_lt h))
    else false

def reaches (g : Waitfor) (me target : Int) : Bool := reachesLoop g me maxTasks target

/-- Stores the edge of a task. -/
def point (g : Waitfor) (me target : Int) : Waitfor :=
  {g with target := g.target.setIfInBounds me.toNat target}

/-- A pid that the graph has a slot for. -/
def InRange (pid : Int) : Prop := 0≤pid ∧ pid < maxTasks

instance (pid : Int) : Decidable (InRange pid) := inferInstanceAs (Decidable (_ ∧ _))

/-- waitfor_enter: its answer and the graph behind it. -/
def enter (g : Waitfor) (me target : Int) : Bool × Waitfor :=
  if InRange me ∧ InRange target then
    let g := g.initOnce
    if g.reaches me target then (false,g) else (true,g.point me target)
  else (true,g)

/-- waitfor_leave. -/
def leave (g : Waitfor) (me : Int) : Waitfor := if InRange me then g.point me (-1) else g

/-- waitfor_target. -/
def targetOf (g : Waitfor) (pid : Int) : Int :=
  if h : 0≤pid ∧ pid < maxTasks then
    getElem g.target (⟨pid.toNat,toNat_lt h⟩ : Fin maxTasks) (toNat_lt h)
  else -1

/-- The task that a task waits for, if its entry is a pid. -/
def next (g : Waitfor) (t : Fin maxTasks) : Option (Fin maxTasks) :=
  if h : 0≤g.target[t] ∧ g.target[t] < maxTasks then some ⟨g.target[t].toNat,toNat_lt h⟩ else none

theorem next_eq_some {g : Waitfor} {t u : Fin maxTasks} : g.next t=some u ↔ g.target[t]=u := by
  unfold next
  split
  · rename_i h
    constructor
    · intro heq
      have hu := congrArg Fin.val (Option.some.inj heq)
      dsimp only at hu
      omega
    · intro heq
      exact congrArg some (Fin.ext (by dsimp only; omega))
  · rename_i h
    constructor
    · intro heq
      cases heq
    · intro heq
      omega

theorem next_eq_none {g : Waitfor} {t : Fin maxTasks} (h : g.target[t]=-1) : g.next t=none := by
  simp [next,h]

theorem reachesLoop_iff (g : Waitfor) (me u : Fin maxTasks) (guard : ℕ) :
    g.reachesLoop me guard u=true ↔ ∃k,k < guard ∧ Walk.walk g.next k u=some me := by
  induction guard generalizing u with
  | zero => simp [reachesLoop]
  | succ guard ih =>
    have hu : 0≤(u : Int) ∧ (u : Int) < maxTasks := ⟨by omega,by omega⟩
    rw [reachesLoop,dif_pos hu]
    by_cases heq : u=me
    · subst heq
      simp only [if_true,true_iff]
      exact ⟨0,by omega,rfl⟩
    · have hne : ¬(u : Int)=me := fun h => heq (Fin.ext (by omega))
      rw [if_neg hne]
      have hstep : (∃k,k < guard+1 ∧ Walk.walk g.next k u=some me) ↔
          ∃k,k < guard ∧ (g.next u).bind (Walk.walk g.next k)=some me := by
        constructor
        · rintro ⟨k,hk,hw⟩
          cases k with
          | zero => exact absurd (Option.some.inj hw) heq
          | succ k => exact ⟨k,by omega,hw⟩
        · rintro ⟨k,hk,hw⟩
          exact ⟨k+1,by omega,hw⟩
      rw [hstep]
      have htgt : g.target[(⟨(u : Int).toNat,by omega⟩ : Fin maxTasks)]=g.target[u] := by simp
      rw [htgt]
      cases hn : g.next u with
      | some v =>
        rw [next_eq_some.mp hn,ih]
        rfl
      | none =>
        have hout : ¬(0≤g.target[u] ∧ g.target[u] < maxTasks) := by
          intro hin
          rw [next,dif_pos hin] at hn
          cases hn
        cases guard with
        | zero => simp [reachesLoop]
        | succ guard =>
          rw [reachesLoop,dif_neg hout]
          simp

theorem reaches_iff (g : Waitfor) (me target : Fin maxTasks) :
    g.reaches me target=true ↔ Reaches g.next target me := by
  rw [reaches,reachesLoop_iff]
  constructor
  · rintro ⟨k,-,hw⟩
    exact Walk.reaches_iff.mpr ⟨k,hw⟩
  · intro h
    simpa using Walk.Reaches.short h

theorem inRange_fin (t : Fin maxTasks) : InRange t := ⟨by omega,by omega⟩

theorem next_point (g : Waitfor) (me : Fin maxTasks) (v : Int) (u : Fin maxTasks) :
    (g.point me v).next u=
      if u=me then (if h : 0≤v ∧ v < maxTasks then some ⟨v.toNat,toNat_lt h⟩ else none)
      else g.next u := by
  by_cases hu : u=me
  · subst hu
    simp [next,point]
  · have hne : me.val≠u.val := fun h => hu (Fin.ext h.symm)
    simp [next,point,hu,hne]

theorem point_task (g : Waitfor) (me u : Fin maxTasks) :
    (g.point me u).next=Function.update g.next me (some u) := by
  funext t
  rw [next_point]
  by_cases ht : t=me
  · subst ht
    simp
  · simp [ht]

theorem point_none (g : Waitfor) (me : Fin maxTasks) :
    (g.point me (-1)).next=Function.update g.next me none := by
  funext t
  rw [next_point]
  by_cases ht : t=me
  · subst ht
    simp
  · simp [ht]

/-- What the graph owes its callers: no cycle, and a wait is refused, with the graph as it was,
exactly when its target already reaches the task. -/
structure Sound (g : Waitfor) : Prop where
  acyclic : Acyclic g.next
  refuses : ∀me target : Fin maxTasks,
    (g.enter me target).1=false ↔ Reaches g.next target me
  unchanged : ∀me target : Fin maxTasks,
    (g.enter me target).1=false → (g.enter me target).2.target=g.target

theorem enter_of_ready {g : Waitfor} (hg : g.ready=true) (me target : Fin maxTasks) :
    g.enter me target=if g.reaches me target then (false,g) else (true,g.point me target) := by
  simp [enter,inRange_fin,initOnce,hg]

theorem sound_of_ready {g : Waitfor} (hg : g.ready=true) (ha : Acyclic g.next) : g.Sound := by
  refine ⟨ha,?_,?_⟩
  · intro me target
    rw [enter_of_ready hg,← reaches_iff]
    split <;> simp_all
  · intro me target h
    rw [enter_of_ready hg] at h ⊢
    split at h
    · rename_i hr
      rw [if_pos hr]
    · cases h

end Waitfor

/-- A call into the graph. -/
inductive Call
  | enter (me target : Int)
  | leave (me : Int)
deriving DecidableEq

namespace Waitfor

def call (g : Waitfor) : Call → Waitfor
  | .enter me target => (g.enter me target).2
  | .leave me => g.leave me

/-- The graph after a row of calls from boot. -/
def after (calls : List Call) : Waitfor := calls.foldl call boot

theorem after_snoc (calls : List Call) (c : Call) :
    after (calls++[c])=(after calls).call c := by
  simp [after]

/-- The calls that set the array up. -/
def Sets : Call → Prop
  | .enter me target => InRange me ∧ InRange target
  | .leave _ => False

theorem exists_task {pid : Int} (h : InRange pid) : ∃t : Fin maxTasks,(t : Int)=pid :=
  ⟨⟨pid.toNat,by have := h.1; have := h.2; omega⟩,by have := h.1; simp; omega⟩

theorem call_sets {g : Waitfor} {c : Call} (h : Sets c) (hi : Acyclic g.initOnce.next) :
    (g.call c).ready=true ∧ Acyclic (g.call c).next := by
  cases c with
  | leave me => exact h.elim
  | enter me target =>
    have hin : InRange me ∧ InRange target := h
    obtain ⟨me,rfl⟩ := exists_task hin.1
    obtain ⟨target,rfl⟩ := exists_task hin.2
    have hready : g.initOnce.ready=true := by
      unfold initOnce
      split
      · assumption
      · rfl
    rw [call,enter,if_pos hin]
    by_cases hr : g.initOnce.reaches me target=true
    · rw [if_pos hr]
      exact ⟨hready,hi⟩
    · rw [if_neg hr]
      refine ⟨hready,?_⟩
      dsimp only
      rw [point_task]
      exact hi.update fun h => hr ((reaches_iff ..).mpr h)

theorem call_other {g : Waitfor} {c : Call} (h : ¬Sets c) :
    (∀t : Fin maxTasks,c≠.leave t) ∧ g.call c=g ∨
      ∃t : Fin maxTasks,c=.leave t ∧ g.call c=g.point t (-1) := by
  cases c with
  | enter me target =>
    refine .inl ⟨by simp,?_⟩
    have hin : ¬(InRange me ∧ InRange target) := h
    rw [call,enter,if_neg hin]
  | leave me =>
    by_cases hin : InRange me
    · obtain ⟨t,rfl⟩ := exists_task hin
      exact .inr ⟨t,rfl,by rw [call,leave,if_pos hin]⟩
    · refine .inl ⟨fun t heq => ?_,by rw [call,leave,if_neg hin]⟩
      cases heq
      exact hin (inRange_fin t)

theorem acyclic_of_next_none {g : Waitfor} (h : ∀t,g.next t=none) : Acyclic g.next := by
  intro a hcycle
  obtain ⟨b,hb,_⟩ := Relation.TransGen.head'_iff.mp hcycle
  rw [Walk.Edge,h] at hb
  cases hb

theorem initOnce_boot {g : Waitfor} (h : g.ready=false) : Acyclic g.initOnce.next := by
  refine acyclic_of_next_none fun t => next_eq_none ?_
  simp [initOnce,h]

theorem after_unset {calls : List Call} (h : ∀c∈calls,¬Sets c) :
    (after calls).ready=false ∧ ∀t : Fin maxTasks,
      (after calls).target[t]=if .leave t∈calls then -1 else 0 := by
  induction calls using List.reverseRecOn with
  | nil => simp [after,boot]
  | append_singleton calls c ih =>
    obtain ⟨hready,htgt⟩ := ih fun c' hc' => h c' (by simp [hc'])
    rw [after_snoc]
    have hnone := h c (by simp)
    rcases call_other (g := after calls) hnone with ⟨hne,heq⟩ | ⟨u,rfl,heq⟩
    · rw [heq]
      refine ⟨hready,fun t => ?_⟩
      rw [htgt]
      simp [(hne t).symm]
    · rw [heq]
      refine ⟨hready,fun t => ?_⟩
      by_cases ht : t=u
      · subst ht
        simp [point]
      · have hne : u.val≠t.val := fun h => ht (Fin.ext h.symm)
        have hmem : (Call.leave (t : Int)∈calls++[.leave u]) ↔ Call.leave (t : Int)∈calls := by
          simp only [List.mem_append,List.mem_singleton,Call.leave.injEq,or_iff_left_iff_imp]
          intro heq
          exact absurd heq (by omega)
        rw [if_congr hmem rfl rfl,← htgt t]
        simp [point,hne]

theorem after_set {calls : List Call} (h : ∃c∈calls,Sets c) :
    (after calls).ready=true ∧ Acyclic (after calls).next := by
  induction calls using List.reverseRecOn with
  | nil => simp at h
  | append_singleton calls c ih =>
    rw [after_snoc]
    by_cases hc : Sets c
    · refine call_sets hc ?_
      by_cases hold : ∃c∈calls,Sets c
      · obtain ⟨hready,ha⟩ := ih hold
        rwa [initOnce,if_pos hready]
      · refine initOnce_boot (after_unset fun c' hc' hs => hold ⟨c',hc',hs⟩).1
    · have hold : ∃c∈calls,Sets c := by
        obtain ⟨c',hc',hs⟩ := h
        rcases List.mem_append.mp hc' with hm | hm
        · exact ⟨c',hm,hs⟩
        · rw [List.mem_singleton.mp hm] at hs
          exact absurd hs hc
      obtain ⟨hready,ha⟩ := ih hold
      rcases call_other (g := after calls) hc with ⟨-,heq⟩ | ⟨t,-,heq⟩
      · rw [heq]
        exact ⟨hready,ha⟩
      · rw [heq]
        refine ⟨hready,?_⟩
        rw [point_none]
        exact ha.erase

theorem reaches_of_next_none {g : Waitfor} (h : ∀t,g.next t=none) {t u : Fin maxTasks} :
    Reaches g.next t u ↔ t=u := by
  constructor
  · intro hr
    rcases Relation.ReflTransGen.cases_head hr with heq | ⟨v,hv,_⟩
    · exact heq
    · rw [Walk.Edge,h] at hv
      cases hv
  · rintro rfl
    exact Relation.ReflTransGen.refl

/-- waitfor_enter sets the array up first, so that it refuses only a wait for the task itself. -/
theorem enter_of_unset {g : Waitfor} (h : g.ready=false) (me target : Fin maxTasks) :
    g.enter me target=
      if target=me then (false,g.initOnce) else (true,g.initOnce.point me target) := by
  have hnone : ∀t,g.initOnce.next t=none := fun t => next_eq_none (by simp [initOnce,h])
  have hiff : g.initOnce.reaches me target=true ↔ target=me := by
    rw [reaches_iff,reaches_of_next_none hnone]
  rw [enter,if_pos ⟨inRange_fin me,inRange_fin target⟩]
  exact if_congr hiff rfl rfl

theorem sound_of_empty {g : Waitfor} (h : g.ready=false) (hg : ∀t : Fin maxTasks,g.target[t]=-1) :
    g.Sound := by
  have hnone : ∀t,g.next t=none := fun t => next_eq_none (hg t)
  refine ⟨acyclic_of_next_none hnone,?_,?_⟩
  · intro me target
    rw [enter_of_unset h,reaches_of_next_none hnone]
    split <;> simp_all
  · intro me target hfalse
    rw [enter_of_unset h] at hfalse ⊢
    split at hfalse
    · rename_i heq
      rw [if_pos heq,initOnce,h]
      ext i hi
      have hval := hg ⟨i,hi⟩
      simp only [Fin.getElem_fin] at hval
      simp [hval]
    · cases hfalse

def firstTask : Fin maxTasks := ⟨0,by decide⟩

/-- A zero of boot is an edge to task 0: a cycle there, and elsewhere one that is not refused. -/
theorem not_sound_of_zero {g : Waitfor} (h : g.ready=false) {t : Fin maxTasks}
    (ht : g.target[t]=0) : ¬g.Sound := by
  intro hs
  have hedge : g.next t=some firstTask := next_eq_some.mpr ht
  have hrefused := (hs.refuses firstTask t).mpr (Relation.ReflTransGen.single hedge)
  rw [enter_of_unset h] at hrefused
  split at hrefused
  · rename_i heq
    rw [heq] at hedge
    exact hs.acyclic firstTask (Relation.TransGen.single hedge)
  · cases hrefused

/-- With the array set up, or cleared by waitfor_leave for every task, the graph is sound; with
neither, zeros of boot are left in it. -/
theorem sound_iff (calls : List Call) :
    (after calls).Sound ↔ (∃me target,InRange me ∧ InRange target ∧ .enter me target∈calls) ∨
      ∀t : Fin maxTasks,.leave t∈calls := by
  by_cases hset : ∃c∈calls,Sets c
  · obtain ⟨hready,ha⟩ := after_set hset
    refine iff_of_true (sound_of_ready hready ha) (.inl ?_)
    obtain ⟨c,hc,hs⟩ := hset
    cases c with
    | enter me target => exact ⟨me,target,hs.1,hs.2,hc⟩
    | leave me => exact hs.elim
  · obtain ⟨hready,htgt⟩ := after_unset fun c hc hs => hset ⟨c,hc,hs⟩
    have hnever : ¬∃me target,InRange me ∧ InRange target ∧ .enter me target∈calls := by
      rintro ⟨me,target,hm,ht,hc⟩
      exact hset ⟨_,hc,hm,ht⟩
    rw [or_iff_right hnever]
    constructor
    · intro hs t
      by_contra ht
      exact not_sound_of_zero hready (by rw [htgt,if_neg ht]) hs
    · intro hall
      exact sound_of_empty hready fun t => by rw [htgt,if_pos (hall t)]

/-- What the report of a stalled task then prints for task 0. -/
example : (after [.leave 1]).targetOf 0=0 := by decide +kernel

/-- Task 1 takes a free ylock before any task has waited: task 0 is then a task that waits for
itself. -/
theorem unsound_after_leave : ¬∀calls,(after calls).Sound := by
  intro h
  have hzero : (after [.leave 1]).next firstTask=some firstTask := by decide +kernel
  exact (h [.leave 1]).acyclic firstTask (Relation.TransGen.single hzero)

end Waitfor

end LugalOS.Lock
