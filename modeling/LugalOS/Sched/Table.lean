import LugalOS.Lib.Run
import Mathlib.Algebra.Order.Ring.Nat

namespace LugalOS.Sched

def maxTasks : Nat := 32

inductive TaskState where
  | unused | ready | running | blocked | dead
deriving DecidableEq, Repr

/-- What a saved stack pointer points to: the frame that a thread left on its stack when it was
switched away from for the seq-th time. Frame 0 is the one its creation primed. -/
structure Frame where
  thread : Nat
  seq : Nat
deriving DecidableEq

def taskPrioNormal : Int := 2

def taskPrioIdle : Int := 0

/-- One slot of g_tasks; the slot's index is its pid. A hart_affinity below 0 is none. A stack is
named by its allocation. `thread` and `making` are history: the thread the slot stands for, and
whether task_create_full is between reserving the slot and publishing it. -/
structure Task where
  state : TaskState := .unused
  sp : Option Frame := none
  stackBase : Option Nat := none
  hartAffinity : Option Nat := none
  priority : Int := taskPrioNormal
  wakeAtMs : Nat := 0
  waitArmed : Bool := false
  wakePending : Bool := false
  thread : Option Nat := none
  making : Bool := false

/-- What next_runnable does to a sleeper whose time has come. -/
def Task.awake (now : Nat) (t : Task) : Task :=
  if t.state=.blocked ∧ t.wakeAtMs≠0 ∧ t.wakeAtMs≤now then {t with wakeAtMs := 0,state := .ready}
  else t

/-- READY, and not pinned to another hart. -/
def Task.runsOn (h : Nat) (t : Task) : Bool :=
  t.state==.ready && (t.hartAffinity==none || t.hartAffinity==some h)

/-- The loop of next_runnable over the slots still to visit, with the best candidate so far. -/
def scan (now h : Nat) : List Nat → (Nat → Task) → Option Nat → Int → Option Nat × (Nat → Task)
  | [],tasks,chosen,_ => (chosen,tasks)
  | i::is,tasks,chosen,prio =>
    let t := (tasks i).awake now
    if t.runsOn h && decide (prio<t.priority) then
      scan now h is (Function.update tasks i t) (some i) t.priority
    else scan now h is (Function.update tasks i t) chosen prio

def scanOrder (prev : Nat) : List Nat := (List.range maxTasks).map fun k => (prev+k+1)%maxTasks

def nextRunnable (now h prev : Nat) (tasks : Nat → Task) : Option Nat × (Nat → Task) :=
  scan now h (scanOrder prev) tasks none (-1)

def schedPeekRunnable (h : Nat) (tasks : Nat → Task) : Bool :=
  (List.range maxTasks).any fun i => (tasks i).runsOn h

theorem awake_awake (now : Nat) (t : Task) : (t.awake now).awake now=t.awake now := by
  unfold Task.awake
  split <;> simp_all

theorem scan_spec (now h : Nat) (is : List Nat) : ∀(tasks : Nat → Task) (c : Option Nat) (p : Int),
    (scan now h is tasks c p).2=(fun i => if i∈is then (tasks i).awake now else tasks i) ∧
    ∀n,(scan now h is tasks c p).1=some n →
      c=some n ∨ n∈is ∧ ((tasks n).awake now).runsOn h=true := by
  induction is with
  | nil => intro tasks c p; exact ⟨by simp [scan],fun n hn => .inl hn⟩
  | cons i is ih =>
    intro tasks c p
    -- a slot visited again is already awake
    have hsame (j : Nat) : ((Function.update tasks i ((tasks i).awake now)) j).awake now=
        (tasks j).awake now := by
      by_cases hj : j=i
      · subst hj; rw [Function.update_self,awake_awake]
      · rw [Function.update_of_ne hj]
    have htasks (c' : Option Nat) (p' : Int) :
        (scan now h is (Function.update tasks i ((tasks i).awake now)) c' p').2=
          fun j => if j∈i::is then (tasks j).awake now else tasks j := by
      rw [(ih _ c' p').1]
      funext j
      by_cases hj : j∈is
      · simp only [hj,if_true,List.mem_cons,or_true,hsame]
      · by_cases hi : j=i
        · subst hi; simp [hj]
        · simp [hj,hi]
    simp only [scan]
    split
    next hrun =>
      rw [Bool.and_eq_true] at hrun
      refine ⟨htasks _ _,fun n hn => ?_⟩
      rcases (ih _ _ _).2 n hn with he | ⟨hmem,hr⟩
      · cases he; exact .inr ⟨List.mem_cons_self,hrun.1⟩
      · rw [hsame] at hr; exact .inr ⟨List.mem_cons_of_mem _ hmem,hr⟩
    next =>
      refine ⟨htasks _ _,fun n hn => ?_⟩
      rcases (ih _ _ _).2 n hn with he | ⟨hmem,hr⟩
      · exact .inl he
      · rw [hsame] at hr; exact .inr ⟨List.mem_cons_of_mem _ hmem,hr⟩

theorem mem_scanOrder {prev i : Nat} (h : i < maxTasks) : i∈scanOrder prev := by
  simp only [scanOrder,List.mem_map,List.mem_range]
  refine ⟨(i+maxTasks-1-prev%maxTasks)%maxTasks,Nat.mod_lt _ (by decide),?_⟩
  unfold maxTasks at *
  omega

theorem lt_of_mem_scanOrder {prev i : Nat} (h : i∈scanOrder prev) : i < maxTasks := by
  simp only [scanOrder,List.mem_map,List.mem_range] at h
  obtain ⟨k,_,rfl⟩ := h
  exact Nat.mod_lt _ (by decide)

theorem nextRunnable_tasks (now h prev : Nat) (tasks : Nat → Task) {i : Nat} (hi : i < maxTasks) :
    (nextRunnable now h prev tasks).2 i=(tasks i).awake now := by
  unfold nextRunnable
  rw [(scan_spec now h _ tasks none (-1)).1]
  exact if_pos (mem_scanOrder hi)

theorem nextRunnable_chosen {now h prev : Nat} {tasks : Nat → Task} {n : Nat}
    (hn : (nextRunnable now h prev tasks).1=some n) :
    n < maxTasks ∧ ((tasks n).awake now).runsOn h=true := by
  rcases (scan_spec now h _ tasks none (-1)).2 n hn with he | ⟨hm,hr⟩
  · cases he
  · exact ⟨lt_of_mem_scanOrder hm,hr⟩

end LugalOS.Sched
