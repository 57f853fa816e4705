import LugalOS.Lib.Ring
import LugalOS.Sched.Table

namespace LugalOS.Chan

open Sched (maxTasks)

def chanWaitqLen : Nat := 8

/-- What sched_task_state tells of a slot: a slot that task_create_full has reserved is BLOCKED. -/
inductive Life where
  | unused | reserved | alive | dead
deriving DecidableEq

/-- A task-owned endpoint. -/
structure Endpoint where
  ownerPid : Nat
  callerPid : Option Nat := none
  reqLen : Nat := 0
  replyLen : Int := -1
  requestPending : Bool := false
  reqBuf : Nat → UInt8
  reqCap : Nat
  respBuf : Nat → UInt8
  respCap : Nat
  busy : Bool := false
  holder : Option Nat := none
  wq : Ring Nat chanWaitqLen := ⟨fun _ => 0,0,0⟩
  handedTo : Option Nat := none

/-- chan_register_task, for a slot that is in use. -/
def chanRegisterTask (state : Life) (ownerPid : Nat) (reqBuf : Nat → UInt8) (reqCap : Nat)
    (respBuf : Nat → UInt8) (respCap : Nat) : Option Endpoint :=
  if reqCap=0 ∨ respCap=0 ∨ maxTasks≤ownerPid ∨ state=.unused then none
  else some {ownerPid := ownerPid,reqBuf := reqBuf,reqCap := reqCap,respBuf := respBuf,
             respCap := respCap}

namespace Endpoint

def wqPush (ep : Endpoint) (pid : Nat) : Endpoint := {ep with wq := ep.wq.push pid}

def wqRemove (ep : Endpoint) (pid : Nat) : Endpoint := {ep with wq := ep.wq.remove pid}

/-- The loop of release_locked over k waiters; the result is the pid to wake. -/
def releaseLoop (life : Nat → Life) : Nat → Endpoint → Endpoint × Option Nat
  | 0,ep => ({ep with busy := false,holder := none},none)
  | k+1,ep =>
    let pid := ep.wq.get 0
    let ep := {ep with wq := ep.wq.pop}
    if life pid=.unused ∨ life pid=.dead then releaseLoop life k ep
    else ({ep with handedTo := some pid,holder := some pid},some pid)

def releaseLocked (life : Nat → Life) (ep : Endpoint) : Endpoint × Option Nat :=
  releaseLoop life ep.wq.len ep

theorem releaseLocked_nil {life : Nat → Life} {ep : Endpoint} (h : ep.wq.toList=[]) :
    ep.releaseLocked life=({ep with busy := false,holder := none},none) := by
  have hl : ep.wq.len=0 := by rw [← Ring.length_toList,h]; rfl
  rw [releaseLocked,hl]
  rfl

theorem releaseLocked_cons {life : Nat → Life} {ep : Endpoint} {p : Nat} {rest : List Nat}
    (h : ep.wq.toList=p::rest) (hp : life p≠.unused ∧ life p≠.dead) :
    ep.releaseLocked life=
      ({ep with wq := ep.wq.pop,handedTo := some p,holder := some p},some p) ∧
    ep.wq.pop.toList=rest := by
  have hl : ep.wq.len=rest.length+1 := by rw [← Ring.length_toList,h]; rfl
  have ht := Ring.toList_pop (r := ep.wq) (by omega)
  rw [h] at ht
  obtain ⟨hg,hr⟩ := List.cons.inj ht
  refine ⟨?_,hr.symm⟩
  rw [releaseLocked,hl]
  simp only [releaseLoop,← hg]
  rw [if_neg (not_or.mpr hp)]

end Endpoint

/-- Whether a task runs (or is READY to), is BLOCKED, or waits inside task_block on a hart that
has nothing else to run. -/
inductive Rest where
  | run | blocked | polling
deriving DecidableEq

/-- What the scheduler keeps of a task's waits: its state, wait_armed and wake_pending. -/
structure Cell where
  rest : Rest := .run
  armed : Bool := false
  pending : Bool := false
deriving DecidableEq

namespace Cell

/-- task_prepare_block. -/
def prepare (c : Cell) : Cell := {c with armed := true,pending := false}

/-- task_wait_done. -/
def waitDone (c : Cell) : Cell := {c with armed := false,pending := false}

/-- task_unblock. -/
def unblock (c : Cell) : Cell :=
  if c.rest=.blocked then {c with rest := .run,armed := false}
  else if c.armed then {c with pending := true} else c

/-- A deadline passes: next_runnable makes the sleeper READY. -/
def expire (c : Cell) : Cell := if c.rest=.blocked then {c with rest := .run} else c

/-- task_block up to where it waits, and whether it returned at once: woken by its token, or
(`alone`) unprepared where nothing else can run. -/
def block (alone : Bool) (c : Cell) : Cell × Bool :=
  if c.pending then ({c with armed := false,pending := false},true)
  else if alone then
    if c.armed then ({c with rest := .polling},false) else (c,true)
  else ({rest := .blocked,armed := false,pending := false},false)

/-- task_block returns. -/
def resume (c : Cell) : Cell := {c with rest := .run}

end Cell

/-- What a caller asks for. `resp` is whether it gave a response buffer, `user` whether its
memory is a U-mode task's. -/
structure Args where
  req : List UInt8
  respMax : Nat
  resp : Bool
  user : Bool
  waitMs : Nat
deriving DecidableEq

def chanCall (req : List UInt8) (resp : Bool) (respMax : Nat) : Args :=
  ⟨req,respMax,resp,false,0⟩

def chanCallWait (req : List UInt8) (resp : Bool) (respMax waitMs : Nat) : Args :=
  ⟨req,respMax,resp,false,waitMs⟩

/-- The conversion of a uint32_t to int. -/
def toInt (n : Nat) : Int := if n<0x80000000 then n else n-0x100000000

theorem toInt_eq {n m : Nat} (hn : n<0x100000000) (h : toInt n=m) : n=m := by
  unfold toInt at h
  split at h <;> omega

end LugalOS.Chan
