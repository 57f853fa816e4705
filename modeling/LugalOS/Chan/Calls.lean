import LugalOS.Chan.Endpoint

namespace LugalOS.Chan

open Sched (maxTasks)

/-- Where a context stands in ep_claim: before its first lock section; in the loop at its top,
before its lock section, before its task_block_until_ms and inside; in the task_sleep_ms of one
that found the queue full; after the loop with the claim it was handed, or without. `joined` is
history: it joined the queue in this turn of the loop. -/
inductive Claiming where
  | enter
  | top (queued : Bool)
  | test (queued : Bool)
  | block (joined : Bool)
  | waits
  | sleep
  | sleepBlock
  | sleepWaits
  | took
  | gaveUp (queued : Bool)
deriving DecidableEq

/-- Where a context stands in chan_call_task: before its two reads of the owner's state and
waitfor_enter, before each store of the request, in the loop that ends when caller_pid changes. -/
inductive Asking where
  | ifUnused
  | ifDead
  | enter
  | prepare
  | setLen
  | setCaller
  | setReply
  | setPending
  | wakeOwner
  | block
  | waits
  | test
  | prepareAgain
  | testAgain
  | done
deriving DecidableEq

/-- Where a task stands in task_exit: in chan_owner_exited's visit of this endpoint, or before the
switch away. -/
inductive Exiting where
  | queue
  | wake (next : Nat)
  | test
  | fail
  | unset
  | caller
  | clear (caller : Option Nat)
  | wakeCaller (caller : Option Nat)
  | switch
deriving DecidableEq

/-- Where a context stands: outside, in a call of the chan_call family, or in task_exit. -/
inductive Pc where
  | idle
  | claiming (a : Args) (k : Claiming)
  | copyIn (a : Args) (i : Nat)
  | asking (a : Args) (k : Asking)
  | fetch (a : Args)
  | copyOut (a : Args) (n : Nat) (got : List UInt8)
  | release (a : Args) (ret : Int) (out : List UInt8)
  | wakeNext (a : Args) (ret : Int) (out : List UInt8) (next : Nat)
  | exiting (k : Exiting)
  | halted
deriving DecidableEq

/-- Where the owner stands: in chan_serve_wait, at work on a request with the bytes of it that it
has read, or in chan_serve_reply. -/
inductive Serve where
  | out
  | test
  | prepare
  | testAgain
  | block
  | waits
  | waitDone
  | fetchLen
  | works (len : Nat) (reads : List (Nat × UInt8))
  | unset
  | caller
  | clear (caller : Option Nat)
  | wake (caller : Option Nat)
deriving DecidableEq

def Serve.own : Serve → Bool
  | .out => true
  | .works _ _ => true
  | _ => false

/-- A reply the owner gave: the length of the request it was for, what the owner had read of it,
and the reply's bytes. -/
structure Served where
  len : Nat
  reads : List (Nat × UInt8)
  reply : List UInt8
deriving DecidableEq

/-- The history of a context's latest call: the replies given before its claim, its claims and
releases, the replies given between them, and whether it began after the owner had exited. -/
structure Note where
  mark : Nat := 0
  claimed : Nat := 0
  released : Nat := 0
  served : List Served := []
  late : Bool := false
deriving DecidableEq

/-- What a call returned, and the bytes it put in the caller's buffer. -/
structure Result where
  ctx : Nat
  args : Args
  ret : Int
  out : List UInt8
  note : Note
deriving DecidableEq

/-- One endpoint and every context that can use it: tasks below maxTasks, harts without a task
from there on. `log`, `note`, `results` and `ownerGone` are history: every reply given, the calls
that returned, and whether the owner's task_exit has reached its end. -/
structure State where
  ep : Endpoint
  life : Nat → Life
  cell : Nat → Cell
  call : Nat → Pc
  serve : Serve
  log : List Served
  note : Nat → Note
  results : List Result
  ownerGone : Bool

/-- After chan_register_task. -/
def start (ep : Endpoint) (life : Nat → Life) (cell : Nat → Cell) : State where
  ep := ep
  life := life
  cell := cell
  call := fun _ => .idle
  serve := .out
  log := []
  note := fun _ => {}
  results := []
  ownerGone := life ep.ownerPid==.dead

namespace State

def setCall (s : State) (c : Nat) (k : Pc) : State := {s with call := Function.update s.call c k}

def setServe (s : State) (k : Serve) : State := {s with serve := k}

def modCell (s : State) (c : Nat) (f : Cell → Cell) : State :=
  {s with cell := Function.update s.cell c (f (s.cell c))}

def modNote (s : State) (c : Nat) (f : Note → Note) : State :=
  {s with note := Function.update s.note c (f (s.note c))}

/-- task_unblock. -/
def wake (s : State) : Option Nat → State
  | none => s
  | some p => s.modCell p Cell.unblock

def claims (s : State) (c : Nat) : State :=
  s.modNote c fun n => {n with claimed := n.claimed+1,mark := s.log.length}

def returns (s : State) (c : Nat) (a : Args) (ret : Int) (out : List UInt8) : State :=
  {s.setCall c .idle with results := ⟨c,a,ret,out,s.note c⟩::s.results}

def Runs (s : State) (c : Nat) : Prop :=
  maxTasks≤c ∨ s.life c=.alive ∧ (s.cell c).rest≠.blocked

/-- The context runs its own code, outside every call. -/
def Own (s : State) (c : Nat) : Prop :=
  (maxTasks≤c ∨ s.life c=.alive ∧ (s.cell c).rest=.run) ∧ s.call c=.idle ∧
    (c=s.ep.ownerPid → s.serve.own=true)

instance (s : State) (c : Nat) : Decidable (s.Runs c) := inferInstanceAs (Decidable (_ ∨ _))

instance (s : State) (c : Nat) : Decidable (s.Own c) := inferInstanceAs (Decidable (_ ∧ _))

end State

/-- chan_call_impl up to its claim; `refused` is lock_check_may_block, or no buffer. -/
def beginCall (c : Nat) (a : Args) (refused : Bool) (s : State) : State :=
  let s := s.modNote c fun _ => {late := s.ownerGone}
  if a.req=[] ∨ s.ep.reqCap<a.req.length ∨ refused=true then s.returns c a (-1) []
  else s.setCall c (.claiming a .enter)

/-- A step of ep_claim. `alt` is what it does not compute here: at its entry, that it runs in an
interrupt handler or before the scheduler is active; in the loop, that its time is over; at a
block, that nothing else can run. -/
def epClaim (c : Nat) (a : Args) (alt : Bool) (s : State) : Claiming → State
  | .enter =>
    if s.ep.busy=false then
      ({s with ep := {s.ep with busy := true,holder := some c}}.claims c).setCall c (.copyIn a 0)
    else if a.waitMs=0 ∨ s.ep.holder=some c ∨ maxTasks≤c ∨ alt=true then s.returns c a (-1) []
    else if s.ep.wq.len<chanWaitqLen then
      {s with ep := s.ep.wqPush c}.setCall c (.claiming a (.top true))
    else s.setCall c (.claiming a (.top false))
  | .top queued =>
    (if queued then s.modCell c Cell.prepare else s).setCall c (.claiming a (.test queued))
  | .test true =>
    if s.ep.handedTo=some c then
      ({s with ep := {s.ep with handedTo := none,holder := some c}}.claims c).setCall c
        (.claiming a .took)
    else if alt then {s with ep := s.ep.wqRemove c}.setCall c (.claiming a (.gaveUp true))
    else s.setCall c (.claiming a (.block false))
  | .test false =>
    if s.ep.busy=false then
      ({s with ep := {s.ep with busy := true,holder := some c}}.claims c).setCall c (.copyIn a 0)
    else if s.ep.wq.len<chanWaitqLen then
      if alt then {s with ep := (s.ep.wqPush c).wqRemove c}.setCall c (.claiming a (.gaveUp true))
      else {s with ep := s.ep.wqPush c}.setCall c (.claiming a (.block true))
    else s.setCall c (.claiming a (if alt then .gaveUp false else .sleep))
  | .block _ =>
    let x := (s.cell c).block alt
    (s.modCell c fun _ => x.1).setCall c (.claiming a (if x.2 then .top true else .waits))
  | .waits => (s.modCell c Cell.resume).setCall c (.claiming a (.top true))
  | .sleep => s.setCall c (.claiming a (if alt then .top false else .sleepBlock))
  | .sleepBlock =>
    let x := (s.cell c).block alt
    (s.modCell c fun _ => x.1).setCall c (.claiming a (if x.2 then .sleep else .sleepWaits))
  | .sleepWaits => (s.modCell c Cell.resume).setCall c (.claiming a .sleep)
  | .took => (s.modCell c Cell.waitDone).setCall c (.copyIn a 0)
  | .gaveUp queued => (if queued then s.modCell c Cell.waitDone else s).returns c a (-1) []

/-- A step of chan_call_task. `alt` is that waitfor_enter refuses, or that nothing else can run. -/
def chanCallTask (c : Nat) (a : Args) (alt : Bool) (s : State) : Asking → State
  | .ifUnused => s.setCall c
      (if s.life s.ep.ownerPid=.unused then .release a (-1) [] else .asking a .ifDead)
  | .ifDead => s.setCall c
      (if s.life s.ep.ownerPid=.dead then .release a (-1) [] else .asking a .enter)
  | .enter => s.setCall c
      (if maxTasks≤c ∨ alt=true then .release a (-1) [] else .asking a .prepare)
  | .prepare => (s.modCell c Cell.prepare).setCall c (.asking a .setLen)
  | .setLen => {s with ep := {s.ep with reqLen := a.req.length}}.setCall c (.asking a .setCaller)
  | .setCaller => {s with ep := {s.ep with callerPid := some c}}.setCall c (.asking a .setReply)
  | .setReply => {s with ep := {s.ep with replyLen := -1}}.setCall c (.asking a .setPending)
  | .setPending =>
    {s with ep := {s.ep with requestPending := true}}.setCall c (.asking a .wakeOwner)
  | .wakeOwner => (s.wake (some s.ep.ownerPid)).setCall c (.asking a .block)
  | .block =>
    let x := (s.cell c).block alt
    (s.modCell c fun _ => x.1).setCall c (.asking a (if x.2 then .test else .waits))
  | .waits => (s.modCell c Cell.resume).setCall c (.asking a .test)
  | .test => s.setCall c (.asking a (if s.ep.callerPid=some c then .prepareAgain else .done))
  | .prepareAgain => (s.modCell c Cell.prepare).setCall c (.asking a .testAgain)
  | .testAgain => s.setCall c (.asking a (if s.ep.callerPid=some c then .block else .done))
  | .done => (s.modCell c Cell.waitDone).setCall c (.fetch a)

/-- chan_owner_exited for the task c at this endpoint, and the rest of task_exit. `alt` is that no
other task can run. -/
def taskExit (c : Nat) (alt : Bool) (s : State) : Exiting → State
  | .queue =>
    let ep := s.ep.wqRemove c
    if ep.busy=true ∧ ep.holder=some c then
      let x := {ep with handedTo := none}.releaseLocked s.life
      {s with ep := x.1}.setCall c
        (.exiting (match x.2 with | some p => .wake p | none => .test))
    else {s with ep := ep}.setCall c (.exiting .test)
  | .wake p => (s.wake (some p)).setCall c (.exiting .test)
  | .test => s.setCall c
      (.exiting (if s.ep.ownerPid=c ∧ s.ep.requestPending=true then .fail else .switch))
  | .fail => {s with ep := {s.ep with replyLen := -1}}.setCall c (.exiting .unset)
  | .unset => {s with ep := {s.ep with requestPending := false}}.setCall c (.exiting .caller)
  | .caller => s.setCall c (.exiting (.clear s.ep.callerPid))
  | .clear who => {s with ep := {s.ep with callerPid := none}}.setCall c (.exiting (.wakeCaller who))
  | .wakeCaller who => (s.wake who).setCall c (.exiting .switch)
  | .switch =>
    let s := {s with ownerGone := s.ownerGone || c==s.ep.ownerPid}
    if alt then s.setCall c .halted
    else {s.setCall c .idle with life := Function.update s.life c .dead}

/-- A step of the code the context c is in. In the copies `alt` is a fault of the caller's
memory. -/
def go (c : Nat) (alt : Bool) (s : State) : Pc → Option State
  | .idle => none
  | .claiming a k => some (epClaim c a alt s k)
  | .copyIn a i =>
    if a.user ∧ alt then some (s.setCall c (.release a (-1) []))
    else
      match a.req[i]? with
      | some b => some ({s with ep := {s.ep with reqBuf := Function.update s.ep.reqBuf i b}}.setCall
          c (.copyIn a (i+1)))
      | none => some (s.setCall c (.asking a .ifUnused))
  | .asking a k => some (chanCallTask c a alt s k)
  | .fetch a =>
    let v := s.ep.replyLen
    some (s.setCall c (if v<0 ∨ s.ep.respCap<v ∨ a.respMax<v then .release a (-1) []
      else if 0<v ∧ (a.user ∨ a.resp) then .copyOut a v.toNat [] else .release a v []))
  | .copyOut a n got =>
    some (s.setCall c (if a.user ∧ alt then .release a (-1) []
      else if got.length<n then .copyOut a n (got++[s.ep.respBuf got.length])
      else .release a n got))
  | .release a ret out =>
    let x := s.ep.releaseLocked s.life
    let s := {s with ep := x.1}.modNote c fun n =>
      {n with released := n.released+1,served := s.log.drop n.mark}
    match x.2 with
    | some p => some (s.setCall c (.wakeNext a ret out p))
    | none => some (s.returns c a ret out)
  | .wakeNext a ret out p => some ((s.wake (some p)).returns c a ret out)
  | .exiting k => some (taskExit c alt s k)
  | .halted => none

/-- A step of chan_serve_wait or of what chan_serve_reply does after its first store. -/
def serveGo (alt : Bool) (s : State) : Serve → Option State
  | .out => none
  | .test => some (s.setServe (if s.ep.requestPending then .fetchLen else .prepare))
  | .prepare => some ((s.modCell s.ep.ownerPid Cell.prepare).setServe .testAgain)
  | .testAgain => some (s.setServe (if s.ep.requestPending then .waitDone else .block))
  | .block =>
    let x := (s.cell s.ep.ownerPid).block alt
    some ((s.modCell s.ep.ownerPid fun _ => x.1).setServe (if x.2 then .prepare else .waits))
  | .waits => some ((s.modCell s.ep.ownerPid Cell.resume).setServe .prepare)
  | .waitDone => some ((s.modCell s.ep.ownerPid Cell.waitDone).setServe .fetchLen)
  | .fetchLen => some (s.setServe (.works s.ep.reqLen []))
  | .works _ _ => none
  | .unset => some ({s with ep := {s.ep with requestPending := false}}.setServe .caller)
  | .caller => some (s.setServe (.clear s.ep.callerPid))
  | .clear who => some ({s with ep := {s.ep with callerPid := none}}.setServe (.wake who))
  | .wake who => some ((s.wake who).setServe .out)

/-- What the owner's own code does with the request it has, and the first store of
chan_serve_reply. -/
inductive Work where
  | read (i : Nat)
  | write (i : Nat) (b : UInt8)
  | reply (respLen : Nat)
deriving DecidableEq

def serveWork (s : State) (len : Nat) (reads : List (Nat × UInt8)) : Work → Option State
  | .read i =>
    if i<len then some (s.setServe (.works len (reads++[(i,s.ep.reqBuf i)]))) else none
  | .write i b =>
    if i < s.ep.respCap then
      some {s with ep := {s.ep with respBuf := Function.update s.ep.respBuf i b}}
    else none
  | .reply n =>
    if n<0x100000000 then
      let reply := (List.range (min n s.ep.respCap)).map s.ep.respBuf
      let s := {s with ep := {s.ep with replyLen := toInt n},log := s.log++[Served.mk len reads reply]}
      some (s.setServe .unset)
    else none

/-- What happens next. A context begins a call or exits, or its code goes on; so does the owner's.
From outside, a task is woken, a deadline passes, a task's other waits change its cell, and
task_create_full reserves a slot and gives it up or publishes the new task. -/
inductive Ev where
  | begin (c : Nat) (a : Args) (refused : Bool)
  | exit (c : Nat)
  | go (c : Nat) (alt : Bool)
  | serveWait
  | serveGo (alt : Bool)
  | serveWork (w : Work)
  | wake (p : Nat)
  | timeout (p : Nat)
  | elsewhere (p : Nat) (cell : Cell)
  | reserve (k : Nat)
  | giveUp (k : Nat)
  | publish (k : Nat)
deriving DecidableEq

/-- The task sleeps with a deadline in one of ep_claim's waits. -/
def Pc.timed : Pc → Bool
  | .claiming _ .waits => true
  | .claiming _ .sleepWaits => true
  | _ => false

def exec (s : State) : Ev → Option State
  | .begin c a refused =>
    if s.Own c then some (beginCall c a refused s) else none
  | .exit c =>
    if c < maxTasks ∧ s.Own c then
      some ((if c=s.ep.ownerPid then s.setServe .out else s).setCall c (.exiting .queue))
    else none
  | .go c alt => if s.Runs c then go c alt s (s.call c) else none
  | .serveWait =>
    if s.Own s.ep.ownerPid then some (s.setServe .test) else none
  | .serveGo alt =>
    if s.Runs s.ep.ownerPid ∧ s.call s.ep.ownerPid=.idle then serveGo alt s s.serve else none
  | .serveWork w =>
    match s.serve with
    | .works len reads => if s.Own s.ep.ownerPid then serveWork s len reads w else none
    | _ => none
  | .wake p => if p < maxTasks then some (s.wake (some p)) else none
  | .timeout p => if (s.call p).timed then some (s.modCell p Cell.expire) else none
  | .elsewhere p cell =>
    if p < maxTasks ∧ s.life p=.alive ∧ s.call p=.idle ∧ (p=s.ep.ownerPid → s.serve.own=true) ∧
        cell.rest≠.polling then some (s.modCell p fun _ => cell) else none
  | .reserve k =>
    if k < maxTasks ∧ (s.life k=.unused ∨ s.life k=.dead) then
      some {s with life := Function.update s.life k .reserved}
    else none
  | .giveUp k =>
    if k < maxTasks ∧ s.life k=.reserved then
      some {s with life := Function.update s.life k .unused} else none
  | .publish k =>
    if k < maxTasks ∧ s.life k=.reserved then
      some ({s with life := Function.update s.life k .alive}.modCell k fun _ => {})
    else none

def Step (s : State) (e : Ev) (s' : State) : Prop := exec s e=some s'

end LugalOS.Chan
