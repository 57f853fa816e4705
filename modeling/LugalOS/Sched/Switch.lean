import LugalOS.Sched.Table

namespace LugalOS.Sched

/-- Where a call of sched_reap stands: before it takes the hart's slot, or with the stack it took,
before palloc_free. -/
inductive Reap where
  | take
  | free (stack : Nat)
deriving DecidableEq

/-- Where a call of sched_switch stands: in its first sched_reap, before it takes g_sched_lock,
with the lock before next_runnable, with the switch chosen before ctx_switch, back from ctx_switch
with the lock it was handed, in its last sched_reap. -/
inductive Phase where
  | reapFirst (r : Reap)
  | enter
  | pick (prepared : Bool)
  | cross (prev next : Nat)
  | landed
  | reapLast (r : Reap)
deriving DecidableEq

/-- What the caller of task_block does when it returns: nothing more, task_block_until_ms's second
half, or the loop of task_sleep_ms. -/
inductive After where
  | user
  | clear
  | sleep (until_ : Nat)
deriving DecidableEq

/-- Where a thread stands in its own code. -/
inductive Main where
  | start
  | startReap (r : Reap)
  | user
  | yield (p : Phase)
  | block (p : Phase) (k : After)
  | idle (k : After)
  | clearWake
  | sleep (until_ : Nat)
  | sleepArm (until_ : Nat)
  | alloc (slot : Nat) (hart : Option Nat)
  | fill (slot : Nat) (hart : Option Nat) (stack : Nat)
  | prime (slot stack : Nat)
  | publish (slot : Nat)
  | exiting
  | exitCross (prev next : Nat)
  | gone
  | halted
  | bug
deriving DecidableEq

/-- An interrupt taken on top of a thread's own code: its handler, or the handler's sched_yield. -/
inductive Inner where
  | isr
  | yield (p : Phase)
deriving DecidableEq

/-- A thread of execution and the stack it runs on (none: a boot stack). `parks` counts how often
it has been switched away from. -/
structure Thread where
  inner : List Inner := []
  main : Main := .start
  parks : Nat := 0
  stack : Option Nat := none

/-- The scheduler's state. `running` is the thread whose code a hart executes; a hart of
`current` none owns no task. `freed` is history: the stacks given to palloc_free. -/
structure Sys where
  tasks : Nat → Task
  current : Nat → Option Nat
  lock : Option Nat
  reapStack : Nat → Option Nat
  running : Nat → Nat
  threads : Nat → Thread
  nextThread : Nat
  nextStack : Nat
  clock : Nat
  freed : List Nat

/-- The state sched_init leaves: the boot context is task 0 on hart 0. -/
def schedInit (harts : Nat) : Sys where
  tasks := Function.update (fun _ => {}) 0 {state := .running,hartAffinity := some 0,thread := some 0}
  current := fun h => if h=0 then some 0 else none
  lock := none
  reapStack := fun _ => none
  running := id
  threads := fun t => if t<harts then {main := .user} else {}
  nextThread := harts+1
  nextStack := 0
  clock := 0
  freed := []

namespace Sys

def modTask (s : Sys) (i : Nat) (f : Task → Task) : Sys :=
  {s with tasks := Function.update s.tasks i (f (s.tasks i))}

def modThread (s : Sys) (t : Nat) (f : Thread → Thread) : Sys :=
  {s with threads := Function.update s.threads t (f (s.threads t))}

def setMain (s : Sys) (t : Nat) (m : Main) : Sys := s.modThread t fun th => {th with main := m}

def setInner (s : Sys) (t : Nat) (l : List Inner) : Sys :=
  s.modThread t fun th => {th with inner := l}

/-- A section under g_sched_lock that ends where it began. -/
def locked (s : Sys) (f : Sys) : Option Sys := if s.lock=none then some f else none

end Sys

/-- One step of sched_reap on hart h, and where the call goes on (none: it returned). -/
def schedReap (h : Nat) (r : Reap) (s : Sys) : Option (Sys × Option Reap) :=
  match r with
  | .take =>
    if s.lock=none then
      match s.reapStack h with
      | none => some (s,none)
      | some st => some ({s with reapStack := Function.update s.reapStack h none},some (.free st))
    else none
  | .free st => some ({s with freed := st::s.freed},none)

/-- The frame can be switched to: its thread has not run since it was parked, and has not given
its stack up. -/
def Intact (harts : Nat) (s : Sys) (f : Frame) : Prop :=
  f.seq=(s.threads f.thread).parks ∧ (s.threads f.thread).main≠.gone ∧
    ∀g,g<harts → s.running g≠f.thread

instance (harts : Nat) (s : Sys) (f : Frame) : Decidable (Intact harts s f) :=
  inferInstanceAs (Decidable (_ ∧ _ ∧ _))

/-- ctx_switch: parks the outgoing sp in prev's slot and goes on at next's. Onto a frame that is not
intact it is no step here; `stray` is that switch. -/
def ctxSwitch (harts h prev next : Nat) (s : Sys) : Option Sys :=
  match (s.tasks next).sp with
  | none => none
  | some f =>
    if Intact harts s f then
      let t := s.running h
      some {(s.modTask prev fun p => {p with sp := some ⟨t,(s.threads t).parks+1⟩}).modThread t
        fun th => {th with parks := th.parks+1} with running := Function.update s.running h f.thread}
    else none

/-- How a step of sched_switch ends: still inside, or with what it returns. -/
inductive Out where
  | at_ (p : Phase)
  | ran
  | woken
  | idle

/-- One step of sched_switch(block) on hart h. -/
def schedSwitch (harts h : Nat) (block : Bool) (p : Phase) (s : Sys) : Option (Sys × Out) :=
  match p with
  | .reapFirst r => (schedReap h r s).map fun x =>
      (x.1,match x.2 with | none => .at_ .enter | some r => .at_ (.reapFirst r))
  | .enter =>
    if s.lock=none then
      match s.current h with
      | none => none
      | some prev =>
        let t := s.tasks prev
        if block then
          let s := s.modTask prev fun t => {t with waitArmed := false,wakePending := false}
          if t.wakePending then some (s,.woken)
          else some ({s.modTask prev fun t => {t with state := .blocked} with lock := some h},
            .at_ (.pick t.waitArmed))
        else some ({s with lock := some h},.at_ (.pick false))
    else none
  | .pick prepared =>
    if s.lock=some h then
      match s.current h with
      | none => none
      | some prev =>
        let (next,tasks) := nextRunnable s.clock h prev s.tasks
        let s := {s with tasks := tasks}
        match next with
        | none => some ({if block && (tasks prev).state != .running then
            s.modTask prev fun t => {t with state := .running,waitArmed := prepared} else s
            with lock := none},.idle)
        | some n =>
          if n=prev then some ({s.modTask prev fun t => {t with state := .running} with lock := none},.ran)
          else
            let s := if (tasks prev).state=.running then
              s.modTask prev fun t => {t with state := .ready} else s
            some ({s.modTask n fun t => {t with state := .running}
              with current := Function.update s.current h (some n)},.at_ (.cross prev n))
    else none
  | .cross prev n => if s.lock=some h then
      (ctxSwitch harts h prev n s).map fun s => (s,.at_ .landed)
    else none
  | .landed => if s.lock=some h then some ({s with lock := none},.at_ (.reapLast .take)) else none
  | .reapLast r => (schedReap h r s).map fun x =>
      (x.1,match x.2 with | none => .ran | some r => .at_ (.reapLast r))

def After.next : After → Main
  | .user => .user
  | .clear => .clearWake
  | .sleep e => .sleep e

/-- task_block after sched_switch(true). -/
def Out.block (k : After) : Out → Main
  | .at_ p => .block p k
  | .ran => k.next
  | .woken => k.next
  | .idle => .idle k

/-- sched_yield. -/
def Out.yield : Out → Main
  | .at_ p => .yield p
  | _ => .user

/-- The sched_yield of an interrupt handler, on top of `rest`. -/
def Out.inner (rest : List Inner) : Out → List Inner
  | .at_ p => .yield p::rest
  | _ => rest

def taskUnblock (pid : Nat) (s : Sys) : Option Sys :=
  if pid < maxTasks then
    s.locked (s.modTask pid fun t =>
      if t.state=.blocked then {t with waitArmed := false,wakeAtMs := 0,state := .ready}
      else if t.waitArmed then {t with wakePending := true} else t)
  else some s

/-- The first slot that task_create_full may take; slot 0 is the boot task's. -/
def freeSlot (tasks : Nat → Task) : Option Nat :=
  (List.range maxTasks).find? fun i => i != 0 && ((tasks i).state == .unused || (tasks i).state == .dead)

def unusedSlot (tasks : Nat → Task) : Option Nat :=
  (List.range maxTasks).find? fun i => i != 0 && (tasks i).state == .unused

/-- The calls a thread can make from its own code. -/
inductive Call where
  | yield
  | prepareBlock
  | waitDone
  | block
  | blockUntil (deadline : Nat)
  | sleep (ms : Nat)
  | unblock (pid : Nat)
  | create (hart : Option Nat)
  | exit
  | setPriority (pid : Nat) (priority : Int)
  | setAffinity (pid : Nat) (hart : Option Nat)
  | secondaryInit
deriving DecidableEq

/-- The first step of a call that thread t makes on hart h. -/
def Sys.call (harts h t : Nat) (s : Sys) : Call → Option Sys
  | .yield => some (if (s.current h).isSome then s.setMain t (.yield (.reapFirst .take)) else s)
  | .prepareBlock =>
    match s.current h with
    | none => some s
    | some c => s.locked (s.modTask c fun t => {t with waitArmed := true,wakePending := false})
  | .waitDone =>
    match s.current h with
    | none => some s
    | some c => s.locked (s.modTask c fun t => {t with waitArmed := false,wakePending := false})
  | .block => some (if (s.current h).isSome then s.setMain t (.block (.reapFirst .take) .user) else s)
  | .blockUntil d =>
    match s.current h with
    | none => some s
    | some c =>
      if d=0 then some (s.setMain t (.block (.reapFirst .take) .user))
      else s.locked ((s.modTask c fun t => {t with wakeAtMs := d}).setMain t
        (.block (.reapFirst .take) .clear))
  | .sleep ms => some (if (s.current h).isSome then s.setMain t (.sleep (s.clock+ms)) else s)
  | .unblock pid => taskUnblock pid s
  | .create hart =>
    if hart.any (harts≤·) then some s
    else
      match freeSlot s.tasks with
      | none => s.locked s
      | some k => s.locked {(s.modTask k fun t =>
          {t with state := .blocked,thread := some s.nextThread,making := true}).setMain t
            (.alloc k hart) with nextThread := s.nextThread+1}
  | .exit => some (s.setMain t (if (s.current h).isSome then .exiting else .halted))
  | .setPriority pid p =>
    some (if pid < maxTasks ∧ (s.tasks pid).state≠.unused ∧ 0≤p ∧ p≤3 then
      s.modTask pid fun t => {t with priority := p} else s)
  | .setAffinity pid hart =>
    if pid < maxTasks ∧ (s.tasks pid).state≠.unused ∧ ¬hart.any (harts≤·) then
      s.locked (s.modTask pid fun t => {t with hartAffinity := hart})
    else some s
  | .secondaryInit =>
    match s.current h with
    | some _ => none
    | none =>
      match unusedSlot s.tasks with
      | none => s.locked s
      | some k => s.locked {s.modTask k fun t => {t with
          state := .running,stackBase := none,priority := taskPrioIdle,hartAffinity := some h,
          thread := some (s.running h)} with current := Function.update s.current h (some k)}

/-- task_exit from where it takes the lock: the hand-over, or the wait without end. -/
def taskExit (h t : Nat) (s : Sys) : Option Sys :=
  if s.lock=none then
    match s.current h with
    | none => none
    | some prev =>
      let (next,tasks) := nextRunnable s.clock h prev s.tasks
      let s := {s with tasks := tasks}
      match next with
      | none => some (s.setMain t .halted)
      | some n =>
        if (s.reapStack h).isSome then some {s.setMain t .bug with lock := some h}
        else
          let s := {s with reapStack := Function.update s.reapStack h (tasks prev).stackBase}
          let s := s.modTask prev fun t => {t with state := .dead,stackBase := none}
          some {(s.modTask n fun t => {t with state := .running}).setMain t (.exitCross prev n) with
            current := Function.update s.current h (some n),lock := some h}
  else none

/-- What happens next on a hart: the code it executes goes on, an interrupt arrives, its handler
returns, a thread's own code (or a handler) makes a call, palloc_pages finds no memory, or the
clock goes on. -/
inductive Act where
  | go
  | interrupt
  | ret
  | call (c : Call)
  | noMemory
  | advance
deriving DecidableEq

/-- A step of thread t in its own code on hart h. -/
def mainStep (harts h t : Nat) (s : Sys) : Main → Act → Option Sys
  | .user,.call c => s.call harts h t c
  | .start,.go =>
    if s.lock=some h then some {s.setMain t (.startReap .take) with lock := none} else none
  | .startReap r,.go => (schedReap h r s).map fun x =>
      x.1.setMain t (match x.2 with | none => .user | some r => .startReap r)
  | .yield p,.go => (schedSwitch harts h false p s).map fun x => x.1.setMain t x.2.yield
  | .block p k,.go => (schedSwitch harts h true p s).map fun x => x.1.setMain t (x.2.block k)
  | .idle k,.go =>
    match s.current h with
    | none => none
    | some c =>
      if (s.tasks c).waitArmed=false ∨ (s.tasks c).wakePending=true ∨ schedPeekRunnable h s.tasks then
        some (s.setMain t k.next)
      else none
  | .clearWake,.go =>
    match s.current h with
    | none => none
    | some c => s.locked ((s.modTask c fun t => {t with wakeAtMs := 0}).setMain t .user)
  | .sleep e,.go => some (s.setMain t (if s.clock<e then .sleepArm e else .clearWake))
  | .sleepArm e,.go =>
    match s.current h with
    | none => none
    | some c => s.locked ((s.modTask c fun t => {t with wakeAtMs := e}).setMain t
        (.block (.reapFirst .take) (.sleep e)))
  | .alloc k hart,.go => some {s.setMain t (.fill k hart s.nextStack) with nextStack := s.nextStack+1}
  | .alloc k _,.noMemory =>
    some ((s.modTask k fun t => {t with state := .unused,making := false}).setMain t .user)
  | .fill k hart st,.go => some ((s.modTask k fun t => {t with
      stackBase := some st,hartAffinity := hart,priority := taskPrioNormal,wakeAtMs := 0,
      waitArmed := false,wakePending := false}).setMain t (.prime k st))
  | .prime k st,.go =>
    match (s.tasks k).thread with
    | none => none
    | some u => some (((s.modTask k fun t => {t with sp := some ⟨u,0⟩}).modThread u fun _ =>
        {stack := some st}).setMain t (.publish k))
  | .publish k,.go =>
    s.locked ((s.modTask k fun t => {t with state := .ready,making := false}).setMain t .user)
  | .exiting,.go => taskExit h t s
  | .exitCross prev n,.go =>
    if s.lock=some h then (ctxSwitch harts h prev n s).map fun s => s.setMain t .gone else none
  | _,_ => none

/-- A step of an interrupt handler, or of its sched_yield, on top of `rest`. -/
def innerStep (harts h t : Nat) (s : Sys) (rest : List Inner) : Inner → Act → Option Sys
  | .yield p,.go => (schedSwitch harts h false p s).map fun x => x.1.setInner t (x.2.inner rest)
  | .isr,.call (.unblock pid) => taskUnblock pid s
  | .isr,.call .yield => some (s.setInner t
      (if (s.current h).isSome then .yield (.reapFirst .take)::rest else rest))
  | .isr,.ret => some (s.setInner t rest)
  | _,_ => none

/-- One step of hart h. A hart that holds g_sched_lock has its interrupts masked. -/
def step (harts h : Nat) (a : Act) (s : Sys) : Option Sys :=
  if h<harts then
    let t := s.running h
    match a,(s.threads t).inner with
    | .advance,_ => some {s with clock := s.clock+1}
    | .interrupt,l => if s.lock=some h then none else some (s.setInner t (.isr::l))
    | a,i::rest => innerStep harts h t s rest i a
    | a,[] => mainStep harts h t s (s.threads t).main a
  else none

variable {harts h : Nat} {a : Act} {s s' : Sys}

theorem step_cases (hx : step harts h a s=some s') : h<harts ∧
    (a=.advance ∧ s'={s with clock := s.clock+1} ∨
    a=.interrupt ∧ s.lock≠some h ∧ s'=s.setInner (s.running h) (.isr::(s.threads (s.running h)).inner) ∨
    (∃i rest,(s.threads (s.running h)).inner=i::rest ∧
      innerStep harts h (s.running h) s rest i a=some s') ∨
    (s.threads (s.running h)).inner=[] ∧
      mainStep harts h (s.running h) s (s.threads (s.running h)).main a=some s') := by
  unfold step at hx
  split at hx
  next hh =>
    refine ⟨hh,?_⟩
    dsimp only at hx
    split at hx
    · cases hx; exact .inl ⟨rfl,rfl⟩
    · split at hx
      · cases hx
      next hl => cases hx; exact .inr (.inl ⟨rfl,hl,rfl⟩)
    next hi => exact .inr (.inr (.inl ⟨_,_,hi,hx⟩))
    next hi => exact .inr (.inr (.inr ⟨hi,hx⟩))
  next => cases hx

end LugalOS.Sched
