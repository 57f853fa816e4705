import LugalOS.Sched.Wakeup

namespace LugalOS.Sched

open Function (update)
open Run (Reach)

/-- What the thread of each frame was to go on with when the frame was primed or parked. -/
abbrev Parked := Frame → Thread

/-- The frame is its thread's last, and no hart has gone on from it. -/
def Rests (harts : Nat) (s : Sys) (f : Frame) : Prop :=
  f.seq=(s.threads f.thread).parks ∧ ∀g,g<harts → s.running g≠f.thread

instance (harts : Nat) (s : Sys) (f : Frame) : Decidable (Rests harts s f) :=
  inferInstanceAs (Decidable (_ ∧ _))

def Parked.note (harts : Nat) (k : Parked) (s : Sys) : Parked :=
  fun f => if Rests harts s f then s.threads f.thread else k f

/-- Behind the ctx_switch of task_exit is a loop without end. -/
def Thread.again (th : Thread) : Thread :=
  if th.main=.gone then {th with inner := [],main := .bug} else th

/-- ctx_switch onto a frame that its thread went on from already, or whose stack was given up: the
registers parked there are popped again, so a second thread executes the code behind the frame for
the same slot. The stack is taken to hold what it held; other memory can only do worse. A slot
without a frame halts the hart in sched_check_incoming. -/
def stray (harts h : Nat) (k : Parked) (s : Sys) : Option Sys :=
  match (s.threads (s.running h)).code with
  | .cross _ n _ =>
    match (s.tasks n).sp with
    | none => some (s.modThread (s.running h) fun th => {th with inner := [],main := .bug})
    | some f =>
      if Intact harts s f then none
      else
        let th := (k f).again
        (step harts h .go {s.modTask n fun t => {t with sp := some ⟨s.nextThread,th.parks⟩} with
          threads := update s.threads s.nextThread th,nextThread := s.nextThread+1}).map fun s' =>
            s'.modTask n fun t => {t with sp := some f}
  | _ => none

/-- One step of hart h, whatever frame it switches to. -/
def stepAny (harts h : Nat) (a : Act) (k : Parked) (s : Sys) : Option Sys :=
  match step harts h a s with
  | some s' => some s'
  | none => if h<harts ∧ a=.go then stray harts h k s else none

/-- The scheduler, the frames of its threads, and the windows of all threads. -/
structure Traced where
  sys : Sys
  parked : Parked
  window : Nat → Option Bool

def Traced.init (harts : Nat) : Traced := ⟨schedInit harts,fun _ => {},fun _ => none⟩

/-- Steps of the harts where ok holds of the state before; ctx_switch is never refused. -/
def Traces (harts : Nat) (ok : Sys → Act → Bool) (x : Traced) (e : Nat × Act) (y : Traced) : Prop :=
  ok x.sys e.2=true ∧ stepAny harts e.1 e.2 x.parked x.sys=some y.sys ∧
    y.parked=x.parked.note harts y.sys ∧ y.window=watch e.1 e.2 x.sys y.sys x.window

variable {harts h : Nat} {s s' : Sys} {k : Parked}

theorem Kept.stray (hk : Kept harts s) (hh : h<harts) : Sched.stray harts h k s=none := by
  unfold Sched.stray
  split
  next p n d hc =>
    obtain ⟨f,hf,hi⟩ := hk.intact hh hc
    rw [hf]
    exact if_pos hi
  next => rfl

theorem Kept.stepAny (hk : Kept harts s) {a : Act} (hx : Sched.stepAny harts h a k s=some s') :
    Sched.step harts h a s=some s' := by
  unfold Sched.stepAny at hx
  split at hx
  next hs => rw [hs,hx]
  next =>
    split at hx
    next hg => rw [hk.stray hg.1] at hx; cases hx
    next => cases hx

theorem reach_traced (h0 : 0<harts) {hist : List (Nat × Act)} {x : Traced}
    (hr : Reach (Traces harts fresh) (.init harts) hist x) :
    Kept harts x.sys ∧ Watched harts x.sys x.window := by
  refine hr.invariant (fun _ x => Kept harts x.sys ∧ Watched harts x.sys x.window)
    ⟨reach_kept h0 .start,reach_watched .start⟩ fun _ x e y hx he => ?_
  obtain ⟨hok,hstep,-,hwin⟩ := he
  have hgo := hx.1.stepAny hstep
  rw [hwin]
  exact ⟨hx.1.step hok hgo,hx.2.step hgo⟩

/-- In runs where no task_unblock names a slot that task_create_full has reserved and not yet
published, no wake is lost between task_prepare_block and the return of the block that follows. -/
theorem no_lost_wake (h0 : 0<harts) {hist : List (Nat × Act)} {x : Traced}
    (hr : Reach (Traces harts fresh) (.init harts) hist x) {t i : Nat} (hw : x.window t=some true)
    (ht : (x.sys.tasks i).thread=some t) : Woken harts x.sys t i :=
  (reach_traced h0 hr).2.woken hw ht

/-- One step as ok allows it, computed. -/
def trace (harts : Nat) (ok : Sys → Act → Bool) (e : Nat × Act) (x : Traced) : Option Traced :=
  if ok x.sys e.2 then (stepAny harts e.1 e.2 x.parked x.sys).map fun s =>
    ⟨s,x.parked.note harts s,watch e.1 e.2 x.sys s x.window⟩
  else none

theorem traces_trace {ok : Sys → Act → Bool} (x : Traced) (e : Nat × Act) (y : Traced)
    (hx : trace harts ok e x=some y) : Traces harts ok x e y := by
  unfold trace at hx
  split at hx
  next hok =>
    rw [Option.map_eq_some_iff] at hx
    obtain ⟨s,hs,rfl⟩ := hx
    exact ⟨hok,hs,rfl,rfl⟩
  next => cases hx

/-- Task 0 creates task 1 and prepares; a handler preempts it, task 1 runs, wakes it, and yields;
then task 0 calls task_block. -/
def wakeFirst : List (Nat × Act) := [(0,.call (.create none)),(0,.go),(0,.go),(0,.go),(0,.go),
  (0,.call .prepareBlock),(0,.interrupt),(0,.call .yield),(0,.go),(0,.go),(0,.go),(0,.go),(0,.go),
  (0,.go),(0,.call (.unblock 0)),(0,.call .yield),(0,.go),(0,.go),(0,.go),(0,.go),(0,.go),(0,.go),
  (0,.call .block),(0,.go)]

theorem no_lost_wake_first : ∃hist x,Reach (Traces 1 fresh) (.init 1) hist x ∧
    (x.sys.threads 0).parks=1 ∧ (x.sys.threads 0).main=.block .enter .user ∧ Woken 1 x.sys 0 0 := by
  have hex : (Run.exec (trace 1 fresh) wakeFirst (.init 1)).any fun x =>
      (x.sys.threads 0).parks==1 && (x.sys.threads 0).main==.block .enter .user &&
        x.window 0==some true && (x.sys.tasks 0).thread==some 0 := by decide +kernel
  obtain ⟨x,hr,hp⟩ := Reach.exec_any traces_trace hex
  simp only [Bool.and_eq_true,beq_iff_eq] at hp
  obtain ⟨⟨⟨hparks,hmain⟩,hwin⟩,hthr⟩ := hp
  exact ⟨_,x,hr,hparks,hmain,no_lost_wake (by decide) hr hwin hthr⟩

/-- Slot 2 is woken under creation and runs on hart 1 when it is published; hart 0 then switches to
its primed frame too. Both threads prepare, one wake comes, and each calls task_block. -/
def strayed : List (Nat × Act) := early++[(0,.call .yield),(0,.go),(0,.go),(0,.go),(0,.go),(0,.go),
  (0,.go),(1,.go),(1,.call .prepareBlock),(0,.call .prepareBlock),(1,.interrupt),
  (1,.call (.unblock 2)),(1,.ret),(0,.call .block),(0,.go),(0,.go),(1,.call .block),(1,.go),(1,.go),
  (1,.go),(1,.go)]

theorem no_lost_wake_strayed : ∃hist x t,Reach (Traces 2 always) (.init 2) hist x ∧
    x.window t=some true ∧ (x.sys.tasks 2).thread=some t ∧ ¬Woken 2 x.sys t 2 := by
  have hex : (Run.exec (trace 2 always) strayed (.init 2)).any fun x =>
      x.window 3==some true && (x.sys.tasks 2).thread==some 3 &&
        (x.sys.tasks 2).state==.blocked := by decide +kernel
  obtain ⟨x,hr,hp⟩ := Reach.exec_any traces_trace hex
  simp only [Bool.and_eq_true,beq_iff_eq] at hp
  obtain ⟨⟨hwin,hthr⟩,hst⟩ := hp
  exact ⟨_,x,3,hr,hwin,hthr,fun hw => hw.state hst⟩

end LugalOS.Sched
