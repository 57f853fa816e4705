import LugalOS.Lib.Line
import LugalOS.Chan.Endpoint

/-! The claim of an endpoint by its lock sections, one step each, in any order, with tasks that
exit wherever they are. -/

namespace LugalOS.Chan

open Function (update_of_ne)
open Sched (maxTasks)

/-- Where a task is inside ep_claim: in the queue, or polling because that was full. -/
inductive Standing where
  | idle | queued | polls
deriving DecidableEq

/-- An endpoint with the tasks that try for it. `user` is the context whose ep_claim has returned
true and that has not released; the log tells what has happened to the line. -/
structure Waits where
  ep : Endpoint
  life : Nat → Life
  stage : Nat → Standing
  user : Option Nat
  log : List (Line.Note Nat)

namespace Waits

def take (s : Waits) (c : Nat) : Waits :=
  {s with ep := {s.ep with busy := true,holder := some c},user := some c,log := s.log++[.took c]}

def join (s : Waits) (c : Nat) : Waits :=
  {s with
    ep := s.ep.wqPush c
    stage := Function.update s.stage c .queued
    log := s.log++[.joins c]}

def leave (s : Waits) (c : Nat) : Waits :=
  {s with
    ep := s.ep.wqRemove c
    stage := Function.update s.stage c .idle
    log := s.log++[.left c]}

def setStage (s : Waits) (c : Nat) (k : Standing) : Waits :=
  {s with stage := Function.update s.stage c k}

/-- What release_locked does to the line. -/
def passed (life : Nat → Life) : List Nat → List (Line.Note Nat)
  | [] => []
  | p::rest =>
    if life p=.unused ∨ life p=.dead then .skipped p::passed life rest else [.granted p]

/-- release_locked. -/
def pass (s : Waits) : Waits :=
  {s with
    ep := (s.ep.releaseLocked s.life).1
    log := s.log++passed s.life s.ep.wq.toList}

/-- The lock sections. `waits` is whether the caller may wait at all: its wait_ms is not 0, a task
runs, the scheduler is active and no interrupt is being handled. `late` is whether the deadline
has passed. The tasks' states change as they like in between. -/
inductive Ev where
  | enter (c : Nat) (waits : Bool)
  | turn (c : Nat) (late : Bool)
  | release (c : Nat)
  | exit (p : Nat)
  | lives (life : Nat → Life)

/-- The first lock section of ep_claim; a task that may wait is in no other claim. -/
def epClaimEnter (s : Waits) (c : Nat) (waits : Bool) : Option Waits :=
  if waits=true ∧ s.stage c≠.idle then none
  else if s.ep.busy=false then some (s.take c)
  else if waits=false ∨ s.ep.holder=some c ∨ maxTasks≤c then some s
  else if s.ep.wq.len<chanWaitqLen then some (s.join c)
  else some (s.setStage c .polls)

def epClaimTurn (s : Waits) (c : Nat) (late : Bool) : Option Waits :=
  match s.stage c with
  | .idle => none
  | .queued =>
    if s.ep.handedTo=some c then
      some ({s with ep := {s.ep with handedTo := none,holder := some c},user := some c}.setStage c
        .idle)
    else some (if late then s.leave c else s)
  | .polls =>
    if s.ep.busy=false then some ((s.take c).setStage c .idle)
    else if s.ep.wq.len<chanWaitqLen then some (if late then (s.join c).leave c else s.join c)
    else some (if late then s.setStage c .idle else s)

/-- ep_release, by a context whose claim returned true. -/
def epRelease (s : Waits) (c : Nat) : Option Waits :=
  if s.user=some c then some {s with user := none}.pass else none

/-- The section of chan_owner_exited: the task waits for nothing any more, and a turn handed to
it, or a claim it died holding, goes to the next. -/
def chanOwnerExited (s : Waits) (p : Nat) : Option Waits :=
  if maxTasks≤p then none
  else
    let s := s.leave p
    if s.ep.busy=true ∧ s.ep.holder=some p then
      some {s with ep := {s.ep with handedTo := none},user := none}.pass
    else some s

def exec (s : Waits) : Ev → Option Waits
  | .enter c waits => s.epClaimEnter c waits
  | .turn c late => s.epClaimTurn c late
  | .release c => s.epRelease c
  | .exit p => s.chanOwnerExited p
  | .lives life => some {s with life := life}

/-- A free endpoint that nobody tries for; its ring may stand anywhere. -/
structure Quiet (s : Waits) : Prop where
  busy : s.ep.busy=false
  holder : s.ep.holder=none
  handed : s.ep.handedTo=none
  empty : s.ep.wq.len=0
  stage : ∀c,s.stage c=.idle
  user : s.user=none
  log : s.log=[]

inductive Reachable : Waits → Prop
  | quiet {s : Waits} : s.Quiet → Reachable s
  | step {s s' : Waits} (e : Ev) : Reachable s → s.exec e=some s' → Reachable s'

/-- The queue is the line the log tells of; the endpoint is free, in the hands of one caller, or
on its way to the waiter it was handed to. -/
structure Ok (s : Waits) : Prop where
  room : s.ep.wq.len≤chanWaitqLen
  line : Line.line s.log=s.ep.wq.toList
  fair : Line.Fair s.log
  queued : ∀p∈s.ep.wq.toList,s.stage p=.queued
  free : s.ep.busy=false →
    s.ep.wq.toList=[] ∧ s.ep.holder=none ∧ s.ep.handedTo=none ∧ s.user=none
  handed : ∀p,s.ep.handedTo=some p →
    s.ep.busy=true ∧ s.ep.holder=some p ∧ p∉s.ep.wq.toList ∧ s.stage p=.queued ∧ s.user=none
  used : ∀c,s.user=some c → s.ep.busy=true ∧ s.ep.holder=some c ∧ s.ep.handedTo=none

variable {s s' : Waits} {c p : Nat}

theorem Quiet.ok (h : s.Quiet) : s.Ok := by
  have hl : s.ep.wq.toList=[] := by rw [Ring.toList,h.empty]; rfl
  refine ⟨by rw [h.empty]; exact Nat.zero_le _,?_,?_,fun p hp => ?_,fun _ => ⟨hl,h.holder,h.handed,
    h.user⟩,fun p hp => ?_,fun c hc => ?_⟩
  · rw [h.log,hl]
    rfl
  · rw [h.log]
    exact Line.Fair.nil
  · rw [hl] at hp
    cases hp
  · rw [h.handed] at hp
    cases hp
  · rw [h.user] at hc
    cases hc

theorem Ok.nodup (h : s.Ok) : s.ep.wq.toList.Nodup := h.line ▸ h.fair.line_nodup

theorem Ok.out (h : s.Ok) (hc : s.stage c≠.queued) : c∉s.ep.wq.toList :=
  fun hm => hc (h.queued c hm)

theorem Ok.unhanded (h : s.Ok) (hc : s.stage c≠.queued) : s.ep.handedTo≠some c :=
  fun hh => hc (h.handed c hh).2.2.2.1

theorem Ok.take (h : s.Ok) (hb : s.ep.busy=false) (c : Nat) : (s.take c).Ok := by
  obtain ⟨hq,-,hh,-⟩ := h.free hb
  refine ⟨h.room,?_,h.fair.snoc (h.line.trans hq),h.queued,fun hf => (by cases hf),
    fun p hp => ?_,fun d hd => ?_⟩
  · rw [Waits.take,Line.line_snoc,h.line]
    rfl
  · rw [show s.ep.handedTo=some p from hp] at hh
    cases hh
  · cases hd
    exact ⟨rfl,rfl,hh⟩

theorem Ok.join (h : s.Ok) (hb : s.ep.busy=true) (hc : s.stage c≠.queued)
    (hl : s.ep.wq.len<chanWaitqLen) : (s.join c).Ok := by
  have hq : (s.ep.wqPush c).wq.toList=s.ep.wq.toList++[c] := Ring.toList_push hl c
  have hout := h.out hc
  refine ⟨hl,?_,h.fair.snoc (show c∉_ by rw [h.line]; exact hout),fun p hp => ?_,
    fun hf => ?_,fun p hp => ?_,h.used⟩
  · rw [Waits.join,Line.line_snoc,h.line]
    exact hq.symm
  · by_cases he : p=c
    · subst he
      exact Function.update_self ..
    · have hmem : p∈s.ep.wq.toList := by
        rw [show (s.join c).ep.wq.toList=_ from hq] at hp
        rcases List.mem_append.mp hp with hp | hp
        · exact hp
        · exact absurd (List.mem_singleton.mp hp) he
      exact (update_of_ne he ..).trans (h.queued p hmem)
  · rw [show s.ep.busy=false from hf] at hb
    cases hb
  · obtain ⟨h1,h2,h3,h4,h5⟩ := h.handed p hp
    have he : p≠c := fun he => h.unhanded hc (he ▸ hp)
    refine ⟨h1,h2,fun hm => ?_,(update_of_ne he ..).trans h4,h5⟩
    rw [show (s.join c).ep.wq.toList=_ from hq] at hm
    rcases List.mem_append.mp hm with hm | hm
    · exact h3 hm
    · exact he (List.mem_singleton.mp hm)

theorem Ok.leave (h : s.Ok) (hc : s.ep.handedTo≠some c) : (s.leave c).Ok := by
  have hq : (s.ep.wqRemove c).wq.toList=s.ep.wq.toList.filter (· ≠ c) := Ring.toList_remove h.room c
  have hlen : (s.ep.wqRemove c).wq.len≤chanWaitqLen := by
    rw [← Ring.length_toList,hq]
    exact (List.length_filter_le _ _).trans (by rw [Ring.length_toList]; exact h.room)
  have hmem {p : Nat} (hp : p∈(s.leave c).ep.wq.toList) : p∈s.ep.wq.toList ∧ p≠c := by
    rw [show (s.leave c).ep.wq.toList=_ from hq,List.mem_filter] at hp
    exact ⟨hp.1,by simpa using hp.2⟩
  refine ⟨hlen,?_,h.fair.snoc trivial,fun p hp => ?_,fun hf => ?_,fun p hp => ?_,h.used⟩
  · rw [Waits.leave,Line.line_snoc,h.line]
    exact hq.symm
  · exact (update_of_ne (hmem hp).2 ..).trans (h.queued p (hmem hp).1)
  · obtain ⟨h1,h2⟩ := h.free hf
    refine ⟨?_,h2⟩
    rw [show (s.leave c).ep.wq.toList=_ from hq,h1]
    rfl
  · obtain ⟨h1,h2,h3,h4,h5⟩ := h.handed p hp
    have he : p≠c := fun he => hc (he ▸ hp)
    exact ⟨h1,h2,fun hm => h3 (hmem hm).1,(update_of_ne he ..).trans h4,h5⟩

theorem Ok.setStage (h : s.Ok) (hc : s.stage c≠.queued) (k : Standing) : (s.setStage c k).Ok := by
  refine ⟨h.room,h.line,h.fair,fun p hp => ?_,h.free,fun p hp => ?_,h.used⟩
  · have he : p≠c := fun he => h.out hc (he ▸ hp)
    exact (update_of_ne he ..).trans (h.queued p hp)
  · obtain ⟨h1,h2,h3,h4,h5⟩ := h.handed p hp
    have he : p≠c := fun he => h.unhanded hc (he ▸ hp)
    exact ⟨h1,h2,h3,(update_of_ne he ..).trans h4,h5⟩

theorem Ok.accept (h : s.Ok) (hc : s.ep.handedTo=some c) :
    ({s with ep := {s.ep with handedTo := none,holder := some c},user := some c}.setStage c
      .idle).Ok := by
  obtain ⟨hb,-,hq,-,-⟩ := h.handed c hc
  refine ⟨h.room,h.line,h.fair,fun p hp => ?_,fun hf => ?_,fun p hp => (by cases hp),
    fun d hd => ?_⟩
  · have he : p≠c := fun he => hq (he ▸ hp)
    exact (update_of_ne he ..).trans (h.queued p hp)
  · rw [show s.ep.busy=false from hf] at hb
    cases hb
  · cases hd
    exact ⟨hb,rfl,rfl⟩

theorem releaseLoop_passed (life : Nat → Life) (log : List (Line.Note Nat)) (ep : Endpoint)
    (hf : Line.Fair log) (hl : Line.line log=ep.wq.toList) {k : Nat} (hk : ep.wq.len=k) :
    Line.Fair (log++passed life ep.wq.toList) ∧
      Line.line (log++passed life ep.wq.toList)=(ep.releaseLoop life k).1.wq.toList ∧
      (ep.releaseLoop life k).1.wq.len≤ep.wq.len ∧
      (∀p∈(ep.releaseLoop life k).1.wq.toList,p∈ep.wq.toList) ∧
      ((ep.releaseLoop life k).1.busy=false ∧ (ep.releaseLoop life k).1.wq.toList=[] ∧
        (ep.releaseLoop life k).1.holder=none ∧
        (ep.releaseLoop life k).1.handedTo=ep.handedTo ∨
      (ep.releaseLoop life k).1.busy=ep.busy ∧ ∃p∈ep.wq.toList,
        (ep.releaseLoop life k).1.holder=some p ∧ (ep.releaseLoop life k).1.handedTo=some p ∧
        p∉(ep.releaseLoop life k).1.wq.toList) := by
  induction k generalizing log ep with
  | zero =>
    have hnil : ep.wq.toList=[] := List.length_eq_zero_iff.mp (by rw [Ring.length_toList,hk])
    have hlog : log++passed life ep.wq.toList=log := by rw [hnil]; exact List.append_nil log
    rw [hlog]
    exact ⟨hf,hl,le_refl _,fun p hp => hp,.inl ⟨rfl,hnil,rfl,rfl⟩⟩
  | succ k ih =>
    have hcons : ep.wq.toList=ep.wq.get 0::ep.wq.pop.toList := Ring.toList_pop (by omega)
    have hpop : ep.wq.pop.len=k := by rw [Ring.pop,hk]; rfl
    have hnd : (ep.wq.get 0::ep.wq.pop.toList).Nodup := by
      rw [← hcons,← hl]
      exact hf.line_nodup
    have hhead : (Line.line log).head?=some (ep.wq.get 0) := by rw [hl,hcons]; rfl
    have hafter : (Line.line log).filter (· ≠ ep.wq.get 0)=ep.wq.pop.toList := by
      rw [hl,hcons]
      exact Line.filter_head hnd
    rw [hcons]
    simp only [Endpoint.releaseLoop,passed]
    by_cases hd : life (ep.wq.get 0)=.unused ∨ life (ep.wq.get 0)=.dead
    · rw [if_pos hd,if_pos hd]
      have hline : Line.line (log++[.skipped (ep.wq.get 0)])=ep.wq.pop.toList := by
        rw [Line.line_snoc]
        exact hafter
      obtain ⟨h1,h2,h3,h4,h5⟩ := ih (log++[.skipped (ep.wq.get 0)]) {ep with wq := ep.wq.pop}
        (hf.snoc (n := .skipped _) hhead) hline hpop
      rw [List.append_assoc,List.singleton_append] at h1 h2
      refine ⟨h1,h2,h3.trans (by rw [hpop]; omega),fun p hp => List.mem_cons_of_mem _ (h4 p hp),?_⟩
      rcases h5 with h5 | ⟨hb,p,hp,h5⟩
      · exact .inl h5
      · exact .inr ⟨hb,p,List.mem_cons_of_mem _ hp,h5⟩
    · rw [if_neg hd,if_neg hd]
      refine ⟨hf.snoc (n := .granted _) hhead,?_,by rw [hpop]; omega,fun p hp => List.mem_cons_of_mem _ hp,
        .inr ⟨rfl,_,List.mem_cons_self,rfl,rfl,(List.nodup_cons.mp hnd).1⟩⟩
      rw [Line.line_snoc]
      exact hafter

theorem Ok.pass (h : s.Ok) {ep : Endpoint} (hq : ep.wq=s.ep.wq) (hb : ep.busy=true)
    (hn : ep.handedTo=none) : ({s with ep := ep,user := none} : Waits).pass.Ok := by
  have hlist : ep.wq.toList=s.ep.wq.toList := by rw [hq]
  obtain ⟨h1,h2,h3,h4,h5⟩ := releaseLoop_passed s.life s.log ep h.fair (h.line.trans hlist.symm)
    (k := ep.wq.len) rfl
  refine ⟨h3.trans (hq ▸ h.room),h2,h1,fun p hp => h.queued p (hlist ▸ h4 p hp),fun hf => ?_,
    fun p hp => ?_,fun c hc => (by cases hc)⟩
  · rcases h5 with ⟨-,hl,hh,hk⟩ | ⟨hbusy,-⟩
    · exact ⟨hl,hh,hk.trans hn,rfl⟩
    · rw [show (ep.releaseLoop s.life ep.wq.len).1.busy=false from hf,hb] at hbusy
      cases hbusy
  · rcases h5 with ⟨-,-,-,hk⟩ | ⟨hbusy,d,hd,hh,hk,hout⟩
    · rw [show (ep.releaseLoop s.life ep.wq.len).1.handedTo=some p from hp,hn] at hk
      cases hk
    · rw [show (ep.releaseLoop s.life ep.wq.len).1.handedTo=some p from hp] at hk
      cases hk
      exact ⟨hbusy.trans hb,hh,hout,h.queued _ (hlist ▸ hd),rfl⟩

theorem Ok.enter {waits : Bool} (h : s.Ok) (he : s.epClaimEnter c waits=some s') : s'.Ok := by
  unfold epClaimEnter at he
  split_ifs at he with hidle hb hno hl <;> cases he
  · exact h.take hb c
  · exact h
  · have hw : waits=true := by
      cases waits with
      | true => rfl
      | false => exact absurd (.inl rfl) hno
    have hi : s.stage c=.idle := not_not.mp fun hi => hidle ⟨hw,hi⟩
    exact h.join (by simpa using hb) (by rw [hi]; decide) hl
  · have hw : waits=true := by
      cases waits with
      | true => rfl
      | false => exact absurd (.inl rfl) hno
    have hi : s.stage c=.idle := not_not.mp fun hi => hidle ⟨hw,hi⟩
    exact h.setStage (by rw [hi]; decide) .polls

theorem Ok.turn {late : Bool} (h : s.Ok) (he : s.epClaimTurn c late=some s') : s'.Ok := by
  unfold epClaimTurn at he
  cases hc : s.stage c with
  | idle =>
    rw [hc] at he
    cases he
  | queued =>
    simp only [hc] at he
    split_ifs at he with hh hlate <;> cases he
    · exact h.accept hh
    · exact h.leave hh
    · exact h
  | polls =>
    simp only [hc] at he
    have hout : s.stage c≠.queued := by rw [hc]; decide
    split_ifs at he with hb hl hlate hlate <;> cases he
    · exact (h.take hb c).setStage hout .idle
    -- it came and went in one lock section
    · exact (h.join (by simpa using hb) hout hl).leave (h.unhanded hout)
    · exact h.join (by simpa using hb) hout hl
    · exact h.setStage hout .idle
    · exact h

theorem Ok.release (h : s.Ok) (he : s.epRelease c=some s') : s'.Ok := by
  unfold epRelease at he
  split_ifs at he with hu
  cases he
  obtain ⟨hb,-,hn⟩ := h.used c hu
  exact h.pass (Eq.refl s.ep.wq) hb hn

theorem leave_setStage (s : Waits) (p : Nat) : (s.setStage p .idle).leave p=s.leave p := by
  have hstage : Function.update (Function.update s.stage p Standing.idle) p .idle=
      Function.update s.stage p .idle := Function.update_idem ..
  simp only [leave,setStage,hstage]

theorem Ok.exited (h : s.Ok) (he : s.chanOwnerExited p=some s') : s'.Ok := by
  unfold chanOwnerExited at he
  by_cases hp : maxTasks≤p
  · rw [if_pos hp] at he
    cases he
  rw [if_neg hp] at he
  dsimp only at he
  by_cases hh : s.ep.handedTo=some p
  · -- it dies with the turn it was handed, as if it had taken the claim first
    obtain ⟨hb,hholder,-⟩ := h.handed p hh
    rw [if_pos ⟨hb,hholder⟩] at he
    cases he
    have hleft := (h.accept hh).leave (c := p) (fun hx => by cases hx)
    rw [leave_setStage] at hleft
    have hwq : ({(s.leave p).ep with handedTo := none} : Endpoint).wq=(s.leave p).ep.wq := rfl
    exact hleft.pass hwq hb rfl
  · have hleft := h.leave hh
    split_ifs at he with hx <;> cases he
    · have hwq : ({(s.leave p).ep with handedTo := none} : Endpoint).wq=(s.leave p).ep.wq := rfl
      exact hleft.pass hwq hx.1 rfl
    · exact hleft

theorem Ok.exec {e : Ev} (h : s.Ok) (he : s.exec e=some s') : s'.Ok := by
  cases e with
  | enter c waits => exact h.enter he
  | turn c late => exact h.turn he
  | release c => exact h.release he
  | exit p => exact h.exited he
  | lives life =>
    cases he
    exact ⟨h.room,h.line,h.fair,h.queued,h.free,h.handed,h.used⟩

theorem Reachable.ok (h : Reachable s) : s.Ok := by
  induction h with
  | quiet hq => exact hq.ok
  | step e _ he ih => exact ih.exec he

/-- What one lock section does and what the log tells of it: a turn is granted exactly when the
claim is handed over, the claim is taken without a turn exactly where it says so, and a wait begins
in the queue and ends with the turn, the deadline or the task. -/
structure Tells (s : Waits) (e : Ev) (s' : Waits) (ns : List (Line.Note Nat)) : Prop where
  log : s'.log=s.log++ns
  granted : ∀p,.granted p∈ns ↔ s'.ep.handedTo=some p ∧ s.ep.handedTo≠some p
  took : ∀c,.took c∈ns ↔ s'.user=some c ∧ s.user≠some c ∧ s.ep.handedTo≠some c
  keeps : ∀c,s.user=some c → s'.user=some c ∨ e=.release c ∨ e=.exit c
  joined : ∀c,.joins c∈ns → c∉s.ep.wq.toList
  ends : ∀n∈ns,∀p,n.ends p →
    n=.granted p ∨ e=.turn p true ∨ e=.exit p ∨ s.life p=.unused ∨ s.life p=.dead
  joins : ∀c∈s'.ep.wq.toList,c∉s.ep.wq.toList → .joins c∈ns
  gone : ∀c∈s.ep.wq.toList,c∉s'.ep.wq.toList → ∃n∈ns,n.ends c

theorem granted_passed {life : Nat → Life} {d : Endpoint} (hn : d.handedTo=none) {k : Nat}
    (hk : d.wq.len=k) (p : Nat) :
    .granted p∈passed life d.wq.toList ↔ (d.releaseLoop life k).1.handedTo=some p := by
  induction k generalizing d with
  | zero =>
    have hnil : d.wq.toList=[] := List.length_eq_zero_iff.mp (by rw [Ring.length_toList,hk])
    simp [hnil,passed,Endpoint.releaseLoop,hn]
  | succ k ih =>
    have hcons : d.wq.toList=d.wq.get 0::d.wq.pop.toList := Ring.toList_pop (by omega)
    have hpop : d.wq.pop.len=k := by rw [Ring.pop,hk]; rfl
    rw [hcons]
    simp only [Endpoint.releaseLoop,passed]
    split_ifs
    · simpa using ih (d := {d with wq := d.wq.pop}) hn hpop
    · simp [eq_comm]

theorem passed_notes {life : Nat → Life} {l : List Nat} {n : Line.Note Nat} (h : n∈passed life l) :
    ∃p∈l,n=.granted p ∨ n=.skipped p ∧ (life p=.unused ∨ life p=.dead) := by
  induction l with
  | nil => cases h
  | cons q rest ih =>
    rw [passed] at h
    split_ifs at h with hd
    · rcases List.mem_cons.mp h with rfl | h
      · exact ⟨q,List.mem_cons_self,.inr ⟨rfl,hd⟩⟩
      · obtain ⟨p,hp,hn⟩ := ih h
        exact ⟨p,List.mem_cons_of_mem _ hp,hn⟩
    · exact ⟨q,List.mem_cons_self,.inl (List.mem_singleton.mp h)⟩

theorem joins_of_line {a b : List (Line.Note Nat)} (hp : p∈Line.line (a++b)) (hn : p∉Line.line a) :
    .joins p∈b := by
  induction b using List.reverseRecOn with
  | nil => exact absurd (by rwa [List.append_nil] at hp) hn
  | append_singleton b n ih =>
    rw [← List.append_assoc,Line.line_snoc] at hp
    by_cases hm : p∈Line.line (a++b)
    · exact List.mem_append_left _ (ih hm)
    · refine List.mem_append_right _ ?_
      cases n with
      | joins c =>
        rcases List.mem_append.mp hp with hp | hp
        · exact absurd hp hm
        · rw [List.mem_singleton.mp hp]
          exact List.mem_singleton_self _
      | granted c | left c | skipped c => exact absurd (List.mem_filter.mp hp).1 hm
      | took c => exact absurd hp hm

theorem Ok.tells_of {e : Ev} {m : List (Line.Note Nat)} (h : s.Ok) (h' : s'.Ok)
    (log : s'.log=s.log++m)
    (granted : ∀p,.granted p∈m ↔ s'.ep.handedTo=some p ∧ s.ep.handedTo≠some p)
    (took : ∀c,.took c∈m ↔ s'.user=some c ∧ s.user≠some c ∧ s.ep.handedTo≠some c)
    (keeps : ∀c,s.user=some c → s'.user=some c ∨ e=.release c ∨ e=.exit c)
    (joined : ∀c,.joins c∈m → c∉s.ep.wq.toList)
    (ends : ∀n∈m,∀p,n.ends p →
      n=.granted p ∨ e=.turn p true ∨ e=.exit p ∨ s.life p=.unused ∨ s.life p=.dead) :
    ∃ns,Tells s e s' ns := by
  refine ⟨m,log,granted,took,keeps,joined,ends,fun c hc hn => ?_,fun c hc hn => ?_⟩
  · rw [← h'.line,log] at hc
    exact joins_of_line hc (h.line ▸ hn)
  · by_contra hno
    refine hn (h'.line ▸ log ▸ List.singleton_sublist.mp (Line.line_keeps (List.singleton_sublist.mpr
      (h.line ▸ hc)) fun n hm d hd => ?_))
    rw [List.mem_singleton.mp hd]
    exact fun he => hno ⟨n,hm,he⟩

theorem Ok.tells_nil {e : Ev} (h : s.Ok) (h' : s'.Ok) (hl : s'.log=s.log)
    (hh : s'.ep.handedTo=s.ep.handedTo) (hu : s'.user=s.user) : ∃ns,Tells s e s' ns :=
  h.tells_of (m := []) h' (by rw [hl,List.append_nil]) (by simp [hh])
    (fun c => by rw [hu]; simp; tauto) (fun c hc => .inl (hu.trans hc)) (by simp) (by simp)

theorem Ok.tells_take {e : Ev} (h : s.Ok) (h' : s'.Ok) (hb : s.ep.busy=false)
    (hl : s'.log=s.log++[.took c]) (hh : s'.ep.handedTo=s.ep.handedTo) (hu : s'.user=some c) :
    ∃ns,Tells s e s' ns := by
  obtain ⟨-,-,hhand,huser⟩ := h.free hb
  exact h.tells_of (m := [.took c]) h' hl (by simp [hh,hhand]) (by simp [hu,huser,hhand,eq_comm])
    (by simp [huser]) (by simp) (by simp [Line.Note.ends])

theorem Ok.tells_join {e : Ev} {m : List (Line.Note Nat)} (h : s.Ok) (h' : s'.Ok)
    (hc : s.stage c≠.queued) (hl : s'.log=s.log++(.joins c::m))
    (hm : m=[] ∨ m=[.left c] ∧ e=.turn c true)
    (hh : s'.ep.handedTo=s.ep.handedTo) (hu : s'.user=s.user) : ∃ns,Tells s e s' ns := by
  refine h.tells_of (m := .joins c::m) h' hl (fun p => ?_) (fun d => ?_)
    (fun d hd => .inl (hu.trans hd)) (fun d hd => ?_) fun n hn p hp => ?_
  · rcases hm with rfl | ⟨rfl,-⟩ <;> simp [hh]
  · rcases hm with rfl | ⟨rfl,-⟩ <;> (rw [hu]; simp; tauto)
  · obtain rfl : d=c := by rcases hm with rfl | ⟨rfl,-⟩ <;> simpa using hd
    exact h.out hc
  · rcases List.mem_cons.mp hn with rfl | hn
    · cases hp
    · rcases hm with rfl | ⟨rfl,rfl⟩
      · cases hn
      · obtain rfl := List.mem_singleton.mp hn
        obtain rfl : c=p := hp
        exact .inr (.inl rfl)

theorem Ok.tells_leave {e : Ev} (h : s.Ok) (h' : s'.Ok) (hl : s'.log=s.log++[.left c])
    (he : e=.turn c true ∨ e=.exit c) (hh : s'.ep.handedTo=s.ep.handedTo) (hu : s'.user=s.user) :
    ∃ns,Tells s e s' ns := by
  refine h.tells_of (m := [.left c]) h' hl (by simp [hh]) (fun d => by rw [hu]; simp; tauto)
    (fun d hd => .inl (hu.trans hd)) (by simp) fun n hn p hp => ?_
  obtain rfl := List.mem_singleton.mp hn
  obtain rfl : c=p := hp
  exact .inr (he.imp_right .inl)

theorem Ok.tells_pass {e : Ev} {d : Endpoint} {k : Nat → Standing} {m : List (Line.Note Nat)}
    (h : s.Ok) (h' : s'.Ok)
    (hs : s'=({s with ep := d,stage := k,user := none,log := s.log++m} : Waits).pass)
    (hn : d.handedTo=none) (hq : ∀p∈d.wq.toList,s.ep.handedTo≠some p)
    (hm : m=[] ∨ ∃p,m=[.left p] ∧ e=.exit p)
    (hu : ∀c,s.user=some c → e=.release c ∨ e=.exit c) : ∃ns,Tells s e s' ns := by
  subst hs
  have hgr := @granted_passed s.life d hn d.wq.len rfl
  have hno (n : Line.Note Nat) (hl : ∀p,n≠.left p) : n∉m := by
    rcases hm with rfl | ⟨q,rfl,-⟩
    · simp
    · simpa using hl q
  refine h.tells_of (m := m++passed s.life d.wq.toList) h' (List.append_assoc ..) (fun p => ?_)
    (fun c => ⟨fun hx => ?_,fun hc => (by cases hc.1)⟩) (fun c hc => .inr (hu c hc)) (fun c hx => ?_)
    fun n hx p hp => ?_
  · rw [List.mem_append,or_iff_right (hno _ (by simp)),hgr p]
    refine ⟨fun hg => ⟨hg,hq p ?_⟩,And.left⟩
    obtain ⟨q,hd,he | ⟨he,-⟩⟩ := passed_notes ((hgr p).mpr hg) <;> cases he
    exact hd
  · obtain ⟨q,-,he | ⟨he,-⟩⟩ := passed_notes ((List.mem_append.mp hx).resolve_left (hno _ (by simp))) <;>
      cases he
  · obtain ⟨q,-,he | ⟨he,-⟩⟩ := passed_notes ((List.mem_append.mp hx).resolve_left (hno _ (by simp))) <;>
      cases he
  · rcases List.mem_append.mp hx with hx | hx
    · rcases hm with rfl | ⟨q,rfl,rfl⟩
      · cases hx
      · obtain rfl := List.mem_singleton.mp hx
        obtain rfl : q=p := hp
        exact .inr (.inr (.inl rfl))
    · obtain ⟨q,-,rfl | ⟨rfl,hd⟩⟩ := passed_notes hx
      · obtain rfl : q=p := hp
        exact .inl rfl
      · obtain rfl : q=p := hp
        exact .inr (.inr (.inr hd))

theorem Ok.tells {e : Ev} (h : s.Ok) (he : s.exec e=some s') : ∃ns,Tells s e s' ns := by
  have h' := h.exec he
  cases e with
  | enter c waits =>
    simp only [Waits.exec,epClaimEnter] at he
    split_ifs at he with hidle hb hno hl <;> cases he
    · exact h.tells_take h' hb rfl rfl rfl
    · exact h.tells_nil h' rfl rfl rfl
    · have hi : s.stage c=.idle := by
        by_contra hi
        exact hidle ⟨by simpa using fun hw => hno (.inl hw),hi⟩
      exact h.tells_join (m := []) h' (by rw [hi]; decide) rfl (.inl rfl) rfl rfl
    · exact h.tells_nil h' rfl rfl rfl
  | turn c late =>
    simp only [Waits.exec,epClaimTurn] at he
    cases hc : s.stage c with
    | idle => rw [hc] at he; cases he
    | queued =>
      simp only [hc] at he
      split_ifs at he with hh hlate <;> cases he
      · refine h.tells_of (m := []) h' (List.append_nil _).symm (fun p => ?_) (fun d => ?_)
          (fun d hd => ?_) (by simp) (by simp)
        · exact ⟨fun hm => (by cases hm),fun hp => (by cases hp.1)⟩
        · exact ⟨fun hm => (by cases hm),fun hd => absurd (hh.trans hd.1) hd.2.2⟩
        · rw [(h.handed c hh).2.2.2.2] at hd
          cases hd
      · exact h.tells_leave h' rfl (.inl (by rw [hlate])) rfl rfl
      · exact h.tells_nil h' rfl rfl rfl
    | polls =>
      simp only [hc] at he
      have hout : s.stage c≠.queued := by rw [hc]; decide
      split_ifs at he with hb hl hlate hlate <;> cases he
      · exact h.tells_take h' hb rfl rfl rfl
      · exact h.tells_join (m := [.left c]) h' hout (List.append_assoc ..) (.inr ⟨rfl,by rw [hlate]⟩)
          rfl rfl
      · exact h.tells_join (m := []) h' hout rfl (.inl rfl) rfl rfl
      · exact h.tells_nil h' rfl rfl rfl
      · exact h.tells_nil h' rfl rfl rfl
  | release c =>
    simp only [Waits.exec,epRelease] at he
    split_ifs at he with hu
    cases he
    have hn := (h.used c hu).2.2
    refine h.tells_pass (d := s.ep) (k := s.stage) (m := []) h' (by simp) hn (by simp [hn])
      (.inl rfl) fun d hd => ?_
    exact .inl (congrArg Ev.release (Option.some.inj (hu.symm.trans hd)))
  | exit p =>
    simp only [Waits.exec,chanOwnerExited] at he
    split_ifs at he with hp hx <;> cases he
    · refine h.tells_pass (d := {(s.leave p).ep with handedTo := none}) (m := [.left p]) h' rfl rfl
        (fun q hq hh => ?_) (.inr ⟨p,rfl,rfl⟩) fun c hc => ?_
      · have hq : q∈s.ep.wq.toList.filter (· ≠ p) := Ring.toList_remove h.room p ▸ hq
        exact (h.handed q hh).2.2.1 (List.mem_filter.mp hq).1
      · exact .inr (congrArg Ev.exit (Option.some.inj (hx.2.symm.trans (h.used c hc).2.1)))
    · exact h.tells_leave h' rfl (.inr rfl) rfl rfl
  | lives life =>
    cases he
    exact h.tells_nil h' rfl rfl rfl

/-- The queue's invariant, and turns in the order of joining: whoever joined before the one given
the turn was given it, has gone away or was dead at a release, and the endpoint is taken freely
only when that is so of everyone. The log tells what the lock sections do (`Tells`), and whoever was
given the turn holds the endpoint when it looks next. -/
theorem turns_in_order (h : Reachable s) :
    (s.ep.busy=false → s.ep.wq.len=0) ∧
    (∀p,s.ep.handedTo=some p → s.ep.busy=true ∧ s.ep.holder=some p) ∧
    s.ep.wq.toList.Nodup ∧ s.ep.wq.len≤chanWaitqLen ∧
    (∀a b c d p q,s.log=a++.joins p::b++.joins q::c++.granted q::d → (∀n∈c,¬n.ends q) →
      ∃n∈b++.joins q::c,n.ends p) ∧
    (∀a b d p c,s.log=a++.joins p::b++.took c::d → ∃n∈b,n.ends p) ∧
    (∀a d q,s.log=a++.granted q::d → ∃b c,a=b++.joins q::c ∧ ∀n∈c,¬n.ends q) ∧
    (∀e s',s.exec e=some s' → ∃ns,Tells s e s' ns) ∧
    (∀c,s.user=some c → s.ep.busy=true ∧ s.ep.holder=some c ∧ s.ep.handedTo=none) ∧
    ∀p late,s.ep.handedTo=some p ∨ s.stage p=.polls ∧ s.ep.busy=false →
      ∃s',s.exec (.turn p late)=some s' ∧ s'.user=some p ∧ s'.ep.handedTo=none := by
  have ho := h.ok
  refine ⟨fun hb => ?_,fun p hp => ?_,ho.nodup,ho.room,fun a b c d p q he hq => ?_,
    fun a b d p c he => ?_,fun a d q he => ?_,fun e s' he => ho.tells he,ho.used,fun p late hp => ?_⟩
  · rw [← Ring.length_toList,(ho.free hb).1]
    rfl
  · exact ⟨(ho.handed p hp).1,(ho.handed p hp).2.1⟩
  · exact Line.Fair.no_overtaking (he ▸ ho.fair) hq
  · exact Line.Fair.took_idle (he ▸ ho.fair)
  · exact Line.Fair.granted_joined (he ▸ ho.fair)
  · rcases hp with hp | ⟨hp,hb⟩
    · have hq : s.stage p=.queued := (ho.handed p hp).2.2.2.1
      exact ⟨_,by simp only [Waits.exec,epClaimTurn,hq,hp,if_true]; rfl,rfl,rfl⟩
    · exact ⟨(s.take p).setStage p .idle,by simp only [Waits.exec,epClaimTurn,hp,hb,if_true],rfl,
        (ho.free hb).2.2.1⟩

/-- A free endpoint whose ring stands at its last place. -/
def freeWaits : Waits where
  ep := {ownerPid := 5,reqBuf := fun _ => 0,reqCap := 1,respBuf := fun _ => 0,respCap := 1,
         wq := ⟨fun _ => 0,7,0⟩}
  life := fun _ => .alive
  stage := fun _ => .idle
  user := none
  log := []

/-- Two tasks behind a third, and two releases; the second then holds the endpoint. -/
theorem turns_in_order_two : ∃s s',Reachable s ∧
    s.log=[.took 0,.joins 1,.joins 2,.granted 1,.granted 2] ∧ s.ep.handedTo=some 2 ∧
    s.ep.busy=true ∧ (∃n∈[.joins 2,.granted 1],Line.Note.ends 1 n) ∧
    s.exec (.turn 2 true)=some s' ∧ s'.user=some 2 := by
  have h0 : Reachable freeWaits := .quiet ⟨rfl,rfl,rfl,rfl,fun _ => rfl,rfl,rfl⟩
  have h1 := h0.step (.enter 0 true) rfl
  have h2 := h1.step (.enter 1 true) rfl
  have h3 := h2.step (.enter 2 true) rfl
  have h4 := h3.step (.release 0) rfl
  have h5 := h4.step (.turn 1 false) rfl
  have h6 := h5.step (.release 1) rfl
  obtain ⟨-,hhand,-,-,horder,-,-,-,-,htake⟩ := turns_in_order h6
  obtain ⟨s',hs',hu,-⟩ := htake 2 true (.inl rfl)
  exact ⟨_,s',h6,rfl,rfl,(hhand 2 rfl).1,horder [.took 0] [] [.granted 1] [] 1 2 rfl (by
    simp [Line.Note.ends]),hs',hu⟩

end Waits

end LugalOS.Chan
