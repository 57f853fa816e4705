import LugalOS.Lib.Turn
import LugalOS.Chan.Calls

namespace LugalOS.Chan

open Function (update_of_ne update_self)
open Sched (maxTasks)

/-- Where a context stands to the claim of the endpoint. One that polls waits for no turn. -/
def Claiming.role : Claiming → Turn.Role
  | .top true => .waits
  | .test true => .waits
  | .block _ => .waits
  | .waits => .waits
  | .took => .holds
  | _ => .out

def Pc.role : Pc → Turn.Role
  | .claiming _ k => k.role
  | .copyIn _ _ => .holds
  | .asking _ _ => .holds
  | .fetch _ => .holds
  | .copyOut _ _ _ => .holds
  | .release _ _ _ => .holds
  | _ => .out

/-- The exit writes the owner's answer to a pending request. -/
def Exiting.answers : Exiting → Bool
  | .fail => true
  | .unset => true
  | .caller => true
  | .clear _ => true
  | .wakeCaller _ => true
  | _ => false

/-- Whether a context found the endpoint busy and tries for a turn, or exits. -/
inductive Kind where
  | turns
  | exits (answers : Bool)
  | other
deriving DecidableEq

def Pc.kind : Pc → Kind
  | .claiming _ .enter => .other
  | .claiming _ _ => .turns
  | .exiting k => .exits k.answers
  | _ => .other

theorem Pc.turns_of_waits {k : Pc} (h : k.role=.waits) : k.kind=.turns := by
  cases k with
  | claiming a k => cases k <;> first | rfl | cases h
  | _ => cases h

theorem Pc.of_turns {k : Pc} (h : k.kind=.turns) : ∃a x,k=.claiming a x := by
  cases k with
  | claiming a x => exact ⟨a,x,rfl⟩
  | _ => cases h

/-- The endpoint's claim as a lock with a FIFO of waiting tasks. -/
def turn (s : State) : Turn.State Nat where
  role := fun c => (s.call c).role
  busy := s.ep.busy
  holder := s.ep.holder
  queue := s.ep.wq.toList
  handed := s.ep.handedTo

/-- What holds of the contexts and the endpoint apart from who waits: the ring is never overfull,
a task in a call is alive, only tasks try for a turn, and only the owner's exit answers. -/
structure Tidy (s : State) : Prop where
  room : s.ep.wq.len≤chanWaitqLen
  alive : ∀c,c < maxTasks → s.call c≠.idle → s.life c=.alive
  tasks : ∀c,(s.call c).kind=.turns → c < maxTasks
  answers : ∀c,(s.call c).kind=.exits true → c=s.ep.ownerPid
  served : ∀b,(s.call s.ep.ownerPid).kind=.exits b → s.serve=.out
  sound : Turn.Sound (turn s)

variable {s s' : State} {c : Nat} {a : Args} {alt : Bool}

theorem turn_setCall (s : State) (c : Nat) (k : Pc) :
    turn (s.setCall c k)={turn s with role := Function.update (turn s).role c k.role} := by
  simp only [turn,State.setCall,Turn.State.mk.injEq,and_self,and_true]
  funext d
  by_cases hd : d=c
  · subst hd; rw [update_self,update_self]
  · rw [update_of_ne hd,update_of_ne hd]

theorem turn_same {k : Pc} (h : (s.call c).role=k.role) : turn (s.setCall c k)=turn s := by
  rw [turn_setCall,← h]
  exact congrArg (fun r => {turn s with role := r}) (Function.update_eq_self c (turn s).role)

theorem turn_wake (s : State) (p : Option Nat) : turn (s.wake p)=turn s := by cases p <;> rfl

theorem call_wake (s : State) (p : Option Nat) : (s.wake p).call=s.call := by cases p <;> rfl

theorem chanCallTask_turn {k : Asking} (hc : s.call c=.asking a k) :
    turn (chanCallTask c a alt s k)=turn s := by
  have hh : (s.call c).role=.holds := by rw [hc]; rfl
  cases k with
  | ifUnused | ifDead | enter => exact turn_same (by rw [hh]; split <;> rfl)
  | prepare => exact turn_same (s := s.modCell c Cell.prepare) hh
  | setLen => exact turn_same (s := {s with ep := {s.ep with reqLen := a.req.length}}) hh
  | setCaller => exact turn_same (s := {s with ep := {s.ep with callerPid := some c}}) hh
  | setReply => exact turn_same (s := {s with ep := {s.ep with replyLen := -1}}) hh
  | setPending => exact turn_same (s := {s with ep := {s.ep with requestPending := true}}) hh
  | wakeOwner => exact turn_same (s := s.wake (some s.ep.ownerPid)) hh
  | block =>
    exact turn_same (s := s.modCell c fun _ => ((s.cell c).block alt).1) (hh.trans (by split <;> rfl))
  | waits => exact turn_same (s := s.modCell c Cell.resume) hh
  | test => exact turn_same (by rw [hh]; split <;> rfl)
  | prepareAgain => exact turn_same (s := s.modCell c Cell.prepare) hh
  | testAgain => exact turn_same (by rw [hh]; split <;> rfl)
  | done => exact turn_same (s := s.modCell c Cell.waitDone) hh

/-- The turn either stays as it was or makes one step of the lock, in the ring's room. -/
def Moves (s s' : State) : Prop :=
  turn s'=turn s ∨ s'.ep.wq.len≤chanWaitqLen ∧ Turn.Step (turn s) (turn s')

theorem Tidy.out_queue (h : Tidy s) (hc : (s.call c).role=.out) : c∉s.ep.wq.toList := fun hm => by
  have hw : (s.call c).role=.waits := h.sound.queued c hm
  rw [hc] at hw
  cases hw

theorem toList_push (hl : s.ep.wq.len<chanWaitqLen) (p : Nat) :
    (s.ep.wqPush p).wq.toList=s.ep.wq.toList++[p] := Ring.toList_push hl p

theorem toList_remove {ep : Endpoint} (h : ep.wq.len≤chanWaitqLen) (p : Nat) :
    (ep.wqRemove p).wq.toList=ep.wq.toList.filter (· ≠ p) := Ring.toList_remove h p

theorem len_remove {ep : Endpoint} (h : ep.wq.len≤chanWaitqLen) (p : Nat) :
    (ep.wqRemove p).wq.len≤ep.wq.len := by
  rw [← Ring.length_toList,toList_remove h,← Ring.length_toList (r := ep.wq)]
  exact List.length_filter_le _ _

theorem filter_absent {l : List Nat} {p : Nat} (h : p∉l) : l.filter (· ≠ p)=l :=
  List.filter_eq_self.mpr fun a ha => by simpa using fun he : a=p => h (he ▸ ha)

theorem push_moves {k : Pc} (hc : (s.call c).role=.out) (hb : s.ep.busy=true)
    (hl : s.ep.wq.len<chanWaitqLen) (hk : k.role=.waits) :
    Moves s ({s with ep := s.ep.wqPush c}.setCall c k) := by
  refine .inr ⟨hl,?_⟩
  have hs := Turn.Step.join (s := turn s) c hc hb
  rw [turn_setCall,hk]
  have ht : turn {s with ep := s.ep.wqPush c}={turn s with queue := s.ep.wq.toList++[c]} := by
    simp only [turn,← toList_push hl]
    rfl
  rw [ht]
  exact hs

theorem take_moves {k : Pc} (h : Tidy s) (hc : (s.call c).role=.out) (hb : s.ep.busy=false)
    (hk : k.role=.holds) :
    Moves s (({s with ep := {s.ep with busy := true,holder := some c}}.claims c).setCall c k) := by
  refine .inr ⟨h.room,?_⟩
  rw [turn_setCall,hk]
  exact Turn.Step.take (s := turn s) c hc hb

theorem epClaim_moves {k : Claiming} (h : Tidy s) (hc : s.call c=.claiming a k) :
    Moves s (epClaim c a alt s k) := by
  have hr : (s.call c).role=k.role := by rw [hc]; rfl
  cases k with
  | enter =>
    simp only [epClaim]
    split
    next hb => exact take_moves h hr hb rfl
    next hb =>
      have hb : s.ep.busy=true := by simpa using hb
      split
      next => exact .inl (turn_same hr)
      next =>
        split
        next hl => exact push_moves hr hb hl rfl
        next => exact .inl (turn_same hr)
  | top queued =>
    refine .inl ?_
    cases queued with
    | true => exact turn_same (s := s.modCell c Cell.prepare) hr
    | false => exact turn_same hr
  | test queued =>
    cases queued with
    | true =>
      simp only [epClaim]
      split
      next hh =>
        refine .inr ⟨h.room,?_⟩
        rw [turn_setCall]
        exact Turn.Step.accept (s := turn s) c hh
      next hh =>
        split
        next =>
          refine .inr ⟨Nat.le_trans (len_remove h.room c) h.room,?_⟩
          have hs := Turn.Step.leave (s := turn s) c hr hh
          rw [turn_setCall]
          have ht : turn {s with ep := s.ep.wqRemove c}=
              {turn s with queue := s.ep.wq.toList.filter (· ≠ c)} := by
            simp only [turn,← toList_remove h.room]
            rfl
          rw [ht]
          exact hs
        next => exact .inl (turn_same hr)
    | false =>
      simp only [epClaim]
      split
      next hb => exact take_moves h hr hb rfl
      next hb =>
        have hb : s.ep.busy=true := by simpa using hb
        split
        next hl =>
          split
          next =>
            -- it came and went in one lock section
            refine .inl ((turn_same (s := {s with ep := (s.ep.wqPush c).wqRemove c}) hr).trans ?_)
            have hq : ((s.ep.wqPush c).wqRemove c).wq.toList=s.ep.wq.toList := by
              have hf : ((s.ep.wqPush c).wqRemove c).wq.toList=
                  (s.ep.wqPush c).wq.toList.filter (· ≠ c) :=
                toList_remove (show (s.ep.wqPush c).wq.len≤chanWaitqLen from hl) c
              rw [hf,toList_push hl,List.filter_append,filter_absent (h.out_queue hr)]
              simp
            simp only [turn,hq]
            rfl
          next => exact push_moves hr hb hl rfl
        next => exact .inl (turn_same (by rw [hr]; split <;> rfl))
  | block joined =>
    exact .inl (turn_same (s := s.modCell c fun _ => ((s.cell c).block alt).1)
      (hr.trans (by split <;> rfl)))
  | waits => exact .inl (turn_same (s := s.modCell c Cell.resume) hr)
  | sleep => exact .inl (turn_same (by rw [hr]; split <;> rfl))
  | sleepBlock =>
    exact .inl (turn_same (s := s.modCell c fun _ => ((s.cell c).block alt).1)
      (hr.trans (by split <;> rfl)))
  | sleepWaits => exact .inl (turn_same (s := s.modCell c Cell.resume) hr)
  | took => exact .inl (turn_same (s := s.modCell c Cell.waitDone) hr)
  | gaveUp queued =>
    refine .inl ?_
    cases queued with
    | true => exact turn_same (s := s.modCell c Cell.waitDone) hr
    | false => exact turn_same hr

theorem Tidy.queued_alive (h : Tidy s) {p : Nat} (hp : p∈s.ep.wq.toList) : s.life p=.alive := by
  have hr : (s.call p).role=.waits := h.sound.queued p hp
  exact h.alive p (h.tasks p (Pc.turns_of_waits hr)) fun hi => by rw [hi] at hr; cases hr

theorem releaseLocked_cases (h : Tidy s) :
    s.ep.wq.toList=[] ∧
      s.ep.releaseLocked s.life=({s.ep with busy := false,holder := none},none) ∨
    ∃p,s.ep.wq.toList=p::s.ep.wq.pop.toList ∧ s.ep.releaseLocked s.life=
      ({s.ep with wq := s.ep.wq.pop,handedTo := some p,holder := some p},some p) := by
  cases hq : s.ep.wq.toList with
  | nil => exact .inl ⟨rfl,Endpoint.releaseLocked_nil hq⟩
  | cons p rest =>
    have hp := h.queued_alive (p := p) (by rw [hq]; exact List.mem_cons_self)
    obtain ⟨h1,h2⟩ := Endpoint.releaseLocked_cons hq (show s.life p≠.unused ∧ s.life p≠.dead by
      rw [hp]; decide)
    exact .inr ⟨p,by rw [h2],h1⟩

theorem exit_turn (h : Tidy s) (hr : (s.call c).role=.out) :
    (s.ep.wqRemove c).wq.toList=s.ep.wq.toList ∧ ¬(s.ep.busy=true ∧ s.ep.holder=some c) := by
  refine ⟨by rw [toList_remove h.room,filter_absent (h.out_queue hr)],fun hb => ?_⟩
  rcases h.sound.taken c hb.2 with hh | hh
  · rw [show (turn s).role c=.out from hr] at hh; cases hh
  · have hw : (s.call c).role=.waits := (h.sound.handed c hh).1
    rw [hr] at hw; cases hw

theorem taskExit_turn {k : Exiting} (h : Tidy s) (hc : s.call c=.exiting k) :
    turn (taskExit c alt s k)=turn s := by
  have hr : (s.call c).role=.out := by rw [hc]; rfl
  cases k with
  | queue =>
    obtain ⟨hq,hn⟩ := exit_turn h hr
    simp only [taskExit]
    rw [if_neg (by exact hn)]
    refine (turn_same (s := {s with ep := s.ep.wqRemove c}) hr).trans ?_
    simp only [turn,hq]
    rfl
  | wake p => exact turn_same (s := s.wake (some p)) hr
  | test => exact turn_same hr
  | fail => exact turn_same (s := {s with ep := {s.ep with replyLen := -1}}) hr
  | unset => exact turn_same (s := {s with ep := {s.ep with requestPending := false}}) hr
  | caller => exact turn_same hr
  | clear who => exact turn_same (s := {s with ep := {s.ep with callerPid := none}}) hr
  | wakeCaller who =>
    exact (turn_same (by rw [call_wake]; exact hr)).trans (turn_wake s who)
  | switch =>
    simp only [taskExit]
    split
    next => exact turn_same hr
    next => exact turn_same (c := c) (k := .idle) hr

theorem release_moves {ret : Int} {out : List UInt8} (h : Tidy s)
    (hc : s.call c=.release a ret out) (hg : go c alt s (.release a ret out)=some s') :
    Moves s s' := by
  have hr : (s.call c).role=.holds := by rw [hc]; rfl
  simp only [go] at hg
  rcases releaseLocked_cases h with ⟨hq,hx⟩ | ⟨p,hq,hx⟩
  · rw [hx] at hg
    cases hg
    refine .inr ⟨h.room,?_⟩
    have hs := Turn.Step.free (s := turn s) c hr hq
    exact (turn_setCall {s with ep := {s.ep with busy := false,holder := none}} c .idle).symm ▸ hs
  · rw [hx] at hg
    cases hg
    refine .inr ⟨Nat.le_trans (Nat.sub_le _ _) h.room,?_⟩
    have hs := Turn.Step.hand (s := turn s) c p _ hr hq
    exact (turn_setCall {s with ep := {s.ep with
      wq := s.ep.wq.pop,handedTo := some p,holder := some p}} c (.wakeNext a ret out p)).symm ▸ hs

theorem go_moves (h : Tidy s) (hg : go c alt s (s.call c)=some s') : Moves s s' := by
  cases hc : s.call c with
  | idle => rw [hc] at hg; cases hg
  | claiming a k => rw [hc] at hg; cases hg; exact epClaim_moves h hc
  | copyIn a i =>
    rw [hc] at hg
    have hr : (s.call c).role=.holds := by rw [hc]; rfl
    simp only [go] at hg
    split at hg
    next => cases hg; exact .inl (turn_same hr)
    next =>
      split at hg
      next b _ =>
        cases hg
        exact .inl (turn_same
          (s := {s with ep := {s.ep with reqBuf := Function.update s.ep.reqBuf i b}}) hr)
      next => cases hg; exact .inl (turn_same hr)
  | asking a k => rw [hc] at hg; cases hg; exact .inl (chanCallTask_turn hc)
  | fetch a | copyOut a n got =>
    rw [hc] at hg
    have hr : (s.call c).role=.holds := by rw [hc]; rfl
    cases hg
    exact .inl (turn_same (by rw [hr]; (repeat' split) <;> rfl))
  | release a ret out => rw [hc] at hg; exact release_moves h hc hg
  | wakeNext a ret out p =>
    rw [hc] at hg
    have hr : (s.call c).role=.out := by rw [hc]; rfl
    cases hg
    exact .inl (turn_same (s := s.wake (some p)) (k := .idle) hr)
  | exiting k => rw [hc] at hg; cases hg; exact .inl (taskExit_turn h hc)
  | halted => rw [hc] at hg; cases hg

/-- What a step of c's code leaves as it is, and where it brings c. -/
structure Goes (c : Nat) (s s' : State) (k : Pc) : Prop where
  call : s'.call=Function.update s.call c k
  life : s'.life=s.life ∨ k=.idle ∧ s'.life=Function.update s.life c .dead
  owner : s'.ep.ownerPid=s.ep.ownerPid
  serve : s'.serve=s.serve ∨ s'.serve=.out
  log : s'.log=s.log
  notes : ∀d,d≠c → s'.note d=s.note d
  turns : k.kind=.turns → c < maxTasks ∧ (∃a,s.call c=.claiming a .enter) ∨ (s.call c).kind=.turns
  exits : ∀b,k.kind=.exits b →
    (∃b',(s.call c).kind=.exits b' ∧ (b=true → b'=true ∨ c=s.ep.ownerPid)) ∨
    b=false ∧ (c=s.ep.ownerPid → s'.serve=.out)

/-- A step that changes the endpoint, the cells and the results only. -/
structure Plain (c : Nat) (s s' : State) (k : Pc) : Prop where
  call : s'.call=Function.update s.call c k
  life : s'.life=s.life
  owner : s'.ep.ownerPid=s.ep.ownerPid
  serve : s'.serve=s.serve
  log : s'.log=s.log
  note : s'.note=s.note

theorem Goes.of_other {k : Pc} (h : Plain c s s' k) (hk : k.kind=.other) : Goes c s s' k := by
  refine ⟨h.call,.inl h.life,h.owner,.inl h.serve,h.log,fun d _ => by rw [h.note],fun ht => ?_,
    fun b hb => ?_⟩
  · rw [hk] at ht; cases ht
  · rw [hk] at hb; cases hb

theorem Goes.of_turns {k : Pc} (h : Plain c s s' k) (hk : ∀b,k.kind≠.exits b)
    (ht : c < maxTasks ∧ (∃a,s.call c=.claiming a .enter) ∨ (s.call c).kind=.turns) :
    Goes c s s' k :=
  ⟨h.call,.inl h.life,h.owner,.inl h.serve,h.log,fun d _ => by rw [h.note],fun _ => ht,
    fun b hb => absurd hb (hk b)⟩

theorem Goes.of_exits {k k' : Exiting} (h : Plain c s s' (.exiting k')) (hc : s.call c=.exiting k)
    (hb : k'.answers=true → k.answers=true ∨ c=s.ep.ownerPid) : Goes c s s' (.exiting k') := by
  refine ⟨h.call,.inl h.life,h.owner,.inl h.serve,h.log,fun d _ => by rw [h.note],fun ht => ?_,
    fun b hk => .inl ⟨k.answers,by rw [hc]; rfl,fun he => hb ?_⟩⟩
  · cases ht
  · cases hk; exact he

theorem plain_setCall (s : State) (c : Nat) (k : Pc) : Plain c s (s.setCall c k) k :=
  ⟨rfl,rfl,rfl,rfl,rfl,rfl⟩

theorem plain_wake (s : State) (p : Option Nat) (c : Nat) (k : Pc) :
    Plain c s ((s.wake p).setCall c k) k := by
  cases p <;> exact ⟨rfl,rfl,rfl,rfl,rfl,rfl⟩

theorem goes_note {e : Endpoint} {k : Pc} {f : Note → Note} (he : e.ownerPid=s.ep.ownerPid)
    (hk : k.kind=.other ∨ k.kind=.turns ∧ (s.call c).kind=.turns) :
    Goes c s (({s with ep := e}.modNote c f).setCall c k) k := by
  refine ⟨rfl,.inl rfl,he,.inl rfl,rfl,fun d hd => update_of_ne hd ..,fun ht => ?_,
    fun b hb => ?_⟩
  · rcases hk with hk | hk
    · rw [hk] at ht; cases ht
    · exact .inr hk.2
  · rcases hk with hk | hk
    · rw [hk] at hb; cases hb
    · rw [hk.1] at hb; cases hb

theorem releaseLoop_ownerPid (life : Nat → Life) (n : Nat) : ∀ep : Endpoint,
    (ep.releaseLoop life n).1.ownerPid=ep.ownerPid := by
  induction n with
  | zero => intro ep; rfl
  | succ n ih =>
    intro ep
    simp only [Endpoint.releaseLoop]
    split
    next => exact ih _
    next => rfl

theorem claiming_kind (a : Args) (k : Claiming) (b : Bool) : (Pc.claiming a k).kind≠.exits b := by
  cases k <;> exact fun h => by cases h

theorem epClaim_goes {k : Claiming} (hc : s.call c=.claiming a k) :
    ∃k',Goes c s (epClaim c a alt s k) k' := by
  have ht (hk : k≠.enter) : (s.call c).kind=.turns := by
    rw [hc]; cases k <;> first | rfl | exact absurd rfl hk
  have next {x : Claiming} {t : State} (h : Plain c s t (.claiming a x))
      (hk : c < maxTasks ∧ (∃a,s.call c=.claiming a .enter) ∨ (s.call c).kind=.turns) :
      ∃k',Goes c s t k' :=
    ⟨_,.of_turns h (claiming_kind a x) hk⟩
  cases k with
  | enter =>
    simp only [epClaim]
    split
    next => exact ⟨_,goes_note rfl (.inl rfl)⟩
    next =>
      split
      next => exact ⟨.idle,.of_other ⟨rfl,rfl,rfl,rfl,rfl,rfl⟩ rfl⟩
      next hn =>
        have hm : c < maxTasks := by
          by_contra hm
          exact hn (.inr (.inr (.inl (Nat.le_of_not_lt hm))))
        split <;> exact next ⟨rfl,rfl,rfl,rfl,rfl,rfl⟩ (.inl ⟨hm,a,hc⟩)
  | test queued =>
    replace ht : (s.call c).kind=.turns := ht (by simp)
    cases queued with
    | true =>
      simp only [epClaim]
      split
      next => exact ⟨_,goes_note rfl (.inr ⟨rfl,ht⟩)⟩
      next => split <;> exact next ⟨rfl,rfl,rfl,rfl,rfl,rfl⟩ (.inr ht)
    | false =>
      simp only [epClaim]
      split
      next => exact ⟨_,goes_note rfl (.inl rfl)⟩
      next => (repeat' split) <;> exact next ⟨rfl,rfl,rfl,rfl,rfl,rfl⟩ (.inr ht)
  | top queued =>
    cases queued <;> exact next ⟨rfl,rfl,rfl,rfl,rfl,rfl⟩ (.inr (ht (by simp)))
  | took => exact ⟨.copyIn a 0,.of_other ⟨rfl,rfl,rfl,rfl,rfl,rfl⟩ rfl⟩
  | gaveUp queued => cases queued <;> exact ⟨.idle,.of_other ⟨rfl,rfl,rfl,rfl,rfl,rfl⟩ rfl⟩
  | _ => exact next ⟨rfl,rfl,rfl,rfl,rfl,rfl⟩ (.inr (ht (by simp)))

theorem chanCallTask_goes {k : Asking} : ∃k',Goes c s (chanCallTask c a alt s k) k' := by
  cases k with
  | ifUnused | ifDead | enter | test | testAgain =>
    exact ⟨_,Goes.of_other (plain_setCall ..) (by split <;> rfl)⟩
  | block => exact ⟨_,.of_other ⟨rfl,rfl,rfl,rfl,rfl,rfl⟩ (by split <;> rfl)⟩
  | _ => exact ⟨_,.of_other ⟨rfl,rfl,rfl,rfl,rfl,rfl⟩ rfl⟩

theorem taskExit_goes {k : Exiting} (hc : s.call c=.exiting k) :
    ∃k',Goes c s (taskExit c alt s k) k' := by
  cases k with
  | queue =>
    simp only [taskExit]
    split
    next =>
      refine ⟨_,.of_exits ⟨rfl,rfl,?_,rfl,rfl,rfl⟩ hc (fun h => ?_)⟩
      · exact releaseLoop_ownerPid s.life _ _
      · split at h <;> cases h
    next => exact ⟨_,.of_exits ⟨rfl,rfl,rfl,rfl,rfl,rfl⟩ hc (fun h => by cases h)⟩
  | test =>
    refine ⟨_,Goes.of_exits (plain_setCall ..) hc fun h => ?_⟩
    split at h
    next ho => exact .inr ho.1.symm
    next => cases h
  | wakeCaller who => exact ⟨_,Goes.of_exits (plain_wake ..) hc (fun h => by cases h)⟩
  | switch =>
    simp only [taskExit]
    split
    next => exact ⟨.halted,.of_other ⟨rfl,rfl,rfl,rfl,rfl,rfl⟩ rfl⟩
    next =>
      refine ⟨.idle,rfl,.inr ⟨rfl,rfl⟩,rfl,.inl rfl,rfl,fun _ _ => rfl,fun h => ?_,fun b h => ?_⟩ <;>
        cases h
  | wake p => exact ⟨_,Goes.of_exits (plain_wake ..) hc (fun h => by cases h)⟩
  | _ => exact ⟨_,.of_exits ⟨rfl,rfl,rfl,rfl,rfl,rfl⟩ hc (fun _ => .inl rfl)⟩

theorem go_goes (hg : go c alt s (s.call c)=some s') : ∃k,Goes c s s' k := by
  cases hc : s.call c with
  | idle => rw [hc] at hg; cases hg
  | claiming a k => rw [hc] at hg; cases hg; exact epClaim_goes hc
  | copyIn a i =>
    rw [hc] at hg
    simp only [go] at hg
    split at hg
    next => cases hg; exact ⟨_,Goes.of_other (plain_setCall ..) rfl⟩
    next => split at hg <;> cases hg <;> exact ⟨_,.of_other ⟨rfl,rfl,rfl,rfl,rfl,rfl⟩ rfl⟩
  | asking a k => rw [hc] at hg; cases hg; exact chanCallTask_goes
  | fetch a | copyOut a n got =>
    rw [hc] at hg; cases hg
    exact ⟨_,Goes.of_other (plain_setCall ..) (by (repeat' split) <;> rfl)⟩
  | release a ret out =>
    rw [hc] at hg
    simp only [go] at hg
    have ho := releaseLoop_ownerPid s.life s.ep.wq.len s.ep
    split at hg
    next => cases hg; exact ⟨_,goes_note ho (.inl rfl)⟩
    next =>
      cases hg
      refine ⟨.idle,rfl,.inl rfl,ho,.inl rfl,rfl,fun d hd => update_of_ne hd ..,
        fun h => ?_,fun b h => ?_⟩ <;> cases h
  | wakeNext a ret out p =>
    rw [hc] at hg; cases hg
    exact ⟨_,.of_other ⟨rfl,rfl,rfl,rfl,rfl,rfl⟩ rfl⟩
  | exiting k => rw [hc] at hg; cases hg; exact taskExit_goes hc
  | halted => rw [hc] at hg; cases hg

/-- The steps that no call makes: the owner's and those from outside. -/
def Ev.quiet : Ev → Bool
  | .begin _ _ _ => false
  | .exit _ => false
  | .go _ _ => false
  | _ => true

/-- What a step outside the calls leaves as it is. -/
structure Still (s s' : State) : Prop where
  call : s'.call=s.call
  turn : turn s'=turn s
  owner : s'.ep.ownerPid=s.ep.ownerPid
  note : s'.note=s.note
  results : s'.results=s.results
  serve : s.call s.ep.ownerPid=.idle ∨ s'.serve=s.serve
  alive : ∀c,s.life c=.alive → s'.life c=.alive

theorem serveGo_still {k : Serve} (hi : s.call s.ep.ownerPid=.idle)
    (h : serveGo alt s k=some s') : Still s s' := by
  cases k with
  | wake who => cases h; cases who <;> exact ⟨rfl,rfl,rfl,rfl,rfl,.inl hi,fun _ => id⟩
  | out | works len reads => cases h
  | _ => cases h; exact ⟨rfl,rfl,rfl,rfl,rfl,.inl hi,fun _ => id⟩

theorem serveWork_still {len : Nat} {reads : List (Nat × UInt8)} {w : Work}
    (hi : s.call s.ep.ownerPid=.idle) (h : serveWork s len reads w=some s') : Still s s' := by
  cases w <;> simp only [serveWork,Option.ite_none_right_eq_some] at h <;> cases h.2 <;>
    exact ⟨rfl,rfl,rfl,rfl,rfl,.inl hi,fun _ => id⟩

theorem alive_update {life : Nat → Life} {k : Nat} {l : Life} (hk : life k≠.alive) (c : Nat)
    (hc : life c=.alive) : Function.update life k l c=.alive := by
  rw [update_of_ne fun he : c=k => hk (he ▸ hc)]
  exact hc

theorem Step.still {e : Ev} (h : Step s e s') (he : e.quiet=true) : Still s s' := by
  unfold Step at h
  cases e with
  | begin | exit | go => cases he
  | serveWait =>
    simp only [exec,Option.ite_none_right_eq_some] at h
    obtain ⟨ho,h⟩ := h
    cases h
    exact ⟨rfl,rfl,rfl,rfl,rfl,.inl ho.2.1,fun _ => id⟩
  | serveGo alt =>
    simp only [exec,Option.ite_none_right_eq_some] at h
    exact serveGo_still h.1.2 h.2
  | serveWork w =>
    simp only [exec] at h
    split at h
    next len reads _ =>
      rw [Option.ite_none_right_eq_some] at h
      exact serveWork_still h.1.2.1 h.2
    next => cases h
  | wake p | timeout p | elsewhere p cell =>
    simp only [exec,Option.ite_none_right_eq_some] at h
    cases h.2
    exact ⟨rfl,rfl,rfl,rfl,rfl,.inr rfl,fun _ => id⟩
  | reserve k =>
    simp only [exec,Option.ite_none_right_eq_some] at h
    obtain ⟨hk,h⟩ := h
    cases h
    exact ⟨rfl,rfl,rfl,rfl,rfl,.inr rfl,alive_update fun ha => by
      rcases hk.2 with hl | hl <;> rw [ha] at hl <;> cases hl⟩
  | giveUp k | publish k =>
    simp only [exec,Option.ite_none_right_eq_some] at h
    obtain ⟨hk,h⟩ := h
    cases h
    exact ⟨rfl,rfl,rfl,rfl,rfl,.inr rfl,alive_update fun ha => by rw [ha] at hk; cases hk.2⟩

theorem State.Own.alive (h : s.Own c) (hc : c < maxTasks) : s.life c=.alive := by
  rcases h.1 with hm | hm
  · omega
  · exact hm.1

theorem State.Runs.alive (h : s.Runs c) (hc : c < maxTasks) : s.life c=.alive := by
  rcases h with hm | hm
  · omega
  · exact hm.1

/-- The steps of the contexts: c begins a call, exits, or goes on. -/
inductive Acts (c : Nat) (s s' : State) : Prop
  | begin (a : Args) (refused : Bool) : s.Own c → s'=beginCall c a refused s → Acts c s s'
  | exit : c < maxTasks → s.Own c →
      s'=(if c=s.ep.ownerPid then s.setServe .out else s).setCall c (.exiting .queue) → Acts c s s'
  | go (alt : Bool) : s.Runs c → go c alt s (s.call c)=some s' → Acts c s s'

def Ev.actor : Ev → Option Nat
  | .begin c _ _ => some c
  | .exit c => some c
  | .go c _ => some c
  | _ => none

theorem Step.cases {e : Ev} (h : Step s e s') :
    e.quiet=true ∧ Still s s' ∨ ∃c,e.actor=some c ∧ Acts c s s' := by
  by_cases hq : e.quiet=true
  · exact .inl ⟨hq,h.still hq⟩
  · refine .inr ?_
    cases e with
    | begin c a refused =>
      simp only [Step,exec,Option.ite_none_right_eq_some] at h
      exact ⟨c,rfl,.begin a refused h.1 (Option.some.inj h.2).symm⟩
    | exit c =>
      simp only [Step,exec,Option.ite_none_right_eq_some] at h
      exact ⟨c,rfl,.exit h.1.1 h.1.2 (Option.some.inj h.2).symm⟩
    | go c alt =>
      simp only [Step,exec,Option.ite_none_right_eq_some] at h
      exact ⟨c,rfl,.go alt h.1 h.2⟩
    | _ => exact absurd rfl hq

theorem Acts.moves (h : Acts c s s') (ht : Tidy s) : Moves s s' := by
  cases h with
  | begin a refused ho he =>
    subst he
    have hr : (s.call c).role=.out := by rw [ho.2.1]; rfl
    simp only [beginCall]
    split
    next => exact .inl (turn_same (s := s.modNote c _) (k := .idle) hr)
    next => exact .inl (turn_same (s := s.modNote c _) hr)
  | exit _ ho he =>
    subst he
    have hr : (s.call c).role=.out := by rw [ho.2.1]; rfl
    refine .inl ((turn_same ?_).trans ?_)
    · split <;> exact hr
    · split <;> rfl
  | go alt _ hg => exact go_moves ht hg

theorem Acts.goes (h : Acts c s s') : ∃k,Goes c s s' k := by
  cases h with
  | begin a refused ho he =>
    subst he
    simp only [beginCall]
    split
    next =>
      refine ⟨.idle,rfl,.inl rfl,rfl,.inl rfl,rfl,fun d hd => update_of_ne hd ..,
        fun h => ?_,fun b h => ?_⟩ <;> cases h
    next =>
      refine ⟨.claiming a .enter,rfl,.inl rfl,rfl,.inl rfl,rfl,
        fun d hd => update_of_ne hd ..,fun h => ?_,fun b h => ?_⟩ <;> cases h
  | exit _ ho he =>
    subst he
    refine ⟨.exiting .queue,?_,.inl ?_,?_,?_,?_,fun d _ => ?_,fun h => ?_,fun b h => .inr ⟨?_,?_⟩⟩
    · split <;> rfl
    · split <;> rfl
    · split <;> rfl
    · split
      next => exact .inr rfl
      next => exact .inl rfl
    · split <;> rfl
    · split <;> rfl
    · cases h
    · cases h; rfl
    · intro ho; rw [if_pos ho]; rfl
  | go alt _ hg => exact go_goes hg

theorem Acts.alive (h : Acts c s s') (hc : c < maxTasks) : s.life c=.alive := by
  cases h with
  | begin _ _ ho _ | exit _ ho _ => exact ho.alive hc
  | go _ hr _ => exact hr.alive hc

theorem len_of_turn (h : turn s'=turn s) : s'.ep.wq.len=s.ep.wq.len := by
  rw [← Ring.length_toList,← Ring.length_toList]
  exact congrArg (fun t => t.queue.length) h

theorem Tidy.acts (h : Tidy s) (ha : Acts c s s') : Tidy s' := by
  have hm := ha.moves h
  obtain ⟨k,hg⟩ := ha.goes
  have hother {d : Nat} (hd : d≠c) : s'.call d=s.call d := by
    rw [hg.call,update_of_ne hd]
  have hself : s'.call c=k := by rw [hg.call,update_self]
  constructor
  case room =>
    rcases hm with he | hm
    · rw [len_of_turn he]; exact h.room
    · exact hm.1
  case alive =>
    intro d hd hn
    by_cases he : d=c
    · subst he
      rcases hg.life with hl | ⟨hi,_⟩
      · rw [hl]; exact ha.alive hd
      · rw [hself] at hn; exact absurd hi hn
    · rw [hother he] at hn
      rcases hg.life with hl | ⟨_,hl⟩
      · rw [hl]; exact h.alive d hd hn
      · rw [hl,update_of_ne he]; exact h.alive d hd hn
  case tasks =>
    intro d hd
    by_cases he : d=c
    · subst he
      rw [hself] at hd
      exact (hg.turns hd).elim And.left (h.tasks d)
    · rw [hother he] at hd; exact h.tasks d hd
  case answers =>
    intro d hd
    rw [hg.owner]
    by_cases he : d=c
    · subst he
      rw [hself] at hd
      rcases hg.exits true hd with ⟨b,hb,hx⟩ | ⟨hx,_⟩
      · rcases hx rfl with hx | hx
        · subst hx; exact h.answers d hb
        · exact hx
      · cases hx
    · rw [hother he] at hd; exact h.answers d hd
  case served =>
    intro b hb
    rw [hg.owner] at hb
    by_cases he : s.ep.ownerPid=c
    · rw [he,hself] at hb
      rcases hg.exits b hb with ⟨b',hb',_⟩ | ⟨_,hx⟩
      · rw [← he] at hb'
        have ho := h.served b' hb'
        exact hg.serve.elim (·.trans ho) id
      · exact hx he.symm
    · rw [hother he] at hb
      have ho := h.served b hb
      exact hg.serve.elim (·.trans ho) id
  case sound =>
    rcases hm with he | hm
    · rw [he]; exact h.sound
    · exact hm.2.sound h.sound

theorem Tidy.still (h : Tidy s) (hs : Still s s') : Tidy s' := by
  constructor
  case room => rw [len_of_turn hs.turn]; exact h.room
  case alive => intro d hd hn; rw [hs.call] at hn; exact hs.alive d (h.alive d hd hn)
  case tasks => intro d hd; rw [hs.call] at hd; exact h.tasks d hd
  case answers => intro d hd; rw [hs.call] at hd; rw [hs.owner]; exact h.answers d hd
  case served =>
    intro b hb
    rw [hs.call,hs.owner] at hb
    rcases hs.serve with hi | he
    · rw [hi] at hb; cases hb
    · rw [he]; exact h.served b hb
  case sound => rw [hs.turn]; exact h.sound

theorem Step.tidy {e : Ev} (hs : Step s e s') (h : Tidy s) : Tidy s' := by
  rcases hs.cases with ⟨_,hs⟩ | ⟨c,_,hs⟩
  · exact h.still hs
  · exact h.acts hs

/-- A state right after chan_register_task. -/
def Registered (s : State) : Prop :=
  ∃(life : Nat → Life) (cell : Nat → Cell) (owner reqCap respCap : Nat)
    (reqBuf respBuf : Nat → UInt8) (ep : Endpoint),
    chanRegisterTask (life owner) owner reqBuf reqCap respBuf respCap=some ep ∧
    s=start ep life cell

theorem Registered.eq (h : Registered s) : ∃ep life cell,s=start ep life cell ∧
    ep.wq=⟨fun _ => 0,0,0⟩ ∧ ep.busy=false ∧ ep.holder=none ∧ ep.handedTo=none ∧
    ep.callerPid=none ∧ ep.requestPending=false ∧ ep.ownerPid < maxTasks := by
  obtain ⟨life,cell,owner,reqCap,respCap,reqBuf,respBuf,ep,hr,hs⟩ := h
  simp only [chanRegisterTask] at hr
  split at hr
  next => cases hr
  next hn =>
    cases hr
    exact ⟨_,life,cell,hs,rfl,rfl,rfl,rfl,rfl,rfl,by simpa using fun h => hn (.inr (.inr (.inl h)))⟩

theorem Registered.tidy (h : Registered s) : Tidy s := by
  obtain ⟨ep,life,cell,rfl,hq,hb,hh,ht,_⟩ := h.eq
  refine ⟨by rw [show (start ep life cell).ep.wq=ep.wq from rfl,hq]; exact Nat.zero_le _,
    fun c _ hn => absurd rfl hn,fun c hc => ?_,fun c hc => ?_,fun b hb => ?_,?_⟩
  · cases hc
  · cases hc
  · cases hb
  · have ht : turn (start ep life cell)=⟨fun _ => .out,false,none,[],none⟩ := by
      simp only [turn,start,hq,hb,hh,ht]
      rfl
    rw [ht]
    exact Turn.Sound.empty

end LugalOS.Chan
