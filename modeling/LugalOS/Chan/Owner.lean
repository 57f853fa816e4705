import LugalOS.Chan.Handoff

namespace LugalOS.Chan

open Sched (maxTasks)

/-- Where a call stands that the owner's death refuses: it has posted no request, and what it will
return is decided or will be -1. -/
def Pc.refused : Pc → Bool
  | .asking _ .ifUnused => true
  | .asking _ .ifDead => true
  | .asking _ _ => false
  | .fetch _ => false
  | .copyOut _ _ _ => false
  | .release _ ret _ => ret == -1
  | .wakeNext _ ret _ _ => ret == -1
  | _ => true

/-- The step is the second test of the owner's state, in a call that began after the owner had
exited, at a time when the owner's slot is no longer DEAD. -/
def misled (s : State) : Ev → Bool
  | .go c _ =>
    match s.call c with
    | .asking _ .ifDead => (s.note c).late && s.life s.ep.ownerPid != .dead
    | _ => false
  | _ => false

/-- A step in which no call takes the slot's next task for the owner. -/
def Heeded (s : State) (e : Ev) (s' : State) : Prop := Step s e s' ∧ misled s e=false

/-- Every call that began after the owner had exited has returned -1 or is on its way to. -/
structure Refuses (s : State) : Prop where
  calls : ∀c,(s.note c).late=true → (s.call c).refused=true
  results : ∀r∈s.results,r.note.late=true → r.ret=-1

variable {s s' : State} {c : Nat} {a : Args} {alt : Bool}

/-- What a step of c does to its own call, and the results that are new. -/
def Declines (c : Nat) (s s' : State) : Prop :=
  ((s'.note c).late=true → (s'.call c).refused=true) ∧
    ∀r∈s'.results,r∈s.results ∨ (r.note.late=true → r.ret=-1)

theorem declines_setCall {t : State} {k : Pc} (hr : t.results=s.results)
    (hk : (t.note c).late=true → k.refused=true) : Declines c s (t.setCall c k) := by
  refine ⟨fun hl => ?_,fun r h => .inl (by rw [← hr]; exact h)⟩
  simp only [State.setCall]
  rw [Function.update_self]
  exact hk hl

theorem declines_returns {t : State} {ret : Int} {out : List UInt8} (hr : t.results=s.results)
    (hk : (t.note c).late=true → ret=-1) : Declines c s (t.returns c a ret out) := by
  refine ⟨fun _ => ?_,fun r h => ?_⟩
  · simp only [State.returns,State.setCall]
    rw [Function.update_self]
    rfl
  · rcases List.mem_cons.mp h with rfl | h
    · exact .inr hk
    · exact .inl (by rw [← hr]; exact h)

theorem epClaim_declines {k : Claiming} : Declines c s (epClaim c a alt s k) := by
  cases k with
  | enter =>
    simp only [epClaim]
    split
    next => exact declines_setCall rfl fun _ => rfl
    next =>
      split
      next => exact declines_returns rfl fun _ => rfl
      next => split <;> exact declines_setCall rfl fun _ => rfl
  | top queued => cases queued <;> exact declines_setCall rfl fun _ => rfl
  | test queued =>
    cases queued with
    | true =>
      simp only [epClaim]
      split
      next => exact declines_setCall rfl fun _ => rfl
      next => split <;> exact declines_setCall rfl fun _ => rfl
    | false =>
      simp only [epClaim]
      split
      next => exact declines_setCall rfl fun _ => rfl
      next => (repeat' split) <;> exact declines_setCall rfl fun _ => rfl
  | gaveUp queued => cases queued <;> exact declines_returns rfl fun _ => rfl
  | _ => exact declines_setCall rfl fun _ => rfl

theorem chanCallTask_declines {k : Asking}
    (hb : (s.note c).late=true → (Pc.asking a k).refused=true)
    (hd : k=.ifDead → (s.note c).late=true → s.life s.ep.ownerPid=.dead) :
    Declines c s (chanCallTask c a alt s k) := by
  have past (h : (Pc.asking a k).refused=false) : ¬(s.note c).late=true := fun hl => by
    rw [hb hl] at h; cases h
  cases k with
  | ifUnused => exact declines_setCall rfl fun _ => by split <;> rfl
  | ifDead => exact declines_setCall rfl fun hl => by rw [if_pos (hd rfl hl)]; rfl
  | _ => exact declines_setCall rfl fun hl => absurd hl (past rfl)

theorem taskExit_declines {k : Exiting} : Declines c s (taskExit c alt s k) := by
  cases k with
  | queue => simp only [taskExit]; split <;> exact declines_setCall rfl fun _ => rfl
  | wakeCaller who => cases who <;> exact declines_setCall rfl fun _ => rfl
  | switch =>
    simp only [taskExit]
    split
    next => exact declines_setCall rfl fun _ => rfl
    next => exact declines_setCall (t := s) (k := .idle) rfl fun _ => rfl
  | _ => exact declines_setCall rfl fun _ => rfl

theorem go_declines (hb : (s.note c).late=true → (s.call c).refused=true)
    (hd : ∀a,s.call c=.asking a .ifDead → (s.note c).late=true → s.life s.ep.ownerPid=.dead)
    (hg : go c alt s (s.call c)=some s') : Declines c s s' := by
  cases hc : s.call c with
  | idle => rw [hc] at hg; cases hg
  | claiming a k => rw [hc] at hg; cases hg; exact epClaim_declines
  | copyIn a i =>
    rw [hc] at hg
    simp only [go] at hg
    split at hg
    next => cases hg; exact declines_setCall rfl fun _ => rfl
    next => split at hg <;> cases hg <;> exact declines_setCall rfl fun _ => rfl
  | asking a k =>
    rw [hc] at hg hb
    cases hg
    exact chanCallTask_declines hb fun hk => hd a (hk ▸ hc)
  | fetch a | copyOut a n got =>
    rw [hc] at hg hb; cases hg
    exact declines_setCall rfl fun hl => absurd (hb hl) (by simp [Pc.refused])
  | release a ret out =>
    rw [hc] at hg hb
    have hret (hl : (s.note c).late=true) : ret=-1 := by simpa [Pc.refused] using hb hl
    simp only [go] at hg
    generalize s.ep.releaseLocked s.life=x at hg
    have hn : ((State.modNote {s with ep := x.1} c fun n =>
        {n with released := n.released+1,served := s.log.drop n.mark}).note c).late=
          (s.note c).late := by
      simp only [State.modNote,Function.update_self]
    split at hg
    next =>
      cases hg
      refine declines_setCall rfl fun hl => ?_
      rw [hn] at hl
      rw [hret hl]
      rfl
    next =>
      cases hg
      exact declines_returns rfl fun hl => hret (hn ▸ hl)
  | wakeNext a ret out p =>
    rw [hc] at hg hb
    cases hg
    exact declines_returns rfl fun hl => by simpa [Pc.refused] using hb hl
  | exiting k => rw [hc] at hg; cases hg; exact taskExit_declines
  | halted => rw [hc] at hg; cases hg

theorem Acts.declines (ha : Acts c s s') (h : Refuses s)
    (hd : ∀a,s.call c=.asking a .ifDead → (s.note c).late=true → s.life s.ep.ownerPid=.dead) :
    Declines c s s' := by
  cases ha with
  | begin a refused _ he =>
    subst he
    simp only [beginCall]
    split
    next => exact declines_returns rfl fun _ => rfl
    next => exact declines_setCall rfl fun _ => rfl
  | exit _ ho he => subst he; split <;> exact declines_setCall rfl fun _ => rfl
  | go alt _ hg => exact go_declines (h.calls c) hd hg

theorem Heeded.refuses {e : Ev} (h : Heeded s e s') (hr : Refuses s) : Refuses s' := by
  rcases h.1.cases with ⟨_,hs⟩ | ⟨c,hc,ha⟩
  · exact ⟨by rw [hs.note,hs.call]; exact hr.calls,by rw [hs.results]; exact hr.results⟩
  · have hd : ∀a,s.call c=.asking a .ifDead → (s.note c).late=true →
        s.life s.ep.ownerPid=.dead := fun a hca hl => by
      cases ha with
      | begin _ _ ho _ | exit _ ho _ => rw [ho.2.1] at hca; cases hca
      | go alt hrun hg =>
        cases e with
        | go c' alt' =>
          cases hc
          have hm := h.2
          simp only [misled,hca,hl] at hm
          simpa using hm
        | begin c' a' refused =>
          cases hc
          have hs := h.1
          simp only [Step,exec,Option.ite_none_right_eq_some] at hs
          rw [hs.1.2.1] at hca
          cases hca
        | exit c' =>
          cases hc
          have hs := h.1
          simp only [Step,exec,Option.ite_none_right_eq_some] at hs
          rw [hs.1.2.2.1] at hca
          cases hca
        | _ => cases hc
    obtain ⟨h1,h2⟩ := ha.declines hr hd
    obtain ⟨k,hg⟩ := ha.goes
    refine ⟨fun d hl => ?_,fun r hm => (h2 r hm).elim (hr.results r) id⟩
    by_cases he : d=c
    · subst he; exact h1 hl
    · rw [hg.call,Function.update_of_ne he]
      rw [hg.notes d he] at hl
      exact hr.calls d hl

theorem misled_asks {e : Ev} (h : Step s e s') (hm : misled s e=true) :
    ∃c a,(s'.note c).late=true ∧ s'.call c=.asking a .enter := by
  cases e with
  | go c alt =>
    simp only [misled] at hm
    split at hm
    next a hca =>
      simp only [Step,exec,Option.ite_none_right_eq_some,hca,go,chanCallTask] at h
      obtain ⟨_,h⟩ := h
      cases h
      simp only [Bool.and_eq_true,bne_iff_ne] at hm
      refine ⟨c,a,hm.1,?_⟩
      simp only [State.setCall]
      rw [Function.update_self,if_neg hm.2]
    next => cases hm
  | _ => cases hm

theorem Registered.refuses (h : Registered s) : Refuses s := by
  obtain ⟨ep,life,cell,rfl,_⟩ := h.eq
  exact ⟨fun _ _ => rfl,fun r hr => by cases hr⟩

/-- In every run in which no call that began after the owner's exit finds the owner's slot other
than DEAD at its second test of it, each of these calls returns -1 and posts no request; and one
more step keeps this exactly when it is no such test. -/
theorem dead_owner_refuses {s0 : State} {es : List Ev} (h0 : Registered s0)
    (h : Run.Reach Heeded s0 es s) :
    ((∀r∈s.results,r.note.late=true → r.ret=-1) ∧
      ∀c a k,(s.note c).late=true → s.call c=.asking a k → k=.ifUnused ∨ k=.ifDead) ∧
    ∀e s',Step s e s' → (misled s e=false ↔ (∀r∈s'.results,r.note.late=true → r.ret=-1) ∧
      ∀c a k,(s'.note c).late=true → s'.call c=.asking a k → k=.ifUnused ∨ k=.ifDead) := by
  have hr : Refuses s :=
    h.invariant (fun _ s => Refuses s) h0.refuses fun _ _ _ _ hr ht => Heeded.refuses ht hr
  have told {t : State} (ht : Refuses t) : (∀r∈t.results,r.note.late=true → r.ret=-1) ∧
      ∀c a k,(t.note c).late=true → t.call c=.asking a k → k=.ifUnused ∨ k=.ifDead := by
    refine ⟨ht.results,fun c a k hl hc => ?_⟩
    have hk := ht.calls c hl
    rw [hc] at hk
    cases k with
    | ifUnused => exact .inl rfl
    | ifDead => exact .inr rfl
    | _ => cases hk
  refine ⟨told hr,fun e s' hs => ⟨fun hm => told (Heeded.refuses ⟨hs,hm⟩ hr),fun ht => ?_⟩⟩
  cases hm : misled s e with
  | false => rfl
  | true =>
    obtain ⟨c,a,hl,hc⟩ := misled_asks hs hm
    rcases ht.2 c a _ hl hc with hk | hk <;> cases hk

/-- One step in which no call is misled, computed. -/
def heed (e : Ev) (s : State) : Option State := (exec s e).filter fun _ => !misled s e

theorem heeded_heed (e : Ev) (s s' : State) (h : heed e s=some s') : Heeded s e s' := by
  simp only [heed,Option.filter_eq_some_iff,Bool.not_eq_true'] at h
  exact h

/-- The owner exits; then task 2 calls. -/
def calledDead : List Ev :=
  [.exit 1,.go 1 false,.go 1 false,.go 1 false,.begin 2 (chanCall [7] true 1) false]++
    List.replicate 6 (.go 2 false)

theorem dead_owner_refuses_called : ∃s es,Run.Reach Heeded served es s ∧
    ∃r∈s.results,r.note.late=true ∧ r.ret=-1 := by
  have hex : (Run.exec heed calledDead served).any fun s => s.results.any fun r => r.note.late := by
    decide +kernel
  obtain ⟨s,hr,hex⟩ := Run.Reach.exec_any (fun s e s' => heeded_heed e s s') hex
  simp only [List.any_eq_true] at hex
  obtain ⟨r,hm,hl⟩ := hex
  exact ⟨s,_,hr,r,hm,hl,(dead_owner_refuses served_registered hr).1.1 r hm hl⟩

/-- The owner exits and a new task gets its slot; then task 2 calls. -/
def calledReused : List Ev :=
  [.exit 1,.go 1 false,.go 1 false,.go 1 false,.reserve 1,.publish 1,
    .begin 2 (chanCall [7] true 1) false]++List.replicate 13 (.go 2 false)

theorem dead_owner_refuses_reused : ∃s es,Run.Reach Step served es s ∧ s.ownerGone=true ∧
    (s.note 2).late=true ∧ s.call 2=.asking (chanCall [7] true 1) .waits ∧
    (s.cell 2).rest=.blocked ∧ s.ep.requestPending=true ∧ s.serve=.out := by
  have hex : (Run.exec (fun e s => exec s e) calledReused served).any fun s =>
      s.ownerGone && (s.note 2).late && s.call 2==.asking (chanCall [7] true 1) .waits &&
        (s.cell 2).rest==.blocked && s.ep.requestPending && s.serve==.out := by decide +kernel
  obtain ⟨s,hr,hex⟩ := Run.Reach.exec_any (fun _ _ _ h => h) hex
  simp only [Bool.and_eq_true,beq_iff_eq] at hex
  obtain ⟨⟨⟨⟨⟨h1,h2⟩,h3⟩,h4⟩,h5⟩,h6⟩ := hex
  exact ⟨s,_,hr,h1,h2,h3,h4,h5,h6⟩

end LugalOS.Chan
