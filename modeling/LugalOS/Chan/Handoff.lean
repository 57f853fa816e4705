import LugalOS.Chan.Replies

namespace LugalOS.Chan

open Function (update_of_ne update_self)
open Sched (maxTasks)

/-- The task that a releaser has yet to wake. -/
def Pc.wakes : Pc → Option Nat
  | .wakeNext _ _ _ p => some p
  | .exiting (.wake p) => some p
  | _ => none

/-- The wake of p's hand-over is still to come. -/
def Due (s : State) (p : Nat) : Prop := ∃c,(s.call c).wakes=some p

/-- A task that was handed the claim will take it: it tests handed_to again before it blocks, its
block returns at once for a token, or it is READY, unless its wake is still to come. -/
def Heard (s : State) (p : Nat) : Prop :=
  (∃a,s.call p=.claiming a (.top true) ∨ s.call p=.claiming a (.test true)) ∨
  (∃a joined,s.call p=.claiming a (.block joined)) ∧ ((s.cell p).pending=true ∨ Due s p) ∨
  (∃a,s.call p=.claiming a .waits) ∧
    ((s.cell p).rest=.run ∨ (s.cell p).rest=.polling ∧ (s.cell p).pending=true ∨ Due s p)

/-- What the wait loop keeps of a waiter's cell, whether it was handed the claim, and whether its
wake is to come. A waiter that joined the queue late has not prepared. -/
def Attends (cell : Cell) (handed due : Prop) : Pc → Prop
  | .claiming _ (.test true) => cell.rest≠.blocked ∧ cell.armed=true
  | .claiming _ (.block joined) => cell.rest≠.blocked ∧ (joined=false → cell.armed=true) ∧
      (handed → cell.armed=true ∧ (cell.pending=true ∨ due))
  | .claiming _ .waits => (cell.rest=.polling → cell.armed=true) ∧
      (handed → cell.rest=.run ∨ cell.rest=.polling ∧ cell.pending=true ∨ due)
  | _ => True

theorem Attends.mono {cell : Cell} {handed handed' due due' : Prop} {k : Pc}
    (h : Attends cell handed due k) (hh : handed' → handed) (hd : due → due') :
    Attends cell handed' due' k := by
  cases k with
  | claiming a k =>
    cases k with
    | test queued => cases queued <;> exact h
    | block joined => exact ⟨h.1,h.2.1,fun hx => ⟨(h.2.2 (hh hx)).1,(h.2.2 (hh hx)).2.imp id hd⟩⟩
    | waits => exact ⟨h.1,fun hx => (h.2 (hh hx)).imp id (Or.imp id hd)⟩
    | _ => trivial
  | _ => trivial

theorem Attends.unblock {cell : Cell} {handed due due' : Prop} {k : Pc}
    (h : Attends cell handed due k) : Attends cell.unblock handed due' k := by
  have hun (hb : cell.rest≠.blocked) (ha : cell.armed=true) :
      cell.unblock={cell with pending := true} := by
    unfold Cell.unblock
    rw [if_neg hb,if_pos ha]
  cases k with
  | claiming a k =>
    cases k with
    | test queued =>
      cases queued with
      | true =>
        obtain ⟨hb,ha⟩ := h
        rw [hun hb ha]
        exact ⟨hb,ha⟩
      | false => trivial
    | block joined =>
      obtain ⟨hb,hj,hh⟩ := h
      by_cases ha : cell.armed=true
      · rw [hun hb ha]
        exact ⟨hb,fun _ => ha,fun _ => ⟨ha,.inl rfl⟩⟩
      · have hc : cell.unblock=cell := by
          unfold Cell.unblock
          rw [if_neg hb,if_neg ha]
        rw [hc]
        exact ⟨hb,hj,fun hx => absurd (hh hx).1 ha⟩
    | waits =>
      obtain ⟨hp,hh⟩ := h
      by_cases hb : cell.rest=.blocked
      · have hc : cell.unblock={cell with rest := .run,armed := false} := if_pos hb
        rw [hc]
        exact ⟨(by rintro ⟨⟩),fun _ => .inl rfl⟩
      · by_cases ha : cell.armed=true
        · rw [hun hb ha]
          refine ⟨hp,fun _ => ?_⟩
          cases hr : cell.rest with
          | run => exact .inl rfl
          | blocked => exact absurd hr hb
          | polling => exact .inr (.inl ⟨rfl,rfl⟩)
        · have hc : cell.unblock=cell := by
            unfold Cell.unblock
            rw [if_neg hb,if_neg ha]
          rw [hc]
          refine ⟨hp,fun _ => .inl ?_⟩
          cases hr : cell.rest with
          | run => rfl
          | blocked => exact absurd hr hb
          | polling => exact absurd (hp hr) ha
    | _ => trivial
  | _ => trivial

theorem Attends.expire {cell : Cell} {handed due : Prop} {k : Pc} (h : Attends cell handed due k)
    (hk : k.timed=true) : Attends cell.expire handed due k := by
  cases k with
  | claiming a k =>
    cases k with
    | waits =>
      unfold Cell.expire
      split
      next => exact ⟨(by rintro ⟨⟩),fun _ => .inl rfl⟩
      next => exact h
    | sleepWaits => trivial
    | _ => cases hk
  | _ => cases hk

variable {s s' : State} {c : Nat} {a : Args} {alt : Bool}

theorem Attends.block {cell : Cell} {handed due : Prop} {joined : Bool}
    (h : Attends cell handed due (.claiming a (.block joined))) :
    Attends (cell.block alt).1 handed due
      (.claiming a (if (cell.block alt).2 then .top true else .waits)) := by
  obtain ⟨hb,_,hh⟩ := h
  unfold Cell.block
  by_cases hp : cell.pending=true
  · rw [if_pos hp]; trivial
  · rw [if_neg hp]
    by_cases halt : alt=true
    · rw [if_pos halt]
      by_cases ha : cell.armed=true
      · rw [if_pos ha]
        exact ⟨fun _ => ha,fun hx => .inr (.inr ((hh hx).2.resolve_left hp))⟩
      · rw [if_neg ha]; trivial
    · rw [if_neg halt]
      exact ⟨(by rintro ⟨⟩),fun hx => .inr (.inr ((hh hx).2.resolve_left hp))⟩

/-- What a step of c does to the cells of others, and whom it hands the claim to. -/
structure Touches (c : Nat) (s s' : State) : Prop where
  cells : ∀p,p≠c → s'.cell p=s.cell p ∧ (s.call c).wakes≠some p ∨ s'.cell p=(s.cell p).unblock
  handed : ∀p,s'.ep.handedTo=some p →
    s.ep.handedTo=some p ∨ (s'.call c).wakes=some p ∧ s'.cell p=s.cell p

theorem touches_own (hw : (s.call c).wakes=none) (hcell : ∀p,p≠c → s'.cell p=s.cell p)
    (hh : ∀p,s'.ep.handedTo=some p → s.ep.handedTo=some p) : Touches c s s' :=
  ⟨fun p hp => .inl ⟨hcell p hp,by rw [hw]; rintro ⟨⟩⟩,fun p hp => .inl (hh p hp)⟩

theorem touches_wake {q : Option Nat} (hcell : s'.cell=(s.wake q).cell)
    (hh : s'.ep.handedTo=s.ep.handedTo) (hw : (s.call c).wakes=none ∨ (s.call c).wakes=q) :
    Touches c s s' := by
  refine ⟨fun p hp => ?_,fun p hp => .inl (hh ▸ hp)⟩
  rw [hcell]
  cases q with
  | none =>
    have hw : (s.call c).wakes=none := hw.elim id id
    exact .inl ⟨rfl,by rw [hw]; rintro ⟨⟩⟩
  | some q =>
    by_cases he : p=q
    · subst he; exact .inr (update_self ..)
    · refine .inl ⟨update_of_ne he ..,?_⟩
      rcases hw with hw | hw <;> rw [hw]
      · rintro ⟨⟩
      · exact fun h => he (Option.some.inj h).symm

theorem epClaim_touches {k : Claiming} (hc : s.call c=.claiming a k) :
    Touches c s (epClaim c a alt s k) := by
  have hw : (s.call c).wakes=none := by rw [hc]; rfl
  cases k with
  | enter =>
    simp only [epClaim]
    split
    next => exact touches_own hw (fun _ _ => rfl) fun _ => id
    next =>
      split
      next => exact touches_own hw (fun _ _ => rfl) fun _ => id
      next => split <;> exact touches_own hw (fun _ _ => rfl) fun _ => id
  | top queued =>
    cases queued with
    | true => exact touches_own hw (fun _ => (update_of_ne · ..)) fun _ => id
    | false => exact touches_own hw (fun _ _ => rfl) fun _ => id
  | test queued =>
    cases queued with
    | true =>
      simp only [epClaim]
      split
      next => exact touches_own hw (fun _ _ => rfl) (fun _ hm => by cases hm)
      next => split <;> exact touches_own hw (fun _ _ => rfl) fun _ => id
    | false =>
      simp only [epClaim]
      split
      next => exact touches_own hw (fun _ _ => rfl) fun _ => id
      next => (repeat' split) <;> exact touches_own hw (fun _ _ => rfl) fun _ => id
  | sleep => exact touches_own hw (fun _ _ => rfl) fun _ => id
  | gaveUp queued =>
    cases queued with
    | true =>
      exact touches_own hw (fun _ => (update_of_ne · ..)) fun _ => id
    | false => exact touches_own hw (fun _ _ => rfl) fun _ => id
  | _ => exact touches_own hw (fun _ => (update_of_ne · ..)) fun _ => id

theorem chanCallTask_touches {k : Asking} (hc : s.call c=.asking a k) :
    Touches c s (chanCallTask c a alt s k) := by
  have hw : (s.call c).wakes=none := by rw [hc]; rfl
  cases k with
  | wakeOwner => exact touches_wake rfl rfl (.inl hw)
  | prepare | block | waits | prepareAgain | done =>
    exact touches_own hw (fun _ => (update_of_ne · ..)) fun _ => id
  | _ => exact touches_own hw (fun _ _ => rfl) fun _ => id

theorem taskExit_touches {k : Exiting} (h : Tidy s) (hc : s.call c=.exiting k) :
    Touches c s (taskExit c alt s k) := by
  cases k with
  | queue =>
    obtain ⟨_,hn⟩ := exit_turn h (c := c) (by rw [hc]; rfl)
    simp only [taskExit]
    rw [if_neg (by exact hn)]
    exact touches_own (by rw [hc]; rfl) (fun _ _ => rfl) fun _ => id
  | wake p => exact touches_wake rfl rfl (.inr (by rw [hc]; rfl))
  | wakeCaller who =>
    exact touches_wake (q := who) rfl (by cases who <;> rfl) (.inl (by rw [hc]; rfl))
  | switch =>
    simp only [taskExit]
    split
    next => exact touches_own (by rw [hc]; rfl) (fun _ _ => rfl) fun _ => id
    next =>
      exact touches_own (by rw [hc]; rfl) (fun _ _ => rfl) fun _ => id
  | _ => exact touches_own (by rw [hc]; rfl) (fun _ _ => rfl) fun _ => id

theorem go_touches (h : Tidy s) (hg : go c alt s (s.call c)=some s') : Touches c s s' := by
  cases hc : s.call c with
  | idle => rw [hc] at hg; cases hg
  | claiming a k => rw [hc] at hg; cases hg; exact epClaim_touches hc
  | copyIn a i =>
    rw [hc] at hg
    have hw : (s.call c).wakes=none := by rw [hc]; rfl
    simp only [go] at hg
    split at hg
    next => cases hg; exact touches_own hw (fun _ _ => rfl) fun _ => id
    next => split at hg <;> cases hg <;> exact touches_own hw (fun _ _ => rfl) fun _ => id
  | asking a k => rw [hc] at hg; cases hg; exact chanCallTask_touches hc
  | fetch a | copyOut a n got =>
    rw [hc] at hg
    cases hg
    exact touches_own (by rw [hc]; rfl) (fun _ _ => rfl) fun _ => id
  | release a ret out =>
    rw [hc] at hg
    have hw : (s.call c).wakes=none := by rw [hc]; rfl
    simp only [go] at hg
    rcases releaseLocked_cases h with ⟨hq,hy⟩ | ⟨q,hq,hy⟩
    · rw [hy] at hg
      cases hg
      exact touches_own hw (fun _ _ => rfl) fun _ => id
    · rw [hy] at hg
      cases hg
      refine ⟨fun p hp => .inl ⟨rfl,by rw [hw]; rintro ⟨⟩⟩,fun p hp => .inr ⟨?_,rfl⟩⟩
      cases hp
      simp only [State.setCall]
      rw [update_self]
      rfl
  | wakeNext a ret out p =>
    rw [hc] at hg
    cases hg
    exact touches_wake (q := some p) rfl rfl (.inr (by rw [hc]; rfl))
  | exiting k => rw [hc] at hg; cases hg; exact taskExit_touches h hc
  | halted => rw [hc] at hg; cases hg

theorem Acts.touches (ha : Acts c s s') (h : Tidy s) : Touches c s s' := by
  cases ha with
  | begin a refused ho he =>
    subst he
    have hw : (s.call c).wakes=none := by rw [ho.2.1]; rfl
    simp only [beginCall]
    split
    next => exact touches_own hw (fun _ _ => rfl) fun _ => id
    next => exact touches_own hw (fun _ _ => rfl) fun _ => id
  | exit _ ho he =>
    subst he
    have hw : (s.call c).wakes=none := by rw [ho.2.1]; rfl
    split <;> exact touches_own hw (fun _ _ => rfl) fun _ => id
  | go alt _ hg => exact go_touches h hg

/-- The waiter joined the queue in this turn of its loop, after skipping task_prepare_block. -/
def Pc.joinedLate : Pc → Bool
  | .claiming _ (.block true) => true
  | _ => false

theorem Attends.handed {cell : Cell} {handed due : Prop} {k : Pc} (h : Attends cell handed due k)
    (hl : k.joinedLate=true → cell.armed=true) : Attends cell True True k := by
  cases k with
  | claiming a k =>
    cases k with
    | test queued => cases queued <;> exact h
    | block joined =>
      refine ⟨h.1,h.2.1,fun _ => ⟨?_,.inr trivial⟩⟩
      cases joined with
      | true => exact hl rfl
      | false => exact h.2.1 rfl
    | waits => exact ⟨h.1,fun _ => .inr (.inr trivial)⟩
    | _ => trivial
  | _ => trivial

theorem attends_of_kind {cell : Cell} {handed due : Prop} {k : Pc} (h : k.kind≠.turns) :
    Attends cell handed due k := by
  cases k with
  | claiming a k => cases k <;> trivial
  | _ => trivial

theorem attends_setCall {t : State} {k : Pc} {handed due : Prop}
    (h : Attends (t.cell c) handed due k) :
    Attends ((t.setCall c k).cell c) handed due ((t.setCall c k).call c) := by
  simp only [State.setCall]
  rw [update_self]
  exact h

theorem epClaim_attends {k : Claiming} {due : Prop} (h : Tidy s) (hr : s.Runs c)
    (hc : s.call c=.claiming a k)
    (ha : Attends (s.cell c) (s.ep.handedTo=some c) due (.claiming a k)) :
    Attends ((epClaim c a alt s k).cell c) ((epClaim c a alt s k).ep.handedTo=some c) due
      ((epClaim c a alt s k).call c) := by
  have hrest (hk : k≠.enter) : (s.cell c).rest≠.blocked := by
    have ht : c < maxTasks := h.tasks c (by
      rw [hc]; cases k <;> first | rfl | exact absurd rfl hk)
    exact (hr.resolve_left (Nat.not_le.mpr ht)).2
  have hself (f : Cell → Cell) : (s.modCell c f).cell c=f (s.cell c) := update_self ..
  have hpoll (hk : (Pc.claiming a k).role=.out) : s.ep.handedTo≠some c := fun hh => by
    have hw : (s.call c).role=.waits := (h.sound.handed c hh).1
    rw [hc,hk] at hw
    cases hw
  cases k with
  | enter =>
    simp only [epClaim]
    split
    next => exact attends_setCall trivial
    next =>
      split
      next => exact attends_setCall (t := s) (k := .idle) trivial
      next => split <;> exact attends_setCall trivial
  | top queued =>
    cases queued with
    | true =>
      refine attends_setCall ?_
      simp only [if_true,hself]
      exact ⟨hrest (by rintro ⟨⟩),rfl⟩
    | false => exact attends_setCall trivial
  | test queued =>
    cases queued with
    | true =>
      simp only [epClaim]
      split
      next => exact attends_setCall trivial
      next hh =>
        split
        next => exact attends_setCall trivial
        next => exact attends_setCall ⟨ha.1,fun _ => ha.2,fun hx => absurd hx hh⟩
    | false =>
      have hrest := hrest (by rintro ⟨⟩)
      have hpoll := hpoll rfl
      simp only [epClaim]
      split
      next => exact attends_setCall trivial
      next =>
        split
        next =>
          split
          next => exact attends_setCall trivial
          next => exact attends_setCall ⟨hrest,(by rintro ⟨⟩),fun hx => absurd hx hpoll⟩
        next => exact attends_setCall (by split <;> trivial)
  | block joined =>
    refine attends_setCall ?_
    rw [hself]
    exact ha.block
  | waits => exact attends_setCall trivial
  | sleep | sleepBlock => exact attends_setCall (by split <;> trivial)
  | sleepWaits | took => exact attends_setCall trivial
  | gaveUp queued =>
    cases queued with
    | true => exact attends_setCall (t := s.modCell c Cell.waitDone) (k := .idle) trivial
    | false => exact attends_setCall (t := s) (k := .idle) trivial

/-- Whether the step hands the claim to a waiter that joined the queue late and has not prepared
since. -/
def handsLate (s s' : State) : Bool :=
  match s'.ep.handedTo with
  | some p => s.ep.handedTo != some p && (s.call p).joinedLate && !(s.cell p).armed
  | none => false

/-- A step that hands the claim to no waiter of this kind. -/
def Timely (s : State) (e : Ev) (s' : State) : Prop := Step s e s' ∧ handsLate s s'=false

/-- Every waiter will hear of its turn. -/
structure Watched (s : State) : Prop where
  tidy : Tidy s
  attends : ∀p,Attends (s.cell p) (s.ep.handedTo=some p) (Due s p) (s.call p)

theorem Acts.attends (ha : Acts c s s') (h : Watched s) (hl : handsLate s s'=false) (p : Nat) :
    Attends (s'.cell p) (s'.ep.handedTo=some p) (Due s' p) (s'.call p) := by
  have ht := ha.touches h.tidy
  obtain ⟨k,hg⟩ := ha.goes
  have hother {d : Nat} (hd : d≠c) : s'.call d=s.call d := by
    rw [hg.call,update_of_ne hd]
  by_cases hp : p=c
  · subst hp
    have hself : s'.call p=k := by rw [hg.call,update_self]
    by_cases hk : k.kind=.turns
    · -- only a step of ep_claim leaves it in the loop
      have hcl : ∃a x,s.call p=.claiming a x := by
        rcases hg.turns hk with ⟨_,a,hc⟩ | hc
        · exact ⟨a,_,hc⟩
        · exact Pc.of_turns hc
      obtain ⟨a,x,hc⟩ := hcl
      cases ha with
      | begin a' refused ho he | exit _ ho he => rw [ho.2.1] at hc; cases hc
      | go alt hr hgo =>
        have hw := h.attends p
        rw [hc] at hgo hw
        cases hgo
        refine (epClaim_attends h.tidy hr hc hw).mono id fun ⟨d,hd⟩ => ⟨d,?_⟩
        have hdp : d≠p := fun he => by rw [he,hc] at hd; cases hd
        rw [hother hdp]
        exact hd
    · rw [hself]; exact attends_of_kind hk
  · rw [hother hp]
    by_cases hh : s'.ep.handedTo=some p → s.ep.handedTo=some p
    · rcases ht.cells p hp with ⟨hc,hw⟩ | hc
      · rw [hc]
        refine (h.attends p).mono hh fun ⟨d,hd⟩ => ⟨d,?_⟩
        have hdc : d≠c := fun he => hw (he ▸ hd)
        rw [hother hdc]
        exact hd
      · rw [hc]; exact (h.attends p).unblock.mono hh id
    · obtain ⟨hnew,hold⟩ := Classical.not_imp.mp hh
      obtain ⟨hw,hc⟩ := (ht.handed p hnew).resolve_left hold
      have hjoin : (s.call p).joinedLate=true → (s.cell p).armed=true := fun hj => by
        have hl := hl
        simp only [handsLate,hnew,hj] at hl
        simpa [hold] using hl
      rw [hc]
      exact ((h.attends p).handed hjoin).mono (fun _ => trivial) fun _ => ⟨c,hw⟩

/-- What a step outside the calls does to the cell of a task. -/
def Outside (s s' : State) (p : Nat) : Prop :=
  s.call p=.idle ∨ s'.cell p=s.cell p ∨ s'.cell p=(s.cell p).unblock ∨
    (s.call p).timed=true ∧ s'.cell p=(s.cell p).expire

theorem outside_same (h : s'.cell=s.cell) (p : Nat) : Outside s s' p :=
  .inr (.inl (by rw [h]))

theorem outside_own {q : Nat} {x : Cell} (h : s'.cell=Function.update s.cell q x)
    (hq : s.call q=.idle) (p : Nat) : Outside s s' p := by
  by_cases hp : p=q
  · subst hp; exact .inl hq
  · exact .inr (.inl (by rw [h,update_of_ne hp]))

theorem outside_wake {q : Option Nat} (h : s'.cell=(s.wake q).cell) (p : Nat) :
    Outside s s' p := by
  cases q with
  | none => exact outside_same h p
  | some q =>
    by_cases hp : p=q
    · subst hp
      exact .inr (.inr (.inl (by rw [h]; exact update_self ..)))
    · exact .inr (.inl (by rw [h]; exact update_of_ne hp ..))

theorem serveGo_outside {k : Serve} (hi : s.call s.ep.ownerPid=.idle)
    (h : serveGo alt s k=some s') (p : Nat) : Outside s s' p := by
  cases k with
  | out | works len reads => cases h
  | wake who => cases h; exact outside_wake (q := who) rfl p
  | test | testAgain | fetchLen | unset | caller | clear who => cases h; exact outside_same rfl p
  | _ => cases h; exact outside_own rfl hi p

theorem Step.outside {e : Ev} (h : Step s e s') (ht : Tidy s) (he : e.quiet=true) (p : Nat) :
    Outside s s' p := by
  unfold Step at h
  cases e with
  | begin | exit | go => cases he
  | serveGo alt =>
    simp only [exec,Option.ite_none_right_eq_some] at h
    exact serveGo_outside h.1.2 h.2 p
  | serveWork w =>
    simp only [exec] at h
    split at h
    next len reads _ =>
      rw [Option.ite_none_right_eq_some] at h
      obtain ⟨_,h⟩ := h
      cases w <;> simp only [serveWork,Option.ite_none_right_eq_some] at h <;> cases h.2 <;>
        exact outside_same rfl p
    next => cases h
  | wake q =>
    simp only [exec,Option.ite_none_right_eq_some] at h
    cases h.2
    exact outside_wake (q := some q) rfl p
  | timeout q =>
    simp only [exec,Option.ite_none_right_eq_some] at h
    obtain ⟨hq,h⟩ := h
    cases h
    by_cases hp : p=q
    · subst hp
      exact .inr (.inr (.inr ⟨hq,update_self ..⟩))
    · exact .inr (.inl (update_of_ne hp ..))
  | elsewhere q cell =>
    simp only [exec,Option.ite_none_right_eq_some] at h
    obtain ⟨hq,h⟩ := h
    cases h
    exact outside_own rfl hq.2.2.1 p
  | publish q =>
    simp only [exec,Option.ite_none_right_eq_some] at h
    obtain ⟨hq,h⟩ := h
    cases h
    refine outside_own (q := q) rfl ?_ p
    by_contra hn
    have hl := ht.alive q hq.1 hn
    rw [hq.2] at hl
    cases hl
  | _ =>
    simp only [exec,Option.ite_none_right_eq_some] at h
    cases h.2
    exact outside_same rfl p

theorem Timely.watched {e : Ev} (h : Timely s e s') (hw : Watched s) : Watched s' := by
  refine ⟨h.1.tidy hw.tidy,?_⟩
  rcases h.1.cases with ⟨hq,hs⟩ | ⟨c,_,ha⟩
  · intro p
    have hh : s'.ep.handedTo=some p → s.ep.handedTo=some p := fun hx => by
      rw [← show s'.ep.handedTo=s.ep.handedTo from congrArg Turn.State.handed hs.turn]; exact hx
    have hd : Due s p → Due s' p := fun ⟨d,hd⟩ => ⟨d,by rw [hs.call]; exact hd⟩
    have ha := hw.attends p
    rw [hs.call]
    rcases h.1.outside hw.tidy hq p with hi | hc | hc | ⟨ht,hc⟩
    · rw [hi]; trivial
    · rw [hc]; exact ha.mono hh hd
    · rw [hc]; exact ha.unblock.mono hh hd
    · rw [hc]; exact (ha.expire ht).mono hh hd
  · exact ha.attends hw h.2

theorem Registered.watched (h : Registered s) : Watched s := by
  refine ⟨h.tidy,?_⟩
  obtain ⟨ep,life,cell,rfl,_⟩ := h.eq
  exact fun _ => trivial

theorem reach_watched {s0 : State} {es : List Ev} (h0 : Registered s0)
    (h : Run.Reach Timely s0 es s) : Watched s :=
  h.invariant (fun _ s => Watched s) h0.watched fun _ _ _ _ hw ht => Timely.watched ht hw

/-- One step that hands nobody the claim too late, computed. -/
def advance (e : Ev) (s : State) : Option State := (exec s e).filter fun s' => !handsLate s s'

theorem timely_advance (e : Ev) (s s' : State) (h : advance e s=some s') : Timely s e s' := by
  simp only [advance,Option.filter_eq_some_iff,Bool.not_eq_true'] at h
  exact h

/-- In every run in which no release hands the claim to a waiter that joined the queue late and has
neither blocked nor prepared since, whoever is handed the claim hears of it. -/
theorem no_lost_handoff {s0 : State} {es : List Ev} (h0 : Registered s0)
    (h : Run.Reach Timely s0 es s) {p : Nat} (hp : s.ep.handedTo=some p) : Heard s p := by
  have hw := reach_watched h0 h
  have hr : (s.call p).role=.waits := (hw.tidy.sound.handed p hp).1
  have ha := hw.attends p
  cases hc : s.call p with
  | claiming a k =>
    rw [hc] at hr ha
    cases k with
    | top queued =>
      cases queued with
      | true => exact .inl ⟨a,.inl hc⟩
      | false => cases hr
    | test queued =>
      cases queued with
      | true => exact .inl ⟨a,.inr hc⟩
      | false => cases hr
    | block joined => exact .inr (.inl ⟨⟨a,joined,hc⟩,(ha.2.2 hp).2⟩)
    | waits => exact .inr (.inr ⟨⟨a,hc⟩,ha.2 hp⟩)
    | _ => cases hr
  | _ => rw [hc] at hr; cases hr

/-- Task 3 waits in the queue, blocked, while task 2's call is refused and released. -/
def handedBlocked : List Ev :=
  [.begin 2 (chanCall [7] true 1) false,.go 2 false,.begin 3 (chanCallWait [7] true 1 50) false,
    .go 3 false,.go 3 false,.go 3 false,.go 3 false,.go 2 false,.go 2 false,.go 2 false,.go 2 false,
    .go 2 true,.go 2 false,.go 2 false]

theorem no_lost_handoff_blocked : ∃s es,Run.Reach Timely served es s ∧ s.ep.handedTo=some 3 ∧
    (s.cell 3).rest=.run ∧ Heard s 3 := by
  have hex : (Run.exec advance handedBlocked served).any fun s =>
      s.ep.handedTo==some 3 && (s.cell 3).rest==.run := by decide +kernel
  obtain ⟨s,hr,hex⟩ := Run.Reach.exec_any (fun s e s' => timely_advance e s s') hex
  simp only [Bool.and_eq_true,beq_iff_eq] at hex
  exact ⟨s,_,hr,hex.1,hex.2,no_lost_handoff served_registered hr hex.1⟩

theorem reach_absent {s0 : State} {es : List Ev} (h : Run.Reach Step s0 es s)
    (hi : s0.call c=.idle) (ha : ∀e∈es,e.actor≠some c) : s.call c=.idle := by
  induction h with
  | start => exact hi
  | @next es s1 s2 e _ hs ih =>
    have hc := ih fun e he => ha e (List.mem_cons_of_mem _ he)
    rcases hs.cases with ⟨_,hs⟩ | ⟨d,hd,hs⟩
    · rw [hs.call]; exact hc
    · have hne : c≠d := fun he => ha e List.mem_cons_self (he ▸ hd)
      obtain ⟨k,hg⟩ := hs.goes
      rw [hg.call,update_of_ne hne]
      exact hc

/-- Task 2 holds the endpoint, tasks 3 to 10 fill its queue and task 11 polls. The eight give up;
task 11 joins the queue, and before it blocks task 2, whose call is refused, hands it the claim
and wakes it. -/
def joinedLate : List Ev :=
  let waits (c : Nat) : List Ev := [.begin c (chanCallWait [7] true 1 50) false,.go c false]
  [.begin 2 (chanCall [7] true 1) false,.go 2 false]++
    [3,4,5,6,7,8,9,10,11].flatMap waits++
    [3,4,5,6,7,8,9,10].flatMap (fun c => [.go c false,.go c true])++
    [.go 11 false,.go 11 false]++
    [.go 2 false,.go 2 false,.go 2 false,.go 2 false,.go 2 true,.go 2 false,.go 2 false]++
    [.go 11 false]

theorem no_lost_handoff_late : ∃s es p,Run.Reach Step served es s ∧ s.ep.handedTo=some p ∧
    (s.cell p).rest=.blocked ∧ ¬Heard s p := by
  have hex : (Run.exec (fun e s => exec s e) joinedLate served).any fun s =>
      s.ep.handedTo==some 11 && (s.cell 11).rest==.blocked && !(s.cell 11).pending &&
        ((s.call 11).timed && (s.call 11).role==.waits) &&
        (List.range 12).all (fun c => (s.call c).wakes==none) := by decide +kernel
  obtain ⟨s,hrun,hex⟩ := Run.Reach.exec_any (fun _ _ _ h => h) hex
  simp only [Bool.and_eq_true,beq_iff_eq,Bool.not_eq_true',List.all_eq_true] at hex
  obtain ⟨⟨⟨⟨hh,hb⟩,hp⟩,ht,hr⟩,hw⟩ := hex
  have hdue : ¬Due s 11 := by
    rintro ⟨c,hc⟩
    by_cases hl : c<12
    · rw [hw c (List.mem_range.mpr hl)] at hc; cases hc
    · rw [reach_absent hrun rfl fun e he hx => ?_] at hc
      · cases hc
      · have hall : ∀e∈joinedLate,e.actor.all (· < 12)=true := by decide +kernel
        have := hall e (by simpa using he)
        rw [hx] at this
        exact hl (by simpa using this)
  refine ⟨s,_,11,hrun,hh,hb,?_⟩
  rintro (⟨a,hc | hc⟩ | ⟨⟨a,j,hc⟩,_⟩ | ⟨_,hc | ⟨_,hc⟩ | hc⟩)
  · rw [hc] at ht; cases ht
  · rw [hc] at ht; cases ht
  · rw [hc] at ht; cases ht
  · rw [hb] at hc; cases hc
  · rw [hp] at hc; cases hc
  · exact hdue hc

end LugalOS.Chan
