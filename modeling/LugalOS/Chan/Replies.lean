import LugalOS.Chan.Integrity

namespace LugalOS.Chan

open Function (update_self)
open Sched (maxTasks)

/-- What a context's note tells at each place of its call: a call claims once, then releases once,
and what it returns after a release is right. -/
def Booked (n : Note) : Pc → Prop
  | .idle => n.claimed=n.released ∧ n.claimed≤1
  | .exiting _ => n.claimed=n.released ∧ n.claimed≤1
  | .halted => n.claimed=n.released ∧ n.claimed≤1
  | .claiming _ k => n.claimed=(if k.role=.holds then 1 else 0) ∧ n.released=0
  | .wakeNext a ret out _ => n.claimed=1 ∧ n.released=1 ∧ Right a ret out n.served
  | _ => n.claimed=1 ∧ n.released=0

/-- What the call claimed it released, once at most, and a success is right. -/
structure Result.Sound (r : Result) : Prop where
  once : r.note.claimed=r.note.released ∧ r.note.claimed≤1
  claimed : 0 ≤ r.ret → r.note.claimed=1
  right : Right r.args r.ret r.out r.note.served

theorem right_failed (a : Args) (served : List Served) : Right a (-1) [] served :=
  fun h => absurd h (by decide)

variable {s s' : State} {c : Nat} {a : Args} {alt : Bool}

/-- The note of c fits where it is, and the results that are new are sound. -/
def Books (c : Nat) (s s' : State) : Prop :=
  Booked (s'.note c) (s'.call c) ∧ ∀r∈s'.results,r∈s.results ∨ r.Sound

theorem books_setCall {t : State} {k : Pc} (hr : t.results=s.results) (hb : Booked (t.note c) k) :
    Books c s (t.setCall c k) := by
  refine ⟨?_,fun r h => .inl (by rw [← hr]; exact h)⟩
  simp only [State.setCall]
  rw [update_self]
  exact hb

theorem books_returns {t : State} {ret : Int} {out : List UInt8} (hr : t.results=s.results)
    (ho : (t.note c).claimed=(t.note c).released ∧ (t.note c).claimed≤1)
    (h1 : 0 ≤ ret → (t.note c).claimed=1) (hx : Right a ret out (t.note c).served) :
    Books c s (t.returns c a ret out) := by
  refine ⟨?_,fun r h => ?_⟩
  · simp only [State.returns,State.setCall]
    rw [update_self]
    exact ho
  · rcases List.mem_cons.mp h with rfl | h
    · exact .inr ⟨ho,h1,hx⟩
    · exact .inl (by rw [← hr]; exact h)

theorem books_fails {t : State} (hr : t.results=s.results)
    (hb : (t.note c).claimed=0 ∧ (t.note c).released=0) : Books c s (t.returns c a (-1) []) :=
  books_returns hr ⟨hb.1.trans hb.2.symm,by omega⟩ (fun h => absurd h (by decide))
    (right_failed a _)

theorem claims_note (t : State) (c : Nat) :
    (t.claims c).note c={t.note c with claimed := (t.note c).claimed+1,mark := t.log.length} :=
  update_self ..

theorem epClaim_books {k : Claiming} (hc : s.call c=.claiming a k)
    (hb : Booked (s.note c) (s.call c)) : Books c s (epClaim c a alt s k) := by
  rw [hc] at hb
  have claims {e : Endpoint} {k' : Pc} (h0 : (s.note c).claimed=0 ∧ (s.note c).released=0)
      (hk : ∀n : Note,n.claimed=1 ∧ n.released=0 → Booked n k') :
      Books c s ((State.claims {s with ep := e} c).setCall c k') :=
    books_setCall rfl (by rw [claims_note]; exact hk _ ⟨by rw [show _+1=1 from congrArg (·+1) h0.1],h0.2⟩)
  cases k with
  | enter =>
    simp only [epClaim]
    split
    next => exact claims hb fun n hn => hn
    next =>
      split
      next => exact books_fails rfl hb
      next => split <;> exact books_setCall rfl hb
  | top queued => cases queued <;> exact books_setCall rfl hb
  | test queued =>
    cases queued with
    | true =>
      simp only [epClaim]
      split
      next => exact claims hb fun n hn => hn
      next => split <;> exact books_setCall rfl hb
    | false =>
      simp only [epClaim]
      split
      next => exact claims hb fun n hn => hn
      next => (repeat' split) <;> exact books_setCall rfl hb
  | took => exact books_setCall rfl hb
  | gaveUp queued => cases queued <;> exact books_fails rfl hb
  | block joined => exact books_setCall rfl (by split <;> exact hb)
  | waits => exact books_setCall rfl hb
  | sleep | sleepBlock => exact books_setCall rfl (by split <;> exact hb)
  | sleepWaits => exact books_setCall rfl hb

theorem chanCallTask_books {k : Asking} (hb : Booked (s.note c) (.asking a k)) :
    Books c s (chanCallTask c a alt s k) := by
  cases k with
  | ifUnused | ifDead | enter | block | test | testAgain =>
    exact books_setCall rfl (by split <;> exact hb)
  | _ => exact books_setCall rfl hb

theorem taskExit_books {k : Exiting} (hb : Booked (s.note c) (.exiting k)) :
    Books c s (taskExit c alt s k) := by
  cases k with
  | queue => simp only [taskExit]; split <;> exact books_setCall rfl hb
  | wakeCaller who => cases who <;> exact books_setCall rfl hb
  | switch =>
    simp only [taskExit]
    split
    next => exact books_setCall rfl hb
    next => exact books_setCall (t := s) (k := .idle) rfl hb
  | _ => exact books_setCall rfl hb

theorem go_books (hk : Desk.Ok (desk s)) (h : Tidy s) (hb : Booked (s.note c) (s.call c))
    (hg : go c alt s (s.call c)=some s') : Books c s s' := by
  cases hc : s.call c with
  | idle => rw [hc] at hg; cases hg
  | claiming a k => rw [hc] at hg; cases hg; exact epClaim_books hc hb
  | copyIn a i =>
    rw [hc] at hg hb
    simp only [go] at hg
    split at hg
    next => cases hg; exact books_setCall rfl hb
    next => split at hg <;> cases hg <;> exact books_setCall rfl hb
  | asking a k => rw [hc] at hg hb; cases hg; exact chanCallTask_books hb
  | fetch a | copyOut a n got =>
    rw [hc] at hg hb; cases hg
    exact books_setCall rfl (by (repeat' split) <;> exact hb)
  | release a ret out =>
    rw [hc] at hg hb
    have hv : (desk s).visit=some ⟨c,a,(s.note c).mark,.leaves ret out⟩ :=
      desk_visit (h.holder (c := c) (by rw [hc]; rfl)) hc rfl
    have hr : Right a ret out (s.log.drop (s.note c).mark) := (hk.visit _ hv).2.2
    simp only [go] at hg
    generalize s.ep.releaseLocked s.life=x at hg
    have hn : (State.modNote {s with ep := x.1} c fun n =>
        {n with released := n.released+1,served := s.log.drop n.mark}).note c=
          {s.note c with released := (s.note c).released+1,served := s.log.drop (s.note c).mark} :=
      update_self ..
    split at hg
    next =>
      cases hg
      refine books_setCall rfl ?_
      rw [hn]
      exact ⟨hb.1,congrArg (·+1) hb.2,hr⟩
    next =>
      cases hg
      refine books_returns rfl ?_ (fun _ => ?_) ?_
      · rw [hn]; exact ⟨hb.1.trans (congrArg (·+1) hb.2.symm),hb.1.le⟩
      · rw [hn]; exact hb.1
      · rw [hn]; exact hr
  | wakeNext a ret out p =>
    rw [hc] at hg hb
    cases hg
    exact books_returns rfl ⟨hb.1.trans hb.2.1.symm,hb.1.le⟩ (fun _ => hb.1) hb.2.2
  | exiting k => rw [hc] at hg hb; cases hg; exact taskExit_books hb
  | halted => rw [hc] at hg; cases hg

/-- What every reachable state keeps. -/
structure Kept (s : State) : Prop where
  tidy : Tidy s
  desk : Desk.Ok (desk s)
  booked : ∀c,Booked (s.note c) (s.call c)
  results : ∀r∈s.results,r.Sound

theorem Acts.books (ha : Acts c s s') (h : Kept s) : Books c s s' := by
  cases ha with
  | begin a refused _ he =>
    subst he
    have hn : (s.modNote c fun _ => {late := s.ownerGone}).note c={late := s.ownerGone} :=
      update_self ..
    simp only [beginCall]
    split
    next => exact books_fails rfl (by rw [hn]; exact ⟨rfl,rfl⟩)
    next => exact books_setCall rfl (by rw [hn]; exact ⟨rfl,rfl⟩)
  | exit _ ho he =>
    subst he
    have hb := h.booked c
    rw [ho.2.1] at hb
    split <;> exact books_setCall rfl hb
  | go alt _ hg => exact go_books h.desk h.tidy (h.booked c) hg

theorem Step.kept {e : Ev} (hs : Step s e s') (h : Kept s) : Kept s' := by
  have hd : Desk.Ok (Chan.desk s') := by
    rcases hs.writes h.tidy with hw | hw
    · exact hw.ok h.desk
    · rw [hw]; exact h.desk
  refine ⟨hs.tidy h.tidy,hd,?_,?_⟩
  · rcases hs.cases with ⟨_,hs⟩ | ⟨c,_,ha⟩
    · rw [hs.note,hs.call]; exact h.booked
    · intro d
      obtain ⟨k,hg⟩ := ha.goes
      by_cases he : d=c
      · subst he; exact (ha.books h).1
      · rw [hg.notes d he,hg.call,Function.update_of_ne he]; exact h.booked d
  · rcases hs.cases with ⟨_,hs⟩ | ⟨c,_,ha⟩
    · rw [hs.results]; exact h.results
    · exact fun r hr => ((ha.books h).2 r hr).elim (h.results r) id

theorem Registered.kept (h : Registered s) : Kept s := by
  have ht := h.tidy
  obtain ⟨ep,life,cell,rfl,_,_,hh,_,hcp,hp,_⟩ := h.eq
  have hv : (desk (start ep life cell)).visit=none := by simp only [desk,start,hh]; rfl
  refine ⟨ht,⟨fun _ => ⟨hcp,hp,rfl⟩,fun v hw => ?_⟩,fun c => ⟨rfl,Nat.zero_le 1⟩,fun r hr => ?_⟩
  · rw [hv] at hw; cases hw
  · cases hr

theorem reach_kept {s0 : State} {es : List Ev} (h0 : Registered s0)
    (h : Run.Reach Step s0 es s) : Kept s :=
  h.invariant (fun _ s => Kept s) h0.kept fun _ _ _ _ hk hs => Step.kept hs hk

theorem Booked.holds {n : Note} {k : Pc} (h : Booked n k) (hn : n.released<n.claimed) :
    k.role=.holds := by
  cases k with
  | idle | exiting | halted => have := h.1; omega
  | claiming a k =>
    by_contra hk
    have h1 := h.1
    rw [if_neg (by exact hk)] at h1
    omega
  | wakeNext => have := h.1; have := h.2.1; omega
  | _ => rfl

theorem Booked.le {n : Note} {k : Pc} (h : Booked n k) : n.released≤n.claimed ∧ n.claimed≤1 := by
  cases k with
  | idle | exiting | halted => exact ⟨h.1.ge,h.2⟩
  | claiming a k =>
    obtain ⟨h1,h2⟩ := h
    split at h1 <;> omega
  | wakeNext => have := h.1; have := h.2.1; omega
  | _ => have := h.1; have := h.2; omega

theorem Booked.held {n : Note} {k : Pc} (h : Booked n k) (hk : k.role=.holds) :
    n.released<n.claimed := by
  cases k with
  | claiming a k =>
    have h1 := h.1
    rw [if_pos (by exact hk)] at h1
    have := h.2
    omega
  | idle | exiting | halted | wakeNext => cases hk
  | _ => have := h.1; have := h.2; omega

/-- In every run on one task-owned endpoint: a call that returned released what it claimed exactly
once, and a success returned the one reply given to its own request; no call releases twice; at
most one call is between its claim and its release, and the endpoint is busy for that call or for
the one it is handed to. -/
theorem reply_integrity {s0 : State} {es : List Ev} (h0 : Registered s0)
    (h : Run.Reach Step s0 es s) :
    (∀r∈s.results,r.note.released=r.note.claimed ∧ r.note.claimed≤1 ∧
      (0 ≤ r.ret → r.note.claimed=1 ∧ ∃e,r.note.served=[e] ∧ e.len=r.args.req.length ∧
        (∀x∈e.reads,r.args.req[x.1]?=some x.2) ∧ r.ret=e.reply.length ∧
        (r.args.user ∨ r.args.resp → r.out=e.reply))) ∧
    (∀c,(s.note c).released≤(s.note c).claimed ∧ (s.note c).claimed≤1) ∧
    (∀c d,(s.note c).released<(s.note c).claimed → (s.note d).released<(s.note d).claimed → c=d) ∧
    (s.ep.busy=true → ∃c,(s.note c).released<(s.note c).claimed ∨ s.ep.handedTo=some c) := by
  have hk := reach_kept h0 h
  refine ⟨fun r hr => ?_,fun c => (hk.booked c).le,fun c d hc hd => ?_,fun hb => ?_⟩
  · have hs := hk.results r hr
    refine ⟨hs.once.1.symm,hs.once.2,fun hret => ⟨hs.claimed hret,?_⟩⟩
    obtain ⟨e,he,hf,hn,ho⟩ := hs.right hret
    exact ⟨e,he,hf.1,hf.2,hn,ho⟩
  · exact hk.tidy.sound.unique ((hk.booked c).holds hc) ((hk.booked d).holds hd)
  · obtain ⟨c,hc⟩ := hk.tidy.sound.owned hb
    exact ⟨c,(hk.tidy.sound.taken c hc).imp (hk.booked c).held id⟩

/-- Task 1 owns an endpoint with room for two bytes each way; tasks 0 to 12 are alive. -/
def served : State :=
  start {ownerPid := 1,reqBuf := fun _ => 0,reqCap := 2,respBuf := fun _ => 0,respCap := 2}
    (fun c => if c<13 then .alive else .unused) fun _ => {}

theorem served_registered : Registered served := ⟨_,_,1,2,2,_,_,_,rfl,rfl⟩

/-- Task 2 calls with the byte 7 and is answered with 9 before it blocks. -/
def answered : List Ev :=
  .begin 2 (chanCall [7] true 1) false::List.replicate 11 (.go 2 false)++
    [.serveWait,.serveGo false,.serveGo false,.serveWork (.read 0),.serveWork (.write 0 9),
      .serveWork (.reply 1),.serveGo false,.serveGo false,.serveGo false,.serveGo false]++
    List.replicate 8 (.go 2 false)

theorem reply_integrity_answered : ∃s es,Run.Reach Step served es s ∧ ∃r∈s.results,
    r.ret=1 ∧ r.note.released=1 ∧ ∃e,r.note.served=[e] ∧ r.out=e.reply := by
  have hex : (Run.exec (fun e s => exec s e) answered served).any fun s =>
      s.results.any fun r => r.ret==1 && r.args.resp := by decide +kernel
  obtain ⟨s,hr,hex⟩ := Run.Reach.exec_any (fun _ _ _ h => h) hex
  simp only [List.any_eq_true,Bool.and_eq_true,beq_iff_eq] at hex
  obtain ⟨r,hm,hret,hresp⟩ := hex
  obtain ⟨h1,h2,h3⟩ := (reply_integrity served_registered hr).1 r hm
  obtain ⟨h4,e,h5,_,_,_,h6⟩ := h3 (by rw [hret]; decide)
  exact ⟨s,_,hr,r,hm,hret,h1.trans h4,e,h5,h6 (.inr hresp)⟩

end LugalOS.Chan
