import LugalOS.Chan.Claim
import LugalOS.Chan.Desk

namespace LugalOS.Chan

open Function (update_of_ne update_self)
open Sched (maxTasks)

/-- How far a call has come at the desk. -/
def Asking.stage : Asking → Stage
  | .setCaller => .sized
  | .setReply => .named
  | .setPending => .reset
  | .wakeOwner => .waits
  | .block => .waits
  | .waits => .waits
  | .test => .waits
  | .prepareAgain => .waits
  | .testAgain => .waits
  | .done => .answered
  | _ => .ready

/-- The visit of a context that holds the endpoint. -/
def Pc.visit (c mark : Nat) : Pc → Option Visit
  | .claiming a .took => some ⟨c,a,mark,.copies 0⟩
  | .copyIn a i => some ⟨c,a,mark,.copies i⟩
  | .asking a k => some ⟨c,a,mark,k.stage⟩
  | .fetch a => some ⟨c,a,mark,.answered⟩
  | .copyOut a n got => some ⟨c,a,mark,.takes n got⟩
  | .release a ret out => some ⟨c,a,mark,.leaves ret out⟩
  | _ => none

def Serve.clerk : Serve → Clerk
  | .waitDone => .saw
  | .fetchLen => .saw
  | .works len reads => .works len reads
  | .unset => .wrote
  | .caller => .unset
  | .clear who => .calls who
  | _ => .off

/-- The owner's exit answers a pending request in the clerk's place. -/
def Exiting.clerk : Exiting → Clerk
  | .fail => .saw
  | .unset => .wrote
  | .caller => .unset
  | .clear who => .calls who
  | _ => .off

def Pc.clerk (serving : Clerk) : Pc → Clerk
  | .exiting k => k.clerk
  | _ => serving

/-- The endpoint's request slot as a desk. -/
def desk (s : State) : Desk where
  visit := s.ep.holder.bind fun c => (s.call c).visit c (s.note c).mark
  clerk := (s.call s.ep.ownerPid).clerk s.serve.clerk
  caller := s.ep.callerPid
  reqLen := s.ep.reqLen
  reply := s.ep.replyLen
  pending := s.ep.requestPending
  req := s.ep.reqBuf
  resp := s.ep.respBuf
  respCap := s.ep.respCap
  log := s.log

variable {s s' : State} {c : Nat} {a : Args} {alt : Bool}

theorem Pc.visit_none {k : Pc} (h : k.role≠.holds) (c m : Nat) : k.visit c m=none := by
  cases k with
  | claiming a k => cases k <;> first | rfl | exact absurd rfl h
  | idle | wakeNext | exiting | halted => rfl
  | _ => exact absurd rfl h

/-- The desk changes by one of its steps, or not at all. -/
def Writes (s s' : State) : Prop := Desk.Step (desk s) (desk s') ∨ desk s'=desk s

theorem desk_setCall {k : Pc}
    (hx : c=s.ep.ownerPid → k.clerk s.serve.clerk=(s.call c).clerk s.serve.clerk) :
    desk (s.setCall c k)={desk s with visit := (desk (s.setCall c k)).visit} := by
  have hl : (desk (s.setCall c k)).clerk=(desk s).clerk := by
    simp only [desk,State.setCall]
    by_cases hd : s.ep.ownerPid=c
    · rw [hd,update_self]; exact hx hd.symm
    · rw [update_of_ne hd]
  exact congrArg (fun x => {desk s with visit := (desk (s.setCall c k)).visit,clerk := x}) hl

theorem desk_same {k : Pc} (hv : ∀m,k.visit c m=(s.call c).visit c m)
    (hx : c=s.ep.ownerPid → k.clerk s.serve.clerk=(s.call c).clerk s.serve.clerk) :
    desk (s.setCall c k)=desk s := by
  have he : (desk (s.setCall c k)).visit=(desk s).visit := by
    simp only [desk,State.setCall]
    congr 1
    funext d
    by_cases hd : d=c
    · subst hd; rw [update_self,hv]
    · rw [update_of_ne hd]
  rw [desk_setCall hx,he]

theorem desk_out {k : Pc} (hc : (s.call c).role≠.holds) (hk : k.role≠.holds)
    (hx : c=s.ep.ownerPid → k.clerk s.serve.clerk=(s.call c).clerk s.serve.clerk) :
    desk (s.setCall c k)=desk s :=
  desk_same (fun m => by rw [Pc.visit_none hk,Pc.visit_none hc]) hx

theorem desk_at {k : Pc} {m : Nat} {x y : Stage} (hh : s.ep.holder=some c)
    (hc : ∀x,(s.call c).clerk x=x) (hk : ∀x,k.clerk x=x)
    (hv : k.visit c (s.note c).mark=some ⟨c,a,m,y⟩) :
    desk (s.setCall c k)=(desk s).at_ ⟨c,a,m,x⟩ y := by
  have he : (desk (s.setCall c k)).visit=some ⟨c,a,m,y⟩ := by
    simp only [desk,State.setCall,hh,Option.bind_some]
    rw [update_self]
    exact hv
  rw [desk_setCall fun _ => by rw [hk,hc],he]
  rfl

theorem writes_at {t : State} {k : Pc} {m : Nat} {x y : Stage} (hh : t.ep.holder=some c)
    (hc : ∀x,(t.call c).clerk x=x) (hk : ∀x,k.clerk x=x)
    (hv : k.visit c (t.note c).mark=some ⟨c,a,m,y⟩)
    (hs : Desk.Step (desk s) ((desk t).at_ ⟨c,a,m,x⟩ y)) : Writes s (t.setCall c k) :=
  .inl (by rw [desk_at (x := x) hh hc hk hv]; exact hs)

theorem desk_visit {k : Pc} {v : Visit} (hh : s.ep.holder=some c) (hc : s.call c=k)
    (hv : k.visit c (s.note c).mark=some v) : (desk s).visit=some v := by
  simp only [desk,hh,Option.bind_some,hc]
  exact hv

theorem desk_wake (s : State) (p : Option Nat) : desk (s.wake p)=desk s := by cases p <;> rfl

theorem Tidy.holder (h : Tidy s) (hc : (s.call c).role=.holds) : s.ep.holder=some c :=
  (h.sound.alone c hc).1

theorem chanCallTask_writes {k : Asking} (h : Tidy s) (hc : s.call c=.asking a k) :
    Writes s (chanCallTask c a alt s k) := by
  have hh := h.holder (c := c) (by rw [hc]; rfl)
  have hx (x : Clerk) : (s.call c).clerk x=x := by rw [hc]; rfl
  have hv : (desk s).visit=some ⟨c,a,(s.note c).mark,k.stage⟩ := desk_visit hh hc rfl
  -- most steps stay at their stage
  have stays {k' : Pc} {t : State} (ht : desk t=desk s) (hcall : t.call=s.call)
      (hk : ∀m,k'.visit c m=some ⟨c,a,m,k.stage⟩) (hx' : ∀x,k'.clerk x=x) :
      Writes s (t.setCall c k') := by
    refine .inr ((desk_same (fun m => ?_) fun _ => ?_).trans ht)
    · rw [hk,hcall,hc]; rfl
    · rw [hx',hcall,hx]
  have fails (hq : k.stage.quits=true) : Writes s (s.setCall c (.release a (-1) [])) :=
    writes_at hh hx (fun _ => rfl) rfl (Desk.Step.fails hv hq)
  have sees (hw : k.stage=.waits) (hn : s.ep.callerPid≠some c) :
      Writes s (s.setCall c (.asking a .done)) :=
    writes_at hh hx (fun _ => rfl) rfl (Desk.Step.sees hv hw hn)
  cases k with
  | ifUnused | ifDead | enter =>
    simp only [chanCallTask]
    split
    next => exact fails rfl
    next => exact stays rfl rfl (fun _ => rfl) (fun _ => rfl)
  | prepare => exact stays (t := s.modCell c Cell.prepare) rfl rfl (fun _ => rfl) (fun _ => rfl)
  | setLen =>
    exact writes_at (t := {s with ep := {s.ep with reqLen := a.req.length}}) hh hx (fun _ => rfl)
      rfl (Desk.Step.size hv rfl)
  | setCaller =>
    exact writes_at (t := {s with ep := {s.ep with callerPid := some c}}) hh hx (fun _ => rfl)
      rfl (Desk.Step.name hv rfl)
  | setReply =>
    exact writes_at (t := {s with ep := {s.ep with replyLen := -1}}) hh hx (fun _ => rfl)
      rfl (Desk.Step.reset hv rfl)
  | setPending =>
    exact writes_at (t := {s with ep := {s.ep with requestPending := true}}) hh hx (fun _ => rfl)
      rfl (Desk.Step.post hv rfl)
  | wakeOwner =>
    exact stays (t := s.wake (some s.ep.ownerPid)) rfl rfl (fun _ => rfl) (fun _ => rfl)
  | block =>
    exact stays (t := s.modCell c fun _ => ((s.cell c).block alt).1) rfl rfl
      (fun _ => by split <;> rfl) (fun _ => by split <;> rfl)
  | waits => exact stays (t := s.modCell c Cell.resume) rfl rfl (fun _ => rfl) (fun _ => rfl)
  | test =>
    simp only [chanCallTask]
    split
    next => exact stays rfl rfl (fun _ => rfl) (fun _ => rfl)
    next hn => exact sees rfl hn
  | prepareAgain =>
    exact stays (t := s.modCell c Cell.prepare) rfl rfl (fun _ => rfl) (fun _ => rfl)
  | testAgain =>
    simp only [chanCallTask]
    split
    next => exact stays rfl rfl (fun _ => rfl) (fun _ => rfl)
    next hn => exact sees rfl hn
  | done => exact stays (t := s.modCell c Cell.waitDone) rfl rfl (fun _ => rfl) (fun _ => rfl)

theorem Tidy.unheld (h : Tidy s) (hb : s.ep.busy=false) : s.ep.holder=none := by
  cases hh : s.ep.holder with
  | none => rfl
  | some d =>
    rcases h.sound.taken d hh with hd | hd
    · exact absurd ((h.sound.alone d hd).2.1.symm.trans hb) (by decide)
    · exact absurd ((h.sound.handed d hd).2.2.2.symm.trans hb) (by decide)

theorem claims_writes {e : Endpoint} {k : Pc} (hv : (desk s).visit=none)
    (he : desk {s with ep := e}={desk s with visit := (desk {s with ep := e}).visit})
    (hh : e.holder=some c) (hc : ∀x,(s.call c).clerk x=x) (hk : ∀x,k.clerk x=x)
    (hk' : ∀m,k.visit c m=some ⟨c,a,m,.copies 0⟩) :
    Writes s (({s with ep := e}.claims c).setCall c k) := by
  refine writes_at (a := a) (m := s.log.length) (x := .copies 0) (y := .copies 0) hh hc hk ?_ ?_
  · simp only [State.claims,State.modNote]
    rw [update_self]
    exact hk' _
  · have hs := Desk.Step.comes c a hv
    have ht : (desk (State.claims {s with ep := e} c)).at_ ⟨c,a,s.log.length,.copies 0⟩ (.copies 0)=
        {desk s with visit := some ⟨c,a,(desk s).log.length,.copies 0⟩} :=
      congrArg (fun d : Desk => {d with visit := some ⟨c,a,s.log.length,.copies 0⟩}) he
    rw [ht]
    exact hs

theorem epClaim_writes {k : Claiming} (h : Tidy s) (hc : s.call c=.claiming a k) :
    Writes s (epClaim c a alt s k) := by
  have hx (x : Clerk) : (s.call c).clerk x=x := by rw [hc]; rfl
  have out {m : Pc} {t : State} (ht : desk t=desk s) (hcall : t.call=s.call)
      (hk' : m.role≠.holds) (hx' : ∀x,m.clerk x=x) (hk : k.role≠.holds) :
      Writes s (t.setCall c m) := by
    refine .inr ((desk_out ?_ hk' fun _ => ?_).trans ht)
    · rw [hcall,hc]; exact hk
    · rw [hx',hcall,hx]
  have take (hb : s.ep.busy=false) : Writes s
      (({s with ep := {s.ep with busy := true,holder := some c}}.claims c).setCall c
        (.copyIn a 0)) :=
    claims_writes (by simp only [desk,h.unheld hb]; rfl) rfl rfl hx (fun _ => rfl) fun _ => rfl
  cases k with
  | enter =>
    simp only [epClaim]
    split
    next hb => exact take hb
    next =>
      split
      next => exact out (t := s) (m := .idle) rfl rfl (by rintro ⟨⟩) (fun _ => rfl) (by rintro ⟨⟩)
      next =>
        split
        next =>
          exact out (t := {s with ep := s.ep.wqPush c}) rfl rfl (by rintro ⟨⟩) (fun _ => rfl) (by rintro ⟨⟩)
        next => exact out rfl rfl (by rintro ⟨⟩) (fun _ => rfl) (by rintro ⟨⟩)
  | top queued =>
    cases queued with
    | true =>
      exact out (t := s.modCell c Cell.prepare) rfl rfl (by rintro ⟨⟩) (fun _ => rfl) (by rintro ⟨⟩)
    | false => exact out rfl rfl (by rintro ⟨⟩) (fun _ => rfl) (by rintro ⟨⟩)
  | test queued =>
    cases queued with
    | true =>
      simp only [epClaim]
      split
      next hh =>
        have hh' : s.ep.holder=some c := (h.sound.handed c hh).2.2.1
        refine claims_writes ?_ rfl rfl hx (fun _ => rfl) fun _ => rfl
        simp only [desk,hh',Option.bind_some,hc]
        rfl
      next =>
        split
        next =>
          exact out (t := {s with ep := s.ep.wqRemove c}) rfl rfl (by rintro ⟨⟩) (fun _ => rfl) (by rintro ⟨⟩)
        next => exact out rfl rfl (by rintro ⟨⟩) (fun _ => rfl) (by rintro ⟨⟩)
    | false =>
      simp only [epClaim]
      split
      next hb => exact take hb
      next =>
        split
        next =>
          split
          next =>
            exact out (t := {s with ep := (s.ep.wqPush c).wqRemove c}) rfl rfl (by rintro ⟨⟩)
              (fun _ => rfl) (by rintro ⟨⟩)
          next =>
            exact out (t := {s with ep := s.ep.wqPush c}) rfl rfl (by rintro ⟨⟩) (fun _ => rfl) (by rintro ⟨⟩)
        next => exact out rfl rfl (by split <;> rintro ⟨⟩) (fun _ => rfl) (by rintro ⟨⟩)
  | block joined =>
    exact out (t := s.modCell c fun _ => ((s.cell c).block alt).1) rfl rfl (by split <;> rintro ⟨⟩)
      (fun _ => rfl) (by rintro ⟨⟩)
  | waits => exact out (t := s.modCell c Cell.resume) rfl rfl (by rintro ⟨⟩) (fun _ => rfl) (by rintro ⟨⟩)
  | sleep => exact out rfl rfl (by split <;> rintro ⟨⟩) (fun _ => rfl) (by rintro ⟨⟩)
  | sleepBlock =>
    exact out (t := s.modCell c fun _ => ((s.cell c).block alt).1) rfl rfl (by split <;> rintro ⟨⟩)
      (fun _ => rfl) (by rintro ⟨⟩)
  | sleepWaits => exact out (t := s.modCell c Cell.resume) rfl rfl (by rintro ⟨⟩) (fun _ => rfl) (by rintro ⟨⟩)
  | took =>
    refine .inr ((desk_same (s := s.modCell c Cell.waitDone) (fun m => ?_) fun _ => ?_).trans rfl)
    · rw [show (s.modCell c Cell.waitDone).call c=s.call c from rfl,hc]; rfl
    · rw [show (s.modCell c Cell.waitDone).call c=s.call c from rfl,hx]; rfl
  | gaveUp queued =>
    cases queued with
    | true =>
      exact out (t := s.modCell c Cell.waitDone) (m := .idle) rfl rfl (by rintro ⟨⟩) (fun _ => rfl) (by rintro ⟨⟩)
    | false => exact out (t := s) (m := .idle) rfl rfl (by rintro ⟨⟩) (fun _ => rfl) (by rintro ⟨⟩)

theorem goes_writes {t : State} {k : Pc} {ret : Int} {out : List UInt8} (h : Tidy s)
    (hc : s.call c=.release a ret out) (ht : desk t={desk s with visit := (desk t).visit})
    (hcall : t.call=s.call) (hk : ∀x,k.clerk x=x) (hv : (desk (t.setCall c k)).visit=none) :
    Desk.Step (desk s) (desk (t.setCall c k)) := by
  have hs : Desk.Step (desk s) {desk s with visit := none} :=
    Desk.Step.goes (desk_visit (h.holder (c := c) (by rw [hc]; rfl)) hc rfl) rfl
  rw [desk_setCall fun _ => by rw [hk,hcall,hc]; rfl,hv,ht]
  exact hs

theorem release_writes {ret : Int} {out : List UInt8} (h : Tidy s)
    (hc : s.call c=.release a ret out) (hg : go c alt s (.release a ret out)=some s') :
    Writes s s' := by
  simp only [go] at hg
  rcases releaseLocked_cases h with ⟨hq,hy⟩ | ⟨p,hq,hy⟩
  · rw [hy] at hg
    cases hg
    exact .inl (goes_writes (k := .idle)
      (t := State.modNote {s with ep := {s.ep with busy := false,holder := none}} c fun n =>
        {n with released := n.released+1,served := s.log.drop n.mark})
      h hc rfl rfl (fun _ => rfl) rfl)
  · rw [hy] at hg
    cases hg
    refine .inl (goes_writes h hc rfl rfl (fun _ => rfl) ?_)
    have hp : (s.call p).role=.waits := h.sound.queued p (by
      rw [show (turn s).queue=s.ep.wq.toList from rfl,hq]; exact List.mem_cons_self)
    have hpc : p≠c := fun he => by rw [he,hc] at hp; cases hp
    simp only [desk,State.setCall,State.modNote,Option.bind_some]
    rw [update_of_ne hpc,update_of_ne hpc]
    exact Pc.visit_none (by rw [hp]; decide) _ _

theorem desk_owner {k : Pc} (ho : c=s.ep.ownerPid) (hc : (s.call c).role=.out)
    (hk : k.role≠.holds) :
    desk (s.setCall c k)={desk s with clerk := k.clerk s.serve.clerk} := by
  have he : (desk (s.setCall c k)).visit=(desk s).visit := by
    simp only [desk,State.setCall]
    congr 1
    funext d
    by_cases hd : d=c
    · subst hd
      rw [update_self,Pc.visit_none hk,Pc.visit_none (by rw [hc]; decide)]
    · rw [update_of_ne hd]
  have hl : (desk (s.setCall c k)).clerk=k.clerk s.serve.clerk := by
    simp only [desk,State.setCall,← ho]
    rw [update_self]
  exact congrArg₂ (fun x y => {desk s with visit := x,clerk := y}) he hl

theorem taskExit_writes {k : Exiting} (h : Tidy s) (hc : s.call c=.exiting k) :
    Writes s (taskExit c alt s k) := by
  have hr : (s.call c).role=.out := by rw [hc]; rfl
  have hserve (ho : c=s.ep.ownerPid) : s.serve=.out := h.served k.answers (by rw [← ho,hc]; rfl)
  have hclerk (ho : c=s.ep.ownerPid) : (desk s).clerk=k.clerk := by
    simp only [desk,← ho,hc]; rfl
  have howner (ha : k.answers=true) : c=s.ep.ownerPid := h.answers c (by rw [hc]; simp [Pc.kind,ha])
  have out {m : Pc} {t : State} (ht : desk t=desk s) (hcall : t.call=s.call)
      (hk : m.role≠.holds) (hx : c=t.ep.ownerPid → m.clerk t.serve.clerk=k.clerk) :
      Writes s (t.setCall c m) := by
    refine .inr ((desk_out ?_ hk fun ho => ?_).trans ht)
    · rw [hcall,hr]; decide
    · rw [hx ho,hcall,hc]; rfl
  cases k with
  | queue =>
    obtain ⟨_,hn⟩ := exit_turn h hr
    simp only [taskExit]
    rw [if_neg (by exact hn)]
    exact out (t := {s with ep := s.ep.wqRemove c}) rfl rfl (by rintro ⟨⟩) (fun _ => rfl)
  | wake p => exact out (t := s.wake (some p)) rfl rfl (by rintro ⟨⟩) (fun _ => rfl)
  | test =>
    simp only [taskExit]
    split
    next ho =>
      have ho' : c=s.ep.ownerPid := ho.1.symm
      refine .inl ?_
      rw [desk_owner (k := .exiting .fail) ho' hr (by rintro ⟨⟩)]
      exact Desk.Step.see (hclerk ho') ho.2
    next => exact out rfl rfl (by rintro ⟨⟩) (fun _ => rfl)
  | fail =>
    have ho := howner rfl
    refine .inl ?_
    simp only [taskExit]
    rw [desk_owner (s := {s with ep := {s.ep with replyLen := -1}}) (k := .exiting .unset) ho hr
      (by rintro ⟨⟩)]
    exact Desk.Step.refuses (hclerk ho)
  | unset =>
    have ho := howner rfl
    refine .inl ?_
    simp only [taskExit]
    rw [desk_owner (s := {s with ep := {s.ep with requestPending := false}}) (k := .exiting .caller)
      ho hr (by rintro ⟨⟩)]
    exact Desk.Step.unset (hclerk ho)
  | caller =>
    have ho := howner rfl
    refine .inl ?_
    simp only [taskExit]
    rw [desk_owner (k := .exiting (.clear s.ep.callerPid)) ho hr (by rintro ⟨⟩)]
    exact Desk.Step.asks (hclerk ho)
  | clear who =>
    have ho := howner rfl
    refine .inl ?_
    simp only [taskExit]
    rw [desk_owner (s := {s with ep := {s.ep with callerPid := none}})
      (k := .exiting (.wakeCaller who)) ho hr (by rintro ⟨⟩)]
    exact Desk.Step.clear (hclerk ho)
  | wakeCaller who =>
    exact out (t := s.wake who) (desk_wake s who) (call_wake s who) (by rintro ⟨⟩) (fun _ => rfl)
  | switch =>
    simp only [taskExit]
    split
    next => exact out rfl rfl (by rintro ⟨⟩) fun ho => by rw [hserve ho]; rfl
    next => exact out (t := s) (m := .idle) rfl rfl (by rintro ⟨⟩) fun ho => by rw [hserve ho]; rfl

theorem fetch_writes (h : Tidy s) (hc : s.call c=.fetch a) (hg : go c alt s (.fetch a)=some s') :
    Writes s s' := by
  have hh := h.holder (c := c) (by rw [hc]; rfl)
  have hx (x : Clerk) : (s.call c).clerk x=x := by rw [hc]; rfl
  have hv : (desk s).visit=some ⟨c,a,(s.note c).mark,.answered⟩ := desk_visit hh hc rfl
  simp only [go,Option.some.injEq] at hg
  subst hg
  split
  next => exact writes_at hh hx (fun _ => rfl) rfl (Desk.Step.fails hv rfl)
  next hn =>
    rw [not_or,not_or] at hn
    have h0 : 0≤(desk s).reply := Int.not_lt.mp hn.1
    have hcap : (desk s).reply≤(desk s).respCap := Int.not_lt.mp hn.2.1
    split
    next => exact writes_at hh hx (fun _ => rfl) rfl (Desk.Step.take hv rfl h0 hcap)
    next hz =>
      refine writes_at hh hx (fun _ => rfl) rfl (Desk.Step.took hv rfl h0 hcap fun hu => ?_)
      exact Int.le_antisymm (Int.not_lt.mp fun hp => hz ⟨hp,hu⟩) h0

theorem copyOut_writes {n : Nat} {got : List UInt8} (h : Tidy s) (hc : s.call c=.copyOut a n got)
    (hg : go c alt s (.copyOut a n got)=some s') : Writes s s' := by
  have hh := h.holder (c := c) (by rw [hc]; rfl)
  have hx (x : Clerk) : (s.call c).clerk x=x := by rw [hc]; rfl
  have hv : (desk s).visit=some ⟨c,a,(s.note c).mark,.takes n got⟩ := desk_visit hh hc rfl
  simp only [go,Option.some.injEq] at hg
  subst hg
  split
  next => exact writes_at hh hx (fun _ => rfl) rfl (Desk.Step.fails hv rfl)
  next =>
    split
    next hl => exact writes_at hh hx (fun _ => rfl) rfl (Desk.Step.byte hv rfl hl)
    next hl => exact writes_at hh hx (fun _ => rfl) rfl (Desk.Step.all hv rfl (Nat.not_lt.mp hl))

theorem copyIn_writes {i : Nat} (h : Tidy s) (hc : s.call c=.copyIn a i)
    (hg : go c alt s (.copyIn a i)=some s') : Writes s s' := by
  have hh := h.holder (c := c) (by rw [hc]; rfl)
  have hx (x : Clerk) : (s.call c).clerk x=x := by rw [hc]; rfl
  have hv : (desk s).visit=some ⟨c,a,(s.note c).mark,.copies i⟩ := desk_visit hh hc rfl
  simp only [go] at hg
  split at hg
  next => cases hg; exact writes_at hh hx (fun _ => rfl) rfl (Desk.Step.fails hv rfl)
  next =>
    split at hg
    next b hb =>
      cases hg
      exact writes_at (t := {s with ep := {s.ep with reqBuf := Function.update s.ep.reqBuf i b}})
        hh hx (fun _ => rfl) rfl (Desk.Step.copy hv rfl hb)
    next hb => cases hg; exact writes_at hh hx (fun _ => rfl) rfl (Desk.Step.copied hv rfl hb)

theorem go_writes (h : Tidy s) (hg : go c alt s (s.call c)=some s') : Writes s s' := by
  cases hc : s.call c with
  | idle => rw [hc] at hg; cases hg
  | claiming a k => rw [hc] at hg; cases hg; exact epClaim_writes h hc
  | copyIn a i => rw [hc] at hg; exact copyIn_writes h hc hg
  | asking a k => rw [hc] at hg; cases hg; exact chanCallTask_writes h hc
  | fetch a => rw [hc] at hg; exact fetch_writes h hc hg
  | copyOut a n got => rw [hc] at hg; exact copyOut_writes h hc hg
  | release a ret out => rw [hc] at hg; exact release_writes h hc hg
  | wakeNext a ret out p =>
    rw [hc] at hg
    cases hg
    refine .inr (desk_out (s := s.wake (some p)) (k := .idle) ?_ (by rintro ⟨⟩) fun _ => ?_)
    · rw [call_wake,hc]; rintro ⟨⟩
    · rw [call_wake,hc]; rfl
  | exiting k => rw [hc] at hg; cases hg; exact taskExit_writes h hc
  | halted => rw [hc] at hg; cases hg

theorem own_clerk {k : Serve} (h : k.own=true) :
    k.clerk=.off ∨ ∃len reads,k.clerk=.works len reads := by
  cases k with
  | out => exact .inl rfl
  | works len reads => exact .inr ⟨len,reads,rfl⟩
  | _ => cases h

theorem Acts.writes (ha : Acts c s s') (h : Tidy s) : Writes s s' := by
  cases ha with
  | begin a refused ho he =>
    subst he
    have hi : s.call c=.idle := ho.2.1
    -- a call that begins has no visit yet, so its note does not show
    have hn : desk (s.modNote c fun _ => {late := s.ownerGone})=desk s := by
      have hv : (desk (s.modNote c fun _ => {late := s.ownerGone})).visit=(desk s).visit := by
        simp only [desk,State.modNote]
        congr 1
        funext d
        by_cases hd : d=c
        · subst hd; rw [hi]; rfl
        · rw [update_of_ne hd]
      exact congrArg (fun x => {desk s with visit := x}) hv
    simp only [beginCall]
    split
    next =>
      refine .inr ((desk_out (s := s.modNote c _) (k := .idle) ?_ (by rintro ⟨⟩) fun _ => ?_).trans hn)
      · exact fun hr => by rw [show (s.modNote c _).call c=s.call c from rfl,hi] at hr; cases hr
      · rw [show (s.modNote c _).call c=s.call c from rfl,hi]
    next =>
      refine .inr ((desk_out (s := s.modNote c _) (k := .claiming a .enter) ?_ (by rintro ⟨⟩)
        fun _ => ?_).trans hn)
      · exact fun hr => by rw [show (s.modNote c _).call c=s.call c from rfl,hi] at hr; cases hr
      · rw [show (s.modNote c _).call c=s.call c from rfl,hi]; rfl
  | exit _ ho he =>
    subst he
    have hi : s.call c=.idle := ho.2.1
    have hr : (s.call c).role=.out := by rw [hi]; rfl
    split
    next hc =>
      have hd := desk_owner (s := s.setServe .out) (k := .exiting .queue) hc hr (by rintro ⟨⟩)
      have hk : (desk s).clerk=s.serve.clerk := by simp only [desk,← hc,hi]; rfl
      rcases own_clerk (ho.2.2 hc) with hf | ⟨len,reads,hf⟩
      · exact .inr (hd.trans (congrArg (fun x => {desk s with clerk := x}) (hk.trans hf).symm))
      · refine .inl ?_
        rw [hd]
        exact Desk.Step.drop (.inr ⟨len,reads,hk.trans hf⟩)
    next hc =>
      exact .inr (desk_out (by rw [hr]; decide) (by rintro ⟨⟩) fun he => absurd he hc)
  | go alt _ hg => exact go_writes h hg

theorem desk_serve (hi : s.call s.ep.ownerPid=.idle) (k : Serve) :
    desk (s.setServe k)={desk s with clerk := k.clerk} := by
  have hc : (desk (s.setServe k)).clerk=k.clerk := by simp only [desk,State.setServe,hi]; rfl
  exact congrArg (fun x => {desk s with clerk := x}) hc

theorem serveGo_writes (hi : s.call s.ep.ownerPid=.idle) (hg : serveGo alt s s.serve=some s') :
    Writes s s' := by
  have hk : (desk s).clerk=s.serve.clerk := by simp only [desk,hi]; rfl
  have stays {k : Serve} {t : State} (ht : desk t=desk s) (hti : t.call t.ep.ownerPid=.idle)
      (hx : k.clerk=s.serve.clerk) : Writes s (t.setServe k) := by
    refine .inr ((desk_serve hti k).trans ?_)
    rw [ht,hx,← hk]
  cases hs : s.serve with
  | out | works len reads => rw [hs] at hg; cases hg
  | test =>
    rw [hs] at hg hk
    simp only [serveGo,Option.some.injEq] at hg
    subst hg
    split
    next hp =>
      refine .inl ?_
      rw [desk_serve hi]
      exact Desk.Step.see hk hp
    next => exact stays rfl hi (by rw [hs]; rfl)
  | prepare =>
    rw [hs] at hg
    cases hg
    exact stays (t := s.modCell s.ep.ownerPid Cell.prepare) rfl hi (by rw [hs]; rfl)
  | testAgain =>
    rw [hs] at hg hk
    simp only [serveGo,Option.some.injEq] at hg
    subst hg
    split
    next hp =>
      refine .inl ?_
      rw [desk_serve hi]
      exact Desk.Step.see hk hp
    next => exact stays rfl hi (by rw [hs]; rfl)
  | block =>
    rw [hs] at hg
    cases hg
    exact stays (t := s.modCell s.ep.ownerPid _) rfl hi (by rw [hs]; split <;> rfl)
  | waits =>
    rw [hs] at hg
    cases hg
    exact stays (t := s.modCell s.ep.ownerPid Cell.resume) rfl hi (by rw [hs]; rfl)
  | waitDone =>
    rw [hs] at hg
    cases hg
    exact stays (t := s.modCell s.ep.ownerPid Cell.waitDone) rfl hi (by rw [hs]; rfl)
  | fetchLen =>
    rw [hs] at hg hk
    cases hg
    refine .inl ?_
    rw [desk_serve hi]
    exact Desk.Step.look hk
  | unset =>
    rw [hs] at hg hk
    cases hg
    refine .inl ?_
    rw [desk_serve (s := {s with ep := {s.ep with requestPending := false}}) hi]
    exact Desk.Step.unset hk
  | caller =>
    rw [hs] at hg hk
    cases hg
    refine .inl ?_
    rw [desk_serve hi]
    exact Desk.Step.asks hk
  | clear who =>
    rw [hs] at hg hk
    cases hg
    refine .inl ?_
    rw [desk_serve (s := {s with ep := {s.ep with callerPid := none}}) hi]
    exact Desk.Step.clear hk
  | wake who =>
    rw [hs] at hg
    cases hg
    exact stays (t := s.wake who) (desk_wake s who) (by cases who <;> exact hi) (by rw [hs]; rfl)

theorem serveWork_writes {len : Nat} {reads : List (Nat × UInt8)} {w : Work}
    (hs : s.serve=.works len reads) (hi : s.call s.ep.ownerPid=.idle)
    (h : serveWork s len reads w=some s') : Writes s s' := by
  have hk : (desk s).clerk=.works len reads := by simp only [desk,hi,hs]; rfl
  refine .inl ?_
  cases w with
  | read i =>
    simp only [serveWork,Option.ite_none_right_eq_some] at h
    obtain ⟨hl,h⟩ := h
    cases h
    rw [desk_serve hi]
    exact Desk.Step.read hk hl
  | write i b =>
    simp only [serveWork,Option.ite_none_right_eq_some] at h
    cases h.2
    exact Desk.Step.write i b hk
  | reply n =>
    simp only [serveWork,Option.ite_none_right_eq_some] at h
    obtain ⟨hn,h⟩ := h
    cases h
    rw [desk_serve (by exact hi)]
    exact Desk.Step.reply hk hn

theorem Step.writes {e : Ev} (hs : Step s e s') (h : Tidy s) : Writes s s' := by
  unfold Step at hs
  cases e with
  | begin c a refused =>
    simp only [exec,Option.ite_none_right_eq_some] at hs
    exact Acts.writes (.begin a refused hs.1 (Option.some.inj hs.2).symm) h
  | exit c =>
    simp only [exec,Option.ite_none_right_eq_some] at hs
    exact Acts.writes (.exit hs.1.1 hs.1.2 (Option.some.inj hs.2).symm) h
  | go c alt =>
    simp only [exec,Option.ite_none_right_eq_some] at hs
    exact go_writes h hs.2
  | serveWait =>
    simp only [exec,Option.ite_none_right_eq_some] at hs
    obtain ⟨ho,hs⟩ := hs
    cases hs
    have hi : s.call s.ep.ownerPid=.idle := ho.2.1
    have hk : (desk s).clerk=s.serve.clerk := by simp only [desk,hi]; rfl
    rcases own_clerk (ho.2.2 rfl) with hf | ⟨len,reads,hf⟩
    · refine .inr ((desk_serve hi .test).trans ?_)
      rw [show Serve.clerk .test=(desk s).clerk from (hk.trans hf).symm]
    · refine .inl ?_
      rw [desk_serve hi]
      exact Desk.Step.drop (.inr ⟨len,reads,hk.trans hf⟩)
  | serveGo alt =>
    simp only [exec,Option.ite_none_right_eq_some] at hs
    exact serveGo_writes hs.1.2 hs.2
  | serveWork w =>
    simp only [exec] at hs
    split at hs
    next len reads hw =>
      rw [Option.ite_none_right_eq_some] at hs
      exact serveWork_writes hw hs.1.2.1 hs.2
    next => cases hs
  | _ =>
    simp only [exec,Option.ite_none_right_eq_some] at hs
    cases hs.2
    exact .inr rfl

end LugalOS.Chan
