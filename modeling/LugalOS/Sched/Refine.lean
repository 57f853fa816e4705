import LugalOS.Sched.Owned
import LugalOS.Sched.Switch

namespace LugalOS.Sched

open Function (update update_of_ne update_eq_self comp_update)

/-- The part of a step of sched_switch that the other harts can tell. -/
def Phase.code (block : Bool) : Phase → Code
  | .pick _ => .pick block
  | .cross p n => .cross p n false
  | .landed => .landing
  | _ => .free

def Main.code : Main → Code
  | .start => .landing
  | .yield p => p.code false
  | .block p _ => p.code true
  | .exitCross p n => .cross p n true
  | .gone => .landing
  | .bug => .stuck
  | _ => .free

def Inner.code : Inner → Code
  | .isr => .free
  | .yield p => p.code false

def Thread.code (th : Thread) : Code :=
  match th.inner with
  | i::_ => i.code
  | [] => th.main.code

def Out.code (block : Bool) : Out → Code
  | .at_ p => p.code block
  | _ => .free

/-- The slot a thread is creating a task in, and whether it has primed the frame. -/
def Main.makes : Main → Option (Nat × Bool)
  | .alloc k _ => some (k,false)
  | .fill k _ _ => some (k,false)
  | .prime k _ => some (k,false)
  | .publish k => some (k,true)
  | _ => none

def view (s : Sys) : View where
  state := fun i => (s.tasks i).state
  sp := fun i => (s.tasks i).sp
  thread := fun i => (s.tasks i).thread
  making := fun i => (s.tasks i).making
  current := s.current
  lock := s.lock
  running := s.running
  code := fun t => (s.threads t).code
  makes := fun t => (s.threads t).main.makes
  gone := fun t => (s.threads t).main==.gone
  parks := fun t => (s.threads t).parks
  next := s.nextThread

theorem view_modTask (s : Sys) (i : Nat) (f : Task → Task) :
    view (s.modTask i f)={view s with
      state := update (view s).state i (f (s.tasks i)).state,sp := update (view s).sp i (f (s.tasks i)).sp,
      thread := update (view s).thread i (f (s.tasks i)).thread,
      making := update (view s).making i (f (s.tasks i)).making} := by
  unfold view Sys.modTask
  simp only [View.mk.injEq,and_true]
  refine ⟨?_,?_,?_,?_⟩ <;> exact comp_update _ _ _ _

theorem view_modThread (s : Sys) (t : Nat) (f : Thread → Thread) :
    view (s.modThread t f)={view s with
      code := update (view s).code t (f (s.threads t)).code,
      makes := update (view s).makes t (f (s.threads t)).main.makes,
      gone := update (view s).gone t ((f (s.threads t)).main==.gone),
      parks := update (view s).parks t (f (s.threads t)).parks} := by
  unfold view Sys.modThread
  simp only [View.mk.injEq,and_true,true_and]
  refine ⟨?_,?_,?_,?_⟩
  · exact comp_update Thread.code _ _ _
  · exact comp_update (fun th : Thread => th.main.makes) _ _ _
  · exact comp_update (fun th : Thread => th.main==.gone) _ _ _
  · exact comp_update Thread.parks _ _ _

variable {harts h : Nat} {W : Nat → Prop} {s s' : Sys}

theorem view_modTask_same (s : Sys) (i : Nat) (f : Task → Task)
    (hf : (f (s.tasks i)).state=(s.tasks i).state ∧ (f (s.tasks i)).sp=(s.tasks i).sp ∧
      (f (s.tasks i)).thread=(s.tasks i).thread ∧ (f (s.tasks i)).making=(s.tasks i).making) :
    view (s.modTask i f)=view s := by
  obtain ⟨h1,h2,h3,h4⟩ := hf
  rw [view_modTask,h1,h2,h3,h4]
  change {view s with
    state := update (view s).state i ((view s).state i),sp := update (view s).sp i ((view s).sp i),
    thread := update (view s).thread i ((view s).thread i),
    making := update (view s).making i ((view s).making i)}=view s
  simp only [update_eq_self]

theorem view_modTask_state (s : Sys) (i : Nat) (f : Task → Task) (x : TaskState)
    (hf : (f (s.tasks i)).state=x ∧ (f (s.tasks i)).sp=(s.tasks i).sp ∧
      (f (s.tasks i)).thread=(s.tasks i).thread ∧ (f (s.tasks i)).making=(s.tasks i).making) :
    view (s.modTask i f)={view s with state := update (view s).state i x} := by
  obtain ⟨h1,h2,h3,h4⟩ := hf
  rw [view_modTask,h1,h2,h3,h4]
  change {view s with
    state := update (view s).state i x,sp := update (view s).sp i ((view s).sp i),
    thread := update (view s).thread i ((view s).thread i),
    making := update (view s).making i ((view s).making i)}=_
  simp only [update_eq_self]

theorem view_modThread_code (s : Sys) (t : Nat) (f : Thread → Thread) (c : Code)
    (hf : (f (s.threads t)).code=c ∧ (f (s.threads t)).main.makes=(s.threads t).main.makes ∧
      ((f (s.threads t)).main==.gone)=((s.threads t).main==.gone) ∧
      (f (s.threads t)).parks=(s.threads t).parks) :
    view (s.modThread t f)={view s with code := update (view s).code t c} := by
  obtain ⟨h1,h2,h3,h4⟩ := hf
  rw [view_modThread,h1,h2,h3,h4]
  change {view s with
    code := update (view s).code t c,
    makes := update (view s).makes t ((view s).makes t),
    gone := update (view s).gone t ((view s).gone t),
    parks := update (view s).parks t ((view s).parks t)}=_
  simp only [update_eq_self]

theorem schedReap_view {r : Reap} {x : Sys × Option Reap} (hx : schedReap h r s=some x) :
    view x.1=view s ∧ x.1.threads=s.threads ∧ x.1.running=s.running := by
  cases r with
  | take =>
    simp only [schedReap] at hx
    split at hx
    · split at hx <;> cases hx <;> exact ⟨rfl,rfl,rfl⟩
    · cases hx
  | free st => cases hx; exact ⟨rfl,rfl,rfl⟩

theorem nextRunnable_woke (hW : ∀i,(s.tasks i).wakeAtMs≠0 → W i) (now prev : Nat) :
    (view s).Woke W fun i => ((nextRunnable now h prev s.tasks).2 i).state := by
  intro i
  have he : (nextRunnable now h prev s.tasks).2 i=(s.tasks i).awake now ∨
      (nextRunnable now h prev s.tasks).2 i=s.tasks i := by
    unfold nextRunnable
    rw [(scan_spec now h _ s.tasks none (-1)).1]
    dsimp only
    split
    · exact .inl rfl
    · exact .inr rfl
  rcases he with he | he
  · dsimp only
    rw [he]
    unfold Task.awake
    split
    next hc => exact .inr ⟨hW i hc.2.1,hc.1,rfl⟩
    next => exact .inl rfl
  · exact .inl (by dsimp only; rw [he]; rfl)

theorem awake_frame (now : Nat) (t : Task) : (t.awake now).sp=t.sp ∧ (t.awake now).thread=t.thread ∧
    (t.awake now).making=t.making ∧ (t.awake now).stackBase=t.stackBase ∧
    (t.awake now).waitArmed=t.waitArmed ∧ (t.awake now).wakePending=t.wakePending ∧
    (t.awake now).hartAffinity=t.hartAffinity := by
  unfold Task.awake
  split <;> simp

theorem nextRunnable_frame (now prev : Nat) (tasks : Nat → Task) (i : Nat) :
    let t := (nextRunnable now h prev tasks).2 i
    t.sp=(tasks i).sp ∧ t.thread=(tasks i).thread ∧ t.making=(tasks i).making ∧
      t.stackBase=(tasks i).stackBase ∧ t.waitArmed=(tasks i).waitArmed ∧
      t.wakePending=(tasks i).wakePending ∧ t.hartAffinity=(tasks i).hartAffinity := by
  unfold nextRunnable
  rw [(scan_spec now h _ tasks none (-1)).1]
  dsimp only
  split
  · exact awake_frame now _
  · simp

theorem view_nextRunnable (now prev : Nat) :
    view {s with tasks := (nextRunnable now h prev s.tasks).2}={view s with
      state := fun i => ((nextRunnable now h prev s.tasks).2 i).state} := by
  unfold view
  simp only [View.mk.injEq,and_true,true_and]
  refine ⟨?_,?_,?_⟩ <;> funext i
  · exact (nextRunnable_frame now prev s.tasks i).1
  · exact (nextRunnable_frame now prev s.tasks i).2.1
  · exact (nextRunnable_frame now prev s.tasks i).2.2.1

theorem ctxSwitch_view {prev n : Nat} (hx : ctxSwitch harts h prev n s=some s') :
    ∃f,(s.tasks n).sp=some f ∧ Intact harts s f ∧
      s'.threads=update s.threads (s.running h)
        {s.threads (s.running h) with parks := (s.threads (s.running h)).parks+1} ∧
      view s'={view s with
        sp := update (view s).sp prev (some ⟨s.running h,(s.threads (s.running h)).parks+1⟩),
        parks := update (view s).parks (s.running h) ((s.threads (s.running h)).parks+1),
        running := update s.running h f.thread} := by
  unfold ctxSwitch at hx
  split at hx
  · cases hx
  next f hf =>
    split at hx
    next hi =>
      cases hx
      refine ⟨f,hf,hi,rfl,?_⟩
      have ht := view_modTask s prev fun p =>
        {p with sp := some ⟨s.running h,(s.threads (s.running h)).parks+1⟩}
      have hm := view_modThread (s.modTask prev fun p =>
        {p with sp := some ⟨s.running h,(s.threads (s.running h)).parks+1⟩}) (s.running h)
        fun th => {th with parks := th.parks+1}
      have he : (fun th : Thread => {th with parks := th.parks+1}) (s.threads (s.running h))=
        {s.threads (s.running h) with parks := (s.threads (s.running h)).parks+1} := rfl
      change {view ((s.modTask prev fun p =>
        {p with sp := some ⟨s.running h,(s.threads (s.running h)).parks+1⟩}).modThread (s.running h)
        fun th => {th with parks := th.parks+1}) with running := update s.running h f.thread}=_
      rw [hm,ht]
      change {view s with
        state := update (view s).state prev ((view s).state prev),
        sp := update (view s).sp prev (some ⟨s.running h,(s.threads (s.running h)).parks+1⟩),
        thread := update (view s).thread prev ((view s).thread prev),
        making := update (view s).making prev ((view s).making prev),
        code := update (view s).code (s.running h) ((view s).code (s.running h)),
        makes := update (view s).makes (s.running h) ((view s).makes (s.running h)),
        gone := update (view s).gone (s.running h) ((view s).gone (s.running h)),
        parks := update (view s).parks (s.running h) ((s.threads (s.running h)).parks+1),
        running := update s.running h f.thread}=_
      simp only [update_eq_self]
    next => cases hx

theorem schedSwitch_hand {b : Bool} {p : Phase} {x : Sys × Out}
    (hW : ∀i,(s.tasks i).wakeAtMs≠0 → W i) (hx : schedSwitch harts h b p s=some x) (hc : (s.threads (s.running h)).code=p.code b)
    (hg : (s.threads (s.running h)).main≠.gone) :
    {view x.1 with code := update (view x.1).code (s.running h) (x.2.code b)}=view s ∨
    Hand harts W h (view s)
      {view x.1 with code := update (view x.1).code (s.running h) (x.2.code b)} := by
  have hcode : (view s).code (s.running h)=p.code b := hc
  have hsame {c : Code} (he : c=p.code b) :
      {view s with code := update (view s).code (s.running h) c}=view s := by
    rw [he,← hcode,update_eq_self]
  cases p with
  | reapFirst r =>
    simp only [schedSwitch,Option.map_eq_some_iff] at hx
    obtain ⟨⟨s1,r1⟩,hr,rfl⟩ := hx
    have hv := (schedReap_view hr).1
    dsimp only at hv ⊢
    rw [hv]
    refine .inl (hsame ?_)
    cases r1 <;> rfl
  | enter =>
    simp only [schedSwitch] at hx
    split at hx
    next hl =>
      split at hx
      · cases hx
      next prev hcur =>
        have henter := @Hand.enter harts W h (view s) b prev hl hcur hcode
        cases b
        · simp only [Bool.false_eq_true,if_false,Option.some.injEq] at hx
          subst hx
          exact .inr henter
        · simp only [if_true] at hx
          split at hx
          · cases hx
            refine .inl ?_
            rw [view_modTask_same _ _ _ ⟨rfl,rfl,rfl,rfl⟩]
            exact hsame rfl
          · cases hx
            refine .inr ?_
            have hv : view ((s.modTask prev fun t => {t with waitArmed := false,wakePending := false}).modTask
                prev fun t => {t with state := .blocked})=
                {view s with state := update (view s).state prev .blocked} := by
              rw [view_modTask_state _ _ _ .blocked ⟨rfl,rfl,rfl,rfl⟩,
                view_modTask_same _ _ _ ⟨rfl,rfl,rfl,rfl⟩]
            change Hand harts W h (view s) {view ((s.modTask prev fun t =>
              {t with waitArmed := false,wakePending := false}).modTask
                prev fun t => {t with state := .blocked}) with
              lock := some h,code := update (view s).code (s.running h) (.pick true)}
            rw [hv]
            exact henter
    next => cases hx
  | pick prepared =>
    simp only [schedSwitch] at hx
    split at hx
    next hl =>
      split at hx
      · cases hx
      next prev hcur =>
        have hw := nextRunnable_woke (h := h) hW s.clock prev
        have hv1 := view_nextRunnable (s := s) (h := h) s.clock prev
        have hn := @nextRunnable_chosen s.clock h prev s.tasks
        generalize hnr : nextRunnable s.clock h prev s.tasks=r at hx hw hv1 hn
        obtain ⟨next,tasks⟩ := r
        dsimp only at hx hw hv1 hn
        refine .inr ?_
        cases next with
        | none =>
          have hd (x : TaskState) := @Hand.drop harts W h (view s) b prev
            (fun i => (tasks i).state) x hl hcur hcode hw
          dsimp only at hx
          split at hx
          next hif =>
            cases hx
            have hv := view_modTask_state {s with tasks := tasks} prev
              (fun t => {t with state := .running,waitArmed := prepared}) .running ⟨rfl,rfl,rfl,rfl⟩
            change Hand harts W h (view s) {view (Sys.modTask {s with tasks := tasks} prev
              fun t => {t with state := .running,waitArmed := prepared}) with
              lock := none,code := update (view s).code (s.running h) .free}
            rw [hv,hv1]
            exact hd .running (.inl rfl)
          next hif =>
            cases hx
            have hx : (tasks prev).state=.running ∨ b=false ∧ (tasks prev).state=(tasks prev).state := by
              cases b
              · exact .inr ⟨rfl,rfl⟩
              · exact .inl (by simpa using hif)
            have hself : update (fun i => (tasks i).state) prev (tasks prev).state=
                fun i => (tasks i).state := update_eq_self _ _
            have := hd _ hx
            rw [hself] at this
            change Hand harts W h (view s) {view {s with tasks := tasks} with
              lock := none,code := update (view s).code (s.running h) .free}
            rw [hv1]
            exact this
        | some n =>
          obtain ⟨hnm,hrun⟩ := hn rfl
          have hrd : (tasks n).state=.ready := by
            have := nextRunnable_tasks s.clock h prev s.tasks hnm
            rw [hnr] at this
            dsimp only at this
            rw [this]
            simp only [Task.runsOn,Bool.and_eq_true,beq_iff_eq] at hrun
            exact hrun.1
          dsimp only at hx
          split at hx
          next heq =>
            cases hx
            have hv := view_modTask_state {s with tasks := tasks} prev
              (fun t => {t with state := .running}) .running ⟨rfl,rfl,rfl,rfl⟩
            change Hand harts W h (view s) {view (Sys.modTask {s with tasks := tasks} prev
              fun t => {t with state := .running}) with
              lock := none,code := update (view s).code (s.running h) .free}
            rw [hv,hv1]
            exact Hand.drop b prev _ .running hl hcur hcode hw (.inl rfl)
          next hne =>
            cases hx
            have hch := @Hand.choose harts W h (view s) b prev n
              (fun i => (tasks i).state) hl hcur hcode hw hne hnm hrd
            have hv2 : view (if (tasks prev).state=.running then
                Sys.modTask {s with tasks := tasks} prev fun t => {t with state := .ready} else
                {s with tasks := tasks})=
                {view s with
                  state := update (fun i => (tasks i).state) prev
                    (if (tasks prev).state=.running then .ready else (tasks prev).state)} := by
              split
              · rw [view_modTask_state _ _ _ .ready ⟨rfl,rfl,rfl,rfl⟩,hv1]
              · rw [hv1,update_eq_self]
            generalize hs2 : (if (tasks prev).state=.running then
                Sys.modTask {s with tasks := tasks} prev fun t => {t with state := .ready} else
                {s with tasks := tasks})=s2 at hv2
            have hv := view_modTask_state s2 n (fun t => {t with state := .running}) .running
              ⟨rfl,rfl,rfl,rfl⟩
            rw [hv2] at hv
            have hcur2 : s2.current=s.current := congrArg View.current hv2
            change Hand harts W h (view s) {view (s2.modTask n fun t => {t with state := .running}) with
              current := update s2.current h (some n),
              code := update (view (s2.modTask n fun t => {t with state := .running})).code
                (s.running h) (.cross prev n false)}
            rw [hv,hcur2]
            exact hch
    next => cases hx
  | cross prev n =>
    simp only [schedSwitch] at hx
    split at hx
    next hl =>
      simp only [Option.map_eq_some_iff] at hx
      obtain ⟨s1,hs1,rfl⟩ := hx
      obtain ⟨f,hf,⟨hq,hng,hr⟩,_,hv⟩ := ctxSwitch_view hs1
      refine .inr ?_
      have hcr := @Hand.cross harts W h (view s) prev n false f hl hcode hf hq
        (by simpa [view] using hng) hr
      have hgone : update (view s).gone (s.running h) false=(view s).gone := by
        have : (view s).gone (s.running h)=false := by simpa [view] using hg
        rw [← this,update_eq_self]
      rw [hv]
      have he : (view s).running h=s.running h := rfl
      rw [he,hgone] at hcr
      exact hcr
    next => cases hx
  | landed =>
    simp only [schedSwitch] at hx
    split at hx
    next hl =>
      cases hx
      exact .inr (Hand.land hl hcode)
    next => cases hx
  | reapLast r =>
    simp only [schedSwitch,Option.map_eq_some_iff] at hx
    obtain ⟨⟨s1,r1⟩,hr,rfl⟩ := hx
    have hv := (schedReap_view hr).1
    dsimp only at hv ⊢
    rw [hv]
    refine .inl (hsame ?_)
    cases r1 <;> rfl

theorem schedSwitch_threads {b : Bool} {p : Phase} {x : Sys × Out}
    (hx : schedSwitch harts h b p s=some x) (u : Nat) :
    (x.1.threads u).inner=(s.threads u).inner ∧ (x.1.threads u).main=(s.threads u).main ∧
      (x.1.threads u).stack=(s.threads u).stack := by
  cases p with
  | reapFirst r | reapLast r =>
    simp only [schedSwitch,Option.map_eq_some_iff] at hx
    obtain ⟨⟨s1,r1⟩,hr,rfl⟩ := hx
    have := (schedReap_view hr).2.1
    dsimp only at this ⊢
    rw [this]
    exact ⟨rfl,rfl,rfl⟩
  | cross prev n =>
    simp only [schedSwitch] at hx
    split at hx
    · simp only [Option.map_eq_some_iff] at hx
      obtain ⟨s1,hs1,rfl⟩ := hx
      obtain ⟨f,_,_,ht,_⟩ := ctxSwitch_view hs1
      rw [ht]
      by_cases hu : u=s.running h
      · subst hu; simp
      · simp [update_of_ne hu]
    · cases hx
  | enter =>
    simp only [schedSwitch] at hx
    repeat' split at hx
    all_goals first | cases hx; exact ⟨rfl,rfl,rfl⟩ | cases hx
  | pick prepared =>
    simp only [schedSwitch] at hx
    repeat' split at hx
    all_goals first | (cases hx; exact ⟨rfl,rfl,rfl⟩) | cases hx
  | landed =>
    simp only [schedSwitch] at hx
    split at hx <;> cases hx
    exact ⟨rfl,rfl,rfl⟩

/-- Below an interrupt a thread does nothing with the lock. -/
def Thread.Calm (th : Thread) : Prop :=
  (∀i∈th.inner.tail,i.code=.free) ∧ (th.inner≠[] → th.main.code=.free)

theorem Thread.Calm.code {th : Thread} (hc : th.Calm) {i : Inner} {rest : List Inner}
    (hi : th.inner=i::rest) : (Thread.code {th with inner := rest})=.free := by
  obtain ⟨h1,h2⟩ := hc
  rw [hi] at h1 h2
  cases rest with
  | nil => exact h2 (by simp)
  | cons j rest => exact h1 j (by simp)

theorem view_setMain (s : Sys) (t : Nat) (m : Main) (hi : (s.threads t).inner=[]) :
    view (s.setMain t m)={view s with
      code := update (view s).code t m.code,makes := update (view s).makes t m.makes,
      gone := update (view s).gone t (m==.gone)} := by
  unfold Sys.setMain
  rw [view_modThread]
  have hc : Thread.code {s.threads t with main := m}=m.code := by simp [Thread.code,hi]
  rw [hc]
  have hp : update (view s).parks t (s.threads t).parks=(view s).parks :=
    update_eq_self _ _
  rw [hp]

theorem view_setMain_same (s : Sys) (t : Nat) (m : Main) (hi : (s.threads t).inner=[])
    (hm : m.code=(s.threads t).main.code ∧ m.makes=(s.threads t).main.makes ∧
      (m==.gone)=((s.threads t).main==.gone)) : view (s.setMain t m)=view s := by
  obtain ⟨h1,h2,h3⟩ := hm
  have hc : (view s).code t=m.code := by simp [view,Thread.code,hi,h1]
  rw [view_setMain s t m hi,h2,h3,← hc]
  change {view s with
    code := update (view s).code t ((view s).code t),
    makes := update (view s).makes t ((view s).makes t),
    gone := update (view s).gone t ((view s).gone t)}=view s
  simp only [update_eq_self]

theorem view_setMain_code (s : Sys) (t : Nat) (m : Main) (hi : (s.threads t).inner=[])
    (hm : m.makes=(s.threads t).main.makes ∧ (m==.gone)=((s.threads t).main==.gone)) :
    view (s.setMain t m)={view s with code := update (view s).code t m.code} := by
  obtain ⟨h2,h3⟩ := hm
  rw [view_setMain s t m hi,h2,h3]
  change {view s with
    code := update (view s).code t m.code,
    makes := update (view s).makes t ((view s).makes t),
    gone := update (view s).gone t ((view s).gone t)}=_
  simp only [update_eq_self]

theorem view_setInner (s : Sys) (t : Nat) (l : List Inner) :
    view (s.setInner t l)={view s with
      code := update (view s).code t (Thread.code {s.threads t with inner := l})} := by
  unfold Sys.setInner
  rw [view_modThread_code _ _ _ _ ⟨rfl,rfl,rfl,rfl⟩]

theorem calm_modThread {t : Nat} {f : Thread → Thread} (hc : ∀u,(s.threads u).Calm)
    (hf : (f (s.threads t)).Calm) (u : Nat) : ((s.modThread t f).threads u).Calm := by
  unfold Sys.modThread
  dsimp only
  by_cases hu : u=t
  · subst hu; rwa [Function.update_self]
  · rw [update_of_ne hu]; exact hc u

theorem calm_setMain {t : Nat} (m : Main) (hc : ∀u,(s.threads u).Calm)
    (hi : (s.threads t).inner=[]) (u : Nat) : ((s.setMain t m).threads u).Calm := by
  refine calm_modThread hc ?_ u
  simp [Thread.Calm,hi]

/-- A step the other harts cannot tell, or one of the hand-over. -/
def Shows (harts : Nat) (W : Nat → Prop) (h : Nat) (s s' : Sys) : Prop :=
  view s'=view s ∨ Hand harts W h (view s) (view s')

theorem locked_eq {f x : Sys} (hx : s.locked f=some x) : s.lock=none ∧ x=f := by
  unfold Sys.locked at hx
  split at hx
  next hl => cases hx; exact ⟨hl,rfl⟩
  next => cases hx

theorem taskUnblock_shows {pid : Nat} (hW : W pid) (hx : taskUnblock pid s=some s') :
    Shows harts W h s s' ∧ s'.threads=s.threads := by
  unfold taskUnblock at hx
  split at hx
  · obtain ⟨hl,rfl⟩ := locked_eq hx
    refine ⟨?_,rfl⟩
    by_cases hb : (s.tasks pid).state=.blocked
    · refine .inr ?_
      rw [view_modTask_state s pid _ .ready (by simp [hb])]
      refine Hand.wake _ hl fun j => ?_
      by_cases hj : j=pid
      · subst hj; exact .inr ⟨hW,hb,by simp⟩
      · exact .inl (update_of_ne hj _ _)
    · refine .inl (view_modTask_same s pid _ ?_)
      simp only [hb,if_false]
      split <;> exact ⟨rfl,rfl,rfl,rfl⟩
  · cases hx; exact ⟨.inl rfl,rfl⟩

theorem find_slot {p : Nat → Bool} {k : Nat}
    (hk : (List.range maxTasks).find? (fun i => i != 0 && p i)=some k) :
    k < maxTasks ∧ p k=true := by
  have h1 := List.find?_some hk
  have h2 := List.mem_of_find?_eq_some hk
  simp only [Bool.and_eq_true] at h1
  exact ⟨List.mem_range.1 h2,h1.2⟩

theorem call_shows {c : Call} (hW : ∀pid,c=.unblock pid → W pid) (hi : (s.threads (s.running h)).inner=[])
    (hm : (s.threads (s.running h)).main=.user)
    (hc : ∀u,(s.threads u).Calm) (hx : s.call harts h (s.running h) c=some s') :
    Shows harts W h s s' ∧ ∀u,(s'.threads u).Calm := by
  have hset {x : Sys} (m : Main) (hcode : m.code=.free) (hmk : m.makes=none)
      (hg : (m==.gone)=false) (ht : x.threads=s.threads) :
      view (x.setMain (s.running h) m)=view x :=
    view_setMain_same x _ m (by rw [ht,hi])
      (by rw [ht,hm]; exact ⟨hcode,hmk,hg.trans rfl⟩)
  have hcalm {s1 : Sys} (m : Main) (ht : s1.threads=s.threads) (u : Nat) :
      ((s1.setMain (s.running h) m).threads u).Calm :=
    calm_setMain m (by rw [ht]; exact hc) (by rw [ht,hi]) u
  have hcode : (view s).code (s.running h)=.free := by simp [view,Thread.code,hi,hm,Main.code]
  cases c with
  | yield =>
    cases hx
    split
    · exact ⟨.inl (hset _ rfl rfl rfl rfl),hcalm _ rfl⟩
    · exact ⟨.inl rfl,hc⟩
  | prepareBlock | waitDone =>
    simp only [Sys.call] at hx
    split at hx
    · cases hx; exact ⟨.inl rfl,hc⟩
    · obtain ⟨_,rfl⟩ := locked_eq hx
      exact ⟨.inl (view_modTask_same _ _ _ ⟨rfl,rfl,rfl,rfl⟩),hc⟩
  | block =>
    cases hx
    split
    · exact ⟨.inl (hset _ rfl rfl rfl rfl),hcalm _ rfl⟩
    · exact ⟨.inl rfl,hc⟩
  | blockUntil d =>
    simp only [Sys.call] at hx
    split at hx
    · cases hx; exact ⟨.inl rfl,hc⟩
    · split at hx
      · cases hx; exact ⟨.inl (hset _ rfl rfl rfl rfl),hcalm _ rfl⟩
      · obtain ⟨_,rfl⟩ := locked_eq hx
        refine ⟨.inl ?_,hcalm _ rfl⟩
        exact (hset (x := s.modTask _ fun t => {t with wakeAtMs := d}) _ rfl rfl rfl rfl).trans
          (view_modTask_same _ _ _ ⟨rfl,rfl,rfl,rfl⟩)
  | sleep ms =>
    cases hx
    split
    · exact ⟨.inl (hset _ rfl rfl rfl rfl),hcalm _ rfl⟩
    · exact ⟨.inl rfl,hc⟩
  | unblock pid =>
    obtain ⟨hs,ht⟩ : Shows harts W h s s' ∧ s'.threads=s.threads := taskUnblock_shows (hW _ rfl) hx
    exact ⟨hs,by rw [ht]; exact hc⟩
  | create hart =>
    simp only [Sys.call] at hx
    split at hx
    · cases hx; exact ⟨.inl rfl,hc⟩
    · split at hx
      · obtain ⟨_,rfl⟩ := locked_eq hx; exact ⟨.inl rfl,hc⟩
      next k hk =>
        obtain ⟨hl,rfl⟩ := locked_eq hx
        refine ⟨.inr ?_,hcalm _ rfl⟩
        obtain ⟨hkm,hkv⟩ := find_slot hk
        have hv : Vacant ((view s).state k) := by
          simpa [Vacant,view] using hkv
        have hr := @Hand.reserve harts W h (view s) k hl hkm hv
          (by simp [view,hm,Main.makes]) hcode
        have he := view_setMain (s.modTask k fun t =>
          {t with state := .blocked,thread := some s.nextThread,making := true}) (s.running h)
          (.alloc k hart) hi
        rw [view_modTask] at he
        have h1 : update (view s).code (s.running h) (Main.alloc k hart).code=(view s).code := by
          change update (view s).code (s.running h) .free=_
          rw [← hcode,update_eq_self]
        have h2 : update (view s).gone (s.running h) (Main.alloc k hart==.gone)=(view s).gone := by
          have : (view s).gone (s.running h)=(Main.alloc k hart==.gone) := by simp [view,hm]
          rw [← this,update_eq_self]
        have h3 : update (view s).sp k (s.tasks k).sp=(view s).sp := update_eq_self _ _
        dsimp only at he
        rw [h1,h2,h3] at he
        change Hand harts W h (view s) {view ((s.modTask k fun t =>
          {t with state := .blocked,thread := some s.nextThread,making := true}).setMain (s.running h)
          (.alloc k hart)) with next := s.nextThread+1}
        rw [he]
        exact hr
  | exit =>
    cases hx
    split
    · exact ⟨.inl (hset _ rfl rfl rfl rfl),hcalm _ rfl⟩
    · exact ⟨.inl (hset _ rfl rfl rfl rfl),hcalm _ rfl⟩
  | setPriority pid p =>
    cases hx
    split
    · exact ⟨.inl (view_modTask_same _ _ _ ⟨rfl,rfl,rfl,rfl⟩),hc⟩
    · exact ⟨.inl rfl,hc⟩
  | setAffinity pid hart =>
    simp only [Sys.call] at hx
    split at hx
    · obtain ⟨_,rfl⟩ := locked_eq hx
      exact ⟨.inl (view_modTask_same _ _ _ ⟨rfl,rfl,rfl,rfl⟩),hc⟩
    · cases hx; exact ⟨.inl rfl,hc⟩
  | secondaryInit =>
    simp only [Sys.call] at hx
    split at hx
    · cases hx
    next hcur =>
      split at hx
      · obtain ⟨_,rfl⟩ := locked_eq hx; exact ⟨.inl rfl,hc⟩
      next k hk =>
        obtain ⟨hl,rfl⟩ := locked_eq hx
        refine ⟨.inr ?_,hc⟩
        obtain ⟨hkm,hkv⟩ := find_slot hk
        have hsec := @Hand.secondary harts W h (view s) k hl hcur hkm
          (by simpa [view] using hkv)
        have he := view_modTask s k fun t => {t with
          state := .running,stackBase := none,priority := taskPrioIdle,hartAffinity := some h,
          thread := some (s.running h)}
        have h3 : update (view s).sp k (s.tasks k).sp=(view s).sp := update_eq_self _ _
        have h4 : update (view s).making k (s.tasks k).making=(view s).making :=
          update_eq_self _ _
        dsimp only at he
        rw [h3,h4] at he
        change Hand harts W h (view s) {view (s.modTask k fun t => {t with
          state := .running,stackBase := none,priority := taskPrioIdle,hartAffinity := some h,
          thread := some (s.running h)}) with current := update s.current h (some k)}
        rw [he]
        exact hsec

theorem taskExit_shows (hW : ∀i,(s.tasks i).wakeAtMs≠0 → W i) (hi : (s.threads (s.running h)).inner=[])
    (hm : (s.threads (s.running h)).main=.exiting)
    (hc : ∀u,(s.threads u).Calm) (hx : taskExit h (s.running h) s=some s') :
    Shows harts W h s s' ∧ ∀u,(s'.threads u).Calm := by
  have hcode : (view s).code (s.running h)=.free := by simp [view,Thread.code,hi,hm,Main.code]
  have hcalm {s1 : Sys} (m : Main) (ht : s1.threads=s.threads) (u : Nat) :
      ((s1.setMain (s.running h) m).threads u).Calm :=
    calm_setMain m (by rw [ht]; exact hc) (by rw [ht,hi]) u
  unfold taskExit at hx
  split at hx
  next hl =>
    split at hx
    · cases hx
    next prev hcur =>
      have hw := nextRunnable_woke (h := h) hW s.clock prev
      have hv1 := view_nextRunnable (s := s) (h := h) s.clock prev
      have hn := @nextRunnable_chosen s.clock h prev s.tasks
      have hall {n : Nat} (hnm : n < maxTasks) := nextRunnable_tasks s.clock h prev s.tasks hnm
      generalize hnr : nextRunnable s.clock h prev s.tasks=r at hx hw hv1 hn hall
      obtain ⟨next,tasks⟩ := r
      dsimp only at hx hw hv1 hn hall
      cases next with
      | none =>
        cases hx
        refine ⟨.inr ?_,hcalm _ rfl⟩
        have he := view_setMain_same {s with tasks := tasks} (s.running h) .halted hi
          (by change _=(s.threads _).main.code ∧ _=(s.threads _).main.makes ∧ _=((s.threads _).main==_)
              rw [hm]; exact ⟨rfl,rfl,rfl⟩)
        rw [he,hv1]
        exact Hand.wake _ hl hw
      | some n =>
        obtain ⟨hnm,hrun⟩ := hn rfl
        have hrd : (tasks n).state=.ready := by
          rw [hall hnm]
          simp only [Task.runsOn,Bool.and_eq_true,beq_iff_eq] at hrun
          exact hrun.1
        dsimp only at hx
        split at hx
        · cases hx
          refine ⟨.inr ?_,hcalm _ rfl⟩
          have he := view_setMain_code {s with tasks := tasks} (s.running h) .bug hi
            (by dsimp only; rw [hm]; exact ⟨rfl,rfl⟩)
          rw [hv1] at he
          change Hand harts W h (view s) {view (Sys.setMain {s with tasks := tasks} (s.running h) .bug)
            with lock := some h}
          rw [he]
          exact Hand.stick _ hl hw hcode (by simp [view,hcur])
        · cases hx
          refine ⟨.inr ?_,hcalm _ rfl⟩
          generalize hs2 : ({s with
            tasks := tasks,reapStack := update s.reapStack h (tasks prev).stackBase} : Sys)=s2
          have hv2 : view s2={view s with state := fun i => (tasks i).state} := by
            rw [← hs2]; exact hv1
          have ht2 : s2.threads=s.threads := by rw [← hs2]
          have hv3 : view ((s2.modTask prev fun t => {t with state := .dead,stackBase := none}).modTask
              n fun t => {t with state := .running})={view s with
                state := update (update (fun i => (tasks i).state) prev .dead) n .running} := by
            rw [view_modTask_state _ n _ .running ⟨rfl,rfl,rfl,rfl⟩,
              view_modTask_state _ prev _ .dead ⟨rfl,rfl,rfl,rfl⟩,hv2]
          have he := view_setMain_code ((s2.modTask prev fun t =>
            {t with state := .dead,stackBase := none}).modTask n fun t => {t with state := .running})
            (s.running h) (.exitCross prev n) (by change (s2.threads _).inner=_; rw [ht2,hi])
            (by change _=(s2.threads _).main.makes ∧ _=((s2.threads _).main==_)
                rw [ht2,hm]; exact ⟨rfl,rfl⟩)
          rw [hv3] at he
          have hcur2 : s2.current=s.current := by rw [← hs2]
          change Hand harts W h (view s) {view (((s2.modTask prev fun t =>
            {t with state := .dead,stackBase := none}).modTask n fun t =>
              {t with state := .running}).setMain (s.running h) (.exitCross prev n)) with
            current := update s2.current h (some n),lock := some h}
          rw [he,hcur2]
          exact Hand.exit prev n _ hl hcur hcode hw hnm hrd
  next => cases hx

theorem view_settled (s : Sys) {t : Nat} (k : Nat) (x : TaskState) (hi : (s.threads t).inner=[])
    (hc : (view s).code t=.free) (hg : ((s.threads t).main==.gone)=false) :
    view ((s.modTask k fun j => {j with state := x,making := false}).setMain t .user)={view s with
      state := update (view s).state k x,making := update (view s).making k false,
      makes := update (view s).makes t none} := by
  rw [view_setMain (s.modTask k fun j => {j with state := x,making := false}) t .user hi,
    view_modTask]
  change {view s with
    state := update (view s).state k x,sp := update (view s).sp k ((view s).sp k),
    thread := update (view s).thread k ((view s).thread k),
    making := update (view s).making k false,code := update (view s).code t .free,
    makes := update (view s).makes t none,gone := update (view s).gone t false}=_
  rw [← hc,← show (view s).gone t=false from hg]
  simp only [update_eq_self]

theorem mainStep_shows {a : Act} (hW : ∀i,(s.tasks i).wakeAtMs≠0 → W i)
    (hU : ∀pid,a=.call (.unblock pid) → W pid) (l : Linked harts (view s)) (hh : h<harts)
    (hi : (s.threads (s.running h)).inner=[])
    (hg : (s.threads (s.running h)).main≠.gone) (hc : ∀u,(s.threads u).Calm)
    (hx : mainStep harts h (s.running h) s (s.threads (s.running h)).main a=some s') :
    Shows harts W h s s' ∧ ∀u,(s'.threads u).Calm := by
  have hcode : (view s).code (s.running h)=(s.threads (s.running h)).main.code := by
    simp [view,Thread.code,hi]
  have hcalm {s1 : Sys} (m : Main) (ht : ∀u,(s1.threads u).inner=(s.threads u).inner ∧
      (s1.threads u).main=(s.threads u).main) (u : Nat) :
      ((s1.setMain (s.running h) m).threads u).Calm :=
    calm_setMain m (fun u => by
      have := hc u
      unfold Thread.Calm at this ⊢
      rwa [(ht u).1,(ht u).2]) (by rw [(ht _).1,hi]) u
  -- a quiet step of the thread's own code
  have hset {x : Sys} {m0 : Main} (m : Main) (hm : (s.threads (s.running h)).main=m0)
      (ht : x.threads=s.threads)
      (he : m.code=m0.code ∧ m.makes=m0.makes ∧ (m==.gone)=(m0==.gone)) :
      view (x.setMain (s.running h) m)=view x :=
    view_setMain_same x _ m (by rw [ht,hi]) (by rw [ht,hm]; exact he)
  have hboth {m0 : Main} (i : Nat) (f : Task → Task) (m : Main)
      (hf : (f (s.tasks i)).state=(s.tasks i).state ∧ (f (s.tasks i)).sp=(s.tasks i).sp ∧
        (f (s.tasks i)).thread=(s.tasks i).thread ∧ (f (s.tasks i)).making=(s.tasks i).making)
      (hm : (s.threads (s.running h)).main=m0)
      (he : m.code=m0.code ∧ m.makes=m0.makes ∧ (m==.gone)=(m0==.gone)) :
      view ((s.modTask i f).setMain (s.running h) m)=view s :=
    (hset (x := s.modTask i f) m hm rfl he).trans (view_modTask_same s i f hf)
  -- a step of sched_switch(b)
  have hsw {b : Bool} {p : Phase} {x : Sys × Out} (f : Out → Main)
      (hx : schedSwitch harts h b p s=some x)
      (hm : (s.threads (s.running h)).main.code=p.code b)
      (hmk : (s.threads (s.running h)).main.makes=none)
      (hf : ∀o,(f o).code=o.code b ∧ (f o).makes=none ∧ (f o==.gone)=false) :
      Shows harts W h s (x.1.setMain (s.running h) (f x.2)) ∧
        ∀u,((x.1.setMain (s.running h) (f x.2)).threads u).Calm := by
    have ht := schedSwitch_threads hx
    obtain ⟨f1,f2,f3⟩ := hf x.2
    have he := view_setMain_code x.1 (s.running h) (f x.2) (by rw [(ht _).1,hi])
      (by rw [(ht _).2.1,hmk]; exact ⟨f2,by rw [f3]; simpa using hg⟩)
    rw [f1] at he
    refine ⟨?_,hcalm _ fun u => ⟨(ht u).1,(ht u).2.1⟩⟩
    unfold Shows
    rw [he]
    exact schedSwitch_hand hW hx (by simpa [Thread.code,hi] using hm) hg
  generalize hm : (s.threads (s.running h)).main=m at hx hcode hsw hset hboth hg
  cases m with
  | user =>
    cases a <;> try cases hx
    next c => exact call_shows (fun pid he => hU pid (by rw [he])) hi hm hc hx
  | start =>
    cases a <;> try cases hx
    simp only [mainStep] at hx
    split at hx
    next hl =>
      cases hx
      have he := view_setMain_code s (s.running h) (.startReap .take) hi (by rw [hm]; exact ⟨rfl,rfl⟩)
      refine ⟨.inr ?_,hcalm _ fun _ => ⟨rfl,rfl⟩⟩
      change Hand harts W h (view s) {view (s.setMain (s.running h) (.startReap .take)) with lock := none}
      rw [he]
      exact Hand.land hl hcode
    next => cases hx
  | startReap r =>
    cases a <;> try cases hx
    simp only [mainStep,Option.map_eq_some_iff] at hx
    obtain ⟨⟨s1,r1⟩,hr,rfl⟩ := hx
    obtain ⟨hv,ht,_⟩ := schedReap_view hr
    dsimp only at hv ht
    refine ⟨.inl ?_,hcalm _ fun u => by rw [ht]; exact ⟨rfl,rfl⟩⟩
    rw [← hv]
    refine hset _ rfl ht ?_
    cases r1 <;> exact ⟨rfl,rfl,rfl⟩
  | yield p =>
    cases a <;> try cases hx
    simp only [mainStep,Option.map_eq_some_iff] at hx
    obtain ⟨x,hr,rfl⟩ := hx
    exact hsw Out.yield hr rfl rfl fun o => by cases o <;> exact ⟨rfl,rfl,rfl⟩
  | block p k =>
    cases a <;> try cases hx
    simp only [mainStep,Option.map_eq_some_iff] at hx
    obtain ⟨x,hr,rfl⟩ := hx
    exact hsw (Out.block k) hr rfl rfl fun o => by cases o <;> cases k <;> exact ⟨rfl,rfl,rfl⟩
  | idle k =>
    cases a <;> try cases hx
    simp only [mainStep] at hx
    split at hx
    · cases hx
    · split at hx
      · cases hx
        exact ⟨.inl (hset _ rfl rfl (by cases k <;> exact ⟨rfl,rfl,rfl⟩)),
          hcalm _ fun _ => ⟨rfl,rfl⟩⟩
      · cases hx
  | clearWake =>
    cases a <;> try cases hx
    simp only [mainStep] at hx
    split at hx
    · cases hx
    · obtain ⟨_,rfl⟩ := locked_eq hx
      exact ⟨.inl (hboth _ _ _ ⟨rfl,rfl,rfl,rfl⟩ rfl ⟨rfl,rfl,rfl⟩),
        hcalm _ fun _ => ⟨rfl,rfl⟩⟩
  | sleep e =>
    cases a <;> try cases hx
    refine ⟨.inl (hset _ rfl rfl ?_),hcalm _ fun _ => ⟨rfl,rfl⟩⟩
    split <;> exact ⟨rfl,rfl,rfl⟩
  | sleepArm e =>
    cases a <;> try cases hx
    simp only [mainStep] at hx
    split at hx
    · cases hx
    · obtain ⟨_,rfl⟩ := locked_eq hx
      exact ⟨.inl (hboth _ _ _ ⟨rfl,rfl,rfl,rfl⟩ rfl ⟨rfl,rfl,rfl⟩),
        hcalm _ fun _ => ⟨rfl,rfl⟩⟩
  | alloc k hart =>
    cases a <;> try cases hx
    · refine ⟨.inl ?_,hcalm _ fun _ => ⟨rfl,rfl⟩⟩
      exact hset (.fill k hart s.nextStack) rfl rfl ⟨rfl,rfl,rfl⟩
    · refine ⟨.inr ?_,hcalm _ fun _ => ⟨rfl,rfl⟩⟩
      have hh := @Hand.giveUp harts W h (view s) k (by simp [view,hm,Main.makes])
      rw [view_settled s k .unused hi hcode (by rw [hm]; rfl)]
      exact hh
  | fill k hart st =>
    cases a <;> try cases hx
    exact ⟨.inl (hboth _ _ _ ⟨rfl,rfl,rfl,rfl⟩ rfl ⟨rfl,rfl,rfl⟩),
      hcalm _ fun _ => ⟨rfl,rfl⟩⟩
  | prime k st =>
    cases a <;> try cases hx
    simp only [mainStep] at hx
    split at hx
    · cases hx
    next u hu =>
      cases hx
      have hmk : (view s).makes (s.running h)=some (k,false) := by simp [view,hm,Main.makes]
      have hu : (view s).thread k=some u := hu
      have hne : s.running h≠u := by
        obtain ⟨_,_,w,hw,hr,_⟩ := l.make _ k hmk
        rw [hu] at hw; cases hw
        exact hr h hh
      have hpr := @Hand.prime harts W h (view s) k u hmk hu
      have ht : (((s.modTask k fun t => {t with sp := some ⟨u,0⟩}).modThread u fun _ =>
          {stack := some st}).threads (s.running h))=s.threads (s.running h) :=
        update_of_ne hne _ _
      have he := view_setMain ((s.modTask k fun t => {t with sp := some ⟨u,0⟩}).modThread u fun _ =>
        {stack := some st}) (s.running h) (.publish k) (by rw [ht,hi])
      rw [view_modThread,view_modTask] at he
      have h1 : update (update (view s).code u .landing) (s.running h) .free=
          update (view s).code u .landing := by
        have : (update (view s).code u .landing) (s.running h)=.free := by
          rw [update_of_ne hne,hcode]; rfl
        rw [← this,update_eq_self]
      have h2 : update (update (view s).gone u false) (s.running h) false=
          update (view s).gone u false := by
        have : (update (view s).gone u false) (s.running h)=false := by
          rw [update_of_ne hne]; simp [view,hm]
        conv_lhs => arg 3; rw [← this]
        exact update_eq_self _ _
      have h3 : update (view s).state k (s.tasks k).state=(view s).state := update_eq_self _ _
      have h4 : update (view s).thread k (s.tasks k).thread=(view s).thread :=
        update_eq_self _ _
      have h5 : update (view s).making k (s.tasks k).making=(view s).making :=
        update_eq_self _ _
      dsimp only at he
      rw [h3,h4,h5] at he
      have he : view (((s.modTask k fun t => {t with sp := some ⟨u,0⟩}).modThread u fun _ =>
          {stack := some st}).setMain (s.running h) (.publish k))={view s with
          sp := update (view s).sp k (some ⟨u,0⟩),
          code := update (update (view s).code u .landing) (s.running h) .free,
          makes := update (update (view s).makes u none) (s.running h) (some (k,true)),
          gone := update (update (view s).gone u false) (s.running h) false,
          parks := update (view s).parks u 0} := he
      rw [h1,h2] at he
      refine ⟨.inr ?_,fun w => ?_⟩
      · unfold Shows at *
        rw [he]
        exact hpr
      · refine calm_setMain (.publish k) (s := (s.modTask k fun t =>
          {t with sp := some ⟨u,0⟩}).modThread u fun _ => {stack := some st})
          (calm_modThread (s := s.modTask k fun t => {t with sp := some ⟨u,0⟩}) hc ?_)
          (by rw [ht,hi]) w
        simp [Thread.Calm]
  | publish k =>
    cases a <;> try cases hx
    obtain ⟨hl,rfl⟩ := locked_eq hx
    refine ⟨.inr ?_,hcalm _ fun _ => ⟨rfl,rfl⟩⟩
    have hh := @Hand.publish harts W h (view s) k hl (by simp [view,hm,Main.makes])
    rw [view_settled s k .ready hi hcode (by rw [hm]; rfl)]
    exact hh
  | exiting =>
    cases a <;> try cases hx
    exact taskExit_shows hW hi hm hc hx
  | exitCross prev n =>
    cases a <;> try cases hx
    simp only [mainStep] at hx
    split at hx
    next hl =>
      simp only [Option.map_eq_some_iff] at hx
      obtain ⟨s1,hs1,rfl⟩ := hx
      obtain ⟨f,hf,⟨hq,hng,hr⟩,ht,hv⟩ := ctxSwitch_view hs1
      have hti (u : Nat) : (s1.threads u).inner=(s.threads u).inner ∧
          (s1.threads u).main=(s.threads u).main := by
        rw [ht]
        by_cases hu : u=s.running h
        · subst hu; simp
        · simp [update_of_ne hu]
      refine ⟨.inr ?_,hcalm _ hti⟩
      have hcr := @Hand.cross harts W h (view s) prev n true f hl hcode hf hq
        (by simpa [view] using hng) hr
      have he := view_setMain s1 (s.running h) .gone (by rw [(hti _).1,hi])
      rw [hv] at he
      have h1 : update (view s).makes (s.running h) Main.gone.makes=(view s).makes := by
        have : (view s).makes (s.running h)=Main.gone.makes := by simp [view,hm,Main.makes]
        rw [← this,update_eq_self]
      dsimp only at he
      rw [h1] at he
      rw [he]
      exact hcr
    next => cases hx
  | gone | halted | bug => cases a <;> cases hx

theorem innerStep_shows {i : Inner} {rest : List Inner} {a : Act}
    (hW : ∀i,(s.tasks i).wakeAtMs≠0 → W i) (hU : ∀pid,a=.call (.unblock pid) → W pid)
    (hi : (s.threads (s.running h)).inner=i::rest)
    (hg : (s.threads (s.running h)).main≠.gone) (hc : ∀u,(s.threads u).Calm)
    (hx : innerStep harts h (s.running h) s rest i a=some s') :
    Shows harts W h s s' ∧ ∀u,(s'.threads u).Calm := by
  have hrest := (hc (s.running h)).code hi
  have hcode : (view s).code (s.running h)=i.code := by simp [view,Thread.code,hi]
  -- what goes on below is not changed
  have hcalm {s1 : Sys} {l : List Inner} (hl : l=rest ∨ ∃j,l=j::rest)
      (ht : ∀u,(s1.threads u).inner=(s.threads u).inner ∧ (s1.threads u).main=(s.threads u).main)
      (u : Nat) : ((s1.setInner (s.running h) l).threads u).Calm := by
    refine calm_modThread (fun u => ?_) ?_ u
    · have := hc u
      unfold Thread.Calm at this ⊢
      rwa [(ht u).1,(ht u).2]
    · obtain ⟨h1,h2⟩ := hc (s.running h)
      rw [hi] at h1 h2
      unfold Thread.Calm
      rw [(ht _).2]
      have hmain := h2 (by simp)
      rcases hl with rfl | ⟨j,rfl⟩
      · exact ⟨fun j hj => h1 j (List.mem_of_mem_tail hj),fun _ => hmain⟩
      · exact ⟨h1,fun _ => hmain⟩
  cases i with
  | yield p =>
    cases a <;> try cases hx
    simp only [innerStep,Option.map_eq_some_iff] at hx
    obtain ⟨x,hr,rfl⟩ := hx
    have ht := schedSwitch_threads hr
    have hout : Thread.code {x.1.threads (s.running h) with inner := x.2.inner rest}=
        x.2.code false := by
      have hr : Thread.code {x.1.threads (s.running h) with inner := rest}=.free := by
        rw [← hrest]
        simp only [Thread.code,(ht (s.running h)).2.1]
      cases hx2 : x.2 with
      | at_ p' => rfl
      | ran | woken | idle => exact hr
    refine ⟨?_,hcalm ?_ fun u => ⟨(ht u).1,(ht u).2.1⟩⟩
    · unfold Shows
      rw [view_setInner,hout]
      exact schedSwitch_hand hW hr (by simp [Thread.code,hi,Inner.code]) hg
    · cases x.2 <;> first | exact .inl rfl | exact .inr ⟨_,rfl⟩
  | isr =>
    have hset {l : List Inner} (hl : Thread.code {s.threads (s.running h) with inner := l}=.free) :
        view (s.setInner (s.running h) l)=view s := by
      have he : (view s).code (s.running h)=.free := hcode
      rw [view_setInner,hl,← he,update_eq_self]
    cases a with
    | call c =>
      cases c <;> try cases hx
      · refine ⟨.inl (hset ?_),hcalm ?_ fun _ => ⟨rfl,rfl⟩⟩
        · split
          · rfl
          · exact hrest
        · split
          · exact .inr ⟨_,rfl⟩
          · exact .inl rfl
      · obtain ⟨hs,ht⟩ : Shows harts W h s s' ∧ s'.threads=s.threads := taskUnblock_shows (hU _ rfl) hx
        exact ⟨hs,by rw [ht]; exact hc⟩
    | ret => cases hx; exact ⟨.inl (hset hrest),hcalm (.inl rfl) fun _ => ⟨rfl,rfl⟩⟩
    | go | interrupt | noMemory | advance => cases hx

/-- The tasks that a step may wake: the sleepers, and the one it names. -/
def wakes (a : Act) (s : Sys) (i : Nat) : Prop := (s.tasks i).wakeAtMs≠0 ∨ a=.call (.unblock i)

theorem step_shows {a : Act} (l : Linked harts (view s)) (hc : ∀u,(s.threads u).Calm)
    (hx : step harts h a s=some s') :
    h<harts ∧ Shows harts (wakes a s) h s s' ∧ ∀u,(s'.threads u).Calm := by
  obtain ⟨hh,hx⟩ := step_cases hx
  have hg : (s.threads (s.running h)).main≠.gone := by simpa [view] using l.alive h hh
  refine ⟨hh,?_⟩
  rcases hx with ⟨rfl,rfl⟩ | ⟨rfl,hl,rfl⟩ | ⟨i,rest,hi,hx⟩ | ⟨hi,hx⟩
  · exact ⟨.inl rfl,hc⟩
  · have hf : (s.threads (s.running h)).code=.free := l.free hh hl
    refine ⟨.inl ?_,fun u => calm_modThread hc ?_ u⟩
    · rw [view_setInner]
      change {view s with code := update (view s).code (s.running h) .free}=view s
      rw [← hf]
      exact congrArg (fun c => {view s with code := c}) (update_eq_self _ _)
    · refine ⟨fun j hj => ?_,fun _ => ?_⟩
      · have hj : j∈(s.threads (s.running h)).inner := hj
        obtain ⟨h1,_⟩ := hc (s.running h)
        cases hin : (s.threads (s.running h)).inner with
        | nil => rw [hin] at hj; cases hj
        | cons i rest =>
          rw [hin] at hj h1
          rcases List.mem_cons.1 hj with rfl | hj
          · simpa [Thread.code,hin] using hf
          · exact h1 j hj
      · cases hin : (s.threads (s.running h)).inner with
        | nil => simpa [Thread.code,hin] using hf
        | cons i rest => exact (hc (s.running h)).2 (by simp [hin])
  · exact innerStep_shows (fun _ => .inl) (fun _ => .inr) hi hg hc hx
  · exact mainStep_shows (fun _ => .inl) (fun _ => .inr) l hh hi hg hc hx

/-- Threads, slots and harts belong together in every state a run reaches. -/
structure Sound (harts : Nat) (s : Sys) : Prop where
  linked : Linked harts (view s)
  calm : ∀t,(s.threads t).Calm

theorem Sound.step {a : Act} (hs : Sound harts s) (hx : step harts h a s=some s') :
    Sound harts s' := by
  obtain ⟨hh,hv,hc⟩ := step_shows hs.linked hs.calm hx
  refine ⟨?_,hc⟩
  rcases hv with he | hand
  · rw [he]; exact hs.linked
  · exact hs.linked.hand hh hand

theorem schedInit_sound (harts : Nat) : Sound harts (schedInit harts) where
  linked := by
    have hthread (t : Nat) : ((schedInit harts).threads t).code=if t<harts then .free else .landing := by
      simp only [schedInit]
      split <;> rfl
    have hmain (t : Nat) : ((schedInit harts).threads t).main=if t<harts then .user else .start := by
      simp only [schedInit]
      split <;> rfl
    have htask (i : Nat) : (schedInit harts).tasks i=
        if i=0 then {state := .running,hartAffinity := some 0,thread := some 0} else {} := by
      simp only [schedInit,Function.update_apply]
    exact {
      lockHart := fun _ hm => by cases hm
      lockCode := fun h hh => by
        have hc : (view (schedInit harts)).code h=.free := by simp only [view,hthread,hh,if_true]
        exact ⟨fun hn => absurd hc hn,(by rintro ⟨⟩)⟩
      parked := fun t ht => by
        have : ¬t<harts := fun hlt => ht t hlt rfl
        simp [view,hthread,this]
      inj := fun g h _ _ he => he
      runLt := fun h hh => Nat.lt_succ_of_lt hh
      alive := fun h hh => by
        have he : (schedInit harts).running h=h := rfl
        simp [view,he,hmain,hh]
      hart := fun h hh => by
        have he : (schedInit harts).running h=h := rfl
        unfold HartOk
        simp only [view,he,hthread,hh,if_true]
        by_cases h0 : h=0
        · subst h0; simp [schedInit,maxTasks,Vacant]
        · simp only [schedInit,h0,if_false]
          refine ⟨trivial,fun i => ?_⟩
          by_cases hi : i=0
          · subst hi; simpa using Ne.symm h0
          · simp [update_of_ne hi]
      thrInj := fun i j t hi hj => by
        simp only [view,htask] at hi hj
        split at hi
        · split at hj
          · omega
          · cases hj
        · cases hi
      thrLt := fun i t hi => by
        simp only [view,htask] at hi
        split at hi
        · cases hi; exact Nat.succ_pos _
        · cases hi
      spLt := fun i f hi => by simp only [view,htask] at hi; split at hi <;> cases hi
      sp := fun i f hi => by simp only [view,htask] at hi; split at hi <;> cases hi
      spDead := fun i f _ _ hi => by simp only [view,htask] at hi; split at hi <;> cases hi
      make := fun c k hc => by simp only [view,hmain] at hc; split at hc <;> cases hc
      makeInj := fun c d k hc => by simp only [view,hmain] at hc; split at hc <;> cases hc
      fresh := fun t ht => by
        have : ¬t<harts := by have : harts+1≤t := ht; omega
        simp [view,hmain,this,Main.makes]}
  calm := fun t => by
    simp only [schedInit]
    split <;> simp [Thread.Calm]

end LugalOS.Sched
