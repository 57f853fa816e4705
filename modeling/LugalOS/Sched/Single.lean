import LugalOS.Sched.Ownership

namespace LugalOS.Sched

open Function (update update_self)
open Run (Reach)

/-- What g_current and the states of the slots say while nobody holds g_sched_lock. -/
structure Single (harts : Nat) (s : Sys) : Prop where
  current : ∀h i,h<harts → s.current h=some i → i < maxTasks ∧ (s.tasks i).state=.running
  alone : ∀g h i,g<harts → h<harts → s.current g=some i → s.current h=some i → g=h
  running : ∀i,(s.tasks i).state=.running → ∃h,h<harts ∧ s.current h=some i

/-- A task that becomes current on a hart is not pinned to another. -/
def Pinned (s s' : Sys) : Prop := ∀g i,s'.current g=some i → s.current g≠some i →
  (s'.tasks i).hartAffinity=none ∨ (s'.tasks i).hartAffinity=some g

/-- The slot's sp is the frame its own thread left at its last switch away, or was primed with. -/
def Primed (s : Sys) (i : Nat) : Prop := ∃t,(s.tasks i).thread=some t ∧
  (s.tasks i).sp=some ⟨t,(s.threads t).parks⟩ ∧ (s.threads t).main≠.gone

/-- A hart has chosen another task and its next step, still under g_sched_lock, parks the slot's sp. -/
def Leaving (harts : Nat) (s : Sys) (i : Nat) : Prop := ∃h n,s.lock=some h ∧
  (s.tasks i).thread=some (s.running h) ∧ (s.threads (s.running h)).code=.cross i n false ∧
  ∃s',step harts h .go s=some s' ∧ Primed s' i

variable {harts h : Nat} {s s' : Sys}

theorem Kept.single (hk : Kept harts s) (hl : s.lock=none) : Single harts s := by
  have hv : (view s).lock=none := hl
  have hf {g : Nat} (hg : g<harts) : (view s).code ((view s).running g)=.free :=
    hk.sound.linked.free hg (by simp [hv])
  have hcur {g i : Nat} (hg : g<harts) (hi : s.current g=some i) :=
    (hk.sound.linked.hart g hg).current (by simp [hf hg]) hi
  refine ⟨fun g i hg hi => ⟨(hcur hg hi).1,?_⟩,fun g g' i hg hg' hi hi' => ?_,hk.owned.cur⟩
  · exact hk.owned.elsewhere hk.sound.linked hg (by simp [hv]) hi
  · have h1 := (hcur hg hi).2.1
    rw [(hcur hg' hi').2.1] at h1
    exact hk.sound.linked.inj g g' hg hg' (Option.some.inj h1).symm

theorem Kept.intact (hk : Kept harts s) (hh : h<harts) {p n : Nat} {d : Bool}
    (hc : (s.threads (s.running h)).code=.cross p n d) : ∃f,(s.tasks n).sp=some f ∧ Intact harts s f := by
  obtain ⟨_,_,_,_,⟨t,hthr,hsp,hgone⟩,hrun⟩ := (hk.owned.own h hh).cross hc
  have hgone : ((s.threads t).main==.gone)=false := hgone
  exact ⟨_,hsp,rfl,by simpa using hgone,fun g hg he => hrun g hg (hthr.trans (congrArg some he.symm))⟩

theorem step_parks (hh : h<harts) {i n : Nat} {f : Frame} (hl : s.lock=some h)
    (hthr : (s.tasks i).thread=some (s.running h)) (hg : (s.threads (s.running h)).main≠.gone)
    (hc : (s.threads (s.running h)).code=.cross i n false) (hf : (s.tasks n).sp=some f)
    (hi : Intact harts s f) : ∃s',step harts h .go s=some s' ∧ Primed s' i := by
  obtain ⟨x,hx⟩ : ∃x,ctxSwitch harts h i n s=some x := by simp [ctxSwitch,hf,hi]
  have hsw {b : Bool} : schedSwitch harts h b (.cross i n) s=some (x,.at_ .landed) := by
    simp [schedSwitch,hl,hx]
  obtain ⟨_,_,_,hth,hv⟩ := ctxSwitch_view hx
  have hthr' : (x.tasks i).thread=some (s.running h) :=
    (congrFun (congrArg View.thread hv) i).trans hthr
  have hsp : (x.tasks i).sp=some ⟨s.running h,(s.threads (s.running h)).parks+1⟩ :=
    (congrFun (congrArg View.sp hv) i).trans (update_self _ _ _)
  -- what the switch's caller changes of its thread leaves the frame the last one
  have primed {y : Sys} (hy : y.tasks=x.tasks)
      (hp : (y.threads (s.running h)).parks=(x.threads (s.running h)).parks)
      (hm : (y.threads (s.running h)).main≠.gone) : Primed y i := by
    refine ⟨_,hy.symm ▸ hthr',?_,hm⟩
    rw [hy,hsp,hp,hth,update_self]
  have hmain : (x.threads (s.running h)).main≠.gone := by simpa [hth] using hg
  cases hin : (s.threads (s.running h)).inner with
  | cons j rest =>
    simp only [Thread.code,hin] at hc
    cases j with
    | isr => cases hc
    | yield p =>
      cases p <;> cases hc
      exact ⟨x.setInner (s.running h) (.yield .landed::rest),
        by simp [step,hh,hin,innerStep,hsw,Out.inner],primed rfl
          (by simp [Sys.setInner,Sys.modThread]) (by rwa [threads_setInner])⟩
  | nil =>
    simp only [Thread.code,hin] at hc
    have hset (m : Main) (hm : m≠.gone) : Primed (x.setMain (s.running h) m) i :=
      primed rfl (by simp [Sys.setMain,Sys.modThread]) (by rwa [threads_setMain,if_pos rfl])
    cases hm : (s.threads (s.running h)).main <;> rw [hm] at hc <;> try cases hc
    next p =>
      cases p <;> cases hc
      exact ⟨_,by simp [step,hh,hin,hm,mainStep,hsw]; rfl,hset (.yield .landed) (by rintro ⟨⟩)⟩
    next p k =>
      cases p <;> cases hc
      exact ⟨_,by simp [step,hh,hin,hm,mainStep,hsw]; rfl,hset (.block .landed k) (by rintro ⟨⟩)⟩

theorem Kept.primed (hk : Kept harts s) {i : Nat} (hr : (s.tasks i).state=.ready) :
    (s.tasks i).making=false ∧ (Primed s i ∨ Leaving harts s i) := by
  have hr : (view s).state i=.ready := hr
  have hm : (view s).making i=false := hk.owned.not_making (by simp [hr])
  refine ⟨hm,?_⟩
  by_cases hrun : ∃g,g<harts ∧ (view s).thread i=some ((view s).running g)
  · obtain ⟨g,hg,ht⟩ := hrun
    have hcur (hc : ∀p n d,(view s).code ((view s).running g)≠.cross p n d) :
        (view s).current g=some i := hk.sound.linked.slot hg hc ht
    cases hc : (view s).code ((view s).running g) with
    | cross p n d =>
      obtain ⟨_,hp,_⟩ := (hk.sound.linked.hart g hg).cross hc
      have hip := hk.sound.linked.thrInj i p _ ht hp
      subst hip
      cases d with
      | false =>
        have hl := (hk.sound.linked.lockCode g hg).1 (by simp [hc])
        obtain ⟨f,hf,hi⟩ := hk.intact hg hc
        have halive : (s.threads (s.running g)).main≠.gone := by
          simpa [view] using hk.sound.linked.alive g hg
        exact .inr ⟨g,n,hl,ht,hc,step_parks hg hl ht halive hc hf hi⟩
      | true =>
        have := ((hk.owned.own g hg).cross hc).1 rfl
        rw [hr] at this; cases this
    | pick b =>
      have ho := hk.owned.picking hg (hcur (by simp [hc])) hc
      cases b <;> (rw [hr] at ho; cases ho)
    | free | landing | stuck =>
      have := (hk.owned.own g hg).running (by simp [hc]) (by simp [hc]) (hcur (by simp [hc]))
      rw [hr] at this; cases this
  · obtain ⟨t,h1,h2,h3⟩ := hk.owned.saved i (.inl hr) hm fun g hg ht => hrun ⟨g,hg,ht⟩
    exact .inl ⟨t,h1,h2,by simpa [view] using h3⟩

theorem awake_affinity (now : Nat) (t : Task) : (t.awake now).hartAffinity=t.hartAffinity :=
  (awake_frame now t).2.2.2.2.2.2

theorem nextRunnable_affinity {now prev n : Nat} {tasks : Nat → Task}
    (hn : (nextRunnable now h prev tasks).1=some n) :
    ((nextRunnable now h prev tasks).2 n).hartAffinity=none ∨
      ((nextRunnable now h prev tasks).2 n).hartAffinity=some h := by
  obtain ⟨_,hr⟩ := nextRunnable_chosen hn
  simp only [Task.runsOn,Bool.and_eq_true,Bool.or_eq_true,beq_iff_eq,awake_affinity] at hr
  rw [(nextRunnable_frame (h := h) now prev tasks n).2.2.2.2.2.2]
  exact hr.2

theorem Pinned.same (hc : s'.current=s.current) : Pinned s s' :=
  fun _ _ hi hn => absurd (hc ▸ hi) hn

theorem Pinned.update {n : Nat} (hc : s'.current=update s.current h (some n))
    (hn : (s'.tasks n).hartAffinity=none ∨ (s'.tasks n).hartAffinity=some h) : Pinned s s' := by
  intro g i hi hne
  rw [hc] at hi
  by_cases hg : g=h
  · subst hg; rw [update_self] at hi; cases hi; exact hn
  · rw [Function.update_of_ne hg] at hi; exact absurd hi hne

theorem schedSwitch_pinned {b : Bool} {p : Phase} {x : Sys × Out}
    (hx : schedSwitch harts h b p s=some x) : Pinned s x.1 := by
  cases p with
  | reapFirst r | reapLast r =>
    simp only [schedSwitch,Option.map_eq_some_iff] at hx
    obtain ⟨y,hr,rfl⟩ := hx
    exact .same (congrArg View.current (schedReap_view hr).1)
  | enter =>
    simp only [schedSwitch] at hx
    split at hx
    · split at hx
      · cases hx
      · split at hx
        · split at hx <;> cases hx <;> exact .same rfl
        · cases hx; exact .same rfl
    · cases hx
  | pick prepared =>
    simp only [schedSwitch] at hx
    split at hx
    · split at hx
      · cases hx
      next prev _ =>
        have hn (n : Nat) := @nextRunnable_affinity h s.clock prev n s.tasks
        generalize nextRunnable s.clock h prev s.tasks=r at hx hn
        obtain ⟨next,tasks⟩ := r
        cases next with
        | none => dsimp only at hx; split at hx <;> cases hx <;> exact .same rfl
        | some n =>
          dsimp only at hx
          split at hx
          · cases hx; exact .same rfl
          next hne =>
            cases hx
            refine .update (h := h) (n := n) ?_ ?_
            · dsimp only [Sys.modTask]
              split <;> rfl
            · have := hn n rfl
              dsimp only [Sys.modTask] at this ⊢
              rw [update_self]
              split <;> simpa [Function.update_of_ne hne] using this
    · cases hx
  | cross prev n =>
    simp only [schedSwitch] at hx
    split at hx
    · simp only [Option.map_eq_some_iff] at hx
      obtain ⟨s1,hs1,rfl⟩ := hx
      obtain ⟨f,_,_,_,hv⟩ := ctxSwitch_view hs1
      exact .same (congrArg View.current hv)
    · cases hx
  | landed =>
    simp only [schedSwitch] at hx
    split at hx <;> cases hx
    exact .same rfl

theorem taskUnblock_pinned {pid : Nat} (hx : taskUnblock pid s=some s') : Pinned s s' := by
  unfold taskUnblock at hx
  split at hx
  · obtain ⟨_,rfl⟩ := locked_eq hx; exact .same rfl
  · cases hx; exact .same rfl

theorem taskExit_pinned {t : Nat} (hx : taskExit h t s=some s') : Pinned s s' := by
  unfold taskExit at hx
  split at hx
  · split at hx
    · cases hx
    next prev _ =>
      have hn (n : Nat) := @nextRunnable_affinity h s.clock prev n s.tasks
      generalize nextRunnable s.clock h prev s.tasks=r at hx hn
      obtain ⟨next,tasks⟩ := r
      cases next with
      | none => cases hx; exact .same rfl
      | some n =>
        dsimp only at hx
        split at hx
        · cases hx; exact .same rfl
        · cases hx
          refine .update (h := h) (n := n) rfl ?_
          have := hn n rfl
          dsimp only [Sys.setMain,Sys.modThread,Sys.modTask] at this ⊢
          rw [update_self,Function.update_apply]
          split
          next he => subst he; exact this
          next => exact this
  · cases hx

theorem call_pinned {t : Nat} {c : Call} (hx : s.call harts h t c=some s') : Pinned s s' := by
  cases c with
  | yield | block | sleep | exit | setPriority =>
    cases hx
    split <;> exact .same rfl
  | prepareBlock | waitDone =>
    simp only [Sys.call] at hx
    split at hx
    · cases hx; exact .same rfl
    · obtain ⟨_,rfl⟩ := locked_eq hx; exact .same rfl
  | blockUntil d =>
    simp only [Sys.call] at hx
    split at hx
    · cases hx; exact .same rfl
    · split at hx
      · cases hx; exact .same rfl
      · obtain ⟨_,rfl⟩ := locked_eq hx; exact .same rfl
  | unblock pid => exact taskUnblock_pinned hx
  | create hart =>
    simp only [Sys.call] at hx
    split at hx
    · cases hx; exact .same rfl
    · split at hx <;> (obtain ⟨_,rfl⟩ := locked_eq hx; exact .same rfl)
  | setAffinity pid hart =>
    simp only [Sys.call] at hx
    split at hx
    · obtain ⟨_,rfl⟩ := locked_eq hx; exact .same rfl
    · cases hx; exact .same rfl
  | secondaryInit =>
    simp only [Sys.call] at hx
    split at hx
    · cases hx
    · split at hx
      · obtain ⟨_,rfl⟩ := locked_eq hx; exact .same rfl
      next k _ =>
        obtain ⟨_,rfl⟩ := locked_eq hx
        refine .update (h := h) (n := k) rfl (.inr ?_)
        dsimp only [Sys.modTask]
        rw [update_self]

theorem mainStep_pinned {t : Nat} {m : Main} {a : Act} (hx : mainStep harts h t s m a=some s') :
    Pinned s s' := by
  cases m with
  | user =>
    cases a <;> try cases hx
    exact call_pinned hx
  | start =>
    cases a <;> try cases hx
    simp only [mainStep] at hx
    split at hx <;> cases hx
    exact .same rfl
  | startReap r =>
    cases a <;> try cases hx
    simp only [mainStep,Option.map_eq_some_iff] at hx
    obtain ⟨y,hr,rfl⟩ := hx
    exact .same (congrArg View.current (schedReap_view hr).1)
  | yield p | block p k =>
    cases a <;> try cases hx
    simp only [mainStep,Option.map_eq_some_iff] at hx
    obtain ⟨y,hr,rfl⟩ := hx
    exact schedSwitch_pinned hr
  | idle k | clearWake | sleepArm e =>
    cases a <;> try cases hx
    simp only [mainStep] at hx
    split at hx
    · cases hx
    · first
      | (obtain ⟨_,rfl⟩ := locked_eq hx; exact .same rfl)
      | (split at hx <;> cases hx; exact .same rfl)
  | sleep e => cases a <;> cases hx; exact .same rfl
  | alloc k hart => cases a <;> cases hx <;> exact .same rfl
  | fill k hart st => cases a <;> cases hx; exact .same rfl
  | prime k st =>
    cases a <;> try cases hx
    simp only [mainStep] at hx
    split at hx <;> cases hx
    exact .same rfl
  | publish k =>
    cases a <;> try cases hx
    obtain ⟨_,rfl⟩ := locked_eq hx
    exact .same rfl
  | exiting =>
    cases a <;> try cases hx
    exact taskExit_pinned hx
  | exitCross prev n =>
    cases a <;> try cases hx
    simp only [mainStep] at hx
    split at hx
    · simp only [Option.map_eq_some_iff] at hx
      obtain ⟨s1,hs1,rfl⟩ := hx
      obtain ⟨f,_,_,_,hv⟩ := ctxSwitch_view hs1
      exact .same (congrArg View.current hv)
    · cases hx
  | gone | halted | bug => cases a <;> cases hx

theorem innerStep_pinned {t : Nat} {i : Inner} {rest : List Inner} {a : Act}
    (hx : innerStep harts h t s rest i a=some s') : Pinned s s' := by
  cases i with
  | yield p =>
    cases a <;> try cases hx
    simp only [innerStep,Option.map_eq_some_iff] at hx
    obtain ⟨y,hr,rfl⟩ := hx
    exact schedSwitch_pinned hr
  | isr =>
    cases a with
    | call c =>
      cases c <;> try cases hx
      · exact .same rfl
      · exact taskUnblock_pinned hx
    | ret => cases hx; exact .same rfl
    | go | interrupt | noMemory | advance => cases hx

/-- No step makes a task current on a hart other than the one it is pinned to. -/
theorem step_pinned {a : Act} (hx : step harts h a s=some s') : Pinned s s' := by
  obtain ⟨_,⟨_,rfl⟩ | ⟨_,_,rfl⟩ | ⟨i,rest,_,hx⟩ | ⟨_,hx⟩⟩ := step_cases hx
  · exact .same rfl
  · exact .same rfl
  · exact innerStep_pinned hx
  · exact mainStep_pinned hx

/-- One step as ok allows it, computed. -/
def advance (harts : Nat) (ok : Sys → Act → Bool) (e : Nat × Act) (s : Sys) : Option Sys :=
  if ok s e.2 then step harts e.1 e.2 s else none

theorem goes_advance {ok : Sys → Act → Bool} (s : Sys) (e : Nat × Act) (s' : Sys)
    (hx : advance harts ok e s=some s') : Goes harts ok s e s' := by
  unfold advance at hx
  split at hx
  next hk => exact ⟨hk,hx⟩
  next => cases hx

/-- In runs where no task_unblock names a slot that task_create_full has reserved and not yet
published, every hart's current task is RUNNING, no other hart's, and nothing else is RUNNING. -/
theorem single_ownership (h0 : 0<harts) {hist : List (Nat × Act)}
    (hr : Reach (Goes harts fresh) (schedInit harts) hist s) :
    (s.lock=none → Single harts s) ∧ ∀h a s',step harts h a s=some s' → Pinned s s' :=
  ⟨(reach_kept h0 hr).single,fun _ _ _ hx => step_pinned hx⟩

def creation : List (Nat × Act) := [(1,.call .secondaryInit),(0,.call (.create (some 1))),(0,.go),
  (0,.go),(0,.go),(0,.go),(1,.call .yield),(1,.go),(1,.go),(1,.go),(1,.go),(1,.go)]

theorem single_ownership_create : ∃s,(∃hist,Reach (Goes 2 fresh) (schedInit 2) hist s) ∧
    s.current 1=some 2 ∧ Single 2 s := by
  have hex : (Run.exec (advance 2 fresh) creation (schedInit 2)).any
      fun s => s.lock==none && s.current 1==some 2 := by decide +kernel
  obtain ⟨s,hr,hex⟩ := Reach.exec_any goes_advance hex
  simp only [Bool.and_eq_true,beq_iff_eq] at hex
  exact ⟨s,⟨_,hr⟩,hex.2,(single_ownership (by decide) hr).1 hex.1⟩

def always (_ : Sys) (_ : Act) : Bool := true

/-- Task 2 is woken before task_create_full publishes it, and runs on hart 1 when it is published. -/
def early : List (Nat × Act) := [(1,.call .secondaryInit),(0,.call (.create none)),(0,.go),(0,.go),
  (0,.go),(1,.call (.unblock 2)),(1,.call .yield),(1,.go),(1,.go),(1,.go),(1,.go),(1,.go),(0,.go)]

theorem single_ownership_early :
    ∃hist s,Reach (Goes 2 always) (schedInit 2) hist s ∧ s.lock=none ∧ ¬Single 2 s := by
  have hex : (Run.exec (advance 2 always) early (schedInit 2)).any
      fun s => s.lock==none && s.current 1==some 2 && (s.tasks 2).state==.ready := by decide +kernel
  obtain ⟨s,hr,hex⟩ := Reach.exec_any goes_advance hex
  simp only [Bool.and_eq_true,beq_iff_eq] at hex
  obtain ⟨⟨hl,hc⟩,hst⟩ := hex
  refine ⟨_,s,hr,hl,fun hone => ?_⟩
  have := (hone.current 1 2 (by decide) hc).2
  rw [hst] at this; cases this

/-- In the same runs a READY slot is published and holds the frame of its own thread, unless it is
being switched away from under the lock. -/
theorem only_primed (h0 : 0<harts) {hist : List (Nat × Act)}
    (hr : Reach (Goes harts fresh) (schedInit harts) hist s) (i : Nat)
    (hi : (s.tasks i).state=.ready) : (s.tasks i).making=false ∧ (Primed s i ∨ Leaving harts s i) :=
  (reach_kept h0 hr).primed hi

theorem only_primed_create : ∃s,(∃hist,Reach (Goes 2 fresh) (schedInit 2) hist s) ∧
    (s.tasks 2).state=.ready ∧ (s.tasks 2).making=false ∧ (Primed s 2 ∨ Leaving 2 s 2) := by
  have hex : (Run.exec (advance 2 fresh) (creation.take 6) (schedInit 2)).any
      fun s => (s.tasks 2).state==.ready := by decide +kernel
  obtain ⟨s,hr,hex⟩ := Reach.exec_any goes_advance hex
  simp only [beq_iff_eq] at hex
  exact ⟨s,⟨_,hr⟩,hex,only_primed (by decide) hr 2 hex⟩

/-- Task 1 has exited and its slot is being given to a new task when an interrupt handler wakes it
by the pid it had. -/
def stale : List (Nat × Act) := [(0,.call (.create none)),(0,.go),(0,.go),(0,.go),(0,.go),
  (0,.call .yield),(0,.go),(0,.go),(0,.go),(0,.go),(0,.go),(0,.go),(0,.call .exit),(0,.go),(0,.go),
  (0,.go),(0,.go),(0,.go),(0,.call (.create none)),(0,.interrupt),(0,.call (.unblock 1))]

theorem only_primed_stale : ∃hist s,Reach (Goes 1 always) (schedInit 1) hist s ∧
    (s.tasks 1).state=.ready ∧ (s.tasks 1).making=true ∧ ¬Primed s 1 ∧ ¬Leaving 1 s 1 := by
  have hex : (Run.exec (advance 1 always) stale (schedInit 1)).any fun s =>
      (s.tasks 1).state==.ready && (s.tasks 1).making && (s.tasks 1).thread==some 3 &&
        (s.tasks 1).sp==some ⟨2,1⟩ && s.lock==none := by decide +kernel
  obtain ⟨s,hr,hex⟩ := Reach.exec_any goes_advance hex
  simp only [Bool.and_eq_true,beq_iff_eq] at hex
  obtain ⟨⟨⟨⟨hst,hmk⟩,hth⟩,hsp⟩,hl⟩ := hex
  refine ⟨_,s,hr,hst,hmk,fun ⟨t,h1,h2,_⟩ => ?_,fun ⟨h,n,h1,_⟩ => ?_⟩
  · rw [hth] at h1; cases h1
    rw [hsp] at h2; cases h2
  · rw [hl] at h1; cases h1

end LugalOS.Sched
