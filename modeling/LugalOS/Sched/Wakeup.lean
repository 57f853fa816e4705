import LugalOS.Sched.Single

namespace LugalOS.Sched

open Function (update update_of_ne update_self)
open Run (Reach)

/-- The current task of a hart is BLOCKED only between the store of its sched_switch(true) and the
choice of the next task. -/
def Upright (harts : Nat) (v : View) : Prop := ∀g i,g<harts → v.current g=some i →
  v.code (v.running g)≠.pick true → v.state i≠.blocked

section
variable {harts h : Nat} {W : Nat → Prop} {v v' : View}

theorem Upright.states (u : Upright harts v) {st : Nat → TaskState}
    (hs : ∀i,st i=.blocked → v.state i=.blocked) : Upright harts {v with state := st} :=
  fun g i hg hi hc hb => u g i hg hi hc (hs i hb)

theorem View.Woke.blocked {st : Nat → TaskState} (hw : v.Woke W st) {i : Nat}
    (hb : st i=.blocked) : v.state i=.blocked := by
  rcases hw i with he | ⟨_,_,he⟩
  · rwa [← he]
  · rw [he] at hb; cases hb

theorem blocked_update {st : Nat → TaskState} {i j : Nat} {x : TaskState} (hx : x≠.blocked)
    (hb : update st i x j=.blocked) : j≠i ∧ st j=.blocked := by
  by_cases hj : j=i
  · subst hj; rw [update_self] at hb; exact absurd hb hx
  · rw [update_of_ne hj] at hb; exact ⟨hj,hb⟩

theorem Upright.hand (u : Upright harts v) (l : Linked harts v) (hh : h<harts)
    (hs : Hand harts W h v v') : Upright harts v' := by
  -- another hart's code is what it was when the acting thread changes its own
  have hother {g : Nat} (hg : g<harts) (hgh : g≠h) (c : Code) :
      update v.code (v.running h) c (v.running g)=v.code (v.running g) :=
    update_of_ne (l.other hh hg hgh) _ _
  -- the task of another hart is another task
  have hne {g i j : Nat} (hg : g<harts) (hgh : g≠h) (hl : v.lock≠some g) (hi : v.current g=some i)
      (hj : v.thread j=some (v.running h)) : i≠j := by
    rintro rfl
    have := ((l.hart g hg).current (by simp [l.free hg hl]) hi).2.1
    rw [hj] at this
    exact l.other hh hg hgh (Option.some.inj this).symm
  cases hs with
  | wake st hl hw => exact u.states fun i => hw.blocked
  | enter b i hl hc hf =>
    intro g j hg hj hcode hb
    dsimp only at hj hcode hb
    by_cases hgh : g=h
    · subst hgh
      cases b with
      | true => simp at hcode
      | false => exact u g j hg hj (by simp [hf]) hb
    · refine u g j hg hj (by rwa [hother hg hgh] at hcode) ?_
      cases b with
      | true =>
        have hi := ((l.hart h hh).current (by simp [hf]) hc).2.1
        rwa [if_pos rfl,update_of_ne (hne hg hgh (by simp [hl]) hj hi)] at hb
      | false => exact hb
  | drop b i st x hl hc hp hw hx =>
    intro g j hg hj hcode hb
    dsimp only at hj hcode hb
    by_cases hgh : g=h
    · subst hgh
      rw [hc] at hj; cases hj
      rw [update_self] at hb
      rcases hx with rfl | ⟨rfl,rfl⟩
      · cases hb
      · exact u g i hg hc (by simp [hp]) (hw.blocked hb)
    · refine u g j hg hj (by rwa [hother hg hgh] at hcode) ?_
      have hi := ((l.hart h hh).current (by simp [hp]) hc).2.1
      rw [update_of_ne (hne hg hgh (by simp [hl,Ne.symm hgh]) hj hi)] at hb
      exact hw.blocked hb
  | choose b i n st hl hc hp hw hni hn hr =>
    intro g j hg hj hcode hb
    dsimp only at hj hcode hb
    obtain ⟨hjn,hb⟩ := blocked_update (by decide) hb
    by_cases hgh : g=h
    · subst hgh
      rw [update_self] at hj; cases hj
      exact hjn rfl
    · rw [update_of_ne hgh] at hj
      refine u g j hg hj (by rwa [hother hg hgh] at hcode) ?_
      have hi := ((l.hart h hh).current (by simp [hp]) hc).2.1
      rw [update_of_ne (hne hg hgh (by simp [hl,Ne.symm hgh]) hj hi)] at hb
      exact hw.blocked hb
  | cross p n d f hl hc hf hq hgone hnr =>
    intro g j hg hj hcode hb
    dsimp only at hj hcode hb
    by_cases hgh : g=h
    · subst hgh; exact u g j hg hj (by simp [hc]) hb
    · rw [update_of_ne hgh,hother hg hgh] at hcode
      exact u g j hg hj hcode hb
  | land hl hc =>
    intro g j hg hj hcode hb
    dsimp only at hj hcode hb
    by_cases hgh : g=h
    · subst hgh; exact u g j hg hj (by simp [hc]) hb
    · exact u g j hg hj (by rwa [hother hg hgh] at hcode) hb
  | reserve k hl hk hv hm hf =>
    intro g j hg hj hcode hb
    dsimp only at hj hcode hb
    have hfg := l.free hg (by simp [hl])
    have hjk : j≠k := by
      rintro rfl
      exact ((l.hart g hg).current (by simp [hfg]) hj).2.2 hv
    rw [update_of_ne hjk] at hb
    exact u g j hg hj hcode hb
  | giveUp k hm => exact u.states fun i hb => (blocked_update (by decide) hb).2
  | prime k w hm hw =>
    intro g j hg hj hcode hb
    dsimp only at hj hcode hb
    refine u g j hg hj ?_ hb
    obtain ⟨_,_,w',hw',hrun,_⟩ := l.make _ k hm
    rw [hw] at hw'; cases hw'
    rwa [update_of_ne (hrun g hg)] at hcode
  | publish k hl hm => exact u.states fun i hb => (blocked_update (by decide) hb).2
  | exit i n st hl hc hf hw hn hr =>
    intro g j hg hj hcode hb
    dsimp only at hj hcode hb
    obtain ⟨hjn,hb⟩ := blocked_update (by decide) hb
    obtain ⟨_,hb⟩ := blocked_update (by decide) hb
    by_cases hgh : g=h
    · subst hgh
      rw [update_self] at hj; cases hj
      exact hjn rfl
    · rw [update_of_ne hgh] at hj
      exact u g j hg hj (by rwa [hother hg hgh] at hcode) (hw.blocked hb)
  | stick st hl hw hf hc =>
    intro g j hg hj hcode hb
    dsimp only at hj hcode hb
    by_cases hgh : g=h
    · subst hgh; exact u g j hg hj (by simp [hf]) (hw.blocked hb)
    · exact u g j hg hj (by rwa [hother hg hgh] at hcode) (hw.blocked hb)
  | secondary k hl hc hk hs =>
    intro g j hg hj hcode hb
    dsimp only at hj hcode hb
    obtain ⟨hjk,hb⟩ := blocked_update (by decide) hb
    by_cases hgh : g=h
    · subst hgh
      rw [update_self] at hj; cases hj
      exact hjk rfl
    · rw [update_of_ne hgh] at hj
      exact u g j hg hj hcode hb

theorem Linked.begun (l : Linked harts v) (hs : Hand harts W h v v') {t : Nat} (ht : t<v.next)
    (hm : ∀c k,v.makes c=some (k,false) → v.thread k≠some t) :
    t<v'.next ∧ ∀c k,v'.makes c=some (k,false) → v'.thread k≠some t := by
  cases hs with
  | wake | enter | drop | choose | cross | land | exit | stick => exact ⟨ht,hm⟩
  | reserve k hl hk hv hmk hf =>
    refine ⟨Nat.lt_succ_of_lt ht,fun c j hc => ?_⟩
    dsimp only at hc ⊢
    by_cases hj : j=k
    · subst hj; rw [update_self]; simpa using (Nat.ne_of_lt ht).symm
    · rw [update_of_ne hj]
      by_cases hcr : c=v.running h
      · subst hcr; rw [update_self] at hc; cases hc; exact absurd rfl hj
      · rw [update_of_ne hcr] at hc; exact hm c j hc
  | giveUp k hmk =>
    refine ⟨ht,fun c j hc => hm c j ?_⟩
    dsimp only at hc
    by_cases hcr : c=v.running h
    · subst hcr; rw [update_self] at hc; cases hc
    · rwa [update_of_ne hcr] at hc
  | prime k u hmk hu =>
    refine ⟨ht,fun c j hc => hm c j ?_⟩
    dsimp only at hc
    by_cases hcr : c=v.running h
    · subst hcr; rw [update_self] at hc; cases hc
    · rw [update_of_ne hcr] at hc
      by_cases hcu : c=u
      · subst hcu; rw [update_self] at hc; cases hc
      · rwa [update_of_ne hcu] at hc
  | publish k hl hmk =>
    refine ⟨ht,fun c j hc => hm c j ?_⟩
    dsimp only at hc
    by_cases hcr : c=v.running h
    · subst hcr; rw [update_self] at hc; cases hc
    · rwa [update_of_ne hcr] at hc
  | secondary k hl hc hk hs =>
    refine ⟨ht,fun c j hmj => ?_⟩
    have hjk : j≠k := by
      rintro rfl
      exact (l.make c j hmj).2.1 (.inl hs)
    dsimp only
    rw [update_of_ne hjk]
    exact hm c j hmj

theorem Linked.placed (l : Linked harts v) (hh : h<harts) (hs : Hand harts W h v v') {t : Nat}
    (hp : ∀g,g<harts → v.running g=t → (v.current g).isSome) (g : Nat) (hg : g<harts)
    (hr : v'.running g=t) : (v'.current g).isSome := by
  have hcur (n : Nat) (he : v.running g=t) : (update v.current h (some n) g).isSome := by
    by_cases hgh : g=h
    · subst hgh; rw [update_self]; rfl
    · rw [update_of_ne hgh]; exact hp g hg he
  cases hs with
  | wake | enter | drop | land | stick | reserve | giveUp | prime | publish => exact hp g hg hr
  | choose b i n | exit i n | secondary n => exact hcur n hr
  | cross p n d f hl hc hf hq hgone hnr =>
    dsimp only at hr ⊢
    by_cases hgh : g=h
    · subst hgh
      rw [((l.hart g hg).cross hc).2.2.2.1]; rfl
    · rw [update_of_ne hgh] at hr
      exact hp g hg hr

end

/-- What others do to a slot: wait tokens and thread stay, and under P it may be made READY or
RUNNING. -/
def Task.Touch (P : Prop) (k k' : Task) : Prop :=
  k'.thread=k.thread ∧ k'.waitArmed=k.waitArmed ∧ k'.wakePending=k.wakePending ∧
    (k'.state=k.state ∨ P ∧ (k'.state=.ready ∨ k'.state=.running))

variable {harts h : Nat} {s s' : Sys} {P : Prop}

theorem Task.Touch.refl (k : Task) : k.Touch P k := ⟨rfl,rfl,rfl,.inl rfl⟩

theorem Task.Touch.trans {k l m : Task} (h1 : k.Touch P l) (h2 : l.Touch P m) :
    k.Touch P m := by
  obtain ⟨a1,a2,a3,a4⟩ := h1
  obtain ⟨b1,b2,b3,b4⟩ := h2
  refine ⟨b1.trans a1,b2.trans a2,b3.trans a3,?_⟩
  rcases b4 with b4 | b4
  · rwa [b4]
  · exact .inr b4

theorem touch_update {f g : Nat → Task} {i n : Nat} {t : Task} (hs : (f i).Touch P (g i))
    (ht : i=n → (g n).Touch P t) : (f i).Touch P (update g n t i) := by
  by_cases hi : i=n
  · subst hi; rw [update_self]; exact hs.trans (ht rfl)
  · rw [update_of_ne hi]; exact hs

theorem touch_one {i c : Nat} {k : Task} (hx : s'.tasks=update s.tasks c k)
    (hf : i=c → (s.tasks c).Touch P k) : (s.tasks i).Touch P (s'.tasks i) := by
  rw [hx]
  exact touch_update (.refl _) hf

theorem touch_nextRunnable (hlk : P) (now prev i : Nat) :
    (s.tasks i).Touch P ((nextRunnable now h prev s.tasks).2 i) := by
  unfold nextRunnable
  rw [(scan_spec now h _ s.tasks none (-1)).1]
  dsimp only
  split
  · unfold Task.awake
    split
    · exact ⟨rfl,rfl,rfl,.inr ⟨hlk,.inl rfl⟩⟩
    · exact .refl _
  · exact .refl _

theorem schedSwitch_touch {b : Bool} {p : Phase} {x : Sys × Out}
    (hx : schedSwitch harts h b p s=some x) {i : Nat}
    (hb : b=true → (p=.enter ∨ ∃q,p=.pick q) → s.current h≠some i) :
    (s.tasks i).Touch (s.lock=none ∨ s.lock=some h) (x.1.tasks i) := by
  cases p with
  | reapFirst r | reapLast r =>
    simp only [schedSwitch,Option.map_eq_some_iff] at hx
    obtain ⟨y,hr,rfl⟩ := hx
    dsimp only
    rw [schedReap_tasks hr]
    exact .refl _
  | enter =>
    simp only [schedSwitch] at hx
    split at hx
    · split at hx
      · cases hx
      next prev hcur =>
        have hne (hbt : b=true) (hi : i=prev) : False := hb hbt (.inl rfl) (hi ▸ hcur)
        split at hx
        next hbt =>
          split at hx <;> cases hx
          · exact touch_update (.refl _) fun hi => (hne hbt hi).elim
          · exact touch_update (touch_update (.refl _) fun hi => (hne hbt hi).elim)
              fun hi => (hne hbt hi).elim
        · cases hx; exact .refl _
    · cases hx
  | pick prepared =>
    simp only [schedSwitch] at hx
    split at hx
    next hl =>
      split at hx
      · cases hx
      next prev hcur =>
        have hlk : s.lock=none ∨ s.lock=some h := .inr hl
        have hn (j : Nat) := touch_nextRunnable (s := s) (h := h) hlk s.clock prev j
        generalize nextRunnable s.clock h prev s.tasks=r at hx hn
        obtain ⟨next,tasks⟩ := r
        dsimp only at hx hn
        cases next with
        | none =>
          dsimp only at hx
          split at hx
          next hw =>
            cases hx
            rw [Bool.and_eq_true] at hw
            exact touch_update (hn i) fun hi => (hb hw.1 (.inr ⟨_,rfl⟩) (hi ▸ hcur)).elim
          next => cases hx; exact hn i
        | some n =>
          dsimp only at hx
          split at hx
          · cases hx
            exact touch_update (hn i) fun _ => ⟨rfl,rfl,rfl,.inr ⟨hlk,.inr rfl⟩⟩
          · cases hx
            refine touch_update ?_ fun _ => ⟨rfl,rfl,rfl,.inr ⟨hlk,.inr rfl⟩⟩
            split
            · exact touch_update (hn i) fun _ => ⟨rfl,rfl,rfl,.inr ⟨hlk,.inl rfl⟩⟩
            · exact hn i
    · cases hx
  | cross prev n =>
    simp only [schedSwitch] at hx
    split at hx
    · simp only [Option.map_eq_some_iff] at hx
      obtain ⟨s1,hs1,rfl⟩ := hx
      unfold ctxSwitch at hs1
      split at hs1
      · cases hs1
      · split at hs1
        · cases hs1
          exact touch_update (.refl _) fun _ => ⟨rfl,rfl,rfl,.inl rfl⟩
        · cases hs1
    · cases hx
  | landed =>
    simp only [schedSwitch] at hx
    split at hx <;> cases hx
    exact .refl _

/-- The thread has been created to the end: its frame is primed. -/
def Begun (s : Sys) (t : Nat) : Prop := t < s.nextThread ∧
  ∀c k,(s.threads c).main.makes=some (k,false) → (s.tasks k).thread≠some t

/-- The steps that a thread takes on its own slot's wait and life. -/
def Own (m : Main) (a : Act) : Prop := a=.call .prepareBlock ∨ a=.call .waitDone ∨ m=.exiting ∨
  ∃p k,m=.block p k ∧ (p=.enter ∨ ∃q,p=.pick q)

/-- What task_unblock does to its slot. -/
def Task.unblocked (k : Task) : Task :=
  if k.state=.blocked then {k with waitArmed := false,wakeAtMs := 0,state := .ready}
  else if k.waitArmed then {k with wakePending := true} else k

/-- A task_unblock of slot i. -/
def Unblocks (i : Nat) (a : Act) (s s' : Sys) : Prop := a=.call (.unblock i) ∧ i < maxTasks ∧
  s.lock=none ∧ s'.tasks i=(s.tasks i).unblocked

theorem taskUnblock_task {pid i : Nat} (hx : taskUnblock pid s=some s') :
    s'.tasks i=s.tasks i ∨ Unblocks i (.call (.unblock pid)) s s' := by
  unfold taskUnblock at hx
  split at hx
  next hp =>
    obtain ⟨hl,rfl⟩ := locked_eq hx
    by_cases hi : i=pid
    · subst hi
      exact .inr ⟨rfl,hp,hl,update_self _ _ _⟩
    · exact .inl (update_of_ne hi _ _)
  next => cases hx; exact .inl rfl

theorem taskUnblock_threads {pid : Nat} (hx : taskUnblock pid s=some s') : s'.threads=s.threads := by
  unfold taskUnblock at hx
  split at hx
  · obtain ⟨_,rfl⟩ := locked_eq hx; rfl
  · cases hx; rfl

theorem taskExit_touch {t i : Nat} (hx : taskExit h t s=some s') (hi : s.current h≠some i) :
    (s.tasks i).Touch (s.lock=none ∨ s.lock=some h) (s'.tasks i) := by
  unfold taskExit at hx
  split at hx
  next hl =>
    split at hx
    · cases hx
    next prev hcur =>
      have hlk : s.lock=none ∨ s.lock=some h := .inl hl
      have hn (j : Nat) := touch_nextRunnable (s := s) (h := h) hlk s.clock prev j
      generalize nextRunnable s.clock h prev s.tasks=r at hx hn
      obtain ⟨next,tasks⟩ := r
      dsimp only at hx hn
      cases next with
      | none => cases hx; exact hn i
      | some n =>
        dsimp only at hx
        split at hx
        · cases hx; exact hn i
        · cases hx
          refine touch_update (touch_update (hn i) fun he => ?_)
            fun _ => ⟨rfl,rfl,rfl,.inr ⟨hlk,.inr rfl⟩⟩
          exact absurd (he ▸ hcur) hi
  next => cases hx

theorem call_task {t i : Nat} {c : Call} (hp : Begun s t) (ht : (s'.tasks i).thread=some t)
    (hr : t=s.running h → (s.current h).isSome)
    (hmine : s.current h=some i → (s.tasks i).thread=some t → t=s.running h)
    (hx : s.call harts h (s.running h) c=some s') :
    (s.tasks i).Touch (s.lock=none ∨ s.lock=some h) (s'.tasks i) ∨ Unblocks i (.call c) s s' ∨
      t=s.running h ∧ Own .user (.call c) := by
  cases c with
  | yield | block | sleep | exit =>
    cases hx
    refine .inl ?_
    first | exact .refl _ | (split <;> exact .refl _)
  | prepareBlock | waitDone =>
    simp only [Sys.call] at hx
    split at hx
    · cases hx; exact .inl (.refl _)
    next k hcur =>
      obtain ⟨_,rfl⟩ := locked_eq hx
      by_cases hik : i=k
      · subst hik
        have : (s.tasks i).thread=some t := by
          simpa [Sys.modTask] using ht
        exact .inr (.inr ⟨hmine hcur this,by simp [Own]⟩)
      · exact .inl (touch_one rfl fun he => absurd he hik)
  | blockUntil d =>
    simp only [Sys.call] at hx
    split at hx
    · cases hx; exact .inl (.refl _)
    · split at hx
      · cases hx; exact .inl (.refl _)
      · obtain ⟨_,rfl⟩ := locked_eq hx
        exact .inl (touch_one rfl fun _ => ⟨rfl,rfl,rfl,.inl rfl⟩)
  | unblock pid =>
    rcases taskUnblock_task (i := i) hx with he | hu
    · exact .inl (he ▸ .refl _)
    · obtain ⟨h1,h2⟩ := hu
      exact .inr (.inl ⟨h1,h2⟩)
  | create hart =>
    simp only [Sys.call] at hx
    split at hx
    · cases hx; exact .inl (.refl _)
    · split at hx
      · obtain ⟨_,rfl⟩ := locked_eq hx; exact .inl (.refl _)
      next k _ =>
        obtain ⟨_,rfl⟩ := locked_eq hx
        refine .inl (touch_one (c := k) rfl fun he => ?_)
        subst he
        simp only [Sys.setMain,Sys.modThread,Sys.modTask,update_self] at ht
        exact absurd (Option.some.inj ht).symm (Nat.ne_of_lt hp.1)
  | setPriority pid p =>
    cases hx
    split
    · exact .inl (touch_one rfl fun _ => ⟨rfl,rfl,rfl,.inl rfl⟩)
    · exact .inl (.refl _)
  | setAffinity pid hart =>
    simp only [Sys.call] at hx
    split at hx
    · obtain ⟨_,rfl⟩ := locked_eq hx
      exact .inl (touch_one rfl fun _ => ⟨rfl,rfl,rfl,.inl rfl⟩)
    · cases hx; exact .inl (.refl _)
  | secondaryInit =>
    simp only [Sys.call] at hx
    split at hx
    · cases hx
    next hcur =>
      split at hx
      · obtain ⟨_,rfl⟩ := locked_eq hx; exact .inl (.refl _)
      next k _ =>
        obtain ⟨_,rfl⟩ := locked_eq hx
        refine .inl (touch_one (c := k) rfl fun he => ?_)
        subst he
        simp only [Sys.modTask,update_self] at ht
        have := hr (Option.some.inj ht).symm
        rw [hcur] at this; cases this

theorem taskExit_waits {t i : Nat} (hx : taskExit h t s=some s') :
    (s'.tasks i).thread=(s.tasks i).thread ∧ (s'.tasks i).waitArmed=(s.tasks i).waitArmed ∧
      (s'.tasks i).wakePending=(s.tasks i).wakePending ∧
      ((s'.tasks i).state=.blocked → (s.tasks i).state=.blocked) := by
  by_cases hi : s.current h=some i
  · unfold taskExit at hx
    split at hx
    next hl =>
      split at hx
      · cases hx
      next prev hcur =>
        have hn := touch_nextRunnable (s := s) (h := h) trivial s.clock prev i
        generalize nextRunnable s.clock h prev s.tasks=r at hx hn
        obtain ⟨next,tasks⟩ := r
        obtain ⟨n1,n2,n3,n4⟩ := hn
        have hsame : ((tasks i).state=.blocked → (s.tasks i).state=.blocked) := fun hb => by
          rcases n4 with he | ⟨_,he | he⟩
          · rwa [← he]
          · rw [he] at hb; cases hb
          · rw [he] at hb; cases hb
        cases next with
        | none => cases hx; exact ⟨n1,n2,n3,hsame⟩
        | some n =>
          dsimp only at hx
          split at hx
          · cases hx; exact ⟨n1,n2,n3,hsame⟩
          · cases hx
            rw [hi] at hcur; cases hcur
            dsimp only [Sys.setMain,Sys.modThread,Sys.modTask]
            by_cases hin : i=n
            · subst hin
              rw [update_self,update_self]
              exact ⟨n1,n2,n3,(by rintro ⟨⟩)⟩
            · rw [update_of_ne hin,update_self]
              exact ⟨n1,n2,n3,(by rintro ⟨⟩)⟩
    next => cases hx
  · obtain ⟨n1,n2,n3,n4⟩ := taskExit_touch hx hi
    refine ⟨n1,n2,n3,fun hb => ?_⟩
    rcases n4 with he | ⟨_,he | he⟩
    · rwa [← he]
    · rw [he] at hb; cases hb
    · rw [he] at hb; cases hb

theorem mainStep_task {t i : Nat} {m : Main} {a : Act} (l : Linked harts (view s)) (hh : h<harts)
    (hi : (s.threads (s.running h)).inner=[]) (hm : (s.threads (s.running h)).main=m)
    (hp : Begun s t) (ht : (s'.tasks i).thread=some t) (hr : t=s.running h → (s.current h).isSome)
    (hx : mainStep harts h (s.running h) s m a=some s') :
    (s.tasks i).Touch (s.lock=none ∨ s.lock=some h) (s'.tasks i) ∨ Unblocks i a s s' ∨
      t=s.running h ∧ Own m a := by
  have hcode : (view s).code (s.running h)=m.code := by simp [view,Thread.code,hi,hm]
  -- the slot of the running thread
  have hmine (hc : ∀p n d,m.code≠.cross p n d) (hcur : s.current h=some i)
      (hti : (s.tasks i).thread=some t) : t=s.running h := by
    have := ((l.hart h hh).current (fun p n d he => hc p n d (hcode ▸ he)) hcur).2.1
    exact Option.some.inj (hti.symm.trans this)
  -- the slot under creation is another thread's
  have hmake {k : Nat} (hk : m.makes=some (k,false)) : (s.tasks k).thread≠some t :=
    hp.2 (s.running h) k (by rw [hm]; exact hk)
  cases m with
  | user =>
    cases a <;> try cases hx
    exact call_task hp ht hr (hmine (by intro _ _ _ he; cases he)) hx
  | start =>
    cases a <;> try cases hx
    simp only [mainStep] at hx
    split at hx <;> cases hx
    exact .inl (.refl _)
  | startReap r =>
    cases a <;> try cases hx
    simp only [mainStep,Option.map_eq_some_iff] at hx
    obtain ⟨x,hr,rfl⟩ := hx
    have := congrFun (schedReap_tasks hr) i
    exact .inl (this ▸ .refl _)
  | yield p =>
    cases a <;> try cases hx
    simp only [mainStep,Option.map_eq_some_iff] at hx
    obtain ⟨x,hr,rfl⟩ := hx
    exact .inl (schedSwitch_touch hr (by rintro ⟨⟩))
  | block p k =>
    cases a <;> try cases hx
    simp only [mainStep,Option.map_eq_some_iff] at hx
    obtain ⟨x,hr,rfl⟩ := hx
    by_cases hpk : p=.enter ∨ ∃q,p=.pick q
    · by_cases hcur : s.current h=some i
      · have hti : (s.tasks i).thread=some t := by
          rw [← (schedSwitch_calmer hr i).2.2.1]; exact ht
        refine .inr (.inr ⟨hmine (fun q n d => ?_) hcur hti,
          .inr (.inr (.inr ⟨p,k,rfl,hpk⟩))⟩)
        rcases hpk with rfl | ⟨q,rfl⟩ <;> simp [Main.code,Phase.code]
      · exact .inl (schedSwitch_touch hr fun _ _ => hcur)
    · exact .inl (schedSwitch_touch hr fun _ he => absurd he hpk)
  | idle k | clearWake | sleepArm e =>
    cases a <;> try cases hx
    simp only [mainStep] at hx
    split at hx
    · cases hx
    · first
      | (obtain ⟨_,rfl⟩ := locked_eq hx
         exact .inl (touch_one rfl fun _ => ⟨rfl,rfl,rfl,.inl rfl⟩))
      | (split at hx <;> cases hx
         exact .inl (.refl _))
  | sleep e => cases a <;> cases hx; exact .inl (.refl _)
  | alloc k hart =>
    cases a <;> cases hx
    · exact .inl (.refl _)
    · refine .inl (touch_one rfl fun he => ?_)
      subst he
      exact absurd (by simpa [Sys.setMain,Sys.modThread,Sys.modTask] using ht) (hmake rfl)
  | fill k hart st =>
    cases a <;> cases hx
    refine .inl (touch_one rfl fun he => ?_)
    subst he
    exact absurd (by simpa [Sys.setMain,Sys.modThread,Sys.modTask] using ht) (hmake rfl)
  | prime k st =>
    cases a <;> try cases hx
    simp only [mainStep] at hx
    split at hx <;> cases hx
    exact .inl (touch_one rfl fun _ => ⟨rfl,rfl,rfl,.inl rfl⟩)
  | publish k =>
    cases a <;> try cases hx
    obtain ⟨hl,rfl⟩ := locked_eq hx
    exact .inl (touch_one rfl fun _ => ⟨rfl,rfl,rfl,.inr ⟨.inl hl,.inl rfl⟩⟩)
  | exiting =>
    cases a <;> try cases hx
    by_cases hcur : s.current h=some i
    · have hti : (s.tasks i).thread=some t := by rw [← (taskExit_waits hx).1]; exact ht
      exact .inr (.inr ⟨hmine (by intro _ _ _ he; cases he) hcur hti,.inr (.inr (.inl rfl))⟩)
    · exact .inl (taskExit_touch hx hcur)
  | exitCross prev n =>
    cases a <;> try cases hx
    simp only [mainStep] at hx
    split at hx
    · simp only [Option.map_eq_some_iff] at hx
      obtain ⟨s1,hs1,rfl⟩ := hx
      have hsw : schedSwitch harts h false (.cross prev n) s=some (s1,.at_ .landed) := by
        simp only [schedSwitch,hs1]
        simp_all
      exact .inl (schedSwitch_touch hsw (by rintro ⟨⟩))
    · cases hx
  | gone | halted | bug => cases a <;> cases hx

/-- How far a thread is in a wait: it may still take the token, it is choosing another task with
the slot BLOCKED, or it left the hart or was given one again. -/
inductive Stage where
  | before
  | picking (prepared : Bool)
  | after
deriving DecidableEq

def Main.stage : Main → Stage
  | .block (.pick p) _ => .picking p
  | .block (.cross _ _) _ => .after
  | .block .landed _ => .after
  | .block (.reapLast _) _ => .after
  | _ => .before

/-- In task_block. -/
def Main.inBlock : Main → Bool
  | .block _ _ => true
  | .idle _ => true
  | _ => false

theorem setMain_other {t u : Nat} {m : Main} (hu : u≠t) : (s.setMain t m).threads u=s.threads u :=
  update_of_ne hu _ _

theorem call_threads {t u : Nat} {c : Call} (hu : u≠t) (hx : s.call harts h t c=some s') :
    s'.threads u=s.threads u := by
  cases c with
  | yield | block | sleep | exit | setPriority =>
    cases hx
    first | exact setMain_other hu | (split <;> first | exact setMain_other hu | rfl)
  | prepareBlock | waitDone =>
    simp only [Sys.call] at hx
    split at hx
    · cases hx; rfl
    · obtain ⟨_,rfl⟩ := locked_eq hx; rfl
  | blockUntil d =>
    simp only [Sys.call] at hx
    split at hx
    · cases hx; rfl
    · split at hx
      · cases hx; exact setMain_other hu
      · obtain ⟨_,rfl⟩ := locked_eq hx; exact setMain_other hu
  | unblock pid => exact congrFun (taskUnblock_threads hx) u
  | create hart =>
    simp only [Sys.call] at hx
    split at hx
    · cases hx; rfl
    · split at hx <;> obtain ⟨_,rfl⟩ := locked_eq hx
      · rfl
      · exact setMain_other hu
  | setAffinity pid hart =>
    simp only [Sys.call] at hx
    split at hx
    · obtain ⟨_,rfl⟩ := locked_eq hx; rfl
    · cases hx; rfl
  | secondaryInit =>
    simp only [Sys.call] at hx
    split at hx
    · cases hx
    · split at hx <;> (obtain ⟨_,rfl⟩ := locked_eq hx; rfl)

theorem taskExit_threads {t u : Nat} (hu : u≠t) (hx : taskExit h t s=some s') :
    s'.threads u=s.threads u := by
  unfold taskExit at hx
  split at hx
  · split at hx
    · cases hx
    next prev _ =>
      generalize nextRunnable s.clock h prev s.tasks=r at hx
      obtain ⟨next,tasks⟩ := r
      cases next with
      | none => cases hx; exact setMain_other hu
      | some n =>
        dsimp only at hx
        split at hx <;> (cases hx; exact setMain_other hu)
  · cases hx

theorem taskExit_stage {t : Nat} (hx : taskExit h t s=some s') :
    (s'.threads t).main.stage=.before := by
  have hset (x : Sys) (n : Main) : ((x.setMain t n).threads t).main=n := by
    rw [threads_setMain,if_pos rfl]
  unfold taskExit at hx
  split at hx
  · split at hx
    · cases hx
    next prev _ =>
      generalize nextRunnable s.clock h prev s.tasks=r at hx
      obtain ⟨next,tasks⟩ := r
      cases next with
      | none => cases hx; rw [hset]; rfl
      | some n =>
        dsimp only at hx
        split at hx <;> (cases hx; exact congrArg Main.stage (hset _ _))
  · cases hx

theorem schedSwitch_other {b : Bool} {p : Phase} {x : Sys × Out} {u : Nat}
    (hu : u≠s.running h) (hx : schedSwitch harts h b p s=some x) : x.1.threads u=s.threads u := by
  cases p with
  | reapFirst r | reapLast r =>
    simp only [schedSwitch,Option.map_eq_some_iff] at hx
    obtain ⟨y,hr,rfl⟩ := hx
    exact congrFun (schedReap_view hr).2.1 u
  | enter =>
    simp only [schedSwitch] at hx
    split at hx
    · split at hx
      · cases hx
      · split at hx
        · split at hx <;> (cases hx; rfl)
        · cases hx; rfl
    · cases hx
  | pick q =>
    simp only [schedSwitch] at hx
    split at hx
    · split at hx
      · cases hx
      next prev _ =>
        generalize nextRunnable s.clock h prev s.tasks=r at hx
        obtain ⟨next,tasks⟩ := r
        cases next with
        | none => dsimp only at hx; split at hx <;> (cases hx; rfl)
        | some n => dsimp only at hx; split at hx <;> (cases hx; first | rfl | (split <;> rfl))
    · cases hx
  | cross prev n =>
    simp only [schedSwitch] at hx
    split at hx
    · simp only [Option.map_eq_some_iff] at hx
      obtain ⟨s1,hs1,rfl⟩ := hx
      obtain ⟨f,_,_,ht,_⟩ := ctxSwitch_view hs1
      dsimp only
      rw [ht,update_of_ne hu]
    · cases hx
  | landed =>
    simp only [schedSwitch] at hx
    split at hx <;> cases hx
    rfl

theorem mainStep_other {u : Nat} {m : Main} {a : Act} (hu : u≠s.running h)
    (hp : ∀k st,m=.prime k st → (s.tasks k).thread≠some u)
    (hx : mainStep harts h (s.running h) s m a=some s') : s'.threads u=s.threads u := by
  cases m with
  | user =>
    cases a <;> try cases hx
    exact call_threads hu hx
  | start =>
    cases a <;> try cases hx
    simp only [mainStep] at hx
    split at hx <;> cases hx
    exact setMain_other hu
  | startReap r =>
    cases a <;> try cases hx
    simp only [mainStep,Option.map_eq_some_iff] at hx
    obtain ⟨x,hr,rfl⟩ := hx
    rw [setMain_other hu,(schedReap_view hr).2.1]
  | yield p | block p k =>
    cases a <;> try cases hx
    simp only [mainStep,Option.map_eq_some_iff] at hx
    obtain ⟨x,hr,rfl⟩ := hx
    rw [setMain_other hu,schedSwitch_other hu hr]
  | idle k | clearWake | sleepArm e =>
    cases a <;> try cases hx
    simp only [mainStep] at hx
    split at hx
    · cases hx
    · first
      | (obtain ⟨_,rfl⟩ := locked_eq hx; exact setMain_other hu)
      | (split at hx <;> cases hx; exact setMain_other hu)
  | sleep e => cases a <;> cases hx; exact setMain_other hu
  | alloc k hart => cases a <;> cases hx <;> exact setMain_other hu
  | fill k hart st => cases a <;> cases hx; exact setMain_other hu
  | prime k st =>
    cases a <;> try cases hx
    simp only [mainStep] at hx
    split at hx <;> cases hx
    next v hv =>
      have huv : u≠v := by
        rintro rfl
        exact hp k st rfl hv
      rw [setMain_other hu]
      exact update_of_ne huv _ _
  | publish k =>
    cases a <;> try cases hx
    obtain ⟨hl,rfl⟩ := locked_eq hx
    exact setMain_other hu
  | exiting =>
    cases a <;> try cases hx
    exact taskExit_threads hu hx
  | exitCross prev n =>
    cases a <;> try cases hx
    simp only [mainStep] at hx
    split at hx
    · simp only [Option.map_eq_some_iff] at hx
      obtain ⟨s1,hs1,rfl⟩ := hx
      obtain ⟨f,_,_,ht,_⟩ := ctxSwitch_view hs1
      rw [setMain_other hu,ht,update_of_ne hu]
    · cases hx
  | gone | halted | bug => cases a <;> cases hx

theorem innerStep_task {i : Inner} {rest : List Inner} {a : Act} (j : Nat)
    (hx : innerStep harts h (s.running h) s rest i a=some s') :
    (∀u,(s'.threads u).main=(s.threads u).main) ∧
      ((s.tasks j).Touch (s.lock=none ∨ s.lock=some h) (s'.tasks j) ∨ Unblocks j a s s') ∧
      a≠.call .prepareBlock ∧ a≠.call .waitDone := by
  cases i with
  | yield p =>
    cases a <;> try cases hx
    simp only [innerStep,Option.map_eq_some_iff] at hx
    obtain ⟨x,hr,rfl⟩ := hx
    exact ⟨fun u => by rw [threads_setInner,(schedSwitch_threads hr u).2.1],
      .inl (schedSwitch_touch hr (by rintro ⟨⟩)),(by rintro ⟨⟩),(by rintro ⟨⟩)⟩
  | isr =>
    cases a with
    | call c =>
      cases c <;> try cases hx
      · exact ⟨threads_setInner _ _,.inl (.refl _),(by rintro ⟨⟩),(by rintro ⟨⟩)⟩
      next pid =>
        refine ⟨fun u => by rw [taskUnblock_threads hx],?_,(by rintro ⟨⟩),(by rintro ⟨⟩)⟩
        rcases taskUnblock_task (i := j) hx with he | hu
        · exact .inl (he ▸ .refl _)
        · exact .inr hu
    | ret => cases hx; exact ⟨threads_setInner _ _,.inl (.refl _),(by rintro ⟨⟩),(by rintro ⟨⟩)⟩
    | go | interrupt | noMemory | advance => cases hx

theorem mainStep_stage {m : Main} {a : Act} (hm : (s.threads (s.running h)).main=m)
    (hx : mainStep harts h (s.running h) s m a=some s') (ho : ¬Own m a) :
    m.inBlock=true ∧ (s'.threads (s.running h)).main.inBlock=false ∨
      (s'.threads (s.running h)).main.stage=m.stage := by
  have hset (x : Sys) (n : Main) : ((x.setMain (s.running h) n).threads (s.running h)).main=n := by
    rw [threads_setMain,if_pos rfl]
  have hgo {x : Sys} {n : Main} {g : Stage} (hn : n.stage=g) (ht : x.threads=update s.threads
      (s.running h) {s.threads (s.running h) with main := n}) :
      (x.threads (s.running h)).main.stage=g := by rw [ht,update_self]; exact hn
  cases m with
  | user =>
    refine .inr ?_
    cases a <;> try cases hx
    next c =>
      change s.call harts h (s.running h) c=some s' at hx
      cases c with
      | yield | block | sleep | exit | setPriority =>
        cases hx
        first
        | (rw [hset]; first | rfl | (split <;> rfl))
        | (split <;> first | (rw [hset]; rfl) | exact congrArg Main.stage hm)
      | prepareBlock | waitDone => simp [Own] at ho
      | blockUntil d =>
        simp only [Sys.call] at hx
        split at hx
        · cases hx; rw [hm]
        · split at hx
          · cases hx; rw [hset]; rfl
          · obtain ⟨_,rfl⟩ := locked_eq hx; rw [hset]; rfl
      | unblock pid => rw [taskUnblock_threads hx,hm]
      | create hart =>
        simp only [Sys.call] at hx
        split at hx
        · cases hx; rw [hm]
        · split at hx <;> obtain ⟨_,rfl⟩ := locked_eq hx
          · rw [hm]
          · exact hgo (n := .alloc _ hart) rfl rfl
      | setAffinity pid hart =>
        simp only [Sys.call] at hx
        split at hx
        · obtain ⟨_,rfl⟩ := locked_eq hx; exact congrArg Main.stage hm
        · cases hx; rw [hm]
      | secondaryInit =>
        simp only [Sys.call] at hx
        split at hx
        · cases hx
        · split at hx <;> (obtain ⟨_,rfl⟩ := locked_eq hx; exact congrArg Main.stage hm)
  | start =>
    cases a <;> try cases hx
    simp only [mainStep] at hx
    split at hx <;> cases hx
    exact .inr (hgo (n := .startReap .take) rfl rfl)
  | startReap r =>
    cases a <;> try cases hx
    simp only [mainStep,Option.map_eq_some_iff] at hx
    obtain ⟨x,hr,rfl⟩ := hx
    rw [hset]
    exact .inr (by split <;> rfl)
  | yield p =>
    cases a <;> try cases hx
    simp only [mainStep,Option.map_eq_some_iff] at hx
    obtain ⟨x,hr,rfl⟩ := hx
    rw [hset]
    cases x.2 <;> exact .inr rfl
  | block p k =>
    cases a <;> try cases hx
    simp only [mainStep,Option.map_eq_some_iff] at hx
    obtain ⟨x,hr,rfl⟩ := hx
    rw [hset]
    cases p with
    | enter | pick q => simp [Own] at ho
    | reapFirst r =>
      simp only [schedSwitch,Option.map_eq_some_iff] at hr
      obtain ⟨y,_,rfl⟩ := hr
      dsimp only
      split <;> exact .inr rfl
    | cross p n =>
      simp only [schedSwitch] at hr
      split at hr
      · simp only [Option.map_eq_some_iff] at hr
        obtain ⟨y,_,rfl⟩ := hr
        exact .inr rfl
      · cases hr
    | landed =>
      simp only [schedSwitch] at hr
      split at hr <;> cases hr
      exact .inr rfl
    | reapLast r =>
      simp only [schedSwitch,Option.map_eq_some_iff] at hr
      obtain ⟨y,_,rfl⟩ := hr
      dsimp only
      split
      · cases k <;> exact .inl ⟨rfl,rfl⟩
      · exact .inr rfl
  | idle k =>
    cases a <;> try cases hx
    simp only [mainStep] at hx
    split at hx
    · cases hx
    · split at hx <;> cases hx
      rw [hset]
      cases k <;> exact .inl ⟨rfl,rfl⟩
  | clearWake | sleepArm e =>
    cases a <;> try cases hx
    simp only [mainStep] at hx
    split at hx
    · cases hx
    · obtain ⟨_,rfl⟩ := locked_eq hx
      rw [hset]
      exact .inr rfl
  | sleep e => cases a <;> cases hx; rw [hset]; exact .inr (by split <;> rfl)
  | alloc k hart =>
    cases a <;> cases hx
    · exact .inr (hgo (n := .fill k hart s.nextStack) rfl rfl)
    · exact .inr (hgo (n := .user) rfl rfl)
  | fill k hart st => cases a <;> cases hx; rw [hset]; exact .inr rfl
  | prime k st =>
    cases a <;> try cases hx
    simp only [mainStep] at hx
    split at hx <;> cases hx
    rw [hset]
    exact .inr rfl
  | publish k =>
    cases a <;> try cases hx
    obtain ⟨hl,rfl⟩ := locked_eq hx
    rw [hset]
    exact .inr rfl
  | exiting => simp [Own] at ho
  | exitCross prev n =>
    cases a <;> try cases hx
    simp only [mainStep] at hx
    split at hx
    · simp only [Option.map_eq_some_iff] at hx
      obtain ⟨s1,hs1,rfl⟩ := hx
      rw [hset]
      exact .inr rfl
    · cases hx
  | gone | halted | bug => cases a <;> cases hx

/-- Whether thread t is between its task_prepare_block and its next one, its task_wait_done or the
return of its block, and if so whether its slot was woken since. -/
def watch (h : Nat) (a : Act) (s s' : Sys) (w : Nat → Option Bool) (t : Nat) : Option Bool :=
  if (s.threads t).main.inBlock && !(s'.threads t).main.inBlock then none
  else match a with
    | .call .prepareBlock => if s.running h=t ∧ (s.current h).isSome then some false else w t
    | .call .waitDone => if s.running h=t then none else w t
    | .call (.unblock pid) =>
      if pid < maxTasks ∧ (s.tasks pid).thread=some t then (w t).map fun _ => true else w t
    | _ => w t

/-- What the slot of a thread in such a wait looks like, and what it looks like once it was woken. -/
def Waits (g : Stage) (b : Bool) (k : Task) : Prop :=
  match g with
  | .before => k.state≠.blocked ∧ k.waitArmed=true ∧ (b=true → k.wakePending=true)
  | .picking p => p=true ∧ b=false ∧ k.state=.blocked
  | .after => k.state=.ready ∨ k.state=.running ∨ b=false ∧ k.state=.blocked

theorem Waits.touch {g : Stage} {b : Bool} {k k' : Task} (hw : Waits g b k) (ht : k.Touch P k')
    (hp : ∀p,g=.picking p → ¬P) : Waits g b k' := by
  obtain ⟨_,h2,h3,h4⟩ := ht
  cases g with
  | before =>
    obtain ⟨w1,w2,w3⟩ := hw
    refine ⟨?_,h2.trans w2,fun hb => h3.trans (w3 hb)⟩
    rcases h4 with he | ⟨_,he | he⟩ <;> rw [he]
    · exact w1
    · rintro ⟨⟩
    · rintro ⟨⟩
  | picking p =>
    obtain ⟨w1,w2,w3⟩ := hw
    rcases h4 with he | ⟨hlk,_⟩
    · exact ⟨w1,w2,he.trans w3⟩
    · exact absurd hlk (hp p rfl)
  | after =>
    rcases h4 with he | ⟨_,he | he⟩
    · unfold Waits at hw ⊢; dsimp only at hw ⊢; rwa [he]
    · exact .inl he
    · exact .inr (.inl he)

theorem Waits.unblocked {g : Stage} {b : Bool} {k : Task} (hw : Waits g b k)
    (hp : ∀p,g≠.picking p) : Waits g true k.unblocked := by
  unfold Task.unblocked
  cases g with
  | before =>
    obtain ⟨w1,w2,_⟩ := hw
    rw [if_neg w1,if_pos w2]
    exact ⟨w1,w2,fun _ => rfl⟩
  | picking p => exact absurd rfl (hp p)
  | after =>
    split
    · exact .inl rfl
    next hb =>
      have : k.state=.ready ∨ k.state=.running := by
        rcases hw with hw | hw | ⟨_,hw⟩
        · exact .inl hw
        · exact .inr hw
        · exact absurd hw hb
      split
      · rcases this with hw | hw
        · exact .inl hw
        · exact .inr (.inl hw)
      · rcases this with hw | hw
        · exact .inl hw
        · exact .inr (.inl hw)

/-- What holds of every watched thread along a run. -/
structure Watched (harts : Nat) (s : Sys) (w : Nat → Option Bool) : Prop where
  sound : Sound harts s
  upright : Upright harts (view s)
  begun : ∀t,w t≠none → Begun s t
  placed : ∀t g,w t≠none → g<harts → s.running g=t → (s.current g).isSome
  waits : ∀t i b,w t=some b → (s.tasks i).thread=some t → Waits (s.threads t).main.stage b (s.tasks i)

theorem stage_picking {m : Main} {p : Bool} (hp : m.stage=.picking p) : ∃k,m=.block (.pick p) k := by
  unfold Main.stage at hp
  split at hp <;> cases hp
  next k => exact ⟨k,rfl⟩

theorem Sound.picking (hs : Sound harts s) {t : Nat} {p : Bool}
    (hp : (s.threads t).main.stage=.picking p) :
    (s.threads t).inner=[] ∧ ∃g,g<harts ∧ s.running g=t ∧ s.lock=some g := by
  obtain ⟨k,hm⟩ := stage_picking hp
  have hin : (s.threads t).inner=[] := by
    by_contra hn
    have := (hs.calm t).2 hn
    rw [hm] at this; cases this
  have hcode : (view s).code t=.pick true := by simp [view,Thread.code,hin,hm,Main.code,Phase.code]
  have hrun : ∃g,g<harts ∧ (view s).running g=t := by
    by_contra hn
    have := hs.linked.parked t fun g hg he => hn ⟨g,hg,he⟩
    rw [hcode] at this; cases this
  obtain ⟨g,hg,hr⟩ := hrun
  refine ⟨hin,g,hg,hr,(hs.linked.lockCode g hg).1 ?_⟩
  rw [hr,hcode]; rintro ⟨⟩

theorem watch_open {a : Act} {w : Nat → Option Bool} {t : Nat} (hw : watch h a s s' w t≠none) :
    w t≠none ∨ s.running h=t ∧ (s.current h).isSome ∧ a=.call .prepareBlock := by
  unfold watch at hw
  split at hw
  · exact absurd rfl hw
  · split at hw
    · split at hw
      next ho => exact .inr ⟨ho.1,ho.2,rfl⟩
      next => exact .inl hw
    · split at hw
      · exact absurd rfl hw
      · exact .inl hw
    · split at hw
      · refine .inl fun he => hw ?_
        rw [he]; rfl
      · exact .inl hw
    · exact .inl hw

theorem step_unblock {i : Nat} (hx : step harts h (.call (.unblock i)) s=some s') :
    s'.threads=s.threads ∧ (i < maxTasks ∧ s.lock=none ∧ s'.tasks i=(s.tasks i).unblocked ∨
      ¬i < maxTasks ∧ s'.tasks i=s.tasks i) := by
  have hun : taskUnblock i s=some s' := by
    obtain ⟨_,⟨ha,_⟩ | ⟨ha,_⟩ | ⟨j,rest,_,hx⟩ | ⟨_,hx⟩⟩ := step_cases hx
    · cases ha
    · cases ha
    · cases j <;> first | exact hx | cases hx
    · cases hm : (s.threads (s.running h)).main <;> rw [hm] at hx <;> first | exact hx | cases hx
  refine ⟨taskUnblock_threads hun,?_⟩
  unfold taskUnblock at hun
  split at hun
  next hi =>
    obtain ⟨hl,rfl⟩ := locked_eq hun
    exact .inl ⟨hi,hl,update_self _ _ _⟩
  next hi => cases hun; exact .inr ⟨hi,rfl⟩

theorem Watched.quiet {w : Nat → Option Bool} (hw : Watched harts s w) {a : Act}
    (hx : step harts h a s=some s') {t i : Nat} {b : Bool} (hb : watch h a s s' w t=some b)
    (ht : (s'.tasks i).thread=some t) (ha : ¬(s.running h=t ∧ a=.call .prepareBlock))
    (hst : (s'.threads t).main.stage=(s.threads t).main.stage)
    (hlk : ∀p,(s.threads t).main.stage=.picking p → ¬P)
    (he : (s.tasks i).Touch P (s'.tasks i) ∨ Unblocks i a s s') :
    Waits (s'.threads t).main.stage b (s'.tasks i) := by
  rw [hst]
  by_cases hau : a=.call (.unblock i)
  · subst hau
    obtain ⟨hth,⟨hi,hl,hk⟩ | ⟨hi,hk⟩⟩ := step_unblock hx
    · have hti : (s.tasks i).thread=some t := by
        rw [hk] at ht
        unfold Task.unblocked at ht
        split at ht
        · exact ht
        · split at ht <;> exact ht
      unfold watch at hb
      rw [hth,Bool.and_not_self,if_neg (by decide)] at hb
      dsimp only at hb
      rw [if_pos ⟨hi,hti⟩,Option.map_eq_some_iff] at hb
      obtain ⟨c,hc,rfl⟩ := hb
      rw [hk]
      refine (hw.waits t i c hc hti).unblocked fun p hp => ?_
      obtain ⟨_,g,_,_,hlg⟩ := hw.sound.picking hp
      rw [hl] at hlg; cases hlg
    · rw [hk] at ht ⊢
      unfold watch at hb
      rw [hth,Bool.and_not_self,if_neg (by decide)] at hb
      dsimp only at hb
      rw [if_neg fun hc => hi hc.1] at hb
      exact hw.waits t i b hb ht
  · have htouch : (s.tasks i).Touch P (s'.tasks i) := by
      rcases he with he | ⟨he,_⟩
      · exact he
      · exact absurd he hau
    have hti : (s.tasks i).thread=some t := htouch.1.symm.trans ht
    have hwb : w t=some b := by
      unfold watch at hb
      split at hb
      · cases hb
      · split at hb
        · split at hb
          next ho => exact absurd ⟨ho.1,rfl⟩ ha
          next => exact hb
        · split at hb
          · cases hb
          · exact hb
        next pid =>
          split at hb
          next hp =>
            have := hw.sound.linked.thrInj pid i t hp.2 hti
            subst this
            exact absurd rfl hau
          next => exact hb
        · exact hb
    exact (hw.waits t i b hwb hti).touch htouch hlk

theorem Watched.own {w : Nat → Option Bool} (hw : Watched harts s w) (hh : h<harts) {a : Act}
    (hi : (s.threads (s.running h)).inner=[]) {i : Nat} {b : Bool}
    (hx : mainStep harts h (s.running h) s (s.threads (s.running h)).main a=some s')
    (ho : Own (s.threads (s.running h)).main a) (hb : watch h a s s' w (s.running h)=some b)
    (ht : (s'.tasks i).thread=some (s.running h)) :
    Waits (s'.threads (s.running h)).main.stage b (s'.tasks i) := by
  generalize hm : (s.threads (s.running h)).main=m at hx ho
  have hcode : (view s).code (s.running h)=m.code := by simp [view,Thread.code,hi,hm]
  have hcur (hc : ∀p n d,m.code≠.cross p n d) (hti : (s.tasks i).thread=some (s.running h)) :
      s.current h=some i := hw.sound.linked.slot hh (fun p n d he => hc p n d (hcode ▸ he)) hti
  rcases ho with rfl | rfl | rfl | ⟨p,k,rfl,hpk⟩
  · cases m <;> try cases hx
    change s.call harts h (s.running h) .prepareBlock=some s' at hx
    simp only [Sys.call] at hx
    split at hx
    next hno =>
      cases hx
      have := hcur (by intro _ _ _ he; cases he) ht
      rw [hno] at this; cases this
    next c hc =>
      obtain ⟨hl,rfl⟩ := locked_eq hx
      have hci : c=i := by
        by_contra hne
        have hti : (s.tasks i).thread=some (s.running h) := by
          rw [← ht]; exact congrArg Task.thread (update_of_ne (Ne.symm hne) _ _).symm
        have := hcur (by intro _ _ _ he; cases he) hti
        rw [hc] at this
        exact hne (Option.some.inj this)
      subst hci
      have hst : (s.tasks c).state≠.blocked :=
        hw.upright h c hh hc (by rw [show (view s).code ((view s).running h)=_ from hcode]; rintro ⟨⟩)
      unfold watch at hb
      rw [show (s.modTask c _).threads=s.threads from rfl,Bool.and_not_self,if_neg (by decide)] at hb
      dsimp only at hb
      rw [if_pos ⟨rfl,by rw [hc]; rfl⟩] at hb
      cases hb
      dsimp only [Sys.modTask]
      rw [hm,update_self]
      exact ⟨hst,rfl,(by rintro ⟨⟩)⟩
  · unfold watch at hb
    split at hb
    · cases hb
    · dsimp only at hb
      rw [if_pos rfl] at hb
      cases hb
  · cases a <;> try cases hx
    obtain ⟨h1,h2,h3,h4⟩ := taskExit_waits (i := i) hx
    have hwb : w (s.running h)=some b := by
      unfold watch at hb
      split at hb
      · cases hb
      · exact hb
    have hold := hw.waits _ i b hwb (h1.symm.trans ht)
    rw [hm] at hold
    obtain ⟨w1,w2,w3⟩ := hold
    rw [taskExit_stage hx]
    exact ⟨fun he => w1 (h4 he),h2.trans w2,fun he => h3.trans (w3 he)⟩
  · cases a <;> try cases hx
    simp only [mainStep,Option.map_eq_some_iff] at hx
    obtain ⟨x,hr,rfl⟩ := hx
    have hset : ((x.1.setMain (s.running h) (x.2.block k)).threads (s.running h)).main=x.2.block k := by
      rw [threads_setMain,if_pos rfl]
    have hwb : w (s.running h)=some b ∧ (x.2.block k).inBlock=true := by
      unfold watch at hb
      rw [hset,hm] at hb
      cases hin : (x.2.block k).inBlock with
      | true => rw [hin] at hb; exact ⟨hb,rfl⟩
      | false => rw [hin] at hb; cases hb
    obtain ⟨hwb,hin⟩ := hwb
    have hti : (s.tasks i).thread=some (s.running h) := by
      rw [← (schedSwitch_calmer hr i).2.2.1]; exact ht
    have hold := hw.waits _ i b hwb hti
    rw [hm] at hold
    rw [hset]
    change Waits _ b (x.1.tasks i)
    rcases hpk with rfl | ⟨q,rfl⟩
    · have hc := hcur (by intro _ _ _ he; cases he) hti
      simp only [schedSwitch,hc,if_true] at hr
      split at hr
      · split at hr
        · cases hr; cases k <;> cases hin
        next hwk =>
          cases hr
          obtain ⟨_,w2,w3⟩ := hold
          dsimp only [Out.block,Sys.modTask]
          rw [update_self,update_self]
          refine ⟨w2,?_,rfl⟩
          by_contra hbt
          exact hwk (w3 (by simpa using hbt))
      · cases hr
    · have hc := hcur (by simp [Main.code,Phase.code]) hti
      simp only [schedSwitch,hc] at hr
      obtain ⟨rfl,rfl,hst⟩ := hold
      split at hr
      · have hn := nextRunnable_woke (W := fun _ => True) (h := h) (s := s) (fun _ _ => trivial) s.clock i i
        generalize nextRunnable s.clock h i s.tasks=r at hr hn
        obtain ⟨next,tasks⟩ := r
        have hor : (tasks i).state=.blocked ∨ (tasks i).state=.ready := by
          rcases hn with he | ⟨_,_,he⟩
          · exact .inl (he.trans hst)
          · exact .inr he
        have hne : (tasks i).state≠.running := by rcases hor with he | he <;> rw [he] <;> rintro ⟨⟩
        cases next with
        | none =>
          have hif : (true && (tasks i).state != .running)=true := by simpa using hne
          dsimp only at hr
          rw [hif,if_pos rfl] at hr
          cases hr
          dsimp only [Out.block,Sys.modTask]
          rw [update_self]
          exact ⟨(by rintro ⟨⟩),rfl,(by rintro ⟨⟩)⟩
        | some n =>
          dsimp only at hr
          split at hr
          · cases hr; cases k <;> cases hin
          next hni =>
            cases hr
            dsimp only [Out.block,Sys.modTask]
            rw [update_of_ne (Ne.symm hni)]
            rcases hor with he | he
            · exact .inr (.inr ⟨rfl,he⟩)
            · exact .inl he
      · cases hr

theorem Watched.step {w : Nat → Option Bool} (hw : Watched harts s w) {a : Act}
    (hx : step harts h a s=some s') : Watched harts s' (watch h a s s' w) := by
  obtain ⟨hh,hv,_⟩ := step_shows hw.sound.linked hw.sound.calm hx
  have hl := hw.sound.linked
  have hopen {t : Nat} (ht : watch h a s s' w t≠none) : Begun s t ∧
      ∀g,g<harts → s.running g=t → (s.current g).isSome := by
    rcases watch_open ht with ho | ⟨rfl,hcur,_⟩
    · exact ⟨hw.begun t ho,fun g hg hr => hw.placed t g ho hg hr⟩
    · refine ⟨⟨hl.runLt h hh,fun c k hc hk => ?_⟩,fun g hg hr => ?_⟩
      · obtain ⟨_,_,u,hu,hr,_⟩ := hl.make c k hc
        have hk : (view s).thread k=some (s.running h) := hk
        rw [hu] at hk
        exact hr h hh (Option.some.inj hk).symm
      · rwa [hl.inj g h hg hh hr]
  refine ⟨hw.sound.step hx,?_,fun t ht => ?_,fun t g ht hg hr => ?_,fun t i b hb ht => ?_⟩
  · rcases hv with he | hand
    · rw [he]; exact hw.upright
    · exact hw.upright.hand hl hh hand
  · obtain ⟨h1,h2⟩ := (hopen ht).1
    have : t<(view s').next ∧ ∀c k,(view s').makes c=some (k,false) → (view s').thread k≠some t := by
      rcases hv with he | hand
      · rw [he]; exact ⟨h1,h2⟩
      · exact hl.begun hand h1 h2
    exact this
  · have hp := (hopen ht).2
    have : ((view s').current g).isSome := by
      rcases hv with he | hand
      · have hr : (view s').running g=t := hr
        rw [he] at hr ⊢; exact hp g hg hr
      · exact hl.placed hh hand hp g hg hr
    exact this
  · obtain ⟨hbg,hpl⟩ := hopen (t := t) (by rw [hb]; rintro ⟨⟩)
    obtain ⟨_,⟨rfl,rfl⟩ | ⟨rfl,_,rfl⟩ | ⟨j,rest,hj,hx'⟩ | ⟨hi,hx'⟩⟩ := step_cases hx
    · exact hw.quiet (P := False) hx hb ht (fun he => by cases he.2) rfl (fun _ _ => id) (.inl (.refl _))
    · exact hw.quiet (P := False) hx hb ht (fun he => by cases he.2) (by rw [threads_setInner]) (fun _ _ => id)
        (.inl (.refl _))
    · obtain ⟨hmain,he,hna,_⟩ := innerStep_task i hx'
      refine hw.quiet hx hb ht (fun hc => hna hc.2) (by rw [hmain]) (fun p hp => ?_) he
      obtain ⟨hin,g,hg,hr,hlg⟩ := hw.sound.picking hp
      rintro (h1 | h1) <;> rw [hlg] at h1 <;> cases h1
      rw [hr,hin] at hj; cases hj
    · have htask := mainStep_task hl hh hi rfl hbg ht (fun he => hpl h hh he.symm) hx'
      by_cases htr : t=s.running h
      · subst htr
        by_cases ho : Own (s.threads (s.running h)).main a
        · exact hw.own hh hi hx' ho hb ht
        · rcases mainStep_stage rfl hx' ho with ⟨h1,h2⟩ | hst
          · unfold watch at hb
            rw [h1,h2] at hb; cases hb
          · refine hw.quiet (P := s.lock=none ∨ s.lock=some h) hx hb ht
              (fun hc => ho (.inl hc.2)) hst (fun p hp => ?_) ?_
            · obtain ⟨k,hk⟩ := stage_picking hp
              exact absurd (.inr (.inr (.inr ⟨_,k,hk,.inr ⟨p,rfl⟩⟩))) ho
            · rcases htask with he | he | ⟨_,he⟩
              · exact .inl he
              · exact .inr he
              · exact absurd he ho
      · refine hw.quiet (P := s.lock=none ∨ s.lock=some h) hx hb ht (fun hc => htr hc.1.symm)
          (by rw [mainStep_other htr (fun k st hm => hbg.2 _ k (by rw [hm]; rfl)) hx']) (fun p hp => ?_) ?_
        · obtain ⟨_,g,hg,hr,hlg⟩ := hw.sound.picking hp
          rintro (h1 | h1) <;> rw [hlg] at h1 <;> cases h1
          exact htr hr.symm
        · rcases htask with he | he | ⟨he,_⟩
          · exact .inl he
          · exact .inr he
          · exact absurd he htr

/-- The steps of the harts, with the windows of all threads. -/
def Watches (harts : Nat) (x : Sys × (Nat → Option Bool)) (e : Nat × Act)
    (y : Sys × (Nat → Option Bool)) : Prop :=
  step harts e.1 e.2 x.1=some y.1 ∧ y.2=watch e.1 e.2 x.1 y.1 x.2

theorem reach_watched {hist : List (Nat × Act)} {w : Nat → Option Bool}
    (hr : Reach (Watches harts) (schedInit harts,fun _ => none) hist (s,w)) : Watched harts s w := by
  refine hr.invariant (fun _ x => Watched harts x.1 x.2) ?_ fun _ x e y hw he => ?_
  · refine ⟨schedInit_sound harts,fun g i hg hi _ => ?_,fun _ h => absurd rfl h,
      fun _ _ h => absurd rfl h,fun _ _ _ h => by cases h⟩
    have hi : (if g=0 then some 0 else none)=some i := hi
    split at hi
    · cases hi; simp [view,schedInit]
    · cases hi
  · rw [he.2]; exact Watched.step hw he.1

/-- The wake outlasts whatever comes between it and the block of thread t in slot i: the slot is
not BLOCKED, a block not yet under the lock has the token and returns at once, a thread in the idle
loop leaves it, and one that was switched away is READY or RUNNING. -/
structure Woken (harts : Nat) (s : Sys) (t i : Nat) : Prop where
  state : (s.tasks i).state≠.blocked
  token : (s.threads t).main.stage=.before → (s.tasks i).wakePending=true
  enters : ∀h k,h<harts → s.running h=t → (s.threads t).inner=[] → s.lock=none →
    (s.threads t).main=.block .enter k → step harts h .go s=some
      ((s.modTask i fun t => {t with waitArmed := false,wakePending := false}).setMain t k.next)
  choosing : ∀p,(s.threads t).main.stage≠.picking p
  idles : ∀h k,h<harts → s.running h=t → (s.threads t).inner=[] → (s.threads t).main=.idle k →
    step harts h .go s=some (s.setMain t k.next)
  ready : (s.threads t).main.stage=.after → (s.tasks i).state=.ready ∨ (s.tasks i).state=.running

theorem Watched.woken {w : Nat → Option Bool} (hk : Watched harts s w) {t i : Nat}
    (hw : w t=some true) (ht : (s.tasks i).thread=some t) : Woken harts s t i := by
  have hwt := hk.waits t i true hw ht
  have hcur {h : Nat} (hh : h<harts) (hrun : s.running h=t) (hin : (s.threads t).inner=[])
      (hc : (s.threads t).main.code=.free) : s.current h=some i := by
    subst hrun
    have hcode : (view s).code ((view s).running h)=.free := by simpa [view,Thread.code,hin] using hc
    exact hk.sound.linked.slot hh (by simp [hcode]) ht
  refine ⟨?_,fun hg => ?_,fun h k hh hrun hin hl hm => ?_,fun p hg => ?_,fun h k hh hrun hin hm => ?_,
    fun hg => ?_⟩
  · cases hg : (s.threads t).main.stage <;> rw [hg] at hwt
    · exact hwt.1
    · exact absurd hwt.2.1 (by rintro ⟨⟩)
    · rcases hwt with he | he | ⟨he,_⟩
      · rw [he]; rintro ⟨⟩
      · rw [he]; rintro ⟨⟩
      · cases he
  · rw [hg] at hwt; exact hwt.2.2 rfl
  · have hc := hcur hh hrun hin (by rw [hm]; rfl)
    rw [hm] at hwt
    subst hrun
    simp only [Sched.step,hh,if_true,hin,hm,mainStep,schedSwitch,hl,hc,hwt.2.2 rfl,Option.map_some]
    rfl
  · rw [hg] at hwt; exact absurd hwt.2.1 (by rintro ⟨⟩)
  · have hc := hcur hh hrun hin (by rw [hm]; rfl)
    rw [hm] at hwt
    subst hrun
    simp only [Sched.step,hh,if_true,hin,hm,mainStep,hc,hwt.2.2 rfl,true_or,or_true]
  · rw [hg] at hwt
    rcases hwt with he | he | ⟨he,_⟩
    · exact .inl he
    · exact .inr he
    · cases he

/-- One step with the windows, computed. -/
def watchStep (harts : Nat) (e : Nat × Act) (x : Sys × (Nat → Option Bool)) :
    Option (Sys × (Nat → Option Bool)) :=
  (step harts e.1 e.2 x.1).map fun s => (s,watch e.1 e.2 x.1 s x.2)

theorem watches_watchStep (x : Sys × (Nat → Option Bool)) (e : Nat × Act)
    (y : Sys × (Nat → Option Bool)) (hx : watchStep harts e x=some y) : Watches harts x e y := by
  unfold watchStep at hx
  rw [Option.map_eq_some_iff] at hx
  obtain ⟨s1,hs,rfl⟩ := hx
  exact ⟨hs,rfl⟩

/-- Hart h executes thread t of slot i in the loop of task_block. The thread prepared, called
task_block_until_ms with a deadline, and nothing else was runnable; the clock has reached the
deadline. -/
structure Overdue (harts : Nat) (s : Sys) (w : Nat → Option Bool) (h t i : Nat) : Prop where
  hart : h<harts
  runs : s.running h=t
  slot : (s.tasks i).thread=some t
  own : (s.threads t).inner=[]
  loops : (s.threads t).main=.idle .clear
  prepared : w t≠none
  bounded : (s.tasks i).wakeAtMs≠0
  reached : (s.tasks i).wakeAtMs ≤ s.clock

/-- What the loop looks at besides wait_armed: the token, and the READY tasks of the hart. -/
def MayLeave (s : Sys) (h i : Nat) : Prop :=
  (s.tasks i).wakePending=true ∨ schedPeekRunnable h s.tasks=true

instance (s : Sys) (h i : Nat) : Decidable (MayLeave s h i) :=
  inferInstanceAs (Decidable (_ ∨ _))

theorem overdue_turn {w : Nat → Option Bool} (hw : Watched harts s w) {t i : Nat}
    (ho : Overdue harts s w h t i) :
    step harts h .go s=if MayLeave s h i then some (s.setMain t .clearWake) else none := by
  obtain ⟨b,hb⟩ := Option.ne_none_iff_exists'.mp ho.prepared
  have hwaits := hw.waits t i b hb ho.slot
  rw [ho.loops] at hwaits
  have harmed : (s.tasks i).waitArmed=true := hwaits.2.1
  have hcur : s.current h=some i := by
    have hcode : (view s).code ((view s).running h)=.free := by
      simp [view,Thread.code,ho.runs,ho.own,ho.loops,Main.code]
    have hslot : (view s).thread i=some ((view s).running h) :=
      ho.slot.trans (by rw [← ho.runs]; rfl)
    exact hw.sound.linked.slot ho.hart (by simp [hcode]) hslot
  simp only [step,ho.hart,if_true,ho.runs,ho.own,ho.loops,mainStep,hcur,harmed,After.next,
    Bool.true_eq_false,false_or]
  exact if_congr Iff.rfl rfl rfl

/-- Task 0 prepares, waits until 2 ms and finds nothing else to run; then the clock goes to 3. -/
def waitAlone : List (Nat × Act) := [(0,.call .prepareBlock),(0,.call (.blockUntil 2)),(0,.go),
  (0,.go),(0,.go),(0,.advance),(0,.advance),(0,.advance)]

/-- The same, and an interrupt handler wakes the task. -/
def waitWoken : List (Nat × Act) := waitAlone++[(0,.interrupt),(0,.call (.unblock 0)),(0,.ret)]

def overdueNow (x : Sys × (Nat → Option Bool)) : Bool :=
  x.1.running 0==0 && (x.1.tasks 0).thread==some 0 && (x.1.threads 0).inner.isEmpty &&
    (x.1.threads 0).main==.idle .clear && (x.2 0).isSome && (x.1.tasks 0).wakeAtMs != 0 &&
    decide ((x.1.tasks 0).wakeAtMs≤x.1.clock)

theorem overdue_of_now {x : Sys × (Nat → Option Bool)} (h : overdueNow x=true) :
    Overdue 1 x.1 x.2 0 0 0 := by
  simp only [overdueNow,Bool.and_eq_true,beq_iff_eq,List.isEmpty_iff,bne_iff_ne,
    decide_eq_true_eq] at h
  obtain ⟨⟨⟨⟨⟨⟨hruns,hslot⟩,hown⟩,hloops⟩,hprep⟩,hbound⟩,hreach⟩ := h
  exact ⟨by decide,hruns,hslot,hown,hloops,Option.ne_none_iff_isSome.mpr hprep,hbound,hreach⟩

theorem overdue_run (es : List (Nat × Act)) (p : Sys × (Nat → Option Bool) → Bool)
    (hex : (Run.exec (watchStep 1) es (schedInit 1,fun _ => none)).any
      (fun x => overdueNow x && p x)=true) :
    ∃hist s w,Reach (Watches 1) (schedInit 1,fun _ => none) hist (s,w) ∧ Overdue 1 s w 0 0 0 ∧
      p (s,w)=true := by
  obtain ⟨x,hr,hex⟩ := Reach.exec_any watches_watchStep hex
  simp only [Bool.and_eq_true] at hex
  exact ⟨_,x.1,x.2,hr,overdue_of_now hex.1,hex.2⟩

end LugalOS.Sched
