import LugalOS.Sched.Stacks
import LugalOS.Sched.Wakeup

namespace LugalOS.Sched

open Function (update update_of_ne update_self update_eq_self comp_update)
open Run (Reach)
open Tokens (Conserved)

/-- The stack that a sched_reap has taken and not yet given to palloc_free. -/
def Reap.frees : Reap → List Nat
  | .take => []
  | .free st => [st]

def Phase.frees : Phase → List Nat
  | .reapFirst r => r.frees
  | .reapLast r => r.frees
  | _ => []

def Main.frees : Main → List Nat
  | .startReap r => r.frees
  | .yield p => p.frees
  | .block p _ => p.frees
  | _ => []

def Inner.frees : Inner → List Nat
  | .isr => []
  | .yield p => p.frees

def Out.frees : Out → List Nat
  | .at_ p => p.frees
  | _ => []

def Thread.frees (th : Thread) : List Nat := th.inner.flatMap Inner.frees++th.main.frees

def Main.work : Main → Work
  | .alloc k _ => .slot k
  | .fill k _ st => .full k st
  | .prime k st => .prime k st
  | _ => .none

def Main.life : Main → Life
  | .exitCross _ _ => .crossing
  | .gone => .gone
  | _ => .live

def stock (s : Sys) : Stock where
  vacant := fun i => Vacant (s.tasks i).state
  thread := fun i => (s.tasks i).thread
  base := fun i => (s.tasks i).stackBase
  reap := s.reapStack
  hands := fun t => (s.threads t).frees
  work := fun t => (s.threads t).main.work
  life := fun t => (s.threads t).main.life
  stack := fun t => (s.threads t).stack
  freed := s.freed
  running := s.running
  nextStack := s.nextStack
  nextThread := s.nextThread

variable {harts h : Nat} {s s' : Sys}

/-- The slot keeps its thread and its stack, and is not vacated. -/
def Task.Stays (k k' : Task) : Prop :=
  k'.thread=k.thread ∧ k'.stackBase=k.stackBase ∧ (Vacant k'.state → Vacant k.state)

theorem Task.Stays.refl (k : Task) : k.Stays k := ⟨rfl,rfl,id⟩

theorem Task.Stays.trans {k l m : Task} (h1 : k.Stays l) (h2 : l.Stays m) : k.Stays m :=
  ⟨h2.1.trans h1.1,h2.2.1.trans h1.2.1,h1.2.2 ∘ h2.2.2⟩

theorem stays_update {f g : Nat → Task} {n : Nat} {t : Task} (hs : ∀i,(f i).Stays (g i))
    (ht : (g n).Stays t) (i : Nat) : (f i).Stays (update g n t i) := by
  by_cases hi : i=n
  · subst hi; rw [update_self]; exact (hs i).trans ht
  · rw [update_of_ne hi]; exact hs i

theorem stays_nextRunnable (now prev i : Nat) :
    (s.tasks i).Stays ((nextRunnable now h prev s.tasks).2 i) := by
  obtain ⟨_,h2,_,h4,_⟩ := nextRunnable_frame (h := h) now prev s.tasks i
  exact ⟨h2,h4,(calmer_nextRunnable now prev i).2.2.2⟩

theorem stock_modTask (s : Sys) (i : Nat) (f : Task → Task) : stock (s.modTask i f)={stock s with
    vacant := fun j => Vacant ((s.modTask i f).tasks j).state,
    thread := update (stock s).thread i (f (s.tasks i)).thread,
    base := update (stock s).base i (f (s.tasks i)).stackBase} := by
  have ht : (fun j => ((s.modTask i f).tasks j).thread)=
      update (stock s).thread i (f (s.tasks i)).thread := comp_update Task.thread _ _ _
  have hb : (fun j => ((s.modTask i f).tasks j).stackBase)=
      update (stock s).base i (f (s.tasks i)).stackBase := comp_update Task.stackBase _ _ _
  conv_lhs => unfold stock
  rw [ht,hb]
  rfl

theorem vacant_modTask {k : Nat} {f : Task → Task} (hf : (f (s.tasks k)).state=(s.tasks k).state) :
    (fun j => Vacant ((s.modTask k f).tasks j).state)=(stock s).vacant := by
  funext j
  dsimp only [Sys.modTask]
  rw [Function.update_apply]
  split
  next hjk => subst hjk; rw [hf]; rfl
  next => rfl

theorem stock_modThread (s : Sys) (t : Nat) (f : Thread → Thread) :
    stock (s.modThread t f)={stock s with
      hands := update (stock s).hands t (f (s.threads t)).frees,
      work := update (stock s).work t (f (s.threads t)).main.work,
      life := update (stock s).life t (f (s.threads t)).main.life,
      stack := update (stock s).stack t (f (s.threads t)).stack} := by
  have h1 : (fun u => ((s.modThread t f).threads u).frees)=
      update (stock s).hands t (f (s.threads t)).frees := comp_update Thread.frees _ _ _
  have h2 : (fun u => ((s.modThread t f).threads u).main.work)=
      update (stock s).work t (f (s.threads t)).main.work :=
    comp_update (fun th => Main.work (Thread.main th)) _ _ _
  have h3 : (fun u => ((s.modThread t f).threads u).main.life)=
      update (stock s).life t (f (s.threads t)).main.life :=
    comp_update (fun th => Main.life (Thread.main th)) _ _ _
  have h4 : (fun u => ((s.modThread t f).threads u).stack)=
      update (stock s).stack t (f (s.threads t)).stack := comp_update Thread.stack _ _ _
  conv_lhs => unfold stock
  rw [h1,h2,h3,h4]
  rfl

theorem stock_setMain (s : Sys) (t : Nat) (m : Main) (hi : (s.threads t).inner=[])
    (hf : m.frees=(s.threads t).main.frees) : stock (s.setMain t m)={stock s with
      work := update (stock s).work t m.work,life := update (stock s).life t m.life} := by
  unfold Sys.setMain
  rw [stock_modThread]
  have h1 : Thread.frees {s.threads t with main := m}=(stock s).hands t := by
    simp [Thread.frees,stock,hi,hf]
  have h2 : update (stock s).stack t (s.threads t).stack=(stock s).stack :=
    update_eq_self _ _
  rw [h1,h2,update_eq_self]

theorem pass_quiet (h1 : ∀i,(s.tasks i).Stays (s'.tasks i))
    (h2 : ∀t,(s'.threads t).frees=(s.threads t).frees ∧
      (s'.threads t).main.work=(s.threads t).main.work ∧
      (s'.threads t).main.life=(s.threads t).main.life ∧ (s'.threads t).stack=(s.threads t).stack)
    (h3 : s'.reapStack=s.reapStack ∧ s'.freed=s.freed ∧ s'.running=s.running ∧
      s'.nextStack=s.nextStack ∧ s'.nextThread=s.nextThread) : Pass h (stock s) (stock s') := by
  obtain ⟨a,b,c,d,e⟩ := h3
  have he : stock s'={stock s with vacant := fun i => Vacant (s'.tasks i).state} := by
    unfold stock
    simp only [Stock.mk.injEq,true_and]
    exact ⟨funext fun i => (h1 i).1,funext fun i => (h1 i).2.1,a,funext fun t => (h2 t).1,
      funext fun t => (h2 t).2.1,funext fun t => (h2 t).2.2.1,funext fun t => (h2 t).2.2.2,b,c,d,e⟩
  rw [he]
  exact .quiet _ fun i => (h1 i).2.2

theorem frees_setMain {t : Nat} {m : Main} (hi : (s.threads t).inner=[])
    (hm : m.frees=(s.threads t).main.frees ∧ m.work=(s.threads t).main.work ∧
      m.life=(s.threads t).main.life) (u : Nat) :
    ((s.setMain t m).threads u).frees=(s.threads u).frees ∧
      ((s.setMain t m).threads u).main.work=(s.threads u).main.work ∧
      ((s.setMain t m).threads u).main.life=(s.threads u).main.life ∧
      ((s.setMain t m).threads u).stack=(s.threads u).stack := by
  by_cases hu : u=t
  · subst hu
    have he : (s.setMain u m).threads u={s.threads u with main := m} := update_self _ _ _
    rw [he]
    simp only [Thread.frees,hi,hm,and_self]
  · rw [setMain_other hu]
    exact ⟨rfl,rfl,rfl,rfl⟩

/-- What a step of sched_switch does with stacks: nothing, a step of sched_reap, or the switch. -/
inductive Reaps (h : Nat) (s s' : Sys) (l l' : List Nat) : Prop where
  | none : s'.reapStack=s.reapStack → s'.freed=s.freed → s'.running=s.running → l'=l →
      Reaps h s s' l l'
  | take (st : Nat) : s'.tasks=s.tasks → s.reapStack h=some st →
      s'.reapStack=update s.reapStack h Option.none → s'.freed=s.freed → s'.running=s.running →
      l=[] → l'=[st] → Reaps h s s' l l'
  | free (st : Nat) : s'.tasks=s.tasks → s'.reapStack=s.reapStack → s'.freed=st::s.freed →
      s'.running=s.running → l=[st] → l'=[] → Reaps h s s' l l'
  | switch (u : Nat) : (∀i,(s'.tasks i).state=(s.tasks i).state) → s'.reapStack=s.reapStack →
      s'.freed=s.freed → s'.running=update s.running h u → l'=l → Reaps h s s' l l'

theorem schedReap_reaps {r : Reap} {x : Sys × Option Reap} (hx : schedReap h r s=some x) :
    x.1.tasks=s.tasks ∧ x.1.threads=s.threads ∧ x.1.nextStack=s.nextStack ∧
      x.1.nextThread=s.nextThread ∧ Reaps h s x.1 r.frees ((x.2.map Reap.frees).getD []) := by
  refine ⟨schedReap_tasks hx,(schedReap_view hx).2.1,?_⟩
  cases r with
  | take =>
    simp only [schedReap] at hx
    split at hx
    · split at hx
      · cases hx; exact ⟨rfl,rfl,.none rfl rfl rfl rfl⟩
      next st hst => cases hx; exact ⟨rfl,rfl,.take st rfl hst rfl rfl rfl rfl rfl⟩
    · cases hx
  | free st => cases hx; exact ⟨rfl,rfl,.free st rfl rfl rfl rfl rfl rfl⟩

theorem stays_state {k : Task} {x : TaskState} (h1 : x≠.unused) (h2 : x≠.dead) :
    k.Stays {k with state := x} := by
  refine ⟨rfl,rfl,fun hv => ?_⟩
  rcases hv with hv | hv <;> contradiction

theorem schedSwitch_reaps {b : Bool} {p : Phase} {x : Sys × Out}
    (hx : schedSwitch harts h b p s=some x) : (∀i,(s.tasks i).Stays (x.1.tasks i)) ∧
      x.1.nextStack=s.nextStack ∧ x.1.nextThread=s.nextThread ∧
      Reaps h s x.1 p.frees x.2.frees := by
  cases p with
  | reapFirst r | reapLast r =>
    simp only [schedSwitch,Option.map_eq_some_iff] at hx
    obtain ⟨⟨s1,o⟩,hr,rfl⟩ := hx
    obtain ⟨h1,_,h3,h4,h5⟩ := schedReap_reaps hr
    dsimp only at h1 h3 h4 h5 ⊢
    refine ⟨fun i => by rw [h1]; exact .refl _,h3,h4,?_⟩
    cases o <;> exact h5
  | enter =>
    simp only [schedSwitch] at hx
    split at hx
    · split at hx
      · cases hx
      next prev _ =>
        have h1 (i : Nat) : (s.tasks i).Stays ((s.modTask prev fun t =>
            {t with waitArmed := false,wakePending := false}).tasks i) := by
          refine stays_update (g := s.tasks) (fun _ => .refl _) ?_ i
          exact ⟨rfl,rfl,id⟩
        split at hx
        · split at hx <;> cases hx
          · exact ⟨h1,rfl,rfl,.none rfl rfl rfl rfl⟩
          · refine ⟨fun i => ?_,rfl,rfl,.none rfl rfl rfl rfl⟩
            refine stays_update h1 ?_ i
            exact stays_state (by decide) (by decide)
        · cases hx; exact ⟨fun _ => .refl _,rfl,rfl,.none rfl rfl rfl rfl⟩
    · cases hx
  | pick q =>
    simp only [schedSwitch] at hx
    split at hx
    · split at hx
      · cases hx
      next prev _ =>
        have hn (j : Nat) := stays_nextRunnable (s := s) (h := h) s.clock prev j
        generalize nextRunnable s.clock h prev s.tasks=r at hx hn
        obtain ⟨next,tasks⟩ := r
        dsimp only at hx hn
        cases next with
        | none =>
          dsimp only at hx
          split at hx <;> cases hx
          · refine ⟨fun i => ?_,rfl,rfl,.none rfl rfl rfl rfl⟩
            refine stays_update hn ?_ i
            exact stays_state (k := tasks prev) (x := .running) (by decide) (by decide)
          · exact ⟨hn,rfl,rfl,.none rfl rfl rfl rfl⟩
        | some n =>
          dsimp only at hx
          split at hx
          · cases hx
            refine ⟨fun i => ?_,rfl,rfl,.none rfl rfl rfl rfl⟩
            refine stays_update hn ?_ i
            exact stays_state (by decide) (by decide)
          · split at hx <;> cases hx
            · refine ⟨fun i => ?_,rfl,rfl,.none rfl rfl rfl rfl⟩
              refine stays_update (fun j => ?_) ?_ i
              rotate_left
              · exact stays_state (by decide) (by decide)
              · refine stays_update hn ?_ j
                exact stays_state (by decide) (by decide)
            · refine ⟨fun i => ?_,rfl,rfl,.none rfl rfl rfl rfl⟩
              refine stays_update hn ?_ i
              exact stays_state (by decide) (by decide)
    · cases hx
  | cross prev n =>
    simp only [schedSwitch] at hx
    split at hx
    · simp only [Option.map_eq_some_iff] at hx
      obtain ⟨s1,hs1,rfl⟩ := hx
      unfold ctxSwitch at hs1
      split at hs1
      · cases hs1
      next f _ =>
        split at hs1 <;> cases hs1
        refine ⟨fun i => ?_,rfl,rfl,.switch f.thread (fun i => ?_) rfl rfl rfl rfl⟩
        · refine stays_update (g := s.tasks) (fun _ => .refl _) ?_ i
          exact ⟨rfl,rfl,id⟩
        · dsimp only [Sys.modThread,Sys.modTask]
          rw [Function.update_apply]
          split
          next he => rw [he]
          next => rfl
    · cases hx
  | landed =>
    simp only [schedSwitch] at hx
    split at hx <;> cases hx
    exact ⟨fun _ => .refl _,rfl,rfl,.none rfl rfl rfl rfl⟩

theorem Reaps.pass {l l' r : List Nat} (hr : Reaps h s s' l l')
    (h1 : ∀i,(s.tasks i).Stays (s'.tasks i)) (hn : s'.nextStack=s.nextStack)
    (hm : s'.nextThread=s.nextThread) (hl : (s.threads (s.running h)).main.life=.live)
    (h2 : ∀u,(u≠s.running h → (s'.threads u).frees=(s.threads u).frees) ∧
      (s'.threads u).main.work=(s.threads u).main.work ∧
      (s'.threads u).main.life=(s.threads u).main.life ∧ (s'.threads u).stack=(s.threads u).stack)
    (h3 : (s.threads (s.running h)).frees=l++r)
    (h4 : (s'.threads (s.running h)).frees=l'++r) : Pass h (stock s) (stock s') := by
  have hsame (he : l'=l) (u : Nat) : (s'.threads u).frees=(s.threads u).frees := by
    by_cases hu : u=s.running h
    · rw [hu,h4,h3,he]
    · exact (h2 u).1 hu
  have hother (x : List Nat) (hx : (s'.threads (s.running h)).frees=x) :
      (fun u => (s'.threads u).frees)=update (stock s).hands (s.running h) x := by
    funext u
    by_cases hu : u=s.running h
    · subst hu; rw [update_self]; exact hx
    · rw [update_of_ne hu]; exact (h2 u).1 hu
  have hw : (fun u => (s'.threads u).main.work)=(stock s).work := funext fun u => (h2 u).2.1
  have hlf : (fun u => (s'.threads u).main.life)=(stock s).life := funext fun u => (h2 u).2.2.1
  have hst : (fun u => (s'.threads u).stack)=(stock s).stack := funext fun u => (h2 u).2.2.2
  cases hr with
  | none a b c d => exact pass_quiet h1 (fun u => ⟨hsame d u,(h2 u).2⟩) ⟨a,b,c,hn,hm⟩
  | take st t a b c d e f =>
    subst e f
    have he : stock s'={stock s with
        reap := update (stock s).reap h Option.none,
        hands := update (stock s).hands (s.running h) (st::(stock s).hands (s.running h))} := by
      have hh := hother (st::(stock s).hands (s.running h)) (by
        rw [h4]; change _=st::(s.threads (s.running h)).frees; rw [h3]; rfl)
      conv_lhs => unfold stock
      rw [hh,hw,hlf,hst,t,b,c,d,hn,hm]
      rfl
    rw [he]
    exact .take st a hl
  | free st t a b c d e =>
    subst d e
    have he : stock s'={stock s with
        hands := update (stock s).hands (s.running h) r,freed := st::(stock s).freed} := by
      have hh := hother r h4
      conv_lhs => unfold stock
      rw [hh,hw,hlf,hst,t,a,b,c,hn,hm]
      rfl
    rw [he]
    exact .free st r h3
  | switch u t a b c d =>
    have he : stock s'={stock s with
        running := update (stock s).running h u,
        life := update (stock s).life (s.running h) ((stock s).life (s.running h))} := by
      rw [update_eq_self]
      unfold stock
      simp only [Stock.mk.injEq]
      refine ⟨funext fun i => by rw [t],funext fun i => (h1 i).1,funext fun i => (h1 i).2.1,a,
        funext (hsame d),hw,hlf,hst,b,c,hn,hm⟩
    rw [he]
    exact .switch u _ (.inl ⟨rfl,by rw [show (stock s).life (s.running h)=_ from hl]; rintro ⟨⟩⟩)

theorem work_target {m : Main} {k : Nat} : m.work.target=some k ↔ m.makes=some (k,false) := by
  cases m <;> simp [Main.work,Work.target,Main.makes]

theorem Sound.ties (hs : Sound harts s) (hh : h<harts) : Ties harts h (stock s) where
  inj := hs.linked.thrInj
  runs := by
    refine ⟨hs.linked.runLt h hh,fun c k hc hk => ?_⟩
    obtain ⟨_,_,u,hu,hr,_⟩ := hs.linked.make c k (work_target.1 hc)
    have hk : (view s).thread k=some (s.running h) := hk
    rw [hu] at hk
    exact hr h hh (Option.some.inj hk).symm
  runInj := fun g hg he => hs.linked.inj g h hg hh he
  make := by
    intro c k hc
    obtain ⟨_,hv,u,hu,_⟩ := hs.linked.make c k (work_target.1 hc)
    exact ⟨hv,u,hu,hs.linked.thrLt k u hu⟩
  makeInj := fun c d k hc hd => hs.linked.makeInj c d k (work_target.1 hc) (work_target.1 hd)

theorem pass_set {m : Main} (hi : (s.threads (s.running h)).inner=[])
    (hm : m.frees=(s.threads (s.running h)).main.frees ∧
      m.work=(s.threads (s.running h)).main.work ∧ m.life=(s.threads (s.running h)).main.life)
    (ht : ∀i,(s.tasks i).Stays (s'.tasks i))
    (hth : s'.threads=(s.setMain (s.running h) m).threads)
    (h3 : s'.reapStack=s.reapStack ∧ s'.freed=s.freed ∧ s'.running=s.running ∧
      s'.nextStack=s.nextStack ∧ s'.nextThread=s.nextThread) : Pass h (stock s) (stock s') :=
  pass_quiet ht (fun u => by rw [hth]; exact frees_setMain hi hm u) h3

theorem stays_one {f : Task → Task} {c : Nat} (hf : (s.tasks c).Stays (f (s.tasks c))) (i : Nat) :
    (s.tasks i).Stays ((s.modTask c f).tasks i) :=
  stays_update (g := s.tasks) (fun _ => .refl _) hf i

theorem taskUnblock_pass {pid : Nat} (hx : taskUnblock pid s=some s') :
    Pass h (stock s) (stock s') := by
  unfold taskUnblock at hx
  split at hx
  · obtain ⟨_,rfl⟩ := locked_eq hx
    refine pass_quiet (fun i => ?_) (fun _ => ⟨rfl,rfl,rfl,rfl⟩) ⟨rfl,rfl,rfl,rfl,rfl⟩
    refine stays_one ?_ i
    split
    · exact ⟨rfl,rfl,fun hv => by rcases hv with hv | hv <;> cases hv⟩
    · split <;> exact ⟨rfl,rfl,id⟩
  · cases hx; exact .quiet _ fun _ => id

theorem call_pass {c : Call} (hi : (s.threads (s.running h)).inner=[])
    (hm : (s.threads (s.running h)).main=.user) (hx : s.call harts h (s.running h) c=some s') :
    Pass h (stock s) (stock s') := by
  have hset {n : Main} (hn : n.frees=[] ∧ n.work=.none ∧ n.life=.live) :
      Pass h (stock s) (stock (s.setMain (s.running h) n)) := by
    refine pass_set (m := n) hi ?_ (fun i => .refl _) rfl ⟨rfl,rfl,rfl,rfl,rfl⟩
    rw [hm]; exact hn
  have hmod {c : Nat} {f : Task → Task} (hf : (s.tasks c).Stays (f (s.tasks c))) :
      Pass h (stock s) (stock (s.modTask c f)) :=
    pass_quiet (stays_one hf) (fun _ => ⟨rfl,rfl,rfl,rfl⟩) ⟨rfl,rfl,rfl,rfl,rfl⟩
  have hid : Pass h (stock s) (stock s) := .quiet _ fun _ => id
  cases c with
  | yield => cases hx; split <;> first | exact hset ⟨rfl,rfl,rfl⟩ | exact hid
  | prepareBlock | waitDone =>
    simp only [Sys.call] at hx
    split at hx
    · cases hx; exact hid
    · obtain ⟨_,rfl⟩ := locked_eq hx; exact hmod ⟨rfl,rfl,id⟩
  | block => cases hx; split <;> first | exact hset ⟨rfl,rfl,rfl⟩ | exact hid
  | blockUntil d =>
    simp only [Sys.call] at hx
    split at hx
    · cases hx; exact hid
    next k _ =>
      split at hx
      · cases hx; exact hset ⟨rfl,rfl,rfl⟩
      · obtain ⟨_,rfl⟩ := locked_eq hx
        refine pass_set (m := .block (.reapFirst .take) .clear) hi (by rw [hm]; exact ⟨rfl,rfl,rfl⟩)
          (fun i => ?_) rfl ⟨rfl,rfl,rfl,rfl,rfl⟩
        refine stays_one (c := k) (f := fun t => {t with wakeAtMs := d}) ?_ i
        exact ⟨rfl,rfl,id⟩
  | sleep ms => cases hx; split <;> first | exact hset ⟨rfl,rfl,rfl⟩ | exact hid
  | unblock pid => exact taskUnblock_pass hx
  | create hart =>
    simp only [Sys.call] at hx
    split at hx
    · cases hx; exact hid
    · split at hx
      · obtain ⟨_,rfl⟩ := locked_eq hx; exact hid
      next k hk =>
        obtain ⟨_,rfl⟩ := locked_eq hx
        obtain ⟨_,hkv⟩ := find_slot hk
        have hv : Vacant (s.tasks k).state := by simpa [Vacant] using hkv
        have he : stock {(s.modTask k fun t => {t with
            state := .blocked,thread := some s.nextThread,making := true}).setMain (s.running h)
              (.alloc k hart) with nextThread := s.nextThread+1}={stock s with
            vacant := fun j => Vacant ((s.modTask k fun t => {t with
              state := .blocked,thread := some s.nextThread,making := true}).tasks j).state,
            thread := update (stock s).thread k (some s.nextThread),
            work := update (stock s).work (s.running h) (.slot k),nextThread := s.nextThread+1} := by
          have hb : update (stock s).base k (s.tasks k).stackBase=(stock s).base :=
            update_eq_self _ _
          have hl : update (stock s).life (s.running h) .live=(stock s).life := by
            rw [← show (stock s).life (s.running h)=.live by simp [stock,hm,Main.life]]
            exact update_eq_self _ _
          have hset := stock_setMain (s.modTask k fun t => {t with
            state := .blocked,thread := some s.nextThread,making := true}) (s.running h)
            (.alloc k hart) hi (by
              change _=(s.threads (s.running h)).main.frees
              rw [hm]; rfl)
          rw [stock_modTask] at hset
          dsimp only at hset
          rw [hb,show Main.life (.alloc k hart)=.live from rfl,hl] at hset
          exact congrArg (fun v => {v with nextThread := s.nextThread+1}) hset
        rw [he]
        refine .reserve k _ hv (by simp [stock,hm,Main.work]) fun i hiv => ?_
        dsimp only [Sys.modTask] at hiv
        by_cases hik : i=k
        · subst hik
          rw [update_self] at hiv
          rcases hiv with hiv | hiv <;> cases hiv
        · rw [update_of_ne hik] at hiv
          exact ⟨hik,hiv⟩
  | exit => cases hx; refine hset ?_; split <;> exact ⟨rfl,rfl,rfl⟩
  | setPriority pid p =>
    cases hx
    split
    · exact hmod ⟨rfl,rfl,id⟩
    · exact hid
  | setAffinity pid hart =>
    simp only [Sys.call] at hx
    split at hx
    · obtain ⟨_,rfl⟩ := locked_eq hx; exact hmod ⟨rfl,rfl,id⟩
    · cases hx; exact hid
  | secondaryInit =>
    simp only [Sys.call] at hx
    split at hx
    · cases hx
    · split at hx
      · obtain ⟨_,rfl⟩ := locked_eq hx; exact hid
      next k hk =>
        obtain ⟨_,rfl⟩ := locked_eq hx
        obtain ⟨_,hkv⟩ := find_slot hk
        have hv : Vacant (s.tasks k).state := by simpa [Vacant] using Or.inl hkv
        refine Eq.subst (motive := fun v => Pass h (stock s) v) (stock_modTask s k fun t => {t with
          state := .running,stackBase := none,priority := taskPrioIdle,hartAffinity := some h,
          thread := some (s.running h)}).symm ?_
        refine .secondary k _ hv fun i hiv => ?_
        dsimp only [Sys.modTask] at hiv
        by_cases hik : i=k
        · subst hik
          rw [update_self] at hiv
          rcases hiv with hiv | hiv <;> cases hiv
        · rw [update_of_ne hik] at hiv
          exact ⟨hik,hiv⟩

theorem taskExit_pass (l : Linked harts (view s)) (hh : h<harts)
    (hi : (s.threads (s.running h)).inner=[]) (hm : (s.threads (s.running h)).main=.exiting)
    (hr : s.reapStack h=none) (hx : taskExit h (s.running h) s=some s') :
    Pass h (stock s) (stock s') := by
  have hcode : (view s).code ((view s).running h)=.free := by
    simp [view,Thread.code,hi,hm,Main.code]
  unfold taskExit at hx
  split at hx
  · split at hx
    · cases hx
    next prev hcur =>
      obtain ⟨_,htp,_⟩ := (l.hart h hh).current (by simp [hcode]) hcur
      have hn (j : Nat) := stays_nextRunnable (s := s) (h := h) s.clock prev j
      generalize nextRunnable s.clock h prev s.tasks=r at hx hn
      obtain ⟨next,tasks⟩ := r
      dsimp only at hx hn
      cases next with
      | none =>
        cases hx
        exact pass_set (m := .halted) hi (by rw [hm]; exact ⟨rfl,rfl,rfl⟩) hn rfl
          ⟨rfl,rfl,rfl,rfl,rfl⟩
      | some n =>
        dsimp only at hx
        rw [hr] at hx
        simp only [Option.isSome_none,Bool.false_eq_true,if_false] at hx
        cases hx
        have hbase : (tasks prev).stackBase=(s.tasks prev).stackBase := (hn prev).2.1
        let gone : Task := {tasks prev with state := .dead,stackBase := none}
        let ran : Task := {update tasks prev gone n with state := .running}
        have htasks (i : Nat) : (update (update tasks prev gone) n ran i).thread=(s.tasks i).thread ∧
            (update (update tasks prev gone) n ran i).stackBase=
              update (stock s).base prev none i := by
          have hg (i : Nat) : (update tasks prev gone i).thread=(s.tasks i).thread ∧
              (update tasks prev gone i).stackBase=update (stock s).base prev none i := by
            by_cases hip : i=prev
            · subst hip
              rw [update_self,update_self]
              exact ⟨(hn i).1,rfl⟩
            · rw [update_of_ne hip,update_of_ne hip]
              exact ⟨(hn i).1,(hn i).2.1⟩
          by_cases hin : i=n
          · subst hin; rw [update_self]; exact hg i
          · rw [update_of_ne hin]; exact hg i
        have hvac (i : Nat) (hv : Vacant (update (update tasks prev gone) n ran i).state) :
            i=prev ∨ (stock s).vacant i := by
          by_cases hip : i=prev
          · exact .inl hip
          · refine .inr ((hn i).2.2 ?_)
            by_cases hin : i=n
            · subst hin
              rw [update_self] at hv
              rcases hv with hv | hv <;> cases hv
            · rwa [update_of_ne hin,update_of_ne hip] at hv
        have hset := stock_setMain s (s.running h) (.exitCross prev n) hi (by rw [hm]; rfl)
        refine Eq.subst (motive := fun v => Pass h (stock s) v) ?_
          (Pass.exit prev (fun i => Vacant (update (update tasks prev gone) n ran i).state) htp hr
            (by simp [stock,hm,Main.life]) hvac)
        have hw : update (stock s).work (s.running h) .none=(stock s).work := by
          rw [show Work.none=(stock s).work (s.running h) by simp [stock,hm,Main.work]]
          exact update_eq_self _ _
        have hreap : update s.reapStack h (tasks prev).stackBase=
            update (stock s).reap h ((stock s).base prev) := by rw [hbase]; rfl
        simp only [stock,Stock.mk.injEq]
        refine ⟨rfl,(funext fun i => (htasks i).1).symm,(funext fun i => (htasks i).2).symm,hreap.symm,
          (congrArg Stock.hands hset).symm,(congrArg Stock.work hset |>.trans hw).symm,
          (congrArg Stock.life hset).symm,(congrArg Stock.stack hset).symm,rfl,rfl,rfl,rfl⟩
  · cases hx

theorem mainStep_pass {m : Main} {a : Act} (hs : Sound harts s) (hh : h<harts)
    (hi : (s.threads (s.running h)).inner=[]) (hm : (s.threads (s.running h)).main=m)
    (hr : m=.exiting → s.reapStack h=none)
    (hx : mainStep harts h (s.running h) s m a=some s') : Pass h (stock s) (stock s') := by
  have hset {n : Main} (hn : n.frees=m.frees ∧ n.work=m.work ∧ n.life=m.life) :
      Pass h (stock s) (stock (s.setMain (s.running h) n)) := by
    refine pass_set (m := n) hi ?_ (fun i => .refl _) rfl ⟨rfl,rfl,rfl,rfl,rfl⟩
    rw [hm]; exact hn
  -- a step of sched_reap or sched_switch in the thread's own code
  have hreap {x : Sys} {n : Main} {l l' : List Nat} (hrp : Reaps h s x l l')
      (ht : ∀i,(s.tasks i).Stays (x.tasks i)) (hns : x.nextStack=s.nextStack)
      (hnt : x.nextThread=s.nextThread) (hth : ∀u,(x.threads u).inner=(s.threads u).inner ∧
        (x.threads u).main=(s.threads u).main ∧ (x.threads u).stack=(s.threads u).stack)
      (hl : m.life=.live) (hml : m.frees=l) (hnl : n.frees=l') (hw : n.work=m.work)
      (hn : n.life=m.life) : Pass h (stock s) (stock (x.setMain (s.running h) n)) := by
    have hrest : (s.threads (s.running h)).frees=l++[] := by
      simp [Thread.frees,hi,hm,hml]
    have hrp' : Reaps h s (x.setMain (s.running h) n) l l' := by
      cases hrp with
      | none a b c d => exact .none a b c d
      | take st a b c d e f g => exact .take st a b c d e f g
      | free st a b c d e f => exact .free st a b c d e f
      | switch u a b c d e => exact .switch u a b c d e
    refine hrp'.pass (r := []) ht hns hnt (by rw [hm]; exact hl) (fun u => ?_) hrest ?_
    · by_cases hu : u=s.running h
      · subst hu
        have he : (x.setMain (s.running h) n).threads (s.running h)=
            {x.threads (s.running h) with main := n} := update_self _ _ _
        rw [he,hm]
        exact ⟨fun hne => absurd rfl hne,hw,hn,(hth _).2.2⟩
      · rw [setMain_other hu]
        obtain ⟨h1,h2,h3⟩ := hth u
        exact ⟨fun _ => by unfold Thread.frees; rw [h1,h2],by rw [h2],by rw [h2],h3⟩
    · have he : (x.setMain (s.running h) n).threads (s.running h)=
          {x.threads (s.running h) with main := n} := update_self _ _ _
      rw [he]
      simp [Thread.frees,(hth _).1,hi,hnl]
  have hone {n : Main} {c : Nat} {f : Task → Task} (hn : n.frees=m.frees ∧ n.work=m.work ∧ n.life=m.life)
      (hf : (s.tasks c).Stays (f (s.tasks c))) :
      Pass h (stock s) (stock ((s.modTask c f).setMain (s.running h) n)) :=
    pass_set (m := n) hi (by rw [hm]; exact hn) (stays_one hf) rfl ⟨rfl,rfl,rfl,rfl,rfl⟩
  have hlife : update (stock s).life (s.running h) m.life=(stock s).life := by
    rw [← show (stock s).life (s.running h)=m.life by rw [← hm]; rfl]
    exact update_eq_self _ _
  have hwork : (stock s).work (s.running h)=m.work := by rw [← hm]; rfl
  cases m with
  | user =>
    cases a <;> try cases hx
    exact call_pass hi hm hx
  | start =>
    cases a <;> try cases hx
    simp only [mainStep] at hx
    split at hx <;> cases hx
    exact pass_set (m := .startReap .take) hi (by rw [hm]; exact ⟨rfl,rfl,rfl⟩) (fun i => .refl _)
      rfl ⟨rfl,rfl,rfl,rfl,rfl⟩
  | startReap r =>
    cases a <;> try cases hx
    simp only [mainStep,Option.map_eq_some_iff] at hx
    obtain ⟨x,hrx,rfl⟩ := hx
    obtain ⟨h1,h2,h3,h4,h5⟩ := schedReap_reaps hrx
    refine hreap h5 (fun i => by rw [h1]; exact .refl _) h3 h4 (fun u => by rw [h2]; exact ⟨rfl,rfl,rfl⟩)
      rfl rfl ?_ ?_ ?_ <;> cases x.2 <;> rfl
  | yield p =>
    cases a <;> try cases hx
    simp only [mainStep,Option.map_eq_some_iff] at hx
    obtain ⟨x,hrx,rfl⟩ := hx
    obtain ⟨h1,h3,h4,h5⟩ := schedSwitch_reaps hrx
    refine hreap h5 h1 h3 h4 (schedSwitch_threads hrx) rfl rfl ?_ ?_ ?_ <;> cases x.2 <;> rfl
  | block p k =>
    cases a <;> try cases hx
    simp only [mainStep,Option.map_eq_some_iff] at hx
    obtain ⟨x,hrx,rfl⟩ := hx
    obtain ⟨h1,h3,h4,h5⟩ := schedSwitch_reaps hrx
    refine hreap h5 h1 h3 h4 (schedSwitch_threads hrx) rfl rfl ?_ ?_ ?_ <;>
      cases x.2 <;> first | rfl | (cases k <;> rfl)
  | idle k =>
    cases a <;> try cases hx
    simp only [mainStep] at hx
    split at hx
    · cases hx
    · split at hx <;> cases hx
      exact hset (by cases k <;> exact ⟨rfl,rfl,rfl⟩)
  | clearWake | sleepArm e =>
    cases a <;> try cases hx
    simp only [mainStep] at hx
    split at hx
    · cases hx
    · obtain ⟨_,rfl⟩ := locked_eq hx
      refine hone ⟨rfl,rfl,rfl⟩ ?_
      exact ⟨rfl,rfl,id⟩
  | sleep e => cases a <;> cases hx; exact hset (by split <;> exact ⟨rfl,rfl,rfl⟩)
  | alloc k hart =>
    cases a <;> try cases hx
    · have he := stock_setMain s (s.running h) (.fill k hart s.nextStack) hi (by rw [hm]; rfl)
      rw [show Main.life (.fill k hart s.nextStack)=Main.life (.alloc k hart) from rfl,hlife] at he
      have he := congrArg (fun v => {v with nextStack := s.nextStack+1}) he
      exact Eq.subst (motive := fun v => Pass h (stock s) v) he.symm (.alloc k hwork)
    · have he := stock_setMain (s.modTask k fun t => {t with state := .unused,making := false})
        (s.running h) .user hi (by change _=(s.threads (s.running h)).main.frees; rw [hm]; rfl)
      rw [stock_modTask] at he
      dsimp only at he
      rw [show Main.life .user=Main.life (.alloc k hart) from rfl,hlife,
        show update (stock s).thread k (s.tasks k).thread=(stock s).thread from
          update_eq_self _ _,
        show update (stock s).base k (s.tasks k).stackBase=(stock s).base from
          update_eq_self _ _] at he
      refine Eq.subst (motive := fun v => Pass h (stock s) v) he.symm (.giveUp k _ hwork ?_)
      intro i hv
      by_cases hik : i=k
      · exact .inl hik
      · dsimp only [Sys.modTask] at hv
        rw [update_of_ne hik] at hv
        exact .inr hv
  | fill k hart st =>
    cases a <;> try cases hx
    have he := stock_setMain (s.modTask k fun t => {t with
      stackBase := some st,hartAffinity := hart,priority := taskPrioNormal,wakeAtMs := 0,
      waitArmed := false,wakePending := false}) (s.running h) (.prime k st) hi
      (by change _=(s.threads (s.running h)).main.frees; rw [hm]; rfl)
    rw [stock_modTask] at he
    dsimp only at he
    rw [show Main.life (.prime k st)=Main.life (.fill k hart st) from rfl,hlife,vacant_modTask (by rfl),
      show update (stock s).thread k (s.tasks k).thread=(stock s).thread from
        update_eq_self _ _] at he
    exact Eq.subst (motive := fun v => Pass h (stock s) v) he.symm (.fill k st hwork)
  | prime k st =>
    cases a <;> try cases hx
    simp only [mainStep] at hx
    split at hx
    · cases hx
    next u hu =>
      cases hx
      have hne : s.running h≠u := by
        obtain ⟨_,_,w,hw,hr,_⟩ := hs.linked.make (s.running h) k (by simp [view,hm,Main.makes])
        have hu : (view s).thread k=some u := hu
        rw [hu] at hw; cases hw
        exact hr h hh
      have h1 : stock (s.modTask k fun t => {t with sp := some ⟨u,0⟩})=stock s := by
        rw [stock_modTask,vacant_modTask (by rfl)]
        rw [show update (stock s).thread k (s.tasks k).thread=(stock s).thread from
            update_eq_self _ _,
          show update (stock s).base k (s.tasks k).stackBase=(stock s).base from
            update_eq_self _ _]
      have h2 := stock_modThread (s.modTask k fun t => {t with sp := some ⟨u,0⟩}) u fun _ =>
        {stack := some st}
      rw [h1] at h2
      have hr2 : ((s.modTask k fun t => {t with sp := some ⟨u,0⟩}).modThread u fun _ =>
          {stack := some st}).threads (s.running h)=s.threads (s.running h) :=
        update_of_ne hne _ _
      have h3 := stock_setMain ((s.modTask k fun t => {t with sp := some ⟨u,0⟩}).modThread u fun _ =>
        {stack := some st}) (s.running h) (.publish k) (by rw [hr2]; exact hi)
        (by rw [hr2,hm]; rfl)
      rw [h2] at h3
      dsimp only at h3
      have h4 : update (update (stock s).life u .live) (s.running h) .live=
          update (stock s).life u .live := by
        rw [Function.update_comm hne.symm]
        exact congrArg (fun f => update f u Life.live) hlife
      rw [show Main.life (.publish k)=.live from rfl,
        show Main.life (Thread.main {stack := some st})=.live from rfl,h4] at h3
      exact Eq.subst (motive := fun v => Pass h (stock s) v) h3.symm (.prime k st u hwork hu)
  | publish k =>
    cases a <;> try cases hx
    obtain ⟨_,rfl⟩ := locked_eq hx
    refine hone ⟨rfl,rfl,rfl⟩ ?_
    exact ⟨rfl,rfl,fun hv => by rcases hv with hv | hv <;> cases hv⟩
  | exiting =>
    cases a <;> try cases hx
    exact taskExit_pass hs.linked hh hi hm (hr rfl) hx
  | exitCross prev n =>
    cases a <;> try cases hx
    simp only [mainStep] at hx
    split at hx
    · simp only [Option.map_eq_some_iff] at hx
      obtain ⟨s1,hs1,rfl⟩ := hx
      have hsw : schedSwitch harts h false (.cross prev n) s=some (s1,.at_ .landed) := by
        simp only [schedSwitch,hs1]
        simp_all
      obtain ⟨h1,h3,h4,h5⟩ := schedSwitch_reaps hsw
      have hth := schedSwitch_threads hsw
      obtain ⟨u,hu⟩ : ∃u,stock s1={stock s with running := update s.running h u} := by
        obtain ⟨f,_,_,_,hv⟩ := ctxSwitch_view hs1
        have hkept : s1.reapStack=s.reapStack ∧ s1.freed=s.freed := by
          cases h5 with
          | none a b c d => exact ⟨a,b⟩
          | take st a b c d e f g => cases g
          | free st a b c d e f => cases e
          | switch u a b c d e => exact ⟨b,c⟩
        refine ⟨f.thread,?_⟩
        unfold stock
        simp only [Stock.mk.injEq]
        refine ⟨funext fun i => congrArg Vacant (congrFun (congrArg View.state hv) i),
          funext fun i => (h1 i).1,funext fun i => (h1 i).2.1,hkept.1,funext fun t => ?_,
          funext fun t => ?_,funext fun t => ?_,funext fun t => (hth t).2.2,hkept.2,
          congrArg View.running hv,h3,h4⟩
        · unfold Thread.frees; rw [(hth t).1,(hth t).2.1]
        · rw [(hth t).2.1]
        · rw [(hth t).2.1]
      have he := stock_setMain s1 (s.running h) .gone ((hth _).1.trans hi) (by rw [(hth _).2.1,hm]; rfl)
      rw [hu] at he
      dsimp only at he
      rw [show update (stock s).work (s.running h) (Main.work .gone)=(stock s).work by
        rw [show Main.work .gone=(stock s).work (s.running h) from hwork.symm]
        exact update_eq_self _ _] at he
      exact Eq.subst (motive := fun v => Pass h (stock s) v) he.symm
        (.switch u .gone (.inr ⟨by simp [stock,hm,Main.life],rfl⟩))
    · cases hx
  | gone | halted | bug => cases a <;> cases hx

theorem inner_life (hs : Sound harts s) {t : Nat} (hi : (s.threads t).inner≠[]) :
    (s.threads t).main.life=.live := by
  have := (hs.calm t).2 hi
  cases hm : (s.threads t).main <;> rw [hm] at this <;> first | rfl | cases this

theorem frees_setInner {x : Sys} {t : Nat} {l : List Inner} (u : Nat) :
    (u≠t → ((x.setInner t l).threads u)=x.threads u) ∧
      (x.setInner t l).threads t={x.threads t with inner := l} :=
  ⟨fun hu => update_of_ne hu _ _,update_self _ _ _⟩

theorem pass_setInner {l : List Inner}
    (hl : l.flatMap Inner.frees=(s.threads (s.running h)).inner.flatMap Inner.frees) :
    Pass h (stock s) (stock (s.setInner (s.running h) l)) := by
  refine pass_quiet (fun _ => .refl _) (fun u => ?_) ⟨rfl,rfl,rfl,rfl,rfl⟩
  by_cases hu : u=s.running h
  · subst hu
    rw [(frees_setInner (s.running h)).2]
    exact ⟨by simp only [Thread.frees,hl],rfl,rfl,rfl⟩
  · rw [(frees_setInner u).1 hu]
    exact ⟨rfl,rfl,rfl,rfl⟩

theorem innerStep_pass {i : Inner} {rest : List Inner} {a : Act} (hs : Sound harts s)
    (hi : (s.threads (s.running h)).inner=i::rest)
    (hx : innerStep harts h (s.running h) s rest i a=some s') : Pass h (stock s) (stock s') := by
  have hlife := inner_life hs (t := s.running h) (by rw [hi]; rintro ⟨⟩)
  cases i with
  | yield p =>
    cases a <;> try cases hx
    simp only [innerStep,Option.map_eq_some_iff] at hx
    obtain ⟨x,hr,rfl⟩ := hx
    obtain ⟨h1,h3,h4,h5⟩ := schedSwitch_reaps hr
    have hth := schedSwitch_threads hr
    have hrp : Reaps h s (x.1.setInner (s.running h) (x.2.inner rest)) p.frees x.2.frees := by
      cases h5 with
      | none a b c d => exact .none a b c d
      | take st a b c d e f g => exact .take st a b c d e f g
      | free st a b c d e f => exact .free st a b c d e f
      | switch u a b c d e => exact .switch u a b c d e
    refine hrp.pass (r := rest.flatMap Inner.frees++(s.threads (s.running h)).main.frees) h1 h3 h4
      hlife (fun u => ?_) ?_ ?_
    · by_cases hu : u=s.running h
      · subst hu
        rw [(frees_setInner (s.running h)).2]
        exact ⟨fun hn => absurd rfl hn,by rw [(hth _).2.1],by rw [(hth _).2.1],(hth _).2.2⟩
      · rw [(frees_setInner u).1 hu]
        obtain ⟨k1,k2,k3⟩ := hth u
        exact ⟨fun _ => by unfold Thread.frees; rw [k1,k2],by rw [k2],by rw [k2],k3⟩
    · simp [Thread.frees,hi,Inner.frees]
    · rw [(frees_setInner (s.running h)).2]
      cases hx2 : x.2 <;> simp [Thread.frees,Out.inner,Out.frees,Inner.frees,(hth _).2.1]
  | isr =>
    cases a with
    | call c =>
      cases c <;> try cases hx
      · refine pass_setInner ?_
        rw [hi]
        split <;> rfl
      · exact taskUnblock_pass hx
    | ret => cases hx; exact pass_setInner (by rw [hi]; rfl)
    | go | interrupt | noMemory | advance => cases hx

theorem step_pass {a : Act} (hs : Sound harts s) (hr : (s.threads (s.running h)).inner=[] →
    (s.threads (s.running h)).main=.exiting → s.reapStack h=none)
    (hx : step harts h a s=some s') : Pass h (stock s) (stock s') := by
  obtain ⟨hh,⟨_,rfl⟩ | ⟨_,_,rfl⟩ | ⟨i,rest,hi,hx⟩ | ⟨hi,hx⟩⟩ := step_cases hx
  · exact .quiet _ fun _ => id
  · exact pass_setInner rfl
  · exact innerStep_pass hs hi hx
  · exact mainStep_pass hs hh hi rfl (hr hi) hx

def Reap.owes : Reap → Bool
  | .take => true
  | .free _ => false

/-- The next thing sched_switch does is to empty the hart's reap slot. -/
def Phase.owes : Phase → Bool
  | .reapFirst r => r.owes
  | .landed => true
  | .reapLast r => r.owes
  | _ => false

def Main.owes : Main → Bool
  | .start => true
  | .startReap r => r.owes
  | .yield p => p.owes
  | .block p _ => p.owes
  | _ => false

def owesFrom (m : Main) : List Inner → Bool
  | [] => m.owes
  | .isr::l => owesFrom m l
  | .yield p::_ => p.owes

/-- The thread reaps before it runs anything of its own. -/
def Thread.owes (th : Thread) : Bool := owesFrom th.main th.inner

/-- A hart whose reap slot is taken is on its way to empty it. -/
def Owing (harts : Nat) (s : Sys) : Prop := ∀h,h<harts → s.reapStack h≠none →
  (s.threads (s.running h)).main.life=.crossing ∨ (s.threads (s.running h)).owes=true

theorem Thread.owes_of_landing {th : Thread} (hc : th.code=.landing) (hg : th.main≠.gone) :
    th.owes=true := by
  unfold Thread.code at hc
  unfold Thread.owes
  cases hi : th.inner with
  | nil =>
    rw [hi] at hc
    cases hm : th.main <;> rw [hm] at hc <;> try cases hc
    · rfl
    next p => cases p <;> first | rfl | cases hc
    next p k => cases p <;> first | rfl | cases hc
    · exact absurd hm hg
  | cons i l =>
    rw [hi] at hc
    cases i with
    | isr => cases hc
    | yield p => cases p <;> first | rfl | cases hc

theorem schedReap_owes {r : Reap} {x : Sys × Option Reap} (hx : schedReap h r s=some x)
    (ho : r.owes=true) (hn : s.reapStack h≠none) : x.1.reapStack h=none := by
  cases r with
  | take =>
    simp only [schedReap] at hx
    split at hx
    · split at hx
      next hs => exact absurd hs hn
      next => cases hx; exact update_self _ _ _
    · cases hx
  | free st => cases ho

theorem schedSwitch_owes {b : Bool} {p : Phase} {x : Sys × Out}
    (hx : schedSwitch harts h b p s=some x) (ho : p.owes=true) (hn : s.reapStack h≠none) :
    x.1.reapStack h=none ∨ x.1.running=s.running ∧ ∃q,x.2=.at_ q ∧ q.owes=true := by
  cases p with
  | reapFirst r | reapLast r =>
    simp only [schedSwitch,Option.map_eq_some_iff] at hx
    obtain ⟨y,hr,rfl⟩ := hx
    exact .inl (schedReap_owes hr ho hn)
  | landed =>
    simp only [schedSwitch] at hx
    split at hx <;> cases hx
    exact .inr ⟨rfl,_,rfl,rfl⟩
  | enter | pick q | cross q n => cases ho

theorem owes_setMain {x : Sys} {t : Nat} {m : Main} (hi : (x.threads t).inner=[])
    (ho : m.owes=true) : ((x.setMain t m).threads t).owes=true := by
  have he : (x.setMain t m).threads t={x.threads t with main := m} := update_self _ _ _
  rw [he]
  unfold Thread.owes
  rw [hi]
  exact ho

theorem owes_setInner {x : Sys} {t : Nat} {l : List Inner} (ho : owesFrom (x.threads t).main l=true) :
    ((x.setInner t l).threads t).owes=true := by
  rw [(frees_setInner t).2]
  exact ho

theorem owes_main {m : Main} {a : Act} (hi : (s.threads (s.running h)).inner=[])
    (hm : (s.threads (s.running h)).main=m) (ho : m.owes=true) (hn : s.reapStack h≠none)
    (hx : mainStep harts h (s.running h) s m a=some s') :
    s'.reapStack h=none ∨ (s'.threads (s'.running h)).owes=true := by
  cases m with
  | start =>
    cases a <;> try cases hx
    simp only [mainStep] at hx
    split at hx <;> cases hx
    exact .inr (owes_setMain (m := .startReap .take) hi rfl)
  | startReap r =>
    cases a <;> try cases hx
    simp only [mainStep,Option.map_eq_some_iff] at hx
    obtain ⟨y,hr,rfl⟩ := hx
    exact .inl (schedReap_owes hr ho hn)
  | yield p | block p k =>
    cases a <;> try cases hx
    simp only [mainStep,Option.map_eq_some_iff] at hx
    obtain ⟨y,hr,rfl⟩ := hx
    rcases schedSwitch_owes hr ho hn with he | ⟨he,q,hq,hoq⟩
    · exact .inl he
    · refine .inr ?_
      change ((y.1.setMain (s.running h) _).threads (y.1.running h)).owes=true
      rw [he,hq]
      exact owes_setMain ((schedSwitch_threads hr _).1.trans hi) hoq
  | _ => cases ho

theorem owes_inner {i : Inner} {rest : List Inner} {a : Act}
    (hi : (s.threads (s.running h)).inner=i::rest) (ho : (s.threads (s.running h)).owes=true)
    (hn : s.reapStack h≠none) (hx : innerStep harts h (s.running h) s rest i a=some s') :
    s'.reapStack h=none ∨ (s'.threads (s'.running h)).owes=true := by
  unfold Thread.owes at ho
  rw [hi] at ho
  cases i with
  | yield p =>
    cases a <;> try cases hx
    simp only [innerStep,Option.map_eq_some_iff] at hx
    obtain ⟨y,hr,rfl⟩ := hx
    rcases schedSwitch_owes hr ho hn with he | ⟨he,q,hq,hoq⟩
    · exact .inl he
    · refine .inr ?_
      change ((y.1.setInner (s.running h) _).threads (y.1.running h)).owes=true
      rw [he,hq]
      exact owes_setInner hoq
  | isr =>
    cases a with
    | call c =>
      cases c <;> try cases hx
      · refine .inr (owes_setInner ?_)
        split
        · rfl
        · exact ho
      · refine .inr ?_
        have hx : taskUnblock _ s=some s' := hx
        have hr : s'.running=s.running := by
          unfold taskUnblock at hx
          split at hx
          · obtain ⟨_,rfl⟩ := locked_eq hx; rfl
          · cases hx; rfl
        rw [hr,taskUnblock_threads hx]
        unfold Thread.owes
        rw [hi]
        exact ho
    | ret => cases hx; exact .inr (owes_setInner ho)
    | go | interrupt | noMemory | advance => cases hx

theorem innerStep_other {i : Inner} {rest : List Inner} {a : Act} {u : Nat} (hu : u≠s.running h)
    (hx : innerStep harts h (s.running h) s rest i a=some s') : s'.threads u=s.threads u := by
  cases i with
  | yield p =>
    cases a <;> try cases hx
    simp only [innerStep,Option.map_eq_some_iff] at hx
    obtain ⟨y,hr,rfl⟩ := hx
    rw [(frees_setInner u).1 hu,schedSwitch_other hu hr]
  | isr =>
    cases a with
    | call c =>
      cases c <;> try cases hx
      · exact (frees_setInner u).1 hu
      · exact congrFun (taskUnblock_threads hx) u
    | ret => cases hx; exact (frees_setInner u).1 hu
    | go | interrupt | noMemory | advance => cases hx

theorem innerStep_stack {i : Inner} {rest : List Inner} {a : Act} {u : Nat}
    (hx : innerStep harts h (s.running h) s rest i a=some s') :
    (s'.threads u).stack=(s.threads u).stack := by
  have hset (x : Sys) (l : List Inner) :
      ((x.setInner (s.running h) l).threads u).stack=(x.threads u).stack := by
    by_cases hu : u=s.running h
    · subst hu; rw [(frees_setInner (s.running h)).2]
    · rw [(frees_setInner u).1 hu]
  cases i with
  | yield p =>
    cases a <;> try cases hx
    simp only [innerStep,Option.map_eq_some_iff] at hx
    obtain ⟨y,hr,rfl⟩ := hx
    rw [hset,(schedSwitch_threads hr u).2.2]
  | isr =>
    cases a with
    | call c =>
      cases c <;> try cases hx
      · exact hset _ _
      · exact congrArg Thread.stack (congrFun (taskUnblock_threads hx) u)
    | ret => cases hx; exact hset _ _
    | go | interrupt | noMemory | advance => cases hx

theorem life_crossing {m : Main} (hl : m.life=.crossing) : ∃p n,m=.exitCross p n := by
  cases m <;> first | exact ⟨_,_,rfl⟩ | cases hl

theorem Owing.step (ow : Owing harts s) (hs : Sound harts s) {a : Act}
    (hp : Pass h (stock s) (stock s')) (hx : step harts h a s=some s') : Owing harts s' := by
  intro g hg hn
  obtain ⟨hh,hx'⟩ := step_cases hx
  by_cases hgh : g=h
  · subst hgh
    by_cases h0 : s.reapStack g=none
    · exact .inl (hp.filled h0 hn)
    · rcases ow g hg h0 with hc | ho
      · obtain ⟨p,n,hm⟩ := life_crossing hc
        have hin : (s.threads (s.running g)).inner=[] := by
          by_contra hin
          rw [inner_life hs hin] at hc; cases hc
        have hcode : (view s).code ((view s).running g)=.cross p n true := by
          simp [view,Thread.code,hin,hm,Main.code]
        rcases hx' with ⟨_,rfl⟩ | ⟨_,hl,rfl⟩ | ⟨i,rest,hi,_⟩ | ⟨_,hx'⟩
        · exact .inl hc
        · exact absurd ((hs.linked.lockCode g hg).1 (by rw [hcode]; rintro ⟨⟩)) hl
        · rw [hin] at hi; cases hi
        · rw [hm] at hx'
          cases a <;> try cases hx'
          simp only [mainStep] at hx'
          split at hx'
          · simp only [Option.map_eq_some_iff] at hx'
            obtain ⟨s1,hs1,rfl⟩ := hx'
            obtain ⟨f,_,⟨_,hgone,hnr⟩,hth,hv⟩ := ctxSwitch_view hs1
            have hr : s1.running g=f.thread := by
              rw [show s1.running=_ from congrArg View.running hv]
              exact update_self _ _ _
            have hne : f.thread≠s.running g := (hnr g hg).symm
            refine .inr ?_
            change ((s1.setMain (s.running g) .gone).threads (s1.running g)).owes=true
            rw [hr,setMain_other hne,hth,update_of_ne hne]
            exact Thread.owes_of_landing (hs.linked.parked _ fun k hk => hnr k hk) hgone
          · cases hx'
      · rcases hx' with ⟨_,rfl⟩ | ⟨_,_,rfl⟩ | ⟨i,rest,hi,hx'⟩ | ⟨hi,hx'⟩
        · exact .inr ho
        · exact .inr (owes_setInner ho)
        · rcases owes_inner hi ho h0 hx' with he | he
          · exact absurd he hn
          · exact .inr he
        · unfold Thread.owes at ho
          rw [hi] at ho
          rcases owes_main hi rfl ho h0 hx' with he | he
          · exact absurd he hn
          · exact .inr he
  · obtain ⟨h1,h2⟩ := hp.other hgh
    have h1 : s'.reapStack g=s.reapStack g := h1
    have h2 : s'.running g=s.running g := h2
    have hne : s.running g≠s.running h := hs.linked.other hh hg hgh
    have hth : s'.threads (s.running g)=s.threads (s.running g) := by
      rcases hx' with ⟨_,rfl⟩ | ⟨_,_,rfl⟩ | ⟨i,rest,hi,hx'⟩ | ⟨hi,hx'⟩
      · rfl
      · exact (frees_setInner _).1 hne
      · exact innerStep_other hne hx'
      · exact mainStep_other hne (fun k st hm hk =>
          (hs.ties hg).runs.2 (s.running h) k (by simp [stock,hm,Main.work,Work.target]) hk) hx'
    rw [h1] at hn
    rw [h2,hth]
    exact ow g hg hn

/-- What holds of stacks in every state of every run. -/
structure Housed (harts : Nat) (s : Sys) : Prop where
  sound : Sound harts s
  stocked : Stocked harts (stock s)
  owing : Owing harts s

theorem Housed.handOver (hd : Housed harts s) (hh : h<harts)
    (hi : (s.threads (s.running h)).inner=[]) (hm : (s.threads (s.running h)).main=.exiting) :
    s.reapStack h=none := by
  by_contra hn
  rcases hd.owing h hh hn with hc | ho
  · rw [hm] at hc; cases hc
  · unfold Thread.owes at ho
    rw [hi,hm] at ho; cases ho

theorem Housed.step (hd : Housed harts s) {a : Act} (hx : step harts h a s=some s') :
    Housed harts s' := by
  have hh := (step_cases hx).1
  have hp := step_pass hd.sound (fun hi hm => hd.handOver hh hi hm) hx
  exact ⟨hd.sound.step hx,hd.stocked.pass (hd.sound.ties hh) hh hp,hd.owing.step hd.sound hp hx⟩

theorem schedInit_housed (harts : Nat) : Housed harts (schedInit harts) := by
  have hthread (t : Nat) : (schedInit harts).threads t=if t<harts then {main := .user} else {} := rfl
  have hfrees (t : Nat) : ((schedInit harts).threads t).frees=[] := by
    rw [hthread]; split <;> rfl
  have hwork (t : Nat) : ((schedInit harts).threads t).main.work=.none := by
    rw [hthread]; split <;> rfl
  have hlife (t : Nat) : ((schedInit harts).threads t).main.life=.live := by
    rw [hthread]; split <;> rfl
  have hstack (t : Nat) : ((schedInit harts).threads t).stack=none := by
    rw [hthread]; split <;> rfl
  have hbase (i : Nat) : ((schedInit harts).tasks i).stackBase=none := by
    simp only [schedInit]
    by_cases hi : i=0
    · subst hi; rw [update_self]
    · rw [update_of_ne hi]
  refine ⟨schedInit_sound harts,?_,fun h hh hn => absurd rfl hn⟩
  exact {
    conserved := by
      refine ⟨fun _ => .freed,fun x c => ⟨fun hi => absurd hi.1 (Nat.not_lt_zero x),fun _ => ?_⟩⟩
      rw [List.count_eq_zero]
      cases c with
      | task i => simp [Stock.cells,stock,hbase]
      | hart h => simp [Stock.cells,stock,schedInit]
      | reaper t => simp [Stock.cells,stock,hfrees]
      | maker t => simp [Stock.cells,stock,hwork,Work.holds]
      | freed => simp [Stock.cells,stock,schedInit]
    vacant := fun k _ => hbase k
    slot := fun c k hc => absurd hc (by simp [stock,hwork,Work.target])
    prime := fun c k st hc => absurd hc (by simp [stock,hwork])
    blank := fun t _ => ⟨hstack t,hfrees t,hwork t⟩
    live := fun i t st _ h2 => absurd h2 (by simp [stock,hstack])
    owner := fun t st h1 => absurd h1 (by simp [stock,hstack])
    crossing := fun t st h1 => absurd h1 (by simp [stock,hstack])
    gone := fun t st h1 => absurd h1 (by simp [stock,hstack])}

theorem reach_housed {ok : Sys → Act → Bool} {hist : List (Nat × Act)}
    (hr : Reach (Goes harts ok) (schedInit harts) hist s) : Housed harts s :=
  hr.invariant (fun _ s => Housed harts s) (schedInit_housed harts) fun _ _ _ _ hd he => hd.step he.2

theorem Housed.safe (hd : Housed harts s) {t st : Nat} (ht : (s.threads t).stack=some st)
    (hf : st∈s.freed ∨ ∃u,st∈(s.threads u).frees) :
    (s.threads t).main=.gone ∧ ∀h,h<harts → s.running h≠t := by
  have hcell : st∈(stock s).cells .freed ∨ ∃u,st∈(stock s).cells (.reaper u) := hf
  have hone {c d : Place} := hd.stocked.conserved.unique (x := st) (c := c) (d := d)
  have hgone : (s.threads t).main=.gone := by
    cases hl : (s.threads t).main.life with
    | gone => cases hm : (s.threads t).main <;> rw [hm] at hl <;> first | rfl | cases hl
    | live =>
      obtain ⟨i,_,hb⟩ := hd.stocked.owner t st ht hl
      have hi : st∈(stock s).cells (.task i) := mem_toList.2 hb
      rcases hcell with hc | ⟨u,hc⟩ <;> cases hone hi hc
    | crossing =>
      obtain ⟨g,_,_,hb⟩ := hd.stocked.crossing t st ht hl
      have hi : st∈(stock s).cells (.hart g) := mem_toList.2 hb
      rcases hcell with hc | ⟨u,hc⟩ <;> cases hone hi hc
  refine ⟨hgone,fun h hh he => ?_⟩
  have := hd.sound.linked.alive h hh
  simp only [view,he,hgone] at this
  cases this

/-- Where the stacks of exited tasks are. -/
structure Reaped (harts : Nat) (s : Sys) : Prop where
  handOver : ∀h,h<harts → (s.threads (s.running h)).inner=[] →
    (s.threads (s.running h)).main=.exiting → s.reapStack h=none
  left : ∀t st,(s.threads t).stack=some st → (s.threads t).main=.gone →
    ∃c,c.reaped=true ∧ st∈(stock s).cells c
  once : s.freed.Nodup ∧ ∀st c d,st∈(stock s).cells c → st∈(stock s).cells d → c=d
  owed : ∀h,h<harts → s.reapStack h≠none →
    (s.threads (s.running h)).main.life=.crossing ∨ (s.threads (s.running h)).owes=true
  safe : ∀t st,(s.threads t).stack=some st → (st∈s.freed ∨ ∃u,st∈(s.threads u).frees) →
    (s.threads t).main=.gone ∧ ∀h,h<harts → s.running h≠t
  intact : ∀h p n d,h<harts → (s.threads (s.running h)).code=.cross p n d →
    ∃f,(s.tasks n).sp=some f ∧ Intact harts s f

/-- The stack of a task whose task_exit found a successor is in its hart's reap slot, in the hands
of one sched_reap or given to palloc_free, once, while no hart runs or can resume the task. -/
theorem stacks_reaped (h0 : 0<harts) {hist : List (Nat × Act)}
    (hr : Reach (Goes harts fresh) (schedInit harts) hist s) : Reaped harts s := by
  have hd := reach_housed hr
  have hk := reach_kept h0 hr
  exact {
    handOver := fun h hh => hd.handOver hh
    left := fun t st h1 h2 => hd.stocked.gone t st h1 (by simp [stock,h2,Main.life])
    once := ⟨hd.stocked.conserved.nodup .freed,fun st c d => hd.stocked.conserved.unique⟩
    owed := hd.owing
    safe := fun t st => hd.safe
    intact := fun h p n d hh hc => hk.intact hh hc}

/-- Task 1 exits while task 0 runs on, whose next sched_yield frees the stack. -/
def exitOne : List (Nat × Act) := [(0,.call (.create none)),(0,.go),(0,.go),(0,.go),(0,.go),
  (0,.call .yield),(0,.go),(0,.go),(0,.go),(0,.go),(0,.go),(0,.go),(0,.call .exit),(0,.go),(0,.go),
  (0,.go),(0,.go),(0,.go)]

theorem stacks_reaped_one : ∃hist s,Reach (Goes 1 fresh) (schedInit 1) hist s ∧ s.freed=[0] ∧
    (s.threads 2).stack=some 0 ∧ Reaped 1 s := by
  have hex : (Run.exec (advance 1 fresh) exitOne (schedInit 1)).any fun s =>
      s.freed==[0] && (s.threads 2).stack==some 0 := by decide +kernel
  obtain ⟨s,hr,hex⟩ := Reach.exec_any goes_advance hex
  simp only [Bool.and_eq_true,beq_iff_eq] at hex
  exact ⟨_,s,hr,hex.1,hex.2,stacks_reaped (by decide) hr⟩

theorem halted_stays (hd : Housed harts s) {t st : Nat} {a : Act}
    (hm : (s.threads t).main=.halted) (ht : (s.threads t).stack=some st)
    (hx : step harts h a s=some s') :
    (s'.threads t).main=.halted ∧ (s'.threads t).stack=some st := by
  have hb : (stock s).begun t := by
    by_contra hb
    have := (hd.stocked.blank t hb).1
    rw [show (stock s).stack t=some st from ht] at this; cases this
  by_cases htr : t=s.running h
  · obtain ⟨_,⟨_,rfl⟩ | ⟨_,_,rfl⟩ | ⟨i,rest,hi,hx⟩ | ⟨hi,hx⟩⟩ := step_cases hx
    · exact ⟨hm,ht⟩
    · subst htr; rw [(frees_setInner (s.running h)).2]; exact ⟨hm,ht⟩
    · rw [(innerStep_task 0 hx).1,innerStep_stack hx]; exact ⟨hm,ht⟩
    · rw [← htr,hm] at hx
      cases a <;> cases hx
  · have hsame : s'.threads t=s.threads t := by
      obtain ⟨_,⟨_,rfl⟩ | ⟨_,_,rfl⟩ | ⟨i,rest,hi,hx⟩ | ⟨hi,hx⟩⟩ := step_cases hx
      · rfl
      · exact (frees_setInner _).1 htr
      · exact innerStep_other htr hx
      · exact mainStep_other htr (fun k st hm hk =>
          hb.2 (s.running h) k (by simp [stock,hm,Main.work,Work.target]) hk) hx
    rw [hsame]
    exact ⟨hm,ht⟩

/-- Task 0 blocks and task 1 exits, with nothing else to run. -/
def exitAlone : List (Nat × Act) := [(0,.call (.create none)),(0,.go),(0,.go),(0,.go),(0,.go),
  (0,.call .block),(0,.go),(0,.go),(0,.go),(0,.go),(0,.go),(0,.go),(0,.call .exit),(0,.go)]

theorem stacks_reaped_alone : ∃hist s,Reach (Goes 1 fresh) (schedInit 1) hist s ∧
    (s.threads 2).main=.halted ∧ (s.threads 2).stack=some 0 ∧
    ∀hist' s',Reach (Goes 1 always) s hist' s' → 0∉s'.freed := by
  have hex : (Run.exec (advance 1 fresh) exitAlone (schedInit 1)).any fun s =>
      (s.threads 2).main==.halted && (s.threads 2).stack==some 0 := by decide +kernel
  obtain ⟨s,hr,hex⟩ := Reach.exec_any goes_advance hex
  simp only [Bool.and_eq_true,beq_iff_eq] at hex
  refine ⟨_,s,hr,hex.1,hex.2,fun hist' s' hr' hf => ?_⟩
  have hinv : Housed 1 s' ∧ (s'.threads 2).main=.halted ∧ (s'.threads 2).stack=some 0 :=
    hr'.invariant (fun _ s => Housed 1 s ∧ (s.threads 2).main=.halted ∧ (s.threads 2).stack=some 0)
      ⟨reach_housed hr,hex⟩ fun _ _ _ _ hi he =>
        ⟨hi.1.step he.2,halted_stays hi.1 hi.2.1 hi.2.2 he.2⟩
  have := (hinv.1.safe hinv.2.2 (.inl hf)).1
  rw [hinv.2.1] at this; cases this

end LugalOS.Sched
