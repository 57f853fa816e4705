import LugalOS.Sched.Table

namespace LugalOS.Sched

/-- What the hart that executes a thread is doing with g_sched_lock: it does not hold it, it
holds it to pick a task or to cross to one, or it was handed it and has not released it. -/
inductive Code where
  | free
  | pick (block : Bool)
  | cross (prev next : Nat) (dead : Bool)
  | landing
  | stuck
deriving DecidableEq

/-- The hand-over of harts between tasks: what the switch keeps in g_tasks and g_current, and of
each thread what it is doing with the lock, the slot it is creating a task in (and whether it has
primed the frame), and whether it gave its stack up. -/
structure View where
  state : Nat → TaskState
  sp : Nat → Option Frame
  thread : Nat → Option Nat
  making : Nat → Bool
  current : Nat → Option Nat
  lock : Option Nat
  running : Nat → Nat
  code : Nat → Code
  makes : Nat → Option (Nat × Bool)
  gone : Nat → Bool
  parks : Nat → Nat
  next : Nat

/-- A slot that task_create_full may take. -/
def Vacant (x : TaskState) : Prop := x=.unused ∨ x=.dead

/-- Tasks of W that were BLOCKED were woken. -/
def View.Woke (v : View) (W : Nat → Prop) (st : Nat → TaskState) : Prop :=
  ∀i,st i=v.state i ∨ W i ∧ v.state i=.blocked ∧ st i=.ready

open Function (update update_of_ne update_self update_eq_self)

/-- The hand-over protocol: one step of hart h, which may wake the tasks of W. -/
inductive Hand (harts : Nat) (W : Nat → Prop) (h : Nat) (v : View) : View → Prop where
  | wake (st : Nat → TaskState) : v.lock=none → v.Woke W st → Hand harts W h v {v with state := st}
  | enter (b : Bool) (i : Nat) : v.lock=none → v.current h=some i → v.code (v.running h)=.free →
      Hand harts W h v {v with
        lock := some h,code := update v.code (v.running h) (.pick b),
        state := if b then update v.state i .blocked else v.state}
  | drop (b : Bool) (i : Nat) (st : Nat → TaskState) (x : TaskState) : v.lock=some h →
      v.current h=some i → v.code (v.running h)=.pick b → v.Woke W st →
      (x=.running ∨ b=false ∧ x=st i) →
      Hand harts W h v {v with
        lock := none,code := update v.code (v.running h) .free,state := update st i x}
  | choose (b : Bool) (i n : Nat) (st : Nat → TaskState) : v.lock=some h → v.current h=some i →
      v.code (v.running h)=.pick b → v.Woke W st → n≠i → n < maxTasks → st n=.ready →
      Hand harts W h v {v with
        state := update (update st i (if st i=.running then .ready else st i)) n .running,
        current := update v.current h (some n),
        code := update v.code (v.running h) (.cross i n false)}
  | cross (p n : Nat) (d : Bool) (f : Frame) : v.lock=some h →
      v.code (v.running h)=.cross p n d → v.sp n=some f → f.seq=v.parks f.thread →
      v.gone f.thread=false → (∀g,g<harts → v.running g≠f.thread) →
      Hand harts W h v {v with
        sp := update v.sp p (some ⟨v.running h,v.parks (v.running h)+1⟩),
        parks := update v.parks (v.running h) (v.parks (v.running h)+1),
        code := update v.code (v.running h) .landing,
        gone := update v.gone (v.running h) d,
        running := update v.running h f.thread}
  | land : v.lock=some h → v.code (v.running h)=.landing →
      Hand harts W h v {v with lock := none,code := update v.code (v.running h) .free}
  | reserve (k : Nat) : v.lock=none → k < maxTasks → Vacant (v.state k) → v.makes (v.running h)=none →
      v.code (v.running h)=.free →
      Hand harts W h v {v with
        state := update v.state k .blocked,thread := update v.thread k (some v.next),
        making := update v.making k true,makes := update v.makes (v.running h) (some (k,false)),
        next := v.next+1}
  | giveUp (k : Nat) : v.makes (v.running h)=some (k,false) →
      Hand harts W h v {v with
        state := update v.state k .unused,making := update v.making k false,
        makes := update v.makes (v.running h) none}
  | prime (k u : Nat) : v.makes (v.running h)=some (k,false) → v.thread k=some u →
      Hand harts W h v {v with
        sp := update v.sp k (some ⟨u,0⟩),code := update v.code u .landing,
        makes := update (update v.makes u none) (v.running h) (some (k,true)),
        gone := update v.gone u false,parks := update v.parks u 0}
  | publish (k : Nat) : v.lock=none → v.makes (v.running h)=some (k,true) →
      Hand harts W h v {v with
        state := update v.state k .ready,making := update v.making k false,
        makes := update v.makes (v.running h) none}
  | exit (i n : Nat) (st : Nat → TaskState) : v.lock=none → v.current h=some i →
      v.code (v.running h)=.free → v.Woke W st → n < maxTasks → st n=.ready →
      Hand harts W h v {v with
        state := update (update st i .dead) n .running,
        current := update v.current h (some n),lock := some h,
        code := update v.code (v.running h) (.cross i n true)}
  | stick (st : Nat → TaskState) : v.lock=none → v.Woke W st → v.code (v.running h)=.free →
      (v.current h).isSome → Hand harts W h v {v with
        state := st,lock := some h,code := update v.code (v.running h) .stuck}
  | secondary (k : Nat) : v.lock=none → v.current h=none → k < maxTasks → v.state k=.unused →
      Hand harts W h v {v with
        state := update v.state k .running,thread := update v.thread k (some (v.running h)),
        current := update v.current h (some k)}

/-- Hart h and the slots it is at: the current one is that of the thread it executes, or, while it
crosses, of the one it goes to. -/
def HartOk (v : View) (h : Nat) : Prop :=
  match v.code (v.running h) with
  | .cross p n d => p < maxTasks ∧ v.thread p=some (v.running h) ∧ (d=false → ¬Vacant (v.state p)) ∧
      v.current h=some n ∧ n < maxTasks ∧
      (¬Vacant (v.state n) ∨ ∀f,v.sp n=some f → v.gone f.thread=true)
  | c => match v.current h with
    | some i => i < maxTasks ∧ v.thread i=some (v.running h) ∧ ¬Vacant (v.state i)
    | none => c=.free ∧ ∀i,v.thread i≠some (v.running h)

/-- Threads, slots and harts belong together, whatever slots are woken. -/
structure Linked (harts : Nat) (v : View) : Prop where
  lockHart : ∀h,v.lock=some h → h<harts
  lockCode : ∀h,h<harts → (v.code (v.running h)≠.free ↔ v.lock=some h)
  parked : ∀t,(∀h,h<harts → v.running h≠t) → v.code t=.landing
  inj : ∀g h,g<harts → h<harts → v.running g=v.running h → g=h
  runLt : ∀h,h<harts → v.running h<v.next
  alive : ∀h,h<harts → v.gone (v.running h)=false
  hart : ∀h,h<harts → HartOk v h
  thrInj : ∀i j t,v.thread i=some t → v.thread j=some t → i=j
  thrLt : ∀i t,v.thread i=some t → t<v.next
  spLt : ∀i f,v.sp i=some f → f.thread<v.next
  sp : ∀i f,v.sp i=some f → v.thread i=some f.thread ∨ v.gone f.thread=true
  spDead : ∀i f,Vacant (v.state i) → (∀h,h<harts → v.thread i≠some (v.running h)) →
    v.sp i=some f → v.gone f.thread=true
  make : ∀c k,v.makes c=some (k,false) → k < maxTasks ∧ ¬Vacant (v.state k) ∧ ∃u,v.thread k=some u ∧
    (∀h,h<harts → v.running h≠u) ∧ ∀i f,v.sp i=some f → f.thread≠u
  makeInj : ∀c d k,v.makes c=some (k,false) → v.makes d=some (k,false) → c=d
  fresh : ∀t,v.next≤t → v.makes t=none ∧ v.gone t=false

variable {harts h : Nat} {W : Nat → Prop} {v : View}

theorem Linked.other (l : Linked harts v) (hh : h<harts) {g : Nat} (hg : g<harts) (hne : g≠h) :
    v.running g≠v.running h := fun he => hne (l.inj g h hg hh he)

theorem Linked.free (l : Linked harts v) {g : Nat} (hg : g<harts) (hl : v.lock≠some g) :
    v.code (v.running g)=.free := by
  by_contra hn
  exact hl ((l.lockCode g hg).1 hn)

theorem HartOk.current (hk : HartOk v h) (hc : ∀p n d,v.code (v.running h)≠.cross p n d) {i : Nat}
    (hi : v.current h=some i) :
    i < maxTasks ∧ v.thread i=some (v.running h) ∧ ¬Vacant (v.state i) := by
  unfold HartOk at hk
  split at hk
  next p n d he => exact absurd he (hc p n d)
  next => rw [hi] at hk; exact hk

theorem HartOk.cross (hk : HartOk v h) {p n : Nat} {d : Bool}
    (hc : v.code (v.running h)=.cross p n d) :
    p < maxTasks ∧ v.thread p=some (v.running h) ∧ (d=false → ¬Vacant (v.state p)) ∧
      v.current h=some n ∧ n < maxTasks ∧
      (¬Vacant (v.state n) ∨ ∀f,v.sp n=some f → v.gone f.thread=true) := by
  unfold HartOk at hk
  rw [hc] at hk
  exact hk

theorem HartOk.ofCurrent (hc : ∀p n d,v.code (v.running h)≠.cross p n d) {i : Nat}
    (hi : v.current h=some i)
    (hk : i < maxTasks ∧ v.thread i=some (v.running h) ∧ ¬Vacant (v.state i)) : HartOk v h := by
  unfold HartOk
  split
  next p n d he => exact absurd he (hc p n d)
  next => rw [hi]; exact hk

theorem HartOk.frame {v' : View} {g : Nat} (hk : HartOk v g) (hr : v'.running g=v.running g)
    (hc : v'.code (v.running g)=v.code (v.running g)) (hcur : v'.current g=v.current g)
    (ht : ∀i,v.thread i=some (v.running g) ↔ v'.thread i=some (v.running g))
    (hs : ∀i,¬Vacant (v.state i) → v.thread i=some (v.running g) → ¬Vacant (v'.state i))
    (hn : ∀p n d,v.code (v.running g)=.cross p n d →
      (¬Vacant (v.state n) ∨ ∀f,v.sp n=some f → v.gone f.thread=true) →
      (¬Vacant (v'.state n) ∨ ∀f,v'.sp n=some f → v'.gone f.thread=true)) : HartOk v' g := by
  unfold HartOk at hk ⊢
  rw [hr,hc,hcur]
  split at hk
  next p n d he =>
    obtain ⟨h1,h2,h3,h4,h5,h6⟩ := hk
    exact ⟨h1,(ht p).1 h2,fun hd => hs p (h3 hd) h2,h4,h5,hn p n d he h6⟩
  next =>
    split at hk
    next i _ => exact ⟨hk.1,(ht i).1 hk.2.1,hs i hk.2.2 hk.2.1⟩
    next => exact ⟨hk.1,fun i hi => hk.2 i ((ht i).2 hi)⟩

theorem Linked.states (l : Linked harts v) (st : Nat → TaskState)
    (hs : ∀j,Vacant (st j) → Vacant (v.state j) ∨
      ∃g n,g<harts ∧ v.code (v.running g)=.cross j n true ∧ ¬Vacant (st n)) :
    Linked harts {v with state := st} := by
  have hkeep (j : Nat) (hv : ¬Vacant (v.state j))
      (hn : ∀g n,g<harts → v.code (v.running g)=.cross j n true → Vacant (st n)) :
      ¬Vacant (st j) := fun hst => by
    rcases hs j hst with hv' | ⟨g,n,hg,hc,hn'⟩
    · exact hv hv'
    · exact hn' (hn g n hg hc)
  have hlock {g g' : Nat} (hg : g<harts) (hg' : g'<harts) (h1 : v.code (v.running g)≠.free)
      (h2 : v.code (v.running g')≠.free) : g=g' := by
    have := (l.lockCode g hg).1 h1
    rw [(l.lockCode g' hg').1 h2] at this
    exact (Option.some.inj this).symm
  exact {l with
    hart := by
      intro g hg
      have hk := l.hart g hg
      by_cases hc : ∃p n d,v.code (v.running g)=.cross p n d
      · obtain ⟨p,n,d,hc⟩ := hc
        obtain ⟨h1,h2,h3,h4,h5,h6⟩ := hk.cross hc
        unfold HartOk
        simp only [hc]
        refine ⟨h1,h2,fun hd => hkeep p (h3 hd) fun g' n' hg' hc' => ?_,h4,h5,?_⟩
        · have := hlock hg hg' (by simp [hc]) (by simp [hc'])
          subst this
          rw [hc] at hc'; cases hd; cases hc'
        · rcases h6 with h6 | h6
          · by_cases hst : Vacant (st n)
            · rcases hs n hst with hv | ⟨g',n',hg',hc',hn'⟩
              · exact absurd hv h6
              · have := hlock hg hg' (by simp [hc]) (by simp [hc'])
                subst this
                rw [hc] at hc'; cases hc'
                exact absurd hst hn'
            · exact .inl hst
          · exact .inr h6
      · have hc (p n d) : v.code (v.running g)≠.cross p n d := fun he => hc ⟨p,n,d,he⟩
        refine hk.frame rfl rfl rfl (fun _ => Iff.rfl) (fun i hv ht => hkeep i hv fun g' n' hg' hc' => ?_)
          (fun p n d he => absurd he (hc p n d))
        have hp := ((l.hart g' hg').cross hc').2.1
        rw [ht] at hp
        have := l.inj g g' hg hg' (Option.some.inj hp)
        subst this
        exact absurd hc' (hc _ _ _)
    spDead := by
      intro i f hv hrun hf
      rcases hs i hv with hv' | ⟨g,n,hg,hc,_⟩
      · exact l.spDead i f hv' hrun hf
      · exact absurd ((l.hart g hg).cross hc).2.1 (hrun g hg)
    make := by
      intro c k hc
      obtain ⟨h1,h2,u,h3,h4,h5⟩ := l.make c k hc
      refine ⟨h1,hkeep k h2 fun g n hg hcg => ?_,u,h3,h4,h5⟩
      have hp := ((l.hart g hg).cross hcg).2.1
      rw [h3] at hp
      exact absurd (Option.some.inj hp).symm (h4 g hg)}

theorem Linked.turn (l : Linked harts v) (hh : h<harts) (c : Code) (lk : Option Nat)
    (cur : Option Nat) (hl : v.lock=none ∨ v.lock=some h)
    (hlk : lk=some h ∧ c≠.free ∨ lk=none ∧ c=.free)
    (hk : HartOk {v with
      lock := lk,code := update v.code (v.running h) c,current := update v.current h cur} h) :
    Linked harts {v with
      lock := lk,code := update v.code (v.running h) c,current := update v.current h cur} :=
  {l with
    lockHart := by
      intro g hg
      rcases hlk with ⟨rfl,_⟩ | ⟨rfl,_⟩
      · exact Option.some.inj hg ▸ hh
      · cases hg
    lockCode := by
      intro g hg
      by_cases hgh : g=h
      · subst hgh
        rcases hlk with ⟨rfl,hc⟩ | ⟨rfl,rfl⟩
        · simpa using hc
        · simp
      · have hf := l.free hg (by rcases hl with e | e <;> simp [e,Ne.symm hgh])
        rcases hlk with ⟨rfl,_⟩ | ⟨rfl,_⟩ <;>
          simp [update_of_ne (l.other hh hg hgh),hf,Ne.symm hgh]
    parked := by
      intro t ht
      rw [← l.parked t ht]
      exact update_of_ne (ht h hh).symm _ _
    hart := by
      intro g hg
      by_cases hgh : g=h
      · subst hgh; exact hk
      · exact (l.hart g hg).frame rfl (update_of_ne (l.other hh hg hgh) _ _)
          (update_of_ne hgh _ _) (fun _ => Iff.rfl) (fun _ hv _ => hv) (fun _ _ _ _ hv => hv)}

theorem View.Woke.vacant {st : Nat → TaskState} (hw : v.Woke W st) {i : Nat} (hv : Vacant (st i)) :
    Vacant (v.state i) := by
  rcases hw i with he | ⟨_,_,he⟩
  · rwa [← he]
  · rw [he] at hv; rcases hv with hv | hv <;> cases hv

theorem not_vacant_update {st : Nat → TaskState} {i j : Nat} {x : TaskState} (hx : ¬Vacant x)
    (hv : Vacant (update st i x j)) : Vacant (st j) := by
  by_cases hj : j=i
  · subst hj; rw [update_self] at hv; exact absurd hv hx
  · rwa [update_of_ne hj] at hv

theorem Linked.enter (l : Linked harts v) (hh : h<harts) (b : Bool) {i : Nat} (hl : v.lock=none)
    (hc : v.current h=some i) (hf : v.code (v.running h)=.free) :
    Linked harts {v with
      lock := some h,code := update v.code (v.running h) (.pick b),
      state := if b then update v.state i .blocked else v.state} := by
  have ht := l.turn hh (.pick b) (some h) (some i) (.inl hl) (.inl ⟨rfl,(by rintro ⟨⟩)⟩)
    (HartOk.ofCurrent (by simp) (by simp) ((l.hart h hh).current (by simp [hf]) hc))
  rw [← hc,update_eq_self] at ht
  refine ht.states _ fun j hv => .inl ?_
  cases b
  · exact hv
  · exact not_vacant_update (by simp [Vacant]) hv

theorem Linked.drop (l : Linked harts v) (hh : h<harts) {b : Bool} {i : Nat} {st : Nat → TaskState}
    {x : TaskState} (hl : v.lock=some h) (hc : v.current h=some i)
    (hp : v.code (v.running h)=.pick b) (hw : v.Woke W st) (hx : x=.running ∨ b=false ∧ x=st i) :
    Linked harts {v with
      lock := none,code := update v.code (v.running h) .free,state := update st i x} := by
  have ht := l.turn hh .free none (some i) (.inr hl) (.inr ⟨rfl,rfl⟩)
    (HartOk.ofCurrent (by simp) (by simp) ((l.hart h hh).current (by simp [hp]) hc))
  rw [← hc,update_eq_self] at ht
  refine ht.states _ fun j hv => .inl ?_
  rcases hx with rfl | ⟨_,rfl⟩
  · exact hw.vacant (not_vacant_update (by simp [Vacant]) hv)
  · rw [update_eq_self] at hv; exact hw.vacant hv

theorem Linked.choose (l : Linked harts v) (hh : h<harts) {b : Bool} {i n : Nat}
    {st : Nat → TaskState} (hl : v.lock=some h) (hc : v.current h=some i)
    (hp : v.code (v.running h)=.pick b) (hw : v.Woke W st) (hn : n < maxTasks) (hr : st n=.ready) :
    Linked harts {v with
      state := update (update st i (if st i=.running then .ready else st i)) n .running,
      current := update v.current h (some n),
      code := update v.code (v.running h) (.cross i n false)} := by
  obtain ⟨h1,h2,h3⟩ := (l.hart h hh).current (by simp [hp]) hc
  have hv : ¬Vacant (v.state n) := fun hv => by
    rcases hw n with he | ⟨_,he,_⟩
    · rw [← he,hr] at hv; rcases hv with hv | hv <;> cases hv
    · rw [he] at hv; rcases hv with hv | hv <;> cases hv
  have ht := l.turn hh (.cross i n false) v.lock (some n) (.inr hl) (.inl ⟨hl,(by rintro ⟨⟩)⟩)
    (by unfold HartOk; simp only [update_self]; exact ⟨h1,h2,fun _ => h3,trivial,hn,.inl hv⟩)
  refine ht.states _ fun j hj => .inl ?_
  have hj := not_vacant_update (by simp [Vacant]) hj
  by_cases hji : j=i
  · subst hji
    rw [update_self] at hj
    split at hj
    · rcases hj with hj | hj <;> cases hj
    · exact hw.vacant hj
  · rw [update_of_ne hji] at hj; exact hw.vacant hj

theorem Linked.land (l : Linked harts v) (hh : h<harts) (hl : v.lock=some h)
    (hc : v.code (v.running h)=.landing) :
    Linked harts {v with lock := none,code := update v.code (v.running h) .free} := by
  have ht := l.turn hh .free none (v.current h) (.inr hl) (.inr ⟨rfl,rfl⟩) (by
    unfold HartOk
    simp only [update_self]
    have hk := l.hart h hh
    unfold HartOk at hk
    simp only [hc] at hk
    split at hk
    next i hi => simpa only [hi] using hk
    next => exact absurd hk.1 (by rintro ⟨⟩))
  rwa [update_eq_self] at ht

theorem Linked.exit (l : Linked harts v) (hh : h<harts) {i n : Nat} {st : Nat → TaskState}
    (hl : v.lock=none) (hc : v.current h=some i) (hf : v.code (v.running h)=.free) (hw : v.Woke W st)
    (hn : n < maxTasks) (hr : st n=.ready) :
    Linked harts {v with
      state := update (update st i .dead) n .running,current := update v.current h (some n),
      lock := some h,code := update v.code (v.running h) (.cross i n true)} := by
  obtain ⟨h1,h2,h3⟩ := (l.hart h hh).current (by simp [hf]) hc
  have hv : ¬Vacant (v.state n) := fun hv => by
    rcases hw n with he | ⟨_,he,_⟩
    · rw [← he,hr] at hv; rcases hv with hv | hv <;> cases hv
    · rw [he] at hv; rcases hv with hv | hv <;> cases hv
  have ht := l.turn hh (.cross i n true) (some h) (some n) (.inl hl) (.inl ⟨rfl,(by rintro ⟨⟩)⟩)
    (by unfold HartOk; simp only [update_self]; exact ⟨h1,h2,(by rintro ⟨⟩),trivial,hn,.inl hv⟩)
  refine ht.states _ fun j hj => ?_
  have hj := not_vacant_update (by simp [Vacant]) hj
  by_cases hji : j=i
  · subst hji
    refine .inr ⟨h,n,hh,by simp,by simp [Vacant]⟩
  · rw [update_of_ne hji] at hj; exact .inl (hw.vacant hj)

theorem Linked.stick (l : Linked harts v) (hh : h<harts) {st : Nat → TaskState} (hl : v.lock=none)
    (hw : v.Woke W st) (hf : v.code (v.running h)=.free) (hs : (v.current h).isSome) :
    Linked harts {v with state := st,lock := some h,code := update v.code (v.running h) .stuck} := by
  obtain ⟨i,hc⟩ := Option.isSome_iff_exists.1 hs
  have ht := l.turn hh .stuck (some h) (some i) (.inl hl) (.inl ⟨rfl,(by rintro ⟨⟩)⟩)
    (HartOk.ofCurrent (by simp) (by simp) ((l.hart h hh).current (by simp [hf]) hc))
  rw [← hc,update_eq_self] at ht
  exact ht.states _ fun j hv => .inl (hw.vacant hv)

theorem Linked.cross (l : Linked harts v) (hh : h<harts) {p n : Nat} {d : Bool} {f : Frame}
    (hl : v.lock=some h) (hc : v.code (v.running h)=.cross p n d) (hf : v.sp n=some f)
    (hg : v.gone f.thread=false) (hr : ∀g,g<harts → v.running g≠f.thread) :
    Linked harts {v with
      sp := update v.sp p (some ⟨v.running h,v.parks (v.running h)+1⟩),
      parks := update v.parks (v.running h) (v.parks (v.running h)+1),
      code := update v.code (v.running h) .landing,
      gone := update v.gone (v.running h) d,
      running := update v.running h f.thread} := by
  obtain ⟨h1,h2,h3,h4,h5,h6⟩ := (l.hart h hh).cross hc
  have hft : v.thread n=some f.thread := (l.sp n f hf).resolve_right (by simp [hg])
  have hnv : ¬Vacant (v.state n) := h6.resolve_right fun ha => by simp [ha f hf] at hg
  have hne : f.thread≠v.running h := (hr h hh).symm
  have hland : v.code f.thread=.landing := l.parked _ hr
  have hgone {t : Nat} (ht : v.gone t=true) : update v.gone (v.running h) d t=true := by
    by_cases he : t=v.running h
    · subst he; rw [l.alive h hh] at ht; cases ht
    · rwa [update_of_ne he]
  -- no slot but prev refers to the outgoing thread
  have hsp {i : Nat} {f' : Frame} (hi : i≠p) (he : v.sp i=some f') : f'.thread≠v.running h := by
    rintro ht
    rcases l.sp i f' he with h' | h'
    · rw [ht] at h'; exact hi (l.thrInj i p _ h' h2)
    · rw [ht,l.alive h hh] at h'; cases h'
  exact {l with
    lockCode := by
      intro g hg'
      by_cases hgh : g=h
      · subst hgh; simp [update_of_ne hne,hland,hl]
      · simp only [update_of_ne hgh,update_of_ne (l.other hh hg' hgh)]
        exact l.lockCode g hg'
    parked := by
      intro t ht
      dsimp only at ht ⊢
      by_cases he : t=v.running h
      · subst he; simp
      · rw [← l.parked t fun g hg' => ?_]
        · exact update_of_ne he _ _
        · by_cases hgh : g=h
          · subst hgh; exact Ne.symm he
          · have := ht g hg'; rwa [update_of_ne hgh] at this
    inj := by
      intro g g' hg1 hg2 he
      dsimp only at he
      by_cases hgh : g=h
      · by_cases hgh' : g'=h
        · rw [hgh,hgh']
        · subst hgh
          rw [update_self,update_of_ne hgh'] at he
          exact absurd he.symm (hr g' hg2)
      · by_cases hgh' : g'=h
        · subst hgh'
          rw [update_self,update_of_ne hgh] at he
          exact absurd he (hr g hg1)
        · rw [update_of_ne hgh,update_of_ne hgh'] at he
          exact l.inj g g' hg1 hg2 he
    runLt := by
      intro g hg'
      by_cases hgh : g=h
      · subst hgh; simpa using l.spLt n f hf
      · simpa [update_of_ne hgh] using l.runLt g hg'
    alive := by
      intro g hg'
      by_cases hgh : g=h
      · subst hgh; simp [update_of_ne hne,hg]
      · simp only [update_of_ne hgh,update_of_ne (l.other hh hg' hgh)]
        exact l.alive g hg'
    hart := by
      intro g hg'
      by_cases hgh : g=h
      · subst hgh
        refine HartOk.ofCurrent (i := n) ?_ h4 ⟨h5,?_,hnv⟩
        · simp [update_of_ne hne,hland]
        · simpa using hft
      · refine (l.hart g hg').frame (update_of_ne hgh _ _)
          (update_of_ne (l.other hh hg' hgh) _ _) rfl (fun _ => Iff.rfl) (fun _ hv _ => hv) ?_
        intro p' n' d' hc'
        rw [l.free hg' (by rw [hl]; exact fun he => hgh (Option.some.inj he).symm)] at hc'
        cases hc'
    spLt := by
      intro i f' he
      dsimp only at he
      by_cases hi : i=p
      · subst hi; rw [update_self] at he; cases he; exact l.runLt h hh
      · rw [update_of_ne hi] at he; exact l.spLt i f' he
    sp := by
      intro i f' he
      dsimp only at he ⊢
      by_cases hi : i=p
      · subst hi; rw [update_self] at he; cases he; exact .inl h2
      · rw [update_of_ne hi] at he
        exact (l.sp i f' he).imp id hgone
    spDead := by
      intro i f' hv hrun he
      dsimp only at hv hrun he ⊢
      by_cases hi : i=p
      · subst hi
        rw [update_self] at he; cases he
        cases d
        · exact absurd hv (h3 rfl)
        · simp
      · rw [update_of_ne hi] at he
        refine hgone (l.spDead i f' hv (fun g hg' => ?_) he)
        by_cases hgh : g=h
        · subst hgh; exact fun ht => hi (l.thrInj i p _ ht h2)
        · have := hrun g hg'; rwa [update_of_ne hgh] at this
    make := by
      intro c k hm
      dsimp only at hm ⊢
      obtain ⟨k1,k2,u,k3,k4,k5⟩ := l.make c k hm
      refine ⟨k1,k2,u,k3,fun g hg' => ?_,fun i f' he => ?_⟩
      · by_cases hgh : g=h
        · subst hgh; rw [update_self]; exact k5 n f hf
        · rw [update_of_ne hgh]; exact k4 g hg'
      · by_cases hi : i=p
        · subst hi; rw [update_self] at he; cases he; exact k4 h hh
        · rw [update_of_ne hi] at he; exact k5 i f' he
    fresh := by
      intro t ht
      dsimp only
      have hlt := l.runLt h hh
      have ht' : v.next≤t := ht
      rw [update_of_ne (by omega)]
      exact l.fresh t ht}

theorem Linked.reserve (l : Linked harts v) (hh : h<harts) {k : Nat} (hl : v.lock=none)
    (hk : k < maxTasks) (hv : Vacant (v.state k)) :
    Linked harts {v with
      state := update v.state k .blocked,thread := update v.thread k (some v.next),
      making := update v.making k true,makes := update v.makes (v.running h) (some (k,false)),
      next := v.next+1} := by
  have hfree (g : Nat) (hg : g<harts) : v.code (v.running g)=.free := l.free hg (by simp [hl])
  -- the slot's old thread runs nowhere
  have hold (g : Nat) (hg : g<harts) : v.thread k≠some (v.running g) := fun ht => by
    cases hc : v.current g with
    | none => exact (by
        have := l.hart g hg
        unfold HartOk at this
        simp only [hfree g hg,hc] at this
        exact this.2 k ht)
    | some i =>
      obtain ⟨_,h2,h3⟩ := (l.hart g hg).current (by simp [hfree g hg]) hc
      exact h3 (l.thrInj i k _ h2 ht ▸ hv)
  have hst {i : Nat} (hi : Vacant (update v.state k TaskState.blocked i)) :
      i≠k ∧ Vacant (v.state i) := by
    refine ⟨?_,not_vacant_update (by simp [Vacant]) hi⟩
    rintro rfl
    simp [Vacant] at hi
  exact {l with
    runLt := fun g hg => Nat.lt_succ_of_lt (l.runLt g hg)
    hart := by
      intro g hg
      refine (l.hart g hg).frame rfl rfl rfl (fun i => ?_) (fun i hn _ hi => hn (hst hi).2) ?_
      · dsimp only
        by_cases hi : i=k
        · subst hi
          simp only [update_self,Option.some.injEq]
          exact ⟨fun ht => absurd ht (hold g hg),fun he => absurd (l.runLt g hg) (by omega)⟩
        · rw [update_of_ne hi]
      · intro p n d hc; rw [hfree g hg] at hc; cases hc
    thrInj := by
      intro i j t hi hj
      dsimp only at hi hj
      by_cases hik : i=k
      · by_cases hjk : j=k
        · rw [hik,hjk]
        · rw [hik,update_self] at hi
          rw [update_of_ne hjk] at hj
          cases hi
          exact absurd (l.thrLt j _ hj) (lt_irrefl _)
      · rw [update_of_ne hik] at hi
        by_cases hjk : j=k
        · rw [hjk,update_self] at hj
          cases hj
          exact absurd (l.thrLt i _ hi) (lt_irrefl _)
        · rw [update_of_ne hjk] at hj; exact l.thrInj i j t hi hj
    thrLt := by
      intro i t hi
      dsimp only at hi ⊢
      by_cases hik : i=k
      · rw [hik,update_self] at hi; cases hi; exact Nat.lt_succ_self _
      · rw [update_of_ne hik] at hi; exact Nat.lt_succ_of_lt (l.thrLt i t hi)
    spLt := fun i f hi => Nat.lt_succ_of_lt (l.spLt i f hi)
    sp := by
      intro i f hi
      dsimp only at hi ⊢
      by_cases hik : i=k
      · exact .inr (l.spDead i f (hik ▸ hv) (hik ▸ hold) hi)
      · rw [update_of_ne hik]; exact l.sp i f hi
    spDead := by
      intro i f hi hrun hf
      dsimp only at hi hrun hf ⊢
      obtain ⟨hik,hi⟩ := hst hi
      exact l.spDead i f hi (fun g hg => by simpa [update_of_ne hik] using hrun g hg) hf
    make := by
      intro c k' hm
      dsimp only at hm ⊢
      by_cases hc : c=v.running h
      · subst hc
        rw [update_self] at hm; cases hm
        refine ⟨hk,by simp [Vacant],v.next,by simp,fun g hg => (l.runLt g hg).ne,
          fun i f hi => (l.spLt i f hi).ne⟩
      · rw [update_of_ne hc] at hm
        obtain ⟨k1,k2,u,k3,k4⟩ := l.make c k' hm
        have hkk : k'≠k := fun he => k2 (he ▸ hv)
        exact ⟨k1,by rwa [update_of_ne hkk],u,by rwa [update_of_ne hkk],k4⟩
    makeInj := by
      intro c d k' hc hd
      dsimp only at hc hd
      have hkk (e : Nat) (he : v.makes e=some (k,false)) : False := (l.make e k he).2.1 hv
      by_cases hcr : c=v.running h
      · by_cases hdr : d=v.running h
        · rw [hcr,hdr]
        · rw [hcr,update_self] at hc
          rw [update_of_ne hdr] at hd
          cases hc; exact (hkk d hd).elim
      · rw [update_of_ne hcr] at hc
        by_cases hdr : d=v.running h
        · rw [hdr,update_self] at hd
          cases hd; exact (hkk c hc).elim
        · rw [update_of_ne hdr] at hd; exact l.makeInj c d k' hc hd
    fresh := by
      intro t ht
      dsimp only
      have hlt := l.runLt h hh
      have ht' : v.next+1≤t := ht
      rw [update_of_ne (by omega)]
      exact l.fresh t (by omega)}

theorem Linked.giveUp (l : Linked harts v) {k : Nat} (hm : v.makes (v.running h)=some (k,false)) :
    Linked harts {v with
      state := update v.state k .unused,making := update v.making k false,
      makes := update v.makes (v.running h) none} := by
  obtain ⟨_,_,u,hu,hrun,hsp⟩ := l.make _ k hm
  have hst {i : Nat} (hik : i≠k) : update v.state k TaskState.unused i=v.state i :=
    update_of_ne hik _ _
  -- every frame the slot still holds is that of a task that is gone
  have hgone (f : Frame) (hf : v.sp k=some f) : v.gone f.thread=true :=
    (l.sp k f hf).resolve_left fun he => hsp k f hf (Option.some.inj (hu.symm.trans he)).symm
  exact {l with
    hart := by
      intro g hg
      refine (l.hart g hg).frame rfl rfl rfl (fun _ => Iff.rfl) (fun i hv ht => ?_)
        (fun p n d _ hn => ?_)
      · have hik : i≠k := by
          rintro rfl
          rw [hu] at ht; exact hrun g hg (Option.some.inj ht).symm
        simpa only [hst hik] using hv
      · by_cases hnk : n=k
        · subst hnk; exact .inr hgone
        · simpa only [hst hnk] using hn
    spDead := by
      intro i f hv hr hf
      by_cases hik : i=k
      · subst hik; exact hgone f hf
      · exact l.spDead i f (by simpa only [hst hik] using hv) hr hf
    make := by
      intro c k' hc
      dsimp only at hc ⊢
      have hcr : c≠v.running h := by
        rintro rfl; rw [update_self] at hc; cases hc
      rw [update_of_ne hcr] at hc
      have hkk : k'≠k := by
        rintro rfl; exact hcr (l.makeInj _ _ k' hc hm)
      rw [hst hkk]
      exact l.make c k' hc
    makeInj := by
      intro c d k' hc hd
      dsimp only at hc hd
      have hne {e : Nat} (he : update v.makes (v.running h) none e=some (k',false)) :
          v.makes e=some (k',false) := by
        rwa [update_of_ne] at he
        rintro rfl; rw [update_self] at he; cases he
      exact l.makeInj c d k' (hne hc) (hne hd)
    fresh := by
      intro t ht
      have := l.fresh t ht
      refine ⟨?_,this.2⟩
      by_cases htr : t=v.running h
      · subst htr; simp
      · simpa only [update_of_ne htr] using this.1}

theorem Linked.prime (l : Linked harts v) (hh : h<harts) {k u : Nat}
    (hm : v.makes (v.running h)=some (k,false)) (hu : v.thread k=some u) :
    Linked harts {v with
      sp := update v.sp k (some ⟨u,0⟩),code := update v.code u .landing,
      makes := update (update v.makes u none) (v.running h) (some (k,true)),
      gone := update v.gone u false,parks := update v.parks u 0} := by
  obtain ⟨k1,k2,u',hu',hrun,hsp⟩ := l.make _ k hm
  rw [hu] at hu'; cases hu'
  have hne {g : Nat} (hg : g<harts) : v.running g≠u := hrun g hg
  have hmakes {c k' : Nat}
      (hc : update (update v.makes u none) (v.running h) (some (k,true)) c=some (k',false)) :
      v.makes c=some (k',false) ∧ c≠v.running h := by
    have hcr : c≠v.running h := by
      rintro rfl; rw [update_self] at hc; cases hc
    rw [update_of_ne hcr] at hc
    refine ⟨?_,hcr⟩
    rwa [update_of_ne] at hc
    rintro rfl; rw [update_self] at hc; cases hc
  have hgone {i : Nat} {f : Frame} (hi : v.sp i=some f) (hg : v.gone f.thread=true) :
      update v.gone u false f.thread=true := by
    rwa [update_of_ne (hsp i f hi)]
  exact {l with
    lockCode := by
      intro g hg
      simp only [update_of_ne (hne hg)]
      exact l.lockCode g hg
    parked := by
      intro t ht
      by_cases htu : t=u
      · subst htu; simp
      · simpa only [update_of_ne htu] using l.parked t ht
    alive := by
      intro g hg
      simpa only [update_of_ne (hne hg)] using l.alive g hg
    hart := by
      intro g hg
      refine (l.hart g hg).frame rfl (update_of_ne (hne hg) _ _) rfl (fun _ => Iff.rfl)
        (fun _ hv _ => hv) (fun p n d _ hn => ?_)
      by_cases hnk : n=k
      · subst hnk; exact .inl k2
      · refine hn.imp id fun ha f hf => ?_
        simp only [update_of_ne hnk] at hf
        exact hgone hf (ha f hf)
    spLt := by
      intro i f hf
      dsimp only at hf
      by_cases hik : i=k
      · subst hik; rw [update_self] at hf; cases hf; exact l.thrLt i u hu
      · rw [update_of_ne hik] at hf; exact l.spLt i f hf
    sp := by
      intro i f hf
      dsimp only at hf ⊢
      by_cases hik : i=k
      · subst hik; rw [update_self] at hf; cases hf; exact .inl hu
      · rw [update_of_ne hik] at hf
        exact (l.sp i f hf).imp id (hgone hf)
    spDead := by
      intro i f hv hr hf
      dsimp only at hv hf ⊢
      have hik : i≠k := by rintro rfl; exact k2 hv
      rw [update_of_ne hik] at hf
      exact hgone hf (l.spDead i f hv hr hf)
    make := by
      intro c k' hc
      obtain ⟨hc,hcr⟩ := hmakes hc
      obtain ⟨m1,m2,w,m3,m4,m5⟩ := l.make c k' hc
      refine ⟨m1,m2,w,m3,m4,fun i f hf => ?_⟩
      dsimp only at hf
      by_cases hik : i=k
      · rw [hik,update_self] at hf; cases hf
        rintro rfl
        have hkk := l.thrInj k k' u hu m3
        subst hkk
        exact hcr (l.makeInj c _ k hc hm)
      · rw [update_of_ne hik] at hf; exact m5 i f hf
    makeInj := fun c d k' hc hd => l.makeInj c d k' (hmakes hc).1 (hmakes hd).1
    fresh := by
      intro t ht
      have hlt := l.runLt h hh
      have hut := l.thrLt k u hu
      have ht' : v.next≤t := ht
      dsimp only
      rw [update_of_ne (by omega),update_of_ne (by omega),
        update_of_ne (by omega)]
      exact l.fresh t ht}

theorem Linked.publish (l : Linked harts v) {k : Nat} :
    Linked harts {v with
      state := update v.state k .ready,making := update v.making k false,
      makes := update v.makes (v.running h) none} := by
  have hs := l.states (update v.state k .ready)
    fun j hj => .inl (not_vacant_update (by simp [Vacant]) hj)
  have hmakes {c k' : Nat} (hc : update v.makes (v.running h) none c=some (k',false)) :
      v.makes c=some (k',false) := by
    rwa [update_of_ne] at hc
    rintro rfl; rw [update_self] at hc; cases hc
  exact {hs with
    hart := fun g hg => (hs.hart g hg).frame rfl rfl rfl (fun _ => Iff.rfl) (fun _ hv _ => hv)
      (fun _ _ _ _ hn => hn)
    make := fun c k' hc => hs.make c k' (hmakes hc)
    makeInj := fun c d k' hc hd => hs.makeInj c d k' (hmakes hc) (hmakes hd)
    fresh := by
      intro t ht
      have := l.fresh t ht
      refine ⟨?_,this.2⟩
      by_cases htr : t=v.running h
      · subst htr; simp
      · simpa only [update_of_ne htr] using this.1}

theorem Linked.secondary (l : Linked harts v) (hh : h<harts) {k : Nat} (hl : v.lock=none)
    (hc : v.current h=none) (hk : k < maxTasks) (hv : v.state k=.unused) :
    Linked harts {v with
      state := update v.state k .running,thread := update v.thread k (some (v.running h)),
      current := update v.current h (some k)} := by
  have hfree (g : Nat) (hg : g<harts) : v.code (v.running g)=.free := l.free hg (by simp [hl])
  have hbare : ∀i,v.thread i≠some (v.running h) := by
    have := l.hart h hh
    unfold HartOk at this
    simp only [hfree h hh,hc] at this
    exact this.2
  have hvk : Vacant (v.state k) := .inl hv
  have hold (g : Nat) (hg : g<harts) : v.thread k≠some (v.running g) := fun ht => by
    cases hcg : v.current g with
    | none => exact (by
        have := l.hart g hg
        unfold HartOk at this
        simp only [hfree g hg,hcg] at this
        exact this.2 k ht)
    | some i =>
      obtain ⟨_,h2,h3⟩ := (l.hart g hg).current (by simp [hfree g hg]) hcg
      exact h3 (l.thrInj i k _ h2 ht ▸ hvk)
  have hst {i : Nat} (hi : Vacant (update v.state k TaskState.running i)) :
      i≠k ∧ Vacant (v.state i) := by
    refine ⟨?_,not_vacant_update (by simp [Vacant]) hi⟩
    rintro rfl
    simp [Vacant] at hi
  exact {l with
    hart := by
      intro g hg
      by_cases hgh : g=h
      · subst hgh
        refine HartOk.ofCurrent (i := k) (by simp [hfree g hg]) (by simp) ⟨hk,by simp,by simp [Vacant]⟩
      · refine (l.hart g hg).frame rfl rfl (update_of_ne hgh _ _) (fun i => ?_)
          (fun i hn _ hi => hn (hst hi).2) ?_
        · dsimp only
          by_cases hi : i=k
          · subst hi
            simp only [update_self,Option.some.injEq]
            exact ⟨fun ht => absurd ht (hold g hg),
              fun he => absurd he.symm (l.other hh hg hgh)⟩
          · rw [update_of_ne hi]
        · intro p n d hcr; rw [hfree g hg] at hcr; cases hcr
    thrInj := by
      intro i j t hi hj
      dsimp only at hi hj
      by_cases hik : i=k
      · by_cases hjk : j=k
        · rw [hik,hjk]
        · rw [hik,update_self] at hi
          rw [update_of_ne hjk] at hj
          cases hi
          exact absurd hj (hbare j)
      · rw [update_of_ne hik] at hi
        by_cases hjk : j=k
        · rw [hjk,update_self] at hj
          cases hj
          exact absurd hi (hbare i)
        · rw [update_of_ne hjk] at hj; exact l.thrInj i j t hi hj
    thrLt := by
      intro i t hi
      dsimp only at hi ⊢
      by_cases hik : i=k
      · rw [hik,update_self] at hi; cases hi; exact l.runLt h hh
      · rw [update_of_ne hik] at hi; exact l.thrLt i t hi
    sp := by
      intro i f hi
      dsimp only at hi ⊢
      by_cases hik : i=k
      · exact .inr (l.spDead i f (hik ▸ hvk) (hik ▸ hold) hi)
      · rw [update_of_ne hik]; exact l.sp i f hi
    spDead := by
      intro i f hi hrun hf
      obtain ⟨hik,hi⟩ := hst hi
      exact l.spDead i f hi (fun g hg => by simpa [update_of_ne hik] using hrun g hg) hf
    make := by
      intro c k' hm
      obtain ⟨k1,k2,u,k3,k4⟩ := l.make c k' hm
      have hkk : k'≠k := fun he => k2 (he ▸ hvk)
      exact ⟨k1,by simpa only [update_of_ne hkk] using k2,u,
        by simpa only [update_of_ne hkk] using k3,k4⟩}

theorem Linked.hand (l : Linked harts v) (hh : h<harts) {v' : View} (hs : Hand harts W h v v') :
    Linked harts v' := by
  cases hs with
  | wake st _ hw => exact l.states st fun j hj => .inl (hw.vacant hj)
  | enter b i hl hc hf => exact l.enter hh b hl hc hf
  | drop b i st x hl hc hp hw hx => exact l.drop hh hl hc hp hw hx
  | choose b i n st hl hc hp hw _ hn hr => exact l.choose hh hl hc hp hw hn hr
  | cross p n d f hl hc hf _ hg hr => exact l.cross hh hl hc hf hg hr
  | land hl hc => exact l.land hh hl hc
  | reserve k hl hk hv _ _ => exact l.reserve hh hl hk hv
  | giveUp k hm => exact l.giveUp hm
  | prime k u hm hu => exact l.prime hh hm hu
  | publish k => exact l.publish
  | exit i n st hl hc hf hw hn hr => exact l.exit hh hl hc hf hw hn hr
  | stick st hl hw hf hs => exact l.stick hh hl hw hf hs
  | secondary k hl hc hk hv => exact l.secondary hh hl hc hk hv

end LugalOS.Sched
