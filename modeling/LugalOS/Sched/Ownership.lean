import LugalOS.Sched.Refine

namespace LugalOS.Sched

open Function (update update_of_ne update_self)
open Run (Reach)

variable {harts h : Nat} {s s' : Sys}

/-- A thread on its way through a wait with a deadline. -/
def Main.sleeping : Main → Bool
  | .block _ k => k != .user
  | .idle k => k != .user
  | .clearWake => true
  | .sleep _ => true
  | .sleepArm _ => true
  | _ => false

/-- Only a task in a wait with a deadline has a wake-up time, so no slot is given away with one. -/
def Sleepers (s : Sys) : Prop := ∀i,(s.tasks i).wakeAtMs≠0 →
  (s.tasks i).making=false ∧ ¬Vacant (s.tasks i).state ∧
    ∃t,(s.tasks i).thread=some t ∧ (s.threads t).main.sleeping=true

/-- Nothing is added to a slot that Sleepers would have to explain. -/
def Task.Calmer (t t' : Task) : Prop :=
  (t'.wakeAtMs=t.wakeAtMs ∨ t'.wakeAtMs=0) ∧ t'.making=t.making ∧ t'.thread=t.thread ∧
    (Vacant t'.state → Vacant t.state)

theorem Task.Calmer.rfl' (t : Task) : t.Calmer t := ⟨.inl rfl,rfl,rfl,id⟩

theorem Task.Calmer.trans {t u w : Task} (h1 : t.Calmer u) (h2 : u.Calmer w) : t.Calmer w := by
  obtain ⟨a1,a2,a3,a4⟩ := h1
  obtain ⟨b1,b2,b3,b4⟩ := h2
  refine ⟨?_,b2.trans a2,b3.trans a3,a4 ∘ b4⟩
  rcases b1 with b1 | b1
  · rwa [b1]
  · exact .inr b1

theorem Sleepers.mono (hz : Sleepers s) (ht : ∀i,(s.tasks i).Calmer (s'.tasks i))
    (hm : ∀u,(s.threads u).main.sleeping=true → (s'.threads u).main.sleeping=true) :
    Sleepers s' := by
  intro i hi
  obtain ⟨h1,h2,h3,h4⟩ := ht i
  have hi' : (s.tasks i).wakeAtMs≠0 := by
    rcases h1 with h1 | h1
    · rwa [← h1]
    · exact absurd h1 hi
  obtain ⟨z1,z2,t,z3,z4⟩ := hz i hi'
  exact ⟨h2.trans z1,fun hv => z2 (h4 hv),t,h3.trans z3,hm t z4⟩

theorem calmer_update {f g : Nat → Task} (hs : ∀j,(f j).Calmer (g j)) {i : Nat} {t : Task}
    (ht : (g i).Calmer t) (j : Nat) : (f j).Calmer (update g i t j) := by
  by_cases hj : j=i
  · subst hj; rw [update_self]; exact (hs j).trans ht
  · rw [update_of_ne hj]; exact hs j

theorem calmer_nextRunnable (now prev i : Nat) :
    (s.tasks i).Calmer ((nextRunnable now h prev s.tasks).2 i) := by
  unfold nextRunnable
  rw [(scan_spec now h _ s.tasks none (-1)).1]
  dsimp only
  split
  · unfold Task.awake
    split
    next hc => exact ⟨.inr rfl,rfl,rfl,fun hv => by rcases hv with hv | hv <;> cases hv⟩
    next => exact .rfl' _
  · exact .rfl' _

theorem schedReap_tasks {r : Reap} {x : Sys × Option Reap} (hx : schedReap h r s=some x) :
    x.1.tasks=s.tasks := by
  cases r with
  | take =>
    simp only [schedReap] at hx
    split at hx
    · split at hx <;> cases hx <;> rfl
    · cases hx
  | free st => cases hx; rfl

theorem schedSwitch_calmer {b : Bool} {p : Phase} {x : Sys × Out}
    (hx : schedSwitch harts h b p s=some x) (i : Nat) : (s.tasks i).Calmer (x.1.tasks i) := by
  have hnot {y : TaskState} {P : Prop} (h1 : y≠.unused) (h2 : y≠.dead) (hv : Vacant y) : P := by
    rcases hv with hv | hv <;> contradiction
  cases p with
  | reapFirst r | reapLast r =>
    simp only [schedSwitch,Option.map_eq_some_iff] at hx
    obtain ⟨y,hr,rfl⟩ := hx
    dsimp only
    rw [schedReap_tasks hr]
    exact .rfl' _
  | enter =>
    simp only [schedSwitch] at hx
    split at hx
    · split at hx
      · cases hx
      · split at hx
        · split at hx <;> cases hx
          · refine calmer_update (g := s.tasks) (fun j => .rfl' _) ?_ i
            exact ⟨.inl rfl,rfl,rfl,id⟩
          · refine calmer_update (g := update _ _ _) (fun j => ?_) ?_ i
            · refine calmer_update (g := s.tasks) (fun j => .rfl' _) ?_ j
              exact ⟨.inl rfl,rfl,rfl,id⟩
            · exact ⟨.inl rfl,rfl,rfl,hnot (by rintro ⟨⟩) (by rintro ⟨⟩)⟩
        · cases hx; exact .rfl' _
    · cases hx
  | pick prepared =>
    simp only [schedSwitch] at hx
    split at hx
    · split at hx
      · cases hx
      next prev _ =>
        have hn (j : Nat) := calmer_nextRunnable (s := s) (h := h) s.clock prev j
        generalize nextRunnable s.clock h prev s.tasks=r at hx hn
        obtain ⟨next,tasks⟩ := r
        dsimp only at hx hn
        have hs1 (j : Nat) : (s.tasks j).Calmer (({s with tasks := tasks} : Sys).tasks j) := hn j
        cases next with
        | none =>
          dsimp only at hx
          split at hx
          · cases hx
            refine calmer_update hs1 ?_ i
            exact ⟨.inl rfl,rfl,rfl,hnot (by rintro ⟨⟩) (by rintro ⟨⟩)⟩
          · cases hx
            exact hs1 i
        | some n =>
          dsimp only at hx
          split at hx
          · cases hx
            refine calmer_update hs1 ?_ i
            exact ⟨.inl rfl,rfl,rfl,hnot (by rintro ⟨⟩) (by rintro ⟨⟩)⟩
          · cases hx
            refine calmer_update (fun j => ?_) ?_ i
            · split
              · refine calmer_update hs1 ?_ j
                exact ⟨.inl rfl,rfl,rfl,hnot (by rintro ⟨⟩) (by rintro ⟨⟩)⟩
              · exact hs1 j
            · exact ⟨.inl rfl,rfl,rfl,hnot (by rintro ⟨⟩) (by rintro ⟨⟩)⟩
    · cases hx
  | cross prev n =>
    simp only [schedSwitch] at hx
    split at hx
    · simp only [Option.map_eq_some_iff] at hx
      obtain ⟨s1,hs1,rfl⟩ := hx
      unfold ctxSwitch at hs1
      split at hs1
      · cases hs1
      · split at hs1
        · cases hs1
          refine calmer_update (g := s.tasks) (fun j => .rfl' _) ?_ i
          exact ⟨.inl rfl,rfl,rfl,id⟩
        · cases hs1
    · cases hx
  | landed =>
    simp only [schedSwitch] at hx
    split at hx <;> cases hx
    exact .rfl' _

theorem threads_setMain (t : Nat) (m : Main) (u : Nat) :
    ((s.setMain t m).threads u).main=if u=t then m else (s.threads u).main := by
  unfold Sys.setMain Sys.modThread
  dsimp only
  by_cases hu : u=t
  · subst hu; simp
  · simp [hu]

theorem threads_setInner (t : Nat) (l : List Inner) (u : Nat) :
    ((s.setInner t l).threads u).main=(s.threads u).main := by
  unfold Sys.setInner Sys.modThread
  dsimp only
  by_cases hu : u=t
  · subst hu; simp
  · simp [update_of_ne hu]

theorem Sleepers.setMain (hz : Sleepers s) {t : Nat} {m : Main}
    (hm : (s.threads t).main.sleeping=true → m.sleeping=true) : Sleepers (s.setMain t m) := by
  refine hz.mono (fun i => .rfl' _) fun u hu => ?_
  rw [threads_setMain]
  split
  next he => subst he; exact hm hu
  next => exact hu

theorem Sleepers.unblock (hz : Sleepers s) {pid : Nat} (hx : taskUnblock pid s=some s') :
    Sleepers s' := by
  unfold taskUnblock at hx
  split at hx
  · obtain ⟨_,rfl⟩ := locked_eq hx
    refine hz.mono (fun i => ?_) fun _ hu => hu
    refine calmer_update (g := s.tasks) (fun j => .rfl' _) ?_ i
    beta_reduce
    split
    · exact ⟨.inr rfl,rfl,rfl,fun hv => by rcases hv with hv | hv <;> cases hv⟩
    · split
      · exact ⟨.inl rfl,rfl,rfl,id⟩
      · exact .rfl' _
  · cases hx; exact hz

theorem Sound.current (hs : Sound harts s) (ho : Owned harts (view s)) (hh : h<harts)
    (hc : (s.threads (s.running h)).code=.free) {c : Nat} (hcur : s.current h=some c) :
    (s.tasks c).thread=some (s.running h) ∧ (s.tasks c).state=.running ∧
      (s.tasks c).making=false := by
  have hcode : (view s).code ((view s).running h)=.free := hc
  have hr : (view s).state c=.running :=
    (ho.own h hh).running (by simp [hcode]) (by simp [hcode]) hcur
  exact ⟨((hs.linked.hart h hh).current (by simp [hcode]) hcur).2.1,hr,
    ho.not_making (by simp [hr])⟩

theorem Sleepers.arm (hz : Sleepers s) (hs : Sound harts s) (ho : Owned harts (view s)) (hh : h<harts)
    (hc : (s.threads (s.running h)).code=.free) {c d : Nat} (hcur : s.current h=some c) {m : Main}
    (hm : m.sleeping=true) :
    Sleepers ((s.modTask c fun t => {t with wakeAtMs := d}).setMain (s.running h) m) := by
  obtain ⟨ht,hr,hmk⟩ := hs.current ho hh hc hcur
  intro i hi
  by_cases hic : i=c
  · subst hic
    refine ⟨by simpa [Sys.setMain,Sys.modThread,Sys.modTask] using hmk,?_,s.running h,
      by simpa [Sys.setMain,Sys.modThread,Sys.modTask] using ht,by rw [threads_setMain]; simpa using hm⟩
    simp [Sys.setMain,Sys.modThread,Sys.modTask,hr,Vacant]
  · have he : ((s.modTask c fun t => {t with wakeAtMs := d}).setMain (s.running h) m).tasks i=
        s.tasks i := update_of_ne hic _ _
    rw [he] at hi ⊢
    obtain ⟨z1,z2,t,z3,z4⟩ := hz i hi
    refine ⟨z1,z2,t,z3,?_⟩
    rw [threads_setMain]
    split
    · exact hm
    · exact z4

theorem Sleepers.disarm (hz : Sleepers s) (hs : Sound harts s) (ho : Owned harts (view s))
    (hh : h<harts) (hc : (s.threads (s.running h)).code=.free) {c : Nat} (hcur : s.current h=some c)
    (m : Main) : Sleepers ((s.modTask c fun t => {t with wakeAtMs := 0}).setMain (s.running h) m) := by
  obtain ⟨ht,_,_⟩ := hs.current ho hh hc hcur
  intro i hi
  have hic : i≠c := by rintro rfl; simp [Sys.setMain,Sys.modThread,Sys.modTask] at hi
  have he : ((s.modTask c fun t => {t with wakeAtMs := 0}).setMain (s.running h) m).tasks i=
      s.tasks i := update_of_ne hic _ _
  rw [he] at hi ⊢
  obtain ⟨z1,z2,t,z3,z4⟩ := hz i hi
  refine ⟨z1,z2,t,z3,?_⟩
  rw [threads_setMain,if_neg]
  · exact z4
  · rintro rfl; exact hic (hs.linked.thrInj i c _ z3 ht)

theorem Sleepers.call (hz : Sleepers s) (hs : Sound harts s) (ho : Owned harts (view s))
    (hh : h<harts) (hi : (s.threads (s.running h)).inner=[])
    (hm : (s.threads (s.running h)).main=.user) {c : Call}
    (hx : s.call harts h (s.running h) c=some s') : Sleepers s' := by
  have hcode : (s.threads (s.running h)).code=.free := by simp [Thread.code,hi,hm,Main.code]
  have hset (m : Main) : Sleepers (s.setMain (s.running h) m) :=
    hz.setMain (by rw [hm]; rintro ⟨⟩)
  have hmod (c : Nat) (f : Task → Task) (hf : (s.tasks c).Calmer (f (s.tasks c))) :
      Sleepers (s.modTask c f) :=
    hz.mono (fun i => calmer_update (g := s.tasks) (fun j => .rfl' _) hf i) fun _ hu => hu
  cases c with
  | yield => cases hx; split <;> first | exact hset _ | exact hz
  | prepareBlock | waitDone =>
    simp only [Sys.call] at hx
    split at hx
    · cases hx; exact hz
    · obtain ⟨_,rfl⟩ := locked_eq hx
      exact hmod _ _ ⟨.inl rfl,rfl,rfl,id⟩
  | block => cases hx; split <;> first | exact hset _ | exact hz
  | blockUntil d =>
    simp only [Sys.call] at hx
    split at hx
    · cases hx; exact hz
    next hcur =>
      split at hx
      · cases hx; exact hset _
      · obtain ⟨_,rfl⟩ := locked_eq hx
        exact hz.arm hs ho hh hcode hcur rfl
  | sleep ms => cases hx; split <;> first | exact hset _ | exact hz
  | unblock pid => exact hz.unblock hx
  | create hart =>
    simp only [Sys.call] at hx
    split at hx
    · cases hx; exact hz
    · split at hx
      · obtain ⟨_,rfl⟩ := locked_eq hx; exact hz
      next k hk =>
        obtain ⟨_,rfl⟩ := locked_eq hx
        obtain ⟨_,hkv⟩ := find_slot hk
        have hv : Vacant (s.tasks k).state := by simpa [Vacant] using hkv
        intro i hw
        have hik : i≠k := by
          rintro rfl
          refine absurd hv (hz i ?_).2.1
          simpa [Sys.setMain,Sys.modThread,Sys.modTask] using hw
        have he (x : Task) : update s.tasks k x i=s.tasks i := update_of_ne hik _ _
        simp only [Sys.setMain,Sys.modThread,Sys.modTask,he] at hw ⊢
        obtain ⟨z1,z2,t,z3,z4⟩ := hz i hw
        refine ⟨z1,z2,t,z3,?_⟩
        rw [update_of_ne]
        · exact z4
        · rintro rfl; rw [hm] at z4; cases z4
  | exit => cases hx; exact hset _
  | setPriority pid p =>
    cases hx
    split
    · exact hmod _ _ ⟨.inl rfl,rfl,rfl,id⟩
    · exact hz
  | setAffinity pid hart =>
    simp only [Sys.call] at hx
    split at hx
    · obtain ⟨_,rfl⟩ := locked_eq hx
      exact hmod _ _ ⟨.inl rfl,rfl,rfl,id⟩
    · cases hx; exact hz
  | secondaryInit =>
    simp only [Sys.call] at hx
    split at hx
    · cases hx
    · split at hx
      · obtain ⟨_,rfl⟩ := locked_eq hx; exact hz
      next k hk =>
        obtain ⟨_,rfl⟩ := locked_eq hx
        obtain ⟨_,hkv⟩ := find_slot hk
        have hv : Vacant (s.tasks k).state := by simpa [Vacant] using Or.inl hkv
        intro i hw
        have hik : i≠k := by
          rintro rfl
          refine absurd hv (hz i ?_).2.1
          simpa [Sys.modTask] using hw
        have he (x : Task) : update s.tasks k x i=s.tasks i := update_of_ne hik _ _
        simp only [Sys.modTask,he] at hw ⊢
        exact hz i hw

theorem Sleepers.exit (hz : Sleepers s) (hs : Sound harts s) (hh : h<harts)
    (hi : (s.threads (s.running h)).inner=[])
    (hm : (s.threads (s.running h)).main=.exiting) (hx : taskExit h (s.running h) s=some s') :
    Sleepers s' := by
  have hcode : (view s).code ((view s).running h)=.free := by
    simp [view,Thread.code,hi,hm,Main.code]
  unfold taskExit at hx
  split at hx
  · split at hx
    · cases hx
    next prev hcur =>
      obtain ⟨_,htp,_⟩ := (hs.linked.hart h hh).current (by simp [hcode]) hcur
      have hn (j : Nat) := calmer_nextRunnable (s := s) (h := h) s.clock prev j
      generalize nextRunnable s.clock h prev s.tasks=r at hx hn
      obtain ⟨next,tasks⟩ := r
      dsimp only at hx hn
      have hsl (m : Main) (u : Nat) (hu : (s.threads u).main.sleeping=true) :
          ((Function.update s.threads (s.running h)
            {s.threads (s.running h) with main := m}) u).main.sleeping=true := by
        rw [update_of_ne]
        · exact hu
        · rintro rfl; rw [hm] at hu; cases hu
      cases next with
      | none => cases hx; exact hz.mono hn (hsl _)
      | some n =>
        dsimp only at hx
        split at hx
        · cases hx; exact hz.mono hn (hsl _)
        · cases hx
          intro i hw
          have hip : i≠prev := by
            rintro rfl
            have hne : (s.tasks i).wakeAtMs≠0 := by
              by_cases hin : i=n
              · subst hin
                simp only [Sys.setMain,Sys.modThread,Sys.modTask,update_self] at hw
                rcases (hn i).1 with he | he <;> rw [he] at hw
                · exact hw
                · exact absurd rfl hw
              · simp only [Sys.setMain,Sys.modThread,Sys.modTask,update_self,
                  update_of_ne hin] at hw
                rcases (hn i).1 with he | he <;> rw [he] at hw
                · exact hw
                · exact absurd rfl hw
            obtain ⟨_,_,t,z3,z4⟩ := hz i hne
            have htp : (s.tasks i).thread=some (s.running h) := htp
            rw [htp] at z3; cases z3
            rw [hm] at z4; cases z4
          have hc : (s.tasks i).Calmer (update (update tasks prev
              {tasks prev with state := .dead,stackBase := none}) n
              {(update tasks prev {tasks prev with state := .dead,stackBase := none}) n with
                state := .running} i) := by
            by_cases hin : i=n
            · subst hin
              rw [update_self,update_of_ne hip]
              exact (hn i).trans ⟨.inl rfl,rfl,rfl,fun hv => by rcases hv with hv | hv <;> cases hv⟩
            · rw [update_of_ne hin,update_of_ne hip]
              exact hn i
          obtain ⟨h1,h2,h3,h4⟩ := hc
          have hne : (s.tasks i).wakeAtMs≠0 := by
            rcases h1 with he | he
            · rw [← he]; exact hw
            · exact absurd he hw
          obtain ⟨z1,z2,t,z3,z4⟩ := hz i hne
          exact ⟨h2.trans z1,fun hv => z2 (h4 hv),t,h3.trans z3,hsl _ t z4⟩
  · cases hx

theorem Sleepers.main (hz : Sleepers s) (hs : Sound harts s) (ho : Owned harts (view s))
    (hh : h<harts) {a : Act} (hi : (s.threads (s.running h)).inner=[])
    (hx : mainStep harts h (s.running h) s (s.threads (s.running h)).main a=some s') :
    Sleepers s' := by
  generalize hm : (s.threads (s.running h)).main=m at hx
  have hcode : (s.threads (s.running h)).code=m.code := by simp [Thread.code,hi,hm]
  have hset {n : Main} (he : m.sleeping=true → n.sleeping=true) :
      Sleepers (s.setMain (s.running h) n) := hz.setMain (by rw [hm]; exact he)
  have hsw {b : Bool} {p : Phase} {x : Sys × Out} (m' : Main)
      (hx : schedSwitch harts h b p s=some x) (he : m.sleeping=true → m'.sleeping=true) :
      Sleepers (x.1.setMain (s.running h) m') := by
    have ht := schedSwitch_threads hx
    have h1 : Sleepers x.1 := hz.mono (schedSwitch_calmer hx) fun u hu => by rwa [(ht u).2.1]
    exact h1.setMain (by rw [(ht _).2.1,hm]; exact he)
  cases m with
  | user =>
    cases a <;> try cases hx
    next c => exact hz.call hs ho hh hi hm hx
  | start =>
    cases a <;> try cases hx
    simp only [mainStep] at hx
    split at hx <;> cases hx
    exact (hset (n := .startReap .take) (by rintro ⟨⟩)).mono (fun i => .rfl' _) fun _ hu => hu
  | startReap r =>
    cases a <;> try cases hx
    simp only [mainStep,Option.map_eq_some_iff] at hx
    obtain ⟨⟨s1,r1⟩,hr,rfl⟩ := hx
    obtain ⟨_,ht,_⟩ := schedReap_view hr
    have htk := schedReap_tasks hr
    dsimp only at ht htk
    have h1 : Sleepers s1 := hz.mono (fun i => by rw [htk]; exact .rfl' _) fun u hu => by rwa [ht]
    exact h1.setMain (by rw [ht,hm]; rintro ⟨⟩)
  | yield p =>
    cases a <;> try cases hx
    simp only [mainStep,Option.map_eq_some_iff] at hx
    obtain ⟨x,hr,rfl⟩ := hx
    exact hsw _ hr (by rintro ⟨⟩)
  | block p k =>
    cases a <;> try cases hx
    simp only [mainStep,Option.map_eq_some_iff] at hx
    obtain ⟨x,hr,rfl⟩ := hx
    refine hsw _ hr fun he => ?_
    cases hx2 : x.2 <;> cases k <;> first | rfl | cases he
  | idle k =>
    cases a <;> try cases hx
    simp only [mainStep] at hx
    split at hx
    · cases hx
    · split at hx <;> cases hx
      exact hset (by cases k <;> first | (intro; rfl) | rintro ⟨⟩)
  | clearWake =>
    cases a <;> try cases hx
    simp only [mainStep] at hx
    split at hx
    · cases hx
    next hcur =>
      obtain ⟨_,rfl⟩ := locked_eq hx
      exact hz.disarm hs ho hh hcode hcur _
  | sleep e =>
    cases a <;> try cases hx
    exact hset (by split <;> (intro; rfl))
  | sleepArm e =>
    cases a <;> try cases hx
    simp only [mainStep] at hx
    split at hx
    · cases hx
    next hcur =>
      obtain ⟨_,rfl⟩ := locked_eq hx
      exact hz.arm hs ho hh hcode hcur rfl
  | alloc k hart =>
    have hmk : (view s).makes (s.running h)=some (k,false) := by simp [view,hm,Main.makes]
    cases a <;> try cases hx
    · exact (hset (n := .fill k hart s.nextStack) (by rintro ⟨⟩)).mono (fun i => .rfl' _) fun _ hu => hu
    · have hw : (s.tasks k).wakeAtMs=0 := by
        by_contra hne
        have := (ho.makes _ _ _ hmk).1
        exact absurd ((hz k hne).1.symm.trans this) (by rintro ⟨⟩)
      have h1 : Sleepers (s.modTask k fun t => {t with state := .unused,making := false}) := by
        intro i hwi
        have hik : i≠k := by
          rintro rfl
          simp only [Sys.modTask,update_self] at hwi
          exact hwi hw
        have he (x : Task) : update s.tasks k x i=s.tasks i := update_of_ne hik _ _
        simp only [Sys.modTask,he] at hwi ⊢
        exact hz i hwi
      refine h1.setMain ?_
      change (s.threads (s.running h)).main.sleeping=true → _
      rw [hm]; rintro ⟨⟩
  | fill k hart st =>
    cases a <;> try cases hx
    refine Sleepers.setMain (s := s.modTask k _) (hz.mono (fun i => ?_) fun _ hu => hu) ?_
    · refine calmer_update (g := s.tasks) (fun j => .rfl' _) ?_ i
      exact ⟨.inr rfl,rfl,rfl,id⟩
    · change (s.threads (s.running h)).main.sleeping=true → _
      rw [hm]; rintro ⟨⟩
  | prime k st =>
    cases a <;> try cases hx
    simp only [mainStep] at hx
    split at hx
    · cases hx
    next u hu =>
      cases hx
      have hmk : (view s).makes (s.running h)=some (k,false) := by simp [view,hm,Main.makes]
      have hne : s.running h≠u := by
        obtain ⟨_,_,w,hw,hr,_⟩ := hs.linked.make _ k hmk
        have hu : (view s).thread k=some u := hu
        rw [hu] at hw; cases hw
        exact hr h hh
      have h1 : Sleepers ((s.modTask k fun t => {t with sp := some ⟨u,0⟩}).modThread u fun _ =>
          {stack := some st}) := by
        intro i hwi
        have hc : (s.tasks i).Calmer ((s.modTask k fun t => {t with sp := some ⟨u,0⟩}).tasks i) := by
          refine calmer_update (g := s.tasks) (fun j => .rfl' _) ?_ i
          exact ⟨.inl rfl,rfl,rfl,id⟩
        obtain ⟨c1,c2,c3,c4⟩ := hc
        have hni : (s.tasks i).wakeAtMs≠0 := by
          rcases c1 with he | he
          · rw [← he]; exact hwi
          · exact absurd he hwi
        obtain ⟨z1,z2,t,z3,z4⟩ := hz i hni
        refine ⟨c2.trans z1,fun hv => z2 (c4 hv),t,c3.trans z3,?_⟩
        have htu : t≠u := by
          rintro rfl
          have hik := hs.linked.thrInj i k _ z3 hu
          subst hik
          exact absurd (z1.symm.trans (ho.makes _ _ _ hmk).1) (by rintro ⟨⟩)
        simp only [Sys.modThread,update_of_ne htu]
        exact z4
      refine h1.setMain ?_
      simp only [Sys.modThread,update_of_ne hne]
      change (s.threads (s.running h)).main.sleeping=true → _
      rw [hm]; rintro ⟨⟩
  | publish k =>
    cases a <;> try cases hx
    obtain ⟨_,rfl⟩ := locked_eq hx
    have hmk : (view s).makes (s.running h)=some (k,true) := by simp [view,hm,Main.makes]
    have hw : (s.tasks k).wakeAtMs=0 := by
      by_contra hne
      have := (ho.makes _ _ _ hmk).1
      exact absurd ((hz k hne).1.symm.trans this) (by rintro ⟨⟩)
    have h1 : Sleepers (s.modTask k fun t => {t with state := .ready,making := false}) := by
      intro i hwi
      have hik : i≠k := by
        rintro rfl
        simp only [Sys.modTask,update_self] at hwi
        exact hwi hw
      have he (x : Task) : update s.tasks k x i=s.tasks i := update_of_ne hik _ _
      simp only [Sys.modTask,he] at hwi ⊢
      exact hz i hwi
    refine h1.setMain ?_
    change (s.threads (s.running h)).main.sleeping=true → _
    rw [hm]; rintro ⟨⟩
  | exiting =>
    cases a <;> try cases hx
    exact hz.exit hs hh hi hm hx
  | exitCross prev n =>
    cases a <;> try cases hx
    simp only [mainStep] at hx
    split at hx
    · simp only [Option.map_eq_some_iff] at hx
      obtain ⟨s1,hs1,rfl⟩ := hx
      obtain ⟨f,_,_,ht,_⟩ := ctxSwitch_view hs1
      have htm (u : Nat) : (s1.threads u).main=(s.threads u).main := by
        rw [ht]
        by_cases hu : u=s.running h
        · subst hu; simp
        · simp [update_of_ne hu]
      have hsw : schedSwitch harts h false (.cross prev n) s=some (s1,.at_ .landed) := by
        simp only [schedSwitch,hs1]
        simp_all
      have h1 : Sleepers s1 := hz.mono (schedSwitch_calmer hsw) fun u hu => by rwa [htm]
      exact h1.setMain (by rw [htm,hm]; rintro ⟨⟩)
    · cases hx
  | gone | halted | bug => cases a <;> cases hx

theorem Sleepers.inner (hz : Sleepers s) {i : Inner} {rest : List Inner} {a : Act}
    (hx : innerStep harts h (s.running h) s rest i a=some s') : Sleepers s' := by
  have hin (l : List Inner) : Sleepers (s.setInner (s.running h) l) :=
    hz.mono (fun i => .rfl' _) fun u hu => by rwa [threads_setInner]
  cases i with
  | yield p =>
    cases a <;> try cases hx
    simp only [innerStep,Option.map_eq_some_iff] at hx
    obtain ⟨x,hr,rfl⟩ := hx
    have ht := schedSwitch_threads hr
    have h1 : Sleepers x.1 := hz.mono (schedSwitch_calmer hr) fun u hu => by rwa [(ht u).2.1]
    exact h1.mono (fun i => .rfl' _) fun u hu => by rwa [threads_setInner]
  | isr =>
    cases a with
    | call c =>
      cases c <;> try cases hx
      · exact hin _
      · exact hz.unblock hx
    | ret => cases hx; exact hin _
    | go | interrupt | noMemory | advance => cases hx

theorem Sleepers.step (hz : Sleepers s) (hs : Sound harts s) (ho : Owned harts (view s)) {a : Act}
    (hx : step harts h a s=some s') : Sleepers s' := by
  obtain ⟨hh,⟨_,rfl⟩ | ⟨_,_,rfl⟩ | ⟨i,rest,_,hx⟩ | ⟨hi,hx⟩⟩ := step_cases hx
  · exact hz.mono (fun i => .rfl' _) fun _ hu => hu
  · exact hz.mono (fun i => .rfl' _) fun u hu => by rwa [threads_setInner]
  · exact hz.inner hx
  · exact hz.main hs ho hh hi hx

/-- The step wakes no slot that task_create_full is between reserving and publishing. -/
def fresh (s : Sys) : Act → Bool
  | .call (.unblock pid) => !(s.tasks pid).making
  | _ => true

/-- Steps of the harts where ok holds of the state before. -/
def Goes (harts : Nat) (ok : Sys → Act → Bool) (s : Sys) (e : Nat × Act) (s' : Sys) : Prop :=
  ok s e.2=true ∧ step harts e.1 e.2 s=some s'

/-- What holds in every state that a run reaches which wakes no slot under creation. -/
structure Kept (harts : Nat) (s : Sys) : Prop where
  sound : Sound harts s
  owned : Owned harts (view s)
  sleepers : Sleepers s

theorem schedInit_owned (harts : Nat) (h0 : 0<harts) : Owned harts (view (schedInit harts)) := by
  have htask (i : Nat) : (schedInit harts).tasks i=
      if i=0 then {state := .running,hartAffinity := some 0,thread := some 0} else {} := by
    simp only [schedInit,Function.update_apply]
  have hmakes (t : Nat) : ((schedInit harts).threads t).main.makes=none := by
    simp only [schedInit]
    split <;> rfl
  have l := (schedInit_sound harts).linked
  exact {
    own := fun h hh => .ofFree (l.free hh (by rintro ⟨⟩)) fun i hi => by
      have hi : (if h=0 then some 0 else none)=some i := hi
      split at hi
      · cases hi; simp [view,schedInit]
      · cases hi
    cur := fun i hi => by
      simp only [view,htask] at hi
      split at hi
      next he => subst he; exact ⟨0,h0,rfl⟩
      next => cases hi
    saved := fun i hi _ hr => by
      simp only [view,htask] at hi
      split at hi <;> simp at hi
    making := fun i hi => by
      simp only [view,htask] at hi
      split at hi <;> cases hi
    makes := fun c k p hc => by
      have hc : ((schedInit harts).threads c).main.makes=some (k,p) := hc
      rw [hmakes] at hc; cases hc
    makesInj := fun c d k p q hc => by
      have hc : ((schedInit harts).threads c).main.makes=some (k,p) := hc
      rw [hmakes] at hc; cases hc}

theorem Kept.step (hk : Kept harts s) {a : Act} (hf : fresh s a=true)
    (hx : step harts h a s=some s') : Kept harts s' := by
  obtain ⟨hh,hv,_⟩ := step_shows hk.sound.linked hk.sound.calm hx
  refine ⟨hk.sound.step hx,?_,hk.sleepers.step hk.sound hk.owned hx⟩
  rcases hv with he | hand
  · rw [he]; exact hk.owned
  · refine hk.owned.hand hk.sound.linked hh hand fun i hw => ?_
    rcases hw with hw | rfl
    · exact (hk.sleepers i hw).1
    · simpa [fresh,view] using hf

theorem reach_kept (h0 : 0<harts) {hist : List (Nat × Act)}
    (hr : Reach (Goes harts fresh) (schedInit harts) hist s) : Kept harts s := by
  refine hr.invariant (fun _ s => Kept harts s) ?_ fun _ s e s' hk he => hk.step he.1 he.2
  refine ⟨schedInit_sound harts,schedInit_owned harts h0,fun i hi => ?_⟩
  simp only [schedInit] at hi
  by_cases hi0 : i=0
  · subst hi0; simp at hi
  · simp [update_of_ne hi0] at hi

end LugalOS.Sched
