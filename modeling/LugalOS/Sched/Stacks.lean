import LugalOS.Lib.Tokens
import LugalOS.Sched.Table

namespace LugalOS.Sched

open Function (update update_of_ne update_self update_eq_self update_apply)
open Tokens (Conserved)

/-- How far a task_create_full has come: it has a slot, a stack for it, or has stored the stack in
the slot and not yet primed the frame. -/
inductive Work where
  | none
  | slot (k : Nat)
  | full (k stack : Nat)
  | prime (k stack : Nat)
deriving DecidableEq

def Work.target : Work → Option Nat
  | .none => Option.none
  | .slot k => some k
  | .full k _ => some k
  | .prime k _ => some k

def Work.holds : Work → Option Nat
  | .full _ st => some st
  | _ => Option.none

/-- A thread that runs or may run, one that is in task_exit's switch, one that has left. -/
inductive Life where
  | live
  | crossing
  | gone
deriving DecidableEq

/-- Where the stacks are: in a slot, in a hart's reap slot, in the hands of a sched_reap or of a
task_create_full, given to palloc_free. -/
inductive Place where
  | task (i : Nat)
  | hart (h : Nat)
  | reaper (t : Nat)
  | maker (t : Nat)
  | freed
deriving DecidableEq

/-- On the way from task_exit to palloc_free. -/
def Place.reaped : Place → Bool
  | .hart _ => true
  | .reaper _ => true
  | .freed => true
  | _ => false

/-- What creation, exit and reaping keep about stacks. -/
structure Stock where
  vacant : Nat → Prop
  thread : Nat → Option Nat
  base : Nat → Option Nat
  reap : Nat → Option Nat
  hands : Nat → List Nat
  work : Nat → Work
  life : Nat → Life
  stack : Nat → Option Nat
  freed : List Nat
  running : Nat → Nat
  nextStack : Nat
  nextThread : Nat

def Stock.cells (v : Stock) : Place → List Nat
  | .task i => (v.base i).toList
  | .hart h => (v.reap h).toList
  | .reaper t => v.hands t
  | .maker t => (v.work t).holds.toList
  | .freed => v.freed

/-- The thread was created to the end. -/
def Stock.begun (v : Stock) (t : Nat) : Prop := t<v.nextThread ∧
  ∀c k,(v.work c).target=some k → v.thread k≠some t

/-- What a step of hart h does with stacks. -/
inductive Pass (h : Nat) (v : Stock) : Stock → Prop where
  | quiet (vac : Nat → Prop) : (∀i,vac i → v.vacant i) → Pass h v {v with vacant := vac}
  | take (st : Nat) : v.reap h=some st → v.life (v.running h)=.live →
      Pass h v {v with
        reap := update v.reap h none,
        hands := update v.hands (v.running h) (st::v.hands (v.running h))}
  | free (st : Nat) (l : List Nat) : v.hands (v.running h)=st::l →
      Pass h v {v with hands := update v.hands (v.running h) l,freed := st::v.freed}
  | reserve (k : Nat) (vac : Nat → Prop) : v.vacant k → v.work (v.running h)=.none →
      (∀i,vac i → i≠k ∧ v.vacant i) → Pass h v {v with
        vacant := vac,thread := update v.thread k (some v.nextThread),
        work := update v.work (v.running h) (.slot k),nextThread := v.nextThread+1}
  | giveUp (k : Nat) (vac : Nat → Prop) : v.work (v.running h)=.slot k →
      (∀i,vac i → i=k ∨ v.vacant i) →
      Pass h v {v with vacant := vac,work := update v.work (v.running h) .none}
  | alloc (k : Nat) : v.work (v.running h)=.slot k → Pass h v {v with
      work := update v.work (v.running h) (.full k v.nextStack),nextStack := v.nextStack+1}
  | fill (k st : Nat) : v.work (v.running h)=.full k st → Pass h v {v with
      base := update v.base k (some st),work := update v.work (v.running h) (.prime k st)}
  | prime (k st u : Nat) : v.work (v.running h)=.prime k st → v.thread k=some u →
      Pass h v {v with
        hands := update v.hands u [],life := update v.life u .live,
        stack := update v.stack u (some st),
        work := update (update v.work u .none) (v.running h) .none}
  | exit (i : Nat) (vac : Nat → Prop) : v.thread i=some (v.running h) → v.reap h=none →
      v.life (v.running h)=.live → (∀j,vac j → j=i ∨ v.vacant j) → Pass h v {v with
        vacant := vac,base := update v.base i none,reap := update v.reap h (v.base i),
        life := update v.life (v.running h) .crossing}
  | switch (u : Nat) (x : Life) : (x=v.life (v.running h) ∧ x≠.crossing ∨
      v.life (v.running h)=.crossing ∧ x=.gone) → Pass h v {v with
        running := update v.running h u,life := update v.life (v.running h) x}
  | secondary (k : Nat) (vac : Nat → Prop) : v.vacant k → (∀i,vac i → i≠k ∧ v.vacant i) →
      Pass h v {v with
        vacant := vac,thread := update v.thread k (some (v.running h)),base := update v.base k none}

/-- Where each stack is, and which thread it carries. -/
structure Stocked (harts : Nat) (v : Stock) : Prop where
  conserved : Conserved v.cells (·<v.nextStack)
  vacant : ∀k,v.vacant k → v.base k=none
  slot : ∀c k,(v.work c).target=some k → (∀st,v.work c≠.prime k st) → v.base k=none
  prime : ∀c k st,v.work c=.prime k st → v.base k=some st
  blank : ∀t,¬v.begun t → v.stack t=none ∧ v.hands t=[] ∧ v.work t=.none
  live : ∀i t st,v.thread i=some t → v.stack t=some st → v.life t=.live → ¬v.vacant i
  owner : ∀t st,v.stack t=some st → v.life t=.live → ∃i,v.thread i=some t ∧ v.base i=some st
  crossing : ∀t st,v.stack t=some st → v.life t=.crossing →
    ∃g,g<harts ∧ v.running g=t ∧ v.reap g=some st
  gone : ∀t st,v.stack t=some st → v.life t=.gone → ∃c,c.reaped=true ∧ st∈v.cells c

/-- What the hand-over of harts keeps about threads, slots and makers. -/
structure Ties (harts h : Nat) (v : Stock) : Prop where
  inj : ∀i j t,v.thread i=some t → v.thread j=some t → i=j
  runs : v.begun (v.running h)
  runInj : ∀g,g<harts → v.running g=v.running h → g=h
  make : ∀c k,(v.work c).target=some k → ¬v.vacant k ∧ ∃u,v.thread k=some u ∧ u<v.nextThread
  makeInj : ∀c d k,(v.work c).target=some k → (v.work d).target=some k → c=d

variable {harts h : Nat} {v v' : Stock}

theorem mem_toList {x : Option Nat} {a : Nat} : a∈x.toList ↔ x=some a := Option.mem_toList

theorem Stocked.same (ok : Stocked harts v) (hc : v'.cells=v.cells)
    (hn : v'.nextStack=v.nextStack) : Conserved v'.cells (·<v'.nextStack) := by
  rw [hc,hn]; exact ok.conserved

theorem Stocked.move (ok : Stocked harts v) {a b : Place} {st : Nat} {l : List Nat} (hab : a≠b)
    (ha : v.cells a=st::l) (hc : v'.cells=update (update v.cells a l) b (st::v.cells b))
    (hn : v'.nextStack=v.nextStack) : Conserved v'.cells (·<v'.nextStack) := by
  rw [hc,hn]; exact ok.conserved.move hab ha

theorem stays {a b : Place} {st : Nat} {l : List Nat}
    (ha : v.cells a=st::l) (hab : a.reaped=true → b.reaped=true)
    (hc : v'.cells=update (update v.cells a l) b (st::v.cells b)) {x : Nat} {c : Place}
    (hr : c.reaped=true) (hx : x∈v.cells c) : ∃d,d.reaped=true ∧ x∈v'.cells d := by
  rw [hc]
  by_cases hcb : c=b
  · subst hcb
    exact ⟨c,hr,by rw [update_self]; exact List.mem_cons_of_mem _ hx⟩
  · by_cases hca : c=a
    · subst hca
      rw [ha] at hx
      rcases List.mem_cons.1 hx with rfl | hx
      · exact ⟨b,hab hr,by rw [update_self]; exact List.mem_cons_self⟩
      · exact ⟨c,hr,by rw [update_of_ne hcb,update_self]; exact hx⟩
    · exact ⟨c,hr,by rw [update_of_ne hcb,update_of_ne hca]; exact hx⟩

theorem Stocked.quiet (ok : Stocked harts v) {vac : Nat → Prop} (hv : ∀i,vac i → v.vacant i) :
    Stocked harts {v with vacant := vac} :=
  {ok with
    vacant := fun k hk => ok.vacant k (hv k hk)
    live := fun i t st h1 h2 h3 hi => ok.live i t st h1 h2 h3 (hv i hi)}

theorem Stocked.take (ok : Stocked harts v) {st : Nat} (ts : Ties harts h v) (hs : v.reap h=some st)
    (hl : v.life (v.running h)=.live) : Stocked harts {v with
      reap := update v.reap h none,
      hands := update v.hands (v.running h) (st::v.hands (v.running h))} := by
  have hcell : v.cells (.hart h)=[st] := by simp [Stock.cells,hs]
  have hc : Stock.cells {v with
      reap := update v.reap h none,
      hands := update v.hands (v.running h) (st::v.hands (v.running h))}=
      update (update v.cells (.hart h) []) (.reaper (v.running h)) (st::v.cells (.reaper (v.running h))) := by
    funext c
    cases c <;> simp [Stock.cells,update_apply]
    split <;> rfl
  exact {ok with
    conserved := ok.move (by simp) hcell hc rfl
    blank := by
      intro t ht
      obtain ⟨h1,h2,h3⟩ := ok.blank t ht
      have hne : t≠v.running h := by rintro rfl; exact ht ts.runs
      exact ⟨h1,(update_of_ne hne _ _).trans h2,h3⟩
    crossing := by
      intro t x h1 h2
      obtain ⟨g,hg,hr,hx⟩ := ok.crossing t x h1 h2
      have hne : g≠h := by
        rintro rfl
        have h2 : v.life t=.crossing := h2
        rw [← hr,hl] at h2; cases h2
      exact ⟨g,hg,hr,(update_of_ne hne _ _).trans hx⟩
    gone := by
      intro t x h1 h2
      obtain ⟨c,h3,h4⟩ := ok.gone t x h1 h2
      exact stays hcell (fun _ => rfl) hc h3 h4}

theorem Stocked.free (ok : Stocked harts v) {st : Nat} {l : List Nat} (ts : Ties harts h v)
    (hs : v.hands (v.running h)=st::l) : Stocked harts {v with
      hands := update v.hands (v.running h) l,freed := st::v.freed} := by
  have hc : Stock.cells {v with hands := update v.hands (v.running h) l,freed := st::v.freed}=
      update (update v.cells (.reaper (v.running h)) l) .freed (st::v.cells .freed) := by
    funext c
    cases c <;> simp [Stock.cells,update_apply]
  exact {ok with
    conserved := ok.move (a := .reaper (v.running h)) (by simp) hs hc rfl
    blank := by
      intro t ht
      obtain ⟨h1,h2,h3⟩ := ok.blank t ht
      have hne : t≠v.running h := by rintro rfl; exact ht ts.runs
      exact ⟨h1,(update_of_ne hne _ _).trans h2,h3⟩
    gone := by
      intro t x h1 h2
      obtain ⟨c,h3,h4⟩ := ok.gone t x h1 h2
      exact stays (a := .reaper (v.running h)) hs (fun _ => rfl) hc h3 h4}

theorem Stocked.reserve (ok : Stocked harts v) {k : Nat} {vac : Nat → Prop} (ts : Ties harts h v)
    (hk : v.vacant k) (hw : v.work (v.running h)=.none) (hv : ∀i,vac i → i≠k ∧ v.vacant i) :
    Stocked harts {v with
      vacant := vac,thread := update v.thread k (some v.nextThread),
      work := update v.work (v.running h) (.slot k),nextThread := v.nextThread+1} := by
  have hc : Stock.cells {v with
      vacant := vac,thread := update v.thread k (some v.nextThread),
      work := update v.work (v.running h) (.slot k),nextThread := v.nextThread+1}=v.cells := by
    funext c
    cases c <;> simp only [Stock.cells,update_apply]
    split
    next he => subst he; simp [hw,Work.holds]
    next => rfl
  -- a thread begun before is begun after
  have hbegun {t : Nat} (ht : v.begun t) : Stock.begun {v with
      vacant := vac,thread := update v.thread k (some v.nextThread),
      work := update v.work (v.running h) (.slot k),nextThread := v.nextThread+1} t := by
    refine ⟨Nat.lt_succ_of_lt ht.1,fun c j hcj => ?_⟩
    dsimp only at hcj ⊢
    by_cases hj : j=k
    · subst hj; rw [update_self]; simpa using (Nat.ne_of_lt ht.1).symm
    · rw [update_of_ne hj]
      by_cases hcr : c=v.running h
      · subst hcr; rw [update_self] at hcj; cases hcj; exact absurd rfl hj
      · rw [update_of_ne hcr] at hcj; exact ht.2 c j hcj
  have hwork {c : Nat} {x : Work} (hx : update v.work (v.running h) (.slot k) c=x)
      (hxk : x≠.slot k) : v.work c=x := by
    by_cases hcr : c=v.running h
    · subst hcr; rw [update_self] at hx; exact absurd hx.symm hxk
    · rwa [update_of_ne hcr] at hx
  exact {ok with
    conserved := ok.same hc rfl
    vacant := fun j hj => ok.vacant j (hv j hj).2
    slot := by
      intro c j hcj hp
      dsimp only at hcj hp ⊢
      by_cases hcr : c=v.running h
      · subst hcr; rw [update_self] at hcj; cases hcj; exact ok.vacant _ hk
      · rw [update_of_ne hcr] at hcj hp; exact ok.slot c j hcj hp
    prime := fun c j st hcj => ok.prime c j st (hwork hcj (by rintro ⟨⟩))
    blank := by
      intro t ht
      obtain ⟨h1,h2,h3⟩ := ok.blank t fun hb => ht (hbegun hb)
      have hne : t≠v.running h := by rintro rfl; exact ht (hbegun ts.runs)
      exact ⟨h1,h2,(update_of_ne hne _ _).trans h3⟩
    live := by
      intro i t st h1 h2 h3 hi
      obtain ⟨hik,hi⟩ := hv i hi
      exact ok.live i t st ((update_of_ne hik _ _).symm.trans h1) h2 h3 hi
    owner := by
      intro t st h1 h2
      obtain ⟨i,hi,hb⟩ := ok.owner t st h1 h2
      have hik : i≠k := by rintro rfl; exact ok.live i t st hi h1 h2 hk
      exact ⟨i,(update_of_ne hik _ _).trans hi,hb⟩
    gone := by
      intro t st h1 h2
      rw [hc]; exact ok.gone t st h1 h2}

theorem Stocked.goOn (ok : Stocked harts v) (ts : Ties harts h v) {k : Nat} {w : Work} {vac : Nat → Prop}
    (hw : v.work (v.running h)=.slot k) (hx : w=.none ∧ (∀i,vac i → i=k ∨ v.vacant i) ∨
      w.target=some k ∧ (∀st,w≠.prime k st) ∧ ∀i,vac i → v.vacant i) (n : Nat)
    (hn : Conserved (Stock.cells {v with
      vacant := vac,work := update v.work (v.running h) w,nextStack := n}) (·<n))
    (hkeep : ∀c x,c.reaped=true → x∈v.cells c → x∈Stock.cells {v with
      vacant := vac,work := update v.work (v.running h) w,nextStack := n} c) :
    Stocked harts {v with vacant := vac,work := update v.work (v.running h) w,nextStack := n} := by
  have hb := ok.slot (v.running h) k (by rw [hw]; rfl) (by rw [hw]; intro _ hm; cases hm)
  have hvac {i : Nat} (hi : vac i) : v.vacant i ∨ i=k := by
    rcases hx with ⟨_,hv⟩ | ⟨_,_,hv⟩
    · exact (hv i hi).symm
    · exact .inl (hv i hi)
  have htarget {j : Nat} (hj : w.target=some j) : j=k ∧ ∀st,w≠.prime j st := by
    rcases hx with ⟨rfl,_⟩ | ⟨ht,hp,_⟩
    · cases hj
    · rw [ht] at hj; cases hj; exact ⟨rfl,hp⟩
  have hbegun {t : Nat} (ht : v.begun t) : Stock.begun {v with
      vacant := vac,work := update v.work (v.running h) w,nextStack := n} t := by
    refine ⟨ht.1,fun c j hcj => ?_⟩
    by_cases hcr : c=v.running h
    · subst hcr
      dsimp only at hcj ⊢
      rw [update_self] at hcj
      rw [(htarget hcj).1]
      exact ht.2 _ k (by rw [hw]; rfl)
    · dsimp only at hcj
      rw [update_of_ne hcr] at hcj
      exact ht.2 c j hcj
  exact {ok with
    conserved := hn
    vacant := by
      intro j hj
      rcases hvac hj with hj | rfl
      · exact ok.vacant j hj
      · exact hb
    slot := by
      intro c j hcj hp
      dsimp only at hcj hp ⊢
      by_cases hcr : c=v.running h
      · subst hcr
        rw [update_self] at hcj
        rw [(htarget hcj).1]; exact hb
      · rw [update_of_ne hcr] at hcj hp; exact ok.slot c j hcj hp
    prime := by
      intro c j st hcj
      dsimp only at hcj
      by_cases hcr : c=v.running h
      · subst hcr
        rw [update_self] at hcj
        exact absurd hcj ((htarget (by rw [hcj]; rfl)).2 st)
      · rw [update_of_ne hcr] at hcj; exact ok.prime c j st hcj
    blank := by
      intro t ht
      obtain ⟨h1,h2,h3⟩ := ok.blank t fun hb => ht (hbegun hb)
      have hne : t≠v.running h := by rintro rfl; rw [hw] at h3; cases h3
      exact ⟨h1,h2,(update_of_ne hne _ _).trans h3⟩
    live := by
      intro i t st h1 h2 h3 hi
      rcases hvac hi with hi | rfl
      · exact ok.live i t st h1 h2 h3 hi
      · obtain ⟨j,hj,hbj⟩ := ok.owner t st h2 h3
        rw [ts.inj i j t h1 hj,hbj] at hb; cases hb
    gone := by
      intro t st h1 h2
      obtain ⟨c,h3,h4⟩ := ok.gone t st h1 h2
      exact ⟨c,h3,hkeep c st h3 h4⟩}

theorem Stocked.giveUp (ok : Stocked harts v) (ts : Ties harts h v) {k : Nat} {vac : Nat → Prop}
    (hw : v.work (v.running h)=.slot k) (hv : ∀i,vac i → i=k ∨ v.vacant i) :
    Stocked harts {v with vacant := vac,work := update v.work (v.running h) .none} := by
  have hc : Stock.cells {v with vacant := vac,work := update v.work (v.running h) .none}=v.cells := by
    funext c
    cases c <;> simp only [Stock.cells,update_apply]
    split
    next he => subst he; simp [hw,Work.holds]
    next => rfl
  exact ok.goOn ts hw (.inl ⟨rfl,hv⟩) v.nextStack (ok.same hc rfl) fun c x _ hx => by
    rw [hc]; exact hx

theorem Stocked.alloc (ok : Stocked harts v) (ts : Ties harts h v) {k : Nat}
    (hw : v.work (v.running h)=.slot k) : Stocked harts {v with
      work := update v.work (v.running h) (.full k v.nextStack),nextStack := v.nextStack+1} := by
  have hc : Stock.cells {v with
      work := update v.work (v.running h) (.full k v.nextStack),nextStack := v.nextStack+1}=
      update v.cells (.maker (v.running h)) (v.nextStack::v.cells (.maker (v.running h))) := by
    funext c
    cases c with
    | maker t =>
      by_cases ht : t=v.running h
      · subst ht; simp [Stock.cells,hw,Work.holds]
      · simp [Stock.cells,ht]
    | _ => simp [Stock.cells]
  refine ok.goOn ts hw (.inr ⟨rfl,by simp,fun _ => id⟩) (v.nextStack+1) ?_ fun c x hr hx => ?_
  · refine hc ▸ ok.conserved.issue (Nat.lt_irrefl _) _ fun y => ?_
    rw [Nat.lt_succ_iff_lt_or_eq]
  · refine hc ▸ ?_
    rw [update_of_ne (by rintro rfl; cases hr)]
    exact hx

theorem Stocked.fill (ok : Stocked harts v) (ts : Ties harts h v) {k st : Nat}
    (hw : v.work (v.running h)=.full k st) : Stocked harts {v with
      base := update v.base k (some st),work := update v.work (v.running h) (.prime k st)} := by
  have hb := ok.slot (v.running h) k (by rw [hw]; rfl) (by rw [hw]; intro _ hm; cases hm)
  have hcell : v.cells (.maker (v.running h))=[st] := by simp [Stock.cells,hw,Work.holds]
  have hc : Stock.cells {v with
      base := update v.base k (some st),work := update v.work (v.running h) (.prime k st)}=
      update (update v.cells (.maker (v.running h)) []) (.task k) (st::v.cells (.task k)) := by
    funext c
    cases c with
    | maker t =>
      by_cases ht : t=v.running h
      · subst ht; simp [Stock.cells,Work.holds]
      · simp [Stock.cells,ht]
    | task i =>
      by_cases hi : i=k
      · subst hi; simp [Stock.cells,hb]
      · simp [Stock.cells,hi]
    | _ => simp [Stock.cells]
  -- the maker's slot is its own
  have hmine {c j : Nat} (hcj : (v.work c).target=some j) (hcr : c≠v.running h) : j≠k := by
    rintro rfl
    exact hcr (ts.makeInj c _ j hcj (by rw [hw]; rfl))
  have hwork {c : Nat} (hcr : c≠v.running h) :
      update v.work (v.running h) (.prime k st) c=v.work c := update_of_ne hcr _ _
  have hbase {j : Nat} (hj : j≠k) : update v.base k (some st) j=v.base j := update_of_ne hj _ _
  have hbegun {t : Nat} (ht : v.begun t) : Stock.begun {v with
      base := update v.base k (some st),work := update v.work (v.running h) (.prime k st)} t := by
    refine ⟨ht.1,fun c j hcj => ?_⟩
    dsimp only at hcj ⊢
    by_cases hcr : c=v.running h
    · subst hcr
      rw [update_self] at hcj
      cases hcj
      exact ht.2 _ k (by rw [hw]; rfl)
    · rw [hwork hcr] at hcj
      exact ht.2 c j hcj
  exact {ok with
    conserved := ok.move (by simp) hcell hc rfl
    vacant := by
      intro j hj
      have hjk : j≠k := by rintro rfl; exact (ts.make _ j (by rw [hw]; rfl)).1 hj
      exact (hbase hjk).trans (ok.vacant j hj)
    slot := by
      intro c j hcj hp
      dsimp only at hcj hp
      by_cases hcr : c=v.running h
      · subst hcr
        rw [update_self] at hcj hp
        cases hcj; exact absurd rfl (hp st)
      · rw [hwork hcr] at hcj hp
        exact (hbase (hmine hcj hcr)).trans (ok.slot c j hcj hp)
    prime := by
      intro c j x hcj
      dsimp only at hcj
      by_cases hcr : c=v.running h
      · subst hcr
        rw [update_self] at hcj
        cases hcj; exact update_self _ _ _
      · rw [hwork hcr] at hcj
        exact (hbase (hmine (by rw [hcj]; rfl) hcr)).trans (ok.prime c j x hcj)
    blank := by
      intro t ht
      obtain ⟨h1,h2,h3⟩ := ok.blank t fun hb => ht (hbegun hb)
      have hne : t≠v.running h := by rintro rfl; rw [hw] at h3; cases h3
      exact ⟨h1,h2,(hwork hne).trans h3⟩
    owner := by
      intro t x h1 h2
      obtain ⟨i,hi,hbi⟩ := ok.owner t x h1 h2
      have hik : i≠k := by rintro rfl; rw [hb] at hbi; cases hbi
      exact ⟨i,hi,(hbase hik).trans hbi⟩
    gone := by
      intro t x h1 h2
      obtain ⟨c,h3,h4⟩ := ok.gone t x h1 h2
      exact stays hcell (by rintro ⟨⟩) hc h3 h4}

theorem Stocked.primed (ok : Stocked harts v) (ts : Ties harts h v) {k st u : Nat}
    (hw : v.work (v.running h)=.prime k st) (hu : v.thread k=some u) : Stocked harts {v with
      hands := update v.hands u [],life := update v.life u .live,
      stack := update v.stack u (some st),
      work := update (update v.work u .none) (v.running h) .none} := by
  have hnb : ¬v.begun u := fun hb => hb.2 _ k (by rw [hw]; rfl) hu
  obtain ⟨u1,u2,u3⟩ := ok.blank u hnb
  have hbk := ok.prime _ k st hw
  have hands : update v.hands u []=v.hands := by rw [← u2,update_eq_self]
  have hwork {c : Nat} {x : Work} (hx : x≠.none)
      (hc : update (update v.work u .none) (v.running h) .none c=x) : v.work c=x := by
    by_cases hcr : c=v.running h
    · subst hcr; rw [update_self] at hc; exact absurd hc.symm hx
    · rw [update_of_ne hcr] at hc
      by_cases hcu : c=u
      · subst hcu; rw [update_self] at hc; exact absurd hc.symm hx
      · rwa [update_of_ne hcu] at hc
  have htarget {c j : Nat}
      (hc : (update (update v.work u .none) (v.running h) .none c).target=some j) :
      update (update v.work u .none) (v.running h) .none c=v.work c := by
    refine (hwork ?_ rfl).symm
    intro he; rw [he] at hc; cases hc
  have hc : Stock.cells {v with
      hands := update v.hands u [],life := update v.life u .live,
      stack := update v.stack u (some st),
      work := update (update v.work u .none) (v.running h) .none}=v.cells := by
    funext c
    cases c <;> simp only [Stock.cells,hands]
    next t =>
      by_cases htr : t=v.running h
      · subst htr; rw [update_self,hw]; rfl
      · rw [update_of_ne htr]
        by_cases htu : t=u
        · subst htu; rw [update_self,u3]
        · rw [update_of_ne htu]
  exact {ok with
    conserved := ok.same hc rfl
    slot := by
      intro c j hcj hp
      dsimp only at hcj hp
      have he := htarget hcj
      rw [he] at hcj hp
      exact ok.slot c j hcj hp
    prime := fun c j x hcj => ok.prime c j x (hwork (by rintro ⟨⟩) hcj)
    blank := by
      intro t ht
      have htb : ¬v.begun t := fun hb => ht ⟨hb.1,fun c j hcj => by
        dsimp only at hcj
        rw [htarget hcj] at hcj
        exact hb.2 c j hcj⟩
      have htu : t≠u := by
        rintro rfl
        refine ht ⟨?_,fun c j hcj htj => ?_⟩
        · obtain ⟨_,w,hw1,hw2⟩ := ts.make _ k (by rw [hw]; rfl)
          rw [hu] at hw1; cases hw1; exact hw2
        · dsimp only at hcj htj
          have hjk := ts.inj j k t htj hu
          subst hjk
          have hcv := htarget hcj
          rw [hcv] at hcj
          have := ts.makeInj c _ j hcj (by rw [hw]; rfl)
          subst this
          rw [update_self,hw] at hcv; cases hcv
      have htr : t≠v.running h := by rintro rfl; exact htb ts.runs
      obtain ⟨h1,h2,h3⟩ := ok.blank t htb
      refine ⟨(update_of_ne htu _ _).trans h1,(update_of_ne htu _ _).trans h2,?_⟩
      exact (update_of_ne htr _ _).trans ((update_of_ne htu _ _).trans h3)
    live := by
      intro i t x h1 h2 h3 hi
      dsimp only at h1 h2 h3 hi
      by_cases htu : t=u
      · subst htu
        have hik := ts.inj i k t h1 hu
        subst hik
        exact (ts.make _ i (by rw [hw]; rfl)).1 hi
      · rw [update_of_ne htu] at h2 h3
        exact ok.live i t x h1 h2 h3 hi
    owner := by
      intro t x h1 h2
      dsimp only at h1 h2
      by_cases htu : t=u
      · subst htu
        rw [update_self] at h1; cases h1
        exact ⟨k,hu,hbk⟩
      · rw [update_of_ne htu] at h1 h2
        exact ok.owner t x h1 h2
    crossing := by
      intro t x h1 h2
      dsimp only at h1 h2
      by_cases htu : t=u
      · subst htu; rw [update_self] at h2; cases h2
      · rw [update_of_ne htu] at h1 h2
        exact ok.crossing t x h1 h2
    gone := by
      intro t x h1 h2
      dsimp only at h1 h2
      by_cases htu : t=u
      · subst htu; rw [update_self] at h2; cases h2
      · rw [update_of_ne htu] at h1 h2
        rw [hc]
        exact ok.gone t x h1 h2}

theorem Stocked.exit (ok : Stocked harts v) (ts : Ties harts h v) (hh : h<harts) {i : Nat}
    {vac : Nat → Prop} (hi : v.thread i=some (v.running h)) (hr : v.reap h=none)
    (hl : v.life (v.running h)=.live) (hv : ∀j,vac j → j=i ∨ v.vacant j) : Stocked harts {v with
      vacant := vac,base := update v.base i none,reap := update v.reap h (v.base i),
      life := update v.life (v.running h) .crossing} := by
  have hcells (st : Nat) (hb : v.base i=some st) : Stock.cells {v with
      vacant := vac,base := update v.base i none,reap := update v.reap h (v.base i),
      life := update v.life (v.running h) .crossing}=
      update (update v.cells (.task i) []) (.hart h) (st::v.cells (.hart h)) := by
    funext c
    cases c with
    | task j =>
      by_cases hj : j=i
      · subst hj; simp [Stock.cells]
      · simp [Stock.cells,hj]
    | hart g =>
      by_cases hg : g=h
      · subst hg; simp [Stock.cells,hb,hr]
      · simp [Stock.cells,hg]
    | _ => simp [Stock.cells]
  have hsame (hb : v.base i=none) : Stock.cells {v with
      vacant := vac,base := update v.base i none,reap := update v.reap h (v.base i),
      life := update v.life (v.running h) .crossing}=v.cells := by
    have h1 : update v.base i none=v.base := by rw [← hb,update_eq_self]
    have h2 : update v.reap h (v.base i)=v.reap := by rw [hb,← hr,update_eq_self]
    funext c
    cases c <;> simp only [Stock.cells,h1,h2]
  have hbase {j : Nat} (hj : v.base j=none) : update v.base i none j=none := by
    by_cases hji : j=i
    · subst hji; rw [update_self]
    · rwa [update_of_ne hji]
  have hlife {t : Nat} {x : Life} (hx : update v.life (v.running h) .crossing t=x)
      (hne : x≠.crossing) : t≠v.running h ∧ v.life t=x := by
    by_cases htr : t=v.running h
    · subst htr; rw [update_self] at hx; exact absurd hx.symm hne
    · rw [update_of_ne htr] at hx; exact ⟨htr,hx⟩
  exact {ok with
    conserved := by
      by_cases hb : v.base i=none
      · exact ok.same (hsame hb) rfl
      · obtain ⟨st,hb⟩ := Option.ne_none_iff_exists'.1 hb
        refine ok.move (a := .task i) (b := .hart h) (l := []) (by simp) ?_ (hcells st hb) rfl
        simp [Stock.cells,hb]
    vacant := by
      intro j hj
      rcases hv j hj with rfl | hj
      · exact update_self _ _ _
      · exact hbase (ok.vacant j hj)
    slot := fun c j h1 h2 => hbase (ok.slot c j h1 h2)
    prime := by
      intro c j st hcj
      have hji : j≠i := by
        rintro rfl
        exact ts.runs.2 c j (by rw [show v.work c=_ from hcj]; rfl) hi
      exact (update_of_ne hji _ _).trans (ok.prime c j st hcj)
    live := by
      intro j t st h1 h2 h3 hj
      obtain ⟨htr,h3⟩ := hlife h3 (by rintro ⟨⟩)
      rcases hv j hj with rfl | hj
      · exact htr (Option.some.inj (h1.symm.trans hi))
      · exact ok.live j t st h1 h2 h3 hj
    owner := by
      intro t st h1 h2
      obtain ⟨htr,h2⟩ := hlife h2 (by rintro ⟨⟩)
      obtain ⟨j,hj,hb⟩ := ok.owner t st h1 h2
      have hji : j≠i := by rintro rfl; exact htr (Option.some.inj (hj.symm.trans hi))
      exact ⟨j,hj,(update_of_ne hji _ _).trans hb⟩
    crossing := by
      intro t st h1 h2
      by_cases htr : t=v.running h
      · subst htr
        obtain ⟨j,hj,hb⟩ := ok.owner _ st h1 hl
        have hji := ts.inj j i _ hj hi
        subst hji
        exact ⟨h,hh,rfl,(update_self _ _ _).trans hb⟩
      · obtain ⟨g,hg,hrun,hx⟩ := ok.crossing t st h1
          ((update_of_ne htr _ _).symm.trans h2)
        have hgh : g≠h := by rintro rfl; exact htr hrun.symm
        exact ⟨g,hg,hrun,(update_of_ne hgh _ _).trans hx⟩
    gone := by
      intro t st h1 h2
      obtain ⟨htr,h2⟩ := hlife h2 (by rintro ⟨⟩)
      obtain ⟨c,h3,h4⟩ := ok.gone t st h1 h2
      by_cases hb : v.base i=none
      · exact ⟨c,h3,by rw [hsame hb]; exact h4⟩
      · obtain ⟨x,hb⟩ := Option.ne_none_iff_exists'.1 hb
        have hcell : v.cells (.task i)=[x] := by simp [Stock.cells,hb]
        exact stays hcell (by rintro ⟨⟩) (hcells x hb) h3 h4}

theorem Stocked.switch (ok : Stocked harts v) (ts : Ties harts h v) (hh : h<harts) {u : Nat}
    {x : Life} (hx : x=v.life (v.running h) ∧ x≠.crossing ∨
      v.life (v.running h)=.crossing ∧ x=.gone) : Stocked harts {v with
      running := update v.running h u,life := update v.life (v.running h) x} := by
  have hlife {t : Nat} {y : Life} (ht : update v.life (v.running h) x t=y) (hy : y≠.gone) :
      v.life t=y := by
    by_cases htr : t=v.running h
    · subst htr
      rw [update_self] at ht
      rcases hx with ⟨he,_⟩ | ⟨_,he⟩
      · exact he.symm.trans ht
      · exact absurd (ht.symm.trans he) hy
    · rwa [update_of_ne htr] at ht
  exact {ok with
    conserved := ok.conserved
    live := fun i t st h1 h2 h3 => ok.live i t st h1 h2 (hlife h3 (by rintro ⟨⟩))
    owner := fun t st h1 h2 => ok.owner t st h1 (hlife h2 (by rintro ⟨⟩))
    crossing := by
      intro t st h1 h2
      obtain ⟨g,hg,hr,hs⟩ := ok.crossing t st h1 (hlife h2 (by rintro ⟨⟩))
      have hgh : g≠h := by
        rintro rfl
        have h2 : update v.life (v.running g) x t=.crossing := h2
        rw [← hr,update_self] at h2
        rcases hx with ⟨_,hn⟩ | ⟨_,he⟩
        · exact hn h2
        · rw [he] at h2; cases h2
      exact ⟨g,hg,(update_of_ne hgh _ _).trans hr,hs⟩
    gone := by
      intro t st h1 h2
      have h2 : update v.life (v.running h) x t=.gone := h2
      by_cases htr : t=v.running h
      · subst htr
        rw [update_self] at h2
        rcases hx with ⟨he,_⟩ | ⟨hc,_⟩
        · exact ok.gone _ st h1 (he.symm.trans h2)
        · obtain ⟨g,_,_,hs⟩ := ok.crossing _ st h1 hc
          exact ⟨.hart g,rfl,by simp [Stock.cells,hs]⟩
      · rw [update_of_ne htr] at h2
        exact ok.gone t st h1 h2}

theorem Stocked.secondary (ok : Stocked harts v) (ts : Ties harts h v) {k : Nat} {vac : Nat → Prop}
    (hk : v.vacant k) (hv : ∀i,vac i → i≠k ∧ v.vacant i) : Stocked harts {v with
      vacant := vac,thread := update v.thread k (some (v.running h)),
      base := update v.base k none} := by
  have hb := ok.vacant k hk
  have hbase : update v.base k none=v.base := by rw [← hb,update_eq_self]
  rw [hbase]
  have hbegun {t : Nat} (ht : v.begun t) : Stock.begun {v with
      vacant := vac,thread := update v.thread k (some (v.running h))} t := by
    refine ⟨ht.1,fun c j hcj => ?_⟩
    have hjk : j≠k := by rintro rfl; exact (ts.make c j hcj).1 hk
    exact (update_of_ne hjk _ _).trans_ne (ht.2 c j hcj)
  exact {ok with
    conserved := ok.conserved
    vacant := fun j hj => ok.vacant j (hv j hj).2
    blank := fun t ht => ok.blank t fun hb => ht (hbegun hb)
    live := by
      intro i t st h1 h2 h3 hi
      obtain ⟨hik,hi⟩ := hv i hi
      exact ok.live i t st ((update_of_ne hik _ _).symm.trans h1) h2 h3 hi
    owner := by
      intro t st h1 h2
      obtain ⟨i,hi,hbi⟩ := ok.owner t st h1 h2
      have hik : i≠k := by rintro rfl; exact ok.live i t st hi h1 h2 hk
      exact ⟨i,(update_of_ne hik _ _).trans hi,hbi⟩}

theorem Stocked.pass (ok : Stocked harts v) (ts : Ties harts h v) (hh : h<harts)
    (hp : Pass h v v') : Stocked harts v' := by
  cases hp with
  | quiet vac hv => exact ok.quiet hv
  | take st hs hl => exact ok.take ts hs hl
  | free st l hs => exact ok.free ts hs
  | reserve k vac hk hw hv => exact ok.reserve ts hk hw hv
  | giveUp k vac hw hv => exact ok.giveUp ts hw hv
  | alloc k hw => exact ok.alloc ts hw
  | fill k st hw => exact ok.fill ts hw
  | prime k st u hw hu => exact ok.primed ts hw hu
  | exit i vac hi hr hl hv => exact ok.exit ts hh hi hr hl hv
  | switch u x hx => exact ok.switch ts hh hx
  | secondary k vac hk hv => exact ok.secondary ts hk hv

theorem Pass.other (hp : Pass h v v') {g : Nat} (hg : g≠h) :
    v'.reap g=v.reap g ∧ v'.running g=v.running g := by
  cases hp <;> first
  | exact ⟨rfl,rfl⟩
  | exact ⟨update_of_ne hg _ _,rfl⟩
  | exact ⟨rfl,update_of_ne hg _ _⟩

theorem Pass.filled (hp : Pass h v v') (hr : v.reap h=none) (hn : v'.reap h≠none) :
    v'.life (v'.running h)=.crossing := by
  cases hp with
  | take st hs => rw [hr] at hs; cases hs
  | exit i vac => exact update_self _ _ _
  | _ => exact absurd hr hn

end LugalOS.Sched
