import LugalOS.Lock.Order

namespace LugalOS.Lock

open Precedence (learn Leads)

variable {C L : Type} [DecidableEq L] [DecidableEq C]

namespace Locks

theorem roomy_of_step {s : Locks C L} (hs : s.Kept) {e : LockEvent C L}
    (h : (s.step e).Roomy) : s.Roomy := by
  cases step_effect hs e with
  | same _ horder _ => rwa [Roomy,horder] at h
  | take c l w _ _ _ horder _ =>
    rw [Roomy,horder] at h
    have hdropped : (s.order.orderAcquired l c w).pairsDropped=0 := h.1
    have hover : (s.order.orderAcquired l c w).heldOverflow=0 := h.2
    refine ⟨?_,?_⟩
    · rw [OrderTables.orderAcquired,(OrderTables.push_tables ..).2.2] at hdropped
      split_ifs at hdropped
      · have hle := OrderTables.dropped_le_fold l s.order (s.order.held c)
        omega
      · exact hdropped
    · have hlt := OrderTables.orderAcquired_overflow s.order l c w hover
      unfold OrderTables.orderAcquired OrderTables.push at hover
      cases w
      · simpa [hlt] using hover
      · simpa [OrderTables.fold_held,hlt,OrderTables.fold_overflow] using hover
  | drop l o _ _ _ horder _ =>
    rw [Roomy,horder] at h
    cases o <;> exact h

theorem step_stacks {s : Locks C L} (hs : s.Kept) {e : LockEvent C L} (h : (s.step e).Roomy)
    (hall : ∀c l,s.Holds c l → l∈s.order.held c) (c : C) (l : L) (hl : (s.step e).Holds c l) :
    l∈(s.step e).order.held c := by
  cases step_effect hs e with
  | same hholds horder _ =>
    rw [horder]
    exact hall c l ((hholds c l).mp hl)
  | take c' l' w _ _ hholds horder _ =>
    have hover : (s.order.orderAcquired l' c' w).heldOverflow=0 := horder ▸ h.2
    have hlt := OrderTables.orderAcquired_overflow s.order l' c' w hover
    rw [horder,OrderTables.orderAcquired_held,if_pos hlt]
    rcases (hholds c l).mp hl with ⟨rfl,rfl⟩ | ⟨-,hold⟩
    · simp
    · by_cases hc : c=c'
      · subst hc
        simp [hall c l hold]
      · rw [Function.update_of_ne hc]
        exact hall c l hold
  | drop l' o _ _ hholds horder _ =>
    obtain ⟨hne,hold⟩ := (hholds c l).mp hl
    rw [horder,OrderTables.mem_orderReleased_held hs.nodup]
    exact ⟨hall c l hold,fun _ => hne⟩

theorem step_pairs {s : Locks C L} (hs : s.Kept) {e : LockEvent C L} (h : (s.step e).Roomy) :
    (s.step e).order.pairs=(s.takes e).foldl learn s.order.pairs := by
  cases step_effect hs e with
  | same _ horder htakes =>
    rw [horder,htakes]
    rfl
  | take c l w _ _ _ horder htakes =>
    have hdropped : (s.order.orderAcquired l c w).pairsDropped=0 := horder ▸ h.1
    rw [horder,htakes]
    rw [OrderTables.orderAcquired,(OrderTables.push_tables ..).2.2] at hdropped
    rw [OrderTables.orderAcquired,(OrderTables.push_tables ..).2.1]
    cases w
    · rfl
    · simp only [if_true] at hdropped ⊢
      exact OrderTables.fold_pairs l s.order _ hdropped
  | drop l o _ _ _ horder htakes =>
    rw [horder,htakes]
    cases o <;> rfl

theorem mem_step_pairs {s : Locks C L} (hs : s.Kept) {e : LockEvent C L} {p : L×L}
    (hp : p∈(s.step e).order.pairs) : p∈s.order.pairs ∨ p∈s.takes e := by
  cases step_effect hs e with
  | same _ horder _ => exact .inl (horder ▸ hp)
  | take c l w _ _ _ horder htakes =>
    rw [horder,OrderTables.orderAcquired,(OrderTables.push_tables ..).2.1] at hp
    rw [htakes]
    cases w
    · exact .inl hp
    · simp only [if_true] at hp ⊢
      rcases OrderTables.mem_fold hp with hp | ⟨x,hx,hne,rfl⟩
      · exact .inl hp
      · exact .inr (List.mem_map.mpr ⟨x,by simp [hx,hne],rfl⟩)
  | drop l o _ _ _ horder _ =>
    rw [horder] at hp
    cases o <;> exact .inl hp

theorem fst_ne_of_mem_takes {s : Locks C L} {e : LockEvent C L} {p : L×L} (hp : p∈s.takes e) :
    p.1≠p.2 := by
  cases e with
  | acquire c l =>
    simp only [takes] at hp
    split_ifs at hp
    · obtain ⟨x,hx,rfl⟩ := List.mem_map.mp hp
      simpa using (List.mem_filter.mp hx).2
    · simp at hp
  | tryAcquire c l | release c l => simp [takes] at hp

theorem took_of_mem_takes {s : Locks C L} (hs : s.Kept) {e : LockEvent C L} {a b : L}
    (h : (a,b)∈s.takes e) : s.Took e a b := by
  cases step_effect hs e with
  | same _ _ htakes | drop _ _ _ _ _ _ htakes => simp [htakes] at h
  | take c l w he hfree hholds _ htakes =>
    rw [htakes] at h
    cases w
    · simp at h
    · simp only [if_true] at h
      obtain ⟨x,hx,heq⟩ := List.mem_map.mp h
      cases heq
      exact ⟨c,he,hs.holds c _ (List.mem_filter.mp hx).1,hfree c,
        (hholds c b).mpr (.inl ⟨rfl,rfl⟩)⟩

theorem Took.effect {s : Locks C L} (hs : s.Kept) {e : LockEvent C L} {a b : L}
    (h : s.Took e a b) : ∃c,s.Holds c a ∧ a≠b ∧ (s.step e).order=s.order.orderAcquired b c true ∧
      s.takes e=((s.order.held c).filter (·≠b)).map fun h => (h,b) := by
  obtain ⟨c,he,ha,hb,hb'⟩ := h
  have hne : a≠b := fun heq => hb (heq ▸ ha)
  cases step_effect hs e with
  | same hholds _ _ => exact absurd ((hholds c b).mp hb') hb
  | drop l o _ _ hholds _ _ => exact absurd ((hholds c b).mp hb').2 hb
  | take c' l w he' _ hholds horder htakes =>
    rcases (hholds c b).mp hb' with ⟨rfl,rfl⟩ | ⟨-,hold⟩
    · rw [he] at he'
      cases w
      · cases he'
      · exact ⟨c,ha,hne,horder,htakes⟩
    · exact absurd hold hb

theorem run_snoc (s : Locks C L) (h : List (LockEvent C L)) (e : LockEvent C L) :
    s.run (h++[e])=(s.run h).step e := by
  simp [run]

theorem Kept.run {s : Locks C L} (hs : s.Kept) (h : List (LockEvent C L)) : (s.run h).Kept := by
  induction h using List.reverseRecOn with
  | nil => exact hs
  | append_singleton h e ih =>
    rw [run_snoc]
    exact ih.step e

theorem roomy_of_run {s : Locks C L} (hs : s.Kept) (h g : List (LockEvent C L))
    (hr : (s.run (h++g)).Roomy) : (s.run h).Roomy := by
  induction g using List.reverseRecOn with
  | nil => simpa using hr
  | append_singleton g e ih =>
    rw [← List.append_assoc,run_snoc] at hr
    exact ih (roomy_of_step (hs.run _) hr)

/-- The takes of a history, in order. -/
def allTakes (s : Locks C L) : List (LockEvent C L) → List (L×L)
  | [] => []
  | e::h => s.takes e++allTakes (s.step e) h

theorem allTakes_append (s : Locks C L) (h g : List (LockEvent C L)) :
    s.allTakes (h++g)=s.allTakes h++(s.run h).allTakes g := by
  induction h generalizing s with
  | nil => rfl
  | cons e h ih => simp [allTakes,ih,run]

theorem took_of_mem_allTakes {s : Locks C L} (hs : s.Kept) {h : List (LockEvent C L)} {a b : L}
    (hp : (a,b)∈s.allTakes h) : ∃g e g',h=g++e::g' ∧ (s.run g).Took e a b := by
  induction h generalizing s with
  | nil => simp [allTakes] at hp
  | cons e h ih =>
    rcases List.mem_append.mp hp with hp | hp
    · exact ⟨[],e,h,rfl,took_of_mem_takes hs hp⟩
    · obtain ⟨g,e',g',rfl,htook⟩ := ih (hs.step e) hp
      exact ⟨e::g,e',g',rfl,htook⟩

theorem fst_ne_of_mem_allTakes {s : Locks C L} {h : List (LockEvent C L)} {p : L×L}
    (hp : p∈s.allTakes h) : p.1≠p.2 := by
  induction h generalizing s with
  | nil => simp [allTakes] at hp
  | cons e h ih =>
    rcases List.mem_append.mp hp with hp | hp
    · exact fst_ne_of_mem_takes hp
    · exact ih hp

theorem run_stacks {s : Locks C L} (hs : s.Fresh) {h : List (LockEvent C L)}
    (hr : (s.run h).Roomy) (c : C) (l : L) (hl : (s.run h).Holds c l) :
    l∈(s.run h).order.held c := by
  induction h using List.reverseRecOn generalizing c l with
  | nil =>
    have hfree := (hs.free l).1
    have hpos : 0 < (s.lock l).depth := hl.1
    omega
  | append_singleton h e ih =>
    rw [run_snoc] at hr hl ⊢
    have hk := hs.kept.run h
    exact step_stacks hk hr (ih (roomy_of_step hk hr)) c l hl

/-- With room in the table it holds the pairs that were taken before their inverse. -/
theorem run_pairs {s : Locks C L} (hs : s.Fresh) {h : List (LockEvent C L)}
    (hr : (s.run h).Roomy) : (s.run h).order.pairs=(s.allTakes h).foldl learn [] := by
  induction h using List.reverseRecOn with
  | nil => exact hs.pairs
  | append_singleton h e ih =>
    rw [run_snoc] at hr ⊢
    have hk := hs.kept.run h
    rw [step_pairs hk hr,ih (roomy_of_step hk hr),allTakes_append,List.foldl_append]
    simp [allTakes]

theorem mem_run_pairs {s : Locks C L} (hs : s.Fresh) {h : List (LockEvent C L)} {p : L×L}
    (hp : p∈(s.run h).order.pairs) : p∈s.allTakes h := by
  induction h using List.reverseRecOn with
  | nil =>
    rw [run,List.foldl_nil,hs.pairs] at hp
    simp at hp
  | append_singleton h e ih =>
    rw [run_snoc] at hp
    rw [allTakes_append,List.mem_append]
    rcases mem_step_pairs (hs.kept.run h) hp with hp | hp
    · exact .inl (ih hp)
    · exact .inr (by simpa [allTakes] using hp)

/-- An acquisition counts the held locks that were taken under the new one before the new one was
taken under them. -/
theorem run_inversions {s : Locks C L} (hs : s.Fresh) {h : List (LockEvent C L)}
    (hr : (s.run h).Roomy) {e : LockEvent C L} {a b : L} (ht : (s.run h).Took e a b) :
    ∃c,a∈(s.run h).order.held c ∧ (s.run (h++[e])).order.inversions=
      ((s.run h).order.inversions+((s.run h).order.held c).countP fun x =>
        x≠b ∧ (b,x)∈(s.allTakes h).foldl learn [])%2^32 := by
  have hk := hs.kept.run h
  obtain ⟨c,ha,-,horder,-⟩ := ht.effect hk
  refine ⟨c,run_stacks hs hr c a ha,?_⟩
  rw [run_snoc,horder,OrderTables.orderAcquired,(OrderTables.push_tables ..).1,if_pos rfl,
    OrderTables.fold_inversions _ _ _ hk.bound,run_pairs hs hr]

/-- An event moves the 32-bit count on, by at most one for each lock that a stack has room for. -/
def Counts (s : Locks C L) (e : LockEvent C L) : Prop :=
  ∃k,0 < k ∧ k≤lockordDepth ∧ (s.step e).order.inversions=(s.order.inversions+k)%2^32

theorem counts_of_first {s : Locks C L} (hs : s.Fresh) {h g : List (LockEvent C L)}
    {e e' : LockEvent C L} {a b : L} (hr : (s.run (h++e::g)).Roomy) (ht : (s.run h).Took e a b)
    (hfirst : ∀u d v,h=u++d::v → ¬(s.run u).Took d b a) (ht' : (s.run (h++e::g)).Took e' b a) :
    (s.run (h++e::g)).Counts e' := by
  have hne : a≠b := (ht.effect (hs.kept.run h)).choose_spec.2.1
  have htakes : (a,b)∈(s.run h).takes e := by
    obtain ⟨c,ha,-,-,htakes⟩ := ht.effect (hs.kept.run h)
    have hheld := run_stacks hs (roomy_of_run hs.kept h _ hr) c a ha
    rw [htakes]
    exact List.mem_map.mpr ⟨a,by simp [hheld,hne],rfl⟩
  have hleads : Leads (a,b) (b,a) (s.allTakes (h++e::g)) := by
    have hall : s.allTakes (h++e::g)=s.allTakes h++((s.run h).takes e++
        ((s.run h).step e).allTakes g) := by
      rw [allTakes_append]
      rfl
    obtain ⟨u,v,huv⟩ := List.append_of_mem htakes
    refine ⟨s.allTakes h++u,v++((s.run h).step e).allTakes g,by simp [hall,huv],?_⟩
    intro hm
    rcases List.mem_append.mp hm with hm | hm
    · obtain ⟨x,d,y,heq,hd⟩ := took_of_mem_allTakes hs.kept hm
      exact hfirst x d y heq hd
    · have hmem : (b,a)∈(s.run h).takes e := by
        rw [huv]
        simp [hm]
      obtain ⟨c,-,-,-,htakes⟩ := ht.effect (hs.kept.run h)
      rw [htakes] at hmem
      obtain ⟨x,-,heq⟩ := List.mem_map.mp hmem
      exact hne (congrArg Prod.snd heq).symm
  have hlearned : (a,b)∈(s.allTakes (h++e::g)).foldl learn [] :=
    (Precedence.mem_foldl_learn (fun p hp => fst_ne_of_mem_allTakes hp) hne).mpr hleads
  obtain ⟨c,hb,hcount⟩ := run_inversions hs hr ht'
  rw [run_snoc] at hcount
  refine ⟨_,?_,?_,hcount⟩
  · rw [List.countP_pos_iff]
    exact ⟨b,hb,by simpa [hne.symm] using hlearned⟩
  · exact Nat.le_trans List.countP_le_length ((hs.kept.run _).short c)

theorem inversions_of_ordered {s : Locks C L} (hs : s.Fresh) {r : L → L → Prop}
    (hasymm : ∀x y,r x y → ¬r y x) {h : List (LockEvent C L)}
    (hordered : ∀g e g' a b,h=g++e::g' → (s.run g).Took e a b → r a b) :
    (s.run h).order.inversions=0 := by
  induction h using List.reverseRecOn with
  | nil => exact hs.inversions
  | append_singleton h e ih =>
    have hbefore : (s.run h).order.inversions=0 :=
      ih fun g d g' a b heq => hordered g d (g'++[e]) a b (by simp [heq])
    have hk := hs.kept.run h
    rw [run_snoc]
    cases step_effect hk e with
    | same _ horder _ => rw [horder,hbefore]
    | drop _ o _ _ _ horder _ =>
      rw [horder]
      cases o <;> exact hbefore
    | take c l w he hfree hholds horder htakes =>
      rw [horder,OrderTables.orderAcquired,(OrderTables.push_tables ..).1]
      cases w
      · exact hbefore
      · rw [if_pos rfl,OrderTables.fold_inversions _ _ _ hk.bound,hbefore]
        have hnone : ((s.run h).order.held c).countP
            (fun x => decide (x≠l ∧ (l,x)∈(s.run h).order.pairs))=0 := by
          rw [List.countP_eq_zero]
          intro x hx hbad
          obtain ⟨hxl,hpair⟩ := of_decide_eq_true hbad
          obtain ⟨g,d,g',heq,hd⟩ := took_of_mem_allTakes hs.kept (mem_run_pairs hs hpair)
          have hback := hordered g d (g'++[e]) l x (by simp [heq]) hd
          have hmem : (x,l)∈(s.run h).takes e := by
            rw [htakes]
            exact List.mem_map.mpr ⟨x,by simp [hx,hxl],rfl⟩
          exact hasymm _ _ hback (hordered h e [] x l rfl (took_of_mem_takes hk hmem))
        simp only [hnone,Nat.add_zero,Nat.zero_mod]

/-- The checker over a history: complete for what was first taken the other way, and silent for
takes that keep to an order. -/
theorem order_checked {s : Locks C L} (hs : s.Fresh) :
    (∀h e g e' a b,(s.run (h++e::g)).Roomy → (s.run h).Took e a b →
      (∀u d v,h=u++d::v → ¬(s.run u).Took d b a) → (s.run (h++e::g)).Took e' b a →
      (s.run (h++e::g)).Counts e') ∧
    ∀(r : L → L → Prop) h,(∀x y,r x y → ¬r y x) →
      (∀g e g' a b,h=g++e::g' → (s.run g).Took e a b → r a b) → (s.run h).order.inversions=0 :=
  ⟨fun _ _ _ _ _ _ hr ht hfirst ht' => counts_of_first hs hr ht hfirst ht',
    fun _ _ hasymm hordered => inversions_of_ordered hs hasymm hordered⟩

/-- The static locks and tables as they are at boot, with contexts and locks numbered. -/
def boot : Locks ℕ ℕ := ⟨fun _ => ⟨false,none,0⟩,⟨fun _ => [],[],0,0,0⟩⟩

theorem boot_fresh : boot.Fresh :=
  ⟨fun _ => ⟨rfl,rfl⟩,fun _ => rfl,rfl,rfl,rfl,rfl⟩

/-- Context 0 takes 1 under 0 and lets go; context 1 then takes 0 under 1. -/
theorem order_checked_boot :
    (boot.run ([.acquire 0 0]++.acquire 0 1::[.release 0 1,.release 0 0,.acquire 1 1])).Counts
      (.acquire 1 0) ∧ (boot.run [.acquire 0 0,.tryAcquire 0 1]).order.inversions=0 := by
  refine ⟨(order_checked boot_fresh).1 _ _ _ _ 0 1 (by decide) ⟨0,rfl,by decide,by decide,by decide⟩
    ?_ ⟨1,rfl,by decide,by decide,by decide⟩,(order_checked boot_fresh).2 (· < ·) _ ?_ ?_⟩
  · rintro u d v heq ⟨c,-,hh,-⟩
    cases u with
    | nil => exact absurd hh.1 (by decide)
    | cons x u => simp at heq
  · exact fun x y hxy => by omega
  · rintro g e g' a b heq ⟨c,rfl,hh,-⟩
    rcases g with _ | ⟨x,_ | ⟨y,g⟩⟩
    · exact absurd hh.1 (by simp [run,boot])
    · simp at heq
    · simp at heq

/-- Context 0 takes 0 under 1, then context 1 takes 1 under 0, which counts and is not learned;
when context 0 takes 0 under 1 again nothing is counted. -/
theorem order_not_complete : ¬∀h e g e' (a b : ℕ),(boot.run (h++e::g)).Roomy →
    (boot.run h).Took e a b → (boot.run (h++e::g)).Took e' b a →
    (boot.run (h++e::g)).Counts e' := by
  intro hall
  obtain ⟨k,hpos,hle,hcount⟩ := hall
    [.acquire 0 1,.acquire 0 0,.release 0 0,.release 0 1,.acquire 1 0] (.acquire 1 1)
    [.release 1 1,.release 1 0,.acquire 0 1] (.acquire 0 0) 0 1 (by decide)
    ⟨1,rfl,by decide,by decide,by decide⟩ ⟨0,rfl,by decide,by decide,by decide⟩
  have hbefore : (boot.run ([.acquire 0 1,.acquire 0 0,.release 0 0,.release 0 1,.acquire 1 0]++
      .acquire 1 1::[.release 1 1,.release 1 0,.acquire 0 1])).order.inversions=1 := by decide
  have hafter : ((boot.run ([.acquire 0 1,.acquire 0 0,.release 0 0,.release 0 1,.acquire 1 0]++
      .acquire 1 1::[.release 1 1,.release 1 0,.acquire 0 1])).step
        (.acquire 0 0)).order.inversions=1 := by decide
  rw [hbefore,hafter] at hcount
  simp only [lockordDepth] at hle
  omega

end Locks

end LugalOS.Lock
