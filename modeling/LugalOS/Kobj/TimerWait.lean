import LugalOS.Kobj.Timers

namespace LugalOS.Ktimer

def Timer.armedFor (t : Timer) (owner : Nat) : Bool := t.used && t.armed && t.owner==owner

/-- The loop of ktimer_next. -/
def nextLoop (s : Timers) (owner : Nat) (next : Option Nat) (i : Slot) : Option Nat :=
  if (s.tm i).armedFor owner then
    match next with
    | none => some (s.tm i).deadline
    | some d => if (s.tm i).deadline<d then some (s.tm i).deadline else some d
  else next

def ktimerNext (s : Timers) (owner : Nat) : Option Nat :=
  (List.finRange ktimerMax).foldl (nextLoop s owner) none

/-- How a turn of kos_timer_wait ends; a sleep of 0 has no end. -/
inductive Turn where
  | ok (key fn arg : Nat)
  | timeout
  | block (ms : Nat)

/-- The first deadline in ms, rounded up; 0 for none. -/
def dlMs : Option Nat → Nat
  | some d => (d+999)%2^64/1000
  | none => 0

/-- A turn of the loop of kos_timer_wait at now µs and ms milliseconds; a limit of 0 is none. -/
def waitTurn (s : Timers) (owner limit now ms : Nat) : Turn×Timers :=
  match ktimerPopDue s owner now with
  | (some (key,fn,arg),s) => (.ok key fn arg,s)
  | (none,_) =>
    let dl := dlMs (ktimerNext s owner)
    let dl := if limit≠0 ∧ (dl=0 ∨ limit<dl) then limit else dl
    (if limit≠0 ∧ limit≤ ms then .timeout else .block dl,s)

section Wait

variable {s s' : Timers} {owner limit now ms dl : Nat}

theorem due_armedFor {t : Timer} :
    t.due owner now=true ↔ t.armedFor owner=true ∧ t.deadline≤now := by
  rw [due_iff,Timer.armedFor]
  simp [and_assoc]

theorem ktimerNext_eq (s : Timers) (owner : Nat) : ktimerNext s owner=
    (((List.finRange ktimerMax).filter fun i => (s.tm i).armedFor owner).argmin
      fun i => (s.tm i).deadline).map fun i => (s.tm i).deadline := by
  rw [List.argmin,List.foldl_filter]
  change (List.finRange ktimerMax).foldl (nextLoop s owner)
    (Option.map (fun i => (s.tm i).deadline) none)=_
  refine List.foldl_hom _ fun best i => ?_
  unfold nextLoop
  cases best with
  | none => split <;> rfl
  | some b =>
    simp only [List.argAux,Option.map_some]
    split_ifs <;> rfl

theorem ktimerNext_none (h : ktimerNext s owner=none) (i : Slot) :
    (s.tm i).armedFor owner=false := by
  rw [ktimerNext_eq,Option.map_eq_none_iff,List.argmin_eq_none,List.filter_eq_nil_iff] at h
  simpa using h i (List.mem_finRange i)

theorem ktimerNext_some {d : Nat} (h : ktimerNext s owner=some d) :
    (∃i,(s.tm i).armedFor owner=true ∧ (s.tm i).deadline=d) ∧
      ∀j,(s.tm j).armedFor owner=true → d≤(s.tm j).deadline := by
  rw [ktimerNext_eq] at h
  obtain ⟨i,hi,rfl⟩ := Option.map_eq_some_iff.mp h
  refine ⟨⟨i,(List.mem_filter.mp (List.argmin_mem hi)).2,rfl⟩,fun j hj => ?_⟩
  have hm : j∈(List.finRange ktimerMax).filter fun i => (s.tm i).armedFor owner :=
    List.mem_filter.mpr ⟨List.mem_finRange j,hj⟩
  exact List.le_of_mem_argmin (f := fun i => (s.tm i).deadline) hm hi

theorem pop_none : (ktimerPopDue s owner now).1=none ↔
    ∀i,(s.tm i).armedFor owner=true → now<(s.tm i).deadline := by
  unfold ktimerPopDue
  cases hb : dueBest s owner now with
  | none =>
    refine iff_of_true rfl fun i hi => Nat.lt_of_not_le fun hle => ?_
    exact Bool.eq_false_iff.mp (dueBest_none hb i) (due_armedFor.mpr ⟨hi,hle⟩)
  | some b =>
    obtain ⟨ha,hle⟩ := due_armedFor.mp (dueBest_some hb).1
    exact iff_of_false (fun h => by cases h) fun h => absurd (h b ha) (Nat.not_lt.mpr hle)

theorem waitTurn_awake {t m : Nat}
    (h : limit≠0 ∧ limit≤ m ∨ ∃i,(s.tm i).armedFor owner=true ∧ (s.tm i).deadline≤t) (d : Nat) :
    (waitTurn s owner limit t m).1≠.block d := by
  unfold waitTurn
  split
  next => exact fun hb => by cases hb
  next hp =>
    have hn := pop_none.mp (congrArg Prod.fst hp)
    have hl := h.resolve_right fun ⟨i,hi,hle⟩ => absurd (hn i hi) (Nat.not_lt.mpr hle)
    dsimp only
    rw [if_pos hl]
    exact fun hb => by cases hb

/-- kos_timer_wait sleeps through no timer of its owner and past no limit, and is not woken a
millisecond early: up to the time it sleeps to no timer is due, and from that time on a turn does
not sleep. It sleeps without an end only when there is nothing to wait for. -/
theorem waitTurn_block (hfit : ∀i,(s.tm i).armedFor owner=true → (s.tm i).deadline+999<2^64)
    (h : waitTurn s owner limit now ms=(.block dl,s')) : s'=s ∧
    (dl=0 → limit=0 ∧ ∀i,(s.tm i).armedFor owner=false) ∧
    (dl≠0 → (limit≠0 → dl≤limit) ∧ (∀t,t+1000≤dl*1000 → (ktimerPopDue s owner t).1=none) ∧
      ∀t m,dl*1000≤t → dl≤ m → ∀d,(waitTurn s owner limit t m).1≠.block d) := by
  unfold waitTurn at h
  split at h
  next => cases congrArg Prod.fst h
  next hp =>
    have hlate := pop_none.mp (congrArg Prod.fst hp)
    obtain ⟨hturn,rfl⟩ := Prod.mk.inj h
    split at hturn
    · cases hturn
    have hdl := Turn.block.inj hturn
    refine ⟨rfl,?_⟩
    cases hn : ktimerNext s owner with
    | none =>
      have hno := ktimerNext_none hn
      have hx : dlMs (ktimerNext s owner)=0 := by rw [hn]; rfl
      rw [hx] at hdl
      by_cases hl : limit=0
      · rw [if_neg fun h => h.1 hl] at hdl
        exact ⟨fun _ => ⟨hl,hno⟩,fun h => absurd hdl.symm h⟩
      · rw [if_pos ⟨hl,.inl rfl⟩] at hdl
        subst hdl
        refine ⟨fun h => absurd h hl,fun _ => ⟨fun _ => Nat.le_refl _,fun t _ => ?_,fun t m _ hm =>
          waitTurn_awake (.inl ⟨hl,hm⟩)⟩⟩
        exact pop_none.mpr fun i hi => by rw [hno i] at hi; cases hi
    | some d =>
      obtain ⟨⟨i,hi,rfl⟩,hfirst⟩ := ktimerNext_some hn
      have hi' := hlate i hi
      have hx : dlMs (ktimerNext s owner)=((s.tm i).deadline+999)/1000 := by
        rw [hn,dlMs,Nat.mod_eq_of_lt (hfit i hi)]
      generalize dlMs (ktimerNext s owner)=x at hdl hx
      have hnone : ∀t,t<(s.tm i).deadline → (ktimerPopDue s owner t).1=none := fun t ht =>
        pop_none.mpr fun j hj => ht.trans_le (hfirst j hj)
      split at hdl
      next hl =>
        subst hdl
        exact ⟨fun h => absurd h hl.1,fun _ => ⟨fun _ => Nat.le_refl _,
          fun t ht => hnone t (by omega),fun t m _ hm => waitTurn_awake (.inl ⟨hl.1,hm⟩)⟩⟩
      next hl =>
        subst hdl
        exact ⟨fun h => by omega,fun _ => ⟨fun _ => by omega,fun t ht => hnone t (by omega),
          fun t m ht _ => waitTurn_awake (.inr ⟨i,hi,by omega⟩)⟩⟩

def soon : Timers := (ktimerArm ⟨fun _ => .zero,0⟩ 1 1 7 8 0 1500 false).2

theorem waitTurn_block_soon : waitTurn soon 1 0 0 0=(.block 2,soon) ∧
    (∀t,t+1000≤2000 → (ktimerPopDue soon 1 t).1=none) ∧
      ∀t m,2000≤t → 2≤ m → ∀d,(waitTurn soon 1 0 t m).1≠.block d := by
  have hfit : ∀i,(soon.tm i).armedFor 1=true → (soon.tm i).deadline+999<2^64 := by decide +kernel
  have hb : waitTurn soon 1 0 0 0=(.block 2,soon) := rfl
  exact ⟨hb,((waitTurn_block hfit hb).2.2 (by decide)).2⟩

end Wait

end LugalOS.Ktimer
