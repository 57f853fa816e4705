import Mathlib

/-! Something switched on and off once a round, at instants that grow with the rounds. Where both
fall together, the round's off comes after the on. -/

namespace LugalOS.Switching

variable {on off : Int → Int} {t y i : Int} {k : Bool}

theorem step_le {f : Int → Int} (hf : StrictMono f) (i : Int) (n : Nat) : f i+n≤f (i+n) := by
  induction n with
  | zero => simp
  | succ n ih =>
    have h := hf (show i+n< i+(n+1 : Nat) by omega)
    push_cast at h ⊢
    omega

theorem exists_last {f : Int → Int} (hf : StrictMono f) (t : Int) : ∃i,f i≤t ∧ t<f (i+1) := by
  have hbound : ∀i,f i≤t → i≤(t-f 0).toNat := by
    intro i hi
    by_contra hlt
    have h1 := step_le hf 0 (t-f 0).toNat
    have h2 := hf (show 0+((t-f 0).toNat : Int)< i by omega)
    omega
  have hsome : ∃i,f i≤t := by
    refine ⟨-((f 0-t).toNat : Int),?_⟩
    have h := step_le hf (-((f 0-t).toNat : Int)) (f 0-t).toNat
    rw [show -((f 0-t).toNat : Int)+(f 0-t).toNat=0 by omega] at h
    omega
  obtain ⟨i,hi,hlast⟩ := Int.exists_greatest_of_bdd ⟨_,hbound⟩ hsome
  refine ⟨i,hi,?_⟩
  by_contra h
  have := hlast (i+1) (by omega)
  omega

/-- Switched on at an instant up to t, and t is before the first off that follows. -/
def On (on off : Int → Int) (t : Int) : Prop :=
  ∃i j,on i≤t ∧ t<off j ∧ ∀j',on i≤off j' → off j≤off j'

def event (on off : Int → Int) (k : Bool) : Int → Int := if k then on else off

/-- The last event up to t. -/
structure Last (on off : Int → Int) (t : Int) (k : Bool) (i : Int) : Prop where
  been : event on off k i≤t
  last : ∀k' i',event on off k' i'≤t → event on off k' i'<event on off k i ∨
    event on off k' i'=event on off k i ∧ (k=false ∨ k'=true)

theorem last_on_iff : Last on off t true i ↔
    on i≤t ∧ (∀i',on i'≤t → on i'≤on i) ∧ ∀j,off j≤t → off j<on i := by
  constructor
  · intro h
    have hl := h.last
    refine ⟨h.been,fun i' hi => ?_,fun j hj => ?_⟩
    · rcases hl true i' hi with h | ⟨h,-⟩
      · exact Int.le_of_lt h
      · exact Int.le_of_eq h
    · rcases hl false j hj with h | ⟨-,h⟩
      · exact h
      · simp at h
  · rintro ⟨h,hon,hoff⟩
    refine ⟨h,fun k' i' hk => ?_⟩
    cases k' with
    | true => exact (Int.lt_or_eq_of_le (hon i' hk)).imp_right fun h => ⟨h,.inr rfl⟩
    | false => exact .inl (hoff i' hk)

theorem last_off_iff : Last on off t false i ↔
    off i≤t ∧ (∀i',on i'≤t → on i'≤off i) ∧ ∀j,off j≤t → off j≤off i := by
  constructor
  · intro h
    have hl := h.last
    refine ⟨h.been,fun i' hi => ?_,fun j hj => ?_⟩
    · rcases hl true i' hi with h | ⟨h,-⟩
      · exact Int.le_of_lt h
      · exact Int.le_of_eq h
    · rcases hl false j hj with h | ⟨h,-⟩
      · exact Int.le_of_lt h
      · exact Int.le_of_eq h
  · rintro ⟨h,hon,hoff⟩
    refine ⟨h,fun k' i' hk => ?_⟩
    have hle : event on off k' i'≤off i := by
      cases k' with
      | true => exact hon i' hk
      | false => exact hoff i' hk
    exact (Int.lt_or_eq_of_le hle).imp_right fun h => ⟨h,.inl rfl⟩

theorem le_of_last {f : Int → Int} (hf : StrictMono f) (hi : t<f (i+1)) {i' : Int}
    (h : f i'≤t) : f i'≤f i := by
  have := hf.lt_iff_lt.mp (h.trans_lt hi)
  exact hf.monotone (by omega)

theorem last_exists (hon : StrictMono on) (hoff : StrictMono off) (t : Int) :
    ∃k i,Last on off t k i := by
  obtain ⟨i,hi,hi'⟩ := exists_last hon t
  obtain ⟨j,hj,hj'⟩ := exists_last hoff t
  by_cases h : off j<on i
  · refine ⟨true,i,last_on_iff.mpr ⟨hi,fun _ => le_of_last hon hi',fun j' hb => ?_⟩⟩
    exact (le_of_last hoff hj' hb).trans_lt h
  · refine ⟨false,j,last_off_iff.mpr ⟨hj,fun i' hb => ?_,fun _ => le_of_last hoff hj'⟩⟩
    exact (le_of_last hon hi' hb).trans (not_lt.mp h)

theorem Last.on_iff (hoff : StrictMono off) (h : Last on off t k i) : On on off t ↔ k=true := by
  cases k with
  | true =>
    refine ⟨fun _ => rfl,fun _ => ?_⟩
    obtain ⟨hb,-,hbefore⟩ := last_on_iff.mp h
    obtain ⟨j,hj,hj'⟩ := exists_last hoff t
    refine ⟨i,j+1,hb,hj',fun j' hj1 => ?_⟩
    by_contra hlt
    have hle := hoff.lt_iff_lt.mp (not_le.mp hlt)
    have hbeen : off j'≤t := (hoff.monotone (show j'≤j by omega)).trans hj
    have := hbefore j' hbeen
    omega
  | false =>
    obtain ⟨hb,hbefore,-⟩ := last_off_iff.mp h
    refine ⟨?_,fun h => by cases h⟩
    rintro ⟨a,j,ha,hj,hmin⟩
    have := hmin i (hbefore a ha)
    omega

/-- On as far as the events of one round tell. -/
def onBy (on off : Int → Int) (y t : Int) : Bool :=
  if on y≤off y then on y≤t ∧ t<off y else on y≤t ∨ t<off y

/-- The event of kind k is the last one of the round y before t, where the round is taken as a
circle: when neither event or both have been, the later one is the last. -/
def LastBy (on off : Int → Int) (y t : Int) (k : Bool) : Prop :=
  if on y≤t ↔ off y≤t then (if k then off y<on y else on y≤off y)
  else event on off k y≤t

theorem onBy_eq (h : LastBy on off y t k) : onBy on off y t=k := by
  unfold LastBy at h
  unfold onBy
  cases k with
  | true =>
    simp only [event,if_true] at h
    split_ifs at h ⊢ <;> simp only [decide_eq_true_eq] <;> omega
  | false =>
    simp only [event,Bool.false_eq_true,if_false] at h
    split_ifs at h ⊢ <;> simp only [decide_eq_false_iff_not] <;> omega

theorem lastBy_onBy (on off : Int → Int) (y t : Int) : LastBy on off y t (onBy on off y t) := by
  cases hk : onBy on off y t with
  | true =>
    unfold onBy at hk
    unfold LastBy
    simp only [event,if_true]
    split_ifs at hk ⊢ <;> simp only [decide_eq_true_eq] at hk <;> omega
  | false =>
    unfold onBy at hk
    unfold LastBy
    simp only [event,Bool.false_eq_true,if_false]
    split_ifs at hk ⊢ <;> simp only [decide_eq_false_iff_not] at hk <;> omega

/-- The events of the round y tell rightly exactly when the last event of all is one of that round,
or of the kind of the one that is the last of that round. -/
theorem onBy_iff (hon : StrictMono on) (hoff : StrictMono off) (y t : Int) :
    (onBy on off y t=true ↔ On on off t) ↔
      ∃k i,Last on off t k i ∧ (i=y ∨ LastBy on off y t k) := by
  constructor
  · intro h
    obtain ⟨k,i,hl⟩ := last_exists hon hoff t
    rw [hl.on_iff hoff,← Bool.eq_iff_iff] at h
    exact ⟨k,i,hl,.inr (h ▸ lastBy_onBy on off y t)⟩
  · rintro ⟨k,i,hl,h⟩
    rw [hl.on_iff hoff,← Bool.eq_iff_iff]
    apply onBy_eq
    rcases h with rfl | h
    · unfold LastBy
      cases k with
      | true =>
        obtain ⟨hb,-,hbefore⟩ := last_on_iff.mp hl
        have := hbefore i
        simp only [event,if_true]
        split_ifs <;> omega
      | false =>
        obtain ⟨hb,hbefore,-⟩ := last_off_iff.mp hl
        have := hbefore i
        simp only [event,Bool.false_eq_true,if_false]
        split_ifs <;> omega
    · exact h

end LugalOS.Switching
