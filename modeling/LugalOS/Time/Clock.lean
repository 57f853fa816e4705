import Mathlib.Tactic.Linarith
import LugalOS.Lib.Run

namespace LugalOS.Time

/-- An int64_t. -/
def i64 (x : Int) : Int := Int.bmod x (2^64)

structure ClockBase where
  epochUs : Int
  monoUs : Nat
  freqPpb : Int
  slewPpb : Int
  slewUntilMonoUs : Nat
  deriving DecidableEq,Repr

/-- The rate while the counter reads atMonoUs. -/
def ClockBase.ppb (b : ClockBase) (atMonoUs : Nat) : Int :=
  if b.slewPpb≠0 ∧ atMonoUs < b.slewUntilMonoUs then b.freqPpb+b.slewPpb else b.freqPpb

def rateCorrection (b : ClockBase) (elapsedUs atMonoUs : Nat) : Int :=
  (i64 ((elapsedUs/1000 : Nat)*b.ppb atMonoUs)).tdiv 1000000

def epochAt (b : ClockBase) (monoUs : Nat) : Int :=
  let elapsed := monoUs-b.monoUs
  i64 (i64 (b.epochUs+i64 elapsed)+rateCorrection b elapsed monoUs)

def rebase (b : ClockBase) (now : Nat) : ClockBase :=
  {b with epochUs := epochAt b now,monoUs := now}

def clamp (limit x : Int) : Int := max (-limit) (min limit x)

def timeSetFreqPpb (b : ClockBase) (now : Nat) (ppb : Int) : ClockBase :=
  {rebase b now with freqPpb := clamp 100000 ppb}

/-- The rate that pays off amountUs across overMs. -/
def slewRate (amountUs : Int) (overMs : Nat) : Int :=
  clamp 500000 ((i64 (amountUs*1000000)).tdiv overMs)

/-- The counter is read twice: for the base, and for the end of the window. -/
def timeSlewUs (b : ClockBase) (now now' : Nat) (amountUs : Int) (overMs : Nat) : ClockBase :=
  if overMs=0 ∨ amountUs=0 then {rebase b now with slewPpb := 0,slewUntilMonoUs := 0}
  else {rebase b now with
    slewPpb := slewRate amountUs overMs
    slewUntilMonoUs := (now'+overMs*1000)%2^64}

inductive Event
  | read (now : Nat)
  | setFreq (now : Nat) (ppb : Int)
  | slew (now now' : Nat) (amountUs : Int) (overMs : Nat)

/-- The clock, the last counter reading, and the times it has told, the last first. -/
structure State where
  base : ClockBase
  now : Nat
  told : List Int

inductive Step : State → Event → State → Prop
  | read {s : State} {now : Nat} : s.now≤now →
      Step s (.read now) {s with now := now,told := epochAt s.base now::s.told}
  | setFreq {s : State} {now : Nat} {ppb : Int} : s.now≤now →
      Step s (.setFreq now ppb) {s with now := now,base := timeSetFreqPpb s.base now ppb}
  | slew {s : State} {now now' : Nat} {amountUs : Int} {overMs : Nat} :
      s.now≤now → now≤now' → Step s (.slew now now' amountUs overMs)
        {s with now := now',base := timeSlewUs s.base now now' amountUs overMs}

def Event.at : Event → Nat
  | .read now => now
  | .setFreq now _ => now
  | .slew now _ _ _ => now

/-- The rates are within their limits. -/
structure ClockBase.Limited (b : ClockBase) : Prop where
  freq : -100000≤b.freqPpb ∧ b.freqPpb≤100000
  slew : -500000≤b.slewPpb ∧ b.slewPpb≤500000

/-- Nothing exceeds 64 bits where the counter reads now. -/
structure ClockBase.Fits (b : ClockBase) (now : Nat) : Prop where
  product : (((now-b.monoUs)/1000 : Nat) : Int)*600000 < 2^63
  low : -2^63≤b.epochUs
  high : b.epochUs+2*((now-b.monoUs : Nat) : Int) < 2^63

/-- No slew is left running past the end of its window. -/
structure ClockBase.Calm (b : ClockBase) (now : Nat) : Prop where
  window : b.slewPpb=0 ∨ now < b.slewUntilMonoUs
  fits : b.Fits now

theorem i64_of_fits {x : Int} (h : -2^63≤x) (h' : x < 2^63) : i64 x=x :=
  Int.bmod_eq_of_le (by omega) (by omega)

section Rounding

theorem tdiv_sub_le {a k : Int} (hk : 0≤k) :
    a.tdiv 1000000-k≤(a-1000000*k).tdiv 1000000 := by
  rcases Int.le_total 0 a with ha|ha
  · rw [Int.tdiv_eq_ediv_of_nonneg ha]
    rcases Int.le_total 0 (a-1000000*k) with hb|hb
    · rw [Int.tdiv_eq_ediv_of_nonneg hb]
      omega
    · rw [← Int.neg_neg (a-1000000*k),Int.neg_tdiv,Int.tdiv_eq_ediv_of_nonneg (by omega)]
      omega
  · rw [← Int.neg_neg a,Int.neg_tdiv,Int.tdiv_eq_ediv_of_nonneg (by omega),
      ← Int.neg_neg (- -a-1000000*k),Int.neg_tdiv,Int.tdiv_eq_ediv_of_nonneg (by omega)]
    omega

/-- The time that has passed by a rate no further off than 600 ppm. -/
def passed (ppb : Int) (elapsed : Nat) : Int :=
  elapsed+(((elapsed/1000 : Nat) : Int)*ppb).tdiv 1000000

theorem passed_mono {ppb : Int} (hl : -600000≤ppb) {x y : Nat} (h : x≤y) :
    passed ppb x≤passed ppb y := by
  unfold passed
  rcases Nat.eq_or_lt_of_le (Nat.div_le_div_right (c := 1000) h) with he|hlt
  · rw [he]
    omega
  · have hpos : (0 : Int)≤((y/1000 : Nat) : Int)-(x/1000 : Nat) := by omega
    have hm := mul_le_mul_of_nonneg_left hl hpos
    rw [sub_mul (α := Int) _ _ ppb] at hm
    have hd : ((x/1000 : Nat) : Int)*ppb-1000000*(((y/1000 : Nat) : Int)-(x/1000 : Nat))≤
        ((y/1000 : Nat) : Int)*ppb := by linarith
    have h1 := tdiv_sub_le (a := ((x/1000 : Nat) : Int)*ppb)
      (k := ((y/1000 : Nat) : Int)-(x/1000 : Nat)) (by omega)
    have h2 := Int.tdiv_le_tdiv (c := 1000000) (by decide) hd
    omega

theorem passed_zero (ppb : Int) : passed ppb 0=0 := by simp [passed]

end Rounding

section Reading

variable {b : ClockBase} {now now' : Nat}

theorem ppb_bounds (hb : b.Limited) (now : Nat) : -600000≤b.ppb now ∧ b.ppb now≤600000 := by
  obtain ⟨⟨h1,h2⟩,h3,h4⟩ := hb
  unfold ClockBase.ppb
  split_ifs <;> omega

theorem epochAt_eq (hb : b.Limited) (hf : b.Fits now) :
    epochAt b now=b.epochUs+passed (b.ppb now) (now-b.monoUs) := by
  obtain ⟨hl,hu⟩ := ppb_bounds hb now
  obtain ⟨hp,hlo,hhi⟩ := hf
  have hlow : -((((now-b.monoUs)/1000 : Nat) : Int)*600000)≤
      (((now-b.monoUs)/1000 : Nat) : Int)*b.ppb now := by nlinarith
  have hup : (((now-b.monoUs)/1000 : Nat) : Int)*b.ppb now≤
      (((now-b.monoUs)/1000 : Nat) : Int)*600000 := by nlinarith
  have hpos : 0≤passed (b.ppb now) (now-b.monoUs) := by
    rw [← passed_zero (b.ppb now)]
    exact passed_mono hl (Nat.zero_le _)
  have htop : ((((now-b.monoUs)/1000 : Nat) : Int)*b.ppb now).tdiv 1000000≤
      ((now-b.monoUs : Nat) : Int) := by
    have h := Int.tdiv_le_tdiv (c := 1000000) (by decide) hup
    rw [Int.tdiv_eq_ediv_of_nonneg (a := (((now-b.monoUs)/1000 : Nat) : Int)*600000)
      (by omega)] at h
    omega
  unfold passed at hpos
  simp only [epochAt,rateCorrection,passed]
  rw [i64_of_fits (x := (((now-b.monoUs)/1000 : Nat) : Int)*b.ppb now) (by omega) (by omega),
    i64_of_fits (x := ((now-b.monoUs : Nat) : Int)) (by omega) (by omega),
    i64_of_fits (x := b.epochUs+((now-b.monoUs : Nat) : Int)) (by omega) (by omega),
    i64_of_fits (by omega) (by omega)]
  omega

theorem epochAt_ge (hb : b.Limited) (hf : b.Fits now) : b.epochUs≤epochAt b now := by
  have h := passed_mono (ppb_bounds hb now).1 (Nat.zero_le (now-b.monoUs))
  rw [passed_zero] at h
  rw [epochAt_eq hb hf]
  omega

/-- Inside one window, or with no slew, the clock only goes forward. -/
theorem epochAt_mono (hb : b.Limited) (h : b.Calm now) (h' : b.Calm now') (hle : now≤now') :
    epochAt b now≤epochAt b now' := by
  have hr : b.ppb now=b.ppb now' := by
    unfold ClockBase.ppb
    rcases h'.window with hz|hlt
    · simp [hz]
    · have hlt' : now < b.slewUntilMonoUs := by omega
      simp [hlt,hlt']
  have hp := passed_mono (ppb_bounds hb now).1 (Nat.sub_le_sub_right hle b.monoUs)
  rw [epochAt_eq hb h.fits,epochAt_eq hb h'.fits,← hr]
  omega

theorem slew_lost (h : b.slewUntilMonoUs≤now) :
    epochAt b now=epochAt {b with slewPpb := 0} now := by
  have hn : ¬now < b.slewUntilMonoUs := by omega
  simp [epochAt,rateCorrection,ClockBase.ppb,hn]

end Reading

section Runs

open Run

theorem clamp_bounds {limit : Int} (h : 0≤limit) (x : Int) :
    -limit≤clamp limit x ∧ clamp limit x≤limit := by
  unfold clamp
  omega

theorem clamp_eq_zero {limit x : Int} (h : 0 < limit) (hc : clamp limit x=0) : x=0 := by
  unfold clamp at hc
  omega

theorem Step.limited {s s' : State} {e : Event} (h : Step s e s') (hb : s.base.Limited) :
    s'.base.Limited := by
  cases h with
  | read _ => exact hb
  | setFreq _ => exact ⟨clamp_bounds (by decide) _,hb.slew⟩
  | @slew now now' amountUs overMs _ _ =>
    simp only [timeSlewUs]
    split_ifs
    · exact ⟨hb.freq,show (-500000 : Int)≤0 by decide,show (0 : Int)≤500000 by decide⟩
    · exact ⟨hb.freq,clamp_bounds (by decide) _⟩

theorem rebase_stays (b : ClockBase) (now till : Nat) (freq slew : Int) :
    epochAt ⟨(rebase b now).epochUs,now,freq,slew,till⟩ now=epochAt b now := by
  have hz : ∀b' : ClockBase,rateCorrection b' 0 now=0 := by
    intro b'
    simp [rateCorrection,i64]
  have he : epochAt b now=i64 (i64 (b.epochUs+i64 (now-b.monoUs : Nat))+
    rateCorrection b (now-b.monoUs) now) := rfl
  have hi : ∀x : Int,i64 (i64 x)=i64 x := fun x => Int.bmod_bmod
  have h0 : i64 ((0 : Nat) : Int)=0 := by decide
  change i64 (i64 (epochAt b now+i64 (now-now : Nat))+rateCorrection _ (now-now) now)=_
  rw [Nat.sub_self,hz,h0,Int.add_zero,Int.add_zero,hi,he,hi]

theorem Step.rebased {s s' : State} {e : Event} (h : Step s e s') :
    s'.base=s.base ∨
      ∃freq slew till,s'.base=⟨(rebase s.base e.at).epochUs,e.at,freq,slew,till⟩ := by
  cases h with
  | read _ => exact .inl rfl
  | setFreq _ => exact .inr ⟨_,_,_,rfl⟩
  | slew _ _ =>
    refine .inr ?_
    simp only [timeSlewUs]
    split_ifs
    · exact ⟨_,_,_,rfl⟩
    · exact ⟨_,_,_,rfl⟩

theorem Step.unmoved {s s' : State} {e : Event} (h : Step s e s') :
    epochAt s'.base e.at=epochAt s.base e.at := by
  rcases h.rebased with hb|⟨freq,slew,u,hb⟩
  · rw [hb]
  · rw [hb]
    exact rebase_stays _ _ _ _ _

/-- What has been told so far is in order, and no calm reading from here on is below it. -/
structure Kept (s : State) : Prop where
  limited : s.base.Limited
  ahead : ∀now,s.now≤now → s.base.Calm now → ∀t∈s.told,t≤epochAt s.base now
  ordered : s.told.Pairwise (· ≥ ·)

theorem Kept.step {s s' : State} {e : Event} (hk : Kept s) (h : Step s e s')
    (hc : s.base.Calm e.at) : Kept s' := by
  have hlim := h.limited hk.limited
  have hle : s.now≤e.at := by cases h <;> assumption
  have hnow : e.at ≤ s'.now := by
    cases h with
    | read _ | setFreq _ => exact Nat.le_refl _
    | slew _ h' => exact h'
  have hold := hk.ahead e.at hle hc
  -- after a call the clock goes on from its reading at the call
  have hcall : ∀freq slew u,s'.base=⟨(rebase s.base e.at).epochUs,e.at,freq,slew,u⟩ →
      ∀now,s'.base.Calm now → ∀t∈s.told,t≤epochAt s'.base now := by
    intro freq slew u hb now hcalm t ht
    have hge := epochAt_ge hlim hcalm.fits
    rw [hb] at hge ⊢
    exact Int.le_trans (hold t ht) hge
  cases h with
  | @read now _ =>
    refine ⟨hlim,?_,List.pairwise_cons.mpr ⟨hold,hk.ordered⟩⟩
    intro now' hn hc' t ht
    have hm := epochAt_mono hk.limited hc hc' hn
    rcases List.mem_cons.mp ht with rfl|ht
    · exact hm
    · exact Int.le_trans (hold t ht) hm
  | setFreq _ => exact ⟨hlim,fun now _ => hcall _ _ _ rfl now,hk.ordered⟩
  | slew h1 h2 =>
    refine ⟨hlim,?_,hk.ordered⟩
    rcases (Step.slew h1 h2).rebased with hb|⟨freq,slew,u,hb⟩
    · intro now hn hc' t ht
      have hc1 : s.base.Calm now := by rwa [← hb]
      have := hk.ahead now (by exact Nat.le_trans hle (Nat.le_trans hnow hn)) hc1 t ht
      change t≤epochAt (timeSlewUs _ _ _ _ _) now
      rw [show timeSlewUs _ _ _ _ _=s.base from hb]
      exact this
    · exact fun now _ => hcall freq slew u hb now

theorem slew_small {amountUs : Int} {overMs : Nat}
    (hlim : amountUs.natAbs*1000000≤500000*overMs) (hw : overMs < 2^32)
    (hz : slewRate amountUs overMs=0) : amountUs.natAbs≤overMs/1000000 := by
  have hz' := clamp_eq_zero (by decide) hz
  rw [i64_of_fits (by omega) (by omega)] at hz'
  have hd := Int.natAbs_tdiv (amountUs*1000000) overMs
  rw [hz',Int.natAbs_mul] at hd
  simp only [Int.natAbs_zero,Int.natAbs_natCast] at hd
  rcases Nat.eq_zero_or_pos overMs with h0|hpos
  · omega
  · have hlt : amountUs.natAbs*1000000 < overMs := by
      rcases (Nat.div_eq_zero_iff (a := amountUs.natAbs*1000000) (b := overMs)).mp hd.symm with h|h
      · omega
      · exact h
    omega

/-- Where every slew is replaced or called off before its window ends, the clock never goes back,
no call moves it, and what a slew leaves is its amount up to the rounding of its rate. Any slew
whose window has ended leaves nothing. -/
theorem clock_disciplined {s₀ s : State} {h : List Event} (h₀ : s₀.told=[])
    (hl : s₀.base.Limited)
    (hr : Reach (fun s e s' => Step s e s' ∧ s.base.Calm e.at) s₀ h s) :
    s.told.Pairwise (· ≥ ·) ∧
      (∀e s',Step s e s' → epochAt s'.base e.at=epochAt s.base e.at) ∧
      (∀now now' amountUs overMs s' later,Step s (.slew now now' amountUs overMs) s' →
        overMs < 2^32 → amountUs.natAbs*1000000≤500000*overMs →
        now'+overMs*1000≤later → s'.base.Calm later →
        (epochAt s'.base later-epochAt {s'.base with slewPpb := 0} later-amountUs).natAbs≤
          overMs/1000000) ∧
      ∀later,s.base.slewUntilMonoUs≤later →
        epochAt s.base later=epochAt {s.base with slewPpb := 0} later := by
  have hk : Kept s := by
    refine hr.invariant (fun _ s => Kept s) ?_ ?_
    · refine ⟨hl,?_,?_⟩
      · rw [h₀]
        intro _ _ _ t ht
        cases ht
      · rw [h₀]
        exact List.Pairwise.nil
    · exact fun _ s e s' hk hs => hk.step hs.1 hs.2
  refine ⟨hk.ordered,fun e s' hs => hs.unmoved,?_,fun later hu => slew_lost hu⟩
  intro now now' amountUs overMs s' later hs hw hlim hend hcalm
  cases hs with
  | slew h1 h2 =>
    change (timeSlewUs s.base now now' amountUs overMs).Calm later at hcalm
    change (epochAt (timeSlewUs s.base now now' amountUs overMs) later-
      epochAt {timeSlewUs s.base now now' amountUs overMs with slewPpb := 0} later-
        amountUs).natAbs≤_
    by_cases hz : overMs=0 ∨ amountUs=0
    · have ha : amountUs=0 := by omega
      rw [timeSlewUs,if_pos hz,ha]
      simp
    · have hu : (timeSlewUs s.base now now' amountUs overMs).slewUntilMonoUs≤later := by
        rw [timeSlewUs,if_neg hz]
        exact Nat.le_trans (Nat.mod_le _ _) hend
      have hrate : slewRate amountUs overMs=0 := by
        rcases hcalm.window with hw0|hlt
        · rwa [timeSlewUs,if_neg hz] at hw0
        · omega
      have hd : epochAt (timeSlewUs s.base now now' amountUs overMs) later-
          epochAt {timeSlewUs s.base now now' amountUs overMs with slewPpb := 0} later=0 :=
        sub_eq_zero.mpr (slew_lost hu)
      rw [hd,Int.zero_sub,Int.natAbs_neg]
      exact slew_small hlim hw hrate

/-- A clock at its start, which nothing has been asked yet. -/
def fresh : State := ⟨⟨0,0,0,0,0⟩,0,[]⟩

/-- A slew of 1 ms over 10 s has just begun. -/
def slewing : State := {fresh with base := timeSlewUs fresh.base 0 0 1000 10000}

theorem slewing_step : Step fresh (.slew 0 0 1000 10000) slewing :=
  Step.slew (Nat.le_refl 0) (Nat.le_refl 0)

theorem clock_disciplined_twice :
    [epochAt slewing.base 9000000,epochAt slewing.base 5000].Pairwise (· ≥ ·) ∧
      epochAt slewing.base 5000 < epochAt slewing.base 9000000 := by
  let first : State := {slewing with now := 5000,told := [epochAt slewing.base 5000]}
  have h2 : Step slewing (.read 5000) first := Step.read (Nat.zero_le _)
  have h3 : Step first (.read 9000000) _ := Step.read (show 5000≤9000000 by decide)
  exact ⟨(clock_disciplined rfl ⟨by decide,by decide⟩ (((Reach.start.next
    ⟨slewing_step,.inl rfl,by decide,by decide,by decide⟩).next
      ⟨h2,.inr (by decide +kernel),by decide +kernel,by decide +kernel,by decide +kernel⟩).next
      ⟨h3,.inr (by decide +kernel),by decide +kernel,by decide +kernel,by decide +kernel⟩)).1,
    by decide +kernel⟩

/-- The same slew, read at the last microsecond of its window and at the next one. -/
theorem slew_steps_back : ∃h s,Reach Step fresh h s ∧ ¬s.told.Pairwise (· ≥ ·) := by
  let late : State := {slewing with now := 9999999,told := [epochAt slewing.base 9999999]}
  have h2 : Step slewing (.read 9999999) late := Step.read (Nat.zero_le _)
  have h3 : Step late (.read 10000000) _ := Step.read (show 9999999≤10000000 by decide)
  exact ⟨_,_,((Reach.start.next slewing_step).next h2).next h3,by decide +kernel⟩

end Runs

end LugalOS.Time
