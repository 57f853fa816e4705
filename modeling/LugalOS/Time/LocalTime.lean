import LugalOS.Time.Seasons

namespace LugalOS.Time

open CString

theorem year_bounds {y : Int} {m d : Nat} (h : ValidDate y m d) :
    (0≤daysFromCivil y m d → 0≤y) ∧ (daysFromCivil y m d<20000000 → y<65536) ∧
      (1971≤y → 59≤daysFromCivil y m d) ∧ (y≤9998 → daysFromCivil y m d<4000000) := by
  obtain ⟨hm,hd⟩ := h
  have hl := monthLength_bounds y m
  have hdoy : marchDay m d<400 := by
    unfold marchDay marchMonth
    split_ifs <;> omega
  have hmy : marchYear y m=y ∨ marchYear y m=y-1 := by
    unfold marchYear
    split_ifs <;> simp
  rw [daysFromCivil_eq]
  generalize marchDay m d=doy at hdoy
  generalize marchYear y m=w at hmy
  unfold yearStart
  omega

theorem to_from_near {s : Int} (h0 : 0≤ s) (h : s<1728000000000) :
    timeToEpoch (timeFromEpoch s)=s ∧ (timeFromEpoch s).Valid ∧ (timeFromEpoch s).year<65536 := by
  have hciv := days_of_civil (s/86400)
  have hy : 0≤yearOf s ∧ yearOf s<65536 := by
    unfold yearOf
    generalize civilFromDays (s/86400)=ymd at hciv ⊢
    obtain ⟨y,m,d⟩ := ymd
    dsimp only at hciv ⊢
    obtain ⟨h1,h2,-,-⟩ := year_bounds hciv.1
    rw [hciv.2] at h1 h2
    omega
  obtain ⟨he,hv,hyear⟩ := to_from_epoch hy.1 hy.2
  exact ⟨he,hv,by omega⟩

theorem epoch_range {t : RtcTime} (hv : t.Valid) (hy : 1971≤t.year ∧ t.year≤9998) :
    5000000≤timeToEpoch t ∧ timeToEpoch t<346000000000 := by
  obtain ⟨-,-,h1,h2⟩ := year_bounds hv.date
  have hh := hv.hour
  have hm := hv.min
  have hs := hv.sec
  unfold timeToEpoch
  omega

/-- Another time has the same local reading. -/
def Repeated (z : Tz) (utc : RtcTime) : Prop :=
  ∃u : RtcTime,u.Valid ∧ u.year<65536 ∧ u≠utc ∧ tzUtcToLocal z u=tzUtcToLocal z utc

theorem tzUtcToLocal_eq (z : Tz) (utc : RtcTime) : tzUtcToLocal z utc=
    {timeFromEpoch (timeToEpoch utc+offsetAt z (timeToEpoch utc)*60) with ms := utc.ms} := rfl

theorem offsetAt_cases (z : Tz) (s : Int) : offsetAt z s=z.stdOffMin ∨ offsetAt z s=z.dstOffMin := by
  unfold offsetAt
  cases dstInForce z s
  · exact .inl rfl
  · exact .inr rfl

theorem second_pass (z : Tz) {s l o1 o2 : Int} (hl : l=s+offsetAt z s*60)
    (h1 : o1=offsetAt z (l-z.stdOffMin*60)) (h2 : o2=offsetAt z (l-o1*60)) :
    offsetAt z (l-o2*60)=o2 ∧ |l-o2*60-s|≤|z.dstOffMin-z.stdOffMin| *60 := by
  rcases offsetAt_cases z s with hs | hs
  · have hback : l-z.stdOffMin*60=s := by omega
    have ho1 : o1=z.stdOffMin := by rw [h1,hback,hs]
    have ho2 : o2=z.stdOffMin := by rw [h2,ho1,hback,hs]
    rw [ho2,hback]
    refine ⟨hs,?_⟩
    rw [Int.sub_self,abs_zero]
    positivity
  · have hback : l-z.dstOffMin*60=s := by omega
    rcases offsetAt_cases z (l-z.stdOffMin*60) with ho | ho
    · have ho1 : o1=z.stdOffMin := by rw [h1,ho]
      have ho2 : o2=z.stdOffMin := by rw [h2,ho1,ho]
      rw [ho2]
      refine ⟨ho,?_⟩
      rw [show l-z.stdOffMin*60-s=(z.dstOffMin-z.stdOffMin)*60 by omega,abs_mul]
      exact Int.le_refl _
    · have ho1 : o1=z.dstOffMin := by rw [h1,ho]
      have ho2 : o2=z.dstOffMin := by rw [h2,ho1,hback,hs]
      rw [ho2,hback]
      refine ⟨hs,?_⟩
      rw [Int.sub_self,abs_zero]
      positivity

/-- The local reading lies in the interval that is repeated at an end of summer time. -/
def AtEnd (z : Tz) (utc : RtcTime) : Prop :=
  ∃e y,Named z.stop z.dstOffMin y e ∧ e+z.stdOffMin*60≤timeToEpoch (tzUtcToLocal z utc) ∧
    timeToEpoch (tzUtcToLocal z utc)<e+z.dstOffMin*60

/-- Summer's offset is the smaller one, so the clock goes back where summer time starts. -/
def ireland : Zone :=
  ⟨⟨ofString "IST",ofString "GMT",60,0,true,⟨10,5,0,7200⟩,⟨3,5,0,3600⟩⟩,
    ofString "IST-1GMT0,M10.5.0,M3.5.0/1"⟩

end LugalOS.Time
