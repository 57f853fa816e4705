import LugalOS.Lib.Switching
import LugalOS.Time.Timezone

/-! Summer time. What a rule names is said here for all years; dst_in_force looks at the transitions
of one year, that of the instant in UTC. -/

namespace LugalOS.Time

open CString Switching

structure TzRule.Ok (r : TzRule) : Prop where
  mon : 1≤r.mon ∧ r.mon≤12
  week : 1≤r.week ∧ r.week≤5
  dow : r.dow≤6

/-- The day d of the month is the week-th one of its weekday, or the last one. -/
structure NamedDay (r : TzRule) (y : Int) (d : Nat) : Prop where
  inMonth : 1≤d ∧ d≤ monthLength y r.mon
  weekday : (daysFromCivil y r.mon d+4)%7=r.dow
  week : if r.week=5 then monthLength y r.mon<d+7 else 7*(r.week-1)<d ∧ d≤7*r.week

/-- The instant a rule names in a year, its clock showing off minutes more than UTC. -/
def Named (r : TzRule) (off y x : Int) : Prop :=
  ∃d,NamedDay r y d ∧ x=daysFromCivil y r.mon d*86400+r.sec-off*60

theorem monthLength_bounds (y : Int) (m : Nat) : 28≤ monthLength y m ∧ monthLength y m≤31 := by
  unfold monthLength
  split_ifs <;> omega

theorem monthLength_eq (y : Int) {m : Nat} (hm : 1≤ m ∧ m≤12) :
    (if m=2 ∧ (y%4=0 ∧ y%100≠0 ∨ y%400=0) then 29
      else [31,28,31,30,31,30,31,31,30,31,30,31].getD (m-1) 0)=monthLength y m := by
  obtain ⟨h1,h12⟩ := hm
  rw [monthLength]
  by_cases hm2 : m=2
  · by_cases hl : Leap y
    · rw [if_pos ⟨hm2,hl⟩,if_pos hm2,if_pos hl]
    · rw [if_neg fun h => hl h.2,if_pos hm2,if_neg hl,hm2]
      rfl
  · rw [if_neg fun h => hm2 h.1,if_neg hm2]
    interval_cases m <;> first | rfl | exact absurd rfl hm2

theorem weekday_first (y : Int) (m : Nat) {d : Nat} (hd : 1≤d) :
    (daysFromCivil y m d+4)%7=(((daysFromCivil y m 1+4)%7).toNat+(d-1) : Nat)%7 := by
  rw [daysFromCivil_day y m hd]
  omega

theorem ruleDay_named {r : TzRule} (hr : r.Ok) (y : Int) : NamedDay r y (ruleDay r y) := by
  obtain ⟨hmon,⟨hw1,hw5⟩,hdow⟩ := hr
  have hlen := monthLength_bounds y r.mon
  have hfirst : ((daysFromCivil y r.mon 1+4)%7).toNat<7 := by omega
  have hday : ruleDay r y=
      let day := 1+(r.dow+7-((daysFromCivil y r.mon 1+4)%7).toNat)%7
      if 5≤r.week then day+(monthLength y r.mon-day)/7*7
      else if monthLength y r.mon<day+7*(r.week-1) then day+7*(r.week-1)-7
      else day+7*(r.week-1) := by
    unfold ruleDay
    simp only [monthLength_eq y hmon]
  have hwd := weekday_first y r.mon (d := ruleDay r y)
  generalize ((daysFromCivil y r.mon 1+4)%7).toNat=first at hfirst hday hwd
  have hle : 1≤ruleDay r y ∧ ruleDay r y≤ monthLength y r.mon ∧
      (ruleDay r y+6+first)%7=r.dow ∧
      if r.week=5 then monthLength y r.mon<ruleDay r y+7
      else 7*(r.week-1)<ruleDay r y ∧ ruleDay r y≤7*r.week := by
    clear hwd
    generalize monthLength y r.mon=len at hlen hday ⊢
    generalize ruleDay r y=day at hday ⊢
    subst hday
    dsimp only
    split_ifs <;> omega
  obtain ⟨h1,hl,hdw,hweek⟩ := hle
  refine ⟨⟨h1,hl⟩,?_,hweek⟩
  rw [hwd h1,← hdw]
  omega

theorem NamedDay.unique {r : TzRule} {y : Int} {d d' : Nat} (h : NamedDay r y d)
    (h' : NamedDay r y d') : d=d' := by
  have hw := h.weekday
  have hw' := h'.weekday
  rw [weekday_first y r.mon h.inMonth.1] at hw
  rw [weekday_first y r.mon h'.inMonth.1] at hw'
  have hl := h.inMonth
  have hl' := h'.inMonth
  have hk := h.week
  have hk' := h'.week
  split_ifs at hk hk' <;> omega

theorem named_iff {r : TzRule} (hr : r.Ok) (off y x : Int) :
    Named r off y x ↔ x=ruleInstantUtc r y off := by
  constructor
  · rintro ⟨d,hd,rfl⟩
    rw [hd.unique (ruleDay_named hr y)]
    rfl
  · rintro rfl
    exact ⟨_,ruleDay_named hr y,rfl⟩

theorem ruleInstantUtc_mono {r : TzRule} (hr : r.Ok) (off : Int) :
    StrictMono fun y => ruleInstantUtc r y off := by
  apply strictMono_int_of_lt_succ
  intro y
  have h := (ruleDay_named hr y).inMonth
  have h' := (ruleDay_named hr (y+1)).inMonth
  have hl := monthLength_bounds y r.mon
  have hd := daysFromCivil_day y r.mon h.1
  have hd' := daysFromCivil_day (y+1) r.mon h'.1
  have hy := (daysFromCivil_year y r.mon).1
  unfold ruleInstantUtc
  omega

theorem parseRule_ok {s s' : Bytes} {r : TzRule} (h : parseRule s=some (r,s')) : r.Ok := by
  unfold parseRule at h
  split at h
  · cases h
  · split_ifs at h with hb
    rename_i m w d _ _
    have ok : ∀t,TzRule.Ok ⟨m.toNat,w.toNat,d.toNat,t⟩ := fun t =>
      ⟨⟨by dsimp only; omega,by dsimp only; omega⟩,⟨by dsimp only; omega,by dsimp only; omega⟩,
        by dsimp only; omega⟩
    split at h
    · split at h
      · cases h
        exact ok _
      · cases h
    · cases h
      exact ok _

theorem parseRules_ok {s : Bytes} {start stop : TzRule} (h : parseRules s=some (start,stop)) :
    start.Ok ∧ stop.Ok := by
  unfold parseRules at h
  split at h
  · split at h
    · rename_i h1
      split at h
      · rename_i h2
        cases h
        exact ⟨parseRule_ok h1,parseRule_ok h2⟩
      · cases h
    · cases h
  · cases h

theorem offsetSign_sign (s : Bytes) : (offsetSign s).1=1 ∨ (offsetSign s).1=-1 := by
  unfold offsetSign
  split
  · exact .inl rfl
  · exact .inr rfl
  · exact .inl rfl

theorem parseOffset_bounds {s s' : Bytes} {v : Int} (h : parseOffset s=some (v,s')) :
    -89999≤v ∧ v≤89999 := by
  have hsign := offsetSign_sign s
  unfold parseOffset at h
  generalize offsetSign s=sign at h hsign
  obtain ⟨sign,s1⟩ := sign
  simp only at h hsign
  split at h
  · cases h
  · split_ifs at h
    cases h
    rcases hsign with rfl | rfl <;> omega

theorem offMin_bounds {v : Int} (h : -89999≤v ∧ v≤89999) : -1499≤offMin v ∧ offMin v≤1499 := by
  unfold offMin
  rcases Int.le_total 0 (-v) with hv | hv
  · rw [Int.tdiv_eq_ediv_of_nonneg hv]
    omega
  · rw [Int.neg_tdiv,Int.tdiv_eq_ediv_of_nonneg (by omega)]
    omega

structure Tz.Ok (z : Tz) : Prop where
  std : -1499≤z.stdOffMin ∧ z.stdOffMin≤1499
  dst : -1499≤z.dstOffMin ∧ z.dstOffMin≤1559
  rules : z.hasDst=true → z.start.Ok ∧ z.stop.Ok

theorem parseSpec_ok {s : Bytes} {t : Tz} (h : parseSpec s=some t) : t.Ok := by
  unfold parseSpec at h
  split at h
  · cases h
  · split at h
    · cases h
    · rename_i off h2
      cases h
      exact ⟨offMin_bounds (parseOffset_bounds h2),⟨by simp,by simp⟩,fun hd => by cases hd⟩
    · rename_i off s2 _ h2
      have hstd := offMin_bounds (parseOffset_bounds h2)
      split at h
      · cases h
      · split at h
        · cases h
        · rename_i dst s4 h4
          have hdst : -1499≤dst ∧ dst≤1559 := by
            unfold dstOffset at h4
            split_ifs at h4
            · split at h4
              · rename_i h5
                cases h4
                have := offMin_bounds (parseOffset_bounds h5)
                omega
              · cases h4
            · cases h4
              omega
          split at h
          · cases h
          · rename_i h5
            cases h
            exact ⟨hstd,hdst,fun _ => parseRules_ok h5⟩

theorem tzSet_ok {z z' : Zone} {s : Bytes} (h : tzSet z s=(true,z')) : z'.tz.Ok := by
  unfold tzSet at h
  split_ifs at h
  · cases h
  · split at h
    · cases h
    · rename_i t ht
      cases h
      exact parseSpec_ok ht

/-- The instant lies between a start of summer time and the end that follows it. -/
def SummerTime (z : Tz) (t : Int) : Prop :=
  z.hasDst=true ∧ ∃x e,(∃y,Named z.start z.stdOffMin y x) ∧ (∃y,Named z.stop z.dstOffMin y e) ∧
    x≤t ∧ t<e ∧ ∀e' y,Named z.stop z.dstOffMin y e' → x≤e' → e≤e'

/-- What tz_offset_min is to answer. -/
def TellsSummer (z : Tz) (utc : RtcTime) : Prop :=
  ((tzOffsetMin z utc).2.2=true ↔ SummerTime z (timeToEpoch utc)) ∧
    tzOffsetMin z utc=(if (tzOffsetMin z utc).2.2 then (z.dstOffMin,z.dstName,true)
      else (z.stdOffMin,z.stdName,false))

def starts (z : Tz) (y : Int) : Int := ruleInstantUtc z.start y z.stdOffMin

def stops (z : Tz) (y : Int) : Int := ruleInstantUtc z.stop y z.dstOffMin

/-- The last transition up to the instant is one of its own year in UTC, or one of the kind that is
the last in that year, the year taken as a circle. -/
def OwnYear (z : Tz) (utc : RtcTime) : Prop :=
  z.hasDst=true → ∃k i,Last (starts z) (stops z) (timeToEpoch utc) k i ∧
    (i=utc.year ∨ LastBy (starts z) (stops z) utc.year (timeToEpoch utc) k)

theorem summerTime_iff {z : Tz} (hz : z.Ok) (hd : z.hasDst=true) (t : Int) :
    SummerTime z t ↔ On (starts z) (stops z) t := by
  obtain ⟨hs,he⟩ := hz.rules hd
  unfold SummerTime On
  constructor
  · rintro ⟨-,x,e,⟨y,hx⟩,⟨y',he'⟩,hxt,hte,hmin⟩
    rw [named_iff hs] at hx
    rw [named_iff he] at he'
    subst hx he'
    exact ⟨y,y',hxt,hte,fun j hj => hmin _ j ((named_iff he _ _ _).mpr rfl) hj⟩
  · rintro ⟨y,y',hxt,hte,hmin⟩
    refine ⟨hd,_,_,⟨y,(named_iff hs _ _ _).mpr rfl⟩,⟨y',(named_iff he _ _ _).mpr rfl⟩,hxt,hte,?_⟩
    intro e j hj hle
    rw [named_iff he] at hj
    subst hj
    exact hmin j hle

theorem dstInForce_eq {z : Tz} (hd : z.hasDst=true) {utc : RtcTime} (hv : utc.Valid)
    (hy : utc.year<65536) : dstInForce z (timeToEpoch utc)=
      onBy (starts z) (stops z) utc.year (timeToEpoch utc) := by
  unfold dstInForce onBy starts stops
  rw [from_to_epoch hv hy,hd]
  rfl

/-- Summer time is told as the rules have it exactly at the instants whose own year tells. -/
theorem tells_summer_iff (z z' : Zone) (s : Bytes) (h : tzSet z s=(true,z')) (utc : RtcTime)
    (hv : utc.Valid) (hy : 1971≤utc.year ∧ utc.year≤9998) :
    TellsSummer z'.tz utc ↔ OwnYear z'.tz utc := by
  have hz := tzSet_ok h
  have hanswer : tzOffsetMin z'.tz utc=(if (tzOffsetMin z'.tz utc).2.2
      then (z'.tz.dstOffMin,z'.tz.dstName,true) else (z'.tz.stdOffMin,z'.tz.stdName,false)) := by
    unfold tzOffsetMin
    cases dstInForce z'.tz (timeToEpoch utc) <;> rfl
  unfold TellsSummer OwnYear
  rw [and_iff_left hanswer]
  cases hd : z'.tz.hasDst with
  | false =>
    have hcode : (tzOffsetMin z'.tz utc).2.2=false := by simp [tzOffsetMin,dstInForce,hd]
    have hspec : ¬SummerTime z'.tz (timeToEpoch utc) := fun hs => by
      have hdst := hs.1
      rw [hd] at hdst
      cases hdst
    simp [hcode,hspec]
  | true =>
    obtain ⟨hs,he⟩ := hz.rules hd
    have hcode : (tzOffsetMin z'.tz utc).2.2=
      onBy (starts z'.tz) (stops z'.tz) utc.year (timeToEpoch utc) :=
      dstInForce_eq hd hv (by omega)
    rw [hcode,summerTime_iff hz hd]
    simp only [forall_const]
    exact onBy_iff (ruleInstantUtc_mono hs _) (ruleInstantUtc_mono he _) _ _

def germany : Zone :=
  ⟨⟨ofString "CET",ofString "CEST",60,120,true,⟨3,5,0,7200⟩,⟨10,5,0,10800⟩⟩,
    ofString "CET-1CEST,M3.5.0,M10.5.0/3"⟩

theorem tells_summer_iff_germany :
    TellsSummer germany.tz ⟨2026,3,29,1,0,0,0⟩ ↔ OwnYear germany.tz ⟨2026,3,29,1,0,0,0⟩ :=
  tells_summer_iff gTz germany (ofString "CET-1CEST,M3.5.0,M10.5.0/3") (by decide +kernel) _
    ⟨⟨by decide,by decide⟩,by decide,by decide,by decide,by decide⟩ (by decide)

/-- Fourteen hours ahead, summer starts on the first Sunday of the year. -/
def newYear : Zone :=
  ⟨⟨ofString "XXX",ofString "YYY",840,900,true,⟨1,1,0,0⟩,⟨7,1,0,0⟩⟩,
    ofString "XXX-14YYY,M1.1.0/0,M7.1.0/0"⟩

/-- The summer of 2023 starts at ten on the last of December 2022 in UTC, and at noon it is not
told. -/
theorem summer_missed : tzSet gTz (ofString "XXX-14YYY,M1.1.0/0,M7.1.0/0")=(true,newYear) ∧
    ¬TellsSummer newYear.tz ⟨2022,12,31,12,0,0,0⟩ := by
  refine ⟨by decide +kernel,fun h => ?_⟩
  have hz : newYear.tz.Ok := tzSet_ok (z := gTz) (s := newYear.spec) (by decide +kernel)
  obtain ⟨hs,he⟩ := hz.rules rfl
  have hsummer : On (starts newYear.tz) (stops newYear.tz) (timeToEpoch ⟨2022,12,31,12,0,0,0⟩) := by
    refine ⟨2023,2023,by decide,by decide,fun j hj => ?_⟩
    by_contra hlt
    have hmono : StrictMono (stops newYear.tz) := ruleInstantUtc_mono he _
    have hy := hmono.lt_iff_lt.mp (not_le.mp hlt)
    have hle := hmono.monotone (show j≤2022 by omega)
    exact absurd (hj.trans hle) (by decide)
  have hcode := h.1.mpr ((summerTime_iff hz rfl _).mpr hsummer)
  exact absurd hcode (by decide)

end LugalOS.Time
