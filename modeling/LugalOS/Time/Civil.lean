import Mathlib.Tactic.IntervalCases
import Mathlib.Tactic.Linarith

/-! Civil dates and day numbers, day 0 being the first of January 1970. The arithmetic counts years
from the first of March, so that a leap day is the last day of its year. -/

namespace LugalOS.Time

structure RtcTime where
  year : Nat
  month : Nat
  day : Nat
  hour : Nat
  min : Nat
  sec : Nat
  ms : Nat
deriving DecidableEq,Repr

/-- Truncating division as the source has it, which rounds down for either sign of y. -/
def eraOf (y days : Int) : Int := (if 0≤y then y else y-(days-1)).tdiv days

/-- Dates are valid here: the month is not 0 and the day is not 0, so nothing wraps. -/
def daysFromCivil (y : Int) (m d : Nat) : Int :=
  let y := if m≤2 then y-1 else y
  let era := eraOf y 400
  let yoe := (y-era*400).toNat
  let doy := (153*(if m>2 then m-3 else m+9)+2)/5+d-1
  let doe := yoe*365+yoe/4-yoe/100+doy
  era*146097+doe-719468

def civilFromDays (z : Int) : Int × Nat × Nat :=
  let z := z+719468
  let era := eraOf z 146097
  let doe := (z-era*146097).toNat
  let yoe := (doe-doe/1460+doe/36524-doe/146096)/365
  let y := yoe+era*400
  let doy := doe-(365*yoe+yoe/4-yoe/100)
  let mp := (5*doy+2)/153
  let d := doy-(153*mp+2)/5+1
  let m := if mp<10 then mp+3 else mp-9
  (if m≤2 then y+1 else y,m,d)

def timeToEpoch (t : RtcTime) : Int :=
  daysFromCivil t.year t.month t.day*86400+t.hour*3600+t.min*60+t.sec

def timeFromEpoch (sec : Int) : RtcTime :=
  let days := sec.tdiv 86400
  let rem := sec.tmod 86400
  let (days,rem) := if rem<0 then (days-1,rem+86400) else (days,rem)
  let (y,m,d) := civilFromDays days
  ⟨(y%65536).toNat,m,d,(rem/3600).toNat,(rem%3600/60).toNat,(rem%60).toNat,0⟩

def Leap (y : Int) : Prop := y%4=0 ∧ y%100≠0 ∨ y%400=0

instance (y : Int) : Decidable (Leap y) := inferInstanceAs (Decidable (_ ∨ _))

def monthLength (y : Int) (m : Nat) : Nat :=
  if m=2 then if Leap y then 29 else 28
  else if m=4 ∨ m=6 ∨ m=9 ∨ m=11 then 30 else 31

structure ValidDate (y : Int) (m d : Nat) : Prop where
  month : 1≤ m ∧ m≤12
  day : 1≤d ∧ d≤ monthLength y m

structure RtcTime.Valid (t : RtcTime) : Prop where
  date : ValidDate t.year t.month t.day
  hour : t.hour<24
  min : t.min<60
  sec : t.sec<60
  ms : t.ms<1000

theorem eraOf_eq (y : Int) {n : Int} (hn : 0<n) : eraOf y n=y/n := by
  unfold eraOf
  split_ifs with h
  · exact Int.tdiv_eq_ediv_of_nonneg h
  · rw [← Int.neg_neg (y-(n-1)),Int.neg_tdiv,Int.tdiv_eq_ediv_of_nonneg (by omega)]
    have h1 := Int.mul_ediv_add_emod y n
    have h2 := Int.emod_nonneg y (Int.ne_of_gt hn)
    have h3 := Int.emod_lt_of_pos y hn
    have hq : -(y-(n-1))/n=-(y/n) := by
      rw [show -(y-(n-1))=(n-1-y%n)+n*(-(y/n)) by linarith,
        Int.add_mul_ediv_left _ _ (Int.ne_of_gt hn),Int.ediv_eq_zero_of_lt (by omega) (by omega)]
      omega
    rw [hq,Int.neg_neg]

section Shifted

variable {a b c doy : Nat}

theorem yoe_eq {doe : Nat} (ha : a≤3) (hb : b≤24) (hc : c≤3)
    (hd : doy<365 ∨ doy=365 ∧ c=3 ∧ (b<24 ∨ a=3)) (he : doe=36524*a+1461*b+365*c+doy) :
    (doe-doe/1460+doe/36524-doe/146096)/365=100*a+4*b+c := by
  have h1 : doe/146096=if doe=146096 then 1 else 0 := by split_ifs <;> omega
  have h2 : doe/36524=a+(if doe=146096 then 1 else 0) := by split_ifs <;> omega
  have h3 : doe/1460=25*a+b+(if 1460≤24*a+b+365*c+doy then 1 else 0) := by split_ifs <;> omega
  rw [h1,h2,h3]
  split_ifs <;> omega

theorem doy_eq {doe : Nat} (hb : b≤24) (hc : c≤3)
    (he : doe=36524*a+1461*b+365*c+doy) :
    doe-(365*(100*a+4*b+c)+(100*a+4*b+c)/4-(100*a+4*b+c)/100)=doy := by
  omega

/-- The days of an era before one of its years. -/
def yearStart (yoe : Nat) : Nat := yoe*365+yoe/4-yoe/100

theorem yearStart_eq (hb : b≤24) (hc : c≤3) :
    yearStart (100*a+4*b+c)=36524*a+1461*b+365*c := by
  unfold yearStart
  omega

theorem doe_lt (ha : a≤3) (hb : b≤24) (hc : c≤3)
    (hd : doy<365 ∨ doy=365 ∧ c=3 ∧ (b<24 ∨ a=3)) :
    36524*a+1461*b+365*c+doy<146097 := by
  omega

theorem doe_split {doe : Nat} (h : doe<146097) : ∃a b c doy,a≤3 ∧ b≤24 ∧ c≤3 ∧
    (doy<365 ∨ doy=365 ∧ c=3 ∧ (b<24 ∨ a=3)) ∧ doe=36524*a+1461*b+365*c+doy := by
  obtain ⟨a,ha,hr⟩ : ∃a,a≤3 ∧ 36524*a≤doe ∧ (doe<36524*(a+1) ∨ a=3) :=
    ⟨min 3 (doe/36524),by omega,by omega,by omega⟩
  obtain ⟨b,hb,hr'⟩ : ∃b,b≤24 ∧ 36524*a+1461*b≤doe ∧ (doe<36524*a+1461*(b+1) ∨ b=24) :=
    ⟨min 24 ((doe-36524*a)/1461),by omega,by omega,by omega⟩
  obtain ⟨c,hc,hr''⟩ : ∃c,c≤3 ∧ 36524*a+1461*b+365*c≤doe ∧
      (doe<36524*a+1461*b+365*(c+1) ∨ c=3) :=
    ⟨min 3 ((doe-36524*a-1461*b)/365),by omega,by omega,by omega⟩
  exact ⟨a,b,c,doe-36524*a-1461*b-365*c,ha,hb,hc,by omega,by omega⟩

end Shifted

section Inverse

variable {y : Int} {m d : Nat}

/-- The year that starts with March. -/
def marchYear (y : Int) (m : Nat) : Int := if m≤2 then y-1 else y

def marchMonth (m : Nat) : Nat := if m>2 then m-3 else m+9

def marchDay (m d : Nat) : Nat := (153*marchMonth m+2)/5+d-1

theorem daysFromCivil_eq (y : Int) (m d : Nat) : daysFromCivil y m d=
    marchYear y m/400*146097+((yearStart (marchYear y m%400).toNat+marchDay m d : Nat) : Int)-719468 := by
  have hm : marchYear y m-marchYear y m/400*400=marchYear y m%400 := by omega
  simp only [daysFromCivil]
  rw [show (if m≤2 then y-1 else y)=marchYear y m from rfl,eraOf_eq _ (by decide),hm]
  rfl

theorem ValidDate.march (h : ValidDate y m d) : ∃era : Int,∃a b c : Nat,a≤3 ∧ b≤24 ∧ c≤3 ∧
    marchYear y m=era*400+(100*a+4*b+c : Nat) ∧ marchMonth m≤11 ∧
      (marchDay m d<365 ∨ marchDay m d=365 ∧ c=3 ∧ (b<24 ∨ a=3)) ∧
      (5*marchDay m d+2)/153=marchMonth m ∧ marchDay m d-(153*marchMonth m+2)/5+1=d := by
  obtain ⟨⟨hm1,hm12⟩,hd1,hdl⟩ := h
  refine ⟨marchYear y m/400,(marchYear y m%400).toNat/100,(marchYear y m%400).toNat%100/4,
    (marchYear y m%400).toNat%4,by omega,by omega,by omega,by omega,?_,?_,?_,?_⟩
  · unfold marchMonth
    split_ifs <;> omega
  · by_cases h2 : m=2
    · subst h2
      have hm : marchDay 2 d=336+d := by
        change (153*11+2)/5+d-1=336+d
        omega
      have hy : marchYear y 2=y-1 := rfl
      rw [hm,hy]
      rw [monthLength,if_pos rfl] at hdl
      by_cases hl : Leap y
      · rw [if_pos hl] at hdl
        unfold Leap at hl
        omega
      · rw [if_neg hl] at hdl
        omega
    · left
      rw [monthLength,if_neg h2] at hdl
      unfold marchDay marchMonth
      split_ifs at hdl ⊢ <;> omega
  · -- a month's days are those between its start and the next one's
    have hdl' : d≤ if m=2 then 29 else if m=4 ∨ m=6 ∨ m=9 ∨ m=11 then 30 else 31 := by
      unfold monthLength at hdl
      split_ifs at hdl ⊢ <;> omega
    unfold marchDay marchMonth
    interval_cases m <;> simp at hdl' ⊢ <;> omega
  · unfold marchDay
    omega

theorem civilFromDays_eq {z era : Int} {a b c doy : Nat} (ha : a≤3) (hb : b≤24) (hc : c≤3)
    (hd : doy<365 ∨ doy=365 ∧ c=3 ∧ (b<24 ∨ a=3))
    (hz : z+719468=era*146097+((36524*a+1461*b+365*c+doy : Nat) : Int)) :
    civilFromDays z=
      let mp := (5*doy+2)/153
      let m := if mp<10 then mp+3 else mp-9
      let y := ((100*a+4*b+c : Nat) : Int)+era*400
      (if m≤2 then y+1 else y,m,doy-(153*mp+2)/5+1) := by
  have hlt := doe_lt ha hb hc hd
  have hyear := yoe_eq ha hb hc hd rfl
  have hday := doy_eq hb hc (Eq.refl (36524*a+1461*b+365*c+doy))
  generalize 36524*a+1461*b+365*c+doy=doe at hz hlt hyear hday
  have hera : (z+719468)/146097=era := by omega
  have hdoe : (z+719468-era*146097).toNat=doe := by omega
  simp only [civilFromDays]
  rw [eraOf_eq _ (by decide),hera,hdoe,hyear,hday]

theorem civil_of_days (h : ValidDate y m d) : civilFromDays (daysFromCivil y m d)=(y,m,d) := by
  obtain ⟨era,a,b,c,ha,hb,hc,hy,hm11,hdoy,hmp,hd⟩ := h.march
  have hyoe : (marchYear y m%400).toNat=100*a+4*b+c := by omega
  have hera : marchYear y m/400=era := by omega
  have hz : daysFromCivil y m d+719468=
      era*146097+((36524*a+1461*b+365*c+marchDay m d : Nat) : Int) := by
    rw [daysFromCivil_eq,hera,hyoe,yearStart_eq hb hc]
    omega
  have hmonth : (if marchMonth m<10 then marchMonth m+3 else marchMonth m-9)=m := by
    have := h.month
    unfold marchMonth
    split_ifs <;> omega
  rw [civilFromDays_eq ha hb hc hdoy hz]
  simp only [hmp,hd,hmonth]
  congr 1
  rw [Int.add_comm _ (era*400),← hy]
  unfold marchYear
  split_ifs <;> omega

theorem monthSpan {mp : Nat} (h : mp<11) : (153*(mp+1)+2)/5-(153*mp+2)/5=
    if (if mp<10 then mp+3 else mp-9)=4 ∨ (if mp<10 then mp+3 else mp-9)=6 ∨
      (if mp<10 then mp+3 else mp-9)=9 ∨ (if mp<10 then mp+3 else mp-9)=11 then 30 else 31 := by
  interval_cases mp <;> rfl

theorem days_of_civil (z : Int) :
    let (y,m,d) := civilFromDays z
    ValidDate y m d ∧ daysFromCivil y m d=z := by
  have hlt : ((z+719468)%146097).toNat<146097 := by omega
  obtain ⟨a,b,c,doy,ha,hb,hc,hd,hdoe⟩ := doe_split hlt
  have hz : z+719468=(z+719468)/146097*146097+((36524*a+1461*b+365*c+doy : Nat) : Int) := by
    omega
  generalize (z+719468)/146097=era at hz
  rw [civilFromDays_eq ha hb hc hd hz]
  dsimp only
  have hmp : (5*doy+2)/153≤11 ∧ (153*((5*doy+2)/153)+2)/5≤doy ∧
      doy<(153*((5*doy+2)/153+1)+2)/5 := by omega
  generalize (5*doy+2)/153=mp at hmp
  obtain ⟨hmp,hlo,hhi⟩ := hmp
  set m := if mp<10 then mp+3 else mp-9 with hm
  set y : Int := if m≤2 then ((100*a+4*b+c : Nat) : Int)+era*400+1
    else ((100*a+4*b+c : Nat) : Int)+era*400 with hy
  have hmm : marchMonth m=mp := by
    unfold marchMonth
    rw [hm]
    split_ifs <;> omega
  have hmy : marchYear y m=((100*a+4*b+c : Nat) : Int)+era*400 := by
    unfold marchYear
    rw [hy]
    split_ifs <;> omega
  have hmd : marchDay m (doy-(153*mp+2)/5+1)=doy := by
    rw [marchDay,hmm]
    omega
  refine ⟨⟨?_,by omega,?_⟩,?_⟩
  · rw [hm]
    split_ifs <;> omega
  · have hleap : mp=11 → doy=365 → Leap y := by
      rintro rfl rfl
      have hy' : y=((100*a+4*b+c : Nat) : Int)+era*400+1 := by
        rw [hy,if_pos]
        rw [hm]
        decide
      unfold Leap
      omega
    have h2 : m=2 ↔ mp=11 := by
      rw [hm]
      split_ifs <;> omega
    rw [monthLength]
    by_cases hmp2 : mp=11
    · rw [if_pos (h2.mpr hmp2)]
      by_cases hl : Leap y
      · rw [if_pos hl]
        omega
      · rw [if_neg hl]
        have : doy≠365 := fun he => hl (hleap hmp2 he)
        omega
    · have hspan := monthSpan (show mp<11 by omega)
      rw [← hm] at hspan
      rw [if_neg (fun he => hmp2 (h2.mp he)),← hspan]
      omega
  · have hyoe : (marchYear y m%400).toNat=100*a+4*b+c := by omega
    have hera : marchYear y m/400=era := by omega
    rw [daysFromCivil_eq,hera,hyoe,yearStart_eq hb hc,hmd]
    omega

end Inverse

section Days

theorem daysFromCivil_day (y : Int) (m : Nat) {d : Nat} (hd : 1≤d) :
    daysFromCivil y m d=daysFromCivil y m 1+(d-1 : Nat) := by
  rw [daysFromCivil_eq,daysFromCivil_eq]
  have h1 : marchDay m d=marchDay m 1+(d-1) := by
    unfold marchDay
    omega
  rw [h1]
  omega

theorem daysFromCivil_year (y : Int) (m : Nat) :
    daysFromCivil y m 1+365≤daysFromCivil (y+1) m 1 ∧
      daysFromCivil (y+1) m 1≤daysFromCivil y m 1+366 := by
  have hmy : marchYear (y+1) m=marchYear y m+1 := by
    unfold marchYear
    split_ifs <;> omega
  rw [daysFromCivil_eq,daysFromCivil_eq,hmy]
  generalize marchYear y m=w
  unfold yearStart
  omega

end Days

section Epoch

theorem timeFromEpoch_eq (s : Int) : timeFromEpoch s=
    let (y,m,d) := civilFromDays (s/86400)
    let rem := s%86400
    ⟨(y%65536).toNat,m,d,(rem/3600).toNat,(rem%3600/60).toNat,(rem%60).toNat,0⟩ := by
  have hfloor : (if s.tmod 86400<0 then (s.tdiv 86400-1,s.tmod 86400+86400)
      else (s.tdiv 86400,s.tmod 86400))=(s/86400,s%86400) := by
    have h1 := Int.mul_tdiv_add_tmod s 86400
    have h2 := Int.tmod_lt_of_pos s (b := 86400) (by decide)
    have h3 := Int.lt_tmod_of_pos s (b := 86400) (by decide)
    split_ifs with h
    · rw [show s/86400=s.tdiv 86400-1 by omega,show s%86400=s.tmod 86400+86400 by omega]
    · rw [show s/86400=s.tdiv 86400 by omega,show s%86400=s.tmod 86400 by omega]
  simp only [timeFromEpoch,hfloor]

theorem from_to_epoch {t : RtcTime} (h : t.Valid) (hy : t.year<65536) :
    timeFromEpoch (timeToEpoch t)={t with ms := 0} := by
  have hh := h.hour
  have hm := h.min
  have hs := h.sec
  have hciv := civil_of_days h.date
  have hdiv : timeToEpoch t/86400=daysFromCivil t.year t.month t.day := by
    unfold timeToEpoch
    omega
  have hmod : timeToEpoch t%86400=t.hour*3600+t.min*60+t.sec := by
    unfold timeToEpoch
    omega
  rw [timeFromEpoch_eq,hdiv,hmod,hciv]
  dsimp only
  congr 1 <;> omega

def yearOf (s : Int) : Int := (civilFromDays (s/86400)).1

theorem to_from_epoch {s : Int} (h0 : 0≤yearOf s) (hlt : yearOf s<65536) :
    timeToEpoch (timeFromEpoch s)=s ∧ (timeFromEpoch s).Valid ∧
      ((timeFromEpoch s).year : Int)=yearOf s := by
  have hciv := days_of_civil (s/86400)
  unfold yearOf at h0 hlt ⊢
  rw [timeFromEpoch_eq]
  generalize civilFromDays (s/86400)=ymd at h0 hlt hciv
  obtain ⟨y,m,d⟩ := ymd
  dsimp only at h0 hlt hciv ⊢
  have hy : (((y%65536).toNat : Nat) : Int)=y := by omega
  refine ⟨?_,⟨?_,?_,?_,?_,?_⟩,hy⟩
  · unfold timeToEpoch
    dsimp only
    rw [hy,hciv.2]
    omega
  · rw [hy]
    exact hciv.1
  · dsimp only
    omega
  · dsimp only
    omega
  · dsimp only
    omega
  · dsimp only
    omega

end Epoch

end LugalOS.Time
