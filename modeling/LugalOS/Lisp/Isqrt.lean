import LugalOS.Lib.Newton
import LugalOS.Lisp.Numbers

namespace LugalOS.Lisp

open Limbs

/-- The loop of num_isqrt on a long, in 64 bits; n turns of it at most. -/
def longSqrtLoop (v : Nat) : Nat → Nat → Nat → Option Nat
  | 0,_,_ => none
  | n+1,x,y => if y<x then longSqrtLoop v n y ((y+v/y)%2^64/2) else some x

/-- The loop over top_bits, n turns of it at most. -/
def topBits : Nat → Nat → Nat
  | 0,_ => 0
  | n+1,top => if 0<top then topBits n (top>>>1)+1 else 0

/-- The Newton loop of num_isqrt with as many turns as guard leaves: the root, and whether it ended
before the guard did. -/
def isqrtLoop (w : LongSize) (v : Whole) : Nat → Whole → Option (Whole × Bool)
  | 0,x => some (x,false)
  | guard+1,x => do
    let q ← (bnDivRem w (some v) (some x)).1
    let sum ← numAdd w (some x) (some q)
    let y ← (bnDivRem w (some sum) (some (.int 2))).1
    if wholeCmp w (some y) (some x)≠.lt then some (x,true)
    else isqrtLoop w v guard y

/-- num_isqrt of a whole number; with it, whether the loop ended before the guard did. -/
def numIsqrt (w : LongSize) (fuel : Nat) (v : Whole) : Option (Whole × Bool) :=
  if wholeIsNegative v then none
  else if wholeIsZero v then some (.int 0,true)
  else
    match v with
    | .int n =>
      if n=1 then some (.int 1,true)
      else
        let val := n.toNat
        (longSqrtLoop val fuel val ((val+1)%2^64/2)).map fun x => (.int x,true)
    | .big sign limbs =>
      if limbs.length=0 then some (.int 0,true)
      else do
        let totalBits := (limbs.length-1)*32+topBits 32 (limbs.getD (limbs.length-1) 0)
        let x ← numExptPos w (.int 2) ((totalBits+1)/2)
        isqrtLoop w (.big sign limbs) 200 x

section Long

variable {v : Nat}

theorem longSqrtLoop_eq (hv : 0<v) (hv64 : v<2^63) {n x y : Nat} (hx : 0<x) (hs : Nat.sqrt v≤x)
    (hxv : x≤v) (hy : y=Newton.next v x) (hn : x<n) :
    longSqrtLoop v n x y=some (Nat.sqrt v) := by
  induction n generalizing x y with
  | zero => omega
  | succ n ih =>
    rw [longSqrtLoop]
    by_cases hlt : y<x
    · have hnext := Newton.sqrt_le_next (n := v) hx
      have hpos := Nat.sqrt_pos.mpr hv
      have hdiv : v/y≤v := Nat.div_le_self v y
      rw [if_pos hlt]
      apply ih (by omega) (by omega) (by omega) _ (by omega)
      rw [Newton.next,Nat.mod_eq_of_lt (by omega)]
    · rw [if_neg hlt,Newton.eq_sqrt_of_stays hx hs (by omega)]

end Long

section Big

variable {w : LongSize} {v x : Whole} {n X : Nat}

theorem topBits_spec {k t : Nat} (ht : t<2^k) (h0 : 0<t) :
    0 < topBits k t ∧ 2^(topBits k t-1)≤t ∧ t<2^topBits k t := by
  induction k generalizing t with
  | zero => omega
  | succ k ih =>
    rw [topBits,if_pos h0,Nat.shiftRight_eq_div_pow,pow_one]
    by_cases h1 : t/2=0
    · have hz : topBits k (t/2)=0 := by
        rw [h1]
        cases k <;> rfl
      rw [hz]
      refine ⟨by omega,?_,?_⟩ <;> omega
    · obtain ⟨hp,hlo,hhi⟩ := ih (t := t/2) (by omega) (Nat.pos_of_ne_zero h1)
      refine ⟨by omega,?_,?_⟩
      · obtain ⟨j,hj⟩ : ∃j,topBits k (t/2)=j+1 := ⟨topBits k (t/2)-1,by omega⟩
        rw [hj,Nat.add_sub_cancel] at hlo
        rw [hj,Nat.add_sub_cancel,Nat.pow_succ]
        omega
      · rw [Nat.pow_succ]
        omega

theorem isqrtLoop_eq (hv : v.Ok w) (hn : v.toInt=n) (hs : 2≤Nat.sqrt n) (guard : Nat) (hx : x.Ok w)
    (hX : x.toInt=X) (hsX : Nat.sqrt n≤X) (hXlt : X≤base^32) :
    ∃r : Whole,isqrtLoop w v guard x=some (r,(Newton.newton n guard X).2) ∧
      r.Ok w ∧ r.toInt=(Newton.newton n guard X).1 := by
  have hbounds := long_bounds w
  have htwo : (Whole.int 2).Ok w := by
    cases w <;> exact ⟨by decide,by decide⟩
  induction guard generalizing x X with
  | zero => exact ⟨x,rfl,hx,hX⟩
  | succ guard ih =>
    have hnlt : n<base^bignumMaxLimbs := by
      have := hv.lt
      rwa [hn,Int.natAbs_natCast] at this
    have hpow : base^32+base^bignumMaxLimbs/2<base^bignumMaxLimbs := by decide +kernel
    have hq : n/X≤base^bignumMaxLimbs/2 := by
      calc n/X≤n/2 := Nat.div_le_div_left (by omega) (by decide)
        _≤base^bignumMaxLimbs/2 := Nat.div_le_div_right (Nat.le_of_lt hnlt)
    obtain ⟨q,hqe,hqo,hqv⟩ := ofInt_nat w (n := n/X) (by omega)
    obtain ⟨sum,hse,hso,hsv⟩ := ofInt_nat w (n := X+n/X) (by omega)
    obtain ⟨y,hye,hyo,hyv⟩ := ofInt_nat w (n := Newton.next n X) (by rw [Newton.next]; omega)
    have hdiv1 : (bnDivRem w (some v) (some x)).1=some q := by
      rw [bnDivRem_eq hv hx (by rw [hn]; exact Int.natCast_nonneg _) (by rw [hX]; omega),hn,hX,
        ← Int.natCast_ediv,hqe]
    have hadd : numAdd w (some x) (some q)=some sum := by
      rw [numAdd_eq hx hqo,hX,hqv,← Int.natCast_add,hse]
    have hdiv2 : (bnDivRem w (some sum) (some (.int 2))).1=some y := by
      rw [bnDivRem_eq hso htwo (by rw [hsv]; exact Int.natCast_nonneg _) (by decide),hsv]
      exact hye
    rw [isqrtLoop,hdiv1]
    simp only [Option.bind_eq_bind,Option.bind_some]
    rw [hadd]
    simp only [Option.bind_some]
    rw [hdiv2]
    simp only [Option.bind_some]
    rw [wholeCmp_eq hyo hx,hyv,hX,Newton.newton]
    by_cases hlt : Newton.next n X<X
    · have hnext := Newton.sqrt_le_next (n := n) (x := X) (by omega)
      rw [if_neg (not_not_intro (compare_lt_iff_lt.mpr (Int.ofNat_lt.mpr hlt))),if_pos hlt]
      exact ih hyo hyv hnext (by omega)
    · rw [if_pos fun h => hlt (Int.ofNat_lt.mp (compare_lt_iff_lt.mp h)),if_neg hlt]
      exact ⟨x,rfl,hx,hX⟩

theorem bits_spec {l : List Nat} (hl : l=base.digits (value base l)) (h0 : 0 < value base l) :
    2^((l.length-1)*32+topBits 32 (l.getD (l.length-1) 0)-1)≤value base l ∧
      value base l<2^((l.length-1)*32+topBits 32 (l.getD (l.length-1) 0)) := by
  have hlimbs : Limbs32 l := hl ▸ digits_limbs _
  have hpos : 0 < l.length := by
    rw [hl,digits_pos h0,List.length_cons]
    omega
  have hge : base^(l.length-1)≤value base l := by
    apply (Nat.lt_digits_length_iff one_lt_base _).mp
    rw [← hl]
    omega
  have hlow : value base (l.take (l.length-1))<base^(l.length-1) := by
    have := value_lt one_lt_base (hlimbs.take (l.length-1))
    rwa [List.length_take,Nat.min_eq_left (by omega)] at this
  have hsplit := take_succ_value (B := base) (l := l) (n := l.length-1) (by omega)
  rw [Nat.sub_add_cancel hpos,List.take_length] at hsplit
  have hpow : base^(l.length-1)=2^((l.length-1)*32) := by rw [base,← Nat.pow_mul,Nat.mul_comm]
  have htop0 : 0 < l.getD (l.length-1) 0 := by
    by_contra h
    rw [Nat.eq_zero_of_not_pos h,Nat.mul_zero] at hsplit
    omega
  obtain ⟨hp,hlo,hhi⟩ := topBits_spec (k := 32) (getD_lt base_pos hlimbs _) htop0
  generalize l.getD (l.length-1) 0=t at hsplit hp hlo hhi
  constructor
  · rw [Nat.add_sub_assoc hp,Nat.pow_add,← hpow,hsplit]
    exact Nat.le_trans (Nat.mul_le_mul_left _ hlo) (Nat.le_add_left _ _)
  · rw [Nat.pow_add,← hpow,hsplit]
    calc value base (l.take (l.length-1))+base^(l.length-1)*t
        < base^(l.length-1)*(t+1) := by
          rw [Nat.mul_add,Nat.mul_one]
          omega
      _≤base^(l.length-1)*2^topBits 32 t := Nat.mul_le_mul_left _ hhi

theorem start_spec {n t : Nat} (ht : 0<t) (hlo : 2^(t-1)≤n) (hhi : n<2^t) :
    Nat.sqrt n≤2^((t+1)/2) ∧ 2^((t+1)/2)≤2*Nat.sqrt n+1 := by
  have hsq : 2^((t+1)/2)*2^((t+1)/2)=2^(2*((t+1)/2)) := by rw [← Nat.pow_add,Nat.two_mul]
  constructor
  · apply Nat.le_of_lt
    apply Nat.sqrt_lt.mpr
    rw [hsq]
    exact Nat.lt_of_lt_of_le hhi (Nat.pow_le_pow_right (by decide) (by omega))
  · by_contra hlt
    have hroot : 2*(Nat.sqrt n+1)≤2^((t+1)/2) := by omega
    have hmul := Nat.mul_le_mul hroot hroot
    have hnext := Nat.lt_succ_sqrt n
    have hle : 2^(2*((t+1)/2))≤4*2^(t-1) := by
      calc 2^(2*((t+1)/2))≤2^(t-1+2) := Nat.pow_le_pow_right (by decide) (by omega)
        _=4*2^(t-1) := by rw [Nat.pow_add,Nat.mul_comm]
    rw [hsq] at hmul
    have h4 : 2*(Nat.sqrt n+1)*(2*(Nat.sqrt n+1))=4*((Nat.sqrt n+1)*(Nat.sqrt n+1)) := by ring
    rw [Nat.succ_eq_add_one] at hnext
    omega

theorem numIsqrt_long {i : Int} {fuel : Nat} (hv : (Whole.int i).Ok w) (h0 : 0≤ i)
    (hf : i.toNat<fuel) : ∃r : Whole,numIsqrt w fuel (.int i)=some (r,true) ∧
      r.toInt=Nat.sqrt i.toNat := by
  have hmax : i<2^63 := by
    have hi : i≤longMax w := hv.2
    cases w <;> simp only [longMax,LongSize.bits] at hi <;> omega
  rw [numIsqrt,wholeIsNegative,wholeIsZero,if_neg (by rw [decide_eq_true_eq]; omega)]
  by_cases hz : i=0
  · rw [if_pos (by rw [beq_iff_eq]; exact hz),hz]
    exact ⟨.int 0,rfl,rfl⟩
  rw [if_neg (by rw [beq_iff_eq]; exact hz)]
  dsimp only
  by_cases h1 : i=1
  · rw [if_pos h1,h1]
    exact ⟨.int 1,rfl,rfl⟩
  · have hpos : 0 < i.toNat := by omega
    have hself : i.toNat/i.toNat=1 := Nat.div_self hpos
    rw [if_neg h1,longSqrtLoop_eq hpos (by omega) hpos (Nat.sqrt_le_self _) (Nat.le_refl _) _ hf]
    · exact ⟨_,rfl,rfl⟩
    · rw [Newton.next,hself,Nat.mod_eq_of_lt (by omega)]

theorem numIsqrt_big {sign : Int} {limbs : List Nat} (hv : (Whole.big sign limbs).Ok w)
    (h0 : 0≤(Whole.big sign limbs).toInt) (fuel : Nat) :
    ∃r : Whole,numIsqrt w fuel (.big sign limbs)=some (r,true) ∧
      r.toInt=Nat.sqrt (value base limbs) := by
  obtain ⟨hs,hl,hmax,hlt⟩ := hv
  have hbounds := long_bounds w
  have hs1 : sign=1 := by
    cases hs with
    | inl hs => exact hs
    | inr hs =>
      rw [Whole.toInt,hs] at h0
      omega
  have hn : (Whole.big sign limbs).toInt=(value base limbs : Nat) := by
    rw [Whole.toInt,hs1,Int.one_mul]
  have hpos : 0 < value base limbs := by omega
  have hne : limbs≠[] := by
    intro h
    rw [h,value_nil] at hpos
    omega
  obtain ⟨hlo,hhi⟩ := bits_spec hl hpos
  rw [numIsqrt,wholeIsNegative,wholeIsZero,if_neg (by rw [decide_eq_true_eq]; omega),
    if_neg (by rw [beq_iff_eq]; exact hne)]
  dsimp only
  rw [if_neg fun h => hne (List.length_eq_zero_iff.mp h)]
  generalize (limbs.length-1)*32+topBits 32 (limbs.getD (limbs.length-1) 0)=t at hlo hhi
  have hsqrt4 : 4≤Nat.sqrt (value base limbs) := by
    apply Nat.le_sqrt.mpr
    have : (2^31-1 : Int)≤longMax w := by cases w <;> decide
    omega
  have ht : 0<t := by
    by_contra h
    rw [Nat.eq_zero_of_not_pos h,Nat.pow_zero] at hhi
    omega
  have ht2 : t≤2048 := by
    by_contra h
    have he : base^bignumMaxLimbs=2^(32*bignumMaxLimbs) := by rw [base,← Nat.pow_mul]
    have hle : base^bignumMaxLimbs≤2^(t-1) := by
      rw [he]
      exact Nat.pow_le_pow_right (by decide) (by rw [bignumMaxLimbs]; omega)
    omega
  obtain ⟨hx1,hx2⟩ := start_spec ht hlo hhi
  have hx32 : 2^((t+1)/2)≤base^32 := by
    apply le_of_le_of_eq _ (Nat.pow_mul 2 32 32)
    apply Nat.pow_le_pow_right (by decide)
    omega
  have hcap : base^32<base^bignumMaxLimbs := by decide +kernel
  obtain ⟨x,hxe,hxo,hxv⟩ := ofInt_nat w (n := 2^((t+1)/2)) (by omega)
  have hx : numExptPos w (.int 2) ((t+1)/2)=some x := by
    rw [numExptPos_eq (y := 2) (by cases w <;> exact ⟨by decide,by decide⟩) rfl (by decide) (by omega),hxe]
  have hroot : Nat.sqrt (value base limbs)<2^((t+1)/2+1) :=
    Nat.lt_of_le_of_lt hx1 (Nat.pow_lt_pow_right (by decide) (Nat.lt_succ_self _))
  have hends := Newton.newton_ends hsqrt4 hx1 hx2 hroot (by omega)
  have hmore := Newton.newton_more hends (by decide : 13≤200)
  have hok : (Whole.big sign limbs).Ok w := ⟨hs,hl,hmax,hlt⟩
  obtain ⟨r,hr,_,hrv⟩ := isqrtLoop_eq hok hn (by omega) 200 hxo hxv hx1 hx32
  rw [hx]
  simp only [Option.bind_eq_bind,Option.bind_some]
  refine ⟨r,?_,?_⟩
  · rw [hr,hmore,hends]
  · rw [hrv,hmore,Newton.newton_eq_sqrt (Nat.pow_pos (by decide)) hx1 hpos hends]

theorem numIsqrt_eq {fuel : Nat} (hv : v.Ok w) (h0 : 0≤v.toInt) (hf : v.toInt.toNat<fuel) :
    ∃r : Whole,numIsqrt w fuel v=some (r,true) ∧ r.toInt=Nat.sqrt v.toInt.toNat := by
  cases v with
  | int i => exact numIsqrt_long hv h0 hf
  | big sign limbs =>
    obtain ⟨r,hr,hrv⟩ := numIsqrt_big hv h0 fuel
    refine ⟨r,hr,?_⟩
    obtain hs | hs := hv.1
    · rw [hrv,Whole.toInt,hs,Int.one_mul,Int.toNat_natCast]
    · have hb := long_bounds w
      have hmax := hv.2.2.1
      rw [Whole.toInt,hs] at h0
      omega

/-- Division, the greatest common divisor and the root. -/
theorem bignum_division_gcd_isqrt :
    (∀a : List Nat,∀d : Nat,Limbs32 a → 0<d → d<base →
      value base (bnDivSingle a d).1*d+(bnDivSingle a d).2=value base a ∧
        (bnDivSingle a d).2<d ∧ (bnDivSingle a d).1.length≤a.length) ∧
    (∀q r a b : List Nat,Limbs32 q → Limbs32 r → Limbs32 a → Limbs32 b →
      a.length≤bignumMaxLimbs → b.length≤bignumMaxLimbs → q.length=bignumBuf → r.length=bignumBuf →
      0 < value base b → ∃x y : List Nat,∃s : Division,bnDivMulti q r a b=some (x,y,s) ∧
        value base x*value base b+value base y=value base a ∧ value base y < value base b ∧
        s.q.length=q.length ∧ s.r.length=r.length) ∧
    (∀u v : List Nat,Limbs32 u → Limbs32 v → u.length≤bignumMaxLimbs → v.length≤bignumMaxLimbs →
      ∀fuel,value base u+value base v<fuel →
      ∃w,bnGcdAbs fuel u v=some w ∧ value base w=Nat.gcd (value base u) (value base v)) ∧
    ∀(w : LongSize) (v : Whole),v.Ok w → 0≤v.toInt → ∀fuel,v.toInt.toNat<fuel →
      ∃r : Whole,numIsqrt w fuel v=some (r,true) ∧ r.toInt=Nat.sqrt v.toInt.toNat := by
  refine ⟨?_,?_,?_,?_⟩
  · intro a d ha hd _
    obtain ⟨h1,h2,_,h4⟩ := bnDivSingle_spec ha hd
    exact ⟨h1,h2,h4⟩
  · intro q r a b hq hr ha hb hla hlb hlq hlr hpos
    have hbuf : bignumBuf=bignumMaxLimbs+4 := rfl
    obtain ⟨s,hs,hsq,hsr⟩ := bnDivMulti_spec hq hr ha hb hpos (by omega) (by omega)
    refine ⟨_,_,s,hs,?_,?_,hsq,hsr⟩
    · rw [value_digits,value_digits,Nat.mul_comm]
      exact Nat.div_add_mod _ _
    · rw [value_digits]
      exact Nat.mod_lt _ hpos
  · intro u v hu hv hlu hlv fuel hf
    obtain ⟨w,hw,_,hval,_⟩ := bnGcdAbs_spec hu hv hlu hlv hf
    exact ⟨w,hw,hval⟩
  · intro w v hv h0 fuel hf
    exact numIsqrt_eq hv h0 hf

theorem bignum_division_gcd_isqrt_small :
    (value base (bnDivSingle [5,7] 3).1*3+(bnDivSingle [5,7] 3).2=value base [5,7]) ∧
    (∃x y : List Nat,∃s : Division,bnDivMulti stackBuf stackBuf [5,7,9] [3,1]=some (x,y,s) ∧
      value base x*value base [3,1]+value base y=value base [5,7,9]) ∧
    (∃w,bnGcdAbs 31 [12] [18]=some w ∧ value base w=6) ∧
    ∃r : Whole,numIsqrt .eight 18 (.int 17)=some (r,true) ∧ r.toInt=4 := by
  obtain ⟨hsingle,hmulti,hgcd,hroot⟩ := bignum_division_gcd_isqrt
  have hbuf : Limbs32 stackBuf := zeros_limbs _
  have hlimbs (l : List Nat) (h : ∀x∈l,x<base) : Limbs32 l := h
  refine ⟨?_,?_,?_,?_⟩
  · exact (hsingle [5,7] 3 (hlimbs _ (by decide)) (by decide) (by decide)).1
  · obtain ⟨x,y,s,hs,hval,_⟩ := hmulti stackBuf stackBuf [5,7,9] [3,1] hbuf hbuf (hlimbs _ (by decide))
      (hlimbs _ (by decide)) (by decide) (by decide) rfl rfl (by decide)
    exact ⟨x,y,s,hs,hval⟩
  · exact hgcd [12] [18] (hlimbs _ (by decide)) (hlimbs _ (by decide)) (by decide) (by decide) 31 (by decide)
  · have h17 : Nat.sqrt 17=4 := by
      rw [Eq.comm,Nat.eq_sqrt]
      decide
    obtain ⟨r,hr,hrv⟩ := hroot .eight (.int 17) ⟨by decide,by decide⟩ (by decide) 18 (by decide)
    exact ⟨r,hr,by rw [hrv]; exact congrArg Nat.cast h17⟩

end Big

end LugalOS.Lisp
