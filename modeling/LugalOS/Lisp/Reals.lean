import LugalOS.Lisp.Numbers

namespace LugalOS.Lisp

open Limbs

/-- LISP_INT, LISP_BIGNUM and LISP_RATIO. -/
inductive Real
  | whole (v : Whole)
  | ratio (num den : Whole)
  deriving DecidableEq,Repr

/-- The numbers of is_number_val; the parts of LISP_COMPLEX are real. -/
inductive Number
  | real (r : Real)
  | complex (real imag : Real)
  deriving DecidableEq,Repr

/-- As make_ratio leaves them: a denominator of more than one, in lowest terms. -/
def Real.Ok (w : LongSize) : Real → Prop
  | whole v => v.Ok w
  | ratio num den => num.Ok w ∧ den.Ok w ∧ 1 < den.toInt ∧ Int.gcd num.toInt den.toInt=1

def Real.toRat : Real → ℚ
  | whole v => v.toInt
  | ratio num den => num.toInt/den.toInt

def Real.num : Real → Whole
  | whole v => v
  | ratio num _ => num

def Real.den : Real → Whole
  | whole _ => .int 1
  | ratio _ den => den

/-- As make_complex leaves them: the imaginary part is not zero. -/
def Number.Ok (w : LongSize) : Number → Prop
  | real r => r.Ok w
  | complex re im => re.Ok w ∧ im.Ok w ∧ im.num.toInt≠0

/-- num_cmp of real numbers. A cross product with too many limbs is nil. -/
def realCmp (w : LongSize) : Real → Real → Ordering
  | .whole a,.whole b => wholeCmp w (some a) (some b)
  | a,b => wholeCmp w (bnMul w (some a.num) (some b.den)) (bnMul w (some b.num) (some a.den))

/-- The real part of a number that may be complex, and the imaginary one. -/
def Number.parts : Number → Real × Real
  | real r => (r,.whole (.int 0))
  | complex re im => (re,im)

def Number.isComplex : Number → Bool
  | real _ => false
  | complex _ _ => true

def numCmp (w : LongSize) (a b : Number) : Ordering :=
  if a.isComplex ∨ b.isComplex then
    if realCmp w a.parts.1 b.parts.1=.eq ∧ realCmp w a.parts.2 b.parts.2=.eq then .eq else .gt
  else realCmp w a.parts.1 b.parts.1

/-- A ratio that num_cmp takes for equal to others, by cross products that are both nil. -/
def Real.Wide : Real → Prop
  | whole _ => False
  | ratio num _ => 2≤num.toInt.natAbs

instance (r : Real) : Decidable r.Wide :=
  match r with
  | .whole _ => .isFalse id
  | .ratio num _ => inferInstanceAs (Decidable (2≤num.toInt.natAbs))

/-- The largest limbs over one less: num_cmp takes it for every wide ratio. -/
def huge : Real :=
  .ratio (.big 1 (base.digits (base^bignumMaxLimbs-1))) (.big 1 (base.digits (base^bignumMaxLimbs-2)))

def Real.widen (r : Real) : Real := if r.Wide then huge else r

/-- The same number, or two ratios that a third one can be taken for. -/
def Real.Similar (a b : Real) : Prop := a.toRat=b.toRat ∨ a.Wide ∧ b.Wide

section Compare

variable {w : LongSize} {a b c : Real} {x y : Whole} {z : Int}

theorem ofInt_none_iff : ofInt w z=none ↔ base^bignumMaxLimbs≤z.natAbs := by
  constructor
  · intro h
    by_contra hlt
    obtain ⟨v,hv⟩ := ofInt_isSome (w := w) (Nat.not_le.mp hlt)
    rw [h] at hv
    cases hv
  · intro h
    cases hz : ofInt w z with
    | none => rfl
    | some v =>
      obtain ⟨hok,hv⟩ := ofInt_some hz
      have := hok.lt
      rw [hv] at this
      omega

theorem wholeCmp_none_left (h : x.Ok w) (h0 : x.toInt≠0) : wholeCmp w none (some x)≠.eq := by
  have hne : base.digits x.toInt.natAbs≠[] := fun h => h0 (digits_nil.mp h)
  rw [wholeCmp]
  · rw [h.limbs]
    simp only [getNumLimbs,hne,and_false,if_false,if_true]
    split_ifs <;> decide
  · intro i j hi
    cases hi

theorem wholeCmp_none_right (h : x.Ok w) (h0 : x.toInt≠0) : wholeCmp w (some x) none≠.eq := by
  have hne : base.digits x.toInt.natAbs≠[] := fun h => h0 (digits_nil.mp h)
  rw [wholeCmp]
  · rw [h.limbs]
    simp only [getNumLimbs,hne,false_and,if_false,if_true]
    split_ifs <;> decide
  · intro i j _ hj
    cases hj

theorem ofInt_cmp {u v : Int} (hu : base^bignumMaxLimbs≤u.natAbs → v≠0)
    (hv : base^bignumMaxLimbs≤v.natAbs → u≠0) : wholeCmp w (ofInt w u) (ofInt w v)=.eq ↔
      u=v ∨ base^bignumMaxLimbs≤u.natAbs ∧ base^bignumMaxLimbs≤v.natAbs := by
  cases hx : ofInt w u with
  | none =>
    have hbig := ofInt_none_iff.mp hx
    cases hy : ofInt w v with
    | none => exact ⟨fun _ => .inr ⟨hbig,ofInt_none_iff.mp hy⟩,fun _ => rfl⟩
    | some y =>
      obtain ⟨hok,hyv⟩ := ofInt_some hy
      have hlt := hok.lt
      rw [hyv] at hlt
      constructor
      · intro h
        exact absurd h (wholeCmp_none_left hok (by rw [hyv]; exact hu hbig))
      · intro h
        obtain rfl | h := h <;> omega
  | some x =>
    obtain ⟨hok,hxu⟩ := ofInt_some hx
    have hlt := hok.lt
    rw [hxu] at hlt
    cases hy : ofInt w v with
    | none =>
      have hbig := ofInt_none_iff.mp hy
      constructor
      · intro h
        exact absurd h (wholeCmp_none_right hok (by rw [hxu]; exact hv hbig))
      · intro h
        obtain rfl | h := h <;> omega
    | some y =>
      obtain ⟨hoky,hyv⟩ := ofInt_some hy
      rw [wholeCmp_eq hok hoky,hxu,hyv,compare_eq_iff_eq]
      constructor
      · exact .inl
      · intro h
        obtain h | h := h
        · exact h
        · omega

theorem Real.Ok.parts (h : a.Ok w) : a.num.Ok w ∧ a.den.Ok w ∧ 0 < a.den.toInt ∧
    (a.num.toInt=0 → a.den.toInt=1) ∧ a.toRat=(a.num.toInt : ℚ)/a.den.toInt := by
  cases a with
  | whole v =>
    have hone : (Whole.int 1).Ok w := by cases w <;> exact ⟨by decide,by decide⟩
    refine ⟨h,hone,Int.one_pos,fun _ => rfl,?_⟩
    rw [toRat,num,den,Whole.toInt.eq_1 1,Int.cast_one,div_one]
  | ratio n d =>
    obtain ⟨hn,hd,h1,hg⟩ := h
    refine ⟨hn,hd,by rw [den]; omega,?_,rfl⟩
    intro h0
    rw [num] at h0
    rw [h0,Int.gcd_zero_left] at hg
    rw [den]
    omega

theorem realCmp_eq (ha : a.Ok w) (hb : b.Ok w) : realCmp w a b=.eq ↔ a.toRat=b.toRat ∨
    base^bignumMaxLimbs≤(a.num.toInt*b.den.toInt).natAbs ∧
      base^bignumMaxLimbs≤(b.num.toInt*a.den.toInt).natAbs := by
  obtain ⟨hna,hda,hpa,hza,hra⟩ := ha.parts
  obtain ⟨hnb,hdb,hpb,hzb,hrb⟩ := hb.parts
  have hrat : a.toRat=b.toRat ↔ a.num.toInt*b.den.toInt=b.num.toInt*a.den.toInt := by
    have h1 : (a.den.toInt : ℚ)≠0 := by exact_mod_cast hpa.ne'
    have h2 : (b.den.toInt : ℚ)≠0 := by exact_mod_cast hpb.ne'
    rw [hra,hrb,div_eq_div_iff h1 h2]
    norm_cast
  have hcross : wholeCmp w (bnMul w (some a.num) (some b.den)) (bnMul w (some b.num) (some a.den))=.eq ↔
      a.toRat=b.toRat ∨ base^bignumMaxLimbs≤(a.num.toInt*b.den.toInt).natAbs ∧
        base^bignumMaxLimbs≤(b.num.toInt*a.den.toInt).natAbs := by
    have hlta := hna.lt
    have hltb := hnb.lt
    rw [bnMul_eq hna hdb,bnMul_eq hnb hda,hrat]
    apply ofInt_cmp
    · intro hbig h0
      have hz := (Int.mul_eq_zero.mp h0).resolve_right hpa.ne'
      rw [hzb hz,Int.mul_one] at hbig
      omega
    · intro hbig h0
      have hz := (Int.mul_eq_zero.mp h0).resolve_right hpb.ne'
      rw [hza hz,Int.mul_one] at hbig
      omega
  cases a with
  | ratio n d => exact hcross
  | whole x =>
    cases b with
    | ratio n d => exact hcross
    | whole y =>
      rw [realCmp,wholeCmp_eq ha hb,compare_eq_iff_eq,hrat]
      have hx := Whole.Ok.lt ha
      simp only [Real.num,Real.den,Whole.toInt.eq_1 1,Int.mul_one]
      constructor
      · exact .inl
      · intro h
        obtain h | h := h
        · exact h
        · omega

theorem Real.Ok.coprime (h : a.Ok w) : Nat.Coprime a.num.toInt.natAbs a.den.toInt.natAbs := by
  cases a with
  | whole v => exact Nat.coprime_one_right _
  | ratio n d => exact h.2.2.2

theorem Real.Ok.unique (ha : a.Ok w) (hb : b.Ok w) (h : a.toRat=b.toRat) :
    a.num.toInt=b.num.toInt ∧ a.den.toInt=b.den.toInt := by
  rw [ha.parts.2.2.2.2,hb.parts.2.2.2.2] at h
  exact Rat.div_int_inj ha.parts.2.2.1 hb.parts.2.2.1 ha.coprime hb.coprime h

theorem Real.Ok.wide_iff (h : a.Ok w) : a.Wide ↔ 1 < a.den.toInt ∧ 2≤a.num.toInt.natAbs := by
  cases a with
  | whole v => exact ⟨False.elim,fun h => absurd h.1 (by rw [den,Whole.toInt]; decide)⟩
  | ratio n d => exact ⟨fun hw => ⟨h.2.2.1,hw⟩,And.right⟩

theorem Real.Ok.wide_congr (ha : a.Ok w) (hb : b.Ok w) (h : a.toRat=b.toRat) : a.Wide ↔ b.Wide := by
  obtain ⟨hn,hd⟩ := ha.unique hb h
  rw [ha.wide_iff,hb.wide_iff,hn,hd]

theorem realCmp_self (h : a.Ok w) : realCmp w a a=.eq := (realCmp_eq h h).mpr (.inl rfl)

theorem realCmp_similar (ha : a.Ok w) (hb : b.Ok w) (h : realCmp w a b=.eq) : a.Similar b := by
  obtain h | ⟨h1,h2⟩ := (realCmp_eq ha hb).mp h
  · exact .inl h
  · obtain ⟨hna,hda,hpa,_⟩ := ha.parts
    obtain ⟨hnb,hdb,hpb,_⟩ := hb.parts
    have hlt {x y : Whole} (hx : x.Ok w) (hy : y.Ok w)
        (h : base^bignumMaxLimbs≤(x.toInt*y.toInt).natAbs) :
        2≤x.toInt.natAbs ∧ 2≤y.toInt.natAbs := by
      have hx' := hx.lt
      have hy' := hy.lt
      rw [Int.natAbs_mul] at h
      constructor
      · by_contra hc
        have := Nat.mul_le_mul_right y.toInt.natAbs (by omega : x.toInt.natAbs≤1)
        omega
      · by_contra hc
        have := Nat.mul_le_mul_left x.toInt.natAbs (by omega : y.toInt.natAbs≤1)
        omega
    have hab := hlt hna hdb h1
    have hba := hlt hnb hda h2
    exact .inr ⟨ha.wide_iff.mpr (by omega),hb.wide_iff.mpr (by omega)⟩

theorem Real.Similar.euclid (ha : a.Ok w) (hb : b.Ok w) (hc : c.Ok w) (h1 : a.Similar b)
    (h2 : a.Similar c) : b.Similar c := by
  obtain h1 | h1 := h1
  · obtain h2 | h2 := h2
    · exact .inl (h1.symm.trans h2)
    · exact .inr ⟨(ha.wide_congr hb h1).mp h2.1,h2.2⟩
  · obtain h2 | h2 := h2
    · exact .inr ⟨h1.2,(ha.wide_congr hc h2).mp h1.1⟩
    · exact .inr ⟨h1.2,h2.2⟩

theorem big_ok (w : LongSize) {n : Nat} (h : 2^63≤n) (hlt : n<base^bignumMaxLimbs) :
    (Whole.big 1 (base.digits n)).Ok w ∧ (Whole.big 1 (base.digits n)).toInt=n := by
  have hlong : longMax w<2^63 := by cases w <;> decide
  constructor
  · refine ⟨.inl rfl,?_,?_,?_⟩
    · rw [value_digits]
    · rw [value_digits]
      omega
    · rw [value_digits]
      exact hlt
  · rw [Whole.toInt,value_digits,Int.one_mul]

theorem cap_large : 2^63+2<base^bignumMaxLimbs := by decide +kernel

theorem huge_parts (w : LongSize) : huge.Ok w ∧ huge.num.toInt=(base^bignumMaxLimbs-1 : Nat) ∧
    huge.den.toInt=(base^bignumMaxLimbs-2 : Nat) := by
  have hcap := cap_large
  obtain ⟨hno,hn⟩ := big_ok w (n := base^bignumMaxLimbs-1) (by omega) (by omega)
  obtain ⟨hdo,hd⟩ := big_ok w (n := base^bignumMaxLimbs-2) (by omega) (by omega)
  refine ⟨⟨hno,hdo,by omega,?_⟩,hn,hd⟩
  have hnext : base^bignumMaxLimbs-1=base^bignumMaxLimbs-2+1 := by omega
  rw [hn,hd,hnext]
  exact Nat.coprime_self_add_left.mpr (Nat.coprime_one_left _)

theorem huge_cmp (ha : a.Ok w) (h : a.Wide) : realCmp w huge a=.eq := by
  have hcap := cap_large
  obtain ⟨hok,hn,hd⟩ := huge_parts w
  obtain ⟨h1,h2⟩ := ha.wide_iff.mp h
  apply (realCmp_eq hok ha).mpr
  right
  rw [hn,hd,Int.natAbs_mul,Int.natAbs_mul,Int.natAbs_natCast,Int.natAbs_natCast]
  constructor
  · have := Nat.mul_le_mul_left (base^bignumMaxLimbs-1) (by omega : 2≤a.den.toInt.natAbs)
    omega
  · have := Nat.mul_le_mul_right (base^bignumMaxLimbs-2) h2
    omega

theorem Real.Similar.widen (ha : a.Ok w) (hb : b.Ok w) (h : a.Similar b) :
    a.widen.Ok w ∧ realCmp w a.widen b=.eq := by
  rw [Real.widen]
  obtain h | h := h
  · by_cases hw : a.Wide
    · rw [if_pos hw]
      exact ⟨(huge_parts w).1,huge_cmp hb ((ha.wide_congr hb h).mp hw)⟩
    · rw [if_neg hw]
      exact ⟨ha,(realCmp_eq ha hb).mpr (.inl h)⟩
  · rw [if_pos h.1]
    exact ⟨(huge_parts w).1,huge_cmp hb h.2⟩

end Compare

/-- The parts are similar, and both numbers are complex or none is. -/
def Number.Similar : Number → Number → Prop
  | .real a,.real b => a.Similar b
  | .complex a b,.complex c d => a.Similar c ∧ b.Similar d
  | _,_ => False

def Number.widen : Number → Number
  | .real a => .real a.widen
  | .complex a b => .complex a.widen b.widen

section Numbers

variable {w : LongSize} {a b c : Number}

theorem numCmp_real (a b : Real) : numCmp w (.real a) (.real b)=realCmp w a b := rfl

theorem numCmp_complex (h : a.isComplex=true ∨ b.isComplex=true) : numCmp w a b=.eq ↔
    realCmp w a.parts.1 b.parts.1=.eq ∧ realCmp w a.parts.2 b.parts.2=.eq := by
  rw [numCmp,if_pos h]
  split_ifs with hc
  · exact ⟨fun _ => hc,fun _ => rfl⟩
  · exact ⟨fun h => absurd h (by decide),fun h => absurd h hc⟩

theorem numCmp_self (h : a.Ok w) : numCmp w a a=.eq := by
  cases a with
  | real r => exact realCmp_self h
  | complex re im =>
    exact (numCmp_complex (.inl rfl)).mpr ⟨realCmp_self h.1,realCmp_self h.2.1⟩

theorem zero_cmp {r : Real} (h : r.Ok w) (h0 : r.num.toInt≠0) :
    realCmp w (.whole (.int 0)) r≠.eq ∧ realCmp w r (.whole (.int 0))≠.eq := by
  have hzero : (Real.whole (.int 0)).Ok w := by cases w <;> exact ⟨by decide,by decide⟩
  have hcap := cap_large
  have hrat : r.toRat≠(Real.whole (.int 0)).toRat := fun he => h0 ((h.unique hzero he).1)
  have hmul (x : Int) : ((Real.whole (.int 0)).num.toInt*x).natAbs=0 := by
    rw [Int.natAbs_mul]
    exact Nat.zero_mul _
  constructor
  · intro hc
    obtain hc | hc := (realCmp_eq hzero h).mp hc
    · exact hrat hc.symm
    · rw [hmul] at hc
      omega
  · intro hc
    obtain hc | hc := (realCmp_eq h hzero).mp hc
    · exact hrat hc
    · rw [hmul] at hc
      omega

theorem numCmp_similar (ha : a.Ok w) (hb : b.Ok w) (h : numCmp w a b=.eq) : a.Similar b := by
  cases a with
  | real r =>
    cases b with
    | real s => exact realCmp_similar ha hb h
    | complex re im =>
      have hc := (numCmp_complex (.inr rfl)).mp h
      exact absurd hc.2 (zero_cmp hb.2.1 hb.2.2).1
  | complex re im =>
    have hc := (numCmp_complex (.inl rfl)).mp h
    cases b with
    | real s => exact absurd hc.2 (zero_cmp ha.2.1 ha.2.2).2
    | complex re' im' => exact ⟨realCmp_similar ha.1 hb.1 hc.1,realCmp_similar ha.2.1 hb.2.1 hc.2⟩

theorem Number.Similar.euclid (ha : a.Ok w) (hb : b.Ok w) (hc : c.Ok w) (h1 : a.Similar b)
    (h2 : a.Similar c) : b.Similar c := by
  cases a with
  | real r =>
    cases b with
    | complex _ _ => exact h1.elim
    | real s =>
      cases c with
      | complex _ _ => exact h2.elim
      | real t => exact Real.Similar.euclid ha hb hc h1 h2
  | complex re im =>
    cases b with
    | real _ => exact h1.elim
    | complex re1 im1 =>
      cases c with
      | real _ => exact h2.elim
      | complex re2 im2 =>
        exact ⟨h1.1.euclid ha.1 hb.1 hc.1 h2.1,h1.2.euclid ha.2.1 hb.2.1 hc.2.1 h2.2⟩

theorem Number.Similar.widen (ha : a.Ok w) (hb : b.Ok w) (h : a.Similar b) :
    a.widen.Ok w ∧ numCmp w a.widen b=.eq := by
  cases a with
  | real r =>
    cases b with
    | complex _ _ => exact h.elim
    | real s => exact Real.Similar.widen ha hb h
  | complex re im =>
    cases b with
    | real _ => exact h.elim
    | complex re' im' =>
      obtain ⟨hre,hre'⟩ := h.1.widen ha.1 hb.1
      obtain ⟨him,him'⟩ := h.2.widen ha.2.1 hb.2.1
      have h0 : im.widen.num.toInt≠0 := by
        have hcap := cap_large
        rw [Real.widen]
        split_ifs
        · rw [(huge_parts w).2.1]
          omega
        · exact ha.2.2
      exact ⟨⟨hre,him,h0⟩,(numCmp_complex (.inl rfl)).mpr ⟨hre',him'⟩⟩

end Numbers

end LugalOS.Lisp
