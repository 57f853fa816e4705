import LugalOS.Lisp.Bignum

namespace LugalOS.Lisp

open Limbs

/-- __SIZEOF_LONG__. -/
inductive LongSize
  | four
  | eight
  deriving DecidableEq,Repr

def LongSize.bits : LongSize → Nat
  | four => 32
  | eight => 64

def LongSize.limbs : LongSize → Nat
  | four => 1
  | eight => 2

def longMax (w : LongSize) : Int := 2^(w.bits-1)-1
def longMin (w : LongSize) : Int := -2^(w.bits-1)

/-- LISP_INT and LISP_BIGNUM. -/
inductive Whole
  | int (i : Int)
  | big (sign : Int) (limbs : List Nat)
  deriving DecidableEq,Repr

def Whole.toInt : Whole → Int
  | int i => i
  | big sign limbs => sign*value base limbs

/-- A long, or the limbs of a number whose amount is over the largest one. The least long has both
forms: num_neg leaves it in limbs. -/
def Whole.Ok (w : LongSize) : Whole → Prop
  | int i => longMin w≤ i ∧ i≤longMax w
  | big sign limbs => (sign=1 ∨ sign=-1) ∧ limbs=base.digits (value base limbs) ∧
      longMax w < value base limbs ∧ value base limbs<base^bignumMaxLimbs

def sgn (z : Int) : Int := if z<0 then -1 else 1

/-- int_to_limbs: the sign and the limbs. -/
def intToLimbs (w : LongSize) (v : Int) : Int × List Nat :=
  if v=0 then (1,[])
  else
    let uval := v.natAbs
    let limbs :=
      match w with
      | .eight => if uval/base≠0 then [uval%base,uval/base] else [uval%base]
      | .four => [uval]
    (sgn v,limbs)

/-- get_num_limbs; nil has none. -/
def getNumLimbs (w : LongSize) : Option Whole → Int × List Nat
  | some (.int i) => intToLimbs w i
  | some (.big sign limbs) => (sign,limbs)
  | none => (1,[])

def bnDemoteIfPossible (w : LongSize) (sign : Int) (limbs : List Nat) : Whole :=
  let limbs := bnNormalize limbs
  let v := value base limbs
  if limbs=[] then .int 0
  else if limbs.length≤w.limbs ∧ (0<sign ∧ v≤longMax w ∨ sign<0 ∧ v≤longMax w+1) then
    .int (if 0<sign then v else -v)
  else .big sign limbs

/-- alloc_limbs, memcpy and bn_demote_if_possible, with which every result is made; none is nil. A slot
is taken to be there for what is not too long. -/
def bnMake (w : LongSize) (sign : Int) (limbs : List Nat) : Option Whole :=
  if bignumMaxLimbs < limbs.length then none else some (bnDemoteIfPossible w sign limbs)

/-- bn_add; bn_sub is the same with the second sign turned round. -/
def bnAddSigned (w : LongSize) (a b : Int × List Nat) : Option Whole :=
  if a.1=b.1 then bnMake w a.1 (bnNormalize (bnAddAbs a.2 b.2))
  else
    match bnCmpAbs a.2 b.2 with
    | .eq => some (.int 0)
    | .gt => bnMake w a.1 (bnNormalize (bnSubAbs a.2 b.2))
    | .lt => bnMake w b.1 (bnNormalize (bnSubAbs b.2 a.2))

def bnAdd (w : LongSize) (a b : Option Whole) : Option Whole :=
  bnAddSigned w (getNumLimbs w a) (getNumLimbs w b)

def bnMul (w : LongSize) (a b : Option Whole) : Option Whole :=
  let a := getNumLimbs w a
  let b := getNumLimbs w b
  if a.2=[] ∨ b.2=[] then some (.int 0)
  else bnMake w (a.1*b.1) (bnNormalize (bnMulAbs a.2 b.2))

/-- A buffer on the stack; what it holds before makes no difference. -/
def stackBuf : List Nat := List.replicate bignumBuf 0

/-- bn_div_rem: the quotient and the remainder. -/
def bnDivRem (w : LongSize) (a b : Option Whole) : Option Whole × Option Whole :=
  let a := getNumLimbs w a
  let b := getNumLimbs w b
  if b.2=[] then (none,none)
  else
    let (q,r) :=
      if b.2.length=1 then
        let (q,rem) := bnDivSingle a.2 (b.2.getD 0 0)
        (bnNormalize q,if rem=0 then [] else [rem])
      else
        match bnDivMulti stackBuf stackBuf a.2 b.2 with
        | some (q,r,_) => (q,r)
        | none => ([],[])
    (bnMake w (a.1*b.1) q,bnMake w a.1 r)

/-- num_neg of a whole number. -/
def numNeg (w : LongSize) : Whole → Option Whole
  | .int i => if i=longMin w then some (.big (-(intToLimbs w i).1) (intToLimbs w i).2) else some (.int (-i))
  | .big sign limbs => if bignumMaxLimbs < limbs.length then none else some (.big (-sign) limbs)

def fitsLong (w : LongSize) (z : Int) : Bool := decide (longMin w≤z) && decide (z≤longMax w)

/-- num_add of whole numbers; nil with any other. -/
def numAdd (w : LongSize) : Option Whole → Option Whole → Option Whole
  | some (.int i),some (.int j) =>
    if fitsLong w (i+j) then some (.int (i+j)) else bnAdd w (some (.int i)) (some (.int j))
  | some a,some b => bnAdd w (some a) (some b)
  | _,_ => none

/-- num_mul of whole numbers. -/
def numMul (w : LongSize) : Option Whole → Option Whole → Option Whole
  | some (.int i),some (.int j) =>
    if fitsLong w (i*j) then some (.int (i*j)) else bnMul w (some (.int i)) (some (.int j))
  | some a,some b => bnMul w (some a) (some b)
  | _,_ => none

/-- num_cmp of whole numbers; nil has no limbs and compares as 0 does. -/
def wholeCmp (w : LongSize) (a b : Option Whole) : Ordering :=
  match a,b with
  | some (.int i),some (.int j) => compare i j
  | a,b =>
    let a := getNumLimbs w a
    let b := getNumLimbs w b
    if a.2=[] ∧ b.2=[] then .eq
    else if a.2=[] then (if 0<b.1 then .lt else .gt)
    else if b.2=[] then (if 0<a.1 then .gt else .lt)
    else if a.1≠b.1 then compare a.1 b.1
    else if 0<a.1 then bnCmpAbs a.2 b.2 else (bnCmpAbs a.2 b.2).swap

def wholeIsZero : Whole → Bool
  | .int i => i==0
  | .big _ limbs => limbs==[]

def wholeIsNegative : Whole → Bool
  | .int i => decide (i<0)
  | .big sign _ => decide (sign<0)

/-- The loop of num_expt_pos, n turns of it at most. -/
def exptLoop (w : LongSize) : Nat → Nat → Whole → Whole → Option Whole
  | 0,_,_,_ => none
  | n+1,p,acc,cur =>
    if p=0 then some acc
    else do
      let acc ← (if p&&&1≠0 then numMul w (some acc) (some cur) else some acc)
      let cur ← (if p>>>1≠0 then numMul w (some cur) (some cur) else some cur)
      exptLoop w n (p>>>1) acc cur

/-- num_expt_pos of a whole number. -/
def numExptPos (w : LongSize) (b : Whole) (p : Nat) : Option Whole :=
  if p=0 then some (.int 1)
  else if p=1 then some b
  else if wholeIsZero b then some (.int 0)
  else exptLoop w (p+1) p (.int 1) b

/-- The number a whole number is, in the form all results have; none where it has too many limbs. -/
def ofInt (w : LongSize) (z : Int) : Option Whole :=
  if longMin w≤z ∧ z≤longMax w then some (.int z)
  else if z.natAbs<base^bignumMaxLimbs then some (.big (sgn z) (base.digits z.natAbs))
  else none

section Limbs

variable {w : LongSize} {v a b : Whole} {z : Int}

theorem sgn_mul_natAbs (z : Int) : sgn z*z.natAbs=z := by
  rw [sgn]
  split_ifs <;> omega

theorem sgn_cases (z : Int) : sgn z=1 ∧ 0≤z ∨ sgn z=-1 ∧ z<0 := by
  rw [sgn]
  split_ifs <;> omega

theorem long_bounds (w : LongSize) : longMax w+1=(base^w.limbs/2 : Nat) ∧
    longMin w=-(longMax w+1) ∧ 0 < longMax w ∧ (longMax w+1).toNat<base^bignumMaxLimbs := by
  cases w <;> decide +kernel

theorem intToLimbs_eq (h1 : longMin w≤z) (h2 : z≤longMax w) :
    intToLimbs w z=(sgn z,base.digits z.natAbs) := by
  rw [intToLimbs]
  by_cases h0 : z=0
  · simp [h0,sgn]
  have hpos : 0 < z.natAbs := Int.natAbs_pos.mpr h0
  rw [if_neg h0]
  refine Prod.ext rfl ?_
  cases w with
  | four =>
    have hlt : z.natAbs<base := by
      simp only [longMin,longMax,LongSize.bits] at h1 h2
      rw [base]
      omega
    exact (Nat.digits_of_lt base _ (by omega) hlt).symm
  | eight =>
    have hlt : z.natAbs/base<base := by
      simp only [longMin,longMax,LongSize.bits] at h1 h2
      rw [base]
      omega
    dsimp only
    rw [digits_pos hpos]
    by_cases hq : z.natAbs/base=0
    · rw [if_neg (not_not_intro hq),hq,Nat.digits_zero]
    · rw [if_pos hq,Nat.digits_of_lt base _ hq hlt]

theorem Whole.Ok.limbs (h : v.Ok w) :
    getNumLimbs w (some v)=(sgn v.toInt,base.digits v.toInt.natAbs) := by
  cases v with
  | int i => exact intToLimbs_eq h.1 h.2
  | big sign limbs =>
    obtain ⟨hs,hl,hmax,_⟩ := h
    have := (long_bounds w).2.2.1
    rw [getNumLimbs,Whole.toInt]
    cases hs with
    | inl hs =>
      have habs : (sign*(value base limbs : Int)).natAbs=value base limbs := by
        rw [hs]
        omega
      rw [habs,← hl,hs,sgn,if_neg (by omega)]
    | inr hs =>
      have habs : (sign*(value base limbs : Int)).natAbs=value base limbs := by
        rw [hs]
        omega
      rw [habs,← hl,hs,sgn,if_pos (by omega)]

theorem Whole.Ok.lt (h : v.Ok w) : v.toInt.natAbs<base^bignumMaxLimbs := by
  cases v with
  | int i =>
    have hb := long_bounds w
    have h1 : longMin w≤ i := h.1
    have h2 : i≤longMax w := h.2
    rw [Whole.toInt]
    omega
  | big sign limbs =>
    obtain ⟨hs,_,_,hlt⟩ := h
    have habs : (sign*(value base limbs : Int)).natAbs=value base limbs := by
      obtain hs | hs := hs <;> rw [hs] <;> omega
    rw [Whole.toInt,habs]
    exact hlt

theorem ofInt_some (h : ofInt w z=some v) : v.Ok w ∧ v.toInt=z := by
  rw [ofInt] at h
  split_ifs at h with h1 h2
  · cases h
    exact ⟨h1,rfl⟩
  · cases h
    have hb := long_bounds w
    refine ⟨⟨?_,?_,?_,?_⟩,?_⟩
    · exact (sgn_cases z).imp And.left And.left
    · rw [value_digits]
    · rw [value_digits]
      omega
    · rw [value_digits]
      exact h2
    · rw [Whole.toInt,value_digits]
      exact sgn_mul_natAbs z

theorem ofInt_isSome (h : z.natAbs<base^bignumMaxLimbs) : ∃v,ofInt w z=some v := by
  rw [ofInt]
  split_ifs
  · exact ⟨_,rfl⟩
  · exact ⟨_,rfl⟩

theorem Whole.Ok.ofInt (h : v.Ok w) (h0 : 0≤v.toInt) : ofInt w v.toInt=some v := by
  cases v with
  | int i =>
    have hi : longMin w≤ i ∧ i≤longMax w := h
    rw [Lisp.ofInt,Whole.toInt,if_pos hi]
  | big sign limbs =>
    obtain ⟨hs,hl,hmax,hlt⟩ := h
    have hb := long_bounds w
    have hs1 : sign=1 := by
      cases hs with
      | inl hs => exact hs
      | inr hs =>
        rw [Whole.toInt,hs] at h0
        omega
    rw [Whole.toInt,hs1,Int.one_mul,Lisp.ofInt,if_neg (by omega),Int.natAbs_natCast,if_pos hlt,
      sgn,if_neg (by omega),← hl]

theorem bnMake_eq {sign : Int} (hs : sign=1 ∨ sign=-1) (n : Nat) :
    bnMake w sign (base.digits n)=ofInt w (sign*n) := by
  have hb := long_bounds w
  have hlong : bignumMaxLimbs < (base.digits n).length ↔ base^bignumMaxLimbs≤n :=
    Nat.lt_digits_length_iff one_lt_base n
  have hfew : n≤(longMax w+1).toNat → (base.digits n).length≤w.limbs := by
    intro hn
    by_contra hlt
    have := (Nat.lt_digits_length_iff one_lt_base n).mp (Nat.not_le.mp hlt)
    omega
  have habs : (sign*(n : Int)).natAbs=n := by
    obtain hs | hs := hs <;> rw [hs] <;> omega
  rw [bnMake,ofInt,habs]
  by_cases hn : base^bignumMaxLimbs≤n
  · rw [if_pos (hlong.mpr hn),if_neg (by obtain hs | hs := hs <;> rw [hs] <;> omega),
      if_neg (Nat.not_lt.mpr hn)]
  rw [if_neg (fun h => hn (hlong.mp h)),if_pos (Nat.not_le.mp hn),bnDemoteIfPossible,
    bnNormalize_digits,value_digits]
  by_cases h0 : n=0
  · simp only [h0,Nat.digits_zero,if_true]
    rw [if_pos (by simp; omega)]
    simp
  rw [if_neg fun h => h0 (Nat.digits_eq_nil_iff_eq_zero.mp h)]
  by_cases hin : longMin w≤ sign*n ∧ sign*n≤longMax w
  · have hle : n≤(longMax w+1).toNat := by
      obtain hs | hs := hs <;> rw [hs] at hin <;> omega
    rw [if_pos hin,if_pos ⟨hfew hle,by obtain hs | hs := hs <;> rw [hs] at hin ⊢ <;> omega⟩]
    obtain hs | hs := hs <;> simp [hs]
  · rw [if_neg hin,if_neg (by
      intro h
      obtain hs | hs := hs <;> rw [hs] at hin h <;> omega)]
    have hsgn : sgn (sign*n)=sign := by
      rw [sgn]
      obtain hs | hs := hs <;> rw [hs]
      · rw [if_neg (by omega)]
      · rw [if_pos (by omega)]
    rw [hsgn]

end Limbs

section Operations

variable {w : LongSize} {a b v : Whole}

theorem sub_digits {m n : Nat} (h : m≤n) :
    bnNormalize (bnSubAbs (base.digits n) (base.digits m))=base.digits (n-m) := by
  obtain ⟨h1,h2,_⟩ := bnSubAbs_spec (digits_limbs n) (digits_limbs m)
    (by rw [value_digits,value_digits]; exact h)
  rw [bnNormalize_eq h1,h2,value_digits,value_digits]

theorem bnAddSigned_eq (x y : Int) : bnAddSigned w (sgn x,base.digits x.natAbs)
    (sgn y,base.digits y.natAbs)=ofInt w (x+y) := by
  have hx := sgn_mul_natAbs x
  have hy := sgn_mul_natAbs y
  have hsx := (sgn_cases x).imp And.left And.left
  have hsy := (sgn_cases y).imp And.left And.left
  rw [bnAddSigned]
  by_cases hs : sgn x=sgn y
  · obtain ⟨h1,h2,_⟩ := bnAddAbs_spec (digits_limbs x.natAbs) (digits_limbs y.natAbs)
    rw [if_pos hs,bnNormalize_eq h1,h2,value_digits,value_digits,bnMake_eq hsx]
    congr 1
    rw [Int.natCast_add,Int.mul_add,hx,hs,hy]
  · have hopp : sgn y=-sgn x := by omega
    rw [if_neg hs,bnCmpAbs_eq (digits_limbs _) (digits_limbs _),value_digits,value_digits]
    cases hc : compare x.natAbs y.natAbs with
    | eq =>
      have he := Nat.compare_eq_eq.mp hc
      have h0 : x+y=0 := by
        rw [← hx,← hy,hopp,he,Int.neg_mul,Int.add_right_neg]
      have := long_bounds w
      rw [h0,ofInt,if_pos (by omega)]
    | gt =>
      have hlt := Nat.compare_eq_gt.mp hc
      dsimp only
      rw [sub_digits (Nat.le_of_lt hlt),bnMake_eq hsx]
      congr 1
      rw [Int.ofNat_sub (Nat.le_of_lt hlt),Int.mul_sub,hx]
      rw [hopp,Int.neg_mul] at hy
      omega
    | lt =>
      have hlt := Nat.compare_eq_lt.mp hc
      dsimp only
      rw [sub_digits (Nat.le_of_lt hlt),bnMake_eq hsy]
      congr 1
      rw [Int.ofNat_sub (Nat.le_of_lt hlt),Int.mul_sub,hy]
      rw [hopp,Int.neg_mul]
      omega

theorem bnAdd_eq (ha : a.Ok w) (hb : b.Ok w) :
    bnAdd w (some a) (some b)=ofInt w (a.toInt+b.toInt) := by
  rw [bnAdd,ha.limbs,hb.limbs,bnAddSigned_eq]

theorem numAdd_eq (ha : a.Ok w) (hb : b.Ok w) :
    numAdd w (some a) (some b)=ofInt w (a.toInt+b.toInt) := by
  rw [← bnAdd_eq ha hb]
  cases a with
  | big _ _ => rfl
  | int i =>
    cases b with
    | big _ _ => rfl
    | int j =>
      rw [numAdd]
      by_cases h : fitsLong w (i+j)=true
      · rw [if_pos h,bnAdd_eq ha hb,ofInt]
        simp only [fitsLong,Bool.and_eq_true,decide_eq_true_eq] at h
        exact (if_pos h).symm
      · rw [if_neg h]

theorem sgn_mul (x y : Int) : (sgn x*sgn y=1 ∨ sgn x*sgn y=-1) ∧
    sgn x*sgn y*((x.natAbs*y.natAbs : Nat) : Int)=x*y := by
  constructor
  · obtain ⟨hx,_⟩ | ⟨hx,_⟩ := sgn_cases x <;> obtain ⟨hy,_⟩ | ⟨hy,_⟩ := sgn_cases y <;>
      rw [hx,hy] <;> decide
  · rw [Int.natCast_mul,show sgn x*sgn y*((x.natAbs : Int)*y.natAbs)=
      (sgn x*x.natAbs)*(sgn y*y.natAbs) by ring,sgn_mul_natAbs,sgn_mul_natAbs]

theorem ofInt_zero (w : LongSize) : ofInt w 0=some (.int 0) := by
  have := long_bounds w
  rw [ofInt,if_pos (by omega)]

theorem digits_nil {z : Int} : base.digits z.natAbs=[] ↔ z=0 := by
  rw [Nat.digits_eq_nil_iff_eq_zero,Int.natAbs_eq_zero]

theorem bnMul_eq (ha : a.Ok w) (hb : b.Ok w) :
    bnMul w (some a) (some b)=ofInt w (a.toInt*b.toInt) := by
  obtain ⟨hs,hmul⟩ := sgn_mul a.toInt b.toInt
  rw [bnMul,ha.limbs,hb.limbs]
  simp only [digits_nil]
  by_cases h0 : a.toInt=0 ∨ b.toInt=0
  · have hz : a.toInt*b.toInt=0 := Int.mul_eq_zero.mpr h0
    rw [if_pos h0,hz,ofInt_zero]
  · obtain ⟨h1,h2,_⟩ := bnMulAbs_spec (digits_limbs a.toInt.natAbs) (digits_limbs b.toInt.natAbs)
    rw [if_neg h0,bnNormalize_eq h1,h2,value_digits,value_digits,bnMake_eq hs,hmul]

theorem numMul_eq (ha : a.Ok w) (hb : b.Ok w) :
    numMul w (some a) (some b)=ofInt w (a.toInt*b.toInt) := by
  rw [← bnMul_eq ha hb]
  cases a with
  | big _ _ => rfl
  | int i =>
    cases b with
    | big _ _ => rfl
    | int j =>
      rw [numMul]
      by_cases h : fitsLong w (i*j)=true
      · rw [if_pos h,bnMul_eq ha hb,ofInt]
        simp only [fitsLong,Bool.and_eq_true,decide_eq_true_eq] at h
        exact (if_pos h).symm
      · rw [if_neg h]

theorem bnDivRem_eq (ha : a.Ok w) (hb : b.Ok w) (ha0 : 0≤a.toInt) (hb0 : 0 < b.toInt) :
    bnDivRem w (some a) (some b)=(ofInt w (a.toInt/b.toInt),ofInt w (a.toInt%b.toInt)) := by
  have hsa : sgn a.toInt=1 := by rw [sgn,if_neg (by omega)]
  have hsb : sgn b.toInt=1 := by rw [sgn,if_neg (by omega)]
  have hla := ha.lt
  have hlb := hb.lt
  obtain ⟨x,hx⟩ := Int.eq_ofNat_of_zero_le ha0
  obtain ⟨y,hy⟩ := Int.eq_ofNat_of_zero_le (Int.le_of_lt hb0)
  have hy0 : 0<y := by omega
  have hlen {n : Nat} (h : n<base^bignumMaxLimbs) : (base.digits n).length≤bignumMaxLimbs := by
    by_contra hlt
    exact absurd ((Nat.lt_digits_length_iff one_lt_base n).mp (Nat.not_le.mp hlt)) (Nat.not_le.mpr h)
  rw [bnDivRem,ha.limbs,hb.limbs,hsa,hsb]
  rw [hx,Int.natAbs_natCast] at hla
  rw [hy,Int.natAbs_natCast] at hlb
  rw [hx,hy,Int.natAbs_natCast,Int.natAbs_natCast]
  have hmake (n : Nat) : bnMake w 1 (base.digits n)=ofInt w n := by
    rw [bnMake_eq (.inl rfl),Int.one_mul]
  have hquot : ofInt w ((x : Int)/y)=bnMake w 1 (base.digits (x/y)) := by
    rw [hmake,Int.natCast_ediv]
  have hrem : ofInt w ((x : Int)%y)=bnMake w 1 (base.digits (x%y)) := by
    rw [hmake,Int.natCast_emod]
  dsimp only
  rw [if_neg fun h => absurd (Nat.digits_eq_nil_iff_eq_zero.mp h) (by omega),hquot,hrem]
  by_cases h1 : (base.digits y).length=1
  · have hyb : y<base := by
      by_contra hge
      have := (Nat.lt_digits_length_iff (k := 1) one_lt_base y).mpr
        (by rw [pow_one]; exact Nat.not_lt.mp hge)
      omega
    have hdig : base.digits y=[y] := Nat.digits_of_lt base y (by omega) hyb
    rw [if_pos h1,hdig,List.getD_cons_zero]
    obtain ⟨hval,hlt,hlimbs,_⟩ := bnDivSingle_spec (digits_limbs x) hy0
    rw [value_digits] at hval
    obtain ⟨hq,hr⟩ := (Nat.div_mod_unique hy0).mpr
      ⟨(Nat.add_comm _ _).trans ((congrArg (·+_) (Nat.mul_comm _ _)).trans hval),hlt⟩
    dsimp only
    rw [bnNormalize_eq hlimbs,← hq,← hr,Int.mul_one]
    by_cases h0 : x%y=0
    · rw [if_pos h0,h0,Nat.digits_zero]
    · rw [if_neg h0,Nat.digits_of_lt base _ h0 (Nat.lt_trans (Nat.mod_lt _ hy0) hyb)]
  · have hbuf : Limbs32 stackBuf := zeros_limbs _
    have hsize : stackBuf.length=bignumMaxLimbs+4 := List.length_replicate
    obtain ⟨s,hs,_⟩ := bnDivMulti_spec hbuf hbuf (digits_limbs x) (digits_limbs y)
      (by rw [value_digits]; exact hy0) (by have := hlen hla; omega) (by have := hlen hlb; omega)
    rw [value_digits,value_digits] at hs
    rw [if_neg h1,hs]
    dsimp only
    rw [Int.mul_one]

theorem wholeCmp_eq (ha : a.Ok w) (hb : b.Ok w) :
    wholeCmp w (some a) (some b)=compare a.toInt b.toInt := by
  have hlimbs : (if base.digits a.toInt.natAbs=[] ∧ base.digits b.toInt.natAbs=[] then Ordering.eq
      else if base.digits a.toInt.natAbs=[] then (if 0<sgn b.toInt then .lt else .gt)
      else if base.digits b.toInt.natAbs=[] then (if 0<sgn a.toInt then .gt else .lt)
      else if sgn a.toInt≠sgn b.toInt then compare (sgn a.toInt) (sgn b.toInt)
      else if 0<sgn a.toInt then bnCmpAbs (base.digits a.toInt.natAbs) (base.digits b.toInt.natAbs)
      else (bnCmpAbs (base.digits a.toInt.natAbs) (base.digits b.toInt.natAbs)).swap)=
      compare a.toInt b.toInt := by
    rw [bnCmpAbs_eq (digits_limbs _) (digits_limbs _),value_digits,value_digits]
    generalize a.toInt=x
    generalize b.toInt=y
    simp only [digits_nil]
    have hsx := sgn_cases x
    have hsy := sgn_cases y
    have hlt : x<y → compare x y=.lt := fun h => compare_lt_iff_lt.mpr h
    have hgt : y<x → compare x y=.gt := fun h => compare_gt_iff_gt.mpr h
    split_ifs with h1 h2 h3 h4 h5 h6 h7
    · rw [h1.1,h1.2]
      rfl
    · exact (hlt (by omega)).symm
    · exact (hgt (by omega)).symm
    · exact (hgt (by omega)).symm
    · exact (hlt (by omega)).symm
    · by_cases h : x<y
      · rw [hlt h]
        exact compare_lt_iff_lt.mpr (by omega)
      · rw [hgt (by omega)]
        exact compare_gt_iff_gt.mpr (by omega)
    · have : compare x.natAbs y.natAbs=compare x y := by
        by_cases h : x<y
        · rw [hlt h]
          exact compare_lt_iff_lt.mpr (by omega)
        · by_cases he : x=y
          · rw [he]
            simp
          · rw [hgt (by omega)]
            exact compare_gt_iff_gt.mpr (by omega)
      exact this
    · have : compare x.natAbs y.natAbs=(compare x y).swap := by
        by_cases h : x<y
        · rw [hlt h]
          exact compare_gt_iff_gt.mpr (by omega)
        · by_cases he : x=y
          · rw [he]
            simp
          · rw [hgt (by omega)]
            exact compare_lt_iff_lt.mpr (by omega)
      rw [this,Ordering.swap_swap]
  have hla := ha.limbs
  have hlb := hb.limbs
  cases a with
  | big _ _ =>
    rw [wholeCmp]
    · rw [hla,hlb]
      exact hlimbs
    · intro i j h
      cases h
  | int i =>
    cases b with
    | int j => rfl
    | big _ _ =>
      rw [wholeCmp]
      · rw [hla,hlb]
        exact hlimbs
      · intro i j h1 h2
        cases h2

theorem numNeg_eq (ha : a.Ok w) (h : a.toInt<0) : numNeg w a=ofInt w (-a.toInt) := by
  have hb := long_bounds w
  cases a with
  | int i =>
    have hi : i<0 := h
    have h1 : longMin w≤ i := ha.1
    have h2 : i≤longMax w := ha.2
    rw [numNeg,Whole.toInt,ofInt]
    by_cases he : i=longMin w
    · have hs : sgn i=-1 := by rw [sgn,if_pos hi]
      rw [if_pos he,intToLimbs_eq h1 h2,if_neg (by omega),if_pos (by omega),hs,sgn,
        if_neg (by omega),Int.natAbs_neg]
      rfl
    · rw [if_neg he,if_pos (by omega)]
  | big sign limbs =>
    obtain ⟨hs,hl,hmax,hlt⟩ := ha
    have hs1 : sign=-1 := by
      cases hs with
      | inl hs =>
        rw [Whole.toInt,hs] at h
        omega
      | inr hs => exact hs
    have hlen : ¬bignumMaxLimbs < limbs.length := by
      rw [hl,Nat.lt_digits_length_iff one_lt_base]
      omega
    have hz : -(sign*(value base limbs : Int))=value base limbs := by
      rw [hs1]
      omega
    rw [numNeg,if_neg hlen,Whole.toInt,hz,ofInt,if_neg (by omega),Int.natAbs_natCast,if_pos hlt,sgn,
      if_neg (by omega),← hl,hs1]
    rfl

theorem ofInt_of_eq {n : Nat} (h : v.Ok w) (hn : v.toInt=n) : ofInt w n=some v := by
  rw [← hn]
  exact h.ofInt (by omega)

theorem ofInt_nat (w : LongSize) {n : Nat} (h : n<base^bignumMaxLimbs) :
    ∃v : Whole,ofInt w n=some v ∧ v.Ok w ∧ v.toInt=n := by
  obtain ⟨v,hv⟩ := ofInt_isSome (w := w) (z := n) (by rw [Int.natAbs_natCast]; exact h)
  exact ⟨v,hv,ofInt_some hv⟩

/-- Square and multiply; nothing on the way is larger than the result. -/
theorem exptLoop_eq {n p : Nat} {acc cur : Whole} {x y : Nat} (hacc : acc.Ok w) (hcur : cur.Ok w)
    (hx : acc.toInt=x) (hy : cur.toInt=y) (hx0 : 0<x) (hy0 : 0<y) (hn : p<n)
    (hlt : x*y^p<base^bignumMaxLimbs) : exptLoop w n p acc cur=ofInt w ((x*y^p : Nat) : Int) := by
  induction n generalizing p acc cur x y with
  | zero => omega
  | succ n ih =>
    rw [exptLoop]
    by_cases h0 : p=0
    · rw [if_pos h0,h0,Nat.pow_zero,Nat.mul_one,ofInt_of_eq hacc hx]
    have hhalf : p>>>1=p/2 := by rw [Nat.shiftRight_eq_div_pow,pow_one]
    have hsplit : x*y^p=x*y^(p%2)*(y*y)^(p/2) := by
      rw [← Nat.pow_two,← Nat.pow_mul,Nat.mul_assoc,← Nat.pow_add,Nat.mod_add_div]
    have hle1 : x*y^(p%2)≤x*y^p := by
      rw [hsplit]
      exact Nat.le_mul_of_pos_right _ (Nat.pow_pos (Nat.mul_pos hy0 hy0))
    rw [if_neg h0,hhalf]
    obtain ⟨acc',hacc',hok',hval'⟩ := ofInt_nat w (Nat.lt_of_le_of_lt hle1 hlt)
    have hstep : (if p&&&1≠0 then numMul w (some acc) (some cur) else some acc)=some acc' := by
      rw [Nat.and_one_is_mod]
      by_cases hodd : p%2=0
      · rw [if_neg (not_not_intro hodd),← ofInt_of_eq hacc hx,← hacc',hodd,Nat.pow_zero,Nat.mul_one]
      · have h1 : p%2=1 := by omega
        rw [if_pos hodd,numMul_eq hacc hcur,hx,hy,← hacc',h1,Nat.pow_one,Int.natCast_mul]
    rw [hstep]
    simp only [Option.bind_eq_bind,Option.bind_some]
    by_cases hq : p/2=0
    · rw [if_neg (not_not_intro hq)]
      simp only [Option.bind_some]
      rw [ih hok' hcur hval' hy (Nat.mul_pos hx0 (Nat.pow_pos hy0)) hy0 (by omega)
        (by rw [hq,Nat.pow_zero,Nat.mul_one]; omega),hq,hsplit,hq,Nat.pow_zero,Nat.pow_zero]
    · have hle2 : y*y≤x*y^p := by
        rw [hsplit]
        calc y*y=1*(y*y)^1 := by ring
          _≤x*y^(p%2)*(y*y)^(p/2) := Nat.mul_le_mul
            (Nat.mul_pos hx0 (Nat.pow_pos hy0))
            (Nat.pow_le_pow_right (Nat.mul_pos hy0 hy0) (Nat.pos_of_ne_zero hq))
      obtain ⟨cur',hcur',hok2,hval2⟩ := ofInt_nat w (Nat.lt_of_le_of_lt hle2 hlt)
      rw [if_pos hq,numMul_eq hcur hcur,hy,← Int.natCast_mul,hcur']
      simp only [Option.bind_some]
      rw [ih hok' hok2 hval' hval2 (Nat.mul_pos hx0 (Nat.pow_pos hy0)) (Nat.mul_pos hy0 hy0)
        (by omega) (by rw [← hsplit]; exact hlt),← hsplit]

theorem numExptPos_eq {b : Whole} {y p : Nat} (hb : b.Ok w) (hy : b.toInt=y) (hy0 : 0<y)
    (hlt : y^p<base^bignumMaxLimbs) : numExptPos w b p=ofInt w ((y^p : Nat) : Int) := by
  have hbounds := long_bounds w
  have hone : (Whole.int 1).Ok w := by
    constructor <;> omega
  rw [numExptPos]
  by_cases h0 : p=0
  · rw [if_pos h0,h0,Nat.pow_zero,ofInt_of_eq hone rfl]
  by_cases h1 : p=1
  · rw [if_neg h0,if_pos h1,h1,Nat.pow_one,ofInt_of_eq hb hy]
  have hz : ¬wholeIsZero b=true := by
    cases b with
    | int i =>
      have hi : i=y := hy
      rw [wholeIsZero,beq_iff_eq,hi]
      omega
    | big sign limbs =>
      rw [wholeIsZero,beq_iff_eq]
      intro hl
      rw [Whole.toInt,hl,value_nil] at hy
      omega
  rw [if_neg h0,if_neg h1,if_neg hz,exptLoop_eq (x := 1) hone hb rfl hy Nat.one_pos hy0
    (Nat.lt_succ_self p) (by rw [Nat.one_mul]; exact hlt),Nat.one_mul]

end Operations

section Arith

variable {w : LongSize} {x y : Option Whole} {m n : Option Int}

/-- Sums and products of whole numbers, nested. -/
inductive Arith
  | num (v : Whole)
  | add (a b : Arith)
  | mul (a b : Arith)

def Arith.eval (w : LongSize) : Arith → Option Whole
  | .num v => some v
  | .add a b => numAdd w (a.eval w) (b.eval w)
  | .mul a b => numMul w (a.eval w) (b.eval w)

def fitted (z : Int) : Option Int := if z.natAbs<base^bignumMaxLimbs then some z else none

/-- The number, while no number on the way is too long. -/
def Arith.exact : Arith → Option Int
  | .num v => some v.toInt
  | .add a b => a.exact.bind fun i => b.exact.bind fun j => fitted (i+j)
  | .mul a b => a.exact.bind fun i => b.exact.bind fun j => fitted (i*j)

def Arith.Ok (w : LongSize) : Arith → Prop
  | .num v => v.Ok w
  | .add a b | .mul a b => a.Ok w ∧ b.Ok w

def Amounts (w : LongSize) (x : Option Whole) (m : Option Int) : Prop :=
  x.map Whole.toInt=m ∧ ∀v,x=some v → v.Ok w

theorem ofInt_amounts (z : Int) : Amounts w (ofInt w z) (fitted z) := by
  refine ⟨?_,fun v hv => (ofInt_some hv).1⟩
  unfold fitted
  cases hv : ofInt w z with
  | some v =>
    obtain ⟨hok,rfl⟩ := ofInt_some hv
    rw [if_pos hok.lt]
    rfl
  | none =>
    rw [if_neg fun h => ?_]
    · rfl
    obtain ⟨v,h⟩ := ofInt_isSome (w := w) h
    rw [hv] at h
    cases h

theorem fitted_ofInt (z : Int) : (fitted z).bind (ofInt w)=ofInt w z := by
  have h := (ofInt_amounts (w := w) z).1
  unfold fitted at h ⊢
  split at h
  · rw [if_pos ‹_›]
    rfl
  · rw [if_neg ‹_›,Option.map_eq_none_iff.mp h]
    rfl

theorem Amounts.apply {f : Option Whole → Option Whole → Option Whole} {g : Int → Int → Int}
    (hf : ∀{a b : Whole},a.Ok w → b.Ok w → f (some a) (some b)=ofInt w (g a.toInt b.toInt))
    (hn : ∀a,f none a=none ∧ f a none=none) (hx : Amounts w x m) (hy : Amounts w y n) :
    f x y=(m.bind fun i => n.bind fun j => fitted (g i j)).bind (ofInt w) := by
  obtain ⟨rfl,hx⟩ := hx
  obtain ⟨rfl,hy⟩ := hy
  cases x with
  | none => exact (hn y).1
  | some a =>
    cases y with
    | none => exact (hn (some a)).2
    | some b => exact (hf (hx a rfl) (hy b rfl)).trans (fitted_ofInt _).symm

theorem Amounts.ofBind {g : Int → Int → Int}
    (hx : x=(m.bind fun i => n.bind fun j => fitted (g i j)).bind (ofInt w)) :
    Amounts w x (m.bind fun i => n.bind fun j => fitted (g i j)) := by
  subst hx
  cases m with
  | none => exact ⟨rfl,fun _ h => by cases h⟩
  | some i =>
    cases n with
    | none => exact ⟨rfl,fun _ h => by cases h⟩
    | some j =>
      have h := ofInt_amounts (w := w) (g i j)
      rwa [← fitted_ofInt] at h

/-- The one form of a number: of an operation always, a leaf is what it is. -/
def Arith.result (w : LongSize) : Arith → Option Whole
  | .num v => some v
  | e => e.exact.bind (ofInt w)

theorem arith_amounts (e : Arith) (h : e.Ok w) : e.eval w=e.result w ∧ Amounts w (e.eval w) e.exact := by
  induction e with
  | num v => exact ⟨rfl,rfl,fun _ hv => by cases hv; exact h⟩
  | add a b iha ihb =>
    have := (iha h.1).2.apply numAdd_eq (fun a => ⟨rfl,by rcases a with _ | _ | _ <;> rfl⟩) (ihb h.2).2
    exact ⟨this,.ofBind this⟩
  | mul a b iha ihb =>
    have := (iha h.1).2.apply numMul_eq (fun a => ⟨rfl,by rcases a with _ | _ | _ <;> rfl⟩) (ihb h.2).2
    exact ⟨this,.ofBind this⟩

/-- Lisp's sums and products are those of the integers, in the form that ofInt gives (the long where
there is one, else the limbs), and nil once a number is too long. -/
theorem arith_exact (e : Arith) (h : e.Ok w) :
    e.eval w=e.result w ∧ (e.eval w).map Whole.toInt=e.exact :=
  ⟨(arith_amounts e h).1,(arith_amounts e h).2.1⟩

/-- (65536·65536+limbs of -2³¹)·-1 is the least long of an image with 4-byte longs, not its limbs. -/
theorem arith_exact_small :
    (Arith.mul (.add (.mul (.num (.int 65536)) (.num (.int 65536))) (.num (.big (-1) [2147483648])))
      (.num (.int (-1)))).eval .four=some (.int (-2147483648)) :=
  (arith_exact (.mul (.add (.mul (.num (.int 65536)) (.num (.int 65536)))
      (.num (.big (-1) [2147483648]))) (.num (.int (-1))))
    ⟨⟨⟨⟨by decide,by decide⟩,by decide,by decide⟩,
      ⟨.inr rfl,by norm_num [value,base],by decide,by decide⟩⟩,by decide,by decide⟩).1.trans
    (by decide)

end Arith

end LugalOS.Lisp
