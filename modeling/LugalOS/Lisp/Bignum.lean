import LugalOS.Lib.Limbs

namespace LugalOS.Lisp

open Limbs

/-- The limbs are uint32_t. -/
def base : Nat := 2^32

def bignumMaxLimbs : Nat := 64

/-- The size of the buffers on the stack. -/
def bignumBuf : Nat := bignumMaxLimbs+4

/-- bn_normalize: the limbs it leaves. A number is the list of its limbs. -/
def bnNormalize (a : List Nat) : List Nat := trim a

def bnCmpAbs (a b : List Nat) : Ordering :=
  let a := bnNormalize a
  let b := bnNormalize b
  if a.length≠b.length then compare a.length b.length else cmpLoop a b a.length

/-- bn_add_abs: the limbs it writes. -/
def bnAddAbs (a b : List Nat) : List Nat :=
  let a := bnNormalize a
  let b := bnNormalize b
  if a.length < b.length then addLoop base b a 0 else addLoop base a b 0

/-- bn_sub_abs: the limbs it writes, before it drops the zeros on top. -/
def bnSubAbs (a b : List Nat) : List Nat := subLoop base (bnNormalize a) (bnNormalize b) 0

/-- bn_mul_abs: the limbs it writes. -/
def bnMulAbs (a b : List Nat) : List Nat :=
  let a := bnNormalize a
  let b := bnNormalize b
  if a=[] ∨ b=[] then [] else mulLoop base b a (List.replicate (a.length+b.length) 0)

/-- bn_div_single: the quotient's limbs as it writes them, and the remainder. -/
def bnDivSingle (a : List Nat) (d : Nat) : List Nat × Nat :=
  let a := bnNormalize a
  divLoop base d a a.length 0

/-- The buffers of bn_div_multi and how many of the limbs of r are in use. -/
structure Division where
  q : List Nat
  r : List Nat
  len : Nat
  deriving DecidableEq,Repr

/-- r << 1; none where the carry has no limb to go to. -/
def Division.shift (s : Division) : Option Division :=
  let (m,carry) := mulDigit base 2 (s.r.take s.len) 0
  let r := m++s.r.drop s.len
  if carry=0 then some {s with r := r}
  else if s.len < r.length then some {s with r := r.set s.len carry,len := s.len+1}
  else none

def Division.bring (s : Division) (inBit : Nat) : Option Division :=
  if inBit=0 then some s
  else
    match s.r with
    | [] => none
    | x::r => some {s with r := (x|||1)::r,len := if s.len=0 then 1 else s.len}

def Division.subtract (s : Division) (b : List Nat) (bit : Nat) : Option Division :=
  if bnCmpAbs (s.r.take s.len) b=.lt then some s
  else
    let w := bnSubAbs (s.r.take s.len) b
    if bit/32 < s.q.length then
      some {q := s.q.set (bit/32) (s.q.getD (bit/32) 0|||1<<<(bit%32))
            r := w++s.r.drop w.length
            len := (bnNormalize w).length}
    else none

/-- The loop of bn_div_multi over the bits below. -/
def divBits (a b : List Nat) : Nat → Division → Option Division
  | 0,s => some s
  | bit+1,s => do
    let s ← s.shift
    let s ← s.bring ((a.getD (bit/32) 0>>>(bit%32))&&&1)
    let s ← s.subtract b bit
    divBits a b bit s

/-- The loop over high_bit. -/
def highBit (x : Nat) : Nat → Nat
  | 0 => 0
  | n+1 => if x&&&1<<<(n+1)=0 then highBit x n else n+1

def totalBits (a : List Nat) : Nat := (a.length-1)*32+highBit (a.getD (a.length-1) 0) 31+1

/-- bn_div_multi in buffers q and r: the quotient, the remainder, and the buffers' new contents; none
where a write is outside them. -/
def bnDivMulti (q r a b : List Nat) : Option (List Nat × List Nat × Division) :=
  let a := bnNormalize a
  let b := bnNormalize b
  if q.length < a.length+1 ∨ r.length < b.length+1 then none
  else
    let q := List.replicate (a.length+1) 0++q.drop (a.length+1)
    let r := List.replicate (b.length+1) 0++r.drop (b.length+1)
    if a=[] ∨ bnCmpAbs a b=.lt then
      if r.length < a.length then none
      else some ([],a,⟨q,a++r.drop a.length,a.length⟩)
    else do
      let s ← divBits a b (totalBits a) ⟨q,r,0⟩
      some (bnNormalize (s.q.take a.length),bnNormalize (s.r.take s.len),s)

/-- The loop of bn_shift_right_1 over the n lowest limbs, from the top down. -/
def shiftRightLoop (x : List Nat) : Nat → Nat → List Nat
  | 0,_ => []
  | n+1,carry =>
    shiftRightLoop x n (if x.getD n 0&&&1=0 then 0 else 0x80000000)++[x.getD n 0>>>1|||carry]

def bnShiftRight1 (x : List Nat) : List Nat := bnNormalize (shiftRightLoop x x.length 0)

/-- bn_shift_left: the limbs it writes. -/
def bnShiftLeft (x : List Nat) (k : Nat) : List Nat :=
  if x=[] ∨ k=0 then x
  else
    let (m,carry) := mulDigit base (2^(k%32)) x 0
    List.replicate (k/32) 0++m++(if k%32=0 then [] else [carry])

/-- The loop over the factors 2 of both; none without fuel or where a limb is read that is not there. -/
def bothEven : Nat → List Nat → List Nat → Nat → Option (List Nat × List Nat × Nat)
  | n+1,x::u,y::v,k =>
    if x&&&1=0 ∧ y&&&1=0 then bothEven n (bnShiftRight1 (x::u)) (bnShiftRight1 (y::v)) (k+1)
    else some (x::u,y::v,k)
  | _,_,_,_ => none

def stripTwos : Nat → List Nat → Option (List Nat)
  | n+1,x::u => if x&&&1=0 then stripTwos n (bnShiftRight1 (x::u)) else some (x::u)
  | _,_ => none

/-- The main loop of bn_gcd_abs. -/
def gcdLoop : Nat → List Nat → List Nat → Option (List Nat)
  | 0,_,_ => none
  | n+1,u,v =>
    if v=[] then some u
    else do
      let v ← stripTwos (n+1) v
      let (u,v) := if bnCmpAbs u v=.gt then (v,u) else (u,v)
      gcdLoop n u (bnNormalize (bnSubAbs v u))

/-- bn_gcd_abs: the limbs it writes. -/
def bnGcdAbs (fuel : Nat) (u v : List Nat) : Option (List Nat) :=
  let u := bnNormalize u
  let v := bnNormalize v
  if u=[] then some v
  else if v=[] then some u
  else do
    let u := u.take bignumMaxLimbs
    let v := v.take bignumMaxLimbs
    let (u,v,k) ← bothEven fuel u v 0
    let u ← stripTwos fuel u
    let g ← gcdLoop fuel u v
    some (bnShiftLeft g k)

theorem one_lt_base : 1<base := by decide

theorem base_pos : 0<base := by decide

abbrev Limbs32 (l : List Nat) : Prop := Below base l

section Arithmetic

variable {a b : List Nat}

theorem bnNormalize_eq (h : Limbs32 a) : bnNormalize a=base.digits (value base a) :=
  trim_eq_digits one_lt_base h

theorem bnNormalize_digits (n : Nat) : bnNormalize (base.digits n)=base.digits n :=
  trim_digits one_lt_base n

theorem digits_limbs (n : Nat) : Limbs32 (base.digits n) := below_digits one_lt_base n

theorem bnCmpAbs_eq (ha : Limbs32 a) (hb : Limbs32 b) : bnCmpAbs a b=compare (value base a) (value base b) := by
  rw [bnCmpAbs,bnNormalize_eq ha,bnNormalize_eq hb]
  by_cases he : (base.digits (value base a)).length=(base.digits (value base b)).length
  · rw [if_neg (not_not_intro he),cmpLoop_eq one_lt_base (digits_limbs _) (digits_limbs _)
      (Nat.le_refl _) (Nat.le_of_eq he),List.take_length,List.take_of_length_le (Nat.le_of_eq he.symm)]
    exact congrArg₂ compare (value_digits _) (value_digits _)
  · rw [if_pos he]
    cases Nat.lt_or_gt_of_ne he with
    | inl hl =>
      have hv : value base a < value base b := by
        by_contra hge
        exact absurd (digits_length_mono (B := base) (Nat.not_lt.mp hge)) (Nat.not_le.mpr hl)
      rw [Nat.compare_eq_lt.mpr hl,Nat.compare_eq_lt.mpr hv]
    | inr hg =>
      have hv : value base b < value base a := by
        by_contra hge
        exact absurd (digits_length_mono (B := base) (Nat.not_lt.mp hge)) (Nat.not_le.mpr hg)
      rw [Nat.compare_eq_gt.mpr hg,Nat.compare_eq_gt.mpr hv]

theorem bnAddAbs_spec (ha : Limbs32 a) (hb : Limbs32 b) :
    Limbs32 (bnAddAbs a b) ∧ value base (bnAddAbs a b)=value base a+value base b ∧
      (bnAddAbs a b).length≤ max a.length b.length+1 := by
  have hla : (bnNormalize a).length≤a.length := trim_length_le a
  have hlb : (bnNormalize b).length≤b.length := trim_length_le b
  rw [bnAddAbs]
  split_ifs with h
  · have hlen := addLoop_length (B := base) (bnNormalize b) (bnNormalize a) 0
    refine ⟨addLoop_below one_lt_base hb.trim ha.trim (Nat.zero_le _),?_,by omega⟩
    rw [addLoop_value (Nat.le_of_lt h),bnNormalize,bnNormalize,value_trim,value_trim]
    omega
  · have hlen := addLoop_length (B := base) (bnNormalize a) (bnNormalize b) 0
    refine ⟨addLoop_below one_lt_base ha.trim hb.trim (Nat.zero_le _),?_,by omega⟩
    rw [addLoop_value (Nat.not_lt.mp h),bnNormalize,bnNormalize,value_trim,value_trim,Nat.add_zero]

theorem bnSubAbs_spec (ha : Limbs32 a) (hb : Limbs32 b) (h : value base b≤value base a) :
    Limbs32 (bnSubAbs a b) ∧ value base (bnSubAbs a b)=value base a-value base b ∧
      (bnSubAbs a b).length=(bnNormalize a).length := by
  have hlen : (bnNormalize b).length≤(bnNormalize a).length := by
    rw [bnNormalize_eq ha,bnNormalize_eq hb]
    exact digits_length_mono h
  obtain ⟨h1,h2⟩ := subLoop_value one_lt_base ha.trim hb.trim (Nat.zero_le 1) hlen
    (by rw [value_trim,value_trim,Nat.add_zero]; exact h)
  rw [value_trim,value_trim,Nat.add_zero] at h2
  exact ⟨h1,by rw [bnSubAbs]; exact Nat.eq_sub_of_add_eq h2,subLoop_length _ _ _⟩

theorem bnMulAbs_spec (ha : Limbs32 a) (hb : Limbs32 b) :
    Limbs32 (bnMulAbs a b) ∧ value base (bnMulAbs a b)=value base a*value base b ∧
      (bnMulAbs a b).length≤a.length+b.length := by
  have hla : (bnNormalize a).length≤a.length := trim_length_le a
  have hlb : (bnNormalize b).length≤b.length := trim_length_le b
  have hva : value base (bnNormalize a)=value base a := value_trim a
  have hvb : value base (bnNormalize b)=value base b := value_trim b
  rw [bnMulAbs]
  split_ifs with h
  · refine ⟨.nil,?_,Nat.zero_le _⟩
    cases h with
    | inl h => rw [← hva,h,value_nil,Nat.zero_mul]
    | inr h => rw [← hvb,h,value_nil,Nat.mul_zero]
  · have hzeros : Limbs32 (List.replicate (bnNormalize b).length 0) := by
      intro x hx
      rw [List.eq_of_mem_replicate hx]
      exact base_pos
    have hsplit : List.replicate ((bnNormalize a).length+(bnNormalize b).length) 0=
        List.replicate (bnNormalize b).length 0++List.replicate (bnNormalize a).length 0 := by
      rw [List.replicate_append_replicate,Nat.add_comm]
    obtain ⟨h1,h2,h3⟩ := mulLoop_spec base_pos ha.trim hb.trim hzeros List.length_replicate
    rw [hsplit]
    refine ⟨h2,?_,by unfold bnNormalize at hla hlb; exact h1.trans_le (by omega)⟩
    rw [value_zeros,Nat.zero_add,value_trim,value_trim] at h3
    exact h3

theorem bnDivSingle_spec (ha : Limbs32 a) {d : Nat} (hd : 0<d) :
    value base (bnDivSingle a d).1*d+(bnDivSingle a d).2=value base a ∧ (bnDivSingle a d).2<d ∧
      Limbs32 (bnDivSingle a d).1 ∧ (bnDivSingle a d).1.length≤a.length := by
  obtain ⟨h1,h2,h3,h4⟩ := divLoop_spec hd ha.trim (Nat.le_refl _) hd
  rw [List.take_length,value_trim,Nat.zero_mul,Nat.zero_add] at h4
  exact ⟨h4,h3,h2,h1.trans_le (trim_length_le a)⟩

end Arithmetic

/-- r holds x; where that is 0, the limb it would begin with is 0 too. -/
structure Division.Holds (s : Division) (size x : Nat) : Prop where
  size : s.r.length=size
  below : Limbs32 s.r
  digits : s.r.take s.len=base.digits x
  len : s.len=(base.digits x).length
  zero : x=0 → s.r.getD 0 0=0

section Division

variable {s : Division} {size x : Nat} {b : List Nat}

theorem Division.Holds.fits (h : s.Holds size x) : s.len≤ size := by
  have := congrArg List.length h.digits
  rw [List.length_take,h.size,← h.len] at this
  omega

theorem Division.Holds.split (h : s.Holds size x) : s.r=base.digits x++s.r.drop s.len := by
  rw [← h.digits,List.take_append_drop]

theorem Division.Holds.of_digits {q : List Nat} {rest : List Nat} (hb : Limbs32 rest)
    (hs : (base.digits x).length+rest.length=size) (h0 : x=0 → rest.getD 0 0=0) :
    Division.Holds ⟨q,base.digits x++rest,(base.digits x).length⟩ size x where
  size := by rw [List.length_append,hs]
  below := (digits_limbs x).append hb
  digits := List.take_left
  len := rfl
  zero h := by
    subst h
    exact h0 rfl

theorem shift_spec (h : s.Holds size x) (hroom : (base.digits (2*x)).length≤ size) :
    ∃s',s.shift=some s' ∧ s'.q=s.q ∧ s'.Holds size (2*x) := by
  have hm := mulDigit_value (B := base) (d := 2) (base.digits x) 0
  have hlen := mulDigit_length (B := base) (d := 2) (base.digits x) 0
  have hbelow := mulDigit_below (d := 2) base_pos (base.digits x) 0
  have hcarry := mulDigit_carry (d := 2) (digits_limbs x) (by decide : 0<2)
  have hrest : s.len+(s.r.drop s.len).length=size := by
    rw [List.length_drop,h.size]
    have := h.fits
    omega
  rw [value_digits,Nat.add_zero] at hm
  rw [Division.shift,h.digits]
  generalize mulDigit base 2 (base.digits x) 0=p at hm hlen hbelow hcarry
  obtain ⟨m,carry⟩ := p
  dsimp only at hm hlen hbelow hcarry ⊢
  by_cases hc : carry=0
  · rw [if_pos hc]
    rw [hc,Nat.mul_zero,Nat.add_zero] at hm
    have hmd : m=base.digits (2*x) := by
      rw [← hm]
      apply eq_digits one_lt_base hbelow
      rw [hm,hlen]
      exact digits_length_mono (by omega)
    refine ⟨_,rfl,rfl,?_⟩
    have hle : s.len=(base.digits (2*x)).length := by rw [h.len,← hlen,hmd]
    rw [hmd]
    have hz : 2*x=0 → (s.r.drop s.len).getD 0 0=0 := by
      intro h0
      have hx : x=0 := by omega
      have hl : s.len=0 := by simp [h.len,hx]
      rw [hl,List.drop_zero]
      exact h.zero hx
    have hholds : Division.Holds ⟨s.q,base.digits (2*x)++s.r.drop s.len,(base.digits (2*x)).length⟩
        size (2*x) := .of_digits (h.below.drop s.len) (by rw [← hle]; exact hrest) hz
    rw [← hle] at hholds
    exact hholds
  · rw [if_neg hc]
    have hone : carry=1 := by omega
    have hmd : m++[carry]=base.digits (2*x) := by
      have hv : value base (m++[carry])=2*x := by
        rw [value_append,hlen,value_cons,value_nil,Nat.mul_zero,Nat.add_zero,hm]
      rw [← hv]
      apply eq_digits one_lt_base (hbelow.append (.cons (hone ▸ one_lt_base) .nil))
      rw [hv,List.length_append,List.length_singleton,hlen]
      apply Nat.succ_le_of_lt
      rw [Nat.lt_digits_length_iff one_lt_base,← hm,hone]
      omega
    have hlt : s.len < size := by
      have := congrArg List.length hmd
      rw [List.length_append,List.length_singleton,hlen,← h.len] at this
      omega
    have hdrop : s.r.drop s.len=s.r.getD s.len 0::s.r.drop (s.len+1) := by
      rw [List.drop_eq_getElem_cons (by rw [h.size]; exact hlt)]
      simp [h.size,hlt]
    have hset : (m++s.r.drop s.len).set s.len carry=base.digits (2*x)++s.r.drop (s.len+1) := by
      rw [hdrop,List.set_append_right _ _ (by rw [hlen,h.len]),hlen,h.len,Nat.sub_self,
        List.set_cons_zero,← hmd,List.append_assoc,List.singleton_append]
    rw [if_pos (by rw [List.length_append,hlen,← h.len,hrest]; exact hlt),hset]
    refine ⟨_,rfl,rfl,?_⟩
    have hle : s.len+1=(base.digits (2*x)).length := by
      rw [← hmd,List.length_append,List.length_singleton,hlen,h.len]
    rw [hle]
    refine Division.Holds.of_digits (h.below.drop _) ?_ ?_
    · rw [List.length_drop,h.size,← hle]
      omega
    · intro h0
      have : base^(base.digits x).length=0 := by
        rw [hone,h0] at hm
        omega
      exact absurd this (Nat.pos_iff_ne_zero.mp (Nat.pow_pos base_pos))

theorem or_one {y : Nat} (h : y%2=0) : y|||1=y+1 := by
  have hy : 2^1*(y/2)=y := by omega
  rw [← hy,← Nat.two_pow_add_eq_or_of_lt (by decide)]

theorem bring_spec (h : s.Holds size (2*x)) (hsize : 0 < size) {i : Nat} (hi : i<2) :
    ∃s',s.bring i=some s' ∧ s'.q=s.q ∧ s'.Holds size (2*x+i) := by
  by_cases h0 : i=0
  · subst h0
    exact ⟨s,by rw [Division.bring,if_pos rfl],rfl,h⟩
  have h1 : i=1 := by omega
  subst h1
  have hsplit := h.split
  rw [Division.bring,if_neg h0]
  by_cases hx : x=0
  · have hlen : s.len=0 := by simp [h.len,hx]
    have hhead := h.zero (by omega)
    cases hr : s.r with
    | nil =>
      have := h.size
      rw [hr,List.length_nil] at this
      omega
    | cons y r =>
      rw [hr,List.getD_cons_zero] at hhead
      subst hhead
      refine ⟨_,rfl,rfl,?_⟩
      have hb := h.below
      have hs := h.size
      rw [hr] at hb hs
      have hd : base.digits (2*x+1)=[1] := by
        rw [hx]
        exact Nat.digits_of_lt base 1 (by decide) one_lt_base
      have hholds : Division.Holds ⟨s.q,base.digits (2*x+1)++r,(base.digits (2*x+1)).length⟩ size
          (2*x+1) := .of_digits hb.tail
        (by rw [hd,← hs,List.length_singleton,List.length_cons,Nat.add_comm]) (by omega)
      rw [hd] at hholds
      simpa [hlen] using hholds
  · have hne : 2*x≠0 := by omega
    have hdig := Nat.digits_def' one_lt_base (Nat.pos_of_ne_zero hne)
    have heven : 2*x%base%2=0 := by
      rw [base]
      omega
    have hlt : 2*x%base<base := Nat.mod_lt _ base_pos
    have hinc : base.digits (2*x+1)=(2*x%base+1)::base.digits (2*x/base) := by
      have hb1 : 2*x%base+1<base := by
        rw [base] at hlt ⊢
        omega
      have hv : value base ((2*x%base+1)::base.digits (2*x/base))=2*x+1 := by
        rw [value_cons,value_digits]
        have := Nat.mod_add_div (2*x) base
        omega
      rw [← hv]
      refine (eq_digits one_lt_base (.cons hb1 (digits_limbs _)) ?_).symm
      rw [hv]
      refine Nat.le_trans (Nat.le_of_eq ?_) (digits_length_mono (Nat.le_succ (2*x)))
      rw [hdig,List.length_cons,List.length_cons]
    have hlen : s.len≠0 := by
      rw [h.len,hdig,List.length_cons]
      omega
    have hl : (base.digits (2*x+1)).length=s.len := by
      rw [hinc,h.len,hdig,List.length_cons,List.length_cons]
    have hr : s.r=2*x%base::(base.digits (2*x/base)++s.r.drop s.len) := by
      rw [← List.cons_append,← hdig]
      exact hsplit
    have hstep : (match s.r with
        | [] => none
        | y::r => some {s with r := (y|||1)::r,len := if s.len=0 then 1 else s.len})=
        some {s with r := base.digits (2*x+1)++s.r.drop s.len,len := (base.digits (2*x+1)).length} := by
      conv_lhs => rw [hr]
      dsimp only
      rw [or_one heven,if_neg hlen,hinc,List.cons_append,← hinc,hl]
    refine ⟨_,hstep,rfl,?_⟩
    apply Division.Holds.of_digits (h.below.drop _)
    · rw [hl,List.length_drop,h.size]
      have := h.fits
      omega
    · omega

theorem set_bit {q : List Nat} (hq : Limbs32 q) {n : Nat} (hn : n/32 < q.length)
    (hlow : 2^(n+1)∣value base q) :
    Limbs32 (q.set (n/32) (q.getD (n/32) 0|||1<<<(n%32))) ∧
      value base (q.set (n/32) (q.getD (n/32) 0|||1<<<(n%32)))=value base q+2^n := by
  obtain ⟨k,hk⟩ := hlow
  have hj : n%32<32 := Nat.mod_lt _ (by decide)
  have hn32 : 32*(n/32)+n%32=n := Nat.div_add_mod n 32
  have hpow : base^(n/32)=2^(32*(n/32)) := by rw [base,← Nat.pow_mul]
  have hlimb : q.getD (n/32) 0=2^(n%32+1)*(k%2^(31-n%32)) := by
    have hsplit : 2^(n+1)*k=2^(n%32+1)*k*2^(32*(n/32)) := by
      rw [show n+1=n%32+1+32*(n/32) by omega,Nat.pow_add]
      ring
    have hbase : base=2^(n%32+1)*2^(31-n%32) := by
      rw [base,← Nat.pow_add]
      congr 1
      omega
    rw [← getD_value base_pos hq,hk,hpow,hsplit,Nat.mul_div_cancel _ (Nat.two_pow_pos _),hbase,
      Nat.mul_mod_mul_left]
  have hor : q.getD (n/32) 0|||1<<<(n%32)=q.getD (n/32) 0+2^(n%32) := by
    have hlt : 2^(n%32)<2^(n%32+1) := Nat.pow_lt_pow_right (by decide) (Nat.lt_succ_self _)
    rw [Nat.one_shiftLeft,hlimb,← Nat.two_pow_add_eq_or_of_lt hlt]
  have hval : value base (q.set (n/32) (q.getD (n/32) 0|||1<<<(n%32)))=value base q+2^n := by
    rw [hor,value_set hn,hpow,← Nat.pow_add,hn32]
  have hlimb32 : q.getD (n/32) 0|||1<<<(n%32)<base := by
    apply Nat.or_lt_two_pow (getD_lt base_pos hq _)
    rw [Nat.one_shiftLeft]
    exact Nat.pow_lt_pow_right (by decide) hj
  exact ⟨hq.set hlimb32,hval⟩

theorem subtract_spec (h : s.Holds size x) (hb : Limbs32 b) (hpos : 0 < value base b) {n : Nat}
    (hq : Limbs32 s.q) (hn : n/32 < s.q.length) (hlow : 2^(n+1)∣value base s.q) :
    ∃s',s.subtract b n=some s' ∧ Limbs32 s'.q ∧ s'.q.length=s.q.length ∧
      s'.Holds size (if x < value base b then x else x-value base b) ∧
      value base s'.q=value base s.q+(if x < value base b then 0 else 2^n) := by
  rw [Division.subtract,h.digits,bnCmpAbs_eq (digits_limbs x) hb,value_digits]
  by_cases hlt : x < value base b
  · rw [if_pos (Nat.compare_eq_lt.mpr hlt),if_pos hlt,if_pos hlt]
    exact ⟨s,rfl,hq,rfl,h,rfl⟩
  · have hne : ¬compare x (value base b)=.lt := fun he => hlt (Nat.compare_eq_lt.mp he)
    obtain ⟨hset,hval⟩ := set_bit hq hn hlow
    obtain ⟨hw,hwv,hwl⟩ := bnSubAbs_spec (digits_limbs x) hb
      (by rw [value_digits]; exact Nat.not_lt.mp hlt)
    rw [value_digits] at hwv
    have hnorm := bnNormalize_eq hw
    rw [hwv] at hnorm
    have hlen : (bnSubAbs (base.digits x) b).length=s.len := by
      rw [hwl,bnNormalize_eq (digits_limbs x),value_digits,h.len]
    obtain ⟨k,hk⟩ := trim_append (bnSubAbs (base.digits x) b)
    have hnorm' : trim (bnSubAbs (base.digits x) b)=base.digits (x-value base b) := hnorm
    rw [hnorm'] at hk
    rw [if_neg hne,if_neg hlt,if_neg hlt]
    dsimp only
    rw [if_pos hn,hnorm]
    refine ⟨_,rfl,hset,by rw [List.length_set],?_,hval⟩
    rw [hlen]
    conv in bnSubAbs (base.digits x) b => rw [hk]
    rw [List.append_assoc]
    have hlk := congrArg List.length hk
    rw [hlen,List.length_append,List.length_replicate] at hlk
    apply Division.Holds.of_digits
    · apply Below.append
      · intro y hy
        rw [List.eq_of_mem_replicate hy]
        exact base_pos
      · exact h.below.drop _
    · rw [List.length_append,List.length_replicate,List.length_drop,h.size]
      have := h.fits
      omega
    · intro h0
      -- something was there to be subtracted from
      have hk0 : 0<k := by
        have hx : 0<x := by omega
        have : s.len≠0 := by
          rw [h.len]
          intro hl
          rw [List.length_eq_zero_iff,Nat.digits_eq_nil_iff_eq_zero] at hl
          omega
        rw [h0,Nat.digits_zero,List.length_nil] at hlk
        omega
      obtain ⟨k,rfl⟩ : ∃j,k=j+1 := ⟨k-1,by omega⟩
      rw [List.replicate_succ,List.cons_append,List.getD_cons_zero]

end Division

section Bits

variable {a b : List Nat}

theorem inBit_eq (ha : Limbs32 a) (n : Nat) :
    (a.getD (n/32) 0>>>(n%32))&&&1=value base a/2^n%2 := by
  have hn : 32*(n/32)+n%32=n := Nat.div_add_mod n 32
  have hj : n%32<32 := Nat.mod_lt _ (by decide)
  have hpow : base^(n/32)=2^(32*(n/32)) := by rw [base,← Nat.pow_mul]
  have hbit : (value base a/base^(n/32)%base).testBit (n%32)=(value base a).testBit n := by
    rw [base,Nat.testBit_mod_two_pow,decide_eq_true hj,Bool.true_and,← base,hpow,
      Nat.testBit_div_two_pow,Nat.add_comm,hn]
  have hmod (x i : Nat) : x/2^i%2=(x.testBit i).toNat := Nat.toNat_testBit x i ▸ rfl
  rw [Nat.and_one_is_mod,← getD_value base_pos ha,Nat.shiftRight_eq_div_pow,hmod,hmod,hbit]

theorem highBit_le (x n : Nat) : highBit x n≤n := by
  induction n with
  | zero => exact Nat.le_refl 0
  | succ n ih =>
    rw [highBit]
    split_ifs <;> omega

theorem highBit_spec {x n : Nat} (h : x<2^(n+1)) : x<2^(highBit x n+1) := by
  induction n with
  | zero => exact h
  | succ n ih =>
    rw [highBit]
    split_ifs with hz
    · apply ih
      apply Nat.lt_pow_two_of_testBit
      intro i hi
      by_cases he : i=n+1
      · rw [he]
        have hb := congrArg (Nat.testBit · (n+1)) hz
        simpa [Nat.one_shiftLeft,Nat.testBit_and,Nat.testBit_two_pow_self] using hb
      · exact Nat.testBit_lt_two_pow (Nat.lt_of_lt_of_le h (Nat.pow_le_pow_right (by decide) (by omega)))
    · exact h

theorem totalBits_spec (ha : Limbs32 a) (hne : a≠[]) :
    value base a<2^totalBits a ∧ totalBits a≤32*a.length := by
  have hpos : 0 < a.length := List.length_pos_iff.mpr hne
  have htop : a.getD (a.length-1) 0<2^(highBit (a.getD (a.length-1) 0) 31+1) :=
    highBit_spec (getD_lt base_pos ha _)
  have hlow : value base (a.take (a.length-1))<base^(a.length-1) := by
    have := value_lt one_lt_base (ha.take (a.length-1))
    rwa [List.length_take,Nat.min_eq_left (by omega)] at this
  have hsplit := take_succ_value (B := base) (l := a) (n := a.length-1) (by omega)
  rw [Nat.sub_add_cancel hpos,List.take_length] at hsplit
  have hpow : base^(a.length-1)=2^(32*(a.length-1)) := by rw [base,← Nat.pow_mul]
  constructor
  · rw [hsplit,totalBits]
    calc value base (a.take (a.length-1))+base^(a.length-1)*a.getD (a.length-1) 0
        < base^(a.length-1)*(a.getD (a.length-1) 0+1) := by
          rw [Nat.mul_add,Nat.mul_one]
          omega
      _≤base^(a.length-1)*2^(highBit (a.getD (a.length-1) 0) 31+1) := Nat.mul_le_mul_left _ htop
      _=2^((a.length-1)*32+highBit (a.getD (a.length-1) 0) 31+1) := by
        rw [hpow,← Nat.pow_add]
        congr 1
        omega
  · rw [totalBits]
    have := highBit_le (a.getD (a.length-1) 0) 31
    omega

/-- What is left to divide with n bits to come; w is what the quotient's buffer holds further up. -/
structure Dividing (x y w size qn n : Nat) (s : Division) : Prop where
  below : Limbs32 s.q
  qSize : s.q.length=qn
  low : 2^n∣value base s.q
  rem : ∃R,s.Holds size R ∧ R<y ∧ value base s.q*y+R*2^n+x%2^n=x+w*y

theorem divBits_spec (ha : Limbs32 a) (hb : Limbs32 b) {w size qn n : Nat} {s : Division}
    (hsize : (base.digits (value base b)).length+1≤ size) (hn : n≤32*qn)
    (h : Dividing (value base a) (value base b) w size qn n s) :
    ∃s',divBits a b n s=some s' ∧ Dividing (value base a) (value base b) w size qn 0 s' := by
  induction n generalizing s with
  | zero => exact ⟨s,rfl,h⟩
  | succ n ih =>
    obtain ⟨R,hR,hlt,heq⟩ := h.rem
    have hpos : 0 < value base b := by omega
    have hroom : (base.digits (2*R)).length≤ size := by
      have hle : 2*R≤base*value base b := Nat.mul_le_mul one_lt_base (Nat.le_of_lt hlt)
      have hmul := Nat.digits_base_mul one_lt_base hpos
      have := digits_length_mono (B := base) hle
      rw [hmul,List.length_cons] at this
      omega
    obtain ⟨s1,h1,hq1,hR1⟩ := shift_spec hR hroom
    have hbit : value base a/2^n%2<2 := Nat.mod_lt _ (by decide)
    obtain ⟨s2,h2,hq2,hR2⟩ := bring_spec hR1 (by omega) hbit
    have hq : s2.q=s.q := hq2.trans hq1
    obtain ⟨s3,h3,hb3,hl3,hR3,hv3⟩ := subtract_spec hR2 hb hpos (n := n) (by rw [hq]; exact h.below)
      (by rw [hq,h.qSize]; omega) (by rw [hq]; exact h.low)
    rw [hq] at hl3 hv3
    -- the bit moves from what is to come into the remainder
    have hmod : value base a%2^(n+1)=value base a%2^n+2^n*(value base a/2^n%2) := by
      rw [Nat.pow_succ,Nat.mod_mul]
    rw [hmod,Nat.pow_succ] at heq
    have hnext : Dividing (value base a) (value base b) w size qn n s3 := by
      refine ⟨hb3,hl3.trans h.qSize,?_,_,hR3,?_,?_⟩
      · rw [hv3]
        apply Nat.dvd_add (Nat.dvd_trans (Nat.pow_dvd_pow 2 (Nat.le_succ n)) h.low)
        split_ifs
        · exact Nat.dvd_zero _
        · exact Nat.dvd_refl _
      · split_ifs with hc
        · exact hc
        · omega
      · rw [hv3,← heq]
        split_ifs with hc
        · ring
        · obtain ⟨d,hd⟩ := Nat.exists_eq_add_of_le (Nat.not_lt.mp hc)
          rw [hd,Nat.add_sub_cancel_left]
          have hsum : R*(2^n*2)+2^n*(value base a/2^n%2)=(value base b+d)*2^n := by
            rw [← hd]
            ring
          calc (value base s.q+2^n)*value base b+d*2^n+value base a%2^n
              =value base s.q*value base b+(value base b+d)*2^n+value base a%2^n := by ring
            _=value base s.q*value base b+R*(2^n*2)+
                (value base a%2^n+2^n*(value base a/2^n%2)) := by
              rw [← hsum]
              ring
    obtain ⟨s',h',hs'⟩ := ih (by omega) hnext
    refine ⟨s',?_,hs'⟩
    rw [divBits,h1]
    simp only [Option.bind_eq_bind,Option.bind_some]
    rw [inBit_eq ha,h2]
    simp only [Option.bind_some]
    rw [h3]
    exact h'

theorem zeros_limbs (n : Nat) : Limbs32 (List.replicate n 0) := by
  intro x hx
  rw [List.eq_of_mem_replicate hx]
  exact base_pos

theorem value_take {l : List Nat} (h : Limbs32 l) (n : Nat) :
    value base (l.take n)=value base l%base^n :=
  (Nat.ofDigits_mod_pow_eq_ofDigits_take n base_pos l h).symm

/-- The loop from cleared registers, whatever the buffers hold further up. -/
theorem divBits_whole {q1 r1 : List Nat} (ha : Limbs32 a) (hb : Limbs32 b) (hne : a≠[])
    (hpos : 0 < value base b) (hd : b=base.digits (value base b)) (hq : Limbs32 q1)
    (hr : Limbs32 r1) :
    ∃s,divBits a b (totalBits a) ⟨List.replicate (a.length+1) 0++q1,
        List.replicate (b.length+1) 0++r1,0⟩=some s ∧
      Limbs32 s.q ∧ s.q.length=a.length+1+q1.length ∧ s.r.length=b.length+1+r1.length ∧
      value base (s.q.take a.length)=value base a/value base b ∧
      s.r.take s.len=base.digits (value base a%value base b) := by
  obtain ⟨hbits,htotal⟩ := totalBits_spec ha hne
  have hpow : base^(a.length+1)=2^(totalBits a)*2^(32*(a.length+1)-totalBits a) := by
    rw [base,← Nat.pow_mul,← Nat.pow_add]
    congr 1
    omega
  have hq0 : value base (List.replicate (a.length+1) 0++q1)=base^(a.length+1)*value base q1 := by
    rw [value_append,value_zeros,List.length_replicate,Nat.zero_add]
  have hstart : Dividing (value base a) (value base b) (base^(a.length+1)*value base q1)
      (b.length+1+r1.length) (a.length+1+q1.length) (totalBits a)
      ⟨List.replicate (a.length+1) 0++q1,List.replicate (b.length+1) 0++r1,0⟩ := by
    refine ⟨(zeros_limbs _).append hq,?_,?_,0,?_,hpos,?_⟩
    · rw [List.length_append,List.length_replicate]
    · rw [hq0,hpow,Nat.mul_assoc]
      exact Nat.dvd_mul_right _ _
    · have hrest : Limbs32 (List.replicate (b.length+1) 0++r1) := (zeros_limbs _).append hr
      have h0 := Division.Holds.of_digits (x := 0) (q := List.replicate (a.length+1) 0++q1) hrest rfl
        (fun _ => by rw [List.replicate_succ,List.cons_append,List.getD_cons_zero])
      simpa using h0
    · rw [hq0,Nat.mod_eq_of_lt hbits]
      ring
  obtain ⟨s,hs,hdiv⟩ := divBits_spec ha hb (by rw [← hd]; omega) (by omega) hstart
  obtain ⟨R,hR,hlt,heq⟩ := hdiv.rem
  rw [Nat.pow_zero,Nat.mod_one,Nat.mul_one,Nat.add_zero] at heq
  have hx : value base a=R+value base b*(value base a/value base b) ∧
      value base s.q=value base a/value base b+base^(a.length+1)*value base q1 := by
    have hle : base^(a.length+1)*value base q1≤value base s.q := by
      by_contra hlt'
      have hmul : (value base s.q+1)*value base b≤base^(a.length+1)*value base q1*value base b :=
        Nat.mul_le_mul_right _ (by omega)
      rw [Nat.add_mul,Nat.one_mul] at hmul
      omega
    obtain ⟨k,hk⟩ := Nat.exists_eq_add_of_le hle
    rw [hk,Nat.add_mul] at heq
    have hxk : value base a=R+value base b*k := by
      rw [Nat.mul_comm (value base b)]
      omega
    have hdivk : value base a/value base b=k := by
      rw [hxk,Nat.add_mul_div_left _ _ hpos,Nat.div_eq_of_lt hlt,Nat.zero_add]
    rw [hdivk]
    exact ⟨hxk,by rw [hk,Nat.add_comm]⟩
  have hmod : value base a%value base b=R := by
    rw [hx.1,Nat.add_mul_mod_self_left,Nat.mod_eq_of_lt hlt]
  refine ⟨s,hs,hdiv.below,hdiv.qSize,hR.size,?_,by rw [hmod]; exact hR.digits⟩
  have hsmall : value base a/value base b<base^a.length :=
    Nat.lt_of_le_of_lt (Nat.div_le_self _ _) (value_lt one_lt_base ha)
  rw [value_take hdiv.below,hx.2,Nat.pow_succ,Nat.mul_assoc,Nat.add_mul_mod_self_left,
    Nat.mod_eq_of_lt hsmall]

/-- bn_div_multi ends with the quotient and the remainder, in buffers of one limb more than a and b
have: its writes are all inside them. -/
theorem bnDivMulti_spec {q r : List Nat} (hq : Limbs32 q) (hr : Limbs32 r) (ha : Limbs32 a)
    (hb : Limbs32 b) (hpos : 0 < value base b) (hqn : a.length+1≤q.length)
    (hrn : b.length+1≤r.length) :
    ∃s : Division,bnDivMulti q r a b=some (base.digits (value base a/value base b),
        base.digits (value base a%value base b),s) ∧ s.q.length=q.length ∧ s.r.length=r.length := by
  have hla : (bnNormalize a).length≤a.length := trim_length_le a
  have hlb : (bnNormalize b).length≤b.length := trim_length_le b
  have hda : bnNormalize a=base.digits (value base a) := bnNormalize_eq ha
  have hdb : bnNormalize b=base.digits (value base b) := bnNormalize_eq hb
  have hx := value_digits (B := base) (value base a)
  have hy := value_digits (B := base) (value base b)
  rw [bnDivMulti]
  dsimp only
  rw [hda,hdb,bnCmpAbs_eq (digits_limbs _) (digits_limbs _),hx,hy]
  rw [hda] at hla
  rw [hdb] at hlb
  have hqlen : (List.replicate ((base.digits (value base a)).length+1) 0++
      q.drop ((base.digits (value base a)).length+1)).length=q.length := by
    rw [List.length_append,List.length_replicate,List.length_drop]
    omega
  have hrlen : (List.replicate ((base.digits (value base b)).length+1) 0++
      r.drop ((base.digits (value base b)).length+1)).length=r.length := by
    rw [List.length_append,List.length_replicate,List.length_drop]
    omega
  rw [if_neg (by omega)]
  by_cases hlt : base.digits (value base a)=[] ∨ compare (value base a) (value base b)=.lt
  · have hxy : value base a < value base b := by
      cases hlt with
      | inl h =>
        rw [Nat.digits_eq_nil_iff_eq_zero] at h
        omega
      | inr h => exact Nat.compare_eq_lt.mp h
    have hmono := digits_length_mono (B := base) (Nat.le_of_lt hxy)
    rw [if_pos hlt,if_neg (by rw [hrlen]; omega),Nat.div_eq_of_lt hxy,Nat.mod_eq_of_lt hxy,
      Nat.digits_zero]
    refine ⟨_,rfl,hqlen,?_⟩
    dsimp only
    rw [List.length_append,List.length_drop,hrlen]
    omega
  · rw [if_neg hlt]
    obtain ⟨s,hs,hsq,hsql,hsrl,hval,hrem⟩ := divBits_whole (digits_limbs (value base a))
      (digits_limbs (value base b)) (fun h => hlt (.inl h)) (by rw [hy]; exact hpos)
      (by rw [hy]) (hq.drop ((base.digits (value base a)).length+1))
      (hr.drop ((base.digits (value base b)).length+1))
    rw [hs]
    simp only [Option.bind_eq_bind,Option.bind_some]
    rw [hx,hy] at hval hrem
    rw [hrem,bnNormalize_eq (hsq.take _),hval,bnNormalize_digits]
    refine ⟨s,rfl,?_,?_⟩
    · rw [hsql,List.length_drop]
      omega
    · rw [hsrl,List.length_drop]
      omega

end Bits

section Gcd

variable {x u v : List Nat}

theorem shiftRightLoop_eq (hx : Limbs32 x) (n : Nat) {r : Nat} (hr : r<2) :
    shiftRightLoop x n (r*2^31)=(divLoop base 2 x n r).1 := by
  induction n generalizing r with
  | zero => rfl
  | succ n ih =>
    have hlt : x.getD n 0<2^32 := getD_lt base_pos hx n
    have hhalf : x.getD n 0/2<2^31 := by omega
    have hcarry : (if x.getD n 0&&&1=0 then 0 else 0x80000000)=(r*base+x.getD n 0)%2*2^31 := by
      have hmod : (r*base+x.getD n 0)%2=x.getD n 0%2 := by
        rw [base]
        omega
      rw [hmod,Nat.and_one_is_mod]
      split_ifs <;> omega
    have hlimb : x.getD n 0>>>1|||r*2^31=(r*base+x.getD n 0)/2 := by
      rw [Nat.shiftRight_eq_div_pow,Nat.or_comm,Nat.mul_comm r,pow_one,
        ← Nat.two_pow_add_eq_or_of_lt hhalf,base]
      omega
    rw [shiftRightLoop,divLoop,hcarry,hlimb,ih (Nat.mod_lt _ (by decide))]

theorem bnShiftRight1_eq (hx : Limbs32 x) : bnShiftRight1 x=base.digits (value base x/2) := by
  obtain ⟨h1,h2,h3,h4⟩ := divLoop_spec (d := 2) (by decide) hx (Nat.le_refl _) (by decide : 0<2)
  have he := shiftRightLoop_eq hx x.length (by decide : 0<2)
  rw [Nat.zero_mul] at he
  rw [List.take_length,Nat.zero_mul,Nat.zero_add] at h4
  rw [bnShiftRight1,he,bnNormalize_eq h2]
  congr 1
  omega

theorem bnShiftLeft_spec (hx : Limbs32 x) (k : Nat) :
    Limbs32 (bnShiftLeft x k) ∧ value base (bnShiftLeft x k)=value base x*2^k ∧
      (bnShiftLeft x k).length≤x.length+k/32+1 := by
  rw [bnShiftLeft]
  by_cases h : x=[] ∨ k=0
  · rw [if_pos h]
    refine ⟨hx,?_,by omega⟩
    cases h with
    | inl h => rw [h,value_nil,Nat.zero_mul]
    | inr h => rw [h,Nat.pow_zero,Nat.mul_one]
  · rw [if_neg h]
    have hj : k%32<32 := Nat.mod_lt _ (by decide)
    have hval := mulDigit_value (B := base) (d := 2^(k%32)) x 0
    have hlen := mulDigit_length (B := base) (d := 2^(k%32)) x 0
    have hbelow := mulDigit_below (d := 2^(k%32)) base_pos x 0
    have hcarry := mulDigit_carry (d := 2^(k%32)) hx (Nat.two_pow_pos _)
    generalize mulDigit base (2^(k%32)) x 0=p at hval hlen hbelow hcarry
    obtain ⟨m,c⟩ := p
    dsimp only at hval hlen hbelow hcarry ⊢
    have hc : c<base := Nat.lt_trans hcarry (Nat.pow_lt_pow_right (by decide) hj)
    have hpow : base^(k/32)*2^(k%32)=2^k := by
      rw [base,← Nat.pow_mul,← Nat.pow_add,Nat.div_add_mod]
    refine ⟨?_,?_,?_⟩
    · apply ((zeros_limbs _).append hbelow).append
      split_ifs
      · exact .nil
      · exact .cons hc .nil
    · have htop : value base (m++if k%32=0 then [] else [c])=2^(k%32)*value base x := by
        rw [value_append,← Nat.add_zero (2^(k%32)*value base x),← hval,hlen]
        split_ifs with h0
        · rw [h0,pow_zero,Nat.lt_one_iff] at hcarry
          rw [hcarry,value_nil]
        · rw [value_cons,value_nil,Nat.mul_zero,Nat.add_zero]
      rw [List.append_assoc,value_append,value_zeros,List.length_replicate,Nat.zero_add,htop,
        ← Nat.mul_assoc,hpow,Nat.mul_comm]
    · simp only [List.length_append,List.length_replicate,hlen]
      split_ifs <;> simp <;> omega

theorem digits_pos {n : Nat} (h : 0<n) : base.digits n=n%base::base.digits (n/base) :=
  Nat.digits_def' one_lt_base h

theorem low_bit (n : Nat) : n%base&&&1=n%2 := by
  rw [Nat.and_one_is_mod,base]
  omega

theorem halved {n : Nat} (h : 0<n) : bnShiftRight1 (n%base::base.digits (n/base))=base.digits (n/2) := by
  rw [← digits_pos h,bnShiftRight1_eq (digits_limbs n),value_digits]

theorem stripTwos_spec {n a : Nat} (ha : 0<a) (hn : a<n) :
    ∃c j,stripTwos n (base.digits a)=some (base.digits c) ∧ c%2=1 ∧ a=2^j*c := by
  induction n generalizing a with
  | zero => omega
  | succ n ih =>
    rw [digits_pos ha,stripTwos,low_bit,halved ha]
    by_cases h : a%2=0
    · obtain ⟨c,j,he,hc,hj⟩ := ih (a := a/2) (by omega) (by omega)
      refine ⟨c,j+1,by rw [if_pos h,he],hc,?_⟩
      rw [Nat.pow_succ,Nat.mul_comm (2^j),Nat.mul_assoc,← hj]
      omega
    · rw [if_neg h,← digits_pos ha]
      exact ⟨a,0,rfl,by omega,by rw [Nat.pow_zero,Nat.one_mul]⟩

theorem bothEven_spec {n a b : Nat} (k : Nat) (ha : 0<a) (hb : 0<b) (hn : a<n) :
    ∃c d j,bothEven n (base.digits a) (base.digits b) k=some (base.digits c,base.digits d,k+j) ∧
      a=2^j*c ∧ b=2^j*d ∧ (c%2=1 ∨ d%2=1) := by
  induction n generalizing a b k with
  | zero => omega
  | succ n ih =>
    rw [digits_pos ha,digits_pos hb,bothEven,low_bit,low_bit,halved ha,halved hb]
    by_cases h : a%2=0 ∧ b%2=0
    · obtain ⟨c,d,j,he,hc,hd,hodd⟩ := ih (k+1) (a := a/2) (b := b/2) (by omega) (by omega) (by omega)
      refine ⟨c,d,j+1,by rw [if_pos h,he,Nat.add_assoc,Nat.add_comm 1 j],?_,?_,hodd⟩
      · rw [Nat.pow_succ,Nat.mul_comm (2^j),Nat.mul_assoc,← hc]
        omega
      · rw [Nat.pow_succ,Nat.mul_comm (2^j),Nat.mul_assoc,← hd]
        omega
    · rw [if_neg h,← digits_pos ha,← digits_pos hb]
      refine ⟨a,b,0,rfl,?_,?_,by omega⟩ <;> rw [Nat.pow_zero,Nat.one_mul]

theorem gcd_twos {a c : Nat} (ha : a%2=1) (j : Nat) : Nat.gcd a (2^j*c)=Nat.gcd a c :=
  Nat.Coprime.gcd_mul_left_cancel_right c
    (Nat.Coprime.pow_left j (by rw [Nat.coprime_iff_gcd_eq_one,Nat.gcd_rec,ha,Nat.gcd_one_left]))

theorem gcdLoop_spec {n a b : Nat} (ha : a%2=1) (hn : a+b<n) :
    gcdLoop n (base.digits a) (base.digits b)=some (base.digits (Nat.gcd a b)) := by
  induction n generalizing a b with
  | zero => omega
  | succ n ih =>
    rw [gcdLoop]
    by_cases hb : b=0
    · rw [hb,Nat.digits_zero,if_pos rfl,Nat.gcd_zero_right]
    have hne : base.digits b≠[] := fun h => hb (Nat.digits_eq_nil_iff_eq_zero.mp h)
    obtain ⟨c,j,he,hc,hj⟩ := stripTwos_spec (n := n+1) (Nat.pos_of_ne_zero hb) (by omega)
    have hcb : c≤b := by
      rw [hj]
      exact Nat.le_mul_of_pos_left c (Nat.two_pow_pos j)
    have hsub {x y : Nat} (h : x≤y) :
        bnNormalize (bnSubAbs (base.digits y) (base.digits x))=base.digits (y-x) := by
      obtain ⟨h1,h2,_⟩ := bnSubAbs_spec (digits_limbs y) (digits_limbs x)
        (by rw [value_digits,value_digits]; exact h)
      rw [bnNormalize_eq h1,h2,value_digits,value_digits]
    rw [if_neg hne,he,hj,gcd_twos ha]
    simp only [Option.bind_eq_bind,Option.bind_some]
    rw [bnCmpAbs_eq (digits_limbs a) (digits_limbs c),value_digits,value_digits]
    by_cases hgt : c<a
    · rw [if_pos (Nat.compare_eq_gt.mpr hgt)]
      dsimp only
      rw [hsub (Nat.le_of_lt hgt),ih hc (by omega),Nat.gcd_comm a c,
        Nat.gcd_sub_self_right (Nat.le_of_lt hgt)]
    · rw [if_neg fun h => hgt (Nat.compare_eq_gt.mp h)]
      dsimp only
      rw [hsub (Nat.not_lt.mp hgt),ih ha (by omega),Nat.gcd_sub_self_right (Nat.not_lt.mp hgt)]

/-- bn_gcd_abs on numbers of at most 64 limbs: it ends with the greatest common divisor, in at most
65 limbs of its buffer. -/
theorem bnGcdAbs_spec (hu : Limbs32 u) (hv : Limbs32 v) (hul : u.length≤bignumMaxLimbs)
    (hvl : v.length≤bignumMaxLimbs) {fuel : Nat} (hf : value base u+value base v<fuel) :
    ∃w,bnGcdAbs fuel u v=some w ∧ Limbs32 w ∧
      value base w=Nat.gcd (value base u) (value base v) ∧ w.length≤bignumMaxLimbs+1 := by
  have hnu := bnNormalize_eq hu
  have hnv := bnNormalize_eq hv
  have hlu : (base.digits (value base u)).length≤bignumMaxLimbs := hnu ▸ (trim_length_le u).trans hul
  have hlv : (base.digits (value base v)).length≤bignumMaxLimbs := hnv ▸ (trim_length_le v).trans hvl
  have hbound : value base u<base^bignumMaxLimbs := by
    apply Nat.lt_of_lt_of_le (value_lt one_lt_base hu)
    exact Nat.pow_le_pow_right base_pos hul
  rw [bnGcdAbs,hnu,hnv]
  dsimp only
  by_cases hu0 : value base u=0
  · rw [hu0,Nat.digits_zero,if_pos rfl,Nat.gcd_zero_left]
    exact ⟨_,rfl,digits_limbs _,value_digits _,by omega⟩
  by_cases hv0 : value base v=0
  · rw [hv0,Nat.digits_zero,if_neg fun h => hu0 (Nat.digits_eq_nil_iff_eq_zero.mp h),if_pos rfl,
      Nat.gcd_zero_right]
    exact ⟨_,rfl,digits_limbs _,value_digits _,by omega⟩
  obtain ⟨c,d,k,hk,hc,hd,hodd⟩ := bothEven_spec 0 (Nat.pos_of_ne_zero hu0) (Nat.pos_of_ne_zero hv0)
    (n := fuel) (by omega)
  have hcu : c≤value base u := hc ▸ Nat.le_mul_of_pos_left c (Nat.two_pow_pos k)
  have hdv : d≤value base v := hd ▸ Nat.le_mul_of_pos_left d (Nat.two_pow_pos k)
  have hc0 : 0<c := by
    by_contra h
    rw [Nat.eq_zero_of_not_pos h,Nat.mul_zero] at hc
    exact hu0 hc
  obtain ⟨e,j,he,heo,hej⟩ := stripTwos_spec (n := fuel) hc0 (by omega)
  have hec : e≤c := hej ▸ Nat.le_mul_of_pos_left e (Nat.two_pow_pos j)
  have hgcd : Nat.gcd e d*2^k=Nat.gcd (value base u) (value base v) := by
    rw [hc,hd,Nat.gcd_mul_left,Nat.mul_comm]
    congr 1
    cases hodd with
    | inl h =>
      have hj0 : j=0 := by
        by_contra hj
        obtain ⟨i,rfl⟩ : ∃i,j=i+1 := ⟨j-1,by omega⟩
        rw [hej,Nat.pow_succ,Nat.mul_comm (2^i),Nat.mul_assoc,Nat.mul_mod_right] at h
        omega
      rw [hej,hj0,Nat.pow_zero,Nat.one_mul]
    | inr h => rw [hej,Nat.gcd_comm (2^j*e),gcd_twos h,Nat.gcd_comm]
  rw [if_neg fun h => hu0 (Nat.digits_eq_nil_iff_eq_zero.mp h),
    if_neg fun h => hv0 (Nat.digits_eq_nil_iff_eq_zero.mp h),List.take_of_length_le hlu,
    List.take_of_length_le hlv,hk]
  simp only [Option.bind_eq_bind,Option.bind_some]
  rw [he]
  simp only [Option.bind_some]
  rw [gcdLoop_spec heo (by omega)]
  simp only [Option.bind_some,Nat.zero_add]
  obtain ⟨hw,hwv,hwl⟩ := bnShiftLeft_spec (digits_limbs (Nat.gcd e d)) k
  rw [value_digits] at hwv
  refine ⟨_,rfl,hw,hwv.trans hgcd,?_⟩
  have hg : 0<Nat.gcd e d := Nat.gcd_pos_of_pos_left d (by omega)
  have hle : Nat.gcd e d*2^k<base^bignumMaxLimbs :=
    Nat.lt_of_le_of_lt (hgcd ▸ Nat.gcd_le_left _ (Nat.pos_of_ne_zero hu0)) hbound
  have hlow : base^((base.digits (Nat.gcd e d)).length-1)≤Nat.gcd e d := by
    have hpos : 0<(base.digits (Nat.gcd e d)).length := by
      rw [digits_pos hg,List.length_cons]
      omega
    exact (Nat.lt_digits_length_iff one_lt_base _).mp (by omega)
  have hexp : 32*((base.digits (Nat.gcd e d)).length-1)+k<32*bignumMaxLimbs := by
    apply (Nat.pow_lt_pow_iff_right (by decide : 1<2)).mp
    rw [Nat.pow_add,Nat.pow_mul,Nat.pow_mul]
    exact Nat.lt_of_le_of_lt (Nat.mul_le_mul_right _ hlow) hle
  omega

end Gcd

end LugalOS.Lisp
