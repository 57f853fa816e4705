import LugalOS.Lib.Decimal
import LugalOS.Lisp.Reals

namespace LugalOS.Lisp

open Limbs Decimal

/-- What of a text goes into a buffer whose last byte is at cap. -/
def put (cap : Nat) (p text : List Char) : List Char := p++text.take (cap-p.length)

/-- The loop of format_uint_digits that fills temp. -/
def tempDigits : Nat → Nat → List Char
  | 0,_ => []
  | n+1,val => if 0<val then Nat.digitChar (val%10)::tempDigits n (val/10) else []

def formatUintDigits (cap : Nat) (p : List Char) (val padTo : Nat) : List Char :=
  let temp := if val=0 then ['0'] else tempDigits 12 val
  put cap p (temp++List.replicate (padTo-temp.length) '0').reverse

/-- The chunks of nine digits, lowest first. -/
def bnRems : Nat → List Nat → List Nat
  | 0,_ => []
  | n+1,limbs =>
    if limbs=[] then []
    else
      let (q,rem) := bnDivSingle limbs 1000000000
      rem::bnRems n (bnNormalize q)

def bnToString (v : Option Whole) (maxOut : Nat) : List Char :=
  match v with
  | some (.big sign limbs) =>
    let limbs := bnNormalize limbs
    if limbs=[] then (if 1< maxOut then ['0'] else [])
    else
      let rems := bnRems 80 (limbs.take bignumMaxLimbs)
      let cap := maxOut-1
      let p := if sign<0 then put cap [] ['-'] else []
      let p := formatUintDigits cap p (rems.getLastD 0) 0
      rems.dropLast.reverse.foldl (fun p rem => formatUintDigits cap p rem 9) p
  | _ => []

/-- make_str: the text as it is interned. A slot is taken to be there. -/
def makeStr (text : List Char) : List Char := text.take 255

/-- sizeof(buf)-1 in prim_to_decimal. -/
def decimalBuf : Nat := 799

/-- How both branches write the integer part. -/
def putWhole (p : List Char) : Option Whole → List Char
  | some (.int q) => formatUintDigits decimalBuf p (q%2^32).toNat 0
  | q => put decimalBuf p (bnToString q (decimalBuf-p.length+1))

/-- f_buf. -/
def fractionBuf : Option Whole → List Char
  | some (.int f) => formatUintDigits 99 [] (f%2^32).toNat 0
  | f => bnToString f 100

/-- num_is_zero; not of nil. -/
def isZero : Option Whole → Bool
  | some v => wholeIsZero v
  | none => false

/-- An argument of a primitive. -/
inductive Arg
  | number (v : Number)
  | other
  deriving DecidableEq,Repr

/-- The precision of prim_to_decimal; none where it is an error. -/
def precision : Option Arg → Option Nat
  | none => some 6
  | some (.number (.real (.whole (.int k)))) => some (if k<0 then 0 else if 80<k then 80 else k.toNat)
  | some _ => none

def wholeToDecimal (v : Whole) (prec : Nat) : List Char :=
  let p :=
    match v with
    | .int n =>
      let uv := if n<0 then (-(n+1)).toNat+1 else n.toNat
      formatUintDigits decimalBuf (if n<0 then put decimalBuf [] ['-'] else []) (uv%2^32) 0
    | .big _ _ => put decimalBuf [] (bnToString (some v) (decimalBuf+1))
  if 0<prec then put decimalBuf (put decimalBuf p ['.']) (List.replicate prec '0') else p

/-- A ratio with no digits after the point. -/
def ratioToInteger (w : LongSize) (isNeg : Bool) (n : Option Whole) (d : Whole) : List Char :=
  let (q,r) := bnDivRem w n (some d)
  let twoR := numMul w (some (.int 2)) r
  let q := if twoR≠none ∧ wholeCmp w twoR (some d)≠.lt then numAdd w q (some (.int 1)) else q
  putWhole (if isNeg ∧ ¬isZero q then put decimalBuf [] ['-'] else []) q

/-- A ratio with prec digits after the point; nil where a product has too many limbs. -/
def ratioToDecimal (w : LongSize) (isNeg : Bool) (n : Option Whole) (d : Whole) (prec : Nat) :
    Option (List Char) := do
  let (q,r) := bnDivRem w n (some d)
  let scale ← numExptPos w (.int 10) (prec+1)
  let scaledR ← numMul w r (some scale)
  let f ← (bnDivRem w (some scaledR) (some d)).1
  let (f',dVal) := bnDivRem w (some f) (some (.int 10))
  let digit : Int := match dVal with
    | some (.int k) => k
    | _ => 0
  let f' ← (if 5≤digit then (numAdd w f' (some (.int 1))).map some else some f')
  let tenPowPrec ← numExptPos w (.int 10) prec
  let (q,f') :=
    if wholeCmp w f' (some tenPowPrec)≠.lt then (numAdd w q (some (.int 1)),some (.int 0)) else (q,f')
  let p := if isNeg ∧ (¬isZero q ∨ ¬isZero f') then put decimalBuf [] ['-'] else []
  let p := put decimalBuf (putWhole p q) ['.']
  let fBuf := fractionBuf f'
  some (put decimalBuf (put decimalBuf p (List.replicate (prec-fBuf.length) '0')) fBuf)

def primToDecimal (w : LongSize) (args : List Arg) : Option (List Char) :=
  match args with
  | [] => none
  | _::_::_::_ => none
  | .other::_ => none
  | .number v::rest => do
    let prec ← precision rest.head?
    match v with
    | .real (.whole v) => some (makeStr (wholeToDecimal v prec))
    | .real (.ratio n d) =>
      let isNeg := wholeIsNegative n
      let absN := if isNeg then numNeg w n else some n
      if prec=0 then some (makeStr (ratioToInteger w isNeg absN d))
      else (ratioToDecimal w isNeg absN d prec).map makeStr
    | .complex _ _ => some (makeStr [])

section Texts

variable {cap val : Nat} {p : List Char}

theorem put_eq {c : Nat} {p t : List Char} (h : p.length+t.length≤c) : put c p t=p++t := by
  rw [put,List.take_of_length_le (by omega)]

theorem tempDigits_eq {n : Nat} (h0 : 0<val) (h : val<10^n) :
    (tempDigits n val).reverse=Nat.toDigits 10 val := by
  induction n generalizing val with
  | zero => omega
  | succ n ih =>
    have hpow : 10^(n+1)=10^n*10 := Nat.pow_succ 10 n
    rw [tempDigits,if_pos h0,List.reverse_cons]
    by_cases hv : val<10
    · have hz : val/10=0 := Nat.div_eq_of_lt hv
      have hend : tempDigits n 0=[] := by cases n <;> rfl
      rw [hz,hend,Nat.toDigits_of_lt_base hv,Nat.mod_eq_of_lt hv]
      rfl
    · have hrec : (tempDigits n (val/10)).reverse=Nat.toDigits 10 (val/10) := ih (by omega) (by omega)
      rw [hrec,Nat.toDigits_of_base_le (n := val) (by decide) (by omega)]

theorem formatUintDigits_eq {padTo : Nat} (hval : val<10^12)
    (h : p.length+((Nat.toDigits 10 val).leftpad padTo '0').length≤cap) :
    formatUintDigits cap p val padTo=p++(Nat.toDigits 10 val).leftpad padTo '0' := by
  have htemp : (if val=0 then ['0'] else tempDigits 12 val).reverse=Nat.toDigits 10 val := by
    by_cases h0 : val=0
    · rw [if_pos h0,h0]
      rfl
    · rw [if_neg h0,tempDigits_eq (Nat.pos_of_ne_zero h0) hval]
  have hlen := congrArg List.length htemp
  rw [List.length_reverse] at hlen
  have htext : ((if val=0 then ['0'] else tempDigits 12 val)++List.replicate
      (padTo-(if val=0 then ['0'] else tempDigits 12 val).length) '0').reverse=
      (Nat.toDigits 10 val).leftpad padTo '0' := by
    rw [List.reverse_append,List.reverse_replicate,htemp,hlen]
    rfl
  rw [formatUintDigits,htext,put_eq h]

theorem formatUintDigits_plain (hval : val<10^12) (h : p.length+(Nat.toDigits 10 val).length≤cap) :
    formatUintDigits cap p val 0=p++Nat.toDigits 10 val := by
  have hpad : (Nat.toDigits 10 val).leftpad 0 '0'=Nat.toDigits 10 val := by simp [List.leftpad]
  rw [formatUintDigits_eq hval (by rw [hpad]; exact h),hpad]

theorem bnRems_eq {n m : Nat} (h : m<1000000000^n) :
    bnRems n (base.digits m)=Nat.digits 1000000000 m := by
  induction n generalizing m with
  | zero =>
    have h0 : m=0 := Nat.lt_one_iff.mp h
    rw [h0,Nat.digits_zero]
    rfl
  | succ n ih =>
    rw [bnRems]
    by_cases h0 : m=0
    · rw [if_pos (by rw [h0,Nat.digits_zero]),h0,Nat.digits_zero]
    obtain ⟨hval,hlt,hlimbs,_⟩ := bnDivSingle_spec (digits_limbs m) (by decide : 0<1000000000)
    rw [value_digits] at hval
    have hquot : value base (bnDivSingle (base.digits m) 1000000000).1=m/1000000000 := by omega
    have hrem : (bnDivSingle (base.digits m) 1000000000).2=m%1000000000 := by omega
    rw [Nat.pow_succ] at h
    rw [if_neg fun hd => h0 (Nat.digits_eq_nil_iff_eq_zero.mp hd)]
    dsimp only
    rw [bnNormalize_eq hlimbs,hquot,hrem,ih (by omega),
      Nat.digits_def' (by decide) (Nat.pos_of_ne_zero h0)]

theorem chunks_eq {m : Nat} (hm : 0< m) (h : p.length+(Nat.toDigits 10 m).length≤cap) :
    (Nat.digits 1000000000 m).dropLast.reverse.foldl (fun p rem => formatUintDigits cap p rem 9)
      (formatUintDigits cap p ((Nat.digits 1000000000 m).getLastD 0) 0)=p++Nat.toDigits 10 m := by
  induction m using Nat.strong_induction_on with
  | _ m ih =>
    rw [Nat.digits_def' (by decide) hm]
    by_cases hlow : m<1000000000
    · rw [Nat.div_eq_of_lt hlow,Nat.digits_zero,Nat.mod_eq_of_lt hlow]
      exact formatUintDigits_plain (Nat.lt_trans hlow (by decide)) h
    · have hq : 0< m/1000000000 := by omega
      have hne : Nat.digits 1000000000 (m/1000000000)≠[] := by
        rw [Ne,Nat.digits_eq_nil_iff_eq_zero]
        omega
      have hsplit : Nat.toDigits 10 m=Nat.toDigits 10 (m/1000000000)++padded 9 (m%1000000000) := by
        have hm9 : m%1000000000<10^9 := Nat.mod_lt m (by decide)
        have hm : m/1000000000*10^9+m%1000000000=m := Nat.div_add_mod' m 1000000000
        rw [← toDigits_split hq 9 hm9,hm]
      have hpad := leftpad_toDigits (n := m%1000000000) (by decide : 0<9) (Nat.mod_lt m (by decide))
      rw [hsplit,List.length_append,padded_length] at h
      have hrec := ih (m/1000000000) (by omega) hq (by omega)
      rw [List.getLastD_eq_getLast?,List.getLast?_eq_some_getLast hne,Option.getD_some] at hrec
      rw [List.getLastD_cons,List.getLastD_eq_getLast?,List.getLast?_eq_some_getLast hne,
        Option.getD_some,List.dropLast_cons_of_ne_nil hne,List.reverse_cons,List.foldl_append,hrec,List.foldl_cons,List.foldl_nil,formatUintDigits_eq (by omega) (by
        rw [hpad,padded_length,List.length_append]
        omega),hpad,hsplit,List.append_assoc]

theorem cap_between : 10^81<base^bignumMaxLimbs ∧ base^bignumMaxLimbs<10^617 ∧
    base^bignumMaxLimbs<1000000000^80 := by decide +kernel

theorem toDigits_fits {n : Nat} (h : n<base^bignumMaxLimbs) : (Nat.toDigits 10 n).length≤617 := by
  rw [toDigits_length_le (by decide)]
  exact Nat.lt_trans h cap_between.2.1

theorem bnToString_eq {w : LongSize} {s : Int} {limbs : List Nat} {n : Nat}
    (hv : (Whole.big s limbs).Ok w)
    (h : (sign (Whole.big s limbs).toInt).length+(Nat.toDigits 10 (value base limbs)).length < n) :
    bnToString (some (.big s limbs)) n=
      sign (Whole.big s limbs).toInt++Nat.toDigits 10 (value base limbs) := by
  obtain ⟨hs,hl,hmax,hlt⟩ := hv
  have hb := long_bounds w
  have hpos : 0 < value base limbs := by omega
  have hne : limbs≠[] := by
    intro h0
    rw [h0,value_nil] at hpos
    omega
  have hnorm : bnNormalize limbs=limbs := by
    rw [hl]
    exact bnNormalize_digits _
  have htake : limbs.take bignumMaxLimbs=limbs := by
    apply List.take_of_length_le
    by_contra hlong
    rw [hl,Nat.not_le,Nat.lt_digits_length_iff one_lt_base] at hlong
    omega
  have hrems : bnRems 80 limbs=Nat.digits 1000000000 (value base limbs) := by
    rw [hl,bnRems_eq (Nat.lt_trans hlt cap_between.2.2),value_digits]
  have hsign : (if s<0 then put (n-1) [] ['-'] else [])=sign (Whole.big s limbs).toInt := by
    have hneg : s<0 ↔ (Whole.big s limbs).toInt<0 := by
      rw [Whole.toInt]
      obtain hs | hs := hs <;> rw [hs] <;> omega
    rw [sign] at h ⊢
    by_cases h0 : s<0
    · rw [if_pos h0,if_pos (hneg.mp h0),put_eq]
      · rfl
      · rw [if_pos (hneg.mp h0)] at h
        have hone : 0 < (Nat.toDigits 10 (value base limbs)).length := Nat.length_toDigits_pos
        simp only [List.length_nil,List.length_singleton] at h ⊢
        omega
    · rw [if_neg h0,if_neg fun h => h0 (hneg.mpr h)]
  rw [bnToString]
  dsimp only
  rw [hnorm,if_neg hne,htake,hrems,hsign]
  exact chunks_eq hpos (by omega)

end Texts

section Values

variable {w : LongSize} {v : Whole} {p : List Char} {n : Nat}

theorem Whole.Ok.isZero (h : v.Ok w) : wholeIsZero v=true ↔ v.toInt=0 := by
  cases v with
  | int i => rw [wholeIsZero,beq_iff_eq,Whole.toInt]
  | big s limbs =>
    obtain ⟨hs,hl,hmax,_⟩ := h
    have hb := long_bounds w
    rw [wholeIsZero,beq_iff_eq,Whole.toInt]
    constructor
    · intro h0
      rw [h0,value_nil] at hmax
      omega
    · intro h0
      obtain hs | hs := hs <;> rw [hs] at h0 <;> omega

theorem Whole.Ok.isNegative (h : v.Ok w) : wholeIsNegative v=true ↔ v.toInt<0 := by
  cases v with
  | int i => rw [wholeIsNegative,decide_eq_true_eq,Whole.toInt]
  | big s limbs =>
    obtain ⟨hs,hl,hmax,_⟩ := h
    have hb := long_bounds w
    rw [wholeIsNegative,decide_eq_true_eq,Whole.toInt]
    obtain hs | hs := hs <;> rw [hs] <;> omega

/-- What is printed for a number that is held in a long or not. -/
def narrow (w : LongSize) (n : Nat) : Nat := if (n : Int)≤longMax w then n%2^32 else n

theorem narrow_le (w : LongSize) (n : Nat) : narrow w n≤n := by
  rw [narrow]
  split_ifs
  · exact Nat.mod_le _ _
  · exact Nat.le_refl n

theorem narrow_eq_iff : narrow w n=n ↔ ((n : Int)≤longMax w → n<2^32) := by
  rw [narrow]
  split_ifs with h
  · rw [Nat.mod_eq_iff_lt (by decide)]
    exact ⟨fun hn _ => hn,fun hn => hn h⟩
  · exact ⟨fun _ hn => absurd hn h,fun _ => rfl⟩

theorem toDigits_length_mono {a b : Nat} (h : a≤b) :
    (Nat.toDigits 10 a).length≤(Nat.toDigits 10 b).length := by
  have hb : b<10^(Nat.toDigits 10 b).length :=
    (toDigits_length_le Nat.length_toDigits_pos).mp (Nat.le_refl _)
  exact (toDigits_length_le Nat.length_toDigits_pos).mpr (Nat.lt_of_le_of_lt h hb)

theorem narrow_long {i : Int} (hi : (Whole.int i).Ok w) (h : i=n) : (i%2^32).toNat=narrow w n := by
  have hmax : i≤longMax w := hi.2
  rw [narrow,if_pos (by omega),h]
  omega

theorem Whole.Ok.big_eq {s : Int} {limbs : List Nat} (hv : (Whole.big s limbs).Ok w)
    (hn : (Whole.big s limbs).toInt=n) :
    value base limbs=n ∧ narrow w n=n ∧ sign (Whole.big s limbs).toInt=[] := by
  have hb := long_bounds w
  have hmax : longMax w < value base limbs := hv.2.2.1
  have hval : value base limbs=n := by
    have hs := hv.1
    rw [Whole.toInt] at hn
    obtain hs | hs := hs <;> rw [hs] at hn <;> omega
  refine ⟨hval,?_,?_⟩
  · rw [narrow,if_neg (by omega)]
  · rw [hn,sign,if_neg (by omega)]

theorem narrow_small {i : Int} (hv : (Whole.int i).Ok w) (hn : i=n) : narrow w n<10^12 := by
  rw [← narrow_long hv hn]
  omega

theorem putWhole_eq (hv : v.Ok w) (hn : v.toInt=n) (hp : p.length≤100) :
    putWhole p (some v)=p++Nat.toDigits 10 (narrow w n) := by
  have hbuf : decimalBuf=799 := rfl
  have hlt : n<base^bignumMaxLimbs := by
    have := hv.lt
    rwa [hn,Int.natAbs_natCast] at this
  have hfit := toDigits_fits hlt
  have hmono := toDigits_length_mono (narrow_le w n)
  cases v with
  | int i =>
    rw [putWhole,narrow_long hv hn,formatUintDigits_plain (narrow_small hv hn) (by omega)]
  | big s limbs =>
    obtain ⟨hval,hsame,hno⟩ := hv.big_eq hn
    have htext := bnToString_eq (n := decimalBuf-p.length+1) hv (by
      rw [hno,hval,List.length_nil]
      omega)
    rw [hno,hval,List.nil_append] at htext
    rw [putWhole,htext,put_eq (by omega),hsame]
    intro q h
    cases h

theorem fractionBuf_eq (hv : v.Ok w) (hn : v.toInt=n) (h : (Nat.toDigits 10 n).length≤81) :
    fractionBuf (some v)=Nat.toDigits 10 (narrow w n) := by
  have hmono := toDigits_length_mono (narrow_le w n)
  cases v with
  | int i =>
    rw [fractionBuf,narrow_long hv hn,formatUintDigits_plain (narrow_small hv hn) (by
      rw [List.length_nil]
      omega),List.nil_append]
  | big s limbs =>
    obtain ⟨hval,hsame,hno⟩ := hv.big_eq hn
    have htext := bnToString_eq (n := 100) hv (by
      rw [hno,hval,List.length_nil]
      omega)
    rw [hno,hval,List.nil_append] at htext
    rw [fractionBuf,htext,hsame]
    intro f h
    cases h

end Values

section Rounding

variable {n d p : Nat}

theorem carry_eq (hd : 0<d) (x : Nat) :
    (2*x+d)/(2*d)=x*10/d/10+(if 5≤x*10/d%10 then 1 else 0) := by
  have hlo : d*(x*10/d)≤x*10 := Nat.mul_div_le _ _
  have hhi : x*10<d*(x*10/d+1) := Nat.lt_mul_div_succ _ hd
  have hdiv := Nat.div_add_mod (x*10/d) 10
  have hmod := Nat.mod_lt (x*10/d) (by decide : 10>0)
  generalize x*10/d=f at hlo hhi hdiv hmod ⊢
  generalize f/10=a at hdiv ⊢
  generalize f%10=b at hdiv hmod ⊢
  rw [← hdiv,Nat.mul_add,Nat.mul_left_comm] at hlo
  rw [← hdiv,Nat.mul_add,Nat.mul_add,Nat.mul_left_comm,Nat.mul_one] at hhi
  by_cases h5 : 5≤b
  · have h1 : d*5≤d*b := Nat.mul_le_mul_left d h5
    have h2 : d*b≤d*9 := Nat.mul_le_mul_left d (by omega)
    rw [if_pos h5,Nat.div_eq_iff (by omega)]
    have he : (a+1)*(2*d)=2*(d*a)+2*d := by ring
    omega
  · have h2 : d*b≤d*4 := Nat.mul_le_mul_left d (by omega)
    rw [if_neg h5,Nat.add_zero,Nat.div_eq_iff (by omega)]
    have he : a*(2*d)=2*(d*a) := by ring
    omega

theorem rounded_split (hd : 0<d) (n p : Nat) :
    (2*n*p+d)/(2*d)=n/d*p+(2*(n%d*p)+d)/(2*d) := by
  have hn := Nat.div_add_mod n d
  have he : 2*n*p+d=2*(n%d*p)+d+2*d*(n/d*p) := by
    calc 2*n*p+d=2*(d*(n/d)+n%d)*p+d := by rw [hn]
      _=2*(n%d*p)+d+2*d*(n/d*p) := by ring
  rw [he,Nat.add_mul_div_left _ _ (by omega),Nat.add_comm]

theorem rounded_le (hd : 0<d) (n p : Nat) : (2*(n%d*p)+d)/(2*d)≤p := by
  have hr : (n%d+1)*p≤d*p := Nat.mul_le_mul_right p (Nat.mod_lt n hd)
  rw [Nat.add_mul,Nat.one_mul] at hr
  have he : p.succ*(2*d)=2*(d*p)+2*d := by
    rw [Nat.succ_eq_add_one]
    ring
  apply Nat.le_of_lt_succ
  rw [Nat.div_lt_iff_lt_mul (by omega),he]
  omega

theorem rounded_lt (hd : 1<d) {m : Nat} (hn : n< m) (hm : 4≤ m) : n/d+1< m := by
  have : n/d≤n/2 := Nat.div_le_div_left hd (by decide)
  omega

end Rounding

section Ratios

variable {w : LongSize} {v a d : Whole} {N D prec : Nat} {isNeg : Bool}

/-- The text of a sign and two narrowed parts of z. -/
def decimalText (w : LongSize) (isNeg : Bool) (z prec : Nat) : List Char :=
  (if isNeg=true ∧ z≠0 then ['-'] else [])++Nat.toDigits 10 (narrow w (z/10^prec))++
    fraction prec (narrow w (z%10^prec))

theorem int_ok (w : LongSize) {i : Int} (h0 : 0≤ i) (h : i≤100) : (Whole.int i).Ok w := by
  cases w <;> constructor <;> simp only [longMin,longMax,LongSize.bits] <;> omega

theorem minus_length (c : Prop) [Decidable c] : (if c then ['-'] else []).length≤1 := by
  split_ifs <;> decide

theorem ratioToInteger_eq (ha : a.Ok w) (hd : d.Ok w) (hN : a.toInt=N) (hD : d.toInt=D) (hD1 : 1<D)
    (hfit : N%D*2<base^bignumMaxLimbs) :
    ratioToInteger w isNeg (some a) d=decimalText w isNeg ((2*N*10^0+D)/(2*D)) 0 := by
  have hN64 : N<base^bignumMaxLimbs := by
    have := ha.lt
    rwa [hN,Int.natAbs_natCast] at this
  have hcap : 4≤base^bignumMaxLimbs := Nat.le_trans (by decide) cap_between.1.le
  have hround : (2*N*10^0+D)/(2*D)=N/D+(if D≤2*(N%D) then 1 else 0) := by
    have hmod := Nat.mod_lt N (Nat.lt_of_lt_of_le Nat.zero_lt_one hD1.le)
    rw [rounded_split (by omega),Nat.pow_zero,Nat.mul_one,Nat.mul_one]
    congr 1
    split_ifs with h
    · rw [Nat.div_eq_iff (by omega)]
      omega
    · exact Nat.div_eq_of_lt (by omega)
  have hroom := rounded_lt hD1 hN64 hcap
  obtain ⟨q,hq,hqo,hqv⟩ := ofInt_nat w (n := N/D) (by omega)
  obtain ⟨r,hr,hro,hrv⟩ := ofInt_nat w (n := N%D) (by omega)
  obtain ⟨t,ht,hto,htv⟩ := ofInt_nat w (n := N%D*2) hfit
  have hdiv : bnDivRem w (some a) (some d)=(some q,some r) := by
    rw [bnDivRem_eq ha hd (by omega) (by omega),hN,hD,← Int.natCast_ediv,← Int.natCast_emod,hq,hr]
  have htwo : numMul w (some (.int 2)) (some r)=some t := by
    rw [numMul_eq (int_ok w (by decide) (by decide)) hro,hrv,← ht,Nat.mul_comm,Int.natCast_mul]
    rfl
  have hcmp : (some t≠none ∧ wholeCmp w (some t) (some d)≠.lt) ↔ D≤2*(N%D) := by
    rw [wholeCmp_eq hto hd,htv,hD,Ne,Ne,compare_lt_iff_lt,Int.ofNat_lt]
    simp only [reduceCtorEq,not_false_eq_true,true_and]
    omega
  obtain ⟨q',hq',hqo',hqv'⟩ := ofInt_nat w (n := (2*N*10^0+D)/(2*D)) (by
    rw [hround]
    split_ifs <;> omega)
  have hcarry : (if some t≠none ∧ wholeCmp w (some t) (some d)≠.lt then
      numAdd w (some q) (some (.int 1)) else some q)=some q' := by
    rw [← hq',hround]
    by_cases h : D≤2*(N%D)
    · rw [if_pos (hcmp.mpr h),if_pos h,numAdd_eq hqo (int_ok w (by decide) (by decide)),hqv]
      rfl
    · rw [if_neg fun hc => h (hcmp.mp hc),if_neg h,Nat.add_zero,hq]
  have hsign : (if isNeg=true ∧ ¬isZero (some q')=true then put decimalBuf [] ['-'] else [])=
      (if isNeg=true ∧ (2*N*10^0+D)/(2*D)≠0 then ['-'] else []) := by
    have hz : isZero (some q')=true ↔ (2*N*10^0+D)/(2*D)=0 := by
      rw [isZero,hqo'.isZero,hqv']
      omega
    simp only [hz]
    rfl
  have hlen := minus_length (isNeg=true ∧ (2*N*10^0+D)/(2*D)≠0)
  rw [ratioToInteger,hdiv]
  dsimp only
  rw [htwo,hcarry,hsign,putWhole_eq hqo' hqv' (by omega),decimalText,Nat.pow_zero,Nat.div_one,fraction,
    if_pos rfl,List.append_nil]

theorem carried_eq {q f t : Whole} {Q F P : Nat} (hq : q.Ok w) (hQ : q.toInt=Q) (hf : f.Ok w)
    (hF : f.toInt=F) (ht : t.Ok w) (hT : t.toInt=P) (hP : 0<P) (hFP : F≤P)
    (hroom : Q+1<base^bignumMaxLimbs) :
    ∃q' f' : Whole,(if wholeCmp w (some f) (some t)≠.lt then
        (numAdd w (some q) (some (.int 1)),some (.int 0)) else (some q,some f))=(some q',some f') ∧
      q'.Ok w ∧ f'.Ok w ∧ q'.toInt=((Q*P+F)/P : Nat) ∧ f'.toInt=((Q*P+F)%P : Nat) := by
  have hcmp : wholeCmp w (some f) (some t)≠.lt ↔ ¬F<P := by
    rw [wholeCmp_eq hf ht,hF,hT,Ne,compare_lt_iff_lt,Int.ofNat_lt]
  rw [Nat.add_comm,Nat.add_mul_div_right _ _ hP,Nat.add_mul_mod_self_right]
  by_cases h : F<P
  · rw [if_neg fun hc => hcmp.mp hc h,Nat.div_eq_of_lt h,Nat.mod_eq_of_lt h,Nat.zero_add]
    exact ⟨q,f,rfl,hq,hf,hQ,hF⟩
  · have he : F=P := by omega
    obtain ⟨q',hq',hqo',hqv'⟩ := ofInt_nat w hroom
    rw [if_pos (hcmp.mpr h),he,Nat.div_self hP,Nat.mod_self,Nat.add_comm 1 Q]
    refine ⟨q',.int 0,?_,hqo',int_ok w (by decide) (by decide),hqv',rfl⟩
    rw [numAdd_eq hq (int_ok w (by decide) (by decide)),hQ,← hq']
    rfl

theorem written_eq {q f : Whole} {z : Nat} (hq : q.Ok w) (hQ : q.toInt=(z/10^prec : Nat)) (hf : f.Ok w)
    (hF : f.toInt=(z%10^prec : Nat)) (h0 : 0<prec) (hprec : prec≤80) :
    put decimalBuf (put decimalBuf (put decimalBuf (putWhole
        (if isNeg=true ∧ (¬isZero (some q)=true ∨ ¬isZero (some f)=true) then put decimalBuf [] ['-']
          else []) (some q)) ['.'])
      (List.replicate (prec-(fractionBuf (some f)).length) '0')) (fractionBuf (some f))=
      decimalText w isNeg z prec := by
  have hbuf : decimalBuf=799 := rfl
  have hpow : 0<10^prec := Nat.pow_pos (by decide)
  have hfrac : z%10^prec<10^prec := Nat.mod_lt _ hpow
  have hsign : (if isNeg=true ∧ (¬isZero (some q)=true ∨ ¬isZero (some f)=true) then
      put decimalBuf [] ['-'] else [])=(if isNeg=true ∧ z≠0 then ['-'] else []) := by
    have hz : (¬isZero (some q)=true ∨ ¬isZero (some f)=true) ↔ z≠0 := by
      have hdiv := Nat.div_add_mod z (10^prec)
      rw [isZero,isZero,hq.isZero,hf.isZero,hQ,hF,Int.natCast_eq_zero,Int.natCast_eq_zero]
      constructor
      · intro h hz
        rw [hz,Nat.zero_div,Nat.zero_mod] at h
        omega
      · intro hz
        by_contra h
        rw [not_or,not_not,not_not] at h
        rw [h.1,h.2] at hdiv
        omega
    simp only [hz]
    rfl
  have hminus := minus_length (isNeg=true ∧ z≠0)
  have hq64 : z/10^prec<base^bignumMaxLimbs := by
    have := hq.lt
    rwa [hQ,Int.natAbs_natCast] at this
  have hqlen := toDigits_fits hq64
  have hqmono := toDigits_length_mono (narrow_le w (z/10^prec))
  have hflen : (Nat.toDigits 10 (z%10^prec)).length≤prec := (toDigits_length_le h0).mpr hfrac
  have hfmono := toDigits_length_mono (narrow_le w (z%10^prec))
  have hpad := leftpad_toDigits h0 (Nat.lt_of_le_of_lt (narrow_le w (z%10^prec)) hfrac)
  rw [hsign,putWhole_eq hq hQ (by omega),fractionBuf_eq hf hF (by omega),put_eq (t := ['.']) (by
    rw [List.length_append,List.length_singleton]
    omega),put_eq (t := List.replicate _ '0') (by
    simp only [List.length_append,List.length_singleton,List.length_replicate]
    omega),put_eq (by
    simp only [List.length_append,List.length_singleton,List.length_replicate]
    omega),decimalText,fraction,if_neg h0.ne',← hpad]
  simp [List.leftpad]

theorem ratioToDecimal_eq (ha : a.Ok w) (hd : d.Ok w) (hN : a.toInt=N) (hD : d.toInt=D) (hD1 : 1<D)
    (h0 : 0<prec) (hprec : prec≤80) (hfit : N%D*10^(prec+1)<base^bignumMaxLimbs) :
    ratioToDecimal w isNeg (some a) d prec=
      some (decimalText w isNeg ((2*N*10^prec+D)/(2*D)) prec) := by
  have hN64 : N<base^bignumMaxLimbs := by
    have := ha.lt
    rwa [hN,Int.natAbs_natCast] at this
  have hcap := cap_between.1
  have hpow1 : 10^(prec+1)≤10^81 := Nat.pow_le_pow_right (by decide) (by omega)
  have hpow : 10^(prec+1)=10^prec*10 := Nat.pow_succ 10 prec
  have hP : 0<10^prec := Nat.pow_pos (by decide)
  have hD0 : 0<D := by omega
  have hroom := rounded_lt hD1 hN64 (by omega)
  have hle := rounded_le hD0 N (10^prec)
  have hcarry := carry_eq hD0 (N%D*10^prec)
  have hone := int_ok w (i := 1) (by decide) (by decide)
  have hten := int_ok w (i := 10) (by decide) (by decide)
  rw [hpow,← Nat.mul_assoc] at hfit
  have hf64 : N%D*10^prec*10/D<base^bignumMaxLimbs := Nat.lt_of_le_of_lt (Nat.div_le_self _ _) hfit
  obtain ⟨q,hq,hqo,hqv⟩ := ofInt_nat w (n := N/D) (by omega)
  obtain ⟨r,hr,hro,hrv⟩ := ofInt_nat w (n := N%D) (Nat.lt_of_le_of_lt (Nat.mod_le N D) hN64)
  obtain ⟨s,hs,hso,hsv⟩ := ofInt_nat w (n := 10^(prec+1)) (by omega)
  obtain ⟨t,ht,hto,htv⟩ := ofInt_nat w (n := 10^prec) (by omega)
  obtain ⟨x,hx,hxo,hxv⟩ := ofInt_nat w hfit
  obtain ⟨f,hf,hfo,hfv⟩ := ofInt_nat w hf64
  obtain ⟨f2,hf2,hfo2,hfv2⟩ := ofInt_nat w (n := (2*(N%D*10^prec)+D)/(2*D)) (by omega)
  have hdiv : bnDivRem w (some a) (some d)=(some q,some r) := by
    rw [bnDivRem_eq ha hd (by omega) (by omega),hN,hD,← Int.natCast_ediv,← Int.natCast_emod,hq,hr]
  have hscale : numExptPos w (.int 10) (prec+1)=some s := by
    rw [numExptPos_eq (y := 10) hten rfl (by decide) (by omega),hs]
  have hscaled : numMul w (some r) (some s)=some x := by
    rw [numMul_eq hro hso,hrv,hsv,hpow,← Int.natCast_mul,← Nat.mul_assoc,hx]
  have hdigits : (bnDivRem w (some x) (some d)).1=some f := by
    rw [bnDivRem_eq hxo hd (by rw [hxv]; exact Int.natCast_nonneg _) (by omega),hxv,hD,
      ← Int.natCast_ediv,hf]
  have hpowt : numExptPos w (.int 10) prec=some t := by
    rw [numExptPos_eq (y := 10) hten rfl (by decide) (by omega),ht]
  generalize N%D*10^prec*10/D=F at hcarry hf64 hf hfv
  obtain ⟨f1,hf1,hfo1,hfv1⟩ := ofInt_nat w (n := F/10) (by omega)
  have hlast : bnDivRem w (some f) (some (.int 10))=(some f1,some (.int (F%10 : Nat))) := by
    have hsmall : ofInt w ((F%10 : Nat) : Int)=some (.int (F%10 : Nat)) :=
      ofInt_of_eq (int_ok w (by omega) (by omega)) rfl
    rw [bnDivRem_eq hfo hten (by omega) (by decide),hfv,← hf1,← hsmall]
    rfl
  have hround : (if (5 : Int)≤(F%10 : Nat) then (numAdd w (some f1) (some (.int 1))).map some
      else some (some f1))=some (some f2) := by
    rw [← hf2,hcarry]
    by_cases h5 : 5≤F%10
    · obtain ⟨g,hg,_⟩ := ofInt_nat w (n := F/10+1) (by
        rw [if_pos h5] at hcarry
        omega)
      have hadd : numAdd w (some f1) (some (.int 1))=some g := by
        rw [numAdd_eq hfo1 hone,hfv1,← hg]
        rfl
      rw [if_pos (by omega),if_pos h5,hadd,hg]
      rfl
    · rw [if_neg (by omega),if_neg h5,Nat.add_zero,hf1]
  obtain ⟨q',f',hpair,hqo',hfo',hqv',hfv'⟩ := carried_eq hqo hqv hfo2 hfv2 hto htv hP hle hroom
  rw [← rounded_split hD0] at hqv' hfv'
  rw [ratioToDecimal,hdiv]
  simp only [Option.bind_eq_bind]
  rw [hscale]
  simp only [Option.bind_some]
  rw [hscaled]
  simp only [Option.bind_some]
  rw [hdigits]
  simp only [Option.bind_some]
  rw [hlast]
  dsimp only
  rw [hround]
  simp only [Option.bind_some]
  rw [hpowt]
  simp only [Option.bind_some]
  rw [hpair]
  exact congrArg some (written_eq hqo' hqv' hfo' hfv' h0 hprec)

end Ratios

section Decimal

variable {w : LongSize} {v : Whole} {r : Real} {prec : Nat}

/-- The value at a scale of prec digits, rounded. -/
def Real.rounded (r : Real) (prec : Nat) : Int := roundAway (r.toRat*10^prec)

/-- No product that to-decimal forms of a ratio has too many limbs. -/
def Real.Fits (prec : Nat) : Real → Prop
  | whole _ => True
  | ratio num den =>
    num.toInt.natAbs%den.toInt.natAbs*(if prec=0 then 2 else 10^(prec+1))<base^bignumMaxLimbs

/-- What to-decimal prints from a long is less than 2^32. -/
def Real.Narrow (w : LongSize) (prec : Nat) : Real → Prop
  | whole (.int i) => i.natAbs<2^32
  | whole (.big _ _) => True
  | ratio num den =>
    let z := ((ratio num den).rounded prec).natAbs
    (((z/10^prec : Nat) : Int)≤longMax w → z/10^prec<2^32) ∧
      (((z%10^prec : Nat) : Int)≤longMax w → z%10^prec<2^32)

/-- The characters of the number z at a scale of prec digits. -/
def textLength (z : Int) (prec : Nat) : Nat :=
  (sign z).length+(Nat.toDigits 10 (z.natAbs/10^prec)).length+(if prec=0 then 0 else prec+1)

theorem textLength_eq (z : Int) (prec : Nat) :
    (sign z++Nat.toDigits 10 (z.natAbs/10^prec)++fraction prec (z.natAbs%10^prec)).length=
      textLength z prec := by
  rw [List.length_append,List.length_append,textLength,fraction]
  split_ifs
  · rfl
  · rw [List.length_cons,padded_length]

theorem precision_le {p : Option Arg} (h : precision p=some prec) : prec≤80 := by
  rw [precision.eq_def] at h
  split at h
  · cases h
    decide
  · cases h
    split_ifs <;> omega
  · cases h

/-- What is printed for a fixnum or a bignum. -/
def shown : Whole → Nat
  | .int i => i.natAbs%2^32
  | .big s limbs => (Whole.big s limbs).toInt.natAbs

theorem wholeToDecimal_eq (hv : v.Ok w) (hprec : prec≤80) :
    wholeToDecimal v prec=sign v.toInt++Nat.toDigits 10 (shown v)++fraction prec 0 := by
  have hbuf : decimalBuf=799 := rfl
  have hlen : (sign v.toInt).length≤1 := minus_length _
  have hfit : (Nat.toDigits 10 (shown v)).length≤617 := by
    apply toDigits_fits
    cases v with
    | int i =>
      have hcap : 2^32<base^bignumMaxLimbs := Nat.lt_trans (by decide) cap_between.1
      exact Nat.lt_trans (Nat.mod_lt _ (by decide)) hcap
    | big s limbs => exact hv.lt
  have hpoint (p : List Char) (hp : p.length≤618) :
      (if 0<prec then put decimalBuf (put decimalBuf p ['.']) (List.replicate prec '0') else p)=
        p++fraction prec 0 := by
    rw [fraction]
    by_cases h0 : prec=0
    · rw [if_neg (by omega),if_pos h0,List.append_nil]
    · rw [if_pos (Nat.pos_of_ne_zero h0),if_neg h0,padded_zero,put_eq (t := ['.']) (by
        rw [List.length_singleton]
        omega),put_eq (by
        simp only [List.length_append,List.length_singleton,List.length_replicate]
        omega),List.append_assoc]
      rfl
  cases v with
  | int i =>
    have huv : (if i<0 then (-(i+1)).toNat+1 else i.toNat)=i.natAbs := by split_ifs <;> omega
    have hsign : (if i<0 then put decimalBuf [] ['-'] else [])=sign i := rfl
    rw [wholeToDecimal]
    dsimp only
    rw [huv,hsign,formatUintDigits_plain (p := sign i) (by omega)]
    · rw [shown,Whole.toInt] at *
      exact hpoint _ (by rw [List.length_append]; omega)
    · rw [shown,Whole.toInt] at *
      omega
  | big s limbs =>
    have hval : (Whole.big s limbs).toInt.natAbs=value base limbs := by
      have hs := hv.1
      rw [Whole.toInt]
      obtain hs | hs := hs <;> rw [hs] <;> omega
    rw [shown] at hfit ⊢
    have htext := bnToString_eq (n := decimalBuf+1) hv (by rw [← hval]; omega)
    rw [← hval] at htext
    have hput := put_eq (c := decimalBuf) (p := []) (t := sign (Whole.big s limbs).toInt++
      Nat.toDigits 10 (Whole.big s limbs).toInt.natAbs) (by
        rw [List.length_append,List.length_nil]
        omega)
    rw [wholeToDecimal,htext,hput,List.nil_append]
    exact hpoint _ (by rw [List.length_append]; omega)

theorem whole_rounded (v : Whole) (prec : Nat) : (Real.whole v).rounded prec=v.toInt*10^prec := by
  have hcast : (v.toInt : ℚ)*10^prec=((v.toInt*10^prec : Int) : ℚ) := by push_cast; rfl
  rw [Real.rounded,Real.toRat,hcast,roundAway_int]

theorem whole_denotes (hv : v.Ok w) (hprec : prec≤80) :
    Denotes (makeStr (wholeToDecimal v prec)) ((Real.whole v).rounded prec) prec ↔
      (Real.whole v).Narrow w prec ∧ textLength ((Real.whole v).rounded prec) prec≤255 := by
  have hP : 0<10^prec := Nat.pow_pos (by decide)
  have hPi : (0 : Int)<10^prec := Int.pow_pos (by decide)
  have habs : (v.toInt*10^prec).natAbs=v.toInt.natAbs*10^prec := by
    rw [Int.natAbs_mul,Int.natAbs_pow]
    rfl
  have hsign : sign v.toInt=sign (v.toInt*10^prec) := by
    have hneg : v.toInt*10^prec<0 ↔ v.toInt<0 := by
      constructor
      · intro h
        by_contra h0
        have := Int.mul_nonneg (Int.not_lt.mp h0) hPi.le
        omega
      · intro h
        exact Int.mul_neg_of_neg_of_pos h hPi
    rw [sign,sign]
    simp only [hneg]
  have hdiv : (v.toInt*10^prec).natAbs/10^prec=v.toInt.natAbs := by rw [habs,Nat.mul_div_cancel _ hP]
  have hmod : (v.toInt*10^prec).natAbs%10^prec=0 := by rw [habs,Nat.mul_mod_left]
  have hle : shown v≤v.toInt.natAbs := by
    cases v with
    | int i => exact Nat.mod_le _ _
    | big s limbs => exact Nat.le_refl _
  have hnarrow : shown v=v.toInt.natAbs ↔ (Real.whole v).Narrow w prec := by
    cases v with
    | int i =>
      rw [shown,Whole.toInt,Nat.mod_eq_iff_lt (by decide)]
      rfl
    | big s limbs => exact ⟨fun _ => trivial,fun _ => rfl⟩
  rw [whole_rounded,wholeToDecimal_eq hv hprec,makeStr,hsign,denotes_iff (by rw [hdiv]; exact hle)
    (Nat.zero_le _),textLength_eq,hdiv,hmod,hnarrow]
  exact ⟨fun h => ⟨h.1,h.2.2⟩,fun h => ⟨h.1,rfl,h.2⟩⟩

theorem ratio_rounded {num den : Whole} (hden : 0 < den.toInt) (prec : Nat) :
    (Real.ratio num den).rounded prec=
      sgn num.toInt*((2*num.toInt.natAbs*10^prec+den.toInt.natAbs)/(2*den.toInt.natAbs) : Nat) := by
  have hD : 0 < den.toInt.natAbs := by omega
  have hd : (den.toInt : ℚ)=(den.toInt.natAbs : Nat) := by
    have he : den.toInt=(den.toInt.natAbs : Nat) := by omega
    exact (congrArg Int.cast he).trans (Int.cast_natCast _)
  have hround := roundAway_div hD num.toInt.natAbs prec
  rw [Real.rounded,Real.toRat,hd]
  obtain ⟨hs,h0⟩ | ⟨hs,h0⟩ := sgn_cases num.toInt
  · have hn : (num.toInt : ℚ)=(num.toInt.natAbs : Nat) := by
      have he : num.toInt=(num.toInt.natAbs : Nat) := by omega
      exact (congrArg Int.cast he).trans (Int.cast_natCast _)
    rw [hs,Int.one_mul,hn,hround]
  · have hn : (num.toInt : ℚ)=-((num.toInt.natAbs : Nat) : ℚ) := by
      have he : num.toInt=-(num.toInt.natAbs : Nat) := by omega
      apply (congrArg Int.cast he).trans
      rw [Int.cast_neg,Int.cast_natCast]
    rw [hs,hn,neg_div,neg_mul,roundAway_neg,hround,Int.neg_one_mul]

theorem absN_eq {num : Whole} (h : num.Ok w) :
    ∃a : Whole,(if wholeIsNegative num=true then numNeg w num else some num)=some a ∧ a.Ok w ∧
      a.toInt=num.toInt.natAbs := by
  by_cases hneg : num.toInt<0
  · obtain ⟨a,ha,hao,hav⟩ := ofInt_nat w h.lt
    have he : -num.toInt=(num.toInt.natAbs : Nat) := by omega
    rw [if_pos (h.isNegative.mpr hneg),numNeg_eq h hneg,he]
    exact ⟨a,ha,hao,hav⟩
  · rw [if_neg fun hc => hneg (h.isNegative.mp hc)]
    exact ⟨num,rfl,h,by omega⟩

theorem ratio_text {num den : Whole} (hr : (Real.ratio num den).Ok w) (hprec : prec≤80)
    (hfit : (Real.ratio num den).Fits prec) {p : Option Arg} (hp : precision p=some prec) :
    primToDecimal w (.number (.real (.ratio num den))::p.toList)=
      some (makeStr (sign ((Real.ratio num den).rounded prec)++
        Nat.toDigits 10 (narrow w (((Real.ratio num den).rounded prec).natAbs/10^prec))++
        fraction prec (narrow w (((Real.ratio num den).rounded prec).natAbs%10^prec)))) := by
  obtain ⟨hnum,hden,hden1,_⟩ := hr
  obtain ⟨a,ha,hao,hav⟩ := absN_eq hnum
  have hD : den.toInt=(den.toInt.natAbs : Nat) := by omega
  have hround : (Real.ratio num den).rounded prec=sgn num.toInt*
      ((2*num.toInt.natAbs*10^prec+den.toInt.natAbs)/(2*den.toInt.natAbs) : Nat) :=
    ratio_rounded (by omega) prec
  rw [Real.Fits] at hfit
  have htext (z : Nat) (hz : (Real.ratio num den).rounded prec=sgn num.toInt*z) :
      decimalText w (wholeIsNegative num) z prec=sign ((Real.ratio num den).rounded prec)++
        Nat.toDigits 10 (narrow w (((Real.ratio num den).rounded prec).natAbs/10^prec))++
        fraction prec (narrow w (((Real.ratio num den).rounded prec).natAbs%10^prec)) := by
    have habs : (sgn num.toInt*(z : Int)).natAbs=z := by
      obtain ⟨hs,_⟩ | ⟨hs,_⟩ := sgn_cases num.toInt <;> rw [hs] <;> omega
    have hminus : (wholeIsNegative num=true ∧ z≠0) ↔ sgn num.toInt*(z : Int)<0 := by
      rw [hnum.isNegative]
      obtain ⟨hs,_⟩ | ⟨hs,_⟩ := sgn_cases num.toInt <;> rw [hs] <;> omega
    rw [hz,habs,decimalText,sign]
    simp only [hminus]
  have hargs : primToDecimal w (.number (.real (.ratio num den))::p.toList)=
      (if prec=0 then some (makeStr (ratioToInteger w (wholeIsNegative num) (some a) den))
        else (ratioToDecimal w (wholeIsNegative num) (some a) den prec).map makeStr) := by
    rw [← ha]
    cases p with
    | none => simp only [Option.toList_none,primToDecimal,List.head?_nil,hp,Option.bind_eq_bind,Option.bind_some]
    | some q =>
      simp only [Option.toList_some,primToDecimal,List.head?_cons,hp,Option.bind_eq_bind,Option.bind_some]
  by_cases h0 : prec=0
  · rw [if_pos h0] at hfit
    rw [h0] at hround htext ⊢
    rw [hargs,if_pos h0,ratioToInteger_eq hao hden hav hD (by omega) hfit,htext _ hround]
  · rw [if_neg h0] at hfit
    rw [hargs,if_neg h0,ratioToDecimal_eq hao hden hav hD (by omega) (by omega) hprec hfit,htext _ hround]
    rfl

theorem whole_text (v : Whole) {p : Option Arg} (hp : precision p=some prec) :
    primToDecimal w (.number (.real (.whole v))::p.toList)=
      some (makeStr (wholeToDecimal v prec)) := by
  cases p with
  | none => simp only [Option.toList_none,primToDecimal,List.head?_nil,hp,Option.bind_eq_bind,Option.bind_some]
  | some q =>
    simp only [Option.toList_some,primToDecimal,List.head?_cons,hp,Option.bind_eq_bind,Option.bind_some]

/-- to-decimal prints the rounded value just where nothing that it prints from a long is cut to 32 bits
and the text goes into a string. -/
theorem to_decimal_iff (w : LongSize) (r : Real) (hr : r.Ok w) (p : Option Arg) (prec : Nat)
    (hp : precision p=some prec) (hfit : r.Fits prec) :
    (∃text,primToDecimal w (.number (.real r)::p.toList)=some text ∧
      Denotes text (r.rounded prec) prec) ↔
      r.Narrow w prec ∧ textLength (r.rounded prec) prec≤255 := by
  have hprec := precision_le hp
  cases r with
  | whole v =>
    rw [whole_text v hp,← whole_denotes hr hprec]
    simp only [Option.some.injEq,exists_eq_left']
  | ratio num den =>
    have htext := ratio_text hr hprec hfit hp
    have hiff := denotes_iff (c := 255)
      (narrow_le w (((Real.ratio num den).rounded prec).natAbs/10^prec))
      (narrow_le w (((Real.ratio num den).rounded prec).natAbs%10^prec))
    rw [htext]
    simp only [Option.some.injEq,exists_eq_left']
    rw [makeStr,hiff,textLength_eq,narrow_eq_iff,narrow_eq_iff,← and_assoc]
    rfl

theorem to_decimal_iff_third : (∃text,primToDecimal .eight [.number (.real (.ratio (.int (-2)) (.int 3)))]=
      some text ∧ Denotes text ((Real.ratio (.int (-2)) (.int 3)).rounded 6) 6) ↔
    (Real.ratio (.int (-2)) (.int 3)).Narrow .eight 6 ∧
      textLength ((Real.ratio (.int (-2)) (.int 3)).rounded 6) 6≤255 :=
  to_decimal_iff .eight (.ratio (.int (-2)) (.int 3))
    ⟨⟨by decide,by decide⟩,⟨by decide,by decide⟩,by decide,by decide⟩ none 6 rfl (by
      rw [Real.Fits]
      decide +kernel)

/-- The digits of (to-decimal 5000000000 1) on a long of 64 bits are those of 705032704.0. -/
theorem to_decimal_cut : ¬∀(w : LongSize) (r : Real),r.Ok w → ∀(p : Option Arg) (prec : Nat),
    precision p=some prec → r.Fits prec →
    ∃text,primToDecimal w (.number (.real r)::p.toList)=some text ∧ Denotes text (r.rounded prec) prec := by
  intro h
  obtain ⟨text,htext,hden⟩ := h .eight (.whole (.int 5000000000)) ⟨by decide,by decide⟩
    (some (.number (.real (.whole (.int 1))))) 1 rfl trivial
  have hprinted : primToDecimal .eight [.number (.real (.whole (.int 5000000000))),
      .number (.real (.whole (.int 1)))]=some "705032704.0".toList := by decide +kernel
  have hsame : text="705032704.0".toList := Option.some.inj (htext.symm.trans hprinted)
  have hval := hden.value
  rw [hsame,whole_rounded] at hval
  revert hval
  decide +kernel

end Decimal

end LugalOS.Lisp
