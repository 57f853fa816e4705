import Mathlib.Data.List.TakeWhile
import Mathlib.Data.Rat.Floor

namespace LugalOS.Decimal

def padded : Nat → Nat → List Char
  | 0,_ => []
  | k+1,n => padded k (n/10)++[Nat.digitChar (n%10)]

def sign (z : Int) : List Char := if z<0 then ['-'] else []

def fraction (prec f : Nat) : List Char := if prec=0 then [] else '.'::padded prec f

/-- A text for the number z at a scale of prec digits: a sign where it is below zero, digits, and prec
digits after the point. -/
def Denotes (text : List Char) (z : Int) (prec : Nat) : Prop :=
  ∃whole frac : List Char,
    text=sign z++whole++(if prec=0 then [] else '.'::frac) ∧ whole≠[] ∧
      (∀c∈whole++frac,c.isDigit=true) ∧ frac.length=prec ∧
      Nat.ofDigitChars 10 (whole++frac) 0=z.natAbs

/-- The nearest whole number, half away from zero. -/
def roundAway (x : ℚ) : ℤ := if x<0 then -round (-x) else round x

section Digits

variable {l whole frac text : List Char} {n prec : Nat} {z : Int}

theorem digit_value_lt {c : Char} (h : c.isDigit=true) : c.toNat- '0'.toNat<10 := by
  simp only [Char.isDigit,Bool.and_eq_true,decide_eq_true_eq] at h
  have h1 := h.2
  rw [UInt32.le_iff_toNat_le] at h1
  have : c.toNat≤57 := h1
  have h0 : '0'.toNat=48 := rfl
  omega

theorem ofDigitChars_lt (h : ∀c∈l,c.isDigit=true) : Nat.ofDigitChars 10 l 0<10^l.length := by
  induction l with
  | nil => exact Nat.one_pos
  | cons c l ih =>
    have hc := digit_value_lt (h c List.mem_cons_self)
    have hl := ih fun d hd => h d (List.mem_cons_of_mem c hd)
    rw [Nat.ofDigitChars_cons,Nat.ofDigitChars_eq_ofDigitChars_zero,List.length_cons,Nat.pow_succ,
      Nat.mul_zero,Nat.zero_add]
    calc 10^l.length*(c.toNat- '0'.toNat)+Nat.ofDigitChars 10 l 0
        < 10^l.length*(c.toNat- '0'.toNat)+10^l.length := Nat.add_lt_add_left hl _
      _=10^l.length*(c.toNat- '0'.toNat+1) := by ring
      _≤10^l.length*10 := Nat.mul_le_mul_left _ hc

theorem toDigits_isDigit (n : Nat) : ∀c∈Nat.toDigits 10 n,c.isDigit=true :=
  fun _ hc => Nat.isDigit_of_mem_toDigits (by decide) (by decide) hc

theorem toDigits_length_le {k : Nat} (hk : 0<k) : (Nat.toDigits 10 n).length≤k ↔ n<10^k :=
  Nat.length_toDigits_le_iff (by decide) hk

theorem padded_zero (k : Nat) : padded k 0=List.replicate k '0' := by
  induction k with
  | zero => rfl
  | succ k ih => rw [padded,Nat.zero_div,ih,List.replicate_succ']; rfl

theorem padded_length (k n : Nat) : (padded k n).length=k := by
  induction k generalizing n with
  | zero => rfl
  | succ k ih => rw [padded,List.length_append,ih,List.length_singleton]

theorem digitChar_isDigit {n : Nat} (h : n<10) : (Nat.digitChar n).isDigit=true := by
  apply toDigits_isDigit n
  rw [Nat.toDigits_of_lt_base h]
  exact List.mem_singleton_self _

theorem padded_isDigit (k n : Nat) : ∀c∈padded k n,c.isDigit=true := by
  induction k generalizing n with
  | zero =>
    intro c hc
    cases hc
  | succ k ih =>
    intro c hc
    rw [padded,List.mem_append,List.mem_singleton] at hc
    cases hc with
    | inl hc => exact ih _ c hc
    | inr hc =>
      rw [hc]
      exact digitChar_isDigit (Nat.mod_lt n (by decide))

theorem leftpad_snoc (k : Nat) (c d : Char) (l : List Char) :
    List.leftpad (k+1) c (l++[d])=List.leftpad k c l++[d] := by
  simp [List.leftpad]

theorem leftpad_toDigits {k : Nat} (hk : 0<k) (h : n<10^k) :
    (Nat.toDigits 10 n).leftpad k '0'=padded k n := by
  induction k generalizing n with
  | zero => omega
  | succ k ih =>
    rw [padded]
    by_cases hn : n<10
    · have h0 : n/10=0 := Nat.div_eq_of_lt hn
      have hpad := leftpad_snoc k '0' (Nat.digitChar n) []
      rw [List.nil_append] at hpad
      rw [Nat.toDigits_of_lt_base hn,hpad,h0,padded_zero,Nat.mod_eq_of_lt hn]
      simp [List.leftpad]
    · have hpow : 10^(k+1)=10^k*10 := Nat.pow_succ 10 k
      have hk0 : 0<k := by
        apply Nat.pos_of_ne_zero
        intro h0
        rw [h0] at h
        omega
      rw [Nat.toDigits_of_base_le (by decide) (Nat.not_lt.mp hn),leftpad_snoc,ih hk0 (by omega)]

theorem toDigits_split {a b : Nat} (ha : 0<a) (k : Nat) (hb : b<10^k) :
    Nat.toDigits 10 (a*10^k+b)=Nat.toDigits 10 a++padded k b := by
  induction k generalizing b with
  | zero =>
    have h0 : b=0 := Nat.lt_one_iff.mp hb
    rw [h0,padded,List.append_nil,Nat.pow_zero,Nat.mul_one,Nat.add_zero]
  | succ k ih =>
    have hpow : 10^(k+1)=10^k*10 := Nat.pow_succ 10 k
    have hstep : a*10^(k+1)+b=10*(a*10^k+b/10)+b%10 := by
      rw [hpow]
      have := Nat.div_add_mod b 10
      ring_nf
      omega
    have hpos : 0<a*10^k := Nat.mul_pos ha (Nat.pow_pos (by decide))
    rw [hstep,← Nat.toDigits_append_toDigits (by decide) (by omega) (Nat.mod_lt b (by decide)),
      ih (by omega),padded,Nat.toDigits_of_lt_base (Nat.mod_lt b (by decide)),List.append_assoc]

theorem padded_value {k : Nat} (h : n<10^k) : Nat.ofDigitChars 10 (padded k n) 0=n := by
  have hsplit := toDigits_split (a := 1) Nat.one_pos k h
  have hval := congrArg (fun l => Nat.ofDigitChars 10 l 0) hsplit
  simp only [Nat.ofDigitChars_append,Nat.ofDigitChars_ten_toDigits] at hval
  rw [Nat.ofDigitChars_eq_ofDigitChars_zero,padded_length] at hval
  omega

end Digits

section Texts

variable {text : List Char} {i f prec c : Nat} {z : Int}

theorem sign_digits (z : Int) : (sign z).filter Char.isDigit=[] := by
  rw [sign]
  split_ifs <;> rfl

theorem sign_point (z : Int) : '.'∉sign z := by
  rw [sign]
  split_ifs <;> decide

theorem toDigits_point (n : Nat) : '.'∉Nat.toDigits 10 n :=
  fun h => absurd (toDigits_isDigit n _ h) (by decide)

theorem filter_isDigit {l : List Char} (h : ∀c∈l,c.isDigit=true) : l.filter Char.isDigit=l :=
  List.filter_eq_self.mpr h

theorem Denotes.value (h : Denotes text z prec) :
    Nat.ofDigitChars 10 (text.filter Char.isDigit) 0=z.natAbs := by
  obtain ⟨whole,frac,htext,_,hdig,hlen,hval⟩ := h
  have hw := filter_isDigit fun c hc => hdig c (List.mem_append_left frac hc)
  have hf := filter_isDigit fun c hc => hdig c (List.mem_append_right whole hc)
  rw [htext,List.filter_append,List.filter_append,sign_digits,List.nil_append,hw]
  by_cases h0 : prec=0
  · rw [h0,List.length_eq_zero_iff] at hlen
    rw [if_pos h0,List.filter_nil]
    rwa [hlen] at hval
  · rw [if_neg h0,List.filter_cons_of_neg (by decide),hf,hval]

theorem dropWhile_point {l r : List Char} (h : '.' ∉ l) : (l++ '.'::r).dropWhile (· ≠ '.')= '.'::r := by
  rw [List.dropWhile_append_of_pos (by
    intro c hc
    rw [decide_eq_true_eq]
    exact fun he => h (he ▸ hc)),List.dropWhile_cons_of_neg (by simp)]

theorem Denotes.point (h : Denotes text z prec) (h0 : 0<prec) :
    (text.dropWhile (· ≠ '.')).length=prec+1 := by
  obtain ⟨whole,frac,htext,_,hdig,hlen,_⟩ := h
  have hno : '.'∉sign z++whole := by
    intro hmem
    cases List.mem_append.mp hmem with
    | inl h => exact sign_point z h
    | inr h => exact absurd (hdig _ (List.mem_append_left frac h)) (by decide)
  rw [htext,if_neg (by omega),dropWhile_point hno,List.length_cons,hlen]

theorem printed_denotes (z : Int) (prec : Nat) :
    Denotes (sign z++Nat.toDigits 10 (z.natAbs/10^prec)++fraction prec (z.natAbs%10^prec)) z prec := by
  have hmod : z.natAbs%10^prec<10^prec := Nat.mod_lt _ (Nat.pow_pos (by decide))
  refine ⟨Nat.toDigits 10 (z.natAbs/10^prec),padded prec (z.natAbs%10^prec),rfl,Nat.toDigits_ne_nil,
    ?_,padded_length _ _,?_⟩
  · intro c hc
    cases List.mem_append.mp hc with
    | inl h => exact toDigits_isDigit _ c h
    | inr h => exact padded_isDigit _ _ c h
  · rw [Nat.ofDigitChars_append,Nat.ofDigitChars_ten_toDigits,Nat.ofDigitChars_eq_ofDigitChars_zero,
      padded_length,padded_value hmod]
    exact Nat.div_add_mod _ _

theorem printed_value (z : Int) {prec : Nat} (hf : f<10^prec) :
    Nat.ofDigitChars 10 ((sign z++Nat.toDigits 10 i++fraction prec f).filter Char.isDigit) 0=
      10^prec*i+f := by
  have hfrac : (fraction prec f).filter Char.isDigit=padded prec f := by
    rw [fraction]
    by_cases h0 : prec=0
    · rw [if_pos h0,h0]
      rfl
    · rw [if_neg h0,List.filter_cons_of_neg (by decide),filter_isDigit (padded_isDigit _ _)]
  rw [List.filter_append,List.filter_append,sign_digits,List.nil_append,
    filter_isDigit (toDigits_isDigit i),hfrac,Nat.ofDigitChars_append,Nat.ofDigitChars_ten_toDigits,
    Nat.ofDigitChars_eq_ofDigitChars_zero,padded_length,padded_value hf]

theorem Denotes.uncut (hi : i≤z.natAbs/10^prec)
    (h : Denotes ((sign z++Nat.toDigits 10 i++fraction prec f).take c) z prec) :
    (sign z++Nat.toDigits 10 i++fraction prec f).length≤c := by
  by_contra hcut
  have hlt := Nat.not_le.mp hcut
  by_cases h0 : prec=0
  · obtain ⟨whole,frac,htext,hne,hdig,hlen,hval⟩ := h
    have hfrac : frac=[] := by rwa [h0,List.length_eq_zero_iff] at hlen
    rw [hfrac,List.append_nil] at hval hdig
    rw [fraction,if_pos h0,List.append_nil] at hlt
    rw [fraction,if_pos h0,if_pos h0,List.append_nil,List.append_nil] at htext
    have hsize := congrArg List.length htext
    rw [List.length_take,List.length_append] at hsize
    rw [List.length_append] at hlt
    have hpos := List.length_pos_iff.mpr hne
    have hsmall := ofDigitChars_lt hdig
    have hbig : ¬(Nat.toDigits 10 i).length≤whole.length := by
      rw [List.length_append] at hsize
      omega
    rw [toDigits_length_le hpos] at hbig
    rw [h0,Nat.pow_zero,Nat.div_one] at hi
    omega
  · have hpoint := h.point (Nat.pos_of_ne_zero h0)
    have hno : '.'∉sign z++Nat.toDigits 10 i := by
      intro hmem
      cases List.mem_append.mp hmem with
      | inl h => exact sign_point z h
      | inr h => exact toDigits_point i h
    rw [fraction,if_neg h0,List.length_append,List.length_cons,padded_length] at hlt
    rw [fraction,if_neg h0] at hpoint
    generalize sign z++Nat.toDigits 10 i=l at hpoint hno hlt
    by_cases hc : c≤l.length
    · rw [List.take_append_of_le_length hc,List.dropWhile_eq_nil_iff.mpr (by
        intro c hc
        rw [decide_eq_true_eq]
        exact fun he => hno (he ▸ List.mem_of_mem_take hc))] at hpoint
      cases hpoint
    · obtain ⟨n,hn⟩ : ∃n,c=l.length+(n+1) := ⟨c-l.length-1,by omega⟩
      rw [hn,List.take_length_add_append,List.take_succ_cons,dropWhile_point hno,List.length_cons,
        List.length_take,padded_length] at hpoint
      omega

/-- The text of a sign, digits and a fraction that are not too large denotes the number just where
they are the right ones and nothing is cut. -/
theorem denotes_iff (hi : i≤z.natAbs/10^prec) (hf : f≤z.natAbs%10^prec) :
    Denotes ((sign z++Nat.toDigits 10 i++fraction prec f).take c) z prec ↔
      i=z.natAbs/10^prec ∧ f=z.natAbs%10^prec ∧
        (sign z++Nat.toDigits 10 (z.natAbs/10^prec)++fraction prec (z.natAbs%10^prec)).length≤c := by
  have hpow : 0<10^prec := Nat.pow_pos (by decide)
  have hmod := Nat.mod_lt z.natAbs hpow
  constructor
  · intro h
    have hlen := h.uncut hi
    rw [List.take_of_length_le hlen] at h
    have hval := h.value
    rw [printed_value z (by omega)] at hval
    have hdiv := Nat.div_add_mod z.natAbs (10^prec)
    have hmul := Nat.mul_le_mul_left (10^prec) hi
    have hfe : f=z.natAbs%10^prec := by omega
    have hie : i=z.natAbs/10^prec := by
      apply Nat.eq_of_mul_eq_mul_left hpow
      omega
    rw [hfe,hie] at hlen
    exact ⟨hie,hfe,hlen⟩
  · intro h
    obtain ⟨hie,hfe,hlen⟩ := h
    rw [hie,hfe,List.take_of_length_le hlen]
    exact printed_denotes z prec

end Texts

section Rounding

variable {n d : Nat}

theorem roundAway_neg (x : ℚ) : roundAway (-x)=-roundAway x := by
  rw [roundAway,roundAway,neg_neg]
  by_cases h0 : x=0
  · rw [h0,neg_zero,round_zero]
    rfl
  by_cases h : x<0
  · rw [if_neg (by linarith),if_pos h,neg_neg]
  · have hpos : 0<x := lt_of_le_of_ne (not_lt.mp h) (Ne.symm h0)
    rw [if_pos (by linarith),if_neg h]

theorem roundAway_div (hd : 0<d) (n prec : Nat) :
    roundAway ((n : ℚ)/d*10^prec)=((2*n*10^prec+d)/(2*d) : Nat) := by
  have hd0 : (d : ℚ)≠0 := by exact_mod_cast hd.ne'
  have hx : (n : ℚ)/d*10^prec+1/2=((2*n*10^prec+d : Nat) : ℚ)/((2*d : Nat) : ℚ) := by
    push_cast
    field_simp
  have hpos : ¬(n : ℚ)/d*10^prec<0 := by
    have : (0 : ℚ)≤(n : ℚ)/d*10^prec := by positivity
    linarith
  rw [roundAway,if_neg hpos,round_eq,hx,Rat.floor_natCast_div_natCast]
  rfl

theorem roundAway_int (z : Int) : roundAway (z : ℚ)=z := by
  rw [roundAway]
  split_ifs
  · rw [← Int.cast_neg,round_intCast,neg_neg]
  · exact round_intCast z

end Rounding

end LugalOS.Decimal
