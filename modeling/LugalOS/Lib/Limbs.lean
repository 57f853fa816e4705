import Mathlib.Data.Nat.Digits.Lemmas
import Mathlib.Data.List.DropRight

/-! Numbers as lists of limbs below a base B, the least significant first, and the loops of
schoolbook arithmetic over them. -/

namespace LugalOS.Limbs

variable {B : Nat}

def value (B : Nat) (l : List Nat) : Nat := Nat.ofDigits B l

def Below (B : Nat) (l : List Nat) : Prop := ∀x∈l,x<B

/-- The limbs without the zeros on top. -/
def trim (l : List Nat) : List Nat := l.rdropWhile (·==0)

section Value

variable {l m : List Nat} {x : Nat}

@[simp] theorem value_nil : value B []=0 := rfl

@[simp] theorem value_cons : value B (x::l)=x+B*value B l := Nat.ofDigits_cons ..

@[simp] theorem value_append : value B (l++m)=value B l+B^l.length*value B m := Nat.ofDigits_append

@[simp] theorem value_zeros (n : Nat) : value B (List.replicate n 0)=0 :=
  Nat.ofDigits_replicate_zero

theorem Below.nil : Below B [] := fun _ h => absurd h List.not_mem_nil

theorem Below.cons (hx : x<B) (h : Below B l) : Below B (x::l) := by
  intro y hy
  cases hy with
  | head => exact hx
  | tail _ hy => exact h y hy

theorem Below.append (h : Below B l) (hm : Below B m) : Below B (l++m) := by
  intro y hy
  cases List.mem_append.mp hy with
  | inl hl => exact h y hl
  | inr hr => exact hm y hr

theorem Below.head (h : Below B (x::l)) : x<B := h x List.mem_cons_self

theorem Below.tail (h : Below B (x::l)) : Below B l := fun y hy => h y (List.mem_cons_of_mem _ hy)

theorem Below.take (h : Below B l) (n : Nat) : Below B (l.take n) :=
  fun y hy => h y (List.mem_of_mem_take hy)

theorem Below.drop (h : Below B l) (n : Nat) : Below B (l.drop n) :=
  fun y hy => h y (List.mem_of_mem_drop hy)

theorem below_digits (hB : 1<B) (n : Nat) : Below B (B.digits n) :=
  fun _ hx => Nat.digits_lt_base hB hx

theorem value_digits (n : Nat) : value B (B.digits n)=n := Nat.ofDigits_digits B n

theorem value_lt (hB : 1<B) (h : Below B l) : value B l<B^l.length :=
  Nat.ofDigits_lt_base_pow_length hB h

theorem getD_lt (hB : 0<B) (h : Below B l) (i : Nat) : l.getD i 0<B := by
  rw [List.getD_eq_getElem?_getD]
  cases hi : l[i]? with
  | none => exact hB
  | some y => exact h y (List.mem_of_getElem? hi)

theorem getD_value (hB : 0<B) (h : Below B l) (i : Nat) : value B l/B^i%B=l.getD i 0 := by
  rw [value,Nat.ofDigits_div_pow_eq_ofDigits_drop i hB l h]
  cases hd : l.drop i with
  | nil =>
    have hi : l.length≤ i := List.drop_eq_nil_iff.mp hd
    simp [hi]
  | cons y m =>
    have hi : i < l.length := by
      by_contra hge
      rw [List.drop_eq_nil_of_le (Nat.not_lt.mp hge)] at hd
      cases hd
    have hy : l[i]=y := by
      rw [List.drop_eq_getElem_cons hi] at hd
      exact (List.cons.inj hd).1
    have hlt : y<B := hy ▸ h _ (List.getElem_mem hi)
    rw [Nat.ofDigits_cons,Nat.add_mul_mod_self_left,Nat.mod_eq_of_lt hlt,← hy]
    simp [hi]

theorem take_succ_value {n : Nat} (hn : n < l.length) :
    value B (l.take (n+1))=value B (l.take n)+B^n*l.getD n 0 := by
  rw [List.take_succ_eq_append_getElem hn,value_append,List.length_take,
    Nat.min_eq_left (Nat.le_of_lt hn)]
  simp [hn]

theorem value_set {i y : Nat} (hi : i < l.length) :
    value B (l.set i (l.getD i 0+y))=value B l+B^i*y := by
  induction l generalizing i with
  | nil => cases hi
  | cons x l ih =>
    cases i with
    | zero =>
      simp only [List.set_cons_zero,List.getD_cons_zero,value_cons,pow_zero,one_mul]
      omega
    | succ i =>
      have hl : i < l.length := by
        rw [List.length_cons] at hi
        omega
      simp only [List.set_cons_succ,List.getD_cons_succ,value_cons,ih hl,pow_succ]
      ring

theorem Below.set (h : Below B l) {i y : Nat} (hy : y<B) : Below B (l.set i y) := by
  intro z hz
  cases List.mem_or_eq_of_mem_set hz with
  | inl hl => exact h z hl
  | inr he => exact he ▸ hy

end Value

section Trim

variable {l : List Nat}

theorem trim_starts (l : List Nat) : trim l<+:l := List.rdropWhile_prefix _ _

theorem Below.trim (h : Below B l) : Below B (trim l) := fun y hy => h y ((trim_starts l).subset hy)

theorem trim_length_le (l : List Nat) : (trim l).length≤l.length := (trim_starts l).length_le

theorem trim_append (l : List Nat) : ∃n,l=trim l++List.replicate n 0 := by
  refine ⟨(l.rtakeWhile (·==0)).length,?_⟩
  have hz : l.rtakeWhile (·==0)=List.replicate (l.rtakeWhile (·==0)).length 0 := by
    rw [List.eq_replicate_iff]
    exact ⟨rfl,fun y hy => by simpa using List.mem_rtakeWhile_imp hy⟩
  rw [← hz,trim,List.rdropWhile_append_rtakeWhile]

@[simp] theorem value_trim (l : List Nat) : value B (trim l)=value B l := by
  obtain ⟨n,hn⟩ := trim_append l
  conv_rhs => rw [hn]
  rw [value_append,value_zeros,Nat.mul_zero,Nat.add_zero]

theorem trim_eq_digits (hB : 1<B) (h : Below B l) : trim l=B.digits (value B l) := by
  rw [← value_trim,value,Nat.digits_ofDigits B hB _ h.trim]
  intro hne
  have hlast := List.rdropWhile_last_not (·==0) l hne
  simpa [trim] using hlast

theorem eq_digits (hB : 1<B) (h : Below B l) (hlen : l.length≤(B.digits (value B l)).length) :
    l=B.digits (value B l) := by
  rw [← trim_eq_digits hB h] at hlen ⊢
  exact ((trim_starts l).eq_of_length_le hlen).symm

theorem digits_length_mono {n m : Nat} (h : n≤ m) : (B.digits n).length≤(B.digits m).length :=
  Nat.le_length_digits_le B n m h

theorem trim_digits (hB : 1<B) (n : Nat) : trim (B.digits n)=B.digits n := by
  rw [trim_eq_digits hB (below_digits hB n),value_digits]

end Trim

/-! The loops. Those that go up are over the lists, those that go down over the number of limbs below. -/

/-- Addition of the shorter list b to a, with a carry. -/
def addLoop (B : Nat) : List Nat → List Nat → Nat → List Nat
  | x::a,y::b,c => (x+y+c)%B::addLoop B a b ((x+y+c)/B)
  | x::a,[],c => (x+c)%B::addLoop B a [] ((x+c)/B)
  | [],_,c => if c=0 then [] else [c]

/-- One turn of subtraction: the limb and the borrow. -/
def subDigit (B x y w : Nat) : Nat × Nat := if x < y+w then (x+B-(y+w),1) else (x-(y+w),0)

/-- Subtraction of the shorter list b from a, with a borrow; as many limbs as a has. -/
def subLoop (B : Nat) : List Nat → List Nat → Nat → List Nat
  | x::a,y::b,w => (subDigit B x y w).1::subLoop B a b (subDigit B x y w).2
  | x::a,[],w => (subDigit B x 0 w).1::subLoop B a [] (subDigit B x 0 w).2
  | [],_,_ => []

/-- Multiplication by one limb, with a carry: the limbs and the last carry. -/
def mulDigit (B d : Nat) : List Nat → Nat → List Nat × Nat
  | [],c => ([],c)
  | x::l,c =>
    let (m,c') := mulDigit B d l ((d*x+c)/B)
    ((d*x+c)%B::m,c')

/-- Multiplication by one limb on top of the limbs r, which are more; the carry goes to the next. -/
def mulAcc (B d : Nat) : List Nat → List Nat → Nat → List Nat
  | x::l,y::r,c => (y+d*x+c)%B::mulAcc B d l r ((y+d*x+c)/B)
  | [],y::r,c => (y+c)%B::r
  | _,[],_ => []

/-- The rows of a product, each one limb further up. -/
def mulLoop (B : Nat) (b : List Nat) : List Nat → List Nat → List Nat
  | [],r => r
  | x::a,r =>
    match (if x=0 then r else mulAcc B x b r 0) with
    | [] => []
    | y::r => y::mulLoop B b a r

/-- Division of the low n limbs by one, from the top down, behind a remainder: the quotient's limbs
and the remainder. -/
def divLoop (B d : Nat) (l : List Nat) : Nat → Nat → List Nat × Nat
  | 0,r => ([],r)
  | n+1,r =>
    let (q,r') := divLoop B d l n ((r*B+l.getD n 0)%d)
    (q++[(r*B+l.getD n 0)/d],r')

/-- Comparison of the low n limbs, from the top down. -/
def cmpLoop (a b : List Nat) : Nat → Ordering
  | 0 => .eq
  | n+1 => if a.getD n 0≠b.getD n 0 then compare (a.getD n 0) (b.getD n 0) else cmpLoop a b n

section Loops

variable {a b l r : List Nat} {d : Nat}

theorem addLoop_value {c : Nat} (hlen : b.length≤a.length) :
    value B (addLoop B a b c)=value B a+value B b+c := by
  induction a generalizing b c with
  | nil =>
    have hb : b=[] := List.length_eq_zero_iff.mp (Nat.le_zero.mp hlen)
    subst hb
    by_cases hc : c=0 <;> simp [addLoop,hc]
  | cons x a ih =>
    cases b with
    | nil =>
      have hdiv := Nat.mod_add_div (x+c) B
      rw [addLoop,value_cons,ih (Nat.zero_le _),value_cons,value_nil,Nat.mul_add,Nat.mul_add]
      omega
    | cons y b =>
      have hdiv := Nat.mod_add_div (x+y+c) B
      rw [addLoop,value_cons,ih (Nat.le_of_succ_le_succ hlen),value_cons,value_cons,Nat.mul_add,
        Nat.mul_add]
      omega

theorem carry_lt {s : Nat} (h : s < 2*B) : s/B≤1 := by
  have := Nat.div_lt_of_lt_mul (m := s) (n := B) (k := 2) (by omega)
  omega

theorem addLoop_below (hB : 1<B) (ha : Below B a) (hb : Below B b) {c : Nat} (hc : c≤1) :
    Below B (addLoop B a b c) := by
  induction a generalizing b c with
  | nil =>
    rw [addLoop]
    by_cases h0 : c=0
    · rw [if_pos h0]
      exact .nil
    · rw [if_neg h0]
      exact .cons (by omega) .nil
  | cons x a ih =>
    have hx := ha.head
    cases b with
    | nil => exact .cons (Nat.mod_lt _ (by omega)) (ih ha.tail .nil (carry_lt (by omega)))
    | cons y b =>
      have hy := hb.head
      exact .cons (Nat.mod_lt _ (by omega)) (ih ha.tail hb.tail (carry_lt (by omega)))

theorem addLoop_length (a b : List Nat) (c : Nat) : (addLoop B a b c).length≤a.length+1 := by
  induction a generalizing b c with
  | nil =>
    rw [addLoop]
    split_ifs <;> simp
  | cons x a ih =>
    cases b with
    | nil => simpa [addLoop] using ih [] _
    | cons y b => simpa [addLoop] using ih b _

theorem subDigit_spec {x y w : Nat} (hx : x<B) (hy : y<B) (hw : w≤1) :
    (subDigit B x y w).1<B ∧ (subDigit B x y w).2≤1 ∧
      (subDigit B x y w).1+y+w=x+B*(subDigit B x y w).2 := by
  rw [subDigit]
  split_ifs with h
  · refine ⟨?_,Nat.le_refl 1,?_⟩ <;> dsimp only <;> omega
  · refine ⟨?_,Nat.zero_le 1,?_⟩ <;> dsimp only <;> omega

theorem subLoop_length (a b : List Nat) (w : Nat) : (subLoop B a b w).length=a.length := by
  induction a generalizing b w with
  | nil => rfl
  | cons x a ih =>
    cases b with
    | nil | cons y b => simp [subLoop,ih]

theorem subLoop_value (hB : 1<B) (ha : Below B a) (hb : Below B b) {w : Nat} (hw : w≤1)
    (hlen : b.length≤a.length) (hle : value B b+w≤value B a) :
    Below B (subLoop B a b w) ∧ value B (subLoop B a b w)+value B b+w=value B a := by
  induction a generalizing b w with
  | nil =>
    have hb0 : b=[] := List.length_eq_zero_iff.mp (Nat.le_zero.mp hlen)
    subst hb0
    exact ⟨.nil,by simpa [subLoop] using hle⟩
  | cons x a ih =>
    have hstep (y : Nat) (b : List Nat) (hy : y<B) (hb : Below B b) (hlen : b.length≤a.length)
        (hle : y+B*value B b+w≤x+B*value B a) :
        Below B ((subDigit B x y w).1::subLoop B a b (subDigit B x y w).2) ∧
          value B ((subDigit B x y w).1::subLoop B a b (subDigit B x y w).2)+(y+B*value B b)+w=
            x+B*value B a := by
      obtain ⟨h1,h2,h3⟩ := subDigit_spec ha.head hy hw
      have hle' : value B b+(subDigit B x y w).2≤value B a := by
        by_contra hlt
        have hmul : B*(value B a+1)≤B*(value B b+(subDigit B x y w).2) :=
          Nat.mul_le_mul_left B (by omega)
        rw [Nat.mul_add,Nat.mul_add] at hmul
        omega
      obtain ⟨hbelow,hval⟩ := ih ha.tail hb h2 hlen hle'
      refine ⟨.cons h1 hbelow,?_⟩
      rw [value_cons,← hval,Nat.mul_add,Nat.mul_add]
      omega
    cases b with
    | nil =>
      have h := hstep 0 [] (by omega) .nil (Nat.zero_le _) (by simpa using hle)
      simpa [subLoop] using h
    | cons y b =>
      have h := hstep y b hb.head hb.tail (Nat.le_of_succ_le_succ hlen) (by simpa using hle)
      simpa [subLoop] using h

theorem mulDigit_length (l : List Nat) (c : Nat) : (mulDigit B d l c).1.length=l.length := by
  induction l generalizing c with
  | nil => rfl
  | cons x l ih => simp [mulDigit,ih]

theorem mulDigit_value (l : List Nat) (c : Nat) :
    value B (mulDigit B d l c).1+B^l.length*(mulDigit B d l c).2=d*value B l+c := by
  induction l generalizing c with
  | nil => simp [mulDigit]
  | cons x l ih =>
    have h := ih ((d*x+c)/B)
    have hdiv := Nat.mod_add_div (d*x+c) B
    simp only [mulDigit,value_cons,List.length_cons,pow_succ]
    calc (d*x+c)%B+B*value B (mulDigit B d l ((d*x+c)/B)).1+
          B^l.length*B*(mulDigit B d l ((d*x+c)/B)).2
        =(d*x+c)%B+B*(value B (mulDigit B d l ((d*x+c)/B)).1+
          B^l.length*(mulDigit B d l ((d*x+c)/B)).2) := by ring
      _=(d*x+c)%B+B*(d*value B l+(d*x+c)/B) := by rw [h]
      _=(d*x+c)%B+B*((d*x+c)/B)+d*(B*value B l) := by ring
      _=d*(x+B*value B l)+c := by
        rw [hdiv]
        ring

theorem mulDigit_below (hB : 0<B) (l : List Nat) (c : Nat) : Below B (mulDigit B d l c).1 := by
  induction l generalizing c with
  | nil => exact .nil
  | cons x l ih => exact .cons (Nat.mod_lt _ hB) (ih _)

theorem mulDigit_carry (hl : Below B l) {c : Nat} (hc : c<d) : (mulDigit B d l c).2<d := by
  induction l generalizing c with
  | nil => exact hc
  | cons x l ih =>
    apply ih hl.tail
    have hx := hl.head
    apply Nat.div_lt_of_lt_mul
    calc d*x+c < d*x+d := by omega
      _=d*(x+1) := by ring
      _≤B*d := by
        rw [Nat.mul_comm B]
        exact Nat.mul_le_mul_left d hx

theorem mulAcc_spec (hB : 0<B) (hd : d<B) {r0 r1 : List Nat} (hl : Below B l) (hr : Below B r0)
    (hlen : r0.length=l.length) {c : Nat} (hc : c<B) :
    ∃m,mulAcc B d l (r0++0::r1) c=m++r1 ∧ m.length=l.length+1 ∧ Below B m ∧
      value B m=value B r0+d*value B l+c := by
  induction l generalizing r0 c with
  | nil =>
    have h0 : r0=[] := List.length_eq_zero_iff.mp hlen
    subst h0
    refine ⟨[c],?_,rfl,.cons hc .nil,by simp⟩
    simp [mulAcc,Nat.mod_eq_of_lt hc]
  | cons x l ih =>
    cases r0 with
    | nil => cases hlen
    | cons y r0 =>
      have hx := hl.head
      have hy := hr.head
      have hcarry : (y+d*x+c)/B<B := by
        apply Nat.div_lt_of_lt_mul
        have hmul : d*x≤(B-1)*(B-1) := Nat.mul_le_mul (by omega) (by omega)
        obtain ⟨k,rfl⟩ : ∃k,B=k+1 := ⟨B-1,by omega⟩
        rw [Nat.add_sub_cancel] at hmul
        calc y+d*x+c≤k+k*k+k := by omega
          _ < (k+1)*(k+1) := by
            ring_nf
            omega
      obtain ⟨m,he,hm,hbelow,hval⟩ := ih hl.tail hr.tail (Nat.succ.inj hlen) hcarry
      have hdiv := Nat.mod_add_div (y+d*x+c) B
      refine ⟨(y+d*x+c)%B::m,?_,?_,.cons (Nat.mod_lt _ hB) hbelow,?_⟩
      · simp [mulAcc,he]
      · simp [hm]
      · rw [value_cons,hval,value_cons,value_cons]
        calc (y+d*x+c)%B+B*(value B r0+d*value B l+(y+d*x+c)/B)
            =(y+d*x+c)%B+B*((y+d*x+c)/B)+B*value B r0+d*(B*value B l) := by ring
          _=y+B*value B r0+d*(x+B*value B l)+c := by
            rw [hdiv]
            ring

theorem mulLoop_spec (hB : 0<B) (ha : Below B a) (hb : Below B b) (hr : Below B r)
    (hlen : r.length=b.length) :
    (mulLoop B b a (r++List.replicate a.length 0)).length=a.length+b.length ∧
      Below B (mulLoop B b a (r++List.replicate a.length 0)) ∧
      value B (mulLoop B b a (r++List.replicate a.length 0))=value B r+value B a*value B b := by
  induction a generalizing r with
  | nil => simpa [mulLoop,hlen] using hr
  | cons x a ih =>
    have hrow : ∃m,(if x=0 then r++List.replicate (x::a).length 0
        else mulAcc B x b (r++List.replicate (x::a).length 0) 0)=m++List.replicate a.length 0 ∧
        m.length=b.length+1 ∧ Below B m ∧ value B m=value B r+x*value B b := by
      rw [List.length_cons,List.replicate_succ]
      by_cases hx : x=0
      · rw [if_pos hx]
        exact ⟨r++[0],by simp,by simp [hlen],hr.append (.cons hB .nil),by simp [hx]⟩
      · rw [if_neg hx]
        exact mulAcc_spec hB ha.head hb hr hlen hB
    obtain ⟨m,he,hm,hbelow,hval⟩ := hrow
    cases m with
    | nil => cases hm
    | cons y m =>
      obtain ⟨h1,h2,h3⟩ := ih ha.tail hbelow.tail (Nat.succ.inj hm)
      rw [mulLoop,he,List.cons_append]
      refine ⟨?_,.cons hbelow.head h2,?_⟩
      · simp only [List.length_cons,h1]
        omega
      · rw [value_cons,h3,value_cons]
        rw [value_cons] at hval
        calc y+B*(value B m+value B a*value B b)
            =y+B*value B m+B*value B a*value B b := by ring
          _=value B r+(x+B*value B a)*value B b := by
            rw [hval]
            ring

theorem divLoop_spec (hd : 0<d) (hl : Below B l) {n r : Nat} (hn : n≤l.length) (hr : r<d) :
    (divLoop B d l n r).1.length=n ∧ Below B (divLoop B d l n r).1 ∧ (divLoop B d l n r).2<d ∧
      value B (divLoop B d l n r).1*d+(divLoop B d l n r).2=r*B^n+value B (l.take n) := by
  induction n generalizing r with
  | zero => exact ⟨rfl,.nil,hr,by simp [divLoop]⟩
  | succ n ih =>
    have hB : 0<B := by
      cases hle : l with
      | nil => rw [hle] at hn; cases hn
      | cons x m => exact Nat.zero_lt_of_lt (hl x (hle ▸ List.mem_cons_self))
    obtain ⟨h1,h2,h3,h4⟩ := ih (r := (r*B+l.getD n 0)%d) (by omega) (Nat.mod_lt _ hd)
    have hdigit : l.getD n 0<B := getD_lt hB hl n
    have hq : (r*B+l.getD n 0)/d<B := by
      apply Nat.div_lt_of_lt_mul
      calc r*B+l.getD n 0 < r*B+B := by omega
        _=(r+1)*B := by ring
        _≤d*B := Nat.mul_le_mul_right B hr
    simp only [divLoop]
    refine ⟨by rw [List.length_append,h1,List.length_singleton],h2.append (.cons hq .nil),h3,?_⟩
    have hdiv := Nat.mod_add_div (r*B+l.getD n 0) d
    rw [value_append,h1,value_cons,value_nil,take_succ_value hn]
    calc (value B (divLoop B d l n ((r*B+l.getD n 0)%d)).1+
          B^n*((r*B+l.getD n 0)/d+B*0))*d+(divLoop B d l n ((r*B+l.getD n 0)%d)).2
        =value B (divLoop B d l n ((r*B+l.getD n 0)%d)).1*d+
          (divLoop B d l n ((r*B+l.getD n 0)%d)).2+B^n*(d*((r*B+l.getD n 0)/d)) := by ring
      _=((r*B+l.getD n 0)%d+d*((r*B+l.getD n 0)/d))*B^n+value B (l.take n) := by
        rw [h4]
        ring
      _=r*B^(n+1)+(value B (l.take n)+B^n*l.getD n 0) := by
        rw [hdiv,pow_succ]
        ring

theorem cmpLoop_eq (hB : 1<B) (ha : Below B a) (hb : Below B b) {n : Nat} (hna : n≤a.length)
    (hnb : n≤b.length) : cmpLoop a b n=compare (value B (a.take n)) (value B (b.take n)) := by
  induction n with
  | zero => simp [cmpLoop]
  | succ n ih =>
    have hlt (l : List Nat) (h : Below B l) (hn : n+1≤l.length) : value B (l.take n)<B^n := by
      have := value_lt hB (h.take n)
      rwa [List.length_take,Nat.min_eq_left (by omega)] at this
    have hla := hlt a ha hna
    have hlb := hlt b hb hnb
    -- the higher limb decides where the two are not the same
    have hup {x y u v : Nat} (hxy : x<y) (hu : u<B^n) : u+B^n*x<v+B^n*y := by
      calc u+B^n*x < B^n*(x+1) := by
            rw [Nat.mul_add,Nat.mul_one]
            omega
        _≤B^n*y := Nat.mul_le_mul_left _ hxy
        _≤v+B^n*y := Nat.le_add_left _ _
    rw [cmpLoop,take_succ_value hna,take_succ_value hnb]
    by_cases he : a.getD n 0=b.getD n 0
    · rw [if_neg (not_not_intro he),ih (by omega) (by omega),he]
      simp only [Nat.compare_eq_ite_lt]
      simp only [Nat.add_lt_add_iff_right]
    · rw [if_pos he]
      by_cases hl : a.getD n 0 < b.getD n 0
      · rw [Nat.compare_eq_lt.mpr hl,Nat.compare_eq_lt.mpr (hup hl hla)]
      · have hg : b.getD n 0 < a.getD n 0 := by omega
        rw [Nat.compare_eq_gt.mpr hg,Nat.compare_eq_gt.mpr (hup hg hlb)]

end Loops

end LugalOS.Limbs
