import Mathlib.Tactic.Linarith
import Mathlib.Tactic.Ring

namespace LugalOS.Newton

def next (n x : Nat) : Nat := (x+n/x)/2

/-- k turns at most, as long as x gets smaller: where it is then, and whether it ended before. -/
def newton (n : Nat) : Nat → Nat → Nat × Bool
  | 0,x => (x,false)
  | k+1,x => if next n x<x then newton n k (next n x) else (x,true)

section Next

variable {n x : Nat}

theorem sqrt_le_next (hx : 0<x) : Nat.sqrt n≤next n x := by
  by_contra hlt
  have hs := Nat.sqrt_le n
  generalize Nat.sqrt n=s at hlt hs
  have hsum : x+(n/x+1)≤2*s := by
    rw [next] at hlt
    omega
  have hn : n<x*(n/x+1) := by
    have hdiv := Nat.div_add_mod n x
    have hmod := Nat.mod_lt n hx
    rw [Nat.mul_add,Nat.mul_one]
    omega
  -- x and n/x+1 have a sum of at most 2s, so a product of at most s²
  have hprod : 4*(x*(n/x+1))≤(x+(n/x+1))*(x+(n/x+1)) := by
    zify
    nlinarith [sq_nonneg ((x : Int)-((n : Int)/x+1))]
  have hsq : (x+(n/x+1))*(x+(n/x+1))≤2*s*(2*s) := Nat.mul_le_mul hsum hsum
  have h4 : 2*s*(2*s)=4*(s*s) := by ring
  omega

theorem eq_sqrt_of_stays (hx : 0<x) (hs : Nat.sqrt n≤x) (h : x≤next n x) : x=Nat.sqrt n := by
  rw [Nat.eq_sqrt]
  constructor
  · have hq : x≤n/x := by
      rw [next] at h
      omega
    exact (Nat.le_div_iff_mul_le hx).mp hq
  · exact Nat.sqrt_lt.mp (Nat.lt_succ_of_le hs)

theorem newton_eq_sqrt {k : Nat} (hx : 0<x) (hs : Nat.sqrt n≤x) (hn : 0<n)
    (h : (newton n k x).2=true) : (newton n k x).1=Nat.sqrt n := by
  induction k generalizing x with
  | zero => cases h
  | succ k ih =>
    rw [newton] at h ⊢
    by_cases hlt : next n x<x
    · rw [if_pos hlt] at h ⊢
      have hnext := sqrt_le_next (n := n) hx
      exact ih (Nat.lt_of_lt_of_le (Nat.sqrt_pos.mpr hn) hnext) hnext h
    · rw [if_neg hlt]
      exact eq_sqrt_of_stays hx hs (Nat.not_lt.mp hlt)

/-- It ends after as many turns as it is away from the root. -/
theorem newton_near {k : Nat} (hx : 0<x) (hs : Nat.sqrt n≤x) (hn : 0<n) (hk : x < Nat.sqrt n+k) :
    (newton n k x).2=true := by
  induction k generalizing x with
  | zero => omega
  | succ k ih =>
    rw [newton]
    by_cases hlt : next n x<x
    · rw [if_pos hlt]
      have hnext := sqrt_le_next (n := n) hx
      exact ih (Nat.lt_of_lt_of_le (Nat.sqrt_pos.mpr hn) hnext) hnext (by omega)
    · rw [if_neg hlt]

theorem newton_step {k : Nat} (h : (newton n k (next n x)).2=true) :
    (newton n (k+1) x).2=true := by
  rw [newton]
  split_ifs
  · exact h
  · rfl

theorem next_error {s d d' : Nat} (hs : Nat.sqrt n=s) (hd : x=s+d)
    (hd' : next n x=s+d') : 2*(s+d)*d'≤d*d+2*s := by
  have hn : n≤ s*s+2*s := by
    have := Nat.sqrt_le_add n
    rw [hs] at this
    omega
  have hdiv : x*(n/x)≤n := Nat.mul_div_le n x
  have hy : 2*(s+d')≤x+n/x := by
    rw [← hd',next]
    omega
  have hmul : x*(2*(s+d'))≤x*(x+n/x) := Nat.mul_le_mul_left x hy
  rw [Nat.mul_add] at hmul
  rw [hd] at hdiv hmul
  nlinarith

theorem error_halves {s d d' m : Nat} (hs : 4≤ s) (hm : 2≤ m) (h : 2*(s+d)*d'≤d*d+2*s)
    (hd : d*2^m≤ s+2*2^m) : d'*2^(2*m+1)≤ s+2*2^(2*m+1) := by
  have hK : 4≤2^m := Nat.pow_le_pow_right (by decide : 0<2) hm
  have hpow : 2^(2*m+1)=2*(2^m*2^m) := by
    rw [Nat.pow_succ,Nat.two_mul,Nat.pow_add,Nat.mul_comm]
  rw [hpow]
  generalize 2^m=K at hK hd
  by_contra hlt
  have hbig : s+2*(2*(K*K))+1≤d'*(2*(K*K)) := by omega
  have h1 : 2*(s+d)*d'*(2*(K*K))≤(d*d+2*s)*(2*(K*K)) := Nat.mul_le_mul_right _ h
  have h2 : (d*K)*(d*K)≤(s+2*K)*(s+2*K) := Nat.mul_le_mul hd hd
  have h3 : 2*s*(s+2*(2*(K*K))+1)≤2*(s+d)*(d'*(2*(K*K))) :=
    Nat.mul_le_mul (by omega) hbig
  have h4 : 4*(s*K)≤ s*(K*K) := by
    calc 4*(s*K)=s*(4*K) := by ring
      _≤ s*(K*K) := Nat.mul_le_mul_left _ (Nat.mul_le_mul_right _ hK)
  have h5 : 4*(K*K)≤ s*(K*K) := Nat.mul_le_mul_right _ hs
  nlinarith

theorem error_first {s d d' : Nat} (hs : 4≤ s) (h : 2*(s+d)*d'≤d*d+2*s) (hd : d≤ s+1) :
    d'*2^2≤ s+2*2^2 := by
  by_contra hlt
  have hbig : s+9≤4*d' := by omega
  have h1 : 2*(s+d)*(s+9)≤2*(s+d)*(4*d') := Nat.mul_le_mul_left _ hbig
  have h2 : d*d≤d*(s+1) := Nat.mul_le_mul_left _ hd
  nlinarith

theorem newton_far {s d m j : Nat} (hsqrt : Nat.sqrt n=s) (hs : 4≤ s) (hx : x=s+d) (hm : 2≤ m)
    (hd : d*2^m≤ s+2*2^m) (hj : s<2^((fun i => 2*i+1)^[j] m)) : (newton n (j+3) x).2=true := by
  have hn : 0<n := by
    have := Nat.sqrt_le n
    rw [hsqrt] at this
    by_contra h0
    rw [Nat.eq_zero_of_not_pos h0,Nat.sqrt_zero] at hsqrt
    omega
  induction j generalizing x d m with
  | zero =>
    apply newton_near (by omega) (by omega) hn
    rw [Function.iterate_zero,id_eq] at hj
    have hd2 : d<3 := by
      by_contra h
      have := Nat.mul_le_mul_right (2^m) (Nat.not_lt.mp h)
      omega
    omega
  | succ j ih =>
    rw [show j+1+3=j+3+1 by omega]
    apply newton_step
    have hnext := sqrt_le_next (n := n) (x := x) (by omega)
    rw [hsqrt] at hnext
    obtain ⟨d',hd'⟩ := Nat.exists_eq_add_of_le hnext
    apply ih hd' (by omega : 2≤2*m+1)
    · exact error_halves hs hm (next_error hsqrt hx hd') hd
    · exact hj

theorem newton_more {k l : Nat} (h : (newton n k x).2=true) (hkl : k≤l) :
    newton n l x=newton n k x := by
  induction k generalizing x l with
  | zero => cases h
  | succ k ih =>
    obtain ⟨l,rfl⟩ : ∃j,l=j+1 := ⟨l-1,by omega⟩
    rw [newton] at h ⊢
    rw [newton]
    split_ifs at h ⊢
    · exact ih h (by omega)
    · rfl

theorem newton_ends (hs : 4≤Nat.sqrt n) (hx : Nat.sqrt n≤x) (hx2 : x≤2*Nat.sqrt n+1) {c : Nat}
    (hlt : Nat.sqrt n<2^c) (hc : c≤1535) : (newton n 13 x).2=true := by
  obtain ⟨d,hd⟩ := Nat.exists_eq_add_of_le hx
  obtain ⟨d',hd'⟩ := Nat.exists_eq_add_of_le (sqrt_le_next (n := n) (x := x) (by omega))
  have herr := error_first hs (next_error rfl hd hd') (by omega)
  have hexp : (fun i => 2*i+1)^[9] 2=1535 := by decide
  have hpow (e : Nat) (he : c≤e) : Nat.sqrt n<2^e :=
    Nat.lt_of_lt_of_le hlt (Nat.pow_le_pow_right (by decide) he)
  apply newton_step
  apply newton_far (j := 9) rfl hs hd' (Nat.le_refl 2) herr
  exact hpow _ (hc.trans_eq hexp.symm)

end Next

end LugalOS.Newton
