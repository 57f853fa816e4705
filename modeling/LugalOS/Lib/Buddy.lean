import Mathlib.Algebra.Order.Ring.Nat

/-! Blocks of a power of two of units, halved and joined again. Block p of height k is the units
from p*2^k up to (p+1)*2^k. -/

namespace LugalOS.Buddy

/-- What two neighbours of height k make together. -/
def join (k l r : Nat) : Nat := if l+r=2^(k+1) then 2^(k+1) else max l r

/-- The largest block that is free in block p of height k. -/
def largest (used : Nat → Nat → Bool) : Nat → Nat → Nat
  | 0,p => if used 0 p then 0 else 1
  | k+1,p => if used (k+1) p then 0 else join k (largest used k (2*p)) (largest used k (2*p+1))

/-- Block q of height j lies in block p of height k. -/
def Within (j q k p : Nat) : Prop := j≤k ∧ q/2^(k-j)=p

section Within

variable {i j k p q m x : Nat}

theorem Within.refl (k p : Nat) : Within k p k p := ⟨Nat.le_refl k,by simp⟩

theorem within_succ (hj : j≤k) :
    Within j q (k+1) p ↔ Within j q k (2*p) ∨ Within j q k (2*p+1) := by
  have hdiv : q/2^(k+1-j)=q/2^(k-j)/2 := by
    rw [show k+1-j=k-j+1 by omega,Nat.pow_succ,Nat.div_div_eq_div_mul]
  unfold Within
  rw [hdiv]
  constructor
  · rintro ⟨_,h⟩
    rcases Nat.mod_two_eq_zero_or_one (q/2^(k-j)) with h2 | h2
    · exact .inl ⟨hj,by omega⟩
    · exact .inr ⟨hj,by omega⟩
  · rintro (⟨_,h⟩ | ⟨_,h⟩)
    · exact ⟨by omega,by omega⟩
    · exact ⟨by omega,by omega⟩

theorem within_parent (h : Within j q k p) : Within j q (k+1) (p/2) := by
  refine (within_succ h.1).2 ?_
  rcases Nat.mod_two_eq_zero_or_one p with h2 | h2
  · left; rwa [show 2*(p/2)=p by omega]
  · right; rwa [show 2*(p/2)+1=p by omega]

theorem within_same (h : Within k q k p) : q=p := by
  have := h.2
  rwa [Nat.sub_self,Nat.pow_zero,Nat.div_one] at this

theorem Within.trans (h : Within i x j q) (h' : Within j q k p) : Within i x k p := by
  refine ⟨h.1.trans h'.1,?_⟩
  rw [← h'.2,← h.2,Nat.div_div_eq_div_mul,← Nat.pow_add]
  rw [show j-i+(k-j)=k-i by have := h.1; have := h'.1; omega]

theorem Within.chain (h : Within i x j q) (h' : Within i x k p) (hjk : j≤k) : Within j q k p := by
  refine ⟨hjk,?_⟩
  rw [← h.2,← h'.2,Nat.div_div_eq_div_mul,← Nat.pow_add]
  rw [show j-i+(k-j)=k-i by have := h.1; omega]

theorem Within.lt {n : Nat} (h : Within j q k p) (hk : k≤n) (hp : p<2^(n-k)) : q<2^(n-j) := by
  have hq := h.2
  have hj := h.1
  rw [show n-j=k-j+(n-k) by omega,Nat.pow_add]
  have hd : q/2^(k-j)<2^(n-k) := by omega
  rwa [Nat.div_lt_iff_lt_mul (Nat.two_pow_pos _),Nat.mul_comm] at hd

theorem within_zero : Within 0 m k p ↔ p*2^k ≤ m ∧ m<(p+1)*2^k := by
  unfold Within
  rw [Nat.sub_zero,Nat.div_eq_iff (Nat.two_pow_pos k)]
  have := Nat.two_pow_pos k
  rw [Nat.add_mul,Nat.one_mul]
  omega

end Within

section Largest

variable {used used' : Nat → Nat → Bool} {j k p q : Nat}

theorem largest_le (used : Nat → Nat → Bool) (k p : Nat) : largest used k p≤2^k := by
  induction k generalizing p with
  | zero => rw [largest]; split_ifs <;> simp
  | succ k ih =>
    have hl := ih (2*p)
    have hr := ih (2*p+1)
    rw [largest,join,Nat.pow_succ]
    split_ifs <;> omega

theorem largest_used (h : used k p=true) : largest used k p=0 := by
  cases k with
  | zero | succ k => rw [largest,if_pos h]

theorem largest_succ (h : used (k+1) p=false) :
    largest used (k+1) p=join k (largest used k (2*p)) (largest used k (2*p+1)) := by
  rw [largest,if_neg (by rw [h]; exact Bool.false_ne_true)]

theorem largest_congr (h : ∀j q,Within j q k p → used j q=used' j q) :
    largest used k p=largest used' k p := by
  induction k generalizing p with
  | zero => rw [largest,largest,h 0 p (.refl 0 p)]
  | succ k ih =>
    rw [largest,largest,h (k+1) p (.refl _ _),
      ih fun j q hw => h j q ((within_succ hw.1).2 (.inl hw)),
      ih fun j q hw => h j q ((within_succ hw.1).2 (.inr hw))]

theorem largest_free (h : ∀j q,Within j q k p → used j q=false) : largest used k p=2^k := by
  induction k generalizing p with
  | zero => rw [largest,h 0 p (.refl 0 p)]; rfl
  | succ k ih =>
    rw [largest_succ (h (k+1) p (.refl _ _)),
      ih fun j q hw => h j q ((within_succ hw.1).2 (.inl hw)),
      ih fun j q hw => h j q ((within_succ hw.1).2 (.inr hw)),join,if_pos (by rw [Nat.pow_succ]; omega)]

theorem halves_free (h : largest used (k+1) p=2^(k+1)) :
    used (k+1) p=false ∧ largest used k (2*p)=2^k ∧ largest used k (2*p+1)=2^k := by
  have hl := largest_le used k (2*p)
  have hr := largest_le used k (2*p+1)
  have hpos := Nat.two_pow_pos k
  cases hu : used (k+1) p with
  | true => rw [largest_used hu,Nat.pow_succ] at h; omega
  | false =>
    rw [largest_succ hu,join,Nat.pow_succ] at h
    refine ⟨rfl,?_⟩
    split_ifs at h <;> omega

theorem unused_of_free (h : largest used k p=2^k) (hw : Within j q k p) : used j q=false := by
  induction k generalizing p with
  | zero =>
    obtain rfl : j=0 := Nat.le_zero.1 hw.1
    obtain rfl := within_same hw
    cases hu : used 0 q with
    | true => rw [largest_used hu] at h; cases h
    | false => rfl
  | succ k ih =>
    obtain ⟨hu,hl,hr⟩ := halves_free h
    rcases Nat.lt_or_ge k j with hj | hj
    · obtain rfl : j=k+1 := Nat.le_antisymm hw.1 hj
      rwa [within_same hw]
    · rcases (within_succ hj).1 hw with hw | hw
      · exact ih hl hw
      · exact ih hr hw

theorem half_le (hu : used (k+1) p=false) :
    largest used k (2*p)≤largest used (k+1) p ∧ largest used k (2*p+1)≤largest used (k+1) p := by
  have hl := largest_le used k (2*p)
  have hr := largest_le used k (2*p+1)
  rw [largest_succ hu,join,Nat.pow_succ]
  split_ifs <;> omega

theorem exists_half (h : 2^j≤largest used (k+1) p) (hj : j≤k)
    (hl : ¬2^j≤largest used k (2*p)) : 2^j≤largest used k (2*p+1) := by
  have hle : 2^j≤2^k := Nat.pow_le_pow_right (by decide) hj
  have hl' := largest_le used k (2*p)
  have hr' := largest_le used k (2*p+1)
  have hpos := Nat.two_pow_pos j
  cases hu : used (k+1) p with
  | true => rw [largest_used hu] at h; omega
  | false =>
    rw [largest_succ hu,join,Nat.pow_succ] at h
    split_ifs at h <;> omega

theorem le_around {x : Nat} (hw : Within j q k p)
    (hu : ∀i x,j < i → i≤k → Within j q i x → used i x=false) (hx : x≤largest used j q) :
    x≤largest used k p := by
  obtain ⟨d,rfl⟩ := Nat.exists_eq_add_of_le hw.1
  induction d generalizing p with
  | zero => rwa [← within_same hw]
  | succ d ih =>
    have hun := hu (j+(d+1)) p (by omega) (Nat.le_refl _) hw
    have hh := half_le hun
    rcases (within_succ (Nat.le_add_right j d)).1 hw with hw' | hw'
    · exact (ih hw' fun i x h1 h2 => hu i x h1 (by omega)).trans hh.1
    · exact (ih hw' fun i x h1 h2 => hu i x h1 (by omega)).trans hh.2

end Largest

section Array

/-- Where block p of height k stands in a tree of height n. -/
def node (n k p : Nat) : Nat := 2^(n-k)-1+p

variable {n i j k p q x : Nat}

theorem node_root (n : Nat) : node n n 0=0 := by simp [node]

theorem node_parent (hk : k<n) : (node n k p-1)/2=node n (k+1) (p/2) := by
  have h : 2^(n-k)=2^(n-(k+1))*2 := by rw [← Nat.pow_succ]; congr 1; omega
  have := Nat.two_pow_pos (n-(k+1))
  rw [node,node,h]
  omega

theorem node_ne_zero (hk : k<n) : node n k p≠0 := by
  have h : 2^(n-k)=2^(n-(k+1))*2 := by rw [← Nat.pow_succ]; congr 1; omega
  have := Nat.two_pow_pos (n-(k+1))
  rw [node]
  omega

theorem node_left (hk : k<n) : 2*node n (k+1) p+1=node n k (2*p) := by
  have h : 2^(n-k)=2^(n-(k+1))*2 := by rw [← Nat.pow_succ]; congr 1; omega
  have := Nat.two_pow_pos (n-(k+1))
  rw [node,node,h]
  omega

theorem node_right (hk : k<n) : 2*node n (k+1) p+2=node n k (2*p+1) := by
  have := node_left (p := p) hk
  rw [node] at this ⊢
  rw [node] at *
  omega

theorem node_inj (hk : k≤n) (hp : p<2^(n-k)) (hj : j≤n) (hq : q<2^(n-j))
    (h : node n k p=node n j q) : k=j ∧ p=q := by
  have h1 := Nat.two_pow_pos (n-k)
  have h2 := Nat.two_pow_pos (n-j)
  rw [node,node] at h
  have hkj : n-k=n-j := by
    rcases Nat.lt_trichotomy (n-k) (n-j) with hlt | heq | hlt
    · have := Nat.pow_le_pow_right (show 0<2 by decide) hlt
      rw [Nat.pow_succ] at this
      omega
    · exact heq
    · have := Nat.pow_le_pow_right (show 0<2 by decide) hlt
      rw [Nat.pow_succ] at this
      omega
  rw [hkj] at h
  exact ⟨by omega,by omega⟩

variable {used used' : Nat → Nat → Bool} {f : Nat → Nat} {v : Nat}

/-- The array says at each block what the largest free one in it is. -/
def Shows (n : Nat) (used : Nat → Nat → Bool) (f : Nat → Nat) : Prop :=
  ∀k p,k≤n → p<2^(n-k) → f (node n k p)=largest used k p

/-- It does so but for the blocks around block p of height k. -/
def ShowsBut (n : Nat) (used : Nat → Nat → Bool) (f : Nat → Nat) (k p : Nat) : Prop :=
  ∀i x,i≤n → x<2^(n-i) → ¬(k < i ∧ Within k p i x) → f (node n i x)=largest used i x

theorem ShowsBut.shows (h : ShowsBut n used f n 0) : Shows n used f :=
  fun k p hk hp => h k p hk hp fun hc => by omega

theorem Shows.change (h : Shows n used f) (hj : j≤n) (hq : q<2^(n-j))
    (hs : ∀i x,¬(i=j ∧ x=q) → used i x=used' i x) (hv : v=largest used' j q) :
    ShowsBut n used' (Function.update f (node n j q) v) j q := by
  intro i x hi hx hn
  by_cases he : node n i x=node n j q
  · obtain ⟨rfl,rfl⟩ := node_inj hi hx hj hq he
    rw [Function.update_self,hv]
  · rw [Function.update_of_ne he,h i x hi hx]
    refine largest_congr fun i' x' hw => hs i' x' ?_
    rintro ⟨rfl,rfl⟩
    rcases Nat.lt_or_ge i' i with hlt | hge
    · exact hn ⟨hlt,hw⟩
    · obtain rfl : i'=i := Nat.le_antisymm hw.1 hge
      rw [within_same hw] at he
      exact he rfl

theorem ShowsBut.up (h : ShowsBut n used f k p) (hk : k<n) (hp : p<2^(n-k))
    (hu : used (k+1) (p/2)=false)
    (hv : v=join k (f (node n k (2*(p/2)))) (f (node n k (2*(p/2)+1)))) :
    ShowsBut n used (Function.update f (node n (k+1) (p/2)) v) (k+1) (p/2) := by
  have hpow : 2^(n-k)=2*2^(n-(k+1)) := by rw [Nat.mul_comm,← Nat.pow_succ]; congr 1; omega
  intro i x hi hx hn
  by_cases he : node n i x=node n (k+1) (p/2)
  · obtain ⟨rfl,rfl⟩ := node_inj hi hx (show k+1≤n by omega) (show p/2<2^(n-(k+1)) by omega) he
    rw [Function.update_self,hv,largest_succ hu,h k _ (by omega) (by omega) (fun hc => by omega),
      h k _ (by omega) (by omega) (fun hc => by omega)]
  · rw [Function.update_of_ne he]
    refine h i x hi hx ?_
    rintro ⟨hki,hw⟩
    have hw' : Within (k+1) (p/2) i x := (Within.refl k p |> within_parent).chain hw (by omega)
    rcases Nat.lt_or_ge (k+1) i with hlt | hge
    · exact hn ⟨hlt,hw'⟩
    · obtain rfl : i=k+1 := by omega
      rw [within_same hw'] at he
      exact he rfl

end Array

end LugalOS.Buddy
