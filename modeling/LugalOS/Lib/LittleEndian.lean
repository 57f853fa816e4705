import Mathlib.Algebra.Order.Ring.Nat
import Mathlib.Data.Nat.Bits

namespace LugalOS.LittleEndian

/-- The n-byte little-endian number at offset o. -/
def leAt (f : Nat → UInt8) (o : Nat) : Nat → Nat
  | 0 => 0
  | n+1 => (f o).toNat+256*leAt f (o+1) n

theorem leAt_lt (f : Nat → UInt8) (o n : Nat) : leAt f o n<256^n := by
  induction n generalizing o with
  | zero => exact Nat.one_pos
  | succ n ih =>
    have h0 := (f o).toNat_lt
    have h1 := ih (o+1)
    simp only [leAt,Nat.pow_succ]
    omega

theorem leAt_congr (f g : Nat → UInt8) (o n : Nat) (h : ∀k,o≤k → k<o+n → f k=g k) :
    leAt f o n=leAt g o n := by
  induction n generalizing o with
  | zero => rfl
  | succ n ih =>
    have h0 := h o (Nat.le_refl o) (by omega)
    have h1 := ih (o+1) fun k hk hn => h k (by omega) (by omega)
    simp only [leAt,h0,h1]

/-- memcpy of a byte string to offset o. -/
def patch (f : Nat → UInt8) (o : Nat) (bs : List UInt8) : Nat → UInt8 :=
  fun k => if o≤k ∧ k<o+bs.length then bs.getD (k-o) 0 else f k

theorem patch_outside (f : Nat → UInt8) (o : Nat) (bs : List UInt8) (k : Nat)
    (h : k<o ∨ o+bs.length≤k) : patch f o bs k=f k := by
  rw [patch,if_neg (by omega)]

theorem patch_inside (f : Nat → UInt8) (o : Nat) (bs : List UInt8) (k : Nat)
    (h0 : o≤k) (h1 : k<o+bs.length) : patch f o bs k=bs.getD (k-o) 0 := by
  rw [patch,if_pos ⟨h0,h1⟩]

/-- The n low bytes of v, least significant first. -/
def leBytes (v : Nat) : Nat → List UInt8
  | 0 => []
  | n+1 => v.toUInt8::leBytes (v/256) n

@[simp] theorem leBytes_length (v n : Nat) : (leBytes v n).length=n := by
  induction n generalizing v with
  | zero => rfl
  | succ n ih => simp [leBytes,ih]

def putLe (f : Nat → UInt8) (o n v : Nat) : Nat → UInt8 := patch f o (leBytes v n)

theorem putLe_outside (f : Nat → UInt8) (o n v k : Nat) (h : k<o ∨ o+n≤k) :
    putLe f o n v k=f k :=
  patch_outside f o _ k (by simpa using h)

theorem leAt_putLe (f : Nat → UInt8) (o n v : Nat) : leAt (putLe f o n v) o n=v%256^n := by
  induction n generalizing f o v with
  | zero => simp [leAt,Nat.mod_one]
  | succ n ih =>
    have hh : putLe f o (n+1) v o=v.toUInt8 := by
      rw [putLe,patch_inside _ _ _ _ (Nat.le_refl o) (by simp)]
      simp [leBytes]
    have ht : leAt (putLe f o (n+1) v) (o+1) n=leAt (putLe f (o+1) n (v/256)) (o+1) n := by
      apply leAt_congr
      intro k hk hn
      rw [putLe,putLe,patch_inside _ _ _ _ (by omega) (by simp; omega),
        patch_inside _ _ _ _ hk (by simp; omega)]
      obtain ⟨j,rfl⟩ : ∃j,k=o+1+j := ⟨k-(o+1),by omega⟩
      rw [show o+1+j-o=j+1 by omega,show o+1+j-(o+1)=j by omega]
      rfl
    have hb : v.toUInt8.toNat=v%256 := by simp
    rw [leAt,hh,ht,ih,hb,Nat.pow_succ,Nat.mul_comm (256^n) 256,Nat.mod_mul]

theorem leAt_append (a b : List UInt8) (n v : Nat) :
    leAt (fun k => (a++leBytes v n++b).getD k 0) a.length n=v%256^n := by
  induction n generalizing a v with
  | zero => simp [leAt,Nat.mod_one]
  | succ n ih =>
    have hh : (a++leBytes v (n+1)++b).getD a.length 0=v.toUInt8 := by simp [leBytes]
    have ht := ih (a++[v.toUInt8]) (v/256)
    have he : a++[v.toUInt8]++leBytes (v/256) n++b=a++leBytes v (n+1)++b := by simp [leBytes]
    rw [he,List.length_append,List.length_singleton] at ht
    have hb : v.toUInt8.toNat=v%256 := by simp
    rw [leAt,hh,ht,hb,Nat.pow_succ,Nat.mul_comm (256^n) 256,Nat.mod_mul]

theorem leAt_putLe_outside (f : Nat → UInt8) (o n v o' n' : Nat) (h : o'+n'≤o ∨ o+n≤o') :
    leAt (putLe f o n v) o' n'=leAt f o' n' := by
  apply leAt_congr
  intro k hk hn
  exact putLe_outside f o n v k (by omega)

end LugalOS.LittleEndian

namespace LugalOS.Words

theorem or_shiftLeft {a k n : Nat} (b : Nat) (ha : a<2^k) (hb : b*2^k < n) :
    a ||| b<<<k%n=a+b*2^k := by
  rw [Nat.shiftLeft_eq,Nat.mod_eq_of_lt hb,Nat.or_comm,Nat.mul_comm,
    ← Nat.two_pow_add_eq_or_of_lt ha,Nat.add_comm]

theorem shiftLeft_or_byte (a : Nat) (b : UInt8) : a<<<8 ||| b.toNat=a*256+b.toNat := by
  rw [Nat.shiftLeft_eq,Nat.mul_comm,← Nat.two_pow_add_eq_or_of_lt b.toNat_lt,Nat.mul_comm]

theorem low_byte {b : UInt8} (hb : b<128) : b &&& 0x80=0 ∧ b &&& 0x7f=b ∧
    (b ||| 0x80) &&& 0x80≠0 ∧ (b ||| 0x80) &&& 0x7f=b := by
  have hall : ∀ n<128,let b := UInt8.ofNat n
      b &&& 0x80=0 ∧ b &&& 0x7f=b ∧ (b ||| 0x80) &&& 0x80≠0 ∧ (b ||| 0x80) &&& 0x7f=b := by
    decide +kernel
  have := hall b.toNat (UInt8.lt_iff_toNat_lt.mp hb)
  rwa [UInt8.ofNat_toNat] at this

end LugalOS.Words
