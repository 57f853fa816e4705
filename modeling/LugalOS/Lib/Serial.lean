import Mathlib.Tactic.Ring

namespace LugalOS.Serial

/-- The number of position n when position 0 has the number s. -/
def num (s : UInt32) (n : Nat) : UInt32 := s+n.toUInt32

theorem toUInt32_toNat {n : Nat} (h : n<2^32) : n.toUInt32.toNat=n := by
  simp only [Nat.toUInt32,UInt32.toNat_ofNat']
  exact Nat.mod_eq_of_lt h

theorem toUInt32_toNat_cast (x : UInt32) : x.toNat.toUInt32=x := by simp [Nat.toUInt32]

theorem toUInt32_add (m n : Nat) : (m+n).toUInt32=m.toUInt32+n.toUInt32 := by
  simp [Nat.toUInt32]

theorem toUInt32_sub {m n : Nat} (h : n ≤ m) : (m-n).toUInt32=m.toUInt32-n.toUInt32 := by
  have he : m.toUInt32=(m-n).toUInt32+n.toUInt32 := by
    rw [← toUInt32_add,Nat.sub_add_cancel h]
  rw [he]
  grind

@[simp] theorem num_zero (s : UInt32) : num s 0=s := by simp [num,Nat.toUInt32]

theorem num_add (s : UInt32) (n k : Nat) : num s (n+k)=num s n+k.toUInt32 := by
  rw [num,num,toUInt32_add]
  exact (UInt32.add_assoc _ _ _).symm

theorem num_succ (s : UInt32) (n : Nat) : num s (n+1)=num s n+1 := num_add s n 1

theorem num_succ_base (s : UInt32) (n : Nat) : num s (n+1)=num (s+1) n := by
  rw [num_succ,num,num]
  grind

theorem num_sub (s : UInt32) {m n : Nat} (h : n ≤ m) : num s m-num s n=(m-n).toUInt32 := by
  rw [toUInt32_sub h,num,num]
  grind

theorem num_sub_toNat (s : UInt32) {m n : Nat} (h : n ≤ m) (hd : m-n<2^32) :
    (num s m-num s n).toNat=m-n := by
  rw [num_sub s h,toUInt32_toNat hd]

/-- A number ahead of a position's by less than 2^32 is that of a position ahead. -/
theorem num_of_sub (s a : UInt32) (n : Nat) : a=num s (n+(a-num s n).toNat) := by
  rw [num_add,toUInt32_toNat_cast]
  grind

theorem num_inj {s : UInt32} {m n : Nat} (h : num s m=num s n) (hm : m<n+2^32) (hn : n < m+2^32) :
    m=n := by
  rcases Nat.le_total n m with hle | hle
  · have hd := num_sub_toNat s hle (by omega)
    rw [h] at hd
    simp at hd
    omega
  · have hd := num_sub_toNat s hle (by omega)
    rw [h] at hd
    simp at hd
    omega

theorem toInt32_toInt (x : UInt32) :
    x.toInt32.toInt=if x.toNat<2^31 then (x.toNat : Int) else x.toNat-2^32 := by
  have hx := x.toNat_lt
  rw [← Int32.toInt_toBitVec,UInt32.toBitVec_toInt32,BitVec.toInt_eq_toNat_bmod]
  change (x.toNat : Int).bmod (2^32)=_
  simp only [Int.bmod_def]
  split_ifs <;> omega

theorem toInt32_pos (x : UInt32) : 0<x.toInt32 ↔ 0<x.toNat ∧ x.toNat<2^31 := by
  have hx := x.toNat_lt
  rw [Int32.lt_iff_toInt_lt,toInt32_toInt,Int32.toInt_zero]
  split_ifs <;> omega

theorem toInt32_neg (x : UInt32) : x.toInt32<0 ↔ 2^31≤x.toNat := by
  have hx := x.toNat_lt
  rw [Int32.lt_iff_toInt_lt,toInt32_toInt,Int32.toInt_zero]
  split_ifs <;> omega

theorem between {s a : UInt32} {u n : Nat} (hu : 0<(a-num s u).toInt32)
    (hn : ¬0<(a-num s n).toInt32) (hle : u≤n) : ∃m,u < m ∧ m≤n ∧ a=num s m := by
  rw [toInt32_pos] at hu
  refine ⟨u+(a-num s u).toNat,by omega,?_,num_of_sub s a u⟩
  by_contra hlt
  refine hn ((toInt32_pos _).mpr ?_)
  generalize hk : (a-num s u).toNat=k at hu hlt
  have ha : a=num s (u+k) := hk ▸ num_of_sub s a u
  rw [ha,num_sub_toNat s (by omega) (by omega)]
  omega

theorem not_ahead (s : UInt32) {m n : Nat} (hle : m≤n) (hd : n < m+2^31) :
    ¬0<(num s m-num s n).toInt32 := by
  rw [toInt32_pos]
  rintro ⟨h1,h2⟩
  have hm := num_inj (num_of_sub s (num s m) n) (by omega) (by omega)
  omega

end LugalOS.Serial
