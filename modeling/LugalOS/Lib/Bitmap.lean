import Mathlib.Algebra.BigOperators.Group.Finset.Basic
import Mathlib.Data.Nat.Bitwise
import Mathlib.Order.Interval.Finset.Nat

namespace LugalOS.Bitmap

abbrev Bits := Nat → UInt8

def bitGet (m : Bits) (i : Nat) : Bool := m (i/8)>>>(i%8).toUInt8&&&1==1

def bitSet (m : Bits) (i : Nat) : Bits :=
  Function.update m (i/8) (m (i/8)|||1<<<(i%8).toUInt8)

def bitClear (m : Bits) (i : Nat) : Bits :=
  Function.update m (i/8) (m (i/8)&&&~~~(1<<<(i%8).toUInt8))

theorem shift_and_one (b : UInt8) {i : Nat} (h : i<8) :
    (b>>>i.toUInt8&&&1==1)=b.toNat.testBit i := by
  rw [Bool.eq_iff_iff,beq_iff_eq,Nat.testBit,← UInt8.toNat_inj]
  simp [Nat.toUInt8,Nat.mod_eq_of_lt (by omega : i<256),Nat.mod_eq_of_lt h]

theorem bitGet_eq (m : Bits) (i : Nat) : bitGet m i=(m (i/8)).toNat.testBit (i%8) :=
  shift_and_one _ (Nat.mod_lt i (by decide))

theorem one_shift_toNat {i : Nat} (h : i<8) : ((1 : UInt8)<<< i.toUInt8).toNat=2^i := by
  have : 2^i<2^8 := Nat.pow_lt_pow_right (by decide) h
  simp only [UInt8.toNat_shiftLeft,Nat.toUInt8,UInt8.toNat_ofNat',UInt8.toNat_one,
    Nat.mod_eq_of_lt (by omega : i<2^8),Nat.mod_eq_of_lt h,Nat.one_shiftLeft]
  exact Nat.mod_eq_of_lt this

@[simp] theorem bitGet_bitSet (m : Bits) (i j : Nat) :
    bitGet (bitSet m i) j=(decide (j=i) || bitGet m j) := by
  rw [bitGet_eq,bitGet_eq,bitSet]
  by_cases hb : j/8=i/8
  · have hij : (i%8=j%8)↔(j=i) := by omega
    rw [hb,Function.update_self,UInt8.toNat_or,Nat.testBit_or,
      one_shift_toNat (Nat.mod_lt i (by decide)),Nat.testBit_two_pow,Bool.or_comm]
    simp only [hij]
  · rw [Function.update_of_ne hb,decide_eq_false (fun h => hb (by rw [h])),Bool.false_or]

@[simp] theorem bitGet_bitClear (m : Bits) (i j : Nat) :
    bitGet (bitClear m i) j=(decide (j≠i) && bitGet m j) := by
  rw [bitGet_eq,bitGet_eq,bitClear]
  by_cases hb : j/8=i/8
  · have hij : (i%8=j%8)↔(j=i) := by omega
    have hlt : j%8<8 := Nat.mod_lt j (by decide)
    rw [hb,Function.update_self,UInt8.toNat_and,Nat.testBit_and,UInt8.toNat_not,Nat.sub_sub,
      Nat.add_comm 1,Nat.testBit_two_pow_sub_succ (UInt8.toNat_lt _),one_shift_toNat (Nat.mod_lt i (by decide)),
      Nat.testBit_two_pow,Bool.and_comm,decide_eq_true hlt,Bool.true_and]
    simp only [hij,ne_eq,decide_not]
  · have hne : j≠i := fun h => hb (by rw [h])
    rw [Function.update_of_ne hb]
    simp [hne]

/-- n bits set, or cleared, from i on. -/
def setRun (m : Bits) (i : Nat) : Nat → Bits
  | 0 => m
  | n+1 => bitSet (setRun m i n) (i+n)

@[simp] theorem bitGet_setRun (m : Bits) (i n j : Nat) :
    bitGet (setRun m i n) j=(decide (i≤j ∧ j < i+n) || bitGet m j) := by
  induction n with
  | zero => simp [setRun]
  | succ n ih =>
    rw [setRun,bitGet_bitSet,ih,← Bool.or_assoc]
    congr 1
    rw [Bool.eq_iff_iff]
    simp
    omega

def bitsSet (m : Bits) (n : Nat) : Finset Nat := (Finset.range n).filter fun i => bitGet m i=true

theorem mem_bitsSet {m : Bits} {n i : Nat} : i∈bitsSet m n ↔ i<n ∧ bitGet m i=true := by
  simp [bitsSet]

theorem card_setRun {m : Bits} {i k n : Nat} (hk : i+k≤n)
    (hc : ∀j,i≤j → j < i+k → bitGet m j=false) :
    (bitsSet (setRun m i k) n).card=(bitsSet m n).card+k := by
  have hu : bitsSet (setRun m i k) n=bitsSet m n∪Finset.Ico i (i+k) := by
    ext j
    simp only [Finset.mem_union,mem_bitsSet,bitGet_setRun,Bool.or_eq_true,decide_eq_true_eq,
      Finset.mem_Ico]
    by_cases hb : bitGet m j=true
    · simp only [hb,or_true,and_true]
      omega
    · simp only [hb,or_false,and_false,false_or,Bool.false_eq_true]
      omega
  have hd : Disjoint (bitsSet m n) (Finset.Ico i (i+k)) := by
    rw [Finset.disjoint_left]
    intro j hj hi
    rw [Finset.mem_Ico] at hi
    have := (mem_bitsSet.mp hj).2
    rw [hc j hi.1 hi.2] at this
    cases this
  rw [hu,Finset.card_union_of_disjoint hd,Nat.card_Ico,Nat.add_sub_cancel_left]

theorem card_bitClear {m : Bits} {i n : Nat} (hi : i<n) (hs : bitGet m i=true) :
    (bitsSet (bitClear m i) n).card+1=(bitsSet m n).card := by
  have he : bitsSet (bitClear m i) n=(bitsSet m n).erase i := by
    ext j
    simp only [Finset.mem_erase,mem_bitsSet,bitGet_bitClear,Bool.and_eq_true,decide_eq_true_eq]
    tauto
  rw [he]
  exact Finset.card_erase_add_one (mem_bitsSet.mpr ⟨hi,hs⟩)

end LugalOS.Bitmap
