import Mathlib.Algebra.Order.Ring.Nat
import LugalOS.Lib.Run

namespace LugalOS.Kobj

open Function (update)

inductive Kind
  | sem
  | mutex
  | queue
  | event
  deriving DecidableEq

def Kind.type : Kind → UInt32
  | .sem => 1
  | .mutex => 2
  | .queue => 3
  | .event => 4

def Kind.max : Kind → Nat
  | .sem => 32
  | .mutex => 32
  | .queue => 16
  | .event => 8

def hMake (type : UInt32) (gen : UInt16) (idx : Nat) : UInt32 :=
  type<<<28 ||| (gen.toUInt32 &&& 0xfff)<<<16 ||| (UInt32.ofNat idx+1)

def hType (h : UInt32) : UInt32 := h>>>28

def hGen (h : UInt32) : UInt16 := ((h>>>16) &&& 0xfff).toUInt16

/-- One less than the low half; none is the C code's -1. -/
def hIdx (h : UInt32) : Option Nat :=
  match (h &&& 0xffff).toNat with
  | 0 => none
  | i+1 => some i

structure Slot (α : Type) where
  used : Bool
  gen : UInt16
  owner : Nat
  obj : α

variable {α : Type}

def lookup (tab : Nat → Slot α) (κ : Kind) (h : UInt32) : Option Nat :=
  match hIdx h with
  | none => none
  | some i =>
    if h≠0 ∧ hType h=κ.type ∧ i < κ.max ∧ (tab i).used ∧ (tab i).gen=hGen h then some i else none

def freeSlot (tab : Nat → Slot α) (κ : Kind) : Option Nat :=
  (List.range κ.max).find? fun i => !(tab i).used

/-- The first unused slot is taken; its generation stays. -/
def createIn (tab : Nat → Slot α) (κ : Kind) (obj : α) : UInt32×(Nat → Slot α) :=
  match freeSlot tab κ with
  | none => (0,tab)
  | some i => (hMake κ.type (tab i).gen i,update tab i ⟨true,(tab i).gen,0,obj⟩)

/-- The slot is unused, and its generation moves on. -/
def Slot.release (s : Slot α) (obj : α) : Slot α := {s with used := false,gen := s.gen+1,obj := obj}

section Fields

theorem type_lt (κ : Kind) : κ.type.toNat < 16 := by cases κ <;> decide

theorem max_le (κ : Kind) : κ.max≤32 := by cases κ <;> decide

theorem hMake_toNat (κ : Kind) (gen : UInt16) {i : Nat} (hi : i < κ.max) :
    (hMake κ.type gen i).toNat=2^28*κ.type.toNat+(2^16*(gen.toNat%2^12)+(i+1)) := by
  have ht := type_lt κ
  have hm := max_le κ
  have hidx : (UInt32.ofNat i+1).toNat=i+1 := by
    rw [UInt32.toNat_add,UInt32.toNat_ofNat',UInt32.toNat_one]
    omega
  have hgen : (gen.toUInt32 &&& 0xfff).toNat=gen.toNat%2^12 := by
    rw [UInt32.toNat_and,UInt16.toNat_toUInt32]
    exact Nat.and_two_pow_sub_one_eq_mod _ 12
  have hmod : gen.toNat%2^12 < 2^12 := Nat.mod_lt _ (by decide)
  have h1 : (κ.type<<<28).toNat=2^28*κ.type.toNat := by
    rw [UInt32.toNat_shiftLeft]
    change κ.type.toNat<<<28%2^32=_
    rw [Nat.shiftLeft_eq]
    omega
  have h2 : ((gen.toUInt32 &&& 0xfff)<<<16).toNat=2^16*(gen.toNat%2^12) := by
    rw [UInt32.toNat_shiftLeft,hgen]
    change (gen.toNat%2^12)<<<16%2^32=_
    rw [Nat.shiftLeft_eq]
    omega
  rw [hMake,UInt32.toNat_or,UInt32.toNat_or,h1,h2,hidx,Nat.or_assoc,
    ← Nat.two_pow_add_eq_or_of_lt (i := 16) (by omega),
    ← Nat.two_pow_add_eq_or_of_lt (i := 28) (by omega)]

theorem hType_toNat (h : UInt32) : (hType h).toNat=h.toNat/2^28 := by
  rw [hType,UInt32.toNat_shiftRight]
  exact Nat.shiftRight_eq_div_pow _ 28

theorem hGen_toNat (h : UInt32) : (hGen h).toNat=h.toNat/2^16%2^12 := by
  have hand : ((h>>>16) &&& 0xfff).toNat=h.toNat/2^16%2^12 := by
    rw [UInt32.toNat_and,UInt32.toNat_shiftRight]
    change h.toNat>>>16 &&& (2^12-1)=_
    rw [Nat.and_two_pow_sub_one_eq_mod,Nat.shiftRight_eq_div_pow]
  rw [hGen,UInt32.toNat_toUInt16,hand]
  omega

theorem hIdx_some {h : UInt32} {i : Nat} : hIdx h=some i ↔ h.toNat%2^16=i+1 := by
  have hand : (h &&& 0xffff).toNat=h.toNat%2^16 := by
    rw [UInt32.toNat_and]
    exact Nat.and_two_pow_sub_one_eq_mod _ 16
  rw [hIdx,hand]
  cases h.toNat%2^16 <;> simp

variable {κ : Kind} {i : Nat}

theorem hType_hMake (gen : UInt16) (hi : i < κ.max) : hType (hMake κ.type gen i)=κ.type := by
  have hm := max_le κ
  apply UInt32.toNat_inj.mp
  rw [hType_toNat,hMake_toNat κ gen hi]
  omega

theorem hGen_hMake (gen : UInt16) (hi : i < κ.max) :
    (hGen (hMake κ.type gen i)).toNat=gen.toNat%2^12 := by
  have hm := max_le κ
  rw [hGen_toNat,hMake_toNat κ gen hi]
  omega

theorem hIdx_hMake (gen : UInt16) (hi : i < κ.max) : hIdx (hMake κ.type gen i)=some i := by
  have hm := max_le κ
  rw [hIdx_some,hMake_toNat κ gen hi]
  omega

theorem hMake_ne (gen : UInt16) (hi : i < κ.max) : hMake κ.type gen i≠0 := by
  intro h0
  have ht := hMake_toNat κ gen hi
  rw [h0] at ht
  have : (0 : UInt32).toNat=0 := rfl
  omega

theorem type_inj {κ κ' : Kind} (h : κ.type=κ'.type) : κ=κ' := by
  cases κ <;> cases κ' <;> first | rfl | exact absurd h (by decide)

end Fields

section Tables

variable {tab : Nat → Slot α} {κ : Kind} {h : UInt32} {i : Nat}

theorem lookup_some : lookup tab κ h=some i ↔
    hIdx h=some i ∧ hType h=κ.type ∧ i < κ.max ∧ (tab i).used ∧ (tab i).gen=hGen h := by
  unfold lookup
  cases hx : hIdx h with
  | none => simp
  | some j =>
    have hne : h≠0 := by
      rintro rfl
      cases hx
    simp only [ne_eq,hne,not_false_eq_true,true_and,Option.some.injEq]
    constructor
    · intro hs
      split_ifs at hs with hc
      obtain rfl := Option.some.inj hs
      exact ⟨rfl,hc⟩
    · rintro ⟨rfl,hc⟩
      rw [if_pos hc]

theorem freeSlot_some (hf : freeSlot tab κ=some i) : i < κ.max ∧ (tab i).used=false := by
  have hmem := List.mem_of_find?_eq_some hf
  have hp := List.find?_some hf
  exact ⟨List.mem_range.mp hmem,by simpa using hp⟩

/-- A create that gives a handle has taken the slot that the handle names. -/
theorem createIn_cases (obj : α) {r : UInt32×(Nat → Slot α)} (hr : createIn tab κ obj=r) :
    r=(0,tab) ∨ ∃i,i < κ.max ∧ (tab i).used=false ∧
      r=(hMake κ.type (tab i).gen i,update tab i ⟨true,(tab i).gen,0,obj⟩) := by
  unfold createIn at hr
  cases hf : freeSlot tab κ with
  | none =>
    rw [hf] at hr
    exact .inl hr.symm
  | some i =>
    rw [hf] at hr
    obtain ⟨hi,hu⟩ := freeSlot_some hf
    exact .inr ⟨i,hi,hu,hr.symm⟩

end Tables

end LugalOS.Kobj
