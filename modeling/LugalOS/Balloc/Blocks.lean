import Mathlib.Data.Nat.Log
import Mathlib.Data.Nat.Size
import LugalOS.Lib.Buddy
import LugalOS.Lib.LittleEndian
import LugalOS.Palloc.Allocator

namespace LugalOS.Balloc

open Buddy

def minBlock : Nat := 32

/-- What a board is built with: the arena's pages, a power of two whose leaves 16 bits can count. -/
structure Build where
  arenaPages : UInt32
  order : Nat
  leaves : arenaPages.toNat*Palloc.pageSize=2^order*minBlock
  horder : order≤15

def Build.numLeaves (b : Build) : Nat := 2^b.order
def Build.nodeCount (b : Build) : Nat := 2*b.numLeaves-1
def Build.arenaBytes (b : Build) : Nat := b.numLeaves*minBlock

/-- balloc.c's state. -/
structure Arena where
  longest : Nat → Nat
  arenaBase : Nat
  ready : Bool

def nodeLeft (i : Nat) : Nat := 2*i+1
def nodeRight (i : Nat) : Nat := 2*i+2
def nodeParent (i : Nat) : Nat := (i-1)/2

def isPow2 (v : UInt32) : Bool := v≠0 && v&&&(v-1)=0

def nextPow2 (v : UInt32) : UInt32 :=
  if v=0 then 1
  else
    let v := v-1
    let v := v|||v>>>1
    let v := v|||v>>>2
    let v := v|||v>>>4
    let v := v|||v>>>8
    let v := v|||v>>>16
    v+1

/-- A store into the tree, whose entries are 16 bits wide. -/
def store (f : Nat → Nat) (i v : Nat) : Nat → Nat := Function.update f i (v%2^16)

def ballocInit : Arena := ⟨fun _ => 0,0,false⟩

/-- The loop of balloc_reserve, with the entries it still has to fill. -/
def reserveLoop : Nat → Nat → Nat → (Nat → Nat) → Nat → Nat
  | 0,_,_,f => f
  | k+1,i,nodeSize,f =>
    let nodeSize := if isPow2 (i+1).toUInt32 then nodeSize/2 else nodeSize
    reserveLoop k (i+1) nodeSize (store f i nodeSize)

def ballocReserve (b : Build) (s : Arena) (p : Palloc.Zones) : Bool×Arena×Palloc.Zones :=
  let (arena,p) := Palloc.pallocPagesAligned p b.arenaPages b.arenaPages
  if arena=0 then (false,s,p)
  else
    (true,⟨reserveLoop b.nodeCount 0 (b.numLeaves*2) s.longest,arena,true⟩,p)

/-- The descent, which ends at a block of the size that is needed. -/
def descend (f : Nat → Nat) (need : Nat) : Nat → Nat → Nat → Option (Nat×Nat)
  | 0,_,_ => none
  | fuel+1,index,nodeSize =>
    if nodeSize=need then some (index,nodeSize)
    else
      let l := nodeLeft index
      descend f need fuel (if need≤f l then l else nodeRight index) (nodeSize/2)

/-- The way back to the root after an allocation. -/
def allocUp : Nat → (Nat → Nat) → Nat → Nat → Nat
  | 0,f,_ => f
  | fuel+1,f,index =>
    if index=0 then f
    else
      let index := nodeParent index
      let l := f (nodeLeft index)
      let r := f (nodeRight index)
      allocUp fuel (store f index (if l>r then l else r)) index

/-- The block's address, 0 for NULL; no result where the descent would not end. -/
def ballocAlloc (b : Build) (s : Arena) (p : Palloc.Zones) (size : UInt32) :
    Option (Nat×Arena×Palloc.Zones) :=
  if size=0 ∨ b.arenaBytes < size.toNat then some (0,s,p)
  else
    let (ok,s,p) := if s.ready then (true,s,p) else ballocReserve b s p
    if !ok then some (0,s,p)
    else
      let size := if size.toNat < minBlock then minBlock.toUInt32 else size
      let leavesNeeded := (nextPow2 size).toNat/minBlock
      if s.longest 0<leavesNeeded then some (0,s,p)
      else do
        let (index,nodeSize) ← descend s.longest leavesNeeded (b.order+1) 0 b.numLeaves
        let offsetLeaves := (index+1)*nodeSize-b.numLeaves
        let f := allocUp index (store s.longest index 0) index
        return (s.arenaBase+offsetLeaves*minBlock,{s with longest := f},p)

/-- The walk from a leaf up to the first zero, or past the root. -/
def findZero (f : Nat → Nat) : Nat → Nat → Nat → Option (Nat×Nat)
  | 0,_,_ => none
  | fuel+1,index,nodeSize =>
    if f index=0 then some (index,nodeSize)
    else if index=0 then none
    else findZero f fuel (nodeParent index) (nodeSize*2)

/-- The way to the root after a free, neighbours joined. -/
def freeUp : Nat → (Nat → Nat) → Nat → Nat → Nat → Nat
  | 0,f,_,_ => f
  | fuel+1,f,index,nodeSize =>
    if index=0 then f
    else
      let index := nodeParent index
      let nodeSize := nodeSize*2
      let l := f (nodeLeft index)
      let r := f (nodeRight index)
      freeUp fuel (store f index (if l+r=nodeSize then nodeSize else if l>r then l else r)) index
        nodeSize

def ballocFree (b : Build) (s : Arena) (ptr : Nat) : Arena :=
  if !s.ready || ptr=0 then s
  else if ptr < s.arenaBase then s
  else
    let off := ptr-s.arenaBase
    if off%minBlock≠0 then s
    else
      -- the number of the leaf is cut to 32 bits before it is compared
      let offsetLeaves := off/minBlock%2^32
      if b.numLeaves≤offsetLeaves then s
      else
        let index := offsetLeaves+b.numLeaves-1
        match findZero s.longest (index+1) index 1 with
        | none => s
        | some (index,nodeSize) =>
          {s with longest := freeUp index (store s.longest index nodeSize) index nodeSize}

section NextPow2

/-- x holds the bits of w moved down by less than k places. -/
def Smeared (k x w : Nat) : Prop := ∀i,x.testBit i=true ↔ ∃j<k,w.testBit (i+j)=true

theorem Smeared.twice {k x w : Nat} (h : Smeared k x w) : Smeared (2*k) (x|||x>>>k) w := by
  intro i
  rw [Nat.testBit_or,Nat.testBit_shiftRight,Bool.or_eq_true,h i,h (k+i)]
  constructor
  · rintro (⟨j,hj,hb⟩ | ⟨j,hj,hb⟩)
    · exact ⟨j,by omega,hb⟩
    · exact ⟨k+j,by omega,by rwa [show i+(k+j)=k+i+j by omega]⟩
  · rintro ⟨j,hj,hb⟩
    rcases Nat.lt_or_ge j k with hlt | hge
    · exact .inl ⟨j,hlt,hb⟩
    · exact .inr ⟨j-k,by omega,by rwa [show k+i+(j-k)=i+j by omega]⟩

theorem Smeared.step {x : UInt32} {k w : Nat} (h : Smeared k x.toNat w) (s : UInt32)
    (hs : s.toNat%32=k) : Smeared (2*k) (x|||x>>>s).toNat w := by
  rw [UInt32.toNat_or,UInt32.toNat_shiftRight,hs]
  exact h.twice

theorem Smeared.eq {x w : Nat} (h : Smeared 32 x w) (hw : w<2^32) : x=2^w.size-1 := by
  apply Nat.eq_of_testBit_eq
  intro i
  rw [Nat.testBit_two_pow_sub_one,Bool.eq_iff_iff,h i,decide_eq_true_eq]
  constructor
  · rintro ⟨j,_,hb⟩
    by_contra hi
    have hlt : w<2^(i+j) := Nat.size_le.1 (by omega)
    rw [Nat.testBit_lt_two_pow hlt] at hb
    cases hb
  · intro hi
    obtain ⟨m,hm,hb⟩ := Nat.exists_ge_and_testBit_of_ge_two_pow (Nat.lt_size.1 hi)
    have hm32 : m<32 := by
      by_contra hge
      have hlt : w<2^m := hw.trans_le (Nat.pow_le_pow_right (by decide) (Nat.not_lt.1 hge))
      rw [Nat.testBit_lt_two_pow hlt] at hb
      cases hb
    exact ⟨m-i,by omega,by rwa [show i+(m-i)=m by omega]⟩

theorem nextPow2_eq {v : UInt32} (h0 : v≠0) (h : v.toNat≤2^31) :
    (nextPow2 v).toNat=2^Nat.clog 2 v.toNat := by
  have hv : v.toNat≠0 := fun he => h0 (UInt32.toNat_inj.1 he)
  have h1 : (v-1).toNat=v.toNat-1 := UInt32.toNat_sub_of_le _ _ (by
    rw [UInt32.le_iff_toNat_le]; exact Nat.one_le_iff_ne_zero.2 hv)
  generalize hw : v.toNat-1=w at h1
  have s1 : Smeared 1 (v-1).toNat w := fun i => by rw [h1]; simp
  have hs := (((((s1.step 1 rfl).step 2 rfl).step 4 rfl).step 8 rfl).step 16 rfl).eq (by omega)
  have hsize : w.size≤31 := Nat.size_le.2 (by omega)
  have hpow : 2^w.size≤2^31 := Nat.pow_le_pow_right (by decide) hsize
  have hpos := Nat.two_pow_pos w.size
  have hclog : Nat.clog 2 v.toNat=w.size := by
    refine Nat.le_antisymm (Nat.clog_le_of_le_pow ?_) (Nat.size_le.2 ?_)
    · have : w<2^w.size := Nat.size_le.1 (Nat.le_refl _)
      omega
    · have := Nat.le_pow_clog (show 1<2 by decide) v.toNat
      omega
  rw [hclog,nextPow2,if_neg h0]
  dsimp only
  rw [UInt32.toNat_add,hs,UInt32.toNat_one,Nat.mod_eq_of_lt (by omega)]
  omega

end NextPow2

theorem store_eq (f : Nat → Nat) (i : Nat) {v : Nat} (h : v<2^16) :
    store f i v=Function.update f i v := by
  rw [store,Nat.mod_eq_of_lt h]

section Reserve

theorem isPow2_iff {v : UInt32} (h0 : v≠0) : isPow2 v=true ↔ v.toNat.isPowerOfTwo := by
  have hv : v.toNat≠0 := fun he => h0 (UInt32.toNat_inj.1 he)
  rw [← Nat.and_sub_one_eq_zero_iff_isPowerOfTwo hv,isPow2,Bool.and_eq_true,decide_eq_true_eq,
    decide_eq_true_eq,← UInt32.toNat_inj,UInt32.toNat_and,UInt32.toNat_sub_of_le _ _ (by
      rw [UInt32.le_iff_toNat_le]; exact Nat.one_le_iff_ne_zero.2 hv)]
  exact and_iff_right h0

theorem log2_succ {i : Nat} (hi : i≠0) :
    (i+1).log2=if (i+1).isPowerOfTwo then i.log2+1 else i.log2 := by
  obtain ⟨hl,hu⟩ := (Nat.log2_eq_iff hi).1 rfl
  split_ifs with hp
  · obtain ⟨k,hk⟩ := hp
    rw [hk,Nat.log2_two_pow]
    have h1 : 2^i.log2<2^k := by omega
    have h2 : 2^k≤2^(i.log2+1) := by omega
    have h3 := (Nat.pow_lt_pow_iff_right (show 1<2 by decide)).1 h1
    have h4 := (Nat.pow_le_pow_iff_right (show 1<2 by decide)).1 h2
    omega
  · refine (Nat.log2_eq_iff (by omega)).2 ⟨by omega,?_⟩
    by_contra hge
    exact hp ⟨i.log2+1,by omega⟩

/-- The size of a node before the loop comes to node i, and at node i. -/
def sizeBefore (n i : Nat) : Nat := if i=0 then 2^n*2 else 2^(n-i.log2)

theorem size_at {n i : Nat} (hi : i+1<2^(n+1)) (hn : n≤15) :
    (if isPow2 (i+1).toUInt32 then sizeBefore n i/2 else sizeBefore n i)=2^(n-(i+1).log2) := by
  have hn16 : 2^(n+1)≤2^16 := Nat.pow_le_pow_right (by decide) (by omega)
  have hto : (i+1).toUInt32.toNat=i+1 := by
    rw [Nat.toUInt32_eq,UInt32.toNat_ofNat']
    exact Nat.mod_eq_of_lt (by omega)
  have h0 : (i+1).toUInt32≠0 := fun he => by
    rw [he,UInt32.toNat_zero] at hto; omega
  have hiff := isPow2_iff h0
  rw [hto] at hiff
  rw [if_congr hiff rfl rfl,sizeBefore]
  by_cases hi0 : i=0
  · subst hi0
    rw [if_pos ⟨0,rfl⟩,if_pos rfl,Nat.mul_div_cancel _ (by decide)]
    rfl
  · rw [if_neg hi0,log2_succ hi0]
    split_ifs with hp
    · have hl := log2_succ hi0
      rw [if_pos hp] at hl
      have : 2^(i+1).log2 ≤ i+1 := Nat.log2_self_le (by omega)
      have h1 : 2^(i.log2+1)<2^(n+1) := by rw [← hl]; omega
      have h2 := (Nat.pow_lt_pow_iff_right (show 1<2 by decide)).1 h1
      rw [show n-i.log2=n-(i.log2+1)+1 by omega,Nat.pow_succ,Nat.mul_div_cancel _ (by decide)]
    · rfl

theorem reserveLoop_spec {n : Nat} (hn : n≤15) {k i : Nat} (h : i+k<2^(n+1)) (f : Nat → Nat) :
    ∀x,reserveLoop k i (sizeBefore n i) f x=
      if i≤x ∧ x < i+k then 2^(n-(x+1).log2) else f x := by
  induction k generalizing i f with
  | zero => intro x; rw [reserveLoop,if_neg (by omega)]
  | succ k ih =>
    intro x
    have hpow : 2^(n-(i+1).log2)≤2^15 := Nat.pow_le_pow_right (by decide) (by omega)
    have hnext : sizeBefore n (i+1)=2^(n-(i+1).log2) := if_neg (by omega)
    rw [reserveLoop,size_at (by omega) hn,store_eq _ _ (by omega),← hnext,ih (by omega)]
    by_cases hx : x=i
    · rw [hx,if_neg (by omega),Function.update_self,if_pos (by omega),hnext]
    · rw [Function.update_of_ne hx]
      exact if_congr (by omega) rfl rfl

theorem reserved_shows (b : Build) (f : Nat → Nat) :
    Shows b.order (fun _ _ => false) (reserveLoop b.nodeCount 0 (b.numLeaves*2) f) := by
  have hpow : 2^(b.order+1)=2^b.order*2 := Nat.pow_succ ..
  have hpos := Nat.two_pow_pos b.order
  intro k p hk hp
  have hkp : 2^(b.order-k)≤2^b.order := Nat.pow_le_pow_right (by decide) (by omega)
  have hlen : 0+b.nodeCount<2^(b.order+1) := by
    rw [Build.nodeCount,Build.numLeaves]; omega
  have hlog : (node b.order k p+1).log2=b.order-k :=
    (Nat.log2_eq_iff (by omega)).2 (by rw [node,Nat.pow_succ]; omega)
  have hs := reserveLoop_spec b.horder hlen f (node b.order k p)
  rw [show b.numLeaves*2=sizeBefore b.order 0 from rfl,hs,if_pos,hlog,
    largest_free fun _ _ _ => rfl]
  · congr 1; omega
  · rw [Build.nodeCount,Build.numLeaves,node]; omega

end Reserve

end LugalOS.Balloc
