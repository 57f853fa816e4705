import Mathlib.Algebra.BigOperators.Group.Finset.Basic
import LugalOS.Lib.Doubly
import LugalOS.Lib.Tiling
import LugalOS.Uheap.Heap

/-! What a well-formed heap is: blocks that tile the arena up to the sentinel, each with its header
and its size behind it, and the free ones on the list of their class. -/

namespace LugalOS.Uheap

open LittleEndian Doubly Tiling
open Function (update)

structure Blk where
  off : Nat
  size : Nat
  used : Bool
deriving DecidableEq

def Blk.Has (b : Blk) (k : Nat) : Prop := b.off≤k ∧ k<b.off+b.size
def Blk.Payload (b : Blk) (k : Nat) : Prop := b.off+8≤k ∧ k<b.off+b.size

/-- Where a free block keeps the links of its list. -/
def Blk.Links (b : Blk) (k : Nat) : Prop := b.off+8≤k ∧ k<b.off+16

structure Blk.Shaped (b : Blk) : Prop where
  aligned : b.off%8=0
  rounded : b.size%8=0
  least : 16≤b.size

structure Tagged (h : Heap) (b : Blk) : Prop where
  header : h.word b.off=b.size+b.used.toNat
  behind : h.word (b.off+b.size+4)=b.size

structure Laid (h : Heap) (bs : Finset Blk) : Prop where
  tiles : Tiles Blk.Has (fun k => k+8<h.size) bs
  shaped : ∀b∈bs,b.Shaped
  tagged : ∀b∈bs,Tagged h b
  first : h.word 4=0
  sentinel : h.word (h.size-8)=1
  rounded : h.size%8=0
  large : 64≤h.size
  small : h.size<2^32

/-- Each class has its list, which leads through its free blocks and no others. -/
structure Lists (h : Heap) (lists : Nat → List Nat) (free : Finset Blk) : Prop where
  chain : ∀c<classes,Chain h.linkNext h.linkPrevfree 0 (h.freeHead c) (lists c)
  nodup : ∀c,(lists c).Nodup
  mem : ∀c off,off∈lists c ↔ ∃b∈free,b.off=off ∧ cls b.size=c

def Filed (h : Heap) (free : Finset Blk) : Prop := ∃lists,Lists h lists free

def freeOf (bs : Finset Blk) : Finset Blk := bs.filter fun b => b.used=false
def usedOf (bs : Finset Blk) : Finset Blk := bs.filter fun b => b.used

/-- No two free blocks stand next to each other. -/
def Merged (bs : Finset Blk) : Prop :=
  ∀b∈bs,∀c∈bs,b.off+b.size=c.off → b.used=false → c.used=true

structure Sound (h : Heap) (bs : Finset Blk) : Prop where
  laid : Laid h bs
  filed : Filed h (freeOf bs)
  merged : Merged bs
  bytes : h.usedBytes=∑b∈usedOf bs,(b.size-8)
  blocks : h.usedBlocks=(usedOf bs).card

/-- Only bytes of W differ, and neither the arena nor its size does. -/
structure Edits (h h' : Heap) (W : Nat → Prop) : Prop where
  base : h'.base=h.base
  size : h'.size=h.size
  mem : ∀k,¬W k → h'.mem k=h.mem k

section Edits

variable {h h' h'' : Heap} {W W' : Nat → Prop} {a b v x y : Nat}

theorem Edits.refl (h : Heap) (W : Nat → Prop) : Edits h h W := ⟨rfl,rfl,fun _ _ => rfl⟩

theorem Edits.trans (e : Edits h h' W) (e' : Edits h' h'' W) : Edits h h'' W :=
  ⟨e'.base.trans e.base,e'.size.trans e.size,fun k hk => (e'.mem k hk).trans (e.mem k hk)⟩

theorem Edits.mono (e : Edits h h' W) (hw : ∀k,W k → W' k) : Edits h h' W' :=
  ⟨e.base,e.size,fun k hk => e.mem k fun hk' => hk (hw k hk')⟩

theorem Edits.word (e : Edits h h' W) (hw : ∀k,a≤k → k<a+4 → ¬W k) : h'.word a=h.word a :=
  leAt_congr _ _ _ _ fun k hk hk' => e.mem k (hw k hk hk')

theorem edits_setWord (h : Heap) (a v : Nat) : Edits h (h.setWord a v) fun k => a≤k ∧ k<a+4 where
  base := rfl
  size := rfl
  mem k hk := putLe_outside _ _ _ _ _ (by omega)

theorem word_lt (h : Heap) (a : Nat) : h.word a<2^32 := leAt_lt h.mem a 4

theorem word_setWord (hv : v<2^32) : (h.setWord a v).word a=v := by
  rw [Heap.word,Heap.setWord,leAt_putLe]
  exact Nat.mod_eq_of_lt hv

theorem word_setWord_other (hab : a+4≤b ∨ b+4≤a) : (h.setWord a v).word b=h.word b :=
  (edits_setWord h a v).word fun k _ _ => by omega

theorem word_setWord_field (i : Nat) (hx : x%8=0) (hy : y%8=0) (hv : v<2^32) :
    (h.setWord (x+i) v).word (y+i)=if y=x then v else h.word (y+i) := by
  by_cases hyx : y=x
  · rw [if_pos hyx,hyx,word_setWord hv]
  · rw [if_neg hyx,word_setWord_other (by omega)]

theorem linkNext_setNext (hx : x%8=0) (hy : y%8=0) (hv : v<2^32) :
    (h.setNext x v).linkNext y=if y=x then v else h.linkNext y :=
  word_setWord_field 8 hx hy hv

theorem linkPrevfree_setPrevfree (hx : x%8=0) (hy : y%8=0) (hv : v<2^32) :
    (h.setPrevfree x v).linkPrevfree y=if y=x then v else h.linkPrevfree y :=
  word_setWord_field 12 hx hy hv

theorem linkPrevfree_setNext (hx : x%8=0) (hy : y%8=0) :
    (h.setNext x v).linkPrevfree y=h.linkPrevfree y :=
  word_setWord_other (by omega)

theorem linkNext_setPrevfree (hx : x%8=0) (hy : y%8=0) :
    (h.setPrevfree x v).linkNext y=h.linkNext y :=
  word_setWord_other (by omega)

end Edits

section Classes

variable {n m : Nat}

theorem clsLoop_spec (k c : Nat) (h0 : 0<n) (hn : n<2^k) :
    ∃r,clsLoop k n c=c+r ∧ r<k ∧ 2^r≤n ∧ n<2^(r+1) := by
  induction k generalizing n c with
  | zero => exact absurd hn (by omega)
  | succ k ih =>
    rw [clsLoop]
    by_cases h2 : n/2=0
    · rw [if_pos h2]
      exact ⟨0,rfl,by omega,by omega,by omega⟩
    · rw [if_neg h2]
      obtain ⟨r,hr,hk,hlo,hhi⟩ := ih (c+1) (Nat.pos_of_ne_zero h2)
        (by rw [Nat.pow_succ] at hn; omega)
      refine ⟨r+1,by omega,by omega,?_,?_⟩
      · rw [Nat.pow_succ]
        omega
      · rw [Nat.pow_succ]
        omega

theorem cls_spec (h0 : 0<n) (hn : n<2^32) : cls n<classes ∧ 2^cls n≤n ∧ n<2^(cls n+1) := by
  obtain ⟨r,hr,hk,hlo,hhi⟩ := clsLoop_spec 32 0 h0 hn
  rw [Nat.zero_add] at hr
  rw [cls,hr]
  exact ⟨hk,hlo,hhi⟩

theorem lt_of_cls_lt (h0 : 0<n) (hn : n<2^32) (hm0 : 0< m) (hm : m<2^32) (hc : cls n<cls m) :
    n< m := by
  have hpow : 2^(cls n+1)≤2^cls m := Nat.pow_le_pow_right (by omega) hc
  have := (cls_spec h0 hn).2.2
  have := (cls_spec hm0 hm).2.1
  omega

end Classes

section Laid

variable {h h' : Heap} {bs old new : Finset Blk} {b c : Blk} {W : Nat → Prop} {a n k : Nat}

theorem Blk.Payload.has (h : b.Payload k) : b.Has k := ⟨by have := h.1; omega,h.2⟩

theorem Blk.Links.payload (hb : b.Shaped) (h : b.Links k) : b.Payload k :=
  ⟨h.1,by have := h.2; have := hb.least; omega⟩

theorem Blk.Shaped.has_off (hb : b.Shaped) : b.Has b.off :=
  ⟨Nat.le_refl _,by have := hb.least; omega⟩

namespace Laid

theorem fits (hl : Laid h bs) (hb : b∈bs) : b.off+b.size+8≤h.size := by
  have hs := (hl.shaped b hb).least
  have := hl.tiles.inside b hb (b.off+b.size-1) ⟨by omega,by omega⟩
  have hround := hl.rounded
  have h1 := (hl.shaped b hb).aligned
  have h2 := (hl.shaped b hb).rounded
  omega

theorem size_lt (hl : Laid h bs) (hb : b∈bs) : b.size<2^32 := by
  have := hl.fits hb
  have := hl.small
  omega

theorem same (hl : Laid h bs) (hb : b∈bs) (hc : c∈bs) (h0 : b.Has k) (h1 : c.Has k) : b=c :=
  hl.tiles.one b hb c hc k h0 h1

theorem off_inj (hl : Laid h bs) (hb : b∈bs) (hc : c∈bs) (ho : b.off=c.off) : b=c := by
  apply hl.same hb hc (hl.shaped b hb).has_off
  rw [ho]
  exact (hl.shaped c hc).has_off

theorem apart (hl : Laid h bs) (hb : b∈bs) (hc : c∈bs) (hne : b≠c) :
    b.off+b.size≤c.off ∨ c.off+c.size≤b.off := by
  have hsb := (hl.shaped b hb).least
  have hsc := (hl.shaped c hc).least
  by_contra hcon
  apply hne
  by_cases hbc : b.off≤c.off
  · exact hl.same hb hc (k := c.off) ⟨hbc,by omega⟩ ⟨by omega,by omega⟩
  · exact hl.same hb hc (k := b.off) ⟨by omega,by omega⟩ ⟨by omega,by omega⟩

theorem behind (hl : Laid h bs) (hb : b∈bs) :
    b.off+b.size+8=h.size ∨ ∃c∈bs,c.off=b.off+b.size := by
  have hf := hl.fits hb
  by_cases he : b.off+b.size+8=h.size
  · exact .inl he
  · obtain ⟨c,hc,hk⟩ := hl.tiles.cover (b.off+b.size) (by omega)
    refine .inr ⟨c,hc,?_⟩
    have hne : b≠c := by
      intro hbc
      have := hk.2
      rw [← hbc] at this
      omega
    have := hl.apart hb hc hne
    have := hk.1
    have := hk.2
    omega

theorem infront (hl : Laid h bs) (hb : b∈bs) : b.off=0 ∨ ∃c∈bs,c.off+c.size=b.off := by
  by_cases he : b.off=0
  · exact .inl he
  · have hf := hl.fits hb
    obtain ⟨c,hc,hk⟩ := hl.tiles.cover (b.off-1) (by omega)
    refine .inr ⟨c,hc,?_⟩
    have hne : b≠c := by
      intro hbc
      have := hk.1
      rw [← hbc] at this
      omega
    have := hl.apart hb hc hne
    have := hk.1
    have := hk.2
    omega

theorem bsize (hl : Laid h bs) (hb : b∈bs) : h.bsize b.off=b.size := by
  have h0 := (hl.tagged b hb).header
  have hr := (hl.shaped b hb).rounded
  rw [Heap.bsize,Heap.blkSize,h0]
  cases b.used
  · simp only [Bool.toNat_false]
    omega
  · simp only [Bool.toNat_true]
    omega

theorem bused (hl : Laid h bs) (hb : b∈bs) : h.bused b.off=b.used := by
  have h0 := (hl.tagged b hb).header
  have hr := (hl.shaped b hb).rounded
  rw [Heap.bused,Heap.blkSize,h0]
  cases b.used
  · simp only [Bool.toNat_false,decide_eq_false_iff_not]
    omega
  · simp only [Bool.toNat_true,decide_eq_true_eq]
    omega

theorem nextBlk (hl : Laid h bs) (hb : b∈bs) : h.nextBlk b.off=b.off+b.size := by
  rw [Heap.nextBlk,hl.bsize hb]

theorem next_free (hl : Laid h bs) (hb : b∈bs) (hn : h.bused (h.nextBlk b.off)=false) :
    ∃c∈bs,c.off=b.off+b.size ∧ c.used=false := by
  rw [hl.nextBlk hb] at hn
  obtain he | ⟨c,hc,ho⟩ := hl.behind hb
  · rw [show b.off+b.size=h.size-8 by omega,Heap.bused,Heap.blkSize,hl.sentinel] at hn
    exact absurd hn (by decide)
  · rw [← ho,hl.bused hc] at hn
    exact ⟨c,hc,ho,hn⟩

theorem blkPrev (hl : Laid h bs) (hb : b∈bs) :
    b.off=0 ∧ h.blkPrev b.off=0 ∨ ∃c∈bs,c.off+c.size=b.off ∧ h.blkPrev b.off=c.size := by
  obtain h0 | ⟨c,hc,ho⟩ := hl.infront hb
  · refine .inl ⟨h0,?_⟩
    rw [h0]
    exact hl.first
  · refine .inr ⟨c,hc,ho,?_⟩
    rw [← ho]
    exact (hl.tagged c hc).behind

end Laid

/-- The headers of a stretch of n bytes from a on, what lies between them, and the size the
stretch leaves behind it. What is in front of it is not touched. -/
def Zone (a n k : Nat) : Prop :=
  a≤k ∧ k<a+4 ∨ a+8≤k ∧ k<a+n ∨ a+n+4≤k ∧ k<a+n+8

theorem Laid.rewrite (hl : Laid h bs) (ho : old⊆bs) (ha : a%8=0) (hn : n%8=0) (hn0 : 0<n)
    (hto : Tiles Blk.Has (fun k => a≤k ∧ k<a+n) old)
    (htn : Tiles Blk.Has (fun k => a≤k ∧ k<a+n) new)
    (hs : ∀b∈new,b.Shaped) (ht : ∀b∈new,Tagged h' b)
    (he : Edits h h' fun k => Zone a n k ∨ ∃f∈bs\old,f.Payload k) : Laid h' (bs\old ∪ new) := by
  have hin : ∀x∈bs\old,∀k,x.Has k → ¬(a≤k ∧ k<a+n) := by
    intro x hx k hk hr
    obtain ⟨hxs,hxo⟩ := Finset.mem_sdiff.mp hx
    obtain ⟨c,hc,hck⟩ := hto.cover k hr
    rw [hl.same hxs (ho hc) hk hck] at hxo
    exact hxo hc
  have hend : a+n+8≤h.size := by
    obtain ⟨c,hc,hck⟩ := hto.cover (a+n-1) ⟨by omega,by omega⟩
    have := hl.tiles.inside c (ho hc) _ hck
    have := hl.rounded
    omega
  have hkept : ∀x∈bs\old,Tagged h' x := by
    intro x hx
    have hxs := (Finset.mem_sdiff.mp hx).1
    have hsx := hl.shaped x hxs
    have hx0 := hsx.aligned
    have hx1 := hsx.rounded
    have hx2 := hsx.least
    constructor
    · rw [he.word,(hl.tagged x hxs).header]
      intro k hk hk' hw
      obtain hz | ⟨f,hf,hfk⟩ := hw
      · have := hin x hx k ⟨hk,by omega⟩
        unfold Zone at hz
        omega
      · have hfx := hl.same (Finset.mem_sdiff.mp hf).1 hxs hfk.has ⟨hk,by omega⟩
        have := hfk.1
        rw [hfx] at this
        omega
    · rw [he.word,(hl.tagged x hxs).behind]
      intro k hk hk' hw
      have hlast : x.Has (x.off+x.size-1) := ⟨by omega,by omega⟩
      obtain hz | ⟨f,hf,hfk⟩ := hw
      · have := hin x hx _ hlast
        unfold Zone at hz
        omega
      · have hfs := (Finset.mem_sdiff.mp hf).1
        have h0 := (hl.shaped f hfs).aligned
        have hf1 := hfk.1
        have hf2 := hfk.2
        have hfx := hl.same hfs hxs (k := x.off+x.size-1) ⟨by omega,by omega⟩ hlast
        rw [hfx] at hf2
        omega
  have hsize := he.size
  constructor
  · rw [hsize]
    exact hl.tiles.replace ho hto htn
  · intro b hb
    obtain hb | hb := Finset.mem_union.mp hb
    · exact hl.shaped b (Finset.mem_sdiff.mp hb).1
    · exact hs b hb
  · intro b hb
    obtain hb | hb := Finset.mem_union.mp hb
    · exact hkept b hb
    · exact ht b hb
  · rw [he.word,hl.first]
    intro k hk hk' hw
    obtain hz | ⟨f,hf,hfk⟩ := hw
    · unfold Zone at hz
      omega
    · have := hfk.1
      omega
  · rw [hsize,he.word,hl.sentinel]
    intro k hk hk' hw
    have hround := hl.rounded
    have hlarge := hl.large
    obtain hz | ⟨f,hf,hfk⟩ := hw
    · unfold Zone at hz
      omega
    · have := hl.tiles.inside f (Finset.mem_sdiff.mp hf).1 k hfk.has
      omega
  · rw [hsize]
    exact hl.rounded
  · rw [hsize]
    exact hl.large
  · rw [hsize]
    exact hl.small

theorem Laid.payload (hl : Laid h bs) (he : Edits h h' fun k => ∃f∈bs,f.Payload k) :
    Laid h' bs := by
  have hh : ∀x∈bs,∀k,x.off≤k → k<x.off+8 → ¬∃f∈bs,f.Payload k := by
    rintro x hx k hk hk' ⟨f,hf,hfk⟩
    have := (hl.shaped x hx).least
    have hfx := hl.same hf hx hfk.has ⟨hk,by omega⟩
    have := hfk.1
    rw [hfx] at this
    omega
  have hstop : ∀k,h.size-8≤k → ¬∃f∈bs,f.Payload k := by
    rintro k hk ⟨f,hf,hfk⟩
    have := hl.tiles.inside f hf k hfk.has
    omega
  refine ⟨?_,hl.shaped,?_,?_,?_,?_,?_,?_⟩
  · rw [he.size]
    exact hl.tiles
  · intro x hx
    constructor
    · rw [he.word fun k hk hk' => hh x hx k hk (by omega)]
      exact (hl.tagged x hx).header
    · have hb := (hl.tagged x hx).behind
      rw [he.word,hb]
      intro k hk hk'
      obtain hs | ⟨c,hc,ho⟩ := hl.behind hx
      · exact hstop k (by omega)
      · exact hh c hc k (by omega) (by omega)
  · rw [he.word,hl.first]
    rintro k hk hk' ⟨f,hf,hfk⟩
    have := hfk.1
    omega
  · rw [he.size,he.word fun k hk _ => hstop k hk]
    exact hl.sentinel
  · rw [he.size]
    exact hl.rounded
  · rw [he.size]
    exact hl.large
  · rw [he.size]
    exact hl.small

/-- The payloads of these blocks are as they were. -/
def Spares (h h' : Heap) (live : Finset Blk) : Prop :=
  ∀x∈live,∀k,x.Payload k → h'.mem k=h.mem k

theorem Spares.trans {h'' : Heap} {live : Finset Blk} (hs : Spares h h' live)
    (hs' : Spares h' h'' live) : Spares h h'' live :=
  fun x hx k hk => (hs' x hx k hk).trans (hs x hx k hk)

theorem Spares.mono {live live' : Finset Blk} (hs : Spares h h' live) (hl : live'⊆live) :
    Spares h h' live' :=
  fun x hx => hs x (hl hx)

theorem mem_usedOf : b∈usedOf bs ↔ b∈bs ∧ b.used=true := by
  simp [usedOf]

theorem mem_freeOf : b∈freeOf bs ↔ b∈bs ∧ b.used=false := by
  simp [freeOf]

theorem freeOf_subset (bs : Finset Blk) : freeOf bs⊆bs := Finset.filter_subset _ _

theorem usedOf_subset (bs : Finset Blk) : usedOf bs⊆bs := Finset.filter_subset _ _

theorem usedOf_rewrite (bs old new : Finset Blk) :
    usedOf (bs\old ∪ new)=usedOf bs\old ∪ usedOf new := by
  ext x
  simp only [mem_usedOf,Finset.mem_union,Finset.mem_sdiff]
  tauto

theorem freeOf_rewrite (bs old new : Finset Blk) :
    freeOf (bs\old ∪ new)=freeOf bs\old ∪ freeOf new := by
  ext x
  simp only [mem_freeOf,Finset.mem_union,Finset.mem_sdiff]
  tauto

section Single

variable (o s : Nat)

@[simp] theorem usedOf_used : usedOf {⟨o,s,true⟩}={⟨o,s,true⟩} := Finset.filter_singleton ..
@[simp] theorem usedOf_free : usedOf {⟨o,s,false⟩}=∅ := Finset.filter_singleton ..
@[simp] theorem freeOf_used : freeOf {⟨o,s,true⟩}=∅ := Finset.filter_singleton ..
@[simp] theorem freeOf_free : freeOf {⟨o,s,false⟩}={⟨o,s,false⟩} := Finset.filter_singleton ..

end Single

theorem Laid.spares (hl : Laid h bs) (ho : old⊆bs)
    (hto : Tiles Blk.Has (fun k => a≤k ∧ k<a+n) old) (ha : a%8=0) (hn : n%8=0) (hn0 : 0<n)
    (he : Edits h h' fun k => Zone a n k ∨ ∃f∈freeOf bs,f.Links k) :
    Spares h h' (usedOf bs\old) := by
  intro x hx k hk
  obtain ⟨hxu,hxo⟩ := Finset.mem_sdiff.mp hx
  obtain ⟨hxs,hu⟩ := mem_usedOf.mp hxu
  apply he.mem
  rintro (hz | ⟨f,hf,hfk⟩)
  · by_cases hr : a≤k ∧ k<a+n
    · obtain ⟨c,hc,hck⟩ := hto.cover k hr
      exact hxo (hl.same (ho hc) hxs hck hk.has ▸ hc)
    · have hin : ¬(a≤x.off ∧ x.off<a+n) := by
        intro hi
        obtain ⟨c,hc,hck⟩ := hto.cover _ hi
        exact hxo (hl.same (ho hc) hxs hck (hl.shaped x hxs).has_off ▸ hc)
      have hend : ¬(x.off<a ∧ a<x.off+x.size) := by
        intro hi
        obtain ⟨c,hc,hck⟩ := hto.cover a (by omega)
        exact hxo (hl.same (ho hc) hxs hck ⟨by omega,hi.2⟩ ▸ hc)
      have h0 := (hl.shaped x hxs).aligned
      have h1 := hk.1
      have h2 := hk.2
      unfold Zone at hz
      omega
  · obtain ⟨hfs,hff⟩ := mem_freeOf.mp hf
    have hfx := hl.same hfs hxs (hfk.payload (hl.shaped f hfs)).has hk.has
    rw [hfx,hu] at hff
    cases hff

theorem Tagged.keep {x : Blk} (ht : Tagged h x) (hx : x.Shaped)
    (he : Edits h h' fun k => ∃f∈bs,f.Links k)
    (hap : ∀f∈bs,16≤f.size ∧ (f=x ∨ f.off+f.size≤x.off ∨ x.off+x.size≤f.off)) :
    Tagged h' x := by
  have hsx := hx.least
  constructor
  · rw [he.word,ht.header]
    rintro k hk hk' ⟨f,hf,hf1,hf2⟩
    obtain ⟨hs,rfl | ho | ho⟩ := hap f hf
    · omega
    · omega
    · omega
  · rw [he.word,ht.behind]
    rintro k hk hk' ⟨f,hf,hf1,hf2⟩
    obtain ⟨hs,rfl | ho | ho⟩ := hap f hf
    · omega
    · omega
    · omega

end Laid

end LugalOS.Uheap
