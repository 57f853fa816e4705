import LugalOS.Lib.Run
import LugalOS.Uheap.Fit
import LugalOS.Uheap.Freeing

namespace LugalOS.Uheap

open Run
open Function (update update_of_ne)

section Arena

variable (h : Heap) (b p n v : Nat)

@[simp] theorem setSize_size : (h.setSize b v).size=h.size := rfl
@[simp] theorem putTail_size : (putTail h b n v).size=h.size := rfl

@[simp] theorem listRemove_size : (listRemove h b).size=h.size := by
  simp only [listRemove,bypass]
  split_ifs <;> rfl

@[simp] theorem raiseHighWater_arena :
    (raiseHighWater h).base=h.base ∧ (raiseHighWater h).size=h.size := by
  unfold raiseHighWater
  split_ifs <;> exact ⟨rfl,rfl⟩

@[simp] theorem absorb_arena : (absorb h b n).base=h.base ∧ (absorb h b n).size=h.size :=
  ⟨rfl,rfl⟩

@[simp] theorem mergeNext_arena :
    (mergeNext h b).base=h.base ∧ (mergeNext h b).size=h.size := by
  unfold mergeNext
  dsimp only
  split_ifs <;> simp

@[simp] theorem mergePrev_arena :
    (mergePrev h b).base=h.base ∧ (mergePrev h b).size=h.size := by
  unfold mergePrev
  dsimp only
  split_ifs <;> simp [listInsert_size]

theorem free_arena : (uheapFree h p).base=h.base ∧ (uheapFree h p).size=h.size := by
  unfold uheapFree
  dsimp only
  split_ifs <;> simp [release]

theorem alloc_arena : (uheapAlloc h n).1.base=h.base ∧ (uheapAlloc h n).1.size=h.size := by
  unfold uheapAlloc
  split
  · dsimp only
    split_ifs <;> exact ⟨rfl,rfl⟩
  · cases findFit h (need n) with
    | none => exact ⟨rfl,rfl⟩
    | some b =>
      unfold take handOut
      dsimp only
      split_ifs <;> simp [listInsert_size]

end Arena

/-- A heap, and the pointers its callers hold. -/
structure Owned where
  heap : Heap
  held : Finset Nat

inductive Call
  | alloc (n : Nat)
  | free (p : Nat)
  | store (p i : Nat) (v : UInt8)

/-- The byte i of what p points to. -/
def Heap.poke (h : Heap) (p i : Nat) (v : UInt8) : Heap :=
  {h with mem := update h.mem (p-h.base+i) v}

inductive Step (s : Owned) : Call → Owned → Prop
  | null (n : Nat) (h : (uheapAlloc s.heap n).2=0) :
    Step s (.alloc n) ⟨(uheapAlloc s.heap n).1,s.held⟩
  | alloc (n : Nat) (hn : n<2^32) (h : (uheapAlloc s.heap n).2≠0) :
    Step s (.alloc n) ⟨(uheapAlloc s.heap n).1,insert (uheapAlloc s.heap n).2 s.held⟩
  | free (p : Nat) (h : p∈s.held) : Step s (.free p) ⟨uheapFree s.heap p,s.held.erase p⟩
  | store (p i : Nat) (v : UInt8) (h : p∈s.held) (hi : i+hdr<s.heap.bsize (p-hdr-s.heap.base)) :
    Step s (.store p i v) ⟨s.heap.poke p i v,s.held⟩

/-- The live blocks are those that are held. -/
def Balanced (s : Owned) : Prop := ∃bs,Sound s.heap bs ∧ s.held=(usedOf bs).image (Blk.ptr s.heap)

section Runs

variable {s s' : Owned} {c : Call} {h g : Heap} {bs : Finset Blk}

theorem ptr_base (ha : g.base=h.base) : Blk.ptr g=Blk.ptr h := by
  funext b
  rw [Blk.ptr,Blk.ptr,ha]

theorem Sound.poke (hs : Sound h bs) {b : Blk} (hb : b∈usedOf bs) {i : Nat} (hi : i+8<b.size)
    (v : UInt8) : Sound (h.poke (b.ptr h) i v) bs := by
  obtain ⟨hbb,hbu⟩ := mem_usedOf.mp hb
  have he : Edits h (h.poke (b.ptr h) i v) b.Payload := ⟨rfl,rfl,fun k hk => by
    refine update_of_ne (fun hki => hk ?_) _ _
    rw [hki,Blk.ptr]
    exact ⟨by omega,by omega⟩⟩
  refine ⟨hs.laid.payload (he.mono fun k hk => ⟨b,hbb,hk⟩),hs.filed.keep he rfl ?_,hs.merged,
    hs.bytes,hs.blocks⟩
  intro f hf k hk hkb
  obtain ⟨hfb,hfu⟩ := mem_freeOf.mp hf
  rw [hs.laid.same hfb hbb (hk.payload (hs.laid.shaped f hfb)).has hkb.has,hbu] at hfu
  cases hfu

theorem Balanced.step (hb : Balanced s) (hs : Step s c s') :
    Balanced s' ∧ s'.heap.size=s.heap.size := by
  obtain ⟨bs,hsound,hheld⟩ := hb
  cases hs with
  | null n h0 =>
    have ha := alloc_arena s.heap n
    refine ⟨⟨bs,?_,by rw [ptr_base ha.1]; exact hheld⟩,ha.2⟩
    show Sound (uheapAlloc s.heap n).1 bs
    rcases alloc_null h0 with he | he
    · rw [he]
      exact hsound
    · rw [he]
      exact fail_sound hsound
  | alloc n hn h0 =>
    have ha := alloc_arena s.heap n
    obtain ⟨bs',b,hg,hp⟩ := alloc_granted hsound hn h0
    refine ⟨⟨bs',hg.sound,?_⟩,ha.2⟩
    rw [ptr_base ha.1,hg.used,Finset.image_insert,← hheld,hp]
    rfl
  | free p hp =>
    have ha := free_arena s.heap p
    rw [hheld] at hp
    obtain ⟨b,hbu,rfl⟩ := Finset.mem_image.mp hp
    obtain ⟨bs',hs',hu',-⟩ := free_spec hsound hbu
    refine ⟨⟨bs',hs',?_⟩,ha.2⟩
    rw [ptr_base ha.1,hu',hheld]
    ext q
    simp only [Finset.mem_erase,Finset.mem_image]
    constructor
    · rintro ⟨hne,x,hx,rfl⟩
      exact ⟨x,⟨fun he => hne (he ▸ rfl),hx⟩,rfl⟩
    · rintro ⟨x,⟨hne,hx⟩,rfl⟩
      refine ⟨fun he => hne ?_,x,hx,rfl⟩
      refine hsound.laid.off_inj (usedOf_subset _ hx) (usedOf_subset _ hbu) ?_
      simp only [Blk.ptr] at he
      omega
  | store p i v hp hi =>
    rw [hheld] at hp
    obtain ⟨b,hbu,rfl⟩ := Finset.mem_image.mp hp
    rw [ptr_off,hsound.laid.bsize (usedOf_subset _ hbu)] at hi
    exact ⟨⟨bs,hsound.poke hbu hi v,hheld⟩,rfl⟩

theorem Sound.whole (hs : Sound h bs) (hu : usedOf bs=∅) : bs={wholeArena h} := by
  have hfree : ∀b∈bs,b.used=false := fun b hb => by
    by_contra hx
    have hm := mem_usedOf.mpr ⟨hb,by simpa using hx⟩
    rw [hu] at hm
    cases hm
  have hl := hs.laid
  have hlarge := hl.large
  obtain ⟨b,hb,hb0⟩ := hl.tiles.cover 0 (by omega)
  have h0 : b.off=0 := by
    have := hb0.1
    omega
  have hleast := (hl.shaped b hb).least
  have hfit := hl.fits hb
  have hsize : b.size=h.size-8 := by
    by_contra hne
    obtain ⟨c,hc,hck⟩ := hl.tiles.cover b.size (by omega)
    by_cases hco : c.off=b.size
    · have := hs.merged b hb c hc (by omega) (hfree b hb)
      rw [hfree c hc] at this
      cases this
    · have he := hl.tiles.one b hb c hc (b.size-1) ⟨by omega,by omega⟩
        ⟨by have := hck.1; omega,by have := hck.2; omega⟩
      subst he
      have := hck.2
      omega
  have hw : b=wholeArena h := by
    obtain ⟨off,size,used⟩ := b
    simp only at h0 hsize
    rw [h0,hsize,show used=false from hfree _ hb]
    rfl
  refine Finset.eq_singleton_iff_unique_mem.mpr ⟨hw ▸ hb,fun c hc => ?_⟩
  have hcs := (hl.shaped c hc).least
  have hcf := hl.fits hc
  rw [← hw]
  exact hl.tiles.one c hc b hb c.off ⟨Nat.le_refl _,by omega⟩ ⟨by omega,by omega⟩

theorem Sound.largest (hs : Sound h bs) (hu : usedOf bs=∅) : uheapLargestFree h=h.size-16 := by
  have hw := hs.whole hu
  have hl := hs.laid.large
  apply le_antisymm
  · by_contra hlt
    obtain ⟨b,hb,hle⟩ := (largest_iff hs (by omega)).mp le_rfl
    have hb' := freeOf_subset bs hb
    rw [hw] at hb'
    rw [Finset.mem_singleton.mp hb'] at hle
    simp only [wholeArena] at hle
    omega
  · refine (largest_iff hs (by omega)).mpr ⟨wholeArena h,?_,?_⟩
    · rw [hw]
      simp [freeOf,wholeArena]
    · simp only [wholeArena]
      omega

theorem reach_balanced {arena size : Nat} {mem : Nat → UInt8}
    (hi : uheapInit arena size mem=some h) (hsz : size<2^32) {calls : List Call}
    (hr : Reach Step ⟨h,∅⟩ calls s) : Balanced s ∧ s.heap.size=h.size :=
  hr.invariant (fun _ s => Balanced s ∧ s.heap.size=h.size)
    ⟨⟨_,init_sound hi hsz,by simp [wholeArena]⟩,rfl⟩ fun _ _ _ _ hb hs =>
      ⟨(hb.1.step hs).1,(hb.1.step hs).2.trans hb.2⟩

theorem nothing_lost {arena size : Nat} {mem : Nat → UInt8} (hi : uheapInit arena size mem=some h)
    (hsz : size<2^32) {calls : List Call} (hr : Reach Step ⟨h,∅⟩ calls s) (h0 : s.held=∅) :
    s.heap.usedBlocks=0 ∧ s.heap.usedBytes=0 ∧
      uheapLargestFree s.heap=uheapLargestFree h ∧ uheapLargestFree h=size/8*8-16 := by
  obtain ⟨⟨bs,hs,hheld⟩,hsize⟩ := reach_balanced hi hsz hr
  rw [h0] at hheld
  have hu : usedOf bs=∅ := Finset.image_eq_empty.mp hheld.symm
  have h1 := (init_sound hi hsz).largest (usedOf_free ..)
  refine ⟨by rw [hs.blocks,hu]; rfl,by rw [hs.bytes,hu]; rfl,?_,?_⟩
  · rw [hs.largest hu,h1,hsize]
  · rw [h1,(init_fields hi).2.1]

/-- A block is allocated and freed. -/
theorem pair_reach : ∃h p s,uheapInit 4096 64 (fun _ => 0)=some h ∧
    Reach Step ⟨h,∅⟩ [.free p,.alloc 8] s ∧ s.held=∅ := by
  obtain ⟨h,hi⟩ : ∃h,uheapInit 4096 64 (fun _ => 0)=some h := by
    rw [uheapInit,if_neg (by omega)]
    exact ⟨_,rfl⟩
  have hsz := (init_fields hi).2.1
  have hne : (uheapAlloc h 8).2≠0 := by
    rw [alloc_iff (init_sound hi (by omega)) (by omega) (by omega)]
    refine ⟨by omega,wholeArena h,by simp [wholeArena],?_⟩
    show 16≤h.size-8
    omega
  exact ⟨h,_,_,hi,.next (.next .start (.alloc 8 (by omega) hne))
    (.free _ (Finset.mem_insert_self _ _)),by simp⟩

theorem nothing_lost_pair : ∃h p s,uheapInit 4096 64 (fun _ => 0)=some h ∧
    Reach Step ⟨h,∅⟩ [.free p,.alloc 8] s ∧ s.heap.usedBlocks=0 ∧ s.heap.usedBytes=0 ∧
      uheapLargestFree s.heap=uheapLargestFree h ∧ uheapLargestFree h=48 := by
  obtain ⟨h,p,s,hi,hr,h0⟩ := pair_reach
  exact ⟨h,p,s,hi,hr,nothing_lost hi (by omega) hr h0⟩

end Runs

end LugalOS.Uheap
