import LugalOS.Uheap.Allocating

namespace LugalOS.Uheap

open Doubly Tiling
open Function (update)

variable {h h' : Heap} {free bs : Finset Blk} {b c x y : Blk}

section Joining

def joined (x y : Blk) : Blk := ⟨x.off,x.size+y.size,false⟩

theorem absorb_eq (hw : Shelved h bs free) (hx : x∈freeOf bs) (hy : y∈bs)
    (hadj : x.off+x.size=y.off) : absorb h x.off y.off=
      (h.setWord x.off (x.size+y.size)).setWord (x.off+(x.size+y.size)+4) (x.size+y.size) := by
  obtain ⟨hxb,hxu⟩ := mem_freeOf.mp hx
  have hsx := hw.laid.shaped x hxb
  have hsy := hw.laid.shaped y hy
  have h1 := hsx.rounded
  have h2 := hsy.rounded
  have hfy := hw.laid.fits hy
  have hsm := hw.laid.small
  have hlt : x.size+y.size<2^32 := by omega
  have hhead := (hw.laid.tagged x hxb).header
  rw [hxu,Bool.toNat_false,Nat.add_zero] at hhead
  have hnew : (h.setWord x.off (x.size+y.size)).word x.off=x.size+y.size := word_setWord hlt
  have hnext : (h.setWord x.off (x.size+y.size)).nextBlk x.off=x.off+(x.size+y.size) := by
    rw [Heap.nextBlk,Heap.bsize,Heap.blkSize,hnew]
    omega
  simp only [absorb,hw.laid.bsize hy,Heap.blkSize,hhead,Heap.setSize,hnew,hnext]
  rfl

theorem Shelved.join (hw : Shelved h bs free) (hx : x∈freeOf bs) (hy : y∈freeOf bs)
    (hxf : x∉free) (hyf : y∉free) (hadj : x.off+x.size=y.off) :
    Shelved (absorb h x.off y.off) (bs\{x,y} ∪ {joined x y}) free ∧
      Spares h (absorb h x.off y.off) (usedOf bs) := by
  obtain ⟨hxb,hxu⟩ := mem_freeOf.mp hx
  obtain ⟨hyb,hyu⟩ := mem_freeOf.mp hy
  have hsx := hw.laid.shaped x hxb
  have hsy := hw.laid.shaped y hyb
  have h1 := hsx.rounded
  have h2 := hsy.rounded
  have h3 := hsx.least
  have hfy := hw.laid.fits hyb
  have hsm := hw.laid.small
  have hlt : x.size+y.size<2^32 := by omega
  have hround : (x.size+y.size)%8=0 := by omega
  have hpos : 0<x.size+y.size := by omega
  have hold : ({x,y} : Finset Blk)⊆bs := by
    simp [Finset.insert_subset_iff,hxb,hyb]
  have heq := absorb_eq hw hx hyb hadj
  have hedits : Edits h (absorb h x.off y.off) (Zone x.off (x.size+y.size)) := by
    rw [heq]
    refine Edits.trans (?_ : Edits h (h.setWord x.off (x.size+y.size)) _) ?_
    · exact (edits_setWord _ _ _).mono fun k hk => .inl hk
    · apply (edits_setWord _ _ _).mono
      intro k hk
      unfold Zone
      omega
  obtain ⟨hsh,hsp⟩ : Shelved _ (bs\{x,y} ∪ {joined x y}) free ∧ _ := hw.rewrite hold (by simp [hxf,hyf]) hsx.aligned hround
    hpos (Blk.tiles_pair hadj) (Tiles.single fun _ => Iff.rfl)
    (by
      intro z hz
      rw [Finset.mem_singleton.mp hz]
      exact Blk.shaped_mk hsx.aligned hround (by omega))
    (by
      intro z hz
      rw [Finset.mem_singleton.mp hz,heq]
      apply tagged_mk
      · rw [word_setWord_other (by omega),word_setWord hlt]
        rfl
      · exact word_setWord hlt)
    hedits (by rw [heq]; rfl)
  refine ⟨hsh,hsp.mono ?_⟩
  intro z hz
  refine Finset.mem_sdiff.mpr ⟨hz,?_⟩
  have hzu := (mem_usedOf.mp hz).2
  simp only [Finset.mem_insert,Finset.mem_singleton]
  rintro (rfl | rfl)
  · rw [hxu] at hzu
    cases hzu
  · rw [hyu] at hzu
    cases hzu

theorem usedOf_join (hx : x∈freeOf bs) (hy : y∈freeOf bs) :
    usedOf (bs\{x,y} ∪ {joined x y})=usedOf bs := by
  have hxu := (mem_freeOf.mp hx).2
  have hyu := (mem_freeOf.mp hy).2
  rw [usedOf_rewrite,joined,usedOf_free,Finset.union_empty,Finset.sdiff_eq_self_iff_disjoint,
    Finset.disjoint_right]
  intro z hz hzu
  have hzu := (mem_usedOf.mp hzu).2
  simp only [Finset.mem_insert,Finset.mem_singleton] at hz
  obtain rfl | rfl := hz
  · rw [hxu] at hzu
    cases hzu
  · rw [hyu] at hzu
    cases hzu

theorem Shelved.join_loose (hw : Shelved h bs (((freeOf bs).erase x).erase y))
    (hx : x∈freeOf bs) (hy : y∈freeOf bs) (hadj : x.off+x.size=y.off)
    (hm : ∀u∈bs,∀v∈bs,u.off+u.size=v.off → u≠x → u≠y → v≠x → v≠y → u.used=false →
      v.used=true) :
    Loose (absorb h x.off y.off) (bs\{x,y} ∪ {joined x y}) (joined x y) := by
  have hxb := freeOf_subset bs hx
  have hleast := (hw.laid.shaped x hxb).least
  have hyl := (hw.laid.shaped y (freeOf_subset bs hy)).least
  obtain ⟨hsh,hsp⟩ := hw.join hx hy (by simp) (by simp) hadj
  have hjb : joined x y∉bs := by
    intro hj
    have := congrArg Blk.size (hw.laid.off_inj hj hxb rfl)
    simp only [joined] at this
    omega
  have hfree : ((freeOf bs).erase x).erase y=
      (freeOf (bs\{x,y} ∪ {joined x y})).erase (joined x y) := by
    ext z
    simp only [Finset.mem_erase,mem_freeOf,Finset.mem_union,Finset.mem_sdiff,Finset.mem_insert,
      Finset.mem_singleton]
    constructor
    · rintro ⟨hzy,hzx,hz,hu⟩
      refine ⟨?_,.inl ⟨hz,?_⟩,hu⟩
      · rintro rfl
        exact hjb hz
      · rintro (he | he)
        · exact hzx he
        · exact hzy he
    · rintro ⟨hzj,⟨hz,hn⟩ | he,hu⟩
      · exact ⟨fun he => hn (.inr he),fun he => hn (.inl he),hz,hu⟩
      · exact absurd he hzj
  rw [hfree] at hsh
  refine ⟨hsh,mem_freeOf.mpr ⟨by simp,rfl⟩,?_⟩
  intro u hu v hv ho huj hvj huf
  simp only [Finset.mem_union,Finset.mem_sdiff,Finset.mem_insert,Finset.mem_singleton,
    not_or] at hu hv
  obtain ⟨hub,hux,huy⟩ | hu := hu
  · obtain ⟨hvb,hvx,hvy⟩ | hv := hv
    · exact hm u hub v hvb ho hux huy hvx hvy huf
    · exact absurd hv hvj
  · exact absurd hu huj

end Joining

section Merging

theorem Loose.mergeNext (hl : Loose h bs c) :
    ∃bs' c',Loose (mergeNext h c.off) bs' c' ∧ c'.off=c.off ∧ usedOf bs'=usedOf bs ∧
      Spares h (mergeNext h c.off) (usedOf bs) ∧
      ∀y∈bs',c'.off+c'.size=y.off → y.used=true := by
  have hlaid := hl.shelved.laid
  simp only [Uheap.mergeNext]
  by_cases hu : h.bused (h.nextBlk c.off)=true
  · rw [if_pos hu]
    refine ⟨bs,c,hl,rfl,rfl,fun _ _ _ _ => rfl,?_⟩
    intro y hy ho
    rw [hlaid.nextBlk hl.mem,ho,hlaid.bused hy] at hu
    exact hu
  · rw [if_neg hu]
    obtain ⟨n,hn,hno,hnu⟩ := hlaid.next_free hl.mem (by simpa using hu)
    have hleast := (hlaid.shaped c hl.mem).least
    have hnl := (hlaid.shaped n hn).least
    have hnc : n≠c := by
      intro he
      rw [he] at hno
      omega
    have hnf : n∈freeOf bs := mem_freeOf.mpr ⟨hn,hnu⟩
    obtain ⟨hw,hsp⟩ := hl.shelved.unlist (Finset.mem_erase.mpr ⟨hnc,hnf⟩)
    have hsp' := (hw.join hl.free hnf (by simp) (by simp) hno.symm).2
    rw [hlaid.nextBlk hl.mem,← hno]
    refine ⟨_,joined c n,hw.join_loose hl.free hnf hno.symm ?_,rfl,usedOf_join hl.free hnf,
      hsp.trans hsp',?_⟩
    · exact fun u hu v hv ho huc _ hvc _ huf => hl.merged u hu v hv ho huc hvc huf
    · intro y hy ho
      simp only [Finset.mem_union,Finset.mem_sdiff,Finset.mem_insert,Finset.mem_singleton,
        not_or] at hy
      simp only [joined] at ho hy
      obtain ⟨hyb,hyc,_⟩ | rfl := hy
      · exact hl.merged n hn y hyb (by omega) hnc hyc hnu
      · dsimp only at ho
        omega

theorem Loose.shelve (hl : Loose h bs c) (hnext : ∀y∈bs,c.off+c.size=y.off → y.used=true)
    (hprev : ∀u∈bs,u.off+u.size=c.off → u.used=true)
    (hby : h.usedBytes=∑b∈usedOf bs,(b.size-8)) (hbl : h.usedBlocks=(usedOf bs).card) :
    Sound (listInsert h c.off) bs ∧ Spares h (listInsert h c.off) (usedOf bs) := by
  obtain ⟨hw,hsp⟩ := hl.shelved.enlist hl.free (Finset.notMem_erase _ _)
  rw [Finset.insert_erase hl.free] at hw
  refine ⟨⟨hw.laid,hw.filed,?_,?_,?_⟩,hsp⟩
  · intro u hu v hv ho huf
    by_cases huc : u=c
    · rw [huc] at ho
      exact hnext v hv ho
    · by_cases hvc : v=c
      · rw [hvc] at ho
        have := hprev u hu ho
        rw [huf] at this
        cases this
      · exact hl.merged u hu v hv ho huc hvc huf
  · rwa [listInsert_bytes]
  · rwa [listInsert_blocks]

theorem Laid.end_inj (hl : Laid h bs) (hx : x∈bs) (hy : y∈bs)
    (he : x.off+x.size=y.off+y.size) : x=y := by
  have := (hl.shaped x hx).least
  have := (hl.shaped y hy).least
  exact hl.same hx hy (k := x.off+x.size-1) ⟨by omega,by omega⟩ ⟨by omega,by omega⟩

@[simp] theorem absorb_bytes (h : Heap) (b n : Nat) :
    (absorb h b n).usedBytes=h.usedBytes := rfl
@[simp] theorem absorb_blocks (h : Heap) (b n : Nat) :
    (absorb h b n).usedBlocks=h.usedBlocks := rfl
@[simp] theorem absorb_base (h : Heap) (b n : Nat) : (absorb h b n).base=h.base := rfl

theorem Loose.mergePrev (hl : Loose h bs c) (hnext : ∀y∈bs,c.off+c.size=y.off → y.used=true)
    (hby : h.usedBytes=∑b∈usedOf bs,(b.size-8)) (hbl : h.usedBlocks=(usedOf bs).card) :
    ∃bs',Sound (mergePrev h c.off) bs' ∧ usedOf bs'=usedOf bs ∧
      Spares h (mergePrev h c.off) (usedOf bs) := by
  have hlaid := hl.shelved.laid
  have hcl := (hlaid.shaped c hl.mem).least
  simp only [Uheap.mergePrev]
  obtain ⟨h0,hp⟩ | ⟨p,hpb,hpo,hp⟩ := hlaid.blkPrev hl.mem
  · rw [if_pos hp]
    obtain ⟨hs,hsp⟩ := hl.shelve hnext (fun u hu ho => by
      have := (hlaid.shaped u hu).least
      omega) hby hbl
    exact ⟨bs,hs,rfl,hsp⟩
  · have hpl := (hlaid.shaped p hpb).least
    rw [if_neg (by omega),hp,show c.off-p.size=p.off by omega,hlaid.bused hpb]
    cases hpu : p.used with
    | true =>
      rw [if_pos rfl]
      obtain ⟨hs,hsp⟩ := hl.shelve hnext (fun u hu ho => by
        rw [hlaid.end_inj hu hpb (ho.trans hpo.symm),hpu]) hby hbl
      exact ⟨bs,hs,rfl,hsp⟩
    | false =>
      rw [if_neg Bool.false_ne_true]
      have hpc : p≠c := by
        intro he
        rw [he] at hpo
        omega
      have hpf : p∈freeOf bs := mem_freeOf.mpr ⟨hpb,hpu⟩
      obtain ⟨hw,hsp⟩ := hl.shelved.unlist (Finset.mem_erase.mpr ⟨hpc,hpf⟩)
      rw [Finset.erase_right_comm] at hw
      have hsp' := (hw.join hpf hl.free (by simp) (by simp) hpo).2
      have hl' := hw.join_loose hpf hl.free hpo
        fun u hu v hv ho _ huc _ hvc huf => hl.merged u hu v hv ho huc hvc huf
      have hu := usedOf_join hpf hl.free
      obtain ⟨hs,hsp''⟩ := hl'.shelve (by
        intro y hy ho
        simp only [Finset.mem_union,Finset.mem_sdiff,Finset.mem_singleton] at hy
        simp only [joined] at ho hy
        obtain ⟨hyb,_⟩ | rfl := hy
        · exact hnext y hyb (by omega)
        · dsimp only at ho
          omega) (by
        intro u hu ho
        simp only [Finset.mem_union,Finset.mem_sdiff,Finset.mem_insert,Finset.mem_singleton,
          not_or] at hu
        simp only [joined] at ho hu
        obtain ⟨hub,_,huc⟩ | rfl := hu
        · by_contra huu
          have := hl.merged u hub p hpb ho huc hpc (by simpa using huu)
          rw [hpu] at this
          cases this
        · dsimp only at ho
          omega) (by rw [hu]; simpa using hby) (by rw [hu]; simpa using hbl)
      rw [hu] at hsp''
      exact ⟨_,hs,hu,hsp.trans (hsp'.trans hsp'')⟩

theorem mergeNext_bytes (h : Heap) (b : Nat) : (mergeNext h b).usedBytes=h.usedBytes := by
  simp only [mergeNext]
  split_ifs <;> simp

theorem mergeNext_blocks (h : Heap) (b : Nat) : (mergeNext h b).usedBlocks=h.usedBlocks := by
  simp only [mergeNext]
  split_ifs <;> simp

/-- A loose block merges with what is free on either side and goes on its list. -/
theorem Loose.merge (hl : Loose h bs c) (hby : h.usedBytes=∑b∈usedOf bs,(b.size-8))
    (hbl : h.usedBlocks=(usedOf bs).card) :
    ∃bs',Sound (Uheap.mergePrev (Uheap.mergeNext h c.off) c.off) bs' ∧ usedOf bs'=usedOf bs ∧
      Spares h (Uheap.mergePrev (Uheap.mergeNext h c.off) c.off) (usedOf bs) := by
  obtain ⟨bs2,c2,hl2,ho2,hu2,hsp2,hnext2⟩ := hl.mergeNext
  obtain ⟨bs3,hs3,hu3,hsp3⟩ := hl2.mergePrev hnext2
    (by rw [mergeNext_bytes,hu2,hby]) (by rw [mergeNext_blocks,hu2,hbl])
  rw [ho2] at hs3 hsp3
  rw [hu2] at hu3 hsp3
  exact ⟨bs3,hs3,hu3,hsp2.trans hsp3⟩

end Merging

section Live

/-- The pointer to a block's payload. -/
def Blk.ptr (h : Heap) (b : Blk) : Nat := h.base+b.off+8

theorem Laid.owns (hl : Laid h bs) (hb : b∈bs) : owns h (b.ptr h)=true := by
  have hsb := hl.shaped b hb
  have := hsb.aligned
  have := hsb.least
  have := hl.fits hb
  rw [Uheap.owns,decide_eq_true_eq,Blk.ptr,hdr]
  omega

theorem ptr_off (h : Heap) (b : Blk) : b.ptr h-hdr-h.base=b.off := by
  simp only [Blk.ptr,hdr]
  omega

theorem Sound.release (hs : Sound h bs) (hb : b∈usedOf bs) :
    Loose (h.setSize b.off b.size) (bs\{b} ∪ {⟨b.off,b.size,false⟩}) ⟨b.off,b.size,false⟩ ∧
      usedOf (bs\{b} ∪ {⟨b.off,b.size,false⟩})=(usedOf bs).erase b ∧
      Spares h (h.setSize b.off b.size) ((usedOf bs).erase b) := by
  obtain ⟨hbb,hbu⟩ := mem_usedOf.mp hb
  have hbf : b∉freeOf bs := by
    intro hx
    have := (mem_freeOf.mp hx).2
    rw [hbu] at this
    cases this
  obtain ⟨hw,hsp⟩ := hs.shelved.mark hbb hbf false
  have hnew : (⟨b.off,b.size,false⟩ : Blk)∉freeOf bs := by
    intro hx
    have := congrArg Blk.used (hs.laid.off_inj (freeOf_subset bs hx) hbb rfl)
    rw [hbu] at this
    cases this
  have hfree : freeOf (bs\{b} ∪ {⟨b.off,b.size,false⟩})=insert ⟨b.off,b.size,false⟩ (freeOf bs) := by
    rw [freeOf_rewrite,freeOf_free,Finset.sdiff_singleton_eq_erase,Finset.erase_eq_of_notMem hbf,
      Finset.union_comm,Finset.insert_eq]
  have hused : usedOf (bs\{b} ∪ {⟨b.off,b.size,false⟩})=(usedOf bs).erase b := by
    rw [usedOf_rewrite,usedOf_free,Finset.union_empty,Finset.sdiff_singleton_eq_erase]
  refine ⟨⟨?_,?_,?_⟩,hused,?_⟩
  · rw [hfree,Finset.erase_insert hnew]
    exact hw
  · rw [hfree]
    exact Finset.mem_insert_self _ _
  · intro u hu v hv ho huc hvc huf
    simp only [Finset.mem_union,Finset.mem_sdiff,Finset.mem_singleton] at hu hv
    exact hs.merged u (hu.resolve_right huc).1 v (hv.resolve_right hvc).1 ho huf
  · rwa [Finset.sdiff_singleton_eq_erase] at hsp

/-- Freeing a live block leaves a well-formed heap with the others as they were. -/
theorem free_spec (hs : Sound h bs) (hb : b∈usedOf bs) :
    ∃bs',Sound (uheapFree h (b.ptr h)) bs' ∧ usedOf bs'=(usedOf bs).erase b ∧
      Spares h (uheapFree h (b.ptr h)) ((usedOf bs).erase b) := by
  obtain ⟨hbb,hbu⟩ := mem_usedOf.mp hb
  have hsize := hs.laid.bsize hbb
  obtain ⟨hl,hu,hsp⟩ := hs.release hb
  have hno : ¬(b.ptr h=0 ∨ (!owns h (b.ptr h))=true) := by
    rw [hs.laid.owns hbb]
    simp [Blk.ptr]
  have hused : ¬(!h.bused b.off)=true := by
    rw [hs.laid.bused hbb,hbu]
    decide
  have hrel : release h b.off={h.setSize b.off b.size with
      usedBytes := h.usedBytes-(b.size-8)
      usedBlocks := h.usedBlocks-1} := by
    rw [← hsize]
    rfl
  have hl' := hl.shelved.recount (h.usedBytes-(b.size-8)) (h.usedBlocks-1)
  have hsp' : Spares h (release h b.off) ((usedOf bs).erase b) := by
    rw [hrel]
    exact hsp
  rw [Heap.setSize] at hrel
  have he : uheapFree h (b.ptr h)=mergePrev (mergeNext (release h b.off) b.off) b.off := by
    rw [uheapFree,if_neg hno,ptr_off]
    exact if_neg hused
  have hcard : 0<(usedOf bs).card := Finset.card_pos.mpr ⟨b,hb⟩
  have hsum := Finset.sum_erase_add (usedOf bs) (fun b => b.size-8) hb
  have hby := hs.bytes
  have hbl := hs.blocks
  have hfree : Loose (release h b.off) (bs\{b} ∪ {⟨b.off,b.size,false⟩})
      ⟨b.off,b.size,false⟩ := by
    rw [hrel]
    exact ⟨hl',hl.free,hl.merged⟩
  obtain ⟨bs',hs',hu',hsp''⟩ := hfree.merge (by
    rw [hu,hrel]
    dsimp only
    omega) (by
    rw [hu,Finset.card_erase_of_mem hb,hrel]
    dsimp only
    omega)
  rw [hu] at hu' hsp''
  rw [he]
  exact ⟨bs',hs',hu',hsp'.trans hsp''⟩

end Live

end LugalOS.Uheap
