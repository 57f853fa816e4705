import LugalOS.Uheap.Fit
import LugalOS.Uheap.Freeing

namespace LugalOS.Uheap

open Doubly Tiling
open Function (update)

variable {h h' : Heap} {free bs old : Finset Blk} {b c : Blk} {a n want : Nat}

/-- What growing in place writes: the block's header, the start of what stays free, and the size
behind. -/
def Grown (free : Finset Blk) (a n want k : Nat) : Prop :=
  a≤k ∧ k<a+4 ∨ (a+want≤k ∧ k<a+want+16 ∧ k<a+n) ∨ a+n+4≤k ∧ k<a+n+8 ∨ ∃f∈free,f.Links k

section Growing

variable (hw : Shelved h bs free) (ho : old⊆bs) (hof : ∀b∈old,b∉free) (ha : a%8=0)
  (hn : n%8=0) (hto : Tiles Blk.Has (fun k => a≤k ∧ k<a+n) old)
include hw ho hof ha hn hto

theorem Shelved.fuse (h16 : 16≤n) :
    Shelved ((h.setSize a (n+1)).setPrev (a+n) n) (bs\old ∪ {⟨a,n,true⟩}) free ∧
      Edits h ((h.setSize a (n+1)).setPrev (a+n) n) (Grown free a n n) := by
  have hend : a+n+8≤h.size := by
    obtain ⟨c,hc,hck⟩ := hto.cover (a+n-1) ⟨by omega,by omega⟩
    have := hw.laid.fits (ho hc)
    have := hck.2
    omega
  have hsm := hw.laid.small
  have he : ∀W : Nat → Prop,(∀k,a≤k → k<a+4 → W k) → (∀k,a+n+4≤k → k<a+n+8 → W k) →
      Edits h ((h.setSize a (n+1)).setPrev (a+n) n) W := by
    intro W h0 h1
    refine Edits.trans (?_ : Edits h (h.setSize a (n+1)) _) ?_
    · exact (edits_setWord _ _ _).mono fun k hk => h0 k hk.1 hk.2
    · exact (edits_setWord _ _ _).mono fun k hk => h1 k hk.1 (by omega)
  refine ⟨?_,he _ (fun k h0 h1 => .inl ⟨h0,h1⟩) fun k h0 h1 => .inr (.inr (.inl ⟨h0,h1⟩))⟩
  refine (hw.rewrite ho hof ha hn (by omega) hto (Tiles.single fun _ => Iff.rfl) ?_ ?_
    (he _ (fun k h0 h1 => .inl ⟨h0,h1⟩) fun k h0 h1 => .inr (.inr ⟨h0,h1⟩)) rfl).1
  · intro x hx
    rw [Finset.mem_singleton.mp hx]
    exact Blk.shaped_mk ha hn h16
  · intro x hx
    rw [Finset.mem_singleton.mp hx]
    apply tagged_mk
    · refine (word_setWord_other (by omega)).trans (word_setWord ?_)
      omega
    · exact word_setWord (by omega)

/-- They become a block of size want in use and a free one that is put on its list. -/
theorem Shelved.carve (hwant : want%8=0) (h16 : 16≤want) (hfit : want+16≤n) :
    let t : Blk := ⟨a+want,n-want,false⟩
    let g := ((listInsert (putTail h t.off t.size want) t.off).setSize a (want+1)).setPrev
      (a+want) want
    Shelved g (bs\old ∪ {⟨a,want,true⟩,t}) (insert t free) ∧ Edits h g (Grown free a n want) := by
  intro t g
  have hend : a+n+8≤h.size := by
    obtain ⟨c,hc,hck⟩ := hto.cover (a+n-1) ⟨by omega,by omega⟩
    have := hw.laid.fits (ho hc)
    have := hck.2
    omega
  have hsm := hw.laid.small
  have hts : t.Shaped := Blk.shaped_mk (by omega) (by omega) (by omega)
  have hfo : ∀f∈free,f∈bs\old :=
    fun f hf => Finset.mem_sdiff.mpr ⟨hw.mem hf,fun hfo => hof f hfo hf⟩
  -- blocks elsewhere lie on one side of the stretch
  have hside : ∀f∈free,16≤f.size ∧ (f.off+f.size≤a ∨ a+n≤f.off) := by
    intro f hf
    have hfs := hw.laid.shaped f (hw.mem hf)
    have hleast := hfs.least
    have hin : ∀i,f.Has i → ¬(a≤ i ∧ i<a+n) := by
      intro i hi hr
      obtain ⟨c,hc,hck⟩ := hto.cover i hr
      exact hof c hc (hw.laid.same (ho hc) (hw.mem hf) hck hi ▸ hf)
    have := hin f.off hfs.has_off
    refine ⟨hleast,?_⟩
    by_contra hcon
    exact hin a ⟨by omega,by omega⟩ ⟨by omega,by omega⟩
  have htf : t∉free := by
    intro hx
    have := (hside t hx).2
    simp only [t] at this
    omega
  obtain ⟨htag,hprev,hput⟩ := putTail_spec h (a+want) (n-want) want
    (by omega) (by omega) (by omega) (by omega)
  have hfiled : Filed (putTail h t.off t.size want) free := by
    apply hw.filed.keep hput rfl
    intro f hf k hk hz
    have := hside f hf
    have := hk.1
    have := hk.2
    omega
  have hproper : Proper (insert t free) := by
    have hp := hw.proper
    constructor
    · intro x hx
      obtain rfl | hx := Finset.mem_insert.mp hx
      · exact hts.aligned
      · exact hp.aligned x hx
    · intro x hx
      obtain rfl | hx := Finset.mem_insert.mp hx
      · simp only [t]
        omega
      · exact hp.small x hx
    · intro x hx y hy hxy
      have hne : ∀f∈free,f.off≠t.off := by
        intro f hf he
        have := hside f hf
        simp only [t] at he
        omega
      obtain rfl | hx := Finset.mem_insert.mp hx
      · obtain rfl | hy := Finset.mem_insert.mp hy
        · rfl
        · exact absurd hxy.symm (hne y hy)
      · obtain rfl | hy := Finset.mem_insert.mp hy
        · exact absurd hxy (hne x hx)
        · exact hp.inj x hx y hy hxy
  have hbs : (putTail h t.off t.size want).bsize t.off=t.size := by
    have hh := htag.header
    simp only [Bool.toNat_false,Nat.add_zero] at hh
    rw [Heap.bsize,Heap.blkSize]
    simp only [t]
    omega
  obtain ⟨hfiled',hins⟩ := hfiled.insert hproper htf hbs
  have htag' := htag.keep hts hins (by
    intro f hf
    obtain rfl | hf := Finset.mem_insert.mp hf
    · exact ⟨hts.least,.inl rfl⟩
    · have := hside f hf
      refine ⟨this.1,.inr ?_⟩
      simp only
      omega)
  have hlinks : ∀k,(∃f∈insert t free,f.Links k) →
      a+want+8≤k ∧ k<a+want+16 ∨ ∃f∈free,f.Links k := by
    rintro k ⟨f,hf,hfk⟩
    obtain rfl | hf := Finset.mem_insert.mp hf
    · exact .inl hfk
    · exact .inr ⟨f,hf,hfk⟩
  have he : Edits h g (Grown free a n want) := by
    refine Edits.trans (?_ : Edits h (putTail h t.off t.size want) _) (Edits.trans
      (?_ : Edits _ (listInsert (putTail h t.off t.size want) t.off) _) (Edits.trans
      (?_ : Edits _ ((listInsert (putTail h t.off t.size want) t.off).setSize a (want+1)) _) ?_))
    · apply hput.mono
      intro k hk
      unfold Grown
      omega
    · apply hins.mono
      intro k hk
      obtain hk | hk := hlinks k hk
      · unfold Grown
        omega
      · exact .inr (.inr (.inr hk))
    · exact (edits_setWord _ _ _).mono fun k hk => .inl hk
    · apply (edits_setWord _ _ _).mono
      intro k hk
      unfold Grown
      omega
  refine ⟨⟨?_,?_,?_⟩,he⟩
  · have hpair := Blk.tiles_pair (b := ⟨a,want,true⟩) (c := t) rfl
    simp only [t] at hpair
    rw [show want+(n-want)=n by omega] at hpair
    apply hw.laid.rewrite ho ha hn (by omega) hto hpair
    · intro x hx
      obtain rfl | rfl := by simpa using hx
      · exact Blk.shaped_mk ha hwant h16
      · exact hts
    · intro x hx
      obtain rfl | rfl := by simpa using hx
      · apply tagged_mk
        · refine (word_setWord_other (by omega)).trans (word_setWord ?_)
          omega
        · exact word_setWord (by omega)
      · apply tagged_mk
        · refine (word_setWord_other (by omega)).trans ((word_setWord_other (by omega)).trans ?_)
          exact htag'.header
        · refine (word_setWord_other (by omega)).trans ((word_setWord_other (by omega)).trans ?_)
          exact htag'.behind
    · apply he.mono
      rintro k (hk | hk | hk | ⟨f,hf,hfk⟩)
      · exact .inl (.inl hk)
      · exact .inl (.inr (.inl ⟨by omega,by omega⟩))
      · exact .inl (.inr (.inr hk))
      · exact .inr ⟨f,hfo f hf,hfk.payload (hw.laid.shaped f (hw.mem hf))⟩
  · apply (hfiled'.keep (edits_setWord _ a (want+1)) rfl ?_).keep (edits_setWord _ _ want) rfl
    · intro f hf k hk hz
      have h1 := hk.1
      have h2 := hk.2
      obtain rfl | hf := Finset.mem_insert.mp hf
      · simp only [t] at h1
        omega
      · have := hside f hf
        omega
    · intro f hf k hk hz
      have h1 := hk.1
      have h2 := hk.2
      obtain rfl | hf := Finset.mem_insert.mp hf
      · simp only [t] at h1
        omega
      · have := hside f hf
        omega
  · intro f hf
    rw [freeOf_rewrite]
    obtain rfl | hf := Finset.mem_insert.mp hf
    · apply Finset.mem_union_right
      exact mem_freeOf.mpr ⟨by simp,rfl⟩
    · exact Finset.mem_union_left _
        (Finset.mem_sdiff.mpr ⟨hw.sub hf,(Finset.mem_sdiff.mp (hfo f hf)).2⟩)

end Growing

/-- The live block b has become c with room bytes, the header's included. Its contents are those of
b as far as those went, and the other live blocks are as they were. -/
structure Resized (h : Heap) (bs : Finset Blk) (b : Blk) (h' : Heap) (room : Nat)
    (bs' : Finset Blk) (c : Blk) : Prop where
  sound : Sound h' bs'
  room : room≤c.size
  used : usedOf bs'=insert c ((usedOf bs).erase b)
  fresh : c∉(usedOf bs).erase b
  spares : Spares h h' ((usedOf bs).erase b)
  kept : ∀i,i+8<b.size → i+8<c.size → h'.mem (c.off+8+i)=h.mem (b.off+8+i)

theorem endGrow_eq (h : Heap) (hn : n%8=0) (hlt : n+1<2^32) :
    endGrow h a n=raiseHighWater ((h.setSize a (n+1)).setPrev (a+n) n) := by
  have hor : orUsed n=n+1 := by
    rw [orUsed]
    omega
  have hnext : (h.setSize a (n+1)).nextBlk a=a+n := by
    rw [Heap.nextBlk,Heap.bsize,Heap.blkSize,Heap.setSize,word_setWord hlt]
    omega
  simp only [endGrow,hor,hnext]

section InPlace

variable {y : Blk}

theorem Spares.recountBytes {live : Finset Blk} (hs : Spares h h' live) (bytes : Nat) :
    Spares h {h' with usedBytes := bytes} live :=
  fun x hx k hk => hs x hx k hk

theorem Shelved.grown_spares (hw : Shelved h bs free) (hb : b∈usedOf bs) (hy : y∈freeOf bs)
    (hadj : b.off+b.size=y.off) (hwant : b.size<want) (hfit : want≤b.size+y.size)
    (he : Edits h h' (Grown free b.off (b.size+y.size) want)) : Spares h h' (usedOf bs) := by
  have hbb := usedOf_subset bs hb
  have hyb := freeOf_subset bs hy
  have hsb := hw.laid.shaped b hbb
  have hsy := hw.laid.shaped y hyb
  have := hsb.least
  have := hsb.rounded
  have := hsy.rounded
  have hold : ({b,y} : Finset Blk)⊆bs := by
    simp [Finset.insert_subset_iff,hbb,hyb]
  have hzone : Edits h h' fun k => Zone b.off (b.size+y.size) k ∨ ∃f∈freeOf bs,f.Links k := by
    apply he.mono
    rintro k (hk | hk | hk | ⟨f,hf,hfk⟩)
    · exact .inl (.inl hk)
    · exact .inl (.inr (.inl ⟨by omega,by omega⟩))
    · exact .inl (.inr (.inr hk))
    · exact .inr ⟨f,hw.sub hf,hfk⟩
  intro x hx k hk
  by_cases hxb : x=b
  · rw [hxb] at hk
    apply he.mem
    have h1 := hk.1
    have h2 := hk.2
    rintro (hg | hg | hg | ⟨f,hf,hfk⟩)
    · omega
    · omega
    · omega
    · have hfs := hw.laid.shaped f (hw.mem hf)
      have hfb := hw.laid.same (hw.mem hf) hbb (hfk.payload hfs).has hk.has
      have := (mem_freeOf.mp (hw.sub hf)).2
      rw [hfb,(mem_usedOf.mp hb).2] at this
      cases this
  · apply hw.laid.spares hold (Blk.tiles_pair hadj) hsb.aligned (by omega) (by omega) hzone x _ k hk
    · have hxu := (mem_usedOf.mp hx).2
      refine Finset.mem_sdiff.mpr ⟨hx,?_⟩
      simp only [Finset.mem_insert,Finset.mem_singleton]
      rintro (he | he)
      · exact hxb he
      · rw [he,(mem_freeOf.mp hy).2] at hxu
        cases hxu

theorem freeOf_grown (hb : b∈usedOf bs) (new : Finset Blk) :
    freeOf (bs\{b,y} ∪ new)=freeOf new ∪ (freeOf bs).erase y := by
  rw [freeOf_rewrite,Finset.union_comm]
  congr 1
  ext x
  simp only [Finset.mem_sdiff,Finset.mem_erase,Finset.mem_insert,Finset.mem_singleton,mem_freeOf]
  constructor
  · rintro ⟨hx,hn⟩
    exact ⟨fun he => hn (.inr he),hx⟩
  · rintro ⟨hn,hx⟩
    refine ⟨hx,?_⟩
    rintro (rfl | he)
    · rw [(mem_usedOf.mp hb).2] at hx
      cases hx.2
    · exact hn he

theorem usedOf_grown (hy : y∈freeOf bs) {new : Finset Blk} (hc : usedOf new={c}) :
    usedOf (bs\{b,y} ∪ new)=insert c ((usedOf bs).erase b) := by
  rw [usedOf_rewrite,hc,Finset.union_comm,← Finset.insert_eq]
  congr 1
  ext x
  simp only [Finset.mem_sdiff,Finset.mem_erase,Finset.mem_insert,Finset.mem_singleton,mem_usedOf]
  constructor
  · rintro ⟨hx,hn⟩
    exact ⟨fun he => hn (.inl he),hx⟩
  · rintro ⟨hn,hx⟩
    refine ⟨hx,?_⟩
    rintro (he | rfl)
    · exact hn he
    · rw [(mem_freeOf.mp hy).2] at hx
      cases hx.2

theorem counts_resized (hs : Sound h bs) (hb : b∈usedOf bs) {bs' : Finset Blk}
    (hu : usedOf bs'=insert c ((usedOf bs).erase b)) (hc : c∉(usedOf bs).erase b)
    (hle : b.size≤c.size) : h.usedBytes+(c.size-b.size)=∑x∈usedOf bs',(x.size-8) ∧
      h.usedBlocks=(usedOf bs').card := by
  have hsum := Finset.sum_erase_add (usedOf bs) (fun x => x.size-8) hb
  have hleast := (hs.laid.shaped b (usedOf_subset bs hb)).least
  have hcard : 0<(usedOf bs).card := Finset.card_pos.mpr ⟨b,hb⟩
  constructor
  · rw [hu,Finset.sum_insert hc,hs.bytes]
    omega
  · rw [hu,Finset.card_insert_of_notMem hc,Finset.card_erase_of_mem hb,hs.blocks]
    omega

theorem Shelved.raised (hw : Shelved h bs free) : Shelved (raiseHighWater h) bs free :=
  hw.same (raiseHighWater_edits h) (raiseHighWater_rest h).1

theorem Spares.raised {live : Finset Blk} (hs : Spares h h' live) :
    Spares h (raiseHighWater h') live :=
  fun x hx k hk => ((raiseHighWater_edits h').mem k not_false).trans (hs x hx k hk)

theorem grown_fresh (hs : Sound h bs) (hb : b∈usedOf bs) {s : Nat} (hne : b.size≠s) :
    (⟨b.off,s,true⟩ : Blk)∉(usedOf bs).erase b := by
  intro hx
  have hxb := hs.laid.off_inj (usedOf_subset bs (Finset.mem_of_mem_erase hx))
    (usedOf_subset bs hb) rfl
  exact hne (congrArg Blk.size hxb).symm

theorem setTags_recount (h : Heap) (a v c w bytes : Nat) :
    ({h with usedBytes := bytes}.setSize a v).setPrev c w=
      {(h.setSize a v).setPrev c w with usedBytes := bytes} := rfl

section Finish

variable {g : Heap} (hs : Sound h bs) (hb : b∈usedOf bs) (hy : y∈freeOf bs)
  (hadj : b.off+b.size=y.off) (hw : Shelved g bs ((freeOf bs).erase y))
  (hsp : Spares h g (usedOf bs)) (hby : g.usedBytes=h.usedBytes+y.size)
  (hbl : g.usedBlocks=h.usedBlocks)
include hs hb hy hadj hw

theorem grow_stretch : b.off%8=0 ∧ (b.size+y.size)%8=0 ∧ 16≤b.size ∧ 16≤y.size ∧
    b.size+y.size+8<2^32 ∧ ({b,y} : Finset Blk)⊆bs ∧
      ∀x∈({b,y} : Finset Blk),x∉(freeOf bs).erase y := by
  have hbb := usedOf_subset bs hb
  have hyb := freeOf_subset bs hy
  have hsb := hs.laid.shaped b hbb
  have hsy := hs.laid.shaped y hyb
  have hb8 := hsb.rounded
  have hy8 := hsy.rounded
  have hfy := hs.laid.fits hyb
  have hsm := hs.laid.small
  refine ⟨hsb.aligned,by omega,hsb.least,hsy.least,by omega,?_,?_⟩
  · simp [Finset.insert_subset_iff,hbb,hyb]
  · intro x hx hxf
    obtain rfl | rfl := by simpa using hx
    · have := (mem_freeOf.mp (Finset.mem_of_mem_erase hxf)).2
      rw [(mem_usedOf.mp hb).2] at this
      cases this
    · exact Finset.notMem_erase _ _ hxf

theorem carved_tail (hwant : want%8=0) (hlt : b.size<want) (hfit : want+16≤b.size+y.size) :
    (listInsert (putTail g (b.off+want) (b.size+y.size-want) want) (b.off+want)).blkSize
      (b.off+want)=b.size+y.size-want := by
  obtain ⟨ha,hn,hb16,hy16,hlt',hold,hlist⟩ := grow_stretch hs hb hy hadj hw
  obtain ⟨hw2,_⟩ := hw.carve hold hlist ha hn (Blk.tiles_pair hadj) hwant (by omega) hfit
  have hmem : (⟨b.off+want,b.size+y.size-want,false⟩ : Blk)∈bs\{b,y} ∪
      {⟨b.off,want,true⟩,⟨b.off+want,b.size+y.size-want,false⟩} := by simp
  have hh := (hw2.laid.tagged _ hmem).header
  refine Eq.trans ?_ hh
  exact ((word_setWord_other (by omega)).trans (word_setWord_other (by omega))).symm

include hsp hby hbl

theorem fused_spec (hwant : want≤b.size+y.size) :
    ∃bs' c,Resized h bs b (endGrow g b.off (b.size+y.size)) want bs' c ∧ c.off=b.off := by
  obtain ⟨ha,hn,hb16,hy16,hlt,hold,hlist⟩ := grow_stretch hs hb hy hadj hw
  set n := b.size+y.size with hn'
  obtain ⟨hw2,he2⟩ := hw.fuse hold hlist ha hn (Blk.tiles_pair hadj) (by omega)
  have hsp2 := hw.grown_spares hb hy hadj (by omega) (Nat.le_refl _) he2
  have hused := usedOf_grown (b := b) (c := ⟨b.off,n,true⟩) hy (usedOf_used b.off n)
  have hfree := freeOf_grown (y := y) hb {⟨b.off,n,true⟩}
  rw [freeOf_used,Finset.empty_union] at hfree
  have hfresh := grown_fresh hs hb (s := n) (by omega)
  obtain ⟨hcb,hcl⟩ := counts_resized hs hb hused hfresh (by simp only; omega)
  rw [endGrow_eq g hn (by omega)]
  have hw3 := hw2.raised
  obtain ⟨_,hrb,hrl⟩ := raiseHighWater_rest ((g.setSize b.off (n+1)).setPrev (b.off+n) n)
  have hall := (hsp.trans hsp2).raised
  refine ⟨_,⟨b.off,n,true⟩,⟨⟨hw3.laid,?_,?_,?_,?_⟩,hwant,hused,hfresh,
    hall.mono (Finset.erase_subset _ _),?_⟩,rfl⟩
  · rw [hfree]
    exact hw3.filed
  · intro u hu v hv ho huf
    simp only [Finset.mem_union,Finset.mem_sdiff,Finset.mem_singleton] at hu hv
    obtain hu | rfl := hu
    · obtain hv | rfl := hv
      · exact hs.merged u hu.1 v hv.1 ho huf
      · rfl
    · cases huf
  · rw [← hcb,hrb]
    simp only [Heap.setPrev_bytes,Heap.setSize_bytes]
    omega
  · rw [← hcl,hrl]
    exact hbl
  · intro i hi _
    exact hall b hb (b.off+8+i) ⟨by omega,by omega⟩

theorem carved_spec (hwant : want%8=0) (hlt : b.size<want)
    (hfit : want+16≤b.size+y.size) :
    ∃bs' c,Resized h bs b (endGrow
        {listInsert (putTail g (b.off+want) (b.size+y.size-want) want) (b.off+want) with
          usedBytes := g.usedBytes-(b.size+y.size-want)} b.off want) want bs' c ∧ c.off=b.off := by
  obtain ⟨ha,hn,hb16,hy16,hlt',hold,hlist⟩ := grow_stretch hs hb hy hadj hw
  set n := b.size+y.size with hn'
  obtain ⟨hw2,he2⟩ := hw.carve hold hlist ha hn (Blk.tiles_pair hadj) hwant (by omega) hfit
  dsimp only at hw2 he2
  set t : Blk := ⟨b.off+want,n-want,false⟩ with ht
  have hsp2 := hw.grown_spares hb hy hadj hlt (by omega) he2
  have hnew : usedOf {⟨b.off,want,true⟩,t}={⟨b.off,want,true⟩} := by
    rw [Finset.insert_eq,ht]
    ext x
    simp only [mem_usedOf,Finset.mem_union,Finset.mem_singleton]
    constructor
    · rintro ⟨hx | rfl,hu⟩
      · exact hx
      · cases hu
    · rintro rfl
      exact ⟨.inl rfl,rfl⟩
  have hnew' : freeOf {⟨b.off,want,true⟩,t}={t} := by
    rw [Finset.insert_eq,ht]
    ext x
    simp only [mem_freeOf,Finset.mem_union,Finset.mem_singleton]
    constructor
    · rintro ⟨rfl | hx,hu⟩
      · cases hu
      · exact hx
    · rintro rfl
      exact ⟨.inr rfl,rfl⟩
  have hused := usedOf_grown (b := b) (c := ⟨b.off,want,true⟩) hy hnew
  have hfree := freeOf_grown (y := y) hb {⟨b.off,want,true⟩,t}
  rw [hnew',← Finset.insert_eq] at hfree
  have hfresh := grown_fresh hs hb (s := want) (by omega)
  obtain ⟨hcb,hcl⟩ := counts_resized hs hb hused hfresh (by simp only; omega)
  rw [endGrow_eq _ hwant (by omega),setTags_recount]
  have hw3 := (hw2.recountBytes (g.usedBytes-(n-want))).raised
  have hall := ((hsp.trans hsp2).recountBytes (g.usedBytes-(n-want))).raised
  have hside : ∀x∈bs,x∉({b,y} : Finset Blk) → x.off+x.size≤b.off ∨ b.off+n≤x.off := by
    intro x hx hxn
    simp only [Finset.mem_insert,Finset.mem_singleton,not_or] at hxn
    have := hs.laid.apart hx (usedOf_subset bs hb) hxn.1
    have := hs.laid.apart hx (freeOf_subset bs hy) hxn.2
    have := (hs.laid.shaped x hx).least
    omega
  refine ⟨_,⟨b.off,want,true⟩,⟨⟨hw3.laid,?_,?_,?_,?_⟩,Nat.le_refl _,hused,hfresh,
    hall.mono (Finset.erase_subset _ _),?_⟩,rfl⟩
  · rw [hfree]
    exact hw3.filed
  · intro u hu v hv ho huf
    simp only [Finset.mem_union,Finset.mem_sdiff] at hu hv
    obtain hu | hu := hu
    · obtain hv | hv := hv
      · exact hs.merged u hu.1 v hv.1 ho huf
      · have := hside u hu.1 hu.2
        obtain rfl | rfl := by simpa using hv
        · rfl
        · simp only [ht] at ho
          omega
    · obtain rfl | rfl := by simpa using hu
      · cases huf
      · obtain hv | hv := hv
        · apply hs.merged y (freeOf_subset bs hy) v hv.1 _ (mem_freeOf.mp hy).2
          simp only [ht] at ho
          omega
        · obtain rfl | rfl := by simpa using hv
          · rfl
          · simp only [ht] at ho
            omega
  · rw [← hcb,(raiseHighWater_rest _).2.1]
    dsimp only
    omega
  · rw [← hcl,(raiseHighWater_rest _).2.2]
    simp only [Heap.setPrev_blocks,Heap.setSize_blocks,listInsert_blocks,putTail_blocks]
    exact hbl
  · intro i hi _
    exact hall b hb (b.off+8+i) ⟨by omega,by omega⟩

theorem growInto_spec (hwant : want%8=0) (hlt : b.size<want) (hfit : want≤b.size+y.size) :
    ∃bs' c,Resized h bs b (growInto g b.off (b.size+y.size) want) want bs' c ∧ c.off=b.off := by
  have hn8 := (grow_stretch hs hb hy hadj hw).2.1
  unfold growInto minBlock
  split_ifs with hsplit
  · dsimp only
    rw [carved_tail hs hb hy hadj hw hwant hlt (by omega),listInsert_bytes,putTail_bytes]
    exact carved_spec hs hb hy hadj hw hsp hby hbl hwant hlt (by omega)
  · exact fused_spec hs hb hy hadj hw hsp hby hbl hfit

omit hby in
theorem growInto_recount (bytes : Nat) (hbytes : bytes=h.usedBytes+y.size) (hwant : want%8=0)
    (hlt : b.size<want) (hfit : want≤b.size+y.size) :
    ∃bs' c,Resized h bs b (growInto {g with usedBytes := bytes} b.off (b.size+y.size) want) want
      bs' c ∧ c.off=b.off :=
  growInto_spec hs hb hy hadj (hw.recountBytes bytes) (hsp.recountBytes bytes) hbytes hbl hwant hlt
    hfit

end Finish

theorem grow_spec (hs : Sound h bs) (hb : b∈usedOf bs) (hy : y∈freeOf bs)
    (hadj : b.off+b.size=y.off) (hwant : want%8=0) (hlt : b.size<want)
    (hfit : want≤b.size+y.size) : ∃bs' c,Resized h bs b (grow h b.off y.off want) want bs' c ∧
      c.off=b.off := by
  obtain ⟨hw0,hsp0⟩ := hs.shelved.unlist hy
  have hsb := hw0.laid.bsize (usedOf_subset bs hb)
  have hsy := hw0.laid.bsize (freeOf_subset bs hy)
  have hadd : b.size+y.size-b.size=y.size := Nat.add_sub_cancel_left ..
  simp only [grow,hsb,hsy,hadd]
  exact growInto_recount hs hb hy hadj hw0 hsp0 (listRemove_blocks h y.off) _
    (by rw [listRemove_bytes]) hwant hlt hfit

end InPlace

section Moving

variable {mem : Nat → UInt8} {dst src i : Nat}

theorem copyBytes_outside (hi : i<dst ∨ dst+n≤ i) : copyBytes mem dst src n i=mem i := by
  induction n with
  | zero => rfl
  | succ n ih =>
    rw [copyBytes,Function.update_of_ne (by omega)]
    exact ih (by omega)

theorem copyBytes_inside (hd : dst+n≤ src ∨ src+n≤dst) (hi : i<n) :
    copyBytes mem dst src n (dst+i)=mem (src+i) := by
  induction n with
  | zero => omega
  | succ n ih =>
    rw [copyBytes]
    by_cases he : i=n
    · rw [he,Function.update_self,copyBytes_outside (by omega)]
    · rw [Function.update_of_ne (by omega)]
      exact ih (by omega) (by omega)

theorem Sound.write (hs : Sound h bs) (hc : c∈usedOf bs) (mem : Nat → UInt8)
    (hm : ∀k,¬c.Payload k → mem k=h.mem k) : Sound {h with mem := mem} bs := by
  obtain ⟨hcb,hcu⟩ := mem_usedOf.mp hc
  have he : Edits h {h with mem := mem} c.Payload := ⟨rfl,rfl,hm⟩
  refine ⟨?_,?_,hs.merged,hs.bytes,hs.blocks⟩
  · exact hs.laid.payload (he.mono fun k hk => ⟨c,hcb,hk⟩)
  · apply hs.filed.keep he rfl
    intro f hf k hk hck
    obtain ⟨hfb,hfu⟩ := mem_freeOf.mp hf
    have hfc := hs.laid.same hfb hcb (hk.payload (hs.laid.shaped f hfb)).has hck.has
    rw [hfc,hcu] at hfu
    cases hfu

theorem move_spec (hb : b∈usedOf bs) {room : Nat} {bs1 : Finset Blk}
    (hg : Granted h bs h' c.off room bs1 c) (hle : b.size≤c.size) :
    ∃bs',Resized h bs b (uheapFree
      {h' with mem := copyBytes h'.mem (c.off+8) (b.off+8) (b.size-8)} (b.ptr h)) room bs' c := by
  have hcu : c∈usedOf bs1 := by
    rw [hg.used]
    exact Finset.mem_insert_self _ _
  have hbu : b∈usedOf bs1 := by
    rw [hg.used]
    exact Finset.mem_insert_of_mem hb
  have hbc : b≠c := fun he => hg.fresh (he ▸ hb)
  have hapart := hg.sound.laid.apart (usedOf_subset _ hbu) (usedOf_subset _ hcu) hbc
  have hleast := (hg.sound.laid.shaped b (usedOf_subset _ hbu)).least
  set g : Heap := {h' with mem := copyBytes h'.mem (c.off+8) (b.off+8) (b.size-8)} with hgd
  have hsg : Sound g bs1 := by
    apply hg.sound.write hcu
    intro k hk
    apply copyBytes_outside
    by_contra hcon
    exact hk ⟨by omega,by omega⟩
  obtain ⟨bs',hs',hu',hsp'⟩ := free_spec hsg hbu
  have hptr : b.ptr g=b.ptr h := congrArg (·+b.off+8) hg.base
  rw [hptr] at hs' hsp'
  have herase : (usedOf bs1).erase b=insert c ((usedOf bs).erase b) := by
    rw [hg.used,Finset.erase_insert_of_ne hbc.symm]
  rw [herase] at hu' hsp'
  have hfresh : c∉(usedOf bs).erase b := fun hx => hg.fresh (Finset.mem_of_mem_erase hx)
  refine ⟨bs',hs',hg.room,hu',hfresh,?_,?_⟩
  · intro x hx k hk
    have hxu := Finset.mem_of_mem_erase hx
    have hxc : x≠c := fun he => hfresh (he ▸ hx)
    have hx1 : x∈usedOf bs1 := by
      rw [hg.used]
      exact Finset.mem_insert_of_mem hxu
    have := hg.sound.laid.apart (usedOf_subset _ hx1) (usedOf_subset _ hcu) hxc
    have h1 := hk.1
    have h2 := hk.2
    rw [hsp' x (Finset.mem_insert_of_mem hx) k hk,← hg.spares x hxu k hk]
    exact copyBytes_outside (by omega)
  · intro i hi hic
    rw [hsp' c (Finset.mem_insert_self _ _) _ ⟨by omega,by omega⟩,
      ← hg.spares b hb (b.off+8+i) ⟨by omega,by omega⟩]
    exact copyBytes_inside (by omega) (by omega)

end Moving

/-- What realloc promises of the live block b: a block with room for n bytes and b's contents as far
as they fit, or NULL and b as it was; the other live blocks are left alone. -/
def ReallocMeets (h : Heap) (bs : Finset Blk) (b : Blk) (n : Nat) : Prop :=
  ((uheapRealloc h (b.ptr h) n).2≠0 → ∃bs' c,
    Resized h bs b (uheapRealloc h (b.ptr h) n).1 (n+8) bs' c ∧
      (uheapRealloc h (b.ptr h) n).2=c.ptr h) ∧
  ((uheapRealloc h (b.ptr h) n).2=0 → Sound (uheapRealloc h (b.ptr h) n).1 bs ∧
    Spares h (uheapRealloc h (b.ptr h) n).1 (usedOf bs))

section Realloc

theorem ptr_ne_zero (h : Heap) (b : Blk) : b.ptr h≠0 := by
  rw [Blk.ptr]
  omega

variable (hs : Sound h bs) (hb : b∈usedOf bs) (hn0 : 0<n)
include hs hb

theorem Resized.refl (hle : want≤b.size) : Resized h bs b h want bs b where
  sound := hs
  room := hle
  used := (Finset.insert_erase hb).symm
  fresh := Finset.notMem_erase _ _
  spares _ _ _ _ := rfl
  kept _ _ _ := rfl

include hn0

theorem realloc_eq : uheapRealloc h (b.ptr h) n=
    if need n≤b.size then (h,b.ptr h)
    else if h.bused (b.off+b.size)=false ∧ need n≤b.size+h.bsize (b.off+b.size) then
      (grow h b.off (b.off+b.size) (need n),b.ptr h)
    else moveBlock h (b.ptr h) n (b.size-hdr) := by
  obtain ⟨hbb,hbu⟩ := mem_usedOf.mp hb
  have hused : ¬(!h.bused b.off)=true := by
    rw [hs.laid.bused hbb,hbu]
    decide
  have howns : ¬(!owns h (b.ptr h))=true := by
    rw [hs.laid.owns hbb]
    decide
  rw [uheapRealloc,if_neg (ptr_ne_zero h b),if_neg (by omega),if_neg howns]
  simp only [ptr_off]
  rw [if_neg hused]
  simp only [hs.laid.bsize hbb,hs.laid.nextBlk hbb]

theorem realloc_short (hn : n<2^32) (hw : 2^32≤n+15) : ¬ReallocMeets h bs b n := by
  have hleast := (hs.laid.shaped b (usedOf_subset bs hb)).least
  rw [ReallocMeets,realloc_eq hs hb hn0,need_wraps hn hw,if_pos hleast]
  rintro ⟨hsome,_⟩
  obtain ⟨bs',c,hr,_⟩ := hsome (ptr_ne_zero h b)
  have hcb : c∈bs' := by
    apply usedOf_subset
    rw [hr.used]
    exact Finset.mem_insert_self _ _
  have := hr.sound.laid.fits hcb
  have := hr.sound.laid.small
  have := hr.room
  omega

/-- uheap_realloc does what it promises unless the size rounded up wraps in 32 bits. -/
theorem realloc_meets_iff (hn : n<2^32) : ReallocMeets h bs b n ↔ n+15<2^32 := by
  have hbb := usedOf_subset bs hb
  have hleast := (hs.laid.shaped b hbb).least
  constructor
  · intro hm
    by_contra hw
    exact realloc_short hs hb hn0 hn (by omega) hm
  · intro hw
    obtain ⟨hle,hround,h16,_,_⟩ := need_spec hw
    rw [ReallocMeets,realloc_eq hs hb hn0]
    split_ifs with hkeep hgrow
    · refine ⟨fun _ => ⟨bs,b,.refl hs hb (hle.trans hkeep),rfl⟩,?_⟩
      exact fun hq => absurd hq (ptr_ne_zero h b)
    · obtain ⟨hfree,hfit⟩ := hgrow
      obtain ⟨y,hy,hyo,hyu⟩ := hs.laid.next_free hbb (by rwa [hs.laid.nextBlk hbb])
      rw [← hyo,hs.laid.bsize hy] at hfit
      obtain ⟨bs',c,hr,hco⟩ := grow_spec hs hb (mem_freeOf.mpr ⟨hy,hyu⟩) hyo.symm hround
        (by omega) hfit
      rw [← hyo]
      refine ⟨fun _ => ⟨bs',c,{hr with room := hle.trans hr.room},?_⟩,?_⟩
      · rw [Blk.ptr,Blk.ptr,hco]
      · exact fun hq => absurd hq (ptr_ne_zero h b)
    · rw [moveBlock]
      split
      next h' halloc =>
        have hnull := alloc_null (h := h) (n := n) (by rw [halloc])
        rw [halloc] at hnull
        refine ⟨fun hq => absurd rfl hq,fun _ => ?_⟩
        obtain rfl | rfl := hnull
        · exact ⟨hs,fun _ _ _ _ => rfl⟩
        · exact ⟨fail_sound hs,fun _ _ _ _ => rfl⟩
      next h' q hq halloc =>
        have hq0 : q≠0 := hq
        obtain ⟨bs1,c,hg,hqc⟩ := alloc_granted hs hn (by rw [halloc]; exact hq0)
        rw [halloc] at hg hqc
        dsimp only at hg hqc
        have hbase := hg.base
        have hroom := hg.room
        obtain ⟨bs',hr⟩ := move_spec hb hg (by omega)
        have hdst : q-h'.base=c.off+8 := by omega
        have hsrc : b.ptr h-h'.base=b.off+8 := by
          rw [hbase,Blk.ptr]
          omega
        rw [hdst,hsrc,hdr]
        exact ⟨fun _ => ⟨bs',c,{hr with room := hle.trans hr.room},hqc⟩,fun hq' => absurd hq' hq0⟩

end Realloc

theorem sample_heap {size : Nat} (hle : 64≤ size) (hlt : size<2^32) :
    ∃h bs b,uheapInit 4096 size (fun _ => 0)=some h ∧ Sound (uheapAlloc h 8).1 bs ∧
      b∈usedOf bs ∧ (uheapAlloc h 8).2=b.ptr (uheapAlloc h 8).1 := by
  obtain ⟨h,hi⟩ : ∃h,uheapInit 4096 size (fun _ => 0)=some h := by
    rw [uheapInit,if_neg (by omega)]
    exact ⟨_,rfl⟩
  have hs := init_sound hi hlt
  have hsz := (init_fields hi).2.1
  have hne : need 8=16 := by
    obtain ⟨_,hround,_,_,hlt⟩ := need_spec (n := 8) (by omega)
    have := hlt (by omega)
    omega
  obtain ⟨bs,c,hg,hc⟩ := alloc_granted (n := 8) hs (by omega) (by
    rw [alloc_iff hs (by omega) (by omega),hne]
    refine ⟨by omega,wholeArena h,?_,?_⟩
    · simp [freeOf,wholeArena]
    · simp only [wholeArena]
      omega)
  refine ⟨h,bs,c,hi,hg.sound,?_,?_⟩
  · rw [hg.used]
    exact Finset.mem_insert_self _ _
  · rw [hc,Blk.ptr,hg.base]

/-- The heap after a further block of 8 bytes, which stands behind the first. -/
def twoBlocks (h : Heap) : Heap := (uheapAlloc (uheapAlloc h 8).1 8).1

theorem realloc_meets_iff_moved : ∃h bs b,uheapInit 4096 1024 (fun _ => 0)=some h ∧
    b.ptr (twoBlocks h)=4104 ∧ (uheapRealloc (twoBlocks h) 4104 100).2=4136 ∧
    ReallocMeets (twoBlocks h) bs b 100 := by
  obtain ⟨h,bs,b,hi,hs,hb,hp⟩ := sample_heap (show 64≤1024 by omega) (by omega)
  have hrun : (uheapInit 4096 1024 (fun _ => 0)).map (fun h => ((uheapAlloc h 8).2,
      (uheapAlloc (uheapAlloc h 8).1 8).2,(uheapRealloc (twoBlocks h) 4104 100).2))=
      some (4104,4120,4136) := by decide +kernel
  rw [hi] at hrun
  simp only [Option.map_some,Option.some.injEq,Prod.mk.injEq] at hrun
  obtain ⟨h1,h2,h3⟩ := hrun
  obtain ⟨bs',c,hg,_⟩ := alloc_granted (n := 8) hs (by omega) (by omega)
  have hb' : b∈usedOf bs' := by
    rw [hg.used]
    exact Finset.mem_insert_of_mem hb
  refine ⟨h,bs',b,hi,?_,h3,(realloc_meets_iff hg.sound hb' (by omega) (by omega)).mpr (by omega)⟩
  rw [Blk.ptr,twoBlocks,hg.base,← Blk.ptr,← hp,h1]

/-- Growing a block of 8 bytes to 2^32-1 answers the same block. -/
theorem realloc_wraps : ∃h bs b,uheapInit 4096 64 (fun _ => 0)=some h ∧
    Sound (uheapAlloc h 8).1 bs ∧ b∈usedOf bs ∧
      ¬ReallocMeets (uheapAlloc h 8).1 bs b (2^32-1) := by
  obtain ⟨h,bs,b,hi,hs,hb,_⟩ := sample_heap (Nat.le_refl 64) (by omega)
  exact ⟨h,bs,b,hi,hs,hb,realloc_short hs hb (by omega) (by omega) (by omega)⟩

end LugalOS.Uheap
