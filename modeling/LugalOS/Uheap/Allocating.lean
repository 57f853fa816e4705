import LugalOS.Uheap.FreeLists

namespace LugalOS.Uheap

open Doubly Tiling
open Function (update)

variable {h h' : Heap} {free bs old new : Finset Blk} {b c t : Blk} {a n want : Nat}

/-- The blocks are laid out, and those of free are on their lists. -/
structure Shelved (h : Heap) (bs free : Finset Blk) : Prop where
  laid : Laid h bs
  filed : Filed h free
  sub : free⊆freeOf bs

theorem Sound.shelved (hs : Sound h bs) : Shelved h bs (freeOf bs) :=
  ⟨hs.laid,hs.filed,fun _ hb => hb⟩

theorem Laid.links_zone (hl : Laid h bs) (ho : old⊆bs)
    (hto : Tiles Blk.Has (fun k => a≤k ∧ k<a+n) old) (ha : a%8=0) (hn : n%8=0) (hn0 : 0<n)
    (hb : b∈bs\old) {k : Nat} (hk : b.Links k) : ¬Zone a n k := by
  intro hz
  obtain ⟨hbb,hbo⟩ := Finset.mem_sdiff.mp hb
  have hsb := hl.shaped b hbb
  have h0 := hsb.aligned
  have h1 := hk.1
  have h2 := hk.2
  have hin : ∀i,b.Has i → ¬(a≤ i ∧ i<a+n) := by
    intro i hi hr
    obtain ⟨c,hc,hck⟩ := hto.cover i hr
    exact hbo (hl.same (ho hc) hbb hck hi ▸ hc)
  have := hin k (hk.payload hsb).has
  have := hin b.off hsb.has_off
  have := hin (k-8) ⟨by omega,by have := (hk.payload hsb).2; omega⟩
  unfold Zone at hz
  omega

namespace Shelved

variable (hw : Shelved h bs free)
include hw

theorem mem (hb : b∈free) : b∈bs := freeOf_subset bs (hw.sub hb)

theorem proper : Proper free := hw.laid.proper fun _ hb => hw.mem hb

theorem links (he : Edits h h' fun k => ∃f∈freeOf bs,f.Links k) :
    Laid h' bs ∧ Spares h h' (usedOf bs) := by
  constructor
  · apply hw.laid.payload (he.mono _)
    rintro k ⟨f,hf,hfk⟩
    have hfb := freeOf_subset bs hf
    exact ⟨f,hfb,hfk.payload (hw.laid.shaped f hfb)⟩
  · intro x hx k hk
    apply he.mem
    rintro ⟨f,hf,hfk⟩
    obtain ⟨hfb,hff⟩ := mem_freeOf.mp hf
    obtain ⟨hxb,hxu⟩ := mem_usedOf.mp hx
    have hfx := hw.laid.same hfb hxb (hfk.payload (hw.laid.shaped f hfb)).has hk.has
    rw [hfx,hxu] at hff
    cases hff

theorem unlist (hb : b∈free) : Shelved (listRemove h b.off) bs (free.erase b) ∧
    Spares h (listRemove h b.off) (usedOf bs) := by
  obtain ⟨hf,he⟩ := hw.filed.remove hw.proper hb (hw.laid.bsize (hw.mem hb))
  obtain ⟨hl,hsp⟩ := hw.links (he.mono fun k ⟨f,hf,hfk⟩ => ⟨f,hw.sub hf,hfk⟩)
  exact ⟨⟨hl,hf,fun _ hx => hw.sub (Finset.mem_of_mem_erase hx)⟩,hsp⟩

theorem enlist (hb : b∈freeOf bs) (hbf : b∉free) :
    Shelved (listInsert h b.off) bs (insert b free) ∧
      Spares h (listInsert h b.off) (usedOf bs) := by
  have hsub : insert b free⊆freeOf bs := Finset.insert_subset hb hw.sub
  have hp := hw.laid.proper fun x hx => freeOf_subset bs (hsub hx)
  obtain ⟨hf,he⟩ := hw.filed.insert hp hbf (hw.laid.bsize (freeOf_subset bs hb))
  obtain ⟨hl,hsp⟩ := hw.links (he.mono fun k ⟨f,hf,hfk⟩ => ⟨f,hsub hf,hfk⟩)
  exact ⟨⟨hl,hf,hsub⟩,hsp⟩

theorem rewrite (ho : old⊆bs) (hof : ∀b∈old,b∉free) (ha : a%8=0) (hn : n%8=0) (hn0 : 0<n)
    (hto : Tiles Blk.Has (fun k => a≤k ∧ k<a+n) old)
    (htn : Tiles Blk.Has (fun k => a≤k ∧ k<a+n) new)
    (hs : ∀b∈new,b.Shaped) (ht : ∀b∈new,Tagged h' b) (he : Edits h h' (Zone a n))
    (hh : h'.freeHead=h.freeHead) :
    Shelved h' (bs\old ∪ new) free ∧ Spares h h' (usedOf bs\old) := by
  have hout : ∀f∈free,f∈bs\old :=
    fun f hf => Finset.mem_sdiff.mpr ⟨hw.mem hf,fun hfo => hof f hfo hf⟩
  refine ⟨⟨?_,?_,?_⟩,?_⟩
  · exact hw.laid.rewrite ho ha hn hn0 hto htn hs ht (he.mono fun k hk => .inl hk)
  · apply hw.filed.keep he hh
    intro f hf k hk
    exact hw.laid.links_zone ho hto ha hn hn0 (hout f hf) hk
  · rw [freeOf_rewrite]
    intro f hf
    exact Finset.mem_union_left _
      (Finset.mem_sdiff.mpr ⟨hw.sub hf,(Finset.mem_sdiff.mp (hout f hf)).2⟩)
  · exact hw.laid.spares ho hto ha hn hn0 (he.mono fun k hk => .inl hk)

end Shelved

section Steps

theorem Blk.shaped_mk {o s : Nat} {u : Bool} (ho : o%8=0) (hs : s%8=0) (h16 : 16≤ s) :
    Blk.Shaped ⟨o,s,u⟩ :=
  ⟨ho,hs,h16⟩

theorem tagged_mk {o s : Nat} {u : Bool} (hh : h.word o=s+u.toNat) (hb : h.word (o+s+4)=s) :
    Tagged h ⟨o,s,u⟩ :=
  ⟨hh,hb⟩

theorem Blk.tiles_self (b : Blk) : Tiles Blk.Has (fun k => b.off≤k ∧ k<b.off+b.size) {b} :=
  Tiles.single fun _ => Iff.rfl

theorem Blk.tiles_mark (b : Blk) (u : Bool) :
    Tiles Blk.Has (fun k => b.off≤k ∧ k<b.off+b.size) {⟨b.off,b.size,u⟩} :=
  Tiles.single fun _ => Iff.rfl

theorem Blk.tiles_pair {b c : Blk} (h : b.off+b.size=c.off) :
    Tiles Blk.Has (fun k => b.off≤k ∧ k<b.off+(b.size+c.size)) {b,c} := by
  apply Tiles.pair
  · intro k
    simp only [Blk.Has]
    omega
  · intro k h0 h1
    have := h0.2
    have := h1.1
    omega

theorem Shelved.same (hw : Shelved h bs free) (he : Edits h h' fun _ => False)
    (hh : h'.freeHead=h.freeHead) : Shelved h' bs free :=
  ⟨hw.laid.payload (he.mono fun _ hf => hf.elim),hw.filed.keep he hh fun _ _ _ _ hf => hf,hw.sub⟩

theorem Shelved.recount (hw : Shelved h bs free) (bytes blocks : Nat) :
    Shelved {h with usedBytes := bytes, usedBlocks := blocks} bs free :=
  hw.same ⟨rfl,rfl,fun _ _ => rfl⟩ rfl

theorem Shelved.recountBytes (hw : Shelved h bs free) (bytes : Nat) :
    Shelved {h with usedBytes := bytes} bs free :=
  hw.same ⟨rfl,rfl,fun _ _ => rfl⟩ rfl

theorem Shelved.mark (hw : Shelved h bs free) (hb : b∈bs) (hbf : b∉free) (u : Bool) :
    Shelved (h.setSize b.off (b.size+u.toNat)) (bs\{b} ∪ {⟨b.off,b.size,u⟩}) free ∧
      Spares h (h.setSize b.off (b.size+u.toNat)) (usedOf bs\{b}) := by
  have hsb := hw.laid.shaped b hb
  have hleast := hsb.least
  have hlt := hw.laid.fits hb
  have hsm := hw.laid.small
  have hu : u.toNat≤1 := Bool.toNat_le u
  have hpos : 0<b.size := by omega
  apply hw.rewrite (Finset.singleton_subset_iff.mpr hb) _ hsb.aligned hsb.rounded hpos
    b.tiles_self (b.tiles_mark u)
  · intro x hx
    rw [Finset.mem_singleton.mp hx]
    exact ⟨hsb.aligned,hsb.rounded,hsb.least⟩
  · intro x hx
    rw [Finset.mem_singleton.mp hx]
    apply tagged_mk
    · exact word_setWord (by omega)
    · refine Eq.trans ?_ (hw.laid.tagged b hb).behind
      exact word_setWord_other (by omega)
  · apply (edits_setWord _ _ _).mono
    intro k hk
    exact .inl hk
  · rfl
  · intro x hx
    rwa [Finset.mem_singleton.mp hx]

section Tail

theorem putTail_spec (h : Heap) (p rest want : Nat) (hr : rest%8=0) (h16 : 16≤rest) (hlt : rest<2^32) (hwl : want<2^32) :
    Tagged (putTail h p rest want) ⟨p,rest,false⟩ ∧ (putTail h p rest want).word (p+4)=want ∧
      Edits h (putTail h p rest want) fun k =>
        p≤k ∧ k<p+8 ∨ p+rest+4≤k ∧ k<p+rest+8 := by
  have hsize : ((h.setSize p rest).setPrev p want).blkSize p=rest := by
    refine (word_setWord_other ?_).trans (word_setWord hlt)
    omega
  have hnext : ((h.setSize p rest).setPrev p want).nextBlk p=p+rest := by
    rw [Heap.nextBlk,Heap.bsize,hsize]
    omega
  have he : putTail h p rest want=
      ((h.setWord p rest).setWord (p+4) want).setWord (p+rest+4) rest := by
    simp only [putTail,hsize,hnext]
    rfl
  rw [he]
  refine ⟨tagged_mk ?_ ?_,?_,?_⟩
  · rw [word_setWord_other (by omega),word_setWord_other (by omega),word_setWord hlt]
    rfl
  · exact word_setWord hlt
  · rw [word_setWord_other (by omega),word_setWord hwl]
  · refine Edits.trans (?_ : Edits h ((h.setWord p rest).setWord (p+4) want) _) ?_
    · refine Edits.trans (?_ : Edits h (h.setWord p rest) _) ?_
      · exact (edits_setWord _ _ _).mono fun k hk => by omega
      · exact (edits_setWord _ _ _).mono fun k hk => by omega
    · exact (edits_setWord _ _ _).mono fun k hk => by omega

theorem Shelved.cut (hw : Shelved h bs free) (hb : b∈freeOf bs) (hbf : b∉free)
    (hwant : want%8=0) (h16 : 16≤want) (hfit : want+16≤b.size) :
    Shelved ((putTail h (b.off+want) (b.size-want) want).setSize b.off want)
        (bs\{b} ∪ {⟨b.off,want,false⟩,⟨b.off+want,b.size-want,false⟩}) free ∧
      Spares h ((putTail h (b.off+want) (b.size-want) want).setSize b.off want) (usedOf bs) := by
  have hbb := freeOf_subset bs hb
  have hsb := hw.laid.shaped b hbb
  have h0 := hsb.aligned
  have h1 := hsb.rounded
  have hlt := hw.laid.fits hbb
  have hsm := hw.laid.small
  obtain ⟨htag,hprev,hed⟩ := putTail_spec h (b.off+want) (b.size-want) want
    (by omega) (by omega) (by omega) (by omega)
  have hpos : 0<b.size := by omega
  have hpair := Blk.tiles_pair (b := ⟨b.off,want,false⟩)
    (c := ⟨b.off+want,b.size-want,false⟩) rfl
  dsimp only at hpair
  rw [show want+(b.size-want)=b.size by omega] at hpair
  have hnew : ∀x∈({⟨b.off,want,false⟩,⟨b.off+want,b.size-want,false⟩} : Finset Blk),
      x.Shaped ∧ Tagged ((putTail h (b.off+want) (b.size-want) want).setSize b.off want) x := by
    intro x hx
    obtain rfl | rfl := by simpa using hx
    · refine ⟨Blk.shaped_mk h0 hwant h16,tagged_mk ?_ ?_⟩
      · exact word_setWord (by omega)
      · refine Eq.trans ?_ hprev
        exact word_setWord_other (by omega)
    · refine ⟨Blk.shaped_mk (by omega) (by omega) (by omega),tagged_mk ?_ ?_⟩
      · refine Eq.trans ?_ htag.header
        exact word_setWord_other (by omega)
      · refine Eq.trans ?_ htag.behind
        exact word_setWord_other (by omega)
  have hedits : Edits h ((putTail h (b.off+want) (b.size-want) want).setSize b.off want)
      (Zone b.off b.size) := by
    refine Edits.trans (?_ : Edits h (putTail h (b.off+want) (b.size-want) want) _) ?_
    · apply hed.mono
      intro k hk
      unfold Zone
      omega
    · apply (edits_setWord _ _ _).mono
      intro k hk
      exact .inl hk
  obtain ⟨hsh,hsp⟩ := hw.rewrite (Finset.singleton_subset_iff.mpr hbb) (by simpa using hbf)
    hsb.aligned hsb.rounded hpos b.tiles_self hpair (fun x hx => (hnew x hx).1)
    (fun x hx => (hnew x hx).2) hedits rfl
  refine ⟨hsh,hsp.mono ?_⟩
  intro x hx
  refine Finset.mem_sdiff.mpr ⟨hx,?_⟩
  intro hxb
  rw [Finset.mem_singleton.mp hxb] at hx
  have := (mem_usedOf.mp hx).2
  rw [(mem_freeOf.mp hb).2] at this
  cases this

end Tail

end Steps

/-- The block c is free and on no list. -/
structure Loose (h : Heap) (bs : Finset Blk) (c : Blk) : Prop where
  shelved : Shelved h bs ((freeOf bs).erase c)
  free : c∈freeOf bs
  merged : ∀x∈bs,∀y∈bs,x.off+x.size=y.off → x≠c → y≠c → x.used=false → y.used=true

section Loose

theorem Sound.unlist (hs : Sound h bs) (hb : b∈freeOf bs) : Loose (listRemove h b.off) bs b ∧
    Spares h (listRemove h b.off) (usedOf bs) := by
  obtain ⟨hw,hsp⟩ := hs.shelved.unlist hb
  exact ⟨⟨hw,hb,fun x hx y hy ho _ _ hf => hs.merged x hx y hy ho hf⟩,hsp⟩

theorem Loose.mem (hl : Loose h bs c) : c∈bs := freeOf_subset bs hl.free

theorem Loose.off_inj (hl : Loose h bs c) {x : Blk} (hx : x∈bs) (ho : x.off=c.off) : x=c :=
  hl.shelved.laid.off_inj hx hl.mem ho

theorem Loose.not_inside (hl : Loose h bs c) {x : Blk} (hx : x∈bs) (hne : x≠c) :
    x.off+x.size≤c.off ∨ c.off+c.size≤x.off :=
  hl.shelved.laid.apart hx hl.mem hne

theorem Loose.split (hl : Loose h bs c) (hwant : want%8=0) (h16 : 16≤want)
    (hfit : want+16≤c.size) (hnext : ∀y∈bs,c.off+c.size=y.off → y.used=true) :
    ∃bs',Loose (listInsert ((putTail h (c.off+want) (c.size-want) want).setSize c.off want)
        (c.off+want)) bs' ⟨c.off,want,false⟩ ∧ usedOf bs'=usedOf bs ∧
      Spares h (listInsert ((putTail h (c.off+want) (c.size-want) want).setSize c.off want)
        (c.off+want)) (usedOf bs) := by
  obtain ⟨hcut,hsp⟩ := hl.shelved.cut hl.free (Finset.notMem_erase _ _) hwant h16 hfit
  set c1 : Blk := ⟨c.off,want,false⟩ with hc1
  set t : Blk := ⟨c.off+want,c.size-want,false⟩ with ht
  set bs' := bs\{c} ∪ {c1,t} with hbs'
  have hc1b : c1∈bs → c1=c := fun hx => hl.off_inj hx rfl
  have htb : t∉bs := by
    intro hx
    have hne : t≠c := fun he => by
      have := congrArg Blk.off he
      simp only [ht] at this
      omega
    have := hl.not_inside hx hne
    simp only [ht] at this
    omega
  have htc : t≠c1 := fun he => by
    have := congrArg Blk.off he
    simp only [ht,hc1] at this
    omega
  have hmem : ∀x,x∈bs' ↔ x∈bs ∧ x≠c ∨ x=c1 ∨ x=t := by
    intro x
    simp only [hbs',Finset.mem_union,Finset.mem_sdiff,Finset.mem_singleton,Finset.mem_insert]
  have htf : t∈freeOf bs' := mem_freeOf.mpr ⟨(hmem t).mpr (.inr (.inr rfl)),rfl⟩
  obtain ⟨hput,hsp'⟩ := hcut.enlist htf fun hx => htb (freeOf_subset bs (Finset.mem_of_mem_erase hx))
  have hused : usedOf bs'=usedOf bs := by
    ext x
    have hcu := (mem_freeOf.mp hl.free).2
    simp only [mem_usedOf,hmem]
    constructor
    · rintro ⟨⟨hx,_⟩ | rfl | rfl,hu⟩
      · exact ⟨hx,hu⟩
      · cases hu
      · cases hu
    · rintro ⟨hx,hu⟩
      refine ⟨.inl ⟨hx,?_⟩,hu⟩
      rintro rfl
      rw [hcu] at hu
      cases hu
  have hfree : insert t ((freeOf bs).erase c)=(freeOf bs').erase c1 := by
    ext x
    simp only [Finset.mem_insert,Finset.mem_erase,mem_freeOf,hmem]
    constructor
    · rintro (rfl | ⟨hne,hx,hu⟩)
      · exact ⟨htc,.inr (.inr rfl),rfl⟩
      · refine ⟨?_,.inl ⟨hx,hne⟩,hu⟩
        rintro rfl
        exact hne (hc1b hx)
    · rintro ⟨hne,⟨hx,hxc⟩ | rfl | rfl,hu⟩
      · exact .inr ⟨hxc,hx,hu⟩
      · exact absurd rfl hne
      · exact .inl rfl
  rw [hfree] at hput
  refine ⟨bs',⟨hput,mem_freeOf.mpr ⟨(hmem c1).mpr (.inr (.inl rfl)),rfl⟩,?_⟩,hused,?_⟩
  · intro x hx y hy ho hxc hyc hu
    obtain ⟨hxb,hxn⟩ | rfl | rfl := (hmem x).mp hx
    · obtain ⟨hyb,hyn⟩ | rfl | rfl := (hmem y).mp hy
      · exact hl.merged x hxb y hyb ho hxn hyn hu
      · exact absurd rfl hyc
      · have := hl.not_inside hxb hxn
        simp only [ht] at ho
        omega
    · exact absurd rfl hxc
    · obtain ⟨hyb,hyn⟩ | rfl | rfl := (hmem y).mp hy
      · apply hnext y hyb
        simp only [ht] at ho
        omega
      · exact absurd rfl hyc
      · simp only [ht] at ho
        omega
  · rw [hused] at hsp'
    exact hsp.trans hsp'

theorem Loose.use (hl : Loose h bs c) :
    ∃bs',Shelved (h.setSize c.off (c.size+1)) bs' (freeOf bs') ∧ Merged bs' ∧
      usedOf bs'=insert ⟨c.off,c.size,true⟩ (usedOf bs) ∧ (⟨c.off,c.size,true⟩ : Blk)∉bs ∧
      Spares h (h.setSize c.off (c.size+1)) (usedOf bs) := by
  obtain ⟨hw,hsp⟩ := hl.shelved.mark hl.mem (Finset.notMem_erase _ _) true
  have hcu := (mem_freeOf.mp hl.free).2
  have hnew : (⟨c.off,c.size,true⟩ : Blk)∉bs := by
    intro hx
    have := congrArg Blk.used (hl.off_inj hx rfl)
    rw [hcu] at this
    cases this
  have hcn : c∉usedOf bs := by
    intro hx
    have := (mem_usedOf.mp hx).2
    rw [hcu] at this
    cases this
  have hfree : freeOf (bs\{c} ∪ {⟨c.off,c.size,true⟩})=(freeOf bs).erase c := by
    rw [freeOf_rewrite,Finset.sdiff_singleton_eq_erase,freeOf_used,Finset.union_empty]
  have hused : usedOf (bs\{c} ∪ {⟨c.off,c.size,true⟩})=insert ⟨c.off,c.size,true⟩ (usedOf bs) := by
    rw [usedOf_rewrite,Finset.sdiff_singleton_eq_erase,Finset.erase_eq_of_notMem hcn,usedOf_used,
      Finset.union_comm,Finset.insert_eq]
  refine ⟨_,?_,?_,hused,hnew,?_⟩
  · rw [hfree]
    exact hw
  · intro x hx y hy ho hu
    simp only [Finset.mem_union,Finset.mem_sdiff,Finset.mem_singleton] at hx hy
    obtain ⟨hxb,hxn⟩ | rfl := hx
    · obtain ⟨hyb,hyn⟩ | rfl := hy
      · exact hl.merged x hxb y hyb ho hxn hyn hu
      · rfl
    · cases hu
  · rwa [Finset.sdiff_singleton_eq_erase,Finset.erase_eq_of_notMem hcn] at hsp

end Loose

section Sizes

theorem u32_eq (hn : n<2^32) : u32 n=n := Nat.mod_eq_of_lt hn

theorem need_eq {m : Nat} (hu : u32 (n+15)=m) :
    need n=if m/8*8<16 then 16 else m/8*8 := by
  subst hu
  rfl

theorem need_spec (hn : n+15<2^32) :
    n+8≤need n ∧ need n%8=0 ∧ 16≤need n ∧ need n<2^32 ∧ (0<n → need n<n+16) := by
  rw [need_eq (u32_eq hn)]
  split_ifs <;> omega

theorem need_wraps (hn : n<2^32) (hw : 2^32≤n+15) : need n=16 := by
  have hu : u32 (n+15)=n+15-2^32 := by
    rw [u32]
    omega
  rw [need_eq hu]
  split_ifs <;> omega

end Sizes

/-- A block at off with room bytes, the header's included, is in use that was not, and those that
were are as they were. -/
structure Granted (h : Heap) (bs : Finset Blk) (h' : Heap) (off room : Nat) (bs' : Finset Blk)
    (c : Blk) : Prop where
  sound : Sound h' bs'
  base : h'.base=h.base
  off : c.off=off
  room : room≤c.size
  used : usedOf bs'=insert c (usedOf bs)
  fresh : c∉usedOf bs
  spares : Spares h h' (usedOf bs)

section Granting

theorem raiseHighWater_edits (h : Heap) : Edits h (raiseHighWater h) fun _ => False := by
  unfold raiseHighWater
  split_ifs
  · exact ⟨rfl,rfl,fun _ _ => rfl⟩
  · exact .refl h _

theorem raiseHighWater_rest (h : Heap) : (raiseHighWater h).freeHead=h.freeHead ∧
    (raiseHighWater h).usedBytes=h.usedBytes ∧ (raiseHighWater h).usedBlocks=h.usedBlocks := by
  unfold raiseHighWater
  split_ifs
  · exact ⟨rfl,rfl,rfl⟩
  · exact ⟨rfl,rfl,rfl⟩

theorem handOut_spec (hl : Loose h bs c) (hby : h.usedBytes=∑b∈usedOf bs,(b.size-8))
    (hbl : h.usedBlocks=(usedOf bs).card) :
    ∃bs',Granted h bs (handOut h c.off) c.off c.size bs' ⟨c.off,c.size,true⟩ := by
  have hlaid := hl.shelved.laid
  have hcu := (mem_freeOf.mp hl.free).2
  have hround := (hlaid.shaped c hl.mem).rounded
  have hh := (hlaid.tagged c hl.mem).header
  rw [hcu,Bool.toNat_false,Nat.add_zero] at hh
  have hor : orUsed (h.blkSize c.off)=c.size+1 := by
    rw [Heap.blkSize,hh,orUsed]
    omega
  obtain ⟨bs',hw,hm,hu,hnew,hsp⟩ := hl.use
  have hcb : (⟨c.off,c.size,true⟩ : Blk)∈bs' := by
    apply usedOf_subset
    rw [hu]
    exact Finset.mem_insert_self _ _
  have hbsize : (h.setSize c.off (c.size+1)).bsize c.off=c.size :=
    hw.laid.bsize (b := ⟨c.off,c.size,true⟩) hcb
  have hfresh : (⟨c.off,c.size,true⟩ : Blk)∉usedOf bs := fun hx => hnew (usedOf_subset bs hx)
  set g : Heap := {h.setSize c.off (c.size+1) with
    usedBytes := h.usedBytes+(c.size-8)
    usedBlocks := h.usedBlocks+1} with hg
  have he : handOut h c.off=raiseHighWater g := by
    simp only [handOut,hor,hbsize]
    rfl
  have hge : Edits (h.setSize c.off (c.size+1)) g fun _ => False := ⟨rfl,rfl,fun _ _ => rfl⟩
  obtain ⟨hrh,hrb,hrn⟩ := raiseHighWater_rest g
  have hall := hge.trans (raiseHighWater_edits g)
  rw [he]
  obtain ⟨hw1,hw2,_⟩ := hw.same hall hrh
  refine ⟨bs',⟨hw1,hw2,hm,?_,?_⟩,hall.base,rfl,Nat.le_refl _,hu,hfresh,?_⟩
  · rw [hrb,hu,Finset.sum_insert hfresh,← hby,Nat.add_comm]
  · rw [hrn,hu,Finset.card_insert_of_notMem hfresh,← hbl]
  · intro x hx k hk
    exact (hall.mem k not_false).trans (hsp x hx k hk)

theorem take_spec (hs : Sound h bs) (hb : b∈freeOf bs) (hwant : want%8=0) (h16 : 16≤want)
    (hfit : want≤b.size) : ∃bs' c,Granted h bs (take h b.off want) b.off want bs' c := by
  obtain ⟨hl,hsp⟩ := hs.unlist hb
  have hsize := hl.shelved.laid.bsize hl.mem
  have hbu := (mem_freeOf.mp hb).2
  simp only [take,hsize,minBlock]
  split_ifs with hsplit
  · obtain ⟨bs',hl',hu,hsp'⟩ := hl.split hwant h16 (by omega)
      fun y hy ho => hs.merged b hl.mem y hy ho hbu
    obtain ⟨bs'',hg⟩ := handOut_spec hl' (by simpa [hu] using hs.bytes)
      (by simpa [hu] using hs.blocks)
    refine ⟨bs'',_,hg.sound,?_,hg.off,hg.room,hu ▸ hg.used,hu ▸ hg.fresh,?_⟩
    · simpa using hg.base
    · exact (hsp.trans hsp').trans (hu ▸ hg.spares)
  · obtain ⟨bs'',hg⟩ := handOut_spec hl (by simpa using hs.bytes) (by simpa using hs.blocks)
    refine ⟨bs'',_,hg.sound,?_,hg.off,hfit,hg.used,hg.fresh,?_⟩
    · simpa using hg.base
    · exact hsp.trans hg.spares

end Granting

end LugalOS.Uheap
