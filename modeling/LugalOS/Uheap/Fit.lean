import LugalOS.Uheap.Allocating

namespace LugalOS.Uheap

open Doubly Tiling
open Function (update)

variable {h h' : Heap} {bs : Finset Blk} {b c : Blk} {arena n size : Nat} {mem : Nat → UInt8}

section Init

def wholeArena (h : Heap) : Blk := ⟨0,h.size-8,false⟩

theorem init_fields (hi : uheapInit arena size mem=some h) :
    h.base=arena ∧ h.size=size/8*8 ∧ 64≤ size := by
  unfold uheapInit at hi
  split_ifs at hi with hno
  push Not at hno
  rw [← Option.some.inj hi]
  exact ⟨listInsert_base _ _,listInsert_size _ _,hno.2.2⟩

theorem init_sound (hi : uheapInit arena size mem=some h) (hsz : size<2^32) :
    Sound h {wholeArena h} := by
  unfold uheapInit at hi
  split_ifs at hi with hno
  push Not at hno
  have hlarge := hno.2.2
  set g0 : Heap := ⟨arena,size/8*8,fun _ => 0,0,0,0,0,mem⟩ with hg0
  set first := size/8*8-8 with hf
  set g : Heap := (((g0.setSize 0 first).setPrev 0 0).setSize first 1).setPrev first first with hg
  have hlt : first<2^32 := by omega
  set b : Blk := ⟨0,first,false⟩ with hb
  have hh : h=listInsert g b.off := (Option.some.inj hi).symm
  have hshaped : b.Shaped := Blk.shaped_mk (by omega) (by omega) (by omega)
  have htag : Tagged g b := by
    apply tagged_mk
    · rw [hg]
      exact (word_setWord_other (by omega)).trans ((word_setWord_other (by omega)).trans
        ((word_setWord_other (by omega)).trans (word_setWord hlt)))
    · rw [Nat.zero_add]
      exact word_setWord hlt
  have hsize : first+8=g.size := by
    change first+8=size/8*8
    omega
  have hlaid : Laid g {b} := by
    refine ⟨?_,?_,?_,?_,?_,?_,?_,?_⟩
    · apply Tiles.single
      intro k
      simp only [Blk.Has,hb]
      omega
    · simpa using hshaped
    · simpa using htag
    · exact (word_setWord_other (by omega)).trans ((word_setWord_other (by omega)).trans
        (word_setWord (by omega)))
    · rw [← hsize,Nat.add_sub_cancel]
      exact (word_setWord_other (by omega)).trans (word_setWord (by omega))
    · omega
    · omega
    · omega
  have hfiled : Filed g ∅ := by
    refine ⟨fun _ => [],fun _ _ => rfl,fun _ => List.nodup_nil,?_⟩
    simp
  have hw : Shelved g {b} ∅ := ⟨hlaid,hfiled,Finset.empty_subset _⟩
  obtain ⟨⟨hl,hfl,_⟩,_⟩ := hw.enlist (b := b) (by simp [hb]) (Finset.notMem_empty _)
  rw [← hh] at hl hfl
  have hwhole : wholeArena h=b := by
    have := hl.fits (Finset.mem_singleton_self b)
    rw [wholeArena,hb,hh,listInsert_size]
    congr 1
  rw [hwhole]
  refine ⟨hl,?_,?_,?_,?_⟩
  · simpa [hb] using hfl
  · intro x hx y hy ho
    rw [Finset.mem_singleton.mp hx,Finset.mem_singleton.mp hy] at ho
    simp only [hb] at ho
    omega
  · rw [hh]
    simp [hb,hg,hg0]
  · rw [hh]
    simp [hb,hg,hg0]

end Init

theorem fail_sound (hs : Sound h bs) : Sound (fail h) bs := by
  have he : Edits h (fail h) fun _ => False := ⟨rfl,rfl,fun _ _ => rfl⟩
  obtain ⟨hl,hf,_⟩ := hs.shelved.same he rfl
  exact ⟨hl,hf,hs.merged,hs.bytes,hs.blocks⟩

theorem need_bounds (hn : n<2^32) : need n%8=0 ∧ 16≤need n ∧ need n<2^32 := by
  by_cases hw : n+15<2^32
  · obtain ⟨_,h1,h2,h3,_⟩ := need_spec hw
    exact ⟨h1,h2,h3⟩
  · rw [need_wraps hn (by omega)]
    omega

theorem alloc_null (hq : (uheapAlloc h n).2=0) :
    (uheapAlloc h n).1=h ∨ (uheapAlloc h n).1=fail h := by
  revert hq
  rw [uheapAlloc]
  split
  · intro _
    split_ifs
    · exact .inr rfl
    · exact .inl rfl
  · split
    · exact fun _ => .inr rfl
    · intro hq
      simp [hdr] at hq

theorem alloc_granted (hs : Sound h bs) (hn : n<2^32) (hq : (uheapAlloc h n).2≠0) :
    ∃bs' c,Granted h bs (uheapAlloc h n).1 c.off (need n) bs' c ∧
      (uheapAlloc h n).2=h.base+c.off+8 := by
  revert hq
  rw [uheapAlloc]
  split
  · intro hq
    exact absurd rfl hq
  · split
    next => exact fun hq => absurd rfl hq
    next b hfit =>
      intro _
      obtain ⟨hn8,hn16,hn32⟩ := need_bounds hn
      obtain ⟨lists,hi⟩ := hs.filed
      obtain ⟨b,hb,rfl,hle⟩ := findFit_some hs.laid hi (by omega) hn32 hfit
      obtain ⟨bs',c,hg⟩ := take_spec hs hb hn8 hn16 hle
      have ho := hg.off
      refine ⟨bs',c,?_,?_⟩
      · rw [ho]
        exact hg
      · rw [ho]
        rfl

theorem alloc_iff (hs : Sound h bs) (hn0 : 0<n) (hn : n<2^32) :
    (uheapAlloc h n).2≠0 ↔ n≤h.size ∧ ∃b∈freeOf bs,need n≤b.size := by
  obtain ⟨hn8,hn16,hn32⟩ := need_bounds hn
  obtain ⟨lists,hi⟩ := hs.filed
  rw [uheapAlloc]
  split
  next hno =>
    simp only [ne_eq,not_true_eq_false,false_iff]
    omega
  next hno =>
    split
    next hnone =>
      simp only [ne_eq,not_true_eq_false,false_iff,not_and]
      rintro _ ⟨b,hb,hle⟩
      have := findFit_none hs.laid hi (by omega) hn32 hnone hb
      omega
    next x hfit =>
      obtain ⟨b,hb,_,hle⟩ := findFit_some hs.laid hi (by omega) hn32 hfit
      refine ⟨fun _ => ⟨by omega,b,hb,hle⟩,fun _ => ?_⟩
      simp [hdr]

section Largest

variable {lists : Nat → List Nat}

theorem largest_fold (hl : Laid h bs) (hi : Lists h lists (freeOf bs)) (cs : List Nat)
    (hcs : ∀c∈cs,c<classes) (best : Nat) :
    let r := cs.foldl (fun best c => largestIn h h.size (h.freeHead c) best) best
    best≤r ∧ (∀c∈cs,∀x∈lists c,h.bsize x≤r) ∧
      (r=best ∨ ∃c∈cs,∃x∈lists c,r=h.bsize x) := by
  induction cs generalizing best with
  | nil => simp
  | cons c cs ih =>
    obtain ⟨h1,h2,h3⟩ := largestIn_spec (hi.chain c (hcs c List.mem_cons_self))
      (hi.length_le hl c) (fun y hy => hi.within hl hy) best
    obtain ⟨i1,i2,i3⟩ := ih (fun d hd => hcs d (List.mem_cons_of_mem _ hd))
      (largestIn h h.size (h.freeHead c) best)
    dsimp only [List.foldl_cons]
    refine ⟨h1.trans i1,?_,?_⟩
    · intro d hd x hx
      obtain rfl | hd := List.mem_cons.mp hd
      · exact (h2 x hx).trans i1
      · exact i2 d hd x hx
    · obtain he | ⟨d,hd,x,hx,he⟩ := i3
      · obtain he' | ⟨x,hx,he'⟩ := h3
        · exact .inl (he.trans he')
        · exact .inr ⟨c,List.mem_cons_self,x,hx,he.trans he'⟩
      · exact .inr ⟨d,List.mem_cons_of_mem _ hd,x,hx,he⟩

theorem largestFree_eq (h : Heap) : uheapLargestFree h=
    (List.range classes).foldl (fun best c => largestIn h h.size (h.freeHead c) best) 0-8 := by
  simp only [uheapLargestFree]
  generalize (List.range classes).foldl _ 0=r
  change (if 8<r then r-8 else 0)=r-8
  split_ifs <;> omega

theorem largest_iff (hs : Sound h bs) (hn0 : 0<n) :
    n≤uheapLargestFree h ↔ ∃b∈freeOf bs,n+8≤b.size := by
  obtain ⟨lists,hi⟩ := hs.filed
  have hfold := largest_fold hs.laid hi (List.range classes) (fun c hc => List.mem_range.mp hc) 0
  rw [largestFree_eq]
  set r := (List.range classes).foldl
    (fun best c => largestIn h h.size (h.freeHead c) best) 0 with hr
  obtain ⟨_,hall,hsome⟩ := hfold
  constructor
  · intro hn
    obtain h0 | ⟨c,_,x,hx,he⟩ := hsome
    · omega
    · obtain ⟨b,hb,_,_,hsz⟩ := hi.size_of hs.laid hx
      exact ⟨b,hb,by omega⟩
  · rintro ⟨b,hb,hle⟩
    have hbb := freeOf_subset bs hb
    have hleast := (hs.laid.shaped b hbb).least
    have hc := (cls_spec (n := b.size) (by omega) (hs.laid.size_lt hbb)).1
    have := hall _ (List.mem_range.mpr hc) b.off (hi.own hb)
    rw [hs.laid.bsize hbb] at this
    omega

end Largest

/-- uheap_alloc succeeds just when n is no more than uheap_largest_free says, and then hands out a
block with room for n bytes. -/
def FitsExactly (h : Heap) (bs : Finset Blk) (n : Nat) : Prop :=
  ((uheapAlloc h n).2≠0 ↔ n≤uheapLargestFree h) ∧
    ((uheapAlloc h n).2≠0 → ∃bs' c,Granted h bs (uheapAlloc h n).1 c.off (n+8) bs' c ∧
      (uheapAlloc h n).2=h.base+c.off+8)

theorem free_empty_iff (hs : Sound h bs) : (∀c<classes,h.freeHead c=0) ↔ freeOf bs=∅ := by
  obtain ⟨lists,hi⟩ := hs.filed
  rw [Finset.eq_empty_iff_forall_notMem]
  constructor
  · intro h0 b hb
    have hbb := freeOf_subset bs hb
    have hleast := (hs.laid.shaped b hbb).least
    have hc := (cls_spec (n := b.size) (by omega) (hs.laid.size_lt hbb)).1
    have hown := hi.own hb
    rw [(hi.chain _ hc).head_iff.mp (h0 _ hc)] at hown
    cases hown
  · intro hno c hc
    rw [(hi.chain c hc).head_iff,List.eq_nil_iff_forall_not_mem]
    intro x hx
    obtain ⟨b,hb,_⟩ := (hi.mem c x).mp hx
    exact hno b hb

/-- The search is exact unless the rounding of the request wraps in 32 bits, which takes an arena as
large as the request and a free block in it. -/
theorem fits_exactly_iff (hs : Sound h bs) (hn0 : 0<n) (hn : n<2^32) :
    FitsExactly h bs n ↔ n+15<2^32 ∨ h.size<n ∨ ∀c<classes,h.freeHead c=0 := by
  have halloc := alloc_iff hs hn0 hn
  have hlarge := largest_iff hs hn0
  have hfits : ∀b∈freeOf bs,16≤b.size ∧ b.size+8≤h.size ∧ b.size%8=0 := by
    intro b hb
    have hbb := freeOf_subset bs hb
    have := hs.laid.fits hbb
    exact ⟨(hs.laid.shaped b hbb).least,by omega,(hs.laid.shaped b hbb).rounded⟩
  have hsmall := hs.laid.small
  rw [free_empty_iff hs]
  constructor
  · rintro ⟨hex,_⟩
    by_contra hcon
    push Not at hcon
    obtain ⟨hw,hle,hne⟩ := hcon
    obtain ⟨b,hb⟩ := hne
    have hok : (uheapAlloc h n).2≠0 := by
      rw [halloc,need_wraps hn hw]
      exact ⟨hle,b,hb,(hfits b hb).1⟩
    obtain ⟨c,hc,hcn⟩ := hlarge.mp (hex.mp hok)
    have := hfits c hc
    omega
  · intro hcond
    -- without a wrap the rounded request fits where the request does
    have hexact : n+15<2^32 → FitsExactly h bs n := by
      intro hw
      obtain ⟨hle,hround,_,_,hlt⟩ := need_spec hw
      have := hlt hn0
      constructor
      · rw [halloc,hlarge]
        constructor
        · rintro ⟨_,b,hb,hb'⟩
          exact ⟨b,hb,by omega⟩
        · rintro ⟨b,hb,hb'⟩
          have := hfits b hb
          exact ⟨by omega,b,hb,by omega⟩
      · intro hq
        obtain ⟨bs',c,hg,hp⟩ := alloc_granted hs hn hq
        exact ⟨bs',c,{hg with room := hle.trans hg.room},hp⟩
    -- otherwise both refuse
    have hnone : (uheapAlloc h n).2=0 → (∀b∈freeOf bs,b.size<n+8) → FitsExactly h bs n := by
      intro hq hno
      refine ⟨?_,fun hq' => absurd hq hq'⟩
      rw [hlarge]
      refine ⟨fun hq' => absurd hq hq',?_⟩
      rintro ⟨b,hb,hb'⟩
      have := hno b hb
      omega
    obtain h0 | h0 | h0 := hcond
    · exact hexact h0
    · apply hnone
      · by_contra hq
        have := (halloc.mp hq).1
        omega
      · intro b hb
        have := hfits b hb
        omega
    · rw [h0] at halloc
      apply hnone
      · by_contra hq
        obtain ⟨_,b,hb,_⟩ := halloc.mp hq
        cases hb
      · intro b hb
        rw [h0] at hb
        cases hb

theorem fits_exactly_iff_arena : ∃h,uheapInit 4096 64 (fun _ => 0)=some h ∧
    FitsExactly h {wholeArena h} 48 := by
  obtain ⟨h,hi⟩ : ∃h,uheapInit 4096 64 (fun _ => 0)=some h := by
    rw [uheapInit,if_neg (by omega)]
    exact ⟨_,rfl⟩
  exact ⟨h,hi,(fits_exactly_iff (init_sound hi (by omega)) (by omega) (by omega)).mpr
    (.inl (by omega))⟩

/-- In an arena of all but eight of 2^32 bytes a request for 2^32-15 gets the smallest block. -/
theorem fit_wraps : ∃h bs,uheapInit 8 (2^32-1) (fun _ => 0)=some h ∧ Sound h bs ∧
    ¬FitsExactly h bs (2^32-15) := by
  obtain ⟨h,hi⟩ : ∃h,uheapInit 8 (2^32-1) (fun _ => 0)=some h := by
    rw [uheapInit,if_neg (by omega)]
    exact ⟨_,rfl⟩
  have hs := init_sound hi (by omega)
  refine ⟨h,_,hi,hs,?_⟩
  have hsz := (init_fields hi).2.1
  rintro ⟨hex,_⟩
  have hok : (uheapAlloc h (2^32-15)).2≠0 := by
    rw [alloc_iff hs (by omega) (by omega),need_wraps (by omega) (by omega)]
    refine ⟨by omega,wholeArena h,?_,?_⟩
    · simp [freeOf,wholeArena]
    · simp only [wholeArena]
      omega
  obtain ⟨c,hc,hcn⟩ := (largest_iff hs (by omega)).mp (hex.mp hok)
  have := hs.laid.fits (freeOf_subset _ hc)
  omega

end LugalOS.Uheap
