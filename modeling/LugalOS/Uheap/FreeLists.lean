import LugalOS.Uheap.Layout

namespace LugalOS.Uheap

open Doubly Tiling
open Function (update update_apply)

variable {h h' : Heap} {free bs : Finset Blk} {b c : Blk} {lists : Nat → List Nat}

/-- Free blocks in places of their own. -/
structure Proper (free : Finset Blk) : Prop where
  aligned : ∀b∈free,b.off%8=0
  small : ∀b∈free,b.off+1<2^32 ∧ 0<b.size ∧ b.size<2^32
  inj : ∀b∈free,∀c∈free,b.off=c.off → b=c

theorem Laid.proper (hl : Laid h bs) (hs : free⊆bs) : Proper free where
  aligned b hb := (hl.shaped b (hs hb)).aligned
  small b hb := by
    have := hl.fits (hs hb)
    have := hl.small
    have := (hl.shaped b (hs hb)).least
    omega
  inj b hb c hc ho := hl.off_inj (hs hb) (hs hc) ho

theorem Proper.mono (hp : Proper free) {free' : Finset Blk} (hs : free'⊆free) : Proper free' where
  aligned b hb := hp.aligned b (hs hb)
  small b hb := hp.small b (hs hb)
  inj b hb c hc := hp.inj b (hs hb) c (hs hc)

section Lists

variable {k l x : Nat}

theorem Lists.aligned (hi : Lists h lists free) (hp : Proper free) (hx : x∈lists k) : x%8=0 := by
  obtain ⟨b,hb,rfl,_⟩ := (hi.mem k x).mp hx
  exact hp.aligned b hb

theorem Lists.disjoint (hi : Lists h lists free) (hp : Proper free) (hx : x∈lists k)
    (hx' : x∈lists l) : k=l := by
  obtain ⟨b,hb,hbo,hbc⟩ := (hi.mem k x).mp hx
  obtain ⟨c,hc,hco,hcc⟩ := (hi.mem l x).mp hx'
  rw [← hbc,← hcc,hp.inj b hb c hc (hbo.trans hco.symm)]

theorem Lists.own (hi : Lists h lists free) (hb : b∈free) : b.off∈lists (cls b.size) :=
  (hi.mem _ _).mpr ⟨b,hb,rfl,rfl⟩

theorem Lists.links {x : Nat} (hi : Lists h lists free) (hx : x∈lists k) {i : Nat}
    (hi0 : x+8≤ i) (hi1 : i<x+16) : ∃f∈free,f.Links i := by
  obtain ⟨f,hf,rfl,_⟩ := (hi.mem k x).mp hx
  exact ⟨f,hf,hi0,hi1⟩

theorem Filed.keep (hf : Filed h free) {W : Nat → Prop} (he : Edits h h' W)
    (hh : h'.freeHead=h.freeHead) (hw : ∀f∈free,∀k,f.Links k → ¬W k) : Filed h' free := by
  obtain ⟨lists,hi⟩ := hf
  refine ⟨lists,?_,hi.nodup,hi.mem⟩
  intro c hc
  rw [hh]
  apply (hi.chain c hc).congr
  · intro x hx
    obtain ⟨f,hf,rfl,_⟩ := (hi.mem c x).mp hx
    exact he.word fun k hk hk' => hw f hf k ⟨hk,by omega⟩
  · intro x hx
    obtain ⟨f,hf,rfl,_⟩ := (hi.mem c x).mp hx
    exact he.word fun k hk hk' => hw f hf k ⟨by omega,by omega⟩

end Lists

section Remove

variable {b x : Nat}

theorem bypass_next (hx : x%8=0) (hpv : h.linkPrevfree b≠0 → (h.linkPrevfree b-1)%8=0) :
    (bypass h b).linkNext x=if h.linkPrevfree b=x+1 then h.linkNext b else h.linkNext x := by
  rw [bypass]
  by_cases hp : h.linkPrevfree b≠0
  · rw [if_pos hp,linkNext_setNext (v := h.linkNext b) (hpv hp) hx (word_lt h (b+8))]
    apply if_congr _ rfl rfl
    omega
  · rw [if_neg hp,if_neg (by omega)]
    rfl

theorem bypass_prevfree (hx : x%8=0) (hpv : h.linkPrevfree b≠0 → (h.linkPrevfree b-1)%8=0) :
    (bypass h b).linkPrevfree x=h.linkPrevfree x := by
  rw [bypass]
  by_cases hp : h.linkPrevfree b≠0
  · rw [if_pos hp,linkPrevfree_setNext (hpv hp) hx]
  · rw [if_neg hp]
    rfl

theorem bypass_head (h : Heap) (b c : Nat) : (bypass h b).freeHead c=
    if h.linkPrevfree b=0 ∧ c=cls (h.bsize b) then h.linkNext b else h.freeHead c := by
  rw [bypass]
  by_cases hp : h.linkPrevfree b=0
  · rw [if_neg (not_not.mpr hp)]
    simp only [hp,true_and]
    exact update_apply ..
  · rw [if_pos hp,if_neg fun hc => hp hc.1]
    rfl

section Aligned

variable (hb : b%8=0) (hpv : h.linkPrevfree b≠0 → (h.linkPrevfree b-1)%8=0)
include hb hpv

theorem listRemove_eq : listRemove h b=
    if h.linkNext b≠0 then (bypass h b).setPrevfree (h.linkNext b-1) (h.linkPrevfree b)
    else bypass h b := by
  have hn : (bypass h b).linkNext b=h.linkNext b := by
    rw [bypass_next hb hpv]
    exact ite_self _
  simp only [listRemove,hn,bypass_prevfree hb hpv]

theorem listRemove_head (c : Nat) : (listRemove h b).freeHead c=
    if h.linkPrevfree b=0 ∧ c=cls (h.bsize b) then h.linkNext b else h.freeHead c := by
  rw [← bypass_head,listRemove_eq hb hpv]
  split_ifs <;> rfl

variable (hnx : h.linkNext b≠0 → (h.linkNext b-1)%8=0) (hx : x%8=0)
include hnx hx

theorem listRemove_next : (listRemove h b).linkNext x=
    if h.linkPrevfree b=x+1 then h.linkNext b else h.linkNext x := by
  rw [← bypass_next hx hpv,listRemove_eq hb hpv]
  by_cases hn : h.linkNext b≠0
  · rw [if_pos hn,linkNext_setPrevfree (hnx hn) hx]
  · rw [if_neg hn]

theorem listRemove_prevfree : (listRemove h b).linkPrevfree x=
    if h.linkNext b=x+1 then h.linkPrevfree b else h.linkPrevfree x := by
  rw [← bypass_prevfree hx hpv,listRemove_eq hb hpv]
  by_cases hn : h.linkNext b≠0
  · rw [if_pos hn,linkPrevfree_setPrevfree (v := h.linkPrevfree b) (hnx hn) hx
      (word_lt h (b+12)),bypass_prevfree hx hpv]
    apply if_congr _ rfl rfl
    omega
  · rw [if_neg hn,if_neg (by omega)]

end Aligned

end Remove

section Take

variable (hi : Lists h lists free) (hp : Proper free) (hb : b∈free)
include hi hp hb

theorem Lists.own_chain : Chain h.linkNext h.linkPrevfree 0 (h.freeHead (cls b.size))
    (lists (cls b.size)) :=
  hi.chain _ (cls_spec (hp.small b hb).2.1 (hp.small b hb).2.2).1

theorem Lists.around :
    (h.linkPrevfree b.off≠0 → ∃x∈lists (cls b.size),h.linkPrevfree b.off=x+1) ∧
      (h.linkNext b.off≠0 → ∃x∈lists (cls b.size),h.linkNext b.off=x+1) := by
  have hch := hi.own_chain hp hb
  have hmem := hi.own hb
  constructor
  · intro h0
    obtain ⟨hz,_⟩ | ⟨x,hx,hpx,_⟩ := hch.before hmem
    · exact absurd hz h0
    · exact ⟨x,hx,hpx⟩
  · intro h0
    obtain hz | ⟨x,hx,hnx,_⟩ := hch.after hmem
    · exact absurd hz h0
    · exact ⟨x,hx,hnx⟩

theorem Lists.around_aligned :
    (h.linkPrevfree b.off≠0 → (h.linkPrevfree b.off-1)%8=0) ∧
      (h.linkNext b.off≠0 → (h.linkNext b.off-1)%8=0) := by
  obtain ⟨hpv,hnx⟩ := hi.around hp hb
  constructor
  · intro h0
    obtain ⟨x,hx,he⟩ := hpv h0
    rw [he]
    exact hi.aligned hp hx
  · intro h0
    obtain ⟨x,hx,he⟩ := hnx h0
    rw [he]
    exact hi.aligned hp hx

theorem Lists.remove (hs : h.bsize b.off=b.size) :
    Lists (listRemove h b.off) (update lists (cls b.size) ((lists (cls b.size)).erase b.off))
      (free.erase b) := by
  have hch := hi.own_chain hp hb
  have hmem := hi.own hb
  have hal := hp.aligned b hb
  obtain ⟨hpv,hnx⟩ := hi.around_aligned hp hb
  obtain ⟨hpx,hnx'⟩ := hi.around hp hb
  have hhead := listRemove_head (h := h) hal hpv
  rw [hs] at hhead
  have hnext : ∀k,∀x∈lists k,(listRemove h b.off).linkNext x=
      if h.linkPrevfree b.off=x+1 then h.linkNext b.off else h.linkNext x :=
    fun k x hx => listRemove_next hal hpv hnx (hi.aligned hp hx)
  have hprev : ∀k,∀x∈lists k,(listRemove h b.off).linkPrevfree x=
      if h.linkNext b.off=x+1 then h.linkPrevfree b.off else h.linkPrevfree x :=
    fun k x hx => listRemove_prevfree hal hpv hnx (hi.aligned hp hx)
  constructor
  · intro c hc
    rw [update_apply,hhead]
    by_cases hcc : c=cls b.size
    · rw [if_pos hcc,hcc]
      have hgone : Chain (listRemove h b.off).linkNext (listRemove h b.off).linkPrevfree 0 _
          ((lists (cls b.size)).erase b.off) := hch.remove (hi.nodup _) hmem
        (fun x hx _ => (hnext _ x hx).trans (if_congr (hch.links_iff hmem hx) rfl rfl))
        (fun x hx _ => (hprev _ x hx).trans (if_congr (hch.links_iff hx hmem).symm rfl rfl))
        (by omega)
      have hif : (if h.freeHead (cls b.size)=b.off+1 then h.linkNext b.off
            else h.freeHead (cls b.size))=
          if h.linkPrevfree b.off=0 ∧ cls b.size=cls b.size then h.linkNext b.off
            else h.freeHead (cls b.size) := by
        apply if_congr _ rfl rfl
        rw [hch.first_iff hmem]
        simp
      rwa [hif] at hgone
    · rw [if_neg hcc,if_neg fun h0 => hcc h0.2]
      apply (hi.chain c hc).congr
      · intro x hx
        rw [hnext c x hx,if_neg]
        intro he
        obtain ⟨y,hy,hye⟩ := hpx (by omega)
        rw [show y=x by omega] at hy
        exact hcc (hi.disjoint hp hx hy)
      · intro x hx
        rw [hprev c x hx,if_neg]
        intro he
        obtain ⟨y,hy,hye⟩ := hnx' (by omega)
        rw [show y=x by omega] at hy
        exact hcc (hi.disjoint hp hx hy)
  · intro c
    rw [update_apply]
    split_ifs with hcc
    · exact (hi.nodup _).erase _
    · exact hi.nodup c
  · intro c x
    rw [update_apply]
    simp only [Finset.mem_erase]
    by_cases hcc : c=cls b.size
    · rw [if_pos hcc,(hi.nodup _).mem_erase_iff,hi.mem,hcc]
      constructor
      · rintro ⟨hne,f,hf,rfl,hfc⟩
        exact ⟨f,⟨fun he => hne (by rw [he]),hf⟩,rfl,hfc⟩
      · rintro ⟨f,⟨hne,hf⟩,rfl,hfc⟩
        exact ⟨fun he => hne (hp.inj f hf b hb he),f,hf,rfl,hfc⟩
    · rw [if_neg hcc,hi.mem]
      constructor
      · rintro ⟨f,hf,rfl,hfc⟩
        exact ⟨f,⟨fun he => hcc (by rw [← hfc,he]),hf⟩,rfl,hfc⟩
      · rintro ⟨f,⟨_,hf⟩,rfl,hfc⟩
        exact ⟨f,hf,rfl,hfc⟩

theorem Lists.remove_edits :
    Edits h (listRemove h b.off) fun k => ∃f∈free,f.Links k := by
  have hal := hp.aligned b hb
  obtain ⟨hpv,_⟩ := hi.around_aligned hp hb
  obtain ⟨hpx,hnx⟩ := hi.around hp hb
  have hmid : Edits h (bypass h b.off) fun k => ∃f∈free,f.Links k := by
    rw [bypass]
    split_ifs with h0
    · obtain ⟨x,hx,he⟩ := hpx h0
      apply (edits_setWord h _ _).mono
      intro k hk
      exact hi.links hx (by omega) (by omega)
    · exact ⟨rfl,rfl,fun _ _ => rfl⟩
  rw [listRemove_eq hal hpv]
  split_ifs with h0
  · obtain ⟨x,hx,he⟩ := hnx h0
    apply hmid.trans
    apply (edits_setWord _ _ _).mono
    intro k hk
    exact hi.links hx (by omega) (by omega)
  · exact hmid

end Take

theorem Filed.remove (hf : Filed h free) (hp : Proper free) (hb : b∈free)
    (hs : h.bsize b.off=b.size) :
    Filed (listRemove h b.off) (free.erase b) ∧
      Edits h (listRemove h b.off) fun k => ∃f∈free,f.Links k := by
  obtain ⟨lists,hi⟩ := hf
  exact ⟨⟨_,hi.remove hp hb hs⟩,hi.remove_edits hp hb⟩

section Insert

variable {b x : Nat}

theorem linkFront_eq (h : Heap) (b : Nat) : linkFront h b=
    if h.freeHead (cls (h.bsize b))≠0 then
      ((h.setNext b (h.freeHead (cls (h.bsize b)))).setPrevfree b 0).setPrevfree
        (h.freeHead (cls (h.bsize b))-1) (b+1)
    else (h.setNext b (h.freeHead (cls (h.bsize b)))).setPrevfree b 0 := rfl

theorem linkFront_head (h : Heap) (b : Nat) : (linkFront h b).freeHead=h.freeHead := by
  rw [linkFront_eq]
  split_ifs <;> rfl

theorem listInsert_head (h : Heap) (b : Nat) :
    (listInsert h b).freeHead=update h.freeHead (cls (h.bsize b)) (b+1) := by
  rw [listInsert,linkFront_head]

variable (hb : b%8=0) (hx : x%8=0)
  (hal : h.freeHead (cls (h.bsize b))≠0 → (h.freeHead (cls (h.bsize b))-1)%8=0)
include hb hx hal

theorem listInsert_next (hh : h.freeHead (cls (h.bsize b))<2^32) :
    (listInsert h b).linkNext x=if x=b then h.freeHead (cls (h.bsize b)) else h.linkNext x := by
  change (linkFront h b).linkNext x=_
  have hmid : ((h.setNext b (h.freeHead (cls (h.bsize b)))).setPrevfree b 0).linkNext x=
      if x=b then h.freeHead (cls (h.bsize b)) else h.linkNext x := by
    rw [linkNext_setPrevfree hb hx,linkNext_setNext hb hx hh]
  rw [linkFront_eq,← hmid]
  split_ifs with h0
  · exact linkNext_setPrevfree (hal h0) hx
  · rfl

theorem listInsert_prevfree (hlt : b+1<2^32) : (listInsert h b).linkPrevfree x=
    if h.freeHead (cls (h.bsize b))=x+1 then b+1 else if x=b then 0 else h.linkPrevfree x := by
  change (linkFront h b).linkPrevfree x=_
  have hmid : ((h.setNext b (h.freeHead (cls (h.bsize b)))).setPrevfree b 0).linkPrevfree x=
      if x=b then 0 else h.linkPrevfree x := by
    rw [linkPrevfree_setPrevfree hb hx (Nat.two_pow_pos 32),linkPrevfree_setNext hb hx]
  rw [linkFront_eq,← hmid]
  by_cases h0 : h.freeHead (cls (h.bsize b))≠0
  · rw [if_pos h0,linkPrevfree_setPrevfree (hal h0) hx hlt]
    apply if_congr _ rfl rfl
    omega
  · rw [if_neg h0,if_neg (by omega)]

end Insert

section Put

variable (hi : Lists h lists free) (hp : Proper (insert b free)) (hb : b∉free)
  (hs : h.bsize b.off=b.size)
include hi hp hs

theorem Lists.head_cell (h0 : h.freeHead (cls (h.bsize b.off))≠0) :
    ∃x∈lists (cls b.size),h.freeHead (cls (h.bsize b.off))=x+1 := by
  have hsm := (hp.small b (Finset.mem_insert_self _ _)).2
  have hch := hi.chain _ (cls_spec hsm.1 hsm.2).1
  rw [hs] at h0 ⊢
  cases hl : lists (cls b.size) with
  | nil =>
    rw [hl] at hch
    exact absurd hch h0
  | cons x l =>
    rw [hl] at hch
    exact ⟨x,List.mem_cons_self,hch.1⟩

theorem Lists.insert_edits : Edits h (listInsert h b.off) fun k => ∃f∈insert b free,f.Links k := by
  have hown : ∀k,b.off+8≤k ∧ k<b.off+16 → ∃f∈insert b free,f.Links k :=
    fun k hk => ⟨b,Finset.mem_insert_self _ _,hk⟩
  have hmid : Edits h ((h.setNext b.off (h.freeHead (cls (h.bsize b.off)))).setPrevfree b.off 0)
      fun k => ∃f∈insert b free,f.Links k := by
    refine Edits.trans (?_ : Edits h (h.setNext b.off (h.freeHead (cls (h.bsize b.off)))) _) ?_
    · exact (edits_setWord _ _ _).mono fun k hk => hown k (by omega)
    · exact (edits_setWord _ _ _).mono fun k hk => hown k (by omega)
  have hfront : Edits h (linkFront h b.off) fun k => ∃f∈insert b free,f.Links k := by
    rw [linkFront_eq]
    split_ifs with h0
    · obtain ⟨x,hx,he⟩ := hi.head_cell hp hs h0
      apply hmid.trans
      apply (edits_setWord _ _ _).mono
      intro k hk
      obtain ⟨f,hf,hfk⟩ := hi.links hx (show x+8≤k by omega) (by omega)
      exact ⟨f,Finset.mem_insert_of_mem hf,hfk⟩
    · exact hmid
  exact ⟨hfront.base,hfront.size,hfront.mem⟩

include hb

theorem Lists.insert : Lists (listInsert h b.off)
    (update lists (cls b.size) (b.off::lists (cls b.size))) (insert b free) := by
  have hbi := Finset.mem_insert_self b free
  have hsm := hp.small b hbi
  have hpf := hp.mono (Finset.subset_insert b free)
  have hal := hp.aligned b hbi
  have hch := hi.chain _ (cls_spec hsm.2.1 hsm.2.2).1
  have hcell := hi.head_cell hp hs
  have hne : ∀k,∀x∈lists k,x≠b.off := by
    intro k x hx he
    obtain ⟨f,hf,hfo,_⟩ := (hi.mem k x).mp hx
    have hfb := hp.inj f (Finset.mem_insert_of_mem hf) b hbi (hfo.trans he)
    exact hb (hfb ▸ hf)
  have hala : h.freeHead (cls (h.bsize b.off))≠0 →
      (h.freeHead (cls (h.bsize b.off))-1)%8=0 := by
    intro h0
    obtain ⟨x,hx,he⟩ := hcell h0
    rw [he]
    exact hi.aligned hpf hx
  have hlt : h.freeHead (cls (h.bsize b.off))<2^32 := by
    by_cases h0 : h.freeHead (cls (h.bsize b.off))=0
    · omega
    · obtain ⟨x,hx,he⟩ := hcell h0
      obtain ⟨f,hf,rfl,_⟩ := (hi.mem _ x).mp hx
      have := (hpf.small f hf).1
      omega
  have hnext : ∀x,x%8=0 → (listInsert h b.off).linkNext x=
      if x=b.off then h.freeHead (cls b.size) else h.linkNext x := by
    intro x hx
    rw [listInsert_next hal hx hala hlt,hs]
  have hprev : ∀x,x%8=0 → (listInsert h b.off).linkPrevfree x=
      if h.freeHead (cls b.size)=x+1 then b.off+1 else
        if x=b.off then 0 else h.linkPrevfree x := by
    intro x hx
    rw [listInsert_prevfree hal hx hala hsm.1,hs]
  have hhead : (listInsert h b.off).freeHead=update h.freeHead (cls b.size) (b.off+1) := by
    rw [listInsert_head,hs]
  constructor
  · intro c hc
    rw [hhead,update_apply,update_apply]
    by_cases hcc : c=cls b.size
    · rw [if_pos hcc,if_pos hcc]
      apply hch.push (hi.nodup _)
      · rw [hnext _ hal,if_pos rfl]
      · rw [hprev _ hal,if_neg,if_pos rfl]
        intro he
        obtain ⟨x,hx,hx'⟩ := hcell (by rw [hs]; omega)
        rw [hs] at hx'
        exact hne _ x hx (by omega)
      · intro x hx
        rw [hnext _ (hi.aligned hpf hx),if_neg (hne _ x hx)]
      · intro x hx
        rw [hprev _ (hi.aligned hpf hx),if_neg (hne _ x hx)]
    · rw [if_neg hcc,if_neg hcc]
      apply (hi.chain c hc).congr
      · intro x hx
        rw [hnext _ (hi.aligned hpf hx),if_neg (hne _ x hx)]
      · intro x hx
        rw [hprev _ (hi.aligned hpf hx),if_neg,if_neg (hne _ x hx)]
        intro he
        obtain ⟨y,hy,hy'⟩ := hcell (by rw [hs]; omega)
        rw [hs] at hy'
        rw [show y=x by omega] at hy
        exact hcc (hi.disjoint hpf hx hy)
  · intro c
    rw [update_apply]
    split_ifs with hcc
    · exact List.nodup_cons.mpr ⟨fun hm => hne _ _ hm rfl,hi.nodup _⟩
    · exact hi.nodup c
  · intro c x
    rw [update_apply]
    simp only [Finset.mem_insert]
    by_cases hcc : c=cls b.size
    · rw [if_pos hcc,List.mem_cons,hi.mem,hcc]
      constructor
      · rintro (rfl | ⟨f,hf,hfo⟩)
        · exact ⟨b,.inl rfl,rfl,rfl⟩
        · exact ⟨f,.inr hf,hfo⟩
      · rintro ⟨f,rfl | hf,hfo,hfc⟩
        · exact .inl hfo.symm
        · exact .inr ⟨f,hf,hfo,hfc⟩
    · rw [if_neg hcc,hi.mem]
      constructor
      · rintro ⟨f,hf,hfo⟩
        exact ⟨f,.inr hf,hfo⟩
      · rintro ⟨f,rfl | hf,hfo,hfc⟩
        · exact absurd hfc.symm hcc
        · exact ⟨f,hf,hfo,hfc⟩

end Put

theorem Filed.insert (hf : Filed h free) (hp : Proper (insert b free)) (hb : b∉free)
    (hs : h.bsize b.off=b.size) :
    Filed (listInsert h b.off) (insert b free) ∧
      Edits h (listInsert h b.off) fun k => ∃f∈insert b free,f.Links k := by
  obtain ⟨lists,hi⟩ := hf
  exact ⟨⟨_,hi.insert hp hb hs⟩,hi.insert_edits hp hs⟩

section Search

variable {want k back o x : Nat} {l : List Nat}

theorem scan_some (hc : Chain h.linkNext h.linkPrevfree back o l) (hx : scan h want k o=some x) :
    x∈l ∧ want≤h.bsize x := by
  induction k generalizing back o l with
  | zero => cases hx
  | succ k ih =>
    cases l with
    | nil =>
      rw [scan,if_pos (show o=0 from hc)] at hx
      cases hx
    | cons a l =>
      obtain ⟨rfl,hb,ht⟩ := hc
      rw [scan,if_neg (by omega),Nat.add_sub_cancel] at hx
      split_ifs at hx with hfit
      · cases hx
        exact ⟨List.mem_cons_self,hfit⟩
      · obtain ⟨hm,hw⟩ := ih ht hx
        exact ⟨List.mem_cons_of_mem _ hm,hw⟩

theorem scan_none (hc : Chain h.linkNext h.linkPrevfree back o l) (hk : l.length≤k)
    (hn : scan h want k o=none) (hx : x∈l) : h.bsize x<want := by
  induction k generalizing back o l with
  | zero =>
    rw [List.length_eq_zero_iff.mp (Nat.le_zero.mp hk)] at hx
    cases hx
  | succ k ih =>
    cases l with
    | nil => cases hx
    | cons a l =>
      obtain ⟨rfl,hb,ht⟩ := hc
      rw [scan,if_neg (by omega),Nat.add_sub_cancel] at hn
      split_ifs at hn with hfit
      obtain rfl | hx := List.mem_cons.mp hx
      · omega
      · exact ih ht (Nat.le_of_succ_le_succ hk) hn hx

theorem largestIn_spec (hc : Chain h.linkNext h.linkPrevfree back o l) (hk : l.length≤k)
    (hin : ∀y∈l,y+1<h.size) (best : Nat) : best≤largestIn h k o best ∧
      (∀y∈l,h.bsize y≤largestIn h k o best) ∧
      (largestIn h k o best=best ∨ ∃y∈l,largestIn h k o best=h.bsize y) := by
  induction k generalizing back o l best with
  | zero =>
    rw [List.length_eq_zero_iff.mp (Nat.le_zero.mp hk)]
    simp [largestIn]
  | succ k ih =>
    cases l with
    | nil =>
      rw [largestIn,if_pos (show o=0 from hc)]
      simp
    | cons a l =>
      obtain ⟨rfl,hb,ht⟩ := hc
      have ha := hin a List.mem_cons_self
      rw [largestIn,if_neg (by omega),Nat.add_sub_cancel,if_neg (by omega)]
      obtain ⟨h1,h2,h3⟩ := ih ht (Nat.le_of_succ_le_succ hk)
        (fun y hy => hin y (List.mem_cons_of_mem _ hy)) (if best<h.bsize a then h.bsize a else best)
      have hge : best≤(if best<h.bsize a then h.bsize a else best) ∧
          h.bsize a≤(if best<h.bsize a then h.bsize a else best) := by
        split_ifs <;> omega
      refine ⟨hge.1.trans h1,?_,?_⟩
      · intro y hy
        obtain rfl | hy := List.mem_cons.mp hy
        · exact hge.2.trans h1
        · exact h2 y hy
      · obtain he | ⟨y,hy,he⟩ := h3
        · rw [he]
          split_ifs
          · exact .inr ⟨a,List.mem_cons_self,rfl⟩
          · exact .inl rfl
        · exact .inr ⟨y,List.mem_cons_of_mem _ hy,he⟩

variable (hl : Laid h bs) (hi : Lists h lists (freeOf bs))
include hl hi

theorem Lists.within (hx : x∈lists k) : x+1<h.size := by
  obtain ⟨b,hb,rfl,_⟩ := (hi.mem k x).mp hx
  have := hl.fits (freeOf_subset bs hb)
  omega

theorem Lists.length_le (k : Nat) : (lists k).length≤h.size := by
  have hsub : (lists k).Subperm (List.range h.size) := by
    apply List.subperm_of_subset (hi.nodup k)
    intro x hx
    have := hi.within hl hx
    exact List.mem_range.mpr (by omega)
  simpa using hsub.length_le

theorem Lists.size_of (hx : x∈lists k) :
    ∃b∈freeOf bs,b.off=x ∧ cls b.size=k ∧ h.bsize x=b.size := by
  obtain ⟨b,hb,rfl,hc⟩ := (hi.mem k x).mp hx
  exact ⟨b,hb,rfl,hc,hl.bsize (freeOf_subset bs hb)⟩

theorem findFit_some (h0 : 0<want) (hw : want<2^32) (hx : findFit h want=some x) :
    ∃b∈freeOf bs,b.off=x ∧ want≤b.size := by
  simp only [findFit] at hx
  have hch := hi.chain _ (cls_spec h0 hw).1
  split at hx
  next y hy =>
    cases hx
    obtain ⟨hm,hfit⟩ := scan_some hch hy
    obtain ⟨b,hb,ho,_,hs⟩ := hi.size_of hl hm
    exact ⟨b,hb,ho,by omega⟩
  next =>
    obtain ⟨c,hc,rfl⟩ := Option.map_eq_some_iff.mp hx
    have hne := List.find?_some hc
    have hm := List.mem_of_find?_eq_some hc
    rw [List.mem_iff_getElem] at hm
    obtain ⟨i,hi',he⟩ := hm
    rw [List.getElem_drop,List.getElem_range] at he
    have hc32 : c<classes := by
      rw [List.length_drop,List.length_range] at hi'
      omega
    have hch' := hi.chain c hc32
    cases hl' : lists c with
    | nil =>
      rw [hl'] at hch'
      simp [show h.freeHead c=0 from hch'] at hne
    | cons a l =>
      rw [hl'] at hch'
      have ha : a∈lists c := hl' ▸ List.mem_cons_self
      obtain ⟨b,hb,ho,hbc,_⟩ := hi.size_of hl ha
      have hbb := freeOf_subset bs hb
      have hless := (hl.shaped b hbb).least
      have := lt_of_cls_lt h0 hw (by omega) (hl.size_lt hbb) (by omega)
      refine ⟨b,hb,?_,by omega⟩
      have := hch'.1
      omega

theorem findFit_none (h0 : 0<want) (hw : want<2^32) (hn : findFit h want=none)
    (hb : b∈freeOf bs) : b.size<want := by
  simp only [findFit] at hn
  have hbb := freeOf_subset bs hb
  have hleast := (hl.shaped b hbb).least
  have hbs := cls_spec (n := b.size) (by omega) (hl.size_lt hbb)
  have hown := hi.own hb
  split at hn
  next => cases hn
  next hs =>
    obtain hlt | heq | hgt := Nat.lt_trichotomy (cls want) (cls b.size)
    · rw [Option.map_eq_none_iff,List.find?_eq_none] at hn
      have hhead := hn (cls b.size) (by
        rw [List.mem_iff_getElem]
        refine ⟨cls b.size-(cls want+1),?_,?_⟩
        · rw [List.length_drop,List.length_range]
          omega
        · rw [List.getElem_drop,List.getElem_range]
          omega)
      have hz : h.freeHead (cls b.size)=0 := by simpa using hhead
      rw [(hi.chain _ hbs.1).head_iff] at hz
      rw [hz] at hown
      cases hown
    · have := scan_none (hi.chain _ (cls_spec h0 hw).1) (hi.length_le hl _) hs (heq ▸ hown)
      rwa [hl.bsize hbb] at this
    · exact lt_of_cls_lt (by omega) (hl.size_lt hbb) h0 hw hgt

end Search

end LugalOS.Uheap
