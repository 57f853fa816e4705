import LugalOS.Lisp.Marked

namespace LugalOS.Lisp

open Function (update_of_ne)
open Bitmap LittleEndian Links

def ptr (p : Nat) : Option Nat := if p=0 then none else some p
def slotOf (x : Int) : Option Nat := if x<0 then none else some x.toNat

theorem ptr_some {p : Nat} (h : p≠0) : ptr p=some p := if_neg h

theorem slotOf_natCast (i : Nat) : slotOf i=some i := by simp [slotOf]

/-- The link of a free cell, or of a symbol in its chain. -/
def Heap.link (h : Heap) (a : Nat) : Option Nat := ptr (h.val a).u1

def slotLink (b : Layout) (bytes : Nat → UInt8) (i : Nat) : Option Nat :=
  slotOf (intAt bytes (b.slotAt i))

section Free

variable {b : Layout} {h : Heap}

theorem markFreeNodes_spec (hb : b.Sound) {is : List Nat} {c fuel : Nat} (m : Bits) (n : Int)
    (hl : Linked h.link (ptr c) (is.map b.nodeAt)) (hf : is.length < fuel) :
    markFreeNodes b h fuel c m n=some (is.foldl bitSet m,n+is.length) := by
  induction is generalizing c fuel m n with
  | nil =>
    obtain ⟨fuel,rfl⟩ := Nat.exists_eq_succ_of_ne_zero (Nat.pos_iff_ne_zero.mp hf)
    have h0 : c=0 := by
      by_contra hc
      rw [List.map_nil,Linked,ptr_some hc] at hl
      cases hl
    simp [markFreeNodes,h0]
  | cons i is ih =>
    rw [List.length_cons] at hf
    obtain ⟨fuel,rfl⟩ := Nat.exists_eq_succ_of_ne_zero (by omega : fuel≠0)
    have hc : c≠0 := by
      intro hc
      rw [hc] at hl
      cases hl.1
    have he : c=b.nodeAt i := Option.some.inj ((ptr_some hc).symm.trans hl.1)
    have hn := ih (bitSet m i) (n+1) hl.2 (by omega : is.length < fuel)
    rw [markFreeNodes,if_neg hc,he,hb.nodeIndex_nodeAt]
    rw [show (h.val (b.nodeAt i)).cdr=(h.val (b.nodeAt i)).u1 from rfl,hn,List.foldl_cons,
      List.length_cons]
    congr 2
    omega

theorem markFreeSlots_spec {is : List Nat} {x : Int} {fuel : Nat} (m : Bits) (n : Int)
    (hl : Linked (slotLink b h.bytes) (slotOf x) is) (hf : is.length < fuel) :
    markFreeSlots b h fuel x m n=some (is.foldl bitSet m,n+is.length) := by
  induction is generalizing x fuel m n with
  | nil =>
    obtain ⟨fuel,rfl⟩ := Nat.exists_eq_succ_of_ne_zero (Nat.pos_iff_ne_zero.mp hf)
    have h0 : x<0 := by
      by_contra hc
      rw [Linked,slotOf,if_neg hc] at hl
      cases hl
    simp [markFreeSlots,h0]
  | cons i is ih =>
    rw [List.length_cons] at hf
    obtain ⟨fuel,rfl⟩ := Nat.exists_eq_succ_of_ne_zero (by omega : fuel≠0)
    have hx : ¬x<0 := by
      intro hc
      rw [slotOf,if_pos hc] at hl
      cases hl.1
    have he : x.toNat=i := by
      have := hl.1
      rw [slotOf,if_neg hx] at this
      exact Option.some.inj this
    have hn := ih (bitSet m i) (n+1) hl.2 (by omega : is.length < fuel)
    rw [markFreeSlots,if_neg hx,he,Heap.slotNext,hn,List.foldl_cons,List.length_cons]
    congr 2
    omega

theorem bitGet_foldl (is : List Nat) (m : Bits) (j : Nat) :
    bitGet (is.foldl bitSet m) j=(decide (j∈is) || bitGet m j) := by
  induction is generalizing m with
  | nil => simp
  | cons i is ih =>
    rw [List.foldl_cons,ih,bitGet_bitSet,Bool.eq_iff_iff]
    simp only [Bool.or_eq_true,decide_eq_true_eq,List.mem_cons]
    tauto

end Free

section Nodes

variable (b : Layout) (m : Marks)

/-- The nodes found dead among the first n, the last first. -/
def deadNodes (n : Nat) : List Nat :=
  ((List.range n).filter fun i => !bitGet m.nodeMarkBits i).reverse

/-- An array of a vector's own, from the buddy allocator. -/
def Layout.largeArray (v : Val) : Option Nat :=
  if v.type=.lispVector ∧ v.vecElems≠0 ∧ (b.stringSlotIndex v.vecElems).isNone then
    some v.vecElems
  else none

variable {b m}

theorem mem_deadNodes {n i : Nat} : i∈deadNodes m n ↔ i < n ∧ bitGet m.nodeMarkBits i=false := by
  simp [deadNodes]

theorem deadNodes_nodup (n : Nat) : (deadNodes m n).Nodup :=
  List.nodup_reverse.mpr (List.nodup_range.filter _)

theorem deadNodes_succ (n : Nat) : deadNodes m (n+1)=
    if bitGet m.nodeMarkBits n then deadNodes m n else n::deadNodes m n := by
  rw [deadNodes,List.range_succ,List.filter_append,List.reverse_append]
  split
  · next hm => simp [deadNodes,hm]
  · next hm => simp [deadNodes,hm]

/-- What the sweep of the first n nodes has made of h. -/
structure SweptNodes (b : Layout) (m : Marks) (free : List Nat) (h : Heap) (n : Nat) (h' : Heap) :
    Prop where
  free : Linked h'.link (ptr h'.nodeFreeList) ((deadNodes m n++free).map b.nodeAt)
  count : h'.nodeFreeCount=h.nodeFreeCount+(deadNodes m n).length
  arrays : h'.ballocFreed=(deadNodes m n).filterMap (fun i => b.largeArray (h.val (b.nodeAt i)))++
    h.ballocFreed
  kept : ∀a,(∀i∈deadNodes m n,a≠b.nodeAt i) → h'.val a=h.val a
  rest : ∃v l c f,h'={h with val := v
                             nodeFreeList := l
                             nodeFreeCount := c
                             ballocFreed := f}

theorem sweptNodes (hb : b.Sound) {free : List Nat} {h : Heap}
    (hl : Linked h.link (ptr h.nodeFreeList) (free.map b.nodeAt))
    (hfree : ∀i∈free,bitGet m.nodeMarkBits i=true) (n : Nat) :
    SweptNodes b m free h n ((List.range n).foldl (sweepNode b m) h) := by
  induction n with
  | zero => exact ⟨hl,by simp [deadNodes],by simp [deadNodes],fun _ _ => rfl,_,_,_,_,rfl⟩
  | succ n ih =>
    rw [List.range_succ,List.foldl_append]
    set g := (List.range n).foldl (sweepNode b m) h with hg
    simp only [List.foldl_cons,List.foldl_nil]
    by_cases hm : bitGet m.nodeMarkBits n=true
    · have hd : deadNodes m (n+1)=deadNodes m n := by rw [deadNodes_succ,if_pos hm]
      have hs : sweepNode b m g n=g := by rw [sweepNode,if_pos hm]
      rw [hs]
      exact ⟨hd ▸ ih.free,hd ▸ ih.count,hd ▸ ih.arrays,hd ▸ ih.kept,ih.rest⟩
    have hd : deadNodes m (n+1)=n::deadNodes m n := by rw [deadNodes_succ,if_neg hm]
    have hnew : ∀i∈deadNodes m n++free,b.nodeAt i≠b.nodeAt n := by
      intro i hi he
      rcases List.mem_append.mp hi with hi|hi
      · have := (mem_deadNodes.mp hi).1
        have := hb.nodeAt_inj he
        omega
      · rw [hb.nodeAt_inj he] at hi
        exact hm (hfree n hi)
    have hval : g.val (b.nodeAt n)=h.val (b.nodeAt n) :=
      ih.kept _ fun i hi he => hnew i (List.mem_append_left _ hi) he.symm
    have hpos : b.nodeAt n≠0 := by
      have := hb.pool
      rw [Layout.nodeAt]
      omega
    set g' := sweepNode b m g n with hg'
    have hshape : g'.nodeFreeList=b.nodeAt n ∧ g'.nodeFreeCount=g.nodeFreeCount+1 ∧
        g'.ballocFreed=(b.largeArray (h.val (b.nodeAt n))).toList++g.ballocFreed ∧
        (g'.val (b.nodeAt n)).u1=g.nodeFreeList ∧
        (∀a,a≠b.nodeAt n → g'.val a=g.val a) ∧
        ∃v l c f,g'={g with val := v
                            nodeFreeList := l
                            nodeFreeCount := c
                            ballocFreed := f} := by
      rw [hg',sweepNode,if_neg hm]
      simp only [← hval,Layout.largeArray]
      split
      · refine ⟨by simp,by simp,by simp,by simp [Val.setCdr],?_,_,_,_,_,rfl⟩
        intro a ha
        simp [update_of_ne ha]
      · refine ⟨by simp,by simp,by simp,by simp [Val.setCdr],?_,_,_,_,_,rfl⟩
        intro a ha
        simp [update_of_ne ha]
    obtain ⟨e1,e2,e3,e4,e5,v,l,c,f,e6⟩ := hshape
    refine ⟨?_,?_,?_,?_,?_⟩
    · rw [hd,e1,ptr_some hpos]
      refine Linked.push ih.free (by rw [Heap.link,e4]) ?_
      intro a ha
      obtain ⟨i,hi,rfl⟩ := List.mem_map.mp ha
      rw [Heap.link,Heap.link,e5 _ (hnew i hi)]
    · rw [e2,ih.count,hd,List.length_cons]
      omega
    · rw [e3,ih.arrays,hd,List.filterMap_cons]
      cases b.largeArray (h.val (b.nodeAt n)) <;> simp
    · intro a ha
      rw [hd] at ha
      rw [e5 a (ha n List.mem_cons_self)]
      exact ih.kept a fun i hi => ha i (List.mem_cons_of_mem _ hi)
    · obtain ⟨v0,l0,c0,f0,e0⟩ := ih.rest
      exact ⟨v,l,c,f,by rw [e6,e0]⟩

end Nodes

section Slots

variable {b : Layout} {m : Marks}

theorem Layout.four_le_slotCapacity (b : Layout) (i : Nat) : 4≤b.slotCapacity i := by
  rw [slotCapacity]
  split <;> decide

theorem Layout.Sound.slots_apart (hb : b.Sound) {i j : Nat}
    (hi : i < b.stringSmallSlots+b.stringLargeSlots)
    (hj : j < b.stringSmallSlots+b.stringLargeSlots) (hij : i≠j) :
    b.slotAt i+b.slotCapacity i≤b.slotAt j ∨ b.slotAt j+b.slotCapacity j≤b.slotAt i := by
  have := hb.apart
  simp only [slotAt,slotCapacity,slotIsSmall,decide_eq_true_eq,stringSmallLen,stringSlotLen] at *
  split <;> split <;> omega

def deadSlots (m : Marks) (is : List Nat) : List Nat :=
  (is.filter fun i => !bitGet m.stringMarkBits i).reverse

theorem mem_deadSlots {is : List Nat} {i : Nat} :
    i∈deadSlots m is ↔ i∈is ∧ bitGet m.stringMarkBits i=false := by
  simp [deadSlots]

theorem deadSlots_nodup {is : List Nat} (h : is.Nodup) : (deadSlots m is).Nodup :=
  List.nodup_reverse.mpr (h.filter _)

/-- What the sweep of the slots of a list has made of bytes, head and n. -/
structure GivenSlots (b : Layout) (m : Marks) (free : List Nat) (bytes : Nat → UInt8) (n : Int)
    (is : List Nat) (t : (Nat → UInt8)×Int×Int) : Prop where
  free : Linked (slotLink b t.1) (slotOf t.2.1) (deadSlots m is++free)
  head : -2^31≤t.2.1 ∧ t.2.1<2^31
  count : t.2.2=n+(deadSlots m is).length
  kept : ∀a,(∀i∈deadSlots m is,a < b.slotAt i ∨ b.slotAt i+4≤a) → t.1 a=bytes a

theorem givenSlots (hb : b.Sound) {free is : List Nat} {bytes : Nat → UInt8} {head : Int} (n : Int)
    (hl : Linked (slotLink b bytes) (slotOf head) free) (hh : -2^31≤head ∧ head<2^31)
    (hfree : ∀i∈free,bitGet m.stringMarkBits i=true ∧ i < b.stringSmallSlots+b.stringLargeSlots)
    (hn : is.Nodup) (his : ∀i∈is,i < b.stringSmallSlots+b.stringLargeSlots) :
    GivenSlots b m free bytes n is (is.foldl (giveSlot b m) (bytes,head,n)) := by
  induction is using List.reverseRecOn with
  | nil => exact ⟨hl,hh,by simp [deadSlots],fun _ _ => rfl⟩
  | append_singleton is i ih =>
    rw [List.nodup_append] at hn
    obtain ⟨hn,-,hni⟩ := hn
    have ih := ih hn fun j hj => his j (List.mem_append_left _ hj)
    have hi := his i (by simp)
    rw [List.foldl_append]
    set t := is.foldl (giveSlot b m) (bytes,head,n) with ht
    simp only [List.foldl_cons,List.foldl_nil]
    by_cases hm : bitGet m.stringMarkBits i=true
    · have hd : deadSlots m (is++[i])=deadSlots m is := by simp [deadSlots,hm]
      have hs : giveSlot b m t i=t := by rw [giveSlot,if_pos hm]
      rw [hs]
      exact ⟨hd ▸ ih.free,ih.head,hd ▸ ih.count,hd ▸ ih.kept⟩
    have hd : deadSlots m (is++[i])=i::deadSlots m is := by simp [deadSlots,hm]
    have hs : giveSlot b m t i=(putInt t.1 (b.slotAt i) t.2.1,(i : Int),t.2.2+1) := by
      rw [giveSlot,if_neg hm]
    have hcap := b.four_le_slotCapacity
    have hother : ∀j∈deadSlots m is++free,b.slotAt j+4≤b.slotAt i ∨ b.slotAt i+4≤b.slotAt j := by
      intro j hj
      have hne : i≠j ∧ j < b.stringSmallSlots+b.stringLargeSlots := by
        rcases List.mem_append.mp hj with hj|hj
        · obtain ⟨hj,-⟩ := mem_deadSlots.mp hj
          exact ⟨(hni j hj i (List.mem_singleton_self i)).symm,
            his j (List.mem_append_left _ hj)⟩
        · refine ⟨?_,(hfree j hj).2⟩
          rintro rfl
          exact hm (hfree i hj).1
      have := hb.slots_apart hi hne.2 hne.1
      have := hcap i
      have := hcap j
      omega
    rw [hs]
    refine ⟨?_,?_,?_,?_⟩
    · rw [hd]
      simp only [slotOf_natCast,List.cons_append]
      refine Linked.push ih.free ?_ ?_
      · rw [slotLink,intAt_putInt _ _ ih.head.1 ih.head.2]
      · intro j hj
        rw [slotLink,slotLink,intAt_putInt_outside _ _ (hother j hj)]
    · have := hb.slots
      simp only
      omega
    · rw [hd,List.length_cons]
      simp only [ih.count]
      omega
    · intro a ha
      rw [hd] at ha
      simp only [putInt]
      rw [putLe_outside _ _ _ _ _ (ha i List.mem_cons_self)]
      exact ih.kept a fun j hj => ha j (List.mem_cons_of_mem _ hj)

theorem slotLink_congr {bytes bytes' : Nat → UInt8} {i : Nat}
    (h : ∀k,k < b.slotCapacity i → bytes' (b.slotAt i+k)=bytes (b.slotAt i+k)) :
    slotLink b bytes' i=slotLink b bytes i := by
  have hcap := b.four_le_slotCapacity i
  have he : leAt bytes' (b.slotAt i) 4=leAt bytes (b.slotAt i) 4 := by
    apply leAt_congr
    intro a ha ha4
    have := h (a-b.slotAt i) (by omega)
    rwa [Nat.add_sub_cancel' ha] at this
  simp only [slotLink,intAt,he]

theorem GivenSlots.slot_kept (hb : b.Sound) {free is : List Nat} {bytes : Nat → UInt8} {n : Int}
    {t : (Nat → UInt8)×Int×Int} (g : GivenSlots b m free bytes n is t)
    (his : ∀i∈is,i < b.stringSmallSlots+b.stringLargeSlots) {j : Nat}
    (hj : j < b.stringSmallSlots+b.stringLargeSlots) (hd : j∉deadSlots m is) {k : Nat}
    (hk : k < b.slotCapacity j) : t.1 (b.slotAt j+k)=bytes (b.slotAt j+k) := by
  apply g.kept
  intro i hi
  have hij : i≠j := fun hc => hd (hc ▸ hi)
  have := hb.slots_apart (his i (mem_deadSlots.mp hi).1) hj hij
  have := b.four_le_slotCapacity i
  omega

theorem sweepSmall_fold (is : List Nat) (h : Heap) :
    is.foldl (sweepSmall b m) h=
      let t := is.foldl (giveSlot b m) (h.bytes,h.stringFreeHead,h.stringSmallFreeCount)
      {h with bytes := t.1
              stringFreeHead := t.2.1
              stringSmallFreeCount := t.2.2} := by
  induction is generalizing h with
  | nil => rfl
  | cons i is ih =>
    rw [List.foldl_cons,ih]
    rfl

theorem sweepLarge_fold (is : List Nat) (h : Heap) :
    is.foldl (sweepLarge b m) h=
      let t := (is.map (b.stringSmallSlots+·)).foldl (giveSlot b m)
        (h.bytes,h.stringLargeFreeHead,h.stringLargeFreeCount)
      {h with bytes := t.1
              stringLargeFreeHead := t.2.1
              stringLargeFreeCount := t.2.2} := by
  induction is generalizing h with
  | nil => rfl
  | cons i is ih =>
    rw [List.foldl_cons,ih]
    rfl

theorem sweep_eq (h : Heap) {v : Nat → Val} {l : Nat} {c : Int} {f : List Nat}
    (he : (List.range h.nodePoolIdx).foldl (sweepNode b m) h=
      {h with val := v
              nodeFreeList := l
              nodeFreeCount := c
              ballocFreed := f}) :
    let s := (List.range h.stringSmallIdx).foldl (giveSlot b m)
      (h.bytes,h.stringFreeHead,h.stringSmallFreeCount)
    let t := ((List.range h.stringLargeIdx).map (b.stringSmallSlots+·)).foldl (giveSlot b m)
      (s.1,h.stringLargeFreeHead,h.stringLargeFreeCount)
    ∃w1 w2,sweep b m h={h with val := v
                               nodeFreeList := l
                               nodeFreeCount := c
                               ballocFreed := f
                               bytes := t.1
                               stringFreeHead := s.2.1
                               stringSmallFreeCount := s.2.2
                               stringLargeFreeHead := t.2.1
                               stringLargeFreeCount := t.2.2
                               nodePoolExhaustedWarned := w1
                               stringPoolExhaustedWarned := w2} := by
  simp only [sweep,he,sweepSmall_fold,sweepLarge_fold]
  split <;> split <;> exact ⟨_,_,rfl⟩

end Slots

section Symbols

variable {b : Layout} {m : Marks}

/-- What weak pruning keeps of a chain. -/
def keepSym (b : Layout) (m : Marks) (s : Nat) : Bool :=
  !b.inPool s || bitGet m.nodeMarkBits (b.nodeIndex s)

/-- Only chain links may differ. -/
structure Relinked (h h' : Heap) : Prop where
  val : ∀a,h'.val a=(h.val a).setSymNext (h'.val a).u1
  rest : ∃v t,h'={h with val := v
                         symHashTable := t}

theorem Relinked.refl (h : Heap) : Relinked h h := ⟨fun _ => rfl,_,_,rfl⟩

theorem Relinked.trans {h g k : Heap} (h1 : Relinked h g) (h2 : Relinked g k) : Relinked h k where
  val a := by
    rw [h2.val a,h1.val a]
    rfl
  rest := by
    obtain ⟨v,t,rfl⟩ := h1.rest
    obtain ⟨v',t',rfl⟩ := h2.rest
    exact ⟨v',t',rfl⟩

theorem relinked_store (h : Heap) (p : Nat) (prev : Link) : Relinked h (h.store p prev) := by
  cases prev with
  | bucket i => exact ⟨fun _ => rfl,_,_,rfl⟩
  | next s =>
    refine ⟨?_,_,_,rfl⟩
    intro a
    by_cases ha : a=s
    · subst ha
      simp [Heap.store,Val.setSymNext]
    · simp only [Heap.store,update_of_ne ha]
      rfl

theorem load_store (h : Heap) (p : Nat) (prev : Link) : (h.store p prev).load prev=p := by
  cases prev <;> simp [Heap.store,Heap.load,Val.symNext,Val.setSymNext]

theorem pruneChain_spec {l : List Nat} {h : Heap} {prev : Link} {fuel : Nat}
    (hl : Linked h.link (ptr (h.load prev)) l) (hn : l.Nodup) (hp : ∀s∈l,prev≠.next s)
    (hf : l.length < fuel) :
    ∃h',pruneChain b m fuel h prev=some h' ∧ Relinked h h' ∧
      Linked h'.link (ptr (h'.load prev)) (l.filter (keepSym b m)) ∧
      (∀a,a∉l → prev≠.next a → h'.val a=h.val a) ∧
      ∀i,prev≠.bucket i → h'.symHashTable i=h.symHashTable i := by
  induction l generalizing h prev fuel with
  | nil =>
    obtain ⟨fuel,rfl⟩ := Nat.exists_eq_succ_of_ne_zero (Nat.pos_iff_ne_zero.mp hf)
    have h0 : h.load prev=0 := by
      by_contra hc
      rw [ptr_some hc] at hl
      cases hl
    exact ⟨h,by simp [pruneChain,h0],Relinked.refl h,by simpa [h0] using hl,fun _ _ _ => rfl,
      fun _ _ => rfl⟩
  | cons s l ih =>
    rw [List.length_cons] at hf
    obtain ⟨fuel,rfl⟩ := Nat.exists_eq_succ_of_ne_zero (by omega : fuel≠0)
    have h0 : h.load prev≠0 := by
      intro hc
      rw [hc] at hl
      cases hl.1
    have hs : h.load prev=s := Option.some.inj ((ptr_some h0).symm.trans hl.1)
    obtain ⟨hsl,hn⟩ := List.nodup_cons.mp hn
    have hps := hp s List.mem_cons_self
    by_cases hk : keepSym b m s=true
    · have hnext : ∀x∈l,Link.next s≠.next x := by
        rintro x hx he
        cases he
        exact hsl hx
      have hrest : Linked h.link (ptr (h.load (.next s))) l := hl.2
      obtain ⟨h',e1,e2,e3,e4,e5⟩ := ih hrest hn hnext (by omega : l.length < fuel)
      refine ⟨h',?_,e2,?_,?_,?_⟩
      · rw [pruneChain,hs]
        simp only [keepSym,Bool.or_eq_true,Bool.not_eq_true'] at hk
        rcases hk with hk|hk
        · simpa [hs ▸ h0,hk] using e1
        · simpa [hs ▸ h0,hk] using e1
      · have hload : h'.load prev=s := by
          rw [← hs]
          cases prev with
          | bucket i => exact e5 i (by simp)
          | next a =>
            have ha : a∉l := fun hc => hp a (List.mem_cons_of_mem _ hc) rfl
            have hne : Link.next s≠.next a := fun hc => hps hc.symm
            simp only [Heap.load,e4 a ha hne]
        rw [List.filter_cons,if_pos hk,hload,ptr_some (hs ▸ h0)]
        exact ⟨rfl,e3⟩
      · intro a ha hpa
        rw [List.mem_cons,not_or] at ha
        exact e4 a ha.2 fun hc => ha.1 (Link.next.inj hc).symm
      · exact fun i _ => e5 i (by simp)
    · set g := h.store (h.val s).symNext prev with hg
      have hlink : ∀a,prev≠.next a → g.val a=h.val a := by
        intro a ha
        cases prev with
        | bucket i => rfl
        | next x =>
          have hax : a≠x := fun hc => ha (by rw [hc])
          simp only [hg,Heap.store,update_of_ne hax]
      have hgl : Linked g.link (ptr (g.load prev)) l := by
        rw [hg,load_store]
        refine Linked.congr hl.2 fun x hx => ?_
        rw [Heap.link,Heap.link,← hg,hlink x (hp x (List.mem_cons_of_mem _ hx))]
      obtain ⟨h',e1,e2,e3,e4,e5⟩ := ih hgl hn (fun x hx => hp x (List.mem_cons_of_mem _ hx))
        (by omega : l.length < fuel)
      refine ⟨h',?_,(relinked_store h _ prev).trans e2,?_,?_,?_⟩
      · rw [pruneChain,hs]
        simp only [keepSym,Bool.or_eq_true,Bool.not_eq_true',not_or,Bool.not_eq_false,
          Bool.not_eq_true] at hk
        simpa [hs ▸ h0,hk] using e1
      · rw [List.filter_cons,if_neg hk]
        exact e3
      · intro a ha hpa
        rw [List.mem_cons,not_or] at ha
        rw [e4 a ha.2 hpa,hlink a hpa]
      · intro i hi
        rw [e5 i hi]
        cases prev with
        | bucket j =>
          have hij : i≠j := fun hc => hi (by rw [hc])
          simp only [hg,Heap.store,update_of_ne hij]
        | next x => rfl

/-- The buckets hold these chains. -/
structure Heap.Table (h : Heap) (chains : Nat → List Nat) : Prop where
  linked : ∀i,i < symHashSize → Linked h.link (ptr (h.symHashTable i)) (chains i)
  nodup : ∀i,i < symHashSize → (chains i).Nodup
  apart : ∀i j,i < symHashSize → j < symHashSize → i≠j → ∀a∈chains i,a∉chains j

theorem Heap.Table.congr {h h' : Heap} {chains : Nat → List Nat} (ht : h.Table chains)
    (hh : h'.symHashTable=h.symHashTable)
    (hv : ∀i,i < symHashSize → ∀a∈chains i,h'.val a=h.val a) : h'.Table chains where
  linked i hi := by
    rw [hh]
    exact (ht.linked i hi).congr fun a ha => by rw [Heap.link,Heap.link,hv i hi a ha]
  nodup := ht.nodup
  apart := ht.apart

/-- The chains with the first n pruned. -/
def pruned (b : Layout) (m : Marks) (chains : Nat → List Nat) (n i : Nat) : List Nat :=
  if i < n then (chains i).filter (keepSym b m) else chains i

theorem pruned_sublist (chains : Nat → List Nat) (n i : Nat) :
    (pruned b m chains n i).Sublist (chains i) := by
  rw [pruned]
  split
  · exact List.filter_sublist
  · exact List.Sublist.refl _

theorem pruneTable_spec {h : Heap} {chains : Nat → List Nat} (ht : h.Table chains) {fuel : Nat}
    (hf : ∀i,i < symHashSize → (chains i).length < fuel) {n : Nat} (hn : n ≤ symHashSize) :
    ∃h',(List.range n).foldlM (fun h i => pruneChain b m fuel h (.bucket i)) h=some h' ∧
      Relinked h h' ∧ h'.Table (pruned b m chains n) ∧
      ∀a,(∀i,i < symHashSize → a∉chains i) → h'.val a=h.val a := by
  induction n with
  | zero => exact ⟨h,rfl,Relinked.refl h,ht,fun _ _ => rfl⟩
  | succ n ih =>
    obtain ⟨g,e1,e2,e3,e4⟩ := ih (by omega)
    have hcn : pruned b m chains n n=chains n := by simp [pruned]
    have hl := e3.linked n hn
    rw [hcn] at hl
    have hl' : Linked g.link (ptr (g.load (.bucket n))) (chains n) := hl
    obtain ⟨h',f1,f2,f3,f4,f5⟩ := pruneChain_spec (b := b) (m := m) hl'
      (ht.nodup n hn) (fun s _ hc => by cases hc) (hf n hn)
    refine ⟨h',?_,e2.trans f2,⟨?_,?_,?_⟩,?_⟩
    · rw [List.range_succ,List.foldlM_append,e1]
      simp [f1]
    · intro i hi
      by_cases hin : i=n
      · subst hin
        simpa [pruned,Heap.load] using f3
      · have hsame : pruned b m chains (n+1) i=pruned b m chains n i := by
          have : i < n+1 ↔ i < n := by omega
          simp only [pruned,this]
        rw [hsame,f5 i (fun hc => hin (Link.bucket.inj hc).symm)]
        refine (e3.linked i hi).congr fun a ha => ?_
        have hac := (pruned_sublist chains n i).subset ha
        rw [Heap.link,Heap.link,f4 a (ht.apart i n hi hn hin a hac) (by simp)]
    · exact fun i hi => (ht.nodup i hi).sublist (pruned_sublist chains (n+1) i)
    · intro i j hi hj hij a ha hc
      exact ht.apart i j hi hj hij a ((pruned_sublist chains (n+1) i).subset ha)
        ((pruned_sublist chains (n+1) j).subset hc)
    · intro a ha
      rw [f4 a (ha n hn) (by simp),e4 a ha]

end Symbols

end LugalOS.Lisp
