import LugalOS.Lisp.Swept
import Mathlib.Algebra.Order.BigOperators.Group.List

namespace LugalOS.Lisp

open Bitmap LittleEndian Links Marking

/-- The cells on the free lists: nodes by number, slots by number, a list a tier. -/
structure FreeCells where
  nodes : List Nat
  small : List Nat
  large : List Nat

def FreeCells.has (f : FreeCells) : Cell → Bool
  | .node i => decide (i∈f.nodes)
  | .slot i => decide (i∈f.small ∨ i∈f.large)

/-- The free lists hold these cells, each once, all of them handed out before. -/
structure Heap.Lists (b : Layout) (h : Heap) (f : FreeCells) : Prop where
  nodes : Linked h.link (ptr h.nodeFreeList) (f.nodes.map b.nodeAt)
  small : Linked (slotLink b h.bytes) (slotOf h.stringFreeHead) f.small
  large : Linked (slotLink b h.bytes) (slotOf h.stringLargeFreeHead) f.large
  nodup : f.nodes.Nodup ∧ f.small.Nodup ∧ f.large.Nodup
  nodesIn : ∀i∈f.nodes,i < h.nodePoolIdx
  smallIn : ∀i∈f.small,i < h.stringSmallIdx
  largeIn : ∀i∈f.large,b.stringSmallSlots ≤ i ∧ i < b.stringSmallSlots+h.stringLargeIdx
  smallHead : -2^31≤h.stringFreeHead ∧ h.stringFreeHead<2^31
  largeHead : -2^31≤h.stringLargeFreeHead ∧ h.stringLargeFreeHead<2^31

/-- A heap the collector may be run on. -/
structure Heap.Formed (b : Layout) (h : Heap) (f : FreeCells) (chains : Nat → List Nat) : Prop where
  lists : h.Lists b f
  table : h.Table chains
  pool : h.nodePoolIdx≤b.nodePoolSize
  smallPool : h.stringSmallIdx≤b.stringSmallSlots
  largePool : h.stringLargeIdx≤b.stringLargeSlots
  globalEnv : b.Aligned h.globalEnv
  aligned : ∀i,i < b.nodePoolSize → i∉f.nodes →
    ∀p∈h.pointers b (h.val (b.nodeAt i)),b.Aligned p
  symbols : ∀k,k < symHashSize → ∀a∈chains k,b.inPool a=true →
    ∃i,a=b.nodeAt i ∧ i < h.nodePoolIdx ∧ i∉f.nodes ∧ (h.val a).type=.lispSymbol
  arrays : ∀i j,i < h.nodePoolIdx → j < h.nodePoolIdx → i∉f.nodes → j∉f.nodes → ∀a,
    b.largeArray (h.val (b.nodeAt i))=some a → b.largeArray (h.val (b.nodeAt j))=some a → i=j

/-- What is alive: what the roots lead to, past no free cell. -/
def Heap.Live (b : Layout) (h : Heap) (f : FreeCells) (roots : List Cell) : Cell → Prop :=
  Reach (h.graph b) f.has roots

/-- The collected heap h' against the heap h that it was, with these cells alive. -/
structure Collected (b : Layout) (h : Heap) (f : FreeCells) (chains : Nat → List Nat)
    (live : Cell → Prop) (h' : Heap) (f' : FreeCells) (chains' : Nat → List Nat) : Prop where
  nodes_kept : ∀i,i < b.nodePoolSize → live (.node i) → h'.val (b.nodeAt i)=h.val (b.nodeAt i) ∨
    (h.val (b.nodeAt i)).type=.lispSymbol ∧ (∃k,k < symHashSize ∧ b.nodeAt i∈chains k) ∧
      ∃p,h'.val (b.nodeAt i)=(h.val (b.nodeAt i)).setSymNext p
  slots_kept : ∀i,i < b.stringSmallSlots+b.stringLargeSlots → live (.slot i) →
    ∀k,k < b.slotCapacity i → h'.bytes (b.slotAt i+k)=h.bytes (b.slotAt i+k)
  memory_kept : ∀a,(∀i,i < b.stringSmallSlots+b.stringLargeSlots →
    a < b.slotAt i ∨ b.slotAt i+b.slotCapacity i≤a) → h'.bytes a=h.bytes a
  lists : h'.Lists b f'
  nodes_freed : ∀i,i∈f'.nodes ↔ i∈f.nodes ∨ i < h.nodePoolIdx ∧ ¬live (.node i)
  small_freed : ∀i,i∈f'.small ↔ i∈f.small ∨ i < h.stringSmallIdx ∧ ¬live (.slot i)
  large_freed : ∀k,b.stringSmallSlots+k∈f'.large ↔ b.stringSmallSlots+k∈f.large ∨
    k < h.stringLargeIdx ∧ ¬live (.slot (b.stringSmallSlots+k))
  counts : h'.nodeFreeCount=f'.nodes.length ∧ h'.stringSmallFreeCount=f'.small.length ∧
    h'.stringLargeFreeCount=f'.large.length
  arrays_freed : ∃as,h'.ballocFreed=as++h.ballocFreed ∧ as.Nodup ∧
    ∀a,a∈as ↔ ∃i,i < h.nodePoolIdx ∧ i∉f.nodes ∧ ¬live (.node i) ∧
      b.largeArray (h.val (b.nodeAt i))=some a
  table : h'.Table chains'
  symbols : ∀k,k < symHashSize → (chains' k).Sublist (chains k) ∧ ∀a∈chains k,
    a∈chains' k ↔ b.inPool a=false ∨ live (.node (b.nodeIndex a))
  rest : h'.globalEnv=h.globalEnv ∧ h'.nodePoolIdx=h.nodePoolIdx ∧
    h'.stringSmallIdx=h.stringSmallIdx ∧ h'.stringLargeIdx=h.stringLargeIdx

section Marking

variable {b : Layout} {h : Heap} {f : FreeCells} {chains : Nat → List Nat}

/-- The heap with its counters set to the lengths of the lists. -/
def Heap.counted (h : Heap) (f : FreeCells) : Heap :=
  {h with nodeFreeCount := f.nodes.length
          stringSmallFreeCount := f.small.length
          stringLargeFreeCount := f.large.length}

theorem Heap.Formed.counted (hw : h.Formed b f chains) : (h.counted f).Formed b f chains where
  lists := ⟨hw.lists.nodes,hw.lists.small,hw.lists.large,hw.lists.nodup,hw.lists.nodesIn,
    hw.lists.smallIn,hw.lists.largeIn,hw.lists.smallHead,hw.lists.largeHead⟩
  table := ⟨hw.table.linked,hw.table.nodup,hw.table.apart⟩
  pool := hw.pool
  smallPool := hw.smallPool
  largePool := hw.largePool
  globalEnv := hw.globalEnv
  aligned := hw.aligned
  symbols := hw.symbols
  arrays := hw.arrays

theorem markFree_spec (hb : b.Sound) (hl : h.Lists b f) {fuel : Nat}
    (hf : f.nodes.length < fuel ∧ f.small.length < fuel ∧ f.large.length < fuel) :
    ∃m,markFree b fuel h=some (m,h.counted f) ∧ m.work b=⟨f.has,[]⟩ ∧ m.gcWorkStack=[] := by
  obtain ⟨hn,hs,hlg⟩ := hf
  refine ⟨⟨f.nodes.foldl bitSet fun _ => 0,f.large.foldl bitSet (f.small.foldl bitSet fun _ => 0),
    []⟩,?_,?_,rfl⟩
  · simp only [markFree,markFreeNodes_spec hb _ _ hl.nodes hn,
      markFreeSlots_spec _ _ hl.small hs,markFreeSlots_spec _ _ hl.large hlg,Option.bind_eq_bind,
      Option.bind_some,zero_add]
    split
    · rfl
    · next hc =>
      simp only [ne_eq,not_or,not_not] at hc
      rw [Heap.counted,hc.1,hc.2.1,hc.2.2]
  · rw [Marks.work,Work.mk.injEq]
    refine ⟨?_,rfl⟩
    have h0 : ∀j,bitGet (fun _ => 0) j=false := fun j => by
      rw [bitGet_eq]
      simp
    funext c
    cases c with
    | node i => simp [Marks.has,FreeCells.has,bitGet_foldl,h0]
    | slot i =>
      simp only [Marks.has,FreeCells.has,bitGet_foldl,h0,Bool.or_false,Bool.decide_or]
      exact Bool.or_comm _ _

theorem mark_spec (hb : b.Sound) (hw : h.Formed b f chains) (stack : Option (List Nat))
    (parked : List Parked) {fuel : Nat} (hf : b.nodePoolSize < fuel) {m0 : Marks}
    (h0 : m0.work b=⟨f.has,[]⟩) (hs0 : m0.gcWorkStack=[]) :
    ∃m',((gcPush b m0 h.globalEnv).bind fun m => (gcPushStack b m stack).bind fun m =>
      (gcPushParked b m parked).bind fun m => gcDrain b h fuel m)=some m' ∧
      ∀c,m'.has c=true ↔ f.has c=true ∨ h.Live b f (h.roots b stack parked) c := by
  have hstack : Meets b h f.has (h.roots b stack parked) ((stack.getD []).flatMap b.wordCell)
      (fun m => gcPushStack b m stack) := by
    cases stack with
    | none => exact Meets.nil
    | some ws => exact meets_words hb ws
  have hall := (meets_push hb hw.globalEnv :
    Meets b h f.has (h.roots b stack parked) _ _).comp (hstack.comp (meets_parked hb parked))
  have hinit : Sim b h f.has (h.roots b stack parked) (h.roots b stack parked++[]) m0 := by
    refine ⟨?_,fun v hv => by rw [hs0] at hv; cases hv⟩
    rw [List.append_nil,h0]
    exact inv_init
  obtain ⟨m1,e1,s1,l1⟩ := hall hinit fun c hc => Reach.root hc
  have hleft : left b.nodes (m0.work b)≤b.nodePoolSize := by
    rw [left,h0,← b.card_nodes]
    simpa using Finset.card_filter_le b.nodes fun c => f.has c=false
  obtain ⟨m2,e2,st2,s2⟩ := drain_spec hb (fun i hi hfr => hw.aligned i hi (by
    simpa [FreeCells.has] using hfr)) s1 (by omega : left b.nodes (m1.work b) < fuel)
  refine ⟨m2,?_,?_⟩
  · simp only [← Option.bind_assoc] at e1 ⊢
    rw [e1]
    exact e2
  · exact s2.inv.done (by simp [Marks.work,st2]) (h.graph_leaf b)

end Marking

section Sweeping

variable {b : Layout} {h : Heap} {f : FreeCells} {chains : Nat → List Nat} {m : Marks}
  {live : Cell → Prop}

theorem Heap.Formed.pruned (hb : b.Sound) (hw : h.Formed b f chains) {g : Heap} (hr : Relinked h g)
    (hv : ∀a,(∀k,k < symHashSize → a∉chains k) → g.val a=h.val a) :
    g.Lists b f ∧ ∀i,i < b.nodePoolSize →
      (g.val (b.nodeAt i)=h.val (b.nodeAt i) ∨ (h.val (b.nodeAt i)).type=.lispSymbol ∧
        (∃k,k < symHashSize ∧ b.nodeAt i∈chains k) ∧
        ∃p,g.val (b.nodeAt i)=(h.val (b.nodeAt i)).setSymNext p) := by
  obtain ⟨hval,v,t,rfl⟩ := hr
  have hl := hw.lists
  have hfree : ∀i∈f.nodes,∀k,k < symHashSize → b.nodeAt i∉chains k := by
    intro i hi k hk ha
    have hip := (hb.inPool_nodeAt i).mpr (Nat.lt_of_lt_of_le (hl.nodesIn i hi) hw.pool)
    obtain ⟨j,he,-,hj,-⟩ := hw.symbols k hk _ ha hip
    exact hj (hb.nodeAt_inj he ▸ hi)
  constructor
  · refine ⟨?_,hl.small,hl.large,hl.nodup,hl.nodesIn,hl.smallIn,hl.largeIn,hl.smallHead,
      hl.largeHead⟩
    refine hl.nodes.congr fun a ha => ?_
    obtain ⟨i,hi,rfl⟩ := List.mem_map.mp ha
    rw [Heap.link,Heap.link,hv _ (hfree i hi)]
  · intro i hi
    by_cases hin : ∃k,k < symHashSize ∧ b.nodeAt i∈chains k
    · obtain ⟨k,hk,ha⟩ := hin
      obtain ⟨j,-,-,-,hs⟩ := hw.symbols k hk _ ha ((hb.inPool_nodeAt i).mpr hi)
      exact .inr ⟨hs,⟨k,hk,ha⟩,_,hval _⟩
    · exact .inl (hv _ fun k hk ha => hin ⟨k,hk,ha⟩)

theorem largeArray_symbol {v : Val} (hv : v.type=.lispSymbol) : b.largeArray v=none := by
  simp [Layout.largeArray,hv]

theorem sweep_spec (hb : b.Sound) (hw : h.Formed b f chains)
    (hc : h.nodeFreeCount=f.nodes.length ∧ h.stringSmallFreeCount=f.small.length ∧
      h.stringLargeFreeCount=f.large.length)
    (hm : ∀c,m.has c=true ↔ f.has c=true ∨ live c) {g : Heap} (hr : Relinked h g)
    (hv : ∀a,(∀k,k < symHashSize → a∉chains k) → g.val a=h.val a)
    (ht : g.Table (pruned b m chains symHashSize)) :
    ∃f' chains',Collected b h f chains live (sweep b m g) f' chains' := by
  obtain ⟨hl,hsym⟩ := hw.pruned hb hr hv
  have harr : ∀i,i < b.nodePoolSize →
      b.largeArray (g.val (b.nodeAt i))=b.largeArray (h.val (b.nodeAt i)) := by
    intro i hi
    rcases hsym i hi with he|⟨hs,-,p,he⟩
    · rw [he]
    · rw [he,largeArray_symbol hs,largeArray_symbol (v := Val.setSymNext _ p) hs]
  obtain ⟨-,v,t,rfl⟩ := hr
  have hnode : ∀i,bitGet m.nodeMarkBits i=true ↔ i∈f.nodes ∨ live (.node i) := by
    intro i
    simpa [Marks.has,FreeCells.has] using hm (.node i)
  have hslot : ∀i,bitGet m.stringMarkBits i=true ↔ (i∈f.small ∨ i∈f.large) ∨ live (.slot i) := by
    intro i
    simpa [Marks.has,FreeCells.has] using hm (.slot i)
  -- the nodes
  have hN := sweptNodes (m := m) hb hl.nodes (fun i hi => (hnode i).mpr (.inl hi)) h.nodePoolIdx
  obtain ⟨v3,l3,c3,f3,e3⟩ := hN.rest
  have hdead : ∀i,i∈deadNodes m h.nodePoolIdx ↔
      i < h.nodePoolIdx ∧ i∉f.nodes ∧ ¬live (.node i) := by
    intro i
    rw [mem_deadNodes,Bool.eq_false_iff,ne_eq,hnode,not_or]
  -- the slots
  have hsmallIn : ∀i∈List.range h.stringSmallIdx,i < b.stringSmallSlots+b.stringLargeSlots := by
    intro i hi
    have := List.mem_range.mp hi
    have := hw.smallPool
    omega
  have hlargeIn : ∀i∈(List.range h.stringLargeIdx).map (b.stringSmallSlots+·),
      i < b.stringSmallSlots+b.stringLargeSlots := by
    intro i hi
    obtain ⟨k,hk,rfl⟩ := List.mem_map.mp hi
    have := List.mem_range.mp hk
    have := hw.largePool
    omega
  have hsmallFree : ∀i∈f.small,bitGet m.stringMarkBits i=true ∧
      i < b.stringSmallSlots+b.stringLargeSlots := by
    intro i hi
    have : i < h.stringSmallIdx := hl.smallIn i hi
    have := hw.smallPool
    exact ⟨(hslot i).mpr (.inl (.inl hi)),by omega⟩
  have hlargeFree : ∀i∈f.large,bitGet m.stringMarkBits i=true ∧
      i < b.stringSmallSlots+b.stringLargeSlots := by
    intro i hi
    have : b.stringSmallSlots ≤ i ∧ i < b.stringSmallSlots+h.stringLargeIdx := hl.largeIn i hi
    have := hw.largePool
    exact ⟨(hslot i).mpr (.inl (.inr hi)),by omega⟩
  have hS := givenSlots (m := m) hb h.stringSmallFreeCount hl.small hl.smallHead hsmallFree
    List.nodup_range hsmallIn
  set s := (List.range h.stringSmallIdx).foldl (giveSlot b m)
    (h.bytes,h.stringFreeHead,h.stringSmallFreeCount) with hs
  have hlarge' : Linked (slotLink b s.1) (slotOf h.stringLargeFreeHead) f.large := by
    refine hl.large.congr fun i hi => slotLink_congr fun k hk => ?_
    refine hS.slot_kept hb hsmallIn (hlargeFree i hi).2 ?_ hk
    rw [mem_deadSlots,(hlargeFree i hi).1]
    simp
  have hT := givenSlots (m := m) hb h.stringLargeFreeCount hlarge' hl.largeHead hlargeFree
    (List.nodup_range.map fun i j hij => Nat.add_left_cancel hij) hlargeIn
  set t' := ((List.range h.stringLargeIdx).map (b.stringSmallSlots+·)).foldl (giveSlot b m)
    (s.1,h.stringLargeFreeHead,h.stringLargeFreeCount) with ht'
  have hsmall' : Linked (slotLink b t'.1) (slotOf s.2.1)
      (deadSlots m (List.range h.stringSmallIdx)++f.small) := by
    refine hS.free.congr fun i hi => slotLink_congr fun k hk => ?_
    rcases List.mem_append.mp hi with hi|hi
    · obtain ⟨hi,-⟩ := mem_deadSlots.mp hi
      refine hT.slot_kept hb hlargeIn (hsmallIn i hi) ?_ hk
      rw [mem_deadSlots,List.mem_map]
      rintro ⟨⟨k,-,he⟩,-⟩
      have := List.mem_range.mp hi
      have := hw.smallPool
      omega
    · refine hT.slot_kept hb hlargeIn (hsmallFree i hi).2 ?_ hk
      rw [mem_deadSlots,(hsmallFree i hi).1]
      simp
  obtain ⟨w1,w2,e⟩ := sweep_eq _ e3
  refine ⟨⟨deadNodes m h.nodePoolIdx++f.nodes,deadSlots m (List.range h.stringSmallIdx)++f.small,
    deadSlots m ((List.range h.stringLargeIdx).map (b.stringSmallSlots+·))++f.large⟩,
    pruned b m chains symHashSize,?_⟩
  rw [e]
  have hval3 : ∀a,(∀i∈deadNodes m h.nodePoolIdx,a≠b.nodeAt i) → v3 a=v a := by
    intro a ha
    have := hN.kept a ha
    rwa [e3] at this
  have hslotKept : ∀i,i < b.stringSmallSlots+b.stringLargeSlots → bitGet m.stringMarkBits i=true →
      ∀k,k < b.slotCapacity i → t'.1 (b.slotAt i+k)=h.bytes (b.slotAt i+k) := by
    intro i hi hmk k hk
    rw [hT.slot_kept hb hlargeIn hi (by rw [mem_deadSlots,hmk]; simp) hk,
      hS.slot_kept hb hsmallIn hi (by rw [mem_deadSlots,hmk]; simp) hk]
  have hlargeMem : ∀k,b.stringSmallSlots+k∈(List.range h.stringLargeIdx).map
      (b.stringSmallSlots+·) ↔ k < h.stringLargeIdx := by
    intro k
    simp
  have hdeadIn : ∀i∈deadNodes m h.nodePoolIdx,i < b.nodePoolSize :=
    fun i hi => Nat.lt_of_lt_of_le ((hdead i).mp hi).1 hw.pool
  constructor
  case nodes_kept =>
    intro i hi hlive
    have he : v3 (b.nodeAt i)=v (b.nodeAt i) := by
      refine hval3 _ fun j hj hc => ?_
      rw [hb.nodeAt_inj hc] at hlive
      exact ((hdead j).mp hj).2.2 hlive
    simp only [he]
    exact hsym i hi
  case slots_kept =>
    intro i hi hlive
    exact hslotKept i hi ((hslot i).mpr (.inr hlive))
  case memory_kept =>
    intro a ha
    have hout : ∀{is : List Nat},(∀i∈is,i < b.stringSmallSlots+b.stringLargeSlots) →
        ∀i∈deadSlots m is,a < b.slotAt i ∨ b.slotAt i+4≤a := by
      intro is his i hi
      have := ha i (his i (mem_deadSlots.mp hi).1)
      have := b.four_le_slotCapacity i
      omega
    exact (hT.kept a (hout hlargeIn)).trans (hS.kept a (hout hsmallIn))
  case lists =>
    refine ⟨?_,hsmall',hT.free,⟨?_,?_,?_⟩,?_,?_,?_,hS.head,hT.head⟩
    · have := hN.free
      rwa [e3] at this
    · refine List.nodup_append.mpr ⟨deadNodes_nodup _,hl.nodup.1,?_⟩
      rintro i hi j hj rfl
      exact ((hdead i).mp hi).2.1 hj
    · refine List.nodup_append.mpr ⟨deadSlots_nodup List.nodup_range,hl.nodup.2.1,?_⟩
      rintro i hi j hj rfl
      have := (mem_deadSlots.mp hi).2
      rw [(hsmallFree i hj).1] at this
      cases this
    · refine List.nodup_append.mpr ⟨deadSlots_nodup (List.nodup_range.map fun i j hij =>
        Nat.add_left_cancel hij),hl.nodup.2.2,?_⟩
      rintro i hi j hj rfl
      have := (mem_deadSlots.mp hi).2
      rw [(hlargeFree i hj).1] at this
      cases this
    · intro i hi
      rcases List.mem_append.mp hi with hi|hi
      · exact ((hdead i).mp hi).1
      · exact hl.nodesIn i hi
    · intro i hi
      rcases List.mem_append.mp hi with hi|hi
      · exact List.mem_range.mp (mem_deadSlots.mp hi).1
      · exact hl.smallIn i hi
    · intro i hi
      rcases List.mem_append.mp hi with hi|hi
      · obtain ⟨k,hk,rfl⟩ := List.mem_map.mp (mem_deadSlots.mp hi).1
        have := List.mem_range.mp hk
        exact ⟨Nat.le_add_right _ _,Nat.add_lt_add_left this _⟩
      · exact hl.largeIn i hi
  case nodes_freed =>
    intro i
    simp only [List.mem_append,hdead]
    tauto
  case small_freed =>
    intro i
    simp only [List.mem_append,mem_deadSlots,List.mem_range,Bool.eq_false_iff,ne_eq,hslot]
    constructor
    · tauto
    · rintro (hi|⟨hi,hn⟩)
      · exact .inr hi
      · by_cases hf : i∈f.small
        · exact .inr hf
        · refine .inl ⟨hi,?_⟩
          rintro ((hc|hc)|hc)
          · exact hf hc
          · have : b.stringSmallSlots ≤ i := (hl.largeIn i hc).1
            have := hw.smallPool
            omega
          · exact hn hc
  case large_freed =>
    intro k
    simp only [List.mem_append,mem_deadSlots,hlargeMem,Bool.eq_false_iff,ne_eq,hslot]
    constructor
    · tauto
    · rintro (hi|⟨hi,hn⟩)
      · exact .inr hi
      · by_cases hf : b.stringSmallSlots+k∈f.large
        · exact .inr hf
        · refine .inl ⟨hi,?_⟩
          rintro ((hc|hc)|hc)
          · have : b.stringSmallSlots+k < h.stringSmallIdx := hl.smallIn _ hc
            have := hw.smallPool
            omega
          · exact hf hc
          · exact hn hc
  case counts =>
    have hn : c3=h.nodeFreeCount+(deadNodes m h.nodePoolIdx).length := by
      have := hN.count
      rwa [e3] at this
    have hs2 := hS.count
    have ht2 := hT.count
    have h1 : c3=((deadNodes m h.nodePoolIdx++f.nodes).length : Int) := by
      rw [List.length_append]
      omega
    have h2 : s.2.2=((deadSlots m (List.range h.stringSmallIdx)++f.small).length : Int) := by
      rw [List.length_append]
      omega
    have h3 : t'.2.2=((deadSlots m ((List.range h.stringLargeIdx).map
        (b.stringSmallSlots+·))++f.large).length : Int) := by
      rw [List.length_append]
      omega
    exact ⟨h1,h2,h3⟩
  case arrays_freed =>
    have ha := hN.arrays
    rw [e3] at ha
    have hmap : (deadNodes m h.nodePoolIdx).filterMap (fun i => b.largeArray (v (b.nodeAt i)))=
        (deadNodes m h.nodePoolIdx).filterMap (fun i => b.largeArray (h.val (b.nodeAt i))) :=
      List.filterMap_congr fun i hi => harr i (hdeadIn i hi)
    refine ⟨_,ha,?_,?_⟩
    · simp only [hmap]
      refine List.Pairwise.filterMap (R := fun i j => i∈deadNodes m h.nodePoolIdx ∧
        j∈deadNodes m h.nodePoolIdx ∧ i≠j) _ ?_ (List.Pairwise.and_mem.mp (deadNodes_nodup _))
      rintro i j ⟨hi,hj,hij⟩ a hai _ haj rfl
      rw [hdead] at hi hj
      exact hij (hw.arrays i j hi.1 hj.1 hi.2.1 hj.2.1 a hai haj)
    · intro a
      simp only [hmap,List.mem_filterMap,hdead,and_assoc]
  case table =>
    refine ht.congr rfl fun k hk a ha => hval3 a ?_
    rintro i hi rfl
    rw [pruned,if_pos hk,List.mem_filter,keepSym,hb.nodeIndex_nodeAt] at ha
    have hp := (hb.inPool_nodeAt i).mpr (hdeadIn i hi)
    have hmk := (mem_deadNodes.mp hi).2
    rw [hp,hmk] at ha
    simp at ha
  case symbols =>
    intro k hk
    refine ⟨pruned_sublist chains symHashSize k,fun a ha => ?_⟩
    rw [pruned,if_pos hk,List.mem_filter,keepSym,Bool.or_eq_true,Bool.not_eq_true',hnode]
    simp only [ha,true_and]
    by_cases hp : b.inPool a=true
    · obtain ⟨i,rfl,-,hi,-⟩ := hw.symbols k hk a ha hp
      rw [hb.nodeIndex_nodeAt]
      simp only [hi,false_or]
    · simp [hp]
  case rest => exact ⟨rfl,rfl,rfl,rfl⟩

end Sweeping

/-- The steps that each loop of a collection may take. -/
def collectSteps (b : Layout) (f : FreeCells) (chains : Nat → List Nat) : Nat :=
  b.nodePoolSize+f.nodes.length+f.small.length+f.large.length+
    ((List.range symHashSize).map fun k => (chains k).length).sum+1

theorem collectSteps_chain (b : Layout) (f : FreeCells) (chains : Nat → List Nat) {k : Nat}
    (hk : k < symHashSize) : (chains k).length < collectSteps b f chains := by
  have hm : (chains k).length∈(List.range symHashSize).map fun k => (chains k).length :=
    List.mem_map_of_mem (List.mem_range.mpr hk)
  have := List.le_sum_of_mem hm
  rw [collectSteps]
  omega

/-- For any heap, free lists, roots and symbol table a collection ends, with no push past the end
of the work stack. What the roots lead to is as it was, except that a symbol's link in its chain
passes over what left the table; all other allocated cells are on the lists of their kind. -/
theorem collector {b : Layout} (hb : b.Sound) {h : Heap} {f : FreeCells} {chains : Nat → List Nat}
    (hw : h.Formed b f chains) (stack : Option (List Nat)) (parked : List Parked) {fuel : Nat}
    (hf : collectSteps b f chains≤fuel) :
    ∃h' f' chains',gcCollectFrom b fuel h stack parked=some h' ∧
      Collected b h f chains (h.Live b f (h.roots b stack parked)) h' f' chains' := by
  have hsteps : b.nodePoolSize < fuel ∧ f.nodes.length < fuel ∧ f.small.length < fuel ∧
      f.large.length < fuel := by
    rw [collectSteps] at hf
    omega
  obtain ⟨m0,e0,hwork,hst⟩ := markFree_spec hb hw.lists hsteps.2
  have hw' := hw.counted
  obtain ⟨m,e1,hm⟩ := mark_spec hb hw' stack parked hsteps.1 hwork hst
  obtain ⟨g,e2,hr,ht,hv⟩ := pruneTable_spec (b := b) (m := m) hw'.table
    (show ∀k,k < symHashSize → (chains k).length < fuel from
      fun k hk => Nat.lt_of_lt_of_le (collectSteps_chain b f chains hk) hf) (Nat.le_refl _)
  obtain ⟨f',chains',hc⟩ := sweep_spec hb hw' ⟨rfl,rfl,rfl⟩ hm hr hv ht
  refine ⟨sweep b m g,f',chains',?_,⟨hc.nodes_kept,hc.slots_kept,hc.memory_kept,hc.lists,
    hc.nodes_freed,hc.small_freed,hc.large_freed,hc.counts,hc.arrays_freed,hc.table,hc.symbols,
    hc.rest⟩⟩
  simp only [gcCollectFrom,e0,Option.bind_eq_bind,Option.bind_some]
  simp only [← Option.bind_assoc] at e1 ⊢
  rw [e1]
  simp only [Option.bind_some]
  rw [pruneTable,e2]
  rfl

/-- A pool of three nodes and of two slots. -/
def threeNodes : Layout := ⟨8,4096,3,8192,1,12288,1⟩

theorem threeNodes_sound : threeNodes.Sound := ⟨.inr rfl,by decide,by decide,by decide,by decide,
  by decide⟩

/-- Two symbols in one chain, the first of them global_env, and a pair that holds itself. -/
def twoSymbols : Heap where
  val a :=
    if a=4096 then ⟨.lispSymbol,8192,4128,0⟩
    else if a=4128 then ⟨.lispSymbol,0,0,0⟩
    else if a=4160 then ⟨.lispPair,4160,4160,0⟩
    else ⟨.lispNil,0,0,0⟩
  bytes _ := 0
  nodePoolIdx := 3
  nodeFreeList := 0
  nodeFreeCount := 0
  stringSmallIdx := 1
  stringLargeIdx := 1
  stringFreeHead := -1
  stringLargeFreeHead := -1
  stringSmallFreeCount := 0
  stringLargeFreeCount := 0
  symHashTable k := if k=0 then 4096 else 0
  globalEnv := 4096
  nodePoolExhaustedWarned := false
  stringPoolExhaustedWarned := false
  ballocFreed := []

def noneFree : FreeCells := ⟨[],[],[]⟩
def oneChain (k : Nat) : List Nat := if k=0 then [4096,4128] else []

theorem twoSymbols_formed : twoSymbols.Formed threeNodes noneFree oneChain where
  lists := ⟨rfl,rfl,rfl,by decide,by decide,by decide,by decide,by decide,by decide⟩
  table := by
    refine ⟨?_,?_,?_⟩
    · intro k _
      by_cases hk : k=0
      · subst hk
        exact ⟨rfl,rfl,rfl⟩
      · simp [oneChain,hk,twoSymbols,Linked,ptr]
    · intro k _
      by_cases hk : k=0 <;> simp [oneChain,hk]
    · intro i j _ _ hij a ha
      by_cases hi : i=0
      · simp [oneChain,show j≠0 by omega]
      · simp [oneChain,hi] at ha
  pool := by decide
  smallPool := by decide
  largePool := by decide
  globalEnv _ := by decide
  aligned := by
    intro i hi _ p hp
    have : i=0 ∨ i=1 ∨ i=2 := by simp only [threeNodes] at hi; omega
    rcases this with rfl|rfl|rfl
    · cases hp
    · cases hp
    · rw [show twoSymbols.pointers threeNodes (twoSymbols.val (threeNodes.nodeAt 2))=[4160,4160]
        from rfl] at hp
      have : p=4160 := by simpa using hp
      subst this
      exact fun _ => by decide
  symbols := by
    intro k _ a ha _
    by_cases hk : k=0
    · have : a=4096 ∨ a=4128 := by simpa [oneChain,hk] using ha
      rcases this with rfl|rfl
      · exact ⟨0,by decide,by decide,by decide,rfl⟩
      · exact ⟨1,by decide,by decide,by decide,rfl⟩
    · simp [oneChain,hk] at ha
  arrays := by
    intro i j hi _ _ _ a ha _
    have : i=0 ∨ i=1 ∨ i=2 := by simp only [twoSymbols] at hi; omega
    rcases this with rfl|rfl|rfl <;> cases ha

theorem collector_twoSymbols : ∃h' f' chains',
    gcCollectFrom threeNodes (collectSteps threeNodes noneFree oneChain) twoSymbols none []=
      some h' ∧
    Collected threeNodes twoSymbols noneFree oneChain
      (twoSymbols.Live threeNodes noneFree (twoSymbols.roots threeNodes none [])) h' f' chains' :=
  collector threeNodes_sound twoSymbols_formed none [] (Nat.le_refl _)

/-- The second symbol leaves the table, so the first, though a root, is not left unchanged. -/
theorem symbol_relinked : threeNodes.Sound ∧ twoSymbols.Formed threeNodes noneFree oneChain ∧
    twoSymbols.Live threeNodes noneFree (twoSymbols.roots threeNodes none []) (.node 0) ∧
    ∃h',gcCollectFrom threeNodes 8 twoSymbols none []=some h' ∧
      h'.val (threeNodes.nodeAt 0)≠twoSymbols.val (threeNodes.nodeAt 0) := by
  refine ⟨threeNodes_sound,twoSymbols_formed,Reach.root (by decide),?_⟩
  have hrun : (gcCollectFrom threeNodes 8 twoSymbols none []).map (·.val 4096)=
      some ⟨.lispSymbol,8192,0,0⟩ := by decide +kernel
  obtain ⟨h',e,hv⟩ := Option.map_eq_some_iff.mp hrun
  refine ⟨h',e,?_⟩
  rw [show h'.val (threeNodes.nodeAt 0)=⟨.lispSymbol,8192,0,0⟩ from hv]
  decide

end LugalOS.Lisp
