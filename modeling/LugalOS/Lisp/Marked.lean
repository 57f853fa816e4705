import LugalOS.Lib.Links
import LugalOS.Lib.Marking
import LugalOS.Lisp.Heap

namespace LugalOS.Lisp

open Bitmap LittleEndian Links Marking

/-- What the collector gives back or keeps: a node of the pool or a string slot, by number. -/
inductive Cell
  | node (i : Nat)
  | slot (i : Nat)
  deriving DecidableEq,Repr

namespace Layout

variable (b : Layout)

def nodeCell (v : Nat) : List Cell := if b.inPool v then [.node (b.nodeIndex v)] else []
def slotCell (a : Nat) : List Cell := (b.stringSlotIndex a).toList.map .slot

/-- What a word of a stack may point at, the middle of a node or a slot included. -/
def wordCell (w : Nat) : List Cell := if b.inPool w then b.nodeCell w else b.slotCell w

/-- A pointer to a value, where it points into the pool, points at a node. -/
def Aligned (v : Nat) : Prop := b.inPool v → v=b.nodeAt (b.nodeIndex v)

theorem Sound.sizeof_pos {b : Layout} (hb : b.Sound) : 0 < b.sizeofVal := by
  rcases hb.word with h|h <;> simp [sizeofVal,h]

theorem Sound.nodeIndex_nodeAt {b : Layout} (hb : b.Sound) (i : Nat) :
    b.nodeIndex (b.nodeAt i)=i := by
  rw [nodeIndex,nodeAt,Nat.add_sub_cancel_left,Nat.mul_div_cancel _ hb.sizeof_pos]

theorem Sound.nodeAt_inj {b : Layout} (hb : b.Sound) {i j : Nat} (h : b.nodeAt i=b.nodeAt j) :
    i=j := by
  rw [← hb.nodeIndex_nodeAt i,h,hb.nodeIndex_nodeAt]

theorem Sound.inPool_nodeAt {b : Layout} (hb : b.Sound) (i : Nat) :
    b.inPool (b.nodeAt i)=true ↔ i < b.nodePoolSize := by
  have := Nat.mul_lt_mul_right (a := b.sizeofVal) (b := i) (c := b.nodePoolSize) hb.sizeof_pos
  simp [inPool,nodeAt,this]

theorem Sound.nodeIndex_lt {b : Layout} (hb : b.Sound) {v : Nat} (h : b.inPool v=true) :
    b.nodeIndex v < b.nodePoolSize := by
  simp only [inPool,Bool.and_eq_true,decide_eq_true_eq] at h
  rw [nodeIndex,Nat.div_lt_iff_lt_mul hb.sizeof_pos]
  omega

theorem Sound.inPool_pos {b : Layout} (hb : b.Sound) {v : Nat} (h : b.inPool v=true) : v≠0 := by
  have := hb.pool
  simp only [inPool,Bool.and_eq_true,decide_eq_true_eq] at h
  omega

theorem Sound.aligned_nodeAt {b : Layout} (hb : b.Sound) (i : Nat) : b.Aligned (b.nodeAt i) :=
  fun _ => by rw [hb.nodeIndex_nodeAt]

end Layout

section Graph

variable (b : Layout) (h : Heap)

def elems (bytes : Nat → UInt8) (a : Nat) : Nat → List Nat
  | 0 => []
  | n+1 => leAt bytes a b.wordSize::elems bytes (a+b.wordSize) n

/-- The pointers to values that a value holds. -/
def Heap.pointers (v : Val) : List Nat :=
  match v.type with
  | .lispRatio | .lispComplex | .lispPair => [v.u0,v.u1]
  | .lispLambda | .lispMacro => [v.u0,v.u1,v.u2]
  | .lispVector => if v.vecElems≠0 then elems b h.bytes v.vecElems v.vecLen else []
  | .lispString | .lispSymbol | .lispBignum | .lispNil | .lispInt | .lispPrimitive => []

/-- The slot a value keeps its text, its limbs or its few elements in. -/
def Layout.storage (v : Val) : List Cell :=
  match v.type with
  | .lispString | .lispSymbol => b.slotCell v.str
  | .lispBignum => b.slotCell (b.limbs v)
  | .lispVector => b.slotCell v.vecElems
  | .lispRatio | .lispComplex | .lispPair | .lispLambda | .lispMacro | .lispNil | .lispInt
  | .lispPrimitive => []

def Heap.refs (v : Val) : List Cell := b.storage v++(h.pointers b v).flatMap b.nodeCell

def Heap.graph : Graph Cell where
  succ
    | .node i => h.refs b (h.val (b.nodeAt i))
    | .slot _ => []
  leaf
    | .node _ => false
    | .slot _ => true

theorem Heap.graph_leaf (c : Cell) (hl : (h.graph b).leaf c=true) : (h.graph b).succ c=[] := by
  cases c with
  | node i => cases hl
  | slot i => rfl

/-- The roots: global_env, the words of the stack being collected from, those of parked ones. -/
def Heap.roots (stack : Option (List Nat)) (parked : List Parked) : List Cell :=
  b.nodeCell h.globalEnv++((stack.getD []).flatMap b.wordCell++
    parked.flatMap fun p => (p.regs++p.stack).flatMap b.wordCell)

end Graph

def Marks.has (m : Marks) : Cell → Bool
  | .node i => bitGet m.nodeMarkBits i
  | .slot i => bitGet m.stringMarkBits i

def Marks.work (b : Layout) (m : Marks) : Work Cell :=
  ⟨m.has,m.gcWorkStack.map fun v => .node (b.nodeIndex v)⟩

/-- The things that can be on gc_work_stack. -/
def Layout.nodes (b : Layout) : Finset Cell := (Finset.range b.nodePoolSize).image .node

theorem Layout.card_nodes (b : Layout) : b.nodes.card=b.nodePoolSize := by
  rw [Layout.nodes,Finset.card_image_of_injective _ fun i j h => Cell.node.inj h,Finset.card_range]

section Sim

variable (b : Layout) (h : Heap) (frozen : Cell → Bool) (roots : List Cell)

/-- The bitmaps and the stack are a marking of the graph that has still to meet pend. -/
structure Sim (pend : List Cell) (m : Marks) : Prop where
  inv : Inv (h.graph b) frozen roots pend (m.work b)
  stack : ∀v∈m.gcWorkStack,b.inPool v=true ∧ v=b.nodeAt (b.nodeIndex v)

/-- What f does is to meet these cells. -/
def Meets (cells : List Cell) (f : Marks → Option Marks) : Prop :=
  ∀⦃pend m⦄,Sim b h frozen roots (cells++pend) m →
    (∀c∈cells,Reach (h.graph b) frozen roots c) →
    ∃m',f m=some m' ∧ Sim b h frozen roots pend m' ∧
      left b.nodes (m'.work b)≤left b.nodes (m.work b)

variable {b h frozen roots}

theorem Meets.nil : Meets b h frozen roots [] some :=
  fun _ m hs _ => ⟨m,rfl,hs,Nat.le_refl _⟩

theorem Meets.comp {c d : List Cell} {f g : Marks → Option Marks} (hf : Meets b h frozen roots c f)
    (hg : Meets b h frozen roots d g) :
    Meets b h frozen roots (c++d) (fun m => (f m).bind g) := by
  intro pend m hs hr
  rw [List.append_assoc] at hs
  obtain ⟨m1,h1,s1,l1⟩ := hf hs fun c hc => hr c (List.mem_append_left _ hc)
  obtain ⟨m2,h2,s2,l2⟩ := hg s1 fun c hc => hr c (List.mem_append_right _ hc)
  exact ⟨m2,by simp [h1,h2],s2,Nat.le_trans l2 l1⟩

theorem meets_push (hb : b.Sound) {v : Nat} (hv : b.Aligned v) :
    Meets b h frozen roots (b.nodeCell v) (fun m => gcPush b m v) := by
  by_cases hp : b.inPool v=true
  case neg =>
    have he : ∀m,gcPush b m v=some m := by
      intro m
      by_cases h0 : v=0 <;> simp [gcPush,h0,hp]
    have hc : b.nodeCell v=[] := by simp [Layout.nodeCell,hp]
    rw [hc,show (fun m => gcPush b m v)=some from funext he]
    exact Meets.nil
  have hc : b.nodeCell v=[.node (b.nodeIndex v)] := by simp [Layout.nodeCell,hp]
  rw [hc]
  intro pend m hs hr
  have hmem : Cell.node (b.nodeIndex v)∈b.nodes :=
    Finset.mem_image_of_mem _ (Finset.mem_range.mpr (hb.nodeIndex_lt hp))
  have hreach := hr _ (List.mem_singleton_self _)
  have hi := hs.inv.push hreach
  have hle := push_left (g := h.graph b) (w := m.work b) (s := b.nodes) (.inl hmem)
  by_cases hm : bitGet m.nodeMarkBits (b.nodeIndex v)=true
  · refine ⟨m,by simp [gcPush,hb.inPool_pos hp,hp,hm],⟨?_,hs.stack⟩,Nat.le_refl _⟩
    have he : push (h.graph b) (m.work b) (.node (b.nodeIndex v))=m.work b := by
      rw [push,if_pos (show (m.work b).marked (.node (b.nodeIndex v))=true from hm)]
    rw [he] at hi
    exact hi
  · have hroom := hs.inv.room (s := b.nodes) (by
      intro c hc
      simp only [Marks.work,List.mem_map] at hc
      obtain ⟨u,hu,rfl⟩ := hc
      exact Finset.mem_image_of_mem _ (Finset.mem_range.mpr (hb.nodeIndex_lt (hs.stack u hu).1)))
      hmem (Bool.eq_false_iff.mpr hm)
    simp only [b.card_nodes,Marks.work,List.length_map] at hroom
    set m' : Marks := {m with nodeMarkBits := bitSet m.nodeMarkBits (b.nodeIndex v)
                              gcWorkStack := v::m.gcWorkStack} with hm'
    have he : push (h.graph b) (m.work b) (.node (b.nodeIndex v))=m'.work b := by
      rw [push,if_neg (show ¬(m.work b).marked (.node (b.nodeIndex v))=true from hm)]
      simp only [Marks.work,hm',List.map_cons,Work.mk.injEq]
      refine ⟨?_,rfl⟩
      funext c
      cases c with
      | node i => by_cases hi : i=b.nodeIndex v <;> simp [Marks.has,hi]
      | slot i => simp [Marks.has]
    rw [he] at hi hle
    refine ⟨m',by simp [gcPush,hb.inPool_pos hp,hp,hm,hroom,hm'],⟨hi,?_⟩,hle⟩
    intro u hu
    rcases List.mem_cons.mp hu with rfl|hu
    · exact ⟨hp,hv hp⟩
    · exact hs.stack u hu

theorem meets_slot (a : Nat) :
    Meets b h frozen roots (b.slotCell a) (fun m => some (gcMarkStringSlot b m a)) := by
  cases hx : b.stringSlotIndex a with
  | none =>
    have hc : b.slotCell a=[] := by simp [Layout.slotCell,hx]
    rw [hc,show (fun m => some (gcMarkStringSlot b m a))=some from
      funext fun m => by simp [gcMarkStringSlot,hx]]
    exact Meets.nil
  | some idx =>
    have hc : b.slotCell a=[.slot idx] := by simp [Layout.slotCell,hx]
    rw [hc]
    intro pend m hs hr
    have hi := hs.inv.push (hr _ (List.mem_singleton_self _))
    have hle := push_left (g := h.graph b) (w := m.work b) (v := .slot idx) (s := b.nodes)
      (.inr rfl)
    have he : push (h.graph b) (m.work b) (.slot idx)=(gcMarkStringSlot b m a).work b := by
      simp only [gcMarkStringSlot,hx]
      rw [push]
      split
      · next hm =>
        rw [Marks.work,Marks.work,Work.mk.injEq]
        refine ⟨?_,rfl⟩
        funext c
        cases c with
        | node i => rfl
        | slot i =>
          by_cases hi : i=idx
          · subst hi
            rw [show m.has (.slot i)=true from hm]
            simp [Marks.has]
          · simp [Marks.has,hi]
      · simp only [Marks.work,Work.mk.injEq]
        refine ⟨?_,rfl⟩
        funext c
        cases c with
        | node i => simp [Marks.has]
        | slot i => by_cases hi : i=idx <;> simp [Marks.has,hi]
    rw [he] at hi hle
    refine ⟨_,rfl,⟨hi,?_⟩,hle⟩
    simpa [gcMarkStringSlot,hx] using hs.stack

theorem meets_pushSome (hb : b.Sound) {v : Nat} (hv : b.Aligned v) :
    Meets b h frozen roots (b.nodeCell v) (fun m => if v≠0 then gcPush b m v else some m) := by
  have he : (fun m => if v≠0 then gcPush b m v else some m)=fun m => gcPush b m v := by
    funext m
    by_cases h0 : v=0 <;> simp [gcPush,h0]
  rw [he]
  exact meets_push hb hv

theorem meets_slotSome (a : Nat) :
    Meets b h frozen roots (b.slotCell a)
      (fun m => some (if a≠0 then gcMarkStringSlot b m a else m)) := by
  have he : (fun m => some (if a≠0 then gcMarkStringSlot b m a else m))=
      fun m => some (gcMarkStringSlot b m a) := by
    funext m
    by_cases h0 : a=0 <;> simp [gcMarkStringSlot,Layout.stringSlotIndex,h0]
  rw [he]
  exact meets_slot a

theorem meets_elems (hb : b.Sound) {n : Nat} (a : Nat) (ha : ∀v∈elems b h.bytes a n,b.Aligned v) :
    Meets b h frozen roots ((elems b h.bytes a n).flatMap b.nodeCell)
      (fun m => gcPushElems b h m a n) := by
  induction n generalizing a with
  | zero => exact Meets.nil
  | succ n ih =>
    have hhead := ha _ List.mem_cons_self
    have htail := ih (a+b.wordSize) fun v hv => ha v (List.mem_cons_of_mem _ hv)
    have he : (fun m => gcPushElems b h m a (n+1))=fun m =>
        (if leAt h.bytes a b.wordSize≠0 then gcPush b m (leAt h.bytes a b.wordSize)
          else some m).bind fun m => gcPushElems b h m (a+b.wordSize) n := by
      funext m
      simp only [gcPushElems]
      split <;> rfl
    rw [he]
    exact (meets_pushSome hb hhead).comp htail

theorem meets_pair (hb : b.Sound) {p q : Nat} (hp : b.Aligned p) (hq : b.Aligned q) :
    Meets b h frozen roots ([p,q].flatMap b.nodeCell)
      (fun m => (gcPush b m p).bind fun m => gcPush b m q) := by
  simpa only [List.flatMap_cons,List.flatMap_nil,List.append_nil] using
    (meets_push hb hp).comp (meets_push hb hq)

theorem meets_vector (hb : b.Sound) {v : Val}
    (ha : ∀p∈elems b h.bytes v.vecElems v.vecLen,b.Aligned p) :
    Meets b h frozen roots
      (b.slotCell v.vecElems++(elems b h.bytes v.vecElems v.vecLen).flatMap b.nodeCell)
      (fun m => gcPushElems b h (if (b.stringSlotIndex v.vecElems).isSome then
        gcMarkStringSlot b m v.vecElems else m) v.vecElems v.vecLen) := by
  have he : (fun m => gcPushElems b h (if (b.stringSlotIndex v.vecElems).isSome then
        gcMarkStringSlot b m v.vecElems else m) v.vecElems v.vecLen)=fun m =>
      (some (gcMarkStringSlot b m v.vecElems)).bind fun m =>
        gcPushElems b h m v.vecElems v.vecLen := by
    funext m
    cases hx : b.stringSlotIndex v.vecElems <;> simp [gcMarkStringSlot,hx]
  rw [he]
  exact (meets_slot _).comp (meets_elems hb _ ha)

theorem meets_scan (hb : b.Sound) {v : Val} (ha : ∀p∈h.pointers b v,b.Aligned p) :
    Meets b h frozen roots (h.refs b v) (fun m => gcScan b h m v) := by
  unfold Heap.refs Layout.storage gcScan
  unfold Heap.pointers at ha ⊢
  cases ht : v.type <;> simp only [ht] at ha ⊢
  case lispNil | lispInt | lispPrimitive => exact Meets.nil
  case lispString | lispSymbol => simpa using meets_slot v.str
  case lispBignum => simpa using meets_slotSome (b.limbs v)
  case lispPair | lispRatio | lispComplex =>
    exact meets_pair hb (ha _ (by simp)) (ha _ (by simp))
  case lispLambda | lispMacro =>
    have h3 := (meets_push hb (ha v.u0 (by simp)) : Meets b h frozen roots _ _).comp
      ((meets_push hb (ha v.u1 (by simp))).comp (meets_pushSome hb (ha v.u2 (by simp))))
    simp only [List.flatMap_cons,List.flatMap_nil,List.append_nil,List.nil_append]
    exact h3
  case lispVector =>
    by_cases h0 : v.vecElems=0
    · have hc : b.slotCell 0=[] := rfl
      simpa [h0,hc] using Meets.nil
    · rw [if_pos h0] at ha
      simpa only [ne_eq,h0,not_false_iff,if_true] using meets_vector hb ha

theorem meets_word (hb : b.Sound) (w : Nat) :
    Meets b h frozen roots (b.wordCell w) (fun m => gcPushWord b m w) := by
  unfold Layout.wordCell gcPushWord
  by_cases hp : b.inPool w=true
  · have hc : b.nodeCell w=b.nodeCell (b.nodeAt (b.nodeIndex w)) := by
      have hi := (hb.inPool_nodeAt (b.nodeIndex w)).mpr (hb.nodeIndex_lt hp)
      simp only [Layout.nodeCell,hp,hi,if_true,hb.nodeIndex_nodeAt]
    simp only [hp,if_true,hc]
    exact meets_push hb (hb.aligned_nodeAt _)
  · simp only [hp]
    exact meets_slot w

theorem meets_fold {α : Type} {cells : α → List Cell} {f : Marks → α → Option Marks}
    (hf : ∀a,Meets b h frozen roots (cells a) (fun m => f m a)) (l : List α) :
    Meets b h frozen roots (l.flatMap cells) (fun m => l.foldlM f m) := by
  induction l with
  | nil => exact Meets.nil
  | cons a l ih => exact (hf a).comp ih

theorem meets_words (hb : b.Sound) (ws : List Nat) :
    Meets b h frozen roots (ws.flatMap b.wordCell) (fun m => gcPushWords b m ws) :=
  meets_fold (meets_word hb) ws

theorem meets_parked (hb : b.Sound) (parked : List Parked) :
    Meets b h frozen roots (parked.flatMap fun p => (p.regs++p.stack).flatMap b.wordCell)
      (fun m => gcPushParked b m parked) :=
  meets_fold (fun p => meets_words hb (p.regs++p.stack)) parked

theorem drain_spec (hb : b.Sound)
    (ha : ∀i,i < b.nodePoolSize → frozen (.node i)=false →
      ∀p∈h.pointers b (h.val (b.nodeAt i)),b.Aligned p) {fuel : Nat} {m : Marks}
    (hs : Sim b h frozen roots [] m) (hf : left b.nodes (m.work b) < fuel) :
    ∃m',gcDrain b h fuel m=some m' ∧ m'.gcWorkStack=[] ∧ Sim b h frozen roots [] m' := by
  induction fuel generalizing m with
  | zero => omega
  | succ fuel ih =>
    cases hst : m.gcWorkStack with
    | nil => exact ⟨m,by simp [gcDrain,hst],hst,hs⟩
    | cons v rest =>
      have htodo : (m.work b).todo=.node (b.nodeIndex v)::
          rest.map fun v => .node (b.nodeIndex v) := by simp [Marks.work,hst]
      obtain ⟨hp,hv⟩ := hs.stack v (by rw [hst]; exact List.mem_cons_self)
      obtain ⟨hinv,hreach⟩ := hs.inv.pop htodo
      have hnf := (hs.inv.todo (.node (b.nodeIndex v))
        (by rw [htodo]; exact List.mem_cons_self)).2.1
      have hrest : Sim b h frozen roots (h.refs b (h.val v)++[])
          {m with gcWorkStack := rest} := by
        refine ⟨?_,fun u hu => hs.stack u (by rw [hst]; exact List.mem_cons_of_mem _ hu)⟩
        rw [List.append_nil,hv]
        exact hinv
      obtain ⟨m1,h1,s1,l1⟩ := meets_scan hb (by
        rw [hv]
        exact ha _ (hb.nodeIndex_lt hp) hnf) hrest (by
        rw [hv]
        exact hreach)
      have hless : left b.nodes (Marks.work b {m with gcWorkStack := rest})+1=
          left b.nodes (m.work b) := by
        simp only [left,Marks.work,hst,List.map_cons,List.length_cons]
        rfl
      obtain ⟨m2,h2,e2,s2⟩ := ih s1 (by omega)
      exact ⟨m2,by simp [gcDrain,hst,h1,h2],e2,s2⟩

end Sim

end LugalOS.Lisp
