import LugalOS.Lib.Bitmap
import LugalOS.Lib.LittleEndian

namespace LugalOS.Lisp

open Bitmap LittleEndian

inductive LispType
  | lispNil
  | lispInt
  | lispString
  | lispSymbol
  | lispPair
  | lispPrimitive
  | lispLambda
  | lispMacro
  | lispBignum
  | lispRatio
  | lispVector
  | lispComplex
  deriving DecidableEq,Repr

/-- lisp_val_t: a type and the three words its union takes. -/
structure Val where
  type : LispType
  u0 : Nat
  u1 : Nat
  u2 : Nat
  deriving DecidableEq,Repr

/-! The union's members. A pair's cdr, a symbol's chain link, a vector's array and the link of a
free cell are one and the same word. -/

def Val.cdr (v : Val) : Nat := v.u1
def Val.str (v : Val) : Nat := v.u0
def Val.symNext (v : Val) : Nat := v.u1
def Val.vecLen (v : Val) : Nat := v.u0%2^32
def Val.vecElems (v : Val) : Nat := v.u1
def Val.setCdr (v : Val) (p : Nat) : Val := {v with u1 := p}
def Val.setSymNext (v : Val) (p : Nat) : Val := {v with u1 := p}
def Val.setVecElems (v : Val) (p : Nat) : Val := {v with u1 := p}

def stringSmallLen : Nat := 32
def stringSlotLen : Nat := 256
def symHashSize : Nat := 128

/-- Where a board's build puts the pools, and how large they are. A word is four bytes or eight. -/
structure Layout where
  wordSize : Nat
  nodePool : Nat
  nodePoolSize : Nat
  stringSmall : Nat
  stringSmallSlots : Nat
  stringLarge : Nat
  stringLargeSlots : Nat

namespace Layout

variable (b : Layout)

def sizeofVal : Nat := 4*b.wordSize
def nodeAt (i : Nat) : Nat := b.nodePool+i*b.sizeofVal
def inPool (v : Nat) : Bool := b.nodePool≤v && v < b.nodePool+b.nodePoolSize*b.sizeofVal
def nodeIndex (v : Nat) : Nat := (v-b.nodePool)/b.sizeofVal

/-- A bignum's limbs stand eight bytes into the union. -/
def limbs (v : Val) : Nat := if b.wordSize=8 then v.u1 else v.u2

def slotIsSmall (idx : Nat) : Bool := idx < b.stringSmallSlots

def slotAt (idx : Nat) : Nat :=
  if b.slotIsSmall idx then b.stringSmall+idx*stringSmallLen
  else b.stringLarge+(idx-b.stringSmallSlots)*stringSlotLen

def slotCapacity (idx : Nat) : Nat :=
  if b.slotIsSmall idx then stringSmallLen else stringSlotLen

/-- The slot an address lies in, anywhere inside it; none for -1. -/
def stringSlotIndex (slot : Nat) : Option Nat :=
  if slot=0 then none
  else if b.stringSmall ≤ slot ∧ slot < b.stringSmall+b.stringSmallSlots*stringSmallLen then
    some ((slot-b.stringSmall)/stringSmallLen)
  else if b.stringLarge ≤ slot ∧ slot < b.stringLarge+b.stringLargeSlots*stringSlotLen then
    some (b.stringSmallSlots+(slot-b.stringLarge)/stringSlotLen)
  else none

/-- The pools are arrays of their own, counted by C ints. -/
structure Sound : Prop where
  word : b.wordSize=4 ∨ b.wordSize=8
  pool : 0 < b.nodePool
  small : 0 < b.stringSmall
  large : 0 < b.stringLarge
  apart : b.stringSmall+b.stringSmallSlots*stringSmallLen≤b.stringLarge ∨
    b.stringLarge+b.stringLargeSlots*stringSlotLen≤b.stringSmall
  slots : b.stringSmallSlots+b.stringLargeSlots<2^31

end Layout

/-- The engine's data: the nodes by address, those outside the pool included, and the bytes of
slots and arrays. ballocFreed lists what was handed to balloc_free, the last first. -/
structure Heap where
  val : Nat → Val
  bytes : Nat → UInt8
  nodePoolIdx : Nat
  nodeFreeList : Nat
  nodeFreeCount : Int
  stringSmallIdx : Nat
  stringLargeIdx : Nat
  stringFreeHead : Int
  stringLargeFreeHead : Int
  stringSmallFreeCount : Int
  stringLargeFreeCount : Int
  symHashTable : Nat → Nat
  globalEnv : Nat
  nodePoolExhaustedWarned : Bool
  stringPoolExhaustedWarned : Bool
  ballocFreed : List Nat

/-- An int in four bytes of memory. -/
def intAt (f : Nat → UInt8) (a : Nat) : Int :=
  let n := leAt f a 4
  if n<2^31 then n else n-2^32

def putInt (f : Nat → UInt8) (a : Nat) (x : Int) : Nat → UInt8 := putLe f a 4 (x%2^32).toNat

theorem intAt_putInt (f : Nat → UInt8) (a : Nat) {x : Int} (h0 : -2^31≤x) (h1 : x<2^31) :
    intAt (putInt f a x) a=x := by
  have hlt : (x%2^32).toNat<256^4 := by omega
  simp only [intAt,putInt,leAt_putLe,Nat.mod_eq_of_lt hlt]
  split <;> omega

theorem intAt_putInt_outside (f : Nat → UInt8) {a c : Nat} (x : Int) (h : c+4≤a ∨ a+4≤c) :
    intAt (putInt f a x) c=intAt f c := by
  simp only [intAt,putInt,leAt_putLe_outside f a 4 _ c 4 h]

def Heap.slotNext (b : Layout) (h : Heap) (idx : Nat) : Int := intAt h.bytes (b.slotAt idx)

/-- The mark bitmaps and gc_work_stack, its entries below sp, the top first. -/
structure Marks where
  nodeMarkBits : Bits
  stringMarkBits : Bits
  gcWorkStack : List Nat

/-- A session parked by lisp_park: its registers and its stack's words. -/
structure Parked where
  regs : List Nat
  stack : List Nat

section Mark

variable (b : Layout) (h : Heap)

def gcMarkStringSlot (m : Marks) (slot : Nat) : Marks :=
  match b.stringSlotIndex slot with
  | none => m
  | some idx => {m with stringMarkBits := bitSet m.stringMarkBits idx}

/-- None is a store past the end of gc_work_stack. -/
def gcPush (m : Marks) (v : Nat) : Option Marks :=
  if v=0 then some m
  else if !b.inPool v then some m
  else if bitGet m.nodeMarkBits (b.nodeIndex v) then some m
  else if m.gcWorkStack.length < b.nodePoolSize then
    some {m with nodeMarkBits := bitSet m.nodeMarkBits (b.nodeIndex v)
                 gcWorkStack := v::m.gcWorkStack}
  else none

/-- The elements of a vector, from the one at address a on. -/
def gcPushElems (m : Marks) (a : Nat) : Nat → Option Marks
  | 0 => some m
  | n+1 => do
    let elem := leAt h.bytes a b.wordSize
    let m ← if elem≠0 then gcPush b m elem else some m
    gcPushElems m (a+b.wordSize) n

/-- What gc_drain does with one value: the switch over its type. -/
def gcScan (m : Marks) (v : Val) : Option Marks :=
  match v.type with
  | .lispString | .lispSymbol => some (gcMarkStringSlot b m v.str)
  | .lispBignum => some (if b.limbs v≠0 then gcMarkStringSlot b m (b.limbs v) else m)
  | .lispRatio | .lispComplex | .lispPair => do
    let m ← gcPush b m v.u0
    gcPush b m v.u1
  | .lispLambda | .lispMacro => do
    let m ← gcPush b m v.u0
    let m ← gcPush b m v.u1
    if v.u2≠0 then gcPush b m v.u2 else some m
  | .lispVector =>
    if v.vecElems≠0 then
      let m := if (b.stringSlotIndex v.vecElems).isSome then gcMarkStringSlot b m v.vecElems else m
      gcPushElems b h m v.vecElems v.vecLen
    else some m
  | .lispNil | .lispInt | .lispPrimitive => some m

/-- None when the work stack is not empty after as many turns as the fuel gives. -/
def gcDrain : Nat → Marks → Option Marks
  | 0,_ => none
  | fuel+1,m =>
    match m.gcWorkStack with
    | [] => some m
    | v::rest => (gcScan b h {m with gcWorkStack := rest} (h.val v)).bind (gcDrain fuel)

def gcPushWord (m : Marks) (w : Nat) : Option Marks :=
  if b.inPool w then gcPush b m (b.nodeAt (b.nodeIndex w)) else some (gcMarkStringSlot b m w)

/-- The words of a stack, the saved registers first, or of a parked session. -/
def gcPushWords (m : Marks) (ws : List Nat) : Option Marks := ws.foldlM (gcPushWord b) m

/-- The stack being collected from; none for the precise collection, whose stack_top is 0. -/
def gcPushStack (m : Marks) : Option (List Nat) → Option Marks
  | none => some m
  | some ws => gcPushWords b m ws

def gcPushParked (m : Marks) (parked : List Parked) : Option Marks :=
  parked.foldlM (fun m p => gcPushWords b m (p.regs++p.stack)) m

/-- Cells of the node free list marked, and counted. -/
def markFreeNodes : Nat → Nat → Bits → Int → Option (Bits×Int)
  | 0,_,_,_ => none
  | fuel+1,c,m,n =>
    if c=0 then some (m,n)
    else markFreeNodes fuel (h.val c).cdr (bitSet m (b.nodeIndex c)) (n+1)

def markFreeSlots : Nat → Int → Bits → Int → Option (Bits×Int)
  | 0,_,_,_ => none
  | fuel+1,idx,m,n =>
    if idx<0 then some (m,n)
    else markFreeSlots fuel (h.slotNext b idx.toNat) (bitSet m idx.toNat) (n+1)

end Mark

section Sweep

variable (b : Layout) (m : Marks)

/-- Where a chain of the symbol table keeps a pointer: a bucket, or a symbol's sym_next. -/
inductive Link
  | bucket (i : Nat)
  | next (s : Nat)

def Heap.load (h : Heap) : Link → Nat
  | .bucket i => h.symHashTable i
  | .next s => (h.val s).symNext

def Heap.store (h : Heap) (p : Nat) : Link → Heap
  | .bucket i => {h with symHashTable := Function.update h.symHashTable i p}
  | .next s => {h with val := Function.update h.val s ((h.val s).setSymNext p)}

/-- Unmarked symbols of one chain unlinked; prev is where the next one hangs. -/
def pruneChain : Nat → Heap → Link → Option Heap
  | 0,_,_ => none
  | fuel+1,h,prev =>
    let s := h.load prev
    if s=0 then some h
    else if !b.inPool s then pruneChain fuel h (.next s)
    else if !bitGet m.nodeMarkBits (b.nodeIndex s) then
      pruneChain fuel (h.store (h.val s).symNext prev) prev
    else pruneChain fuel h (.next s)

def pruneTable (fuel : Nat) (h : Heap) : Option Heap :=
  (List.range symHashSize).foldlM (fun h i => pruneChain b m fuel h (.bucket i)) h

def sweepNode (h : Heap) (i : Nat) : Heap :=
  if bitGet m.nodeMarkBits i then h
  else
    let a := b.nodeAt i
    let elems := (h.val a).vecElems
    let h :=
      if (h.val a).type=.lispVector ∧ elems≠0 ∧ (b.stringSlotIndex elems).isNone then
        {h with ballocFreed := elems::h.ballocFreed
                val := Function.update h.val a ((h.val a).setVecElems 0)}
      else h
    {h with val := Function.update h.val a ((h.val a).setCdr h.nodeFreeList)
            nodeFreeList := a
            nodeFreeCount := h.nodeFreeCount+1}

/-- A slot of one tier, whose list starts at head and holds n, given back if it is not marked. -/
def giveSlot (t : (Nat → UInt8)×Int×Int) (i : Nat) : (Nat → UInt8)×Int×Int :=
  let (bytes,head,n) := t
  if bitGet m.stringMarkBits i then (bytes,head,n)
  else (putInt bytes (b.slotAt i) head,i,n+1)

def sweepSmall (h : Heap) (i : Nat) : Heap :=
  let (bytes,head,n) := giveSlot b m (h.bytes,h.stringFreeHead,h.stringSmallFreeCount) i
  {h with bytes := bytes
          stringFreeHead := head
          stringSmallFreeCount := n}

def sweepLarge (h : Heap) (k : Nat) : Heap :=
  let i := b.stringSmallSlots+k
  let (bytes,head,n) := giveSlot b m (h.bytes,h.stringLargeFreeHead,h.stringLargeFreeCount) i
  {h with bytes := bytes
          stringLargeFreeHead := head
          stringLargeFreeCount := n}

def sweep (h : Heap) : Heap :=
  let h := (List.range h.nodePoolIdx).foldl (sweepNode b m) h
  let h := if h.nodeFreeList≠0 then {h with nodePoolExhaustedWarned := false} else h
  let h := (List.range h.stringSmallIdx).foldl (sweepSmall b m) h
  let h := (List.range h.stringLargeIdx).foldl (sweepLarge b m) h
  if 0≤h.stringFreeHead ∨ 0≤h.stringLargeFreeHead then
    {h with stringPoolExhaustedWarned := false}
  else h

end Sweep

section Collect

variable (b : Layout)

/-- Free cells marked beforehand, so that the sweep leaves them alone; the counts corrected. -/
def markFree (fuel : Nat) (h : Heap) : Option (Marks×Heap) := do
  let (nodes,walkedNodes) ← markFreeNodes b h fuel h.nodeFreeList (fun _ => 0) 0
  let (slots,walkedSmall) ← markFreeSlots b h fuel h.stringFreeHead (fun _ => 0) 0
  let (slots,walkedLarge) ← markFreeSlots b h fuel h.stringLargeFreeHead slots 0
  let h :=
    if walkedNodes≠h.nodeFreeCount ∨ walkedSmall≠h.stringSmallFreeCount ∨
        walkedLarge≠h.stringLargeFreeCount then
      {h with nodeFreeCount := walkedNodes
              stringSmallFreeCount := walkedSmall
              stringLargeFreeCount := walkedLarge}
    else h
  some (⟨nodes,slots,[]⟩,h)

def gcCollectFrom (fuel : Nat) (h : Heap) (stack : Option (List Nat)) (parked : List Parked) :
    Option Heap := do
  let (m,h) ← markFree b fuel h
  let m ← gcPush b m h.globalEnv
  let m ← gcPushStack b m stack
  let m ← gcPushParked b m parked
  let m ← gcDrain b h fuel m
  let h ← pruneTable b m fuel h
  some (sweep b m h)

end Collect

end LugalOS.Lisp
