import LugalOS.Lib.LittleEndian

/-! A heap of boundary tags in an arena of its owner's. A block is the offset of its header: its
size with the USED bit, and the size of the block in front; a free block's payload starts with the
links of its list. -/

namespace LugalOS.Uheap

open LittleEndian
open Function (update)

def hdr : Nat := 8
def minBlock : Nat := 16
def classes : Nat := 32

/-- What a uint32_t holds of a number. -/
def u32 (n : Nat) : Nat := n%2^32

/-- uheap_t with the bytes of its arena, each at its offset from base. -/
structure Heap where
  base : Nat
  size : Nat
  freeHead : Nat → Nat
  usedBytes : Nat
  usedBlocks : Nat
  highWater : Nat
  failCount : Nat
  mem : Nat → UInt8

namespace Heap

def word (h : Heap) (off : Nat) : Nat := leAt h.mem off 4
def setWord (h : Heap) (off v : Nat) : Heap := {h with mem := putLe h.mem off 4 v}

def blkSize (h : Heap) (b : Nat) : Nat := h.word b
def blkPrev (h : Heap) (b : Nat) : Nat := h.word (b+4)
def linkNext (h : Heap) (b : Nat) : Nat := h.word (b+8)
def linkPrevfree (h : Heap) (b : Nat) : Nat := h.word (b+12)
def setSize (h : Heap) (b v : Nat) : Heap := h.setWord b v
def setPrev (h : Heap) (b v : Nat) : Heap := h.setWord (b+4) v
def setNext (h : Heap) (b v : Nat) : Heap := h.setWord (b+8) v
def setPrevfree (h : Heap) (b v : Nat) : Heap := h.setWord (b+12) v

@[simp] theorem setSize_base (h : Heap) (b v : Nat) : (h.setSize b v).base=h.base := rfl
@[simp] theorem setSize_bytes (h : Heap) (b v : Nat) :
    (h.setSize b v).usedBytes=h.usedBytes := rfl
@[simp] theorem setSize_blocks (h : Heap) (b v : Nat) :
    (h.setSize b v).usedBlocks=h.usedBlocks := rfl
@[simp] theorem setPrev_base (h : Heap) (b v : Nat) : (h.setPrev b v).base=h.base := rfl
@[simp] theorem setPrev_bytes (h : Heap) (b v : Nat) :
    (h.setPrev b v).usedBytes=h.usedBytes := rfl
@[simp] theorem setPrev_blocks (h : Heap) (b v : Nat) :
    (h.setPrev b v).usedBlocks=h.usedBlocks := rfl

def bsize (h : Heap) (b : Nat) : Nat := h.blkSize b/2*2
def bused (h : Heap) (b : Nat) : Bool := h.blkSize b%2≠0
def nextBlk (h : Heap) (b : Nat) : Nat := b+h.bsize b

end Heap

def orUsed (s : Nat) : Nat := s/2*2+1

def clsLoop : Nat → Nat → Nat → Nat
  | 0,_,c => c
  | k+1,n,c => if n/2=0 then c else clsLoop k (n/2) (c+1)

/-- The loop ends within 32 turns, as many as n has bits. -/
def cls (n : Nat) : Nat := clsLoop 32 n 0

/-- The links that list_insert writes. -/
def linkFront (h : Heap) (b : Nat) : Heap :=
  let head := h.freeHead (cls (h.bsize b))
  let h := (h.setNext b head).setPrevfree b 0
  if head≠0 then h.setPrevfree (head-1) (b+1) else h

def listInsert (h : Heap) (b : Nat) : Heap :=
  let c := cls (h.bsize b)
  let h := linkFront h b
  {h with freeHead := update h.freeHead c (b+1)}

/-- The first half of list_remove: what leads to the block leads past it. -/
def bypass (h : Heap) (b : Nat) : Heap :=
  let c := cls (h.bsize b)
  if h.linkPrevfree b≠0 then h.setNext (h.linkPrevfree b-1) (h.linkNext b)
  else {h with freeHead := update h.freeHead c (h.linkNext b)}

def listRemove (h : Heap) (b : Nat) : Heap :=
  let h := bypass h b
  if h.linkNext b≠0 then h.setPrevfree (h.linkNext b-1) (h.linkPrevfree b) else h

section Counts

variable (h : Heap) (b : Nat)

@[simp] theorem listInsert_base : (listInsert h b).base=h.base := by
  simp only [listInsert,linkFront]
  split_ifs <;> rfl

theorem listInsert_size : (listInsert h b).size=h.size := by
  simp only [listInsert,linkFront]
  split_ifs <;> rfl

@[simp] theorem listInsert_bytes : (listInsert h b).usedBytes=h.usedBytes := by
  simp only [listInsert,linkFront]
  split_ifs <;> rfl

@[simp] theorem listInsert_blocks : (listInsert h b).usedBlocks=h.usedBlocks := by
  simp only [listInsert,linkFront]
  split_ifs <;> rfl

@[simp] theorem listRemove_base : (listRemove h b).base=h.base := by
  simp only [listRemove,bypass]
  split_ifs <;> rfl

@[simp] theorem listRemove_bytes : (listRemove h b).usedBytes=h.usedBytes := by
  simp only [listRemove,bypass]
  split_ifs <;> rfl

@[simp] theorem listRemove_blocks : (listRemove h b).usedBlocks=h.usedBlocks := by
  simp only [listRemove,bypass]
  split_ifs <;> rfl

end Counts

/-- uheap_init on an arena whose bytes are mem; none where it returns false. -/
def uheapInit (arena size : Nat) (mem : Nat → UInt8) : Option Heap :=
  if arena=0 ∨ arena%8≠0 ∨ size<64 then none
  else
    let h : Heap := ⟨arena,size/8*8,fun _ => 0,0,0,0,0,mem⟩
    let first := h.size-hdr
    let h := (h.setSize 0 first).setPrev 0 0
    let h := (h.setSize first 1).setPrev first first
    some (listInsert h 0)

/-- A block big enough for n payload bytes, in 32 bits. -/
def need (n : Nat) : Nat :=
  let t := u32 (n+hdr+7)/8*8
  if t< minBlock then minBlock else t

/-- The scan of one class. In a well-formed heap no list is longer than the arena, which bounds the
turns. -/
def scan (h : Heap) (want : Nat) : Nat → Nat → Option Nat
  | 0,_ => none
  | k+1,o =>
    if o=0 then none
    else if want≤h.bsize (o-1) then some (o-1)
    else scan h want k (h.linkNext (o-1))

def findFit (h : Heap) (want : Nat) : Option Nat :=
  let c := cls want
  match scan h want h.size (h.freeHead c) with
  | some b => some b
  | none =>
    (((List.range classes).drop (c+1)).find? fun c => h.freeHead c≠0).map fun c => h.freeHead c-1

/-- A free block of this size at t, behind one of size want. -/
def putTail (h : Heap) (t size want : Nat) : Heap :=
  let h := (h.setSize t size).setPrev t want
  h.setPrev (h.nextBlk t) (h.blkSize t)

section Counts

variable (h : Heap) (t size want : Nat)

@[simp] theorem putTail_base : (putTail h t size want).base=h.base := rfl
@[simp] theorem putTail_bytes : (putTail h t size want).usedBytes=h.usedBytes := rfl
@[simp] theorem putTail_blocks : (putTail h t size want).usedBlocks=h.usedBlocks := rfl

end Counts

def fail (h : Heap) : Heap := {h with failCount := u32 (h.failCount+1)}

def raiseHighWater (h : Heap) : Heap :=
  if h.highWater<h.usedBytes then {h with highWater := h.usedBytes} else h

/-- The block is marked as used and counted. -/
def handOut (h : Heap) (b : Nat) : Heap :=
  let h := h.setSize b (orUsed (h.blkSize b))
  raiseHighWater {h with
    usedBytes := h.usedBytes+(h.bsize b-hdr)
    usedBlocks := h.usedBlocks+1}

/-- The block found is taken, and what it has beyond want stays free. -/
def take (h : Heap) (b want : Nat) : Heap :=
  let h := listRemove h b
  let size := h.bsize b
  let h := if minBlock≤ size-want then
      listInsert ((putTail h (b+want) (size-want) want).setSize b want) (b+want)
    else h
  handOut h b

/-- The heap after it and the address returned, 0 for NULL. -/
def uheapAlloc (h : Heap) (n : Nat) : Heap × Nat :=
  if n=0 ∨ h.size<n then (if n≠0 then fail h else h,0)
  else
    match findFit h (need n) with
    | none => (fail h,0)
    | some b => (take h b (need n),h.base+b+hdr)

def owns (h : Heap) (p : Nat) : Bool :=
  h.base+hdr≤p ∧ p<h.base+h.size ∧ (p-h.base)%8=0

/-- The free block n joined to b in front of it. -/
def absorb (h : Heap) (b n : Nat) : Heap :=
  let h := h.setSize b (h.blkSize b+h.bsize n)
  h.setPrev (h.nextBlk b) (h.blkSize b)

/-- The block merges with the successor. -/
def mergeNext (h : Heap) (b : Nat) : Heap :=
  let n := h.nextBlk b
  if h.bused n then h else absorb (listRemove h n) b n

/-- The block merges with the predecessor, and what it is now goes on its list. -/
def mergePrev (h : Heap) (b : Nat) : Heap :=
  if h.blkPrev b=0 then listInsert h b
  else
    let pv := b-h.blkPrev b
    if h.bused pv then listInsert h b
    else listInsert (absorb (listRemove h pv) pv b) pv

/-- The block is no longer counted nor marked as used. -/
def release (h : Heap) (b : Nat) : Heap :=
  let h := {h with
    usedBytes := h.usedBytes-(h.bsize b-hdr)
    usedBlocks := h.usedBlocks-1}
  h.setSize b (h.bsize b)

def uheapFree (h : Heap) (p : Nat) : Heap :=
  if p=0 ∨ !owns h p then h
  else
    let b := p-hdr-h.base
    if !h.bused b then h
    else mergePrev (mergeNext (release h b) b) b

/-- The grown block gets its header, and the block behind it its size. -/
def endGrow (h : Heap) (b total : Nat) : Heap :=
  let h := h.setSize b (orUsed total)
  raiseHighWater (h.setPrev (h.nextBlk b) total)

/-- The block takes want of the total bytes that it and the free block behind it have, or all of
them. -/
def growInto (h : Heap) (b total want : Nat) : Heap :=
  if minBlock≤total-want then
    let h := listInsert (putTail h (b+want) (total-want) want) (b+want)
    endGrow {h with usedBytes := h.usedBytes-h.blkSize (b+want)} b want
  else endGrow h b total

/-- The block grows into the free block nx behind it. -/
def grow (h : Heap) (b nx want : Nat) : Heap :=
  let h := listRemove h nx
  let total := h.bsize b+h.bsize nx
  growInto {h with usedBytes := h.usedBytes+(total-h.bsize b)} b total want

/-- The loop that copies n bytes, from the first on. -/
def copyBytes (mem : Nat → UInt8) (dst src : Nat) : Nat → Nat → UInt8
  | 0 => mem
  | n+1 =>
    let mem := copyBytes mem dst src n
    update mem (dst+n) (mem (src+n))

/-- The contents at p go to a new block; NULL leaves the original untouched. -/
def moveBlock (h : Heap) (p n cur : Nat) : Heap × Nat :=
  match uheapAlloc h n with
  | (h,0) => (h,0)
  | (h,q) =>
    let h := {h with mem := copyBytes h.mem (q-h.base) (p-h.base) cur}
    (uheapFree h p,q)

def uheapRealloc (h : Heap) (p n : Nat) : Heap × Nat :=
  if p=0 then uheapAlloc h n
  else if n=0 then (uheapFree h p,0)
  else if !owns h p then (h,0)
  else
    let b := p-hdr-h.base
    if !h.bused b then (h,0)
    else
      let cur := h.bsize b-hdr
      let want := need n
      if want≤h.bsize b then (h,p)
      else
        let nx := h.nextBlk b
        if h.bused nx=false ∧ want≤h.bsize b+h.bsize nx then (grow h b nx want,p)
        else moveBlock h p n cur

def largestIn (h : Heap) : Nat → Nat → Nat → Nat
  | 0,_,best => best
  | k+1,o,best =>
    if o=0 then best
    else
      let s := h.bsize (o-1)
      let best := if best<s then s else best
      -- a corrupt link must not loop forever
      if h.size≤o then best else largestIn h k (h.linkNext (o-1)) best

def uheapLargestFree (h : Heap) : Nat :=
  let best := (List.range classes).foldl (fun best c => largestIn h h.size (h.freeHead c) best) 0
  if hdr<best then best-hdr else 0

end LugalOS.Uheap
