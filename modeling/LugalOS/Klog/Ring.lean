import LugalOS.Lib.CString
import LugalOS.Lib.Ring

namespace LugalOS.Klog

open CString LittleEndian RingStream

def klogRecMax : Nat := 320
def klogBlobMax : Nat := 64
def klogHdrLen : Nat := 6
def klogNoTs : UInt32 := 0xFFFFFFFF

/-- Flags in the stored length word. -/
def klogFOnConsole : Nat := 0x8000
def klogFTokenised : Nat := 0x4000
def klogLenMask : Nat := 0x3FFF

/-- What is fixed when the kernel is built: the ring's size, the size of a pointer, and what
printk_render makes of a format and a captured blob. -/
structure Build where
  ringSize : Nat
  ptrSize : Nat
  render : Fin (256^ptrSize) → Bytes → Bytes
  hptr : ptrSize=4 ∨ ptrSize=8

/-- klog.c's state: the ring, and the four positions, 64 bits each. -/
structure Log where
  ring : Nat → UInt8
  storedTotal : Nat
  storedOldest : Nat
  renderTotal : Nat
  renderOldest : Nat
  truncations : UInt32
  drops : UInt32

def Log.init (ring : Nat → UInt8) : Log := ⟨ring,0,0,0,0,0,0⟩

def add64 (a b : Nat) : Nat := (a+b)%2^64
def sub64 (a b : Nat) : Nat := (a+(2^64-b))%2^64

def space : UInt8 := 32

/-- The digits of a number, the last one first. -/
def digitsRev : Nat → Nat → Bytes
  | 0,_ => []
  | fuel+1,n => if n=0 then [] else (48+(n%10).toUInt8)::digitsRev fuel (n/10)

def tsRender (ms : UInt32) : Bytes :=
  if ms=klogNoTs then []
  else
    let sec := (ms/1000).toNat
    let msec := (ms%1000).toNat
    let pad := if sec<10 then 4 else if sec<100 then 3 else if sec<1000 then 2
      else if sec<10000 then 1 else 0
    let digits := if sec=0 then [48] else digitsRev 10 sec
    [91]++List.replicate pad space++digits.reverse++[46]++
      [48+(msec/100%10).toUInt8,48+(msec/10%10).toUInt8,48+(msec%10).toUInt8,93,space]

def ringAt (b : Build) (k : Log) (pos : Nat) : UInt8 := k.ring (pos%2^64%b.ringSize)

/-- The n-byte number at a position. -/
def Log.word (b : Build) (k : Log) (pos n : Nat) : Nat := leAt (ringAt b k) pos n

/-- The header of the record at pos: its time, and its length word. -/
def recHeader (b : Build) (k : Log) (pos : Nat) : UInt32×Nat :=
  ((k.word b pos 4).toUInt32,k.word b (pos+4) 2)

def recLenOf (raw : Nat) : Nat := raw&&&klogLenMask
def recTokenised (raw : Nat) : Bool := raw&&&klogFTokenised≠0

def tokHdr (b : Build) : Nat := 2+b.ptrSize

def tokRenderLen (b : Build) (k : Log) (payloadPos : Nat) : Nat := k.word b payloadPos 2
def tokFmt (b : Build) (k : Log) (payloadPos : Nat) : Fin (256^b.ptrSize) :=
  ⟨k.word b (payloadPos+2) b.ptrSize,leAt_lt _ _ _⟩

def bodyLenAt (b : Build) (k : Log) (raw payloadPos : Nat) : Nat :=
  if recTokenised raw then tokRenderLen b k payloadPos else recLenOf raw

def recRenderLenAt (b : Build) (k : Log) (ms : UInt32) (raw payloadPos : Nat) : Nat :=
  (tsRender ms).length+bodyLenAt b k raw payloadPos

/-- The loop of ring_make_room. Each round frees six bytes or more. -/
def makeRoomLoop (b : Build) (need : Nat) : Nat → Log → Log
  | 0,k => k
  | fuel+1,k =>
    if b.ringSize < sub64 (add64 k.storedTotal need) k.storedOldest then
      let (ms,raw) := recHeader b k k.storedOldest
      makeRoomLoop b need fuel {k with
        renderOldest := add64 k.renderOldest
          (recRenderLenAt b k ms raw (add64 k.storedOldest klogHdrLen))
        storedOldest := add64 k.storedOldest (klogHdrLen+recLenOf raw)}
    else k

def ringMakeRoom (b : Build) (k : Log) (need : Nat) : Log :=
  makeRoomLoop b need (sub64 (add64 k.storedTotal need) k.storedOldest) k

/-- The length word that is stored. -/
def storedLen (len : Nat) (onConsole tokenised : Bool) : Nat :=
  len|||(if onConsole then klogFOnConsole else 0)|||(if tokenised then klogFTokenised else 0)

/-- The stores of ring_append, from pos on. -/
def ringStore (b : Build) (ring : Nat → UInt8) : Nat → Bytes → Nat → UInt8
  | _,[] => ring
  | pos,c::text => ringStore b (Function.update ring (pos%2^64%b.ringSize) c) (pos+1) text

def ringAppend (b : Build) (k : Log) (ms : UInt32) (text : Bytes) (onConsole tokenised : Bool)
    (renderLen : Nat) : Log :=
  if b.ringSize<klogHdrLen+text.length then {k with drops := k.drops+1}
  else
    let k := ringMakeRoom b k (klogHdrLen+text.length)
    let bytes := leBytes ms.toNat 4++leBytes (storedLen text.length onConsole tokenised) 2++text
    {k with
      ring := ringStore b k.ring k.storedTotal bytes
      storedTotal := add64 k.storedTotal bytes.length
      renderTotal := add64 k.renderTotal ((tsRender ms).length+renderLen)}

/-- The text cut to what a record can carry. -/
def cutText (k : Log) (text : Bytes) : Log×Bytes :=
  if klogRecMax<text.length then ({k with truncations := k.truncations+1},text.take klogRecMax)
  else (k,text)

def klogRecordText (b : Build) (k : Log) (ms : UInt32) (text : Bytes) (onConsole : Bool) : Log :=
  let (k,text) := cutText k text
  ringAppend b k ms text onConsole false text.length

/-- klog_emit, as far as the ring; the sinks and the consumer's cursor come after it. -/
def klogEmit (b : Build) (k : Log) (ms : UInt32) (text : Bytes) : Log :=
  let (k,text) := cutText k text
  ringAppend b k ms text false false text.length

/-- klog_emit_tok, as far as the ring; render_len is the length of the rendered text. -/
def klogEmitTok (b : Build) (k : Log) (ms : UInt32) (fmt : Fin (256^b.ptrSize))
    (blob rendered : Bytes) : Log :=
  if klogBlobMax<blob.length ∨ klogLenMask < rendered.length then klogEmit b k ms rendered
  else
    let payload := leBytes rendered.length 2++leBytes fmt.val b.ptrSize++blob
    ringAppend b k ms payload false true rendered.length

def klogClear (k : Log) : Log :=
  {k with storedOldest := k.storedTotal, renderOldest := k.renderTotal}

/-- The bytes of the ring from pos on. -/
def Log.bytes (b : Build) (k : Log) (pos n : Nat) : Bytes :=
  (List.range n).map fun i => ringAt b k (pos+i)

/-- The body of a record, as far as the scratch line has room. -/
def recBodyRender (b : Build) (k : Log) (payloadPos raw cap : Nat) : Bytes :=
  let stored := recLenOf raw
  if recTokenised raw then
    let blobLen := min (stored-tokHdr b) klogBlobMax
    (b.render (tokFmt b k payloadPos) (k.bytes b (payloadPos+tokHdr b) blobLen)).take cap
  else k.bytes b payloadPos (min stored cap)

/-- The byte of a rendered record at i; past what the scratch line has, a space. -/
def recByte (ts body : Bytes) (i : Nat) : UInt8 :=
  if i<ts.length then ts.getD i space else body.getD (i-ts.length) space

/-- The walk of klog_read_locked, with what has been written. A round goes six bytes on or more. -/
def readLoop (b : Build) (k : Log) (off count : Nat) : Nat → Nat → Nat → Bytes → Bytes
  | 0,_,_,out => out
  | fuel+1,spos,rpos,out =>
    if spos<k.storedTotal ∧ out.length<count then
      let (ms,raw) := recHeader b k spos
      let stored := recLenOf raw
      let ts := tsRender ms
      let recLen := ts.length+bodyLenAt b k raw (spos+klogHdrLen)
      if add64 rpos recLen≤off then
        readLoop b k off count fuel (add64 spos (klogHdrLen+stored)) (add64 rpos recLen) out
      else
        let body := recBodyRender b k (spos+klogHdrLen) raw klogRecMax
        let out := (List.range recLen).foldl (fun out i =>
          if out.length<count ∧ off≤add64 rpos i then out++[recByte ts body i] else out) out
        readLoop b k off count fuel (add64 spos (klogHdrLen+stored)) (add64 rpos recLen) out
    else out

/-- What klog_read puts into the buffer. -/
def klogRead (b : Build) (k : Log) (off count : Nat) : Bytes :=
  if count=0 then []
  else
    let off := if off<k.renderOldest then k.renderOldest else off
    if k.renderTotal≤off then []
    else
      let count := min count (k.renderTotal-off)
      readLoop b k off count (k.storedTotal-k.storedOldest) k.storedOldest k.renderOldest []

end LugalOS.Klog
