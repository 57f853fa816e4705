import LugalOS.Lib.CString

/-! The line editor: what line_key does to the line and its state. What it draws and what it puts on
the clipboard change neither and are left out. -/

namespace LugalOS.LineEditor

open CString
open Function (update)

/-- The memory from the line's buffer on, in both directions. -/
abbrev Buf := Int → UInt8

def maxLineLen : Nat := 512

/-- line_state_t, with the buffer. -/
structure LineState where
  len : Int
  pos : Int
  histNavIdx : Int
  mark : Int
  markSticky : Bool
  dropped : Nat
  tempSavedLine : Bytes
  buf : Buf

structure ReadlineOpts where
  noHistory : Bool
  cancelOnEsc : Bool

/-- A key, with what line_key finds at it: the key that follows a Ctrl-X, the clipboard, the
history, and what edit_multiline_box leaves in out_buf and returns. -/
structure Input where
  key : Nat
  mods : UInt8
  next : Nat
  clipboard : Bytes
  historyCount : Int
  history : Int → Bytes
  box : Buf
  boxLen : Int

inductive Outcome
  | incomplete
  | cancelled
  | line (n : Int)
  | multiline (n : Int)
deriving DecidableEq

def keyUp : Nat := 0x110000
def keyDown : Nat := 0x110001
def keyRight : Nat := 0x110002
def keyLeft : Nat := 0x110003
def keyHome : Nat := 0x110004
def keyEnd : Nat := 0x110005
def keyDelete : Nat := 0x110007

def Input.shift (k : Input) : Bool := k.mods&&&0x1≠0
def Input.alt (k : Input) : Bool := k.mods&&&0x2≠0
def Input.ctrl (k : Input) : Bool := k.mods&&&0x4≠0
def Input.super (k : Input) : Bool := k.mods&&&0x8≠0

/-- A key of the list, by its letters. -/
def Input.isAny (k : Input) (cs : List Nat) : Bool := cs.contains k.key

def u8Cont (c : UInt8) : Bool := c&&&0xc0=0x80

/-- `while (pos>0 && p(pos)) pos--` from pos=n. -/
def back (p : Int → Bool) : Nat → Int
  | 0 => 0
  | n+1 => if p (n+1 : Nat) then back p n else (n+1 : Nat)

def backFrom (p : Int → Bool) (pos : Int) : Int := if 0<pos then back p pos.toNat else pos

/-- `while (pos<len && p(pos)) pos++` with n=len-pos. -/
def forth (p : Int → Bool) : Nat → Int → Int
  | 0,pos => pos
  | n+1,pos => if p pos then forth p n (pos+1) else pos

def u8Prev (buf : Buf) (pos : Int) : Int :=
  backFrom (fun j => u8Cont (buf j)) (if 0<pos then pos-1 else pos)

def u8Next (buf : Buf) (len pos : Int) : Int :=
  let pos := if pos<len then pos+1 else pos
  forth (fun j => u8Cont (buf j)) (len-pos).toNat pos

def wordByte (c : UInt8) : Bool :=
  0x80≤c ∨ 48≤c ∧ c≤57 ∨ 97≤c ∧ c≤122 ∨ 65≤c ∧ c≤90 ∨ c=95

def wordLeft (buf : Buf) (pos : Int) : Int :=
  backFrom (fun j => wordByte (buf (j-1))) (backFrom (fun j => !wordByte (buf (j-1))) pos)

def wordRight (buf : Buf) (len pos : Int) : Int :=
  let pos := forth (fun j => !wordByte (buf j)) (len-pos).toNat pos
  forth (fun j => wordByte (buf j)) (len-pos).toNat pos

/-- `buf[i-d]=buf[i]` for n bytes from i on. -/
def copyDown (d : Int) : Nat → Int → Buf → Buf
  | 0,_,b => b
  | n+1,i,b => copyDown d n (i+1) (update b (i-d) (b i))

/-- `buf[j+m]=buf[j]` for the n bytes from pos on, the last one first. -/
def copyUp (m pos : Int) : Nat → Buf → Buf
  | 0,b => b
  | n+1,b => copyUp m pos n (update b (pos+n+m) (b (pos+n)))

def putBytes : Int → Bytes → Buf → Buf
  | _,[],b => b
  | pos,c::s,b => putBytes (pos+1) s (update b pos c)

def lineCut (st : LineState) (a b : Int) : LineState :=
  let len := st.len-(b-a)
  {st with len := len, buf := update (copyDown (b-a) (st.len-b).toNat b st.buf) len 0}

def selRange (st : LineState) : Option (Int×Int) :=
  if st.mark<0 ∨ st.mark=st.pos then none
  else if st.mark<st.pos then some (st.mark,st.pos) else some (st.pos,st.mark)

def selDelete (st : LineState) : Bool × LineState :=
  match selRange st with
  | none => (false,st)
  | some (a,b) => (true,{lineCut st a b with pos := a, mark := -1})

/-- The bytes of the character that starts with c. -/
def charWidth (c : UInt8) : Nat :=
  if 0xc0≤c then if 0xf0≤c then 4 else if 0xe0≤c then 3 else 2 else 1

/-- What goes in for the character at the head of s; none for a control that is dropped. -/
def cleaned (c : UInt8) (s : Bytes) : Option Bytes :=
  if charWidth c=1 then
    if c=10 ∨ c=13 ∨ c=9 then some [32]
    else if c<0x20 ∨ c=0x7f ∨ 0x80≤c then none
    else some [c]
  else some ((c::s).take (charWidth c))

/-- The loop of line_insert; every round takes a byte at least, so s.length rounds are enough. -/
def insertLoop (maxLen : Int) : Nat → Bytes → LineState → LineState
  | 0,_,st => st
  | _+1,[],st => st
  | f+1,c::s,st =>
    if (c::s).length<charWidth c then st
    else
      match cleaned c s with
      | none => insertLoop maxLen f s st
      | some one =>
        if maxLen≤ st.len+one.length then
          {st with dropped := min (st.dropped+(c::s).length) 0xffff}
        else
          insertLoop maxLen f ((c::s).drop (charWidth c))
            {st with
              buf := putBytes st.pos one (copyUp one.length st.pos (st.len-st.pos).toNat st.buf)
              pos := st.pos+one.length
              len := st.len+one.length}

def lineInsert (maxLen : Int) (s : Bytes) (st : LineState) : LineState :=
  let st := insertLoop maxLen s.length s st
  {st with buf := update st.buf st.len 0}

def clipPaste (maxLen : Int) (clipboard : Bytes) (st : LineState) : LineState :=
  let st := (selDelete st).2
  if clipboard=[] then st else lineInsert maxLen clipboard st

def lineMove (st : LineState) (dest : Int) (shift : Bool) : LineState :=
  if shift then
    if st.mark<0 then {st with mark := st.pos, markSticky := false, pos := dest}
    else {st with pos := dest}
  else if !st.markSticky then {st with mark := -1, pos := dest}
  else {st with pos := dest}

/-- What safe_strncpy copies of a string into n bytes. -/
def copied (n : Int) (s : Bytes) : Bytes := (s.takeWhile (· ≠ 0)).take (n-1).toNat

/-- The copy holds no zero byte, so that strlen finds its length. -/
def histShow (maxLen : Int) (k : Input) (idx : Int) (st : LineState) : LineState :=
  let s := copied maxLen (if idx=k.historyCount then st.tempSavedLine else k.history idx)
  {st with
    buf := update (putBytes 0 s st.buf) s.length 0
    histNavIdx := idx
    len := s.length
    pos := s.length
    mark := -1}

def bufBytes (buf : Buf) (n : Nat) : Bytes := (List.range n).map fun i : Nat => buf (i : Int)

def utf8Encode (cp : Nat) : Bytes :=
  if cp<0x80 then [cp.toUInt8]
  else if cp<0x800 then [(0xc0|||cp>>>6).toUInt8,(0x80|||cp&&&0x3f).toUInt8]
  else if cp<0x10000 then
    [(0xe0|||cp>>>12).toUInt8,(0x80|||(cp>>>6)&&&0x3f).toUInt8,(0x80|||cp&&&0x3f).toUInt8]
  else [(0xf0|||cp>>>18).toUInt8,(0x80|||(cp>>>12)&&&0x3f).toUInt8,
    (0x80|||(cp>>>6)&&&0x3f).toUInt8,(0x80|||cp&&&0x3f).toUInt8]

/-- A printing key, which the cursor takes. -/
def Input.prints (k : Input) : Bool := 0x20≤k.key ∧ k.key≠0x7f ∧ k.key<0x110000 ∧ k.ctrl=false

/-- A key that may find a line that lost input. -/
def Input.input (k : Input) : Bool :=
  k.key=13 ∨ k.key=10 ∨
    (if k.super then k.key=118 -- v
    else k.alt=false ∧ (k.key=0x19 ∨ k.prints))

def superKey (maxLen : Int) (st : LineState) (k : Input) : LineState :=
  if k.key=99 then {st with mark := -1} -- c
  else if k.key=120 then (selDelete st).2 -- x
  else if k.key=118 then clipPaste maxLen k.clipboard st -- v
  else if k.key=97 then {st with mark := 0, markSticky := true, pos := st.len} -- a
  else st

def altKey (st : LineState) (k : Input) : LineState :=
  if k.isAny [98,66] then lineMove st (wordLeft st.buf st.pos) false -- b
  else if k.isAny [102,70] then lineMove st (wordRight st.buf st.len st.pos) false -- f
  else if k.isAny [119,87] then {st with mark := -1} -- w
  else if k.isAny [0x7f,0x08] then
    let a := wordLeft st.buf st.pos
    {lineCut st a st.pos with pos := a, mark := -1}
  else if k.isAny [100,68] then -- d
    {lineCut st st.pos (wordRight st.buf st.len st.pos) with mark := -1}
  else if k.key=keyLeft then lineMove st (wordLeft st.buf st.pos) k.shift
  else if k.key=keyRight then lineMove st (wordRight st.buf st.len st.pos) k.shift
  else st

def plainKey (maxLen : Int) (o : ReadlineOpts) (st : LineState) (k : Input) : Outcome × LineState :=
  if k.key=keyLeft then
    (.incomplete,lineMove st (if k.ctrl then wordLeft st.buf st.pos else u8Prev st.buf st.pos) k.shift)
  else if k.key=keyRight then
    (.incomplete,lineMove st (if k.ctrl then wordRight st.buf st.len st.pos
      else u8Next st.buf st.len st.pos) k.shift)
  else if k.key=0x02 then (.incomplete,lineMove st (u8Prev st.buf st.pos) false)
  else if k.key=0x06 then (.incomplete,lineMove st (u8Next st.buf st.len st.pos) false)
  else if k.isAny [keyHome,0x01] then (.incomplete,lineMove st 0 k.shift)
  else if k.isAny [keyEnd,0x05] then (.incomplete,lineMove st st.len k.shift)
  else if k.isAny [keyUp,0x10] then
    if o.noHistory then (.incomplete,st)
    else if 0<st.histNavIdx then
      let st := if st.histNavIdx=k.historyCount then
          {st with tempSavedLine := copied maxLineLen (bufBytes st.buf maxLineLen)}
        else st
      (.incomplete,histShow maxLen k (st.histNavIdx-1) st)
    else (.incomplete,st)
  else if k.isAny [keyDown,0x0E] then
    if o.noHistory then (.incomplete,st)
    else if st.histNavIdx<k.historyCount then (.incomplete,histShow maxLen k (st.histNavIdx+1) st)
    else (.incomplete,st)
  else if k.key=0 then (.incomplete,{st with mark := st.pos, markSticky := true})
  else if k.isAny [0x07,0x1b] then
    if st.mark<0 ∧ o.cancelOnEsc then (.cancelled,{st with buf := update st.buf 0 0})
    else (.incomplete,{st with mark := -1})
  else if k.key=0x17 then (.incomplete,(selDelete st).2)
  else if k.key=0x19 then (.incomplete,clipPaste maxLen k.clipboard st)
  else if k.key=0x0B then
    (.incomplete,{st with len := st.pos, buf := update st.buf st.pos 0, mark := -1})
  else if k.isAny [0x04,keyDelete] then
    let (found,st) := selDelete st
    (.incomplete,if !found ∧ st.pos<st.len then lineCut st st.pos (u8Next st.buf st.len st.pos) else st)
  else if k.isAny [0x08,0x7f] then
    let (found,st) := selDelete st
    (.incomplete,if !found ∧ 0<st.pos then
        let a := u8Prev st.buf st.pos
        {lineCut st a st.pos with pos := a}
      else st)
  else if k.key=0x0C then (.incomplete,st)
  else if k.key=0x18 then
    if o.noHistory then (.incomplete,st)
    else if [0x0D,0x0A,0x05,109,77,101,69].contains k.next then
      (.multiline k.boxLen,{st with buf := k.box}) -- m, e
    else (.incomplete,st)
  else if k.isAny [13,10] then
    if 0<st.dropped then
      (.line 0,{st with dropped := 0, len := 0, pos := 0, buf := update st.buf 0 0})
    else (.line st.len,{st with buf := update st.buf st.len 0})
  else if k.prints then (.incomplete,lineInsert maxLen (utf8Encode k.key) (selDelete st).2)
  else (.incomplete,st)

def lineKey (maxLen : Int) (o : ReadlineOpts) (st : LineState) (k : Input) : Outcome × LineState :=
  let st := if k.input then st else {st with dropped := 0}
  if k.super then (.incomplete,superKey maxLen st k)
  else if k.alt then (.incomplete,altKey st k)
  else plainKey maxLen o st k

def lineBegin (historyCount : Int) (buf : Buf) : LineState :=
  ⟨0,0,historyCount,-1,false,0,[],update buf 0 0⟩

end LugalOS.LineEditor
