import LugalOS.P9.Wire

namespace LugalOS.P9

open CString

def p9AuthKeyMax : Nat := 64
def p9GrantsMax : Nat := 8
def p9GrantsBufMax : Nat := 2048
def nodeGrantsMax : Nat := 1536

def newline : UInt8 := 10
def hash : UInt8 := 35

/-- The name that answers for every name. -/
def star : Bytes := [42]

def roWord : Bytes := [114,111]
def rwWord : Bytes := [114,119]
def adWord : Bytes := [97,100]

/-- A row of the grants list: its strings fit their buffers, and it is of one mode. -/
structure Grant where
  name : Name
  key : Bytes
  aname : Name
  readOnly : Bool
  admin : Bool
  keyed : key≠[]
  keyFits : key.length≤p9AuthKeyMax
  oneMode : (readOnly && admin)=false
deriving DecidableEq

def isBlank (c : UInt8) : Bool := c=32 || c=9

/-- What a name or an aname ends at. -/
def isGap (c : UInt8) : Bool := c=32 || c=9 || c=13

def hexval (c : UInt8) : Option UInt8 :=
  if 48≤c ∧ c≤57 then some (c-48)
  else if 97≤c ∧ c≤102 then some (c-97+10)
  else if 65≤c ∧ c≤70 then some (c-65+10)
  else none

/-- The bytes of a key, n at most, and the line after them. -/
def hexKey : Nat → Bytes → Bytes×Bytes
  | n+1,a::b::k =>
    match hexval a,hexval b with
    | some hi,some lo => ((hi<<<4 ||| lo)::(hexKey n k).1,(hexKey n k).2)
    | _,_ => ([],a::b::k)
  | _,k => ([],k)

theorem hexKey_length (n : Nat) (k : Bytes) : (hexKey n k).1.length≤n := by
  induction n generalizing k with
  | zero => rw [hexKey.eq_def]; exact Nat.le_refl _
  | succ n ih =>
    rw [hexKey.eq_def]
    split
    · rename_i n' a b k hn
      obtain rfl : n=n' := Nat.succ.inj hn
      split
      · exact Nat.succ_le_succ (ih k)
      · exact Nat.zero_le _
    · exact Nat.zero_le _

theorem modeWords_ne (m : Bytes) : (decide (m=roWord) && decide (m=adWord))=false := by
  by_cases h : m=roWord
  · rw [h]
    decide
  · rw [decide_eq_false h,Bool.false_and]

def parseGrantLine (line : Bytes) : Option Grant :=
  let line := line.dropWhile isGap
  if line=[] ∨ line.head?=some hash then none
  else
    let name := line.takeWhile fun c => !isGap c
    let k := (line.drop name.length).dropWhile isBlank
    if h : (hexKey p9AuthKeyMax k).1=[] then none
    else
      let k' := (hexKey p9AuthKeyMax k).2.dropWhile isBlank
      let aname := k'.takeWhile fun c => !isGap c
      let m := ((k'.drop aname.length).dropWhile isBlank).take 2
      some {
        name := RCur.nameOf name
        key := (hexKey p9AuthKeyMax k).1
        aname := RCur.nameOf (if aname=[] then [slash] else aname)
        readOnly := m=roWord
        admin := m=adWord
        keyed := h
        keyFits := hexKey_length _ _
        oneMode := modeWords_ne m}

/-- The board: whether it has an identity store, the copy of the record's grants if there are any,
and the grants file if it can be read. -/
structure Board where
  device : Bool
  cache : Option Bytes
  file : Option Bytes
  owned : cache≠none → device=true
  fits : ∀t∈cache,t≠[] ∧ t.length≤nodeGrantsMax

/-- The lines of a text, after what has been read of the first. -/
def linesFrom (cur : Bytes) : Bytes → List Bytes
  | [] => [cur]
  | c::cs => if c=newline then cur::linesFrom [] cs else linesFrom (cur++[c]) cs

/-- p9_grants_list's loop over the lines, with room for so many rows. -/
def grantRows : Nat → List Bytes → List Grant
  | 0,_ => []
  | _+1,[] => []
  | n+1,line::lines =>
    match parseGrantLine line with
    | none => grantRows (n+1) lines
    | some g => g::grantRows n lines

/-- What p9_grants_list reads: the copy, or else the file. -/
def grantsText (b : Board) : Bytes :=
  match b.cache with
  | some t => t.take p9GrantsBufMax
  | none => (b.file.getD []).take (p9GrantsBufMax-1)

def p9GrantsList (b : Board) : List Grant :=
  grantRows p9GrantsMax (linesFrom [] (grantsText b))

/-- p9_grants_find's loop, with the wildcard row it has met. -/
def grantFor (uname : Bytes) : Option Grant → List Grant → Option Grant
  | wildcard,[] => wildcard
  | wildcard,g::gs =>
    if g.name.bytes=star then grantFor uname (some g) gs
    else if g.name.bytes=uname then some g
    else grantFor uname wildcard gs

def p9GrantsFind (b : Board) (uname : Bytes) : Option Grant := grantFor uname none (p9GrantsList b)

def hexDigit (n : UInt8) : UInt8 := if n<10 then 48+n else 87+n

def hexText (key : Bytes) : Bytes := 
  key.flatMap fun b : UInt8 => [hexDigit (b>>>4),hexDigit (b &&& 0x0f)]

def modeText (g : Grant) : Bytes := if g.admin then adWord else if g.readOnly then roWord else rwWord

def grantText (g : Grant) : Bytes :=
  g.name.bytes++32::(hexText g.key++32::(g.aname.bytes++32::modeText g))

def p9GrantSerialize (cap : Nat) : Nat → List Grant → Bytes
  | _,[] => []
  | used,g::gs =>
    let need := g.name.bytes.length+1+g.key.length*2+1+g.aname.bytes.length+1+2+1
    if cap < used+need then []
    else grantText g++newline::p9GrantSerialize cap (used+need) gs

inductive GrantResult where
  | ok
  | full
  | badInput
  | notFound
  | writeFailed
deriving DecidableEq

/-- How a write to the record or the file goes; one that fails may leave anything in the file. -/
inductive StoreWrite where
  | done
  | fails (left : Option Bytes)

def p9GrantsStore (b : Board) (w : StoreWrite) (text : Bytes) : GrantResult×Board :=
  if hd : b.device=true then
    if hl : nodeGrantsMax < text.length then (.writeFailed,b)
    else
      match w with
      | .fails _ => (.writeFailed,b)
      | .done =>
        (.ok,{b with
          cache := if text=[] then none else some text
          owned := fun _ => hd
          fits := fun t ht => by
            split_ifs at ht with h0
            · simp at ht
            · exact (Option.mem_some_iff.mp ht) ▸ ⟨h0,Nat.not_lt.mp hl⟩})
  else
    match w with
    | .fails left => (.writeFailed,{b with file := left})
    | .done => (.ok,{b with file := some text})

/-- The place of a name's first row. -/
def rowOf (rows : List Grant) (name : Bytes) : Option Nat :=
  rows.findIdx? fun e => e.name.bytes=name

def newGrant (name key aname : Bytes) (readOnly admin : Bool)
    (hk : ¬(key=[] ∨ p9AuthKeyMax < key.length)) : Grant where
  name := RCur.nameOf name
  key := key
  aname := RCur.nameOf (if aname=[] then [slash] else aname)
  readOnly := readOnly && !admin
  admin := admin
  keyed h := hk (.inl h)
  keyFits := Nat.not_lt.mp fun h => hk (.inr h)
  oneMode := by cases readOnly <;> cases admin <;> rfl

def p9GrantsAddMode (b : Board) (w : StoreWrite) (name key aname : Bytes) (readOnly admin : Bool) :
    GrantResult×Board :=
  if name=[] ∨ p9MaxNameLen≤name.length then (.badInput,b)
  else if hk : key=[] ∨ p9AuthKeyMax < key.length then (.badInput,b)
  else if aname≠[] ∧ (p9MaxNameLen≤aname.length ∨ aname.head?≠some slash) then (.badInput,b)
  else
    let entries := p9GrantsList b
    let g := newGrant name key aname readOnly admin hk
    match rowOf entries name with
    | some i => p9GrantsStore b w (p9GrantSerialize p9GrantsBufMax 0 (entries.set i g))
    | none =>
      if p9GrantsMax≤entries.length then (.full,b)
      else p9GrantsStore b w (p9GrantSerialize p9GrantsBufMax 0 (entries++[g]))

def p9GrantsAdd (b : Board) (w : StoreWrite) (name key aname : Bytes) (readOnly : Bool) :
    GrantResult×Board := p9GrantsAddMode b w name key aname readOnly false

def p9GrantsAddAdmin (b : Board) (w : StoreWrite) (name key aname : Bytes) : GrantResult×Board :=
  p9GrantsAddMode b w name key aname false true

def p9GrantsRemove (b : Board) (w : StoreWrite) (name : Bytes) : GrantResult×Board :=
  if name=[] then (.badInput,b)
  else
    match rowOf (p9GrantsList b) name with
    | none => (.notFound,b)
    | some i => p9GrantsStore b w (p9GrantSerialize p9GrantsBufMax 0 ((p9GrantsList b).eraseIdx i))

end LugalOS.P9
