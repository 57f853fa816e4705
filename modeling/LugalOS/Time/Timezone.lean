import LugalOS.Lib.CString
import LugalOS.Lib.Scanner
import LugalOS.Time.Civil

/-! POSIX TZ rules: the parser and the arithmetic. A string is the list of its characters, whose end
stands for the terminator. -/

namespace LugalOS.Time

open CString Scanner

def tzNameMax : Nat := 8
def tzSpecMax : Nat := 48

structure TzRule where
  mon : Nat
  week : Nat
  dow : Nat
  sec : Int
deriving DecidableEq

/-- A zone; offsets are minutes east of UTC. -/
structure Tz where
  stdName : Bytes
  dstName : Bytes
  stdOffMin : Int
  dstOffMin : Int
  hasDst : Bool
  start : TzRule
  stop : TzRule
deriving DecidableEq

/-- The zone in force and the string it was set by. -/
structure Zone where
  tz : Tz
  spec : Bytes
deriving DecidableEq

def isDigit (c : UInt8) : Bool := 48≤c ∧ c≤57
def isLetter (c : UInt8) : Bool := 65≤c ∧ c≤90 ∨ 97≤c ∧ c≤122

def parseName (s : Bytes) : Option (Bytes × Bytes) :=
  match s with
  | 60::s => -- <
    match scan (· ≠ 62) tzNameMax s with
    | (n,62::r) => if 0<n.length then some (n,r) else none
    | _ => none
  | s =>
    let (n,r) := scan isLetter tzNameMax s
    if n.length<3 then none else some (n,r)

def digit (c : UInt8) : Nat := c.toNat-48

def number (ds : Bytes) : Nat := ds.foldl (fun acc c => acc*10+digit c) 0

/-- The parts hh, mm and ss that are still to come: a colon behind a part asks for the next one, and
behind the last one it is consumed all the same. -/
def offsetParts : Nat → Bytes → Option (List Nat × Bytes)
  | 0,s => some ([],s)
  | k+1,s =>
    match scan isDigit 2 s with
    | ([],_) => none
    | (ds,58::r) => -- :
      match offsetParts k r with
      | some (vs,r) => some (number ds::vs,r)
      | none => none
    | (ds,r) => some ([number ds],r)

def offsetSign (s : Bytes) : Int × Bytes :=
  match s with
  | 43::s => (1,s) -- +
  | 45::s => (-1,s) -- -
  | s => (1,s)

/-- [+|-]hh[:mm[:ss]] in seconds. -/
def parseOffset (s : Bytes) : Option (Int × Bytes) :=
  let (sign,s) := offsetSign s
  match offsetParts 3 s with
  | none => none
  | some (v,r) =>
    let hh := v.getD 0 0
    let mm := v.getD 1 0
    let ss := v.getD 2 0
    if 24<hh ∨ 59< mm ∨ 59<ss then none else some (sign*(hh*3600+mm*60+ss : Nat),r)

/-- What an int32_t holds of a number. -/
def i32 (x : Int) : Int := Int.bmod x (2^32)

/-- A number of a rule: a loop over all digits, in an int32_t. -/
def ruleNumber (s : Bytes) : Option (Int × Bytes) :=
  match scan isDigit s.length s with
  | ([],_) => none
  | (ds,r) => some (ds.foldl (fun acc c => i32 (acc*10+digit c)) 0,r)

/-- Mm.w.d -/
def ruleFields (s : Bytes) : Option (Int × Int × Int × Bytes) :=
  match s with
  | 77::s => -- M
    match ruleNumber s with
    | some (m,46::s) => -- .
      match ruleNumber s with
      | some (w,46::s) =>
        match ruleNumber s with
        | some (d,s) => some (m,w,d,s)
        | none => none
      | _ => none
    | _ => none
  | _ => none

/-- Mm.w.d[/time] -/
def parseRule (s : Bytes) : Option (TzRule × Bytes) :=
  match ruleFields s with
  | none => none
  | some (m,w,d,s) =>
    if m<1 ∨ 12< m ∨ w<1 ∨ 5<w ∨ d<0 ∨ 6<d then none
    else
      match s with
      | 47::s => -- /
        match parseOffset s with
        | some (t,s) => some (⟨m.toNat,w.toNat,d.toNat,t⟩,s)
        | none => none
      | s => some (⟨m.toNat,w.toNat,d.toNat,2*3600⟩,s)

/-- ,rule,rule and nothing behind. -/
def parseRules (s : Bytes) : Option (TzRule × TzRule) :=
  match s with
  | 44::s => -- ,
    match parseRule s with
    | some (start,44::s) =>
      match parseRule s with
      | some (stop,[]) => some (start,stop)
      | _ => none
    | _ => none
  | _ => none

def offMin (off : Int) : Int := (-off).tdiv 60

def noRule : TzRule := ⟨0,0,0,0⟩

def gTz : Zone := ⟨⟨ofString "UTC",[],0,0,false,noRule,noRule⟩,ofString "UTC0"⟩

/-- The offset in summer, an hour more when the string has none. -/
def dstOffset (stdOffMin : Int) (s : Bytes) : Option (Int × Bytes) :=
  if s≠[] ∧ s.head?≠some 44 then
    match parseOffset s with
    | some (off,s) => some (offMin off,s)
    | none => none
  else some (stdOffMin+60,s)

def parseSpec (s : Bytes) : Option Tz :=
  match parseName s with
  | none => none
  | some (stdName,s) =>
    match parseOffset s with
    | none => none
    | some (off,[]) => some ⟨stdName,[],offMin off,0,false,noRule,noRule⟩
    | some (off,s) =>
      match parseName s with
      | none => none
      | some (dstName,s) =>
        match dstOffset (offMin off) s with
        | none => none
        | some (dst,s) =>
          match parseRules s with
          | none => none
          | some (start,stop) => some ⟨stdName,dstName,offMin off,dst,true,start,stop⟩

def tzSet (z : Zone) (spec : Bytes) : Bool × Zone :=
  if spec.length=0 ∨ tzSpecMax<spec.length then (false,z)
  else
    match parseSpec spec with
    | none => (false,z)
    | some t => (true,⟨t,spec⟩)

/-- The day of the month the rule picks. -/
def ruleDay (r : TzRule) (year : Int) : Nat :=
  let last := if r.mon=2 ∧ (year%4=0 ∧ year%100≠0 ∨ year%400=0) then 29
    else [31,28,31,30,31,30,31,31,30,31,30,31].getD (r.mon-1) 0
  let days := daysFromCivil year r.mon 1
  let firstDow := ((days+4)%7).toNat
  let day := 1+(r.dow+7-firstDow)%7
  if 5≤r.week then day+(last-day)/7*7
  else
    let day := day+7*(r.week-1)
    if last<day then day-7 else day

def ruleInstantUtc (r : TzRule) (year offBeforeMin : Int) : Int :=
  daysFromCivil year r.mon (ruleDay r year)*86400+r.sec-offBeforeMin*60

def dstInForce (z : Tz) (utcSec : Int) : Bool :=
  if !z.hasDst then false
  else
    let year : Int := (timeFromEpoch utcSec).year
    let start := ruleInstantUtc z.start year z.stdOffMin
    let stop := ruleInstantUtc z.stop year z.dstOffMin
    if start≤ stop then start≤utcSec ∧ utcSec<stop else start≤utcSec ∨ utcSec<stop

def offsetAt (z : Tz) (utcSec : Int) : Int :=
  if dstInForce z utcSec then z.dstOffMin else z.stdOffMin

/-- The offset, the abbreviation and whether summer time applies. -/
def tzOffsetMin (z : Tz) (utc : RtcTime) : Int × Bytes × Bool :=
  let dst := dstInForce z (timeToEpoch utc)
  (if dst then z.dstOffMin else z.stdOffMin,if dst then z.dstName else z.stdName,dst)

def tzUtcToLocal (z : Tz) (utc : RtcTime) : RtcTime :=
  let off := (tzOffsetMin z utc).1
  {timeFromEpoch (timeToEpoch utc+off*60) with ms := utc.ms}

/-- Two passes: the first guesses with standard time, the second with the offset at the guess. -/
def tzLocalToUtc (z : Tz) (loc : RtcTime) : RtcTime :=
  let naive := timeToEpoch loc
  let off := offsetAt z (naive-z.stdOffMin*60)
  let off := offsetAt z (naive-off*60)
  {timeFromEpoch (naive-off*60) with ms := loc.ms}

end LugalOS.Time
