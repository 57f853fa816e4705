import LugalOS.Lib.CString
import Mathlib.Data.List.Infix

namespace LugalOS.Http

open CString

/-- What a wait for bytes brings: some (or none yet), the peer's end of the stream, or its loss. -/
inductive Poll
  | got (bs : Bytes)
  | closed
  | failed
  deriving DecidableEq

/-- A stream being read: the bytes that are there, and what comes before the deadline passes. The
deadline that progress moves is moved already: polls ends where it passes at last. -/
structure Stream where
  rx : Bytes
  polls : List Poll
  deriving DecidableEq

/-- What tcp_stream_read gives: less than zero, zero (and whether the peer has closed) or bytes. -/
inductive Read
  | failed
  | nothing (peerClosed : Bool)
  | bytes (bs : Bytes)

/-- time_get_ms()≥deadline. -/
def Stream.expired (s : Stream) : Bool := s.rx.isEmpty && s.polls.isEmpty

def tcpStreamRead (s : Stream) (want : ℕ) : Read×Stream :=
  match s.rx,s.polls with
  | b::bs,_ => (.bytes ((b::bs).take want),{s with rx := (b::bs).drop want})
  | [],[] => (.nothing false,s)
  | [],.closed::ps => (.nothing true,⟨[],ps⟩)
  | [],.failed::ps => (.failed,⟨[],ps⟩)
  | [],.got bs::ps =>
    if bs.isEmpty then (.nothing false,⟨[],ps⟩) else (.bytes (bs.take want),⟨bs.drop want,ps⟩)

/-- A bound on the reads that are left. -/
def Stream.work (s : Stream) : ℕ :=
  s.rx.length+(s.polls.map fun | .got bs => bs.length+1 | _ => 1).sum

/-- on_chunk with its ctx: what it returns, by the data given so far, the new ones last. -/
abbrev ChunkCb := List Bytes → Int

def cr : UInt8 := 13
def lf : UInt8 := 10
def blank : UInt8 := 32

/-- What the header lines have said so far; line is hdr_line[256]. -/
structure Headers where
  line : Bytes := []
  statusCode : ℕ := 0
  chunked : Bool := false
  deriving DecidableEq

def isDigit (c : UInt8) : Bool := 48≤c && c≤57

def toLower (c : UInt8) : UInt8 := if 65≤c ∧ c≤90 then c+32 else c

/-- `while (*sp>='0' && *sp<='9')`. -/
def parseStatus (s : Bytes) : ℕ :=
  (s.takeWhile isDigit).foldl (fun n c => n*10+(c-48).toNat) 0

/-- The end of a header line that is not empty. -/
def Headers.endLine (h : Headers) : Headers :=
  let text := h.line.takeWhile (· ≠ 0)
  if h.statusCode=0 ∧ ofString "HTTP/" <+: text then
    match text.dropWhile (· ≠ blank) with
    | _::rest => {h with line := [],statusCode := parseStatus rest}
    | [] => {h with line := []}
  else
    let text := (h.line.map toLower).takeWhile (· ≠ 0)
    {h with
      line := [],
      chunked := h.chunked ||
        decide (ofString "transfer-encoding:" <:+: text ∧ ofString "chunked" <:+: text)}

/-- The loop over the header bytes: the headers, up to the empty line. -/
def readHeaders : ℕ → Stream → Headers → Option Headers×Stream
  | 0,s,_ => (none,s)
  | fuel+1,s,h =>
    if s.expired then (none,s)
    else
      match tcpStreamRead s 1 with
      | (.failed,s) => (none,s)
      | (.nothing true,s) => (none,s)
      | (.nothing false,s) => readHeaders fuel s h
      | (.bytes bs,s) =>
        let ch := bs.headD 0
        if ch=cr then readHeaders fuel s h
        else if ch=lf then
          if h.line=[] then (some h,s) else readHeaders fuel s h.endLine
        else
          readHeaders fuel s {h with line := if h.line.length < 255 then h.line++[ch] else h.line}

/-- The body of a response that is not chunked. -/
def readPlain (cb : ChunkCb) : ℕ → Stream → List Bytes → List Bytes
  | 0,_,given => given
  | fuel+1,s,given =>
    if s.expired then given
    else
      match tcpStreamRead s 256 with
      | (.failed,_) => given
      | (.nothing true,_) => given
      | (.nothing false,s) => readPlain cb fuel s given
      | (.bytes bs,s) =>
        if cb (given++[bs])≠0 then given++[bs] else readPlain cb fuel s (given++[bs])

def parseHexDigit (c : UInt8) : Option UInt8 :=
  if 48≤c ∧ c≤57 then some (c-48)
  else if 97≤c ∧ c≤102 then some (c-97+10)
  else if 65≤c ∧ c≤70 then some (c-65+10)
  else none

/-- The size in hex_buf, up to the first byte that is no hex digit. -/
def chunkSize : UInt32 → Bytes → UInt32
  | n,[] => n
  | n,c::cs =>
    match parseHexDigit c with
    | none => n
    | some d => chunkSize (n<<<4 ||| d.toUInt32) cs

/-- Reads a chunk-size line into hex_buf[16]; none when no line came. -/
def readSizeLine : ℕ → Stream → Bytes → Option Bytes×Stream
  | 0,s,_ => (none,s)
  | fuel+1,s,hexBuf =>
    if s.expired then (none,s)
    else
      match tcpStreamRead s 1 with
      | (.failed,s) => (none,s)
      | (.nothing true,s) => (none,s)
      | (.nothing false,s) => readSizeLine fuel s hexBuf
      | (.bytes bs,s) =>
        let c := bs.headD 0
        if c=cr then readSizeLine fuel s hexBuf
        else if c=lf then (some hexBuf,s)
        else readSizeLine fuel s (if hexBuf.length < 15 then hexBuf++[c] else hexBuf)

/-- Reads a chunk's data; true when on_chunk cancels. -/
def readData (cb : ChunkCb) : ℕ → Stream → UInt32 → List Bytes → Bool×Stream×List Bytes
  | 0,s,_,given => (false,s,given)
  | fuel+1,s,chunkRem,given =>
    if chunkRem=0 ∨ s.expired then (false,s,given)
    else
      let want := if chunkRem < 256 then chunkRem.toNat else 256
      match tcpStreamRead s want with
      | (.failed,s) => (false,s,given)
      | (.nothing true,s) => (false,s,given)
      | (.nothing false,s) => readData cb fuel s chunkRem given
      | (.bytes bs,s) =>
        if cb (given++[bs])≠0 then (true,s,given++[bs])
        else readData cb fuel s (chunkRem-bs.length.toUInt32) (given++[bs])

/-- Consumes the two bytes behind a chunk's data. -/
def skipCrlf : ℕ → Stream → ℕ → Stream
  | 0,s,_ => s
  | fuel+1,s,crlfCount =>
    if 2≤crlfCount ∨ s.expired then s
    else
      match tcpStreamRead s 1 with
      | (.bytes _,s) => skipCrlf fuel s (crlfCount+1)
      | (_,s) => skipCrlf fuel s crlfCount

/-- The body of a chunked response: what on_chunk is given. -/
def readChunked (cb : ChunkCb) : ℕ → Stream → List Bytes → List Bytes
  | 0,_,given => given
  | fuel+1,s,given =>
    if s.expired then given
    else
      match readSizeLine (s.work+1) s [] with
      | (none,_) => given
      | (some hexBuf,s) =>
        if hexBuf=[] then given
        else if chunkSize 0 hexBuf=0 then given
        else
          let (done,s,given) := readData cb (s.work+1) s (chunkSize 0 hexBuf) given
          let s := skipCrlf (s.work+1) s 0
          if done then given else readChunked cb fuel s given

/-- http_request from the response headers on: what it returns, and what on_chunk was given. The
headers have their own deadline; more is what comes until the body's. -/
def httpResponse (cb : ChunkCb) (s : Stream) (more : List Poll) : Int×List Bytes :=
  match readHeaders (s.work+1) s {} with
  | (none,_) => (-10,[])
  | (some h,s) =>
    if h.statusCode=0 then (-10,[])
    else
      let s := {s with polls := s.polls++more}
      (h.statusCode,
        if h.chunked then readChunked cb (s.work+1) s [] else readPlain cb (s.work+1) s [])

end LugalOS.Http
