import LugalOS.Lib.CString

namespace LugalOS.Spartan

open CString

def dot : UInt8 := 46
def space : UInt8 := 32
def backslash : UInt8 := 92
def carriage : UInt8 := 13
def newline : UInt8 := 10

def spartanPubRoot : Bytes := ofString "/sd0/pub"
def mdExt : Bytes := ofString ".md"
def gmiExt : Bytes := ofString ".gmi"

/-- `strstr(s,t)!=NULL`. -/
def strstr (s t : Bytes) : Bool := s.tails.any t.isPrefixOf

/-- A terminated string in a buffer that may hold a NUL before its end. -/
def cstr (buf : Bytes) : Bytes := buf.takeWhile (· != 0)

/-- The loop over the request path: a backslash, or a component "..", after the byte prev. -/
def dangerous (prev : Option UInt8) : Bytes → Bool
  | [] => false
  | c::rest =>
    c==backslash ||
      (c==dot && rest.head?==some dot && (prev==none || prev==some slash) &&
        (rest.tail.head?==some slash || rest.tail.isEmpty)) ||
      dangerous (some c) rest

def spartanSandboxValidatePath (reqPath : Bytes) (outSz : Nat) : Option Bytes :=
  if outSz=0 ∨ reqPath.head?≠some slash then none
  else if dangerous none reqPath then none
  else if reqPath=[slash] then
    let idx := spartanPubRoot++ofString "/index.gmi"
    if idx.length≥outSz then none else some idx
  else if spartanPubRoot.length+reqPath.length≥outSz then none
  else some (spartanPubRoot++reqPath)

inductive MdLineType where
  | h1 | h2 | h3 | h4 | ulist | olist | quote | alert | codeToggle | codeText | tableHdr
  | tableRow | tableSep | gemLink | blank | text
  /-- The line types that are emitted as text. -/
  | other (code : UInt8)
  deriving DecidableEq

inductive MdAlertType where
  | note | tip | important | warning | caution
  deriving DecidableEq

/-- The fields of md_line_t that are read. -/
structure MdLine where
  type : MdLineType
  text : Bytes := []
  lang : Bytes := []
  url : Bytes := []
  label : Bytes := []
  alertType : MdAlertType := .note

/-- The fields of md_span_t that are read. -/
structure MdSpan where
  link : Bool
  text : Bytes
  linkText : Bytes := []
  linkUrl : Bytes := []

/-- What the code outside spartan.c answers: the opens may depend on those before them, a file
descriptor's reads are the chunks that vfs_pread gives one after the other. -/
structure Env where
  vfsOpen : List Bytes → Bytes → Int
  vfsPread : Int → Nat → Bytes
  chunks : Int → List Bytes
  mdParseLine : Bytes → Bool → Bool → Option MdLine×Bool×Bool
  mdSpans : Bytes → List MdSpan

/-- `ksnprintf(dst+pos,cap-pos,..)` behind the bytes already in dst: what fits before the
terminator. -/
def ksnprintf (cap : Nat) (dst text : Bytes) : Bytes := dst++text.take (cap-dst.length-1)

/-- One line: the state of the parser and the bytes written. -/
structure Gmi where
  inCode : Bool := false
  inMath : Bool := false
  dst : Bytes := []

def alertBadge : MdAlertType → Bytes
  | .note => ofString "NOTE"
  | .tip => ofString "TIP"
  | .warning => ofString "WARNING"
  | .important => ofString "IMPORTANT"
  | .caution => ofString "CAUTION"

/-- The spans of a text line, with the first four links kept for the end. -/
def emitSpans (dstMax : Nat) : List MdSpan → Bytes → List (Bytes×Bytes) → Bytes×List (Bytes×Bytes)
  | [],dst,links => (dst,links)
  | s::ss,dst,links =>
    if s.link then
      let dst := if dst.length<dstMax-1 then ksnprintf dstMax dst (cstr s.linkText) else dst
      let links := if links.length<4 then
        links++[(copyInto 128 (cstr s.linkUrl),copyInto 64 (cstr s.linkText))] else links
      emitSpans dstMax ss dst links
    else emitSpans dstMax ss (dst++s.text.take (dstMax-1-dst.length)) links

def emitLinks (dstMax : Nat) : List (Bytes×Bytes) → Bytes → Bytes
  | [],dst => dst
  | (url,label)::ls,dst =>
    if dst.length<dstMax-1 then
      emitLinks dstMax ls
        (ksnprintf dstMax dst (ofString "=> "++url++[space]++label++[newline]))
    else dst

def spartanEmitGmiLine (e : Env) (raw : Bytes) (dstMax : Nat) (g : Gmi) : Gmi :=
  if dstMax=0 ∨ g.dst.length≥dstMax-1 then g
  else
    let (md,inCode,inMath) := e.mdParseLine raw g.inCode g.inMath
    let line (text : Bytes) : Gmi := ⟨inCode,inMath,ksnprintf dstMax g.dst (text++[newline])⟩
    match md with
    | none => line raw
    | some md =>
      match md.type with
      | .h1 => line (ofString "# "++cstr md.text)
      | .h2 => line (ofString "## "++cstr md.text)
      | .h3 | .h4 => line (ofString "### "++cstr md.text)
      | .ulist | .olist => line (ofString "* "++cstr md.text)
      | .quote => line (ofString "> "++cstr md.text)
      | .alert => line (ofString "> ["++alertBadge md.alertType++ofString "] "++cstr md.text)
      | .codeToggle => line (ofString "```"++cstr md.lang)
      | .codeText => line (cstr md.text)
      | .tableHdr | .tableRow | .tableSep => line raw
      | .gemLink => line (ofString "=> "++cstr md.url++[space]++cstr md.label)
      | .blank => line []
      | .text | .other _ =>
        let (dst,links) := emitSpans dstMax (e.mdSpans (cstr md.text)) g.dst []
        let dst := if dst.length<dstMax-1 then dst++[newline] else dst
        ⟨inCode,inMath,emitLinks dstMax links dst⟩

def mdLineMax : Nat := 512

/-- The bytes of one chunk; the flag is `goto done`. -/
def convertBytes (e : Env) (dstMax : Nat) : Bytes → Bytes → Gmi → Bool×Bytes×Gmi
  | [],line,g => (false,line,g)
  | ch::rest,line,g =>
    if ch=carriage then convertBytes e dstMax rest line g
    else if ch=newline then
      let g := spartanEmitGmiLine e (cstr line) dstMax g
      if g.dst.length≥dstMax-1 then (true,[],g) else convertBytes e dstMax rest [] g
    else if line.length < mdLineMax-1 then convertBytes e dstMax rest (line++[ch]) g
    else convertBytes e dstMax rest line g

/-- The loop over the reads; an empty one is the end of the file or an error. -/
def convertLoop (e : Env) (dstMax : Nat) : List Bytes → Bytes → Gmi → Gmi
  | c::cs,line,g =>
    if c=[] then (if line≠[] then spartanEmitGmiLine e (cstr line) dstMax g else g)
    else
      match convertBytes e dstMax (c.take 512) line g with
      | (true,_,g) => g
      | (false,line,g) => convertLoop e dstMax cs line g
  | [],line,g => if line≠[] then spartanEmitGmiLine e (cstr line) dstMax g else g

def spartanConvertMdToGmi (e : Env) (fd : Int) (dstMax : Nat) : Bytes :=
  if fd<0 ∨ dstMax=0 then [] else (convertLoop e dstMax (e.chunks fd) [] {}).dst

/-- What one call leaves: the bytes taken from the connection and the tx_len bytes of reply.
The paths given to vfs_open are history, latest first. -/
structure Reply where
  consumed : Nat
  reply : Bytes
  closeAfterTx : Bool := true
  opens : List Bytes := []

/-- The request line: a copy in 256 bytes, without the end of the line. -/
def requestLine (rx : Bytes) : Bytes :=
  let line := copyInto 256 (rx.take (rx.idxOf newline+1))
  cstr (line.reverse.dropWhile fun c => c==carriage || c==newline).reverse

/-- "<host> <path> [content-length]": the path, cut to its buffer of 128 bytes. -/
def requestPath (line : Bytes) : Option Bytes :=
  let p := line.dropWhile (· == space)
  if space∈p then
    let p := (p.dropWhile (· != space)).dropWhile (· == space)
    some (copyInto 128 (p.takeWhile (· != space)))
  else none

/-- The Markdown file that stands in for a Gemtext one. -/
def mdTwin (safePath : Bytes) : Option Bytes :=
  let altPath := copyInto 160 safePath
  match lastIndex dot altPath with
  | some i => if altPath.drop i=gmiExt then some (altPath.take i++mdExt) else none
  | none => none

def helpMd : Bytes := ofString "/sd0/help/shell.md"
def helpGmi : Bytes := ofString "/sd0/help/shell.gmi"

/-- The opens for one request: the descriptor, whether it is a Markdown source, and the paths
tried, latest first. -/
def openFile (e : Env) (path safePath : Bytes) : Int×Bool×List Bytes :=
  let fd := e.vfsOpen [] safePath
  let opens := [safePath]
  let isMd := strstr safePath mdExt
  let (fd,isMd,opens) :=
    match (if fd<0 then mdTwin safePath else none) with
    | some altPath =>
      let fd := e.vfsOpen opens altPath
      (fd,isMd || decide (0≤fd),altPath::opens)
    | none => (fd,isMd,opens)
  if fd<0 ∧ path=[slash] then
    let fd := e.vfsOpen opens helpMd
    let opens := helpMd::opens
    if fd≥0 then (fd,true,opens) else (e.vfsOpen opens helpGmi,isMd,helpGmi::opens)
  else (fd,isMd,opens)

/-- The response header and the body of the file behind it; nothing when the header fills tx. -/
def sendFile (e : Env) (txMax : Nat) (path : Bytes) (fd : Int) (isMdSource : Bool) : Bytes :=
  let reqIsMd := strstr path mdExt
  let hdr := ksnprintf txMax [] (ofString
    (if reqIsMd then "2 text/markdown; charset=utf-8\r\n" else "2 text/gemini; charset=utf-8\r\n"))
  if hdr.length≥txMax then []
  else
    let room := txMax-hdr.length
    if !reqIsMd && isMdSource then hdr++spartanConvertMdToGmi e fd room
    else hdr++(e.vfsPread fd room).take room

def spartanProcessRequest (e : Env) (rx : Bytes) (txMax : Nat) : Option Reply :=
  let say (s : String) : Bytes := ksnprintf txMax [] (ofString s)
  if rx=[] ∨ txMax=0 then none
  else if newline∉rx then
    if rx.length≥256 then
      some {consumed := rx.length,reply := say "40 Bad Request: line too long\r\n"}
    else none
  else
    let consumed := rx.idxOf newline+1
    match requestPath (requestLine rx) with
    | none => some {consumed,reply := say "40 Bad Request: missing path\r\n"}
    | some path =>
      match spartanSandboxValidatePath path 160 with
      | none => some {consumed,reply := say "40 Access Denied: invalid path\r\n"}
      | some safePath =>
        let (fd,isMdSource,opens) := openFile e path safePath
        if fd<0 then some {consumed,reply := say "40 File Not Found\r\n",opens}
        else some {consumed,reply := sendFile e txMax path fd isMdSource,opens}

end LugalOS.Spartan
