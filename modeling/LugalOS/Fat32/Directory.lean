import LugalOS.Lib.CString
import LugalOS.Fat32.Volume

namespace LugalOS.Fat32

open CString LittleEndian

def dot : UInt8 := 46
def space : UInt8 := 32

def toUpper (c : UInt8) : UInt8 := if 97≤c ∧ c≤122 then c-32 else c

/-- Upper-cased, cut to n and padded with spaces. -/
def pad83 (n : Nat) (s : Bytes) : Bytes :=
  (s.take n).map toUpper++List.replicate (n-s.length) space

/-- The extension separator: the last '.', unless it comes first. -/
def extDot (s : Bytes) : Option Nat :=
  match lastIndex dot s with
  | some 0 => none
  | r => r

/-- The 11 bytes a name component is stored under: 8 of base, 3 of extension. -/
def filenameTo83 (src : Bytes) : Bytes :=
  let s := src.takeWhile (· != slash)
  match extDot s with
  | some i => pad83 8 (s.take i)++pad83 3 (s.drop (i+1))
  | none => pad83 8 s++pad83 3 []

def fat83ToDisplayName (raw : Bytes) (outMax : Nat) : Bytes :=
  let base := (raw.take 8).takeWhile (· != space)
  let ext := ((raw.drop 8).take 3).takeWhile (· != space)
  let base := base.takeWhile (· != 0)
  let tail := if ext.isEmpty then [] else dot::ext.takeWhile (· != 0)
  (base++tail).take (outMax-1)

def attrDirectory : UInt8 := 0x10
def attrArchive : UInt8 := 0x20
def attrVolumeId : UInt8 := 0x08

/-- The fields of a 32-byte directory entry that the driver reads. -/
structure DirEntry where
  name : Bytes
  attr : UInt8
  fstClus : Nat
  fileSize : Nat
  deriving DecidableEq

def entryAt (s : Sector) (i : Nat) : DirEntry where
  name := (List.range 11).map fun k => s (32*i+k)
  attr := s (32*i+11)
  fstClus := leAt s (32*i+20) 2*2^16+leAt s (32*i+26) 2
  fileSize := leAt s (32*i+28) 4

def putName (s : Sector) (i : Nat) (name : Bytes) : Sector := patch s (32*i) name
def putAttr (s : Sector) (i : Nat) (attr : UInt8) : Sector := patch s (32*i+11) [attr]
def putClus (s : Sector) (i clus : Nat) : Sector :=
  putLe (putLe s (32*i+20) 2 (clus/2^16)) (32*i+26) 2 clus
def putSize (s : Sector) (i size : Nat) : Sector := putLe s (32*i+28) 4 size

namespace DirEntry

def head (e : DirEntry) : UInt8 := e.name.headD 0

def isDirectory (e : DirEntry) : Bool := e.attr &&& attrDirectory != 0
def isVolumeId (e : DirEntry) : Bool := e.attr &&& attrVolumeId != 0
def isLongName (e : DirEntry) : Bool := e.attr &&& 0x0F == 0x0F
def isDeleted (e : DirEntry) : Bool := e.head == 0xE5

/-- The entry that ends a directory. -/
def isEnd (e : DirEntry) : Bool := e.head == 0

end DirEntry

def dirEntryIsFree (e : DirEntry) : Bool := e.isEnd || e.isDeleted

def illegalChars : Bytes := ofString "\"*+,/:;<=>?[\\]|"

def dirEntryIsCorrupt (e : DirEntry) : Bool :=
  if e.isLongName then false
  else if e.attr &&& 0xC0 != 0 then true
  else if e.isDirectory && e.fileSize != 0 then true
  else if e.head != 0 && e.head != 0xE5 && e.head != 0x05 && e.head<0x20 then true
  else e.name.any fun c => (c<0x20 && c != 0 && c != 0x05) || illegalChars.contains c

def dirEntryIsSkippable (e : DirEntry) : Bool :=
  e.isDeleted || e.isLongName || e.isVolumeId || dirEntryIsCorrupt e

/-- The stored names of "." and "..". -/
def dotName : Bytes := ofString ".          "
def dotdotName : Bytes := ofString "..         "

def isDotName (name : Bytes) : Bool := name == dotName || name == dotdotName

@[simp] theorem pad83_length (n : Nat) (s : Bytes) : (pad83 n s).length=n := by
  simp only [pad83,List.length_append,List.length_map,List.length_take,List.length_replicate]
  omega

theorem filenameTo83_length (src : Bytes) : (filenameTo83 src).length=11 := by
  unfold filenameTo83
  dsimp only
  split <;> simp

theorem entryAt_name_length (s : Sector) (i : Nat) : (entryAt s i).name.length=11 := by
  simp [entryAt]

theorem entryAt_congr (s t : Sector) (i : Nat) (h : ∀k,32*i≤k → k<32*i+32 → s k=t k) :
    entryAt s i=entryAt t i := by
  have hn : (List.range 11).map (fun k => s (32*i+k))=(List.range 11).map fun k => t (32*i+k) := by
    apply List.map_congr_left
    intro k hk
    have hk' := List.mem_range.mp hk
    exact h _ (by omega) (by omega)
  have ha := h (32*i+11) (by omega) (by omega)
  have hh := leAt_congr s t (32*i+20) 2 fun k h0 h1 => h k (by omega) (by omega)
  have hl := leAt_congr s t (32*i+26) 2 fun k h0 h1 => h k (by omega) (by omega)
  have hs := leAt_congr s t (32*i+28) 4 fun k h0 h1 => h k (by omega) (by omega)
  simp only [entryAt,hn,ha,hh,hl,hs]

variable {α : Type}

/-- A scan callback: told to stop or not, with its context. -/
abbrev ScanFn (α : Type) := Fat32Fs → Nat → Sector → α → (Bool×α)×Fat32Fs

/-- A callback's loop over the entries of one sector, from entry i on. -/
def eachEntry (step : Fat32Fs → Nat → Sector → Nat → α → (Bool×α)×Fat32Fs) :
    Nat → Nat → ScanFn α
  | 0,_,fs,_,_,a => ((false,a),fs)
  | n+1,i,fs,lba,sec,a =>
    match step fs lba sec i a with
    | ((true,a),fs) => ((true,a),fs)
    | ((false,a),fs) => eachEntry step n (i+1) fs lba sec a

def looking (f : Nat → Nat → DirEntry → α → Bool×α) : ScanFn α :=
  eachEntry (fun fs lba sec i a => (f lba i (entryAt sec i) a,fs)) 16 0

def scanSectors (fn : ScanFn α) (base : Nat) : Nat → Nat → Fat32Fs → α → (Bool×α)×Fat32Fs
  | 0,_,fs,a => ((false,a),fs)
  | n+1,s,fs,a =>
    let lba := (base+s)%2^32
    match fs.dev.readBlocks lba with
    | none => ((true,a),fs)
    | some sec =>
      match fn fs lba sec a with
      | ((true,a),fs) => ((true,a),fs)
      | ((false,a),fs) => scanSectors fn base n (s+1) fs a

def scanClusters (fn : ScanFn α) : Nat → Nat → Fat32Fs → α → α×Fat32Fs
  | 0,_,fs,a => (a,fs)
  | n+1,clus,fs,a =>
    if clus<2 ∨ clus≥fs.endCluster then (a,fs)
    else match scanSectors fn (fs.clusterToLba clus) fs.bpb.secPerClus 0 fs a with
      | ((true,a),fs) => (a,fs)
      | ((false,a),fs) =>
        let r := fatGetEntry fs clus
        if r.1≥endOfChain then (a,r.2) else scanClusters fn n r.1 r.2 a

/-- A chain holds no more clusters than the volume has: total_clusters+1 steps at most. -/
def fat32ScanDir (fs : Fat32Fs) (start : Nat) (fn : ScanFn α) (a : α) : α×Fat32Fs :=
  scanClusters fn (fs.totalClusters+1) start fs a

def findComponentCb (name83 : Bytes) (rootClus : Nat) : ScanFn Nat :=
  looking fun _ _ e found =>
    if e.isEnd then (true,found)
    else if dirEntryIsSkippable e then (false,found)
    else if e.name=name83 then
      (true,if e.isDirectory then (if e.fstClus≠0 then e.fstClus else rootClus) else found)
    else (false,found)

def pathCopySize : Nat := 256
def outNameSize : Nat := 64

/-- The components in front of the last one, looked up in turn; the last one is handed out.
0 for a component that is not a directory of the volume. -/
def parentLoop (fs : Fat32Fs) (cur : Nat) : List Bytes → (Nat×Bytes)×Fat32Fs
  | [] => ((cur,[]),fs)
  | [last] => ((cur,copyInto outNameSize last),fs)
  | curr::c::rest =>
    if curr≠[] then
      let r := fat32ScanDir fs cur (findComponentCb (filenameTo83 curr) fs.rootDirCluster) 0
      if r.1=0 then ((0,[]),r.2) else parentLoop r.2 r.1 (c::rest)
    else parentLoop fs cur (c::rest)

def trimSlashes (s : Bytes) : Bytes := (s.reverse.dropWhile (· == slash)).reverse

/-- The components that the walk of a path sees; none when the path does not fit. -/
def pathComponents (path : Bytes) : Option (List Bytes) :=
  let path := path.dropWhile (· == slash)
  if path.length≥pathCopySize then none else some ((trimSlashes path).splitOn slash)

def fat32GetParentCluster (fs : Fat32Fs) (path : Bytes) : (Nat×Bytes)×Fat32Fs :=
  match pathComponents path with
  | none => ((0,[]),fs)
  | some comps => parentLoop fs fs.rootDirCluster comps

def findFileCb (name83 : Bytes) : ScanFn (Option DirEntry) :=
  looking fun _ _ e found =>
    if e.isEnd then (true,found)
    else if dirEntryIsSkippable e then (false,found)
    else if e.name=name83 then (true,some e)
    else (false,found)

/-- What find_file answers for the root: no entry of the volume. -/
def rootEntry (fs : Fat32Fs) : DirEntry where
  name := List.replicate 11 0
  attr := attrDirectory
  fstClus := fs.rootDirCluster
  fileSize := 0

def fat32FindFile (fs : Fat32Fs) (path : Bytes) : Option DirEntry×Fat32Fs :=
  let path := path.dropWhile (· == slash)
  if path=[] then (some (rootEntry fs),fs)
  else
    let p := fat32GetParentCluster fs path
    if p.1.1=0 ∨ p.1.2=[] then (none,p.2)
    else
      let r := fat32ScanDir p.2 p.1.1 (findFileCb (filenameTo83 p.1.2)) none
      match r.1 with
      | none => (none,r.2)
      | some e =>
        if path.getLast?=some slash ∧ !e.isDirectory then (none,r.2) else (some e,r.2)

def listed (e : DirEntry) : Bool :=
  !e.isDeleted && !e.isLongName && !e.isVolumeId && !dirEntryIsCorrupt e

def readdirCb (target : Nat) : ScanFn (Nat×Option DirEntry) :=
  looking fun _ _ e a =>
    if e.isEnd then (true,a)
    else if !listed e then (false,a)
    else if a.1=target then (true,(a.1,some e))
    else (false,(a.1+1,a.2))

/-- The index-th entry of a directory with its display name. -/
def fat32Readdir (fs : Fat32Fs) (dirCluster index nameMax : Nat) :
    Option (Bytes×DirEntry)×Fat32Fs :=
  let r := fat32ScanDir fs dirCluster (readdirCb index) (0,none)
  (r.1.2.map fun e => (fat83ToDisplayName e.name nameMax,e),r.2)

end LugalOS.Fat32
