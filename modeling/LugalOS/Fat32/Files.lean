import LugalOS.Fat32.Directory

namespace LugalOS.Fat32

open CString LittleEndian

/-- Conversions between int and uint32_t. -/
def asInt (n : Nat) : Int := if n<2^31 then n else (n:Int)-2^32
def asU32 (z : Int) : Nat := (z%2^32).toNat

/-- fat32_cursor_t: where a handle last was in its file's chain. -/
structure Cursor where
  first : Nat
  gen : Nat
  index : Nat
  cluster : Nat

def Cursor.nowhere : Cursor := ⟨0,0,0,0⟩

/-- A cursor that chain_seek starts from; generations are compared as 32-bit numbers. -/
def Cursor.usable (cur : Cursor) (fs : Fat32Fs) (first target : Nat) : Bool :=
  cur.first=first ∧ cur.gen%2^32=fs.gen%2^32 ∧ cur.cluster≥2 ∧ cur.index≤target

def chainSeekLoop (extend : Bool) : Nat → Fat32Fs → Nat → Nat×Fat32Fs
  | 0,fs,cluster => (cluster,fs)
  | n+1,fs,cluster =>
    let r := fatGetEntry fs cluster
    if r.1≥endOfChain then
      if !extend then (0,r.2)
      else
        let a := fatAllocCluster r.2
        if a.1=0 then (0,a.2)
        else
          let fs := zeroCluster (fatSetEntry a.2 cluster a.1) a.1
          if a.1<2 then (0,fs) else chainSeekLoop extend n fs a.1
    else if r.1<2 then (0,r.2)
    else chainSeekLoop extend n r.2 r.1

/-- The cluster of index `target` in the chain of `first`; 0 when the chain is too short. -/
def chainSeek (fs : Fat32Fs) (first target : Nat) (cur : Cursor) (extend : Bool) :
    (Nat×Cursor)×Fat32Fs :=
  let start := if cur.usable fs first target then (cur.cluster,cur.index) else (first,0)
  let r := chainSeekLoop extend (target-start.2) fs start.1
  if r.1=0 then ((0,cur),r.2) else ((r.1,⟨first,r.2.gen,target,r.1⟩),r.2)

/-- The driver's fallbacks for a geometry of 0. -/
def Layout.bpc (l : Layout) : Nat := if l.bytesPerCluster=0 then 512 else l.bytesPerCluster
def Layout.spc (l : Layout) : Nat := if l.bpb.secPerClus=0 then 1 else l.bpb.secPerClus

def slice (s : Sector) (o n : Nat) : Bytes := (List.range n).map fun k => s (o+k)

/-- The sectors of one cluster, while bytes are wanted. none: a read failed. -/
def readSectors (fs : Fat32Fs) (base toRead : Nat) : Nat → Nat → Nat → Bytes → Option Bytes
  | 0,_,_,out => some out
  | n+1,sector,offset,out =>
    if sector<fs.spc ∧ out.length<toRead then
      match fs.dev.readBlocks ((base+sector)%2^32) with
      | none => none
      | some sec =>
        let chunk := min (512-offset) (toRead-out.length)
        readSectors fs base toRead n (sector+1) 0 (out++slice sec offset chunk)
    else some out

def readLoop (first toRead : Nat) : Nat → Fat32Fs → Nat → Nat → Nat → Nat → Bytes → Cursor →
    (Option Bytes×Cursor)×Fat32Fs
  | 0,fs,_,_,_,_,_,cur => ((none,cur),{ fs with outOfSteps := true })
  | n+1,fs,cluster,index,sector,offset,out,cur =>
    if out.length<toRead then
      match readSectors fs (fs.clusterToLba cluster) toRead fs.spc sector offset out with
      | none => ((none,cur),fs)
      | some out =>
        if out.length<toRead then
          let s := chainSeek fs first (index+1) cur false
          if s.1.1=0 then ((some out,s.1.2),s.2)
          else readLoop first toRead n s.2 s.1.1 (index+1) 0 0 out s.1.2
        else ((some out,cur),fs)
    else ((some out,cur),fs)

/-- What a call returns, and the bytes it put in the caller's buffer. -/
structure ReadResult where
  ret : Int
  bytes : Bytes

def fat32ReadAt (fs : Fat32Fs) (entry : DirEntry) (count offset : Nat) (cur : Cursor) :
    (ReadResult×Cursor)×Fat32Fs :=
  if offset≥entry.fileSize ∨ count=0 then ((⟨0,[]⟩,cur),fs)
  else
    let remaining := entry.fileSize-offset
    let toRead := if remaining<count then remaining else count
    if entry.fstClus<2 then ((⟨0,[]⟩,cur),fs)
    else
      let index := offset/fs.bpc
      let s := chainSeek fs entry.fstClus index cur false
      if s.1.1=0 then ((⟨0,[]⟩,s.1.2),s.2)
      else
        let skip := offset%fs.bpc
        let r := readLoop entry.fstClus toRead (toRead+1) s.2 s.1.1 index (skip/512) (skip%512)
          [] s.1.2
        match r.1.1 with
        | none => ((⟨-1,[]⟩,r.1.2),r.2)
        | some out => ((⟨asInt out.length,out⟩,r.1.2),r.2)

/-- What the free-slot scan found; freeSectorLba is an int, -1 for none. -/
structure WriteSlot where
  freeSectorLba : Int
  freeSlot : Nat
  nameMatched : Bool
  existing : DirEntry

def WriteSlot.none : WriteSlot := ⟨-1,0,false,⟨[],0,0,0⟩⟩

/-- The sector of the slot, cast back to uint32_t. -/
def WriteSlot.lba (ctx : WriteSlot) : Nat := asU32 ctx.freeSectorLba

def writeSlotStep (name83 : Bytes) (lba i : Nat) (e : DirEntry) (ctx : WriteSlot) :
    Bool×WriteSlot :=
  if !dirEntryIsCorrupt e ∧ e.name=name83 ∧ !dirEntryIsFree e then
    (true,⟨asInt lba,i,true,e⟩)
  else
    let ctx :=
      if (dirEntryIsFree e || dirEntryIsCorrupt e) ∧ ctx.freeSectorLba<0 then
        { ctx with freeSectorLba := asInt lba, freeSlot := i }
      else ctx
    (e.isEnd,ctx)

def writeSlotCb (name83 : Bytes) : ScanFn WriteSlot := looking (writeSlotStep name83)

def maxDirClusters : Nat := 65536

/-- The last cluster of a directory's chain; none for a chain that is damaged or too long. -/
def lastCluster : Nat → Fat32Fs → Nat → Option Nat×Fat32Fs
  | 0,fs,_ => (none,fs)
  | n+1,fs,last =>
    let r := fatGetEntry fs last
    if r.1≥endOfChain then (some last,r.2)
    else if r.1<2 then (none,r.2)
    else lastCluster n r.2 r.1

/-- A slot for a new entry: the one the scan found, or the first of a new cluster. -/
def dirClaimSlot (fs : Fat32Fs) (dirClus : Nat) (ctx : WriteSlot) : Option WriteSlot×Fat32Fs :=
  if ctx.freeSectorLba≥0 then (some ctx,fs)
  else
    match lastCluster maxDirClusters fs dirClus with
    | (none,fs) => (none,fs)
    | (some last,fs) =>
      let a := fatAllocCluster fs
      if a.1=last ∨ a.1=0 then (none,a.2)
      else
        let fs := fatSetEntry (zeroCluster a.2 a.1) last a.1
        (some { ctx with freeSectorLba := asInt (fs.clusterToLba a.1), freeSlot := 0 },fs)

/-- Reads, changes and writes back the directory sector of a slot. -/
def rewriteSlot (fs : Fat32Fs) (lba : Nat) (f : Sector → Sector) : Bool×Fat32Fs :=
  match fs.dev.readBlocks lba with
  | none => (false,fs)
  | some sec => fs.write .data lba (f sec)

def fat32UpdateEntry (fs : Fat32Fs) (path : Bytes) (newSize setFirst : Nat) : Bool×Fat32Fs :=
  let p := fat32GetParentCluster fs path
  if p.1.1=0 ∨ p.1.2=[] then (false,p.2)
  else
    let s := fat32ScanDir p.2 p.1.1 (writeSlotCb (filenameTo83 p.1.2)) WriteSlot.none
    if !s.1.nameMatched then (false,s.2)
    else rewriteSlot s.2 s.1.lba fun sec =>
      let sec := putSize sec s.1.freeSlot newSize
      if setFirst≠0 then putClus sec s.1.freeSlot setFirst else sec

/-- The sectors of cluster number c of a new file; the results only decide the final status. -/
def fillCluster (buf : Bytes) (base c bpc : Nat) : Nat → Nat → Bool → Fat32Fs → Bool×Fat32Fs
  | 0,_,err,fs => (err,fs)
  | n+1,sct,err,fs =>
    let offset := (c*bpc+sct*512)%2^32
    if offset≥buf.length ∧ sct>0 then (err,fs)
    else
      let sec := patch zeroSector 0 ((buf.drop offset).take 512)
      let r := fs.write .data ((base+sct)%2^32) sec
      fillCluster buf base c bpc n (sct+1) (err || !r.1) r.2

/-- Allocates and fills the clusters of a new file: n clusters from number c on. The chain's
first cluster, and whether a data write failed; none when the volume is full. -/
def placeClusters (buf : Bytes) : Nat → Nat → Nat → Nat → Bool → Fat32Fs →
    (Option (Nat×Bool)×Nat)×Fat32Fs
  | 0,_,first,_,err,fs => ((some (first,err),first),fs)
  | n+1,c,first,cur,err,fs =>
    let a := fatAllocCluster fs
    if a.1=0 then ((none,first),a.2)
    else
      let first := if c=0 then a.1 else first
      let fs := if c=0 then a.2 else fatSetEntry a.2 cur a.1
      let r := fillCluster buf (fs.clusterToLba a.1) c fs.bpc fs.spc 0 err fs
      placeClusters buf n (c+1) first a.1 r.1 r.2

def fat32WriteFile (fs : Fat32Fs) (path buf : Bytes) : Bool×Fat32Fs :=
  if path.getLast?=some slash then (false,fs)
  else
    let p := fat32GetParentCluster fs path
    if p.1.1=0 ∨ p.1.2=[] then (false,p.2)
    else
      let name83 := filenameTo83 p.1.2
      let s := fat32ScanDir p.2 p.1.1 (writeSlotCb name83) WriteSlot.none
      match dirClaimSlot s.2 p.1.1 s.1 with
      | (none,fs) => (false,fs)
      | (some ctx,fs) =>
        let fs :=
          if ctx.nameMatched ∧ ctx.existing.fstClus≠0 then fat32FreeChain fs ctx.existing.fstClus
          else fs
        let needed := (buf.length+fs.bpc-1)%2^32/fs.bpc
        match placeClusters buf needed 0 0 0 false fs with
        | ((none,first),fs) =>
          let fs := if first≠0 then fat32FreeChain fs first else fs
          let fs :=
            if ctx.nameMatched then
              (rewriteSlot fs ctx.lba fun sec => putSize (putClus sec ctx.freeSlot 0)
                ctx.freeSlot 0).2
            else fs
          (false,fs)
        | ((some (first,err),_),fs) =>
          match fs.dev.readBlocks ctx.lba with
          | none => (false,if first≠0 then fat32FreeChain fs first else fs)
          | some sec =>
            let sec := putAttr (putName sec ctx.freeSlot name83) ctx.freeSlot attrArchive
            let sec := putSize (putClus sec ctx.freeSlot first) ctx.freeSlot buf.length
            let r := fs.write .data ctx.lba sec
            (r.1 && !err,r.2)

def fat32Truncate (fs : Fat32Fs) (path : Bytes) : Bool×Fat32Fs := fat32WriteFile fs path []

/-- The first sector of a new directory. -/
def dotEntries (clus upClus : Nat) : Sector :=
  let s := putClus (putAttr (putName zeroSector 0 dotName) 0 attrDirectory) 0 clus
  putClus (putAttr (putName s 1 dotdotName) 1 attrDirectory) 1 upClus

/-- The sectors after the first one, zeroed; stops at a write that fails. -/
def zeroRest (base : Nat) : Nat → Nat → Fat32Fs → Bool×Fat32Fs
  | 0,_,fs => (true,fs)
  | n+1,s,fs =>
    let r := fs.write .data ((base+s)%2^32) zeroSector
    if r.1 then zeroRest base n (s+1) r.2 else r

def fat32Mkdir (fs : Fat32Fs) (path : Bytes) : Bool×Fat32Fs :=
  let p := fat32GetParentCluster fs path
  let parent := p.1.1
  if parent=0 ∨ p.1.2=[] then (false,p.2)
  else
    let f := fat32FindFile p.2 path
    if f.1.isSome then (false,f.2)
    else
      let name83 := filenameTo83 p.1.2
      let s := fat32ScanDir f.2 parent (writeSlotCb name83) WriteSlot.none
      match dirClaimSlot s.2 parent s.1 with
      | (none,fs) => (false,fs)
      | (some ctx,fs) =>
        let a := fatAllocCluster fs
        let clus := a.1
        if clus=0 then (false,a.2)
        else
          let upClus := if parent=a.2.rootDirCluster then 0 else parent
          let base := a.2.clusterToLba clus
          let w := a.2.write .data base (dotEntries clus upClus)
          if !w.1 then (false,fat32FreeChain w.2 clus)
          else
            let z := zeroRest base (w.2.bpb.secPerClus-1) 1 w.2
            if !z.1 then (false,fat32FreeChain z.2 clus)
            else
              let r := rewriteSlot z.2 ctx.lba fun sec =>
                let sec := putAttr (putName sec ctx.freeSlot name83) ctx.freeSlot attrDirectory
                putSize (putClus sec ctx.freeSlot clus) ctx.freeSlot 0
              if !r.1 then (false,fat32FreeChain r.2 clus) else (true,r.2)

structure RemoveCtx where
  removed : Bool
  wrongKind : Bool

def removeFileStep (name83 : Bytes) (wantDir : Bool) (fs : Fat32Fs) (lba : Nat) (sec : Sector)
    (i : Nat) (ctx : RemoveCtx) : (Bool×RemoveCtx)×Fat32Fs :=
  let e := entryAt sec i
  if e.isEnd then ((true,ctx),fs)
  else if dirEntryIsSkippable e then ((false,ctx),fs)
  else if e.name=name83 then
    if e.isDirectory≠wantDir then ((true,{ ctx with wrongKind := true }),fs)
    else
      let fs := if e.fstClus≠0 then fat32FreeChain fs e.fstClus else fs
      let fs := (fs.write .data lba (putName sec i [0xE5])).2
      ((true,{ ctx with removed := true }),fs)
  else ((false,ctx),fs)

def removeFileCb (name83 : Bytes) (wantDir : Bool) : ScanFn RemoveCtx :=
  eachEntry (removeFileStep name83 wantDir) 16 0

def fat32RemoveEntry (fs : Fat32Fs) (path : Bytes) (wantDir : Bool) : Bool×Fat32Fs :=
  let p := fat32GetParentCluster fs path
  if p.1.1=0 ∨ p.1.2=[] then (false,p.2)
  else
    let r := fat32ScanDir p.2 p.1.1 (removeFileCb (filenameTo83 p.1.2) wantDir) ⟨false,false⟩
    (r.1.removed,r.2)

def fat32RemoveFile (fs : Fat32Fs) (path : Bytes) : Bool×Fat32Fs := fat32RemoveEntry fs path false

def dirEmptyCheckCb : ScanFn Bool :=
  looking fun _ _ e a =>
    if e.isEnd then (true,a)
    else if e.isDeleted || dirEntryIsCorrupt e || isDotName e.name then (false,a)
    else (true,true)

def fat32Rmdir (fs : Fat32Fs) (path : Bytes) : Bool×Fat32Fs :=
  let f := fat32FindFile fs path
  match f.1 with
  | none => (false,f.2)
  | some entry =>
    if !entry.isDirectory then (false,f.2)
    else if entry.fstClus=0 ∨ entry.fstClus=f.2.rootDirCluster then (false,f.2)
    else
      let c := fat32ScanDir f.2 entry.fstClus dirEmptyCheckCb false
      if c.1 then (false,c.2)
      else fat32RemoveEntry (fat32FreeChain c.2 entry.fstClus) path true

end LugalOS.Fat32
