import LugalOS.Fat32.Files

namespace LugalOS.Fat32

open CString LittleEndian

/-- Several byte strings stored into a sector, in order. -/
def patchAll (s : Sector) (fields : List (Nat×Bytes)) : Sector :=
  fields.foldl (fun s f => patch s f.1 f.2) s

/-- n blocks from lba on, zeroed; stops at a write that fails. -/
def zeroBlocks (lba : Nat) : Nat → BlockDev → Bool×BlockDev
  | 0,dev => (true,dev)
  | n+1,dev =>
    let r := dev.writeBlocks .format lba zeroSector
    if r.1 then zeroBlocks (lba+1) n r.2 else r

/-- The start of a FAT: media, end-of-chain, and the root directory, a chain of one. -/
def fatHead : Sector := setWord (setWord (setWord zeroSector 0 endOfChain) 1 endMark) 2 endMark

/-- Sectors per cluster of a plain format: doubled while there would be over 65536 clusters. -/
def formatSpc (blocks : Nat) : Nat → Nat → Nat
  | 0,spc => spc
  | n+1,spc => if spc<64 ∧ (blocks-32)/spc>65536 then formatSpc blocks n (spc*2) else spc

def formatBoot (blocks spc fatSz : Nat) : Sector :=
  patchAll zeroSector [(0,[0xEB,0x58,0x90]),(3,ofString "MSWIN4.1"),(11,leBytes 512 2),
    (13,leBytes spc 1),(14,leBytes 32 2),(16,leBytes 2 1),(32,leBytes blocks 4),
    (36,leBytes fatSz 4),(44,leBytes 2 4),(66,[0x29]),(71,ofString "LUGALOS_FAT"),
    (82,ofString "FAT32   "),(510,[0x55,0xAA])]

def fat32Format (dev : BlockDev) : Bool×BlockDev :=
  let reserved := 32
  let numFats := 2
  if dev.numBlocks ≤ reserved+numFats+1 then (false,dev)
  else
    let spc := formatSpc dev.numBlocks 6 1
    let fatSz := (((dev.numBlocks-reserved)/spc+2)*4+511)/512
    let dataStart := reserved+numFats*fatSz
    if dataStart+spc>dev.numBlocks then (false,dev)
    else
      let b := dev.writeBlocks .format 0 (formatBoot dev.numBlocks spc fatSz)
      if !b.1 then b
      else
        let z := zeroBlocks reserved (dataStart+spc-reserved) b.2
        if !z.1 then z
        else
          let f := z.2.writeBlocks .format reserved fatHead
          if !f.1 then f else f.2.writeBlocks .format (reserved+fatSz) fatHead

def mkfsAlign : Nat := 8192
def mkfsMinClust : Nat := 65525

/-- What the search for a cluster size settles: sectors per cluster, reserved, FAT size and
clusters. -/
structure MkfsShape where
  spc : Nat
  reserved : Nat
  fatSz : Nat
  clusters : Nat

def mkfsShape (partStart partSize spc : Nat) : MkfsShape :=
  let most := (partSize-32)/spc
  let fatSz := ((most+2)*4+511)/512
  let dataAbs := partStart+32+2*fatSz
  let reserved := 32+(mkfsAlign-dataAbs%mkfsAlign)%mkfsAlign
  ⟨spc,reserved,fatSz,(partSize-reserved-2*fatSz)/spc⟩

/-- The largest cluster that still leaves enough clusters; none below one sector. -/
def mkfsSearch (partStart partSize : Nat) : Nat → Nat → Option MkfsShape
  | 0,_ => none
  | n+1,spc =>
    let m := mkfsShape partStart partSize spc
    if m.clusters≥mkfsMinClust then some m else mkfsSearch partStart partSize n (spc/2)

def mkfsLabel (label : Bytes) : Bytes :=
  let l := if label=[] then ofString "LUGALOS" else label
  (l.take 11).map toUpper++List.replicate (11-l.length) space

def mkfsMbr (partStart partSize volId : Nat) : Sector :=
  patchAll zeroSector [(0x1B8,leBytes volId 4),
    (0x1BE,[0x00,0xFE,0xFF,0xFF,0x0C,0xFE,0xFF,0xFF]),(0x1BE+8,leBytes partStart 4),
    (0x1BE+12,leBytes partSize 4),(510,[0x55,0xAA])]

def mkfsBoot (m : MkfsShape) (partStart partSize volId : Nat) (lab : Bytes) : Sector :=
  patchAll zeroSector [(0,[0xEB,0x58,0x90]),(3,ofString "MSWIN4.1"),(11,leBytes 512 2),
    (13,leBytes m.spc 1),(14,leBytes m.reserved 2),(16,leBytes 2 1),(21,[0xF8]),
    (24,leBytes 63 2),(26,leBytes 255 2),(28,leBytes partStart 4),(32,leBytes partSize 4),
    (36,leBytes m.fatSz 4),(44,leBytes 2 4),(48,leBytes 1 2),(50,leBytes 6 2),(64,[0x80]),
    (66,[0x29]),(67,leBytes volId 4),(71,lab),(82,ofString "FAT32   "),(510,[0x55,0xAA])]

def mkfsInfo (clusters : Nat) : Sector :=
  let s := setWord (setWord zeroSector fsinfoWLead fsinfoLeadSig) fsinfoWStruc fsinfoStrucSig
  setWord (setWord (setWord s fsinfoWFree (clusters-1)) fsinfoWNxt 3) fsinfoWTrail fsinfoTrailSig

/-- Writes issued one after the other; stops at one that fails. -/
def writeAll : List (Nat×Sector) → BlockDev → Bool×BlockDev
  | [],dev => (true,dev)
  | (lba,s)::rest,dev =>
    let r := dev.writeBlocks .format lba s
    if r.1 then writeAll rest r.2 else r

def fat32Mkfs (dev : BlockDev) (label : Bytes) (volId : Nat) : Bool×BlockDev :=
  if dev.numBlocks ≤ mkfsAlign*2 then (false,dev)
  else
    let p := mkfsAlign
    let partSize := dev.numBlocks-p
    match mkfsSearch p partSize 7 64 with
    | none => (false,dev)
    | some m =>
      let dataRel := m.reserved+2*m.fatSz
      let lab := mkfsLabel label
      let boot := mkfsBoot m p partSize volId lab
      let h := writeAll [(0,mkfsMbr p partSize volId),(p,boot),(p+6,boot),
        (p+1,mkfsInfo m.clusters),(p+7,mkfsInfo m.clusters)] dev
      if !h.1 then h
      else
        -- the reserved sectors but 0, 1, 6 and 7, the FATs and the root cluster
        let a := zeroBlocks (p+2) 4 h.2
        if !a.1 then a
        else
          let z := zeroBlocks (p+8) (dataRel+m.spc-8) a.2
          if !z.1 then z
          else
            let root := putAttr (putName zeroSector 0 lab) 0 attrVolumeId
            writeAll [(p+m.reserved,fatHead),(p+m.reserved+m.fatSz,fatHead),(p+dataRel,root)] z.2

def byteAt (s : Sector) (o : Nat) : Nat := (s o).toNat

def readBpb (s : Sector) : Bpb where
  bytesPerSec := leAt s 11 2
  secPerClus := byteAt s 13
  reservedSecCnt := leAt s 14 2
  numFats := byteAt s 16
  totSec16 := leAt s 19 2
  totSec32 := leAt s 32 4
  fatSz32 := leAt s 36 4
  rootClus := leAt s 44 4
  fsInfo := leAt s 48 2
  bootSig := byteAt s 66

/-- Where the volume starts: the first partition of an MBR, or sector 0. -/
def partitionLba (s : Sector) : Nat :=
  let type := byteAt s (0x1BE+4)
  let start := leAt s (0x1BE+8) 4
  if byteAt s 510=0x55 ∧ byteAt s 511=0xAA ∧
    (type=0x0B ∨ type=0x0C ∨ type=0x07 ∨ type=0x0E) ∧ start>0 ∧ start<0x0FFFFFFF then start else 0

def totalClustersOf (b : Bpb) : Nat :=
  let totalSec := if b.totSec32≠0 then b.totSec32 else b.totSec16
  let fatArea := (b.reservedSecCnt+b.numFats*b.fatSz32)%2^32
  let total := if b.secPerClus≠0 ∧ totalSec>fatArea then (totalSec-fatArea)/b.secPerClus else 0
  let fatEntries := b.fatSz32*128%2^32
  if fatEntries≥2 ∧ total>fatEntries-2 then fatEntries-2 else total

def layoutOf (partition : Nat) (b : Bpb) : Layout :=
  let fatStart := (partition+b.reservedSecCnt)%2^32
  { bpb := b
    fatStartSector := fatStart
    dataStartSector := (fatStart+b.numFats*b.fatSz32%2^32)%2^32
    rootDirCluster := b.rootClus
    bytesPerCluster := b.secPerClus*b.bytesPerSec
    totalClusters := totalClustersOf b }

def Layout.usable (l : Layout) : Bool :=
  l.bpb.bytesPerSec=512 ∧ l.bpb.secPerClus≠0 ∧ l.bpb.secPerClus &&& (l.bpb.secPerClus-1)=0 ∧
  l.bpb.fatSz32≠0 ∧ l.bpb.numFats≠0 ∧ l.bpb.reservedSecCnt≠0 ∧ l.totalClusters≠0 ∧
  l.rootDirCluster≥2 ∧ l.rootDirCluster<l.endCluster

/-- fat32_init on a fat32_fs_t whose generation and cache buffer are given. -/
def fat32Init (dev : BlockDev) (gen : Nat) (cache : Option Sector) : Option Fat32Fs :=
  match dev.readBlocks 0 with
  | none => none
  | some s0 =>
    let partition := partitionLba s0
    match (if partition>0 then dev.readBlocks partition else some s0) with
    | none => none
    | some s =>
      let b := readBpb s
      if b.bootSig≠0x29 ∧ byteAt s 510≠0x55 then none
      else
        let l := layoutOf partition b
        if !l.usable then none
        else
          let fs : Fat32Fs :=
            { toLayout := l, dev := dev, freeCount := freeUnknown, nextFree := 2
              allocIoError := false, fsinfoLba := 0, fsinfoValid := false, modified := false
              gen := gen+1, fatCache := cache, fatCacheLba := 0, outOfSteps := false }
          let lba := (partition+b.fsInfo)%2^32
          if b.fsInfo≥1 ∧ b.fsInfo<b.reservedSecCnt then
            match dev.readBlocks lba with
            | none => some fs
            | some info =>
              if word info fsinfoWLead=fsinfoLeadSig ∧ word info fsinfoWStruc=fsinfoStrucSig ∧
                word info fsinfoWTrail=fsinfoTrailSig then
                let fc := word info fsinfoWFree
                let nf := word info fsinfoWNxt
                let fs := { fs with fsinfoLba := lba }
                let fs := if fc≤l.totalClusters then
                    { fs with freeCount := fc, fsinfoValid := true } else fs
                some (if nf≥2 ∧ nf<l.endCluster then { fs with nextFree := nf } else fs)
              else some fs
          else some fs

def fat32Sync (fs : Fat32Fs) : Fat32Fs :=
  if fs.modified ∧ !fs.fsinfoValid ∧ fs.freeCount≠freeUnknown ∧ fs.fsinfoLba≠0 then
    { fsinfoWrite fs fs.freeCount with fsinfoValid := true }
  else fs

/-- Free entries among n words of a FAT sector, the first of which is entry `first`. -/
def countSector (sec : Sector) (first stop : Nat) : Nat :=
  ((List.range 128).filter fun i =>
    first+i < stop ∧ first+i≥2 ∧ word sec i%2^28=0).length

def countLoop (fs : Fat32Fs) : Nat → Nat → Nat → Option Nat×Fat32Fs
  | 0,_,_ => (none,{ fs with outOfSteps := true })
  | n+1,first,acc =>
    if first<fs.endCluster then
      match fs.dev.readBlocks ((fs.fatStartSector+first/128)%2^32) with
      | none => (none,fs)
      | some sec => countLoop fs n ((first+128)%2^32) (acc+countSector sec first fs.endCluster)
    else (some acc,fs)

def fat32Statfs (fs : Fat32Fs) : (Nat×Nat)×Fat32Fs :=
  let totalSec := if fs.bpb.totSec32≠0 then fs.bpb.totSec32 else fs.bpb.totSec16
  let fs :=
    if fs.freeCount=freeUnknown then
      match countLoop fs (fs.totalClusters+3) 0 0 with
      | (none,fs) => fs
      | (some n,fs) => { fs with freeCount := n }
    else fs
  let free := if fs.freeCount=freeUnknown then 0 else fs.freeCount
  ((totalSec*(fs.bpb.bytesPerSec/512)%2^32,free*(fs.bytesPerCluster/512)%2^32),fat32Sync fs)

def fat32Recount (fs : Fat32Fs) : Nat×Fat32Fs :=
  let r := fat32Statfs
    { fs with freeCount := freeUnknown, modified := true, fsinfoValid := false }
  (fs.freeCount,r.2)

/-- fat32_check_t. -/
structure CheckOut where
  files : Nat
  dirs : Nat
  clusters : Nat
  cross : Nat
  badChain : Nat
  size : Nat
  lost : Nat
  skipped : Nat

/-- The bitmap, the queue of directories still to walk, and the counts. -/
structure CheckCtx where
  bits : Nat → Bool
  queue : List Nat
  qcap : Nat
  out : CheckOut

/-- Marks a chain; n bounds the clusters still allowed, len counts those marked. -/
def checkChainLoop : Nat → Fat32Fs → CheckCtx → Nat → Nat → (Nat×CheckCtx)×Fat32Fs
  | 0,fs,c,_,len => ((len,c),fs)
  | n+1,fs,c,clus,len =>
    if clus<2 ∨ clus≥fs.endCluster then
      ((len,{ c with out := { c.out with badChain := c.out.badChain+1 } }),fs)
    else if c.bits clus then ((len,{ c with out := { c.out with cross := c.out.cross+1 } }),fs)
    else
      let c := { c with
        bits := Function.update c.bits clus true
        out := { c.out with clusters := c.out.clusters+1 } }
      match fatReadEntry fs clus with
      | (none,fs) => ((len+1,c),fs)
      | (some next,fs) =>
        if next≥endOfChain then ((len+1,c),fs)
        else if next<2 then
          ((len+1,{ c with out := { c.out with badChain := c.out.badChain+1 } }),fs)
        else checkChainLoop n fs c next (len+1)

def checkChain (fs : Fat32Fs) (c : CheckCtx) (first : Nat) : (Nat×CheckCtx)×Fat32Fs :=
  checkChainLoop (fs.totalClusters+1) fs c first 0

def checkDirStep (fs : Fat32Fs) (_ : Nat) (sec : Sector) (i : Nat) (c : CheckCtx) :
    (Bool×CheckCtx)×Fat32Fs :=
  let e := entryAt sec i
  if e.isEnd then ((true,c),fs)
  else if dirEntryIsSkippable e ∨ e.head=dot then ((false,c),fs)
  else if e.isDirectory then
    let c := { c with out := { c.out with dirs := c.out.dirs+1 } }
    if e.fstClus=0 then ((false,c),fs)
    else
      let seen := e.fstClus≥2 ∧ e.fstClus<fs.endCluster ∧ c.bits e.fstClus
      let r := checkChain fs c e.fstClus
      let c := r.1.2
      if seen then ((false,c),r.2)
      else if c.queue.length<c.qcap then ((false,{ c with queue := c.queue++[e.fstClus] }),r.2)
      else ((false,{ c with out := { c.out with skipped := c.out.skipped+1 } }),r.2)
  else
    let c := { c with out := { c.out with files := c.out.files+1 } }
    let need := (e.fileSize+fs.bpc-1)%2^32/fs.bpc
    let r := if e.fstClus≠0 then checkChain fs c e.fstClus else ((0,c),fs)
    let c := r.1.2
    if r.1.1≠need ∧ ¬(e.fstClus=0 ∧ need=0) then
      ((false,{ c with out := { c.out with size := c.out.size+1 } }),r.2)
    else ((false,c),r.2)

def checkDirs : Nat → Fat32Fs → CheckCtx → CheckCtx×Fat32Fs
  | 0,fs,c => (c,{ fs with outOfSteps := true })
  | n+1,fs,c =>
    match c.queue with
    | [] => (c,fs)
    | d::rest =>
      let r := fat32ScanDir fs d (eachEntry checkDirStep 16 0) { c with queue := rest }
      checkDirs n r.2 r.1

/-- Entries in use that no chain reached, in one FAT sector from cluster clus on. -/
def lostInSector (sec : Sector) (bits : Nat → Bool) (clus stop : Nat) : Nat :=
  ((List.range (min (128-clus%128) (stop-clus))).filter fun j =>
    word sec (clus%128+j)%2^28≠0 ∧ !bits (clus+j)).length

def lostLoop (fs : Fat32Fs) (bits : Nat → Bool) : Nat → Nat → Nat → (Bool×Nat)×Fat32Fs
  | 0,_,lost => ((true,lost),{ fs with outOfSteps := true })
  | n+1,clus,lost =>
    if clus<fs.endCluster then
      match fs.dev.readBlocks (fs.fatSector clus) with
      | none => ((false,lost),fs)
      | some sec =>
        lostLoop fs bits n (clus+min (128-clus%128) (fs.endCluster-clus))
          (lost+lostInSector sec bits clus fs.endCluster)
    else ((true,lost),fs)

/-- Scans the queue can ask for: each cluster once, and every entry of a directory once. -/
def Layout.checkSteps (l : Layout) : Nat :=
  (l.totalClusters+2)*(16*l.bpb.secPerClus*(l.totalClusters+1)+1)+1

def fat32Check (fs : Fat32Fs) (bitmapBytes qcap : Nat) : Option (Bool×CheckOut)×Fat32Fs :=
  if qcap=0 ∨ bitmapBytes<(fs.totalClusters+2+7)%2^32/8 then (none,fs)
  else
    let c : CheckCtx := ⟨fun _ => false,[],qcap,⟨0,0,0,0,0,0,0,0⟩⟩
    let r := checkChain fs c fs.rootDirCluster
    let w := checkDirs fs.checkSteps r.2 { r.1.2 with queue := [fs.rootDirCluster] }
    let l := lostLoop w.2 w.1.bits (fs.totalClusters+3) 2 0
    (some (l.1.1,{ w.1.out with lost := l.1.2 }),l.2)

/-- A device of n zeroed blocks. -/
def blankDev (n : Nat) (h : n<2^32) : BlockDev := ⟨n,h,fun _ => zeroSector,[]⟩

/-- 32 KB, formatted and mounted without a FAT cache. -/
def smallVolume : Fat32Fs :=
  (fat32Init (fat32Format (blankDev 64 (by decide))).2 0 none).get (by decide +kernel)

end LugalOS.Fat32
