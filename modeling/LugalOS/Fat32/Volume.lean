import LugalOS.Lib.LittleEndian

namespace LugalOS.Fat32

open LittleEndian

/-- A 512-byte sector; nothing past byte 511 is read. -/
abbrev Sector := Nat → UInt8

def zeroSector : Sector := fun _ => 0

def word (s : Sector) (k : Nat) : Nat := leAt s (4*k) 4
def setWord (s : Sector) (k v : Nat) : Sector := putLe s (4*k) 4 v

/-- What a block write is for. -/
inductive WriteKind
  | fat | data | fsInfo | format
  deriving DecidableEq

/-- A working device: reads and writes inside it succeed. Every write issued is recorded,
latest first. -/
structure BlockDev where
  numBlocks : Nat
  small : numBlocks<2^32
  blocks : Nat → Sector
  writes : List (WriteKind×Nat)

def BlockDev.readBlocks (dev : BlockDev) (lba : Nat) : Option Sector :=
  if lba<dev.numBlocks then some (dev.blocks lba) else none

def BlockDev.writeBlocks (dev : BlockDev) (kind : WriteKind) (lba : Nat) (s : Sector) :
    Bool×BlockDev :=
  (lba<dev.numBlocks,
    { dev with
      blocks := if lba<dev.numBlocks then Function.update dev.blocks lba s else dev.blocks
      writes := (kind,lba)::dev.writes })

/-- The fields of the boot sector that the driver reads. -/
structure Bpb where
  bytesPerSec : Nat
  secPerClus : Nat
  reservedSecCnt : Nat
  numFats : Nat
  totSec16 : Nat
  totSec32 : Nat
  fatSz32 : Nat
  rootClus : Nat
  fsInfo : Nat
  bootSig : Nat

/-- The part of fat32_fs_t that a mount fixes. -/
structure Layout where
  bpb : Bpb
  fatStartSector : Nat
  dataStartSector : Nat
  rootDirCluster : Nat
  bytesPerCluster : Nat
  totalClusters : Nat

/-- fat32_fs_t. `gen` counts every freed chain; the source keeps it modulo 2^32. `outOfSteps`
is set when a loop uses up the steps it is given here, where the source would go on. -/
structure Fat32Fs extends Layout where
  dev : BlockDev
  freeCount : Nat
  nextFree : Nat
  allocIoError : Bool
  fsinfoLba : Nat
  fsinfoValid : Bool
  modified : Bool
  gen : Nat
  fatCache : Option Sector
  fatCacheLba : Nat
  outOfSteps : Bool

def freeUnknown : Nat := 0xFFFFFFFF
def endOfChain : Nat := 0x0FFFFFF8
def endMark : Nat := 0x0FFFFFFF

def fsinfoLeadSig : Nat := 0x41615252
def fsinfoStrucSig : Nat := 0x61417272
def fsinfoTrailSig : Nat := 0xAA550000
def fsinfoWLead : Nat := 0
def fsinfoWStruc : Nat := 484/4
def fsinfoWFree : Nat := 488/4
def fsinfoWNxt : Nat := 492/4
def fsinfoWTrail : Nat := 508/4

/-- Past the last cluster: total_clusters+2 in 32 bits. -/
def Layout.endCluster (l : Layout) : Nat := (l.totalClusters+2)%2^32

def Layout.clusterToLba (l : Layout) (cluster : Nat) : Nat :=
  (l.dataStartSector+(cluster+(2^32-2))%2^32*l.bpb.secPerClus)%2^32

/-- Where the FAT entry of a cluster is: sector and word. -/
def Layout.fatSector (l : Layout) (cluster : Nat) : Nat :=
  (l.fatStartSector+cluster*4%2^32/512)%2^32
def fatWord (cluster : Nat) : Nat := cluster*4%2^32%512/4

def Fat32Fs.write (fs : Fat32Fs) (kind : WriteKind) (lba : Nat) (s : Sector) : Bool×Fat32Fs :=
  let r := fs.dev.writeBlocks kind lba s
  (r.1,{ fs with dev := r.2 })

def fsinfoWrite (fs : Fat32Fs) (freeCount : Nat) : Fat32Fs :=
  if fs.fsinfoLba=0 then fs
  else match fs.dev.readBlocks fs.fsinfoLba with
    | none => fs
    | some sec =>
      if word sec fsinfoWLead≠fsinfoLeadSig ∨ word sec fsinfoWStruc≠fsinfoStrucSig then fs
      else
        let sec := setWord sec fsinfoWFree freeCount
        let sec := setWord sec fsinfoWNxt fs.nextFree
        (fs.write .fsInfo fs.fsinfoLba sec).2

def fatWillChange (fs : Fat32Fs) : Fat32Fs :=
  let fs := { fs with modified := true }
  if fs.fsinfoValid then { fsinfoWrite fs freeUnknown with fsinfoValid := false } else fs

def fatSectorWords (fs : Fat32Fs) (lba : Nat) : Option Sector×Fat32Fs :=
  match fs.fatCache with
  | some w =>
    if fs.fatCacheLba≠lba then
      match fs.dev.readBlocks lba with
      | none => (none,{ fs with fatCacheLba := 0 })
      | some s => (some s,{ fs with fatCache := some s, fatCacheLba := lba })
    else (some w,fs)
  | none => (fs.dev.readBlocks lba,fs)

def fatReadEntry (fs : Fat32Fs) (cluster : Nat) : Option Nat×Fat32Fs :=
  let r := fatSectorWords fs (fs.fatSector cluster)
  (r.1.map fun w => word w (fatWord cluster)%2^28,r.2)

/-- An unreadable FAT sector ends the chain. -/
def fatGetEntry (fs : Fat32Fs) (cluster : Nat) : Nat×Fat32Fs :=
  let r := fatReadEntry fs cluster
  (r.1.getD endMark,r.2)

/-- One sector to FAT1, to the second copy if there is one, and to the cache. -/
def writeFat (fs : Fat32Fs) (lba : Nat) (sec : Sector) : Fat32Fs :=
  let fs := { fs with fatCache := fs.fatCache.map fun _ => sec }
  let fs := (fs.write .fat lba sec).2
  if fs.bpb.numFats>1 then (fs.write .fat ((lba+fs.bpb.fatSz32)%2^32) sec).2 else fs

/-- The top four bits of the entry are kept. -/
def fatSetEntry (fs : Fat32Fs) (cluster value : Nat) : Fat32Fs :=
  let lba := fs.fatSector cluster
  match fatSectorWords (fatWillChange fs) lba with
  | (none,fs) => fs
  | (some w,fs) =>
    let old := word w (fatWord cluster)
    writeFat fs lba (setWord w (fatWord cluster) (old/2^28*2^28+value%2^28))

def countFreed (fs : Fat32Fs) (clus : Nat) : Fat32Fs :=
  { fs with
    freeCount := if fs.freeCount≠freeUnknown then fs.freeCount+1 else fs.freeCount
    nextFree := if clus<fs.nextFree then clus else fs.nextFree }

def freeChainLoop : Nat → Fat32Fs → Nat → Fat32Fs
  | 0,fs,_ => { fs with outOfSteps := true }
  | n+1,fs,clus =>
    if clus<2 ∨ clus≥fs.endCluster then fs
    else
      let r := fatGetEntry fs clus
      let next := r.1
      let fs := r.2
      if next=0 then fs
      else
        let fs := countFreed (fatSetEntry fs clus 0) clus
        if next=clus then fs else freeChainLoop n fs next

/-- The loop zeroes an entry or meets an unreadable one: the number of clusters bounds it. -/
def fat32FreeChain (fs : Fat32Fs) (first : Nat) : Fat32Fs :=
  freeChainLoop (2*fs.totalClusters+2) { fs with gen := fs.gen+1 } first

/-- A count of 0 was wrong when a free cluster turned up. -/
def allocTake (fs : Fat32Fs) (c : Nat) : Fat32Fs :=
  let fs := fatSetEntry fs c endMark
  { fs with
    freeCount := if fs.freeCount=0 then freeUnknown
      else if fs.freeCount≠freeUnknown then fs.freeCount-1 else fs.freeCount
    nextFree := if c+1<fs.endCluster then c+1 else 2 }

def allocLoop (start : Nat) : Nat → Fat32Fs → Nat → Nat×Fat32Fs
  | 0,fs,_ => (0,{ fs with outOfSteps := true })
  | n+1,fs,c =>
    match fatReadEntry fs c with
    | (none,fs) => (0,{ fs with allocIoError := true })
    | (some v,fs) =>
      if v=0 then (c,allocTake fs c)
      else
        let c := if c+1≥fs.endCluster then 2 else c+1
        if c=start then (0,{ fs with freeCount := 0 }) else allocLoop start n fs c

/-- The first free cluster from next_free on, wrapping once; 0 when there is none. -/
def fatAllocCluster (fs : Fat32Fs) : Nat×Fat32Fs :=
  if fs.totalClusters=0 then (0,fs)
  else
    let start := if fs.nextFree≥2 ∧ fs.nextFree<fs.endCluster then fs.nextFree else 2
    allocLoop start fs.totalClusters { fs with allocIoError := false } start

/-- Every sector of a cluster, zeroed; the results of the writes are not looked at. -/
def zeroSectors (base : Nat) : Nat → Nat → Fat32Fs → Fat32Fs
  | 0,_,fs => fs
  | n+1,s,fs => zeroSectors base n (s+1) (fs.write .data ((base+s)%2^32) zeroSector).2

def zeroCluster (fs : Fat32Fs) (cluster : Nat) : Fat32Fs :=
  zeroSectors (fs.clusterToLba cluster) fs.bpb.secPerClus 0 fs

end LugalOS.Fat32
