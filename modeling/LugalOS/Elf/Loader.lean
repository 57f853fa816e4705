import Mathlib.Data.Fintype.Basic
import LugalOS.Elf.Format

namespace LugalOS.Elf

def memR : UInt8 := 1
def memW : UInt8 := 2
def memX : UInt8 := 4

structure Region where
  base : Nat
  size : Nat
  perms : UInt8
  deriving DecidableEq

/-- What one build makes of a memory domain: the width of an address, the region budget, and
the ranges that locked PMP entries grant already (none under Sv39). -/
structure DomainConfig where
  xlen : Nat
  maxRegions : Nat := 5
  pmpIsCoveredLocked : Region → Bool := fun _ => false

/-- None when the domain is full or the range is not NAPOT. -/
def memDomainAdd (k : DomainConfig) (d : List Region) (r : Region) : Option (List Region) :=
  if k.pmpIsCoveredLocked r then some d
  else if k.maxRegions≤d.length then none
  else if r.size<32 ∨ r.size &&& (r.size-1)≠0 then none
  else if r.base &&& (r.size-1)≠0 then none
  else some (d++[r])

/-- The largest aligned power-of-two run at off that fits in left. -/
def napotPiece : Nat → Nat → Nat → Nat → Nat
  | 0,piece,_,_ => piece
  | n+1,piece,off,left =>
      if 2*piece≤left ∧ off &&& (2*piece-1)=0 then napotPiece n (2*piece) off left else piece

/-- The region of `count` pages from page `off` of the image. -/
def pageRegion (k : DomainConfig) (base off count : Nat) (perms : UInt8) : Region :=
  ⟨(base+off*4096)%2^k.xlen,count*4096,perms⟩

/-- Grants `left` pages from page `off`; the first argument bounds the turns of the loop, and
`left` of them are enough. None: more regions than the budget, or a region refused. -/
def grantNapotSpan (k : DomainConfig) (base : Nat) (perms : UInt8) :
    Nat → List Region → Nat → Nat → Nat → Nat → Option (List Region×Nat)
  | 0,d,_,_,_,used => some (d,used)
  | n+1,d,off,left,budget,used =>
      if left=0 then some (d,used)
      else
        let piece := napotPiece 32 1 off left
        if budget≤used then none
        else
          match memDomainAdd k d (pageRegion k base off piece perms) with
          | none => none
          | some d => grantNapotSpan k base perms n d (off+piece) (left-piece) budget (used+1)

/-- The loader's page range of a segment: first page and one past the last, in 32 bits. -/
def Seg.pageRange (s : Seg) : UInt32×UInt32 :=
  (s.vaddr/pageSize,(s.vaddr+s.memsz+pageSize-1)/pageSize)

def Seg.perms (s : Seg) : UInt8 := if s.flags &&& pfX≠0 then memR ||| memX else memR ||| memW

/-- Grants the segments in order; the number is the regions used so far. -/
def grantSegs (k : DomainConfig) (base : Nat) : List Seg → List Region → Nat → Option (List Region)
  | [],d,_ => some d
  | s::segs,d,regions =>
      let first := s.pageRange.1
      let last := s.pageRange.2
      if last≤first then grantSegs k base segs d regions
      else
        let count := (last-first).toNat
        match grantNapotSpan k base s.perms count d first.toNat count
            (k.maxRegions-1-regions) 0 with
        | none => none
        | some (d,n) => grantSegs k base segs d (regions+n)

theorem napotPiece_bounds (n piece off left : Nat) (h0 : 0<piece) (hl : piece≤left) :
    0<napotPiece n piece off left ∧ napotPiece n piece off left≤left := by
  induction n generalizing piece with
  | zero => exact ⟨h0,hl⟩
  | succ n ih =>
    unfold napotPiece
    by_cases h : 2*piece≤left ∧ off &&& (2*piece-1)=0
    · rw [if_pos h]
      exact ih (2*piece) (by omega) h.1
    · rw [if_neg h]
      exact ⟨h0,hl⟩

theorem memDomainAdd_some {k : DomainConfig} {d d' : List Region} {r : Region}
    (h : memDomainAdd k d r=some d') :
    (d'=d ∧ k.pmpIsCoveredLocked r=true) ∨ d'=d++[r] := by
  unfold memDomainAdd at h
  split_ifs at h with hc
  · exact .inl ⟨(Option.some.inj h).symm,hc⟩
  · exact .inr (Option.some.inj h).symm

/-- The page is inside a region of the list, or in one that is granted already. -/
def PageGranted (k : DomainConfig) (base : Nat) (perms : UInt8) (new : List Region) (q : Nat) :
    Prop :=
  ∃off count,off≤q ∧ q<off+count ∧ (pageRegion k base off count perms∈new ∨
    k.pmpIsCoveredLocked (pageRegion k base off count perms)=true)

/-- What a granted span adds: every page of it, and nothing outside it. -/
structure SpanGrant (k : DomainConfig) (base : Nat) (perms : UInt8) (off left : Nat)
    (new : List Region) : Prop where
  exact : ∀r∈new,∃o c,r=pageRegion k base o c perms ∧ 0<c ∧ off≤o ∧ o+c≤off+left
  covered : ∀q,off≤q → q<off+left → PageGranted k base perms new q

theorem PageGranted.mono {k : DomainConfig} {base : Nat} {perms : UInt8} {l l' : List Region}
    {q : Nat} (h : PageGranted k base perms l q) (hl : ∀r∈l,r∈l') :
    PageGranted k base perms l' q := by
  obtain ⟨o,c,h1,h2,h3⟩ := h
  exact ⟨o,c,h1,h2,h3.imp_left (hl _)⟩

theorem grantNapotSpan_some (k : DomainConfig) (base : Nat) (perms : UInt8) (n : Nat)
    (d d' : List Region) (off left budget used used' : Nat) (hn : left≤n)
    (h : grantNapotSpan k base perms n d off left budget used=some (d',used')) :
    ∃new,d'=d++new ∧ SpanGrant k base perms off left new := by
  induction n generalizing d off left used with
  | zero =>
    unfold grantNapotSpan at h
    cases h
    exact ⟨[],by simp,by simp,fun q h1 h2 => by omega⟩
  | succ n ih =>
    unfold grantNapotSpan at h
    by_cases hz : left=0
    · rw [if_pos hz] at h
      cases h
      exact ⟨[],by simp,by simp,fun q h1 h2 => by omega⟩
    rw [if_neg hz] at h
    obtain ⟨hp0,hpl⟩ := napotPiece_bounds 32 1 off left (by omega) (by omega)
    dsimp only at h
    by_cases hb : budget≤used
    · rw [if_pos hb] at h
      cases h
    rw [if_neg hb] at h
    cases ha : memDomainAdd k d (pageRegion k base off (napotPiece 32 1 off left) perms) with
    | none =>
      rw [ha] at h
      cases h
    | some d1 =>
      rw [ha] at h
      obtain ⟨new,hd,hnew⟩ := ih d1 _ _ _ (by omega) h
      -- the first piece is a new region, or one that was locked in before
      have hfirst : ∃first : List Region,d1=d++first ∧
          (∀r∈first,r=pageRegion k base off (napotPiece 32 1 off left) perms) ∧
          (pageRegion k base off (napotPiece 32 1 off left) perms∈first ∨
            k.pmpIsCoveredLocked (pageRegion k base off (napotPiece 32 1 off left) perms)=true) := by
        rcases memDomainAdd_some ha with ⟨rfl,hc⟩ | rfl
        · exact ⟨[],by simp,by simp,.inr hc⟩
        · exact ⟨[_],rfl,by simp,.inl (by simp)⟩
      obtain ⟨first,rfl,hr,hc⟩ := hfirst
      refine ⟨first++new,by rw [hd,List.append_assoc],?_,?_⟩
      · intro r hm
        rcases List.mem_append.mp hm with hm | hm
        · exact ⟨off,_,hr r hm,hp0,Nat.le_refl _,by omega⟩
        · obtain ⟨o,c,he,h1,h2,h3⟩ := hnew.exact r hm
          exact ⟨o,c,he,h1,by omega,by omega⟩
      · intro q h1 h2
        by_cases hq : q<off+napotPiece 32 1 off left
        · exact ⟨off,_,h1,hq,hc.imp_left fun h => List.mem_append.mpr (.inl h)⟩
        · exact (hnew.covered q (by omega) (by omega)).mono fun r h =>
            List.mem_append.mpr (.inr h)

open CString

def userProcMax : Nat := 4
def userArgvMaxBytes : Nat := 512
def userArgvMaxCount : Nat := 8

/-- A block that palloc hands out: whole pages, not at NULL, ending inside the address space. -/
structure Block (xlen pages : Nat) where
  addr : Nat
  nonNull : addr≠0
  aligned : 4096 ∣ addr
  fits : addr+pages*4096<2^xlen

/-- A slot of g_procs. -/
abbrev ProcId := Fin userProcMax

/-- An argument as the callers cut it: the shell's line buffer holds 256 bytes. -/
abbrev Arg := Buf 256

/-- One file and the kernel services one load asks; a pread answers the bytes it read. -/
structure Env extends DomainConfig where
  xlen_ok : xlen=32 ∨ xlen=64
  vfsOpen : Bytes → Int
  vfsFstat : Option UInt32
  content : Nat → UInt8
  vfsPread : Nat → Nat → Int
  schedDomainInUse : ProcId → Bool := fun _ => false
  pallocImage : (pages : Nat) → Option (Block xlen pages)
  pallocStack : Option (Block xlen 1)
  taskCreate : Int

structure UserProc where
  inUse : Bool := false
  pid : Int := -1
  image : Nat := 0
  imagePages : Nat := 0
  spanPages : Nat := 0
  ustack : Nat := 0
  entry : Nat := 0
  userSp : Nat := 0
  argvAddr : Nat := 0
  argc : Int := 0
  domain : List Region := []

/-- What a load claims and gives back. -/
inductive Resource where
  | fd (fd : Int)
  | pages (addr count : Nat)
  | domain (i : ProcId)
  | slot (i : ProcId)
  deriving DecidableEq

inductive Event where
  | claim (r : Resource)
  | release (r : Resource)
  /-- A write of len bytes to memory. -/
  | write (addr len : Nat)
  deriving DecidableEq

structure Loader where
  procs : ProcId → UserProc
  /-- Latest first. -/
  log : List Event := []

def Loader.claim (s : Loader) (r : Resource) : Loader := {s with log := .claim r::s.log}
def Loader.release (s : Loader) (r : Resource) : Loader := {s with log := .release r::s.log}
def Loader.write (s : Loader) (addr len : Nat) : Loader := {s with log := .write addr len::s.log}
def Loader.setProc (s : Loader) (i : ProcId) (p : UserProc) : Loader :=
  {s with procs := Function.update s.procs i p}

def procRelease (s : Loader) (i : ProcId) : Loader :=
  let p := s.procs i
  if !p.inUse then s
  else
    let s := s.release (.domain i)
    let s := if p.image≠0 then s.release (.pages p.image p.imagePages) else s
    let s := if p.ustack≠0 then s.release (.pages p.ustack 1) else s
    (s.release (.slot i)).setProc i
      {p with image := 0, ustack := 0, pid := -1, inUse := false, domain := []}

/-- Returns the slots of the programs whose task has ended. -/
def reapFinished (v : Env) (s : Loader) : Loader :=
  (List.finRange userProcMax).foldl (fun s i =>
    let p := s.procs i
    if !p.inUse || decide (p.pid<0) then s
    else if v.schedDomainInUse i then s
    else procRelease s i) s

/-- Subtraction of uintptr_t. -/
def subPtr (xlen a b : Nat) : Nat := (a+(2^xlen-b%2^xlen))%2^xlen

/-- A missing argument is the empty string. -/
def argBytes : Option Arg → Bytes
  | some a => a.bytes
  | none => []

/-- The strings, last first, downward from sp; none when one passes the limit. -/
def pushArgs (xlen limit : Nat) (argv : Nat → Option Arg) :
    Nat → Nat → Loader → Option Nat×Loader
  | 0,sp,s => (some sp,s)
  | n+1,sp,s =>
      let size := (argBytes (argv n)).length+1
      let sp := subPtr xlen sp size
      if sp<limit then (none,s) else pushArgs xlen limit argv n sp (s.write sp size)

/-- The address of the vector, the stack pointer below it and argc. -/
def buildArgv (v : Env) (ustack : Nat) (argc : Int) (argv : Nat → Option Arg) (s : Loader) :
    Option (Nat×Nat×Nat)×Loader :=
  let top := (ustack+4096)%2^v.xlen
  let limit := subPtr v.xlen top userArgvMaxBytes
  let argc := argc.toNat
  let word := v.xlen/8
  if userArgvMaxCount<argc then (none,s)
  else
    match pushArgs v.xlen limit argv argc top s with
    | (none,s) => (none,s)
    | (some sp,s) =>
      let sp := subPtr v.xlen (sp-sp%word) ((argc+1)*word)
      if sp<limit then (none,s)
      else (some (sp,sp-sp%16,argc),s.write sp ((argc+1)*word))

/-- A free slot with its image, its stack and its domain. -/
def procAlloc (v : Env) (imagePages : Nat) (s : Loader) : Option ProcId×Loader :=
  match (List.finRange userProcMax).find? fun i => !(s.procs i).inUse with
  | none => (none,s)
  | some i =>
    match v.pallocImage imagePages with
    | none => (none,s)
    | some image =>
      let s := s.claim (.pages image.addr imagePages)
      match v.pallocStack with
      | none =>
        (none,(s.release (.pages image.addr imagePages)).setProc i
          {s.procs i with image := 0, imagePages := imagePages})
      | some stack =>
        let s := ((s.claim (.pages stack.addr 1)).claim (.domain i)).claim (.slot i)
        let domain := (memDomainAdd v.toDomainConfig [] ⟨stack.addr,4096,memR ||| memW⟩).getD []
        (some i,s.setProc i
          {s.procs i with
            inUse := true, pid := -1, image := image.addr, imagePages := imagePages,
            ustack := stack.addr, domain := domain})

/-- What the headers ask for. -/
structure Plan where
  segs : List Seg
  pages : UInt32
  span : UInt32
  entry : Nat

/-- The checks of load_into_slot_locked that come before anything but the file is claimed. -/
def loadPlan (v : Env) : Except ElfError Plan :=
  match v.vfsFstat with
  | none => .error .statFailed
  | some fsize =>
    let want := min fsize.toNat 1024
    if v.vfsPread 0 want≠want then .error .headerRead
    else
      match parseHeaders ((List.range want).map v.content) fsize with
      | .error e => .error e
      | .ok (segs,entry) =>
        match imageSpanPages segs with
        | .error e => .error e
        | .ok (pages,span) =>
          let entry := entry%2^v.xlen
          if userTextMax.toNat<entry then .error .entryOutside else .ok ⟨segs,pages,span,entry⟩

/-- Reads the segments into the image; false at the first short read. -/
def copySegs (v : Env) (image : Nat) : List Seg → Loader → Bool×Loader
  | [],s => (true,s)
  | seg::segs,s =>
      if seg.filesz=0 then copySegs v image segs s
      else
        let s := s.write ((image+seg.vaddr.toNat)%2^v.xlen) seg.filesz.toNat
        if v.vfsPread seg.off.toNat seg.filesz.toNat≠seg.filesz.toNat then (false,s)
        else copySegs v image segs s

/-- From the claimed slot on; every failure releases the slot. -/
def loadImage (v : Env) (fd : Int) (plan : Plan) (argc : Int) (argv : Nat → Option Arg)
    (i : ProcId) (s : Loader) : Option ProcId×Loader :=
  let image := (s.procs i).image
  let s := s.write image (plan.pages.toNat*4096)
  match copySegs v image plan.segs s with
  | (false,s) => (none,procRelease (s.release (.fd fd)) i)
  | (true,s) =>
    let s := s.release (.fd fd)
    match grantSegs v.toDomainConfig image plan.segs (s.procs i).domain 0 with
    | none => (none,procRelease s i)
    | some domain =>
      let s := s.write ((image+4096-exitStubBytes.toNat)%2^v.xlen) exitStubBytes.toNat
      let s := s.setProc i
        {s.procs i with domain := domain, entry := (image+plan.entry)%2^v.xlen}
      match buildArgv v (s.procs i).ustack argc argv s with
      | (none,s) => (none,procRelease s i)
      | (some (argvAddr,userSp,argc),s) =>
        let s := s.setProc i
          {s.procs i with
            argvAddr := argvAddr, userSp := userSp, argc := argc, spanPages := plan.span.toNat,
            pid := v.taskCreate}
        if v.taskCreate<0 then (none,procRelease s i) else (some i,s)

def loadIntoSlotLocked (v : Env) (path : Option Bytes) (argc : Int) (argv : Nat → Option Arg)
    (s : Loader) : Option ProcId×Loader :=
  match path with
  | none => (none,s)
  | some path =>
    let s := reapFinished v s
    let fd := v.vfsOpen path
    if fd<0 then (none,s)
    else
      let s := s.claim (.fd fd)
      match loadPlan v with
      | .error _ => (none,s.release (.fd fd))
      | .ok plan =>
        match procAlloc v plan.pages.toNat s with
        | (none,s) => (none,s.release (.fd fd))
        | (some i,s) => loadImage v fd plan argc argv i s

end LugalOS.Elf
