import LugalOS.Lib.CString
import LugalOS.Lib.LittleEndian

namespace LugalOS.Elf

open CString LittleEndian

def pageSize : UInt32 := 4096
def exitStubBytes : UInt32 := 16
def userImageMaxPages : UInt32 := 64

/-- What a program may occupy of its first page. -/
def userTextMax : UInt32 := pageSize-exitStubBytes

def maxSegs : Nat := 4
def elfMagic : Bytes := [0x7f,0x45,0x4c,0x46]
def emRiscv : Nat := 0xF3
def ptLoad : UInt32 := 1
def pfX : UInt32 := 1
def pfR : UInt32 := 4

/-- One PT_LOAD segment; vaddr is an offset within the image. -/
structure Seg where
  off : UInt32
  vaddr : UInt32
  filesz : UInt32
  memsz : UInt32
  flags : UInt32
  deriving DecidableEq

inductive ElfError where
  | badMagic
  | invalidClass (elfClass : UInt8)
  | truncated
  | headersPastEnd
  | unsupportedMachine (machine : Nat)
  | headerSize (phentsize : Nat)
  | tableDoesNotFit
  | tableBeyondPrefix
  | segmentPastEnd
  | moreFileThanMemory
  | tooManySegments
  | noBody
  | emptySegment
  | statFailed
  | headerRead
  | segmentWraps
  | firstPageLimit
  | emptyImage
  | imageTooLarge
  | entryOutside
  deriving DecidableEq

/-- The two ELF classes: sizes and field offsets of the headers. -/
inductive ElfClass where
  | elf32
  | elf64
  deriving DecidableEq

def ElfClass.ehdrSize : ElfClass → UInt32
  | .elf32 => 52
  | .elf64 => 64

def ElfClass.phdrSize : ElfClass → UInt32
  | .elf32 => 32
  | .elf64 => 56

structure Ehdr where
  machine : Nat
  entry : Nat
  phoff : Nat
  phentsize : Nat
  phnum : Nat

def ElfClass.ehdr (c : ElfClass) (f : Nat → UInt8) : Ehdr :=
  match c with
  | .elf32 => ⟨leAt f 18 2,leAt f 24 4,leAt f 28 4,leAt f 42 2,leAt f 44 2⟩
  | .elf64 => ⟨leAt f 18 2,leAt f 24 8,leAt f 32 8,leAt f 54 2,leAt f 56 2⟩

/-- The fields of a program header as the file holds them. -/
structure Phdr where
  type : UInt32
  offset : Nat
  vaddr : Nat
  filesz : Nat
  memsz : Nat
  flags : UInt32

def ElfClass.phdr (c : ElfClass) (f : Nat → UInt8) (o : Nat) : Phdr :=
  match c with
  | .elf32 => ⟨(leAt f o 4).toUInt32,leAt f (o+4) 4,leAt f (o+8) 4,leAt f (o+16) 4,
      leAt f (o+20) 4,(leAt f (o+24) 4).toUInt32⟩
  | .elf64 => ⟨(leAt f o 4).toUInt32,leAt f (o+8) 8,leAt f (o+16) 8,leAt f (o+32) 8,
      leAt f (o+40) 8,(leAt f (o+4) 4).toUInt32⟩

/-- The fields that a 64-bit header may not narrow: out of range before the 32-bit checks. -/
def Phdr.outOfRange (p : Phdr) (fsize : UInt32) : Bool :=
  let maxBytes := userImageMaxPages.toNat*pageSize.toNat
  fsize.toNat<p.offset || fsize.toNat<p.filesz || maxBytes<p.vaddr || maxBytes<p.memsz

/-- One turn of the program header loop: the segments kept so far. -/
def parsePhdr (c : ElfClass) (fsize : UInt32) (segs : List Seg) (p : Phdr) :
    Except ElfError (List Seg) :=
  if c=.elf64 ∧ p.outOfRange fsize then
    if p.type≠ptLoad then .ok segs else .error .segmentPastEnd
  else
    let s : Seg := ⟨p.offset.toUInt32,p.vaddr.toUInt32,p.filesz.toUInt32,p.memsz.toUInt32,p.flags⟩
    if p.type≠ptLoad then .ok segs
    else if s.memsz=0 then .ok segs
    else if fsize < s.off ∨ fsize-s.off < s.filesz then .error .segmentPastEnd
    else if s.memsz < s.filesz then .error .moreFileThanMemory
    else if maxSegs ≤ segs.length then .error .tooManySegments
    else .ok (segs++[s])

/-- No loadable segment: everything after the ELF header, as code. -/
def flatSegment (c : ElfClass) (fsize : UInt32) : Except ElfError (List Seg) :=
  if fsize<c.ehdrSize then .error .noBody
  else
    let size := fsize-c.ehdrSize
    if size=0 then .error .emptySegment
    else .ok [⟨c.ehdrSize,0,size,size,pfR ||| pfX⟩]

/-- The checks on the header table, and the segments and entry point it gives. -/
def parseTable (c : ElfClass) (hdr : Bytes) (fsize : UInt32) : Except ElfError (List Seg×Nat) :=
  let f := fun k => hdr.getD k 0
  let e := c.ehdr f
  let size := c.phdrSize.toNat
  if c=.elf64 ∧ fsize.toNat<e.phoff then .error .headersPastEnd
  else if e.machine≠emRiscv then .error (.unsupportedMachine e.machine)
  else if 0<e.phnum ∧ e.phentsize≠size then .error (.headerSize e.phentsize)
  else if 0<e.phnum ∧ (fsize.toNat<e.phoff ∨ (fsize.toNat-e.phoff)/size<e.phnum) then
    .error .tableDoesNotFit
  else if 0<e.phnum ∧ (hdr.length<e.phoff ∨ (hdr.length-e.phoff)/size<e.phnum) then
    .error .tableBeyondPrefix
  else
    match (List.range e.phnum).foldlM
        (fun segs i => parsePhdr c fsize segs (c.phdr f (e.phoff+i*size))) [] with
    | .error err => .error err
    | .ok [] =>
      match flatSegment c fsize with
      | .error err => .error err
      | .ok segs => .ok (segs,e.entry)
    | .ok segs => .ok (segs,e.entry)

def parseClass (c : ElfClass) (hdr : Bytes) (fsize : UInt32) : Except ElfError (List Seg×Nat) :=
  if fsize<c.ehdrSize ∨ hdr.length<c.ehdrSize.toNat then .error .truncated
  else parseTable c hdr fsize

/-- hdr is the prefix of the file that was read. -/
def parseHeaders (hdr : Bytes) (fsize : UInt32) : Except ElfError (List Seg×Nat) :=
  if hdr.length<5 ∨ hdr.take 4≠elfMagic then .error .badMagic
  else
    match hdr.getD 4 0 with
    | 1 => parseClass .elf32 hdr fsize
    | 2 => parseClass .elf64 hdr fsize
    | n => .error (.invalidClass n)

/-- A kept segment has memory, and at least as much of it as file bytes. -/
def Seg.Loadable (s : Seg) : Prop := s.memsz≠0 ∧ s.filesz.toNat ≤ s.memsz.toNat

theorem parsePhdr_loadable {c : ElfClass} {fsize : UInt32} {segs out : List Seg} {p : Phdr}
    (hs : ∀s∈segs,s.Loadable) (h : parsePhdr c fsize segs p=.ok out) : ∀s∈out,s.Loadable := by
  unfold parsePhdr at h
  dsimp only at h
  split_ifs at h with h1 h2 h3 h4 h5 h6 h7
  · cases h
    exact hs
  · cases h
    exact hs
  · cases h
    exact hs
  · cases h
    intro s hm
    rcases List.mem_append.mp hm with hm | hm
    · exact hs s hm
    · rw [List.mem_singleton.mp hm]
      rw [UInt32.lt_iff_toNat_lt] at h6
      exact ⟨h4,Nat.le_of_not_lt h6⟩

theorem parseLoop_loadable {c : ElfClass} {fsize : UInt32} {f : Nat → UInt8} {o size : Nat}
    {l : List Nat} {segs out : List Seg} (hs : ∀s∈segs,s.Loadable)
    (h : l.foldlM (fun segs i => parsePhdr c fsize segs (c.phdr f (o+i*size))) segs=.ok out) :
    ∀s∈out,s.Loadable := by
  induction l generalizing segs with
  | nil =>
    cases h
    exact hs
  | cons i l ih =>
    rw [List.foldlM_cons] at h
    cases hp : parsePhdr c fsize segs (c.phdr f (o+i*size)) with
    | error e =>
      rw [hp] at h
      cases h
    | ok mid =>
      rw [hp] at h
      exact ih (parsePhdr_loadable hs hp) h

theorem flatSegment_loadable {c : ElfClass} {fsize : UInt32} {segs : List Seg}
    (h : flatSegment c fsize=.ok segs) : ∀s∈segs,s.Loadable := by
  unfold flatSegment at h
  dsimp only at h
  split_ifs at h with h1 h2
  cases h
  intro s hm
  rw [List.mem_singleton.mp hm]
  exact ⟨h2,Nat.le_refl _⟩

theorem parseClass_loadable {c : ElfClass} {hdr : Bytes} {fsize : UInt32} {segs : List Seg}
    {entry : Nat} (h : parseClass c hdr fsize=.ok (segs,entry)) : ∀s∈segs,s.Loadable := by
  unfold parseClass parseTable at h
  dsimp only at h
  split_ifs at h
  split at h
  · cases h
  · split at h
    · cases h
    · next hf =>
      cases h
      exact flatSegment_loadable hf
  · next hl =>
    cases h
    exact parseLoop_loadable (by simp) hl

theorem parseHeaders_loadable {hdr : Bytes} {fsize : UInt32} {segs : List Seg} {entry : Nat}
    (h : parseHeaders hdr fsize=.ok (segs,entry)) : ∀s∈segs,s.Loadable := by
  unfold parseHeaders at h
  split_ifs at h
  split at h
  · exact parseClass_loadable h
  · exact parseClass_loadable h
  · cases h

/-- One turn of image_span_pages' loop: the highest segment end so far. -/
def spanStep (high : UInt32) (s : Seg) : Except ElfError UInt32 :=
  let last := s.vaddr+s.memsz
  if last < s.vaddr then .error .segmentWraps
  else if s.vaddr<pageSize ∧ userTextMax<last then .error .firstPageLimit
  else .ok (if high<last then last else high)

/-- `while (pow2<pages) pow2<<=1`, at most n times; 32 doublings reach every page count. -/
def pow2Loop : Nat → UInt32 → UInt32 → UInt32
  | 0,pow2,_ => pow2
  | n+1,pow2,pages => if pow2<pages then pow2Loop n (pow2<<<1) pages else pow2

/-- Pages of the image as allocated, a power of two, and as spanned. -/
def imageSpanPages (segs : List Seg) : Except ElfError (UInt32×UInt32) :=
  match segs.foldlM spanStep 0 with
  | .error e => .error e
  | .ok high =>
    if high=0 then .error .emptyImage
    else
      let pages := (high+pageSize-1)/pageSize
      let pow2 := pow2Loop 32 1 pages
      if userImageMaxPages<pow2 then .error .imageTooLarge else .ok (pow2,pages)

/-- First byte past the segment, without wrapping. -/
def Seg.last (s : Seg) : Nat := s.vaddr.toNat+s.memsz.toNat

/-- The segment ends where rounding up to a page does not wrap. -/
def Seg.Rounds (s : Seg) : Prop := s.last≤2^32-4096

theorem spanStep_ok {high out : UInt32} {s : Seg} (h : spanStep high s=.ok out) :
    s.last<2^32 ∧ out.toNat=max high.toNat s.last := by
  unfold spanStep at h
  dsimp only at h
  by_cases hw : s.vaddr+s.memsz < s.vaddr
  · rw [if_pos hw] at h
    cases h
  rw [if_neg hw] at h
  by_cases hp : s.vaddr<pageSize ∧ userTextMax < s.vaddr+s.memsz
  · rw [if_pos hp] at h
    cases h
  rw [if_neg hp] at h
  cases h
  have hv := s.vaddr.toNat_lt
  have hm := s.memsz.toNat_lt
  rw [UInt32.lt_iff_toNat_lt,UInt32.toNat_add] at hw
  have hl : s.last<2^32 := by
    unfold Seg.last
    omega
  have he : (s.vaddr+s.memsz).toNat=s.last := by
    rw [UInt32.toNat_add,Nat.mod_eq_of_lt]
    · rfl
    · exact hl
  refine ⟨hl,?_⟩
  by_cases hh : high < s.vaddr+s.memsz
  · rw [if_pos hh,he]
    rw [UInt32.lt_iff_toNat_lt,he] at hh
    omega
  · rw [if_neg hh]
    rw [UInt32.lt_iff_toNat_lt,he] at hh
    omega

theorem span_ok {segs : List Seg} {high out : UInt32} (h : segs.foldlM spanStep high=.ok out) :
    high.toNat≤out.toNat ∧ (∀s∈segs,s.last<2^32 ∧ s.last≤out.toNat) ∧
    (out.toNat=high.toNat ∨ ∃s∈segs,s.last=out.toNat) := by
  induction segs generalizing high with
  | nil =>
    cases h
    exact ⟨Nat.le_refl _,by simp,.inl rfl⟩
  | cons s segs ih =>
    rw [List.foldlM_cons] at h
    cases hs : spanStep high s with
    | error e =>
      rw [hs] at h
      cases h
    | ok mid =>
      rw [hs] at h
      obtain ⟨hl,hm⟩ := spanStep_ok hs
      obtain ⟨hle,hall,hmax⟩ := ih h
      refine ⟨by omega,?_,?_⟩
      · intro t ht
        rcases List.mem_cons.mp ht with rfl | ht
        · exact ⟨hl,by omega⟩
        · exact hall t ht
      · rcases hmax with hmax | ⟨t,ht,he⟩
        · by_cases hh : high.toNat ≤ s.last
          · exact .inr ⟨s,List.mem_cons_self,by omega⟩
          · exact .inl (by omega)
        · exact .inr ⟨t,List.mem_cons_of_mem _ ht,he⟩

theorem pow2Loop_ge (n k : Nat) (pow2 pages : UInt32) (hk : k≤n)
    (hp : pages.toNat≤pow2.toNat*2^k) (hf : pow2.toNat*2^k<2^32) :
    pages.toNat≤(pow2Loop n pow2 pages).toNat := by
  induction n generalizing k pow2 with
  | zero =>
    obtain rfl : k=0 := by omega
    simpa [pow2Loop] using hp
  | succ n ih =>
    unfold pow2Loop
    by_cases h : pow2<pages
    · rw [if_pos h]
      rw [UInt32.lt_iff_toNat_lt] at h
      cases k with
      | zero => omega
      | succ k =>
        have hs : pow2.toNat*2^(k+1)=2*pow2.toNat*2^k := by
          rw [Nat.pow_succ,Nat.mul_comm (2^k),←Nat.mul_assoc,Nat.mul_comm pow2.toNat]
        rw [hs] at hp hf
        have h1 : 2*pow2.toNat*1≤2*pow2.toNat*2^k := Nat.mul_le_mul_left _ Nat.one_le_two_pow
        have hd : (pow2<<<1).toNat=2*pow2.toNat := by
          rw [UInt32.toNat_shiftLeft,Nat.shiftLeft_eq,show (1 : UInt32).toNat%32=1 from rfl,
            Nat.mod_eq_of_lt] <;> omega
        exact ih k _ (by omega) (by rw [hd]; exact hp) (by rw [hd]; exact hf)
    · rw [if_neg h]
      rw [UInt32.lt_iff_toNat_lt] at h
      omega

theorem pow2Loop_one_pos (pages : UInt32) (hp : pages.toNat≤2^20) :
    0<(pow2Loop 32 1 pages).toNat := by
  by_cases h : 1≤pages.toNat
  · have hge := pow2Loop_ge 32 20 1 pages (by omega) (by simpa using hp) (by decide)
    omega
  · have hn : ¬(1 : UInt32)<pages := by
      rw [UInt32.lt_iff_toNat_lt,show (1 : UInt32).toNat=1 from rfl]
      omega
    unfold pow2Loop
    rw [if_neg hn]
    decide

/-- The rounding addition wraps when high is in the last page of the address space. -/
theorem spanPages_toNat (high : UInt32) :
    ((high+pageSize-1)/pageSize).toNat=(high.toNat+4095)%2^32/4096 := by
  rw [UInt32.toNat_div,UInt32.toNat_sub,UInt32.toNat_add,show pageSize.toNat=4096 from rfl,
    show (1 : UInt32).toNat=1 from rfl]
  omega

/-- The image never has more than 64 pages; it holds every segment exactly when none of them
ends where rounding up to a page wraps. -/
theorem imageSpanPages_ok {segs : List Seg} {pages span : UInt32}
    (h : imageSpanPages segs=.ok (pages,span)) :
    0<pages.toNat ∧ pages.toNat≤64 ∧ (∀s∈segs,s.last<2^32) ∧
    ((∀s∈segs,s.last≤pages.toNat*4096) ↔ ∀s∈segs,s.Rounds) := by
  unfold imageSpanPages at h
  cases hf : segs.foldlM spanStep 0 with
  | error e =>
    rw [hf] at h
    cases h
  | ok high =>
    rw [hf] at h
    dsimp only at h
    by_cases h0 : high=0
    · rw [if_pos h0] at h
      cases h
    rw [if_neg h0] at h
    by_cases hbig : userImageMaxPages<pow2Loop 32 1 ((high+pageSize-1)/pageSize)
    · rw [if_pos hbig] at h
      cases h
    rw [if_neg hbig] at h
    obtain ⟨rfl,rfl⟩ := Prod.mk.inj (Except.ok.inj h)
    obtain ⟨_,hall,hmax⟩ := span_ok hf
    have h64 : (pow2Loop 32 1 ((high+pageSize-1)/pageSize)).toNat≤64 := by
      rw [UInt32.lt_iff_toNat_lt] at hbig
      exact Nat.le_of_not_lt hbig
    have hn := spanPages_toNat high
    have h20 : ((high+pageSize-1)/pageSize).toNat≤2^20 := by omega
    have hge := pow2Loop_ge 32 20 1 ((high+pageSize-1)/pageSize) (by omega)
      (by rw [show (1 : UInt32).toNat=1 from rfl]; omega) (by decide)
    refine ⟨pow2Loop_one_pos _ h20,h64,fun s hs => (hall s hs).1,fun h s hs => ?_,fun h s hs => ?_⟩
    · have hs := h s hs
      unfold Seg.Rounds
      omega
    · have hlast := (hall s hs).2
      have hhigh : high.toNat≤2^32-4096 := by
        rcases hmax with hz | ⟨t,ht,he⟩
        · rw [hz]
          decide
        · rw [←he]
          exact h t ht
      omega

end LugalOS.Elf
