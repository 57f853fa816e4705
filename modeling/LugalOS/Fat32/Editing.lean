import LugalOS.Fat32.Counting

namespace LugalOS.Fat32

open Linked CString LittleEndian

section grown

variable {fs : Fat32Fs}

/-- The last cluster of a chain: behind it stands an end mark, and no link before it is 0 or 1. -/
def chainEnd (entry : Nat → Option Nat) : Nat → Nat → Option Nat
  | 0,_ => none
  | n+1,c =>
    if (entry c).getD endMark≥endOfChain then some c
    else if (entry c).getD endMark<2 then none
    else chainEnd entry n ((entry c).getD endMark)

/-- A directory that a further cluster can be linked to. -/
def CanGrow (fs : Fat32Fs) (d : Nat) : Prop :=
  (chainEnd fs.entry maxDirClusters d).isSome ∧ ∃c,fs.HasCluster c ∧ fs.entry c=some 0

/-- The cached FAT sector is as the device has it, in whatever region it lies. -/
def Coherent (fs : Fat32Fs) : Prop :=
  ∀w,fs.fatCache=some w → fs.dev.readBlocks fs.fatCacheLba=some w

theorem SameDisk.entry {fs' : Fat32Fs} (h : SameDisk fs fs') : fs'.entry=fs.entry := by
  funext c
  rw [Fat32Fs.entry,Fat32Fs.entry,h.dev,h.layout]

theorem fatSectorWords_coherent {lba : Nat} {s : Sector} (hs : fs.dev.readBlocks lba=some s)
    (h : fs.fatCacheLba=lba → ∀w,fs.fatCache=some w → fs.dev.readBlocks lba=some w) :
    (fatSectorWords fs lba).1=some s ∧ Coherent (fatSectorWords fs lba).2 := by
  unfold fatSectorWords
  cases hc : fs.fatCache with
  | none => exact ⟨hs,fun w hw => by rw [hc] at hw; cases hw⟩
  | some w =>
    dsimp only
    split
    · rw [hs]
      exact ⟨rfl,fun w hw => hs.trans hw⟩
    next he =>
      rw [not_not] at he
      have hw := h he w hc
      refine ⟨hw.symm.trans hs,fun w' hw' => ?_⟩
      rw [he,hw,← hc]
      exact hw'

theorem fatGetEntry_coherent {c v : Nat} (hv : fs.entry c=some v)
    (h : fs.fatCacheLba=fs.fatSector c → ∀w,fs.fatCache=some w →
      fs.dev.readBlocks (fs.fatSector c)=some w) :
    (fatGetEntry fs c).1=v ∧ Coherent (fatGetEntry fs c).2 := by
  obtain ⟨s,hs,hsv⟩ := Option.map_eq_some_iff.mp hv
  obtain ⟨h1,h2⟩ := fatSectorWords_coherent hs h
  refine ⟨?_,h2⟩
  simp only [fatGetEntry,fatReadEntry,h1]
  exact hsv

theorem lastCluster_coherent (n : Nat) (h : Coherent fs) (c : Nat) :
    (lastCluster n fs c).1=chainEnd fs.entry n c := by
  induction n generalizing fs c with
  | zero => rfl
  | succ n ih =>
    unfold lastCluster chainEnd
    dsimp only
    cases hv : fs.entry c with
    | some v =>
      obtain ⟨h1,h2⟩ := fatGetEntry_coherent hv fun he w hw => he ▸ h w hw
      rw [h1,Option.getD_some]
      split
      · rfl
      · split
        · rfl
        · rw [ih h2,(fatGetEntry_same fs c).entry]
    | none =>
      have hr : fs.dev.readBlocks (fs.fatSector c)=none := Option.map_eq_none_iff.mp hv
      have h1 : (fatGetEntry fs c).1=endMark := by
        unfold fatGetEntry fatReadEntry fatSectorWords
        cases hc : fs.fatCache with
        | none => rw [hr]; rfl
        | some w =>
          dsimp only
          split
          · rw [hr]; rfl
          next he =>
            rw [not_not] at he
            have hw := h w hc
            rw [he,hr] at hw
            cases hw
      rw [h1,Option.getD_none,if_pos (by decide),if_pos (by decide)]

theorem lastCluster_eq (n : Nat) (m : Mounted fs) {d v : Nat} (hd : fs.HasCluster d)
    (hv : fs.entry d=some v) : (lastCluster n fs d).1=chainEnd fs.entry n d := by
  cases n with
  | zero => rfl
  | succ n =>
    obtain ⟨h1,h2⟩ := fatGetEntry_coherent hv fun he w hw => by
      rw [← he]
      refine m.cache w hw ?_
      rw [he]
      exact m.sound.fatSector_inFat1 d hd
    unfold lastCluster chainEnd
    dsimp only
    rw [h1,hv,Option.getD_some]
    split
    · rfl
    · split
      · rfl
      · rw [lastCluster_coherent n h2,(fatGetEntry_same fs d).entry]

theorem allocLoop_dev (start n : Nat) (fs : Fat32Fs) {c : Nat} (hc : 2≤c)
    (h : (allocLoop start n fs c).1=0) : (allocLoop start n fs c).2.dev=fs.dev := by
  induction n generalizing fs c with
  | zero => rfl
  | succ n ih =>
    unfold allocLoop at h ⊢
    have hsame := (fatReadEntry_same fs c).dev
    rcases hr : fatReadEntry fs c with ⟨o,fs'⟩
    rw [hr] at h hsame
    cases o with
    | none => exact hsame
    | some v =>
      dsimp only at h hsame ⊢
      by_cases hv : v=0
      · rw [if_pos hv] at h
        have h0 : c=0 := h
        omega
      · rw [if_neg hv] at h ⊢
        generalize hnext : (if c+1≥fs'.endCluster then 2 else c+1)=next at h ⊢
        have hn : 2≤next := by
          split at hnext <;> omega
        by_cases hst : next=start
        · rw [if_pos hst]
          exact hsame
        · rw [if_neg hst] at h ⊢
          exact (ih fs' hn h).trans hsame

theorem fatAllocCluster_dev (fs : Fat32Fs) (h : (fatAllocCluster fs).1=0) :
    (fatAllocCluster fs).2.dev=fs.dev := by
  unfold fatAllocCluster at h ⊢
  by_cases h0 : fs.totalClusters=0
  · rw [if_pos h0]
  · rw [if_neg h0] at h ⊢
    dsimp only at h ⊢
    generalize hst : (if fs.nextFree≥2 ∧ fs.nextFree<fs.endCluster then fs.nextFree else 2)=start
      at h ⊢
    exact allocLoop_dev start _ _ (by split at hst <;> omega) h

theorem lastCluster_same (n : Nat) (fs : Fat32Fs) (c : Nat) :
    SameDisk fs (lastCluster n fs c).2 := by
  induction n generalizing fs c with
  | zero => exact SameDisk.refl fs
  | succ n ih =>
    have h := fatGetEntry_same fs c
    unfold lastCluster
    dsimp only
    split
    · exact h
    · split
      · exact h
      · exact h.trans (ih _ _)

theorem lastCluster_end (n : Nat) {fs : Fat32Fs} (m : Mounted fs) {c last : Nat}
    (h : (lastCluster n fs c).1=some last) (hl : fs.HasCluster last) :
    fs.entry last≠some 0 := by
  induction n generalizing fs c with
  | zero => cases h
  | succ n ih =>
    unfold lastCluster at h
    dsimp only at h
    split at h
    next hend =>
      intro h0
      rw [← Option.some.inj h] at hl h0
      rw [fatGetEntry_eq fs m c hl,h0] at hend
      simp [endOfChain] at hend
    next =>
      split at h
      next => cases h
      next =>
        have hk := fatGetEntry_keeps fs m c
        rw [← hk.entry m.sound last hl]
        exact ih (hk.mounted m) h (hk.layout ▸ hl)

theorem dirClaimSlot_none (m : Mounted fs) {d : Nat} {ctx : WriteSlot}
    (h : (dirClaimSlot fs d ctx).1=none) : (dirClaimSlot fs d ctx).2.dev=fs.dev := by
  unfold dirClaimSlot at h ⊢
  split at h
  next => cases h
  next hneg =>
    rw [if_neg hneg]
    have hk := lastCluster_keeps maxDirClusters m d
    have hsame := lastCluster_same maxDirClusters fs d
    have hend := fun last => @lastCluster_end maxDirClusters fs m d last
    rcases hr : lastCluster maxDirClusters fs d with ⟨o,fs1⟩
    rw [hr] at h hk hsame hend
    cases o with
    | none => exact hsame.dev
    | some last =>
      dsimp only at h hk hsame hend ⊢
      split at h
      next hz =>
        rw [if_pos hz]
        rcases fatAllocCluster_spec fs1 (hk.mounted m) with ⟨h0,-⟩ | ha
        · exact (fatAllocCluster_dev fs1 h0).trans hsame.dev
        · have hlast := hz.resolve_right ha.pos
          have hcl : fs.HasCluster last := by
            rw [← hk.layout,← hlast]
            exact ha.cluster
          refine absurd ?_ (hend last rfl hcl)
          rw [← hk.entry m.sound last hcl,← hlast]
          exact ha.free
      next => cases h

theorem scanned_start {n c x : Nat} (h : x∈scanned fs n c) : fs.HasCluster c := by
  cases n with
  | zero => cases h
  | succ n =>
    unfold scanned at h
    split at h
    next hc => exact hc
    next => cases h

theorem slot_entry (m : Mounted fs) {d : Nat} {t : Slot} (ht : t∈dirSlots fs d) {c : Nat}
    (hc : fs.HasCluster c) : ∃v,fs.entry c=some v := by
  obtain ⟨s,hs,-,-⟩ := readSlots_reads ht
  have hlt := readBlocks_some fs.dev t.lba s hs
  have hin := (dirSlots_lba m ht).1
  have hfat := m.sound.fatSector_inFat1 c hc
  have hle := m.sound.fat1_le
  unfold Layout.InData at hin
  unfold Layout.InFat1 at hfat
  exact ⟨_,by rw [Fat32Fs.entry,BlockDev.readBlocks,if_pos (by omega)]; rfl⟩

theorem claim_none_iff (m : Mounted fs) {s : Fat32Fs} (hs : SameDisk fs s) (hk : Keeps fs s)
    {d : Nat} {t : Slot} (ht : t∈dirSlots fs d) (ctx : WriteSlot) :
    (dirClaimSlot s d ctx).1=none ↔ ctx.freeSectorLba<0 ∧ ¬CanGrow fs d := by
  have hd : fs.HasCluster d := by
    obtain ⟨c,j,hc,-⟩ := mem_dirSlots ht
    exact scanned_start hc
  obtain ⟨v,hv⟩ := slot_entry m ht hd
  have ms := hk.mounted m
  have hwalk := lastCluster_eq maxDirClusters ms (hs.layout ▸ hd) (hs.entry ▸ hv)
  rw [hs.entry] at hwalk
  have hend := fun last => @lastCluster_end maxDirClusters s ms d last
  have hkl := lastCluster_keeps maxDirClusters ms d
  have hsame := hs.trans (lastCluster_same maxDirClusters s d)
  unfold dirClaimSlot CanGrow
  by_cases hpos : ctx.freeSectorLba≥0
  · rw [if_pos hpos]
    simp [hpos]
  rw [if_neg hpos]
  rcases hr : lastCluster maxDirClusters s d with ⟨o,s1⟩
  rw [hr] at hwalk hend hkl hsame
  rw [← hwalk]
  have hneg : ctx.freeSectorLba<0 := by omega
  cases o with
  | none => simp [hneg]
  | some last =>
    dsimp only at hend hkl hsame ⊢
    simp only [hneg,Option.isSome_some,true_and]
    rcases fatAllocCluster_spec s1 (hkl.mounted ms) with ⟨h0,hx⟩ | ha
    · simp only [h0,or_true,if_true,true_iff]
      rintro ⟨c,hc,hfree⟩
      rcases hx.why with ⟨⟨c',hc',hbad⟩,-⟩ | ⟨hall,-⟩
      · obtain ⟨v',hv'⟩ := slot_entry m ht (hsame.layout ▸ hc')
        rw [hsame.entry,hv'] at hbad
        cases hbad
      · exact hall c (hsame.layout ▸ hc) (hsame.entry ▸ hfree)
    · have hcl : fs.HasCluster (fatAllocCluster s1).1 := hsame.layout ▸ ha.cluster
      have hfree : fs.entry (fatAllocCluster s1).1=some 0 := hsame.entry ▸ ha.free
      rw [if_neg]
      · simp only [reduceCtorEq,false_iff,not_not]
        exact ⟨_,hcl,hfree⟩
      · rintro (he | h0)
        · refine hend last rfl (he ▸ hs.layout ▸ hcl) ?_
          rw [← he,hs.entry]
          exact hfree
        · exact ha.pos h0

end grown

section targets

variable {fs : Fat32Fs}

/-- The writers edit where find_file looked, or no entry in use; a directory's entry is not
overwritten. -/
structure Addresses (fs : Fat32Fs) (path : Bytes) : Prop where
  update : ∀lba i,updateSlot fs path=some (lba,i) →
    ∃t,foundSlot fs path=some t ∧ t.lba=lba ∧ t.idx=i
  file : ∀lba i,fileSlot fs path=some (lba,i) →
    (∃t,foundSlot fs path=some t ∧ t.lba=lba ∧ t.idx=i) ∨ foundSlot fs path=none ∧
      ∀t∈inUse (dirSlots fs (fat32GetParentCluster fs path).1.1),t.lba=lba → t.idx=i →
        (dirEntryIsFree t.entry || dirEntryIsCorrupt t.entry)=true
  dirs : ∀t,foundSlot fs path=some t → t.entry.isDirectory=true → fileSlot fs path=none

/-- The first entry with the name that is neither deleted nor corrupt is no label and no
long-name record; for fat32_write_file it is no directory, and it lies below sector 2^31 (past
that a slot counts as none, and a further cluster is asked for). -/
def Clear (fs : Fat32Fs) (path : Bytes) : Prop :=
  ∀t,addressed fs path=some t → listed t.entry=true ∧
    (path.getLast?=some slash → t.entry.isDirectory=true) ∧
    (path.getLast?≠some slash → (t.entry.isDirectory=false ∧ t.lba<2^31) ∨
      2^31≤t.lba ∧ ¬CanGrow fs (fat32GetParentCluster fs path).1.1)

/-- The scan took the entry, and there is no slot exactly when its sector number turns negative
and the directory cannot grow. -/
theorem matched_none_iff (m : Mounted fs) {path : Bytes} {t : Slot}
    (ht : addressed fs path=some t) : (dirClaimSlot (writeScan fs path).2
      (fat32GetParentCluster fs path).1.1 (writeScan fs path).1).1=none ↔
      2^31≤t.lba ∧ ¬CanGrow fs (fat32GetParentCluster fs path).1.1 := by
  have hmem := (inUse_mem (addressed_mem ht).2.2.1).1
  have hlow := asInt_nonneg t.lba (dirSlots_small m hmem)
  rw [claim_none_iff m (writeScan_same fs path) (writeScan_keeps m path) hmem,
    writeScan_some m ht]
  refine and_congr_left fun _ => ?_
  change asInt t.lba<0 ↔ _
  omega

/-- The writers edit the entry that find_file answers, or no entry in use, exactly when the
entry they take the path for is clear. -/
theorem addresses_iff (m : Mounted fs) (path : Bytes) : Addresses fs path ↔ Clear fs path := by
  constructor
  · intro h t ht
    obtain ⟨h1,h2,hm,-,-⟩ := addressed_mem ht
    have hmem := (inUse_mem hm).1
    obtain ⟨u,hu,hul,hui⟩ := h.update t.lba t.idx (by rw [updateSlot_eq m,ht]; rfl)
    obtain ⟨-,-,hum,hus,hf⟩ := foundSlot_mem hu
    have he := slot_at hum hmem hul hui
    rw [← he]
    refine ⟨(List.mem_filter.mp (List.mem_of_find?_eq_some hf)).2,hus,fun hp => ?_⟩
    cases hc : (dirClaimSlot (writeScan fs path).2 (fat32GetParentCluster fs path).1.1
        (writeScan fs path).1).1 with
    | none => exact .inr ((matched_none_iff m ht).mp hc)
    | some ctx =>
      left
      have hfile : fileSlot fs path=some (ctx.lba,ctx.freeSlot) := by
        rw [fileSlot,if_neg (by simp [h1,h2,hp]),hc]
        rfl
      constructor
      · cases hd : u.entry.isDirectory with
        | false => rfl
        | true =>
          rw [h.dirs u hu hd] at hfile
          cases hfile
      · by_contra hbig
        have hscan := writeScan_some m ht
        have hneg : (writeScan fs path).1.freeSectorLba<0 := by
          rw [hscan]
          exact not_le.mp fun hpos => hbig ((asInt_nonneg t.lba (dirSlots_small m hmem)).mp hpos)
        have hgrown := grown_elsewhere m hneg hc
        rcases h.file _ _ hfile with ⟨v,hv,hvl,-⟩ | ⟨hnone,-⟩
        · exact hgrown v (foundSlot_mem hv).2.2.1 hvl
        · rw [hnone] at hu
          cases hu
  · intro h
    refine ⟨fun lba i hu => ?_,fun lba i hf => ?_,fun t ht hd => ?_⟩
    · rw [updateSlot_eq m] at hu
      obtain ⟨t,ht,he⟩ := Option.map_eq_some_iff.mp hu
      obtain ⟨hl,hs,-⟩ := h t ht
      exact ⟨t,found_addressed ht hl hs,congrArg Prod.fst he,congrArg Prod.snd he⟩
    · obtain ⟨hp,h1,h2,ctx,hctx,hlba,hidx⟩ := fileSlot_some hf
      cases ha : addressed fs path with
      | some t =>
        obtain ⟨hl,hs,hc⟩ := h t ha
        refine .inl ⟨t,found_addressed ha hl hs,?_⟩
        rcases hc hp with ⟨-,hsmall⟩ | hfull
        · have hmem := (inUse_mem (addressed_mem ha).2.2.1).1
          have hscan := writeScan_some m ha
          rw [dirClaimSlot_kept (by rw [hscan]; exact (asInt_nonneg t.lba
            (dirSlots_small m hmem)).mpr hsmall),hscan] at hctx
          rw [← hlba,← hidx,← Option.some.inj hctx]
          exact ⟨(dirSlots_lba m hmem).2.symm,rfl⟩
        · rw [(matched_none_iff m ha).mpr hfull] at hctx
          cases hctx
      | none =>
        right
        constructor
        · cases hfound : foundSlot fs path with
          | none => rfl
          | some t =>
            obtain ⟨u,hu⟩ := addressed_found hfound
            rw [ha] at hu
            cases hu
        · intro t ht hl hi
          rw [← hlba] at hl
          rw [← hidx] at hi
          exact unmatched_slot m (by simp [h1,h2]) ha hctx t (inUse_mem ht).1 hl hi
    · obtain ⟨u,hu⟩ := addressed_found ht
      obtain ⟨hl,hs,hc⟩ := h u hu
      have hfound := found_addressed hu hl hs
      rw [ht] at hfound
      cases hfound
      rw [fileSlot]
      split
      next => rfl
      next hp =>
        rw [not_or] at hp
        rcases hc hp.1 with ⟨hfalse,-⟩ | hfull
        · rw [hd] at hfalse
          cases hfalse
        · rw [(matched_none_iff m hu).mpr hfull]
          rfl

end targets

section effects

variable {K : Nat → Prop} {fs : Fat32Fs}

/-- A sector of a cluster of K. -/
def Fat32Fs.SectorOf (fs : Fat32Fs) (K : Nat → Prop) (lba : Nat) : Prop :=
  ∃c j,fs.HasCluster c ∧ K c ∧ j<fs.bpb.secPerClus ∧ lba=fs.dataLba c j

/-- In the clusters of K every byte is as it was, but for entry i of sector lba. -/
structure EditsAt (K : Nat → Prop) (fs fs' : Fat32Fs) (lba i : Nat) : Prop where
  others : ∀x,fs.SectorOf K x → x≠lba → fs'.dev.readBlocks x=fs.dev.readBlocks x
  edited : fs.SectorOf K lba → ∀s,fs.dev.readBlocks lba=some s →
    ∃s',fs'.dev.readBlocks lba=some s' ∧ SameBut i s s'

/-- The clusters that a new content of a file leaves alone: they are in use, and the links of
the entry that it replaces do not lead to them. -/
def Kept (fs : Fat32Fs) (path : Bytes) (c : Nat) : Prop :=
  fs.entry c≠some 0 ∧ ∀t k,addressed fs path=some t → c∉scanned fs k t.entry.fstClus

/-- The one write of fat32_update_entry: entry i as it was, with the new length and, if one is
given, the new first cluster. -/
def Updates (fs fs' : Fat32Fs) (lba i newSize setFirst : Nat) : Prop :=
  ∃s s',fs.dev.readBlocks lba=some s ∧ SameBut i s s' ∧
    entryAt s' i={ entryAt s i with
      fileSize := newSize%2^32
      fstClus := if setFirst≠0 then setFirst%2^32 else (entryAt s i).fstClus } ∧
    fs'.dev=(fs.dev.writeBlocks .data lba s').2

/-- The entry that a write of a whole file leaves behind. -/
def Records (fs' : Fat32Fs) (lba i : Nat) (name83 : Bytes) (size : Nat) : Prop :=
  ∃s first,fs'.dev.readBlocks lba=some s ∧ entryAt s i=⟨name83,attrArchive,first,size%2^32⟩

/-- What fat32_update_entry does: an edit at updateSlot, or nothing. -/
def UpdatesAt (fs : Fat32Fs) (path : Bytes) : Prop :=
  ∀newSize setFirst,match updateSlot fs path with
    | none => (fat32UpdateEntry fs path newSize setFirst).1=false ∧
        (fat32UpdateEntry fs path newSize setFirst).2.dev=fs.dev
    | some (lba,i) => (fat32UpdateEntry fs path newSize setFirst).1=true ∧
        Updates fs (fat32UpdateEntry fs path newSize setFirst).2 lba i newSize setFirst

/-- What fat32_write_file does: nothing when it has no slot; else the new entry stands at
fileSlot when it succeeds, and in the clusters that it is to leave alone no other byte changes. A
further cluster is linked to where a directory's chain ends. -/
def RewritesAt (fs : Fat32Fs) (path : Bytes) : Prop :=
  ∀buf,match fileSlot fs path with
    | none => (fat32WriteFile fs path buf).1=false ∧ (fat32WriteFile fs path buf).2.dev=fs.dev
    | some (lba,i) =>
      ((fat32WriteFile fs path buf).1=true → Records (fat32WriteFile fs path buf).2 lba i
        (filenameTo83 (fat32GetParentCluster fs path).1.2) buf.length) ∧
      (fs.Narrow → (∃t∈dirSlots fs (fat32GetParentCluster fs path).1.1,t.lba=lba) ∨
          Proper fs (fat32GetParentCluster fs path).1.1 →
        EditsAt (Kept fs path) fs (fat32WriteFile fs path buf).2 lba i)

theorem update_effect (m : Mounted fs) (path : Bytes) : UpdatesAt fs path := by
  intro newSize setFirst
  have hsame := (writeScan_same fs path).dev
  have hparent := (getParent_same fs path).dev
  have heq : fat32UpdateEntry fs path newSize setFirst=
      if (fat32GetParentCluster fs path).1.1=0 ∨ (fat32GetParentCluster fs path).1.2=[] then
        (false,(fat32GetParentCluster fs path).2)
      else if !(writeScan fs path).1.nameMatched then (false,(writeScan fs path).2)
      else rewriteSlot (writeScan fs path).2 (writeScan fs path).1.lba fun sec =>
        let sec := putSize sec (writeScan fs path).1.freeSlot newSize
        if setFirst≠0 then putClus sec (writeScan fs path).1.freeSlot setFirst else sec := rfl
  rw [heq]
  by_cases hp : (fat32GetParentCluster fs path).1.1=0 ∨ (fat32GetParentCluster fs path).1.2=[]
  · rw [if_pos hp,updateSlot,if_pos hp]
    exact ⟨rfl,hparent⟩
  rw [if_neg hp]
  cases ha : addressed fs path with
  | some t =>
    obtain ⟨-,-,hm,-,-⟩ := addressed_mem ha
    obtain ⟨sec,hsec,-,-⟩ := readSlots_reads (inUse_mem hm).1
    have hlba := (dirSlots_lba m (inUse_mem hm).1).2
    rw [updateSlot_eq m,ha,writeScan_some m ha]
    simp only [Option.map_some,Bool.not_true,Bool.false_eq_true,if_false,WriteSlot.lba,hlba]
    rw [rewriteSlot,hsame,hsec]
    refine ⟨decide_eq_true ?_,sec,_,hsec,?_,?_,congrArg (fun d => (BlockDev.writeBlocks d _ _
      _).2) hsame⟩
    · rw [hsame]
      exact readBlocks_some fs.dev t.lba sec hsec
    · split
      · exact (sameBut_putSize sec t.idx newSize).trans (sameBut_putClus _ t.idx setFirst)
      · exact sameBut_putSize sec t.idx newSize
    · dsimp only
      split
      · rw [entryAt_putClus,entryAt_putSize]
      · exact entryAt_putSize sec t.idx newSize
  | none =>
    have hlook := look_write (filenameTo83 (fat32GetParentCluster fs path).1.2)
      (dirSlots fs (fat32GetParentCluster fs path).1.1) WriteSlot.none rfl
    have hu := updateSlot_eq m path
    rw [ha] at hu
    rw [addressed,if_neg hp] at ha
    rw [ha,← writeScan_eq m] at hlook
    rw [hu,hlook.1]
    exact ⟨rfl,hsame⟩

theorem editsAt_write {fs2 : Fat32Fs} {lba i : Nat} {s s' : Sector}
    (h : ∀x,fs.SectorOf K x → fs2.dev.readBlocks x=fs.dev.readBlocks x)
    (hs : fs2.dev.readBlocks lba=some s) (hb : SameBut i s s') :
    EditsAt K fs (fs2.write .data lba s').2 lba i := by
  refine ⟨fun x hx hne => (write_read_ne fs2 .data lba x s' hne).trans (h x hx),fun hl s0 h0 => ?_⟩
  rw [← h lba hl,hs] at h0
  cases h0
  exact ⟨s',write_read_self fs2 .data lba s' (readBlocks_some _ _ _ hs),hb⟩

theorem editsAt_held {fs2 : Fat32Fs} (lba i : Nat)
    (h : ∀x,fs.SectorOf K x → fs2.dev.readBlocks x=fs.dev.readBlocks x) :
    EditsAt K fs fs2 lba i :=
  ⟨fun x hx _ => h x hx,fun hl s hs => ⟨s,(h lba hl).trans hs,fun _ _ => rfl⟩⟩

theorem Spares.held {fs' : Fat32Fs} (h : Spares K fs fs') {x : Nat} (hx : fs.SectorOf K x) :
    fs'.dev.readBlocks x=fs.dev.readBlocks x := by
  obtain ⟨c,j,hc,hk,hj,rfl⟩ := hx
  exact h.data c j hc hj hk

theorem writeInto_edits {name83 : Bytes} (hn : name83.length=11) (buf : Bytes) (ctx : WriteSlot)
    (m : Mounted fs) (hna : fs.Narrow) (hu : InUse K fs) (hl : LinksIn (fun x => ¬K x) fs)
    (hold : ctx.nameMatched=true → fs.HasCluster ctx.existing.fstClus →
      ¬K ctx.existing.fstClus) :
    EditsAt K fs (writeInto fs name83 buf ctx).2 ctx.lba ctx.freeSlot := by
  have hfree : Spares K fs (if ctx.nameMatched ∧ ctx.existing.fstClus≠0 then
      fat32FreeChain fs ctx.existing.fstClus else fs) ∧ LinksIn (fun x => ¬K x)
      (if ctx.nameMatched ∧ ctx.existing.fstClus≠0 then
        fat32FreeChain fs ctx.existing.fstClus else fs) := by
    split
    next hm => exact freeChain_within m hna (fun _ h => h) hl (hold hm.1)
    next => exact ⟨Spares.refl K fs,hl⟩
  unfold writeInto
  dsimp only
  generalize (if ctx.nameMatched ∧ ctx.existing.fstClus≠0 then
    fat32FreeChain fs ctx.existing.fstClus else fs)=fs1 at hfree ⊢
  have m1 := m.grows hfree.1.toGrows
  have hna1 : fs1.Narrow := by
    rw [hfree.1.layout]
    exact hna
  obtain ⟨hsp,hl2,hfirst⟩ := placeClusters_within buf ((buf.length+fs1.bpc-1)%2^32/fs1.bpc)
    0 0 0 false m1 hna1 (hfree.1.inUse hu) (.inl rfl)
  rcases hr : placeClusters buf ((buf.length+fs1.bpc-1)%2^32/fs1.bpc) 0 0 0 false fs1 with
    ⟨⟨o,first⟩,fs2⟩
  rw [hr] at hsp hl2 hfirst
  have sp := hfree.1.trans hsp
  have m2 := m.grows sp.toGrows
  have hna2 : fs2.Narrow := by
    rw [sp.layout]
    exact hna
  obtain ⟨hf,hp⟩ := hfirst fun h => absurd rfl h
  -- the clusters of the new file, given back when it does not get all of them
  have hback : ∀c,(c≠0 → ¬K c) → Spares K fs (if c≠0 then fat32FreeChain fs2 c else fs2) := by
    intro c hc
    split
    next h0 =>
      exact sp.trans (freeChain_within m2 hna2 (fun _ h => h) (hl2 hfree.2) fun _ => hc h0).1
    next => exact sp
  cases o with
  | none =>
    dsimp only at hf ⊢
    have hb := hback first hf
    generalize (if first≠0 then fat32FreeChain fs2 first else fs2)=fs3 at hb ⊢
    split
    · rw [rewriteSlot]
      cases hs : fs3.dev.readBlocks ctx.lba with
      | none => exact editsAt_held _ _ fun x hx => hb.held hx
      | some s =>
        exact editsAt_write (fun x hx => hb.held hx) hs
          ((sameBut_putClus s _ 0).trans (sameBut_putSize _ _ 0))
    · exact editsAt_held _ _ fun x hx => hb.held hx
  | some p =>
    dsimp only at hf hp ⊢
    have hpf : p.1=first := hp p rfl
    cases hs : fs2.dev.readBlocks ctx.lba with
    | none => exact editsAt_held _ _ fun x hx => (hback p.1 (hpf ▸ hf)).held hx
    | some s =>
      exact editsAt_write (fun x hx => sp.held hx) hs
        (sameBut_record s ctx.freeSlot hn attrArchive p.1 buf.length)

theorem writeInto_records {name83 : Bytes} (hn : name83.length=11) (buf : Bytes)
    {ctx : WriteSlot} (h : (writeInto fs name83 buf ctx).1=true) :
    Records (writeInto fs name83 buf ctx).2 ctx.lba ctx.freeSlot name83 buf.length := by
  unfold writeInto at h ⊢
  dsimp only at h ⊢
  generalize (if ctx.nameMatched ∧ ctx.existing.fstClus≠0 then
    fat32FreeChain fs ctx.existing.fstClus else fs)=fs1 at h ⊢
  rcases hr : placeClusters buf ((buf.length+fs1.bpc-1)%2^32/fs1.bpc) 0 0 0 false fs1 with
    ⟨⟨o,first⟩,fs2⟩
  rw [hr] at h
  cases o with
  | none => cases h
  | some p =>
    dsimp only at h ⊢
    cases hs : fs2.dev.readBlocks ctx.lba with
    | none =>
      rw [hs] at h
      cases h
    | some s =>
      exact ⟨_,p.1%2^32,write_read_self fs2 .data ctx.lba _ (readBlocks_some _ _ _ hs),
        entryAt_record s ctx.freeSlot hn attrArchive p.1 buf.length⟩

theorem scanned_next (hn : fs.Narrow) {k x c d : Nat} (h : c∈scanned fs k x)
    (he : fs.entry c=some d) (hd : fs.HasCluster d) : d∈scanned fs (k+1) x := by
  induction k generalizing x with
  | zero => cases h
  | succ k ih =>
    rw [scanned] at h ⊢
    split at h
    next hx =>
      rw [if_pos hx]
      rcases List.mem_cons.mp h with rfl | h
      · rw [he,Option.getD_some,if_neg fun hend => hn.not_end hend hd]
        exact List.mem_cons_of_mem _ (by rw [scanned,if_pos hd]; exact List.mem_cons_self)
      · split at h
        next => cases h
        next hgo =>
          rw [if_neg hgo]
          exact List.mem_cons_of_mem _ (ih h)
    next => cases h

theorem kept_links (hn : fs.Narrow) (path : Bytes) :
    LinksIn (fun c => ¬Kept fs path c) fs := by
  intro c d _ hr he hd hk
  refine hr ⟨fun h0 => ?_,fun t k ht hc => hk.2 t (k+1) ht (scanned_next hn hc he hd)⟩
  rw [h0] at he
  cases he
  exact absurd hd.1 (by decide)

/-- A slot is claimed, with a further cluster or without: the clusters of K hold what they held. -/
theorem claim_held (m : Mounted fs) (hn : fs.Narrow) (hu : InUse K fs)
    (hl : LinksIn (fun x => ¬K x) fs) {d : Nat} {ctx ctx' : WriteSlot} {g : Fat32Fs}
    (hslot : 0≤ctx.freeSectorLba ∨ Proper fs d) (h : dirClaimSlot fs d ctx=(some ctx',g)) :
    Grows fs g ∧ InUse K g ∧ LinksIn (fun x => ¬K x) g ∧
      (∀x,fs.SectorOf K x → g.dev.readBlocks x=fs.dev.readBlocks x) ∧
      ctx'.nameMatched=ctx.nameMatched ∧ ctx'.existing=ctx.existing := by
  by_cases hpos : 0≤ctx.freeSectorLba
  · rw [dirClaimSlot_kept hpos] at h
    cases h
    exact ⟨Grows.refl fs,hu,hl,fun x _ => rfl,rfl,rfl⟩
  obtain ⟨l,hends⟩ := hslot.resolve_left hpos
  unfold dirClaimSlot at h
  rw [if_neg hpos] at h
  have hk := lastCluster_keeps maxDirClusters m d
  have hlast := fun last => @lastCluster_ends fs maxDirClusters m d last l hends
  rcases hr : lastCluster maxDirClusters fs d with ⟨o,s1⟩
  rw [hr] at h hk hlast
  cases o with
  | none => cases h
  | some last =>
    dsimp only at h hk
    have m1 := hk.mounted m
    have sp1 : Spares K fs s1 := hk.spares m
    have hl1 := hl.keeps m hk
    rcases fatAllocCluster_spec s1 m1 with ⟨h0,-⟩ | ha
    · rw [if_pos (.inr h0)] at h
      cases h
    split at h
    next => cases h
    next =>
      obtain ⟨hctx,hg⟩ := Prod.mk.inj h
      have hn1 : s1.Narrow := by
        rw [hk.layout]
        exact hn
      have hka : ¬K (fatAllocCluster s1).1 := fun hka => sp1.inUse hu _ ha.cluster hka ha.free
      have sp2 := sp1.trans (alloc_spares m1 hn1 (sp1.inUse hu))
      have m2 := m1.grows ha.toGrows
      have hl2 := hl1.alloc hn1 ha
      generalize (fatAllocCluster s1).1=a at ha hctx hg hka
      generalize (fatAllocCluster s1).2=s2 at ha hctx hg sp2 m2 hl2
      have ha2 : s2.HasCluster a := by
        rw [ha.layout]
        exact ha.cluster
      have hz := (zeroCluster_stores s2 m2 a ha2).1
      have sp3 := sp2.trans (zeroCluster_spares m2 ha2 hka)
      have hl3 := hl2.stores m2 hz
      generalize zeroCluster s2 a=s3 at hz hctx hg sp3 hl3
      have m3 := m.grows sp3.toGrows
      obtain ⟨l0,hl0⟩ := hlast last rfl
      have hlc : s3.HasCluster last := by
        rw [sp3.layout]
        exact ends_has hends last (by rw [hl0]; simp)
      have hamod : a%2^28=a := hn1.mod ha.cluster
      have hset := fatSetEntry_spec s3 m3 last a hlc
      rw [hg] at hset
      refine ⟨sp3.toGrows.trans hset.toGrows,fun c hc hkc => ?_,
        hset.linksIn hl3 fun _ => by rw [hamod]; exact hka,fun x hx => ?_,
        by rw [← Option.some.inj hctx],by rw [← Option.some.inj hctx]⟩
      · rw [hset.layout] at hc
        rw [hset.entries c hc]
        split
        · intro h0
          obtain ⟨-,-,hv⟩ := Option.map_eq_some_iff.mp h0
          rw [hamod] at hv
          exact absurd ha.cluster.1 (by omega)
        · exact sp3.inUse hu c hc hkc
      · obtain ⟨c,j,hc,hkc,hj,rfl⟩ := hx
        rw [← sp3.data c j hc hj hkc]
        refine hset.data _ ?_
        rw [sp3.layout]
        exact Layout.dataLba_inData c j hc hj

theorem file_effect (m : Mounted fs) (path : Bytes) : RewritesAt fs path := by
  intro buf
  rw [fat32WriteFile_eq,fileSlot]
  by_cases hslash : path.getLast?=some slash
  · rw [if_pos (.inl hslash),if_pos hslash]
    exact ⟨rfl,rfl⟩
  by_cases hp : (fat32GetParentCluster fs path).1.1=0 ∨ (fat32GetParentCluster fs path).1.2=[]
  · rw [if_pos (.inr hp),if_neg hslash,if_pos hp]
    exact ⟨rfl,(getParent_same fs path).dev⟩
  rw [if_neg (by simp [hslash,hp]),if_neg hslash,if_neg hp]
  have hk := writeScan_keeps m path
  have ms := hk.mounted m
  have hnone := @dirClaimSlot_none _ ms (fat32GetParentCluster fs path).1.1 (writeScan fs path).1
  have hgrown := @grown_elsewhere fs m path
  rcases hr : dirClaimSlot (writeScan fs path).2 (fat32GetParentCluster fs path).1.1
    (writeScan fs path).1 with ⟨o,fs1⟩
  rw [hr] at hnone
  cases o with
  | none => exact ⟨rfl,(hnone rfl).trans (writeScan_same fs path).dev⟩
  | some ctx =>
    have hlen := filenameTo83_length (fat32GetParentCluster fs path).1.2
    refine ⟨writeInto_records hlen buf,fun hn hdir => ?_⟩
    have hslot : 0≤(writeScan fs path).1.freeSectorLba ∨
        Proper (writeScan fs path).2 (fat32GetParentCluster fs path).1.1 := by
      by_cases hneg : (writeScan fs path).1.freeSectorLba<0
      · refine .inr ?_
        rcases hdir with ⟨t,ht,hlba⟩ | ⟨l,hl⟩
        · exact absurd hlba (hgrown hneg (by rw [hr]) t ht)
        · exact ⟨l,hk.ends m hl⟩
      · exact .inl (by omega)
    have hus : InUse (Kept fs path) (writeScan fs path).2 :=
      Spares.inUse (hk.spares m) fun c _ hc => hc.1
    obtain ⟨hg,hu,hl,hheld,hmatch,hex⟩ := claim_held ms (by rw [hk.layout]; exact hn) hus
      ((kept_links hn path).keeps m hk) hslot hr
    have hgrows := hk.toGrows.trans hg
    have he := writeInto_edits hlen buf ctx (m.grows hgrows) (by rw [hgrows.layout]; exact hn) hu
      hl fun hm hc => ?_
    · have hsec : ∀x,fs.SectorOf (Kept fs path) x → fs1.dev.readBlocks x=fs.dev.readBlocks x := by
        intro x hx
        rw [hheld x (by rw [Fat32Fs.SectorOf,hk.layout]; exact hx),(writeScan_same fs path).dev]
      have hsame : ∀x,fs.SectorOf (Kept fs path) x → fs1.SectorOf (Kept fs path) x := by
        intro x hx
        rw [Fat32Fs.SectorOf,hgrows.layout]
        exact hx
      refine ⟨fun x hx hne => (he.others x (hsame x hx) hne).trans (hsec x hx),
        fun hx s hs => he.edited (hsame _ hx) s ((hsec _ hx).trans hs)⟩
    · -- the scan has matched: what is replaced is the entry addressed
      rw [hmatch] at hm
      cases ha : addressed fs path with
      | none =>
        have hlook := look_write (filenameTo83 (fat32GetParentCluster fs path).1.2)
          (dirSlots fs (fat32GetParentCluster fs path).1.1) WriteSlot.none rfl
        rw [addressed,if_neg hp] at ha
        rw [ha,← writeScan_eq m] at hlook
        rw [hlook.1] at hm
        cases hm
      | some t =>
        have hext : ctx.existing=t.entry := by rw [hex,writeScan_some m ha]
        rw [hext] at hc ⊢
        rw [hgrows.layout] at hc
        exact fun hkept => hkept.2 t 1 ha (by rw [scanned,if_pos hc]; exact List.mem_cons_self)

/-- What the writers do is an edit at updateSlot and at fileSlot, find_file answers the entry at
foundSlot, and the three agree exactly when the entry the writers take a path for is clear. -/
theorem writers_address (m : Mounted fs) (path : Bytes) :
    (path.dropWhile (· == slash)≠[] →
      (fat32FindFile fs path).1=(foundSlot fs path).map Slot.entry) ∧
    UpdatesAt fs path ∧ RewritesAt fs path ∧ (Addresses fs path ↔ Clear fs path) :=
  ⟨fun hp => (findFile_slot m path).trans (if_neg hp),update_effect m path,file_effect m path,
    addresses_iff m path⟩

/-- A directory is overwritten by a file of its name. -/
theorem directory_overwritten :
    (fat32FindFile volumeWithDir (ofString "SUB")).1.map DirEntry.isDirectory=some true ∧
    (fat32Truncate volumeWithDir (ofString "SUB")).1=true ∧
    (fat32FindFile (fat32Truncate volumeWithDir (ofString "SUB")).2 (ofString "SUB")).1.map
      (fun e => (e.isDirectory,e.fstClus))=some (false,0) := by decide +kernel

theorem writers_address_file :
    let fs := (fat32WriteFile volumeWithDir (ofString "A") [1,2,3]).2
    Addresses fs (ofString "A") ∧
      ∃t,foundSlot fs (ofString "A")=some t ∧ updateSlot fs (ofString "A")=some (t.lba,t.idx) := by
  have hc : Counted volumeWithDir.toLayout volumeWithDir :=
    ⟨rfl,volumeWithDir_mounted,volumeWithDir_orderly.narrow,volumeWithDir_readable,
      .inl (by decide +kernel)⟩
  have hl : FsCall.Fair volumeWithDir (.write (ofString "A") [1,2,3]) := fun _ => by
    rw [show (fat32GetParentCluster volumeWithDir (ofString "A")).1.1=
      volumeWithDir.rootDirCluster by decide +kernel]
    exact volumeWithDir_consistent.root
  have m : Mounted (fat32WriteFile volumeWithDir (ofString "A") [1,2,3]).2 := (hc.call hl).mounted
  have hclear : (addressed (fat32WriteFile volumeWithDir (ofString "A") [1,2,3]).2
      (ofString "A")).any (fun t => listed t.entry && !t.entry.isDirectory &&
        decide (t.lba<2^31))=true := by decide +kernel
  obtain ⟨t,ht,hall⟩ := (Option.any_eq_true _ _).mp hclear
  simp only [Bool.and_eq_true,decide_eq_true_eq,Bool.not_eq_true'] at hall
  obtain ⟨-,-,-,hiff⟩ := writers_address m (ofString "A")
  have ha := hiff.mpr fun u hu => by
    rw [ht] at hu
    cases hu
    exact ⟨hall.1.1,fun h => absurd h (by decide),fun _ => .inl ⟨hall.1.2,hall.2⟩⟩
  have hu := (updateSlot_eq m (ofString "A")).trans (congrArg _ ht)
  obtain ⟨f,hf,hlba,hidx⟩ := ha.update t.lba t.idx hu
  exact ⟨ha,f,hf,by rw [hlba,hidx]; exact hu⟩

end effects

end LugalOS.Fat32
