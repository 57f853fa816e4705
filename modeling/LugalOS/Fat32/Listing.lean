import LugalOS.Fat32.Reading

namespace LugalOS.Fat32

variable {α : Type}

/-- A place for a directory entry, with the entry that is there. -/
structure Slot where
  lba : Nat
  idx : Nat
  entry : DirEntry

def slotsOfSector (lba : Nat) (s : Sector) : List Slot :=
  (List.range' 0 16).map fun i => ⟨lba,i,entryAt s i⟩

/-- The slots of some sectors, up to one that does not read. -/
def readSlots (dev : BlockDev) : List Nat → List Slot
  | [] => []
  | lba::rest =>
    match dev.readBlocks lba with
    | none => []
    | some s => slotsOfSector lba s++readSlots dev rest

def Layout.clusterLbas (l : Layout) (c : Nat) : List Nat :=
  (List.range' 0 l.bpb.secPerClus).map (l.dataLba c)

/-- The clusters a scan walks. -/
def scanned (fs : Fat32Fs) : Nat → Nat → List Nat
  | 0,_ => []
  | n+1,c =>
    if fs.HasCluster c then
      c::if (fs.entry c).getD endMark≥endOfChain then []
        else scanned fs n ((fs.entry c).getD endMark)
    else []

/-- What a scan of a directory sees, in order. -/
def dirSlots (fs : Fat32Fs) (start : Nat) : List Slot :=
  readSlots fs.dev ((scanned fs (fs.totalClusters+1) start).flatMap fs.clusterLbas)

/-- A look over slots: whether it stopped, and its context. -/
def lookSlots (f : Nat → Nat → DirEntry → α → Bool×α) : List Slot → α → Bool×α
  | [],a => (false,a)
  | t::rest,a =>
    match f t.lba t.idx t.entry a with
    | (true,a) => (true,a)
    | (false,a) => lookSlots f rest a

/-- The same over sectors; a sector that does not read stops it too. -/
def lookSectors (f : Nat → Nat → DirEntry → α → Bool×α) (dev : BlockDev) : List Nat → α → Bool×α
  | [],a => (false,a)
  | lba::rest,a =>
    match dev.readBlocks lba with
    | none => (true,a)
    | some s =>
      match lookSlots f (slotsOfSector lba s) a with
      | (true,a) => (true,a)
      | (false,a) => lookSectors f dev rest a

section look

variable (f : Nat → Nat → DirEntry → α → Bool×α)

theorem lookSlots_append (x y : List Slot) (a : α) :
    lookSlots f (x++y) a=match lookSlots f x a with
      | (true,a) => (true,a)
      | (false,a) => lookSlots f y a := by
  induction x generalizing a with
  | nil => rfl
  | cons t x ih =>
    rw [List.cons_append,lookSlots,lookSlots]
    rcases f t.lba t.idx t.entry a with ⟨stop,a'⟩
    cases stop with
    | true => rfl
    | false => exact ih a'

theorem lookSectors_append (dev : BlockDev) (x y : List Nat) (a : α) :
    lookSectors f dev (x++y) a=match lookSectors f dev x a with
      | (true,a) => (true,a)
      | (false,a) => lookSectors f dev y a := by
  induction x generalizing a with
  | nil => rfl
  | cons lba x ih =>
    rw [List.cons_append,lookSectors,lookSectors]
    cases dev.readBlocks lba with
    | none => rfl
    | some s =>
      dsimp only
      rcases lookSlots f (slotsOfSector lba s) a with ⟨stop,a'⟩
      cases stop with
      | true => rfl
      | false => exact ih a'

theorem lookSectors_slots (dev : BlockDev) (x : List Nat) (a : α) :
    (lookSectors f dev x a).2=(lookSlots f (readSlots dev x) a).2 := by
  induction x generalizing a with
  | nil => rfl
  | cons lba x ih =>
    rw [lookSectors,readSlots]
    cases dev.readBlocks lba with
    | none => rfl
    | some s =>
      dsimp only
      rw [lookSlots_append]
      rcases lookSlots f (slotsOfSector lba s) a with ⟨stop,a'⟩
      cases stop with
      | true => rfl
      | false => exact ih a'

theorem eachEntry_slots (fs : Fat32Fs) (lba : Nat) (sec : Sector) (n i : Nat) (a : α) :
    eachEntry (fun fs lba sec i a => (f lba i (entryAt sec i) a,fs)) n i fs lba sec a=
      (lookSlots f ((List.range' i n).map fun i => ⟨lba,i,entryAt sec i⟩) a,fs) := by
  induction n generalizing i a with
  | zero => rfl
  | succ n ih =>
    rw [eachEntry,List.range'_succ,List.map_cons,lookSlots]
    rcases f lba i (entryAt sec i) a with ⟨stop,a'⟩
    cases stop with
    | true => rfl
    | false => exact ih (i+1) a'

theorem scanSectors_look (fs : Fat32Fs) (hs : fs.toLayout.Sound) (c : Nat) (hc : fs.HasCluster c)
    (n s : Nat) (hn : n+s≤fs.bpb.secPerClus) (a : α) :
    scanSectors (looking f) (fs.clusterToLba c) n s fs a=
      (lookSectors f fs.dev ((List.range' s n).map (fs.dataLba c)) a,fs) := by
  induction n generalizing s a with
  | zero => rfl
  | succ n ih =>
    have hlba := hs.sectorLba c s hc (by omega)
    rw [scanSectors,hlba,List.range'_succ,List.map_cons,lookSectors]
    cases fs.dev.readBlocks (fs.dataLba c s) with
    | none => rfl
    | some sec =>
      have he := eachEntry_slots f fs (fs.dataLba c s) sec 16 0 a
      dsimp only [looking]
      rw [he,slotsOfSector]
      rcases lookSlots f ((List.range' 0 16).map fun i =>
        (⟨fs.dataLba c s,i,entryAt sec i⟩ : Slot)) a with ⟨stop,a'⟩
      cases stop with
      | true => rfl
      | false => exact ih (s+1) (by omega) a'

theorem scanned_keeps {fs fs' : Fat32Fs} (m : Mounted fs) (h : Keeps fs fs') (n c : Nat) :
    scanned fs' n c=scanned fs n c := by
  induction n generalizing c with
  | zero => rfl
  | succ n ih =>
    unfold scanned
    rw [h.layout]
    by_cases hc : fs.HasCluster c
    · rw [if_pos hc,if_pos hc,h.entry m.sound c hc,ih]
    · rw [if_neg hc,if_neg hc]

theorem scanned_has (fs : Fat32Fs) (n c x : Nat) (h : x∈scanned fs n c) : fs.HasCluster x := by
  induction n generalizing c with
  | zero => cases h
  | succ n ih =>
    unfold scanned at h
    by_cases hc : fs.HasCluster c
    · rw [if_pos hc] at h
      rcases List.mem_cons.mp h with h | h
      · rw [h]
        exact hc
      · split at h
        · cases h
        · exact ih _ h
    · rw [if_neg hc] at h
      cases h

theorem readSlots_congr (dev dev' : BlockDev) (x : List Nat)
    (h : ∀lba∈x,dev'.readBlocks lba=dev.readBlocks lba) : readSlots dev' x=readSlots dev x := by
  induction x with
  | nil => rfl
  | cons lba x ih =>
    rw [readSlots,readSlots,h lba List.mem_cons_self,
      ih fun l hl => h l (List.mem_cons_of_mem lba hl)]

theorem clusterLbas_inData {l : Layout} (c lba : Nat) (hc : l.HasCluster c)
    (h : lba∈l.clusterLbas c) : l.InData lba := by
  obtain ⟨s,hs,rfl⟩ := List.mem_map.mp h
  exact Layout.dataLba_inData c s hc (by simpa using hs)

theorem dirSlots_keeps {fs fs' : Fat32Fs} (m : Mounted fs) (h : Keeps fs fs') (start : Nat) :
    dirSlots fs' start=dirSlots fs start := by
  unfold dirSlots
  rw [h.layout,scanned_keeps m h]
  apply readSlots_congr
  intro lba hl
  obtain ⟨c,hc,hl⟩ := List.mem_flatMap.mp hl
  exact h.reads lba (.inr (clusterLbas_inData c lba (scanned_has fs _ start c hc) hl))

theorem scanClusters_look (fs : Fat32Fs) (m : Mounted fs) (n start : Nat) (a : α) :
    (scanClusters (looking f) n start fs a).1=
      (lookSectors f fs.dev ((scanned fs n start).flatMap fs.clusterLbas) a).2 := by
  induction n generalizing fs start a with
  | zero => rfl
  | succ n ih =>
    unfold scanClusters scanned
    by_cases hc : start<2 ∨ start≥fs.endCluster
    · have hn : ¬fs.HasCluster start := fun h => (m.sound.hasCluster_iff start).mpr h hc
      rw [if_pos hc,if_neg hn]
      rfl
    · have hcl := (m.sound.hasCluster_iff start).mp hc
      have hsec := scanSectors_look f fs m.sound start hcl fs.bpb.secPerClus 0 (Nat.le_refl _) a
      rw [if_neg hc,if_pos hcl,hsec,List.flatMap_cons,lookSectors_append]
      rw [show fs.clusterLbas start=(List.range' 0 fs.bpb.secPerClus).map (fs.dataLba start)
        from rfl]
      rcases lookSectors f fs.dev ((List.range' 0 fs.bpb.secPerClus).map (fs.dataLba start)) a
        with ⟨stop,a'⟩
      cases stop with
      | true => rfl
      | false =>
        have hk := fatGetEntry_keeps fs m start
        have he := fatGetEntry_eq fs m start hcl
        dsimp only
        rw [he]
        by_cases hn : (fs.entry start).getD endMark≥endOfChain
        · rw [if_pos hn,if_pos hn]
          rfl
        · have hd : (fatGetEntry fs start).2.dev=fs.dev := (fatGetEntry_same fs start).dev
          rw [if_neg hn,if_neg hn,ih _ (hk.mounted m),scanned_keeps m hk,hd,hk.layout]

theorem scan_look (fs : Fat32Fs) (m : Mounted fs) (start : Nat) (a : α) :
    (fat32ScanDir fs start (looking f) a).1=(lookSlots f (dirSlots fs start) a).2 := by
  rw [fat32ScanDir,scanClusters_look f fs m,lookSectors_slots]
  rfl

theorem scan_look_stable {fs fs' : Fat32Fs} (m : Mounted fs) (h : Keeps fs fs') (start : Nat)
    (a : α) : (fat32ScanDir fs' start (looking f) a).1=(fat32ScanDir fs start (looking f) a).1 := by
  rw [scan_look f fs' (h.mounted m),scan_look f fs m,dirSlots_keeps m h]

end look

end LugalOS.Fat32
