import LugalOS.Fat32.Chains
import LugalOS.Fat32.Addressing

namespace LugalOS.Fat32

open Linked

section scan

variable {α : Type} {fs : Fat32Fs}

/-- A callback whose answer is a look's, and which leaves the volume alone. -/
def Looks (fs : Fat32Fs) (step : Fat32Fs → Nat → Sector → Nat → α → (Bool×α)×Fat32Fs)
    (f : Nat → Nat → DirEntry → α → Bool×α) : Prop :=
  ∀fs' lba sec i a,Keeps fs fs' → (step fs' lba sec i a).1=f lba i (entryAt sec i) a ∧
    Keeps fs (step fs' lba sec i a).2

variable {step : Fat32Fs → Nat → Sector → Nat → α → (Bool×α)×Fat32Fs}
  {f : Nat → Nat → DirEntry → α → Bool×α}

theorem Looks.eachEntry (hf : Looks fs step f) {fs' : Fat32Fs} (hk : Keeps fs fs') (lba : Nat)
    (sec : Sector) (n i : Nat) (a : α) :
    (eachEntry step n i fs' lba sec a).1=
        lookSlots f ((List.range' i n).map fun i => ⟨lba,i,entryAt sec i⟩) a ∧
      Keeps fs (eachEntry step n i fs' lba sec a).2 := by
  induction n generalizing i fs' a with
  | zero => exact ⟨rfl,hk⟩
  | succ n ih =>
    obtain ⟨h1,h2⟩ := hf fs' lba sec i a hk
    rw [Fat32.eachEntry,List.range'_succ,List.map_cons,lookSlots,← h1]
    rcases hr : step fs' lba sec i a with ⟨⟨stop,a'⟩,fs1⟩
    rw [hr] at h2
    cases stop with
    | true => exact ⟨rfl,h2⟩
    | false => exact ih h2 (i+1) a'

theorem Looks.scanSectors (hf : Looks fs step f) (m : Mounted fs) {fs' : Fat32Fs}
    (hk : Keeps fs fs') {c : Nat} (hc : fs.HasCluster c) (n s : Nat)
    (hn : n+s≤fs.bpb.secPerClus) (a : α) :
    (scanSectors (Fat32.eachEntry step 16 0) (fs.clusterToLba c) n s fs' a).1=
        lookSectors f fs.dev ((List.range' s n).map (fs.dataLba c)) a ∧
      Keeps fs (scanSectors (Fat32.eachEntry step 16 0) (fs.clusterToLba c) n s fs' a).2 := by
  induction n generalizing s fs' a with
  | zero => exact ⟨rfl,hk⟩
  | succ n ih =>
    have hlba := m.sound.sectorLba c s hc (by omega)
    have hread := hk.reads _ (.inr (Layout.dataLba_inData c s hc (by omega)))
    rw [Fat32.scanSectors,List.range'_succ,List.map_cons,lookSectors,hlba,hread]
    cases fs.dev.readBlocks (fs.dataLba c s) with
    | none => exact ⟨rfl,hk⟩
    | some sec =>
      obtain ⟨h1,h2⟩ := hf.eachEntry hk (fs.dataLba c s) sec 16 0 a
      dsimp only
      rw [slotsOfSector,← h1]
      rcases hr : Fat32.eachEntry step 16 0 fs' (fs.dataLba c s) sec a with ⟨⟨stop,a'⟩,fs1⟩
      rw [hr] at h2
      cases stop with
      | true => exact ⟨rfl,h2⟩
      | false => exact ih h2 (s+1) (by omega) a'

theorem Looks.scanClusters (hf : Looks fs step f) (m : Mounted fs) {fs' : Fat32Fs}
    (hk : Keeps fs fs') (n start : Nat) (a : α) :
    (scanClusters (Fat32.eachEntry step 16 0) n start fs' a).1=
        (lookSectors f fs.dev ((scanned fs n start).flatMap fs.clusterLbas) a).2 ∧
      Keeps fs (scanClusters (Fat32.eachEntry step 16 0) n start fs' a).2 := by
  induction n generalizing fs' start a with
  | zero => exact ⟨rfl,hk⟩
  | succ n ih =>
    have m' := hk.mounted m
    unfold Fat32.scanClusters scanned
    by_cases hc : start<2 ∨ start≥fs'.endCluster
    · have hno : ¬fs.HasCluster start := fun h => by
        rw [← hk.layout] at h
        exact (m'.sound.hasCluster_iff start).mpr h hc
      rw [if_pos hc,if_neg hno]
      exact ⟨rfl,hk⟩
    · have hcl : fs.HasCluster start := by
        rw [← hk.layout]
        exact (m'.sound.hasCluster_iff start).mp hc
      obtain ⟨h1,h2⟩ := hf.scanSectors m hk hcl fs.bpb.secPerClus 0 (Nat.le_refl _) a
      rw [if_neg hc,if_pos hcl,List.flatMap_cons,lookSectors_append,hk.layout]
      rw [show fs.clusterLbas start=(List.range' 0 fs.bpb.secPerClus).map (fs.dataLba start)
        from rfl,← h1]
      rcases hr : Fat32.scanSectors (Fat32.eachEntry step 16 0) (fs.clusterToLba start)
        fs.bpb.secPerClus 0 fs' a with ⟨⟨stop,a'⟩,fs1⟩
      rw [hr] at h2
      cases stop with
      | true => exact ⟨rfl,h2⟩
      | false =>
        have m1 : Mounted fs1 := Keeps.mounted h2 m
        have hk1 := Keeps.trans h2 (fatGetEntry_keeps fs1 m1 start)
        have hcl1 : fs1.HasCluster start := by
          rw [show fs1.toLayout=fs.toLayout from h2.layout]
          exact hcl
        have he := fatGetEntry_eq fs1 m1 start hcl1
        rw [Keeps.entry h2 m.sound start hcl] at he
        dsimp only
        rw [he]
        by_cases hend : (fs.entry start).getD endMark≥endOfChain
        · rw [if_pos hend,if_pos hend]
          exact ⟨rfl,hk1⟩
        · rw [if_neg hend,if_neg hend]
          exact ih hk1 _ a'

theorem Looks.scanDir (hf : Looks fs step f) (m : Mounted fs) {fs' : Fat32Fs}
    (hk : Keeps fs fs') (d : Nat) (a : α) :
    (fat32ScanDir fs' d (Fat32.eachEntry step 16 0) a).1=(lookSlots f (dirSlots fs d) a).2 ∧
      Keeps fs (fat32ScanDir fs' d (Fat32.eachEntry step 16 0) a).2 := by
  have h := hf.scanClusters m hk (fs.totalClusters+1) d a
  rw [fat32ScanDir,hk.layout,dirSlots,← lookSectors_slots]
  exact h

end scan

section entries

/-- The entries whose chains the check follows. -/
def checkSees (e : DirEntry) : Bool := !dirEntryIsSkippable e && e.head != dot

/-- The clusters the check wants a file to have. -/
def checkNeed (fs : Fat32Fs) (e : DirEntry) : Nat := (e.fileSize+fs.bpc-1)%2^32/fs.bpc

/-- What the check does with one of those entries. -/
def checkEntry (fs : Fat32Fs) (c : CheckCtx) (e : DirEntry) : CheckCtx :=
  if e.isDirectory then
    let c := { c with out := { c.out with dirs := c.out.dirs+1 } }
    if e.fstClus=0 then c
    else
      let seen := e.fstClus≥2 ∧ e.fstClus<fs.endCluster ∧ c.bits e.fstClus
      let c := (checkChain fs c e.fstClus).1.2
      if seen then c
      else if c.queue.length<c.qcap then { c with queue := c.queue++[e.fstClus] }
      else { c with out := { c.out with skipped := c.out.skipped+1 } }
  else
    let c := { c with out := { c.out with files := c.out.files+1 } }
    let r := if e.fstClus≠0 then (checkChain fs c e.fstClus).1 else (0,c)
    let c := r.2
    if r.1≠checkNeed fs e ∧ ¬(e.fstClus=0 ∧ checkNeed fs e=0) then
      { c with out := { c.out with size := c.out.size+1 } }
    else c

def checkLook (fs : Fat32Fs) (_ _ : Nat) (e : DirEntry) (c : CheckCtx) : Bool×CheckCtx :=
  if e.isEnd then (true,c)
  else if !checkSees e then (false,c)
  else (false,checkEntry fs c e)

/-- The entries of a directory that the check follows, in order. -/
def checkedSlots (fs : Fat32Fs) (d : Nat) : List Slot :=
  (inUse (dirSlots fs d)).filter fun t => checkSees t.entry

theorem look_check (fs : Fat32Fs) (l : List Slot) (c : CheckCtx) :
    (lookSlots (checkLook fs) l c).2=
      ((inUse l).filter fun t => checkSees t.entry).foldl
        (fun c t => checkEntry fs c t.entry) c := by
  induction l generalizing c with
  | nil => rfl
  | cons t l ih =>
    rw [lookSlots,inUse_cons,checkLook]
    cases he : t.entry.isEnd with
    | true => rfl
    | false =>
      cases hs : checkSees t.entry with
      | true =>
        simp only [Bool.false_eq_true,if_false,Bool.not_true]
        rw [ih,List.filter_cons,if_pos hs,List.foldl_cons]
      | false =>
        simp only [Bool.false_eq_true,if_false,Bool.not_false,if_true]
        rw [ih,List.filter_cons,if_neg (by simp [hs])]

theorem checkDirStep_looks (fs : Fat32Fs) (m : Mounted fs) :
    Looks fs checkDirStep (checkLook fs) := by
  intro fs' lba sec i c hk
  have hend : fs'.endCluster=fs.endCluster := by rw [hk.layout]
  have hbpc : fs'.bpc=fs.bpc := by rw [hk.layout]
  have hchain : ∀c : CheckCtx,(checkChain fs' c (entryAt sec i).fstClus).1=
      (checkChain fs c (entryAt sec i).fstClus).1 ∧
      Keeps fs (checkChain fs' c (entryAt sec i).fstClus).2 := by
    intro c
    unfold checkChain
    rw [hk.layout]
    exact ⟨checkChainLoop_stable _ m hk (Keeps.refl fs) c _ 0,
      hk.trans (checkChainLoop_keeps _ (hk.mounted m) c _ 0)⟩
  unfold checkDirStep checkLook
  dsimp only
  by_cases h0 : (entryAt sec i).isEnd=true
  · rw [if_pos h0,if_pos h0]
    exact ⟨rfl,hk⟩
  rw [if_neg h0,if_neg h0]
  by_cases hs : dirEntryIsSkippable (entryAt sec i)=true ∨ (entryAt sec i).head=dot
  · have hsees : (!checkSees (entryAt sec i))=true := by
      rcases hs with hs | hs <;> simp [checkSees,hs]
    rw [if_pos hs,if_pos hsees]
    exact ⟨rfl,hk⟩
  have hsees : ¬(!checkSees (entryAt sec i))=true := by
    rw [not_or] at hs
    simp [checkSees,hs.1,hs.2]
  rw [if_neg hs,if_neg hsees,checkEntry]
  by_cases hd : (entryAt sec i).isDirectory=true
  · rw [if_pos hd,if_pos hd]
    by_cases hz : (entryAt sec i).fstClus=0
    · rw [if_pos hz]
      dsimp only
      rw [if_pos hz]
      exact ⟨rfl,hk⟩
    · obtain ⟨hc1,hc2⟩ := hchain { c with out := { c.out with dirs := c.out.dirs+1 } }
      rw [if_neg hz]
      dsimp only
      rw [if_neg hz,hc1,hend]
      split
      · exact ⟨rfl,hc2⟩
      · split <;> exact ⟨rfl,hc2⟩
  · rw [if_neg hd,if_neg hd,hbpc]
    obtain ⟨hc1,hc2⟩ := hchain { c with out := { c.out with files := c.out.files+1 } }
    dsimp only [checkNeed]
    by_cases hz : (entryAt sec i).fstClus≠0
    · rw [if_pos hz,if_pos hz,hc1]
      split
      next h => exact ⟨congrArg (Prod.mk false) (if_pos h).symm,hc2⟩
      next h => exact ⟨congrArg (Prod.mk false) (if_neg h).symm,hc2⟩
    · rw [if_neg hz,if_neg hz]
      split
      next h => exact ⟨congrArg (Prod.mk false) (if_pos h).symm,hk⟩
      next h => exact ⟨congrArg (Prod.mk false) (if_neg h).symm,hk⟩

theorem scan_check {fs fs' : Fat32Fs} (m : Mounted fs) (hk : Keeps fs fs') (d : Nat)
    (c : CheckCtx) : (fat32ScanDir fs' d (eachEntry checkDirStep 16 0) c).1=
      (checkedSlots fs d).foldl (fun c t => checkEntry fs c t.entry) c ∧
    Keeps fs (fat32ScanDir fs' d (eachEntry checkDirStep 16 0) c).2 := by
  obtain ⟨h1,h2⟩ := (checkDirStep_looks fs m).scanDir m hk d c
  exact ⟨h1.trans (look_check fs (dirSlots fs d) c),h2⟩

end entries

end LugalOS.Fat32
