import LugalOS.Fat32.Alloc
import LugalOS.Fat32.Resolve
import LugalOS.Fat32.Files

namespace LugalOS.Fat32

open CString

variable {α : Type}

theorem eachEntry_rule (P : Fat32Fs → α → Prop)
    (step : Fat32Fs → Nat → Sector → Nat → α → (Bool×α)×Fat32Fs) (lba : Nat) (sec : Sector)
    (hs : ∀fs i a,P fs a → i<16 → P (step fs lba sec i a).2 (step fs lba sec i a).1.2)
    (n i : Nat) (hn : n+i≤16) (fs : Fat32Fs) (a : α) (h : P fs a) :
    P (eachEntry step n i fs lba sec a).2 (eachEntry step n i fs lba sec a).1.2 := by
  induction n generalizing i fs a with
  | zero => exact h
  | succ n ih =>
    have hp := hs fs i a h (by omega)
    unfold eachEntry
    rcases hr : step fs lba sec i a with ⟨⟨stop,a'⟩,fs'⟩
    rw [hr] at hp
    cases stop with
    | true => exact hp
    | false => exact ih (i+1) (by omega) fs' a' hp

section rule

variable (l : Layout) (hl : l.Sound) (P : Fat32Fs → α → Prop) (fn : ScanFn α)
  (hlay : ∀fs a,P fs a → fs.toLayout=l)
  (hread : ∀fs c a,P fs a → l.HasCluster c → P (fatGetEntry fs c).2 a)
  (hfn : ∀fs lba sec a,P fs a → l.InData lba → fs.dev.readBlocks lba=some sec →
    P (fn fs lba sec a).2 (fn fs lba sec a).1.2)

include hl hfn in
theorem scanSectors_rule (n s c base : Nat) (hb : base=l.clusterToLba c) (hc : l.HasCluster c)
    (hn : n+s≤l.bpb.secPerClus) (fs : Fat32Fs) (a : α) (h : P fs a) :
    P (scanSectors fn base n s fs a).2 (scanSectors fn base n s fs a).1.2 := by
  induction n generalizing s fs a with
  | zero => exact h
  | succ n ih =>
    have hlba : (base+s)%2^32=l.dataLba c s := by
      rw [hb]
      exact hl.sectorLba c s hc (by omega)
    have hin := Layout.dataLba_inData c s hc (show s<l.bpb.secPerClus by omega)
    unfold scanSectors
    dsimp only
    rw [hlba]
    cases hr : fs.dev.readBlocks (l.dataLba c s) with
    | none => exact h
    | some sec =>
      have hp := hfn fs _ sec a h hin hr
      dsimp only
      rcases hr' : fn fs (l.dataLba c s) sec a with ⟨⟨stop,a'⟩,fs'⟩
      rw [hr'] at hp
      cases stop with
      | true => exact hp
      | false => exact ih (s+1) (by omega) fs' a' hp

include hl hlay hread hfn in
theorem scanClusters_rule (n clus : Nat) (fs : Fat32Fs) (a : α) (h : P fs a) :
    P (scanClusters fn n clus fs a).2 (scanClusters fn n clus fs a).1 := by
  induction n generalizing clus fs a with
  | zero => exact h
  | succ n ih =>
    have hla := hlay fs a h
    unfold scanClusters
    by_cases hc : clus<2 ∨ clus≥fs.endCluster
    · rw [if_pos hc]
      exact h
    · rw [if_neg hc]
      rw [hla] at hc ⊢
      have hclus := (hl.hasCluster_iff clus).mp hc
      have hp := scanSectors_rule l hl P fn hfn l.bpb.secPerClus 0 clus _ rfl hclus
        (Nat.le_refl _) fs a h
      rcases hr : scanSectors fn (l.clusterToLba clus) l.bpb.secPerClus 0 fs a with
        ⟨⟨stop,a'⟩,fs'⟩
      rw [hr] at hp
      cases stop with
      | true => exact hp
      | false =>
        have hg := hread fs' clus a' hp hclus
        dsimp only
        by_cases hn : (fatGetEntry fs' clus).1≥endOfChain
        · rw [if_pos hn]
          exact hg
        · rw [if_neg hn]
          exact ih _ _ a' hg

include hl hlay hread hfn in
theorem scan_rule (fs : Fat32Fs) (start : Nat) (a : α) (h : P fs a) :
    P (fat32ScanDir fs start fn a).2 (fat32ScanDir fs start fn a).1 := by
  unfold fat32ScanDir
  exact scanClusters_rule l hl P fn hlay hread hfn (fs.totalClusters+1) start fs a h

end rule

theorem look_keeps (fs : Fat32Fs) (m : Mounted fs) (f : Nat → Nat → DirEntry → α → Bool×α)
    (Q : α → Prop) (hQ : ∀lba i e a,fs.InData lba → i<16 → Q a → Q (f lba i e a).2)
    (start : Nat) (a : α) (ha : Q a) :
    Keeps fs (fat32ScanDir fs start (looking f) a).2 ∧
      Q (fat32ScanDir fs start (looking f) a).1 := by
  have h := scan_rule fs.toLayout m.sound (fun fs' a => Grows fs fs' ∧ Q a) (looking f)
    (fun _ _ h => h.1.layout)
    (fun fs' c a h _ => ⟨h.1.trans (fatGetEntry_grows fs' (m.grows h.1) c),h.2⟩)
    (by
      intro fs' lba sec a h hl _
      exact eachEntry_rule (fun fs' a => Grows fs fs' ∧ Q a) _ lba sec
        (fun _ i a h hi => ⟨h.1,hQ lba i _ a hl hi h.2⟩) 16 0 (Nat.le_refl 16) fs' a h)
    fs start a ⟨Grows.refl fs,ha⟩
  exact ⟨Keeps.ofSame (fat32ScanDir_same fs start _ (looking_quiet f) a) h.1,h.2⟩

theorem scan_look_keeps (fs : Fat32Fs) (m : Mounted fs) (f : Nat → Nat → DirEntry → α → Bool×α)
    (start : Nat) (a : α) : Keeps fs (fat32ScanDir fs start (looking f) a).2 :=
  (look_keeps fs m f (fun _ => True) (fun _ _ _ _ _ _ _ => trivial) start a trivial).1

theorem Keeps.mounted {fs fs' : Fat32Fs} (h : Keeps fs fs') (m : Mounted fs) : Mounted fs' :=
  m.grows h.toGrows

theorem parentLoop_keeps (comps : List Bytes) (fs : Fat32Fs) (m : Mounted fs) (cur : Nat) :
    Keeps fs (parentLoop fs cur comps).2 := by
  induction comps generalizing fs cur with
  | nil => exact Keeps.refl fs
  | cons curr comps ih =>
    cases comps with
    | nil => exact Keeps.refl fs
    | cons c rest =>
      unfold parentLoop
      by_cases h0 : curr≠[]
      · rw [if_pos h0]
        have hk := scan_look_keeps fs m (fun _ _ e found =>
          if e.isEnd then (true,found)
          else if dirEntryIsSkippable e then (false,found)
          else if e.name=filenameTo83 curr then
            (true,if e.isDirectory then (if e.fstClus≠0 then e.fstClus else fs.rootDirCluster)
              else found)
          else (false,found)) cur 0
        dsimp only
        split
        · exact hk
        · exact hk.trans (ih _ (hk.mounted m) _)
      · rw [if_neg h0]
        exact ih fs m cur

theorem getParent_keeps (fs : Fat32Fs) (m : Mounted fs) (path : Bytes) :
    Keeps fs (fat32GetParentCluster fs path).2 := by
  unfold fat32GetParentCluster
  cases pathComponents path with
  | none => exact Keeps.refl fs
  | some comps => exact parentLoop_keeps comps fs m _

theorem findFile_keeps (fs : Fat32Fs) (m : Mounted fs) (path : Bytes) :
    Keeps fs (fat32FindFile fs path).2 := by
  unfold fat32FindFile
  dsimp only
  have hk := getParent_keeps fs m (path.dropWhile (· == slash))
  split
  · exact Keeps.refl fs
  · split
    · exact hk
    · have hs := scan_look_keeps (fat32GetParentCluster fs (path.dropWhile (· == slash))).2
        (hk.mounted m) (fun _ _ e found =>
          if e.isEnd then (true,found)
          else if dirEntryIsSkippable e then (false,found)
          else if e.name=filenameTo83 (fat32GetParentCluster fs
            (path.dropWhile (· == slash))).1.2 then (true,some e)
          else (false,found))
        (fat32GetParentCluster fs (path.dropWhile (· == slash))).1.1 none
      have h := hk.trans hs
      split
      · exact h
      · split <;> exact h

theorem asU32_asInt (n : Nat) (h : n<2^32) : asU32 (asInt n)=n := by
  unfold asU32 asInt
  split <;> omega

/-- A slot that was found lies in the data area. -/
def WriteSlot.Ok (l : Layout) (ctx : WriteSlot) : Prop :=
  ctx.freeSectorLba≥0 ∨ ctx.nameMatched=true → l.InData ctx.lba ∧ ctx.freeSlot<16

theorem slotLba_ok (l : Layout) (hl : l.Sound) (lba : Nat) (hi : l.InData lba) :
    asU32 (asInt lba)=lba := by
  apply asU32_asInt
  have he := hl.dataEnd
  unfold Layout.InData at hi
  omega

theorem writeSlot_keeps (fs : Fat32Fs) (m : Mounted fs) (name83 : Bytes) (start : Nat) :
    Keeps fs (fat32ScanDir fs start (writeSlotCb name83) WriteSlot.none).2 ∧
      (fat32ScanDir fs start (writeSlotCb name83) WriteSlot.none).1.Ok fs.toLayout := by
  apply look_keeps fs m (writeSlotStep name83) (WriteSlot.Ok fs.toLayout)
  · intro lba i e ctx hl hi hc
    have hlba := slotLba_ok fs.toLayout m.sound lba hl
    unfold writeSlotStep
    split
    · intro _
      exact ⟨by rw [WriteSlot.lba,hlba]; exact hl,hi⟩
    · dsimp only
      split
      · intro _
        exact ⟨by rw [WriteSlot.lba,hlba]; exact hl,hi⟩
      · exact hc
  · intro h
    rcases h with h | h
    · exact absurd h (by decide)
    · cases h

end LugalOS.Fat32
