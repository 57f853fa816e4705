import LugalOS.Fat32.Scan

namespace LugalOS.Fat32

open LittleEndian

def Layout.HasCluster (l : Layout) (c : Nat) : Prop := 2≤c ∧ c<l.totalClusters+2

instance (l : Layout) (c : Nat) : Decidable (l.HasCluster c) := inferInstanceAs (Decidable (_ ∧ _))

/-- The boot sector's areas end before sector 2^32. -/
structure Layout.Fits (l : Layout) : Prop where
  dataEq : l.dataStartSector=l.fatStartSector+l.bpb.numFats*l.bpb.fatSz32
  dataEnd : l.dataStartSector+l.totalClusters*l.bpb.secPerClus≤2^32

/-- A layout that mounts and whose areas fit. -/
structure Layout.Sound (l : Layout) : Prop extends l.Fits where
  spcPos : 0<l.bpb.secPerClus
  fatsPos : 0<l.bpb.numFats
  fatStart : 0<l.fatStartSector
  fatSzPos : 0<l.bpb.fatSz32
  covers : ∀c,l.HasCluster c → c%2^30/128<l.bpb.fatSz32
  small : l.totalClusters+2<2^32
  root : l.HasCluster l.rootDirCluster
  bpcEq : l.bytesPerCluster=l.bpb.secPerClus*512

/-- The sectors of the FAT copies, of the first of them, and of the data clusters. -/
def Layout.InFat (l : Layout) (lba : Nat) : Prop := l.fatStartSector≤lba ∧ lba<l.dataStartSector
def Layout.InFat1 (l : Layout) (lba : Nat) : Prop :=
  l.fatStartSector≤lba ∧ lba<l.fatStartSector+l.bpb.fatSz32
def Layout.InData (l : Layout) (lba : Nat) : Prop :=
  l.dataStartSector≤lba ∧ lba<l.dataStartSector+l.totalClusters*l.bpb.secPerClus

def Layout.dataLba (l : Layout) (c s : Nat) : Nat := l.dataStartSector+(c-2)*l.bpb.secPerClus+s

section layout

variable {l : Layout}

theorem Layout.Sound.endCluster (h : l.Sound) : l.endCluster=l.totalClusters+2 := by
  have hs := h.small
  rw [Layout.endCluster,Nat.mod_eq_of_lt hs]

theorem Layout.Sound.hasCluster_iff (h : l.Sound) (c : Nat) :
    ¬(c<2 ∨ c≥l.endCluster) ↔ l.HasCluster c := by
  rw [h.endCluster,Layout.HasCluster]
  omega

theorem Layout.Sound.fat1_le (h : l.Sound) : l.fatStartSector+l.bpb.fatSz32≤l.dataStartSector := by
  have hm : 1*l.bpb.fatSz32≤l.bpb.numFats*l.bpb.fatSz32 := Nat.mul_le_mul_right _ h.fatsPos
  have hd := h.dataEq
  omega

theorem Layout.dataLba_inData (c s : Nat) (hc : l.HasCluster c) (hs : s<l.bpb.secPerClus) :
    l.InData (l.dataLba c s) := by
  have hm : (c-2+1)*l.bpb.secPerClus≤l.totalClusters*l.bpb.secPerClus :=
    Nat.mul_le_mul_right _ (by have := hc.1; have := hc.2; omega)
  rw [Nat.add_mul] at hm
  unfold Layout.InData Layout.dataLba
  omega

theorem Layout.Sound.clusterToLba (h : l.Sound) (c : Nat) (hc : l.HasCluster c) :
    l.clusterToLba c=l.dataLba c 0 := by
  have hd := Layout.dataLba_inData c 0 hc h.spcPos
  have he := h.dataEnd
  have hs := h.small
  have hk : (c+(2^32-2))%2^32=c-2 := by
    have := hc.1; have := hc.2
    omega
  unfold Layout.InData Layout.dataLba at hd
  rw [Layout.clusterToLba,hk,Layout.dataLba,Nat.mod_eq_of_lt (by omega)]
  rfl

theorem Layout.Sound.sectorLba (h : l.Sound) (c s : Nat) (hc : l.HasCluster c)
    (hs : s<l.bpb.secPerClus) : (l.clusterToLba c+s)%2^32=l.dataLba c s := by
  have hd := Layout.dataLba_inData c s hc hs
  have he := h.dataEnd
  have hz : l.dataLba c s=l.dataLba c 0+s := by
    simp only [Layout.dataLba]; omega
  unfold Layout.InData at hd
  rw [h.clusterToLba c hc,←hz,Nat.mod_eq_of_lt (by omega)]

theorem Layout.Sound.fatSector (h : l.Sound) (c : Nat) (hc : l.HasCluster c) :
    l.fatSector c=l.fatStartSector+c%2^30/128 := by
  have hv := h.covers c hc
  have hf := h.fat1_le
  have he := h.dataEnd
  have hk : c*4%2^32/512=c%2^30/128 := by omega
  rw [Layout.fatSector,hk,Nat.mod_eq_of_lt (by omega)]

theorem Layout.Sound.fatSector_inFat1 (h : l.Sound) (c : Nat) (hc : l.HasCluster c) :
    l.InFat1 (l.fatSector c) := by
  have hv := h.covers c hc
  rw [h.fatSector c hc,Layout.InFat1]
  omega

theorem fatWord_eq (c : Nat) : fatWord c=c%128 := by
  unfold fatWord
  omega

theorem Layout.Sound.fat2 (h : l.Sound) (lba : Nat) (hl : l.InFat1 lba) (hn : l.bpb.numFats>1) :
    (lba+l.bpb.fatSz32)%2^32=lba+l.bpb.fatSz32 ∧ l.InFat (lba+l.bpb.fatSz32) ∧
      ¬l.InFat1 (lba+l.bpb.fatSz32) := by
  have hm : 2*l.bpb.fatSz32≤l.bpb.numFats*l.bpb.fatSz32 := Nat.mul_le_mul_right _ hn
  have hd := h.dataEq
  have he := h.dataEnd
  unfold Layout.InFat Layout.InFat1 at *
  exact ⟨Nat.mod_eq_of_lt (by omega),by omega,by omega⟩

theorem Layout.InFat1.inFat (h : l.Sound) {lba : Nat} (hl : l.InFat1 lba) : l.InFat lba := by
  have hf := h.fat1_le
  unfold Layout.InFat Layout.InFat1 at *
  omega

theorem Layout.InData.not_inFat1 (h : l.Sound) {lba : Nat} (hl : l.InData lba) :
    ¬l.InFat1 lba := by
  have hf := h.fat1_le
  unfold Layout.InData Layout.InFat1 at *
  omega

end layout

theorem word_lt (s : Sector) (k : Nat) : word s k<2^32 := leAt_lt s (4*k) 4

theorem word_setWord (s : Sector) (k v : Nat) : word (setWord s k v) k=v%2^32 := leAt_putLe s (4*k) 4 v

theorem word_setWord_ne (s : Sector) (k v j : Nat) (h : j≠k) : word (setWord s k v) j=word s j :=
  leAt_putLe_outside s (4*k) 4 v (4*j) 4 (by omega)

/-- What a block write of each kind may touch: the FSInfo sector, the FAT copies, the data
clusters. -/
def Allowed (l : Layout) (fsinfoLba : Nat) (w : WriteKind×Nat) : Prop :=
  match w.1 with
  | .fat => l.InFat w.2
  | .data => l.InData w.2
  | .fsInfo => w.2=fsinfoLba
  | .format => False

/-- A cached sector of the first FAT copy is what the device holds. -/
def CacheOk (fs : Fat32Fs) : Prop :=
  ∀w,fs.fatCache=some w → fs.InFat1 fs.fatCacheLba → fs.dev.readBlocks fs.fatCacheLba=some w

structure Mounted (fs : Fat32Fs) : Prop where
  sound : fs.toLayout.Sound
  info : fs.fsinfoLba<fs.fatStartSector
  cache : CacheOk fs

/-- What every operation keeps, and the writes it may add. -/
structure Grows (fs fs' : Fat32Fs) : Prop where
  layout : fs'.toLayout=fs.toLayout
  fsinfo : fs'.fsinfoLba=fs.fsinfoLba
  blocks : fs'.dev.numBlocks=fs.dev.numBlocks
  steps : fs'.outOfSteps=fs.outOfSteps
  writes : ∃new,fs'.dev.writes=new++fs.dev.writes ∧ ∀w∈new,Allowed fs.toLayout fs.fsinfoLba w
  cache : CacheOk fs → CacheOk fs'

theorem Grows.refl (fs : Fat32Fs) : Grows fs fs :=
  ⟨rfl,rfl,rfl,rfl,⟨[],rfl,by simp⟩,id⟩

theorem Grows.trans {a b c : Fat32Fs} (h : Grows a b) (h' : Grows b c) : Grows a c := by
  obtain ⟨n,hn,ha⟩ := h.writes
  obtain ⟨n',hn',ha'⟩ := h'.writes
  refine ⟨h'.layout.trans h.layout,h'.fsinfo.trans h.fsinfo,h'.blocks.trans h.blocks,
    h'.steps.trans h.steps,⟨n'++n,by rw [hn',hn,List.append_assoc],?_⟩,h'.cache ∘ h.cache⟩
  intro w hw
  rcases List.mem_append.mp hw with hw | hw
  · rw [←h.layout,←h.fsinfo]
    exact ha' w hw
  · exact ha w hw

theorem Mounted.grows {fs fs' : Fat32Fs} (m : Mounted fs) (h : Grows fs fs') : Mounted fs' :=
  ⟨by rw [h.layout]; exact m.sound,by rw [h.fsinfo,h.layout]; exact m.info,h.cache m.cache⟩

theorem Grows.counters (fs : Fat32Fs) (fc nf : Nat) (ae fv md : Bool) (g : Nat) :
    Grows fs { fs with
      freeCount := fc, nextFree := nf, allocIoError := ae, fsinfoValid := fv, modified := md
      gen := g } :=
  ⟨rfl,rfl,rfl,rfl,⟨[],rfl,by simp⟩,id⟩

theorem write_grows (fs : Fat32Fs) (kind : WriteKind) (lba : Nat) (s : Sector)
    (ha : Allowed fs.toLayout fs.fsinfoLba (kind,lba)) (hn : ¬fs.InFat1 lba) :
    Grows fs (fs.write kind lba s).2 := by
  refine ⟨rfl,rfl,rfl,rfl,⟨[(kind,lba)],rfl,by simpa using ha⟩,?_⟩
  intro hc w hw hf
  have h := hc w hw hf
  have hne : fs.fatCacheLba≠lba := fun he => hn (he ▸ hf)
  unfold BlockDev.readBlocks at h ⊢
  simp only [Fat32Fs.write,BlockDev.writeBlocks]
  by_cases hl : lba<fs.dev.numBlocks
  · rw [if_pos hl,Function.update_of_ne hne]
    exact h
  · rw [if_neg hl]
    exact h

theorem write_data_grows (fs : Fat32Fs) (m : Mounted fs) (lba : Nat) (s : Sector)
    (hl : fs.InData lba) : Grows fs (fs.write .data lba s).2 :=
  write_grows fs .data lba s hl (hl.not_inFat1 m.sound)

theorem fsinfoWrite_grows (fs : Fat32Fs) (m : Mounted fs) (n : Nat) :
    Grows fs (fsinfoWrite fs n) := by
  unfold fsinfoWrite
  by_cases h0 : fs.fsinfoLba=0
  · rw [if_pos h0]
    exact Grows.refl fs
  · rw [if_neg h0]
    cases fs.dev.readBlocks fs.fsinfoLba with
    | none => exact Grows.refl fs
    | some sec =>
      dsimp only
      split
      · exact Grows.refl fs
      · refine write_grows fs .fsInfo fs.fsinfoLba _ rfl ?_
        have hi := m.info
        unfold Layout.InFat1
        omega

theorem fatSectorWords_grows (fs : Fat32Fs) (m : Mounted fs) (lba : Nat) :
    Grows fs (fatSectorWords fs lba).2 := by
  unfold fatSectorWords
  cases hc : fs.fatCache with
  | none => exact Grows.refl fs
  | some w =>
    dsimp only
    by_cases hl : fs.fatCacheLba≠lba
    · rw [if_pos hl]
      cases hr : fs.dev.readBlocks lba with
      | none =>
        refine ⟨rfl,rfl,rfl,rfl,⟨[],rfl,by simp⟩,fun _ w' _ hf => ?_⟩
        have := m.sound.fatStart
        have := hf.1
        simp only at this
        omega
      | some s =>
        refine ⟨rfl,rfl,rfl,rfl,⟨[],rfl,by simp⟩,fun _ w' hw _ => ?_⟩
        exact hr.trans hw
    · rw [if_neg hl]
      exact Grows.refl fs

theorem fatReadEntry_grows (fs : Fat32Fs) (m : Mounted fs) (c : Nat) :
    Grows fs (fatReadEntry fs c).2 :=
  fatSectorWords_grows fs m _

theorem fatGetEntry_grows (fs : Fat32Fs) (m : Mounted fs) (c : Nat) :
    Grows fs (fatGetEntry fs c).2 :=
  fatSectorWords_grows fs m _

theorem fatSectorWords_eq (fs : Fat32Fs) (m : Mounted fs) (lba : Nat) (hl : fs.InFat1 lba) :
    (fatSectorWords fs lba).1=fs.dev.readBlocks lba := by
  unfold fatSectorWords
  cases hc : fs.fatCache with
  | none => rfl
  | some w =>
    dsimp only
    by_cases hn : fs.fatCacheLba≠lba
    · rw [if_pos hn]
      cases fs.dev.readBlocks lba <;> rfl
    · rw [if_neg hn]
      have he : fs.fatCacheLba=lba := by omega
      have h := m.cache w hc (by rw [he]; exact hl)
      rw [he] at h
      exact h.symm

/-- The FAT entry of a cluster as the device has it; none when its sector does not read. -/
def Fat32Fs.entry (fs : Fat32Fs) (c : Nat) : Option Nat :=
  (fs.dev.readBlocks (fs.fatSector c)).map fun s => word s (fatWord c)%2^28

theorem fatReadEntry_eq (fs : Fat32Fs) (m : Mounted fs) (c : Nat) (hc : fs.HasCluster c) :
    (fatReadEntry fs c).1=fs.entry c := by
  have h := fatSectorWords_eq fs m (fs.fatSector c) (m.sound.fatSector_inFat1 c hc)
  simp only [fatReadEntry,Fat32Fs.entry,h]

theorem fatGetEntry_eq (fs : Fat32Fs) (m : Mounted fs) (c : Nat) (hc : fs.HasCluster c) :
    (fatGetEntry fs c).1=(fs.entry c).getD endMark := by
  have h := fatReadEntry_eq fs m c hc
  simp only [fatGetEntry,h]

@[simp] theorem write_layout (fs : Fat32Fs) (k : WriteKind) (lba : Nat) (s : Sector) :
    (fs.write k lba s).2.toLayout=fs.toLayout := rfl

theorem write_read_ne (fs : Fat32Fs) (k : WriteKind) (lba lba' : Nat) (s : Sector)
    (h : lba'≠lba) : (fs.write k lba s).2.dev.readBlocks lba'=fs.dev.readBlocks lba' := by
  have hb : (fs.write k lba s).2.dev.blocks lba'=fs.dev.blocks lba' := by
    simp only [Fat32Fs.write,BlockDev.writeBlocks]
    split
    · exact Function.update_of_ne h _ _
    · rfl
  simp only [BlockDev.readBlocks,hb]
  rfl

theorem write_read_self (fs : Fat32Fs) (k : WriteKind) (lba : Nat) (s : Sector)
    (h : lba<fs.dev.numBlocks) : (fs.write k lba s).2.dev.readBlocks lba=some s := by
  simp only [Fat32Fs.write,BlockDev.writeBlocks,BlockDev.readBlocks,if_pos h,
    Function.update_self]

theorem readBlocks_some (dev : BlockDev) (lba : Nat) (s : Sector)
    (h : dev.readBlocks lba=some s) : lba<dev.numBlocks := by
  by_contra hn
  rw [BlockDev.readBlocks,if_neg hn] at h
  cases h

/-- The sectors that hold the first FAT copy and the data, and the allocator's state, are left
as they were. -/
structure Keeps (fs fs' : Fat32Fs) : Prop extends Grows fs fs' where
  reads : ∀lba,fs.InFat1 lba ∨ fs.InData lba → fs'.dev.readBlocks lba=fs.dev.readBlocks lba
  freeCount : fs'.freeCount=fs.freeCount
  nextFree : fs'.nextFree=fs.nextFree
  gen : fs'.gen=fs.gen

theorem Keeps.refl (fs : Fat32Fs) : Keeps fs fs := ⟨Grows.refl fs,fun _ _ => rfl,rfl,rfl,rfl⟩

theorem Keeps.trans {a b c : Fat32Fs} (h : Keeps a b) (h' : Keeps b c) : Keeps a c := by
  refine ⟨h.toGrows.trans h'.toGrows,?_,h'.freeCount.trans h.freeCount,
    h'.nextFree.trans h.nextFree,h'.gen.trans h.gen⟩
  intro lba hl
  rw [h'.reads lba (by rw [h.layout]; exact hl),h.reads lba hl]

theorem Keeps.entry {fs fs' : Fat32Fs} (h : Keeps fs fs') (hs : fs.toLayout.Sound) (c : Nat)
    (hc : fs.HasCluster c) : fs'.entry c=fs.entry c := by
  have hsec : fs'.fatSector c=fs.fatSector c := by rw [h.layout]
  rw [Fat32Fs.entry,Fat32Fs.entry,hsec,h.reads _ (.inl (hs.fatSector_inFat1 c hc))]

theorem Keeps.ofSame {fs fs' : Fat32Fs} (h : SameDisk fs fs') (hg : Grows fs fs') :
    Keeps fs fs' :=
  ⟨hg,fun lba _ => by rw [h.dev],by rw [h],by rw [h],by rw [h]⟩

theorem fatReadEntry_keeps (fs : Fat32Fs) (m : Mounted fs) (c : Nat) :
    Keeps fs (fatReadEntry fs c).2 :=
  Keeps.ofSame (fatReadEntry_same fs c) (fatReadEntry_grows fs m c)

theorem fatGetEntry_keeps (fs : Fat32Fs) (m : Mounted fs) (c : Nat) :
    Keeps fs (fatGetEntry fs c).2 :=
  Keeps.ofSame (fatGetEntry_same fs c) (fatGetEntry_grows fs m c)

theorem fsinfoWrite_keeps (fs : Fat32Fs) (m : Mounted fs) (n : Nat) :
    Keeps fs (fsinfoWrite fs n) := by
  have hg := fsinfoWrite_grows fs m n
  have hfields : (fsinfoWrite fs n).freeCount=fs.freeCount ∧
      (fsinfoWrite fs n).nextFree=fs.nextFree ∧ (fsinfoWrite fs n).gen=fs.gen ∧
      ∀lba,lba≠fs.fsinfoLba → (fsinfoWrite fs n).dev.readBlocks lba=fs.dev.readBlocks lba := by
    unfold fsinfoWrite
    by_cases h0 : fs.fsinfoLba=0
    · rw [if_pos h0]
      exact ⟨rfl,rfl,rfl,fun _ _ => rfl⟩
    · rw [if_neg h0]
      cases fs.dev.readBlocks fs.fsinfoLba with
      | none => exact ⟨rfl,rfl,rfl,fun _ _ => rfl⟩
      | some sec =>
        dsimp only
        split
        · exact ⟨rfl,rfl,rfl,fun _ _ => rfl⟩
        · exact ⟨rfl,rfl,rfl,fun lba hl => write_read_ne fs .fsInfo _ lba _ hl⟩
  obtain ⟨h1,h2,h3,h4⟩ := hfields
  refine ⟨hg,fun lba hl => h4 lba ?_,h1,h2,h3⟩
  have hi := m.info
  have hf := m.sound.fat1_le
  unfold Layout.InFat1 Layout.InData at hl
  omega

theorem fatWillChange_keeps (fs : Fat32Fs) (m : Mounted fs) : Keeps fs (fatWillChange fs) := by
  have hm : Keeps fs { fs with modified := true } :=
    ⟨Grows.counters fs _ _ _ _ true _,fun _ _ => rfl,rfl,rfl,rfl⟩
  unfold fatWillChange
  dsimp only
  split
  · have h := fsinfoWrite_keeps _ (m.grows hm.toGrows) freeUnknown
    refine (hm.trans h).trans ⟨Grows.counters _ _ _ _ false _ _,fun _ _ => rfl,rfl,rfl,rfl⟩
  · exact hm

theorem fatSectorWords_cached (fs : Fat32Fs) (lba : Nat) (w : Sector)
    (h : (fatSectorWords fs lba).1=some w) :
    (fatSectorWords fs lba).2.fatCache=none ∨ (fatSectorWords fs lba).2.fatCacheLba=lba := by
  unfold fatSectorWords at h ⊢
  cases hc : fs.fatCache with
  | none => exact .inl hc
  | some w' =>
    rw [hc] at h
    dsimp only at h ⊢
    by_cases hn : fs.fatCacheLba≠lba
    · rw [if_pos hn] at h ⊢
      cases hr : fs.dev.readBlocks lba with
      | none => rw [hr] at h; cases h
      | some s => exact .inr rfl
    · rw [if_neg hn]
      exact .inr (not_not.mp hn)

/-- Writing a FAT sector: the first copy reads it back, the rest of it and the data stay. -/
structure WriteFat (fs : Fat32Fs) (lba : Nat) (sec : Sector) (fs' : Fat32Fs) : Prop
    extends Grows fs fs' where
  self : fs'.dev.readBlocks lba=some sec
  others : ∀lba',lba'≠lba → fs.InFat1 lba' ∨ fs.InData lba' →
    fs'.dev.readBlocks lba'=fs.dev.readBlocks lba'
  freeCount : fs'.freeCount=fs.freeCount
  nextFree : fs'.nextFree=fs.nextFree
  gen : fs'.gen=fs.gen

theorem writeFat_spec (fs : Fat32Fs) (hs : fs.toLayout.Sound) (lba : Nat) (sec : Sector)
    (hl : fs.InFat1 lba) (hb : lba<fs.dev.numBlocks)
    (hc : fs.fatCache=none ∨ fs.fatCacheLba=lba) : WriteFat fs lba sec (writeFat fs lba sec) := by
  have hfat := hl.inFat hs
  -- the state after the first write
  have h1 : ∀fs1 : Fat32Fs,fs1={ fs with fatCache := fs.fatCache.map fun _ => sec } →
      WriteFat fs lba sec (fs1.write .fat lba sec).2 := by
    rintro fs1 rfl
    refine ⟨⟨rfl,rfl,rfl,rfl,⟨[(.fat,lba)],rfl,?_⟩,?_⟩,
      write_read_self _ _ _ _ hb,fun lba' hn _ => write_read_ne _ _ _ _ _ hn,rfl,rfl,rfl⟩
    · intro w hw
      rw [List.mem_singleton.mp hw]
      exact hfat
    intro _ w hw hf
    obtain ⟨x,hx,rfl⟩ := Option.map_eq_some_iff.mp hw
    have he : fs.fatCacheLba=lba := by
      rcases hc with hn | he
      · rw [hx] at hn; cases hn
      · exact he
    change (Fat32Fs.write _ _ _ _).2.dev.readBlocks fs.fatCacheLba=_
    rw [he]
    exact write_read_self _ _ _ _ hb
  have hw := h1 _ rfl
  unfold writeFat
  dsimp only
  split
  next hn =>
    obtain ⟨h2eq,h2fat,h2not⟩ := hs.fat2 lba hl hn
    have hne : lba≠lba+fs.bpb.fatSz32 := fun he => h2not (he ▸ hl)
    have hgrow := write_grows
      (Fat32Fs.write { fs with fatCache := fs.fatCache.map fun _ => sec } .fat lba sec).2
      .fat ((lba+fs.bpb.fatSz32)%2^32) sec (by rw [h2eq]; exact h2fat) (by rw [h2eq]; exact h2not)
    refine ⟨hw.toGrows.trans hgrow,?_,?_,rfl,rfl,rfl⟩
    · refine (write_read_ne _ _ _ _ _ ?_).trans hw.self
      change lba≠(lba+fs.bpb.fatSz32)%2^32
      rw [h2eq]
      exact hne
    · intro lba' hn' hin
      refine (write_read_ne _ _ _ _ _ ?_).trans (hw.others lba' hn' hin)
      change lba'≠(lba+fs.bpb.fatSz32)%2^32
      rw [h2eq]
      rintro rfl
      rcases hin with hin | hin
      · exact h2not hin
      · unfold Layout.InData at hin
        unfold Layout.InFat at h2fat
        omega
  next => exact hw

/-- What setting an entry does: the entry and its aliases change in the first copy, data
sectors and the allocator's state do not. -/
structure SetEntry (fs : Fat32Fs) (c v : Nat) (fs' : Fat32Fs) : Prop extends Grows fs fs' where
  entries : ∀c',fs.HasCluster c' → fs'.entry c'=
    if c'%2^30=c%2^30 then (fs.entry c').map fun _ => v%2^28 else fs.entry c'
  data : ∀lba,fs.InData lba → fs'.dev.readBlocks lba=fs.dev.readBlocks lba
  freeCount : fs'.freeCount=fs.freeCount
  nextFree : fs'.nextFree=fs.nextFree
  gen : fs'.gen=fs.gen

theorem fatSetEntry_spec (fs : Fat32Fs) (m : Mounted fs) (c v : Nat) (hc : fs.HasCluster c) :
    SetEntry fs c v (fatSetEntry fs c v) := by
  have hk := fatWillChange_keeps fs m
  have m1 := m.grows hk.toGrows
  have hL := m.sound.fatSector_inFat1 c hc
  have hw := fatSectorWords_eq _ m1 (fs.fatSector c) (by rw [hk.layout]; exact hL)
  have hk2 := hk.trans (Keeps.ofSame (fatSectorWords_same _ (fs.fatSector c))
    (fatSectorWords_grows _ m1 (fs.fatSector c)))
  have hcached := fatSectorWords_cached (fatWillChange fs) (fs.fatSector c)
  rw [hk.reads _ (.inl hL)] at hw
  unfold fatSetEntry
  dsimp only
  rcases hr : fatSectorWords (fatWillChange fs) (fs.fatSector c) with ⟨o,fs2⟩
  rw [hr] at hw hk2 hcached
  simp only at hw hk2 hcached
  -- two clusters share an entry exactly when they share its sector and its word
  have hslot : ∀c',fs.HasCluster c' →
      (c'%2^30=c%2^30 ↔ fs.fatSector c'=fs.fatSector c ∧ fatWord c'=fatWord c) := by
    intro c' hc'
    rw [m.sound.fatSector c' hc',m.sound.fatSector c hc,fatWord_eq,fatWord_eq]
    omega
  cases o with
  | none =>
    refine ⟨hk2.toGrows,fun c' hc' => ?_,fun lba hl => hk2.reads lba (.inr hl),
      hk2.freeCount,hk2.nextFree,hk2.gen⟩
    rw [hk2.entry m.sound c' hc']
    split
    next ha =>
      have hnone : fs.entry c'=none := by
        rw [Fat32Fs.entry,((hslot c' hc').mp ha).1,←hw]
        rfl
      rw [hnone]
      rfl
    next => rfl
  | some w =>
    have hb := readBlocks_some fs.dev _ w hw.symm
    have hwf := writeFat_spec fs2 (by rw [hk2.layout]; exact m.sound) (fs.fatSector c)
      (setWord w (fatWord c) (word w (fatWord c)/2^28*2^28+v%2^28))
      (by rw [hk2.layout]; exact hL) (by rw [hk2.blocks]; exact hb) (hcached w rfl)
    refine ⟨hk2.toGrows.trans hwf.toGrows,fun c' hc' => ?_,fun lba hl => ?_,
      hwf.freeCount.trans hk2.freeCount,hwf.nextFree.trans hk2.nextFree,hwf.gen.trans hk2.gen⟩
    · have hlay := hwf.layout.trans hk2.layout
      have hsec : (writeFat fs2 (fs.fatSector c) (setWord w (fatWord c)
          (word w (fatWord c)/2^28*2^28+v%2^28))).fatSector c'=fs.fatSector c' := by rw [hlay]
      have hlt := word_lt w (fatWord c)
      rw [Fat32Fs.entry,hsec]
      by_cases hs : fs.fatSector c'=fs.fatSector c
      · rw [hs,hwf.self,Option.map_some]
        have he : fs.entry c'=some (word w (fatWord c')%2^28) := by
          rw [Fat32Fs.entry,hs,←hw]
          rfl
        by_cases hword : fatWord c'=fatWord c
        · rw [if_pos ((hslot c' hc').mpr ⟨hs,hword⟩),he,hword,word_setWord,Option.map_some]
          congr 1
          omega
        · rw [if_neg fun ha => hword ((hslot c' hc').mp ha).2,he,word_setWord_ne _ _ _ _ hword]
      · have hin := m.sound.fatSector_inFat1 c' hc'
        rw [if_neg fun ha => hs ((hslot c' hc').mp ha).1,
          hwf.others _ hs (by rw [hk2.layout]; exact .inl hin),hk2.reads _ (.inl hin)]
        rfl
    · have hne : lba≠fs.fatSector c := by
        rintro rfl
        exact hl.not_inFat1 m.sound hL
      rw [hwf.others lba hne (by rw [hk2.layout]; exact .inr hl),hk2.reads lba (.inr hl)]

end LugalOS.Fat32
