import Mathlib.Tactic.IntervalCases
import LugalOS.Fat32.Table
import LugalOS.Fat32.Mount

namespace LugalOS.Fat32

open Function (update_of_ne update_self)
open CString LittleEndian

section Fields

theorem leAt_patch_outside (s : Sector) (p : Nat) (bs : Bytes) (o n : Nat)
    (h : o+n≤p ∨ p+bs.length≤o) : leAt (patch s p bs) o n=leAt s o n :=
  leAt_congr _ _ _ _ fun k h0 h1 => patch_outside s p bs k (by omega)

theorem leAt_patch (s : Sector) (o n v : Nat) : leAt (patch s o (leBytes v n)) o n=v%256^n :=
  leAt_putLe s o n v

theorem leAt_zero (o n : Nat) : leAt zeroSector o n=0 := by
  induction n generalizing o with
  | zero => rfl
  | succ n ih => simp [leAt,ih,zeroSector]

theorem byteAt_eq (s : Sector) (o : Nat) : byteAt s o=leAt s o 1 := by simp [byteAt,leAt]

@[simp] theorem oemName_length : (ofString "MSWIN4.1").length=8 := by decide
@[simp] theorem fsType_length : (ofString "FAT32   ").length=8 := by decide
@[simp] theorem volLabel_length : (ofString "LUGALOS_FAT").length=11 := by decide

theorem formatBoot_bpb (blocks spc fatSz : Nat) :
    readBpb (formatBoot blocks spc fatSz)=
      ⟨512,spc%256,32,2,0,blocks%2^32,fatSz%2^32,2,0,0x29⟩ := by
  have hsig : ([0x29] : Bytes)=leBytes 0x29 1 := rfl
  rw [formatBoot,hsig]
  simp (disch := simp) only [readBpb,patchAll,List.foldl,byteAt_eq,leAt_patch_outside,leAt_patch,
    leAt_zero]
  rfl

theorem formatBoot_partition (blocks spc fatSz : Nat) :
    partitionLba (formatBoot blocks spc fatSz)=0 := by
  have htype : byteAt (formatBoot blocks spc fatSz) (0x1BE+4)=0 := by
    simp (disch := simp) only [formatBoot,patchAll,List.foldl,byteAt_eq,leAt_patch_outside,
      leAt_zero]
  rw [partitionLba,htype]
  simp

theorem mkfsMbr_partition {start : Nat} (size volId : Nat) (h0 : 0 < start)
    (h1 : start<0x0FFFFFFF) : partitionLba (mkfsMbr start size volId)=start := by
  have hsig : ([0x55,0xAA] : Bytes)=leBytes 0xAA55 2 := rfl
  have hentry : ([0x00,0xFE,0xFF,0xFF,0x0C,0xFE,0xFF,0xFF] : Bytes)=
    leBytes 0xFFFFFE0CFFFFFE00 8 := rfl
  have hstart : leAt (mkfsMbr start size volId) (0x1BE+8) 4=start := by
    simp (disch := simp) only [mkfsMbr,patchAll,List.foldl,leAt_patch_outside,leAt_patch]
    omega
  have htype : byteAt (mkfsMbr start size volId) (0x1BE+4)=0x0C := by
    simp [mkfsMbr,patchAll,byteAt,patch]
  have h510 : byteAt (mkfsMbr start size volId) 510=0x55 := by
    simp [mkfsMbr,patchAll,byteAt,patch]
  have h511 : byteAt (mkfsMbr start size volId) 511=0xAA := by
    simp [mkfsMbr,patchAll,byteAt,patch]
  rw [partitionLba,hstart,htype,h510,h511]
  rw [if_pos ⟨rfl,rfl,.inr (.inl rfl),h0,h1⟩]

theorem mkfsBoot_bpb (m : MkfsShape) (start size volId : Nat) {lab : Bytes} (hl : lab.length=11) :
    readBpb (mkfsBoot m start size volId lab)=
      ⟨512,m.spc%256,m.reserved%2^16,2,0,size%2^32,m.fatSz%2^32,2,1,0x29⟩ := by
  have hsig : ([0x29] : Bytes)=leBytes 0x29 1 := rfl
  rw [mkfsBoot,hsig]
  simp (disch := simp [hl]) only [readBpb,patchAll,List.foldl,byteAt_eq,leAt_patch_outside,
    leAt_patch,leAt_zero]
  rfl

theorem mkfsLabel_length (label : Bytes) : (mkfsLabel label).length=11 := by
  simp only [mkfsLabel,List.length_append,List.length_map,List.length_take,List.length_replicate]
  omega

end Fields

section Writing

/-- Blocks of a device changed, by writes that are all on it. -/
structure Stored (dev : BlockDev) (blocks : Nat → Sector) (dev' : BlockDev) : Prop where
  size : dev'.numBlocks=dev.numBlocks
  blocks : dev'.blocks=blocks
  writes : ∃new,dev'.writes=new++dev.writes ∧ ∀w∈new,w.2<dev.numBlocks

theorem Stored.refl (dev : BlockDev) : Stored dev dev.blocks dev := ⟨rfl,rfl,[],rfl,by simp⟩

theorem Stored.trans {a b c : BlockDev} {f g : Nat → Sector} (h : Stored a f b)
    (h' : Stored b g c) : Stored a g c := by
  obtain ⟨n,hn,hb⟩ := h.writes
  obtain ⟨n',hn',hb'⟩ := h'.writes
  refine ⟨h'.size.trans h.size,h'.blocks,n'++n,by rw [hn',hn,List.append_assoc],fun w hw => ?_⟩
  rcases List.mem_append.mp hw with hw|hw
  · exact h.size ▸ hb' w hw
  · exact hb w hw

theorem writeBlocks_stored {dev : BlockDev} {lba : Nat} (h : lba<dev.numBlocks)
    (kind : WriteKind) (s : Sector) :
    (dev.writeBlocks kind lba s).1=true ∧
      Stored dev (Function.update dev.blocks lba s) (dev.writeBlocks kind lba s).2 :=
  ⟨decide_eq_true h,rfl,if_pos h,[(kind,lba)],rfl,by simpa using h⟩

theorem zeroBlocks_stored {dev : BlockDev} {lba n : Nat} (h : lba+n≤dev.numBlocks) :
    (zeroBlocks lba n dev).1=true ∧
      Stored dev (fun k => if lba≤k ∧ k<lba+n then zeroSector else dev.blocks k)
        (zeroBlocks lba n dev).2 := by
  induction n generalizing lba dev with
  | zero =>
    refine ⟨rfl,rfl,?_,[],rfl,by simp⟩
    funext k
    rw [if_neg (by omega)]
    rfl
  | succ n ih =>
    obtain ⟨hok,hst⟩ := writeBlocks_stored (show lba<dev.numBlocks by omega) .format zeroSector
    have hroom : lba+1+n≤(dev.writeBlocks .format lba zeroSector).2.numBlocks := by
      rw [hst.size]
      omega
    obtain ⟨hok',hst'⟩ := ih hroom
    rw [zeroBlocks]
    rw [if_pos hok]
    refine ⟨hok',?_⟩
    convert hst.trans hst' using 1
    funext k
    rw [hst.blocks]
    by_cases hk : k=lba
    · subst hk
      rw [if_pos (by omega),if_neg (by omega),update_self]
    · rw [update_of_ne hk]
      exact if_congr (by omega) rfl rfl

/-- What a list of writes leaves in the blocks. -/
def overwrite (l : List (Nat×Sector)) (f : Nat → Sector) : Nat → Sector :=
  l.foldl (fun f w => Function.update f w.1 w.2) f

theorem writeAll_stored {l : List (Nat×Sector)} {dev : BlockDev}
    (h : ∀w∈l,w.1<dev.numBlocks) :
    (writeAll l dev).1=true ∧ Stored dev (overwrite l dev.blocks) (writeAll l dev).2 := by
  induction l generalizing dev with
  | nil => exact ⟨rfl,Stored.refl dev⟩
  | cons w l ih =>
    obtain ⟨hok,hst⟩ := writeBlocks_stored (h w List.mem_cons_self) .format w.2
    have hroom : ∀x∈l,x.1<(dev.writeBlocks .format w.1 w.2).2.numBlocks := fun x hx => by
      rw [hst.size]
      exact h x (List.mem_cons_of_mem _ hx)
    obtain ⟨hok',hst'⟩ := ih hroom
    rw [writeAll]
    rw [if_pos hok]
    refine ⟨hok',?_⟩
    rw [hst.blocks] at hst'
    exact hst.trans hst'

/-- A writer that succeeds on every device of n blocks, and how it changes their contents. -/
def Writes (n : Nat) (k : BlockDev → Bool×BlockDev) (f : (Nat → Sector) → Nat → Sector) : Prop :=
  ∀dev : BlockDev,dev.numBlocks=n → (k dev).1=true ∧ Stored dev (f dev.blocks) (k dev).2

theorem Writes.andThen {n : Nat} {k k' : BlockDev → Bool×BlockDev}
    {f g : (Nat → Sector) → Nat → Sector} (h : Writes n k f) (h' : Writes n k' g) :
    Writes n (fun dev => if !(k dev).1 then k dev else k' (k dev).2) fun b => g (f b) := by
  intro dev hn
  obtain ⟨hok,hst⟩ := h dev hn
  obtain ⟨hok',hst'⟩ := h' (k dev).2 (hst.size.trans hn)
  rw [hst.blocks] at hst'
  simp only [hok,Bool.not_true,Bool.false_eq_true,if_false]
  exact ⟨hok',hst.trans hst'⟩

theorem writes_block {n lba : Nat} (h : lba<n) (s : Sector) :
    Writes n (fun dev => dev.writeBlocks .format lba s) fun b => Function.update b lba s :=
  fun _ hn => writeBlocks_stored (hn ▸ h) .format s

theorem writes_zeros {n lba k : Nat} (h : lba+k≤n) :
    Writes n (zeroBlocks lba k) fun b j => if lba≤j ∧ j<lba+k then zeroSector else b j :=
  fun _ hn => zeroBlocks_stored (hn ▸ h)

theorem writes_all {n : Nat} {l : List (Nat×Sector)} (h : ∀w∈l,w.1<n) :
    Writes n (writeAll l) (overwrite l) :=
  fun _ hn => writeAll_stored (hn ▸ h)

end Writing

section Geometry

/-- The loop of the plain format, and its FAT size, in the source's 32 bits. -/
def formatSpc32 (blocks : UInt32) : Nat → UInt32 → UInt32
  | 0,spc => spc
  | n+1,spc => if spc<64 ∧ (blocks-32)/spc>65536 then formatSpc32 blocks n (spc<<<1) else spc

def formatFatSz32 (blocks spc : UInt32) : UInt32 := (((blocks-32)/spc+2)*4+511)/512

/-- One turn of fat32_mkfs's search, in the source's 32 bits. -/
def mkfsShape32 (partSize spc : UInt32) : MkfsShape :=
  let most := (partSize-32)/spc
  let fatSz := ((most+2)*4+511)/512
  let dataAbs := 8192+32+2*fatSz
  let reserved := 32+(8192-dataAbs%8192)%8192
  ⟨spc.toNat,reserved.toNat,fatSz.toNat,((partSize-reserved-2*fatSz)/spc).toNat⟩

def mkfsSearch32 (partSize : UInt32) : Nat → UInt32 → Option MkfsShape
  | 0,_ => none
  | n+1,spc =>
    let m := mkfsShape32 partSize spc
    if m.clusters≥mkfsMinClust then some m else mkfsSearch32 partSize n (spc>>>1)

def clusterSizes : List Nat := [1,2,4,8,16,32,64]

theorem formatSpc_spec {blocks : UInt32} (hb : 32≤blocks.toNat) {k n : Nat} {spc : UInt32}
    (hs : spc.toNat=2^k) (hk : k+n=6) :
    (formatSpc32 blocks n spc).toNat=formatSpc blocks.toNat n spc.toNat ∧
      formatSpc blocks.toNat n spc.toNat∈clusterSizes ∧
      (formatSpc blocks.toNat n spc.toNat=64 ∨
        (blocks.toNat-32)/formatSpc blocks.toNat n spc.toNat≤65536) := by
  induction n generalizing k spc with
  | zero =>
    have h6 : k=6 := hk
    rw [formatSpc,hs,h6]
    exact ⟨by rw [formatSpc32,hs,h6],by decide,.inl rfl⟩
  | succ n ih =>
    have hsub : (blocks-32).toNat=blocks.toNat-32 :=
      UInt32.toNat_sub_of_le _ _ (UInt32.le_iff_toNat_le.mpr hb)
    have hcond : (spc<64 ∧ (blocks-32)/spc>65536) ↔
        (spc.toNat<64 ∧ (blocks.toNat-32)/spc.toNat>65536) := by
      rw [gt_iff_lt,UInt32.lt_iff_toNat_lt,UInt32.lt_iff_toNat_lt,UInt32.toNat_div,hsub]
      rfl
    rw [formatSpc,formatSpc32]
    by_cases hc : spc.toNat<64 ∧ (blocks.toNat-32)/spc.toNat>65536
    · rw [if_pos (hcond.mpr hc),if_pos hc]
      have hlt : k<6 := by omega
      have hdouble : (spc<<<1).toNat=spc.toNat*2 := by
        rw [UInt32.toNat_shiftLeft,hs]
        interval_cases k <;> rfl
      rw [← hdouble]
      exact ih (k := k+1) (by rw [hdouble,hs,Nat.pow_succ]) (by omega)
    · rw [if_neg fun h => hc (hcond.mp h),if_neg hc]
      have hmem : spc.toNat∈clusterSizes := by
        have hle : k≤6 := by omega
        rw [hs]
        interval_cases k <;> decide
      refine ⟨rfl,hmem,?_⟩
      by_contra hn
      rw [not_or] at hn
      refine hc ⟨?_,by omega⟩
      have hle : k≤6 := by omega
      have hne := hn.1
      rw [hs] at hne ⊢
      interval_cases k <;> omega

theorem formatFatSz_eq {blocks spc : UInt32} (hb : 32≤blocks.toNat)
    (h : (blocks.toNat-32)/spc.toNat≤2^26) :
    (formatFatSz32 blocks spc).toNat=(((blocks.toNat-32)/spc.toNat+2)*4+511)/512 := by
  have hsub : (blocks-32).toNat=blocks.toNat-32 :=
    UInt32.toNat_sub_of_le _ _ (UInt32.le_iff_toNat_le.mpr hb)
  have hmost : ((blocks-32)/spc).toNat=(blocks.toNat-32)/spc.toNat := by
    rw [UInt32.toNat_div,hsub]
  rw [formatFatSz32,UInt32.toNat_div,UInt32.toNat_add,UInt32.toNat_mul,UInt32.toNat_add,hmost]
  change (((_+2)%2^32*4%2^32+511)%2^32)/512=_
  omega

theorem mkfsShape_eq {part spc : UInt32} (hp : 8192 < part.toNat)
    (hm : (part.toNat-32)/spc.toNat≤2^26)
    (hr : (mkfsShape 8192 part.toNat spc.toNat).reserved+
      2*(mkfsShape 8192 part.toNat spc.toNat).fatSz≤part.toNat) :
    mkfsShape32 part spc=mkfsShape 8192 part.toNat spc.toNat := by
  have hsub : (part-32).toNat=part.toNat-32 :=
    UInt32.toNat_sub_of_le _ _ (UInt32.le_iff_toNat_le.mpr (show 32≤part.toNat by omega))
  have hmost : ((part-32)/spc).toNat=(part.toNat-32)/spc.toNat := by
    rw [UInt32.toNat_div,hsub]
  have hfat : ((((part-32)/spc+2)*4+511)/512).toNat=
      (((part.toNat-32)/spc.toNat+2)*4+511)/512 := formatFatSz_eq (by omega) hm
  simp only [mkfsShape,mkfsAlign] at hr
  simp only [mkfsShape32,mkfsShape,mkfsAlign]
  generalize (((part-32)/spc+2)*4+511)/512=fat at hfat ⊢
  rw [← hfat] at hr ⊢
  have hbound : fat.toNat≤2^20 := by
    rw [hfat]
    omega
  have habs : (8192+32+2*fat).toNat=8192+32+2*fat.toNat := by
    rw [UInt32.toNat_add,UInt32.toNat_mul]
    change (8224+2*fat.toNat%2^32)%2^32=_
    omega
  have hmod : (8192-(8192+32+2*fat)%8192).toNat=8192-(8192+32+2*fat.toNat)%8192 := by
    rw [UInt32.toNat_sub_of_le,UInt32.toNat_mod,habs]
    · rfl
    · rw [UInt32.le_iff_toNat_le,UInt32.toNat_mod,habs]
      change _%8192≤8192
      omega
  have hres : (32+(8192-(8192+32+2*fat)%8192)%8192).toNat=
      32+(8192-(8192+32+2*fat.toNat)%8192)%8192 := by
    rw [UInt32.toNat_add,UInt32.toNat_mod,hmod]
    change (32+_%8192)%2^32=_
    omega
  have htwo : (2*fat).toNat=2*fat.toNat := by
    rw [UInt32.toNat_mul]
    change 2*fat.toNat%2^32=_
    omega
  generalize 32+(8192-(8192+32+2*fat)%8192)%8192=res at hres ⊢
  rw [← hres] at hr ⊢
  have h1 : (part-res).toNat=part.toNat-res.toNat :=
    UInt32.toNat_sub_of_le _ _ (UInt32.le_iff_toNat_le.mpr (by omega))
  have h2 : (part-res-2*fat).toNat=part.toNat-res.toNat-2*fat.toNat := by
    rw [UInt32.toNat_sub_of_le,h1,htwo]
    rw [UInt32.le_iff_toNat_le,h1,htwo]
    omega
  rw [UInt32.toNat_div,h2]

theorem mkfsShape_room {part spc : Nat} (hp : 8192 < part) (hs : spc∈clusterSizes) :
    (mkfsShape 8192 part spc).reserved+2*(mkfsShape 8192 part spc).fatSz≤part := by
  simp only [clusterSizes,List.mem_cons,List.not_mem_nil,or_false] at hs
  simp only [mkfsShape,mkfsAlign]
  rcases hs with rfl|rfl|rfl|rfl|rfl|rfl|rfl <;> omega

theorem mkfsShape_few {part : Nat} (hp : part<2^32)
    (h : (mkfsShape 8192 part 64).clusters < mkfsMinClust) : part<2^23 := by
  simp only [mkfsShape,mkfsAlign,mkfsMinClust] at h
  omega

theorem mkfsSearch_mem {part n spc : Nat} {m : MkfsShape} (hs : spc=2^n/2)
    (hn : n≤7) (h : mkfsSearch 8192 part n spc=some m) :
    ∃s∈clusterSizes,m=mkfsShape 8192 part s ∧ mkfsMinClust ≤ m.clusters := by
  induction n generalizing spc with
  | zero => cases h
  | succ n ih =>
    rw [mkfsSearch] at h
    split_ifs at h with hc
    · obtain rfl := Option.some.inj h
      refine ⟨spc,?_,rfl,hc⟩
      have hle : n≤6 := by omega
      rw [hs]
      interval_cases n <;> decide
    · refine ih ?_ (by omega) h
      rw [hs,Nat.pow_succ]
      omega

theorem mkfsSearch_eq {part spc : UInt32} {n : Nat} (hp : 8192 < part.toNat)
    (hs : spc.toNat=2^n/2) (hn : n≤7) (hsmall : n=7 ∨ part.toNat<2^23) :
    mkfsSearch32 part n spc=mkfsSearch 8192 part.toNat n spc.toNat := by
  induction n generalizing spc with
  | zero => rfl
  | succ n ih =>
    have hle : n≤6 := by omega
    have hmem : spc.toNat∈clusterSizes := by
      rw [hs]
      interval_cases n <;> decide
    have hlt := part.toNat_lt
    have hmost : (part.toNat-32)/spc.toNat≤2^26 := by
      rcases hsmall with h7|hsmall
      · obtain rfl : n=6 := by omega
        rw [hs]
        omega
      · exact (Nat.div_le_self _ _).trans (by omega)
    have hhalf : (spc>>>1).toNat=spc.toNat/2 := UInt32.toNat_shiftRight spc 1
    rw [mkfsSearch32,mkfsSearch,mkfsShape_eq hp hmost (mkfsShape_room hp hmem)]
    by_cases hc : (mkfsShape 8192 part.toNat spc.toNat).clusters≥mkfsMinClust
    · rw [if_pos hc,if_pos hc]
    · rw [if_neg hc,if_neg hc,← hhalf]
      refine ih ?_ (by omega) (.inr ?_)
      · rw [hhalf,hs,Nat.pow_succ]
        omega
      · rcases hsmall with h7|hsmall
        · obtain rfl : n=6 := by omega
          rw [show spc.toNat=64 from hs] at hc
          exact mkfsShape_few hlt (by omega)
        · exact hsmall

end Geometry

section Mounting

/-- Sector, reserved sectors, the two FATs and the data of a volume, each with its length. -/
def areas (start size reserved fatSz : Nat) : List (Nat×Nat) :=
  [(start,1),(start+1,reserved-1),(start+reserved,fatSz),(start+reserved+fatSz,fatSz),
    (start+reserved+2*fatSz,size-reserved-2*fatSz)]

/-- A volume that has just been made: the root directory is its only chain. -/
structure Fresh (fs : Fat32Fs) : Prop where
  root : fs.rootDirCluster=2 ∧ fs.HasCluster 2 ∧ fs.entry 2=some endMark
  free : ∀c,fs.HasCluster c → c≠2 → fs.entry c=some 0

/-- What a format leaves: a volume in `size` sectors from `start` on, with that free count. -/
structure Made (dev dev' : BlockDev) (start size reserved fatSz spc clusters free : Nat) :
    Prop where
  onDevice : ∃new,dev'.writes=new++dev.writes ∧ ∀w∈new,w.2<dev.numBlocks
  room : start+size≤dev.numBlocks
  apart : (areas start size reserved fatSz).Pairwise fun a b => a.1+a.2≤b.1
  inside : ∀a∈areas start size reserved fatSz,start≤a.1 ∧ a.1+a.2 ≤ start+size
  whole : clusters=(size-reserved-2*fatSz)/spc
  covers : clusters+2≤fatSz*128
  copies : ∀k,k<fatSz → dev'.blocks (start+reserved+fatSz+k)=dev'.blocks (start+reserved+k)
  mounts : ∀gen cache,∃fs,fat32Init dev' gen cache=some fs ∧ fs.dev=dev' ∧
    fs.fatStartSector=start+reserved ∧ fs.dataStartSector=start+reserved+2*fatSz ∧
    fs.bpb.secPerClus=spc ∧ fs.bpb.fatSz32=fatSz ∧ fs.bpb.numFats=2 ∧
    fs.totalClusters=clusters ∧ fs.freeCount=free ∧ Fresh fs

/-- What the arithmetic of a format guarantees. -/
structure Shape (start size reserved fatSz spc clusters : Nat) : Prop where
  reserved_ok : 32 ≤ reserved ∧ reserved<2^16
  spc_mem : spc∈clusterSizes
  fat_ok : 0 < fatSz ∧ fatSz≤2^20
  fits : reserved+2*fatSz+spc ≤ size
  end_lt : start+size<2^32
  whole : clusters=(size-reserved-2*fatSz)/spc
  covers : clusters+2≤fatSz*128

variable {start size reserved fatSz spc clusters : Nat}

theorem Shape.clusters_pos (h : Shape start size reserved fatSz spc clusters) : 0 < clusters := by
  have hf := h.fits
  have hs : 0 < spc := by
    have hmem := h.spc_mem
    simp only [clusterSizes,List.mem_cons,List.not_mem_nil,or_false] at hmem
    omega
  rw [h.whole]
  exact Nat.div_pos (by omega) hs

theorem Shape.clusters_lt (h : Shape start size reserved fatSz spc clusters) :
    clusters<2^32 := by
  have hf := h.fat_ok
  have hc := h.covers
  omega

theorem Shape.areas_apart (h : Shape start size reserved fatSz spc clusters) :
    (areas start size reserved fatSz).Pairwise (fun a b => a.1+a.2≤b.1) ∧
      ∀a∈areas start size reserved fatSz,start≤a.1 ∧ a.1+a.2 ≤ start+size := by
  obtain ⟨⟨hr,-⟩,-,-,hf,-,-,-⟩ := h
  constructor
  · simp only [areas,List.pairwise_cons,List.mem_cons,List.not_mem_nil,or_false,
      forall_eq_or_imp,forall_eq,List.Pairwise.nil,and_true]
    simp only [false_imp_iff,implies_true,and_true]
    omega
  · simp only [areas,List.mem_cons,List.not_mem_nil,or_false,forall_eq_or_imp,forall_eq]
    omega

/-- The boot sector of such a volume, as a mount reads it. -/
def bpbOf (size reserved fatSz spc info : Nat) : Bpb :=
  ⟨512,spc,reserved,2,0,size,fatSz,2,info,0x29⟩

theorem totalClustersOf_eq {b : Bpb} (h0 : b.totSec32≠0) (hs : b.secPerClus≠0)
    (ha : (b.reservedSecCnt+b.numFats*b.fatSz32)%2^32 < b.totSec32)
    (hf : ¬(b.fatSz32*128%2^32≥2 ∧
      (b.totSec32-(b.reservedSecCnt+b.numFats*b.fatSz32)%2^32)/b.secPerClus >
        b.fatSz32*128%2^32-2)) :
    totalClustersOf b=(b.totSec32-(b.reservedSecCnt+b.numFats*b.fatSz32)%2^32)/b.secPerClus := by
  have hroom : b.secPerClus≠0 ∧
      b.totSec32 > (b.reservedSecCnt+b.numFats*b.fatSz32)%2^32 := ⟨hs,ha⟩
  rw [totalClustersOf]
  simp only [if_pos h0,if_pos hroom,if_neg hf]

theorem Shape.layout (h : Shape start size reserved fatSz spc clusters) (info : Nat) :
    layoutOf start (bpbOf size reserved fatSz spc info)=
      ⟨bpbOf size reserved fatSz spc info,start+reserved,start+reserved+2*fatSz,2,spc*512,
        clusters⟩ := by
  obtain ⟨⟨hr,hr'⟩,hs,⟨hf0,hf⟩,hfit,hend,hw,hc⟩ := h
  have htotal : totalClustersOf (bpbOf size reserved fatSz spc info)=clusters := by
    have hs0 : spc≠0 := by
      simp only [clusterSizes,List.mem_cons,List.not_mem_nil,or_false] at hs
      omega
    have harea : (reserved+2*fatSz)%2^32=reserved+2*fatSz := Nat.mod_eq_of_lt (by omega)
    have hent : fatSz*128%2^32=fatSz*128 := Nat.mod_eq_of_lt (by omega)
    have hdiv : (size-(reserved+2*fatSz))/spc=clusters := by rw [← Nat.sub_sub,hw]
    have harea' : reserved+2*fatSz < size := by omega
    have hbig : ¬(fatSz*128≥2 ∧ clusters > fatSz*128-2) := by
      clear hw hdiv
      omega
    have key := totalClustersOf_eq (b := bpbOf size reserved fatSz spc info)
      (show size≠0 by omega) hs0
    dsimp only [bpbOf] at key
    rw [harea,hent,hdiv] at key
    exact key harea' hbig
  have h1 : (start+reserved)%2^32=start+reserved := Nat.mod_eq_of_lt (by omega)
  have h2 : 2*fatSz%2^32=2*fatSz := Nat.mod_eq_of_lt (by omega)
  have h3 : (start+reserved+2*fatSz)%2^32=start+reserved+2*fatSz := Nat.mod_eq_of_lt (by omega)
  rw [layoutOf,htotal]
  simp only [bpbOf]
  rw [h1,h2,h3]

theorem Shape.usable (h : Shape start size reserved fatSz spc clusters) (info : Nat) :
    (layoutOf start (bpbOf size reserved fatSz spc info)).usable=true := by
  have hpos := h.clusters_pos
  rw [h.layout info]
  obtain ⟨⟨hr,hr'⟩,hs,⟨hf0,hf⟩,hfit,hend,hw,hc⟩ := h
  have hpow : spc≠0 ∧ spc &&& (spc-1)=0 := by
    simp only [clusterSizes,List.mem_cons,List.not_mem_nil,or_false] at hs
    rcases hs with rfl|rfl|rfl|rfl|rfl|rfl|rfl <;> decide
  have hlast : (clusters+2)%2^32=clusters+2 := Nat.mod_eq_of_lt (by clear hw; omega)
  simp only [Layout.usable,bpbOf,Layout.endCluster,hlast,decide_eq_true_eq]
  refine ⟨trivial,hpow.1,hpow.2,?_⟩
  clear hw
  omega

/-- The first FAT as the formats leave it: its head, and zeros. -/
structure FatMade (dev : BlockDev) (fatStart fatSz : Nat) : Prop where
  onDevice : fatStart+fatSz≤dev.numBlocks
  head : dev.blocks fatStart=fatHead
  rest : ∀k,fatStart < k → k < fatStart+fatSz → dev.blocks k=zeroSector
  copies : ∀k,k<fatSz → dev.blocks (fatStart+fatSz+k)=dev.blocks (fatStart+k)

theorem word_zero (k : Nat) : word zeroSector k=0 := leAt_zero (4*k) 4

theorem word_fatHead {k : Nat} (h : 2≤k) : word fatHead k%2^28=if k=2 then endMark else 0 := by
  by_cases h2 : k=2
  · subst h2
    rw [fatHead,word_setWord]
    rfl
  · rw [fatHead,word_setWord_ne _ _ _ _ h2,word_setWord_ne _ _ _ _ (by omega),
      word_setWord_ne _ _ _ _ (by omega),word_zero,if_neg h2]
    rfl

theorem FatMade.fresh {fs : Fat32Fs} (h : FatMade fs.dev fs.fatStartSector fs.bpb.fatSz32)
    (hr : fs.rootDirCluster=2) (hpos : 0 < fs.totalClusters)
    (hend : fs.fatStartSector+fs.bpb.fatSz32<2^32) (hsz : fs.bpb.fatSz32≤2^20)
    (hc : fs.totalClusters+2≤fs.bpb.fatSz32*128) : Fresh fs := by
  have hentry : ∀c,fs.HasCluster c → fs.entry c=some (if c=2 then endMark else 0) := by
    rintro c ⟨h2,hlt⟩
    have hsec : fs.fatSector c=fs.fatStartSector+c/128 := by
      rw [Layout.fatSector]
      omega
    have hread : fs.dev.readBlocks (fs.fatStartSector+c/128)=
        some (fs.dev.blocks (fs.fatStartSector+c/128)) :=
      if_pos (by have := h.onDevice; omega)
    rw [Fat32Fs.entry,hsec,hread,fatWord_eq,Option.map_some]
    by_cases h0 : c/128=0
    · have hmod : c%128=c := by omega
      rw [h0,Nat.add_zero,h.head,hmod,word_fatHead h2]
    · rw [h.rest _ (by omega) (by omega),word_zero,if_neg (by omega)]
      rfl
  refine ⟨⟨hr,⟨le_refl 2,by omega⟩,?_⟩,fun c hcl hne => ?_⟩
  · rw [hentry 2 ⟨le_refl 2,by omega⟩,if_pos rfl]
  · rw [hentry c hcl,if_neg hne]

theorem mkfsInfo_free {clusters : Nat} (h : clusters<2^32) :
    word (mkfsInfo clusters) fsinfoWFree=clusters-1 := by
  rw [mkfsInfo,word_setWord_ne _ _ _ _ (by decide),word_setWord_ne _ _ _ _ (by decide),
    word_setWord,Nat.mod_eq_of_lt (by omega)]

theorem mkfsInfo_signed (clusters : Nat) :
    word (mkfsInfo clusters) fsinfoWLead=fsinfoLeadSig ∧
      word (mkfsInfo clusters) fsinfoWStruc=fsinfoStrucSig ∧
      word (mkfsInfo clusters) fsinfoWTrail=fsinfoTrailSig := by
  refine ⟨?_,?_,?_⟩
  · rw [mkfsInfo,word_setWord_ne _ _ _ _ (by decide),word_setWord_ne _ _ _ _ (by decide),
      word_setWord_ne _ _ _ _ (by decide),word_setWord_ne _ _ _ _ (by decide),word_setWord]
    rfl
  · rw [mkfsInfo,word_setWord_ne _ _ _ _ (by decide),word_setWord_ne _ _ _ _ (by decide),
      word_setWord_ne _ _ _ _ (by decide),word_setWord]
    rfl
  · rw [mkfsInfo,word_setWord]
    rfl

theorem Shape.mounts (h : Shape start size reserved fatSz spc clusters) {dev : BlockDev}
    {s0 boot : Sector} {info : Nat} (h0 : dev.readBlocks 0=some s0) (hp : partitionLba s0=start)
    (hb : (if start > 0 then dev.readBlocks start else some s0)=some boot)
    (hbpb : readBpb boot=bpbOf size reserved fatSz spc info) (gen : Nat) (cache : Option Sector) :
    ∃fs,fat32Init dev gen cache=some fs ∧
      fs.toLayout=layoutOf start (bpbOf size reserved fatSz spc info) ∧ fs.dev=dev ∧
      (info=0 → fs.freeCount=freeUnknown) ∧
      (info=1 → dev.readBlocks (start+1)=some (mkfsInfo clusters) → fs.freeCount=clusters-1) := by
  have husable := h.usable info
  have hsig : ¬((bpbOf size reserved fatSz spc info).bootSig≠0x29 ∧ byteAt boot 510≠0x55) :=
    fun hx => hx.1 rfl
  have hpos := h.clusters_pos
  have hlay := h.layout info
  have hlt := h.clusters_lt
  obtain ⟨⟨hr,hr'⟩,hs,⟨hf0,hf⟩,hfit,hend,hw,hc⟩ := h
  simp only [fat32Init,h0,hp,hb,hbpb]
  rw [if_neg hsig,husable]
  simp only [Bool.not_true,Bool.false_eq_true,if_false]
  by_cases hi : (bpbOf size reserved fatSz spc info).fsInfo≥1 ∧
      (bpbOf size reserved fatSz spc info).fsInfo < (bpbOf size reserved fatSz spc info).reservedSecCnt
  · rw [if_pos hi]
    have hi0 : info≠0 := fun hx => by
      have h1 : 1 ≤ info := hi.1
      omega
    cases hrd : dev.readBlocks ((start+(bpbOf size reserved fatSz spc info).fsInfo)%2^32) with
    | none =>
      refine ⟨_,rfl,rfl,rfl,fun hx => absurd hx hi0,fun hx hrd' => ?_⟩
      rw [show (bpbOf size reserved fatSz spc info).fsInfo=1 from hx,
        Nat.mod_eq_of_lt (by omega),hrd'] at hrd
      cases hrd
    | some sec =>
      dsimp only
      by_cases hsec : word sec fsinfoWLead=fsinfoLeadSig ∧ word sec fsinfoWStruc=fsinfoStrucSig ∧
          word sec fsinfoWTrail=fsinfoTrailSig
      · rw [if_pos hsec]
        refine ⟨_,rfl,by (repeat' split) <;> rfl,by (repeat' split) <;> rfl,
          fun hx => absurd hx hi0,fun hx hrd' => ?_⟩
        rw [show (bpbOf size reserved fatSz spc info).fsInfo=1 from hx,
          Nat.mod_eq_of_lt (by omega),hrd'] at hrd
        obtain rfl := Option.some.inj hrd
        have hle : word (mkfsInfo clusters) fsinfoWFree≤
            (layoutOf start (bpbOf size reserved fatSz spc info)).totalClusters := by
          rw [mkfsInfo_free hlt,hlay]
          exact Nat.sub_le _ _
        simp only [if_pos hle]
        (repeat' split) <;> exact mkfsInfo_free hlt
      · rw [if_neg hsec]
        refine ⟨_,rfl,rfl,rfl,fun hx => absurd hx hi0,fun hx hrd' => absurd ?_ hsec⟩
        rw [show (bpbOf size reserved fatSz spc info).fsInfo=1 from hx,
          Nat.mod_eq_of_lt (by omega),hrd'] at hrd
        obtain rfl := Option.some.inj hrd
        exact mkfsInfo_signed clusters
  · rw [if_neg hi]
    refine ⟨_,rfl,rfl,rfl,fun _ => rfl,fun hx _ => absurd ⟨?_,?_⟩ hi⟩
    · exact le_of_eq hx.symm
    · rw [show (bpbOf size reserved fatSz spc info).fsInfo=1 from hx]
      exact lt_of_lt_of_le (by decide) hr

theorem Shape.made (h : Shape start size reserved fatSz spc clusters) {dev dev' : BlockDev}
    {f : Nat → Sector} (hst : Stored dev f dev') (hroom : start+size≤dev.numBlocks)
    (hfat : FatMade dev' (start+reserved) fatSz) {s0 boot : Sector} {info free : Nat}
    (h0 : dev'.readBlocks 0=some s0) (hp : partitionLba s0=start)
    (hb : (if start > 0 then dev'.readBlocks start else some s0)=some boot)
    (hbpb : readBpb boot=bpbOf size reserved fatSz spc info)
    (hfree : info=0 ∧ free=freeUnknown ∨ info=1 ∧ free=clusters-1 ∧
      dev'.readBlocks (start+1)=some (mkfsInfo clusters)) :
    Made dev dev' start size reserved fatSz spc clusters free := by
  refine ⟨hst.writes,hroom,h.areas_apart.1,h.areas_apart.2,h.whole,h.covers,hfat.copies,
    fun gen cache => ?_⟩
  obtain ⟨fs,hfs,hlay,hdev,hu,hk⟩ := h.mounts h0 hp hb hbpb gen cache
  rw [h.layout info] at hlay
  have hfits := h.fits
  have hend := h.end_lt
  have hfatStart : fs.fatStartSector=start+reserved := congrArg Layout.fatStartSector hlay
  have hsz : fs.bpb.fatSz32=fatSz := congrArg (fun l => l.bpb.fatSz32) hlay
  have htotal : fs.totalClusters=clusters := congrArg Layout.totalClusters hlay
  refine ⟨fs,hfs,hdev,hfatStart,congrArg Layout.dataStartSector hlay,
    congrArg (fun l => l.bpb.secPerClus) hlay,hsz,congrArg (fun l => l.bpb.numFats) hlay,htotal,
    ?_,?_⟩
  · rcases hfree with ⟨hi,rfl⟩|⟨hi,rfl,hinfo⟩
    · exact hu hi
    · exact hk hi hinfo
  · have hmade : FatMade fs.dev fs.fatStartSector fs.bpb.fatSz32 := by
      rw [hdev,hfatStart,hsz]
      exact hfat
    refine hmade.fresh (congrArg Layout.rootDirCluster hlay) ?_ ?_ ?_ ?_
    · rw [htotal]
      exact h.clusters_pos
    · rw [hfatStart,hsz]
      omega
    · rw [hsz]
      exact h.fat_ok.2
    · rw [htotal,hsz]
      exact h.covers

end Mounting

section Formats

theorem fat_covers {size reserved fatSz spc : Nat} (hr : 32 ≤ reserved)
    (hf : fatSz=(((size-32)/spc+2)*4+511)/512) : (size-reserved-2*fatSz)/spc+2≤fatSz*128 := by
  have hle : (size-reserved-2*fatSz)/spc≤(size-32)/spc := Nat.div_le_div_right (by omega)
  omega

theorem format_numbers {blocks : UInt32} (hb : 32≤blocks.toNat) :
    (formatSpc32 blocks 6 1).toNat=formatSpc blocks.toNat 6 1 ∧
      (formatFatSz32 blocks (formatSpc32 blocks 6 1)).toNat=
        (((blocks.toNat-32)/formatSpc blocks.toNat 6 1+2)*4+511)/512 ∧
      formatSpc blocks.toNat 6 1∈clusterSizes ∧
      (blocks.toNat-32)/formatSpc blocks.toNat 6 1≤2^26 := by
  obtain ⟨heq,hmem,hle⟩ := formatSpc_spec hb (show (1:UInt32).toNat=2^0 from rfl)
    (show 0+6=6 from rfl)
  rw [show (1:UInt32).toNat=1 from rfl] at heq hmem hle
  have hlt := blocks.toNat_lt
  have hmost : (blocks.toNat-32)/formatSpc blocks.toNat 6 1≤2^26 := by
    rcases hle with h64|hle
    · rw [show formatSpc blocks.toNat 6 1=64 from h64]
      omega
    · exact hle.trans (by decide)
  rw [← heq] at hmost
  have hsz := formatFatSz_eq hb hmost
  rw [heq] at hmost
  rw [heq] at hsz
  exact ⟨heq,hsz,hmem,hmost⟩

theorem Shape.formatted {dev dev' : BlockDev} {fatSz spc clusters : Nat}
    (h : Shape 0 dev.numBlocks 32 fatSz spc clusters)
    (hst : Stored dev (Function.update (Function.update (fun j => if 32≤j ∧
        j<32+(32+2*fatSz+spc-32) then zeroSector else Function.update dev.blocks 0
        (formatBoot dev.numBlocks spc fatSz) j) 32 fatHead) (32+fatSz) fatHead) dev') :
    Made dev dev' 0 dev.numBlocks 32 fatSz spc clusters freeUnknown := by
  have hfits := h.fits
  obtain ⟨hsz0,hsz⟩ := h.fat_ok
  have hspc : spc%256=spc := by
    have hmem := h.spc_mem
    simp only [clusterSizes,List.mem_cons,List.not_mem_nil,or_false] at hmem
    omega
  have hzero : ∀k,k≠32 → k≠32+fatSz → 32≤k → k<32+2*fatSz → dev'.blocks k=zeroSector := by
    intro k h1 h2 h3 h4
    rw [hst.blocks,update_of_ne h2,update_of_ne h1,if_pos (by omega)]
  have hfirst : dev'.blocks 32=fatHead := by
    rw [hst.blocks,update_of_ne (by omega),update_self]
  have hsecond : dev'.blocks (32+fatSz)=fatHead := by rw [hst.blocks,update_self]
  have hboot : dev'.readBlocks 0=some (formatBoot dev.numBlocks spc fatSz) := by
    rw [BlockDev.readBlocks,hst.size,if_pos (by omega),hst.blocks,
      update_of_ne (by omega),update_of_ne (by omega),if_neg (by omega),
      update_self]
  have hfat : FatMade dev' (0+32) fatSz := by
    rw [Nat.zero_add]
    refine ⟨by rw [hst.size]; omega,hfirst,fun k h1 h2 => ?_,fun k hk => ?_⟩
    · exact hzero k (by omega) (by omega) (by omega) (by omega)
    · by_cases h0 : k=0
      · rw [h0,Nat.add_zero,hfirst]
        exact hsecond
      · rw [hzero (32+fatSz+k) (by omega) (by omega) (by omega) (by omega),
          hzero (32+k) (by omega) (by omega) (by omega) (by omega)]
  refine h.made hst (by omega) hfat hboot (formatBoot_partition _ _ _) (if_neg (by decide)) ?_
    (.inl ⟨rfl,rfl⟩)
  rw [formatBoot_bpb,hspc,Nat.mod_eq_of_lt dev.small,Nat.mod_eq_of_lt (by omega)]
  rfl

theorem fat32Format_made {dev : BlockDev} {spc fatSz : Nat} (hspc : spc=formatSpc dev.numBlocks 6 1)
    (hfat : fatSz=(((dev.numBlocks-32)/spc+2)*4+511)/512) :
    ((fat32Format dev).1=true ↔ 35 < dev.numBlocks ∧ 32+2*fatSz+spc≤dev.numBlocks) ∧
      ((fat32Format dev).1=true → Made dev (fat32Format dev).2 0 dev.numBlocks 32 fatSz spc
        ((dev.numBlocks-32-2*fatSz)/spc) freeUnknown) := by
  have hsmall := dev.small
  have hof : (UInt32.ofNat dev.numBlocks).toNat=dev.numBlocks := UInt32.toNat_ofNat_of_lt' hsmall
  unfold fat32Format
  by_cases hfew : dev.numBlocks≤32+2+1
  · rw [if_pos hfew]
    exact ⟨⟨fun h => (by cases h),fun h => absurd h.1 (by omega)⟩,fun h => (by cases h)⟩
  rw [if_neg hfew]
  dsimp only
  rw [← hspc,← hfat]
  by_cases hfull : 32+2*fatSz+spc > dev.numBlocks
  · rw [if_pos hfull]
    exact ⟨⟨fun h => (by cases h),fun h => absurd h.2 (by omega)⟩,fun h => (by cases h)⟩
  rw [if_neg hfull]
  have h32 : 32≤(UInt32.ofNat dev.numBlocks).toNat := by
    rw [hof]
    omega
  obtain ⟨-,-,hmem,hmost⟩ := format_numbers h32
  rw [hof,← hspc] at hmem hmost
  have hsz : 0 < fatSz ∧ fatSz≤2^20 := by
    rw [hfat]
    generalize (dev.numBlocks-32)/spc=most at hmost ⊢
    omega
  have hshape : Shape 0 dev.numBlocks 32 fatSz spc ((dev.numBlocks-32-2*fatSz)/spc) :=
    ⟨⟨le_refl 32,by decide⟩,hmem,hsz,by omega,by omega,rfl,fat_covers (le_refl 32) hfat⟩
  have hspc0 : 0 < spc := by
    simp only [clusterSizes,List.mem_cons,List.not_mem_nil,or_false] at hmem
    omega
  obtain ⟨hok,hst⟩ := (writes_block (n := dev.numBlocks) (show 0<dev.numBlocks by omega)
    (formatBoot dev.numBlocks spc fatSz)).andThen
      ((writes_zeros (show 32+(32+2*fatSz+spc-32)≤dev.numBlocks by omega)).andThen
        ((writes_block (show 32<dev.numBlocks by omega) fatHead).andThen
          (writes_block (show 32+fatSz<dev.numBlocks by omega) fatHead))) dev rfl
  exact ⟨⟨fun _ => ⟨by omega,by omega⟩,fun _ => hok⟩,fun _ => hshape.formatted hst⟩

theorem mkfsSearch_spec {part : Nat} {m : MkfsShape} (hp : part<2^32)
    (h : mkfsSearch 8192 part 7 64=some m) :
    m.spc∈clusterSizes ∧ m=mkfsShape 8192 part m.spc ∧ mkfsMinClust ≤ m.clusters ∧
      (part-32)/m.spc≤2^26 := by
  obtain ⟨s,hs,rfl,hmin⟩ := mkfsSearch_mem (n := 7) rfl (le_refl 7) h
  refine ⟨hs,rfl,hmin,?_⟩
  by_cases h64 : (mkfsShape 8192 part 64).clusters≥mkfsMinClust
  · rw [mkfsSearch,if_pos h64] at h
    have hspc : 64=s := congrArg MkfsShape.spc (Option.some.inj h)
    subst hspc
    change (part-32)/64≤_
    omega
  · have hsmall := mkfsShape_few hp (by omega)
    exact (Nat.div_le_self _ _).trans (by omega)

theorem mkfsShape_shape {part : Nat} {m : MkfsShape} (h0 : 8192 < part) (hp : 8192+part<2^32)
    (h : mkfsSearch 8192 part 7 64=some m) :
    Shape 8192 part m.reserved m.fatSz m.spc m.clusters ∧
      (8192+m.reserved+2*m.fatSz)%8192=0 ∧ mkfsMinClust ≤ m.clusters := by
  obtain ⟨hs,hm,hmin,hmost⟩ := mkfsSearch_spec (by omega) h
  have hfat : m.fatSz=(((part-32)/m.spc+2)*4+511)/512 := congrArg MkfsShape.fatSz hm
  have hres : m.reserved=32+(8192-(8192+32+2*m.fatSz)%8192)%8192 := by
    rw [hfat]
    exact congrArg MkfsShape.reserved hm
  have hclus : m.clusters=(part-m.reserved-2*m.fatSz)/m.spc := by
    rw [hres,hfat]
    exact congrArg MkfsShape.clusters hm
  have hspc : 0 < m.spc := by
    simp only [clusterSizes,List.mem_cons,List.not_mem_nil,or_false] at hs
    omega
  have hroom : m.spc≤part-m.reserved-2*m.fatSz := by
    by_contra hlt
    rw [Nat.div_eq_of_lt (by omega)] at hclus
    rw [hclus] at hmin
    exact absurd hmin (by decide)
  have hsz : 0 < m.fatSz ∧ m.fatSz≤2^20 := by
    rw [hfat]
    generalize (part-32)/m.spc=most at hmost ⊢
    omega
  refine ⟨⟨by omega,hs,hsz,by omega,hp,hclus,?_⟩,by omega,hmin⟩
  rw [hclus]
  exact fat_covers (by omega) hfat

/-- The sectors fat32_mkfs writes before the zeros, and those it writes after them. -/
def mkfsHead (m : MkfsShape) (p part volId : Nat) (lab : Bytes) : List (Nat×Sector) :=
  [(0,mkfsMbr p part volId),(p,mkfsBoot m p part volId lab),(p+6,mkfsBoot m p part volId lab),
    (p+1,mkfsInfo m.clusters),(p+7,mkfsInfo m.clusters)]

def mkfsTail (m : MkfsShape) (p : Nat) (root : Sector) : List (Nat×Sector) :=
  [(p+m.reserved,fatHead),(p+m.reserved+m.fatSz,fatHead),(p+(m.reserved+2*m.fatSz),root)]

theorem Shape.made_fs {dev dev' : BlockDev} {m : MkfsShape} {p part volId : Nat} {lab : Bytes}
    {root : Sector} (h : Shape p part m.reserved m.fatSz m.spc m.clusters)
    (hp : p=8192) (hroom : p+part≤dev.numBlocks) (hlab : lab.length=11)
    (hst : Stored dev (overwrite (mkfsTail m p root) fun j => if p+8≤j ∧
        j<p+8+(m.reserved+2*m.fatSz+m.spc-8) then zeroSector else
        if p+2≤j ∧ j<p+2+4 then zeroSector else
        overwrite (mkfsHead m p part volId lab) dev.blocks j) dev') :
    Made dev dev' p part m.reserved m.fatSz m.spc m.clusters (m.clusters-1) := by
  have hfits := h.fits
  obtain ⟨hr,hr'⟩ := h.reserved_ok
  obtain ⟨hsz0,hsz⟩ := h.fat_ok
  have hend := h.end_lt
  have hspc : m.spc%256=m.spc := by
    have hmem := h.spc_mem
    simp only [clusterSizes,List.mem_cons,List.not_mem_nil,or_false] at hmem
    omega
  have htail : ∀k,k≠p+m.reserved → k≠p+m.reserved+m.fatSz →
      k≠p+(m.reserved+2*m.fatSz) → dev'.blocks k=(if p+8≤k ∧
        k<p+8+(m.reserved+2*m.fatSz+m.spc-8) then zeroSector else
        if p+2≤k ∧ k<p+2+4 then zeroSector else
        overwrite (mkfsHead m p part volId lab) dev.blocks k) := by
    intro k h1 h2 h3
    simp only [hst.blocks,overwrite,mkfsTail,List.foldl_cons,List.foldl_nil,
      update_of_ne h3,update_of_ne h2,update_of_ne h1]
  have hfirst : dev'.blocks (p+m.reserved)=fatHead := by
    simp only [hst.blocks,overwrite,mkfsTail,List.foldl_cons,List.foldl_nil]
    rw [update_of_ne (by omega),update_of_ne (by omega),update_self]
  have hsecond : dev'.blocks (p+m.reserved+m.fatSz)=fatHead := by
    simp only [hst.blocks,overwrite,mkfsTail,List.foldl_cons,List.foldl_nil]
    rw [update_of_ne (by omega),update_self]
  have hzero : ∀k,k≠p+m.reserved → k≠p+m.reserved+m.fatSz → p+m.reserved≤k →
      k<p+m.reserved+2*m.fatSz → dev'.blocks k=zeroSector := by
    intro k h1 h2 h3 h4
    rw [htail k h1 h2 (by omega),if_pos (by omega)]
  have hread : ∀k,k≤p+1 → dev'.readBlocks k=
      some (overwrite (mkfsHead m p part volId lab) dev.blocks k) := by
    intro k hk
    rw [BlockDev.readBlocks,hst.size,if_pos (by omega),
      htail k (by omega) (by omega) (by omega),if_neg (by omega),if_neg (by omega)]
  have hhead : overwrite (mkfsHead m p part volId lab) dev.blocks 0=mkfsMbr p part volId ∧
      overwrite (mkfsHead m p part volId lab) dev.blocks p=
        mkfsBoot m p part volId lab ∧
      overwrite (mkfsHead m p part volId lab) dev.blocks (p+1)=mkfsInfo m.clusters := by
    simp only [overwrite,mkfsHead,List.foldl_cons,List.foldl_nil,hp]
    simp [Function.update]
  have hfat : FatMade dev' (p+m.reserved) m.fatSz := by
    refine ⟨by rw [hst.size]; omega,hfirst,fun k h1 h2 => ?_,fun k hk => ?_⟩
    · exact hzero k (by omega) (by omega) (by omega) (by omega)
    · by_cases h0 : k=0
      · rw [h0,Nat.add_zero,Nat.add_zero,hfirst]
        exact hsecond
      · rw [hzero (p+m.reserved+m.fatSz+k) (by omega) (by omega) (by omega) (by omega),
          hzero (p+m.reserved+k) (by omega) (by omega) (by omega) (by omega)]
  have hboot : (if p > 0 then dev'.readBlocks p else some (mkfsMbr p part volId))=
      some (mkfsBoot m p part volId lab) := by
    rw [if_pos (by omega),hread p (by omega),hhead.2.1]
  refine h.made hst hroom hfat ((hread 0 (by omega)).trans (congrArg some hhead.1))
    (mkfsMbr_partition part volId (by omega) (by omega)) hboot ?_ (.inr ⟨rfl,rfl,?_⟩)
  · rw [mkfsBoot_bpb m p part volId hlab,hspc,Nat.mod_eq_of_lt hr',
      Nat.mod_eq_of_lt (show part<2^32 by omega),Nat.mod_eq_of_lt (show m.fatSz<2^32 by omega)]
    rfl
  · rw [hread (p+1) (by omega),hhead.2.2]

theorem fat32Mkfs_made (dev : BlockDev) (label : Bytes) (volId : Nat) :
    ((fat32Mkfs dev label volId).1=true ↔
      16384 < dev.numBlocks ∧ (mkfsSearch 8192 (dev.numBlocks-8192) 7 64).isSome=true) ∧
      ((fat32Mkfs dev label volId).1=true → ∃m,
        mkfsSearch 8192 (dev.numBlocks-8192) 7 64=some m ∧
        Made dev (fat32Mkfs dev label volId).2 8192 (dev.numBlocks-8192) m.reserved m.fatSz m.spc
          m.clusters (m.clusters-1) ∧
        (8192+m.reserved+2*m.fatSz)%8192=0 ∧ mkfsMinClust ≤ m.clusters) := by
  have hsmall := dev.small
  have hp : mkfsAlign=8192 := rfl
  by_cases hfew : dev.numBlocks ≤ mkfsAlign*2
  · rw [fat32Mkfs,if_pos hfew]
    exact ⟨⟨fun h => (by cases h),fun h => absurd h.1 (by omega)⟩,fun h => (by cases h)⟩
  cases hm : mkfsSearch mkfsAlign (dev.numBlocks-mkfsAlign) 7 64 with
  | none =>
    simp only [fat32Mkfs,if_neg hfew,hm]
    rw [hp] at hm
    rw [hm]
    exact ⟨⟨fun h => (by cases h),fun h => (by cases h.2)⟩,fun h => (by cases h)⟩
  | some m =>
    simp only [fat32Mkfs,if_neg hfew,hm]
    rw [hp] at hm
    obtain ⟨hshape,halign,hmin⟩ := mkfsShape_shape (by omega) (by omega) hm
    have hfits := hshape.fits
    have hr := hshape.reserved_ok
    have hspc : 0 < m.spc := by
      have hs := hshape.spc_mem
      simp only [clusterSizes,List.mem_cons,List.not_mem_nil,or_false] at hs
      omega
    obtain ⟨hok,hst⟩ := (writes_all (n := dev.numBlocks) (l := mkfsHead m mkfsAlign
        (dev.numBlocks-mkfsAlign) volId (mkfsLabel label)) (by simp [mkfsHead,hp]; omega)).andThen
      ((writes_zeros (show mkfsAlign+2+4≤dev.numBlocks by omega)).andThen
        ((writes_zeros (show mkfsAlign+8+(m.reserved+2*m.fatSz+m.spc-8)≤dev.numBlocks by
          omega)).andThen
          (writes_all (l := mkfsTail m mkfsAlign (putAttr (putName zeroSector 0
            (mkfsLabel label)) 0 attrVolumeId)) (by simp [mkfsTail,hp]; omega)))) dev rfl
    have hmade := hshape.made_fs hp (by omega) (mkfsLabel_length label) hst
    exact ⟨⟨fun _ => ⟨by omega,by rw [hm]; rfl⟩,fun _ => hok⟩,
      fun _ => ⟨m,hm,hmade,halign,hmin⟩⟩

/-- The sizes the two formats accept, in the source's 32 bits. -/
def formatFits32 (blocks : UInt32) : Prop :=
  35 < blocks ∧ 32+2*formatFatSz32 blocks (formatSpc32 blocks 6 1)+formatSpc32 blocks 6 1≤blocks

def mkfsFits32 (blocks : UInt32) : Prop :=
  16384 < blocks ∧ (mkfsSearch32 (blocks-8192) 7 64).isSome=true

theorem formatFits_iff {blocks : UInt32} {spc fatSz : Nat} (hspc : spc=formatSpc blocks.toNat 6 1)
    (hfat : fatSz=(((blocks.toNat-32)/spc+2)*4+511)/512) :
    formatFits32 blocks ↔ 35 < blocks.toNat ∧ 32+2*fatSz+spc≤blocks.toNat := by
  rw [formatFits32,UInt32.lt_iff_toNat_lt]
  change (35 < blocks.toNat ∧ _) ↔ _
  refine and_congr_right fun h35 => ?_
  obtain ⟨hs,hf,hmem,hmost⟩ := format_numbers (show 32≤blocks.toNat by omega)
  rw [← hspc] at hs hf hmem hmost
  rw [← hfat] at hf
  have hsz : fatSz≤2^20 := by
    rw [hfat]
    generalize (blocks.toNat-32)/spc=most at hmost ⊢
    omega
  simp only [clusterSizes,List.mem_cons,List.not_mem_nil,or_false] at hmem
  rw [UInt32.le_iff_toNat_le,UInt32.toNat_add,UInt32.toNat_add,UInt32.toNat_mul,hf,hs]
  change ((32+2*fatSz%2^32)%2^32+spc)%2^32≤_ ↔ _
  omega

theorem mkfsSearch32_eq {n : Nat} (hn : 16384 < n) (hs : n<2^32) :
    mkfsSearch32 (UInt32.ofNat n-8192) 7 64=mkfsSearch 8192 (n-8192) 7 64 := by
  have hof : (UInt32.ofNat n).toNat=n := UInt32.toNat_ofNat_of_lt' hs
  have hsub : (UInt32.ofNat n-8192).toNat=n-8192 := by
    rw [UInt32.toNat_sub_of_le,hof]
    · rfl
    · rw [UInt32.le_iff_toNat_le,hof]
      change 8192≤n
      omega
  rw [mkfsSearch_eq (n := 7) (by rw [hsub]; omega) rfl (le_refl 7) (.inl rfl),hsub]
  rfl

/-- The geometry of both formats: each accepts the sizes the 32-bit arithmetic accepts, and what
it leaves is a whole volume that mounts with nothing but its root in use. -/
theorem formats_made (dev : BlockDev) (label : Bytes) (volId : Nat) :
    ((fat32Format dev).1=true ↔ formatFits32 (UInt32.ofNat dev.numBlocks)) ∧
    ((fat32Mkfs dev label volId).1=true ↔ mkfsFits32 (UInt32.ofNat dev.numBlocks)) ∧
    ((fat32Format dev).1=true → ∃spc fatSz,
      spc=formatSpc32 (UInt32.ofNat dev.numBlocks) 6 1 ∧
      fatSz=formatFatSz32 (UInt32.ofNat dev.numBlocks) spc ∧
      Made dev (fat32Format dev).2 0 dev.numBlocks 32 fatSz.toNat spc.toNat
        ((dev.numBlocks-32-2*fatSz.toNat)/spc.toNat) freeUnknown) ∧
    ((fat32Mkfs dev label volId).1=true → ∃m,
      mkfsSearch32 (UInt32.ofNat dev.numBlocks-8192) 7 64=some m ∧
      Made dev (fat32Mkfs dev label volId).2 8192 (dev.numBlocks-8192) m.reserved m.fatSz m.spc
        m.clusters (m.clusters-1) ∧
      (8192+m.reserved+2*m.fatSz)%8192=0 ∧ 65525 ≤ m.clusters) := by
  have hof : (UInt32.ofNat dev.numBlocks).toNat=dev.numBlocks :=
    UInt32.toNat_ofNat_of_lt' dev.small
  obtain ⟨hfmt,hmade⟩ := @fat32Format_made dev _ _ rfl rfl
  obtain ⟨hmk,hmade'⟩ := fat32Mkfs_made dev label volId
  have hfits := @formatFits_iff (UInt32.ofNat dev.numBlocks) _ _ rfl rfl
  rw [hof] at hfits
  refine ⟨hfmt.trans hfits.symm,hmk.trans ?_,fun h => ?_,fun h => ?_⟩
  · rw [mkfsFits32,UInt32.lt_iff_toNat_lt,hof]
    refine and_congr_right fun hn => ?_
    rw [mkfsSearch32_eq hn dev.small]
  · have h35 := (hfmt.mp h).1
    have h32 : 32≤(UInt32.ofNat dev.numBlocks).toNat := by
      rw [hof]
      omega
    obtain ⟨hs,hf,-,-⟩ := format_numbers h32
    rw [hof] at hs hf
    refine ⟨_,_,rfl,rfl,?_⟩
    rw [hs,hf]
    exact hmade h
  · obtain ⟨m,hm,hrest⟩ := hmade' h
    exact ⟨m,(mkfsSearch32_eq (hmk.mp h).1 dev.small).trans hm,hrest⟩

/-- 64 blocks formatted, and 100000 partitioned. -/
theorem formats_made_blank :
    ((fat32Format (blankDev 64 (by decide))).1=true ∧ ∃spc fatSz clusters,
      Made (blankDev 64 (by decide)) (fat32Format (blankDev 64 (by decide))).2 0 64 32 fatSz spc
        clusters freeUnknown) ∧
    (fat32Mkfs (blankDev 100000 (by decide)) [] 0).1=true ∧ ∃m : MkfsShape,
      Made (blankDev 100000 (by decide)) (fat32Mkfs (blankDev 100000 (by decide)) [] 0).2 8192
        91808 m.reserved m.fatSz m.spc m.clusters (m.clusters-1) := by
  obtain ⟨hfit,-,hmade,-⟩ := formats_made (blankDev 64 (by decide)) [] 0
  obtain ⟨-,hfit',-,hmade'⟩ := formats_made (blankDev 100000 (by decide)) [] 0
  have h := hfit.mpr ⟨by decide,by decide⟩
  have h' := hfit'.mpr ⟨by decide,by decide⟩
  obtain ⟨spc,fatSz,-,-,hm⟩ := hmade h
  obtain ⟨m,-,hm',-⟩ := hmade' h'
  exact ⟨⟨h,spc.toNat,fatSz.toNat,_,hm⟩,h',m,hm'⟩

end Formats

end LugalOS.Fat32
