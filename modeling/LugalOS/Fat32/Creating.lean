import LugalOS.Fat32.Paths

namespace LugalOS.Fat32

open Linked CString LittleEndian

section record

theorem entryAt_putName (s : Sector) (i : Nat) {name : Bytes} (h : name.length=11) :
    entryAt (putName s i name) i={ entryAt s i with name := name } := by
  have hn : (List.range 11).map (fun k => putName s i name (32*i+k))=name := by
    refine List.ext_getElem (by simp [h]) fun k hk hk' => ?_
    rw [List.getElem_map,List.getElem_range,putName,patch_inside _ _ _ _ (by omega) (by omega),
      Nat.add_sub_cancel_left]
    exact (List.getElem_eq_getD 0).symm
  have hrest : ∀k,32*i+11≤k → putName s i name k=s k := fun k hk =>
    patch_outside s (32*i) name k (by omega)
  have hle : ∀o n,32*i+11≤o → leAt (putName s i name) o n=leAt s o n := fun o n ho =>
    leAt_congr _ _ o n fun k hk _ => hrest k (by omega)
  simp only [entryAt,hn,hrest _ (Nat.le_refl _),hle _ _ (show 32*i+11≤32*i+20 by omega),
    hle _ _ (show 32*i+11≤32*i+26 by omega),hle _ _ (show 32*i+11≤32*i+28 by omega)]

theorem entryAt_putAttr (s : Sector) (i : Nat) (attr : UInt8) :
    entryAt (putAttr s i attr) i={ entryAt s i with attr := attr } := by
  have hout : ∀k,k≠32*i+11 → putAttr s i attr k=s k := fun k hk =>
    patch_outside s (32*i+11) [attr] k (by rw [List.length_singleton]; omega)
  have hself : putAttr s i attr (32*i+11)=attr := by
    rw [putAttr,patch_inside _ _ _ _ (Nat.le_refl _) (by rw [List.length_singleton]; omega),
      Nat.sub_self]
    rfl
  have hn : (List.range 11).map (fun k => putAttr s i attr (32*i+k))=
      (List.range 11).map fun k => s (32*i+k) :=
    List.map_congr_left fun k hk => hout _ (by have := List.mem_range.mp hk; omega)
  have hle : ∀o n,32*i+12≤o → leAt (putAttr s i attr) o n=leAt s o n := fun o n ho =>
    leAt_congr _ _ o n fun k hk _ => hout k (by omega)
  simp only [entryAt,hn,hself,hle _ _ (show 32*i+12≤32*i+20 by omega),
    hle _ _ (show 32*i+12≤32*i+26 by omega),hle _ _ (show 32*i+12≤32*i+28 by omega)]

theorem entryAt_putLe_name (s : Sector) (i o n v : Nat) (ho : 32*i+12≤o) :
    (entryAt (putLe s o n v) i).name=(entryAt s i).name ∧
      (entryAt (putLe s o n v) i).attr=(entryAt s i).attr := by
  have hn : (List.range 11).map (fun k => putLe s o n v (32*i+k))=
      (List.range 11).map fun k => s (32*i+k) :=
    List.map_congr_left fun k hk => putLe_outside _ _ _ _ _ (by
      have hk' := List.mem_range.mp hk
      omega)
  exact ⟨hn,putLe_outside _ _ _ _ _ (by omega)⟩

theorem entryAt_putClus (s : Sector) (i clus : Nat) :
    entryAt (putClus s i clus) i={ entryAt s i with fstClus := clus%2^32 } := by
  obtain ⟨hn,ha⟩ := entryAt_putLe_name s i (32*i+20) 2 (clus/2^16) (by omega)
  obtain ⟨hn',ha'⟩ := entryAt_putLe_name (putLe s (32*i+20) 2 (clus/2^16)) i (32*i+26) 2 clus
    (by omega)
  have hsize : (entryAt (putClus s i clus) i).fileSize=(entryAt s i).fileSize := by
    simp only [entryAt,putClus]
    rw [leAt_putLe_outside _ _ _ _ _ _ (by omega),leAt_putLe_outside _ _ _ _ _ _ (by omega)]
  have hclus : (entryAt (putClus s i clus) i).fstClus=clus%2^32 := by
    simp only [entryAt,putClus]
    rw [leAt_putLe_outside _ _ _ _ _ _ (by omega),leAt_putLe,leAt_putLe]
    omega
  rw [putClus] at hsize hclus ⊢
  generalize entryAt (putLe (putLe s (32*i+20) 2 (clus/2^16)) (32*i+26) 2 clus) i=e at *
  cases e
  simp only at hn' ha' hsize hclus
  simp only [hn',ha',hsize,hclus,hn,ha]

theorem entryAt_putSize (s : Sector) (i size : Nat) :
    entryAt (putSize s i size) i={ entryAt s i with fileSize := size%2^32 } := by
  obtain ⟨hn,ha⟩ := entryAt_putLe_name s i (32*i+28) 4 size (by omega)
  have hsize : (entryAt (putSize s i size) i).fileSize=size%2^32 := leAt_putLe _ _ _ _
  have hclus : (entryAt (putSize s i size) i).fstClus=(entryAt s i).fstClus := by
    simp only [entryAt,putSize]
    rw [leAt_putLe_outside _ _ _ _ _ _ (by omega),leAt_putLe_outside _ _ _ _ _ _ (by omega)]
  rw [putSize] at hsize hclus ⊢
  generalize entryAt (putLe s (32*i+28) 4 size) i=e at *
  cases e
  simp only at hn ha hsize hclus
  simp only [hn,ha,hsize,hclus]

theorem entryAt_record (s : Sector) (i : Nat) {name83 : Bytes} (hn : name83.length=11)
    (attr : UInt8) (first size : Nat) :
    entryAt (putSize (putClus (putAttr (putName s i name83) i attr) i first) i size) i=
      ⟨name83,attr,first%2^32,size%2^32⟩ := by
  rw [entryAt_putSize,entryAt_putClus,entryAt_putAttr,entryAt_putName s i hn]

theorem directory_attr (name83 : Bytes) (first size : Nat) :
    (⟨name83,attrDirectory,first,size⟩ : DirEntry).isDirectory=true :=
  show (attrDirectory &&& attrDirectory != 0)=true by decide

end record

section make

variable {fs g : Fat32Fs} {V : Nat → Prop}

/-- fat32_mkdir once it has its slot. -/
def makeInto (fs : Fat32Fs) (parent : Nat) (name83 : Bytes) (ctx : WriteSlot) : Bool×Fat32Fs :=
  let a := fatAllocCluster fs
  let clus := a.1
  if clus=0 then (false,a.2)
  else
    let upClus := if parent=a.2.rootDirCluster then 0 else parent
    let base := a.2.clusterToLba clus
    let w := a.2.write .data base (dotEntries clus upClus)
    if !w.1 then (false,fat32FreeChain w.2 clus)
    else
      let z := zeroRest base (w.2.bpb.secPerClus-1) 1 w.2
      if !z.1 then (false,fat32FreeChain z.2 clus)
      else
        let r := rewriteSlot z.2 ctx.lba fun sec =>
          let sec := putAttr (putName sec ctx.freeSlot name83) ctx.freeSlot attrDirectory
          putSize (putClus sec ctx.freeSlot clus) ctx.freeSlot 0
        if !r.1 then (false,fat32FreeChain r.2 clus) else (true,r.2)

/-- The scan of fat32_mkdir. -/
def makeScan (fs : Fat32Fs) (path : Bytes) : WriteSlot×Fat32Fs :=
  let p := fat32GetParentCluster fs path
  fat32ScanDir (fat32FindFile p.2 path).2 p.1.1 (writeSlotCb (filenameTo83 p.1.2)) WriteSlot.none

theorem fat32Mkdir_eq (fs : Fat32Fs) (path : Bytes) : fat32Mkdir fs path=
    if (fat32GetParentCluster fs path).1.1=0 ∨ (fat32GetParentCluster fs path).1.2=[] then
      (false,(fat32GetParentCluster fs path).2)
    else if (fat32FindFile (fat32GetParentCluster fs path).2 path).1.isSome then
      (false,(fat32FindFile (fat32GetParentCluster fs path).2 path).2)
    else match dirClaimSlot (makeScan fs path).2 (fat32GetParentCluster fs path).1.1
        (makeScan fs path).1 with
      | (none,fs1) => (false,fs1)
      | (some ctx,fs1) => makeInto fs1 (fat32GetParentCluster fs path).1.1
          (filenameTo83 (fat32GetParentCluster fs path).1.2) ctx := rfl

theorem makeScan_spec (m : Mounted fs) (path : Bytes) : Keeps fs (makeScan fs path).2 ∧
    (makeScan fs path).1=(lookSlots
      (writeSlotStep (filenameTo83 (fat32GetParentCluster fs path).1.2))
      (dirSlots fs (fat32GetParentCluster fs path).1.1) WriteSlot.none).2 := by
  have hp := getParent_keeps fs m path
  have hf := hp.trans (findFile_keeps _ (hp.mounted m) path)
  refine ⟨hf.trans (scan_look_keeps _ (hf.mounted m) (writeSlotStep _) _ _),?_⟩
  rw [← dirSlots_keeps m hf]
  exact scan_look (writeSlotStep _) _ (hf.mounted m) _ _

theorem zeroRest_stores (n : Nat) (m : Mounted fs) {c s : Nat} (hc : fs.HasCluster c)
    (hn : n+s≤fs.bpb.secPerClus) :
    Stores (fs.FromSector c 0) fs (zeroRest (fs.clusterToLba c) n s fs).2 := by
  induction n generalizing fs s with
  | zero => exact (Keeps.refl fs).stores.mono (fun _ => False.elim) fun lba h => h.inData hc
  | succ n ih =>
    have hs : s<fs.bpb.secPerClus := by omega
    rw [zeroRest]
    rw [m.sound.sectorLba c s hc hs]
    have hw := write_stores fs m (fs.dataLba c s) zeroSector (Layout.dataLba_inData c s hc hs)
    have hone : ∀lba,lba=fs.dataLba c s → fs.FromSector c 0 lba := fun lba h =>
      ⟨s,Nat.zero_le s,hs,h⟩
    split
    · have hrest : n+(s+1)≤(fs.write .data (fs.dataLba c s) zeroSector).2.bpb.secPerClus := by
        change n+(s+1)≤fs.bpb.secPerClus
        omega
      have hi := ih (m.grows hw.toGrows) hc hrest
      exact (hw.trans hi).mono (fun lba h => h.elim (hone lba) id) fun lba h => h.inData hc
    · exact hw.mono hone fun lba h => h.inData hc

theorem makeInto_written {d : Nat} {name83 : Bytes} {ctx : WriteSlot}
    (r : Ready fs g V d name83 ctx) (hd : V d) (hn : name83.length=11) (parent : Nat)
    (h : (makeInto g parent name83 ctx).1=true) :
    ∃first,Written fs (makeInto g parent name83 ctx).2 V d name83
      ⟨name83,attrDirectory,first,0⟩ := by
  have m := r.homes.mounted
  unfold makeInto at h ⊢
  dsimp only at h ⊢
  rcases fatAllocCluster_spec g m with ⟨h0,-⟩ | ha
  · rw [if_pos h0] at h
    cases h
  rw [if_neg ha.pos] at h ⊢
  generalize (fatAllocCluster g).1=a at ha h ⊢
  generalize (fatAllocCluster g).2=g1 at ha h ⊢
  generalize dotEntries a (if parent=g1.rootDirCluster then 0 else parent)=sec0 at h ⊢
  have hka : ¬dirClusters g V a := fun hka => r.homes.inUse a ha.cluster hka ha.free
  have sp1 : Spares (dirClusters g V) g g1 :=
    (ha.spares r.homes.narrow).mono fun c hc he => hka (he ▸ hc)
  have m1 := m.grows ha.toGrows
  have hac : g1.HasCluster a := by
    rw [ha.layout]
    exact ha.cluster
  have h0 : g1.clusterToLba a=g1.dataLba a 0 := m1.sound.clusterToLba a hac
  have hin := Layout.dataLba_inData a 0 hac m1.sound.spcPos
  have hw := write_stores g1 m1 (g1.clusterToLba a) sec0 (by rw [h0]; exact hin)
  generalize g1.write .data (g1.clusterToLba a) sec0=w at h hw ⊢
  have sp2 : Spares (dirClusters g V) g1 w.2 :=
    stores_spares hw m1 hac (fun lba h => ⟨0,m1.sound.spcPos,Eq.trans h h0⟩) hka
  have m2 := m1.grows hw.toGrows
  have hac2 : w.2.HasCluster a := by
    rw [hw.layout]
    exact hac
  split at h
  next => cases h
  next hok =>
    rw [if_neg hok]
    have hpos := m2.sound.spcPos
    have hz := zeroRest_stores (w.2.bpb.secPerClus-1) m2 (c := a) (s := 1) hac2 (by omega)
    have sp3 := stores_spares (K := dirClusters g V) hz m2 hac2 (fun lba h => by
      obtain ⟨j,-,hj,he⟩ := h
      exact ⟨j,hj,he⟩) hka
    rw [show w.2.clusterToLba a=g1.clusterToLba a by rw [hw.layout]] at sp3
    generalize zeroRest (g1.clusterToLba a) (w.2.bpb.secPerClus-1) 1 w.2=z at h sp3 ⊢
    have sp : Spares (dirClusters g V) g z.2 := (sp1.trans sp2).trans sp3
    split at h
    next => cases h
    next hok2 =>
      rw [if_neg hok2]
      obtain ⟨s,hs⟩ := r.sector hd sp
      rw [rewriteSlot,hs] at h ⊢
      dsimp only at h ⊢
      split at h
      next => cases h
      next hok3 =>
        rw [if_neg hok3]
        have hwr := r.written hd sp hs (sameBut_record s ctx.freeSlot hn attrDirectory a 0)
        rw [entryAt_record s ctx.freeSlot hn,Nat.zero_mod] at hwr
        exact ⟨_,hwr⟩

theorem writeInto_written {d : Nat} {name83 : Bytes} {ctx : WriteSlot}
    (r : Ready fs g V d name83 ctx) (hd : V d) (hn : name83.length=11) {buf : Bytes}
    (hold : ctx.nameMatched=true → ctx.existing.fstClus≠0 → Proper g ctx.existing.fstClus ∧
      ∀x∈chainOf g ctx.existing.fstClus,¬dirClusters g V x)
    (h : (writeInto g name83 buf ctx).1=true) :
    ∃first,Written fs (writeInto g name83 buf ctx).2 V d name83
      ⟨name83,attrArchive,first,buf.length%2^32⟩ := by
  have m := r.homes.mounted
  have sp1 : Spares (dirClusters g V) g (if ctx.nameMatched ∧ ctx.existing.fstClus≠0 then
      fat32FreeChain g ctx.existing.fstClus else g) := by
    split
    next hm =>
      obtain ⟨hp,hno⟩ := hold hm.1 hm.2
      exact fat32FreeChain_spares m r.homes.narrow hp hno
    next => exact Spares.refl _ g
  unfold writeInto at h ⊢
  dsimp only at h ⊢
  generalize (if ctx.nameMatched ∧ ctx.existing.fstClus≠0 then
    fat32FreeChain g ctx.existing.fstClus else g)=g1 at h sp1 ⊢
  have hn1 : g1.Narrow := by
    rw [sp1.layout]
    exact r.homes.narrow
  have sp2 := @placeClusters_spares _ g1 buf ((buf.length+g1.bpc-1)%2^32/g1.bpc) 0 0 0 false
    (m.grows sp1.toGrows) hn1 (sp1.inUse r.homes.inUse) (.inl rfl)
  rcases hr : placeClusters buf ((buf.length+g1.bpc-1)%2^32/g1.bpc) 0 0 0 false g1 with
    ⟨⟨o,first⟩,g2⟩
  rw [hr] at h sp2
  cases o with
  | none => cases h
  | some p =>
    have sp : Spares (dirClusters g V) g g2 := sp1.trans sp2
    obtain ⟨s,hs⟩ := r.sector hd sp
    dsimp only at h ⊢
    rw [hs] at h ⊢
    have hwr := r.written hd sp hs
      (sameBut_record s ctx.freeSlot hn attrArchive p.1 buf.length)
    rw [entryAt_record s ctx.freeSlot hn] at hwr
    exact ⟨_,hwr⟩

end make

section names

theorem filenameTo83_noNul {src : Bytes} (h : 0∉src) : ∀c∈filenameTo83 src,c≠0 := by
  have hpad : ∀n t,t⊆src → ∀c∈pad83 n t,c≠0 := by
    intro n t ht c hc
    rcases List.mem_append.mp hc with hc | hc
    · obtain ⟨x,hx,rfl⟩ := List.mem_map.mp hc
      have h0 : x≠0 := fun h0 => h (h0 ▸ ht (List.take_subset n t hx))
      by_cases hs : x=space
      · rw [hs]
        decide
      · exact (toUpper_ne hs h0).2
    · rw [List.eq_of_mem_replicate hc]
      decide
  intro c hc
  have hs : src.takeWhile (· != slash)⊆src := List.takeWhile_subset _
  unfold filenameTo83 at hc
  dsimp only at hc
  split at hc
  all_goals rcases List.mem_append.mp hc with hc | hc
  · exact hpad 8 _ (fun x hx => hs (List.take_subset _ _ hx)) c hc
  · exact hpad 3 _ (fun x hx => hs (List.drop_subset _ _ hx)) c hc
  · exact hpad 8 _ hs c hc
  · exact hpad 3 [] (List.nil_subset _) c hc

theorem parentOf_name (fs : Fat32Fs) (cur : Nat) (comps : List Bytes) :
    ∀x∈(parentOf fs cur comps).2,∃c∈comps,x∈c := by
  induction comps generalizing cur with
  | nil => exact fun x hx => by cases hx
  | cons curr comps ih =>
    cases comps with
    | nil => exact fun x hx => ⟨curr,List.mem_cons_self,List.take_subset _ _ hx⟩
    | cons c rest =>
      intro x hx
      unfold parentOf at hx
      dsimp only at hx
      split at hx
      · split at hx
        · cases hx
        · obtain ⟨y,hy,hxy⟩ := ih _ x hx
          exact ⟨y,List.mem_cons_of_mem curr hy,hxy⟩
      · obtain ⟨y,hy,hxy⟩ := ih _ x hx
        exact ⟨y,List.mem_cons_of_mem curr hy,hxy⟩

theorem getParent_noNul {fs : Fat32Fs} (m : Mounted fs) {path : Bytes} (h : 0∉path) :
    0∉(fat32GetParentCluster fs path).1.2 := by
  rw [getParent_eq m,pathComponents]
  split
  next heq =>
    rintro hx
    cases hx
  next comps heq =>
    intro hx
    split at heq
    next => cases heq
    next =>
      obtain ⟨c,hc,hxc⟩ := parentOf_name fs _ comps 0 hx
      rw [← Option.some.inj heq] at hc
      have h1 := splitOn_subset slash _ c hc hxc
      rw [trimSlashes,List.mem_reverse] at h1
      have h2 := List.mem_reverse.mp (List.dropWhile_subset _ h1)
      exact h (List.dropWhile_subset _ h2)

end names

section found

variable {fs g : Fat32Fs}

/-- A sound volume on a readable device: no damage, cluster numbers that fit an entry, and "."
and ".." that lead to directories of the volume. -/
structure Orderly (fs : Fat32Fs) : Prop where
  mounted : Mounted fs
  readable : Readable fs
  narrow : fs.Narrow
  consistent : Consistent fs isLive (clustersFor fs)
  dots : ∀d,Reaches fs isLive d → ∀t∈liveSlots fs d,isDotName t.entry.name=true →
    t.entry.isDirectory=true → t.entry.fstClus≠0 → Reaches fs isLive t.entry.fstClus

theorem Orderly.homes (v : Orderly fs) : Homes fs (Reaches fs isLive) :=
  ⟨v.mounted,v.readable,v.narrow,fun _ hD => v.consistent.proper hD,
    fun _ _ hD hD' hne => v.consistent.dirs_apart hD hD' hne⟩

theorem Orderly.closed (v : Orderly fs) : Closed fs (Reaches fs isLive) := by
  refine ⟨.root,fun D hD t ht hdir => ?_⟩
  rw [DirEntry.dirCluster]
  split
  next h0 =>
    cases hdot : isDotName t.entry.name with
    | true => exact v.dots D hD t ht hdot hdir h0
    | false =>
      obtain ⟨hin,hl⟩ := List.mem_filter.mp ht
      refine .sub hD (List.mem_filter.mpr ⟨hin,?_⟩) hdir h0
      rw [isLive,hl,hdot]
      rfl
  next => exact .root

theorem Orderly.file_apart (v : Orderly fs) {d : Nat} (hd : Reaches fs isLive d) {t : Slot}
    (ht : t∈entriesOf fs isLive d) (hfile : t.entry.isDirectory=false)
    (h0 : t.entry.fstClus≠0) : Proper fs t.entry.fstClus ∧
      ∀x∈chainOf fs t.entry.fstClus,¬dirClusters fs (Reaches fs isLive) x := by
  have hent : HasEntry fs isLive t := ⟨d,hd,ht⟩
  have hclaim : claimed fs t.entry=chainOf fs t.entry.fstClus := by rw [claimed,if_neg h0]
  refine ⟨v.consistent.chains t hent h0,?_⟩
  rintro x hx ⟨D,hD,hxD⟩
  rw [← hclaim] at hx
  cases hD with
  | root => exact v.consistent.apartRoot t hent hxD hx
  | @sub e u he hu hdir hu0 =>
    have hne : t≠u := fun htu => by
      rw [htu,hdir] at hfile
      cases hfile
    refine v.consistent.apart t u hent ⟨e,he,hu⟩ hne hx ?_
    rwa [claimed,if_neg hu0]

/-- fat32_write_file or fat32_mkdir with its arguments: a C string and a uint32_t size. -/
inductive Creation
  | file (path buf : Bytes) (hpath : 0∉path) (hsize : buf.length<2^32)
  | dir (path : Bytes) (hpath : 0∉path)

namespace Creation

def path : Creation → Bytes
  | file path _ _ _ => path
  | dir path _ => path

def size : Creation → Nat
  | file _ buf _ _ => buf.length
  | dir _ _ => 0

def run (fs : Fat32Fs) : Creation → Bool×Fat32Fs
  | file path buf _ _ => fat32WriteFile fs path buf
  | dir path _ => fat32Mkdir fs path

def parent (fs : Fat32Fs) (c : Creation) : Nat := (fat32GetParentCluster fs c.path).1.1

def name83 (fs : Fat32Fs) (c : Creation) : Bytes :=
  filenameTo83 (fat32GetParentCluster fs c.path).1.2

/-- The directory lies below sector 2^31, and fat32_write_file meets no entry of the name but a
file's. -/
def Fair (fs : Fat32Fs) (c : Creation) : Prop :=
  (∀t∈dirSlots fs (c.parent fs),t.lba<2^31) ∧
  ∀path buf hp hs,c=file path buf hp hs → ∀t,addressed fs path=some t →
    isLive t.entry=true ∧ t.entry.isDirectory=false

theorem noNul (c : Creation) : 0∉c.path := by
  cases c with
  | file path buf hp hs | dir path hp => exact hp

end Creation

/-- What a creation that succeeds leaves. -/
structure Created (fs g : Fat32Fs) (c : Creation) (R : DirEntry) : Prop where
  parent : Reaches fs isLive (c.parent fs) ∧ c.parent fs≠0
  named : (fat32GetParentCluster fs c.path).1.2≠[]
  written : Written fs g (Reaches fs isLive) (c.parent fs) (c.name83 fs) R
  name : R.name=c.name83 fs
  plain : PlainAttr R
  size : R.fileSize=c.size
  noDir : ∀t,nameIn fs (c.parent fs) (c.name83 fs)=some t → t.entry.isDirectory=false
  dirPath : c.path.getLast?=some slash → R.isDirectory=true

theorem foundSlot_keeps (m : Mounted fs) {s : Fat32Fs} (hk : Keeps fs s) (path : Bytes) :
    foundSlot s path=foundSlot fs path := by
  have hp : (fat32GetParentCluster s path).1=(fat32GetParentCluster fs path).1 := by
    rw [getParent_eq m,fat32GetParentCluster]
    cases pathComponents path with
    | none => rfl
    | some comps =>
      dsimp only
      rw [parentLoop_eq m hk,hk.layout]
  rw [foundSlot,foundSlot,hp]
  rw [liveSlots,liveSlots,dirSlots_keeps m hk]

theorem created_dir (v : Orderly fs) {path : Bytes} {hp0 : 0∉path}
    (hf : (Creation.dir path hp0).Fair fs) (h : (Creation.dir path hp0).run fs=(true,g)) :
    ∃R,Created fs g (.dir path hp0) R := by
  have m := v.mounted
  rw [Creation.run,fat32Mkdir_eq] at h
  split at h
  next => cases h
  next hp =>
    have hpair := not_or.mp hp
    obtain ⟨hstable,hV⟩ := getParent_stable m m v.closed rfl (SameWay.refl fs _) hpair.1
    split at h
    next => cases h
    next hno =>
      have hk := getParent_keeps fs m path
      have hpath : path.dropWhile (· == slash)≠[] := fun h0 => hpair.2 (findFile_root h0).2
      rw [findFile_slot (hk.mounted m),if_neg hpath,foundSlot_keeps m hk] at hno
      have hnone : foundSlot fs path=none := by simpa using hno
      obtain ⟨hks,hscan⟩ := makeScan_spec m path
      rcases hr : dirClaimSlot (makeScan fs path).2 (fat32GetParentCluster fs path).1.1
        (makeScan fs path).1 with ⟨o,fs1⟩
      rw [hr] at h
      cases o with
      | none => cases h
      | some ctx =>
        have r := ready_claimed v.homes hV hks hf.1 hscan hr
        dsimp only at h
        obtain ⟨first,hw⟩ := makeInto_written r hV (filenameTo83_length _)
          (fat32GetParentCluster fs path).1.1 (by rw [h])
        rw [h] at hw
        refine ⟨_,⟨hV,hpair.1⟩,hpair.2,hw,rfl,.inr ⟨rfl,rfl⟩,rfl,fun t ht => ?_,
          fun _ => directory_attr _ _ _⟩
        rw [foundSlot] at hnone
        rw [if_neg hp] at hnone
        have ht' : (liveSlots fs (fat32GetParentCluster fs path).1.1).find? (fun t =>
            t.entry.name=filenameTo83 (fat32GetParentCluster fs path).1.2)=some t := ht
        rw [ht',Option.filter_eq_none_iff] at hnone
        have hno' := hnone t rfl
        cases hd : t.entry.isDirectory with
        | false => rfl
        | true =>
          rw [hd,Bool.or_true] at hno'
          exact absurd rfl hno'

theorem created_file (v : Orderly fs) {path buf : Bytes} {hp0 : 0∉path} {hs0 : buf.length<2^32}
    (hf : (Creation.file path buf hp0 hs0).Fair fs)
    (h : (Creation.file path buf hp0 hs0).run fs=(true,g)) :
    ∃R,Created fs g (.file path buf hp0 hs0) R := by
  have m := v.mounted
  rw [Creation.run,fat32WriteFile_eq] at h
  split at h
  next => cases h
  next hslash =>
    split at h
    next => cases h
    next hp =>
      have hpair := not_or.mp hp
      obtain ⟨hstable,hV⟩ := getParent_stable m m v.closed rfl (SameWay.refl fs _) hpair.1
      rcases hr : dirClaimSlot (writeScan fs path).2 (fat32GetParentCluster fs path).1.1
        (writeScan fs path).1 with ⟨o,fs1⟩
      rw [hr] at h
      cases o with
      | none => cases h
      | some ctx =>
        have r := ready_claimed v.homes hV (writeScan_keeps m path) hf.1 (writeScan_eq m path) hr
        have haddr := hf.2 path buf hp0 hs0 rfl
        dsimp only at h
        have hold : ctx.nameMatched=true → ctx.existing.fstClus≠0 →
            Proper fs1 ctx.existing.fstClus ∧ ∀x∈chainOf fs1 ctx.existing.fstClus,
              ¬dirClusters fs1 (Reaches fs isLive) x := by
          intro hm h0
          obtain ⟨hkeep,t,ht,he⟩ := r.matched hm
          have hat : addressed fs path=some t := by rw [addressed,if_neg hp,ht]
          obtain ⟨hlive,hfile⟩ := haddr t hat
          rw [he] at h0 ⊢
          obtain ⟨hproper,hno⟩ := v.file_apart hV (List.mem_filter.mpr
            ⟨List.mem_of_find?_eq_some ht,hlive⟩) hfile h0
          have hsp := hkeep.spares m (K := fun _ => True)
          obtain ⟨h1,h2⟩ := hsp.chainOf hproper fun _ _ => trivial
          refine ⟨h2,fun x hx => ?_⟩
          rw [h1] at hx
          rintro ⟨D,hD,hxD⟩
          rw [(hsp.chainOf (v.homes.proper D hD) fun _ _ => trivial).1] at hxD
          exact hno x hx ⟨D,hD,hxD⟩
        have hok : (writeInto fs1 (filenameTo83 (fat32GetParentCluster fs path).1.2) buf ctx).1=
            true := by rw [h]
        obtain ⟨first,hw⟩ := writeInto_written r hV (filenameTo83_length _) hold hok
        rw [h] at hw
        refine ⟨_,⟨hV,hpair.1⟩,hpair.2,hw,rfl,.inl rfl,Nat.mod_eq_of_lt hs0,fun t ht => ?_,
          fun hl => absurd hl hslash⟩
        have hfs : foundSlot fs path=some t := by
          rw [foundSlot]
          rw [if_neg hp]
          have ht' : (liveSlots fs (fat32GetParentCluster fs path).1.1).find? (fun t =>
            t.entry.name=filenameTo83 (fat32GetParentCluster fs path).1.2)=some t := ht
          rw [ht',Option.filter_some,if_pos]
          simp [hslash]
        obtain ⟨u,hu⟩ := addressed_found hfs
        obtain ⟨hlive,hfile⟩ := haddr u hu
        have hlu : listed u.entry=true := by
          rw [isLive,Bool.and_eq_true] at hlive
          exact hlive.1
        rw [found_addressed hu hlu fun hl => absurd hl hslash] at hfs
        rw [← Option.some.inj hfs]
        exact hfile

theorem created (v : Orderly fs) (c : Creation) (hf : c.Fair fs) (h : c.run fs=(true,g)) :
    ∃R,Created fs g c R := by
  cases c with
  | file path buf hp hs => exact created_file v hf h
  | dir path hp => exact created_dir v hf h

theorem Created.isEnd {c : Creation} {R : DirEntry} (h : Created fs g c R) (m : Mounted fs) :
    R.isEnd=false := by
  have hno := filenameTo83_noNul (getParent_noNul m c.noNul)
  have hlen := filenameTo83_length (fat32GetParentCluster fs c.path).1.2
  rw [DirEntry.isEnd,DirEntry.head,h.name,Creation.name83]
  generalize filenameTo83 (fat32GetParentCluster fs c.path).1.2=l at hno hlen ⊢
  cases l with
  | nil => cases hlen
  | cons x l => simpa using hno x List.mem_cons_self

theorem Created.slot {c : Creation} {R : DirEntry} (h : Created fs g c R) (v : Orderly fs) :
    if Storable (c.name83 fs) then ∃t,foundSlot g c.path=some t ∧ t.entry=R
    else foundSlot g c.path=none := by
  have hend := h.isEnd v.mounted
  have hway := h.written.sameWay hend h.name h.noDir
  obtain ⟨hp,-⟩ := getParent_stable v.mounted h.written.homes.mounted v.closed h.written.layout
    hway h.parent.2
  have hne : ¬((fat32GetParentCluster fs c.path).1.1=0 ∨
      (fat32GetParentCluster fs c.path).1.2=[]) := not_or.mpr ⟨h.parent.2,h.named⟩
  have hnew := h.written.put.find_new hend h.name h.plain
  rw [foundSlot,hp,if_neg hne]
  split at hnew
  next hs =>
    obtain ⟨t,ht,hR⟩ := hnew
    have ht' : (liveSlots g (fat32GetParentCluster fs c.path).1.1).find? (fun t =>
      t.entry.name=filenameTo83 (fat32GetParentCluster fs c.path).1.2)=some t := ht
    rw [if_pos hs,ht',Option.filter_some]
    refine ⟨t,if_pos ?_,hR⟩
    rw [hR]
    by_cases hl : c.path.getLast?=some slash
    · rw [h.dirPath hl,Bool.or_true]
    · simp [hl]
  next hs =>
    have hnone : (liveSlots g (fat32GetParentCluster fs c.path).1.1).find? (fun t =>
      t.entry.name=filenameTo83 (fat32GetParentCluster fs c.path).1.2)=none := hnew
    rw [if_neg hs,hnone]
    rfl

/-- No creation of another name, on a sound volume that holds the entry, takes its slot. -/
def Lasts (d : Nat) (t : Slot) : Prop :=
  ∀(fs g : Fat32Fs) (c : Creation),Orderly fs → c.Fair fs → c.run fs=(true,g) →
    Reaches fs isLive d → t∈inUse (dirSlots fs d) →
    c.parent fs≠d ∨ c.name83 fs≠t.entry.name → t∈inUse (dirSlots g d)

theorem lasts_listed (d : Nat) {t : Slot} (hl : listed t.entry=true) : Lasts d t := by
  intro fs g c v hf h hd ht hne
  obtain ⟨R,hc⟩ := created v c hf h
  by_cases hp : c.parent fs=d
  · obtain ⟨hdel,hcor⟩ := listed_free hl
    have hput := hc.written.put
    rw [hp] at hput
    refine hput.kept (hc.isEnd v.mounted) ht ?_ fun he => ?_
    · rw [dirEntryIsFree,(inUse_mem ht).2,hdel,hcor]
      rfl
    · exact (hne.resolve_left fun h => h hp) he.symm
  · rw [hc.written.others d hd fun h => hp h.symm]
    exact ht

/-- The path leads to the new entry, with its size, and the slot is not
taken from it. -/
def Found (fs g : Fat32Fs) (c : Creation) : Prop :=
  ∃t∈inUse (dirSlots g (c.parent fs)),(fat32FindFile g c.path).1=some t.entry ∧
    t.entry.name=c.name83 fs ∧ t.entry.fileSize=c.size ∧ Lasts (c.parent fs) t

/-- What is created is found exactly when its stored name is one that the scans let pass. -/
theorem created_found (v : Orderly fs) (c : Creation) (hf : c.Fair fs)
    (h : c.run fs=(true,g)) : Found fs g c ↔ Storable (c.name83 fs) := by
  obtain ⟨R,hc⟩ := created v c hf h
  have hslot := hc.slot v
  have hpath : c.path.dropWhile (· == slash)≠[] := fun h0 => hc.named (findFile_root h0).2
  have hfind := findFile_slot hc.written.homes.mounted c.path
  rw [if_neg hpath] at hfind
  refine ⟨fun hfound => ?_,fun hs => ?_⟩
  · obtain ⟨t,-,ht,-⟩ := hfound
    by_contra hs
    rw [if_neg hs] at hslot
    rw [hfind,hslot] at ht
    cases ht
  · rw [if_pos hs] at hslot
    obtain ⟨t,ht,hR⟩ := hslot
    rw [ht] at hfind
    obtain ⟨hp,-⟩ := getParent_stable v.mounted hc.written.homes.mounted v.closed
      hc.written.layout (hc.written.sameWay (hc.isEnd v.mounted) hc.name hc.noDir) hc.parent.2
    have hlive : t∈liveSlots g (c.parent fs) := by
      have hmem := List.mem_of_find?_eq_some (foundSlot_mem ht).2.2.2.2
      rw [hp] at hmem
      exact hmem
    obtain ⟨hin,hl⟩ := List.mem_filter.mp hlive
    exact ⟨t,hin,hfind,by rw [hR,hc.name],by rw [hR,hc.size],lasts_listed _ hl⟩

theorem volumeWithDir_orderly : Orderly volumeWithDir := by
  refine ⟨volumeWithDir_mounted,volumeWithDir_readable,?_,volumeWithDir_consistent,
    fun d hd t ht hdot _ h0 => ?_⟩
  · unfold Layout.Narrow
    decide +kernel
  have h2 : (liveSlots volumeWithDir 2).all fun t => !isDotName t.entry.name := by
    decide +kernel
  have h3 : (liveSlots volumeWithDir 3).all fun t => t.entry.fstClus=0 || t.entry.fstClus=3 := by
    decide +kernel
  rcases volumeWithDir_dirs hd with rfl | rfl
  · have hno := List.all_eq_true.mp h2 t ht
    rw [hdot] at hno
    cases hno
  · have hclus := List.all_eq_true.mp h3 t ht
    simp only [Bool.or_eq_true,decide_eq_true_eq] at hclus
    rw [hclus.resolve_left h0]
    exact hd

/-- A file with a name of the plain kind is found. -/
theorem created_found_a : ∃g,Found volumeWithDir g
    (.file (ofString "SUB/a.txt") (ofString "x") (by decide) (by decide)) := by
  let c : Creation := .file (ofString "SUB/a.txt") (ofString "x") (by decide) (by decide)
  have hok : (c.run volumeWithDir).1=true := by decide +kernel
  have hlow : (dirSlots volumeWithDir (c.parent volumeWithDir)).all fun t => t.lba<2^31 := by
    decide +kernel
  have hnone : (addressed volumeWithDir (ofString "SUB/a.txt")).isNone=true := by decide +kernel
  refine ⟨(c.run volumeWithDir).2,(created_found volumeWithDir_orderly c ⟨fun t ht => ?_,?_⟩
    (Prod.ext hok rfl)).mpr (by decide +kernel)⟩
  · exact of_decide_eq_true (List.all_eq_true.mp hlow t ht)
  · rintro path buf hp hs he t ht
    have hpath : ofString "SUB/a.txt"=path := (Creation.file.inj he).1
    rw [← hpath] at ht
    rw [ht] at hnone
    cases hnone

/-- "a+b" is created and not found, and the next file gets its slot. -/
theorem plus_lost :
    let a : Creation := .file (ofString "a+b") [] (by decide) (by decide)
    let b : Creation := .file (ofString "c") [] (by decide) (by decide)
    let g := (a.run volumeWithDir).2
    Orderly volumeWithDir ∧ a.Fair volumeWithDir ∧ (a.run volumeWithDir).1=true ∧
      (fat32FindFile g a.path).1=none ∧ (b.run g).1=true ∧
      (dirSlots g 2)[1]?.map (fun t => t.entry.name)=some (ofString "A+B        ") ∧
      (dirSlots (b.run g).2 2)[1]?.map (fun t => t.entry.name)=some (ofString "C          ") := by
  have hlow : (dirSlots volumeWithDir 2).all fun t => t.lba<2^31 := by decide +kernel
  have hnone : (addressed volumeWithDir (ofString "a+b")).isNone=true := by decide +kernel
  refine ⟨volumeWithDir_orderly,⟨fun t ht => ?_,?_⟩,by decide +kernel,by decide +kernel,
    by decide +kernel,by decide +kernel,by decide +kernel⟩
  · exact of_decide_eq_true (List.all_eq_true.mp hlow t ht)
  · rintro path buf hp hs he t ht
    cases he
    rw [ht] at hnone
    cases hnone

end found

end LugalOS.Fat32
