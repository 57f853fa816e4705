import LugalOS.Fat32.Shown

namespace LugalOS.Fat32

open CString LittleEndian

theorem Layout.Sound.spc_eq {l : Layout} (h : l.Sound) : l.spc=l.bpb.secPerClus := by
  rw [Layout.spc,if_neg (Nat.ne_of_gt h.spcPos)]

theorem fillCluster_stores (buf : Bytes) (k bpc : Nat) {fs : Fat32Fs} (m : Mounted fs) {c : Nat}
    (hc : fs.HasCluster c) {n sct : Nat} (hn : n+sct≤fs.bpb.secPerClus) (err : Bool) :
    Stores (fs.FromSector c sct) fs
      (fillCluster buf (fs.clusterToLba c) k bpc n sct err fs).2 := by
  induction n generalizing sct err fs with
  | zero => exact (Keeps.refl fs).stores.mono (fun _ => False.elim) fun lba h => h.inData hc
  | succ n ih =>
    have hs : sct<fs.bpb.secPerClus := by omega
    rw [fillCluster]
    dsimp only
    split
    · exact (Keeps.refl fs).stores.mono (fun _ => False.elim) fun lba h => h.inData hc
    · rw [m.sound.sectorLba c sct hc hs]
      generalize patch zeroSector 0 ((buf.drop ((k*bpc+sct*512)%2^32)).take 512)=sec
      have hw := write_stores fs m (fs.dataLba c sct) sec (Layout.dataLba_inData c sct hc hs)
      have hrest : n+(sct+1)≤(fs.write .data (fs.dataLba c sct) sec).2.bpb.secPerClus := by
        change n+(sct+1)≤fs.bpb.secPerClus
        omega
      have hi := ih (m.grows hw.toGrows) hc hrest
        (err || !(fs.write .data (fs.dataLba c sct) sec).1)
      refine (hw.trans hi).mono ?_ fun lba h => h.inData hc
      rintro lba (rfl | ⟨j,h1,h2,rfl⟩)
      · exact ⟨sct,Nat.le_refl sct,hs,rfl⟩
      · exact ⟨j,by omega,h2,rfl⟩

/-- One cluster of a new file: taken, linked behind `cur` unless it is the first, and filled. -/
def placeOne (buf : Bytes) (fs : Fat32Fs) (c cur : Nat) (err : Bool) : Bool×Fat32Fs :=
  let a := fatAllocCluster fs
  let fs := if c=0 then a.2 else fatSetEntry a.2 cur a.1
  fillCluster buf (fs.clusterToLba a.1) c fs.bpc fs.spc 0 err fs

theorem placeClusters_succ (buf : Bytes) (n c first cur : Nat) (err : Bool) (fs : Fat32Fs) :
    placeClusters buf (n+1) c first cur err fs=
      if (fatAllocCluster fs).1=0 then ((none,first),(fatAllocCluster fs).2)
      else placeClusters buf n (c+1) (if c=0 then (fatAllocCluster fs).1 else first)
        (fatAllocCluster fs).1 (placeOne buf fs c cur err).1 (placeOne buf fs c cur err).2 := rfl

section Records

/-- Two sectors that differ in entry i alone. -/
def SameBut (i : Nat) (s s' : Sector) : Prop := ∀k,¬(32*i≤k ∧ k<32*i+32) → s' k=s k

theorem SameBut.trans {i : Nat} {a b c : Sector} (h : SameBut i a b) (h' : SameBut i b c) :
    SameBut i a c :=
  fun k hk => (h' k hk).trans (h k hk)

theorem sameBut_putName (s : Sector) (i : Nat) {name : Bytes} (h : name.length≤32) :
    SameBut i s (putName s i name) :=
  fun k hk => patch_outside s (32*i) name k (by omega)

theorem sameBut_putAttr (s : Sector) (i : Nat) (attr : UInt8) :
    SameBut i s (putAttr s i attr) :=
  fun k hk => patch_outside s (32*i+11) [attr] k (by rw [List.length_singleton]; omega)

theorem sameBut_putClus (s : Sector) (i clus : Nat) : SameBut i s (putClus s i clus) := by
  intro k hk
  rw [putClus,putLe_outside _ _ _ _ _ (by omega),putLe_outside _ _ _ _ _ (by omega)]

theorem sameBut_putSize (s : Sector) (i size : Nat) : SameBut i s (putSize s i size) :=
  fun k hk => putLe_outside s (32*i+28) 4 size k (by omega)

end Records

section Slots

/-- The slots of a directory in front of its end. -/
def inUse (l : List Slot) : List Slot := l.takeWhile fun t => !t.entry.isEnd

/-- An entry that the writers take for the file of that stored name. -/
def matchesName (name83 : Bytes) (t : Slot) : Bool :=
  !dirEntryIsCorrupt t.entry && t.entry.name == name83 && !dirEntryIsFree t.entry

theorem inUse_cons (t : Slot) (l : List Slot) :
    inUse (t::l)=if t.entry.isEnd then [] else t::inUse l := by
  rw [inUse,List.takeWhile_cons]
  cases t.entry.isEnd <;> rfl

theorem matches_end {name83 : Bytes} {t : Slot} (h : t.entry.isEnd=true) :
    matchesName name83 t=false := by
  simp [matchesName,dirEntryIsFree,h]

theorem writeSlotStep_match {name83 : Bytes} {t : Slot} (h : matchesName name83 t=true)
    (ctx : WriteSlot) :
    writeSlotStep name83 t.lba t.idx t.entry ctx=(true,⟨asInt t.lba,t.idx,true,t.entry⟩) := by
  simp only [matchesName,Bool.and_eq_true,beq_iff_eq] at h
  rw [writeSlotStep,if_pos ⟨h.1.1,h.1.2,h.2⟩]

theorem writeSlotStep_other {name83 : Bytes} {t : Slot} (h : matchesName name83 t=false)
    (ctx : WriteSlot) : writeSlotStep name83 t.lba t.idx t.entry ctx=(t.entry.isEnd,
      if (dirEntryIsFree t.entry || dirEntryIsCorrupt t.entry) ∧ ctx.freeSectorLba<0 then
        { ctx with freeSectorLba := asInt t.lba, freeSlot := t.idx } else ctx) := by
  have hno : ¬(!dirEntryIsCorrupt t.entry ∧ t.entry.name=name83 ∧ !dirEntryIsFree t.entry) := by
    rintro ⟨h1,h2,h3⟩
    rw [matchesName,h1,h3,h2,beq_self_eq_true] at h
    cases h
  rw [writeSlotStep,if_neg hno]

/-- What the scan of the writers finds: the first match, else a slot that is free or corrupt. -/
theorem look_write (name83 : Bytes) (l : List Slot) (ctx : WriteSlot)
    (hctx : ctx.nameMatched=false) :
    match (inUse l).find? (matchesName name83) with
    | some t => (lookSlots (writeSlotStep name83) l ctx).2=⟨asInt t.lba,t.idx,true,t.entry⟩
    | none => (lookSlots (writeSlotStep name83) l ctx).2.nameMatched=false ∧
        ((lookSlots (writeSlotStep name83) l ctx).2=ctx ∧ (0≤ctx.freeSectorLba ∨
            ∀t∈l,(dirEntryIsFree t.entry || dirEntryIsCorrupt t.entry)=false) ∨
          ∃pre t post,l=pre++t::post ∧ (∀u∈pre,u.entry.isEnd=false) ∧
            (dirEntryIsFree t.entry || dirEntryIsCorrupt t.entry)=true ∧
            (lookSlots (writeSlotStep name83) l ctx).2.freeSectorLba=asInt t.lba ∧
            (lookSlots (writeSlotStep name83) l ctx).2.freeSlot=t.idx) := by
  induction l generalizing ctx with
  | nil => exact ⟨hctx,.inl ⟨rfl,.inr fun t ht => by cases ht⟩⟩
  | cons t l ih =>
    rw [inUse_cons,lookSlots]
    cases hm : matchesName name83 t with
    | true =>
      have he : t.entry.isEnd=false := by
        cases he : t.entry.isEnd with
        | false => rfl
        | true => rw [matches_end he] at hm; cases hm
      rw [writeSlotStep_match hm,he]
      simp only [Bool.false_eq_true,if_false,List.find?_cons_of_pos hm]
    | false =>
      rw [writeSlotStep_other hm]
      generalize hnew : (if (dirEntryIsFree t.entry || dirEntryIsCorrupt t.entry) ∧
        ctx.freeSectorLba<0 then { ctx with freeSectorLba := asInt t.lba, freeSlot := t.idx }
        else ctx)=new
      have hslot : new=ctx ∧ (0≤ctx.freeSectorLba ∨
            (dirEntryIsFree t.entry || dirEntryIsCorrupt t.entry)=false) ∨
          (dirEntryIsFree t.entry || dirEntryIsCorrupt t.entry)=true ∧
            new.freeSectorLba=asInt t.lba ∧ new.freeSlot=t.idx := by
        rw [← hnew]
        split
        next h => exact .inr ⟨h.1,rfl,rfl⟩
        next h =>
          refine .inl ⟨rfl,?_⟩
          by_cases hneg : ctx.freeSectorLba<0
          · exact .inr (by simpa [hneg] using h)
          · exact .inl (by omega)
      have hfalse : new.nameMatched=false := by
        rw [← hnew]
        split <;> exact hctx
      cases he : t.entry.isEnd with
      | true =>
        refine ⟨hfalse,?_⟩
        have hfree : (dirEntryIsFree t.entry || dirEntryIsCorrupt t.entry)=true := by
          simp [dirEntryIsFree,he]
        rcases hslot with ⟨h,hno⟩ | h
        · exact .inl ⟨h,hno.imp id fun h => absurd (hfree.symm.trans h) (by decide)⟩
        · exact .inr ⟨[],t,l,rfl,fun u hu => by (cases hu),h⟩
      | false =>
        rw [if_neg (by decide),List.find?_cons_of_neg (by rw [hm]; decide)]
        have hi := ih new hfalse
        cases hf : (inUse l).find? (matchesName name83) with
        | some u =>
          rw [hf] at hi
          exact hi
        | none =>
          rw [hf] at hi
          refine ⟨hi.1,?_⟩
          rcases hi.2 with ⟨heq,hrest⟩ | ⟨pre,u,post,hl,hpre,h⟩
          · have heq' : (lookSlots (writeSlotStep name83) l new).2=new := heq
            rcases hslot with ⟨hs,hno⟩ | hs
            · refine .inl ⟨heq'.trans hs,?_⟩
              rw [hs] at hrest
              rcases hno with hno | hno
              · exact .inl hno
              · refine hrest.imp id fun hall v hv => ?_
                rcases List.mem_cons.mp hv with rfl | hv
                · exact hno
                · exact hall v hv
            · refine .inr ⟨[],t,l,rfl,fun u hu => by (cases hu),hs.1,?_⟩
              change (lookSlots (writeSlotStep name83) l new).2.freeSectorLba=_ ∧ _
              rw [heq']
              exact hs.2
          · refine .inr ⟨t::pre,u,post,by rw [hl]; rfl,fun v hv => ?_,h⟩
            rcases List.mem_cons.mp hv with rfl | hv
            · exact he
            · exact hpre v hv

end Slots

section Targets

/-- The slot of the entry that the writers take a path for. -/
def addressed (fs : Fat32Fs) (path : Bytes) : Option Slot :=
  let p := (fat32GetParentCluster fs path).1
  if p.1=0 ∨ p.2=[] then none
  else (inUse (dirSlots fs p.1)).find? (matchesName (filenameTo83 p.2))

/-- The slot of the entry that find_file answers. -/
def foundSlot (fs : Fat32Fs) (path : Bytes) : Option Slot :=
  let p := (fat32GetParentCluster fs path).1
  if p.1=0 ∨ p.2=[] then none
  else ((liveSlots fs p.1).find? fun t => t.entry.name=filenameTo83 p.2).filter fun t =>
    path.getLast? != some slash || t.entry.isDirectory

/-- The scan of the writers, and where fat32_update_entry and fat32_write_file edit. -/
def writeScan (fs : Fat32Fs) (path : Bytes) : WriteSlot×Fat32Fs :=
  let p := fat32GetParentCluster fs path
  fat32ScanDir p.2 p.1.1 (writeSlotCb (filenameTo83 p.1.2)) WriteSlot.none

def updateSlot (fs : Fat32Fs) (path : Bytes) : Option (Nat×Nat) :=
  let p := fat32GetParentCluster fs path
  let s := writeScan fs path
  if p.1.1=0 ∨ p.1.2=[] then none
  else if s.1.nameMatched then some (s.1.lba,s.1.freeSlot) else none

def fileSlot (fs : Fat32Fs) (path : Bytes) : Option (Nat×Nat) :=
  let p := fat32GetParentCluster fs path
  let s := writeScan fs path
  if path.getLast?=some slash ∨ p.1.1=0 ∨ p.1.2=[] then none
  else (dirClaimSlot s.2 p.1.1 s.1).1.map fun ctx => (ctx.lba,ctx.freeSlot)

variable {fs : Fat32Fs}

theorem writeScan_eq (m : Mounted fs) (path : Bytes) : (writeScan fs path).1=
    (lookSlots (writeSlotStep (filenameTo83 (fat32GetParentCluster fs path).1.2))
      (dirSlots fs (fat32GetParentCluster fs path).1.1) WriteSlot.none).2 := by
  have hk := getParent_keeps fs m path
  rw [← dirSlots_keeps m hk]
  exact scan_look (writeSlotStep _) _ (hk.mounted m) _ _

theorem readSlots_reads {dev : BlockDev} {x : List Nat} {t : Slot} (h : t∈readSlots dev x) :
    ∃s,dev.readBlocks t.lba=some s ∧ t.entry=entryAt s t.idx ∧ t.idx<16 := by
  induction x with
  | nil => cases h
  | cons lba x ih =>
    rw [readSlots] at h
    cases hr : dev.readBlocks lba with
    | none =>
      rw [hr] at h
      cases h
    | some s =>
      rw [hr] at h
      rcases List.mem_append.mp h with h | h
      · obtain ⟨i,hi,rfl⟩ := List.mem_map.mp h
        exact ⟨s,hr,rfl,by simpa using hi⟩
      · exact ih h

theorem mem_dirSlots {d : Nat} {t : Slot} (h : t∈dirSlots fs d) :
    ∃c j,c∈scanned fs (fs.totalClusters+1) d ∧ fs.HasCluster c ∧ j<fs.bpb.secPerClus ∧
      t.lba=fs.dataLba c j := by
  obtain ⟨c,hc,hl⟩ := List.mem_flatMap.mp (mem_readSlots h)
  obtain ⟨j,hj,he⟩ := List.mem_map.mp hl
  exact ⟨c,j,hc,scanned_has fs _ d c hc,by simpa using hj,he.symm⟩

theorem dirSlots_lba (m : Mounted fs) {d : Nat} {t : Slot} (h : t∈dirSlots fs d) :
    fs.InData t.lba ∧ asU32 (asInt t.lba)=t.lba := by
  obtain ⟨c,j,-,hc,hj,he⟩ := mem_dirSlots h
  have hin : fs.InData t.lba := by
    rw [he]
    exact Layout.dataLba_inData c j hc hj
  exact ⟨hin,slotLba_ok fs.toLayout m.sound t.lba hin⟩

theorem inUse_mem {l : List Slot} {t : Slot} (h : t∈inUse l) : t∈l ∧ t.entry.isEnd=false :=
  ⟨List.takeWhile_subset _ h,by simpa using takeWhile_holds h⟩

theorem slot_at {d : Nat} {t u : Slot} (ht : t∈dirSlots fs d) (hu : u∈dirSlots fs d)
    (hl : t.lba=u.lba) (hi : t.idx=u.idx) : t.entry=u.entry := by
  obtain ⟨s,hs,he,-⟩ := readSlots_reads ht
  obtain ⟨s',hs',he',-⟩ := readSlots_reads hu
  rw [hl,hs'] at hs
  rw [he,he',hi,Option.some.inj hs]

theorem addressed_mem {path : Bytes} {t : Slot} (h : addressed fs path=some t) :
    (fat32GetParentCluster fs path).1.1≠0 ∧ (fat32GetParentCluster fs path).1.2≠[] ∧
      t∈inUse (dirSlots fs (fat32GetParentCluster fs path).1.1) ∧
      matchesName (filenameTo83 (fat32GetParentCluster fs path).1.2) t=true ∧
      (inUse (dirSlots fs (fat32GetParentCluster fs path).1.1)).find?
        (matchesName (filenameTo83 (fat32GetParentCluster fs path).1.2))=some t := by
  rw [addressed] at h
  split at h
  next => cases h
  next hp =>
    rw [not_or] at hp
    exact ⟨hp.1,hp.2,List.mem_of_find?_eq_some h,List.find?_some h,h⟩

theorem writeScan_some (m : Mounted fs) {path : Bytes} {t : Slot}
    (h : addressed fs path=some t) :
    (writeScan fs path).1=⟨asInt t.lba,t.idx,true,t.entry⟩ := by
  obtain ⟨-,-,-,-,hf⟩ := addressed_mem h
  have hl := look_write (filenameTo83 (fat32GetParentCluster fs path).1.2)
    (dirSlots fs (fat32GetParentCluster fs path).1.1) WriteSlot.none rfl
  rw [hf] at hl
  rw [writeScan_eq m]
  exact hl

theorem updateSlot_eq (m : Mounted fs) (path : Bytes) :
    updateSlot fs path=(addressed fs path).map fun t => (t.lba,t.idx) := by
  cases h : addressed fs path with
  | some t =>
    obtain ⟨h1,h2,hm,-⟩ := addressed_mem h
    have hlba := (dirSlots_lba m (inUse_mem hm).1).2
    rw [updateSlot]
    rw [if_neg (by simp [h1,h2]),writeScan_some m h]
    simp [WriteSlot.lba,hlba]
  | none =>
    rw [updateSlot]
    split
    next => rfl
    next hp =>
      have hf : (inUse (dirSlots fs (fat32GetParentCluster fs path).1.1)).find?
          (matchesName (filenameTo83 (fat32GetParentCluster fs path).1.2))=none := by
        rw [addressed] at h
        rwa [if_neg hp] at h
      have hl := look_write (filenameTo83 (fat32GetParentCluster fs path).1.2)
        (dirSlots fs (fat32GetParentCluster fs path).1.1) WriteSlot.none rfl
      rw [hf] at hl
      rw [writeScan_eq m,hl.1]
      rfl

theorem fatSetEntry_layout (fs : Fat32Fs) (c v : Nat) :
    (fatSetEntry fs c v).toLayout=fs.toLayout := by
  have hinfo : ∀(fs : Fat32Fs) (n : Nat),(fsinfoWrite fs n).toLayout=fs.toLayout := by
    intro fs n
    unfold fsinfoWrite
    split
    · rfl
    · split
      · rfl
      · split <;> rfl
  have hwill : (fatWillChange fs).toLayout=fs.toLayout := by
    unfold fatWillChange
    dsimp only
    split
    · exact hinfo { fs with modified := true } freeUnknown
    · rfl
  have hwrite : ∀(fs : Fat32Fs) (lba : Nat) (sec : Sector),
      (writeFat fs lba sec).toLayout=fs.toLayout := by
    intro fs lba sec
    unfold writeFat
    dsimp only
    split <;> rfl
  have hwords := (fatSectorWords_same (fatWillChange fs) (fs.fatSector c)).layout
  unfold fatSetEntry
  dsimp only
  rcases hr : fatSectorWords (fatWillChange fs) (fs.fatSector c) with ⟨o,fs'⟩
  rw [hr] at hwords
  cases o with
  | none => exact Eq.trans hwords hwill
  | some w => exact (hwrite fs' _ _).trans (Eq.trans hwords hwill)

theorem lastCluster_keeps (n : Nat) {fs : Fat32Fs} (m : Mounted fs) (c : Nat) :
    Keeps fs (lastCluster n fs c).2 := by
  induction n generalizing fs c with
  | zero => exact Keeps.refl fs
  | succ n ih =>
    have h := fatGetEntry_keeps fs m c
    unfold lastCluster
    dsimp only
    split
    · exact h
    · split
      · exact h
      · exact h.trans (ih (h.mounted m) _)

theorem lastCluster_used (n : Nat) {fs : Fat32Fs} (m : Mounted fs) {c last : Nat}
    (h : (lastCluster n fs c).1=some last) (k : Nat) :
    ∀x∈scanned fs k c,fs.entry x≠some 0 := by
  induction n generalizing fs c k with
  | zero => cases h
  | succ n ih =>
    cases k with
    | zero => exact fun x hx => by cases hx
    | succ k =>
      intro x hx
      rw [scanned] at hx
      split at hx
      next hc =>
        have he := fatGetEntry_eq fs m c hc
        have hk := fatGetEntry_keeps fs m c
        unfold lastCluster at h
        dsimp only at h
        rw [he] at h
        have hne : fs.entry c≠some 0 := fun h0 => by
          rw [h0] at h
          simp [endOfChain] at h
        rcases List.mem_cons.mp hx with rfl | hx
        · exact hne
        · split at hx
          next => cases hx
          next hend =>
            rw [if_neg hend] at h
            split at h
            next => cases h
            next =>
              rw [← scanned_keeps m hk] at hx
              have hi := ih (hk.mounted m) h k x hx
              rwa [hk.entry m.sound x (hk.layout ▸ scanned_has _ _ _ x hx)] at hi
      next => cases hx

theorem dirClaimSlot_grown (m : Mounted fs) {d : Nat} {ctx ctx' : WriteSlot}
    (hneg : ctx.freeSectorLba<0) (h : (dirClaimSlot fs d ctx).1=some ctx') :
    ∀t∈dirSlots fs d,t.lba≠ctx'.lba := by
  unfold dirClaimSlot at h
  rw [if_neg (by omega)] at h
  have hk := lastCluster_keeps maxDirClusters m d
  have hused := fun last => @lastCluster_used maxDirClusters fs m d last
  rcases hr : lastCluster maxDirClusters fs d with ⟨o,fs1⟩
  rw [hr] at h hk hused
  cases o with
  | none => cases h
  | some last =>
    dsimp only at h hk hused
    have m1 := hk.mounted m
    rcases fatAllocCluster_spec fs1 m1 with ⟨h0,-⟩ | ha
    · rw [if_pos (.inr h0)] at h
      cases h
    · split at h
      next => cases h
      next =>
        intro t ht heq
        obtain ⟨c,j,hc,hcl,hj,hl⟩ := mem_dirSlots ht
        generalize (fatAllocCluster fs1).1=a at h ha
        generalize (fatAllocCluster fs1).2=fs2 at h ha
        have hacl : fs.HasCluster a := by
          rw [← hk.layout]
          exact ha.cluster
        have hlay : (fatSetEntry (zeroCluster fs2 a) last a).toLayout=fs.toLayout := by
          have hz := zeroCluster_stores fs2 (m1.grows ha.toGrows) a (by
            rw [ha.layout]
            exact ha.cluster)
          rw [fatSetEntry_layout,hz.1.layout,ha.layout,hk.layout]
        have hlba : ctx'.lba=fs.dataLba a 0 := by
          rw [← Option.some.inj h,WriteSlot.lba,hlay,m.sound.clusterToLba a hacl]
          exact slotLba_ok fs.toLayout m.sound _
            (Layout.dataLba_inData a 0 hacl m.sound.spcPos)
        have hca : c=a := dataLba_cluster hcl hacl hj m.sound.spcPos
          (hl.symm.trans (heq.trans hlba))
        -- the new cluster was free, those of the directory were not
        refine hused last rfl _ c hc ?_
        rw [hca,← hk.entry m.sound a hacl]
        exact ha.free

theorem matches_of_listed {name83 : Bytes} {t : Slot} (h : listed t.entry=true)
    (hend : t.entry.isEnd=false) (hn : t.entry.name=name83) : matchesName name83 t=true := by
  simp only [listed,Bool.and_eq_true,Bool.not_eq_true'] at h
  simp [matchesName,dirEntryIsFree,h.2,h.1.1.1,hend,hn]

theorem find_listed {name83 : Bytes} (l : List Slot) {t : Slot}
    (hl : ∀u∈l,u.entry.isEnd=false) (h : l.find? (matchesName name83)=some t)
    (hs : listed t.entry=true) :
    (l.filter fun u => listed u.entry).find? (fun u => u.entry.name=name83)=some t := by
  induction l with
  | nil => cases h
  | cons u l ih =>
    have hi := ih fun u hu => hl u (List.mem_cons_of_mem _ hu)
    cases hm : matchesName name83 u with
    | true =>
      rw [List.find?_cons_of_pos hm] at h
      have hn : u.entry.name=name83 := by
        simp only [matchesName,Bool.and_eq_true,beq_iff_eq] at hm
        exact hm.1.2
      rw [Option.some.inj h] at *
      rw [List.filter_cons,if_pos hs,List.find?_cons_of_pos (by simpa using hn)]
    | false =>
      rw [List.find?_cons_of_neg (by rw [hm]; decide)] at h
      by_cases hu : listed u.entry=true
      · rw [List.filter_cons,if_pos hu,List.find?_cons_of_neg]
        · exact hi h
        · intro hn
          rw [matches_of_listed hu (hl u List.mem_cons_self) (of_decide_eq_true hn)] at hm
          cases hm
      · rw [List.filter_cons,if_neg hu]
        exact hi h

theorem find_matches {name83 : Bytes} (l : List Slot) {t : Slot}
    (hl : ∀u∈l,u.entry.isEnd=false)
    (h : (l.filter fun u => listed u.entry).find? (fun u => u.entry.name=name83)=some t) :
    ∃u,l.find? (matchesName name83)=some u := by
  have hmem := List.mem_filter.mp (List.mem_of_find?_eq_some h)
  have hn := List.find?_some h
  refine Option.isSome_iff_exists.mp (List.find?_isSome.mpr ⟨t,hmem.1,?_⟩)
  exact matches_of_listed hmem.2 (hl t hmem.1) (of_decide_eq_true hn)

theorem liveSlots_eq (fs : Fat32Fs) (d : Nat) :
    liveSlots fs d=(inUse (dirSlots fs d)).filter fun u => listed u.entry := rfl

theorem foundSlot_mem {path : Bytes} {t : Slot} (h : foundSlot fs path=some t) :
    (fat32GetParentCluster fs path).1.1≠0 ∧ (fat32GetParentCluster fs path).1.2≠[] ∧
      t∈dirSlots fs (fat32GetParentCluster fs path).1.1 ∧
      (path.getLast?=some slash → t.entry.isDirectory=true) ∧
      ((inUse (dirSlots fs (fat32GetParentCluster fs path).1.1)).filter
        fun u => listed u.entry).find? (fun u => u.entry.name=
          filenameTo83 (fat32GetParentCluster fs path).1.2)=some t := by
  rw [foundSlot] at h
  split at h
  next => cases h
  next hp =>
    rw [not_or] at hp
    obtain ⟨hf,hs⟩ := Option.filter_eq_some_iff.mp h
    have hmem := (List.mem_filter.mp (List.mem_of_find?_eq_some hf)).1
    refine ⟨hp.1,hp.2,(inUse_mem hmem).1,fun hl => ?_,hf⟩
    simpa [hl] using hs

theorem addressed_found {path : Bytes} {t : Slot} (h : foundSlot fs path=some t) :
    ∃u,addressed fs path=some u := by
  obtain ⟨h1,h2,-,-,hf⟩ := foundSlot_mem h
  obtain ⟨u,hu⟩ := find_matches _ (fun u hu => (inUse_mem hu).2) hf
  exact ⟨u,by rw [addressed,if_neg (by simp [h1,h2]),hu]⟩

theorem found_addressed {path : Bytes} {t : Slot} (h : addressed fs path=some t)
    (hl : listed t.entry=true) (hs : path.getLast?=some slash → t.entry.isDirectory=true) :
    foundSlot fs path=some t := by
  obtain ⟨h1,h2,-,-,hf⟩ := addressed_mem h
  have hfind := find_listed _ (fun u hu => (inUse_mem hu).2) hf hl
  rw [foundSlot,if_neg (by simp [h1,h2]),liveSlots_eq,hfind,Option.filter_some,if_pos]
  by_cases hp : path.getLast?=some slash
  · simp [hs hp]
  · simp [hp]

theorem fileSlot_some {path : Bytes} {lba i : Nat} (h : fileSlot fs path=some (lba,i)) :
    path.getLast?≠some slash ∧ (fat32GetParentCluster fs path).1.1≠0 ∧
      (fat32GetParentCluster fs path).1.2≠[] ∧
      ∃ctx,(dirClaimSlot (writeScan fs path).2 (fat32GetParentCluster fs path).1.1
        (writeScan fs path).1).1=some ctx ∧ ctx.lba=lba ∧ ctx.freeSlot=i := by
  rw [fileSlot] at h
  split at h
  next => cases h
  next hp =>
    rw [not_or,not_or] at hp
    obtain ⟨ctx,hctx,he⟩ := Option.map_eq_some_iff.mp h
    exact ⟨hp.1,hp.2.1,hp.2.2,ctx,hctx,congrArg Prod.fst he,congrArg Prod.snd he⟩

theorem writeScan_keeps (m : Mounted fs) (path : Bytes) : Keeps fs (writeScan fs path).2 := by
  have hk := getParent_keeps fs m path
  exact hk.trans (writeSlot_keeps _ (hk.mounted m) _ _).1

theorem asInt_nonneg (n : Nat) (h : n<2^32) : 0≤asInt n ↔ n<2^31 := by
  unfold asInt
  split <;> omega

theorem dirSlots_small (m : Mounted fs) {d : Nat} {t : Slot} (h : t∈dirSlots fs d) :
    t.lba<2^32 := by
  have hin := (dirSlots_lba m h).1
  have he := m.sound.dataEnd
  unfold Layout.InData at hin
  omega

theorem dirClaimSlot_kept {d : Nat} {ctx : WriteSlot} (h : 0≤ctx.freeSectorLba) :
    dirClaimSlot fs d ctx=(some ctx,fs) := by
  rw [dirClaimSlot,if_pos h]

theorem grown_elsewhere (m : Mounted fs) {path : Bytes} {ctx : WriteSlot}
    (hneg : (writeScan fs path).1.freeSectorLba<0)
    (h : (dirClaimSlot (writeScan fs path).2 (fat32GetParentCluster fs path).1.1
      (writeScan fs path).1).1=some ctx) :
    ∀t∈dirSlots fs (fat32GetParentCluster fs path).1.1,t.lba≠ctx.lba := by
  have hk := writeScan_keeps m path
  have hg := dirClaimSlot_grown (hk.mounted m) hneg h
  rwa [dirSlots_keeps m hk] at hg

theorem unmatched_slot (m : Mounted fs) {path : Bytes} (hp : ¬((fat32GetParentCluster fs
    path).1.1=0 ∨ (fat32GetParentCluster fs path).1.2=[])) (ha : addressed fs path=none)
    {ctx : WriteSlot} (h : (dirClaimSlot (writeScan fs path).2
      (fat32GetParentCluster fs path).1.1 (writeScan fs path).1).1=some ctx) :
    ∀t∈dirSlots fs (fat32GetParentCluster fs path).1.1,t.lba=ctx.lba → t.idx=ctx.freeSlot →
      (dirEntryIsFree t.entry || dirEntryIsCorrupt t.entry)=true := by
  intro t ht hl hi
  have hlook := look_write (filenameTo83 (fat32GetParentCluster fs path).1.2)
    (dirSlots fs (fat32GetParentCluster fs path).1.1) WriteSlot.none rfl
  rw [addressed] at ha
  rw [if_neg hp] at ha
  rw [ha,← writeScan_eq m] at hlook
  by_cases hneg : (writeScan fs path).1.freeSectorLba<0
  · exact absurd hl (grown_elsewhere m hneg h t ht)
  · rw [dirClaimSlot_kept (by omega)] at h
    rw [← Option.some.inj h] at hl hi
    rcases hlook.2 with ⟨heq,-⟩ | ⟨pre,u,post,hsplit,-,hfree,hlba,hidx⟩
    · rw [heq] at hneg
      exact absurd (by decide) hneg
    · have hu : u∈dirSlots fs (fat32GetParentCluster fs path).1.1 := by
        rw [hsplit]
        simp
      rw [WriteSlot.lba,hlba,(dirSlots_lba m hu).2] at hl
      rw [hidx] at hi
      rwa [slot_at ht hu hl hi]

end Targets

section Effects

variable {fs : Fat32Fs}

theorem parentLoop_same (comps : List Bytes) (fs : Fat32Fs) (cur : Nat) :
    SameDisk fs (parentLoop fs cur comps).2 := by
  induction comps generalizing fs cur with
  | nil => exact SameDisk.refl fs
  | cons curr comps ih =>
    cases comps with
    | nil => exact SameDisk.refl fs
    | cons c rest =>
      unfold parentLoop
      split
      · have hs : SameDisk fs (fat32ScanDir fs cur
            (findComponentCb (filenameTo83 curr) fs.rootDirCluster) 0).2 :=
          fat32ScanDir_same fs cur _ (looking_quiet _) 0
        dsimp only
        split
        · exact hs
        · exact hs.trans (ih _ _)
      · exact ih fs cur

theorem getParent_same (fs : Fat32Fs) (path : Bytes) :
    SameDisk fs (fat32GetParentCluster fs path).2 := by
  unfold fat32GetParentCluster
  split
  · exact SameDisk.refl fs
  · exact parentLoop_same _ fs _

theorem writeScan_same (fs : Fat32Fs) (path : Bytes) : SameDisk fs (writeScan fs path).2 :=
  (getParent_same fs path).trans (fat32ScanDir_same _ _ _ (looking_quiet _) _)

/-- fat32_write_file once it has its slot. -/
def writeInto (fs : Fat32Fs) (name83 buf : Bytes) (ctx : WriteSlot) : Bool×Fat32Fs :=
  let fs :=
    if ctx.nameMatched ∧ ctx.existing.fstClus≠0 then fat32FreeChain fs ctx.existing.fstClus
    else fs
  let needed := (buf.length+fs.bpc-1)%2^32/fs.bpc
  match placeClusters buf needed 0 0 0 false fs with
  | ((none,first),fs) =>
    let fs := if first≠0 then fat32FreeChain fs first else fs
    let fs :=
      if ctx.nameMatched then
        (rewriteSlot fs ctx.lba fun sec => putSize (putClus sec ctx.freeSlot 0)
          ctx.freeSlot 0).2
      else fs
    (false,fs)
  | ((some (first,err),_),fs) =>
    match fs.dev.readBlocks ctx.lba with
    | none => (false,if first≠0 then fat32FreeChain fs first else fs)
    | some sec =>
      let sec := putAttr (putName sec ctx.freeSlot name83) ctx.freeSlot attrArchive
      let sec := putSize (putClus sec ctx.freeSlot first) ctx.freeSlot buf.length
      let r := fs.write .data ctx.lba sec
      (r.1 && !err,r.2)

theorem fat32WriteFile_eq (fs : Fat32Fs) (path buf : Bytes) : fat32WriteFile fs path buf=
    if path.getLast?=some slash then (false,fs)
    else if (fat32GetParentCluster fs path).1.1=0 ∨ (fat32GetParentCluster fs path).1.2=[] then
      (false,(fat32GetParentCluster fs path).2)
    else match dirClaimSlot (writeScan fs path).2 (fat32GetParentCluster fs path).1.1
        (writeScan fs path).1 with
      | (none,fs1) => (false,fs1)
      | (some ctx,fs1) =>
        writeInto fs1 (filenameTo83 (fat32GetParentCluster fs path).1.2) buf ctx := rfl

theorem sameBut_record (sec : Sector) (i : Nat) {name83 : Bytes} (hn : name83.length=11)
    (attr : UInt8) (first size : Nat) :
    SameBut i sec (putSize (putClus (putAttr (putName sec i name83) i attr) i first) i size) :=
  (((sameBut_putName sec i (by omega)).trans (sameBut_putAttr _ i attr)).trans
    (sameBut_putClus _ i first)).trans (sameBut_putSize _ i size)

theorem findFile_slot (m : Mounted fs) (path : Bytes) : (fat32FindFile fs path).1=
    if path.dropWhile (· == slash)=[] then some (rootEntry fs)
    else (foundSlot fs path).map Slot.entry := by
  by_cases hpath : path.dropWhile (· == slash)=[]
  · rw [if_pos hpath,(findFile_root hpath).1]
  have hk := getParent_keeps fs m path
  have hscan := scan_look_stable (fun _ _ => findStep (filenameTo83
    (fat32GetParentCluster fs path).1.2)) m hk (fat32GetParentCluster fs path).1.1 none
  have hlive := findFile_scan m (fat32GetParentCluster fs path).1.1
    (filenameTo83 (fat32GetParentCluster fs path).1.2)
  rw [if_neg hpath,fat32FindFile,foundSlot]
  dsimp only
  rw [if_neg hpath,getParent_dropWhile,dropWhile_getLast hpath]
  split
  next => rfl
  next =>
    have hfind := hscan.trans hlive
    rw [show fat32ScanDir (fat32GetParentCluster fs path).2 (fat32GetParentCluster fs path).1.1
      (findFileCb (filenameTo83 (fat32GetParentCluster fs path).1.2)) none=fat32ScanDir
      (fat32GetParentCluster fs path).2 (fat32GetParentCluster fs path).1.1 (looking fun _ _ =>
      findStep (filenameTo83 (fat32GetParentCluster fs path).1.2)) none from rfl,hfind]
    cases (liveSlots fs (fat32GetParentCluster fs path).1.1).find? fun t =>
      t.entry.name=filenameTo83 (fat32GetParentCluster fs path).1.2 with
    | none => rfl
    | some t =>
      by_cases hs : path.getLast?=some slash
      · cases hd : t.entry.isDirectory <;> simp [hs,hd,Option.filter]
      · simp [hs,Option.filter]

end Effects

end LugalOS.Fat32
