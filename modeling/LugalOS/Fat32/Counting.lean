import LugalOS.Fat32.Contents
import LugalOS.Fat32.Creating
import LugalOS.Lib.Run
import Mathlib.Data.Nat.Count

namespace LugalOS.Fat32

open CString Linked Run

section count

variable {l : Layout} {fs fs' : Fat32Fs} {c v : Nat}

def freeClusters (fs : Fat32Fs) : Finset Nat :=
  (Finset.range (fs.totalClusters+2)).filter fun c => 2≤c ∧ fs.entry c=some 0

/-- A volume that knows how many clusters are free, or that it does not know. -/
structure Counted (l : Layout) (fs : Fat32Fs) : Prop where
  layout : fs.toLayout=l
  mounted : Mounted fs
  narrow : fs.Narrow
  readable : Readable fs
  count : fs.freeCount=freeUnknown ∨ fs.freeCount=(freeClusters fs).card

theorem mem_freeClusters : c∈freeClusters fs ↔ fs.HasCluster c ∧ fs.entry c=some 0 := by
  rw [freeClusters,Finset.mem_filter,Finset.mem_range,Layout.HasCluster]
  tauto

theorem Counted.grows (h : Counted l fs) (hg : Grows fs fs')
    (hc : fs'.freeCount=freeUnknown ∨ fs'.freeCount=(freeClusters fs').card) : Counted l fs' :=
  ⟨hg.layout.trans h.layout,h.mounted.grows hg,by rw [hg.layout]; exact h.narrow,
    hg.readable h.readable,hc⟩

theorem freeClusters_congr (hl : fs'.toLayout=fs.toLayout)
    (he : ∀c,fs.HasCluster c → fs'.entry c=fs.entry c) : freeClusters fs'=freeClusters fs := by
  ext c
  rw [mem_freeClusters,mem_freeClusters,hl]
  exact and_congr_right fun hc => by rw [he c hc]

theorem Counted.stores {S : Nat → Prop} (h : Counted l fs) (hs : Stores S fs fs') : Counted l fs' :=
  h.grows hs.toGrows (by
    rw [hs.freeCount,freeClusters_congr hs.layout (hs.entry h.mounted.sound)]
    exact h.count)

theorem Counted.keeps (h : Counted l fs) (hk : Keeps fs fs') : Counted l fs' := h.stores hk.stores

theorem freeClusters_set (hl : fs'.toLayout=fs.toLayout) (hc : fs.HasCluster c)
    (hv : fs'.entry c=some v) (ho : ∀d,fs.HasCluster d → d≠c → fs'.entry d=fs.entry d) :
    freeClusters fs'=if v=0 then insert c (freeClusters fs) else (freeClusters fs).erase c := by
  ext d
  by_cases hd : d=c
  · subst hd
    split <;> simpa [mem_freeClusters,hl,hc,hv]
  · have he : fs.HasCluster d → fs'.entry d=fs.entry d := fun h => ho d h hd
    split <;> simp only [Finset.mem_insert,Finset.mem_erase,mem_freeClusters,hl,hd,false_or,ne_eq,
      not_false_eq_true,true_and] <;> exact and_congr_right fun h => by rw [he h]

theorem Counted.alloc (h : Counted l fs) : Counted l (fatAllocCluster fs).2 := by
  rcases fatAllocCluster_spec fs h.mounted with ⟨-,hx⟩ | ha
  · refine h.grows hx.toGrows ?_
    rw [freeClusters_congr hx.layout hx.entries]
    rcases hx.why with ⟨⟨c,hc,hn⟩,-⟩ | ⟨hall,h0⟩
    · obtain ⟨v,hv⟩ := h.readable.entry h.mounted hc
      rw [hv] at hn
      cases hn
    · refine .inr (h0.trans (Finset.card_eq_zero.mpr ?_).symm)
      exact Finset.eq_empty_of_forall_notMem fun c hc =>
        hall c (mem_freeClusters.mp hc).1 (mem_freeClusters.mp hc).2
  · have hmem := mem_freeClusters.mpr ⟨ha.cluster,ha.free⟩
    have hstop : (fatAllocCluster fs).2.entry (fatAllocCluster fs).1=some endMark := by
      rw [ha.entries _ ha.cluster,if_pos rfl,ha.free]
      rfl
    refine h.grows ha.toGrows ?_
    rw [freeClusters_set ha.layout ha.cluster hstop fun d hd hne =>
      (ha.spares h.narrow).entry d hd hne,if_neg (by decide),Finset.card_erase_of_mem hmem,
      ha.freeCount]
    have hpos := Finset.card_pos.mpr ⟨_,hmem⟩
    rcases h.count with hu | hk
    · rw [hu]
      exact .inl rfl
    · split
      · exact .inl rfl
      · split <;> omega

theorem Counted.link (h : Counted l fs) (hc : fs.HasCluster c) (h0 : fs.entry c≠some 0)
    (hv : v%2^28≠0) : Counted l (fatSetEntry fs c v) := by
  have hs := fatSetEntry_spec fs h.mounted c v hc
  refine h.grows hs.toGrows ?_
  rw [hs.freeCount,freeClusters_set hs.layout hc (fatSetEntry_entry h.mounted h.readable v hc)
    fun d hd hne => (fatSetEntry_others h.mounted h.narrow v hc).entry d hd hne,if_neg hv,
    Finset.erase_eq_of_notMem fun hm => h0 (mem_freeClusters.mp hm).2]
  exact h.count

theorem Counted.freed (h : Counted l fs) (hc : fs.HasCluster c) (h0 : fs.entry c≠some 0) :
    Counted l (countFreed (fatSetEntry fs c 0) c) := by
  have hs := fatSetEntry_spec fs h.mounted c 0 hc
  refine h.grows (hs.toGrows.trans (Grows.counters _ _ _ _ _ _ _)) ?_
  have hset := freeClusters_set hs.layout hc (fatSetEntry_entry h.mounted h.readable 0 hc)
    fun d hd hne => (fatSetEntry_others h.mounted h.narrow 0 hc).entry d hd hne
  rw [if_pos (by decide)] at hset
  have hcard := congrArg Finset.card hset
  rw [Finset.card_insert_of_notMem fun hm => h0 (mem_freeClusters.mp hm).2] at hcard
  have hfc : (countFreed (fatSetEntry fs c 0) c).freeCount=
      if fs.freeCount≠freeUnknown then fs.freeCount+1 else fs.freeCount := by
    simp only [countFreed,hs.freeCount]
  rw [hfc,show freeClusters (countFreed (fatSetEntry fs c 0) c)=
    freeClusters (fatSetEntry fs c 0) from rfl,hcard]
  rcases h.count with hu | hk
  · rw [hu]
    exact .inl rfl
  · split <;> omega

theorem Counted.freeChainLoop (n : Nat) (h : Counted l fs) (c : Nat) :
    Counted l (freeChainLoop n fs c) := by
  induction n generalizing fs c with
  | zero => exact ⟨h.layout,⟨h.mounted.sound,h.mounted.info,h.mounted.cache⟩,h.narrow,h.readable,h.count⟩
  | succ n ih =>
    unfold Fat32.freeChainLoop
    by_cases hout : c<2 ∨ c≥fs.endCluster
    · rw [if_pos hout]
      exact h
    rw [if_neg hout]
    have hc := (h.mounted.sound.hasCluster_iff c).mp hout
    have hk := fatGetEntry_keeps fs h.mounted c
    have hc1 : (fatGetEntry fs c).2.HasCluster c := by
      rw [hk.layout]
      exact hc
    dsimp only
    by_cases h0 : (fatGetEntry fs c).1=0
    · rw [if_pos h0]
      exact h.keeps hk
    rw [if_neg h0]
    have hused : (fatGetEntry fs c).2.entry c≠some 0 := by
      rw [hk.entry h.mounted.sound c hc]
      intro hz
      exact h0 (by rw [fatGetEntry_eq fs h.mounted c hc,hz]; rfl)
    have hf := (h.keeps hk).freed hc1 hused
    split
    · exact hf
    · exact ih hf _

theorem Counted.free (h : Counted l fs) (first : Nat) : Counted l (fat32FreeChain fs first) :=
  Counted.freeChainLoop _ (h.grows (Grows.counters fs _ _ _ _ _ (fs.gen+1)) h.count) first

end count

section files

variable {l : Layout} {fs fs' : Fat32Fs} {c cur : Nat}

/-- A cluster of the volume that is not free. -/
def Taken (fs : Fat32Fs) (c : Nat) : Prop := fs.HasCluster c ∧ fs.entry c≠some 0

theorem Taken.spares (h : Taken fs c) (hs : Spares (· =c) fs fs') : Taken fs' c := by
  rw [Taken,hs.layout,hs.entry c h.1 rfl]
  exact h

theorem Taken.stores {S : Nat → Prop} (h : Taken fs c) (m : Mounted fs) (hs : Stores S fs fs') :
    Taken fs' c := by
  rw [Taken,hs.layout,hs.entry m.sound c h.1]
  exact h

theorem Taken.alloc (h : Taken fs c) (hc : Counted l fs) : Taken (fatAllocCluster fs).2 c :=
  h.spares (alloc_spares hc.mounted hc.narrow fun _ _ hd => hd ▸ h.2)

theorem Allocates.taken (h : Allocates fs c fs') : Taken fs' c := by
  rw [Taken,h.layout,h.entries c h.cluster,if_pos rfl,h.free]
  exact ⟨h.cluster,by decide⟩

theorem Counted.chain (h : Counted l fs) (hcur : Taken fs cur) (hc : Taken fs c) (hne : c≠cur) :
    Counted l (fatSetEntry fs cur c) ∧ Taken (fatSetEntry fs cur c) c := by
  have h1 := hc.1.1
  have h2 := hc.1.2
  have hn := h.narrow
  unfold Layout.Narrow endOfChain at hn
  exact ⟨h.link hcur.1 hcur.2 (by omega),
    hc.spares (fatSetEntry_spares h.mounted h.narrow c hcur.1 hne.symm)⟩

theorem Counted.place (buf : Bytes) (n : Nat) {first : Nat} {err : Bool} (h : Counted l fs)
    (hcur : c=0 ∨ Taken fs cur) : Counted l (placeClusters buf n c first cur err fs).2 := by
  induction n generalizing c first cur err fs with
  | zero => exact h
  | succ n ih =>
    rw [placeClusters_succ]
    have halloc := h.alloc
    rcases fatAllocCluster_spec fs h.mounted with ⟨h0,-⟩ | ha
    · rw [if_pos h0]
      exact halloc
    rw [if_neg ha.pos]
    obtain ⟨g,hg⟩ : ∃g,g=if c=0 then (fatAllocCluster fs).2 else
        fatSetEntry (fatAllocCluster fs).2 cur (fatAllocCluster fs).1 := ⟨_,rfl⟩
    have hlink : Counted l g ∧ Taken g (fatAllocCluster fs).1 := by
      rw [hg]
      split
      · exact ⟨halloc,ha.taken⟩
      next h0 =>
        have ht := hcur.resolve_left h0
        exact halloc.chain (ht.alloc h) ha.taken fun he => ht.2 (he ▸ ha.free)
    have hone : placeOne buf fs c cur err=
        fillCluster buf (g.clusterToLba (fatAllocCluster fs).1) c g.bpc g.spc 0 err g := by
      rw [hg]
      rfl
    have hfill := fillCluster_stores buf c g.bpc hlink.1.mounted hlink.2.1
      (show g.spc+0≤_ from hlink.1.mounted.sound.spc_eq.le) err
    rw [hone]
    exact ih (hlink.1.stores hfill) (.inr (hlink.2.stores hlink.1.mounted hfill))

theorem Counted.claim (h : Counted l fs) {d : Nat} (hp : Proper fs d) {ctx : WriteSlot}
    (hok : ctx.Ok l) : Counted l (dirClaimSlot fs d ctx).2 ∧
      ∀ctx',(dirClaimSlot fs d ctx).1=some ctx' → l.InData ctx'.lba := by
  unfold dirClaimSlot
  split
  next hge =>
    refine ⟨h,fun ctx' he => ?_⟩
    cases he
    exact (hok (.inl hge)).1
  next =>
    have hk := lastCluster_keeps maxDirClusters h.mounted d
    have hlast : ∀last,(lastCluster maxDirClusters fs d).1=some last → Taken fs last := by
      intro last hr
      obtain ⟨r,hr'⟩ := hp
      obtain ⟨l0,hl0⟩ := lastCluster_ends _ h.mounted hr' hr
      have hmem : last∈d::r := by simp [hl0]
      exact ⟨ends_has hr' last hmem,ends_used hr' last hmem⟩
    generalize lastCluster maxDirClusters fs d=r at hk hlast ⊢
    obtain ⟨o,fs1⟩ := r
    have h1 := h.keeps hk
    cases o with
    | none => exact ⟨h1,fun _ he => by cases he⟩
    | some last =>
      dsimp only
      split
      next => exact ⟨h1.alloc,fun _ he => by cases he⟩
      next hn =>
        rw [not_or] at hn
        have ht := (hlast last rfl).stores h.mounted hk.stores
        have ha := (fatAllocCluster_spec fs1 h1.mounted).resolve_left fun h => hn.2 h.1
        have h2 := h1.alloc
        have hz := (zeroCluster_stores _ h2.mounted _ ha.taken.1).1
        have h3 := h2.stores hz
        have h4 := h3.chain ((ht.alloc h1).stores h2.mounted hz) (ha.taken.stores h2.mounted hz)
          hn.1
        refine ⟨h4.1,fun ctx' he => ?_⟩
        cases he
        have hin := Layout.dataLba_inData _ 0 h4.2.1 h4.1.mounted.sound.spcPos
        rw [← h4.1.mounted.sound.clusterToLba _ h4.2.1] at hin
        rw [WriteSlot.lba,slotLba_ok _ h4.1.mounted.sound _ hin,← h4.1.layout]
        exact hin

theorem Counted.put (h : Counted l fs) {lba : Nat} (hin : l.InData lba) (s : Sector) :
    Counted l (fs.write .data lba s).2 :=
  h.stores (write_stores fs h.mounted lba s (by rw [h.layout]; exact hin))

theorem Counted.rewrite (h : Counted l fs) {lba : Nat} (hin : l.InData lba)
    (f : Sector → Sector) : Counted l (rewriteSlot fs lba f).2 := by
  unfold rewriteSlot
  split
  · exact h
  · exact h.put hin _

theorem Counted.freeIf (h : Counted l fs) (p : Prop) [Decidable p] (first : Nat) :
    Counted l (if p then fat32FreeChain fs first else fs) := by
  split
  · exact h.free first
  · exact h

theorem Counted.writeInto (h : Counted l fs) (name83 buf : Bytes) {ctx : WriteSlot}
    (hin : l.InData ctx.lba) : Counted l (writeInto fs name83 buf ctx).2 := by
  have h1 := h.freeIf (ctx.nameMatched ∧ ctx.existing.fstClus≠0) ctx.existing.fstClus
  unfold Fat32.writeInto
  generalize (if ctx.nameMatched ∧ ctx.existing.fstClus≠0 then
    fat32FreeChain fs ctx.existing.fstClus else fs)=g at h1 ⊢
  dsimp only
  generalize (buf.length+g.bpc-1)%2^32/g.bpc=needed
  have h2 : Counted l (placeClusters buf needed 0 0 0 false g).2 := h1.place buf needed (.inl rfl)
  generalize placeClusters buf needed 0 0 0 false g=r at h2 ⊢
  obtain ⟨⟨o,first⟩,fs2⟩ := r
  cases o with
  | none =>
    dsimp only
    split
    · exact (h2.freeIf _ _).rewrite hin _
    · exact h2.freeIf _ _
  | some p =>
    dsimp only
    split
    · exact h2.freeIf _ _
    · exact h2.put hin _

theorem Counted.makeInto (h : Counted l fs) (parent : Nat) (name83 : Bytes) {ctx : WriteSlot}
    (hin : l.InData ctx.lba) : Counted l (makeInto fs parent name83 ctx).2 := by
  unfold Fat32.makeInto
  dsimp only
  have h1 := h.alloc
  rcases fatAllocCluster_spec fs h.mounted with ⟨h0,-⟩ | ha
  · rw [if_pos h0]
    exact h1
  rw [if_neg ha.pos]
  have hc := ha.taken.1
  generalize (fatAllocCluster fs).1=clus at hc ⊢
  generalize (fatAllocCluster fs).2=g at h1 hc ⊢
  have hs := h1.mounted.sound
  have hbase : l.InData (g.clusterToLba clus) := by
    rw [← h1.layout,hs.clusterToLba clus hc]
    exact Layout.dataLba_inData clus 0 hc hs.spcPos
  generalize dotEntries clus (if parent=g.rootDirCluster then 0 else parent)=dots
  have h2 := h1.put hbase dots
  have hlay := h2.layout.trans h1.layout.symm
  generalize g.write .data (g.clusterToLba clus) dots=w at h2 hlay ⊢
  rw [← hlay] at hc hs ⊢
  split
  · exact h2.free clus
  have h3 := h2.stores (zeroRest_stores (w.2.bpb.secPerClus-1) h2.mounted (s := 1) hc
    (Nat.sub_add_cancel hs.spcPos).le)
  split
  · exact h3.free clus
  have h4 := h3.rewrite hin fun sec =>
    putSize (putClus (putAttr (putName sec ctx.freeSlot name83) ctx.freeSlot attrDirectory)
      ctx.freeSlot clus) ctx.freeSlot 0
  split
  · exact h4.free clus
  · exact h4

theorem Counted.into (h : Counted l fs) {d : Nat} (hp : Proper fs d) {ctx : WriteSlot}
    (hok : ctx.Ok l) {f : WriteSlot → Fat32Fs → Bool×Fat32Fs}
    (hf : ∀ctx g,Counted l g → l.InData ctx.lba → Counted l (f ctx g).2) :
    Counted l (match dirClaimSlot fs d ctx with
      | (none,fs) => (false,fs)
      | (some ctx,fs) => f ctx fs).2 := by
  obtain ⟨h1,h2⟩ := h.claim hp hok
  generalize dirClaimSlot fs d ctx=r at h1 h2 ⊢
  obtain ⟨o,g⟩ := r
  cases o with
  | none => exact h1
  | some ctx => exact hf ctx g h1 (h2 ctx rfl)

/-- The directory a path leads to, if it leads to one, has a chain that ends. -/
def Leads (fs : Fat32Fs) (path : Bytes) : Prop :=
  (fat32GetParentCluster fs path).1.1≠0 → Proper fs (fat32GetParentCluster fs path).1.1

theorem Counted.writeFile (h : Counted l fs) {path : Bytes} (hp : Leads fs path) (buf : Bytes) :
    Counted l (fat32WriteFile fs path buf).2 := by
  rw [fat32WriteFile_eq]
  split
  · exact h
  split
  · exact h.keeps (getParent_keeps fs h.mounted path)
  next hn =>
    rw [not_or] at hn
    have hk := writeScan_keeps h.mounted path
    have hg := getParent_keeps fs h.mounted path
    have hok := (writeSlot_keeps _ (hg.mounted h.mounted)
      (filenameTo83 (fat32GetParentCluster fs path).1.2) (fat32GetParentCluster fs path).1.1).2
    rw [hg.layout,h.layout] at hok
    exact (h.keeps hk).into (hk.stores.chainOf h.mounted (hp hn.1)).2 hok
      fun _ _ hc hin => hc.writeInto _ _ hin

theorem Counted.mkdir (h : Counted l fs) {path : Bytes} (hp : Leads fs path) :
    Counted l (fat32Mkdir fs path).2 := by
  have hg := getParent_keeps fs h.mounted path
  have hf := hg.trans (findFile_keeps _ (hg.mounted h.mounted) path)
  rw [fat32Mkdir_eq]
  split
  · exact h.keeps hg
  next hn =>
    split
    · exact h.keeps hf
    rw [not_or] at hn
    have hk := (makeScan_spec h.mounted path).1
    have hok := (writeSlot_keeps _ (hf.mounted h.mounted)
      (filenameTo83 (fat32GetParentCluster fs path).1.2) (fat32GetParentCluster fs path).1.1).2
    rw [hf.layout,h.layout] at hok
    exact (h.keeps hk).into (hk.stores.chainOf h.mounted (hp hn.1)).2 hok
      fun _ _ hc hin => hc.makeInto _ _ hin

theorem Counted.removeEntry (h : Counted l fs) (path : Bytes) (wantDir : Bool) :
    Counted l (fat32RemoveEntry fs path wantDir).2 := by
  have h1 := h.keeps (getParent_keeps fs h.mounted path)
  unfold fat32RemoveEntry
  dsimp only
  split
  · exact h1
  refine scan_rule l (h.layout ▸ h.mounted.sound) (fun fs _ => Counted l fs) _
    (fun _ _ h => h.layout) (fun fs c _ h _ => h.keeps (fatGetEntry_keeps fs h.mounted c))
    (fun fs lba sec a h hin _ => ?_) _ _ _ h1
  refine eachEntry_rule (fun fs _ => Counted l fs) _ lba sec (fun fs i a h _ => ?_) 16 0
    (Nat.le_refl 16) fs a h
  unfold removeFileStep
  dsimp only
  split
  · exact h
  split
  · exact h
  split
  · split
    · exact h
    · exact (h.freeIf _ _).put hin _
  · exact h

theorem Counted.rmdir (h : Counted l fs) (path : Bytes) : Counted l (fat32Rmdir fs path).2 := by
  have h1 := h.keeps (findFile_keeps fs h.mounted path)
  unfold fat32Rmdir
  generalize fat32FindFile fs path=f at h1 ⊢
  obtain ⟨o,g⟩ := f
  cases o with
  | none => exact h1
  | some e =>
    dsimp only at h1 ⊢
    split
    · exact h1
    split
    · exact h1
    have h2 := h1.keeps (scan_look_keeps g h1.mounted (fun _ _ e a =>
      if e.isEnd then (true,a)
      else if e.isDeleted || dirEntryIsCorrupt e || isDotName e.name then (false,a)
      else (true,true)) e.fstClus false)
    split
    · exact h2
    · exact (h2.free _).removeEntry path true

end files

section statfs

variable {l : Layout} {fs fs' : Fat32Fs}

theorem Counted.fatSector (h : Counted l fs) {c : Nat} (hc : fs.HasCluster c) :
    fs.fatSector c=fs.fatStartSector+c/128 := by
  have hlt := hc.2
  have hn := h.narrow
  unfold Layout.Narrow endOfChain at hn
  rw [h.mounted.sound.fatSector c hc,Nat.mod_eq_of_lt (by omega)]

theorem countSector_eq {sec : Sector} {q : Nat} (h : Counted l fs)
    (hsec : fs.dev.readBlocks (fs.fatStartSector+q)=some sec) :
    countSector sec (128*q) fs.endCluster=
      Nat.count (fun i => 128*q+i∈freeClusters fs) 128 := by
  rw [Nat.count_eq_card_filter_range]
  change _=((List.range 128).filter fun i => 128*q+i∈freeClusters fs).length
  rw [countSector]
  congr 1
  refine List.filter_congr fun i hi => ?_
  have hi := List.mem_range.mp hi
  rw [decide_eq_decide,mem_freeClusters,h.mounted.sound.endCluster]
  constructor
  · rintro ⟨h1,h2,h3⟩
    refine ⟨⟨h2,h1⟩,?_⟩
    rw [Fat32Fs.entry,h.fatSector ⟨h2,h1⟩,show (128*q+i)/128=q by omega,hsec,fatWord_eq,
      show (128*q+i)%128=i by omega]
    exact congrArg some h3
  · rintro ⟨hc,h3⟩
    rw [Fat32Fs.entry,h.fatSector hc,show (128*q+i)/128=q by omega,hsec,fatWord_eq,
      show (128*q+i)%128=i by omega] at h3
    exact ⟨hc.2,hc.1,Option.some.inj h3⟩

theorem countLoop_eq (h : Counted l fs) (n q acc : Nat)
    (hlt : fs.totalClusters+2-128*q<n) (hacc : acc=Nat.count (· ∈freeClusters fs) (128*q)) :
    countLoop fs n (128*q) acc=(some (freeClusters fs).card,fs) := by
  have hend := h.mounted.sound.endCluster
  have hn := h.narrow
  unfold Layout.Narrow endOfChain at hn
  induction n generalizing q acc with
  | zero => omega
  | succ n ih =>
    unfold countLoop
    split
    next hin =>
      rw [hend] at hin
      obtain ⟨c,hc,hq⟩ : ∃c,fs.HasCluster c ∧ c/128=q := by
        have hroot := h.mounted.sound.root
        have h1 := hroot.1
        have h2 := hroot.2
        exact ⟨max 2 (128*q),⟨by omega,by omega⟩,by omega⟩
      have hsector := h.fatSector hc
      have hlow : fs.fatSector c<2^32 := Nat.mod_lt _ (by decide)
      rw [hq] at hsector
      have hread := h.readable.read (.inl (h.mounted.sound.fatSector_inFat1 c hc))
      rw [hsector] at hlow hread
      rw [show 128*q/128=q by omega,Nat.mod_eq_of_lt hlow,hread]
      dsimp only
      rw [show (128*q+128)%2^32=128*(q+1) by omega]
      refine ih (q+1) _ (by omega) ?_
      rw [Nat.mul_succ,Nat.count_add,← countSector_eq h hread,hacc]
    next hout =>
      rw [hend] at hout
      rw [hacc,Nat.count_eq_card_filter_range]
      congr 2
      congr 1
      ext c
      rw [Finset.mem_filter,Finset.mem_range]
      refine ⟨fun h => h.2,fun h => ⟨?_,h⟩⟩
      have := (mem_freeClusters.mp h).1.2
      omega

theorem Counted.sync (h : Counted l fs) : Counted l (fat32Sync fs) := by
  unfold fat32Sync
  split
  · have hk := h.keeps (fsinfoWrite_keeps fs h.mounted fs.freeCount)
    exact hk.grows (Grows.counters _ _ _ _ true _ _) hk.count
  · exact h

theorem Counted.statfs (h : Counted l fs) : Counted l (fat32Statfs fs).2 ∧
    (fat32Statfs fs).1.2=(freeClusters fs).card*(fs.bytesPerCluster/512)%2^32 := by
  have hcard : (freeClusters fs).card≤fs.totalClusters+2 := by
    have hle := Finset.card_filter_le (Finset.range (fs.totalClusters+2)) fun c =>
      2≤c ∧ fs.entry c=some 0
    rwa [Finset.card_range] at hle
  have hlt : (freeClusters fs).card≠freeUnknown := by
    have hn := h.narrow
    unfold Layout.Narrow endOfChain at hn
    unfold freeUnknown
    omega
  have hc : Counted l { fs with freeCount := (freeClusters fs).card } :=
    h.grows (Grows.counters fs _ _ _ _ _ _) (.inr rfl)
  unfold fat32Statfs
  dsimp only
  by_cases hu : fs.freeCount=freeUnknown
  · have hloop := countLoop_eq h (fs.totalClusters+3) 0 0 (by omega) rfl
    rw [Nat.mul_zero] at hloop
    rw [if_pos hu,hloop]
    exact ⟨hc.sync,by rw [if_neg hlt]⟩
  · rw [if_neg hu,if_neg hu,h.count.resolve_left hu]
    exact ⟨h.sync,rfl⟩

inductive FsCall
  | write (path buf : Bytes)
  | mkdir (path : Bytes)
  | remove (path : Bytes)
  | rmdir (path : Bytes)
  | statfs
  | recount

def FsCall.run (fs : Fat32Fs) : FsCall → Fat32Fs
  | .write path buf => (fat32WriteFile fs path buf).2
  | .mkdir path => (fat32Mkdir fs path).2
  | .remove path => (fat32RemoveFile fs path).2
  | .rmdir path => (fat32Rmdir fs path).2
  | .statfs => (fat32Statfs fs).2
  | .recount => (fat32Recount fs).2

def FsCall.Fair (fs : Fat32Fs) : FsCall → Prop
  | .write path _ | .mkdir path => Leads fs path
  | _ => True

theorem Counted.recount (h : Counted l fs) (n : Nat) :
    Counted l (fat32Recount { fs with freeCount := n }).2 := by
  have hg : Counted l { fs with freeCount := freeUnknown, modified := true, fsinfoValid := false } :=
    h.grows (Grows.counters fs _ _ _ false true _) (.inl rfl)
  exact hg.statfs.1

theorem Counted.call (h : Counted l fs) {c : FsCall} (hc : c.Fair fs) : Counted l (c.run fs) := by
  cases c with
  | write path buf => exact h.writeFile hc buf
  | mkdir path => exact h.mkdir hc
  | remove path => exact h.removeEntry path false
  | rmdir path => exact h.rmdir path
  | statfs => exact h.statfs.1
  | recount => exact h.recount fs.freeCount

/-- In every run of file operations a count that was right, or not known, stays so: statfs then
tells the blocks that are free, and a recount finds them whatever the count said. -/
theorem free_count_exact {s : Fat32Fs} {calls : List FsCall} (h : Counted l fs)
    (hr : Reach (fun s c s' => c.Fair s ∧ s'=c.run s) fs calls s) :
    (fat32Statfs s).1.2=(freeClusters s).card*(s.bytesPerCluster/512)%2^32 ∧
    ∀n,(fat32Statfs (fat32Recount { s with freeCount := n }).2).1.2=
      (freeClusters (fat32Recount { s with freeCount := n }).2).card*(l.bytesPerCluster/512)%2^32 := by
  have hs : Counted l s := hr.invariant (fun _ s => Counted l s) h fun _ s c s' hs hc => by
    rw [hc.2]
    exact hs.call hc.1
  refine ⟨hs.statfs.2,fun n => ?_⟩
  have hn := hs.recount n
  rw [hn.statfs.2,hn.layout]

/-- A file is written into a volume with one directory. -/
theorem free_count_exact_file :
    let s := (fat32WriteFile volumeWithDir (ofString "A") [1,2,3]).2
    (fat32Statfs s).1.2=(freeClusters s).card*(s.bytesPerCluster/512)%2^32 := by
  have hc : Counted volumeWithDir.toLayout volumeWithDir :=
    ⟨rfl,volumeWithDir_mounted,volumeWithDir_orderly.narrow,volumeWithDir_readable,
      .inl (by decide +kernel)⟩
  have hp : (fat32GetParentCluster volumeWithDir (ofString "A")).1.1=
    volumeWithDir.rootDirCluster := by decide +kernel
  have hl : FsCall.Fair volumeWithDir (.write (ofString "A") [1,2,3]) := fun _ => by
    rw [hp]
    exact volumeWithDir_consistent.root
  exact (free_count_exact hc (Reach.start.next ⟨hl,rfl⟩)).1

end statfs

end LugalOS.Fat32
