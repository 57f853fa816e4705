import LugalOS.Fat32.Table
import Mathlib.Order.Interval.Finset.Nat

namespace LugalOS.Fat32

/-- Data writes to sectors of S: the rest of the data, the first FAT copy and the allocator's
state stay. -/
structure Stores (S : Nat → Prop) (fs fs' : Fat32Fs) : Prop extends Grows fs fs' where
  inData : ∀lba,S lba → fs.InData lba
  reads : ∀lba,fs.InFat1 lba ∨ fs.InData lba → ¬S lba →
    fs'.dev.readBlocks lba=fs.dev.readBlocks lba
  freeCount : fs'.freeCount=fs.freeCount
  nextFree : fs'.nextFree=fs.nextFree
  gen : fs'.gen=fs.gen

theorem Keeps.stores {fs fs' : Fat32Fs} (h : Keeps fs fs') : Stores (fun _ => False) fs fs' :=
  ⟨h.toGrows,fun _ => False.elim,fun lba hl _ => h.reads lba hl,h.freeCount,h.nextFree,h.gen⟩

theorem Stores.trans {S T : Nat → Prop} {a b c : Fat32Fs} (h : Stores S a b) (h' : Stores T b c) :
    Stores (fun lba => S lba ∨ T lba) a c := by
  have hin : ∀lba,T lba → a.InData lba := by
    intro lba ht
    have := h'.inData lba ht
    rwa [h.layout] at this
  refine ⟨h.toGrows.trans h'.toGrows,fun lba hs => hs.elim (h.inData lba) (hin lba),?_,
    h'.freeCount.trans h.freeCount,h'.nextFree.trans h.nextFree,h'.gen.trans h.gen⟩
  intro lba hl hs
  rw [not_or] at hs
  rw [h'.reads lba (by rw [h.layout]; exact hl) hs.2,h.reads lba hl hs.1]

theorem Stores.mono {S T : Nat → Prop} {a b : Fat32Fs} (h : Stores S a b)
    (hst : ∀lba,S lba → T lba) (hin : ∀lba,T lba → a.InData lba) : Stores T a b :=
  ⟨h.toGrows,hin,fun lba hl hn => h.reads lba hl fun hs => hn (hst lba hs),h.freeCount,
    h.nextFree,h.gen⟩

theorem Stores.entry {S : Nat → Prop} {fs fs' : Fat32Fs} (h : Stores S fs fs')
    (hs : fs.toLayout.Sound) (c : Nat) (hc : fs.HasCluster c) : fs'.entry c=fs.entry c := by
  have hf := hs.fatSector_inFat1 c hc
  have hsec : fs'.fatSector c=fs.fatSector c := by rw [h.layout]
  rw [Fat32Fs.entry,Fat32Fs.entry,hsec,
    h.reads _ (.inl hf) fun hS => (h.inData _ hS).not_inFat1 hs hf]

theorem write_stores (fs : Fat32Fs) (m : Mounted fs) (lba : Nat) (s : Sector)
    (hl : fs.InData lba) : Stores (· =lba) fs (fs.write .data lba s).2 :=
  ⟨write_data_grows fs m lba s hl,fun _ h => by rw [h]; exact hl,
    fun lba' _ hn => write_read_ne fs .data lba lba' s hn,rfl,rfl,rfl⟩

/-- The sectors of a cluster from number s on. -/
def Layout.FromSector (l : Layout) (c s lba : Nat) : Prop :=
  ∃k,s≤k ∧ k<l.bpb.secPerClus ∧ lba=l.dataLba c k

theorem Layout.FromSector.inData {l : Layout} {c s lba : Nat} (hc : l.HasCluster c)
    (h : l.FromSector c s lba) : l.InData lba := by
  obtain ⟨k,_,hk,rfl⟩ := h
  exact Layout.dataLba_inData c k hc hk

theorem zeroSectors_stores (fs : Fat32Fs) (m : Mounted fs) (c n s : Nat) (hc : fs.HasCluster c)
    (hn : n+s=fs.bpb.secPerClus) :
    Stores (fs.FromSector c s) fs (zeroSectors (fs.clusterToLba c) n s fs) ∧
      ∀k,s≤k → k<fs.bpb.secPerClus →
        (zeroSectors (fs.clusterToLba c) n s fs).dev.readBlocks (fs.dataLba c k)=
          (fs.dev.readBlocks (fs.dataLba c k)).map fun _ => zeroSector := by
  induction n generalizing s fs with
  | zero =>
    refine ⟨(Keeps.refl fs).stores.mono (fun _ => False.elim) fun lba h => h.inData hc,?_⟩
    intro k h1 h2
    omega
  | succ n ih =>
    have hs : s<fs.bpb.secPerClus := by omega
    have hlba := m.sound.sectorLba c s hc hs
    have hin := Layout.dataLba_inData c s hc hs
    have hw := write_stores fs m (fs.dataLba c s) zeroSector hin
    have hi := ih (fs.write .data (fs.dataLba c s) zeroSector).2 (m.grows hw.toGrows) (s+1) hc
      (by change n+(s+1)=fs.bpb.secPerClus; omega)
    unfold zeroSectors
    rw [hlba]
    refine ⟨(hw.trans hi.1).mono ?_ fun lba h => h.inData hc,?_⟩
    · rintro lba (rfl | ⟨k,h1,h2,rfl⟩)
      · exact ⟨s,Nat.le_refl s,hs,rfl⟩
      · exact ⟨k,by omega,h2,rfl⟩
    · intro k h1 h2
      by_cases hk : k=s
      · subst hk
        have hself : ¬(fs.write .data (fs.dataLba c k) zeroSector).2.FromSector c (k+1)
            (fs.dataLba c k) := by
          rintro ⟨j,hj,_,he⟩
          have : fs.dataLba c k=fs.dataLba c j := he
          simp only [Layout.dataLba] at this
          omega
        have hr := hi.1.reads (fs.dataLba c k) (.inr hin) hself
        refine hr.trans ?_
        by_cases hb : fs.dataLba c k<fs.dev.numBlocks
        · rw [write_read_self fs .data _ _ hb,BlockDev.readBlocks,if_pos hb]
          rfl
        · simp only [BlockDev.readBlocks,Fat32Fs.write,BlockDev.writeBlocks,if_neg hb]
          rfl
      · have hr := hi.2 k (by omega) h2
        refine hr.trans ?_
        rw [show (fs.write .data (fs.dataLba c s) zeroSector).2.dataLba c k=fs.dataLba c k from rfl,
          write_read_ne]
        simp only [Layout.dataLba]
        omega

theorem zeroCluster_stores (fs : Fat32Fs) (m : Mounted fs) (c : Nat) (hc : fs.HasCluster c) :
    Stores (fs.FromSector c 0) fs (zeroCluster fs c) ∧
      ∀k,k<fs.bpb.secPerClus → (zeroCluster fs c).dev.readBlocks (fs.dataLba c k)=
        (fs.dev.readBlocks (fs.dataLba c k)).map fun _ => zeroSector := by
  have h := zeroSectors_stores fs m c fs.bpb.secPerClus 0 hc rfl
  exact ⟨h.1,fun k hk => h.2 k (Nat.zero_le k) hk⟩

/-- The clusters whose entry reads and is not zero. -/
def usedClusters (fs : Fat32Fs) : Finset Nat :=
  (Finset.Ico 2 (fs.totalClusters+2)).filter fun c => fs.entry c≠none ∧ fs.entry c≠some 0

theorem usedClusters_card (fs : Fat32Fs) : (usedClusters fs).card≤fs.totalClusters := by
  have h := Finset.card_filter_le (Finset.Ico 2 (fs.totalClusters+2))
    fun c => fs.entry c≠none ∧ fs.entry c≠some 0
  rw [Nat.card_Ico] at h
  exact h

/-- Bound on the steps still to go: an entry zeroed counts twice, since an unreadable one may
come in between. -/
def freeSteps (fs : Fat32Fs) (clus : Nat) : Nat :=
  2*(usedClusters fs).card+if fs.entry clus=none ∧ clus≠endMark then 1 else 0

theorem freeChainLoop_grows (n : Nat) (fs : Fat32Fs) (m : Mounted fs) (clus : Nat) (h0 : 0<n)
    (hn : fs.HasCluster clus → freeSteps fs clus<n) : Grows fs (freeChainLoop n fs clus) := by
  induction n generalizing fs clus with
  | zero => omega
  | succ n ih =>
    unfold freeChainLoop
    by_cases hc : clus<2 ∨ clus≥fs.endCluster
    · rw [if_pos hc]
      exact Grows.refl fs
    rw [if_neg hc]
    have hclus := (m.sound.hasCluster_iff clus).mp hc
    have hn' := hn hclus
    have hk := fatGetEntry_keeps fs m clus
    have m1 := m.grows hk.toGrows
    have hnext := fatGetEntry_eq fs m clus hclus
    dsimp only
    by_cases hz : (fatGetEntry fs clus).1=0
    · rw [if_pos hz]
      exact hk.toGrows
    rw [if_neg hz]
    have hset := fatSetEntry_spec _ m1 clus 0 (by rw [hk.layout]; exact hclus)
    -- the counters change, the table does not
    generalize hfs3 : countFreed (fatSetEntry (fatGetEntry fs clus).2 clus 0) clus=fs3
    have h3 : Grows fs fs3 ∧ ∀c',fs.HasCluster c' → fs3.entry c'=
        if c'%2^30=clus%2^30 then (fs.entry c').map fun _ => 0 else fs.entry c' := by
      rw [←hfs3]
      refine ⟨(hk.toGrows.trans hset.toGrows).trans (Grows.counters _ _ _ _ _ _ _),?_⟩
      intro c' hc'
      have he := hset.entries c' (by rw [hk.layout]; exact hc')
      rw [hk.entry m.sound c' hc'] at he
      exact he
    obtain ⟨hg3,hent3⟩ := h3
    by_cases hself : (fatGetEntry fs clus).1=clus
    · rw [if_pos hself]
      exact hg3
    rw [if_neg hself]
    refine hg3.trans (ih fs3 (m.grows hg3) _ ?_ ?_)
    · unfold freeSteps at hn'
      by_contra hn0
      have hn1 : n=0 := by omega
      subst hn1
      have hcard : (usedClusters fs).card=0 := by omega
      have hnone : ¬(fs.entry clus=none ∧ clus≠endMark) := by
        intro hh
        rw [if_pos hh] at hn'
        omega
      cases he : fs.entry clus with
      | none =>
        rw [he] at hnext
        have : clus=endMark := by
          by_contra hne
          exact hnone ⟨he,hne⟩
        exact hself (by rw [hnext,this]; rfl)
      | some x =>
        rw [he] at hnext
        have hx : x≠0 := fun h => hz (by rw [hnext,h]; rfl)
        have hmem : clus∈usedClusters fs := by
          simp only [usedClusters,Finset.mem_filter,Finset.mem_Ico]
          exact ⟨hclus,by rw [he]; simp,by rw [he]; simpa using hx⟩
        have := Finset.card_pos.mpr ⟨clus,hmem⟩
        omega
    · intro hnc
      have hsub : usedClusters fs3⊆usedClusters fs := by
        intro x hx
        simp only [usedClusters,Finset.mem_filter,Finset.mem_Ico,hg3.layout] at hx ⊢
        obtain ⟨hr,h1,h2⟩ := hx
        rw [hent3 x hr] at h1 h2
        split at h1
        next ha =>
          rw [if_pos ha] at h2
          cases he : fs.entry x with
          | none => rw [he] at h1; exact absurd rfl h1
          | some y => rw [he] at h2; exact absurd rfl h2
        next ha =>
          rw [if_neg ha] at h2
          exact ⟨hr,h1,h2⟩
      have hle := Finset.card_le_card hsub
      cases he : fs.entry clus with
      | none =>
        rw [he] at hnext
        have hne : clus≠endMark := by
          rintro rfl
          exact hself (by rw [hnext]; rfl)
        have hne' : (fatGetEntry fs clus).1=endMark := by rw [hnext]; rfl
        unfold freeSteps at hn' ⊢
        rw [if_pos ⟨he,hne⟩] at hn'
        rw [hne',if_neg (by simp)]
        omega
      | some x =>
        rw [he] at hnext
        have hx : x≠0 := fun h => hz (by rw [hnext,h]; rfl)
        have hlt : (usedClusters fs3).card<(usedClusters fs).card := by
          apply Finset.card_lt_card
          refine ⟨hsub,fun hback => ?_⟩
          have hmem : clus∈usedClusters fs := by
            simp only [usedClusters,Finset.mem_filter,Finset.mem_Ico]
            exact ⟨hclus,by rw [he]; simp,by rw [he]; simpa using hx⟩
          have hm3 := hback hmem
          simp only [usedClusters,Finset.mem_filter] at hm3
          rw [hent3 clus hclus,if_pos rfl,he] at hm3
          exact hm3.2.2 rfl
        unfold freeSteps at hn' ⊢
        split <;> omega

/-- Freeing a chain ends, on whatever the FAT holds, and stays in the FAT. -/
theorem fat32FreeChain_grows (fs : Fat32Fs) (m : Mounted fs) (first : Nat) :
    Grows fs (fat32FreeChain fs first) := by
  have hg : Grows fs { fs with gen := fs.gen+1 } := Grows.counters fs _ _ _ _ _ (fs.gen+1)
  refine hg.trans (freeChainLoop_grows _ _ (m.grows hg) first (by omega) fun _ => ?_)
  have hc := usedClusters_card { fs with gen := fs.gen+1 }
  unfold freeSteps
  simp only at hc ⊢
  split <;> omega

/-- A cluster was allocated: it was free, and its entry is now an end mark. -/
structure Allocates (fs : Fat32Fs) (c : Nat) (fs' : Fat32Fs) : Prop extends Grows fs fs' where
  cluster : fs.HasCluster c
  free : fs.entry c=some 0
  entries : ∀c',fs.HasCluster c' → fs'.entry c'=
    if c'%2^30=c%2^30 then (fs.entry c').map fun _ => endMark else fs.entry c'
  data : ∀lba,fs.InData lba → fs'.dev.readBlocks lba=fs.dev.readBlocks lba
  freeCount : fs'.freeCount=if fs.freeCount=0 then freeUnknown
    else if fs.freeCount≠freeUnknown then fs.freeCount-1 else fs.freeCount
  gen : fs'.gen=fs.gen

/-- No cluster was found: either the FAT did not read or there is no free one. -/
structure Exhausted (fs fs' : Fat32Fs) : Prop extends Grows fs fs' where
  entries : ∀c,fs.HasCluster c → fs'.entry c=fs.entry c
  data : ∀lba,fs.InData lba → fs'.dev.readBlocks lba=fs.dev.readBlocks lba
  gen : fs'.gen=fs.gen
  why : (∃c,fs.HasCluster c ∧ fs.entry c=none) ∧ fs'.freeCount=fs.freeCount ∨
    (∀c,fs.HasCluster c → fs.entry c≠some 0) ∧ fs'.freeCount=0

theorem allocTake_spec (fs : Fat32Fs) (m : Mounted fs) (c : Nat) (hc : fs.HasCluster c)
    (hf : fs.entry c=some 0) : Allocates fs c (allocTake fs c) := by
  have hs := fatSetEntry_spec fs m c endMark hc
  refine ⟨hs.toGrows.trans (Grows.counters _ _ _ _ _ _ _),hc,hf,hs.entries,hs.data,?_,hs.gen⟩
  unfold allocTake
  simp only [hs.freeCount]

/-- The clusters the search has left behind when it comes to c. -/
def Visited (start stop c c' : Nat) : Prop :=
  if start≤c then start≤c' ∧ c'<c else start≤c' ∧ c' < stop ∨ 2≤c' ∧ c'<c

/-- Clusters still to look at, c included. -/
def toVisit (start stop c : Nat) : Nat :=
  if start≤c then stop-c+(start-2) else start-c

theorem allocLoop_spec (start n c : Nat) (fs : Fat32Fs) (m : Mounted fs)
    (hs : fs.HasCluster start) (hc : fs.HasCluster c)
    (hn : n=toVisit start (fs.totalClusters+2) c)
    (hv : ∀c',fs.HasCluster c' → Visited start (fs.totalClusters+2) c c' → fs.entry c'≠some 0) :
    (allocLoop start n fs c).1=0 ∧ Exhausted fs (allocLoop start n fs c).2 ∨
      Allocates fs (allocLoop start n fs c).1 (allocLoop start n fs c).2 := by
  induction n generalizing c fs with
  | zero =>
    have h1 := hc.2
    have h2 := hs.1
    unfold toVisit at hn
    split at hn <;> omega
  | succ n ih =>
    have hk := fatReadEntry_keeps fs m c
    have hr := fatReadEntry_eq fs m c hc
    have m1 := m.grows hk.toGrows
    have hent : ∀c',fs.HasCluster c' → (fatReadEntry fs c).2.entry c'=fs.entry c' :=
      hk.entry m.sound
    have hdata : ∀lba,fs.InData lba →
        (fatReadEntry fs c).2.dev.readBlocks lba=fs.dev.readBlocks lba :=
      fun lba hl => hk.reads lba (.inr hl)
    unfold allocLoop
    rcases hfr : fatReadEntry fs c with ⟨o,fs1⟩
    rw [hfr] at hk hr m1 hent hdata
    simp only at hk hr m1 hent hdata
    cases o with
    | none =>
      refine .inl ⟨rfl,⟨hk.toGrows.trans (Grows.counters _ _ _ true _ _ _),hent,hdata,hk.gen,?_⟩⟩
      exact .inl ⟨⟨c,hc,hr.symm⟩,hk.freeCount⟩
    | some v =>
      dsimp only
      by_cases hz : v=0
      · rw [if_pos hz]
        right
        have hf : fs1.entry c=some 0 := by rw [hent c hc,←hr,hz]
        have ht := allocTake_spec fs1 m1 c (by rw [hk.layout]; exact hc) hf
        refine ⟨hk.toGrows.trans ht.toGrows,hc,by rw [←hent c hc]; exact hf,?_,?_,?_,
          ht.gen.trans hk.gen⟩
        · intro c' hc'
          rw [ht.entries c' (by rw [hk.layout]; exact hc'),hent c' hc']
        · intro lba hl
          rw [ht.data lba (by rw [hk.layout]; exact hl),hdata lba hl]
        · rw [ht.freeCount,hk.freeCount]
      rw [if_neg hz]
      have hend : fs1.endCluster=fs.totalClusters+2 := by
        have := m1.sound.endCluster
        rw [this,hk.layout]
      have hused : fs.entry c≠some 0 := by
        rw [←hr]
        simpa using hz
      have h1 := hc.1
      have h2 := hc.2
      have h3 := hs.1
      have h4 := hs.2
      generalize hc1 : (if c+1≥fs1.endCluster then 2 else c+1)=c1
      rw [hend] at hc1
      by_cases hst : c1=start
      · rw [if_pos hst]
        refine .inl ⟨rfl,⟨hk.toGrows.trans (Grows.counters _ _ _ _ _ _ _),hent,hdata,hk.gen,?_⟩⟩
        -- back at the start: every cluster was looked at
        refine .inr ⟨fun c' hc' => ?_,rfl⟩
        by_cases hcc : c'=c
        · rw [hcc]; exact hused
        · apply hv c' hc'
          have h5 := hc'.1
          have h6 := hc'.2
          unfold Visited
          split at hc1 <;> split <;> omega
      · rw [if_neg hst]
        have hc1' : fs.HasCluster c1 := by
          unfold Layout.HasCluster
          split at hc1 <;> omega
        have hn1 : n=toVisit start (fs.totalClusters+2) c1 := by
          unfold toVisit at hn ⊢
          split at hn <;> split at hc1 <;> split <;> omega
        have hv1 : ∀c',fs1.HasCluster c' → Visited start (fs1.totalClusters+2) c1 c' →
            fs1.entry c'≠some 0 := by
          intro c' hc' hvis
          have hc'' : fs.HasCluster c' := by
            have h := hc'
            rw [hk.layout] at h
            exact h
          rw [hent c' hc'']
          by_cases hcc : c'=c
          · rw [hcc]; exact hused
          · apply hv c' hc''
            have htot : fs1.totalClusters=fs.totalClusters := by rw [hk.layout]
            rw [htot] at hvis
            have h5 := hc''.1
            have h6 := hc''.2
            unfold Visited at hvis ⊢
            split at hc1 <;> split at hvis <;> split <;> omega
        have hi := ih c1 fs1 m1 (by rw [hk.layout]; exact hs) (by rw [hk.layout]; exact hc1')
          (by rw [hn1,hk.layout]) hv1
        rcases hi with ⟨h0,hx⟩ | ha
        · left
          refine ⟨h0,⟨hk.toGrows.trans hx.toGrows,?_,?_,hx.gen.trans hk.gen,?_⟩⟩
          · intro c' hc'
            rw [hx.entries c' (by rw [hk.layout]; exact hc'),hent c' hc']
          · intro lba hl
            rw [hx.data lba (by rw [hk.layout]; exact hl),hdata lba hl]
          · rcases hx.why with ⟨⟨d,hd,hn⟩,hfc⟩ | ⟨hall,hfc⟩
            · have hd' : fs.HasCluster d := by
                rw [hk.layout] at hd
                exact hd
              exact .inl ⟨⟨d,hd',by rw [←hent d hd']; exact hn⟩,hfc.trans hk.freeCount⟩
            · refine .inr ⟨fun d hd => ?_,hfc⟩
              rw [←hent d hd]
              exact hall d (by rw [hk.layout]; exact hd)
        · right
          have hcl : fs.HasCluster (allocLoop start n fs1 c1).1 := by
            have h := ha.cluster
            rw [hk.layout] at h
            exact h
          refine ⟨hk.toGrows.trans ha.toGrows,hcl,by rw [←hent _ hcl]; exact ha.free,?_,?_,?_,
            ha.gen.trans hk.gen⟩
          · intro c' hc'
            rw [ha.entries c' (by rw [hk.layout]; exact hc'),hent c' hc']
          · intro lba hl
            rw [ha.data lba (by rw [hk.layout]; exact hl),hdata lba hl]
          · rw [ha.freeCount,hk.freeCount]

theorem fatAllocCluster_spec (fs : Fat32Fs) (m : Mounted fs) :
    (fatAllocCluster fs).1=0 ∧ Exhausted fs (fatAllocCluster fs).2 ∨
      Allocates fs (fatAllocCluster fs).1 (fatAllocCluster fs).2 := by
  have hroot := m.sound.root
  have h0 : fs.totalClusters≠0 := by
    have h1 := hroot.1
    have h2 := hroot.2
    omega
  unfold fatAllocCluster
  rw [if_neg h0]
  dsimp only
  generalize hst : (if fs.nextFree≥2 ∧ fs.nextFree<fs.endCluster then fs.nextFree else 2)=start
  have hs : fs.HasCluster start := by
    rw [m.sound.endCluster] at hst
    unfold Layout.HasCluster
    split at hst <;> omega
  have hg : Grows fs { fs with allocIoError := false } := Grows.counters fs _ _ false _ _ _
  have h := allocLoop_spec start fs.totalClusters start { fs with allocIoError := false }
    (m.grows hg) hs hs
    (by
      have h1 := hs.1
      have h2 := hs.2
      unfold toVisit
      rw [if_pos (Nat.le_refl start)]
      simp only
      omega)
    (by
      intro c' _ hv
      unfold Visited at hv
      rw [if_pos (Nat.le_refl start)] at hv
      omega)
  rcases h with ⟨hz,hx⟩ | ha
  · exact .inl ⟨hz,⟨hg.trans hx.toGrows,hx.entries,hx.data,hx.gen,hx.why⟩⟩
  · exact .inr ⟨hg.trans ha.toGrows,ha.cluster,ha.free,ha.entries,ha.data,ha.freeCount,ha.gen⟩

theorem Allocates.pos {fs fs' : Fat32Fs} {c : Nat} (h : Allocates fs c fs') : c≠0 := by
  have := h.cluster.1
  omega

end LugalOS.Fat32
