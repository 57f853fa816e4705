import LugalOS.Fat32.Oracle

namespace LugalOS.Fat32

open Linked CString LittleEndian

/-- The clusters of K are left as they are. -/
structure Spares (K : Nat → Prop) (fs fs' : Fat32Fs) : Prop extends Grows fs fs' where
  entry : ∀c,fs.HasCluster c → K c → fs'.entry c=fs.entry c
  data : ∀c j,fs.HasCluster c → j<fs.bpb.secPerClus → K c →
    fs'.dev.readBlocks (fs.dataLba c j)=fs.dev.readBlocks (fs.dataLba c j)

def InUse (K : Nat → Prop) (fs : Fat32Fs) : Prop := ∀c,fs.HasCluster c → K c → fs.entry c≠some 0

/-- No more clusters than there are numbers below the end marks. -/
def Layout.Narrow (l : Layout) : Prop := l.totalClusters+2≤endOfChain

section spares

variable {K : Nat → Prop} {fs fs' : Fat32Fs}

theorem Spares.refl (K : Nat → Prop) (fs : Fat32Fs) : Spares K fs fs :=
  ⟨Grows.refl fs,fun _ _ _ => rfl,fun _ _ _ _ _ => rfl⟩

theorem Spares.trans {a b c : Fat32Fs} (h : Spares K a b) (h' : Spares K b c) : Spares K a c := by
  refine ⟨h.toGrows.trans h'.toGrows,fun x hx hk => ?_,fun x j hx hj hk => ?_⟩
  · rw [h'.entry x (by rw [h.layout]; exact hx) hk,h.entry x hx hk]
  · have hd := h'.data x j (by rw [h.layout]; exact hx) (by rw [h.layout]; exact hj) hk
    rw [h.layout] at hd
    rw [hd,h.data x j hx hj hk]

theorem Spares.mono {L : Nat → Prop} (h : Spares K fs fs') (hl : ∀c,L c → K c) :
    Spares L fs fs' :=
  ⟨h.toGrows,fun c hc hk => h.entry c hc (hl c hk),fun c j hc hj hk => h.data c j hc hj (hl c hk)⟩

theorem Keeps.spares (h : Keeps fs fs') (m : Mounted fs) : Spares K fs fs' :=
  ⟨h.toGrows,fun c hc _ => h.entry m.sound c hc,fun c j hc hj _ =>
    h.reads _ (.inr (Layout.dataLba_inData c j hc hj))⟩

theorem Spares.inUse (h : Spares K fs fs') (hu : InUse K fs) : InUse K fs' := by
  intro c hc hk
  rw [h.layout] at hc
  rw [h.entry c hc hk]
  exact hu c hc hk

theorem Grows.readable (h : Grows fs fs') (hr : Readable fs) : Readable fs' := by
  intro lba hl
  rw [h.layout] at hl
  obtain ⟨s,hs⟩ := Option.isSome_iff_exists.mp (hr lba hl)
  rw [BlockDev.readBlocks,h.blocks,if_pos (readBlocks_some fs.dev lba s hs)]
  rfl

theorem Spares.counters (K : Nat → Prop) (fs : Fat32Fs) (fc nf : Nat) (ae fv md : Bool) (g : Nat) :
    Spares K fs { fs with
      freeCount := fc, nextFree := nf, allocIoError := ae, fsinfoValid := fv, modified := md
      gen := g } :=
  ⟨Grows.counters fs fc nf ae fv md g,fun _ _ _ => rfl,fun _ _ _ _ _ => rfl⟩

theorem Layout.Narrow.alias {l : Layout} (hn : l.Narrow) {c d : Nat} (hc : l.HasCluster c)
    (hd : l.HasCluster d) : c%2^30=d%2^30 ↔ c=d := by
  have h1 := hc.2
  have h2 := hd.2
  unfold Layout.Narrow endOfChain at hn
  omega

theorem fatSetEntry_spares (m : Mounted fs) (hn : fs.Narrow) {c : Nat} (v : Nat)
    (hc : fs.HasCluster c) (hk : ¬K c) : Spares K fs (fatSetEntry fs c v) := by
  have hs := fatSetEntry_spec fs m c v hc
  refine ⟨hs.toGrows,fun x hx hkx => ?_,fun x j hx hj _ =>
    hs.data _ (Layout.dataLba_inData x j hx hj)⟩
  have hne : ¬x%2^30=c%2^30 := fun h => hk ((hn.alias hx hc).mp h ▸ hkx)
  rw [hs.entries x hx,if_neg hne]

theorem fatSetEntry_entry (m : Mounted fs) (hr : Readable fs) {c : Nat} (v : Nat)
    (hc : fs.HasCluster c) : (fatSetEntry fs c v).entry c=some (v%2^28) := by
  obtain ⟨x,hx⟩ := hr.entry m hc
  rw [(fatSetEntry_spec fs m c v hc).entries c hc,if_pos rfl,hx]
  rfl

theorem alloc_spares (m : Mounted fs) (hn : fs.Narrow) (hu : InUse K fs) :
    Spares K fs (fatAllocCluster fs).2 := by
  rcases fatAllocCluster_spec fs m with ⟨-,hx⟩ | ha
  · exact ⟨hx.toGrows,fun c hc _ => hx.entries c hc,fun c j hc hj _ =>
      hx.data _ (Layout.dataLba_inData c j hc hj)⟩
  · refine ⟨ha.toGrows,fun c hc hk => ?_,fun c j hc hj _ =>
      ha.data _ (Layout.dataLba_inData c j hc hj)⟩
    rw [ha.entries c hc]
    split
    next h =>
      have hfree := ha.free
      rw [← (hn.alias hc ha.cluster).mp h] at hfree
      exact absurd hfree (hu c hc hk)
    next => rfl

theorem stores_spares {S : Nat → Prop} (h : Stores S fs fs') (m : Mounted fs) {c : Nat}
    (hc : fs.HasCluster c)
    (hS : ∀lba,S lba → ∃j<fs.bpb.secPerClus,lba=fs.dataLba c j) (hk : ¬K c) :
    Spares K fs fs' := by
  refine ⟨h.toGrows,fun x hx _ => h.entry m.sound x hx,fun x j hx hj hkx => ?_⟩
  refine h.reads _ (.inr (Layout.dataLba_inData x j hx hj)) fun hs => ?_
  obtain ⟨i,hi,heq⟩ := hS _ hs
  exact hk (dataLba_cluster hx hc hj hi heq ▸ hkx)

theorem zeroCluster_spares (m : Mounted fs) {c : Nat} (hc : fs.HasCluster c) (hk : ¬K c) :
    Spares K fs (zeroCluster fs c) := by
  refine stores_spares (zeroCluster_stores fs m c hc).1 m hc (fun lba h => ?_) hk
  obtain ⟨j,-,hj,he⟩ := h
  exact ⟨j,hj,he⟩

theorem fillCluster_spares (buf : Bytes) (k bpc : Nat) (m : Mounted fs) {c n sct : Nat}
    (hc : fs.HasCluster c) (hn : n+sct≤fs.bpb.secPerClus) (err : Bool) (hk : ¬K c) :
    Spares K fs (fillCluster buf (fs.clusterToLba c) k bpc n sct err fs).2 := by
  refine stores_spares (fillCluster_stores buf k bpc m hc hn err) m hc (fun lba h => ?_) hk
  obtain ⟨j,-,hj,he⟩ := h
  exact ⟨j,hj,he⟩

theorem fatLink_congr (hl : fs'.toLayout=fs.toLayout) {c : Nat} (he : fs'.entry c=fs.entry c) :
    fatLink fs' c=fatLink fs c := by
  rw [fatLink,fatLink,hl,he]

theorem Spares.ends (h : Spares K fs fs') {l : List Nat} (hl : Ends (fatLink fs) l)
    (hk : ∀c∈l,K c) : Ends (fatLink fs') l :=
  hl.congr fun c hc => fatLink_congr h.layout (h.entry c (ends_has hl c hc) (hk c hc))

theorem Spares.chainOf (h : Spares K fs fs') {c : Nat} (hp : Proper fs c)
    (hk : ∀x∈chainOf fs c,K x) : chainOf fs' c=chainOf fs c ∧ Proper fs' c := by
  obtain ⟨l,hl⟩ := hp
  rw [chainOf_ends hl] at hk ⊢
  have hl' := h.ends hl hk
  exact ⟨chainOf_ends hl',l,hl'⟩

theorem Spares.dirSlots (h : Spares K fs fs') {c : Nat} (hp : Proper fs c)
    (hk : ∀x∈Fat32.chainOf fs c,K x) : dirSlots fs' c=dirSlots fs c := by
  have hchain := (h.chainOf hp hk).1
  unfold Fat32.chainOf at hchain
  unfold Fat32.dirSlots
  rw [hchain,h.layout]
  refine readSlots_congr fs.dev fs'.dev _ fun lba hl => ?_
  obtain ⟨x,hx,hl⟩ := List.mem_flatMap.mp hl
  obtain ⟨j,hj,rfl⟩ := List.mem_map.mp hl
  exact h.data x j (scanned_has fs _ c x hx) (by simpa using hj) (hk x hx)

theorem fatLink_stop {c : Nat} (h : fatLink fs c=.stop) :
    ∃v,fs.entry c=some v ∧ v≥endOfChain := by
  have hc : fs.HasCluster c := fatLink_has (by rw [h]; exact fun hb => by cases hb)
  rw [fatLink,if_pos hc] at h
  cases he : fs.entry c with
  | none =>
    rw [he] at h
    cases h
  | some v =>
    rw [he] at h
    dsimp only at h
    split at h
    next hv => exact ⟨v,rfl,hv⟩
    next => cases h

theorem fatLink_to {c d : Nat} (h : fatLink fs c=.to d) : fs.entry c=some d ∧ d<endOfChain := by
  have hc : fs.HasCluster c := fatLink_has (by rw [h]; exact fun hb => by cases hb)
  rw [fatLink,if_pos hc] at h
  cases he : fs.entry c with
  | none =>
    rw [he] at h
    cases h
  | some v =>
    rw [he] at h
    dsimp only at h
    split at h
    next => cases h
    next hv =>
      cases h
      exact ⟨rfl,by omega⟩

theorem ends_used {l : List Nat} (hl : Ends (fatLink fs) l) : ∀c∈l,fs.entry c≠some 0 := by
  induction l with
  | nil => exact fun c hc => by cases hc
  | cons a l ih =>
    intro c hc h0
    cases l with
    | nil =>
      rw [List.mem_singleton.mp hc] at h0
      obtain ⟨v,hv,hge⟩ := fatLink_stop (show fatLink fs a=.stop from hl)
      rw [h0] at hv
      cases hv
      exact absurd hge (by decide)
    | cons b l =>
      rcases List.mem_cons.mp hc with rfl | hc
      · have hto := (fatLink_to hl.1).1
        rw [h0] at hto
        have hb := ends_has hl.2 b List.mem_cons_self
        cases hto
        exact absurd hb.1 (by decide)
      · exact ih hl.2 c hc h0

/-- The links of the volume do not lead out of R. -/
def LinksIn (R : Nat → Prop) (fs : Fat32Fs) : Prop :=
  ∀c d,fs.HasCluster c → R c → fs.entry c=some d → fs.HasCluster d → R d

theorem LinksIn.entries {R : Nat → Prop} (h : LinksIn R fs) (hl : fs'.toLayout=fs.toLayout)
    (he : ∀c d,fs.HasCluster c → fs'.entry c=some d → fs.entry c=some d ∨
      (fs.HasCluster d → R d)) : LinksIn R fs' := by
  intro c d hc hr hd hcd
  rw [hl] at hc hcd
  rcases he c d hc hd with he | he
  · exact h c d hc hr he hcd
  · exact he hcd

theorem SetEntry.linksIn {R : Nat → Prop} {c v : Nat} (hs : SetEntry fs c v fs')
    (h : LinksIn R fs) (hv : fs.HasCluster (v%2^28) → R (v%2^28)) : LinksIn R fs' := by
  refine h.entries hs.layout fun x d hx hd => ?_
  rw [hs.entries x hx] at hd
  split at hd
  next =>
    obtain ⟨-,-,rfl⟩ := Option.map_eq_some_iff.mp hd
    exact .inr hv
  next => exact .inl hd

theorem LinksIn.keeps {R : Nat → Prop} (h : LinksIn R fs) (m : Mounted fs) (hk : Keeps fs fs') :
    LinksIn R fs' :=
  h.entries hk.layout fun x _ hx hd => .inl (hk.entry m.sound x hx ▸ hd)

theorem LinksIn.stores {R S : Nat → Prop} (h : LinksIn R fs) (m : Mounted fs)
    (hs : Stores S fs fs') : LinksIn R fs' :=
  h.entries hs.layout fun x _ hx hd => .inl (hs.entry m.sound x hx ▸ hd)

theorem Layout.Narrow.not_end {l : Layout} (hn : l.Narrow) {c : Nat} (h : c≥endOfChain) :
    ¬l.HasCluster c := by
  intro hc
  have hlt := hc.2
  unfold Layout.Narrow at hn
  omega

theorem LinksIn.alloc {R : Nat → Prop} (h : LinksIn R fs) (hn : fs.Narrow) {a : Nat}
    (ha : Allocates fs a fs') : LinksIn R fs' := by
  refine h.entries ha.layout fun x d hx hd => ?_
  rw [ha.entries x hx] at hd
  split at hd
  next =>
    obtain ⟨-,-,rfl⟩ := Option.map_eq_some_iff.mp hd
    exact .inr fun hc => absurd hc (hn.not_end (by decide))
  next => exact .inl hd

theorem ends_links (hn : fs.Narrow) {l : List Nat} (hl : Ends (fatLink fs) l) :
    LinksIn (· ∈l) fs := by
  intro c d _ hm he hd
  have hto : fatLink fs c=.to d := by
    rw [fatLink,if_pos (ends_has hl c hm),he]
    exact if_neg fun h => hn.not_end h hd
  induction l with
  | nil => cases hm
  | cons a l ih =>
    cases l with
    | nil =>
      have hstop : fatLink fs a=.stop := hl
      rw [List.mem_singleton.mp hm,hstop] at hto
      cases hto
    | cons b l =>
      rcases List.mem_cons.mp hm with rfl | hm
      · rw [hl.1] at hto
        cases hto
        exact List.mem_cons_of_mem _ List.mem_cons_self
      · exact List.mem_cons_of_mem a (ih hl.2 hm)

/-- However far the loop gets, it frees clusters of R alone. -/
theorem freeChainLoop_spares {R : Nat → Prop} (n : Nat) (m : Mounted fs) (hn : fs.Narrow)
    (hk : ∀x,R x → ¬K x) (h : LinksIn R fs) {c : Nat} (hc : fs.HasCluster c → R c) :
    Spares K fs { freeChainLoop n fs c with outOfSteps := fs.outOfSteps } ∧
      LinksIn R (freeChainLoop n fs c) := by
  induction n generalizing fs c with
  | zero => exact ⟨Spares.refl K fs,h⟩
  | succ n ih =>
    unfold freeChainLoop
    by_cases hcl : fs.HasCluster c
    · rw [if_neg ((m.sound.hasCluster_iff c).mpr hcl)]
      have hget := fatGetEntry_keeps fs m c
      have heq := fatGetEntry_eq fs m c hcl
      have m1 := hget.mounted m
      have hcl1 : (fatGetEntry fs c).2.HasCluster c := by
        rw [hget.layout]
        exact hcl
      have hn1 : (fatGetEntry fs c).2.Narrow := by
        rw [hget.layout]
        exact hn
      have h1 : LinksIn R (fatGetEntry fs c).2 := h.keeps m hget
      have hset := fatSetEntry_spec _ m1 c 0 hcl1
      have h2 : LinksIn R (countFreed (fatSetEntry (fatGetEntry fs c).2 c 0) c) :=
        hset.linksIn h1 fun h0 => absurd h0.1 (by decide)
      have hstep : Spares K fs (countFreed (fatSetEntry (fatGetEntry fs c).2 c 0) c) :=
        ((hget.spares m).trans (fatSetEntry_spares m1 hn1 0 hcl1 (hk c (hc hcl)))).trans
          (Spares.counters K _ _ _ _ _ _ _)
      have hout := hget.steps
      dsimp only
      split
      · rw [← hout]
        exact ⟨hget.spares m,h1⟩
      · split
        · rw [← hstep.steps]
          exact ⟨hstep,h2⟩
        · have hnext : fs.HasCluster (fatGetEntry fs c).1 → R (fatGetEntry fs c).1 := by
            rw [heq]
            intro hd
            cases he : fs.entry c with
            | none =>
              rw [he] at hd
              exact absurd hd (hn.not_end (by decide))
            | some d =>
              rw [he] at hd
              exact h c d hcl (hc hcl) he hd
          have hi := ih (m.grows hstep.toGrows) (by rw [hstep.layout]; exact hn) h2
            (by rw [hstep.layout]; exact hnext)
          rw [hstep.steps] at hi
          exact ⟨hstep.trans hi.1,hi.2⟩
    · rw [if_pos (by
        by_contra hno
        exact hcl ((m.sound.hasCluster_iff c).mp hno))]
      exact ⟨Spares.refl K fs,h⟩

theorem freeChain_within {R : Nat → Prop} (m : Mounted fs) (hn : fs.Narrow)
    (hk : ∀x,R x → ¬K x) (h : LinksIn R fs) {c : Nat} (hc : fs.HasCluster c → R c) :
    Spares K fs (fat32FreeChain fs c) ∧ LinksIn R (fat32FreeChain fs c) := by
  have hgen : Spares K fs { fs with gen := fs.gen+1 } :=
    Spares.counters K fs _ _ _ _ _ (fs.gen+1)
  obtain ⟨hs,hl⟩ := freeChainLoop_spares (K := K) (2*fs.totalClusters+2)
    (m.grows hgen.toGrows) hn hk h hc
  have hall := hgen.trans hs
  exact ⟨⟨fat32FreeChain_grows fs m c,hall.entry,hall.data⟩,hl⟩

theorem fat32FreeChain_spares (m : Mounted fs) (hn : fs.Narrow) {c : Nat} (hp : Proper fs c)
    (hk : ∀x∈chainOf fs c,¬K x) : Spares K fs (fat32FreeChain fs c) := by
  obtain ⟨l,hl⟩ := hp
  rw [chainOf_ends hl] at hk
  exact (freeChain_within m hn hk (ends_links hn hl) fun _ => List.mem_cons_self).1

theorem Layout.Narrow.mod {l : Layout} (hn : l.Narrow) {c : Nat} (hc : l.HasCluster c) :
    c%2^28=c := by
  have hlt := hc.2
  unfold Layout.Narrow endOfChain at hn
  exact Nat.mod_eq_of_lt (by omega)

/-- A new file takes free clusters, and its chain leads to no others. -/
theorem placeClusters_within (buf : Bytes) (n c first cur : Nat) (err : Bool)
    (m : Mounted fs) (hn : fs.Narrow) (hu : InUse K fs)
    (hcur : c=0 ∨ fs.HasCluster cur ∧ ¬K cur) :
    let r := placeClusters buf n c first cur err fs
    Spares K fs r.2 ∧ (LinksIn (fun x => ¬K x) fs → LinksIn (fun x => ¬K x) r.2) ∧
      ((first≠0 → ¬K first) → (r.1.2≠0 → ¬K r.1.2) ∧ ∀p,r.1.1=some p → p.1=r.1.2) := by
  induction n generalizing c first cur err fs with
  | zero => exact ⟨Spares.refl K fs,id,fun h => ⟨h,fun p hp => by cases hp; rfl⟩⟩
  | succ n ih =>
    dsimp only
    rw [placeClusters_succ]
    have halloc := alloc_spares m hn hu
    rcases fatAllocCluster_spec fs m with ⟨h0,hx⟩ | ha
    · rw [if_pos h0]
      exact ⟨halloc,fun h => h.entries hx.layout fun x d hc hd => .inl (hx.entries x hc ▸ hd),
        fun h => ⟨h,fun p hp => by cases hp⟩⟩
    rw [if_neg ha.pos]
    have hka : ¬K (fatAllocCluster fs).1 := fun hk => hu _ ha.cluster hk ha.free
    have m1 := m.grows ha.toGrows
    have hn1 : (fatAllocCluster fs).2.Narrow := by
      rw [ha.layout]
      exact hn
    have hl1 : LinksIn (fun x => ¬K x) fs → LinksIn (fun x => ¬K x) (fatAllocCluster fs).2 :=
      fun h => h.alloc hn ha
    have hlink : Spares K fs (if c=0 then (fatAllocCluster fs).2 else
        fatSetEntry (fatAllocCluster fs).2 cur (fatAllocCluster fs).1) ∧
        (LinksIn (fun x => ¬K x) fs → LinksIn (fun x => ¬K x) (if c=0 then
          (fatAllocCluster fs).2 else
          fatSetEntry (fatAllocCluster fs).2 cur (fatAllocCluster fs).1)) := by
      split
      · exact ⟨halloc,hl1⟩
      next h0 =>
        obtain ⟨hc,hk⟩ := hcur.resolve_left h0
        have hc1 : (fatAllocCluster fs).2.HasCluster cur := by
          rw [ha.layout]
          exact hc
        refine ⟨halloc.trans (fatSetEntry_spares m1 hn1 _ hc1 hk),fun h =>
          (fatSetEntry_spec _ m1 cur _ hc1).linksIn (hl1 h) fun _ => ?_⟩
        rw [hn.mod ha.cluster]
        exact hka
    have hone : Spares K fs (placeOne buf fs c cur err).2 ∧
        (LinksIn (fun x => ¬K x) fs → LinksIn (fun x => ¬K x) (placeOne buf fs c cur err).2) := by
      rw [placeOne]
      generalize (if c=0 then (fatAllocCluster fs).2 else fatSetEntry (fatAllocCluster fs).2 cur
        (fatAllocCluster fs).1)=fs1 at hlink ⊢
      have m2 := m.grows hlink.1.toGrows
      have hac : fs1.HasCluster (fatAllocCluster fs).1 := by
        rw [hlink.1.layout]
        exact ha.cluster
      have hspc : fs1.spc+0≤fs1.bpb.secPerClus := Nat.le_of_eq m2.sound.spc_eq
      have hst := fillCluster_stores buf c fs1.bpc m2 hac hspc err
      refine ⟨hlink.1.trans (fillCluster_spares buf c fs1.bpc m2 hac hspc err hka),fun h =>
        (hlink.2 h).stores m2 hst⟩
    obtain ⟨h1,h2,h3⟩ := ih _ (if c=0 then (fatAllocCluster fs).1 else first) _
      (placeOne buf fs c cur err).1 (m.grows hone.1.toGrows)
      (by rw [hone.1.layout]; exact hn) (hone.1.inUse hu)
      (.inr ⟨by rw [hone.1.layout]; exact ha.cluster,hka⟩)
    refine ⟨hone.1.trans h1,fun h => h2 (hone.2 h),fun h => h3 ?_⟩
    split
    · exact fun _ => hka
    · exact h

theorem placeClusters_spares (buf : Bytes) (n : Nat) {c first cur : Nat} (err : Bool)
    (m : Mounted fs) (hn : fs.Narrow) (hu : InUse K fs)
    (hcur : c=0 ∨ fs.HasCluster cur ∧ ¬K cur) :
    Spares K fs (placeClusters buf n c first cur err fs).2 :=
  (placeClusters_within buf n c first cur err m hn hu hcur).1

end spares

end LugalOS.Fat32
