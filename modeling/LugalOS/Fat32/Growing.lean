import LugalOS.Fat32.Created

namespace LugalOS.Fat32

open Linked CString LittleEndian

section grow

variable {fs fs' : Fat32Fs}

theorem Allocates.spares (hn : fs.Narrow) {a : Nat} (ha : Allocates fs a fs') :
    Spares (· ≠a) fs fs' := by
  refine ⟨ha.toGrows,fun c hc hne => ?_,fun c j hc hj _ =>
    ha.data _ (Layout.dataLba_inData c j hc hj)⟩
  rw [ha.entries c hc,if_neg fun h => hne ((hn.alias hc ha.cluster).mp h)]

theorem Allocates.stop {a : Nat} (ha : Allocates fs a fs') : fatLink fs' a=.stop := by
  have hc : fs'.HasCluster a := by
    rw [ha.layout]
    exact ha.cluster
  rw [fatLink,if_pos hc,ha.entries a ha.cluster,if_pos rfl,ha.free]
  rfl

theorem fatSetEntry_others (m : Mounted fs) (hn : fs.Narrow) {c : Nat} (v : Nat)
    (hc : fs.HasCluster c) : Spares (· ≠c) fs (fatSetEntry fs c v) :=
  fatSetEntry_spares m hn v hc fun h => h rfl

theorem link_ends (m : Mounted fs) (hn : fs.Narrow) (hr : Readable fs) {l : List Nat}
    {last a : Nat} (hl : Ends (fatLink fs) (l++[last])) (hstop : fatLink fs a=.stop)
    (hnew : a∉l++[last]) : Ends (fatLink (fatSetEntry fs last a)) (l++[last]++[a]) := by
  have hlast : fs.HasCluster last := ends_has hl last (by simp)
  have hac : fs.HasCluster a := fatLink_has (by rw [hstop]; exact fun h => by cases h)
  have sp := fatSetEntry_others m hn a hlast
  have hnodup := hl.nodup
  refine hl.concat (fun x hx => fatLink_congr sp.layout (sp.entry x ?_ fun he => ?_)) ?_ ?_
  · exact ends_has hl x (List.mem_append_left _ hx)
  · exact (List.nodup_append.mp hnodup).2.2 x hx last List.mem_cons_self he
  · have hlt := hac.2
    unfold Layout.Narrow at hn
    have hend : a<endOfChain := by omega
    have hmod : a%2^28=a := Nat.mod_eq_of_lt (by unfold endOfChain at hend; omega)
    rw [fatLink,if_pos (by rw [sp.layout]; exact hlast),fatSetEntry_entry m hr a hlast,hmod]
    dsimp only
    rw [if_neg (by omega)]
  · rw [fatLink_congr sp.layout (sp.entry a hac fun he => hnew (by rw [he]; simp))]
    exact hstop

theorem lastCluster_ends (n : Nat) (m : Mounted fs) {c last : Nat} {l : List Nat}
    (hl : Ends (fatLink fs) (c::l)) (h : (lastCluster n fs c).1=some last) :
    ∃l0,c::l=l0++[last] := by
  induction n generalizing fs c l with
  | zero => cases h
  | succ n ih =>
    have hc := ends_has hl c List.mem_cons_self
    have he := fatGetEntry_eq fs m c hc
    have hk := fatGetEntry_keeps fs m c
    unfold lastCluster at h
    dsimp only at h
    cases l with
    | nil =>
      obtain ⟨v,hv,hge⟩ := fatLink_stop (show fatLink fs c=.stop from hl)
      rw [he,hv,Option.getD_some,if_pos hge] at h
      cases h
      exact ⟨[],rfl⟩
    | cons b l =>
      obtain ⟨hto,hlt⟩ := fatLink_to hl.1
      have hb := (ends_has hl.2 b List.mem_cons_self).1
      rw [he,hto,Option.getD_some,if_neg (by omega),if_neg (by omega)] at h
      have hrest := ((hk.spares m (K := fun _ => True)).ends hl.2 fun _ _ => trivial)
      obtain ⟨l0,hl0⟩ := ih (hk.mounted m) hrest h
      exact ⟨c::l0,by rw [hl0]; rfl⟩

end grow

section homes

variable {fs fs' : Fat32Fs} {V : Nat → Prop}

/-- Directories whose chains are whole and have no cluster in common, on a readable device. -/
structure Homes (fs : Fat32Fs) (V : Nat → Prop) : Prop where
  mounted : Mounted fs
  readable : Readable fs
  narrow : fs.Narrow
  proper : ∀D,V D → Proper fs D
  apart : ∀D D',V D → V D' → D≠D' → List.Disjoint (chainOf fs D) (chainOf fs D')

/-- The clusters of the directories. -/
def dirClusters (fs : Fat32Fs) (V : Nat → Prop) (c : Nat) : Prop := ∃D,V D ∧ c∈chainOf fs D

theorem Homes.inUse (v : Homes fs V) : InUse (dirClusters fs V) fs := by
  rintro c - ⟨D,hD,hm⟩
  exact ends_used (v.proper D hD).ends c hm

theorem Homes.spares (v : Homes fs V) (h : Spares (dirClusters fs V) fs fs') :
    Homes fs' V ∧ ∀D,V D → chainOf fs' D=chainOf fs D ∧ dirSlots fs' D=dirSlots fs D := by
  have hc : ∀D,V D → chainOf fs' D=chainOf fs D ∧ Proper fs' D := fun D hD =>
    h.chainOf (v.proper D hD) fun x hx => ⟨D,hD,hx⟩
  refine ⟨⟨v.mounted.grows h.toGrows,h.toGrows.readable v.readable,?_,fun D hD => (hc D hD).2,
    fun D D' hD hD' hne => ?_⟩,fun D hD => ⟨(hc D hD).1,
      h.dirSlots (v.proper D hD) fun x hx => ⟨D,hD,hx⟩⟩⟩
  · rw [h.layout]
    exact v.narrow
  · rw [(hc D hD).1,(hc D' hD').1]
    exact v.apart D D' hD hD' hne

theorem Homes.keeps (v : Homes fs V) (h : Keeps fs fs') : Homes fs' V :=
  (v.spares (h.spares v.mounted)).1

/-- A volume with a slot ready for an entry of directory d: the other directories as they were. -/
structure Ready (fs g : Fat32Fs) (V : Nat → Prop) (d : Nat) (name83 : Bytes) (ctx : WriteSlot) :
    Prop extends Grows fs g where
  homes : Homes g V
  others : ∀D,V D → D≠d → dirSlots g D=dirSlots fs D
  place : ∃pre u post,dirSlots g d=pre++u::post ∧ inUse (dirSlots g d)=inUse (dirSlots fs d) ∧
    u.lba=ctx.lba ∧ u.idx=ctx.freeSlot ∧
    (∀t∈pre,t.entry.isEnd=false ∧ matchesName name83 t=false) ∧
    (matchesName name83 u=true ∨ (inUse (dirSlots fs d)).find? (matchesName name83)=none ∧
      (dirEntryIsFree u.entry || dirEntryIsCorrupt u.entry)=true)
  matched : ctx.nameMatched=true → Keeps fs g ∧
    ∃t,(inUse (dirSlots fs d)).find? (matchesName name83)=some t ∧ ctx.existing=t.entry

theorem inUse_split (l : List Slot) : ∃rest,l=inUse l++rest :=
  ⟨l.dropWhile fun t => !t.entry.isEnd,List.takeWhile_append_dropWhile.symm⟩

theorem ready_kept (v : Homes fs V) {d : Nat} {name83 : Bytes} {s : Fat32Fs} (hk : Keeps fs s)
    {ctx : WriteSlot}
    (hctx : ctx=(lookSlots (writeSlotStep name83) (dirSlots fs d) WriteSlot.none).2)
    (hpos : 0≤ctx.freeSectorLba) : Ready fs s V d name83 ctx := by
  have hslots : ∀D,dirSlots s D=dirSlots fs D := fun D => dirSlots_keeps v.mounted hk D
  have hlook := look_write name83 (dirSlots fs d) WriteSlot.none rfl
  rw [← hctx] at hlook
  refine ⟨hk.toGrows,v.keeps hk,fun D _ _ => hslots D,?_,fun hm => ?_⟩
  · rw [hslots]
    cases hf : (inUse (dirSlots fs d)).find? (matchesName name83) with
    | some t =>
      rw [hf] at hlook
      obtain ⟨hm,pre,post,hsplit,hpre⟩ := List.find?_eq_some_iff_append.mp hf
      obtain ⟨rest,hrest⟩ := inUse_split (dirSlots fs d)
      have hmem : t∈inUse (dirSlots fs d) := List.mem_of_find?_eq_some hf
      refine ⟨pre,t,post++rest,?_,rfl,?_,?_,fun u hu => ?_,.inl hm⟩
      · conv => lhs; rw [hrest,hsplit]
        simp
      · rw [hlook,WriteSlot.lba,(dirSlots_lba v.mounted (inUse_mem hmem).1).2]
      · rw [hlook]
      · have hu' : u∈inUse (dirSlots fs d) := by
          rw [hsplit]
          exact List.mem_append_left _ hu
        exact ⟨(inUse_mem hu').2,by simpa using hpre u hu⟩
    | none =>
      rw [hf] at hlook
      rcases hlook.2 with ⟨hnone,-⟩ | ⟨pre,u,post,hsplit,hpre,hfree,hlba,hidx⟩
      · rw [hnone] at hpos
        exact absurd hpos (by decide)
      · have hu : u∈dirSlots fs d := by
          rw [hsplit]
          simp
        refine ⟨pre,u,post,hsplit,rfl,?_,hidx.symm,fun t ht => ⟨hpre t ht,?_⟩,.inr ⟨rfl,hfree⟩⟩
        · rw [WriteSlot.lba,hlba,(dirSlots_lba v.mounted hu).2]
        · have hno := List.find?_eq_none.mp hf t (by
            rw [hsplit,inUse_append hpre]
            exact List.mem_append_left _ ht)
          simpa using hno
  · cases hf : (inUse (dirSlots fs d)).find? (matchesName name83) with
    | some t =>
      rw [hf] at hlook
      exact ⟨hk,t,rfl,by rw [hlook]⟩
    | none =>
      rw [hf] at hlook
      rw [hlook.1] at hm
      cases hm

theorem readSlots_append {dev : BlockDev} (x y : List Nat)
    (hx : ∀lba∈x,(dev.readBlocks lba).isSome) :
    readSlots dev (x++y)=readSlots dev x++readSlots dev y := by
  induction x with
  | nil => rfl
  | cons lba x ih =>
    obtain ⟨s,hs⟩ := Option.isSome_iff_exists.mp (hx lba List.mem_cons_self)
    rw [List.cons_append,readSlots,readSlots,hs]
    dsimp only
    rw [ih fun k hk => hx k (List.mem_cons_of_mem lba hk),List.append_assoc]

theorem zero_slots {dev : BlockDev} {l : Layout} (hl : l.Sound) {a : Nat}
    (hz : ∀k<l.bpb.secPerClus,dev.readBlocks (l.dataLba a k)=some zeroSector) :
    ∃rest,readSlots dev (l.clusterLbas a)=⟨l.dataLba a 0,0,entryAt zeroSector 0⟩::rest := by
  obtain ⟨n,hn⟩ := Nat.exists_eq_succ_of_ne_zero (Nat.ne_of_gt hl.spcPos)
  have h0 := hz 0 hl.spcPos
  rw [Layout.clusterLbas,hn,List.range'_succ,List.map_cons,readSlots,h0]
  exact ⟨_,rfl⟩

theorem look_full (m : Mounted fs) {d : Nat} {name83 : Bytes}
    (hlow : ∀t∈dirSlots fs d,t.lba<2^31) {ctx : WriteSlot}
    (hctx : ctx=(lookSlots (writeSlotStep name83) (dirSlots fs d) WriteSlot.none).2)
    (hneg : ctx.freeSectorLba<0) :
    (inUse (dirSlots fs d)).find? (matchesName name83)=none ∧ ctx.nameMatched=false ∧
      ∀t∈dirSlots fs d,t.entry.isEnd=false := by
  have hlook := look_write name83 (dirSlots fs d) WriteSlot.none rfl
  rw [← hctx] at hlook
  have hsmall : ∀t∈dirSlots fs d,0≤asInt t.lba := fun t ht =>
    (asInt_nonneg t.lba (dirSlots_small m ht)).mpr (hlow t ht)
  cases hf : (inUse (dirSlots fs d)).find? (matchesName name83) with
  | some t =>
    rw [hf] at hlook
    have hpos := hsmall t (inUse_mem (List.mem_of_find?_eq_some hf)).1
    rw [hlook] at hneg
    exact absurd hpos (not_le.mpr hneg)
  | none =>
    rw [hf] at hlook
    refine ⟨rfl,hlook.1,fun t ht => ?_⟩
    rcases hlook.2 with ⟨-,hpos | hall⟩ | ⟨pre,u,post,hsplit,-,-,hlba,-⟩
    · exact absurd hpos (by decide)
    · have hno := hall t ht
      simp only [dirEntryIsFree,Bool.or_eq_false_iff] at hno
      exact hno.1.1
    · have hpos := hsmall u (by rw [hsplit]; simp)
      rw [hlba] at hneg
      exact absurd hpos (not_le.mpr hneg)

theorem ready_grown (v : Homes fs V) {d : Nat} (hd : V d) {name83 : Bytes} {s g : Fat32Fs}
    (hk : Keeps fs s) (hlow : ∀t∈dirSlots fs d,t.lba<2^31) {ctx ctx' : WriteSlot}
    (hctx : ctx=(lookSlots (writeSlotStep name83) (dirSlots fs d) WriteSlot.none).2)
    (hneg : ctx.freeSectorLba<0) (h : dirClaimSlot s d ctx=(some ctx',g)) :
    Ready fs g V d name83 ctx' := by
  obtain ⟨hnone,hun,hends⟩ := look_full v.mounted hlow hctx hneg
  have vs := v.keeps hk
  have ms := vs.mounted
  have hslots : ∀D,dirSlots s D=dirSlots fs D := fun D => dirSlots_keeps v.mounted hk D
  obtain ⟨l,hl⟩ := vs.proper d hd
  have hchain := chainOf_ends hl
  unfold dirClaimSlot at h
  rw [if_neg (by omega)] at h
  have hkl := lastCluster_keeps maxDirClusters ms d
  have hlast := fun last => @lastCluster_ends s maxDirClusters ms d last l hl
  rcases hr : lastCluster maxDirClusters s d with ⟨o,s1⟩
  rw [hr] at h hkl hlast
  cases o with
  | none => cases h
  | some last =>
    obtain ⟨l0,hl0⟩ := hlast last rfl
    dsimp only at h hkl
    have v1 := vs.keeps hkl
    have m1 := v1.mounted
    have hl1 : Ends (fatLink s1) (l0++[last]) := by
      rw [← hl0]
      exact (hkl.spares ms (K := fun _ => True)).ends hl fun _ _ => trivial
    have hslots1 : dirSlots s1 d=dirSlots fs d := (dirSlots_keeps ms hkl d).trans (hslots d)
    have hchain1 : chainOf s1 d=l0++[last] := by
      rw [← hl0] at hl1 ⊢
      exact chainOf_ends hl1
    rcases fatAllocCluster_spec s1 m1 with ⟨h0,-⟩ | ha
    · rw [if_pos (.inr h0)] at h
      cases h
    split at h
    next => cases h
    next =>
      obtain ⟨hctx',hg⟩ := Prod.mk.inj h
      generalize (fatAllocCluster s1).1=a at ha hctx' hg
      generalize (fatAllocCluster s1).2=s2 at ha hctx' hg
      -- the new cluster is none of a directory
      have hka : ¬dirClusters s1 V a := fun hka => v1.inUse a ha.cluster hka ha.free
      have sp2 : Spares (dirClusters s1 V) s1 s2 :=
        (ha.spares v1.narrow).mono fun c hc he => hka (he ▸ hc)
      have m2 := m1.grows ha.toGrows
      have ha2 : s2.HasCluster a := by
        rw [ha.layout]
        exact ha.cluster
      obtain ⟨hst,hzero⟩ := zeroCluster_stores s2 m2 a ha2
      have sp3 : Spares (dirClusters s1 V) s1 (zeroCluster s2 a) :=
        sp2.trans (zeroCluster_spares m2 ha2 hka)
      generalize zeroCluster s2 a=s3 at hst hzero sp3 hctx' hg
      have m3 := m1.grows sp3.toGrows
      have hr3 := sp3.toGrows.readable v1.readable
      have hn3 : s3.Narrow := by
        rw [sp3.layout]
        exact v1.narrow
      have hold : ∀x∈l0++[last],dirClusters s1 V x := fun x hx => ⟨d,hd,by rw [hchain1]; exact hx⟩
      have hl3 : Ends (fatLink s3) (l0++[last]) := sp3.ends hl1 hold
      have hlast3 : s3.HasCluster last := ends_has hl3 last (by simp)
      have hstop : fatLink s3 a=.stop :=
        (fatLink_congr hst.layout (hst.entry m2.sound a ha2)).trans ha.stop
      have hset := fatSetEntry_spec s3 m3 last a hlast3
      have hoth := fatSetEntry_others m3 hn3 a hlast3
      have hlong := link_ends m3 hn3 hr3 hl3 hstop fun hx => hka (hold a hx)
      rw [hg] at hset hoth hlong
      have hgrow : Grows s1 g := sp3.toGrows.trans hset.toGrows
      -- the chain of d has the new cluster at its end
      have hchaing : chainOf g d=l0++[last]++[a] ∧ Proper g d := by
        rw [← hl0] at hlong ⊢
        exact ⟨chainOf_ends hlong,l++[a],hlong⟩
      have hother : ∀D,V D → D≠d → chainOf g D=chainOf s1 D ∧ Proper g D ∧
          dirSlots g D=dirSlots fs D := by
        intro D hD hne
        obtain ⟨h1,h2⟩ := sp3.chainOf (v1.proper D hD) fun x hx => ⟨D,hD,hx⟩
        have hslot1 := sp3.dirSlots (v1.proper D hD) fun x hx => ⟨D,hD,hx⟩
        have hx : ∀x∈chainOf s3 D,x≠last := by
          rw [h1]
          rintro x hx rfl
          exact v1.apart D d hD hd hne hx (by rw [hchain1]; simp)
        obtain ⟨h3,h4⟩ := hoth.chainOf h2 hx
        exact ⟨h3.trans h1,h4,(hoth.dirSlots h2 hx).trans
          (hslot1.trans ((dirSlots_keeps ms hkl D).trans (hslots D)))⟩
      have hapart : ∀D,V D → D≠d → List.Disjoint (chainOf g D) (chainOf g d) := by
        intro D hD hne x hx hxd
        rw [(hother D hD hne).1] at hx
        rw [hchaing.1] at hxd
        rcases List.mem_append.mp hxd with hxd | hxd
        · exact v1.apart D d hD hd hne hx (by rw [hchain1]; exact hxd)
        · rw [List.mem_singleton.mp hxd] at hx
          exact hka ⟨D,hD,hx⟩
      -- its sectors: the old ones, and those of the new cluster
      have hdata : ∀c j,s1.HasCluster c → j < s1.bpb.secPerClus → c∈l0++[last] →
          g.dev.readBlocks (s1.dataLba c j)=s1.dev.readBlocks (s1.dataLba c j) := by
        intro c j hc hj hx
        rw [hset.data _ (by rw [sp3.layout]; exact Layout.dataLba_inData c j hc hj)]
        exact sp3.data c j hc hj (hold c hx)
      obtain ⟨rest,hrest⟩ : ∃rest,readSlots g.dev (s1.clusterLbas a)=
          ⟨s1.dataLba a 0,0,entryAt zeroSector 0⟩::rest := by
        refine zero_slots m1.sound fun k hk => ?_
        have hin := Layout.dataLba_inData a k ha.cluster hk
        have hz := hzero k (by rw [ha.layout]; exact hk)
        rw [ha.layout,ha.data _ hin] at hz
        rw [hset.data _ (by rw [sp3.layout]; exact hin),hz]
        obtain ⟨sec,hsec⟩ := Option.isSome_iff_exists.mp (v1.readable _ (.inr hin))
        rw [hsec]
        rfl
      have hdir : dirSlots g d=dirSlots fs d++⟨s1.dataLba a 0,0,entryAt zeroSector 0⟩::rest := by
        have hflat : dirSlots g d=readSlots g.dev ((chainOf g d).flatMap g.clusterLbas) := rfl
        rw [hflat,hchaing.1,List.flatMap_append,hgrow.layout,readSlots_append,
          List.flatMap_singleton,hrest,← hslots1,← hchain1]
        · congr 1
          refine readSlots_congr s1.dev g.dev _ fun lba hx => ?_
          obtain ⟨c,hc,hx⟩ := List.mem_flatMap.mp hx
          obtain ⟨j,hj,rfl⟩ := List.mem_map.mp hx
          rw [hchain1] at hc
          exact hdata c j (ends_has hl1 c hc) (by simpa using hj) hc
        · intro lba hx
          obtain ⟨c,hc,hx⟩ := List.mem_flatMap.mp hx
          obtain ⟨j,hj,rfl⟩ := List.mem_map.mp hx
          have hcl := ends_has hl1 c hc
          have hj' : j < s1.bpb.secPerClus := by simpa using hj
          rw [hdata c j hcl hj' hc]
          exact v1.readable _ (.inr (Layout.dataLba_inData c j hcl hj'))
      refine ⟨hk.toGrows.trans (hkl.toGrows.trans hgrow),⟨v1.mounted.grows hgrow,
        hgrow.readable v1.readable,by rw [hgrow.layout]; exact v1.narrow,fun D hD => ?_,
        fun D D' hD hD' hne => ?_⟩,fun D hD hne => (hother D hD hne).2.2,?_,fun hm => ?_⟩
      · by_cases hDd : D=d
        · rw [hDd]
          exact hchaing.2
        · exact (hother D hD hDd).2.1
      · by_cases hDd : D=d
        · rw [hDd]
          exact (hapart D' hD' fun h => hne (hDd.trans h.symm)).symm
        · by_cases hDd' : D'=d
          · rw [hDd']
            exact hapart D hD hDd
          · rw [(hother D hD hDd).1,(hother D' hD' hDd').1]
            exact v1.apart D D' hD hD' hne
      · have hin := Layout.dataLba_inData a 0 ha.cluster m1.sound.spcPos
        have hall : inUse (dirSlots fs d)=dirSlots fs d := by
          rw [inUse,List.takeWhile_eq_self_iff]
          intro t ht
          rw [hends t ht]
          rfl
        refine ⟨dirSlots fs d,_,rest,hdir,?_,?_,?_,fun t ht => ⟨hends t ht,?_⟩,
          .inr ⟨hnone,rfl⟩⟩
        · rw [hdir,inUse_append hends,inUse_cons,hall]
          exact List.append_nil _
        · rw [← Option.some.inj hctx',WriteSlot.lba,hg,hgrow.layout,
            m1.sound.clusterToLba a ha.cluster,slotLba_ok s1.toLayout m1.sound _ hin]
        · rw [← Option.some.inj hctx']
        · rw [hall] at hnone
          simpa using List.find?_eq_none.mp hnone t ht
      · rw [← Option.some.inj hctx'] at hm
        rw [hun] at hm
        cases hm

theorem ready_claimed (v : Homes fs V) {d : Nat} (hd : V d) {name83 : Bytes} {s g : Fat32Fs}
    (hk : Keeps fs s) (hlow : ∀t∈dirSlots fs d,t.lba<2^31) {ctx ctx' : WriteSlot}
    (hctx : ctx=(lookSlots (writeSlotStep name83) (dirSlots fs d) WriteSlot.none).2)
    (h : dirClaimSlot s d ctx=(some ctx',g)) : Ready fs g V d name83 ctx' := by
  by_cases hpos : 0≤ctx.freeSectorLba
  · rw [dirClaimSlot,if_pos hpos] at h
    cases h
    exact ready_kept v hk hctx hpos
  · exact ready_grown v hd hk hlow hctx (not_le.mp hpos) h

end homes

end LugalOS.Fat32
