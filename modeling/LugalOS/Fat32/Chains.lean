import LugalOS.Fat32.Shown
import LugalOS.Lib.Links

namespace LugalOS.Fat32

open Linked

/-- What the FAT entry of a cluster says: the end of a chain, the next cluster, or neither. -/
def fatLink (fs : Fat32Fs) (c : Nat) : Link Nat :=
  if fs.HasCluster c then
    match fs.entry c with
    | none => .broken
    | some v => if v≥endOfChain then .stop else .to v
  else .broken

/-- The chain of a cluster that leads inside the volume to an end mark. -/
def Proper (fs : Fat32Fs) (c : Nat) : Prop := ∃l,Ends (fatLink fs) (c::l)

/-- The clusters of a chain. -/
def chainOf (fs : Fat32Fs) (c : Nat) : List Nat := scanned fs (fs.totalClusters+1) c

/-- The sectors of the first FAT copy and of the data clusters are on the device. -/
def Readable (fs : Fat32Fs) : Prop :=
  ∀lba,fs.InFat1 lba ∨ fs.InData lba → (fs.dev.readBlocks lba).isSome

section chains

variable {fs : Fat32Fs}

theorem fatLink_has {c : Nat} (h : fatLink fs c≠.broken) : fs.HasCluster c := by
  by_contra hc
  rw [fatLink,if_neg hc] at h
  exact h rfl

theorem ends_has {l : List Nat} (h : Ends (fatLink fs) l) : ∀c∈l,fs.HasCluster c :=
  fun c hc => fatLink_has (h.not_broken c hc)

theorem clusters_length {l : List Nat} (hl : l.Nodup) (h : ∀c∈l,fs.HasCluster c) :
    l.length≤fs.totalClusters := by
  have hsub : l⊆List.range' 2 fs.totalClusters := by
    intro c hc
    have hcl := h c hc
    unfold Layout.HasCluster at hcl
    rw [List.mem_range'_1]
    omega
  have hlen := (hl.subperm hsub).length_le
  rwa [List.length_range'] at hlen

theorem scanned_ends {l : List Nat} {c : Nat} (h : Ends (fatLink fs) (c::l)) {n : Nat}
    (hn : l.length<n) : scanned fs n c=c::l := by
  induction n generalizing c l with
  | zero => omega
  | succ n ih =>
    have hc := ends_has h c List.mem_cons_self
    rw [scanned,if_pos hc]
    cases l with
    | nil =>
      have hstop : fatLink fs c=.stop := h
      rw [fatLink,if_pos hc] at hstop
      cases he : fs.entry c with
      | none =>
        rw [he] at hstop
        cases hstop
      | some v =>
        rw [he] at hstop
        by_cases hv : v≥endOfChain
        · rw [Option.getD_some,if_pos hv]
        · dsimp only at hstop
          rw [if_neg hv] at hstop
          cases hstop
    | cons b l =>
      have hto : fatLink fs c=.to b := h.1
      rw [fatLink,if_pos hc] at hto
      cases he : fs.entry c with
      | none =>
        rw [he] at hto
        cases hto
      | some v =>
        rw [he] at hto
        dsimp only at hto
        by_cases hv : v≥endOfChain
        · rw [if_pos hv] at hto
          cases hto
        · rw [if_neg hv] at hto
          cases hto
          rw [Option.getD_some,if_neg hv,ih h.2 (by simp at hn; omega)]

theorem chainOf_ends {l : List Nat} {c : Nat} (h : Ends (fatLink fs) (c::l)) :
    chainOf fs c=c::l := by
  have hlen := clusters_length h.nodup (ends_has h)
  exact scanned_ends h (by simp at hlen; omega)

theorem Proper.ends {c : Nat} (h : Proper fs c) : Ends (fatLink fs) (chainOf fs c) := by
  obtain ⟨l,hl⟩ := h
  rw [chainOf_ends hl]
  exact hl

theorem Proper.head {c : Nat} (h : Proper fs c) : c∈chainOf fs c := by
  obtain ⟨l,hl⟩ := h
  rw [chainOf_ends hl]
  exact List.mem_cons_self

theorem Readable.entry (hr : Readable fs) (m : Mounted fs) {c : Nat} (hc : fs.HasCluster c) :
    ∃v,fs.entry c=some v := by
  obtain ⟨s,hs⟩ := Option.isSome_iff_exists.mp
    (hr _ (.inl (m.sound.fatSector_inFat1 c hc)))
  exact ⟨_,by rw [Fat32Fs.entry,hs]; rfl⟩

theorem Keeps.readable {fs' : Fat32Fs} (h : Keeps fs fs') (hr : Readable fs) :
    Readable fs' := by
  intro lba hl
  rw [h.layout] at hl
  rw [h.reads lba hl]
  exact hr lba hl

end chains

section marking

variable {fs : Fat32Fs}

/-- The clusters a bitmap leaves out. -/
def unmarked (fs : Fat32Fs) (bits : Nat → Bool) : Finset Nat :=
  (Finset.Ico 2 (fs.totalClusters+2)).filter fun c => bits c=false

theorem unmarked_update {bits : Nat → Bool} {c : Nat} (hc : fs.HasCluster c)
    (hb : bits c=false) :
    (unmarked fs (Function.update bits c true)).card+1=(unmarked fs bits).card := by
  have hmem : c∈unmarked fs bits := by
    rw [unmarked,Finset.mem_filter,Finset.mem_Ico]
    exact ⟨hc,hb⟩
  have heq : unmarked fs (Function.update bits c true)=(unmarked fs bits).erase c := by
    ext x
    by_cases hx : x=c
    · simp [unmarked,hx]
    · simp [unmarked,hx]
  rw [heq,Finset.card_erase_add_one hmem]

theorem unmarked_mono {bits bits' : Nat → Bool} (h : ∀x,bits x=true → bits' x=true) :
    (unmarked fs bits').card≤(unmarked fs bits).card := by
  refine Finset.card_le_card fun x hx => ?_
  simp only [unmarked,Finset.mem_filter] at hx ⊢
  refine ⟨hx.1,?_⟩
  cases hb : bits x with
  | false => rfl
  | true =>
    rw [h x hb] at hx
    cases hx.2

/-- What the walk of a chain leaves alone, on whatever the FAT holds. -/
structure Marks (fs : Fat32Fs) (c c' : CheckCtx) (clus : Nat) : Prop where
  queue : c'.queue=c.queue
  qcap : c'.qcap=c.qcap
  size : c'.out.size=c.out.size
  skipped : c'.out.skipped=c.out.skipped
  bits : ∀x,c.bits x=true → c'.bits x=true
  first : fs.HasCluster clus → c'.bits clus=true
  badChain : c.out.badChain≤c'.out.badChain
  cross : c.out.cross≤c'.out.cross

theorem checkChainLoop_marks {n : Nat} (hn : n≠0) (fs' : Fat32Fs) (hl : fs'.toLayout=fs.toLayout)
    (hs : fs.toLayout.Sound) (c : CheckCtx) (clus len : Nat) :
    Marks fs c (checkChainLoop n fs' c clus len).1.2 clus := by
  induction n generalizing fs' c clus len with
  | zero => exact absurd rfl hn
  | succ n ih =>
    unfold checkChainLoop
    by_cases hc : clus<2 ∨ clus≥fs'.endCluster
    · rw [if_pos hc]
      rw [hl] at hc
      exact ⟨rfl,rfl,rfl,rfl,fun _ h => h,fun h => absurd hc ((hs.hasCluster_iff clus).mpr h),
        Nat.le_succ _,Nat.le_refl _⟩
    rw [if_neg hc]
    by_cases hb : c.bits clus=true
    · rw [if_pos hb]
      exact ⟨rfl,rfl,rfl,rfl,fun _ h => h,fun _ => hb,Nat.le_refl _,Nat.le_succ _⟩
    rw [if_neg hb]
    have hmark : ∀x,c.bits x=true → Function.update c.bits clus true x=true := by
      intro x hx
      by_cases hxc : x=clus
      · rw [hxc,Function.update_self]
      · rwa [Function.update_of_ne hxc]
    have hlay := (fatReadEntry_same fs' clus).layout
    dsimp only
    rcases hr : fatReadEntry fs' clus with ⟨o,fs1⟩
    rw [hr] at hlay
    have hself : Function.update c.bits clus true clus=true := Function.update_self ..
    cases o with
    | none => exact ⟨rfl,rfl,rfl,rfl,hmark,fun _ => hself,Nat.le_refl _,Nat.le_refl _⟩
    | some v =>
      dsimp only
      split
      · exact ⟨rfl,rfl,rfl,rfl,hmark,fun _ => hself,Nat.le_refl _,Nat.le_refl _⟩
      · split
        · exact ⟨rfl,rfl,rfl,rfl,hmark,fun _ => hself,Nat.le_succ _,Nat.le_refl _⟩
        · by_cases hn0 : n=0
          · rw [hn0]
            exact ⟨rfl,rfl,rfl,rfl,hmark,fun _ => hself,Nat.le_refl _,Nat.le_refl _⟩
          · have hi := ih hn0 fs1 (hlay.trans hl) { c with
              bits := Function.update c.bits clus true
              out := { c.out with clusters := c.out.clusters+1 } } v (len+1)
            exact ⟨hi.queue,hi.qcap,hi.size,hi.skipped,fun x hx => hi.bits x (hmark x hx),
              fun _ => hi.bits clus hself,hi.badChain,hi.cross⟩

/-- A chain that a walk can mark: it ends, and none of its clusters is marked. -/
def Claimable (fs : Fat32Fs) (bits : Nat → Bool) (l : List Nat) : Prop :=
  Ends (fatLink fs) l ∧ ∀x∈l,bits x=false

/-- The walk of a chain: every cluster of a claimable one, or a problem counted. -/
def Walked (fs : Fat32Fs) (c : CheckCtx) (clus len : Nat) (r : Nat×CheckCtx) : Prop :=
  (∃l,Claimable fs c.bits (clus::l) ∧ r.1=len+l.length+1 ∧
    r.2.out.badChain=c.out.badChain ∧ r.2.out.cross=c.out.cross ∧
    ∀x,r.2.bits x=true ↔ c.bits x=true ∨ x∈clus::l) ∨
  (c.out.badChain+c.out.cross < r.2.out.badChain+r.2.out.cross ∧
    ∀l,¬Claimable fs c.bits (clus::l))

theorem checkChainLoop_walked {n : Nat} {fs' : Fat32Fs} (m : Mounted fs) (hr : Readable fs)
    (hk : Keeps fs fs') (c : CheckCtx) (clus len : Nat) (hn : (unmarked fs c.bits).card<n) :
    Walked fs c clus len (checkChainLoop n fs' c clus len).1 := by
  induction n generalizing fs' c clus len with
  | zero => omega
  | succ n ih =>
    have m' := hk.mounted m
    unfold checkChainLoop
    by_cases hc : clus<2 ∨ clus≥fs'.endCluster
    · rw [if_pos hc]
      refine .inr ⟨by dsimp only; omega,fun l hl => ?_⟩
      have hcl := ends_has hl.1 clus List.mem_cons_self
      rw [← hk.layout] at hcl
      exact (m'.sound.hasCluster_iff clus).mpr hcl hc
    have hcl : fs.HasCluster clus := by
      rw [← hk.layout]
      exact (m'.sound.hasCluster_iff clus).mp hc
    rw [if_neg hc]
    by_cases hb : c.bits clus=true
    · rw [if_pos hb]
      refine .inr ⟨by dsimp only; omega,fun l hl => ?_⟩
      rw [hl.2 clus List.mem_cons_self] at hb
      cases hb
    have hb' : c.bits clus=false := by simpa using hb
    rw [if_neg hb]
    obtain ⟨v,hv⟩ := hr.entry m hcl
    have hread := fatReadEntry_eq fs' m' clus (by rw [hk.layout]; exact hcl)
    have hk1 := hk.trans (fatReadEntry_keeps fs' m' clus)
    have hlink : fatLink fs clus=if v≥endOfChain then .stop else .to v := by
      rw [fatLink,if_pos hcl,hv]
    have hbits : ∀x,Function.update c.bits clus true x=true ↔ c.bits x=true ∨ x=clus := by
      intro x
      by_cases hx : x=clus
      · simp [hx]
      · simp [hx]
    rw [hk.entry m.sound clus hcl,hv] at hread
    dsimp only
    rcases hr' : fatReadEntry fs' clus with ⟨o,fs1⟩
    rw [hr'] at hread hk1
    rw [show o=some v from hread]
    dsimp only
    by_cases hend : v≥endOfChain
    · rw [if_pos hend]
      rw [if_pos hend] at hlink
      refine .inl ⟨[],⟨hlink,?_⟩,rfl,rfl,rfl,fun x => ?_⟩
      · intro x hx
        rw [List.mem_singleton.mp hx]
        exact hb'
      · rw [List.mem_singleton]
        exact hbits x
    rw [if_neg hend] at hlink ⊢
    -- past this cluster the chain goes on with v
    have hnext : ∀l,Ends (fatLink fs) (clus::l) → ∃l',l=v::l' ∧ Ends (fatLink fs) (v::l') := by
      intro l hl
      cases l with
      | nil =>
        have heq := Eq.trans (Eq.symm hl) hlink
        cases heq
      | cons b l =>
        have heq := hl.1.symm.trans hlink
        cases heq
        exact ⟨l,rfl,hl.2⟩
    by_cases hlow : v<2
    · rw [if_pos hlow]
      refine .inr ⟨by dsimp only; omega,fun l hl => ?_⟩
      obtain ⟨l',-,hl'⟩ := hnext l hl.1
      have h2 := (ends_has hl' v List.mem_cons_self).1
      omega
    rw [if_neg hlow]
    have hcard := unmarked_update hcl hb'
    have hi := ih hk1 { c with
      bits := Function.update c.bits clus true
      out := { c.out with clusters := c.out.clusters+1 } } v (len+1) (by dsimp only; omega)
    rcases hi with ⟨l,⟨hends,hfree⟩,hlen,hbad,hcross,hall⟩ | ⟨hmore,hno⟩
    · left
      refine ⟨v::l,⟨⟨hlink,hends⟩,?_⟩,?_,hbad,hcross,fun x => ?_⟩
      · intro x hx
        rcases List.mem_cons.mp hx with rfl | hx
        · exact hb'
        · cases hxb : c.bits x with
          | false => rfl
          | true =>
            have hxf := hfree x hx
            have hxt := (hbits x).mpr (.inl hxb)
            rw [show Function.update c.bits clus true x=false from hxf] at hxt
            cases hxt
      · rw [hlen,List.length_cons]
        omega
      · refine (hall x).trans ?_
        dsimp only
        rw [hbits x]
        simp only [List.mem_cons,or_assoc]
    · right
      refine ⟨hmore,fun l hl => ?_⟩
      obtain ⟨l',rfl,hends⟩ := hnext l hl.1
      refine hno l' ⟨hends,fun x hx => ?_⟩
      have hxc : x≠clus := fun h =>
        (List.nodup_cons.mp hl.1.nodup).1 (h ▸ hx)
      have hxf := hl.2 x (List.mem_cons_of_mem clus hx)
      dsimp only
      rw [Function.update_of_ne hxc,hxf]

theorem checkChainLoop_keeps (n : Nat) {fs' : Fat32Fs} (m : Mounted fs') (c : CheckCtx)
    (clus len : Nat) : Keeps fs' (checkChainLoop n fs' c clus len).2 := by
  induction n generalizing fs' c clus len with
  | zero => exact Keeps.refl fs'
  | succ n ih =>
    have hk := fatReadEntry_keeps fs' m clus
    unfold checkChainLoop
    split
    · exact Keeps.refl fs'
    · split
      · exact Keeps.refl fs'
      · dsimp only
        rcases hr : fatReadEntry fs' clus with ⟨o,fs1⟩
        rw [hr] at hk
        cases o with
        | none => exact hk
        | some v =>
          dsimp only
          split
          · exact hk
          · split
            · exact hk
            · exact hk.trans (ih (hk.mounted m) _ _ _)

theorem checkChainLoop_stable (n : Nat) {fs1 fs2 : Fat32Fs} (m : Mounted fs) (h1 : Keeps fs fs1)
    (h2 : Keeps fs fs2) (c : CheckCtx) (clus len : Nat) :
    (checkChainLoop n fs1 c clus len).1=(checkChainLoop n fs2 c clus len).1 := by
  induction n generalizing fs1 fs2 c clus len with
  | zero => rfl
  | succ n ih =>
    have m1 := h1.mounted m
    have m2 := h2.mounted m
    have hk1 := h1.trans (fatReadEntry_keeps fs1 m1 clus)
    have hk2 := h2.trans (fatReadEntry_keeps fs2 m2 clus)
    unfold checkChainLoop
    rw [show fs2.endCluster=fs1.endCluster by rw [h1.layout,h2.layout]]
    by_cases hc : clus<2 ∨ clus≥fs1.endCluster
    · rw [if_pos hc,if_pos hc]
    have hcl : fs.HasCluster clus := by
      rw [← h1.layout]
      exact (m1.sound.hasCluster_iff clus).mp hc
    have he1 := fatReadEntry_eq fs1 m1 clus (by rw [h1.layout]; exact hcl)
    have he2 := fatReadEntry_eq fs2 m2 clus (by rw [h2.layout]; exact hcl)
    rw [h1.entry m.sound clus hcl] at he1
    rw [h2.entry m.sound clus hcl,← he1] at he2
    rw [if_neg hc,if_neg hc]
    dsimp only
    rcases hr1 : fatReadEntry fs1 clus with ⟨o1,fs1'⟩
    rcases hr2 : fatReadEntry fs2 clus with ⟨o2,fs2'⟩
    rw [hr1,hr2] at he2
    rw [hr1] at hk1
    rw [hr2] at hk2
    rw [show o2=o1 from he2]
    split
    · rfl
    · cases o1 with
      | none => rfl
      | some v =>
        dsimp only
        split
        · rfl
        · split
          · rfl
          · exact ih hk1 hk2 _ _ _

end marking

end LugalOS.Fat32
