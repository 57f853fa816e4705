import LugalOS.Fat32.Directory

namespace LugalOS.Fat32

variable {α β : Type}

/-- A read leaves everything but the FAT cache as it was. -/
def SameDisk (fs fs' : Fat32Fs) : Prop :=
  fs'={ fs with fatCache := fs'.fatCache, fatCacheLba := fs'.fatCacheLba }

theorem SameDisk.refl (fs : Fat32Fs) : SameDisk fs fs := rfl

theorem SameDisk.trans {a b c : Fat32Fs} (h : SameDisk a b) (h' : SameDisk b c) : SameDisk a c := by
  unfold SameDisk at *
  rw [h',h]

theorem SameDisk.layout {fs fs' : Fat32Fs} (h : SameDisk fs fs') : fs'.toLayout=fs.toLayout := by
  rw [h]

theorem SameDisk.dev {fs fs' : Fat32Fs} (h : SameDisk fs fs') : fs'.dev=fs.dev := by
  rw [h]

theorem fatSectorWords_same (fs : Fat32Fs) (lba : Nat) : SameDisk fs (fatSectorWords fs lba).2 := by
  unfold fatSectorWords
  cases fs.fatCache with
  | none => exact SameDisk.refl fs
  | some w =>
    dsimp only
    by_cases hl : fs.fatCacheLba≠lba
    · rw [if_pos hl]
      cases fs.dev.readBlocks lba <;> rfl
    · rw [if_neg hl]
      exact SameDisk.refl fs

theorem fatReadEntry_same (fs : Fat32Fs) (c : Nat) : SameDisk fs (fatReadEntry fs c).2 :=
  fatSectorWords_same fs _

theorem fatGetEntry_same (fs : Fat32Fs) (c : Nat) : SameDisk fs (fatGetEntry fs c).2 :=
  fatSectorWords_same fs _

/-- A callback that changes nothing but the cache. -/
def Quiet (fn : ScanFn α) : Prop := ∀fs lba sec a,SameDisk fs (fn fs lba sec a).2

theorem eachEntry_quiet (step : Fat32Fs → Nat → Sector → Nat → α → (Bool×α)×Fat32Fs)
    (h : ∀fs lba sec i a,SameDisk fs (step fs lba sec i a).2) (n i : Nat) :
    Quiet (eachEntry step n i) := by
  induction n generalizing i with
  | zero => exact fun fs _ _ _ => SameDisk.refl fs
  | succ n ih =>
    intro fs lba sec a
    have hs := h fs lba sec i a
    unfold eachEntry
    rcases hr : step fs lba sec i a with ⟨⟨stop,a'⟩,fs'⟩
    rw [hr] at hs
    cases stop with
    | true => exact hs
    | false => exact hs.trans (ih (i+1) fs' lba sec a')

theorem looking_quiet (f : Nat → Nat → DirEntry → α → Bool×α) : Quiet (looking f) :=
  eachEntry_quiet _ (fun fs _ _ _ _ => SameDisk.refl fs) 16 0

theorem scanSectors_same (fn : ScanFn α) (hq : Quiet fn) (base n s : Nat) (fs : Fat32Fs) (a : α) :
    SameDisk fs (scanSectors fn base n s fs a).2 := by
  induction n generalizing s fs a with
  | zero => exact SameDisk.refl fs
  | succ n ih =>
    unfold scanSectors
    dsimp only
    cases fs.dev.readBlocks ((base+s)%2^32) with
    | none => exact SameDisk.refl fs
    | some sec =>
      have h := hq fs ((base+s)%2^32) sec a
      dsimp only
      rcases hr : fn fs ((base+s)%2^32) sec a with ⟨⟨stop,a'⟩,fs'⟩
      rw [hr] at h
      cases stop with
      | true => exact h
      | false => exact h.trans (ih (s+1) fs' a')

theorem scanClusters_same (fn : ScanFn α) (hq : Quiet fn) (n clus : Nat) (fs : Fat32Fs) (a : α) :
    SameDisk fs (scanClusters fn n clus fs a).2 := by
  induction n generalizing clus fs a with
  | zero => exact SameDisk.refl fs
  | succ n ih =>
    unfold scanClusters
    by_cases hc : clus<2 ∨ clus≥fs.endCluster
    · rw [if_pos hc]
      exact SameDisk.refl fs
    · rw [if_neg hc]
      have h := scanSectors_same fn hq (fs.clusterToLba clus) fs.bpb.secPerClus 0 fs a
      rcases hr : scanSectors fn (fs.clusterToLba clus) fs.bpb.secPerClus 0 fs a with
        ⟨⟨stop,a'⟩,fs'⟩
      rw [hr] at h
      cases stop with
      | true => exact h
      | false =>
        have hg := h.trans (fatGetEntry_same fs' clus)
        dsimp only
        by_cases hn : (fatGetEntry fs' clus).1≥endOfChain
        · rw [if_pos hn]
          exact hg
        · rw [if_neg hn]
          exact hg.trans (ih _ _ a')

theorem fat32ScanDir_same (fs : Fat32Fs) (start : Nat) (fn : ScanFn α) (hq : Quiet fn) (a : α) :
    SameDisk fs (fat32ScanDir fs start fn a).2 :=
  scanClusters_same fn hq _ _ fs a

/-- Two looks that stop at the same entries: their contexts are related by R while they go on
and by S when they stop. -/
def Simulates (R S : α → β → Prop) (f : Nat → Nat → DirEntry → α → Bool×α)
    (g : Nat → Nat → DirEntry → β → Bool×β) : Prop :=
  ∀lba i e a b,R a b → (f lba i e a).1=(g lba i e b).1 ∧
    if (f lba i e a).1 then S (f lba i e a).2 (g lba i e b).2
    else R (f lba i e a).2 (g lba i e b).2

section simulation

variable {R S : α → β → Prop} {f : Nat → Nat → DirEntry → α → Bool×α}
  {g : Nat → Nat → DirEntry → β → Bool×β}

/-- What related results have in common. -/
def Agree (R S : α → β → Prop) (r : (Bool×α)×Fat32Fs) (s : (Bool×β)×Fat32Fs) : Prop :=
  r.1.1=s.1.1 ∧ (if r.1.1 then S r.1.2 s.1.2 else R r.1.2 s.1.2) ∧ r.2=s.2

theorem eachEntry_agree (hs : Simulates R S f g) (n i : Nat) (fs : Fat32Fs) (lba : Nat)
    (sec : Sector) (a : α) (b : β) (h : R a b) :
    Agree R S (eachEntry (fun fs lba sec i a => (f lba i (entryAt sec i) a,fs)) n i fs lba sec a)
      (eachEntry (fun fs lba sec i b => (g lba i (entryAt sec i) b,fs)) n i fs lba sec b) := by
  induction n generalizing i a b with
  | zero => exact ⟨rfl,by simpa [eachEntry] using h,rfl⟩
  | succ n ih =>
    have hr := hs lba i (entryAt sec i) a b h
    rcases hf : f lba i (entryAt sec i) a with ⟨sf,a'⟩
    rcases hg : g lba i (entryAt sec i) b with ⟨sg,b'⟩
    rw [hf,hg] at hr
    simp only at hr
    obtain ⟨rfl,hr⟩ := hr
    cases sf with
    | true => simpa [eachEntry,hf,hg,Agree] using hr
    | false => simpa [eachEntry,hf,hg] using ih (i+1) a' b' (by simpa using hr)

theorem scanSectors_agree (hs : Simulates R S f g) (hrs : ∀a b,R a b → S a b) (base n s : Nat)
    (fs : Fat32Fs) (a : α) (b : β) (h : R a b) :
    Agree R S (scanSectors (looking f) base n s fs a)
      (scanSectors (looking g) base n s fs b) := by
  induction n generalizing s fs a b with
  | zero => exact ⟨rfl,by simpa [scanSectors] using h,rfl⟩
  | succ n ih =>
    unfold scanSectors
    dsimp only
    cases fs.dev.readBlocks ((base+s)%2^32) with
    | none => exact ⟨rfl,hrs a b h,rfl⟩
    | some sec =>
      have he := eachEntry_agree hs 16 0 fs ((base+s)%2^32) sec a b h
      change Agree R S (looking f fs _ sec a) (looking g fs _ sec b) at he
      dsimp only
      rcases hf : looking f fs ((base+s)%2^32) sec a with ⟨⟨sf,a'⟩,ff⟩
      rcases hg : looking g fs ((base+s)%2^32) sec b with ⟨⟨sg,b'⟩,fg⟩
      rw [hf,hg] at he
      obtain ⟨h1,h2,h3⟩ := he
      simp only at h1 h2 h3
      subst h1 h3
      cases sf with
      | true => exact ⟨rfl,h2,rfl⟩
      | false => exact ih (s+1) ff a' b' (by simpa using h2)

theorem scanClusters_agree (hs : Simulates R S f g) (hrs : ∀a b,R a b → S a b) (n clus : Nat)
    (fs : Fat32Fs) (a : α) (b : β) (h : R a b) :
    S (scanClusters (looking f) n clus fs a).1 (scanClusters (looking g) n clus fs b).1 ∧
      (scanClusters (looking f) n clus fs a).2=(scanClusters (looking g) n clus fs b).2 := by
  induction n generalizing clus fs a b with
  | zero => exact ⟨hrs a b h,rfl⟩
  | succ n ih =>
    unfold scanClusters
    by_cases hc : clus<2 ∨ clus≥fs.endCluster
    · rw [if_pos hc,if_pos hc]
      exact ⟨hrs a b h,rfl⟩
    · rw [if_neg hc,if_neg hc]
      have he := scanSectors_agree hs hrs (fs.clusterToLba clus) fs.bpb.secPerClus 0 fs a b h
      rcases hf : scanSectors (looking f) (fs.clusterToLba clus) fs.bpb.secPerClus 0 fs a with
        ⟨⟨sf,a'⟩,ff⟩
      rcases hg : scanSectors (looking g) (fs.clusterToLba clus) fs.bpb.secPerClus 0 fs b with
        ⟨⟨sg,b'⟩,fg⟩
      rw [hf,hg] at he
      obtain ⟨h1,h2,h3⟩ := he
      simp only at h1 h2 h3
      subst h1 h3
      cases sf with
      | true => exact ⟨h2,rfl⟩
      | false =>
        have hr : R a' b' := by simpa using h2
        dsimp only
        by_cases hn : (fatGetEntry ff clus).1≥endOfChain
        · rw [if_pos hn,if_pos hn]
          exact ⟨hrs a' b' hr,rfl⟩
        · rw [if_neg hn,if_neg hn]
          exact ih _ _ a' b' hr

theorem scan_agree (hs : Simulates R S f g) (hrs : ∀a b,R a b → S a b) (fs : Fat32Fs)
    (start : Nat) (a : α) (b : β) (h : R a b) :
    S (fat32ScanDir fs start (looking f) a).1 (fat32ScanDir fs start (looking g) b).1 ∧
      (fat32ScanDir fs start (looking f) a).2=(fat32ScanDir fs start (looking g) b).2 :=
  scanClusters_agree hs hrs _ _ fs a b h

end simulation

theorem scan_keeps (P : α → Prop) (f : Nat → Nat → DirEntry → α → Bool×α)
    (hf : ∀lba i e a,P a → P (f lba i e a).2) (fs : Fat32Fs) (start : Nat) (a : α) (h : P a) :
    P (fat32ScanDir fs start (looking f) a).1 := by
  have hs : Simulates (fun a b => P a ∧ a=b) (fun a b => P a ∧ a=b) f f := by
    rintro lba i e a b ⟨hp,rfl⟩
    exact ⟨rfl,by simpa using hf lba i e a hp⟩
  exact (scan_agree hs (fun _ _ h => h) fs start a a ⟨h,rfl⟩).1.1

end LugalOS.Fat32
