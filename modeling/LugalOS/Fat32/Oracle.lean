import LugalOS.Fat32.Checking

namespace LugalOS.Fat32

open Linked CString

section tree

/-- The entries of a directory that count for `sees`. -/
def entriesOf (fs : Fat32Fs) (sees : DirEntry → Bool) (d : Nat) : List Slot :=
  (inUse (dirSlots fs d)).filter fun t => sees t.entry

/-- The directories that the entries lead to from the root, by their first clusters. -/
inductive Reaches (fs : Fat32Fs) (sees : DirEntry → Bool) : Nat → Prop
  | root : Reaches fs sees fs.rootDirCluster
  | sub {d : Nat} {t : Slot} (hd : Reaches fs sees d) (ht : t∈entriesOf fs sees d)
      (hdir : t.entry.isDirectory=true) (h0 : t.entry.fstClus≠0) :
      Reaches fs sees t.entry.fstClus

def HasEntry (fs : Fat32Fs) (sees : DirEntry → Bool) (t : Slot) : Prop :=
  ∃d,Reaches fs sees d ∧ t∈entriesOf fs sees d

/-- The clusters of an entry; none for a first cluster of 0. -/
def claimed (fs : Fat32Fs) (e : DirEntry) : List Nat :=
  if e.fstClus=0 then [] else chainOf fs e.fstClus

/-- A volume without damage: `sees` tells which entries count, `need` how many clusters a file
has. -/
structure Consistent (fs : Fat32Fs) (sees : DirEntry → Bool) (need : DirEntry → Nat) : Prop where
  root : Proper fs fs.rootDirCluster
  chains : ∀t,HasEntry fs sees t → t.entry.fstClus≠0 → Proper fs t.entry.fstClus
  apartRoot : ∀t,HasEntry fs sees t →
    List.Disjoint (chainOf fs fs.rootDirCluster) (claimed fs t.entry)
  apart : ∀t u,HasEntry fs sees t → HasEntry fs sees u → t≠u →
    List.Disjoint (claimed fs t.entry) (claimed fs u.entry)
  sizes : ∀t,HasEntry fs sees t → t.entry.isDirectory=false →
    (claimed fs t.entry).length=need t.entry
  reached : ∀c,fs.HasCluster c → fs.entry c≠some 0 →
    c∈chainOf fs fs.rootDirCluster ∨ ∃t,HasEntry fs sees t ∧ c∈claimed fs t.entry

end tree

section step

variable {fs : Fat32Fs}

/-- The directory an entry is, if it is one with a cluster. -/
def kids (e : DirEntry) : List Nat :=
  if e.isDirectory ∧ e.fstClus≠0 then [e.fstClus] else []

/-- The problems counted so far, lost clusters apart. -/
def CheckOut.problems (o : CheckOut) : Nat := o.badChain+o.cross+o.size+o.skipped

/-- An entry that the check takes without a complaint. -/
structure Fits (fs : Fat32Fs) (c : CheckCtx) (e : DirEntry) : Prop where
  chain : e.fstClus≠0 → Proper fs e.fstClus
  free : ∀x∈claimed fs e,c.bits x=false
  size : e.isDirectory=false → (claimed fs e).length=checkNeed fs e
  room : e.isDirectory=true → e.fstClus≠0 → c.queue.length<c.qcap

theorem Fits.claimable {c : CheckCtx} {e : DirEntry} (h : Fits fs c e) (h0 : e.fstClus≠0) :
    ∃l,Claimable fs c.bits (e.fstClus::l) := by
  obtain ⟨l,hl⟩ := h.chain h0
  have hfree := h.free
  rw [claimed,if_neg h0,chainOf_ends hl] at hfree
  exact ⟨l,hl,hfree⟩

theorem Claimable.claimed {bits : Nat → Bool} {e : DirEntry} {l : List Nat} (h0 : e.fstClus≠0)
    (h : Claimable fs bits (e.fstClus::l)) : claimed fs e=e.fstClus::l := by
  rw [Fat32.claimed,if_neg h0,chainOf_ends h.1]

/-- What the check does with an entry: it counts a problem, or takes the entry's clusters. -/
structure Took (fs : Fat32Fs) (c c' : CheckCtx) (e : DirEntry) : Prop where
  qcap : c'.qcap=c.qcap
  mono : c.out.problems≤c'.out.problems
  fits : c'.out.problems=c.out.problems ↔ Fits fs c e
  bits : c'.out.problems=c.out.problems → ∀x,c'.bits x=true ↔ c.bits x=true ∨ x∈claimed fs e
  queue : c'.out.problems=c.out.problems → c'.queue=c.queue++kids e

theorem unmarked_le (bits : Nat → Bool) : (unmarked fs bits).card≤fs.totalClusters := by
  have h := Finset.card_filter_le (Finset.Ico 2 (fs.totalClusters+2)) fun c => bits c=false
  rw [Nat.card_Ico] at h
  exact h

theorem checkChain_walked (m : Mounted fs) (hr : Readable fs) (c : CheckCtx) (clus : Nat) :
    Walked fs c clus 0 (checkChain fs c clus).1 ∧ Marks fs c (checkChain fs c clus).1.2 clus := by
  have hle : (unmarked fs c.bits).card≤fs.totalClusters := unmarked_le c.bits
  exact ⟨checkChainLoop_walked m hr (Keeps.refl fs) c clus 0 (by omega),
    checkChainLoop_marks (Nat.succ_ne_zero _) fs rfl m.sound c clus 0⟩

theorem Took.problem {c c' : CheckCtx} {e : DirEntry} (hcap : c'.qcap=c.qcap)
    (hlt : c.out.problems<c'.out.problems) (hno : ¬Fits fs c e) : Took fs c c' e :=
  ⟨hcap,hlt.le,⟨fun h => absurd h hlt.ne',fun h => absurd h hno⟩,fun h => absurd h hlt.ne',
    fun h => absurd h hlt.ne'⟩

theorem Took.clean {c c' : CheckCtx} {e : DirEntry} (hcap : c'.qcap=c.qcap)
    (hsame : c'.out.problems=c.out.problems) (hfits : Fits fs c e)
    (hbits : ∀x,c'.bits x=true ↔ c.bits x=true ∨ x∈claimed fs e)
    (hq : c'.queue=c.queue++kids e) : Took fs c c' e :=
  ⟨hcap,hsame.ge,⟨fun _ => hfits,fun _ => hsame⟩,fun _ => hbits,fun _ => hq⟩

theorem checkEntry_dir (m : Mounted fs) (hr : Readable fs) (c : CheckCtx) {e : DirEntry}
    (hd : e.isDirectory=true) : Took fs c (checkEntry fs c e) e := by
  have hno : e.isDirectory=false → (claimed fs e).length=checkNeed fs e := by
    rw [hd]
    exact fun h => by cases h
  unfold checkEntry
  rw [if_pos hd]
  dsimp only
  by_cases h0 : e.fstClus=0
  · have hclaim : claimed fs e=[] := by rw [claimed,if_pos h0]
    rw [if_pos h0]
    refine .clean rfl rfl ⟨fun h => absurd h0 h,?_,hno,fun _ h => absurd h0 h⟩ (fun x => ?_)
      (by simp [kids,h0])
    · rw [hclaim]
      exact fun x hx => by cases hx
    · rw [hclaim]
      simp
  rw [if_neg h0]
  obtain ⟨hw,hm⟩ := checkChain_walked m hr
    { c with out := { c.out with dirs := c.out.dirs+1 } } e.fstClus
  generalize (checkChain fs { c with out := { c.out with dirs := c.out.dirs+1 } }
    e.fstClus).1=r at hw hm ⊢
  have hq : r.2.queue=c.queue := hm.queue
  have hcap : r.2.qcap=c.qcap := hm.qcap
  have hsz : r.2.out.size=c.out.size := hm.size
  have hsk : r.2.out.skipped=c.out.skipped := hm.skipped
  rcases hw with ⟨l,hl,-,hbad,hcross,hbits⟩ | ⟨hmore,hnone⟩
  · have hl' : Claimable fs c.bits (e.fstClus::l) := hl
    have hbad' : r.2.out.badChain=c.out.badChain := hbad
    have hcross' : r.2.out.cross=c.out.cross := hcross
    have hfirst := hl'.2 e.fstClus List.mem_cons_self
    rw [if_neg (by simp [hfirst]),hq,hcap]
    split
    next hroom =>
      refine .clean rfl ?_ ⟨fun _ => ⟨l,hl'.1⟩,?_,hno,fun _ _ => hroom⟩ (fun x => ?_) ?_
      · unfold CheckOut.problems
        dsimp only
        omega
      · rw [hl'.claimed h0]
        exact hl'.2
      · rw [hl'.claimed h0]
        exact hbits x
      · simp [kids,hd,h0]
    next hroom =>
      refine .problem rfl ?_ fun h => hroom (h.room hd h0)
      unfold CheckOut.problems
      dsimp only
      omega
  · have hmore' : c.out.badChain+c.out.cross < r.2.out.badChain+r.2.out.cross := hmore
    have hnofit : ¬Fits fs c e := by
      intro h
      obtain ⟨l,hl⟩ := h.claimable h0
      exact hnone l hl
    split
    · refine .problem hcap ?_ hnofit
      unfold CheckOut.problems
      omega
    · split
      · refine .problem hcap ?_ hnofit
        unfold CheckOut.problems
        dsimp only
        omega
      · refine .problem hcap ?_ hnofit
        unfold CheckOut.problems
        dsimp only
        omega

theorem checkEntry_file (m : Mounted fs) (hr : Readable fs) (c : CheckCtx) {e : DirEntry}
    (hd : e.isDirectory=false) : Took fs c (checkEntry fs c e) e := by
  have hroom : e.isDirectory=true → e.fstClus≠0 → c.queue.length<c.qcap := by
    rw [hd]
    exact fun h => by cases h
  have hkids : kids e=[] := by simp [kids,hd]
  unfold checkEntry
  rw [if_neg (by simp [hd])]
  dsimp only
  by_cases h0 : e.fstClus=0
  · have hclaim : claimed fs e=[] := by rw [claimed,if_pos h0]
    rw [if_neg (not_not.mpr h0)]
    split
    next hneed =>
      refine .problem rfl ?_ fun h => ?_
      · unfold CheckOut.problems
        dsimp only
        omega
      · have hs := h.size hd
        rw [hclaim] at hs
        exact hneed.1 hs
    next hneed =>
      have hz : checkNeed fs e=0 := by
        by_contra hz
        exact hneed ⟨fun h => hz h.symm,fun h => hz h.2⟩
      refine .clean rfl rfl ⟨fun h => absurd h0 h,?_,fun _ => ?_,hroom⟩ (fun x => ?_)
        (by rw [hkids,List.append_nil])
      · rw [hclaim]
        exact fun x hx => by cases hx
      · rw [hclaim,hz,List.length_nil]
      · rw [hclaim]
        simp
  rw [if_pos h0]
  obtain ⟨hw,hm⟩ := checkChain_walked m hr
    { c with out := { c.out with files := c.out.files+1 } } e.fstClus
  generalize (checkChain fs { c with out := { c.out with files := c.out.files+1 } }
    e.fstClus).1=r at hw hm ⊢
  have hq : r.2.queue=c.queue := hm.queue
  have hcap : r.2.qcap=c.qcap := hm.qcap
  have hsz : r.2.out.size=c.out.size := hm.size
  have hsk : r.2.out.skipped=c.out.skipped := hm.skipped
  rcases hw with ⟨l,hl,hlen,hbad,hcross,hbits⟩ | ⟨hmore,hnone⟩
  · have hl' : Claimable fs c.bits (e.fstClus::l) := hl
    have hbad' : r.2.out.badChain=c.out.badChain := hbad
    have hcross' : r.2.out.cross=c.out.cross := hcross
    have hcount : r.1=(claimed fs e).length := by
      rw [hl'.claimed h0,List.length_cons,hlen]
      omega
    split
    next hneed =>
      refine .problem hcap ?_ fun h => hneed.1 (hcount.trans (h.size hd))
      unfold CheckOut.problems
      dsimp only
      omega
    next hneed =>
      have hz : r.1=checkNeed fs e := by
        by_contra hz
        exact hneed ⟨hz,fun h => h0 h.1⟩
      refine .clean hcap ?_ ⟨fun _ => ⟨l,hl'.1⟩,?_,fun _ => hcount.symm.trans hz,hroom⟩
        (fun x => ?_) (by rw [hkids,List.append_nil,hq])
      · unfold CheckOut.problems
        omega
      · rw [hl'.claimed h0]
        exact hl'.2
      · rw [hl'.claimed h0]
        exact hbits x
  · have hmore' : c.out.badChain+c.out.cross < r.2.out.badChain+r.2.out.cross := hmore
    have hnofit : ¬Fits fs c e := by
      intro h
      obtain ⟨l,hl⟩ := h.claimable h0
      exact hnone l hl
    split
    · refine .problem hcap ?_ hnofit
      unfold CheckOut.problems
      dsimp only
      omega
    · refine .problem hcap ?_ hnofit
      unfold CheckOut.problems
      omega

theorem checkEntry_took (m : Mounted fs) (hr : Readable fs) (c : CheckCtx) (e : DirEntry) :
    Took fs c (checkEntry fs c e) e := by
  cases hd : e.isDirectory with
  | true => exact checkEntry_dir m hr c hd
  | false => exact checkEntry_file m hr c hd

/-- The entries of a directory, one after another. -/
def checkAll (fs : Fat32Fs) (c : CheckCtx) (ts : List Slot) : CheckCtx :=
  ts.foldl (fun c t => checkEntry fs c t.entry) c

/-- Entries whose chains lie apart from one another and from what is marked. -/
structure Laid (fs : Fat32Fs) (bits : Nat → Bool) (ts : List Slot) : Prop where
  chain : ∀t∈ts,t.entry.fstClus≠0 → Proper fs t.entry.fstClus
  free : ∀t∈ts,∀x∈claimed fs t.entry,bits x=false
  size : ∀t∈ts,t.entry.isDirectory=false → (claimed fs t.entry).length=checkNeed fs t.entry
  apart : ts.Pairwise fun t u => List.Disjoint (claimed fs t.entry) (claimed fs u.entry)

theorem checkAll_mono (m : Mounted fs) (hr : Readable fs) (ts : List Slot) (c : CheckCtx) :
    c.out.problems≤(checkAll fs c ts).out.problems ∧ (checkAll fs c ts).qcap=c.qcap := by
  induction ts generalizing c with
  | nil => exact ⟨Nat.le_refl _,rfl⟩
  | cons t ts ih =>
    have ht := checkEntry_took m hr c t.entry
    have hi := ih (checkEntry fs c t.entry)
    exact ⟨ht.mono.trans hi.1,hi.2.trans ht.qcap⟩

theorem checkAll_clean (m : Mounted fs) (hr : Readable fs) (ts : List Slot) (c : CheckCtx)
    (h : (checkAll fs c ts).out.problems=c.out.problems) :
    Laid fs c.bits ts ∧
    (∀x,(checkAll fs c ts).bits x=true ↔ c.bits x=true ∨ ∃t∈ts,x∈claimed fs t.entry) ∧
    (checkAll fs c ts).queue=c.queue++ts.flatMap fun t => kids t.entry := by
  induction ts generalizing c with
  | nil =>
    refine ⟨⟨?_,?_,?_,List.Pairwise.nil⟩,?_,?_⟩ <;> simp [checkAll]
  | cons t ts ih =>
    have ht := checkEntry_took m hr c t.entry
    have hmono := (checkAll_mono m hr ts (checkEntry fs c t.entry)).1
    have h' : (checkAll fs (checkEntry fs c t.entry) ts).out.problems=c.out.problems := h
    have hsame : (checkEntry fs c t.entry).out.problems=c.out.problems :=
      Nat.le_antisymm (h' ▸ hmono) ht.mono
    have hfits := ht.fits.mp hsame
    have hbits := ht.bits hsame
    obtain ⟨hlaid,hall,hq⟩ := ih (checkEntry fs c t.entry) (h'.trans hsame.symm)
    have hold : ∀x,(checkEntry fs c t.entry).bits x=false →
        c.bits x=false ∧ x∉claimed fs t.entry := by
      intro x hx
      have hno : ¬(c.bits x=true ∨ x∈claimed fs t.entry) := fun hor => by
        rw [(hbits x).mpr hor] at hx
        cases hx
      rw [not_or] at hno
      exact ⟨by simpa using hno.1,hno.2⟩
    refine ⟨⟨?_,?_,?_,?_⟩,fun x => ?_,?_⟩
    · intro u hu
      rcases List.mem_cons.mp hu with rfl | hu
      · exact hfits.chain
      · exact hlaid.chain u hu
    · intro u hu x hx
      rcases List.mem_cons.mp hu with rfl | hu
      · exact hfits.free x hx
      · exact (hold x (hlaid.free u hu x hx)).1
    · intro u hu
      rcases List.mem_cons.mp hu with rfl | hu
      · exact hfits.size
      · exact hlaid.size u hu
    · refine List.pairwise_cons.mpr ⟨fun u hu x hx hxu => ?_,hlaid.apart⟩
      exact (hold x (hlaid.free u hu x hxu)).2 hx
    · refine (hall x).trans ?_
      rw [hbits x]
      simp only [List.mem_cons,exists_eq_or_imp,or_assoc]
    · refine hq.trans ?_
      rw [ht.queue hsame,List.flatMap_cons,List.append_assoc]

theorem checkAll_laid (m : Mounted fs) (hr : Readable fs) (ts : List Slot) (c : CheckCtx)
    (hl : Laid fs c.bits ts)
    (hroom : c.queue.length+(ts.flatMap fun t => kids t.entry).length≤c.qcap) :
    (checkAll fs c ts).out.problems=c.out.problems := by
  induction ts generalizing c with
  | nil => rfl
  | cons t ts ih =>
    have ht := checkEntry_took m hr c t.entry
    rw [List.flatMap_cons,List.length_append] at hroom
    have hfits : Fits fs c t.entry := by
      refine ⟨hl.chain t List.mem_cons_self,hl.free t List.mem_cons_self,
        hl.size t List.mem_cons_self,fun hd h0 => ?_⟩
      rw [kids,if_pos ⟨hd,h0⟩,List.length_singleton] at hroom
      omega
    have hsame := ht.fits.mpr hfits
    obtain ⟨hapart,hrest⟩ := List.pairwise_cons.mp hl.apart
    refine (ih (checkEntry fs c t.entry) ⟨fun u hu => hl.chain u (List.mem_cons_of_mem t hu),
      fun u hu x hx => ?_,fun u hu => hl.size u (List.mem_cons_of_mem t hu),hrest⟩ ?_).trans hsame
    · cases hb : (checkEntry fs c t.entry).bits x with
      | false => rfl
      | true =>
        rcases (ht.bits hsame x).mp hb with h | h
        · rw [hl.free u (List.mem_cons_of_mem t hu) x hx] at h
          cases h
        · exact absurd hx (hapart u hu h)
    · rw [ht.queue hsame,List.length_append,ht.qcap]
      omega

end step

section turns

variable {fs : Fat32Fs}

/-- Entries that the scan of one directory can come to. -/
def scanBound (l : Layout) : Nat := 16*l.bpb.secPerClus*(l.totalClusters+1)

/-- Turns that a queued directory can still ask for, apart from the clusters it marks. -/
def weight (fs : Fat32Fs) (d : Nat) : Nat := if fs.HasCluster d then scanBound fs.toLayout+1 else 1

/-- A bound on the turns that are left. -/
def turnsLeft (fs : Fat32Fs) (c : CheckCtx) : Nat :=
  (unmarked fs c.bits).card*(scanBound fs.toLayout+1)+(c.queue.map (weight fs)).sum

theorem checkChain_marks (m : Mounted fs) (c : CheckCtx) (clus : Nat) :
    Marks fs c (checkChain fs c clus).1.2 clus :=
  checkChainLoop_marks (Nat.succ_ne_zero _) fs rfl m.sound c clus 0

theorem Marks.unmarked {c c' : CheckCtx} {clus : Nat} (h : Marks fs c c' clus)
    (hc : fs.HasCluster clus) (hb : c.bits clus=false) :
    (unmarked fs c'.bits).card+1≤(unmarked fs c.bits).card := by
  rw [← unmarked_update hc hb]
  refine Nat.succ_le_succ (unmarked_mono fun x hx => ?_)
  by_cases hx' : x=clus
  · rw [hx']
    exact h.first hc
  · rw [Function.update_of_ne hx'] at hx
    exact h.bits x hx

/-- An entry asks for at most one more turn; a queued directory of the volume has a cluster that
was not marked. -/
theorem checkEntry_turns (m : Mounted fs) (c : CheckCtx) (e : DirEntry) :
    turnsLeft fs (checkEntry fs c e)≤turnsLeft fs c+1 := by
  have hle : ∀c' : CheckCtx,c'.queue=c.queue → (∀x,c.bits x=true → c'.bits x=true) →
      turnsLeft fs c'≤turnsLeft fs c := by
    intro c' hq hb
    have hcard := Nat.mul_le_mul_right (scanBound fs.toLayout+1) (unmarked_mono hb : (unmarked fs _).card≤_)
    unfold turnsLeft
    rw [hq]
    omega
  unfold checkEntry
  by_cases hd : e.isDirectory=true
  · rw [if_pos hd]
    dsimp only
    split
    next => exact Nat.le_succ_of_le (hle _ rfl fun _ h => h)
    next h0 =>
      have hm := checkChain_marks m { c with out := { c.out with dirs := c.out.dirs+1 } } e.fstClus
      generalize (checkChain fs { c with out := { c.out with dirs := c.out.dirs+1 } }
        e.fstClus).1.2=c1 at hm ⊢
      have hq : c1.queue=c.queue := hm.queue
      split
      next => exact Nat.le_succ_of_le (hle c1 hq hm.bits)
      next hseen =>
        split
        next =>
          have hpush : turnsLeft fs { c1 with queue := c1.queue++[e.fstClus] }=
              turnsLeft fs c1+weight fs e.fstClus := by
            unfold turnsLeft
            simp only [List.map_append,List.sum_append,List.map_cons,List.map_nil,List.sum_cons,
              List.sum_nil]
            omega
          rw [hpush,weight]
          have hle1 := hle c1 hq hm.bits
          split
          next hc =>
            have hb : c.bits e.fstClus=false := by
              cases hb : c.bits e.fstClus with
              | false => rfl
              | true =>
                have hlt := hc.2
                rw [← m.sound.endCluster] at hlt
                exact absurd ⟨hc.1,hlt,hb⟩ hseen
            have hcard := hm.unmarked hc hb
            have hmul := Nat.mul_le_mul_right (scanBound fs.toLayout+1) hcard
            rw [Nat.add_mul] at hmul
            unfold turnsLeft
            rw [hq]
            dsimp only at hmul
            omega
          next => omega
        next => exact Nat.le_succ_of_le (hle _ hq hm.bits)
  · rw [if_neg hd]
    dsimp only
    by_cases h0 : e.fstClus≠0
    · rw [if_pos h0]
      have hm := checkChain_marks m { c with out := { c.out with files := c.out.files+1 } }
        e.fstClus
      split <;> exact Nat.le_succ_of_le (hle _ hm.queue hm.bits)
    · rw [if_neg h0]
      split <;> exact Nat.le_succ_of_le (hle _ rfl fun _ h => h)

theorem checkAll_turns (m : Mounted fs) (ts : List Slot) (c : CheckCtx) :
    turnsLeft fs (checkAll fs c ts)≤turnsLeft fs c+ts.length := by
  induction ts generalizing c with
  | nil => exact Nat.le_refl _
  | cons t ts ih =>
    have h1 := checkEntry_turns m c t.entry
    have h2 := ih (checkEntry fs c t.entry)
    rw [List.length_cons]
    change turnsLeft fs (checkAll fs (checkEntry fs c t.entry) ts)≤_
    omega

theorem scanned_length (fs : Fat32Fs) (n c : Nat) : (scanned fs n c).length≤n := by
  induction n generalizing c with
  | zero => exact Nat.le_refl 0
  | succ n ih =>
    rw [scanned]
    split
    · rw [List.length_cons]
      split
      · simp
      · exact Nat.succ_le_succ (ih _)
    · simp

theorem readSlots_length (dev : BlockDev) (x : List Nat) :
    (readSlots dev x).length≤16*x.length := by
  induction x with
  | nil => exact Nat.le_refl 0
  | cons lba x ih =>
    rw [readSlots]
    cases dev.readBlocks lba with
    | none => simp
    | some s =>
      simp only [slotsOfSector,List.length_append,List.length_map,List.length_range',
        List.length_cons]
      omega

theorem flatMap_lbas_length (l : Layout) (x : List Nat) :
    (x.flatMap l.clusterLbas).length=l.bpb.secPerClus*x.length := by
  induction x with
  | nil => rfl
  | cons c x ih =>
    rw [List.flatMap_cons,List.length_append,ih,List.length_cons,Layout.clusterLbas,
      List.length_map,List.length_range',Nat.mul_succ]
    omega

theorem checkedSlots_length (fs : Fat32Fs) (d : Nat) :
    (checkedSlots fs d).length+1≤weight fs d := by
  rw [weight]
  have hsub : (checkedSlots fs d).length≤(dirSlots fs d).length :=
    ((List.filter_sublist).trans (List.takeWhile_sublist _)).length_le
  split
  next =>
    have h1 := readSlots_length fs.dev
      ((scanned fs (fs.totalClusters+1) d).flatMap fs.clusterLbas)
    have h2 := Nat.mul_le_mul_left fs.bpb.secPerClus (scanned_length fs (fs.totalClusters+1) d)
    rw [flatMap_lbas_length] at h1
    unfold dirSlots at hsub
    unfold scanBound
    rw [Nat.mul_assoc]
    omega
  next hc =>
    have hnil : dirSlots fs d=[] := by
      rw [dirSlots,scanned,if_neg hc]
      rfl
    rw [hnil,List.length_nil] at hsub
    omega

theorem checkDirs_turn (m : Mounted fs) {fs' : Fat32Fs} (hk : Keeps fs fs') (n : Nat)
    {c : CheckCtx} {d : Nat} {rest : List Nat} (hq : c.queue=d::rest) :
    ∃fs'',Keeps fs fs'' ∧ checkDirs (n+1) fs' c=
      checkDirs n fs'' (checkAll fs { c with queue := rest } (checkedSlots fs d)) := by
  obtain ⟨h1,h2⟩ := scan_check m hk d { c with queue := rest }
  refine ⟨_,h2,?_⟩
  rw [checkDirs,hq]
  dsimp only
  rw [h1]
  rfl

/-- The walk comes to its end, on whatever the volume holds. -/
theorem checkDirs_ends (m : Mounted fs) (n : Nat) {fs' : Fat32Fs} (hk : Keeps fs fs')
    (c : CheckCtx) (hn : turnsLeft fs c<n) :
    Keeps fs (checkDirs n fs' c).2 ∧ (checkDirs n fs' c).1.queue=[] := by
  induction n generalizing fs' c with
  | zero => omega
  | succ n ih =>
    cases hq : c.queue with
    | nil =>
      rw [checkDirs,hq]
      exact ⟨hk,hq⟩
    | cons d rest =>
      obtain ⟨fs'',hk',heq⟩ := checkDirs_turn m hk n hq
      rw [heq]
      refine ih hk' _ ?_
      have hall := checkAll_turns m (checkedSlots fs d) { c with queue := rest }
      have hlen := checkedSlots_length fs d
      have hpop : turnsLeft fs c=turnsLeft fs { c with queue := rest }+weight fs d := by
        unfold turnsLeft
        rw [hq,List.map_cons,List.sum_cons,Nat.add_left_comm,Nat.add_comm]
      exact lt_of_le_of_lt hall (by omega)

end turns

section walk

variable {fs : Fat32Fs}

/-- The directories in a directory. -/
def kidsOf (fs : Fat32Fs) (d : Nat) : List Nat := (checkedSlots fs d).flatMap fun t => kids t.entry

theorem Laid.append {bits bits' : Nat → Bool} {ts us : List Slot} (h : Laid fs bits ts)
    (h' : Laid fs bits' us)
    (hb : ∀x,bits' x=true ↔ bits x=true ∨ ∃t∈ts,x∈claimed fs t.entry) :
    Laid fs bits (ts++us) := by
  have hfree : ∀u∈us,∀x∈claimed fs u.entry,bits x=false ∧ ∀t∈ts,x∉claimed fs t.entry := by
    intro u hu x hx
    have hno : ¬(bits x=true ∨ ∃t∈ts,x∈claimed fs t.entry) := fun hor => by
      have hx' := h'.free u hu x hx
      rw [(hb x).mpr hor] at hx'
      cases hx'
    rw [not_or] at hno
    exact ⟨by simpa using hno.1,fun t ht hxt => hno.2 ⟨t,ht,hxt⟩⟩
  refine ⟨fun t ht => ?_,fun t ht x hx => ?_,fun t ht => ?_,?_⟩
  · exact (List.mem_append.mp ht).elim (h.chain t) (h'.chain t)
  · rcases List.mem_append.mp ht with ht | ht
    · exact h.free t ht x hx
    · exact (hfree t ht x hx).1
  · exact (List.mem_append.mp ht).elim (h.size t) (h'.size t)
  · refine List.pairwise_append.mpr ⟨h.apart,h'.apart,fun t ht u hu x hx hxu => ?_⟩
    exact (hfree u hu x hxu).2 t ht hx

theorem checkDirs_mono (m : Mounted fs) (hr : Readable fs) (n : Nat) {fs' : Fat32Fs}
    (hk : Keeps fs fs') (c : CheckCtx) : c.out.problems≤(checkDirs n fs' c).1.out.problems := by
  induction n generalizing fs' c with
  | zero => exact Nat.le_refl _
  | succ n ih =>
    cases hq : c.queue with
    | nil =>
      rw [checkDirs,hq]
    | cons d rest =>
      obtain ⟨fs'',hk',heq⟩ := checkDirs_turn m hk n hq
      rw [heq]
      exact ((checkAll_mono m hr (checkedSlots fs d) { c with queue := rest }).1).trans
        (ih hk' _)

/-- What a walk without a complaint went through: the directories `ds`. -/
structure Toured (fs : Fat32Fs) (c c' : CheckCtx) (ds : List Nat) : Prop where
  order : ds=c.queue++ds.flatMap (kidsOf fs)
  laid : Laid fs c.bits (ds.flatMap (checkedSlots fs))
  bits : ∀x,c'.bits x=true ↔ c.bits x=true ∨ ∃t∈ds.flatMap (checkedSlots fs),x∈claimed fs t.entry
  reaches : (∀d∈c.queue,Reaches fs checkSees d) → ∀d∈ds,Reaches fs checkSees d

theorem mem_kids {e : DirEntry} {k : Nat} :
    k∈kids e ↔ e.isDirectory=true ∧ e.fstClus≠0 ∧ k=e.fstClus := by
  unfold kids
  split
  next h => simp [h.1,h.2]
  next h =>
    refine ⟨fun hk => by (cases hk),fun hk => absurd ⟨hk.1,hk.2.1⟩ h⟩

theorem checkDirs_clean (m : Mounted fs) (hr : Readable fs) (n : Nat) {fs' : Fat32Fs}
    (hk : Keeps fs fs') (c : CheckCtx) (hend : (checkDirs n fs' c).1.queue=[])
    (h : (checkDirs n fs' c).1.out.problems=c.out.problems) :
    ∃ds,Toured fs c (checkDirs n fs' c).1 ds := by
  induction n generalizing fs' c with
  | zero =>
    have hq : c.queue=[] := hend
    refine ⟨[],⟨by rw [hq]; rfl,⟨?_,?_,?_,List.Pairwise.nil⟩,?_,?_⟩⟩ <;>
      simp [checkDirs]
  | succ n ih =>
    cases hq : c.queue with
    | nil =>
      refine ⟨[],⟨by rw [hq]; rfl,⟨?_,?_,?_,List.Pairwise.nil⟩,?_,?_⟩⟩ <;>
        simp [checkDirs,hq]
    | cons d rest =>
      obtain ⟨fs'',hk',heq⟩ := checkDirs_turn m hk n hq
      rw [heq] at h hend ⊢
      have h1 := (checkAll_mono m hr (checkedSlots fs d) { c with queue := rest }).1
      have h2 := checkDirs_mono m hr n hk' (checkAll fs { c with queue := rest }
        (checkedSlots fs d))
      have hsame : (checkAll fs { c with queue := rest } (checkedSlots fs d)).out.problems=
          c.out.problems := Nat.le_antisymm (h ▸ h2) h1
      obtain ⟨hlaid,hbits,hqueue⟩ := checkAll_clean m hr (checkedSlots fs d)
        { c with queue := rest } hsame
      obtain ⟨ds,ht⟩ := ih hk' _ hend (h.trans hsame.symm)
      refine ⟨d::ds,⟨?_,?_,fun x => ?_,fun hreach d' hd' => ?_⟩⟩
      · rw [List.flatMap_cons,hq,List.cons_append,← List.append_assoc]
        conv => lhs; rw [ht.order,hqueue]
        rfl
      · rw [List.flatMap_cons]
        exact hlaid.append ht.laid hbits
      · rw [ht.bits x,hbits x,or_assoc,List.flatMap_cons]
        refine or_congr_right ?_
        constructor
        · rintro (⟨t,hm,hx⟩ | ⟨t,hm,hx⟩)
          · exact ⟨t,List.mem_append_left _ hm,hx⟩
          · exact ⟨t,List.mem_append_right _ hm,hx⟩
        · rintro ⟨t,hm,hx⟩
          exact (List.mem_append.mp hm).imp (fun hm => ⟨t,hm,hx⟩) fun hm => ⟨t,hm,hx⟩
      · have hd : Reaches fs checkSees d := hreach d (by rw [hq]; exact List.mem_cons_self)
        rcases List.mem_cons.mp hd' with rfl | hd'
        · exact hd
        · refine ht.reaches (fun k hk => ?_) d' hd'
          rw [hqueue] at hk
          rcases List.mem_append.mp hk with hk | hk
          · exact hreach k (by rw [hq]; exact List.mem_cons_of_mem d hk)
          · obtain ⟨t,hm,hkid⟩ := List.mem_flatMap.mp hk
            obtain ⟨hdir,h0,rfl⟩ := mem_kids.mp hkid
            exact .sub hd hm hdir h0

theorem Consistent.proper {sees : DirEntry → Bool} {need : DirEntry → Nat}
    (hc : Consistent fs sees need) {d : Nat} (h : Reaches fs sees d) : Proper fs d := by
  cases h with
  | root => exact hc.root
  | sub hd ht hdir h0 => exact hc.chains _ ⟨_,hd,ht⟩ h0

theorem Consistent.dirs_apart {sees : DirEntry → Bool} {need : DirEntry → Nat}
    (hc : Consistent fs sees need) {d d' : Nat} (h : Reaches fs sees d)
    (h' : Reaches fs sees d') (hne : d≠d') : List.Disjoint (chainOf fs d) (chainOf fs d') := by
  have hclaim : ∀t : Slot,t.entry.fstClus≠0 →
      claimed fs t.entry=chainOf fs t.entry.fstClus := fun t h0 => by rw [claimed,if_neg h0]
  cases h with
  | root =>
    cases h' with
    | root => exact absurd rfl hne
    | @sub e u he hu _ hu0 =>
      rw [← hclaim u hu0]
      exact hc.apartRoot u ⟨e,he,hu⟩
  | @sub e t he ht _ ht0 =>
    cases h' with
    | root =>
      rw [← hclaim t ht0]
      exact (hc.apartRoot t ⟨e,he,ht⟩).symm
    | @sub e' u he' hu _ hu0 =>
      rw [← hclaim t ht0,← hclaim u hu0]
      refine hc.apart t u ⟨e,he,ht⟩ ⟨e',he',hu⟩ fun htu => ?_
      rw [htu] at hne
      exact hne rfl

theorem Consistent.dir_of_slot {need : DirEntry → Nat} (hc : Consistent fs checkSees need)
    {d d' : Nat} {t : Slot} (h : Reaches fs checkSees d) (h' : Reaches fs checkSees d')
    (ht : t∈checkedSlots fs d) (ht' : t∈checkedSlots fs d') : d=d' := by
  by_contra hne
  obtain ⟨c,j,hcd,hcl,hj,hl⟩ := mem_dirSlots (inUse_mem (List.mem_of_mem_filter ht)).1
  obtain ⟨c',j',hcd',hcl',hj',hl'⟩ := mem_dirSlots (inUse_mem (List.mem_of_mem_filter ht')).1
  have heq : c=c' := dataLba_cluster hcl hcl' hj hj' (hl.symm.trans hl')
  exact hc.dirs_apart h h' hne hcd (heq ▸ hcd')

theorem checkedSlots_nodup {d : Nat} (h : Proper fs d) : (checkedSlots fs d).Nodup :=
  ((dirSlots_nodup (show Chained fs d from h.ends.nodup)).sublist (List.takeWhile_sublist _)).filter _

/-- A walk over a volume without damage: the directories behind it and the queue. -/
structure Touring (fs : Fat32Fs) (done : List Nat) (c : CheckCtx) : Prop where
  bits : ∀x,c.bits x=true ↔ x∈chainOf fs fs.rootDirCluster ∨
    ∃d∈done,∃t∈checkedSlots fs d,x∈claimed fs t.entry
  reach : ∀d∈done++c.queue,Reaches fs checkSees d
  nodup : (done++c.queue).Nodup
  marked : ∀d∈done++c.queue,c.bits d=true

theorem Touring.laid (hc : Consistent fs checkSees (checkNeed fs)) {done : List Nat}
    {c : CheckCtx} (h : Touring fs done c) {d : Nat} {rest : List Nat} (hq : c.queue=d::rest) :
    Laid fs c.bits (checkedSlots fs d) := by
  have hmem : d∈done++c.queue := by simp [hq]
  have hd := h.reach d hmem
  have hent : ∀t∈checkedSlots fs d,HasEntry fs checkSees t := fun t ht => ⟨d,hd,ht⟩
  refine ⟨fun t ht => hc.chains t (hent t ht),fun t ht x hx => ?_,
    fun t ht => hc.sizes t (hent t ht),?_⟩
  · cases hb : c.bits x with
    | false => rfl
    | true =>
      rcases (h.bits x).mp hb with hroot | ⟨d',hd',u,hu,hxu⟩
      · exact absurd hx (hc.apartRoot t (hent t ht) hroot)
      · have hr' := h.reach d' (List.mem_append_left _ hd')
        have hne : t≠u := fun htu => by
          rw [← htu] at hu
          have heq := hc.dir_of_slot hd hr' ht hu
          have hdis := (List.nodup_append.mp h.nodup).2.2 d' hd' d (by simp [hq])
          exact hdis heq.symm
        exact absurd hxu (hc.apart t u (hent t ht) ⟨d',hr',hu⟩ hne hx)
  · refine (checkedSlots_nodup (hc.proper hd)).imp_of_mem fun {t u} ht hu hne => ?_
    exact hc.apart t u (hent t ht) (hent u hu) hne

theorem kid_claimed {ts : List Slot} {bits : Nat → Bool} (h : Laid fs bits ts) {t : Slot}
    (ht : t∈ts) {k : Nat} (hk : k∈kids t.entry) : k∈claimed fs t.entry := by
  obtain ⟨-,h0,rfl⟩ := mem_kids.mp hk
  rw [claimed,if_neg h0]
  exact (h.chain t ht h0).head

theorem Touring.fresh (hc : Consistent fs checkSees (checkNeed fs)) {done : List Nat}
    {c : CheckCtx} (h : Touring fs done c) {d : Nat} {rest : List Nat} (hq : c.queue=d::rest) :
    (done++d::rest++kidsOf fs d).Nodup := by
  have hlaid := h.laid hc hq
  refine List.nodup_append.mpr ⟨hq ▸ h.nodup,?_,fun a ha k hk hak => ?_⟩
  · refine List.nodup_flatMap.mpr ⟨fun t _ => ?_,hlaid.apart.imp_of_mem ?_⟩
    · unfold kids
      split <;> simp
    · intro t u ht hu hdis k hkt hku
      exact hdis (kid_claimed hlaid ht hkt) (kid_claimed hlaid hu hku)
  · obtain ⟨t,ht,hkt⟩ := List.mem_flatMap.mp hk
    have hfree := hlaid.free t ht k (kid_claimed hlaid ht hkt)
    rw [← hak,h.marked a (by rw [hq]; exact ha)] at hfree
    cases hfree

theorem checkDirs_laid (m : Mounted fs) (hr : Readable fs)
    (hc : Consistent fs checkSees (checkNeed fs)) (S : Finset Nat)
    (hS : ∀d,Reaches fs checkSees d → d∈S) (n : Nat) {fs' : Fat32Fs} (hk : Keeps fs fs')
    {done : List Nat} {c : CheckCtx} (hcap : S.card≤c.qcap) (h : Touring fs done c) :
    (checkDirs n fs' c).1.out.problems=c.out.problems := by
  induction n generalizing fs' done c with
  | zero => rfl
  | succ n ih =>
    cases hq : c.queue with
    | nil => rw [checkDirs,hq]
    | cons d rest =>
      obtain ⟨fs'',hk',heq⟩ := checkDirs_turn m hk n hq
      have hlaid := h.laid hc hq
      have hfresh := h.fresh hc hq
      have hd : Reaches fs checkSees d := h.reach d (by simp [hq])
      have hreach : ∀k∈done++d::rest++kidsOf fs d,Reaches fs checkSees k := by
        intro k hk
        rcases List.mem_append.mp hk with hk | hk
        · exact h.reach k (by rw [hq]; exact hk)
        · obtain ⟨t,ht,hkt⟩ := List.mem_flatMap.mp hk
          obtain ⟨hdir,h0,rfl⟩ := mem_kids.mp hkt
          exact .sub hd ht hdir h0
      have hlen : (done++d::rest++kidsOf fs d).length≤S.card := by
        rw [← List.toFinset_card_of_nodup hfresh]
        exact Finset.card_le_card fun k hk => hS k (hreach k (List.mem_toFinset.mp hk))
      have hroom : rest.length+(kidsOf fs d).length≤c.qcap := by
        simp only [List.length_append,List.length_cons] at hlen
        omega
      have hsame := checkAll_laid m hr (checkedSlots fs d) { c with queue := rest } hlaid hroom
      obtain ⟨-,hbits,hqueue⟩ := checkAll_clean m hr (checkedSlots fs d)
        { c with queue := rest } hsame
      have hall : done++[d]++(checkAll fs { c with queue := rest } (checkedSlots fs d)).queue=
          done++d::rest++kidsOf fs d := by
        rw [hqueue,kidsOf]
        simp
      rw [heq]
      have hcap' : S.card≤(checkAll fs { c with queue := rest } (checkedSlots fs d)).qcap :=
        hcap.trans (checkAll_mono m hr (checkedSlots fs d) { c with queue := rest }).2.ge
      refine (@ih _ hk' (done++[d]) _ hcap' ⟨fun x => ?_,?_,?_,?_⟩).trans hsame
      · rw [hbits x,h.bits x,or_assoc]
        refine or_congr_right ?_
        simp only [List.mem_append,List.mem_singleton,or_and_right,exists_or,exists_eq_left]
      · rw [hall]
        exact hreach
      · rw [hall]
        exact hfresh
      · rw [hall]
        intro k hk
        rw [hbits k]
        rcases List.mem_append.mp hk with hk | hk
        · exact .inl (h.marked k (by rw [hq]; exact hk))
        · obtain ⟨t,ht,hkt⟩ := List.mem_flatMap.mp hk
          exact .inr ⟨t,ht,kid_claimed hlaid ht hkt⟩

end walk

section lost

variable {fs : Fat32Fs}

theorem lostLoop_state (m : Mounted fs) (bits : Nat → Bool) (n clus lost : Nat)
    (hn : fs.totalClusters+2-clus<n) : (lostLoop fs bits n clus lost).2=fs := by
  induction n generalizing clus lost with
  | zero => omega
  | succ n ih =>
    unfold lostLoop
    split
    next hlt =>
      rw [m.sound.endCluster] at hlt ⊢
      cases fs.dev.readBlocks (fs.fatSector clus) with
      | none => rfl
      | some sec => exact ih _ _ (by omega)
    next => rfl

theorem entry_in_sector (m : Mounted fs) {clus j : Nat} {sec : Sector}
    (hsec : fs.dev.readBlocks (fs.fatSector clus)=some sec) (hc : fs.HasCluster clus)
    (hcj : fs.HasCluster (clus+j)) (hj : clus%128+j<128) :
    fs.entry (clus+j)=some (word sec (clus%128+j)%2^28) := by
  have hs : fs.fatSector (clus+j)=fs.fatSector clus := by
    rw [m.sound.fatSector _ hcj,m.sound.fatSector _ hc]
    omega
  rw [Fat32Fs.entry,hs,hsec,Option.map_some,fatWord_eq,show (clus+j)%128=clus%128+j by omega]

theorem lostLoop_spec (m : Mounted fs) (hr : Readable fs) (bits : Nat → Bool) (n clus lost : Nat)
    (h2 : 2≤clus) (hn : fs.totalClusters+2-clus<n) :
    (lostLoop fs bits n clus lost).1.1=true ∧ lost≤(lostLoop fs bits n clus lost).1.2 ∧
    ((lostLoop fs bits n clus lost).1.2=lost ↔
      ∀c,clus≤c → c<fs.totalClusters+2 → fs.entry c=some 0 ∨ bits c=true) := by
  induction n generalizing clus lost with
  | zero => omega
  | succ n ih =>
    unfold lostLoop
    rw [m.sound.endCluster]
    by_cases hlt : clus<fs.totalClusters+2
    · have hc : fs.HasCluster clus := ⟨h2,hlt⟩
      obtain ⟨sec,hsec⟩ := Option.isSome_iff_exists.mp
        (hr _ (.inl (m.sound.fatSector_inFat1 clus hc)))
      rw [if_pos hlt,hsec]
      dsimp only
      generalize hstep : min (128-clus%128) (fs.totalClusters+2-clus)=k
      have hk : 0<k ∧ clus%128+k≤128 ∧ clus+k≤fs.totalClusters+2 := by omega
      obtain ⟨h1,hle,hiff⟩ := ih (clus+k) (lost+lostInSector sec bits clus (fs.totalClusters+2))
        (by omega) (by omega)
      have hsector : lostInSector sec bits clus (fs.totalClusters+2)=0 ↔
          ∀c,clus≤c → c<clus+k → fs.entry c=some 0 ∨ bits c=true := by
        rw [lostInSector,List.length_eq_zero_iff,List.filter_eq_nil_iff,hstep]
        constructor
        · intro h c hc1 hc2
          have hj := h (c-clus) (List.mem_range.mpr (by omega))
          rw [show clus+(c-clus)=c by omega] at hj
          have he := entry_in_sector m hsec hc (j := c-clus) ⟨by omega,by omega⟩ (by omega)
          rw [show clus+(c-clus)=c by omega] at he
          by_cases hb : bits c=true
          · exact .inr hb
          · left
            rw [he]
            by_contra hne
            exact hj (decide_eq_true ⟨fun h0 => hne (congrArg some h0),by simpa using hb⟩)
        · intro h j hj hlost
          have hj' := List.mem_range.mp hj
          have hlost' := of_decide_eq_true hlost
          rcases h (clus+j) (by omega) (by omega) with h0 | hb
          · rw [entry_in_sector m hsec hc ⟨by omega,by omega⟩ (by omega)] at h0
            exact hlost'.1 (Option.some.inj h0)
          · rw [hb] at hlost'
            cases hlost'.2
      refine ⟨h1,by omega,?_⟩
      constructor
      · intro heq c hc1 hc2
        by_cases hck : c<clus+k
        · exact hsector.mp (by omega) c hc1 hck
        · exact hiff.mp (by omega) c (by omega) hc2
      · intro h
        have hz := hsector.mpr fun c hc1 hc2 => h c hc1 (by omega)
        have htail := hiff.mpr fun c hc1 hc2 => h c (by omega) hc2
        omega
    · rw [if_neg hlt]
      refine ⟨rfl,Nat.le_refl _,fun _ c hc1 hc2 => ?_,fun _ => rfl⟩
      omega

end lost

section oracle

variable {fs : Fat32Fs}

/-- A check that finished and counted no problem. -/
def CleanCheck (fs : Fat32Fs) (bitmapBytes qcap : Nat) : Prop :=
  ∃out,(fat32Check fs bitmapBytes qcap).1=some (true,out) ∧ out.badChain=0 ∧ out.cross=0 ∧
    out.size=0 ∧ out.lost=0 ∧ out.skipped=0

/-- The live entries of a directory but "." and "..". -/
def isLive (e : DirEntry) : Bool := listed e && !isDotName e.name

/-- The clusters that the bytes of a file take. -/
def clustersFor (fs : Fat32Fs) (e : DirEntry) : Nat := (e.fileSize+fs.bpc-1)/fs.bpc

/-- The bitmap has a bit for each FAT entry, and the queue room for each directory. -/
structure Buffers (fs : Fat32Fs) (bitmapBytes qcap : Nat) : Prop where
  bitmap : (fs.totalClusters+2+7)/8≤bitmapBytes
  queue : ∃S : Finset Nat,(∀d,Reaches fs isLive d → d∈S) ∧ S.card≤qcap

/-- A directory that the check gets to: its chain is whole, and so on the way to it, and none of
the other entries that the check follows has a cluster in common with it. -/
inductive Followed (fs : Fat32Fs) : Nat → Prop
  | root : Followed fs fs.rootDirCluster
  | sub {d : Nat} {t : Slot} (hd : Followed fs d) (ht : t∈entriesOf fs isLive d)
      (hdir : t.entry.isDirectory=true) (h0 : t.entry.fstClus≠0)
      (hchain : Proper fs t.entry.fstClus)
      (happ : ∀u,HasEntry fs checkSees u → u≠t →
        List.Disjoint (claimed fs u.entry) (claimed fs t.entry)) : Followed fs t.entry.fstClus

/-- In the directories that the check gets to no entry but "." and ".." starts with a dot, and no
file ends in the last cluster before 2^32. -/
def Plain (fs : Fat32Fs) : Prop :=
  ∀d t,Followed fs d → t∈entriesOf fs isLive d → t.entry.head≠dot ∧
    (t.entry.isDirectory=false → t.entry.fileSize+fs.bpc≤2^32)

/-- The walk of the check, from the root's chain on. -/
def checkRoot (fs : Fat32Fs) (qcap : Nat) : CheckCtx :=
  { (checkChain fs ⟨fun _ => false,[],qcap,⟨0,0,0,0,0,0,0,0⟩⟩ fs.rootDirCluster).1.2 with
    queue := [fs.rootDirCluster] }

theorem checkRoot_turns (m : Mounted fs) (qcap : Nat) :
    turnsLeft fs (checkRoot fs qcap)<fs.checkSteps := by
  have hm := checkChain_marks m ⟨fun _ => false,[],qcap,⟨0,0,0,0,0,0,0,0⟩⟩ fs.rootDirCluster
  have hcard := hm.unmarked m.sound.root rfl
  have hle : (unmarked fs fun _ => false).card≤fs.totalClusters := unmarked_le _
  have hmul : (unmarked fs (checkRoot fs qcap).bits).card*(scanBound fs.toLayout+1)+
      (scanBound fs.toLayout+1)≤fs.totalClusters*(scanBound fs.toLayout+1) := by
    rw [← Nat.succ_mul]
    exact Nat.mul_le_mul_right _ (hcard.trans hle)
  have hw : weight fs fs.rootDirCluster=scanBound fs.toLayout+1 := if_pos m.sound.root
  have hsteps : fs.checkSteps=(fs.totalClusters+2)*(scanBound fs.toLayout+1)+1 := rfl
  have hmono := Nat.mul_le_mul_right (scanBound fs.toLayout+1)
    (Nat.le_add_right fs.totalClusters 2)
  have hturns : turnsLeft fs (checkRoot fs qcap)=
      (unmarked fs (checkRoot fs qcap).bits).card*(scanBound fs.toLayout+1)+
        (scanBound fs.toLayout+1) := by
    unfold turnsLeft
    rw [show (checkRoot fs qcap).queue=[fs.rootDirCluster] from rfl,List.map_singleton,
      List.sum_singleton,hw]
  omega

theorem fat32Check_parts (m : Mounted fs) {bitmapBytes qcap : Nat}
    (h : ¬(qcap=0 ∨ bitmapBytes<(fs.totalClusters+2+7)%2^32/8)) :
    ∃fs1 : Fat32Fs,Keeps fs fs1 ∧
      fat32Check fs bitmapBytes qcap=
        (some ((lostLoop (checkDirs fs.checkSteps fs1 (checkRoot fs qcap)).2
            (checkDirs fs.checkSteps fs1 (checkRoot fs qcap)).1.bits (fs.totalClusters+3) 2 0).1.1,
          { (checkDirs fs.checkSteps fs1 (checkRoot fs qcap)).1.out with
            lost := (lostLoop (checkDirs fs.checkSteps fs1 (checkRoot fs qcap)).2
              (checkDirs fs.checkSteps fs1 (checkRoot fs qcap)).1.bits
              (fs.totalClusters+3) 2 0).1.2 }),
          (lostLoop (checkDirs fs.checkSteps fs1 (checkRoot fs qcap)).2
            (checkDirs fs.checkSteps fs1 (checkRoot fs qcap)).1.bits
            (fs.totalClusters+3) 2 0).2) := by
  refine ⟨(checkChain fs ⟨fun _ => false,[],qcap,⟨0,0,0,0,0,0,0,0⟩⟩ fs.rootDirCluster).2,
    checkChainLoop_keeps _ m _ _ _,?_⟩
  rw [fat32Check,if_neg h]
  rfl

/-- The check ends on every image: no loop of it uses up its steps. -/
theorem fat32Check_ends (m : Mounted fs) (bitmapBytes qcap : Nat) :
    (fat32Check fs bitmapBytes qcap).2.outOfSteps=fs.outOfSteps := by
  by_cases h : qcap=0 ∨ bitmapBytes<(fs.totalClusters+2+7)%2^32/8
  · rw [fat32Check,if_pos h]
  · obtain ⟨fs1,hk,heq⟩ := fat32Check_parts m h
    obtain ⟨hk',-⟩ := checkDirs_ends m fs.checkSteps hk (checkRoot fs qcap)
      (checkRoot_turns m qcap)
    have hstate := lostLoop_state (hk'.mounted m)
      (checkDirs fs.checkSteps fs1 (checkRoot fs qcap)).1.bits (fs.totalClusters+3) 2 0
      (by rw [hk'.layout]; omega)
    rw [heq]
    rw [hstate]
    exact hk'.steps

theorem checkRoot_clean (m : Mounted fs) (hr : Readable fs) (qcap : Nat) :
    (checkRoot fs qcap).qcap=qcap ∧
    ((checkRoot fs qcap).out.problems=0 ↔ Proper fs fs.rootDirCluster) ∧
    ((checkRoot fs qcap).out.problems=0 → ∀x,(checkRoot fs qcap).bits x=true ↔
      x∈chainOf fs fs.rootDirCluster) := by
  obtain ⟨hw,hm⟩ := checkChain_walked m hr ⟨fun _ => false,[],qcap,⟨0,0,0,0,0,0,0,0⟩⟩
    fs.rootDirCluster
  have hsz : (checkRoot fs qcap).out.size=0 := hm.size
  have hsk : (checkRoot fs qcap).out.skipped=0 := hm.skipped
  refine ⟨hm.qcap,?_⟩
  rcases hw with ⟨l,hl,-,hbad,hcross,hbits⟩ | ⟨hmore,hnone⟩
  · have hbad' : (checkRoot fs qcap).out.badChain=0 := hbad
    have hcross' : (checkRoot fs qcap).out.cross=0 := hcross
    refine ⟨⟨fun _ => ⟨l,hl.1⟩,fun _ => ?_⟩,fun _ x => ?_⟩
    · unfold CheckOut.problems
      omega
    · rw [chainOf_ends hl.1]
      refine (hbits x).trans ?_
      simp
  · have hmore' : 0<(checkRoot fs qcap).out.badChain+(checkRoot fs qcap).out.cross := hmore
    have hpos : (checkRoot fs qcap).out.problems≠0 := by
      unfold CheckOut.problems
      omega
    refine ⟨⟨fun h => absurd h hpos,fun hp => ?_⟩,fun h => absurd h hpos⟩
    obtain ⟨l,hl⟩ := hp
    exact absurd ⟨hl,fun _ _ => rfl⟩ (hnone l)

theorem live_of_sees {e : DirEntry} (h : checkSees e=true) : isLive e=true := by
  simp only [checkSees,Bool.and_eq_true,Bool.not_eq_true',bne_iff_ne] at h
  have hl : listed e=true := by rw [listed_eq,h.1]; rfl
  have hd : isDotName e.name=false := by
    rw [Bool.eq_false_iff]
    intro hd
    rw [isDotName,Bool.or_eq_true,beq_iff_eq,beq_iff_eq] at hd
    refine h.2 ?_
    rw [DirEntry.head]
    rcases hd with hd | hd <;> rw [hd] <;> rfl
  rw [isLive,hl,hd]
  rfl

theorem entries_live {d : Nat} {t : Slot} (h : t∈entriesOf fs checkSees d) :
    t∈entriesOf fs isLive d := by
  obtain ⟨h1,h2⟩ := List.mem_filter.mp h
  exact List.mem_filter.mpr ⟨h1,live_of_sees h2⟩

theorem reaches_live {d : Nat} (h : Reaches fs checkSees d) : Reaches fs isLive d := by
  induction h with
  | root => exact .root
  | sub hd ht hdir h0 ih => exact .sub ih (entries_live ht) hdir h0

/-- A clean check: exactly the volumes without damage among the entries the check follows. -/
theorem clean_iff (m : Mounted fs) (hr : Readable fs) {bitmapBytes qcap : Nat}
    (hb : Buffers fs bitmapBytes qcap) :
    CleanCheck fs bitmapBytes qcap ↔ Consistent fs checkSees (checkNeed fs) := by
  obtain ⟨hbm,S,hS,hcard⟩ := hb
  have hS' : ∀d,Reaches fs checkSees d → d∈S := fun d hd => hS d (reaches_live hd)
  have hpos : 0<S.card := Finset.card_pos.mpr ⟨fs.rootDirCluster,hS _ .root⟩
  have hroom : ¬(qcap=0 ∨ bitmapBytes<(fs.totalClusters+2+7)%2^32/8) := by
    omega
  obtain ⟨fs1,hk,heq⟩ := fat32Check_parts m hroom
  obtain ⟨hk',hend⟩ := checkDirs_ends m fs.checkSteps hk (checkRoot fs qcap)
    (checkRoot_turns m qcap)
  have hmono := checkDirs_mono m hr fs.checkSteps hk (checkRoot fs qcap)
  obtain ⟨hqcap,hroot,hrbits⟩ := checkRoot_clean m hr qcap
  have hclean := checkDirs_clean m hr fs.checkSteps hk (checkRoot fs qcap) hend
  have hlaid := fun hc : Consistent fs checkSees (checkNeed fs) =>
    @checkDirs_laid fs m hr hc S hS' fs.checkSteps fs1 hk [] (checkRoot fs qcap)
      (by rw [hqcap]; exact hcard)
  generalize checkDirs fs.checkSteps fs1 (checkRoot fs qcap)=w at heq hk' hend hmono hclean hlaid
  have hlost := lostLoop_spec (hk'.mounted m) (hk'.readable hr) w.1.bits (fs.totalClusters+3) 2 0
    (Nat.le_refl 2) (by rw [hk'.layout]; omega)
  -- the walk met every entry, once it had no complaint
  have htour : w.1.out.problems=0 → ∃L : List Slot,(∀t,HasEntry fs checkSees t ↔ t∈L) ∧
      Proper fs fs.rootDirCluster ∧ Laid fs (checkRoot fs qcap).bits L ∧
      (∀x,(checkRoot fs qcap).bits x=true ↔ x∈chainOf fs fs.rootDirCluster) ∧
      ∀x,w.1.bits x=true ↔ x∈chainOf fs fs.rootDirCluster ∨ ∃t∈L,x∈claimed fs t.entry := by
    intro hz
    have hr0 : (checkRoot fs qcap).out.problems=0 := by omega
    obtain ⟨ds,ht⟩ := hclean (by omega)
    have hds : ∀d,Reaches fs checkSees d → d∈ds := by
      intro d hd
      induction hd with
      | root =>
        rw [ht.order]
        exact List.mem_append_left _ List.mem_cons_self
      | @sub d t _ hm hdir h0 ih =>
        rw [ht.order]
        refine List.mem_append_right _ (List.mem_flatMap.mpr ⟨d,ih,?_⟩)
        exact List.mem_flatMap.mpr ⟨t,hm,mem_kids.mpr ⟨hdir,h0,rfl⟩⟩
    have hreach := ht.reaches fun d hd => by
      rw [List.mem_singleton.mp hd]
      exact .root
    refine ⟨ds.flatMap (checkedSlots fs),fun t => ⟨?_,fun hm => ?_⟩,hroot.mp hr0,ht.laid,
      hrbits hr0,fun x => ?_⟩
    · rintro ⟨d,hd,hm⟩
      exact List.mem_flatMap.mpr ⟨d,hds d hd,hm⟩
    · obtain ⟨d,hd,hm⟩ := List.mem_flatMap.mp hm
      exact ⟨d,hreach d hd,hm⟩
    · rw [ht.bits x,hrbits hr0 x]
  constructor
  · rintro ⟨out,hout,h1,h2,h3,h4,h5⟩
    rw [heq] at hout
    obtain ⟨-,hout⟩ := Prod.mk.inj (Option.some.inj hout)
    rw [← hout] at h1 h2 h3 h4 h5
    have hz : w.1.out.problems=0 := by
      unfold CheckOut.problems
      dsimp only at h1 h2 h3 h5
      omega
    obtain ⟨L,hL,hproper,hl,hrb,hbits⟩ := htour hz
    refine ⟨hproper,fun t ht => hl.chain t ((hL t).mp ht),fun t ht x hx hxt => ?_,
      fun t u ht hu hne => ?_,fun t ht => hl.size t ((hL t).mp ht),fun c hc hne => ?_⟩
    · have hfree := hl.free t ((hL t).mp ht) x hxt
      rw [(hrb x).mpr hx] at hfree
      cases hfree
    · have : Std.Symm fun t u : Slot => List.Disjoint (claimed fs t.entry) (claimed fs u.entry) :=
        ⟨fun _ _ h => h.symm⟩
      exact hl.apart.forall ((hL t).mp ht) ((hL u).mp hu) hne
    · have hb := hlost.2.2.mp h4 c hc.1 (by rw [hk'.layout]; exact hc.2)
      rw [hk'.entry m.sound c hc] at hb
      refine ((hbits c).mp (hb.resolve_left hne)).imp id ?_
      rintro ⟨t,ht,hx⟩
      exact ⟨t,(hL t).mpr ht,hx⟩
  · intro hc
    have hr0 := hroot.mpr hc.root
    have hstart : Touring fs [] (checkRoot fs qcap) := by
      refine ⟨fun x => ?_,fun d hd => ?_,List.nodup_singleton _,fun d hd => ?_⟩
      · rw [hrbits hr0 x]
        simp
      · rw [List.mem_singleton.mp hd]
        exact .root
      · rw [List.mem_singleton.mp hd,hrbits hr0]
        exact hc.root.head
    have hz : w.1.out.problems=0 := (hlaid hc hstart).trans hr0
    obtain ⟨L,hL,-,-,-,hbits⟩ := htour hz
    have hnone := hlost.2.2.mpr fun c h2 hlt => by
      rw [hk'.layout] at hlt
      rw [hk'.entry m.sound c ⟨h2,hlt⟩]
      by_cases h0 : fs.entry c=some 0
      · exact .inl h0
      · refine .inr ((hbits c).mpr ((hc.reached c ⟨h2,hlt⟩ h0).imp id ?_))
        rintro ⟨t,ht,hx⟩
        exact ⟨t,(hL t).mp ht,hx⟩
    unfold CheckOut.problems at hz
    refine ⟨{ w.1.out with lost := (lostLoop w.2 w.1.bits (fs.totalClusters+3) 2 0).1.2 },?_,
      ?_,?_,?_,hnone,?_⟩
    · rw [heq,hlost.1]
    · dsimp only
      omega
    · dsimp only
      omega
    · dsimp only
      omega
    · dsimp only
      omega

theorem plain_sees (hp : Plain fs) {d : Nat} (hd : Followed fs d) {t : Slot}
    (ht : t∈entriesOf fs isLive d) : t∈entriesOf fs checkSees d := by
  obtain ⟨h1,h2⟩ := List.mem_filter.mp ht
  refine List.mem_filter.mpr ⟨h1,?_⟩
  rw [isLive,Bool.and_eq_true,listed_eq] at h2
  rw [checkSees,h2.1,Bool.true_and,bne_iff_ne]
  exact (hp d t hd ht).1

theorem plain_walked {sees : DirEntry → Bool} {need : DirEntry → Nat} (hp : Plain fs)
    (hc : Consistent fs sees need)
    (hs : sees=isLive ∨ sees=checkSees) {d : Nat} (h : Reaches fs isLive d) :
    Followed fs d ∧ Reaches fs checkSees d := by
  induction h with
  | root => exact ⟨.root,.root⟩
  | @sub d t hd ht hdir h0 ih =>
    have hsee := plain_sees hp ih.1 ht
    have hall : ∀u,HasEntry fs checkSees u → HasEntry fs sees u := by
      rintro u ⟨d',hd',hu⟩
      rcases hs with rfl | rfl
      · exact ⟨d',reaches_live hd',entries_live hu⟩
      · exact ⟨d',hd',hu⟩
    have hthis := hall t ⟨d,ih.2,hsee⟩
    exact ⟨.sub ih.1 ht hdir h0 (hc.chains t hthis h0) fun u hu hne =>
      hc.apart u t (hall u hu) hthis hne,.sub ih.2 hsee hdir h0⟩

theorem plain_entry (hp : Plain fs) (hw : ∀d,Reaches fs isLive d → Followed fs d ∧
    Reaches fs checkSees d) (t : Slot) : HasEntry fs checkSees t ↔ HasEntry fs isLive t := by
  constructor
  · rintro ⟨d,hd,ht⟩
    exact ⟨d,reaches_live hd,entries_live ht⟩
  · rintro ⟨d,hd,ht⟩
    exact ⟨d,(hw d hd).2,plain_sees hp (hw d hd).1 ht⟩

theorem bpc_pos (l : Layout) : 0<l.bpc := by
  unfold Layout.bpc
  split <;> omega

theorem plain_consistent_iff (hp : Plain fs) (hw : ∀d,Reaches fs isLive d → Followed fs d ∧
    Reaches fs checkSees d) :
    Consistent fs checkSees (checkNeed fs) ↔ Consistent fs isLive (clustersFor fs) := by
  have hneed : ∀t,HasEntry fs isLive t → t.entry.isDirectory=false →
      checkNeed fs t.entry=clustersFor fs t.entry := by
    rintro t ⟨d,hd,ht⟩ hf
    have hsize := (hp d t (hw d hd).1 ht).2 hf
    rw [checkNeed,clustersFor,Nat.mod_eq_of_lt (by omega)]
  have he := plain_entry hp hw
  constructor
  · intro h
    refine ⟨h.root,fun t ht => h.chains t ((he t).mpr ht),fun t ht => h.apartRoot t ((he t).mpr ht),
      fun t u ht hu => h.apart t u ((he t).mpr ht) ((he u).mpr hu),fun t ht hd => ?_,
      fun c hc h0 => (h.reached c hc h0).imp id ?_⟩
    · rw [h.sizes t ((he t).mpr ht) hd,hneed t ht hd]
    · rintro ⟨t,ht,hx⟩
      exact ⟨t,(he t).mp ht,hx⟩
  · intro h
    refine ⟨h.root,fun t ht => h.chains t ((he t).mp ht),fun t ht => h.apartRoot t ((he t).mp ht),
      fun t u ht hu => h.apart t u ((he t).mp ht) ((he u).mp hu),fun t ht hd => ?_,
      fun c hc h0 => (h.reached c hc h0).imp id ?_⟩
    · rw [h.sizes t ((he t).mp ht) hd,hneed t ((he t).mp ht) hd]
    · rintro ⟨t,ht,hx⟩
      exact ⟨t,(he t).mpr ht,hx⟩

theorem plain_consistent (hp : Plain fs) :
    Consistent fs checkSees (checkNeed fs) ↔ Consistent fs isLive (clustersFor fs) :=
  ⟨fun h => (plain_consistent_iff hp fun _ hd => plain_walked hp h (.inr rfl) hd).mp h,
    fun h => (plain_consistent_iff hp fun _ hd => plain_walked hp h (.inl rfl) hd).mpr h⟩

/-- The check ends on every image. A clean one is a volume without damage among the entries that
the check follows; among all live entries when none but "." and ".." starts with a dot and no
file is as long as 2^32 less a cluster. -/
theorem check_oracle (m : Mounted fs) (bitmapBytes qcap : Nat) :
    (fat32Check fs bitmapBytes qcap).2.outOfSteps=fs.outOfSteps ∧
    (Readable fs → Buffers fs bitmapBytes qcap →
      (CleanCheck fs bitmapBytes qcap ↔ Consistent fs checkSees (checkNeed fs)) ∧
      (Plain fs →
        (CleanCheck fs bitmapBytes qcap ↔ Consistent fs isLive (clustersFor fs)))) :=
  ⟨fat32Check_ends m bitmapBytes qcap,fun hr hb => ⟨clean_iff m hr hb,fun hp =>
    (clean_iff m hr hb).trans (plain_consistent hp)⟩⟩

theorem cleanCheck_of {bitmapBytes qcap : Nat}
    (h : ((fat32Check fs bitmapBytes qcap).1.map fun r =>
      (r.1,r.2.badChain,r.2.cross,r.2.size,r.2.lost,r.2.skipped))=some (true,0,0,0,0,0)) :
    CleanCheck fs bitmapBytes qcap := by
  obtain ⟨⟨rc,out⟩,hr,heq⟩ := Option.map_eq_some_iff.mp h
  simp only [Prod.mk.injEq] at heq
  obtain ⟨rfl,h1,h2,h3,h4,h5⟩ := heq
  exact ⟨out,hr,h1,h2,h3,h4,h5⟩

theorem volumeWithDir_readable : Readable volumeWithDir := by
  intro lba h
  have hv : volumeWithDir.fatStartSector=32 ∧ volumeWithDir.dataStartSector=34 ∧
      volumeWithDir.bpb.fatSz32=1 ∧ volumeWithDir.totalClusters*volumeWithDir.bpb.secPerClus=30 ∧
      volumeWithDir.dev.numBlocks=64 := by decide +kernel
  obtain ⟨h1,h2,h3,h4,h5⟩ := hv
  rw [Layout.InFat1,Layout.InData,h1,h2,h3,h4] at h
  rw [BlockDev.readBlocks,h5,if_pos (by omega)]
  rfl

theorem volumeWithDir_entries : ((entriesOf volumeWithDir isLive 2).all fun t =>
      decide (t.entry.fstClus=3) && (t.entry.head != dot && t.entry.isDirectory))=true ∧
    (entriesOf volumeWithDir isLive 3).length=0 := by decide +kernel

theorem volumeWithDir_dirs {d : Nat} (h : Reaches volumeWithDir isLive d) : d=2 ∨ d=3 := by
  induction h with
  | root => exact .inl rfl
  | @sub d t _ ht _ _ ih =>
    rcases ih with rfl | rfl
    · have h2 := List.all_eq_true.mp volumeWithDir_entries.1 t ht
      rw [Bool.and_eq_true,decide_eq_true_eq] at h2
      exact .inr h2.1
    · rw [List.length_eq_zero_iff.mp volumeWithDir_entries.2] at ht
      cases ht

theorem Followed.reaches {d : Nat} (h : Followed fs d) : Reaches fs isLive d := by
  induction h with
  | root => exact .root
  | sub _ ht hdir h0 _ _ ih => exact .sub ih ht hdir h0

theorem volumeWithDir_plain : Plain volumeWithDir := by
  intro d t hd ht
  rcases volumeWithDir_dirs hd.reaches with rfl | rfl
  · have h := List.all_eq_true.mp volumeWithDir_entries.1 t ht
    rw [Bool.and_eq_true,Bool.and_eq_true,bne_iff_ne] at h
    refine ⟨h.2.1,fun hf => ?_⟩
    rw [h.2.2] at hf
    cases hf
  · rw [List.length_eq_zero_iff.mp volumeWithDir_entries.2] at ht
    cases ht

theorem volumeWithDir_buffers : Buffers volumeWithDir 8 8 := by
  refine ⟨by decide +kernel,{2,3},fun d hd => ?_,by decide⟩
  rcases volumeWithDir_dirs hd with rfl | rfl <;> decide

theorem volumeWithDir_clean : CleanCheck volumeWithDir 8 8 := cleanCheck_of (by decide +kernel)

theorem volumeWithDir_consistent : Consistent volumeWithDir isLive (clustersFor volumeWithDir) :=
  (plain_consistent volumeWithDir_plain).mp
    ((clean_iff volumeWithDir_mounted volumeWithDir_readable volumeWithDir_buffers).mp
      volumeWithDir_clean)

/-- A formatted volume with a directory passes, and is without damage. -/
theorem check_oracle_dir : Consistent volumeWithDir isLive (clustersFor volumeWithDir) :=
  (((check_oracle volumeWithDir_mounted 8 8).2 volumeWithDir_readable volumeWithDir_buffers).2
    volumeWithDir_plain).mp volumeWithDir_clean

/-- A volume whose one entry, ".A", has a chain outside the volume. -/
def strayVolume : Fat32Fs :=
  (smallVolume.write .data 34 (putSize (putClus (putAttr (putName zeroSector 0
    (ofString ".A         ")) 0 attrArchive) 0 999) 0 512)).2

/-- The check finds nothing wrong with it. -/
theorem stray_passes : CleanCheck strayVolume 8 8 ∧
    ¬Consistent strayVolume isLive (clustersFor strayVolume) := by
  refine ⟨cleanCheck_of (by decide +kernel),fun h => ?_⟩
  have hent : ∃t∈entriesOf strayVolume isLive 2,t.entry.fstClus=999 := by decide +kernel
  obtain ⟨t,ht,hf⟩ := hent
  have hroot : Reaches strayVolume isLive 2 := .root
  obtain ⟨l,hl⟩ := h.chains t ⟨2,hroot,ht⟩ (by rw [hf]; decide)
  have hc := ends_has hl _ List.mem_cons_self
  rw [hf] at hc
  exact absurd hc (by decide +kernel)

end oracle

end LugalOS.Fat32
