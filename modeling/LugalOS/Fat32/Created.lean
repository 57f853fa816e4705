import LugalOS.Fat32.Spared

namespace LugalOS.Fat32

open Linked CString LittleEndian

section contents

/-- A stored name that the scans take for one: not deleted, and free of the bytes that mark an
entry as corrupt. -/
def Storable (name83 : Bytes) : Prop :=
  name83.headD 0≠0xE5 ∧ ∀c∈name83,¬(c<0x20 ∧ c≠0 ∧ c≠0x05) ∧ c∉illegalChars

instance (name83 : Bytes) : Decidable (Storable name83) := inferInstanceAs (Decidable (_ ∧ _))

/-- The attributes of the entries that the driver writes. -/
def PlainAttr (e : DirEntry) : Prop :=
  e.attr=attrArchive ∨ e.attr=attrDirectory ∧ e.fileSize=0

theorem listed_plain {e : DirEntry} (ha : PlainAttr e) : listed e=true ↔ Storable e.name := by
  have hattr : e.isLongName=false ∧ e.isVolumeId=false ∧ (e.attr &&& 0xC0 != 0)=false ∧
      (e.isDirectory && e.fileSize != 0)=false := by
    rcases ha with h | ⟨h,hs⟩
    · simp only [DirEntry.isLongName,DirEntry.isVolumeId,DirEntry.isDirectory,h]
      exact ⟨by decide,by decide,by decide,rfl⟩
    · simp only [DirEntry.isLongName,DirEntry.isVolumeId,DirEntry.isDirectory,h,hs]
      exact ⟨by decide,by decide,by decide,rfl⟩
  obtain ⟨h1,h2,h3,h4⟩ := hattr
  have hhead : ∀c,c<0x20 → c≠0 → c≠0x05 → c=e.head → e.name.any (fun c =>
      (c<0x20 && c != 0 && c != 0x05) || illegalChars.contains c)=true := by
    intro c hc h0 h5 he
    have hmem : c∈e.name := by
      rw [DirEntry.head] at he
      cases hn : e.name with
      | nil =>
        rw [hn] at he
        exact absurd he h0
      | cons x l =>
        rw [he,hn]
        exact List.mem_cons_self
    exact List.any_eq_true.mpr ⟨c,hmem,by simp [hc,h0,h5]⟩
  have hcorrupt : dirEntryIsCorrupt e=e.name.any fun c =>
      (c<0x20 && c != 0 && c != 0x05) || illegalChars.contains c := by
    rw [dirEntryIsCorrupt,if_neg (by simp [h1]),if_neg (by simp [h3]),if_neg (by simp [h4])]
    split
    next h =>
      simp only [Bool.and_eq_true,bne_iff_ne,decide_eq_true_eq] at h
      exact (hhead e.head h.2 h.1.1.1 h.1.2 rfl).symm
    next => rfl
  rw [listed,h1,h2,hcorrupt,Storable]
  simp only [Bool.not_false,Bool.and_true,Bool.and_eq_true,Bool.not_eq_true',DirEntry.isDeleted,
    DirEntry.head,beq_eq_false_iff_ne]
  refine and_congr_right fun _ => ?_
  rw [List.any_eq_false]
  refine forall₂_congr fun c _ => ?_
  simp

theorem listed_storable {e : DirEntry} (h : listed e=true) : Storable e.name := by
  simp only [listed,Bool.and_eq_true,Bool.not_eq_true'] at h
  obtain ⟨⟨⟨hdel,hlong⟩,-⟩,hcorrupt⟩ := h
  rw [dirEntryIsCorrupt,hlong] at hcorrupt
  simp only [Bool.false_eq_true,if_false] at hcorrupt
  split_ifs at hcorrupt
  rw [List.any_eq_false] at hcorrupt
  refine ⟨by simpa [DirEntry.isDeleted,DirEntry.head] using hdel,fun c hc => ?_⟩
  have hno := hcorrupt c hc
  simpa using hno

theorem inUse_append {pre post : List Slot} (hpre : ∀t∈pre,t.entry.isEnd=false) :
    inUse (pre++post)=pre++inUse post := by
  unfold inUse
  rw [List.takeWhile_append_of_pos fun t ht => by rw [hpre t ht]; rfl]

/-- A directory before and after one of its slots was written: the slot was a match, or free or
corrupt in a directory without a match, and nothing in front of it matches or ends. -/
structure Put (name83 : Bytes) (old new : List Slot) (R : DirEntry) : Prop where
  split : ∃pre u post,inUse old=inUse (pre++u::post) ∧ new=pre++⟨u.lba,u.idx,R⟩::post ∧
    (∀t∈pre,t.entry.isEnd=false ∧ matchesName name83 t=false) ∧
    (matchesName name83 u=true ∨ (inUse old).find? (matchesName name83)=none ∧
      (dirEntryIsFree u.entry || dirEntryIsCorrupt u.entry)=true)

theorem inUse_put {pre post : List Slot} {u : Slot} (hpre : ∀t∈pre,t.entry.isEnd=false) :
    inUse (pre++u::post)=pre++if u.entry.isEnd then [] else u::inUse post := by
  rw [inUse_append hpre,inUse_cons]

theorem shown_inUse (l : List Slot) : shown l=(inUse l).filter fun t => listed t.entry := rfl

theorem listed_free {e : DirEntry} (h : listed e=true) :
    e.isDeleted=false ∧ dirEntryIsCorrupt e=false := by
  simp only [listed,Bool.and_eq_true,Bool.not_eq_true'] at h
  exact ⟨h.1.1.1,h.2⟩

theorem not_listed_of_free {e : DirEntry} (hend : e.isEnd=false)
    (h : (dirEntryIsFree e || dirEntryIsCorrupt e)=true) : listed e=false := by
  cases hl : listed e with
  | false => rfl
  | true =>
    rw [dirEntryIsFree,hend,(listed_free hl).1,(listed_free hl).2] at h
    cases h

theorem matches_name {name83 : Bytes} {t : Slot} (h : matchesName name83 t=true) :
    t.entry.name=name83 := by
  simp only [matchesName,Bool.and_eq_true,beq_iff_eq] at h
  exact h.1.2

variable {name83 : Bytes} {old new : List Slot} {R : DirEntry}

theorem Put.find_same (h : Put name83 old new R) (hend : R.isEnd=false) (hname : R.name=name83)
    {n : Bytes} (hne : n≠name83) {t : Slot}
    (ht : (shown old).find? (fun t => t.entry.name=n)=some t) :
    (shown new).find? (fun t => t.entry.name=n)=some t := by
  obtain ⟨pre,u,post,hold,rfl,hpre,hu⟩ := h.split
  have hpre' : ∀t∈pre,t.entry.isEnd=false := fun t ht => (hpre t ht).1
  rw [shown_inUse,hold,inUse_put hpre',List.filter_append,List.find?_append] at ht
  rw [shown_inUse,inUse_put hpre',hend,List.filter_append,List.find?_append]
  cases hf : (pre.filter fun t => listed t.entry).find? (fun t => t.entry.name=n) with
  | some v =>
    rw [hf] at ht
    exact ht
  | none =>
    rw [hf,Option.none_or] at ht
    rw [Option.none_or]
    -- the slot that was written does not hold the name, before or after
    have hnew : ∀l : List Slot,(List.filter (fun t => listed t.entry)
        ((⟨u.lba,u.idx,R⟩ : Slot)::l)).find? (fun t => t.entry.name=n)=
        (l.filter fun t => listed t.entry).find? (fun t => t.entry.name=n) := by
      intro l
      rw [List.filter_cons]
      split
      · exact List.find?_cons_of_neg (by simpa [hname] using hne.symm)
      · rfl
    cases he : u.entry.isEnd with
    | true =>
      rw [he] at ht
      cases ht
    | false =>
      rw [he] at ht
      simp only [Bool.false_eq_true,if_false] at ht ⊢
      rw [hnew]
      rw [List.filter_cons] at ht
      split at ht
      next hl =>
        rw [List.find?_cons_of_neg] at ht
        · exact ht
        · intro hun
          rcases hu with hu | ⟨-,hu⟩
          · exact hne ((of_decide_eq_true hun).symm.trans (matches_name hu))
          · rw [not_listed_of_free he hu] at hl
            cases hl
      next => exact ht

theorem Put.find_new (h : Put name83 old new R) (hend : R.isEnd=false) (hname : R.name=name83)
    (ha : PlainAttr R) :
    if Storable name83 then ∃t,(shown new).find? (fun t => t.entry.name=name83)=some t ∧ t.entry=R
    else (shown new).find? (fun t => t.entry.name=name83)=none := by
  obtain ⟨pre,u,post,hold,rfl,hpre,hu⟩ := h.split
  have hpre' : ∀t∈pre,t.entry.isEnd=false := fun t ht => (hpre t ht).1
  have hlist := listed_plain ha
  rw [hname] at hlist
  rw [shown_inUse,inUse_put hpre',hend,List.filter_append,List.find?_append]
  have hnone : (pre.filter fun t => listed t.entry).find? (fun t => t.entry.name=name83)=none := by
    rw [List.find?_eq_none]
    intro t ht hn
    obtain ⟨hm,hl⟩ := List.mem_filter.mp ht
    have hmatch := matches_of_listed hl (hpre' t hm) (of_decide_eq_true hn)
    rw [(hpre t hm).2] at hmatch
    cases hmatch
  rw [hnone,Option.none_or]
  simp only [Bool.false_eq_true,if_false]
  split
  next hs =>
    refine ⟨⟨u.lba,u.idx,R⟩,?_,rfl⟩
    rw [List.filter_cons,if_pos (hlist.mpr hs),List.find?_cons_of_pos (by simpa using hname)]
  next hs =>
    rw [List.filter_cons,if_neg fun hl => hs (hlist.mp hl),List.find?_eq_none]
    intro t ht hn
    -- no listed entry has a name that is not storable
    obtain ⟨-,hl⟩ := List.mem_filter.mp ht
    refine hs ?_
    have hname' : t.entry.name=name83 := of_decide_eq_true hn
    rw [← hname']
    exact listed_storable hl

theorem Put.kept (h : Put name83 old new R) (hend : R.isEnd=false) {t : Slot} (ht : t∈inUse old)
    (hfree : (dirEntryIsFree t.entry || dirEntryIsCorrupt t.entry)=false)
    (hne : t.entry.name≠name83) : t∈inUse new := by
  obtain ⟨pre,u,post,hold,rfl,hpre,hu⟩ := h.split
  have hpre' : ∀t∈pre,t.entry.isEnd=false := fun t ht => (hpre t ht).1
  rw [hold,inUse_put hpre'] at ht
  rw [inUse_put hpre',hend]
  rcases List.mem_append.mp ht with ht | ht
  · exact List.mem_append_left _ ht
  · refine List.mem_append_right _ ?_
    split at ht
    next => cases ht
    next =>
      rcases List.mem_cons.mp ht with rfl | ht
      · rcases hu with hu | ⟨-,hu⟩
        · exact absurd (matches_name hu) hne
        · rw [hu] at hfree
          cases hfree
      · exact List.mem_cons_of_mem _ ht

end contents

section edit

variable {fs : Fat32Fs}

/-- A slot with another entry at one place. -/
def editSlot (lba i : Nat) (e : DirEntry) (t : Slot) : Slot :=
  if t.lba=lba ∧ t.idx=i then ⟨lba,i,e⟩ else t

theorem slotsOfSector_edit {lba i : Nat} {s s' : Sector} (h : SameBut i s s') :
    slotsOfSector lba s'=(slotsOfSector lba s).map (editSlot lba i (entryAt s' i)) := by
  rw [slotsOfSector,slotsOfSector,List.map_map]
  refine List.map_congr_left fun j hj => ?_
  by_cases hji : j=i
  · simp [editSlot,hji]
  · have hent : entryAt s' j=entryAt s j := entryAt_congr s' s j fun k h1 h2 => h k (by omega)
    simp [editSlot,hji,hent]

theorem readSlots_edit {dev dev' : BlockDev} {lba i : Nat} {s s' : Sector}
    (hs : dev.readBlocks lba=some s) (hs' : dev'.readBlocks lba=some s')
    (hne : ∀k,k≠lba → dev'.readBlocks k=dev.readBlocks k) (h : SameBut i s s') (x : List Nat) :
    readSlots dev' x=(readSlots dev x).map (editSlot lba i (entryAt s' i)) := by
  induction x with
  | nil => rfl
  | cons k x ih =>
    rw [readSlots,readSlots]
    by_cases hk : k=lba
    · rw [hk,hs,hs']
      dsimp only
      rw [List.map_append,ih,slotsOfSector_edit h]
    · rw [hne k hk]
      cases dev.readBlocks k with
      | none => rfl
      | some sk =>
        dsimp only
        rw [List.map_append,ih]
        congr 1
        refine ((List.map_congr_left fun t ht => ?_).trans (List.map_id _)).symm
        obtain ⟨j,-,rfl⟩ := List.mem_map.mp ht
        simp [editSlot,hk]

theorem Stores.chainOf {S : Nat → Prop} {fs' : Fat32Fs} (h : Stores S fs fs') (m : Mounted fs)
    {c : Nat} (hp : Proper fs c) : chainOf fs' c=chainOf fs c ∧ Proper fs' c := by
  obtain ⟨l,hl⟩ := hp
  have hl' := hl.congr fun x hx => fatLink_congr h.layout (h.entry m.sound x (ends_has hl x hx))
  rw [chainOf_ends hl]
  exact ⟨chainOf_ends hl',l,hl'⟩

theorem dirSlots_write (m : Mounted fs) {d : Nat} (hp : Proper fs d) {pre post : List Slot}
    {u : Slot} (hL : dirSlots fs d=pre++u::post) {s s' : Sector}
    (hs : fs.dev.readBlocks u.lba=some s) (h : SameBut u.idx s s') :
    dirSlots (fs.write .data u.lba s').2 d=pre++⟨u.lba,u.idx,entryAt s' u.idx⟩::post := by
  have hu : u∈dirSlots fs d := by
    rw [hL]
    simp
  have hin := (dirSlots_lba m hu).1
  have hscan : scanned (fs.write .data u.lba s').2 (fs.totalClusters+1) d=
      scanned fs (fs.totalClusters+1) d := ((write_stores fs m u.lba s' hin).chainOf m hp).1
  have hself := write_read_self fs .data u.lba s' (readBlocks_some fs.dev u.lba s hs)
  have hmap := readSlots_edit hs hself (fun k hk => write_read_ne fs .data u.lba k s' hk) h
    ((scanned fs (fs.totalClusters+1) d).flatMap fs.clusterLbas)
  have hone : ∀t∈dirSlots fs d,t.lba=u.lba ∧ t.idx=u.idx → t=u := by
    rintro ⟨lba,idx,e⟩ ht ⟨h1,h2⟩
    have he := slot_at ht hu h1 h2
    obtain ⟨ulba,uidx,ue⟩ := u
    cases h1
    cases h2
    cases he
    rfl
  have hnodup := dirSlots_nodup (show Chained fs d from hp.ends.nodup)
  rw [hL] at hnodup hone
  obtain ⟨-,hcons,hdis⟩ := List.nodup_append.mp hnodup
  have hsame : ∀l : List Slot,(∀t∈l,t≠u ∧ t∈pre++u::post) →
      l.map (editSlot u.lba u.idx (entryAt s' u.idx))=l := by
    intro l hl
    refine (List.map_congr_left fun t ht => ?_).trans (List.map_id _)
    rw [editSlot,if_neg fun hplace => (hl t ht).1 (hone t (hl t ht).2 hplace)]
    rfl
  rw [dirSlots,write_layout,hscan,hmap,show readSlots fs.dev
    ((scanned fs (fs.totalClusters+1) d).flatMap fs.clusterLbas)=dirSlots fs d from rfl,hL,
    List.map_append,List.map_cons,hsame pre,hsame post,editSlot,if_pos ⟨rfl,rfl⟩]
  · intro t ht
    exact ⟨fun htu => (List.nodup_cons.mp hcons).1 (htu ▸ ht),by simp [ht]⟩
  · intro t ht
    exact ⟨fun htu => hdis t ht u List.mem_cons_self htu,by simp [ht]⟩

end edit

end LugalOS.Fat32
