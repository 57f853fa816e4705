import LugalOS.Fat32.Growing

namespace LugalOS.Fat32

open Linked CString LittleEndian

section resolve

variable {fs g : Fat32Fs} {V : Nat → Prop}

/-- The first live entry of a stored name. -/
def nameIn (fs : Fat32Fs) (d : Nat) (name83 : Bytes) : Option Slot :=
  (liveSlots fs d).find? fun t => t.entry.name=name83

/-- The walk of a path's components, on the slots of the directories. -/
def parentOf (fs : Fat32Fs) : Nat → List Bytes → Nat×Bytes
  | cur,[] => (cur,[])
  | cur,[last] => (cur,copyInto outNameSize last)
  | cur,curr::c::rest =>
    if curr≠[] then
      let next := componentCluster fs.rootDirCluster
        ((nameIn fs cur (filenameTo83 curr)).map Slot.entry)
      if next=0 then (0,[]) else parentOf fs next (c::rest)
    else parentOf fs cur (c::rest)

theorem parentLoop_eq (m : Mounted fs) {s : Fat32Fs} (hk : Keeps fs s) (cur : Nat)
    (comps : List Bytes) : (parentLoop s cur comps).1=parentOf fs cur comps := by
  induction comps generalizing s cur with
  | nil => rfl
  | cons curr comps ih =>
    cases comps with
    | nil => rfl
    | cons c rest =>
      unfold parentLoop parentOf
      by_cases h0 : curr≠[]
      · have hscan : (fat32ScanDir s cur (findFileCb (filenameTo83 curr)) none).1=
            (nameIn fs cur (filenameTo83 curr)).map Slot.entry :=
          (scan_look_stable (fun _ _ => findStep (filenameTo83 curr)) m hk cur none).trans
            (findFile_scan m cur (filenameTo83 curr))
        have hks : Keeps s (fat32ScanDir s cur (findFileCb (filenameTo83 curr)) none).2 :=
          scan_look_keeps s (hk.mounted m) (fun _ _ => findStep (filenameTo83 curr)) cur none
        rw [if_pos h0,if_pos h0,findComponent_eq,hscan,hk.layout]
        dsimp only
        split
        · rfl
        · exact ih (hk.trans hks) _
      · rw [if_neg h0,if_neg h0]
        exact ih hk cur

theorem getParent_eq (m : Mounted fs) {path : Bytes} :
    (fat32GetParentCluster fs path).1=match pathComponents path with
      | none => (0,[])
      | some comps => parentOf fs fs.rootDirCluster comps := by
  unfold fat32GetParentCluster
  cases pathComponents path with
  | none => rfl
  | some comps => exact parentLoop_eq m (Keeps.refl fs) _ comps

/-- The directories contain the root and whatever directory their entries lead to. -/
structure Closed (fs : Fat32Fs) (V : Nat → Prop) : Prop where
  root : V fs.rootDirCluster
  next : ∀D,V D → ∀t∈liveSlots fs D,t.entry.isDirectory=true →
    V (t.entry.dirCluster fs.rootDirCluster)

/-- What a name meant to the walk of a path it still means: the same directory. -/
def SameWay (fs g : Fat32Fs) (V : Nat → Prop) : Prop :=
  ∀D,V D → ∀n t,nameIn fs D n=some t → t.entry.isDirectory=true → nameIn g D n=some t

theorem SameWay.refl (fs : Fat32Fs) (V : Nat → Prop) : SameWay fs fs V := fun _ _ _ _ h _ => h

theorem parentOf_stable (hc : Closed fs V) (hl : g.toLayout=fs.toLayout) (hs : SameWay fs g V)
    {cur : Nat} (hcur : V cur) (comps : List Bytes) (h : (parentOf fs cur comps).1≠0) :
    parentOf g cur comps=parentOf fs cur comps ∧ V (parentOf fs cur comps).1 := by
  induction comps generalizing cur with
  | nil => exact ⟨rfl,hcur⟩
  | cons curr comps ih =>
    cases comps with
    | nil => exact ⟨rfl,hcur⟩
    | cons c rest =>
      unfold parentOf at h ⊢
      by_cases h0 : curr≠[]
      · rw [if_pos h0] at h
        rw [if_pos h0,if_pos h0]
        cases hf : nameIn fs cur (filenameTo83 curr) with
        | none =>
          rw [hf] at h
          exact absurd rfl h
        | some t =>
          rw [hf] at h
          cases hd : t.entry.isDirectory with
          | false =>
            dsimp only [Option.map_some,componentCluster] at h
            rw [hd] at h
            exact absurd rfl h
          | true =>
            rw [hs cur hcur _ t hf hd,hl]
            dsimp only [Option.map_some,componentCluster] at h ⊢
            rw [hd] at h ⊢
            simp only [if_true] at h ⊢
            split at h
            next => exact absurd rfl h
            next hz =>
              rw [if_neg hz,if_neg hz]
              exact ih (hc.next cur hcur t (List.mem_of_find?_eq_some hf) hd) h
      · rw [if_neg h0] at h
        rw [if_neg h0,if_neg h0]
        exact ih hcur h

theorem getParent_stable (m : Mounted fs) (hg : Mounted g) (hc : Closed fs V)
    (hl : g.toLayout=fs.toLayout) (hs : SameWay fs g V) {path : Bytes}
    (h : (fat32GetParentCluster fs path).1.1≠0) :
    (fat32GetParentCluster g path).1=(fat32GetParentCluster fs path).1 ∧
      V (fat32GetParentCluster fs path).1.1 := by
  rw [getParent_eq m] at h ⊢
  rw [getParent_eq hg]
  cases hp : pathComponents path with
  | none =>
    rw [hp] at h
    exact absurd rfl h
  | some comps =>
    rw [hp] at h
    dsimp only at h ⊢
    rw [hl]
    exact parentOf_stable hc hl hs hc.root comps h

end resolve

section write

variable {fs g : Fat32Fs} {V : Nat → Prop}

/-- A volume after an entry of directory d was written: the other directories are as they were. -/
structure Written (fs g : Fat32Fs) (V : Nat → Prop) (d : Nat) (name83 : Bytes) (R : DirEntry) :
    Prop extends Grows fs g where
  homes : Homes g V
  others : ∀D,V D → D≠d → dirSlots g D=dirSlots fs D
  put : Put name83 (dirSlots fs d) (dirSlots g d) R

theorem Ready.written {d : Nat} {name83 : Bytes} {ctx : WriteSlot}
    (r : Ready fs g V d name83 ctx) (hd : V d) {g' : Fat32Fs}
    (sp : Spares (dirClusters g V) g g') {s s' : Sector}
    (hs : g'.dev.readBlocks ctx.lba=some s) (hb : SameBut ctx.freeSlot s s') :
    Written fs (g'.write .data ctx.lba s').2 V d name83 (entryAt s' ctx.freeSlot) := by
  obtain ⟨v',hslots⟩ := r.homes.spares sp
  obtain ⟨pre,u,post,hdir,hin,hlba,hidx,hpre,hu⟩ := r.place
  have m' := v'.mounted
  have hdir' : dirSlots g' d=pre++u::post := (hslots d hd).2.trans hdir
  have hu' : u∈dirSlots g' d := by
    rw [hdir']
    simp
  rw [← hlba] at hs ⊢
  rw [← hidx] at hb ⊢
  have hst := write_stores g' m' u.lba s' (dirSlots_lba m' hu').1
  obtain ⟨c,j,hc,hcl,hj,hcj⟩ := mem_dirSlots hu'
  -- the write stays in a cluster of d
  have hsp : Spares (· ≠c) g' (g'.write .data u.lba s').2 :=
    stores_spares hst m' hcl (fun lba h => ⟨j,hj,Eq.trans h hcj⟩) fun h => h rfl
  have hnot : ∀D,V D → D≠d → ∀x∈chainOf g' D,x≠c := by
    rintro D hD hne x hx rfl
    exact v'.apart D d hD hd hne hx hc
  have hchain : ∀D,V D → chainOf (g'.write .data u.lba s').2 D=chainOf g' D ∧
      Proper (g'.write .data u.lba s').2 D := fun D hD => hst.chainOf m' (v'.proper D hD)
  refine ⟨r.toGrows.trans (sp.toGrows.trans hst.toGrows),⟨m'.grows hst.toGrows,
    hst.toGrows.readable v'.readable,by rw [hst.layout]; exact v'.narrow,
    fun D hD => (hchain D hD).2,fun D D' hD hD' hne => ?_⟩,fun D hD hne => ?_,
    ⟨pre,u,post,?_,dirSlots_write m' (v'.proper d hd) hdir' hs hb,hpre,?_⟩⟩
  · rw [(hchain D hD).1,(hchain D' hD').1]
    exact v'.apart D D' hD hD' hne
  · rw [hsp.dirSlots (v'.proper D hD) (hnot D hD hne),(hslots D hD).2]
    exact r.others D hD hne
  · rw [← hdir]
    exact hin.symm
  · exact hu

theorem Ready.sector {d : Nat} {name83 : Bytes} {ctx : WriteSlot}
    (r : Ready fs g V d name83 ctx) (hd : V d) {g' : Fat32Fs}
    (sp : Spares (dirClusters g V) g g') : ∃s,g'.dev.readBlocks ctx.lba=some s := by
  obtain ⟨pre,u,post,hdir,-,hlba,-⟩ := r.place
  have hu : u∈dirSlots g' d := by
    rw [((r.homes.spares sp).2 d hd).2,hdir]
    simp
  obtain ⟨s,hs,-⟩ := readSlots_reads hu
  exact ⟨s,hlba ▸ hs⟩

theorem Written.nameIn_same {d : Nat} {name83 : Bytes} {R : DirEntry}
    (w : Written fs g V d name83 R) (hend : R.isEnd=false) (hname : R.name=name83) {D : Nat}
    (hD : V D) {n : Bytes} (hne : D≠d ∨ n≠name83) {t : Slot} (ht : nameIn fs D n=some t) :
    nameIn g D n=some t := by
  by_cases hDd : D=d
  · rw [hDd] at ht ⊢
    exact w.put.find_same hend hname (hne.resolve_left fun h => h hDd) ht
  · rw [nameIn,liveSlots,w.others D hD hDd]
    exact ht

theorem Written.sameWay {d : Nat} {name83 : Bytes} {R : DirEntry}
    (w : Written fs g V d name83 R) (hend : R.isEnd=false) (hname : R.name=name83)
    (hno : ∀t,nameIn fs d name83=some t → t.entry.isDirectory=false) : SameWay fs g V := by
  intro D hD n t ht hdir
  refine w.nameIn_same hend hname hD ?_ ht
  by_contra hboth
  rw [not_or,not_not,not_not] at hboth
  rw [hboth.1,hboth.2] at ht
  rw [hno t ht] at hdir
  cases hdir

end write

section trace

variable {fs : Fat32Fs}

theorem trimSlashes_snoc (s : Bytes) (c : UInt8) :
    trimSlashes (s++[c])=if c=slash then trimSlashes s else s++[c] := by
  by_cases h : c=slash <;> simp [trimSlashes,h]

theorem parts_trimSlashes (s : Bytes) : parts slash (trimSlashes s)=parts slash s := by
  induction s using List.reverseRecOn with
  | nil => rfl
  | append_singleton s c ih =>
    rw [trimSlashes_snoc]
    split
    next h => rw [h,parts_snoc,ih]
    next => rfl

theorem splitOn_last {c : UInt8} (h : c≠slash) (s : Bytes) :
    ∃init last,(s++[c]).splitOn slash=init++[last] ∧ last≠[] := by
  induction s with
  | nil => exact ⟨[],[c],List.splitOn_eq_singleton (by simpa using h.symm),by simp⟩
  | cons x s ih =>
    obtain ⟨init,last,heq,hne⟩ := ih
    rw [List.cons_append,List.splitOn_cons_eq_if_modifyHead,heq]
    split
    · exact ⟨[]::init,last,rfl,hne⟩
    · cases init with
      | nil => exact ⟨[],x::last,rfl,by simp⟩
      | cons y init => exact ⟨(x::y)::init,last,rfl,hne⟩

theorem trimSlashes_last {s : Bytes} (h : trimSlashes s≠[]) :
    ∃init last,(trimSlashes s).splitOn slash=init++[last] ∧ last≠[] := by
  induction s using List.reverseRecOn with
  | nil => exact absurd rfl h
  | append_singleton s c ih =>
    rw [trimSlashes_snoc] at h ⊢
    split
    next hc =>
      rw [if_pos hc] at h
      exact ih h
    next hc => exact splitOn_last hc s

theorem trimSlashes_cons {c : UInt8} (h : c≠slash) (t : Bytes) : trimSlashes (c::t)≠[] := by
  induction t using List.reverseRecOn with
  | nil => simp [trimSlashes,h]
  | append_singleton t x ih =>
    rw [← List.cons_append,trimSlashes_snoc]
    split
    · exact ih
    · simp

theorem walkNames_last (m : Mounted fs) (h0 : fs.rootDirCluster≠0) {s : Fat32Fs}
    (hk : Keeps fs s) {cur : Nat} (hcur : cur≠0) (init : List Bytes) {last : Bytes}
    (hl : last≠[]) :
    let p := parentOf fs cur (init++[last])
    (walkNames s cur (namesOf ((init++[last]).filter (· != [])))).1.bind List.getLast?=
      if p.1=0 ∨ p.2=[] then none else (nameIn fs p.1 (filenameTo83 p.2)).map Slot.entry := by
  have hscan : ∀s,Keeps fs s → ∀d n,(fat32ScanDir s d (findFileCb n) none).1=
      (nameIn fs d n).map Slot.entry ∧ Keeps fs (fat32ScanDir s d (findFileCb n) none).2 :=
    fun s hk d n => ⟨(scan_look_stable (fun _ _ => findStep n) m hk d none).trans
      (findFile_scan m d n),hk.trans (scan_look_keeps s (hk.mounted m) _ d none)⟩
  have hcopy : copyInto outNameSize last≠[] := by
    cases last with
    | nil => exact absurd rfl hl
    | cons => simp [copyInto,outNameSize]
  have hlast : (last != [])=true := by simpa using hl
  induction init generalizing s cur with
  | nil =>
    have hp : parentOf fs cur [last]=(cur,copyInto outNameSize last) := rfl
    dsimp only
    rw [List.nil_append,hp,List.filter_cons_of_pos (p := fun x => x != []) hlast,
      if_neg (by simp [hcur,hcopy]),List.filter_nil]
    simp only [namesOf,walkNames,(hscan s hk _ _).1]
    cases (nameIn fs cur (filenameTo83 (copyInto outNameSize last))).map Slot.entry <;> rfl
  | cons curr init ih =>
    obtain ⟨c,rest,hrest⟩ : ∃c rest,init++[last]=c::rest := by
      cases init with
      | nil => exact ⟨last,[],rfl⟩
      | cons x init => exact ⟨x,init++[last],rfl⟩
    have hp : parentOf fs cur (curr::init++[last])=if curr≠[] then
        (if componentCluster fs.rootDirCluster
          ((nameIn fs cur (filenameTo83 curr)).map Slot.entry)=0 then (0,[])
          else parentOf fs (componentCluster fs.rootDirCluster
            ((nameIn fs cur (filenameTo83 curr)).map Slot.entry)) (init++[last]))
        else parentOf fs cur (init++[last]) := by
      rw [List.cons_append,hrest]
      rfl
    by_cases hc : curr=[]
    · rw [if_neg (by simp [hc])] at hp
      rw [hp,List.cons_append,List.filter_cons_of_neg (by simp [hc])]
      exact ih hk hcur
    · have hne : (init++[last]).filter (· != [])≠[] := fun h =>
        List.filter_eq_nil_iff.mp h last (by simp) hlast
      have hnames : namesOf (curr::(init++[last]).filter (· != []))=
          filenameTo83 curr::namesOf ((init++[last]).filter (· != [])) := by
        cases hf : (init++[last]).filter (· != []) with
        | nil => exact absurd hf hne
        | cons => rfl
      have hne' : namesOf ((init++[last]).filter (· != []))≠[] := by
        cases hf : (init++[last]).filter (· != []) with
        | nil => exact absurd hf hne
        | cons y l => cases l <;> simp [namesOf]
      obtain ⟨h1,h2⟩ := hscan s hk cur (filenameTo83 curr)
      rw [if_pos hc] at hp
      rw [hp,List.cons_append,List.filter_cons_of_pos (by simpa using hc),hnames,
        walkNames_cons s cur _ _ hne']
      dsimp only at ih ⊢
      rw [h1]
      cases hn : (nameIn fs cur (filenameTo83 curr)).map Slot.entry with
      | none => simp [componentCluster]
      | some e =>
        dsimp only
        by_cases hd : e.isDirectory=true
        · have hnext : e.dirCluster fs.rootDirCluster≠0 := by
            unfold DirEntry.dirCluster
            split
            · assumption
            · exact h0
          rw [if_pos hd,componentCluster,if_pos hd,if_neg hnext,h2.layout]
          rw [← ih h2 hnext]
          cases hw : (walkNames (fat32ScanDir s cur (findFileCb (filenameTo83 curr)) none).2
              (e.dirCluster fs.rootDirCluster)
              (namesOf ((init++[last]).filter (· != [])))).1 with
          | none => rfl
          | some es =>
            cases es with
            | nil => exact absurd (walkNames_names _ _ _ _ hw).symm hne'
            | cons x es => exact List.getLast?_cons_cons
        · simp [hd,componentCluster]

theorem endsWell_last (path : Bytes) (o : Option (List DirEntry)) :
    (o.filter (endsWell path)).bind List.getLast?=
      (o.bind List.getLast?).filter fun e => path.getLast? != some slash || e.isDirectory := by
  cases o with
  | none => rfl
  | some es =>
    rw [Option.filter_some,endsWell,Option.bind_some]
    cases hl : es.getLast? with
    | none => split <;> simp [hl]
    | some e =>
      rw [Option.all_some,Option.filter_some]
      split <;> simp [hl]

/-- find_file answers the last of the entries that a path resolves to, and for the root an entry
that no directory has. -/
theorem findFile_trace (m : Mounted fs) (path : Bytes) : (fat32FindFile fs path).1=
    if path.dropWhile (· == slash)=[] then some (rootEntry fs)
    else (fat32Trace fs path).1.bind List.getLast? := by
  rw [findFile_slot m path]
  split
  next => rfl
  next hpath =>
    have h0 : fs.rootDirCluster≠0 := by
      have hr := m.sound.root.1
      omega
    rw [foundSlot,getParent_eq m,fat32Trace,pathNames,pathComponents]
    by_cases hlen : (path.dropWhile (· == slash)).length≥pathCopySize
    · simp [hlen]
    obtain ⟨init,last,hsplit,hl⟩ := trimSlashes_last (s := path.dropWhile (· == slash)) (by
      obtain ⟨c,t,ht⟩ := List.exists_cons_of_ne_nil hpath
      rw [ht]
      exact trimSlashes_cons (dropWhile_head path t c ht) t)
    have hparts : parts slash path=(init++[last]).filter (· != []) := by
      rw [← parts_dropWhile,← parts_trimSlashes,parts,hsplit]
    have hw := walkNames_last m h0 (Keeps.refl fs) h0 init hl
    dsimp only at hw ⊢
    rw [if_neg hlen,if_neg hlen,hsplit,hparts]
    dsimp only
    rw [endsWell_last,hw]
    split
    · rfl
    · rw [nameIn]
      cases (liveSlots fs (parentOf fs fs.rootDirCluster (init++[last])).1).find? _ with
      | none => rfl
      | some t =>
        simp only [Option.map_some,Option.filter_some]
        split <;> rfl

end trace

end LugalOS.Fat32
