import LugalOS.P9.Aliases

namespace LugalOS.P9

open CString
open Fat32 (DirEntry namesOf walkNames isDotName outNameSize)

/-- The paths that Tattach and Twalk build from an aname. -/
inductive WalkedFrom (aname : Bytes) : Bytes → Prop
  | attach : WalkedFrom aname (attachPath aname)
  | walk {path : Bytes} (comp : Bytes) (hc : comp.length<32) :
      WalkedFrom aname path → WalkedFrom aname (p9PathJoin pathSize path comp)

/-- A path stays in the tree of a directory when the entries it resolves to are those of the
directory and below it none that is "." or "..". -/
def InTree (mnt : Mounts) (top : Bytes×List DirEntry) (path : Bytes) : Prop :=
  ∀m es,resolve mnt path=some (m,es) →
    m=top.1 ∧ ∃below,es=top.2++below ∧ ∀e∈below,isDotName e.name=false

/-- The stored names that a path looks up on its volume. -/
def volumeNames (path : Bytes) : List Bytes :=
  match mountGet path with
  | none => []
  | some (_,rel) => namesOf (parts slash rel)

/-- The names that a path looks up past those of the tree it is in. -/
def namesBelow (top path : Bytes) : List Bytes :=
  (volumeNames path).drop (volumeNames (attachPath top)).length

theorem walkedFrom_absolute (aname path : Bytes) (h : WalkedFrom aname path) : Absolute path := by
  induction h with
  | attach => exact attachPath_absolute aname
  | walk comp _ _ ih => exact p9PathJoin_absolute _ comp ih

theorem parts_mem_length (s c : Bytes) (h : c∈parts slash s) : c.length ≤ s.length := by
  have hl := parts_length slash s
  have hm : c.length+1≤((parts slash s).map fun l => l.length+1).sum :=
    List.le_sum_of_mem (List.mem_map.mpr ⟨c,h,rfl⟩)
  omega

theorem namesOf_append (cs ds : List Bytes) (h : ∀c∈cs,c.length<outNameSize) :
    namesOf (cs++ds)=namesOf cs++namesOf ds := by
  induction cs with
  | nil => rfl
  | cons c cs ih =>
    have hi := ih fun d hd => h d (by simp [hd])
    have hc := copyInto_of_short outNameSize c (h c (by simp))
    cases cs with
    | nil =>
      cases ds with
      | nil => rfl
      | cons d ds => simp [namesOf,hc]
    | cons d cs =>
      simp only [List.cons_append,namesOf] at hi ⊢
      rw [hi]

theorem within_parts (top path : Bytes) (hl : top.length<32) (hp : Absolute path)
    (hw : p9PathWithin top path=true) (ht : (mountGet (attachPath top)).isSome) :
    ∃more,parts slash path=parts slash (attachPath top)++more := by
  obtain ⟨rest,he,hb⟩ := (p9PathWithin_iff top path).mp hw
  have hrest : parts slash path=parts slash (stem top)++parts slash rest := by
    rcases hb with rfl | ⟨t,rfl⟩
    · rw [he,parts_nil]; simp
    · rw [he,parts_append,parts_cons]
  refine ⟨parts slash rest,?_⟩
  rw [hrest]
  congr 1
  have h0 : top≠[] := by
    rintro rfl
    revert ht; decide
  have h1 : top≠rootPath := by
    rintro rfl
    revert ht; decide
  -- a tree that holds an absolute path is named by an absolute path
  have hhead : top.head?=some slash := by
    obtain ⟨t,hpt⟩ := hp
    rw [hpt] at he
    cases hst : stem top with
    | nil =>
      rcases stem_split top with h | h
      · exact absurd (h.trans hst) h0
      · rw [hst] at h
        exact absurd h h1
    | cons c u =>
      rw [hst,List.cons_append,List.cons.injEq] at he
      rcases stem_split top with h | h <;> rw [h,hst,←he.1] <;> rfl
  have ha : attachPath top=top := by
    unfold attachPath
    rw [if_neg (by simp [h0,h1]),if_pos hhead,
      copyInto_of_short _ _ (by simp only [pathSize]; omega)]
  rw [ha]
  rcases stem_split top with h | h
  · rw [←h]
  · conv => rhs; rw [h]
    rw [parts_snoc]

theorem resolve_below (mnt : Mounts) (top path m m' : Bytes) (es as : List DirEntry)
    (more : List Bytes) (hl : top.length<64) (hp : parts slash path=parts slash top++more)
    (ht : resolve mnt top=some (m,as)) (hr : resolve mnt path=some (m',es)) :
    m'=m ∧ ∃below,es=as++below ∧
      below.map DirEntry.name=(volumeNames path).drop (volumeNames top).length := by
  obtain ⟨relt,hgt,hnt,-⟩ := resolve_names mnt top m as ht
  obtain ⟨relp,hgp,hnp,-⟩ := resolve_names mnt path m' es hr
  rw [mountGet_parts top m relt hgt,mountGet_parts path m' relp hgp,List.cons_append,
    List.cons.injEq] at hp
  obtain ⟨rfl,hp⟩ := hp
  have hshort : ∀c∈parts slash relt,c.length<outNameSize := by
    intro c hc
    have hm : c∈parts slash top := by
      rw [mountGet_parts top m' relt hgt]
      exact List.mem_cons_of_mem _ hc
    have := parts_mem_length top c hm
    simp only [outNameSize]
    omega
  have hns := namesOf_append (parts slash relt) more hshort
  refine ⟨rfl,es.drop as.length,?_,?_⟩
  · have hwt := ht
    have hwp := hr
    unfold resolve at hwt hwp
    rw [hgt] at hwt
    rw [hgp] at hwp
    dsimp only at hwt hwp
    cases hv : mnt.volume m' with
    | none => simp [hv] at hwt
    | some fs =>
      rw [hv] at hwt hwp
      obtain ⟨as',hat,hpt⟩ := Option.map_eq_some_iff.mp hwt
      obtain ⟨es',het,hpp⟩ := Option.map_eq_some_iff.mp hwp
      obtain ⟨-,rfl⟩ := Prod.mk.inj hpt
      obtain ⟨-,rfl⟩ := Prod.mk.inj hpp
      have hwalk : ∀rel es0,(Fat32.fat32Trace fs rel).1=some es0 →
          (walkNames fs fs.rootDirCluster (namesOf (parts slash rel))).1=some es0 := by
        intro rel es0 h
        unfold Fat32.fat32Trace Fat32.pathNames at h
        by_cases hlen : (rel.dropWhile (· == slash)).length≥Fat32.pathCopySize
        · simp [hlen] at h
        · rw [if_neg hlen] at h
          exact (Option.filter_eq_some_iff.mp h).1
      have h1 := hwalk relt as' hat
      have h2 := hwalk relp es' het
      rw [hp,hns] at h2
      have h3 := Fat32.walkNames_append fs _ _ _ es' h2
      rw [h1,Option.some.injEq] at h3
      have hlen : as'.length=(namesOf (parts slash relt)).length := by
        rw [←hnt,List.length_map]
      conv => lhs; rw [←List.take_append_drop as'.length es']
      rw [hlen,←h3]
  · have hlen : as.length=(namesOf (parts slash relt)).length := by
      rw [←hnt,List.length_map]
    simp only [volumeNames,hgt,hgp]
    rw [List.map_drop,hnp,hlen]

/-- Under a grant, a path that the volume resolves stays in the granted tree exactly when none
of its components below the tree is stored under the name of a dot entry. -/
theorem inTree_iff (mnt : Mounts) (top path : Bytes) (a : Bytes×List DirEntry)
    (ht : resolve mnt (attachPath top)=some a) (hl : top.length<32)
    (hp : WalkedFrom top path) (hw : p9PathWithin top path=true) :
    InTree mnt a path ↔
      ((resolve mnt path).isSome → ∀n∈namesBelow top path,isDotName n=false) := by
  obtain ⟨m,as⟩ := a
  have hg : (mountGet (attachPath top)).isSome := by
    obtain ⟨rel,h,-⟩ := resolve_names mnt _ m as ht
    rw [h]; rfl
  obtain ⟨more,hparts⟩ := within_parts top path hl (walkedFrom_absolute top path hp) hw hg
  have hal : (attachPath top).length<64 := by
    unfold attachPath
    split_ifs
    · decide
    · simp only [copyInto,List.length_take]; omega
    · simp only [copyInto,List.length_cons,List.length_take]; omega
  constructor
  · intro h hs n hn
    obtain ⟨⟨m',es⟩,hr⟩ := Option.isSome_iff_exists.mp hs
    obtain ⟨-,below,hes,hdot⟩ := h m' es hr
    obtain ⟨-,below',hes',hn'⟩ := resolve_below mnt _ path m m' es as more hal hparts ht hr
    have hb : below=below' := List.append_cancel_left (hes.symm.trans hes')
    rw [namesBelow,←hn',←hb] at hn
    obtain ⟨e,he,rfl⟩ := List.mem_map.mp hn
    exact hdot e he
  · intro h m' es hr
    obtain ⟨hm,below,hes,hn⟩ := resolve_below mnt _ path m m' es as more hal hparts ht hr
    refine ⟨hm,below,hes,fun e he => ?_⟩
    apply h (by rw [hr]; rfl)
    rw [namesBelow,←hn]
    exact List.mem_map_of_mem he

/-- A grant on /sd0/system, and the walk to "etc" below it. -/
theorem inTree_etc :
    ∃a,resolve keyMounts (attachPath (ofString "/sd0/system"))=some a ∧
      InTree keyMounts a (ofString "/sd0/system/etc") := by
  have hs : (resolve keyMounts (attachPath (ofString "/sd0/system"))).isSome=true := by
    decide +kernel
  obtain ⟨a,ha⟩ := Option.isSome_iff_exists.mp hs
  have hj : p9PathJoin pathSize (ofString "/sd0/system") (ofString "etc")=
      ofString "/sd0/system/etc" := by decide
  have hw : WalkedFrom (ofString "/sd0/system") (ofString "/sd0/system/etc") := by
    rw [←hj]
    exact WalkedFrom.attach.walk _ (by decide)
  exact ⟨a,ha,(inTree_iff keyMounts _ _ a ha (by decide) hw (by decide)).mpr fun _ =>
    by decide⟩

/-- Under a grant on /sd0/system/etc the name "..." leads to /sd0/system: it is stored as
the ".." entry. -/
theorem inTree_not_always :
    ¬∀mnt top path a,resolve mnt (attachPath top)=some a → top.length<32 → WalkedFrom top path →
      p9PathWithin top path=true → InTree mnt a path := by
  intro h
  have hs : (resolve keyMounts (attachPath (ofString "/sd0/system/etc"))).isSome=true := by
    decide +kernel
  obtain ⟨a,ha⟩ := Option.isSome_iff_exists.mp hs
  have hj : p9PathJoin pathSize (ofString "/sd0/system/etc") (ofString "...")=
      ofString "/sd0/system/etc/..." := by decide
  have hw : WalkedFrom (ofString "/sd0/system/etc") (ofString "/sd0/system/etc/...") := by
    rw [←hj]
    exact WalkedFrom.attach.walk _ (by decide)
  have hb := h keyMounts _ _ a ha (by decide) hw (by decide)
  have hn := (inTree_iff keyMounts _ _ a ha (by decide) hw (by decide)).mp hb
    (by decide +kernel) (Fat32.filenameTo83 (ofString "...")) (by decide)
  revert hn
  decide

end LugalOS.P9
