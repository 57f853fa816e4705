import LugalOS.Fat32.Paths
import LugalOS.P9.Path

namespace LugalOS.P9

open CString
open Fat32 (Fat32Fs DirEntry fat32Trace namesOf walkNames)

def mountNameSize : Nat := 16

/-- The mount a path is on, and what is left of the path; none for the root of the namespace
and for a component that no mount name is as long as. -/
def mountGet (path : Bytes) : Option (Bytes×Bytes) :=
  let path := path.dropWhile (· == slash)
  let comp := path.takeWhile (· != slash)
  if path=[] ∨ comp.length≥mountNameSize then none
  else some (comp,(path.drop comp.length).drop 1)

/-- The FAT32 volumes of the mount table, by name; "dev" is a mount of another kind. -/
structure Mounts where
  volume : Bytes → Option Fat32Fs
  devNode : volume (ofString "dev")=none

/-- The mount of a path and the directory entries that the path resolves to on it. -/
def resolve (mnt : Mounts) (path : Bytes) : Option (Bytes×List DirEntry) :=
  match mountGet path with
  | none => none
  | some (m,rel) =>
    match mnt.volume m with
    | none => none
    | some fs => (fat32Trace fs rel).1.map fun es => (m,es)

theorem mountGet_parts (path m rel : Bytes) (h : mountGet path=some (m,rel)) :
    parts slash path=m::parts slash rel := by
  unfold mountGet at h
  dsimp only at h
  split at h
  next => cases h
  next hn =>
    rw [not_or] at hn
    simp only [Option.some.injEq,Prod.mk.injEq] at h
    obtain ⟨hm,hr⟩ := h
    have hp := parts_dropWhile slash path
    have hs := List.takeWhile_append_dropWhile (p:=(· != slash)) (l:=path.dropWhile (· == slash))
    have hd : (path.dropWhile (· == slash)).drop m.length=
        (path.dropWhile (· == slash)).dropWhile (· != slash) := by
      conv => lhs; rw [←hs]
      rw [hm,List.drop_left]
    rw [hm] at hr hs
    rw [hd] at hr
    have hns : slash∉m := by
      intro hx
      rw [←hm] at hx
      simpa using List.mem_takeWhile_imp hx
    have hm0 : m≠[] := by
      rintro rfl
      cases hc : path.dropWhile (· == slash) with
      | nil => exact hn.1 hc
      | cons c t =>
        have hne := Fat32.dropWhile_head path t c hc
        rw [hc,List.takeWhile_cons_of_pos (by simpa using hne)] at hm
        cases hm
    rw [←hp,←hs]
    cases hc : (path.dropWhile (· == slash)).dropWhile (· != slash) with
    | nil =>
      rw [hc] at hr
      rw [←hr,List.append_nil,parts_single _ _ hns hm0]
      simp [parts_nil]
    | cons c t =>
      have hx := List.head?_dropWhile_not (· != slash) (path.dropWhile (· == slash))
      rw [hc] at hx hr
      have hc' : c=slash := by simpa using hx
      rw [hc',parts_append,parts_single _ _ hns hm0,←hr]
      rfl

/-- What the path resolves to is what find_file answers on the volume. -/
theorem resolve_findFile {mnt : Mounts} {path m rel : Bytes} {fs : Fat32Fs}
    (hg : mountGet path=some (m,rel)) (hv : mnt.volume m=some fs) (hm : Fat32.Mounted fs)
    (hr : rel.dropWhile (· == slash)≠[]) :
    (Fat32.fat32FindFile fs rel).1=(resolve mnt path).bind fun r => r.2.getLast? := by
  rw [Fat32.findFile_trace hm,if_neg hr,resolve,hg]
  dsimp only
  rw [hv]
  dsimp only
  cases (fat32Trace fs rel).1 <;> rfl

theorem resolve_names (mnt : Mounts) (path m : Bytes) (es : List DirEntry)
    (h : resolve mnt path=some (m,es)) :
    ∃rel,mountGet path=some (m,rel) ∧ es.map DirEntry.name=namesOf (parts slash rel) ∧
      (rel.dropWhile (· == slash)).length<Fat32.pathCopySize := by
  unfold resolve at h
  cases hg : mountGet path with
  | none => simp [hg] at h
  | some r =>
    obtain ⟨m',rel⟩ := r
    rw [hg] at h
    dsimp only at h
    cases hv : mnt.volume m' with
    | none => simp [hv] at h
    | some fs =>
      rw [hv] at h
      obtain ⟨es',he,hp⟩ := Option.map_eq_some_iff.mp h
      obtain ⟨rfl,rfl⟩ := Prod.mk.inj hp
      refine ⟨rel,rfl,?_⟩
      unfold fat32Trace Fat32.pathNames at he
      by_cases hl : (rel.dropWhile (· == slash)).length≥Fat32.pathCopySize
      · simp [hl] at he
      · rw [if_neg hl] at he
        have hw := Option.filter_eq_some_iff.mp he
        exact ⟨Fat32.walkNames_names _ _ _ _ hw.1,by omega⟩

theorem resolve_of_names (mnt : Mounts) (p q m relp relq : Bytes) (es : List DirEntry)
    (hp : mountGet p=some (m,relp)) (hq : mountGet q=some (m,relq))
    (hn : namesOf (parts slash relp)=namesOf (parts slash relq))
    (hlp : (relp.dropWhile (· == slash)).length<Fat32.pathCopySize)
    (hlast : relp.getLast?≠some slash) (h : resolve mnt q=some (m,es)) :
    resolve mnt p=some (m,es) := by
  unfold resolve at h ⊢
  rw [hq] at h
  rw [hp]
  dsimp only at h ⊢
  cases hv : mnt.volume m with
  | none => simp [hv] at h
  | some fs =>
    rw [hv] at h
    obtain ⟨es',he,hp'⟩ := Option.map_eq_some_iff.mp h
    obtain ⟨-,rfl⟩ := Prod.mk.inj hp'
    unfold fat32Trace Fat32.pathNames at he ⊢
    by_cases hl : (relq.dropWhile (· == slash)).length≥Fat32.pathCopySize
    · simp [hl] at he
    · rw [if_neg hl,←hn] at he
      rw [if_neg (by omega)]
      have hw := (Option.filter_eq_some_iff.mp he).1
      dsimp only at hw ⊢
      rw [hw]
      simp [Fat32.endsWell,Option.filter,hlast]

open Fat32 (DirEntry namesOf filenameTo83 filenameTo83_length outNameSize pathCopySize pad83
  space toUpper extDot)

def sd0 : Bytes := ofString "sd0"
def flash0 : Bytes := ofString "flash0"

/-- The stored names of the key directory, below /sd0, and of the fallback key, below /flash0. -/
def keyDirNames : List Bytes :=
  [filenameTo83 (ofString "system"),filenameTo83 (ofString "etc"),filenameTo83 (ofString "auth")]
def keyFileNames : List Bytes :=
  [filenameTo83 (ofString "system"),filenameTo83 (ofString "etc"),filenameTo83 (ofString "p9key")]

/-- A path whose components are stored under the names of the key directory, with anything
below it, or of the fallback key. -/
def namesKeys (q : Bytes) : Bool :=
  match mountGet q with
  | none => false
  | some (m,rel) =>
    let ns := namesOf (parts slash rel)
    (m==sd0 && keyDirNames.isPrefixOf ns) || (m==flash0 && ns==keyFileNames)

/-- The guard covers a spelling when it refuses it as soon as some refused path resolves to
the same directory entries. -/
def GuardCovers (mnt : Mounts) (q : Bytes) : Prop :=
  ∀p r,p9PathIsSecret p=true → resolve mnt p=some r → resolve mnt q=some r →
    p9PathIsSecret q=true

/-- The bytes the guard looks for: the key directory and a separator or the end, or the fallback
key. -/
def SpeltOut (q : Bytes) : Prop :=
  q=authFallbackKeyFile ∨ ∃rest,q=authKeyDir++rest ∧ Boundary rest

theorem secret_cases (p : Bytes) (h : p9PathIsSecret p=true) :
    idstorePathIsSecret p=true ∨ p=authFallbackKeyFile ∨
      ∃rest,p=authKeyDir++rest ∧ Boundary rest := by
  unfold p9PathIsSecret at h
  by_cases h1 : idstorePathIsSecret p
  · exact .inl h1
  · by_cases h2 : p=authFallbackKeyFile
    · exact .inr (.inl h2)
    · simp only [h1,h2,if_false,Bool.false_eq_true,Bool.and_eq_true,strncmpEq,beq_iff_eq] at h
      obtain ⟨ht,hb⟩ := h
      rw [List.take_length] at ht
      refine .inr (.inr ⟨p.drop authKeyDir.length,?_,?_⟩)
      · conv => lhs; rw [←List.take_append_drop authKeyDir.length p,ht]
      · cases hd : p.drop authKeyDir.length with
        | nil => exact .inl rfl
        | cons c t =>
          rw [hd] at hb
          exact .inr ⟨t,by rw [show c=slash by simpa using hb]⟩

theorem keyDir_secret (rest : Bytes) (hb : Boundary rest) :
    p9PathIsSecret (authKeyDir++rest)=true := by
  unfold p9PathIsSecret
  have hs : strncmpEq (authKeyDir++rest) authKeyDir authKeyDir.length=true := by
    simp [strncmpEq]
  dsimp only
  rw [List.drop_left]
  simp only [hs,Bool.true_and]
  rcases hb with rfl | ⟨t,rfl⟩ <;> simp

def keyDirRel : Bytes := ofString "system/etc/auth"

theorem mountGet_keyDir (rest : Bytes) : mountGet (authKeyDir++rest)=some (sd0,keyDirRel++rest) :=
  rfl

theorem namesOf_keyDir (c1 c2 c3 : Bytes) (more : List Bytes) :
    namesOf (c1::c2::c3::more)=filenameTo83 c1::filenameTo83 c2::
      (if more=[] then [filenameTo83 (copyInto outNameSize c3)]
        else filenameTo83 c3::namesOf more) := by
  cases more <;> rfl

theorem parts_keyDirRel (rest : Bytes) (hb : Boundary rest) :
    parts slash (keyDirRel++rest)=
      ofString "system"::ofString "etc"::ofString "auth"::parts slash rest := by
  have hk : parts slash keyDirRel=[ofString "system",ofString "etc",ofString "auth"] := by decide
  rcases hb with rfl | ⟨t,rfl⟩
  · rw [List.append_nil,hk,parts_nil]
  · rw [parts_append,hk,parts_cons]
    rfl

theorem namesKeys_secret (mnt : Mounts) (p m : Bytes) (es : List DirEntry)
    (h : p9PathIsSecret p=true) (hr : resolve mnt p=some (m,es)) : namesKeys p=true := by
  rcases secret_cases p h with hi | rfl | ⟨rest,rfl,hb⟩
  · -- the identity store is a device node, not a file of a volume
    have hm : ∃rel,mountGet p=some (ofString "dev",rel) := by
      simp only [idstorePathIsSecret,Bool.or_eq_true,beq_iff_eq] at hi
      rcases hi with rfl | rfl
      · exact ⟨ofString "identity",by decide⟩
      · exact ⟨ofString "identity0",by decide⟩
    obtain ⟨rel,hm⟩ := hm
    simp [resolve,hm,mnt.devNode] at hr
  · decide
  · unfold namesKeys
    rw [mountGet_keyDir]
    dsimp only
    rw [parts_keyDirRel rest hb,namesOf_keyDir]
    by_cases hp : parts slash rest=[]
    · rw [if_pos hp]
      decide
    · rw [if_neg hp]
      simp [keyDirNames]

theorem namesKeys_congr (p q m relp relq : Bytes) (hp : mountGet p=some (m,relp))
    (hq : mountGet q=some (m,relq)) (hn : namesOf (parts slash relp)=namesOf (parts slash relq)) :
    namesKeys p=namesKeys q := by
  simp [namesKeys,hp,hq,hn]

theorem pad83_text (n : Nat) (s : Bytes) (k : Nat) (hk : k<n) (h : (pad83 n s)[k]?≠some space) :
    k < s.length := by
  by_contra hl
  apply h
  have hm : ((s.take n).map toUpper).length=s.length := by
    simp only [List.length_map,List.length_take]
    omega
  rw [pad83,List.getElem?_append_right (by omega),hm,List.getElem?_replicate,if_pos (by omega)]

theorem filenameTo83_base (c : Bytes) (k : Nat) (hk : k<8)
    (h : (filenameTo83 c)[k]?≠some space) : k<c.length := by
  have ht := (List.takeWhile_sublist (· != slash) (l:=c)).length_le
  unfold filenameTo83 at h
  dsimp only at h
  split at h
  next i _ =>
    rw [List.getElem?_append_left (by simpa using hk)] at h
    have hp := pad83_text 8 _ k hk h
    rw [List.length_take] at hp
    omega
  next =>
    rw [List.getElem?_append_left (by simpa using hk)] at h
    have hp := pad83_text 8 _ k hk h
    omega

theorem filenameTo83_length_le (c d : Bytes) (k : Nat) (hk : k<8)
    (h : filenameTo83 c=filenameTo83 d) (hd : (filenameTo83 d)[k]?≠some space) : k<c.length :=
  filenameTo83_base c k hk (by rw [h]; exact hd)

theorem parts_below (s : Bytes) (more : List Bytes) (h : ∀c∈more,slash∉c ∧ c≠[]) :
    parts slash (s++more.flatMap (slash::·))=parts slash s++more := by
  induction more generalizing s with
  | nil => simp
  | cons c more ih =>
    have hc := h c (by simp)
    have hi := ih (s++slash::c) fun d hd => h d (by simp [hd])
    rw [List.flatMap_cons,←List.append_assoc,hi,parts_append,parts_single _ _ hc.1 hc.2]
    simp

theorem flatMap_last (s : Bytes) (more : List Bytes) (hs : s.getLast?≠some slash)
    (h : ∀c∈more,slash∉c ∧ c≠[]) : (s++more.flatMap (slash::·)).getLast?≠some slash := by
  induction more generalizing s with
  | nil => simpa using hs
  | cons c more ih =>
    have hc := h c (by simp)
    rw [List.flatMap_cons,←List.append_assoc]
    refine ih _ ?_ fun d hd => h d (by simp [hd])
    intro hl
    obtain ⟨ini,he⟩ := List.getLast?_eq_some_iff.mp hl
    have hl' : (slash::c).getLast?=some slash := by
      rw [←hl,List.getLast?_append_of_ne_nil _ (by simp)]
    rw [List.getLast?_cons_of_ne_nil hc.2] at hl'
    exact hc.1 (List.mem_of_getLast? hl')

theorem flatMap_length (more : List Bytes) :
    (more.flatMap (slash::·)).length=(more.map fun l => l.length+1).sum := by
  simp [List.length_flatMap]

theorem namesKeys_spelling (mnt : Mounts) (q : Bytes) (r : Bytes×List DirEntry)
    (hk : namesKeys q=true) (hr : resolve mnt q=some r) :
    ∃p,p9PathIsSecret p=true ∧ resolve mnt p=some r := by
  obtain ⟨m,es⟩ := r
  obtain ⟨rel,hg,hn,hl⟩ := resolve_names mnt q m es hr
  simp only [namesKeys,hg,Bool.or_eq_true,Bool.and_eq_true,beq_iff_eq] at hk
  rcases hk with ⟨rfl,hk⟩ | ⟨rfl,hk⟩
  · obtain ⟨tail,ht⟩ := List.isPrefixOf_iff_prefix.mp hk
    have hparts := parts_length slash (rel.dropWhile (· == slash))
    rw [parts_dropWhile] at hparts
    rcases hp : parts slash rel with _ | ⟨c1,_ | ⟨c2,_ | ⟨c3,more⟩⟩⟩
    · rw [hp] at ht; simp [namesOf,keyDirNames] at ht
    · rw [hp] at ht; simp [namesOf,keyDirNames] at ht
    · rw [hp] at ht; simp [namesOf,keyDirNames] at ht
    have hmem : ∀c∈more,slash∉c ∧ c≠[] := fun c hc =>
      parts_mem slash rel c (by rw [hp]; simp [hc])
    rw [hp,namesOf_keyDir] at ht
    simp only [keyDirNames,List.cons_append,List.nil_append,List.cons.injEq] at ht
    obtain ⟨h1,h2,h3⟩ := ht
    -- every spelling of these names is at least as long as the guard's
    have l1 := filenameTo83_length_le c1 _ 5 (by decide) h1.symm (by decide)
    have l2 := filenameTo83_length_le c2 _ 2 (by decide) h2.symm (by decide)
    have l3 : 3<c3.length := by
      by_cases hm : more=[]
      · rw [if_pos hm,List.cons.injEq] at h3
        have hc := filenameTo83_length_le _ _ 3 (by decide) h3.1.symm (by decide)
        simp only [copyInto,List.length_take] at hc
        omega
      · rw [if_neg hm,List.cons.injEq] at h3
        exact filenameTo83_length_le c3 _ 3 (by decide) h3.1.symm (by decide)
    refine ⟨authKeyDir++more.flatMap (slash::·),keyDir_secret _ ?_,?_⟩
    · cases more with
      | nil => exact .inl rfl
      | cons c more => exact .inr ⟨c++more.flatMap (slash::·),rfl⟩
    · refine resolve_of_names mnt _ q sd0 _ rel es (mountGet_keyDir _) hg ?_ ?_ ?_ hr
      · rw [parts_below _ _ hmem,hp,namesOf_keyDir,←h1,←h2]
        have hk3 : parts slash keyDirRel=[ofString "system",ofString "etc",ofString "auth"] := by
          decide
        rw [hk3]
        change namesOf (_::_::_::more)=_
        rw [namesOf_keyDir]
        by_cases hm : more=[]
        · rw [if_pos hm,if_pos hm]
          rw [if_pos hm,List.cons.injEq] at h3
          rw [←h3.1]
          rfl
        · rw [if_neg hm,if_neg hm]
          rw [if_neg hm,List.cons.injEq] at h3
          rw [←h3.1]
      · rw [hp] at hparts
        simp only [List.map_cons,List.sum_cons] at hparts
        have hd := List.length_dropWhile_le (· == slash) (keyDirRel++more.flatMap (slash::·))
        have hk3 : keyDirRel.length=15 := by decide
        rw [List.length_append,flatMap_length] at hd
        simp only [pathCopySize] at hl ⊢
        omega
      · exact flatMap_last _ _ (by decide) hmem
  · refine ⟨authFallbackKeyFile,by decide,?_⟩
    have hf : mountGet authFallbackKeyFile=some (flash0,ofString "system/etc/p9key") := by decide
    refine resolve_of_names mnt _ q flash0 _ rel es hf hg ?_ (by decide) (by decide) hr
    rw [hk]
    decide

/-- The guard covers exactly the spellings that do not name the keys, and those of them that
spell the guard's bytes out. -/
theorem p9PathIsSecret_covers_iff (mnt : Mounts) (q : Bytes) :
    GuardCovers mnt q ↔ (namesKeys q=true → (resolve mnt q).isSome → SpeltOut q) := by
  constructor
  · intro hc hk hr
    obtain ⟨r,hr⟩ := Option.isSome_iff_exists.mp hr
    obtain ⟨p,hp,hpr⟩ := namesKeys_spelling mnt q r hk hr
    rcases secret_cases q (hc p r hp hpr hr) with hi | h
    · -- a device node is on no volume
      simp only [idstorePathIsSecret,Bool.or_eq_true,beq_iff_eq] at hi
      rcases hi with rfl | rfl <;> cases hk
    · exact h
  · intro h p r hp hpr hqr
    obtain ⟨m,es⟩ := r
    have hk := namesKeys_secret mnt p m es hp hpr
    obtain ⟨relp,hgp,hnp,-⟩ := resolve_names mnt p m es hpr
    obtain ⟨relq,hgq,hnq,-⟩ := resolve_names mnt q m es hqr
    rw [namesKeys_congr p q m relp relq hgp hgq (hnp.symm.trans hnq)] at hk
    rcases h hk (by rw [hqr]; rfl) with rfl | ⟨rest,rfl,hb⟩
    · decide
    · exact keyDir_secret rest hb

/-- A card with the key directory on it. -/
def keyCard : Fat32.Fat32Fs :=
  let v := (Fat32.fat32Mkdir Fat32.smallVolume (ofString "system")).2
  let v := (Fat32.fat32Mkdir v (ofString "system/etc")).2
  (Fat32.fat32Mkdir v (ofString "system/etc/auth")).2

def keyMounts : Mounts := ⟨fun m => if m=sd0 then some keyCard else none,by decide⟩

/-- /sd0/SYSTEM/etc/auth is the key directory, and the guard lets it pass. -/
theorem p9PathIsSecret_not_covers : ¬∀mnt q,GuardCovers mnt q := by
  intro h
  have he : resolve keyMounts (ofString "/sd0/SYSTEM/etc/auth")=resolve keyMounts authKeyDir := by
    decide +kernel
  have hs : (resolve keyMounts authKeyDir).isSome=true := by decide +kernel
  obtain ⟨r,hr⟩ := Option.isSome_iff_exists.mp hs
  have hq := h keyMounts (ofString "/sd0/SYSTEM/etc/auth") authKeyDir r (by decide) hr
    (he.trans hr)
  revert hq
  decide

end LugalOS.P9
