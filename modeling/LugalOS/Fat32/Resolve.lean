import LugalOS.Fat32.Scan
import Mathlib.Data.List.TakeWhile

namespace LugalOS.Fat32

open CString

/-- The stored names that a list of components asks for; the last component is cut to the
size of out_name. -/
def namesOf : List Bytes → List Bytes
  | [] => []
  | [last] => [filenameTo83 (copyInto outNameSize last)]
  | c::d::rest => filenameTo83 c::namesOf (d::rest)

/-- The names a path looks up, one directory after the other; none for a path that is too
long. -/
def pathNames (path : Bytes) : Option (List Bytes) :=
  if (path.dropWhile (· == slash)).length≥pathCopySize then none
  else some (namesOf (parts slash path))

/-- The directory an entry leads to. -/
def DirEntry.dirCluster (e : DirEntry) (root : Nat) : Nat := if e.fstClus≠0 then e.fstClus else root

/-- The entries met on the way along a list of names; none when one is missing or is not a
directory with names still to come. -/
def walkNames (fs : Fat32Fs) (dir : Nat) : List Bytes → Option (List DirEntry)×Fat32Fs
  | [] => (some [],fs)
  | [n] =>
    let r := fat32ScanDir fs dir (findFileCb n) none
    (r.1.map fun e => [e],r.2)
  | n::m::ns =>
    let r := fat32ScanDir fs dir (findFileCb n) none
    match r.1 with
    | none => (none,r.2)
    | some e =>
      if e.isDirectory then
        let w := walkNames r.2 (e.dirCluster r.2.rootDirCluster) (m::ns)
        (w.1.map (e::·),w.2)
      else (none,r.2)

/-- A trailing separator asks for a directory. -/
def endsWell (path : Bytes) (es : List DirEntry) : Bool :=
  path.getLast? != some slash || es.getLast?.all DirEntry.isDirectory

/-- The directory entries that a path resolves to, component by component. -/
def fat32Trace (fs : Fat32Fs) (path : Bytes) : Option (List DirEntry)×Fat32Fs :=
  match pathNames path with
  | none => (none,fs)
  | some ns =>
    let w := walkNames fs fs.rootDirCluster ns
    (w.1.filter (endsWell path),w.2)

theorem trace_walk {fs : Fat32Fs} {path : Bytes} {es : List DirEntry}
    (h : (fat32Trace fs path).1=some es) :
    (walkNames fs fs.rootDirCluster (namesOf (parts slash path))).1=some es := by
  unfold fat32Trace pathNames at h
  by_cases hl : (path.dropWhile (· == slash)).length≥pathCopySize
  · simp [hl] at h
  · rw [if_neg hl] at h
    exact (Option.filter_eq_some_iff.mp h).1

theorem dropWhile_twice (s : Bytes) :
    (s.dropWhile (· == slash)).dropWhile (· == slash)=s.dropWhile (· == slash) := by
  induction s with
  | nil => rfl
  | cons x xs ih =>
    by_cases hx : x=slash
    · rw [hx,List.dropWhile_cons_of_pos (by simp),ih]
    · rw [List.dropWhile_cons_of_neg (by simpa using hx),
        List.dropWhile_cons_of_neg (by simpa using hx)]

theorem dropWhile_head (s t : Bytes) (c : UInt8) (h : s.dropWhile (· == slash)=c::t) :
    c≠slash := by
  have hn := List.head?_dropWhile_not (· == slash) s
  rw [h] at hn
  simpa using hn

/-- What the component lookup makes of the entry it finds. -/
def componentCluster (root : Nat) : Option DirEntry → Nat
  | none => 0
  | some e => if e.isDirectory then e.dirCluster root else 0

theorem findComponent_eq (fs : Fat32Fs) (dir root : Nat) (n : Bytes) :
    fat32ScanDir fs dir (findComponentCb n root) 0=
      (componentCluster root (fat32ScanDir fs dir (findFileCb n) none).1,
        (fat32ScanDir fs dir (findFileCb n) none).2) := by
  have h := scan_agree (R:=fun a b => a=0 ∧ b=none) (S:=fun a b => a=componentCluster root b)
    (f:=fun _ _ e found =>
      if e.isEnd then (true,found)
      else if dirEntryIsSkippable e then (false,found)
      else if e.name=n then
        (true,if e.isDirectory then (if e.fstClus≠0 then e.fstClus else root) else found)
      else (false,found))
    (g:=fun _ _ e found =>
      if e.isEnd then (true,found)
      else if dirEntryIsSkippable e then (false,found)
      else if e.name=n then (true,some e)
      else (false,found))
    (by
      rintro _ _ e a b ⟨rfl,rfl⟩
      by_cases h1 : e.isEnd
      · simp [h1,componentCluster]
      · by_cases h2 : dirEntryIsSkippable e
        · simp [h1,h2]
        · by_cases h3 : e.name=n
          · simp [h1,h2,h3,componentCluster,DirEntry.dirCluster]
          · simp [h1,h2,h3])
    (by
      rintro a b ⟨rfl,rfl⟩
      rfl)
    fs dir 0 none ⟨rfl,rfl⟩
  exact Prod.ext h.1 h.2

theorem findFile_name (fs : Fat32Fs) (dir : Nat) (n : Bytes) (e : DirEntry)
    (h : (fat32ScanDir fs dir (findFileCb n) none).1=some e) : e.name=n := by
  have hk := scan_keeps (fun o : Option DirEntry => ∀e∈o,e.name=n)
    (fun _ _ e found =>
      if e.isEnd then (true,found)
      else if dirEntryIsSkippable e then (false,found)
      else if e.name=n then (true,some e)
      else (false,found))
    (by
      intro _ _ e a ha
      by_cases h1 : e.isEnd
      · simpa [h1] using ha
      · by_cases h2 : dirEntryIsSkippable e
        · simpa [h1,h2] using ha
        · by_cases h3 : e.name=n
          · simp [h1,h2,h3]
          · simpa [h1,h2,h3] using ha)
    fs dir none (by simp)
  exact hk e h

theorem walkNames_cons (fs : Fat32Fs) (dir : Nat) (n : Bytes) (ns : List Bytes) (hn : ns≠[]) :
    walkNames fs dir (n::ns)=
      let r := fat32ScanDir fs dir (findFileCb n) none
      match r.1 with
      | none => (none,r.2)
      | some e =>
        if e.isDirectory then
          let w := walkNames r.2 (e.dirCluster r.2.rootDirCluster) ns
          (w.1.map (e::·),w.2)
        else (none,r.2) := by
  cases ns with
  | nil => exact absurd rfl hn
  | cons m ns => rfl

theorem walkNames_names (fs : Fat32Fs) (dir : Nat) (ns : List Bytes) (es : List DirEntry)
    (h : (walkNames fs dir ns).1=some es) : es.map DirEntry.name=ns := by
  induction ns generalizing fs dir es with
  | nil =>
    have he : []=es := by simpa [walkNames] using h
    rw [←he]; rfl
  | cons n ns ih =>
    by_cases hn : ns=[]
    · subst hn
      obtain ⟨e,he,rfl⟩ := Option.map_eq_some_iff.mp h
      simp [findFile_name fs dir n e he]
    · rw [walkNames_cons fs dir n ns hn] at h
      cases hr : (fat32ScanDir fs dir (findFileCb n) none).1 with
      | none => simp [hr] at h
      | some e =>
        by_cases hd : e.isDirectory
        · simp only [hr,hd,if_true,Option.map_eq_some_iff] at h
          obtain ⟨es',he,rfl⟩ := h
          rw [List.map_cons,ih _ _ es' he,findFile_name fs dir n e hr]
        · simp [hr,hd] at h

theorem walkNames_append (fs : Fat32Fs) (dir : Nat) (ns ms : List Bytes) (es : List DirEntry)
    (h : (walkNames fs dir (ns++ms)).1=some es) :
    (walkNames fs dir ns).1=some (es.take ns.length) := by
  induction ns generalizing fs dir es with
  | nil => rfl
  | cons n ns ih =>
    by_cases hn : ns++ms=[]
    · obtain ⟨rfl,rfl⟩ := List.append_eq_nil_iff.mp hn
      obtain ⟨e,he,rfl⟩ := Option.map_eq_some_iff.mp h
      simp [walkNames,he]
    · rw [List.cons_append,walkNames_cons fs dir n _ hn] at h
      cases hr : (fat32ScanDir fs dir (findFileCb n) none).1 with
      | none => simp [hr] at h
      | some e =>
        by_cases hd : e.isDirectory
        · simp only [hr,hd,if_true,Option.map_eq_some_iff] at h
          obtain ⟨es',he,rfl⟩ := h
          have hi := ih _ _ es' he
          by_cases h0 : ns=[]
          · subst h0
            simp [walkNames,hr]
          · rw [walkNames_cons fs dir n ns h0]
            simp [hr,hd,hi]
        · simp [hr,hd] at h

end LugalOS.Fat32
