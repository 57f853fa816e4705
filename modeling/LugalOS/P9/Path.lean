import LugalOS.Lib.CString

namespace LugalOS.P9

open CString

/-- Every path buffer of the server is `char[128]`. -/
def pathSize : Nat := 128

def rootPath : Bytes := [slash]

def dotdot : Bytes := ofString ".."

def p9FindLastSlash (s : Bytes) : Option Nat := lastIndex slash s

def p9PathJoin (outSize : Nat) (base comp : Bytes) : Bytes :=
  if comp=dotdot then
    let tmp := copyInto pathSize base
    match p9FindLastSlash tmp with
    | some i => copyInto outSize (if i=0 then rootPath else tmp.take i)
    | none => copyInto outSize rootPath
  else if base=rootPath then copyInto outSize (slash::comp)
  else copyInto outSize (copyInto pathSize base++slash::comp)

/-- FNV-1a of the path: qid.path. -/
def p9PathHash (path : Bytes) : UInt64 :=
  path.foldl (fun h c => (h ^^^ c.toUInt64)*1099511628211) 1469598103934665603

/-- Length of the prefix that p9_path_within compares: one trailing slash is dropped. -/
def withinLen (pre : Bytes) : Nat :=
  if pre.getLast?=some slash then pre.length-1 else pre.length

def p9PathWithin (pre path : Bytes) : Bool :=
  let n := withinLen pre
  strncmpEq path pre n &&
    match path.drop n with
    | [] => true
    | c::_ => c==slash

def authKeyDir : Bytes := ofString "/sd0/system/etc/auth"
def authFallbackKeyFile : Bytes := ofString "/flash0/system/etc/p9key"

def idstorePathIsSecret (path : Bytes) : Bool :=
  path==ofString "/dev/identity" || path==ofString "/dev/identity0"

def p9PathIsSecret (path : Bytes) : Bool :=
  if idstorePathIsSecret path then true
  else if path=authFallbackKeyFile then true
  else
    let n := authKeyDir.length
    strncmpEq path authKeyDir n &&
      match path.drop n with
      | [] => true
      | c::_ => c==slash

/-- The path Tattach gives the tree it names; also how it reads a grant's aname. -/
def attachPath (aname : Bytes) : Bytes :=
  if aname=[] ∨ aname=rootPath then rootPath
  else if aname.head?=some slash then copyInto pathSize aname
  else slash::copyInto (pathSize-1) aname

theorem p9PathJoin_length (base comp : Bytes) : (p9PathJoin pathSize base comp).length<pathSize := by
  unfold p9PathJoin
  dsimp only
  split_ifs
  · split <;> exact copyInto_length _ (by decide) _
  · exact copyInto_length _ (by decide) _
  · exact copyInto_length _ (by decide) _

theorem attachPath_length (aname : Bytes) : (attachPath aname).length<pathSize := by
  unfold attachPath
  split_ifs
  · decide
  · exact copyInto_length _ (by decide) _
  · have h := copyInto_length (pathSize-1) (by decide) aname
    simp only [List.length_cons]
    omega

/-- The tree a prefix names: the prefix without one trailing slash. -/
def stem (pre : Bytes) : Bytes := pre.take (withinLen pre)

theorem withinLen_le (pre : Bytes) : withinLen pre≤pre.length := by
  unfold withinLen
  split_ifs <;> omega

theorem stem_length (pre : Bytes) : (stem pre).length=withinLen pre := by
  simp [stem,withinLen_le]

theorem stem_split (pre : Bytes) : pre=stem pre ∨ pre=stem pre++[slash] := by
  unfold stem withinLen
  split_ifs with h
  · right
    have hd := List.dropLast_append_getLast? slash h
    rw [←List.dropLast_eq_take,hd]
  · left
    simp

/-- What may follow a stem inside its tree: nothing, or a new component. -/
def Boundary (rest : Bytes) : Prop := rest=[] ∨ ∃t,rest=slash::t

theorem p9PathWithin_iff (pre path : Bytes) :
    p9PathWithin pre path=true ↔ ∃rest,path=stem pre++rest ∧ Boundary rest := by
  unfold p9PathWithin strncmpEq
  simp only [Bool.and_eq_true,beq_iff_eq]
  constructor
  · rintro ⟨he,hb⟩
    refine ⟨path.drop (withinLen pre),?_,?_⟩
    · rw [stem,←he,List.take_append_drop]
    · cases hd : path.drop (withinLen pre) with
      | nil => exact .inl rfl
      | cons c t =>
        rw [hd] at hb
        exact .inr ⟨t,by rw [show c=slash by simpa using hb]⟩
  · rintro ⟨rest,rfl,hb⟩
    have hl := stem_length pre
    rw [List.take_append_of_le_length (by omega),List.drop_append_of_le_length (by omega)]
    rw [List.take_of_length_le (by omega),List.drop_of_length_le (by omega)]
    refine ⟨rfl,?_⟩
    rcases hb with rfl | ⟨t,rfl⟩ <;> simp

theorem boundary_take (rest : Bytes) (n : Nat) (h : Boundary rest) : Boundary (rest.take n) := by
  rcases h with rfl | ⟨t,rfl⟩
  · left; simp
  · cases n with
    | zero => left; rfl
    | succ n => right; exact ⟨t.take n,rfl⟩

/-- Every stored path is absolute. -/
def Absolute (path : Bytes) : Prop := ∃t,path=slash::t

theorem p9PathJoin_absolute (base comp : Bytes) (hb : Absolute base) :
    Absolute (p9PathJoin pathSize base comp) := by
  obtain ⟨t,rfl⟩ := hb
  unfold p9PathJoin
  dsimp only
  split_ifs with hc hr
  · split
    next i _ =>
      by_cases hi : i=0
      · rw [if_pos hi]
        exact ⟨[],rfl⟩
      · obtain ⟨k,rfl⟩ := Nat.exists_eq_succ_of_ne_zero hi
        rw [if_neg hi]
        exact ⟨_,rfl⟩
    · exact ⟨[],rfl⟩
  · exact ⟨_,rfl⟩
  · exact ⟨_,rfl⟩

theorem attachPath_absolute (aname : Bytes) : Absolute (attachPath aname) := by
  unfold attachPath
  split_ifs with h hs
  · exact ⟨[],rfl⟩
  · cases aname with
    | nil => simp at hs
    | cons c t =>
      have hc : c=slash := by simpa using hs
      exact ⟨t.take 126,by simp [copyInto,pathSize,hc]⟩
  · exact ⟨_,rfl⟩

/-- When a component keeps a path inside its tree: ".." not at the tree's own root, and no
new name directly under "/" for the tree "//". -/
def JoinStays (pre path comp : Bytes) : Prop :=
  (comp=dotdot → path≠stem pre ∨ path=rootPath) ∧
  (comp≠dotdot → path=rootPath → stem pre=rootPath → Boundary comp)

instance (rest : Bytes) : Decidable (Boundary rest) :=
  decidable_of_iff (rest=[] ∨ rest.head?=some slash) (by
    cases rest with
    | nil => simp [Boundary]
    | cons c t => simp [Boundary])

instance (pre path comp : Bytes) : Decidable (JoinStays pre path comp) :=
  inferInstanceAs (Decidable (_ ∧ _))

/-- ".." drops the last component; inside the tree it stops at the root of the tree. -/
theorem join_dotdot_below (pre rest : Bytes) (hl : (stem pre++slash::rest).length<pathSize) :
    p9PathWithin pre (p9PathJoin pathSize (stem pre++slash::rest) dotdot)=true := by
  obtain ⟨j,hj⟩ := lastIndex_cons_self slash rest
  have hi := lastIndex_append slash (stem pre) (slash::rest) j hj
  rw [p9PathWithin_iff]
  unfold p9PathJoin p9FindLastSlash
  simp only [if_true,copyInto_of_short pathSize _ hl,hi]
  by_cases h0 : (stem pre).length+j=0
  · have hs : stem pre=[] := List.eq_nil_of_length_eq_zero (by omega)
    rw [if_pos h0]
    exact ⟨rootPath,by rw [hs]; rfl,.inr ⟨[],rfl⟩⟩
  · rw [if_neg h0,List.take_append,List.take_of_length_le (by omega),Nat.add_sub_cancel_left,
      copyInto_of_short]
    · exact ⟨_,rfl,boundary_take _ j (.inr ⟨rest,rfl⟩)⟩
    · simp only [List.length_append,List.length_cons,List.length_take] at hl ⊢
      omega

/-- ".." at the root of the tree leaves it, unless that root is "/". -/
theorem join_dotdot_at_stem (pre : Bytes) (hl : (stem pre).length<pathSize)
    (ha : Absolute (stem pre)) :
    p9PathWithin pre (p9PathJoin pathSize (stem pre) dotdot)=true ↔ stem pre=rootPath := by
  obtain ⟨t,ht⟩ := ha
  obtain ⟨j,hj⟩ := lastIndex_cons_self slash t
  have hlt := lastIndex_lt slash _ j hj
  rw [p9PathWithin_iff]
  unfold p9PathJoin p9FindLastSlash
  simp only [if_true,copyInto_of_short pathSize _ hl]
  rw [ht,hj]
  dsimp only
  by_cases h0 : j=0
  · rw [if_pos h0]
    constructor
    · rintro ⟨rest,he,_⟩
      have hn := congrArg List.length he
      simp only [copyInto,rootPath,List.length_take,List.length_append,List.length_cons,
        List.length_nil] at hn
      have ht0 : t=[] := List.eq_nil_of_length_eq_zero (by omega)
      rw [ht0]; rfl
    · intro h
      exact ⟨[],by rw [h]; rfl,.inl rfl⟩
  · rw [if_neg h0]
    constructor
    · rintro ⟨rest,he,_⟩
      have hn := congrArg List.length he
      simp only [copyInto,List.length_take,List.length_append] at hn
      omega
    · intro h
      have hn := congrArg List.length h
      simp only [rootPath,List.length_cons,List.length_nil] at hn hlt
      omega

/-- Inside a tree, a join stays inside it exactly when `JoinStays` says so. -/
theorem p9PathJoin_within_iff (pre path comp : Bytes) (hp : pre.length<32)
    (hc : comp.length<32) (hl : path.length<pathSize) (ha : Absolute path)
    (hw : p9PathWithin pre path=true) :
    p9PathWithin pre (p9PathJoin pathSize path comp)=true ↔ JoinStays pre path comp := by
  obtain ⟨rest,he,hb⟩ := (p9PathWithin_iff pre path).mp hw
  have hs : (stem pre).length<32 := by
    have h := withinLen_le pre
    rw [stem_length]
    omega
  unfold JoinStays
  by_cases hd : comp=dotdot
  · subst hd
    simp only [ne_eq,not_true_eq_false,false_implies,and_true,forall_const]
    rcases hb with rfl | ⟨t,rfl⟩
    · rw [List.append_nil] at he
      subst he
      rw [join_dotdot_at_stem pre hl ha]
      simp
    · have hne : path≠stem pre := by
        intro h
        have hn := congrArg List.length (he.symm.trans h)
        simp at hn
      have hj := join_dotdot_below pre t (by rw [←he]; exact hl)
      rw [←he] at hj
      simp [hj,hne]
  · simp only [hd,false_implies,true_and,ne_eq,not_false_eq_true,forall_const]
    unfold p9PathJoin
    rw [if_neg hd]
    by_cases hr : path=rootPath
    · rw [if_pos hr,copyInto_of_short _ _ (by simp only [List.length_cons,pathSize]; omega),
        p9PathWithin_iff]
      -- "/" is the stem "" continued by a slash, or the stem "/" itself
      rw [hr] at he
      have hn := congrArg List.length he
      simp only [rootPath,List.length_cons,List.length_nil,List.length_append] at hn
      rcases hb with rfl | ⟨t,rfl⟩
      · rw [List.append_nil] at he
        rw [←he]
        constructor
        · rintro ⟨r,hr',hb'⟩ _ _
          have : comp=r := by simpa [rootPath] using hr'
          rw [this]; exact hb'
        · intro h
          exact ⟨comp,rfl,h hr rfl⟩
      · have hs0 : stem pre=[] := List.eq_nil_of_length_eq_zero (by
          simp only [List.length_cons] at hn; omega)
        rw [hs0]
        constructor
        · intro _ _ h
          cases h
        · intro _
          exact ⟨slash::comp,rfl,.inr ⟨comp,rfl⟩⟩
    · rw [if_neg hr,copyInto_of_short pathSize _ hl,p9PathWithin_iff]
      refine ⟨fun _ h => absurd h hr,fun _ => ?_⟩
      refine ⟨(rest++slash::comp).take (127-(stem pre).length),?_,?_⟩
      · rw [he,copyInto,List.append_assoc,List.take_append,List.take_of_length_le (by
          simp only [pathSize]; omega)]
        rfl
      · apply boundary_take
        rcases hb with rfl | ⟨t,rfl⟩
        · exact .inr ⟨comp,rfl⟩
        · exact .inr ⟨t++slash::comp,rfl⟩

theorem attachPath_within_iff (aname : Bytes) (hn : aname.length<32) :
    p9PathWithin aname (attachPath aname)=true ↔ Boundary aname := by
  rw [p9PathWithin_iff]
  unfold attachPath
  by_cases h0 : aname=[]
  · subst h0
    exact ⟨fun _ => .inl rfl,fun _ => ⟨rootPath,rfl,.inr ⟨[],rfl⟩⟩⟩
  by_cases h1 : aname=rootPath
  · subst h1
    exact ⟨fun _ => .inr ⟨[],rfl⟩,fun _ => ⟨rootPath,rfl,.inr ⟨[],rfl⟩⟩⟩
  rw [if_neg (by simp [h0,h1])]
  by_cases hs : aname.head?=some slash
  · rw [if_pos hs,copyInto_of_short _ _ (by simp only [pathSize]; omega)]
    constructor
    · intro _
      cases aname with
      | nil => cases hs
      | cons c t => exact .inr ⟨t,by rw [show c=slash by simpa using hs]⟩
    · intro _
      rcases stem_split aname with h | h
      · exact ⟨[],by rw [List.append_nil]; exact h,.inl rfl⟩
      · exact ⟨[slash],h,.inr ⟨[],rfl⟩⟩
  · rw [if_neg hs,copyInto_of_short _ _ (by simp only [pathSize]; omega)]
    constructor
    · rintro ⟨rest,he,hb⟩
      cases hst : stem aname with
      | nil =>
        rcases stem_split aname with h | h
        · exact absurd (h.trans hst) h0
        · rw [hst] at h
          exact absurd h h1
      | cons c t =>
        rw [hst] at he
        have hc : slash=c := (List.cons.inj he).1
        rcases stem_split aname with h | h <;> rw [h,hst,←hc] at hs <;> simp at hs
    · rintro (h | ⟨t,h⟩)
      · exact absurd h h0
      · rw [h] at hs
        simp at hs

def p9Nofid : UInt32 := 0xFFFFFFFF
def p9MaxFids : Nat := 8
def p9MaxNameLen : Nat := 32
def p9TagLen : UInt32 := 8

def p9OWrite : UInt8 := 0x01
def p9ORdwr : UInt8 := 0x02
def p9OExec : UInt8 := 0x03
def p9OTrunc : UInt8 := 0x10
def p9OrClose : UInt8 := 0x40
def p9DmDir : UInt32 := 0x80000000

def p9QtDir : UInt8 := 0x80
def p9QtAuth : UInt8 := 0x08
def p9QtFile : UInt8 := 0x00

inductive P9MsgType where
  | tversion | rversion | tauth | rauth | tattach | rattach | rerror | tflush | rflush
  | twalk | rwalk | topen | ropen | tcreate | rcreate | tread | rread | twrite | rwrite
  | tclunk | rclunk | tremove | rremove | tstat | rstat
  /-- A code the server has no handler for. -/
  | unknown (code : UInt8)
  deriving DecidableEq

structure P9Qid where
  type : UInt8 := 0
  vers : UInt32 := 0
  path : UInt64 := 0
  deriving DecidableEq

/-- `char[P9_MAX_NAME_LEN]` as p9_deserialize fills it: cut to 31 bytes, terminated. -/
abbrev Name := Buf p9MaxNameLen

def noName : Name := ⟨[],by decide,by decide⟩

structure P9Msg where
  type : P9MsgType
  tag : UInt16 := 0
  oldtag : UInt16 := 0
  fid : UInt32 := 0
  afid : UInt32 := 0
  newfid : UInt32 := 0
  msize : UInt32 := 0
  lp : Bool := false
  offset : UInt64 := 0
  count : UInt32 := 0
  mode : UInt8 := 0
  perm : UInt32 := 0
  qid : P9Qid := {}
  uname : Name := noName
  aname : Name := noName
  ename : String := ""
  name : Name := noName
  /-- The first nwname elements of wname. -/
  wname : List Name := []
  /-- The first nwqid elements of wqid. -/
  wqid : List P9Qid := []
  data : Bytes := []

/-- The `count` bytes at `data`; a frame with fewer is refused by p9_deserialize. -/
def P9Msg.payload (m : P9Msg) : Bytes := (List.range m.count.toNat).map fun k => m.data.getD k 0

/-- `resp->type=P9_RERROR; resp->ename=e`. -/
def P9Msg.error (resp : P9Msg) (e : String) : P9Msg := {resp with type := .rerror, ename := e}

def le16 (v : UInt16) : Bytes := [v.toUInt8,(v>>>8).toUInt8]
def le32 (v : UInt32) : Bytes :=
  [v.toUInt8,(v>>>8).toUInt8,(v>>>16).toUInt8,(v>>>24).toUInt8]
def le64 (v : UInt64) : Bytes := le32 v.toUInt32++le32 (v>>>32).toUInt32

def wcurStr (s : Bytes) : Bytes := le16 s.length.toUInt16++s
def wcurQid (q : P9Qid) : Bytes := q.type::(le32 q.vers++le64 q.path)

/-- One stat structure with its own leading size; none when it does not fit. -/
def p9PackStat (outMax : Nat) (name : Bytes) (length : UInt64) (isDir : Bool) (qid : P9Qid) :
    Option Bytes :=
  let body := le16 0++le32 0++wcurQid qid++le32 (if isDir then p9DmDir ||| 0o755 else 0o644)++
    le32 0++le32 0++le64 (if isDir then 0 else length)++wcurStr name++
    wcurStr []++wcurStr []++wcurStr []
  let out := le16 body.length.toUInt16++body
  if out.length≤outMax then some out else none

end LugalOS.P9
