import LugalOS.Lib.Serial
import LugalOS.P9.Wire

namespace LugalOS.P9

open CString LugalOS.Frames Serial

/-- A string on the wire: its length in 16 bits, and that many bytes of it. -/
def strBytes (s : Bytes) : Bytes := le16 s.length.toUInt16++s.take s.length.toUInt16.toNat

def payloadBytes (m : P9MsgT) : Bytes := (m.data.getD []).take m.count.toNat

def walkNames (m : P9MsgT) : List Name := m.wname.toList.take m.nwname.toNat
def walkQids (m : P9MsgT) : List P9Qid := m.wqid.toList.take m.nwqid.toNat

/-- What follows the header in the encoding of a message. -/
def bodyBytes (iounit : UInt32) (m : P9MsgT) : Bytes :=
  match m.type with
  | .tversion | .rversion => le32 m.msize++strBytes (if m.lp then protoLp else protoPlain)
  | .tattach => le32 m.fid++le32 m.afid++strBytes m.uname.bytes++strBytes m.aname.bytes
  | .tauth => le32 m.afid++strBytes m.uname.bytes++strBytes m.aname.bytes
  | .rauth | .rattach => wcurQid m.qid
  | .rerror => strBytes (m.ename.getD (ofString "Unknown error"))
  | .twalk => le32 m.fid++le32 m.newfid++le16 m.nwname++
      (walkNames m).flatMap fun s => strBytes s.bytes
  | .rwalk => le16 m.nwqid++(walkQids m).flatMap wcurQid
  | .topen => le32 m.fid++[m.mode]
  | .ropen | .rcreate => wcurQid m.qid++le32 iounit
  | .tcreate => le32 m.fid++strBytes m.name.bytes++le32 m.perm++[m.mode]
  | .twrite => le32 m.fid++le64 m.offset++le32 m.count++payloadBytes m
  | .rwrite => le32 m.count
  | .tread => le32 m.fid++le64 m.offset++le32 m.count
  | .rread => le32 m.count++payloadBytes m
  | .rstat => le16 m.count.toUInt16++payloadBytes m
  | .tstat | .tclunk | .tremove => le32 m.fid
  | .tflush => le16 m.oldtag
  | .rclunk | .rremove | .rflush | .unknown _ => []

def headerBytes (m : P9MsgT) : Bytes := [m.type.code]++le16 m.tag

def encoding (iounit : UInt32) (m : P9MsgT) : Bytes :=
  le32 (7+(bodyBytes iounit m).length).toUInt32++(headerBytes m++bodyBytes iounit m)

/-- The message with the fields that its type has on the wire, and no others. -/
def carried (m : P9MsgT) : P9MsgT :=
  let h : P9MsgT := {type := m.type, tag := m.tag}
  match m.type with
  | .tversion | .rversion => {h with msize := m.msize, lp := m.lp}
  | .tattach => {h with fid := m.fid, afid := m.afid, uname := m.uname, aname := m.aname}
  | .tauth => {h with afid := m.afid, uname := m.uname, aname := m.aname}
  | .rauth | .rattach | .ropen | .rcreate => {h with qid := m.qid}
  | .twalk => {h with
      fid := m.fid, newfid := m.newfid, nwname := m.nwname
      wname := fillWalk noName (walkNames m)}
  | .rwalk => {h with nwqid := m.nwqid, wqid := fillWalk {} (walkQids m)}
  | .topen => {h with fid := m.fid, mode := m.mode}
  | .tcreate => {h with fid := m.fid, name := m.name, perm := m.perm, mode := m.mode}
  | .twrite => {h with
      fid := m.fid, offset := m.offset, count := m.count, data := some (payloadBytes m)}
  | .rwrite => {h with count := m.count}
  | .tread => {h with fid := m.fid, offset := m.offset, count := m.count}
  | .rread | .rstat => {h with count := m.count, data := some (payloadBytes m)}
  | .tstat | .tclunk | .tremove => {h with fid := m.fid}
  | .tflush => {h with oldtag := m.oldtag}
  | .rerror | .rclunk | .rremove | .rflush | .unknown _ => h

/-- A message to be written: a type there is a case for, no more elements than the arrays have, and
as many bytes of data as it says. -/
structure P9MsgT.Whole (m : P9MsgT) : Prop where
  handled : m.type∈handledTypes
  names : m.nwname.toNat≤p9MaxWalkElem
  qids : m.nwqid.toNat≤p9MaxWalkElem
  data : (m.data.getD []).length=m.count.toNat

/-- The writer puts bs at the end, or overflows where there is no room for it. -/
def Emits (f : WCur → WCur) (bs : Bytes) : Prop :=
  ∀c : WCur,(c.overflow=true → (f c).overflow=true) ∧
    (c.overflow=false → c.out.length≤c.size →
      (c.out.length+bs.length≤c.size → f c={c with out := c.out++bs}) ∧
      (c.size < c.out.length+bs.length → (f c).overflow=true))

namespace Emits

variable {f g : WCur → WCur} {a b : Bytes}

theorem nothing : Emits (fun c => c) [] := by
  intro c
  refine ⟨id,fun _ hl => ⟨fun _ => ?_,fun hlt => ?_⟩⟩
  · rw [List.append_nil]
  · rw [List.length_nil] at hlt
    omega

theorem put (bs : Bytes) : Emits (fun c => c.put bs) bs := by
  intro c
  unfold WCur.put
  dsimp only
  refine ⟨fun ho => by rw [if_pos (.inl ho)],fun ho hl => ⟨fun hle => ?_,fun hlt => ?_⟩⟩
  · rw [if_neg (not_or.mpr ⟨by rw [ho]; decide,by omega⟩)]
  · rw [if_pos (.inr hlt)]

theorem comp (hf : Emits f a) (hg : Emits g b) : Emits (fun c => g (f c)) (a++b) := by
  intro c
  obtain ⟨hs,hput⟩ := hf c
  have hthen := (hg {c with out := c.out++a}).2
  simp only [List.length_append,List.append_assoc] at hthen ⊢
  refine ⟨fun ho => (hg _).1 (hs ho),fun ho hl => ?_⟩
  obtain ⟨hfit,hover⟩ := hput ho hl
  refine ⟨fun hle => ?_,fun hlt => ?_⟩
  · rw [hfit (by omega)]
    exact (hthen ho (by omega)).1 (by omega)
  · by_cases hle : c.out.length+a.length≤c.size
    · rw [hfit hle]
      exact (hthen ho hle).2 (by omega)
    · exact (hg _).1 (hover (by omega))

theorem u64 (v : UInt64) : Emits (fun c => c.u64 v) (le64 v) :=
  (put (le32 v.toUInt32)).comp (put (le32 (v>>>32).toUInt32))

theorem qid (q : P9Qid) : Emits (fun c => c.qid q) (wcurQid q) :=
  ((put [q.type]).comp (put (le32 q.vers))).comp (u64 q.path)

theorem bytes {b : Option Bytes} {n : Nat} (h : (b.getD []).length=n ∨
    ∃s,b=some s ∧ n ≤ s.length) : Emits (fun c => c.bytes b n) ((b.getD []).take n) := by
  by_cases h0 : n=0
  · subst h0
    have : (fun c : WCur => c.bytes b 0)=fun c => c := by
      funext c
      exact if_pos rfl
    rw [this,List.take_zero]
    exact nothing
  · obtain ⟨s,rfl,hs⟩ : ∃s,b=some s ∧ n ≤ s.length := by
      rcases h with h | h
      · cases b with
        | none => exact absurd h.symm h0
        | some s => exact ⟨s,rfl,h.ge⟩
      · exact h
    have hl : (s.take n).length=n := by rw [List.length_take,Nat.min_eq_left hs]
    have : (fun c : WCur => c.bytes (some s) n)=fun c => c.put (s.take n) := by
      funext c
      rw [WCur.bytes,if_neg h0,WCur.put,hl]
    rw [this]
    exact put _

theorem str (s : Bytes) : Emits (fun c => c.str s) (strBytes s) := by
  have hle : s.length.toUInt16.toNat ≤ s.length := by
    rw [Nat.toUInt16,UInt16.toNat_ofNat']
    exact Nat.mod_le _ _
  have hb := (put (le16 s.length.toUInt16)).comp
    (bytes (b := some s) (.inr ⟨s,rfl,hle⟩))
  have : (fun c : WCur => c.str s)=fun c => (c.put (le16 s.length.toUInt16)).bytes (some s)
      s.length.toUInt16.toNat := by
    funext c
    rw [WCur.str]
    split_ifs with h0
    · rfl
    · have hz : s.length.toUInt16.toNat=0 := by
        rw [UInt16.lt_iff_toNat_lt] at h0
        exact Nat.eq_zero_of_not_pos h0
      rw [hz,WCur.bytes,if_pos rfl]
      rfl
  rw [this]
  exact hb

theorem fold {α : Type} {w : WCur → α → WCur} {enc : α → Bytes}
    (h : ∀x,Emits (fun c => w c x) (enc x)) (xs : List α) :
    Emits (fun c => xs.foldl w c) (xs.flatMap enc) := by
  induction xs with
  | nil => exact nothing
  | cons x xs ih => exact (h x).comp ih

end Emits

theorem serializeBody_emits (iounit : UInt32) {m : P9MsgT} (h : m.Whole) :
    Emits (serializeBody iounit m) (bodyBytes iounit m) := by
  have hdata := Emits.bytes (.inl h.data)
  have hn : clampWalk m.nwname=m.nwname := if_neg (Nat.not_lt.mpr h.names)
  have hq : clampWalk m.nwqid=m.nwqid := if_neg (Nat.not_lt.mpr h.qids)
  have hnames := Emits.fold (fun s : Name => Emits.str s.bytes) (walkNames m)
  have hqids := Emits.fold Emits.qid (walkQids m)
  unfold serializeBody bodyBytes
  cases m.type with
  | tversion | rversion => exact (Emits.put _).comp (Emits.str _)
  | tattach => exact (((Emits.put _).comp (Emits.put _)).comp (Emits.str _)).comp (Emits.str _)
  | tauth => exact ((Emits.put _).comp (Emits.str _)).comp (Emits.str _)
  | rauth | rattach => exact Emits.qid _
  | rerror => exact Emits.str _
  | twalk =>
    dsimp only
    rw [hn]
    exact (((Emits.put _).comp (Emits.put _)).comp (Emits.put _)).comp hnames
  | rwalk =>
    dsimp only
    rw [hq]
    exact (Emits.put _).comp hqids
  | topen => exact (Emits.put _).comp (Emits.put _)
  | ropen | rcreate => exact (Emits.qid _).comp (Emits.put _)
  | tcreate => exact (((Emits.put _).comp (Emits.str _)).comp (Emits.put _)).comp (Emits.put _)
  | twrite => exact (((Emits.put _).comp (Emits.u64 _)).comp (Emits.put _)).comp hdata
  | rwrite => exact Emits.put _
  | tread => exact ((Emits.put _).comp (Emits.u64 _)).comp (Emits.put _)
  | rread | rstat => exact (Emits.put _).comp hdata
  | tstat | tclunk | tremove | tflush => exact Emits.put _
  | rclunk | rremove | rflush | unknown => exact Emits.nothing

theorem encoding_length (iounit : UInt32) (m : P9MsgT) :
    (encoding iounit m).length=7+(bodyBytes iounit m).length := by
  simp only [encoding,headerBytes,le32,le16,List.length_append,List.length_cons,List.length_nil]
  omega

theorem p9Serialize_eq (iounit : UInt32) {m : P9MsgT} (h : m.Whole) (bufSize : UInt32) :
    (bufSize.toNat < (encoding iounit m).length → (p9Serialize iounit m bufSize).1= -1) ∧
    ((encoding iounit m).length≤bufSize.toNat → p9Serialize iounit m bufSize=
      ((encoding iounit m).length.toUInt32.toInt32.toInt,encoding iounit m)) := by
  have hlen := encoding_length iounit m
  have hput := (((Emits.put [m.type.code]).comp (Emits.put (le16 m.tag))).comp
    (serializeBody_emits iounit h) {out := [0,0,0,0],size := bufSize.toNat,overflow := false}).2 rfl
  have hl : ([m.type.code]++le16 m.tag).length=3 := rfl
  simp only [List.length_append,hl,List.length_cons,List.length_nil] at hput
  have h7 : bufSize<7 ↔ bufSize.toNat<7 := UInt32.lt_iff_toNat_lt
  refine ⟨fun hlt => ?_,fun hle => ?_⟩
  · unfold p9Serialize
    split_ifs with hs
    · rfl
    · rw [h7] at hs
      have := (hput (by omega)).2 (by omega)
      exact congrArg Prod.fst (if_pos this)
  · have hb := (hput (by omega)).1 (by omega)
    have henc : le32 (encoding iounit m).length.toUInt32++(headerBytes m++bodyBytes iounit m)=
        encoding iounit m := by
      rw [hlen]
      rfl
    have hout : ([0,0,0,0]++(headerBytes m++bodyBytes iounit m)).length=
        (encoding iounit m).length := by
      rw [hlen,headerBytes,List.length_append,List.length_append,hl,← Nat.add_assoc]
      rfl
    rw [p9Serialize,if_neg (by rw [h7]; omega)]
    dsimp only [WCur.u8,WCur.u16]
    rw [hb]
    dsimp only
    rw [if_neg Bool.false_ne_true,← headerBytes,hout]
    exact Prod.ext rfl henc

end LugalOS.P9
