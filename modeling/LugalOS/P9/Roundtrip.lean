import Mathlib.Data.List.TakeWhile
import LugalOS.P9.Codec

namespace LugalOS.P9

open CString LugalOS.Frames Serial Reader Words

theorem ofLe16 (v : UInt16) :
    v.toUInt8.toUInt16 ||| ((v>>>8).toUInt8.toUInt16<<<8)=v := by
  have hv := v.toNat_lt
  apply UInt16.toNat_inj.mp
  simp only [UInt16.toNat_or,UInt16.toNat_shiftLeft,UInt8.toNat_toUInt16,UInt16.toNat_toUInt8,
    UInt16.toNat_shiftRight,UInt16.reduceToNat,Nat.reduceMod,Nat.shiftRight_eq_div_pow]
  rw [or_shiftLeft _ (by omega) (by omega)]
  omega

theorem ofLe32 (v : UInt32) :
    v.toUInt8.toUInt32 ||| ((v>>>8).toUInt8.toUInt32<<<8) |||
      ((v>>>16).toUInt8.toUInt32<<<16) ||| ((v>>>24).toUInt8.toUInt32<<<24)=v := by
  have hv := v.toNat_lt
  apply UInt32.toNat_inj.mp
  simp only [UInt32.toNat_or,UInt32.toNat_shiftLeft,UInt8.toNat_toUInt32,UInt32.toNat_toUInt8,
    UInt32.toNat_shiftRight,UInt32.reduceToNat,Nat.reduceMod,Nat.shiftRight_eq_div_pow]
  have h8 : v.toNat%2^8 ||| (v.toNat/2^8%2^8)<<<8%2^32=v.toNat%2^16 := by
    rw [or_shiftLeft _ (by omega) (by omega)]
    omega
  have h16 : v.toNat%2^16 ||| (v.toNat/2^16%2^8)<<<16%2^32=v.toNat%2^24 := by
    rw [or_shiftLeft _ (by omega) (by omega)]
    omega
  rw [h8,h16,or_shiftLeft _ (by omega) (by omega)]
  omega

theorem ofLe64 (v : UInt64) :
    ((v>>>32).toUInt32.toUInt64<<<32) ||| v.toUInt32.toUInt64=v := by
  have hv := v.toNat_lt
  apply UInt64.toNat_inj.mp
  simp only [UInt64.toNat_or,UInt64.toNat_shiftLeft,UInt32.toNat_toUInt64,UInt64.toNat_toUInt32,
    UInt64.toNat_shiftRight,UInt64.reduceToNat,Nat.reduceMod,Nat.shiftRight_eq_div_pow]
  rw [Nat.or_comm,or_shiftLeft _ (by omega) (by omega)]
  omega

theorem reads_u8 (v : UInt8) : Reader.Reads RCur.u8 v [v] :=
  Reader.Reads.take (a := [v]) rfl (Reader.Reads.done v)

theorem reads_u16 (v : UInt16) : Reader.Reads RCur.u16 v (le16 v) := by
  have h : Reader.Reads RCur.u16 (v.toUInt8.toUInt16 ||| ((v>>>8).toUInt8.toUInt16<<<8)) (le16 v) :=
    Reader.Reads.take (a := le16 v) rfl (Reader.Reads.done _)
  rwa [ofLe16] at h

theorem reads_u32 (v : UInt32) : Reader.Reads RCur.u32 v (le32 v) := by
  have h : Reader.Reads RCur.u32 (v.toUInt8.toUInt32 ||| ((v>>>8).toUInt8.toUInt32<<<8) |||
      ((v>>>16).toUInt8.toUInt32<<<16) ||| ((v>>>24).toUInt8.toUInt32<<<24)) (le32 v) :=
    Reader.Reads.take (a := le32 v) rfl (Reader.Reads.done _)
  rwa [ofLe32] at h

theorem reads_u64 (v : UInt64) : Reader.Reads RCur.u64 v (le64 v) := by
  have h : Reader.Reads RCur.u64 _ (le64 v) := (reads_u32 v.toUInt32).bind
    ((reads_u32 (v>>>32).toUInt32).map fun hi => (hi.toUInt64<<<32) ||| v.toUInt32.toUInt64)
  rwa [ofLe64] at h

theorem reads_qid (q : P9Qid) : Reader.Reads RCur.qid q (wcurQid q) :=
  (reads_u8 q.type).bind ((reads_u32 q.vers).bind
    ((reads_u64 q.path).map fun path => ({type := q.type,vers := q.vers,path} : P9Qid)))

theorem cut_of_short {n : Nat} {s : Bytes} (hs : s.length < n) (h0 : 0∉s) : RCur.cut n s=s := by
  rw [RCur.cut,List.take_of_length_le (by omega)]
  exact List.takeWhile_eq_self_iff.mpr fun x hx => decide_eq_true fun h => h0 (h ▸ hx)

theorem reads_sized {α : Type} (s : Bytes) (cap : Nat) (g : Bytes → α) :
    Reader.Reads (RCur.u16.bind fun len => .take (min len.toNat cap) len.toNat fun b => .done (g b))
      (g (s.take s.length.toUInt16.toNat)) (strBytes s) := by
  have hl : (s.take s.length.toUInt16.toNat).length=s.length.toUInt16.toNat := by
    rw [List.length_take,Nat.toUInt16,UInt16.toNat_ofNat']
    exact Nat.min_eq_left (Nat.mod_le _ _)
  refine (reads_u16 s.length.toUInt16).bind ?_
  have h := Reader.Reads.take (c := min s.length.toUInt16.toNat cap) (k := fun b => .done (g b)) hl
    (Reader.Reads.done _)
  rwa [List.append_nil] at h

theorem take_of_short {s : Bytes} (hs : s.length<65536) : s.take s.length.toUInt16.toNat=s := by
  rw [Nat.toUInt16,UInt16.toNat_ofNat',Nat.mod_eq_of_lt hs,List.take_length]

theorem reads_name (s : Name) : Reader.Reads RCur.name s (strBytes s.bytes) := by
  have hs := s.short
  have h : Reader.Reads RCur.name _ (strBytes s.bytes) := reads_sized s.bytes _ RCur.nameOf
  have : RCur.nameOf s.bytes=s := (Buf.mk.injEq ..).mpr (cut_of_short hs s.noNul)
  rwa [take_of_short (by simp only [p9MaxNameLen] at hs; omega),this] at h

theorem reads_data {b : Bytes} {n : Nat} (h : b.length=n) : Reader.Reads (RCur.data n) b b := by
  have := Reader.Reads.take (c := n) h (Reader.Reads.done b)
  rwa [List.append_nil] at this

theorem ofCode_code {t : P9MsgType} (h : t∈handledTypes) : P9MsgType.ofCode t.code=t := by
  simp only [handledTypes,List.mem_cons,List.not_mem_nil,or_false] at h
  rcases h with rfl | rfl | rfl | rfl | rfl | rfl | rfl | rfl | rfl | rfl | rfl | rfl | rfl |
    rfl | rfl | rfl | rfl | rfl | rfl | rfl | rfl | rfl | rfl | rfl | rfl <;> rfl

theorem reads_proto (lp : Bool) : ∃proto,(proto==protoLp)=lp ∧
    Reader.Reads (RCur.str 16) proto (strBytes (if lp then protoLp else protoPlain)) := by
  refine ⟨_,?_,reads_sized _ _ (RCur.cut 16)⟩
  cases lp <;> decide

theorem reads_walk {α : Type} {r : Reader α} {enc : α → Bytes} {n : UInt16} {xs : List α}
    {k : List α → P9MsgT} (hr : ∀x,Reader.Reads r x (enc x)) (hn : n.toNat≤p9MaxWalkElem)
    (hx : xs.length=n.toNat) :
    Reader.Reads (if p9MaxWalkElem < n.toNat then .refuse
      else (Reader.replicate n.toNat r).bind fun xs => .done (k xs)) (k xs) (xs.flatMap enc) := by
  rw [if_neg (Nat.not_lt.mpr hn),← hx]
  exact (Reader.Reads.replicate xs fun x _ => hr x).map k

theorem reads_rstat (tag n : UInt16) {b : Bytes} (hb : b.length=n.toNat) :
    Reader.Reads (deserializeBody {type := .rstat,tag})
      {type := .rstat,tag,count := n.toUInt32,data := some b} (le16 n++b) := by
  have h := (reads_data hb).map fun b =>
    ({type := .rstat,tag,count := n.toUInt32,data := some b} : P9MsgT)
  exact (reads_u16 n).bind h

theorem payloadBytes_length {m : P9MsgT} (h : m.Whole) :
    (payloadBytes m).length=m.count.toNat := by
  rw [payloadBytes,List.length_take,h.data,Nat.min_self]

theorem deserializeBody_reads (iounit : UInt32) {m : P9MsgT} (h : m.Whole)
    (hc : m.type=.rstat → m.count.toNat<65536) :
    Reader.Reads (deserializeBody {type := m.type,tag := m.tag}) (carried m)
      (bodyBytes iounit m) := by
  have hpayl := payloadBytes_length h
  have hpay := reads_data hpayl
  have hnames : (walkNames m).length=m.nwname.toNat := by
    rw [walkNames,List.length_take,Vector.length_toList,Nat.min_eq_left h.names]
  have hqids : (walkQids m).length=m.nwqid.toNat := by
    rw [walkQids,List.length_take,Vector.length_toList,Nat.min_eq_left h.qids]
  obtain ⟨proto,hlp,hproto⟩ := reads_proto m.lp
  unfold deserializeBody bodyBytes carried
  generalize m.type=t at hc ⊢
  cases t <;> dsimp only
  case tversion | rversion =>
    rw [← hlp] at hproto ⊢
    exact (reads_u32 _).bind (Reader.Reads.map hproto _)
  case tattach =>
    simp only [List.append_assoc]
    refine (reads_u32 _).bind ((reads_u32 _).bind ((reads_name _).bind ?_))
    exact Reader.Reads.map (reads_name _) _
  case tauth =>
    rw [List.append_assoc]
    exact (reads_u32 _).bind ((reads_name _).bind (Reader.Reads.map (reads_name _) _))
  case rauth | rattach => exact Reader.Reads.map (reads_qid _) _
  case rerror => exact Reader.Reads.map (reads_sized _ _ (RCur.cut 64)) _
  case twalk =>
    simp only [List.append_assoc]
    refine (reads_u32 _).bind ((reads_u32 _).bind ((reads_u16 _).bind ?_))
    exact reads_walk reads_name h.names hnames
  case rwalk => exact (reads_u16 _).bind (reads_walk reads_qid h.qids hqids)
  case topen => exact (reads_u32 _).bind (Reader.Reads.map (reads_u8 _) _)
  case ropen | rcreate => exact (reads_qid _).bind (Reader.Reads.map (reads_u32 _) _)
  case tcreate =>
    simp only [List.append_assoc]
    refine (reads_u32 _).bind ((reads_name _).bind ((reads_u32 _).bind ?_))
    exact Reader.Reads.map (reads_u8 _) _
  case twrite =>
    simp only [List.append_assoc]
    refine (reads_u32 _).bind ((reads_u64 _).bind ((reads_u32 _).bind ?_))
    exact Reader.Reads.map hpay _
  case rwrite => exact Reader.Reads.map (reads_u32 _) _
  case tread =>
    rw [List.append_assoc]
    exact (reads_u32 _).bind ((reads_u64 _).bind (Reader.Reads.map (reads_u32 _) _))
  case rread => exact (reads_u32 _).bind (Reader.Reads.map hpay _)
  case rstat =>
    have hn : m.count.toUInt16.toNat=m.count.toNat := by
      rw [UInt32.toNat_toUInt16,Nat.mod_eq_of_lt (hc rfl)]
    have hu : m.count.toUInt16.toUInt32=m.count :=
      UInt32.toNat_inj.mp (by rw [UInt16.toNat_toUInt32,hn])
    have := reads_rstat m.tag m.count.toUInt16 (hpayl.trans hn.symm)
    rwa [hu] at this
  case tstat | tclunk | tremove => exact Reader.Reads.map (reads_u32 _) _
  case tflush => exact Reader.Reads.map (reads_u16 _) _
  case rclunk | rremove | rflush | unknown => exact Reader.Reads.done _

theorem p9Frame_reads {m x : P9MsgT} {bs : Bytes} (h : m.type∈handledTypes)
    (hb : Reader.Reads (deserializeBody {type := m.type,tag := m.tag}) x bs) :
    Reader.Reads p9Frame x (headerBytes m++bs) := by
  rw [headerBytes,List.append_assoc]
  refine (reads_u8 m.type.code).bind ((reads_u16 m.tag).bind ?_)
  rwa [ofCode_code h]

theorem p9Deserialize_eq {x : P9MsgT} {bs : Bytes} (h : Reader.Reads p9Frame x bs) {mem : Memory}
    {buf : Nat} {len n : UInt32} (hm : mem.Upto (buf+len.toNat)) (hbuf : buf≠0)
    (hsize : 7≤n.toNat) (hlen : n.toNat≤len.toNat) (hbs : 4+bs.length≤n.toNat)
    (hs : Stands mem buf (le32 n++bs)) : p9Deserialize mem buf len=some x := by
  obtain ⟨h4,hbody⟩ := stands_append hs
  have hl : (le32 n).length=4 := rfl
  rw [hl] at hbody
  have h7 : ¬(buf=0 ∨ len<7) := not_or.mpr ⟨hbuf,fun hlt => by
    rw [UInt32.lt_iff_toNat_lt] at hlt
    change len.toNat<7 at hlt
    omega⟩
  have hok : ¬(n<7 ∨ len < n) := not_or.mpr ⟨fun hlt => by
    rw [UInt32.lt_iff_toNat_lt] at hlt
    change n.toNat<7 at hlt
    omega,fun hlt => by
    rw [UInt32.lt_iff_toNat_lt] at hlt
    omega⟩
  have hup : mem.Upto (buf+n.toNat) := hm.imp id fun h => by omega
  have hr := reads_u32 n mem ((buf+len.toNat)%mem.width) buf
    (by rw [hm.mod le_rfl]; exact hm) h4 (by rw [hm.mod le_rfl,hl]; omega)
  rw [p9Deserialize,if_neg h7,hr,hl]
  dsimp only
  rw [if_neg hok,hup.mod le_rfl,h mem _ _ hup hbody (by omega)]
  rfl

/-- What is asked of the two functions on one message and one buffer size. -/
def RoundTrips (iounit : UInt32) (m : P9MsgT) (bufSize : UInt32) : Prop :=
  let r := p9Serialize iounit m bufSize
  (r.1= -1 ↔ bufSize.toNat < (encoding iounit m).length) ∧
  (0 < r.1 → ∀ mem buf,∀ len : UInt32,Memory.Upto mem (buf+len.toNat) → buf≠0 →
    r.1≤len.toNat → Stands mem buf r.2 → p9Deserialize mem buf len=some (carried m))

/-- The encoding of a stat reply whose data are more than its count can say. -/
def OverlongStat (m : P9MsgT) : Prop := m.type=.rstat ∧ 65535 < m.count.toNat

theorem toInt_of_fits {n : Nat} (h : n<2^32) :
    n.toUInt32.toInt32.toInt=if n<2^31 then (n : Int) else n-2^32 := by
  rw [toInt32_toInt,toUInt32_toNat h]

/-- A memory that holds bs at address 1 and no other byte. -/
def holding (bs : Bytes) : Memory := ⟨0,fun p => bs.getD (p-1) 0⟩

theorem holding_stands (bs : Bytes) : Stands (holding bs) 1 bs := by
  refine List.ext_getElem (read_length _ _ _) fun i h _ => ?_
  simp only [read_length] at h
  simp [Memory.read,holding,h]

theorem rstat_read (iounit : UInt32) {m : P9MsgT} (h : m.Whole) (ht : m.type=.rstat)
    {mem : Memory} {buf : Nat} {len : UInt32} (hm : mem.Upto (buf+len.toNat)) (hbuf : buf≠0)
    (hlen : (encoding iounit m).length≤len.toNat) (hs : Stands mem buf (encoding iounit m)) :
    ∃x,p9Deserialize mem buf len=some x ∧ x.count=m.count.toUInt16.toUInt32 := by
  have hl := encoding_length iounit m
  have hpay := payloadBytes_length h
  have hle : m.count.toUInt16.toNat ≤ m.count.toNat := by
    rw [UInt32.toNat_toUInt16]
    exact Nat.mod_le _ _
  have hbody : bodyBytes iounit m=le16 m.count.toUInt16++payloadBytes m := by
    rw [bodyBytes,ht]
  have hbl : (bodyBytes iounit m).length=2+m.count.toNat := by
    rw [hbody,List.length_append,hpay]
    rfl
  have hd := reads_rstat m.tag m.count.toUInt16 (b := (payloadBytes m).take m.count.toUInt16.toNat)
    (by rw [List.length_take,hpay,Nat.min_eq_left hle])
  rw [← ht] at hd
  refine ⟨_,p9Deserialize_eq (n := (7+(bodyBytes iounit m).length).toUInt32)
    (p9Frame_reads h.handled hd) hm hbuf ?_ ?_ ?_ ?_,rfl⟩
  · rw [toUInt32_toNat (by have := len.toNat_lt; omega)]
    omega
  · rw [toUInt32_toNat (by have := len.toNat_lt; omega)]
    omega
  · rw [toUInt32_toNat (by have := len.toNat_lt; omega),hbl]
    simp only [headerBytes,le16,List.length_append,List.length_take,hpay,List.length_cons,
      List.length_nil]
    omega
  · have henc : encoding iounit m=(le32 (7+(bodyBytes iounit m).length).toUInt32++
        (headerBytes m++(le16 m.count.toUInt16++
          (payloadBytes m).take m.count.toUInt16.toNat)))++
        (payloadBytes m).drop m.count.toUInt16.toNat := by
      simp only [List.append_assoc,List.take_append_drop]
      rw [encoding,hbody]
    rw [henc] at hs
    exact (stands_append hs).1

theorem encoding_read (iounit : UInt32) {m : P9MsgT} (h : m.Whole) (ho : ¬OverlongStat m)
    {mem : Memory} {buf : Nat} {len : UInt32} (hm : mem.Upto (buf+len.toNat)) (hbuf : buf≠0)
    (hlen : (encoding iounit m).length≤len.toNat) (hs : Stands mem buf (encoding iounit m)) :
    p9Deserialize mem buf len=some (carried m) := by
  have hl := encoding_length iounit m
  have hlt := len.toNat_lt
  have hd := deserializeBody_reads iounit h fun ht => by
    have := not_and.mp ho ht
    omega
  have hsize := toUInt32_toNat (n := 7+(bodyBytes iounit m).length) (by omega)
  refine p9Deserialize_eq (n := (7+(bodyBytes iounit m).length).toUInt32)
    (p9Frame_reads h.handled hd) hm hbuf (by omega) (by omega) ?_ hs
  rw [hsize,List.length_append]
  change 4+(3+_)≤_
  omega

/-- A stat reply that is written with less than its count is read as another message. -/
theorem overlong_not_roundTrips (iounit : UInt32) {m : P9MsgT} {bufSize : UInt32} (h : m.Whole)
    (ho : OverlongStat m) (hle : (encoding iounit m).length≤bufSize.toNat)
    (hlt : (encoding iounit m).length<2^31) : ¬RoundTrips iounit m bufSize := by
  intro hround
  have hread := hround.2
  have hl := encoding_length iounit m
  rw [(p9Serialize_eq iounit h bufSize).2 hle] at hread
  dsimp only at hread
  rw [toInt_of_fits (by omega),if_pos hlt] at hread
  have hsize := toUInt32_toNat (n := (encoding iounit m).length) (by omega)
  have hup : (holding (encoding iounit m)).Upto
      (1+(encoding iounit m).length.toUInt32.toNat) := .inl rfl
  have hst := holding_stands (encoding iounit m)
  have hgot := hread (by omega) _ 1 (encoding iounit m).length.toUInt32 hup one_ne_zero
    (by omega) hst
  obtain ⟨x,hx,hcount⟩ := rstat_read iounit h ho.1 hup one_ne_zero (by omega) hst
  rw [hgot,Option.some.injEq] at hx
  have hc : (carried m).count=m.count := by
    rw [carried,ho.1]
  rw [← hx,hc] at hcount
  have := congrArg UInt32.toNat hcount
  rw [UInt16.toNat_toUInt32,UInt32.toNat_toUInt16] at this
  have := ho.2
  omega

theorem p9_round_trip (iounit : UInt32) (m : P9MsgT) (bufSize : UInt32) (h : m.Whole) :
    RoundTrips iounit m bufSize ↔
      ((encoding iounit m).length≤bufSize.toNat →
        ¬(OverlongStat m ∧ (encoding iounit m).length<2^31) ∧
        (encoding iounit m).length≠2^32-1) := by
  have hl := encoding_length iounit m
  have hb := bufSize.toNat_lt
  obtain ⟨hover,hfits⟩ := p9Serialize_eq iounit h bufSize
  by_cases hle : (encoding iounit m).length≤bufSize.toNat
  · refine ⟨fun hround _ => ⟨fun ⟨ho,hlt⟩ => ?_,fun heq => ?_⟩,fun hok => ?_⟩
    · exact overlong_not_roundTrips iounit h ho hle hlt hround
    · have hfail := hround.1
      rw [hfits hle] at hfail
      dsimp only at hfail
      rw [toInt_of_fits (by omega),if_neg (by omega)] at hfail
      have := hfail.mp (by omega)
      omega
    · obtain ⟨hno,hne⟩ := hok hle
      unfold RoundTrips
      dsimp only
      rw [hfits hle]
      dsimp only
      rw [toInt_of_fits (by omega)]
      refine ⟨⟨fun hm1 => ?_,fun hlt => by omega⟩,fun hpos mem buf len hm hbuf hlen hs => ?_⟩
      · split_ifs at hm1
        omega
      · by_cases hlt : (encoding iounit m).length<2^31
        · rw [if_pos hlt] at hlen
          exact encoding_read iounit h (fun ho => hno ⟨ho,hlt⟩) hm hbuf (by omega) hs
        · rw [if_neg hlt] at hpos
          omega
  · unfold RoundTrips
    dsimp only
    rw [hover (by omega)]
    refine ⟨fun _ hle' => absurd hle' hle,fun _ => ⟨⟨fun _ => by omega,fun _ => rfl⟩,fun hpos => ?_⟩⟩
    omega

/-- A version request goes through a buffer of 64 bytes and comes back. -/
theorem p9_round_trip_tversion :
    let m : P9MsgT := {type := .tversion,tag := 65535,msize := 8192,lp := true}
    m.Whole ∧ RoundTrips 8168 m 64 := by
  have h : P9MsgT.Whole {type := .tversion,tag := 65535,msize := 8192,lp := true} :=
    ⟨by decide,by decide,by decide,by decide⟩
  exact ⟨h,(p9_round_trip 8168 _ 64 h).mpr fun _ => ⟨fun hno => by simp [OverlongStat] at hno,
    by decide⟩⟩

/-- A stat reply of 65536 bytes is written with a count of 0. -/
def wideStat : P9MsgT where
  type := .rstat
  tag := 1
  count := 65536
  data := some (List.replicate 65536 0)

theorem wideStat_lost : wideStat.Whole ∧ ¬RoundTrips 8168 wideStat 65545 := by
  have h : wideStat.Whole := ⟨by decide,by decide,by decide,List.length_replicate⟩
  have hn : (encoding 8168 wideStat).length=65545 := by
    rw [encoding_length,show bodyBytes 8168 wideStat=le16 0++payloadBytes wideStat from rfl,
      List.length_append,payloadBytes_length h]
    rfl
  exact ⟨h,overlong_not_roundTrips 8168 h ⟨rfl,by decide⟩ (by rw [hn]; decide)
    (by rw [hn]; decide)⟩

end LugalOS.P9
