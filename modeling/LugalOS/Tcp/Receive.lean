import LugalOS.Lib.Serial
import LugalOS.Tcp.Table

namespace LugalOS.Tcp

open CString LittleEndian Buffer Run Serial

/-- The peer has sent its FIN in these states. -/
def TcpState.peerClosed (s : TcpState) : Prop :=
  s=.closeWait ∨ s=.lastAck ∨ s=.closing ∨ s=.timeWait

/-- The bytes received and not yet taken. -/
def held (b : Board) (c : Conn) : Bytes :=
  if c.isStream then circular b.maxMsize c.rx c.rxHead.toNat (c.rxLen-c.rxHead).toNat
  else memRead c.rx 0 c.rxLen.toNat

/-- A segment without RST that was cut from the peer's stream at o: a SYN, a segment without data
(any number: probes and acknowledgements), or a piece of the stream, with the FIN only at its end. -/
inductive CutAt (irs : UInt32) (stream : Bytes) (seg : Segment) (o : Nat) : Prop
  | syn : seg.flags.syn=true → seg.flags.fin=false → seg.data=[] → seg.seq=irs →
      CutAt irs stream seg o
  | bare : seg.flags.syn=false → seg.flags.fin=false → seg.data=[] → CutAt irs stream seg o
  | piece : seg.flags.syn=false → seg.seq=irs+1+o.toUInt32 →
      o+seg.data.length ≤ stream.length → seg.data=(stream.drop o).take seg.data.length →
      (seg.flags.fin=true → o+seg.data.length=stream.length) → CutAt irs stream seg o

/-- What is received is a prefix of the peer's stream, and rcv_nxt counts it; fin says that the
FIN was accepted. -/
structure Receiving (b : Board) (irs : UInt32) (stream taken : Bytes) (c : Conn) (fin : Bool) :
    Prop where
  bytes : taken++held b c<+:stream
  room : (held b c).length≤b.maxMsize
  head : c.isStream=true → c.rxHead=taken.length.toUInt32
  next : c.state≠.synSent → c.rcvNxt=irs+1+(taken++held b c).length.toUInt32+(if fin then 1 else 0)
  fresh : c.state=.synSent → taken++held b c=[] ∧ fin=false
  all : fin=true → taken++held b c=stream
  closed : c.state.peerClosed → fin=true

/-- The receive side is as it was. -/
structure RxKept (c c' : Conn) : Prop where
  rx : c'.rx=c.rx
  rxLen : c'.rxLen=c.rxLen
  rxHead : c'.rxHead=c.rxHead
  rcvNxt : c'.rcvNxt=c.rcvNxt
  isStream : c'.isStream=c.isStream
  closed : c'.state.peerClosed → c.state.peerClosed
  syn : c'.state=.synSent ↔ c.state=.synSent

theorem RxKept.refl (c : Conn) : RxKept c c := ⟨rfl,rfl,rfl,rfl,rfl,id,Iff.rfl⟩

theorem RxKept.trans {c d e : Conn} (h : RxKept c d) (h' : RxKept d e) : RxKept c e :=
  ⟨h'.rx.trans h.rx,h'.rxLen.trans h.rxLen,h'.rxHead.trans h.rxHead,h'.rcvNxt.trans h.rcvNxt,
    h'.isStream.trans h.isStream,fun hc => h.closed (h'.closed hc),h'.syn.trans h.syn⟩

theorem Quiet.rxKept {c c' : Conn} (h : Quiet c c') : RxKept c c' := by
  obtain ⟨_,_,_,_,_,_,rfl⟩ := h
  exact ⟨rfl,rfl,rfl,rfl,rfl,id,Iff.rfl⟩

theorem RxKept.finish {c c' : Conn} (h : RxKept c c') {s : TcpState} (hs : Closes c.state s) :
    RxKept c {c' with state := s} := by
  refine ⟨h.rx,h.rxLen,h.rxHead,h.rcvNxt,h.isStream,?_,?_⟩
  · rcases hs with ⟨_,rfl⟩ | ⟨hc,_⟩
    · rintro (h | h | h | h) <;> cases h
    · exact fun _ => .inl hc
  · rcases hs with ⟨hc,rfl⟩ | ⟨hc,rfl⟩ <;> rw [hc] <;> constructor <;> rintro ⟨⟩

section
variable {b : Board} {irs : UInt32} {stream taken : Bytes} {c c' : Conn} {fin : Bool}

theorem RxKept.held (h : RxKept c c') : held b c'=held b c := by
  unfold Tcp.held
  rw [h.rx,h.rxLen,h.rxHead,h.isStream]

theorem Receiving.of_kept (h : Receiving b irs stream taken c fin) (hk : RxKept c c') :
    Receiving b irs stream taken c' fin := by
  have hh := hk.held (b := b)
  refine ⟨?_,?_,?_,?_,?_,?_,?_⟩
  · rw [hh]
    exact h.bytes
  · rw [hh]
    exact h.room
  · rw [hk.isStream,hk.rxHead]
    exact h.head
  · rw [hh,hk.rcvNxt]
    exact fun hs => h.next fun hs' => hs (hk.syn.mpr hs')
  · rw [hh]
    exact fun hs => h.fresh (hk.syn.mp hs)
  · rw [hh]
    exact h.all
  · exact fun hc => h.closed (hk.closed hc)

theorem maxMsize_le (b : Board) : b.maxMsize≤4096 := by cases b <;> decide

theorem maxMsize_pos (b : Board) : 0<b.maxMsize := by cases b <;> decide

theorem maxMsize_dvd (b : Board) : b.maxMsize∣2^32 := by cases b <;> decide

theorem held_length : (held b c).length=
    if c.isStream then (c.rxLen-c.rxHead).toNat else c.rxLen.toNat := by
  unfold held
  split_ifs <;> simp

theorem rcvWindow_toNat (h : (held b c).length≤b.maxMsize) :
    (rcvWindow b c).toNat=b.maxMsize-(held b c).length := by
  have hm := maxMsize_le b
  have hl := held_length (b := b) (c := c)
  have hmod : b.maxMsize.toUInt32.toNat=b.maxMsize := by
    simp only [Nat.toUInt32,UInt32.toNat_ofNat']
    omega
  unfold rcvWindow
  split_ifs with hs
  · rw [if_pos hs] at hl
    rw [UInt32.toNat_sub_of_le _ _ (by rw [UInt32.le_iff_toNat_le,hmod]; omega),hmod,hl]
  · rw [if_neg hs] at hl
    rw [UInt32.toNat_sub_of_le _ _ (by rw [UInt32.le_iff_toNat_le,hmod]; omega),hmod,hl]

theorem Receiving.of_taken (h : Receiving b irs stream taken c fin) (c' : Conn) (k : Nat)
    (hh : held b c'=(held b c).drop k) (ht : c'.state=c.state)
    (hn : c'.rcvNxt=c.rcvNxt)
    (hhead : c'.isStream=true → c'.rxHead=(taken++(held b c).take k).length.toUInt32) :
    Receiving b irs stream (taken++(held b c).take k) c' fin := by
  have he : taken++(held b c).take k++held b c'=taken++held b c := by
    rw [hh,List.append_assoc,List.take_append_drop]
  refine ⟨?_,?_,hhead,?_,?_,?_,?_⟩
  · rw [he]
    exact h.bytes
  · rw [hh,List.length_drop]
    exact (Nat.sub_le _ _).trans h.room
  · rw [he,hn,ht]
    exact h.next
  · rw [he,ht]
    exact h.fresh
  · rw [he]
    exact h.all
  · rw [ht]
    exact h.closed

theorem linkRecv_taken (h : Receiving b irs stream taken c fin) (hs : c.isStream=false)
    (maxLen : UInt32) :
    Receiving b irs stream (taken++(linkRecvFrame maxLen c).1.getD []) (linkRecvFrame maxLen c).2
      fin := by
  unfold linkRecvFrame
  dsimp only
  split_ifs with h1 h2
  · rw [Option.getD_none,List.append_nil]
    exact h
  · rw [Option.getD_none,List.append_nil]
    exact h
  · generalize framedLen c=d at h2 ⊢
    have hle : d≤c.rxLen := by
      rw [not_or,not_or] at h2
      exact UInt32.not_lt.mp h2.2.2
    have hsub : (c.rxLen-d).toNat=c.rxLen.toNat-d.toNat := UInt32.toNat_sub_of_le _ _ hle
    have hlen : c.rxLen.toNat=d.toNat+(c.rxLen-d).toNat := by
      rw [UInt32.le_iff_toNat_le] at hle
      omega
    have hheld : held b c=memRead c.rx 0 d.toNat++memRead c.rx d.toNat (c.rxLen-d).toNat := by
      unfold held
      rw [if_neg (by rw [hs]; decide),hlen,memRead_add,Nat.zero_add]
    have htake : (held b c).take d.toNat=memRead c.rx 0 d.toNat := by
      rw [hheld]
      exact List.take_left' (memRead_length _ _ _)
    have hr := h.of_taken {c with
      rx := memShift c.rx d.toNat (c.rxLen-d).toNat, rxLen := c.rxLen-d, needAck := true}
      d.toNat ?_ rfl rfl ?_
    · rw [htake] at hr
      exact hr
    · rw [hheld,List.drop_left' (memRead_length _ _ _)]
      unfold held
      rw [if_neg (by simp [hs])]
      exact memRead_memShift _ _ _
    · intro ht
      rw [show c.isStream=true from ht] at hs
      cases hs

theorem streamRead_taken (h : Receiving b irs stream taken c fin) (hs : c.isStream=true)
    (max : UInt32) :
    Receiving b irs stream (taken++(tcpStreamRead b max c).1) (tcpStreamRead b max c).2 fin := by
  unfold tcpStreamRead
  dsimp only
  by_cases h0 : c.rxLen-c.rxHead=0
  · rw [if_pos h0,List.append_nil]
    exact h
  · rw [if_neg h0]
    generalize hn : (if c.rxLen-c.rxHead < max then (c.rxLen-c.rxHead).toNat else max.toNat)=n
    have hle : n≤(c.rxLen-c.rxHead).toNat := by
      rw [← hn]
      split_ifs with hm
      · exact le_rfl
      · exact UInt32.le_iff_toNat_le.mp (UInt32.not_lt.mp hm)
    have hl := held_length (b := b) (c := c)
    rw [if_pos hs] at hl
    have hroom := h.room
    have hm := maxMsize_le b
    have hmod : n.toUInt32.toNat=n := by
      simp only [Nat.toUInt32,UInt32.toNat_ofNat']
      omega
    have hheld : held b c=circular b.maxMsize c.rx c.rxHead.toNat (c.rxLen-c.rxHead).toNat := by
      unfold held
      rw [if_pos hs]
    rw [circular_read (maxMsize_pos b) (by omega),← circular_take _ _ _ _ _ hle,← hheld]
    refine h.of_taken {c with rxHead := c.rxHead+n.toUInt32, needAck := true} n ?_ rfl rfl
      fun _ => ?_
    · rw [hheld,circular_drop _ _ _ _ _ hle]
      have hd : c.rxLen-(c.rxHead+n.toUInt32)=c.rxLen-c.rxHead-n.toUInt32 := by
        grind
      have hdn : (c.rxLen-c.rxHead-n.toUInt32).toNat=(c.rxLen-c.rxHead).toNat-n := by
        rw [UInt32.toNat_sub_of_le _ _ (by rw [UInt32.le_iff_toNat_le,hmod]; exact hle),hmod]
      unfold held
      rw [if_pos (show c.isStream=true from hs)]
      dsimp only
      rw [hd,hdn,UInt32.toNat_add,hmod,circular_mod (maxMsize_dvd b)]
    · rw [List.length_append,List.length_take,hl,Nat.min_eq_left hle,toUInt32_add,← h.head hs]

theorem held_accept (data : Bytes)
    (hd : (held b c).length+data.length≤b.maxMsize) :
    held b (accept b data c)=held b c++data := by
  have hm := maxMsize_le b
  have hl := held_length (b := b) (c := c)
  have hmod : data.length.toUInt32.toNat=data.length := by
    simp only [Nat.toUInt32,UInt32.toNat_ofNat']
    omega
  unfold accept
  by_cases hs : c.isStream=true
  · rw [if_pos hs] at hl ⊢
    have hrx : c.rxLen.toNat=(c.rxHead.toNat+(c.rxLen-c.rxHead).toNat)%2^32 := by
      rw [← UInt32.toNat_add,show c.rxHead+(c.rxLen-c.rxHead)=c.rxLen by grind]
    have hlen : (c.rxLen+data.length.toUInt32-c.rxHead).toNat=
        (c.rxLen-c.rxHead).toNat+data.length := by
      rw [show c.rxLen+data.length.toUInt32-c.rxHead=c.rxLen-c.rxHead+data.length.toUInt32 by grind,
        UInt32.toNat_add,hmod]
      omega
    unfold held
    rw [if_pos hs,if_pos (show c.isStream=true from hs)]
    dsimp only
    rw [hlen]
    change circular b.maxMsize (circularWrite b.maxMsize c.rx c.rxLen.toNat data) _ _=_
    rw [hrx,circularWrite_mod (maxMsize_dvd b)]
    exact circular_write (by omega)
  · rw [if_neg hs] at hl ⊢
    unfold held
    rw [if_neg hs,if_neg (show ¬c.isStream=true from hs)]
    dsimp only
    rw [UInt32.toNat_add,hmod,Nat.mod_eq_of_lt (by omega)]
    exact memRead_patch_end _ _ _

theorem Receiving.not_fin (h : Receiving b irs stream taken c fin) (hs : c.state≠.synSent)
    {n : UInt32} (hn : n=c.rcvNxt) (hp : n=irs+1+(taken++held b c).length.toUInt32) : fin=false := by
  cases fin with
  | false => rfl
  | true =>
    have he := h.next hs
    rw [← hn,hp,if_pos rfl] at he
    exact absurd he (by grind)

theorem Receiving.of_data (h : Receiving b irs stream taken c false) (hs : c.state≠.synSent)
    {data : Bytes} (hd : data.length≤(rcvWindow b c).toNat)
    (hcut : data=(stream.drop (taken++held b c).length).take data.length) :
    Receiving b irs stream taken (accept b data c) false ∧
      taken++held b (accept b data c)=taken++held b c++data ∧
      (accept b data c).rcvNxt=c.rcvNxt+data.length.toUInt32 ∧
      (accept b data c).state=c.state := by
  rw [rcvWindow_toNat h.room] at hd
  have hroom := h.room
  have hheld := held_accept (b := b) (c := c) data (by omega)
  have heq : taken++held b (accept b data c)=taken++held b c++data := by
    rw [hheld,List.append_assoc]
  have hstate : (accept b data c).state=c.state := by unfold accept; split_ifs <;> rfl
  have hnext : (accept b data c).rcvNxt=c.rcvNxt+data.length.toUInt32 := by
    unfold accept
    split_ifs <;> rfl
  have hhead : (accept b data c).rxHead=c.rxHead := by unfold accept; split_ifs <;> rfl
  have hstream : (accept b data c).isStream=c.isStream := by unfold accept; split_ifs <;> rfl
  refine ⟨⟨?_,?_,?_,?_,?_,fun hf => (by cases hf),?_⟩,heq,hnext,hstate⟩
  · rw [heq,hcut,List.prefix_iff_eq_take.mp h.bytes]
    simp only [List.length_take]
    rw [Nat.min_eq_left h.bytes.length_le,← List.take_add]
    exact List.take_prefix _ _
  · rw [hheld,List.length_append]
    omega
  · rw [hstream,hhead]
    exact h.head
  · intro _
    have hl : (taken++held b c++data).length=(taken++held b c).length+data.length :=
      List.length_append
    rw [heq,hnext,h.next hs,hl,toUInt32_add]
    simp only [Bool.false_eq_true,if_false]
    grind
  · rw [hstate]
    exact fun he => absurd he hs
  · rw [hstate]
    exact h.closed

theorem Receiving.of_takeData (h : Receiving b irs stream taken c false) (hs : c.state≠.synSent)
    {data : Bytes} (hd : data.length≤(rcvWindow b c).toNat)
    (hcut : data=(stream.drop (taken++held b c).length).take data.length) :
    Receiving b irs stream taken (takeData b data c) false ∧
      taken++held b (takeData b data c)=taken++held b c++data ∧
      (takeData b data c).rcvNxt=c.rcvNxt+data.length.toUInt32 ∧
      (takeData b data c).state=c.state := by
  have hack (c : Conn) : RxKept c {c with needAck := true} := ⟨rfl,rfl,rfl,rfl,rfl,id,Iff.rfl⟩
  unfold takeData
  dsimp only
  by_cases hnil : data=[]
  · rw [if_pos hnil,hnil,List.append_nil]
    exact ⟨h.of_kept (hack c),by rw [(hack c).held],by simp [Nat.toUInt32],rfl⟩
  · rw [if_neg hnil]
    obtain ⟨h1,hall,hnext,hstate⟩ := h.of_data hs hd hcut
    exact ⟨h1.of_kept (hack _),by rw [(hack _).held,hall],hnext,hstate⟩

theorem Receiving.of_fin (h : Receiving b irs stream taken c false) (hs : c.state≠.synSent)
    (hall : taken++held b c=stream) (hh : held b c'=held b c) (hn : c'.rcvNxt=c.rcvNxt+1)
    (hhead : c'.isStream=c.isStream ∧ c'.rxHead=c.rxHead) (hs' : c'.state≠.synSent) :
    Receiving b irs stream taken c' true := by
  refine ⟨?_,?_,?_,?_,fun he => absurd he hs',?_,fun _ => rfl⟩
  · rw [hh]
    exact h.bytes
  · rw [hh]
    exact h.room
  · rw [hhead.1,hhead.2]
    exact h.head
  · intro _
    rw [hh,hn,h.next hs]
    simp only [Bool.false_eq_true,if_false,if_true]
    grind
  · rw [hh]
    exact fun _ => hall

theorem inputFin_receiving (h : Receiving b irs stream taken c fin) (hs : c.state≠.synSent)
    (now : Nat) (seg : Segment) (dataLen : UInt32) (out : List Emitted)
    (hf : seg.flags.fin=true → seg.seq+dataLen=c.rcvNxt → fin=false ∧ taken++held b c=stream) :
    ∃fin',Receiving b irs stream taken (inputFin now seg dataLen ⟨c,out⟩).conn fin' := by
  unfold inputFin
  dsimp only
  by_cases hc : seg.flags.fin=true ∧ seg.seq+dataLen=c.rcvNxt
  · obtain ⟨rfl,hall⟩ := hf hc.1 hc.2
    rw [if_pos hc]
    refine ⟨true,?_⟩
    split
    · exact h.of_fin hs hall rfl rfl ⟨rfl,rfl⟩ (by rintro ⟨⟩)
    · exact h.of_fin hs hall rfl rfl ⟨rfl,rfl⟩ (by rintro ⟨⟩)
    · exact h.of_fin hs hall rfl rfl ⟨rfl,rfl⟩ (by rintro ⟨⟩)
    · exact h.of_fin hs hall rfl rfl ⟨rfl,rfl⟩ hs
  · rw [if_neg hc]
    exact ⟨fin,h⟩

end

/-- The segment was cut from the stream; a piece that carries rcv_nxt's number was cut at the first
byte not yet received, and if it carries the FIN too its data fits into the window. -/
def Cut (b : Board) (irs : UInt32) (stream taken : Bytes) (c : Conn) (seg : Segment) : Prop :=
  seg.flags.rst=true ∨ ∃o,CutAt irs stream seg o ∧
    (c.state≠.synSent → seg.seq=c.rcvNxt → seg.data≠[] ∨ seg.flags.fin=true →
      o=(taken++held b c).length ∧ (seg.flags.fin=true → seg.data.length≤(rcvWindow b c).toNat))

section
variable {b : Board} {irs : UInt32} {stream taken : Bytes} {c : Conn} {fin : Bool}

theorem inputTail_receiving (h : Receiving b irs stream taken c fin) (hs : c.state≠.synSent)
    (now : Nat) {seg : Segment} (hr : seg.flags.rst=false) (hcut : Cut b irs stream taken c seg)
    (out : List Emitted) :
    ∃fin',Receiving b irs stream taken (inputTail b now seg ⟨c,out⟩).conn fin' := by
  obtain ⟨o,ho,hpos⟩ := hcut.resolve_left (by rw [hr]; decide)
  unfold inputTail inputData
  dsimp only
  split_ifs with hprobe hnil hseq
  · exact ⟨fin,h.of_kept (quiet_emit (b := b) {ack := true} c.sndNxt [] false ⟨c,out⟩).rxKept⟩
  · -- no data: only a FIN matters
    obtain ⟨fin',h'⟩ := inputFin_receiving h hs now seg 0 out fun hf he => by
      have he : seg.seq=c.rcvNxt := by rw [← he]; grind
      obtain ⟨hn,_⟩ := hpos hs he (.inr hf)
      cases ho with
      | syn _ hno | bare _ hno => rw [hf] at hno; cases hno
      | piece _ hsq _ _ hend =>
        have hend := hend hf
        rw [hnil,List.length_nil] at hend
        rw [hn] at hsq hend
        exact ⟨h.not_fin hs he hsq,h.bytes.eq_of_length hend⟩
    exact ⟨fin',h'.of_kept (quiet_transmit _ _).rxKept⟩
  · exact ⟨fin,h.of_kept (quiet_emit (b := b) {ack := true} c.sndNxt [] false ⟨c,out⟩).rxKept⟩
  · have he : seg.seq=c.rcvNxt := not_not.mp hseq
    obtain ⟨hn,hfit⟩ := hpos hs he (.inl hnil)
    cases ho with
    | syn _ _ hno | bare _ _ hno => exact absurd hno hnil
    | piece _ hsq hle hdata hend =>
      rw [hn] at hsq hdata hend hle
      obtain rfl := h.not_fin hs he hsq
      generalize hw : (rcvWindow b c).toNat=w at hfit
      have hlen : (seg.data.take w).length≤w := by
        rw [List.length_take]
        exact Nat.min_le_left _ _
      have hcut' : seg.data.take w=
          (stream.drop (taken++held b c).length).take (seg.data.take w).length := by
        rw [List.length_take]
        calc seg.data.take w
            =((stream.drop (taken++held b c).length).take seg.data.length).take w :=
              congrArg (List.take w) hdata
          _=(stream.drop (taken++held b c).length).take (min w seg.data.length) := List.take_take
      obtain ⟨h1,hall,hnext,hstate⟩ := h.of_takeData hs (by rw [hw]; exact hlen) hcut'
      obtain ⟨fin',h'⟩ := inputFin_receiving h1 (by rw [hstate]; exact hs) now seg
        (seg.data.take w).length.toUInt32 out fun hf _ => by
          refine ⟨rfl,?_⟩
          have hwhole : seg.data.take w=seg.data := List.take_of_length_le (hfit hf)
          refine h1.bytes.eq_of_length ?_
          rw [hall,hwhole,List.length_append]
          exact hend hf
      exact ⟨fin',h'.of_kept (quiet_transmit _ _).rxKept⟩

theorem dropAcked_rxKept (ack : UInt32) (c : Conn) : RxKept c (dropAcked ack c) := by
  unfold dropAcked
  dsimp only
  split_ifs <;> exact ⟨rfl,rfl,rfl,rfl,rfl,id,Iff.rfl⟩

theorem inputAck_rxKept (now : Nat) (seg : Segment) (io : Io) :
    (∃io',inputAck b now seg io=.error io' ∧ RxKept io.conn io'.conn) ∨
    ∃io',inputAck b now seg io=.ok io' ∧ RxKept io.conn io'.conn := by
  unfold inputAck
  dsimp only
  split_ifs
  · exact .inr ⟨_,rfl,RxKept.refl _⟩
  · exact .inl ⟨_,rfl,(quiet_emit _ _ _ _ _).rxKept⟩
  · refine .inr ⟨_,rfl,RxKept.trans (d := {io.conn with sndUna := seg.ack, retries := 0}) ?_
      ((dropAcked_rxKept seg.ack _).trans ?_)⟩ <;> exact ⟨rfl,rfl,rfl,rfl,rfl,id,Iff.rfl⟩
  · refine .inr ⟨_,rfl,RxKept.trans (d := {io.conn with sndUna := seg.ack, retries := 0}) ?_
      ((dropAcked_rxKept seg.ack _).trans ?_)⟩ <;> exact ⟨rfl,rfl,rfl,rfl,rfl,id,Iff.rfl⟩
  · exact .inr ⟨_,rfl,RxKept.refl _⟩

theorem inputState_rxKept (now : Nat) (seg : Segment) (io : Io) :
    (∃io',inputState now seg io=.error io' ∧ (io'.conn.inUse=true → RxKept io.conn io'.conn)) ∨
    ∃io',inputState now seg io=.ok io' ∧ RxKept io.conn io'.conn := by
  unfold inputState
  dsimp only
  split
  · next hs =>
    split_ifs
    · exact .inl ⟨_,rfl,fun _ => RxKept.refl _⟩
    · exact .inl ⟨_,rfl,fun _ => RxKept.refl _⟩
    · refine .inr ⟨_,rfl,rfl,rfl,rfl,rfl,rfl,?_,?_⟩
      · rintro (h | h | h | h) <;> cases h
      · rw [hs]
        constructor <;> rintro ⟨⟩
  · next hs =>
    refine .inr ⟨_,rfl,?_⟩
    split_ifs
    · refine ⟨rfl,rfl,rfl,rfl,rfl,?_,?_⟩
      · rintro (h | h | h | h) <;> cases h
      · rw [hs]
        constructor <;> rintro ⟨⟩
    · exact RxKept.refl _
  · split_ifs
    · exact .inl ⟨_,rfl,fun h => by cases h⟩
    · exact .inr ⟨_,rfl,RxKept.refl _⟩
  · next hs =>
    refine .inr ⟨_,rfl,?_⟩
    split_ifs
    · refine ⟨rfl,rfl,rfl,rfl,rfl,fun _ => .inr (.inr (.inl hs)),?_⟩
      rw [hs]
      constructor <;> rintro ⟨⟩
    · exact RxKept.refl _
  · exact .inr ⟨_,rfl,RxKept.refl _⟩

theorem inputSynSent_receiving (h : Receiving b irs stream taken c fin) (hs : c.state=.synSent)
    {seg : Segment} (hcut : ∃o,CutAt irs stream seg o) (out : List Emitted)
    (hu : (inputSynSent b seg ⟨c,out⟩).conn.inUse=true) :
    ∃fin',Receiving b irs stream taken (inputSynSent b seg ⟨c,out⟩).conn fin' := by
  unfold inputSynSent at hu ⊢
  dsimp only at hu ⊢
  split_ifs at hu ⊢ with hsyn hack hno
  · exact ⟨fin,h⟩
  · exact ⟨fin,h⟩
  · cases hu
  · have hseq : seg.seq=irs := by
      obtain ⟨o,ho⟩ := hcut
      cases ho with
      | syn _ _ _ hseq => exact hseq
      | bare hno | piece hno => rw [hno] at hsyn; exact absurd rfl hsyn
    obtain ⟨hempty,rfl⟩ := h.fresh hs
    refine ⟨false,h.bytes,h.room,h.head,fun _ => ?_,fun he => (by cases he),
      fun hf => (by cases hf),?_⟩
    · change seg.seq+1=irs+1+(taken++held b c).length.toUInt32+0
      rw [hempty,hseq]
      simp [Nat.toUInt32]
    · rintro (h | h | h | h) <;> cases h

theorem tcpInput_receiving (h : Receiving b irs stream taken c fin) (now : Nat) {seg : Segment}
    (hcut : Cut b irs stream taken c seg) (out : List Emitted)
    (hu : (tcpInput b now seg ⟨c,out⟩).conn.inUse=true) :
    ∃fin',Receiving b irs stream taken (tcpInput b now seg ⟨c,out⟩).conn fin' := by
  have hk0 : RxKept c {c with lastRxMs := now, kaProbes := 0} := ⟨rfl,rfl,rfl,rfl,rfl,id,Iff.rfl⟩
  have h0 := h.of_kept hk0
  unfold tcpInput at hu ⊢
  dsimp only at hu ⊢
  by_cases hr : seg.flags.rst=true
  · rw [if_pos hr] at hu ⊢
    split_ifs at hu ⊢
    · cases hu
    · exact ⟨fin,h0⟩
  · rw [if_neg hr] at hu ⊢
    obtain ⟨o,ho,hpos⟩ := hcut.resolve_left hr
    by_cases hs : c.state=.synSent
    · rw [if_pos hs] at hu ⊢
      exact inputSynSent_receiving h0 hs ⟨o,ho⟩ out hu
    · rw [if_neg hs] at hu ⊢
      rcases inputAck_rxKept (b := b) now seg ⟨{c with lastRxMs := now, kaProbes := 0},out⟩ with
        ⟨io1,he,hk1⟩ | ⟨io1,he,hk1⟩
      · rw [he]
        exact ⟨fin,h0.of_kept hk1⟩
      · rw [he] at hu ⊢
        dsimp only at hu ⊢
        have hk2 : RxKept io1.conn {io1.conn with sndWnd := seg.wnd} :=
          ⟨rfl,rfl,rfl,rfl,rfl,id,Iff.rfl⟩
        rcases inputState_rxKept now seg ⟨{io1.conn with sndWnd := seg.wnd},io1.out⟩ with
          ⟨io2,he2,hk3⟩ | ⟨io2,he2,hk3⟩
        · rw [he2] at hu ⊢
          exact ⟨fin,((h0.of_kept hk1).of_kept hk2).of_kept (hk3 hu)⟩
        · rw [he2]
          have hk : RxKept c io2.conn := ((hk0.trans hk1).trans hk2).trans hk3
          have hcut2 : Cut b irs stream taken io2.conn seg := by
            refine .inr ⟨o,ho,fun _ hseq hd => ?_⟩
            rw [hk.held]
            obtain ⟨h1,h2⟩ := hpos hs (hseq.trans hk.rcvNxt) hd
            refine ⟨h1,fun hf => ?_⟩
            rw [rcvWindow_toNat (by rw [hk.held]; exact h.room),hk.held,
              ← rcvWindow_toNat h.room]
            exact h2 hf
          exact inputTail_receiving (h.of_kept hk) (fun he => hs (hk.syn.mp he)) now
            (by simpa using hr) hcut2 io2.out

theorem tcpClose_rxKept (now : Nat) (io : Io) (hu : (tcpClose b now io).conn.inUse=true) :
    RxKept io.conn (tcpClose b now io).conn := by
  unfold tcpClose at hu ⊢
  split_ifs at hu ⊢ with h0 h1 h2
  · exact RxKept.refl _
  · exact (quiet_sendFin now io).rxKept.finish (.inl ⟨h1,rfl⟩)
  · exact (quiet_sendFin now io).rxKept.finish (.inr ⟨h2,rfl⟩)
  · cases hu

theorem tcpStreamClose_rxKept (now : Nat) (io : Io)
    (hu : (tcpStreamClose b now io).conn.inUse=true) :
    RxKept io.conn (tcpStreamClose b now io).conn := by
  unfold tcpStreamClose at hu ⊢
  dsimp only at hu ⊢
  split_ifs at hu ⊢ with h0 h1 h2
  · exact ⟨rfl,rfl,rfl,rfl,rfl,id,Iff.rfl⟩
  · exact (quiet_sendFin now io).rxKept.finish (.inl ⟨h1,rfl⟩)
  · exact (quiet_sendFin now io).rxKept.finish (.inr ⟨h2,rfl⟩)
  · cases hu

theorem serviceTimers_rxKept (now : Nat) (io : Io)
    (hu : (serviceTimers b now io).1.conn.inUse=true) :
    RxKept io.conn (serviceTimers b now io).1.conn := by
  have hrto (io : Io) (hu : (serviceRto b now io).1.conn.inUse=true) :
      RxKept io.conn (serviceRto b now io).1.conn := by
    unfold serviceRto at hu ⊢
    split_ifs at hu ⊢
    · exact RxKept.refl _
    · cases hu
    · exact (quiet_retransmit now io).rxKept
  unfold serviceTimers serviceKeepalive at hu ⊢
  dsimp only at hu ⊢
  split_ifs at hu ⊢
  · cases hu
  · exact RxKept.refl _
  · exact hrto io hu
  · cases hu
  · refine RxKept.trans ?_ (hrto _ hu)
    exact ⟨rfl,rfl,rfl,rfl,rfl,id,Iff.rfl⟩

theorem serviceP9_rxKept (io : Io) (hu : (serviceP9 b io).1.conn.inUse=true) :
    RxKept io.conn (serviceP9 b io).1.conn := by
  unfold serviceP9 at hu ⊢
  split_ifs at hu ⊢
  · cases hu
  · exact RxKept.refl _

theorem serviceTail_rxKept (now : Nat) (io : Io) : RxKept io.conn (serviceTail b now io).conn := by
  have hclose : RxKept io.conn (serviceClose b now io).conn := by
    unfold serviceClose
    dsimp only
    split_ifs with h0 h1 h2
    · refine RxKept.trans (d := {io.conn with closePending := false}) ?_
        ((quiet_sendFin now ⟨{io.conn with closePending := false},io.out⟩).rxKept.finish
          (.inl ⟨h1,rfl⟩))
      exact ⟨rfl,rfl,rfl,rfl,rfl,id,Iff.rfl⟩
    · refine RxKept.trans (d := {io.conn with closePending := false}) ?_
        ((quiet_sendFin now ⟨{io.conn with closePending := false},io.out⟩).rxKept.finish
          (.inr ⟨h2,rfl⟩))
      exact ⟨rfl,rfl,rfl,rfl,rfl,id,Iff.rfl⟩
    · exact ⟨rfl,rfl,rfl,rfl,rfl,id,Iff.rfl⟩
    · exact RxKept.refl _
  have hhalf (io : Io) : RxKept io.conn (serviceHalfClosed b now io).conn := by
    unfold serviceHalfClosed
    dsimp only
    split_ifs with h
    · exact (quiet_sendFin now io).rxKept.finish (.inr ⟨h.1,rfl⟩)
    · exact RxKept.refl _
  exact (hclose.trans (hhalf _)).trans (quiet_transmit now _).rxKept

theorem sendReply_rxKept (now : Nat) (reply : Bytes) (io : Io) :
    RxKept io.conn (sendReply b now reply io).conn := by
  unfold sendReply
  split_ifs
  · have hk : RxKept io.conn
        {io.conn with txSeq := io.conn.sndNxt, txLen := reply.length.toUInt32} :=
      ⟨rfl,rfl,rfl,rfl,rfl,id,Iff.rfl⟩
    exact hk.trans (quiet_transmit now ⟨_,io.out⟩).rxKept
  · exact RxKept.refl _

theorem serviceSpartan_taken (h : Receiving b irs stream taken c fin) (hs : c.serves=true)
    (now : Nat) {consumed : UInt32} (hc : consumed≤c.rxLen) (reply : Bytes) (closeAfter : Bool)
    (out : List Emitted) : Receiving b irs stream (taken++memRead c.rx 0 consumed.toNat)
      (serviceSpartan b now consumed reply closeAfter ⟨c,out⟩).conn fin := by
  have hstream : c.isStream=false := by
    simp only [Conn.serves,decide_eq_true_eq] at hs
    simpa using hs.2.2.2
  have hsub : (c.rxLen-consumed).toNat=c.rxLen.toNat-consumed.toNat :=
    UInt32.toNat_sub_of_le _ _ hc
  have hlen : c.rxLen.toNat=consumed.toNat+(c.rxLen-consumed).toNat := by
    rw [UInt32.le_iff_toNat_le] at hc
    omega
  have hheld : held b c=memRead c.rx 0 consumed.toNat++
      memRead c.rx consumed.toNat (c.rxLen-consumed).toNat := by
    unfold held
    rw [if_neg (by rw [hstream]; decide),hlen,memRead_add,Nat.zero_add]
  have htake : (held b c).take consumed.toNat=memRead c.rx 0 consumed.toNat := by
    rw [hheld]
    exact List.take_left' (memRead_length _ _ _)
  have htook : Receiving b irs stream (taken++memRead c.rx 0 consumed.toNat)
      (takeRequest consumed c) fin := by
    rw [← htake]
    unfold takeRequest
    split_ifs with hpos
    · refine h.of_taken _ consumed.toNat ?_ rfl rfl fun ht => ?_
      · rw [hheld,List.drop_left' (memRead_length _ _ _)]
        unfold held
        rw [if_neg (by simp [hstream])]
        exact memRead_memShift _ _ _
      · rw [show c.isStream=true from ht] at hstream
        cases hstream
    · have hzero : consumed.toNat=0 := by
        by_contra hne
        refine hpos ⟨?_,hc⟩
        rw [UInt32.lt_iff_toNat_lt]
        exact Nat.pos_of_ne_zero hne
      rw [hzero,List.take_zero,List.append_nil]
      exact h
  refine htook.of_kept (RxKept.trans (d := takeRequest consumed {c with tx := patch c.tx 0 reply})
    ?_ ?_)
  · unfold takeRequest
    dsimp only
    split_ifs <;> exact ⟨rfl,rfl,rfl,rfl,rfl,id,Iff.rfl⟩
  · have hsend := sendReply_rxKept (b := b) now reply
      ⟨takeRequest consumed {c with tx := patch c.tx 0 reply},out⟩
    unfold serviceSpartan
    dsimp only
    split_ifs
    · exact hsend.trans ⟨rfl,rfl,rfl,rfl,rfl,id,Iff.rfl⟩
    · exact hsend

theorem call_receiving {l : Life} (h : Receiving b irs stream l.taken l.io.conn fin) {k : Call}
    (hl : k.Legal b l.io.conn)
    (hcut : ∀now seg,k=.input now seg → Cut b irs stream l.taken l.io.conn seg)
    (hu : (l.call b k).io.conn.inUse=true) :
    ∃fin',Receiving b irs stream (l.call b k).taken (l.call b k).io.conn fin' := by
  cases k with
  | input now seg => exact tcpInput_receiving h now (hcut now seg rfl) l.io.out hu
  | linkRecv maxLen => exact ⟨fin,linkRecv_taken h hl.2 maxLen⟩
  | linkSend buf =>
    refine ⟨fin,h.of_kept ?_⟩
    change RxKept l.io.conn (linkSendFrame b buf l.io.conn).2
    unfold linkSendFrame
    split_ifs <;> exact ⟨rfl,rfl,rfl,rfl,rfl,id,Iff.rfl⟩
  | linkClose now => exact ⟨fin,h.of_kept (tcpClose_rxKept now l.io hu)⟩
  | session prot => exact ⟨fin,h.of_kept ⟨rfl,rfl,rfl,rfl,rfl,id,Iff.rfl⟩⟩
  | streamRead max => exact ⟨fin,streamRead_taken h hl.2 max⟩
  | streamWrite buf =>
    refine ⟨fin,h.of_kept ?_⟩
    change RxKept l.io.conn (tcpStreamWrite b buf l.io.conn).2
    unfold tcpStreamWrite
    split_ifs <;> exact ⟨rfl,rfl,rfl,rfl,rfl,id,Iff.rfl⟩
  | streamClose now => exact ⟨fin,h.of_kept (tcpStreamClose_rxKept now l.io hu)⟩
  | accepted => exact ⟨fin,h.of_kept ⟨rfl,rfl,rfl,rfl,rfl,id,Iff.rfl⟩⟩
  | timers now => exact ⟨fin,h.of_kept (serviceTimers_rxKept now l.io hu)⟩
  | servedP9 => exact ⟨fin,h.of_kept (serviceP9_rxKept l.io hu)⟩
  | spartan now consumed reply closeAfter =>
    exact ⟨fin,serviceSpartan_taken h hl.2.1 now hl.2.2.1 reply closeAfter l.io.out⟩
  | tail now => exact ⟨fin,h.of_kept (serviceTail_rxKept now l.io)⟩

end

/-- The number the peer's SYN gave its stream; a dialled connection learns it from the SYN-ACK. -/
def BornFrom (b : Board) (irs : UInt32) (l : Life) : Prop :=
  Born b l ∧ (l.io.conn.state≠.synSent → l.io.conn.rcvNxt=irs+1)

theorem born_receiving {b : Board} {irs : UInt32} (stream : Bytes) {l : Life}
    (h : BornFrom b irs l) : Receiving b irs stream l.taken l.io.conn false := by
  obtain ⟨hb,hn⟩ := h
  have hempty : l.taken=[] ∧ held b l.io.conn=[] ∧ l.io.conn.rxHead=0 ∧
      (l.io.conn.state=.synSent ∨ l.io.conn.state=.synReceived) := by
    cases hb with
    | accepted now c peerIp sport dport seg iss stream =>
      exact ⟨rfl,by cases stream <;> simp [held,circular,connStartSyn,tcpEmit,synConn],
        by cases stream <;> rfl,.inr (by cases stream <;> rfl)⟩
    | dialled now c peerIp port localPort iss stream =>
      exact ⟨rfl,by cases stream <;> simp [held,circular,connStartSyn,tcpEmit,dialConn],
        by cases stream <;> rfl,.inl (by cases stream <;> rfl)⟩
  obtain ⟨ht,hh,hz,hs⟩ := hempty
  have hall : l.taken++held b l.io.conn=[] := by rw [ht,hh]; rfl
  refine ⟨?_,?_,?_,?_,fun _ => ⟨hall,rfl⟩,fun hf => (by cases hf),?_⟩
  · rw [hall]
    exact List.nil_prefix
  · rw [hh]
    exact Nat.zero_le _
  · rw [hz,ht]
    exact fun _ => rfl
  · rw [hall]
    intro hne
    rw [hn hne]
    simp [Nat.toUInt32]
  · rintro (h | h | h | h) <;> rw [h] at hs <;> rcases hs with hs | hs <;> cases hs

/-- The calls of a run whose segments are all cut from the peer's stream. -/
def FromStream (b : Board) (irs : UInt32) (stream : Bytes) (l : Life) (k : Call) : Prop :=
  ∀now seg,k=.input now seg → Cut b irs stream l.taken l.io.conn seg

theorem receiving_reach {b : Board} {irs : UInt32} {stream : Bytes} {l0 l : Life} {h : List Call}
    (hb : BornFrom b irs l0) (hr : Reach (LifeStep b (FromStream b irs stream)) l0 h l) :
    l.io.conn.inUse=true → ∃fin,Receiving b irs stream l.taken l.io.conn fin := by
  refine Reach.invariant
    (fun _ l => l.io.conn.inUse=true → ∃fin,Receiving b irs stream l.taken l.io.conn fin)
    (fun _ => ⟨false,born_receiving stream hb⟩) ?_ hr
  intro h l k l' hi hs hu
  obtain ⟨hl,hok⟩ := hs.legal
  have hlive := hl.inUse
  obtain ⟨fin,hf⟩ := hi hlive
  exact hs.result ▸ call_receiving hf hl hok (hs.result ▸ hu)

/-- What the application took and what is held make up a prefix of the peer's stream, at most a
whole buffer of it is held, rcv_nxt counts it, and the FIN is accepted only at its end. -/
def Intact (b : Board) (irs : UInt32) (stream : Bytes) (l : Life) : Prop :=
  l.taken<+:stream ∧ l.taken++held b l.io.conn<+:stream ∧
  (held b l.io.conn).length≤b.maxMsize ∧
  ∃fin : Bool,(l.io.conn.state≠.synSent → l.io.conn.rcvNxt=
      irs+1+(l.taken++held b l.io.conn).length.toUInt32+(if fin then 1 else 0)) ∧
    (fin=true → l.taken++held b l.io.conn=stream) ∧
    (l.io.conn.state.peerClosed → fin=true)

/-- A connection whose segments are all cut from one stream receives it intact, as long as no
in-order segment carries the FIN behind more data than the window has room for, and none carries
rcv_nxt's number from another place of the stream. -/
theorem tcp_receives (b : Board) (irs : UInt32) (stream : Bytes) (l0 l : Life) (h : List Call)
    (hb : BornFrom b irs l0) (hr : Reach (LifeStep b (FromStream b irs stream)) l0 h l)
    (hu : l.io.conn.inUse=true) : Intact b irs stream l := by
  obtain ⟨fin,hi⟩ := receiving_reach hb hr hu
  exact ⟨(List.prefix_append _ _).trans hi.bytes,hi.bytes,hi.room,fin,hi.next,hi.all,hi.closed⟩

/-- A stream connection accepted for a SYN numbered 0. -/
def acceptedStream : Life :=
  ⟨connStartSyn .small 0 {syn := true, ack := true}
    ⟨synConn {} 0 0 0 {flags := {syn := true}, seq := 0, ack := 0, wnd := 1000} 0 true,[]⟩,[],[]⟩

/-- The segment of data at a place of the peer's stream. -/
def piece (o : UInt32) (data : Bytes) (fin : Bool) : Segment :=
  {flags := {ack := true, fin := fin}, seq := 1+o, ack := 1, wnd := 1000, data := data}

theorem acceptedStream_born : BornFrom .small 0 acceptedStream :=
  ⟨Born.accepted _ _ _ _ _ _ _ _,fun _ => rfl⟩

/-- Two segments and a read. -/
theorem tcp_receives_hello :
    let l1 := acceptedStream.call .small (.input 5 (piece 0 [104,101] false))
    let l2 := l1.call .small (.streamRead 1)
    let l3 := l2.call .small (.input 6 (piece 2 [121] true))
    l3.taken=[104] ∧ l3.io.conn.state=.closeWait ∧ Intact .small 0 [104,101,121] l3 := by
  intro l1 l2 l3
  have h1 : LifeStep .small (FromStream .small 0 [104,101,121]) acceptedStream
      (.input 5 (piece 0 [104,101] false)) l1 := by
    refine .call _ _ rfl ?_
    rintro _ _ ⟨⟩
    exact .inr ⟨0,.piece rfl rfl (by decide) rfl (by rintro ⟨⟩),fun _ _ _ =>
      ⟨by decide +kernel,by rintro ⟨⟩⟩⟩
  have h2 : LifeStep .small (FromStream .small 0 [104,101,121]) l1 (.streamRead 1) l2 := by
    refine .call _ _ ⟨by decide +kernel,by decide +kernel⟩ ?_
    rintro _ _ ⟨⟩
  have h3 : LifeStep .small (FromStream .small 0 [104,101,121]) l2
      (.input 6 (piece 2 [121] true)) l3 := by
    refine .call _ _ (by decide +kernel : l2.io.conn.inUse=true) ?_
    rintro _ _ ⟨⟩
    exact .inr ⟨2,.piece rfl rfl (by decide) rfl fun _ => rfl,fun _ _ _ =>
      ⟨by decide +kernel,fun _ => by decide +kernel⟩⟩
  exact ⟨by decide +kernel,by decide +kernel,tcp_receives .small 0 [104,101,121] acceptedStream l3 _
    acceptedStream_born (((Reach.start.next h1).next h2).next h3) (by decide +kernel)⟩

/-- The calls of a run whose segments are all cut from the peer's stream, any segment at all. -/
def AnyCut (irs : UInt32) (stream : Bytes) (_ : Life) (k : Call) : Prop :=
  ∀now seg,k=.input now seg → seg.flags.rst=true ∨ ∃o,CutAt irs stream seg o

/-- The second of two full segments carries the FIN, and the buffer has room for a part of it: the
part is taken, the rest is lost, and the connection is in CLOSE_WAIT. -/
theorem tcp_receives_fin_cut :
    ¬∀(b : Board) (irs : UInt32) (stream : Bytes) (l0 l : Life) (h : List Call),
      BornFrom b irs l0 → Reach (LifeStep b (AnyCut irs stream)) l0 h l →
      l.io.conn.inUse=true → Intact b irs stream l := by
  intro hall
  let l1 := acceptedStream.call .small (.input 5 (piece 0 (List.replicate 1460 0) false))
  let l2 := l1.call .small (.input 6 (piece 1460 (List.replicate 1460 0) true))
  have h1 : LifeStep .small (AnyCut 0 (List.replicate 2920 0)) acceptedStream
      (.input 5 (piece 0 (List.replicate 1460 0) false)) l1 := by
    refine .call _ _ rfl ?_
    rintro _ _ ⟨⟩
    exact .inr ⟨0,.piece rfl rfl (by decide +kernel) (by decide +kernel) (by rintro ⟨⟩)⟩
  have h2 : LifeStep .small (AnyCut 0 (List.replicate 2920 0)) l1
      (.input 6 (piece 1460 (List.replicate 1460 0) true)) l2 := by
    refine .call _ _ (by decide +kernel : l1.io.conn.inUse=true) ?_
    rintro _ _ ⟨⟩
    exact .inr ⟨1460,.piece rfl rfl (by decide +kernel) (by decide +kernel) fun _ => by
      decide +kernel⟩
  obtain ⟨_,_,hroom,fin,_,hfin,hclosed⟩ := hall _ _ _ _ _ _ acceptedStream_born
    ((Reach.start.next h1).next h2) (by decide +kernel)
  have hlen := congrArg List.length (hfin (hclosed (.inl (by decide +kernel))))
  rw [List.length_append,List.length_replicate] at hlen
  have hnone : l2.taken.length=0 := by decide +kernel
  rw [hnone] at hlen
  exact absurd (hlen.symm.trans_le (Nat.add_le_add_left hroom _)) (by decide)

end LugalOS.Tcp
