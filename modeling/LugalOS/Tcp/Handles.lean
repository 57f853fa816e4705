import LugalOS.Lib.Serial
import LugalOS.Tcp.Table

namespace LugalOS.Tcp

open Function (update_of_ne update_self)
open CString LittleEndian Buffer Run Serial

/-- The connection of a slot lives on in it. -/
structure Steady (c c' : Conn) : Prop where
  inUse : c'.inUse=c.inUse
  epoch : c'.epoch=c.epoch
  ctx : c'.linkCtx=c.linkCtx
  stream : c'.isStream=c.isStream

/-- What may happen to the connection of a slot: it lives on in the slot, or it is over and the slot
has the next epoch. -/
inductive Aged (c c' : Conn) : Prop
  | lives : Steady c c' → Aged c c'
  | ended : c.inUse=true → c'.inUse=false → c'.epoch=c.epoch+1 → Aged c c'

theorem Steady.refl (c : Conn) : Steady c c := ⟨rfl,rfl,rfl,rfl⟩

theorem Steady.trans {c d e : Conn} (h : Steady c d) (h' : Steady d e) : Steady c e :=
  ⟨h'.inUse.trans h.inUse,h'.epoch.trans h.epoch,h'.ctx.trans h.ctx,h'.stream.trans h.stream⟩

theorem Steady.aged {c d e : Conn} (h : Steady c d) (h' : Aged d e) : Aged c e := by
  cases h' with
  | lives h' => exact .lives (h.trans h')
  | ended hu hd he => exact .ended (h.inUse.symm.trans hu) hd (by rw [he,h.epoch])

theorem Quiet.steady {c c' : Conn} (h : Quiet c c') : Steady c c' := by
  obtain ⟨_,_,_,_,_,_,rfl⟩ := h
  exact ⟨rfl,rfl,rfl,rfl⟩

section
variable {b : Board} {io : Io}

theorem abort_aged (io : Io) (hu : io.conn.inUse=true) : Aged io.conn (connAbort b io).conn := by
  refine .ended hu rfl ?_
  unfold connAbort
  dsimp only
  split_ifs <;> rfl

theorem dropAcked_steady (ack : UInt32) (c : Conn) : Steady c (dropAcked ack c) := by
  unfold dropAcked
  dsimp only
  split_ifs <;> exact ⟨rfl,rfl,rfl,rfl⟩

theorem inputAck_steady (now : Nat) (seg : Segment) (io : Io) :
    ∃io',(inputAck b now seg io=.error io' ∨ inputAck b now seg io=.ok io') ∧
      Steady io.conn io'.conn := by
  have hack : Steady io.conn {io.conn with sndUna := seg.ack, retries := 0} := ⟨rfl,rfl,rfl,rfl⟩
  have hdrop := hack.trans (dropAcked_steady seg.ack _)
  unfold inputAck
  dsimp only
  by_cases h1 : (!seg.flags.ack)=true
  · rw [if_pos h1]
    exact ⟨io,.inr rfl,Steady.refl _⟩
  rw [if_neg h1]
  by_cases h2 : seqGt seg.ack io.conn.sndNxt=true
  · rw [if_pos h2]
    exact ⟨_,.inl rfl,⟨rfl,rfl,rfl,rfl⟩⟩
  rw [if_neg h2]
  by_cases h3 : seqGt seg.ack io.conn.sndUna=true
  · rw [if_pos h3]
    refine ⟨_,.inr rfl,hdrop.trans ?_⟩
    dsimp only
    split_ifs <;> exact ⟨rfl,rfl,rfl,rfl⟩
  · rw [if_neg h3]
    exact ⟨io,.inr rfl,Steady.refl _⟩

theorem inputState_aged (io : Io) (hu : io.conn.inUse=true) (now : Nat) (seg : Segment) :
    (∃io',inputState now seg io=.error io' ∧ Aged io.conn io'.conn) ∨
    ∃io',inputState now seg io=.ok io' ∧ Steady io.conn io'.conn := by
  unfold inputState
  dsimp only
  split
  · split_ifs
    · exact .inl ⟨io,rfl,.lives (Steady.refl _)⟩
    · exact .inl ⟨io,rfl,.lives (Steady.refl _)⟩
    · exact .inr ⟨_,rfl,rfl,rfl,rfl,rfl⟩
  · refine .inr ⟨_,rfl,?_⟩
    split_ifs <;> exact ⟨rfl,rfl,rfl,rfl⟩
  · split_ifs
    · exact .inl ⟨_,rfl,.ended hu rfl rfl⟩
    · exact .inr ⟨io,rfl,Steady.refl _⟩
  · refine .inr ⟨_,rfl,?_⟩
    split_ifs <;> exact ⟨rfl,rfl,rfl,rfl⟩
  · exact .inr ⟨io,rfl,Steady.refl _⟩

theorem inputFin_steady (now : Nat) (seg : Segment) (dataLen : UInt32) (io : Io) :
    Steady io.conn (inputFin now seg dataLen io).conn := by
  unfold inputFin
  dsimp only
  split_ifs
  · split <;> exact ⟨rfl,rfl,rfl,rfl⟩
  · exact Steady.refl _

theorem takeData_steady (data : Bytes) (c : Conn) : Steady c (takeData b data c) := by
  unfold takeData accept
  dsimp only
  split_ifs <;> exact ⟨rfl,rfl,rfl,rfl⟩

theorem inputTail_steady (now : Nat) (seg : Segment) (io : Io) :
    Steady io.conn (inputTail b now seg io).conn := by
  unfold inputTail inputData
  dsimp only
  split_ifs
  · exact ⟨rfl,rfl,rfl,rfl⟩
  · exact (inputFin_steady now seg 0 io).trans (quiet_transmit now _).steady
  · exact ⟨rfl,rfl,rfl,rfl⟩
  · have hk := takeData_steady (b := b) (seg.data.take (rcvWindow b io.conn).toNat) io.conn
    exact (hk.trans (inputFin_steady now seg _ ⟨takeData b _ io.conn,io.out⟩)).trans
      (quiet_transmit now _).steady

theorem inputSynSent_aged (io : Io) (hu : io.conn.inUse=true) (seg : Segment) :
    Aged io.conn (inputSynSent b seg io).conn := by
  unfold inputSynSent
  dsimp only
  split_ifs
  · exact .lives (Steady.refl _)
  · exact .lives (Steady.refl _)
  · exact abort_aged _ hu
  · exact .lives ⟨rfl,rfl,rfl,rfl⟩

theorem tcpInput_aged (io : Io) (hu : io.conn.inUse=true) (now : Nat) (seg : Segment) :
    Aged io.conn (tcpInput b now seg io).conn := by
  have h0 : Steady io.conn {io.conn with lastRxMs := now, kaProbes := 0} := ⟨rfl,rfl,rfl,rfl⟩
  unfold tcpInput
  dsimp only
  by_cases hr : seg.flags.rst=true
  · rw [if_pos hr]
    split_ifs
    · exact .ended hu rfl rfl
    · exact .lives h0
  rw [if_neg hr]
  by_cases hs : io.conn.state=.synSent
  · rw [if_pos hs]
    have h1 := inputSynSent_aged (b := b) ⟨{io.conn with lastRxMs := now, kaProbes := 0},io.out⟩
      hu seg
    exact h0.aged h1
  rw [if_neg hs]
  obtain ⟨io1,he,h1⟩ := inputAck_steady (b := b) now seg
    ⟨{io.conn with lastRxMs := now, kaProbes := 0},io.out⟩
  rcases he with he | he
  · rw [he]
    exact .lives (h0.trans h1)
  · rw [he]
    dsimp only
    have h2 : Steady io.conn {io1.conn with sndWnd := seg.wnd} := (h0.trans h1).trans ⟨rfl,rfl,rfl,rfl⟩
    rcases inputState_aged ⟨{io1.conn with sndWnd := seg.wnd},io1.out⟩ (h2.inUse.trans hu) now
      seg with ⟨io3,he3,h3⟩ | ⟨io3,he3,h3⟩
    · rw [he3]
      exact h2.aged h3
    · rw [he3]
      exact .lives ((h2.trans h3).trans (inputTail_steady now seg io3))

theorem sendFin_steady (now : Nat) (io : Io) (s : TcpState) :
    Steady io.conn {(sendFin b now io).conn with state := s} :=
  (quiet_sendFin now io).steady.trans ⟨rfl,rfl,rfl,rfl⟩

theorem tcpClose_aged (hu : io.conn.inUse=true) (now : Nat) :
    Aged io.conn (tcpClose b now io).conn := by
  unfold tcpClose
  split_ifs
  · exact .lives (Steady.refl _)
  · exact .lives (sendFin_steady now io _)
  · exact .lives (sendFin_steady now io _)
  · exact abort_aged _ hu

theorem tcpStreamClose_aged (hu : io.conn.inUse=true) (now : Nat) :
    Aged io.conn (tcpStreamClose b now io).conn := by
  unfold tcpStreamClose
  dsimp only
  split_ifs
  · exact .lives ⟨rfl,rfl,rfl,rfl⟩
  · exact .lives (sendFin_steady now io _)
  · exact .lives (sendFin_steady now io _)
  · exact abort_aged _ hu

theorem serviceTimers_aged (hu : io.conn.inUse=true) (now : Nat) :
    Aged io.conn (serviceTimers b now io).1.conn := by
  have hrto (io : Io) (hu : io.conn.inUse=true) : Aged io.conn (serviceRto b now io).1.conn := by
    unfold serviceRto
    split_ifs
    · exact .lives (Steady.refl _)
    · exact abort_aged _ hu
    · exact .lives (quiet_retransmit now io).steady
  unfold serviceTimers serviceKeepalive
  dsimp only
  split_ifs
  · exact .ended hu rfl rfl
  · exact .lives (Steady.refl _)
  · exact hrto io hu
  · exact abort_aged _ hu
  · refine Steady.aged ?_ (hrto _ hu)
    exact ⟨rfl,rfl,rfl,rfl⟩

theorem serviceTail_steady (now : Nat) (io : Io) : Steady io.conn (serviceTail b now io).conn := by
  have hclose : Steady io.conn (serviceClose b now io).conn := by
    have hk : Steady io.conn {io.conn with closePending := false} := ⟨rfl,rfl,rfl,rfl⟩
    unfold serviceClose
    dsimp only
    split_ifs
    · exact hk.trans (sendFin_steady now ⟨_,io.out⟩ _)
    · exact hk.trans (sendFin_steady now ⟨_,io.out⟩ _)
    · exact hk
    · exact Steady.refl _
  have hhalf (io : Io) : Steady io.conn (serviceHalfClosed b now io).conn := by
    unfold serviceHalfClosed
    dsimp only
    split_ifs
    · exact sendFin_steady now io _
    · exact Steady.refl _
  exact (hclose.trans (hhalf _)).trans (quiet_transmit now _).steady

theorem serviceSpartan_steady (now : Nat) (consumed : UInt32) (reply : Bytes) (closeAfter : Bool)
    (io : Io) : Steady io.conn (serviceSpartan b now consumed reply closeAfter io).conn := by
  have htake : Steady io.conn (takeRequest consumed {io.conn with tx := patch io.conn.tx 0 reply}) := by
    unfold takeRequest
    dsimp only
    split_ifs <;> exact ⟨rfl,rfl,rfl,rfl⟩
  have hsend (io : Io) : Steady io.conn (sendReply b now reply io).conn := by
    unfold sendReply
    split_ifs
    · refine Steady.trans ?_ (quiet_transmit now _).steady
      exact ⟨rfl,rfl,rfl,rfl⟩
    · exact Steady.refl _
  have hall := htake.trans (hsend ⟨_,io.out⟩)
  unfold serviceSpartan
  dsimp only
  split_ifs
  · exact hall.trans ⟨rfl,rfl,rfl,rfl⟩
  · exact hall

theorem call_aged {l : Life} (hu : l.io.conn.inUse=true) (k : Call) :
    Aged l.io.conn (l.call b k).io.conn := by
  cases k with
  | input now seg => exact tcpInput_aged _ hu now seg
  | linkRecv maxLen =>
    refine .lives ?_
    change Steady l.io.conn (linkRecvFrame maxLen l.io.conn).2
    unfold linkRecvFrame
    dsimp only
    split_ifs <;> exact ⟨rfl,rfl,rfl,rfl⟩
  | linkSend buf =>
    refine .lives ?_
    change Steady l.io.conn (linkSendFrame b buf l.io.conn).2
    unfold linkSendFrame
    split_ifs <;> exact ⟨rfl,rfl,rfl,rfl⟩
  | linkClose now => exact tcpClose_aged hu now
  | session prot => exact .lives ⟨rfl,rfl,rfl,rfl⟩
  | streamRead max =>
    refine .lives ?_
    change Steady l.io.conn (tcpStreamRead b max l.io.conn).2
    unfold tcpStreamRead
    dsimp only
    split_ifs <;> exact ⟨rfl,rfl,rfl,rfl⟩
  | streamWrite buf =>
    refine .lives ?_
    change Steady l.io.conn (tcpStreamWrite b buf l.io.conn).2
    unfold tcpStreamWrite
    split_ifs <;> exact ⟨rfl,rfl,rfl,rfl⟩
  | streamClose now => exact tcpStreamClose_aged hu now
  | accepted => exact .lives ⟨rfl,rfl,rfl,rfl⟩
  | timers now => exact serviceTimers_aged hu now
  | servedP9 =>
    change Aged l.io.conn (serviceP9 b l.io).1.conn
    unfold serviceP9
    split_ifs
    · exact abort_aged _ hu
    · exact .lives (Steady.refl _)
  | spartan now consumed reply closeAfter =>
    exact .lives (serviceSpartan_steady now consumed reply closeAfter l.io)
  | tail now => exact .lives (serviceTail_steady now l.io)

theorem linkOp_unused (io : Io) (hu : io.conn.inUse=false) (op : LinkOp) :
    op.run b io=(io,op.refused) := by
  cases op with
  | poll => simp [LinkOp.run,LinkOp.refused,linkPoll,hu]
  | recv maxLen => simp [LinkOp.run,LinkOp.refused,linkRecvFrame,hu]
  | send buf => simp [LinkOp.run,LinkOp.refused,linkSendFrame,hu]
  | ready => simp [LinkOp.run,LinkOp.refused,tcpLinkReady,hu]
  | close now => simp [LinkOp.run,LinkOp.refused,tcpClose,hu]

theorem linkOp_aged (io : Io) (hu : io.conn.inUse=true) (op : LinkOp) :
    Aged io.conn (op.run b io).1.conn := by
  cases op with
  | poll => exact .lives (Steady.refl _)
  | recv maxLen => exact call_aged (b := b) (l := ⟨io,[],[]⟩) hu (.linkRecv maxLen)
  | send buf => exact call_aged (b := b) (l := ⟨io,[],[]⟩) hu (.linkSend buf)
  | ready => exact .lives (Steady.refl _)
  | close now => exact tcpClose_aged hu now

theorem streamOp_aged (io : Io) (hu : io.conn.inUse=true) (op : StreamOp) :
    Aged io.conn (op.run b io).1.conn := by
  cases op with
  | ready => exact .lives (Steady.refl _)
  | read max => exact call_aged (b := b) (l := ⟨io,[],[]⟩) hu (.streamRead max)
  | writable => exact .lives (Steady.refl _)
  | write buf => exact call_aged (b := b) (l := ⟨io,[],[]⟩) hu (.streamWrite buf)
  | peerClosed => exact .lives (Steady.refl _)
  | close now => exact tcpStreamClose_aged hu now

end

inductive Face where
  | link
  | stream (s : Stream)

/-- A handle on the connection that a slot carried as its n-th. -/
structure Handle where
  face : Face
  slot : Fin tcpMaxConns
  tenure : Nat

/-- The table with the number of connections each slot has carried, and every handle given out. -/
structure World where
  table : Table := {}
  tenure : Fin tcpMaxConns → Nat := fun _ => 0
  handles : List Handle := []

/-- A link is a handle by its address: the slot's. -/
def faceOf (c : Conn) (i : Fin tcpMaxConns) : Face :=
  if c.isStream then .stream ⟨i,c.epoch,true⟩ else .link

inductive Ev where
  | input (now : Nat) (src : UInt32) (seg : Bytes)
  /-- A part of tcp_service on slot i. -/
  | service (i : Fin tcpMaxConns) (k : Call)
  | connect (now : Nat) (ip : UInt32) (port : UInt16) (ready : Bool)
  | streamOpen (now : Nat) (ip : UInt32) (port : UInt16) (ready : Bool)
  | streamAccept (port : UInt16)
  /-- A call with the n-th handle. -/
  | link (n : Nat) (op : LinkOp)
  | stream (n : Nat) (op : StreamOp)
  | listen (port : UInt16)
  | unlisten (ports : List UInt16)
  | streamListen (port : UInt16)
  | streamUnlisten (port : UInt16)

/-- The calls tcp_service makes, with the 9P server's on its link. -/
def Call.byService : Call → Prop
  | .timers _ | .servedP9 | .spartan _ _ _ _ | .tail _ | .session _ => True
  | _ => False

/-- A new connection in slot i, with a handle where one is given out. -/
def World.opened (w : World) (t : Table) (i : Fin tcpMaxConns) (given : Bool) : World :=
  let n := w.tenure i+1
  {w with
    table := t, tenure := Function.update w.tenure i n
    handles := w.handles++if given then [⟨faceOf (t.conns i) i,i,n⟩] else []}

def World.after (w : World) (r : Table×Option (Fin tcpMaxConns)) (given : Conn → Bool) : World :=
  match r.2 with
  | none => {w with table := r.1}
  | some i => w.opened r.1 i (given (r.1.conns i))

/-- tcp_stream_close marks the caller's handle. -/
def closeHandle (n : Nat) (s : Stream) (hd : Handle) (op : StreamOp) (hs : List Handle) :
    List Handle :=
  match op with
  | .close _ => hs.set n {hd with face := .stream {s with isOpen := false}}
  | _ => hs

inductive Step (b : Board) : World → Ev → World → Prop
  | input (w : World) (now : Nat) (src : UInt32) (seg : Bytes) :
      Step b w (.input now src seg) (w.after (w.table.input b now src seg) fun c => !c.isStream)
  | service (w : World) (i : Fin tcpMaxConns) (k : Call) :
      k.byService → k.Legal b (w.table.conns i) →
      Step b w (.service i k)
        {w with table := w.table.on i fun io => ((⟨io,[],[]⟩ : Life).call b k).io}
  | connect (w : World) (now : Nat) (ip : UInt32) (port : UInt16) (ready : Bool) :
      Step b w (.connect now ip port ready)
        (w.after (connDial b now ip port false ready w.table) fun _ => true)
  | streamOpen (w : World) (now : Nat) (ip : UInt32) (port : UInt16) (ready : Bool) :
      Step b w (.streamOpen now ip port ready)
        (w.after (connDial b now ip port true ready w.table) fun _ => true)
  | refused (w : World) (port : UInt16) : (tcpStreamAccept port w.table).2=none →
      Step b w (.streamAccept port) w
  | accepted (w : World) (port : UInt16) (i : Fin tcpMaxConns) :
      (tcpStreamAccept port w.table).2=some i →
      Step b w (.streamAccept port)
        {w with
          table := (tcpStreamAccept port w.table).1
          handles := w.handles++[⟨.stream ⟨i,(w.table.conns i).epoch,true⟩,i,w.tenure i⟩]}
  | link (w : World) (n : Nat) (hd : Handle) (op : LinkOp) :
      w.handles[n]?=some hd → hd.face=.link →
      Step b w (.link n op) {w with table := (w.table.linkOp b hd.slot op).1}
  | stream (w : World) (n : Nat) (hd : Handle) (s : Stream) (op : StreamOp) :
      w.handles[n]?=some hd → hd.face=.stream s →
      Step b w (.stream n op)
        {w with
          table := (w.table.streamOp b s op).1, handles := closeHandle n s hd op w.handles}
  | listen (w : World) (port : UInt16) :
      Step b w (.listen port)
        {w with table := {w.table with listenPorts := listenOn port w.table.listenPorts}}
  | unlisten (w : World) (ports : List UInt16) : ports.Sublist w.table.listenPorts →
      Step b w (.unlisten ports) {w with table := {w.table with listenPorts := ports}}
  | streamListen (w : World) (port : UInt16) :
      Step b w (.streamListen port)
        {w with table := {w.table with streamPorts := listenOn port w.table.streamPorts}}
  | streamUnlisten (w : World) (port : UInt16) :
      Step b w (.streamUnlisten port)
        {w with table := {w.table with streamPorts := w.table.streamPorts.erase port}}

/-- A slot and the number of connections it has carried. -/
def SlotGood (n : Nat) (c : Conn) : Prop :=
  (c.inUse=false ∧ c.epoch=n.toUInt32) ∨
    (c.inUse=true ∧ 0 < n ∧ c.epoch+1=n.toUInt32 ∧ c.linkCtx=if c.isStream then 0 else c.epoch)

/-- A handle was given for a connection its slot has carried. -/
structure HandleGood (tenure : Fin tcpMaxConns → Nat) (hd : Handle) : Prop where
  first : 0 < hd.tenure
  known : hd.tenure≤tenure hd.slot
  stream : ∀s,hd.face=.stream s → s.index=hd.slot ∧ s.epoch+1=hd.tenure.toUInt32

structure Good (w : World) : Prop where
  slots : ∀i,SlotGood (w.tenure i) (w.table.conns i)
  handles : ∀hd∈w.handles,HandleGood w.tenure hd

section
variable {b : Board} {w : World} {t : Table} {i : Fin tcpMaxConns} {n : Nat} {c c' : Conn}

theorem SlotGood.aged (h : SlotGood n c) (hu : c.inUse=true) (ha : Aged c c') : SlotGood n c' := by
  rcases h with ⟨hno,_⟩ | ⟨_,hpos,he,hctx⟩
  · rw [hu] at hno
    cases hno
  · cases ha with
    | lives hs =>
      exact .inr ⟨hs.inUse.trans hu,hpos,by rw [hs.epoch,he],by rw [hs.ctx,hctx,hs.stream,hs.epoch]⟩
    | ended _ hd he' => exact .inl ⟨hd,he'.trans he⟩

theorem SlotGood.fill (h : SlotGood n c) (hu : c.inUse=false) (hu' : c'.inUse=true)
    (he : c'.epoch=c.epoch) (hctx : c'.linkCtx=if c'.isStream then 0 else c'.epoch) :
    SlotGood (n+1) c' := by
  rcases h with ⟨_,hn⟩ | ⟨hno,_⟩
  · refine .inr ⟨hu',Nat.succ_pos n,?_,hctx⟩
    rw [he,hn,toUInt32_add]
    rfl
  · rw [hu] at hno
    cases hno

theorem on_conns (t : Table) (i : Fin tcpMaxConns) (f : Io → Io) :
    (t.on i f).conns=Function.update t.conns i (f ⟨t.conns i,[]⟩).conn := rfl

theorem slots_on {tenure : Fin tcpMaxConns → Nat} (h : ∀j,SlotGood (tenure j) (t.conns j))
    (f : Io → Io) (hu : (t.conns i).inUse=true) (ha : Aged (t.conns i) (f ⟨t.conns i,[]⟩).conn) :
    ∀j,SlotGood (tenure j) ((t.on i f).conns j) := by
  intro j
  rw [on_conns]
  by_cases hj : j=i
  · subst hj
    rw [update_self]
    exact (h j).aged hu ha
  · rw [update_of_ne hj]
    exact h j

theorem Good.on (h : Good w) (f : Io → Io) (hu : (w.table.conns i).inUse=true)
    (ha : Aged (w.table.conns i) (f ⟨w.table.conns i,[]⟩).conn) :
    Good {w with table := w.table.on i f} :=
  ⟨slots_on h.slots f hu ha,h.handles⟩

theorem acquire_empty {tenure : Fin tcpMaxConns → Nat} {t' : Table}
    (h : ∀j,SlotGood (tenure j) (t.conns j)) (ha : acquire b t=some (i,t')) :
    (∀j,SlotGood (tenure j) (t'.conns j)) ∧ (t'.conns i).inUse=false := by
  unfold acquire at ha
  cases hf : freeConn t with
  | some k =>
    rw [hf] at ha
    cases ha
    refine ⟨h,?_⟩
    have hp := List.find?_some hf
    simpa using hp
  | none =>
    rw [hf] at ha
    dsimp only at ha
    unfold recycleFinished at ha
    obtain ⟨k,hk,he⟩ := Option.map_eq_some_iff.mp ha
    cases he
    obtain ⟨s,_,hs⟩ := List.exists_of_findSome?_eq_some hk
    have hp := List.find?_some hs
    have hu : (t.conns i).inUse=true := by
      unfold recyclable at hp
      simp only [decide_eq_true_eq] at hp
      exact hp.1
    refine ⟨slots_on h _ hu (abort_aged ⟨t.conns i,[]⟩ hu),?_⟩
    rw [on_conns,update_self]
    rfl

theorem opened_good {t' : Table} {f : Io → Io} {given : Bool} (h : Good w)
    (hs : ∀j,SlotGood (w.tenure j) (t.conns j)) (hu : (t.conns i).inUse=false)
    (hconns : t'.conns=Function.update t.conns i c) (hu' : c.inUse=true)
    (he : c.epoch=(t.conns i).epoch) (hctx : c.linkCtx=if c.isStream then 0 else c.epoch)
    (hf : Steady c (f ⟨c,[]⟩).conn) : Good (w.opened (t'.on i f) i given) := by
  have hconn : (t'.on i f).conns i=(f ⟨c,[]⟩).conn := by
    rw [on_conns,update_self,hconns,update_self]
  have hslot : SlotGood (w.tenure i+1) ((t'.on i f).conns i) := by
    rw [hconn]
    exact ((hs i).fill hu hu' he hctx).aged hu' (.lives hf)
  refine ⟨fun j => ?_,fun hd hm => ?_⟩
  · change SlotGood (Function.update w.tenure i _ j) ((t'.on i f).conns j)
    by_cases hj : j=i
    · subst hj
      rw [update_self]
      exact hslot
    · rw [update_of_ne hj,on_conns,update_of_ne hj,hconns,
        update_of_ne hj]
      exact hs j
  · change HandleGood (Function.update w.tenure i _) hd
    rcases List.mem_append.mp hm with hm | hm
    · have hg := h.handles hd hm
      refine ⟨hg.first,?_,hg.stream⟩
      by_cases hj : hd.slot=i
      · rw [hj,update_self]
        have hk := hg.known
        rw [hj] at hk
        exact hk.trans (Nat.le_succ _)
      · rw [update_of_ne hj]
        exact hg.known
    · have hd' : hd=⟨faceOf ((t'.on i f).conns i) i,i,w.tenure i+1⟩ := by
        cases given with
        | true => exact List.mem_singleton.mp hm
        | false => cases hm
      subst hd'
      refine ⟨Nat.succ_pos _,?_,fun s hface => ?_⟩
      · dsimp only
        rw [update_self]
      · dsimp only at hface ⊢
        unfold faceOf at hface
        split_ifs at hface
        cases hface
        refine ⟨rfl,?_⟩
        rcases hslot with ⟨hno,_⟩ | ⟨_,_,hep,_⟩
        · rw [hconn,hf.inUse,hu'] at hno
          cases hno
        · exact hep

theorem start_steady (now : Nat) (f : Flags) (c : Conn) :
    Steady c (connStartSyn b now f ⟨c,[]⟩).conn := ⟨rfl,rfl,rfl,rfl⟩

theorem Good.table (h : Good w) (hc : t.conns=w.table.conns) : Good {w with table := t} :=
  ⟨fun j => by change SlotGood _ (t.conns j); rw [hc]; exact h.slots j,h.handles⟩

theorem stray_conns (src : UInt32) (sport dport : UInt16) (seg : Segment) (dataLen : UInt32)
    (t : Table) : (tcpResetStray src sport dport seg dataLen t).conns=t.conns := by
  unfold tcpResetStray
  split_ifs <;> rfl

theorem acceptSyn_good (h : Good w) (now : Nat) (src : UInt32) (sport dport : UInt16)
    (seg : Segment) (stream : Bool) (given : Conn → Bool) :
    Good (w.after (acceptSyn b now src sport dport seg stream w.table) given) := by
  unfold acceptSyn
  cases ha : acquire b w.table with
  | none => exact h.table (stray_conns _ _ _ _ _ _)
  | some r =>
    obtain ⟨i,t⟩ := r
    obtain ⟨hs,hu⟩ := acquire_empty h.slots ha
    dsimp only
    unfold World.after
    dsimp only
    refine opened_good h hs hu rfl ?_ ?_ ?_ (start_steady _ _ _) <;> cases stream <;> rfl

theorem connDial_good (h : Good w) (now : Nat) (ip : UInt32) (port : UInt16) (stream ready : Bool)
    (given : Conn → Bool) : Good (w.after (connDial b now ip port stream ready w.table) given) := by
  unfold connDial
  split_ifs
  · exact h.table rfl
  · cases ha : acquire b w.table with
    | none => exact h.table rfl
    | some r =>
      obtain ⟨i,t⟩ := r
      obtain ⟨hs,hu⟩ := acquire_empty h.slots ha
      dsimp only
      unfold World.after
      dsimp only
      refine opened_good h hs hu rfl ?_ ?_ ?_ (start_steady _ _ _) <;> cases stream <;> rfl

theorem input_good (h : Good w) (now : Nat) (src : UInt32) (seg : Bytes) (given : Conn → Bool) :
    Good (w.after (w.table.input b now src seg) given) := by
  unfold Table.input
  cases hp : parseSegment src w.table.ip seg with
  | none => exact h.table rfl
  | some r =>
    obtain ⟨sport,dport,s⟩ := r
    dsimp only
    cases hf : findConn w.table src sport dport with
    | some i =>
      have hi := List.find?_some hf
      simp only [decide_eq_true_eq] at hi
      exact h.on _ hi.1 (tcpInput_aged ⟨w.table.conns i,[]⟩ hi.1 now s)
    | none =>
      dsimp only
      split_ifs
      · exact acceptSyn_good h now src sport dport s _ given
      · exact h.table (stray_conns _ _ _ _ _ _)

theorem linkOp_good (h : Good w) (link : Fin tcpMaxConns) (op : LinkOp) :
    Good {w with table := (w.table.linkOp b link op).1} := by
  unfold Table.linkOp linkConn
  split_ifs
  · exact h
  · dsimp only
    cases hu : (w.table.conns link).inUse with
    | true => exact h.on _ hu (linkOp_aged ⟨w.table.conns link,[]⟩ hu op)
    | false =>
      refine h.table ?_
      rw [on_conns,linkOp_unused ⟨w.table.conns link,[]⟩ hu op]
      exact Function.update_eq_self _ _

theorem streamConn_some {s : Stream} (hc : streamConn t s=some i) :
    s.index=i ∧ (t.conns i).inUse=true ∧ (t.conns i).isStream=true ∧ (t.conns i).epoch=s.epoch := by
  unfold streamConn at hc
  split_ifs at hc with h1
  dsimp only at hc
  split_ifs at hc with h2
  cases hc
  simpa [not_or,and_assoc] using h2

theorem streamOp_good (h : Good w) (s : Stream) (op : StreamOp) :
    Good {w with table := (w.table.streamOp b s op).1} := by
  unfold Table.streamOp
  cases hc : streamConn w.table s with
  | none => exact h
  | some i =>
    have hu := (streamConn_some hc).2.1
    exact h.on (fun io => (op.run b io).1) hu (streamOp_aged ⟨w.table.conns i,[]⟩ hu op)

theorem Good.handlesTo (h : Good w) {hs : List Handle}
    (hh : ∀hd∈hs,HandleGood w.tenure hd) : Good {w with handles := hs} := ⟨h.slots,hh⟩

theorem closeHandle_good {tenure : Fin tcpMaxConns → Nat} {hs : List Handle}
    (h : ∀hd∈hs,HandleGood tenure hd) {s : Stream} {hd : Handle} (hm : hs[n]?=some hd)
    (hf : hd.face=.stream s) (op : StreamOp) : ∀hd'∈closeHandle n s hd op hs,HandleGood tenure hd' := by
  have hg := h hd (List.mem_of_getElem? hm)
  intro hd' hm'
  cases op with
  | close now =>
    rcases List.mem_or_eq_of_mem_set hm' with hm' | rfl
    · exact h hd' hm'
    · refine ⟨hg.first,hg.known,fun s' hs' => ?_⟩
      cases hs'
      exact hg.stream s hf
  | _ => exact h hd' hm'

theorem accept_good (h : Good w) {port : UInt16} (ha : (tcpStreamAccept port w.table).2=some i) :
    Good {w with
      table := (tcpStreamAccept port w.table).1
      handles := w.handles++[⟨.stream ⟨i,(w.table.conns i).epoch,true⟩,i,w.tenure i⟩]} := by
  unfold tcpStreamAccept at ha ⊢
  dsimp only at ha ⊢
  split at ha
  · cases ha
  · next k hk =>
    cases ha
    have hp := List.find?_some hk
    simp only [decide_eq_true_eq] at hp
    refine Good.handlesTo (w := {w with table := w.table.on i _}) (h.on _ hp.1
      (.lives ⟨rfl,rfl,rfl,rfl⟩)) fun hd hm => ?_
    rcases List.mem_append.mp hm with hm | hm
    · exact h.handles hd hm
    · rw [List.mem_singleton.mp hm]
      rcases h.slots i with ⟨hno,_⟩ | ⟨_,hpos,he,_⟩
      · rw [hp.1] at hno
        cases hno
      · refine ⟨hpos,le_rfl,fun s hs => ?_⟩
        cases hs
        exact ⟨rfl,he⟩

theorem step_good {e : Ev} {w' : World} (h : Good w) (hs : Step b w e w') : Good w' := by
  cases hs with
  | input now src seg => exact input_good h now src seg _
  | service i k _ hl =>
    exact h.on _ hl.inUse (call_aged (l := ⟨⟨w.table.conns i,[]⟩,[],[]⟩) hl.inUse k)
  | connect now ip port ready => exact connDial_good h now ip port false ready _
  | streamOpen now ip port ready => exact connDial_good h now ip port true ready _
  | refused => exact h
  | accepted port i ha => exact accept_good h ha
  | link n hd op => exact linkOp_good h hd.slot op
  | stream n hd s op hm hf =>
    exact (streamOp_good h s op).handlesTo (closeHandle_good h.handles hm hf op)
  | listen port | unlisten ports | streamListen port | streamUnlisten port => exact h.table rfl

theorem good_reach {h : List Ev} (hr : Reach (Step b) {} h w) : Good w :=
  Reach.invariant (fun _ w => Good w)
    ⟨fun _ => .inl ⟨rfl,rfl⟩,fun _ hm => by cases hm⟩ (fun _ _ _ _ hg hs => step_good hg hs) hr

end

/-- Every call with the handle is refused and changes nothing. -/
def Inert (b : Board) (t : Table) (hd : Handle) : Prop :=
  match hd.face with
  | .link => ∀op,t.linkOp b hd.slot op=(t,op.refused)
  | .stream s => ∀op,t.streamOp b s op=(t,op.refused)

section
variable {b : Board} {w : World} {t : Table} {i : Fin tcpMaxConns} {hd : Handle}

theorem tcpClose_ne (io : Io) (hu : io.conn.inUse=true) (now : Nat) :
    (tcpClose b now io).conn≠io.conn := by
  unfold tcpClose
  split_ifs with h1 h2 h3
  · rw [hu] at h1
    cases h1
  · intro he
    have hs := congrArg Conn.state he
    rw [h2] at hs
    cases hs
  · intro he
    have hs := congrArg Conn.state he
    rw [h3] at hs
    cases hs
  · intro he
    have hs := congrArg Conn.inUse he
    rw [hu] at hs
    cases hs

theorem link_acts (hf : hd.face=.link) (hu : (t.conns hd.slot).inUse=true)
    (hc : (t.conns hd.slot).linkCtx=(t.conns hd.slot).epoch) : ¬Inert b t hd := by
  intro hin
  unfold Inert at hin
  rw [hf] at hin
  have hclose := congrArg (fun r => r.1.conns hd.slot) (hin (.close 0))
  unfold Table.linkOp linkConn at hclose
  rw [if_neg (not_not.mpr hc)] at hclose
  dsimp only at hclose
  rw [on_conns,update_self] at hclose
  exact tcpClose_ne ⟨t.conns hd.slot,[]⟩ hu 0 hclose

theorem link_inert (hf : hd.face=.link) (h : (t.conns hd.slot).inUse=false ∨
    (t.conns hd.slot).linkCtx≠(t.conns hd.slot).epoch) : Inert b t hd := by
  unfold Inert
  rw [hf]
  intro op
  unfold Table.linkOp linkConn
  by_cases hc : (t.conns hd.slot).linkCtx=(t.conns hd.slot).epoch
  · rw [if_neg (not_not.mpr hc)]
    dsimp only
    have hu := h.resolve_right (not_not.mpr hc)
    rw [linkOp_unused ⟨t.conns hd.slot,[]⟩ hu op]
    unfold Table.on
    dsimp only
    rw [linkOp_unused ⟨t.conns hd.slot,[]⟩ hu op,Function.update_eq_self,List.map_nil,
      List.append_nil]
  · rw [if_pos hc]

theorem stream_inert (hg : HandleGood w.tenure hd)
    (hslot : SlotGood (w.tenure hd.slot) (w.table.conns hd.slot)) {s : Stream}
    (hf : hd.face=.stream s) (hlater : hd.tenure < w.tenure hd.slot)
    (hwrap : w.tenure hd.slot < hd.tenure+2^32) : Inert b w.table hd := by
  unfold Inert
  rw [hf]
  intro op
  unfold Table.streamOp
  cases hc : streamConn w.table s with
  | none => rfl
  | some i =>
    obtain ⟨hi,hu,_,he⟩ := streamConn_some hc
    obtain ⟨hindex,hep⟩ := hg.stream s hf
    obtain rfl : i=hd.slot := Fin.ext (hi.symm.trans hindex)
    rcases hslot with ⟨hno,_⟩ | ⟨_,_,hslot,_⟩
    · rw [hu] at hno
      cases hno
    · rw [he,hep] at hslot
      have hn : num 0 hd.tenure=num 0 (w.tenure hd.slot) := by rw [num,num,hslot]
      have heq := num_inj hn (by omega) hwrap
      omega

end

/-- A handle whose slot carries a later connection, less than 2^32 connections on, is refused
unless it is a link and the slot is in use: for a link, which compares the slot's own number, or for
a stream in an epoch that has wrapped to 0. -/
theorem stale_handles (b : Board) (w : World) (h : List Ev) (hr : Reach (Step b) {} h w)
    (hd : Handle) (hm : hd∈w.handles) (hlater : hd.tenure < w.tenure hd.slot)
    (hwrap : w.tenure hd.slot < hd.tenure+2^32) : Inert b w.table hd ↔
      ¬(hd.face=.link ∧ (w.table.conns hd.slot).inUse=true ∧
        ((w.table.conns hd.slot).isStream=false ∨ (w.table.conns hd.slot).epoch=0)) := by
  have hg := good_reach hr
  have hslot := hg.slots hd.slot
  cases hf : hd.face with
  | stream s =>
    exact ⟨fun _ hn => (by cases hn.1),
      fun _ => stream_inert (hg.handles hd hm) hslot hf hlater hwrap⟩
  | link =>
    rcases hslot with ⟨hno,_⟩ | ⟨hu,_,_,hctx⟩
    · exact ⟨fun _ hn => (by rw [hno] at hn; cases hn.2.1),fun _ => link_inert hf (.inl hno)⟩
    · cases hs : (w.table.conns hd.slot).isStream with
      | false =>
        rw [hs,if_neg (by decide)] at hctx
        exact ⟨fun hin => absurd hin (link_acts hf hu hctx),
          fun hn => absurd ⟨rfl,hu,.inl rfl⟩ hn⟩
      | true =>
        rw [hs,if_pos rfl] at hctx
        by_cases h0 : (w.table.conns hd.slot).epoch=0
        · exact ⟨fun hin => absurd hin (link_acts hf hu (hctx.trans h0.symm)),
            fun hn => absurd ⟨rfl,hu,.inr h0⟩ hn⟩
        · refine ⟨fun _ hn => ?_,fun _ => link_inert hf (.inr fun he => h0 (he.symm.trans hctx))⟩
          rcases hn.2.2 with hn | hn
          · cases hn
          · exact h0 hn

/-- The slot that the first connection gets. -/
def slot0 : Fin tcpMaxConns := ⟨0,by decide⟩

/-- A stream opened, closed in its handshake, and another one in its slot. -/
theorem stale_handles_stream :
    let w1 := World.after {} (connDial .small 1 5 80 true true {}) fun _ => true
    let w2 := {w1 with
      table := (w1.table.streamOp .small ⟨0,0,true⟩ (.close 2)).1
      handles := closeHandle 0 ⟨0,0,true⟩ ⟨.stream ⟨0,0,true⟩,slot0,1⟩ (.close 2) w1.handles}
    let w3 := w2.after (connDial .small 3 6 80 true true w2.table) fun _ => true
    (w3.table.conns slot0).inUse=true ∧
    (Inert .small w3.table ⟨.stream ⟨0,0,false⟩,slot0,1⟩ ↔
      ¬(Face.stream ⟨0,0,false⟩=.link ∧ (w3.table.conns slot0).inUse=true ∧
        ((w3.table.conns slot0).isStream=false ∨ (w3.table.conns slot0).epoch=0))) := by
  intro w1 w2 w3
  have h1 : Step .small {} (.streamOpen 1 5 80 true) w1 := Step.streamOpen _ _ _ _ _
  have h2 : Step .small w1 (.stream 0 (.close 2)) w2 :=
    Step.stream w1 0 ⟨.stream ⟨0,0,true⟩,slot0,1⟩ ⟨0,0,true⟩ (.close 2) rfl rfl
  have h3 : Step .small w2 (.streamOpen 3 6 80 true) w3 := Step.streamOpen _ _ _ _ _
  exact ⟨rfl,stale_handles .small w3 _ (((Reach.start.next h1).next h2).next h3)
    ⟨.stream ⟨0,0,false⟩,slot0,1⟩ List.mem_cons_self (by decide : 1 < 2) (by decide : 2 < 1+2^32)⟩

/-- A link dialled and closed, and another one dialled: the first handle closes the second. -/
theorem stale_handles_link :
    ¬∀(b : Board) (w : World) (h : List Ev),Reach (Step b) {} h w →
      ∀hd∈w.handles,hd.tenure < w.tenure hd.slot → w.tenure hd.slot < hd.tenure+2^32 →
        Inert b w.table hd := by
  intro hall
  let w1 := World.after {} (connDial .small 1 5 564 false true {}) fun _ => true
  let w2 := {w1 with table := (w1.table.linkOp .small slot0 (.close 2)).1}
  let w3 := w2.after (connDial .small 3 6 564 false true w2.table) fun _ => true
  have h1 : Step .small {} (.connect 1 5 564 true) w1 := Step.connect _ _ _ _ _
  have h2 : Step .small w1 (.link 0 (.close 2)) w2 :=
    Step.link w1 0 ⟨.link,slot0,1⟩ (.close 2) rfl rfl
  have h3 : Step .small w2 (.connect 3 6 564 true) w3 := Step.connect _ _ _ _ _
  have hin := hall .small w3 _ (((Reach.start.next h1).next h2).next h3) ⟨.link,slot0,1⟩
    List.mem_cons_self (by decide : 1 < 2) (by decide : 2 < 1+2^32)
  exact link_acts rfl rfl rfl hin

end LugalOS.Tcp
