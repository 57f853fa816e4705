import LugalOS.Tcp.Conn

namespace LugalOS.Tcp

open CString LittleEndian Buffer Run

/-- A connection with the bytes it handed to the application and the bytes it took from it. -/
structure Life where
  io : Io
  taken : Bytes := []
  written : Bytes := []

/-- What is done with a connection's slot under the stack's lock. -/
inductive Call where
  | input (now : Nat) (seg : Segment)
  | linkRecv (maxLen : UInt32)
  | linkSend (buf : Bytes)
  | linkClose (now : Nat)
  /-- The 9P server changed the link's protected session. -/
  | session (prot : Option P9.P9Prot)
  | streamRead (max : UInt32)
  | streamWrite (buf : Bytes)
  | streamClose (now : Nat)
  | accepted
  | timers (now : Nat)
  | servedP9
  | spartan (now : Nat) (consumed : UInt32) (reply : Bytes) (closeAfter : Bool)
  | tail (now : Nat)

/-- Who may call: the slot is live, links have one face and streams the other, and the Spartan
server answers a connection it may serve, with a reply that fits. -/
def Call.Legal (b : Board) (c : Conn) : Call → Prop
  | .input _ _ | .timers _ | .servedP9 | .tail _ => c.inUse=true
  | .linkRecv _ | .linkSend _ | .linkClose _ | .session _ => c.inUse=true ∧ c.isStream=false
  | .streamRead _ | .streamWrite _ | .streamClose _ | .accepted => c.inUse=true ∧ c.isStream=true
  | .spartan _ consumed reply _ => c.inUse=true ∧ c.serves=true ∧ consumed≤c.rxLen ∧
      reply.length≤b.maxMsize

def Life.setConn (l : Life) (c : Conn) : Life := {l with io := {l.io with conn := c}}

/-- The bytes a send call took: the first n if it answered n. -/
def sentBytes (buf : Bytes) (r : Int) : Bytes := buf.take r.toNat

def Life.call (b : Board) (l : Life) : Call → Life
  | .input now seg => {l with io := tcpInput b now seg l.io}
  | .linkRecv maxLen =>
    let r := linkRecvFrame maxLen l.io.conn
    {l.setConn r.2 with taken := l.taken++r.1.getD []}
  | .linkSend buf =>
    let r := linkSendFrame b buf l.io.conn
    {l.setConn r.2 with written := l.written++sentBytes buf r.1}
  | .linkClose now => {l with io := tcpClose b now l.io}
  | .session prot =>
    let link := {l.io.conn.link with prot := prot}
    l.setConn {l.io.conn with link := link}
  | .streamRead max =>
    let r := tcpStreamRead b max l.io.conn
    {l.setConn r.2 with taken := l.taken++r.1}
  | .streamWrite buf =>
    let r := tcpStreamWrite b buf l.io.conn
    {l.setConn r.2 with written := l.written++sentBytes buf r.1}
  | .streamClose now => {l with io := tcpStreamClose b now l.io}
  | .accepted => l.setConn {l.io.conn with acceptPending := false}
  | .timers now => {l with io := (serviceTimers b now l.io).1}
  | .servedP9 => {l with io := (serviceP9 b l.io).1}
  | .spartan now consumed reply closeAfter =>
    {l with
      io := serviceSpartan b now consumed reply closeAfter l.io,
      taken := l.taken++memRead l.io.conn.rx 0 consumed.toNat, written := l.written++reply}
  | .tail now => {l with io := serviceTail b now l.io}

/-- The calls on one connection that meet ok, in any order, as long as it lives. -/
inductive LifeStep (b : Board) (ok : Life → Call → Prop) : Life → Call → Life → Prop
  | call (l : Life) (k : Call) : k.Legal b l.io.conn → ok l k → LifeStep b ok l k (l.call b k)

theorem Call.Legal.inUse {b : Board} {c : Conn} {k : Call} (h : k.Legal b c) : c.inUse=true := by
  cases k <;> first | exact h | exact h.1

theorem LifeStep.legal {b : Board} {ok : Life → Call → Prop} {l l' : Life} {k : Call}
    (h : LifeStep b ok l k l') : k.Legal b l.io.conn ∧ ok l k := by
  cases h with
  | call hl hok => exact ⟨hl,hok⟩

theorem LifeStep.result {b : Board} {ok : Life → Call → Prop} {l l' : Life} {k : Call}
    (h : LifeStep b ok l k l') : l.call b k=l' := by
  cases h with
  | call => rfl

/-- A connection just accepted or dialled: its first segment is out. -/
inductive Born (b : Board) : Life → Prop
  | accepted (now : Nat) (c : Conn) (peerIp : UInt32) (sport dport : UInt16) (seg : Segment)
      (iss : UInt32) (stream : Bool) :
      Born b ⟨connStartSyn b now {syn := true, ack := true}
        ⟨synConn c peerIp sport dport seg iss stream,[]⟩,[],[]⟩
  | dialled (now : Nat) (c : Conn) (peerIp : UInt32) (port localPort : UInt16) (iss : UInt32)
      (stream : Bool) :
      Born b ⟨connStartSyn b now {syn := true}
        ⟨dialConn c peerIp port localPort iss stream,[]⟩,[],[]⟩

/-- Our own close from ESTABLISHED or CLOSE_WAIT. -/
def Closes (s s' : TcpState) : Prop := s=.established ∧ s'=.finWait1 ∨ s=.closeWait ∧ s'=.lastAck

section
variable (b : Board)

/-- Sending touches the send side's numbers and timer only. -/
def Quiet (c c' : Conn) : Prop :=
  ∃nxt at' ms re na fs,c'={c with
    sndNxt := nxt, rtoAtMs := at', rtoMs := ms, retries := re, needAck := na, finSent := fs}

variable {b}

theorem Quiet.refl (c : Conn) : Quiet c c := ⟨_,_,_,_,_,_,rfl⟩

theorem Quiet.trans {c c' c'' : Conn} (h : Quiet c c') (h' : Quiet c' c'') : Quiet c c'' := by
  obtain ⟨_,_,_,_,_,_,rfl⟩ := h
  obtain ⟨_,_,_,_,_,_,rfl⟩ := h'
  exact ⟨_,_,_,_,_,_,rfl⟩

theorem quiet_emit (f : Flags) (seq : UInt32) (d : Bytes) (m : Bool) (io : Io) :
    Quiet io.conn (tcpEmit b f seq d m io).conn := ⟨_,_,_,_,_,_,rfl⟩

theorem quiet_armRto (now : Nat) (c : Conn) : Quiet c (armRto now c) := by
  unfold armRto
  split_ifs
  · exact ⟨_,_,_,_,_,_,rfl⟩
  · exact Quiet.refl c

theorem quiet_sendChunk (now : Nat) (offset chunk : UInt32) (io : Io) :
    Quiet io.conn (sendChunk b now offset chunk io).conn :=
  Quiet.trans ⟨_,_,_,_,_,_,rfl⟩ (quiet_armRto now _)

theorem quiet_transmitLoop (now n : Nat) (inFlight offset : UInt32) (io : Io) :
    Quiet io.conn (transmitLoop b now n inFlight offset io).conn := by
  induction n generalizing inFlight offset io with
  | zero => exact Quiet.refl _
  | succ n ih =>
    unfold transmitLoop
    dsimp only
    split_ifs
    · exact Quiet.refl _
    · exact (quiet_sendChunk now _ _ io).trans (ih _ _ _)

theorem quiet_transmit (now : Nat) (io : Io) : Quiet io.conn (tcpTransmit b now io).conn := by
  unfold tcpTransmit
  dsimp only
  split_ifs
  · exact (quiet_transmitLoop now _ _ _ io).trans (quiet_emit _ _ _ _ _)
  · exact quiet_transmitLoop now _ _ _ io

theorem quiet_retransmit (now : Nat) (io : Io) : Quiet io.conn (tcpRetransmit b now io).conn := by
  unfold tcpRetransmit
  dsimp only
  split_ifs <;> exact ⟨_,_,_,_,_,_,rfl⟩

theorem quiet_sendFin (now : Nat) (io : Io) : Quiet io.conn (sendFin b now io).conn := by
  unfold sendFin
  exact Quiet.trans ⟨_,_,_,_,_,_,rfl⟩ (quiet_armRto now _)

end

def tcpMaxConns : Nat := 4
def tcpMaxListeners : Nat := 4
def tcpHdrMin : Nat := 20
def ipProtoTcp : Nat := 6

def rd16 (p : Bytes) (o : Nat) : Nat := (p.getD o 0).toNat*256+(p.getD (o+1) 0).toNat

def rd32 (p : Bytes) (o : Nat) : UInt32 := (rd16 p o*65536+rd16 p (o+2)).toUInt32

/-- The carries of a ones' complement sum. -/
def foldCarry (sum : Nat) : Nat :=
  if sum < 65536 then sum else foldCarry (sum%65536+sum/65536)
termination_by sum
decreasing_by omega

/-- The 16-bit words of a segment, an odd last byte first in its word. -/
def wordSum : Bytes → Nat
  | [] => 0
  | [x] => x.toNat*256
  | x::y::rest => x.toNat*256+y.toNat+wordSum rest

def tcpChecksum (src dst : UInt32) (seg : Bytes) : Nat :=
  65535-foldCarry (src.toNat/65536+src.toNat%65536+dst.toNat/65536+dst.toNat%65536+
    ipProtoTcp+seg.length+wordSum seg)

/-- parse_mss: the options from o on, each turn at least one byte. -/
def parseMss (seg : Bytes) (hdrLen : Nat) : Nat → Nat → Nat
  | 0,_ => 0
  | n+1,o =>
    if o+1 < hdrLen then
      let kind := (seg.getD o 0).toNat
      if kind=0 then 0
      else if kind=1 then parseMss seg hdrLen n (o+1)
      else
        let olen := (seg.getD (o+1) 0).toNat
        if olen < 2 ∨ hdrLen < o+olen then 0
        else if kind=2 ∧ olen=4 then rd16 seg (o+2)
        else parseMss seg hdrLen n (o+olen)
    else 0

def flagsOf (f : UInt8) : Flags :=
  {fin := f&&&1≠0, syn := f&&&2≠0, rst := f&&&4≠0, psh := f&&&8≠0, ack := f&&&16≠0}

/-- The header of a segment: its ports and the rest. -/
def parseSegment (src ip : UInt32) (seg : Bytes) : Option (UInt16×UInt16×Segment) :=
  if seg.length < tcpHdrMin then none
  else
    let hdrLen := (seg.getD 12 0).toNat/16*4
    if hdrLen < tcpHdrMin ∨ seg.length < hdrLen then none
    else if tcpChecksum src ip seg≠0 then none
    else some ((rd16 seg 0).toUInt16,(rd16 seg 2).toUInt16,
      { flags := flagsOf (seg.getD 13 0), seq := rd32 seg 4, ack := rd32 seg 8,
        wnd := (rd16 seg 14).toUInt32, mss := (parseMss seg hdrLen hdrLen tcpHdrMin).toUInt32,
        data := seg.drop hdrLen})

/-- A segment on its way to a peer. -/
structure Packet where
  peerIp : UInt32
  localPort : UInt16
  peerPort : UInt16
  seg : Emitted

structure Table where
  conns : Fin tcpMaxConns → Conn := fun _ => {}
  ip : UInt32 := 0
  listenPorts : List UInt16 := []
  streamPorts : List UInt16 := []
  issCounter : UInt32 := 0x1000
  ephemeral : UInt32 := 0
  out : List Packet := []

section
variable (b : Board)

/-- A function on the connection of slot i. -/
def Table.on (t : Table) (i : Fin tcpMaxConns) (f : Io → Io) : Table :=
  let c := t.conns i
  let io := f ⟨c,[]⟩
  {t with
    conns := Function.update t.conns i io.conn
    out := t.out++io.out.map fun e => ⟨c.peerIp,c.localPort,c.peerPort,e⟩}

def findConn (t : Table) (src : UInt32) (sport dport : UInt16) : Option (Fin tcpMaxConns) :=
  (List.finRange tcpMaxConns).find? fun i =>
    (t.conns i).inUse ∧ (t.conns i).peerPort=sport ∧ (t.conns i).localPort=dport ∧
      (t.conns i).peerIp=src

def freeConn (t : Table) : Option (Fin tcpMaxConns) :=
  (List.finRange tcpMaxConns).find? fun i => !(t.conns i).inUse

/-- The states in which a slot may be taken from its connection, first choice first. -/
def recycleOrder : List TcpState := [.timeWait,.finWait2,.finWait1,.lastAck,.closing,.closeWait]

def recyclable (c : Conn) (s : TcpState) : Bool :=
  c.inUse ∧ c.state=s ∧ ¬(c.isStream ∧ (s=.closeWait ∨ s=.finWait1 ∨ s=.finWait2))

def recycleFinished (t : Table) : Option (Fin tcpMaxConns×Table) :=
  (recycleOrder.findSome? fun s =>
    (List.finRange tcpMaxConns).find? fun i => recyclable (t.conns i) s).map
      fun i => (i,t.on i (connAbort b))

def acquire (t : Table) : Option (Fin tcpMaxConns×Table) :=
  match freeConn t with
  | some i => some (i,t)
  | none => recycleFinished b t

/-- A reset for a segment that belongs to no connection. -/
def tcpResetStray (src : UInt32) (sport dport : UInt16) (seg : Segment) (dataLen : UInt32)
    (t : Table) : Table :=
  if seg.flags.rst then t
  else
    let e : Emitted :=
      if seg.flags.ack then ⟨{rst := true},seg.ack,0,0,false,[]⟩
      else ⟨{rst := true, ack := true},0,
        seg.seq+dataLen+(if seg.flags.syn ∨ seg.flags.fin then 1 else 0),0,false,[]⟩
    {t with out := t.out++[⟨src,dport,sport,e⟩]}

/-- The slot of the connection that a SYN opened, if it did. -/
def acceptSyn (now : Nat) (src : UInt32) (sport dport : UInt16) (seg : Segment) (stream : Bool)
    (t : Table) : Table×Option (Fin tcpMaxConns) :=
  match acquire b t with
  | none => (tcpResetStray src sport dport seg 0 t,none)
  | some (i,t) =>
    let c := synConn (t.conns i) src sport dport seg t.issCounter stream
    let t := {t with
      conns := Function.update t.conns i c, issCounter := t.issCounter+0x10000+now.toUInt32}
    (t.on i (connStartSyn b now {syn := true, ack := true}),some i)

/-- tcp_input on a segment of the wire. -/
def Table.input (now : Nat) (src : UInt32) (seg : Bytes) (t : Table) :
    Table×Option (Fin tcpMaxConns) :=
  match parseSegment src t.ip seg with
  | none => (t,none)
  | some (sport,dport,seg) =>
    match findConn t src sport dport with
    | some i => (t.on i (tcpInput b now seg),none)
    | none =>
      let streamMatch := t.streamPorts.contains dport
      let portMatch := t.listenPorts.contains dport || streamMatch
      if seg.flags.syn ∧ !seg.flags.ack ∧ portMatch then
        acceptSyn b now src sport dport seg streamMatch t
      else (tcpResetStray src sport dport seg seg.data.length.toUInt32 t,none)

/-- conn_dial and what its callers add; ready says that the network and the buffers are there. -/
def connDial (now : Nat) (ip : UInt32) (port : UInt16) (stream ready : Bool) (t : Table) :
    Table×Option (Fin tcpMaxConns) :=
  if !ready ∨ port=0 then (t,none)
  else
    match acquire b t with
    | none => (t,none)
    | some (i,t) =>
      let localPort := (49152+(t.ephemeral&&&0x3fff)).toUInt16
      let c := dialConn (t.conns i) ip port localPort t.issCounter stream
      let t := {t with
        conns := Function.update t.conns i c, issCounter := t.issCounter+0x10000+now.toUInt32,
        ephemeral := t.ephemeral+1}
      (t.on i (connStartSyn b now {syn := true}),some i)

def listenOn (port : UInt16) (ports : List UInt16) : List UInt16 :=
  if port=0 ∨ ports.contains port ∨ tcpMaxListeners≤ports.length then ports else ports++[port]

/-- What an entry point gives back. -/
structure Answer where
  code : Int
  data : Bytes := []
  deriving DecidableEq

inductive LinkOp where
  | poll
  | recv (maxLen : UInt32)
  | send (buf : Bytes)
  | ready
  | close (now : Nat)

/-- The answer when link_conn finds nothing; tcp_close has none. -/
def LinkOp.refused : LinkOp → Answer
  | .close _ => ⟨0,[]⟩
  | _ => ⟨-1,[]⟩

def LinkOp.run (io : Io) : LinkOp → Io×Answer
  | .poll => (io,⟨linkPoll b io.conn,[]⟩)
  | .recv maxLen =>
    let r := linkRecvFrame maxLen io.conn
    ({io with conn := r.2},⟨r.1.elim (-1) fun f => f.length,r.1.getD []⟩)
  | .send buf =>
    let r := linkSendFrame b buf io.conn
    ({io with conn := r.2},⟨r.1,[]⟩)
  | .ready => (io,⟨tcpLinkReady io.conn,[]⟩)
  | .close now => (tcpClose b now io,⟨0,[]⟩)

/-- link_conn on the link of slot i. -/
def linkConn (t : Table) (i : Fin tcpMaxConns) : Option (Fin tcpMaxConns) :=
  if (t.conns i).linkCtx≠(t.conns i).epoch then none else some i

def Table.linkOp (t : Table) (link : Fin tcpMaxConns) (op : LinkOp) : Table×Answer :=
  match linkConn t link with
  | none => (t,op.refused)
  | some i => (t.on i fun io => (op.run b io).1,(op.run b ⟨t.conns i,[]⟩).2)

/-- `tcp_stream_t`. -/
structure Stream where
  index : Nat
  epoch : UInt32
  isOpen : Bool

inductive StreamOp where
  | ready
  | read (max : UInt32)
  | writable
  | write (buf : Bytes)
  | peerClosed
  | close (now : Nat)

/-- The answer when stream_conn finds nothing. -/
def StreamOp.refused : StreamOp → Answer
  | .ready | .read _ | .write _ => ⟨-1,[]⟩
  | .writable | .close _ => ⟨0,[]⟩
  | .peerClosed => ⟨1,[]⟩

def StreamOp.run (io : Io) : StreamOp → Io×Answer
  | .ready => (io,⟨tcpStreamReady io.conn,[]⟩)
  | .read max =>
    let r := tcpStreamRead b max io.conn
    ({io with conn := r.2},⟨r.1.length,r.1⟩)
  | .writable => (io,⟨tcpStreamWritable b io.conn,[]⟩)
  | .write buf =>
    let r := tcpStreamWrite b buf io.conn
    ({io with conn := r.2},⟨r.1,[]⟩)
  | .peerClosed => (io,⟨if tcpStreamPeerClosed io.conn then 1 else 0,[]⟩)
  | .close now => (tcpStreamClose b now io,⟨0,[]⟩)

def streamConn (t : Table) (s : Stream) : Option (Fin tcpMaxConns) :=
  if h : s.isOpen=true ∧ s.index < tcpMaxConns then
    let i : Fin tcpMaxConns := ⟨s.index,h.2⟩
    if !(t.conns i).inUse ∨ !(t.conns i).isStream ∨ (t.conns i).epoch≠s.epoch then none else some i
  else none

def Table.streamOp (t : Table) (s : Stream) (op : StreamOp) : Table×Answer :=
  match streamConn t s with
  | none => (t,op.refused)
  | some i => (t.on i fun io => (op.run b io).1,(op.run b ⟨t.conns i,[]⟩).2)

/-- The first connection on a port that is there and not taken. -/
def tcpStreamAccept (port : UInt16) (t : Table) : Table×Option (Fin tcpMaxConns) :=
  let found := (List.finRange tcpMaxConns).find? fun i =>
    let c := t.conns i
    c.inUse ∧ c.isStream ∧ c.acceptPending ∧ c.localPort=port ∧
      (c.state=.established ∨ c.state=.closeWait)
  match found with
  | none => (t,none)
  | some i => (t.on i fun io => {io with conn := {io.conn with acceptPending := false}},some i)

end

end LugalOS.Tcp
