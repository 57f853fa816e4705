import LugalOS.Lib.Buffer
import LugalOS.P9.Protect

namespace LugalOS.Tcp

open CString LittleEndian Buffer

/-- The msize a board is built with. -/
inductive Board where
  | small
  | large

/-- P9_MAX_MSIZE. -/
def Board.maxMsize : Board → Nat
  | .small => 2048
  | .large => 4096

def tcpOurMss : UInt32 := 1460
def tcpDefaultMss : UInt32 := 536
def tcpRtoInitialMs : Nat := 300
def tcpRtoMaxMs : Nat := 4800
def tcpMaxRetries : Nat := 6
def tcpTimeWaitMs : Nat := 2000
def tcpKaIdleMs : Nat := 60000
def tcpKaIntervalMs : Nat := 10000
def tcpKaProbes : Nat := 3

inductive TcpState where
  | closed | listen | synSent | synReceived | established | finWait1 | finWait2 | closeWait
  | closing | lastAck | timeWait
  deriving DecidableEq

structure Flags where
  fin : Bool := false
  syn : Bool := false
  rst : Bool := false
  psh : Bool := false
  ack : Bool := false
  deriving DecidableEq

/-- A received segment. mss is what parse_mss finds, 0 for none. -/
structure Segment where
  flags : Flags
  seq : UInt32
  ack : UInt32
  wnd : UInt32
  mss : UInt32 := 0
  data : Bytes := []

/-- A segment tcp_emit hands to ip_send. -/
structure Emitted where
  flags : Flags
  seq : UInt32
  ack : UInt32
  wnd : UInt32
  withMss : Bool
  data : Bytes
  deriving DecidableEq

/-- `tcp_conn_t`. Clocks count milliseconds from boot. -/
structure Conn where
  inUse : Bool := false
  state : TcpState := .closed
  peerIp : UInt32 := 0
  localPort : UInt16 := 0
  peerPort : UInt16 := 0
  sndUna : UInt32 := 0
  sndNxt : UInt32 := 0
  sndWnd : UInt32 := 0
  rcvNxt : UInt32 := 0
  peerMss : UInt32 := 0
  rx : Nat → UInt8 := fun _ => 0
  rxLen : UInt32 := 0
  rxHead : UInt32 := 0
  tx : Nat → UInt8 := fun _ => 0
  txLen : UInt32 := 0
  txSeq : UInt32 := 0
  rtoAtMs : Nat := 0
  rtoMs : Nat := 0
  retries : Nat := 0
  timeWaitAtMs : Nat := 0
  lastRxMs : Nat := 0
  kaProbes : Nat := 0
  finSent : Bool := false
  needAck : Bool := false
  isClient : Bool := false
  isStream : Bool := false
  acceptPending : Bool := false
  closePending : Bool := false
  epoch : UInt32 := 0
  link : P9.P9Link := {protGet := false, authRequired := false}
  /-- `link.ctx`. -/
  linkCtx : UInt32 := 0

/-- A connection and what it has sent, oldest first. -/
structure Io where
  conn : Conn
  out : List Emitted := []

def seqLt (a b : UInt32) : Bool := (a-b).toInt32 < 0
def seqLeq (a b : UInt32) : Bool := (a-b).toInt32≤0
def seqGt (a b : UInt32) : Bool := 0 < (a-b).toInt32

section
variable (b : Board)

def rcvWindow (c : Conn) : UInt32 :=
  if c.isStream then b.maxMsize.toUInt32-(c.rxLen-c.rxHead) else b.maxMsize.toUInt32-c.rxLen

def tcpEmit (flags : Flags) (seq : UInt32) (data : Bytes) (withMss : Bool) (io : Io) : Io :=
  let c := {io.conn with needAck := false}
  let wnd := if 0xffff < rcvWindow b c then 0xffff else rcvWindow b c
  {conn := c, out := io.out++[⟨flags,seq,c.rcvNxt,wnd,withMss,data⟩]}

def connRelease (c : Conn) : Conn :=
  {c with
    link := {c.link with prot := none}, inUse := false, state := .closed, epoch := c.epoch+1,
    rxLen := 0, rxHead := 0, txLen := 0, closePending := false, rtoAtMs := 0, lastRxMs := 0,
    kaProbes := 0, finSent := false, needAck := false}

def connAbort (io : Io) : Io :=
  let c := io.conn
  let io := if c.state=.established ∨ c.state=.closeWait ∨ c.state=.synReceived ∨
      c.state=.finWait1 ∨ c.state=.finWait2 then
    tcpEmit b {rst := true} c.sndNxt [] false io else io
  {io with conn := connRelease io.conn}

/-- The retransmission timer started by a first transmission. -/
def armRto (now : Nat) (c : Conn) : Conn :=
  if c.rtoAtMs=0 then
    {c with rtoMs := tcpRtoInitialMs, rtoAtMs := now+tcpRtoInitialMs, retries := 0}
  else c

/-- How much of the send buffer goes out next: 0 when all is sent or the window is closed. -/
def nextChunk (c : Conn) (inFlight offset : UInt32) : UInt32 :=
  if ¬offset<c.txLen then 0
  else
    let usable := if inFlight<c.sndWnd then c.sndWnd-inFlight else 0
    let chunk := c.txLen-offset
    let chunk := if c.peerMss<chunk then c.peerMss else chunk
    if usable<chunk then usable else chunk

def sendChunk (now : Nat) (offset chunk : UInt32) (io : Io) : Io :=
  let io := tcpEmit b {ack := true, psh := true} io.conn.sndNxt
    (memRead io.conn.tx offset.toNat chunk.toNat) false io
  {io with conn := armRto now {io.conn with sndNxt := io.conn.sndNxt+chunk}}

/-- The loop of tcp_transmit; a turn takes at least one byte, so held bytes are fuel enough. -/
def transmitLoop (now : Nat) : Nat → UInt32 → UInt32 → Io → Io
  | 0,_,_,io => io
  | n+1,inFlight,offset,io =>
    let chunk := nextChunk io.conn inFlight offset
    if chunk=0 then io
    else transmitLoop now n (inFlight+chunk) (offset+chunk) (sendChunk b now offset chunk io)

def tcpTransmit (now : Nat) (io : Io) : Io :=
  let c := io.conn
  let io := transmitLoop b now c.txLen.toNat (c.sndNxt-c.sndUna) (c.sndNxt-c.txSeq) io
  if io.conn.needAck then tcpEmit b {ack := true} io.conn.sndNxt [] false io else io

def tcpRetransmit (now : Nat) (io : Io) : Io :=
  let c := io.conn
  let offset := c.sndUna-c.txSeq
  let io :=
    if offset<c.txLen then
      let chunk := c.txLen-offset
      let chunk := if c.peerMss<chunk then c.peerMss else chunk
      tcpEmit b {ack := true, psh := true} c.sndUna (memRead c.tx offset.toNat chunk.toNat) false io
    else if c.finSent then tcpEmit b {ack := true, fin := true} c.sndUna [] false io
    else if c.state=.synReceived then tcpEmit b {syn := true, ack := true} c.sndUna [] true io
    else if c.state=.synSent then tcpEmit b {syn := true} c.sndUna [] true io
    else io
  let c := io.conn
  let rto := if tcpRtoMaxMs < c.rtoMs*2 then tcpRtoMaxMs else c.rtoMs*2
  {io with conn := {c with rtoMs := rto, rtoAtMs := now+rto, retries := c.retries+1}}

def sendFin (now : Nat) (io : Io) : Io :=
  let io := {io with conn := {io.conn with finSent := true}}
  let io := tcpEmit b {ack := true, fin := true} io.conn.sndNxt [] false io
  {io with conn := armRto now {io.conn with sndNxt := io.conn.sndNxt+1}}

def clampMss (mss : UInt32) : UInt32 :=
  let m := if mss≠0 then mss else tcpDefaultMss
  if tcpOurMss < m then tcpOurMss else m

/-- The slot accept_syn fills for a SYN, before the SYN-ACK goes out. -/
def synConn (c : Conn) (peerIp : UInt32) (sport dport : UInt16) (seg : Segment) (iss : UInt32)
    (stream : Bool) : Conn :=
  let c : Conn :=
    { epoch := c.epoch, inUse := true, state := .synReceived, peerIp := peerIp, peerPort := sport,
      localPort := dport, rx := c.rx, tx := c.tx, peerMss := clampMss seg.mss,
      rcvNxt := seg.seq+1, sndUna := iss, sndNxt := iss, sndWnd := seg.wnd}
  if stream then {c with isStream := true, acceptPending := true}
  else {c with link := {protGet := true}, linkCtx := c.epoch}

/-- The slot conn_dial fills, with the face its caller installs. -/
def dialConn (c : Conn) (peerIp : UInt32) (port localPort : UInt16) (iss : UInt32)
    (stream : Bool) : Conn :=
  let c : Conn :=
    { epoch := c.epoch, inUse := true, isClient := true, state := .synSent, peerIp := peerIp,
      peerPort := port, localPort := localPort, rx := c.rx, tx := c.tx, peerMss := tcpDefaultMss,
      sndUna := iss, sndNxt := iss, sndWnd := tcpOurMss}
  if stream then {c with isStream := true}
  else {c with link := {protGet := false}, linkCtx := c.epoch}

/-- The first segment of a connection, SYN or SYN-ACK, and its timer. -/
def connStartSyn (now : Nat) (flags : Flags) (io : Io) : Io :=
  let io := tcpEmit b flags io.conn.sndNxt [] true io
  {io with conn := {io.conn with
    sndNxt := io.conn.sndNxt+1, rtoMs := tcpRtoInitialMs, rtoAtMs := now+tcpRtoInitialMs,
    retries := 0}}

/-- A SYN_SENT connection takes the SYN-ACK of its SYN and nothing else. -/
def inputSynSent (seg : Segment) (io : Io) : Io :=
  let c := io.conn
  if !seg.flags.syn then io
  else if !seg.flags.ack then io
  else if seg.ack≠c.sndNxt then connAbort b io
  else
    let c := {c with
      sndUna := seg.ack, rcvNxt := seg.seq+1, sndWnd := seg.wnd, peerMss := clampMss seg.mss,
      state := .established, rtoAtMs := 0, retries := 0}
    tcpEmit b {ack := true} c.sndNxt [] false {io with conn := c}

/-- The acknowledged prefix leaves the send buffer. -/
def dropAcked (ack : UInt32) (c : Conn) : Conn :=
  let acked := if c.txLen≠0 ∧ seqGt ack c.txSeq then ack-c.txSeq else 0
  if c.txLen≤acked then {c with txLen := 0}
  else if acked≠0 then
    {c with
      tx := memShift c.tx acked.toNat (c.txLen-acked).toNat, txLen := c.txLen-acked,
      txSeq := c.txSeq+acked}
  else c

/-- The ACK field. Here and below `.error` is where tcp_input returns. -/
def inputAck (now : Nat) (seg : Segment) (io : Io) : Except Io Io :=
  let c := io.conn
  if !seg.flags.ack then .ok io
  else if seqGt seg.ack c.sndNxt then
    .error (tcpEmit b {ack := true} c.sndNxt [] false io)
  else if seqGt seg.ack c.sndUna then
    let c := dropAcked seg.ack {c with sndUna := seg.ack, retries := 0}
    let c := if c.sndUna=c.sndNxt then {c with rtoAtMs := 0}
      else {c with rtoAtMs := now+tcpRtoInitialMs, rtoMs := tcpRtoInitialMs}
    .ok {io with conn := c}
  else .ok io

/-- What an acknowledgement of everything sent does to the state. -/
def inputState (now : Nat) (seg : Segment) (io : Io) : Except Io Io :=
  let c := io.conn
  match c.state with
  | .synReceived =>
    if !seg.flags.ack then .error io
    else if seqLt c.sndUna c.sndNxt then .error io
    else .ok {io with conn := {c with state := .established}}
  | .finWait1 =>
    .ok (if c.finSent ∧ c.sndUna=c.sndNxt then {io with conn := {c with state := .finWait2}} else io)
  | .lastAck => if c.sndUna=c.sndNxt then .error {io with conn := connRelease c} else .ok io
  | .closing =>
    .ok (if c.sndUna=c.sndNxt then
      {io with conn := {c with state := .timeWait, timeWaitAtMs := now+tcpTimeWaitMs}} else io)
  | _ => .ok io

/-- In-order bytes go behind the ones held, for a stream in up to two pieces. -/
def accept (data : Bytes) (c : Conn) : Conn :=
  if c.isStream then
    let off := c.rxLen.toNat%b.maxMsize
    let first := min (b.maxMsize-off) data.length
    {c with
      rx := patch (patch c.rx off (data.take first)) 0 (data.drop first),
      rxLen := c.rxLen+data.length.toUInt32, rcvNxt := c.rcvNxt+data.length.toUInt32}
  else
    {c with
      rx := patch c.rx c.rxLen.toNat data, rxLen := c.rxLen+data.length.toUInt32,
      rcvNxt := c.rcvNxt+data.length.toUInt32}

/-- In-order data that fits is taken, and the peer will hear of it. -/
def takeData (data : Bytes) (c : Conn) : Conn :=
  let c := if data=[] then c else accept b data c
  {c with needAck := true}

/-- The data of a segment, cut to the window; the length is what the FIN test sees. -/
def inputData (seg : Segment) (io : Io) : Except Io (Io×UInt32) :=
  let c := io.conn
  if seg.data=[] ∧ !seg.flags.syn ∧ !seg.flags.fin ∧ seqLt seg.seq c.rcvNxt ∧
      (c.state=.established ∨ c.state=.closeWait ∨ c.state=.finWait1 ∨ c.state=.finWait2) then
    .error (tcpEmit b {ack := true} c.sndNxt [] false io)
  else if seg.data=[] then .ok (io,0)
  else if seg.seq≠c.rcvNxt then .error (tcpEmit b {ack := true} c.sndNxt [] false io)
  else
    let data := seg.data.take (rcvWindow b c).toNat
    .ok ({io with conn := takeData b data c},data.length.toUInt32)

def inputFin (now : Nat) (seg : Segment) (dataLen : UInt32) (io : Io) : Io :=
  let c := io.conn
  if seg.flags.fin ∧ seg.seq+dataLen=c.rcvNxt then
    let c := {c with rcvNxt := c.rcvNxt+1, needAck := true}
    match c.state with
    | .established => {io with conn := {c with state := .closeWait}}
    | .finWait1 => {io with conn := {c with state := .closing}}
    | .finWait2 =>
      {io with conn := {c with state := .timeWait, timeWaitAtMs := now+tcpTimeWaitMs}}
    | _ => {io with conn := c}
  else io

/-- tcp_input from the data on. -/
def inputTail (now : Nat) (seg : Segment) (io : Io) : Io :=
  match inputData b seg io with
  | .error io => io
  | .ok (io,dataLen) => tcpTransmit b now (inputFin now seg dataLen io)

/-- tcp_input on a segment of a connection it found. -/
def tcpInput (now : Nat) (seg : Segment) (io : Io) : Io :=
  let c := {io.conn with lastRxMs := now, kaProbes := 0}
  let io := {io with conn := c}
  if seg.flags.rst then
    if seg.seq=c.rcvNxt ∨
        (seqLeq c.rcvNxt seg.seq ∧ seqLt seg.seq (c.rcvNxt+rcvWindow b c)) then
      {io with conn := connRelease c}
    else io
  else if c.state=.synSent then inputSynSent b seg io
  else
    match inputAck b now seg io with
    | .error io => io
    | .ok io =>
      match inputState now seg {io with conn := {io.conn with sndWnd := seg.wnd}} with
      | .error io => io
      | .ok io => inputTail b now seg io

def framedLen (c : Conn) : UInt32 :=
  if c.rxLen<4 then 0
  else
    let n := (c.rx 0).toUInt32 ||| ((c.rx 1).toUInt32<<<8) ||| ((c.rx 2).toUInt32<<<16) |||
      ((c.rx 3).toUInt32<<<24)
    if c.link.protState=.active then n+P9.p9TagLen else n

def linkPoll (c : Conn) : Int :=
  if !c.inUse then -1
  else
    let declared := framedLen c
    if declared=0 then 0
    else if declared<7 ∨ b.maxMsize.toUInt32 < declared then -1
    else if declared≤c.rxLen then 1 else 0

def linkRecvFrame (maxLen : UInt32) (c : Conn) : Option Bytes×Conn :=
  let declared := framedLen c
  if !c.inUse then (none,c)
  else if declared<7 ∨ maxLen<declared ∨ c.rxLen<declared then (none,c)
  else
    (some (memRead c.rx 0 declared.toNat),
      {c with
        rx := memShift c.rx declared.toNat (c.rxLen-declared).toNat, rxLen := c.rxLen-declared,
        needAck := true})

def linkSendFrame (buf : Bytes) (c : Conn) : Int×Conn :=
  if !c.inUse ∨ buf.length=0 ∨ b.maxMsize<buf.length then (-1,c)
  else if c.txLen≠0 then (-1,c)
  else
    (buf.length,{c with tx := patch c.tx 0 buf, txLen := buf.length.toUInt32, txSeq := c.sndNxt})

def tcpLinkReady (c : Conn) : Int :=
  if !c.inUse then -1
  else if c.state=.established then 1
  else if c.state=.synSent ∨ c.state=.synReceived then 0
  else -1

def tcpClose (now : Nat) (io : Io) : Io :=
  if !io.conn.inUse then io
  else if io.conn.state=.established then
    let io := sendFin b now io
    {io with conn := {io.conn with state := .finWait1}}
  else if io.conn.state=.closeWait then
    let io := sendFin b now io
    {io with conn := {io.conn with state := .lastAck}}
  else connAbort b io

def tcpStreamReady (c : Conn) : Int :=
  if c.state=.established ∨ c.state=.closeWait then 1
  else if c.state=.synSent then 0
  else -1

def tcpStreamRead (max : UInt32) (c : Conn) : Bytes×Conn :=
  let avail := c.rxLen-c.rxHead
  if avail=0 then ([],c)
  else
    let n := if avail < max then avail.toNat else max.toNat
    let off := c.rxHead.toNat%b.maxMsize
    let first := min (b.maxMsize-off) n
    (memRead c.rx off first++memRead c.rx 0 (n-first),
      {c with rxHead := c.rxHead+n.toUInt32, needAck := true})

def tcpStreamWritable (c : Conn) : Nat :=
  if c.state≠.established ∧ c.state≠.closeWait then 0
  else if c.txLen≠0 then 0 else b.maxMsize

def tcpStreamWrite (buf : Bytes) (c : Conn) : Int×Conn :=
  if c.state≠.established ∧ c.state≠.closeWait then (if c.state=.synSent then 0 else -1,c)
  else if buf.length=0 then (0,c)
  else if c.txLen≠0 then (0,c)
  else
    let buf := buf.take b.maxMsize
    (buf.length,{c with tx := patch c.tx 0 buf, txLen := buf.length.toUInt32, txSeq := c.sndNxt})

def tcpStreamPeerClosed (c : Conn) : Bool :=
  c.state=.closeWait ∨ c.state=.lastAck ∨ c.state=.closing ∨ c.state=.timeWait

def tcpStreamClose (now : Nat) (io : Io) : Io :=
  let c := io.conn
  if c.txLen≠0 ∧ (c.state=.established ∨ c.state=.closeWait) then
    {io with conn := {c with closePending := true}}
  else if c.state=.established then
    let io := sendFin b now io
    {io with conn := {io.conn with state := .finWait1}}
  else if c.state=.closeWait then
    let io := sendFin b now io
    {io with conn := {io.conn with state := .lastAck}}
  else connAbort b io

/-! tcp_service on one slot, up to and after the sections it runs with the lock released. The flag
says whether the round goes on. -/

def keepaliveDue (now : Nat) (c : Conn) : Bool :=
  c.state=.established ∧ !c.isClient ∧ !c.isStream ∧ c.rtoAtMs=0 ∧ c.lastRxMs≠0 ∧
    c.lastRxMs+tcpKaIdleMs+c.kaProbes*tcpKaIntervalMs≤now

def serviceKeepalive (now : Nat) (io : Io) : Io×Bool :=
  if !keepaliveDue now io.conn then (io,true)
  else if tcpKaProbes ≤ io.conn.kaProbes then (connAbort b io,false)
  else
    let io := tcpEmit b {ack := true} (io.conn.sndNxt-1) [] false io
    ({io with conn := {io.conn with kaProbes := io.conn.kaProbes+1}},true)

def serviceRto (now : Nat) (io : Io) : Io×Bool :=
  if io.conn.rtoAtMs=0 ∨ now < io.conn.rtoAtMs then (io,true)
  else if tcpMaxRetries ≤ io.conn.retries then (connAbort b io,false)
  else (tcpRetransmit b now io,true)

def serviceTimers (now : Nat) (io : Io) : Io×Bool :=
  if io.conn.state=.timeWait then
    (if io.conn.timeWaitAtMs≤now then {io with conn := connRelease io.conn} else io,false)
  else
    match serviceKeepalive b now io with
    | (io,false) => (io,false)
    | (io,true) => serviceRto b now io

/-- Whether the slot's server may take a request. -/
def Conn.serves (c : Conn) : Bool :=
  c.state=.established ∧ c.txLen=0 ∧ !c.isClient ∧ !c.isStream

/-- After p9_link_service: a frame that failed its tag ends the connection. -/
def serviceP9 (io : Io) : Io×Bool :=
  if io.conn.inUse ∧ io.conn.link.protState=.dead then (connAbort b io,false) else (io,true)

/-- The request leaves the receive buffer. -/
def takeRequest (consumed : UInt32) (c : Conn) : Conn :=
  if 0 < consumed ∧ consumed≤c.rxLen then
    {c with
      rx := memShift c.rx consumed.toNat (c.rxLen-consumed).toNat, rxLen := c.rxLen-consumed,
      needAck := true}
  else c

def sendReply (now : Nat) (reply : Bytes) (io : Io) : Io :=
  if reply≠[] then
    tcpTransmit b now {io with
      conn := {io.conn with txSeq := io.conn.sndNxt, txLen := reply.length.toUInt32}}
  else io

/-- After a spartan_process_request that answered: it took consumed bytes of rx and left reply in
tx. -/
def serviceSpartan (now : Nat) (consumed : UInt32) (reply : Bytes) (closeAfter : Bool) (io : Io) : Io :=
  let io := {io with conn := takeRequest consumed {io.conn with tx := patch io.conn.tx 0 reply}}
  let io := sendReply b now reply io
  if closeAfter then {io with conn := {io.conn with closePending := true}} else io

/-- A close that waited for the send buffer to drain. -/
def serviceClose (now : Nat) (io : Io) : Io :=
  if io.conn.closePending ∧ io.conn.txLen=0 ∧ !io.conn.finSent then
    let io := {io with conn := {io.conn with closePending := false}}
    if io.conn.state=.established then
      let io := sendFin b now io
      {io with conn := {io.conn with state := .finWait1}}
    else if io.conn.state=.closeWait then
      let io := sendFin b now io
      {io with conn := {io.conn with state := .lastAck}}
    else io
  else io

/-- A peer that closed gets our FIN once its reply has drained; not on a stream. -/
def serviceHalfClosed (now : Nat) (io : Io) : Io :=
  if io.conn.state=.closeWait ∧ io.conn.txLen=0 ∧ !io.conn.finSent ∧ !io.conn.isClient ∧
      !io.conn.isStream then
    let io := sendFin b now io
    {io with conn := {io.conn with state := .lastAck}}
  else io

def serviceTail (now : Nat) (io : Io) : Io :=
  tcpTransmit b now (serviceHalfClosed b now (serviceClose b now io))

end

end LugalOS.Tcp
