import LugalOS.Lib.LittleEndian

namespace LugalOS.Llp

open LittleEndian

abbrev Bytes := List UInt8

/-- llp_frame_t; the payload's length is its `len`. -/
structure Frame where
  type : UInt8
  seq : UInt8
  payload : Bytes
  deriving DecidableEq

def maxPayload : UInt16 := 4096
def minPayload : UInt16 := 1514
def maxWindow : UInt8 := 64
def versionMajor : UInt8 := 1
def versionMinor : UInt8 := 0

def typeLink : UInt8 := 1
def typeEth : UInt8 := 2
def typeP9 : UInt8 := 3

def helloUp : UInt8 := 1
def helloFlow : UInt8 := 2

def helloRetryMs : UInt32 := 500
def deadMs : UInt32 := 3000
def keepaliveMs : UInt32 := 1000
def probeMs : UInt32 := 100

inductive LinkState where
  | down | up | mismatch
  deriving DecidableEq

inductive Event where
  | up | down | mismatch | peerState
  deriving DecidableEq

/-- llp_config_t without its callbacks. -/
structure Config where
  role : UInt8
  major : UInt8
  minor : UInt8
  maxPayload : UInt16
  rxWindow : UInt8
  mac : Fin 6 → UInt8

structure Stats where
  txFrames : UInt32 := 0
  rxFrames : UInt32 := 0
  txLink : UInt32 := 0
  rxLink : UInt32 := 0
  txRefused : UInt32 := 0
  txNoCredit : UInt32 := 0
  rxLost : UInt32 := 0
  rxStale : UInt32 := 0
  rxNotUp : UInt32 := 0
  rxBad : UInt32 := 0
  rxTooBig : UInt32 := 0
  hellos : UInt32 := 0
  probes : UInt32 := 0
  credits : UInt32 := 0
  ups : UInt32 := 0
  downs : UInt32 := 0

/-- llp_link_t. -/
structure Link where
  cfg : Config
  state : LinkState := .down
  session : UInt32
  peerSession : UInt32 := 0
  peerMajor : UInt8 := 0
  peerMinor : UInt8 := 0
  peerRole : UInt8 := 0
  peerFlags : UInt8 := 0
  peerMaxPayload : UInt16 := 0
  peerMac : Fin 6 → UInt8 := fun _ => 0
  peerLink : UInt8 := 0
  peerRssi : UInt8 := 0
  txSeq : UInt8 := 0
  txAck : UInt8 := 0
  txWindow : UInt8 := 0
  blocked : Bool := false
  lastProbe : UInt32 := 0
  rxNext : UInt8 := 0
  advLimit : UInt8 := 0
  lastRx : UInt32
  lastTx : UInt32
  lastHello : UInt32 := 0
  st : Stats := {}

/-- What a call gets from outside: the time, cfg.rx_free's answers, and whether the channel takes
the n-th frame that the call sends. -/
structure Env where
  now : UInt32
  rxFree : Nat → Nat
  accepts : Nat → Bool

/-- A call under way: the link, the frames the channel took, the sends tried, the questions to
rx_free and the events. -/
structure Io where
  link : Link
  sent : List Frame := []
  tries : Nat := 0
  asks : Nat := 0
  events : List Event := []

/-- HELLO's body. -/
structure Hello where
  major : UInt8
  minor : UInt8
  role : UInt8
  flags : UInt8
  session : UInt32
  peerSession : UInt32
  maxPayload : UInt16
  window : UInt8
  mac : Fin 6 → UInt8

inductive Body where
  | hello (h : Hello)
  | credit (ack window : UInt8)
  | probe (next : UInt8)
  | state (link rssi : UInt8)
  | bad

def le16 (v : UInt16) : Bytes := leBytes v.toNat 2
def le32 (v : UInt32) : Bytes := leBytes v.toNat 4
def get16 (p : Bytes) (o : Nat) : UInt16 := UInt16.ofNat (leAt (fun k => p.getD k 0) o 2)
def get32 (p : Bytes) (o : Nat) : UInt32 := UInt32.ofNat (leAt (fun k => p.getD k 0) o 4)

def Body.bytes : Body → Bytes
  | .hello h => [1,h.major,h.minor,h.role,h.flags]++le32 h.session++le32 h.peerSession++
      le16 h.maxPayload++[h.window]++List.ofFn h.mac
  | .credit ack window => [2,ack,window]
  | .probe next => [3,next]
  | .state link rssi => [4,link,rssi,0,0]
  | .bad => []

/-- The operation and the fields of a LINK frame; bad when it is shorter than its operation. -/
def parseBody (p : Bytes) : Body :=
  if p.length<1 then .bad
  else
    let b := fun k => p.getD k 0
    if b 0=1 then
      if p.length<22 then .bad
      else .hello ⟨b 1,b 2,b 3,b 4,get32 p 5,get32 p 9,get16 p 13,b 15,fun i => b (16+i)⟩
    else if b 0=2 then if p.length<3 then .bad else .credit (b 1) (b 2)
    else if b 0=3 then if p.length<2 then .bad else .probe (b 1)
    else if b 0=4 then if p.length<5 then .bad else .state (b 1) (b 2)
    else .bad

def linkFrame (b : Body) : Frame := ⟨typeLink,0,b.bytes⟩

theorem get16_append (a b : Bytes) (v : UInt16) : get16 (a++le16 v++b) a.length=v := by
  rw [get16,le16,leAt_append,Nat.mod_eq_of_lt (by exact v.toNat_lt)]
  exact UInt16.ofNat_toNat

theorem get32_append (a b : Bytes) (v : UInt32) : get32 (a++le32 v++b) a.length=v := by
  rw [get32,le32,leAt_append,Nat.mod_eq_of_lt (by exact v.toNat_lt)]
  exact UInt32.ofNat_toNat

theorem parse_hello (h : Hello) : parseBody (Body.bytes (.hello h))=.hello h := by
  have hl : (Body.bytes (.hello h)).length=22 := by simp [Body.bytes,le16,le32]
  have hs : get32 (Body.bytes (.hello h)) 5=h.session := by
    have := get32_append [1,h.major,h.minor,h.role,h.flags]
      (le32 h.peerSession++le16 h.maxPayload++[h.window]++List.ofFn h.mac) h.session
    simpa [Body.bytes] using this
  have hp : get32 (Body.bytes (.hello h)) 9=h.peerSession := by
    have := get32_append ([1,h.major,h.minor,h.role,h.flags]++le32 h.session)
      (le16 h.maxPayload++[h.window]++List.ofFn h.mac) h.peerSession
    simpa [Body.bytes,le32] using this
  have hm : get16 (Body.bytes (.hello h)) 13=h.maxPayload := by
    have := get16_append ([1,h.major,h.minor,h.role,h.flags]++le32 h.session++le32 h.peerSession)
      ([h.window]++List.ofFn h.mac) h.maxPayload
    simpa [Body.bytes,le32] using this
  have hw : (Body.bytes (.hello h)).getD 15 0=h.window := by simp [Body.bytes,le32,le16,leBytes]
  have hmac : (fun i : Fin 6 => (Body.bytes (.hello h)).getD (16+i) 0)=h.mac := by
    funext j
    obtain ⟨i,hi⟩ := j
    rcases i with _ | _ | _ | _ | _ | _ | i
    all_goals first | rfl | omega
  have hb : parseBody (Body.bytes (.hello h))=.hello ⟨h.major,h.minor,h.role,h.flags,
      get32 (Body.bytes (.hello h)) 5,get32 (Body.bytes (.hello h)) 9,
      get16 (Body.bytes (.hello h)) 13,(Body.bytes (.hello h)).getD 15 0,
      fun i : Fin 6 => (Body.bytes (.hello h)).getD (16+i) 0⟩ := by
    rw [parseBody,if_neg (by omega)]
    exact (if_pos rfl).trans (if_neg (by omega))
  rw [hb,hs,hp,hm,hw,hmac]

theorem parse_credit (ack window : UInt8) :
    parseBody (Body.bytes (.credit ack window))=.credit ack window := rfl

theorem parse_probe (next : UInt8) : parseBody (Body.bytes (.probe next))=.probe next := rfl

theorem parse_state (link rssi : UInt8) :
    parseBody (Body.bytes (.state link rssi))=.state link rssi := rfl

/-- Wrap-safe "at least ms since t". -/
def elapsed (now t ms : UInt32) : Bool := now-t≥ms

def Link.myMajor (l : Link) : UInt8 := if l.cfg.major≠0 then l.cfg.major else versionMajor
def Link.myMinor (l : Link) : UInt8 := if l.cfg.major≠0 then l.cfg.minor else versionMinor

def event (io : Io) (e : Event) : Io := {io with events := io.events++[e]}

def emit (w : Env) (io : Io) (f : Frame) : Bool×Io :=
  let l := io.link
  if w.accepts io.tries then
    (true,{io with
      tries := io.tries+1, sent := io.sent++[f]
      link := {l with
        lastTx := w.now
        st := if f.type=typeLink then {l.st with txLink := l.st.txLink+1} else l.st}})
  else
    (false,{io with
      tries := io.tries+1
      link := {l with st := {l.st with txRefused := l.st.txRefused+1}}})

/-- What the binding can hold, never more than configured; 0 when the channel does flow control. -/
def rxWindowNow (w : Env) (io : Io) : UInt8×Io :=
  let window := io.link.cfg.rxWindow
  if window=0 then (0,io)
  else
    let free := w.rxFree io.asks
    (if free<window.toNat then UInt8.ofNat free else window,{io with asks := io.asks+1})

def helloOf (l : Link) (window : UInt8) : Hello where
  major := l.myMajor
  minor := l.myMinor
  role := l.cfg.role
  flags := (if l.state=.up then helloUp else 0)|||(if l.cfg.rxWindow≠0 then helloFlow else 0)
  session := l.session
  peerSession := l.peerSession
  maxPayload := l.cfg.maxPayload
  window := window
  mac := l.cfg.mac

def sendHello (w : Env) (io : Io) : Io :=
  let x := rxWindowNow w io
  let io := x.2
  let l := io.link
  (emit w {io with link := {l with
    advLimit := l.rxNext+x.1, lastHello := w.now
    st := {l.st with hellos := l.st.hellos+1}}} (linkFrame (.hello (helloOf l x.1)))).2

def sendCredit (w : Env) (io : Io) (window : UInt8) : Io :=
  let l := io.link
  (emit w {io with link := {l with
    advLimit := l.rxNext+window, st := {l.st with credits := l.st.credits+1}}}
    (linkFrame (.credit l.rxNext window))).2

/-- Advertises when the window's far edge has moved by a quarter of the window, or when forced. -/
def maybeCredit (w : Env) (io : Io) (force : Bool) : Io :=
  let l := io.link
  if l.cfg.rxWindow=0 then if force then sendCredit w io 0 else io
  else
    let x := rxWindowNow w io
    let moved := l.rxNext+x.1-l.advLimit
    let thresh := if l.cfg.rxWindow/4≠0 then l.cfg.rxWindow/4 else 1
    if force ∨ moved≥thresh ∧ moved<128 then sendCredit w x.2 x.1 else x.2

def llpLinkCanSend (l : Link) : Bool :=
  if l.state≠.up then false
  else if l.peerFlags &&& helloFlow=0 then true
  else l.txSeq-l.txAck<l.txWindow

def llpLinkInit (w : Env) (cfg : Config) (session : UInt32) : Io :=
  let cfg := {cfg with
    rxWindow := if cfg.rxWindow>maxWindow then maxWindow else cfg.rxWindow
    maxPayload := if cfg.maxPayload>maxPayload then maxPayload else cfg.maxPayload}
  sendHello w {link := {cfg := cfg, session := session, lastRx := w.now, lastTx := w.now}}

/-- The first half of on_hello for a session not seen before: nothing of the old one is kept. -/
def adoptPeer (io : Io) (h : Hello) : Io :=
  let l := io.link
  let wasUp := l.state=.up
  let l := {l with
    peerSession := h.session, peerMajor := h.major, peerMinor := h.minor, peerRole := h.role
    peerFlags := h.flags, peerMaxPayload := h.maxPayload, peerMac := h.mac
    peerLink := 0, peerRssi := 0, txSeq := 0, txAck := 0
    txWindow := if h.window < maxWindow then h.window else maxWindow
    blocked := false, rxNext := 0}
  if wasUp then
    event {io with link := {l with
      state := .down, st := {l.st with downs := l.st.downs+1}}} .down
  else {io with link := l}

def comeUp (w : Env) (io : Io) : Io :=
  if io.link.state≠.up then
    event {io with link := {io.link with
      state := .up, lastRx := w.now, st := {io.link.st with ups := io.link.st.ups+1}}} .up
  else io

/-- The second half of on_hello: has the peer seen this session of ours? -/
def answerHello (w : Env) (io : Io) (h : Hello) : Io :=
  if h.peerSession=io.link.session then
    let io := comeUp w io
    if h.flags &&& helloUp=0 then sendHello w io else io
  else sendHello w io

def Io.bad (io : Io) : Io :=
  {io with link := {io.link with st := {io.link.st with rxBad := io.link.st.rxBad+1}}}

def onHello (w : Env) (io : Io) (h : Hello) : Io :=
  if h.session=0 then io.bad
  else if h.session≠io.link.peerSession then
    let io := adoptPeer io h
    let l := io.link
    if l.peerMajor≠l.myMajor ∨ l.peerMaxPayload < minPayload then
      sendHello w (event {io with link := {l with state := .mismatch}} .mismatch)
    else
      answerHello w {io with link := {l with
        state := if l.state=.mismatch then .down else l.state}} h
  else if io.link.state=.mismatch then io
  else answerHello w {io with link := {io.link with peerFlags := h.flags}} h

def onCredit (io : Io) (ack window : UInt8) : Io :=
  let l := io.link
  if l.state≠.up then io
  else if ack-l.txAck>l.txSeq-l.txAck then io.bad
  else
    let l := {l with txAck := ack, txWindow := if window < maxWindow then window else maxWindow}
    {io with link := {l with blocked := if llpLinkCanSend l then false else l.blocked}}

def onProbe (w : Env) (io : Io) (next : UInt8) : Io :=
  let l := io.link
  if l.state≠.up then io
  else
    let gap := next-l.rxNext
    let l := if gap<128 then
        {l with rxNext := next, st := {l.st with rxLost := l.st.rxLost+gap.toUInt32}}
      else l
    maybeCredit w {io with link := l} true

def onState (io : Io) (link rssi : UInt8) : Io :=
  if io.link.state≠.up then io
  else event {io with link := {io.link with peerLink := link, peerRssi := rssi}} .peerState

/-- A payload of the shape its type asks for. -/
def goodShape (f : Frame) : Bool :=
  if f.type=typeEth then f.payload.length≥14
  else f.payload.length≥7 ∧ (get32 f.payload 0).toNat=f.payload.length

def llpLinkInput (w : Env) (l : Link) (f : Frame) : Option Frame×Io :=
  let l := {l with lastRx := w.now}
  let io : Io := {link := l}
  let st := l.st
  if f.type=typeLink then
    let io := {io with link := {l with st := {st with rxLink := st.rxLink+1}}}
    (none,
      match parseBody f.payload with
      | .hello h => onHello w io h
      | .credit ack window => onCredit io ack window
      | .probe next => onProbe w io next
      | .state link rssi => onState io link rssi
      | .bad => io.bad)
  else if f.type≠typeEth ∧ f.type≠typeP9 then (none,io.bad)
  else if l.state≠.up then (none,{io with link := {l with st := {st with rxNotUp := st.rxNotUp+1}}})
  else if f.payload.length>l.cfg.maxPayload.toNat then
    (none,{io with link := {l with st := {st with rxTooBig := st.rxTooBig+1}}})
  else
    let gap := f.seq-l.rxNext
    if gap≥128 then (none,{io with link := {l with st := {st with rxStale := st.rxStale+1}}})
    else
      let l := {l with rxNext := f.seq+1, st := {st with rxLost := st.rxLost+gap.toUInt32}}
      if !goodShape f then (none,({io with link := l} : Io).bad)
      else
        (some f,{io with link := {l with st := {l.st with rxFrames := l.st.rxFrames+1}}})

def llpLinkSend (w : Env) (l : Link) (type : UInt8) (payload : Bytes) : Int×Io :=
  let io : Io := {link := l}
  if l.state≠.up then (-1,io)
  else if type≠typeEth ∧ type≠typeP9 ∨ payload.length>l.peerMaxPayload.toNat then (-3,io)
  else if !llpLinkCanSend l then
    (-2,if l.blocked then io
      else {io with link := {l with
        blocked := true, lastProbe := w.now, st := {l.st with txNoCredit := l.st.txNoCredit+1}}})
  else
    let r := emit w io ⟨type,l.txSeq,payload⟩
    if !r.1 then (-4,r.2)
    else
      let l := r.2.link
      (0,{r.2 with link := {l with
        txSeq := l.txSeq+1, st := {l.st with txFrames := l.st.txFrames+1}}})

def llpLinkSendState (w : Env) (l : Link) (linkUp rssi : UInt8) : Io :=
  if l.state≠.up then {link := l} else (emit w {link := l} (linkFrame (.state linkUp rssi))).2

/-- A sender held back for credit says again what it will use next. -/
def maybeProbe (w : Env) (io : Io) : Io :=
  let l := io.link
  if !l.blocked then io
  else if llpLinkCanSend l then {io with link := {l with blocked := false}}
  else if elapsed w.now l.lastProbe probeMs then
    (emit w {io with link := {l with
      lastProbe := w.now, st := {l.st with probes := l.st.probes+1}}}
      (linkFrame (.probe l.txSeq))).2
  else io

def llpLinkTick (w : Env) (l : Link) : Io :=
  let io : Io := {link := l}
  match l.state with
  | .down => if elapsed w.now l.lastHello helloRetryMs then sendHello w io else io
  | .mismatch => io
  | .up =>
    if elapsed w.now l.lastRx deadMs then
      sendHello w (event {io with link := {l with
        state := .down, st := {l.st with downs := l.st.downs+1}}} .down)
    else
      let io := maybeProbe w (maybeCredit w io false)
      if elapsed w.now io.link.lastTx keepaliveMs then maybeCredit w io true else io

end LugalOS.Llp
