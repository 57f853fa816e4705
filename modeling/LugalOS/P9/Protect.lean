import LugalOS.P9.Authentication

namespace LugalOS.P9

open CString

def p9DirC2s : UInt8 := 0
def p9DirS2c : UInt8 := 1

inductive P9ProtState where
  | none
  | offered
  | armed
  | active
  | dead
  deriving DecidableEq

structure P9Prot where
  key : Digest := zeroDigest
  rxSeq : UInt32 := 0
  txSeq : UInt32 := 0
  state : P9ProtState := .none

/-- A block filled with c, the key over its first 32 bytes. -/
def p9ProtectPad (c : UInt8) (key : Digest) : Bytes :=
  (List.range 64).map fun i => c ^^^ key.bytes.getD i 0

/-- What a tag covers: direction, sequence number, frame. -/
def p9ProtectHead (dir : UInt8) (seq : UInt32) (frame : Bytes) : Bytes := dir::le32 seq++frame

def p9ProtectTag (sha256 : Bytes → Digest) (key : Digest) (dir : UInt8) (seq : UInt32)
    (frame : Bytes) : Bytes :=
  let inner := sha256 (p9ProtectPad 0x36 key++p9ProtectHead dir seq frame)
  (sha256 (p9ProtectPad 0x5c key++inner.bytes)).bytes.take p9TagLen.toNat

def p9ProtectVerify (sha256 : Bytes → Digest) (key : Digest) (dir : UInt8) (seq : UInt32)
    (frame tag : Bytes) : Bool :=
  sha256Verify (p9ProtectTag sha256 key dir seq frame) tag p9TagLen.toNat

theorem p9ProtectTag_length (sha256 : Bytes → Digest) (key : Digest) (dir : UInt8) (seq : UInt32)
    (frame : Bytes) : (p9ProtectTag sha256 key dir seq frame).length=p9TagLen.toNat := by
  rw [p9ProtectTag,List.length_take,Digest.length_eq]
  rfl

theorem p9ProtectVerify_iff {sha256 : Bytes → Digest} {key : Digest} {dir : UInt8} {seq : UInt32}
    {frame tag : Bytes} (ht : tag.length=p9TagLen.toNat) :
    p9ProtectVerify sha256 key dir seq frame tag=true ↔
      tag=p9ProtectTag sha256 key dir seq frame := by
  constructor
  · intro h
    exact (sha256Verify_eq (p9ProtectTag_length _ _ _ _ _) ht h).symm
  · rintro rfl
    rw [p9ProtectVerify,sha256Verify_iff]
    intro k _
    rfl

/-- The parts of p9_link_t the server side reads. -/
structure P9Link where
  /-- Whether `prot_get` is set. -/
  protGet : Bool
  prot : Option P9Prot := none
  authRequired : Bool := true
  readOnly : Bool := false
  setupNet : Bool := false
  plainWritesOk : Bool := false

def P9Link.protState (l : P9Link) : P9ProtState :=
  match l.prot with
  | none => .none
  | some pr => pr.state

/-- slot says whether prot_get has a state to give. -/
def p9LinkSessionOffered (slot : Bool) (l : P9Link) : Bool×P9Link :=
  if !l.protGet then (false,l)
  else if !slot then (false,l)
  else (true,{l with prot := some {state := .offered}})

def p9LinkSessionAuthenticated (key : Digest) (l : P9Link) : P9Link :=
  match l.prot with
  | none => l
  | some pr => if pr.state≠.offered then l else {l with prot := some {pr with key := key, state := .armed}}

def p9LinkSessionActive (l : P9Link) : Bool := l.protState=.active ∨ l.protState=.armed

/-- The functions below the link: the hash, and 9P's two directions between message and bytes.
p9_serialize has room for respMax bytes. -/
structure P9Wire where
  sha256 : Bytes → Digest
  deserialize : Bytes → Option P9Msg
  serialize : P9Msg → Nat → Option Bytes

/-- What the code outside answers while one frame is pumped. -/
structure PumpEnv where
  world : World
  protSlot : Bool := true
  /-- A client of this node waits on the link for a reply with this tag. -/
  waiting : UInt16 → Bool := fun _ => false
  sendOk : Bool := true

/-- One call of p9_link_pump: the states it leaves, the bytes it handed to the server, to a waiter
and to send_frame, and what the server answered. -/
structure Pumped where
  link : P9Link
  server : Server
  handed : Option Bytes := none
  parked : Option Bytes := none
  resp : Option P9Msg := none
  sent : Option Bytes := none
  ret : Int

/-- process_request asks for a session on a Tversion that offers one, if none is running. -/
def asksSession (l : P9Link) (frame : Option P9Msg) : Bool :=
  match frame with
  | none => false
  | some req => req.type==.tversion && !p9LinkSessionActive l && req.lp

/-- The link after the hooks process_request called: the offer, then the accepted keys. -/
def P9Link.hooked (l : P9Link) (slot : Bool) (frame : Option P9Msg) (keys : List Digest) : P9Link :=
  keys.foldl (fun l k => p9LinkSessionAuthenticated k l)
    (if asksSession l frame then (p9LinkSessionOffered slot l).2 else l)

/-- The keys the server accepted while it went from s to s'. -/
def acceptedKeys (s s' : Server) : List Digest :=
  (s'.sessionKeys.take (s'.sessionKeys.length-s.sessionKeys.length)).reverse.map Prod.snd

def p9LinkPlaintext : UInt32 := 1

/-- The arguments p9_route_frame passes to the server. -/
def P9Link.reqCtx (l : P9Link) (conn maxMsize : Nat) : ReqCtx :=
  let tagged := l.protState=.active
  {conn := conn,
    policy := if !l.authRequired then .notRequired
      else if l.readOnly ∨ (l.protGet ∧ ¬tagged ∧ !l.plainWritesOk ∧ !l.setupNet) then .requiredRo
      else .required,
    linkFlags := (if l.protGet then p9LinkPlaintext else 0) ||| (if l.setupNet then p9LinkSetupNet else 0),
    respMax := maxMsize-(if l.protGet then p9TagLen.toNat else 0)}

/-- The world process_request sees: the link's hooks answer for the session. -/
def PumpEnv.seen (e : PumpEnv) (l : P9Link) : World :=
  {e.world with
    linkSessionOffered := (p9LinkSessionOffered e.protSlot l).1,
    linkSessionActive := p9LinkSessionActive l}

/-- The end of p9_route_frame: the reply is tagged if the request was, and an armed session is
active once a reply has gone out. -/
def p9RouteReply (x : P9Wire) (e : PumpEnv) (tagged : Bool) (l : P9Link) (out : Bytes) :
    P9Link×Bytes×Int :=
  let tag := match l.prot with
    | some pr => if tagged then p9ProtectTag x.sha256 pr.key p9DirS2c pr.txSeq out else []
    | none => []
  let l := match l.prot with
    | some pr => if tagged then {l with prot := some {pr with txSeq := pr.txSeq+1}} else l
    | none => l
  if !e.sendOk then (l,out++tag,-1)
  else
    match l.prot with
    | some pr =>
      if pr.state=.armed then
        ({l with prot := some {pr with state := .active, rxSeq := 0, txSeq := 0}},out++tag,1)
      else (l,out++tag,1)
    | none => (l,out++tag,1)

def p9RouteFrame (x : P9Wire) (e : PumpEnv) (conn : Nat) (l : P9Link) (s : Server) (buf : Bytes) :
    Pumped :=
  let tag := (buf.getD 5 0).toUInt16 ||| ((buf.getD 6 0).toUInt16<<<8)
  if buf.length<7 then {link := l, server := s, ret := -1}
  else if buf.getD 4 0 &&& 1≠0 then
    -- an R-message goes to its waiter; nobody waits for it: dropped
    if !e.waiting tag then {link := l, server := s, ret := 1}
    else if e.world.maxMsize.toNat < buf.length then {link := l, server := s, ret := -1}
    else {link := l, server := s, parked := some buf, ret := 1}
  else
    let c := l.reqCtx conn e.world.maxMsize.toNat
    let req := x.deserialize buf
    let (resp,s') := processRequest (e.seen l) c s req
    let l' := l.hooked e.protSlot req (acceptedKeys s s')
    match x.serialize resp c.respMax with
    | none => {link := l', server := s', handed := some buf, resp := some resp, ret := -1}
    | some out =>
      if out.length<7 then {link := l', server := s', handed := some buf, resp := some resp, ret := -1}
      else
        let (l',frame,ret) := p9RouteReply x e (l.protState=.active) l' out
        {link := l', server := s', handed := some buf, resp := some resp, sent := some frame, ret := ret}

/-- A frame failed its check: the key is wiped and the session over. -/
def P9Link.ended (l : P9Link) (pr : P9Prot) : P9Link :=
  {l with prot := some {pr with key := zeroDigest, state := .dead}}

/-- What poll and recv_frame gave: nothing, an error, or a frame. -/
inductive Received where
  | idle (ready : Int)
  | failed
  | frame (buf : Bytes)

/-- The frame and the tag in rx_buf. -/
def untag (buf : Bytes) : Bytes×Bytes :=
  (buf.take (buf.length-p9TagLen.toNat),buf.drop (buf.length-p9TagLen.toNat))

def p9LinkPump (x : P9Wire) (e : PumpEnv) (conn : Nat) (l : P9Link) (s : Server) (rx : Received) :
    Pumped :=
  if l.protState=.dead then {link := l, server := s, ret := -1}
  else
    match rx with
    | .idle ready => {link := l, server := s, ret := ready}
    | .failed => {link := l, server := s, ret := -1}
    | .frame buf =>
      if buf.length<7 then {link := l, server := s, ret := -1}
      else
        match l.prot with
        | none => p9RouteFrame x e conn l s buf
        | some pr =>
          if pr.state≠.active then p9RouteFrame x e conn l s buf
          else if buf.length<7+p9TagLen.toNat ∨
              !p9ProtectVerify x.sha256 pr.key p9DirC2s pr.rxSeq (untag buf).1 (untag buf).2 then
            {link := l.ended pr, server := s, ret := -1}
          else
            p9RouteFrame x e conn {l with prot := some {pr with rxSeq := pr.rxSeq+1}} s (untag buf).1

end LugalOS.P9
