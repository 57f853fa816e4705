import LugalOS.Lib.Run
import LugalOS.Llp.Calls

namespace LugalOS.Llp

/-- The two ends of a link. -/
inductive Side where
  | a | b
  deriving DecidableEq

def Side.other : Side → Side
  | .a => .b
  | .b => .a

@[simp] theorem Side.other_other (s : Side) : s.other.other=s := by cases s <;> rfl

theorem Side.other_ne (s : Side) : s.other≠s := by cases s <;> decide

theorem Side.eq_or (s t : Side) : t=s ∨ t=s.other := by cases s <;> cases t <;> simp [Side.other]

/-- A frame on its way. `session`, `peer` and `mark` are history: the sessions it was sent in, the
sender's first, and how many data frames its sender had sent in them before. -/
structure Flying where
  frame : Frame
  session : UInt32
  peer : UInt32
  mark : Nat

/-- An end: its link and how many data frames its application can hold. The rest is history: the
sessions it has used; its sessions with the peer sessions it took over; of the data frames sent in
the sessions it has, how many it has accounted for; how many it skipped since it started; and how
many were lost, or dropped unread, since it last read one. -/
structure Node where
  link : Link
  free : Nat
  used : List UInt32
  recorded : List (UInt32×UInt32) := []
  passed : Nat := 0
  skipped : Nat := 0
  missed : Nat := 0

/-- Two ends and the channels between them: `chan s` holds what s sent, oldest first. `accepted` and
`delivered` are history: the data frames that an end's llp_link_send took and that its
llp_link_input handed up, by its session and the peer's. -/
structure Net where
  node : Side → Node
  chan : Side → List Flying
  accepted : Side → UInt32 → UInt32 → List Frame := fun _ _ _ => []
  delivered : Side → UInt32 → UInt32 → List Frame := fun _ _ _ => []

def note (log : Side → UInt32 → UInt32 → List Frame) (s : Side) (session peer : UInt32)
    (f : Frame) : Side → UInt32 → UInt32 → List Frame :=
  fun t x y => if t=s ∧ x=session ∧ y=peer then log t x y++[f] else log t x y

/-- The end s becomes x and sends fs. -/
def Net.put (n : Net) (s : Side) (x : Node) (fs : List Frame) : Net :=
  let l := x.link
  {n with
    node := Function.update n.node s x
    chan := Function.update n.chan s (n.chan s++fs.map fun f =>
      ⟨f,l.session,l.peerSession,(n.accepted s l.session l.peerSession).length⟩)}

/-- The oldest frame on its way to s is no longer there. -/
def Net.pop (n : Net) (s : Side) (rest : List Flying) : Net :=
  {n with chan := Function.update n.chan s.other rest}

/-- What an end keeps of a frame that has come in, with the result of llp_link_input. -/
def Node.read (x : Node) (f : Flying) (r : Option Frame×Io) : Node :=
  let y := {x with link := r.2.link, free := if r.1.isSome then x.free-1 else x.free}
  match f.frame.kind with
  | .hello _ =>
    if r.2.link.peerSession=x.link.peerSession then y
    else
      {y with
        recorded := (x.link.session,r.2.link.peerSession)::x.recorded, passed := 0, missed := 0}
  | .data =>
    if x.link.reads f.frame then
      {y with skipped := x.skipped+(f.mark-x.passed), passed := f.mark+1, missed := 0}
    else {y with missed := x.missed+1}
  | .probe _ =>
    if x.link.state=.up then {y with skipped := x.skipped+(f.mark-x.passed), passed := f.mark}
    else y
  | _ => y

/-- What happens next: an end sends data or the radio's state, its timers run, the oldest frame on
its way to it arrives or is lost, its application consumes a frame, or it starts anew. -/
inductive Ev where
  | send (s : Side) (now : UInt32) (accepts : Nat → Bool) (type : UInt8) (payload : Bytes)
  | sendState (s : Side) (now : UInt32) (accepts : Nat → Bool) (link rssi : UInt8)
  | tick (s : Side) (now : UInt32) (accepts : Nat → Bool)
  | recv (s : Side) (now : UInt32) (accepts : Nat → Bool)
  | lose (s : Side)
  | consume (s : Side)
  | restart (s : Side) (now : UInt32) (accepts : Nat → Bool) (session : UInt32) (free : Nat)

def exec (n : Net) : Ev → Option Net
  | .send s now accepts type payload =>
    let x := n.node s
    let r := llpLinkSend (.flat now x.free accepts) x.link type payload
    let m := n.put s {x with link := r.2.link} r.2.sent
    let g := ⟨type,x.link.txSeq,payload⟩
    some (if r.1=0 then
      {m with accepted := note m.accepted s x.link.session x.link.peerSession g} else m)
  | .sendState s now accepts link rssi =>
    let x := n.node s
    let r := llpLinkSendState (.flat now x.free accepts) x.link link rssi
    some (n.put s {x with link := r.link} r.sent)
  | .tick s now accepts =>
    let x := n.node s
    let r := llpLinkTick (.flat now x.free accepts) x.link
    some (n.put s {x with link := r.link} r.sent)
  | .recv s now accepts =>
    match n.chan s.other with
    | [] => none
    | f::rest =>
      let x := n.node s
      let r := llpLinkInput (.flat now x.free accepts) x.link f.frame
      let m := (n.pop s rest).put s (x.read f r) r.2.sent
      some (match r.1 with
        | some g =>
          {m with delivered := note m.delivered s x.link.session x.link.peerSession g}
        | none => m)
  | .lose s =>
    match n.chan s.other with
    | [] => none
    | f::rest =>
      let x := n.node s
      let m := n.pop s rest
      some (match f.frame.kind with
        | .data => {m with node := Function.update m.node s {x with missed := x.missed+1}}
        | _ => m)
  | .consume s =>
    let x := n.node s
    some {n with node := Function.update n.node s {x with free := x.free+1}}
  | .restart s now accepts session free =>
    let x := n.node s
    if session≠0 ∧ session∉x.used then
      let r := llpLinkInit (.flat now free accepts) x.link.cfg session
      some (n.put s
        {link := r.link, free := free, used := session::x.used, recorded := x.recorded} r.sent)
    else none

/-- One step of the two ends and the channels. -/
def Step (n : Net) (e : Ev) (n' : Net) : Prop := exec n e=some n'

/-- What an end starts with. -/
structure Boot where
  cfg : Config
  now : UInt32
  accepts : Nat → Bool
  session : UInt32
  free : Nat

def Boot.io (x : Boot) : Io := llpLinkInit (.flat x.now x.free x.accepts) x.cfg x.session

def boot (x : Side → Boot) : Net where
  node := fun s => {link := (x s).io.link, free := (x s).free, used := [(x s).session]}
  chan := fun s => (x s).io.sent.map fun f => ⟨f,(x s).session,0,0⟩

def Started (n : Net) : Prop := ∃x : Side → Boot,(∀s,(x s).session≠0) ∧ n=boot x

end LugalOS.Llp
