import LugalOS.Httpd.WebSocket

namespace LugalOS.Httpd

open CString Memory

inductive HState where
  | free
  | ws
  | closing
deriving DecidableEq

/-- A session from the upgrade on. hbuf and obuf are the parts in use; `rx` keeps all the bytes that
the session has read and `handed` the messages it has handed over. -/
structure HSess where
  st : HState
  startedMs : Nat
  lastRxMs : Nat
  pingSentMs : Nat
  pingOut : Bool := false
  closeAfterDrain : Bool := false
  obuf : Bytes := []
  osent : Nat := 0
  hbuf : Bytes := []
  hdr : WsHdr := {}
  haveHdr : Bool := false
  got : Nat := 0
  ctl : Bytes
  ibuf : Bytes
  msgLen : Nat := 0
  msgReady : Bool := false
  protDead : Bool := false
  rx : Bytes := []
  handed : List Bytes := []

/-- What a step of the session meets: the clock, the answers of swrite and sread one after the other
(nothing ready when they are used up, an error for none), whether the stream is at its end, the
server's reply to a request and whether the request failed its integrity check. -/
structure Env where
  now : Nat
  writes : List Int
  flushed : Bool
  reads : List (Option Bytes)
  peerClosed : Bool
  reply : Option Bytes
  dead : Bool

/-- One call of sread for at most len bytes. -/
def sread (reads : List (Option Bytes)) (len : Nat) : Option Bytes×List (Option Bytes) :=
  match reads with
  | [] => (some [],[])
  | a::as => (a.map fun bs => bs.take len,as)

/-- drain: whether everything went, the session, and the answers that are left. -/
def drain (flushed : Bool) : List Int → HSess → Bool×HSess×List Int
  | [],h =>
    if h.osent < h.obuf.length then (false,h,[]) else (flushed,{h with obuf := [],osent := 0},[])
  | n::ns,h =>
    if h.osent < h.obuf.length then
      if n<0 then (true,{h with closeAfterDrain := true,obuf := h.obuf.take h.osent},ns)
      else if n=0 then (false,h,ns)
      else drain flushed ns {h with osent := h.osent+min n.toNat (h.obuf.length-h.osent)}
    else (flushed,{h with obuf := [],osent := 0},n::ns)

/-- One thing owed at a time. -/
def queueControl (h : HSess) (op : UInt8) (payload : Bytes) : HSess :=
  if h.obuf.length≠0 then h
  else {h with obuf := wsBuildHeader op payload.length.toUInt32 none++payload,osent := 0}

def wsCloseNow (h : HSess) (code : UInt16) : HSess :=
  let h := queueControl {h with obuf := [],osent := 0} wsOpClose [(code>>>8).toUInt8,code.toUInt8]
  {h with closeAfterDrain := true,msgReady := false,st := .closing}

def ended (h : HSess) : HSess := {h with st := .closing,closeAfterDrain := true}

/-- How a part of ws_read's loop ends: with a return, with the next round, or with a header. -/
inductive Turn where
  | stop
  | again
  | payload
deriving DecidableEq

/-- The part of ws_read's loop that reads a byte of the header. -/
def wsReadHeader (max : Nat) (env : Env) (reads : List (Option Bytes)) (h : HSess) :
    HSess×Turn×List (Option Bytes) :=
  match sread reads 1 with
  | (none,reads) => (ended h,.stop,reads)
  | (some [],reads) => (if env.peerClosed then ended h else h,.stop,reads)
  | (some b,reads) =>
    let h := {h with lastRxMs := env.now,hbuf := h.hbuf++b,rx := h.rx++b}
    let r := wsParseHeader h.hbuf max h.hdr
    let h := {h with hdr := r.2}
    if r.1<0 ∨ r.1=0 ∧ wsHdrMax≤h.hbuf.length then (wsCloseNow h 1002,.stop,reads)
    else if r.1=0 then (h,.again,reads)
    else if h.hdr.masked=false then (wsCloseNow h 1002,.stop,reads)
    else if h.hdr.opcode=wsOpText then (wsCloseNow h 1003,.stop,reads)
    else if h.hdr.opcode≤wsOpBinary ∧ max < h.msgLen+h.hdr.payloadLen then
      (wsCloseNow h 1009,.stop,reads)
    else ({h with haveHdr := true,got := 0},.payload,reads)

def wsFrameDone (h : HSess) : HSess×Turn :=
  let h := {h with haveHdr := false,hbuf := []}
  let next := fun h : HSess => (h,if h.obuf.length≠0 then Turn.stop else Turn.again)
  if h.hdr.opcode=wsOpPing then next (queueControl h wsOpPong (h.ctl.take h.hdr.payloadLen))
  else if h.hdr.opcode=wsOpPong then next {h with pingOut := false}
  else if h.hdr.opcode=wsOpClose then (wsCloseNow h 1000,.stop)
  else
    let h := {h with msgLen := h.msgLen+h.hdr.payloadLen}
    next (if h.hdr.fin then {h with msgReady := true} else h)

/-- The part of ws_read's loop that reads payload. -/
def wsReadPayload (env : Env) (reads : List (Option Bytes)) (h : HSess) :
    HSess×Turn×List (Option Bytes) :=
  let want := h.hdr.payloadLen-h.got
  if want≠0 then
    match sread reads want with
    | (none,reads) => (ended h,.stop,reads)
    | (some [],reads) => (h,.stop,reads)
    | (some bs,reads) =>
      let plain := wsUnmask bs h.hdr.mask h.got
      let h :=
        if wsOpClose≤h.hdr.opcode then {h with ctl := store h.ctl h.got plain}
        else {h with ibuf := store h.ibuf (h.msgLen+h.got) plain}
      let h := {h with lastRxMs := env.now,got := h.got+bs.length,rx := h.rx++bs}
      if h.got < h.hdr.payloadLen then (h,.stop,reads)
      else ((wsFrameDone h).1,(wsFrameDone h).2,reads)
  else ((wsFrameDone h).1,(wsFrameDone h).2,reads)

/-- ws_read with that many rounds to go. -/
def wsRead (max : Nat) (env : Env) : Nat → List (Option Bytes) → HSess → HSess
  | 0,_,h => h
  | guard+1,reads,h =>
    if h.msgReady then h
    else
      let r := if h.haveHdr then (h,.payload,reads) else wsReadHeader max env reads h
      let r := if r.2.1=.payload then wsReadPayload env r.2.2 r.1 else r
      if r.2.1=.again then wsRead max env guard r.2.2 r.1 else r.1

def wsLinkPoll (h : HSess) : Bool := h.st=.ws && h.msgReady && h.obuf.length==0

/-- ws_link_recv into a buffer of max bytes. -/
def wsLinkRecv (max : Nat) (h : HSess) : Option Bytes×HSess :=
  if h.msgReady=false ∨ max < h.msgLen then (none,h)
  else
    let msg := h.ibuf.take h.msgLen
    (some msg,{h with msgReady := false,msgLen := 0,handed := h.handed++[msg]})

def wsLinkSend (max : Nat) (h : HSess) (buf : Bytes) : HSess :=
  if h.obuf.length≠0 ∨ max < buf.length then h
  else {h with obuf := wsBuildHeader wsOpBinary buf.length.toUInt32 none++buf,osent := 0}

/-- What p9_link_service does to the session: it takes the request, if there is one, and sends the
reply. -/
def p9LinkService (max : Nat) (env : Env) (h : HSess) : HSess :=
  if h.protDead ∨ wsLinkPoll h=false then h
  else
    match wsLinkRecv max h with
    | (none,h) => h
    | (some msg,h) =>
      if msg.length<7 then h
      else if env.dead then {h with protDead := true}
      else
        match env.reply with
        | none => h
        | some buf => wsLinkSend max h buf

def sessClose (h : HSess) : HSess := {h with st := .free}

/-- sess_step of a session after its upgrade. -/
def sessStep (max : Nat) (env : Env) (h : HSess) : HSess :=
  match h.st with
  | .free => h
  | .closing =>
    let (went,h,_) := drain env.flushed env.writes h
    if went ∧ h.closeAfterDrain then sessClose h
    else if 30000 < env.now-h.startedMs then sessClose h
    else h
  | .ws =>
    let (went,h,writes) := drain env.flushed env.writes h
    if went=false then h
    else
      let h := wsRead max env 8 env.reads h
      let h := if h.st=.ws ∧ h.msgReady ∧ h.obuf.length=0 then p9LinkService max env h else h
      if h.st=.ws ∧ h.protDead then wsCloseNow h 1008
      else
        let h := if h.st=.ws ∧ h.obuf.length≠0 then (drain env.flushed writes h).2.1 else h
        if h.st≠.ws then h
        else if 15000 < env.now-h.lastRxMs ∧ h.pingOut=false ∧ h.obuf.length=0 then
          {(queueControl h wsOpPing []) with pingOut := true,pingSentMs := env.now}
        else if h.pingOut ∧ 45000-15000 < env.now-h.pingSentMs then sessClose h
        else h

/-- start_ws: the end of the upgrade, with what it answers; nothing of a message has been read. -/
def startWs (now : Nat) (answer : Bytes) (h : HSess) : HSess :=
  {h with
    obuf := answer
    osent := 0
    hbuf := []
    haveHdr := false
    msgLen := 0
    msgReady := false
    lastRxMs := now
    pingSentMs := now
    st := .ws
    rx := []
    handed := []}

/-- A session on its way, from any upgrade on. -/
inductive Session (max : Nat) : HSess → Prop where
  | start {h : HSess} (now : Nat) (answer : Bytes) (hctl : h.ctl.length=128)
      (hibuf : h.ibuf.length=max) : Session max (startWs now answer h)
  | step {h : HSess} (env : Env) (hs : Session max h) : Session max (sessStep max env h)

open Framing

/-- The message that has been opened, if any, the messages that are whole, and whether the session
has come to its end. -/
structure Asm where
  cur : Option Bytes := none
  msgs : List Bytes := []
  ended : Bool := false
deriving DecidableEq

def frameHdr (max : Nat) (p : Bytes) : WsHdr := (wsParseHeader p max {}).2
def frameHdrLen (max : Nat) (p : Bytes) : Nat := (wsParseHeader p max {}).1.toNat

/-- The payload of a frame as the client meant it. -/
def framePayload (max : Nat) (p : Bytes) : Bytes :=
  wsUnmask (p.drop (frameHdrLen max p)) (frameHdr max p).mask 0

namespace Asm

variable (max : Nat) (a : Asm)

/-- A continuation where no message is open, or a new message where one is. -/
def Misplaced (hdr : WsHdr) : Prop :=
  hdr.opcode=wsOpCont ∧ a.cur=none ∨ hdr.opcode=wsOpBinary ∧ a.cur≠none

/-- What a server asks of each frame for itself: a mask, no text, and room for its payload. -/
def Sound (hdr : WsHdr) : Prop :=
  hdr.masked=true ∧ hdr.opcode≠wsOpText ∧
    (hdr.opcode≤wsOpBinary → (a.cur.getD []).length+hdr.payloadLen ≤ max)

instance (hdr : WsHdr) : Decidable (a.Misplaced hdr) := inferInstanceAs (Decidable (_ ∨ _))
instance (hdr : WsHdr) : Decidable (a.Sound max hdr) := inferInstanceAs (Decidable (_ ∧ _))

/-- The frame may come now; a strict reader minds the order of the frames. -/
def Admits (strict : Bool) (hdr : WsHdr) : Prop :=
  a.Sound max hdr ∧ (strict=true → ¬a.Misplaced hdr)

instance (strict : Bool) (hdr : WsHdr) : Decidable (a.Admits max strict hdr) :=
  inferInstanceAs (Decidable (_ ∧ _))

/-- A frame that may come does what its opcode says. -/
def take (hdr : WsHdr) (payload : Bytes) : Asm :=
  if hdr.opcode=wsOpPing ∨ hdr.opcode=wsOpPong then a
  else if hdr.opcode=wsOpClose then {a with ended := true}
  else if hdr.fin then {a with cur := none,msgs := a.msgs++[a.cur.getD []++payload]}
  else {a with cur := some (a.cur.getD []++payload)}

/-- One whole frame; the first that may not come ends the session. -/
def step (strict : Bool) (p : Bytes) : Asm :=
  if a.ended then a
  else if a.Admits max strict (frameHdr max p) then a.take (frameHdr max p) (framePayload max p)
  else {a with ended := true}

def run (strict : Bool) (ps : List Bytes) : Asm := ps.foldl (fun a p => Asm.step max a strict p) a

/-- What is left over ends the session if it is no frame or one that may not come. -/
def finish (strict : Bool) (rest : Bytes) : Asm :=
  match wsHead max rest with
  | .short => a
  | .bad => {a with ended := true}
  | .frame _ =>
    if a.ended=true ∨ a.Admits max strict (frameHdr max rest) then a else {a with ended := true}

end Asm

def frames (max : Nat) (strict : Bool) (s : Bytes) : Asm :=
  Asm.run max {} strict ((wsFormat max).split s).1

def assembled (max : Nat) (strict : Bool) (s : Bytes) : Asm :=
  (frames max strict s).finish max strict ((wsFormat max).split s).2

/-- No frame comes out of order, as long as the session lasts. -/
def Placed (max : Nat) (s : Bytes) : Prop :=
  (∀ ps p qs,((wsFormat max).split s).1=ps++p::qs →
    let a : Asm := Asm.run max {} false ps
    a.ended=false → a.Sound max (frameHdr max p) → ¬a.Misplaced (frameHdr max p)) ∧
  ∀n,wsHead max ((wsFormat max).split s).2=.frame n → (frames max false s).ended=false →
    (frames max false s).Sound max (frameHdr max ((wsFormat max).split s).2) →
    ¬(frames max false s).Misplaced (frameHdr max ((wsFormat max).split s).2)

/-- The session has handed over the stream's messages: all of them, but for one that waits, as long
as it lasts, and it does not last beyond their end. -/
structure Delivers (max : Nat) (h : HSess) : Prop where
  handed : h.handed<+:(assembled max true h.rx).msgs
  all : h.st=.ws → h.handed++(if h.msgReady then [h.ibuf.take h.msgLen] else [])=
    (assembled max true h.rx).msgs
  lasts : h.st=.ws → (assembled max true h.rx).ended=false

theorem Asm.step_strict {max : Nat} {a : Asm} {p : Bytes}
    (h : a.ended=false → a.Sound max (frameHdr max p) → ¬a.Misplaced (frameHdr max p)) :
    a.step max true p=a.step max false p := by
  unfold Asm.step
  by_cases he : a.ended=true
  · rw [if_pos he,if_pos he]
  · have : a.Admits max true (frameHdr max p) ↔ a.Admits max false (frameHdr max p) :=
      ⟨fun ha => ⟨ha.1,fun hf => Bool.noConfusion hf⟩,
        fun ha => ⟨ha.1,fun _ => h (Bool.eq_false_iff.mpr he) ha.1⟩⟩
    simp only [this]

theorem Asm.run_strict {max : Nat} (ps : List Bytes) (a : Asm)
    (h : ∀ qs p rs,ps=qs++p::rs → let b : Asm := a.run max false qs
      b.ended=false → b.Sound max (frameHdr max p) → ¬b.Misplaced (frameHdr max p)) :
    a.run max true ps=a.run max false ps := by
  induction ps generalizing a with
  | nil => rfl
  | cons p ps ih =>
    have hp := Asm.step_strict (h [] p ps rfl)
    rw [Asm.run,Asm.run,List.foldl_cons,List.foldl_cons]
    change (Asm.step max a true p).run max true ps=(Asm.step max a false p).run max false ps
    rw [show Asm.step max a true p=Asm.step max a false p from hp]
    exact ih _ fun qs q rs hq => h (p::qs) q rs (by rw [hq]; rfl)

theorem frames_strict {max : Nat} {s : Bytes} (h : Placed max s) :
    frames max true s=frames max false s := Asm.run_strict _ _ h.1

theorem assembled_strict {max : Nat} {s : Bytes} (h : Placed max s) :
    assembled max true s=assembled max false s := by
  rw [assembled,assembled,frames_strict h,Asm.finish,Asm.finish]
  cases hh : wsHead max ((wsFormat max).split s).2 with
  | short | bad => rfl
  | frame n =>
    have hno := h.2 n hh
    dsimp only
    generalize frames max false s=a at hno ⊢
    generalize frameHdr max ((wsFormat max).split s).2=hdr at hno ⊢
    cases he : a.ended with
    | true => rw [if_pos (.inl rfl),if_pos (.inl rfl)]
    | false =>
      have : a.Admits max true hdr ↔ a.Admits max false hdr :=
        ⟨fun ha => ⟨ha.1,fun hf => Bool.noConfusion hf⟩,fun ha => ⟨ha.1,fun _ => hno he ha.1⟩⟩
      simp only [this]

theorem Asm.step_ended {max : Nat} {a : Asm} (strict : Bool) {p : Bytes} (h : a.ended=true) :
    (a.step max strict p).ended=true := by
  rw [Asm.step,if_pos h]
  exact h

theorem Asm.run_ended {max : Nat} {a : Asm} {strict : Bool} (ps : List Bytes)
    (h : (a.run max strict ps).ended=false) : a.ended=false := by
  induction ps generalizing a with
  | nil => exact h
  | cons p ps ih =>
    by_contra he
    have := ih (a := a.step max strict p) h
    rw [Asm.step_ended strict (Bool.eq_true_of_not_eq_false he)] at this
    exact Bool.noConfusion this

theorem Asm.run_append {max : Nat} (a : Asm) (strict : Bool) (ps qs : List Bytes) :
    a.run max strict (ps++qs)=(a.run max strict ps).run max strict qs := List.foldl_append

theorem Asm.placed_of_step {max : Nat} {a : Asm} {p : Bytes}
    (h : (a.step max true p).ended=false) : ¬a.Misplaced (frameHdr max p) := by
  rw [Asm.step] at h
  by_cases he : a.ended=true
  · rw [if_pos he] at h
    exact absurd (he.symm.trans h) (by decide)
  · rw [if_neg he] at h
    by_cases hp : a.Admits max true (frameHdr max p)
    · exact hp.2 rfl
    · rw [if_neg hp] at h
      exact Bool.noConfusion h

theorem placed_of_lasts {max : Nat} {s : Bytes} (h : (assembled max true s).ended=false) :
    Placed max s := by
  have hfin : (frames max true s).ended=false := by
    rw [assembled,Asm.finish] at h
    split at h
    · exact h
    · exact Bool.noConfusion h
    · split_ifs at h
      exact h
  have hall : ∀ ps p qs,((wsFormat max).split s).1=ps++p::qs →
      ¬(Asm.run max {} false ps).Misplaced (frameHdr max p) := by
    intro ps
    induction hl : ps.length using Nat.strong_induction_on generalizing ps with
    | _ l ih =>
      intro p qs hps
      have heq : Asm.run max {} true ps=Asm.run max {} false ps :=
        Asm.run_strict ps {} fun as b bs hb _ _ => ih as.length
          (by rw [← hl,hb,List.length_append,List.length_cons]; omega) as rfl b (bs++p::qs)
          (by rw [hps,hb,List.append_assoc]; rfl)
      rw [frames,hps,Asm.run_append] at hfin
      have hstep := Asm.run_ended (a := Asm.step max (Asm.run max {} true ps) true p) qs hfin
      rw [heq] at hstep
      exact Asm.placed_of_step hstep
  refine ⟨fun ps p qs hps _ _ => hall ps p qs hps,fun n hn _ _ => ?_⟩
  have heq : frames max true s=frames max false s :=
    Asm.run_strict _ _ fun ps p qs hps _ _ => hall ps p qs hps
  rw [assembled,Asm.finish,hn] at h
  dsimp only at h
  rw [← heq]
  by_cases hp : (frames max true s).ended=true ∨
      (frames max true s).Admits max true (frameHdr max ((wsFormat max).split s).2)
  · rcases hp with he | hp
    · exact absurd (he.symm.trans hfin) (by decide)
    · exact hp.2 rfl
  · rw [if_neg hp] at h
    exact Bool.noConfusion h

end LugalOS.Httpd
