import LugalOS.Llp.Link

namespace LugalOS.Llp

/-- Two links that differ in timers, in counters other than rx_lost and in what was advertised. -/
structure Same (l l' : Link) : Prop where
  cfg : l'.cfg=l.cfg
  state : l'.state=l.state
  session : l'.session=l.session
  peerSession : l'.peerSession=l.peerSession
  peerMajor : l'.peerMajor=l.peerMajor
  peerFlags : l'.peerFlags=l.peerFlags
  peerMaxPayload : l'.peerMaxPayload=l.peerMaxPayload
  txSeq : l'.txSeq=l.txSeq
  txAck : l'.txAck=l.txAck
  txWindow : l'.txWindow=l.txWindow
  rxNext : l'.rxNext=l.rxNext
  lost : l'.st.rxLost=l.st.rxLost

theorem Same.refl (l : Link) : Same l l := ⟨rfl,rfl,rfl,rfl,rfl,rfl,rfl,rfl,rfl,rfl,rfl,rfl⟩

theorem Same.trans {l l' l'' : Link} (h : Same l l') (h' : Same l' l'') : Same l l'' :=
  ⟨h'.cfg.trans h.cfg,h'.state.trans h.state,h'.session.trans h.session,
    h'.peerSession.trans h.peerSession,h'.peerMajor.trans h.peerMajor,
    h'.peerFlags.trans h.peerFlags,h'.peerMaxPayload.trans h.peerMaxPayload,
    h'.txSeq.trans h.txSeq,h'.txAck.trans h.txAck,h'.txWindow.trans h.txWindow,
    h'.rxNext.trans h.rxNext,h'.lost.trans h.lost⟩

theorem Same.helloOf {l l' : Link} (h : Same l l') (window : UInt8) :
    helloOf l' window=helloOf l window := by
  simp only [Llp.helloOf,Link.myMajor,Link.myMinor,h.cfg,h.state,h.session,h.peerSession]

/-- A window that the receiver can back: what is free, and never more than configured. -/
def Backed (free : Nat) (l : Link) (window : UInt8) : Prop :=
  window.toNat≤free ∧ window≤l.cfg.rxWindow

/-- What a link that is UP may say besides HELLO: its own position and window, as they are. -/
inductive Says (free : Nat) (l : Link) : Frame → Prop
  | credit (window : UInt8) : l.state=.up → Backed free l window →
      Says free l (linkFrame (.credit l.rxNext window))
  | probe : l.state=.up → Says free l (linkFrame (.probe l.txSeq))
  | state (link rssi : UInt8) : l.state=.up → Says free l (linkFrame (.state link rssi))

theorem Backed.same {free : Nat} {l l' : Link} {window : UInt8} (h : Same l l')
    (hb : Backed free l window) : Backed free l' window := by
  rw [Backed,h.cfg]; exact hb

theorem Says.same {free : Nat} {l l' : Link} {f : Frame} (h : Same l l') (hf : Says free l f) :
    Says free l' f := by
  cases hf with
  | credit window hu hb => rw [← h.rxNext]; exact .credit window (h.state.trans hu) (hb.same h)
  | probe hu => rw [← h.txSeq]; exact .probe (h.state.trans hu)
  | state link rssi hu => exact .state link rssi (h.state.trans hu)

/-- A part of a call that sends what the link may say and changes nothing else of the protocol. -/
structure Talks (free : Nat) (io io' : Io) : Prop where
  same : Same io.link io'.link
  sent : ∃fs,io'.sent=io.sent++fs ∧ ∀f∈fs,Says free io'.link f

theorem Talks.of_same {free : Nat} {io io' : Io} (h : Same io.link io'.link)
    (hs : io'.sent=io.sent) : Talks free io io' :=
  ⟨h,[],by rw [hs,List.append_nil],fun _ hf => by cases hf⟩

theorem Talks.trans {free : Nat} {io io' io'' : Io} (h : Talks free io io')
    (h' : Talks free io' io'') : Talks free io io'' := by
  obtain ⟨fs,hs,hf⟩ := h.sent
  obtain ⟨fs',hs',hf'⟩ := h'.sent
  refine ⟨h.same.trans h'.same,fs++fs',by rw [hs',hs,List.append_assoc],fun f hm => ?_⟩
  rcases List.mem_append.mp hm with hm | hm
  · exact (hf f hm).same h'.same
  · exact hf' f hm

theorem Talks.ite {free : Nat} {io x y : Io} {p : Prop} [Decidable p] (hx : Talks free io x)
    (hy : Talks free io y) : Talks free io (if p then x else y) := by
  split <;> assumption

/-- The outside world of a call during which nothing is consumed. -/
def Env.flat (now : UInt32) (free : Nat) (accepts : Nat → Bool) : Env :=
  ⟨now,fun _ => free,accepts⟩

variable {w : Env} {io : Io} {now : UInt32} {free : Nat} {accepts : Nat → Bool} {l : Link}

theorem emit_same (w : Env) (io : Io) (f : Frame) : Same io.link (emit w io f).2.link := by
  simp only [emit]
  split
  next => split <;> exact ⟨rfl,rfl,rfl,rfl,rfl,rfl,rfl,rfl,rfl,rfl,rfl,rfl⟩
  next => exact ⟨rfl,rfl,rfl,rfl,rfl,rfl,rfl,rfl,rfl,rfl,rfl,rfl⟩

theorem emit_sent (w : Env) (io : Io) (f : Frame) :
    (emit w io f).2.sent=io.sent++if w.accepts io.tries then [f] else [] := by
  simp only [emit]
  split
  next => rfl
  next => exact (List.append_nil _).symm

theorem emit_fst (w : Env) (io : Io) (f : Frame) : (emit w io f).1=w.accepts io.tries := by
  simp only [emit]
  split
  next h => exact h.symm
  next h => exact (Bool.eq_false_iff.mpr h).symm

theorem rxWindowNow_link (w : Env) (io : Io) : (rxWindowNow w io).2.link=io.link ∧
    (rxWindowNow w io).2.sent=io.sent ∧ (rxWindowNow w io).2.tries=io.tries := by
  simp only [rxWindowNow]
  split <;> exact ⟨rfl,rfl,rfl⟩

theorem rxWindowNow_backed (now : UInt32) (free : Nat) (accepts : Nat → Bool) (io : Io) :
    Backed free io.link (rxWindowNow (.flat now free accepts) io).1 := by
  by_cases h : io.link.cfg.rxWindow=0
  · rw [rxWindowNow,if_pos h,Backed,h]
    exact ⟨Nat.zero_le _,Nat.zero_le _⟩
  · rw [rxWindowNow,if_neg h]
    have hw := io.link.cfg.rxWindow.toNat_lt
    have hx : Backed free io.link
        (if free < io.link.cfg.rxWindow.toNat then UInt8.ofNat free else io.link.cfg.rxWindow) := by
      by_cases hf : free < io.link.cfg.rxWindow.toNat
      · have hn : (UInt8.ofNat free).toNat=free := by
          rw [UInt8.toNat_ofNat',Nat.mod_eq_of_lt (by omega)]
        rw [if_pos hf]
        exact ⟨hn.le,UInt8.le_iff_toNat_le.mpr (hn.trans_le hf.le)⟩
      · rw [if_neg hf]
        exact ⟨Nat.le_of_not_lt hf,UInt8.le_refl _⟩
    exact hx

theorem sendHello_same (w : Env) (io : Io) : Same io.link (sendHello w io).link := by
  have h := (rxWindowNow_link w io).1
  refine Same.trans ?_ (emit_same ..)
  rw [h]
  exact ⟨rfl,rfl,rfl,rfl,rfl,rfl,rfl,rfl,rfl,rfl,rfl,rfl⟩

theorem sendHello_sent (now : UInt32) (free : Nat) (accepts : Nat → Bool) (io : Io) :
    ∃window,Backed free io.link window ∧
    (sendHello (.flat now free accepts) io).sent=io.sent++
      if accepts io.tries then [linkFrame (.hello (helloOf io.link window))] else [] := by
  obtain ⟨hl,hs,ht⟩ := rxWindowNow_link (.flat now free accepts) io
  refine ⟨_,rxWindowNow_backed now free accepts io,?_⟩
  simp only [sendHello]
  rw [emit_sent,hl,hs,ht]
  rfl

theorem sendCredit_talks (io : Io) {window : UInt8} (hu : io.link.state=.up)
    (hb : Backed free io.link window) : Talks free io (sendCredit w io window) := by
  have h : Same io.link (sendCredit w io window).link := by
    refine Same.trans ?_ (emit_same ..)
    exact ⟨rfl,rfl,rfl,rfl,rfl,rfl,rfl,rfl,rfl,rfl,rfl,rfl⟩
  refine ⟨h,_,emit_sent ..,fun f hf => ?_⟩
  split at hf
  next =>
    rw [List.mem_singleton] at hf
    subst hf
    exact (Says.credit window hu hb).same h
  next => cases hf

theorem maybeCredit_talks (now : UInt32) (free : Nat) (accepts : Nat → Bool) (io : Io)
    (force : Bool) (hu : io.link.state=.up) :
    Talks free io (maybeCredit (.flat now free accepts) io force) := by
  obtain ⟨hl,hs,_⟩ := rxWindowNow_link (.flat now free accepts) io
  have ht : Talks free io (rxWindowNow (.flat now free accepts) io).2 :=
    .of_same (by rw [hl]; exact .refl _) hs
  refine Talks.ite (Talks.ite ?_ (.of_same (.refl _) rfl)) (Talks.ite (ht.trans ?_) ht)
  · exact sendCredit_talks io hu ⟨Nat.zero_le _,UInt8.zero_le⟩
  · refine sendCredit_talks _ (by rw [hl]; exact hu) ?_
    rw [hl]
    exact rxWindowNow_backed now free accepts io

/-- The peer speaks our major version and takes a whole Ethernet frame. -/
def Link.fits (l : Link) (h : Hello) : Bool := h.major==l.myMajor && !(h.maxPayload < minPayload)

/-- What a link keeps of a session not seen before. -/
def Link.adopt (l : Link) (h : Hello) : Link :=
  {l with
    peerSession := h.session, peerMajor := h.major, peerFlags := h.flags
    peerMaxPayload := h.maxPayload, txSeq := 0, txAck := 0
    txWindow := if h.window < maxWindow then h.window else maxWindow, rxNext := 0}

/-- What a HELLO makes of a link, and whether it is answered. -/
def Link.greet (l : Link) (h : Hello) : Link×Bool :=
  if h.session=0 then (l,false)
  else if h.session≠l.peerSession then
    if l.fits h then
      if h.peerSession=l.session then ({l.adopt h with state := .up},h.flags &&& helloUp==0)
      else ({l.adopt h with state := .down},true)
    else ({l.adopt h with state := .mismatch},true)
  else if l.state=.mismatch then (l,false)
  else if h.peerSession=l.session then
    ({l with peerFlags := h.flags, state := .up},h.flags &&& helloUp==0)
  else ({l with peerFlags := h.flags},true)

/-- The link after a HELLO, and the answer it sends. -/
structure Greets (now : UInt32) (free : Nat) (accepts : Nat → Bool) (g : Link×Bool) (io io' : Io) :
    Prop where
  same : Same g.1 io'.link
  sent : ∃window,Backed free g.1 window ∧ io'.sent=io.sent++
    if g.2 ∧ accepts io.tries then [linkFrame (.hello (helloOf g.1 window))] else []

theorem greets_answer (now : UInt32) (free : Nat) (accepts : Nat → Bool) {l : Link} (io : Io)
    (h : Same l io.link) :
    Greets now free accepts (l,true) io (sendHello (.flat now free accepts) io) := by
  obtain ⟨window,hb,hs⟩ := sendHello_sent now free accepts io
  refine ⟨h.trans (sendHello_same ..),window,?_,?_⟩
  · rw [Backed,h.cfg] at hb; exact hb
  · rw [hs,h.helloOf]
    simp only [true_and]

theorem greets_silent (now : UInt32) (free : Nat) (accepts : Nat → Bool) {l : Link} (io io' : Io)
    (h : Same l io'.link) (hs : io'.sent=io.sent) :
    Greets now free accepts (l,false) io io' :=
  ⟨h,0,⟨Nat.zero_le _,UInt8.zero_le⟩,by rw [hs]; simp⟩

theorem Greets.after {g : Link×Bool} {io io₁ io' : Io} (h : Greets now free accepts g io₁ io')
    (hs : io₁.sent=io.sent) (ht : io₁.tries=io.tries) : Greets now free accepts g io io' := by
  obtain ⟨hl,window,hb,hx⟩ := h
  exact ⟨hl,window,hb,by rw [hx,hs,ht]⟩

theorem comeUp_same {l : Link} (h : Same l io.link) :
    Same {l with state := .up} (comeUp w io).link ∧ (comeUp w io).sent=io.sent ∧
      (comeUp w io).tries=io.tries := by
  simp only [comeUp]
  split
  next => exact ⟨⟨h.cfg,rfl,h.session,h.peerSession,h.peerMajor,h.peerFlags,h.peerMaxPayload,
    h.txSeq,h.txAck,h.txWindow,h.rxNext,h.lost⟩,rfl,rfl⟩
  next hu => exact ⟨⟨h.cfg,by simpa using hu,h.session,h.peerSession,h.peerMajor,h.peerFlags,
    h.peerMaxPayload,h.txSeq,h.txAck,h.txWindow,h.rxNext,h.lost⟩,rfl,rfl⟩

theorem answerHello_greets (now : UInt32) (free : Nat) (accepts : Nat → Bool) {l : Link} (io : Io) (h : Hello) (hl : Same l io.link) :
    Greets now free accepts
      (if h.peerSession=l.session then ({l with state := .up},h.flags &&& helloUp==0) else (l,true))
      io (answerHello (.flat now free accepts) io h) := by
  simp only [answerHello]
  rw [hl.session]
  by_cases hs : h.peerSession=l.session
  · rw [if_pos hs,if_pos hs]
    obtain ⟨hm,hs,ht⟩ := comeUp_same (w := .flat now free accepts) hl
    by_cases hf : h.flags &&& helloUp=0
    · rw [if_pos hf,beq_iff_eq.mpr hf]
      exact (greets_answer now free accepts _ hm).after hs ht
    · rw [if_neg hf,beq_eq_false_iff_ne.mpr hf]
      exact greets_silent now free accepts io _ hm hs
  · rw [if_neg hs,if_neg hs]
    exact greets_answer now free accepts io hl

theorem adoptPeer_same (io : Io) (h : Hello) : Same {io.link.adopt h with
    state := if io.link.state=.up then .down else io.link.state} (adoptPeer io h).link ∧
    (adoptPeer io h).sent=io.sent ∧ (adoptPeer io h).tries=io.tries := by
  simp only [adoptPeer]
  split <;> exact ⟨⟨rfl,rfl,rfl,rfl,rfl,rfl,rfl,rfl,rfl,rfl,rfl,rfl⟩,rfl,rfl⟩

theorem onHello_greets (now : UInt32) (free : Nat) (accepts : Nat → Bool) (io : Io) (h : Hello) :
    Greets now free accepts (io.link.greet h) io (onHello (.flat now free accepts) io h) := by
  simp only [onHello,Link.greet]
  by_cases h0 : h.session=0
  · rw [if_pos h0,if_pos h0]
    exact greets_silent _ _ _ io _ ⟨rfl,rfl,rfl,rfl,rfl,rfl,rfl,rfl,rfl,rfl,rfl,rfl⟩ rfl
  rw [if_neg h0,if_neg h0]
  by_cases hn : h.session≠io.link.peerSession
  · rw [if_pos hn,if_pos hn]
    obtain ⟨ha,hs,ht⟩ := adoptPeer_same io h
    generalize adoptPeer io h=x at ha hs ht
    have hmaj : x.link.myMajor=io.link.myMajor := by simp only [Link.myMajor,ha.cfg]; rfl
    have hfit : (x.link.peerMajor≠x.link.myMajor ∨ x.link.peerMaxPayload < minPayload) ↔
        ¬io.link.fits h=true := by
      rw [ha.peerMajor,ha.peerMaxPayload,hmaj]
      simp only [Link.adopt,Link.fits,Bool.and_eq_true,beq_iff_eq,Bool.not_eq_true',
        decide_eq_false_iff_not,not_and_or,not_not,ne_eq]
    by_cases hf : io.link.fits h=true
    · rw [if_neg (mt hfit.mp (not_not.mpr hf)),if_pos hf]
      have hd : Same {io.link.adopt h with state := .down}
          {x.link with state := if x.link.state=.mismatch then .down else x.link.state} := by
        refine ⟨ha.cfg,?_,ha.session,ha.peerSession,ha.peerMajor,ha.peerFlags,ha.peerMaxPayload,
          ha.txSeq,ha.txAck,ha.txWindow,ha.rxNext,ha.lost⟩
        show (if x.link.state=.mismatch then LinkState.down else x.link.state)=.down
        rw [ha.state]
        show (if (if io.link.state=.up then LinkState.down else io.link.state)=.mismatch then
          LinkState.down else if io.link.state=.up then LinkState.down else io.link.state)=.down
        cases io.link.state <;> rfl
      exact (answerHello_greets now free accepts {x with link := {x.link with
        state := if x.link.state=.mismatch then .down else x.link.state}} h hd).after hs ht
    · rw [if_pos (hfit.mpr hf),if_neg hf]
      refine (greets_answer now free accepts _ ?_).after hs ht
      exact ⟨ha.cfg,rfl,ha.session,ha.peerSession,ha.peerMajor,ha.peerFlags,ha.peerMaxPayload,
        ha.txSeq,ha.txAck,ha.txWindow,ha.rxNext,ha.lost⟩
  · rw [if_neg hn,if_neg hn]
    by_cases hm : io.link.state=.mismatch
    · rw [if_pos hm,if_pos hm]
      exact greets_silent _ _ _ io io (.refl _) rfl
    · rw [if_neg hm,if_neg hm]
      have ha := answerHello_greets now free accepts
        {io with link := {io.link with peerFlags := h.flags}} h (.refl _)
      exact ha.after rfl rfl

theorem Same.greet {l l' : Link} (hl : Same l l') (h : Hello) :
    Same (l.greet h).1 (l'.greet h).1 ∧ (l'.greet h).2=(l.greet h).2 := by
  have hfit : l'.fits h=l.fits h := by simp only [Link.fits,Link.myMajor,hl.cfg]
  have hx (k : LinkState) : Same {l.adopt h with state := k} {l'.adopt h with state := k} :=
    ⟨hl.cfg,rfl,hl.session,rfl,rfl,rfl,rfl,rfl,rfl,rfl,rfl,hl.lost⟩
  have hy (k : LinkState) : Same {l with peerFlags := h.flags, state := k}
      {l' with peerFlags := h.flags, state := k} :=
    ⟨hl.cfg,rfl,hl.session,hl.peerSession,hl.peerMajor,rfl,hl.peerMaxPayload,hl.txSeq,hl.txAck,
      hl.txWindow,hl.rxNext,hl.lost⟩
  have hz : Same {l with peerFlags := h.flags} {l' with peerFlags := h.flags} :=
    ⟨hl.cfg,hl.state,hl.session,hl.peerSession,hl.peerMajor,rfl,hl.peerMaxPayload,hl.txSeq,
      hl.txAck,hl.txWindow,hl.rxNext,hl.lost⟩
  simp only [Link.greet,hfit,hl.state,hl.session,hl.peerSession]
  split
  next => exact ⟨hl,rfl⟩
  next =>
    split
    next =>
      split
      next => split <;> exact ⟨hx _,rfl⟩
      next => exact ⟨hx _,rfl⟩
    next =>
      split
      next => exact ⟨hl,rfl⟩
      next =>
        split
        next => exact ⟨by simpa only [hl.session,hl.peerSession] using hy .up,rfl⟩
        next => exact ⟨by simpa only [hl.state,hl.session,hl.peerSession] using hz,rfl⟩

/-- What a frame is to a link. -/
inductive Kind where
  | hello (h : Hello)
  | credit (ack window : UInt8)
  | probe (next : UInt8)
  | data
  | other

def Frame.kind (f : Frame) : Kind :=
  if f.type=typeLink then
    match parseBody f.payload with
    | .hello h => .hello h
    | .credit ack window => .credit ack window
    | .probe next => .probe next
    | _ => .other
  else if f.type=typeEth ∨ f.type=typeP9 then .data else .other

theorem kind_link {f : Frame} (h : f.type=typeLink) : f.kind=match parseBody f.payload with
    | .hello h => .hello h
    | .credit ack window => .credit ack window
    | .probe next => .probe next
    | _ => .other := if_pos h

theorem kind_hello (h : Hello) : (linkFrame (.hello h)).kind=.hello h := by
  rw [kind_link rfl]
  simp only [linkFrame,parse_hello]

theorem kind_eq_data {f : Frame} (h : f.type=typeEth ∨ f.type=typeP9) : f.kind=.data := by
  have hn : f.type≠typeLink := by rcases h with h | h <;> rw [h] <;> decide
  rw [Frame.kind,if_neg hn,if_pos h]

theorem kind_hello_eq {f : Frame} {h : Hello} (hf : f.kind=.hello h) :
    f.type=typeLink ∧ parseBody f.payload=.hello h := by
  simp only [Frame.kind] at hf
  split at hf
  next ht => split at hf <;> cases hf; exact ⟨ht,‹_›⟩
  next => split at hf <;> cases hf

theorem input_hello (now : UInt32) (free : Nat) (accepts : Nat → Bool) (l : Link) {f : Frame}
    {h : Hello} (hf : f.kind=.hello h) :
    (llpLinkInput (.flat now free accepts) l f).1=none ∧
    Greets now free accepts (l.greet h) {link := l}
      (llpLinkInput (.flat now free accepts) l f).2 := by
  obtain ⟨ht,hp⟩ := kind_hello_eq hf
  simp only [llpLinkInput,if_pos ht,hp]
  refine ⟨trivial,?_⟩
  have hl : Same l {l with
      lastRx := (Env.flat now free accepts).now, st := {l.st with rxLink := l.st.rxLink+1}} :=
    ⟨rfl,rfl,rfl,rfl,rfl,rfl,rfl,rfl,rfl,rfl,rfl,rfl⟩
  obtain ⟨hs,ha⟩ := hl.greet h
  obtain ⟨hg,window,hb,hx⟩ := onHello_greets now free accepts
    {link := {l with
      lastRx := (Env.flat now free accepts).now, st := {l.st with rxLink := l.st.rxLink+1}}} h
  refine ⟨hs.trans hg,window,?_,?_⟩
  · rw [Backed,hs.cfg] at hb; exact hb
  · rw [hx,hs.helloOf,ha]

def Link.credited (l : Link) (ack window : UInt8) : Link :=
  if l.state≠.up ∨ ack-l.txAck>l.txSeq-l.txAck then l
  else {l with txAck := ack, txWindow := if window < maxWindow then window else maxWindow}

def Link.probed (l : Link) (next : UInt8) : Link :=
  if l.state=.up ∧ next-l.rxNext<128 then
    {l with rxNext := next, st := {l.st with rxLost := l.st.rxLost+(next-l.rxNext).toUInt32}}
  else l

/-- A data frame comes as far as the test of its sequence number. -/
def Link.reads (l : Link) (f : Frame) : Bool :=
  l.state==.up && f.payload.length≤l.cfg.maxPayload.toNat

def Link.took (l : Link) (f : Frame) : Link :=
  if l.reads f ∧ f.seq-l.rxNext<128 then
    {l with rxNext := f.seq+1, st := {l.st with rxLost := l.st.rxLost+(f.seq-l.rxNext).toUInt32}}
  else l

theorem Same.credited {l l' : Link} (hl : Same l l') (ack window : UInt8) :
    Same (l.credited ack window) (l'.credited ack window) := by
  by_cases hc : l.state≠.up ∨ ack-l.txAck>l.txSeq-l.txAck
  · have hc' : l'.state≠.up ∨ ack-l'.txAck>l'.txSeq-l'.txAck := by
      rw [hl.state,hl.txAck,hl.txSeq]; exact hc
    rw [Link.credited,Link.credited,if_pos hc,if_pos hc']
    exact hl
  · have hc' : ¬(l'.state≠.up ∨ ack-l'.txAck>l'.txSeq-l'.txAck) := by
      rw [hl.state,hl.txAck,hl.txSeq]; exact hc
    rw [Link.credited,Link.credited,if_neg hc,if_neg hc']
    exact ⟨hl.cfg,hl.state,hl.session,hl.peerSession,hl.peerMajor,hl.peerFlags,
      hl.peerMaxPayload,hl.txSeq,rfl,rfl,hl.rxNext,hl.lost⟩

theorem Same.probed {l l' : Link} (hl : Same l l') (next : UInt8) :
    Same (l.probed next) (l'.probed next) := by
  by_cases hc : l.state=.up ∧ next-l.rxNext<128
  · have hc' : l'.state=.up ∧ next-l'.rxNext<128 := by rw [hl.state,hl.rxNext]; exact hc
    rw [Link.probed,Link.probed,if_pos hc,if_pos hc']
    refine ⟨hl.cfg,hl.state,hl.session,hl.peerSession,hl.peerMajor,hl.peerFlags,
      hl.peerMaxPayload,hl.txSeq,hl.txAck,hl.txWindow,rfl,?_⟩
    show l'.st.rxLost+_=l.st.rxLost+_
    rw [hl.lost,hl.rxNext]
  · have hc' : ¬(l'.state=.up ∧ next-l'.rxNext<128) := by rw [hl.state,hl.rxNext]; exact hc
    rw [Link.probed,Link.probed,if_neg hc,if_neg hc']
    exact hl

theorem onCredit_same (io : Io) (ack window : UInt8) :
    Same (io.link.credited ack window) (onCredit io ack window).link ∧
      (onCredit io ack window).sent=io.sent := by
  simp only [onCredit,Link.credited]
  by_cases hu : io.link.state=.up
  · rw [if_neg (not_not.mpr hu)]
    by_cases hg : ack-io.link.txAck>io.link.txSeq-io.link.txAck
    · rw [if_pos hg,if_pos (.inr hg)]
      exact ⟨⟨rfl,rfl,rfl,rfl,rfl,rfl,rfl,rfl,rfl,rfl,rfl,rfl⟩,rfl⟩
    · rw [if_neg hg,if_neg (not_or.mpr ⟨not_not.mpr hu,hg⟩)]
      exact ⟨⟨rfl,rfl,rfl,rfl,rfl,rfl,rfl,rfl,rfl,rfl,rfl,rfl⟩,rfl⟩
  · rw [if_pos hu,if_pos (.inl hu)]
    exact ⟨.refl _,rfl⟩

/-- A part of a call that sets some fields, and then talks. -/
def Turns (free : Nat) (l : Link) (io io' : Io) : Prop :=
  Same l io'.link ∧ ∃fs,io'.sent=io.sent++fs ∧ ∀f∈fs,Says free io'.link f

theorem Talks.turns {io' : Io} (h : Talks free io io') (hl : Same l io.link) :
    Turns free l io io' := ⟨hl.trans h.same,h.sent⟩

theorem turns_silent {io' : Io} (h : Same l io'.link) (hs : io'.sent=io.sent) :
    Turns free l io io' := ⟨h,[],by rw [hs,List.append_nil],fun _ hf => absurd hf List.not_mem_nil⟩

theorem onProbe_turns (now : UInt32) (free : Nat) (accepts : Nat → Bool) (io : Io) (next : UInt8) :
    Turns free (io.link.probed next) io (onProbe (.flat now free accepts) io next) := by
  simp only [onProbe,Link.probed]
  by_cases hu : io.link.state=.up
  · rw [if_neg (not_not.mpr hu)]
    by_cases hg : next-io.link.rxNext<128
    · rw [if_pos hg,if_pos ⟨hu,hg⟩]
      exact (maybeCredit_talks now free accepts {io with link := {io.link with
        rxNext := next
        st := {io.link.st with rxLost := io.link.st.rxLost+(next-io.link.rxNext).toUInt32}}}
        true hu).turns (.refl _)
    · rw [if_neg hg,if_neg (fun h => hg h.2)]
      exact (maybeCredit_talks now free accepts io true hu).turns (.refl _)
  · rw [if_pos hu,if_neg (fun h => hu h.1)]
    exact turns_silent (.refl _) rfl

/-- What a link is after llp_link_input of a frame that is no HELLO. -/
def Link.hears (l : Link) (f : Frame) : Link :=
  match f.kind with
  | .hello _ => l
  | .credit ack window => l.credited ack window
  | .probe next => l.probed next
  | .data => l.took f
  | .other => l

theorem input_turns (now : UInt32) (free : Nat) (accepts : Nat → Bool) (l : Link) {f : Frame}
    (hf : ∀h,f.kind≠.hello h) :
    Turns free (l.hears f) {link := l} (llpLinkInput (.flat now free accepts) l f).2 := by
  by_cases ht : f.type=typeLink
  · simp only [llpLinkInput,if_pos ht]
    have hl : Same l {l with
        lastRx := (Env.flat now free accepts).now, st := {l.st with rxLink := l.st.rxLink+1}} :=
      ⟨rfl,rfl,rfl,rfl,rfl,rfl,rfl,rfl,rfl,rfl,rfl,rfl⟩
    have hk := kind_link ht
    cases hp : parseBody f.payload with
    | hello h => exact absurd (hk.trans (by rw [hp])) (hf h)
    | credit ack window =>
      rw [hp] at hk
      rw [Link.hears,hk]
      have hc := onCredit_same {link := {l with
        lastRx := (Env.flat now free accepts).now
        st := {l.st with rxLink := l.st.rxLink+1}}} ack window
      exact turns_silent ((hl.credited ack window).trans hc.1) hc.2
    | probe next =>
      rw [hp] at hk
      rw [Link.hears,hk]
      have hc := onProbe_turns now free accepts {link := {l with
        lastRx := (Env.flat now free accepts).now
        st := {l.st with rxLink := l.st.rxLink+1}}} next
      exact ⟨(hl.probed next).trans hc.1,hc.2⟩
    | state link rssi =>
      rw [hp] at hk
      rw [Link.hears,hk]
      simp only [onState]
      split <;> exact turns_silent ⟨rfl,rfl,rfl,rfl,rfl,rfl,rfl,rfl,rfl,rfl,rfl,rfl⟩ rfl
    | bad =>
      rw [hp] at hk
      rw [Link.hears,hk]
      exact turns_silent ⟨rfl,rfl,rfl,rfl,rfl,rfl,rfl,rfl,rfl,rfl,rfl,rfl⟩ rfl
  · simp only [llpLinkInput,if_neg ht]
    by_cases hd : f.type≠typeEth ∧ f.type≠typeP9
    · have hk : f.kind=.other := by
        rw [Frame.kind,if_neg ht,if_neg (by rintro (h | h); exacts [hd.1 h,hd.2 h])]
      rw [if_pos hd,Link.hears,hk]
      exact turns_silent ⟨rfl,rfl,rfl,rfl,rfl,rfl,rfl,rfl,rfl,rfl,rfl,rfl⟩ rfl
    · have hk : f.kind=.data := kind_eq_data (by
        rcases not_and_or.mp hd with h | h
        · exact .inl (not_not.mp h)
        · exact .inr (not_not.mp h))
      rw [if_neg hd,Link.hears,hk]
      simp only [Link.took]
      by_cases hu : l.state=.up
      · rw [if_neg (not_not.mpr hu)]
        by_cases hb : f.payload.length>l.cfg.maxPayload.toNat
        · rw [if_pos hb,if_neg (by simp [Link.reads,hb])]
          exact turns_silent ⟨rfl,rfl,rfl,rfl,rfl,rfl,rfl,rfl,rfl,rfl,rfl,rfl⟩ rfl
        · rw [if_neg hb]
          by_cases hg : f.seq-l.rxNext≥128
          · rw [if_pos hg,if_neg (fun h => UInt8.not_lt.mpr hg h.2)]
            exact turns_silent ⟨rfl,rfl,rfl,rfl,rfl,rfl,rfl,rfl,rfl,rfl,rfl,rfl⟩ rfl
          · rw [if_neg hg,if_pos ⟨by simpa [Link.reads,hu] using hb,UInt8.not_le.mp hg⟩]
            split <;>
              exact turns_silent ⟨rfl,rfl,rfl,rfl,rfl,rfl,rfl,rfl,rfl,rfl,rfl,rfl⟩ rfl
      · rw [if_pos hu,if_neg (by simp [Link.reads,hu])]
        exact turns_silent ⟨rfl,rfl,rfl,rfl,rfl,rfl,rfl,rfl,rfl,rfl,rfl,rfl⟩ rfl

theorem send_cases (w : Env) (l : Link) (type : UInt8) (payload : Bytes) :
    (llpLinkSend w l type payload).1=0 ∧ llpLinkCanSend l=true ∧
      (type=typeEth ∨ type=typeP9) ∧ payload.length≤l.peerMaxPayload.toNat ∧
      Same {l with txSeq := l.txSeq+1} (llpLinkSend w l type payload).2.link ∧
      (llpLinkSend w l type payload).2.sent=[⟨type,l.txSeq,payload⟩] ∨
    (llpLinkSend w l type payload).1≠0 ∧ Same l (llpLinkSend w l type payload).2.link ∧
      (llpLinkSend w l type payload).2.sent=[] := by
  have hl : Same l l := .refl l
  simp only [llpLinkSend]
  split
  next => exact .inr ⟨(by decide : (-1 : Int)≠0),hl,rfl⟩
  next =>
    split
    next => exact .inr ⟨(by decide : (-3 : Int)≠0),hl,rfl⟩
    next ht =>
      split
      next =>
        refine .inr ⟨(by decide : (-2 : Int)≠0),?_,?_⟩ <;> split
        · exact hl
        · exact ⟨rfl,rfl,rfl,rfl,rfl,rfl,rfl,rfl,rfl,rfl,rfl,rfl⟩
        · rfl
        · rfl
      next hc =>
        obtain ⟨ht,hp⟩ := not_or.mp ht
        have hs := emit_same w {link := l} ⟨type,l.txSeq,payload⟩
        have he := emit_sent w {link := l} ⟨type,l.txSeq,payload⟩
        have hx := emit_fst w {link := l} ⟨type,l.txSeq,payload⟩
        generalize emit w {link := l} ⟨type,l.txSeq,payload⟩=x at hs he hx
        split
        next hn =>
          rw [Bool.not_eq_true'] at hn
          rw [← hx,hn] at he
          exact .inr ⟨(by decide : (-4 : Int)≠0),hs,he⟩
        next hn =>
          rw [Bool.not_eq_true',Bool.not_eq_false] at hn
          rw [← hx,hn] at he
          refine .inl ⟨rfl,by simpa using hc,?_,Nat.le_of_not_lt hp,?_,he⟩
          · rcases not_and_or.mp ht with h | h
            · exact .inl (not_not.mp h)
            · exact .inr (not_not.mp h)
          · exact ⟨hs.cfg,hs.state,hs.session,hs.peerSession,hs.peerMajor,hs.peerFlags,
              hs.peerMaxPayload,congrArg (· + 1) hs.txSeq,hs.txAck,hs.txWindow,hs.rxNext,hs.lost⟩

theorem emit_talks (w : Env) (io : Io) (f : Frame) (hf : Says free io.link f) :
    Talks free io (emit w io f).2 := by
  have h := emit_same w io f
  refine ⟨h,_,emit_sent ..,fun g hg => ?_⟩
  split at hg
  next =>
    rw [List.mem_singleton] at hg
    subst hg
    exact hf.same h
  next => cases hg

theorem sendState_talks (free : Nat) (w : Env) (l : Link) (linkUp rssi : UInt8) :
    Talks free {link := l} (llpLinkSendState w l linkUp rssi) := by
  simp only [llpLinkSendState]
  split
  next => exact .of_same (.refl _) rfl
  next hu => exact emit_talks w {link := l} _ (.state linkUp rssi (not_not.mp hu))

theorem maybeProbe_talks (free : Nat) (w : Env) (io : Io) (hu : io.link.state=.up) :
    Talks free io (maybeProbe w io) := by
  simp only [maybeProbe]
  refine .ite (.of_same (.refl _) rfl) (.ite (.of_same ?_ rfl) (.ite ?_ (.of_same (.refl _) rfl)))
  · exact ⟨rfl,rfl,rfl,rfl,rfl,rfl,rfl,rfl,rfl,rfl,rfl,rfl⟩
  · have h : Talks free io {io with link := {io.link with
        lastProbe := w.now, st := {io.link.st with probes := io.link.st.probes+1}}} :=
      .of_same ⟨rfl,rfl,rfl,rfl,rfl,rfl,rfl,rfl,rfl,rfl,rfl,rfl⟩ rfl
    exact h.trans (emit_talks w _ _ (.probe hu))

theorem tick_cases (now : UInt32) (free : Nat) (accepts : Nat → Bool) (l : Link) :
    Talks free {link := l} (llpLinkTick (.flat now free accepts) l) ∨
    l.state≠.mismatch ∧ Greets now free accepts ({l with state := .down},true) {link := l}
      (llpLinkTick (.flat now free accepts) l) := by
  have hl {t : UInt32} : Same {l with state := .down} {l with
      state := .down, lastRx := t, st := {l.st with downs := l.st.downs+1}} :=
    ⟨rfl,rfl,rfl,rfl,rfl,rfl,rfl,rfl,rfl,rfl,rfl,rfl⟩
  simp only [llpLinkTick]
  split
  next hd =>
    split
    next =>
      have hs : Same {l with state := .down} l :=
        ⟨rfl,hd,rfl,rfl,rfl,rfl,rfl,rfl,rfl,rfl,rfl,rfl⟩
      exact .inr ⟨by rw [hd]; decide,greets_answer now free accepts {link := l} hs⟩
    next => exact .inl (.of_same (.refl _) rfl)
  next => exact .inl (.of_same (.refl _) rfl)
  next hu =>
    split
    next => exact .inr ⟨by rw [hu]; decide,(greets_answer now free accepts _ hl).after rfl rfl⟩
    next =>
      refine .inl ?_
      have h1 := maybeCredit_talks now free accepts {link := l} false hu
      have h2 := maybeProbe_talks free (.flat now free accepts)
        (maybeCredit (.flat now free accepts) {link := l} false) (h1.same.state.trans hu)
      have h := h1.trans h2
      exact .ite (h.trans (maybeCredit_talks now free accepts _ true (h.same.state.trans hu))) h

/-- The configuration that llp_link_init keeps. -/
def Config.bounded (cfg : Config) : Config :=
  {cfg with
    rxWindow := if cfg.rxWindow>maxWindow then maxWindow else cfg.rxWindow
    maxPayload := if cfg.maxPayload>Llp.maxPayload then Llp.maxPayload else cfg.maxPayload}

def Link.born (cfg : Config) (session now : UInt32) : Link :=
  {cfg := cfg.bounded, session := session, lastRx := now, lastTx := now}

theorem init_greets (now : UInt32) (free : Nat) (accepts : Nat → Bool) (cfg : Config)
    (session : UInt32) :
    Greets now free accepts (.born cfg session now,true) {link := .born cfg session now}
      (llpLinkInit (.flat now free accepts) cfg session) :=
  greets_answer now free accepts {link := .born cfg session now} (.refl _)

end LugalOS.Llp
