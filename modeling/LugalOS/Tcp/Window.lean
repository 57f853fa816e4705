import LugalOS.Tcp.Send

namespace LugalOS.Tcp

open CString LittleEndian Buffer Run Serial

/-- The window the peer last advertised; none before its first segment. -/
def Conn.advertised (c : Conn) : Nat := if c.state=.synSent then 0 else c.sndWnd.toNat

/-- A data segment ends, counted from snd_una, at snd_nxt or before, and in the peer's window unless
it is a probe of one byte. -/
structure Within (c : Conn) (e : Emitted) : Prop where
  sent : (e.seq-c.sndUna).toNat+e.data.length≤(c.sndNxt-c.sndUna).toNat
  window : (e.seq-c.sndUna).toNat+e.data.length≤c.advertised ∨ e.data.length=1

/-- What tcp_retransmit takes from snd_una on. -/
def resendChunk (c : Conn) : UInt32 :=
  let chunk := c.txLen-(c.sndUna-c.txSeq)
  if c.peerMss<chunk then c.peerMss else chunk

/-- When the timer is due with bytes to send again, all held bytes were sent or a full segment is in
flight, and the window is open for what goes out; nothing is held while the SYN is unanswered. -/
def Call.Fits (c : Conn) : Call → Prop
  | .timers now => c.state≠.timeWait → c.rtoAtMs≠0 → c.rtoAtMs ≤ now → c.retries<tcpMaxRetries →
      c.sndUna-c.txSeq<c.txLen →
      (c.txLen≤c.sndNxt-c.txSeq ∨ c.peerMss≤c.sndNxt-c.sndUna) ∧
        ((resendChunk c).toNat≤c.advertised ∨ resendChunk c=1)
  | .tail _ => c.state=.synSent → c.txLen=0
  | _ => True

/-- The connection after some calls, the last one first. -/
def Life.runs (b : Board) (l : Life) : List Call → Life
  | [] => l
  | k::h => (l.runs b h).call b k

/-- How many sequence numbers the calls take. -/
def Life.travelled (b : Board) (l : Life) : List Call → Nat
  | [] => 0
  | k::h => l.travelled b h+
      (((l.runs b h).call b k).io.conn.sndNxt-(l.runs b h).io.conn.sndNxt).toNat

/-- As long as less than 2^31 numbers lie between, an ACK field for its bytes is taken. -/
def Acceptable (b : Board) (l : Life) (e : Emitted) : Prop :=
  ∀h now seg,(l.io.conn.sndNxt-l.io.conn.sndUna).toNat+l.travelled b h<2^31 →
    seg.flags.ack=true → (seg.ack-e.seq).toNat≤e.data.length →
    ∃io,inputAck b now seg (l.runs b h).io=.ok io

/-- What is sent between two outputs carries no data. -/
def Bare (out out' : List Emitted) : Prop := ∃es,out'=out++es ∧ ∀e∈es,e.data=[]

/-- The data segments sent are within what the connection has now. -/
def Kept (out : List Emitted) (io : Io) : Prop :=
  ∃es,io.out=out++es ∧ ∀e∈es,e.data≠[] → Within io.conn e

section
variable {b : Board} {out out' : List Emitted} {io : Io}

theorem Bare.refl (out : List Emitted) : Bare out out := ⟨[],(List.append_nil _).symm,by simp⟩

theorem Bare.of_eq (h : out'=out) : Bare out out' := h ▸ Bare.refl out

theorem Bare.trans {out'' : List Emitted} (h : Bare out out') (h' : Bare out' out'') :
    Bare out out'' := by
  obtain ⟨es,rfl,hes⟩ := h
  obtain ⟨fs,rfl,hfs⟩ := h'
  refine ⟨es++fs,List.append_assoc _ _ _,fun e he => ?_⟩
  rcases List.mem_append.mp he with he | he
  · exact hes e he
  · exact hfs e he

theorem Bare.kept (h : Bare out io.out) : Kept out io := by
  obtain ⟨es,ho,hes⟩ := h
  exact ⟨es,ho,fun e he hd => absurd (hes e he) hd⟩

theorem Bare.then (h : Bare out out') (hk : Kept out' io) : Kept out io := by
  obtain ⟨es,rfl,hes⟩ := h
  obtain ⟨fs,ho,hfs⟩ := hk
  refine ⟨es++fs,by rw [ho,List.append_assoc],fun e he hd => ?_⟩
  rcases List.mem_append.mp he with he | he
  · exact absurd (hes e he) hd
  · exact hfs e he hd

theorem bare_emit (f : Flags) (seq : UInt32) (m : Bool) (io : Io) :
    Bare io.out (tcpEmit b f seq [] m io).out := ⟨_,rfl,by simp⟩

theorem bare_abort (io : Io) : Bare io.out (connAbort b io).out := by
  unfold connAbort
  dsimp only
  split_ifs
  · exact bare_emit _ _ _ io
  · exact Bare.refl _

theorem bare_sendFin (now : Nat) (io : Io) : Bare io.out (sendFin b now io).out :=
  bare_emit _ _ _ {io with conn := {io.conn with finSent := true}}

theorem nextChunk_usable (c : Conn) (inFlight offset : UInt32) :
    nextChunk c inFlight offset ≤ if inFlight<c.sndWnd then c.sndWnd-inFlight else 0 := by
  unfold nextChunk
  dsimp only
  by_cases h1 : offset<c.txLen
  · rw [if_neg (not_not.mpr h1)]
    by_cases h2 : (if inFlight<c.sndWnd then c.sndWnd-inFlight else 0)<
        (if c.peerMss<c.txLen-offset then c.peerMss else c.txLen-offset)
    · rw [if_pos h2]
      exact UInt32.le_refl _
    · rw [if_neg h2]
      exact UInt32.not_lt.mp h2
  · rw [if_pos h1]
    exact UInt32.le_iff_toNat_le.mpr (Nat.zero_le _)

theorem nextChunk_window {c : Conn} {inFlight offset : UInt32}
    (h : nextChunk c inFlight offset≠0) :
    inFlight.toNat+(nextChunk c inFlight offset).toNat≤c.sndWnd.toNat := by
  have hle := nextChunk_usable c inFlight offset
  by_cases hopen : inFlight<c.sndWnd
  · rw [if_pos hopen,UInt32.le_iff_toNat_le,
      UInt32.toNat_sub_of_le _ _ (UInt32.le_of_lt hopen)] at hle
    have hlt := UInt32.lt_iff_toNat_lt.mp hopen
    omega
  · rw [if_neg hopen] at hle
    have h0 : nextChunk c inFlight offset=0 := by
      refine UInt32.toNat_inj.mp (Nat.le_zero.mp ?_)
      exact UInt32.le_iff_toNat_le.mp hle
    exact absurd h0 h

/-- The data segments sent so far end at snd_nxt or before and in the window. -/
def Sized (out : List Emitted) (io : Io) : Prop :=
  ∃es,io.out=out++es ∧ ∀e∈es,e.data≠[] →
    (e.seq-io.conn.sndUna).toNat+e.data.length≤(io.conn.sndNxt-io.conn.sndUna).toNat ∧
      (e.seq-io.conn.sndUna).toNat+e.data.length ≤ io.conn.sndWnd.toNat

theorem Sized.sendChunk (h : Sized out io) (now : Nat) {offset : UInt32}
    (h0 : nextChunk io.conn (io.conn.sndNxt-io.conn.sndUna) offset≠0) :
    Sized out (sendChunk b now offset
      (nextChunk io.conn (io.conn.sndNxt-io.conn.sndUna) offset) io) := by
  have hwnd := nextChunk_window h0
  generalize nextChunk io.conn (io.conn.sndNxt-io.conn.sndUna) offset=chunk at h0 hwnd
  obtain ⟨es,ho,hes⟩ := h
  obtain ⟨at',ms,re,_,harm⟩ := armRto_eq now {io.conn with
    needAck := false, sndNxt := io.conn.sndNxt+chunk}
  have hconn : (Tcp.sendChunk b now offset chunk io).conn={io.conn with
    needAck := false, sndNxt := io.conn.sndNxt+chunk, rtoAtMs := at', rtoMs := ms,
    retries := re} := harm
  have hnext : (io.conn.sndNxt+chunk-io.conn.sndUna).toNat=
      (io.conn.sndNxt-io.conn.sndUna).toNat+chunk.toNat := by
    rw [show io.conn.sndNxt+chunk-io.conn.sndUna=io.conn.sndNxt-io.conn.sndUna+chunk by grind,
      UInt32.toNat_add]
    exact Nat.mod_eq_of_lt (Nat.lt_of_le_of_lt hwnd io.conn.sndWnd.toNat_lt)
  have hout : (Tcp.sendChunk b now offset chunk io).out=io.out++[⟨{ack := true, psh := true},
    io.conn.sndNxt,io.conn.rcvNxt,_,false,memRead io.conn.tx offset.toNat chunk.toNat⟩] := rfl
  refine ⟨es++[_],by rw [hout,ho,List.append_assoc],?_⟩
  rw [hconn]
  dsimp only
  rw [hnext]
  intro e he hd
  rcases List.mem_append.mp he with he | he
  · obtain ⟨h1,h2⟩ := hes e he hd
    exact ⟨by omega,h2⟩
  · rw [List.mem_singleton.mp he]
    simp only [memRead_length]
    exact ⟨le_rfl,hwnd⟩

theorem Sized.transmitLoop (h : Sized out io) (now k : Nat) :
    Sized out (transmitLoop b now k (io.conn.sndNxt-io.conn.sndUna)
      (io.conn.sndNxt-io.conn.txSeq) io) :=
  transmitLoop_rule (fun _ h' h0 => h'.sendChunk now h0) k io h

theorem transmit_sized (now : Nat) (io : Io) : Sized io.out (tcpTransmit b now io) := by
  have hstart : Sized io.out io := ⟨[],(List.append_nil _).symm,by simp⟩
  have hloop := hstart.transmitLoop (b := b) now io.conn.txLen.toNat
  unfold tcpTransmit
  dsimp only
  split_ifs
  · obtain ⟨es,ho,hes⟩ := hloop
    refine ⟨es++[_],by rw [← List.append_assoc,← ho]; rfl,fun e he hd => ?_⟩
    rcases List.mem_append.mp he with he | he
    · exact hes e he hd
    · rw [List.mem_singleton.mp he] at hd
      exact absurd rfl hd
  · exact hloop

theorem kept_transmit (now : Nat) {io : Io} (h : io.conn.state=.synSent → io.conn.txLen=0) :
    Kept io.out (tcpTransmit b now io) := by
  have hq : (tcpTransmit b now io).conn.state=io.conn.state := by
    obtain ⟨_,_,_,_,_,_,he⟩ := quiet_transmit (b := b) now io
    rw [he]
  obtain ⟨es,ho,hes⟩ := transmit_sized (b := b) now io
  by_cases hs : io.conn.state=.synSent
  · refine Bare.kept ?_
    unfold tcpTransmit
    dsimp only
    rw [h hs]
    change Bare _ (if io.conn.needAck=true then _ else io).out
    split_ifs
    · exact bare_emit _ _ _ io
    · exact Bare.refl _
  · refine ⟨es,ho,fun e he hd => ⟨(hes e he hd).1,.inl ?_⟩⟩
    rw [Conn.advertised,hq,if_neg hs]
    exact (hes e he hd).2

theorem resendChunk_le {iss : UInt32} {c : Conn} {t u n : Nat} (hf : Flight b iss c t u n)
    (hlt : c.sndUna-c.txSeq<c.txLen) (h : c.txLen≤c.sndNxt-c.txSeq ∨ c.peerMss≤c.sndNxt-c.sndUna) :
    (resendChunk c).toNat≤(c.sndNxt-c.sndUna).toNat := by
  obtain ⟨htx,htu,hoff⟩ := hf.unaOffset hlt
  have hrest : (c.txLen-(c.sndUna-c.txSeq)).toNat=c.txLen.toNat-(u-t) := by
    rw [UInt32.toNat_sub_of_le _ _ (UInt32.le_of_lt hlt),hoff]
  have hle := hf.le
  have hfly := hf.inFlight_lt
  have hnu : (c.sndNxt-c.sndUna).toNat=n-u := by
    rw [hf.nxt,hf.una]
    exact num_sub_toNat iss hle (by omega)
  unfold resendChunk
  dsimp only
  rcases h with hall | hmss
  · rw [UInt32.le_iff_toNat_le,hf.offset htx] at hall
    split_ifs with h1
    · rw [UInt32.lt_iff_toNat_lt] at h1
      omega
    · omega
  · rw [UInt32.le_iff_toNat_le] at hmss
    split_ifs with h1
    · exact hmss
    · rw [UInt32.not_lt,UInt32.le_iff_toNat_le] at h1
      omega

theorem kept_retransmit (now : Nat) {iss : UInt32} {t u n : Nat} (hf : Flight b iss io.conn t u n)
    (h : io.conn.sndUna-io.conn.txSeq < io.conn.txLen →
      (io.conn.txLen ≤ io.conn.sndNxt-io.conn.txSeq ∨
        io.conn.peerMss ≤ io.conn.sndNxt-io.conn.sndUna) ∧
        ((resendChunk io.conn).toNat ≤ io.conn.advertised ∨ resendChunk io.conn=1)) :
    Kept io.out (tcpRetransmit b now io) := by
  unfold tcpRetransmit
  dsimp only
  by_cases hlt : io.conn.sndUna-io.conn.txSeq < io.conn.txLen
  · obtain ⟨hsize,hwnd⟩ := h hlt
    rw [if_pos hlt]
    refine ⟨[_],rfl,fun e he _ => ?_⟩
    have hchunk := resendChunk_le hf hlt hsize
    rw [List.mem_singleton.mp he]
    refine ⟨?_,?_⟩
    · simp only [memRead_length]
      change (io.conn.sndUna-io.conn.sndUna).toNat+(resendChunk io.conn).toNat≤_
      rw [UInt32.sub_self]
      exact (Nat.zero_add _).trans_le hchunk
    · simp only [memRead_length]
      change (io.conn.sndUna-io.conn.sndUna).toNat+(resendChunk io.conn).toNat ≤
        io.conn.advertised ∨ (resendChunk io.conn).toNat=1
      rw [UInt32.sub_self]
      refine hwnd.imp (fun h1 => (Nat.zero_add _).trans_le h1) fun h1 => ?_
      rw [h1]
      rfl
  · rw [if_neg hlt]
    refine Bare.kept ?_
    dsimp only
    split_ifs
    · exact bare_emit _ _ _ io
    · exact bare_emit _ _ _ io
    · exact bare_emit _ _ _ io
    · exact Bare.refl _

theorem kept_rto (now : Nat) {iss : UInt32} {t u n : Nat} (hf : Flight b iss io.conn t u n)
    (h : io.conn.state≠.timeWait → (Call.timers now).Fits io.conn) (hs : io.conn.state≠.timeWait) :
    Kept io.out (serviceRto b now io).1 := by
  unfold serviceRto
  split_ifs with h1 h2
  · exact (Bare.refl _).kept
  · exact (bare_abort io).kept
  · rw [not_or,not_lt] at h1
    exact kept_retransmit now hf fun hlt => h hs hs h1.1 h1.2 (not_le.mp h2) hlt

theorem kept_timers (now : Nat) {iss : UInt32} {t u n : Nat} (hf : Flight b iss io.conn t u n)
    (h : (Call.timers now).Fits io.conn) : Kept io.out (serviceTimers b now io).1 := by
  unfold serviceTimers
  split_ifs with hs h1
  · exact (Bare.refl _).kept
  · exact (Bare.refl _).kept
  · unfold serviceKeepalive
    split_ifs with h1 h2
    · exact kept_rto now hf (fun _ => h) hs
    · exact (bare_abort io).kept
    · exact Bare.then (bare_emit {ack := true} (io.conn.sndNxt-1) false io)
        (kept_rto now (hf.of_kept ⟨rfl,rfl,rfl,rfl,rfl,rfl,rfl,rfl,rfl,rfl⟩) (fun _ => h) hs)

theorem dropAcked_state (ack : UInt32) (c : Conn) : (dropAcked ack c).state=c.state := by
  unfold dropAcked
  dsimp only
  split_ifs <;> rfl

theorem inputAck_bare (now : Nat) (seg : Segment) (io : Io) :
    (∃io',inputAck b now seg io=.error io' ∧ Bare io.out io'.out) ∨
      ∃c,inputAck b now seg io=.ok {io with conn := c} ∧ c.state=io.conn.state := by
  unfold inputAck
  dsimp only
  split_ifs
  · exact .inr ⟨_,rfl,rfl⟩
  · exact .inl ⟨_,rfl,bare_emit _ _ _ io⟩
  · exact .inr ⟨_,rfl,dropAcked_state _ _⟩
  · exact .inr ⟨_,rfl,dropAcked_state _ _⟩
  · exact .inr ⟨_,rfl,rfl⟩

theorem inputState_bare (now : Nat) (seg : Segment) (io : Io) (h : io.conn.state≠.synSent) :
    (∃io',inputState now seg io=.error io' ∧ io'.out=io.out) ∨
      ∃io',inputState now seg io=.ok io' ∧ io'.out=io.out ∧ io'.conn.state≠.synSent := by
  unfold inputState
  dsimp only
  split
  · split_ifs
    · exact .inl ⟨_,rfl,rfl⟩
    · exact .inl ⟨_,rfl,rfl⟩
    · exact .inr ⟨_,rfl,rfl,by simp⟩
  · split_ifs
    · exact .inr ⟨_,rfl,rfl,by simp⟩
    · exact .inr ⟨_,rfl,rfl,h⟩
  · split_ifs
    · exact .inl ⟨_,rfl,rfl⟩
    · exact .inr ⟨_,rfl,rfl,h⟩
  · split_ifs
    · exact .inr ⟨_,rfl,rfl,by simp⟩
    · exact .inr ⟨_,rfl,rfl,h⟩
  · exact .inr ⟨_,rfl,rfl,h⟩

theorem inputFin_open (now : Nat) (seg : Segment) (dataLen : UInt32) (io : Io)
    (h : io.conn.state≠.synSent) : (inputFin now seg dataLen io).out=io.out ∧
      (inputFin now seg dataLen io).conn.state≠.synSent := by
  unfold inputFin
  dsimp only
  split_ifs
  · split
    · exact ⟨rfl,by simp⟩
    · exact ⟨rfl,by simp⟩
    · exact ⟨rfl,by simp⟩
    · exact ⟨rfl,h⟩
  · exact ⟨rfl,h⟩

theorem kept_inputTail (now : Nat) (seg : Segment) (h : io.conn.state≠.synSent) :
    Kept io.out (inputTail b now seg io) := by
  have hgo (io' : Io) (dataLen : UInt32) (ho : io'.out=io.out) (hs : io'.conn.state≠.synSent) :
      Kept io.out (tcpTransmit b now (inputFin now seg dataLen io')) := by
    obtain ⟨hout,hopen⟩ := inputFin_open now seg dataLen io' hs
    rw [← ho,← hout]
    exact kept_transmit now fun he => absurd he hopen
  unfold inputTail inputData
  dsimp only
  split_ifs with h1 h2 h3
  · exact (bare_emit _ _ _ io).kept
  · exact hgo io 0 rfl h
  · exact (bare_emit _ _ _ io).kept
  · refine hgo _ _ rfl ?_
    unfold takeData accept
    dsimp only
    split_ifs <;> exact h

theorem bare_inputSynSent (seg : Segment) (io : Io) :
    Bare io.out (inputSynSent b seg io).out := by
  unfold inputSynSent
  dsimp only
  split_ifs
  · exact Bare.refl _
  · exact Bare.refl _
  · exact bare_abort io
  · exact ⟨_,rfl,by simp⟩

theorem kept_input (now : Nat) (seg : Segment) (io : Io) : Kept io.out (tcpInput b now seg io) := by
  unfold tcpInput
  dsimp only
  split_ifs with h1 h2 h3
  · exact (Bare.refl _).kept
  · exact (Bare.refl _).kept
  · exact (bare_inputSynSent seg {io with
      conn := {io.conn with lastRxMs := now, kaProbes := 0}}).kept
  · rcases inputAck_bare (b := b) now seg {io with
      conn := {io.conn with lastRxMs := now, kaProbes := 0}} with ⟨io',he,hb⟩ | ⟨c,he,hs⟩
    · rw [he]
      exact hb.kept
    · rw [he]
      dsimp only
      have hopen : c.state≠.synSent := fun h => h3 (hs.symm.trans h)
      rcases inputState_bare now seg {io with conn := {c with sndWnd := seg.wnd}} hopen with
        ⟨io',he',ho⟩ | ⟨io',he',ho,hs'⟩
      · rw [he']
        exact (Bare.of_eq ho).kept
      · rw [he']
        dsimp only at ho ⊢
        rw [← ho]
        exact kept_inputTail now seg hs'

theorem bare_close (now : Nat) (io : Io) : Bare io.out (tcpClose b now io).out := by
  unfold tcpClose
  split_ifs
  · exact Bare.refl _
  · exact bare_sendFin now io
  · exact bare_sendFin now io
  · exact bare_abort io

theorem bare_streamClose (now : Nat) (io : Io) : Bare io.out (tcpStreamClose b now io).out := by
  unfold tcpStreamClose
  dsimp only
  split_ifs
  · exact Bare.refl _
  · exact bare_sendFin now io
  · exact bare_sendFin now io
  · exact bare_abort io

theorem bare_servedP9 (io : Io) : Bare io.out (serviceP9 b io).1.out := by
  unfold serviceP9
  split_ifs
  · exact bare_abort io
  · exact Bare.refl _

theorem serviceClose_bare (now : Nat) (io : Io) (h : io.conn.state=.synSent → io.conn.txLen=0) :
    Bare io.out (serviceClose b now io).out ∧ ((serviceClose b now io).conn.state=.synSent →
      (serviceClose b now io).conn.txLen=0) := by
  unfold serviceClose
  dsimp only
  split_ifs
  · exact ⟨bare_sendFin now {io with conn := {io.conn with closePending := false}},by simp⟩
  · exact ⟨bare_sendFin now {io with conn := {io.conn with closePending := false}},by simp⟩
  · exact ⟨Bare.refl _,h⟩
  · exact ⟨Bare.refl _,h⟩

theorem serviceHalfClosed_bare (now : Nat) (io : Io)
    (h : io.conn.state=.synSent → io.conn.txLen=0) :
    Bare io.out (serviceHalfClosed b now io).out ∧
      ((serviceHalfClosed b now io).conn.state=.synSent →
        (serviceHalfClosed b now io).conn.txLen=0) := by
  unfold serviceHalfClosed
  dsimp only
  split_ifs
  · exact ⟨bare_sendFin now io,by simp⟩
  · exact ⟨Bare.refl _,h⟩

theorem kept_tail (now : Nat) (h : io.conn.state=.synSent → io.conn.txLen=0) :
    Kept io.out (serviceTail b now io) := by
  obtain ⟨hclose,h1⟩ := serviceClose_bare (b := b) now io h
  obtain ⟨hhalf,h2⟩ := serviceHalfClosed_bare (b := b) now (serviceClose b now io) h1
  exact (hclose.trans hhalf).then (kept_transmit now h2)

theorem kept_spartan (now : Nat) (consumed : UInt32) (reply : Bytes) (closeAfter : Bool)
    (h : io.conn.state=.established) :
    Kept io.out (serviceSpartan b now consumed reply closeAfter io) := by
  have htaken (c : Conn) : (takeRequest consumed c).state=c.state := by
    unfold takeRequest
    split_ifs <;> rfl
  have hsent : Kept io.out (sendReply b now reply
      ⟨takeRequest consumed {io.conn with tx := patch io.conn.tx 0 reply},io.out⟩) := by
    unfold sendReply
    split_ifs
    · refine kept_transmit now fun hs => ?_
      have hs' := (htaken {io.conn with tx := patch io.conn.tx 0 reply}).symm.trans hs
      rw [show _=TcpState.established from h] at hs'
      cases hs'
    · exact (Bare.refl _).kept
  unfold serviceSpartan
  dsimp only
  split_ifs
  · obtain ⟨es,ho,hes⟩ := hsent
    exact ⟨es,ho,fun e he hd => ⟨(hes e he hd).sent,(hes e he hd).window⟩⟩
  · exact hsent

theorem kept_call {iss : UInt32} {l : Life} {t u n : Nat} {k : Call}
    (hf : Flight b iss l.io.conn t u n) (hl : k.Legal b l.io.conn) (h : k.Fits l.io.conn) :
    Kept l.io.out (l.call b k).io := by
  cases k with
  | input now seg => exact kept_input now seg l.io
  | linkClose now => exact (bare_close now l.io).kept
  | streamClose now => exact (bare_streamClose now l.io).kept
  | timers now => exact kept_timers now hf h
  | servedP9 => exact (bare_servedP9 l.io).kept
  | spartan now consumed reply closeAfter =>
    have hs := hl.2.1
    simp only [Conn.serves,decide_eq_true_eq] at hs
    exact kept_spartan now consumed reply closeAfter hs.1
  | tail now => exact kept_tail now h
  | _ => exact (Bare.refl _).kept

theorem runs_nxt (l : Life) (h : List Call) :
    (l.runs b h).io.conn.sndNxt=num l.io.conn.sndNxt (l.travelled b h) := by
  induction h with
  | nil => exact (num_zero _).symm
  | cons k h ih =>
    rw [Life.travelled,num_add,toUInt32_toNat_cast,← ih]
    change ((l.runs b h).call b k).io.conn.sndNxt=_
    grind

theorem Within.acceptable {l : Life} {e : Emitted} (h : Within l.io.conn e) : Acceptable b l e := by
  intro calls now seg hfar hack hseg
  have hsent := h.sent
  -- positions from snd_una
  have hnxt := runs_nxt (b := b) l calls
  have hn := num_of_sub l.io.conn.sndUna l.io.conn.sndNxt 0
  have ha : seg.ack=num l.io.conn.sndUna
      ((e.seq-l.io.conn.sndUna).toNat+(seg.ack-e.seq).toNat) := by
    rw [num_add,toUInt32_toNat_cast,num,toUInt32_toNat_cast]
    grind
  rw [num_zero,Nat.zero_add] at hn
  have hthen : (l.runs b calls).io.conn.sndNxt=num l.io.conn.sndUna
      ((l.io.conn.sndNxt-l.io.conn.sndUna).toNat+l.travelled b calls) := by
    rw [hnxt,num_add,← hn]
    rfl
  have hbehind : seqGt seg.ack (l.runs b calls).io.conn.sndNxt=false := by
    rw [ha,hthen,seqGt]
    exact decide_eq_false (not_ahead _ (by omega) (by omega))
  unfold inputAck
  dsimp only
  rw [hbehind,hack]
  split_ifs with h1 h2
  · exact ⟨_,rfl⟩
  · cases h2
  · exact ⟨_,rfl⟩
  · exact ⟨_,rfl⟩
  · exact ⟨_,rfl⟩

end

/-- In a run whose retransmissions find what they send in flight and the window open for it, and
which holds nothing back behind its SYN, every data segment ends at snd_nxt or before and in the
window, and an ACK of its bytes is taken. -/
theorem tcp_within (b : Board) (l0 l : Life) (h : List Call) (k : Call) (hb : Born b l0)
    (hr : Reach (LifeStep b fun l k => k.Fits l.io.conn) l0 h l) (hl : k.Legal b l.io.conn)
    (hk : k.Fits l.io.conn) :
    ∃es,(l.call b k).io.out=l.io.out++es ∧ ∀e∈es,e.data≠[] →
      Within (l.call b k).io.conn e ∧ Acceptable b (l.call b k) e := by
  obtain ⟨u,_,_,hs⟩ := sending_reach (fun hf : False => absurd hf id) hb hr
  obtain ⟨t,n,hsend⟩ := hs hl.inUse
  obtain ⟨es,ho,hes⟩ := kept_call hsend.flight hl hk
  exact ⟨es,ho,fun e he hd => ⟨hes e he hd,(hes e he hd).acceptable⟩⟩

/-- A frame goes out and is sent again. -/
theorem tcp_within_again :
    let l1 := dialledLink.call .small (.input 5 synAck)
    let l2 := l1.call .small (.linkSend [104,105])
    let l3 := l2.call .small (.tail 6)
    (l3.call .small (.timers 306)).io.out.length=l3.io.out.length+1 ∧
      ∃es,(l3.call .small (.timers 306)).io.out=l3.io.out++es ∧ ∀e∈es,e.data≠[] →
        Within (l3.call .small (.timers 306)).io.conn e ∧
          Acceptable .small (l3.call .small (.timers 306)) e := by
  intro l1 l2 l3
  have h1 : LifeStep .small (fun l k => k.Fits l.io.conn) dialledLink (.input 5 synAck) l1 :=
    .call _ _ rfl trivial
  have h2 : LifeStep .small (fun l k => k.Fits l.io.conn) l1 (.linkSend [104,105]) l2 :=
    .call _ _ (by decide +kernel : l1.io.conn.inUse=true ∧ l1.io.conn.isStream=false) trivial
  have h3 : LifeStep .small (fun l k => k.Fits l.io.conn) l2 (.tail 6) l3 := by
    refine .call _ _ (by decide +kernel : l2.io.conn.inUse=true) ?_
    intro hs
    exact absurd hs (by decide +kernel)
  refine ⟨by decide +kernel,tcp_within .small dialledLink l3 _ (.timers 306)
    (Born.dialled _ _ _ _ _ _ _) (((Reach.start.next h1).next h2).next h3)
    (by decide +kernel : l3.io.conn.inUse=true) ?_⟩
  exact fun _ _ _ _ _ => ⟨.inl (by decide +kernel),.inl (by decide +kernel)⟩

/-- Two bytes are held and the window lets one of them out. When the timer fires, both are sent, and
the ACK of both is one for data never sent. -/
theorem tcp_beyond :
    ¬∀(b : Board) (l0 l : Life) (h : List Call) (k : Call),Born b l0 →
      Reach (LifeStep b fun _ _ => True) l0 h l → k.Legal b l.io.conn →
      ∃es,(l.call b k).io.out=l.io.out++es ∧ ∀e∈es,e.data≠[] →
        Within (l.call b k).io.conn e ∨ Acceptable b (l.call b k) e := by
  intro hall
  let l1 := dialledLink.call .small (.input 5 {synAck with wnd := 1})
  let l2 := l1.call .small (.linkSend [104,105])
  let l3 := l2.call .small (.tail 6)
  have h1 : LifeStep .small (fun _ _ => True) dialledLink (.input 5 {synAck with wnd := 1}) l1 :=
    .call _ _ rfl trivial
  have h2 : LifeStep .small (fun _ _ => True) l1 (.linkSend [104,105]) l2 :=
    .call _ _ (by decide +kernel : l1.io.conn.inUse=true ∧ l1.io.conn.isStream=false) trivial
  have h3 : LifeStep .small (fun _ _ => True) l2 (.tail 6) l3 :=
    .call _ _ (by decide +kernel : l2.io.conn.inUse=true) trivial
  obtain ⟨es,ho,hes⟩ := hall .small dialledLink l3 _ (.timers 306) (Born.dialled _ _ _ _ _ _ _)
    (((Reach.start.next h1).next h2).next h3) (by decide +kernel : l3.io.conn.inUse=true)
  have hlast : (l3.call .small (.timers 306)).io.out=l3.io.out++
      [⟨{ack := true, psh := true},1,1,2048,false,[104,105]⟩] := by decide +kernel
  rw [hlast,List.append_cancel_left_eq] at ho
  rcases hes _ (ho ▸ List.mem_singleton_self _) (by decide) with hw | ha
  · exact absurd hw.sent (by decide +kernel)
  · obtain ⟨io,hio⟩ := ha [] 400 {flags := {ack := true}, seq := 1, ack := 3, wnd := 1000}
      (by decide +kernel) rfl (by decide)
    have herr : (inputAck .small 400 {flags := {ack := true}, seq := 1, ack := 3, wnd := 1000}
        (l3.call .small (.timers 306)).io).toOption.isNone=true := by decide +kernel
    change inputAck .small 400 _ (l3.call .small (.timers 306)).io=_ at hio
    rw [hio] at herr
    cases herr

end LugalOS.Tcp
