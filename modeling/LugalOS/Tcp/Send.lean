import LugalOS.Tcp.Sending

namespace LugalOS.Tcp

open CString LittleEndian Buffer Run Serial

def Call.closes : Call → Prop
  | .linkClose _ | .streamClose _ => True
  | _ => False

/-- Every segment carries what was written at its place, and the FIN follows the last byte; the
buffer holds all but bytes that an ACK field of the run covers; a close drops nothing. -/
structure Sent (b : Board) (ok : Life → Call → Prop) (iss : UInt32) (h : List Call) (l : Life) :
    Prop where
  segments : ∀e∈l.io.out,FromWritten iss l.written e
  buffer : l.io.conn.inUse=true → ∃k,k+l.io.conn.txLen.toNat=l.written.length ∧
    memRead l.io.conn.tx 0 l.io.conn.txLen.toNat=l.written.drop k ∧
    (k=0 ∨ ∃now seg m,Call.input now seg∈h ∧ seg.flags.ack=true ∧ seg.ack=num (iss+1) m ∧ k ≤ m ∧
      m≤l.written.length+1)
  closing : ∀k : Call,k.Legal b l.io.conn → ok l k → k.closes →
    (l.call b k).io.conn.inUse=true ∨ l.io.conn.txLen=0

section
variable {b : Board} {iss : UInt32} {w : Bytes} {io : Io} {t u n : Nat}

theorem Sending.dropped (h : Sending True b iss w io t u n) {calls : List Call}
    (hn : Named iss calls u) : ∃k,k+io.conn.txLen.toNat=w.length ∧
      memRead io.conn.tx 0 io.conn.txLen.toNat=w.drop k ∧
      (k=0 ∨ ∃now seg m,Call.input now seg∈calls ∧ seg.flags.ack=true ∧ seg.ack=num (iss+1) m ∧
        k ≤ m ∧ m≤w.length+1) := by
  have hc := h.carried trivial
  have hf := h.flight
  have hl := hc.length_le
  refine ⟨w.length-io.conn.txLen.toNat,Nat.sub_add_cancel hl,hc.held,?_⟩
  by_cases h0 : w.length-io.conn.txLen.toNat=0
  · exact .inl h0
  · -- the first bytes are gone, so the SYN and they are acknowledged
    have hu : w.length-io.conn.txLen.toNat<u ∧ u≤w.length+2 := by
      have hle := hf.le
      have hend : n≤w.length+2 := by
        cases hfin : io.conn.finSent with
        | true => exact (hc.fin hfin).le
        | false =>
          by_cases htx : io.conn.txLen=0
          · have he := hc.empty hfin htx
            omega
          · have hlast := (hf.seq htx).2.2.2
            have hp := (hc.place htx).1
            rw [hfin] at hlast
            change n≤_+0 at hlast
            omega
      refine ⟨?_,hle.trans hend⟩
      by_cases htx : io.conn.txLen=0
      · have hi := hf.idle htx
        rw [htx] at h0 ⊢
        change w.length-0<u
        cases hfin : io.conn.finSent with
        | true =>
          have he := hc.fin hfin
          omega
        | false =>
          have he := hc.empty hfin htx
          change w.length-0≠0 at h0
          have hu0 : u≠0 := by omega
          have hun := hi.2 hfin hu0
          omega
      · obtain ⟨hp,ht⟩ := hc.place htx
        omega
    rcases hn with hz | ⟨now,seg,hmem,hack,hseq⟩
    · omega
    · refine .inr ⟨now,seg,u-1,hmem,hack,?_,by omega,by omega⟩
      rw [hseq,← num_succ_base]
      exact congrArg (num iss) (by omega)

theorem Sending.close_empty {l : Life} (h : Sending True b iss l.written l.io t u n) {k : Call}
    (hl : k.Legal b l.io.conn) (hs : k.Safe l.io.conn) (hk : k.closes) :
    (l.call b k).io.conn.inUse=true ∨ l.io.conn.txLen=0 := by
  have hkeep (now : Nat) (hu : l.io.conn.inUse=true) :
      (Tcp.sendFin b now l.io).conn.inUse=true := by
    obtain ⟨_,_,_,_,_,_,he⟩ := quiet_sendFin (b := b) now l.io
    rw [he]
    exact hu
  cases k with
  | linkClose now =>
    rcases hs with htx | ⟨hopen,_⟩
    · exact .inr htx
    · refine .inl ?_
      change (Tcp.tcpClose b now l.io).conn.inUse=true
      unfold Tcp.tcpClose
      split_ifs with h1 h2 h3
      · exact hl.1
      · exact hkeep now hl.1
      · exact hkeep now hl.1
      · rcases hopen with h | h
        · exact absurd h h2
        · exact absurd h h3
  | streamClose now =>
    by_cases htx : l.io.conn.txLen=0
    · exact .inr htx
    · refine .inl ?_
      change (Tcp.tcpStreamClose b now l.io).conn.inUse=true
      unfold Tcp.tcpStreamClose
      dsimp only
      rw [if_pos ⟨htx,h.flight.stream hl.2 htx⟩]
      exact hl.1
  | _ => cases hk

end

/-- In a run whose every tcp_close finds what it closes empty or in flight, and which sends no frame
after the FIN, every segment carries the written bytes of its place and nothing is lost. -/
theorem tcp_sends (b : Board) (l0 l : Life) (h : List Call) (hb : Born b l0)
    (hr : Reach (LifeStep b fun l k => k.Safe l.io.conn) l0 h l) :
    Sent b (fun l k => k.Safe l.io.conn) l0.io.conn.sndUna h l := by
  obtain ⟨u,hn,hout,hs⟩ := sending_reach (fun _ : True => fun _ _ hs => hs) hb hr
  refine ⟨hout trivial,fun hu => ?_,fun k hl hs' hk => ?_⟩
  · obtain ⟨t,n,hsend⟩ := hs hu
    exact hsend.dropped hn
  · obtain ⟨t,n,hsend⟩ := hs hl.inUse
    exact hsend.close_empty hl hs' hk

/-- A link dialled with the number 0. -/
def dialledLink : Life :=
  ⟨connStartSyn .small 0 {syn := true} ⟨dialConn {} 0 564 50000 0 false,[]⟩,[],[]⟩

def synAck : Segment := {flags := {syn := true, ack := true}, seq := 0, ack := 1, wnd := 1000}

/-- A frame goes out, and the FIN behind it. -/
theorem tcp_sends_hello :
    let l1 := dialledLink.call .small (.input 5 synAck)
    let l2 := l1.call .small (.linkSend [104,105])
    let l3 := l2.call .small (.tail 6)
    let l4 := l3.call .small (.linkClose 7)
    l4.io.out.map (fun e => (e.flags.fin,e.seq,e.data))=
      [(false,0,[]),(false,1,[]),(false,1,[104,105]),(true,3,[])] ∧
    Sent .small (fun l k => k.Safe l.io.conn) 0
      [.linkClose 7,.tail 6,.linkSend [104,105],.input 5 synAck] l4 := by
  intro l1 l2 l3 l4
  have h1 : LifeStep .small (fun l k => k.Safe l.io.conn) dialledLink (.input 5 synAck) l1 :=
    .call _ _ rfl trivial
  have h2 : LifeStep .small (fun l k => k.Safe l.io.conn) l1 (.linkSend [104,105]) l2 :=
    .call _ _ ⟨by decide +kernel,by decide +kernel⟩ (by decide +kernel : l1.io.conn.finSent=false)
  have h3 : LifeStep .small (fun l k => k.Safe l.io.conn) l2 (.tail 6) l3 :=
    .call _ _ (by decide +kernel : l2.io.conn.inUse=true) trivial
  have h4 : LifeStep .small (fun l k => k.Safe l.io.conn) l3 (.linkClose 7) l4 :=
    .call _ _ ⟨by decide +kernel,by decide +kernel⟩
      (.inr ⟨by decide +kernel,by decide +kernel⟩ : (l3.io.conn.txLen=0 ∨ _))
  exact ⟨by decide +kernel,tcp_sends .small dialledLink l4 _ (Born.dialled _ _ _ _ _ _ _)
    ((((Reach.start.next h1).next h2).next h3).next h4)⟩

/-- A frame in the buffer and a tcp_close before the next service round: the FIN takes the number
of the frame's first byte. -/
theorem tcp_sends_close :
    ¬∀(b : Board) (l0 l : Life) (h : List Call),Born b l0 →
      Reach (LifeStep b fun _ _ => True) l0 h l →
      Sent b (fun _ _ => True) l0.io.conn.sndUna h l := by
  intro hall
  let l1 := dialledLink.call .small (.input 5 synAck)
  let l2 := l1.call .small (.linkSend [104,105])
  let l3 := l2.call .small (.linkClose 7)
  have h1 : LifeStep .small (fun _ _ => True) dialledLink (.input 5 synAck) l1 :=
    .call _ _ rfl trivial
  have h2 : LifeStep .small (fun _ _ => True) l1 (.linkSend [104,105]) l2 :=
    .call _ _ ⟨by decide +kernel,by decide +kernel⟩ trivial
  have h3 : LifeStep .small (fun _ _ => True) l2 (.linkClose 7) l3 :=
    .call _ _ ⟨by decide +kernel,by decide +kernel⟩ trivial
  have hs := hall .small dialledLink l3 _ (Born.dialled _ _ _ _ _ _ _)
    (((Reach.start.next h1).next h2).next h3)
  have hout : l3.io.out[2]?.map (fun e => (e.flags.fin,e.seq))=some (true,1) := by decide +kernel
  obtain ⟨e,he,hfin⟩ := Option.map_eq_some_iff.mp hout
  have hf := (hs.segments e (List.mem_of_getElem? he)).fin (congrArg Prod.fst hfin)
  rw [show e.seq=1 from congrArg Prod.snd hfin] at hf
  exact absurd hf (by decide +kernel)

section
variable {safe : Prop} {b : Board} {iss : UInt32} {w : Bytes} {io : Io} {t u n : Nat}

theorem nextChunk_eq_zero {c : Conn} (hmss : c.peerMss≠0) (offset : UInt32) :
    nextChunk c 0 offset=0 ↔ c.sndWnd=0 ∨ c.txLen≤offset := by
  have hm : c.peerMss.toNat≠0 := fun he => hmss (UInt32.toNat_inj.mp he)
  unfold nextChunk
  dsimp only
  by_cases hlt : offset<c.txLen
  · rw [if_neg (not_not.mpr hlt)]
    have hno : ¬c.txLen≤offset := UInt32.not_le.mpr hlt
    have hsub := UInt32.toNat_sub_of_le _ _ (UInt32.le_of_lt hlt)
    have hlt' := UInt32.lt_iff_toNat_lt.mp hlt
    have husable : (if 0<c.sndWnd then c.sndWnd-0 else 0)=c.sndWnd := by
      split_ifs with h0
      · exact UInt32.sub_zero _
      · exact (UInt32.toNat_inj.mp (by
          have hz := mt UInt32.lt_iff_toNat_lt.mpr h0
          simp only [UInt32.toNat_zero] at hz ⊢
          omega)).symm
    rw [husable,or_iff_left hno]
    simp only [← UInt32.toNat_inj,UInt32.toNat_zero,UInt32.lt_iff_toNat_lt]
    split_ifs with h1 h2 h2 <;> simp only [UInt32.lt_iff_toNat_lt] at * <;> omega
  · rw [if_pos hlt]
    exact ⟨fun _ => .inr (UInt32.not_lt.mp hlt),fun _ => rfl⟩

theorem Sending.transmit_timer (h : Sending safe b iss w io t u n) (now : Nat)
    (htx : io.conn.txLen≠0) : (tcpTransmit b now io).conn.rtoAtMs=0 ↔
      io.conn.sndUna=io.conn.sndNxt ∧
        (io.conn.sndWnd=0 ∨ io.conn.txLen ≤ io.conn.sndNxt-io.conn.txSeq) := by
  have hemit : (tcpTransmit b now io).conn.rtoAtMs=(Tcp.transmitLoop b now io.conn.txLen.toNat
      (io.conn.sndNxt-io.conn.sndUna) (io.conn.sndNxt-io.conn.txSeq) io).conn.rtoAtMs := by
    unfold tcpTransmit
    dsimp only
    split_ifs <;> rfl
  have hpos : io.conn.txLen.toNat≠0 := fun he => htx (UInt32.toNat_inj.mp he)
  obtain ⟨k,hk⟩ := Nat.exists_eq_succ_of_ne_zero hpos
  have hzero (he : io.conn.sndUna=io.conn.sndNxt) : io.conn.sndNxt-io.conn.sndUna=0 := by
    rw [he,UInt32.sub_self]
  rw [hemit,hk]
  by_cases h0 : nextChunk io.conn (io.conn.sndNxt-io.conn.sndUna)
      (io.conn.sndNxt-io.conn.txSeq)=0
  · -- nothing goes out: the timer is as it was
    rw [Tcp.transmitLoop,if_pos h0,h.flight.timer,h.flight.una_eq_nxt]
    refine ⟨fun he => ⟨he,?_⟩,fun he => he.1⟩
    rw [hzero (h.flight.una_eq_nxt.mpr he)] at h0
    exact (nextChunk_eq_zero h.flight.mss _).mp h0
  · -- something goes out, and stays unacknowledged
    obtain ⟨hlt,hle⟩ := nextChunk_le h0
    obtain ⟨n',hn,h'⟩ := (h.sendChunk now hlt h0 hle).transmitLoop now k
    rw [transmitLoop_turn now k rfl h0]
    have hc : (nextChunk io.conn (io.conn.sndNxt-io.conn.sndUna)
        (io.conn.sndNxt-io.conn.txSeq)).toNat≠0 := fun he => h0 (UInt32.toNat_inj.mp he)
    have hu := h.flight.le
    refine ⟨fun he => ?_,fun he => ?_⟩
    · have hun := h'.flight.timer.mp he
      omega
    · rw [hzero he.1] at h0
      exact absurd ((nextChunk_eq_zero h.flight.mss _).mpr he.2) h0

theorem serviceTail_eq (now : Nat) (htx : io.conn.txLen≠0) :
    serviceTail b now io=tcpTransmit b now io := by
  have hclose : serviceClose b now io=io := by
    unfold serviceClose
    exact if_neg fun hc => htx hc.2.1
  have hhalf : serviceHalfClosed b now io=io := by
    unfold serviceHalfClosed
    exact if_neg fun hc => htx hc.2.1
  rw [serviceTail,hclose,hhalf]

theorem serviceTail_txLen (now : Nat) (io : Io) :
    (serviceTail b now io).conn.txLen=io.conn.txLen := by
  have hquiet {c c' : Conn} (h : Quiet c c') : c'.txLen=c.txLen := by
    obtain ⟨_,_,_,_,_,_,rfl⟩ := h
    rfl
  have hfin (io : Io) : (sendFin b now io).conn.txLen=io.conn.txLen :=
    hquiet (quiet_sendFin now io)
  have hclose : (serviceClose b now io).conn.txLen=io.conn.txLen := by
    unfold serviceClose
    dsimp only
    split_ifs
    · exact hfin _
    · exact hfin _
    · rfl
    · rfl
  have hhalf (io : Io) : (serviceHalfClosed b now io).conn.txLen=io.conn.txLen := by
    unfold serviceHalfClosed
    dsimp only
    split_ifs
    · exact hfin _
    · rfl
  exact (hquiet (quiet_transmit now _)).trans ((hhalf _).trans hclose)

end

/-- On every run: a connection that still holds bytes after a service round has a deadline unless,
before it, everything sent was acknowledged and the window was closed or everything was sent. -/
theorem tcp_timed (b : Board) (l0 l : Life) (h : List Call) (now : Nat) (hb : Born b l0)
    (hr : Reach (LifeStep b fun _ _ => True) l0 h l) (hu : l.io.conn.inUse=true)
    (htx : (l.call b (.tail now)).io.conn.txLen≠0) :
    (l.call b (.tail now)).io.conn.rtoAtMs≠0 ↔ ¬(l.io.conn.sndUna=l.io.conn.sndNxt ∧
      (l.io.conn.sndWnd=0 ∨ l.io.conn.txLen≤l.io.conn.sndNxt-l.io.conn.txSeq)) := by
  obtain ⟨u,_,_,hs⟩ := sending_reach (fun hf : False => hf.elim) hb hr
  obtain ⟨t,n,hsend⟩ := hs hu
  have htx' : l.io.conn.txLen≠0 := fun he => htx ((serviceTail_txLen now l.io).trans he)
  change (serviceTail b now l.io).conn.rtoAtMs≠0 ↔ _
  rw [serviceTail_eq now htx']
  exact not_congr (hsend.transmit_timer now htx')

/-- A frame that goes out arms the timer. -/
theorem tcp_timed_hello :
    let l1 := dialledLink.call .small (.input 5 synAck)
    let l2 := l1.call .small (.linkSend [104,105])
    (l2.call .small (.tail 6)).io.conn.rtoAtMs=306 ∧
    ((l2.call .small (.tail 6)).io.conn.rtoAtMs≠0 ↔ ¬(l2.io.conn.sndUna=l2.io.conn.sndNxt ∧
      (l2.io.conn.sndWnd=0 ∨ l2.io.conn.txLen≤l2.io.conn.sndNxt-l2.io.conn.txSeq))) := by
  intro l1 l2
  have h1 : LifeStep .small (fun _ _ => True) dialledLink (.input 5 synAck) l1 :=
    .call _ _ rfl trivial
  have h2 : LifeStep .small (fun _ _ => True) l1 (.linkSend [104,105]) l2 :=
    .call _ _ ⟨by decide +kernel,by decide +kernel⟩ trivial
  exact ⟨by decide +kernel,tcp_timed .small dialledLink l2 _ 6 (Born.dialled _ _ _ _ _ _ _)
    ((Reach.start.next h1).next h2) (by decide +kernel) (by decide +kernel)⟩

/-- The peer's window is closed when a frame is written: nothing goes out and nothing probes. -/
theorem tcp_timed_closed :
    ¬∀(b : Board) (l0 l : Life) (h : List Call) (now : Nat),Born b l0 →
      Reach (LifeStep b fun _ _ => True) l0 h l → l.io.conn.inUse=true →
      (l.call b (.tail now)).io.conn.state.opened → (l.call b (.tail now)).io.conn.txLen≠0 →
      (l.call b (.tail now)).io.conn.rtoAtMs≠0 := by
  intro hall
  let l1 := dialledLink.call .small (.input 5 {synAck with wnd := 0})
  let l2 := l1.call .small (.linkSend [104,105])
  have h1 : LifeStep .small (fun _ _ => True) dialledLink (.input 5 {synAck with wnd := 0}) l1 :=
    .call _ _ rfl trivial
  have h2 : LifeStep .small (fun _ _ => True) l1 (.linkSend [104,105]) l2 :=
    .call _ _ ⟨by decide +kernel,by decide +kernel⟩ trivial
  exact hall .small dialledLink l2 _ 6 (Born.dialled _ _ _ _ _ _ _)
    ((Reach.start.next h1).next h2) (by decide +kernel) (by decide +kernel) (by decide +kernel)
    (by decide +kernel)

end LugalOS.Tcp
