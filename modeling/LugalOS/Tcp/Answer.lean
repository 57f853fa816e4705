import LugalOS.Tcp.Receive
import LugalOS.Tcp.Sending

namespace LugalOS.Tcp

open CString Buffer Run

/-- The states after the handshake. -/
def TcpState.synchronized (s : TcpState) : Prop :=
  s=.established ∨ s=.finWait1 ∨ s=.finWait2 ∨ s=.closing ∨ s=.lastAck ∨ s=.closeWait ∨ s=.timeWait

instance (s : TcpState) : Decidable s.synchronized :=
  inferInstanceAs (Decidable (_ ∨ _ ∨ _ ∨ _ ∨ _ ∨ _ ∨ _))

/-- The segment has data, a SYN or a FIN. -/
def Segment.occupies (seg : Segment) : Prop :=
  seg.data≠[] ∨ seg.flags.syn=true ∨ seg.flags.fin=true

/-- The segment is an ACK of what has been received. -/
def Emitted.acks (e : Emitted) (c : Conn) : Prop := e.flags.ack=true ∧ e.ack=c.rcvNxt

/-- The connection once the ACK field and the window of a segment are taken. -/
def ackTaken (seg : Segment) (c : Conn) : Conn :=
  {(if seg.flags.ack ∧ seqGt seg.ack c.sndUna then dropAcked seg.ack {c with sndUna := seg.ack}
    else c) with sndWnd := seg.wnd}

/-- Something goes out anyway: an ACK is due, or the window lets buffered bytes out. -/
def SendsAnyway (seg : Segment) (c : Conn) : Prop :=
  let d := ackTaken seg c
  d.needAck=true ∨ nextChunk d (d.sndNxt-d.sndUna) (d.sndNxt-d.txSeq)≠0

/-- A segment is answered if its ACK field is ahead of everything sent; otherwise, unless it ends
LAST_ACK, if it has data, or something goes out anyway. -/
def Answered (seg : Segment) (c : Conn) : Prop :=
  (seg.flags.ack=true ∧ seqGt seg.ack c.sndNxt=true) ∨
  ¬(c.state=.lastAck ∧ (ackTaken seg c).sndUna=c.sndNxt) ∧ (seg.data≠[] ∨ SendsAnyway seg c)

section
variable {b : Board}

theorem sendChunk_out (now : Nat) (offset chunk : UInt32) (io : Io) :
    ∃e,(sendChunk b now offset chunk io).out=io.out++[e] ∧ e.acks io.conn :=
  ⟨_,rfl,rfl,rfl⟩

theorem quiet_rcvNxt {c c' : Conn} (h : Quiet c c') : c'.rcvNxt=c.rcvNxt := by
  obtain ⟨_,_,_,_,_,_,rfl⟩ := h
  rfl

theorem transmitLoop_out (now n : Nat) (inFlight offset : UInt32) (io : Io) :
    ∃es,(transmitLoop b now n inFlight offset io).out=io.out++es ∧ (∀e∈es,e.acks io.conn) ∧
      (nextChunk io.conn inFlight offset≠0 → n≠0 → es≠[]) := by
  induction n generalizing inFlight offset io with
  | zero => exact ⟨[],(List.append_nil _).symm,by simp,fun _ h => absurd rfl h⟩
  | succ n ih =>
    rw [transmitLoop]
    by_cases h0 : nextChunk io.conn inFlight offset=0
    · rw [if_pos h0]
      exact ⟨[],(List.append_nil _).symm,by simp,fun h => absurd h0 h⟩
    · rw [if_neg h0]
      obtain ⟨e,hout,hack⟩ := sendChunk_out (b := b) now offset
        (nextChunk io.conn inFlight offset) io
      have hrcv := quiet_rcvNxt (quiet_sendChunk (b := b) now offset
        (nextChunk io.conn inFlight offset) io)
      obtain ⟨es,hrest,hacks,-⟩ := ih (inFlight+nextChunk io.conn inFlight offset)
        (offset+nextChunk io.conn inFlight offset)
        (sendChunk b now offset (nextChunk io.conn inFlight offset) io)
      refine ⟨e::es,by rw [hrest,hout,List.append_assoc]; rfl,?_,fun _ _ => by simp⟩
      intro x hx
      rcases List.mem_cons.mp hx with rfl | hx
      · exact hack
      · exact ⟨(hacks x hx).1,(hacks x hx).2.trans hrcv⟩

theorem transmitLoop_none (now n : Nat) {inFlight offset : UInt32} {io : Io}
    (h : nextChunk io.conn inFlight offset=0) : transmitLoop b now n inFlight offset io=io := by
  cases n with
  | zero => rfl
  | succ n => rw [transmitLoop,if_pos h]

theorem tcpTransmit_out (now : Nat) (io : Io) :
    ∃es,(tcpTransmit b now io).out=io.out++es ∧ (∀e∈es,e.acks io.conn) ∧
      (es≠[] ↔ io.conn.needAck=true ∨ nextChunk io.conn (io.conn.sndNxt-io.conn.sndUna)
        (io.conn.sndNxt-io.conn.txSeq)≠0) := by
  unfold tcpTransmit
  dsimp only
  by_cases h0 : nextChunk io.conn (io.conn.sndNxt-io.conn.sndUna)
      (io.conn.sndNxt-io.conn.txSeq)=0
  · rw [transmitLoop_none now _ h0]
    by_cases hneed : io.conn.needAck=true
    · rw [if_pos hneed]
      exact ⟨_,rfl,by simp [Emitted.acks],by simp [hneed]⟩
    · rw [if_neg hneed]
      exact ⟨[],(List.append_nil _).symm,by simp,by simp [hneed,h0]⟩
  · have htx : io.conn.txLen.toNat≠0 := by
      intro hz
      have hlt := UInt32.lt_iff_toNat_lt.mp (nextChunk_le h0).1
      omega
    obtain ⟨es,hout,hacks,hsome⟩ := transmitLoop_out (b := b) now io.conn.txLen.toNat
      (io.conn.sndNxt-io.conn.sndUna) (io.conn.sndNxt-io.conn.txSeq) io
    have hrcv := quiet_rcvNxt (quiet_transmitLoop (b := b) now io.conn.txLen.toNat
      (io.conn.sndNxt-io.conn.sndUna) (io.conn.sndNxt-io.conn.txSeq) io)
    have hne := hsome h0 htx
    split_ifs
    · refine ⟨es++[_],by rw [← List.append_assoc,← hout]; rfl,?_,by simp [h0]⟩
      intro e he
      rcases List.mem_append.mp he with he | he
      · exact hacks e he
      · rw [List.mem_singleton.mp he]
        exact ⟨rfl,hrcv⟩
    · exact ⟨es,hout,hacks,by simp [h0,hne]⟩

/-- What a processed segment sends, and whether it is an answer. -/
def Answers (c : Conn) (out : List Emitted) : Prop := ∃e∈out,e.acks c

theorem answers_transmit {now : Nat} {c : Conn} {io : Io} (hout : io.out=[])
    (hrcv : io.conn.rcvNxt=c.rcvNxt) :
    Answers c (tcpTransmit b now io).out ↔ io.conn.needAck=true ∨
      nextChunk io.conn (io.conn.sndNxt-io.conn.sndUna) (io.conn.sndNxt-io.conn.txSeq)≠0 := by
  obtain ⟨es,hes,hacks,hne⟩ := tcpTransmit_out (b := b) now io
  rw [hes,hout,List.nil_append,← hne]
  constructor
  · rintro ⟨e,he,-⟩ hnil
    rw [hnil] at he
    cases he
  · intro h
    obtain ⟨e,he⟩ := List.exists_mem_of_ne_nil es h
    exact ⟨e,he,(hacks e he).1,(hacks e he).2.trans hrcv⟩

theorem transmit_rcvNxt (now : Nat) (io : Io) :
    (tcpTransmit b now io).conn.rcvNxt=io.conn.rcvNxt :=
  quiet_rcvNxt (quiet_transmit now io)

theorem inputFin_cases (now : Nat) (seg : Segment) (dataLen : UInt32) (io : Io) :
    (inputFin now seg dataLen io).conn.rcvNxt=io.conn.rcvNxt+1 ∨
      inputFin now seg dataLen io=io := by
  unfold inputFin
  dsimp only
  split_ifs
  · left
    split <;> rfl
  · exact .inr rfl

theorem add_ne_self {x k : UInt32} (h : k≠0) : x+k≠x := by
  intro he
  have hk : k=x+k-x := by grind
  rw [he,UInt32.sub_self] at hk
  exact h hk

theorem inputFin_needAck (now : Nat) (seg : Segment) (dataLen : UInt32) {io : Io}
    (h : io.conn.needAck=true) : (inputFin now seg dataLen io).conn.needAck=true := by
  unfold inputFin
  dsimp only
  split_ifs
  · split <;> rfl
  · exact h

theorem inputFin_out (now : Nat) (seg : Segment) (dataLen : UInt32) (io : Io) :
    (inputFin now seg dataLen io).out=io.out := by
  unfold inputFin
  dsimp only
  split_ifs
  · split <;> rfl
  · rfl

theorem answers_due {now : Nat} {c : Conn} {io : Io} (hout : io.out=[])
    (hneed : io.conn.needAck=true) (hrcv : (tcpTransmit b now io).conn.rcvNxt=c.rcvNxt) :
    Answers c (tcpTransmit b now io).out := by
  rw [transmit_rcvNxt] at hrcv
  exact (answers_transmit hout hrcv).mpr (.inl hneed)

theorem inputTail_answers (now : Nat) {seg : Segment} (io : Io) (hocc : seg.occupies)
    (hout : io.out=[]) (hnot : (inputTail b now seg io).conn.rcvNxt=io.conn.rcvNxt) :
    Answers io.conn (inputTail b now seg io).out ↔ seg.data≠[] ∨ io.conn.needAck=true ∨
      nextChunk io.conn (io.conn.sndNxt-io.conn.sndUna) (io.conn.sndNxt-io.conn.txSeq)≠0 := by
  have hanswer (e : Emitted) (he : e.acks io.conn) {out : List Emitted} (ho : out=io.out++[e]) :
      Answers io.conn out := ⟨e,by rw [ho,hout]; exact List.mem_singleton_self e,he⟩
  unfold inputTail inputData at hnot ⊢
  dsimp only at hnot ⊢
  have hprobe : ¬(seg.data=[] ∧ (!seg.flags.syn)=true ∧ (!seg.flags.fin)=true ∧
      seqLt seg.seq io.conn.rcvNxt=true ∧ (io.conn.state=.established ∨ io.conn.state=.closeWait ∨
        io.conn.state=.finWait1 ∨ io.conn.state=.finWait2)) := by
    rintro ⟨hdata,hsyn,hfin,-⟩
    rcases hocc with h | h | h
    · exact h hdata
    · rw [h] at hsyn
      cases hsyn
    · rw [h] at hfin
      cases hfin
  rw [if_neg hprobe] at hnot ⊢
  by_cases hdata : seg.data=[]
  · rw [if_pos hdata] at hnot ⊢
    dsimp only at hnot ⊢
    rw [transmit_rcvNxt] at hnot
    rcases inputFin_cases now seg 0 io with hmoved | hsame
    · rw [hmoved] at hnot
      exact absurd hnot (add_ne_self (by decide))
    · rw [hsame,answers_transmit hout rfl]
      simp [hdata]
  · rw [if_neg hdata] at hnot ⊢
    refine iff_of_true ?_ (.inl hdata)
    by_cases hseq : seg.seq=io.conn.rcvNxt
    · rw [if_neg (not_not.mpr hseq)] at hnot ⊢
      -- taken bytes or none, an ACK is due, and it is of the old rcv_nxt
      refine answers_due ?_ (inputFin_needAck now seg _ rfl) hnot
      rw [inputFin_out]
      exact hout
    · rw [if_pos hseq]
      exact hanswer _ ⟨rfl,rfl⟩ rfl

theorem dropAcked_retries (ack : UInt32) (c : Conn) (re : Nat) :
    dropAcked ack {c with retries := re}={dropAcked ack c with retries := re} := by
  unfold dropAcked
  dsimp only
  split_ifs <;> rfl

theorem rto_reset (now : Nat) (c : Conn) : ∃at' ms,
    (if c.sndUna=c.sndNxt then {c with rtoAtMs := 0}
      else {c with rtoAtMs := now+tcpRtoInitialMs, rtoMs := tcpRtoInitialMs})=
      {c with rtoAtMs := at', rtoMs := ms} := by
  split_ifs
  · exact ⟨0,c.rtoMs,rfl⟩
  · exact ⟨now+tcpRtoInitialMs,tcpRtoInitialMs,rfl⟩

theorem inputAck_taken (now : Nat) (seg : Segment) (io : Io)
    (h : ¬(seg.flags.ack=true ∧ seqGt seg.ack io.conn.sndNxt=true)) :
    ∃c re at' ms,inputAck b now seg io=.ok {io with conn := c} ∧
      {c with sndWnd := seg.wnd}=
        {ackTaken seg io.conn with retries := re, rtoAtMs := at', rtoMs := ms} := by
  unfold inputAck ackTaken
  dsimp only
  by_cases hack : seg.flags.ack=true
  · have hn : (!seg.flags.ack)=false := by rw [hack]; rfl
    have hahead : ¬seqGt seg.ack io.conn.sndNxt=true := fun hg => h ⟨hack,hg⟩
    by_cases hnew : seqGt seg.ack io.conn.sndUna=true
    · rw [hn,if_neg Bool.false_ne_true,if_neg hahead,if_pos hnew,if_pos (And.intro hack hnew)]
      obtain ⟨at',ms,hrto⟩ := rto_reset now
        (dropAcked seg.ack {io.conn with sndUna := seg.ack, retries := 0})
      have hre := dropAcked_retries seg.ack {io.conn with sndUna := seg.ack} 0
      dsimp only at hrto hre
      refine ⟨_,0,at',ms,rfl,?_⟩
      rw [hrto,hre]
    · rw [hn,if_neg Bool.false_ne_true,if_neg hahead,if_neg hnew,if_neg fun hg => hnew hg.2]
      exact ⟨io.conn,io.conn.retries,io.conn.rtoAtMs,io.conn.rtoMs,rfl,rfl⟩
  · have hn : (!seg.flags.ack)=true := by simpa using hack
    rw [hn,if_pos rfl,if_neg fun hg => hack hg.1]
    exact ⟨io.conn,io.conn.retries,io.conn.rtoAtMs,io.conn.rtoMs,rfl,rfl⟩

theorem inputState_synchronized (now : Nat) (seg : Segment) (io : Io)
    (hs : io.conn.state.synchronized) :
    (io.conn.state=.lastAck ∧ io.conn.sndUna=io.conn.sndNxt) ∧
      inputState now seg io=.error {io with conn := connRelease io.conn} ∨
    ¬(io.conn.state=.lastAck ∧ io.conn.sndUna=io.conn.sndNxt) ∧
      ∃s at',inputState now seg io=
        .ok {io with conn := {io.conn with state := s, timeWaitAtMs := at'}} := by
  unfold inputState
  dsimp only
  by_cases hend : io.conn.state=.lastAck ∧ io.conn.sndUna=io.conn.sndNxt
  · left
    refine ⟨hend,?_⟩
    rw [hend.1]
    exact if_pos hend.2
  · right
    refine ⟨hend,?_⟩
    have hkeep : io={io with conn := {io.conn with
        state := io.conn.state, timeWaitAtMs := io.conn.timeWaitAtMs}} := rfl
    split
    · next h => rw [h] at hs; simp [TcpState.synchronized] at hs
    · split_ifs
      · exact ⟨.finWait2,io.conn.timeWaitAtMs,rfl⟩
      · exact ⟨_,_,congrArg Except.ok hkeep⟩
    · next h =>
      rw [if_neg fun he => hend ⟨h,he⟩]
      exact ⟨_,_,congrArg Except.ok hkeep⟩
    · split_ifs
      · exact ⟨.timeWait,now+tcpTimeWaitMs,rfl⟩
      · exact ⟨_,_,congrArg Except.ok hkeep⟩
    · exact ⟨_,_,congrArg Except.ok hkeep⟩

theorem ackTaken_keeps (seg : Segment) (c : Conn) : (ackTaken seg c).state=c.state ∧
    (ackTaken seg c).sndNxt=c.sndNxt ∧ (ackTaken seg c).rcvNxt=c.rcvNxt := by
  unfold ackTaken dropAcked
  dsimp only
  split_ifs <;> exact ⟨rfl,rfl,rfl⟩

theorem ackTaken_heard (seg : Segment) (c : Conn) (at' n : Nat) :
    ackTaken seg {c with lastRxMs := at', kaProbes := n}=
      {ackTaken seg c with lastRxMs := at', kaProbes := n} := by
  unfold ackTaken dropAcked
  dsimp only
  split_ifs <;> rfl

end

/-- In the states after the handshake, a segment other than an RST that takes numbers and is not
accepted is answered with an ACK of what was received only if it is one of those Answered names. -/
theorem tcp_answers (b : Board) (now : Nat) (seg : Segment) (c : Conn) (hs : c.state.synchronized)
    (hrst : seg.flags.rst=false) (hocc : seg.occupies)
    (hnot : (tcpInput b now seg ⟨c,[]⟩).conn.rcvNxt=c.rcvNxt) :
    Answers c (tcpInput b now seg ⟨c,[]⟩).out ↔ Answered seg c := by
  have hsyn : c.state≠.synSent := by
    intro h
    rw [h] at hs
    exact absurd hs (by decide)
  unfold tcpInput at hnot ⊢
  dsimp only at hnot ⊢
  rw [hrst,if_neg Bool.false_ne_true,if_neg hsyn] at hnot ⊢
  by_cases hahead : seg.flags.ack=true ∧ seqGt seg.ack c.sndNxt=true
  · have herr : inputAck b now seg ⟨{c with lastRxMs := now, kaProbes := 0},[]⟩=
        .error (tcpEmit b {ack := true} c.sndNxt [] false
          ⟨{c with lastRxMs := now, kaProbes := 0},[]⟩) := by
      unfold inputAck
      dsimp only
      rw [hahead.1,hahead.2]
      rfl
    rw [herr]
    exact iff_of_true ⟨_,List.mem_singleton_self _,rfl,rfl⟩ (.inl hahead)
  · obtain ⟨d,re,at',ms,hok,hd⟩ := inputAck_taken (b := b) now seg
      ⟨{c with lastRxMs := now, kaProbes := 0},[]⟩ hahead
    rw [hok] at hnot ⊢
    dsimp only at hnot hd ⊢
    obtain ⟨hstate,hnxt,hrcv⟩ := ackTaken_keeps seg c
    rw [ackTaken_heard] at hd
    rw [hd] at hnot ⊢
    have hseg : Answered seg c ↔ ¬(c.state=.lastAck ∧ (ackTaken seg c).sndUna=c.sndNxt) ∧
        (seg.data≠[] ∨ SendsAnyway seg c) := or_iff_right hahead
    rw [hseg,← hnxt,← hstate]
    rcases inputState_synchronized now seg ⟨{ackTaken seg c with
      lastRxMs := now, kaProbes := 0, retries := re, rtoAtMs := at', rtoMs := ms},[]⟩
      (show (ackTaken seg c).state.synchronized from hstate ▸ hs) with ⟨hend,he⟩ | ⟨hopen,s,w,he⟩
    · rw [he]
      refine iff_of_false ?_ fun h => h.1 hend
      rintro ⟨e,hmem,-⟩
      cases hmem
    · rw [he] at hnot ⊢
      dsimp only at hnot hopen ⊢
      have htail := inputTail_answers (b := b) now ⟨{ackTaken seg c with
        lastRxMs := now, kaProbes := 0, retries := re, rtoAtMs := at', rtoMs := ms, state := s,
        timeWaitAtMs := w},[]⟩ hocc rfl (hnot.trans hrcv.symm)
      dsimp only at htail
      rw [and_iff_right hopen]
      refine Iff.trans ?_ htail
      unfold Answers Emitted.acks
      rw [hrcv]

/-- A segment that was taken already is answered. -/
theorem tcp_answers_old :
    let c := (acceptedStream.call .small (.input 5 (piece 0 [104,101] false))).io.conn
    Answers c (tcpInput .small 6 (piece 0 [104,101] false) ⟨c,[]⟩).out :=
  (tcp_answers .small 6 _ _ (by decide +kernel) rfl (.inl (by decide)) (by decide +kernel)).mpr
    (.inr ⟨by decide +kernel,.inl (by decide)⟩)

/-- The peer's FIN, which also acknowledges ours. -/
def lastFin : Segment := {flags := {ack := true, fin := true}, seq := 1, ack := 2, wnd := 1000}

/-- In TIME_WAIT, the peer's FIN again gets no answer. -/
theorem tcp_fin_unanswered :
    ¬∀(b : Board) (l0 l : Life) (h : List Call) (now : Nat) (seg : Segment),Born b l0 →
      Reach (LifeStep b fun _ _ => True) l0 h l → l.io.conn.state.synchronized →
      seg.flags.rst=false → seg.occupies →
      (tcpInput b now seg ⟨l.io.conn,[]⟩).conn.rcvNxt=l.io.conn.rcvNxt →
      Answers l.io.conn (tcpInput b now seg ⟨l.io.conn,[]⟩).out := by
  intro hall
  let l1 := acceptedStream.call .small (.input 5 (piece 0 [] false))
  let l2 := l1.call .small (.streamClose 6)
  let l3 := l2.call .small (.input 7 lastFin)
  have h1 : LifeStep .small (fun _ _ => True) acceptedStream (.input 5 (piece 0 [] false)) l1 :=
    .call _ _ rfl trivial
  have h2 : LifeStep .small (fun _ _ => True) l1 (.streamClose 6) l2 :=
    .call _ _ (by decide +kernel : l1.io.conn.inUse=true ∧ l1.io.conn.isStream=true) trivial
  have h3 : LifeStep .small (fun _ _ => True) l2 (.input 7 lastFin) l3 :=
    .call _ _ (by decide +kernel : l2.io.conn.inUse=true) trivial
  have hstate : l3.io.conn.state=.timeWait := by decide +kernel
  obtain ⟨e,he,-⟩ := hall .small acceptedStream l3 _ 8 lastFin acceptedStream_born.1
    (((Reach.start.next h1).next h2).next h3) (hstate ▸ by decide) rfl (.inr (.inr rfl))
    (by decide +kernel)
  have hnone : (tcpInput .small 8 lastFin ⟨l3.io.conn,[]⟩).out.length=0 := by decide +kernel
  rw [List.length_eq_zero_iff.mp hnone] at he
  cases he

end LugalOS.Tcp
