import LugalOS.Lib.Serial
import LugalOS.Tcp.Table

namespace LugalOS.Tcp

open CString LittleEndian Buffer Run Serial

/-- The states in which bytes go out and our FIN has not. -/
def TcpState.opened (s : TcpState) : Prop := s=.established ∨ s=.closeWait

instance (s : TcpState) : Decidable s.opened := inferInstanceAs (Decidable (_ ∨ _))

def TcpState.early (s : TcpState) : Prop := s=.synSent ∨ s=.synReceived ∨ s.opened

instance (s : TcpState) : Decidable s.early := inferInstanceAs (Decidable (_ ∨ _ ∨ _))

/-- The numbers of the send side as positions from our SYN, which has 0: u is not acknowledged yet,
n comes next, and t is that of the first byte in the send buffer. -/
structure Flight (b : Board) (iss : UInt32) (c : Conn) (t u n : Nat) : Prop where
  una : c.sndUna=num iss u
  nxt : c.sndNxt=num iss n
  le : u≤n
  pos : 0<n
  size : c.txLen.toNat≤b.maxMsize
  seq : c.txLen≠0 → c.txSeq=num iss t ∧ t≤u+1 ∧ t≤n ∧ n≤t+c.txLen.toNat+c.finSent.toNat
  idle : c.txLen=0 → n≤u+1 ∧ (c.finSent=false → u≠0 → n=u)
  acked : u=0 → c.state=.synSent ∨ c.state=.synReceived
  fin : c.finSent=false ↔ c.state.early
  timer : c.rtoAtMs=0 ↔ u=n
  mss : c.peerMss≠0
  stream : c.isStream=true → c.txLen≠0 → c.state.opened

/-- A segment carries the written bytes of its place, its FIN the number after the last one. -/
structure FromWritten (iss : UInt32) (w : Bytes) (e : Emitted) : Prop where
  data : e.data≠[] → ∃o,e.seq=num (iss+1) o ∧ o+e.data.length≤w.length ∧
    e.data=(w.drop o).take e.data.length
  fin : e.flags.fin=true → e.seq=num (iss+1) w.length

/-- The send buffer holds the end of what was written, from the first unacknowledged byte. -/
structure Carried (iss : UInt32) (w : Bytes) (io : Io) (t u n : Nat) : Prop where
  place : io.conn.txLen≠0 → t+io.conn.txLen.toNat=1+w.length ∧ (t=1 ∨ t≤u)
  empty : io.conn.finSent=false → io.conn.txLen=0 → n=1+w.length
  fin : io.conn.finSent=true → n=w.length+2
  held : memRead io.conn.tx 0 io.conn.txLen.toNat=w.drop (w.length-io.conn.txLen.toNat)
  out : ∀e∈io.out,FromWritten iss w e
  noFin : io.conn.finSent=false → ∀e∈io.out,e.flags.fin=false

/-- The send side: its numbers on every run, its bytes on the runs that are safe. -/
structure Sending (safe : Prop) (b : Board) (iss : UInt32) (w : Bytes) (io : Io) (t u n : Nat) :
    Prop where
  flight : Flight b iss io.conn t u n
  carried : safe → Carried iss w io t u n

def Sends (safe : Prop) (b : Board) (iss : UInt32) (u : Nat) (w : Bytes) (io : Io) : Prop :=
  ∃t n,Sending safe b iss w io t u n

/-- What is left of it once the connection may be over. -/
def SendsOr (safe : Prop) (b : Board) (iss : UInt32) (u : Nat) (w : Bytes) (io : Io) : Prop :=
  (safe → ∀e∈io.out,FromWritten iss w e) ∧ (io.conn.inUse=true → Sends safe b iss u w io)

/-- The send side is as it was. -/
structure TxKept (c c' : Conn) : Prop where
  una : c'.sndUna=c.sndUna
  nxt : c'.sndNxt=c.sndNxt
  tx : c'.tx=c.tx
  txLen : c'.txLen=c.txLen
  txSeq : c'.txSeq=c.txSeq
  finSent : c'.finSent=c.finSent
  timer : c'.rtoAtMs=c.rtoAtMs
  mss : c'.peerMss=c.peerMss
  stream : c'.isStream=c.isStream
  state : c'.state=c.state

theorem TxKept.refl (c : Conn) : TxKept c c := ⟨rfl,rfl,rfl,rfl,rfl,rfl,rfl,rfl,rfl,rfl⟩

section
variable {safe : Prop} {b : Board} {iss : UInt32} {w : Bytes} {c c' : Conn} {io : Io} {t u n : Nat}

theorem Flight.of_kept (h : Flight b iss c t u n) (hk : TxKept c c') : Flight b iss c' t u n := by
  obtain ⟨h1,h2,h3,h4,h5,h6,h7,h8,h9,h10⟩ := hk
  refine ⟨h1 ▸ h.una,h2 ▸ h.nxt,h.le,h.pos,h4 ▸ h.size,?_,?_,h10 ▸ h.acked,?_,h7 ▸ h.timer,
    h8 ▸ h.mss,?_⟩
  · rw [h4,h5,h6]
    exact h.seq
  · rw [h4,h6]
    exact h.idle
  · rw [h6,h10]
    exact h.fin
  · rw [h9,h4,h10]
    exact h.stream

theorem Carried.of_kept {c c' : Conn} {out : List Emitted} (h : Carried iss w ⟨c,out⟩ t u n)
    (hk : TxKept c c') : Carried iss w ⟨c',out⟩ t u n := by
  obtain ⟨_,_,h3,h4,_,h6,_,_,_,_⟩ := hk
  refine ⟨?_,?_,?_,?_,h.out,?_⟩
  · change c'.txLen≠0 → _
    rw [h4]
    exact h.place
  · change c'.finSent=false → c'.txLen=0 → _
    rw [h6,h4]
    exact h.empty
  · change c'.finSent=true → _
    rw [h6]
    exact h.fin
  · change memRead c'.tx 0 c'.txLen.toNat=_
    rw [h3,h4]
    exact h.held
  · change c'.finSent=false → _
    rw [h6]
    exact h.noFin

theorem Sending.of_kept {c c' : Conn} {out : List Emitted} (h : Sending safe b iss w ⟨c,out⟩ t u n)
    (hk : TxKept c c') : Sending safe b iss w ⟨c',out⟩ t u n :=
  ⟨h.flight.of_kept hk,fun hs => (h.carried hs).of_kept hk⟩

theorem Flight.offset (h : Flight b iss c t u n) (htx : c.txLen≠0) :
    (c.sndNxt-c.txSeq).toNat=n-t := by
  obtain ⟨hseq,_,hle,hlast⟩ := h.seq htx
  have hm : b.maxMsize≤4096 := by cases b <;> decide
  have hsize := h.size
  have hf := Bool.toNat_le c.finSent
  rw [h.nxt,hseq]
  exact num_sub_toNat iss hle (by omega)

theorem Flight.inFlight (h : Flight b iss c t u n) : n≤u+c.txLen.toNat+2 := by
  by_cases htx : c.txLen=0
  · have hi := (h.idle htx).1
    omega
  · obtain ⟨_,ht,_,hlast⟩ := h.seq htx
    have hf := Bool.toNat_le c.finSent
    omega

theorem Flight.inFlight_lt (h : Flight b iss c t u n) : n<u+2^31 := by
  have hm : b.maxMsize≤4096 := by cases b <;> decide
  have hsize := h.size
  have hd := h.inFlight
  omega

theorem Flight.held_lt (h : Flight b iss c t u n) (htx : c.txLen≠0) : n<t+2^31 := by
  have hm : b.maxMsize≤4096 := by cases b <;> decide
  have hsize := h.size
  have hlast := (h.seq htx).2.2.2
  have hf := Bool.toNat_le c.finSent
  omega

theorem Flight.una_eq_nxt (h : Flight b iss c t u n) : c.sndUna=c.sndNxt ↔ u=n := by
  have hd := h.inFlight_lt
  have hle := h.le
  rw [h.una,h.nxt]
  exact ⟨fun he => num_inj he (by omega) (by omega),fun he => by rw [he]⟩

theorem FromWritten.bare {e : Emitted} (hd : e.data=[]) (hf : e.flags.fin=false) :
    FromWritten iss w e :=
  ⟨fun h => absurd hd h,fun h => by rw [hf] at h; cases h⟩

theorem Sending.emit (h : Sending safe b iss w io t u n) {f : Flags} {seq : UInt32} {d : Bytes}
    {m : Bool} (hw : safe → ∀ack wnd,FromWritten iss w ⟨f,seq,ack,wnd,m,d⟩)
    (hf : io.conn.finSent=false → f.fin=false) :
    Sending safe b iss w (tcpEmit b f seq d m io) t u n := by
  have hk : Sending safe b iss w ⟨{io.conn with needAck := false},io.out⟩ t u n :=
    h.of_kept ⟨rfl,rfl,rfl,rfl,rfl,rfl,rfl,rfl,rfl,rfl⟩
  refine ⟨hk.flight,fun hs => ?_⟩
  have hc := hk.carried hs
  refine ⟨hc.place,hc.empty,hc.fin,hc.held,?_,?_⟩
  · intro e he
    rcases List.mem_append.mp he with he | he
    · exact hc.out e he
    · rw [List.mem_singleton.mp he]
      exact hw hs _ _
  · intro hfs e he
    rcases List.mem_append.mp he with he | he
    · exact hc.noFin hfs e he
    · rw [List.mem_singleton.mp he]
      exact hf hfs

theorem Sending.emitBare (h : Sending safe b iss w io t u n) (f : Flags) (seq : UInt32) (m : Bool)
    (hf : f.fin=false) : Sending safe b iss w (tcpEmit b f seq [] m io) t u n :=
  h.emit (fun _ _ _ => .bare rfl hf) fun _ => hf

theorem Carried.length_le (h : Carried iss w io t u n) : io.conn.txLen.toNat≤w.length := by
  have hw := congrArg List.length h.held
  simp only [memRead_length,List.length_drop] at hw
  omega

theorem Carried.slice (h : Carried iss w io t u n) (htx : io.conn.txLen≠0) {i k : Nat}
    (hik : i+k ≤ io.conn.txLen.toNat) :
    memRead io.conn.tx i k=(w.drop (t-1+i)).take k ∧ 1≤t ∧ t-1+i+k≤w.length := by
  obtain ⟨hp,_⟩ := h.place htx
  have hl := h.length_le
  have hsub := memRead_drop_take io.conn.tx 0 io.conn.txLen.toNat i k hik
  rw [Nat.zero_add,h.held,List.drop_drop,show w.length-io.conn.txLen.toNat+i=t-1+i by omega] at hsub
  exact ⟨hsub.symm,by omega,by omega⟩

theorem Carried.fromWritten (h : Carried iss w io t u n) (htx : io.conn.txLen≠0) {i k q : Nat}
    (hik : i+k ≤ io.conn.txLen.toNat) (hq : q=t+i) (f : Flags) (hf : f.fin=false)
    (ack wnd : UInt32) (m : Bool) :
    FromWritten iss w ⟨f,num iss q,ack,wnd,m,memRead io.conn.tx i k⟩ := by
  obtain ⟨hd,hpos,hle⟩ := h.slice htx hik
  refine ⟨fun _ => ⟨t-1+i,?_,?_,?_⟩,fun hfin => by rw [hf] at hfin; cases hfin⟩
  · change num iss q=_
    rw [← num_succ_base,hq]
    exact congrArg (num iss) (by omega)
  · rw [memRead_length]
    exact hle
  · rw [memRead_length]
    exact hd

theorem armRto_eq (now : Nat) (c : Conn) : ∃at' ms re,at'≠0 ∧
    armRto now c={c with rtoAtMs := at', rtoMs := ms, retries := re} := by
  unfold armRto
  split_ifs with h0
  · exact ⟨now+tcpRtoInitialMs,_,_,by simp [tcpRtoInitialMs],rfl⟩
  · exact ⟨c.rtoAtMs,_,_,h0,rfl⟩

theorem Sending.sendChunk (h : Sending safe b iss w io t u n) (now : Nat) {chunk : UInt32}
    (hlt : io.conn.sndNxt-io.conn.txSeq < io.conn.txLen) (h0 : chunk≠0)
    (hc : chunk ≤ io.conn.txLen-(io.conn.sndNxt-io.conn.txSeq)) :
    Sending safe b iss w
      (Tcp.sendChunk b now (io.conn.sndNxt-io.conn.txSeq) chunk io) t u (n+chunk.toNat) := by
  have htx : io.conn.txLen≠0 := by
    intro hz
    rw [hz] at hlt
    exact absurd hlt (by simp)
  obtain ⟨hseq,ht,hle,hlast⟩ := h.flight.seq htx
  have hoff := h.flight.offset htx
  have hlt' := UInt32.lt_iff_toNat_lt.mp hlt
  have hc' := UInt32.le_iff_toNat_le.mp hc
  rw [UInt32.toNat_sub_of_le _ _ (UInt32.le_of_lt hlt),hoff] at hc'
  rw [hoff] at hlt'
  have hpos : chunk.toNat≠0 := fun he => h0 (UInt32.toNat_inj.mp he)
  have hem : Sending safe b iss w (tcpEmit b {ack := true, psh := true} io.conn.sndNxt
      (memRead io.conn.tx (io.conn.sndNxt-io.conn.txSeq).toNat chunk.toNat) false io) t u n := by
    refine h.emit (fun hs ack wnd => ?_) fun _ => rfl
    rw [hoff,h.flight.nxt]
    exact (h.carried hs).fromWritten htx (by omega) (by omega) _ rfl _ _ _
  unfold Tcp.sendChunk
  dsimp only
  obtain ⟨at',ms,re,hat,harm⟩ := armRto_eq now {io.conn with
    needAck := false, sndNxt := io.conn.sndNxt+chunk}
  have hf := hem.flight
  refine ⟨?_,fun hs => ?_⟩
  · change Flight b iss (armRto now _) t u _
    rw [show (tcpEmit b {ack := true, psh := true} io.conn.sndNxt
      (memRead io.conn.tx (io.conn.sndNxt-io.conn.txSeq).toNat chunk.toNat) false io).conn=
      {io.conn with needAck := false} from rfl,harm]
    refine ⟨hf.una,?_,?_,?_,hf.size,?_,?_,hf.acked,hf.fin,?_,hf.mss,hf.stream⟩
    · change io.conn.sndNxt+chunk=_
      rw [num_add,h.flight.nxt,toUInt32_toNat_cast]
    · exact h.flight.le.trans (Nat.le_add_right _ _)
    · exact Nat.lt_of_lt_of_le h.flight.pos (Nat.le_add_right _ _)
    · exact fun _ => ⟨hseq,ht,by omega,by change n+_≤t+io.conn.txLen.toNat+_; omega⟩
    · exact fun hz => absurd hz htx
    · change at'=0 ↔ _
      have hle := h.flight.le
      omega
  · have hcar := hem.carried hs
    have hp := (hcar.place htx).1
    change Carried iss w ⟨armRto now _,_⟩ t u _
    rw [show (tcpEmit b {ack := true, psh := true} io.conn.sndNxt
      (memRead io.conn.tx (io.conn.sndNxt-io.conn.txSeq).toNat chunk.toNat) false io).conn=
      {io.conn with needAck := false} from rfl,harm]
    refine ⟨hcar.place,fun _ hz => absurd hz htx,fun hfin => ?_,hcar.held,hcar.out,hcar.noFin⟩
    have hend := hcar.fin hfin
    change t+io.conn.txLen.toNat=_ at hp
    omega

theorem nextChunk_le {c : Conn} {inFlight offset : UInt32} (h : nextChunk c inFlight offset≠0) :
    offset<c.txLen ∧ nextChunk c inFlight offset≤c.txLen-offset := by
  unfold nextChunk at h ⊢
  dsimp only at h ⊢
  split_ifs at h ⊢ with h1 h2 h3 h4 <;> first | exact absurd rfl h | skip
  all_goals refine ⟨h1,?_⟩
  all_goals simp only [UInt32.lt_iff_toNat_lt,UInt32.le_iff_toNat_le] at *
  all_goals omega

theorem transmitLoop_turn (now k : Nat) {io : Io} {chunk : UInt32}
    (hc : nextChunk io.conn (io.conn.sndNxt-io.conn.sndUna) (io.conn.sndNxt-io.conn.txSeq)=chunk)
    (h0 : chunk≠0) :
    let io' := Tcp.sendChunk b now (io.conn.sndNxt-io.conn.txSeq) chunk io
    transmitLoop b now (k+1) (io.conn.sndNxt-io.conn.sndUna) (io.conn.sndNxt-io.conn.txSeq) io=
      transmitLoop b now k (io'.conn.sndNxt-io'.conn.sndUna) (io'.conn.sndNxt-io'.conn.txSeq)
        io' := by
  dsimp only
  rw [transmitLoop,hc,if_neg h0]
  obtain ⟨at',ms,re,_,harm⟩ := armRto_eq now {io.conn with
    needAck := false, sndNxt := io.conn.sndNxt+chunk}
  have hconn : (Tcp.sendChunk b now (io.conn.sndNxt-io.conn.txSeq) chunk io).conn={io.conn with
    needAck := false, sndNxt := io.conn.sndNxt+chunk, rtoAtMs := at', rtoMs := ms,
    retries := re} := harm
  rw [hconn]
  dsimp only
  rw [show io.conn.sndNxt+chunk-io.conn.sndUna=io.conn.sndNxt-io.conn.sndUna+chunk by grind,
    show io.conn.sndNxt+chunk-io.conn.txSeq=io.conn.sndNxt-io.conn.txSeq+chunk by grind]

theorem transmitLoop_rule {P : Io → Prop} {now : Nat}
    (hs : ∀io,P io →
      nextChunk io.conn (io.conn.sndNxt-io.conn.sndUna) (io.conn.sndNxt-io.conn.txSeq)≠0 →
      P (Tcp.sendChunk b now (io.conn.sndNxt-io.conn.txSeq)
        (nextChunk io.conn (io.conn.sndNxt-io.conn.sndUna) (io.conn.sndNxt-io.conn.txSeq)) io))
    (k : Nat) (io : Io) (h : P io) : P (transmitLoop b now k (io.conn.sndNxt-io.conn.sndUna)
      (io.conn.sndNxt-io.conn.txSeq) io) := by
  induction k generalizing io with
  | zero => exact h
  | succ k ih =>
    by_cases h0 : nextChunk io.conn (io.conn.sndNxt-io.conn.sndUna)
        (io.conn.sndNxt-io.conn.txSeq)=0
    · rw [transmitLoop,if_pos h0]
      exact h
    · rw [transmitLoop_turn now k rfl h0]
      exact ih _ (hs io h h0)

theorem Sending.transmitLoop (h : Sending safe b iss w io t u n) (now k : Nat) :
    ∃n',n≤n' ∧ Sending safe b iss w (Tcp.transmitLoop b now k (io.conn.sndNxt-io.conn.sndUna)
      (io.conn.sndNxt-io.conn.txSeq) io) t u n' := by
  refine transmitLoop_rule (P := fun io => ∃n',n≤n' ∧ Sending safe b iss w io t u n') ?_ k io
    ⟨n,le_rfl,h⟩
  rintro io ⟨n',hn,h'⟩ h0
  obtain ⟨hlt,hle⟩ := nextChunk_le h0
  exact ⟨_,hn.trans (Nat.le_add_right _ _),h'.sendChunk now hlt h0 hle⟩

theorem Sending.transmit (h : Sending safe b iss w io t u n) (now : Nat) :
    ∃n',Sending safe b iss w (tcpTransmit b now io) t u n' := by
  obtain ⟨n',_,h'⟩ := h.transmitLoop now io.conn.txLen.toNat
  unfold tcpTransmit
  dsimp only
  split_ifs
  · exact ⟨n',h'.emitBare _ _ _ rfl⟩
  · exact ⟨n',h'⟩

theorem Flight.unaOffset (h : Flight b iss c t u n) (hlt : c.sndUna-c.txSeq<c.txLen) :
    c.txLen≠0 ∧ t≤u ∧ (c.sndUna-c.txSeq).toNat=u-t := by
  have htx : c.txLen≠0 := by
    intro hz
    rw [hz] at hlt
    exact absurd hlt (by simp)
  obtain ⟨hseq,ht,_,_⟩ := h.seq htx
  have hd := h.inFlight_lt
  have hle := h.le
  rw [UInt32.lt_iff_toNat_lt,h.una,hseq] at hlt
  rw [h.una,hseq]
  have hm : b.maxMsize≤4096 := by cases b <;> decide
  have hsize := h.size
  rcases Nat.lt_or_ge u t with hlt' | hge
  · obtain rfl : t=u+1 := by omega
    rw [num_succ,show num iss u-(num iss u+1)=0-1 by grind] at hlt
    change 4294967295<_ at hlt
    omega
  · have hlast := (h.seq htx).2.2.2
    have hf := Bool.toNat_le c.finSent
    exact ⟨htx,hge,num_sub_toNat iss hge (by omega)⟩

theorem Sending.finAgain (h : Sending safe b iss w io t u n) (hs : safe) (hu : u<n)
    (hfin : io.conn.finSent=true) (hno : ¬io.conn.sndUna-io.conn.txSeq < io.conn.txLen) :
    u=w.length+1 := by
  have hc := h.carried hs
  have hn := hc.fin hfin
  have hu0 : u≠0 := by
    intro h0
    have hne : ¬io.conn.state.early := fun he => by
      rw [h.flight.fin.mpr he] at hfin
      cases hfin
    rcases h.flight.acked h0 with hs | hs <;> rw [hs] at hne <;> exact hne (by decide)
  by_cases htx : io.conn.txLen=0
  · have hi := (h.flight.idle htx).1
    omega
  · obtain ⟨hp,hu1⟩ := hc.place htx
    obtain ⟨hseq,_,_,_⟩ := h.flight.seq htx
    have hl := io.conn.txLen.toNat_lt
    have hle : t≤u := by omega
    rw [UInt32.lt_iff_toNat_lt,h.flight.una,hseq,num_sub_toNat iss hle (by omega)] at hno
    omega

theorem Sending.retransmit (h : Sending safe b iss w io t u n) {now : Nat} (hnow : 0<now)
    (hu : u<n) : Sending safe b iss w (tcpRetransmit b now io) t u n := by
  have harm {io' : Io} (h' : Sending safe b iss w io' t u n) (rto : Nat) :
      Sending safe b iss w
        {io' with
          conn := {io'.conn with rtoMs := rto, rtoAtMs := now+rto, retries := io'.conn.retries+1}}
        t u n := by
    have hf := h'.flight
    refine ⟨⟨hf.una,hf.nxt,hf.le,hf.pos,hf.size,hf.seq,hf.idle,hf.acked,hf.fin,?_,hf.mss,hf.stream⟩,
      fun hs => ?_⟩
    · change now+rto=0 ↔ _
      omega
    · have hc := h'.carried hs
      exact ⟨hc.place,hc.empty,hc.fin,hc.held,hc.out,hc.noFin⟩
  unfold tcpRetransmit
  dsimp only
  by_cases h1 : io.conn.sndUna-io.conn.txSeq < io.conn.txLen
  · rw [if_pos h1]
    obtain ⟨htx,hle,hoff⟩ := h.flight.unaOffset h1
    refine harm (h.emit (fun hs ack wnd => ?_) fun _ => rfl) _
    rw [hoff,h.flight.una]
    refine (h.carried hs).fromWritten htx ?_ (by omega) _ rfl _ _ _
    have hlt := UInt32.lt_iff_toNat_lt.mp h1
    have hsub := UInt32.toNat_sub_of_le _ _ (UInt32.le_of_lt h1)
    rw [← h.flight.una]
    split_ifs with hm
    · have hm := UInt32.lt_iff_toNat_lt.mp hm
      omega
    · omega
  · rw [if_neg h1]
    by_cases h2 : io.conn.finSent=true
    · rw [if_pos h2]
      refine harm (h.emit (fun hs ack wnd => ⟨fun hd => absurd rfl hd,fun _ => ?_⟩) fun h3 => ?_) _
      · rw [h.flight.una,h.finAgain hs hu h2 h1]
        exact num_succ_base _ _
      · rw [h2] at h3
        cases h3
    · rw [if_neg h2]
      by_cases h3 : io.conn.state=.synReceived
      · rw [if_pos h3]
        exact harm (h.emitBare _ _ _ rfl) _
      · rw [if_neg h3]
        by_cases h4 : io.conn.state=.synSent
        · rw [if_pos h4]
          exact harm (h.emitBare _ _ _ rfl) _
        · rw [if_neg h4]
          exact harm h _

theorem Sending.sendFin (h : Sending safe b iss w io t u n) (now : Nat) {s : TcpState}
    (hc : Closes io.conn.state s) (hstream : io.conn.isStream=true → io.conn.txLen=0)
    (hsent : safe → io.conn.txLen=0 ∨ io.conn.txLen ≤ io.conn.sndNxt-io.conn.txSeq) :
    Sending safe b iss w
      ⟨{(Tcp.sendFin b now io).conn with state := s},(Tcp.sendFin b now io).out⟩ t u (n+1) := by
  have hf := h.flight
  have hearly : io.conn.state.early := by rcases hc with ⟨hs,_⟩ | ⟨hs,_⟩ <;> rw [hs] <;> decide
  have hlate : ¬s.early := by rcases hc with ⟨_,rfl⟩ | ⟨_,rfl⟩ <;> decide
  have hnot := hf.fin.mpr hearly
  have hu0 : u≠0 := by
    intro h0
    rcases hf.acked h0 with hs | hs <;> rw [hs] at hc <;> rcases hc with ⟨hc,_⟩ | ⟨hc,_⟩ <;> cases hc
  obtain ⟨at',ms,re,hat,harm⟩ := armRto_eq now {io.conn with
    finSent := true, needAck := false, sndNxt := io.conn.sndNxt+1}
  have hconn : (Tcp.sendFin b now io).conn={io.conn with
    finSent := true, needAck := false, sndNxt := io.conn.sndNxt+1, rtoAtMs := at', rtoMs := ms,
    retries := re} := harm
  rw [hconn]
  refine ⟨⟨hf.una,?_,?_,Nat.succ_pos _,hf.size,?_,?_,fun h0 => absurd h0 hu0,?_,?_,hf.mss,?_⟩,
    fun hs => ?_⟩
  · change io.conn.sndNxt+1=_
    rw [hf.nxt,num_succ]
  · exact hf.le.trans (Nat.le_succ n)
  · intro htx
    obtain ⟨hseq,ht,hle,hlast⟩ := hf.seq htx
    rw [hnot] at hlast
    exact ⟨hseq,ht,hle.trans (Nat.le_succ n),Nat.succ_le_succ hlast⟩
  · intro htx
    have hi := (hf.idle htx).2 hnot hu0
    exact ⟨by omega,fun hfin => (by cases hfin)⟩
  · exact ⟨fun hfin => (by cases hfin),fun he => absurd he hlate⟩
  · change at'=0 ↔ _
    have hle := hf.le
    omega
  · exact fun hst htx => absurd (hstream hst) htx
  · have hcar := h.carried hs
    have hend : n=w.length+1 := by
      by_cases htx : io.conn.txLen=0
      · rw [hcar.empty hnot htx,Nat.add_comm]
      · obtain ⟨hseq,ht,hle,hlast⟩ := hf.seq htx
        have hin := UInt32.le_iff_toNat_le.mp ((hsent hs).resolve_left htx)
        rw [hf.offset htx] at hin
        have hp := (hcar.place htx).1
        rw [hnot] at hlast
        change n≤_+0 at hlast
        omega
    refine ⟨hcar.place,fun hfin => (by cases hfin),fun _ => ?_,hcar.held,?_,
      fun hfin => (by cases hfin)⟩
    · rw [hend]
    · intro e he
      rcases List.mem_append.mp he with he | he
      · exact hcar.out e he
      · rw [List.mem_singleton.mp he]
        refine ⟨fun hd => absurd rfl hd,fun _ => ?_⟩
        change io.conn.sndNxt=_
        rw [hf.nxt,hend]
        exact num_succ_base _ _

/-- The acknowledged bytes leave the buffer, and the rest moves to its start. -/
theorem dropAcked_eq {m : Nat} (htx : c.txLen≠0) (hseq : c.txSeq=num iss t) (ht : t ≤ m)
    (hm : m<t+2^31) : dropAcked (num iss m) c=
      if c.txLen.toNat ≤ m-t then {c with txLen := 0}
      else {c with
        tx := memShift c.tx (m-t) (c.txLen.toNat-(m-t)), txLen := c.txLen-(m-t).toUInt32,
        txSeq := num iss m} := by
  have hd : (num iss m-num iss t).toNat=m-t := num_sub_toNat iss ht (by omega)
  have hacked : (if c.txLen≠0 ∧ seqGt (num iss m) c.txSeq then num iss m-c.txSeq else 0)=
      (m-t).toUInt32 := by
    rw [hseq]
    split_ifs with hgt
    · exact num_sub iss ht
    · have hle : ¬t < m := fun hlt => hgt ⟨htx,by
        simp only [seqGt,decide_eq_true_eq]
        rw [toInt32_pos,hd]
        omega⟩
      rw [show m-t=0 by omega]
      rfl
  have hle : c.txLen≤(m-t).toUInt32 ↔ c.txLen.toNat ≤ m-t := by
    rw [UInt32.le_iff_toNat_le,toUInt32_toNat (by omega)]
  unfold dropAcked
  dsimp only
  rw [hacked]
  simp only [hle]
  split_ifs with h1 h2
  · rfl
  · have hsub : (c.txLen-(m-t).toUInt32).toNat=c.txLen.toNat-(m-t) := by
      rw [UInt32.toNat_sub_of_le _ _ (UInt32.le_iff_toNat_le.mpr (by
        rw [toUInt32_toNat (by omega)]; omega)),toUInt32_toNat (by omega)]
    rw [hsub,toUInt32_toNat (by omega),hseq,← num_add,Nat.add_sub_cancel' ht]
  · have hz : m-t=0 := by
      have hz := congrArg UInt32.toNat (not_not.mp h2)
      rwa [toUInt32_toNat (by omega)] at hz
    have hmt : num iss m=c.txSeq := by rw [hseq,show m=t by omega]
    have htx0 : memShift c.tx (m-t) (c.txLen.toNat-(m-t))=c.tx := by
      funext i
      unfold memShift
      rw [hz,Nat.zero_add,ite_self]
    have hlen : c.txLen-(m-t).toUInt32=c.txLen := by
      rw [hz]
      exact UInt32.sub_zero _
    rw [htx0,hlen,hmt]

theorem Sending.acknowledge (h : Sending safe b iss w io t u n) {m : Nat} (hu : u < m) (hm : m≤n)
    (at' ms : Nat) (hat : at'=0 ↔ m=n) :
    ∃t',Sending safe b iss w
      ⟨{dropAcked (num iss m) {io.conn with sndUna := num iss m, retries := 0} with
        rtoAtMs := at', rtoMs := ms},io.out⟩ t' m n := by
  have hf := h.flight
  have hfl := hf.inFlight_lt
  have hm0 (h0 : m=0) : io.conn.state=.synSent ∨ io.conn.state=.synReceived := by omega
  by_cases htx : io.conn.txLen=0
  · -- an empty buffer stays empty
    have hdrop : dropAcked (num iss m) {io.conn with sndUna := num iss m, retries := 0}=
        {io.conn with sndUna := num iss m, retries := 0} := by
      simp [dropAcked,htx]
    rw [hdrop]
    have hi := hf.idle htx
    refine ⟨t,⟨rfl,hf.nxt,hm,hf.pos,hf.size,fun hne => absurd htx hne,
      fun _ => ⟨by omega,fun _ _ => by omega⟩,hm0,hf.fin,hat,hf.mss,
      fun _ hne => absurd htx hne⟩,fun hs => ?_⟩
    have hc := h.carried hs
    exact ⟨fun hne => absurd htx hne,hc.empty,hc.fin,hc.held,hc.out,hc.noFin⟩
  · obtain ⟨hseq,ht,hle,hlast⟩ := hf.seq htx
    have hlt := hf.held_lt htx
    rw [dropAcked_eq (c := {io.conn with sndUna := num iss m, retries := 0}) htx hseq (by omega)
      (by omega)]
    dsimp only
    split_ifs with hall
    · -- all of it is acknowledged
      refine ⟨t,⟨rfl,hf.nxt,hm,hf.pos,Nat.zero_le _,fun hne => absurd rfl hne,fun _ => ⟨?_,?_⟩,
        hm0,hf.fin,hat,hf.mss,fun _ hne => absurd rfl hne⟩,fun hs => ?_⟩
      · have hfin := Bool.toNat_le io.conn.finSent
        omega
      · intro hno _
        rw [show io.conn.finSent=false from hno] at hlast
        change n≤_+0 at hlast
        omega
      · have hc := h.carried hs
        have hp := (hc.place htx).1
        refine ⟨fun hne => absurd rfl hne,fun hno _ => ?_,hc.fin,?_,hc.out,hc.noFin⟩
        · rw [show io.conn.finSent=false from hno] at hlast
          change n≤_+0 at hlast
          omega
        · change []=w.drop (w.length-0)
          simp
    · -- the rest stays
      have hsub : (io.conn.txLen-(m-t).toUInt32).toNat=io.conn.txLen.toNat-(m-t) := by
        have hl := io.conn.txLen.toNat_lt
        rw [UInt32.toNat_sub_of_le _ _ (UInt32.le_iff_toNat_le.mpr (by
          rw [toUInt32_toNat (by omega)]; omega)),toUInt32_toNat (by omega)]
      have hne : io.conn.txLen-(m-t).toUInt32≠0 := by
        intro hz
        rw [hz] at hsub
        change 0=_ at hsub
        omega
      refine ⟨m,⟨rfl,hf.nxt,hm,hf.pos,?_,fun _ => ⟨rfl,Nat.le_succ m,hm,?_⟩,
        fun hz => absurd hz hne,hm0,hf.fin,hat,hf.mss,fun hst _ => hf.stream hst htx⟩,fun hs => ?_⟩
      · change (io.conn.txLen-(m-t).toUInt32).toNat≤_
        have hsize := hf.size
        omega
      · change n ≤ m+(io.conn.txLen-(m-t).toUInt32).toNat+io.conn.finSent.toNat
        omega
      · have hc := h.carried hs
        have hp := (hc.place htx).1
        refine ⟨fun _ => ⟨?_,.inr le_rfl⟩,fun _ hz => absurd hz hne,hc.fin,?_,hc.out,hc.noFin⟩
        · change m+(io.conn.txLen-(m-t).toUInt32).toNat=_
          omega
        · change memRead (memShift io.conn.tx (m-t) _) 0 (io.conn.txLen-(m-t).toUInt32).toNat=
            w.drop (w.length-(io.conn.txLen-(m-t).toUInt32).toNat)
          rw [hsub,memRead_memShift]
          obtain ⟨hslice,ht1,_⟩ := hc.slice htx (i := m-t) (k := io.conn.txLen.toNat-(m-t)) (by omega)
          rw [hslice,List.take_of_length_le (by rw [List.length_drop]; omega)]
          exact congrArg (fun k => w.drop k) (by omega)

/-- The first unacknowledged position after a segment: as before, or the one its ACK field names. -/
def AckTo (iss : UInt32) (u : Nat) (seg : Segment) (m : Nat) : Prop :=
  m=u ∨ seg.flags.ack=true ∧ seg.ack=num iss m

theorem Sending.inputAck (h : Sending safe b iss w io t u n) (now : Nat) (seg : Segment) :
    ∃io' m,(Tcp.inputAck b now seg io=.error io' ∨ Tcp.inputAck b now seg io=.ok io') ∧
      AckTo iss u seg m ∧ Sends safe b iss m w io' := by
  unfold Tcp.inputAck
  dsimp only
  by_cases h1 : (!seg.flags.ack)=true
  · rw [if_pos h1]
    exact ⟨io,u,.inr rfl,.inl rfl,t,n,h⟩
  rw [if_neg h1]
  by_cases h2 : seqGt seg.ack io.conn.sndNxt=true
  · rw [if_pos h2]
    exact ⟨_,u,.inl rfl,.inl rfl,t,n,h.emitBare _ _ _ rfl⟩
  rw [if_neg h2]
  by_cases h3 : seqGt seg.ack io.conn.sndUna=true
  · rw [if_pos h3]
    simp only [seqGt,decide_eq_true_eq] at h2 h3
    rw [h.flight.nxt] at h2
    rw [h.flight.una] at h3
    obtain ⟨m,hu,hm,hack⟩ := between h3 h2 h.flight.le
    refine ⟨_,m,.inr rfl,.inr ⟨by simpa using h1,hack⟩,?_⟩
    have hlt := h.flight.inFlight_lt
    have hend : num iss m=io.conn.sndNxt ↔ m=n := by
      rw [h.flight.nxt]
      exact ⟨fun he => num_inj he (by omega) (by omega),fun he => by rw [he]⟩
    rw [hack]
    generalize hd : dropAcked (num iss m) {io.conn with sndUna := num iss m, retries := 0}=d
    have hd1 : d.sndUna=num iss m ∧ d.sndNxt=io.conn.sndNxt := by
      rw [← hd]
      unfold dropAcked
      dsimp only
      split_ifs <;> exact ⟨rfl,rfl⟩
    rw [← hd1.1,← hd1.2] at hend
    split_ifs with he
    · obtain ⟨t',h'⟩ := h.acknowledge hu hm 0 d.rtoMs ⟨fun _ => hend.mp he,fun _ => rfl⟩
      rw [hd] at h'
      exact ⟨t',n,h'⟩
    · obtain ⟨t',h'⟩ := h.acknowledge hu hm (now+tcpRtoInitialMs) tcpRtoInitialMs
        ⟨fun h0 => absurd h0 (by simp [tcpRtoInitialMs]),fun hmn => absurd (hend.mpr hmn) he⟩
      rw [hd] at h'
      exact ⟨t',n,h'⟩
  · rw [if_neg h3]
    exact ⟨io,u,.inr rfl,.inl rfl,t,n,h⟩

theorem Sending.move {c c' : Conn} {out : List Emitted} {p q : TcpState}
    (h : Sending safe b iss w ⟨c,out⟩ t u n) (hs : c.state=p) (hk : TxKept {c with state := q} c')
    (hm : (q.early ↔ p.early) ∧ (p.opened → q.opened))
    (hsyn : u=0 → q=.synSent ∨ q=.synReceived) : Sending safe b iss w ⟨c',out⟩ t u n := by
  have hf := h.flight
  rw [← hs] at hm
  have hst : Sending safe b iss w ⟨{c with state := q},out⟩ t u n := by
    refine ⟨⟨hf.una,hf.nxt,hf.le,hf.pos,hf.size,hf.seq,hf.idle,hsyn,hf.fin.trans hm.1.symm,
      hf.timer,hf.mss,fun hst htx => hm.2 (hf.stream hst htx)⟩,fun hs => ?_⟩
    have hc := h.carried hs
    exact ⟨hc.place,hc.empty,hc.fin,hc.held,hc.out,hc.noFin⟩
  exact hst.of_kept hk

theorem Sending.moveOn {c c' : Conn} {out : List Emitted} {p q : TcpState}
    (h : Sending safe b iss w ⟨c,out⟩ t u n) (hs : c.state=p) (hk : TxKept {c with state := q} c')
    (hm : (q.early ↔ p.early) ∧ (p.opened → q.opened) ∧ p≠.synSent ∧ p≠.synReceived) :
    Sending safe b iss w ⟨c',out⟩ t u n := by
  refine h.move hs hk ⟨hm.1,hm.2.1⟩ fun h0 => ?_
  rcases h.flight.acked h0 with h1 | h1
  · exact absurd (hs.symm.trans h1) hm.2.2.1
  · exact absurd (hs.symm.trans h1) hm.2.2.2

theorem Flight.caught_up (h : Flight b iss c t u n) (hlt : ¬seqLt c.sndUna c.sndNxt=true) :
    u=n := by
  have hle := h.le
  have hd := h.inFlight_lt
  by_contra hne
  refine hlt ?_
  simp only [seqLt,decide_eq_true_eq]
  rw [toInt32_neg,h.una,h.nxt]
  have hs := num_sub_toNat iss hle (by omega)
  have hneg : num iss u-num iss n=0-(num iss n-num iss u) := by grind
  rw [hneg,UInt32.toNat_sub,hs]
  change 2^31≤(2^32-(n-u)+0)%2^32
  omega

theorem Sending.inputState (h : Sending safe b iss w io t u n) (now : Nat) (seg : Segment) :
    (∃io',Tcp.inputState now seg io=.error io' ∧ SendsOr safe b iss u w io') ∨
    ∃io',Tcp.inputState now seg io=.ok io' ∧ Sends safe b iss u w io' := by
  have hsame : SendsOr safe b iss u w io := ⟨fun hs => (h.carried hs).out,fun _ => ⟨t,n,h⟩⟩
  unfold Tcp.inputState
  dsimp only
  split
  · next hs =>
    split_ifs with h1 h2
    · exact .inl ⟨io,rfl,hsame⟩
    · exact .inl ⟨io,rfl,hsame⟩
    · refine .inr ⟨_,rfl,t,n,h.move hs (TxKept.refl _) (by decide) fun h0 => ?_⟩
      have hpos := h.flight.pos
      have hend := h.flight.caught_up h2
      omega
  · next hs =>
    refine .inr ⟨_,rfl,t,n,?_⟩
    split_ifs
    · exact h.moveOn hs (TxKept.refl _) (by decide)
    · exact h
  · split_ifs
    · exact .inl ⟨_,rfl,fun hs => (h.carried hs).out,fun hu => by cases hu⟩
    · exact .inr ⟨io,rfl,t,n,h⟩
  · next hs =>
    refine .inr ⟨_,rfl,t,n,?_⟩
    split_ifs
    · exact h.moveOn (q := .timeWait) hs ⟨rfl,rfl,rfl,rfl,rfl,rfl,rfl,rfl,rfl,rfl⟩ (by decide)
    · exact h
  · exact .inr ⟨io,rfl,t,n,h⟩

theorem Sending.inputFin (h : Sending safe b iss w io t u n) (now : Nat) (seg : Segment)
    (dataLen : UInt32) : Sending safe b iss w (Tcp.inputFin now seg dataLen io) t u n := by
  unfold Tcp.inputFin
  dsimp only
  by_cases hc : seg.flags.fin=true ∧ seg.seq+dataLen=io.conn.rcvNxt
  · rw [if_pos hc]
    split
    · next hs =>
      exact h.moveOn (q := .closeWait) hs ⟨rfl,rfl,rfl,rfl,rfl,rfl,rfl,rfl,rfl,rfl⟩ (by decide)
    · next hs =>
      exact h.moveOn (q := .closing) hs ⟨rfl,rfl,rfl,rfl,rfl,rfl,rfl,rfl,rfl,rfl⟩ (by decide)
    · next hs =>
      exact h.moveOn (q := .timeWait) hs ⟨rfl,rfl,rfl,rfl,rfl,rfl,rfl,rfl,rfl,rfl⟩ (by decide)
    · exact h.of_kept ⟨rfl,rfl,rfl,rfl,rfl,rfl,rfl,rfl,rfl,rfl⟩
  · rw [if_neg hc]
    exact h

theorem Sending.or (h : Sending safe b iss w io t u n) : SendsOr safe b iss u w io :=
  ⟨fun hs => (h.carried hs).out,fun _ => ⟨t,n,h⟩⟩

theorem Sends.or (h : Sends safe b iss u w io) : SendsOr safe b iss u w io := by
  obtain ⟨t,n,h⟩ := h
  exact h.or

theorem Sending.abort (h : Sending safe b iss w io t u n) :
    SendsOr safe b iss u w (connAbort b io) := by
  refine ⟨fun hs => ?_,fun hu => by cases hu⟩
  unfold connAbort
  dsimp only
  split_ifs
  · exact ((h.emitBare {rst := true} io.conn.sndNxt false rfl).carried hs).out
  · exact (h.carried hs).out

theorem takeData_txKept (data : Bytes) (c : Conn) : TxKept c (takeData b data c) := by
  unfold takeData accept
  dsimp only
  split_ifs <;> exact ⟨rfl,rfl,rfl,rfl,rfl,rfl,rfl,rfl,rfl,rfl⟩

theorem Sending.inputTail (h : Sending safe b iss w io t u n) (now : Nat) (seg : Segment) :
    Sends safe b iss u w (Tcp.inputTail b now seg io) := by
  unfold Tcp.inputTail inputData
  dsimp only
  split_ifs
  · exact ⟨t,n,h.emitBare _ _ _ rfl⟩
  · obtain ⟨n',h'⟩ := (h.inputFin now seg 0).transmit now
    exact ⟨t,n',h'⟩
  · exact ⟨t,n,h.emitBare _ _ _ rfl⟩
  · have hk := h.of_kept (takeData_txKept (b := b) (seg.data.take (rcvWindow b io.conn).toNat) io.conn)
    obtain ⟨n',h'⟩ := (hk.inputFin now seg _).transmit now
    exact ⟨t,n',h'⟩

theorem clampMss_ne (mss : UInt32) : clampMss mss≠0 := by
  unfold clampMss
  dsimp only
  split_ifs with h1 h2 h2
  · decide
  · exact h1
  · decide
  · decide

theorem Sending.inputSynSent (h : Sending safe b iss w io t u n) (hs : io.conn.state=.synSent)
    (seg : Segment) : ∃m,AckTo iss u seg m ∧ SendsOr safe b iss m w (Tcp.inputSynSent b seg io) := by
  unfold Tcp.inputSynSent
  dsimp only
  split_ifs with h1 h2 h3
  · exact ⟨u,.inl rfl,h.or⟩
  · exact ⟨u,.inl rfl,h.or⟩
  · exact ⟨u,.inl rfl,h.abort⟩
  · have hack : seg.ack=io.conn.sndNxt := not_not.mp h3
    have hf := h.flight
    have hle := hf.le
    refine ⟨n,.inr ⟨by simpa using h2,hack.trans hf.nxt⟩,
      Sending.or (t := t) (u := n) (n := n) (Sending.emitBare ?_ _ _ _ rfl)⟩
    have hearly : io.conn.finSent=false := hf.fin.mpr (.inl hs)
    refine ⟨⟨hack.trans hf.nxt,hf.nxt,le_rfl,hf.pos,hf.size,fun htx => ?_,
      fun _ => ⟨Nat.le_succ n,fun _ _ => rfl⟩,fun h0 => absurd h0 hf.pos.ne',
      ⟨fun _ => (by decide : TcpState.established.early),fun _ => hearly⟩,
      ⟨fun _ => rfl,fun _ => rfl⟩,clampMss_ne _,fun _ _ => .inl rfl⟩,fun hsafe => ?_⟩
    · obtain ⟨hseq,ht,hle,hlast⟩ := hf.seq htx
      exact ⟨hseq,hle.trans (Nat.le_succ n),hle,hlast⟩
    · have hc := h.carried hsafe
      exact ⟨fun htx => ⟨(hc.place htx).1,(hc.place htx).2.imp_right fun ht => ht.trans hle⟩,
        hc.empty,hc.fin,hc.held,hc.out,hc.noFin⟩

theorem Sending.input (h : Sending safe b iss w io t u n) (now : Nat) (seg : Segment) :
    ∃m,AckTo iss u seg m ∧ SendsOr safe b iss m w (tcpInput b now seg io) := by
  have h0 : Sending safe b iss w ⟨{io.conn with lastRxMs := now, kaProbes := 0},io.out⟩ t u n :=
    h.of_kept ⟨rfl,rfl,rfl,rfl,rfl,rfl,rfl,rfl,rfl,rfl⟩
  unfold tcpInput
  dsimp only
  by_cases hr : seg.flags.rst=true
  · rw [if_pos hr]
    refine ⟨u,.inl rfl,?_⟩
    split_ifs
    · exact ⟨fun hs => (h.carried hs).out,fun hu => by cases hu⟩
    · exact h0.or
  rw [if_neg hr]
  by_cases hs : io.conn.state=.synSent
  · rw [if_pos hs]
    exact h0.inputSynSent hs seg
  rw [if_neg hs]
  obtain ⟨io1,m,he,hm,t1,n1,h1⟩ := h0.inputAck now seg
  refine ⟨m,hm,?_⟩
  rcases he with he | he
  · rw [he]
    exact h1.or
  · rw [he]
    dsimp only
    have h2 : Sending safe b iss w ⟨{io1.conn with sndWnd := seg.wnd},io1.out⟩ t1 m n1 :=
      h1.of_kept ⟨rfl,rfl,rfl,rfl,rfl,rfl,rfl,rfl,rfl,rfl⟩
    rcases h2.inputState now seg with ⟨io3,he3,h3⟩ | ⟨io3,he3,t3,n3,h3⟩
    · rw [he3]
      exact h3
    · rw [he3]
      exact (h3.inputTail now seg).or

theorem FromWritten.append {e : Emitted} (h : FromWritten iss w e) (hf : e.flags.fin=false)
    (buf : Bytes) : FromWritten iss (w++buf) e := by
  refine ⟨fun hd => ?_,fun hfin => by rw [hf] at hfin; cases hfin⟩
  obtain ⟨o,hseq,hle,hdata⟩ := h.data hd
  refine ⟨o,hseq,by rw [List.length_append]; omega,?_⟩
  rw [List.drop_append_of_le_length (by omega),
    List.take_append_of_le_length (by rw [List.length_drop]; omega)]
  exact hdata

theorem Sending.write (h : Sending safe b iss w io t u n) {buf : Bytes} (htx : io.conn.txLen=0)
    (hlen : buf.length≤b.maxMsize) (hopen : io.conn.isStream=true → io.conn.state.opened)
    (hsafe : safe → io.conn.finSent=false) : Sending safe b iss (w++buf)
      ⟨{io.conn with
        tx := patch io.conn.tx 0 buf, txLen := buf.length.toUInt32, txSeq := io.conn.sndNxt},io.out⟩
      n u n := by
  have hf := h.flight
  have hm : b.maxMsize≤4096 := by cases b <;> decide
  have hb : buf.length.toUInt32.toNat=buf.length := toUInt32_toNat (by omega)
  have hi := hf.idle htx
  refine ⟨⟨hf.una,hf.nxt,hf.le,hf.pos,hb.trans_le hlen,fun _ => ⟨hf.nxt,hi.1,le_rfl,?_⟩,
    fun _ => hi,hf.acked,hf.fin,hf.timer,hf.mss,fun hst _ => hopen hst⟩,fun hs => ?_⟩
  · exact (Nat.le_add_right n _).trans (Nat.le_add_right _ _)
  · have hc := h.carried hs
    have hno := hsafe hs
    have hend := hc.empty hno htx
    refine ⟨fun _ => ⟨?_,?_⟩,fun _ hz => ?_,fun hfin => ?_,?_,fun e he => ?_,hc.noFin⟩
    · rw [hb,List.length_append,hend]
      exact Nat.add_assoc _ _ _
    · by_cases hu0 : u=0
      · omega
      · exact .inr (hi.2 hno hu0).le
    · have hz := congrArg UInt32.toNat hz
      rw [hb] at hz
      rw [List.length_append,hz]
      exact hend
    · rw [show io.conn.finSent=true from hfin] at hno
      cases hno
    · rw [hb,memRead_patch,List.length_append,Nat.add_sub_cancel]
      exact (List.drop_left' rfl).symm
    · exact (hc.out e he).append (hc.noFin hno e he) buf

theorem sentBytes_all (buf : Bytes) : sentBytes buf buf.length=buf := List.take_length

theorem Sending.linkSend (h : Sending safe b iss w io t u n) (hs : io.conn.isStream=false)
    (buf : Bytes) (hsafe : safe → io.conn.finSent=false) :
    Sends safe b iss u (w++sentBytes buf (linkSendFrame b buf io.conn).1)
      ⟨(linkSendFrame b buf io.conn).2,io.out⟩ := by
  have hnone : sentBytes buf (-1)=[] := rfl
  unfold linkSendFrame
  split_ifs with h1 h2
  · rw [hnone,List.append_nil]
    exact ⟨t,n,h⟩
  · rw [hnone,List.append_nil]
    exact ⟨t,n,h⟩
  · dsimp only
    rw [sentBytes_all]
    rw [not_or,not_or] at h1
    exact ⟨n,n,h.write (not_not.mp h2) (not_lt.mp h1.2.2) (fun hst => by rw [hs] at hst; cases hst)
      hsafe⟩

theorem Sending.streamWrite (h : Sending safe b iss w io t u n) (buf : Bytes) :
    Sends safe b iss u (w++sentBytes buf (tcpStreamWrite b buf io.conn).1)
      ⟨(tcpStreamWrite b buf io.conn).2,io.out⟩ := by
  have hnone : sentBytes buf 0=[] := rfl
  unfold tcpStreamWrite
  split_ifs with h1 h2 h3 h4
  · rw [hnone,List.append_nil]
    exact ⟨t,n,h⟩
  · rw [show sentBytes buf (-1)=[] from rfl,List.append_nil]
    exact ⟨t,n,h⟩
  · rw [hnone,List.append_nil]
    exact ⟨t,n,h⟩
  · rw [hnone,List.append_nil]
    exact ⟨t,n,h⟩
  · have hopen : io.conn.state.opened := by
      by_contra hn
      rw [TcpState.opened,not_or] at hn
      exact h1 hn
    dsimp only
    have hsent : sentBytes buf (buf.take b.maxMsize).length=buf.take b.maxMsize := by
      unfold sentBytes
      rw [Int.toNat_natCast,List.length_take]
      rcases Nat.le_total b.maxMsize buf.length with hle | hle
      · rw [Nat.min_eq_left hle]
      · rw [Nat.min_eq_right hle,List.take_length,List.take_of_length_le hle]
    rw [hsent]
    exact ⟨n,n,h.write (not_not.mp h4) (by rw [List.length_take]; exact Nat.min_le_left _ _)
      (fun _ => hopen) fun _ => h.flight.fin.mpr (.inr (.inr hopen))⟩

theorem Sending.tcpClose (h : Sending safe b iss w io t u n) (now : Nat)
    (hs : io.conn.isStream=false) (hsafe : safe → io.conn.state.opened → io.conn.txLen=0 ∨
      io.conn.txLen ≤ io.conn.sndNxt-io.conn.txSeq) :
    SendsOr safe b iss u w (Tcp.tcpClose b now io) := by
  have hst : io.conn.isStream=true → io.conn.txLen=0 := fun ht => by rw [hs] at ht; cases ht
  unfold Tcp.tcpClose
  split_ifs with h1 h2 h3
  · exact h.or
  · exact (h.sendFin now (.inl ⟨h2,rfl⟩) hst fun hf => hsafe hf (.inl h2)).or
  · exact (h.sendFin now (.inr ⟨h3,rfl⟩) hst fun hf => hsafe hf (.inr h3)).or
  · exact h.abort

theorem Sending.tcpStreamClose (h : Sending safe b iss w io t u n) (now : Nat) :
    SendsOr safe b iss u w (Tcp.tcpStreamClose b now io) := by
  unfold Tcp.tcpStreamClose
  dsimp only
  split_ifs with h1 h2 h3
  · exact Sending.or (h.of_kept ⟨rfl,rfl,rfl,rfl,rfl,rfl,rfl,rfl,rfl,rfl⟩)
  · have htx : io.conn.txLen=0 := by
      by_contra hne
      exact h1 ⟨hne,.inl h2⟩
    exact (h.sendFin now (.inl ⟨h2,rfl⟩) (fun _ => htx) fun _ => .inl htx).or
  · have htx : io.conn.txLen=0 := by
      by_contra hne
      exact h1 ⟨hne,.inr h3⟩
    exact (h.sendFin now (.inr ⟨h3,rfl⟩) (fun _ => htx) fun _ => .inl htx).or
  · exact h.abort

theorem Sending.timers (h : Sending safe b iss w io t u n) (now : Nat) :
    SendsOr safe b iss u w (serviceTimers b now io).1 := by
  have hrto {io : Io} (h : Sending safe b iss w io t u n) :
      SendsOr safe b iss u w (serviceRto b now io).1 := by
    unfold serviceRto
    split_ifs with h1 h2
    · exact h.or
    · exact h.abort
    · rw [not_or] at h1
      have hne : u≠n := fun he => h1.1 (h.flight.timer.mpr he)
      have hle := h.flight.le
      exact (h.retransmit (by omega) (by omega)).or
  unfold serviceTimers serviceKeepalive
  dsimp only
  split_ifs with h1 h2 h3 h4
  · exact ⟨fun hs => (h.carried hs).out,fun hu => by cases hu⟩
  · exact h.or
  · exact hrto h
  · exact h.abort
  · refine hrto ?_
    exact (h.emitBare {ack := true} (io.conn.sndNxt-1) false rfl).of_kept
      ⟨rfl,rfl,rfl,rfl,rfl,rfl,rfl,rfl,rfl,rfl⟩

theorem Sending.servedP9 (h : Sending safe b iss w io t u n) :
    SendsOr safe b iss u w (serviceP9 b io).1 := by
  unfold serviceP9
  split_ifs
  · exact h.abort
  · exact h.or

theorem Sending.tail (h : Sending safe b iss w io t u n) (now : Nat) :
    Sends safe b iss u w (serviceTail b now io) := by
  have hclose : Sends safe b iss u w (serviceClose b now io) := by
    unfold serviceClose
    dsimp only
    split_ifs with h1 h2 h3
    · have hk : Sending safe b iss w ⟨{io.conn with closePending := false},io.out⟩ t u n :=
        h.of_kept ⟨rfl,rfl,rfl,rfl,rfl,rfl,rfl,rfl,rfl,rfl⟩
      exact ⟨t,_,hk.sendFin now (.inl ⟨h2,rfl⟩) (fun _ => h1.2.1) fun _ => .inl h1.2.1⟩
    · have hk : Sending safe b iss w ⟨{io.conn with closePending := false},io.out⟩ t u n :=
        h.of_kept ⟨rfl,rfl,rfl,rfl,rfl,rfl,rfl,rfl,rfl,rfl⟩
      exact ⟨t,_,hk.sendFin now (.inr ⟨h3,rfl⟩) (fun _ => h1.2.1) fun _ => .inl h1.2.1⟩
    · exact ⟨t,n,h.of_kept ⟨rfl,rfl,rfl,rfl,rfl,rfl,rfl,rfl,rfl,rfl⟩⟩
    · exact ⟨t,n,h⟩
  have hhalf {io : Io} {t n : Nat} (h : Sending safe b iss w io t u n) :
      Sends safe b iss u w (serviceHalfClosed b now io) := by
    unfold serviceHalfClosed
    dsimp only
    split_ifs with h1
    · exact ⟨t,_,h.sendFin now (.inr ⟨h1.1,rfl⟩) (fun _ => h1.2.1) fun _ => .inl h1.2.1⟩
    · exact ⟨t,n,h⟩
  obtain ⟨t1,n1,h1⟩ := hclose
  obtain ⟨t2,n2,h2⟩ := hhalf h1
  obtain ⟨n3,h3⟩ := h2.transmit now
  exact ⟨t2,n3,h3⟩

theorem Sending.spartan (h : Sending safe b iss w io t u n) (now : Nat) (hs : io.conn.serves=true)
    (consumed : UInt32) {reply : Bytes} (hlen : reply.length≤b.maxMsize) (closeAfter : Bool) :
    Sends safe b iss u (w++reply) (serviceSpartan b now consumed reply closeAfter io) := by
  simp only [Conn.serves,decide_eq_true_eq] at hs
  have hopen : io.conn.state.opened := .inl hs.1
  have hk (c : Conn) : TxKept c (takeRequest consumed c) := by
    unfold takeRequest
    split_ifs <;> exact ⟨rfl,rfl,rfl,rfl,rfl,rfl,rfl,rfl,rfl,rfl⟩
  have hsent : Sends safe b iss u (w++reply) (sendReply b now reply
      ⟨takeRequest consumed {io.conn with tx := patch io.conn.tx 0 reply},io.out⟩) := by
    unfold sendReply
    split_ifs with hr
    · have hw := h.write hs.2.1 hlen (fun _ => hopen) fun _ => h.flight.fin.mpr (.inr (.inr hopen))
      have hk' : TxKept {io.conn with
            tx := patch io.conn.tx 0 reply, txLen := reply.length.toUInt32,
            txSeq := io.conn.sndNxt}
          {takeRequest consumed {io.conn with tx := patch io.conn.tx 0 reply} with
            txSeq := (takeRequest consumed {io.conn with tx := patch io.conn.tx 0 reply}).sndNxt,
            txLen := reply.length.toUInt32} := by
        unfold takeRequest
        dsimp only
        split_ifs <;> exact ⟨rfl,rfl,rfl,rfl,rfl,rfl,rfl,rfl,rfl,rfl⟩
      obtain ⟨n',h'⟩ := (hw.of_kept hk').transmit now
      exact ⟨n,n',h'⟩
    · obtain rfl := not_not.mp hr
      have hpatch : patch io.conn.tx 0 []=io.conn.tx := by
        funext i
        exact patch_outside _ _ _ _ (.inr (Nat.zero_le i))
      rw [hpatch,List.append_nil]
      exact ⟨t,n,h.of_kept (hk io.conn)⟩
  obtain ⟨t',n',h'⟩ := hsent
  unfold serviceSpartan
  dsimp only
  split_ifs
  · exact ⟨t',n',h'.of_kept ⟨rfl,rfl,rfl,rfl,rfl,rfl,rfl,rfl,rfl,rfl⟩⟩
  · exact ⟨t',n',h'⟩

end

/-- A tcp_close finds everything in flight, and no frame is sent after the FIN. -/
def Call.Safe (c : Conn) : Call → Prop
  | .linkSend _ => c.finSent=false
  | .linkClose _ => c.txLen=0 ∨ c.state.opened ∧ c.txLen≤c.sndNxt-c.txSeq
  | _ => True

def Call.AckTo (iss : UInt32) (u : Nat) (k : Call) (m : Nat) : Prop :=
  match k with
  | .input _ seg => Tcp.AckTo iss u seg m
  | _ => m=u

theorem call_sending {safe : Prop} {b : Board} {iss : UInt32} {l : Life} {t u n : Nat} {k : Call}
    (h : Sending safe b iss l.written l.io t u n) (hl : k.Legal b l.io.conn)
    (hsafe : safe → k.Safe l.io.conn) :
    ∃m,k.AckTo iss u m ∧ SendsOr safe b iss m (l.call b k).written (l.call b k).io := by
  cases k with
  | input now seg => exact h.input now seg
  | linkRecv maxLen =>
    refine ⟨u,rfl,Sending.or (t := t) (n := n) (h.of_kept ?_)⟩
    unfold linkRecvFrame
    dsimp only
    split_ifs <;> exact ⟨rfl,rfl,rfl,rfl,rfl,rfl,rfl,rfl,rfl,rfl⟩
  | linkSend buf => exact ⟨u,rfl,(h.linkSend hl.2 buf hsafe).or⟩
  | linkClose now =>
    refine ⟨u,rfl,h.tcpClose now hl.2 fun hs _ => ?_⟩
    rcases hsafe hs with h0 | ⟨_,h0⟩
    · exact .inl h0
    · exact .inr h0
  | session prot => exact ⟨u,rfl,Sending.or (h.of_kept ⟨rfl,rfl,rfl,rfl,rfl,rfl,rfl,rfl,rfl,rfl⟩)⟩
  | streamRead max =>
    refine ⟨u,rfl,Sending.or (t := t) (n := n) (h.of_kept ?_)⟩
    unfold tcpStreamRead
    dsimp only
    split_ifs <;> exact ⟨rfl,rfl,rfl,rfl,rfl,rfl,rfl,rfl,rfl,rfl⟩
  | streamWrite buf => exact ⟨u,rfl,(h.streamWrite buf).or⟩
  | streamClose now => exact ⟨u,rfl,h.tcpStreamClose now⟩
  | accepted => exact ⟨u,rfl,Sending.or (h.of_kept ⟨rfl,rfl,rfl,rfl,rfl,rfl,rfl,rfl,rfl,rfl⟩)⟩
  | timers now => exact ⟨u,rfl,h.timers now⟩
  | servedP9 => exact ⟨u,rfl,h.servedP9⟩
  | spartan now consumed reply closeAfter =>
    exact ⟨u,rfl,(h.spartan now hl.2.1 consumed hl.2.2.2 closeAfter).or⟩
  | tail now => exact ⟨u,rfl,(h.tail now).or⟩

theorem start_sending {safe : Prop} {b : Board} (c : Conn) (now : Nat) (f : Flags)
    (hnxt : c.sndNxt=c.sndUna) (htx : c.txLen=0) (hfin : c.finSent=false)
    (hs : c.state=.synSent ∨ c.state=.synReceived) (hmss : c.peerMss≠0) (hf : f.fin=false) :
    Sending safe b c.sndUna [] (connStartSyn b now f ⟨c,[]⟩) 1 0 1 := by
  have hearly : c.state.early := hs.imp_right .inl
  refine ⟨⟨(num_zero _).symm,?_,Nat.zero_le 1,Nat.one_pos,?_,fun hne => absurd htx hne,
    fun _ => ⟨le_rfl,fun _ h0 => absurd rfl h0⟩,fun _ => hs,⟨fun _ => hearly,fun _ => hfin⟩,?_,hmss,
    fun _ hne => absurd htx hne⟩,fun _ => ⟨fun hne => absurd htx hne,fun _ _ => rfl,?_,?_,?_,?_⟩⟩
  · change c.sndNxt+1=_
    rw [hnxt]
    rfl
  · change c.txLen.toNat≤_
    rw [htx]
    exact Nat.zero_le _
  · change now+tcpRtoInitialMs=0 ↔ _
    simp [tcpRtoInitialMs]
  · intro h1
    rw [show c.finSent=true from h1] at hfin
    cases hfin
  · rw [show (connStartSyn b now f ⟨c,[]⟩).conn.txLen=0 from htx]
    rfl
  · intro e he
    rw [List.mem_singleton.mp he]
    exact .bare rfl hf
  · intro _ e he
    rw [List.mem_singleton.mp he]
    exact hf

theorem born_sending {safe : Prop} {b : Board} {l : Life} (h : Born b l) :
    Sending safe b l.io.conn.sndUna l.written l.io 1 0 1 := by
  cases h with
  | accepted now c peerIp sport dport seg iss stream =>
    exact start_sending (synConn c peerIp sport dport seg iss stream) now {syn := true, ack := true}
      (by cases stream <;> rfl) (by cases stream <;> rfl) (by cases stream <;> rfl)
      (.inr (by cases stream <;> rfl)) (by cases stream <;> exact clampMss_ne _) rfl
  | dialled now c peerIp port localPort iss stream =>
    exact start_sending (dialConn c peerIp port localPort iss stream) now {syn := true}
      (by cases stream <;> rfl) (by cases stream <;> rfl) (by cases stream <;> rfl)
      (.inl (by cases stream <;> rfl))
      (by cases stream <;> exact (by decide : tcpDefaultMss≠0)) rfl

/-- The first unacknowledged position is the SYN's, or an ACK field of the run names it. -/
def Named (iss : UInt32) (h : List Call) (u : Nat) : Prop :=
  u=0 ∨ ∃now seg,Call.input now seg∈h ∧ seg.flags.ack=true ∧ seg.ack=num iss u

theorem Named.next {iss : UInt32} {h : List Call} {u m : Nat} {k : Call} (hn : Named iss h u)
    (hk : k.AckTo iss u m) : Named iss (k::h) m := by
  have hkeep : Named iss (k::h) u := by
    rcases hn with h0 | ⟨now,seg,hmem,hs⟩
    · exact .inl h0
    · exact .inr ⟨now,seg,List.mem_cons_of_mem _ hmem,hs⟩
  cases k with
  | input now seg =>
    rcases hk with rfl | hs
    · exact hkeep
    · exact .inr ⟨now,seg,List.mem_cons_self,hs⟩
  | _ =>
    rw [show m=u from hk]
    exact hkeep

theorem sending_reach {safe : Prop} {b : Board} {ok : Life → Call → Prop} {l0 l : Life}
    {h : List Call} (hok : safe → ∀l k,ok l k → k.Safe l.io.conn) (hb : Born b l0)
    (hr : Reach (LifeStep b ok) l0 h l) : ∃u,Named l0.io.conn.sndUna h u ∧
      SendsOr safe b l0.io.conn.sndUna u l.written l.io := by
  refine Reach.invariant (fun h l => ∃u,Named l0.io.conn.sndUna h u ∧
    SendsOr safe b l0.io.conn.sndUna u l.written l.io) ⟨0,.inl rfl,(born_sending hb).or⟩ ?_ hr
  rintro h l k l' ⟨u,hu,hi⟩ hs
  obtain ⟨hl,hcall⟩ := hs.legal
  obtain ⟨t,n,hsend⟩ := hi.2 hl.inUse
  obtain ⟨m,hm,hnext⟩ := call_sending hsend hl fun hsafe => hok hsafe l k hcall
  exact ⟨m,hu.next hm,hs.result ▸ hnext⟩

end LugalOS.Tcp
