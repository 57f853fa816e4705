import Mathlib.Tactic.Ring
import LugalOS.Lib.Framing
import LugalOS.Lib.LittleEndian

namespace LugalOS.Mqtt

open CString Memory

def mqttRxMax : Nat := 512
def mqttTopicMax : Nat := 128
def mqttErrProto : Int := -5
def varintMax : Nat := 268435455

/-- The do loop of mqtt_varint_encode. -/
def varintBytes (value : Nat) : Bytes :=
  let byte := (value%128).toUInt8
  if _h : value/128=0 then [byte] else (byte ||| 0x80)::varintBytes (value/128)
termination_by value
decreasing_by omega

/-- The bytes written to out; none for a value that is too large. -/
def mqttVarintEncode (value : UInt32) : Bytes :=
  if varintMax < value.toNat then [] else varintBytes value.toNat

/-- The for loop of mqtt_varint_decode with k of its rounds to go: its result and the value. -/
def varintLoop : Nat → Bytes → Nat → Nat → Nat → Int×Nat
  | 0,_,_,_,_ => (-1,0)
  | _+1,[],_,_,_ => (0,0)
  | k+1,byte::buf,i,v,mult =>
    let v := v+(byte &&& 0x7f).toNat*mult
    if byte &&& 0x80=0 then (i+1,v) else varintLoop k buf (i+1) v (mult*128)

def mqttVarintDecode (buf : Bytes) : Int×Nat := varintLoop 4 buf 0 0 1

/-- What the message handler is called with. -/
structure Call where
  topic : Bytes
  payload : Bytes
  retained : Bool
deriving DecidableEq

/-- The client's state but for the receive buffer; `calls` and `dispatched` keep what the handler and
dispatch have been given so far. -/
structure Core where
  connackSeen : Bool := false
  connackRc : UInt8 := 0
  pingSentMs : UInt64 := 0
  ackWaitId : UInt16 := 0
  ackSeen : Bool := false
  ackGranted : UInt8 := 0
  handler : Bool := false
  received : UInt32 := 0
  oversize : UInt32 := 0
  calls : List Call := []
  dispatched : List Bytes := []

/-- The buffer, how much of it is in use, and how much of an oversize packet is still to come. -/
structure Client where
  core : Core
  rx : Bytes
  rxLen : Nat
  skip : Nat

/-- What handle_publish calls the handler with, if it gets that far; pkt is all of memory from the
body on. -/
def handlePublish (pkt : Bytes) (len : Nat) (flags : UInt8) : Option Call :=
  if len<2 then none
  else
    let tlen := (pkt.getD 0 0).toNat<<<8 ||| (pkt.getD 1 0).toNat
    if len<2+tlen then none
    else
      let topic := (pkt.drop 2).take (if mqttTopicMax < tlen then mqttTopicMax else tlen)
      let off := 2+tlen
      let qos := (flags>>>1) &&& 3
      if qos≠0 ∧ len < off+2 then none
      else
        let off := if qos≠0 then off+2 else off
        some ⟨topic,(pkt.drop off).take (len-off),flags &&& 1≠0⟩

/-- One packet at the start of pkt; pkt is all of memory from there on. -/
def dispatch (g : Core) (pkt : Bytes) (hdrLen bodyLen : Nat) : Core×Int :=
  let g := {g with dispatched := g.dispatched++[pkt.take (hdrLen+bodyLen)]}
  let first := pkt.getD 0 0
  let body := pkt.drop hdrLen
  let id := (body.getD 0 0).toUInt16<<<8 ||| (body.getD 1 0).toUInt16
  if first &&& 0xf0=0x20 then
    if bodyLen<2 then (g,mqttErrProto)
    else ({g with connackRc := body.getD 1 0,connackSeen := true},0)
  else if first &&& 0xf0=0xd0 then ({g with pingSentMs := 0},0)
  else if first &&& 0xf0=0x30 then
    match handlePublish body bodyLen (first &&& 0x0f) with
    | none => ({g with received := g.received+1},0)
    | some call =>
      ({g with
        calls := if g.handler then g.calls++[call] else g.calls
        received := g.received+1},0)
  else if first &&& 0xf0=0x90 then
    if bodyLen<3 then (g,mqttErrProto)
    else if id=g.ackWaitId then ({g with ackGranted := body.getD 2 0,ackSeen := true},0)
    else (g,0)
  else if first &&& 0xf0=0xb0 then
    if bodyLen<2 then (g,mqttErrProto)
    else if id=g.ackWaitId then ({g with ackGranted := 0,ackSeen := true},0)
    else (g,0)
  else if first &&& 0xf0=0x40 then (g,0)
  else (g,mqttErrProto)

/-- The inner loop of feed: takes the whole packets off the buffer. None when the rounds k are used
up. -/
def consume : Nat → Client → Option (Client×Int)
  | 0,_ => none
  | k+1,g =>
    if g.rxLen<2 then some (g,0)
    else
      let (vn,bodyLen) := mqttVarintDecode ((g.rx.drop 1).take (g.rxLen-1))
      if vn<0 then some (g,mqttErrProto)
      else if vn=0 then some (g,0)
      else
        let hdrLen := 1+vn.toNat
        let total := hdrLen+bodyLen
        if mqttRxMax < total then
          let haveBody := g.rxLen-hdrLen
          let skip := bodyLen-(if haveBody < bodyLen then haveBody else bodyLen)
          some ({g with core := {g.core with oversize := g.core.oversize+1},rxLen := 0,skip},0)
        else if g.rxLen < total then some (g,0)
        else
          let (core,rc) := dispatch g.core g.rx hdrLen bodyLen
          let rest := g.rxLen-total
          let rx := if rest≠0 then store g.rx 0 ((g.rx.drop total).take rest) else g.rx
          let g := {g with core,rx,rxLen := rest}
          if rc≠0 then some (g,rc) else consume k g

/-- One chunk of bytes, in at most k rounds of the outer loop. -/
def feed : Nat → Client → Bytes → Option (Client×Int)
  | 0,g,data => if data.length≠0 then none else some (g,0)
  | k+1,g,data =>
    if data.length≠0 then
      if g.skip≠0 then
        let n := if g.skip < data.length then g.skip else data.length
        feed k {g with skip := g.skip-n} (data.drop n)
      else
        let room := mqttRxMax-g.rxLen
        let n := if data.length < room then data.length else room
        let g := {g with rx := store g.rx g.rxLen (data.take n),rxLen := g.rxLen+n}
        match consume g.rxLen g with
        | none => none
        | some (g,rc) => if rc≠0 then some (g,rc) else feed k g (data.drop n)
    else some (g,0)

/-- One chunk after the other, each with as many rounds as it has bytes, until the first error. -/
def feedAll : Client → List Bytes → Option (Client×Int)
  | g,[] => some (g,0)
  | g,data::chunks =>
    match feed data.length g data with
    | none => none
    | some (g,rc) => if rc≠0 then some (g,rc) else feedAll g chunks

open Framing Words

theorem mod_toUInt8_lt (v : Nat) : (v%128).toUInt8<128 ∧ (v%128).toUInt8.toNat=v%128 := by
  have h : (v%128).toUInt8.toNat=v%128 := by
    rw [Nat.toUInt8,UInt8.toNat_ofNat']
    exact Nat.mod_eq_of_lt (by omega)
  refine ⟨?_,h⟩
  rw [UInt8.lt_iff_toNat_lt,h]
  exact Nat.mod_lt _ (by decide)

theorem varintLoop_bytes (rest : Bytes) (k v i a m : Nat) (hv : v<128^(k+1)) :
    varintLoop (k+1) (varintBytes v++rest) i a m=
        (((i+(varintBytes v).length : Nat) : Int),a+v*m) ∧
      (varintBytes v).length≤k+1 := by
  induction k generalizing v i a m with
  | zero =>
    have h0 : v/128=0 := by omega
    obtain ⟨hlt,hn⟩ := mod_toUInt8_lt v
    obtain ⟨hz,h7,-,-⟩ := low_byte hlt
    rw [varintBytes]
    simp only [h0,dite_true,List.cons_append,varintLoop,hz,if_true,h7,hn]
    refine ⟨?_,by simp⟩
    rw [Nat.mod_eq_of_lt (by omega)]
    rfl
  | succ k ih =>
    obtain ⟨hlt,hn⟩ := mod_toUInt8_lt v
    obtain ⟨hz,h7,hz',h7'⟩ := low_byte hlt
    rw [varintBytes]
    by_cases h0 : v/128=0
    · simp only [h0,dite_true,List.cons_append,varintLoop,hz,if_true,h7,hn]
      refine ⟨?_,by simp⟩
      rw [Nat.mod_eq_of_lt (by omega)]
      rfl
    · obtain ⟨hl,hlen⟩ := ih (v/128) (i+1) (a+v%128*m) (m*128) (by
        rw [Nat.pow_succ] at hv
        omega)
      rw [dif_neg h0,List.cons_append,varintLoop]
      simp only [hz',if_false,h7',hn,hl,List.length_cons]
      refine ⟨?_,by omega⟩
      rw [Prod.mk.injEq]
      refine ⟨by omega,?_⟩
      calc a+v%128*m+v/128*(m*128)=a+(v%128+128*(v/128))*m := by ring
        _=a+v*m := by rw [Nat.mod_add_div]

theorem mqttVarintDecode_encode (value : UInt32) (hv : value.toNat≤varintMax) (rest : Bytes) :
    mqttVarintDecode (mqttVarintEncode value++rest)=
      (((mqttVarintEncode value).length : Int),value.toNat) ∧
    0 < (mqttVarintEncode value).length ∧ (mqttVarintEncode value).length≤4 := by
  rw [mqttVarintEncode,if_neg (Nat.not_lt.mpr hv),mqttVarintDecode]
  obtain ⟨hd,hl⟩ := varintLoop_bytes rest 3 value.toNat 0 0 1 (by
    rw [varintMax] at hv
    omega)
  refine ⟨by rw [hd]; simp,?_,hl⟩
  rw [varintBytes]
  split_ifs <;> simp

theorem varintLoop_append (k : Nat) (buf d : Bytes) (i v m : Nat)
    (h : (varintLoop k buf i v m).1≠0) :
    varintLoop k (buf++d) i v m=varintLoop k buf i v m := by
  induction k generalizing buf i v m with
  | zero => rfl
  | succ k ih =>
    cases buf with
    | nil => exact absurd rfl h
    | cons b buf =>
      rw [List.cons_append,varintLoop]
      rw [varintLoop] at h ⊢
      split_ifs at h ⊢ with hb
      · rfl
      · exact ih buf _ _ _ h

theorem varintLoop_take (k : Nat) (buf : Bytes) (i v m n : Nat)
    (h : 0 < (varintLoop k buf i v m).1) :
    (i : Int) < (varintLoop k buf i v m).1 ∧ (varintLoop k buf i v m).1 ≤ i+buf.length ∧
      ((varintLoop k buf i v m).1 ≤ i+n → varintLoop k (buf.take n) i v m=varintLoop k buf i v m) := by
  induction k generalizing buf i v m n with
  | zero => exact absurd h (by simp [varintLoop])
  | succ k ih =>
    cases buf with
    | nil => exact absurd h (by simp [varintLoop])
    | cons b buf =>
      rw [varintLoop] at h ⊢
      rw [List.length_cons]
      split_ifs at h ⊢ with hb
      · refine ⟨by omega,by omega,fun hn => ?_⟩
        obtain ⟨n,rfl⟩ := Nat.exists_eq_succ_of_ne_zero (show n≠0 by omega)
        rw [List.take_succ_cons,varintLoop]
        exact if_pos hb
      · obtain ⟨h1,h2,h3⟩ := ih buf (i+1) _ _ (n-1) h
        refine ⟨by omega,by omega,fun hn => ?_⟩
        obtain ⟨n,rfl⟩ := Nat.exists_eq_succ_of_ne_zero (show n≠0 by omega)
        rw [List.take_succ_cons,varintLoop,← h3 (by omega)]
        exact if_neg hb

/-- What the first bytes of a packet say. -/
def mqttHead (s : Bytes) : Head :=
  if s.length<2 then .short
  else if (mqttVarintDecode (s.drop 1)).1<0 then .bad
  else if (mqttVarintDecode (s.drop 1)).1=0 then .short
  else .frame (1+(mqttVarintDecode (s.drop 1)).1.toNat+(mqttVarintDecode (s.drop 1)).2)

theorem mqttHead_frame {s : Bytes} {n : Nat} (h : mqttHead s=.frame n) :
    2 ≤ s.length ∧ 0 < (mqttVarintDecode (s.drop 1)).1 ∧
      n=1+(mqttVarintDecode (s.drop 1)).1.toNat+(mqttVarintDecode (s.drop 1)).2 := by
  rw [mqttHead] at h
  split_ifs at h with h2 hneg hz
  exact ⟨by omega,by omega,(Head.frame.inj h).symm⟩

theorem mqttHead_bad {s : Bytes} (h : mqttHead s=.bad) :
    2 ≤ s.length ∧ (mqttVarintDecode (s.drop 1)).1<0 := by
  rw [mqttHead] at h
  split_ifs at h with h2 hneg
  exact ⟨by omega,hneg⟩

theorem mqttHead_short {s : Bytes} (h : mqttHead s=.short) :
    s.length<2 ∨ (mqttVarintDecode (s.drop 1)).1=0 := by
  rw [mqttHead] at h
  split_ifs at h with h2 hneg hz
  · exact .inl h2
  · exact .inr hz

def mqttFormat : Format where
  head := mqttHead
  stable s d h := by
    have h2 : ¬s.length<2 := fun hlt => h (if_pos hlt)
    have hnz : (mqttVarintDecode (s.drop 1)).1≠0 := by
      intro hz
      refine h ?_
      rw [mqttHead,if_neg h2,if_neg (by omega),if_pos hz]
    have hd : mqttVarintDecode ((s++d).drop 1)=mqttVarintDecode (s.drop 1) := by
      rw [List.drop_append_of_le_length (by omega)]
      exact varintLoop_append 4 _ d 0 0 1 hnz
    rw [mqttHead,mqttHead,hd,if_neg (by rw [List.length_append]; omega),if_neg h2]
  pos h := by
    obtain ⟨_,_,rfl⟩ := mqttHead_frame h
    omega
  inside {s n} h hn := by
    obtain ⟨h2,hpos,hval⟩ := mqttHead_frame h
    obtain ⟨hlt,_,htake⟩ := varintLoop_take 4 (s.drop 1) 0 0 1 (n-1) hpos
    rw [← mqttVarintDecode] at hlt htake
    have hd : mqttVarintDecode ((s.take n).drop 1)=mqttVarintDecode (s.drop 1) := by
      rw [List.drop_take]
      exact htake (by omega)
    rw [mqttHead,if_neg (by rw [List.length_take]; omega),hd,if_neg (by omega),if_neg (by omega),
      hval]

/-- A packet that is too large only counts. -/
def Core.skipped (c : Core) : Core := {c with oversize := c.oversize+1}

/-- The packets of a stream one after the other, up to the first that is rejected. -/
def handle : Core → List Bytes → Core×Int
  | c,[] => (c,0)
  | c,p::ps =>
    if mqttRxMax < p.length then handle c.skipped ps
    else
      let hdrLen := 1+(mqttVarintDecode (p.drop 1)).1.toNat
      let (c,rc) := dispatch c p hdrLen (p.length-hdrLen)
      if rc≠0 then (c,rc) else handle c ps

theorem mqttHead_header {s : Bytes} (h : 0 < (mqttVarintDecode (s.drop 1)).1) :
    (mqttVarintDecode (s.drop 1)).1.toNat+1 ≤ s.length := by
  have := (varintLoop_take 4 (s.drop 1) 0 0 1 0 h).2.1
  rw [← mqttVarintDecode,List.length_drop] at this
  omega

/-- What is left at the end counts as soon as its length is known. -/
def ending (c : Core) (rest : Bytes) : Core×Int :=
  match mqttHead rest with
  | .short => (c,0)
  | .bad => (c,mqttErrProto)
  | .frame n => if mqttRxMax < n then (c.skipped,0) else (c,0)

/-- What a whole stream of bytes comes to. -/
def received (c : Core) (s : Bytes) : Core×Int :=
  let r := handle c (mqttFormat.split s).1
  if r.2≠0 then r else ending r.1 (mqttFormat.split s).2

theorem handle_append (c : Core) (ps qs : List Bytes) : handle c (ps++qs)=
    if (handle c ps).2≠0 then handle c ps else handle (handle c ps).1 qs := by
  induction ps generalizing c with
  | nil => rfl
  | cons p ps ih =>
    rw [List.cons_append,handle,handle]
    by_cases hsz : mqttRxMax < p.length
    · rw [if_pos hsz,if_pos hsz]
      exact ih _
    · rw [if_neg hsz,if_neg hsz]
      dsimp only
      split_ifs with hrc hps
      · rfl
      · rw [ih,if_pos hps]
      · rw [ih,if_neg hps]

theorem received_append {c : Core} {s : Bytes} (h : (handle c (mqttFormat.split s).1).2=0)
    (d : Bytes) : received c (s++d)=
      received (handle c (mqttFormat.split s).1).1 ((mqttFormat.split s).2++d) := by
  rw [received,received,mqttFormat.split_append]
  dsimp only
  rw [handle_append,if_neg (not_not.mpr h)]

theorem received_waits {s : Bytes} (h : mqttFormat.Waits s) (c : Core) :
    received c s=ending c s := by
  rw [received,mqttFormat.split_of_waits h]
  exact if_neg (not_not.mpr rfl)

theorem received_frame {s : Bytes} {n : Nat} (h : mqttHead s=.frame n) (hn : n ≤ s.length)
    (c : Core) : received c s=
      if mqttRxMax < n then received c.skipped (s.drop n)
      else
        let r := dispatch c (s.take n) (1+(mqttVarintDecode (s.drop 1)).1.toNat)
          (mqttVarintDecode (s.drop 1)).2
        if r.2≠0 then r else received r.1 (s.drop n) := by
  obtain ⟨_,hpos,hval⟩ := mqttHead_frame h
  have hlen : (s.take n).length=n := by rw [List.length_take,Nat.min_eq_left hn]
  have hdec : mqttVarintDecode ((s.take n).drop 1)=mqttVarintDecode (s.drop 1) := by
    rw [List.drop_take]
    have := varintLoop_take 4 (s.drop 1) 0 0 1 (n-1) hpos
    rw [← mqttVarintDecode] at this
    exact this.2.2 (by omega)
  rw [received,mqttFormat.split_of_frame h hn]
  dsimp only
  rw [handle,hlen,hdec]
  have hbody : n-(1+(mqttVarintDecode (s.drop 1)).1.toNat)=(mqttVarintDecode (s.drop 1)).2 := by
    omega
  by_cases hbig : mqttRxMax < n
  · simp only [if_pos hbig]
    rfl
  · simp only [if_neg hbig,hbody]
    by_cases hrc : (dispatch c (s.take n) (1+(mqttVarintDecode (s.drop 1)).1.toNat)
        (mqttVarintDecode (s.drop 1)).2).2=0
    · simp only [hrc,ne_eq,not_true_eq_false,if_false]
      rfl
    · simp only [hrc,ne_eq,not_false_eq_true,if_true]

theorem received_append_error {c : Core} {s : Bytes} (h : (received c s).2≠0) (d : Bytes) :
    received c (s++d)=received c s := by
  by_cases hh : (handle c (mqttFormat.split s).1).2=0
  · have hs : received c s=ending (handle c (mqttFormat.split s).1).1 (mqttFormat.split s).2 :=
      if_neg (not_not.mpr hh)
    rw [received_append hh,hs]
    rw [hs] at h
    have hbad : mqttHead (mqttFormat.split s).2=.bad := by
      rw [ending] at h
      split at h
      · exact absurd rfl h
      · assumption
      · split_ifs at h <;> exact absurd rfl h
    have hbad' : mqttHead ((mqttFormat.split s).2++d)=.bad :=
      (mqttFormat.stable _ d fun hs => Head.noConfusion (hbad.symm.trans hs)).trans hbad
    have hw : mqttFormat.Waits ((mqttFormat.split s).2++d) := fun n hn =>
      Head.noConfusion (hbad'.symm.trans hn)
    rw [received,mqttFormat.split_of_waits hw,handle,ending,ending,hbad,hbad']
    rfl
  · rw [received,received,mqttFormat.split_append]
    dsimp only
    rw [handle_append,if_pos hh,if_pos hh,if_pos hh]

end LugalOS.Mqtt
