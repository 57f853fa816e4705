import LugalOS.Llp.Serial

/-! The receiver of the serial binding: what it accepts, and how it finds the next frame from any
state. -/

namespace LugalOS.Llp

open Buffer
open LittleEndian (leAt leBytes leAt_lt patch)
open Slip (endByte escByte escEnd escEsc escape stuff)

/-- What the receiver makes of the bytes in front of an end byte. -/
def serialAccepts (b : Bytes) : Option Frame :=
  if b.length < hdrLen+crcLen then none
  else if crc32Compute (b.take (b.length-crcLen))≠get32 b (b.length-crcLen) then none
  else (frameParse (b.take (b.length-crcLen))).toOption

/-- The bytes of a frame with its header and its CRC. -/
def Frame.sealed (f : Frame) : Bytes :=
  serialBody (hdrPut f.type f.seq (UInt16.ofNat f.payload.length)) f.payload

theorem crc32Update_append (crc : UInt32) (a b : Bytes) :
    crc32Update crc (a++b)=crc32Update (crc32Update crc a) b := by
  simp [crc32Update]

theorem serialCrc_eq (hdr payload : Bytes) :
    serialCrc hdr payload=le32 (crc32Compute (hdr++payload)) := by
  rw [serialCrc,crc32Compute,crc32Update_append]

theorem hdrPut_length (type seq : UInt8) (len : UInt16) : (hdrPut type seq len).length=4 := by
  simp [hdrPut,le16]

theorem memRead_getD (p : Bytes) (o n : ℕ) (h : o+n≤p.length) :
    memRead (fun k => p.getD k 0) o n=(p.drop o).take n := by
  refine List.ext_getElem (by simp; omega) fun i h1 h2 => ?_
  rw [memRead_length] at h1
  rw [memRead_getElem,List.getElem_take,List.getElem_drop,List.getD_eq_getElem?_getD,
    List.getElem?_eq_getElem (by omega)]
  rfl

theorem le16_get16 (p : Bytes) (o : ℕ) (h : o+2≤p.length) : le16 (get16 p o)=(p.drop o).take 2 := by
  have hlt := leAt_lt (fun k => p.getD k 0) o 2
  have hnat : (get16 p o).toNat=leAt (fun k => p.getD k 0) o 2 := by
    rw [get16,UInt16.toNat_ofNat',Nat.mod_eq_of_lt (by simpa using hlt)]
  rw [le16,hnat,leBytes_leAt,memRead_getD p o 2 h]

theorem le32_get32 (p : Bytes) (o : ℕ) (h : o+4≤p.length) : le32 (get32 p o)=(p.drop o).take 4 := by
  have hlt := leAt_lt (fun k => p.getD k 0) o 4
  have hnat : (get32 p o).toNat=leAt (fun k => p.getD k 0) o 4 := by
    rw [get32,UInt32.toNat_ofNat',Nat.mod_eq_of_lt (by simpa using hlt)]
  rw [le32,hnat,leBytes_leAt,memRead_getD p o 4 h]

theorem frameParse_iff {b : Bytes} {f : Frame} : frameParse b=.ok f ↔
    f.payload.length < 65536 ∧
      b=hdrPut f.type f.seq (UInt16.ofNat f.payload.length)++f.payload := by
  constructor
  · intro h
    unfold frameParse at h
    split_ifs at h with hshort hlen
    rw [hdrLen] at hshort hlen
    cases h
    rw [not_not] at hlen
    have hbound := (get16 b 2).toNat_lt
    have hpay : (b.drop hdrLen).length=(get16 b 2).toNat := by
      rw [List.length_drop,hlen,hdrLen]
    refine ⟨by rw [hpay]; exact hbound,?_⟩
    have hof : UInt16.ofNat (b.drop hdrLen).length=get16 b 2 := by
      rw [hpay]
      exact UInt16.ofNat_toNat
    dsimp only
    rw [hof,hdrPut,le16_get16 b 2 (by omega)]
    rcases b with _ | ⟨b0,_ | ⟨b1,_ | ⟨b2,_ | ⟨b3,rest⟩⟩⟩⟩
    iterate 4 simp at hshort
    rfl
  · rintro ⟨hlt,rfl⟩
    have hget : get16 (hdrPut f.type f.seq (UInt16.ofNat f.payload.length)++f.payload) 2=
        UInt16.ofNat f.payload.length := get16_append [f.type,f.seq] f.payload _
    have hnat : (UInt16.ofNat f.payload.length).toNat=f.payload.length := by
      rw [UInt16.toNat_ofNat']
      exact Nat.mod_eq_of_lt hlt
    have hlen : (hdrPut f.type f.seq (UInt16.ofNat f.payload.length)++f.payload).length=
        4+f.payload.length := by
      rw [List.length_append,hdrPut_length]
    rw [frameParse,if_neg (by rw [hlen,hdrLen]; omega),
      if_neg (by rw [hget,hnat,hlen,hdrLen]; omega)]
    rfl

theorem serialAccepts_iff {b : Bytes} {f : Frame} :
    serialAccepts b=some f ↔ f.payload.length < 65536 ∧ b=f.sealed := by
  have hparts : ∀body crc : Bytes,crc.length=4 → 4≤body.length →
      serialAccepts (body++crc)=
        if le32 (crc32Compute body)≠crc then none else (frameParse body).toOption := by
    intro body crc hcrc hbody
    have hlen : (body++crc).length-crcLen=body.length := by
      rw [List.length_append,hcrc,crcLen]
      omega
    have hget : crc32Compute body=get32 (body++crc) body.length ↔ le32 (crc32Compute body)=crc := by
      have hcut : le32 (get32 (body++crc) body.length)=crc := by
        rw [le32_get32 _ _ (by rw [List.length_append]; omega),List.drop_left,
          List.take_of_length_le (by omega)]
      constructor
      · intro heq
        rw [heq,hcut]
      · intro heq
        have hback := get32_append body [] (crc32Compute body)
        rw [List.append_nil,heq] at hback
        exact hback.symm
    rw [serialAccepts,if_neg (by rw [List.length_append,hdrLen,crcLen]; omega),hlen,List.take_left]
    exact if_congr (not_congr hget) rfl rfl
  constructor
  · intro h
    have hlong : 8≤b.length := by
      by_contra hshort
      rw [serialAccepts,if_pos (by rw [hdrLen,crcLen]; omega)] at h
      cases h
    have hsplit : b.take (b.length-4)++b.drop (b.length-4)=b := List.take_append_drop _ _
    have hacc := hparts (b.take (b.length-4)) (b.drop (b.length-4))
      (by rw [List.length_drop]; omega) (by rw [List.length_take]; omega)
    rw [hsplit,h] at hacc
    split_ifs at hacc with hcrc
    rw [not_not] at hcrc
    obtain ⟨hlt,hbody⟩ : f.payload.length < 65536 ∧ b.take (b.length-4)=
        hdrPut f.type f.seq (UInt16.ofNat f.payload.length)++f.payload := by
      refine frameParse_iff.mp ?_
      cases hp : frameParse (b.take (b.length-4)) with
      | error e =>
        rw [hp] at hacc
        cases hacc
      | ok g =>
        rw [hp] at hacc
        cases hacc
        rfl
    refine ⟨hlt,?_⟩
    rw [Frame.sealed,serialBody,serialCrc_eq,← hbody,hcrc,hsplit]
  · rintro ⟨hlt,rfl⟩
    rw [Frame.sealed,serialBody,hparts _ _ (by rw [serialCrc_eq]; simp [le32])
      (by rw [List.length_append,hdrPut_length]; omega),serialCrc_eq,if_neg (by simp),
      frameParse_iff.mpr ⟨hlt,rfl⟩]
    rfl

theorem serialFeedAll_append (rx : SerialRx) (a b : Bytes) :
    serialFeedAll rx (a++b)=
      ((serialFeedAll rx a).1++(serialFeedAll (serialFeedAll rx a).2 b).1,
        (serialFeedAll (serialFeedAll rx a).2 b).2) := by
  induction a generalizing rx with
  | nil => rfl
  | cons c a ih =>
    simp only [List.cons_append,serialFeedAll,ih]

/-- The bytes a receiver holds, unless it discards them. -/
def SlipRx.pending (r : SlipRx) : Bytes :=
  if r.len=slipDiscarding then [] else memRead r.buf 0 r.len

theorem serialFeed_end (rx : SerialRx) :
    (serialFeed rx endByte).1=serialAccepts rx.slip.pending ∧
      (serialFeed rx endByte).2.slip=⟨rx.slip.buf,rx.slip.cap,0,false⟩ := by
  have hnil : serialAccepts []=none := rfl
  unfold serialFeed slipFeed SlipRx.pending
  by_cases hd : rx.slip.len=slipDiscarding
  · simp [hd,hnil]
  by_cases hz : rx.slip.len=0
  · simp [hz,hnil,slipDiscarding]
  simp only [if_true,hd,hz,if_false,Bool.not_true,Bool.false_eq_true]
  have hbody : ∀k,(memRead rx.slip.buf 0 rx.slip.len).take (rx.slip.len-k)=
      memRead rx.slip.buf 0 (rx.slip.len-k) := by
    intro k
    have hcut := memRead_drop_take rx.slip.buf 0 rx.slip.len 0 (rx.slip.len-k) (by omega)
    simpa using hcut
  unfold serialAccepts
  rw [memRead_length]
  by_cases hrunt : rx.slip.len < hdrLen+crcLen
  · simp [hrunt]
  simp only [hrunt,if_false,hbody]
  by_cases hcrc : crc32Compute (memRead rx.slip.buf 0 (rx.slip.len-crcLen))≠
      get32 (memRead rx.slip.buf 0 rx.slip.len) (rx.slip.len-crcLen)
  · simp [hcrc]
  · simp only [hcrc,if_false]
    cases frameParse (memRead rx.slip.buf 0 (rx.slip.len-crcLen)) <;> exact ⟨rfl,rfl⟩

/-- The receiver with n bytes in its buffer, not inside an escape. -/
def SerialRx.filled (rx : SerialRx) (buf : ℕ → UInt8) (n : ℕ) : SerialRx :=
  {rx with slip := ⟨buf,rx.slip.cap,n,false⟩}

theorem feed_stuff (rx : SerialRx) (buf : ℕ → UInt8) {n : ℕ} (c : UInt8) (hcap : n < rx.slip.cap)
    (hn : n+1 < slipDiscarding) :
    serialFeedAll (rx.filled buf n) (stuff c)=
      (List.replicate (stuff c).length none,rx.filled (patch buf n [c]) (n+1)) := by
  have hput : Function.update buf n c=patch buf n [c] := congrArg Dst.buf (Dst.put_eq ⟨buf,n⟩ c)
  have h1 : n≠slipDiscarding := by omega
  have h2 : n+1≠slipDiscarding := by omega
  have h3 : ¬rx.slip.cap≤n := by omega
  rw [← hput]
  unfold stuff
  split_ifs with hend hesc
  · subst hend
    simp [serialFeedAll,serialFeed,slipFeed,SerialRx.filled,h1,h2,h3,escByte,endByte,escEnd]
  · subst hesc
    simp [serialFeedAll,serialFeed,slipFeed,SerialRx.filled,h1,h2,h3,escByte,endByte,escEnd,escEsc]
  · simp [serialFeedAll,serialFeed,slipFeed,SerialRx.filled,h1,h2,h3,hend,hesc]

theorem feed_escape (rx : SerialRx) (buf : ℕ → UInt8) {n : ℕ} (bs : Bytes)
    (hcap : n+bs.length ≤ rx.slip.cap) (hn : n+bs.length < slipDiscarding) :
    serialFeedAll (rx.filled buf n) (escape bs)=
      (List.replicate (escape bs).length none,rx.filled (patch buf n bs) (n+bs.length)) := by
  induction bs generalizing buf n with
  | nil =>
    have hnil : patch buf n []=buf :=
      funext fun k => LittleEndian.patch_outside _ _ _ _ (by simp; omega)
    simp [serialFeedAll,hnil]
  | cons c bs ih =>
    rw [List.length_cons] at hcap hn
    rw [Slip.escape_cons,serialFeedAll_append,feed_stuff rx buf c (by omega) (by omega)]
    dsimp only
    rw [ih (patch buf n [c]) (by omega) (by omega),List.length_append,List.replicate_add,
      List.length_cons,show n+1=n+[c].length from rfl,patch_patch]
    simp [Nat.add_comm,Nat.add_left_comm]

def Frame.hdr (f : Frame) : Bytes := hdrPut f.type f.seq (UInt16.ofNat f.payload.length)

theorem feed_frame (rx : SerialRx) {f : Frame} (hlen : f.payload.length < 65536)
    (hcap : hdrLen+f.payload.length+crcLen ≤ rx.slip.cap) :
    (serialFeedAll rx (serialEmit f.hdr f.payload)).1=
      serialAccepts rx.slip.pending::
        (List.replicate ((serialEmit f.hdr f.payload).length-2) none++[some f]) := by
  rw [hdrLen,crcLen] at hcap
  have hsealed : (serialBody f.hdr f.payload).length=8+f.payload.length := by
    rw [serialBody,serialCrc_eq,List.length_append,List.length_append,Frame.hdr,hdrPut_length]
    simp [le32]
    omega
  have hemit : (serialEmit f.hdr f.payload).length-2=
      (escape (serialBody f.hdr f.payload)).length := by
    rw [serialEmit_eq]
    simp
  -- after the opening end byte the receiver is empty, whatever it held
  obtain ⟨hfirst,hempty⟩ := serialFeed_end rx
  rw [hemit,serialEmit_eq,List.append_assoc,List.singleton_append,serialFeedAll,← hfirst]
  generalize serialFeed rx endByte=r at hempty ⊢
  obtain ⟨first,rx'⟩ := r
  dsimp only at hempty ⊢
  have hroom : rx'.slip.cap=rx.slip.cap := by rw [hempty]
  have hstart : rx'.filled rx.slip.buf 0=rx' := by
    rw [SerialRx.filled,hroom,← hempty]
  have hbody := feed_escape rx' rx.slip.buf (n := 0) (serialBody f.hdr f.payload) (by omega)
    (by rw [slipDiscarding]; omega)
  rw [hstart,Nat.zero_add] at hbody
  have hlast : (serialFeed (rx'.filled (patch rx.slip.buf 0 (serialBody f.hdr f.payload))
      (serialBody f.hdr f.payload).length) endByte).1=some f := by
    rw [(serialFeed_end _).1,serialAccepts_iff]
    refine ⟨hlen,?_⟩
    have hnot : (serialBody f.hdr f.payload).length≠slipDiscarding := by
      rw [slipDiscarding]
      omega
    simp only [SlipRx.pending,SerialRx.filled,if_neg hnot,memRead_patch]
    rfl
  rw [serialFeedAll_append,hbody]
  dsimp only
  rw [serialFeedAll]
  dsimp only
  rw [hlast]
  rfl

/-- Encoder, emitter and receiver of the serial binding. -/
theorem serial_round_trip (rx : SerialRx) {f : Frame} (hlen : f.payload.length < 65536)
    (hcap : hdrLen+f.payload.length+crcLen ≤ rx.slip.cap) (dst : ℕ → UInt8) (cap : ℕ) :
    ((serialEncode f.hdr f.payload dst cap).1=none ↔
      cap < (serialEmit f.hdr f.payload).length) ∧
    (∀k,cap≤k → (serialEncode f.hdr f.payload dst cap).2 k=dst k) ∧
    ∀n,(serialEncode f.hdr f.payload dst cap).1=some n →
      memRead (serialEncode f.hdr f.payload dst cap).2 0 n=serialEmit f.hdr f.payload ∧
      ∃first,(serialFeedAll rx (memRead (serialEncode f.hdr f.payload dst cap).2 0 n)).1=
          first::(List.replicate (n-2) none++[some f]) ∧
        ∀g,first=some g ↔ g.payload.length < 65536 ∧ rx.slip.pending=g.sealed := by
  rcases serialEncode_cases f.hdr f.payload dst cap with ⟨hfits,heq⟩ | ⟨hshort,p,hp,heq⟩
  · rw [heq]
    refine ⟨by simp; omega,fun k hk => LittleEndian.patch_outside _ _ _ _ (by omega),?_⟩
    intro n hn
    obtain rfl : (serialEmit f.hdr f.payload).length=n := Option.some.inj hn
    rw [memRead_patch]
    exact ⟨rfl,_,feed_frame rx hlen hcap,fun g => serialAccepts_iff⟩
  · rw [heq]
    refine ⟨by simpa using hshort,fun k hk => LittleEndian.patch_outside _ _ _ _ (by omega),?_⟩
    intro n hn
    cases hn

/-- An end byte and an escape byte in the payload. -/
def markedFrame : Frame := ⟨typeP9,1,[0xC0,0x41,0xDB]⟩

/-- The receiver has begun another frame when it comes. -/
theorem serial_round_trip_marked : ∃first,
    (serialFeedAll (serialFeedAll (serialRxInit (fun _ => 0) 16) [0xC0,3,0xDB]).2
      (memRead (serialEncode markedFrame.hdr markedFrame.payload (fun _ => 0) 32).2 0 15)).1=
      first::(List.replicate 13 none++[some markedFrame]) := by
  obtain ⟨-,first,hfeed,-⟩ := (serial_round_trip
    (serialFeedAll (serialRxInit (fun _ => 0) 16) [0xC0,3,0xDB]).2 (f := markedFrame)
    (by decide) (by decide +kernel) (fun _ => 0) 32).2.2 15 (by decide +kernel)
  exact ⟨first,hfeed⟩

def emptyFrame : Frame := ⟨typeP9,0,[]⟩

/-- A frame that lacks its last end byte is ended by the first one of the next frame. -/
theorem serial_early : ¬∀(buf : ℕ → UInt8) (room : ℕ) (hist : Bytes) (f : Frame) (dst : ℕ → UInt8)
    (cap n : ℕ),f.payload.length < 65536 → hdrLen+f.payload.length+crcLen ≤ room →
    (serialEncode f.hdr f.payload dst cap).1=some n →
    (serialFeedAll (serialFeedAll (serialRxInit buf room) hist).2
      (memRead (serialEncode f.hdr f.payload dst cap).2 0 n)).1=
      List.replicate (n-1) none++[some f] := by
  intro h
  have hrun := h (fun _ => 0) 8 (serialEmit emptyFrame.hdr emptyFrame.payload).dropLast emptyFrame
    (fun _ => 0) 32 10 (by decide) (by decide) (by decide +kernel)
  have hfirst := congrArg List.head? hrun
  revert hfirst
  decide +kernel

end LugalOS.Llp
