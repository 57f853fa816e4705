import LugalOS.Lib.Buffer
import LugalOS.Lib.Framing
import LugalOS.Llp.Link

namespace LugalOS.Llp

open Buffer
open Slip (endByte escByte escEnd escEsc escape stuff)

/-- One byte of crc32_update: eight shifts. -/
def crcByte (crc : UInt32) (b : UInt8) : UInt32 :=
  (List.range 8).foldl (fun crc _ => (crc>>>1)^^^(0xEDB88320&&&(0-(crc&&&1)))) (crc^^^b.toUInt32)

def crc32Update (crc : UInt32) (data : Bytes) : UInt32 := data.foldl crcByte crc

def crc32Compute (data : Bytes) : UInt32 := ~~~crc32Update 0xFFFFFFFF data

def hdrLen : ℕ := 4
def crcLen : ℕ := 4

/-- llp_hdr_put. -/
def hdrPut (type seq : UInt8) (len : UInt16) : Bytes := [type,seq]++le16 len

/-- llp_frame_parse: the error code, or the frame. -/
def frameParse (buf : Bytes) : Except Int Frame :=
  if buf.length < hdrLen then .error (-1)
  else if (get16 buf 2).toNat≠buf.length-hdrLen then .error (-2)
  else .ok ⟨buf.getD 0 0,buf.getD 1 0,buf.drop hdrLen⟩

/-- The CRC of a header and a payload, as the two calls of crc32_update give it. -/
def serialCrc (hdr payload : Bytes) : Bytes :=
  le32 (~~~crc32Update (crc32Update 0xFFFFFFFF hdr) payload)

/-- A destination and how much of it is written. -/
structure Dst where
  buf : ℕ → UInt8
  out : ℕ

def Dst.put (d : Dst) (c : UInt8) : Dst := ⟨Function.update d.buf d.out c,d.out+1⟩

/-- slip_append: whether all of src fitted, and the destination behind it. -/
def slipAppend (cap : ℕ) : Dst → Bytes → Bool × Dst
  | d,[] => (true,d)
  | d,c::src =>
    if c=endByte ∨ c=escByte then
      if cap≤d.out+2 then (false,d)
      else slipAppend cap ((d.put escByte).put (if c=endByte then escEnd else escEsc)) src
    else if cap≤d.out+1 then (false,d)
    else slipAppend cap (d.put c) src

/-- llp_serial_encode: the length on the wire (none is -1) and the destination. -/
def serialEncode (hdr payload : Bytes) (dst : ℕ → UInt8) (cap : ℕ) : Option ℕ × (ℕ → UInt8) :=
  if cap < 2 then (none,dst)
  else
    let (ok,d) := slipAppend cap ((⟨dst,0⟩ : Dst).put endByte) hdr
    if !ok then (none,d.buf)
    else
      let (ok,d) := slipAppend cap d payload
      if !ok then (none,d.buf)
      else
        let (ok,d) := slipAppend cap d (serialCrc hdr payload)
        if !ok then (none,d.buf)
        else if cap < d.out+1 then (none,d.buf)
        else (some (d.put endByte).out,(d.put endByte).buf)

/-- emit_escaped: the bytes handed to put. -/
def emitEscaped (p : Bytes) : Bytes :=
  p.flatMap fun c =>
    if c=endByte then [escByte,escEnd] else if c=escByte then [escByte,escEsc] else [c]

/-- llp_serial_emit. -/
def serialEmit (hdr payload : Bytes) : Bytes :=
  [endByte]++emitEscaped hdr++emitEscaped payload++emitEscaped (serialCrc hdr payload)++[endByte]

/-- What slip_feed works on. -/
structure SlipRx where
  buf : ℕ → UInt8
  cap : ℕ
  len : ℕ
  esc : Bool

def slipDiscarding : ℕ := 0xFFFFFFFF

/-- slip_feed: whether a frame is complete. -/
def slipFeed (c : UInt8) (r : SlipRx) : Bool × SlipRx :=
  if c=endByte then
    let r := {r with esc := false}
    if r.len=slipDiscarding then (false,{r with len := 0})
    else if r.len=0 then (false,r)
    else (true,r)
  else if r.len=slipDiscarding then (false,r)
  else if !r.esc && c==escByte then (false,{r with esc := true})
  else
    let c := if r.esc then (if c=escEnd then endByte else if c=escEsc then escByte else c) else c
    let r := {r with esc := false}
    if r.cap ≤ r.len then (false,{r with len := slipDiscarding})
    else (false,{r with buf := Function.update r.buf r.len c,len := r.len+1})

/-- llp_serial_rx_t. -/
structure SerialRx where
  slip : SlipRx
  frames : UInt32 := 0
  crcErr : UInt32 := 0
  runt : UInt32 := 0
  badLen : UInt32 := 0
  overflow : UInt32 := 0

/-- llp_serial_rx_init. -/
def serialRxInit (buf : ℕ → UInt8) (cap : ℕ) : SerialRx := {slip := ⟨buf,cap,0,false⟩}

/-- llp_serial_feed: the frame it returns 1 with. -/
def serialFeed (rx : SerialRx) (c : UInt8) : Option Frame × SerialRx :=
  let wasDiscarding := rx.slip.len=slipDiscarding
  let (done,r) := slipFeed c rx.slip
  let rx := {rx with slip := r}
  if !done then
    (none,if ¬wasDiscarding ∧ r.len=slipDiscarding then {rx with overflow := rx.overflow+1} else rx)
  else
    let n := r.len
    let rx := {rx with slip := {r with len := 0}}
    if n < hdrLen+crcLen then (none,{rx with runt := rx.runt+1})
    else
      let body := n-crcLen
      if crc32Compute (memRead r.buf 0 body)≠get32 (memRead r.buf 0 n) body then
        (none,{rx with crcErr := rx.crcErr+1})
      else
        match frameParse (memRead r.buf 0 body) with
        | .error _ => (none,{rx with badLen := rx.badLen+1})
        | .ok f => (some f,{rx with frames := rx.frames+1})

/-- A row of bytes, with what each call returns. -/
def serialFeedAll (rx : SerialRx) : Bytes → List (Option Frame) × SerialRx
  | [] => ([],rx)
  | c::cs =>
    let (r,rx) := serialFeed rx c
    let (rs,rx) := serialFeedAll rx cs
    (r::rs,rx)

/-- Bytes written one behind the other. -/
def Dst.write (d : Dst) (bs : Bytes) : Dst := ⟨LittleEndian.patch d.buf d.out bs,d.out+bs.length⟩

theorem Dst.put_eq (d : Dst) (c : UInt8) : d.put c=d.write [c] := by
  have hbuf : Function.update d.buf d.out c=LittleEndian.patch d.buf d.out [c] := by
    funext k
    by_cases hk : k=d.out
    · subst hk
      simp [LittleEndian.patch]
    · rw [Function.update_of_ne hk,LittleEndian.patch_outside _ _ _ _ (by simp; omega)]
  rw [put,hbuf]
  rfl

theorem Dst.write_write (d : Dst) (a b : Bytes) : (d.write a).write b=d.write (a++b) := by
  simp only [write,patch_patch,List.length_append,Nat.add_assoc]

theorem Dst.write_nil (d : Dst) : d.write []=d := by
  have hbuf : LittleEndian.patch d.buf d.out []=d.buf :=
    funext fun k => LittleEndian.patch_outside _ _ _ _ (by simp; omega)
  rw [write,hbuf]
  rfl

theorem slipAppend_cons (cap : ℕ) (d : Dst) (c : UInt8) (src : Bytes) :
    slipAppend cap d (c::src)=
      if cap≤d.out+(stuff c).length then (false,d) else slipAppend cap (d.write (stuff c)) src := by
  have htwo : ∀x y,(d.put x).put y=d.write [x,y] := by
    intro x y
    rw [Dst.put_eq,Dst.put_eq,Dst.write_write]
    rfl
  rw [slipAppend]
  by_cases hend : c=endByte
  · rw [if_pos (.inl hend),if_pos hend,htwo,stuff,if_pos hend]
    rfl
  · by_cases hesc : c=escByte
    · rw [if_pos (.inr hesc),if_neg hend,htwo,stuff,if_neg hend,if_pos hesc]
      rfl
    · rw [if_neg (by simp [hend,hesc]),Dst.put_eq,stuff,if_neg hend,if_neg hesc]
      rfl

theorem slipAppend_fits {cap : ℕ} {d : Dst} {src : Bytes}
    (h : d.out+(escape src).length < cap) : slipAppend cap d src=(true,d.write (escape src)) := by
  induction src generalizing d with
  | nil => rw [slipAppend,Slip.escape_nil,Dst.write_nil]
  | cons c src ih =>
    rw [Slip.escape_cons,List.length_append] at h
    rw [slipAppend_cons,if_neg (by omega),ih (by simp only [Dst.write]; omega),Dst.write_write,
      Slip.escape_cons]

theorem slipAppend_short {cap : ℕ} {d : Dst} {src : Bytes} (hd : d.out < cap)
    (h : cap≤d.out+(escape src).length) :
    ∃p,d.out+p.length < cap ∧ slipAppend cap d src=(false,d.write p) := by
  induction src generalizing d with
  | nil =>
    simp only [Slip.escape_nil,List.length_nil] at h
    omega
  | cons c src ih =>
    rw [Slip.escape_cons,List.length_append] at h
    rw [slipAppend_cons]
    by_cases hc : cap≤d.out+(stuff c).length
    · exact ⟨[],by simpa using hd,by rw [if_pos hc,Dst.write_nil]⟩
    · obtain ⟨p,hp,heq⟩ := ih (d := d.write (stuff c)) (by simp only [Dst.write]; omega)
        (by simp only [Dst.write]; omega)
      refine ⟨stuff c++p,?_,?_⟩
      · simp only [Dst.write] at hp
        rw [List.length_append]
        omega
      · rw [if_neg hc,heq,Dst.write_write]

theorem emitEscaped_eq (p : Bytes) : emitEscaped p=escape p := rfl

/-- The bytes between the two end bytes. -/
def serialBody (hdr payload : Bytes) : Bytes := hdr++payload++serialCrc hdr payload

theorem serialEmit_eq (hdr payload : Bytes) :
    serialEmit hdr payload=[endByte]++escape (serialBody hdr payload)++[endByte] := by
  simp [serialEmit,serialBody,emitEscaped_eq]

theorem slipAppend_cases {cap : ℕ} {d : Dst} (hd : d.out < cap) (src : Bytes) :
    d.out+(escape src).length < cap ∧ slipAppend cap d src=(true,d.write (escape src)) ∨
    cap≤d.out+(escape src).length ∧
      ∃p,d.out+p.length < cap ∧ slipAppend cap d src=(false,d.write p) := by
  rcases Nat.lt_or_ge (d.out+(escape src).length) cap with h | h
  · exact .inl ⟨h,slipAppend_fits h⟩
  · exact .inr ⟨h,slipAppend_short hd h⟩

theorem slipAppend_append (cap : ℕ) (d : Dst) (a b : Bytes) :
    slipAppend cap d (a++b)=
      if (slipAppend cap d a).1 then slipAppend cap (slipAppend cap d a).2 b
      else slipAppend cap d a := by
  induction a generalizing d with
  | nil => simp [slipAppend]
  | cons c a ih =>
    rw [List.cons_append,slipAppend_cons,slipAppend_cons]
    by_cases hc : cap≤d.out+(stuff c).length
    · simp [hc]
    · rw [if_neg hc,if_neg hc,ih]

theorem serialEncode_eq (hdr payload : Bytes) (dst : ℕ → UInt8) (cap : ℕ) :
    serialEncode hdr payload dst cap=
      if cap < 2 then (none,dst)
      else
        let r := slipAppend cap ((⟨dst,0⟩ : Dst).put endByte) (serialBody hdr payload)
        if !r.1 then (none,r.2.buf)
        else if cap < r.2.out+1 then (none,r.2.buf)
        else (some (r.2.put endByte).out,(r.2.put endByte).buf) := by
  unfold serialEncode serialBody
  by_cases hcap : cap < 2
  · rw [if_pos hcap,if_pos hcap]
  rw [if_neg hcap,if_neg hcap,slipAppend_append,slipAppend_append]
  generalize (⟨dst,0⟩ : Dst).put endByte=d
  rcases slipAppend cap d hdr with ⟨ok1,d1⟩
  cases ok1
  · rfl
  dsimp only [Bool.not_true,if_true]
  rcases slipAppend cap d1 payload with ⟨ok2,d2⟩
  cases ok2
  · rfl
  · rfl

theorem serialEncode_cases (hdr payload : Bytes) (dst : ℕ → UInt8) (cap : ℕ) :
    (serialEmit hdr payload).length≤cap ∧ serialEncode hdr payload dst cap=
      (some (serialEmit hdr payload).length,LittleEndian.patch dst 0 (serialEmit hdr payload)) ∨
    cap < (serialEmit hdr payload).length ∧
      ∃p : Bytes,p.length≤cap ∧ serialEncode hdr payload dst cap=
        (none,LittleEndian.patch dst 0 p) := by
  have hlen : (serialEmit hdr payload).length=(escape (serialBody hdr payload)).length+2 := by
    rw [serialEmit_eq]
    simp
  rw [serialEncode_eq]
  by_cases hcap : cap < 2
  · refine .inr ⟨by omega,[],by simp,?_⟩
    rw [if_pos hcap]
    exact congrArg (Prod.mk none) (congrArg Dst.buf (Dst.write_nil ⟨dst,0⟩).symm)
  rw [if_neg hcap,Dst.put_eq]
  have hfirst : ((⟨dst,0⟩ : Dst).write [endByte]).out=1 := rfl
  have hd : ((⟨dst,0⟩ : Dst).write [endByte]).out < cap := by omega
  rcases slipAppend_cases hd (serialBody hdr payload) with ⟨hfits,heq⟩ | ⟨hshort,p,hp,heq⟩
  · refine .inl ⟨by omega,?_⟩
    have hroom : ¬cap < ((⟨dst,0⟩ : Dst).write
        ([endByte]++escape (serialBody hdr payload))).out+1 := by
      simp only [Dst.write,List.length_append,List.length_singleton]
      omega
    simp only [heq,Dst.write_write,Dst.put_eq,Bool.not_true,Bool.false_eq_true,if_false,
      if_neg hroom]
    rw [← serialEmit_eq]
    simp [Dst.write]
  · refine .inr ⟨by omega,[endByte]++p,?_,?_⟩
    · rw [List.length_append,List.length_singleton]
      omega
    · simp only [heq,Dst.write_write,Bool.not_false,if_true]
      rfl

end LugalOS.Llp
