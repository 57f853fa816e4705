import LugalOS.Lib.CString
import LugalOS.Lib.LittleEndian

namespace LugalOS.Der

open CString Words

/-- The tag, the header's length and the content's length. -/
def readHeader (s : Bytes) : Option (UInt8×Nat×Nat) :=
  if s.length<2 then none
  else
    let tag := s.getD 0 0
    if tag&&&0x1f=0x1f then none
    else
      let l0 := s.getD 1 0
      let b := s.getD 2 0
      let lens :=
        if l0<0x80 then some (2,l0.toNat)
        else if l0=0x81 ∧ 3 ≤ s.length ∧ 0x80≤b then some (3,b.toNat)
        else if l0=0x82 ∧ 4 ≤ s.length ∧ b≠0 then some (4,b.toNat<<<8|||(s.getD 3 0).toNat)
        else none
      lens.bind fun (hdr,len) => if len ≤ s.length-hdr then some (tag,hdr,len) else none

/-- The tag, the content, and what is behind it. -/
def derNext (s : Bytes) : Option (UInt8×Bytes×Bytes) := do
  let (tag,hdr,len) ← readHeader s
  return (tag,(s.drop hdr).take len,s.drop (hdr+len))

def derExpect (s : Bytes) (tag : UInt8) : Option (Bytes×Bytes) :=
  match derNext s with
  | some (t,val,rest) => if t=tag then some (val,rest) else none
  | none => none

/-- A row of elements: with content of its own, or with elements inside. -/
inductive Forest
  | nil
  | prim (tag : UInt8) (val : Bytes) (rest : Forest)
  | node (tag : UInt8) (inner rest : Forest)

/-- The length octets of DER, as few as there can be. -/
def lenBytes (n : Nat) : Bytes :=
  if n<0x80 then [n.toUInt8]
  else if n<0x100 then [0x81,n.toUInt8]
  else if n<0x10000 then [0x82,(n>>>8).toUInt8,n.toUInt8]
  else if n<0x1000000 then [0x83,(n>>>16).toUInt8,(n>>>8).toUInt8,n.toUInt8]
  else [0x84,(n>>>24).toUInt8,(n>>>16).toUInt8,(n>>>8).toUInt8,n.toUInt8]

def element (tag : UInt8) (val : Bytes) : Bytes := tag::(lenBytes val.length++val)

namespace Forest

def append : Forest → Forest → Forest
  | nil,g => g
  | prim tag val rest,g => prim tag val (rest.append g)
  | node tag inner rest,g => node tag inner (rest.append g)

/-- DER. -/
def der : Forest → Bytes
  | nil => []
  | prim tag val rest => element tag val++rest.der
  | node tag inner rest => element tag inner.der++rest.der

def lowTag (tag : UInt8) : Prop := tag&&&0x1f≠0x1f

/-- Tag numbers are low, and lengths at most 65535. -/
def Readable : Forest → Prop
  | nil => True
  | prim tag val rest => lowTag tag ∧ val.length≤65535 ∧ rest.Readable
  | node tag inner rest => lowTag tag ∧ inner.der.length≤65535 ∧ inner.Readable ∧ rest.Readable

/-- Reading element after element with next, which is told the tag that comes; the content of an
element with others inside is read to its end. -/
def read (next : Bytes → UInt8 → Option (UInt8×Bytes×Bytes)) : Forest → Bytes → Option (Forest×Bytes)
  | nil,s => some (nil,s)
  | prim tag _ rest,s => do
    let (t,val,s) ← next s tag
    let (rest,s) ← rest.read next s
    return (prim t val rest,s)
  | node tag inner rest,s => do
    let (t,val,s) ← next s tag
    let (inner,left) ← inner.read next val
    if left≠[] then none
    let (rest,s) ← rest.read next s
    return (node t inner rest,s)

theorem der_append (f g : Forest) : (f.append g).der=f.der++g.der := by
  induction f with
  | nil => rfl
  | prim tag val rest ih | node tag inner rest _ ih => rw [append,der,der,ih,List.append_assoc]

theorem readable_append {f g : Forest} (hf : f.Readable) (hg : g.Readable) :
    (f.append g).Readable := by
  induction f with
  | nil => exact hg
  | prim tag val rest ih => exact ⟨hf.1,hf.2.1,ih hf.2.2⟩
  | node tag inner rest _ ih => exact ⟨hf.1,hf.2.1,hf.2.2.1,ih hf.2.2.2⟩

end Forest

open Forest

def nextCall (s : Bytes) (_ : UInt8) : Option (UInt8×Bytes×Bytes) := derNext s
def expectCall (s : Bytes) (tag : UInt8) : Option (UInt8×Bytes×Bytes) :=
  (derExpect s tag).map fun (val,rest) => (tag,val,rest)

theorem lenBytes_length_pos (n : Nat) : 1≤(lenBytes n).length := by
  unfold lenBytes
  split_ifs <;> simp

theorem readHeader_element {tag : UInt8} {val : Bytes} (rest : Bytes) (ht : lowTag tag)
    (hl : val.length≤65535) :
    readHeader (element tag val++rest)=some (tag,1+(lenBytes val.length).length,val.length) := by
  have hto : ∀n<256,n.toUInt8.toNat=n := fun n hn => by
    rw [Nat.toUInt8_eq,UInt8.toNat_ofNat']
    exact Nat.mod_eq_of_lt hn
  generalize hn : val.length=n at *
  rw [readHeader,element,hn]
  unfold lenBytes
  by_cases h1 : n<0x80
  · rw [if_pos h1]
    have hb : n.toUInt8<0x80 := by rw [UInt8.lt_iff_toNat_lt,hto n (by omega)]; exact h1
    simp only [List.cons_append,List.nil_append,List.getD_cons_zero,List.getD_cons_succ,
      List.length_cons,List.length_append,hn,List.length_nil]
    rw [if_neg (by omega),if_neg ht,if_pos hb,Option.bind_some,hto n (by omega)]
    exact if_pos (by omega)
  rw [if_neg h1]
  by_cases h2 : n<0x100
  · rw [if_pos h2]
    have hb : 0x80≤n.toUInt8 := by
      rw [UInt8.le_iff_toNat_le,hto n h2]; exact Nat.not_lt.1 h1
    simp only [List.cons_append,List.nil_append,List.getD_cons_zero,List.getD_cons_succ,
      List.length_cons,List.length_append,hn,List.length_nil]
    rw [if_neg (by omega),if_neg ht,if_neg (by decide),if_pos ⟨trivial,by omega,hb⟩,Option.bind_some,
      hto n h2]
    exact if_pos (by omega)
  rw [if_neg h2,if_pos (show n<0x10000 by omega)]
  have hhi : (n>>>8).toUInt8.toNat=n/256 := by
    rw [Nat.shiftRight_eq_div_pow]
    exact hto _ (by omega)
  have hb : (n>>>8).toUInt8≠0 := fun he => by
    rw [he,UInt8.toNat_zero] at hhi
    omega
  have hlo : n.toUInt8.toNat=n%256 := by rw [Nat.toUInt8_eq,UInt8.toNat_ofNat']
  simp only [List.cons_append,List.nil_append,List.getD_cons_zero,List.getD_cons_succ,
    List.length_cons,List.length_append,hn,List.length_nil]
  rw [if_neg (by omega),if_neg ht,if_neg (by decide),if_neg (fun hc => absurd hc.1 (by decide)),
    if_pos ⟨trivial,by omega,hb⟩,Option.bind_some,shiftLeft_or_byte,hhi,hlo,
    show n/256*256+n%256=n by omega]
  exact if_pos (by omega)

theorem derNext_element {tag : UInt8} {val : Bytes} (rest : Bytes) (ht : lowTag tag)
    (hl : val.length≤65535) : derNext (element tag val++rest)=some (tag,val,rest) := by
  rw [derNext,readHeader_element rest ht hl]
  have hd : element tag val++rest=(tag::lenBytes val.length)++(val++rest) := by simp [element]
  have hh : (tag::lenBytes val.length).length=1+(lenBytes val.length).length := by
    rw [List.length_cons,Nat.add_comm]
  simp only [Option.bind_eq_bind,Option.bind_some,Option.pure_def]
  rw [hd,← hh,List.drop_left,List.take_left,← List.drop_drop,List.drop_left,List.drop_left]

theorem derExpect_element {tag : UInt8} {val : Bytes} (rest : Bytes) (ht : lowTag tag)
    (hl : val.length≤65535) : derExpect (element tag val++rest) tag=some (val,rest) := by
  rw [derExpect,derNext_element rest ht hl]
  exact if_pos rfl

theorem read_der {next : Bytes → UInt8 → Option (UInt8×Bytes×Bytes)}
    (hn : ∀tag val rest,lowTag tag → val.length≤65535 →
      next (element tag val++rest) tag=some (tag,val,rest)) {f : Forest} (hf : f.Readable)
    (rest : Bytes) : f.read next (f.der++rest)=some (f,rest) := by
  induction f generalizing rest with
  | nil => rfl
  | prim tag val g ih =>
    rw [Forest.read,Forest.der,List.append_assoc,hn _ _ _ hf.1 hf.2.1]
    simp only [Option.bind_eq_bind,Option.bind_some,ih hf.2.2,Option.pure_def]
  | node tag inner g ih1 ih2 =>
    have hin := ih1 hf.2.2.1 []
    rw [List.append_nil] at hin
    rw [Forest.read,Forest.der,List.append_assoc,hn _ _ _ hf.1 hf.2.1]
    simp only [Option.bind_eq_bind,Option.bind_some,hin,ih2 hf.2.2.2,Option.pure_def]
    rfl

open Memory

def derInteger : UInt8 := 0x02
def derMaxDepth : Nat := 10

def add32 (a b : Nat) : Nat := (a+b)%2^32

/-- der_writer_t; opens are the offsets of the open elements' length bytes, the innermost first. -/
structure Writer where
  buf : Bytes
  cap : Nat
  len : Nat
  opens : List Nat
  err : Bool

def derWriterInit (buf : Bytes) (cap : Nat) : Writer := ⟨buf,cap,0,[],false⟩

def Writer.fail (w : Writer) : Writer := {w with err := true}

def putByte (w : Writer) (b : UInt8) : Writer :=
  if w.err then w
  else if w.cap≤w.len then w.fail
  else {w with buf := store w.buf w.len [b],len := w.len+1}

def putHeader (w : Writer) (tag : UInt8) (len : Nat) : Writer :=
  let w := putByte w tag
  if len<0x80 then putByte w len.toUInt8
  else if len<0x100 then putByte (putByte w 0x81) len.toUInt8
  else if len<0x10000 then putByte (putByte (putByte w 0x82) (len>>>8).toUInt8) len.toUInt8
  else w.fail

def derBegin (w : Writer) (tag : UInt8) : Writer :=
  if w.err then w
  else if derMaxDepth≤w.opens.length then w.fail
  else
    let w := putByte w tag
    putByte {w with opens := w.len::w.opens} 0

/-- How far the content moves when its length is known. -/
def lenExtra (len : Nat) : Nat := if len<0x100 then 1 else if len<0x10000 then 2 else 0

def derEnd (w : Writer) : Writer :=
  if w.err then w
  else
    match w.opens with
    | [] => w.fail
    | at'::opens =>
      let w := {w with opens := opens}
      let start := at'+1
      let len := w.len-start
      if len<0x80 then {w with buf := store w.buf at' [len.toUInt8]}
      else
        let extra := lenExtra len
        if extra=0 ∨ w.cap<add32 w.len extra then w.fail
        else
          let buf := store w.buf (start+extra) ((w.buf.drop start).take len)
          let buf := store buf at' [0x80|||extra.toUInt8]
          let buf := if extra=2 then store (store buf start [(len>>>8).toUInt8]) (start+1) [len.toUInt8]
            else store buf start [len.toUInt8]
          {w with buf := buf,len := add32 w.len extra}

/-- The end of der_put, der_put_uint and der_put_raw: the content, if the sum says it fits. -/
def putContent (w : Writer) (val : Bytes) : Writer :=
  if w.err then w
  else if w.cap<add32 w.len val.length then w.fail
  else {w with buf := store w.buf w.len val,len := add32 w.len val.length}

def derPut (w : Writer) (tag : UInt8) (val : Bytes) : Writer :=
  putContent (putHeader w tag val.length) val

/-- The loop of der_put_uint over leading zeros. -/
def stripZeros : Bytes → Bytes
  | a::b::l => if a=0 then stripZeros (b::l) else a::b::l
  | l => l

/-- Whether a zero has to go in front. -/
def needsPad : Bytes → Bool
  | [] => true
  | a::_ => a&&&0x80≠0

def derPutUint (w : Writer) (be : Bytes) : Writer :=
  let be := stripZeros be
  let w := putHeader w derInteger (add32 be.length (if needsPad be then 1 else 0))
  putContent (if needsPad be then putByte w 0 else w) be

def bigEndian (v : UInt32) : Bytes :=
  [(v>>>24).toUInt8,(v>>>16).toUInt8,(v>>>8).toUInt8,v.toUInt8]

def derPutSmall (w : Writer) (v : UInt32) : Writer := derPutUint w (bigEndian v)

def derPutRaw (w : Writer) (der : Bytes) : Writer := putContent w der

def Writer.out (w : Writer) : Bytes := w.buf.take w.len

/-- The writer is inside its buffer. -/
structure Writer.Inside (w : Writer) : Prop where
  size : w.buf.length=w.cap
  cap : w.cap<2^32
  len : w.len≤w.cap

/-- What writing bs comes to: it is appended, or there is no room for it. -/
inductive Wrote (w : Writer) (bs : Bytes) (w' : Writer) : Prop
  | ok : w'.err=false → w'.out=w.out++bs → w'.len=w.len+bs.length → w'.opens=w.opens →
      w'.cap=w.cap → w'.Inside → Wrote w bs w'
  | full : w'.err=true → w'.cap=w.cap → w.cap<w.len+bs.length → w'.Inside → Wrote w bs w'

section Wrote

variable {w w' w2 : Writer} {bs cs : Bytes}

theorem Writer.Inside.fail (h : w.Inside) : w.fail.Inside := ⟨h.size,h.cap,h.len⟩

theorem Wrote.trans (h : Wrote w bs w')
    (h1 : w'.err=false → w'.Inside → w'.len=w.len+bs.length → Wrote w' cs w2)
    (h2 : w'.err=true → w2=w') : Wrote w (bs++cs) w2 := by
  cases h with
  | full he hc hf hi =>
    rw [h2 he]
    exact .full he hc (by rw [List.length_append]; omega) hi
  | ok he ho hl hop hc hi =>
    cases h1 he hi hl with
    | ok he' ho' hl' hop' hc' hi' =>
      exact .ok he' (by rw [ho',ho,List.append_assoc])
        (by rw [hl',hl,List.length_append,Nat.add_assoc]) (hop'.trans hop) (hc'.trans hc) hi'
    | full he' hc' hf' hi' =>
      exact .full he' (hc'.trans hc) (by rw [List.length_append]; omega) hi'

theorem wrote_store (h : w.Inside) (he : w.err=false) (hr : w.len+bs.length≤w.cap) :
    Wrote w bs {w with buf := store w.buf w.len bs,len := w.len+bs.length} := by
  have hb : w.len+bs.length≤w.buf.length := by rw [h.size]; exact hr
  exact .ok he (store_take hb) rfl rfl rfl ⟨(store_length hb).trans h.size,h.cap,hr⟩

theorem putByte_err {b : UInt8} (he : w.err=true) : putByte w b=w := by rw [putByte,if_pos he]

theorem putByte_wrote (h : w.Inside) (he : w.err=false) (b : UInt8) : Wrote w [b] (putByte w b) := by
  rw [putByte,if_neg (by rw [he]; exact Bool.false_ne_true)]
  split_ifs with hc
  · exact .full rfl rfl (by rw [List.length_singleton]; omega) h.fail
  · exact wrote_store h he (by rw [List.length_singleton]; omega)

theorem Wrote.inside (h : Wrote w bs w') : w'.Inside := by
  cases h with
  | ok _ _ _ _ _ hi | full _ _ _ hi => exact hi

theorem Wrote.cap (h : Wrote w bs w') : w'.cap=w.cap := by
  cases h with
  | ok _ _ _ _ hc _ | full _ hc _ _ => exact hc

theorem Wrote.byte (h : Wrote w bs w') (b : UInt8) : Wrote w (bs++[b]) (putByte w' b) :=
  h.trans (fun he hi _ => putByte_wrote hi he b) putByte_err

theorem putContent_wrote (h : w.Inside) (he : w.err=false) (hw : w.len+bs.length<2^32) :
    Wrote w bs (putContent w bs) := by
  rw [putContent,if_neg (by rw [he]; exact Bool.false_ne_true),add32,Nat.mod_eq_of_lt hw]
  split_ifs with hc
  · exact .full rfl rfl hc h.fail
  · exact wrote_store h he (Nat.not_lt.1 hc)

end Wrote

end LugalOS.Der
