import LugalOS.Der.Reader

namespace LugalOS.Der

open CString

def b64 : Bytes := ofString "ABCDEFGHIJKLMNOPQRSTUVWXYZabcdefghijklmnopqrstuvwxyz0123456789+/"

def b64Pad : UInt8 := 0x3d
def newline : UInt8 := 0x0a

/-- The character of the low six bits of v. -/
def b64Char (v : Nat) : UInt8 := b64.getD (v&&&63) 0

/-- The word v of up to three bytes. -/
def b64Word (a b c : UInt8) : Nat := a.toNat<<<16|||b.toNat<<<8|||c.toNat

/-- The loop of base64_encode, three bytes a turn. -/
def base64Loop : Bytes → Bytes
  | [] => []
  | [a] =>
    let v := b64Word a 0 0
    [b64Char (v>>>18),b64Char (v>>>12),b64Pad,b64Pad]
  | [a,b] =>
    let v := b64Word a b 0
    [b64Char (v>>>18),b64Char (v>>>12),b64Char (v>>>6),b64Pad]
  | a::b::c::l =>
    let v := b64Word a b c
    b64Char (v>>>18)::b64Char (v>>>12)::b64Char (v>>>6)::b64Char v::base64Loop l

/-- need, for n bytes. -/
def base64Need (n : Nat) : Nat := add32 n 2/3*4%2^32

/-- base64_encode: what it writes, as many characters as it returns. -/
def base64Encode (x : Bytes) (cap : Nat) : Bytes :=
  if cap<base64Need x.length then [] else base64Loop x

def b64Value (c : UInt8) : Option Nat :=
  if 65≤c ∧ c≤90 then some (c.toNat-65)
  else if 97≤c ∧ c≤122 then some (c.toNat-97+26)
  else if 48≤c ∧ c≤57 then some (c.toNat-48+52)
  else if c=43 then some 62
  else if c=47 then some 63
  else none

/-- What base64_decode holds between two characters; out is what it wrote. -/
structure Decoder where
  acc : Nat
  bits : Nat
  ended : Bool
  out : Bytes
  deriving DecidableEq,Repr

def push6 (acc v : Nat) : Nat := (acc<<<6|||v)%2^32

/-- One turn of base64_decode; the bytes written so far where it returns -1. -/
def decodeChar (cap : Nat) (s : Decoder) (c : UInt8) : Except Bytes Decoder :=
  if c=0x20 ∨ c=0x09 ∨ c=0x0d ∨ c=newline then .ok s
  else if c=b64Pad then .ok {s with ended := true}
  else
    match b64Value c with
    | none => .error s.out
    | some v =>
      if s.ended then .error s.out
      else
        let acc := push6 s.acc v
        let bits := s.bits+6
        if bits<8 then .ok {s with acc := acc,bits := bits}
        else if cap≤ s.out.length then .error s.out
        else .ok {s with acc := acc,bits := bits-8,out := s.out++[(acc>>>(bits-8)).toUInt8]}

/-- A uint32_t as an int. -/
def toInt (n : Nat) : Int := (n : Int).bmod (2^32)

/-- The loop of base64_decode; its result and what it wrote. -/
def decodeLoop (cap : Nat) : Bytes → Decoder → Int × Bytes
  | [],s => (toInt s.out.length,s.out)
  | c::l,s =>
    match decodeChar cap s c with
    | .error out => (-1,out)
    | .ok s => decodeLoop cap l s

def base64Decode (text : Bytes) (cap : Nat) : Int × Bytes :=
  decodeLoop cap text ⟨0,0,false,[]⟩

section Characters

variable {v : Nat}

theorem b64_value : ∀i < 64,b64Value (b64.getD i 0)=some i := by decide +kernel

theorem b64_plain : ∀i < 64,b64.getD i 0≠0x20 ∧ b64.getD i 0≠0x09 ∧ b64.getD i 0≠0x0d ∧
    b64.getD i 0≠newline ∧ b64.getD i 0≠b64Pad ∧ b64.getD i 0≠0x2d := by
  decide +kernel

theorem and_63 (v : Nat) : v&&&63=v%64 := Nat.and_two_pow_sub_one_eq_mod v 6

theorem b64Char_eq (v : Nat) : b64Char v=b64.getD (v%64) 0 := by rw [b64Char,and_63]

theorem b64Word_eq (a b c : UInt8) : b64Word a b c=a.toNat*65536+b.toNat*256+c.toNat := by
  have hc : c.toNat<2^8 := c.toNat_lt
  have hb : b.toNat<2^8 := b.toNat_lt
  have hbc : b.toNat<<<8|||c.toNat=b.toNat*256+c.toNat := by
    rw [← Nat.shiftLeft_add_eq_or_of_lt hc,Nat.shiftLeft_eq]
  rw [b64Word,Nat.or_assoc,hbc,← Nat.shiftLeft_add_eq_or_of_lt (by omega),Nat.shiftLeft_eq]
  omega

variable {cap : Nat} {s : Decoder}

theorem push6_eq {acc v : Nat} (h : v<64) : push6 acc v=(acc*64+v)%2^32 := by
  rw [push6,← Nat.shiftLeft_add_eq_or_of_lt h,Nat.shiftLeft_eq]

theorem decodeChar_b64 (hs : s.ended=false) : decodeChar cap s (b64Char v)=
    if s.bits+6<8 then .ok {s with acc := push6 s.acc (v%64),bits := s.bits+6}
    else if cap≤ s.out.length then .error s.out
    else .ok {s with acc := push6 s.acc (v%64),bits := s.bits+6-8
                     out := s.out++[(push6 s.acc (v%64)>>>(s.bits+6-8)).toUInt8]} := by
  have h : v%64<64 := Nat.mod_lt _ (by decide)
  obtain ⟨h1,h2,h3,h4,h5,_⟩ := b64_plain (v%64) h
  rw [decodeChar,b64Char_eq,if_neg (by simp only [h1,h2,h3,h4,or_self,not_false_eq_true]),
    if_neg h5,b64_value _ h]
  dsimp only
  rw [hs,if_neg Bool.false_ne_true]

theorem decodeChar_pad : decodeChar cap s b64Pad=.ok {s with ended := true} := by
  rw [decodeChar,if_neg (by decide),if_pos rfl]

theorem decodeChar_newline : decodeChar cap s newline=.ok s := by
  rw [decodeChar,if_pos (by decide)]

theorem toUInt8_eq {n : Nat} {a : UInt8} (h : n%256=a.toNat) : n.toUInt8=a := by
  rw [← UInt8.toNat_inj,← h]
  exact UInt8.toNat_ofNat'

end Characters

/-- Bytes that are to follow what is written: -1 where there is no room for all of them, with as many
as there is room for. -/
def intoRoom (cap : Nat) (out xs : Bytes) (next : Bytes → Int × Bytes) : Int × Bytes :=
  if cap < out.length+xs.length then (-1,out++xs.take (cap-out.length)) else next (out++xs)

section Groups

variable {cap : Nat} {out : Bytes}

theorem intoRoom_append (xs ys : Bytes) (next : Bytes → Int × Bytes) :
    intoRoom cap out xs (fun o => intoRoom cap o ys next)=intoRoom cap out (xs++ys) next := by
  simp only [intoRoom,List.length_append]
  by_cases h : cap < out.length+xs.length
  · rw [if_pos h,if_pos (by omega),List.take_append_of_le_length (by omega)]
  · rw [if_neg h,Nat.add_assoc,List.take_append,List.take_of_length_le (by omega : xs.length≤_),
      List.append_assoc,List.append_assoc,Nat.sub_sub]

theorem intoRoom_congr {xs : Bytes} {next next' : Bytes → Int × Bytes}
    (h : ∀o,o.length≤cap → next o=next' o) : intoRoom cap out xs next=intoRoom cap out xs next' := by
  rw [intoRoom,intoRoom]
  by_cases hc : cap < out.length+xs.length
  · rw [if_pos hc,if_pos hc]
  · rw [if_neg hc,if_neg hc,h _ (by rw [List.length_append]; omega)]

variable (cap)

theorem decode_first (acc w : Nat) (l : Bytes) : ∃acc',acc'%2^6=w%2^6 ∧
    ∀out,decodeLoop cap (b64Char w::l) ⟨acc,0,false,out⟩=decodeLoop cap l ⟨acc',6,false,out⟩ := by
  refine ⟨push6 acc (w%64),?_,?_⟩
  · rw [push6_eq (Nat.mod_lt _ (by decide))]
    omega
  · intro out
    rw [decodeLoop,decodeChar_b64 rfl,if_pos (by decide : 0+6<8)]

theorem decode_next (a : UInt8) (acc bits w : Nat) (l : Bytes) (hb : bits=2 ∨ bits=4 ∨ bits=6)
    (h : acc%2^bits=w/64%2^bits) (ha : w/2^(bits-2)%256=a.toNat) :
    ∃acc',acc'%2^(bits-2)=w%2^(bits-2) ∧ ∀out,out.length≤cap →
      decodeLoop cap (b64Char w::l) ⟨acc,bits,false,out⟩=
        intoRoom cap out [a] fun out => decodeLoop cap l ⟨acc',bits-2,false,out⟩ := by
  have hval : push6 acc (w%64)%2^(bits+6)=w%2^(bits+6) := by
    rw [push6_eq (Nat.mod_lt _ (by decide))]
    obtain rfl | rfl | rfl := hb <;> omega
  have hbits : bits+6-8=bits-2 := by omega
  have hbyte : (push6 acc (w%64)>>>(bits-2)).toUInt8=a := by
    apply toUInt8_eq
    rw [Nat.shiftRight_eq_div_pow,← ha]
    obtain rfl | rfl | rfl := hb <;> omega
  refine ⟨push6 acc (w%64),?_,?_⟩
  · obtain rfl | rfl | rfl := hb <;> omega
  · intro out hout
    rw [decodeLoop,decodeChar_b64 rfl,if_neg (by dsimp only; omega),intoRoom,List.length_singleton]
    dsimp only
    rw [hbits,hbyte]
    by_cases hc : cap≤out.length
    · rw [if_pos hc,if_pos (by omega),show cap-out.length=0 by omega,List.take_zero,List.append_nil]
    · rw [if_neg hc,if_neg (by omega)]

theorem decode_two (a : UInt8) (v acc : Nat) (l : Bytes) (ha : v/2^16%256=a.toNat) :
    ∃acc',acc'%2^4=v/2^12%2^4 ∧ ∀out,out.length≤cap →
      decodeLoop cap (b64Char (v>>>18)::b64Char (v>>>12)::l) ⟨acc,0,false,out⟩=
        intoRoom cap out [a] fun out => decodeLoop cap l ⟨acc',4,false,out⟩ := by
  rw [Nat.shiftRight_eq_div_pow,Nat.shiftRight_eq_div_pow]
  obtain ⟨acc1,h1,he1⟩ := decode_first cap acc (v/2^18) (b64Char (v/2^12)::l)
  obtain ⟨acc2,h2,he2⟩ := decode_next cap a acc1 6 (v/2^12) l (by decide) (by omega) (by omega)
  exact ⟨acc2,h2,fun out hout => (he1 out).trans (he2 out hout)⟩

theorem decode_three (a b : UInt8) (v acc : Nat) (l : Bytes) (ha : v/2^16%256=a.toNat)
    (hb : v/2^8%256=b.toNat) :
    ∃acc',acc'%2^2=v/2^6%2^2 ∧ ∀out,out.length≤cap →
      decodeLoop cap (b64Char (v>>>18)::b64Char (v>>>12)::b64Char (v>>>6)::l) ⟨acc,0,false,out⟩=
        intoRoom cap out [a,b] fun out => decodeLoop cap l ⟨acc',2,false,out⟩ := by
  obtain ⟨acc1,h1,he1⟩ := decode_two cap a v acc (b64Char (v>>>6)::l) ha
  rw [Nat.shiftRight_eq_div_pow v 6] at he1 ⊢
  obtain ⟨acc2,h2,he2⟩ := decode_next cap b acc1 4 (v/2^6) l (by decide) (by omega) (by omega)
  refine ⟨acc2,h2,?_⟩
  intro out hout
  rw [he1 out hout,intoRoom_congr he2,intoRoom_append]
  rfl

theorem decode_four (a b c : UInt8) (v acc : Nat) (l : Bytes) (ha : v/2^16%256=a.toNat)
    (hb : v/2^8%256=b.toNat) (hc : v%256=c.toNat) :
    ∃acc',∀out,out.length≤cap →
      decodeLoop cap (b64Char (v>>>18)::b64Char (v>>>12)::b64Char (v>>>6)::b64Char v::l)
        ⟨acc,0,false,out⟩=
        intoRoom cap out [a,b,c] fun out => decodeLoop cap l ⟨acc',0,false,out⟩ := by
  obtain ⟨acc1,h1,he1⟩ := decode_three cap a b v acc (b64Char v::l) ha hb
  obtain ⟨acc2,h2,he2⟩ := decode_next cap c acc1 2 v l (by decide) (by omega) (by omega)
  refine ⟨acc2,?_⟩
  intro out hout
  rw [he1 out hout,intoRoom_congr he2,intoRoom_append]
  rfl

theorem decode_pad (acc bits : Nat) (ended : Bool) (out l : Bytes) :
    decodeLoop cap (b64Pad::l) ⟨acc,bits,ended,out⟩=decodeLoop cap l ⟨acc,bits,true,out⟩ := by
  rw [decodeLoop,decodeChar_pad]

theorem decode_loop (x rest : Bytes) (acc : Nat) : ∃acc' bits',(x.length%3=0 → bits'=0) ∧
    ∀out,out.length≤cap → decodeLoop cap (base64Loop x++rest) ⟨acc,0,false,out⟩=
      intoRoom cap out x fun out =>
        decodeLoop cap rest ⟨acc',bits',decide (x.length%3≠0),out⟩ := by
  induction x using base64Loop.induct generalizing acc with
  | case1 =>
    refine ⟨acc,0,fun _ => rfl,?_⟩
    intro out hout
    simp [base64Loop,intoRoom,hout]
  | case2 a =>
    have hv := b64Word_eq a 0 0
    have ha := a.toNat_lt
    obtain ⟨acc1,_,he⟩ := decode_two cap a (b64Word a 0 0) acc (b64Pad::b64Pad::rest) (by rw [hv,UInt8.toNat_zero]; omega)
    refine ⟨acc1,4,by simp,?_⟩
    intro out hout
    rw [base64Loop]
    refine (he out hout).trans (intoRoom_congr fun o _ => ?_)
    rw [decode_pad,decode_pad]
    rfl
  | case3 a b =>
    have hv := b64Word_eq a b 0
    have ha := a.toNat_lt
    have hb := b.toNat_lt
    obtain ⟨acc1,_,he⟩ := decode_three cap a b (b64Word a b 0) acc (b64Pad::rest) (by rw [hv,UInt8.toNat_zero]; omega) (by rw [hv,UInt8.toNat_zero]; omega)
    refine ⟨acc1,2,by simp,?_⟩
    intro out hout
    rw [base64Loop]
    refine (he out hout).trans (intoRoom_congr fun o _ => ?_)
    rw [decode_pad]
    rfl
  | case4 a b c l ih =>
    have hv := b64Word_eq a b c
    have ha := a.toNat_lt
    have hb := b.toNat_lt
    have hc := c.toNat_lt
    obtain ⟨acc1,he⟩ := decode_four cap a b c (b64Word a b c) acc (base64Loop l++rest) (by omega) (by omega) (by omega)
    obtain ⟨acc2,bits2,h2,he2⟩ := ih acc1
    have hmod : (a::b::c::l).length%3=l.length%3 := by
      simp only [List.length_cons]
      omega
    refine ⟨acc2,bits2,?_,?_⟩
    · rw [hmod]
      exact h2
    · intro out hout
      rw [base64Loop,hmod]
      refine (he out hout).trans ?_
      rw [intoRoom_congr he2,intoRoom_append]
      rfl

end Groups

section Encoded

theorem base64Loop_length (x : Bytes) : (base64Loop x).length=(x.length+2)/3*4 := by
  induction x using base64Loop.induct with
  | case1 => rfl
  | case2 a | case3 a b => simp [base64Loop]
  | case4 a b c l ih =>
    simp only [base64Loop,List.length_cons,ih]
    omega

theorem base64Loop_dash (x : Bytes) : 0x2d∉base64Loop x := by
  have hchar (v : Nat) : 0x2d≠b64Char v := by
    rw [b64Char_eq]
    exact (b64_plain _ (Nat.mod_lt _ (by decide))).2.2.2.2.2.symm
  induction x using base64Loop.induct with
  | case1 => exact List.not_mem_nil
  | case2 a | case3 a b => simp [base64Loop,hchar,b64Pad]
  | case4 a b c l ih => simp [base64Loop,hchar,ih]

theorem base64Encode_eq {x : Bytes} {cap : Nat} (hx : x.length≤2^31) :
    base64Encode x cap=if cap < (x.length+2)/3*4 then [] else base64Loop x := by
  have hneed : base64Need x.length=(x.length+2)/3*4 := by
    rw [base64Need,add32]
    omega
  rw [base64Encode,hneed]

theorem toInt_small {n : Nat} (h : n<2^31) : toInt n=n := by
  have hn : (n : Int).bmod (2^32)=n := Int.bmod_eq_of_le (by omega) (by omega)
  exact hn

theorem base64_again {x : Bytes} (hx : x.length≤2^31) (cap : Nat) {textCap : Nat}
    (ht : (x.length+2)/3*4≤textCap) :
    base64Decode (base64Encode x textCap) cap=
      if x.length≤cap then (toInt x.length,x) else (-1,x.take cap) := by
  obtain ⟨acc,bits,_,he⟩ := decode_loop cap x [] 0
  have h := he [] (Nat.zero_le _)
  rw [List.append_nil] at h
  rw [base64Encode_eq hx,if_neg (Nat.not_lt.mpr ht),base64Decode,h,intoRoom]
  simp only [List.length_nil,Nat.zero_add,List.nil_append,Nat.sub_zero]
  by_cases hc : x.length≤cap
  · rw [if_pos hc,if_neg (Nat.not_lt.mpr hc),decodeLoop]
  · rw [if_neg hc,if_pos (Nat.lt_of_not_le hc)]

theorem decodeChar_within {cap : Nat} {s : Decoder} (c : UInt8) (h : s.out.length≤cap) :
    (∀out,decodeChar cap s c=.error out → out.length≤cap) ∧
      ∀s',decodeChar cap s c=.ok s' → s'.out.length≤cap := by
  rw [decodeChar]
  by_cases h1 : c=0x20 ∨ c=0x09 ∨ c=0x0d ∨ c=newline
  · simp [h1,h]
  rw [if_neg h1]
  by_cases h2 : c=b64Pad
  · simp [h2,h]
  rw [if_neg h2]
  cases b64Value c with
  | none => simp [h]
  | some v =>
    dsimp only
    split_ifs with h3 h4 h5
    · simp [h]
    · simp [h]
    · simp [h]
    · simp
      omega

theorem base64Decode_within (text : Bytes) (cap : Nat) : (base64Decode text cap).2.length≤cap := by
  have hloop (s : Decoder) (h : s.out.length≤cap) : (decodeLoop cap text s).2.length≤cap := by
    induction text generalizing s with
    | nil => exact h
    | cons c l ih =>
      obtain ⟨herr,hok⟩ := decodeChar_within c h
      rw [decodeLoop]
      cases hd : decodeChar cap s c with
      | error out => exact herr out hd
      | ok s' => exact ih s' (hok s' hd)
  exact hloop _ (Nat.zero_le _)

end Encoded

end LugalOS.Der
