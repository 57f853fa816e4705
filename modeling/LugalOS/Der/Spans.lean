import LugalOS.Der.Reader

namespace LugalOS.Der

open CString Words

/-- der_span_t: where the bytes are, and how many. -/
structure Span where
  p : Nat
  len : Nat
  deriving DecidableEq,Repr

/-- Memory to read from; none is a byte that is not there. -/
abbrev Ram := Nat → Option UInt8

/-- A byte string at an address, with nothing around it. -/
def ramOf (p : Nat) (bs : Bytes) : Ram := fun a => if p ≤ a then bs[a-p]? else none

/-- read_header. The outer none is a read outside the memory. -/
def readHeaderAt (m : Ram) (s : Span) : Option (Option (UInt8×Nat×Nat)) := do
  if s.len<2 then return none
  let tag ← m s.p
  if tag&&&0x1f=0x1f then return none
  let l0 ← m (s.p+1)
  let within (hdr len : Nat) := if len≤ s.len-hdr then some (tag,hdr,len) else none
  if l0<0x80 then return within 2 l0.toNat
  if l0=0x81 ∧ 3≤ s.len then
    let b ← m (s.p+2)
    if 0x80≤b then return within 3 b.toNat
  if l0=0x82 ∧ 4≤ s.len then
    let b ← m (s.p+2)
    if b≠0 then
      let b' ← m (s.p+3)
      return within 4 (b.toNat<<<8|||b'.toNat)
  return none

/-- What a call leaves behind: its answer, the span it was given, the tag and the span it fills in. -/
structure Reply where
  ok : Bool
  left : Span
  tag : Option UInt8
  val : Option Span
  deriving DecidableEq,Repr

def refusal (s : Span) : Reply := ⟨false,s,none,none⟩

def Span.after (s : Span) (n : Nat) : Span := ⟨s.p+n,s.len-n⟩

def derNextAt (m : Ram) (s : Span) : Option Reply := do
  match ← readHeaderAt m s with
  | none => return refusal s
  | some (tag,hdr,len) => return ⟨true,s.after (hdr+len),some tag,some ⟨s.p+hdr,len⟩⟩

/-- After a wrong tag the span is put back; what was filled in stays. -/
def derExpectAt (m : Ram) (s : Span) (tag : UInt8) : Option Reply := do
  let save := s
  let r ← derNextAt m s
  if r.ok=false ∨ r.tag≠some tag then return {r with ok := false,left := save}
  else return r

def derNextRawAt (m : Ram) (s : Span) : Option Reply := do
  match ← readHeaderAt m s with
  | none => return refusal s
  | some (tag,hdr,len) => return ⟨true,s.after (hdr+len),some tag,some ⟨s.p,hdr+len⟩⟩

/-- A reading call. -/
inductive Read
  | next
  | nextRaw
  | expect (tag : UInt8)

namespace Read

def run (m : Ram) (s : Span) : Read → Option Reply
  | next => derNextAt m s
  | nextRaw => derNextRawAt m s
  | expect tag => derExpectAt m s tag

/-- The span a call fills in: the content, or the whole element. -/
def span (s : Span) (hdr len : Nat) : Read → Span
  | nextRaw => ⟨s.p,hdr+len⟩
  | _ => ⟨s.p+hdr,len⟩

def wants (tag : UInt8) : Read → Prop
  | expect t => t=tag
  | _ => True

end Read

/-- The call took one element of the byte string at p, which starts with hdr bytes of header, the
tag and the length len in its shortest form, and len of content. -/
structure Took (c : Read) (p : Nat) (bs : Bytes) (tag : UInt8) (hdr len : Nat) (r : Reply) :
    Prop where
  header : 2≤hdr ∧ hdr≤4 ∧ bs.take hdr=tag::lenBytes len
  inside : hdr+len≤bs.length
  named : r.tag=some tag ∧ c.wants tag
  value : r.val=some (c.span ⟨p,bs.length⟩ hdr len)
  left : r.left=⟨p+(hdr+len),bs.length-(hdr+len)⟩

/-- The bytes of a span of the string at p. -/
def Span.bytes (s : Span) (p : Nat) (bs : Bytes) : Bytes := (bs.drop (s.p-p)).take s.len

/-- der_next takes the whole string, as an element with this tag and this content. -/
def Accepted (bs : Bytes) (tag : UInt8) (val : Bytes) : Prop :=
  ∃p r v,derNextAt (ramOf p bs) ⟨p,bs.length⟩=some r ∧ r.ok=true ∧ r.left.len=0 ∧
    r.tag=some tag ∧ r.val=some v ∧ v.bytes p bs=val

section
variable {p : Nat} {bs : Bytes}

theorem ramOf_add {i : Nat} (hi : i < bs.length) : ramOf p bs (p+i)=some (bs.getD i 0) := by
  rw [ramOf,if_pos (Nat.le_add_right p i),Nat.add_sub_cancel_left]
  simp [hi]

theorem readHeaderAt_eq (p : Nat) (bs : Bytes) :
    readHeaderAt (ramOf p bs) ⟨p,bs.length⟩=some (readHeader bs) := by
  have read {i : Nat} (hi : i < bs.length) := ramOf_add (p := p) hi
  unfold readHeaderAt readHeader
  by_cases h2 : bs.length<2
  · simp [h2]
  have h0 := read (show 0 < bs.length by omega)
  rw [Nat.add_zero] at h0
  simp only [h2,if_false,h0,read (show 1 < bs.length by omega),Option.bind_eq_bind,
    Option.bind_some,Option.pure_def]
  by_cases ht : bs.getD 0 0&&&0x1f=0x1f
  · simp only [ht,if_true]
  simp only [ht,if_false]
  by_cases hs : bs.getD 1 0<0x80
  · simp only [hs,if_true,Option.bind_some]
  simp only [hs,if_false]
  by_cases h3 : bs.getD 1 0=0x81 ∧ 3 ≤ bs.length
  · have hno : ¬(bs.getD 1 0=0x82 ∧ 4 ≤ bs.length) := by
      intro hc
      rw [h3.1] at hc
      exact absurd hc.1 (by decide)
    have hno' : ¬(bs.getD 1 0=0x82 ∧ 4 ≤ bs.length ∧ bs.getD 2 0≠0) := by
      intro hc
      exact hno ⟨hc.1,hc.2.1⟩
    by_cases hb : 0x80≤bs.getD 2 0
    · simp only [h3,read (show 2 < bs.length by omega),and_self,if_true,Option.bind_some,hb]
    · have hno3 : ¬(bs.getD 1 0=0x81 ∧ 3 ≤ bs.length ∧ 0x80≤bs.getD 2 0) := by
        intro hc
        exact hb hc.2.2
      rw [if_pos h3,if_neg hno3,if_neg hno',read (show 2 < bs.length by omega)]
      simp only [Option.bind_some,if_neg hb,if_neg hno,Option.bind_none]
  · have hno3 : ¬(bs.getD 1 0=0x81 ∧ 3 ≤ bs.length ∧ 0x80≤bs.getD 2 0) := by
      intro hc
      exact h3 ⟨hc.1,hc.2.1⟩
    rw [if_neg h3,if_neg hno3]
    by_cases h4 : bs.getD 1 0=0x82 ∧ 4 ≤ bs.length
    · rw [if_pos h4,read (show 2 < bs.length by omega),Option.bind_some]
      by_cases hb : bs.getD 2 0≠0
      · rw [if_pos hb,if_pos ⟨h4.1,h4.2,hb⟩,read (show 3 < bs.length by omega)]
        rfl
      · rw [if_neg hb,if_neg (fun hc => hb hc.2.2)]
        rfl
    · rw [if_neg h4,if_neg (fun hc => h4 ⟨hc.1,hc.2.1⟩)]
      rfl

theorem cons_of_length {l : Bytes} {n : Nat} (h : n < l.length) : ∃c l',l=c::l' ∧ n≤l'.length := by
  cases l with
  | nil => simp at h
  | cons c l' => exact ⟨c,l',rfl,by simpa [Nat.lt_succ_iff] using h⟩

theorem readHeader_some {tag : UInt8} {hdr len : Nat} (h : readHeader bs=some (tag,hdr,len)) :
    2≤hdr ∧ hdr≤4 ∧ hdr+len≤bs.length ∧ bs.take hdr=tag::lenBytes len := by
  unfold readHeader at h
  by_cases h2 : bs.length<2
  · simp [h2] at h
  obtain ⟨a,l,rfl,hl⟩ := cons_of_length (show 1 < bs.length by omega)
  obtain ⟨b,l,rfl,-⟩ := cons_of_length (show 0 < l.length by omega)
  simp only [h2,if_false,List.getD_cons_zero,List.getD_cons_succ] at h
  by_cases ht : a&&&0x1f=0x1f
  · simp [ht] at h
  simp only [ht,if_false] at h
  have hbyte := b.toNat_lt
  by_cases hs : b<0x80
  · simp only [hs,if_true,Option.bind_some,Option.ite_none_right_eq_some,Option.some.injEq,
      Prod.mk.injEq] at h
    obtain ⟨hle,rfl,rfl,rfl⟩ := h
    have hlt : b.toNat<0x80 := UInt8.lt_iff_toNat_lt.mp hs
    simp only [List.length_cons] at hle ⊢
    exact ⟨Nat.le_refl 2,by omega,by omega,by simp [lenBytes,hlt]⟩
  simp only [hs,if_false] at h
  by_cases h3 : b=0x81 ∧ 3≤(a::b::l).length ∧ 0x80≤l.getD 0 0
  · rw [if_pos h3] at h
    obtain ⟨hb,hl3,hc⟩ := h3
    have hl3' : 3 ≤ l.length+2 := hl3
    obtain ⟨c,l,rfl,-⟩ := cons_of_length (show 0 < l.length by omega)
    simp only [List.getD_cons_zero,Option.bind_some,Option.ite_none_right_eq_some,
      Option.some.injEq,Prod.mk.injEq] at h hc
    obtain ⟨hle,rfl,rfl,rfl⟩ := h
    have hge : 0x80≤c.toNat := UInt8.le_iff_toNat_le.mp hc
    have hlt := c.toNat_lt
    simp only [List.length_cons] at hle ⊢
    refine ⟨by omega,by omega,by omega,?_⟩
    rw [lenBytes,if_neg (by omega),if_pos (by omega),hb,Nat.toUInt8_eq,UInt8.ofNat_toNat]
    rfl
  rw [if_neg h3] at h
  by_cases h4 : b=0x82 ∧ 4≤(a::b::l).length ∧ l.getD 0 0≠0
  · rw [if_pos h4] at h
    obtain ⟨hb,hl4,hc⟩ := h4
    have hl4' : 4 ≤ l.length+2 := hl4
    obtain ⟨c,l,rfl,hl⟩ := cons_of_length (show 1 < l.length by omega)
    obtain ⟨d,l,rfl,-⟩ := cons_of_length (show 0 < l.length by omega)
    simp only [List.getD_cons_zero,List.getD_cons_succ,Option.bind_some,
      Option.ite_none_right_eq_some,Option.some.injEq,Prod.mk.injEq,shiftLeft_or_byte] at h hc
    obtain ⟨hle,rfl,rfl,rfl⟩ := h
    have hpos : c.toNat≠0 := by
      intro h0
      exact hc (UInt8.toNat_inj.mp h0)
    have hclt := c.toNat_lt
    have hdlt := d.toNat_lt
    have hhi : ((c.toNat*256+d.toNat)>>>8).toUInt8=c := by
      rw [Nat.shiftRight_eq_div_pow,show (c.toNat*256+d.toNat)/2^8=c.toNat by omega,
        Nat.toUInt8_eq,UInt8.ofNat_toNat]
    have hlo : (c.toNat*256+d.toNat).toUInt8=d := by
      apply UInt8.toNat_inj.mp
      rw [Nat.toUInt8_eq,UInt8.toNat_ofNat']
      omega
    simp only [List.length_cons] at hle ⊢
    refine ⟨by omega,by omega,by omega,?_⟩
    rw [lenBytes,if_neg (by omega),if_neg (by omega),if_pos (by omega),hb,hhi,hlo]
    rfl
  rw [if_neg h4] at h
  cases h

theorem derNextAt_eq (p : Nat) (bs : Bytes) :
    derNextAt (ramOf p bs) ⟨p,bs.length⟩=some (match readHeader bs with
      | none => refusal ⟨p,bs.length⟩
      | some (tag,hdr,len) =>
        ⟨true,⟨p+(hdr+len),bs.length-(hdr+len)⟩,some tag,some ⟨p+hdr,len⟩⟩) := by
  rw [derNextAt,readHeaderAt_eq,Option.bind_eq_bind,Option.bind_some]
  cases readHeader bs <;> rfl

theorem Accepted.eq_element {tag : UInt8} {val : Bytes} (h : Accepted bs tag val) :
    bs=element tag val := by
  obtain ⟨p,r,v,hr,hok,hleft,htag,hval,hbytes⟩ := h
  rw [derNextAt_eq] at hr
  cases hh : readHeader bs with
  | none =>
    rw [hh] at hr
    cases hr
    cases hok
  | some x =>
    obtain ⟨t,hdr,len⟩ := x
    rw [hh] at hr
    cases hr
    cases htag
    cases hval
    obtain ⟨-,-,hin,htake⟩ := readHeader_some hh
    have hlen : bs.length=hdr+len := by
      have hleft : bs.length-(hdr+len)=0 := hleft
      omega
    rw [Span.bytes,Nat.add_sub_cancel_left,List.take_of_length_le (by simp; omega)] at hbytes
    have hvlen : val.length=len := by
      rw [← hbytes,List.length_drop,hlen,Nat.add_sub_cancel_left]
    rw [element,hvlen,← List.cons_append,← htake,← hbytes,List.take_append_drop]

theorem Took.of_header {tag : UInt8} {hdr len : Nat} {c : Read} (p : Nat)
    (h : readHeader bs=some (tag,hdr,len)) (hc : c.wants tag) :
    Took c p bs tag hdr len ⟨true,⟨p+(hdr+len),bs.length-(hdr+len)⟩,some tag,
      some (c.span ⟨p,bs.length⟩ hdr len)⟩ := by
  obtain ⟨h2,h4,hin,htake⟩ := readHeader_some h
  exact ⟨⟨h2,h4,htake⟩,hin,⟨rfl,hc⟩,rfl,rfl⟩

end

/-- On every byte string each of the three calls reads bytes of the string only. It fails and leaves
the span alone, or takes header and content of one element, inside the string. An element that is
accepted whole is the only byte string with its tag and content that is. -/
theorem der_strict (p : Nat) (bs : Bytes) :
    (∀c : Read,∃r,c.run (ramOf p bs) ⟨p,bs.length⟩=some r ∧
      (r.ok=false ∧ r.left=⟨p,bs.length⟩ ∨ r.ok=true ∧ ∃tag hdr len,Took c p bs tag hdr len r)) ∧
    ∀bs' tag val,Accepted bs tag val → Accepted bs' tag val → bs=bs' := by
  constructor
  · intro c
    cases hh : readHeader bs with
    | none =>
      have hnext : derNextAt (ramOf p bs) ⟨p,bs.length⟩=some (refusal ⟨p,bs.length⟩) := by
        rw [derNextAt_eq,hh]
      cases c with
      | next => exact ⟨_,hnext,.inl ⟨rfl,rfl⟩⟩
      | nextRaw =>
        have hraw : derNextRawAt (ramOf p bs) ⟨p,bs.length⟩=some (refusal ⟨p,bs.length⟩) := by
          rw [derNextRawAt,readHeaderAt_eq,hh]
          rfl
        exact ⟨_,hraw,.inl ⟨rfl,rfl⟩⟩
      | expect tag =>
        refine ⟨⟨false,⟨p,bs.length⟩,none,none⟩,?_,.inl ⟨rfl,rfl⟩⟩
        rw [Read.run,derExpectAt,hnext]
        rfl
    | some x =>
      obtain ⟨t,hdr,len⟩ := x
      have hnext := derNextAt_eq p bs
      rw [hh] at hnext
      cases c with
      | next => exact ⟨_,hnext,.inr ⟨rfl,t,hdr,len,.of_header p hh trivial⟩⟩
      | nextRaw =>
        refine ⟨_,?_,.inr ⟨rfl,t,hdr,len,.of_header p hh trivial⟩⟩
        rw [Read.run,derNextRawAt,readHeaderAt_eq,hh]
        rfl
      | expect tag =>
        rw [Read.run,derExpectAt,hnext]
        by_cases ht : t=tag
        · subst ht
          refine ⟨_,?_,.inr ⟨rfl,t,hdr,len,.of_header p hh rfl⟩⟩
          simp [Read.span]
        · refine ⟨⟨false,⟨p,bs.length⟩,some t,some ⟨p+hdr,len⟩⟩,?_,.inl ⟨rfl,rfl⟩⟩
          simp [ht]
  · intro bs' tag val h h'
    rw [h.eq_element,h'.eq_element]

def octets : Bytes := [4,0x81,0x80]++List.replicate 128 7

theorem octets_next : derNextAt (ramOf 16 octets) ⟨16,octets.length⟩=
    some ⟨true,⟨147,0⟩,some 4,some ⟨19,128⟩⟩ := by
  rw [derNextAt_eq]
  decide +kernel

/-- An OCTET STRING of 128 bytes, with its length in two octets, is taken, and is the only byte
string with that content that is accepted whole. -/
theorem der_strict_octets : (∃r,r.ok=true ∧ ∃tag hdr len,Took .next 16 octets tag hdr len r) ∧
    ∀bs',Accepted bs' 4 (List.replicate 128 7) → octets=bs' := by
  obtain ⟨hread,honly⟩ := der_strict 16 octets
  obtain ⟨r,hr,⟨hok,-⟩ | ht⟩ := hread .next
  · cases octets_next.symm.trans hr
    cases hok
  · refine ⟨⟨r,ht⟩,fun bs' h => honly bs' 4 _ ⟨16,_,_,octets_next,rfl,rfl,rfl,rfl,?_⟩ h⟩
    decide +kernel

end LugalOS.Der
