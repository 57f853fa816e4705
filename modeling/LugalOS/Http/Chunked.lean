import LugalOS.Http.Response
import LugalOS.Lib.LittleEndian

namespace LugalOS.Http

open CString

/-- The bytes some polls bring, up to the stream's end. -/
def pollBytes : List Poll → Bytes
  | .got bs::ps => bs++pollBytes ps
  | _ => []

/-- The bytes that arrive before the stream ends or the deadline passes. -/
def Stream.bytes (s : Stream) : Bytes := s.rx++pollBytes s.polls

/-- A read takes bytes, or finds none yet; in both cases less is left to do. -/
inductive Reads (s : Stream) (want : ℕ) : Prop
  | idle (s' : Stream) : tcpStreamRead s want=(.nothing false,s') → s'.bytes=s.bytes →
    s'.work < s.work → Reads s want
  | some (bs : Bytes) (s' : Stream) : tcpStreamRead s want=(.bytes bs,s') → bs≠[] →
    bs.length≤want → s.bytes=bs++s'.bytes → s'.work < s.work → Reads s want

theorem reads_of_bytes {s : Stream} {want : ℕ} (hb : s.bytes≠[]) (hw : 0 < want) :
    s.expired=false ∧ Reads s want := by
  obtain ⟨rx,polls⟩ := s
  rcases rx with _ | ⟨b,bs⟩
  · rcases polls with _ | ⟨p,ps⟩
    · exact absurd rfl hb
    · refine ⟨rfl,?_⟩
      rcases p with bs | _ | _
      · rcases bs with _ | ⟨b,bs⟩
        · refine .idle ⟨[],ps⟩ rfl rfl ?_
          simp [Stream.work]
        · refine .some ((b::bs).take want) ⟨(b::bs).drop want,ps⟩ rfl ?_ ?_ ?_ ?_
          · simp [Nat.ne_of_gt hw]
          · exact List.length_take_le _ _
          · simp [Stream.bytes,pollBytes,← List.append_assoc]
          · simp only [Stream.work,List.length_drop,List.length_nil,List.map_cons,List.sum_cons]
            omega
      · exact absurd rfl hb
      · exact absurd rfl hb
  · refine ⟨rfl,.some ((b::bs).take want) ⟨(b::bs).drop want,polls⟩ rfl ?_ ?_ ?_ ?_⟩
    · simp [Nat.ne_of_gt hw]
    · exact List.length_take_le _ _
    · simp [Stream.bytes,← List.append_assoc]
    · simp only [Stream.work,List.length_drop,List.length_cons]
      omega

theorem reads_one {s : Stream} {b : UInt8} {rest : Bytes} (hb : s.bytes=b::rest) :
    s.expired=false ∧
    ((∃s',tcpStreamRead s 1=(.nothing false,s') ∧ s'.bytes=b::rest ∧ s'.work < s.work) ∨
      ∃s',tcpStreamRead s 1=(.bytes [b],s') ∧ s'.bytes=rest ∧ s'.work < s.work) := by
  have hne : s.bytes≠[] := by simp [hb]
  obtain ⟨hexp,hread⟩ := reads_of_bytes hne Nat.one_pos
  refine ⟨hexp,?_⟩
  rcases hread with ⟨s',hr,hsame,hlt⟩ | ⟨bs,s',hr,hne,hlen,hsplit,hlt⟩
  · exact .inl ⟨s',hr,by rw [hsame,hb],hlt⟩
  · obtain ⟨c,rfl⟩ := List.length_eq_one_iff.mp
      (le_antisymm hlen (List.length_pos_iff.mpr hne))
    rw [hb,List.singleton_append,List.cons.injEq] at hsplit
    obtain ⟨rfl,hrest⟩ := hsplit
    exact .inr ⟨s',hr,hrest.symm,hlt⟩

theorem readSizeLine_byte {s s' : Stream} {c : UInt8} (fuel : ℕ) (buf : Bytes)
    (hexp : s.expired=false) (hr : tcpStreamRead s 1=(.bytes [c],s')) :
    readSizeLine (fuel+1) s buf=
      if c=cr then readSizeLine fuel s' buf
      else if c=lf then (some buf,s')
      else readSizeLine fuel s' (if buf.length < 15 then buf++[c] else buf) := by
  rw [readSizeLine,hexp,hr]
  rfl

theorem readSizeLine_idle {s s' : Stream} (fuel : ℕ) (buf : Bytes)
    (hexp : s.expired=false) (hr : tcpStreamRead s 1=(.nothing false,s')) :
    readSizeLine (fuel+1) s buf=readSizeLine fuel s' buf := by
  rw [readSizeLine,hexp,hr]
  rfl

theorem readSizeLine_spec {line rest : Bytes} (hline : lf∉line) (fuel : ℕ) (s : Stream)
    (buf : Bytes) (hb : s.bytes=line++lf::rest) (hfuel : s.work < fuel) (hbuf : buf.length≤15) :
    ∃s',readSizeLine fuel s buf=
        (some (buf++(line.filter (· ≠ cr)).take (15-buf.length)),s') ∧
      s'.bytes=rest ∧ s'.work < s.work := by
  induction fuel generalizing s buf line with
  | zero => omega
  | succ fuel ih =>
    cases line with
    | nil =>
      obtain ⟨hexp,⟨s',hr,hsame,hlt⟩ | ⟨s',hr,hrest,hlt⟩⟩ := reads_one (b := lf) hb
      · obtain ⟨s2,h2,hb2,hlt2⟩ := @ih [] hline s' buf hsame (by omega) hbuf
        exact ⟨s2,by rw [readSizeLine_idle fuel buf hexp hr,h2],hb2,by omega⟩
      · refine ⟨s',?_,hrest,hlt⟩
        rw [readSizeLine_byte fuel buf hexp hr,if_neg (by decide),if_pos rfl,List.filter_nil,
          List.take_nil,List.append_nil]
    | cons c line =>
      have hc : c≠lf := fun h => hline (h ▸ List.mem_cons_self)
      have hline' : lf∉line := fun h => hline (List.mem_cons_of_mem _ h)
      obtain ⟨hexp,⟨s',hr,hsame,hlt⟩ | ⟨s',hr,hrest,hlt⟩⟩ := reads_one (b := c) hb
      · obtain ⟨s2,h2,hb2,hlt2⟩ := ih hline s' buf hsame (by omega) hbuf
        exact ⟨s2,by rw [readSizeLine_idle fuel buf hexp hr,h2],hb2,by omega⟩
      · rw [readSizeLine_byte fuel buf hexp hr]
        by_cases hcr : c=cr
        · obtain ⟨s2,h2,hb2,hlt2⟩ := ih hline' s' buf hrest (by omega) hbuf
          refine ⟨s2,?_,hb2,by omega⟩
          rw [if_pos hcr,h2,List.filter_cons_of_neg (by simpa using hcr)]
        · have hpush : (if buf.length < 15 then buf++[c] else buf).length≤15 := by
            split_ifs
            · rw [List.length_append,List.length_singleton]
              omega
            · exact hbuf
          obtain ⟨s2,h2,hb2,hlt2⟩ := ih hline' s' _ hrest (by omega) hpush
          refine ⟨s2,?_,hb2,by omega⟩
          rw [if_neg hcr,if_neg hc,h2,List.filter_cons_of_pos (by simpa)]
          congr 2
          split_ifs with hroom
          · obtain ⟨k,hk⟩ : ∃k,15-buf.length=k+1 := ⟨14-buf.length,by omega⟩
            have hk' : 15-(buf++[c]).length=k := by
              rw [List.length_append,List.length_singleton]
              omega
            rw [hk,hk',List.take_succ_cons,List.append_assoc]
            rfl
          · rw [show 15-buf.length=0 by omega,List.take_zero,List.take_zero]

theorem readData_spec {cb : ChunkCb} (hcb : ∀given,cb given=0) {rest : Bytes} (fuel : ℕ)
    (s : Stream) (chunkRem : UInt32) (data : Bytes) (given : List Bytes)
    (hb : s.bytes=data++rest) (hrem : chunkRem.toNat=data.length) (hfuel : s.work < fuel) :
    ∃s' parts,readData cb fuel s chunkRem given=(false,s',given++parts) ∧
      List.flatten parts=data ∧ s'.bytes=rest ∧ s'.work ≤ s.work := by
  induction fuel generalizing s chunkRem data given with
  | zero => omega
  | succ fuel ih =>
    rw [readData]
    by_cases hzero : chunkRem=0
    · have hdata : data=[] := List.eq_nil_of_length_eq_zero (by rw [← hrem,hzero]; rfl)
      rw [if_pos (.inl hzero)]
      refine ⟨s,[],by rw [List.append_nil],by rw [hdata]; rfl,?_,le_rfl⟩
      rw [hb,hdata,List.nil_append]
    · have hpos : 0 < chunkRem.toNat := Nat.pos_of_ne_zero fun h => hzero (UInt32.toNat_inj.mp h)
      generalize hwant : (if chunkRem < 256 then chunkRem.toNat else 256)=want
      have hw : 0 < want ∧ want≤chunkRem.toNat := by
        rw [← hwant]
        split_ifs with hlt
        · exact ⟨hpos,le_rfl⟩
        · exact ⟨by decide,UInt32.le_iff_toNat_le.mp (UInt32.not_lt.mp hlt)⟩
      have hbytes : s.bytes≠[] := by
        rw [hb]
        intro h
        have := congrArg List.length h
        rw [List.length_append,List.length_nil] at this
        omega
      obtain ⟨hexp,hread⟩ := reads_of_bytes hbytes hw.1
      rw [if_neg (by simp [hzero,hexp])]
      dsimp only
      rcases hread with ⟨s',hr,hsame,hlt⟩ | ⟨bs,s',hr,hne,hlen,hsplit,hlt⟩
      · rw [hr]
        obtain ⟨s2,parts,h2,hparts,hb2,hw2⟩ :=
          ih s' chunkRem data given (by rw [hsame,hb]) hrem (by omega)
        exact ⟨s2,parts,h2,hparts,hb2,by omega⟩
      · rw [hr]
        dsimp only
        rw [if_neg (by simp [hcb])]
        -- the bytes read are the first of the data
        obtain ⟨data',rfl⟩ : ∃data',data=bs++data' := by
          have hpre : bs <+: data++rest := ⟨s'.bytes,by rw [← hsplit,hb]⟩
          obtain ⟨t,ht⟩ := List.prefix_of_prefix_length_le hpre (List.prefix_append data rest)
            (by omega)
          exact ⟨t,ht.symm⟩
        rw [List.length_append] at hrem
        have hb' : s'.bytes=data'++rest := by
          rw [hb,List.append_assoc] at hsplit
          exact (List.append_cancel_left hsplit).symm
        have hn : bs.length.toUInt32.toNat=bs.length := by
          have := chunkRem.toNat_lt
          rw [Nat.toUInt32,UInt32.toNat_ofNat',Nat.mod_eq_of_lt (by omega)]
        have hrem' : (chunkRem-bs.length.toUInt32).toNat=data'.length := by
          rw [UInt32.toNat_sub_of_le _ _ (UInt32.le_iff_toNat_le.mpr (by omega)),hn]
          omega
        obtain ⟨s2,parts,h2,hparts,hb2,hw2⟩ :=
          ih s' (chunkRem-bs.length.toUInt32) data' (given++[bs]) hb' hrem' (by omega)
        refine ⟨s2,bs::parts,?_,by rw [List.flatten_cons,hparts],hb2,by omega⟩
        rw [h2,List.append_assoc]
        rfl

theorem skipCrlf_spec {rest : Bytes} (fuel : ℕ) (s : Stream) (crlfCount : ℕ) (two : Bytes)
    (hb : s.bytes=two++rest) (htwo : crlfCount+two.length=2) (hfuel : s.work < fuel) :
    (skipCrlf fuel s crlfCount).bytes=rest ∧ (skipCrlf fuel s crlfCount).work ≤ s.work := by
  induction fuel generalizing s crlfCount two with
  | zero => omega
  | succ fuel ih =>
    rw [skipCrlf]
    cases two with
    | nil =>
      rw [List.length_nil] at htwo
      rw [if_pos (.inl (by omega))]
      exact ⟨hb,le_rfl⟩
    | cons c two =>
      rw [List.length_cons] at htwo
      obtain ⟨hexp,⟨s',hr,hsame,hlt⟩ | ⟨s',hr,hrest,hlt⟩⟩ := reads_one (b := c) hb
      · rw [if_neg (by simp [hexp]; omega),hr]
        obtain ⟨hb2,hw2⟩ := ih s' crlfCount (c::two) hsame (by rw [List.length_cons]; omega)
          (by omega)
        exact ⟨hb2,hw2.trans hlt.le⟩
      · rw [if_neg (by simp [hexp]; omega),hr]
        obtain ⟨hb2,hw2⟩ := ih s' (crlfCount+1) two hrest (by omega) (by omega)
        exact ⟨hb2,hw2.trans hlt.le⟩

/-- The number some hexadecimal digits write, behind n. -/
def hexValue (n : ℕ) (digits : Bytes) : ℕ :=
  digits.foldl (fun n c => n*16+((parseHexDigit c).getD 0).toNat) n

def IsHex (digits : Bytes) : Prop := ∀c∈digits,(parseHexDigit c).isSome=true

theorem parseHexDigit_lt (c : UInt8) : ((parseHexDigit c).getD 0).toNat < 16 := by
  have hall : ∀k : Fin 256,((parseHexDigit (UInt8.ofNat k)).getD 0).toNat < 16 := by
    decide +kernel
  have hc := hall ⟨c.toNat,c.toNat_lt⟩
  rwa [UInt8.ofNat_toNat] at hc

theorem shiftIn_eq (n : ℕ) {d : UInt8} (hd : d.toNat < 16) :
    UInt32.ofNat n<<<4 ||| d.toUInt32=UInt32.ofNat (n*16+d.toNat) := by
  refine UInt32.toNat_inj.mp ?_
  rw [UInt32.toNat_or,UInt32.toNat_shiftLeft,UInt8.toNat_toUInt32,UInt32.toNat_ofNat',
    UInt32.toNat_ofNat',show (4 : UInt32).toNat%32=4 from rfl,Nat.shiftLeft_eq]
  have hsplit : n%2^32*2^4%2^32=2^4*(n%2^28) := by omega
  rw [hsplit,← Nat.two_pow_add_eq_or_of_lt hd]
  omega

theorem chunkSize_hex {digits : Bytes} (hhex : IsHex digits) (tail : Bytes) (n : ℕ) :
    chunkSize (UInt32.ofNat n) (digits++tail)=
      chunkSize (UInt32.ofNat (hexValue n digits)) tail := by
  induction digits generalizing n with
  | nil => rfl
  | cons c digits ih =>
    obtain ⟨d,hd⟩ := Option.isSome_iff_exists.mp (hhex c List.mem_cons_self)
    have hlt := parseHexDigit_lt c
    rw [hd,Option.getD_some] at hlt
    rw [List.cons_append,chunkSize,hd]
    dsimp only
    rw [shiftIn_eq n hlt,ih fun x hx => hhex x (List.mem_cons_of_mem _ hx)]
    unfold hexValue
    rw [List.foldl_cons,hd,Option.getD_some]

theorem chunkSize_stop {tail : Bytes} (h : ∀c∈tail.head?,parseHexDigit c=none) (n : UInt32) :
    chunkSize n tail=n := by
  cases tail with
  | nil => rfl
  | cons c tail => rw [chunkSize,h c rfl]

theorem hexValue_append (n : ℕ) (a b : Bytes) : hexValue n (a++b)=hexValue (hexValue n a) b :=
  List.foldl_append

theorem hexValue_ge (n : ℕ) (digits : Bytes) : n*16^digits.length≤hexValue n digits := by
  induction digits generalizing n with
  | nil => simp [hexValue]
  | cons c digits ih =>
    have hstep := ih (n*16+((parseHexDigit c).getD 0).toNat)
    rw [List.length_cons,Nat.pow_succ',← Nat.mul_assoc]
    exact (Nat.mul_le_mul_right _ (Nat.le_add_right _ _)).trans hstep

/-- A chunk-size line: digits, perhaps an extension, and the line's end. -/
structure SizeLine where
  digits : Bytes
  ext : Bytes
  digits_ne : digits≠[]
  hex : IsHex digits
  ext_clean : ∀c∈ext,c≠cr ∧ c≠lf
  ext_start : ∀c∈ext.head?,c=59 ∨ c=blank ∨ c=9

namespace SizeLine

variable (l : SizeLine)

def size : ℕ := hexValue 0 l.digits

def text : Bytes := l.digits++l.ext++[cr,lf]

theorem digits_clean : ∀c∈l.digits,c≠cr ∧ c≠lf := by
  intro c hc
  have hhex := l.hex c hc
  constructor
  · rintro rfl
    exact absurd hhex (by decide)
  · rintro rfl
    exact absurd hhex (by decide)

theorem clean : ∀c∈l.digits++l.ext,c≠cr ∧ c≠lf := by
  intro c hc
  rcases List.mem_append.mp hc with hc | hc
  · exact l.digits_clean c hc
  · exact l.ext_clean c hc

theorem ext_stops (k : ℕ) : ∀c∈(l.ext.take k).head?,parseHexDigit c=none := by
  intro c hc
  have hhead : c∈l.ext.head? := by
    cases k with
    | zero => simp at hc
    | succ k =>
      cases hext : l.ext with
      | nil => simp [hext] at hc
      | cons x xs => simpa [hext] using hc
  rcases l.ext_start c hhead with rfl | rfl | rfl <;> decide

/-- What hex_buf holds of the line. -/
def hexBuf : Bytes := (l.digits++l.ext).take 15

theorem hexBuf_ne : l.hexBuf≠[] := by
  have hne := l.digits_ne
  unfold hexBuf
  cases hd : l.digits with
  | nil => exact absurd hd hne
  | cons c cs => simp

theorem chunkSize_short (h : l.digits.length≤15) :
    chunkSize 0 l.hexBuf=UInt32.ofNat l.size := by
  unfold hexBuf size
  rw [List.take_append,List.take_of_length_le h]
  have hread := chunkSize_hex l.hex (l.ext.take (15-l.digits.length)) 0
  rw [chunkSize_stop (l.ext_stops _)] at hread
  exact hread

theorem chunkSize_long (h : 15≤l.digits.length) :
    chunkSize 0 l.hexBuf=UInt32.ofNat (hexValue 0 (l.digits.take 15)) := by
  unfold hexBuf
  rw [List.take_append_of_le_length h]
  have hhex : IsHex (l.digits.take 15) := fun c hc => l.hex c (List.mem_of_mem_take hc)
  have hread := chunkSize_hex hhex [] 0
  rw [List.append_nil] at hread
  exact hread

/-- The first 15 digits of a longer line write at most a sixteenth of its size. -/
theorem size_long (h : 15 < l.digits.length) : hexValue 0 (l.digits.take 15)*16≤l.size := by
  have hge := hexValue_ge (hexValue 0 (l.digits.take 15)) (l.digits.drop 15)
  rw [← hexValue_append,List.take_append_drop] at hge
  refine le_trans (Nat.mul_le_mul_left _ ?_) hge
  calc 16=16^1 := rfl
    _ ≤ 16^(l.digits.drop 15).length :=
      Nat.pow_le_pow_right (by decide) (by rw [List.length_drop]; omega)

theorem read {rest : Bytes} {s : Stream} (hb : s.bytes=l.text++rest) :
    ∃s',readSizeLine (s.work+1) s []=(some l.hexBuf,s') ∧ s'.bytes=rest ∧ s'.work < s.work := by
  have hline : lf∉l.digits++l.ext++[cr] := by
    intro h
    rcases List.mem_append.mp h with h | h
    · exact (l.clean lf h).2 rfl
    · exact absurd (List.mem_singleton.mp h) (by decide)
  have hfilter : (l.digits++l.ext++[cr]).filter (· ≠ cr)=l.digits++l.ext := by
    rw [List.filter_append,List.filter_eq_self.mpr fun c hc => by simpa using (l.clean c hc).1]
    simp
  have hbytes : s.bytes=l.digits++l.ext++[cr]++lf::rest := by
    rw [hb,text]
    simp
  obtain ⟨s',hr,hb',hlt⟩ := readSizeLine_spec hline (s.work+1) s [] hbytes (Nat.lt_succ_self _)
    (Nat.zero_le _)
  rw [hfilter,List.nil_append] at hr
  exact ⟨s',hr,hb',hlt⟩

end SizeLine

/-- How a chunked body is framed: the lines before its chunks, and the line of its zero chunk. -/
structure Framing where
  lines : List SizeLine
  last : SizeLine
  sizes : ∀l∈lines,0 < l.size ∧ l.size < 2^32
  zero : last.size=0

/-- The chunks' data have the sizes of the lines. -/
def Fit : List SizeLine → List Bytes → Prop
  | [],[] => True
  | l::ls,d::ds => l.size=d.length ∧ Fit ls ds
  | _,_ => False

def chunks : List SizeLine → List Bytes → Bytes
  | l::ls,d::ds => l.text++(d++([cr,lf]++chunks ls ds))
  | _,_ => []

theorem chunks_nil (datas : List Bytes) : chunks [] datas=[] := by
  cases datas <;> rfl

/-- The body, up to the end of its zero chunk's line. -/
def Framing.body (f : Framing) (datas : List Bytes) : Bytes := chunks f.lines datas++f.last.text

section

variable {cb : ChunkCb} {last : SizeLine}

theorem readChunked_stop {hexBuf : Bytes} (hsize : chunkSize 0 hexBuf=0) {fuel : ℕ}
    {s s' : Stream} (hr : readSizeLine (s.work+1) s []=(some hexBuf,s')) (given : List Bytes) :
    readChunked cb (fuel+1) s given=given := by
  rw [readChunked,hr]
  dsimp only
  rw [if_pos hsize,ite_self,ite_self]

theorem readChunked_zero (hz : last.size=0) {tail : Bytes} {fuel : ℕ} {s : Stream}
    {given : List Bytes} (hb : s.bytes=last.text++tail) :
    readChunked cb (fuel+1) s given=given := by
  obtain ⟨s',hr,-,-⟩ := last.read hb
  refine readChunked_stop ?_ hr given
  by_cases h : last.digits.length≤15
  · rw [last.chunkSize_short h,hz]
    rfl
  · have hlong := last.size_long (by omega)
    rw [last.chunkSize_long (by omega),show hexValue 0 (last.digits.take 15)=0 by omega]
    rfl

theorem readChunked_chunk (hcb : ∀given,cb given=0) {l : SizeLine} {n : ℕ}
    (hn : chunkSize 0 l.hexBuf=UInt32.ofNat n) (hpos : 0 < n) (hlt : n < 2^32)
    {data two rest : Bytes} (hdata : data.length=n) (htwo : two.length=2) (fuel : ℕ) {s : Stream}
    (given : List Bytes) (hb : s.bytes=l.text++(data++(two++rest))) :
    ∃s' parts,readChunked cb (fuel+1) s given=readChunked cb fuel s' (given++parts) ∧
      List.flatten parts=data ∧ s'.bytes=rest ∧ s'.work < s.work := by
  obtain ⟨s1,hr,hb1,hw1⟩ := l.read hb
  have hnat : (UInt32.ofNat n).toNat=n := by rw [UInt32.toNat_ofNat',Nat.mod_eq_of_lt hlt]
  have hne : UInt32.ofNat n≠0 := by
    intro h
    rw [h] at hnat
    exact absurd hnat (Nat.ne_of_lt hpos)
  obtain ⟨s2,parts,hr2,hparts,hb2,hw2⟩ := readData_spec hcb (s1.work+1) s1 (UInt32.ofNat n) data
    given hb1 (hnat.trans hdata.symm) (Nat.lt_succ_self _)
  obtain ⟨hb3,hw3⟩ := skipCrlf_spec (s2.work+1) s2 0 two hb2 (by omega) (Nat.lt_succ_self _)
  have hbytes : s.bytes≠[] := by
    rw [hb]
    unfold SizeLine.text
    simp
  have hexp : s.expired=false := (reads_of_bytes hbytes Nat.one_pos).1
  refine ⟨skipCrlf (s2.work+1) s2 0,parts,?_,hparts,hb3,by omega⟩
  rw [readChunked,hexp,hr]
  dsimp only
  rw [hn,if_neg l.hexBuf_ne,if_neg hne,hr2]
  rfl

theorem readChunked_spec (hcb : ∀given,cb given=0) (hz : last.size=0) {lines : List SizeLine}
    (hsizes : ∀l∈lines,0 < l.size ∧ l.size < 2^32) (hshort : ∀l∈lines,l.digits.length≤15)
    {datas : List Bytes} (hfit : Fit lines datas) {tail : Bytes} (fuel : ℕ) (s : Stream)
    (given : List Bytes) (hb : s.bytes=chunks lines datas++(last.text++tail))
    (hfuel : s.work < fuel) :
    ∃parts,readChunked cb fuel s given=given++parts ∧ List.flatten parts=datas.flatten := by
  induction lines generalizing datas fuel s given with
  | nil =>
    cases datas with
    | cons => exact hfit.elim
    | nil =>
      obtain ⟨k,rfl⟩ := Nat.exists_eq_succ_of_ne_zero (Nat.ne_of_gt (Nat.zero_lt_of_lt hfuel))
      exact ⟨[],by rw [readChunked_zero hz hb,List.append_nil],rfl⟩
  | cons l lines ih =>
    cases datas with
    | nil => exact hfit.elim
    | cons d datas =>
      obtain ⟨hlen,hfit⟩ := hfit
      obtain ⟨hpos,hlt⟩ := hsizes l List.mem_cons_self
      obtain ⟨k,rfl⟩ := Nat.exists_eq_succ_of_ne_zero (Nat.ne_of_gt (Nat.zero_lt_of_lt hfuel))
      have hchunk : s.bytes=l.text++(d++([cr,lf]++(chunks lines datas++(last.text++tail)))) := by
        rw [hb,chunks]
        simp only [List.append_assoc]
      obtain ⟨s',parts,hstep,hparts,hb',hw⟩ := readChunked_chunk hcb
        (l.chunkSize_short (hshort l List.mem_cons_self)) hpos hlt hlen.symm rfl k given hchunk
      obtain ⟨more,hrest,hmore⟩ := ih (fun x hx => hsizes x (List.mem_cons_of_mem _ hx))
        (fun x hx => hshort x (List.mem_cons_of_mem _ hx)) hfit k s' (given++parts) hb' (by omega)
      refine ⟨parts++more,by rw [hstep,hrest,List.append_assoc],?_⟩
      rw [List.flatten_append,hparts,hmore,List.flatten_cons]

/-- Data of the lines' sizes, all zero bytes. -/
def zeroDatas (lines : List SizeLine) : List Bytes := lines.map fun l => List.replicate l.size 0

theorem zeroDatas_fit (lines : List SizeLine) : Fit lines (zeroDatas lines) := by
  induction lines with
  | nil => trivial
  | cons l lines ih => exact ⟨by simp,ih⟩

theorem readChunked_zeros {m : ℕ} {rest : Bytes} (hm : 0 < m) {fuel : ℕ} {s : Stream}
    {given : List Bytes} (hb : s.bytes=List.replicate m 0++cr::lf::rest) :
    readChunked cb (fuel+1) s given=given := by
  have hline : lf∉List.replicate m 0++[cr] := by
    intro h
    rcases List.mem_append.mp h with h | h
    · exact absurd (List.eq_of_mem_replicate h) (by decide)
    · exact absurd (List.mem_singleton.mp h) (by decide)
  obtain ⟨s',hr,-,-⟩ := readSizeLine_spec hline (s.work+1) s []
    (by rw [hb,List.append_assoc]; rfl) (Nat.lt_succ_self _) (Nat.zero_le _)
  refine readChunked_stop ?_ hr given
  obtain ⟨k,rfl⟩ := Nat.exists_eq_succ_of_ne_zero (Nat.ne_of_gt hm)
  rw [List.replicate_succ,List.cons_append,List.filter_cons_of_pos (by decide),List.nil_append,
    show 15-([] : Bytes).length=14+1 from rfl,List.take_succ_cons]
  exact chunkSize_stop (fun c hc => by cases hc; decide) 0

theorem readChunked_cut (hcb : ∀given,cb given=0) {lines : List SizeLine}
    (hsizes : ∀l∈lines,0 < l.size ∧ l.size < 2^32) (hlong : ∃l∈lines,15 < l.digits.length)
    {tail : Bytes} (fuel : ℕ) (s : Stream) (given : List Bytes)
    (hb : s.bytes=chunks lines (zeroDatas lines)++tail) (hfuel : s.work < fuel) :
    (readChunked cb fuel s given).flatten.length <
      given.flatten.length+(zeroDatas lines).flatten.length := by
  induction lines generalizing fuel s given with
  | nil => simp at hlong
  | cons l lines ih =>
    obtain ⟨hpos,hlt⟩ := hsizes l List.mem_cons_self
    obtain ⟨k,rfl⟩ := Nat.exists_eq_succ_of_ne_zero (Nat.ne_of_gt (Nat.zero_lt_of_lt hfuel))
    have hchunk : s.bytes=l.text++(List.replicate l.size 0++
        ([cr,lf]++(chunks lines (zeroDatas lines)++tail))) := by
      rw [hb,zeroDatas,List.map_cons,chunks]
      simp only [List.append_assoc]
      rfl
    have htotal : (zeroDatas (l::lines)).flatten.length=
        l.size+(zeroDatas lines).flatten.length := by
      rw [zeroDatas,List.map_cons,List.flatten_cons,List.length_append,List.length_replicate]
      rfl
    rw [htotal]
    by_cases hl : l.digits.length≤15
    · obtain ⟨s',parts,hstep,hparts,hb',hw⟩ := readChunked_chunk hcb (l.chunkSize_short hl) hpos hlt
        List.length_replicate rfl k given hchunk
      have hlong' : ∃x∈lines,15 < x.digits.length := by
        obtain ⟨x,hx,hxl⟩ := hlong
        rcases List.mem_cons.mp hx with rfl | hx
        · omega
        · exact ⟨x,hx,hxl⟩
      have hrest := ih (fun x hx => hsizes x (List.mem_cons_of_mem _ hx)) hlong' k s' (given++parts)
        hb' (by omega)
      rw [List.flatten_append,List.length_append,hparts,List.length_replicate] at hrest
      rw [hstep]
      omega
    · have hfirst := l.size_long (by omega)
      have hread := l.chunkSize_long (by omega)
      generalize hexValue 0 (l.digits.take 15)=v at hfirst hread
      rcases Nat.eq_zero_or_pos v with rfl | hv
      · obtain ⟨s',hr,-,-⟩ := l.read hchunk
        rw [readChunked_stop hread hr given]
        omega
      · -- v bytes are delivered, two more are skipped, and the next line is zero bytes
        have hsplit : s.bytes=l.text++(List.replicate v 0++([0,0]++(List.replicate (l.size-v-2) 0++
            cr::lf::(chunks lines (zeroDatas lines)++tail)))) := by
          rw [hchunk]
          congr 1
          rw [show l.size=v+(2+(l.size-v-2)) by omega,List.replicate_add,List.replicate_add]
          simp
        obtain ⟨s',parts,hstep,hparts,hb',hw⟩ := readChunked_chunk hcb hread hv (by omega)
          List.length_replicate rfl k given hsplit
        obtain ⟨j,rfl⟩ := Nat.exists_eq_succ_of_ne_zero (show k≠0 by omega)
        rw [hstep,readChunked_zeros (by omega) hb',List.flatten_append,List.length_append,hparts,
          List.length_replicate]
        omega

end

/-- A response with a chunked body: its headers say so, under status, and body is what comes behind
them before the stream ends or the deadline passes. -/
def Responds (s : Stream) (more : List Poll) (status : ℕ) (body : Bytes) : Prop :=
  ∃h s',readHeaders (s.work+1) s {}=(some h,s') ∧ h.statusCode=status ∧ status≠0 ∧
    h.chunked=true ∧ Stream.bytes {s' with polls := s'.polls++more}=body

/-- A chunked body that is all there: some framing's, with data of its sizes, and what follows. -/
def Complete (body : Bytes) : Prop :=
  ∃(f : Framing) (datas : List Bytes) (tail : Bytes),Fit f.lines datas ∧ body=f.body datas++tail

theorem httpResponse_eq (cb : ChunkCb) {s : Stream} {more : List Poll} {status : ℕ} {body : Bytes}
    (h : Responds s more status body) :
    ∃s' : Stream,s'.bytes=body ∧
      httpResponse cb s more=((status : Int),readChunked cb (s'.work+1) s' []) := by
  obtain ⟨hd,s',hr,hstatus,hne,hchunked,hbody⟩ := h
  refine ⟨{s' with polls := s'.polls++more},hbody,?_⟩
  unfold httpResponse
  rw [hr]
  dsimp only
  rw [hstatus,if_neg hne,if_pos hchunked]

/-- The headers of a chunked response. -/
def chunkedHeaders : Bytes :=
  ofString "HTTP/1.1 200 OK\r\nTransfer-Encoding: chunked\r\n\r\n"

theorem chunkedHeaders_responds (body : Bytes) :
    Responds ⟨chunkedHeaders,[]⟩ [.got body] 200 body := by
  refine ⟨⟨[],200,true⟩,⟨[],[]⟩,by decide +kernel,rfl,by decide,rfl,?_⟩
  simp [Stream.bytes,pollBytes]

/-- A chunked response whose framing is complete reaches on_chunk exactly, whatever its data and
however they arrive, when no line of a chunk has more than 15 digits; and only then. The status is
returned whatever the body is, so also for one that is not complete. -/
theorem httpResponse_chunked (f : Framing) :
    ((∀(cb : ChunkCb) (s : Stream) (more : List Poll) (status : ℕ) (datas : List Bytes)
        (tail : Bytes),(∀given,cb given=0) → Fit f.lines datas →
        Responds s more status (f.body datas++tail) →
        (httpResponse cb s more).1=status ∧ (httpResponse cb s more).2.flatten=datas.flatten) ↔
      ∀l∈f.lines,l.digits.length≤15) ∧
    ∀(cb : ChunkCb) (s : Stream) (more : List Poll) (status : ℕ) (body : Bytes),
      Responds s more status body → (httpResponse cb s more).1=status := by
  refine ⟨⟨?_,?_⟩,?_⟩
  · intro hall
    by_contra hlong
    push Not at hlong
    obtain ⟨-,hdata⟩ := hall (fun _ => 0) ⟨chunkedHeaders,[]⟩
      [.got (f.body (zeroDatas f.lines)++[])] 200 (zeroDatas f.lines) [] (fun _ => rfl)
      (zeroDatas_fit f.lines) (chunkedHeaders_responds _)
    obtain ⟨s',hb,heq⟩ := httpResponse_eq (fun _ => 0)
      (chunkedHeaders_responds (f.body (zeroDatas f.lines)++[]))
    have hcb : ∀given : List Bytes,(fun _ => 0 : ChunkCb) given=0 := fun _ => rfl
    have hcut := readChunked_cut hcb f.sizes hlong (s'.work+1) s' []
      (by rw [hb,Framing.body,List.append_assoc]) (Nat.lt_succ_self _)
    rw [heq] at hdata
    rw [hdata] at hcut
    simp at hcut
  · intro hshort cb s more status datas tail hcb hfit hresp
    obtain ⟨s',hb,heq⟩ := httpResponse_eq cb hresp
    obtain ⟨parts,hparts,hdata⟩ := readChunked_spec hcb f.zero f.sizes hshort hfit (s'.work+1) s' []
      (by rw [hb,Framing.body,List.append_assoc]) (Nat.lt_succ_self _)
    rw [heq,hparts,List.nil_append]
    exact ⟨rfl,hdata⟩
  · intro cb s more status body hresp
    obtain ⟨s',-,heq⟩ := httpResponse_eq cb hresp
    rw [heq]

/-- A body that breaks off inside its first chunk. -/
def brokenBody : Bytes := ofString "5\r\nhel"

theorem brokenBody_incomplete : ¬Complete brokenBody := by
  rintro ⟨f,datas,tail,hfit,h⟩
  cases hlines : f.lines with
  | nil =>
    have hne := f.last.digits_ne
    have hzero := f.zero
    unfold Framing.body SizeLine.text at h
    rw [hlines,chunks_nil] at h
    unfold SizeLine.size at hzero
    cases hd : f.last.digits with
    | nil => exact hne hd
    | cons c cs =>
      rw [hd] at h hzero
      have hc : c=53 := (List.cons.inj h).1.symm
      have hge := hexValue_ge 5 cs
      rw [hc] at hzero
      have hpow : 0 < 16^cs.length := Nat.pow_pos (by decide)
      have hfive : hexValue 0 (53::cs)=hexValue 5 cs := rfl
      omega
  | cons l ls =>
    cases datas with
    | nil => rw [hlines] at hfit; exact hfit.elim
    | cons d ds =>
      -- one line feed is not enough for a line and the end of its chunk
      have hcount := congrArg (List.count lf) h
      unfold Framing.body at hcount
      rw [hlines,chunks,SizeLine.text] at hcount
      simp only [List.count_append] at hcount
      have hone : List.count lf brokenBody=1 := by decide
      have hend : List.count lf [cr,lf]=1 := by decide
      omega

/-- The stream ends in the middle of a chunk: 200 all the same. -/
theorem httpResponse_broken :
    ¬(∀(cb : ChunkCb) (s : Stream) (more : List Poll) (status : ℕ) (body : Bytes),
      Responds s more status body → ¬Complete body → (httpResponse cb s more).1≠status) := by
  intro hclaim
  obtain ⟨s',-,heq⟩ := httpResponse_eq (fun _ => 0) (chunkedHeaders_responds brokenBody)
  exact hclaim (fun _ => 0) _ _ 200 brokenBody (chunkedHeaders_responds brokenBody)
    brokenBody_incomplete (by rw [heq])

end LugalOS.Http
