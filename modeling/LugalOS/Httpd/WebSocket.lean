import LugalOS.Lib.Framing
import LugalOS.Lib.LittleEndian

namespace LugalOS.Httpd

open CString Framing Words

def wsOpCont : UInt8 := 0
def wsOpText : UInt8 := 1
def wsOpBinary : UInt8 := 2
def wsOpClose : UInt8 := 8
def wsOpPing : UInt8 := 9
def wsOpPong : UInt8 := 10
def wsHdrMax : Nat := 14

structure WsHdr where
  opcode : UInt8 := 0
  fin : Bool := false
  masked : Bool := false
  mask : Bytes := [0,0,0,0]
  payloadLen : Nat := 0
deriving DecidableEq

/-- How long the header is without its mask, by the 7 bits of length in its second byte. -/
def wsLenEnd (l : UInt8) : Nat := if l=126 then 4 else if l=127 then 10 else 2

/-- The payload's length, once that much of the header is there. -/
def wsLen (buf : Bytes) (l : UInt8) : Nat :=
  if l=126 then (buf.getD 2 0).toNat<<<8 ||| (buf.getD 3 0).toNat
  else if l=127 then ((buf.drop 2).take 8).foldl (fun len b => len<<<8 ||| b.toNat) 0
  else l.toNat

/-- The int ws_parse_header returns and the header as it leaves it. -/
def wsParseHeader (buf : Bytes) (maxPayload : Nat) (h : WsHdr) : Int×WsHdr :=
  let n := buf.length
  if n<2 then (0,h)
  else if buf.getD 0 0 &&& 0x70≠0 then (-1,h)
  else
    let h := {h with fin := buf.getD 0 0 &&& 0x80≠0,opcode := buf.getD 0 0 &&& 0x0f}
    if wsOpBinary < h.opcode ∧ h.opcode < wsOpClose ∨ wsOpPong < h.opcode then (-1,h)
    else
      let h := {h with masked := buf.getD 1 0 &&& 0x80≠0}
      let l := buf.getD 1 0 &&& 0x7f
      let hdr := wsLenEnd l
      if n < hdr then (0,h)
      else
        let len := wsLen buf l
        if wsOpClose≤h.opcode ∧ (h.fin=false ∨ 125 < len) then (-1,h)
        else if maxPayload < len then (-1,h)
        else if h.masked then
          if n < hdr+4 then (0,h)
          else (hdr+4,{h with mask := (buf.drop hdr).take 4,payloadLen := len})
        else (hdr,{h with mask := [0,0,0,0],payloadLen := len})

def wsUnmask (buf mask : Bytes) (offset : Nat) : Bytes :=
  buf.mapIdx fun i b => b ^^^ mask.getD ((offset+i)%4) 0

/-- The header that is written; no mask is an unmasked frame. -/
def wsBuildHeader (opcode : UInt8) (len : UInt32) (mask : Option Bytes) : Bytes :=
  let m : UInt8 := if mask.isSome then 0x80 else 0
  let ext :=
    if len<126 then [m ||| len.toUInt8]
    else if len≤0xffff then [m ||| 126,(len>>>8).toUInt8,len.toUInt8]
    else [m ||| 127,0,0,0,0,(len>>>24).toUInt8,(len>>>16).toUInt8,(len>>>8).toUInt8,len.toUInt8]
  (0x80 ||| (opcode &&& 0x0f))::ext++mask.getD []

theorem getD_of_take {s t : Bytes} {m i : Nat} (h : s.take m=t.take m) (hi : i < m) :
    s.getD i 0=t.getD i 0 := by
  have := congrArg (fun l : Bytes => l.getD i 0) h
  simpa only [List.getD_eq_getElem?_getD,List.getElem?_take_of_lt hi] using this

theorem slice_of_take {s t : Bytes} {m p k : Nat} (h : s.take m=t.take m) (hi : p+k ≤ m) :
    (s.drop p).take k=(t.drop p).take k := by
  have hs : ∀ l : Bytes,(l.drop p).take k=((l.take m).drop p).take k := by
    intro l
    rw [List.drop_take,List.take_take,Nat.min_eq_left (by omega)]
  rw [hs s,hs t,h]

theorem wsLen_congr {s t : Bytes} {l : UInt8} {m : Nat} (h : s.take m=t.take m)
    (hm : wsLenEnd l ≤ m) : wsLen s l=wsLen t l := by
  unfold wsLen
  rw [wsLenEnd] at hm
  split_ifs at hm ⊢ with h126 h127
  · rw [getD_of_take h (by omega),getD_of_take h (by omega)]
  · rw [slice_of_take h (by omega)]
  · rfl

theorem wsLenEnd_ge (l : UInt8) : 2≤wsLenEnd l := by
  rw [wsLenEnd]
  split_ifs <;> omega

theorem wsParseHeader_congr {s t : Bytes} {m max : Nat} {h k : WsHdr} (hst : s.take m=t.take m)
    (hs : m ≤ s.length) (ht : m≤t.length) (h2 : 2 ≤ m) (hne : (wsParseHeader s max h).1≠0)
    (hpos : (wsParseHeader s max h).1 ≤ m) (hneg : (wsParseHeader s max h).1<0 → m=s.length) :
    (wsParseHeader t max k).1=(wsParseHeader s max h).1 ∧
      (0 < (wsParseHeader s max h).1 → (wsParseHeader t max k).2=(wsParseHeader s max h).2) := by
  have h0 : t.getD 0 0=s.getD 0 0 := (getD_of_take hst (by omega)).symm
  have h1 : t.getD 1 0=s.getD 1 0 := (getD_of_take hst (by omega)).symm
  unfold wsParseHeader at hne hpos hneg ⊢
  rw [h0,h1]
  dsimp only at hne hpos hneg ⊢
  rw [if_neg (show ¬t.length<2 by omega),if_neg (show ¬s.length<2 by omega)]
  rw [if_neg (show ¬s.length<2 by omega)] at hne hpos hneg
  generalize s.getD 0 0=b0 at hne hpos hneg ⊢
  generalize s.getD 1 0 &&& 0x7f=l at hne hpos hneg ⊢
  generalize decide (s.getD 1 0 &&& 0x80≠0)=masked at hne hpos hneg ⊢
  by_cases hrsv : b0 &&& 0x70≠0
  · rw [if_pos hrsv,if_pos hrsv]
    exact ⟨rfl,fun h => by simp at h⟩
  · rw [if_neg hrsv] at hne hpos hneg
    rw [if_neg hrsv,if_neg hrsv]
    by_cases hop : wsOpBinary < b0 &&& 0x0f ∧ b0 &&& 0x0f < wsOpClose ∨ wsOpPong < b0 &&& 0x0f
    · rw [if_pos hop,if_pos hop]
      exact ⟨rfl,fun h => by simp at h⟩
    · rw [if_neg hop] at hne hpos hneg
      rw [if_neg hop,if_neg hop]
      by_cases hshort : s.length < wsLenEnd l
      · rw [if_pos hshort] at hne
        exact absurd rfl hne
      · rw [if_neg hshort] at hne hpos hneg
        rw [if_neg hshort]
        have hm : wsLenEnd l ≤ m := by
          have := wsLenEnd_ge l
          split_ifs at hne hpos hneg <;> simp only at hne hpos hneg <;> omega
        rw [if_neg (show ¬t.length < wsLenEnd l by omega),wsLen_congr hst.symm hm]
        generalize wsLen s l=len at hne hpos hneg ⊢
        by_cases hctl : wsOpClose≤b0 &&& 0x0f ∧ (decide (b0 &&& 0x80≠0)=false ∨ 125 < len)
        · rw [if_pos hctl,if_pos hctl]
          exact ⟨rfl,fun h => by simp at h⟩
        · rw [if_neg hctl] at hne hpos hneg
          rw [if_neg hctl,if_neg hctl]
          by_cases hmax : max < len
          · rw [if_pos hmax,if_pos hmax]
            exact ⟨rfl,fun h => by simp at h⟩
          · rw [if_neg hmax] at hne hpos hneg
            rw [if_neg hmax,if_neg hmax]
            cases masked with
            | false => exact ⟨rfl,fun _ => rfl⟩
            | true =>
              by_cases hmask : s.length < wsLenEnd l+4
              · rw [if_pos rfl,if_pos hmask] at hne
                exact absurd rfl hne
              · rw [if_pos rfl,if_neg hmask] at hpos
                have hfull : wsLenEnd l+4 ≤ m := by
                  simp only at hpos
                  omega
                rw [if_pos rfl,if_pos rfl,if_neg hmask,
                  if_neg (show ¬t.length < wsLenEnd l+4 by omega),slice_of_take hst.symm hfull]
                exact ⟨rfl,fun _ => rfl⟩

theorem wsParseHeader_short {s : Bytes} (max : Nat) (h : WsHdr) (hs : s.length<2) :
    (wsParseHeader s max h).1=0 := by
  unfold wsParseHeader
  exact congrArg Prod.fst (if_pos hs)

theorem wsParseHeader_pos {s : Bytes} {max : Nat} {h : WsHdr}
    (hpos : 0 < (wsParseHeader s max h).1) : 2≤(wsParseHeader s max h).1 ∧
      (wsParseHeader s max h).1 ≤ s.length ∧ (wsParseHeader s max h).1≤wsHdrMax := by
  have hge := wsLenEnd_ge (s.getD 1 0 &&& 0x7f)
  have hle : wsLenEnd (s.getD 1 0 &&& 0x7f)≤10 := by
    rw [wsLenEnd]
    split_ifs <;> omega
  unfold wsParseHeader at hpos ⊢
  dsimp only at hpos ⊢
  generalize wsLenEnd (s.getD 1 0 &&& 0x7f)=hdr at *
  rw [wsHdrMax]
  split_ifs at hpos ⊢ <;> simp only at hpos ⊢ <;> omega

theorem wsParseHeader_known {s : Bytes} {max : Nat} {h : WsHdr}
    (hpos : 0 < (wsParseHeader s max h).1) :
    ¬(wsOpBinary < (wsParseHeader s max h).2.opcode ∧ (wsParseHeader s max h).2.opcode < wsOpClose ∨
        wsOpPong < (wsParseHeader s max h).2.opcode) ∧
      (wsOpClose≤(wsParseHeader s max h).2.opcode →
        (wsParseHeader s max h).2.payloadLen≤125) := by
  unfold wsParseHeader at hpos ⊢
  dsimp only at hpos ⊢
  split_ifs at hpos ⊢ with h1 h2 h3 h4 h5 h6 h7 h8
  all_goals first
    | exact ⟨h3,fun hc => Nat.not_lt.mp fun hlt => h5 ⟨hc,.inr hlt⟩⟩
    | exact absurd hpos (lt_irrefl _)
    | exact absurd hpos (by simp)

theorem wsParseHeader_init (s : Bytes) (max : Nat) (h h' : WsHdr) :
    (wsParseHeader s max h').1=(wsParseHeader s max h).1 ∧
      (0 < (wsParseHeader s max h).1 → (wsParseHeader s max h').2=(wsParseHeader s max h).2) := by
  by_cases h2 : s.length<2
  · have h0 := wsParseHeader_short max h h2
    exact ⟨by rw [h0,wsParseHeader_short max h' h2],fun hpos => by omega⟩
  · have hgo : ∀ a b : WsHdr,(wsParseHeader s max a).1≠0 →
        (wsParseHeader s max b).1=(wsParseHeader s max a).1 ∧
        (0 < (wsParseHeader s max a).1 → (wsParseHeader s max b).2=(wsParseHeader s max a).2) := by
      intro a b hne
      refine wsParseHeader_congr (m := s.length) rfl le_rfl le_rfl (by omega) hne ?_ fun _ => rfl
      by_cases hpos : 0 < (wsParseHeader s max a).1
      · exact (wsParseHeader_pos hpos).2.1
      · omega
    by_cases h0 : (wsParseHeader s max h).1=0
    · by_cases h0' : (wsParseHeader s max h').1=0
      · exact ⟨by rw [h0,h0'],fun hpos => by omega⟩
      · exact absurd ((hgo h' h h0').1.symm.trans h0) h0'
    · exact hgo h h' h0

def wsHead (max : Nat) (s : Bytes) : Head :=
  if (wsParseHeader s max {}).1<0 then .bad
  else if (wsParseHeader s max {}).1=0 then .short
  else .frame ((wsParseHeader s max {}).1.toNat+(wsParseHeader s max {}).2.payloadLen)

theorem wsHead_frame {max n : Nat} {s : Bytes} (h : wsHead max s=.frame n) :
    0 < (wsParseHeader s max {}).1 ∧
      n=(wsParseHeader s max {}).1.toNat+(wsParseHeader s max {}).2.payloadLen := by
  rw [wsHead] at h
  split_ifs at h
  exact ⟨by omega,(Head.frame.inj h).symm⟩

def wsFormat (max : Nat) : Format where
  head := wsHead max
  stable s d h := by
    have hne : (wsParseHeader s max {}).1≠0 := by
      intro h0
      refine h ?_
      rw [wsHead,h0]
      rfl
    have h2 : 2 ≤ s.length := by
      by_contra hlt
      exact hne (wsParseHeader_short max {} (by omega))
    have hle : (wsParseHeader s max {}).1 ≤ s.length := by
      by_cases hpos : 0 < (wsParseHeader s max {}).1
      · exact (wsParseHeader_pos hpos).2.1
      · omega
    obtain ⟨h1,hh⟩ := wsParseHeader_congr (t := s++d) (k := {}) (by simp) le_rfl (by simp) h2 hne hle
      fun _ => rfl
    rw [wsHead,wsHead,h1]
    split_ifs with hneg
    · rfl
    · rw [hh (by omega)]
  pos h := by
    obtain ⟨hpos,rfl⟩ := wsHead_frame h
    omega
  inside {s n} h hn := by
    obtain ⟨hpos,rfl⟩ := wsHead_frame h
    obtain ⟨h2,hle,-⟩ := wsParseHeader_pos hpos
    generalize hm : (wsParseHeader s max {}).1.toNat=m at hn ⊢
    have hst : s.take m=(s.take (m+(wsParseHeader s max {}).2.payloadLen)).take m := by
      rw [List.take_take,Nat.min_eq_left (Nat.le_add_right _ _)]
    obtain ⟨h1,hh⟩ := wsParseHeader_congr (k := {}) hst (by omega)
      (by rw [List.length_take]; omega) (by omega) (by omega : (wsParseHeader s max {}).1≠0)
      (by omega) (by omega)
    rw [wsHead,h1,if_neg (by omega),if_neg (by omega),hh hpos,hm]

/-- The opcodes there are, and no control frame of more than 125 bytes. -/
def WsAllowed (opcode : UInt8) (len : Nat) : Prop :=
  opcode∈[wsOpCont,wsOpText,wsOpBinary] ∨ opcode∈[wsOpClose,wsOpPing,wsOpPong] ∧ len≤125

theorem wsAllowed_bits {opcode : UInt8} {len : Nat} (h : WsAllowed opcode len) :
    let b := 0x80 ||| (opcode &&& 0x0f)
    b &&& 0x70=0 ∧ b &&& 0x80≠0 ∧ b &&& 0x0f=opcode ∧
      ¬(wsOpBinary < opcode ∧ opcode < wsOpClose ∨ wsOpPong < opcode) ∧
      (wsOpClose≤opcode → len≤125) := by
  simp only [WsAllowed,List.mem_cons,List.not_mem_nil,or_false] at h
  rcases h with (rfl | rfl | rfl) | ⟨rfl | rfl | rfl,hlen⟩
  · exact ⟨by decide,by decide,by decide,by decide,fun h => absurd h (by decide)⟩
  · exact ⟨by decide,by decide,by decide,by decide,fun h => absurd h (by decide)⟩
  · exact ⟨by decide,by decide,by decide,by decide,fun h => absurd h (by decide)⟩
  · exact ⟨by decide,by decide,by decide,by decide,fun _ => hlen⟩
  · exact ⟨by decide,by decide,by decide,by decide,fun _ => hlen⟩
  · exact ⟨by decide,by decide,by decide,by decide,fun _ => hlen⟩

theorem wsParseHeader_parts {opcode l : UInt8} {len max : Nat} {ext c : Bytes}
    {mask : Option Bytes} (h : WsHdr) (hop : WsAllowed opcode len) (hl : l<128)
    (hmask : ∀m,mask=some m → m.length=4) (hmax : len ≤ max) (hext : ext.length+2=wsLenEnd l)
    (hlen : ∀ b0 b1 more,wsLen (b0::b1::(ext++more)) l=len) :
    wsParseHeader ((0x80 ||| (opcode &&& 0x0f))::
        ((if mask.isSome then 0x80 else 0) ||| l)::(ext++(mask.getD []++c))) max h=
      (((wsLenEnd l+(mask.getD []).length : Nat) : Int),
        ⟨opcode,true,mask.isSome,mask.getD [0,0,0,0],len⟩) := by
  obtain ⟨hrsv,hfin,hcode,hknown,hctl⟩ := wsAllowed_bits hop
  obtain ⟨hz,h7,hz',h7'⟩ := low_byte hl
  have hb1 : ((if mask.isSome then 0x80 else 0) ||| l) &&& 0x7f=l ∧
      decide (((if mask.isSome then 0x80 else 0) ||| l) &&& 0x80≠0)=mask.isSome := by
    cases mask with
    | none => simp [h7,hz]
    | some m => simp [UInt8.or_comm 0x80 l,h7',hz']
  have hn : ∀ b0 b1,(b0::b1::(ext++(mask.getD []++c))).length=
      wsLenEnd l+(mask.getD []).length+c.length := by
    intro b0 b1
    rw [List.length_cons,List.length_cons,List.length_append,List.length_append]
    omega
  have hge := wsLenEnd_ge l
  unfold wsParseHeader
  dsimp only
  rw [hn,if_neg (by omega)]
  simp only [List.getD_cons_zero,List.getD_cons_succ]
  rw [hb1.1,hb1.2,hrsv,if_neg (not_not.mpr rfl),hcode,if_neg hknown,if_neg (by omega),hlen,
    if_neg (by rintro ⟨hc,hf | hl⟩; · exact hfin (by simpa using hf)
               · have := hctl hc; omega),if_neg (by omega),decide_eq_true hfin]
  cases mask with
  | none =>
    rw [if_neg (show ¬(none : Option Bytes).isSome=true by decide)]
    rfl
  | some m =>
    have hm := hmask m rfl
    have hdrop : (((0x80 ||| (opcode &&& 0x0f))::
        ((if (some m).isSome then 0x80 else 0) ||| l)::(ext++(m++c))).drop (wsLenEnd l)).take 4=
        m := by
      rw [← hext,List.drop_succ_cons,List.drop_succ_cons,List.drop_left,← hm,List.take_left]
    simp only [Option.getD_some] at hdrop ⊢
    rw [if_pos (show (some m).isSome=true from rfl),if_neg (by omega),hdrop,hm]
    rfl

theorem wsParseHeader_build (opcode : UInt8) (len : UInt32) (mask : Option Bytes) (max : Nat)
    (rest : Bytes) (h : WsHdr) (hop : WsAllowed opcode len.toNat)
    (hmask : ∀m,mask=some m → m.length=4) (hmax : len.toNat ≤ max) :
    wsParseHeader (wsBuildHeader opcode len mask++rest) max h=
      (((wsBuildHeader opcode len mask).length : Int),
        ⟨opcode,true,mask.isSome,mask.getD [0,0,0,0],len.toNat⟩) := by
  have hlt := len.toNat_lt
  unfold wsBuildHeader
  dsimp only
  by_cases h126 : len<126
  · have hl : len.toUInt8.toNat=len.toNat := by
      rw [UInt32.lt_iff_toNat_lt] at h126
      rw [UInt32.toNat_toUInt8]
      exact Nat.mod_eq_of_lt (h126.trans (by decide))
    have hsmall : len.toUInt8.toNat<126 := hl ▸ UInt32.lt_iff_toNat_lt.mp h126
    have hne : len.toUInt8≠126 ∧ len.toUInt8≠127 :=
      ⟨fun he => by rw [he] at hsmall; exact absurd hsmall (by decide),
        fun he => by rw [he] at hsmall; exact absurd hsmall (by decide)⟩
    have := wsParseHeader_parts (l := len.toUInt8) (c := rest) h hop
      (UInt8.lt_iff_toNat_lt.mpr (by change _<128; omega)) hmask hmax
      (show ([] : Bytes).length+2=_ by rw [wsLenEnd,if_neg hne.1,if_neg hne.2]; rfl)
      fun _ _ _ => by rw [wsLen,if_neg hne.1,if_neg hne.2,hl]
    have hend : wsLenEnd len.toUInt8=2 := by rw [wsLenEnd,if_neg hne.1,if_neg hne.2]
    rw [hend] at this
    rw [if_pos h126]
    simp only [List.cons_append,List.nil_append,List.length_cons] at this ⊢
    rw [show (mask.getD []).length+1+1=2+(mask.getD []).length by omega]
    exact this
  · rw [if_neg h126]
    by_cases h16 : len≤0xffff
    · rw [if_pos h16]
      have hle : len.toNat≤65535 := UInt32.le_iff_toNat_le.mp h16
      have hlen : ∀ b0 b1 more,wsLen (b0::b1::([(len>>>8).toUInt8,len.toUInt8]++more)) 126=
          len.toNat := by
        intro b0 b1 more
        rw [wsLen,if_pos rfl]
        simp only [List.cons_append,List.getD_cons_succ,List.getD_cons_zero,shiftLeft_or_byte]
        simp only [UInt32.toNat_toUInt8,UInt32.toNat_shiftRight,UInt32.reduceToNat,Nat.reduceMod,
          Nat.shiftRight_eq_div_pow]
        omega
      have := wsParseHeader_parts (l := 126) (c := rest) h hop (by decide) hmask hmax rfl hlen
      rw [show wsLenEnd 126=4 from rfl] at this
      simp only [List.cons_append,List.nil_append,List.length_cons] at this ⊢
      rw [show (mask.getD []).length+1+1+1+1=4+(mask.getD []).length by omega]
      exact this
    · rw [if_neg h16]
      have hlen : ∀ b0 b1 more,wsLen (b0::b1::(([0,0,0,0,(len>>>24).toUInt8,
          (len>>>16).toUInt8,(len>>>8).toUInt8,len.toUInt8] : Bytes)++more)) 127=len.toNat := by
        intro b0 b1 more
        rw [wsLen,if_neg (by decide),if_pos rfl]
        simp only [List.cons_append,List.nil_append,List.drop_succ_cons,List.drop_zero,
          List.take_succ_cons,List.take_zero,List.foldl_cons,List.foldl_nil,shiftLeft_or_byte]
        simp only [UInt32.toNat_toUInt8,UInt32.toNat_shiftRight,UInt32.reduceToNat,Nat.reduceMod,
          Nat.shiftRight_eq_div_pow,UInt8.reduceToNat]
        omega
      have := wsParseHeader_parts (l := 127) (c := rest) h hop (by decide) hmask hmax rfl hlen
      rw [show wsLenEnd 127=10 from rfl] at this
      simp only [List.cons_append,List.nil_append,List.length_cons] at this ⊢
      rw [show (mask.getD []).length+1+1+1+1+1+1+1+1+1+1=10+(mask.getD []).length by omega]
      exact this

end LugalOS.Httpd
