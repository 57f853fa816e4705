import LugalOS.Der.Reader

namespace LugalOS.Der

open CString Memory Forest

variable {w : Writer}

def headerLen (n : Nat) : Nat := 1+(lenBytes n).length

/-- The content of the INTEGER that der_put_uint writes. -/
def uintContent (be : Bytes) : Bytes :=
  if needsPad (stripZeros be) then 0::stripZeros be else stripZeros be

/-- The sums of a header and n bytes of content, of which pad are written by themselves, have 32
bits wherever they are formed. -/
def Room (w : Writer) (n pad : Nat) : Prop :=
  n<2^32 ∧ (n<0x10000 → w.len+headerLen n+pad≤w.cap → w.len+headerLen n+n<2^32)

/-- A call that fails for another reason than the room. -/
structure Refused (w w' : Writer) : Prop where
  err : w'.err=true
  cap : w'.cap=w.cap
  inside : w'.Inside

theorem putHeader_wrote (h : w.Inside) (he : w.err=false) (tag : UInt8) {n : Nat} (hn : n<0x10000) :
    Wrote w (tag::lenBytes n) (putHeader w tag n) := by
  have h0 := putByte_wrote h he tag
  unfold putHeader lenBytes
  split_ifs
  · exact h0.byte _
  · exact (h0.byte _).byte _
  · exact ((h0.byte _).byte _).byte _

theorem putHeader_refused (h : w.Inside) (he : w.err=false) (tag : UInt8) {n : Nat}
    (hn : ¬n<0x10000) : Refused w (putHeader w tag n) := by
  have h0 := putByte_wrote h he tag
  rw [putHeader,if_neg (by omega),if_neg (by omega),if_neg hn]
  exact ⟨rfl,h0.cap,h0.inside.fail⟩

theorem putContent_err {val : Bytes} (he : w.err=true) : putContent w val=w := by
  rw [putContent,if_pos he]

theorem Wrote.content {w' : Writer} {bs c : Bytes} (h : Wrote w bs w')
    (hr : w.len+bs.length≤w.cap → w.len+bs.length+c.length<2^32) :
    Wrote w (bs++c) (putContent w' c) := by
  refine h.trans (fun he hi hl => putContent_wrote hi he ?_) putContent_err
  have hc := h.cap
  have hle := hi.len
  rw [hl]
  exact hr (by omega)

theorem header_length (tag : UInt8) (n : Nat) : (tag::lenBytes n).length=headerLen n := by
  rw [List.length_cons,Nat.add_comm,headerLen]

theorem derPut_spec (h : w.Inside) (he : w.err=false) (tag : UInt8) {val : Bytes}
    (hr : Room w val.length 0) :
    if val.length<0x10000 then Wrote w (element tag val) (derPut w tag val)
    else Refused w (derPut w tag val) := by
  split_ifs with hn
  · exact (putHeader_wrote h he tag hn).content (by rw [header_length]; exact hr.2 hn)
  · have hh := putHeader_refused h he tag hn
    rw [derPut,putContent_err hh.err]
    exact hh

theorem uintContent_length (be : Bytes) :
    (uintContent be).length=(stripZeros be).length+if needsPad (stripZeros be) then 1 else 0 := by
  rw [uintContent]
  split_ifs <;> simp

theorem derPutUint_spec (h : w.Inside) (he : w.err=false) {be : Bytes}
    (hr : Room w (uintContent be).length (if needsPad (stripZeros be) then 1 else 0)) :
    if (uintContent be).length<0x10000 then
      Wrote w (element derInteger (uintContent be)) (derPutUint w be)
    else Refused w (derPutUint w be) := by
  have hl := uintContent_length be
  have hhead := header_length derInteger (uintContent be).length
  rw [derPutUint,add32,← hl,Nat.mod_eq_of_lt hr.1]
  split_ifs with hn hp hp
  · have hroom := hr.2 hn
    have hc : uintContent be=[0]++stripZeros be := by rw [uintContent,if_pos hp]; rfl
    rw [if_pos hp] at hl hroom
    rw [element,hc,← List.cons_append,← List.append_assoc,← hc]
    refine ((putHeader_wrote h he derInteger hn).byte 0).content fun hle => ?_
    rw [List.length_append,hhead,List.length_singleton] at hle ⊢
    omega
  · have hroom := hr.2 hn
    have hc : uintContent be=stripZeros be := by rw [uintContent,if_neg hp]
    rw [if_neg hp] at hl hroom
    rw [element,← List.cons_append,← hc]
    refine (putHeader_wrote h he derInteger hn).content fun hle => ?_
    rw [hhead] at hle ⊢
    exact hroom (by omega)
  · have hh := putHeader_refused h he derInteger hn
    rw [putByte_err hh.err,putContent_err hh.err]
    exact hh
  · have hh := putHeader_refused h he derInteger hn
    rw [putContent_err hh.err]
    exact hh

theorem derPutRaw_spec (h : w.Inside) (he : w.err=false) {der : Bytes}
    (hr : w.len+der.length<2^32) : Wrote w der (derPutRaw w der) := putContent_wrote h he hr

/-- What opening an element comes to. -/
inductive Opened (w : Writer) (tag : UInt8) (w' : Writer) : Prop
  | ok : w'.err=false → w'.out=w.out++[tag,0] → w'.len=w.len+2 → w'.opens=(w.len+1)::w.opens →
      w'.cap=w.cap → w'.Inside → Opened w tag w'
  | full : w'.err=true → w'.cap=w.cap → w.cap<w.len+2 → w'.Inside → Opened w tag w'

theorem derBegin_spec (h : w.Inside) (he : w.err=false) (tag : UInt8) :
    if w.opens.length<derMaxDepth then Opened w tag (derBegin w tag)
    else Refused w (derBegin w tag) := by
  rw [derBegin,if_neg (show ¬w.err=true by rw [he]; exact Bool.false_ne_true)]
  by_cases hd : w.opens.length<derMaxDepth
  · rw [if_pos hd,if_neg (by omega)]
    have h0 := putByte_wrote h he tag
    generalize putByte w tag=w1 at h0 ⊢
    cases h0 with
    | full he1 hc1 hf1 hi1 =>
      have hw : putByte {w1 with opens := w1.len::w1.opens} 0=
          {w1 with opens := w1.len::w1.opens} := putByte_err he1
      rw [hw]
      exact .full he1 hc1 (by rw [List.length_singleton] at hf1; omega) ⟨hi1.size,hi1.cap,hi1.len⟩
    | ok he1 ho1 hl1 hop1 hc1 hi1 =>
      rw [List.length_singleton] at hl1
      have hi2 : ({w1 with opens := w1.len::w1.opens} : Writer).Inside := ⟨hi1.size,hi1.cap,hi1.len⟩
      cases putByte_wrote hi2 he1 0 with
      | ok he2 ho2 hl2 hop2 hc2 hi2 =>
        refine .ok he2 ?_ (hl2.trans ?_) (hop2.trans ?_) (hc2.trans hc1) hi2
        · rw [ho2]
          change w1.out++[0]=_
          rw [ho1,List.append_assoc]
          rfl
        · rw [List.length_singleton]; dsimp only; omega
        · dsimp only; rw [hl1,hop1]
      | full he2 hc2 hf2 hi2 =>
        refine .full he2 (hc2.trans hc1) ?_ hi2
        rw [List.length_singleton] at hf2
        dsimp only at hf2
        omega
  · rw [if_neg hd,if_pos (by omega)]
    exact ⟨rfl,rfl,h.fail⟩

/-- What closing an element comes to: its length stands in front of its content. -/
inductive Closed (w : Writer) (at' : Nat) (opens : List Nat) (w' : Writer) : Prop
  | ok : w'.err=false →
      w'.out=w.out.take at'++(lenBytes (w.len-(at'+1))++w.out.drop (at'+1)) →
      w'.len=at'+(lenBytes (w.len-(at'+1))).length+(w.len-(at'+1)) → w'.opens=opens →
      w'.cap=w.cap → w'.Inside → Closed w at' opens w'
  | full : w'.err=true → w'.cap=w.cap →
      w.cap<at'+(lenBytes (w.len-(at'+1))).length+(w.len-(at'+1)) → w'.Inside → Closed w at' opens w'

theorem moved_out (h : w.Inside) {at' extra : Nat} (hat : at'+1≤w.len) (hr : w.len+extra≤w.cap)
    {o : UInt8} {os : Bytes} (ho : os.length=extra) :
    let buf := store w.buf (at'+1+extra) ((w.buf.drop (at'+1)).take (w.len-(at'+1)))
    (store (store buf at' [o]) (at'+1) os).take (w.len+extra)=
        w.out.take at'++((o::os)++w.out.drop (at'+1)) ∧
      (store (store buf at' [o]) (at'+1) os).length=w.cap := by
  have hsize := h.size
  obtain ⟨A,l1,h1,hA⟩ := exists_cut w.buf (show at'≤w.buf.length by omega)
  have hl1 : l1.length=w.cap-at' := by
    have := congrArg List.length h1
    rw [List.length_append] at this
    omega
  obtain ⟨B,l2,h2,hB⟩ := exists_cut l1 (show 1≤l1.length by omega)
  have hl2 : l2.length=w.cap-(at'+1) := by
    have := congrArg List.length h2
    rw [List.length_append] at this
    omega
  obtain ⟨X,l3,h3,hX⟩ := exists_cut l2 (show extra≤l2.length by omega)
  have hl3 : l3.length=w.cap-(at'+1)-extra := by
    have := congrArg List.length h3
    rw [List.length_append] at this
    omega
  obtain ⟨Y,T,h4,hY⟩ := exists_cut l3 (show w.len-(at'+1)≤l3.length by omega)
  have hdrop : w.buf.drop (at'+1)=l2 := by
    rw [h1,h2,← List.append_assoc]
    exact List.drop_left' (by rw [List.length_append]; omega)
  set c := l2.take (w.len-(at'+1)) with hc
  have hcl : c.length=w.len-(at'+1) := by rw [hc,List.length_take]; omega
  have hout : w.out.drop (at'+1)=c := by rw [hc,← hdrop,Writer.out,List.drop_take]
  have htake : w.out.take at'=A := by
    rw [Writer.out,List.take_take,Nat.min_eq_left (by omega),h1]
    exact List.take_left' hA
  -- the buffer in parts: what is before the length byte, it, the room, the old content, the rest
  have e1 : store w.buf (at'+1+extra) c=A++(B++(X++(c++T))) := by
    have hm := store_mid (A++(B++X)) T (hY.trans hcl.symm)
    have hp : (A++(B++X)).length=at'+1+extra := by
      rw [List.length_append,List.length_append]; omega
    rw [hp,List.append_assoc,List.append_assoc,← h4,← h3,← h2,← h1] at hm
    rw [hm,List.append_assoc,List.append_assoc]
  have e2 : store (A++(B++(X++(c++T)))) at' [o]=A++([o]++(X++(c++T))) := by
    rw [← hA]
    exact store_mid A _ hB
  have e3 : store (A++([o]++(X++(c++T)))) (at'+1) os=A++([o]++(os++(c++T))) := by
    have hm := store_mid (A++[o]) (c++T) (hX.trans ho.symm)
    have hp : (A++[o]).length=at'+1 := by rw [List.length_append,hA,List.length_singleton]
    rw [hp,List.append_assoc,List.append_assoc] at hm
    exact hm
  dsimp only
  rw [hdrop,← hc,e1,e2,e3,hout,htake]
  constructor
  · rw [show A++([o]++(os++(c++T)))=(A++((o::os)++c))++T by simp]
    refine List.take_left' ?_
    rw [List.length_append,List.length_append,List.length_cons]
    omega
  · simp only [List.length_append,List.length_singleton]
    have := congrArg List.length h4
    rw [List.length_append] at this
    omega

theorem derEnd_spec (h : w.Inside) (he : w.err=false) {at' : Nat} {opens : List Nat}
    (hop : w.opens=at'::opens) (hat : at'+1≤w.len)
    (hr : w.len+lenExtra (w.len-(at'+1))<2^32) :
    if w.len-(at'+1)<0x10000 then Closed w at' opens (derEnd w) else Refused w (derEnd w) := by
  have hcap := h.len
  have hsize := h.size
  rw [derEnd,if_neg (show ¬w.err=true by rw [he]; exact Bool.false_ne_true),hop]
  dsimp only
  generalize hL : w.len-(at'+1)=L at *
  by_cases h1 : L<0x80
  · have hb : lenBytes L=[L.toUInt8] := if_pos h1
    have hm := moved_out h hat (show w.len+0≤w.cap by omega) (o := L.toUInt8)
      (show ([] : Bytes).length=0 from rfl)
    dsimp only at hm
    rw [Nat.add_zero,store_self,store_nil] at hm
    rw [if_pos (show L<0x10000 by omega),if_pos h1]
    refine .ok he ?_ ?_ rfl rfl ⟨hm.2,h.cap,hcap⟩
    · rw [hL,hb]; exact hm.1
    · rw [hL,hb,List.length_singleton]; dsimp only; omega
  rw [if_neg h1,add32,Nat.mod_eq_of_lt hr]
  by_cases h2 : L<0x100
  · have hx : lenExtra L=1 := if_pos h2
    have hb : lenBytes L=[(0x81 : UInt8),L.toUInt8] := by rw [lenBytes,if_neg h1,if_pos h2]
    rw [if_pos (show L<0x10000 by omega),hx]
    by_cases hc : w.cap<w.len+1
    · rw [if_pos (.inr hc)]
      refine .full rfl rfl ?_ ⟨hsize,h.cap,hcap⟩
      rw [hL,hb]
      simp only [List.length_cons,List.length_nil]
      omega
    · have hm := moved_out h hat (show w.len+1≤w.cap by omega) (o := 0x81)
        (show [L.toUInt8].length=1 from rfl)
      rw [hL] at hm
      rw [if_neg (by omega),if_neg (by decide)]
      refine .ok he ?_ ?_ rfl rfl ⟨hm.2,h.cap,by dsimp only; omega⟩
      · rw [hL,hb]; exact hm.1
      · rw [hL,hb]; simp only [List.length_cons,List.length_nil]; omega
  by_cases h3 : L<0x10000
  · have hx : lenExtra L=2 := by rw [lenExtra,if_neg h2,if_pos h3]
    have hb : lenBytes L=[(0x82 : UInt8),(L>>>8).toUInt8,L.toUInt8] := by
      rw [lenBytes,if_neg h1,if_neg h2,if_pos h3]
    rw [if_pos h3,hx]
    by_cases hc : w.cap<w.len+2
    · rw [if_pos (.inr hc)]
      refine .full rfl rfl ?_ ⟨hsize,h.cap,hcap⟩
      rw [hL,hb]
      simp only [List.length_cons,List.length_nil]
      omega
    · have hm := moved_out h hat (show w.len+2≤w.cap by omega) (o := 0x82)
        (show [(L>>>8).toUInt8,L.toUInt8].length=2 from rfl)
      rw [hL] at hm
      dsimp only at hm
      rw [if_neg (by omega),if_pos rfl]
      have hlen : ((w.buf.drop (at'+1)).take L).length=L := by
        rw [List.length_take,List.length_drop]; omega
      have hin1 : at'+1+2+((w.buf.drop (at'+1)).take L).length≤w.buf.length := by omega
      have hin2 : at'+[(0x82 : UInt8)].length≤
          (store w.buf (at'+1+2) ((w.buf.drop (at'+1)).take L)).length := by
        rw [store_length hin1,List.length_singleton]; omega
      have hpair := store_append [(L>>>8).toUInt8] [L.toUInt8]
        (show at'+1+1+1≤(store (store w.buf (at'+1+2) ((w.buf.drop (at'+1)).take L)) at'
          [0x82]).length by rw [store_length hin2,store_length hin1]; omega)
      refine .ok he ?_ ?_ rfl rfl ⟨?_,h.cap,by dsimp only; omega⟩
      · rw [hL,hb]
        refine Eq.trans ?_ hm.1
        exact congrArg (fun l : Bytes => l.take (w.len+2)) hpair
      · rw [hL,hb]; simp only [List.length_cons,List.length_nil]; omega
      · exact (congrArg List.length hpair).trans hm.2
  · rw [if_neg h3,lenExtra,if_neg h2,if_neg h3,if_pos (.inl rfl)]
    exact ⟨rfl,rfl,⟨hsize,h.cap,hcap⟩⟩

end LugalOS.Der
