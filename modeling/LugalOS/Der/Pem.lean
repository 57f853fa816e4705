import LugalOS.Der.Base64

namespace LugalOS.Der

open CString Memory

/-- UINT32_MAX in place of an offset, once something did not fit. -/
def noRoom : Nat := 2^32-1

def putStr (cap : Nat) (p : Bytes × Nat) (s : Bytes) : Bytes × Nat :=
  if p.2=noRoom ∨ cap < add32 p.2 s.length then (p.1,noRoom)
  else (store p.1 p.2 s,add32 p.2 s.length)

def dashes : Bytes := ofString "-----"
def beginWord : Bytes := ofString "-----BEGIN "
def endWord : Bytes := ofString "-----END "

/-- The loop of pem_encode over lines of 48 bytes, n of them at most; the buffer alone where it
returns 0. -/
def pemLines (cap : Nat) : Nat → Bytes → Bytes × Nat → Except Bytes (Bytes × Nat)
  | 0,_,p => .ok p
  | n+1,der,p =>
    if der=[] ∨ p.2=noRoom then .ok p
    else
      let line := base64Encode (der.take 48) (cap-p.2)
      if line=[] then .error p.1
      else pemLines cap n (der.drop 48)
        (putStr cap (store p.1 p.2 line,add32 p.2 line.length) [newline])

/-- pem_encode: what it returns, and the buffer. -/
def pemEncode (label der buf : Bytes) (cap : Nat) : Nat × Bytes :=
  let p := putStr cap (putStr cap (putStr cap (buf,0) beginWord) label) (dashes++[newline])
  match pemLines cap der.length der p with
  | .error buf => (0,buf)
  | .ok p =>
    let p := putStr cap (putStr cap (putStr cap p endWord) label) (dashes++[newline])
    (if p.2=noRoom then 0 else p.2,p.1)

/-- The loop of find, n turns of it at most. -/
def findLoop (hay needle : Bytes) : Nat → Nat → Option Nat
  | 0,_ => none
  | n+1,i =>
    if hay.length < add32 i needle.length then none
    else if (hay.drop i).take needle.length=needle then some i
    else findLoop hay needle n (i+1)

/-- find, as an int32_t. -/
def find (hay : Bytes) (start : Nat) (needle : Bytes) : Int :=
  match findLoop hay needle (hay.length+1) start with
  | some i => toInt i
  | none => -1

def beginMarker (label : Bytes) : Bytes := beginWord++label++dashes
def endMarker (label : Bytes) : Bytes := endWord++label++dashes

/-- pem_decode: its result, the offset it puts into end, and what it wrote to der. -/
def pemDecode (text label : Bytes) (cap : Nat) : Int × Option Nat × Bytes :=
  if 48 < label.length+17 then (-1,none,[])
  else
    let b := find text 0 (beginMarker label)
    if b<0 then (-1,none,[])
    else
      let body := b.toNat+(beginMarker label).length
      let e := find text body (endMarker label)
      if e<0 then (-1,none,[])
      else
        let (got,out) := base64Decode ((text.drop body).take (e.toNat-body)) cap
        (got,some (e.toNat+(endMarker label).length),out)

def pemBody : Nat → Bytes → Bytes
  | 0,_ => []
  | n+1,der => if der=[] then [] else base64Loop (der.take 48)++newline::pemBody n (der.drop 48)

def pemText (label der : Bytes) : Bytes :=
  beginMarker label++newline::(pemBody der.length der++endMarker label++[newline])

/-- What the buffer holds when t was to be put into it. -/
inductive Putting (cap : Nat) (t : Bytes) (p : Bytes × Nat) : Prop
  | ok : p.1.length=cap → p.2=t.length → t.length≤cap → p.1.take t.length=t → Putting cap t p
  | full : p.1.length=cap → p.2=noRoom → cap < t.length → Putting cap t p

section Encode

variable {cap : Nat} {t : Bytes} {p : Bytes × Nat}

theorem Putting.putStr (h : Putting cap t p) (hcap : cap<2^31) {s : Bytes} (hs : s.length<2^31) :
    Putting cap (t++s) (putStr cap p s) := by
  cases h with
  | full hb ho hf =>
    rw [Der.putStr,if_pos (.inl ho)]
    exact .full hb rfl (by rw [List.length_append]; omega)
  | ok hb ho hle ht =>
    have hadd : add32 p.2 s.length=t.length+s.length := by
      rw [add32,ho]
      omega
    have hne : p.2≠noRoom := by
      rw [ho,noRoom]
      omega
    rw [Der.putStr,hadd]
    by_cases hc : cap < t.length+s.length
    · rw [if_pos (.inr hc)]
      exact .full hb rfl (by rw [List.length_append]; omega)
    · rw [if_neg (fun h => h.elim hne hc)]
      have hroom : p.2+s.length≤p.1.length := by omega
      apply Putting.ok
      · exact (store_length hroom).trans hb
      · rw [List.length_append]
      · rw [List.length_append]
        omega
      · rw [List.length_append,← ho]
        exact (store_take hroom).trans (by rw [ho,ht])

theorem Putting.more (h : Putting cap t p) (hn : p.2=noRoom) (hcap : cap<2^31) (s : Bytes) :
    Putting cap (t++s) p := by
  cases h with
  | full hb ho hf => exact .full hb ho (by rw [List.length_append]; omega)
  | ok hb ho hle ht =>
    rw [noRoom] at hn
    omega

theorem Putting.pemLines (hcap : cap<2^31) (n : Nat) (der : Bytes) (h : Putting cap t p) :
    match Der.pemLines cap n der p with
    | .ok q => Putting cap (t++pemBody n der) q
    | .error _ => cap < (t++pemBody n der).length := by
  induction n generalizing der t p with
  | zero => simpa [Der.pemLines,pemBody] using h
  | succ n ih =>
    rw [Der.pemLines,pemBody]
    by_cases hd : der=[]
    · rw [if_pos (.inl hd),if_pos hd,List.append_nil]
      exact h
    by_cases hno : p.2=noRoom
    · rw [if_pos (.inr hno)]
      exact h.more hno hcap _
    rw [if_neg fun hor => hor.elim hd hno,if_neg hd]
    cases h with
    | full _ ho _ => exact absurd ho hno
    | ok hb ho hle ht =>
      have hlen := base64Loop_length (der.take 48)
      have htake : (der.take 48).length≤48 := List.length_take_le 48 der
      have hpos : 0 < (der.take 48).length := by
        rw [List.length_take]
        have := List.length_pos_iff.mpr hd
        omega
      have henc : base64Encode (der.take 48) (cap-p.2)=if cap-p.2 < (base64Loop (der.take 48)).length
          then [] else base64Loop (der.take 48) := by
        rw [hlen]
        exact base64Encode_eq (by omega)
      dsimp only
      rw [henc]
      by_cases hc : cap-p.2 < (base64Loop (der.take 48)).length
      · rw [if_pos hc,if_pos rfl]
        dsimp only
        rw [List.length_append,List.length_append]
        omega
      · have hne : base64Loop (der.take 48)≠[] := by
          rw [← List.length_pos_iff]
          omega
        rw [if_neg hc,if_neg hne]
        have hline : Putting cap (t++base64Loop (der.take 48))
            (store p.1 p.2 (base64Loop (der.take 48)),add32 p.2 (base64Loop (der.take 48)).length) := by
          have hroom : p.2+(base64Loop (der.take 48)).length≤p.1.length := by omega
          apply Putting.ok
          · exact (store_length hroom).trans hb
          · rw [List.length_append,add32]
            omega
          · rw [List.length_append]
            omega
          · rw [List.length_append,← ho]
            exact (store_take hroom).trans (by rw [ho,ht])
        have hnext := ih (der.drop 48) (hline.putStr hcap (s := [newline]) (by decide))
        simpa only [List.append_assoc,List.singleton_append] using hnext

theorem pemEncode_text {label der buf : Bytes} (hbuf : buf.length=cap) (hcap : cap<2^31)
    (hl : label.length≤31) (h : (pemEncode label der buf cap).1≠0) :
    (pemEncode label der buf cap).1=(pemText label der).length ∧
      (pemEncode label der buf cap).2.take (pemEncode label der buf cap).1=pemText label der := by
  have hstart : Putting cap [] (buf,0) := .ok hbuf rfl (Nat.zero_le _) rfl
  have hhead := ((hstart.putStr hcap (s := beginWord) (by decide)).putStr hcap (s := label)
    (by omega)).putStr hcap (s := dashes++[newline]) (by decide)
  have hlines := hhead.pemLines hcap der.length der
  unfold pemEncode at h ⊢
  dsimp only at h ⊢
  cases hp : pemLines cap der.length der
      (putStr cap (putStr cap (putStr cap (buf,0) beginWord) label) (dashes++[newline])) with
  | error b =>
    rw [hp] at h
    exact absurd rfl h
  | ok q =>
    rw [hp] at h hlines
    have hend := ((hlines.putStr hcap (s := endWord) (by decide)).putStr hcap (s := label)
      (by omega)).putStr hcap (s := dashes++[newline]) (by decide)
    dsimp only at h ⊢
    have htext : [] ++ beginWord ++ label ++ (dashes ++ [newline]) ++ pemBody der.length der ++
        endWord ++ label ++ (dashes ++ [newline])=pemText label der := by
      simp [pemText,beginMarker,endMarker]
    rw [htext] at hend
    cases hend with
    | full _ ho _ =>
      rw [if_pos ho] at h
      exact absurd rfl h
    | ok hb ho hle ht =>
      have hne : (putStr cap (putStr cap (putStr cap q endWord) label) (dashes++[newline])).2≠
          noRoom := by
        rw [ho,noRoom]
        omega
      rw [if_neg hne]
      exact ⟨ho,ho.symm ▸ ht⟩

end Encode

section Find

variable {hay needle : Bytes}

theorem findLoop_first {k n i : Nat} (hk : needle<+:hay.drop k) (hin : k+needle.length≤hay.length)
    (hlen : hay.length<2^32) (hfirst : ∀j,i≤j → j<k → ¬needle<+:hay.drop j) (hik : i≤k)
    (hn : k-i<n) : findLoop hay needle n i=some k := by
  induction n generalizing i with
  | zero => omega
  | succ n ih =>
    have hadd : add32 i needle.length=i+needle.length := by
      rw [add32]
      omega
    rw [findLoop,hadd,if_neg (by omega)]
    by_cases he : i=k
    · subst he
      rw [if_pos (List.prefix_iff_eq_take.mp hk).symm]
    · rw [if_neg fun h => hfirst i (Nat.le_refl i) (by omega) (List.prefix_iff_eq_take.mpr h.symm)]
      exact ih (fun j hj hjk => hfirst j (by omega) hjk) (by omega) (by omega)

theorem find_first {k i : Nat} (hk : needle<+:hay.drop k) (hin : k+needle.length≤hay.length)
    (hlen : hay.length<2^31) (hfirst : ∀j,i≤j → j<k → ¬needle<+:hay.drop j) (hik : i≤k) :
    find hay i needle=k := by
  rw [find,findLoop_first hk hin (by omega) hfirst hik (by omega)]
  exact toInt_small (by omega)

end Find

section Decode

variable {cap : Nat}

theorem decode_body (n : Nat) (der : Bytes) (hn : der.length≤n) (acc : Nat) :
    ∃acc' bits' ended,∀out,out.length≤cap → decodeLoop cap (pemBody n der) ⟨acc,0,false,out⟩=
      intoRoom cap out der fun out => decodeLoop cap [] ⟨acc',bits',ended,out⟩ := by
  induction n generalizing der acc with
  | zero =>
    have hd : der=[] := List.length_eq_zero_iff.mp (by omega)
    refine ⟨acc,0,false,?_⟩
    intro out hout
    simp [hd,pemBody,intoRoom,hout]
  | succ n ih =>
    by_cases hd : der=[]
    · refine ⟨acc,0,false,?_⟩
      intro out hout
      simp [hd,pemBody,intoRoom,hout]
    obtain ⟨acc1,bits1,h1,he1⟩ :=
      decode_loop cap (der.take 48) (newline::pemBody n (der.drop 48)) acc
    have hline (out : Bytes) (ended : Bool) :
        decodeLoop cap (newline::pemBody n (der.drop 48)) ⟨acc1,bits1,ended,out⟩=
          decodeLoop cap (pemBody n (der.drop 48)) ⟨acc1,bits1,ended,out⟩ := by
      rw [decodeLoop,decodeChar_newline]
    rw [pemBody,if_neg hd]
    by_cases hlong : 48≤der.length
    · have hmod : (der.take 48).length%3=0 := by rw [List.length_take,Nat.min_eq_left hlong]
      obtain ⟨acc2,bits2,ended2,he2⟩ := ih (der.drop 48) (by rw [List.length_drop]; omega) acc1
      refine ⟨acc2,bits2,ended2,?_⟩
      intro out hout
      rw [he1 out hout]
      have hrest (o : Bytes) (ho : o.length≤cap) :
          decodeLoop cap (newline::pemBody n (der.drop 48))
            ⟨acc1,bits1,decide ((der.take 48).length%3≠0),o⟩=
          intoRoom cap o (der.drop 48) fun out => decodeLoop cap [] ⟨acc2,bits2,ended2,out⟩ := by
        rw [hline,h1 hmod,hmod]
        exact he2 o ho
      rw [intoRoom_congr hrest,intoRoom_append,List.take_append_drop]
    · -- the last line
      have hdrop : der.drop 48=[] := List.drop_eq_nil_of_le (by omega)
      have htake : der.take 48=der := List.take_of_length_le (by omega)
      rw [htake] at he1
      refine ⟨acc1,bits1,decide (der.length%3≠0),?_⟩
      intro out hout
      rw [htake,he1 out hout]
      apply intoRoom_congr
      intro o ho
      rw [hline,hdrop]
      cases n with
      | zero => rfl
      | succ n => rw [pemBody,if_pos rfl]

theorem decode_lines {der : Bytes} (hc : der.length≤cap) (hd : der.length<2^31) :
    base64Decode (newline::pemBody der.length der) cap=((der.length : Int),der) := by
  obtain ⟨acc,bits,ended,he⟩ := decode_body der.length der (Nat.le_refl _) 0
  rw [base64Decode,decodeLoop,decodeChar_newline]
  dsimp only
  rw [he [] (Nat.zero_le _),intoRoom,if_neg (by rw [List.length_nil]; omega),decodeLoop,
    List.nil_append,toInt_small hd]

theorem pemBody_dash (n : Nat) (der : Bytes) : 0x2d∉pemBody n der := by
  induction n generalizing der with
  | zero => exact List.not_mem_nil
  | succ n ih =>
    rw [pemBody]
    by_cases hd : der=[]
    · rw [if_pos hd]
      exact List.not_mem_nil
    · rw [if_neg hd,List.mem_append,List.mem_cons]
      intro h
      obtain h | h | h := h
      · exact base64Loop_dash _ h
      · exact absurd h (by decide)
      · exact ih _ h

theorem pemBody_length (n : Nat) (der : Bytes) (hn : der.length≤n) :
    der.length≤(pemBody n der).length := by
  induction n generalizing der with
  | zero => omega
  | succ n ih =>
    rw [pemBody]
    by_cases hd : der=[]
    · simp [hd]
    · have h := ih (der.drop 48) (by
        have := List.length_pos_iff.mpr hd
        rw [List.length_drop]
        omega)
      rw [List.length_drop] at h
      rw [if_neg hd,List.length_append,List.length_cons,base64Loop_length,List.length_take]
      omega

/-- The BEGIN marker of a label starts nowhere in the text in front of one. -/
def NoneBegun (label pre : Bytes) : Prop :=
  ∀i < pre.length,¬beginMarker label<+:(pre++beginMarker label).drop i

instance (label pre : Bytes) : Decidable (NoneBegun label pre) := by
  unfold NoneBegun
  infer_instance

theorem find_begin {label pre post : Bytes} (h : NoneBegun label pre)
    (hlen : (pre++(beginMarker label++post)).length<2^31) :
    find (pre++(beginMarker label++post)) 0 (beginMarker label)=pre.length := by
  apply find_first
  · rw [List.drop_left]
    exact List.prefix_append _ _
  · rw [List.length_append,List.length_append]
    omega
  · exact hlen
  · intro j _ hj hp
    apply h j hj
    rw [← List.append_assoc,List.drop_append_of_le_length (by rw [List.length_append]; omega)] at hp
    apply List.prefix_of_prefix_length_le hp (List.prefix_append _ _)
    rw [List.length_drop,List.length_append]
    omega
  · exact Nat.zero_le _

theorem find_end {label pre body post : Bytes} (h : 0x2d∉body)
    (hlen : (pre++(body++(endMarker label++post))).length<2^31) :
    find (pre++(body++(endMarker label++post))) pre.length (endMarker label)=
      ((pre.length+body.length : Nat) : Int) := by
  apply find_first
  · rw [← List.append_assoc,← List.length_append,List.drop_left]
    exact List.prefix_append _ _
  · simp only [List.length_append]
    omega
  · exact hlen
  · intro j hj hjk hp
    obtain ⟨i,rfl⟩ := Nat.exists_eq_add_of_le hj
    rw [← List.drop_drop,List.drop_left,List.drop_append_of_le_length (by omega),
      List.drop_eq_getElem_cons (by omega)] at hp
    have hhead : ∃l,endMarker label=0x2d::l := ⟨_,rfl⟩
    obtain ⟨l,hl⟩ := hhead
    rw [hl,List.cons_append,List.cons_prefix_cons] at hp
    exact h (hp.1 ▸ List.getElem_mem _)
  · omega

theorem pemDecode_text {label der pre post : Bytes} (hl : label.length≤31) (h : NoneBegun label pre)
    (hlen : (pre++pemText label der++post).length<2^31) (hc : der.length≤cap) :
    pemDecode (pre++pemText label der++post) label cap=
      ((der.length : Int),some (pre.length+(pemText label der).length-1),der) := by
  have hshape : pre++pemText label der++post=pre++(beginMarker label++
      ((newline::pemBody der.length der)++(endMarker label++(newline::post)))) := by
    simp [pemText]
  have hb : find (pre++pemText label der++post) 0 (beginMarker label)=pre.length := by
    rw [hshape] at hlen ⊢
    exact find_begin h hlen
  have he : find (pre++pemText label der++post) (pre.length+(beginMarker label).length)
      (endMarker label)=
      ((pre.length+(beginMarker label).length+(newline::pemBody der.length der).length : Nat) : Int) := by
    rw [hshape,← List.append_assoc] at hlen ⊢
    rw [← List.length_append]
    apply find_end _ hlen
    rw [List.mem_cons]
    intro hm
    exact hm.elim (by decide) (pemBody_dash _ _)
  have hbody : (((pre++pemText label der++post).drop (pre.length+(beginMarker label).length)).take
      (newline::pemBody der.length der).length)=newline::pemBody der.length der := by
    rw [hshape,← List.drop_drop,List.drop_left,List.drop_left,List.take_left]
  have hder : der.length<2^31 := by
    have := pemBody_length der.length der (Nat.le_refl _)
    simp only [pemText,List.length_append,List.length_cons] at hlen
    omega
  rw [pemDecode,if_neg (by omega)]
  dsimp only
  rw [hb,if_neg (by omega),Int.toNat_natCast,he,if_neg (by omega),Int.toNat_natCast,
    Nat.add_sub_cancel_left,hbody,decode_lines hc hder]
  simp only [pemText,List.length_append,List.length_cons,List.length_nil]
  congr 3
  omega

end Decode

/-- What pem_encode puts into its buffer decodes to the bytes again, behind any text in which its
BEGIN marker does not start and in front of any other; base64_decode takes back what base64_encode
writes, and never writes more than it has room for. -/
theorem pem_roundtrip :
    (∀label der buf pre post : Bytes,∀cap,label.length≤31 → buf.length<2^31 → NoneBegun label pre →
      (pemEncode label der buf buf.length).1≠0 →
      pre.length+(pemEncode label der buf buf.length).1+post.length<2^31 → der.length≤cap →
      pemDecode (pre++(pemEncode label der buf buf.length).2.take
          (pemEncode label der buf buf.length).1++post) label cap=
        ((der.length : Int),some (pre.length+(pemEncode label der buf buf.length).1-1),der)) ∧
    (∀x : Bytes,∀cap textCap,x.length<2^31 → (x.length+2)/3*4≤textCap →
      base64Decode (base64Encode x textCap) cap=
        if x.length≤cap then ((x.length : Int),x) else (-1,x.take cap)) ∧
    ∀text cap,(base64Decode text cap).2.length≤cap := by
  refine ⟨?_,?_,base64Decode_within⟩
  · intro label der buf pre post cap hl hbuf hpre hfit hlen hc
    obtain ⟨hn,ht⟩ := pemEncode_text rfl hbuf hl hfit
    rw [ht]
    rw [hn] at hlen ⊢
    exact pemDecode_text hl hpre (by rw [List.length_append,List.length_append]; exact hlen) hc
  · intro x cap textCap hx ht
    rw [base64_again (Nat.le_of_lt hx) cap ht,toInt_small hx]

/-- An empty SEQUENCE under a label, behind other text and in front of it. -/
theorem pem_roundtrip_small : pemDecode (ofString "A key:\n"++
    (pemEncode (ofString "KEY") [0x30,0] (List.replicate 64 0) 64).2.take
      (pemEncode (ofString "KEY") [0x30,0] (List.replicate 64 0) 64).1++ofString "-----END")
    (ofString "KEY") 2=(2,some 49,[0x30,0]) := by
  have h := pem_roundtrip.1 (ofString "KEY") [0x30,0] (List.replicate 64 0) (ofString "A key:\n")
    (ofString "-----END") 2 (by decide) (by decide) (by decide +kernel) (by decide +kernel)
    (by decide +kernel) (by decide)
  exact h.trans (by decide +kernel)

/-- A BEGIN marker without its last dashes takes the first ones of the marker behind it. And 2^31
bytes are more than an int can say. -/
theorem pem_roundtrip_begun :
    (∃label der buf pre : Bytes,∃cap,label.length≤31 ∧ 0x2d∉label ∧
      ¬beginMarker label<:+:pre ∧ ¬endMarker label<:+:pre ∧
      (pemEncode label der buf buf.length).1≠0 ∧ der.length≤cap ∧
      (pemDecode (pre++(pemEncode label der buf buf.length).2.take
        (pemEncode label der buf buf.length).1) label cap).1≠der.length) ∧
    ∃x : Bytes,∃cap textCap,(x.length+2)/3*4≤textCap ∧ textCap<2^32 ∧ x.length≤cap ∧
      (base64Decode (base64Encode x textCap) cap).1≠x.length := by
  constructor
  · exact ⟨ofString "KEY",[0x30,0],List.replicate 64 0,ofString "-----BEGIN KEY",2,by decide +kernel⟩
  · have hx : (List.replicate (2^31) (0 : UInt8)).length=2^31 := List.length_replicate
    refine ⟨List.replicate (2^31) 0,2^31,2863311532,?_,by decide,Nat.le_of_eq hx,?_⟩
    · rw [hx]
      decide
    · rw [base64_again (Nat.le_of_eq hx) (2^31) (by rw [hx]; decide),if_pos (Nat.le_of_eq hx),hx]
      decide

end LugalOS.Der
