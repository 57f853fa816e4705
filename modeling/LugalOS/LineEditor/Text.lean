import LugalOS.LineEditor.State

namespace LugalOS.LineEditor

open CString
open Function (update update_of_ne update_self)

section Loops

variable {b : Buf} {i j d m pos : Int} {n : Nat}

theorem copyDown_eq (hd : 0≤d) (j : Int) : copyDown d n i b j=
    if i-d≤j ∧ j< i-d+n then b (j+d) else b j := by
  induction n generalizing i b with
  | zero =>
    rw [if_neg (by omega)]
    rfl
  | succ n ih =>
    rw [copyDown,ih]
    by_cases hj : j=i-d
    · subst hj
      rw [if_neg (by omega),if_pos (by omega),update_self]
      congr 1
      omega
    · by_cases hi : i-d≤j ∧ j< i-d+(n+1 : Nat)
      · rw [if_pos (by omega),if_pos hi,update_of_ne (by omega)]
      · rw [if_neg (by omega),if_neg hi,update_of_ne hj]

theorem copyUp_eq (hm : 0≤ m) (j : Int) : copyUp m pos n b j=
    if pos+m≤j ∧ j<pos+m+n then b (j-m) else b j := by
  induction n generalizing b with
  | zero =>
    rw [if_neg (by omega)]
    rfl
  | succ n ih =>
    rw [copyUp,ih]
    by_cases hj : j=pos+n+m
    · subst hj
      rw [if_neg (by omega),if_pos (by omega),update_self]
      congr 1
      omega
    · by_cases hi : pos+m≤j ∧ j<pos+m+(n+1 : Nat)
      · rw [if_pos (by omega),if_pos hi,update_of_ne (by omega)]
      · rw [if_neg (by omega),if_neg hi,update_of_ne hj]

theorem putBytes_eq (s : Bytes) (j : Int) : putBytes pos s b j=
    if pos≤j ∧ j<pos+s.length then s.getD (j-pos).toNat 0 else b j := by
  induction s generalizing pos b with
  | nil =>
    rw [if_neg (by simp only [List.length_nil]; omega)]
    rfl
  | cons c s ih =>
    rw [putBytes,ih]
    simp only [List.length_cons]
    by_cases hj : j=pos
    · subst hj
      rw [if_neg (by omega),if_pos (by omega),update_self,Int.sub_self]
      rfl
    · by_cases hi : pos≤j ∧ j<pos+(s.length+1 : Nat)
      · rw [if_pos (by omega),if_pos hi,show (j-pos).toNat=(j-(pos+1)).toNat+1 by omega]
        rfl
      · rw [if_neg (by omega),if_neg hi,update_of_ne hj]

end Loops

section Bytes

variable {b b' : Buf} {n : Nat}

@[simp] theorem bufBytes_length (b : Buf) (n : Nat) : (bufBytes b n).length=n := by simp [bufBytes]

theorem bufBytes_get {i : Nat} (hi : i<n) : (bufBytes b n)[i]?=some (b i) := by
  simp [bufBytes,hi]

theorem bufBytes_eq {s : Bytes} (hl : s.length=n) (h : ∀i<n,s[i]?=some (b i)) :
    bufBytes b n=s := by
  apply List.ext_getElem?
  intro i
  by_cases hi : i<n
  · rw [bufBytes_get hi,h i hi]
  · rw [List.getElem?_eq_none (by simpa using hi),List.getElem?_eq_none (by omega)]

theorem bufBytes_congr (h : ∀i<n,b i=b' i) : bufBytes b n=bufBytes b' n :=
  bufBytes_eq (by simp) fun i hi => by rw [bufBytes_get hi,h i hi]

/-- A text with the bytes from a to b replaced. -/
def replaced (text : Bytes) (a b : Nat) (s : Bytes) : Bytes := text.take a++s++text.drop b

theorem replaced_length {text : Bytes} {a b : Nat} (hab : a≤b) (hb : b≤text.length) (s : Bytes) :
    (replaced text a b s).length=text.length-(b-a)+s.length := by
  simp only [replaced,List.length_append,List.length_take,List.length_drop]
  omega

theorem replaced_get {text : Bytes} {a b : Nat} (hab : a≤b) (hb : b≤text.length) (s : Bytes)
    (i : Nat) : (replaced text a b s)[i]?=if i<a then text[i]? else
      if i<a+s.length then s[i-a]? else text[i-(a+s.length)+b]? := by
  have ha : (text.take a).length=a := by
    rw [List.length_take]
    omega
  unfold replaced
  rw [List.append_assoc]
  split_ifs with h1 h2
  · rw [List.getElem?_append_left (by omega),List.getElem?_take_of_lt h1]
  · rw [List.getElem?_append_right (by omega),ha,List.getElem?_append_left (by omega)]
  · rw [List.getElem?_append_right (by omega),ha,List.getElem?_append_right (by omega),
      List.getElem?_drop]
    congr 1
    omega

theorem replaced_none (text : Bytes) (a : Nat) : replaced text a a []=text := by
  simp [replaced]

end Bytes

def LineState.text (st : LineState) : Bytes := bufBytes st.buf st.len.toNat

/-- The line is inside its buffer, and the cursor is inside the line. -/
structure Inside (maxLen : Int) (st : LineState) : Prop where
  pos : 0≤ st.pos ∧ st.pos≤ st.len
  room : st.len< maxLen

variable {maxLen : Int} {st : LineState}

theorem text_length (h : Inside maxLen st) : (st.text.length : Int)=st.len := by
  have := h.pos
  simp only [LineState.text,bufBytes_length]
  omega

theorem lineCut_spec (h : Inside maxLen st) {a b : Int} (ha : 0≤a) (hab : a≤b) (hb : b≤ st.len) :
    (lineCut st a b).text=replaced st.text a.toNat b.toNat [] ∧
      (lineCut st a b).buf (lineCut st a b).len=0 := by
  have hl := text_length h
  have hlen := h.pos
  refine ⟨bufBytes_eq ?_ fun i hi => ?_,update_self ..⟩
  · rw [replaced_length (by omega) (by omega)]
    simp only [lineCut,List.length_nil]
    omega
  · simp only [lineCut] at hi
    rw [replaced_get (by omega) (by omega)]
    simp only [lineCut,List.length_nil,Nat.add_zero]
    rw [update_of_ne (by omega),copyDown_eq (by omega)]
    unfold LineState.text
    by_cases hia : i<a.toNat
    · rw [if_pos hia,if_neg (by omega),bufBytes_get (by omega)]
    · rw [if_neg hia,if_neg hia,if_pos (by omega),bufBytes_get (by omega)]
      congr 2
      omega

theorem insert_text (h : Inside maxLen st) (one : Bytes) :
    bufBytes (putBytes st.pos one (copyUp one.length st.pos (st.len-st.pos).toNat st.buf))
      (st.len+one.length).toNat=replaced st.text st.pos.toNat st.pos.toNat one := by
  have hl := text_length h
  have hlen := h.pos
  refine bufBytes_eq ?_ fun i hi => ?_
  · rw [replaced_length (by omega) (by omega)]
    omega
  · rw [replaced_get (by omega) (by omega),putBytes_eq,copyUp_eq (by omega)]
    unfold LineState.text
    by_cases hia : i<st.pos.toNat
    · rw [if_pos hia,if_neg (by omega),if_neg (by omega),bufBytes_get (by omega)]
    · rw [if_neg hia]
      by_cases hib : i<st.pos.toNat+one.length
      · rw [if_pos hib,if_pos (by omega),show ((i : Int)-st.pos).toNat=i-st.pos.toNat by omega,
          List.getD_eq_getElem?_getD,List.getElem?_eq_getElem (by omega)]
        rfl
      · rw [if_neg hib,if_neg (by omega),if_pos (by omega),bufBytes_get (by omega)]
        congr 2
        omega

theorem replaced_again {text : Bytes} {p : Nat} (hp : p≤text.length) (s s' : Bytes) :
    replaced (replaced text p p s) (p+s.length) (p+s.length) s'=replaced text p p (s++s') := by
  have hl : (text.take p++s).length=p+s.length := by
    simp only [List.length_append,List.length_take]
    omega
  simp only [replaced]
  rw [List.take_append_of_le_length (by omega),List.take_of_length_le (by omega),
    List.drop_append_of_le_length (by omega),List.drop_of_length_le (by omega),List.nil_append]
  simp

/-- The characters of bytes as they go into a line: controls are left out or become blanks, and a
character that is not whole ends them. -/
def characters : Nat → Bytes → List Bytes
  | 0,_ => []
  | _+1,[] => []
  | f+1,c::s =>
    if (c::s).length<charWidth c then []
    else
      match cleaned c s with
      | none => characters f s
      | some one => one::characters f ((c::s).drop (charWidth c))

/-- The characters that fit behind len bytes, up to the first that does not. -/
def Fitting (maxLen len : Int) (cs : List Bytes) (s : Bytes) : Prop :=
  ∃k,s=(cs.take k).flatten ∧ len+s.length< maxLen ∧ ∀one∈cs[k]?,maxLen≤len+s.length+one.length

theorem Fitting.nil {len : Int} (h : len< maxLen) : Fitting maxLen len [] [] :=
  ⟨0,rfl,by simpa using h,by simp⟩

theorem Fitting.cons {len : Int} {cs : List Bytes} {one s : Bytes}
    (h : Fitting maxLen (len+one.length) cs s) : Fitting maxLen len (one::cs) (one++s) := by
  obtain ⟨k,rfl,hroom,hnext⟩ := h
  refine ⟨k+1,by simp,?_,fun c hc => ?_⟩
  · simp only [List.length_append]
    omega
  · have := hnext c hc
    simp only [List.length_append]
    omega

/-- What the loop of line_insert leaves alone. -/
structure SameBut (st st' : LineState) : Prop where
  histNavIdx : st'.histNavIdx=st.histNavIdx
  mark : st'.mark=st.mark
  markSticky : st'.markSticky=st.markSticky
  saved : st'.tempSavedLine=st.tempSavedLine

/-- The characters that fit are put in at the cursor, and nothing else changes. -/
def Inserted (maxLen : Int) (cs : List Bytes) (st st' : LineState) : Prop :=
  ∃ins,Fitting maxLen st.len cs ins ∧ st'.len=st.len+ins.length ∧ st'.pos=st.pos+ins.length ∧
    st'.text=replaced st.text st.pos.toNat st.pos.toNat ins ∧ SameBut st st'

theorem SameBut.refl (st : LineState) : SameBut st st := ⟨rfl,rfl,rfl,rfl⟩

theorem Inserted.none (h : Inside maxLen st) {cs : List Bytes}
    (hcs : ∀one∈cs.head?,maxLen≤ st.len+one.length) {st' : LineState} (hl : st'.len=st.len)
    (hp : st'.pos=st.pos) (hb : st'.buf=st.buf) (hs : SameBut st st') :
    Inserted maxLen cs st st' := by
  refine ⟨[],⟨0,rfl,by simpa using h.room,fun one hone => ?_⟩,by simpa using hl,by simpa using hp,
    ?_,hs⟩
  · have := hcs one (by rwa [← List.head?_eq_getElem?] at hone)
    simpa using this
  · rw [replaced_none,LineState.text,hl,hb]
    rfl

theorem Inserted.cons (h : Inside maxLen st) {cs : List Bytes} {one : Bytes} {st1 st' : LineState}
    (hl : st1.len=st.len+one.length) (hp : st1.pos=st.pos+one.length)
    (ht : st1.text=replaced st.text st.pos.toNat st.pos.toNat one) (hs : SameBut st st1)
    (hi : Inserted maxLen cs st1 st') : Inserted maxLen (one::cs) st st' := by
  obtain ⟨ins,hfit,hlen,hpos,htext,hs'⟩ := hi
  have hlength := text_length h
  have hin := h.pos
  refine ⟨one++ins,(hl ▸ hfit).cons,?_,?_,?_,⟨hs'.1.trans hs.1,hs'.2.trans hs.2,
    hs'.3.trans hs.3,hs'.4.trans hs.4⟩⟩
  · rw [hlen,hl,List.length_append]
    omega
  · rw [hpos,hp,List.length_append]
    omega
  · rw [htext,ht,hp,show (st.pos+(one.length : Int)).toNat=st.pos.toNat+one.length by omega]
    exact replaced_again (by omega) one ins

theorem insertLoop_spec (f : Nat) (s : Bytes) (h : Inside maxLen st) :
    Inserted maxLen (characters f s) st (insertLoop maxLen f s st) := by
  induction f generalizing s st with
  | zero => exact .none h (by simp [characters]) rfl rfl rfl (.refl st)
  | succ f ih =>
    cases s with
    | nil => exact .none h (by simp [characters]) rfl rfl rfl (.refl st)
    | cons c s =>
      rw [insertLoop,characters]
      split_ifs with hw
      · exact .none h (by simp) rfl rfl rfl (.refl st)
      · cases hc : cleaned c s with
        | none => exact ih s h
        | some one =>
          simp only
          split_ifs with hroom
          · exact .none h (by simpa using hroom) rfl rfl rfl ⟨rfl,rfl,rfl,rfl⟩
          · have hpos := h.pos
            refine .cons h ?_ ?_ ?_ ?_ (ih _ ⟨?_,?_⟩)
            · rfl
            · rfl
            · exact insert_text h one
            · exact ⟨rfl,rfl,rfl,rfl⟩
            · dsimp only
              omega
            · dsimp only
              omega

theorem lineInsert_spec (s : Bytes) (h : Inside maxLen st) :
    Inserted maxLen (characters s.length s) st (lineInsert maxLen s st) ∧
      (lineInsert maxLen s st).buf (lineInsert maxLen s st).len=0 := by
  obtain ⟨ins,hfit,hlen,hpos,htext,hs⟩ := insertLoop_spec s.length s h
  refine ⟨⟨ins,hfit,hlen,hpos,?_,⟨hs.1,hs.2,hs.3,hs.4⟩⟩,update_self ..⟩
  rw [← htext]
  have hin := h.pos
  refine bufBytes_congr fun i hi => ?_
  simp only [lineInsert] at hi ⊢
  exact update_of_ne (by omega) ..

end LugalOS.LineEditor
