import LugalOS.Lib.Run
import LugalOS.LineEditor.Text

namespace LugalOS.LineEditor

open CString Run
open Function (update update_of_ne update_self)

variable {maxLen : Int} {o : ReadlineOpts} {st : LineState} {k : Input}

/-- What the editor keeps of its state. -/
structure Sound (maxLen : Int) (st : LineState) : Prop extends Inside maxLen st where
  stop : st.buf st.len=0
  mark : st.mark=-1 ∨ 0≤ st.mark ∧ st.mark≤ st.len

theorem back_bounds (p : Int → Bool) (n : Nat) : 0≤back p n ∧ back p n≤n := by
  induction n with
  | zero => exact ⟨Int.le_refl _,Int.le_refl _⟩
  | succ n ih =>
    rw [back]
    split_ifs <;> omega

theorem backFrom_bounds (p : Int → Bool) {pos : Int} (h : 0≤pos) :
    0≤backFrom p pos ∧ backFrom p pos≤pos := by
  have := back_bounds p pos.toNat
  unfold backFrom
  split_ifs <;> omega

theorem forth_bounds (p : Int → Bool) (n : Nat) (pos : Int) :
    pos≤forth p n pos ∧ forth p n pos≤pos+n := by
  induction n generalizing pos with
  | zero => simp [forth]
  | succ n ih =>
    have := ih (pos+1)
    rw [forth]
    split_ifs <;> omega

theorem u8Prev_bounds (buf : Buf) {pos : Int} (h : 0≤pos) :
    0≤u8Prev buf pos ∧ u8Prev buf pos≤pos := by
  unfold u8Prev
  split_ifs with hp
  · have h1 : 0≤pos-1 := by omega
    have := backFrom_bounds (fun j => u8Cont (buf j)) h1
    omega
  · exact backFrom_bounds _ h

theorem u8Next_bounds (buf : Buf) {len pos : Int} (h : pos≤len) :
    pos≤u8Next buf len pos ∧ u8Next buf len pos≤len := by
  unfold u8Next
  dsimp only
  split_ifs with hp
  · have := forth_bounds (fun j => u8Cont (buf j)) (len-(pos+1)).toNat (pos+1)
    omega
  · have := forth_bounds (fun j => u8Cont (buf j)) (len-pos).toNat pos
    omega

theorem wordLeft_bounds (buf : Buf) {pos : Int} (h : 0≤pos) :
    0≤wordLeft buf pos ∧ wordLeft buf pos≤pos := by
  have h1 := backFrom_bounds (fun j => !wordByte (buf (j-1))) h
  have h2 := backFrom_bounds (fun j => wordByte (buf (j-1))) h1.1
  unfold wordLeft
  omega

theorem wordRight_bounds (buf : Buf) {len pos : Int} (h : pos≤len) :
    pos≤wordRight buf len pos ∧ wordRight buf len pos≤len := by
  unfold wordRight
  dsimp only
  have h1 := forth_bounds (fun j => !wordByte (buf j)) (len-pos).toNat pos
  generalize forth (fun j => !wordByte (buf j)) (len-pos).toNat pos=p at h1
  have h2 := forth_bounds (fun j => wordByte (buf j)) (len-p).toNat p
  omega

/-- The keys that take the selection away: cut, paste, Delete, Backspace and what types. -/
def Input.takes (k : Input) : Bool :=
  if k.super then k.isAny [120,118]
  else k.alt=false ∧ (k.isAny [0x17,0x19,0x04,keyDelete,0x08,0x7f] ∨ k.prints)

/-- The bytes that are typed or pasted. -/
def Input.typed (k : Input) : Bytes :=
  if k.super then if k.key=118 then k.clipboard else []
  else if k.alt then []
  else if k.key=0x19 then k.clipboard
  else if k.prints then utf8Encode k.key else []

/-- The keys that show a line of the history. -/
def Input.recalls (k : Input) : Bool :=
  k.super=false ∧ k.alt=false ∧ k.isAny [keyUp,0x10,keyDown,0x0E]

/-- What a key removes beside the cursor where it finds nothing selected. -/
def beside (st : LineState) (k : Input) : Int×Int :=
  if k.super then (st.pos,st.pos)
  else if k.alt then
    if k.isAny [0x7f,0x08] then (wordLeft st.buf st.pos,st.pos)
    else if k.isAny [100,68] then (st.pos,wordRight st.buf st.len st.pos)
    else (st.pos,st.pos)
  else if k.key=0x0B then (st.pos,st.len)
  else if k.isAny [0x04,keyDelete] then
    (st.pos,if st.pos<st.len then u8Next st.buf st.len st.pos else st.pos)
  else if k.isAny [0x08,0x7f] then (if 0<st.pos then u8Prev st.buf st.pos else st.pos,st.pos)
  else (st.pos,st.pos)

/-- The range that a key removes: the selection, or what is beside the cursor. -/
def removes (st : LineState) (k : Input) : Int×Int :=
  if k.takes then (selRange st).getD (beside st k) else beside st k

/-- The range is removed and what fits of the bytes is put in its place, and no other byte changes.
The cursor is behind what went in. -/
def Replaces (maxLen : Int) (st : LineState) (r : Int×Int) (s : Bytes) (st' : LineState) : Prop :=
  (0≤r.1 ∧ r.1≤r.2 ∧ r.2≤ st.len) ∧
    ∃ins,Fitting maxLen (st.len-(r.2-r.1)) (characters s.length s) ins ∧
      st'.text=replaced st.text r.1.toNat r.2.toNat ins ∧
      (r.1<r.2 ∨ ins≠[] → st'.pos=r.1+ins.length)

/-- What a key does to the text. A line that is cancelled is given up, one that is entered is kept
as it is or refused as a whole, and the multiline editor hands over its own text for it. -/
def Performs (maxLen : Int) (st : LineState) (k : Input) : Outcome × LineState → Prop
  | (.incomplete,st') =>
    if k.recalls then st'.text=st.text ∨ ∃s,st'.text=copied maxLen s
    else Replaces maxLen st (removes st k) k.typed st'
  | (.cancelled,st') => st'.buf 0=0
  | (.line n,st') => n=st'.len ∧ (st'.text=st.text ∨ st'.text=[])
  | (.multiline n,st') => n=k.boxLen ∧ st'.buf=k.box

/-- The keys that leave the mark behind the end of the line: Backspace with the mark at the cursor
and fewer bytes behind it than it removes, and the Enter that refuses a line with the mark set. -/
def Forgets (st : LineState) (k : Input) : Prop :=
  k.super=false ∧ k.alt=false ∧
    (k.isAny [0x08,0x7f] ∧ st.mark=st.pos ∧ 0<st.pos ∧
        st.len-st.pos<st.pos-u8Prev st.buf st.pos ∨
      k.isAny [13,10] ∧ 0<st.dropped ∧ 0<st.mark)

/-- The keys after which the state is sound. The multiline editor does not set the length. -/
def Keeps (maxLen : Int) (st : LineState) (k : Input) : Outcome × LineState → Prop
  | (.multiline _,st') => Sound maxLen st' ↔ k.box st.len=0
  | (_,st') => Sound maxLen st' ↔ ¬Forgets st k

/-- A key does what it is to do, and keeps the state sound unless it forgets the mark. -/
def Handled (maxLen : Int) (st : LineState) (k : Input) (r : Outcome × LineState) : Prop :=
  Performs maxLen st k r ∧ Keeps maxLen st k r

theorem Keeps.congr {s : LineState} {r : Outcome × LineState} (hl : s.len=st.len)
    (hf : Forgets s k ↔ Forgets st k) (h : Keeps maxLen s k r) : Keeps maxLen st k r := by
  obtain ⟨o,st'⟩ := r
  cases o with
  | multiline n =>
    rw [Keeps,hl] at h
    exact h
  | incomplete | cancelled | line _ => exact Iff.trans h (not_congr hf)

theorem Sound.keep (h : Sound maxLen st) {st' : LineState} (hl : st'.len=st.len)
    (hb : st'.buf=st.buf) (hp : 0≤ st'.pos ∧ st'.pos≤ st.len)
    (hm : st'.mark=-1 ∨ 0≤ st'.mark ∧ st'.mark≤ st.len) :
    Sound maxLen st' ∧ st'.text=st.text := by
  refine ⟨⟨⟨hl ▸ hp,hl ▸ h.room⟩,?_,hl ▸ hm⟩,?_⟩
  · rw [hb,hl]
    exact h.stop
  · rw [LineState.text,hb,hl]
    rfl

theorem Sound.cut (h : Sound maxLen st) {a b : Int} (ha : 0≤a) (hab : a≤b) (hb : b≤ st.len)
    {st' : LineState} (hl : st'.len=(lineCut st a b).len) (hbuf : st'.buf=(lineCut st a b).buf)
    (hp : st'.pos=a) (hm : st'.mark=-1 ∨ 0≤ st'.mark ∧ st'.mark≤ st.len-(b-a)) :
    Sound maxLen st' ∧ st'.text=replaced st.text a.toNat b.toNat [] := by
  obtain ⟨htext,hstop⟩ := lineCut_spec h.toInside ha hab hb
  have hroom := h.room
  have hlen : (lineCut st a b).len=st.len-(b-a) := rfl
  refine ⟨⟨⟨by omega,by omega⟩,?_,by omega⟩,?_⟩
  · rw [hbuf,hl,hstop]
  · rw [LineState.text,hbuf,hl]
    exact htext

theorem Replaces.none (h : Inside maxLen st) {p : Int} (hp : 0≤p ∧ p≤ st.len) {st' : LineState}
    (ht : st'.text=st.text) : Replaces maxLen st (p,p) [] st' := by
  have hroom := h.room
  refine ⟨⟨hp.1,Int.le_refl _,hp.2⟩,[],.nil (by omega),?_,fun h => ?_⟩
  · rw [ht,replaced_none]
  · rcases h with h | h
    · exact absurd h (Int.lt_irrefl _)
    · exact absurd rfl h

theorem Replaces.cut (h : Inside maxLen st) {a b : Int} (ha : 0≤a) (hab : a≤b) (hb : b≤ st.len)
    {st' : LineState} (ht : st'.text=replaced st.text a.toNat b.toNat []) (hp : st'.pos=a) :
    Replaces maxLen st (a,b) [] st' := by
  have hroom := h.room
  exact ⟨⟨ha,hab,hb⟩,[],.nil (by simp only; omega),ht,fun _ => by simp [hp]⟩

theorem selRange_some (h : Sound maxLen st) {a b : Int} (hs : selRange st=some (a,b)) :
    0≤a ∧ a<b ∧ b≤ st.len := by
  have hp := h.pos
  have hm := h.mark
  unfold selRange at hs
  split_ifs at hs <;> simp only [Option.some.injEq,Prod.mk.injEq] at hs <;> omega

theorem selDelete_none (hs : selRange st=none) : selDelete st=(false,st) := by
  rw [selDelete,hs]

theorem selDelete_some {a b : Int} (hs : selRange st=some (a,b)) :
    selDelete st=(true,{lineCut st a b with pos := a, mark := -1}) := by
  rw [selDelete,hs]

/-- The selection, or nothing at the cursor. -/
def selected (st : LineState) : Int×Int := (selRange st).getD (st.pos,st.pos)

theorem selDelete_spec (h : Sound maxLen st) : Sound maxLen (selDelete st).2 ∧
    (0≤(selected st).1 ∧ (selected st).1≤(selected st).2 ∧ (selected st).2≤ st.len) ∧
    (selDelete st).2.text=
      replaced st.text (selected st).1.toNat (selected st).2.toNat [] ∧
    (selDelete st).2.pos=(selected st).1 ∧
    (selDelete st).2.len=st.len-((selected st).2-(selected st).1) := by
  unfold selected
  cases hs : selRange st with
  | none =>
    rw [selDelete_none hs]
    exact ⟨h,⟨h.pos.1,Int.le_refl _,h.pos.2⟩,(replaced_none ..).symm,rfl,by simp⟩
  | some r =>
    obtain ⟨a,b⟩ := r
    obtain ⟨ha,hab,hb⟩ := selRange_some h hs
    rw [selDelete_some hs]
    have hle := Int.le_of_lt hab
    have hcut : Sound maxLen {lineCut st a b with pos := a, mark := -1} ∧
        LineState.text {lineCut st a b with pos := a, mark := -1}=
          replaced st.text a.toNat b.toNat [] := h.cut ha hle hb rfl rfl rfl (.inl rfl)
    exact ⟨hcut.1,⟨ha,hle,hb⟩,hcut.2,rfl,rfl⟩

theorem deleted_spec (h : Sound maxLen st) : Sound maxLen (selDelete st).2 ∧
    Replaces maxLen st (selected st) [] (selDelete st).2 := by
  obtain ⟨hsound,⟨ha,hab,hb⟩,htext,hpos,-⟩ := selDelete_spec h
  exact ⟨hsound,.cut h.toInside ha hab hb htext hpos⟩

theorem replaced_then {text : Bytes} {a b : Nat} (ha : a≤text.length) (s : Bytes) :
    replaced (replaced text a b []) a a s=replaced text a b s := by
  have hl : (text.take a).length=a := by
    rw [List.length_take]
    omega
  simp only [replaced,List.append_nil]
  rw [List.take_append_of_le_length (by omega),List.take_of_length_le (by omega),
    List.drop_append_of_le_length (by omega),List.drop_of_length_le (by omega),List.nil_append]

theorem typed_spec (h : Sound maxLen st) (s : Bytes) :
    Sound maxLen (lineInsert maxLen s (selDelete st).2) ∧
      Replaces maxLen st (selected st) s (lineInsert maxLen s (selDelete st).2) := by
  obtain ⟨hsound,hr,htext0,hpos,hlen⟩ := selDelete_spec h
  obtain ⟨⟨ins,hfit,hl,hp,htext,hsame⟩,hstop⟩ := lineInsert_spec s hsound.toInside
  have hin := hsound.pos
  have hm := hsound.mark
  obtain ⟨n,hins,hroom,hnext⟩ := id hfit
  have htl := text_length h.toInside
  refine ⟨⟨⟨by omega,by omega⟩,hstop,?_⟩,hr,ins,hlen ▸ hfit,?_,fun _ => by rw [hp,hpos]⟩
  · rw [hsame.mark]
    omega
  · rw [htext,htext0,hpos]
    exact replaced_then (by omega) ins

theorem clipPaste_spec (h : Sound maxLen st) (s : Bytes) :
    Sound maxLen (clipPaste maxLen s st) ∧
      Replaces maxLen st (selected st) s (clipPaste maxLen s st) := by
  simp only [clipPaste]
  split_ifs with hs
  · rw [hs]
    exact deleted_spec h
  · exact typed_spec h s

theorem lineMove_spec (h : Sound maxLen st) {dest : Int} (hd : 0≤dest ∧ dest≤ st.len) (shift : Bool) :
    Sound maxLen (lineMove st dest shift) ∧ (lineMove st dest shift).text=st.text := by
  have hm := h.mark
  have hp := h.pos
  unfold lineMove
  split_ifs
  · exact h.keep rfl rfl hd (.inr hp)
  · exact h.keep rfl rfl hd hm
  · exact h.keep rfl rfl hd (.inl rfl)
  · exact h.keep rfl rfl hd hm

theorem Sound.unmark (h : Sound maxLen st) :
    Sound maxLen {st with mark := -1} ∧ LineState.text {st with mark := -1}=st.text :=
  h.keep rfl rfl h.pos (.inl rfl)

theorem superKey_spec (h : Sound maxLen st) (hs : k.super=true) :
    Sound maxLen (superKey maxLen st k) ∧
      Replaces maxLen st (removes st k) k.typed (superKey maxLen st k) := by
  have hnone : ∀{st'},k.key≠120 → k.key≠118 → Sound maxLen st' ∧ st'.text=st.text →
      Sound maxLen st' ∧ Replaces maxLen st (removes st k) k.typed st' := by
    intro st' hx hv hst
    have hr : removes st k=(st.pos,st.pos) := by
      simp [removes,Input.takes,beside,Input.isAny,hs,hx,hv]
    have ht : k.typed=[] := by simp [Input.typed,hs,hv]
    rw [hr,ht]
    exact ⟨hst.1,.none h.toInside h.pos hst.2⟩
  have hsel : k.key=120 ∨ k.key=118 → removes st k=selected st := by
    rintro (hk | hk) <;> simp [removes,Input.takes,beside,Input.isAny,hs,hk,selected]
  unfold superKey
  split_ifs with h1 h2 h3 h4
  · exact hnone (by omega) (by omega) h.unmark
  · rw [hsel (.inl h2),show k.typed=[] by simp [Input.typed,hs,h2]]
    exact deleted_spec h
  · rw [hsel (.inr h3),show k.typed=k.clipboard by simp [Input.typed,hs,h3]]
    exact clipPaste_spec h k.clipboard
  · have hp := h.pos
    exact hnone h2 h3 (h.keep rfl rfl ⟨by dsimp only; omega,Int.le_refl _⟩
      (.inr ⟨Int.le_refl _,by dsimp only; omega⟩))
  · exact hnone h2 h3 ⟨h,rfl⟩

theorem altKey_spec (h : Sound maxLen st) (hs : k.super=false) (ha : k.alt=true) :
    Sound maxLen (altKey st k) ∧
      Replaces maxLen st (removes st k) k.typed (altKey st k) := by
  have htyped : k.typed=[] := by simp [Input.typed,hs,ha]
  have htakes : removes st k=beside st k := by simp [removes,Input.takes,hs,ha]
  rw [htyped,htakes]
  have hp := h.pos
  have hleft := wordLeft_bounds st.buf hp.1
  have hright := wordRight_bounds st.buf hp.2
  have hnone : ∀{st'},beside st k=(st.pos,st.pos) → Sound maxLen st' ∧ st'.text=st.text →
      Sound maxLen st' ∧ Replaces maxLen st (beside st k) [] st' := by
    intro st' hb hst
    rw [hb]
    exact ⟨hst.1,.none h.toInside h.pos hst.2⟩
  have hmem : ∀{cs : List Nat},k.isAny cs=true ↔ k.key∈cs := by simp [Input.isAny]
  unfold altKey
  split_ifs with h1 h2 h3 h4 h5 h6 h7
  · refine hnone ?_ (lineMove_spec h ⟨hleft.1,by omega⟩ false)
    rcases List.mem_pair.mp (hmem.mp h1) with hk | hk <;> simp [beside,hs,ha,Input.isAny,hk]
  · refine hnone ?_ (lineMove_spec h ⟨by omega,hright.2⟩ false)
    rcases List.mem_pair.mp (hmem.mp h2) with hk | hk <;> simp [beside,hs,ha,Input.isAny,hk]
  · refine hnone ?_ h.unmark
    rcases List.mem_pair.mp (hmem.mp h3) with hk | hk <;> simp [beside,hs,ha,Input.isAny,hk]
  · have hcut : Sound maxLen {lineCut st (wordLeft st.buf st.pos) st.pos with
          pos := wordLeft st.buf st.pos, mark := -1} ∧ LineState.text _=replaced st.text _ _ [] :=
      h.cut hleft.1 hleft.2 hp.2 rfl rfl rfl (.inl rfl)
    rw [show beside st k=(wordLeft st.buf st.pos,st.pos) by simp [beside,hs,ha,h4]]
    exact ⟨hcut.1,.cut h.toInside hleft.1 hleft.2 hp.2 hcut.2 rfl⟩
  · have hcut : Sound maxLen {lineCut st st.pos (wordRight st.buf st.len st.pos) with mark := -1} ∧
        LineState.text _=replaced st.text _ _ [] :=
      h.cut hp.1 hright.1 hright.2 rfl rfl rfl (.inl rfl)
    rw [show beside st k=(st.pos,wordRight st.buf st.len st.pos) by simp [beside,hs,ha,h4,h5]]
    exact ⟨hcut.1,.cut h.toInside hp.1 hright.1 hright.2 hcut.2 rfl⟩
  · exact hnone (by simp [beside,hs,ha,h4,h5]) (lineMove_spec h ⟨hleft.1,by omega⟩ k.shift)
  · exact hnone (by simp [beside,hs,ha,h4,h5]) (lineMove_spec h ⟨by omega,hright.2⟩ k.shift)
  · exact hnone (by simp [beside,hs,ha,h4,h5]) ⟨h,rfl⟩

theorem histShow_spec (hmax : 0< maxLen) (idx : Int) (st : LineState) :
    Sound maxLen (histShow maxLen k idx st) ∧ ∃s,(histShow maxLen k idx st).text=copied maxLen s := by
  obtain ⟨s,hs⟩ : ∃s,s=if idx=k.historyCount then st.tempSavedLine else k.history idx := ⟨_,rfl⟩
  have hl : ((copied maxLen s).length : Int)< maxLen := by
    simp only [copied,List.length_take]
    omega
  unfold histShow
  rw [← hs]
  dsimp only
  refine ⟨⟨⟨⟨by dsimp only; omega,Int.le_refl _⟩,hl⟩,update_self ..,.inl rfl⟩,s,?_⟩
  refine bufBytes_eq (by simp) fun i hi => ?_
  dsimp only at hi ⊢
  rw [update_of_ne (by omega),putBytes_eq,if_pos (by omega)]
  rw [List.getD_eq_getElem?_getD,Int.sub_zero,Int.toNat_natCast,List.getElem?_eq_getElem (by omega)]
  rfl

/-- The plain keys that leave the text as it is. -/
def quietKeys : List Nat :=
  [keyLeft,keyRight,0x02,0x06,keyHome,0x01,keyEnd,0x05,0x00,0x07,0x1b,0x0C,0x18]

/-- A key that removes nothing and types nothing. -/
structure Quiet (st : LineState) (k : Input) : Prop where
  removes : removes st k=(st.pos,st.pos)
  typed : k.typed=[]
  forgets : ¬Forgets st k
  recalls : k.recalls=false

theorem mem_keys {cs : List Nat} : k.isAny cs=true ↔ k.key∈cs := by simp [Input.isAny]

theorem quiet_of_mem (hs : k.super=false) (ha : k.alt=false) (h : k.key∈quietKeys) :
    Quiet st k := by
  simp only [quietKeys,List.mem_cons,List.not_mem_nil,or_false] at h
  rcases h with h | h | h | h | h | h | h | h | h | h | h | h | h <;>
    exact ⟨by simp [LugalOS.LineEditor.removes,Input.takes,beside,Input.isAny,Input.prints,hs,ha,h,keyLeft,keyRight,
        keyHome,keyEnd,keyDelete],
      by simp [Input.typed,Input.prints,hs,ha,h,keyLeft,keyRight,keyHome,keyEnd],
      by simp [Forgets,Input.isAny,hs,ha,h,keyLeft,keyRight,keyHome,keyEnd],
      by simp [Input.recalls,Input.isAny,hs,ha,h,keyLeft,keyRight,keyHome,keyEnd,keyUp,keyDown]⟩

theorem Quiet.spec (hq : Quiet st k) (h : Inside maxLen st) {st' : LineState}
    (hst : Sound maxLen st' ∧ st'.text=st.text) :
    Handled maxLen st k (.incomplete,st') := by
  refine ⟨?_,iff_of_true hst.1 hq.forgets⟩
  simp only [Performs,hq.recalls,Bool.false_eq_true,if_false]
  rw [hq.removes,hq.typed]
  exact .none h h.pos hst.2

theorem quiet_pair {a b : Nat} (hs : k.super=false) (ha : k.alt=false) (hk : k.isAny [a,b]=true)
    (hq : a∈quietKeys ∧ b∈quietKeys) : Quiet st k := by
  apply quiet_of_mem hs ha
  rcases List.mem_pair.mp (mem_keys.mp hk) with h | h
  · exact h ▸ hq.1
  · exact h ▸ hq.2

theorem recall_spec {a b : Nat} (hs : k.super=false) (ha : k.alt=false) (hk : k.isAny [a,b]=true)
    (hr : (a=keyUp ∧ b=0x10) ∨ (a=keyDown ∧ b=0x0E)) {st' : LineState} (hst : Sound maxLen st')
    (ht : st'.text=st.text ∨ ∃s,st'.text=copied maxLen s) :
    Handled maxLen st k (.incomplete,st') := by
  have hkey : k.key=keyUp ∨ k.key=0x10 ∨ k.key=keyDown ∨ k.key=0x0E := by
    rcases List.mem_pair.mp (mem_keys.mp hk) with h | h <;>
      rcases hr with ⟨rfl,rfl⟩ | ⟨rfl,rfl⟩ <;> simp [h]
  have hf : ¬Forgets st k := by
    rcases hkey with h | h | h | h <;> simp [Forgets,Input.isAny,h,keyUp,keyDown]
  have hrec : k.recalls=true := by
    simpa [Input.recalls,Input.isAny,hs,ha] using hkey
  refine ⟨?_,iff_of_true hst hf⟩
  simpa only [Performs,hrec,if_true] using ht

theorem taking_spec (hs : k.super=false) (ha : k.alt=false)
    (hk : k.key=0x17 ∨ k.key=0x19 ∨ k.prints=true) {st' : LineState}
    (hst : Sound maxLen st' ∧ Replaces maxLen st (selected st) k.typed st') :
    Handled maxLen st k (.incomplete,st') := by
  have hp : k.prints=true → 0x20≤k.key ∧ k.key≠0x7f ∧ k.key<0x110000 := by
    intro h
    simp only [Input.prints,decide_eq_true_eq] at h
    exact ⟨h.1,h.2.1,h.2.2.1⟩
  have hkeys : k.key≠0x0B ∧ k.key≠0x04 ∧ k.key≠keyDelete ∧ k.key≠0x08 ∧ k.key≠0x7f ∧ k.key≠13 ∧
      k.key≠10 ∧ k.key≠keyUp ∧ k.key≠0x10 ∧ k.key≠keyDown ∧ k.key≠0x0E := by
    unfold keyDelete keyUp keyDown
    rcases hk with h | h | h
    · omega
    · omega
    · have := hp h
      omega
  obtain ⟨h0b,h04,hdel,h08,h7f,h13,h10,hup,hcp,hdown,hcn⟩ := hkeys
  have hr : removes st k=selected st := by
    have ht : k.takes=true := by
      rcases hk with h | h | h <;> simp [Input.takes,Input.isAny,hs,ha,h]
    have hb : beside st k=(st.pos,st.pos) := by
      simp [beside,Input.isAny,hs,ha,h0b,h04,hdel,h08,h7f]
    rw [removes,if_pos ht,hb]
    rfl
  have hf : ¬Forgets st k := by simp [Forgets,Input.isAny,h08,h7f,h13,h10]
  have hrec : k.recalls=false := by simp [Input.recalls,Input.isAny,hup,hcp,hdown,hcn]
  refine ⟨?_,iff_of_true hst.1 hf⟩
  simp only [Performs,hrec,Bool.false_eq_true,if_false]
  rw [hr]
  exact hst.2

theorem Sound.unselected (h : Sound maxLen st) (hsel : selRange st=none) :
    st.mark=-1 ∨ st.mark=st.pos := by
  have hm := h.mark
  unfold selRange at hsel
  split_ifs at hsel
  omega

/-- A key that removes the selection, or edits the line where there is none. -/
theorem erased_spec (h : Sound maxLen st) {c : LineState → Prop} [DecidablePred c]
    {e : LineState → LineState} (htakes : k.takes=true) (hrec : k.recalls=false)
    (htyped : k.typed=[]) (hsome : ∀r,selRange st=some r → ¬Forgets st k)
    (hnone : selRange st=none → ∀st',st'=(if c st then e st else st) →
      Replaces maxLen st (beside st k) [] st' ∧ (Sound maxLen st' ↔ ¬Forgets st k)) :
    Handled maxLen st k (.incomplete,if !(selDelete st).1 ∧ c (selDelete st).2 then
      e (selDelete st).2 else (selDelete st).2) := by
  suffices hst : ∀st',st'=(if !(selDelete st).1 ∧ c (selDelete st).2 then e (selDelete st).2
      else (selDelete st).2) →
      Replaces maxLen st (removes st k) [] st' ∧ (Sound maxLen st' ↔ ¬Forgets st k) by
    obtain ⟨h1,h2⟩ := hst _ rfl
    refine ⟨?_,h2⟩
    simp only [Performs,hrec,Bool.false_eq_true,if_false]
    rw [htyped]
    exact h1
  rintro _ rfl
  rw [removes,if_pos htakes]
  cases hsel : selRange st with
  | none =>
    rw [selDelete_none hsel]
    simp only [Option.getD_none,Bool.not_false,true_and]
    exact hnone hsel _ rfl
  | some r =>
    have hd := deleted_spec h
    rw [selDelete_some hsel] at hd ⊢
    simp only [selected,hsel,Option.getD_some,Bool.not_true,Bool.false_eq_true,false_and,if_false]
      at hd ⊢
    exact ⟨hd.2,iff_of_true hd.1 (hsome r hsel)⟩

theorem delete_spec (h : Sound maxLen st) (hs : k.super=false) (ha : k.alt=false)
    (hk : k.isAny [0x04,keyDelete]=true) :
    let st' := if !(selDelete st).1 ∧ (selDelete st).2.pos<(selDelete st).2.len then
        lineCut (selDelete st).2 (selDelete st).2.pos
          (u8Next (selDelete st).2.buf (selDelete st).2.len (selDelete st).2.pos)
      else (selDelete st).2
    Handled maxLen st k (.incomplete,st') := by
  have hkey := List.mem_pair.mp (mem_keys.mp hk)
  have hf : ¬Forgets st k := by
    rcases hkey with h | h <;> simp [Forgets,Input.isAny,h,keyDelete]
  have hrec : k.recalls=false := by
    rcases hkey with h | h <;> simp [Input.recalls,Input.isAny,h,keyDelete,keyUp,keyDown]
  have htyped : k.typed=[] := by
    rcases hkey with h | h <;> simp [Input.typed,Input.prints,hs,ha,h,keyDelete]
  have htakes : k.takes=true := by
    rcases hkey with h | h <;> simp [Input.takes,Input.isAny,hs,ha,h]
  have hb : beside st k=(st.pos,if st.pos<st.len then u8Next st.buf st.len st.pos else st.pos) := by
    rcases hkey with h | h <;> simp [beside,Input.isAny,hs,ha,h,keyDelete]
  have hp := h.pos
  refine erased_spec h (c := fun s => s.pos<s.len)
    (e := fun s => lineCut s s.pos (u8Next s.buf s.len s.pos)) htakes hrec htyped (fun _ _ => hf)
    fun hsel => ?_
  rintro _ rfl
  rw [hb,iff_true_right hf]
  by_cases hlt : st.pos<st.len
  · rw [if_pos hlt,if_pos hlt]
    have hn := u8Next_bounds st.buf hp.2
    have hm := h.mark
    have hmark := h.unselected hsel
    have hcut : Sound maxLen (lineCut st st.pos (u8Next st.buf st.len st.pos)) ∧
        LineState.text _=replaced st.text _ _ [] :=
      h.cut hp.1 hn.1 hn.2 rfl rfl rfl (by simp only [lineCut]; omega)
    exact ⟨.cut h.toInside hp.1 hn.1 hn.2 hcut.2 rfl,hcut.1⟩
  · rw [if_neg hlt,if_neg hlt]
    exact ⟨.none h.toInside hp rfl,h⟩

/-- Backspace leaves the mark where it is, so it may be behind the end. -/
theorem backspace_spec (h : Sound maxLen st) (hs : k.super=false) (ha : k.alt=false)
    (hk : k.isAny [0x08,0x7f]=true) :
    let st' := if !(selDelete st).1 ∧ 0<(selDelete st).2.pos then
        {lineCut (selDelete st).2 (u8Prev (selDelete st).2.buf (selDelete st).2.pos)
            (selDelete st).2.pos with
          pos := u8Prev (selDelete st).2.buf (selDelete st).2.pos}
      else (selDelete st).2
    Handled maxLen st k (.incomplete,st') := by
  have hkey := List.mem_pair.mp (mem_keys.mp hk)
  have hrec : k.recalls=false := by
    rcases hkey with h | h <;> simp [Input.recalls,Input.isAny,h,keyUp,keyDown]
  have htyped : k.typed=[] := by
    rcases hkey with h | h <;> simp [Input.typed,Input.prints,hs,ha,h]
  have htakes : k.takes=true := by
    rcases hkey with h | h <;> simp [Input.takes,Input.isAny,hs,ha,h]
  have hb : beside st k=(if 0<st.pos then u8Prev st.buf st.pos else st.pos,st.pos) := by
    rcases hkey with h | h <;> simp [beside,Input.isAny,hs,ha,h,keyDelete]
  have hf : Forgets st k ↔ st.mark=st.pos ∧ 0<st.pos ∧
      st.len-st.pos<st.pos-u8Prev st.buf st.pos := by
    have hnot : k.isAny [13,10]=false := by
      rcases hkey with h | h <;> simp [Input.isAny,h]
    simp [Forgets,hs,ha,hk,hnot]
  have hp := h.pos
  have hm := h.mark
  refine erased_spec h (c := fun s => 0<s.pos)
    (e := fun s => {lineCut s (u8Prev s.buf s.pos) s.pos with pos := u8Prev s.buf s.pos})
    htakes hrec htyped (fun r hsel => ?_) fun hsel => ?_
  · rw [hf]
    rintro ⟨he,-⟩
    unfold selRange at hsel
    rw [if_pos (.inr he)] at hsel
    cases hsel
  rintro _ rfl
  rw [hb,hf]
  have hmark := h.unselected hsel
  by_cases hpos : 0<st.pos
  · rw [if_pos hpos,if_pos hpos]
    have hl := u8Prev_bounds st.buf hp.1
    obtain ⟨htext,hstop⟩ := lineCut_spec h.toInside hl.1 hl.2 hp.2
    refine ⟨.cut h.toInside hl.1 hl.2 hp.2 htext rfl,fun hst hforget => ?_,fun hok => ?_⟩
    · have hmark' := hst.mark
      simp only [lineCut] at hmark'
      omega
    · have hle : st.mark=-1 ∨ 0≤ st.mark ∧ st.mark≤ st.len-(st.pos-u8Prev st.buf st.pos) := by
        omega
      have hcut : Sound maxLen {lineCut st (u8Prev st.buf st.pos) st.pos with
          pos := u8Prev st.buf st.pos} ∧ LineState.text _=replaced st.text _ _ [] :=
        h.cut hl.1 hl.2 hp.2 rfl rfl rfl hle
      exact hcut.1
  · rw [if_neg hpos,if_neg hpos]
    exact ⟨.none h.toInside hp rfl,iff_of_true h (by omega)⟩

theorem enter_spec (h : Sound maxLen st) (hs : k.super=false) (ha : k.alt=false)
    (hk : k.isAny [13,10]=true) :
    let r : Outcome × LineState := if 0<st.dropped then
        (.line 0,{st with dropped := 0, len := 0, pos := 0, buf := update st.buf 0 0})
      else (.line st.len,{st with buf := update st.buf st.len 0})
    Handled maxLen st k r := by
  have hkey := List.mem_pair.mp (mem_keys.mp hk)
  have hf : Forgets st k ↔ 0<st.dropped ∧ 0<st.mark := by
    have hnot : k.isAny [0x08,0x7f]=false := by
      rcases hkey with h | h <;> simp [Input.isAny,h]
    simp [Forgets,hs,ha,hk,hnot]
  have hp := h.pos
  have hm := h.mark
  have hroom := h.room
  dsimp only
  split_ifs with hd
  · refine ⟨⟨rfl,.inr rfl⟩,fun hst hforget => ?_,fun hok => ?_⟩
    · have hmark := hst.mark
      rw [hf] at hforget
      simp only at hmark
      omega
    · have hz : update st.buf 0 0 0=0 := update_self ..
      rw [hf] at hok
      refine ⟨⟨⟨Int.le_refl _,Int.le_refl _⟩,by dsimp only; omega⟩,hz,?_⟩
      dsimp only
      omega
  · have hsame : update st.buf st.len 0=st.buf := by
      rw [← h.stop]
      exact Function.update_eq_self ..
    rw [hsame]
    exact ⟨⟨rfl,.inl rfl⟩,iff_of_true h fun hn => hd (hf.mp hn).1⟩

theorem cancel_spec (h : Sound maxLen st) (hq : Quiet st k) :
    Handled maxLen st k (.cancelled,{st with buf := update st.buf 0 0}) := by
  have hz : update st.buf 0 0 0=0 := update_self ..
  refine ⟨hz,iff_of_true ⟨⟨h.pos,h.room⟩,?_,h.mark⟩ hq.forgets⟩
  dsimp only
  by_cases h0 : st.len=0
  · rw [h0]
    exact update_self ..
  · rw [update_of_ne h0]
    exact h.stop

theorem kill_spec (h : Sound maxLen st) (hs : k.super=false) (ha : k.alt=false) (hk : k.key=0x0B) :
    Handled maxLen st k
      (.incomplete,{st with len := st.pos, buf := update st.buf st.pos 0, mark := -1}) := by
  have hp := h.pos
  have hroom := h.room
  have hl := text_length h.toInside
  have hf : ¬Forgets st k := by simp [Forgets,Input.isAny,hk]
  have hr : removes st k=(st.pos,st.len) := by
    simp [removes,Input.takes,beside,Input.isAny,Input.prints,hs,ha,hk,keyDelete]
  have ht : k.typed=[] := by simp [Input.typed,Input.prints,hs,ha,hk]
  have hrec : k.recalls=false := by simp [Input.recalls,Input.isAny,hk,keyUp,keyDown]
  have hz : update st.buf st.pos 0 st.pos=0 := update_self ..
  have htext : bufBytes (update st.buf st.pos 0) st.pos.toNat=
      replaced st.text st.pos.toNat st.len.toNat [] := by
    refine bufBytes_eq ?_ fun i hi => ?_
    · rw [replaced_length (by omega) (by omega)]
      simp only [List.length_nil]
      omega
    · rw [replaced_get (by omega) (by omega),if_pos hi,update_of_ne (by omega)]
      exact bufBytes_get (by omega)
  refine ⟨?_,iff_of_true ⟨⟨⟨hp.1,Int.le_refl _⟩,by dsimp only; omega⟩,hz,.inl rfl⟩ hf⟩
  simp only [Performs,hrec,Bool.false_eq_true,if_false]
  rw [hr,ht]
  exact .cut h.toInside hp.1 hp.2 (Int.le_refl _) htext rfl

theorem other_spec (h : Sound maxLen st) (hs : k.super=false) (ha : k.alt=false)
    (hup : ¬k.isAny [keyUp,0x10]=true) (hdown : ¬k.isAny [keyDown,0x0E]=true) (hcut : ¬k.key=0x17)
    (hpaste : ¬k.key=0x19) (hkill : ¬k.key=0x0B) (hdel : ¬k.isAny [0x04,keyDelete]=true)
    (hback : ¬k.isAny [0x08,0x7f]=true) (henter : ¬k.isAny [13,10]=true)
    (hprints : ¬k.prints=true) : Handled maxLen st k (.incomplete,st) := by
  simp only [mem_keys,List.mem_cons,List.not_mem_nil,or_false,not_or] at hup hdown hdel hback henter
  refine Quiet.spec ⟨?_,?_,?_,?_⟩ h.toInside ⟨h,rfl⟩
  · simp [removes,Input.takes,beside,Input.isAny,hs,ha,hcut,hpaste,hkill,hdel,hback,hprints]
  · simp [Input.typed,hs,ha,hpaste,hprints]
  · simp [Forgets,Input.isAny,hback,henter]
  · simp [Input.recalls,Input.isAny,hup,hdown]

theorem plainKey_spec (h : Sound maxLen st) (hs : k.super=false) (ha : k.alt=false) :
    Handled maxLen st k (plainKey maxLen o st k) := by
  have hp := h.pos
  have hmax : 0< maxLen := by
    have := h.room
    omega
  have hprev := u8Prev_bounds st.buf hp.1
  have hnext := u8Next_bounds st.buf hp.2
  have hleft := wordLeft_bounds st.buf hp.1
  have hright := wordRight_bounds st.buf hp.2
  have hquiet : ∀{c},k.key=c → c∈quietKeys → Quiet st k := fun hk hc =>
    quiet_of_mem hs ha (hk ▸ hc)
  have hzero : 0≤(0 : Int) ∧ 0≤ st.len := ⟨Int.le_refl _,hp.1.trans hp.2⟩
  have hend : 0≤ st.len ∧ st.len≤ st.len := ⟨hp.1.trans hp.2,Int.le_refl _⟩
  unfold plainKey
  refine iteInduction (fun hk => ?_) fun _ => ?_
  · exact (hquiet hk (by decide)).spec h.toInside
      (lineMove_spec h (by split <;> omega) k.shift)
  refine iteInduction (fun hk => ?_) fun _ => ?_
  · exact (hquiet hk (by decide)).spec h.toInside
      (lineMove_spec h (by split <;> omega) k.shift)
  refine iteInduction (fun hk => ?_) fun _ => ?_
  · exact (hquiet hk (by decide)).spec h.toInside (lineMove_spec h ⟨hprev.1,by omega⟩ false)
  refine iteInduction (fun hk => ?_) fun _ => ?_
  · exact (hquiet hk (by decide)).spec h.toInside (lineMove_spec h ⟨by omega,hnext.2⟩ false)
  refine iteInduction (fun hk => ?_) fun _ => ?_
  · exact (quiet_pair hs ha hk (by decide)).spec h.toInside (lineMove_spec h hzero k.shift)
  refine iteInduction (fun hk => ?_) fun _ => ?_
  · exact (quiet_pair hs ha hk (by decide)).spec h.toInside (lineMove_spec h hend k.shift)
  refine iteInduction (fun hk => ?_) fun hup => ?_
  · have hup : (keyUp=keyUp ∧ 0x10=0x10) ∨ (keyUp=keyDown ∧ 0x10=0x0E) := .inl ⟨rfl,rfl⟩
    refine iteInduction (fun _ => ?_) fun _ => iteInduction (fun _ => ?_) fun _ => ?_
    · exact recall_spec hs ha hk hup h (.inl rfl)
    · exact recall_spec hs ha hk hup (histShow_spec hmax _ _).1 (.inr (histShow_spec hmax _ _).2)
    · exact recall_spec hs ha hk hup h (.inl rfl)
  refine iteInduction (fun hk => ?_) fun hdown => ?_
  · have hdown : (keyDown=keyUp ∧ 0x0E=0x10) ∨ (keyDown=keyDown ∧ 0x0E=0x0E) := .inr ⟨rfl,rfl⟩
    refine iteInduction (fun _ => ?_) fun _ => iteInduction (fun _ => ?_) fun _ => ?_
    · exact recall_spec hs ha hk hdown h (.inl rfl)
    · exact recall_spec hs ha hk hdown (histShow_spec hmax _ _).1 (.inr (histShow_spec hmax _ _).2)
    · exact recall_spec hs ha hk hdown h (.inl rfl)
  refine iteInduction (fun hk => ?_) fun _ => ?_
  · exact (hquiet hk (by decide)).spec h.toInside (h.keep rfl rfl hp (.inr hp))
  refine iteInduction (fun hk => ?_) fun _ => ?_
  · have hq : Quiet st k := quiet_pair hs ha hk (by decide)
    refine iteInduction (fun _ => ?_) fun _ => ?_
    · exact cancel_spec h hq
    · exact hq.spec h.toInside h.unmark
  refine iteInduction (fun hk => ?_) fun hcut => ?_
  · refine taking_spec hs ha (.inl hk) ?_
    rw [show k.typed=[] by simp [Input.typed,Input.prints,hs,ha,hk]]
    exact deleted_spec h
  refine iteInduction (fun hk => ?_) fun hpaste => ?_
  · refine taking_spec hs ha (.inr (.inl hk)) ?_
    rw [show k.typed=k.clipboard by simp [Input.typed,hs,ha,hk]]
    exact clipPaste_spec h k.clipboard
  refine iteInduction (fun hk => ?_) fun hkill => ?_
  · exact kill_spec h hs ha hk
  refine iteInduction (fun hk => ?_) fun hdel => ?_
  · exact delete_spec h hs ha hk
  refine iteInduction (fun hk => ?_) fun hback => ?_
  · exact backspace_spec h hs ha hk
  refine iteInduction (fun hk => ?_) fun _ => ?_
  · exact (hquiet hk (by decide)).spec h.toInside ⟨h,rfl⟩
  refine iteInduction (fun hk => ?_) fun _ => ?_
  · have hq := hquiet hk (by decide)
    refine iteInduction (fun _ => ?_) fun _ => iteInduction (fun _ => ?_) fun _ => ?_
    · exact hq.spec h.toInside ⟨h,rfl⟩
    · exact ⟨⟨rfl,rfl⟩,fun hst => hst.stop,fun hz => ⟨⟨h.pos,h.room⟩,hz,h.mark⟩⟩
    · exact hq.spec h.toInside ⟨h,rfl⟩
  refine iteInduction (fun hk => ?_) fun henter => ?_
  · exact enter_spec h hs ha hk
  refine iteInduction (fun hk => ?_) fun hprints => ?_
  · refine taking_spec hs ha (.inr (.inr hk)) ?_
    rw [show k.typed=utf8Encode k.key by simp [Input.typed,hs,ha,hpaste,hk]]
    exact typed_spec h (utf8Encode k.key)
  · exact other_spec h hs ha hup hdown hcut hpaste hkill hdel hback henter hprints

theorem lineKey_spec (h : Sound maxLen st) (o : ReadlineOpts) (k : Input) :
    Handled maxLen st k (lineKey maxLen o st k) := by
  have hstill : ∀st1,Sound maxLen st1 → Handled maxLen st1 k
      (if k.super then (.incomplete,superKey maxLen st1 k)
        else if k.alt then (.incomplete,altKey st1 k) else plainKey maxLen o st1 k) := by
    intro st1 h1
    refine iteInduction (fun hs => ?_) fun hs => iteInduction (fun ha => ?_) fun ha => ?_
    · obtain ⟨hsound,hr⟩ := superKey_spec h1 hs
      have hrec : k.recalls=false := by simp [Input.recalls,hs]
      refine ⟨?_,iff_of_true hsound fun hf => by simp [Forgets,hs] at hf⟩
      simpa only [Performs,hrec,Bool.false_eq_true,if_false] using hr
    · obtain ⟨hsound,hr⟩ := altKey_spec h1 (by simpa using hs) ha
      have hrec : k.recalls=false := by simp [Input.recalls,ha]
      refine ⟨?_,iff_of_true hsound fun hf => by simp [Forgets,ha] at hf⟩
      simpa only [Performs,hrec,Bool.false_eq_true,if_false] using hr
    · exact plainKey_spec h1 (by simpa using hs) (by simpa using ha)
  unfold lineKey
  dsimp only
  by_cases hi : k.input=true
  · rw [if_pos hi]
    exact hstill st h
  · rw [if_neg hi]
    have hf : Forgets {st with dropped := 0} k ↔ Forgets st k := by
      have henter : k.isAny [13,10]=false := by
        simp only [Input.input,decide_eq_true_eq,not_or] at hi
        simp [Input.isAny,hi.1,hi.2.1]
      simp [Forgets,henter]
    obtain ⟨hp,hkeeps⟩ := hstill {st with dropped := 0} ⟨⟨h.pos,h.room⟩,h.stop,h.mark⟩
    exact ⟨hp,Keeps.congr (s := {st with dropped := 0}) rfl hf hkeeps⟩

theorem lineBegin_sound (hmax : 0< maxLen) (count : Int) (buf : Buf) :
    Sound maxLen (lineBegin count buf) := by
  have hz : update buf 0 0 0=0 := update_self ..
  exact ⟨⟨⟨Int.le_refl _,Int.le_refl _⟩,hmax⟩,hz,.inl rfl⟩

/-- A key after which the line goes on. -/
def Keyed (maxLen : Int) (o : ReadlineOpts) (st : LineState) (k : Input) (st' : LineState) : Prop :=
  lineKey maxLen o st k=(.incomplete,st')

/-- In every run of keys of which none forgets the mark, the state is sound, and every key then does
what it is to do and keeps it sound unless it is one that forgets the mark. -/
theorem editing_keeps (maxLen : Int) (hmax : 0< maxLen) (o : ReadlineOpts) (count : Int) (buf : Buf)
    (ks : List Input) (st : LineState)
    (hr : Reach (fun st k st' => Keyed maxLen o st k st' ∧ ¬Forgets st k) (lineBegin count buf) ks st) :
    Sound maxLen st ∧ ∀k,Handled maxLen st k (lineKey maxLen o st k) := by
  have hs : Sound maxLen st := by
    refine hr.invariant (fun _ st => Sound maxLen st) (lineBegin_sound hmax count buf) ?_
    rintro h st k st' hst ⟨hk,hf⟩
    have hnext := (lineKey_spec hst o k).2
    rw [hk] at hnext
    exact hnext.mpr hf
  exact ⟨hs,fun k => lineKey_spec hs o k⟩

/-- A key alone, with nothing on the clipboard and no history. -/
def press (key : Nat) (mods : UInt8) : Input := ⟨key,mods,0,[],0,fun _ => [],fun _ => 0,0⟩

def shell : ReadlineOpts := ⟨false,false⟩

def empty : LineState := lineBegin 0 fun _ => 0

def after (st : LineState) (k : Input) : LineState := (lineKey 16 shell st k).2

theorem after_keyed {st : LineState} {k : Input} (h : (lineKey 16 shell st k).1=.incomplete) :
    Keyed 16 shell st k (after st k) := Prod.ext h rfl

/-- A, Ctrl-Space, b, Ctrl-W. -/
def marked : LineState := after (after (after empty (press 97 0)) (press 0 0)) (press 98 0)

theorem editing_keeps_cut : marked.text=ofString "ab" ∧ marked.mark=1 ∧
    (after marked (press 0x17 0)).text=ofString "a" ∧ Sound 16 (after marked (press 0x17 0)) ∧
    ∀k,Handled 16 (after marked (press 0x17 0)) k (lineKey 16 shell (after marked (press 0x17 0)) k) := by
  refine ⟨by decide,by decide,by decide,?_⟩
  have hno : ∀st : LineState,∀key∈[97,0,98,0x17],¬Forgets st (press key 0) := by
    rintro st key hkey ⟨-,-,hf⟩
    simp only [List.mem_cons,List.not_mem_nil,or_false] at hkey
    rcases hkey with rfl | rfl | rfl | rfl <;> simp [Input.isAny,press] at hf
  exact editing_keeps 16 (by decide) shell 0 (fun _ => 0) _ _
    (.next (.next (.next (.next .start ⟨after_keyed rfl,hno _ 97 (by decide)⟩)
      ⟨after_keyed rfl,hno _ 0 (by decide)⟩) ⟨after_keyed rfl,hno _ 98 (by decide)⟩)
      ⟨after_keyed rfl,hno _ 0x17 (by decide)⟩)

/-- A, b, Ctrl-Space, Backspace. -/
def unmarked : LineState :=
  after (after (after (after empty (press 97 0)) (press 98 0)) (press 0 0)) (press 0x7f 0)

/-- The mark is behind the end of the line, and a cut then takes the a that is not between mark and
cursor. -/
theorem mark_forgotten : (∃ks,Reach (Keyed 16 shell) empty ks unmarked) ∧ ¬Sound 16 unmarked ∧
    unmarked.text=ofString "a" ∧ selRange unmarked=some (1,2) ∧
    (after unmarked (press 0x17 0)).text=[] := by
  refine ⟨⟨_,.next (.next (.next (.next .start (after_keyed rfl)) (after_keyed rfl))
    (after_keyed rfl)) (after_keyed rfl)⟩,fun h => ?_,by decide,by decide,by decide⟩
  have hm := h.mark
  exact absurd hm (by decide)

end LugalOS.LineEditor
