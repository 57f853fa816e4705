import Mathlib.Data.List.TakeWhile
import LugalOS.P9.Grants

namespace LugalOS.P9

open CString

/-- It stands in a line as one word. -/
def OneWord (s : Bytes) : Prop := ∀c∈s,isGap c=false ∧ c≠newline

instance (s : Bytes) : Decidable (OneWord s) := List.decidableBAll _ s

/-- A line that begins with it begins with this name. -/
def Names (s : Bytes) : Prop := s≠[] ∧ OneWord s ∧ s.head?≠some hash

instance (s : Bytes) : Decidable (Names s) := inferInstanceAs (Decidable (_ ∧ _))

theorem hexval_digit {n : UInt8} (h : n<16) : hexval (hexDigit n)=some n := by
  have : ∀m : Fin 16,hexval (hexDigit m.val.toUInt8)=some m.val.toUInt8 := by decide
  have hn := this ⟨n.toNat,UInt8.lt_iff_toNat_lt.mp h⟩
  rwa [show n.toNat.toUInt8=n from UInt8.ofNat_toNat] at hn

theorem hexDigit_word {n : UInt8} (h : n<16) :
    isGap (hexDigit n)=false ∧ isBlank (hexDigit n)=false ∧ hexDigit n≠newline ∧ hexDigit n≠0 := by
  have : ∀m : Fin 16,isGap (hexDigit m.val.toUInt8)=false ∧
      isBlank (hexDigit m.val.toUInt8)=false ∧ hexDigit m.val.toUInt8≠newline ∧
      hexDigit m.val.toUInt8≠0 := by decide
  have hn := this ⟨n.toNat,UInt8.lt_iff_toNat_lt.mp h⟩
  rwa [show n.toNat.toUInt8=n from UInt8.ofNat_toNat] at hn

theorem nibbles (b : UInt8) : b>>>4<16 ∧ b &&& 0x0f<16 ∧ (b>>>4)<<<4 ||| (b &&& 0x0f)=b := by
  have hb : ∀m : Fin 256,m.val.toUInt8>>>4<16 ∧ m.val.toUInt8 &&& 0x0f<16 ∧
      (m.val.toUInt8>>>4)<<<4 ||| (m.val.toUInt8 &&& 0x0f)=m.val.toUInt8 := by decide +kernel
  have hn := hb ⟨b.toNat,b.toNat_lt⟩
  rwa [show b.toNat.toUInt8=b from UInt8.ofNat_toNat] at hn

theorem hexText_length (key : Bytes) : (hexText key).length=2*key.length := by
  induction key with
  | nil => rfl
  | cons b key ih =>
    rw [hexText,List.flatMap_cons,List.length_append,← hexText,ih,List.length_cons (a := b)]
    change 2+_=_
    omega

theorem hexText_word {key : Bytes} {c : UInt8} (h : c∈hexText key) :
    isGap c=false ∧ isBlank c=false ∧ c≠newline ∧ c≠0 := by
  rw [hexText,List.mem_flatMap] at h
  obtain ⟨b,-,hc⟩ := h
  rw [List.mem_cons,List.mem_singleton] at hc
  obtain ⟨hhi,hlo,-⟩ := nibbles b
  rcases hc with rfl | rfl
  · exact hexDigit_word hhi
  · exact hexDigit_word hlo

theorem hexKey_text {n : Nat} {key : Bytes} (hn : key.length≤n) (rest : Bytes) :
    hexKey n (hexText key++32::rest)=(key,32::rest) := by
  induction key generalizing n with
  | nil =>
    change hexKey n (32::rest)=_
    cases n with
    | zero => rfl
    | succ n =>
      cases rest with
      | nil => rfl
      | cons b rest =>
        rw [hexKey,show hexval 32=none by decide]
  | cons b key ih =>
    cases n with
    | zero => exact absurd hn (Nat.not_succ_le_zero _)
    | succ n =>
      obtain ⟨hhi,hlo,hb⟩ := nibbles b
      change hexKey (n+1) (hexDigit (b>>>4)::hexDigit (b &&& 0x0f)::(hexText key++32::rest))=_
      rw [hexKey,hexval_digit hhi,hexval_digit hlo]
      dsimp only
      rw [ih (Nat.le_of_succ_le_succ hn),hb]

theorem nameOf_bytes (n : Name) : RCur.nameOf n.bytes=n := by
  obtain ⟨bytes,short,noNul⟩ := n
  have hcut : RCur.cut p9MaxNameLen bytes=bytes := by
    rw [RCur.cut,List.take_of_length_le (Nat.le_sub_one_of_lt short),List.takeWhile_eq_self_iff]
    intro c hc
    rw [decide_eq_true_eq]
    rintro rfl
    exact noNul hc
  simp only [RCur.nameOf,hcut]

theorem dropWhile_head {p : UInt8 → Bool} {s t : Bytes} (hs : s≠[]) (hp : ∀c∈s,p c=false) :
    (s++t).dropWhile p=s++t := by
  cases s with
  | nil => exact absurd rfl hs
  | cons c s => exact List.dropWhile_cons_of_neg (by rw [hp c List.mem_cons_self]; decide)

theorem takeWhile_word {s rest : Bytes} (hs : OneWord s) :
    (s++32::rest).takeWhile (fun c => !isGap c)=s := by
  rw [List.takeWhile_append_of_pos fun c hc => by rw [(hs c hc).1]; rfl]
  exact List.append_nil s

theorem isBlank_of_isGap {c : UInt8} (h : isGap c=false) : isBlank c=false := by
  rw [isGap,Bool.or_eq_false_iff] at h
  exact h.1

theorem modeText_word (g : Grant) : OneWord (modeText g) ∧ modeText g≠[] ∧ 0∉modeText g ∧
    (modeText g).length=2 ∧ (decide (modeText g=roWord)=g.readOnly) ∧
    decide (modeText g=adWord)=g.admin := by
  have h := g.oneMode
  unfold modeText
  cases hr : g.readOnly <;> cases ha : g.admin
  · decide
  · decide
  · decide
  · rw [hr,ha] at h
    exact absurd h (by decide)

/-- What comes back of a row: without an aname its mode is taken for one. -/
def Grant.reread (g : Grant) : Grant :=
  if g.aname.bytes=[] then
    {g with aname := RCur.nameOf (modeText g),readOnly := false,admin := false,oneMode := rfl}
  else g

theorem parseGrantLine_text {g : Grant} (hn : Names g.name.bytes) (ha : OneWord g.aname.bytes) :
    parseGrantLine (grantText g)=some g.reread := by
  obtain ⟨hmode,hmne,-,hmlen,hro,had⟩ := modeText_word g
  obtain ⟨c,cs,hc⟩ := List.exists_cons_of_ne_nil hn.1
  have hstart : (grantText g).dropWhile isGap=grantText g :=
    dropWhile_head hn.1 fun c hc => (hn.2.1 c hc).1
  have hhead : ¬(grantText g=[] ∨ (grantText g).head?=some hash) := by
    rintro (h | h)
    · exact absurd (List.append_eq_nil_iff.mp h).1 hn.1
    · rw [grantText,hc] at h
      exact hn.2.2 (by rw [hc]; exact h)
  have hkey : ((grantText g).drop g.name.bytes.length).dropWhile isBlank=
      hexText g.key++32::(g.aname.bytes++32::modeText g) := by
    rw [grantText,List.drop_left,List.dropWhile_cons_of_pos (by decide)]
    refine dropWhile_head (fun h => g.keyed ?_) fun c hc => (hexText_word hc).2.1
    have := congrArg List.length h
    rw [hexText_length] at this
    exact List.eq_nil_of_length_eq_zero (by simpa using this)
  have hread := hexKey_text g.keyFits (g.aname.bytes++32::modeText g)
  unfold parseGrantLine
  dsimp only
  rw [hstart,if_neg hhead,show (grantText g).takeWhile (fun c => !isGap c)=g.name.bytes from
    takeWhile_word hn.2.1]
  simp only [hkey,hread,dif_neg g.keyed,nameOf_bytes]
  have hblank : (32::modeText g).dropWhile isBlank=modeText g := by
    rw [List.dropWhile_cons_of_pos (by decide)]
    have := dropWhile_head (t := []) hmne fun c hc => isBlank_of_isGap (hmode c hc).1
    rwa [List.append_nil] at this
  by_cases h0 : g.aname.bytes=[]
  · have hk : (32::(g.aname.bytes++32::modeText g)).dropWhile isBlank=modeText g := by
      rw [h0,List.dropWhile_cons_of_pos (by decide)]
      exact hblank
    have hw : (modeText g).takeWhile (fun c => !isGap c)=modeText g := by
      rw [List.takeWhile_eq_self_iff]
      intro c hc
      rw [(hmode c hc).1]
      rfl
    simp only [hk,hw,if_neg hmne,List.drop_length,Grant.reread,if_pos h0]
    rfl
  · have hk : (32::(g.aname.bytes++32::modeText g)).dropWhile isBlank=
        g.aname.bytes++32::modeText g := by
      rw [List.dropWhile_cons_of_pos (by decide)]
      exact dropWhile_head h0 fun c hc => isBlank_of_isGap (ha c hc).1
    have hm : (modeText g).take 2=modeText g := List.take_of_length_le hmlen.le
    simp only [hk,takeWhile_word ha,if_neg h0,List.drop_left,hblank,hm,hro,had,nameOf_bytes,
      Grant.reread]

theorem cut_start (n : Nat) (s : Bytes) : RCur.cut n s<+:s :=
  (List.takeWhile_prefix _).trans (List.take_prefix _ _)

theorem cut_ne_nil {n : Nat} {s : Bytes} (hn : 1 < n) (hs : s≠[]) (h0 : 0∉s) : RCur.cut n s≠[] := by
  obtain ⟨m,rfl⟩ : ∃m,n=m+2 := ⟨n-2,by omega⟩
  cases s with
  | nil => exact absurd rfl hs
  | cons c s =>
    rw [RCur.cut,show m+2-1=m+1 from rfl,List.take_succ_cons,List.takeWhile_cons_of_pos]
    · exact List.cons_ne_nil _ _
    · rw [decide_eq_true_eq]
      rintro rfl
      exact h0 List.mem_cons_self

theorem OneWord.of_start {s t : Bytes} (h : OneWord t) (hp : s<+:t) : OneWord s :=
  fun c hc => h c (hp.subset hc)

theorem takeWhile_oneWord {s : Bytes} (hs : newline∉s) :
    OneWord (s.takeWhile fun c => !isGap c) := by
  intro c hc
  refine ⟨by simpa using List.mem_takeWhile_imp hc,?_⟩
  rintro rfl
  exact hs ((List.takeWhile_prefix _).subset hc)

theorem hexKey_suffix (n : Nat) (k : Bytes) : (hexKey n k).2<:+k := by
  induction n generalizing k with
  | zero => exact List.suffix_refl k
  | succ n ih =>
    rw [hexKey.eq_def]
    split
    · rename_i n' a b k hn
      obtain rfl : n=n' := Nat.succ.inj hn
      split
      · exact (ih k).trans ((List.suffix_cons b k).trans (List.suffix_cons a _))
      · exact List.suffix_refl _
    · exact List.suffix_refl _

theorem parseGrantLine_words {line : Bytes} {g : Grant} (h : parseGrantLine line=some g)
    (hl : newline∉line) : OneWord g.name.bytes ∧ g.name.bytes.head?≠some hash ∧
      OneWord g.aname.bytes ∧ (0∉line → g.name.bytes≠[] ∧ g.aname.bytes≠[]) := by
  have hsub : (line.dropWhile isGap)<:+line := List.dropWhile_suffix _
  unfold parseGrantLine at h
  dsimp only at h
  by_cases hno : line.dropWhile isGap=[] ∨ (line.dropWhile isGap).head?=some hash
  · rw [if_pos hno] at h
    cases h
  · rw [if_neg hno] at h
    obtain ⟨hne,hhash⟩ := not_or.mp hno
    have hgap : isGap ((line.dropWhile isGap).head hne)=false :=
      List.head_dropWhile_not isGap hne
    generalize line.dropWhile isGap=rest at h hsub hne hhash hgap
    have hcol : ((rest.drop (rest.takeWhile fun c => !isGap c).length).dropWhile isBlank)<:+line :=
      (List.dropWhile_suffix _).trans ((List.drop_suffix _ _).trans hsub)
    generalize (rest.drop (rest.takeWhile fun c => !isGap c).length).dropWhile isBlank=k at h hcol
    by_cases hkey : (hexKey p9AuthKeyMax k).1=[]
    · rw [dif_pos hkey] at h
      cases h
    · rw [dif_neg hkey] at h
      have hcol' : (hexKey p9AuthKeyMax k).2.dropWhile isBlank<:+line :=
        (List.dropWhile_suffix _).trans ((hexKey_suffix _ _).trans hcol)
      generalize (hexKey p9AuthKeyMax k).2.dropWhile isBlank=k' at h hcol'
      cases h
      obtain ⟨c,cs,rfl⟩ := List.exists_cons_of_ne_nil hne
      have hc : (!isGap c)=true := by
        rw [show isGap c=false from hgap]
        rfl
      have hfirst : (c::cs).takeWhile (fun c => !isGap c)=c::cs.takeWhile fun c => !isGap c :=
        List.takeWhile_cons_of_pos hc
      refine ⟨(takeWhile_oneWord fun hm => hl (hsub.subset hm)).of_start (cut_start _ _),?_,?_,
        fun h0 => ⟨cut_ne_nil (by decide) (by rw [hfirst]; exact List.cons_ne_nil _ _) fun hm =>
          h0 (hsub.subset ((List.takeWhile_prefix _).subset hm)),?_⟩⟩
      · intro hh
        change (RCur.cut p9MaxNameLen _).head?=_ at hh
        rw [hfirst] at hh
        obtain ⟨t,ht⟩ := cut_start p9MaxNameLen (c::cs.takeWhile fun c => !isGap c)
        have := congrArg List.head? ht
        rw [List.head?_append_of_ne_nil _ (fun h => by rw [h] at hh; cases hh),hh] at this
        exact hhash this.symm
      · change OneWord (RCur.cut p9MaxNameLen _)
        split_ifs
        · decide
        · exact (takeWhile_oneWord fun hm => hl (hcol'.subset hm)).of_start (cut_start _ _)
      · change RCur.cut p9MaxNameLen _≠[]
        split_ifs with ha
        · decide
        · exact cut_ne_nil (by decide) ha fun hm =>
            h0 (hcol'.subset ((List.takeWhile_prefix _).subset hm))

theorem linesFrom_line {l : Bytes} (h : newline∉l) (cur rest : Bytes) :
    linesFrom cur (l++newline::rest)=(cur++l)::linesFrom [] rest := by
  induction l generalizing cur with
  | nil =>
    change linesFrom cur (newline::rest)=_
    rw [linesFrom,if_pos rfl,List.append_nil]
  | cons c l ih =>
    obtain ⟨hc,hl⟩ := not_or.mp fun hm => h (List.mem_cons.mpr hm)
    change linesFrom cur (c::(l++newline::rest))=_
    rw [linesFrom,if_neg (Ne.symm hc),ih hl,List.append_assoc]
    rfl

theorem linesFrom_mem {text cur line : Bytes} (h : line∈linesFrom cur text) {c : UInt8}
    (hc : c∈line) : c∈cur ∨ c∈text ∧ c≠newline := by
  induction text generalizing cur with
  | nil =>
    rw [linesFrom,List.mem_singleton] at h
    exact .inl (h ▸ hc)
  | cons x text ih =>
    rw [linesFrom] at h
    split_ifs at h with hx
    · rcases List.mem_cons.mp h with rfl | h
      · exact .inl hc
      · rcases ih h with hm | ⟨hm,hne⟩
        · exact absurd hm List.not_mem_nil
        · exact .inr ⟨List.mem_cons_of_mem _ hm,hne⟩
    · rcases ih h with hm | ⟨hm,hne⟩
      · rcases List.mem_append.mp hm with hm | hm
        · exact .inl hm
        · obtain rfl := List.mem_singleton.mp hm
          exact .inr ⟨List.mem_cons_self,hx⟩
      · exact .inr ⟨List.mem_cons_of_mem _ hm,hne⟩

theorem grantRows_length (n : Nat) (ls : List Bytes) : (grantRows n ls).length≤n := by
  induction ls generalizing n with
  | nil => cases n <;> exact Nat.zero_le _
  | cons l ls ih =>
    cases n with
    | zero => exact Nat.zero_le _
    | succ n =>
      rw [grantRows]
      split
      · exact ih (n+1)
      · exact Nat.succ_le_succ (ih n)

theorem grantRows_mem {n : Nat} {ls : List Bytes} {g : Grant} (h : g∈grantRows n ls) :
    ∃line∈ls,parseGrantLine line=some g := by
  induction ls generalizing n with
  | nil => cases n <;> exact absurd h List.not_mem_nil
  | cons l ls ih =>
    cases n with
    | zero => exact absurd h List.not_mem_nil
    | succ n =>
      have hlater : ∀m,g∈grantRows m ls → ∃line∈l::ls,parseGrantLine line=some g := by
        intro m hm
        obtain ⟨line,hline,hp⟩ := ih hm
        exact ⟨line,List.mem_cons_of_mem _ hline,hp⟩
      rw [grantRows] at h
      split at h
      · exact hlater _ h
      · rename_i g' hp
        rcases List.mem_cons.mp h with rfl | h
        · exact ⟨l,List.mem_cons_self,hp⟩
        · exact hlater _ h

theorem grantRows_words {n : Nat} {text : Bytes} {g : Grant}
    (h : g∈grantRows n (linesFrom [] text)) : OneWord g.name.bytes ∧ g.name.bytes.head?≠some hash ∧
      OneWord g.aname.bytes ∧ (0∉text → g.name.bytes≠[] ∧ g.aname.bytes≠[]) := by
  obtain ⟨line,hline,hp⟩ := grantRows_mem h
  have hsub : ∀c∈line,c∈text ∧ c≠newline := by
    intro c hc
    rcases linesFrom_mem hline hc with hm | hm
    · exact absurd hm List.not_mem_nil
    · exact hm
  obtain ⟨h1,h2,h3,h4⟩ := parseGrantLine_words hp fun hm => (hsub _ hm).2 rfl
  exact ⟨h1,h2,h3,fun h0 => h4 fun hm => h0 (hsub _ hm).1⟩

def grantsOut (rows : List Grant) : Bytes := rows.flatMap fun g => grantText g++[newline]

theorem grantText_bytes (g : Grant) : 0∉grantText g ∧
    (Names g.name.bytes → OneWord g.aname.bytes → newline∉grantText g) := by
  obtain ⟨hmode,-,hm0,-⟩ := modeText_word g
  simp only [grantText,List.mem_append,List.mem_cons,not_or]
  refine ⟨⟨g.name.noNul,by decide,fun hm => (hexText_word hm).2.2.2 rfl,by decide,g.aname.noNul,
    by decide,hm0⟩,fun hn ha => ⟨fun hm => (hn.2.1 _ hm).2 rfl,by decide,
    fun hm => (hexText_word hm).2.2.1 rfl,by decide,fun hm => (ha _ hm).2 rfl,by decide,
    fun hm => (hmode _ hm).2 rfl⟩⟩

theorem grantsOut_noNul (rows : List Grant) : 0∉grantsOut rows := by
  intro hm
  obtain ⟨g,-,hm⟩ := List.mem_flatMap.mp hm
  rcases List.mem_append.mp hm with hm | hm
  · exact (grantText_bytes g).1 hm
  · exact absurd (List.mem_singleton.mp hm) (by decide)

theorem grantText_length (g : Grant) : (grantText g).length+1=
    g.name.bytes.length+1+g.key.length*2+1+g.aname.bytes.length+1+2+1 ∧
    (grantText g).length+1≤196 := by
  have h1 : g.name.bytes.length<32 := g.name.short
  have h2 : g.aname.bytes.length<32 := g.aname.short
  have h3 : g.key.length≤64 := g.keyFits
  have h4 := (modeText_word g).2.2.2.1
  simp only [grantText,List.length_append,List.length_cons,hexText_length,h4]
  constructor <;> omega

theorem grantsOut_length (rows : List Grant) : (grantsOut rows).length≤196*rows.length := by
  induction rows with
  | nil => exact Nat.le_refl _
  | cons g rows ih =>
    have := (grantText_length g).2
    rw [grantsOut] at ih ⊢
    rw [List.flatMap_cons,List.length_append,List.length_append,List.length_cons (a := g),
      List.length_singleton]
    omega

theorem p9GrantSerialize_all {cap : Nat} (rows : List Grant) (used : Nat)
    (h : used+196*rows.length≤cap) : p9GrantSerialize cap used rows=grantsOut rows := by
  induction rows generalizing used with
  | nil => rfl
  | cons g rows ih =>
    obtain ⟨hneed,hle⟩ := grantText_length g
    rw [List.length_cons] at h
    rw [p9GrantSerialize,← hneed,if_neg (by omega),ih _ (by omega),grantsOut,grantsOut,List.flatMap_cons,
      List.append_assoc]
    rfl

theorem grantRows_out {n : Nat} {rows : List Grant} (hn : rows.length≤n)
    (h : ∀g∈rows,Names g.name.bytes ∧ OneWord g.aname.bytes) :
    grantRows n (linesFrom [] (grantsOut rows))=rows.map Grant.reread := by
  induction rows generalizing n with
  | nil =>
    cases n with
    | zero => rfl
    | succ n =>
      change grantRows (n+1) [[]]=[]
      rw [grantRows,show parseGrantLine []=none by decide,grantRows]
  | cons g rows ih =>
    obtain ⟨hn1,ha1⟩ := h g List.mem_cons_self
    cases n with
    | zero => exact absurd hn (Nat.not_succ_le_zero _)
    | succ n =>
      have htext : grantsOut (g::rows)=grantText g++newline::grantsOut rows := by
        rw [grantsOut,List.flatMap_cons,List.append_assoc]
        rfl
      rw [htext,linesFrom_line ((grantText_bytes g).2 hn1 ha1),List.nil_append,grantRows,
        parseGrantLine_text hn1 ha1]
      dsimp only
      rw [ih (Nat.le_of_succ_le_succ hn) fun e he => h e (List.mem_cons_of_mem _ he),List.map_cons]

end LugalOS.P9
