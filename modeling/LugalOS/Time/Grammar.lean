import Mathlib.Data.List.Induction
import LugalOS.Time.Timezone

/-! The texts that name a zone, and which of them the parser takes. A text is loose when the parser
takes it: an offset may have a colon behind its seconds, and what counts of a rule's number is what
an int32_t holds of it. -/

namespace LugalOS.Time

open CString Scanner

/-- Three to eight letters, or one to eight characters in angle brackets. -/
inductive NameText : Bytes → Prop
  | letters {n : Bytes} (all : ∀c∈n,isLetter c) (least : 3≤n.length) (most : n.length≤tzNameMax) :
      NameText n
  | angle {n : Bytes} (all : ∀c∈n,c≠62) (least : 1≤n.length) (most : n.length≤tzNameMax) :
      NameText (60::n++[62])

/-- One or two digits, a number up to b. -/
structure TwoDigits (b : Nat) (ds : Bytes) : Prop where
  digits : ∀c∈ds,isDigit c
  least : 1≤ds.length
  most : ds.length≤2
  bound : number ds≤b

/-- Parts with the bounds given, the later ones optional. -/
inductive PartsText (loose : Bool) : List Nat → Bytes → Prop
  | last {b : Nat} {bs : List Nat} {ds : Bytes} (h : TwoDigits b ds) : PartsText loose (b::bs) ds
  | more {b : Nat} {bs : List Nat} {ds t : Bytes} (h : TwoDigits b ds)
      (rest : PartsText loose bs t) : PartsText loose (b::bs) (ds++58::t)
  | colon {b : Nat} {ds : Bytes} (hl : loose) (h : TwoDigits b ds) : PartsText loose [b] (ds++[58])

def OffsetText (loose : Bool) (t : Bytes) : Prop :=
  ∃sg∈[[],[43],[45]],∃t',t=sg++t' ∧ PartsText loose [24,59,59] t'

/-- The number that digits make in an int32_t. -/
def held (ds : Bytes) : Int := ds.foldl (fun acc c => i32 (acc*10+digit c)) 0

/-- A number from lo to hi, of any length. -/
structure FieldText (loose : Bool) (lo hi : Int) (ds : Bytes) : Prop where
  some : ds≠[]
  digits : ∀c∈ds,isDigit c
  range : lo≤(if loose then held ds else number ds) ∧ (if loose then held ds else number ds)≤hi

/-- The parts of Mm.w.d[/time]. -/
structure RuleForm where
  mon : Bytes
  week : Bytes
  dow : Bytes
  time : Option Bytes

namespace RuleForm

def text (f : RuleForm) : Bytes :=
  77::f.mon++46::f.week++46::f.dow++(f.time.elim [] (47::·))

structure Well (loose : Bool) (f : RuleForm) : Prop where
  mon : FieldText loose 1 12 f.mon
  week : FieldText loose 1 5 f.week
  dow : FieldText loose 0 6 f.dow
  time : ∀t∈f.time,OffsetText loose t

def numbers (f : RuleForm) : List Bytes := [f.mon,f.week,f.dow]

end RuleForm

/-- The parts of name[offset],rule,rule. -/
structure SummerForm where
  name : Bytes
  off : Option Bytes
  start : RuleForm
  stop : RuleForm

namespace SummerForm

def text (f : SummerForm) : Bytes :=
  f.name++(f.off.getD []++44::f.start.text++44::f.stop.text)

structure Well (loose : Bool) (f : SummerForm) : Prop where
  name : NameText f.name
  off : ∀t∈f.off,OffsetText loose t
  start : f.start.Well loose
  stop : f.stop.Well loose

end SummerForm

/-- The parts of name offset [name [offset],rule,rule]. -/
structure ZoneForm where
  name : Bytes
  off : Bytes
  summer : Option SummerForm

namespace ZoneForm

def text (f : ZoneForm) : Bytes := f.name++(f.off++f.summer.elim [] SummerForm.text)

structure Well (loose : Bool) (f : ZoneForm) : Prop where
  name : NameText f.name
  off : OffsetText loose f.off
  summer : ∀u∈f.summer,u.Well loose

def offsets (f : ZoneForm) : List Bytes :=
  f.off::f.summer.elim [] fun u => u.off.toList++u.start.time.toList++u.stop.time.toList

def numbers (f : ZoneForm) : List Bytes :=
  f.summer.elim [] fun u => u.start.numbers++u.stop.numbers

end ZoneForm

/-- The grammar that the parser is written for. -/
def ZoneText (s : Bytes) : Prop := ∃f : ZoneForm,f.text=s ∧ f.Well false

/-- A text that is no name of a zone but for a colon behind the seconds of an offset, or for what an
int32_t holds of a number from 2^31 on. -/
def Slips (s : Bytes) : Prop :=
  ∃f : ZoneForm,f.text=s ∧ f.Well true ∧
    ((∃o∈f.offsets,o.getLast?=some 58) ∨ ∃ds∈f.numbers,2^31≤number ds)

def NotLetter (r : Bytes) : Prop := ∀c∈r.head?,isLetter c=false

def NotDigit (r : Bytes) : Prop := ∀c∈r.head?,isDigit c=false

def Stops (r : Bytes) : Prop := ∀c∈r.head?,isDigit c=false ∧ c≠58

def Ends (r : Bytes) : Prop := ∀c∈r.head?,c=44

theorem Stops.notDigit {r : Bytes} (h : Stops r) : NotDigit r := fun c hc => (h c hc).1

theorem Ends.stops {r : Bytes} (h : Ends r) : Stops r := by
  intro c hc
  obtain rfl := h c hc
  decide

theorem notDigit_letter {c : UInt8} (h : isLetter c=true) : isDigit c=false ∧ c≠58 ∧ c≠60 := by
  simp only [isLetter,decide_eq_true_eq] at h
  simp only [isDigit,decide_eq_false_iff_not]
  refine ⟨?_,?_,?_⟩
  · rintro ⟨-,h'⟩
    rcases h with ⟨h,-⟩ | ⟨h,-⟩ <;> exact absurd (UInt8.le_trans h h') (by decide)
  all_goals
    rintro rfl
    exact absurd h (by decide)

theorem parseName_letters {s : Bytes} (h : s.head?≠some 60) :
    parseName s=(if (scan isLetter tzNameMax s).1.length<3 then none
      else some (scan isLetter tzNameMax s)) := by
  unfold parseName
  split
  · simp at h
  · rfl

theorem parseName_scans : Scans parseName NameText NotLetter where
  sound := by
    intro s a r h
    by_cases hs : s.head?=some 60
    · obtain ⟨s,rfl⟩ : ∃s',s=60::s' := by
        cases s with
        | nil => cases hs
        | cons c s =>
          cases hs
          exact ⟨s,rfl⟩
      simp only [parseName] at h
      split at h
      · rename_i n r' hscan
        obtain ⟨hs,hn,hl⟩ := scan_sound hscan
        split_ifs at h with hpos
        cases h
        refine ⟨60::a++[62],by simp [hs],.angle (fun c hc => ?_) hpos hl⟩
        simpa using hn c hc
      · cases h
    · rw [parseName_letters hs] at h
      split_ifs at h with hl
      rw [Option.some.injEq] at h
      obtain ⟨hs,hn,hm⟩ := scan_sound h
      have hl' : ¬a.length<3 := by rwa [h] at hl
      exact ⟨a,hs,.letters hn (by omega) hm⟩
  complete := by
    intro t r ht hr
    cases ht with
    | letters all least most =>
      have hscan := scan_complete all most (.inr hr)
      have hne : (t++r).head?≠some 60 := by
        cases t with
        | nil => simp at least
        | cons c t =>
          have hc := (notDigit_letter (all c (by simp))).2.2
          simpa using hc
      rw [parseName_letters hne,hscan,if_neg (by simp only; omega)]
      exact ⟨t,rfl⟩
    | @angle n all least most =>
      have hscan := scan_complete (p := (· ≠ 62)) (r := 62::r) (fun c hc => by simpa using all c hc)
        most (.inr (by simp))
      refine ⟨n,?_⟩
      simp only [List.cons_append,List.append_assoc,List.nil_append,parseName,hscan]
      rw [if_pos (show 0<n.length from least)]

theorem NameText.head {t : Bytes} (h : NameText t) :
    ∃c t',t=c::t' ∧ isDigit c=false ∧ c≠58 ∧ c≠44 := by
  cases h with
  | letters all least most =>
    cases t with
    | nil => simp at least
    | cons c t =>
      have hc := all c (by simp)
      obtain ⟨h1,h2,-⟩ := notDigit_letter hc
      refine ⟨c,t,rfl,h1,h2,?_⟩
      rintro rfl
      exact absurd hc (by decide)
  | angle all least most => exact ⟨60,_,rfl,by decide,by decide,by decide⟩

theorem notDigit_colon {ds : Bytes} (h : ∀c∈ds,isDigit c) : (58 : UInt8)∉ds := fun hc =>
  absurd (h 58 hc) (by decide)

theorem getLast?_colon {ds : Bytes} (h : ∀c∈ds,isDigit c) : ds.getLast?≠some 58 := fun he =>
  notDigit_colon h (List.mem_of_getLast? he)

theorem TwoDigits.ne_nil {b : Nat} {ds : Bytes} (h : TwoDigits b ds) : ds≠[] := by
  rintro rfl
  exact absurd h.least (by simp)

theorem PartsText.ne_nil {loose : Bool} {bs : List Nat} {t : Bytes} (h : PartsText loose bs t) :
    t≠[] := by
  cases h with
  | last h => exact h.ne_nil
  | more h rest | colon hl h => simp

theorem getLast?_behind {ds t : Bytes} (ht : t≠[]) : (ds++58::t).getLast?=t.getLast? := by
  cases t with
  | nil => exact absurd rfl ht
  | cons c t => simp [List.getLast?_append,List.getLast?_cons]

theorem PartsText.strict {bs : List Nat} {t : Bytes} (h : PartsText false bs t) :
    t.getLast?≠some 58 := by
  induction h with
  | last h => exact getLast?_colon h.digits
  | more h rest ih => rwa [getLast?_behind rest.ne_nil]
  | colon hl h => cases hl

theorem PartsText.of_last {loose : Bool} {bs : List Nat} {t : Bytes} (h : PartsText loose bs t)
    (hl : t.getLast?≠some 58) : PartsText false bs t := by
  induction h with
  | last h => exact .last h
  | more h rest ih =>
    rw [getLast?_behind rest.ne_nil] at hl
    exact .more h (ih hl)
  | colon _ h => simp at hl

theorem PartsText.loosen {loose : Bool} {bs : List Nat} {t : Bytes} (h : PartsText loose bs t) :
    PartsText true bs t := by
  induction h with
  | last h => exact .last h
  | more h rest ih => exact .more h ih
  | colon hl h => exact .colon rfl h

theorem offsetParts_digits {k : Nat} {ds r : Bytes} (hd : ∀c∈ds,isDigit c) (h0 : ds≠[])
    (h2 : ds.length≤2) (hr : Stops r) : offsetParts (k+1) (ds++r)=some ([number ds],r) := by
  have hscan := scan_complete hd h2 (.inr hr.notDigit)
  rw [offsetParts,hscan]
  split
  · rename_i he
    exact absurd (congrArg Prod.fst he) h0
  · rename_i he
    cases he
    exact absurd rfl (hr 58 rfl).2
  · rename_i he
    cases he
    rfl

theorem offsetParts_colon {k : Nat} {ds s r : Bytes} {vs : List Nat} (hd : ∀c∈ds,isDigit c)
    (h0 : ds≠[]) (h2 : ds.length≤2) (hs : offsetParts k s=some (vs,r)) :
    offsetParts (k+1) (ds++58::s)=some (number ds::vs,r) := by
  have hscan := scan_complete (r := 58::s) hd h2 (.inr (by simp [isDigit]))
  rw [offsetParts,hscan]
  split
  · rename_i he
    exact absurd (congrArg Prod.fst he) h0
  · rename_i he
    cases he
    rw [hs]
  · rename_i hne he
    cases he
    exact (hne _ rfl).elim

theorem offsetParts_some {k : Nat} {s r : Bytes} {vs : List Nat}
    (h : offsetParts (k+1) s=some (vs,r)) : ∃ds,(∀c∈ds,isDigit c) ∧ ds≠[] ∧ ds.length≤2 ∧
      (s=ds++r ∧ vs=[number ds] ∨
        ∃s' vs',s=ds++58::s' ∧ vs=number ds::vs' ∧ offsetParts k s'=some (vs',r)) := by
  rw [offsetParts] at h
  split at h
  · cases h
  · rename_i ds s' hne hscan
    obtain ⟨hs,hd,hl⟩ := scan_sound hscan
    refine ⟨ds,hd,hne,hl,.inr ?_⟩
    split at h
    · rename_i vs' r' hp
      cases h
      exact ⟨s',vs',hs,rfl,hp⟩
    · cases h
  · rename_i ds s' hne _ hscan
    obtain ⟨hs,hd,hl⟩ := scan_sound hscan
    cases h
    exact ⟨ds,hd,hne,hl,.inl ⟨hs,rfl⟩⟩

theorem offsetParts_sound : ∀{bs : List Nat} {s r : Bytes} {vs : List Nat},bs≠[] →
    offsetParts bs.length s=some (vs,r) → (∀i,vs.getD i 0≤bs.getD i 0) →
    ∃t,s=t++r ∧ PartsText true bs t
  | [],_,_,_,h0,_,_ => absurd rfl h0
  | b::bs,s,r,vs,_,h,hb => by
    obtain ⟨ds,hd,hn,hl,⟨hs,rfl⟩ | ⟨s',vs',hs,rfl,hp⟩⟩ := offsetParts_some h
    all_goals have h2 : TwoDigits b ds := ⟨hd,List.length_pos_iff.mpr hn,hl,hb 0⟩
    · exact ⟨ds,hs,.last h2⟩
    cases bs with
    | nil =>
      cases hp
      exact ⟨ds++[58],by simp [hs],.colon rfl h2⟩
    | cons b' bs =>
      obtain ⟨t,ht,hw⟩ := offsetParts_sound (by simp) hp fun i => hb (i+1)
      exact ⟨ds++58::t,by simp [hs,ht],.more h2 hw⟩

theorem offsetParts_complete {bs : List Nat} {t r : Bytes} (h : PartsText true bs t) (hr : Stops r) :
    ∃vs,offsetParts bs.length (t++r)=some (vs,r) ∧ ∀i,vs.getD i 0≤bs.getD i 0 := by
  induction h with
  | last h =>
    refine ⟨_,offsetParts_digits h.digits h.ne_nil h.most hr,fun i => ?_⟩
    cases i with
    | zero => exact h.bound
    | succ i => simp
  | @more b bs ds t h rest ih =>
    obtain ⟨vs,hp,hb⟩ := ih
    refine ⟨number ds::vs,?_,fun i => ?_⟩
    · rw [List.append_assoc]
      exact offsetParts_colon h.digits h.ne_nil h.most hp
    · cases i with
      | zero => exact h.bound
      | succ i => exact hb i
  | @colon b ds _ h =>
    refine ⟨[number ds],?_,fun i => ?_⟩
    · rw [List.append_assoc]
      exact offsetParts_colon h.digits h.ne_nil h.most rfl
    · cases i with
      | zero => exact h.bound
      | succ i => simp

theorem offsetSign_cases (s : Bytes) : ∃sg∈[[],[43],[45]],∃s',s=sg++s' ∧ (offsetSign s).2=s' := by
  unfold offsetSign
  split
  · exact ⟨[43],by simp,_,rfl,rfl⟩
  · exact ⟨[45],by simp,_,rfl,rfl⟩
  · exact ⟨[],by simp,_,rfl,rfl⟩

theorem offsetSign_append {sg s : Bytes} (hsg : sg∈[[],[43],[45]]) {c : UInt8}
    (hc : c∈s.head?) (hd : isDigit c=true) : (offsetSign (sg++s)).2=s := by
  cases s with
  | nil => cases hc
  | cons d s =>
    cases hc
    simp only [List.mem_cons,List.not_mem_nil,or_false] at hsg
    rcases hsg with rfl | rfl | rfl
    · unfold offsetSign
      split
      · rename_i he
        cases he
        exact absurd hd (by decide)
      · rename_i he
        cases he
        exact absurd hd (by decide)
      · rfl
    · rfl
    · rfl

theorem TwoDigits.head {b : Nat} {ds : Bytes} (h : TwoDigits b ds) (t : Bytes) :
    ∃c∈(ds++t).head?,isDigit c=true := by
  obtain ⟨hd,hl,-,-⟩ := h
  cases ds with
  | nil => simp at hl
  | cons c ds => exact ⟨c,rfl,hd c (by simp)⟩

theorem PartsText.head {loose : Bool} {bs : List Nat} {t : Bytes} (h : PartsText loose bs t)
    (r : Bytes) : ∃c∈(t++r).head?,isDigit c=true := by
  cases h with
  | last h => exact h.head r
  | more h rest | colon hl h =>
    rw [List.append_assoc]
    exact h.head _

theorem offsetParts_length : ∀{k : Nat} {s r : Bytes} {vs : List Nat},
    offsetParts k s=some (vs,r) → vs.length≤k
  | 0,_,_,_,h => by
    cases h
    simp
  | k+1,_,_,_,h => by
    obtain ⟨ds,-,-,-,⟨-,rfl⟩ | ⟨s',vs',-,rfl,hp⟩⟩ := offsetParts_some h
    · simp
    · simpa using offsetParts_length hp

theorem bounds_iff {vs : List Nat} (hl : vs.length≤3) : (∀i,vs.getD i 0≤[24,59,59].getD i 0) ↔
    ¬(24<vs.getD 0 0 ∨ 59<vs.getD 1 0 ∨ 59<vs.getD 2 0) := by
  constructor
  · intro h
    have h0 := h 0
    have h1 := h 1
    have h2 := h 2
    simp only [List.getD_cons_zero,List.getD_cons_succ] at h0 h1 h2
    omega
  · intro h i
    match i with
    | 0 =>
      simp only [List.getD_cons_zero]
      omega
    | 1 =>
      simp only [List.getD_cons_zero,List.getD_cons_succ]
      omega
    | 2 =>
      simp only [List.getD_cons_zero,List.getD_cons_succ]
      omega
    | i+3 =>
      have hv : vs[i+3]?=none := List.getElem?_eq_none (by omega)
      simp [hv]

theorem parseOffset_scans : Scans parseOffset (OffsetText true) Stops where
  sound := by
    intro s v r h
    obtain ⟨sg,hsg,s',hs,he⟩ := offsetSign_cases s
    unfold parseOffset at h
    simp only [he] at h
    split at h
    · cases h
    · rename_i vs r' hp
      split_ifs at h with hb
      cases h
      have hb' := (bounds_iff (offsetParts_length hp)).mpr hb
      have h0 : [24,59,59]≠[] := by simp
      obtain ⟨t,ht,hw⟩ := offsetParts_sound h0 hp hb'
      exact ⟨sg++t,by rw [hs,ht,List.append_assoc],sg,hsg,t,rfl,hw⟩
  complete := by
    rintro t r ⟨sg,hsg,t',rfl,hw⟩ hr
    obtain ⟨c,hc,hd⟩ := hw.head r
    obtain ⟨vs,hp,hb⟩ := offsetParts_complete hw hr
    have hb' := (bounds_iff (offsetParts_length hp)).mp hb
    have hs := offsetSign_append hsg hc hd
    rw [List.append_assoc]
    unfold parseOffset
    generalize offsetSign (sg++(t'++r))=sign at hs ⊢
    obtain ⟨sign,s⟩ := sign
    obtain rfl : s=t'++r := hs
    simp only [show offsetParts 3 (t'++r)=some (vs,r) from hp]
    exact ⟨_,if_neg hb'⟩

theorem OffsetText.head {loose : Bool} {t : Bytes} (h : OffsetText loose t) (r : Bytes) :
    ∃c∈(t++r).head?,isLetter c=false ∧ c≠44 := by
  obtain ⟨sg,hsg,t',rfl,hw⟩ := h
  simp only [List.mem_cons,List.not_mem_nil,or_false] at hsg
  rcases hsg with rfl | rfl | rfl
  · obtain ⟨c,hc,hd⟩ := hw.head r
    refine ⟨c,hc,?_,?_⟩
    · by_contra hl
      rw [Bool.not_eq_false] at hl
      rw [(notDigit_letter hl).1] at hd
      cases hd
    · rintro rfl
      cases hd
  · exact ⟨43,rfl,by decide,by decide⟩
  · exact ⟨45,rfl,by decide,by decide⟩

theorem OffsetText.loosen {loose : Bool} {t : Bytes} (h : OffsetText loose t) :
    OffsetText true t := by
  obtain ⟨sg,hsg,t',ht,hw⟩ := h
  exact ⟨sg,hsg,t',ht,hw.loosen⟩

theorem OffsetText.strict_iff {t : Bytes} :
    OffsetText false t ↔ OffsetText true t ∧ t.getLast?≠some 58 := by
  have hlast : ∀{sg t' : Bytes},t'≠[] → (sg++t').getLast?=t'.getLast? := by
    intro sg t' h0
    cases t' with
    | nil => exact absurd rfl h0
    | cons c t' => simp [List.getLast?_append,List.getLast?_cons]
  constructor
  · rintro ⟨sg,hsg,t',rfl,hw⟩
    rw [hlast hw.ne_nil]
    exact ⟨⟨sg,hsg,t',rfl,hw.loosen⟩,hw.strict⟩
  · rintro ⟨⟨sg,hsg,t',rfl,hw⟩,hl⟩
    rw [hlast hw.ne_nil] at hl
    exact ⟨sg,hsg,t',rfl,hw.of_last hl⟩

theorem ruleNumber_append {ds r : Bytes} (h0 : ds≠[]) (hd : ∀c∈ds,isDigit c) (hr : NotDigit r) :
    ruleNumber (ds++r)=some (held ds,r) := by
  have hscan := scan_complete (n := (ds++r).length) hd (by simp) (.inr hr)
  rw [ruleNumber,hscan]
  split
  · rename_i he
    exact absurd (congrArg Prod.fst he) h0
  · rename_i he
    cases he
    rfl

theorem ruleNumber_some {s r : Bytes} {v : Int} (h : ruleNumber s=some (v,r)) :
    ∃ds,s=ds++r ∧ ds≠[] ∧ (∀c∈ds,isDigit c) ∧ v=held ds := by
  unfold ruleNumber at h
  split at h
  · cases h
  · rename_i ds r' hne hscan
    obtain ⟨hs,hd,-⟩ := scan_sound hscan
    cases h
    exact ⟨ds,hs,hne,hd,rfl⟩

theorem digits_unique {ds ds' r r' : Bytes} (h0 : ds≠[]) (hd : ∀c∈ds,isDigit c) (h0' : ds'≠[])
    (hd' : ∀c∈ds',isDigit c) (hr : NotDigit r) (hr' : NotDigit r') (he : ds++r=ds'++r') :
    ds=ds' ∧ r=r' := by
  have h1 := ruleNumber_append h0 hd hr
  rw [he,ruleNumber_append h0' hd' hr'] at h1
  simp only [Option.some.injEq,Prod.mk.injEq] at h1
  obtain ⟨-,rfl⟩ := h1
  exact ⟨List.append_cancel_right he,rfl⟩

theorem notDigit_dot (r : Bytes) : NotDigit (46::r) := by
  intro c hc
  cases hc
  rfl

/-- What is behind the digits of the weekday. -/
def RuleForm.behind (f : RuleForm) : Bytes := f.time.elim [] (47::·)

theorem RuleForm.text_eq (f : RuleForm) (r : Bytes) :
    f.text++r=77::(f.mon++46::(f.week++46::(f.dow++(f.behind++r)))) := by
  simp [text,behind]

theorem RuleForm.behind_notDigit (f : RuleForm) {r : Bytes} (hr : Ends r) :
    NotDigit (f.behind++r) := by
  unfold behind
  cases f.time with
  | none => exact hr.stops.notDigit
  | some t =>
    intro c hc
    cases hc
    rfl

theorem ruleFields_append {f : RuleForm} (h : f.Well true) {r : Bytes} (hr : Ends r) :
    ruleFields (f.text++r)=some (held f.mon,held f.week,held f.dow,f.behind++r) := by
  rw [f.text_eq]
  simp only [ruleFields]
  rw [ruleNumber_append h.mon.some h.mon.digits (notDigit_dot _)]
  simp only
  rw [ruleNumber_append h.week.some h.week.digits (notDigit_dot _)]
  simp only
  rw [ruleNumber_append h.dow.some h.dow.digits (f.behind_notDigit hr)]

theorem ruleFields_some {s r : Bytes} {m w d : Int} (h : ruleFields s=some (m,w,d,r)) :
    ∃mon week dow,s=77::(mon++46::(week++46::(dow++r))) ∧ m=held mon ∧ w=held week ∧ d=held dow ∧
      ∀ds∈[mon,week,dow],ds≠[] ∧ ∀c∈ds,isDigit c := by
  unfold ruleFields at h
  split at h
  · rename_i s
    split at h
    · rename_i m' s1 h1
      split at h
      · rename_i w' s2 h2
        split at h
        · rename_i d' s3 h3
          cases h
          obtain ⟨mon,hs1,hm0,hm,rfl⟩ := ruleNumber_some h1
          obtain ⟨week,hs2,hw0,hw,rfl⟩ := ruleNumber_some h2
          obtain ⟨dow,hs3,hd0,hd,rfl⟩ := ruleNumber_some h3
          refine ⟨mon,week,dow,by rw [hs1,hs2,hs3],rfl,rfl,rfl,?_⟩
          simp only [List.mem_cons,List.not_mem_nil,or_false]
          rintro ds (rfl | rfl | rfl)
          · exact ⟨hm0,hm⟩
          · exact ⟨hw0,hw⟩
          · exact ⟨hd0,hd⟩
        · cases h
      · cases h
    · cases h
  · cases h

def RuleText (t : Bytes) : Prop := ∃f : RuleForm,f.text=t ∧ f.Well true

theorem parseRule_scans : Scans parseRule RuleText Ends where
  sound := by
    intro s a r h
    unfold parseRule at h
    split at h
    · cases h
    · rename_i m w d s' hf
      obtain ⟨mon,week,dow,hs,rfl,rfl,rfl,hds⟩ := ruleFields_some hf
      split_ifs at h with hb
      have hm := hds mon (by simp)
      have hw := hds week (by simp)
      have hd := hds dow (by simp)
      have well : ∀time,(∀t∈time,OffsetText true t) →
          RuleForm.Well true ⟨mon,week,dow,time⟩ := fun time ht =>
        ⟨⟨hm.1,hm.2,by simp only [if_pos]; omega⟩,⟨hw.1,hw.2,by simp only [if_pos]; omega⟩,
          ⟨hd.1,hd.2,by simp only [if_pos]; omega⟩,ht⟩
      split at h
      · rename_i s2
        split at h
        · rename_i t s3 ho
          cases h
          obtain ⟨o,rfl,hot⟩ := parseOffset_scans.sound ho
          refine ⟨_,?_,⟨mon,week,dow,some o⟩,rfl,well _ (by simpa using hot)⟩
          rw [RuleForm.text_eq,hs]
          simp [RuleForm.behind]
        · cases h
      · cases h
        refine ⟨_,?_,⟨mon,week,dow,none⟩,rfl,well _ (by simp)⟩
        rw [RuleForm.text_eq,hs]
        simp [RuleForm.behind]
  complete := by
    rintro _ r ⟨f,rfl,hf⟩ hr
    have hm := hf.mon.range
    have hw := hf.week.range
    have hd := hf.dow.range
    simp only [if_pos] at hm hw hd
    unfold parseRule
    rw [ruleFields_append hf hr]
    simp only
    rw [if_neg (by omega)]
    have ht := hf.time
    unfold RuleForm.behind
    cases hft : f.time with
    | none =>
      cases r with
      | nil => exact ⟨_,rfl⟩
      | cons c r =>
        obtain rfl := hr c rfl
        exact ⟨_,rfl⟩
    | some t =>
      obtain ⟨v,hv⟩ := parseOffset_scans.complete (ht t hft) hr.stops
      simp only [Option.elim_some,List.cons_append,hv]
      exact ⟨_,rfl⟩

theorem RuleForm.unique {f g : RuleForm} (hf : f.Well true) (hg : g.Well true) {r r' : Bytes}
    (hr : Ends r) (hr' : Ends r') (he : f.text++r=g.text++r') : f=g ∧ r=r' := by
  obtain ⟨ht,rfl⟩ := parseRule_scans.unique ⟨f,rfl,hf⟩ ⟨g,rfl,hg⟩ hr hr' he
  refine ⟨?_,rfl⟩
  rw [f.text_eq,g.text_eq,List.cons.injEq] at he
  obtain ⟨hm,he⟩ := digits_unique hf.mon.some hf.mon.digits hg.mon.some hg.mon.digits
    (notDigit_dot _) (notDigit_dot _) he.2
  rw [List.cons.injEq] at he
  obtain ⟨hw,he⟩ := digits_unique hf.week.some hf.week.digits hg.week.some hg.week.digits
    (notDigit_dot _) (notDigit_dot _) he.2
  rw [List.cons.injEq] at he
  obtain ⟨hd,he⟩ := digits_unique hf.dow.some hf.dow.digits hg.dow.some hg.dow.digits
    (f.behind_notDigit hr) (g.behind_notDigit hr) he.2
  have hb := List.append_cancel_right he
  obtain ⟨fm,fw,fd,ft⟩ := f
  obtain ⟨gm,gw,gd,gt⟩ := g
  obtain rfl : fm=gm := hm
  obtain rfl : fw=gw := hw
  obtain rfl : fd=gd := hd
  cases ft with
  | none =>
    cases gt with
    | none => rfl
    | some t => cases hb
  | some t =>
    cases gt with
    | none => cases hb
    | some t' =>
      cases hb
      rfl

theorem ends_nil : Ends [] := by
  intro c hc
  cases hc

theorem ends_comma (r : Bytes) : Ends (44::r) := by
  intro c hc
  cases hc
  rfl

theorem parseRules_some {s : Bytes} {start stop : TzRule} (h : parseRules s=some (start,stop)) :
    ∃f g : RuleForm,s=44::f.text++44::g.text ∧ f.Well true ∧ g.Well true := by
  unfold parseRules at h
  split at h
  · split at h
    · rename_i s1 start' s2 h1
      split at h
      · rename_i stop' h2
        obtain ⟨_,rfl,f,rfl,hf⟩ := parseRule_scans.sound h1
        obtain ⟨_,rfl,g,rfl,hg⟩ := parseRule_scans.sound h2
        exact ⟨f,g,by simp,hf,hg⟩
      · cases h
    · cases h
  · cases h

theorem parseRules_append {f g : RuleForm} (hf : f.Well true) (hg : g.Well true) :
    ∃rules,parseRules (44::f.text++44::g.text)=some rules := by
  obtain ⟨start,h1⟩ := parseRule_scans.complete ⟨f,rfl,hf⟩ (ends_comma g.text)
  obtain ⟨stop,h2⟩ := parseRule_scans.complete ⟨g,rfl,hg⟩ ends_nil
  rw [List.append_nil] at h2
  refine ⟨(start,stop),?_⟩
  simp only [List.cons_append,parseRules]
  rw [h1]
  simp only
  rw [h2]

theorem OffsetText.notLetter {loose : Bool} {t : Bytes} (h : OffsetText loose t) (r : Bytes) :
    NotLetter (t++r) := by
  obtain ⟨c,hc,hl,-⟩ := h.head r
  intro d hd
  obtain rfl := Option.mem_unique hc hd
  exact hl

theorem NameText.stops {t : Bytes} (h : NameText t) (r : Bytes) : Stops (t++r) := by
  obtain ⟨c,t',rfl,hd,h58,-⟩ := h.head
  intro d hd'
  cases hd'
  exact ⟨hd,h58⟩

/-- What is behind the name of summer time. -/
def SummerForm.rest (u : SummerForm) : Bytes := u.off.getD []++44::u.start.text++44::u.stop.text

theorem SummerForm.rest_eq (u : SummerForm) :
    u.rest=u.off.getD []++(44::u.start.text++44::u.stop.text) := by
  simp [rest]

theorem SummerForm.notLetter {u : SummerForm} (h : u.Well true) : NotLetter u.rest := by
  rw [u.rest_eq]
  cases hu : u.off with
  | none =>
    intro c hc
    cases hc
    rfl
  | some o => exact (h.off o hu).notLetter _

theorem dstOffset_some {std dst : Int} {s r : Bytes} (h : dstOffset std s=some (dst,r)) :
    ∃o : Option Bytes,s=o.getD []++r ∧ ∀t∈o,OffsetText true t := by
  unfold dstOffset at h
  split_ifs at h
  · split at h
    · rename_i off r' ho
      cases h
      obtain ⟨t,rfl,ht⟩ := parseOffset_scans.sound ho
      exact ⟨some t,rfl,by simpa using ht⟩
    · cases h
  · cases h
    exact ⟨none,rfl,by simp⟩

theorem dstOffset_append {u : SummerForm} (h : u.Well true) (std : Int) :
    ∃dst,dstOffset std u.rest=some (dst,44::u.start.text++44::u.stop.text) := by
  rw [u.rest_eq]
  unfold dstOffset
  cases hu : u.off with
  | none => exact ⟨_,if_neg (by simp)⟩
  | some o =>
    obtain ⟨v,hv⟩ := parseOffset_scans.complete (h.off o hu)
      (ends_comma (u.start.text++44::u.stop.text)).stops
    obtain ⟨c,hc,-,h44⟩ := (h.off o hu).head (44::(u.start.text++44::u.stop.text))
    rw [if_pos]
    · simp only [Option.getD_some,List.cons_append,hv]
      exact ⟨_,rfl⟩
    · simp only [Option.getD_some,List.cons_append]
      refine ⟨?_,?_⟩
      · intro h0
        rw [h0] at hc
        cases hc
      · intro he
        rw [he] at hc
        cases hc
        exact h44 rfl

theorem parseSpec_some {s : Bytes} {t : Tz} (h : parseSpec s=some t) :
    ∃f : ZoneForm,f.text=s ∧ f.Well true := by
  unfold parseSpec at h
  split at h
  · cases h
  · rename_i n s1 h1
    obtain ⟨name,rfl,hname⟩ := parseName_scans.sound h1
    split at h
    · cases h
    · rename_i off h2
      obtain ⟨o,rfl,ho⟩ := parseOffset_scans.sound h2
      exact ⟨⟨name,o,none⟩,by simp [ZoneForm.text],hname,ho,by simp⟩
    · rename_i off s2 _ h2
      obtain ⟨o,rfl,ho⟩ := parseOffset_scans.sound h2
      split at h
      · cases h
      · rename_i n' s3 h3
        obtain ⟨name',rfl,hname'⟩ := parseName_scans.sound h3
        split at h
        · cases h
        · rename_i dst s4 h4
          obtain ⟨o',rfl,ho'⟩ := dstOffset_some h4
          split at h
          · cases h
          · rename_i start stop h5
            obtain ⟨f,g,rfl,hf,hg⟩ := parseRules_some h5
            refine ⟨⟨name,o,some ⟨name',o',f,g⟩⟩,?_,hname,ho,?_⟩
            · simp [ZoneForm.text,SummerForm.text]
            · intro u hu
              cases hu
              exact ⟨hname',ho',hf,hg⟩

theorem SummerForm.text_eq (u : SummerForm) : u.text=u.name++u.rest := by
  simp [text,rest]

theorem parseSpec_append {f : ZoneForm} (h : f.Well true) : ∃t,parseSpec f.text=some t := by
  unfold ZoneForm.text parseSpec
  obtain ⟨n,h1⟩ := parseName_scans.complete h.name
    (h.off.notLetter (f.summer.elim [] SummerForm.text))
  rw [h1]
  simp only
  cases hs : f.summer with
  | none =>
    obtain ⟨off,h2⟩ := parseOffset_scans.complete h.off (r := []) ends_nil.stops
    rw [Option.elim_none,h2]
    exact ⟨_,rfl⟩
  | some u =>
    have hu := h.summer u hs
    obtain ⟨off,h2⟩ := parseOffset_scans.complete h.off (hu.name.stops u.rest)
    obtain ⟨n',h3⟩ := parseName_scans.complete hu.name (SummerForm.notLetter hu)
    obtain ⟨dst,h4⟩ := dstOffset_append hu (offMin off)
    obtain ⟨⟨start,stop⟩,h5⟩ := parseRules_append hu.start hu.stop
    obtain ⟨c,t,hc,-⟩ := hu.name.head
    rw [Option.elim_some,u.text_eq,h2]
    rw [hc] at h3 ⊢
    simp only [List.cons_append] at h3 ⊢
    rw [h3]
    simp only
    rw [h4]
    simp only
    rw [h5]
    exact ⟨_,rfl⟩

theorem parseSpec_iff (s : Bytes) :
    (∃t,parseSpec s=some t) ↔ ∃f : ZoneForm,f.text=s ∧ f.Well true := by
  constructor
  · rintro ⟨t,h⟩
    exact parseSpec_some h
  · rintro ⟨f,rfl,h⟩
    exact parseSpec_append h

theorem SummerForm.unique {u v : SummerForm} (hu : u.Well true) (hv : v.Well true)
    (he : u.text=v.text) : u=v := by
  rw [u.text_eq,v.text_eq] at he
  obtain ⟨hn,he⟩ := parseName_scans.unique hu.name hv.name (notLetter hu) (notLetter hv) he
  rw [u.rest_eq,v.rest_eq] at he
  have hoff : u.off=v.off ∧ 44::u.start.text++44::u.stop.text=44::v.start.text++44::v.stop.text := by
    -- an offset does not start with a comma, so both have one or neither
    cases hou : u.off with
    | none =>
      cases hov : v.off with
      | none =>
        rw [hou,hov] at he
        exact ⟨rfl,he⟩
      | some o =>
        rw [hou,hov] at he
        obtain ⟨c,hc,-,h44⟩ := (hv.off o hov).head (44::v.start.text++44::v.stop.text)
        rw [Option.getD_some] at he
        rw [← he] at hc
        cases hc
        exact absurd rfl h44
    | some o =>
      cases hov : v.off with
      | none =>
        rw [hou,hov] at he
        obtain ⟨c,hc,-,h44⟩ := (hu.off o hou).head (44::u.start.text++44::u.stop.text)
        rw [Option.getD_some] at he
        rw [he] at hc
        cases hc
        exact absurd rfl h44
      | some o' =>
        rw [hou,hov,Option.getD_some,Option.getD_some] at he
        obtain ⟨rfl,he⟩ := parseOffset_scans.unique (hu.off o hou) (hv.off o' hov)
          (ends_comma _).stops (ends_comma _).stops he
        exact ⟨rfl,by simpa only [List.append_cancel_left_eq] using he⟩
  obtain ⟨ho,he⟩ := hoff
  rw [List.cons_append,List.cons_append,List.cons.injEq] at he
  obtain ⟨hs,he⟩ := RuleForm.unique hu.start hv.start (ends_comma _) (ends_comma _) he.2
  rw [List.cons.injEq] at he
  have hend : u.stop.text++[]=v.stop.text++[] := by rw [he.2]
  obtain ⟨hp,-⟩ := RuleForm.unique hu.stop hv.stop ends_nil ends_nil hend
  cases u
  cases v
  simp_all only

theorem ZoneForm.unique {f g : ZoneForm} (hf : f.Well true) (hg : g.Well true)
    (he : f.text=g.text) : f=g := by
  have hstops : ∀{f : ZoneForm},f.Well true → Stops (f.summer.elim [] SummerForm.text) := by
    intro f hf
    cases hs : f.summer with
    | none => exact ends_nil.stops
    | some u =>
      rw [Option.elim_some,u.text_eq]
      exact (hf.summer u hs).name.stops _
  obtain ⟨hn,he⟩ := parseName_scans.unique hf.name hg.name (hf.off.notLetter _)
    (hg.off.notLetter _) he
  obtain ⟨ho,he⟩ := parseOffset_scans.unique hf.off hg.off (hstops hf) (hstops hg) he
  have hne : ∀{u : SummerForm},u.Well true → u.text≠[] := by
    intro u hu h0
    obtain ⟨c,t,hc,-⟩ := hu.name.head
    rw [u.text_eq,hc] at h0
    cases h0
  have hsummer : f.summer=g.summer := by
    cases hsf : f.summer with
    | none =>
      cases hsg : g.summer with
      | none => rfl
      | some v =>
        rw [hsf,hsg] at he
        exact absurd he.symm (hne (hg.summer v hsg))
    | some u =>
      cases hsg : g.summer with
      | none =>
        rw [hsf,hsg] at he
        exact absurd he (hne (hf.summer u hsf))
      | some v =>
        rw [hsf,hsg] at he
        rw [SummerForm.unique (hf.summer u hsf) (hg.summer v hsg) he]
  cases f
  cases g
  simp_all only

theorem i32_small {x : Int} (h0 : -(2^31)≤x) (h : x<2^31) : i32 x=x := by
  unfold i32
  rw [Int.bmod_eq_of_le (by omega) (by omega)]

theorem number_append (ds : Bytes) (c : UInt8) : number (ds++[c])=number ds*10+digit c := by
  simp [number]

theorem held_append (ds : Bytes) (c : UInt8) : held (ds++[c])=i32 (held ds*10+digit c) := by
  simp [held]

theorem held_eq {ds : Bytes} (h : number ds<2^31) : held ds=number ds := by
  induction ds using List.reverseRecOn with
  | nil => rfl
  | append_singleton ds c ih =>
    rw [number_append] at h
    rw [held_append,number_append,ih (by omega),i32_small (by omega) (by omega)]
    push_cast
    rfl

theorem FieldText.strict_iff {lo hi : Int} {ds : Bytes} (hhi : hi<2^31) :
    FieldText false lo hi ds ↔ FieldText true lo hi ds ∧ number ds<2^31 := by
  constructor
  · intro h
    have hr := h.range
    simp only [Bool.false_eq_true,if_false] at hr
    have hn : number ds<2^31 := by omega
    refine ⟨⟨h.some,h.digits,?_⟩,hn⟩
    simp only [if_true]
    rwa [held_eq hn]
  · rintro ⟨h,hn⟩
    have hr := h.range
    simp only [if_true] at hr
    rw [held_eq hn] at hr
    refine ⟨h.some,h.digits,?_⟩
    simpa only [Bool.false_eq_true,if_false] using hr

theorem RuleForm.strict_iff (f : RuleForm) : f.Well false ↔ f.Well true ∧
    (∀ds∈f.numbers,number ds<2^31) ∧ ∀t∈f.time,t.getLast?≠some 58 := by
  simp only [numbers,List.mem_cons,List.not_mem_nil,or_false,forall_eq_or_imp,forall_eq]
  constructor
  · intro h
    obtain ⟨hm,hm'⟩ := (FieldText.strict_iff (by decide)).mp h.mon
    obtain ⟨hw,hw'⟩ := (FieldText.strict_iff (by decide)).mp h.week
    obtain ⟨hd,hd'⟩ := (FieldText.strict_iff (by decide)).mp h.dow
    exact ⟨⟨hm,hw,hd,fun t ht => (h.time t ht).loosen⟩,⟨hm',hw',hd'⟩,
      fun t ht => (OffsetText.strict_iff.mp (h.time t ht)).2⟩
  · rintro ⟨h,⟨hm,hw,hd⟩,ht⟩
    exact ⟨(FieldText.strict_iff (by decide)).mpr ⟨h.mon,hm⟩,
      (FieldText.strict_iff (by decide)).mpr ⟨h.week,hw⟩,
      (FieldText.strict_iff (by decide)).mpr ⟨h.dow,hd⟩,
      fun t hm => OffsetText.strict_iff.mpr ⟨h.time t hm,ht t hm⟩⟩

theorem SummerForm.strict_iff (u : SummerForm) : u.Well false ↔ u.Well true ∧
    (∀o∈u.off.toList++u.start.time.toList++u.stop.time.toList,o.getLast?≠some 58) ∧
    ∀ds∈u.start.numbers++u.stop.numbers,number ds<2^31 := by
  simp only [List.mem_append,or_imp,forall_and,Option.mem_toList]
  constructor
  · intro h
    obtain ⟨h1,hn1,ht1⟩ := u.start.strict_iff.mp h.start
    obtain ⟨h2,hn2,ht2⟩ := u.stop.strict_iff.mp h.stop
    exact ⟨⟨h.name,fun t ht => (h.off t ht).loosen,h1,h2⟩,
      ⟨⟨fun t ht => (OffsetText.strict_iff.mp (h.off t ht)).2,ht1⟩,ht2⟩,hn1,hn2⟩
  · rintro ⟨h,⟨⟨ho,ht1⟩,ht2⟩,hn1,hn2⟩
    exact ⟨h.name,fun t ht => OffsetText.strict_iff.mpr ⟨h.off t ht,ho t ht⟩,
      u.start.strict_iff.mpr ⟨h.start,hn1,ht1⟩,u.stop.strict_iff.mpr ⟨h.stop,hn2,ht2⟩⟩

theorem ZoneForm.strict_iff (f : ZoneForm) : f.Well false ↔ f.Well true ∧
    (∀o∈f.offsets,o.getLast?≠some 58) ∧ ∀ds∈f.numbers,number ds<2^31 := by
  unfold offsets numbers
  rw [List.forall_mem_cons]
  constructor
  · intro h
    obtain ⟨ho,hl⟩ := OffsetText.strict_iff.mp h.off
    cases hs : f.summer with
    | none => exact ⟨⟨h.name,ho,by simp [hs]⟩,⟨hl,by simp⟩,by simp⟩
    | some u =>
      obtain ⟨hu,ht,hn⟩ := u.strict_iff.mp (h.summer u hs)
      exact ⟨⟨h.name,ho,fun v hv => by rw [hs] at hv; cases hv; exact hu⟩,⟨hl,ht⟩,hn⟩
  · rintro ⟨h,⟨hl,ht⟩,hn⟩
    refine ⟨h.name,OffsetText.strict_iff.mpr ⟨h.off,hl⟩,fun u hu => ?_⟩
    rw [hu] at ht hn
    exact u.strict_iff.mpr ⟨h.summer u hu,ht,hn⟩

/-- What acceptance is to be: exactly the grammar, and a refused text changes nothing. -/
def TakesGrammar (z : Zone) (s : Bytes) : Prop :=
  ((tzSet z s).1=true ↔ ZoneText s) ∧ ((tzSet z s).1=false → (tzSet z s).2=z)

theorem ZoneForm.text_ne_nil {f : ZoneForm} (h : f.Well true) : f.text≠[] := by
  obtain ⟨c,t,hc,-⟩ := h.name.head
  intro h0
  rw [text,hc] at h0
  cases h0

theorem tzSet_spec (z : Zone) {s : Bytes} (hs : s.length≤tzSpecMax) :
    ((tzSet z s).1=true ↔ ∃f : ZoneForm,f.text=s ∧ f.Well true) ∧
      ((tzSet z s).1=false → (tzSet z s).2=z) := by
  rw [← parseSpec_iff]
  unfold tzSet
  split_ifs with h0
  · obtain rfl : s=[] := List.length_eq_zero_iff.mp (by omega)
    refine ⟨⟨fun h => absurd h (by decide),?_⟩,fun _ => rfl⟩
    intro h
    obtain ⟨f,h0,hf⟩ := (parseSpec_iff []).mp h
    exact absurd h0 (ZoneForm.text_ne_nil hf)
  · cases hp : parseSpec s with
    | none => exact ⟨by simp,fun _ => rfl⟩
    | some t => exact ⟨by simp,by simp⟩

theorem Slips.not_zone {s : Bytes} (h : Slips s) : ¬ZoneText s := by
  obtain ⟨f,hf,hw,hslip⟩ := h
  rintro ⟨g,hg,hwg⟩
  obtain ⟨hwg,ho,hn⟩ := g.strict_iff.mp hwg
  obtain rfl := ZoneForm.unique hw hwg (hf.trans hg.symm)
  rcases hslip with ⟨o,hmem,hlast⟩ | ⟨ds,hmem,hbig⟩
  · exact ho o hmem hlast
  · exact absurd (hn ds hmem) (by omega)

/-- The parser takes its grammar, but for a colon behind the seconds of an offset and for rule
numbers that an int32_t does not hold. -/
theorem takes_grammar_iff (z : Zone) (s : Bytes) (hs : s.length≤tzSpecMax) :
    TakesGrammar z s ↔ ¬Slips s := by
  obtain ⟨hacc,hkeep⟩ := tzSet_spec z hs
  unfold TakesGrammar
  rw [hacc]
  constructor
  · rintro ⟨h,-⟩ hslip
    obtain ⟨f,hf,hw,-⟩ := id hslip
    exact hslip.not_zone (h.mp ⟨f,hf,hw⟩)
  · intro hslip
    refine ⟨⟨?_,?_⟩,hkeep⟩
    · rintro ⟨f,hf,hw⟩
      refine ⟨f,hf,f.strict_iff.mpr ⟨hw,fun o ho hl => ?_,fun ds hds => ?_⟩⟩
      · exact hslip ⟨f,hf,hw,.inl ⟨o,ho,hl⟩⟩
      · by_contra hbig
        exact hslip ⟨f,hf,hw,.inr ⟨ds,hds,by omega⟩⟩
    · rintro ⟨f,hf,hw⟩
      exact ⟨f,hf,(f.strict_iff.mp hw).1⟩

theorem takes_grammar_iff_germany :
    TakesGrammar gTz (ofString "CET-1CEST,M3.5.0,M10.5.0/3") ↔
      ¬Slips (ofString "CET-1CEST,M3.5.0,M10.5.0/3") :=
  takes_grammar_iff gTz _ (by decide)

theorem slips_colon : Slips (ofString "UTC0:0:0:") := by
  have h0 : ∀{b},TwoDigits b (ofString "0") := ⟨by decide +kernel,by decide +kernel,by decide +kernel,Nat.zero_le _⟩
  refine ⟨⟨ofString "UTC",ofString "0:0:0:",none⟩,by decide,⟨?_,?_,by simp⟩,.inl ?_⟩
  · exact .letters (by decide +kernel) (by decide +kernel) (by decide +kernel)
  · have hp : PartsText true [24,59,59]
        (ofString "0"++58::(ofString "0"++58::(ofString "0"++[58]))) :=
      .more h0 (.more h0 (.colon rfl h0))
    exact ⟨[],by simp,_,rfl,hp⟩
  · exact ⟨ofString "0:0:0:",by simp [ZoneForm.offsets],by decide⟩

theorem slips_month : Slips (ofString "AAA0BBB,M4294967297.1.0,M7.1.0") := by
  have h0 : TwoDigits 24 (ofString "0") := ⟨by decide +kernel,by decide +kernel,by decide +kernel,by decide +kernel⟩
  refine ⟨⟨ofString "AAA",ofString "0",some ⟨ofString "BBB",none,
    ⟨ofString "4294967297",ofString "1",ofString "0",none⟩,
    ⟨ofString "7",ofString "1",ofString "0",none⟩⟩⟩,by decide,⟨?_,?_,?_⟩,.inr ?_⟩
  · exact .letters (by decide +kernel) (by decide +kernel) (by decide +kernel)
  · exact ⟨[],by simp,_,rfl,.last h0⟩
  · rintro u ⟨⟩
    refine ⟨.letters (by decide +kernel) (by decide +kernel) (by decide +kernel),by simp,?_,?_⟩
    all_goals exact ⟨⟨by decide +kernel,by decide +kernel,by decide +kernel⟩,⟨by decide +kernel,by decide +kernel,by decide +kernel⟩,
      ⟨by decide +kernel,by decide +kernel,by decide +kernel⟩,by simp⟩
  · exact ⟨ofString "4294967297",by simp [ZoneForm.numbers,RuleForm.numbers],by decide⟩

/-- The texts are taken: a colon behind the seconds, and a month that is 1 modulo 2^32. -/
theorem grammar_missed : ¬TakesGrammar gTz (ofString "UTC0:0:0:") ∧
    ¬TakesGrammar gTz (ofString "AAA0BBB,M4294967297.1.0,M7.1.0") := by
  refine ⟨fun h => slips_colon.not_zone (h.1.mp (by decide)),
    fun h => slips_month.not_zone (h.1.mp (by decide))⟩

end LugalOS.Time
