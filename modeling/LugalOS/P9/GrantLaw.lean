import LugalOS.P9.GrantLines

namespace LugalOS.P9

open CString

/-- The row that a name has itself: its first, or the last one of the wildcard. -/
def own (rows : List Grant) (u : Bytes) : Option Grant :=
  if u=star then (rows.filter fun g => g.name.bytes=star).getLast?
  else rows.find? fun g => g.name.bytes=u

theorem own_star_append (as bs : List Grant) :
    own (as++bs) star=(own bs star).or (own as star) := by
  rw [own,own,own,if_pos rfl,if_pos rfl,if_pos rfl,List.filter_append,List.getLast?_append]

theorem own_append (as bs : List Grant) {u : Bytes} (hu : u≠star) :
    own (as++bs) u=(own as u).or (own bs u) := by
  rw [own,own,own,if_neg hu,if_neg hu,if_neg hu,List.find?_append]

theorem own_other {g : Grant} {u : Bytes} (h : g.name.bytes≠u) : own [g] u=none := by
  rw [own]
  split_ifs with hu
  · subst hu
    rw [List.filter_cons_of_neg (by simpa using h)]
    rfl
  · rw [List.find?_cons_of_neg (by simpa using h)]
    rfl

theorem own_self (g : Grant) : own [g] g.name.bytes=some g := by
  rw [own]
  split_ifs with hu
  · rw [List.filter_cons_of_pos (by simpa using hu)]
    rfl
  · rw [List.find?_cons_of_pos (by simp)]

theorem own_skip {pre post : List Grant} {g : Grant} {u : Bytes} (h : g.name.bytes≠u) :
    own (pre++g::post) u=own (pre++post) u := by
  have hpost : own (g::post) u=own post u := by
    change own ([g]++post) u=_
    by_cases hu : u=star
    · subst hu
      rw [own_star_append,own_other h,Option.or_none]
    · rw [own_append _ _ hu,own_other h,Option.none_or]
  by_cases hu : u=star
  · subst hu
    rw [own_star_append,own_star_append,hpost]
  · rw [own_append _ _ hu,own_append _ _ hu,hpost]

theorem own_some {rows : List Grant} {u : Bytes} {g : Grant} (h : own rows u=some g) :
    g∈rows ∧ g.name.bytes=u := by
  rw [own] at h
  split_ifs at h with hu
  · have := List.mem_of_getLast? h
    rw [List.mem_filter,decide_eq_true_eq] at this
    exact ⟨this.1,this.2.trans hu.symm⟩
  · exact ⟨List.mem_of_find?_eq_some h,by simpa using List.find?_some h⟩

theorem own_none_iff {rows : List Grant} {u : Bytes} :
    own rows u=none ↔ ∀g∈rows,g.name.bytes≠u := by
  rw [own]
  split_ifs with hu
  · subst hu
    rw [List.getLast?_eq_none_iff,List.filter_eq_nil_iff]
    simp
  · rw [List.find?_eq_none]
    simp

theorem own_map {f : Grant → Grant} (hf : ∀g,(f g).name=g.name) (rows : List Grant) (u : Bytes) :
    own (rows.map f) u=(own rows u).map f := by
  rw [own,own]
  split_ifs
  · rw [List.filter_map,List.getLast?_map]
    simp only [Function.comp_def,hf]
  · rw [List.find?_map]
    simp only [Function.comp_def,hf]

theorem grantFor_eq (u : Bytes) (w : Option Grant) (rows : List Grant) :
    grantFor u w rows=(own rows u).or ((own rows star).or w) := by
  induction rows generalizing w with
  | nil =>
    rw [grantFor,own,own]
    simp
  | cons g rows ih =>
    rw [grantFor]
    change _=(own ([g]++rows) u).or ((own ([g]++rows) star).or w)
    by_cases hs : g.name.bytes=star
    · have hstar : own ([g]++rows) star=(own rows star).or (some g) := by
        rw [own_star_append]
        exact congrArg _ (hs ▸ own_self g)
      rw [if_pos hs,ih,hstar]
      by_cases hu : u=star
      · subst hu
        rw [hstar]
        cases own rows star <;> rfl
      · rw [own_append _ _ hu,own_other (fun h => hu (h.symm.trans hs)),Option.none_or]
        cases own rows u <;> cases own rows star <;> rfl
    · have hstar : own ([g]++rows) star=own rows star := by
        rw [own_star_append,own_other hs,Option.or_none]
      rw [if_neg hs,hstar]
      by_cases hu : g.name.bytes=u
      · rw [if_pos hu,own_append _ _ (fun h => hs (hu.trans h)),← hu,own_self]
        rfl
      · rw [if_neg hu,ih]
        by_cases hus : u=star
        · subst hus
          rw [hstar]
        · rw [own_append _ _ hus,own_other hu,Option.none_or]

theorem p9GrantsFind_eq (b : Board) (u : Bytes) :
    p9GrantsFind b u=(own (p9GrantsList b) u).or (own (p9GrantsList b) star) := by
  rw [p9GrantsFind,grantFor_eq,Option.or_none]

def Listed (b : Board) (u : Bytes) : Prop := ∃g∈p9GrantsList b,g.name.bytes=u

/-- A lookup has come to the row of this name, with just this key, aname and mode. -/
def Reads (name key aname : Bytes) (readOnly admin : Bool) (o : Option Grant) : Prop :=
  ∃g,o=some g ∧ g.name.bytes=name ∧ g.key=key ∧ g.aname.bytes=aname ∧ g.readOnly=readOnly ∧
    g.admin=admin

/-- Every other name that was listed, and every other name at all if it is not the wildcard that has
changed, resolves to what it did, and none is new in the list. -/
structure OthersKept (b b' : Board) (name : Bytes) : Prop where
  others : ∀u,u≠name → Listed b u ∨ name≠star → p9GrantsFind b' u=p9GrantsFind b u
  gained : ∀u,u≠name → Listed b' u → Listed b u

def Granted (b b' : Board) (name key aname : Bytes) (readOnly admin : Bool) : Prop :=
  Reads name key aname readOnly admin (p9GrantsFind b' name) ∧ OthersKept b b' name

/-- The name resolves to what is left of the wildcard. -/
def Revoked (b b' : Board) (name : Bytes) : Prop :=
  p9GrantsFind b' name=(if name=star then none else p9GrantsFind b star) ∧ OthersKept b b' name

theorem listed_iff {b : Board} {u : Bytes} : Listed b u ↔ own (p9GrantsList b) u≠none := by
  rw [ne_eq,own_none_iff,Listed]
  simp only [not_forall,not_not,exists_prop]

theorem othersKept_iff {b b' : Board} {name : Bytes} : OthersKept b b' name ↔
    ∀u,u≠name → own (p9GrantsList b') u=own (p9GrantsList b) u := by
  constructor
  · intro h u hu
    by_cases hl : Listed b u
    · have hf := h.others u hu (.inl hl)
      rw [p9GrantsFind_eq,p9GrantsFind_eq] at hf
      obtain ⟨r,hr⟩ := Option.ne_none_iff_exists'.mp (listed_iff.mp hl)
      rw [hr,Option.some_or] at hf
      rw [hr]
      cases ho : own (p9GrantsList b') u with
      | some r' => rwa [ho,Option.some_or] at hf
      | none =>
        rw [ho,Option.none_or] at hf
        have hstar : u=star := (own_some hr).2.symm.trans (own_some hf).2
        rw [hstar,hf] at ho
        cases ho
    · have hl' : ¬Listed b' u := fun h' => hl (h.gained u hu h')
      rw [listed_iff,not_not] at hl hl'
      rw [hl,hl']
  · intro h
    refine ⟨fun u hu hl => ?_,fun u hu hl => ?_⟩
    · rw [p9GrantsFind_eq,p9GrantsFind_eq,h u hu]
      rcases hl with hl | hl
      · obtain ⟨r,hr⟩ := Option.ne_none_iff_exists'.mp (listed_iff.mp hl)
        rw [hr,Option.some_or,Option.some_or]
      · rw [h star (Ne.symm hl)]
    · rw [listed_iff,← h u hu]
      exact listed_iff.mp hl

theorem granted_iff {b b' : Board} {name key aname : Bytes} {readOnly admin : Bool} :
    Granted b b' name key aname readOnly admin ↔
      Reads name key aname readOnly admin (own (p9GrantsList b') name) ∧
      ∀u,u≠name → own (p9GrantsList b') u=own (p9GrantsList b) u := by
  rw [Granted,othersKept_iff]
  refine and_congr_left fun _ => ?_
  rw [p9GrantsFind_eq]
  cases ho : own (p9GrantsList b') name with
  | some r => rw [Option.some_or]
  | none =>
    rw [Option.none_or]
    constructor
    · rintro ⟨g,hg,hn,-⟩
      have hstar : name=star := hn.symm.trans (own_some hg).2
      rw [hstar,hg] at ho
      cases ho
    · rintro ⟨g,hg,-⟩
      cases hg

theorem revoked_iff {b b' : Board} {name : Bytes} : Revoked b b' name ↔
    own (p9GrantsList b') name=none ∧
      ∀u,u≠name → own (p9GrantsList b') u=own (p9GrantsList b) u := by
  rw [Revoked,othersKept_iff]
  refine and_congr_left fun h => ?_
  by_cases hs : name=star
  · rw [if_pos hs,p9GrantsFind_eq,hs]
    cases own (p9GrantsList b') star <;> simp
  · rw [if_neg hs,p9GrantsFind_eq,p9GrantsFind_eq,h star (Ne.symm hs)]
    cases ho : own (p9GrantsList b') name with
    | none => simp
    | some r =>
      rw [Option.some_or]
      refine ⟨fun hf => ?_,fun hf => by cases hf⟩
      have hr : own (p9GrantsList b) star=some r := by
        rw [hf]
        cases own (p9GrantsList b) star <;> rfl
      exact absurd ((own_some ho).2.symm.trans (own_some hr).2) hs

/-- The board without its copy of the record's grants: it has those of its file. -/
def Board.uncached (b : Board) : Board where
  device := b.device
  cache := none
  file := b.file
  owned h := absurd rfl h
  fits _ ht := by simp at ht

theorem p9GrantsList_words {b : Board} {g : Grant} (h : g∈p9GrantsList b) :
    OneWord g.name.bytes ∧ g.name.bytes.head?≠some hash ∧ OneWord g.aname.bytes := by
  obtain ⟨h1,h2,h3,-⟩ := grantRows_words h
  exact ⟨h1,h2,h3⟩

theorem p9GrantsStore_list {b b' : Board} {w : StoreWrite} {rows : List Grant}
    (hlen : rows.length≤p9GrantsMax)
    (h : p9GrantsStore b w (p9GrantSerialize p9GrantsBufMax 0 rows)=(.ok,b')) :
    if b.device=true ∧ rows=[] then p9GrantsList b'=p9GrantsList b.uncached
    else p9GrantsList b'=grantRows p9GrantsMax (linesFrom [] (grantsOut rows)) := by
  have hbytes := grantsOut_length rows
  rw [p9GrantsMax] at hlen
  rw [p9GrantSerialize_all _ _ (by rw [p9GrantsBufMax]; omega),p9GrantsStore.eq_def] at h
  have hempty : grantsOut rows=[] ↔ rows=[] := by
    refine ⟨fun h0 => ?_,fun h0 => by rw [h0]; rfl⟩
    cases rows with
    | nil => rfl
    | cons g rows =>
      rw [grantsOut,List.flatMap_cons,List.append_eq_nil_iff,List.append_eq_nil_iff] at h0
      exact absurd h0.1.2 (List.cons_ne_nil _ _)
  by_cases hd : b.device=true
  · rw [dif_pos hd] at h
    by_cases hl : nodeGrantsMax < (grantsOut rows).length
    · rw [dif_pos hl] at h
      cases h
    · rw [dif_neg hl] at h
      cases w with
      | fails left => cases h
      | done =>
        obtain rfl := (Prod.mk.inj h).2
        by_cases h0 : rows=[]
        · rw [if_pos ⟨hd,h0⟩]
          simp only [p9GrantsList,grantsText,if_pos (hempty.mpr h0)]
          rfl
        · rw [if_neg fun hh => h0 hh.2]
          simp only [p9GrantsList,grantsText,if_neg (mt hempty.mp h0)]
          rw [List.take_of_length_le (by rw [p9GrantsBufMax]; omega)]
  · rw [dif_neg hd] at h
    rw [if_neg fun hh => hd hh.1]
    have hc : b.cache=none := by
      by_contra hc
      exact hd (b.owned hc)
    cases w with
    | fails left => cases h
    | done =>
      obtain rfl := (Prod.mk.inj h).2
      simp only [p9GrantsList,grantsText,hc,Option.getD_some]
      rw [List.take_of_length_le (by rw [p9GrantsBufMax]; omega)]

theorem reread_name (g : Grant) : g.reread.name=g.name := by
  rw [Grant.reread]
  split_ifs <;> rfl

theorem reread_whole {g : Grant} (h : g.aname.bytes≠[]) : g.reread=g := if_neg h

theorem reread_path {g : Grant} (h : g.reread.aname.bytes.head?=some slash) : g.reread=g := by
  refine reread_whole fun h0 => ?_
  rw [Grant.reread,if_pos h0] at h
  change (RCur.cut p9MaxNameLen (modeText g)).head?=_ at h
  rw [modeText] at h
  split_ifs at h <;> exact absurd h (by decide)

theorem own_stored {b' : Board} {rows : List Grant} (hlen : rows.length≤p9GrantsMax)
    (hlist : p9GrantsList b'=grantRows p9GrantsMax (linesFrom [] (grantsOut rows)))
    (hwords : ∀g∈rows,Names g.name.bytes ∧ OneWord g.aname.bytes) (u : Bytes) :
    own (p9GrantsList b') u=(own rows u).map Grant.reread := by
  rw [hlist,grantRows_out hlen hwords,own_map reread_name]

theorem stored_words {b' : Board} {rows : List Grant}
    (hlist : p9GrantsList b'=grantRows p9GrantsMax (linesFrom [] (grantsOut rows))) {u : Bytes}
    {g : Grant} (h : own (p9GrantsList b') u=some g) :
    Names u ∧ OneWord g.aname.bytes ∧ g.aname.bytes≠[] := by
  obtain ⟨hm,rfl⟩ := own_some h
  rw [hlist] at hm
  obtain ⟨h1,h2,h3,h4⟩ := grantRows_words hm
  obtain ⟨hn,ha⟩ := h4 (grantsOut_noNul rows)
  exact ⟨⟨hn,h1,h2⟩,h3,ha⟩

/-- Of no other name the row has a column that begins with a NUL, as only a text edited by hand
has. -/
def Whole (b : Board) (name : Bytes) : Prop :=
  ∀ u g,u≠name → Listed b u → p9GrantsFind b u=some g → u≠[] ∧ g.aname.bytes≠[]

/-- The name and the aname stand in a line as they are, and the wildcard has one row. -/
structure AddKeeps (b : Board) (name key aname : Bytes) (readOnly admin : Bool) : Prop where
  nameStands : OneWord name ∧ name.head?≠some hash
  anameStands : OneWord aname
  whole : Whole b name
  single : name=star → ((p9GrantsList b).filter fun g => g.name.bytes=star).length≤1 ∨
    Reads name key aname readOnly admin (p9GrantsFind b star)

/-- The name has one row, and where it is the record's last no file takes over. -/
structure RemoveKeeps (b : Board) (name : Bytes) : Prop where
  whole : Whole b name
  single : ((p9GrantsList b).filter fun g => g.name.bytes=name).length=1
  last : b.device=true → (p9GrantsList b).length=1 → p9GrantsList b.uncached=[]

theorem whole_iff {b : Board} {name : Bytes} : Whole b name ↔
    ∀ u g,u≠name → own (p9GrantsList b) u=some g → u≠[] ∧ g.aname.bytes≠[] := by
  have hfind : ∀ u g,own (p9GrantsList b) u=some g → p9GrantsFind b u=some g := fun u g h => by
    rw [p9GrantsFind_eq,h,Option.some_or]
  constructor
  · intro h u g hu ho
    exact h u g hu (listed_iff.mpr (by rw [ho]; exact Option.some_ne_none _)) (hfind u g ho)
  · intro h u g hu hl hf
    obtain ⟨r,hr⟩ := Option.ne_none_iff_exists'.mp (listed_iff.mp hl)
    obtain rfl := Option.some.inj ((hfind u r hr).symm.trans hf)
    exact h u r hu hr

theorem whole_of_noNul {b : Board} (h : 0∉grantsText b) (name : Bytes) : Whole b name := by
  rw [whole_iff]
  intro u g _ hg
  obtain ⟨hm,rfl⟩ := own_some hg
  exact (grantRows_words hm).2.2.2 h

theorem rowOf_some {rows : List Grant} {name : Bytes} {i : Nat} (h : rowOf rows name=some i) :
    ∃ pre e post,rows=pre++e::post ∧ e.name.bytes=name ∧ (∀g∈pre,g.name.bytes≠name) ∧
      (∀g,rows.set i g=pre++g::post) ∧ rows.eraseIdx i=pre++post := by
  induction rows generalizing i with
  | nil => cases h
  | cons r rows ih =>
    rw [rowOf,List.findIdx?_cons] at h
    split_ifs at h with hr
    · obtain rfl := Option.some.inj h
      exact ⟨[],r,rows,rfl,by simpa using hr,fun g hg => absurd hg List.not_mem_nil,fun _ => rfl,rfl⟩
    · obtain ⟨j,hj,rfl⟩ := Option.map_eq_some_iff.mp h
      obtain ⟨pre,e,post,rfl,he,hpre,hset,herase⟩ := ih hj
      refine ⟨r::pre,e,post,rfl,he,fun g hg => ?_,fun g => ?_,?_⟩
      · rcases List.mem_cons.mp hg with rfl | hg
        · simpa using hr
        · exact hpre g hg
      · rw [List.set_cons_succ,hset]
        rfl
      · rw [List.eraseIdx_cons_succ,herase]
        rfl

theorem rowOf_none {rows : List Grant} {name : Bytes} (h : rowOf rows name=none) :
    ∀g∈rows,g.name.bytes≠name := by
  intro g hg
  have := List.findIdx?_eq_none_iff.mp h g hg
  simpa using this

theorem granted_stored {b b' : Board} {pre post : List Grant} {g : Grant}
    (hpre : ∀e∈pre,e.name.bytes≠g.name.bytes)
    (hrows : (∃e,p9GrantsList b=pre++e::post ∧ e.name.bytes=g.name.bytes) ∨
      p9GrantsList b=pre ∧ post=[])
    (hlist : p9GrantsList b'=grantRows p9GrantsMax (linesFrom [] (grantsOut (pre++g::post))))
    (hlen : (pre++g::post).length≤p9GrantsMax) (hne : g.name.bytes≠[])
    (hpath : g.aname.bytes.head?=some slash) :
    Granted b b' g.name.bytes g.key g.aname.bytes g.readOnly g.admin ↔
      AddKeeps b g.name.bytes g.key g.aname.bytes g.readOnly g.admin := by
  have hother : ∀u,u≠g.name.bytes → own (pre++g::post) u=own (p9GrantsList b) u := by
    intro u hu
    rw [own_skip (Ne.symm hu)]
    rcases hrows with ⟨e,hr,he⟩ | ⟨hr,rfl⟩
    · rw [hr,own_skip (fun h => hu (h.symm.trans he))]
    · rw [hr,List.append_nil]
  have hpost : ∀e∈post,e∈p9GrantsList b := by
    intro e he
    rcases hrows with ⟨e',hr,-⟩ | ⟨-,rfl⟩
    · rw [hr]
      exact List.mem_append_right _ (List.mem_cons_of_mem _ he)
    · exact absurd he List.not_mem_nil
  have hmem : ∀e∈pre++g::post,e=g ∨ e∈p9GrantsList b := by
    intro e he
    rcases List.mem_append.mp he with he | he
    · refine .inr ?_
      rcases hrows with ⟨e',hr,-⟩ | ⟨hr,-⟩
      · rw [hr]
        exact List.mem_append_left _ he
      · rwa [hr]
    · rcases List.mem_cons.mp he with rfl | he
      · exact .inl rfl
      · exact .inr (hpost e he)
  have hnone : own pre g.name.bytes=none := own_none_iff.mpr hpre
  have hslash : g.aname.bytes≠[] := fun h => by rw [h] at hpath; cases hpath
  -- with the names as they are all rows come back
  have hback : OneWord g.name.bytes ∧ g.name.bytes.head?≠some hash → OneWord g.aname.bytes →
      Whole b g.name.bytes → ∀u,own (p9GrantsList b') u=(own (pre++g::post) u).map Grant.reread := by
    intro hn ha hw u
    refine own_stored hlen hlist (fun e he => ?_) u
    rcases hmem e he with rfl | hl
    · exact ⟨⟨hne,hn⟩,ha⟩
    · obtain ⟨h1,h2,h3⟩ := p9GrantsList_words hl
      refine ⟨⟨?_,h1,h2⟩,h3⟩
      by_cases heq : e.name.bytes=g.name.bytes
      · rwa [heq]
      · obtain ⟨r,hr⟩ := Option.ne_none_iff_exists'.mp (listed_iff.mp ⟨e,hl,rfl⟩)
        exact (whole_iff.mp hw _ r heq hr).1
  have hadd : ∀u,own (pre++g::post) u=
      if u=g.name.bytes then if u=star then (own post u).or (some g) else some g
      else own (p9GrantsList b) u := by
    intro u
    split_ifs with hu hs
    · subst hs
      rw [own_star_append,hu,hnone,Option.or_none,← hu]
      change own ([g]++post) star=_
      rw [own_star_append,hu,own_self]
    · rw [hu] at hs ⊢
      rw [own_append _ _ hs,hnone,Option.none_or]
      change own ([g]++post) _=_
      rw [own_append _ _ hs,own_self,Option.some_or]
    · exact hother u hu
  -- where the wildcard has another row it is the last, and answers
  have hlast : ∀r,g.name.bytes=star → own post star=some r → p9GrantsFind b star=some r := by
    intro r hs hr
    rcases hrows with ⟨e,hl,he⟩ | ⟨-,rfl⟩
    · rw [p9GrantsFind_eq,hl,own_star_append]
      change (((own ([e]++post) star).or _).or _)=_
      rw [own_star_append,hr,Option.some_or,Option.some_or,Option.some_or]
    · cases hr
  have hcount : g.name.bytes=star → (((p9GrantsList b).filter fun g => g.name.bytes=star).length≤1 ↔
      own post star=none) := by
    intro hs
    have hp0 : (pre.filter fun e => e.name.bytes=star)=[] := by
      rw [List.filter_eq_nil_iff]
      intro e he
      simpa [hs] using hpre e he
    rcases hrows with ⟨e,hl,he⟩ | ⟨hl,rfl⟩
    · rw [hl,List.filter_append,hp0,List.nil_append,
        List.filter_cons_of_pos (by simpa [hs] using he),List.length_cons,own,if_pos rfl,
        List.getLast?_eq_none_iff,← List.length_eq_zero_iff]
      omega
    · rw [hl,hp0]
      simp [own]
  rw [granted_iff]
  constructor
  · rintro ⟨hreads,hkept⟩
    obtain ⟨r,hr,hrn,hrk,hra,hrr,hrad⟩ := hreads
    obtain ⟨hnames,haname,-⟩ := stored_words hlist hr
    have hwhole : Whole b g.name.bytes := by
      rw [whole_iff]
      intro u e hu he
      rw [← hkept u hu] at he
      obtain ⟨hn,-,ha⟩ := stored_words hlist he
      exact ⟨hn.1,ha⟩
    refine ⟨hnames.2,hra ▸ haname,hwhole,fun hs => ?_⟩
    rw [hcount hs]
    by_cases h0 : own post star=none
    · exact .inl h0
    · obtain ⟨e,he⟩ := Option.ne_none_iff_exists'.mp h0
      have hr' := hback hnames.2 (hra ▸ haname) hwhole g.name.bytes
      rw [hr,hadd,if_pos rfl,if_pos hs,hs,he,Option.some_or,Option.map_some,
        Option.some.injEq] at hr'
      have her : e.reread=e := reread_path (by rw [← hr',hra]; exact hpath)
      rw [her] at hr'
      exact .inr ⟨r,hr' ▸ hlast e hs he,hrn,hrk,hra,hrr,hrad⟩
  · intro h
    have hown := hback h.nameStands h.anameStands h.whole
    refine ⟨?_,fun u hu => ?_⟩
    · rw [hown,hadd,if_pos rfl]
      by_cases hs : g.name.bytes=star
      · rw [if_pos hs,hs]
        cases hp : own post star with
        | none =>
          rw [Option.none_or,Option.map_some,reread_whole hslash]
          exact ⟨g,rfl,hs,rfl,rfl,rfl,rfl⟩
        | some e =>
          rcases h.single hs with hc | hc
          · rw [(hcount hs).mp hc] at hp
            cases hp
          · rw [hlast e hs hp] at hc
            obtain ⟨r,hr,hrn,hrk,hra,hrr,hrad⟩ := hc
            obtain rfl := Option.some.inj hr
            rw [Option.some_or,Option.map_some,reread_whole (by rw [hra]; exact hslash)]
            exact ⟨e,rfl,hrn.trans hs,hrk,hra,hrr,hrad⟩
      · rw [if_neg hs,Option.map_some,reread_whole hslash]
        exact ⟨g,rfl,rfl,rfl,rfl,rfl,rfl⟩
    · rw [hown,hadd,if_neg hu]
      cases ho : own (p9GrantsList b) u with
      | none => rfl
      | some e => rw [Option.map_some,reread_whole (whole_iff.mp h.whole u e hu ho).2]

theorem revoked_stored {b b' : Board} {pre post : List Grant} {e : Grant}
    (hpre : ∀x∈pre,x.name.bytes≠e.name.bytes) (hrows : p9GrantsList b=pre++e::post)
    (hlist : if b.device=true ∧ pre++post=[] then p9GrantsList b'=p9GrantsList b.uncached
      else p9GrantsList b'=grantRows p9GrantsMax (linesFrom [] (grantsOut (pre++post))))
    (hlen : (pre++post).length≤p9GrantsMax) (hne : e.name.bytes≠[]) :
    Revoked b b' e.name.bytes ↔ RemoveKeeps b e.name.bytes := by
  have hother : ∀u,u≠e.name.bytes → own (pre++post) u=own (p9GrantsList b) u := by
    intro u hu
    rw [hrows,own_skip (Ne.symm hu)]
  have hcount : ((p9GrantsList b).filter fun g => g.name.bytes=e.name.bytes).length=1 ↔
      own (pre++post) e.name.bytes=none := by
    have hp0 : (pre.filter fun g => g.name.bytes=e.name.bytes)=[] := by
      rw [List.filter_eq_nil_iff]
      intro x hx
      simpa using hpre x hx
    rw [hrows,List.filter_append,hp0,List.nil_append,List.filter_cons_of_pos (by simp),
      List.length_cons,Nat.add_eq_right,List.length_eq_zero_iff,List.filter_eq_nil_iff,own_none_iff]
    refine ⟨fun h x hx => ?_,fun h x hx => ?_⟩
    · rcases List.mem_append.mp hx with hx | hx
      · exact hpre x hx
      · simpa using h x hx
    · simpa using h x (List.mem_append_right _ hx)
  rw [revoked_iff]
  by_cases hlast : b.device=true ∧ pre++post=[]
  · rw [if_pos hlast] at hlist
    have hone : ∀u,u≠e.name.bytes → own (p9GrantsList b) u=none := by
      intro u hu
      rw [← hother u hu,hlast.2]
      simp [own]
    have hfew : (p9GrantsList b).length=1 := by
      have := congrArg List.length hlast.2
      rw [List.length_append,List.length_nil] at this
      rw [hrows,List.length_append,List.length_cons]
      omega
    constructor
    · rintro ⟨hgone,hkept⟩
      refine ⟨?_,?_,fun _ _ => ?_⟩
      · rw [whole_iff]
        intro u g hu hg
        rw [hone u hu] at hg
        cases hg
      · rw [hcount,hlast.2]
        simp [own]
      · rw [← hlist,List.eq_nil_iff_forall_not_mem]
        intro g hg
        by_cases hu : g.name.bytes=e.name.bytes
        · exact own_none_iff.mp hgone g hg hu
        · have := hkept _ hu
          rw [hone _ hu] at this
          exact own_none_iff.mp this g hg rfl
    · intro h
      rw [hlist,h.last hlast.1 hfew]
      refine ⟨by simp [own],fun u hu => ?_⟩
      rw [hone u hu]
      simp [own]
  · rw [if_neg hlast] at hlist
    have hback : Whole b e.name.bytes →
        ∀u,own (p9GrantsList b') u=(own (pre++post) u).map Grant.reread := by
      intro hw u
      refine own_stored hlen hlist (fun x hx => ?_) u
      have hl : x∈p9GrantsList b := by
        rw [hrows]
        rcases List.mem_append.mp hx with hx | hx
        · exact List.mem_append_left _ hx
        · exact List.mem_append_right _ (List.mem_cons_of_mem _ hx)
      obtain ⟨h1,h2,h3⟩ := p9GrantsList_words hl
      refine ⟨⟨?_,h1,h2⟩,h3⟩
      by_cases heq : x.name.bytes=e.name.bytes
      · rwa [heq]
      · obtain ⟨r,hr⟩ := Option.ne_none_iff_exists'.mp (listed_iff.mp ⟨x,hl,rfl⟩)
        exact (whole_iff.mp hw _ r heq hr).1
    constructor
    · rintro ⟨hgone,hkept⟩
      have hwhole : Whole b e.name.bytes := by
        rw [whole_iff]
        intro u g hu hg
        rw [← hkept u hu] at hg
        obtain ⟨hn,-,ha⟩ := stored_words hlist hg
        exact ⟨hn.1,ha⟩
      refine ⟨hwhole,?_,fun hd hfew => ?_⟩
      · rw [hback hwhole,Option.map_eq_none_iff] at hgone
        exact hcount.mpr hgone
      · refine absurd ⟨hd,?_⟩ hlast
        rw [hrows,List.length_append,List.length_cons] at hfew
        rw [List.append_eq_nil_iff]
        exact ⟨List.eq_nil_of_length_eq_zero (by omega),List.eq_nil_of_length_eq_zero (by omega)⟩
    · intro h
      refine ⟨?_,fun u hu => ?_⟩
      · rw [hback h.whole,hcount.mp h.single,Option.map_none]
      · rw [hback h.whole,hother u hu]
        cases ho : own (p9GrantsList b) u with
        | none => rfl
        | some g => rw [Option.map_some,reread_whole (whole_iff.mp h.whole u g hu ho).2]

theorem nameOf_short {s : Bytes} (hs : s.length < p9MaxNameLen) (h0 : 0∉s) :
    (RCur.nameOf s).bytes=s := congrArg Buf.bytes (nameOf_bytes ⟨s,hs,h0⟩)

def anameOf (aname : Bytes) : Bytes := if aname=[] then [slash] else aname

theorem addMode_iff {b : Board} {w : StoreWrite} {name key aname : Bytes} {readOnly admin : Bool}
    (hname : 0∉name) (haname : 0∉aname)
    (hok : (p9GrantsAddMode b w name key aname readOnly admin).1=.ok) :
    Granted b (p9GrantsAddMode b w name key aname readOnly admin).2 name key (anameOf aname)
        (readOnly && !admin) admin ↔
      AddKeeps b name key (anameOf aname) (readOnly && !admin) admin := by
  generalize hres : p9GrantsAddMode b w name key aname readOnly admin=res at hok
  obtain ⟨rc,b'⟩ := res
  obtain rfl : rc=.ok := hok
  rw [p9GrantsAddMode.eq_def] at hres
  by_cases hn : name=[] ∨ p9MaxNameLen≤name.length
  · rw [if_pos hn] at hres
    cases hres
  · rw [if_neg hn] at hres
    by_cases hk : key=[] ∨ p9AuthKeyMax < key.length
    · rw [dif_pos hk] at hres
      cases hres
    · rw [dif_neg hk] at hres
      by_cases ha : aname≠[] ∧ (p9MaxNameLen≤aname.length ∨ aname.head?≠some slash)
      · rw [if_pos ha] at hres
        cases hres
      · rw [if_neg ha] at hres
        obtain ⟨hne,hshort⟩ := not_or.mp hn
        have hgn : (newGrant name key aname readOnly admin hk).name.bytes=name :=
          nameOf_short (Nat.lt_of_not_le hshort) hname
        have hpath : (anameOf aname).head?=some slash ∧ (anameOf aname).length < p9MaxNameLen ∧
            0∉anameOf aname := by
          rw [anameOf]
          by_cases h0 : aname=[]
          · rw [if_pos h0]
            decide
          · rw [if_neg h0]
            have := not_or.mp fun h => ha ⟨h0,h⟩
            exact ⟨not_not.mp this.2,Nat.lt_of_not_le this.1,haname⟩
        have hga : (newGrant name key aname readOnly admin hk).aname.bytes=anameOf aname :=
          nameOf_short hpath.2.1 hpath.2.2
        have hrows := grantRows_length p9GrantsMax (linesFrom [] (grantsText b))
        have hgo : ∀ pre post,(∀e∈pre,e.name.bytes≠name) →
            ((∃e,p9GrantsList b=pre++e::post ∧ e.name.bytes=name) ∨ p9GrantsList b=pre ∧ post=[]) →
            (pre++newGrant name key aname readOnly admin hk::post).length≤p9GrantsMax →
            p9GrantsStore b w (p9GrantSerialize p9GrantsBufMax 0
              (pre++newGrant name key aname readOnly admin hk::post))=(.ok,b') →
            (Granted b b' name key (anameOf aname) (readOnly && !admin) admin ↔
              AddKeeps b name key (anameOf aname) (readOnly && !admin) admin) := by
          intro pre post hpre hr hlen hst
          have hlist := p9GrantsStore_list hlen hst
          rw [if_neg (by simp)] at hlist
          have := granted_stored (hgn.symm ▸ hpre) (hgn.symm ▸ hr) hlist hlen (hgn.symm ▸ hne)
            (hga.symm ▸ hpath.1)
          rwa [hgn,hga] at this
        dsimp only at hres
        cases hi : rowOf (p9GrantsList b) name with
        | some i =>
          rw [hi] at hres
          obtain ⟨pre,e,post,hr,he,hpre,hset,-⟩ := rowOf_some hi
          dsimp only at hres
          rw [hset] at hres
          refine hgo pre post hpre (.inl ⟨e,hr,he⟩) ?_ hres
          have : (p9GrantsList b).length≤p9GrantsMax := hrows
          rw [hr] at this
          simpa using this
        | none =>
          rw [hi] at hres
          dsimp only at hres
          by_cases hfull : p9GrantsMax≤(p9GrantsList b).length
          · rw [if_pos hfull] at hres
            cases hres
          · rw [if_neg hfull] at hres
            refine hgo _ [] (rowOf_none hi) (.inr ⟨rfl,rfl⟩) ?_ hres
            rw [List.length_append,List.length_singleton]
            omega

/-- A change of the grants that is reported done has done just that to them, if and only if the
names stand in their lines. -/
theorem grants_update (b : Board) (w : StoreWrite) (name key aname : Bytes) (hname : 0∉name)
    (haname : 0∉aname) :
    (∀readOnly,(p9GrantsAdd b w name key aname readOnly).1=.ok →
      (Granted b (p9GrantsAdd b w name key aname readOnly).2 name key (anameOf aname) readOnly false ↔
        AddKeeps b name key (anameOf aname) readOnly false)) ∧
    ((p9GrantsAddAdmin b w name key aname).1=.ok →
      (Granted b (p9GrantsAddAdmin b w name key aname).2 name key (anameOf aname) false true ↔
        AddKeeps b name key (anameOf aname) false true)) ∧
    ((p9GrantsRemove b w name).1=.ok →
      (Revoked b (p9GrantsRemove b w name).2 name ↔ RemoveKeeps b name)) := by
  refine ⟨fun readOnly hok => ?_,fun hok => addMode_iff hname haname hok,fun hok => ?_⟩
  · have := addMode_iff hname haname hok
    rwa [Bool.not_false,Bool.and_true] at this
  · generalize hres : p9GrantsRemove b w name=res at hok
    obtain ⟨rc,b'⟩ := res
    obtain rfl : rc=.ok := hok
    rw [p9GrantsRemove] at hres
    by_cases hne : name=[]
    · rw [if_pos hne] at hres
      cases hres
    · rw [if_neg hne] at hres
      cases hi : rowOf (p9GrantsList b) name with
      | none =>
        rw [hi] at hres
        cases hres
      | some i =>
        rw [hi] at hres
        obtain ⟨pre,e,post,hr,rfl,hpre,-,herase⟩ := rowOf_some hi
        dsimp only at hres
        rw [herase] at hres
        have hlen : (pre++post).length≤p9GrantsMax := by
          have : (p9GrantsList b).length≤p9GrantsMax := grantRows_length _ _
          rw [hr,List.length_append,List.length_cons] at this
          rw [List.length_append]
          omega
        exact revoked_stored hpre hr (p9GrantsStore_list hlen hres) hlen hne

/-- A board whose grants are in a file: one row for everyone, one for ann. -/
def fileBoard : Board where
  device := false
  cache := none
  file := some (ofString "# peers\n* 0102 / ro\r\nann 0a0B /sd0\n")
  owned h := absurd rfl h
  fits _ ht := by simp at ht

theorem grants_update_fileBoard :
    Granted fileBoard (p9GrantsAdd fileBoard .done (ofString "bob") [7] (ofString "/sd0/b") true).2
      (ofString "bob") [7] (ofString "/sd0/b") true false ∧
    Revoked fileBoard (p9GrantsRemove fileBoard .done (ofString "ann")).2 (ofString "ann") := by
  have hw : ∀name,Whole fileBoard name := whole_of_noNul (by decide +kernel)
  refine ⟨((grants_update fileBoard .done _ _ _ (by decide +kernel) (by decide +kernel)).1 true
    (by decide +kernel)).mpr ⟨by decide +kernel,by decide +kernel,hw _,
      fun h => absurd h (by decide +kernel)⟩,
    ((grants_update fileBoard .done _ [] [] (by decide +kernel) List.not_mem_nil).2.2 (by decide +kernel)).mpr ⟨hw _,by decide +kernel,by decide +kernel⟩⟩

/-- A board with an identity store and no grants. -/
def emptyBoard : Board where
  device := true
  cache := none
  file := none
  owned h := absurd rfl h
  fits _ ht := by simp at ht

/-- A name with a blank in it: another name is granted, with another key. -/
theorem blankName_granted :
    (p9GrantsAdd emptyBoard .done (ofString "a ab") [1] [] false).1=.ok ∧
    p9GrantsFind (p9GrantsAdd emptyBoard .done (ofString "a ab") [1] [] false).2 (ofString "a ab")=
      none ∧
    (p9GrantsFind (p9GrantsAdd emptyBoard .done (ofString "a ab") [1] [] false).2
      (ofString "a")).map Grant.key=some [0xab] ∧
    ¬Granted emptyBoard (p9GrantsAdd emptyBoard .done (ofString "a ab") [1] [] false).2
      (ofString "a ab") [1] [slash] false false := by
  have hnone : p9GrantsFind (p9GrantsAdd emptyBoard .done (ofString "a ab") [1] [] false).2
      (ofString "a ab")=none := by decide +kernel
  refine ⟨by decide +kernel,hnone,by decide +kernel,fun h => ?_⟩
  obtain ⟨g,hg,-⟩ := h.1
  rw [hnone] at hg
  cases hg

end LugalOS.P9
