import LugalOS.Lib.Matching
import LugalOS.Lisp.Reals

namespace LugalOS.Lisp

open Matching

/-- A Lisp value as a tree; other is a value that is equal to itself only. -/
inductive Expr
  | nil
  | number (v : Number)
  | str (s : List Char)
  | sym (s : List Char)
  | pair (car cdr : Expr)
  | vec (elems : List Expr)
  | other (id : Nat)
  deriving Inhabited

mutual

/-- lisp_equal_p; the loop over cdr is the second half of a pair. -/
def lispEqualP (w : LongSize) : Expr → Expr → Bool
  | .pair a b,.pair c d => lispEqualP w a c && lispEqualP w b d
  | .number a,.number b => decide (numCmp w a b=.eq)
  | .nil,.nil => true
  | .str s,.str t => s==t
  | .sym s,.sym t => s==t
  | .vec xs,.vec ys => xs.length==ys.length && elemsEqual w xs ys
  | .other i,.other j => i==j
  | _,_ => false

/-- The loop over the elements of two vectors. -/
def elemsEqual (w : LongSize) : List Expr → List Expr → Bool
  | x::xs,y::ys => lispEqualP w x y && elemsEqual w xs ys
  | _,_ => true

end

/-- lisp_assoc: the cdr of the entry it finds. -/
def lispAssoc (w : LongSize) (key : Expr) : Expr → Option Expr
  | .pair (.pair k v) rest => if lispEqualP w key k then some v else lispAssoc w key rest
  | .pair _ rest => lispAssoc w key rest
  | _ => none

def isPatternVar : Expr → Bool
  | .sym ('?'::_::_) => true
  | _ => false

def isAnonymousWildcard : Expr → Bool
  | .sym s => s==['?'] || s==['_']
  | _ => false

/-- lisp_match; none is NULL. -/
def lispMatch (w : LongSize) (pattern expr bindings : Expr) : Option Expr :=
  if isAnonymousWildcard pattern then some bindings
  else if isPatternVar pattern then
    match lispAssoc w pattern bindings with
    | some v => if lispEqualP w v expr then some bindings else none
    | none => some (.pair (.pair pattern expr) bindings)
  else
    match pattern with
    | .pair car cdr =>
      match expr with
      | .pair a d => do
        let bindings ← lispMatch w car a bindings
        lispMatch w cdr d bindings
      | _ => none
    | _ => if lispEqualP w pattern expr then some bindings else none

mutual

/-- Every number in it is one the reader and the arithmetic make. -/
def Expr.Ok (w : LongSize) : Expr → Prop
  | .number v => v.Ok w
  | .pair a d => a.Ok w ∧ d.Ok w
  | .vec xs => elemsOk w xs
  | _ => True

def elemsOk (w : LongSize) : List Expr → Prop
  | x::xs => x.Ok w ∧ elemsOk w xs
  | [] => True

end

mutual

/-- The same tree but for wide ratios. -/
def Expr.Similar : Expr → Expr → Prop
  | .pair a b,.pair c d => a.Similar c ∧ b.Similar d
  | .number a,.number b => a.Similar b
  | .nil,.nil => True
  | .str s,.str t => s=t
  | .sym s,.sym t => s=t
  | .vec xs,.vec ys => elemsSimilar xs ys
  | .other i,.other j => i=j
  | _,_ => False

def elemsSimilar : List Expr → List Expr → Prop
  | x::xs,y::ys => x.Similar y ∧ elemsSimilar xs ys
  | [],[] => True
  | _,_ => False

end

mutual

def Expr.widen : Expr → Expr
  | .number v => .number v.widen
  | .pair a d => .pair a.widen d.widen
  | .vec xs => .vec (elemsWiden xs)
  | e => e

def elemsWiden : List Expr → List Expr
  | x::xs => x.widen::elemsWiden xs
  | [] => []

end

section Equality

variable {w : LongSize}

mutual

theorem lispEqualP_self : (e : Expr) → e.Ok w → lispEqualP w e e=true
  | .nil,_ => by rw [lispEqualP]
  | .number v,h => by
    rw [lispEqualP,decide_eq_true_eq]
    exact numCmp_self h
  | .str s,_ => by rw [lispEqualP,beq_self_eq_true]
  | .sym s,_ => by rw [lispEqualP,beq_self_eq_true]
  | .pair a d,h => by
    rw [lispEqualP,lispEqualP_self a h.1,lispEqualP_self d h.2]
    rfl
  | .vec xs,h => by
    rw [lispEqualP,beq_self_eq_true,elemsEqual_self xs h]
    rfl
  | .other i,_ => by rw [lispEqualP,beq_self_eq_true]

theorem elemsEqual_self : (xs : List Expr) → elemsOk w xs → elemsEqual w xs xs=true
  | [],_ => by rw [elemsEqual]; intro _ _ _ _ h; cases h
  | x::xs,h => by
    rw [elemsEqual,lispEqualP_self x h.1,elemsEqual_self xs h.2]
    rfl

end

mutual

theorem similar_of_equal : (a b : Expr) → a.Ok w → b.Ok w → lispEqualP w a b=true → a.Similar b
  | .nil,b,_,_,h => by cases b <;> simp_all [lispEqualP,Expr.Similar]
  | .str s,b,_,_,h => by cases b <;> simp_all [lispEqualP,Expr.Similar]
  | .sym s,b,_,_,h => by cases b <;> simp_all [lispEqualP,Expr.Similar]
  | .other i,b,_,_,h => by cases b <;> simp_all [lispEqualP,Expr.Similar]
  | .number v,b,ha,hb,h => by
    cases b with
    | number u =>
      rw [lispEqualP,decide_eq_true_eq] at h
      exact numCmp_similar ha hb h
    | _ => simp [lispEqualP] at h
  | .pair a d,b,ha,hb,h => by
    cases b with
    | pair a' d' =>
      rw [lispEqualP,Bool.and_eq_true] at h
      exact ⟨similar_of_equal a a' ha.1 hb.1 h.1,similar_of_equal d d' ha.2 hb.2 h.2⟩
    | _ => simp [lispEqualP] at h
  | .vec xs,b,ha,hb,h => by
    cases b with
    | vec ys =>
      rw [lispEqualP,Bool.and_eq_true,beq_iff_eq] at h
      exact elemsSimilar_of_equal xs ys ha hb h.1 h.2
    | _ => simp [lispEqualP] at h

theorem elemsSimilar_of_equal : (xs ys : List Expr) → elemsOk w xs → elemsOk w ys →
    xs.length=ys.length → elemsEqual w xs ys=true → elemsSimilar xs ys
  | [],[],_,_,_,_ => trivial
  | [],_::_,_,_,hl,_ => by cases hl
  | _::_,[],_,_,hl,_ => by cases hl
  | x::xs,y::ys,hx,hy,hl,h => by
    rw [elemsEqual,Bool.and_eq_true] at h
    exact ⟨similar_of_equal x y hx.1 hy.1 h.1,
      elemsSimilar_of_equal xs ys hx.2 hy.2 (Nat.succ.inj hl) h.2⟩

end

mutual

theorem Expr.Similar.euclid : (a b c : Expr) → a.Ok w → b.Ok w → c.Ok w → a.Similar b →
    a.Similar c → b.Similar c
  | .nil,b,c,_,_,_,h1,h2 => by cases b <;> cases c <;> simp_all [Expr.Similar]
  | .str s,b,c,_,_,_,h1,h2 => by cases b <;> cases c <;> simp_all [Expr.Similar]
  | .sym s,b,c,_,_,_,h1,h2 => by cases b <;> cases c <;> simp_all [Expr.Similar]
  | .other i,b,c,_,_,_,h1,h2 => by cases b <;> cases c <;> simp_all [Expr.Similar]
  | .number v,b,c,ha,hb,hc,h1,h2 => by
    cases b with
    | number u =>
      cases c with
      | number t => exact Number.Similar.euclid ha hb hc h1 h2
      | _ => exact h2.elim
    | _ => exact h1.elim
  | .pair a d,b,c,ha,hb,hc,h1,h2 => by
    cases b with
    | pair a1 d1 =>
      cases c with
      | pair a2 d2 =>
        exact ⟨Expr.Similar.euclid a a1 a2 ha.1 hb.1 hc.1 h1.1 h2.1,
          Expr.Similar.euclid d d1 d2 ha.2 hb.2 hc.2 h1.2 h2.2⟩
      | _ => exact h2.elim
    | _ => exact h1.elim
  | .vec xs,b,c,ha,hb,hc,h1,h2 => by
    cases b with
    | vec ys =>
      cases c with
      | vec zs => exact elemsSimilar_euclid xs ys zs ha hb hc h1 h2
      | _ => exact h2.elim
    | _ => exact h1.elim

theorem elemsSimilar_euclid : (xs ys zs : List Expr) → elemsOk w xs → elemsOk w ys →
    elemsOk w zs → elemsSimilar xs ys → elemsSimilar xs zs → elemsSimilar ys zs
  | [],[],[],_,_,_,_,_ => trivial
  | [],_::_,_,_,_,_,h1,_ => h1.elim
  | [],[],_::_,_,_,_,_,h2 => h2.elim
  | _::_,[],_,_,_,_,h1,_ => h1.elim
  | _::_,_::_,[],_,_,_,_,h2 => h2.elim
  | x::xs,y::ys,z::zs,hx,hy,hz,h1,h2 =>
    ⟨Expr.Similar.euclid x y z hx.1 hy.1 hz.1 h1.1 h2.1,
      elemsSimilar_euclid xs ys zs hx.2 hy.2 hz.2 h1.2 h2.2⟩

end

theorem elemsWiden_length (xs : List Expr) : (elemsWiden xs).length=xs.length := by
  induction xs with
  | nil => rfl
  | cons x xs ih => rw [elemsWiden,List.length_cons,List.length_cons,ih]

mutual

theorem Expr.Similar.widen : (a b : Expr) → a.Ok w → b.Ok w → a.Similar b →
    a.widen.Ok w ∧ lispEqualP w a.widen b=true
  | .nil,b,_,_,h => by cases b <;> simp_all [Expr.widen,Expr.Ok,lispEqualP,Expr.Similar]
  | .str s,b,_,_,h => by cases b <;> simp_all [Expr.widen,Expr.Ok,lispEqualP,Expr.Similar]
  | .sym s,b,_,_,h => by cases b <;> simp_all [Expr.widen,Expr.Ok,lispEqualP,Expr.Similar]
  | .other i,b,_,_,h => by cases b <;> simp_all [Expr.widen,Expr.Ok,lispEqualP,Expr.Similar]
  | .number v,b,ha,hb,h => by
    cases b with
    | number u =>
      obtain ⟨hok,he⟩ := Number.Similar.widen ha hb h
      rw [Expr.widen,lispEqualP,decide_eq_true_eq]
      exact ⟨hok,he⟩
    | _ => exact h.elim
  | .pair a d,b,ha,hb,h => by
    cases b with
    | pair a' d' =>
      obtain ⟨hao,hae⟩ := Expr.Similar.widen a a' ha.1 hb.1 h.1
      obtain ⟨hdo,hde⟩ := Expr.Similar.widen d d' ha.2 hb.2 h.2
      rw [Expr.widen,lispEqualP,hae,hde]
      exact ⟨⟨hao,hdo⟩,rfl⟩
    | _ => exact h.elim
  | .vec xs,b,ha,hb,h => by
    cases b with
    | vec ys =>
      obtain ⟨hl,hok,he⟩ := elemsSimilar_widen xs ys ha hb h
      rw [Expr.widen,lispEqualP,he,elemsWiden_length,hl,beq_self_eq_true]
      exact ⟨hok,rfl⟩
    | _ => exact h.elim

theorem elemsSimilar_widen : (xs ys : List Expr) → elemsOk w xs → elemsOk w ys →
    elemsSimilar xs ys → xs.length=ys.length ∧ elemsOk w (elemsWiden xs) ∧
      elemsEqual w (elemsWiden xs) ys=true
  | [],[],_,_,_ => ⟨rfl,trivial,elemsEqual_self (w := w) [] trivial⟩
  | [],_::_,_,_,h => h.elim
  | _::_,[],_,_,h => h.elim
  | x::xs,y::ys,hx,hy,h => by
    obtain ⟨hxo,hxe⟩ := Expr.Similar.widen x y hx.1 hy.1 h.1
    obtain ⟨hl,hok,he⟩ := elemsSimilar_widen xs ys hx.2 hy.2 h.2
    rw [elemsWiden,elemsEqual,hxe,he,List.length_cons,List.length_cons,hl]
    exact ⟨rfl,⟨hxo,hok⟩,rfl⟩

end

end Equality

def varName : Expr → List Char
  | .sym s => s
  | _ => []

/-- The ?variables of a pattern; a vector is no pattern but is compared as it is. -/
def patternVars (p : Expr) : List (List Char) :=
  if isPatternVar p then [varName p]
  else
    match p with
    | .pair a d => patternVars a++patternVars d
    | _ => []

/-- What stands in e for each ?variable of the pattern; none where the rest of them is not equal. -/
def demands (w : LongSize) (p e : Expr) : Option (List (List Char × Expr)) :=
  if isAnonymousWildcard p then some []
  else if isPatternVar p then some [(varName p,e)]
  else
    match p with
    | .pair car cdr =>
      match e with
      | .pair a d => do
        let l ← demands w car a
        let r ← demands w cdr d
        some (l++r)
      | _ => none
    | _ => if lispEqualP w p e then some [] else none

/-- An association list with entries for variables in front. -/
def extend (new : List (List Char × Expr)) (b : Expr) : Expr :=
  new.foldr (fun d b => .pair (.pair (.sym d.1) d.2) b) b

def assocVar (w : LongSize) (b : Expr) (x : List Char) : Option Expr := lispAssoc w (.sym x) b

/-- A pattern with its variables replaced by what b binds them to, and wildcards by anything. -/
inductive Fills (w : LongSize) (b : Expr) : Expr → Expr → Prop
  | wildcard {p t : Expr} (h : isAnonymousWildcard p=true) : Fills w b p t
  | var {p v : Expr} (h : isPatternVar p=true) (hv : lispAssoc w p b=some v) : Fills w b p v
  | pair {a d a' d' : Expr} (ha : Fills w b a a') (hd : Fills w b d d') :
      Fills w b (.pair a d) (.pair a' d')
  | atom {p : Expr} (hw : isAnonymousWildcard p=false) (hv : isPatternVar p=false)
      (hp : ∀a d,p≠.pair a d) : Fills w b p p

/-- b' extends b by one value for each variable of p that b does not bind, and makes p equal to e. -/
def Extension (w : LongSize) (p e b b' : Expr) : Prop :=
  ∃new : List (List Char × Expr),b'=extend new b ∧ (∀d∈new,d.2.Ok w) ∧ (new.map Prod.fst).Nodup ∧
    (∀x,x∈new.map Prod.fst ↔ x∈patternVars p ∧ assocVar w b x=none) ∧
    ∃t,Fills w b' p t ∧ lispEqualP w t e=true

section Matching

variable {w : LongSize} {p e b : Expr} {new l : List (List Char × Expr)}

theorem assocVar_extend (new : List (List Char × Expr)) (b : Expr) (x : List Char) :
    assocVar w (extend new b) x=find (assocVar w b) new x := by
  induction new with
  | nil => rfl
  | cons d new ih =>
    rw [find_cons,← ih,assocVar,extend,List.foldr_cons,lispAssoc,lispEqualP]
    simp only [beq_iff_eq]
    rfl

theorem isPatternVar_sym (h : isPatternVar p=true) : p=.sym (varName p) := by
  cases p with
  | sym s => rfl
  | _ => cases h

theorem isWildcard_sym (h : isAnonymousWildcard p=true) : p=.sym (varName p) ∧ isPatternVar p=false := by
  cases p with
  | sym s =>
    rw [isAnonymousWildcard,Bool.or_eq_true,beq_iff_eq,beq_iff_eq] at h
    obtain h | h := h <;> rw [h] <;> exact ⟨rfl,rfl⟩
  | _ => cases h

theorem lispMatch_eq : (p e b : Expr) → (new : List (List Char × Expr)) →
    lispMatch w p e (extend new b)=(demands w p e).bind fun l =>
      (l.foldlM (demand (lispEqualP w) (assocVar w b)) new).map fun new => extend new b
  | p,e,b,new => by
    rw [lispMatch.eq_def,demands.eq_def]
    by_cases hw : isAnonymousWildcard p=true
    · rw [if_pos hw,if_pos hw]
      rfl
    by_cases hv : isPatternVar p=true
    · have hsym := isPatternVar_sym hv
      have hassoc : lispAssoc w p (extend new b)=find (assocVar w b) new (varName p) := by
        rw [← assocVar_extend,assocVar,← hsym]
      rw [if_neg hw,if_neg hw,if_pos hv,if_pos hv,hassoc,Option.bind_some,List.foldlM_cons,demand]
      cases find (assocVar w b) new (varName p) with
      | some v =>
        by_cases ha : lispEqualP w v e=true
        · simp [ha]
        · simp [ha]
      | none =>
        simp [extend,← hsym]
    · rw [if_neg hw,if_neg hw,if_neg hv,if_neg hv]
      have hatom : (if lispEqualP w p e=true then some (extend new b) else none)=
          (if lispEqualP w p e=true then some [] else none).bind fun l =>
            (l.foldlM (demand (lispEqualP w) (assocVar w b)) new).map fun new => extend new b := by
        split_ifs <;> rfl
      cases p with
      | pair car cdr =>
        cases e with
        | pair a d =>
          dsimp only
          rw [lispMatch_eq car a b new]
          cases demands w car a with
          | none => rfl
          | some l =>
            simp only [Option.bind_eq_bind,Option.bind_some]
            cases hl : l.foldlM (demand (lispEqualP w) (assocVar w b)) new with
            | none =>
              cases demands w cdr d with
              | none => rfl
              | some r => simp [hl]
            | some new1 =>
              simp only [Option.map_some,Option.bind_some]
              rw [lispMatch_eq cdr d b new1]
              cases demands w cdr d with
              | none => rfl
              | some r => simp [hl]
        | _ => rfl
      | _ => exact hatom

theorem demands_spec : (p e : Expr) → (l : List (List Char × Expr)) → e.Ok w →
    demands w p e=some l → l.map Prod.fst=patternVars p ∧ ∀d∈l,d.2.Ok w
  | p,e,l,he,h => by
    rw [demands.eq_def] at h
    rw [patternVars.eq_def]
    by_cases hw : isAnonymousWildcard p=true
    · obtain ⟨hsym,hv⟩ := isWildcard_sym hw
      rw [if_pos hw] at h
      cases h
      rw [if_neg (by rw [hv]; decide),hsym]
      exact ⟨rfl,fun d hd => absurd hd List.not_mem_nil⟩
    rw [if_neg hw] at h
    by_cases hv : isPatternVar p=true
    · rw [if_pos hv] at h
      cases h
      rw [if_pos hv]
      refine ⟨rfl,?_⟩
      intro d hd
      rw [List.mem_singleton.mp hd]
      exact he
    rw [if_neg hv] at h
    rw [if_neg hv]
    have hatom : (if lispEqualP w p e=true then some [] else none)=some l →
        l.map Prod.fst=[] ∧ ∀d∈l,d.2.Ok w := by
      intro h
      split_ifs at h
      cases h
      exact ⟨rfl,fun d hd => absurd hd List.not_mem_nil⟩
    cases p with
    | pair car cdr =>
      cases e with
      | pair a d =>
        dsimp only at h ⊢
        cases hl : demands w car a with
        | none =>
          rw [hl] at h
          cases h
        | some l1 =>
          cases hr : demands w cdr d with
          | none =>
            rw [hl,hr] at h
            cases h
          | some l2 =>
            rw [hl,hr] at h
            cases h
            obtain ⟨hk1,ho1⟩ := demands_spec car a l1 he.1 hl
            obtain ⟨hk2,ho2⟩ := demands_spec cdr d l2 he.2 hr
            rw [List.map_append,hk1,hk2]
            refine ⟨rfl,?_⟩
            intro x hx
            cases List.mem_append.mp hx with
            | inl hx => exact ho1 x hx
            | inr hx => exact ho2 x hx
      | _ => cases h
    | _ => exact hatom h

theorem fills_iff : (p e : Expr) → e.Ok w →
    ((∃t,Fills w b p t ∧ lispEqualP w t e=true) ↔ ∃l,demands w p e=some l ∧
      ∀d∈l,∃v,assocVar w b d.1=some v ∧ lispEqualP w v d.2=true)
  | p,e,he => by
    rw [demands.eq_def]
    by_cases hw : isAnonymousWildcard p=true
    · rw [if_pos hw]
      constructor
      · intro _
        exact ⟨[],rfl,fun d hd => absurd hd List.not_mem_nil⟩
      · intro _
        exact ⟨e,.wildcard hw,lispEqualP_self e he⟩
    rw [if_neg hw]
    have hw' : isAnonymousWildcard p=false := by simpa using hw
    by_cases hv : isPatternVar p=true
    · have hsym := isPatternVar_sym hv
      have hassoc : assocVar w b (varName p)=lispAssoc w p b := by rw [assocVar,← hsym]
      rw [if_pos hv]
      simp only [Option.some.injEq,exists_eq_left',List.forall_mem_singleton,hassoc]
      constructor
      · intro h
        obtain ⟨t,hf,ht⟩ := h
        cases hf with
        | wildcard h => exact absurd h hw
        | var _ hv' => exact ⟨t,hv',ht⟩
        | pair _ _ => cases hv
        | atom _ h _ =>
          rw [hv] at h
          cases h
      · intro h
        obtain ⟨v,hv',ht⟩ := h
        exact ⟨v,.var hv hv',ht⟩
    rw [if_neg hv]
    have hv' : isPatternVar p=false := by simpa using hv
    have hatom (hp : ∀a d,p≠.pair a d) : (∃t,Fills w b p t ∧ lispEqualP w t e=true) ↔
        ∃l : List (List Char × Expr),(if lispEqualP w p e=true then some [] else none)=some l ∧
          ∀d∈l,∃v,assocVar w b d.1=some v ∧ lispEqualP w v d.2=true := by
      constructor
      · intro h
        obtain ⟨t,hf,ht⟩ := h
        cases hf with
        | wildcard h => exact absurd h hw
        | var h _ => exact absurd h hv
        | pair _ _ => exact absurd rfl (hp _ _)
        | atom _ _ _ =>
          rw [if_pos ht]
          exact ⟨[],rfl,fun d hd => absurd hd List.not_mem_nil⟩
      · intro h
        obtain ⟨l,hl,_⟩ := h
        split_ifs at hl with ht
        exact ⟨p,.atom hw' hv' hp,ht⟩
    cases p with
    | pair car cdr =>
      have hfill (t : Expr) : Fills w b (.pair car cdr) t ↔
          ∃a d,t=.pair a d ∧ Fills w b car a ∧ Fills w b cdr d := by
        constructor
        · intro hf
          cases hf with
          | wildcard h | var h _ => cases h
          | pair ha hd => exact ⟨_,_,rfl,ha,hd⟩
          | atom _ _ hp => exact absurd rfl (hp _ _)
        · intro h
          obtain ⟨a,d,rfl,ha,hd⟩ := h
          exact .pair ha hd
      simp only [hfill]
      cases e with
      | pair a d =>
        have hcar := fills_iff car a he.1
        have hcdr := fills_iff cdr d he.2
        dsimp only
        constructor
        · intro h
          obtain ⟨t,⟨ta,td,rfl,hfa,hfd⟩,ht⟩ := h
          rw [lispEqualP,Bool.and_eq_true] at ht
          obtain ⟨l,hl,hvl⟩ := hcar.mp ⟨ta,hfa,ht.1⟩
          obtain ⟨r,hr,hvr⟩ := hcdr.mp ⟨td,hfd,ht.2⟩
          refine ⟨l++r,by rw [hl,hr]; rfl,?_⟩
          intro x hx
          cases List.mem_append.mp hx with
          | inl hx => exact hvl x hx
          | inr hx => exact hvr x hx
        · intro h
          obtain ⟨l,hl,hvl⟩ := h
          cases hl1 : demands w car a with
          | none =>
            rw [hl1] at hl
            cases hl
          | some l1 =>
            cases hl2 : demands w cdr d with
            | none =>
              rw [hl1,hl2] at hl
              cases hl
            | some l2 =>
              rw [hl1,hl2] at hl
              cases hl
              obtain ⟨ta,hfa,hta⟩ := hcar.mpr ⟨l1,hl1,fun x hx => hvl x (List.mem_append_left l2 hx)⟩
              obtain ⟨td,hfd,htd⟩ := hcdr.mpr ⟨l2,hl2,fun x hx => hvl x (List.mem_append_right l1 hx)⟩
              exact ⟨.pair ta td,⟨ta,td,rfl,hfa,hfd⟩,by rw [lispEqualP,hta,htd]; rfl⟩
      | _ =>
        constructor
        · intro h
          obtain ⟨t,⟨ta,td,rfl,_⟩,ht⟩ := h
          rw [lispEqualP] at ht
          · cases ht
          all_goals simp
        · intro h
          obtain ⟨l,hl,_⟩ := h
          cases hl
    | _ => exact hatom fun a d h => by cases h

theorem extension_iff (he : e.Ok w) : (∃b',Extension w p e b b') ↔
    ∃l,demands w p e=some l ∧
      ∃new,(∀d∈new,d.2.Ok w) ∧ Solves (lispEqualP w) (assocVar w b) l new := by
  constructor
  · intro h
    obtain ⟨b',new,rfl,hok,hnodup,hkeys,hfill⟩ := h
    obtain ⟨l,hl,hv⟩ := (fills_iff p e he).mp hfill
    simp only [assocVar_extend] at hv
    rw [← (demands_spec p e l he hl).1] at hkeys
    exact ⟨l,hl,new,hok,hnodup,hkeys,hv⟩
  · intro h
    obtain ⟨l,hl,new,hok,hsolves⟩ := h
    refine ⟨extend new b,new,rfl,hok,hsolves.nodup,?_,?_⟩
    · rw [← (demands_spec p e l he hl).1]
      exact hsolves.keys
    · apply (fills_iff p e he).mpr
      refine ⟨l,hl,?_⟩
      simp only [assocVar_extend]
      exact hsolves.agrees

theorem lispMatch_sound (he : e.Ok w) {b' : Expr} (h : lispMatch w p e b=some b') :
    Extension w p e b b' := by
  have heq := lispMatch_eq (w := w) p e b []
  rw [extend,List.foldr_nil,h] at heq
  cases hl : demands w p e with
  | none =>
    rw [hl] at heq
    cases heq
  | some l =>
    rw [hl,Option.bind_some] at heq
    cases hrun : l.foldlM (demand (lispEqualP w) (assocVar w b)) [] with
    | none =>
      rw [hrun] at heq
      cases heq
    | some new =>
      rw [hrun,Option.map_some] at heq
      cases heq
      obtain ⟨hvars,hok⟩ := demands_spec p e l he hl
      have hsolves := run_solves (fun d hd => lispEqualP_self d.2 (hok d hd)) hrun
      refine ⟨new,rfl,?_,hsolves.nodup,?_,?_⟩
      · intro d hd
        exact (run_subset hrun d hd).elim (fun h => absurd h List.not_mem_nil) (hok d)
      · rw [← hvars]
        exact hsolves.keys
      · apply (fills_iff p e he).mpr
        refine ⟨l,hl,?_⟩
        simp only [assocVar_extend]
        exact hsolves.agrees

theorem lispMatch_some_iff (he : e.Ok w) : (∃b',lispMatch w p e b=some b') ↔
    ∃l,demands w p e=some l ∧
      ∀d∈l,∀v,first (assocVar w b) [] l d.1=some v → lispEqualP w v d.2=true := by
  have heq := lispMatch_eq (w := w) p e b []
  rw [extend,List.foldr_nil] at heq
  rw [heq]
  cases hl : demands w p e with
  | none => simp
  | some l =>
    have hok := (demands_spec p e l he hl).2
    have hrun : (∃new,l.foldlM (demand (lispEqualP w) (assocVar w b)) []=some new) ↔
        ∀d∈l,∀v,first (assocVar w b) [] l d.1=some v → lispEqualP w v d.2=true :=
      run_iff fun d hd => lispEqualP_self d.2 (hok d hd)
    simp only [Option.bind_some,Option.map_eq_some_iff,Option.some.injEq,exists_eq_left']
    rw [← hrun]
    simp

/-- Where e fits p with every free variable's values similar, they are equal to the first of them. -/
def Unconfused (w : LongSize) (p e b : Expr) : Prop :=
  ∀l,demands w p e=some l →
    (∀d∈l,(∀v,assocVar w b d.1=some v → lispEqualP w v d.2=true) ∧
      (assocVar w b d.1=none → ∀s,lead l d.1=some s → s.Similar d.2)) →
    ∀d∈l,assocVar w b d.1=none → ∀s,lead l d.1=some s → lispEqualP w s d.2=true

/-- lisp_match returns an extension, and NULL only where there is none, exactly where no variable has to
be equal to trees that only num_cmp's overflow makes equal to a third one. -/
theorem lisp_match_iff (w : LongSize) (p e b : Expr) (he : e.Ok w) :
    ((∀b',lispMatch w p e b=some b' → Extension w p e b b') ∧
      (lispMatch w p e b=none → ∀b',¬Extension w p e b b')) ↔ Unconfused w p e b := by
  have hsolvable (l : List (List Char × Expr)) (hl : demands w p e=some l) :
      (∃new,(∀d∈new,d.2.Ok w) ∧ Solves (lispEqualP w) (assocVar w b) l new) ↔
        ∀d∈l,(∀v,assocVar w b d.1=some v → lispEqualP w v d.2=true) ∧
          (assocVar w b d.1=none → ∀s,lead l d.1=some s → s.Similar d.2) :=
    solvable_iff (demands_spec p e l he hl).2 similar_of_equal Expr.Similar.euclid Expr.Similar.widen
  constructor
  · intro h l hl hloose d hd hfree s hs
    have hext := (extension_iff he).mpr ⟨l,hl,(hsolvable l hl).mpr hloose⟩
    have hsome : ∃b',lispMatch w p e b=some b' := by
      by_contra hnone
      obtain ⟨b',hb'⟩ := hext
      apply h.2 _ b' hb'
      rw [Option.eq_none_iff_forall_ne_some]
      exact fun b1 hb1 => hnone ⟨b1,hb1⟩
    obtain ⟨l',hl',hrun⟩ := (lispMatch_some_iff he).mp hsome
    cases hl.symm.trans hl'
    apply hrun d hd
    rw [first_nil,hfree,Option.none_or,hs]
  · intro h
    refine ⟨fun b' => lispMatch_sound he,?_⟩
    intro hnone b' hb'
    obtain ⟨l,hl,hsol⟩ := (extension_iff he).mp ⟨b',hb'⟩
    have hloose := (hsolvable l hl).mp hsol
    have hstrict := h l hl hloose
    have hsome : ∃b',lispMatch w p e b=some b' := by
      apply (lispMatch_some_iff he).mpr
      refine ⟨l,hl,?_⟩
      intro d hd v hv
      rw [first_nil] at hv
      cases hbase : assocVar w b d.1 with
      | some u =>
        rw [hbase,Option.some_or] at hv
        cases hv
        exact (hloose d hd).1 v hbase
      | none =>
        rw [hbase,Option.none_or] at hv
        exact hstrict d hd hbase v hv
    rw [hnone] at hsome
    obtain ⟨_,h⟩ := hsome
    cases h

def thirds (n : Int) : Expr := .number (.real (.ratio (.int n) (.int 3)))

def twice (e : Expr) : Expr := .pair e (.pair e .nil)

theorem lisp_match_iff_pair : ((∀b',lispMatch .eight (twice (.sym ['?','x'])) (twice (thirds 5)) .nil=some b' →
      Extension .eight (twice (.sym ['?','x'])) (twice (thirds 5)) .nil b') ∧
    (lispMatch .eight (twice (.sym ['?','x'])) (twice (thirds 5)) .nil=none →
      ∀b',¬Extension .eight (twice (.sym ['?','x'])) (twice (thirds 5)) .nil b')) ↔
    Unconfused .eight (twice (.sym ['?','x'])) (twice (thirds 5)) .nil := by
  have hthird : (thirds 5).Ok .eight := ⟨⟨by decide,by decide⟩,⟨by decide,by decide⟩,by decide,by decide⟩
  exact lisp_match_iff .eight (twice (.sym ['?','x'])) (twice (thirds 5)) .nil ⟨hthird,hthird,trivial⟩

/-- The pattern (?x ?x) does not match (5/3 7/3), though lisp_equal_p takes the huge ratio for both. -/
theorem lisp_match_confused : ¬∀(w : LongSize) (p e b : Expr),e.Ok w →
    (∀b',lispMatch w p e b=some b' → Extension w p e b b') ∧
      (lispMatch w p e b=none → ∀b',¬Extension w p e b b') := by
  intro h
  have hok (n : Int) (hn : (Real.ratio (.int n) (.int 3)).Ok .eight) : (thirds n).Ok .eight := hn
  have h5 : (Real.ratio (.int 5) (.int 3)).Ok .eight :=
    ⟨⟨by decide,by decide⟩,⟨by decide,by decide⟩,by decide,by decide⟩
  have h7 : (Real.ratio (.int 7) (.int 3)).Ok .eight :=
    ⟨⟨by decide,by decide⟩,⟨by decide,by decide⟩,by decide,by decide⟩
  have hequal (n : Int) (hn : (Real.ratio (.int n) (.int 3)).Ok .eight) (hw : 2≤n.natAbs) :
      lispEqualP .eight (.number (.real huge)) (thirds n)=true := by
    rw [thirds,lispEqualP,decide_eq_true_eq,numCmp_real]
    exact huge_cmp hn hw
  have hnone : lispMatch .eight (twice (.sym ['?','x'])) (.pair (thirds 5) (.pair (thirds 7) .nil)) .nil=
      none := by
    rw [← Option.isNone_iff_eq_none]
    decide +kernel
  apply (h .eight (twice (.sym ['?','x'])) (.pair (thirds 5) (.pair (thirds 7) .nil)) .nil
    ⟨hok 5 h5,hok 7 h7,trivial⟩).2 hnone (extend [(['?','x'],.number (.real huge))] .nil)
  have hvar : lispAssoc .eight (.sym ['?','x']) (extend [(['?','x'],.number (.real huge))] .nil)=
      some (.number (.real huge)) := by simp [extend,lispAssoc,lispEqualP]
  refine ⟨[(['?','x'],.number (.real huge))],rfl,?_,by simp,?_,
    twice (.number (.real huge)),?_,?_⟩
  · intro d hd
    rw [List.mem_singleton.mp hd]
    exact (huge_parts .eight).1
  · intro x
    simp [patternVars,isPatternVar,varName,twice,assocVar,lispAssoc]
  · exact .pair (.var rfl hvar) (.pair (.var rfl hvar) (.atom rfl rfl fun a d h => by cases h))
  · rw [twice,lispEqualP,lispEqualP,hequal 5 h5 (by decide),hequal 7 h7 (by decide),lispEqualP]
    rfl

end Matching

end LugalOS.Lisp
