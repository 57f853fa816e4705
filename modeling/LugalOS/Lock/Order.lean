import LugalOS.Lib.Precedence
import Mathlib.Algebra.Order.Ring.Nat
import Mathlib.Data.List.Nodup

/-! The lock-order checker: what each context holds, the pairs learned from it, and the count of
the takes against a learned pair. Contexts are the ids of sched_context_id, locks are told apart
by address. -/

namespace LugalOS.Lock

open Function (update_of_ne update_self)
open Precedence (learn)

/-- ylock_t: the gate, the holder (-1 is none) and the count of its entries. -/
structure Ylock (C : Type) where
  word : Bool
  owner : Option C
  depth : ℕ

abbrev lockordDepth : ℕ := 6
abbrev lockordPairs : ℕ := 96

/-- The tables behind g_order_lock. -/
structure OrderTables (C L : Type) where
  held : C → List L
  pairs : List (L×L)
  pairsDropped : ℕ
  heldOverflow : ℕ
  inversions : ℕ

/-- The ylocks and the order tables. -/
structure Locks (C L : Type) where
  lock : L → Ylock C
  order : OrderTables C L

variable {C L : Type}

namespace Locks

/-- All locks free and the tables empty. -/
structure Fresh (s : Locks C L) : Prop where
  free : ∀l,(s.lock l).depth=0 ∧ (s.lock l).word=false
  held : ∀c,s.order.held c=[]
  pairs : s.order.pairs=[]
  dropped : s.order.pairsDropped=0
  overflow : s.order.heldOverflow=0
  inversions : s.order.inversions=0

/-- A context is between its take of a lock and the release of it. -/
def Holds (s : Locks C L) (c : C) (l : L) : Prop :=
  0 < (s.lock l).depth ∧ (s.lock l).owner=some c

/-- What holds of the locks and the stacks along every run. -/
structure Kept (s : Locks C L) : Prop where
  gate : ∀l,(s.lock l).word=false ↔ (s.lock l).depth=0
  nodup : ∀c,(s.order.held c).Nodup
  short : ∀c,(s.order.held c).length≤lockordDepth
  holds : ∀c,∀l∈s.order.held c,s.Holds c l
  bound : s.order.inversions < 2^32

theorem Fresh.kept {s : Locks C L} (h : s.Fresh) : s.Kept where
  gate l := by simp [h.free l]
  nodup c := by simp [h.held]
  short c := by simp [h.held]
  holds c l hl := by simp [h.held] at hl
  bound := by simp [h.inversions]

variable [DecidableEq L]

def setLock (s : Locks C L) (l : L) (k : Ylock C) : Locks C L :=
  {s with lock := Function.update s.lock l k}

theorem holds_setLock (s : Locks C L) (l : L) (k : Ylock C) (o : OrderTables C L) (c : C) (l' : L) :
    ({s.setLock l k with order := o} : Locks C L).Holds c l' ↔
      l'=l ∧ 0 < k.depth ∧ k.owner=some c ∨ l'≠l ∧ s.Holds c l' := by
  by_cases hl : l'=l
  · subst hl
    simp [Holds,setLock]
  · simp [Holds,setLock,hl]

end Locks

variable [DecidableEq L]

namespace OrderTables

/-- One turn of the loop of order_acquired: l is taken, h is held. -/
def note (l : L) (s : OrderTables C L) (h : L) : OrderTables C L :=
  if h=l then s
  else if (l,h)∈s.pairs then {s with inversions := (s.inversions+1)%2^32}
  else if (h,l)∈s.pairs then s
  else if s.pairs.length < lockordPairs then {s with pairs := s.pairs++[(h,l)]}
  else {s with pairsDropped := s.pairsDropped+1}

theorem note_held (l : L) (s : OrderTables C L) (h : L) : (note l s h).held=s.held := by
  unfold note
  split_ifs <;> rfl

theorem mem_note_swap (l : L) (s : OrderTables C L) (h x : L) :
    (l,x)∈(note l s h).pairs ↔ (l,x)∈s.pairs := by
  unfold note
  split_ifs with hl
  · rfl
  · rfl
  · rfl
  · simp only [List.mem_append,List.mem_singleton,Prod.mk.injEq,or_iff_left_iff_imp]
    rintro ⟨rfl,-⟩
    exact absurd rfl hl
  · rfl

theorem fold_held (l : L) (s : OrderTables C L) (hs : List L) :
    (hs.foldl (note l) s).held=s.held := by
  induction hs generalizing s with
  | nil => rfl
  | cons h hs ih => rw [List.foldl_cons,ih,note_held]

theorem fold_inversions (l : L) (s : OrderTables C L) (hs : List L) (hb : s.inversions < 2^32) :
    (hs.foldl (note l) s).inversions=
      (s.inversions+hs.countP fun h => h≠l ∧ (l,h)∈s.pairs)%2^32 := by
  induction hs generalizing s with
  | nil => exact (Nat.mod_eq_of_lt hb).symm
  | cons h hs ih =>
    have hsame : hs.countP (fun x => decide (x≠l ∧ (l,x)∈(note l s h).pairs))=
        hs.countP fun x => decide (x≠l ∧ (l,x)∈s.pairs) := by
      simp only [mem_note_swap]
    have hlt : (note l s h).inversions < 2^32 := by
      unfold note
      split_ifs
      · exact hb
      · exact Nat.mod_lt _ (Nat.two_pow_pos 32)
      · exact hb
      · exact hb
      · exact hb
    have hone : (note l s h).inversions=
        (s.inversions+if h≠l ∧ (l,h)∈s.pairs then 1 else 0)%2^32 := by
      unfold note
      split_ifs with h1 h2 h3 h4 <;> simp_all [Nat.mod_eq_of_lt]
    rw [List.foldl_cons,ih _ hlt,hsame,hone,List.countP_cons,Nat.mod_add_mod]
    simp only [decide_eq_true_eq]
    congr 1
    omega

theorem fold_overflow (l : L) (s : OrderTables C L) (hs : List L) :
    (hs.foldl (note l) s).heldOverflow=s.heldOverflow := by
  induction hs generalizing s with
  | nil => rfl
  | cons h hs ih =>
    rw [List.foldl_cons,ih]
    unfold note
    split_ifs <;> rfl

theorem dropped_le_note (l : L) (s : OrderTables C L) (h : L) :
    s.pairsDropped≤(note l s h).pairsDropped := by
  unfold note
  split_ifs <;> simp

theorem dropped_le_fold (l : L) (s : OrderTables C L) (hs : List L) :
    s.pairsDropped≤(hs.foldl (note l) s).pairsDropped := by
  induction hs generalizing s with
  | nil => exact Nat.le_refl _
  | cons h hs ih => exact Nat.le_trans (dropped_le_note l s h) (ih _)

theorem fold_pairs (l : L) (s : OrderTables C L) (hs : List L)
    (hd : (hs.foldl (note l) s).pairsDropped=0) :
    (hs.foldl (note l) s).pairs=((hs.filter (·≠l)).map fun h => (h,l)).foldl learn s.pairs := by
  induction hs generalizing s with
  | nil => rfl
  | cons h hs ih =>
    rw [List.foldl_cons] at hd ⊢
    rw [ih _ hd]
    by_cases hl : h=l
    · simp [note,hl]
    · have hroom : (note l s h).pairsDropped=0 := by
        have hle := dropped_le_fold l (note l s h) hs
        omega
      have hpairs : (note l s h).pairs=learn s.pairs (h,l) := by
        unfold note at hroom ⊢
        unfold learn
        split_ifs at hroom ⊢ <;> simp_all
      simp [hl,hpairs]

theorem mem_fold {l : L} {s : OrderTables C L} {hs : List L} {p : L×L}
    (hp : p∈(hs.foldl (note l) s).pairs) : p∈s.pairs ∨ ∃h∈hs,h≠l ∧ p=(h,l) := by
  induction hs generalizing s with
  | nil => exact .inl hp
  | cons h hs ih =>
    rcases ih hp with hn | ⟨x,hx,hxl,rfl⟩
    · unfold note at hn
      split_ifs at hn with hl
      · exact .inl hn
      · exact .inl hn
      · exact .inl hn
      · rcases List.mem_append.mp hn with hn | hn
        · exact .inl hn
        · exact .inr ⟨h,by simp,hl,List.mem_singleton.mp hn⟩
      · exact .inl hn
    · exact .inr ⟨x,by simp [hx],hxl,rfl⟩

variable [DecidableEq C]

/-- Pushes a lock on the stack of what a context holds. -/
def push (s : OrderTables C L) (me : C) (l : L) : OrderTables C L :=
  if (s.held me).length < lockordDepth then
    {s with held := Function.update s.held me (s.held me++[l])}
  else {s with heldOverflow := s.heldOverflow+1}

def orderAcquired (s : OrderTables C L) (l : L) (me : C) (mayWait : Bool) : OrderTables C L :=
  (if mayWait then (s.held me).foldl (note l) s else s).push me l

/-- The entry nearest the top of the stack goes. -/
def orderReleased (s : OrderTables C L) (l : L) : Option C → OrderTables C L
  | none => s
  | some o => {s with held := Function.update s.held o ((s.held o).reverse.erase l).reverse}

theorem orderAcquired_held (s : OrderTables C L) (l : L) (me : C) (mayWait : Bool) :
    (s.orderAcquired l me mayWait).held=
      if (s.held me).length < lockordDepth then Function.update s.held me (s.held me++[l])
      else s.held := by
  unfold orderAcquired push
  cases mayWait
  · simp only [Bool.false_eq_true,if_false]
    split_ifs <;> rfl
  · simp only [if_true,fold_held]
    split_ifs <;> rfl

theorem orderAcquired_overflow (s : OrderTables C L) (l : L) (me : C) (mayWait : Bool)
    (h : (s.orderAcquired l me mayWait).heldOverflow=0) : (s.held me).length < lockordDepth := by
  by_contra hfull
  unfold orderAcquired push at h
  cases mayWait
  · simp only [Bool.false_eq_true,if_false,hfull] at h
    omega
  · simp only [if_true,fold_held,hfull,if_false] at h
    omega

omit [DecidableEq L] in
theorem push_tables (s : OrderTables C L) (me : C) (l : L) :
    (s.push me l).inversions=s.inversions ∧ (s.push me l).pairs=s.pairs ∧
      (s.push me l).pairsDropped=s.pairsDropped := by
  unfold push
  split_ifs <;> exact ⟨rfl,rfl,rfl⟩

theorem mem_orderReleased_held {s : OrderTables C L} {l : L} {o : Option C}
    (hn : ∀c,(s.held c).Nodup) {c : C} {x : L} :
    x∈(s.orderReleased l o).held c ↔ x∈s.held c ∧ (o=some c → x≠l) := by
  cases o with
  | none => simp [orderReleased]
  | some o =>
    by_cases hc : c=o
    · subst hc
      have hrev : (s.held c).reverse.Nodup := List.nodup_reverse.mpr (hn c)
      simp [orderReleased,hrev.mem_erase_iff,and_comm]
    · have hne : ¬some o=some c := fun h => hc (Option.some.inj h).symm
      simp [orderReleased,hc,hne]

theorem orderReleased_sublist (s : OrderTables C L) (l : L) (o : Option C) (c : C) :
    List.Sublist ((s.orderReleased l o).held c) (s.held c) := by
  cases o with
  | none => exact List.Sublist.refl _
  | some o =>
    by_cases hc : c=o
    · subst hc
      simp only [orderReleased,update_self]
      exact List.reverse_sublist.mp (by simpa using List.erase_sublist)
    · simp [orderReleased,hc]

end OrderTables

/-- The calls of a context. -/
inductive LockEvent (C L : Type)
  | acquire (c : C) (l : L)
  | tryAcquire (c : C) (l : L)
  | release (c : C) (l : L)

/-- A call of ylock_acquire or of ylock_try_acquire. -/
def LockEvent.take (c : C) (l : L) (mayWait : Bool) : LockEvent C L :=
  if mayWait then .acquire c l else .tryAcquire c l

namespace Locks

variable [DecidableEq C]

/-- A turn of ylock_acquire: a further entry, a take, or a wait that changes nothing here. With
mayWait false it is ylock_try_acquire. -/
def acquire (s : Locks C L) (c : C) (l : L) (mayWait : Bool) : Locks C L :=
  if 0 < (s.lock l).depth ∧ (s.lock l).owner=some c then
    s.setLock l {s.lock l with depth := (s.lock l).depth+1}
  else if (s.lock l).word=false then
    {s.setLock l ⟨true,some c,1⟩ with order := s.order.orderAcquired l c mayWait}
  else s

/-- ylock_release, which goes on when the caller does not hold the lock. -/
def release (s : Locks C L) (l : L) : Locks C L :=
  if 0 < (s.lock l).depth then
    if (s.lock l).depth-1=0 then
      {s.setLock l ⟨false,none,0⟩ with order := s.order.orderReleased l (s.lock l).owner}
    else s.setLock l {s.lock l with depth := (s.lock l).depth-1}
  else s

def step (s : Locks C L) : LockEvent C L → Locks C L
  | .acquire c l => s.acquire c l true
  | .tryAcquire c l => s.acquire c l false
  | .release _ l => s.release l

def run (s : Locks C L) (h : List (LockEvent C L)) : Locks C L := h.foldl step s

instance (s : Locks C L) (c : C) (l : L) : Decidable (s.Holds c l) :=
  inferInstanceAs (Decidable (_ ∧ _))

/-- A context that holds a takes b with ylock_acquire (and does not just enter it again). -/
def Took (s : Locks C L) (e : LockEvent C L) (a b : L) : Prop :=
  ∃c,e=.acquire c b ∧ s.Holds c a ∧ ¬s.Holds c b ∧ (s.step e).Holds c b

/-- The tables have had room so far. -/
def Roomy (s : Locks C L) : Prop := s.order.pairsDropped=0 ∧ s.order.heldOverflow=0

instance (s : Locks C L) : Decidable s.Roomy := inferInstanceAs (Decidable (_ ∧ _))

/-- The pairs of a held lock and the one that is taken with ylock_acquire. -/
def takes (s : Locks C L) : LockEvent C L → List (L×L)
  | .acquire c l =>
    if ¬s.Holds c l ∧ (s.lock l).word=false then ((s.order.held c).filter (·≠l)).map fun h => (h,l)
    else []
  | _ => []

/-- What an event does: nothing that the tables see, a take by a context, or the last release. -/
inductive Effect (s : Locks C L) (e : LockEvent C L) (s' : Locks C L) : Prop
  | same : (∀c l,s'.Holds c l ↔ s.Holds c l) → s'.order=s.order → s.takes e=[] → Effect s e s'
  | take (c : C) (l : L) (mayWait : Bool) :
      e=.take c l mayWait → (∀c',¬s.Holds c' l) →
      (∀c' l',s'.Holds c' l' ↔ l'=l ∧ c'=c ∨ l'≠l ∧ s.Holds c' l') →
      s'.order=s.order.orderAcquired l c mayWait →
      s.takes e=(if mayWait then ((s.order.held c).filter (·≠l)).map fun h => (h,l) else []) →
      Effect s e s'
  | drop (l : L) (o : Option C) : (s.lock l).owner=o → 0 < (s.lock l).depth →
      (∀c' l',s'.Holds c' l' ↔ l'≠l ∧ s.Holds c' l') → s'.order=s.order.orderReleased l o →
      s.takes e=[] → Effect s e s'

theorem acquire_effect {s : Locks C L} (hs : s.Kept) (c : C) (l : L) (mayWait : Bool) :
    Effect s (.take c l mayWait) (s.acquire c l mayWait) := by
  unfold acquire
  split_ifs with hown hword
  · refine .same (fun c' l' => ?_) rfl ?_
    · rw [show s.setLock l {s.lock l with depth := (s.lock l).depth+1}=
        {s.setLock l {s.lock l with depth := (s.lock l).depth+1} with order := s.order} from rfl,
        holds_setLock]
      by_cases hl : l'=l
      · subst hl
        simp [Holds,hown.1]
      · simp [hl]
    · cases mayWait <;> simp [LockEvent.take,takes,Holds,hown]
  · have hfree : ∀c',¬s.Holds c' l := by
      intro c' h
      have hzero := (hs.gate l).mp hword
      have hpos := h.1
      omega
    refine .take c l mayWait rfl hfree (fun c' l' => ?_) rfl ?_
    · rw [holds_setLock]
      simp [eq_comm]
    · cases mayWait
      · rfl
      · simp [LockEvent.take,takes,hfree,hword]
  · refine .same (fun _ _ => Iff.rfl) rfl ?_
    cases mayWait
    · rfl
    · simp [LockEvent.take,takes,hword]

theorem release_effect (s : Locks C L) (c : C) (l : L) :
    Effect s (.release c l) (s.release l) := by
  unfold release
  split_ifs with hpos hone
  · refine .drop l _ rfl hpos (fun c' l' => ?_) rfl rfl
    rw [holds_setLock]
    simp
  · refine .same (fun c' l' => ?_) rfl rfl
    rw [show s.setLock l {s.lock l with depth := (s.lock l).depth-1}=
      {s.setLock l {s.lock l with depth := (s.lock l).depth-1} with order := s.order} from rfl,
      holds_setLock]
    by_cases hl : l'=l
    · subst hl
      simp only [Holds,true_and,ne_eq,not_true_eq_false,false_and,or_false]
      constructor
      · rintro ⟨-,ho⟩
        exact ⟨hpos,ho⟩
      · rintro ⟨-,ho⟩
        exact ⟨by omega,ho⟩
    · simp [hl]
  · exact .same (fun _ _ => Iff.rfl) rfl rfl

theorem step_effect {s : Locks C L} (hs : s.Kept) (e : LockEvent C L) : Effect s e (s.step e) := by
  cases e with
  | acquire c l => exact acquire_effect hs c l true
  | tryAcquire c l => exact acquire_effect hs c l false
  | release c l => exact release_effect s c l

theorem step_gate {s : Locks C L} (hs : s.Kept) (e : LockEvent C L) (l : L) :
    ((s.step e).lock l).word=false ↔ ((s.step e).lock l).depth=0 := by
  have hset : ∀(l' : L) (k : Ylock C),(k.word=false ↔ k.depth=0) →
      (((s.setLock l' k).lock l).word=false ↔ ((s.setLock l' k).lock l).depth=0) := by
    intro l' k hk
    by_cases hl : l=l'
    · subst hl
      simpa [setLock] using hk
    · simpa [setLock,hl] using hs.gate l
  have hacquire : ∀c l' w,((s.acquire c l' w).lock l).word=false ↔
      ((s.acquire c l' w).lock l).depth=0 := by
    intro c l' w
    unfold acquire
    split_ifs with hown hword
    · refine hset l' _ ?_
      have hgate := hs.gate l'
      exact ⟨fun hf => absurd (hgate.mp hf) (by omega),fun hz => absurd hz (Nat.succ_ne_zero _)⟩
    · exact hset l' _ (by simp)
    · exact hs.gate l
  cases e with
  | acquire c l' => exact hacquire c l' true
  | tryAcquire c l' => exact hacquire c l' false
  | release c l' =>
    simp only [step,release]
    split_ifs with hpos hone
    · exact hset l' _ (by simp)
    · refine hset l' _ ?_
      have hgate := hs.gate l'
      exact ⟨fun hf => absurd (hgate.mp hf) (by omega),fun hz => absurd hz hone⟩
    · exact hs.gate l

theorem Kept.step {s : Locks C L} (hs : s.Kept) (e : LockEvent C L) : (s.step e).Kept := by
  have hgate := step_gate hs e
  cases step_effect hs e with
  | same hholds horder _ =>
    refine ⟨hgate,?_,?_,?_,?_⟩
    · rw [horder]
      exact hs.nodup
    · rw [horder]
      exact hs.short
    · intro c l hl
      rw [horder] at hl
      exact (hholds c l).mpr (hs.holds c l hl)
    · rw [horder]
      exact hs.bound
  | take c l w _ hfree hholds horder _ =>
    have hnot : ∀c',l∉s.order.held c' := fun c' hm => hfree c' (hs.holds c' l hm)
    have hheld := OrderTables.orderAcquired_held s.order l c w
    rw [← horder] at hheld
    have hmem : ∀c' x,x∈(s.step e).order.held c' → x=l ∧ c'=c ∨ x∈s.order.held c' := by
      intro c' x hx
      rw [hheld] at hx
      split_ifs at hx
      · by_cases hc : c'=c
        · subst hc
          rw [update_self,List.mem_append,List.mem_singleton] at hx
          rcases hx with hx | hx
          · exact .inr hx
          · exact .inl ⟨hx,rfl⟩
        · rw [update_of_ne hc] at hx
          exact .inr hx
      · exact .inr hx
    refine ⟨hgate,?_,?_,?_,?_⟩
    · intro c'
      rw [hheld]
      split_ifs
      · by_cases hc : c'=c
        · subst hc
          rw [update_self]
          exact (hs.nodup c').append (List.nodup_singleton l) (by simpa using hnot c')
        · rw [update_of_ne hc]
          exact hs.nodup c'
      · exact hs.nodup c'
    · intro c'
      rw [hheld]
      split_ifs with hroom
      · by_cases hc : c'=c
        · subst hc
          rw [update_self,List.length_append,List.length_singleton]
          exact hroom
        · rw [update_of_ne hc]
          exact hs.short c'
      · exact hs.short c'
    · intro c' x hx
      rw [hholds]
      rcases hmem c' x hx with ⟨rfl,rfl⟩ | hold
      · exact .inl ⟨rfl,rfl⟩
      · exact .inr ⟨fun h => hnot c' (h ▸ hold),hs.holds c' x hold⟩
    · rw [horder,OrderTables.orderAcquired,(OrderTables.push_tables ..).1]
      split_ifs
      · rw [OrderTables.fold_inversions _ _ _ hs.bound]
        exact Nat.mod_lt _ (Nat.two_pow_pos 32)
      · exact hs.bound
  | drop l o howner _ hholds horder _ =>
    refine ⟨hgate,?_,?_,?_,?_⟩
    · intro c
      rw [horder]
      exact (hs.nodup c).sublist (OrderTables.orderReleased_sublist ..)
    · intro c
      rw [horder]
      exact Nat.le_trans (OrderTables.orderReleased_sublist ..).length_le (hs.short c)
    · intro c x hx
      rw [horder,OrderTables.mem_orderReleased_held hs.nodup] at hx
      have hold := hs.holds c x hx.1
      refine (hholds c x).mpr ⟨fun heq => ?_,hold⟩
      subst heq
      exact hx.2 (howner.symm.trans hold.2) rfl
    · rw [horder]
      cases o <;> exact hs.bound

end Locks

end LugalOS.Lock
