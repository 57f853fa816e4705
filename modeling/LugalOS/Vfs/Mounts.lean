import Mathlib.Data.List.TakeWhile
import LugalOS.Lib.CString
import LugalOS.Lib.Holders
import LugalOS.Lib.Run

namespace LugalOS.Vfs

open CString
open Function (update)

inductive MountKind
  | fat32 | proc | dev | srv | remote9p
deriving DecidableEq

/-- An entry of the mount table; a session is named by its number in the order of their opening. -/
structure Mount where
  inUse : Bool
  name : Bytes
  kind : MountKind
  remote : Option Nat
  users : UInt16
  dying : Bool
  ready : Bool
deriving DecidableEq

def Mount.zero : Mount := ⟨false,[],.fat32,none,0,false,false⟩

/-- In use, and not dying. -/
def Mount.live (e : Mount) : Bool := e.inUse && !e.dying

abbrev Slot := Fin 10
abbrev Table := Slot → Mount

def nameSize : Nat := 16

/-- The first entry that satisfies p. -/
def firstEntry (t : Table) (p : Mount → Bool) : Option Slot :=
  (List.finRange 10).find? fun i => p (t i)

theorem firstEntry_some {t : Table} {p : Mount → Bool} {i : Slot} (h : firstEntry t p=some i) :
    p (t i)=true := by
  rw [firstEntry] at h
  simpa using List.find?_some h

theorem firstEntry_none {t : Table} {p : Mount → Bool} (h : firstEntry t p=none) (i : Slot) :
    p (t i)=false := by
  rw [firstEntry,List.find?_eq_none] at h
  simpa using h i (List.mem_finRange i)

def liveNamed (t : Table) (name : Bytes) : Option Slot :=
  firstEntry t fun e => e.live && e.name==name

theorem liveNamed_some {t : Table} {name : Bytes} {i : Slot} (h : liveNamed t name=some i) :
    (t i).live ∧ (t i).name=name := by
  simpa using firstEntry_some h

theorem liveNamed_none {t : Table} {name : Bytes} (h : liveNamed t name=none) (i : Slot)
    (hl : (t i).live) : (t i).name≠name := by
  simpa [hl] using firstEntry_none h i

def mountAlloc (t : Table) (name : Bytes) (ready : Bool) : Option (Slot×Table) :=
  if name=[] ∨ nameSize≤name.length then none
  else if (liveNamed t name).isSome then none
  else (firstEntry t fun e => !e.inUse).map fun i =>
    (i,update t i {Mount.zero with inUse := true, name, ready})

def mountReady (t : Table) (e : Slot) : Table := update t e {t e with ready := true}

def mountAbandon (t : Table) (e : Slot) : Table := update t e Mount.zero

/-- The entry with one reference less. -/
def Mount.release (e : Mount) : Mount := if e.users=0 then e else {e with users := e.users-1}

/-- The session to close, and the table that is left. -/
def mountPut (t : Table) (m : Slot) : Option Nat×Table :=
  let e := (t m).release
  if e.dying ∧ e.users=0 then (e.remote,update t m Mount.zero) else (none,update t m e)

/-- none: the volume is in use. -/
def mountQuiesce (t : Table) (name : Bytes) (own : UInt16) : Option (Option Slot×Table) :=
  match liveNamed t name with
  | none => some (none,t)
  | some i =>
    if own < (t i).users then none else some (some i,update t i {t i with ready := false})

/-- What mount_get answers. -/
structure Found where
  mount : Option Slot
  relPath : Option Bytes
  isRoot : Bool
deriving DecidableEq

def slash : UInt8 := 47

def Mount.visible (e : Mount) (name : Bytes) : Bool :=
  e.inUse && e.ready && !e.dying && e.name==name

def mountGet (t : Table) (path : Bytes) : Found×Table :=
  let p := path.dropWhile (·==slash)
  if p=[] then (⟨none,some [],true⟩,t)
  else
    let comp := p.takeWhile (·!=slash)
    if nameSize≤comp.length then (⟨none,none,false⟩,t)
    else match firstEntry t (·.visible comp) with
      | none => (⟨none,none,false⟩,t)
      | some m =>
        (⟨some m,some (p.drop (comp.length+1)),false⟩,update t m {t m with users := (t m).users+1})

/-- vfs_unmount as far as its mount_put. -/
def unmountMark (t : Table) (name : Bytes) : Option (Slot×Table) :=
  (firstEntry t fun e => e.visible name && e.kind==.remote9p).map fun m =>
    (m,update t m {t m with dying := true, users := (t m).users+1})

/-- A mount that mount_table_init makes. -/
def mountAdd (name : Bytes) (kind : MountKind) (t : Table) : Table :=
  match mountAlloc t name true with
  | none => t
  | some (e,t) => update t e {t e with kind}

def ram0 : Bytes := [114,97,109,48]

/-- The names and kinds of mount_table_init. -/
def builtins : List (Bytes×MountKind) :=
  [([102,108,97,115,104,48],.fat32),([115,100,48],.fat32),(ram0,.fat32),([112,114,111,99],.proc),
    ([100,101,118],.dev),([115,114,118],.srv)]

def mountTableInit : Table :=
  builtins.foldl (fun t b => mountAdd b.1 b.2 t) fun _ => Mount.zero

theorem mountAlloc_some {t t' : Table} {name : Bytes} {ready : Bool} {e : Slot}
    (h : mountAlloc t name ready=some (e,t')) :
    (t e).inUse=false ∧ (∀i,(t i).live → (t i).name≠name) ∧
      t'=update t e {Mount.zero with inUse := true, name, ready} := by
  rw [mountAlloc] at h
  split_ifs at h with h1 h2
  obtain ⟨i,hi,he⟩ := Option.map_eq_some_iff.1 h
  cases he
  have hn : liveNamed t name=none := by simpa using h2
  exact ⟨by simpa using firstEntry_some hi,liveNamed_none hn,rfl⟩

theorem mountQuiesce_some {t t' : Table} {name : Bytes} {own : UInt16} {q : Option Slot}
    (h : mountQuiesce t name own=some (q,t')) : q=liveNamed t name ∧
      ∀i,t' i={t i with ready := (t i).ready && q≠some i} := by
  rw [mountQuiesce] at h
  cases hl : liveNamed t name with
  | none =>
    rw [hl] at h
    cases h
    exact ⟨rfl,fun i => by simp⟩
  | some j =>
    rw [hl] at h
    simp only at h
    split_ifs at h with hu
    cases h
    refine ⟨rfl,fun i => ?_⟩
    by_cases hij : i=j
    · subst hij; simp
    · simp [Function.update_of_ne hij,Ne.symm hij]

theorem mountGet_some {t : Table} {path : Bytes} {m : Slot}
    (h : (mountGet t path).1.mount=some m) : (t m).inUse ∧ (t m).ready ∧ (t m).dying=false ∧
      (mountGet t path).2=update t m {t m with users := (t m).users+1} := by
  rw [mountGet] at h ⊢
  simp only at h ⊢
  split_ifs at h ⊢ with h1 h2
  cases hf : firstEntry t (·.visible ((path.dropWhile (·==slash)).takeWhile (·!=slash))) with
  | none => rw [hf] at h; cases h
  | some i =>
    rw [hf] at h
    cases h
    have hv := firstEntry_some hf
    simp only [Mount.visible,Bool.and_eq_true,Bool.not_eq_true'] at hv
    exact ⟨hv.1.1.1,hv.1.1.2,hv.1.2,rfl⟩

theorem mountGet_none {t : Table} {path : Bytes} (h : (mountGet t path).1.mount=none) :
    (mountGet t path).2=t := by
  rw [mountGet] at h ⊢
  simp only at h ⊢
  split_ifs at h ⊢ with h1 h2
  · rfl
  · rfl
  cases hf : firstEntry t (·.visible ((path.dropWhile (·==slash)).takeWhile (·!=slash))) with
  | none => rfl
  | some i => rw [hf] at h; cases h

theorem unmountMark_some {t t' : Table} {name : Bytes} {m : Slot}
    (h : unmountMark t name=some (m,t')) : (t m).inUse ∧ (t m).ready ∧ (t m).dying=false ∧
      (t m).kind=.remote9p ∧ t'=update t m {t m with dying := true, users := (t m).users+1} := by
  obtain ⟨i,hi,he⟩ := Option.map_eq_some_iff.1 h
  cases he
  have hv := firstEntry_some hi
  simp only [Mount.visible,Bool.and_eq_true,Bool.not_eq_true',beq_iff_eq] at hv
  exact ⟨hv.1.1.1.1,hv.1.1.1.2,hv.1.1.2,hv.2,rfl⟩

theorem users_sub_eq_zero {u : UInt16} : u-1=0 ↔ u=1 := by
  constructor
  · intro h0
    rw [← UInt16.sub_add_cancel u 1,h0]
    rfl
  · rintro rfl
    rfl

theorem mountPut_cases {t : Table} {m : Slot} (h : (t m).users≠0) :
    (t m).dying ∧ (t m).users=1 ∧ mountPut t m=((t m).remote,update t m Mount.zero) ∨
      ¬((t m).dying ∧ (t m).users=1) ∧
        mountPut t m=(none,update t m {t m with users := (t m).users-1}) := by
  have hr : (t m).release={t m with users := (t m).users-1} := by rw [Mount.release,if_neg h]
  rw [mountPut]
  simp only [hr,users_sub_eq_zero]
  split_ifs with hc
  · exact .inl ⟨hc.1,hc.2,rfl⟩
  · exact .inr ⟨hc,rfl⟩

theorem mountTableInit_spec : (∀i : Slot,6 ≤ i.val → mountTableInit i=Mount.zero) ∧
    (∀i : Slot,i.val < 6 → (mountTableInit i).live ∧ (mountTableInit i).ready ∧
      (mountTableInit i).kind≠.remote9p ∧ (mountTableInit i).users=0) ∧
    (∀i,(mountTableInit i).remote=none) ∧
    (∀i j : Slot,(mountTableInit i).live → (mountTableInit j).live →
      (mountTableInit i).name=(mountTableInit j).name → i=j) ∧ (mountTableInit 2).name=ram0 := by
  decide +kernel

open Run

/-- How far a call has come. A task is outside between two calls; an open handle is a call that
stays inside from its vfs_open to its vfs_close. -/
inductive Place
  | outside
  | inside (m : Slot)
  | opening (e : Slot)
  | filling (e : Slot) (remote : Nat)
  | linking (e : Slot) (remote : Nat)
  | readying (e : Slot)
  | unmounting (m : Slot)
  | closing (remote : Nat)
  | formatting (m : Slot) (q : Option Slot)
  | replacing (q : Option Slot)
deriving DecidableEq

/-- The reference that the call has. -/
def Place.ref : Place → Option Slot
  | .inside m | .unmounting m | .formatting m _ => some m
  | _ => none

/-- The entry that the call is filling in. -/
def Place.mounting : Place → Option Slot
  | .opening e | .filling e _ | .linking e _ | .readying e => some e
  | _ => none

/-- The session that only the call knows. -/
def Place.session : Place → Option Nat
  | .filling _ r | .linking _ r | .closing r => some r
  | _ => none

/-- opened counts the sessions there have been; closed has each close, the latest first. -/
structure State (n : Nat) where
  table : Table
  place : Fin n → Place
  opened : Nat
  closed : List Nat

variable {n : Nat}

def State.init (n : Nat) : State n := ⟨mountTableInit,fun _ => .outside,0,[]⟩

inductive Act
  | get (path : Bytes) | put | close
  | mount (name : Bytes) | refused | opened | setKind | setRemote | ready
  | unmount (name : Bytes)
  | format | formatted
  | replace | replaced
deriving DecidableEq

/-- A caller's next action. -/
structure Event (n : Nat) where
  who : Fin n
  act : Act
deriving DecidableEq

def State.set (s : State n) (p : Fin n) (w : Place) (t : Table) : State n :=
  {s with table := t, place := update s.place p w}

/-- mount_put, and the close of the session that the last one finds. -/
def put (s : State n) (p : Fin n) (m : Slot) : State n :=
  match mountPut s.table m with
  | (none,t) => s.set p .outside t
  | (some r,t) => s.set p (.closing r) t

/-- mount_ready, where there is an entry to give back. -/
def giveBack (t : Table) : Option Slot → Table
  | none => t
  | some q => mountReady t q

/-- What a caller outside can begin. -/
def enter (s : State n) (p : Fin n) : Act → Option (State n)
  | .get path =>
    let r := mountGet s.table path
    match r.1.mount with
    | some m => some (s.set p (.inside m) r.2)
    | none => some (s.set p .outside r.2)
  | .mount name =>
    match mountAlloc s.table name false with
    | some (e,t) => some (s.set p (.opening e) t)
    | none => some s
  | .unmount name =>
    match unmountMark s.table name with
    | some (m,t) => some (s.set p (.unmounting m) t)
    | none => some s
  | .replace =>
    match mountQuiesce s.table ram0 0 with
    | some (q,t) => some (s.set p (.replacing q) t)
    | none => some s
  | _ => none

/-- One locked section, or one store to an entry that is being filled in. -/
def step (e : Event n) (s : State n) : Option (State n) :=
  let t := s.table
  match s.place e.who,e.act with
  | .outside,a => enter s e.who a
  | .inside m,.put => some (put s e.who m)
  | .unmounting m,.put => some (put s e.who m)
  | .closing r,.close => some {s.set e.who .outside t with closed := r::s.closed}
  | .opening m,.refused => some (s.set e.who .outside (mountAbandon t m))
  | .opening m,.opened => some {s.set e.who (.filling m s.opened) t with opened := s.opened+1}
  | .filling m r,.setKind =>
    some (s.set e.who (.linking m r) (update t m {t m with kind := .remote9p}))
  | .linking m r,.setRemote =>
    some (s.set e.who (.readying m) (update t m {t m with remote := some r}))
  | .readying m,.ready => some (s.set e.who .outside (mountReady t m))
  | .inside m,.format =>
    match mountQuiesce t (t m).name 1 with
    | some (q,t) => some (s.set e.who (.formatting m q) t)
    | none => some s
  | .formatting m q,.formatted => some (s.set e.who (.inside m) (giveBack t q))
  | .replacing q,.replaced => some (s.set e.who .outside (giveBack t q))
  | _,_ => none

/-- How many callers have a reference to an entry. -/
def references (s : State n) (m : Slot) : Nat := Holders.count (fun p => (s.place p).ref) m

/-- A format that withdraws an entry withdraws the one it is on, not another one of that name. -/
def Orderly (s : State n) (e : Event n) : Prop :=
  e.act=.format → ∀m,s.place e.who=.inside m → ∀q,liveNamed s.table (s.table m).name=some q → q=m

def Step (s : State n) (e : Event n) (s' : State n) : Prop := Orderly s e ∧ step e s=some s'

end LugalOS.Vfs
