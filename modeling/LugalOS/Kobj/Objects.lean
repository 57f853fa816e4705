import LugalOS.Kobj.Waiters
import LugalOS.Kobj.Handles

namespace LugalOS.Kobj

open Function (update)

structure Sem (n : Nat) where
  count : UInt32
  max : UInt32
  w : WList n
  deriving DecidableEq

structure Mutex (n : Nat) where
  recursive : Bool
  owner : Int
  depth : UInt32
  w : WList n
  deriving DecidableEq

/-- buf is the storage, an item to a place. -/
structure Queue (n : Nat) where
  len : Nat
  isz : Nat
  head : Nat
  count : Nat
  buf : Nat → Item
  rx : WList n
  tx : WList n

structure Evt (n : Nat) where
  bits : UInt32
  w : WList n
  deriving DecidableEq

abbrev Obj (n : Nat) : Kind → Type
  | .sem => Sem n
  | .mutex => Mutex n
  | .queue => Queue n
  | .event => Evt n

inductive Ko
  | ok
  | block
  | again
  | full
  | fail
  | timeout
  | deleted
  deriving DecidableEq,Repr

/-- What an operation returns, what it writes through the pointers it is given, and whom it
names to be woken. -/
structure Answer where
  ko : Ko := .ok
  handle : UInt32 := 0
  bits : UInt32 := 0
  item : Item := []
  wake : KWake := []
  deriving DecidableEq

structure Objects (n : Nat) where
  ws : Waiters n
  tab : (κ : Kind) → Nat → Slot (Obj n κ)

variable {n : Nat}

namespace Objects

def find (k : Objects n) (κ : Kind) (h : UInt32) : Option Nat := lookup (k.tab κ) κ h

def setSlot (k : Objects n) (κ : Kind) (i : Nat) (ws : Waiters n) (s : Slot (Obj n κ)) : Objects n :=
  ⟨ws,update k.tab κ (update (k.tab κ) i s)⟩

def setObj (k : Objects n) (κ : Kind) (i : Nat) (ws : Waiters n) (o : Obj n κ) : Objects n :=
  k.setSlot κ i ws {k.tab κ i with obj := o}

/-- LOOKUP, and then f on what it has found. -/
def on (k : Objects n) (κ : Kind) (h : UInt32) (fail : Answer)
    (f : Waiters n → Obj n κ → Answer×Waiters n×Obj n κ) : Answer×Objects n :=
  match k.find κ h with
  | none => (fail,k)
  | some i =>
    let r := f k.ws (k.tab κ i).obj
    (r.1,k.setObj κ i r.2.1 r.2.2)

def create (k : Objects n) (κ : Kind) (obj : Obj n κ) : Answer×Objects n :=
  let r := createIn (k.tab κ) κ obj
  ({handle := r.1},⟨k.ws,update k.tab κ r.2⟩)

/-- What the four deletes share: the waiters fail, and the slot is given up. -/
def delete (k : Objects n) (κ : Kind) (h : UInt32)
    (failAll : Waiters n → Obj n κ → Waiters n×Obj n κ×KWake) : Answer×Objects n :=
  match k.find κ h with
  | none => ({ko := .fail},k)
  | some i =>
    let r := failAll k.ws (k.tab κ i).obj
    ({wake := r.2.2},k.setSlot κ i r.1 ((k.tab κ i).release r.2.1))

/-- cancel_finish, and what kq_cancel does in its place; unlink takes w out of its list. -/
def cancel (k : Objects n) (κ : Kind) (h : UInt32) (w : Fin n)
    (unlink : Waiters n → Obj n κ → Waiters n×Obj n κ) : Ko×Objects n :=
  if (k.ws w).state=.grant then (.ok,k)
  else if (k.ws w).state=.failed then (.deleted,k)
  else match k.find κ h with
    | none => (.deleted,{k with ws := k.ws.setState w .failed})
    | some i =>
      let x := unlink k.ws (k.tab κ i).obj
      (.timeout,k.setObj κ i (x.1.setState w .idle) x.2)

end Objects

/-- wl_remove where what it returns does not matter. -/
def wlDrop (ws : Waiters n) (l : WList n) (w : Fin n) : Waiters n×WList n :=
  (wlRemove ws l w).getD (ws,l)

/-- The waiter w of the task who joins a list. -/
def enqueue (ws : Waiters n) (l : WList n) (w : Fin n) (who : Int) : Waiters n×WList n :=
  wlPush (update ws w {ws w with who := who}) l w

def ownerSlot (k : Objects n) (h : UInt32) : Option (Kind×Nat) :=
  match hIdx h with
  | none => none
  | some i =>
    ([Kind.sem,.mutex,.queue,.event].find? fun κ => decide (hType h=κ.type)).bind fun κ =>
      if i < κ.max ∧ (k.tab κ i).used ∧ (k.tab κ i).gen=hGen h then some (κ,i) else none

def kobjValid (k : Objects n) (h : UInt32) : Bool := (ownerSlot k h).isSome

def kobjSetOwner (k : Objects n) (h : UInt32) (owner : Nat) : Answer×Objects n :=
  match ownerSlot k h with
  | none => ({ko := .fail},k)
  | some (κ,i) => ({},k.setSlot κ i k.ws {k.tab κ i with owner := owner})

section Semaphores

def Sem.take (ws : Waiters n) (s : Sem n) (w : Option (Fin n)) (who : Int) :
    Answer×Waiters n×Sem n :=
  if s.count > 0 then ({},ws,{s with count := s.count-1})
  else match w with
    | none => ({ko := .again},ws,s)
    | some w =>
      let x := enqueue ws s.w w who
      ({ko := .block},x.1,{s with w := x.2})

def Sem.give (ws : Waiters n) (s : Sem n) : Answer×Waiters n×Sem n :=
  match wlPop ws s.w with
  | some (w,ws,l) => ({wake := kwAdd [] (ws w).who},ws.setState w .grant,{s with w := l})
  | none =>
    if s.count≥s.max then ({ko := .full},ws,s) else ({},ws,{s with count := s.count+1})

def Sem.failAll (ws : Waiters n) (s : Sem n) : Waiters n×Sem n×KWake :=
  let x := wlFailAll ws s.w []
  (x.1,{s with w := x.2.1},x.2.2)

def Sem.drop (w : Fin n) (ws : Waiters n) (s : Sem n) : Waiters n×Sem n :=
  let x := wlDrop ws s.w w
  (x.1,{s with w := x.2})

def ksemCreate (k : Objects n) (max init : UInt32) : Answer×Objects n :=
  if max=0 ∨ init > max then ({},k) else k.create .sem ⟨init,max,WList.empty⟩

def ksemTake (k : Objects n) (h : UInt32) (w : Option (Fin n)) (who : Int) : Answer×Objects n :=
  k.on .sem h {ko := .fail} fun ws s => Sem.take ws s w who

def ksemGive (k : Objects n) (h : UInt32) : Answer×Objects n := k.on .sem h {ko := .fail} Sem.give

def ksemCancel (k : Objects n) (h : UInt32) (w : Fin n) : Answer×Objects n :=
  let x := k.cancel .sem h w (Sem.drop w)
  ({ko := x.1},x.2)

def ksemDelete (k : Objects n) (h : UInt32) : Answer×Objects n := k.delete .sem h Sem.failAll

end Semaphores

section Mutexes

def Mutex.lock (ws : Waiters n) (m : Mutex n) (w : Option (Fin n)) (who : Int) :
    Answer×Waiters n×Mutex n :=
  if m.owner < 0 then ({},ws,{m with owner := who,depth := 1})
  else if m.owner=who then
    if !m.recursive then ({ko := .fail},ws,m) else ({},ws,{m with depth := m.depth+1})
  else match w with
    | none => ({ko := .again},ws,m)
    | some w =>
      let x := enqueue ws m.w w who
      ({ko := .block},x.1,{m with w := x.2})

def Mutex.unlock (ws : Waiters n) (m : Mutex n) (who : Int) : Answer×Waiters n×Mutex n :=
  if m.owner≠who then ({ko := .fail},ws,m)
  else if m.depth-1 > 0 then ({},ws,{m with depth := m.depth-1})
  else match wlPop ws m.w with
    | some (w,ws,l) => ({wake := kwAdd [] (ws w).who},ws.setState w .grant,
        {m with owner := (ws w).who,depth := 1,w := l})
    | none => ({},ws,{m with owner := -1,depth := m.depth-1})

def Mutex.failAll (ws : Waiters n) (m : Mutex n) : Waiters n×Mutex n×KWake :=
  let x := wlFailAll ws m.w []
  (x.1,{m with w := x.2.1},x.2.2)

def Mutex.drop (w : Fin n) (ws : Waiters n) (m : Mutex n) : Waiters n×Mutex n :=
  let x := wlDrop ws m.w w
  (x.1,{m with w := x.2})

def kmutexCreate (k : Objects n) (recursive : Bool) : Answer×Objects n :=
  k.create .mutex ⟨recursive,-1,0,WList.empty⟩

def kmutexLock (k : Objects n) (h : UInt32) (w : Option (Fin n)) (who : Int) : Answer×Objects n :=
  k.on .mutex h {ko := .fail} fun ws m => Mutex.lock ws m w who

def kmutexUnlock (k : Objects n) (h : UInt32) (who : Int) : Answer×Objects n :=
  k.on .mutex h {ko := .fail} fun ws m => Mutex.unlock ws m who

def kmutexCancel (k : Objects n) (h : UInt32) (w : Fin n) : Answer×Objects n :=
  let x := k.cancel .mutex h w (Mutex.drop w)
  ({ko := x.1},x.2)

def kmutexDelete (k : Objects n) (h : UInt32) : Answer×Objects n := k.delete .mutex h Mutex.failAll

end Mutexes

section Queues

def kqueueMaxLen : Nat := 256
def kqueueMaxItem : Nat := 64

def Queue.slot (q : Queue n) (logical : Nat) : Nat := (q.head+logical)%q.len

def Queue.push (q : Queue n) (item : Item) (front : Bool) : Queue n :=
  if front then
    let head := (q.head+q.len-1)%q.len
    {q with head := head,buf := update q.buf head item,count := q.count+1}
  else {q with buf := update q.buf (q.slot q.count) item,count := q.count+1}

def Queue.send (ws : Waiters n) (q : Queue n) (item : Item) (front : Bool) (w : Option (Fin n))
    (who : Int) : Answer×Waiters n×Queue n :=
  match wlPop ws q.rx with
  | some (r,ws,rx) => ({wake := kwAdd [] (ws r).who},
      update ws r {ws r with item := item,state := .grant},{q with rx := rx})
  | none =>
    if q.count < q.len then ({},ws,q.push item front)
    else match w with
      | none => ({ko := .full},ws,q)
      | some w =>
        let x := enqueue (update ws w {ws w with item := item,all := front}) q.tx w who
        ({ko := .block},x.1,{q with tx := x.2})

/-- item is what is at that pointer before. -/
def Queue.recv (ws : Waiters n) (q : Queue n) (item : Item) (w : Option (Fin n)) (who : Int) :
    Answer×Waiters n×Queue n :=
  if q.count > 0 then
    let got := q.buf (q.slot 0)
    let q := {q with head := (q.head+1)%q.len,count := q.count-1}
    match wlPop ws q.tx with
    | some (s,ws,tx) => ({item := got,wake := kwAdd [] (ws s).who},ws.setState s .grant,
        {q.push (ws s).item (ws s).all with tx := tx})
    | none => ({item := got},ws,q)
  else match w with
    | none => ({ko := .again,item := item},ws,q)
    | some w =>
      let x := enqueue (update ws w {ws w with item := item}) q.rx w who
      ({ko := .block,item := item},x.1,{q with rx := x.2})

def Queue.failAll (ws : Waiters n) (q : Queue n) : Waiters n×Queue n×KWake :=
  let x := wlFailAll ws q.rx []
  let y := wlFailAll x.1 q.tx x.2.2
  (y.1,{q with rx := x.2.1,tx := y.2.1},y.2.2)

/-- A waiter is on exactly one of the two lists. -/
def Queue.drop (w : Fin n) (ws : Waiters n) (q : Queue n) : Waiters n×Queue n :=
  match wlRemove ws q.rx w with
  | some x => (x.1,{q with rx := x.2})
  | none =>
    let x := wlDrop ws q.tx w
    (x.1,{q with tx := x.2})

def kqCreate (k : Objects n) (len isz : Nat) (storage : Option (Nat → Item)) : Answer×Objects n :=
  if len=0 ∨ len > kqueueMaxLen ∨ isz=0 ∨ isz > kqueueMaxItem then ({},k)
  else match storage with
    | none => ({},k)
    | some buf => k.create .queue ⟨len,isz,0,0,buf,WList.empty,WList.empty⟩

def kqSend (k : Objects n) (h : UInt32) (item : Item) (front : Bool) (w : Option (Fin n))
    (who : Int) : Answer×Objects n :=
  k.on .queue h {ko := .fail} fun ws q => Queue.send ws q item front w who

def kqRecv (k : Objects n) (h : UInt32) (item : Item) (w : Option (Fin n)) (who : Int) :
    Answer×Objects n :=
  k.on .queue h {ko := .fail,item := item} fun ws q => Queue.recv ws q item w who

def kqCancel (k : Objects n) (h : UInt32) (w : Fin n) : Answer×Objects n :=
  let x := k.cancel .queue h w (Queue.drop w)
  ({ko := x.1},x.2)

def kqDelete (k : Objects n) (h : UInt32) : Answer×Objects n := k.delete .queue h Queue.failAll

end Queues

section Events

def evSatisfied (bits want : UInt32) (all : Bool) : Bool :=
  if all then bits &&& want == want else bits &&& want != 0

/-- The loop of ev_scan, its variables prev and w; the number bounds its turns. -/
def evScanLoop : Nat → Waiters n → Evt n → KWake → Option (Fin n) → Option (Fin n) →
    Waiters n×Evt n×KWake
  | 0,ws,e,wk,_,_ => (ws,e,wk)
  | _+1,ws,e,wk,_,none => (ws,e,wk)
  | turns+1,ws,e,wk,prev,some w =>
    let next := (ws w).next
    if evSatisfied e.bits (ws w).want (ws w).all then
      let x := wlUnlink ws e.w prev w
      let ws := update x.1 w {x.1 w with got := e.bits}
      let bits := if (ws w).clear then e.bits &&& ~~~(ws w).want else e.bits
      evScanLoop turns (Waiters.setState ws w .grant) ⟨bits,x.2⟩ (kwAdd wk (ws w).who) prev next
    else evScanLoop turns ws e wk (some w) next

def evScan (ws : Waiters n) (e : Evt n) (wk : KWake) : Waiters n×Evt n×KWake :=
  evScanLoop (n+1) ws e wk none e.w.head

def Evt.set (ws : Waiters n) (e : Evt n) (bits : UInt32) : Answer×Waiters n×Evt n :=
  let x := evScan ws {e with bits := e.bits ||| bits} []
  ({bits := x.2.1.bits,wake := x.2.2},x.1,x.2.1)

def Evt.clear (ws : Waiters n) (e : Evt n) (bits : UInt32) : Answer×Waiters n×Evt n :=
  ({bits := e.bits},ws,{e with bits := e.bits &&& ~~~bits})

def Evt.wait (ws : Waiters n) (e : Evt n) (want : UInt32) (all clear : Bool)
    (w : Option (Fin n)) (who : Int) : Answer×Waiters n×Evt n :=
  if want=0 then ({ko := .fail},ws,e)
  else if evSatisfied e.bits want all then
    ({bits := e.bits},ws,if clear then {e with bits := e.bits &&& ~~~want} else e)
  else match w with
    | none => ({ko := .again,bits := e.bits},ws,e)
    | some w =>
      let x := enqueue (update ws w {ws w with want := want,all := all,clear := clear,got := 0})
        e.w w who
      ({ko := .block},x.1,{e with w := x.2})

def Evt.failAll (ws : Waiters n) (e : Evt n) : Waiters n×Evt n×KWake :=
  let x := wlFailAll ws e.w []
  (x.1,{e with w := x.2.1},x.2.2)

def Evt.drop (w : Fin n) (ws : Waiters n) (e : Evt n) : Waiters n×Evt n :=
  let x := wlDrop ws e.w w
  (x.1,{e with w := x.2})

def kevCreate (k : Objects n) : Answer×Objects n := k.create .event ⟨0,WList.empty⟩

def kevSet (k : Objects n) (h bits : UInt32) : Answer×Objects n :=
  k.on .event h {} fun ws e => Evt.set ws e bits

def kevClear (k : Objects n) (h bits : UInt32) : Answer×Objects n :=
  k.on .event h {} fun ws e => Evt.clear ws e bits

def kevWait (k : Objects n) (h want : UInt32) (all clear : Bool) (w : Option (Fin n))
    (who : Int) : Answer×Objects n :=
  k.on .event h {ko := .fail} fun ws e => Evt.wait ws e want all clear w who

def kevCancel (k : Objects n) (h : UInt32) (w : Fin n) : Answer×Objects n :=
  let x := k.cancel .event h w (Evt.drop w)
  let out := match x.1,k.find .event h with
    | .ok,_ => (x.2.ws w).got
    | .timeout,some i => (x.2.tab .event i).obj.bits
    | _,_ => 0
  ({ko := x.1,bits := out},x.2)

def kevDelete (k : Objects n) (h : UInt32) : Answer×Objects n := k.delete .event h Evt.failAll

end Events

inductive Op (n : Nat)
  | semCreate (max init : UInt32)
  | semTake (h : UInt32) (w : Option (Fin n)) (who : Int)
  | semGive (h : UInt32)
  | mutexCreate (recursive : Bool)
  | mutexLock (h : UInt32) (w : Option (Fin n)) (who : Int)
  | mutexUnlock (h : UInt32) (who : Int)
  | qCreate (len isz : Nat) (storage : Option (Nat → Item))
  | qSend (h : UInt32) (item : Item) (front : Bool) (w : Option (Fin n)) (who : Int)
  | qRecv (h : UInt32) (item : Item) (w : Option (Fin n)) (who : Int)
  | evCreate
  | evSet (h bits : UInt32)
  | evClear (h bits : UInt32)
  | evWait (h want : UInt32) (all clear : Bool) (w : Option (Fin n)) (who : Int)
  | cancel (κ : Kind) (h : UInt32) (w : Fin n)
  | delete (κ : Kind) (h : UInt32)
  | setOwner (h : UInt32) (owner : Nat)

def exec (k : Objects n) : Op n → Answer×Objects n
  | .semCreate max init => ksemCreate k max init
  | .semTake h w who => ksemTake k h w who
  | .semGive h => ksemGive k h
  | .mutexCreate recursive => kmutexCreate k recursive
  | .mutexLock h w who => kmutexLock k h w who
  | .mutexUnlock h who => kmutexUnlock k h who
  | .qCreate len isz storage => kqCreate k len isz storage
  | .qSend h item front w who => kqSend k h item front w who
  | .qRecv h item w who => kqRecv k h item w who
  | .evCreate => kevCreate k
  | .evSet h bits => kevSet k h bits
  | .evClear h bits => kevClear k h bits
  | .evWait h want all clear w who => kevWait k h want all clear w who
  | .cancel .sem h w => ksemCancel k h w
  | .cancel .mutex h w => kmutexCancel k h w
  | .cancel .queue h w => kqCancel k h w
  | .cancel .event h w => kevCancel k h w
  | .delete .sem h => ksemDelete k h
  | .delete .mutex h => kmutexDelete k h
  | .delete .queue h => kqDelete k h
  | .delete .event h => kevDelete k h
  | .setOwner h owner => kobjSetOwner k h owner

end LugalOS.Kobj
