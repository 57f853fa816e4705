import LugalOS.Lib.Run
import LugalOS.Der.Elements

namespace LugalOS.Der

open CString Memory Forest Run

inductive Op
  | start (tag : UInt8)
  | finish
  | put (tag : UInt8) (val : Bytes)
  | putUint (be : Bytes)
  | putSmall (v : UInt32)
  | putRaw (f : Forest)

def Op.exec (w : Writer) : Op → Writer
  | .start tag => derBegin w tag
  | .finish => derEnd w
  | .put tag val => derPut w tag val
  | .putUint be => derPutUint w be
  | .putSmall v => derPutSmall w v
  | .putRaw f => derPutRaw w f.der

/-- The tree as far as it is built: the open elements with what they have inside, the innermost
first, and the elements outside of all; and whether a length or the nesting was too much. -/
structure Parts where
  stack : List (UInt8×Forest)
  done : Forest
  tooLong : Bool
  tooDeep : Bool

namespace Parts

def add (p : Parts) (f : Forest) : Parts :=
  match p.stack with
  | [] => {p with done := p.done.append f}
  | (tag,inner)::st => {p with stack := (tag,inner.append f)::st}

def prim (p : Parts) (tag : UInt8) (val : Bytes) : Parts :=
  {p.add (.prim tag val .nil) with tooLong := p.tooLong || 65535<val.length}

def play (p : Parts) : Op → Parts
  | .start tag =>
    {p with stack := (tag,.nil)::p.stack,tooDeep := p.tooDeep || derMaxDepth≤p.stack.length}
  | .finish =>
    match p.stack with
    | [] => p
    | (tag,inner)::st =>
      {add {p with stack := st} (.node tag inner .nil) with
        tooLong := p.tooLong || 65535 < inner.der.length}
  | .put tag val => p.prim tag val
  | .putUint be => p.prim derInteger (uintContent be)
  | .putSmall v => p.prim derInteger (uintContent (bigEndian v))
  | .putRaw f => p.add f

end Parts

/-- What is in the buffer while elements are open. -/
def openDer : List (UInt8×Forest) → Forest → Bytes
  | [],done => done.der
  | (tag,inner)::st,done => openDer st done++([tag,0]++inner.der)

def openPos : List (UInt8×Forest) → Forest → List Nat
  | [],_ => []
  | (_,_)::st,done => ((openDer st done).length+1)::openPos st done

def Parts.der (p : Parts) : Bytes := openDer p.stack p.done

/-- Properly nested calls with low tag numbers; what is put raw is DER that can be read. -/
def Op.Valid (p : Parts) : Op → Prop
  | .start tag => lowTag tag
  | .finish => p.stack≠[]
  | .put tag _ => lowTag tag
  | .putUint _ => True
  | .putSmall _ => True
  | .putRaw f => f.Readable

/-- The sums that a call forms have 32 bits. -/
def Op.Sums (w : Writer) : Op → Prop
  | .start _ => True
  | .finish => ∀at' opens,w.opens=at'::opens → w.len+lenExtra (w.len-(at'+1))<2^32
  | .put _ val => Room w val.length 0
  | .putUint be => Room w (uintContent be).length (if needsPad (stripZeros be) then 1 else 0)
  | .putSmall v =>
    Room w (uintContent (bigEndian v)).length (if needsPad (stripZeros (bigEndian v)) then 1 else 0)
  | .putRaw f => w.len+f.der.length<2^32

structure Sys where
  w : Writer
  parts : Parts

def Sys.init (buf : Bytes) (cap : Nat) : Sys := ⟨derWriterInit buf cap,⟨[],.nil,false,false⟩⟩

def Sys.play (s : Sys) (op : Op) : Sys := ⟨op.exec s.w,s.parts.play op⟩

def Step (s : Sys) (op : Op) (s' : Sys) : Prop := op.Valid s.parts ∧ s'=s.play op

def Admitted (s : Sys) (op : Op) : Prop := s.w.err=false → op.Sums s.w

/-- The buffer keeps its size; once all elements are closed, the tree is read back from it, or err
says that a length, the nesting or the size was too much. -/
structure Written (s : Sys) : Prop where
  size : s.w.buf.length=s.w.cap ∧ s.w.len ≤ s.w.cap
  back : s.parts.stack=[] → s.w.err=false →
    s.parts.done.read nextCall s.w.out=some (s.parts.done,[]) ∧
      s.parts.done.read expectCall s.w.out=some (s.parts.done,[])
  err : s.parts.stack=[] → (s.w.err=true ↔
    s.parts.tooLong=true ∨ s.parts.tooDeep=true ∨ s.w.cap < s.parts.done.der.length)

/-- All elements so far can be read. -/
structure Parts.Readable (p : Parts) : Prop where
  done : p.done.Readable
  stack : ∀e∈p.stack,lowTag e.1 ∧ e.2.Readable

structure Fine (w : Writer) (p : Parts) : Prop where
  out : w.out=p.der
  len : w.len=p.der.length
  opens : w.opens=openPos p.stack p.done
  long : p.tooLong=false
  deep : p.tooDeep=false
  readable : p.Readable

structure Inv (s : Sys) : Prop where
  inside : s.w.Inside
  fine : s.w.err=false → Fine s.w s.parts
  bad : s.w.err=true → s.parts.tooLong=true ∨ s.parts.tooDeep=true ∨ s.w.cap < s.parts.der.length

section Parts

variable {p : Parts} {f : Forest}

theorem Parts.add_stack (p : Parts) (f : Forest) :
    (p.add f).der=p.der++f.der ∧ openPos (p.add f).stack (p.add f).done=openPos p.stack p.done ∧
      (p.add f).tooLong=p.tooLong ∧ (p.add f).tooDeep=p.tooDeep := by
  obtain ⟨stack,done,tl,td⟩ := p
  cases stack with
  | nil => exact ⟨der_append _ _,rfl,rfl,rfl⟩
  | cons e st =>
    obtain ⟨tag,inner⟩ := e
    refine ⟨?_,rfl,rfl,rfl⟩
    simp only [Parts.der,Parts.add,openDer,der_append,List.append_assoc]

theorem Parts.Readable.add (h : p.Readable) (hf : f.Readable) : (p.add f).Readable := by
  obtain ⟨stack,done,tl,td⟩ := p
  cases stack with
  | nil => exact ⟨readable_append h.done hf,fun e he => by cases he⟩
  | cons e st =>
    refine ⟨h.done,fun e' he => ?_⟩
    have h0 := h.stack e List.mem_cons_self
    rcases List.mem_cons.1 he with rfl | he
    · exact ⟨h0.1,readable_append h0.2 hf⟩
    · exact h.stack e' (List.mem_cons_of_mem _ he)

theorem Parts.play_mono (p : Parts) (op : Op) :
    (p.tooLong=true → (p.play op).tooLong=true) ∧ (p.tooDeep=true → (p.play op).tooDeep=true) ∧
      p.der.length≤(p.play op).der.length := by
  have hadd : ∀f : Forest,p.der.length≤(p.add f).der.length := fun f => by
    rw [(p.add_stack f).1,List.length_append]; omega
  have hprim : ∀tag val,(p.tooLong=true → (p.prim tag val).tooLong=true) ∧
      (p.tooDeep=true → (p.prim tag val).tooDeep=true) ∧
        p.der.length≤(p.prim tag val).der.length := fun tag val =>
    ⟨fun h => by simp [prim,h],fun h => (p.add_stack _).2.2.2.trans h,hadd _⟩
  cases op with
  | start tag =>
    refine ⟨fun h => h,fun h => by simp [play,h],?_⟩
    simp only [der,play,openDer,List.length_append]
    omega
  | finish =>
    obtain ⟨stack,done,tl,td⟩ := p
    cases stack with
    | nil => exact ⟨fun h => h,fun h => h,Nat.le_refl _⟩
    | cons e st =>
      obtain ⟨tag,inner⟩ := e
      have hst := Parts.add_stack ⟨st,done,tl,td⟩ (.node tag inner .nil)
      refine ⟨fun h => ?_,fun h => hst.2.2.2.trans h,?_⟩
      · dsimp only at h
        simp [play,h]
      · have hd := congrArg List.length hst.1
        have hpos := lenBytes_length_pos inner.der.length
        change _≤(Parts.add ⟨st,done,tl,td⟩ (.node tag inner .nil)).der.length
        rw [hd]
        simp only [der,openDer,Forest.der,element,List.length_append,List.length_cons,
          List.length_nil]
        omega
  | put tag val | putUint be | putSmall v => exact hprim _ _
  | putRaw f =>
    exact ⟨fun h => (p.add_stack f).2.2.1.trans h,fun h => (p.add_stack f).2.2.2.trans h,hadd f⟩

end Parts

end LugalOS.Der
