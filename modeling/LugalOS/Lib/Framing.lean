import LugalOS.Lib.CString

namespace LugalOS.Framing

open CString

/-- What the first bytes of a frame say: not enough of them yet, no frame, or a frame's length. -/
inductive Head where
  | short
  | bad
  | frame (total : Nat)
deriving DecidableEq

/-- A way to read heads: more bytes do not change what it has once said, and it says so within the
frame. -/
structure Format where
  head : Bytes → Head
  stable : ∀ s d,head s≠.short → head (s++d)=head s
  pos : ∀ {s n},head s=.frame n → 0<n
  inside : ∀ {s n},head s=.frame n → n ≤ s.length → head (s.take n)=.frame n

namespace Format

variable (F : Format)

/-- The whole frames of a stream, and what is left after them. -/
def split (s : Bytes) : List Bytes×Bytes :=
  match _h : F.head s with
  | .frame n =>
    if _hs : s.length<n then ([],s)
    else
      let r := split (s.drop n)
      (s.take n::r.1,r.2)
  | _ => ([],s)
termination_by s.length
decreasing_by
  have := F.pos _h
  rw [List.length_drop]
  omega

def Waits (s : Bytes) : Prop := ∀n,F.head s=.frame n → s.length<n

theorem split_of_waits {s : Bytes} (h : F.Waits s) : F.split s=([],s) := by
  rw [split]
  split
  · rw [dif_pos (h _ ‹_›)]
  · rfl

theorem split_of_frame {s : Bytes} {n : Nat} (h : F.head s=.frame n) (hn : n ≤ s.length) :
    F.split s=(s.take n::(F.split (s.drop n)).1,(F.split (s.drop n)).2) := by
  rw [split]
  split
  · rename_i m hm
    obtain rfl : m=n := by
      rw [h] at hm
      exact (Head.frame.inj hm).symm
    rw [dif_neg (by omega)]
  · rename_i hno
    exact absurd h (hno n)

theorem waits_nil : F.Waits [] := fun _ hn => F.pos hn

theorem waits_or_frame (s : Bytes) : F.Waits s ∨ ∃n,F.head s=.frame n ∧ n ≤ s.length := by
  by_cases h : ∃n,F.head s=.frame n ∧ n ≤ s.length
  · exact .inr h
  · exact .inl fun n hn => Nat.lt_of_not_le fun hle => h ⟨n,hn,hle⟩

theorem drop_shorter {s : Bytes} {n : Nat} (h : F.head s=.frame n) (hn : n ≤ s.length) :
    (s.drop n).length < s.length := by
  have := F.pos h
  rw [List.length_drop]
  omega

theorem frames_induction {P : Bytes → Prop} (waits : ∀s,F.Waits s → P s)
    (frame : ∀ s n,F.head s=.frame n → n ≤ s.length → P (s.drop n) → P s) (s : Bytes) : P s := by
  induction hl : s.length using Nat.strong_induction_on generalizing s with
  | _ l ih =>
    rcases F.waits_or_frame s with hw | ⟨n,hn,hle⟩
    · exact waits s hw
    · exact frame s n hn hle (ih _ (hl ▸ F.drop_shorter hn hle) _ rfl)

theorem split_rest_waits (s : Bytes) : F.Waits (F.split s).2 := by
  induction s using F.frames_induction with
  | waits s hw => rwa [F.split_of_waits hw]
  | frame s n hn hle ih => rwa [F.split_of_frame hn hle]

theorem split_flatten (s : Bytes) : (F.split s).1.flatten++(F.split s).2=s := by
  induction s using F.frames_induction with
  | waits s hw => rw [F.split_of_waits hw,List.flatten_nil,List.nil_append]
  | frame s n hn hle ih =>
    rw [F.split_of_frame hn hle,List.flatten_cons,List.append_assoc,ih,List.take_append_drop]

theorem split_frame {s p : Bytes} (hp : p∈(F.split s).1) : F.head p=.frame p.length := by
  induction s using F.frames_induction with
  | waits s hw =>
    rw [F.split_of_waits hw] at hp
    exact absurd hp List.not_mem_nil
  | frame s n hn hle ih =>
    rw [F.split_of_frame hn hle,List.mem_cons] at hp
    rcases hp with rfl | hp
    · rw [List.length_take,Nat.min_eq_left hle]
      exact F.inside hn hle
    · exact ih hp

theorem split_frames {l : List Bytes} (h : ∀p∈l,F.head p=.frame p.length) :
    F.split l.flatten=(l,[]) := by
  induction l with
  | nil => exact F.split_of_waits F.waits_nil
  | cons p l ih =>
    have hp := h p List.mem_cons_self
    have hs : F.head (p++l.flatten)=.frame p.length :=
      (F.stable p _ (by rw [hp]; exact Head.noConfusion)).trans hp
    rw [List.flatten_cons,F.split_of_frame hs (by rw [List.length_append]; omega),List.take_left,
      List.drop_left,ih fun q hq => h q (List.mem_cons_of_mem _ hq)]

theorem split_append (s d : Bytes) : F.split (s++d)=
    ((F.split s).1++(F.split ((F.split s).2++d)).1,(F.split ((F.split s).2++d)).2) := by
  induction s using F.frames_induction with
  | waits s hw => rw [F.split_of_waits hw,List.nil_append]
  | frame s n hn hle ih =>
    have hs : F.head (s++d)=.frame n := (F.stable s d (by rw [hn]; exact Head.noConfusion)).trans hn
    rw [F.split_of_frame hs (by rw [List.length_append]; omega),List.drop_append_of_le_length hle,
      List.take_append_of_le_length hle,ih,F.split_of_frame hn hle]
    rfl

end Format

end LugalOS.Framing

namespace LugalOS.Slip

def endByte : UInt8 := 0xC0
def escByte : UInt8 := 0xDB
def escEnd : UInt8 := 0xDC
def escEsc : UInt8 := 0xDD

/-- What one byte of a frame becomes on the wire. -/
def stuff (c : UInt8) : List UInt8 :=
  if c=endByte then [escByte,escEnd] else if c=escByte then [escByte,escEsc] else [c]

def escape (bs : List UInt8) : List UInt8 := bs.flatMap stuff

@[simp] theorem escape_nil : escape []=[] := rfl

@[simp] theorem escape_cons (c : UInt8) (bs : List UInt8) : escape (c::bs)=stuff c++escape bs := rfl

@[simp] theorem escape_append (bs cs : List UInt8) : escape (bs++cs)=escape bs++escape cs := by
  simp [escape]

end LugalOS.Slip
