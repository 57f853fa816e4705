import Mathlib.Algebra.Order.BigOperators.Group.List
import Mathlib.Algebra.Order.Ring.Nat

namespace LugalOS.CString

/-- A C string without its terminator: the bytes before the first NUL. -/
abbrev Bytes := List UInt8

def ofString (s : String) : Bytes := s.toList.map fun c => c.toNat.toUInt8

def slash : UInt8 := 47

/-- `strncpy(dst,src,n-1); dst[n-1]=0` into a buffer of n bytes. -/
def copyInto (n : Nat) (s : Bytes) : Bytes := s.take (n-1)

/-- `strncmp(a,b,n)==0` on terminated strings. -/
def strncmpEq (a b : Bytes) (n : Nat) : Bool := a.take n==b.take n

/-- A string held in a fixed buffer of n bytes, terminator included. -/
structure Buf (n : Nat) where
  bytes : Bytes
  short : bytes.length<n
  noNul : 0∉bytes

instance (n : Nat) : DecidableEq (Buf n) := fun a b =>
  decidable_of_iff (a.bytes=b.bytes) ⟨fun h => by cases a; cases b; simpa using h,
    fun h => congrArg Buf.bytes h⟩

theorem copyInto_length (n : Nat) (hn : 0<n) (s : Bytes) : (copyInto n s).length<n := by
  simp only [copyInto,List.length_take]
  omega

theorem copyInto_of_short (n : Nat) (s : Bytes) (hs : s.length<n) : copyInto n s=s := by
  rw [copyInto,List.take_of_length_le (by omega)]

/-- Index of the last occurrence of a byte. -/
def lastIndex (c : UInt8) : Bytes → Option Nat
  | [] => none
  | x::xs =>
      match lastIndex c xs with
      | some i => some (i+1)
      | none => if x=c then some 0 else none

theorem lastIndex_none (c : UInt8) (s : Bytes) : lastIndex c s=none ↔ c∉s := by
  induction s with
  | nil => simp [lastIndex]
  | cons x xs ih =>
    cases hi : lastIndex c xs with
    | some i =>
      have hm : c∈xs := by
        by_contra hn
        rw [ih.mpr hn] at hi
        cases hi
      simp [lastIndex,hi,hm]
    | none =>
      have hm := ih.mp hi
      by_cases hx : x=c
      · simp [lastIndex,hi,hx]
      · have hx' : c≠x := fun h => hx h.symm
        simp [lastIndex,hi,hx,hx',hm]

theorem lastIndex_lt (c : UInt8) (s : Bytes) (i : Nat) (h : lastIndex c s=some i) :
    i < s.length := by
  induction s generalizing i with
  | nil => simp [lastIndex] at h
  | cons x xs ih =>
    cases hi : lastIndex c xs with
    | some j =>
      have hj := ih j hi
      have he : j+1=i := by simpa [lastIndex,hi] using h
      simp only [List.length_cons]
      omega
    | none =>
      by_cases hx : x=c
      · have he : 0=i := by simpa [lastIndex,hi,hx] using h
        simp only [List.length_cons]
        omega
      · simp [lastIndex,hi,hx] at h

theorem lastIndex_append (c : UInt8) (s t : Bytes) (j : Nat) (h : lastIndex c t=some j) :
    lastIndex c (s++t)=some (s.length+j) := by
  induction s with
  | nil => simpa using h
  | cons x xs ih =>
    simp only [List.cons_append,lastIndex,ih,List.length_cons]
    exact congrArg some (by omega)

theorem lastIndex_cons_self (c : UInt8) (t : Bytes) : ∃j,lastIndex c (c::t)=some j := by
  cases hi : lastIndex c t with
  | some i => exact ⟨i+1,by simp [lastIndex,hi]⟩
  | none => exact ⟨0,by simp [lastIndex,hi]⟩

/-- The non-empty components between separators. -/
def parts (c : UInt8) (s : Bytes) : List Bytes := (s.splitOn c).filter (· != [])

theorem parts_append (c : UInt8) (s t : Bytes) : parts c (s++c::t)=parts c s++parts c t := by
  rw [parts,List.splitOn_append_cons_self,List.filter_append]
  rfl

theorem parts_nil (c : UInt8) : parts c []=[] := by
  simp [parts]

theorem parts_cons (c : UInt8) (s : Bytes) : parts c (c::s)=parts c s := by
  have h := parts_append c [] s
  simpa [parts_nil] using h

theorem parts_snoc (c : UInt8) (s : Bytes) : parts c (s++[c])=parts c s := by
  rw [parts_append,parts_nil,List.append_nil]

theorem parts_single (c : UInt8) (s : Bytes) (h : c∉s) (hs : s≠[]) : parts c s=[s] := by
  simp [parts,List.splitOn_eq_singleton h,hs]

theorem parts_dropWhile (c : UInt8) (s : Bytes) :
    parts c (s.dropWhile (· == c))=parts c s := by
  induction s with
  | nil => rfl
  | cons x xs ih =>
    by_cases hx : x=c
    · rw [hx,List.dropWhile_cons_of_pos (by simp),ih,parts_cons]
    · rw [List.dropWhile_cons_of_neg (by simpa using hx)]

theorem splitOn_noSep (c : UInt8) (s : Bytes) : ∀l∈s.splitOn c,c∉l := by
  induction s with
  | nil => simp
  | cons x xs ih =>
    intro l hl
    rw [List.splitOn_cons_eq_if_modifyHead] at hl
    by_cases hx : x=c
    · rw [if_pos (by simpa using hx)] at hl
      rcases List.mem_cons.mp hl with rfl | h
      · simp
      · exact ih l h
    · rw [if_neg (by simpa using hx)] at hl
      cases hs : xs.splitOn c with
      | nil => exact absurd hs (List.splitOn_ne_nil c xs)
      | cons y ys =>
        rw [hs] at hl ih
        rcases List.mem_cons.mp hl with rfl | h
        · have hy := ih y (by simp)
          simp only [List.mem_cons,not_or]
          exact ⟨fun h => hx h.symm,hy⟩
        · exact ih l (by simp [h])

theorem parts_mem (c : UInt8) (s l : Bytes) (h : l∈parts c s) : c∉l ∧ l≠[] := by
  have hm := List.mem_filter.mp h
  exact ⟨splitOn_noSep c s l hm.1,by simpa using hm.2⟩

theorem splitOn_subset (c : UInt8) (s : Bytes) : ∀l∈s.splitOn c,l⊆s := by
  induction s with
  | nil => simp
  | cons y ys ih =>
    intro l hl
    rw [List.splitOn_cons_eq_if_modifyHead] at hl
    by_cases hy : y=c
    · rw [if_pos (by simpa using hy)] at hl
      rcases List.mem_cons.mp hl with rfl | h
      · exact List.nil_subset _
      · exact List.subset_cons_of_subset _ (ih l h)
    · rw [if_neg (by simpa using hy)] at hl
      cases hs : ys.splitOn c with
      | nil => exact absurd hs (List.splitOn_ne_nil c ys)
      | cons z zs =>
        rw [hs] at hl ih
        rcases List.mem_cons.mp hl with rfl | h
        · exact List.cons_subset_cons _ (ih z List.mem_cons_self)
        · exact List.subset_cons_of_subset _ (ih l (List.mem_cons_of_mem _ h))

theorem parts_subset (c : UInt8) (s l : Bytes) (h : l∈parts c s) : l⊆s :=
  splitOn_subset c s l (List.mem_filter.mp h).1

theorem intercalate_length (c : UInt8) (ls : List Bytes) (h : ls≠[]) :
    ([c].intercalate ls).length+1=(ls.map fun l => l.length+1).sum := by
  induction ls with
  | nil => exact absurd rfl h
  | cons x xs ih =>
    cases xs with
    | nil => simp
    | cons y ys =>
      have hi : [c].intercalate (x::y::ys)=x++c::[c].intercalate (y::ys) := by
        simp [List.intercalate_cons_of_ne_nil]
      have hr := ih (by simp)
      rw [hi]
      simp only [List.map_cons,List.sum_cons,List.length_append,List.length_cons] at hr ⊢
      omega

theorem parts_length (c : UInt8) (s : Bytes) :
    ((parts c s).map fun l => l.length+1).sum ≤ s.length+1 := by
  have hf : ∀ls : List Bytes,((ls.filter (· != [])).map fun l => l.length+1).sum≤
      (ls.map fun l => l.length+1).sum := by
    intro ls
    induction ls with
    | nil => simp
    | cons x xs ih =>
      by_cases hx : x=[]
      · rw [List.filter_cons_of_neg (by simp [hx])]
        simp only [List.map_cons,List.sum_cons]
        omega
      · rw [List.filter_cons_of_pos (by simpa using hx)]
        simp only [List.map_cons,List.sum_cons]
        omega
  have h := intercalate_length c (s.splitOn c) (List.splitOn_ne_nil c s)
  rw [List.intercalate_splitOn] at h
  exact Nat.le_trans (hf _) (Nat.le_of_eq h.symm)

end LugalOS.CString

namespace LugalOS.Memory

open CString

def store (buf : Bytes) (p : Nat) (bs : Bytes) : Bytes := buf.take p++bs++buf.drop (p+bs.length)

theorem store_length {buf bs : Bytes} {p : Nat} (h : p+bs.length≤buf.length) :
    (store buf p bs).length=buf.length := by
  rw [store,List.length_append,List.length_append,List.length_take,List.length_drop]
  omega

theorem store_take {buf bs : Bytes} {p : Nat} (h : p+bs.length≤buf.length) :
    (store buf p bs).take (p+bs.length)=buf.take p++bs := by
  have hl : (buf.take p++bs).length=p+bs.length := by
    rw [List.length_append,List.length_take,Nat.min_eq_left (by omega)]
  rw [store,← hl,List.take_left']
  rfl

theorem store_before {buf bs : Bytes} {p k : Nat} (hk : k≤p) (hp : p≤buf.length) :
    (store buf p bs).take k=buf.take k := by
  rw [store,List.append_assoc,List.take_append_of_le_length (by rw [List.length_take]; omega),
    List.take_take,Nat.min_eq_left hk]

theorem store_mid (a c : Bytes) {b bs : Bytes} (h : b.length=bs.length) :
    store (a++(b++c)) a.length bs=a++(bs++c) := by
  rw [store,List.take_left,← h,← List.drop_drop,List.drop_left,List.drop_left,List.append_assoc]

theorem exists_cut (l : Bytes) {n : Nat} (h : n≤l.length) : ∃a b,l=a++b ∧ a.length=n :=
  ⟨l.take n,l.drop n,(List.take_append_drop n l).symm,by rw [List.length_take]; omega⟩

theorem store_nil (buf : Bytes) (p : Nat) : store buf p []=buf := by
  rw [store,List.append_nil,List.length_nil,Nat.add_zero,List.take_append_drop]

theorem store_self (buf : Bytes) (p n : Nat) : store buf p ((buf.drop p).take n)=buf := by
  have h : buf.drop (p+((buf.drop p).take n).length)=(buf.drop p).drop n := by
    rw [← List.drop_drop,List.length_take]
    rcases Nat.le_total n (buf.drop p).length with hn | hn
    · rw [Nat.min_eq_left hn]
    · rw [Nat.min_eq_right hn,List.drop_length,List.drop_eq_nil_of_le hn]
  rw [store,h,List.append_assoc,List.take_append_drop,List.take_append_drop]

theorem store_append {buf : Bytes} {p : Nat} (xs ys : Bytes)
    (h : p+xs.length+ys.length≤buf.length) :
    store (store buf p xs) (p+xs.length) ys=store buf p (xs++ys) := by
  have hx : (store buf p xs).take (p+xs.length)=buf.take p++xs := store_take (by omega)
  have hd : (store buf p xs).drop (p+xs.length+ys.length)=buf.drop (p+xs.length+ys.length) := by
    rw [store,List.drop_append,List.drop_eq_nil_of_le (by
      rw [List.length_append,List.length_take]; omega),List.nil_append,List.drop_drop,
      List.length_append,List.length_take,Nat.min_eq_left (by omega)]
    congr 1
    omega
  rw [store,hx,hd,store,List.length_append,Nat.add_assoc,List.append_assoc (buf.take p)]

end LugalOS.Memory
