import LugalOS.Lib.LittleEndian
import Mathlib.Data.List.GetD

namespace LugalOS.Buffer

open LittleEndian

def memRead (buf : Nat → UInt8) (o n : Nat) : List UInt8 := (List.range n).map fun i => buf (o+i)

/-- memmove of len bytes at n to the start of the buffer. -/
def memShift (buf : Nat → UInt8) (n len : Nat) : Nat → UInt8 :=
  fun i => if i<len then buf (n+i) else buf i

@[simp] theorem memRead_length (buf : Nat → UInt8) (o n : Nat) : (memRead buf o n).length=n := by
  simp [memRead]

@[simp] theorem memRead_zero (buf : Nat → UInt8) (o : Nat) : memRead buf o 0=[] := rfl

theorem memRead_getElem (buf : Nat → UInt8) (o n i : Nat) (h : i<(memRead buf o n).length) :
    (memRead buf o n)[i]=buf (o+i) := by
  simp [memRead]

theorem memRead_congr {f g : Nat → UInt8} {o n : Nat} (h : ∀i,i<n → f (o+i)=g (o+i)) :
    memRead f o n=memRead g o n :=
  List.map_congr_left fun i hi => h i (List.mem_range.mp hi)

theorem memRead_add (buf : Nat → UInt8) (o n k : Nat) :
    memRead buf o (n+k)=memRead buf o n++memRead buf (o+n) k := by
  rw [memRead,List.range_add,List.map_append,List.map_map]
  congr 1
  refine List.map_congr_left fun i _ => ?_
  simp only [Function.comp_apply,Nat.add_assoc]

theorem memRead_drop_take (buf : Nat → UInt8) (o n i k : Nat) (h : i+k≤n) :
    ((memRead buf o n).drop i).take k=memRead buf (o+i) k := by
  obtain ⟨m,rfl⟩ := Nat.exists_eq_add_of_le h
  rw [Nat.add_assoc,memRead_add,List.drop_left' (memRead_length _ _ _),memRead_add,
    List.take_left' (memRead_length _ _ _)]

theorem memRead_patch (buf : Nat → UInt8) (o : Nat) (data : List UInt8) :
    memRead (patch buf o data) o data.length=data := by
  refine List.ext_getElem (memRead_length _ _ _) fun i h1 h2 => ?_
  rw [memRead_getElem,patch_inside _ _ _ _ (by omega) (by omega),Nat.add_sub_cancel_left,
    List.getD_eq_getElem?_getD,List.getElem?_eq_getElem h2]
  rfl

theorem memRead_patch_before {buf : Nat → UInt8} {o n p : Nat} {data : List UInt8} (h : o+n≤p) :
    memRead (patch buf p data) o n=memRead buf o n :=
  memRead_congr fun i hi => patch_outside _ _ _ _ (by omega)

theorem memRead_patch_end (buf : Nat → UInt8) (n : Nat) (data : List UInt8) :
    memRead (patch buf n data) 0 (n+data.length)=memRead buf 0 n++data := by
  rw [memRead_add,memRead_patch_before (by omega),Nat.zero_add,memRead_patch]

theorem patch_patch (buf : Nat → UInt8) (o : Nat) (a b : List UInt8) :
    patch (patch buf o a) (o+a.length) b=patch buf o (a++b) := by
  funext k
  by_cases hb : o+a.length≤k ∧ k < o+a.length+b.length
  · rw [patch_inside _ _ _ _ hb.1 hb.2,
      patch_inside _ _ _ _ (by omega) (by rw [List.length_append]; omega),
      List.getD_append_right _ _ _ _ (by omega),Nat.sub_sub]
  · rw [patch_outside _ _ _ k (by omega)]
    by_cases ha : o≤k ∧ k < o+a.length
    · rw [patch_inside _ _ _ _ ha.1 ha.2,
        patch_inside _ _ _ _ ha.1 (by rw [List.length_append]; omega),
        List.getD_append _ _ _ _ (by omega)]
    · rw [patch_outside _ _ _ k (by omega),
        patch_outside _ _ _ k (by rw [List.length_append]; omega)]

theorem leBytes_leAt (buf : Nat → UInt8) (o n : Nat) : leBytes (leAt buf o n) n=memRead buf o n := by
  induction n generalizing o with
  | zero => rfl
  | succ n ih =>
    have hlow : (leAt buf o (n+1)).toUInt8=buf o := by
      apply UInt8.toNat_inj.mp
      have hlt := (buf o).toNat_lt
      simp only [leAt,Nat.toUInt8,UInt8.toNat_ofNat']
      omega
    have hhigh : leAt buf o (n+1)/256=leAt buf (o+1) n := by
      have hlt := (buf o).toNat_lt
      simp only [leAt]
      omega
    rw [leBytes,hlow,hhigh,ih,Nat.add_comm n 1,memRead_add]
    rfl

theorem memRead_memShift (buf : Nat → UInt8) (n len : Nat) :
    memRead (memShift buf n len) 0 len=memRead buf n len := by
  refine List.map_congr_left fun i hi => ?_
  rw [List.mem_range] at hi
  rw [memShift,if_pos (by omega),Nat.zero_add]

/-- len bytes of a circular buffer of n places, from the o-th byte ever written on. -/
def circular (n : Nat) (buf : Nat → UInt8) (o len : Nat) : List UInt8 :=
  (List.range len).map fun i => buf ((o+i)%n)

@[simp] theorem circular_length (n : Nat) (buf : Nat → UInt8) (o len : Nat) :
    (circular n buf o len).length=len := by simp [circular]

theorem circular_congr {n o len : Nat} {f g : Nat → UInt8}
    (h : ∀i,i<len → f ((o+i)%n)=g ((o+i)%n)) : circular n f o len=circular n g o len :=
  List.map_congr_left fun i hi => h i (List.mem_range.mp hi)

theorem circular_add (n : Nat) (buf : Nat → UInt8) (o len k : Nat) :
    circular n buf o (len+k)=circular n buf o len++circular n buf (o+len) k := by
  rw [circular,List.range_add,List.map_append,List.map_map]
  congr 1
  refine List.map_congr_left fun i _ => ?_
  simp only [Function.comp_apply,Nat.add_assoc]

theorem circular_drop (n : Nat) (buf : Nat → UInt8) (o len k : Nat) (h : k≤len) :
    (circular n buf o len).drop k=circular n buf (o+k) (len-k) := by
  obtain ⟨m,rfl⟩ := Nat.exists_eq_add_of_le h
  rw [circular_add,List.drop_left' (circular_length _ _ _ _),Nat.add_sub_cancel_left]

theorem circular_take (n : Nat) (buf : Nat → UInt8) (o len k : Nat) (h : k≤len) :
    (circular n buf o len).take k=circular n buf o k := by
  obtain ⟨m,rfl⟩ := Nat.exists_eq_add_of_le h
  rw [circular_add,List.take_left' (circular_length _ _ _ _)]

theorem circular_mod {n m : Nat} (h : n∣m) (buf : Nat → UInt8) (o len : Nat) :
    circular n buf (o%m) len=circular n buf o len := by
  refine List.map_congr_left fun i _ => ?_
  rw [Nat.add_mod,Nat.mod_mod_of_dvd _ h,← Nat.add_mod]

theorem place_eq {n o i : Nat} (hi : i<n) :
    (o+i)%n=if i<n-o%n then o%n+i else i-(n-o%n) := by
  have ho := Nat.mod_lt o (show 0<n by omega)
  rw [Nat.add_mod,Nat.mod_eq_of_lt hi]
  split_ifs with h
  · exact Nat.mod_eq_of_lt (by omega)
  · rw [show o%n+i=i-(n-o%n)+n by omega,Nat.add_mod_right]
    exact Nat.mod_eq_of_lt (by omega)

theorem circular_read {n : Nat} {buf : Nat → UInt8} {o k : Nat} (hn : 0<n) (hk : k≤n) :
    memRead buf (o%n) (min (n-o%n) k)++memRead buf 0 (k-min (n-o%n) k)=circular n buf o k := by
  have ho := Nat.mod_lt o hn
  refine List.ext_getElem (by simp) fun i h1 h2 => ?_
  rw [circular_length] at h2
  rw [List.getElem_append]
  simp only [memRead_length,memRead_getElem,circular,List.getElem_map,List.getElem_range]
  rw [place_eq (show i<n by omega)]
  by_cases h : i<n-o%n
  · rw [dif_pos (by omega),if_pos h]
  · rw [dif_neg (by omega),if_neg h]
    congr 1
    omega

/-- A write in two pieces: the byte at the j-th place of the buffer. -/
def circularWrite (n : Nat) (buf : Nat → UInt8) (o : Nat) (data : List UInt8) : Nat → UInt8 :=
  let first := min (n-o%n) data.length
  patch (patch buf (o%n) (data.take first)) 0 (data.drop first)

theorem circularWrite_mod {n m : Nat} (h : n∣m) (buf : Nat → UInt8) (o : Nat)
    (data : List UInt8) : circularWrite n buf (o%m) data=circularWrite n buf o data := by
  unfold circularWrite
  rw [Nat.mod_mod_of_dvd _ h]

theorem circularWrite_new {n : Nat} {buf : Nat → UInt8} {o : Nat} {data : List UInt8}
    (hd : data.length≤n) {i : Nat} (hi : i<data.length) :
    circularWrite n buf o data ((o+i)%n)=data.getD i 0 := by
  have ho := Nat.mod_lt o (show 0<n by omega)
  rw [place_eq (show i<n by omega)]
  unfold circularWrite
  by_cases h : i<n-o%n
  · rw [if_pos h,patch_outside _ _ _ _ (by simp only [List.length_drop]; omega),
      patch_inside _ _ _ _ (by omega) (by simp only [List.length_take]; omega),
      Nat.add_sub_cancel_left]
    simp only [List.getD_eq_getElem?_getD,List.getElem?_take]
    rw [if_pos (by omega)]
  · rw [if_neg h,patch_inside _ _ _ _ (by omega) (by simp only [List.length_drop]; omega)]
    simp only [List.getD_eq_getElem?_getD,List.getElem?_drop]
    congr 2
    omega

theorem circularWrite_old {n : Nat} {buf : Nat → UInt8} {o : Nat} {data : List UInt8} {j : Nat}
    (hj : j<n) (hd : data.length≤n) (h : ∀i,i<data.length → (o+i)%n≠j) :
    circularWrite n buf o data j=buf j := by
  have ho := Nat.mod_lt o (show 0<n by omega)
  unfold circularWrite
  rw [patch_outside,patch_outside]
  · simp only [List.length_take]
    by_contra hc
    have hc : o%n≤j ∧ j<o%n+min (min (n-o%n) data.length) data.length := by omega
    refine h (j-o%n) (by omega) ?_
    rw [place_eq (by omega),if_pos (by omega)]
    omega
  · simp only [List.length_drop]
    by_contra hc
    have hc : j<data.length-min (n-o%n) data.length := by omega
    refine h (j+(n-o%n)) (by omega) ?_
    rw [place_eq (by omega),if_neg (by omega)]
    omega

theorem circular_write {n : Nat} {buf : Nat → UInt8} {o len : Nat} {data : List UInt8}
    (h : len+data.length≤n) :
    circular n (circularWrite n buf (o+len) data) o (len+data.length)=
      circular n buf o len++data := by
  rw [circular_add]
  congr 1
  · refine circular_congr fun i hi => circularWrite_old (Nat.mod_lt _ (by omega)) (by omega) ?_
    intro j hj he
    rw [Nat.add_assoc] at he
    have h1 := place_eq (n := n) (o := o) (i := len+j) (by omega)
    have h2 := place_eq (n := n) (o := o) (i := i) (by omega)
    have ho := Nat.mod_lt o (show 0<n by omega)
    rw [h1,h2] at he
    split_ifs at he <;> omega
  · refine List.ext_getElem (circular_length _ _ _ _) fun i h1 h2 => ?_
    simp only [circular,List.getElem_map,List.getElem_range]
    rw [circularWrite_new (by omega) h2,List.getD_eq_getElem?_getD,List.getElem?_eq_getElem h2]
    rfl

end LugalOS.Buffer
