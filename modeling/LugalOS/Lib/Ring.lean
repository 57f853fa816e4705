import Mathlib.Data.List.Basic
import LugalOS.Lib.LittleEndian

namespace LugalOS

/-- A ring buffer of n places: head is the oldest element's place, len how many there are. -/
structure Ring (α : Type) (n : Nat) where
  slots : Nat → α
  head : Nat
  len : Nat

namespace Ring

open Function (update_of_ne)

variable {α : Type} {n : Nat}

def place (r : Ring α n) (i : Nat) : Nat := (r.head+i)%n

def get (r : Ring α n) (i : Nat) : α := r.slots (r.place i)

def toList (r : Ring α n) : List α := (List.range r.len).map r.get

def push (r : Ring α n) (a : α) : Ring α n :=
  {r with slots := Function.update r.slots (r.place r.len) a,len := r.len+1}

def pop (r : Ring α n) : Ring α n := {r with head := (r.head+1)%n,len := r.len-1}

/-- An element put in front of the oldest. -/
def pushFront (r : Ring α n) (a : α) : Ring α n :=
  {slots := Function.update r.slots ((r.head+n-1)%n) a,head := (r.head+n-1)%n,len := r.len+1}

/-- The loop of remove at its i-th element, with what it kept: the kept ones move up. -/
def removeLoop [DecidableEq α] (a : α) (head len : Nat) : Nat → Nat → (Nat → α) → (Nat → α) × Nat
  | 0,kept,slots => (slots,kept)
  | k+1,kept,slots =>
    let w := slots ((head+(len-(k+1)))%n)
    if w=a then removeLoop a head len k kept slots
    else removeLoop a head len k (kept+1) (Function.update slots ((head+kept)%n) w)

def remove [DecidableEq α] (r : Ring α n) (a : α) : Ring α n :=
  let x := removeLoop (n := n) a r.head r.len r.len 0 r.slots
  {r with slots := x.1,len := x.2}

@[simp] theorem length_toList (r : Ring α n) : r.toList.length=r.len := by simp [toList]

theorem place_ne {h i j : Nat} (hi : i<j) (hj : j<n) : (h+i)%n≠(h+j)%n := by
  intro he
  have hd : (h+j-(h+i))%n=0 := Nat.sub_mod_eq_zero_of_mod_eq he.symm
  rw [show h+j-(h+i)=j-i by omega,Nat.mod_eq_of_lt (by omega)] at hd
  omega

theorem toList_push {r : Ring α n} (h : r.len<n) (a : α) : (r.push a).toList=r.toList++[a] := by
  unfold toList
  rw [push,List.range_succ,List.map_append]
  congr 1
  · refine List.map_congr_left fun i hi => ?_
    rw [List.mem_range] at hi
    exact update_of_ne (place_ne hi h) _ _
  · simp [get,place]

theorem toList_pushFront {r : Ring α n} (h : r.len<n) (a : α) :
    (r.pushFront a).toList=a::r.toList := by
  have hmod : (r.head+n-1)%n%n=(r.head+n-1)%n := Nat.mod_mod _ _
  unfold toList
  rw [pushFront,List.range_succ_eq_map,List.map_cons,List.map_map]
  congr 1
  · simp [get,place]
  · refine List.map_congr_left fun i hi => ?_
    rw [List.mem_range] at hi
    have hplace : ((r.head+n-1)%n+(i+1))%n=(r.head+i)%n := by
      rw [Nat.mod_add_mod,show r.head+n-1+(i+1)=r.head+i+n by omega,Nat.add_mod_right]
    have hne : ((r.head+n-1)%n+(i+1))%n≠(r.head+n-1)%n := by
      have := place_ne (n := n) (h := (r.head+n-1)%n) (i := 0) (j := i+1) (by omega) (by omega)
      rw [Nat.add_zero,hmod] at this
      exact this.symm
    simp only [Function.comp_apply,get,place,Nat.succ_eq_add_one]
    rw [update_of_ne hne,hplace]

theorem toList_pop {r : Ring α n} (h : r.len≠0) : r.toList=r.get 0::r.pop.toList := by
  obtain ⟨k,hk⟩ := Nat.exists_eq_succ_of_ne_zero h
  unfold toList
  rw [hk,List.range_succ_eq_map,List.map_cons,List.map_map]
  simp only [pop,hk,Nat.succ_sub_one,List.cons.injEq,true_and]
  refine List.map_congr_left fun i _ => ?_
  simp only [Function.comp_apply,get,place,Nat.mod_add_mod]
  rw [show r.head+i.succ=r.head+1+i by omega]

theorem removeLoop_spec [DecidableEq α] (a : α) (head len : Nat) (old : Nat → α) (hl : len≤n) :
    ∀(k kept : Nat) (slots : Nat → α),k≤len → kept≤len-k →
      (∀j,len-k≤j → j<len → slots ((head+j)%n)=old ((head+j)%n)) →
      let x := removeLoop (n := n) a head len k kept slots
      (List.range x.2).map (fun i => x.1 ((head+i)%n))=
        (List.range kept).map (fun i => slots ((head+i)%n))++
        ((List.range' (len-k) k).map fun j => old ((head+j)%n)).filter (· ≠ a) := by
  intro k
  induction k with
  | zero => intro kept slots _ _ _; simp [removeLoop]
  | succ k ih =>
    intro kept slots hk hkept hold
    have hw : slots ((head+(len-(k+1)))%n)=old ((head+(len-(k+1)))%n) :=
      hold _ (Nat.le_refl _) (by omega)
    have hrest : len-(k+1)+1=len-k := by omega
    rw [List.range'_succ,hrest,List.map_cons,List.filter_cons]
    simp only [removeLoop,hw]
    by_cases ha : old ((head+(len-(k+1)))%n)=a
    · rw [if_pos ha,if_neg (by simp [ha])]
      exact ih kept slots (by omega) (by omega) fun j h1 h2 => hold j (by omega) h2
    · rw [if_neg ha,if_pos (by simp [ha])]
      have hlater : ∀j,len-k≤j → j<len →
          Function.update slots ((head+kept)%n) (old ((head+(len-(k+1)))%n)) ((head+j)%n)=
            old ((head+j)%n) := fun j h1 h2 => by
        rw [update_of_ne (Ne.symm (place_ne (by omega) (by omega)))]
        exact hold j (by omega) h2
      refine (ih (kept+1) _ (by omega) (by omega) hlater).trans ?_
      have hfirst : (List.range kept).map (fun i => Function.update slots ((head+kept)%n)
          (old ((head+(len-(k+1)))%n)) ((head+i)%n))=
            (List.range kept).map fun i => slots ((head+i)%n) :=
        List.map_congr_left fun i hi =>
          update_of_ne (place_ne (List.mem_range.mp hi) (by omega)) _ _
      rw [List.range_succ,List.map_append,hfirst,List.append_assoc]
      simp

theorem toList_remove [DecidableEq α] {r : Ring α n} (h : r.len≤n) (a : α) :
    (r.remove a).toList=r.toList.filter (· ≠ a) := by
  have hs := removeLoop_spec a r.head r.len r.slots h r.len 0 r.slots (Nat.le_refl _)
    (Nat.zero_le _) fun _ _ _ => rfl
  rw [List.range_zero,List.map_nil,List.nil_append,Nat.sub_self,← List.range_eq_range'] at hs
  exact hs

end Ring

end LugalOS

namespace LugalOS.RingStream

open LittleEndian

variable {α : Type}

/-- The loop that stores a list from position pos on. -/
def put (ring : Nat → α) (n : Nat) : Nat → List α → Nat → α
  | _,[] => ring
  | pos,a::l => put (Function.update ring (pos%n) a) n (pos+1) l

/-- The places hold l from position lo on. -/
structure Holds (ring : Nat → α) (n lo : Nat) (l : List α) : Prop where
  room : l.length≤n
  held : ∀i x,l[i]?=some x → ring ((lo+i)%n)=x

variable {ring : Nat → α} {n lo : Nat} {l m : List α}

theorem holds_nil (ring : Nat → α) (n lo : Nat) : Holds ring n lo [] :=
  ⟨Nat.zero_le n,fun i x h => by simp at h⟩

theorem Holds.snoc (h : Holds ring n lo l) (a : α) (hr : l.length < n) :
    Holds (Function.update ring ((lo+l.length)%n) a) n lo (l++[a]) := by
  refine ⟨by rw [List.length_append,List.length_singleton]; omega,fun i x hx => ?_⟩
  by_cases hi : i < l.length
  · rw [List.getElem?_append_left hi] at hx
    rw [Function.update_of_ne (Ring.place_ne hi hr)]
    exact h.held i x hx
  · rw [List.getElem?_append_right (Nat.not_lt.1 hi)] at hx
    have h0 : i-l.length=0 := by
      by_contra hne
      rw [List.getElem?_eq_none (by rw [List.length_singleton]; omega)] at hx
      cases hx
    rw [h0,List.getElem?_cons_zero] at hx
    rw [show i=l.length by omega,Function.update_self]
    exact Option.some.inj hx

theorem Holds.put (h : Holds ring n lo l) (hr : l.length+m.length≤n) :
    Holds (put ring n (lo+l.length) m) n lo (l++m) := by
  induction m generalizing ring l with
  | nil => rw [List.append_nil]; exact h
  | cons a m ih =>
    rw [List.length_cons] at hr
    have := ih (h.snoc a (by omega)) (by rw [List.length_append,List.length_singleton]; omega)
    rw [List.length_append,List.length_singleton,← Nat.add_assoc,List.append_assoc] at this
    exact this

theorem Holds.append_right (h : Holds ring n lo (l++m)) : Holds ring n (lo+l.length) m := by
  have hr := h.room
  rw [List.length_append] at hr
  refine ⟨by omega,fun i x hx => ?_⟩
  rw [Nat.add_assoc]
  refine h.held _ x ?_
  rw [List.getElem?_append_right (Nat.le_add_right _ _),Nat.add_sub_cancel_left]
  exact hx

theorem Holds.append_left (h : Holds ring n lo (l++m)) : Holds ring n lo l := by
  have hr := h.room
  rw [List.length_append] at hr
  refine ⟨by omega,fun i x hx => h.held i x ?_⟩
  obtain ⟨hi,_⟩ := List.getElem?_eq_some_iff.1 hx
  rw [List.getElem?_append_left hi]
  exact hx

theorem Holds.map_range (h : Holds ring n lo l) :
    (List.range l.length).map (fun i => ring ((lo+i)%n))=l := by
  apply List.ext_getElem?
  intro i
  by_cases hi : i < l.length
  · rw [List.getElem?_map,List.getElem?_range hi,Option.map_some]
    rw [List.getElem?_eq_getElem hi,h.held i _ (List.getElem?_eq_getElem hi)]
  · rw [List.getElem?_eq_none (by simpa using hi),List.getElem?_eq_none (by simpa using hi)]

theorem Holds.number {ring : Nat → UInt8} {w v : Nat} (h : Holds ring n lo (leBytes v w)) :
    leAt (fun k => ring (k%n)) lo w=v%256^w := by
  induction w generalizing lo v with
  | zero => rw [leAt,Nat.pow_zero,Nat.mod_one]
  | succ w ih =>
    rw [leBytes] at h
    have h0 := h.held 0 _ (List.getElem?_cons_zero ..)
    have ht : Holds ring n (lo+1) (leBytes (v/256) w) :=
      h.append_right (l := [v.toUInt8])
    have hb : v.toUInt8.toNat=v%256 := by simp
    rw [Nat.add_zero] at h0
    rw [leAt,ih ht,h0,hb,Nat.pow_succ,Nat.mul_comm (256^w) 256,Nat.mod_mul]

end LugalOS.RingStream
