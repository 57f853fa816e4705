import Mathlib.Algebra.BigOperators.Intervals
import LugalOS.Uheap.Reclaiming

namespace LugalOS.Uheap

open Doubly Run

/-- What the walk over the arena has counted. -/
structure Tally where
  errors : Nat
  frees : Nat
  blocks : Nat
  bytes : Nat

def Tally.errIf (t : Tally) (p : Prop) [Decidable p] : Tally :=
  if p then {t with errors := t.errors+1} else t

/-- What a block adds: a used one is counted, and the one behind a free one is not to be free. -/
def Tally.count (t : Tally) (h : Heap) (off nx : Nat) : Tally :=
  if h.bused off then {t with blocks := t.blocks+1,bytes := t.bytes+(h.bsize off-hdr)}
  else {t with frees := t.frees+1}.errIf (h.bused nx=false ∧ h.bsize nx≠0)

/-- The walk; none where it takes more turns. -/
def walkLoop (h : Heap) : Nat → Nat → Nat → Tally → Option Tally
  | 0,_,_,_ => none
  | k+1,off,prev,t =>
    if h.size<u32 (off+hdr) then some (t.errIf True)
    else
      let s := h.bsize off
      let t := t.errIf (h.blkPrev off≠prev)
      if s=0 then some (t.errIf (off≠h.size-hdr ∨ h.bused off=false))
      else if s%8≠0 ∨ s< minBlock ∨ h.size-hdr<u32 (off+s) then some (t.errIf True)
      else walkLoop h k (u32 (off+s)) s (t.count h off (u32 (off+s)))

/-- The scan of the list of class c, which the guard stops: the blocks on it and the errors. -/
def listLoop (h : Heap) (c : Nat) : Nat → Nat → Nat → Nat×Nat → Nat×Nat
  | 0,o,_,r => if o=0 then r else (r.1,r.2+1)
  | k+1,o,last,r =>
    if o=0 then r
    else if h.size<o then (r.1,r.2+1)
    else
      let e := if h.bused (o-1) ∨ cls (h.bsize (o-1))≠c then r.2+1 else r.2
      let e := if h.linkPrevfree (o-1)≠last then e+1 else e
      listLoop h c k (h.linkNext (o-1)) o (r.1+1,e)

/-- A walk takes no more turns than the arena has bytes, or it goes round. -/
def uheapCheck (h : Heap) : Option Nat :=
  (walkLoop h h.size 0 0 ⟨0,0,0,0⟩).map fun t =>
    let (n,e) := (List.range classes).foldl
      (fun r c => listLoop h c (h.size/minBlock+1) (h.freeHead c) 0 r) (0,t.errors)
    let e := if n≠t.frees then e+1 else e
    if t.blocks≠h.usedBlocks ∨ t.bytes≠h.usedBytes then e+1 else e

section Walking

variable {h : Heap} {bs : Finset Blk} {off prev k : Nat}

def restOf (bs : Finset Blk) (off : Nat) : Finset Blk := bs.filter fun b => off≤b.off

theorem restOf_eq (hl : Laid h bs) {b : Blk} (hb : b∈bs) :
    restOf bs b.off=insert b (restOf bs (b.off+b.size)) ∧ b∉restOf bs (b.off+b.size) := by
  have hleast := (hl.shaped b hb).least
  constructor
  · ext c
    simp only [restOf,Finset.mem_filter,Finset.mem_insert]
    constructor
    · rintro ⟨hc,hle⟩
      by_cases hcb : c=b
      · exact .inl hcb
      · have := hl.apart hb hc (Ne.symm hcb)
        have := (hl.shaped c hc).least
        exact .inr ⟨hc,by omega⟩
    · rintro (rfl | ⟨hc,hle⟩)
      · exact ⟨hb,Nat.le_refl _⟩
      · exact ⟨hc,by omega⟩
  · simp only [restOf,Finset.mem_filter]
    omega

theorem restOf_end (hl : Laid h bs) : restOf bs (h.size-8)=∅ := by
  rw [restOf,Finset.filter_eq_empty_iff]
  intro b hb
  have := hl.fits hb
  have := (hl.shaped b hb).least
  omega

theorem usedOf_insert (b : Blk) (s : Finset Blk) :
    usedOf (insert b s)=if b.used=true then insert b (usedOf s) else usedOf s :=
  Finset.filter_insert ..

theorem freeOf_insert (b : Blk) (s : Finset Blk) :
    freeOf (insert b s)=if b.used=false then insert b (freeOf s) else freeOf s :=
  Finset.filter_insert ..

theorem walkLoop_end (hl : Laid h bs) (hp : h.blkPrev (h.size-8)=prev) (t : Tally) :
    walkLoop h (k+1) (h.size-8) prev t=some t := by
  have hlarge := hl.large
  have hsmall := hl.small
  have hs : h.bsize (h.size-8)=0 := by
    rw [Heap.bsize,Heap.blkSize,hl.sentinel]
  have hu : h.bused (h.size-8)=true := by
    rw [Heap.bused,Heap.blkSize,hl.sentinel]
    rfl
  have h32 : u32 (h.size-8+8)=h.size := by
    rw [u32,Nat.mod_eq_of_lt (by omega)]
    omega
  rw [walkLoop]
  simp [h32,hs,hu,hp,hdr,Tally.errIf]

theorem walkLoop_block (hl : Laid h bs) {b : Blk} (hb : b∈bs) (hp : h.blkPrev b.off=prev)
    (t : Tally) : walkLoop h (k+1) b.off prev t=
      walkLoop h k (b.off+b.size) b.size (t.count h b.off (b.off+b.size)) := by
  have hsmall := hl.small
  have hfit := hl.fits hb
  have hleast := (hl.shaped b hb).least
  have hround := (hl.shaped b hb).rounded
  have h32 : u32 (b.off+8)=b.off+8 := Nat.mod_eq_of_lt (by omega)
  have hnx : u32 (b.off+b.size)=b.off+b.size := Nat.mod_eq_of_lt (by omega)
  rw [walkLoop]
  simp only [h32,hnx,hl.bsize hb,hp,Tally.errIf,hdr,minBlock]
  rw [if_neg (by omega),if_neg (by omega),if_neg (by omega),if_neg (by omega)]

theorem count_eq (hl : Laid h bs) (hm : Merged bs) {b : Blk} (hb : b∈bs) (t : Tally) :
    t.count h b.off (b.off+b.size)=if b.used then
      {t with blocks := t.blocks+1,bytes := t.bytes+(b.size-8)} else {t with frees := t.frees+1} := by
  rw [Tally.count,hl.bused hb,hl.bsize hb]
  split
  · rfl
  next hu =>
    rw [Tally.errIf,if_neg]
    rintro ⟨h0,-⟩
    obtain ⟨c,hc,hco,hcu⟩ := hl.next_free hb (by rwa [hl.nextBlk hb])
    rw [hm b hb c hc hco.symm (by simpa using hu)] at hcu
    cases hcu

theorem walkLoop_spec (hl : Laid h bs) (hm : Merged bs) (hk : h.size<k+off+8)
    (hat : off=h.size-8 ∨ ∃b∈bs,b.off=off) (hp : h.blkPrev off=prev) (t : Tally) :
    16*(restOf bs off).card+off+8≤h.size ∧ walkLoop h k off prev t=some ⟨t.errors,
      t.frees+(freeOf (restOf bs off)).card,t.blocks+(usedOf (restOf bs off)).card,
      t.bytes+∑b∈usedOf (restOf bs off),(b.size-8)⟩ := by
  have hlarge := hl.large
  induction k generalizing off prev t with
  | zero =>
    obtain rfl | ⟨b,hb,rfl⟩ := hat
    · omega
    · have := hl.fits hb
      have := (hl.shaped b hb).least
      omega
  | succ k ih =>
    obtain rfl | ⟨b,hb,rfl⟩ := hat
    · rw [restOf_end hl,walkLoop_end hl hp]
      simp [freeOf,usedOf]
      omega
    · have hfit := hl.fits hb
      have hleast := (hl.shaped b hb).least
      obtain ⟨hrest,hnot⟩ := restOf_eq hl hb
      have hbehind := (hl.behind hb).imp_left fun _ => (by omega : b.off+b.size=h.size-8)
      obtain ⟨i1,i2⟩ := ih (by omega) hbehind (hl.tagged b hb).behind
        (t.count h b.off (b.off+b.size))
      rw [walkLoop_block hl hb hp,i2,hrest,Finset.card_insert_of_notMem hnot,count_eq hl hm hb,
        usedOf_insert,freeOf_insert]
      refine ⟨by omega,?_⟩
      cases b.used with
      | false =>
        have hnot : b∉freeOf (restOf bs (b.off+b.size)) := fun hx => hnot (freeOf_subset _ hx)
        simp [Finset.card_insert_of_notMem hnot]
        omega
      | true =>
        have hnot : b∉usedOf (restOf bs (b.off+b.size)) := fun hx => hnot (usedOf_subset _ hx)
        simp [Finset.card_insert_of_notMem hnot,Finset.sum_insert hnot]
        omega

end Walking

section Listing

variable {h : Heap} {bs : Finset Blk} {lists : Nat → List Nat} {c k last o : Nat} {l : List Nat}

theorem listLoop_spec (hc : Chain h.linkNext h.linkPrevfree last o l) (hk : l.length≤k)
    (hl : ∀x∈l,x<h.size ∧ h.bused x=false ∧ cls (h.bsize x)=c) (r : Nat×Nat) :
    listLoop h c k o last r=(r.1+l.length,r.2) := by
  induction l generalizing k o last r with
  | nil =>
    obtain rfl : o=0 := hc
    cases k <;> rfl
  | cons a l ih =>
    obtain ⟨rfl,hp,ht⟩ := hc
    obtain ⟨k,rfl⟩ : ∃j,k=j+1 := ⟨k-1,by simp only [List.length_cons] at hk; omega⟩
    obtain ⟨h1,h2,h3⟩ := hl a List.mem_cons_self
    rw [listLoop,if_neg (Nat.succ_ne_zero a),if_neg (by omega)]
    simp only [Nat.add_sub_cancel,h2,h3,hp,ne_eq,not_true_eq_false,Bool.false_eq_true,or_self,
      if_false]
    rw [ih ht (by simpa using hk) fun x hx => hl x (List.mem_cons_of_mem _ hx)]
    simp only [List.length_cons,Prod.mk.injEq,and_true]
    omega

theorem Lists.length_eq (hl : Laid h bs) (hi : Lists h lists (freeOf bs)) (c : Nat) :
    (lists c).length=((freeOf bs).filter fun b => cls b.size=c).card := by
  rw [← List.toFinset_card_of_nodup (hi.nodup c),
    show (lists c).toFinset=((freeOf bs).filter fun b => cls b.size=c).image Blk.off by
      ext x
      simp only [List.mem_toFinset,hi.mem,Finset.mem_image,Finset.mem_filter]
      grind]
  refine Finset.card_image_of_injOn fun b hb c hc ho => ?_
  exact hl.off_inj (freeOf_subset _ (Finset.mem_filter.mp hb).1)
    (freeOf_subset _ (Finset.mem_filter.mp hc).1) ho

theorem lists_fold (hl : Laid h bs) (hi : Lists h lists (freeOf bs)) (hk : (freeOf bs).card≤k)
    (cs : List Nat) (hcs : ∀c∈cs,c<classes) (r : Nat×Nat) :
    cs.foldl (fun r c => listLoop h c k (h.freeHead c) 0 r) r=
      (r.1+(cs.map fun c => (lists c).length).sum,r.2) := by
  induction cs generalizing r with
  | nil => rfl
  | cons c cs ih =>
    have hlen : (lists c).length≤k := by
      rw [hi.length_eq hl]
      exact (Finset.card_filter_le _ _).trans hk
    have hmem : ∀x∈lists c,x<h.size ∧ h.bused x=false ∧ cls (h.bsize x)=c := by
      intro x hx
      obtain ⟨b,hb,rfl,hbc⟩ := (hi.mem c x).mp hx
      obtain ⟨hbb,hbu⟩ := mem_freeOf.mp hb
      have := hl.fits hbb
      exact ⟨by omega,(hl.bused hbb).trans hbu,by rw [hl.bsize hbb,hbc]⟩
    rw [List.foldl_cons,listLoop_spec (hi.chain c (hcs c List.mem_cons_self)) hlen hmem,
      ih fun d hd => hcs d (List.mem_cons_of_mem _ hd)]
    simp only [List.map_cons,List.sum_cons,Prod.mk.injEq,and_true]
    omega

theorem lists_sum (hl : Laid h bs) (hi : Lists h lists (freeOf bs)) :
    ((List.range classes).map fun c => (lists c).length).sum=(freeOf bs).card := by
  have hcls : ∀b∈freeOf bs,cls b.size∈Finset.range classes := fun b hb => by
    have hbb := freeOf_subset bs hb
    have := (hl.shaped b hbb).least
    exact Finset.mem_range.mpr (cls_spec (by omega) (hl.size_lt hbb)).1
  rw [Finset.card_eq_sum_card_fiberwise hcls]
  simp only [hi.length_eq hl]
  rfl

/-- uheap_check finds nothing wrong with a well-formed heap. -/
theorem Sound.check (hs : Sound h bs) : uheapCheck h=some 0 := by
  have hl := hs.laid
  have hlarge := hl.large
  have hstart : 0=h.size-8 ∨ ∃b∈bs,b.off=0 := by
    obtain ⟨b,hb,hb0⟩ := hl.tiles.cover 0 (by omega)
    exact .inr ⟨b,hb,Nat.le_zero.mp hb0.1⟩
  obtain ⟨hroom,hwalk⟩ := walkLoop_spec hl hs.merged (k := h.size) (by omega)
    hstart hl.first ⟨0,0,0,0⟩
  have hall : restOf bs 0=bs := Finset.filter_true_of_mem fun _ _ => Nat.zero_le _
  rw [hall] at hroom hwalk
  obtain ⟨lists,hi⟩ := hs.filed
  have hcard : (freeOf bs).card≤h.size/minBlock+1 := by
    have := Finset.card_le_card (freeOf_subset bs)
    rw [minBlock]
    omega
  rw [uheapCheck,hwalk,Option.map_some,lists_fold hl hi hcard _ fun c => List.mem_range.mp,
    lists_sum hl hi,hs.blocks,hs.bytes]
  simp

end Listing

section Runs

variable {h : Heap} {s : Owned}

theorem check_silent {arena size : Nat} {mem : Nat → UInt8} (hi : uheapInit arena size mem=some h)
    (hsz : size<2^32) {calls : List Call} (hr : Reach Step ⟨h,∅⟩ calls s) :
    uheapCheck s.heap=some 0 := by
  obtain ⟨⟨_,hs,_⟩,_⟩ := reach_balanced hi hsz hr
  exact hs.check

theorem check_silent_pair : ∃h p s,uheapInit 4096 64 (fun _ => 0)=some h ∧
    Reach Step ⟨h,∅⟩ [.free p,.alloc 8] s ∧ uheapCheck s.heap=some 0 := by
  obtain ⟨h,p,s,hi,hr,_⟩ := pair_reach
  exact ⟨h,p,s,hi,hr,check_silent hi (by omega) hr⟩

end Runs

end LugalOS.Uheap
