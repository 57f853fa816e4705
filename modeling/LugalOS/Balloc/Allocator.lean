import LugalOS.Balloc.Blocks

namespace LugalOS.Balloc

open Buddy

variable {n : Nat} {used : Nat → Nat → Bool} {f : Nat → Nat}

/-- The descent ends at a free block of the size that is needed, and meets no used one. -/
theorem descend_spec (hs : Shows n used f) {j : Nat} :
    ∀{d p fuel : Nat},j+d≤n → p<2^(n-(j+d)) → 2^j≤largest used (j+d) p → d<fuel →
      ∃q,descend f (2^j) fuel (node n (j+d) p) (2^(j+d))=some (node n j q,2^j) ∧
        Within j q (j+d) p ∧ largest used j q=2^j ∧
        ∀i x,Within j q i x → i≤j+d → used i x=false := by
  intro d
  induction d with
  | zero =>
    intro p fuel hn hp hl hf
    obtain ⟨fuel,rfl⟩ := Nat.exists_eq_succ_of_ne_zero (show fuel≠0 by omega)
    have hfree : largest used j p=2^j := Nat.le_antisymm (largest_le used j p) hl
    refine ⟨p,?_,.refl j p,hfree,fun i x hw hi => ?_⟩
    · rw [descend,Nat.add_zero,if_pos rfl]
    · obtain rfl : i=j := Nat.le_antisymm hi hw.1
      exact unused_of_free (within_same hw ▸ hfree) (.refl i x)
  | succ d ih =>
    intro p fuel hn hp hl hf
    obtain ⟨fuel,rfl⟩ := Nat.exists_eq_succ_of_ne_zero (show fuel≠0 by omega)
    have hpow : 2^(n-(j+d))=2*2^(n-(j+(d+1))) := by
      rw [Nat.mul_comm,← Nat.pow_succ]; congr 1; omega
    have hlt : 2^j<2^(j+(d+1)) := Nat.pow_lt_pow_right (by decide) (by omega)
    have hun : used (j+(d+1)) p=false := by
      cases hu : used (j+(d+1)) p with
      | true => rw [largest_used hu] at hl; have := Nat.two_pow_pos j; omega
      | false => rfl
    -- the half that is taken: the left one if it has the room
    have hgo : ∀p',(p'=2*p ∨ p'=2*p+1) → 2^j≤largest used (j+d) p' →
        ∃q,descend f (2^j) fuel (node n (j+d) p') (2^(j+d))=some (node n j q,2^j) ∧
          Within j q (j+(d+1)) p ∧ largest used j q=2^j ∧
          ∀i x,Within j q i x → i≤j+(d+1) → used i x=false := by
      intro p' hp' hl'
      obtain ⟨q,hq,hw,hfree,hup⟩ := ih (by omega) (by omega) hl' (show d<fuel by omega)
      have hwp := (within_succ (Nat.le_add_right j d)).2
        (hp'.imp (fun h => h ▸ hw) fun h => h ▸ hw)
      refine ⟨q,hq,hwp,hfree,fun i x hx hi => ?_⟩
      rcases Nat.lt_or_ge (j+d) i with hlt | hge
      · obtain rfl : i=j+(d+1) := by omega
        rw [← within_same (hwp.chain hx (Nat.le_refl _))]
        exact hun
      · exact hup i x hx hge
    have hleft := node_left (p := p) (show j+d<n by omega)
    have hright := node_right (p := p) (show j+d<n by omega)
    rw [descend,if_neg (by omega),show 2^(j+(d+1))/2=2^(j+d) by
      rw [show j+(d+1)=j+d+1 from rfl,Nat.pow_succ,Nat.mul_div_cancel _ (by decide)]]
    dsimp only
    rw [show nodeLeft (node n (j+(d+1)) p)=_ from hleft,
      show nodeRight (node n (j+(d+1)) p)=_ from hright,hs _ _ (by omega) (by omega)]
    by_cases hc : 2^j≤largest used (j+d) (2*p)
    · rw [if_pos hc]
      exact hgo _ (.inl rfl) hc
    · rw [if_neg hc]
      exact hgo _ (.inr rfl) (exists_half hl (Nat.le_add_right j d) hc)

theorem join_max {j q k p : Nat} (hu : used j q=true) (hw : Within j q k p) (h : used (k+1) (p/2)=false) :
    join k (largest used k (2*(p/2))) (largest used k (2*(p/2)+1))=
      max (largest used k (2*(p/2))) (largest used k (2*(p/2)+1)) := by
  rw [join,if_neg fun hc => ?_]
  have hfull : largest used (k+1) (p/2)=2^(k+1) := by rw [largest_succ h,join,if_pos hc]
  rw [unused_of_free hfull (within_parent hw)] at hu
  cases hu

theorem allocUp_shows (hn : n≤15) {j q : Nat} (hu : used j q=true) :
    ∀{d k p fuel : Nat} {f : Nat → Nat},k+d=n → p<2^(n-k) → Within j q k p →
      (∀i x,k < i → Within j q i x → used i x=false) → node n k p≤fuel → ShowsBut n used f k p →
      Shows n used (allocUp fuel f (node n k p)) := by
  intro d
  induction d with
  | zero =>
    intro k p fuel f hk hp _ _ _ hs
    obtain rfl : k=n := hk
    obtain rfl : p=0 := by rw [Nat.sub_self] at hp; omega
    rw [node_root]
    cases fuel with
    | zero => exact hs.shows
    | succ fuel => rw [allocUp,if_pos rfl]; exact hs.shows
  | succ d ih =>
    intro k p fuel f hk hp hw hup hf hs
    have hkn : k<n := by omega
    have h0 := node_ne_zero (p := p) hkn
    have hpow : 2^(n-k)=2*2^(n-(k+1)) := by rw [Nat.mul_comm,← Nat.pow_succ]; congr 1; omega
    have hpar := node_parent (p := p) hkn
    have hun := hup (k+1) (p/2) (by omega) (within_parent hw)
    obtain ⟨fuel,rfl⟩ := Nat.exists_eq_succ_of_ne_zero (show fuel≠0 by omega)
    have hle : ∀x,largest used k x≤2^15 := fun x =>
      (largest_le used k x).trans (Nat.pow_le_pow_right (by decide) (by omega))
    have hl := hs k (2*(p/2)) (by omega) (by omega) fun hc => by omega
    have hr := hs k (2*(p/2)+1) (by omega) (by omega) fun hc => by omega
    have hv : (if largest used k (2*(p/2))>largest used k (2*(p/2)+1) then largest used k (2*(p/2))
        else largest used k (2*(p/2)+1))=
        join k (f (node n k (2*(p/2)))) (f (node n k (2*(p/2)+1))) := by
      rw [hl,hr,join_max hu hw hun]
      split_ifs <;> omega
    have h1 := hle (2*(p/2))
    have h2 := hle (2*(p/2)+1)
    rw [allocUp,if_neg h0]
    dsimp only
    rw [show nodeParent (node n k p)=_ from hpar,show nodeLeft (node n (k+1) (p/2))=_ from node_left hkn,
      show nodeRight (node n (k+1) (p/2))=_ from node_right hkn,hl,hr,
      store_eq _ _ (by split_ifs <;> omega)]
    exact ih (by omega) (by omega) (within_parent hw) (fun i x hi hx => hup i x (by omega) hx)
      (by omega) (hs.up hkn hp hun hv)

theorem findZero_used (hs : Shows n used f) {j q : Nat} (hj : j≤n) (hq : q<2^(n-j))
    (hu : used j q=true) :
    ∀{d i x fuel : Nat},i+d=j → Within i x j q → d<fuel →
      (∀i' x',Within i' x' j q → ¬(i'=j ∧ x'=q) → used i' x'=false) →
      findZero f fuel (node n i x) (2^i)=some (node n j q,2^j) := by
  intro d
  induction d with
  | zero =>
    intro i x fuel hi hw hf _
    obtain rfl : i=j := hi
    obtain rfl := within_same hw
    obtain ⟨fuel,rfl⟩ := Nat.exists_eq_succ_of_ne_zero (show fuel≠0 by omega)
    rw [findZero,hs i x hj hq,largest_used hu,if_pos rfl]
  | succ d ih =>
    intro i x fuel hi hw hf hin
    obtain ⟨fuel,rfl⟩ := Nat.exists_eq_succ_of_ne_zero (show fuel≠0 by omega)
    have hx := hw.lt hj hq
    have hfree : largest used i x=2^i := largest_free fun i' x' hw' => by
      refine hin i' x' (hw'.trans hw) fun he => ?_
      have := hw'.1
      omega
    have hpos := Nat.two_pow_pos i
    have hwp : Within (i+1) (x/2) j q := (within_parent (Within.refl i x)).chain hw (by omega)
    rw [findZero,hs i x (by omega) hx,hfree,if_neg (by omega),
      if_neg (node_ne_zero (by omega)),show nodeParent (node n i x)=_ from node_parent (by omega),
      ← Nat.pow_succ]
    exact ih (by omega) hwp (by omega) hin

theorem findZero_unused (hs : Shows n used f) {m : Nat}
    (hm : ∀i x,i≤n → Within 0 m i x → used i x=false) :
    ∀{d i x fuel : Nat},i+d=n → Within 0 m i x → x<2^(n-i) → d<fuel →
      findZero f fuel (node n i x) (2^i)=none := by
  intro d
  induction d with
  | zero =>
    intro i x fuel hi hw hx hf
    obtain rfl : i=n := hi
    obtain rfl : x=0 := by rw [Nat.sub_self] at hx; omega
    obtain ⟨fuel,rfl⟩ := Nat.exists_eq_succ_of_ne_zero (show fuel≠0 by omega)
    have hone : 1≤largest used i 0 := le_around hw (fun i' x' _ h hw' => hm i' x' h hw') (by
      rw [largest,if_neg (by rw [hm 0 m (Nat.zero_le i) (.refl 0 m)]; exact Bool.false_ne_true)])
    rw [findZero,hs i 0 (Nat.le_refl i) hx,if_neg (by omega),if_pos (node_root i)]
  | succ d ih =>
    intro i x fuel hi hw hx hf
    obtain ⟨fuel,rfl⟩ := Nat.exists_eq_succ_of_ne_zero (show fuel≠0 by omega)
    have hone : 1≤largest used i x := le_around hw (fun i' x' _ h hw' => hm i' x' (by omega) hw') (by
      rw [largest,if_neg (by rw [hm 0 m (Nat.zero_le _) (.refl 0 m)]; exact Bool.false_ne_true)])
    have hpow : 2^(n-i)=2*2^(n-(i+1)) := by rw [Nat.mul_comm,← Nat.pow_succ]; congr 1; omega
    rw [findZero,hs i x (by omega) hx,if_neg (by omega),
      if_neg (node_ne_zero (by omega)),show nodeParent (node n i x)=_ from node_parent (by omega),
      ← Nat.pow_succ]
    exact ih (by omega) (within_parent hw) (by omega) (by omega)

theorem freeUp_shows (hn : n≤15) :
    ∀{d k p fuel : Nat} {f : Nat → Nat},k+d=n → p<2^(n-k) →
      (∀i x,k < i → Within k p i x → used i x=false) → node n k p≤fuel → ShowsBut n used f k p →
      Shows n used (freeUp fuel f (node n k p) (2^k)) := by
  intro d
  induction d with
  | zero =>
    intro k p fuel f hk hp _ _ hs
    obtain rfl : k=n := hk
    obtain rfl : p=0 := by rw [Nat.sub_self] at hp; omega
    rw [node_root]
    cases fuel with
    | zero => exact hs.shows
    | succ fuel => rw [freeUp,if_pos rfl]; exact hs.shows
  | succ d ih =>
    intro k p fuel f hk hp hup hf hs
    have hkn : k<n := by omega
    have h0 := node_ne_zero (p := p) hkn
    have hpow : 2^(n-k)=2*2^(n-(k+1)) := by rw [Nat.mul_comm,← Nat.pow_succ]; congr 1; omega
    have hpar := node_parent (p := p) hkn
    have hun := hup (k+1) (p/2) (by omega) (within_parent (.refl k p))
    obtain ⟨fuel,rfl⟩ := Nat.exists_eq_succ_of_ne_zero (show fuel≠0 by omega)
    have hle : ∀x,largest used k x≤2^15 := fun x =>
      (largest_le used k x).trans (Nat.pow_le_pow_right (by decide) (by omega))
    have hsize : 2^(k+1)≤2^15 := Nat.pow_le_pow_right (by decide) (by omega)
    have hl := hs k (2*(p/2)) (by omega) (by omega) fun hc => by omega
    have hr := hs k (2*(p/2)+1) (by omega) (by omega) fun hc => by omega
    have hv : (if largest used k (2*(p/2))+largest used k (2*(p/2)+1)=2^(k+1) then 2^(k+1)
        else if largest used k (2*(p/2))>largest used k (2*(p/2)+1) then largest used k (2*(p/2))
        else largest used k (2*(p/2)+1))=
        join k (f (node n k (2*(p/2)))) (f (node n k (2*(p/2)+1))) := by
      rw [hl,hr,join]
      split_ifs <;> omega
    have h1 := hle (2*(p/2))
    have h2 := hle (2*(p/2)+1)
    rw [freeUp,if_neg h0]
    dsimp only
    rw [show nodeParent (node n k p)=_ from hpar,show nodeLeft (node n (k+1) (p/2))=_ from node_left hkn,
      show nodeRight (node n (k+1) (p/2))=_ from node_right hkn,hl,hr,← Nat.pow_succ,
      store_eq _ _ (by split_ifs <;> omega)]
    refine ih (by omega) (by omega) (fun i x hi hx => hup i x (by omega) ?_) (by omega)
      (hs.up hkn hp hun hv)
    exact (within_parent (.refl k p)).trans hx

section

open Run

/-- A block that was given out: its address, and the size that was asked for. -/
structure Block where
  addr : Nat
  size : UInt32

namespace Block

def least (x : Block) : Nat := max x.size.toNat minBlock

def bytes (x : Block) : Nat := 2^Nat.clog 2 x.least

def order (x : Block) : Nat := Nat.clog 2 x.least-5

def Apart (x y : Block) : Prop := x.addr+x.bytes≤y.addr ∨ y.addr+y.bytes≤x.addr

theorem bytes_eq (x : Block) : x.bytes=2^x.order*minBlock := by
  have h : 5≤Nat.clog 2 x.least := by
    have hm : 2^5≤x.least := Nat.le_max_right _ _
    have hc := hm.trans (Nat.le_pow_clog (show 1<2 by decide) x.least)
    exact (Nat.pow_le_pow_iff_right (show 1<2 by decide)).1 hc
  rw [bytes,order,show minBlock=2^5 from rfl,← Nat.pow_add]
  congr 1
  omega

theorem bytes_pos (x : Block) : 0<x.bytes := Nat.two_pow_pos _

theorem bytes_least (x : Block) : IsLeast {v | v.isPowerOfTwo ∧ x.least≤v} x.bytes := by
  refine ⟨⟨⟨_,rfl⟩,Nat.le_pow_clog (show 1<2 by decide) _⟩,?_⟩
  rintro v ⟨⟨k,rfl⟩,hv⟩
  exact Nat.pow_le_pow_right (by decide) (Nat.clog_le_of_le_pow hv)

instance : Std.Symm Apart := ⟨fun _ _ => Or.symm⟩

end Block

/-- The allocator beside the blocks that are live. -/
structure Sys where
  arena : Arena
  live : List Block

inductive Event
  | alloc (p : Palloc.Zones) (size : UInt32)
  | free (ptr : Nat)

def Sys.init : Sys := ⟨ballocInit,[]⟩

/-- An allocation, with the page allocator as it is by then. -/
def Sys.alloc (b : Build) (s : Sys) (p : Palloc.Zones) (size : UInt32) : Option (Nat×Sys) := do
  let (a,arena,_) ← ballocAlloc b s.arena p size
  return (a,⟨arena,if a=0 then s.live else ⟨a,size⟩::s.live⟩)

def Sys.free (b : Build) (s : Sys) (ptr : Nat) : Sys :=
  ⟨ballocFree b s.arena ptr,s.live.filter fun x => x.addr≠ptr⟩

/-- The page allocator's zone is in order. -/
structure Pages (b : Build) (p : Palloc.Zones) : Prop where
  ok : (p.zone .fast).Ok
  plain : (p.zone .fast).Plain b.arenaPages

/-- A pointer that may be freed: a live block's, or one in no live block, where the number of its
leaf has 32 bits. -/
structure Freeable (s : Sys) (ptr : Nat) : Prop where
  near : ptr < s.arena.arenaBase+2^37
  outer : ∀x∈s.live,¬(x.addr<ptr ∧ ptr<x.addr+x.bytes)

inductive Step (b : Build) (s : Sys) : Event → Sys → Prop
  | alloc {p : Palloc.Zones} {size : UInt32} {a : Nat} {s' : Sys} :
      Pages b p → s.alloc b p size=some (a,s') → Step b s (.alloc p size) s'
  | free {ptr : Nat} : Freeable s ptr → Step b s (.free ptr) (s.free b ptr)

/-- A free block of the size that a request needs. -/
def Sys.Room (b : Build) (s : Sys) (x : Block) : Prop :=
  s.arena.ready=true ∧ x.bytes∣x.addr ∧ s.arena.arenaBase≤x.addr ∧
    x.addr+x.bytes ≤ s.arena.arenaBase+b.arenaBytes ∧ ∀y∈s.live,x.Apart y

/-- What holds between calls, and what the next call does. -/
structure Sound (b : Build) (s : Sys) : Prop where
  apart : s.live.Pairwise Block.Apart
  least : ∀x∈s.live,IsLeast {v | v.isPowerOfTwo ∧ max x.size.toNat minBlock≤v} x.bytes
  inside : ∀x∈s.live,s.arena.ready=true ∧ x.bytes∣x.addr ∧ s.arena.arenaBase≤x.addr ∧
    x.addr+x.bytes ≤ s.arena.arenaBase+b.arenaBytes
  alloc : ∀p size,Pages b p → ∃a s',s.alloc b p size=some (a,s') ∧
    (size≠0 → a=0 → ∀addr,¬s'.Room b ⟨addr,size⟩)
  free : ∀ptr,ptr < s.arena.arenaBase+2^37 → (∀x∈s.live,¬(x.addr≤ptr ∧ ptr<x.addr+x.bytes)) →
    s.free b ptr=s
  empty : s.arena.ready=true → s.live=[] → ∀i<b.nodeCount,∀f,
    s.arena.longest i=reserveLoop b.nodeCount 0 (b.numLeaves*2) f i

/-- The blocks that are used, as the tree has them. -/
def usedBy (base : Nat) (live : List Block) (k p : Nat) : Bool :=
  live.any fun x => x.order==k && x.addr==base+p*(2^k*minBlock)

/-- A block stands at block p of its height. -/
def Block.At (b : Build) (base : Nat) (x : Block) (p : Nat) : Prop :=
  x.order≤b.order ∧ p<2^(b.order-x.order) ∧ x.addr=base+p*(2^x.order*minBlock)

structure Held (b : Build) (s : Sys) : Prop where
  base : s.arena.arenaBase≠0
  aligned : b.arenaBytes∣s.arena.arenaBase
  place : ∀x∈s.live,∃p,x.At b s.arena.arenaBase p
  apart : s.live.Pairwise Block.Apart
  shows : Shows b.order (usedBy s.arena.arenaBase s.live) s.arena.longest

structure Inv (b : Build) (s : Sys) : Prop where
  held : s.arena.ready=true → Held b s
  none : s.arena.ready=false → s.live=[]

section Units

variable {b : Build} {base : Nat} {x y : Block} {p q m : Nat}

theorem usedBy_iff {live : List Block} {k p : Nat} :
    usedBy base live k p=true ↔ ∃x∈live,x.order=k ∧ x.addr=base+p*(2^k*minBlock) := by
  simp only [usedBy,List.any_eq_true,Bool.and_eq_true,beq_iff_eq]

theorem Block.At.unit (h : x.At b base p) :
    Within 0 m x.order p ↔ x.addr≤base+m*minBlock ∧ base+m*minBlock<x.addr+x.bytes := by
  have ha := h.2.2
  rw [within_zero,ha,x.bytes_eq,← Nat.mul_assoc,Nat.add_mul,Nat.one_mul]
  generalize p*2^x.order=P
  generalize 2^x.order=w
  rw [minBlock]
  omega

theorem Block.At.shared (hx : x.At b base p) (hy : y.At b base q) (h : ¬x.Apart y) :
    ∃m,Within 0 m x.order p ∧ Within 0 m y.order q := by
  have hax := hx.2.2
  have hay := hy.2.2
  have hbx := x.bytes_eq
  have hby := y.bytes_eq
  have hpx := x.bytes_pos
  have hpy := y.bytes_pos
  rw [Block.Apart] at h
  refine ⟨max (p*2^x.order) (q*2^y.order),hx.unit.2 ?_,hy.unit.2 ?_⟩ <;>
  · rw [← Nat.mul_assoc] at hax hay
    generalize p*2^x.order=P at *
    generalize q*2^y.order=Q at *
    rw [minBlock] at *
    omega

theorem Block.At.not_apart (hx : x.At b base p) (hy : y.At b base q)
    (h1 : Within 0 m x.order p) (h2 : Within 0 m y.order q) : ¬x.Apart y := by
  have hm1 := hx.unit.1 h1
  have hm2 := hy.unit.1 h2
  rw [Block.Apart]
  omega

theorem Block.at_of_aligned (ho : x.order≤b.order) (ha : b.arenaBytes∣base) (hd : x.bytes∣x.addr)
    (hlo : base≤x.addr) (hhi : x.addr+x.bytes≤base+b.arenaBytes) : ∃q,x.At b base q := by
  have hbase : x.bytes∣base := by
    rw [x.bytes_eq]
    exact Nat.dvd_trans (Nat.mul_dvd_mul_right (Nat.pow_dvd_pow 2 ho) _) ha
  obtain ⟨q,hq⟩ := Nat.dvd_sub hd hbase
  rw [Nat.mul_comm] at hq
  refine ⟨q,ho,?_,?_⟩
  · have h1 : (q+1)*2^x.order≤2^(b.order-x.order)*2^x.order := by
      rw [← Nat.pow_add,Nat.sub_add_cancel ho]
      have h32 : (q+1)*2^x.order*minBlock≤2^b.order*minBlock := by
        rw [Nat.mul_assoc,← x.bytes_eq,Nat.add_mul,Nat.one_mul,← hq]
        change _≤b.arenaBytes
        omega
      exact Nat.le_of_mul_le_mul_right h32 (by decide)
    exact Nat.le_of_mul_le_mul_right h1 (Nat.two_pow_pos _)
  · rw [← x.bytes_eq,← hq]
    omega

theorem Block.At.unique (hx : x.At b base p) (h : x.addr=base+q*(2^x.order*minBlock)) : p=q := by
  have ha := hx.2.2
  have hpos : 0<2^x.order*minBlock := by
    have := Nat.two_pow_pos x.order
    rw [minBlock]; omega
  exact Nat.eq_of_mul_eq_mul_right hpos (by omega)

theorem within_first (k p : Nat) : Within 0 (p*2^k) k p :=
  within_zero.2 ⟨Nat.le_refl _,by have := Nat.two_pow_pos k; rw [Nat.add_mul,Nat.one_mul]; omega⟩

end Units

end

end LugalOS.Balloc

