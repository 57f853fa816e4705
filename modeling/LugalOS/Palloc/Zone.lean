import LugalOS.Lib.Bitmap
import LugalOS.Lib.Serial

namespace LugalOS.Palloc

open Bitmap Serial

def pageSize : Nat := 4096

/-- One contiguous range of pages and its bitmap, whose capacity is the board's: 8192 pages on the
largest. -/
structure Zone where
  base : Nat
  numPages : Nat
  bitmap : Bits
  maxPages : Nat
  small : maxPages≤8192
  usedPages : UInt32
  peakUsed : UInt32

/-- The zone's first page rounds up and its end down, on addresses of w bits. -/
def zoneSetup (w : Nat) (z : Zone) (start stop : Nat) : Zone :=
  let s := (start+(pageSize-1))%2^w/pageSize*pageSize
  let e := stop/pageSize*pageSize
  {z with
    base := s
    numPages := if e ≤ s then 0 else min ((e-s)/pageSize) z.maxPages
    bitmap := fun _ => 0
    usedPages := 0
    peakUsed := 0}

/-- The first set bit of the n from i on. -/
def firstSet (z : Zone) (i n : Nat) : Option Nat :=
  (List.range n).find? fun j => bitGet z.bitmap (i+j)

/-- The scan of zone_alloc from index i. The index moves past a set bit; what phase and n allow
stays far below 2^32. -/
def firstFit (z : Zone) (n : Nat) (alignPages phase : UInt32) : Nat → Nat → Option Nat
  | 0,_ => none
  | fuel+1,i =>
    if i+n≤z.numPages then
      if (i.toUInt32-phase)&&&(alignPages-1)≠0 then firstFit z n alignPages phase fuel (i+1)
      else
        match firstSet z i n with
        | some j => firstFit z n alignPages phase fuel (i+j+1)
        | none => some i
    else none

/-- How far the first aligned page is from the zone's base, in 32 bits as the source has it. -/
def alignPhase (z : Zone) (alignPages : UInt32) : UInt32 :=
  let alignBytes := alignPages*pageSize.toUInt32
  let skew := (z.base&&&(alignBytes-1).toNat).toUInt32/pageSize.toUInt32
  if skew≠0 then alignPages-skew else 0

def claimRun (z : Zone) (i : Nat) (n : UInt32) : Zone :=
  let used := z.usedPages+n
  {z with
    bitmap := setRun z.bitmap i n.toNat
    usedPages := used
    peakUsed := if z.peakUsed<used then used else z.peakUsed}

/-- The run's address, 0 for NULL, and the zone after it. -/
def zoneAlloc (z : Zone) (n alignPages : UInt32) : Nat × Zone :=
  if n=0 ∨ z.numPages < n.toNat then (0,z)
  else if alignPages=0 ∨ alignPages&&&(alignPages-1)≠0 then (0,z)
  else
    let phase := alignPhase z alignPages
    match firstFit z n.toNat alignPages phase (z.numPages+1) phase.toNat with
    | some i => (z.base+i*pageSize,claimRun z i n)
    | none => (0,z)

/-- The loop of palloc_free: it counts down only the pages that were allocated. -/
def freeRun (z : Zone) (i : Nat) : Nat → Zone
  | 0 => z
  | n+1 =>
    let z := freeRun z i n
    if bitGet z.bitmap (i+n) then
      {z with bitmap := bitClear z.bitmap (i+n), usedPages := z.usedPages-1}
    else z

/-- The end of the zone: the address after its last page. -/
def Zone.stop (z : Zone) : Nat := z.base+z.numPages*pageSize

/-- n free pages in a row at a multiple of the alignment. -/
def Zone.Fits (z : Zone) (n align : Nat) : Prop :=
  ∃k,k+n≤z.numPages ∧ align*pageSize∣z.base+k*pageSize ∧
    ∀j,k≤j → j<k+n → bitGet z.bitmap j=false

/-- The low 32 bits of the base are enough for this alignment, and the first page is not NULL. -/
def Zone.Plain (z : Zone) (alignPages : UInt32) : Prop :=
  (z.numPages≠0 → z.base≠0) ∧ z.base%(alignPages.toNat*pageSize)<2^32

/-- A zone at rest. -/
structure Zone.Ok (z : Zone) : Prop where
  pages : z.numPages≤z.maxPages
  base : pageSize∣z.base
  used : z.usedPages.toNat=(bitsSet z.bitmap z.numPages).card
  peak : z.usedPages.toNat≤z.peakUsed.toNat

section
variable {z : Zone} {n i : Nat} {a p : UInt32}

theorem Zone.Ok.pages_lt (h : z.Ok) : z.numPages≤8192 := h.pages.trans z.small

theorem firstSet_some {j : Nat} (h : firstSet z i n=some j) :
    j<n ∧ bitGet z.bitmap (i+j)=true := by
  refine ⟨?_,List.find?_some (p := fun j => bitGet z.bitmap (i+j)) h⟩
  simpa using List.mem_of_find?_eq_some h

theorem firstSet_none (h : firstSet z i n=none) {j : Nat} (hj : i≤j) (hn : j < i+n) :
    bitGet z.bitmap j=false := by
  have := List.find?_eq_none.mp h (j-i) (by simp; omega)
  rw [Nat.add_sub_cancel' hj] at this
  simpa using this

def Lined (a p : UInt32) (i : Nat) : Prop := (i.toUInt32-p)&&&(a-1)=0

theorem firstFit_some {fuel k : Nat} (h : firstFit z n a p fuel i=some k) :
    i≤k ∧ k+n≤z.numPages ∧ Lined a p k ∧ ∀j,k≤j → j<k+n → bitGet z.bitmap j=false := by
  induction fuel generalizing i with
  | zero => cases h
  | succ fuel ih =>
    rw [firstFit] at h
    split_ifs at h with hn hl
    · obtain ⟨hik,hk⟩ := ih h
      exact ⟨by omega,hk⟩
    · cases hs : firstSet z i n with
      | some j =>
        rw [hs] at h
        obtain ⟨hik,hk⟩ := ih h
        exact ⟨by omega,hk⟩
      | none =>
        rw [hs] at h
        cases h
        exact ⟨Nat.le_refl _,hn,not_not.mp hl,fun j hj hjn => firstSet_none hs hj hjn⟩

theorem firstFit_none {fuel : Nat} (hf : z.numPages<fuel+i) (h : firstFit z n a p fuel i=none)
    {k : Nat} (hik : i≤k) (hk : k+n≤z.numPages) (hl : Lined a p k) :
    ∃j,k≤j ∧ j<k+n ∧ bitGet z.bitmap j=true := by
  induction fuel generalizing i with
  | zero => omega
  | succ fuel ih =>
    rw [firstFit,if_pos (by omega)] at h
    split_ifs at h with hli
    · have hne : i≠k := fun he => hli (he ▸ hl)
      exact ih (by omega) h (by omega)
    · cases hs : firstSet z i n with
      | none =>
        rw [hs] at h
        cases h
      | some j =>
        rw [hs] at h
        obtain ⟨hjn,hset⟩ := firstSet_some hs
        by_cases hkj : i+j<k
        · exact ih (by omega) h hkj
        · exact ⟨i+j,by omega,by omega,hset⟩

theorem pow2_of_and {a : UInt32} (h0 : a≠0) (h : a&&&(a-1)=0) : ∃k<32,a.toNat=2^k := by
  have hn : a.toNat≠0 := fun he => h0 (UInt32.toNat_inj.mp he)
  have hand : a.toNat&&&(a.toNat-1)=0 := by
    have h1 : (1 : UInt32)≤a := UInt32.le_iff_toNat_le.mpr (Nat.one_le_iff_ne_zero.mpr hn)
    have := congrArg UInt32.toNat h
    rwa [UInt32.toNat_and,UInt32.toNat_sub_of_le _ _ h1] at this
  obtain ⟨k,hk⟩ := (Nat.and_sub_one_eq_zero_iff_isPowerOfTwo hn).mp hand
  refine ⟨k,?_,hk⟩
  have := a.toNat_lt
  rw [hk] at this
  exact (Nat.pow_lt_pow_iff_right (by decide)).mp this

theorem alignMask {k : Nat} (hk : k<32) (ha : a.toNat=2^k) :
    (a*pageSize.toUInt32-1).toNat=2^min (k+12) 32-1 := by
  have hm : (a*pageSize.toUInt32).toNat=2^(k+12)%2^32 := by
    rw [UInt32.toNat_mul,ha,pow_add]
    rfl
  rcases Nat.lt_or_ge k 20 with hlt | hge
  · have hlt' : 2^(k+12)<2^32 := Nat.pow_lt_pow_right (by decide) (by omega)
    rw [Nat.mod_eq_of_lt hlt'] at hm
    have h1 : (1 : UInt32)≤a*pageSize.toUInt32 :=
      UInt32.le_iff_toNat_le.mpr (by rw [hm]; exact Nat.one_le_two_pow)
    rw [UInt32.toNat_sub_of_le _ _ h1,hm,Nat.min_eq_left (by omega)]
    rfl
  · have h0 : (a*pageSize.toUInt32).toNat=0 := by
      rw [hm,show k+12=32+(k-20) by omega,pow_add,Nat.mul_mod_right]
    rw [UInt32.toNat_inj.mp (h0.trans UInt32.toNat_zero.symm),Nat.min_eq_right (by omega)]
    rfl

theorem alignPhase_toNat {k b : Nat} (hk : k<32) (ha : a.toNat=2^k) (hb : z.base=b*pageSize)
    (hp : z.base%(a.toNat*pageSize)<2^32) :
    (alignPhase z a).toNat=if b%2^k=0 then 0 else 2^k-b%2^k := by
  have hmod : z.base%2^min (k+12) 32=b%2^k*pageSize := by
    have hfull : z.base%2^(k+12)=b%2^k*pageSize := by
      rw [hb,pow_add]
      exact Nat.mul_mod_mul_right pageSize b (2^k)
    rcases Nat.lt_or_ge k 20 with hlt | hge
    · rw [Nat.min_eq_left (by omega),hfull]
    · rw [ha,show 2^k*pageSize=2^(k+12) from (pow_add 2 k 12).symm] at hp
      have hd : 2^32∣2^(k+12) := pow_dvd_pow 2 (by omega)
      rw [Nat.min_eq_right (by omega),← hfull,← Nat.mod_mod_of_dvd z.base hd,
        Nat.mod_eq_of_lt hp]
  have hlt : b%2^k*pageSize<2^32 := by
    rw [← hmod]
    exact (Nat.mod_lt _ (Nat.two_pow_pos _)).trans_le (Nat.pow_le_pow_right (by decide) (by omega))
  have hk32 : 2^k<2^32 := Nat.pow_lt_pow_right (by decide) hk
  have hbk : b%2^k<2^k := Nat.mod_lt _ (Nat.two_pow_pos k)
  have hskew : ((z.base&&&(a*pageSize.toUInt32-1).toNat).toUInt32/pageSize.toUInt32).toNat=
      b%2^k := by
    rw [alignMask hk ha,Nat.and_two_pow_sub_one_eq_mod,hmod,UInt32.toNat_div,
      toUInt32_toNat hlt,toUInt32_toNat (by decide)]
    exact Nat.mul_div_cancel _ (by decide)
  rw [alignPhase]
  by_cases h0 : b%2^k=0
  · rw [if_pos h0,if_neg]
    · rfl
    · rw [not_not]
      exact UInt32.toNat_inj.mp (hskew.trans h0)
  · rw [if_neg h0,if_pos fun he => h0 (by rw [← hskew,he]; rfl),
      UInt32.toNat_sub_of_le _ _ (UInt32.le_iff_toNat_le.mpr (by omega)),hskew,ha]

theorem lined_iff {k b i : Nat} (ha : a.toNat=2^k)
    (hp : p.toNat=if b%2^k=0 then 0 else 2^k-b%2^k) (hpi : p.toNat ≤ i) (hi : i<2^32) :
    Lined a p i ↔ 2^k∣b+i := by
  have h1 : (1 : UInt32)≤a := by
    rw [UInt32.le_iff_toNat_le,ha]
    exact Nat.one_le_two_pow
  have hpos := Nat.two_pow_pos k
  have hbk : b%2^k<2^k := Nat.mod_lt _ hpos
  rw [Lined,← UInt32.toNat_inj,UInt32.toNat_and,UInt32.toNat_sub_of_le _ _ h1,ha,
    UInt32.toNat_sub_of_le _ _ (UInt32.le_iff_toNat_le.mpr (by rw [toUInt32_toNat hi]; exact hpi)),
    toUInt32_toNat hi]
  change (i-p.toNat)&&&(2^k-1)=0 ↔ _
  rw [Nat.and_two_pow_sub_one_eq_mod,← Nat.dvd_iff_mod_eq_zero]
  have hbp : 2^k∣b+p.toNat := by
    rw [hp]
    have hb := Nat.div_add_mod b (2^k)
    split_ifs with h0
    · exact Nat.dvd_of_mod_eq_zero h0
    · exact ⟨b/2^k+1,by rw [Nat.mul_add,Nat.mul_one]; omega⟩
  rw [show b+i=(b+p.toNat)+(i-p.toNat) by omega]
  exact ((Nat.dvd_add_right hbp)).symm

theorem phase_le {k b i : Nat} (hp : p.toNat=if b%2^k=0 then 0 else 2^k-b%2^k)
    (hd : 2^k∣b+i) : p.toNat ≤ i := by
  rw [hp]
  split_ifs with h0
  · exact Nat.zero_le i
  · by_contra hlt
    have hbk : b%2^k<2^k := Nat.mod_lt _ (Nat.two_pow_pos k)
    have hs : (b+i)%2^k=b%2^k+i := by
      rw [Nat.add_mod,Nat.mod_eq_of_lt (show i<2^k by omega),Nat.mod_eq_of_lt (by omega)]
    have := Nat.mod_eq_zero_of_dvd hd
    omega

/-- The run of zone_alloc: NULL where nothing fits, else a run of clear pages at the alignment. -/
inductive Alloced (z : Zone) (n a : UInt32) : Nat × Zone → Prop
  | none : (n≠0 → a.toNat.isPowerOfTwo → ¬z.Fits n.toNat a.toNat) → Alloced z n a (0,z)
  | some (i : Nat) : n≠0 → i+n.toNat≤z.numPages → a.toNat*pageSize∣z.base+i*pageSize →
      (∀j,i≤j → j < i+n.toNat → bitGet z.bitmap j=false) →
      Alloced z n a (z.base+i*pageSize,claimRun z i n)

theorem zoneAlloc_spec {n a : UInt32} (h : z.Ok) (hp : z.Plain a) :
    Alloced z n a (zoneAlloc z n a) := by
  rw [zoneAlloc]
  by_cases h1 : n=0 ∨ z.numPages < n.toNat
  · rw [if_pos h1]
    refine .none fun hn _ => ?_
    rintro ⟨k,hk,_⟩
    have := h1.resolve_left hn
    omega
  rw [if_neg h1]
  rw [not_or,Nat.not_lt] at h1
  by_cases h2 : a=0 ∨ a&&&(a-1)≠0
  · rw [if_pos h2]
    refine .none fun _ ha => ?_
    obtain ⟨h0,hand⟩ := Nat.ne_zero_and_sub_one_eq_zero_iff_isPowerOfTwo.mpr ha
    exfalso
    rcases h2 with rfl | h2
    · exact h0 rfl
    · refine h2 (UInt32.toNat_inj.mp ?_)
      have h1 : (1 : UInt32)≤a := UInt32.le_iff_toNat_le.mpr (Nat.one_le_iff_ne_zero.mpr h0)
      rw [UInt32.toNat_and,UInt32.toNat_sub_of_le _ _ h1]
      exact hand
  rw [if_neg h2]
  rw [not_or,not_not] at h2
  obtain ⟨k,hk,ha⟩ := pow2_of_and h2.1 h2.2
  obtain ⟨b,hb⟩ := h.base
  rw [Nat.mul_comm] at hb
  have hph := alignPhase_toNat hk ha hb hp.2
  have hpages := h.pages_lt
  -- an index of the zone is lined up exactly where its page is aligned
  have hline {i : Nat} (hpi : (alignPhase z a).toNat ≤ i) (hi : i≤z.numPages) :
      Lined a (alignPhase z a) i ↔ a.toNat*pageSize∣z.base+i*pageSize := by
    rw [lined_iff ha hph hpi (by omega),hb,ha,← Nat.add_mul]
    exact (Nat.mul_dvd_mul_iff_right (by decide)).symm
  dsimp only
  split
  · next i hf =>
    obtain ⟨hpi,hin,hl,hc⟩ := firstFit_some hf
    exact .some i h1.1 hin ((hline hpi (by omega)).mp hl) hc
  · next hf =>
    refine .none fun hn _ => ?_
    rintro ⟨i,hin,hd,hc⟩
    have hpi : (alignPhase z a).toNat ≤ i := by
      rw [hb,ha,← Nat.add_mul] at hd
      exact phase_le hph ((Nat.mul_dvd_mul_iff_right (by decide)).mp hd)
    obtain ⟨j,hj,hjn,hset⟩ :=
      firstFit_none (by omega) hf hpi hin ((hline hpi (by omega)).mpr hd)
    rw [hc j hj hjn] at hset
    cases hset

theorem card_le (m : Bits) (k : Nat) : (bitsSet m k).card≤k := by
  have := Finset.card_filter_le (Finset.range k) fun i => bitGet m i=true
  rwa [Finset.card_range] at this

theorem claimRun_ok {n : UInt32} (h : z.Ok) (hi : i+n.toNat≤z.numPages)
    (hc : ∀j,i≤j → j < i+n.toNat → bitGet z.bitmap j=false) :
    (claimRun z i n).Ok ∧ (claimRun z i n).usedPages.toNat=z.usedPages.toNat+n.toNat := by
  have hcard := card_setRun hi hc
  have hle := card_le (setRun z.bitmap i n.toNat) z.numPages
  have hpages := h.pages_lt
  have hused : (z.usedPages+n).toNat=z.usedPages.toNat+n.toNat := by
    rw [UInt32.toNat_add,h.used]
    omega
  refine ⟨⟨h.pages,h.base,?_,?_⟩,hused⟩
  · change (z.usedPages+n).toNat=_
    rw [hused,h.used]
    exact hcard.symm
  · dsimp only [claimRun]
    split_ifs with hlt
    · exact Nat.le_refl _
    · rwa [UInt32.lt_iff_toNat_lt,Nat.not_lt] at hlt

theorem claimRun_peak (n : UInt32) :
    (claimRun z i n).peakUsed.toNat=max z.peakUsed.toNat (claimRun z i n).usedPages.toNat := by
  dsimp only [claimRun]
  split_ifs with hlt
  · rw [UInt32.lt_iff_toNat_lt] at hlt
    omega
  · rw [UInt32.lt_iff_toNat_lt] at hlt
    omega

theorem freeRun_spec (h : z.Ok) (hi : i+n≤z.numPages) :
    (freeRun z i n).Ok ∧ (freeRun z i n).base=z.base ∧ (freeRun z i n).numPages=z.numPages ∧
    (freeRun z i n).peakUsed=z.peakUsed ∧
    ∀j,bitGet (freeRun z i n).bitmap j=(decide (j < i ∨ i+n≤j) && bitGet z.bitmap j) := by
  induction n with
  | zero =>
    refine ⟨h,rfl,rfl,rfl,fun j => ?_⟩
    rw [decide_eq_true (by omega),Bool.true_and]
    rfl
  | succ n ih =>
    obtain ⟨hok,hb,hn,hp,hg⟩ := ih (by omega)
    rw [freeRun]
    split_ifs with hset
    · have hcard := card_bitClear (n := z.numPages) (by omega : i+n<z.numPages) hset
      have hle := card_le (freeRun z i n).bitmap z.numPages
      have hpages := h.pages_lt
      have hu := hok.used
      rw [hn] at hu
      have h1 : (1 : UInt32)≤(freeRun z i n).usedPages := by
        rw [UInt32.le_iff_toNat_le,hu]
        exact Nat.one_le_iff_ne_zero.mpr (by omega)
      have hsub := UInt32.toNat_sub_of_le _ _ h1
      have hone : (1 : UInt32).toNat=1 := rfl
      refine ⟨⟨hok.pages,hok.base,?_,?_⟩,hb,hn,hp,fun j => ?_⟩
      · dsimp only
        rw [hsub,hn]
        omega
      · have := hok.peak
        dsimp only
        rw [hsub]
        omega
      · dsimp only
        rw [bitGet_bitClear,hg,← Bool.and_assoc]
        congr 1
        rw [Bool.eq_iff_iff]
        simp only [Bool.and_eq_true,decide_eq_true_eq]
        omega
    · refine ⟨hok,hb,hn,hp,fun j => ?_⟩
      rw [hg]
      by_cases hj : j=i+n
      · rw [hg] at hset
        subst hj
        rw [decide_eq_true (by omega),Bool.true_and] at hset
        simp [hset]
      · congr 1
        rw [Bool.eq_iff_iff]
        simp only [decide_eq_true_eq]
        omega

end

end LugalOS.Palloc
