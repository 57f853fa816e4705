import LugalOS.Lib.Run
import LugalOS.Palloc.Zone

namespace LugalOS.Palloc

open Function (update_of_ne update_self update_eq_self)
open Bitmap Run

inductive Which
  | fast
  | bulk
deriving DecidableEq

/-- The two zones; the bulk one is only there on a board that has one. -/
structure Zones where
  zone : Which → Zone
  hasBulk : Bool
  fallbacks : UInt32

/-- What a board is built with. -/
structure Board where
  width : Nat
  wide : width=32 ∨ width=64
  maxPages : Nat
  bulkPages : Option Nat
  psram : Bool
  capPages : Option Nat
  small : maxPages≤8192
  bulkSmall : bulkPages.getD 0≤8192

/-- A zone before its setup: all of it is zero but the bitmap's capacity. -/
def blankZone (maxPages : Nat) (h : maxPages≤8192) : Zone where
  base := 0
  numPages := 0
  bitmap _ := 0
  maxPages := maxPages
  small := h
  usedPages := 0
  peakUsed := 0

def Board.blank (b : Board) : Zones where
  zone
    | .fast => blankZone b.maxPages b.small
    | .bulk => blankZone (b.bulkPages.getD 0) b.bulkSmall
  hasBulk := b.bulkPages.isSome
  fallbacks := 0

def Zones.set (p : Zones) (w : Which) (z : Zone) : Zones :=
  {p with zone := Function.update p.zone w z}

def pallocInitBulk (b : Board) (p : Zones) (start stop : Nat) : Zones :=
  if p.hasBulk then p.set .bulk (zoneSetup b.width (p.zone .bulk) start stop) else p

/-- The end of a heap that is capped at a smaller chip's. -/
def cappedEnd (b : Board) (start stop : Nat) : Nat :=
  match b.capPages with
  | none => stop
  | some cap =>
    let limit := ((start+(pageSize-1))%2^b.width/pageSize*pageSize+cap*pageSize)%2^b.width
    if limit < stop then limit else stop

def pallocInit (b : Board) (p : Zones) (start stop : Nat) : Zones :=
  let stop := cappedEnd b start stop
  let p := p.set .fast (zoneSetup b.width (p.zone .fast) start stop)
  match b.bulkPages with
  | none => p
  | some pages =>
    if b.psram then p
    else
      -- no PSRAM: a stand-in above the fast zone, where there is the memory for it
      let fastEnd := (p.zone .fast).stop%2^b.width
      let want := (fastEnd+pages*pageSize)%2^b.width
      if want ≤ stop/pageSize*pageSize then pallocInitBulk b p fastEnd want else p

def pallocPagesAligned (p : Zones) (n alignPages : UInt32) : Nat × Zones :=
  let (a,z) := zoneAlloc (p.zone .fast) n alignPages
  (a,p.set .fast z)

def pallocPages (p : Zones) (n : UInt32) : Nat × Zones := pallocPagesAligned p n 1

def pallocPagesBulkAligned (p : Zones) (n alignPages : UInt32) : Nat × Zones :=
  if !p.hasBulk || (p.zone .bulk).numPages==0 then pallocPagesAligned p n alignPages
  else
    let (a,z) := zoneAlloc (p.zone .bulk) n alignPages
    let p := p.set .bulk z
    if a≠0 then (a,p)
    else
      let (a,p) := pallocPagesAligned p n alignPages
      if a≠0 then (a,{p with fallbacks := p.fallbacks+1}) else (a,p)

def pallocPagesBulk (p : Zones) (n : UInt32) : Nat × Zones := pallocPagesBulkAligned p n 1

def zoneOf (p : Zones) (addr : Nat) : Option Which :=
  if (p.zone .fast).base≤addr ∧ addr<(p.zone .fast).stop then some .fast
  else if p.hasBulk=true ∧ (p.zone .bulk).numPages≠0 ∧ (p.zone .bulk).base≤addr ∧
      addr<(p.zone .bulk).stop then some .bulk
  else none

def pallocFree (p : Zones) (addr : Nat) (n : UInt32) : Zones :=
  if addr=0 ∨ n=0 then p
  else
    match zoneOf p addr with
    | none => p
    | some w =>
      let z := p.zone w
      let off := addr-z.base
      if off%pageSize≠0 then p
      else
        let idx := off/pageSize
        if z.numPages < idx+n.toNat then p else p.set w (freeRun z idx n.toNat)

inductive Request
  | pages (n : UInt32)
  | aligned (n alignPages : UInt32)
  | bulk (n : UInt32)
  | bulkAligned (n alignPages : UInt32)

namespace Request

def n : Request → UInt32
  | pages n => n
  | aligned n _ => n
  | bulk n => n
  | bulkAligned n _ => n

def align : Request → UInt32
  | pages _ => 1
  | aligned _ a => a
  | bulk _ => 1
  | bulkAligned _ a => a

/-- The zones a request is served from. -/
def tries (r : Request) (w : Which) : Prop :=
  match r with
  | pages _ => w=.fast
  | aligned _ _ => w=.fast
  | bulk _ => True
  | bulkAligned _ _ => True

def serve (p : Zones) : Request → Nat × Zones
  | pages n => pallocPages p n
  | aligned n a => pallocPagesAligned p n a
  | bulk n => pallocPagesBulk p n
  | bulkAligned n a => pallocPagesBulkAligned p n a

end Request

/-- A run of pages that was returned and not freed since, with what it was asked for. -/
structure Run where
  addr : Nat
  n : UInt32
  align : UInt32
deriving DecidableEq

def Run.stop (r : Run) : Nat := r.addr+r.n.toNat*pageSize

def Run.Apart (r r' : Run) : Prop := r.stop ≤ r'.addr ∨ r'.stop ≤ r.addr

instance : Std.Symm Run.Apart := ⟨fun _ _ h => Or.symm h⟩

/-- The runs that are out, and the most pages each zone has had in use. -/
structure World where
  p : Zones
  live : List Run
  top : Which → Nat

inductive Event
  | alloc (r : Request)
  | free (r : Run)
  | initBulk (start stop : Nat)

def World.moved (s : World) (p : Zones) (live : List Run) : World where
  p := p
  live := live
  top w := max (s.top w) (p.zone w).usedPages.toNat

/-- Runs are freed whole and once; the PSRAM, which is no part of the fast zone and not the end of
the address space, is added once. -/
inductive Step (b : Board) (s : World) : Event → World → Prop
  | none (r : Request) : (r.serve s.p).1=0 →
      Step b s (.alloc r) (s.moved (r.serve s.p).2 s.live)
  | some (r : Request) : (r.serve s.p).1≠0 →
      Step b s (.alloc r) (s.moved (r.serve s.p).2 (⟨(r.serve s.p).1,r.n,r.align⟩::s.live))
  | free (r : Run) : r∈s.live →
      Step b s (.free r) (s.moved (pallocFree s.p r.addr r.n) (s.live.erase r))
  | initBulk (start stop : Nat) : (s.p.zone .bulk).numPages=0 → start+pageSize≤2^b.width →
      stop≤(s.p.zone .fast).base ∨ (s.p.zone .fast).stop ≤ start →
      Step b s (.initBulk start stop) (s.moved (pallocInitBulk b s.p start stop) s.live)

def boot (b : Board) (start stop : Nat) : World where
  p := pallocInit b b.blank start stop
  live := []
  top _ := 0

/-- What the allocator promises of a state that a run has reached. -/
structure Sound (s : World) : Prop where
  disjoint : s.live.Pairwise Run.Apart
  inside : ∀r∈s.live,∃w,(s.p.zone w).base ≤ r.addr ∧ r.stop≤(s.p.zone w).stop
  aligned : ∀r∈s.live,r.align.toNat*pageSize∣r.addr
  used : ∀w,(s.p.zone w).usedPages.toNat=
    (bitsSet (s.p.zone w).bitmap (s.p.zone w).numPages).card
  peak : ∀w,(s.p.zone w).peakUsed.toNat=s.top w
  complete : ∀r : Request,(∀w,(s.p.zone w).Plain r.align) → r.n≠0 →
    r.align.toNat.isPowerOfTwo → (r.serve s.p).1=0 →
    ∀w,r.tries w → ¬(s.p.zone w).Fits r.n.toNat r.align.toNat

/-- The request's alignment is one that both zones count right. -/
def Counted (s : World) : Event → Prop
  | .alloc r => ∀w,(s.p.zone w).Plain r.align
  | _ => True

/-- The run lies in the zone, at whole pages. -/
def InZone (z : Zone) (r : Run) : Prop :=
  ∃k,r.addr=z.base+k*pageSize ∧ k+r.n.toNat≤z.numPages

def Covers (r : Run) (page : Nat) : Prop := r.addr≤page ∧ page < r.stop

structure Inv (s : World) : Prop where
  ok : ∀w,(s.p.zone w).Ok
  apart : (s.p.zone .fast).numPages=0 ∨ (s.p.zone .bulk).numPages=0 ∨
    (s.p.zone .fast).stop≤(s.p.zone .bulk).base ∨ (s.p.zone .bulk).stop≤(s.p.zone .fast).base
  absent : s.p.hasBulk=false → (s.p.zone .bulk).numPages=0
  bits : ∀w i,i<(s.p.zone w).numPages → (bitGet (s.p.zone w).bitmap i=true ↔
    ∃r∈s.live,Covers r ((s.p.zone w).base+i*pageSize))
  run : ∀r∈s.live,r.n≠0 ∧ r.addr≠0 ∧ ∃w,InZone (s.p.zone w) r
  disjoint : s.live.Pairwise Run.Apart
  aligned : ∀r∈s.live,r.align.toNat*pageSize∣r.addr
  top : ∀w,(s.p.zone w).peakUsed.toNat=s.top w
  idle : ∀w,(s.p.zone w).numPages=0 → (s.p.zone w).peakUsed=0

theorem pos_of_ne {n : UInt32} (h : n≠0) : 0 < n.toNat :=
  Nat.pos_of_ne_zero fun he => h (UInt32.toNat_inj.mp he)

/-- What a request comes to: nothing fits where it looks, or a zone gives it a run. -/
inductive Served (p : Zones) (r : Request) : Nat × Zones → Prop
  | none (p' : Zones) : p'.zone=p.zone → p'.hasBulk=p.hasBulk →
      (r.n≠0 → r.align.toNat.isPowerOfTwo → ∀w,r.tries w →
        ¬(p.zone w).Fits r.n.toNat r.align.toNat) → Served p r (0,p')
  | some (p' : Zones) (w : Which) (i : Nat) :
      p'.zone=Function.update p.zone w (claimRun (p.zone w) i r.n) → p'.hasBulk=p.hasBulk →
      r.n≠0 → i+r.n.toNat≤(p.zone w).numPages → (p.zone w).base+i*pageSize≠0 →
      r.align.toNat*pageSize∣(p.zone w).base+i*pageSize →
      (∀j,i≤j → j < i+r.n.toNat → bitGet (p.zone w).bitmap j=false) →
      Served p r ((p.zone w).base+i*pageSize,p')

section
variable {p : Zones} {r : Request}

theorem not_fits_empty {z : Zone} {n a : Nat} (h : z.numPages=0) (hn : 0 < n) : ¬z.Fits n a := by
  rintro ⟨k,hk,_⟩
  omega

theorem aligned_served (hok : ∀w,(p.zone w).Ok) (hp : ∀w,(p.zone w).Plain r.align)
    (ht : ∀w,r.tries w → w=.fast ∨ (p.zone w).numPages=0) :
    Served p r (pallocPagesAligned p r.n r.align) := by
  have ha := zoneAlloc_spec (hok .fast) (hp .fast) (n := r.n)
  unfold pallocPagesAligned
  dsimp only
  generalize zoneAlloc (p.zone .fast) r.n r.align=q at ha
  cases ha with
  | none hno =>
    refine .none _ (update_eq_self _ _) rfl fun hn hpow w hw => ?_
    rcases ht w hw with rfl | h0
    · exact hno hn hpow
    · exact not_fits_empty h0 (pos_of_ne hn)
  | some i hn hi hd hc =>
    have hb := (hp .fast).1 (by have := pos_of_ne hn; omega)
    exact .some _ .fast i rfl rfl hn hi (by omega) hd hc

theorem serve_served (hok : ∀w,(p.zone w).Ok) (hp : ∀w,(p.zone w).Plain r.align)
    (habs : p.hasBulk=false → (p.zone .bulk).numPages=0) : Served p r (r.serve p) := by
  have hbulk (ht : ∀w,r.tries w) : Served p r (pallocPagesBulkAligned p r.n r.align) := by
    unfold pallocPagesBulkAligned
    split_ifs with h0
    · refine aligned_served hok hp fun w _ => ?_
      cases w with
      | fast => exact .inl rfl
      | bulk =>
        rw [Bool.or_eq_true,Bool.not_eq_true',beq_iff_eq] at h0
        exact .inr (h0.elim habs id)
    · have ha := zoneAlloc_spec (hok .bulk) (hp .bulk) (n := r.n)
      dsimp only
      generalize zoneAlloc (p.zone .bulk) r.n r.align=q at ha
      cases ha with
      | some i hn hi hd hc =>
        have hb := (hp .bulk).1 (by have := pos_of_ne hn; omega)
        dsimp only
        rw [if_pos (by omega)]
        exact .some _ .bulk i rfl rfl hn hi (by omega) hd hc
      | none hno =>
        dsimp only
        have hset : (p.set .bulk (p.zone .bulk))=p := by
          unfold Zones.set
          rw [update_eq_self]
        rw [if_neg (by simp),hset]
        have ha := zoneAlloc_spec (hok .fast) (hp .fast) (n := r.n)
        unfold pallocPagesAligned
        dsimp only
        generalize zoneAlloc (p.zone .fast) r.n r.align=q at ha
        cases ha with
        | none hno' =>
          dsimp only
          rw [if_neg (by simp)]
          refine .none _ (update_eq_self _ _) rfl fun hn hpow w _ => ?_
          cases w with
          | fast => exact hno' hn hpow
          | bulk => exact hno hn hpow
        | some i hn hi hd hc =>
          have hb := (hp .fast).1 (by have := pos_of_ne hn; omega)
          dsimp only
          rw [if_pos (by omega)]
          exact .some _ .fast i rfl rfl hn hi (by omega) hd hc
  cases r with
  | pages n | aligned n a => exact aligned_served hok hp fun w hw => .inl hw
  | bulk n | bulkAligned n a => exact hbulk fun _ => trivial

end

section
variable {s : World} {b : Board}

theorem Inv.page (h : Inv s) {v w : Which} {i j : Nat} (hi : i<(s.p.zone v).numPages)
    (hj : j<(s.p.zone w).numPages)
    (he : (s.p.zone v).base+i*pageSize=(s.p.zone w).base+j*pageSize) : v=w ∧ i=j := by
  have ha := h.apart
  simp only [Zone.stop,pageSize] at ha he ⊢
  cases v <;> cases w
  · exact ⟨rfl,by omega⟩
  · omega
  · omega
  · exact ⟨rfl,by omega⟩

theorem Inv.marked (h : Inv s) {r : Run} (hr : r∈s.live) {w : Which} {k j : Nat}
    (hk : r.addr=(s.p.zone w).base+k*pageSize) (hn : k+r.n.toNat≤(s.p.zone w).numPages)
    (hj : k≤j) (hjn : j<k+r.n.toNat) : bitGet (s.p.zone w).bitmap j=true := by
  refine (h.bits w j (by omega)).mpr ⟨r,hr,?_⟩
  simp only [Covers,Run.stop,pageSize] at hk ⊢
  omega

theorem Inv.apart_clear (h : Inv s) {w : Which} {i n : Nat} (hn : 0<n)
    (hi : i+n≤(s.p.zone w).numPages) (hc : ∀j,i≤j → j < i+n → bitGet (s.p.zone w).bitmap j=false)
    {r : Run} (hr : r∈s.live) : (s.p.zone w).base+i*pageSize+n*pageSize ≤ r.addr ∨
      r.stop≤(s.p.zone w).base+i*pageSize := by
  obtain ⟨hrn,_,v,k,hk,hkn⟩ := h.run r hr
  have hpos := pos_of_ne hrn
  by_contra hno
  -- the later of the two first pages is in both runs
  have hmeet : ∃j k',i≤j ∧ j < i+n ∧ k≤k' ∧ k'<k+r.n.toNat ∧
      (s.p.zone w).base+j*pageSize=(s.p.zone v).base+k'*pageSize := by
    obtain ⟨bw,hbw⟩ := (h.ok w).base
    obtain ⟨bv,hbv⟩ := (h.ok v).base
    simp only [Run.stop,pageSize] at hno hk hbw hbv ⊢
    rcases Nat.le_total (bw+i) (bv+k) with hle | hle
    · exact ⟨bv+k-bw,k,by omega,by omega,by omega,by omega,by omega⟩
    · exact ⟨i,bw+i-bv,by omega,by omega,by omega,by omega,by omega⟩
  obtain ⟨j,k',hj,hjn,hk',hkn',he⟩ := hmeet
  obtain ⟨rfl,rfl⟩ := h.page (by omega : j<(s.p.zone w).numPages)
    (by omega : k'<(s.p.zone v).numPages) he
  have := h.marked hr hk hkn hk' hkn'
  rw [hc j hj hjn] at this
  cases this

theorem Inv.same (h : Inv s) {p : Zones} (hz : p.zone=s.p.zone) (hb : p.hasBulk=s.p.hasBulk) :
    Inv (s.moved p s.live) := by
  have htop (w : Which) : (s.moved p s.live).top w=s.top w := by
    have := (h.ok w).peak
    have := h.top w
    dsimp only [World.moved]
    rw [hz]
    omega
  constructor
  · rw [World.moved,hz]
    exact h.ok
  · rw [World.moved,hz]
    exact h.apart
  · rw [World.moved,hz,hb]
    exact h.absent
  · rw [World.moved,hz]
    exact h.bits
  · rw [World.moved,hz]
    exact h.run
  · exact h.disjoint
  · exact h.aligned
  · intro w
    rw [htop]
    dsimp only [World.moved]
    rw [hz]
    exact h.top w
  · rw [World.moved,hz]
    exact h.idle

theorem update_place {p : Zones} {w : Which} {z : Zone}
    (hz : p.zone=Function.update s.p.zone w z) (hb : z.base=(s.p.zone w).base)
    (hn : z.numPages=(s.p.zone w).numPages) (v : Which) :
    (p.zone v).base=(s.p.zone v).base ∧ (p.zone v).numPages=(s.p.zone v).numPages := by
  rw [hz]
  by_cases hv : v=w
  · rw [hv,update_self]
    exact ⟨hb,hn⟩
  · rw [update_of_ne hv]
    exact ⟨rfl,rfl⟩

theorem Inv.alloc (h : Inv s) {p : Zones} {w : Which} {i : Nat} {n a : UInt32}
    (hz : p.zone=Function.update s.p.zone w (claimRun (s.p.zone w) i n))
    (hb : p.hasBulk=s.p.hasBulk) (hn : n≠0) (hi : i+n.toNat≤(s.p.zone w).numPages)
    (h0 : (s.p.zone w).base+i*pageSize≠0)
    (hd : a.toNat*pageSize∣(s.p.zone w).base+i*pageSize)
    (hc : ∀j,i≤j → j < i+n.toNat → bitGet (s.p.zone w).bitmap j=false) :
    Inv (s.moved p (⟨(s.p.zone w).base+i*pageSize,n,a⟩::s.live)) := by
  have hpos := pos_of_ne hn
  obtain ⟨hok,hused⟩ := claimRun_ok (h.ok w) hi hc
  have hbase (v : Which) : (p.zone v).base=(s.p.zone v).base := (update_place hz rfl rfl v).1
  have hnum (v : Which) : (p.zone v).numPages=(s.p.zone v).numPages :=
    (update_place hz rfl rfl v).2
  constructor
  · intro v
    dsimp only [World.moved]
    rw [hz]
    by_cases hv : v=w
    · rw [hv,update_self]
      exact hok
    · rw [update_of_ne hv]
      exact h.ok v
  · dsimp only [World.moved,Zone.stop]
    rw [hbase,hbase,hnum,hnum]
    exact h.apart
  · dsimp only [World.moved]
    rw [hb,hnum]
    exact h.absent
  · intro v j hj
    dsimp only [World.moved] at hj ⊢
    rw [hnum] at hj
    rw [hbase]
    have hnew : Covers ⟨(s.p.zone w).base+i*pageSize,n,a⟩ ((s.p.zone v).base+j*pageSize) ↔
        v=w ∧ i≤j ∧ j < i+n.toNat := by
      have hap := h.apart
      simp only [Covers,Run.stop,Zone.stop,pageSize] at hap ⊢
      cases v <;> cases w <;> simp only [true_and,reduceCtorEq,false_and,iff_false] <;> omega
    simp only [List.mem_cons,exists_eq_or_imp,hnew,hz]
    by_cases hv : v=w
    · subst hv
      rw [update_self,← h.bits v j hj]
      simp [claimRun]
    · rw [update_of_ne hv,h.bits v j hj]
      simp [hv]
  · intro r hr
    rcases List.mem_cons.mp hr with rfl | hr
    · refine ⟨hn,h0,w,i,?_,?_⟩
      · dsimp only [World.moved]
        rw [hbase]
      · dsimp only [World.moved]
        rw [hnum]
        exact hi
    · obtain ⟨hrn,hr0,v,k,hk,hkn⟩ := h.run r hr
      refine ⟨hrn,hr0,v,k,?_,?_⟩
      · dsimp only [World.moved]
        rw [hbase]
        exact hk
      · dsimp only [World.moved]
        rw [hnum]
        exact hkn
  · exact List.pairwise_cons.mpr ⟨fun r hr => h.apart_clear hpos hi hc hr,h.disjoint⟩
  · intro r hr
    rcases List.mem_cons.mp hr with rfl | hr
    · exact hd
    · exact h.aligned r hr
  · intro v
    dsimp only [World.moved]
    rw [hz]
    have htop := h.top v
    by_cases hv : v=w
    · subst hv
      rw [update_self,claimRun_peak,htop]
    · have := (h.ok v).peak
      rw [update_of_ne hv]
      omega
  · intro v hv
    dsimp only [World.moved] at hv ⊢
    rw [hnum] at hv
    rw [hz]
    by_cases hvw : v=w
    · subst hvw
      omega
    · rw [update_of_ne hvw]
      exact h.idle v hv

theorem Inv.pallocFree_run (h : Inv s) {r : Run} (hr : r∈s.live) {w : Which} {k : Nat}
    (hk : r.addr=(s.p.zone w).base+k*pageSize) (hn : k+r.n.toNat≤(s.p.zone w).numPages) :
    pallocFree s.p r.addr r.n=s.p.set w (freeRun (s.p.zone w) k r.n.toNat) := by
  obtain ⟨hrn,hr0,_⟩ := h.run r hr
  have hpos := pos_of_ne hrn
  have hin : (s.p.zone w).base ≤ r.addr ∧ r.addr < (s.p.zone w).stop := by
    simp only [Zone.stop,pageSize] at hk ⊢
    omega
  have hzone : zoneOf s.p r.addr=some w := by
    rw [zoneOf]
    cases w with
    | fast => rw [if_pos hin]
    | bulk =>
      have hbulk : s.p.hasBulk=true := by
        by_contra hb
        have := h.absent (Bool.eq_false_of_not_eq_true hb)
        omega
      have hfast : ¬((s.p.zone .fast).base ≤ r.addr ∧ r.addr < (s.p.zone .fast).stop) := by
        have := h.apart
        simp only [Zone.stop,pageSize] at this hin ⊢
        omega
      rw [if_neg hfast,if_pos ⟨hbulk,by omega,hin⟩]
  have hoff : r.addr-(s.p.zone w).base=k*pageSize := by omega
  rw [pallocFree,if_neg (not_or.mpr ⟨hr0,hrn⟩),hzone]
  dsimp only
  rw [hoff,if_neg (by simp [pageSize]),Nat.mul_div_cancel k (by decide),if_neg (by omega)]

theorem Inv.nodup (h : Inv s) : s.live.Nodup := by
  refine h.disjoint.imp_of_mem ?_
  rintro r r' hr _ hd rfl
  have := pos_of_ne (h.run r hr).1
  simp only [Run.Apart,Run.stop,pageSize] at hd
  omega

theorem Inv.free (h : Inv s) {r : Run} (hr : r∈s.live) :
    Inv (s.moved (pallocFree s.p r.addr r.n) (s.live.erase r)) := by
  obtain ⟨hrn,_,w,k,hk,hkn⟩ := h.run r hr
  obtain ⟨hok,hbase,hnum,hpeak,hbits⟩ := freeRun_spec (h.ok w) hkn
  rw [h.pallocFree_run hr hk hkn]
  have hz : (s.p.set w (freeRun (s.p.zone w) k r.n.toNat)).zone=
      Function.update s.p.zone w (freeRun (s.p.zone w) k r.n.toNat) := rfl
  have hb : (s.p.set w (freeRun (s.p.zone w) k r.n.toNat)).hasBulk=s.p.hasBulk := rfl
  generalize s.p.set w (freeRun (s.p.zone w) k r.n.toNat)=p at hz hb
  have hbase' (v : Which) : (p.zone v).base=(s.p.zone v).base := (update_place hz hbase hnum v).1
  have hnum' (v : Which) : (p.zone v).numPages=(s.p.zone v).numPages :=
    (update_place hz hbase hnum v).2
  have hzone (v : Which) : (p.zone v).Ok ∧ (p.zone v).peakUsed=(s.p.zone v).peakUsed := by
    rw [hz]
    by_cases hv : v=w
    · rw [hv,update_self]
      exact ⟨hok,hpeak⟩
    · rw [update_of_ne hv]
      exact ⟨h.ok v,rfl⟩
  have hmem {r' : Run} : r'∈s.live.erase r ↔ r'≠r ∧ r'∈s.live := h.nodup.mem_erase_iff
  constructor
  · exact fun v => (hzone v).1
  · dsimp only [World.moved,Zone.stop]
    rw [hbase',hbase',hnum',hnum']
    exact h.apart
  · dsimp only [World.moved]
    rw [hb,hnum']
    exact h.absent
  · intro v j hj
    dsimp only [World.moved] at hj ⊢
    rw [hnum'] at hj
    rw [hbase']
    have hcov : Covers r ((s.p.zone v).base+j*pageSize) ↔ v=w ∧ k≤j ∧ j<k+r.n.toNat := by
      have hap := h.apart
      have hpos := pos_of_ne hrn
      simp only [Covers,Run.stop,Zone.stop,pageSize] at hap hk ⊢
      cases v <;> cases w <;> simp only [true_and,reduceCtorEq,false_and,iff_false] <;> omega
    -- the pages of r are covered by no other live run
    have halone {r' : Run} (hr' : r'∈s.live)
        (hc' : Covers r' ((s.p.zone v).base+j*pageSize))
        (hc : Covers r ((s.p.zone v).base+j*pageSize)) : r'=r := by
      by_contra hne
      have hd := h.disjoint.forall hr' hr hne
      simp only [Covers,Run.Apart] at hc hc' hd
      omega
    have hbit : bitGet (p.zone v).bitmap j=true ↔
        bitGet (s.p.zone v).bitmap j=true ∧ ¬Covers r ((s.p.zone v).base+j*pageSize) := by
      rw [hcov,hz]
      by_cases hv : v=w
      · subst hv
        rw [update_self,hbits,Bool.and_eq_true,decide_eq_true_eq,and_comm]
        refine and_congr_right fun _ => ?_
        simp only [true_and]
        omega
      · rw [update_of_ne hv]
        simp [hv]
    rw [hbit,h.bits v j hj]
    constructor
    · rintro ⟨⟨r',hr',hc'⟩,hno⟩
      exact ⟨r',hmem.mpr ⟨fun he => hno (he ▸ hc'),hr'⟩,hc'⟩
    · rintro ⟨r',hr',hc'⟩
      obtain ⟨hne,hr'⟩ := hmem.mp hr'
      exact ⟨⟨r',hr',hc'⟩,fun hc => hne (halone hr' hc' hc)⟩
  · intro r' hr'
    obtain ⟨hrn',hr0',v,k',hk',hkn'⟩ := h.run r' (hmem.mp hr').2
    refine ⟨hrn',hr0',v,k',?_,?_⟩
    · dsimp only [World.moved]
      rw [hbase']
      exact hk'
    · dsimp only [World.moved]
      rw [hnum']
      exact hkn'
  · exact h.disjoint.erase r
  · exact fun r' hr' => h.aligned r' (hmem.mp hr').2
  · intro v
    dsimp only [World.moved]
    have := (hzone v).1.peak
    rw [(hzone v).2] at this ⊢
    have := h.top v
    omega
  · intro v hv
    dsimp only [World.moved] at hv ⊢
    rw [hnum'] at hv
    rw [(hzone v).2]
    exact h.idle v hv

theorem zoneSetup_spec (w : Nat) (z : Zone) {start stop : Nat} :
    (zoneSetup w z start stop).Ok ∧ (zoneSetup w z start stop).peakUsed=0 ∧
    (zoneSetup w z start stop).usedPages=0 ∧
    (∀i,bitGet (zoneSetup w z start stop).bitmap i=false) ∧
    (start+pageSize≤2^w → start≤(zoneSetup w z start stop).base) ∧
    ((zoneSetup w z start stop).numPages≠0 → (zoneSetup w z start stop).stop ≤ stop) := by
  have hclear (i : Nat) : bitGet (fun _ => 0) i=false := by
    rw [bitGet_eq]
    exact Nat.zero_testBit _
  refine ⟨⟨?_,Nat.dvd_mul_left _ _,?_,Nat.le_refl _⟩,rfl,rfl,hclear,?_,?_⟩
  · dsimp only [zoneSetup]
    split_ifs
    · exact Nat.zero_le _
    · exact Nat.min_le_right _ _
  · have hempty (n : Nat) : bitsSet (fun _ => 0) n=∅ := by
      ext i
      rw [mem_bitsSet,hclear]
      simp
    dsimp only [zoneSetup]
    rw [hempty]
    rfl
  · intro hs
    dsimp only [zoneSetup]
    rw [Nat.mod_eq_of_lt (by simp only [pageSize] at hs ⊢; omega)]
    simp only [pageSize]
    omega
  · intro hn
    dsimp only [zoneSetup,Zone.stop] at hn ⊢
    split_ifs at hn ⊢ with he
    · exact absurd rfl hn
    · generalize (start+(pageSize-1))%2^w=s at he
      have := Nat.min_le_left ((stop/pageSize*pageSize-s/pageSize*pageSize)/pageSize) z.maxPages
      simp only [pageSize] at he this ⊢
      omega

/-- A zone that no page was ever taken from. -/
structure Zone.Fresh (z : Zone) : Prop where
  ok : z.Ok
  peak : z.peakUsed=0
  clear : ∀i,bitGet z.bitmap i=false

theorem zoneSetup_fresh (w : Nat) (z : Zone) (start stop : Nat) :
    (zoneSetup w z start stop).Fresh := by
  obtain ⟨hok,hp,_,hc,_⟩ := @zoneSetup_spec w z start stop
  exact ⟨hok,hp,hc⟩

theorem blankZone_fresh (m : Nat) (h : m≤8192) : (blankZone m h).Fresh where
  ok := ⟨Nat.zero_le _,Nat.dvd_zero _,rfl,Nat.le_refl _⟩
  peak := rfl
  clear i := by
    rw [bitGet_eq]
    exact Nat.zero_testBit _

theorem Inv.initBulk (h : Inv s) {start stop : Nat} (hn : (s.p.zone .bulk).numPages=0)
    (hs : start+pageSize≤2^b.width)
    (ha : stop≤(s.p.zone .fast).base ∨ (s.p.zone .fast).stop ≤ start) :
    Inv (s.moved (pallocInitBulk b s.p start stop) s.live) := by
  rw [pallocInitBulk]
  split_ifs with hb
  · obtain ⟨hok,hpeak,hused,hclear,hbase,hstop⟩ := @zoneSetup_spec b.width
      (s.p.zone .bulk) start stop
    have hbase := hbase hs
    generalize zoneSetup b.width (s.p.zone .bulk) start stop=z at hok hpeak hused hclear hbase hstop
    have hfast : ((s.p.set .bulk z).zone .fast)=s.p.zone .fast := rfl
    have hbulk : ((s.p.set .bulk z).zone .bulk)=z := rfl
    -- the live runs are all in the fast zone
    have hrun : ∀r∈s.live,InZone (s.p.zone .fast) r := by
      intro r hr
      obtain ⟨hrn,_,w,hw⟩ := h.run r hr
      cases w with
      | fast => exact hw
      | bulk =>
        obtain ⟨k,_,hk⟩ := hw
        have := pos_of_ne hrn
        omega
    have hap : z.numPages=0 ∨ (s.p.zone .fast).stop≤z.base ∨ z.stop≤(s.p.zone .fast).base := by
      by_cases h0 : z.numPages=0
      · exact .inl h0
      · have := hstop h0
        omega
    constructor
    · intro w
      cases w with
      | fast => exact h.ok .fast
      | bulk => exact hok
    · exact .inr hap
    · intro hno
      exact absurd (hb.symm.trans hno) (by decide)
    · intro w i hi
      cases w with
      | fast => exact h.bits .fast i hi
      | bulk =>
        dsimp only [World.moved] at hi ⊢
        rw [hbulk] at hi ⊢
        rw [hclear]
        refine iff_of_false (by decide) ?_
        rintro ⟨r,hr,hc⟩
        obtain ⟨k,hk,hkn⟩ := hrun r hr
        simp only [Covers,Run.stop,Zone.stop,pageSize] at hk hc hap
        omega
    · intro r hr
      obtain ⟨hrn,hr0,_⟩ := h.run r hr
      exact ⟨hrn,hr0,.fast,hrun r hr⟩
    · exact h.disjoint
    · exact h.aligned
    · intro w
      have hpk := (h.ok w).peak
      have ht := h.top w
      cases w with
      | fast =>
        dsimp only [World.moved]
        rw [hfast]
        omega
      | bulk =>
        rw [h.idle .bulk hn] at ht
        dsimp only [World.moved]
        rw [hbulk,hpeak,hused,← ht]
        rfl
    · intro w hw
      cases w with
      | fast => exact h.idle .fast hw
      | bulk => exact hpeak
  · exact h.same rfl rfl

theorem Inv.fresh {p : Zones} (hf : ∀w,(p.zone w).Fresh)
    (ha : (p.zone .fast).numPages=0 ∨ (p.zone .bulk).numPages=0 ∨
      (p.zone .fast).stop≤(p.zone .bulk).base)
    (hb : p.hasBulk=false → (p.zone .bulk).numPages=0) : Inv ⟨p,[],fun _ => 0⟩ where
  ok w := (hf w).ok
  apart := by tauto
  absent := hb
  bits w i _ := by
    rw [(hf w).clear]
    simp
  run r hr := absurd hr List.not_mem_nil
  disjoint := .nil
  aligned r hr := absurd hr List.not_mem_nil
  top w := by
    rw [(hf w).peak]
    rfl
  idle w _ := (hf w).peak

theorem cappedEnd_le (b : Board) (start stop : Nat) : cappedEnd b start stop ≤ stop := by
  unfold cappedEnd
  split
  · exact Nat.le_refl _
  · dsimp only
    split_ifs with h
    · exact h.le
    · exact Nat.le_refl _

theorem boot_inv (b : Board) {start stop : Nat} (hs : stop<2^b.width) :
    Inv (boot b start stop) := by
  have hcap := cappedEnd_le b start stop
  have hbulk : (b.blank.zone .bulk).Fresh := blankZone_fresh _ _
  unfold boot pallocInit
  dsimp only
  generalize cappedEnd b start stop=stop' at hcap
  have hfast := zoneSetup_fresh b.width (b.blank.zone .fast) start stop'
  have hstop := (@zoneSetup_spec b.width (b.blank.zone .fast) start stop').2.2.2.2.2
  generalize zoneSetup b.width (b.blank.zone .fast) start stop'=z at hfast hstop
  have hplain : Inv ⟨b.blank.set .fast z,[],fun _ => 0⟩ := by
    refine Inv.fresh (fun w => ?_) (.inr (.inl rfl)) fun _ => rfl
    cases w with
    | fast => exact hfast
    | bulk => exact hbulk
  split
  · exact hplain
  · next pages hp =>
    split_ifs with h1 h2
    · exact hplain
    · -- the stand-in begins where the fast zone ends
      have hbase : z.numPages≠0 → z.stop%2^b.width=z.stop ∧ z.stop+pageSize≤2^b.width := by
        intro hn
        have hlt : z.stop<2^b.width := by
          have := hstop hn
          omega
        obtain ⟨k,hk⟩ : pageSize∣z.stop := Nat.dvd_add hfast.ok.base (Nat.dvd_mul_left _ _)
        refine ⟨Nat.mod_eq_of_lt hlt,?_⟩
        rw [hk] at hlt ⊢
        simp only [pageSize] at hlt ⊢
        rcases b.wide with hw | hw <;> rw [hw] at hlt ⊢ <;> omega
      rw [pallocInitBulk,if_pos (by
        change b.bulkPages.isSome=true
        rw [hp]
        rfl)]
      refine Inv.fresh (fun w => ?_) ?_ fun hno => ?_
      · cases w with
        | fast => exact hfast
        | bulk => exact zoneSetup_fresh _ _ _ _
      · by_cases hn : z.numPages=0
        · exact .inl hn
        · obtain ⟨hmod,hle⟩ := hbase hn
          refine .inr (.inr ?_)
          change z.stop≤(zoneSetup b.width _ (z.stop%2^b.width) _).base
          rw [hmod]
          exact (zoneSetup_spec b.width _).2.2.2.2.1 hle
      · change b.bulkPages.isSome=false at hno
        rw [hp] at hno
        cases hno
    · exact hplain

theorem Inv.step (h : Inv s) {e : Event} {s' : World} (hc : Counted s e) (hs : Step b s e s') :
    Inv s' := by
  cases hs with
  | none r hr =>
    have hv := serve_served h.ok hc h.absent
    generalize r.serve s.p=q at hr hv
    cases hv with
    | none p' hz hb _ => exact h.same hz hb
    | some p' w i hz hb hn hi h0 => exact absurd hr h0
  | some r hr =>
    have hv := serve_served h.ok hc h.absent
    generalize r.serve s.p=q at hr hv
    cases hv with
    | none p' hz hb _ => exact absurd rfl hr
    | some p' w i hz hb hn hi h0 hd hcl => exact h.alloc hz hb hn hi h0 hd hcl
  | free r hr => exact h.free hr
  | initBulk start stop hn hs ha => exact h.initBulk hn hs ha

theorem Inv.sound (h : Inv s) : Sound s where
  disjoint := h.disjoint
  inside r hr := by
    obtain ⟨_,_,w,k,hk,hn⟩ := h.run r hr
    refine ⟨w,?_⟩
    simp only [Run.stop,Zone.stop,pageSize] at hk ⊢
    omega
  aligned := h.aligned
  used w := (h.ok w).used
  peak := h.top
  complete r hp hn hpow hr := by
    have hv := serve_served h.ok hp h.absent
    generalize r.serve s.p=q at hr hv
    cases hv with
    | none p' _ _ hno => exact hno hn hpow
    | some p' w i _ _ _ _ h0 => exact absurd hr h0

end

/-- With zones that do not hold address 0 and alignments that the low 32 bits of their bases are
enough for, the allocator is sound in every run. -/
theorem palloc_sound {b : Board} {start stop : Nat} (hs : stop<2^b.width) {h : List Event}
    {s : World} (hr : Reach (fun s e s' => Counted s e ∧ Step b s e s') (boot b start stop) h s) :
    Sound s :=
  (hr.invariant (fun _ => Inv) (boot_inv b hs) fun _ _ _ _ hi he => hi.step he.1 he.2).sound

def rv64 : Board where
  width := 64
  wide := .inr rfl
  maxPages := 4096
  bulkPages := some 512
  psram := false
  capPages := none
  small := by decide
  bulkSmall := by decide

/-- The world after a request that was served. -/
def World.after (s : World) (r : Request) : World :=
  s.moved (r.serve s.p).2 (⟨(r.serve s.p).1,r.n,r.align⟩::s.live)

/-- 21 pages from an odd one on: two aligned pages, one bulk page, which there is no zone for, and
the first two back. -/
def small64 : World := boot rv64 0x80201000 0x80216000
def taken2 : World := small64.after (.aligned 2 2)
def taken3 : World := taken2.after (.bulk 1)
def given2 : Run := ⟨0x80202000,2,2⟩

theorem palloc_sound_small : 0x80216000<2^rv64.width ∧
    Sound (taken3.moved (pallocFree taken3.p given2.addr given2.n) (taken3.live.erase given2)) := by
  have hs : 0x80216000<2^rv64.width := by decide
  have hc2 : Counted small64 (.alloc (.aligned 2 2)) := by
    rintro (_ | _)
    · exact ⟨by decide +kernel,by decide +kernel⟩
    · exact ⟨by decide +kernel,by decide +kernel⟩
  have hc3 : Counted taken2 (.alloc (.bulk 1)) := by
    rintro (_ | _)
    · exact ⟨by decide +kernel,by decide +kernel⟩
    · exact ⟨by decide +kernel,by decide +kernel⟩
  have hc4 : Counted taken3 (.free given2) := True.intro
  exact ⟨hs,palloc_sound hs (((Reach.start.next ⟨hc2,.some (.aligned 2 2) (by decide +kernel)⟩).next
    ⟨hc3,.some (.bulk 1) (by decide +kernel)⟩).next ⟨hc4,.free given2 (by decide +kernel)⟩)⟩

/-- 2^21 pages are 2^33 bytes, and align_bytes is 0: a zone at 2^32 serves its first page. -/
theorem palloc_sound_wraps : ¬∀(b : Board) (start stop : Nat),stop<2^b.width →
    ∀h s,Reach (Step b) (boot b start stop) h s → Sound s := by
  intro hall
  have h0 : Reach (Step rv64) (boot rv64 0x100000000 0x100010000) [] _ := Reach.start
  have hr := h0.next (.some (.aligned 1 0x200000) (by decide +kernel))
  have hd := (hall rv64 0x100000000 0x100010000 (by decide) _ _ hr).aligned
    ⟨0x100000000,1,0x200000⟩ (by decide +kernel)
  exact absurd hd (by decide)

end LugalOS.Palloc
