import LugalOS.Palloc.Allocator

namespace LugalOS.Palloc

open Bitmap

/-- A page that continues the run before it, and the start of a run whose caller is not known. -/
def ownerCont : Nat := 1
def ownerUnknown : Nat := 3

/-- A run of pages a zone gave out: its first page, how many, and who asked, 0 if not known. -/
structure Claimed where
  first : Nat
  n : Nat
  caller : Nat
  deriving DecidableEq

/-- A zone with who asked for each of its pages. runs is not in the code: what was given out and not
freed as a whole since. -/
structure OwnedZone where
  zone : Zone
  owner : Nat → Nat
  runs : List Claimed

def ownedSetup (w : Nat) (z : OwnedZone) (start stop : Nat) : OwnedZone where
  zone := zoneSetup w z.zone start stop
  owner _ := 0
  runs := []

/-- The owner marks of a run given out. -/
def claimOwners (o : Nat → Nat) (i n caller : Nat) : Nat → Nat := fun j =>
  if j=i then (if caller≠0 then caller else ownerUnknown)
  else if i≤j ∧ j < i+n then ownerCont
  else o j

/-- zone_alloc with the caller's return address. -/
def zoneAllocFor (z : OwnedZone) (n alignPages : UInt32) (caller : Nat) : Nat × OwnedZone :=
  if n=0 ∨ z.zone.numPages < n.toNat then (0,z)
  else if alignPages=0 ∨ alignPages&&&(alignPages-1)≠0 then (0,z)
  else
    let phase := alignPhase z.zone alignPages
    match firstFit z.zone n.toNat alignPages phase (z.zone.numPages+1) phase.toNat with
    | some i => (z.zone.base+i*pageSize,
        {zone := claimRun z.zone i n
         owner := claimOwners z.owner i n.toNat caller
         runs := ⟨i,n.toNat,caller⟩::z.runs})
    | none => (0,z)

/-- The loop of palloc_free, which takes the mark off every page. -/
def freeOwned (z : OwnedZone) (i n : Nat) : OwnedZone where
  zone := freeRun z.zone i n
  owner := fun j => if i≤j ∧ j < i+n then 0 else z.owner j
  runs := z.runs.filter fun c => ¬(c.first=i ∧ c.n=n)

structure OwnedZones where
  zone : Which → OwnedZone
  hasBulk : Bool
  fallbacks : UInt32

namespace OwnedZones

def set (p : OwnedZones) (w : Which) (z : OwnedZone) : OwnedZones :=
  {p with zone := Function.update p.zone w z}

@[simp] theorem set_zone_self (p : OwnedZones) (w : Which) (z : OwnedZone) :
    (p.set w z).zone w=z := Function.update_self ..

@[simp] theorem set_zone_ne (p : OwnedZones) {w v : Which} (z : OwnedZone) (h : v≠w) :
    (p.set w z).zone v=p.zone v := Function.update_of_ne h ..

def zones (p : OwnedZones) : Zones := ⟨fun w => (p.zone w).zone,p.hasBulk,p.fallbacks⟩

end OwnedZones

def ownedBlank (b : Board) : OwnedZones where
  zone w := ⟨b.blank.zone w,fun _ => 0,[]⟩
  hasBulk := b.bulkPages.isSome
  fallbacks := 0

def ownedInitBulk (b : Board) (p : OwnedZones) (start stop : Nat) : OwnedZones :=
  if p.hasBulk then p.set .bulk (ownedSetup b.width (p.zone .bulk) start stop) else p

def ownedInit (b : Board) (p : OwnedZones) (start stop : Nat) : OwnedZones :=
  let stop := cappedEnd b start stop
  let p := p.set .fast (ownedSetup b.width (p.zone .fast) start stop)
  match b.bulkPages with
  | none => p
  | some pages =>
    if b.psram then p
    else
      let fastEnd := (p.zone .fast).zone.stop%2^b.width
      let want := (fastEnd+pages*pageSize)%2^b.width
      if want ≤ stop/pageSize*pageSize then ownedInitBulk b p fastEnd want else p

def ownedPagesAligned (p : OwnedZones) (n alignPages : UInt32) (caller : Nat) : Nat × OwnedZones :=
  let (a,z) := zoneAllocFor (p.zone .fast) n alignPages caller
  (a,p.set .fast z)

def ownedPagesBulkAligned (p : OwnedZones) (n alignPages : UInt32) (caller : Nat) :
    Nat × OwnedZones :=
  if !p.hasBulk || (p.zone .bulk).zone.numPages==0 then ownedPagesAligned p n alignPages caller
  else
    let (a,z) := zoneAllocFor (p.zone .bulk) n alignPages caller
    let p := p.set .bulk z
    if a≠0 then (a,p)
    else
      let (a,p) := ownedPagesAligned p n alignPages caller
      if a≠0 then (a,{p with fallbacks := p.fallbacks+1}) else (a,p)

/-- palloc_pages, palloc_pages_aligned, palloc_pages_bulk and palloc_pages_bulk_aligned. -/
def Request.serveFor (p : OwnedZones) (caller : Nat) : Request → Nat × OwnedZones
  | .pages n => ownedPagesAligned p n 1 caller
  | .aligned n a => ownedPagesAligned p n a caller
  | .bulk n => ownedPagesBulkAligned p n 1 caller
  | .bulkAligned n a => ownedPagesBulkAligned p n a caller

/-- The zone and the first page that palloc_free clears n pages from; none where it does nothing. -/
def freedAt (p : Zones) (addr : Nat) (n : UInt32) : Option (Which×Nat) :=
  if addr=0 ∨ n=0 then none
  else
    match zoneOf p addr with
    | none => none
    | some w =>
      let off := addr-(p.zone w).base
      if off%pageSize≠0 then none
      else if (p.zone w).numPages < off/pageSize+n.toNat then none
      else some (w,off/pageSize)

def ownedFree (p : OwnedZones) (addr : Nat) (n : UInt32) : OwnedZones :=
  match freedAt p.zones addr n with
  | none => p
  | some (w,i) => p.set w (freeOwned (p.zone w) i n.toNat)

/-- What the kernel asks of the allocator. A return address is even, and the page after the last one
that is freed has a number of 32 bits. -/
inductive Call
  | alloc (r : Request) (caller : Nat) (even : caller%2=0)
  | free (addr : Nat) (n : UInt32) (few : 8192+n.toNat≤2^32)
  | initBulk (start stop : Nat)

namespace Call

def exec (b : Board) (p : OwnedZones) : Call → OwnedZones
  | alloc r caller _ => (r.serveFor p caller).2
  | free addr n _ => ownedFree p addr n
  | initBulk start stop => ownedInitBulk b p start stop

/-- A free, if it is one, is of pages that were given out as one run. -/
def Whole (p : OwnedZones) : Call → Prop
  | free addr n _ => ∀w i,freedAt p.zones addr n=some (w,i) →
      ∃c∈(p.zone w).runs,c.first=i ∧ c.n=n.toNat
  | _ => True

end Call

def ownedBoot (b : Board) (start stop : Nat) : OwnedZones := ownedInit b (ownedBlank b) start stop

/-- One call; a free may be of any pages. -/
def Calls (b : Board) (p : OwnedZones) (c : Call) (p' : OwnedZones) : Prop := p'=c.exec b p

/-- One call, where runs are freed whole. -/
def WholeCalls (b : Board) (p : OwnedZones) (c : Call) (p' : OwnedZones) : Prop :=
  c.Whole p ∧ Calls b p c p'

section Forget

/-- Who asked is kept beside the zone: the pages go as in zone_alloc and palloc_free without it. -/
theorem zoneAllocFor_zone (z : OwnedZone) (n alignPages : UInt32) (caller : Nat) :
    (zoneAllocFor z n alignPages caller).map id OwnedZone.zone=zoneAlloc z.zone n alignPages := by
  unfold zoneAllocFor zoneAlloc
  split
  · rfl
  · split
    · rfl
    · dsimp only
      cases firstFit z.zone n.toNat alignPages (alignPhase z.zone alignPages)
        (z.zone.numPages+1) (alignPhase z.zone alignPages).toNat <;> rfl

theorem set_zones (p : OwnedZones) (w : Which) (z : OwnedZone) :
    (p.set w z).zones=p.zones.set w z.zone := by
  unfold OwnedZones.zones Zones.set OwnedZones.set
  congr 1
  funext v
  by_cases h : v=w
  · subst h
    simp only [Function.update_self]
  · simp only [Function.update_of_ne h]

theorem ownedFree_zones (p : OwnedZones) (addr : Nat) (n : UInt32) :
    (ownedFree p addr n).zones=pallocFree p.zones addr n := by
  unfold ownedFree freedAt pallocFree
  by_cases h : addr=0 ∨ n=0
  · rw [if_pos h,if_pos h]
  · rw [if_neg h,if_neg h]
    cases zoneOf p.zones addr with
    | none => rfl
    | some w =>
      dsimp only
      by_cases h1 : (addr-(p.zones.zone w).base)%pageSize≠0
      · rw [if_pos h1,if_pos h1]
      · rw [if_neg h1,if_neg h1]
        by_cases h2 : (p.zones.zone w).numPages <
            (addr-(p.zones.zone w).base)/pageSize+n.toNat
        · rw [if_pos h2,if_pos h2]
        · rw [if_neg h2,if_neg h2]
          exact set_zones p w _

end Forget

end LugalOS.Palloc
