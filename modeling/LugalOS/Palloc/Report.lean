import LugalOS.Palloc.Owners

namespace LugalOS.Palloc

open Bitmap

/-- palloc_run_t. -/
structure PallocRun where
  base : Nat
  pages : Nat
  caller : Nat
  bulk : Bool
  deriving DecidableEq,Repr

/-- palloc_cursor_t. -/
structure Cursor where
  zone : Nat
  page : Nat
  deriving DecidableEq,Repr

/-- A loop that counts p up while a condition holds, for n turns at most. -/
def scan (go : Nat → Bool) : Nat → Nat → Nat
  | 0,p => p
  | n+1,p => if go p then scan go n (p+1) else p

/-- zone_next_run: where the cursor's page moves to, and the run. -/
def zoneNextRun (z : OwnedZone) (bulk : Bool) (i : Nat) : Nat × Option PallocRun :=
  let num := z.zone.numPages
  let p := scan (fun p => decide (p < num) && !bitGet z.zone.bitmap p) num i
  if num ≤ p then (p,none)
  else
    let who := z.owner p
    let q := scan (fun q => decide (q < num) && bitGet z.zone.bitmap q && z.owner q==ownerCont)
      num (p+1)
    (q,some {base := z.zone.base+p*pageSize
             pages := q-p
             caller := if who=ownerCont ∨ who=ownerUnknown then 0 else who
             bulk := bulk})

def pallocRunNext (s : OwnedZones) (c : Cursor) : Option PallocRun × Cursor :=
  let bulk (c : Cursor) : Option PallocRun × Cursor :=
    if c.zone=1 ∧ s.hasBulk=true ∧ (s.zone .bulk).zone.numPages≠0 then
      match zoneNextRun (s.zone .bulk) true c.page with
      | (page,some r) => (some r,{c with page := page})
      | (page,none) => (none,⟨2,page⟩)
    else (none,{c with zone := 2})
  if c.zone=0 then
    match zoneNextRun (s.zone .fast) false c.page with
    | (page,some r) => (some r,{c with page := page})
    | (_,none) => bulk ⟨1,0⟩
  else bulk c

/-- The runs that palloc_run_next reports until it has no more; none when it is not done yet. -/
def report (s : OwnedZones) : Nat → Cursor → Option (List PallocRun)
  | 0,_ => none
  | n+1,c =>
    match pallocRunNext s c with
    | (none,_) => some []
    | (some r,c) => (report s n c).map (r::·)

def PallocRun.holds (r : PallocRun) (z : Zone) (j : Nat) : Bool :=
  decide (r.base≤z.base+j*pageSize) && decide (z.base+j*pageSize < r.base+r.pages*pageSize)

/-- The runs are made of whole pages of the zone from the i-th on, each allocated one in one run and
no free one in any. -/
structure Tiles (z : Zone) (bulk : Bool) (i : Nat) (rs : List PallocRun) : Prop where
  inside : ∀r∈rs,r.bulk=bulk ∧ 0 < r.pages ∧
    ∃k,i≤k ∧ r.base=z.base+k*pageSize ∧ k+r.pages≤z.numPages
  once : ∀j,i≤j → j < z.numPages →
    rs.countP (·.holds z j)=if bitGet z.bitmap j=true then 1 else 0

/-- Every zone's allocated pages are in one run each, its free ones in none. -/
def Partition (s : OwnedZones) (rs : List PallocRun) : Prop :=
  ∃fast bulk,rs=fast++bulk ∧ Tiles (s.zone .fast).zone false 0 fast ∧
    Tiles (s.zone .bulk).zone true 0 bulk

/-- A reported run is one that was given out, to this caller. -/
def Attributed (s : OwnedZones) (r : PallocRun) : Prop :=
  ∃c∈(s.zone (if r.bulk then .bulk else .fast)).runs,
    r.base=(s.zone (if r.bulk then .bulk else .fast)).zone.base+c.first*pageSize ∧ r.pages=c.n ∧
    r.caller=c.caller

section Scan

theorem scan_spec (go : Nat → Bool) (n p : Nat) (hn : ∃k,p≤k ∧ k≤p+n ∧ go k=false) :
    p≤ scan go n p ∧ go (scan go n p)=false ∧ ∀j,p≤j → j < scan go n p → go j=true := by
  induction n generalizing p with
  | zero =>
    obtain ⟨k,hk,hkn,hgo⟩ := hn
    have he : k=p := by omega
    subst he
    exact ⟨Nat.le_refl _,hgo,fun j hj hlt => absurd hlt (Nat.not_lt.mpr hj)⟩
  | succ n ih =>
    obtain ⟨k,hk,hkn,hgo⟩ := hn
    rw [scan]
    cases hp : go p with
    | false => exact ⟨Nat.le_refl _,hp,fun j hj hlt => absurd hlt (Nat.not_lt.mpr hj)⟩
    | true =>
      rw [if_pos rfl]
      have hne : p≠k := by
        intro he
        rw [he,hgo] at hp
        cases hp
      obtain ⟨hle,hend,hall⟩ := ih (p+1) ⟨k,by omega,by omega,hgo⟩
      refine ⟨by omega,hend,?_⟩
      intro j hj hlt
      by_cases he : j=p
      · rw [he,hp]
      · exact hall j (by omega) hlt

end Scan

section Zone

variable {z : OwnedZone} {bulk : Bool} {i : Nat}

/-- What zone_next_run comes to: no page allocated any more, or a row of allocated ones behind free
ones, that ends where a page is free or starts a run. -/
inductive NextRun (z : OwnedZone) (bulk : Bool) (i : Nat) : Nat × Option PallocRun → Prop
  | done (p : Nat) : (∀j,i≤j → j < z.zone.numPages → bitGet z.zone.bitmap j=false) →
      NextRun z bulk i (p,none)
  | run (p q : Nat) : i≤p → p<q → q≤z.zone.numPages →
      (∀j,i≤j → j<p → bitGet z.zone.bitmap j=false) →
      (∀j,p≤j → j<q → bitGet z.zone.bitmap j=true) →
      (∀j,p<j → j<q → z.owner j=ownerCont) →
      (q < z.zone.numPages → bitGet z.zone.bitmap q=true → z.owner q≠ownerCont) →
      NextRun z bulk i (q,some ⟨z.zone.base+p*pageSize,q-p,
        if z.owner p=ownerCont ∨ z.owner p=ownerUnknown then 0 else z.owner p,bulk⟩)

theorem zoneNextRun_spec (z : OwnedZone) (bulk : Bool) (i : Nat) :
    NextRun z bulk i (zoneNextRun z bulk i) := by
  have hskip := scan_spec (fun p => decide (p < z.zone.numPages) && !bitGet z.zone.bitmap p)
    z.zone.numPages i ⟨i+z.zone.numPages,by omega,by omega,by simp⟩
  unfold zoneNextRun
  dsimp only
  generalize scan (fun p => decide (p < z.zone.numPages) && !bitGet z.zone.bitmap p)
    z.zone.numPages i=p at hskip
  obtain ⟨hip,hpe,hpa⟩ := hskip
  have hfree : ∀j,i≤j → j<p → bitGet z.zone.bitmap j=false := by
    intro j hj hjp
    have h := hpa j hj hjp
    simp only [Bool.and_eq_true,decide_eq_true_eq,Bool.not_eq_true'] at h
    exact h.2
  by_cases hp : z.zone.numPages ≤ p
  · rw [if_pos hp]
    exact .done p fun j hj hlt => hfree j hj (by omega)
  · rw [if_neg hp]
    have hset : bitGet z.zone.bitmap p=true := by
      rw [decide_eq_true (by omega),Bool.true_and,Bool.not_eq_false'] at hpe
      exact hpe
    have hrun := scan_spec (fun q => decide (q < z.zone.numPages) &&
        bitGet z.zone.bitmap q && z.owner q==ownerCont) z.zone.numPages (p+1)
      ⟨p+1+z.zone.numPages,by omega,by omega,by simp [show ¬p+1<0 by omega]⟩
    generalize scan (fun q => decide (q < z.zone.numPages) && bitGet z.zone.bitmap q &&
      z.owner q==ownerCont) z.zone.numPages (p+1)=q at hrun
    obtain ⟨hpq,hqe,hqa⟩ := hrun
    have hin : ∀j,p<j → j<q → j < z.zone.numPages ∧ bitGet z.zone.bitmap j=true ∧
        z.owner j=ownerCont := by
      intro j hj hjq
      have h := hqa j hj hjq
      simpa only [Bool.and_eq_true,decide_eq_true_eq,beq_iff_eq,and_assoc] using h
    apply NextRun.run p q hip hpq
    · by_contra hlt
      have := (hin (q-1) (by omega) (by omega)).1
      omega
    · exact hfree
    · intro j hj hjq
      by_cases he : j=p
      · rw [he,hset]
      · exact (hin j (by omega) hjq).2.1
    · exact fun j hj hjq => (hin j hj hjq).2.2
    · intro hlt hbit howner
      simp [hlt,hbit,howner] at hqe

theorem Tiles.nil (h : ∀j,i≤j → j < z.zone.numPages → bitGet z.zone.bitmap j=false) :
    Tiles z.zone bulk i [] where
  inside r hr := absurd hr List.not_mem_nil
  once j hj hlt := by simp [h j hj hlt]

theorem Tiles.cons {p q : Nat} {rs : List PallocRun} {caller : Nat} (h : Tiles z.zone bulk q rs)
    (hip : i≤p) (hpq : p<q) (hq : q≤z.zone.numPages)
    (hfree : ∀j,i≤j → j<p → bitGet z.zone.bitmap j=false)
    (hset : ∀j,p≤j → j<q → bitGet z.zone.bitmap j=true) :
    Tiles z.zone bulk i (⟨z.zone.base+p*pageSize,q-p,caller,bulk⟩::rs) where
  inside := by
    intro r hr
    cases hr with
    | head => exact ⟨rfl,by dsimp only; omega,p,hip,rfl,by dsimp only; omega⟩
    | tail _ hr =>
      obtain ⟨hb,hn,k,hk,hkr⟩ := h.inside r hr
      exact ⟨hb,hn,k,by omega,hkr⟩
  once := by
    intro j hj hlt
    have hbefore (hjq : j<q) : rs.countP (·.holds z.zone j)=0 := by
      rw [List.countP_eq_zero]
      intro r hr
      obtain ⟨_,_,k,hk,hbase,_⟩ := h.inside r hr
      simp only [PallocRun.holds,hbase,pageSize,Bool.and_eq_true,decide_eq_true_eq]
      omega
    have hhead : PallocRun.holds ⟨z.zone.base+p*pageSize,q-p,caller,bulk⟩ z.zone j=
        decide (p≤j ∧ j<q) := by
      rw [PallocRun.holds,← Bool.decide_and]
      congr 1
      simp only [pageSize,eq_iff_iff]
      omega
    rw [List.countP_cons,hhead]
    by_cases hjp : j<p
    · rw [hbefore (by omega),hfree j hj hjp]
      simp [show ¬p≤j by omega]
    by_cases hjq : j<q
    · rw [hbefore hjq,hset j (by omega) hjq]
      simp [show p≤j by omega,hjq]
    · rw [h.once j (by omega) hlt]
      simp [hjq]

/-- The runs of one zone from a page on, call by call. -/
inductive Walk (z : OwnedZone) (bulk : Bool) : Nat → List PallocRun → Prop
  | done {i p : Nat} : NextRun z bulk i (p,none) → Walk z bulk i []
  | next {i q : Nat} {r : PallocRun} {rs : List PallocRun} :
      NextRun z bulk i (q,some r) → Walk z bulk q rs → Walk z bulk i (r::rs)

theorem Walk.tiles {rs : List PallocRun} (h : Walk z bulk i rs) : Tiles z.zone bulk i rs := by
  induction h with
  | done hn =>
    cases hn with
    | done p hfree => exact Tiles.nil hfree
  | next hn _ ih =>
    cases hn with
    | run p q hip hpq hq hfree hset _ _ => exact ih.cons hip hpq hq hfree hset

/-- The marks of a zone whose runs were all freed whole: they are what is allocated, apart from each
other, and each starts with its caller's mark. -/
structure Recorded (z : OwnedZone) : Prop where
  inside : ∀c∈z.runs,0 < c.n ∧ c.first+c.n≤z.zone.numPages
  apart : z.runs.Pairwise fun c d => c.first+c.n≤d.first ∨ d.first+d.n≤c.first
  set : ∀c∈z.runs,∀j,c.first≤j → j < c.first+c.n → bitGet z.zone.bitmap j=true
  covered : ∀j,j < z.zone.numPages → bitGet z.zone.bitmap j=true →
    ∃c∈z.runs,c.first≤j ∧ j < c.first+c.n
  start : ∀c∈z.runs,c.caller%2=0 ∧
    z.owner c.first=if c.caller≠0 then c.caller else ownerUnknown
  rest : ∀c∈z.runs,∀j,c.first<j → j < c.first+c.n → z.owner j=ownerCont

instance : Std.Symm fun c d : Claimed => c.first+c.n≤d.first ∨ d.first+d.n≤c.first :=
  ⟨fun _ _ h => Or.symm h⟩

theorem Recorded.same (h : Recorded z) {c d : Claimed} (hc : c∈z.runs) (hd : d∈z.runs) {j : Nat}
    (hcj : c.first≤j ∧ j < c.first+c.n) (hdj : d.first≤j ∧ j < d.first+d.n) : c=d := by
  by_contra hne
  have := h.apart.forall hc hd hne
  omega

theorem Recorded.start_ne (h : Recorded z) {c : Claimed} (hc : c∈z.runs) :
    z.owner c.first≠ownerCont := by
  obtain ⟨heven,howner⟩ := h.start c hc
  rw [howner]
  simp only [ownerCont,ownerUnknown]
  split_ifs <;> omega

theorem Recorded.next (h : Recorded z) {q : Nat} {r : PallocRun}
    (hi : ∀c∈z.runs,c.first+c.n≤ i ∨ i≤c.first) (hn : NextRun z bulk i (q,some r)) :
    (∃c∈z.runs,r.base=z.zone.base+c.first*pageSize ∧ r.pages=c.n ∧ r.caller=c.caller) ∧
      ∀c∈z.runs,c.first+c.n≤q ∨ q≤c.first := by
  cases hn with
  | run p q hip hpq hq hfree hset hcont hend =>
    obtain ⟨c,hc,hcp,hpc⟩ := h.covered p (by omega) (hset p (Nat.le_refl p) hpq)
    have hfirst : c.first=p := by
      by_contra hne
      have hclear := hfree c.first (by have := hi c hc; omega) (by omega)
      rw [h.set c hc c.first (Nat.le_refl _) (by omega)] at hclear
      cases hclear
    have hinside := h.inside c hc
    have hq1 : q ≤ c.first+c.n := by
      by_contra hlt
      -- the page behind the run would be the start of another one, and marked as one that is not
      obtain ⟨d,hd,hdj,hjd⟩ := h.covered (c.first+c.n) (by omega)
        (hset (c.first+c.n) (by omega) (by omega))
      have hds : d.first=c.first+c.n := by
        by_contra hne
        have he := h.same hc hd (j := c.first+c.n-1) (by omega) (by omega)
        subst he
        omega
      exact h.start_ne hd (hds ▸ hcont (c.first+c.n) (by omega) (by omega))
    have hq2 : c.first+c.n≤q := by
      by_contra hlt
      exact hend (by omega) (h.set c hc q (by omega) (by omega)) (h.rest c hc q (by omega) (by omega))
    have hqe : q=c.first+c.n := by omega
    subst hfirst
    obtain ⟨heven,howner⟩ := h.start c hc
    constructor
    · refine ⟨c,hc,rfl,by dsimp only; omega,?_⟩
      dsimp only
      rw [howner]
      simp only [ownerCont,ownerUnknown]
      by_cases h0 : c.caller=0
      · simp [h0]
      · have h1 : ¬(c.caller=1 ∨ c.caller=3) := by omega
        simp [h0,h1]
    · intro d hd
      by_cases he : d=c
      · subst he
        omega
      · have := h.apart.forall hd hc he
        have := h.inside d hd
        omega

theorem Walk.recorded {rs : List PallocRun} (h : Walk z bulk i rs) (hr : Recorded z)
    (hi : ∀c∈z.runs,c.first+c.n≤ i ∨ i≤c.first) :
    ∀r∈rs,∃c∈z.runs,r.base=z.zone.base+c.first*pageSize ∧ r.pages=c.n ∧ r.caller=c.caller := by
  induction h with
  | done _ => simp
  | next hn _ ih =>
    obtain ⟨hrun,hi'⟩ := hr.next hi hn
    intro r hm
    cases hm with
    | head => exact hrun
    | tail _ hm => exact ih hi' r hm

end Zone

section Cursor

variable {s : OwnedZones}

theorem report_bulk (fuel i : Nat) (hb : s.hasBulk=false → (s.zone .bulk).zone.numPages=0)
    (hf : (s.zone .bulk).zone.numPages-i < fuel) :
    ∃rs,report s fuel ⟨1,i⟩=some rs ∧ Walk (s.zone .bulk) true i rs := by
  induction fuel generalizing i with
  | zero => omega
  | succ fuel ih =>
    by_cases hg : s.hasBulk=true ∧ (s.zone .bulk).zone.numPages≠0
    · have hn := zoneNextRun_spec (s.zone .bulk) true i
      cases hr : zoneNextRun (s.zone .bulk) true i with
      | mk q o =>
        rw [hr] at hn
        cases o with
        | none =>
          refine ⟨[],?_,Walk.done hn⟩
          simp [report,pallocRunNext,hg,hr]
        | some r =>
          have hlt : (s.zone .bulk).zone.numPages-q < fuel := by
            cases hn with
            | run p q hip hpq hq => omega
          obtain ⟨rs,he,hw⟩ := ih _ hlt
          refine ⟨r::rs,?_,Walk.next hn hw⟩
          simp [report,pallocRunNext,hg,hr,he]
    · have h0 : (s.zone .bulk).zone.numPages=0 := by
        by_cases hbulk : s.hasBulk=true
        · by_contra hne
          exact hg ⟨hbulk,hne⟩
        · exact hb (Bool.eq_false_of_not_eq_true hbulk)
      refine ⟨[],?_,Walk.done (.done 0 fun j _ hj => by omega)⟩
      simp [report,pallocRunNext,h0]

theorem report_mono {c : Cursor} {rs : List PallocRun} {fuel m : Nat} (h : report s fuel c=some rs)
    (hle : fuel≤ m) : report s m c=some rs := by
  induction fuel generalizing c rs m with
  | zero => cases h
  | succ fuel ih =>
    obtain ⟨m,rfl⟩ : ∃k,m=k+1 := ⟨m-1,by omega⟩
    rw [report] at h ⊢
    cases hn : pallocRunNext s c with
    | mk o c' =>
      rw [hn] at h
      cases o with
      | none => exact h
      | some r =>
        obtain ⟨rs',he,hrs⟩ := Option.map_eq_some_iff.mp h
        dsimp only
        rw [ih he (by omega),← hrs]
        rfl

theorem report_fast (fuel i : Nat) (hb : s.hasBulk=false → (s.zone .bulk).zone.numPages=0)
    (hf : (s.zone .fast).zone.numPages-i+(s.zone .bulk).zone.numPages < fuel) :
    ∃fast bulk,report s fuel ⟨0,i⟩=some (fast++bulk) ∧ Walk (s.zone .fast) false i fast ∧
      Walk (s.zone .bulk) true 0 bulk := by
  induction fuel generalizing i with
  | zero => omega
  | succ fuel ih =>
    have hn := zoneNextRun_spec (s.zone .fast) false i
    cases hr : zoneNextRun (s.zone .fast) false i with
    | mk q o =>
      rw [hr] at hn
      cases o with
      | none =>
        obtain ⟨bulk,he,hw⟩ := report_bulk (fuel+1) 0 hb (by omega)
        refine ⟨[],bulk,?_,Walk.done hn,hw⟩
        rw [List.nil_append,← he]
        simp [report,pallocRunNext,hr]
      | some r =>
        have hlt : (s.zone .fast).zone.numPages-q+(s.zone .bulk).zone.numPages < fuel := by
          cases hn with
          | run p q hip hpq hq => omega
        obtain ⟨fast,bulk,he,hw,hw'⟩ := ih _ hlt
        refine ⟨r::fast,bulk,?_,Walk.next hn hw,hw'⟩
        simp [report,pallocRunNext,hr,he]

end Cursor

section Calls

variable {z : OwnedZone} {p : OwnedZones} {b : Board}

theorem zoneAllocFor_cases (z : OwnedZone) (n a : UInt32) (caller : Nat) :
    zoneAllocFor z n a caller=(0,z) ∨ ∃i,0 < n.toNat ∧ i+n.toNat≤z.zone.numPages ∧
      (∀j,i≤j → j < i+n.toNat → bitGet z.zone.bitmap j=false) ∧
      (zoneAllocFor z n a caller).2=⟨claimRun z.zone i n,claimOwners z.owner i n.toNat caller,
        ⟨i,n.toNat,caller⟩::z.runs⟩ := by
  unfold zoneAllocFor
  by_cases h1 : n=0 ∨ z.zone.numPages < n.toNat
  · rw [if_pos h1]
    exact .inl rfl
  rw [if_neg h1]
  by_cases h2 : a=0 ∨ a&&&(a-1)≠0
  · rw [if_pos h2]
    exact .inl rfl
  rw [if_neg h2]
  dsimp only
  cases hf : firstFit z.zone n.toNat a (alignPhase z.zone a) (z.zone.numPages+1)
      (alignPhase z.zone a).toNat with
  | none => exact .inl rfl
  | some i =>
    obtain ⟨_,hin,_,hclear⟩ := firstFit_some hf
    exact .inr ⟨i,pos_of_ne fun h0 => h1 (.inl h0),hin,hclear,rfl⟩

theorem Recorded.alloc (h : Recorded z) {caller : Nat} (heven : caller%2=0) (n a : UInt32) :
    Recorded (zoneAllocFor z n a caller).2 := by
  have hcases := zoneAllocFor_cases z n a caller
  cases hcases with
  | inl he =>
    rw [he]
    exact h
  | inr hr =>
    obtain ⟨i,hn,hin,hclear,he⟩ := hr
    rw [he]
    -- no page of an older run is one of the new one
    have hold : ∀c∈z.runs,c.first+c.n≤ i ∨ i+n.toNat≤c.first := by
      intro c hc
      by_contra hno
      have hci := h.inside c hc
      have hset := h.set c hc (max i c.first) (by omega) (by omega)
      rw [hclear (max i c.first) (by omega) (by omega)] at hset
      cases hset
    have hbits : ∀j,bitGet (setRun z.zone.bitmap i n.toNat) j=
        (decide (i≤j ∧ j < i+n.toNat) || bitGet z.zone.bitmap j) := bitGet_setRun _ _ _
    constructor
    · intro c hc
      cases hc with
      | head => exact ⟨hn,hin⟩
      | tail _ hc => exact h.inside c hc
    · apply List.Pairwise.cons _ h.apart
      intro c hc
      have := hold c hc
      dsimp only
      omega
    · intro c hc j hj hjn
      dsimp only [claimRun]
      rw [hbits]
      cases hc with
      | head =>
        rw [decide_eq_true ⟨hj,hjn⟩]
        rfl
      | tail _ hc => rw [h.set c hc j hj hjn,Bool.or_true]
    · intro j hj hbit
      dsimp only [claimRun] at hj hbit
      rw [hbits] at hbit
      by_cases hij : i≤j ∧ j < i+n.toNat
      · exact ⟨_,List.mem_cons_self,hij⟩
      · rw [decide_eq_false hij,Bool.false_or] at hbit
        obtain ⟨c,hc,hcj⟩ := h.covered j hj hbit
        exact ⟨c,List.mem_cons_of_mem _ hc,hcj⟩
    · intro c hc
      cases hc with
      | head => exact ⟨heven,by simp [claimOwners]⟩
      | tail _ hc =>
        obtain ⟨hce,hco⟩ := h.start c hc
        have hne := hold c hc
        have hci := h.inside c hc
        refine ⟨hce,?_⟩
        dsimp only
        rw [claimOwners,if_neg (by omega),if_neg (by omega),hco]
    · intro c hc j hj hjn
      dsimp only
      cases hc with
      | head => rw [claimOwners,if_neg (by dsimp only at hj; omega),if_pos ⟨Nat.le_of_lt hj,hjn⟩]
      | tail _ hc =>
        have hne := hold c hc
        rw [claimOwners,if_neg (by omega),if_neg (by omega),h.rest c hc j hj hjn]

theorem freeRun_bits (z : Zone) (i n : Nat) :
    (freeRun z i n).numPages=z.numPages ∧ (freeRun z i n).base=z.base ∧
    ∀j,bitGet (freeRun z i n).bitmap j=(decide (j < i ∨ i+n≤j) && bitGet z.bitmap j) := by
  induction n with
  | zero =>
    refine ⟨rfl,rfl,fun j => ?_⟩
    rw [decide_eq_true (by omega),Bool.true_and]
    rfl
  | succ n ih =>
    obtain ⟨hn,hb,hg⟩ := ih
    rw [freeRun]
    by_cases hset : bitGet (freeRun z i n).bitmap (i+n)=true
    · rw [if_pos hset]
      refine ⟨hn,hb,fun j => ?_⟩
      rw [bitGet_bitClear,hg,← Bool.and_assoc,← Bool.decide_and]
      congr 2
      simp only [eq_iff_iff]
      omega
    · rw [if_neg hset]
      refine ⟨hn,hb,fun j => ?_⟩
      rw [hg] at hset ⊢
      by_cases hj : j=i+n
      · subst hj
        rw [decide_eq_true (by omega),Bool.true_and] at hset
        simp [hset]
      · congr 2
        simp only [eq_iff_iff]
        omega

theorem Recorded.free (h : Recorded z) {c : Claimed} (hc : c∈z.runs) :
    Recorded (freeOwned z c.first c.n) := by
  obtain ⟨hnum,_,hbits⟩ := freeRun_bits z.zone c.first c.n
  have hmem (d : Claimed) : d∈(freeOwned z c.first c.n).runs ↔ d∈z.runs ∧ d≠c := by
    have hne : (d.first=c.first ∧ d.n=c.n) ↔ d=c ∨ (d≠c ∧ d.first=c.first ∧ d.n=c.n) := by
      constructor
      · intro hd
        by_cases he : d=c
        · exact .inl he
        · exact .inr ⟨he,hd⟩
      · intro hd
        cases hd with
        | inl he => exact ⟨by rw [he],by rw [he]⟩
        | inr hd => exact hd.2
    simp only [freeOwned,List.mem_filter,decide_not,Bool.not_eq_true',decide_eq_false_iff_not]
    apply and_congr_right
    intro hd
    have hinside := h.inside c hc
    rw [not_iff_not,hne]
    constructor
    · intro hor
      cases hor with
      | inl he => exact he
      | inr hor => exact h.same hd hc (j := c.first) (by omega) (by omega)
    · exact .inl
  -- no page of another run is one of the run that is freed
  have hother (d : Claimed) (hd : d∈z.runs) (hne : d≠c) :
      d.first+d.n≤c.first ∨ c.first+c.n≤d.first := h.apart.forall hd hc hne
  have hin (d : Claimed) (hd : d∈z.runs) := h.inside d hd
  constructor
  · intro d hd
    rw [hmem] at hd
    dsimp only [freeOwned]
    rw [hnum]
    exact h.inside d hd.1
  · exact h.apart.filter _
  · intro d hd j hj hjn
    rw [hmem] at hd
    have := hother d hd.1 hd.2
    dsimp only [freeOwned]
    rw [hbits,h.set d hd.1 j hj hjn,decide_eq_true (by omega)]
    rfl
  · intro j hj hbit
    dsimp only [freeOwned] at hj hbit
    rw [hnum] at hj
    rw [hbits,Bool.and_eq_true,decide_eq_true_eq] at hbit
    obtain ⟨d,hd,hdj⟩ := h.covered j hj hbit.2
    refine ⟨d,(hmem d).mpr ⟨hd,?_⟩,hdj⟩
    intro he
    subst he
    omega
  · intro d hd
    rw [hmem] at hd
    have := hother d hd.1 hd.2
    have := hin d hd.1
    dsimp only [freeOwned]
    rw [if_neg (by omega)]
    exact h.start d hd.1
  · intro d hd j hj hjn
    rw [hmem] at hd
    have := hother d hd.1 hd.2
    dsimp only [freeOwned]
    rw [if_neg (by omega)]
    exact h.rest d hd.1 j hj hjn

theorem Recorded.fresh (hr : z.runs=[]) (hb : ∀j,bitGet z.zone.bitmap j=false) : Recorded z := by
  constructor <;> simp [hr,hb]

theorem serveFor_rule (good : Which → OwnedZone → Prop) (caller : Nat) (h : ∀w,good w (p.zone w))
    (hs : ∀w z n a,good w z → good w (zoneAllocFor z n a caller).2) (r : Request) :
    (∀w,good w ((r.serveFor p caller).2.zone w)) ∧ (r.serveFor p caller).2.hasBulk=p.hasBulk := by
  have hset {p : OwnedZones} (h : ∀w,good w (p.zone w)) (w : Which) (n a : UInt32) :
      ∀v,good v ((p.set w (zoneAllocFor (p.zone w) n a caller).2).zone v) := by
    intro v
    by_cases hv : v=w
    · subst hv
      simpa using hs v _ n a (h v)
    · simpa [hv] using h v
  have hbulk (n a : UInt32) : (∀w,good w ((ownedPagesBulkAligned p n a caller).2.zone w)) ∧
      (ownedPagesBulkAligned p n a caller).2.hasBulk=p.hasBulk := by
    unfold ownedPagesBulkAligned
    split_ifs with h0
    · exact ⟨hset h .fast n a,rfl⟩
    · dsimp only
      split_ifs with h1 h2
      · exact ⟨hset h .bulk n a,rfl⟩
      · exact ⟨hset (hset h .bulk n a) .fast n a,rfl⟩
      · exact ⟨hset (hset h .bulk n a) .fast n a,rfl⟩
  cases r with
  | pages n => exact ⟨hset h .fast n 1,rfl⟩
  | aligned n a => exact ⟨hset h .fast n a,rfl⟩
  | bulk n => exact hbulk n 1
  | bulkAligned n a => exact hbulk n a

/-- A board without a bulk zone has none with pages. -/
def Absent (p : OwnedZones) : Prop := p.hasBulk=false → (p.zone .bulk).zone.numPages=0

theorem zoneAllocFor_numPages (z : OwnedZone) (n a : UInt32) (caller : Nat) :
    (zoneAllocFor z n a caller).2.zone.numPages=z.zone.numPages := by
  have hcases := zoneAllocFor_cases z n a caller
  cases hcases with
  | inl he => rw [he]
  | inr hr =>
    obtain ⟨i,_,_,_,he⟩ := hr
    rw [he]
    rfl

theorem ownedFree_cases (p : OwnedZones) (addr : Nat) (n : UInt32) :
    ownedFree p addr n=p ∨ ∃w i,freedAt p.zones addr n=some (w,i) ∧
      ownedFree p addr n=p.set w (freeOwned (p.zone w) i n.toNat) := by
  rw [ownedFree]
  cases freedAt p.zones addr n with
  | none => exact .inl rfl
  | some x => exact .inr ⟨x.1,x.2,rfl,rfl⟩

theorem Absent.exec (h : Absent p) (c : Call) : Absent (c.exec b p) := by
  cases c with
  | alloc r caller even =>
    obtain ⟨hz,hb⟩ := serveFor_rule (fun w z => z.zone.numPages=(p.zone w).zone.numPages) caller
      (fun w => rfl) (fun w z n a hz => (zoneAllocFor_numPages z n a caller).trans hz) r
    intro hno
    rw [Call.exec,hb] at hno
    exact (hz .bulk).trans (h hno)
  | free addr n few =>
    rw [Call.exec]
    cases ownedFree_cases p addr n with
    | inl he =>
      rw [he]
      exact h
    | inr hr =>
      obtain ⟨w,i,_,he⟩ := hr
      rw [he]
      intro hno
      by_cases hw : w=.bulk
      · subst hw
        rw [p.set_zone_self]
        exact (freeRun_bits _ _ _).1.trans (h hno)
      · rw [p.set_zone_ne _ fun he => hw he.symm]
        exact h hno
  | initBulk start stop =>
    rw [Call.exec,ownedInitBulk]
    split_ifs with hb
    · intro hno
      exact absurd (hb.symm.trans hno) (by decide)
    · exact h

theorem Recorded.setup (w : Nat) (z : OwnedZone) (start stop : Nat) :
    Recorded (ownedSetup w z start stop) :=
  Recorded.fresh rfl (zoneSetup_fresh w z.zone start stop).clear

theorem recorded_exec (h : ∀w,Recorded (p.zone w)) {c : Call} (hw : c.Whole p) :
    ∀w,Recorded ((c.exec b p).zone w) := by
  cases c with
  | alloc r caller even =>
    exact (serveFor_rule (fun _ z => Recorded z) caller h
      (fun _ z n a hz => hz.alloc even n a) r).1
  | free addr n few =>
    intro v
    rw [Call.exec]
    cases ownedFree_cases p addr n with
    | inl he =>
      rw [he]
      exact h v
    | inr hr =>
      obtain ⟨w,i,hf,he⟩ := hr
      obtain ⟨c,hc,hi,hn⟩ := hw w i hf
      rw [he,← hi,← hn]
      by_cases hv : v=w
      · subst hv
        rw [p.set_zone_self]
        exact (h v).free hc
      · rw [p.set_zone_ne _ hv]
        exact h v
  | initBulk start stop =>
    intro v
    rw [Call.exec,ownedInitBulk]
    split_ifs with hb
    · cases v with
      | fast => exact h .fast
      | bulk => exact Recorded.setup _ _ _ _
    · exact h v

theorem boot_start (b : Board) (start stop : Nat) :
    Absent (ownedBoot b start stop) ∧ ∀w,Recorded ((ownedBoot b start stop).zone w) := by
  have hbulk : Recorded ((ownedBlank b).zone .bulk) :=
    Recorded.fresh rfl (blankZone_fresh _ _).clear
  have hfast (stop : Nat) :
      Absent ((ownedBlank b).set .fast (ownedSetup b.width ((ownedBlank b).zone .fast) start stop)) ∧
      ∀w,Recorded (((ownedBlank b).set .fast
        (ownedSetup b.width ((ownedBlank b).zone .fast) start stop)).zone w) := by
    refine ⟨fun _ => rfl,fun w => ?_⟩
    cases w with
    | fast => exact Recorded.setup _ _ _ _
    | bulk => exact hbulk
  have hinit {p : OwnedZones} (h : Absent p ∧ ∀w,Recorded (p.zone w)) (start stop : Nat) :
      Absent (ownedInitBulk b p start stop) ∧ ∀w,Recorded ((ownedInitBulk b p start stop).zone w) :=
    ⟨h.1.exec (.initBulk start stop),recorded_exec h.2 (c := .initBulk start stop) trivial⟩
  unfold ownedBoot ownedInit
  dsimp only
  cases b.bulkPages with
  | none => exact hfast _
  | some pages =>
    dsimp only
    split_ifs
    · exact hfast _
    · exact hinit (hfast _) _ _
    · exact hfast _

end Calls

/-- The steps of a walk over both zones. -/
def reportSteps (s : OwnedZones) : Nat :=
  (s.zone .fast).zone.numPages+(s.zone .bulk).zone.numPages+1

/-- After any calls, frees of parts of runs among them, a walk from the zero cursor ends, and
reports each allocated page of both zones in one run and no free page. Where runs were freed whole,
each run it reports was given out as such to the caller it names. -/
theorem run_report {b : Board} {start stop : Nat} {h : List Call} {s : OwnedZones}
    (hr : LugalOS.Run.Reach (Calls b) (ownedBoot b start stop) h s) :
    ∃rs,(∀fuel,reportSteps s≤fuel → report s fuel ⟨0,0⟩=some rs) ∧ Partition s rs ∧
      (LugalOS.Run.Reach (WholeCalls b) (ownedBoot b start stop) h s → ∀r∈rs,Attributed s r) := by
  obtain ⟨habsent,hfresh⟩ := boot_start b start stop
  have ha : Absent s := by
    apply hr.invariant (fun _ p => Absent p) habsent
    intro _ p c p' hp hc
    rw [show p'=c.exec b p from hc]
    exact hp.exec c
  obtain ⟨fast,bulk,he,hf,hb⟩ := report_fast (reportSteps s) 0 ha
    (by rw [reportSteps]; omega)
  refine ⟨fast++bulk,?_,⟨fast,bulk,rfl,hf.tiles,hb.tiles⟩,?_⟩
  · exact fun fuel hle => report_mono he hle
  · intro hw
    have hrec : ∀w,Recorded (s.zone w) := by
      apply hw.invariant (fun _ p => ∀w,Recorded (p.zone w)) hfresh
      intro _ p c p' hp hc
      rw [show p'=c.exec b p from hc.2]
      exact recorded_exec hp hc.1
    have hzero (z : OwnedZone) : ∀c∈z.runs,c.first+c.n≤0 ∨ 0≤c.first :=
      fun c _ => .inr (Nat.zero_le _)
    intro r hm
    cases List.mem_append.mp hm with
    | inl hm =>
      have hbulk := (hf.tiles.inside r hm).1
      obtain ⟨c,hc,hrun⟩ := hf.recorded (hrec .fast) (hzero _) r hm
      rw [Attributed,hbulk]
      exact ⟨c,hc,hrun⟩
    | inr hm =>
      have hbulk := (hb.tiles.inside r hm).1
      obtain ⟨c,hc,hrun⟩ := hb.recorded (hrec .bulk) (hzero _) r hm
      rw [Attributed,hbulk]
      exact ⟨c,hc,hrun⟩

/-- Three pages, of which the first and the last are given back on their own. -/
def middle3 : OwnedZones :=
  ((Call.free 0x80203000 1 (by decide)).exec rv64
    ((Call.free 0x80201000 1 (by decide)).exec rv64
      ((Call.alloc (.pages 3) 0x80200010 (by decide)).exec rv64
        (ownedBoot rv64 0x80201000 0x80216000))))

/-- The page between has no caller any more. -/
theorem run_report_middle : ∃h,LugalOS.Run.Reach (Calls rv64) (ownedBoot rv64 0x80201000 0x80216000)
    h middle3 ∧ report middle3 (reportSteps middle3) ⟨0,0⟩=some [⟨0x80202000,1,0,false⟩] ∧
      Partition middle3 [⟨0x80202000,1,0,false⟩] := by
  have h0 : LugalOS.Run.Reach (Calls rv64) (ownedBoot rv64 0x80201000 0x80216000) [] _ :=
    LugalOS.Run.Reach.start
  have h1 := h0.next (show Calls rv64 _ (.alloc (.pages 3) 0x80200010 (by decide)) _ from rfl)
  have h2 := h1.next (show Calls rv64 _ (.free 0x80201000 1 (by decide)) _ from rfl)
  have h3 := h2.next (show Calls rv64 _ (.free 0x80203000 1 (by decide)) middle3 from rfl)
  have hm : report middle3 (reportSteps middle3) ⟨0,0⟩=some [⟨0x80202000,1,0,false⟩] := by
    decide +kernel
  obtain ⟨rs,he,hp,_⟩ := run_report h3
  have hrs : rs=[⟨0x80202000,1,0,false⟩] :=
    Option.some.inj ((he _ (Nat.le_refl _)).symm.trans hm)
  exact ⟨_,h3,hm,hrs ▸ hp⟩

end LugalOS.Palloc
