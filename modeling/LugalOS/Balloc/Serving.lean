import LugalOS.Balloc.Allocator

namespace LugalOS.Balloc

open Buddy Run

variable {b : Build} {s : Sys}

theorem Held.same (h : Held b s) {x y : Block} {p q m : Nat} (hx : x∈s.live) (hy : y∈s.live)
    (hp : x.At b s.arena.arenaBase p) (hq : y.At b s.arena.arenaBase q)
    (h1 : Within 0 m x.order p) (h2 : Within 0 m y.order q) : x=y := by
  by_contra hne
  exact hp.not_apart hq h1 h2 (h.apart.forall hx hy hne)

theorem Held.used_at (h : Held b s) {i p : Nat}
    (hu : usedBy s.arena.arenaBase s.live i p=true) :
    ∃x∈s.live,x.order=i ∧ x.At b s.arena.arenaBase p := by
  obtain ⟨x,hx,rfl,ha⟩ := usedBy_iff.1 hu
  obtain ⟨p',hp'⟩ := h.place x hx
  exact ⟨x,hx,rfl,hp'.unique ha ▸ hp'⟩

theorem Held.apart_unused (h : Held b s) {x : Block} {q i p m : Nat}
    (hat : x.At b s.arena.arenaBase q) (hap : ∀y∈s.live,x.Apart y)
    (h1 : Within 0 m x.order q) (h2 : Within 0 m i p) :
    usedBy s.arena.arenaBase s.live i p=false := by
  by_contra hu
  obtain ⟨y,hy,rfl,hyp⟩ := h.used_at (Bool.not_eq_false _ ▸ hu)
  exact hat.not_apart hyp h1 h2 (hap y hy)

section Alloc

theorem leavesNeeded_eq {size : UInt32} (hs : size.toNat≤b.arenaBytes) :
    (nextPow2 (if size.toNat < minBlock then minBlock.toUInt32 else size)).toNat/minBlock=
      2^(Block.mk 0 size).order ∧ (Block.mk 0 size).order≤b.order := by
  have hpow : 2^b.order≤2^15 := Nat.pow_le_pow_right (by decide) b.horder
  have hb : b.arenaBytes=2^b.order*32 := rfl
  have hpos := Nat.two_pow_pos b.order
  have hto : (if size.toNat < minBlock then minBlock.toUInt32 else size).toNat=
      (Block.mk 0 size).least := by
    change _=max size.toNat 32
    rw [minBlock]
    split_ifs
    · change 32=_; omega
    · omega
  have hle : (Block.mk 0 size).least≤2^(b.order+5) := by
    change max size.toNat 32≤_
    rw [Nat.pow_add]
    omega
  have hne : (if size.toNat < minBlock then minBlock.toUInt32 else size)≠0 := fun he => by
    rw [he] at hto
    have : 32≤(Block.mk 0 size).least := Nat.le_max_right _ _
    rw [← hto] at this
    exact absurd this (by decide)
  have h31 : (Block.mk 0 size).least≤2^31 :=
    hle.trans (Nat.pow_le_pow_right (by decide) (by have := b.horder; omega))
  constructor
  · rw [nextPow2_eq hne (by rw [hto]; exact h31),hto]
    change (Block.mk 0 size).bytes/minBlock=_
    rw [Block.bytes_eq,Nat.mul_div_cancel _ (by decide)]
  · rw [Block.order]
    have := Nat.clog_le_of_le_pow hle
    omega

theorem Held.no_room (h : Held b s) {size : UInt32} {addr : Nat}
    (hl : s.arena.longest 0<2^(Block.mk addr size).order) (ho : (Block.mk addr size).order≤b.order) :
    ¬s.Room b ⟨addr,size⟩ := by
  rintro ⟨_,hd,hlo,hhi,hap⟩
  obtain ⟨q,hat⟩ := Block.at_of_aligned ho h.aligned hd hlo hhi
  generalize Block.mk addr size=x at *
  have hroot := h.shows b.order 0 (Nat.le_refl _) (by rw [Nat.sub_self]; decide)
  have hin : Within x.order q b.order 0 := ⟨ho,Nat.div_eq_of_lt hat.2.1⟩
  have hfree : largest (usedBy s.arena.arenaBase s.live) x.order q=2^x.order :=
    largest_free fun i p hw => h.apart_unused hat hap ((within_first i p).trans hw)
      (within_first i p)
  have hle : 2^x.order≤largest (usedBy s.arena.arenaBase s.live) b.order 0 :=
    le_around hin (fun i p _ _ hw => h.apart_unused hat hap (within_first _ q)
      ((within_first _ q).trans hw)) hfree.ge
  rw [node_root] at hroot
  omega

theorem Held.give (h : Held b s) {x : Block} {q : Nat} (hat : x.At b s.arena.arenaBase q)
    (hfree : largest (usedBy s.arena.arenaBase s.live) x.order q=2^x.order)
    (hup : ∀i p,Within x.order q i p → i≤b.order → usedBy s.arena.arenaBase s.live i p=false) :
    Held b ⟨{s.arena with
      longest := allocUp (node b.order x.order q) (store s.arena.longest (node b.order x.order q) 0)
        (node b.order x.order q)},x::s.live⟩ := by
  have hap : ∀y∈s.live,x.Apart y := by
    intro y hy
    by_contra hna
    obtain ⟨p,hp⟩ := h.place y hy
    obtain ⟨m,h1,h2⟩ := hat.shared hp hna
    have hused : usedBy s.arena.arenaBase s.live y.order p=true :=
      usedBy_iff.2 ⟨y,hy,rfl,hp.2.2⟩
    have hunused : usedBy s.arena.arenaBase s.live y.order p=false := by
      rcases Nat.le_total x.order y.order with hle | hle
      · exact hup _ _ (h1.chain h2 hle) hp.1
      · exact unused_of_free hfree (h2.chain h1 hle)
    rw [hused] at hunused
    cases hunused
  have hcons : ∀i p,usedBy s.arena.arenaBase (x::s.live) i p=
      (x.order==i && x.addr==s.arena.arenaBase+p*(2^i*minBlock) ||
        usedBy s.arena.arenaBase s.live i p) := fun i p => List.any_cons
  have hself : usedBy s.arena.arenaBase (x::s.live) x.order q=true :=
    usedBy_iff.2 ⟨x,List.mem_cons_self,rfl,hat.2.2⟩
  have hrest : ∀i p,¬(i=x.order ∧ p=q) → usedBy s.arena.arenaBase s.live i p=
      usedBy s.arena.arenaBase (x::s.live) i p := by
    intro i p hne
    rw [hcons]
    have : (x.order==i && x.addr==s.arena.arenaBase+p*(2^i*minBlock))=false := by
      rw [Bool.and_eq_false_iff,beq_eq_false_iff_ne,beq_eq_false_iff_ne]
      by_contra hc
      rw [not_or,not_not,not_not] at hc
      obtain ⟨rfl,ha⟩ := hc
      exact hne ⟨rfl,(hat.unique ha).symm⟩
    rw [this,Bool.false_or]
  refine ⟨h.base,h.aligned,?_,List.pairwise_cons.2 ⟨hap,h.apart⟩,?_⟩
  · intro y hy
    rcases List.mem_cons.1 hy with rfl | hy
    · exact ⟨q,hat⟩
    · exact h.place y hy
  · have hch := h.shows.change hat.1 hat.2.1 hrest (largest_used hself).symm
    dsimp only
    rw [store_eq _ _ (show 0<2^16 by decide)]
    refine allocUp_shows b.horder hself (show x.order+(b.order-x.order)=_ by have := hat.1; omega)
      hat.2.1 (.refl _ _) (fun i p hi hw => ?_) (Nat.le_refl _) hch
    rw [← hrest i p (by omega)]
    by_contra hu
    obtain ⟨y,hy,rfl,hyp⟩ := h.used_at (Bool.not_eq_false _ ▸ hu)
    exact hu (hup y.order p hw hyp.1)

theorem Held.alloc (h : Held b s) (hr : s.arena.ready=true) (p : Palloc.Zones) (size : UInt32) :
    ∃a s',s.alloc b p size=some (a,s') ∧ s'.arena.ready=true ∧ Held b s' ∧
      (size≠0 → a=0 → ∀addr,¬s'.Room b ⟨addr,size⟩) := by
  rw [Sys.alloc,ballocAlloc]
  by_cases h0 : size=0 ∨ b.arenaBytes < size.toNat
  · rw [if_pos h0]
    refine ⟨0,s,rfl,hr,h,?_⟩
    rintro hz - addr ⟨_,_,hlo,hhi,_⟩
    have hle : max size.toNat minBlock≤(Block.mk addr size).bytes :=
      (Block.mk addr size).bytes_least.1.2
    have := h0.resolve_left hz
    omega
  rw [not_or,Nat.not_lt] at h0
  obtain ⟨hneed,ho⟩ := leavesNeeded_eq h0.2
  rw [if_neg (by rw [not_or,Nat.not_lt]; exact h0),if_pos hr]
  dsimp only
  rw [hneed,if_neg (show ¬((!true)=true) by decide)]
  by_cases hroot : s.arena.longest 0<2^(Block.mk 0 size).order
  · rw [if_pos hroot]
    exact ⟨0,s,rfl,hr,h,fun _ _ addr => h.no_room hroot ho⟩
  rw [if_neg hroot]
  have hshow := h.shows b.order 0 (Nat.le_refl _) (by rw [Nat.sub_self]; decide)
  rw [node_root] at hshow
  obtain ⟨d,hd⟩ := Nat.exists_eq_add_of_le ho
  have hs := h.shows
  rw [hd] at hs hshow
  obtain ⟨q,hq,hw,hfree,hup⟩ := descend_spec hs (Nat.le_refl _)
    (show 0<2^((Block.mk 0 size).order+d-((Block.mk 0 size).order+d)) by rw [Nat.sub_self]; decide)
    (by rw [← hshow]; omega) (show d<b.order+1 by omega)
  rw [node_root] at hq
  rw [← hd] at hq hw hup
  have hlt := hw.lt (Nat.le_refl _) (by rw [Nat.sub_self]; decide)
  rw [Build.numLeaves,hq]
  have hpow : 2^b.order=2^(b.order-(Block.mk 0 size).order)*2^(Block.mk 0 size).order := by
    rw [← Nat.pow_add,Nat.sub_add_cancel ho]
  have hoff : (node b.order (Block.mk 0 size).order q+1)*2^(Block.mk 0 size).order-2^b.order=
      q*2^(Block.mk 0 size).order := by
    have hpos := Nat.two_pow_pos (b.order-(Block.mk 0 size).order)
    rw [hpow,← Nat.sub_mul,node]
    congr 1
    omega
  simp only [Option.bind_eq_bind,Option.bind_some,Option.pure_def]
  rw [hoff]
  have ha : s.arena.arenaBase+q*2^(Block.mk 0 size).order*minBlock≠0 := by
    have := h.base
    omega
  rw [if_neg ha]
  refine ⟨_,_,rfl,hr,h.give (x := ⟨s.arena.arenaBase+q*2^(Block.mk 0 size).order*minBlock,size⟩)
    ⟨ho,hlt,by rw [← Nat.mul_assoc]; rfl⟩ hfree hup,fun _ hz => absurd hz ha⟩

theorem reserve_spec (s : Arena) {p : Palloc.Zones} (hp : Pages b p) :
    (∃p',ballocReserve b s p=(false,s,p')) ∨
      ∃arena p',ballocReserve b s p=(true,arena,p') ∧ arena.ready=true ∧ Held b ⟨arena,[]⟩ := by
  have hz := Palloc.zoneAlloc_spec (n := b.arenaPages) hp.ok hp.plain
  rw [ballocReserve,Palloc.pallocPagesAligned]
  generalize Palloc.zoneAlloc (p.zone .fast) b.arenaPages b.arenaPages=r at hz
  cases hz with
  | none _ => exact .inl ⟨_,if_pos rfl⟩
  | some i _ _ hd _ =>
    dsimp only
    by_cases h0 : (p.zone .fast).base+i*Palloc.pageSize=0
    · exact .inl ⟨_,if_pos h0⟩
    · rw [if_neg h0]
      refine .inr ⟨_,_,rfl,rfl,h0,?_,fun x hx => (by cases hx),List.Pairwise.nil,?_⟩
      · rw [b.leaves] at hd
        exact hd
      · exact reserved_shows b s.longest

end Alloc

section Free

theorem Held.take (h : Held b s) {x : Block} {q : Nat} (hx : x∈s.live)
    (hat : x.At b s.arena.arenaBase q) :
    Held b ⟨{s.arena with
      longest := freeUp (node b.order x.order q)
        (store s.arena.longest (node b.order x.order q) (2^x.order)) (node b.order x.order q)
        (2^x.order)},s.live.filter fun y => y.addr≠x.addr⟩ := by
  set rest := s.live.filter fun y => y.addr≠x.addr with hrest
  have hmem : ∀y,y∈rest ↔ y∈s.live ∧ y.addr≠x.addr := fun y => by
    rw [hrest,List.mem_filter,decide_eq_true_eq]
  have hsame : ∀i p,¬(i=x.order ∧ p=q) → usedBy s.arena.arenaBase s.live i p=
      usedBy s.arena.arenaBase rest i p := by
    intro i p hne
    rw [Bool.eq_iff_iff,usedBy_iff,usedBy_iff]
    constructor
    · rintro ⟨y,hy,rfl,ha⟩
      refine ⟨y,(hmem y).2 ⟨hy,fun he => hne ?_⟩,rfl,ha⟩
      obtain rfl : y=x := by
        by_contra hyx
        have hap := h.apart.forall hy hx hyx
        have := y.bytes_pos
        have := x.bytes_pos
        rw [Block.Apart,he] at hap
        omega
      exact ⟨rfl,(hat.unique ha).symm⟩
    · rintro ⟨y,hy,hk,ha⟩
      exact ⟨y,((hmem y).1 hy).1,hk,ha⟩
  -- what shares a unit with the block is the block, and that is gone
  have hgone : ∀{i p m},Within 0 m x.order q → Within 0 m i p →
      usedBy s.arena.arenaBase rest i p=false := by
    intro i p m h1 h2
    by_contra hu
    obtain ⟨y,hy,rfl,ha⟩ := usedBy_iff.1 (Bool.not_eq_false _ ▸ hu)
    obtain ⟨hyl,hne⟩ := (hmem y).1 hy
    obtain ⟨p',hp'⟩ := h.place y hyl
    have := h.same hx hyl hat (hp'.unique ha ▸ hp') h1 h2
    exact hne (this ▸ rfl)
  have hfree : 2^x.order=largest (usedBy s.arena.arenaBase rest) x.order q :=
    (largest_free fun i p hw => hgone ((within_first i p).trans hw) (within_first i p)).symm
  have hsize : 2^x.order<2^16 := Nat.pow_lt_pow_right (by decide) (by
    have := hat.1; have := b.horder; omega)
  refine ⟨h.base,h.aligned,fun y hy => h.place y ((hmem y).1 hy).1,h.apart.filter _,?_⟩
  dsimp only
  rw [store_eq _ _ hsize]
  exact freeUp_shows b.horder (show x.order+(b.order-x.order)=_ by have := hat.1; omega) hat.2.1
    (fun i p _ hw => hgone (within_first _ q) ((within_first _ q).trans hw)) (Nat.le_refl _)
    (h.shows.change hat.1 hat.2.1 hsame hfree)

theorem Held.leaf_unused (h : Held b s) {m : Nat}
    (hm : ∀x∈s.live,¬(x.addr ≤ s.arena.arenaBase+m*minBlock ∧
      s.arena.arenaBase+m*minBlock<x.addr+x.bytes)) {i p : Nat} (hw : Within 0 m i p) :
    usedBy s.arena.arenaBase s.live i p=false := by
  by_contra hu
  obtain ⟨x,hx,rfl,hat⟩ := h.used_at (Bool.not_eq_false _ ▸ hu)
  exact hm x hx (hat.unit.1 hw)

theorem Held.free (h : Held b s) (hr : s.arena.ready=true) {ptr : Nat} (hf : Freeable s ptr) :
    (∃x∈s.live,x.addr=ptr ∧ ∃q,x.At b s.arena.arenaBase q ∧ ballocFree b s.arena ptr=
      {s.arena with
        longest := freeUp (node b.order x.order q)
          (store s.arena.longest (node b.order x.order q) (2^x.order)) (node b.order x.order q)
          (2^x.order)}) ∨
    ((∀x∈s.live,x.addr≠ptr) ∧ ballocFree b s.arena ptr=s.arena) := by
  have hnear := hf.near
  have hpos := Nat.two_pow_pos b.order
  by_cases hlive : ∃x∈s.live,x.addr=ptr
  · obtain ⟨x,hx,rfl⟩ := hlive
    obtain ⟨q,hat⟩ := h.place x hx
    have hb := h.base
    have ha := hat.2.2
    rw [← Nat.mul_assoc] at ha
    have hlt : q*2^x.order<2^b.order := by
      rw [← Nat.sub_add_cancel hat.1,Nat.pow_add]
      exact Nat.mul_lt_mul_of_pos_right hat.2.1 (Nat.two_pow_pos _)
    have hpow : 2^b.order≤2^15 := Nat.pow_le_pow_right (by decide) b.horder
    have hm : minBlock=32 := rfl
    have hz := findZero_used h.shows hat.1 hat.2.1 (usedBy_iff.2 ⟨x,hx,rfl,hat.2.2⟩)
      (Nat.zero_add x.order) (within_first x.order q)
      (show x.order<node b.order 0 (q*2^x.order)+1 by
        have := hat.1
        have := Nat.lt_two_pow_self (n := b.order)
        rw [node,Nat.sub_zero]
        omega)
      fun i p hw hne => ?_
    · refine .inl ⟨x,hx,rfl,q,hat,?_⟩
      have hleaf : (x.addr-s.arena.arenaBase)/minBlock%2^32=q*2^x.order := by
        rw [ha,Nat.add_sub_cancel_left,Nat.mul_div_cancel _ (by decide)]
        omega
      have hnode : q*2^x.order+2^b.order-1=node b.order 0 (q*2^x.order) := by
        rw [node,Nat.sub_zero]
        omega
      rw [ballocFree,if_neg (by rw [hr]; simp; omega),if_neg (by omega)]
      dsimp only
      rw [if_neg (by rw [ha,Nat.add_sub_cancel_left,Nat.mul_mod_left]; simp),hleaf,
        if_neg (by rw [Build.numLeaves]; omega),Build.numLeaves,hnode,
        show findZero s.arena.longest _ _ 1=_ from hz]
    · by_contra hu
      obtain ⟨y,hy,rfl,hyp⟩ := h.used_at (Bool.not_eq_false _ ▸ hu)
      obtain rfl := h.same hx hy hat hyp ((within_first y.order p).trans hw) (within_first _ p)
      exact hne ⟨rfl,(hyp.unique hat.2.2)⟩
  · have hno : ∀x∈s.live,x.addr≠ptr := fun x hx he => hlive ⟨x,hx,he⟩
    refine .inr ⟨hno,?_⟩
    rw [ballocFree]
    split_ifs with h0 h1
    · rfl
    · rfl
    · dsimp only
      split_ifs with h2 h3
      · rfl
      · rfl
      · have hm : minBlock=32 := rfl
        rw [hm] at h2
        have hleaf : (ptr-s.arena.arenaBase)/minBlock%2^32=(ptr-s.arena.arenaBase)/minBlock := by
          rw [hm]; omega
        rw [hleaf] at h3 ⊢
        rw [Build.numLeaves] at h3
        generalize hmd : (ptr-s.arena.arenaBase)/minBlock=m at *
        have hptr : s.arena.arenaBase+m*minBlock=ptr := by rw [hm] at hmd ⊢; omega
        have hnode : m+2^b.order-1=node b.order 0 m := by
          rw [node,Nat.sub_zero]
          omega
        have hz := findZero_unused h.shows (fun i p _ hw => h.leaf_unused (m := m) (fun x hx hc => by
          rw [hptr] at hc
          have := hno x hx
          exact hf.outer x hx ⟨by omega,hc.2⟩) hw) (Nat.zero_add b.order) (.refl 0 m)
          (show m<2^(b.order-0) by rw [Nat.sub_zero]; omega)
          (show b.order<node b.order 0 m+1 by
            have := Nat.lt_two_pow_self (n := b.order)
            rw [node,Nat.sub_zero]
            omega)
        rw [Build.numLeaves,hnode,show findZero s.arena.longest _ _ 1=_ from hz]

end Free

theorem inv_init (b : Build) : Inv b Sys.init :=
  ⟨fun h => (by cases h),fun _ => rfl⟩

theorem Inv.alloc (h : Inv b s) {p : Palloc.Zones} (hp : Pages b p) (size : UInt32) :
    ∃a s',s.alloc b p size=some (a,s') ∧ Inv b s' ∧
      (size≠0 → a=0 → ∀addr,¬s'.Room b ⟨addr,size⟩) := by
  have hready : ∀{s' : Sys},s'.arena.ready=true → Held b s' → Inv b s' := fun hr hh =>
    ⟨fun _ => hh,fun hf => by rw [hr] at hf; cases hf⟩
  cases hr : s.arena.ready with
  | true =>
    obtain ⟨a,s',ha,hr',hh,hno⟩ := (h.held hr).alloc hr p size
    exact ⟨a,s',ha,hready hr' hh,hno⟩
  | false =>
    have hlive := h.none hr
    by_cases h0 : size=0 ∨ b.arenaBytes < size.toNat
    · refine ⟨0,s,?_,h,?_⟩
      · rw [Sys.alloc,ballocAlloc,if_pos h0]; rfl
      · rintro - - addr ⟨hr',_⟩
        rw [hr] at hr'
        cases hr'
    rcases reserve_spec s.arena hp with ⟨p',hres⟩ | ⟨arena,p',hres,hr',hh⟩
    · refine ⟨0,s,?_,h,?_⟩
      · rw [Sys.alloc,ballocAlloc,if_neg h0,if_neg (by rw [hr]; exact Bool.false_ne_true),hres]
        rfl
      · rintro - - addr ⟨hr',_⟩
        rw [hr] at hr'
        cases hr'
    · -- from here on as in an arena that is there
      obtain ⟨a,s',ha,hrs,hhs,hno⟩ := hh.alloc hr' p' size
      refine ⟨a,s',?_,hready hrs hhs,hno⟩
      rw [← ha,Sys.alloc,Sys.alloc,ballocAlloc,ballocAlloc,if_neg h0,if_neg h0,
        if_neg (show ¬s.arena.ready=true by rw [hr]; exact Bool.false_ne_true),hres,if_pos hr',
        hlive]

theorem Inv.free (h : Inv b s) {ptr : Nat} (hf : Freeable s ptr) : Inv b (s.free b ptr) := by
  cases hr : s.arena.ready with
  | false =>
    have hs : s.free b ptr=s := by
      rw [Sys.free,ballocFree,hr,h.none hr]
      have : s=⟨s.arena,s.live⟩ := rfl
      rw [this,h.none hr]
      rfl
    rw [hs]
    exact h
  | true =>
    have hh := h.held hr
    rcases hh.free hr hf with ⟨x,hx,rfl,q,hat,he⟩ | ⟨hno,he⟩
    · rw [Sys.free,he]
      exact ⟨fun _ => hh.take hx hat,fun hf' => by dsimp only at hf'; rw [hr] at hf'; cases hf'⟩
    · have hs : s.free b ptr=s := by
        have hfil : (s.live.filter fun x => x.addr≠ptr)=s.live :=
          List.filter_eq_self.2 fun x hx => decide_eq_true (hno x hx)
        rw [Sys.free,he,hfil]
      rw [hs]
      exact h

theorem Inv.step (h : Inv b s) {e : Event} {s' : Sys} (hs : Step b s e s') : Inv b s' := by
  cases hs with
  | alloc hp ha =>
    obtain ⟨a',s1,h1,hi,_⟩ := h.alloc hp _
    rw [ha] at h1
    obtain ⟨rfl,rfl⟩ := Prod.mk.inj (Option.some.inj h1)
    exact hi
  | free hf => exact h.free hf

theorem exists_node {n i : Nat} (hi : i+1<2^(n+1)) : ∃k p,k≤n ∧ p<2^(n-k) ∧ i=node n k p := by
  obtain ⟨hl,hu⟩ := (Nat.log2_eq_iff (show i+1≠0 by omega)).1 rfl
  have hlt : (i+1).log2<n+1 := (Nat.pow_lt_pow_iff_right (show 1<2 by decide)).1 (hl.trans_lt hi)
  rw [Nat.pow_succ] at hu
  refine ⟨n-(i+1).log2,i+1-2^(i+1).log2,by omega,?_,?_⟩
  · rw [show n-(n-(i+1).log2)=(i+1).log2 by omega]; omega
  · rw [node,show n-(n-(i+1).log2)=(i+1).log2 by omega]; omega

theorem Inv.sound (h : Inv b s) : Sound b s where
  apart := by
    cases hr : s.arena.ready with
    | true => exact (h.held hr).apart
    | false => rw [h.none hr]; exact List.Pairwise.nil
  least x _ := x.bytes_least
  inside x hx := by
    cases hr : s.arena.ready with
    | false => rw [h.none hr] at hx; cases hx
    | true =>
      obtain ⟨q,ho,hq,ha⟩ := (h.held hr).place x hx
      rw [← x.bytes_eq] at ha
      have hin : q*x.bytes+x.bytes≤b.arenaBytes := by
        have hb : b.arenaBytes=2^(b.order-x.order)*x.bytes := by
          rw [x.bytes_eq,← Nat.mul_assoc,← Nat.pow_add,Nat.sub_add_cancel ho]
          rfl
        rw [hb,← Nat.succ_mul]
        exact Nat.mul_le_mul_right _ hq
      have hbase : x.bytes∣s.arena.arenaBase := by
        rw [x.bytes_eq]
        exact Nat.dvd_trans (Nat.mul_dvd_mul_right (Nat.pow_dvd_pow 2 ho) _) (h.held hr).aligned
      exact ⟨rfl,by rw [ha]; exact Nat.dvd_add hbase (Nat.dvd_mul_left _ _),by omega,by omega⟩
  alloc p size hp := by
    obtain ⟨a,s',ha,_,hno⟩ := h.alloc hp size
    exact ⟨a,s',ha,hno⟩
  free ptr hnear hout := by
    have hf : Freeable s ptr := ⟨hnear,fun x hx hc => hout x hx ⟨by omega,hc.2⟩⟩
    have hno : ∀x∈s.live,x.addr≠ptr := fun x hx he =>
      hout x hx ⟨by omega,by have := x.bytes_pos; omega⟩
    have hfil : (s.live.filter fun x => x.addr≠ptr)=s.live :=
      List.filter_eq_self.2 fun x hx => decide_eq_true (hno x hx)
    have harena : ballocFree b s.arena ptr=s.arena := by
      cases hr : s.arena.ready with
      | false => rw [ballocFree,hr]; rfl
      | true =>
        rcases (h.held hr).free hr hf with ⟨x,hx,he,_⟩ | ⟨_,he⟩
        · exact absurd he (hno x hx)
        · exact he
    rw [Sys.free,hfil,harena]
  empty hr hl i hi f := by
    have hsh := (h.held hr).shows
    rw [hl] at hsh
    have hpow : 2^(b.order+1)=2^b.order*2 := Nat.pow_succ ..
    have hpos := Nat.two_pow_pos b.order
    rw [Build.nodeCount,Build.numLeaves] at hi
    obtain ⟨k,p,hk,hp,rfl⟩ := exists_node (n := b.order) (i := i) (by omega)
    rw [reserved_shows b f k p hk hp]
    exact hsh k p hk hp

/-- Every run of allocations and frees. -/
theorem balloc_sound {h : List Event} {s : Sys} (hr : Reach (Step b) Sys.init h s) : Sound b s :=
  (hr.invariant (fun _ s => Inv b s) (inv_init b) fun _ _ _ _ hi hs => hi.step hs).sound

/-- An arena of one page, and a page allocator with just that page. -/
def onePage : Build := ⟨1,7,rfl,by decide⟩

def onePageZones : Palloc.Zones where
  zone _ := ⟨0x80201000,1,fun _ => 0,1,by decide,0,0⟩
  hasBulk := false
  fallbacks := 0

theorem onePage_pages : Pages onePage onePageZones where
  ok := ⟨Nat.le_refl 1,by decide,by decide,Nat.le_refl 0⟩
  plain := ⟨fun _ => by decide,by decide⟩

def given (size : UInt32) : Option (Nat×Sys) := Sys.init.alloc onePage onePageZones size

theorem given_reach {size : UInt32} {a : Nat} {s : Sys} (h : given size=some (a,s)) :
    Reach (Step onePage) Sys.init [.alloc onePageZones size] s :=
  Reach.start.next (.alloc onePage_pages h)

theorem balloc_sound_two : ∃s,(given 40).bind (fun r => r.2.alloc onePage onePageZones 100)=
      some (0x80201080,s) ∧ Sound onePage (s.free onePage 0x80201000) ∧
    (s.free onePage 0x80201000).live.map Block.addr=[0x80201080] := by
  have h : ((given 40).bind fun r => r.2.alloc onePage onePageZones 100).map (fun r =>
      (r.1,r.2.arena.arenaBase,r.2.live.map fun x => (x.addr,x.bytes)))=
      some (0x80201080,0x80201000,[(0x80201080,128),(0x80201000,64)]) := by decide +kernel
  obtain ⟨⟨a,s⟩,ha,hs⟩ := Option.map_eq_some_iff.1 h
  obtain ⟨⟨a1,s1⟩,h1,h2⟩ := Option.bind_eq_some_iff.1 ha
  simp only [Prod.mk.injEq] at hs
  obtain ⟨rfl,hb,hl⟩ := hs
  have hm : s.live.map Block.addr=[0x80201080,0x80201000] := by
    have := congrArg (List.map Prod.fst) hl
    rw [List.map_map] at this
    exact this
  have hf : Freeable s 0x80201000 := by
    refine ⟨by omega,fun x hx hc => ?_⟩
    have hx' := List.mem_map_of_mem (f := Block.addr) hx
    rw [hm] at hx'
    simp only [List.mem_cons,List.not_mem_nil,or_false] at hx'
    omega
  refine ⟨s,ha,balloc_sound (((given_reach h1).next (.alloc onePage_pages h2)).next (.free hf)),?_⟩
  rw [Sys.free,show (fun x : Block => decide (x.addr≠0x80201000))=
    (fun v => decide (v≠0x80201000))∘Block.addr from rfl,← List.filter_map,hm]
  decide

/-- A request of no bytes fails with room left. -/
theorem empty_request_refused :
    ¬∀(b : Build) (h : List Event) (s : Sys),Reach (Step b) Sys.init h s →
      ∀(p : Palloc.Zones) (size : UInt32),Pages b p → ∃a s',s.alloc b p size=some (a,s') ∧
        (a=0 → ∀addr,¬s'.Room b ⟨addr,size⟩) := by
  intro hall
  have h : (given 40).map (fun r => (r.2.arena.ready,r.2.arena.arenaBase,
      r.2.live.map fun x => (x.addr,x.bytes)))=some (true,0x80201000,[(0x80201000,64)]) := by
    decide +kernel
  obtain ⟨⟨a,s⟩,hg,hs⟩ := Option.map_eq_some_iff.1 h
  simp only [Prod.mk.injEq] at hs
  obtain ⟨hr,hb,hl⟩ := hs
  obtain ⟨a',s',ha,hno⟩ := hall _ _ _ (given_reach hg) onePageZones 0 onePage_pages
  rw [Sys.alloc,ballocAlloc,if_pos (.inl rfl)] at ha
  obtain ⟨rfl,rfl⟩ := Prod.mk.inj (Option.some.inj ha)
  refine hno rfl 0x80201040 ⟨hr,by decide +kernel,?_,?_,?_⟩
  · dsimp only; omega
  · dsimp only
    rw [hb]
    decide +kernel
  · intro y hy
    have hm : (y.addr,y.bytes)∈s.live.map fun x => (x.addr,x.bytes) :=
      List.mem_map.2 ⟨y,hy,rfl⟩
    rw [hl,List.mem_singleton,Prod.mk.injEq] at hm
    right
    dsimp only
    omega

end LugalOS.Balloc
