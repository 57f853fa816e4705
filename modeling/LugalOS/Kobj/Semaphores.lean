import LugalOS.Kobj.Waiting

namespace LugalOS.Kobj

open Function (update)

variable {n : Nat} {ws ws' : Waiters n} {s : Sem n}

/-- Nobody waits while there is something to be had. -/
structure Sem.Sound (ws : Waiters n) (s : Sem n) : Prop where
  threads : Threads ws s.w (s.w.members ws)
  none : s.w.members ws≠[] → s.count=0
  bound : s.count ≤ s.max

theorem Sem.Sound.congr (h : s.Sound ws) (hs : ∀x∈s.w.members ws,ws' x=ws x) :
    s.Sound ws' ∧ s.w.members ws'=s.w.members ws := by
  have hth := h.threads.congr hs
  refine ⟨⟨hth.self,?_,h.bound⟩,hth.members⟩
  rw [hth.members]
  exact h.none

theorem Sem.drop_spec (h : s.Sound ws) {w : Fin n} (hw : w∈s.w.members ws)
    {r : Waiters n×Sem n} (hr : Sem.drop w ws s=r) :
    r.2.Sound (r.1.setState w .idle) ∧
      Edit ws (r.1.setState w .idle) (s.w.members ws) (r.2.w.members (r.1.setState w .idle)) ∧
      r.2.w.members (r.1.setState w .idle)=(s.w.members ws).erase w ∧ r.2.count=s.count ∧
      r.2.max=s.max ∧ (r.1.setState w .idle w).state=.idle := by
  subst hr
  obtain ⟨x,hx,hth,hed,hidle⟩ := remove_spec h.threads hw
  rw [Sem.drop,wlDrop,hx]
  dsimp only [Option.getD_some]
  rw [hth.members]
  refine ⟨⟨hth.self,?_,h.bound⟩,hed,rfl,rfl,rfl,hidle⟩
  dsimp only
  rw [hth.members]
  exact fun hne => h.none fun he => hne (by rw [he]; rfl)

theorem Sem.take_spec (h : s.Sound ws) {w : Option (Fin n)} (hw : ∀x∈w,(ws x).state≠.wait)
    (who : Int) {r : Answer×Waiters n×Sem n} (hr : Sem.take ws s w who=r) :
    r.2.2.Sound r.2.1 ∧ Edit ws r.2.1 (s.w.members ws) (r.2.2.w.members r.2.1) ∧
      r.2.2.max=s.max ∧
      ((r.1.ko=.ok ∧ r.2.1=ws ∧ r.2.2.w=s.w ∧ r.2.2.count.toNat+1=s.count.toNat) ∨
        (r.1.ko=.again ∧ r.2=(ws,s)) ∨
        (∃x∈w,r.1.ko=.block ∧ r.2.2.count=s.count ∧
          r.2.2.w.members r.2.1=s.w.members ws++[x] ∧ (r.2.1 x).state=.wait)) := by
  subst hr
  unfold Sem.take
  by_cases hc : s.count > 0
  · rw [if_pos hc]
    have hpos : 0 < s.count.toNat := UInt32.lt_iff_toNat_lt.mp hc
    have hsub : (s.count-1).toNat=s.count.toNat-1 :=
      UInt32.toNat_sub_of_le _ _ (by rw [UInt32.le_iff_toNat_le]; exact hpos)
    have hempty : s.w.members ws=[] := by
      by_contra hne
      rw [h.none hne] at hpos
      exact absurd hpos (by decide)
    refine ⟨⟨h.threads,fun hne => absurd hempty hne,?_⟩,.refl ws _,rfl,
      .inl ⟨rfl,rfl,rfl,?_⟩⟩
    · have hb := UInt32.le_iff_toNat_le.mp h.bound
      rw [UInt32.le_iff_toNat_le]
      dsimp only
      omega
    · dsimp only
      omega
  · rw [if_neg hc]
    have hzero : s.count=0 := by
      apply UInt32.toNat_inj.mp
      have : ¬0 < s.count.toNat := fun hp => hc (UInt32.lt_iff_toNat_lt.mpr hp)
      have h0 : (0 : UInt32).toNat=0 := rfl
      omega
    cases w with
    | none => exact ⟨h,.refl ws _,rfl,.inr (.inl ⟨rfl,rfl⟩)⟩
    | some w =>
      obtain ⟨hth,hed,hcw⟩ := enqueue_spec h.threads (hw w rfl) (ws w) rfl who
      rw [Function.update_eq_self] at hth hed hcw
      have hm := hth.members
      refine ⟨⟨?_,fun _ => hzero,h.bound⟩,?_,rfl,.inr (.inr ⟨w,rfl,rfl,rfl,hm,?_⟩)⟩
      · dsimp only
        rw [hm]
        exact hth
      · dsimp only
        rw [hm]
        exact hed
      · exact core_state hcw

theorem Sem.give_spec (h : s.Sound ws) {r : Answer×Waiters n×Sem n} (hr : Sem.give ws s=r) :
    r.2.2.Sound r.2.1 ∧ Edit ws r.2.1 (s.w.members ws) (r.2.2.w.members r.2.1) ∧
      r.2.2.max=s.max ∧
      ((∃x,s.w.members ws=x::r.2.2.w.members r.2.1 ∧ r.1.ko=.ok ∧ (r.2.1 x).state=.grant ∧
          r.2.2.count=s.count) ∨
        (s.w.members ws=[] ∧ r.1.ko=.full ∧ r.2=(ws,s)) ∨
        (s.w.members ws=[] ∧ r.1.ko=.ok ∧ r.2.1=ws ∧ r.2.2.w=s.w ∧
          r.2.2.count.toNat=s.count.toNat+1)) := by
  subst hr
  unfold Sem.give
  cases hm : s.w.members ws with
  | nil =>
    have hth := h.threads
    rw [hm] at hth
    rw [wlPop_none hth]
    dsimp only
    by_cases hc : s.count≥s.max
    · rw [if_pos hc]
      exact ⟨h,hm ▸ .refl ws _,rfl,.inr (.inl ⟨rfl,rfl,rfl⟩)⟩
    · rw [if_neg hc]
      have hlt : s.count.toNat < s.max.toNat :=
        Nat.lt_of_not_le fun hx => hc (UInt32.le_iff_toNat_le.mpr hx)
      have hadd : (s.count+1).toNat=s.count.toNat+1 := by
        rw [UInt32.toNat_add]
        have := s.max.toNat_lt
        change (_+1)%2^32=_
        omega
      refine ⟨⟨h.threads,fun hne => absurd hm hne,?_⟩,?_,rfl,.inr (.inr ⟨rfl,rfl,rfl,rfl,hadd⟩)⟩
      · rw [UInt32.le_iff_toNat_le]
        dsimp only
        omega
      · dsimp only
        rw [hm]
        exact .refl ws _
  | cons x m =>
    have hth := h.threads
    rw [hm] at hth
    obtain ⟨l',hpop,hth',hed,hx⟩ := serve_spec hth
      (Eq.refl ((ws.setNext x none).setState x .grant)) fun hx => by cases hx
    have hm' := hth'.members
    rw [hpop]
    dsimp only
    rw [hm']
    refine ⟨⟨hth'.self,fun _ => h.none (by rw [hm]; exact List.cons_ne_nil _ _),h.bound⟩,hed,rfl,
      .inl ⟨x,rfl,rfl,?_,rfl⟩⟩
    rw [hx]

end LugalOS.Kobj
