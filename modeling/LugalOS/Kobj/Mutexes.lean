import LugalOS.Kobj.Waiting

namespace LugalOS.Kobj

open Function (update)

variable {n : Nat} {ws ws' : Waiters n} {m : Mutex n}

/-- Those that wait are other tasks than the owner, and each waits once. -/
structure Mutex.Sound (ws : Waiters n) (m : Mutex n) : Prop where
  threads : Threads ws m.w (m.w.members ws)
  owned : m.w.members ws≠[] → 0 ≤ m.owner
  others : ∀w∈m.w.members ws,0≤(ws w).who ∧ (ws w).who≠m.owner
  distinct : ((m.w.members ws).map fun w => (ws w).who).Nodup

theorem core_who {x y : KWaiter n} (h : x.core=y.core) : x.who=y.who :=
  show x.core.who=y.core.who from congrArg KWaiter.who h

theorem Mutex.Sound.congr (h : m.Sound ws) (hs : ∀x∈m.w.members ws,ws' x=ws x) :
    m.Sound ws' ∧ m.w.members ws'=m.w.members ws := by
  have hth := h.threads.congr hs
  refine ⟨⟨hth.self,?_,?_,?_⟩,hth.members⟩
  · rw [hth.members]
    exact h.owned
  · rw [hth.members]
    exact fun x hx => by rw [hs x hx]; exact h.others x hx
  · rw [hth.members,List.map_congr_left fun x hx => by rw [hs x hx]]
    exact h.distinct

theorem Mutex.drop_spec (h : m.Sound ws) {w : Fin n} (hw : w∈m.w.members ws)
    {r : Waiters n×Mutex n} (hr : Mutex.drop w ws m=r) :
    r.2.Sound (r.1.setState w .idle) ∧
      Edit ws (r.1.setState w .idle) (m.w.members ws) (r.2.w.members (r.1.setState w .idle)) ∧
      r.2.w.members (r.1.setState w .idle)=(m.w.members ws).erase w ∧ r.2.owner=m.owner ∧
      r.2.depth=m.depth ∧ (r.1.setState w .idle w).state=.idle := by
  subst hr
  obtain ⟨x,hx,hth,hed,hidle⟩ := remove_spec h.threads hw
  have hwho : ∀y∈(m.w.members ws).erase w,(x.1.setState w .idle y).who=(ws y).who := fun y hy =>
    core_who (hed.core y (List.mem_of_mem_erase hy) hy)
  rw [Mutex.drop,wlDrop,hx]
  dsimp only [Option.getD_some]
  rw [hth.members]
  refine ⟨⟨hth.self,?_,?_,?_⟩,hed,rfl,rfl,rfl,hidle⟩
  · dsimp only
    rw [hth.members]
    exact fun hne => h.owned fun he => hne (by rw [he]; rfl)
  · dsimp only
    rw [hth.members]
    intro y hy
    rw [hwho y hy]
    exact h.others y (List.mem_of_mem_erase hy)
  · dsimp only
    rw [hth.members,List.map_congr_left hwho]
    exact h.distinct.sublist (List.Sublist.map _ List.erase_sublist)

theorem Mutex.lock_spec (h : m.Sound ws) {w : Option (Fin n)} (hw : ∀x∈w,(ws x).state≠.wait)
    {who : Int} (hwho : 0≤who) (hnew : ∀x∈m.w.members ws,(ws x).who≠who)
    {r : Answer×Waiters n×Mutex n} (hr : Mutex.lock ws m w who=r) :
    r.2.2.Sound r.2.1 ∧ Edit ws r.2.1 (m.w.members ws) (r.2.2.w.members r.2.1) ∧
      ((r.1.ko=.ok ∧ r.2.1=ws ∧ r.2.2.w=m.w ∧ r.2.2.owner=who ∧
          ((m.owner < 0 ∧ r.2.2.depth=1) ∨
            (m.owner=who ∧ m.recursive=true ∧ r.2.2.depth=m.depth+1))) ∨
        (r.1.ko≠.ok ∧ r.1.ko≠.block ∧ r.2=(ws,m)) ∨
        (∃x∈w,r.1.ko=.block ∧ r.2.2.owner=m.owner ∧ r.2.2.depth=m.depth ∧
          r.2.2.w.members r.2.1=m.w.members ws++[x] ∧ (r.2.1 x).state=.wait)) := by
  subst hr
  unfold Mutex.lock
  by_cases hfree : m.owner < 0
  · rw [if_pos hfree]
    have hempty : m.w.members ws=[] := by
      by_contra hne
      exact absurd (h.owned hne) (Int.not_le.mpr hfree)
    refine ⟨⟨h.threads,fun _ => hwho,?_,h.distinct⟩,.refl ws _,
      .inl ⟨rfl,rfl,rfl,rfl,.inl ⟨hfree,rfl⟩⟩⟩
    intro x hx
    dsimp only at hx
    rw [hempty] at hx
    exact absurd hx List.not_mem_nil
  · rw [if_neg hfree]
    by_cases hown : m.owner=who
    · rw [if_pos hown]
      cases hrec : m.recursive with
      | false => exact ⟨h,.refl ws _,.inr (.inl ⟨(fun hx => by cases hx),(fun hx => by cases hx),rfl⟩)⟩
      | true => exact ⟨⟨h.threads,h.owned,h.others,h.distinct⟩,.refl ws _,
          .inl ⟨rfl,rfl,rfl,hown,.inr ⟨hown,rfl,rfl⟩⟩⟩
    · rw [if_neg hown]
      cases w with
      | none => exact ⟨h,.refl ws _,.inr (.inl ⟨(fun hx => by cases hx),(fun hx => by cases hx),rfl⟩)⟩
      | some w =>
        obtain ⟨hth,hed,hcw⟩ := enqueue_spec h.threads (hw w rfl) (ws w) rfl who
        rw [Function.update_eq_self] at hth hed hcw
        set ws' := (enqueue ws m.w w who).1 with hws
        have hm : (enqueue ws m.w w who).2.members ws'=m.w.members ws++[w] := hth.members
        have hww : (ws' w).who=who := core_who hcw
        have hold : ∀x∈m.w.members ws,(ws' x).who=(ws x).who := fun x hx =>
          core_who (hed.core x hx (List.mem_append_left _ hx))
        refine ⟨⟨?_,fun _ => Int.not_lt.mp hfree,?_,?_⟩,?_,
          .inr (.inr ⟨w,rfl,rfl,rfl,rfl,hm,core_state hcw⟩)⟩
        · dsimp only
          rw [hm]
          exact hth
        · dsimp only
          rw [hm]
          intro x hx
          rcases List.mem_append.mp hx with hx|hx
          · rw [hold x hx]
            exact h.others x hx
          · rw [List.mem_singleton.mp hx,hww]
            exact ⟨hwho,fun he => hown he.symm⟩
        · dsimp only
          rw [hm,List.map_append,List.map_congr_left hold,List.nodup_append]
          refine ⟨h.distinct,List.nodup_singleton _,?_⟩
          intro a ha b hb
          obtain ⟨x,hx,rfl⟩ := List.mem_map.mp ha
          rw [List.mem_singleton.mp hb]
          change (ws x).who≠(ws' w).who
          rw [hww]
          exact hnew x hx
        · dsimp only
          rw [hm]
          exact hed

theorem Mutex.unlock_spec (h : m.Sound ws) (who : Int) {r : Answer×Waiters n×Mutex n}
    (hr : Mutex.unlock ws m who=r) :
    r.2.2.Sound r.2.1 ∧ Edit ws r.2.1 (m.w.members ws) (r.2.2.w.members r.2.1) ∧
      ((m.owner≠who ∧ r.1.ko=.fail ∧ r.2=(ws,m)) ∨
        (m.owner=who ∧ r.1.ko=.ok ∧
          ((m.depth≠1 ∧ r.2.1=ws ∧ r.2.2.w=m.w ∧ r.2.2.owner=who ∧ r.2.2.depth=m.depth-1) ∨
            (∃x,m.depth=1 ∧ m.w.members ws=x::r.2.2.w.members r.2.1 ∧ (r.2.1 x).state=.grant ∧
              r.2.2.owner=(ws x).who ∧ r.2.2.depth=1) ∨
            (m.depth=1 ∧ m.w.members ws=[] ∧ r.2.1=ws ∧ r.2.2.w=m.w ∧ r.2.2.owner=-1)))) := by
  subst hr
  unfold Mutex.unlock
  by_cases hown : m.owner=who
  · rw [if_neg (not_not.mpr hown)]
    have hone : m.depth-1 > 0 ↔ m.depth≠1 := by
      constructor
      · rintro hx he
        rw [he] at hx
        exact absurd hx (by decide)
      · intro hne
        rw [gt_iff_lt,UInt32.pos_iff_ne_zero]
        intro hz
        exact hne (by rw [← UInt32.sub_add_cancel m.depth 1,hz]; rfl)
    by_cases hd : m.depth-1 > 0
    · rw [if_pos hd]
      exact ⟨⟨h.threads,h.owned,h.others,h.distinct⟩,.refl ws _,
        .inr ⟨hown,rfl,.inl ⟨hone.mp hd,rfl,rfl,hown,rfl⟩⟩⟩
    · rw [if_neg hd]
      have hdepth : m.depth=1 := by
        by_contra hne
        exact hd (hone.mpr hne)
      cases hm : m.w.members ws with
      | nil =>
        have hth := h.threads
        rw [hm] at hth
        rw [wlPop_none hth]
        dsimp only
        refine ⟨⟨h.threads,fun hne => absurd hm hne,?_,h.distinct⟩,?_,
          .inr ⟨hown,rfl,.inr (.inr ⟨hdepth,rfl,rfl,rfl,rfl⟩)⟩⟩
        · rw [hm]
          exact fun x hx => absurd hx List.not_mem_nil
        · rw [hm]
          exact .refl ws _
      | cons x rest =>
        have hth := h.threads
        rw [hm] at hth
        obtain ⟨l',hpop,hth',hed,hx⟩ := serve_spec hth
          (Eq.refl ((ws.setNext x none).setState x .grant)) fun hx => by cases hx
        have hm' := hth'.members
        have hxw : (ws.setNext x none x).who=(ws x).who := core_who (setNext_core ws x none x)
        have hkeep : ∀y∈rest,((ws.setNext x none).setState x .grant y).who=(ws y).who := fun y hy =>
          core_who (hed.core y (List.mem_cons_of_mem _ hy) hy)
        have hdist := h.distinct
        rw [hm,List.map_cons,List.nodup_cons] at hdist
        rw [hpop]
        dsimp only
        rw [hm']
        refine ⟨⟨hth'.self,fun _ => ?_,?_,?_⟩,hed,
          .inr ⟨hown,rfl,.inr (.inl ⟨x,hdepth,rfl,by rw [hx],hxw,rfl⟩)⟩⟩
        · dsimp only
          rw [hxw]
          exact (h.others x (by rw [hm]; exact List.mem_cons_self)).1
        · dsimp only
          rw [hm',hxw]
          intro y hy
          rw [hkeep y hy]
          refine ⟨(h.others y (by rw [hm]; exact List.mem_cons_of_mem _ hy)).1,fun he => ?_⟩
          exact hdist.1 (List.mem_map.mpr ⟨y,hy,he⟩)
        · dsimp only
          rw [hm',List.map_congr_left hkeep]
          exact hdist.2
  · rw [if_pos hown]
    exact ⟨h,.refl ws _,.inl ⟨hown,rfl,rfl⟩⟩

end LugalOS.Kobj
