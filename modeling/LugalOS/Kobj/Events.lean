import LugalOS.Kobj.Waiting

namespace LugalOS.Kobj

open Function (update)
open Links

variable {n : Nat} {ws ws' : Waiters n} {e : Evt n}

/-- No waiter is satisfied by the bits as they are. -/
structure Evt.Sound (ws : Waiters n) (e : Evt n) : Prop where
  threads : Threads ws e.w (e.w.members ws)
  wanting : ∀w∈e.w.members ws,evSatisfied e.bits (ws w).want (ws w).all=false

/-- Waiters judged one after the other, each by the bits that those before it have left: who
stays, and the bits in the end. -/
def judged (ws : Waiters n) : UInt32 → List (Fin n) → List (Fin n)×UInt32
  | bits,[] => ([],bits)
  | bits,w::m =>
    if evSatisfied bits (ws w).want (ws w).all then
      judged ws (if (ws w).clear then bits &&& ~~~(ws w).want else bits) m
    else (w::(judged ws bits m).1,(judged ws bits m).2)

section Judging

theorem evSatisfied_and {b c want : UInt32} {all : Bool}
    (h : evSatisfied (b &&& c) want all=true) : evSatisfied b want all=true := by
  unfold evSatisfied at h ⊢
  cases all with
  | true =>
    simp only [if_true,beq_iff_eq] at h ⊢
    calc b &&& want=b &&& (b &&& c &&& want) := by rw [h]
      _=b &&& c &&& want := by rw [← UInt32.and_assoc,← UInt32.and_assoc,UInt32.and_self]
      _=want := h
  | false =>
    simp only [Bool.false_eq_true,if_false,bne_iff_ne,ne_eq] at h ⊢
    intro hz
    refine h ?_
    rw [UInt32.and_comm b c,UInt32.and_assoc,hz,UInt32.and_zero]

theorem judged_congr {m : List (Fin n)} (h : ∀x∈m,(ws' x).core=(ws x).core) (bits : UInt32) :
    judged ws' bits m=judged ws bits m := by
  induction m generalizing bits with
  | nil => rfl
  | cons w m ih =>
    have hw := h w List.mem_cons_self
    have hwant : (ws' w).want=(ws w).want :=
      show (ws' w).core.want=(ws w).core.want from congrArg KWaiter.want hw
    have hall : (ws' w).all=(ws w).all :=
      show (ws' w).core.all=(ws w).core.all from congrArg KWaiter.all hw
    have hclear : (ws' w).clear=(ws w).clear :=
      show (ws' w).core.clear=(ws w).core.clear from congrArg KWaiter.clear hw
    have hm := ih fun x hx => h x (List.mem_cons_of_mem _ hx)
    rw [judged,judged,hwant,hall,hclear]
    simp only [hm]

theorem judged_bits (ws : Waiters n) (bits : UInt32) (m : List (Fin n)) :
    ∃c,(judged ws bits m).2=bits &&& c := by
  induction m generalizing bits with
  | nil => exact ⟨bits,(UInt32.and_self).symm⟩
  | cons w m ih =>
    rw [judged]
    by_cases hs : evSatisfied bits (ws w).want (ws w).all=true
    · rw [if_pos hs]
      by_cases hc : (ws w).clear=true
      · rw [if_pos hc]
        obtain ⟨c,hc⟩ := ih (bits &&& ~~~(ws w).want)
        exact ⟨~~~(ws w).want &&& c,by rw [hc,UInt32.and_assoc]⟩
      · rw [if_neg hc]
        exact ih bits
    · rw [if_neg hs]
      exact ih bits

theorem judged_sublist (ws : Waiters n) (bits : UInt32) (m : List (Fin n)) :
    (judged ws bits m).1.Sublist m := by
  induction m generalizing bits with
  | nil => exact .slnil
  | cons w m ih =>
    rw [judged]
    split_ifs
    · exact (ih _).cons w
    · exact (ih _).cons w
    · exact (ih _).cons_cons w

theorem judged_wanting (ws : Waiters n) (bits : UInt32) (m : List (Fin n)) :
    ∀w∈(judged ws bits m).1,evSatisfied (judged ws bits m).2 (ws w).want (ws w).all=false := by
  induction m generalizing bits with
  | nil => exact fun w hw => absurd hw List.not_mem_nil
  | cons x m ih =>
    rw [judged]
    split_ifs with hs
    · exact ih _
    · exact ih _
    · intro w hw
      rcases List.mem_cons.mp hw with rfl|hw
      · obtain ⟨c,hc⟩ := judged_bits ws bits m
        rw [hc,Bool.eq_false_iff]
        exact fun hx => hs (evSatisfied_and hx)
      · exact ih bits w hw

end Judging

section Scanning

theorem evScanLoop_spec (turns : Nat) {a rest : List (Fin n)} (wk : KWake)
    (h : Threads ws e.w (a++rest)) (ht : rest.length < turns)
    {r : Waiters n×Evt n×KWake}
    (hr : evScanLoop turns ws e wk a.getLast? rest.head?=r) :
    Threads r.1 r.2.1.w (a++(judged ws e.bits rest).1) ∧
      Edit ws r.1 (a++rest) (a++(judged ws e.bits rest).1) ∧
      r.2.1.bits=(judged ws e.bits rest).2 ∧
      ∀x∈rest,x∉(judged ws e.bits rest).1 →
        (r.1 x).state=.grant ∧ evSatisfied (r.1 x).got (ws x).want (ws x).all=true := by
  induction rest generalizing ws e wk a turns r with
  | nil =>
    subst hr
    cases turns with
    | zero => exact absurd ht (Nat.lt_irrefl _)
    | succ turns =>
      exact ⟨h,.refl ws _,rfl,fun x hx => absurd hx List.not_mem_nil⟩
  | cons w rest ih =>
    cases turns with
    | zero => exact absurd ht (Nat.not_lt_zero _)
    | succ turns =>
      have hturns : rest.length < turns := Nat.lt_of_succ_lt_succ ht
      have hnext : (ws w).next=rest.head? := h.links.after.2.head
      have hwr : w∉a++rest := by
        have hn := h.nodup
        rw [List.nodup_append] at hn
        intro hm
        exact (List.mem_append.mp hm).elim (fun ha => hn.2.2 w ha w List.mem_cons_self rfl)
          (List.nodup_cons.mp hn.2.1).1
      rw [List.head?_cons,evScanLoop,hnext] at hr
      rw [judged]
      by_cases hs : evSatisfied e.bits (ws w).want (ws w).all=true
      · rw [if_pos hs] at hr ⊢
        set x := wlUnlink ws e.w a.getLast? w with hx
        set ws₁ := Waiters.setState (update x.1 w {x.1 w with got := e.bits}) w .grant with h₁
        obtain ⟨hth,hed,hself⟩ := unlink_spec h
          (by rw [h₁,Waiters.setState,Function.update_self,Function.update_idem] :
            ws₁=update x.1 w {x.1 w with got := e.bits,state := .grant}) fun hx => by cases hx
        have hsame : (update x.1 w {x.1 w with got := e.bits} w).clear=(ws w).clear ∧
            (update x.1 w {x.1 w with got := e.bits} w).want=(ws w).want := by
          have hc := (wlUnlink_spec h).2.2 w
          rw [Function.update_self]
          exact ⟨show (x.1 w).core.clear=(ws w).core.clear from congrArg KWaiter.clear hc,
            show (x.1 w).core.want=(ws w).core.want from congrArg KWaiter.want hc⟩
        dsimp only at hr
        rw [hsame.1,hsame.2] at hr
        obtain ⟨ith,ied,ibits,igrant⟩ := ih turns
          (e := ⟨if (ws w).clear then e.bits &&& ~~~(ws w).want else e.bits,x.2⟩) _ hth hturns hr
        have hcore : ∀y∈rest,(ws₁ y).core=(ws y).core := fun y hy =>
          hed.core y (List.mem_append_right _ (List.mem_cons_of_mem _ hy))
            (List.mem_append_right _ hy)
        dsimp only at ith ied ibits igrant
        rw [judged_congr hcore] at ith ied ibits igrant
        set j := judged ws (if (ws w).clear then e.bits &&& ~~~(ws w).want else e.bits) rest with hj
        have hjsub : ∀y∈j.1,y∈rest := fun y hy => (judged_sublist ws _ rest).subset hy
        refine ⟨ith,hed.trans ied ?_ ?_,ibits,?_⟩
        · intro y hy
          rw [List.mem_append,List.mem_cons]
          exact (List.mem_append.mp hy).imp_right .inr
        · intro y hy
          exact List.mem_append.mpr ((List.mem_append.mp hy).imp_right (hjsub y))
        · intro y hy hny
          rcases List.mem_cons.mp hy with rfl|hy
          · have hny' : y∉a++j.1 := fun hm => hwr (List.mem_append.mpr
              ((List.mem_append.mp hm).imp_right (hjsub y)))
            rw [ied.frame y hwr hny',hself]
            exact ⟨rfl,hs⟩
          · have hw := hcore y hy
            have hwant : (ws₁ y).want=(ws y).want :=
              show (ws₁ y).core.want=(ws y).core.want from congrArg KWaiter.want hw
            have hall : (ws₁ y).all=(ws y).all :=
              show (ws₁ y).core.all=(ws y).core.all from congrArg KWaiter.all hw
            have := igrant y hy hny
            rwa [hwant,hall] at this
      · rw [if_neg hs] at hr ⊢
        have hassoc : a++w::rest=(a++[w])++rest := by simp
        have hassoc' : a++w::(judged ws e.bits rest).1=(a++[w])++(judged ws e.bits rest).1 := by simp
        have hlast : some w=(a++[w]).getLast? := by simp
        rw [hassoc] at h ⊢
        rw [hlast] at hr
        obtain ⟨ith,ied,ibits,igrant⟩ := ih turns _ h hturns hr
        rw [hassoc']
        refine ⟨ith,ied,ibits,?_⟩
        intro y hy hny
        rcases List.mem_cons.mp hy with rfl|hy
        · exact absurd List.mem_cons_self hny
        · exact igrant y hy fun hm => hny (List.mem_cons_of_mem _ hm)

theorem evScan_spec {m : List (Fin n)} (h : Threads ws e.w m) (wk : KWake)
    {r : Waiters n×Evt n×KWake} (hr : evScan ws e wk=r) :
    Threads r.1 r.2.1.w (judged ws e.bits m).1 ∧ Edit ws r.1 m (judged ws e.bits m).1 ∧
      r.2.1.bits=(judged ws e.bits m).2 ∧
      ∀x∈m,x∉(judged ws e.bits m).1 →
        (r.1 x).state=.grant ∧ evSatisfied (r.1 x).got (ws x).want (ws x).all=true := by
  have hh : e.w.head=m.head? := h.links.head
  unfold evScan at hr
  rw [hh] at hr
  exact evScanLoop_spec (n+1) (a := []) wk h (Nat.lt_succ_of_le h.length_le) hr

end Scanning

section Operations

theorem core_event {x y : KWaiter n} (h : x.core=y.core) : x.want=y.want ∧ x.all=y.all :=
  ⟨show x.core.want=y.core.want from congrArg KWaiter.want h,
    show x.core.all=y.core.all from congrArg KWaiter.all h⟩

theorem Evt.Sound.congr (h : e.Sound ws) (hs : ∀x∈e.w.members ws,ws' x=ws x) :
    e.Sound ws' ∧ e.w.members ws'=e.w.members ws := by
  have hth := h.threads.congr hs
  refine ⟨⟨hth.self,?_⟩,hth.members⟩
  rw [hth.members]
  exact fun x hx => by rw [hs x hx]; exact h.wanting x hx

theorem Evt.drop_spec (h : e.Sound ws) {w : Fin n} (hw : w∈e.w.members ws)
    {r : Waiters n×Evt n} (hr : Evt.drop w ws e=r) :
    r.2.Sound (r.1.setState w .idle) ∧
      Edit ws (r.1.setState w .idle) (e.w.members ws) (r.2.w.members (r.1.setState w .idle)) ∧
      r.2.w.members (r.1.setState w .idle)=(e.w.members ws).erase w ∧ r.2.bits=e.bits ∧
      (r.1.setState w .idle w).state=.idle := by
  subst hr
  obtain ⟨x,hx,hth,hed,hidle⟩ := remove_spec h.threads hw
  rw [Evt.drop,wlDrop,hx]
  dsimp only [Option.getD_some]
  rw [hth.members]
  refine ⟨⟨hth.self,?_⟩,hed,rfl,rfl,hidle⟩
  dsimp only
  rw [hth.members]
  intro y hy
  obtain ⟨hwant,hall⟩ := core_event (hed.core y (List.mem_of_mem_erase hy) hy)
  rw [hwant,hall]
  exact h.wanting y (List.mem_of_mem_erase hy)

theorem Evt.set_spec (h : e.Sound ws) (bits : UInt32) {r : Answer×Waiters n×Evt n}
    (hr : Evt.set ws e bits=r) :
    r.2.2.Sound r.2.1 ∧ Edit ws r.2.1 (e.w.members ws) (r.2.2.w.members r.2.1) ∧
      (r.2.2.w.members r.2.1,r.2.2.bits)=judged ws (e.bits ||| bits) (e.w.members ws) ∧
      r.1.bits=r.2.2.bits ∧
      ∀x∈e.w.members ws,x∉r.2.2.w.members r.2.1 →
        (r.2.1 x).state=.grant ∧ evSatisfied (r.2.1 x).got (ws x).want (ws x).all=true := by
  subst hr
  obtain ⟨hth,hed,hbits,hgrant⟩ := evScan_spec (e := {e with bits := e.bits ||| bits}) h.threads []
    (r := evScan ws {e with bits := e.bits ||| bits} []) rfl
  unfold Evt.set
  dsimp only at hth hed hbits hgrant ⊢
  set j := judged ws (e.bits ||| bits) (e.w.members ws) with hj
  rw [hth.members]
  refine ⟨⟨hth.self,?_⟩,hed,?_,rfl,hgrant⟩
  · rw [hth.members,hbits]
    intro w hw
    have hm := (judged_sublist ws _ _).subset hw
    obtain ⟨hwant,hall⟩ := core_event (hed.core w hm hw)
    rw [hwant,hall]
    exact judged_wanting ws _ _ w hw
  · rw [hbits]

theorem Evt.Sound.fewer (h : e.Sound ws) (c : UInt32) : ({e with bits := e.bits &&& c}).Sound ws := by
  refine ⟨h.threads,fun w hw => ?_⟩
  rw [Bool.eq_false_iff]
  exact fun hx => Bool.eq_false_iff.mp (h.wanting w hw) (evSatisfied_and hx)

theorem Evt.wait_spec (h : e.Sound ws) {want : UInt32} {all clear : Bool} {w : Option (Fin n)}
    (hw : ∀x∈w,(ws x).state≠.wait) (who : Int) {r : Answer×Waiters n×Evt n}
    (hr : Evt.wait ws e want all clear w who=r) :
    r.2.2.Sound r.2.1 ∧ Edit ws r.2.1 (e.w.members ws) (r.2.2.w.members r.2.1) ∧
      ((r.1.ko=.ok ∧ evSatisfied e.bits want all=true ∧ r.1.bits=e.bits ∧ r.2.1=ws ∧
          r.2.2.w=e.w) ∨
        (r.1.ko≠.ok ∧ r.1.ko≠.block ∧ r.2=(ws,e)) ∨
        (∃x∈w,r.1.ko=.block ∧ r.2.2.bits=e.bits ∧
          r.2.2.w.members r.2.1=e.w.members ws++[x] ∧ (r.2.1 x).state=.wait)) := by
  subst hr
  unfold Evt.wait
  by_cases hz : want=0
  · rw [if_pos hz]
    exact ⟨h,.refl ws _,.inr (.inl ⟨(fun hx => by cases hx),(fun hx => by cases hx),rfl⟩)⟩
  · rw [if_neg hz]
    by_cases hs : evSatisfied e.bits want all=true
    · rw [if_pos hs]
      cases clear with
      | true => exact ⟨h.fewer _,.refl ws _,.inl ⟨rfl,hs,rfl,rfl,rfl⟩⟩
      | false => exact ⟨h,.refl ws _,.inl ⟨rfl,hs,rfl,rfl,rfl⟩⟩
    · rw [if_neg hs]
      cases w with
      | none => exact ⟨h,.refl ws _,.inr (.inl ⟨(fun hx => by cases hx),(fun hx => by cases hx),rfl⟩)⟩
      | some w =>
        dsimp only
        set v := {ws w with want := want,all := all,clear := clear,got := 0} with hv
        obtain ⟨hth,hed,hcw⟩ := enqueue_spec h.threads (hw w rfl) v rfl who
        set ws' := (enqueue (update ws w v) e.w w who).1 with hws
        have hm : (enqueue (update ws w v) e.w w who).2.members ws'=e.w.members ws++[w] :=
          hth.members
        rw [hm]
        refine ⟨⟨?_,?_⟩,hed,.inr (.inr ⟨w,rfl,rfl,rfl,rfl,core_state hcw⟩)⟩
        · dsimp only
          rw [hm]
          exact hth
        · dsimp only
          rw [hm]
          intro x hx
          rcases List.mem_append.mp hx with hx|hx
          · obtain ⟨hwant,hall⟩ := core_event (hed.core x hx (List.mem_append_left _ hx))
            rw [hwant,hall]
            exact h.wanting x hx
          · obtain ⟨hwant,hall⟩ := core_event hcw
            rw [List.mem_singleton.mp hx,hwant,hall]
            exact Bool.eq_false_iff.mpr hs

end Operations

end LugalOS.Kobj
