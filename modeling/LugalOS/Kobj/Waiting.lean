import LugalOS.Kobj.Lifetimes

namespace LugalOS.Kobj

open Function (update update_of_ne)
open Links

variable {n : Nat}

def follow (ws : Waiters n) : Nat → Option (Fin n) → List (Fin n)
  | 0,_ => []
  | _+1,none => []
  | turns+1,some w => w::follow ws turns (ws w).next

/-- The waiters in a list, the one that came first first. -/
def WList.members (l : WList n) (ws : Waiters n) : List (Fin n) := follow ws n l.head

/-- What becomes of the waiters when those of a list are no longer m but m'. -/
structure Edit (ws ws' : Waiters n) (m m' : List (Fin n)) : Prop where
  frame : ∀x,x∉m → x∉m' → ws' x=ws x
  core : ∀x∈m,x∈m' → (ws' x).core=(ws x).core
  entered : ∀x∈m',x∈m ∨ (ws x).state≠.wait
  left : ∀x∈m,x∉m' → (ws' x).state≠.wait

section Lists

variable {ws ws' ws'' : Waiters n} {l : WList n} {m m' m'' : List (Fin n)} {w : Fin n}

theorem follow_linked {p : Option (Fin n)} (h : Linked (fun x => (ws x).next) p m) (turns : Nat)
    (ht : m.length≤turns) : follow ws turns p=m := by
  induction m generalizing p turns with
  | nil =>
    rw [show p=none from h]
    cases turns <;> rfl
  | cons x m ih =>
    cases turns with
    | zero => exact absurd ht (Nat.not_succ_le_zero _)
    | succ turns =>
      rw [show p=some x from h.1,follow,ih h.2 turns (Nat.le_of_succ_le_succ ht)]

theorem Threads.members (h : Threads ws l m) : l.members ws=m :=
  follow_linked h.links n h.length_le

theorem Threads.self (h : Threads ws l m) : Threads ws l (l.members ws) := by
  rw [h.members]
  exact h

theorem Edit.refl (ws : Waiters n) (m : List (Fin n)) : Edit ws ws m m :=
  ⟨fun _ _ _ => rfl,fun _ _ _ => rfl,fun _ hx => .inl hx,fun _ hx hn => absurd hx hn⟩

theorem enqueue_spec (h : Threads ws l m) (hw : (ws w).state≠.wait) (v : KWaiter n)
    (hv : v.state=(ws w).state) (who : Int) :
    Threads (enqueue (update ws w v) l w who).1 (enqueue (update ws w v) l w who).2 (m++[w]) ∧
      Edit ws (enqueue (update ws w v) l w who).1 m (m++[w]) ∧
      ((enqueue (update ws w v) l w who).1 w).core=
        {v with who := who,state := .wait}.core := by
  have hnew : w∉m := fun hm => hw (h.waiting w hm)
  set ws₁ := update (update ws w v) w {update ws w v w with who := who} with h₁
  have hself : ws₁ w={v with who := who} := by simp [h₁]
  have hother : ∀x,x≠w → ws₁ x=ws x := fun x hx => by
    rw [h₁,update_of_ne hx,update_of_ne hx]
  have h' : Threads ws₁ l m := h.congr fun x hx => hother x fun he => hnew (he ▸ hx)
  obtain ⟨hth,hframe,hcore,hcw⟩ := wlPush_spec h' (w := w) (by rw [hself]; exact hv ▸ hw)
  refine ⟨hth,⟨?_,?_,?_,?_⟩,?_⟩
  · intro x hx hx'
    have hxw : x≠w := fun he => hx' (he ▸ List.mem_append_right _ List.mem_cons_self)
    exact (hframe x hx hxw).trans (hother x hxw)
  · intro x hx _
    have hxw : x≠w := fun he => hnew (he ▸ hx)
    exact (hcore x hxw).trans (congrArg KWaiter.core (hother x hxw))
  · intro x hx
    refine (List.mem_append.mp hx).imp_right fun hs => ?_
    rw [List.mem_singleton.mp hs]
    exact hw
  · intro x hx hx'
    exact absurd (List.mem_append_left _ hx) hx'
  · rw [hself] at hcw
    exact hcw

theorem serve_spec (h : Threads ws l (w::m)) {v : KWaiter n}
    (hu : ws'=update (ws.setNext w none) w v) (hv : v.state≠.wait) :
    ∃l',wlPop ws l=some (w,ws.setNext w none,l') ∧ Threads ws' l' m ∧ Edit ws ws' (w::m) m ∧
      ws' w=v := by
  obtain ⟨l',hpop,hth⟩ := wlPop_spec h
  have hw : w∉m := (List.nodup_cons.mp h.nodup).1
  have hself : ws' w=v := by rw [hu,Function.update_self]
  have hother : ∀x,x≠w → ws' x=ws x := fun x hx => by
    rw [hu,update_of_ne hx,setNext_other hx]
  refine ⟨l',hpop,hth.congr fun x hx => ?_,⟨?_,?_,?_,?_⟩,hself⟩
  · rw [hu,update_of_ne fun he : x=w => hw (he ▸ hx)]
  · intro x hx _
    exact hother x fun he => hx (he ▸ List.mem_cons_self)
  · intro x _ hx
    rw [hother x fun he : x=w => hw (he ▸ hx)]
  · intro x hx
    exact .inl (List.mem_cons_of_mem _ hx)
  · intro x hx hx'
    obtain rfl : x=w := (List.mem_cons.mp hx).resolve_right hx'
    rw [hself]
    exact hv

theorem unlink_spec {a b : List (Fin n)} (h : Threads ws l (a++w::b)) {v : KWaiter n}
    (hu : ws'=update (wlUnlink ws l a.getLast? w).1 w v) (hv : v.state≠.wait) :
    Threads ws' (wlUnlink ws l a.getLast? w).2 (a++b) ∧ Edit ws ws' (a++w::b) (a++b) ∧
      ws' w=v := by
  obtain ⟨hth,hframe,hcore⟩ := wlUnlink_spec h
  have hw : w∉a++b := by
    intro hm
    have hn := h.nodup
    rw [List.nodup_append] at hn
    exact (List.mem_append.mp hm).elim (fun ha => hn.2.2 w ha w List.mem_cons_self rfl)
      (List.nodup_cons.mp hn.2.1).1
  have hsub : ∀x∈a++b,x∈a++w::b := fun x hx => by
    rw [List.mem_append,List.mem_cons]
    exact (List.mem_append.mp hx).imp_right .inr
  have hself : ws' w=v := by rw [hu,Function.update_self]
  have hother : ∀x,x≠w → ws' x=(wlUnlink ws l a.getLast? w).1 x := fun x hx => by
    rw [hu,update_of_ne hx]
  refine ⟨hth.congr fun x hx => hother x fun he => hw (he ▸ hx),⟨?_,?_,?_,?_⟩,hself⟩
  · intro x hx _
    have hxw : x≠w := fun he => hx (he ▸ List.mem_append_right _ List.mem_cons_self)
    rw [hother x hxw]
    exact hframe x hx
  · intro x _ hx
    rw [hother x fun he : x=w => hw (he ▸ hx)]
    exact hcore x
  · intro x hx
    exact .inl (hsub x hx)
  · intro x hx hx'
    have hxw : x=w := by
      by_contra hne
      refine hx' ?_
      rw [List.mem_append,List.mem_cons] at hx
      exact List.mem_append.mpr (hx.imp_right fun ho => ho.resolve_left hne)
    rw [hxw,hself]
    exact hv

theorem Edit.trans (h : Edit ws ws' m m') (h' : Edit ws' ws'' m' m'') (hm : ∀x∈m',x∈m)
    (hm' : ∀x∈m'',x∈m') : Edit ws ws'' m m'' := by
  refine ⟨?_,?_,fun x hx => .inl (hm x (hm' x hx)),?_⟩
  · intro x hx hx'
    exact (h'.frame x (fun hi => hx (hm x hi)) hx').trans (h.frame x hx fun hi => hx (hm x hi))
  · intro x hx hx'
    exact (h'.core x (hm' x hx') hx').trans (h.core x hx (hm' x hx'))
  · intro x hx hx'
    by_cases hi : x∈m'
    · exact h'.left x hi hx'
    · rw [h'.frame x hi hx']
      exact h.left x hx hi

theorem failAll_spec (h : Threads ws l m) (wk : KWake) :
    Threads (wlFailAll ws l wk).1 (wlFailAll ws l wk).2.1 [] ∧
      Edit ws (wlFailAll ws l wk).1 m [] ∧
      ∀x∈m,((wlFailAll ws l wk).1 x).state=.failed := by
  obtain ⟨hth,hframe,hfail⟩ := wlFailAll_spec h wk
  have hstate : ∀x∈m,((wlFailAll ws l wk).1 x).state=.failed := fun x hx =>
    core_state (hfail x hx)
  refine ⟨hth,⟨fun x hx _ => hframe x hx,fun x _ hx => absurd hx List.not_mem_nil,
    fun x hx => absurd hx List.not_mem_nil,fun x hx _ => ?_⟩,hstate⟩
  rw [hstate x hx]
  exact fun he => by cases he

theorem Edit.under_left {b : List (Fin n)} (h : Edit ws ws' m m') (hb : ∀x∈b,x∉m)
    (hw : ∀x∈b,(ws x).state=.wait) : Edit ws ws' (m++b) (m'++b) := by
  have hb' : ∀x∈b,x∉m' := fun x hx hx' =>
    (h.entered x hx').elim (hb x hx) fun hs => hs (hw x hx)
  refine ⟨?_,?_,?_,?_⟩
  · intro x hx hx'
    exact h.frame x (fun hm => hx (List.mem_append_left _ hm))
      fun hm => hx' (List.mem_append_left _ hm)
  · intro x hx hx'
    by_cases hxb : x∈b
    · rw [h.frame x (hb x hxb) (hb' x hxb)]
    · exact h.core x ((List.mem_append.mp hx).resolve_right hxb)
        ((List.mem_append.mp hx').resolve_right hxb)
  · intro x hx
    rcases List.mem_append.mp hx with hx|hx
    · exact (h.entered x hx).imp_left (List.mem_append_left _)
    · exact .inl (List.mem_append_right _ hx)
  · intro x hx hx'
    refine h.left x ((List.mem_append.mp hx).resolve_right fun hxb =>
      hx' (List.mem_append_right _ hxb)) fun hm => hx' (List.mem_append_left _ hm)

theorem Edit.under_right {b : List (Fin n)} (h : Edit ws ws' m m') (hb : ∀x∈b,x∉m)
    (hw : ∀x∈b,(ws x).state=.wait) : Edit ws ws' (b++m) (b++m') := by
  have hmem : ∀(l : List (Fin n)) (x : Fin n),x∈b++l ↔ x∈l++b := fun l x => by
    rw [List.mem_append,List.mem_append,or_comm]
  obtain ⟨hf,hc,he,hl⟩ := h.under_left hb hw
  refine ⟨?_,?_,?_,?_⟩
  · exact fun x hx hx' => hf x (fun hm => hx ((hmem m x).mpr hm))
      fun hm => hx' ((hmem m' x).mpr hm)
  · exact fun x hx hx' => hc x ((hmem m x).mp hx) ((hmem m' x).mp hx')
  · exact fun x hx => (he x ((hmem m' x).mp hx)).imp_left (hmem m x).mpr
  · exact fun x hx hx' => hl x ((hmem m x).mp hx) fun hm => hx' ((hmem m' x).mpr hm)

theorem Edit.threads (h : Edit ws ws' m m') {l₂ : WList n} {m₂ : List (Fin n)}
    (h₂ : Threads ws l₂ m₂) (hd : ∀x∈m₂,x∉m) : Threads ws' l₂ m₂ := by
  refine h₂.congr fun x hx => h.frame x (hd x hx) fun hx' => ?_
  rcases h.entered x hx' with hm|hs
  · exact hd x hx hm
  · exact hs (h₂.waiting x hx)

theorem remove_spec (h : Threads ws l m) (hw : w∈m) : ∃x,wlRemove ws l w=some x ∧
    Threads (x.1.setState w .idle) x.2 (m.erase w) ∧
      Edit ws (x.1.setState w .idle) m (m.erase w) ∧
      (x.1.setState w .idle w).state=.idle := by
  obtain ⟨a,b,rfl⟩ := List.append_of_mem hw
  have hwa : w∉a := fun hm =>
    (List.nodup_append.mp h.nodup).2.2 w hm w List.mem_cons_self rfl
  have he : (a++w::b).erase w=a++b := by
    rw [List.erase_append_right _ hwa,List.erase_cons_head]
  obtain ⟨hth,hed,hself⟩ := unlink_spec h
    (Eq.refl ((wlUnlink ws l a.getLast? w).1.setState w .idle)) fun hx => by cases hx
  rw [he]
  exact ⟨_,wlRemove_spec h,hth,hed,by rw [hself]⟩

end Lists

end LugalOS.Kobj
