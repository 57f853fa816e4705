import LugalOS.Vfs.Lifetime

namespace LugalOS.Vfs

open CString Run Tokens
open Function (update update_of_ne update_self)

variable {n : Nat}

/-- What a caller with a reference relies on. -/
def Same (m m' : Mount) : Prop :=
  m'.inUse=m.inUse ∧ m'.name=m.name ∧ m'.kind=m.kind ∧ m'.remote=m.remote

theorem Same.refl (m : Mount) : Same m m := ⟨rfl,rfl,rfl,rfl⟩

theorem goes_entry {s : State n} {p : Fin n} {w : Place} {i : Slot} {m : Mount} {C : Slot → Prop}
    (h : Same (s.table i) m ∨ C i) (j : Slot) :
    Same (s.table j) ((s.goes p w i m).table j) ∨ C j := by
  by_cases hj : j=i
  · subst hj
    have he : (s.goes p w j m).table j=m := update_self ..
    rw [he]
    exact h
  · have he : (s.goes p w i m).table j=s.table j := update_of_ne hj ..
    rw [he]
    exact .inl (Same.refl _)

theorem Inv.fresh_references {s : State n} (h : Inv s) {p : Fin n} {i : Slot}
    (hm : (s.place p).mounting=some i) : references s i=0 := by
  rw [← h.users i,(h.fresh p i hm).unused]
  rfl

theorem Inv.free_references {s : State n} (h : Inv s) {i : Slot} (hu : (s.table i).inUse=false) :
    references s i=0 := by
  rw [← h.users i,h.zero i hu]
  rfl

/-- An entry stays what it is, but for the last put and for an entry no one has a reference to. -/
theorem Change.entry {s s' : State n} {p : Fin n} {a : Act} (h : Inv s) (c : Change s p a s') :
    ∀j,Same (s.table j) (s'.table j) ∨ (references s j=0 ∨
      a=.put ∧ (s.place p).ref=some j ∧ (s.table j).users=1) := by
  cases c with
  | get | put => exact goes_entry (.inl ⟨rfl,rfl,rfl,rfl⟩)
  | last hp _ hu =>
    refine goes_entry (.inr (.inr ⟨rfl,?_,hu⟩))
    obtain hp | hp := hp <;> rw [hp] <;> rfl
  | close => exact goes_entry (p := p) (w := .outside) (.inl (Same.refl _))
  | mount _ hu => exact goes_entry (.inr (.inl (h.free_references hu)))
  | refused hp =>
    exact goes_entry (.inr (.inl (h.fresh_references (p := p) (by rw [hp]; rfl))))
  | @opened i => exact goes_entry (p := p) (w := .filling i s.opened) (.inl (Same.refl _))
  | setKind hp | setRemote hp =>
    exact goes_entry (.inr (.inl (h.fresh_references (p := p) (by rw [hp]; rfl))))
  | ready | unmount | format | formatted | replace | replaced =>
    exact goes_entry (.inl ⟨rfl,rfl,rfl,rfl⟩)

theorem Change.others {s s' : State n} {p : Fin n} {a : Act} (c : Change s p a s') {q : Fin n}
    (hq : q≠p) : s'.place q=s.place q := by
  cases c <;> exact update_of_ne hq ..

theorem Change.own {s s' : State n} {p : Fin n} {a : Act} (c : Change s p a s') {i : Slot}
    (hr : (s.place p).ref=some i) (ha : a≠.put) : (s'.place p).ref=some i := by
  have hself (w : Place) (j : Slot) (m : Mount) : (s.goes p w j m).place p=w :=
    update_self ..
  cases c with
  | put | last => exact absurd rfl ha
  | format hp | formatted hp => rw [hp] at hr; rw [hself]; exact hr
  | get hp | close _ hp | mount hp | refused hp | opened hp | setKind hp | setRemote hp
  | ready hp | unmount hp | replace hp | replaced hp => rw [hp] at hr; cases hr

/-- Why an entry is cleared: by the last put of a dying one, or by the mount call that gives its
slot up before anyone could find it. -/
def Cleared (s s' : State n) (e : Event n) (i : Slot) : Prop :=
  e.act=.put ∧ (s.place e.who).ref=some i ∧ (s.table i).dying ∧ references s' i=0 ∨
    e.act=.refused ∧ s.place e.who=.opening i ∧ (s.table i).ready=false ∧ references s i=0

theorem Change.cleared {s s' : State n} {p : Fin n} {a : Act} (h : Inv s) (h' : Inv s')
    (c : Change s p a s') {i : Slot} (hu : (s.table i).inUse) (hz : (s'.table i).inUse=false) :
    Cleared s s' ⟨p,a⟩ i := by
  have hrefs := h'.free_references hz
  have hkept {w : Place} {j : Slot} {m : Mount} (hm : (s.table j).inUse → m.inUse) :
      ¬((s.goes p w j m).table i).inUse=false := by
    by_cases hj : i=j
    · subst hj
      have he : (s.goes p w i m).table i=m := update_self ..
      rw [he,hm hu]
      exact Bool.noConfusion
    · have he : (s.goes p w j m).table i=s.table i := update_of_ne hj ..
      rw [he,hu]
      exact Bool.noConfusion
  have hat {w : Place} {j : Slot} {m : Mount} (hg : ((s.goes p w j m).table i).inUse=false) :
      i=j := by
    by_contra hj
    have he : (s.goes p w j m).table i=s.table i := update_of_ne hj ..
    rw [he,hu] at hg
    cases hg
  cases c with
  | last hp hd =>
    cases hat hz
    refine .inl ⟨rfl,?_,hd,hrefs⟩
    obtain hp | hp := hp <;> rw [hp] <;> rfl
  | refused hp =>
    cases hat hz
    have hm : (s.place p).mounting=some i := by rw [hp]; rfl
    exact .inr ⟨rfl,hp,(h.fresh p i hm).hidden,h.fresh_references hm⟩
  | get | put => exact absurd hz (hkept id)
  | close => exact absurd hz (hkept (w := .outside) id)
  | mount => exact absurd hz (hkept fun _ => rfl)
  | opened => exact absurd hz (hkept (w := .outside) id)
  | setKind | setRemote | ready | unmount | format | formatted | replace | replaced =>
    exact absurd hz (hkept id)

theorem Change.handed {s s' : State n} {p : Fin n} {a : Act} (h : Inv s) (c : Change s p a s') :
    ∀j,Same (s.table j) (s'.table j) ∨ ∀r,(s.table j).remote=some r → s'.place p=.closing r := by
  have hnone {i : Slot} {w : Place} {m : Mount} (hr : (s.table i).remote=none) (j : Slot) :
      Same (s.table j) ((s.goes p w i m).table j) ∨
        ∀r,(s.table j).remote=some r → (s.goes p w i m).place p=.closing r := by
    refine goes_entry (p := p) (w := w) (i := i) (m := m)
      (C := fun j => ∀r,(s.table j).remote=some r → (s.goes p w i m).place p=.closing r) ?_ j
    exact .inr fun r hsome => by rw [hr] at hsome; cases hsome
  have hlinked {i : Slot} (hm : (s.place p).mounting=some i) (hw : s.place p≠.readying i) :
      (s.table i).remote=none := (h.fresh p i hm).unlinked hw
  cases c with
  | @last i w _ _ _ hw =>
    refine goes_entry (.inr fun r hsome => ?_)
    have he : (s.goes p w i Mount.zero).place p=w := update_self ..
    rw [he,hw,hsome]
    rfl
  | mount _ hu => exact hnone (by rw [h.zero _ hu]; rfl)
  | refused hp | setRemote hp | setKind hp =>
    exact hnone (hlinked (by rw [hp]; rfl) (by rw [hp]; exact Place.noConfusion))
  | get | put => exact goes_entry (.inl ⟨rfl,rfl,rfl,rfl⟩)
  | close => exact goes_entry (p := p) (w := .outside) (.inl (Same.refl _))
  | @opened i => exact goes_entry (p := p) (w := .filling i s.opened) (.inl (Same.refl _))
  | ready | unmount | format | formatted | replace | replaced =>
    exact goes_entry (.inl ⟨rfl,rfl,rfl,rfl⟩)

theorem step_closing {s s' : State n} {e : Event n} {r : Nat} (hp : s.place e.who=.closing r)
    (he : step e s=some s') : s'.place e.who=.outside ∧ s'.closed=r::s.closed := by
  obtain ⟨p,a⟩ := e
  rw [step] at he
  simp only [hp] at he
  cases a <;> cases he
  exact ⟨update_self ..,rfl⟩

theorem references_one {s : State n} {p q : Fin n} {i : Slot} (hp : (s.place p).ref=some i)
    (hq : (s.place q).ref=some i) (hone : references s i=1) : q=p := by
  by_contra hqp
  have hdrop := references_drop (w := .outside) (t := s.table) hp fun hc => by cases hc
  have hpos := references_pos (s := s.set p .outside s.table) (p := q) (i := i) (by
    change (update s.place p .outside q).ref=some i
    rw [update_of_ne hqp]
    exact hq)
  omega

theorem Inv.init (n : Nat) : Inv (State.init n) := by
  obtain ⟨hz,hb,hr,hn,_⟩ := mountTableInit_spec
  have hsplit (i : Slot) : mountTableInit i=Mount.zero ∨
      i.val < 6 ∧ (mountTableInit i).inUse := by
    by_cases hi : i.val < 6
    · have := (hb i hi).1
      rw [Mount.live,Bool.and_eq_true] at this
      exact .inr ⟨hi,this.1⟩
    · exact .inl (hz i (Nat.not_lt.1 hi))
  refine ⟨fun i hi => ?_,fun i => ?_,fun i hi => ?_,hn,fun i hi => ⟨(hb i hi).1,(hb i hi).2.2.1,rfl⟩,
    fun p i hp => (by cases hp),fun p q i hp => (by cases hp),fun p m q hp => (by cases hp),
    fun p q hp => (by cases hp),⟨fun _ => .closed,fun r c => ?_⟩⟩
  · obtain h | ⟨_,h⟩ := hsplit i
    · exact h
    · exact absurd (h.symm.trans hi) Bool.noConfusion
  · have hnone : references (State.init n) i=0 :=
      Holders.count_eq_zero_iff.2 fun p hp => by cases hp
    rw [hnone]
    obtain h | ⟨hi,_⟩ := hsplit i
    · change (mountTableInit i).users.toNat=0
      rw [h]
      rfl
    · change (mountTableInit i).users.toNat=0
      rw [(hb i hi).2.2.2]
      rfl
  · change (mountTableInit i).dying=true at hi
    obtain h | ⟨hlt,_⟩ := hsplit i
    · rw [h] at hi
      cases hi
    · have := (hb i hlt).1
      rw [Mount.live,hi] at this
      simp at this
  · refine ⟨fun hx => absurd hx.1 (Nat.not_lt_zero r),fun _ => ?_⟩
    cases c with
    | entry i =>
      change (mountTableInit i).remote.toList.count r=0
      rw [hr i]
      rfl
    | call p | closed => rfl

theorem Inv.step {s s' : State n} {e : Event n} (hn : n < 65536) (h : Inv s) (hs : Step s e s') :
    Inv s' := by
  obtain rfl | c := step_change h hs.1 hs.2
  · exact h
  · exact c.inv hn h

theorem Inv.reach {s : State n} {es : List (Event n)} (hn : n < 65536)
    (hr : Reach Step (State.init n) es s) : Inv s :=
  hr.invariant (fun _ s => Inv s) (Inv.init n) fun _ _ _ _ h hs => h.step hn hs

/-- What is true between two steps. -/
structure Sound (s : State n) : Prop where
  names : ∀i j,(s.table i).live → (s.table j).live → (s.table i).name=(s.table j).name → i=j
  users : ∀i,(s.table i).users.toNat=references s i
  held : ∀p i,(s.place p).ref=some i → (s.table i).inUse ∧ (s.table i).users≠0
  dying : ∀i,(s.table i).dying → ∃p,(s.place p).ref=some i
  once : s.closed.Nodup
  gone : ∀r∈s.closed,r < s.opened ∧ (∀i,(s.table i).remote≠some r) ∧
    ∀p,(s.place p).session≠some r
  kept : ∀r,r < s.opened →
    r∈s.closed ∨ (∃!i,(s.table i).remote=some r) ∨ ∃!p,(s.place p).session=some r

theorem Inv.sound {s : State n} (h : Inv s) : Sound s := by
  have hentry {r : Nat} {i : Slot} (hr : (s.table i).remote=some r) : r∈cells s (.entry i) := by
    rw [cells,hr]
    exact List.mem_singleton_self r
  have hcall {r : Nat} {p : Fin n} (hr : (s.place p).session=some r) : r∈cells s (.call p) := by
    rw [cells,hr]
    exact List.mem_singleton_self r
  refine ⟨h.names,h.users,fun p i => h.ref_inUse,fun i hd => ?_,h.sessions.nodup .closed,fun r hr =>
    ⟨h.sessions.issued_of_mem (c := .closed) hr,fun i hi => ?_,fun p hp => ?_⟩,fun r hr => ?_⟩
  · by_contra hno
    have hzero : references s i=0 := Holders.count_eq_zero_iff.2 fun p hp => hno ⟨p,hp⟩
    rw [← h.users i] at hzero
    exact h.dying i hd (UInt16.toNat.inj hzero)
  · cases h.sessions.unique (d := .closed) (hentry hi) hr
  · cases h.sessions.unique (d := .closed) (hcall hp) hr
  · obtain ⟨c,hc⟩ := h.sessions.kept hr
    cases c with
    | entry i =>
      refine .inr (.inl ⟨i,Option.mem_toList.1 hc,fun j hj => ?_⟩)
      exact Cell.entry.inj (h.sessions.unique (hentry hj) hc)
    | call p =>
      refine .inr (.inr ⟨p,Option.mem_toList.1 hc,fun q hq => ?_⟩)
      exact Cell.call.inj (h.sessions.unique (hcall hq) hc)
    | closed => exact .inl hc

/-- In every orderly run: what is true of the state reached, and of each step from there. -/
theorem mounts_lifetime (hn : n < 65536) {es : List (Event n)} {s : State n}
    (hr : Reach Step (State.init n) es s) : Sound s ∧ ∀e s',Step s e s' →
      (∀i,(s.table i).inUse → (s'.table i).inUse=false → Cleared s s' e i) ∧
      (∀p i,(s.place p).ref=some i → e.who=p ∧ e.act=.put ∨
        (s'.place p).ref=some i ∧ Same (s.table i) (s'.table i)) ∧
      (∀i r,(s.table i).remote=some r → (s'.table i).remote=some r ∨ s'.place e.who=.closing r) ∧
      ∀r,s.place e.who=.closing r → s'.place e.who=.outside ∧ s'.closed=r::s.closed := by
  have h := Inv.reach hn hr
  refine ⟨h.sound,fun e s' hs => ?_⟩
  have h' := h.step hn hs
  obtain ⟨p,a⟩ := e
  obtain rfl | c := step_change h hs.1 hs.2
  · refine ⟨fun i hu hz => absurd (hu.symm.trans hz) Bool.noConfusion,
      fun q i hq => .inr ⟨hq,Same.refl _⟩,fun i r hi => .inl hi,fun r hc => ?_⟩
    exact step_closing hc hs.2
  refine ⟨fun i => c.cleared h h',fun q i hq => ?_,fun i r hi => ?_,fun r hc => ?_⟩
  · by_cases hput : p=q ∧ a=.put
    · exact .inl hput
    refine .inr ⟨?_,?_⟩
    · by_cases hqp : q=p
      · subst hqp
        exact c.own hq fun ha => hput ⟨rfl,ha⟩
      · rw [c.others hqp]
        exact hq
    · obtain hsame | hzero | ⟨ha,hpi,hone⟩ := c.entry h i
      · exact hsame
      · exact absurd hzero (Nat.ne_of_gt (references_pos hq))
      · have hrefs : references s i=1 := by
          rw [← h.users i,hone]
          rfl
        exact absurd ⟨(references_one hpi hq hrefs).symm,ha⟩ hput
  · obtain hsame | hhand := c.handed h i
    · exact .inl (hsame.2.2.2.trans hi)
    · exact .inr (hhand r hi)
  · exact step_closing hc hs.2

theorem reach_exec (es : List (Event n)) : ∀{hs : List (Event n)} {s s' : State n},
    (∀e∈es,e.act≠.format) → Reach Step (State.init n) hs s → exec step es s=some s' →
      ∃hs',Reach Step (State.init n) hs' s' := by
  induction es with
  | nil => intro hs s s' _ hr he; cases he; exact ⟨hs,hr⟩
  | cons e es ih =>
    intro hs s s' hf hr he
    obtain ⟨s1,h1,h2⟩ := Option.bind_eq_some_iff.1 he
    obtain ⟨he,hes⟩ := List.forall_mem_cons.1 hf
    exact ih hes (hr.next ⟨fun ha => absurd ha he,h1⟩) h2

def mountR (p : Fin n) : List (Event n) :=
  [⟨p,.mount [114]⟩,⟨p,.opened⟩,⟨p,.setKind⟩,⟨p,.setRemote⟩,⟨p,.ready⟩]

/-- One caller unmounts /r while another is inside. -/
theorem mounts_lifetime_unmount : ∃s : State 2,
    (s.table 6).dying ∧ (s.place 0).ref=some 6 ∧ Sound s := by
  have h : (exec step (mountR 0++[⟨0,.get [47,114]⟩,⟨1,.unmount [114]⟩,⟨1,.put⟩])
      (State.init 2)).map (fun s => ((s.table 6).dying,(s.place 0).ref))=some (true,some 6) := by
    decide +kernel
  obtain ⟨s,hs,he⟩ := Option.map_eq_some_iff.1 h
  obtain ⟨es,hr⟩ := reach_exec _ (by decide) Reach.start hs
  exact ⟨s,congrArg Prod.fst he,congrArg Prod.snd he,(mounts_lifetime (by decide) hr).1⟩

/-- The handshake fails: the slot is cleared, and was not dying. -/
theorem abandoned_cleared : ∃(es : List (Event 1)) (s s' : State 1),
    Reach Step (State.init 1) es s ∧ Step s ⟨0,.refused⟩ s' ∧ (s.table 6).inUse ∧
      (s.table 6).dying=false ∧ (s'.table 6).inUse=false := by
  have h : (exec step [⟨0,.mount [114]⟩] (State.init 1)).bind (fun s => (step ⟨0,.refused⟩ s).map
      fun s' => ((s.table 6).inUse,(s.table 6).dying,(s'.table 6).inUse))=
      some (true,false,false) := by decide +kernel
  obtain ⟨s,hs,h⟩ := Option.bind_eq_some_iff.1 h
  obtain ⟨s',hs',h⟩ := Option.map_eq_some_iff.1 h
  obtain ⟨es,hr⟩ := reach_exec _ (by decide) Reach.start hs
  simp only [Prod.mk.injEq] at h
  exact ⟨es,s,s',hr,⟨fun ha => absurd ha Act.noConfusion,hs'⟩,h.1,h.2.1,h.2.2⟩

end LugalOS.Vfs
