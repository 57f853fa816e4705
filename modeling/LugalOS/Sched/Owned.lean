import LugalOS.Sched.Handover

namespace LugalOS.Sched

open Function (update update_of_ne update_self)

/-- The slot's sp is the frame its own thread left at its last switch away (or was primed with). -/
def Saved (v : View) (i : Nat) : Prop :=
  ∃t,v.thread i=some t ∧ v.sp i=some ⟨t,v.parks t⟩ ∧ v.gone t=false

/-- The states of the slots hart h is at. -/
def StateOk (harts : Nat) (v : View) (h : Nat) : Prop :=
  match v.code (v.running h) with
  | .cross p n d => (d=true → v.state p=.dead) ∧
      (d=false → v.state p=.ready ∨ v.state p=.blocked) ∧ p≠n ∧ v.state n=.running ∧ Saved v n ∧
      ∀g,g<harts → v.thread n≠some (v.running g)
  | .pick true => ∀i,v.current h=some i → v.state i=.blocked
  | _ => ∀i,v.current h=some i → v.state i=.running

/-- One RUNNING task for each hart that owns one, and a saved context behind each other task. -/
structure Owned (harts : Nat) (v : View) : Prop where
  own : ∀h,h<harts → StateOk harts v h
  cur : ∀i,v.state i=.running → ∃h,h<harts ∧ v.current h=some i
  saved : ∀i,v.state i=.ready ∨ v.state i=.blocked → v.making i=false →
    (∀h,h<harts → v.thread i≠some (v.running h)) → Saved v i
  making : ∀i,v.making i=true → v.state i=.blocked ∧ ∀h,h<harts → v.thread i≠some (v.running h)
  makes : ∀c k p,v.makes c=some (k,p) → v.making k=true ∧ (p=true → Saved v k)
  makesInj : ∀c d k p q,v.makes c=some (k,p) → v.makes d=some (k,q) → c=d

variable {harts h : Nat} {W : Nat → Prop} {v : View}

theorem StateOk.cross (hs : StateOk harts v h) {p n : Nat} {d : Bool}
    (hc : v.code (v.running h)=.cross p n d) :
    (d=true → v.state p=.dead) ∧ (d=false → v.state p=.ready ∨ v.state p=.blocked) ∧ p≠n ∧
      v.state n=.running ∧ Saved v n ∧ ∀g,g<harts → v.thread n≠some (v.running g) := by
  unfold StateOk at hs
  rw [hc] at hs
  exact hs

theorem StateOk.running (hs : StateOk harts v h) (hc : ∀p n d,v.code (v.running h)≠.cross p n d)
    (hp : v.code (v.running h)≠.pick true) {i : Nat} (hi : v.current h=some i) :
    v.state i=.running := by
  unfold StateOk at hs
  split at hs
  next he => exact absurd he (hc _ _ _)
  next he => exact absurd he hp
  next => exact hs i hi

theorem StateOk.ofRunning (hc : ∀p n d,v.code (v.running h)≠.cross p n d)
    (hp : v.code (v.running h)≠.pick true) (hi : ∀i,v.current h=some i → v.state i=.running) :
    StateOk harts v h := by
  unfold StateOk
  split
  next he => exact absurd he (hc _ _ _)
  next he => exact absurd he hp
  next => exact hi

theorem Owned.elsewhere (o : Owned harts v) (l : Linked harts v) {g : Nat} (hg : g<harts)
    (hl : v.lock≠some g) {i : Nat} (hi : v.current g=some i) : v.state i=.running :=
  (o.own g hg).running (by simp [l.free hg hl]) (by simp [l.free hg hl]) hi

theorem Saved.frame {v' : View} {i : Nat} (hs : Saved v i) (ht : v'.thread i=v.thread i)
    (hsp : v'.sp i=v.sp i) (hp : ∀t,v.thread i=some t → v'.parks t=v.parks t ∧ v'.gone t=v.gone t) :
    Saved v' i := by
  obtain ⟨t,h1,h2,h3⟩ := hs
  obtain ⟨p1,p2⟩ := hp t h1
  exact ⟨t,ht.trans h1,by rw [hsp,h2,p1],p2.trans h3⟩

theorem View.Woke.running {st : Nat → TaskState} (hw : v.Woke W st) {i : Nat} :
    st i=.running ↔ v.state i=.running := by
  rcases hw i with he | ⟨_,h1,h2⟩
  · rw [he]
  · rw [h1,h2]; simp

theorem View.Woke.parked {st : Nat → TaskState} (hw : v.Woke W st) {i : Nat}
    (hs : st i=.ready ∨ st i=.blocked) : v.state i=.ready ∨ v.state i=.blocked := by
  rcases hw i with he | ⟨_,h1,_⟩
  · rwa [he] at hs
  · exact .inr h1

theorem Linked.slot (l : Linked harts v) {g : Nat} (hg : g<harts)
    (hcode : ∀p n d,v.code (v.running g)≠.cross p n d) {i : Nat}
    (ht : v.thread i=some (v.running g)) : v.current g=some i := by
  have hk := l.hart g hg
  cases hc : v.current g with
  | none =>
    unfold HartOk at hk
    split at hk
    next he => exact absurd he (hcode _ _ _)
    next => rw [hc] at hk; exact absurd ht (hk.2 i)
  | some j => rw [l.thrInj i j _ ht (hk.current hcode hc).2.1]

theorem StateOk.ofFree (hf : v.code (v.running h)=.free)
    (hi : ∀i,v.current h=some i → v.state i=.running) : StateOk harts v h :=
  .ofRunning (by simp [hf]) (by simp [hf]) hi

theorem Owned.not_making (o : Owned harts v) {i : Nat} (hs : v.state i≠.blocked) :
    v.making i=false := by
  cases hm : v.making i with
  | false => rfl
  | true => exact absurd (o.making i hm).1 hs

theorem View.Woke.making {st : Nat → TaskState} (hw : v.Woke W st)
    (hm : ∀i,W i → v.making i=false) {i : Nat} (hi : v.making i=true) : st i=v.state i := by
  rcases hw i with he | ⟨hW,_⟩
  · exact he
  · rw [hm i hW] at hi; cases hi

theorem Owned.wake (o : Owned harts v) (l : Linked harts v) {st : Nat → TaskState}
    (hl : v.lock=none) (hw : v.Woke W st) (hm : ∀i,W i → v.making i=false) :
    Owned harts {v with state := st} where
  own := fun g hg => .ofFree (l.free hg (by simp [hl]))
    fun i hi => hw.running.2 (o.elsewhere l hg (by simp [hl]) hi)
  cur := fun i hi => o.cur i (hw.running.1 hi)
  saved := fun i hi => o.saved i (hw.parked hi)
  making := fun i hi => ⟨(hw.making hm hi).trans (o.making i hi).1,(o.making i hi).2⟩
  makes := o.makes
  makesInj := o.makesInj

theorem Owned.enter (o : Owned harts v) (l : Linked harts v) (hh : h<harts) (b : Bool) {i : Nat}
    (hl : v.lock=none) (hc : v.current h=some i) (hf : v.code (v.running h)=.free) :
    Owned harts {v with
      lock := some h,code := update v.code (v.running h) (.pick b),
      state := if b then update v.state i .blocked else v.state} := by
  obtain ⟨_,hti,_⟩ := (l.hart h hh).current (by simp [hf]) hc
  have hri := o.elsewhere l hh (by simp [hl]) hc
  have hne {j : Nat} (hj : j≠i) :
      (if b then update v.state i TaskState.blocked else v.state) j=v.state j := by
    cases b
    · rfl
    · exact update_of_ne hj _ _
  have hmi {j : Nat} (hj : v.making j=true) : j≠i := by
    rintro rfl; rw [(o.making _ hj).1] at hri; cases hri
  exact {o with
    own := by
      intro g hg
      by_cases hgh : g=h
      · subst hgh
        cases b
        · exact .ofRunning (by simp) (by simp) fun j hj => o.elsewhere l hg (by simp [hl]) hj
        · unfold StateOk
          simp only [update_self]
          intro j hj
          rw [hc] at hj; cases hj
          simp
      · refine .ofFree ?_ fun j hj => ?_
        · simpa only [update_of_ne (l.other hh hg hgh)] using l.free hg (by simp [hl])
        · have hji : j≠i := by
            rintro rfl
            have ht := ((l.hart g hg).current (by simp [l.free hg (show v.lock≠some g by simp [hl])]) hj).2.1
            rw [hti] at ht; exact l.other hh hg hgh (Option.some.inj ht).symm
          exact (hne hji).trans (o.elsewhere l hg (by simp [hl]) hj)
    cur := by
      intro j hj
      dsimp only at hj
      have hji : b=true → j≠i := by
        rintro rfl rfl; simp at hj
      cases b
      · exact o.cur j hj
      · rw [hne (hji rfl)] at hj; exact o.cur j hj
    saved := by
      intro j hj hm hr
      have hji : j≠i := by rintro rfl; exact hr h hh hti
      exact o.saved j (by simpa only [hne hji] using hj) hm hr
    making := fun j hj => ⟨(hne (hmi hj)).trans (o.making j hj).1,(o.making j hj).2⟩}

theorem Owned.picking (o : Owned harts v) (hh : h<harts) {b : Bool} {i : Nat}
    (hc : v.current h=some i) (hp : v.code (v.running h)=.pick b) :
    v.state i=(if b then .blocked else .running) := by
  have hs := o.own h hh
  cases b
  · exact hs.running (by simp [hp]) (by simp [hp]) hc
  · unfold StateOk at hs
    rw [hp] at hs
    exact hs i hc

theorem Owned.drop (o : Owned harts v) (l : Linked harts v) (hh : h<harts) {b : Bool} {i : Nat}
    {st : Nat → TaskState} {x : TaskState} (hl : v.lock=some h) (hc : v.current h=some i)
    (hp : v.code (v.running h)=.pick b) (hw : v.Woke W st) (hx : x=.running ∨ b=false ∧ x=st i)
    (hm : ∀j,W j → v.making j=false) :
    Owned harts {v with
      lock := none,code := update v.code (v.running h) .free,state := update st i x} := by
  obtain ⟨_,hti,_⟩ := (l.hart h hh).current (by simp [hp]) hc
  have hpick := o.picking hh hc hp
  have hx : x=.running := by
    rcases hx with rfl | ⟨rfl,rfl⟩
    · rfl
    · exact hw.running.2 hpick
  subst hx
  exact {o with
    own := by
      intro g hg
      by_cases hgh : g=h
      · subst hgh
        refine .ofFree (by simp) fun j hj => ?_
        have hji : j=i := Option.some.inj (hj.symm.trans hc)
        subst hji; simp
      · have hlg : v.lock≠some g := by rw [hl]; exact fun he => hgh (Option.some.inj he).symm
        refine .ofFree ?_ fun j hj => ?_
        · simpa only [update_of_ne (l.other hh hg hgh)] using l.free hg hlg
        · dsimp only
          by_cases hji : j=i
          · subst hji; simp
          · rw [update_of_ne hji]
            exact hw.running.2 (o.elsewhere l hg hlg hj)
    cur := by
      intro j hj
      dsimp only at hj
      by_cases hji : j=i
      · subst hji; exact ⟨h,hh,hc⟩
      · rw [update_of_ne hji] at hj; exact o.cur j (hw.running.1 hj)
    saved := by
      intro j hj hmj hr
      have hji : j≠i := by rintro rfl; exact hr h hh hti
      refine o.saved j (hw.parked ?_) hmj hr
      simpa only [update_of_ne hji] using hj
    making := by
      intro j hj
      have hji : j≠i := by rintro rfl; exact (o.making _ hj).2 h hh hti
      refine ⟨?_,(o.making j hj).2⟩
      dsimp only
      rw [update_of_ne hji,hw.making hm hj,(o.making j hj).1]}

theorem Owned.leave (o : Owned harts v) (l : Linked harts v) (hh : h<harts) {i n : Nat} {d : Bool}
    {x : TaskState} {st : Nat → TaskState} (hl : v.lock=none ∨ v.lock=some h)
    (hc : v.current h=some i) (hti : v.thread i=some (v.running h)) (hw : v.Woke W st) (hni : n≠i)
    (hr : st n=.ready) (hxd : d=true → x=.dead) (hxr : d=false → x=.ready ∨ x=.blocked)
    (hm : ∀j,W j → v.making j=false) :
    Owned harts {v with
      state := update (update st i x) n .running,current := update v.current h (some n),
      lock := some h,code := update v.code (v.running h) (.cross i n d)} := by
  have hlg {g : Nat} (hgh : g≠h) : v.lock≠some g := by
    rcases hl with he | he
    · simp [he]
    · rw [he]; exact fun he => hgh (Option.some.inj he).symm
  have hnp : v.state n=.ready ∨ v.state n=.blocked := hw.parked (.inl hr)
  have hnm : v.making n=false := by
    cases hmn : v.making n with
    | false => rfl
    | true =>
      have := hw.making hm hmn
      rw [hr,(o.making n hmn).1] at this; cases this
  -- the task chosen runs nowhere
  have hnr (g : Nat) (hg : g<harts) : v.thread n≠some (v.running g) := by
    intro ht
    by_cases hgh : g=h
    · subst hgh; exact hni (l.thrInj n i _ ht hti)
    · have := o.elsewhere l hg (hlg hgh) (l.slot hg (by simp [l.free hg (hlg hgh)]) ht)
      rcases hnp with he | he <;> rw [this] at he <;> cases he
  have hx : x≠.running := by
    cases d
    · rcases hxr rfl with rfl | rfl <;> rintro ⟨⟩
    · rw [hxd rfl]; rintro ⟨⟩
  exact {o with
    own := by
      intro g hg
      by_cases hgh : g=h
      · subst hgh
        unfold StateOk
        simp only [update_self,update_of_ne (Ne.symm hni)]
        exact ⟨hxd,hxr,Ne.symm hni,trivial,o.saved n hnp hnm hnr,hnr⟩
      · refine .ofFree ?_ fun j hj => ?_
        · simpa only [update_of_ne (l.other hh hg hgh)] using l.free hg (hlg hgh)
        · dsimp only at hj ⊢
          rw [update_of_ne hgh] at hj
          have hrj := o.elsewhere l hg (hlg hgh) hj
          by_cases hjn : j=n
          · subst hjn; simp
          · have hji : j≠i := by
              rintro rfl
              have ht := ((l.hart g hg).current (by simp [l.free hg (hlg hgh)]) hj).2.1
              rw [hti] at ht; exact l.other hh hg hgh (Option.some.inj ht).symm
            rw [update_of_ne hjn,update_of_ne hji]
            exact hw.running.2 hrj
    cur := by
      intro j hj
      dsimp only at hj ⊢
      by_cases hjn : j=n
      · subst hjn; exact ⟨h,hh,by simp⟩
      · rw [update_of_ne hjn] at hj
        by_cases hji : j=i
        · subst hji; rw [update_self] at hj; exact absurd hj hx
        · rw [update_of_ne hji] at hj
          obtain ⟨g,hg,hcg⟩ := o.cur j (hw.running.1 hj)
          have hgh : g≠h := by
            rintro rfl; rw [hc] at hcg; exact hji (Option.some.inj hcg).symm
          exact ⟨g,hg,by rwa [update_of_ne hgh]⟩
    saved := by
      intro j hj hmj hrj
      dsimp only at hj
      have hjn : j≠n := by
        rintro rfl; rw [update_self] at hj; rcases hj with hj | hj <;> cases hj
      have hji : j≠i := by rintro rfl; exact hrj h hh hti
      rw [update_of_ne hjn,update_of_ne hji] at hj
      exact o.saved j (hw.parked hj) hmj hrj
    making := by
      intro j hj
      have hji : j≠i := by rintro rfl; exact (o.making _ hj).2 h hh hti
      have hjn : j≠n := by rintro rfl; have hj : v.making j=true := hj; rw [hnm] at hj; cases hj
      refine ⟨?_,(o.making j hj).2⟩
      dsimp only
      rw [update_of_ne hjn,update_of_ne hji,hw.making hm hj,(o.making j hj).1]}

theorem Owned.choose (o : Owned harts v) (l : Linked harts v) (hh : h<harts) {b : Bool} {i n : Nat}
    {st : Nat → TaskState} (hl : v.lock=some h) (hc : v.current h=some i)
    (hp : v.code (v.running h)=.pick b) (hw : v.Woke W st) (hni : n≠i) (hr : st n=.ready)
    (hm : ∀j,W j → v.making j=false) :
    Owned harts {v with
      state := update (update st i (if st i=.running then .ready else st i)) n .running,
      current := update v.current h (some n),
      code := update v.code (v.running h) (.cross i n false)} := by
  obtain ⟨_,hti,_⟩ := (l.hart h hh).current (by simp [hp]) hc
  have hpick := o.picking hh hc hp
  have ho := o.leave l hh (d := false) (x := if st i=.running then .ready else st i) (.inr hl) hc
    hti hw hni hr (by rintro ⟨⟩) (fun _ => ?_) hm
  · rwa [← hl] at ho
  · split
    · exact .inl rfl
    next hne =>
      cases b
      · exact absurd (hw.running.2 hpick) hne
      · rcases hw i with he | ⟨_,_,he⟩
        · rw [he,hpick]; exact .inr rfl
        · exact .inl he

theorem Owned.exit (o : Owned harts v) (l : Linked harts v) (hh : h<harts) {i n : Nat}
    {st : Nat → TaskState} (hl : v.lock=none) (hc : v.current h=some i)
    (hf : v.code (v.running h)=.free) (hw : v.Woke W st) (hr : st n=.ready)
    (hm : ∀j,W j → v.making j=false) :
    Owned harts {v with
      state := update (update st i .dead) n .running,current := update v.current h (some n),
      lock := some h,code := update v.code (v.running h) (.cross i n true)} := by
  obtain ⟨_,hti,_⟩ := (l.hart h hh).current (by simp [hf]) hc
  have hni : n≠i := by
    rintro rfl
    rw [hw.running.2 (o.elsewhere l hh (by simp [hl]) hc)] at hr; cases hr
  exact o.leave l hh (.inl hl) hc hti hw hni hr (fun _ => rfl) (by rintro ⟨⟩) hm

theorem Owned.cross (o : Owned harts v) (l : Linked harts v) (hh : h<harts) {p n : Nat} {d : Bool}
    {f : Frame} (hl : v.lock=some h) (hc : v.code (v.running h)=.cross p n d) (hf : v.sp n=some f)
    (hg : v.gone f.thread=false) (hr : ∀g,g<harts → v.running g≠f.thread) :
    Owned harts {v with
      sp := update v.sp p (some ⟨v.running h,v.parks (v.running h)+1⟩),
      parks := update v.parks (v.running h) (v.parks (v.running h)+1),
      code := update v.code (v.running h) .landing,
      gone := update v.gone (v.running h) d,
      running := update v.running h f.thread} := by
  obtain ⟨_,htp,_,hcn,_,_⟩ := (l.hart h hh).cross hc
  obtain ⟨hd,hnd,hpn,hrn,_,_⟩ := (o.own h hh).cross hc
  have hft : v.thread n=some f.thread := (l.sp n f hf).resolve_right (by simp [hg])
  have hland : v.code f.thread=.landing := l.parked _ hr
  have hne : f.thread≠v.running h := (hr h hh).symm
  have hlg {g : Nat} (hgh : g≠h) : v.lock≠some g := by
    rw [hl]; exact fun he => hgh (Option.some.inj he).symm
  have hnp : v.making n=false := o.not_making (by simp [hrn])
  -- a saved context of another slot is not touched
  have hkeep {j : Nat} (hj : j≠p) (hs : Saved v j) : Saved {v with
      sp := update v.sp p (some ⟨v.running h,v.parks (v.running h)+1⟩),
      parks := update v.parks (v.running h) (v.parks (v.running h)+1),
      code := update v.code (v.running h) .landing,
      gone := update v.gone (v.running h) d,
      running := update v.running h f.thread} j := by
    refine hs.frame rfl (update_of_ne hj _ _) fun t ht => ?_
    have : t≠v.running h := by rintro rfl; exact hj (l.thrInj j p _ ht htp)
    exact ⟨update_of_ne this _ _,update_of_ne this _ _⟩
  exact {o with
    own := by
      intro g hg'
      by_cases hgh : g=h
      · subst hgh
        refine .ofRunning ?_ ?_ fun j hj => ?_
        · simp [update_of_ne hne,hland]
        · simp [update_of_ne hne,hland]
        · have hj : v.current g=some j := hj
          rw [hcn] at hj; cases hj; exact hrn
      · refine .ofFree ?_ fun j hj => o.elsewhere l hg' (hlg hgh) hj
        simp only [update_of_ne hgh,update_of_ne (l.other hh hg' hgh)]
        exact l.free hg' (hlg hgh)
    saved := by
      intro j hj hm hrj
      by_cases hjp : j=p
      · subst hjp
        have hdf : d=false := by
          cases d
          · rfl
          · rcases hj with hj | hj <;> rw [hd rfl] at hj <;> cases hj
        exact ⟨v.running h,htp,by simp,by simpa using hdf⟩
      · refine hkeep hjp (o.saved j hj hm fun g hg' ht => ?_)
        by_cases hgh : g=h
        · subst hgh; exact hjp (l.thrInj j p _ ht htp)
        · exact hrj g hg' (by simpa only [update_of_ne hgh] using ht)
    making := by
      intro j hj
      refine ⟨(o.making j hj).1,fun g hg' ht => ?_⟩
      by_cases hgh : g=h
      · subst hgh
        simp only [update_self] at ht
        have := l.thrInj j n _ ht hft
        subst this
        rw [hnp] at hj; cases hj
      · exact (o.making j hj).2 g hg' (by simpa only [update_of_ne hgh] using ht)
    makes := by
      intro c k q hm
      refine ⟨(o.makes c k q hm).1,fun hq => hkeep ?_ ((o.makes c k q hm).2 hq)⟩
      rintro rfl
      exact (o.making k (o.makes c k q hm).1).2 h hh htp}

theorem Owned.land (o : Owned harts v) (l : Linked harts v) (hh : h<harts) (hl : v.lock=some h)
    (hc : v.code (v.running h)=.landing) :
    Owned harts {v with lock := none,code := update v.code (v.running h) .free} :=
  {o with
    own := by
      intro g hg
      by_cases hgh : g=h
      · subst hgh
        exact .ofFree (by simp) fun j hj => (o.own g hg).running (by simp [hc]) (by simp [hc]) hj
      · have hlg : v.lock≠some g := by rw [hl]; exact fun he => hgh (Option.some.inj he).symm
        refine .ofFree ?_ fun j hj => o.elsewhere l hg hlg hj
        simpa only [update_of_ne (l.other hh hg hgh)] using l.free hg hlg}

theorem Owned.stick (o : Owned harts v) (l : Linked harts v) (hh : h<harts)
    {st : Nat → TaskState} (hl : v.lock=none) (hw : v.Woke W st)
    (hm : ∀i,W i → v.making i=false) :
    Owned harts {v with state := st,lock := some h,code := update v.code (v.running h) .stuck} := by
  have ho := o.wake l hl hw hm
  exact {ho with
    own := by
      intro g hg
      by_cases hgh : g=h
      · subst hgh
        exact .ofRunning (by simp) (by simp) fun j hj =>
          hw.running.2 (o.elsewhere l hg (by simp [hl]) hj)
      · refine .ofFree ?_ fun j hj => hw.running.2 (o.elsewhere l hg (by simp [hl]) hj)
        simpa only [update_of_ne (l.other hh hg hgh)] using l.free hg (by simp [hl])}

theorem Owned.reserve (o : Owned harts v) (l : Linked harts v) {k : Nat} (hl : v.lock=none)
    (hv : Vacant (v.state k)) :
    Owned harts {v with
      state := update v.state k .blocked,thread := update v.thread k (some v.next),
      making := update v.making k true,makes := update v.makes (v.running h) (some (k,false)),
      next := v.next+1} := by
  have hk {j : Nat} (hj : ¬Vacant (v.state j)) : j≠k := by rintro rfl; exact hj hv
  have hmaking {j : Nat} (hj : v.making j=true) : j≠k :=
    hk (by rw [(o.making j hj).1]; simp [Vacant])
  exact {
    own := fun g hg => .ofFree (l.free hg (by simp [hl])) fun j hj => by
      have hr := o.elsewhere l hg (by simp [hl]) hj
      have hjk : j≠k := hk (by rw [hr]; simp [Vacant])
      exact (update_of_ne hjk _ _).trans hr
    cur := by
      intro j hj
      dsimp only at hj
      have hjk : j≠k := by rintro rfl; simp at hj
      rw [update_of_ne hjk] at hj
      exact o.cur j hj
    saved := by
      intro j hj hm hr
      have hjk : j≠k := by rintro rfl; simp at hm
      simp only [update_of_ne hjk] at hj hm hr
      exact (o.saved j hj hm hr).frame (update_of_ne hjk _ _) rfl fun _ _ => ⟨rfl,rfl⟩
    making := by
      intro j hj
      by_cases hjk : j=k
      · subst hjk
        refine ⟨by simp,fun g hg he => ?_⟩
        simp only [update_self] at he
        exact absurd (l.runLt g hg) (by rw [← Option.some.inj he]; exact lt_irrefl _)
      · simp only [update_of_ne hjk] at hj ⊢
        exact o.making j hj
    makes := by
      intro c k' q hm
      by_cases hc : c=v.running h
      · subst hc
        simp only [update_self] at hm
        cases hm
        exact ⟨by simp,(by rintro ⟨⟩)⟩
      · simp only [update_of_ne hc] at hm
        obtain ⟨h1,h2⟩ := o.makes c k' q hm
        have hkk := hmaking h1
        exact ⟨(update_of_ne hkk _ _).trans h1,fun hq =>
          (h2 hq).frame (update_of_ne hkk _ _) rfl fun _ _ => ⟨rfl,rfl⟩⟩
    makesInj := by
      intro c d k' p q hc hd
      dsimp only at hc hd
      have hne {e : Nat} {r : Bool} (he : v.makes e=some (k,r)) : False :=
        hmaking (o.makes e k r he).1 rfl
      by_cases hcr : c=v.running h
      · by_cases hdr : d=v.running h
        · rw [hcr,hdr]
        · rw [hcr,update_self] at hc; cases hc
          rw [update_of_ne hdr] at hd
          exact (hne hd).elim
      · rw [update_of_ne hcr] at hc
        by_cases hdr : d=v.running h
        · rw [hdr,update_self] at hd; cases hd
          exact (hne hc).elim
        · rw [update_of_ne hdr] at hd; exact o.makesInj c d k' p q hc hd}

theorem Owned.finish (o : Owned harts v) (l : Linked harts v) {k : Nat} {q : Bool} {x : TaskState}
    (hm : v.makes (v.running h)=some (k,q)) (hx : x=.unused ∨ x=.ready ∧ q=true) :
    Owned harts {v with
      state := update v.state k x,making := update v.making k false,
      makes := update v.makes (v.running h) none} := by
  obtain ⟨hmk,hs⟩ := o.makes _ k q hm
  obtain ⟨hbk,hrk⟩ := o.making k hmk
  have hxr : x≠.running := by rcases hx with rfl | ⟨rfl,_⟩ <;> rintro ⟨⟩
  have hmakes {c k' : Nat} {p : Bool}
      (hc : update v.makes (v.running h) none c=some (k',p)) : v.makes c=some (k',p) ∧ k'≠k := by
    have hcr : c≠v.running h := by rintro rfl; rw [update_self] at hc; cases hc
    rw [update_of_ne hcr] at hc
    refine ⟨hc,?_⟩
    rintro rfl
    exact hcr (o.makesInj _ _ _ _ _ hc hm)
  exact {
    own := by
      intro g hg
      have ho := o.own g hg
      unfold StateOk at ho ⊢
      dsimp only
      split at ho
      next p n d he =>
        obtain ⟨h1,h2,h3,h4,h5,h6⟩ := ho
        have hpk : p≠k := by
          rintro rfl
          exact hrk g hg ((l.hart g hg).cross he).2.1
        have hnk : n≠k := by rintro rfl; rw [hbk] at h4; cases h4
        rw [update_of_ne hpk,update_of_ne hnk]
        exact ⟨h1,h2,h3,h4,h5,h6⟩
      next he =>
        intro i hi
        have hik : i≠k := by
          rintro rfl
          exact hrk g hg ((l.hart g hg).current (by simp [he]) hi).2.1
        rw [update_of_ne hik]
        exact ho i hi
      next =>
        intro i hi
        have hik : i≠k := by
          rintro rfl
          have := ho _ hi
          rw [hbk] at this; cases this
        rw [update_of_ne hik]
        exact ho i hi
    cur := by
      intro j hj
      dsimp only at hj
      have hjk : j≠k := by rintro rfl; rw [update_self] at hj; exact hxr hj
      rw [update_of_ne hjk] at hj
      exact o.cur j hj
    saved := by
      intro j hj hmj hr
      by_cases hjk : j=k
      · subst hjk
        simp only [update_self] at hj
        rcases hx with rfl | ⟨_,hq⟩
        · rcases hj with hj | hj <;> cases hj
        · exact hs hq
      · simp only [update_of_ne hjk] at hj hmj
        exact o.saved j hj hmj hr
    making := by
      intro j hj
      have hjk : j≠k := by rintro rfl; simp at hj
      simp only [update_of_ne hjk] at hj ⊢
      exact o.making j hj
    makes := by
      intro c k' p hc
      obtain ⟨hc,hkk⟩ := hmakes hc
      obtain ⟨h1,h2⟩ := o.makes c k' p hc
      exact ⟨(update_of_ne hkk _ _).trans h1,h2⟩
    makesInj := fun c d k' p p' hc hd =>
      o.makesInj c d k' p p' (hmakes hc).1 (hmakes hd).1}

theorem Owned.prime (o : Owned harts v) (l : Linked harts v) {k u : Nat}
    (hm : v.makes (v.running h)=some (k,false)) (hu : v.thread k=some u) :
    Owned harts {v with
      sp := update v.sp k (some ⟨u,0⟩),code := update v.code u .landing,
      makes := update (update v.makes u none) (v.running h) (some (k,true)),
      gone := update v.gone u false,parks := update v.parks u 0} := by
  obtain ⟨hmk,_⟩ := o.makes _ k _ hm
  obtain ⟨hbk,hrk⟩ := o.making k hmk
  have hne {g : Nat} (hg : g<harts) : v.running g≠u := fun he => hrk g hg (he ▸ hu)
  have hkeep {j : Nat} (hj : j≠k) (hs : Saved v j) : Saved {v with
      sp := update v.sp k (some ⟨u,0⟩),code := update v.code u .landing,
      makes := update (update v.makes u none) (v.running h) (some (k,true)),
      gone := update v.gone u false,parks := update v.parks u 0} j := by
    refine hs.frame rfl (update_of_ne hj _ _) fun t ht => ?_
    have : t≠u := by rintro rfl; exact hj (l.thrInj j k _ ht hu)
    exact ⟨update_of_ne this _ _,update_of_ne this _ _⟩
  have hmakes {c k' : Nat} {p : Bool}
      (hc : update (update v.makes u none) (v.running h) (some (k,true)) c=some (k',p)) :
      c=v.running h ∧ k'=k ∧ p=true ∨ c≠v.running h ∧ v.makes c=some (k',p) ∧ k'≠k := by
    by_cases hcr : c=v.running h
    · subst hcr; rw [update_self] at hc; cases hc; exact .inl ⟨rfl,rfl,rfl⟩
    · rw [update_of_ne hcr] at hc
      have hcu : c≠u := by rintro rfl; rw [update_self] at hc; cases hc
      rw [update_of_ne hcu] at hc
      refine .inr ⟨hcr,hc,?_⟩
      rintro rfl
      exact hcr (o.makesInj _ _ _ _ _ hc hm)
  exact {o with
    own := by
      intro g hg
      have ho := o.own g hg
      unfold StateOk at ho ⊢
      simp only [update_of_ne (hne hg)]
      split at ho
      next p n d he =>
        obtain ⟨h1,h2,h3,h4,h5,h6⟩ := ho
        have hnk : n≠k := by rintro rfl; rw [hbk] at h4; cases h4
        exact ⟨h1,h2,h3,h4,hkeep hnk h5,h6⟩
      next => exact ho
      next => exact ho
    saved := by
      intro j hj hmj hr
      have hjk : j≠k := by rintro rfl; rw [hmk] at hmj; cases hmj
      exact hkeep hjk (o.saved j hj hmj hr)
    makes := by
      intro c k' p hc
      rcases hmakes hc with ⟨_,rfl,_⟩ | ⟨_,hc,hkk⟩
      · exact ⟨hmk,fun _ => ⟨u,hu,by simp,by simp⟩⟩
      · obtain ⟨h1,h2⟩ := o.makes c k' p hc
        exact ⟨h1,fun hp => hkeep hkk (h2 hp)⟩
    makesInj := by
      intro c d k' p q hc hd
      rcases hmakes hc with ⟨rfl,rfl,_⟩ | ⟨_,hc,hkk⟩
      · rcases hmakes hd with ⟨rfl,_⟩ | ⟨_,_,hkk⟩
        · rfl
        · exact absurd rfl hkk
      · rcases hmakes hd with ⟨_,rfl,_⟩ | ⟨_,hd,_⟩
        · exact absurd rfl hkk
        · exact o.makesInj c d k' p q hc hd}

theorem Owned.secondary (o : Owned harts v) (l : Linked harts v) (hh : h<harts) {k : Nat}
    (hl : v.lock=none) (hc : v.current h=none) (hv : v.state k=.unused) :
    Owned harts {v with
      state := update v.state k .running,thread := update v.thread k (some (v.running h)),
      current := update v.current h (some k)} := by
  have hk {j : Nat} (hj : ¬Vacant (v.state j)) : j≠k := by rintro rfl; exact hj (.inl hv)
  have hmaking {j : Nat} (hj : v.making j=true) : j≠k :=
    hk (by rw [(o.making j hj).1]; simp [Vacant])
  have hlg {g : Nat} : v.lock≠some g := by simp [hl]
  have hbare : ∀i,v.thread i≠some (v.running h) := by
    have := l.hart h hh
    unfold HartOk at this
    simp only [l.free hh hlg,hc] at this
    exact this.2
  exact {
    own := by
      intro g hg
      refine .ofFree (l.free hg hlg) fun j hj => ?_
      dsimp only at hj ⊢
      by_cases hjk : j=k
      · subst hjk; simp
      · rw [update_of_ne hjk]
        by_cases hgh : g=h
        · subst hgh; rw [update_self] at hj; exact absurd (Option.some.inj hj).symm hjk
        · rw [update_of_ne hgh] at hj; exact o.elsewhere l hg hlg hj
    cur := by
      intro j hj
      dsimp only at hj ⊢
      by_cases hjk : j=k
      · subst hjk; exact ⟨h,hh,by simp⟩
      · rw [update_of_ne hjk] at hj
        obtain ⟨g,hg,hcg⟩ := o.cur j hj
        have hgh : g≠h := by rintro rfl; rw [hc] at hcg; cases hcg
        exact ⟨g,hg,by rwa [update_of_ne hgh]⟩
    saved := by
      intro j hj hm hr
      have hjk : j≠k := by
        rintro rfl; simp only [update_self] at hj; rcases hj with hj | hj <;> cases hj
      simp only [update_of_ne hjk] at hj hr
      exact (o.saved j hj hm hr).frame (update_of_ne hjk _ _) rfl fun _ _ => ⟨rfl,rfl⟩
    making := by
      intro j hj
      have hjk := hmaking hj
      simp only [update_of_ne hjk]
      exact o.making j hj
    makes := by
      intro c k' p hm
      obtain ⟨h1,h2⟩ := o.makes c k' p hm
      exact ⟨h1,fun hp => (h2 hp).frame (update_of_ne (hmaking h1) _ _) rfl
        fun _ _ => ⟨rfl,rfl⟩⟩
    makesInj := o.makesInj}

/-- As long as no slot under creation is woken, each step keeps one RUNNING task a hart and a
saved context behind each other task. -/
theorem Owned.hand (o : Owned harts v) (l : Linked harts v) (hh : h<harts) {v' : View}
    (hs : Hand harts W h v v') (hm : ∀i,W i → v.making i=false) : Owned harts v' := by
  cases hs with
  | wake st hl hw => exact o.wake l hl hw hm
  | enter b i hl hc hf => exact o.enter l hh b hl hc hf
  | drop b i st x hl hc hp hw hx => exact o.drop l hh hl hc hp hw hx hm
  | choose b i n st hl hc hp hw hni _ hr =>
    exact o.choose l hh hl hc hp hw hni hr hm
  | cross p n d f hl hc hf _ hg hr => exact o.cross l hh hl hc hf hg hr
  | land hl hc => exact o.land l hh hl hc
  | reserve k hl _ hv => exact o.reserve l hl hv
  | giveUp k hmk => exact o.finish l hmk (.inl rfl)
  | prime k u hmk hu => exact o.prime l hmk hu
  | publish k _ hmk => exact o.finish l hmk (.inr ⟨rfl,rfl⟩)
  | exit i n st hl hc hf hw _ hr => exact o.exit l hh hl hc hf hw hr hm
  | stick st hl hw _ _ => exact o.stick l hh hl hw hm
  | secondary k hl hc _ hv => exact o.secondary l hh hl hc hv

end LugalOS.Sched
