import LugalOS.Llp.Net

namespace LugalOS.Llp

open Function (update_of_ne update_self)

theorem Says.kind {free : Nat} {l : Link} {f : Frame} (h : Says free l f) (g : Hello) :
    f.kind≠.hello g := by
  cases h with
  | credit window =>
    rw [kind_link rfl]
    simp only [linkFrame,parse_credit]
    rintro ⟨⟩
  | probe =>
    rw [kind_link rfl]
    simp only [linkFrame,parse_probe]
    rintro ⟨⟩
  | state link rssi =>
    rw [kind_link rfl]
    simp only [linkFrame,parse_state]
    rintro ⟨⟩

theorem helloOf_up (l : Link) (window : UInt8) :
    (helloOf l window).flags &&& helloUp=0 ↔ l.state≠.up := by
  simp only [helloOf]
  by_cases hw : l.cfg.rxWindow≠0
  · rw [if_pos hw]
    cases l.state <;> decide
  · rw [if_neg hw]
    cases l.state <;> decide

def Flying.hello? (f : Flying) : Option Hello :=
  match f.frame.kind with
  | .hello h => some h
  | _ => none

/-- The HELLOs in a channel, oldest first. -/
def hellos (c : List Flying) : List Hello := c.filterMap Flying.hello?

/-- How much a HELLO to a link of session x, whose peer's session is y, can still set off: one that
says neither is answered, one that does not know x is answered by one that knows y, and that one is
answered unless it carries UP. -/
def weight (y x : UInt32) (h : Hello) : Nat :=
  if h.session≠y then 6
  else if h.peerSession≠x then 3
  else if h.flags &&& helloUp=0 then 2
  else 1

/-- A link that has not taken over the peer's session will answer once more. -/
def debt (y z : UInt32) : Nat := if z=y then 0 else 2

theorem weight_pos (y x : UInt32) (h : Hello) : 1≤weight y x h := by
  unfold weight
  (repeat' split) <;> decide

theorem weight_answer (l : Link) (y : UInt32) (window : UInt8) :
    weight l.session y (helloOf l window)=
      if l.peerSession≠y then 3 else if l.state=.up then 1 else 2 := by
  have h : (helloOf l window).session=l.session := rfl
  have hp : (helloOf l window).peerSession=l.peerSession := rfl
  rw [weight,if_neg (not_not.mpr h),hp]
  by_cases hu : l.state=.up
  · rw [if_pos hu,if_neg (mt (helloOf_up l window).mp (not_not.mpr hu))]
  · rw [if_neg hu,if_pos ((helloOf_up l window).mpr hu)]

theorem greet_weight (l : Link) (h : Hello) (y : UInt32) (window : UInt8) :
    1+debt y (l.greet h).1.peerSession+
      (if (l.greet h).2 then weight l.session y (helloOf (l.greet h).1 window) else 0)≤
    weight y l.session h+debt y l.peerSession := by
  have hpos := weight_pos y l.session h
  have hans (l' : Link) (hl : l'.session=l.session) :
      weight l.session y (helloOf l' window)=
        if l'.peerSession≠y then 3 else if l'.state=.up then 1 else 2 := by
    rw [← hl]; exact weight_answer l' y window
  have had (k : LinkState) : weight l.session y (helloOf {l.adopt h with state := k} window)=
      if h.session≠y then 3 else if k=.up then 1 else 2 := hans _ rfl
  by_cases h0 : h.session=0
  · rw [Link.greet,if_pos h0]
    simp only [Bool.false_eq_true,if_false]
    omega
  by_cases hn : h.session≠l.peerSession
  · -- a session not seen before: the debt is paid, unless the session is no longer the peer's
    by_cases hf : l.fits h=true
    · by_cases hs : h.peerSession=l.session
      · rw [Link.greet,if_neg h0,if_pos hn,if_pos hf,if_pos hs]
        simp only [had]
        unfold weight debt
        grind
      · rw [Link.greet,if_neg h0,if_pos hn,if_pos hf,if_neg hs]
        simp only [had]
        unfold weight debt
        grind
    · rw [Link.greet,if_neg h0,if_pos hn,if_neg hf]
      simp only [had,if_true]
      show 1+debt y h.session+(if h.session≠y then 3 else if LinkState.mismatch=.up then 1 else 2)≤_
      rw [if_neg (show ¬LinkState.mismatch=.up by decide)]
      unfold weight debt
      grind
  · by_cases hm : l.state=.mismatch
    · rw [Link.greet,if_neg h0,if_neg hn,if_pos hm]
      simp only [Bool.false_eq_true,if_false]
      omega
    · by_cases hs : h.peerSession=l.session
      · rw [Link.greet,if_neg h0,if_neg hn,if_neg hm,if_pos hs]
        have hu := hans {l with peerFlags := h.flags, state := .up} rfl
        simp only [hu]
        unfold weight debt
        grind
      · rw [Link.greet,if_neg h0,if_neg hn,if_neg hm,if_neg hs]
        have hu := hans {l with peerFlags := h.flags} rfl
        simp only [hu]
        unfold weight debt
        grind

theorem hellos_append (c d : List Flying) : hellos (c++d)=hellos c++hellos d :=
  List.filterMap_append

theorem hellos_none {c : List Flying} (h : ∀f∈c,∀g,f.frame.kind≠.hello g) : hellos c=[] := by
  refine List.filterMap_eq_nil_iff.mpr fun f hf => ?_
  simp only [Flying.hello?]
  split
  next g hk => exact absurd hk (h f hf g)
  next => rfl

theorem hellos_cons {f : Flying} {c : List Flying} {h : Hello} (hf : f.frame.kind=.hello h) :
    hellos (f::c)=h::hellos c :=
  List.filterMap_cons_some (by simp only [Flying.hello?,hf])

theorem hellos_cons_none {f : Flying} {c : List Flying} (hf : ∀g,f.frame.kind≠.hello g) :
    hellos (f::c)=hellos c := by
  have hn : hellos [f]=[] := hellos_none fun x hx => by rw [List.mem_singleton.mp hx]; exact hf
  rw [← List.singleton_append,hellos_append,hn,List.nil_append]

theorem put_self (n : Net) (s : Side) (x : Node) (fs : List Frame) : (n.put s x fs).node s=x :=
  update_self ..

theorem put_other (n : Net) (s : Side) (x : Node) (fs : List Frame) :
    (n.put s x fs).node s.other=n.node s.other := update_of_ne s.other_ne ..

theorem put_chan_other (n : Net) (s : Side) (x : Node) (fs : List Frame) :
    (n.put s x fs).chan s.other=n.chan s.other := update_of_ne s.other_ne ..

theorem put_hellos (n : Net) (s : Side) (x : Node) {fs : List Frame}
    (h : ∀f∈fs,∀g,f.kind≠.hello g) : hellos ((n.put s x fs).chan s)=hellos (n.chan s) := by
  have hn : hellos (fs.map fun f => Flying.mk f x.link.session x.link.peerSession
      (n.accepted s x.link.session x.link.peerSession).length)=[] :=
    hellos_none fun f hf => by
      obtain ⟨f',hm,rfl⟩ := List.mem_map.mp hf
      exact h f' hm
  simp only [Net.put,update_self]
  rw [hellos_append,hn,List.append_nil]

theorem put_hello (n : Net) (s : Side) (x : Node) (p : Prop) [Decidable p] (h : Hello) :
    hellos ((n.put s x (if p then [linkFrame (.hello h)] else [])).chan s)=
      hellos (n.chan s)++if p then [h] else [] := by
  split
  next =>
    simp only [Net.put,update_self,List.map_cons,List.map_nil]
    rw [hellos_append,hellos_cons (kind_hello h)]
    rfl
  next => rw [put_hellos n s x (by simp),List.append_nil]

/-- Two links in the same place of the handshake. -/
structure Calm (l g : Link) : Prop where
  cfg : g.cfg=l.cfg
  state : g.state=l.state
  session : g.session=l.session
  peerSession : g.peerSession=l.peerSession
  peerMajor : g.peerMajor=l.peerMajor
  peerMaxPayload : g.peerMaxPayload=l.peerMaxPayload

theorem Same.calm {l g : Link} (h : Same l g) : Calm l g :=
  ⟨h.cfg,h.state,h.session,h.peerSession,h.peerMajor,h.peerMaxPayload⟩

/-- What the handshake sees of a step of s: the HELLOs that came off the channel to s, what its link
became, and the HELLOs it sent. -/
structure Shake (n n' : Net) (s : Side) (came : List Hello) (g : Link) (out : List Hello) :
    Prop where
  link : Calm g (n'.node s).link
  other : n'.node s.other=n.node s.other
  came : hellos (n.chan s.other)=came++hellos (n'.chan s.other)
  sent : hellos (n'.chan s)=hellos (n.chan s)++out
  keeps : ∀p∈(n.node s).recorded,p∈(n'.node s).recorded
  records : g.peerSession=0 ∨ g.session=(n.node s).link.session ∧
    g.peerSession=(n.node s).link.peerSession ∨ (g.session,g.peerSession)∈(n'.node s).recorded
  used : ∀x∈(n.node s).used,x∈(n'.node s).used
  own : g.session=(n.node s).link.session ∨ g.session∈(n'.node s).used

theorem Calm.refl (l : Link) : Calm l l := ⟨rfl,rfl,rfl,rfl,rfl,rfl⟩

theorem Calm.trans {l l' l'' : Link} (h : Calm l l') (h' : Calm l' l'') : Calm l l'' :=
  ⟨h'.cfg.trans h.cfg,h'.state.trans h.state,h'.session.trans h.session,
    h'.peerSession.trans h.peerSession,h'.peerMajor.trans h.peerMajor,
    h'.peerMaxPayload.trans h.peerMaxPayload⟩

theorem hears_calm (l : Link) (f : Frame) : Calm l (l.hears f) := by
  simp only [Link.hears]
  split
  next => exact .refl l
  next => simp only [Link.credited]; split <;> exact ⟨rfl,rfl,rfl,rfl,rfl,rfl⟩
  next => simp only [Link.probed]; split <;> exact ⟨rfl,rfl,rfl,rfl,rfl,rfl⟩
  next => simp only [Link.took]; split <;> exact ⟨rfl,rfl,rfl,rfl,rfl,rfl⟩
  next => exact .refl l

/-- The moves of the handshake: what a link becomes, from the HELLOs that came, and what it sends. A
frame of any other kind is no move. -/
inductive Move (x : Node) : Ev → List Hello → Link → List Hello → Prop
  | calm {e : Ev} {g : Link} : Calm x.link g → Move x e [] g []
  | lost (s : Side) (came : List Hello) : Move x (.lose s) came x.link []
  | greets (s : Side) (now : UInt32) (accepts : Nat → Bool) (h : Hello) (window : UInt8) :
      Move x (.recv s now accepts) [h] (x.link.greet h).1
        (if (x.link.greet h).2 ∧ accepts 0 then [helloOf (x.link.greet h).1 window] else [])
  | calls (s : Side) (now : UInt32) (accepts : Nat → Bool) (window : UInt8) :
      x.link.state≠.mismatch → Move x (.tick s now accepts) [] {x.link with state := .down}
        (if accepts 0 then [helloOf {x.link with state := .down} window] else [])
  | starts (s : Side) (now : UInt32) (accepts : Nat → Bool) (session : UInt32) (free : Nat)
      (window : UInt8) : session≠0 → session∉x.used →
      Move x (.restart s now accepts session free) [] (.born x.link.cfg session now)
        (if accepts 0 then [helloOf (.born x.link.cfg session now) window] else [])

def Ev.side : Ev → Side
  | .send s _ _ _ _ => s
  | .sendState s _ _ _ _ => s
  | .tick s _ _ => s
  | .recv s _ _ => s
  | .lose s => s
  | .consume s => s
  | .restart s _ _ _ _ => s

theorem shake_calm (n : Net) (s : Side) (x : Node) {fs : List Frame} {g : Link}
    (hg : Calm g x.link) (hl : Calm (n.node s).link g)
    (hr : ∀q∈(n.node s).recorded,q∈x.recorded) (hu : x.used=(n.node s).used)
    (hf : ∀f∈fs,∀h,f.kind≠.hello h) :
    Shake n (n.put s x fs) s [] g [] where
  link := by rw [put_self]; exact hg
  other := put_other ..
  came := by rw [put_chan_other]; rfl
  sent := by rw [put_hellos n s x hf,List.append_nil]
  keeps := by rw [put_self]; exact hr
  records := .inr (.inl ⟨hl.session,hl.peerSession⟩)
  used := by rw [put_self,hu]; exact fun _ => id
  own := .inl hl.session

theorem shake_hello (n : Net) (s : Side) (x : Node) {g : Link} {window : UInt8} {p : Prop}
    [Decidable p] (hg : Same g x.link) (hr : ∀q∈(n.node s).recorded,q∈x.recorded)
    (hp : g.peerSession=0 ∨ g.session=(n.node s).link.session ∧
      g.peerSession=(n.node s).link.peerSession ∨ (g.session,g.peerSession)∈x.recorded)
    (hu : ∀y∈(n.node s).used,y∈x.used) (ho : g.session=(n.node s).link.session ∨ g.session∈x.used) :
    Shake n (n.put s x (if p then [linkFrame (.hello (helloOf g window))] else [])) s [] g
      (if p then [helloOf g window] else []) where
  link := by rw [put_self]; exact hg.calm
  other := put_other ..
  came := by rw [put_chan_other]; rfl
  sent := put_hello n s x p _
  keeps := by rw [put_self]; exact hr
  records := by rw [put_self]; exact hp
  used := by rw [put_self]; exact hu
  own := by rw [put_self]; exact ho

theorem Shake.pop {n n' : Net} {s : Side} {f : Flying} {rest : List Flying} {g : Link}
    {out : List Hello} (hc : n.chan s.other=f::rest) (h : Shake (n.pop s rest) n' s [] g out) :
    Shake n n' s (hellos [f]) g out where
  link := h.link
  other := h.other
  came := by
    have hx := h.came
    simp only [Net.pop,update_self,List.nil_append] at hx
    rw [hc,← hx,← hellos_append]
    rfl
  sent := by
    have hx := h.sent
    simp only [Net.pop] at hx
    rw [update_of_ne s.other_ne.symm] at hx
    exact hx
  keeps := h.keeps
  records := h.records
  used := h.used
  own := h.own

theorem greet_keeps (l : Link) (h : Hello) :
    (l.greet h).1.session=l.session ∧ (l.greet h).1.cfg=l.cfg := by
  simp only [Link.greet]
  (repeat' split) <;> exact ⟨rfl,rfl⟩

theorem read_link (x : Node) (f : Flying) (r : Option Frame×Io) : (x.read f r).link=r.2.link := by
  simp only [Node.read]
  (repeat' split) <;> rfl

theorem read_recorded (x : Node) (f : Flying) (r : Option Frame×Io) :
    (∀q∈x.recorded,q∈(x.read f r).recorded) ∧ ∀h,f.frame.kind=.hello h →
      r.2.link.peerSession=x.link.peerSession ∨
        (x.link.session,r.2.link.peerSession)∈(x.read f r).recorded := by
  simp only [Node.read]
  constructor
  · intro q hq
    (repeat' split) <;> first | exact hq | exact List.mem_cons_of_mem _ hq
  · intro h hf
    simp only [hf]
    split
    next he => exact .inl he
    next => exact .inr List.mem_cons_self

theorem read_used (x : Node) (f : Flying) (r : Option Frame×Io) : (x.read f r).used=x.used := by
  simp only [Node.read]
  (repeat' split) <;> rfl

theorem Says.kinds {free : Nat} {l : Link} {fs : List Frame} (h : ∀f∈fs,Says free l f) :
    ∀f∈fs,∀g,f.kind≠.hello g := fun f hf g => (h f hf).kind g

/-- The HELLO that a step takes off its channel. -/
def taken (n : Net) : Ev → List Hello
  | .recv s _ _ => hellos ((n.chan s.other).take 1)
  | .lose s => hellos ((n.chan s.other).take 1)
  | _ => []

theorem Step.shake {n n' : Net} {e : Ev} (h : Step n e n') :
    ∃g out,Shake n n' e.side (taken n e) g out ∧ Move (n.node e.side) e (taken n e) g out := by
  unfold Step at h
  cases e with
  | send s now accepts type payload =>
    simp only [exec] at h
    rcases send_cases (.flat now (n.node s).free accepts) (n.node s).link type payload with
      ⟨h0,_,ht,_,hl,hs⟩ | ⟨h0,hl,hs⟩
    · rw [h0,if_pos rfl,hs] at h
      have hk : ∀f∈[Frame.mk type (n.node s).link.txSeq payload],∀h,f.kind≠.hello h := by
        intro f hf g
        rw [List.mem_singleton.mp hf,kind_eq_data ht]
        rintro ⟨⟩
      cases h
      have hg : Calm (n.node s).link (llpLinkSend (.flat now (n.node s).free accepts)
          (n.node s).link type payload).2.link :=
        ⟨hl.cfg,hl.state,hl.session,hl.peerSession,hl.peerMajor,hl.peerMaxPayload⟩
      have hx := shake_calm n s {n.node s with link := (llpLinkSend
        (.flat now (n.node s).free accepts) (n.node s).link type payload).2.link} hg (.refl _) (fun _ => id) rfl hk
      exact ⟨_,_,⟨hx.link,hx.other,hx.came,hx.sent,hx.keeps,hx.records,hx.used,hx.own⟩,.calm (.refl _)⟩
    · rw [if_neg h0,hs] at h
      cases h
      exact ⟨_,_,shake_calm n s _ hl.calm (.refl _) (fun _ => id) rfl fun _ hf => absurd hf List.not_mem_nil,.calm (.refl _)⟩
  | sendState s now accepts link rssi =>
    simp only [exec] at h
    cases h
    have ht := sendState_talks (n.node s).free (.flat now (n.node s).free accepts)
      (n.node s).link link rssi
    obtain ⟨fs,hs,hf⟩ := ht.sent
    rw [List.nil_append] at hs
    exact ⟨_,_,shake_calm n s _ ht.same.calm (.refl _) (fun _ => id) rfl
      (by rw [hs]; exact Says.kinds hf),
      .calm (.refl _)⟩
  | tick s now accepts =>
    simp only [exec] at h
    cases h
    rcases tick_cases now (n.node s).free accepts (n.node s).link with ht | ⟨hm,ht⟩
    · obtain ⟨fs,hs,hf⟩ := ht.sent
      rw [List.nil_append] at hs
      exact ⟨_,_,shake_calm n s _ ht.same.calm (.refl _) (fun _ => id) rfl
      (by rw [hs]; exact Says.kinds hf),
        .calm (.refl _)⟩
    · obtain ⟨window,_,hs⟩ := ht.sent
      rw [List.nil_append] at hs
      simp only [true_and] at hs
      refine ⟨_,_,?_,.calls s now accepts window hm⟩
      rw [hs]
      exact shake_hello n s _ ht.same (fun _ => id) (.inr (.inl ⟨rfl,rfl⟩))
        (fun _ => id) (.inl rfl)
  | restart s now accepts session free =>
    simp only [exec] at h
    split at h
    next hn =>
      cases h
      have ht := init_greets now free accepts (n.node s).link.cfg session
      obtain ⟨window,_,hs⟩ := ht.sent
      rw [List.nil_append] at hs
      simp only [true_and] at hs
      refine ⟨_,_,?_,.starts s now accepts session free window hn.1 hn.2⟩
      rw [hs]
      exact shake_hello n s _ ht.same (fun _ => id) (.inl rfl)
        (fun _ => List.mem_cons_of_mem _) (.inr List.mem_cons_self)
    next => cases h
  | consume s =>
    simp only [exec] at h
    cases h
    refine ⟨(n.node s).link,[],⟨?_,update_of_ne s.other_ne ..,rfl,?_,?_,?_,?_,.inl rfl⟩,
      .calm (.refl _)⟩
    · simp only [Ev.side,update_self]; exact .refl _
    · exact (List.append_nil _).symm
    · simp only [Ev.side,update_self]; exact fun _ => id
    · exact .inr (.inl ⟨rfl,rfl⟩)
    · simp only [Ev.side,update_self]; exact fun _ => id
  | lose s =>
    simp only [exec] at h
    split at h
    next => cases h
    next f rest hc =>
      have hx : Shake n (n.pop s rest) s (hellos [f]) (n.node s).link [] := by
        refine ⟨.refl _,rfl,?_,?_,fun _ => id,.inr (.inl ⟨rfl,rfl⟩),fun _ => id,.inl rfl⟩
        · simp only [Net.pop,update_self]
          rw [hc,← hellos_append]
          rfl
        · simp only [Net.pop]
          rw [update_of_ne s.other_ne.symm,List.append_nil]
      have ht : taken n (.lose s)=hellos [f] := by simp only [taken,hc]; rfl
      refine ⟨_,_,?_,.lost s _⟩
      rw [ht]
      split at h
      next =>
        cases h
        refine ⟨?_,(update_of_ne s.other_ne ..).trans hx.other,hx.came,hx.sent,?_,
          .inr (.inl ⟨rfl,rfl⟩),?_,.inl rfl⟩
        · simp only [Ev.side,update_self]; exact .refl _
        · simp only [Ev.side,update_self]; exact fun _ => id
        · simp only [Ev.side,update_self]; exact fun _ => id
      next => cases h; exact hx
  | recv s now accepts =>
    simp only [exec] at h
    split at h
    next => cases h
    next f rest hc =>
      have hnode : (n.pop s rest).node=n.node := rfl
      by_cases hk : ∃h,f.frame.kind=.hello h
      · obtain ⟨g,hk⟩ := hk
        obtain ⟨h1,ht⟩ := input_hello now (n.node s).free accepts (n.node s).link hk
        rw [h1] at h
        cases h
        obtain ⟨window,_,hs⟩ := ht.sent
        rw [List.nil_append] at hs
        have hx : hellos [f]=[g] := hellos_cons hk
        have ht' : taken n (.recv s now accepts)=[g] := by simp only [taken,hc]; exact hx
        refine ⟨_,_,?_,by rw [ht']; exact .greets s now accepts g window⟩
        rw [ht',← hx]
        refine Shake.pop hc ?_
        rw [hs]
        have hl := ht.same
        obtain ⟨hks,_⟩ := greet_keeps (n.node s).link g
        obtain ⟨hr,hrec⟩ := read_recorded (n.node s) f
          (llpLinkInput (.flat now (n.node s).free accepts) (n.node s).link f.frame)
        refine shake_hello (n.pop s rest) s _ (by rw [read_link]; exact hl) hr ?_
          (by rw [read_used]; exact fun _ => id) (.inl hks)
        rcases hrec g hk with hp | hp
        · exact .inr (.inl ⟨hks,hl.peerSession.symm.trans hp⟩)
        · rw [hks,← hl.peerSession]; exact .inr (.inr hp)
      · have hk : ∀g,f.frame.kind≠.hello g := not_exists.mp hk
        obtain ⟨hl,fs,hs,hf⟩ := input_turns now (n.node s).free accepts (n.node s).link hk
        rw [List.nil_append] at hs
        have hx : hellos [f]=[] := hellos_cons_none hk
        have hsaid := Says.kinds hf
        rw [← hs] at hsaid
        have hm := shake_calm (n.pop s rest) s ((n.node s).read f
          (llpLinkInput (.flat now (n.node s).free accepts) (n.node s).link f.frame))
          (by rw [read_link]; exact (hears_calm (n.node s).link f.frame).trans hl.calm)
          (.refl _) (read_recorded ..).1 (read_used ..) hsaid
        have hm := Shake.pop hc hm
        rw [hx] at hm
        have ht' : taken n (.recv s now accepts)=[] := by simp only [taken,hc]; exact hx
        refine ⟨_,[],?_,by rw [ht']; exact .calm (.refl _)⟩
        rw [ht']
        split at h <;> cases h <;>
          exact ⟨hm.link,hm.other,hm.came,hm.sent,hm.keeps,hm.records,hm.used,hm.own⟩

/-- What the HELLOs on their way to s can still set off. -/
def toward (n : Net) (s : Side) : Nat :=
  ((hellos (n.chan s.other)).map
    (weight (n.node s.other).link.session (n.node s).link.session)).sum+
  debt (n.node s.other).link.session (n.node s).link.peerSession

/-- A bound on the HELLOs that still come, when no timer fires and nobody restarts. -/
def fuel (n : Net) : Nat := toward n .a+toward n .b

theorem fuel_eq (n : Net) (s : Side) : fuel n=toward n s+toward n s.other := by
  cases s with
  | a => rfl
  | b => exact Nat.add_comm ..

/-- The steps that neither a timer nor a restart makes, on channels that lose nothing. -/
def Ev.quiet : Ev → Bool
  | .send _ _ _ _ _ => true
  | .sendState _ _ _ _ _ => true
  | .recv _ _ _ => true
  | .consume _ => true
  | _ => false

theorem Calm.greet_bound {n n' : Net} {s : Side} {l g : Link} {came out : List Hello}
    (hs : Shake n n' s came g out) (hl : (n.node s).link=l) (hsess : g.session=l.session)
    (hw : came.length+debt (n.node s.other).link.session g.peerSession+
      (out.map (weight l.session (n.node s.other).link.session)).sum≤
      (came.map (weight (n.node s.other).link.session l.session)).sum+
        debt (n.node s.other).link.session l.peerSession) :
    came.length+fuel n'≤fuel n := by
  subst hl
  have hx : (n'.node s).link.session=(n.node s).link.session := hs.link.session.trans hsess
  have hp := hs.link.peerSession
  rw [fuel_eq n s,fuel_eq n' s]
  simp only [toward,Side.other_other]
  rw [hs.other,hx,hp,hs.came,hs.sent,List.map_append,List.map_append,List.sum_append,
    List.sum_append]
  omega

theorem quiet_fuel {n n' : Net} {e : Ev} (h : Step n e n') (hq : e.quiet=true) :
    (taken n e).length+fuel n'≤fuel n := by
  obtain ⟨g,out,hs,hm⟩ := h.shake
  generalize taken n e=came at hs hm
  generalize hside : e.side=s at hs hm
  cases hm with
  | calm hc => exact Calm.greet_bound hs rfl hc.session (by simp [hc.peerSession])
  | lost s => cases hq
  | greets s' now accepts g window =>
    obtain ⟨hk,_⟩ := greet_keeps (n.node s).link g
    refine Calm.greet_bound hs rfl hk ?_
    have hw := greet_weight (n.node s).link g (n.node s.other).link.session window
    simp only [List.map_cons,List.map_nil,List.sum_cons,List.sum_nil,List.length_cons,
      List.length_nil]
    by_cases ha : ((n.node s).link.greet g).2=true ∧ accepts 0=true
    · rw [if_pos ha,List.map_cons,List.map_nil,List.sum_cons,List.sum_nil]
      rw [if_pos ha.1] at hw
      omega
    · rw [if_neg ha,List.map_nil,List.sum_nil]
      omega
  | calls s | starts s => cases hq

/-- A run in which no timer fires and nobody restarts, with the HELLOs that each step took. -/
def Exchange (n : Net) (e : Ev×Nat) (n' : Net) : Prop :=
  Step n e.1 n' ∧ e.1.quiet=true ∧ e.2=(taken n e.1).length

theorem exchange_bound {n n' : Net} {es : List (Ev×Nat)} (h : Run.Reach Exchange n es n') :
    (es.map Prod.snd).sum+fuel n'≤fuel n := by
  induction h with
  | start => simp
  | next _ hs ih =>
    have hq := quiet_fuel hs.1 hs.2.1
    rw [← hs.2.2] at hq
    rw [List.map_cons,List.sum_cons]
    omega

theorem sum_weight (y x : UInt32) (c : List Hello) : c.length≤(c.map (weight y x)).sum := by
  induction c with
  | nil => exact Nat.le_refl _
  | cons h c ih =>
    have hw := weight_pos y x h
    rw [List.map_cons,List.sum_cons,List.length_cons]
    omega

theorem hellos_le_fuel (n : Net) : (hellos (n.chan .a)).length+(hellos (n.chan .b)).length≤fuel n := by
  have ha := sum_weight (n.node .b).link.session (n.node .a).link.session (hellos (n.chan .b))
  have hb := sum_weight (n.node .a).link.session (n.node .b).link.session (hellos (n.chan .a))
  simp only [fuel,toward,Side.other]
  omega

/-- A link that is DOWN will hear from its peer: its HELLO is on the way, or the peer's is, or the peer
is in MISMATCH for it. -/
def Awaits (ls lt : Link) (c d : List Hello) : Prop :=
  (∃h∈c,h.session=ls.session ∧ h.flags &&& helloUp=0) ∨
  (∃h∈d,h.session=lt.session) ∨
  lt.state=.mismatch ∧ lt.peerSession=ls.session

/-- What the end with the link `ls` has made known to the end with the link `lt`: `c` holds the
HELLOs on their way to it, `d` those on their way back. -/
structure Known (ls lt : Link) (c d : List Hello) : Prop where
  nonzero : ls.session≠0
  order : c.Pairwise fun h g => h.session=ls.session → g.session=ls.session
  heard : lt.peerSession=ls.session → ∀h∈c,h.session=ls.session
  told : (lt.peerSession≠0 ∨ ∃h∈c,h.session≠ls.session) →
    lt.peerSession=ls.session ∨ ∃h∈c,h.session=ls.session
  up : ls.state=.up → ls.peerSession≠0
  down : ls.state=.down → Awaits ls lt c d

/-- At rest both ends are UP in each other's sessions, unless one is in MISMATCH. -/
theorem Known.rest {ls lt : Link} (h : Known ls lt [] []) (h' : Known lt ls [] []) :
    ls.state=.up ∧ lt.state=.up ∧ lt.peerSession=ls.session ∧ ls.peerSession=lt.session ∨
      ls.state=.mismatch ∨ lt.state=.mismatch := by
  have hup {l m : Link} (hk : Known l m [] []) (hm : m.state≠.mismatch) : l.state≠.down :=
    fun hd => by
      rcases hk.down hd with ⟨g,hg,_⟩ | ⟨g,hg,_⟩ | hg
      · cases hg
      · cases hg
      · exact hm hg.1
  have hpeer {l m : Link} (hk : Known l m [] []) (hk' : Known m l [] []) (hm : m.state=.up) :
      m.peerSession=l.session := by
    rcases hk.told (.inl (hk'.up hm)) with hp | ⟨g,hg,_⟩
    · exact hp
    · cases hg
  cases hs : ls.state with
  | mismatch => exact .inr (.inl rfl)
  | down =>
    cases ht : lt.state with
    | mismatch => exact .inr (.inr rfl)
    | down | up => exact absurd hs (hup h (by rw [ht]; decide))
  | up =>
    cases ht : lt.state with
    | mismatch => exact .inr (.inr rfl)
    | down => exact absurd ht (hup h' (by rw [hs]; decide))
    | up => exact .inl ⟨rfl,rfl,hpeer h h' ht,hpeer h' h hs⟩

theorem Known.calm {ls ls' lt lt' : Link} {c d : List Hello} (h : Known ls lt c d)
    (hs : Calm ls ls') (ht : Calm lt lt') : Known ls' lt' c d := by
  constructor
  · rw [hs.session]; exact h.nonzero
  · rw [hs.session]; exact h.order
  · rw [hs.session,ht.peerSession]; exact h.heard
  · rw [hs.session,ht.peerSession]; exact h.told
  · rw [hs.state,hs.peerSession]; exact h.up
  · rw [Awaits,hs.state,hs.session,ht.session,ht.state,ht.peerSession]; exact h.down

theorem greet_cases (l : Link) (h : Hello) :
    l.greet h=(l,false) ∧ (h.session=0 ∨ h.session=l.peerSession ∧ l.state=.mismatch) ∨
    h.session≠0 ∧ (l.greet h).1.peerSession=h.session ∧
      ((l.greet h).2=true ∨ (l.greet h).1.state=.up ∧ h.flags &&& helloUp≠0) := by
  by_cases h0 : h.session=0
  · exact .inl ⟨by rw [Link.greet,if_pos h0],.inl h0⟩
  by_cases hn : h.session≠l.peerSession
  · refine .inr ⟨h0,?_⟩
    rw [Link.greet,if_neg h0,if_pos hn]
    by_cases hf : l.fits h=true
    · rw [if_pos hf]
      by_cases hs : h.peerSession=l.session
      · rw [if_pos hs]
        by_cases hu : h.flags &&& helloUp=0
        · exact ⟨rfl,.inl (beq_iff_eq.mpr hu)⟩
        · exact ⟨rfl,.inr ⟨rfl,hu⟩⟩
      · rw [if_neg hs]
        exact ⟨rfl,.inl rfl⟩
    · rw [if_neg hf]
      exact ⟨rfl,.inl rfl⟩
  · have he : h.session=l.peerSession := not_not.mp hn
    by_cases hm : l.state=.mismatch
    · exact .inl ⟨by rw [Link.greet,if_neg h0,if_neg hn,if_pos hm],.inr ⟨he,hm⟩⟩
    · refine .inr ⟨h0,?_⟩
      rw [Link.greet,if_neg h0,if_neg hn,if_neg hm]
      by_cases hs : h.peerSession=l.session
      · rw [if_pos hs]
        by_cases hu : h.flags &&& helloUp=0
        · exact ⟨he.symm,.inl (beq_iff_eq.mpr hu)⟩
        · exact ⟨he.symm,.inr ⟨rfl,hu⟩⟩
      · rw [if_neg hs]
        exact ⟨he.symm,.inl rfl⟩

variable {l lt : Link} {c d : List Hello} {h : Hello} {window : UInt8}

theorem own_order {x : UInt32} {out : List Hello}
    (hc : c.Pairwise fun h g => h.session=x → g.session=x) (ho : ∀g∈out,g.session=x) :
    (c++out).Pairwise fun h g => h.session=x → g.session=x := by
  refine List.pairwise_append.mpr ⟨hc,?_,fun _ _ b hb _ => ho b hb⟩
  exact List.Pairwise.imp_of_mem (fun {_ b} _ hb _ _ => ho b hb)
    (List.pairwise_of_forall (R := fun _ _ => True) fun _ _ => trivial)

theorem Known.says {g : Link} {d' out : List Hello} (hk : Known l lt c d)
    (hs : g.session=l.session) (ho : ∀x∈out,x.session=l.session)
    (hu : g.state=.up → g.peerSession≠0)
    (hd : g.state=.down → (∃x∈out,x.flags &&& helloUp=0) ∨ Awaits l lt c d') :
    Known g lt (c++out) d' := by
  constructor
  case nonzero => rw [hs]; exact hk.nonzero
  case order => rw [hs]; exact own_order hk.order ho
  case heard =>
    rw [hs]
    intro hp x hx
    rcases List.mem_append.mp hx with hx | hx
    · exact hk.heard hp x hx
    · exact ho x hx
  case told =>
    rw [hs]
    rintro (hp | ⟨x,hx,hn⟩)
    · exact (hk.told (.inl hp)).imp id fun ⟨x,hx,he⟩ => ⟨x,List.mem_append_left _ hx,he⟩
    · rcases List.mem_append.mp hx with hx | hx
      · exact (hk.told (.inr ⟨x,hx,hn⟩)).imp id fun ⟨x,hx,he⟩ =>
          ⟨x,List.mem_append_left _ hx,he⟩
      · exact absurd (ho x hx) hn
  case up => exact hu
  case down =>
    intro hg
    rw [Awaits,hs]
    rcases hd hg with ⟨x,hx,hf⟩ | hl
    · exact .inl ⟨x,List.mem_append_right _ hx,ho x hx,hf⟩
    · exact hl.imp (fun ⟨x,hx,he⟩ => ⟨x,List.mem_append_left _ hx,he⟩) id

/-- The answer to a HELLO, on a channel that takes it. -/
def answer (l : Link) (h : Hello) (window : UInt8) : List Hello :=
  if (l.greet h).2 then [helloOf (l.greet h).1 window] else []

theorem answer_session {x : Hello} (hx : x∈answer l h window) : x.session=l.session := by
  simp only [answer] at hx
  split at hx
  next => rw [List.mem_singleton.mp hx]; exact (greet_keeps l h).1
  next => cases hx

theorem Known.greets (window : UInt8) (hk : Known l lt c (h::d)) (hk' : Known lt l (h::d) c) :
    Known (l.greet h).1 lt (c++answer l h window) d := by
  refine hk.says (greet_keeps l h).1 (fun x => answer_session) (fun hu => ?_) (fun hd => ?_)
  · rcases greet_cases l h with ⟨hg,_⟩ | ⟨h0,hp,_⟩
    · rw [hg] at hu ⊢; exact hk.up hu
    · rw [hp]; exact h0
  · rcases greet_cases l h with ⟨hg,hi⟩ | ⟨_,_,ha | ha⟩
    · rw [hg] at hd
      refine .inr ((hk.down hd).imp id (Or.imp (fun ⟨x,hx,hs⟩ => ?_) id))
      rcases List.mem_cons.mp hx with rfl | hx
      · rcases hi with hi | hi
        · exact absurd (hs.symm.trans hi) hk'.nonzero
        · rw [hi.2] at hd; cases hd
      · exact ⟨x,hx,hs⟩
    · refine .inl ⟨helloOf (l.greet h).1 window,?_,?_⟩
      · rw [answer,if_pos ha]; exact List.mem_singleton_self _
      · exact (helloOf_up _ window).mpr (by rw [hd]; decide)
    · rw [ha.1] at hd; cases hd

theorem Known.greeted (window : UInt8) (hk : Known l lt c (h::d)) (hk' : Known lt l (h::d) c) :
    Known lt (l.greet h).1 d (c++answer l h window) := by
  have hks := (greet_keeps l h).1
  -- a HELLO of lt's session is taken over
  have htake (hs : h.session=lt.session) : (l.greet h).1.peerSession=lt.session := by
    rcases greet_cases l h with ⟨hg,hi⟩ | ⟨_,hp,_⟩
    · rw [hg]
      rcases hi with hi | hi
      · exact absurd (hs.symm.trans hi) hk'.nonzero
      · exact hi.1.symm.trans hs
    · exact hp.trans hs
  have hheard (hp : l.peerSession=lt.session) : h.session=lt.session :=
    hk'.heard hp h List.mem_cons_self
  constructor
  case nonzero => exact hk'.nonzero
  case order => exact (List.pairwise_cons.mp hk'.order).2
  case heard =>
    intro hp x hx
    have hs : h.session=lt.session := by
      rcases greet_cases l h with ⟨hg,_⟩ | ⟨_,hq,_⟩
      · rw [hg] at hp; exact hheard hp
      · exact hq.symm.trans hp
    exact (List.pairwise_cons.mp hk'.order).1 x hx hs
  case told =>
    intro _
    by_cases hs : h.session=lt.session
    · exact .inl (htake hs)
    · rcases hk'.told (.inr ⟨h,List.mem_cons_self,hs⟩) with hp | ⟨x,hx,he⟩
      · exact absurd (hheard hp) hs
      · rcases List.mem_cons.mp hx with rfl | hx
        · exact absurd he hs
        · exact .inr ⟨x,hx,he⟩
  case up => exact hk'.up
  case down =>
    intro hd
    rw [Awaits,hks]
    rcases hk'.down hd with ⟨x,hx,he,hf⟩ | ⟨x,hx,he⟩ | ⟨hm,hp⟩
    · rcases List.mem_cons.mp hx with rfl | hx
      · -- this one is answered, or the link is in MISMATCH for it
        rcases greet_cases l x with ⟨hg,hi⟩ | ⟨_,_,ha⟩
        · rcases hi with hi | hi
          · exact absurd (he.symm.trans hi) hk'.nonzero
          · rw [hg]; exact .inr (.inr ⟨hi.2,hi.1.symm.trans he⟩)
        · rcases ha with ha | ha
          · refine .inr (.inl ⟨helloOf (l.greet x).1 window,List.mem_append_right _ ?_,hks⟩)
            rw [answer,if_pos ha]
            exact List.mem_singleton_self _
          · exact absurd hf ha.2
      · exact .inl ⟨x,hx,he,hf⟩
    · exact .inr (.inl ⟨x,List.mem_append_left _ hx,he⟩)
    · have hs := hheard hp
      rcases greet_cases l h with ⟨hg,_⟩ | ⟨h0,hq,_⟩
      · rw [hg]; exact .inr (.inr ⟨hm,hp⟩)
      · have hg : l.greet h=(l,false) := by
          rw [Link.greet,if_neg h0,if_neg (not_not.mpr (hs.trans hp.symm)),if_pos hm]
        rw [hg]
        exact .inr (.inr ⟨hm,hp⟩)

theorem Known.calls {out : List Hello} (hk : Known l lt c d)
    (ho : out=[helloOf {l with state := .down} window]) :
    Known {l with state := .down} lt (c++out) d := by
  subst ho
  refine hk.says rfl (fun x hx => ?_) (by rintro ⟨⟩) fun _ => .inl ⟨_,List.mem_singleton_self _,?_⟩
  · rw [List.mem_singleton.mp hx]; rfl
  · exact (helloOf_up _ window).mpr (by rintro ⟨⟩)

theorem Known.called {out : List Hello} (hk : Known lt l d c) (hm : l.state≠.mismatch) :
    Known lt {l with state := .down} d (c++out) := by
  refine ⟨hk.nonzero,hk.order,hk.heard,hk.told,hk.up,fun hd => ?_⟩
  rcases hk.down hd with hx | ⟨x,hx,he⟩ | hx
  · exact .inl hx
  · exact .inr (.inl ⟨x,List.mem_append_left _ hx,he⟩)
  · exact absurd hx.1 hm

theorem Known.starts {cfg : Config} {session now : UInt32} {out : List Hello}
    (h0 : session≠0) (hc : ∀x∈c,x.session≠session) (hp : lt.peerSession≠session)
    (ho : out=[helloOf (.born cfg session now) window]) :
    Known (.born cfg session now) lt (c++out) d := by
  subst ho
  have hmem : helloOf (.born cfg session now) window∈c++[helloOf (.born cfg session now) window] :=
    List.mem_append_right _ (List.mem_singleton_self _)
  refine ⟨h0,?_,fun he => absurd he hp,fun _ => .inr ⟨_,hmem,rfl⟩,(by rintro ⟨⟩),
    fun _ => .inl ⟨_,hmem,rfl,(helloOf_up _ window).mpr (by rintro ⟨⟩)⟩⟩
  exact List.pairwise_append.mpr ⟨List.Pairwise.imp_of_mem
    (fun {a _} ha _ _ he => absurd he (hc a ha))
    (List.pairwise_of_forall (R := fun _ _ => True) fun _ _ => trivial),
    List.pairwise_singleton ..,fun a ha _ _ he => absurd he (hc a ha)⟩

theorem Known.started {cfg : Config} {session now : UInt32} {out : List Hello}
    (hk : Known lt l d c) (ho : out=[helloOf (.born cfg session now) window]) :
    Known lt (.born cfg session now) d (c++out) := by
  subst ho
  refine ⟨hk.nonzero,hk.order,fun he => absurd he.symm hk.nonzero,?_,hk.up,fun _ =>
    .inr (.inl ⟨_,List.mem_append_right _ (List.mem_singleton_self _),rfl⟩)⟩
  rintro (hp | ⟨x,hx,hn⟩)
  · exact absurd rfl hp
  · rcases hk.told (.inr ⟨x,hx,hn⟩) with he | hy
    · exact absurd (hk.heard he x hx) hn
    · exact .inr hy

/-- Every session in play was started, and every peer session taken over was recorded. -/
structure Origin (n : Net) : Prop where
  own : ∀s,(n.node s).link.session∈(n.node s).used
  nonzero : ∀s,(n.node s).link.session≠0
  sent : ∀s,∀h∈hellos (n.chan s),h.session∈(n.node s).used
  peer : ∀s,(n.node s).link.peerSession=0 ∨ (n.node s).link.peerSession∈(n.node s.other).used
  recorded : ∀s,(n.node s).link.peerSession=0 ∨
    ((n.node s).link.session,(n.node s).link.peerSession)∈(n.node s).recorded
  told : ∀s,∀h∈hellos (n.chan s),h.peerSession=0 ∨
    (h.session,h.peerSession)∈(n.node s).recorded

theorem Move.sessions {x : Node} {e : Ev} {came out : List Hello} {g : Link}
    (hm : Move x e came g out) :
    (g.session=x.link.session ∨ g.session≠0) ∧
    (g.peerSession=0 ∨ g.peerSession=x.link.peerSession ∨ ∃h∈came,g.peerSession=h.session) ∧
    ∀h∈out,h.session=g.session ∧ h.peerSession=g.peerSession := by
  cases hm with
  | calm hc => exact ⟨.inl hc.session,.inr (.inl hc.peerSession),fun _ hf => absurd hf List.not_mem_nil⟩
  | lost s => exact ⟨.inl rfl,.inr (.inl rfl),fun _ hf => absurd hf List.not_mem_nil⟩
  | greets s now accepts h window =>
    refine ⟨.inl (greet_keeps _ h).1,.inr ?_,fun y hy => ?_⟩
    · rcases greet_cases x.link h with ⟨hg,_⟩ | ⟨_,hp,_⟩
      · rw [hg]; exact .inl rfl
      · exact .inr ⟨h,List.mem_singleton_self _,hp⟩
    · split at hy
      next => rw [List.mem_singleton.mp hy]; exact ⟨rfl,rfl⟩
      next => cases hy
  | calls s now accepts window =>
    refine ⟨.inl rfl,.inr (.inl rfl),fun y hy => ?_⟩
    split at hy
    next => rw [List.mem_singleton.mp hy]; exact ⟨rfl,rfl⟩
    next => cases hy
  | starts s now accepts session free window h0 =>
    refine ⟨.inr h0,.inl rfl,fun y hy => ?_⟩
    split at hy
    next => rw [List.mem_singleton.mp hy]; exact ⟨rfl,rfl⟩
    next => cases hy

theorem Step.origin {n n' : Net} {e : Ev} (h : Step n e n') (ho : Origin n) : Origin n' := by
  obtain ⟨g,out,hs,hm⟩ := h.shake
  generalize taken n e=came at hs hm
  generalize e.side=s at hs hm
  obtain ⟨hsess,hpeer,hout⟩ := hm.sessions
  have hg : g.session∈(n'.node s).used := by
    rcases hs.own with hx | hx
    · rw [hx]; exact hs.used _ (ho.own s)
    · exact hx
  have hmem {x : Hello} (hx : x∈came ∨ x∈hellos (n'.chan s.other)) :
      x∈hellos (n.chan s.other) := by
    rw [hs.came]; exact List.mem_append.mpr hx
  have hrec : g.peerSession=0 ∨ (g.session,g.peerSession)∈(n'.node s).recorded := by
    rcases hs.records with hx | ⟨hx,hy⟩ | hx
    · exact .inl hx
    · rw [hx,hy]; exact (ho.recorded s).imp id (hs.keeps _)
    · exact .inr hx
  -- every fact about an end is one about s or about the other
  have both {p : Side → Prop} (h1 : p s) (h2 : p s.other) (t : Side) : p t := by
    rcases Side.eq_or s t with rfl | rfl
    · exact h1
    · exact h2
  constructor
  case own =>
    refine both ?_ ?_
    · rw [hs.link.session]; exact hg
    · rw [hs.other]; exact ho.own s.other
  case nonzero =>
    refine both ?_ ?_
    · rw [hs.link.session]
      rcases hsess with hx | hx
      · rw [hx]; exact ho.nonzero s
      · exact hx
    · rw [hs.other]; exact ho.nonzero s.other
  case sent =>
    refine both (fun x hx => ?_) (fun x hx => ?_)
    · rw [hs.sent] at hx
      rcases List.mem_append.mp hx with hx | hx
      · exact hs.used _ (ho.sent s x hx)
      · rw [(hout x hx).1]; exact hg
    · rw [hs.other]
      exact ho.sent s.other x (hmem (.inr hx))
  case peer =>
    refine both ?_ ?_
    · rw [hs.link.peerSession,hs.other]
      rcases hpeer with hx | hx | ⟨x,hx,he⟩
      · exact .inl hx
      · rw [hx]; exact ho.peer s
      · rw [he]; exact .inr (ho.sent s.other x (hmem (.inl hx)))
    · rw [hs.other,Side.other_other]
      have hp := ho.peer s.other
      rw [Side.other_other] at hp
      exact hp.imp id (hs.used _)
  case recorded =>
    refine both ?_ ?_
    · rw [hs.link.session,hs.link.peerSession]; exact hrec
    · rw [hs.other]; exact ho.recorded s.other
  case told =>
    refine both (fun x hx => ?_) (fun x hx => ?_)
    · rw [hs.sent] at hx
      rcases List.mem_append.mp hx with hx | hx
      · exact (ho.told s x hx).imp id (hs.keeps _)
      · rw [(hout x hx).1,(hout x hx).2]; exact hrec
    · rw [hs.other]; exact ho.told s.other x (hmem (.inr hx))

/-- The peer announced our major version, and room for a whole Ethernet frame. -/
def Link.fit (l : Link) : Prop := l.peerMajor=l.myMajor ∧ ¬l.peerMaxPayload < minPayload

theorem Calm.fit {l g : Link} (h : Calm l g) (hl : l.fit) : g.fit := by
  rw [Link.fit,Link.myMajor,h.peerMajor,h.peerMaxPayload,h.cfg]
  exact hl

/-- A link that is not in MISMATCH has a fitting peer, or none; and one that is UP has one. -/
def Link.sane (l : Link) : Prop :=
  (l.state≠.mismatch → l.peerSession=0 ∨ l.fit) ∧ (l.state=.up → l.peerSession≠0)

theorem greet_sane {l : Link} (hl : l.sane) (h : Hello) : (l.greet h).1.sane := by
  by_cases h0 : h.session=0
  · rw [Link.greet,if_pos h0]; exact hl
  by_cases hn : h.session≠l.peerSession
  · rw [Link.greet,if_neg h0,if_pos hn]
    by_cases hf : l.fits h=true
    · have hfit (k : LinkState) : ({l.adopt h with state := k} : Link).sane := by
        have hm : h.major=l.myMajor ∧ ¬h.maxPayload < minPayload := by simpa [Link.fits] using hf
        exact ⟨fun _ => .inr hm,fun _ => h0⟩
      rw [if_pos hf]
      split <;> exact hfit _
    · rw [if_neg hf]
      exact ⟨fun hm => absurd rfl hm,(by rintro ⟨⟩)⟩
  · rw [Link.greet,if_neg h0,if_neg hn]
    by_cases hm : l.state=.mismatch
    · rw [if_pos hm]; exact hl
    · have he : l.peerSession≠0 := by rw [← not_not.mp hn]; exact h0
      rw [if_neg hm]
      split
      · exact ⟨fun _ => hl.1 hm,fun _ => he⟩
      · exact ⟨fun _ => hl.1 hm,fun _ => he⟩

theorem greet_up {l : Link} {h : Hello} (hu : (l.greet h).1.state=.up) :
    (l.greet h).1.peerSession=h.session ∧ h.peerSession=l.session ∨
      l.state=.up ∧ (l.greet h).1.peerSession=l.peerSession := by
  by_cases h0 : h.session=0
  · rw [Link.greet,if_pos h0] at hu ⊢; exact .inr ⟨hu,rfl⟩
  by_cases hn : h.session≠l.peerSession
  · rw [Link.greet,if_neg h0,if_pos hn] at hu ⊢
    by_cases hf : l.fits h=true
    · rw [if_pos hf] at hu ⊢
      by_cases hs : h.peerSession=l.session
      · rw [if_pos hs]; exact .inl ⟨rfl,hs⟩
      · rw [if_neg hs] at hu; cases hu
    · rw [if_neg hf] at hu; cases hu
  · rw [Link.greet,if_neg h0,if_neg hn] at hu ⊢
    by_cases hm : l.state=.mismatch
    · rw [if_pos hm] at hu ⊢; exact .inr ⟨hu,rfl⟩
    · rw [if_neg hm] at hu ⊢
      by_cases hs : h.peerSession=l.session
      · rw [if_pos hs]; exact .inl ⟨(not_not.mp hn).symm,hs⟩
      · rw [if_neg hs] at hu ⊢; exact .inr ⟨hu,rfl⟩

theorem Move.sane {x : Node} {e : Ev} {came out : List Hello} {g : Link}
    (hm : Move x e came g out) (hl : x.link.sane) : g.sane := by
  cases hm with
  | calm hc =>
    refine ⟨fun hs => ?_,fun hs => ?_⟩
    · rw [hc.state] at hs
      rw [hc.peerSession]
      exact (hl.1 hs).imp id hc.fit
    · rw [hc.state] at hs
      rw [hc.peerSession]
      exact hl.2 hs
  | lost s => exact hl
  | greets s now accepts h => exact greet_sane hl h
  | calls s now accepts window hs => exact ⟨fun _ => hl.1 hs,(by rintro ⟨⟩)⟩
  | starts => exact ⟨fun _ => .inl rfl,(by rintro ⟨⟩)⟩

/-- An end is UP only when its peer has recorded its session. -/
structure Agreed (n : Net) : Prop where
  sane : ∀s,(n.node s).link.sane
  known : ∀s,(n.node s).link.state=.up →
    ((n.node s).link.peerSession,(n.node s).link.session)∈(n.node s.other).recorded

theorem Step.agreed {n n' : Net} {e : Ev} (h : Step n e n') (ho : Origin n) (ha : Agreed n) :
    Agreed n' := by
  obtain ⟨g,out,hs,hm⟩ := h.shake
  generalize taken n e=came at hs hm
  generalize e.side=s at hs hm
  have hg : g.sane := hm.sane (ha.sane s)
  have hknown : g.state=.up → (g.peerSession,g.session)∈(n.node s.other).recorded := fun hu => by
    cases hm with
    | calm hc => rw [hc.peerSession,hc.session]; exact ha.known s (hc.state ▸ hu)
    | lost s => exact ha.known _ hu
    | greets s' now accepts x window =>
      have hk := (greet_keeps (n.node s).link x).1
      rcases greet_up hu with ⟨hp,hx⟩ | ⟨hu,hp⟩
      · rw [hp,hk,← hx]
        have hmem : x∈hellos (n.chan s.other) := by rw [hs.came]; exact List.mem_cons_self
        exact (ho.told s.other x hmem).resolve_left fun h0 => ho.nonzero s (hx.symm.trans h0)
      · rw [hp,hk]; exact ha.known s hu
    | calls | starts => cases hu
  constructor
  · intro t
    rcases Side.eq_or s t with rfl | rfl
    · refine ⟨fun hx => ?_,fun hx => ?_⟩
      · rw [hs.link.state] at hx
        rw [hs.link.peerSession]
        exact (hg.1 hx).imp id hs.link.fit
      · rw [hs.link.state] at hx
        rw [hs.link.peerSession]
        exact hg.2 hx
    · rw [hs.other]; exact ha.sane _
  · intro t hu
    rcases Side.eq_or s t with rfl | rfl
    · rw [hs.link.state] at hu
      rw [hs.link.peerSession,hs.link.session,hs.other]
      exact hknown hu
    · rw [hs.other] at hu ⊢
      rw [Side.other_other]
      have hx := ha.known _ hu
      rw [Side.other_other] at hx
      exact hs.keeps _ hx

/-- A step on channels that lose nothing and refuse nothing. -/
def Ev.lossless : Ev → Prop
  | .send _ _ accepts _ _ => ∀i,accepts i=true
  | .sendState _ _ accepts _ _ => ∀i,accepts i=true
  | .tick _ _ accepts => ∀i,accepts i=true
  | .recv _ _ accepts => ∀i,accepts i=true
  | .lose _ => False
  | .consume _ => True
  | .restart _ _ accepts _ _ => ∀i,accepts i=true

def Lossless (n : Net) (e : Ev) (n' : Net) : Prop := Step n e n' ∧ e.lossless

/-- Each end has made itself known to the other, or will. -/
def Introduced (n : Net) : Prop :=
  ∀s,Known (n.node s).link (n.node s.other).link (hellos (n.chan s)) (hellos (n.chan s.other))

theorem Introduced.of_pair {n' : Net} {s : Side} {g lt : Link} {c d : List Hello}
    (hg : Calm g (n'.node s).link) (hlt : (n'.node s.other).link=lt)
    (hc : hellos (n'.chan s)=c) (hd : hellos (n'.chan s.other)=d)
    (h1 : Known g lt c d) (h2 : Known lt g d c) : Introduced n' := by
  intro t
  rcases Side.eq_or s t with rfl | rfl
  · rw [hlt,hc,hd]; exact h1.calm hg (.refl _)
  · rw [Side.other_other,hlt,hc,hd]; exact h2.calm (.refl _) hg

theorem Lossless.introduced {n n' : Net} {e : Ev} (h : Lossless n e n') (ho : Origin n)
    (hi : Introduced n) : Introduced n' := by
  obtain ⟨hst,hll⟩ := h
  obtain ⟨g,out,hs,hm⟩ := hst.shake
  generalize taken n e=came at hs hm
  generalize e.side=s at hs hm
  have h1 := hi s
  have h2 := hi s.other
  rw [Side.other_other] at h2
  rw [hs.came] at h1 h2
  refine Introduced.of_pair hs.link (congrArg Node.link hs.other) hs.sent rfl ?_ ?_
  · cases hm with
    | calm hc => rw [List.append_nil]; exact h1.calm hc (.refl _)
    | lost s => cases hll
    | greets s' now accepts x window =>
      rw [List.singleton_append] at h1 h2
      have hk := h1.greets window h2
      rw [answer] at hk
      simpa only [hll 0,and_true] using hk
    | calls s' now accepts window hmis =>
      exact h1.calls (if_pos (hll 0))
    | starts s' now accepts session free window h0 hn =>
      refine Known.starts h0 (fun x hx he => hn (he ▸ ho.sent s x hx)) (fun hp => ?_) (if_pos (hll 0))
      have hq := ho.peer s.other
      rw [hp,Side.other_other] at hq
      exact hq.elim h0 hn
  · cases hm with
    | calm hc => rw [List.append_nil]; exact h2.calm (.refl _) hc
    | lost s => cases hll
    | greets s' now accepts x window =>
      rw [List.singleton_append] at h1 h2
      have hk := h1.greeted window h2
      rw [answer] at hk
      simpa only [hll 0,and_true] using hk
    | calls s' now accepts window hmis => exact h2.called hmis
    | starts s' now accepts session free window h0 hn => exact h2.started (if_pos (hll 0))

theorem boot_end (x : Side → Boot) (s : Side) :
    Same (.born (x s).cfg (x s).session (x s).now) ((boot x).node s).link ∧
    ∃window,hellos ((boot x).chan s)=
      if (x s).accepts 0 then [helloOf (.born (x s).cfg (x s).session (x s).now) window] else [] := by
  have h := init_greets (x s).now (x s).free (x s).accepts (x s).cfg (x s).session
  obtain ⟨window,_,hs⟩ := h.sent
  rw [List.nil_append] at hs
  refine ⟨h.same,window,?_⟩
  simp only [boot,Boot.io]
  rw [hs]
  by_cases ha : (x s).accepts 0=true
  · rw [if_pos ha,if_pos ⟨rfl,ha⟩,List.map_cons,List.map_nil,hellos_cons (kind_hello _)]
    rfl
  · rw [if_neg ha,if_neg (fun h => ha h.2)]
    rfl

theorem boot_hello {x : Side → Boot} {s : Side} {h : Hello} (hm : h∈hellos ((boot x).chan s)) :
    h.session=(x s).session ∧ h.peerSession=0 := by
  obtain ⟨_,window,hs⟩ := boot_end x s
  rw [hs] at hm
  split at hm
  next => rw [List.mem_singleton.mp hm]; exact ⟨rfl,rfl⟩
  next => cases hm

theorem Started.origin {n : Net} (h : Started n) : Origin n := by
  obtain ⟨x,h0,rfl⟩ := h
  have hl (s : Side) := (boot_end x s).1
  refine ⟨fun s => ?_,fun s => ?_,fun s y hy => ?_,fun s => .inl (hl s).peerSession,
    fun s => .inl (hl s).peerSession,fun s y hy => .inl (boot_hello hy).2⟩
  · rw [(hl s).session]; exact List.mem_singleton_self _
  · rw [(hl s).session]; exact h0 s
  · rw [(boot_hello hy).1]; exact List.mem_singleton_self _

theorem Started.agreed {n : Net} (h : Started n) : Agreed n := by
  obtain ⟨x,h0,rfl⟩ := h
  have hl (s : Side) := (boot_end x s).1
  refine ⟨fun s => ⟨fun _ => .inl (hl s).peerSession,fun hu => ?_⟩,fun s hu => ?_⟩
  · rw [(hl s).state] at hu; cases hu
  · rw [(hl s).state] at hu; cases hu

theorem boot_introduced (x : Side → Boot) (h0 : ∀s,(x s).session≠0)
    (ha : ∀s,(x s).accepts 0=true) : Introduced (boot x) := by
  intro s
  obtain ⟨hl,w,hs⟩ := boot_end x s
  obtain ⟨hl',w',hs'⟩ := boot_end x s.other
  rw [if_pos (ha s)] at hs
  rw [if_pos (ha s.other)] at hs'
  rw [hs,hs']
  have hk : Known (.born (x s).cfg (x s).session (x s).now)
      (.born (x s.other).cfg (x s.other).session (x s.other).now)
      ([]++[helloOf (.born (x s).cfg (x s).session (x s).now) w])
      [helloOf (.born (x s.other).cfg (x s.other).session (x s.other).now) w'] :=
    Known.starts (h0 s) (fun _ hf => absurd hf List.not_mem_nil) (fun he => h0 s he.symm) rfl
  exact hk.calm hl.calm hl'.calm

theorem reach_agreed {n₀ n : Net} {es : List Ev} (h0 : Started n₀) (h : Run.Reach Step n₀ es n) :
    Origin n ∧ Agreed n :=
  h.invariant (fun _ n => Origin n ∧ Agreed n) ⟨h0.origin,h0.agreed⟩ fun _ _ _ _ hi hs =>
    ⟨Step.origin hs hi.1,Step.agreed hs hi.1 hi.2⟩

theorem reach_introduced {x : Side → Boot} {n : Net} {es : List Ev} (h0 : ∀s,(x s).session≠0)
    (ha : ∀s,(x s).accepts 0=true) (h : Run.Reach Lossless (boot x) es n) : Introduced n := by
  have hi : Origin n ∧ Introduced n :=
    h.invariant (fun _ n => Origin n ∧ Introduced n)
      ⟨Started.origin ⟨x,h0,rfl⟩,boot_introduced x h0 ha⟩ fun _ _ _ _ hi hs =>
      ⟨Step.origin hs.1 hi.1,Lossless.introduced hs hi.1 hi.2⟩
  exact hi.2

/-- From any two links and any frames on their way, a run without timers and restarts takes and
leaves at most `fuel` HELLOs. Where no HELLO is on its way, after any run from two starts over
channels that lose nothing, both ends are UP in each other's sessions, or one is in MISMATCH. And in
every run from two starts, an end is UP only in a session of its peer's in which the peer recorded
the session the end has, and announced its major version and room for an Ethernet frame. -/
theorem handshake_settles :
    (∀n n' es,Run.Reach Exchange n es n' →
      (es.map Prod.snd).sum+((hellos (n'.chan .a)).length+(hellos (n'.chan .b)).length)≤fuel n) ∧
    (∀x n es,(∀s,(x s).session≠0) → (∀s,(x s).accepts 0=true) →
      Run.Reach Lossless (boot x) es n → (∀s,hellos (n.chan s)=[]) →
      (∀s,(n.node s).link.state=.up ∧
        (n.node s).link.peerSession=(n.node s.other).link.session) ∨
      ∃s,(n.node s).link.state=.mismatch) ∧
    ∀n₀ n es,Started n₀ → Run.Reach Step n₀ es n → ∀s,(n.node s).link.state=.up →
      ((n.node s).link.peerSession,(n.node s).link.session)∈(n.node s.other).recorded ∧
      (n.node s).link.peerMajor=(n.node s).link.myMajor ∧
      minPayload≤(n.node s).link.peerMaxPayload := by
  refine ⟨fun n n' es h => ?_,fun x n es h0 ha h hq => ?_,fun n₀ n es h0 h s hu => ?_⟩
  · have h1 := exchange_bound h
    have h2 := hellos_le_fuel n'
    omega
  · have hi := reach_introduced h0 ha h
    have h1 := hi .a
    have h2 := hi .b
    rw [hq .a,hq] at h1
    rw [hq .b,hq] at h2
    rcases h1.rest h2 with ⟨hua,hub,hp,hp'⟩ | hm | hm
    · refine .inl fun s => ?_
      cases s with
      | a => exact ⟨hua,hp'⟩
      | b => exact ⟨hub,hp⟩
    · exact .inr ⟨.a,hm⟩
    · exact .inr ⟨.b,hm⟩
  · obtain ⟨_,ha⟩ := reach_agreed h0 h
    have hs := ha.sane s
    have hf : (n.node s).link.fit := (hs.1 (by rw [hu]; decide)).resolve_left (hs.2 hu)
    exact ⟨ha.known s hu,hf.1,UInt16.not_lt.mp hf.2⟩

/-- Two ends of this build with room for four frames each. -/
def pair (s : Side) : Boot where
  cfg := ⟨1,0,0,4096,4,fun _ => 0⟩
  now := 0
  accepts := fun _ => true
  session := match s with | .a => 11 | .b => 22
  free := 4

/-- The frames of a handshake arrive. -/
def meet : List Ev := [.a,.b,.b,.a,.a,.b].map fun s => .recv s 0 fun _ => true

theorem handshake_settles_pair : ∃n es,Run.Reach Lossless (boot pair) es n ∧
    ∀s,(n.node s).link.state=.up ∧
      (n.node s).link.peerSession=(n.node s.other).link.session := by
  have hex : (Run.exec (fun e n => exec n e) meet (boot pair)).any fun n =>
      [Side.a,.b].all fun s =>
        (n.chan s).isEmpty && (n.node s).link.state != .mismatch := by decide +kernel
  cases hn : Run.exec (fun e n => exec n e) meet (boot pair) with
  | none => rw [hn] at hex; cases hex
  | some n =>
    rw [hn] at hex
    simp only [Option.any_some,List.all_eq_true,Bool.and_eq_true,List.isEmpty_iff,
      bne_iff_ne] at hex
    have hr : Run.Reach Step (boot pair) _ n :=
      Run.Reach.exec_events (fun _ _ _ h => h) meet .start hn
    have hl : Run.Reach Lossless (boot pair) _ n := hr.restrict fun e he => by
      simp only [meet,List.append_nil,List.mem_reverse,List.mem_map] at he
      obtain ⟨s,_,rfl⟩ := he
      exact fun _ => rfl
    have hs (s : Side) : s∈[Side.a,.b] := by cases s <;> simp
    refine ⟨n,_,hl,?_⟩
    rcases handshake_settles.2.1 pair n _ (fun s => by cases s <;> decide) (fun _ => rfl) hl
      (fun s => by rw [(hex s (hs s)).1]; rfl) with h | ⟨s,h⟩
    · exact h
    · exact absurd h (hex s (hs s)).2

/-- After the handshake the end a hears nothing for four seconds, and its HELLO is lost. -/
def parted : List Ev := meet++[.tick .a 4000 fun _ => true,.lose .b]

/-- Nothing is on its way, and one end is UP while the other is DOWN. -/
theorem handshake_settles_parted : ∃n₀ es n,Started n₀ ∧ Run.Reach Step n₀ es n ∧
    (∃n' es',Run.Reach Exchange n es' n' ∧ (∀s,hellos (n'.chan s)=[]) ∧
      ¬((∀s,(n'.node s).link.state=.up ∧
          (n'.node s).link.peerSession=(n'.node s.other).link.session) ∨
        ∃s,(n'.node s).link.state=.mismatch ∨
          (n'.node s).link.peerSession≠(n'.node s.other).link.session)) := by
  have hex : (Run.exec (fun e n => exec n e) parted (boot pair)).any fun n =>
      (n.node .a).link.state==.down && (n.node .b).link.state==.up && [Side.a,.b].all fun s =>
        (n.chan s).isEmpty &&
        (n.node s).link.peerSession==(n.node s.other).link.session := by decide +kernel
  cases hn : Run.exec (fun e n => exec n e) parted (boot pair) with
  | none => rw [hn] at hex; cases hex
  | some n =>
    rw [hn] at hex
    simp only [Option.any_some,List.all_eq_true,Bool.and_eq_true,List.isEmpty_iff,
      beq_iff_eq] at hex
    obtain ⟨⟨ha,hb⟩,hq⟩ := hex
    have hr : Run.Reach Step (boot pair) _ n :=
      Run.Reach.exec_events (fun _ _ _ h => h) parted .start hn
    have hs (s : Side) : s∈[Side.a,.b] := by cases s <;> simp
    refine ⟨_,_,n,⟨pair,fun s => by cases s <;> decide,rfl⟩,hr,n,[],.start,
      fun s => by rw [(hq s (hs s)).1]; rfl,?_⟩
    rintro (h | ⟨s,h | h⟩)
    · have := (h .a).1
      rw [ha] at this
      cases this
    · cases s with
      | a => rw [ha] at h; cases h
      | b => rw [hb] at h; cases h
    · exact h (hq s (hs s)).2

end LugalOS.Llp
