import LugalOS.P9.Protect

namespace LugalOS.P9

open CString Run

/-- The states before a session is active. -/
def P9Link.Early (l : P9Link) : Prop :=
  l.protState=.none ∨ l.protState=.offered ∨ l.protState=.armed

section
variable {l : P9Link} {pr : P9Prot}

theorem protState_some (h : l.prot=some pr) : l.protState=pr.state := by
  rw [P9Link.protState,h]

theorem sessionAuthenticated_of_ne (h : l.protState≠.offered) (k : Digest) :
    p9LinkSessionAuthenticated k l=l := by
  unfold p9LinkSessionAuthenticated P9Link.protState at *
  cases hp : l.prot with
  | none => rfl
  | some pr => rw [hp] at h; exact if_pos h

theorem foldl_authenticated_of_ne (h : l.protState≠.offered) (keys : List Digest) :
    keys.foldl (fun l k => p9LinkSessionAuthenticated k l) l=l := by
  induction keys with
  | nil => rfl
  | cons k keys ih => rw [List.foldl_cons,sessionAuthenticated_of_ne h k,ih]

theorem hooked_of_active (h : p9LinkSessionActive l=true) (slot : Bool) (frame : Option P9Msg)
    (keys : List Digest) : l.hooked slot frame keys=l := by
  have hn : asksSession l frame=false := by
    cases frame with
    | none => rfl
    | some req => simp [asksSession,h]
  have ho : l.protState≠.offered := by
    intro ho
    rw [p9LinkSessionActive,ho] at h
    exact absurd h (by decide)
  rw [P9Link.hooked,hn]
  exact foldl_authenticated_of_ne ho keys

theorem sessionAuthenticated_early (h : l.Early) (k : Digest) :
    (p9LinkSessionAuthenticated k l).Early := by
  by_cases ho : l.protState=.offered
  · unfold p9LinkSessionAuthenticated
    cases hp : l.prot with
    | none => rw [P9Link.protState,hp] at ho; cases ho
    | some pr =>
      rw [protState_some hp] at ho
      dsimp only
      rw [if_neg (not_not.mpr ho)]
      exact .inr (.inr rfl)
  · rw [sessionAuthenticated_of_ne ho]
    exact h

theorem hooked_early (h : l.Early) (slot : Bool) (frame : Option P9Msg) (keys : List Digest) :
    (l.hooked slot frame keys).Early := by
  have hfold : ∀(keys : List Digest) (l : P9Link),l.Early →
      (keys.foldl (fun l k => p9LinkSessionAuthenticated k l) l).Early := by
    intro keys
    induction keys with
    | nil => exact fun l h => h
    | cons k keys ih => exact fun l h => ih _ (sessionAuthenticated_early h k)
  refine hfold keys _ ?_
  by_cases ha : asksSession l frame=true
  · rw [if_pos ha]
    unfold p9LinkSessionOffered
    split_ifs
    · exact h
    · exact h
    · exact .inr (.inl rfl)
  · rw [if_neg ha]
    exact h

/-- The reply on a link that is not active is plain; the session is active after it only if it was
armed, and then both counters are zero. -/
theorem p9RouteReply_early (x : P9Wire) (e : PumpEnv) (l : P9Link) (out : Bytes) :
    let r := p9RouteReply x e false l out
    r.2.1=out ∧ (r.1=l ∨
      l.protState=.armed ∧ ∃key,r.1={l with prot := some {key := key, state := .active}}) := by
  unfold p9RouteReply
  cases hp : l.prot with
  | none => cases e.sendOk <;> simp [hp]
  | some pr =>
    cases e.sendOk with
    | false => simp
    | true =>
      by_cases ha : pr.state=.armed
      · simp [hp,ha,protState_some]
      · simp [hp,ha]

theorem p9RouteReply_active (x : P9Wire) (e : PumpEnv) (hp : l.prot=some pr)
    (ha : pr.state=.active) (out : Bytes) :
    let r := p9RouteReply x e true l out
    r.2.1=out++p9ProtectTag x.sha256 pr.key p9DirS2c pr.txSeq out ∧
      r.1={l with prot := some {pr with txSeq := pr.txSeq+1}} := by
  unfold p9RouteReply
  cases e.sendOk <;> simp [hp,ha]

end

def isRequest (frame : Bytes) : Bool := frame.getD 4 0 &&& 1=0

theorem untag_append (body tag : Bytes) (h : tag.length=p9TagLen.toNat) :
    untag (body++tag)=(body,tag) := by
  rw [untag,List.length_append,h,Nat.add_sub_cancel]
  exact Prod.ext List.take_left List.drop_left

/-- The frame under a tag that verifies, on an active session. -/
def accepted (x : P9Wire) (l : P9Link) (rx : Received) : Option Bytes :=
  match rx,l.prot with
  | .frame buf,some pr =>
    if pr.state=.active ∧ 7+p9TagLen.toNat≤buf.length ∧
        p9ProtectVerify x.sha256 pr.key p9DirC2s pr.rxSeq (untag buf).1 (untag buf).2=true then
      some (untag buf).1
    else none
  | _,_ => none

section
variable (x : P9Wire) (e : PumpEnv) (conn : Nat) {l : P9Link} (s : Server) {pr : P9Prot}

theorem p9RouteFrame_active (hp : l.prot=some pr) (ha : pr.state=.active) {buf : Bytes}
    (hb : 7≤buf.length) :
    let r := p9RouteFrame x e conn l s buf
    r.handed=(if isRequest buf then some buf else none) ∧
    (r.sent=none ∧ r.link=l ∨
      ∃out,r.sent=some (out++p9ProtectTag x.sha256 pr.key p9DirS2c pr.txSeq out) ∧
        r.link={l with prot := some {pr with txSeq := pr.txSeq+1}}) := by
  have hs : l.protState=.active := (protState_some hp).trans ha
  have hact : p9LinkSessionActive l=true := by simp [p9LinkSessionActive,hs]
  unfold p9RouteFrame
  dsimp only
  rw [if_neg (by omega)]
  by_cases ht : buf.getD 4 0 &&& 1=0
  · have hr : isRequest buf=true := by simp only [isRequest,ht,decide_true]
    rw [if_neg (not_not.mpr ht),if_pos hr,hooked_of_active hact,hs]
    split
    · exact ⟨rfl,.inl ⟨rfl,rfl⟩⟩
    · next out _ =>
      split
      · exact ⟨rfl,.inl ⟨rfl,rfl⟩⟩
      · have hreply := p9RouteReply_active x e hp ha out
        exact ⟨rfl,.inr ⟨out,congrArg some hreply.1,hreply.2⟩⟩
  · have hr : ¬isRequest buf=true := by simp only [isRequest,ht,decide_false]; decide
    rw [if_pos ht,if_neg hr]
    split
    · exact ⟨rfl,.inl ⟨rfl,rfl⟩⟩
    · split
      · exact ⟨rfl,.inl ⟨rfl,rfl⟩⟩
      · exact ⟨rfl,.inl ⟨rfl,rfl⟩⟩

theorem p9RouteFrame_early (h : l.Early) (buf : Bytes) :
    let r := p9RouteFrame x e conn l s buf
    r.link.Early ∨ ∃key,r.link.prot=some {key := key, state := .active} := by
  have hs : l.protState≠.active := by rcases h with h | h | h <;> rw [h] <;> decide
  unfold p9RouteFrame
  dsimp only
  split_ifs with h7 ht hw hm
  · exact .inl h
  · exact .inl h
  · exact .inl h
  · exact .inl h
  · have hh := hooked_early h e.protSlot (x.deserialize buf) (acceptedKeys s
      (processRequest (e.seen l) (l.reqCtx conn e.world.maxMsize.toNat) s (x.deserialize buf)).2)
    generalize l.hooked e.protSlot _ _=l' at hh ⊢
    split
    · exact .inl hh
    · next out _ =>
      split
      · exact .inl hh
      · have hr := (p9RouteReply_early x e l' out).2
        simp only [hs,decide_false]
        rcases hr with hr | ⟨_,key,hr⟩
        · rw [hr]
          exact .inl hh
        · rw [hr]
          exact .inr ⟨key,rfl⟩

theorem accepted_frame (hp : l.prot=some pr) (buf : Bytes) : accepted x l (.frame buf)=
    if pr.state=.active ∧ 7+p9TagLen.toNat≤buf.length ∧
        p9ProtectVerify x.sha256 pr.key p9DirC2s pr.rxSeq (untag buf).1 (untag buf).2=true then
      some (untag buf).1
    else none := by
  unfold accepted
  rw [hp]

theorem accepted_of_none (hp : l.prot=none) (rx : Received) : accepted x l rx=none := by
  unfold accepted
  rw [hp]
  cases rx <;> rfl

theorem p9LinkPump_active (hp : l.prot=some pr) (ha : pr.state=.active) (rx : Received) :
    let r := p9LinkPump x e conn l s rx
    (r.link=l ∧ r.server=s ∧ r.handed=none ∧ r.sent=none ∧ accepted x l rx=none ∧
      ∀buf,rx=.frame buf → buf.length<7) ∨
    (∃buf,rx=.frame buf ∧ 7≤buf.length ∧ accepted x l rx=none ∧
      r={link := l.ended pr, server := s, ret := -1}) ∨
    ∃body,rx=.frame (body++p9ProtectTag x.sha256 pr.key p9DirC2s pr.rxSeq body) ∧ 7≤body.length ∧
      accepted x l rx=some body ∧
      r=p9RouteFrame x e conn {l with prot := some {pr with rxSeq := pr.rxSeq+1}} s body := by
  have hs : l.protState=.active := (protState_some hp).trans ha
  have hd : l.protState≠.dead := by rw [hs]; decide
  unfold p9LinkPump
  dsimp only
  rw [if_neg hd]
  cases rx with
  | idle ready | failed => exact .inl ⟨rfl,rfl,rfl,rfl,rfl,fun _ h => by cases h⟩
  | frame buf =>
    dsimp only
    by_cases h7 : buf.length<7
    · have hacc : accepted x l (.frame buf)=none := by
        rw [accepted_frame x hp]
        exact if_neg fun h => by omega
      rw [if_pos h7,hacc]
      refine .inl ⟨rfl,rfl,rfl,rfl,rfl,?_⟩
      rintro _ ⟨⟩
      exact h7
    · rw [if_neg h7,hp]
      dsimp only
      rw [if_neg (not_not.mpr ha)]
      by_cases hv : 7+p9TagLen.toNat≤buf.length ∧
          p9ProtectVerify x.sha256 pr.key p9DirC2s pr.rxSeq (untag buf).1 (untag buf).2=true
      · have hacc : accepted x l (.frame buf)=some (untag buf).1 := by
          rw [accepted_frame x hp]
          exact if_pos ⟨ha,hv⟩
        have hlen : (untag buf).2.length=p9TagLen.toNat := by
          rw [untag,List.length_drop]
          omega
        have hbody : 7≤(untag buf).1.length := by
          rw [untag,List.length_take]
          omega
        have hbuf : (untag buf).1++(untag buf).2=buf := List.take_append_drop _ _
        have htag := (p9ProtectVerify_iff hlen).mp hv.2
        have hneg : ¬(buf.length<7+p9TagLen.toNat ∨
            (!p9ProtectVerify x.sha256 pr.key p9DirC2s pr.rxSeq (untag buf).1 (untag buf).2)=true) := by
          rw [hv.2]
          rintro (h | h)
          · omega
          · cases h
        rw [if_neg hneg,hacc]
        refine .inr (.inr ⟨(untag buf).1,?_,hbody,rfl,rfl⟩)
        rw [←htag,hbuf]
      · have hacc : accepted x l (.frame buf)=none := by
          rw [accepted_frame x hp]
          exact if_neg fun h => hv h.2
        have hpos : buf.length<7+p9TagLen.toNat ∨
            (!p9ProtectVerify x.sha256 pr.key p9DirC2s pr.rxSeq (untag buf).1 (untag buf).2)=true := by
          by_cases h : 7+p9TagLen.toNat≤buf.length
          · refine .inr ?_
            rw [Bool.not_eq_true']
            exact Bool.eq_false_iff.mpr fun hver => hv ⟨h,hver⟩
          · exact .inl (by omega)
        rw [if_pos hpos,hacc]
        exact .inr (.inl ⟨buf,rfl,by omega,rfl,rfl⟩)

theorem p9LinkPump_early (h : l.Early) (rx : Received) :
    accepted x l rx=none ∧ (let r := p9LinkPump x e conn l s rx
    r.link.Early ∨ ∃key,r.link.prot=some {key := key, state := .active}) := by
  have hs : l.protState≠.active ∧ l.protState≠.dead := by
    rcases h with h | h | h <;> rw [h] <;> decide
  unfold p9LinkPump
  dsimp only
  rw [if_neg hs.2]
  cases rx with
  | idle ready | failed => exact ⟨rfl,.inl h⟩
  | frame buf =>
    cases hp : l.prot with
    | none =>
      refine ⟨?_,?_⟩
      · exact accepted_of_none x hp _
      dsimp only
      split_ifs
      · exact .inl h
      · exact p9RouteFrame_early x e conn s h buf
    | some pr =>
      have ha : pr.state≠.active := by rw [←protState_some hp]; exact hs.1
      refine ⟨?_,?_⟩
      · rw [accepted_frame x hp]
        exact if_neg fun hh => ha hh.1
      · dsimp only
        rw [if_pos ha]
        split_ifs
        · exact .inl h
        · exact p9RouteFrame_early x e conn s h buf

theorem p9LinkPump_dead (h : l.protState=.dead) (rx : Received) :
    p9LinkPump x e conn l s rx={link := l, server := s, ret := -1} := if_pos h

end

/-- A link, the server behind it, and what its two key holders did: the frames the client tagged in
order, everything tagged under the session key (direction, number, frame), the frames the link
accepted and the ones it handed to the server since the session was active. -/
structure Session where
  link : P9Link
  server : Server
  requests : List Bytes := []
  tagged : List (UInt8×UInt32×Bytes) := []
  taken : List Bytes := []
  handed : List Bytes := []

inductive SessionEvent where
  /-- The key holder tags its next frame. -/
  | tag (frame : Bytes)
  /-- The link is pumped; the bytes received are anyone's. -/
  | pump (e : PumpEnv) (rx : Received)
  /-- Other connections used the server. -/
  | other (s : Server)

/-- Nobody without the key makes a tag: if the frame on the link carries a valid tag for some
number, that tag was made for this direction, number and frame. -/
def Unforged (x : P9Wire) (t : Session) (buf : Bytes) : Prop :=
  ∀pr seq,t.link.prot=some pr → pr.state=.active →
    p9ProtectVerify x.sha256 pr.key p9DirC2s seq (untag buf).1 (untag buf).2=true →
    (p9DirC2s,seq,(untag buf).1)∈t.tagged

def P9Link.txSeq (l : P9Link) : UInt32 :=
  match l.prot with
  | none => 0
  | some pr => pr.txSeq

def Session.tag (t : Session) (frame : Bytes) : Session :=
  {t with
    requests := t.requests++[frame],
    tagged := (p9DirC2s,t.requests.length.toUInt32,frame)::t.tagged}

def Session.pump (x : P9Wire) (conn : Nat) (t : Session) (e : PumpEnv) (rx : Received) : Session :=
  let r := p9LinkPump x e conn t.link t.server rx
  let new := if t.link.protState=.active then r.handed.toList else []
  let made := if t.link.protState=.active then r.sent.toList else []
  {t with
    link := r.link, server := r.server,
    tagged := made.map (fun out => (p9DirS2c,t.link.txSeq,(untag out).1))++t.tagged,
    taken := t.taken++(accepted x t.link rx).toList,
    handed := t.handed++new}

inductive SessionStep (x : P9Wire) (conn : Nat) : Session → SessionEvent → Session → Prop
  | tag (t : Session) (frame : Bytes) : 7≤frame.length → SessionStep x conn t (.tag frame) (t.tag frame)
  | pump (t : Session) (e : PumpEnv) (rx : Received) : (∀buf,rx=.frame buf → Unforged x t buf) →
      SessionStep x conn t (.pump e rx) (t.pump x conn e rx)
  | other (t : Session) (s : Server) : SessionStep x conn t (.other s) {t with server := s}

/-- What the key holder's next frame looks like on the wire. -/
def Session.next (x : P9Wire) (t : Session) (pr : P9Prot) : Option Bytes :=
  (t.requests[t.taken.length]?).map fun b =>
    b++p9ProtectTag x.sha256 pr.key p9DirC2s t.taken.length.toUInt32 b

/-- The accepted frames are the key holder's, in order, and the counter counts them. -/
structure Protected (t : Session) : Prop where
  taken : t.taken<+:t.requests
  handed : t.handed=t.taken.filter isRequest
  frames : ∀b∈t.requests,7≤b.length
  tagged : ∀seq b,(p9DirC2s,seq,b)∈t.tagged → ∃i : Nat,t.requests[i]?=some b ∧ i.toUInt32=seq
  early : t.link.Early → t.taken=[]
  active : ∀pr,t.link.prot=some pr → pr.state=.active → pr.rxSeq=t.taken.length.toUInt32
  dead : ∀pr,t.link.prot=some pr → pr.state=.dead → pr.key=zeroDigest

section
variable {x : P9Wire} {conn : Nat} {t : Session}

theorem Protected.of_tag (h : Protected t) {frame : Bytes} (h7 : 7≤frame.length) :
    Protected (t.tag frame) where
  taken := h.taken.trans (List.prefix_append _ _)
  handed := h.handed
  frames := by
    intro b hb
    rcases List.mem_append.mp hb with hb | hb
    · exact h.frames b hb
    · rw [List.mem_singleton.mp hb]
      exact h7
  tagged := by
    intro seq b hm
    rcases List.mem_cons.mp hm with he | hm
    · cases he
      exact ⟨t.requests.length,List.getElem?_concat_length,rfl⟩
    · obtain ⟨i,hi,hs⟩ := h.tagged seq b hm
      refine ⟨i,?_,hs⟩
      rw [Session.tag,List.getElem?_append_left (List.getElem?_eq_some_iff.mp hi).1]
      exact hi
  early := h.early
  active := h.active
  dead := h.dead

theorem Protected.next (h : Protected t) (hfew : t.requests.length<2^32) {pr : P9Prot}
    (hp : t.link.prot=some pr) (ha : pr.state=.active) {body : Bytes}
    (hu : Unforged x t (body++p9ProtectTag x.sha256 pr.key p9DirC2s pr.rxSeq body)) :
    t.requests[t.taken.length]?=some body := by
  have hl := p9ProtectTag_length x.sha256 pr.key p9DirC2s pr.rxSeq body
  have hbuf := untag_append body _ hl
  have hm := hu pr pr.rxSeq hp ha (by rw [hbuf]; exact (p9ProtectVerify_iff hl).mpr rfl)
  rw [hbuf] at hm
  obtain ⟨i,hi,hs⟩ := h.tagged _ _ hm
  have hlt := (List.getElem?_eq_some_iff.mp hi).1
  have hle := h.taken.length_le
  have heq : i=t.taken.length := by
    have hmod := congrArg UInt32.toNat (hs.trans (h.active pr hp ha))
    simp only [Nat.toUInt32,UInt32.toNat_ofNat'] at hmod
    omega
  rw [←heq]
  exact hi

theorem mem_pump_tagged {e : PumpEnv} {rx : Received} {seq : UInt32} {b : Bytes}
    (h : (p9DirC2s,seq,b)∈(t.pump x conn e rx).tagged) : (p9DirC2s,seq,b)∈t.tagged := by
  rcases List.mem_append.mp h with h | h
  · obtain ⟨out,_,he⟩ := List.mem_map.mp h
    exact absurd (congrArg Prod.fst he) (by dsimp only; decide)
  · exact h

theorem Protected.of_same (h : Protected t) {e : PumpEnv} {rx : Received}
    (hacc : accepted x t.link rx=none)
    (hl : (p9LinkPump x e conn t.link t.server rx).link=t.link)
    (hh : (p9LinkPump x e conn t.link t.server rx).handed=none) :
    Protected (t.pump x conn e rx) := by
  refine ⟨?_,?_,h.frames,fun seq b hm => h.tagged seq b (mem_pump_tagged hm),?_,?_,?_⟩ <;>
    simp only [Session.pump,hl,hh,hacc,Option.toList_none,List.append_nil,ite_self]
  · exact h.taken
  · exact h.handed
  · exact h.early
  · exact h.active
  · exact h.dead

theorem accepted_of_dead {l : P9Link} (hd : l.protState=.dead) (rx : Received) :
    accepted x l rx=none := by
  cases hp : l.prot with
  | none => exact accepted_of_none x hp rx
  | some pr =>
    cases rx with
    | idle _ | failed => rfl
    | frame buf =>
      rw [accepted_frame x hp]
      refine if_neg fun ha => ?_
      rw [protState_some hp,ha.1] at hd
      cases hd

theorem Protected.of_pump_early (h : Protected t) (he : t.link.Early) (e : PumpEnv)
    (rx : Received) : Protected (t.pump x conn e rx) := by
  have ha : t.link.protState≠.active := by rcases he with he | he | he <;> rw [he] <;> decide
  obtain ⟨hacc,hr⟩ := p9LinkPump_early x e conn t.server he rx
  have htk := h.early he
  have hlate {pr : P9Prot} (hp : (p9LinkPump x e conn t.link t.server rx).link.prot=some pr)
      (hx : pr.state=.active ∨ pr.state=.dead) : pr.state=.active ∧ pr.rxSeq=0 := by
    rcases hr with hr | ⟨key,hk⟩
    · rw [P9Link.Early,protState_some hp] at hr
      rcases hx with hx | hx <;> rw [hx] at hr <;> rcases hr with hr | hr | hr <;> cases hr
    · rw [hk] at hp
      cases hp
      exact ⟨rfl,rfl⟩
  refine ⟨?_,?_,h.frames,fun seq b hm => h.tagged seq b (mem_pump_tagged hm),?_,?_,?_⟩ <;>
    simp only [Session.pump,hacc,if_neg ha,Option.toList_none,List.append_nil]
  · exact h.taken
  · exact h.handed
  · exact fun _ => htk
  · intro pr hp hx
    rw [htk]
    exact (hlate hp (.inl hx)).2
  · intro pr hp hx
    have := (hlate hp (.inr hx)).1
    rw [hx] at this
    cases this

theorem Session.pump_accepted (conn : Nat) {pr : P9Prot} (hp : t.link.prot=some pr) (hpa : pr.state=.active)
    (e : PumpEnv) (body : Bytes) (hb : 7≤body.length) :
    let t' := t.pump x conn e (.frame (body++p9ProtectTag x.sha256 pr.key p9DirC2s pr.rxSeq body))
    t'.taken=t.taken++[body] ∧ t'.handed=t.handed++(if isRequest body then [body] else []) ∧
      ∃pr',t'.link.prot=some pr' ∧ pr'.state=.active ∧ pr'.key=pr.key ∧ pr'.rxSeq=pr.rxSeq+1 := by
  have ha : t.link.protState=.active := (protState_some hp).trans hpa
  have hl := p9ProtectTag_length x.sha256 pr.key p9DirC2s pr.rxSeq body
  have hyes : accepted x t.link
      (.frame (body++p9ProtectTag x.sha256 pr.key p9DirC2s pr.rxSeq body))=some body := by
    rw [accepted_frame x hp,untag_append _ _ hl]
    exact if_pos ⟨hpa,by rw [List.length_append,hl]; omega,(p9ProtectVerify_iff hl).mpr rfl⟩
  rcases p9LinkPump_active x e conn t.server hp hpa
    (.frame (body++p9ProtectTag x.sha256 pr.key p9DirC2s pr.rxSeq body)) with
    ⟨_,_,_,_,hno,_⟩ | ⟨_,_,_,hno,_⟩ | ⟨body',_,_,hacc,hr⟩
  · rw [hyes] at hno
    cases hno
  · rw [hyes] at hno
    cases hno
  · rw [hyes] at hacc
    cases hacc
    obtain ⟨hh,hsent⟩ := p9RouteFrame_active x e conn t.server
      (l := {t.link with prot := some {pr with rxSeq := pr.rxSeq+1}}) rfl hpa hb
    refine ⟨by simp only [Session.pump,hyes,Option.toList_some],?_,?_⟩
    · simp only [Session.pump,if_pos ha]
      rw [hr,hh]
      cases isRequest body <;> rfl
    · simp only [Session.pump]
      rw [hr]
      rcases hsent with ⟨_,hl⟩ | ⟨out,_,hl⟩ <;> rw [hl]
      · exact ⟨_,rfl,hpa,rfl,rfl⟩
      · exact ⟨_,rfl,hpa,rfl,rfl⟩

theorem Protected.of_accepted (h : Protected t) {pr : P9Prot} (hp : t.link.prot=some pr)
    (hpa : pr.state=.active) (e : PumpEnv) (body : Bytes) (hb : 7≤body.length)
    (hnext : t.requests[t.taken.length]?=some body) :
    Protected (t.pump x conn e
      (.frame (body++p9ProtectTag x.sha256 pr.key p9DirC2s pr.rxSeq body))) := by
  obtain ⟨htk,hh,pr',hp',hs',_,hrx⟩ := Session.pump_accepted (x := x) (t := t) conn hp hpa e body hb
  have hlate {pr2 : P9Prot} (hp2 : (t.pump x _ e
      (.frame (body++p9ProtectTag x.sha256 pr.key p9DirC2s pr.rxSeq body))).link.prot=some pr2) :
      pr2=pr' := Option.some.inj (hp2.symm.trans hp')
  refine ⟨?_,?_,h.frames,fun seq b hm => h.tagged seq b (mem_pump_tagged hm),?_,?_,?_⟩
  · rw [htk]
    obtain ⟨rest,hrest⟩ := h.taken
    rw [←hrest,List.getElem?_append_right le_rfl,Nat.sub_self] at hnext
    cases rest with
    | nil => cases hnext
    | cons b rest =>
      cases hnext
      exact ⟨rest,(List.append_assoc _ _ _).trans hrest⟩
  · rw [hh,htk,h.handed,List.filter_append,List.filter_singleton]
    cases isRequest body <;> rfl
  · rintro (hx | hx | hx) <;> rw [protState_some hp',hs'] at hx <;> cases hx
  · intro pr2 hp2 _
    rw [hlate hp2,hrx,htk,h.active pr hp hpa,List.length_append,List.length_singleton]
    simp [Nat.toUInt32]
  · intro pr2 hp2 hx
    rw [hlate hp2,hs'] at hx
    cases hx

theorem Protected.of_pump (h : Protected t) (hfew : t.requests.length<2^32) (e : PumpEnv)
    (rx : Received) (hu : ∀buf,rx=.frame buf → Unforged x t buf) :
    Protected (t.pump x conn e rx) := by
  cases hs : t.link.protState with
  | none => exact h.of_pump_early (.inl hs) e rx
  | offered => exact h.of_pump_early (.inr (.inl hs)) e rx
  | armed => exact h.of_pump_early (.inr (.inr hs)) e rx
  | dead =>
    have hr := p9LinkPump_dead x e conn t.server hs rx
    exact h.of_same (accepted_of_dead hs rx) (by rw [hr]) (by rw [hr])
  | active =>
    cases hp : t.link.prot with
    | none => rw [P9Link.protState,hp] at hs; cases hs
    | some pr =>
      have hpa : pr.state=.active := (protState_some hp).symm.trans hs
      rcases p9LinkPump_active x e conn t.server hp hpa rx with
        ⟨hl,_,hh,_,hacc,_⟩ | ⟨buf,_,_,hacc,hr⟩ | ⟨body,hrx,hb,hacc,hr⟩
      · exact h.of_same hacc hl hh
      · refine ⟨?_,?_,h.frames,fun seq b hm => h.tagged seq b (mem_pump_tagged hm),?_,?_,?_⟩ <;>
          simp only [Session.pump,hr,hacc,Option.toList_none,List.append_nil,ite_self]
        · exact h.taken
        · exact h.handed
        · rintro (hx | hx | hx) <;> cases hx
        · rintro _ ⟨⟩ hx
          cases hx
        · rintro _ ⟨⟩ _
          rfl
      · cases hrx
        exact h.of_accepted hp hpa e body hb (h.next hfew hp hpa (hu _ rfl))

theorem SessionStep.requests_le {t' : Session} {ev : SessionEvent} (hs : SessionStep x conn t ev t') :
    t.requests.length≤t'.requests.length := by
  cases hs with
  | tag frame _ => exact (List.prefix_append _ _).length_le
  | pump | other => exact le_rfl

theorem protected_reach {l : P9Link} {s0 : Server} {h : List SessionEvent} (hl : l.prot=none)
    (hr : Reach (SessionStep x conn) {link := l, server := s0} h t) :
    t.requests.length<2^32 → Protected t := by
  refine Reach.invariant (fun _ t => t.requests.length<2^32 → Protected t) (fun _ => ?_) ?_ hr
  · refine ⟨List.prefix_rfl,rfl,by simp,by simp,fun _ => rfl,?_,?_⟩
    · intro pr hp
      rw [hl] at hp
      cases hp
    · intro pr hp
      rw [hl] at hp
      cases hp
  · intro h t ev t' ih hs hfew
    have hi := ih (lt_of_le_of_lt hs.requests_le hfew)
    cases hs with
    | tag frame h7 => exact hi.of_tag h7
    | pump e rx hu => exact hi.of_pump hfew e rx hu
    | other s => exact ⟨hi.taken,hi.handed,hi.frames,hi.tagged,hi.early,hi.active,hi.dead⟩

theorem accepted_next (h : Protected t) {pr : P9Prot} (hp : t.link.prot=some pr)
    (ha : pr.state=.active) {buf : Bytes} (hn : t.next x pr=some buf) :
    ∃b,t.requests[t.taken.length]?=some b ∧ accepted x t.link (.frame buf)=some b := by
  obtain ⟨b,hb,rfl⟩ := Option.map_eq_some_iff.mp hn
  have h7 := h.frames b (List.mem_of_getElem? hb)
  have hl := p9ProtectTag_length x.sha256 pr.key p9DirC2s t.taken.length.toUInt32 b
  refine ⟨b,hb,?_⟩
  rw [accepted_frame x hp]
  rw [untag_append _ _ hl]
  refine if_pos ⟨ha,by rw [List.length_append,hl]; omega,?_⟩
  rw [h.active pr hp ha]
  exact (p9ProtectVerify_iff hl).mpr rfl

end

/-- A protected session, as long as its key holder sends fewer than 2^32 frames: what the link
accepts is a prefix of the key holder's frames, and the server gets the requests among them; the
first frame of at least seven bytes that is not the next one ends the session and wipes its key;
shorter ones are discarded; an ended session does nothing any more; and once the session is active
every reply is tagged. -/
theorem p9Session_protected (x : P9Wire) (conn : Nat) (l : P9Link) (s0 : Server)
    (h : List SessionEvent) (t : Session) (hl : l.prot=none)
    (hr : Reach (SessionStep x conn) {link := l, server := s0} h t)
    (hfew : t.requests.length<2^32) :
    t.taken<+:t.requests ∧ t.handed=t.taken.filter isRequest ∧
    (∀pr,t.link.prot=some pr → pr.state=.active → ∀e buf,Unforged x t buf →
      let r := p9LinkPump x e conn t.link t.server (.frame buf)
      (buf.length<7 → r={link := t.link, server := t.server, ret := -1}) ∧
      (t.next x pr=some buf → ∃b,t.requests[t.taken.length]?=some b ∧
        r.handed=(if isRequest b then some b else none) ∧ r.link.protState=.active) ∧
      (7≤buf.length → t.next x pr≠some buf →
        r={link := t.link.ended pr, server := t.server, ret := -1})) ∧
    (∀pr,t.link.prot=some pr → pr.state=.active → ∀e rx out,
      (p9LinkPump x e conn t.link t.server rx).sent=some out →
      ∃reply,out=reply++p9ProtectTag x.sha256 pr.key p9DirS2c pr.txSeq reply) ∧
    (t.link.protState=.dead → (∀pr,t.link.prot=some pr → pr.key=zeroDigest) ∧ ∀e rx,
      p9LinkPump x e conn t.link t.server rx={link := t.link, server := t.server, ret := -1}) := by
  have hi := protected_reach hl hr hfew
  refine ⟨hi.taken,hi.handed,?_,?_,?_⟩
  · intro pr hp ha e buf hu
    have hs : t.link.protState=.active := (protState_some hp).trans ha
    refine ⟨?_,?_,?_⟩
    · intro h7
      have hd : t.link.protState≠.dead := by rw [hs]; decide
      unfold p9LinkPump
      rw [if_neg hd]
      exact if_pos h7
    · intro hn
      obtain ⟨b,hb,hacc⟩ := accepted_next hi hp ha hn
      refine ⟨b,hb,?_⟩
      rcases p9LinkPump_active x e conn t.server hp ha (.frame buf)
        with ⟨_,_,_,_,hno,_⟩ | ⟨_,_,_,hno,_⟩ | ⟨body,_,h7,hyes,hr⟩
      · rw [hacc] at hno
        cases hno
      · rw [hacc] at hno
        cases hno
      · rw [hacc] at hyes
        cases hyes
        obtain ⟨hh,hsent⟩ := p9RouteFrame_active x e conn t.server
          (l := {t.link with prot := some {pr with rxSeq := pr.rxSeq+1}}) rfl ha h7
        rw [hr]
        refine ⟨hh,?_⟩
        rcases hsent with ⟨_,hl⟩ | ⟨out,_,hl⟩ <;> rw [hl] <;> exact ha
    · intro h7 hn
      rcases p9LinkPump_active x e conn t.server hp ha (.frame buf)
        with ⟨_,_,_,_,_,hshort⟩ | ⟨_,_,_,_,hr⟩ | ⟨body,hrx,_,_,_⟩
      · exact absurd (hshort buf rfl) (by omega)
      · exact hr
      · cases hrx
        have hnext := hi.next hfew hp ha hu
        refine absurd ?_ hn
        rw [Session.next,hnext,hi.active pr hp ha]
        rfl
  · intro pr hp ha e rx out hsent
    rcases p9LinkPump_active x e conn t.server hp ha rx with
      ⟨_,_,_,hno,_⟩ | ⟨_,_,_,_,hr⟩ | ⟨body,_,h7,_,hr⟩
    · rw [hno] at hsent
      cases hsent
    · rw [hr] at hsent
      cases hsent
    · rw [hr] at hsent
      rcases (p9RouteFrame_active x e conn t.server
          (l := {t.link with prot := some {pr with rxSeq := pr.rxSeq+1}}) rfl ha h7).2 with
        ⟨hno,_⟩ | ⟨reply,hyes,_⟩
      · rw [hno] at hsent
        cases hsent
      · rw [hyes] at hsent
        cases hsent
        exact ⟨reply,rfl⟩
  · intro hd
    exact ⟨fun pr hp => hi.dead pr hp ((protState_some hp).symm.trans hd),
      fun e rx => p9LinkPump_dead x e conn t.server hd rx⟩

theorem unforged_of_ne {x : P9Wire} {t : Session} (h : t.link.protState≠.active) (buf : Bytes) :
    Unforged x t buf := by
  intro pr seq hp ha
  exact absurd ((protState_some hp).trans ha) h

/-- A hash that shows the first bytes of the message: tags under it spell out what they cover. -/
def plainSha256 (m : Bytes) : Digest := ⟨((m.drop 64)++List.replicate 32 0).take 32,by simp⟩

/-- The type byte decides the request; a Tversion offers the extension unless byte 8 is set. -/
def sampleWire : P9Wire where
  sha256 := plainSha256
  deserialize := fun b =>
    if b.getD 4 0=100 then some {protectedVersion with lp := b.getD 8 0=0}
    else if b.getD 4 0=102 then some aliceAuth
    else if b.getD 4 0=118 then some aliceProof
    else some {type := .tflush}
  serialize := fun _ _ => some (List.replicate 7 0)

def sampleEnv : PumpEnv where
  world := aliceWorld

def sampleFrame (type : UInt8) : Bytes := [9,0,0,0,type,0,0,0,0]

def flushFrame : Bytes := sampleFrame 108

theorem sampleTag (key : Digest) (seq : UInt32) :
    p9ProtectTag plainSha256 key p9DirC2s seq flushFrame=p9DirC2s::le32 seq++[9,0,0] := by
  have hpad (c : UInt8) : (p9ProtectPad c key).length=64 := by simp [p9ProtectPad]
  have hplain (c : UInt8) (m : Bytes) :
      (plainSha256 (p9ProtectPad c key++m)).bytes=(m++List.replicate 32 0).take 32 := by
    change ((p9ProtectPad c key++m).drop 64++List.replicate 32 0).take 32=_
    rw [List.drop_left' (hpad c)]
  rw [p9ProtectTag,hplain,hplain]
  rfl

theorem le32_inj {v w : UInt32} (h : le32 v=le32 w) : v=w := by
  simp only [le32,List.cons.injEq,and_true] at h
  obtain ⟨h0,h1,h2,h3⟩ := h
  have h0 := congrArg UInt8.toNat h0
  have h1 := congrArg UInt8.toNat h1
  have h2 := congrArg UInt8.toNat h2
  have h3 := congrArg UInt8.toNat h3
  simp [Nat.shiftRight_eq_div_pow] at h0 h1 h2 h3
  apply UInt32.toNat_inj.mp
  have hv := v.toNat_lt
  have hw := w.toNat_lt
  omega

theorem sample_unforged {t : Session} {pr : P9Prot} (hp : t.link.prot=some pr) (seq : UInt32)
    (hm : (p9DirC2s,seq,flushFrame)∈t.tagged) : Unforged sampleWire t
      (flushFrame++p9ProtectTag plainSha256 pr.key p9DirC2s seq flushFrame) := by
  intro pr' seq' hp' _ hv
  cases hp.symm.trans hp'
  have hl := p9ProtectTag_length plainSha256 pr.key p9DirC2s seq flushFrame
  rw [untag_append _ _ hl] at hv ⊢
  have he := (p9ProtectVerify_iff hl).mp hv
  have he : p9DirC2s::le32 seq++[9,0,0]=p9DirC2s::le32 seq'++[9,0,0] := by
    rw [←sampleTag,←sampleTag]
    exact he
  rw [←le32_inj (List.append_cancel_right (List.tail_eq_of_cons_eq he))]
  exact hm

/-- The link and the server after the handshake's three frames. -/
def activeSession : Session :=
  (((({link := {protGet := true}, server := p9Init} : Session).pump sampleWire 1 sampleEnv
    (.frame (sampleFrame 100))).pump sampleWire 1 sampleEnv
    (.frame (sampleFrame 102))).pump sampleWire 1 sampleEnv (.frame (sampleFrame 118)))

theorem activeSession_reach : ∃h,Reach (SessionStep sampleWire 1)
    {link := {protGet := true}, server := p9Init} h activeSession := by
  refine ⟨_,((Reach.start.next (.pump _ sampleEnv (.frame (sampleFrame 100)) ?_)).next
    (.pump _ sampleEnv (.frame (sampleFrame 102)) ?_)).next
    (.pump _ sampleEnv (.frame (sampleFrame 118)) ?_)⟩
  · exact fun buf _ => unforged_of_ne (by decide) buf
  · exact fun buf _ => unforged_of_ne (by decide) buf
  · exact fun buf _ => unforged_of_ne (by decide) buf

theorem flush_run (n : Nat) : ∃h t pr,Reach (SessionStep sampleWire 1)
    {link := {protGet := true}, server := p9Init} h t ∧ t.link.prot=some pr ∧ pr.state=.active ∧
    pr.rxSeq=n.toUInt32 ∧ t.requests=List.replicate n flushFrame ∧ t.taken.length=n ∧
    t.handed=List.replicate n flushFrame ∧
    (0 < n → (p9DirC2s,0,flushFrame)∈t.tagged) := by
  induction n with
  | zero =>
    obtain ⟨h,hr⟩ := activeSession_reach
    exact ⟨h,activeSession,_,hr,rfl,rfl,rfl,rfl,rfl,rfl,fun h => absurd h (by decide)⟩
  | succ n ih =>
    obtain ⟨h,t,pr,hr,hp,ha,hrx,hreq,hlen,hh,hz⟩ := ih
    have htag : (p9DirC2s,pr.rxSeq,flushFrame)∈(t.tag flushFrame).tagged := by
      rw [hrx,Session.tag,hreq,List.length_replicate]
      exact List.mem_cons_self
    obtain ⟨htk,hh',pr',hp',ha',_,hrx'⟩ := Session.pump_accepted (x := sampleWire)
      (t := t.tag flushFrame) 1 hp ha sampleEnv flushFrame (by decide)
    refine ⟨_,_,pr',(hr.next (.tag t flushFrame (by decide))).next
      (.pump _ sampleEnv (.frame _) ?_),hp',ha',?_,?_,?_,?_,fun _ => ?_⟩
    · rintro _ ⟨⟩
      exact sample_unforged (t := t.tag flushFrame) hp _ htag
    · rw [hrx',hrx]
      simp [Nat.toUInt32]
    · rw [List.replicate_succ',←hreq]
      rfl
    · rw [htk]
      simp [Session.tag,hlen]
    · rw [hh',List.replicate_succ',←hh]
      rfl
    · refine List.mem_append_right _ ?_
      cases n with
      | zero =>
        rw [hrx] at htag
        exact htag
      | succ n => exact List.mem_cons_of_mem _ (hz (Nat.succ_pos n))

/-- A frame of the key holder arrives and is handed to the server. -/
theorem p9Session_protected_flush : ∃t : Session,t.handed=[flushFrame] ∧ t.taken<+:t.requests := by
  obtain ⟨h,t,pr,hr,_,_,_,hreq,_,hh,_⟩ := flush_run 1
  exact ⟨t,hh,(p9Session_protected sampleWire 1 {protGet := true} p9Init h t rfl hr
    (by rw [hreq]; decide)).1⟩

/-- The counter has 32 bits: after 2^32 frames the first one is accepted again. -/
theorem p9Session_wraps : ¬∀(x : P9Wire) (conn : Nat) (l : P9Link) (s0 : Server)
    (h : List SessionEvent) (t : Session),l.prot=none →
    Reach (SessionStep x conn) {link := l, server := s0} h t →
    (∀b∈t.requests,isRequest b=true) → t.handed<+:t.requests := by
  intro hall
  obtain ⟨h,t,pr,hr,hp,ha,hrx,hreq,_,hh,hz⟩ := flush_run (2^32)
  have hzero : pr.rxSeq=0 := by rw [hrx]; rfl
  obtain ⟨_,hh',_⟩ := Session.pump_accepted (x := sampleWire) (t := t) 1 hp ha sampleEnv
    flushFrame (by decide)
  have hrun := hr.next (.pump t sampleEnv (.frame (flushFrame++
    p9ProtectTag sampleWire.sha256 pr.key p9DirC2s pr.rxSeq flushFrame)) (by
      rintro _ ⟨⟩
      exact sample_unforged hp _ (by rw [hzero]; exact hz (by decide))))
  have hpre := (hall _ _ _ _ _ _ rfl hrun ?_).length_le
  · rw [hh',hh] at hpre
    have hl : t.requests.length=2^32 := by rw [hreq,List.length_replicate]
    have hl' : (List.replicate (2^32) flushFrame++
        (if isRequest flushFrame then [flushFrame] else [])).length=2^32+1 := by
      rw [List.length_append,List.length_replicate]
      rfl
    rw [hl'] at hpre
    exact absurd (hpre.trans_eq hl) (by decide)
  · intro b hb
    have hb : b∈t.requests := hb
    rw [hreq] at hb
    rw [List.eq_of_mem_replicate hb]
    rfl

end LugalOS.P9
