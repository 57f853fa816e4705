import LugalOS.P9.Session

namespace LugalOS.P9

open CString Run

/-- What the Tversions on a link were answered: each with the extension it offered, and with
Rversion's own extension or none when it was refused, latest first. proved says that an auth
response was accepted since the last Rversion. -/
structure VersionLog where
  log : List (Bool×Option Bool) := []
  proved : Bool := false

/-- The extension the last Rversion named. -/
def VersionLog.last (v : VersionLog) : Option Bool := v.log.findSome? Prod.snd

def VersionLog.note (v : VersionLog) (req resp : P9Msg) (keys : List Digest) : VersionLog :=
  if req.type≠.tversion then {v with proved := v.proved || !keys.isEmpty}
  else if resp.type=.rversion then {log := (req.lp,some resp.lp)::v.log, proved := false}
  else {v with log := (req.lp,none)::v.log}

/-- The history after one pump, s being the server before it. -/
def VersionLog.after (v : VersionLog) (x : P9Wire) (s : Server) (r : Pumped) : VersionLog :=
  match r.handed.bind x.deserialize,r.resp with
  | some req,some resp => v.note req resp (acceptedKeys s r.server)
  | _,_ => v

/-- A plaintext link with its history. -/
structure Talk where
  link : P9Link
  server : Server
  past : VersionLog := {}

def P9Link.Keyed (l : P9Link) : Prop :=
  l.protState=.armed ∨ l.protState=.active ∨ l.protState=.dead

def Talk.pump (x : P9Wire) (conn : Nat) (t : Talk) (e : PumpEnv) (rx : Received) : Talk :=
  let r := p9LinkPump x e conn t.link t.server rx
  {link := r.link, server := r.server, past := t.past.after x t.server r}

inductive TalkEvent where
  | pump (e : PumpEnv) (rx : Received)
  /-- Other connections used the server. -/
  | other (s : Server)

/-- The frames a link receives, where each meets ok. -/
inductive TalkStep (x : P9Wire) (conn : Nat) (ok : Talk → PumpEnv → Received → Prop) :
    Talk → TalkEvent → Talk → Prop
  | pump (t : Talk) (e : PumpEnv) (rx : Received) : ok t e rx →
      TalkStep x conn ok t (.pump e rx) (t.pump x conn e rx)
  | other (t : Talk) (s : Server) : TalkStep x conn ok t (.other s) {t with server := s}

/-- While a session is offered, every Tversion offers it again and there is a state to give. -/
def OffersAgain (x : P9Wire) (t : Talk) (e : PumpEnv) (rx : Received) : Prop :=
  t.link.protState=.offered → ∀buf req,rx=.frame buf → x.deserialize buf=some req →
    req.type=.tversion → req.lp=true ∧ e.protSlot=true

theorem acceptedKeys_self {s s' : Server} (h : s'.sessionKeys=s.sessionKeys) :
    acceptedKeys s s'=[] := by
  rw [acceptedKeys,h,Nat.sub_self]
  rfl

theorem releaseWhere_sessionKeys (p : FidEntry → Bool) (s : Server) :
    (releaseWhere p s).sessionKeys=s.sessionKeys := by
  unfold releaseWhere
  generalize List.finRange p9MaxFids=is
  induction is generalizing s with
  | nil => rfl
  | cons i is ih =>
    rw [List.foldl_cons,ih]
    split_ifs
    · unfold p9FidRelease
      dsimp only
      split_ifs <;> rfl
    · rfl

theorem p9HandleTversion_sessionKeys (w : World) (c : ReqCtx) (s : Server) (req resp : P9Msg) :
    (p9HandleTversion w c s req resp).2.sessionKeys=s.sessionKeys := by
  unfold p9HandleTversion
  by_cases ha : w.linkSessionActive=true
  · rw [if_pos ha]
  · rw [if_neg ha]
    exact releaseWhere_sessionKeys _ s

section
variable (x : P9Wire) (e : PumpEnv) (conn : Nat) (l : P9Link) (s : Server) (buf : Bytes)

/-- The request p9_route_frame has the server answer. -/
def served : P9Msg×Server :=
  processRequest (e.seen l) (l.reqCtx conn e.world.maxMsize.toNat) s (x.deserialize buf)

/-- The link after the server's hooks. -/
def hookedLink : P9Link :=
  l.hooked e.protSlot (x.deserialize buf) (acceptedKeys s (served x e conn l s buf).2)

theorem p9RouteFrame_cases :
    let r := p9RouteFrame x e conn l s buf
    (r.link=l ∧ r.server=s ∧ r.handed=none ∧ r.sent=none) ∨
    (r.handed=some buf ∧ r.resp=some (served x e conn l s buf).1 ∧
      r.server=(served x e conn l s buf).2 ∧
      (r.link=hookedLink x e conn l s buf ∧ r.sent=none ∨
        ∃out n,x.serialize (served x e conn l s buf).1 n=some out ∧
          r.link=(p9RouteReply x e (l.protState=.active) (hookedLink x e conn l s buf) out).1 ∧
          r.sent=some (p9RouteReply x e (l.protState=.active)
            (hookedLink x e conn l s buf) out).2.1)) := by
  unfold p9RouteFrame
  dsimp only
  split_ifs
  · exact .inl ⟨rfl,rfl,rfl,rfl⟩
  · exact .inl ⟨rfl,rfl,rfl,rfl⟩
  · exact .inl ⟨rfl,rfl,rfl,rfl⟩
  · exact .inl ⟨rfl,rfl,rfl,rfl⟩
  · right
    split
    · exact ⟨rfl,rfl,rfl,.inl ⟨rfl,rfl⟩⟩
    · next out ho =>
      split_ifs
      · exact ⟨rfl,rfl,rfl,.inl ⟨rfl,rfl⟩⟩
      · exact ⟨rfl,rfl,rfl,.inr ⟨out,_,ho,rfl,rfl⟩⟩

variable {x e conn l s buf} {req : P9Msg}

theorem served_tversion_active (hreq : x.deserialize buf=some req) (ht : req.type=.tversion)
    (ha : p9LinkSessionActive l=true) :
    (served x e conn l s buf).1.type=.rerror ∧ hookedLink x e conn l s buf=l := by
  refine ⟨?_,hooked_of_active ha _ _ _⟩
  rw [served,hreq,processRequest_tversion ht,p9HandleTversion,PumpEnv.seen]
  dsimp only
  rw [if_pos ha]
  rfl

theorem served_tversion (hreq : x.deserialize buf=some req) (ht : req.type=.tversion)
    (ha : p9LinkSessionActive l=false) :
    (served x e conn l s buf).1.type=.rversion ∧
    (served x e conn l s buf).1.lp=(req.lp && (p9LinkSessionOffered e.protSlot l).1) ∧
    hookedLink x e conn l s buf=(if req.lp then (p9LinkSessionOffered e.protSlot l).2 else l) := by
  have hs : served x e conn l s buf=p9HandleTversion (e.seen l)
      (l.reqCtx conn e.world.maxMsize.toNat) s req {type := .unknown 0, tag := req.tag} := by
    rw [served,hreq,processRequest_tversion ht]
  have hkeys : acceptedKeys s (served x e conn l s buf).2=[] :=
    acceptedKeys_self (by rw [hs]; exact p9HandleTversion_sessionKeys _ _ _ _ _)
  have hn : ¬(e.seen l).linkSessionActive=true := by
    change ¬p9LinkSessionActive l=true
    rw [ha]
    decide
  refine ⟨?_,?_,?_⟩
  · rw [hs,p9HandleTversion,if_neg hn]
  · rw [hs,p9HandleTversion,if_neg hn]
    rfl
  · rw [hookedLink,hkeys,P9Link.hooked,hreq,asksSession,ht,ha]
    simp

theorem hookedLink_other (ht : ∀req,x.deserialize buf=some req → req.type≠.tversion) :
    let keys := acceptedKeys s (served x e conn l s buf).2
    hookedLink x e conn l s buf=l ∧ (l.protState=.offered → keys=[]) ∨
      l.protState=.offered ∧ keys≠[] ∧
      (hookedLink x e conn l s buf).protState=.armed ∧
      (hookedLink x e conn l s buf).protGet=l.protGet := by
  have hask : asksSession l (x.deserialize buf)=false := by
    cases hreq : x.deserialize buf with
    | none => rfl
    | some req => simp [asksSession,ht req hreq]
  dsimp only
  rw [hookedLink,P9Link.hooked,hask]
  by_cases ho : l.protState=.offered
  · cases acceptedKeys s (served x e conn l s buf).2 with
    | nil => exact .inl ⟨rfl,fun _ => rfl⟩
    | cons k keys =>
      refine .inr ⟨ho,List.cons_ne_nil _ _,?_⟩
      have harm : (p9LinkSessionAuthenticated k l).protState=.armed ∧
          (p9LinkSessionAuthenticated k l).protGet=l.protGet := by
        unfold p9LinkSessionAuthenticated
        cases hp : l.prot with
        | none => rw [P9Link.protState,hp] at ho; cases ho
        | some pr =>
          rw [protState_some hp] at ho
          dsimp only
          rw [if_neg (not_not.mpr ho)]
          exact ⟨rfl,rfl⟩
      rw [List.foldl_cons,if_neg Bool.false_ne_true,
        foldl_authenticated_of_ne (by rw [harm.1]; decide)]
      exact harm
  · exact .inl ⟨foldl_authenticated_of_ne ho _,fun h => absurd h ho⟩

end

/-- How the session's state and the last Rversion go together. -/
structure Negotiated (l : P9Link) (v : VersionLog) : Prop where
  protGet : l.protState≠.none → l.protGet=true
  plain : l.protState=.none → v.last≠some true
  offered : l.protState=.offered → v.log.head?=some (true,some true) ∧ v.proved=false
  keyed : l.Keyed → v.proved=true ∧
    ∃refused rest,v.log=refused++(true,some true)::rest ∧ ∀r∈refused,r.2=none

theorem last_of_refused {v : VersionLog} {refused rest : List (Bool×Option Bool)}
    (hl : v.log=refused++(true,some true)::rest) (hr : ∀r∈refused,r.2=none) : v.last=some true := by
  have hn : refused.findSome? Prod.snd=none := List.findSome?_eq_none_iff.mpr hr
  rw [VersionLog.last,hl,List.findSome?_append,hn]
  rfl

theorem Negotiated.of_link {l l' : P9Link} {v : VersionLog} (h : Negotiated l v)
    (hg : l'.protGet=l.protGet) (hs : l'.protState=l.protState ∨ l.Keyed ∧ l'.Keyed) :
    Negotiated l' v := by
  rcases hs with hs | ⟨hk,hk'⟩
  · refine ⟨?_,?_,?_,?_⟩
    · rw [hs,hg]
      exact h.protGet
    · rw [hs]
      exact h.plain
    · rw [hs]
      exact h.offered
    · rw [P9Link.Keyed,hs]
      exact h.keyed
  · refine ⟨fun _ => ?_,fun hn => ?_,fun ho => ?_,fun _ => h.keyed hk⟩
    · rw [hg]
      exact h.protGet (by rcases hk with hk | hk | hk <;> rw [hk] <;> decide)
    · rcases hk' with hk' | hk' | hk' <;> rw [hn] at hk' <;> cases hk'
    · rcases hk' with hk' | hk' | hk' <;> rw [ho] at hk' <;> cases hk'

theorem not_keyed {l : P9Link} (h : l.protState=.none ∨ l.protState=.offered) : ¬l.Keyed := by
  rintro (hk | hk | hk) <;> rw [hk] at h <;> rcases h with h | h <;> cases h

section
variable {x : P9Wire} {e : PumpEnv} {conn : Nat} {l : P9Link} {s : Server} {buf : Bytes}
  {v : VersionLog}

theorem Negotiated.of_offer (h : Negotiated l v) (hs : l.protState=.none ∨ l.protState=.offered)
    {lp : Bool} (hok : l.protState=.offered → lp=true ∧ e.protSlot=true) :
    Negotiated (if lp then (p9LinkSessionOffered e.protSlot l).2 else l)
      {log := (lp,some (lp && (p9LinkSessionOffered e.protSlot l).1))::v.log, proved := false} := by
  have hplain (ha : (lp && (p9LinkSessionOffered e.protSlot l).1)=false) (hn : l.protState=.none) :
      Negotiated l {log := (lp,some false)::v.log, proved := false} := by
    refine ⟨fun hne => absurd hn hne,fun _ => ?_,fun ho => ?_,fun hk => ?_⟩
    · intro hl
      cases hl
    · rw [hn] at ho
      cases ho
    · exact absurd hk (not_keyed (.inl hn))
  cases lp with
  | false =>
    rcases hs with hs | hs
    · exact hplain rfl hs
    · cases (hok hs).1
  | true =>
    by_cases hg : l.protGet=true ∧ e.protSlot=true
    · have hoff : p9LinkSessionOffered e.protSlot l=
          (true,{l with prot := some {state := .offered}}) := by
        simp [p9LinkSessionOffered,hg.1,hg.2]
      rw [hoff]
      refine ⟨fun _ => hg.1,fun hn => ?_,fun _ => ⟨rfl,rfl⟩,fun hk => ?_⟩
      · cases hn
      · exact absurd hk (not_keyed (.inr rfl))
    · have hoff : p9LinkSessionOffered e.protSlot l=(false,l) := by
        unfold p9LinkSessionOffered
        split_ifs with h1 h2
        · rfl
        · rfl
        · exact absurd ⟨by simpa using h1,by simpa using h2⟩ hg
      rw [hoff]
      rcases hs with hs | hs
      · exact hplain (by rw [hoff]; rfl) hs
      · exact absurd ⟨h.protGet (by rw [hs]; decide),(hok hs).2⟩ hg

theorem Negotiated.of_hooks (h : Negotiated l v) (conn : Nat) (s : Server) (hd : l.protState≠.dead)
    (hok : l.protState=.offered → ∀req,x.deserialize buf=some req → req.type=.tversion →
      req.lp=true ∧ e.protSlot=true) :
    let keys := acceptedKeys s (served x e conn l s buf).2
    Negotiated (hookedLink x e conn l s buf) (match x.deserialize buf with
      | some req => v.note req (served x e conn l s buf).1 keys
      | none => v) := by
  intro keys
  -- any request but a Tversion
  have hother (ht : ∀req,x.deserialize buf=some req → req.type≠.tversion) :
      Negotiated (hookedLink x e conn l s buf) {v with proved := v.proved || !keys.isEmpty} := by
    rcases hookedLink_other ht with ⟨hl,hk⟩ | ⟨ho,hk,harm,hg⟩
    · rw [hl]
      refine ⟨h.protGet,h.plain,fun ho => ?_,fun hkey => ?_⟩
      · refine ⟨(h.offered ho).1,?_⟩
        have hk : keys=[] := hk ho
        rw [hk,(h.offered ho).2]
        rfl
      · refine ⟨?_,(h.keyed hkey).2⟩
        rw [(h.keyed hkey).1]
        rfl
    · refine ⟨fun _ => ?_,fun hn => ?_,fun hn => ?_,fun _ => ⟨?_,?_⟩⟩
      · rw [hg]
        exact h.protGet (by rw [ho]; decide)
      · rw [harm] at hn
        cases hn
      · rw [harm] at hn
        cases hn
      · have hk : keys≠[] := hk
        cases hkeys : keys with
        | nil => exact absurd hkeys hk
        | cons k ks => exact Bool.or_true _
      · have hhead := (h.offered ho).1
        cases hlog : v.log with
        | nil => rw [hlog] at hhead; cases hhead
        | cons a rest =>
          rw [hlog] at hhead
          cases hhead
          exact ⟨[],rest,rfl,by simp⟩
  cases hreq : x.deserialize buf with
  | none =>
    have hk : keys=[] := by
      refine acceptedKeys_self ?_
      rw [served,hreq]
      rfl
    have := hother fun req hr => by rw [hreq] at hr; cases hr
    rw [hk,List.isEmpty_nil,Bool.not_true,Bool.or_false] at this
    exact this
  | some req =>
    dsimp only
    by_cases ht : req.type=.tversion
    · cases ha : p9LinkSessionActive l with
      | true =>
        obtain ⟨herr,hl⟩ := served_tversion_active (s := s) (e := e) hreq ht ha
        rw [hl,VersionLog.note,if_neg (not_not.mpr ht),if_neg (by rw [herr]; decide)]
        refine ⟨h.protGet,fun hn => ?_,fun ho => ?_,fun hk => ?_⟩
        · rw [p9LinkSessionActive,hn] at ha
          cases ha
        · rw [p9LinkSessionActive,ho] at ha
          cases ha
        · obtain ⟨hp,refused,rest,hlog,hr⟩ := h.keyed hk
          refine ⟨hp,(req.lp,none)::refused,rest,congrArg _ hlog,fun r hm => ?_⟩
          rcases List.mem_cons.mp hm with rfl | hm
          · rfl
          · exact hr r hm
      | false =>
        obtain ⟨hver,hlp,hl⟩ := served_tversion (s := s) (e := e) hreq ht ha
        rw [hl,VersionLog.note,if_neg (not_not.mpr ht),if_pos hver,hlp]
        refine h.of_offer ?_ fun ho => hok ho req hreq ht
        cases hs : l.protState with
        | none => exact .inl rfl
        | offered => exact .inr rfl
        | armed | active => rw [p9LinkSessionActive,hs] at ha; cases ha
        | dead => exact absurd hs hd
    · rw [VersionLog.note,if_pos ht]
      refine hother fun req' hr => ?_
      rw [hreq] at hr
      cases hr
      exact ht

theorem Negotiated.of_route (h : Negotiated l v) (hd : l.protState≠.dead)
    (hok : l.protState=.offered → ∀req,x.deserialize buf=some req → req.type=.tversion →
      req.lp=true ∧ e.protSlot=true) :
    let r := p9RouteFrame x e conn l s buf
    Negotiated r.link (v.after x s r) := by
  have hh := h.of_hooks conn s hd hok
  dsimp only at hh ⊢
  rcases p9RouteFrame_cases x e conn l s buf with ⟨hl,_,hno,_⟩ | ⟨hb,hresp,hs,hlink⟩
  · unfold VersionLog.after
    rw [hl,hno]
    exact h
  · have hv : v.after x s (p9RouteFrame x e conn l s buf)=(match x.deserialize buf with
        | some req => v.note req (served x e conn l s buf).1
            (acceptedKeys s (served x e conn l s buf).2)
        | none => v) := by
      unfold VersionLog.after
      rw [hb,hresp,hs,Option.bind_some]
      cases x.deserialize buf <;> rfl
    rw [hv]
    rcases hlink with ⟨hl,_⟩ | ⟨out,_,_,hl,_⟩
    · rw [hl]
      exact hh
    · rw [hl]
      by_cases ha : l.protState=.active
      · have hsame : hookedLink x e conn l s buf=l :=
          hooked_of_active (by simp [p9LinkSessionActive,ha]) _ _ _
        rw [hsame] at hh ⊢
        cases hp : l.prot with
        | none => rw [P9Link.protState,hp] at ha; cases ha
        | some pr =>
          have hpa : pr.state=.active := (protState_some hp).symm.trans ha
          rw [ha,show decide (P9ProtState.active=.active)=true from rfl,
            (p9RouteReply_active x e hp hpa out).2]
          exact hh.of_link rfl (.inl (hpa.trans ha.symm))
      · rw [show decide (l.protState=.active)=false from decide_eq_false ha]
        rcases (p9RouteReply_early x e (hookedLink x e conn l s buf) out).2 with hr | ⟨harm,key,hr⟩
        · rw [hr]
          exact hh
        · rw [hr]
          exact hh.of_link rfl (.inr ⟨.inl harm,.inr (.inl rfl)⟩)

theorem Negotiated.of_pump {t : Talk} (h : Negotiated t.link t.past) (rx : Received)
    (hok : OffersAgain x t e rx) :
    let t' := t.pump x conn e rx
    Negotiated t'.link t'.past := by
  dsimp only [Talk.pump]
  by_cases hd : t.link.protState=.dead
  · rw [p9LinkPump_dead x e conn t.server hd rx]
    exact h
  · unfold p9LinkPump
    rw [if_neg hd]
    cases rx with
    | idle ready | failed => exact h
    | frame buf =>
      have hreq : t.link.protState=.offered → ∀req,x.deserialize buf=some req →
          req.type=.tversion → req.lp=true ∧ e.protSlot=true :=
        fun ho req hr ht => hok ho buf req rfl hr ht
      dsimp only
      by_cases h7 : buf.length<7
      · rw [if_pos h7]
        exact h
      · rw [if_neg h7]
        cases hp : t.link.prot with
        | none => exact h.of_route hd hreq
        | some pr =>
          dsimp only
          by_cases ha : pr.state=.active
          · have hact : t.link.protState=.active := (protState_some hp).trans ha
            rw [if_neg (not_not.mpr ha)]
            split_ifs
            · exact h.of_link rfl (.inr ⟨.inr (.inl hact),.inr (.inr rfl)⟩)
            · have hl : Negotiated {t.link with prot := some {pr with rxSeq := pr.rxSeq+1}}
                  t.past := h.of_link rfl (.inl (ha.trans hact.symm))
              refine hl.of_route ?_ ?_
              · intro hx
                exact absurd (ha.symm.trans hx) (by decide)
              · intro hx
                exact absurd (ha.symm.trans hx) (by decide)
          · rw [if_pos ha]
            exact h.of_route hd hreq

theorem negotiated_reach {l : P9Link} {s0 : Server} {h : List TalkEvent} {t : Talk}
    (hl : l.prot=none)
    (hr : Reach (TalkStep x conn (OffersAgain x)) {link := l, server := s0} h t) :
    Negotiated t.link t.past := by
  refine Reach.invariant (fun _ t => Negotiated t.link t.past) ?_ ?_ hr
  · have hn : l.protState=.none := by rw [P9Link.protState,hl]
    refine ⟨fun h => absurd hn h,fun _ h => (by cases h),fun ho => ?_,
      fun hk => absurd hk (not_keyed (.inl hn))⟩
    rw [hn] at ho
    cases ho
  · intro h t ev t' hi hs
    cases hs with
    | pump e rx hok => exact hi.of_pump rx hok
    | other s => exact hi

end

section
variable {x : P9Wire} {e : PumpEnv} {conn : Nat} {l : P9Link} {s : Server} {v : VersionLog}

theorem unkeyed_cases (h : ¬l.Keyed) : l.protState=.none ∨ l.protState=.offered := by
  cases hs : l.protState with
  | none => exact .inl rfl
  | offered => exact .inr rfl
  | armed => exact absurd (.inl hs) h
  | active => exact absurd (.inr (.inl hs)) h
  | dead => exact absurd (.inr (.inr hs)) h

theorem p9LinkPump_unkeyed (h : ¬l.Keyed) (rx : Received) :
    let r := p9LinkPump x e conn l s rx
    (r.link=l ∧ r.server=s ∧ r.handed=none ∧ r.sent=none) ∨
    ∃buf,rx=.frame buf ∧ r=p9RouteFrame x e conn l s buf := by
  have hs := unkeyed_cases h
  have hd : l.protState≠.dead := by rcases hs with hs | hs <;> rw [hs] <;> decide
  unfold p9LinkPump
  dsimp only
  rw [if_neg hd]
  cases rx with
  | idle ready | failed => exact .inl ⟨rfl,rfl,rfl,rfl⟩
  | frame buf =>
    dsimp only
    split_ifs
    · exact .inl ⟨rfl,rfl,rfl,rfl⟩
    · cases hp : l.prot with
      | none => exact .inr ⟨buf,rfl,rfl⟩
      | some pr =>
        have ha : pr.state≠.active := by
          rw [←protState_some hp]
          rcases hs with hs | hs <;> rw [hs] <;> decide
        dsimp only
        rw [if_pos ha]
        exact .inr ⟨buf,rfl,rfl⟩

theorem hookedLink_keyed {buf : Bytes} (h : ¬l.Keyed) (hk : (hookedLink x e conn l s buf).Keyed) :
    l.protState=.offered ∧ ∀req,x.deserialize buf=some req → req.type≠.tversion := by
  have hs := unkeyed_cases h
  have ht : ∀req,x.deserialize buf=some req → req.type≠.tversion := by
    intro req hreq ht
    have ha : p9LinkSessionActive l=false := by
      rw [p9LinkSessionActive]
      rcases hs with hs | hs <;> rw [hs] <;> rfl
    rw [(served_tversion hreq ht ha).2.2] at hk
    refine absurd hk (not_keyed ?_)
    unfold p9LinkSessionOffered
    split_ifs
    · exact hs
    · exact hs
    · exact .inr rfl
    · exact hs
  refine ⟨?_,ht⟩
  rcases @hookedLink_other x e conn l s buf ht with ⟨hl,_⟩ | ⟨ho,_⟩
  · rw [hl] at hk
    exact absurd hk h
  · exact ho

theorem p9LinkPump_keyed (h : ¬l.Keyed) (rx : Received)
    (hk : (p9LinkPump x e conn l s rx).link.Keyed) :
    l.protState=.offered ∧ (v.after x s (p9LinkPump x e conn l s rx)).log=v.log := by
  rcases @p9LinkPump_unkeyed x e conn l s h rx with
    ⟨hl,_⟩ | ⟨buf,_,hr⟩
  · rw [hl] at hk
    exact absurd hk h
  · rw [hr] at hk ⊢
    rcases p9RouteFrame_cases x e conn l s buf with ⟨hl,_⟩ | ⟨hb,hresp,hs,hlink⟩
    · rw [hl] at hk
      exact absurd hk h
    · have hne : l.protState≠.active := fun ha => h (.inr (.inl ha))
      have hhook : (hookedLink x e conn l s buf).Keyed := by
        rcases hlink with ⟨hl,_⟩ | ⟨out,_,_,hl,_⟩
        · rw [hl] at hk
          exact hk
        · rw [hl,show decide (l.protState=.active)=false from decide_eq_false hne] at hk
          rcases (p9RouteReply_early x e (hookedLink x e conn l s buf) out).2 with hr | ⟨harm,_⟩
          · rw [hr] at hk
            exact hk
          · exact .inl harm
      obtain ⟨ho,ht⟩ := hookedLink_keyed h hhook
      refine ⟨ho,?_⟩
      unfold VersionLog.after
      rw [hb,hresp,Option.bind_some]
      cases hreq : x.deserialize buf with
      | none => rfl
      | some req =>
        dsimp only
        rw [VersionLog.note,if_pos (ht req hreq)]

theorem p9LinkPump_plain (h : ¬l.Keyed) (rx : Received) :
    let r := p9LinkPump x e conn l s rx
    (∀b,r.handed=some b → rx=.frame b) ∧
    ∀out,r.sent=some out → ∃resp n,r.resp=some resp ∧ x.serialize resp n=some out := by
  dsimp only
  rcases @p9LinkPump_unkeyed x e conn l s h rx with
    ⟨_,_,hno,hsent⟩ | ⟨buf,hrx,hr⟩
  · rw [hno,hsent]
    exact ⟨fun b hb => (by cases hb),fun out ho => (by cases ho)⟩
  · rw [hr]
    rcases p9RouteFrame_cases x e conn l s buf with ⟨_,_,hno,hsent⟩ | ⟨hb,hresp,_,hlink⟩
    · rw [hno,hsent]
      exact ⟨fun b hb => (by cases hb),fun out ho => (by cases ho)⟩
    · rw [hb,hresp]
      refine ⟨fun b he => by cases he; exact hrx,fun out ho => ?_⟩
      have hne : l.protState≠.active := fun ha => h (.inr (.inl ha))
      rcases hlink with ⟨_,hsent⟩ | ⟨o,n,hser,_,hsent⟩
      · rw [hsent] at ho
        cases ho
      · rw [hsent,show decide (l.protState=.active)=false from decide_eq_false hne,
          (p9RouteReply_early x e _ o).1] at ho
        cases ho
        exact ⟨_,n,rfl,hser⟩

end

/-- As long as no Tversion is answered without the extension while a session is offered: a key is
accepted only when the last Tversion offered the extension and got it, and from then on every
Tversion is refused; after an Rversion that names plain 9P2000 frames go untagged both ways; and a
key is in force exactly when the last Rversion named the extension and an auth response was
accepted after it. -/
theorem p9Session_negotiated (x : P9Wire) (conn : Nat) (l : P9Link) (s0 : Server)
    (h : List TalkEvent) (t : Talk) (hl : l.prot=none)
    (hr : Reach (TalkStep x conn (OffersAgain x)) {link := l, server := s0} h t) :
    (t.link.Keyed → ∃refused rest,t.past.log=refused++(true,some true)::rest ∧
      ∀r∈refused,r.2=none) ∧
    (∀e rx,¬t.link.Keyed → (t.pump x conn e rx).link.Keyed →
      (t.pump x conn e rx).past.log.head?=some (true,some true)) ∧
    (t.past.last=some false → ∀e rx,let r := p9LinkPump x e conn t.link t.server rx
      (∀b,r.handed=some b → rx=.frame b) ∧
      ∀out,r.sent=some out → ∃resp n,r.resp=some resp ∧ x.serialize resp n=some out) ∧
    (t.link.Keyed ↔ t.past.last=some true ∧ t.past.proved=true) := by
  have hi := negotiated_reach hl hr
  have hlast (hk : t.link.Keyed) : t.past.last=some true := by
    obtain ⟨_,refused,rest,hlog,hn⟩ := hi.keyed hk
    exact last_of_refused hlog hn
  refine ⟨fun hk => (hi.keyed hk).2,fun e rx hn hk => ?_,fun hp e rx => ?_,?_⟩
  · obtain ⟨ho,hlog⟩ := p9LinkPump_keyed (v := t.past) hn rx hk
    rw [Talk.pump]
    dsimp only
    rw [hlog]
    exact (hi.offered ho).1
  · refine p9LinkPump_plain (fun hk => ?_) rx
    rw [hlast hk] at hp
    cases hp
  · refine ⟨fun hk => ⟨hlast hk,(hi.keyed hk).1⟩,?_⟩
    rintro ⟨hv,hp⟩
    by_contra hk
    rcases unkeyed_cases hk with hs | hs
    · exact hi.plain hs hv
    · rw [(hi.offered hs).2] at hp
      cases hp

/-- A Tversion that does not offer the extension. -/
def plainVersionFrame : Bytes := [9,0,0,0,100,0,0,0,1]

/-- The sample frames one after another. -/
def Talk.frames (t : Talk) (frames : List Bytes) : Talk :=
  frames.foldl (fun t buf => t.pump sampleWire 1 sampleEnv (.frame buf)) t

def startTalk : Talk := {link := {protGet := true}, server := p9Init}

/-- Tversion, Tauth and its response: the session is active. -/
theorem p9Session_negotiated_sample : (startTalk.frames [sampleFrame 100,sampleFrame 102,
    sampleFrame 118]).link.protState=.active ∧
    (startTalk.frames [sampleFrame 100,sampleFrame 102,sampleFrame 118]).past.last=some true := by
  obtain ⟨h,hr⟩ : ∃h,Reach (TalkStep sampleWire 1 (OffersAgain sampleWire)) startTalk h
      (startTalk.frames [sampleFrame 100,sampleFrame 102,sampleFrame 118]) := by
    refine ⟨_,((Reach.start.next (.pump _ sampleEnv (.frame (sampleFrame 100)) ?_)).next
      (.pump _ sampleEnv (.frame (sampleFrame 102)) ?_)).next
      (.pump _ sampleEnv (.frame (sampleFrame 118)) ?_)⟩
    · rintro _ _ _ ⟨⟩ hreq ht
      cases hreq
      cases ht
    · exact fun ho => absurd ho (by decide)
    · rintro _ _ _ ⟨⟩ hreq ht
      cases hreq
      cases ht
  have ha : (startTalk.frames [sampleFrame 100,sampleFrame 102,
    sampleFrame 118]).link.protState=.active := by decide
  exact ⟨ha,((p9Session_negotiated sampleWire 1 _ _ _ _ rfl hr).2.2.2.mp (.inr (.inl ha))).1⟩

/-- An offer outlives the plain Tversion after it: the session is active although the last Rversion
named plain 9P2000. -/
theorem p9Session_stale_offer : ¬∀(x : P9Wire) (conn : Nat) (l : P9Link) (s0 : Server)
    (h : List TalkEvent) (t : Talk),l.prot=none →
    Reach (TalkStep x conn fun _ _ _ => True) {link := l, server := s0} h t →
    t.link.protState=.active → t.past.last≠some false := by
  intro hall
  have hr : Reach (TalkStep sampleWire 1 fun _ _ _ => True) startTalk _
      (startTalk.frames [sampleFrame 100,plainVersionFrame,sampleFrame 102,sampleFrame 118]) :=
    (((Reach.start.next (.pump _ sampleEnv (.frame (sampleFrame 100)) trivial)).next
      (.pump _ sampleEnv (.frame plainVersionFrame) trivial)).next
      (.pump _ sampleEnv (.frame (sampleFrame 102)) trivial)).next
      (.pump _ sampleEnv (.frame (sampleFrame 118)) trivial)
  exact hall _ _ _ _ _ _ rfl hr (by decide) (by decide)

end LugalOS.P9
