import LugalOS.Chan.Calls

/-! The endpoint as a desk with room for one visitor: it leaves a request, and takes away what the
clerk gave to that request. Visitor and clerk share the desk's papers without a lock. -/

namespace LugalOS.Chan

/-- How far the visitor is. -/
inductive Stage where
  | copies (i : Nat)
  | ready
  | sized
  | named
  | reset
  | waits
  | answered
  | takes (n : Nat) (got : List UInt8)
  | leaves (ret : Int) (out : List UInt8)

/-- A visitor that has no request out can give up. -/
def Stage.quits : Stage → Bool
  | .copies _ => true
  | .ready => true
  | .answered => true
  | .takes _ _ => true
  | _ => false

/-- How far the clerk is: away, having seen a request, at work on it, or with the parts of its
answer given. -/
inductive Clerk where
  | off
  | saw
  | works (len : Nat) (reads : List (Nat × UInt8))
  | wrote
  | unset
  | calls (caller : Option Nat)

/-- The visitor, and how many replies had been given when it came. -/
structure Visit where
  ctx : Nat
  args : Args
  mark : Nat
  stage : Stage

structure Desk where
  visit : Option Visit
  clerk : Clerk
  caller : Option Nat
  reqLen : Nat
  reply : Int
  pending : Bool
  req : Nat → UInt8
  resp : Nat → UInt8
  respCap : Nat
  log : List Served

namespace Desk

def at_ (d : Desk) (v : Visit) (k : Stage) : Desk := {d with visit := some {v with stage := k}}

inductive Step : Desk → Desk → Prop
  | comes {d : Desk} (c : Nat) (a : Args) : d.visit=none →
      Step d {d with visit := some ⟨c,a,d.log.length,.copies 0⟩}
  | copy {d : Desk} {v : Visit} {i : Nat} {b : UInt8} : d.visit=some v → v.stage=.copies i →
      v.args.req[i]?=some b → Step d ({d with req := Function.update d.req i b}.at_ v (.copies (i+1)))
  | copied {d : Desk} {v : Visit} {i : Nat} : d.visit=some v → v.stage=.copies i →
      v.args.req[i]?=none → Step d (d.at_ v .ready)
  | size {d : Desk} {v : Visit} : d.visit=some v → v.stage=.ready →
      Step d ({d with reqLen := v.args.req.length}.at_ v .sized)
  | name {d : Desk} {v : Visit} : d.visit=some v → v.stage=.sized →
      Step d ({d with caller := some v.ctx}.at_ v .named)
  | reset {d : Desk} {v : Visit} : d.visit=some v → v.stage=.named →
      Step d ({d with reply := -1}.at_ v .reset)
  | post {d : Desk} {v : Visit} : d.visit=some v → v.stage=.reset →
      Step d ({d with pending := true}.at_ v .waits)
  | sees {d : Desk} {v : Visit} : d.visit=some v → v.stage=.waits → d.caller≠some v.ctx →
      Step d (d.at_ v .answered)
  | take {d : Desk} {v : Visit} : d.visit=some v → v.stage=.answered → 0≤d.reply →
      d.reply≤d.respCap → Step d (d.at_ v (.takes d.reply.toNat []))
  | took {d : Desk} {v : Visit} : d.visit=some v → v.stage=.answered → 0≤d.reply →
      d.reply≤d.respCap → (v.args.user ∨ v.args.resp → d.reply=0) →
      Step d (d.at_ v (.leaves d.reply []))
  | byte {d : Desk} {v : Visit} {n : Nat} {got : List UInt8} : d.visit=some v →
      v.stage=.takes n got → got.length<n →
      Step d (d.at_ v (.takes n (got++[d.resp got.length])))
  | all {d : Desk} {v : Visit} {n : Nat} {got : List UInt8} : d.visit=some v →
      v.stage=.takes n got → n≤got.length → Step d (d.at_ v (.leaves n got))
  | fails {d : Desk} {v : Visit} : d.visit=some v → v.stage.quits=true →
      Step d (d.at_ v (.leaves (-1) []))
  | goes {d : Desk} {v : Visit} {ret : Int} {out : List UInt8} : d.visit=some v →
      v.stage=.leaves ret out → Step d {d with visit := none}
  | see {d : Desk} : d.clerk=.off → d.pending=true → Step d {d with clerk := .saw}
  | look {d : Desk} : d.clerk=.saw → Step d {d with clerk := .works d.reqLen []}
  | read {d : Desk} {len : Nat} {reads : List (Nat × UInt8)} {i : Nat} :
      d.clerk=.works len reads → i<len →
      Step d {d with clerk := .works len (reads++[(i,d.req i)])}
  | write {d : Desk} {len : Nat} {reads : List (Nat × UInt8)} (i : Nat) (b : UInt8) :
      d.clerk=.works len reads → Step d {d with resp := Function.update d.resp i b}
  | reply {d : Desk} {len : Nat} {reads : List (Nat × UInt8)} {n : Nat} :
      d.clerk=.works len reads → n<0x100000000 →
      Step d {d with
        clerk := .wrote,reply := toInt n,
        log := d.log++[Served.mk len reads ((List.range (min n d.respCap)).map d.resp)]}
  /-- The clerk has gone for good: it answers with a failure. -/
  | refuses {d : Desk} : d.clerk=.saw → Step d {d with clerk := .wrote,reply := -1}
  | unset {d : Desk} : d.clerk=.wrote → Step d {d with clerk := .unset,pending := false}
  | asks {d : Desk} : d.clerk=.unset → Step d {d with clerk := .calls d.caller}
  | clear {d : Desk} {who : Option Nat} : d.clerk=.calls who →
      Step d {d with clerk := .off,caller := none}
  | drop {d : Desk} : d.clerk=.saw ∨ (∃len reads,d.clerk=.works len reads) →
      Step d {d with clerk := .off}

end Desk

/-- The reply was given to this request: its length, and every byte of it that was read. -/
def Served.For (e : Served) (req : List UInt8) : Prop :=
  e.len=req.length ∧ ∀x∈e.reads,req[x.1]?=some x.2

/-- A call's success, with the replies given during it: there was one, to the call's own request,
and it is what the call returns. -/
def Right (a : Args) (ret : Int) (out : List UInt8) (served : List Served) : Prop :=
  0 ≤ ret → ∃e,served=[e] ∧ e.For a.req ∧ ret=e.reply.length ∧ (a.user ∨ a.resp → out=e.reply)

def Clerk.Working (v : Visit) : Clerk → Prop
  | .off => True
  | .saw => True
  | .works len reads => Served.For ⟨len,reads,[]⟩ v.args.req
  | _ => False

def Clerk.Ends (v : Visit) (pending : Bool) : Clerk → Prop
  | .wrote => pending=true
  | .unset => pending=false
  | .calls who => pending=false ∧ who=some v.ctx
  | _ => False

namespace Desk

variable {d d' : Desk} {v : Visit}

/-- No request is out, and the clerk is not at the desk. -/
def Quiet (d : Desk) : Prop := d.caller=none ∧ d.pending=false ∧ d.clerk=.off

def since (d : Desk) (v : Visit) : List Served := d.log.drop v.mark

/-- The first i bytes of the visitor's request are on the desk. -/
def Copied (d : Desk) (v : Visit) (i : Nat) : Prop :=
  ∀j b,j < i → v.args.req[j]?=some b → d.req j=b

/-- The visitor is named as the caller, and its whole request lies on the desk. -/
def Asked (d : Desk) (v : Visit) : Prop :=
  d.caller=some v.ctx ∧ d.reqLen=v.args.req.length ∧ d.Copied v v.args.req.length

/-- The answer is there: a failure, or a reply to the visitor's request. -/
def Given (d : Desk) (v : Visit) : Prop :=
  d.reply= -1 ∧ d.since v=[] ∨
  ∃e n,d.since v=[e] ∧ e.For v.args.req ∧ d.reply=toInt n ∧ n<0x100000000 ∧
    e.reply=(List.range (min n d.respCap)).map d.resp

/-- While the visitor waits: its request is out, being answered, or answered. -/
def Waiting (d : Desk) (v : Visit) : Prop :=
  d.Asked v ∧ d.pending=true ∧ d.since v=[] ∧ d.clerk.Working v ∨
  d.Asked v ∧ d.Given v ∧ d.clerk.Ends v d.pending ∨
  d.Quiet ∧ d.Given v

def Holds (d : Desk) (v : Visit) : Stage → Prop
  | .copies i => d.Quiet ∧ d.since v=[] ∧ d.Copied v i
  | .ready => d.Quiet ∧ d.since v=[] ∧ d.Copied v v.args.req.length
  | .sized => d.Quiet ∧ d.since v=[] ∧ d.Copied v v.args.req.length ∧ d.reqLen=v.args.req.length
  | .named => d.Asked v ∧ d.pending=false ∧ d.clerk=.off ∧ d.since v=[]
  | .reset => d.Asked v ∧ d.pending=false ∧ d.clerk=.off ∧ d.since v=[]
  | .waits => d.Waiting v
  | .answered => d.Quiet ∧ d.Given v
  | .takes n got => d.Quiet ∧ n<0x100000000 ∧ got.length≤n ∧
      got=(List.range got.length).map d.resp ∧
      ∃e,d.since v=[e] ∧ e.For v.args.req ∧ e.reply=(List.range n).map d.resp
  | .leaves ret out => d.Quiet ∧ Right v.args ret out (d.since v)

/-- The desk's invariant. -/
structure Ok (d : Desk) : Prop where
  alone : d.visit=none → d.Quiet
  visit : ∀v,d.visit=some v → v.mark≤d.log.length ∧ d.Holds v v.stage

theorem Ok.stage (h : Ok d) (hv : d.visit=some v) {k : Stage} (hk : v.stage=k) :
    v.mark≤d.log.length ∧ d.Holds v k := hk ▸ h.visit v hv

theorem ok_of (hv : d.visit=some v) (hm : v.mark≤d.log.length) (h : d.Holds v v.stage) : Ok d := by
  refine ⟨fun hn => ?_,fun w hw => ?_⟩
  · rw [hv] at hn; cases hn
  · rw [hv] at hw; cases hw; exact ⟨hm,h⟩

theorem ok_at {k : Stage} (hm : v.mark≤d.log.length) (h : (d.at_ v k).Holds {v with stage := k} k) :
    Ok (d.at_ v k) := ok_of (v := {v with stage := k}) rfl hm h

theorem Holds.quits {k : Stage} (h : d.Holds v k) (hk : k.quits=true) : d.Quiet := by
  cases k <;> first | exact h.1 | cases hk

theorem Ok.waiting (h : Ok d) (hc : d.clerk≠.off ∨ d.pending=true) :
    ∃v,d.visit=some v ∧ v.stage=.waits ∧ v.mark≤d.log.length ∧ d.Waiting v := by
  have hq : ¬d.Quiet := fun hq => hc.elim (· hq.2.2) fun hp => by rw [hq.2.1] at hp; cases hp
  cases hv : d.visit with
  | none => exact absurd (h.alone hv) hq
  | some v =>
    obtain ⟨hm,hh⟩ := h.visit v hv
    refine ⟨v,rfl,?_⟩
    cases hk : v.stage with
    | waits => rw [hk] at hh; exact ⟨rfl,hm,hh⟩
    | named | reset =>
      rw [hk] at hh
      exact absurd hh.2.2.1 (hc.resolve_right fun hp => by rw [hh.2.1] at hp; cases hp)
    | _ => rw [hk] at hh; exact absurd hh.1 hq

theorem Ok.working (h : Ok d) (hc : d.clerk≠.off ∧ ∀v p,¬d.clerk.Ends v p) :
    ∃v,d.visit=some v ∧ v.stage=.waits ∧ v.mark≤d.log.length ∧
      d.Asked v ∧ d.pending=true ∧ d.since v=[] ∧ d.clerk.Working v := by
  obtain ⟨v,hv,hk,hm,hw | ⟨_,_,he⟩ | ⟨hq,_⟩⟩ := h.waiting (.inl hc.1)
  · exact ⟨v,hv,hk,hm,hw⟩
  · exact absurd he (hc.2 v _)
  · exact absurd hq.2.2 hc.1

theorem Ok.ending (h : Ok d) (hc : d.clerk≠.off ∧ ∀v,¬d.clerk.Working v) :
    ∃v,d.visit=some v ∧ v.stage=.waits ∧ v.mark≤d.log.length ∧
      d.Asked v ∧ d.Given v ∧ d.clerk.Ends v d.pending := by
  obtain ⟨v,hv,hk,hm,⟨_,_,_,hw⟩ | hw | ⟨hq,_⟩⟩ := h.waiting (.inl hc.1)
  · exact absurd hw (hc.2 v)
  · exact ⟨v,hv,hk,hm,hw⟩
  · exact absurd hq.2.2 hc.1

theorem Ok.still (h : d.visit=some v) (hk : v.stage=.waits) (hv : d'.visit=d.visit)
    (hm : v.mark≤d'.log.length) (hw : d'.Waiting v) : Ok d' :=
  ok_of (hv.trans h) hm (by rw [hk]; exact hw)

theorem since_log {e : Served} (hm : v.mark≤d.log.length) (hs : d.since v=[]) :
    (d.log++[e]).drop v.mark=[e] := by
  rw [List.drop_append_of_le_length hm,show d.log.drop v.mark=[] from hs]
  rfl

theorem Given.taken (h : d.Given v) (h0 : 0≤d.reply) (hc : d.reply≤d.respCap) :
    ∃e n,d.since v=[e] ∧ e.For v.args.req ∧ d.reply=(n : Nat) ∧ n<0x100000000 ∧
      e.reply=(List.range n).map d.resp := by
  rcases h with ⟨hr,_⟩ | ⟨e,n,hs,hf,hr,hn,he⟩
  · omega
  · have hd : d.reply=(d.reply.toNat : Int) := (Int.toNat_of_nonneg h0).symm
    have hi : n=d.reply.toNat := toInt_eq hn (hr.symm.trans hd)
    refine ⟨e,n,hs,hf,by omega,hn,?_⟩
    rw [he,Nat.min_eq_left (by omega)]

theorem Step.ok (hs : Step d d') (h : Ok d) : Ok d' := by
  cases hs with
  | comes c a hv =>
    exact ok_of rfl (Nat.le_refl _)
      ⟨h.alone hv,List.drop_length,fun j b hj => absurd hj (Nat.not_lt_zero j)⟩
  | @copy v i b hv hk hb =>
    obtain ⟨hm,hq,hn,hc⟩ := h.stage hv hk
    refine ok_at hm ⟨hq,hn,fun j x hj hx => ?_⟩
    by_cases hji : j=i
    · subst hji
      exact (Function.update_self ..).trans (Option.some.inj (hb.symm.trans hx))
    · exact (Function.update_of_ne hji ..).trans (hc j x (by omega) hx)
  | @copied v i hv hk hb =>
    obtain ⟨hm,hq,hn,hc⟩ := h.stage hv hk
    rw [List.getElem?_eq_none_iff] at hb
    exact ok_at hm ⟨hq,hn,fun j x hj => hc j x (Nat.lt_of_lt_of_le hj hb)⟩
  | size hv hk =>
    obtain ⟨hm,hq,hn,hc⟩ := h.stage hv hk
    exact ok_at hm ⟨hq,hn,hc,rfl⟩
  | name hv hk =>
    obtain ⟨hm,hq,hn,hc,hl⟩ := h.stage hv hk
    exact ok_at hm ⟨⟨rfl,hl,hc⟩,hq.2.1,hq.2.2,hn⟩
  | reset hv hk =>
    obtain ⟨hm,ha,hp,hq,hn⟩ := h.stage hv hk
    exact ok_at hm ⟨ha,hp,hq,hn⟩
  | @post v hv hk =>
    obtain ⟨hm,ha,_,hq,hn⟩ := h.stage hv hk
    refine ok_at hm (.inl ⟨ha,rfl,hn,?_⟩)
    change d.clerk.Working _
    rw [hq]
    trivial
  | sees hv hk hc =>
    obtain ⟨hm,hw⟩ := h.stage hv hk
    rcases hw with ⟨ha,_⟩ | ⟨ha,_⟩ | hg
    · exact absurd ha.1 hc
    · exact absurd ha.1 hc
    · exact ok_at hm hg
  | take hv hk h0 hc =>
    obtain ⟨hm,hq,hg⟩ := h.stage hv hk
    obtain ⟨e,n,hs,hf,hr,hn,he⟩ := hg.taken h0 hc
    rw [hr,Int.toNat_natCast]
    exact ok_at hm ⟨hq,hn,Nat.zero_le _,rfl,e,hs,hf,he⟩
  | took hv hk h0 hc hz =>
    obtain ⟨hm,hq,hg⟩ := h.stage hv hk
    obtain ⟨e,n,hs,hf,hr,hn,he⟩ := hg.taken h0 hc
    refine ok_at hm ⟨hq,fun _ => ⟨e,hs,hf,by rw [hr,he]; simp,fun hu => ?_⟩⟩
    have hn : n=0 := by have := hz hu; omega
    rw [he,hn]
    rfl
  | byte hv hk hl =>
    obtain ⟨hm,hq,hn,_,hg,he⟩ := h.stage hv hk
    refine ok_at hm ⟨hq,hn,?_,?_,he⟩
    · rw [List.length_append]; exact hl
    · rw [List.length_append,List.length_singleton,List.range_succ,List.map_append]
      exact congrArg (·++_) hg
  | all hv hk hl =>
    obtain ⟨hm,hq,hn,hle,hg,e,hs,hf,he⟩ := h.stage hv hk
    have hn := Nat.le_antisymm hle hl
    rw [hn] at hg
    refine ok_at hm ⟨hq,fun _ => ⟨e,hs,hf,by rw [he]; simp,fun _ => by rw [he]; exact hg⟩⟩
  | fails hv hk =>
    obtain ⟨hm,hh⟩ := h.visit _ hv
    exact ok_at hm ⟨hh.quits hk,fun h0 => absurd h0 (by decide)⟩
  | goes hv hk =>
    obtain ⟨_,hq,_⟩ := h.stage hv hk
    refine ⟨fun _ => hq,fun w hw => ?_⟩
    cases hw
  | see hc hp =>
    obtain ⟨v,hv,hk,hm,hw⟩ := h.waiting (.inr hp)
    refine Ok.still hv hk rfl hm ?_
    rcases hw with ⟨ha,hp,hn,_⟩ | ⟨_,_,he⟩ | ⟨hq,_⟩
    · exact .inl ⟨ha,hp,hn,trivial⟩
    · rw [hc] at he; exact he.elim
    · rw [hq.2.1] at hp; cases hp
  | look hc =>
    obtain ⟨v,hv,hk,hm,ha,hp,hn,_⟩ := h.working (by simp [hc,Clerk.Ends])
    exact Ok.still hv hk rfl hm (.inl ⟨ha,hp,hn,ha.2.1,fun x hx => by cases hx⟩)
  | @read len reads i hc hi =>
    obtain ⟨v,hv,hk,hm,ha,hp,hn,hw⟩ := h.working (by simp [hc,Clerk.Ends])
    rw [hc] at hw
    have hl : len=v.args.req.length := hw.1
    refine Ok.still hv hk rfl hm (.inl ⟨ha,hp,hn,hl,fun x hx => ?_⟩)
    rcases List.mem_append.mp hx with hx | hx
    · exact hw.2 x hx
    · rw [List.mem_singleton] at hx
      subst hx
      obtain ⟨b,hb⟩ : ∃b,v.args.req[i]?=some b := ⟨_,List.getElem?_eq_getElem (by omega)⟩
      rw [ha.2.2 i b (by omega) hb]
      exact hb
  | write i b hc =>
    obtain ⟨v,hv,hk,hm,hw⟩ := h.working (by simp [hc,Clerk.Ends])
    exact Ok.still hv hk rfl hm (.inl hw)
  | @reply len reads n hc hn =>
    obtain ⟨v,hv,hk,hm,ha,hp,hs,hw⟩ := h.working (by simp [hc,Clerk.Ends])
    rw [hc] at hw
    exact Ok.still hv hk rfl (hm.trans (by simp))
      (.inr (.inl ⟨ha,.inr ⟨_,n,since_log hm hs,hw,rfl,hn,rfl⟩,hp⟩))
  | refuses hc =>
    obtain ⟨v,hv,hk,hm,ha,hp,hs,_⟩ := h.working (by simp [hc,Clerk.Ends])
    exact Ok.still hv hk rfl hm (.inr (.inl ⟨ha,.inl ⟨rfl,hs⟩,hp⟩))
  | unset hc =>
    obtain ⟨v,hv,hk,hm,ha,hg,_⟩ := h.ending (by simp [hc,Clerk.Working])
    exact Ok.still hv hk rfl hm (.inr (.inl ⟨ha,hg,rfl⟩))
  | asks hc =>
    obtain ⟨v,hv,hk,hm,ha,hg,he⟩ := h.ending (by simp [hc,Clerk.Working])
    rw [hc] at he
    exact Ok.still hv hk rfl hm (.inr (.inl ⟨ha,hg,he,ha.1⟩))
  | clear hc =>
    obtain ⟨v,hv,hk,hm,ha,hg,he⟩ := h.ending (by simp [hc,Clerk.Working])
    rw [hc] at he
    exact Ok.still hv hk rfl hm (.inr (.inr ⟨⟨rfl,he.1,rfl⟩,hg⟩))
  | drop hc =>
    obtain ⟨v,hv,hk,hm,ha,hp,hs,_⟩ := h.working (by
      rcases hc with hc | ⟨_,_,hc⟩ <;> simp [hc,Clerk.Ends])
    exact Ok.still hv hk rfl hm (.inl ⟨ha,hp,hs,trivial⟩)

end Desk

end LugalOS.Chan
