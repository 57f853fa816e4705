import Mathlib.Data.List.GetD
import LugalOS.Lib.Run
import LugalOS.Lib.Serial
import LugalOS.Dhcp.Server

namespace LugalOS.Dhcp

open Function (update_of_ne update_self)
open CString Run Serial

section
variable {cfg : Config} {req : Bytes} {d : Dhcpd} {mac : Mac} {t : UInt32}

theorem field_append {n o : Nat} (a b : Bytes) (v : Vector UInt8 n) (ho : a.length=o) :
    field n o (a++v.toList++b)=v := by
  subst ho
  apply Vector.ext
  intro i hi
  rw [field,Vector.getElem_ofFn,List.append_assoc,List.getD_append_right _ _ _ _ (by simp),
    Nat.add_sub_cancel_left,List.getD_append _ _ _ _ (by simpa using hi),
    List.getD_eq_getElem _ _ (by simpa using hi),Vector.getElem_toList]

def Reply.type (r : Reply) : UInt8 := r.written.getD 242 0
def Reply.yiaddr (r : Reply) : Ip := field 4 16 r.written
def Reply.chaddr (r : Reply) : Mac := field 6 28 r.written

theorem replyHead_length (cfg : Config) (req : Bytes) (a : Ip) :
    (replyHead cfg req a).length=240 := by
  simp only [replyHead,magic,List.length_append,List.length_cons,List.length_nil,
    List.length_replicate,Vector.length_toList]

theorem reply_type (cfg : Config) (req : Bytes) (k : UInt8) (a : Option Ip) :
    (reply cfg req k a).type=k := by
  rw [Reply.type,reply]
  dsimp only
  simp only [List.append_assoc]
  rw [List.getD_append_right _ _ _ _ (by rw [replyHead_length]; omega),replyHead_length]
  rfl

theorem reply_yiaddr (cfg : Config) (req : Bytes) (k : UInt8) (a : Ip) :
    (reply cfg req k (some a)).yiaddr=a := by
  rw [Reply.yiaddr,reply,replyHead]
  dsimp only
  simp only [Option.getD_some,List.append_assoc]
  rw [← List.append_assoc,← List.append_assoc,← List.append_assoc,← List.append_assoc]
  exact field_append _ _ a (by simp)

theorem reply_chaddr (cfg : Config) (req : Bytes) (k : UInt8) (a : Option Ip) :
    (reply cfg req k a).chaddr=clientMac req := by
  rw [Reply.chaddr,reply,replyHead]
  dsimp only
  simp only [List.append_assoc]
  rw [← List.append_assoc,← List.append_assoc,← List.append_assoc,← List.append_assoc,
    ← List.append_assoc,← List.append_assoc,← List.append_assoc]
  exact field_append _ _ (clientMac req) (by simp)

/-- The portal's address is left out, or short enough for what the buffer has left for it. -/
def PortalFits (cfg : Config) : Prop :=
  ∀uri,cfg.portalUri=some uri → uri.length≤32 ∨ 100≤uri.length

theorem reply_fits_iff (cfg : Config) (req : Bytes) (k : UInt8) (a : Option Ip) :
    (reply cfg req k a).written.length≤dhcpdMaxReply ↔ k=msgNak ∨ PortalFits cfg := by
  have hp : (portalOption cfg).length≤34 ↔ PortalFits cfg := by
    unfold portalOption PortalFits
    cases cfg.portalUri with
    | none => simp
    | some uri =>
      dsimp only
      split_ifs with h
      · simp
        omega
      · simp
        omega
  simp only [reply,List.length_append,replyHead_length,dhcpdMaxReply]
  split_ifs with hk
  · simp [hk]
  · rw [or_iff_right hk,← hp]
    simp [leaseOptions,wr32]
    omega

theorem reply_fits {cfg : Config} (h : PortalFits cfg) (req : Bytes) (k : UInt8)
    (a : Option Ip) : (reply cfg req k a).written.length≤dhcpdMaxReply ∧
    (reply cfg req k a).len≤dhcpdMaxReply := by
  have hl := (reply_fits_iff cfg req k a).mpr (.inr h)
  exact ⟨hl,Nat.max_le.mpr ⟨by decide,hl⟩⟩

theorem leaseLive_iff (l : Lease) (ht : t.toNat<2^31) (hu : l.untilS.toNat≤t.toNat+3600) :
    leaseLive l t=true ↔ t.toNat<l.untilS.toNat := by
  rw [leaseLive,Bool.and_eq_true,decide_eq_true_iff,decide_eq_true_iff,toInt32_pos,
    UInt32.toNat_sub,ne_eq,← UInt32.toNat_inj]
  simp only [UInt32.toNat_zero]
  omega

/-- leaseFor finds the client's live lease; it takes a free slot only where there is none. -/
theorem leaseFor_some {i : Fin dhcpdLeases} (h : leaseFor d mac t=some i) :
    (leaseLive (d.lease i) t=true ∧ (d.lease i).mac=mac) ∨
    (leaseLive (d.lease i) t=false ∧ ∀j,leaseLive (d.lease j) t=true → (d.lease j).mac≠mac) := by
  rw [leaseFor] at h
  cases h1 : (List.finRange dhcpdLeases).find?
      fun i => leaseLive (d.lease i) t && (d.lease i).mac==mac with
  | some j =>
    rw [h1] at h
    cases h
    exact .inl (by simpa using List.find?_some h1)
  | none =>
    rw [h1,Option.none_or] at h
    refine .inr ⟨by simpa using List.find?_some h,fun j hj hm => ?_⟩
    have := List.find?_eq_none.mp h1 j (List.mem_finRange j)
    simp [hj,hm] at this

theorem poolIp_inj {i j : Fin dhcpdLeases} (h : poolIp cfg i=poolIp cfg j) : i=j := by
  have h3 : cfg.firstIp[3]+i.1.toUInt8=cfg.firstIp[3]+j.1.toUInt8 := by
    have := congrArg (fun v : Ip => v[3]) h
    simpa [poolIp] using this
  have h4 := congrArg UInt8.toNat h3
  simp only [UInt8.toNat_add,Nat.toUInt8,UInt8.toNat_ofNat'] at h4
  have hi := i.2
  have hj := j.2
  simp only [dhcpdLeases] at hi hj
  exact Fin.ext (by omega)

end

/-- One message handled, and what was answered. -/
structure Exchange where
  req : Bytes
  now : UInt32
  reply : Option Reply

/-- The answer has this type and gives this address to this client. -/
def Exchange.Sends (e : Exchange) (type : UInt8) (a : Ip) (m : Mac) : Prop :=
  ∃r,e.reply=some r ∧ r.type=type ∧ r.yiaddr=a ∧ r.chaddr=m

def Exchange.Gives (e : Exchange) (a : Ip) (m : Mac) : Prop :=
  e.Sends msgOffer a m ∨ e.Sends msgAck a m

/-- The client releases or declines what it has, and the message is for this server. -/
def Exchange.GivesUp (cfg : Config) (e : Exchange) (m : Mac) : Prop :=
  clientMac e.req=m ∧
  (requestType cfg e.req=some msgRelease ∨ requestType cfg e.req=some msgDecline)

structure World where
  d : Dhcpd
  now : UInt32

def start (cfg : Config) : World := ⟨dhcpdInit cfg,0⟩

/-- A message handled at a time that is not before the last one's. -/
def Step (s : World) (e : Exchange) (s' : World) : Prop :=
  s.now≤e.now ∧ e.now.toNat<2^31 ∧ dhcpdHandle s.d e.req e.now=(s'.d,e.reply) ∧ s'.now=e.now

/-- The message is not a DISCOVER of a client whose lease runs for longer than an offer does. -/
def Lasting (s : World) (e : Exchange) : Prop :=
  requestType s.d.cfg e.req=some msgDiscover → ∀i,leaseLive (s.d.lease i) e.now=true →
    (s.d.lease i).mac=clientMac e.req → (s.d.lease i).untilS.toNat≤e.now.toNat+offerHoldS.toNat

/-- An acknowledged address is given to no one else while it is leased. -/
def Kept (cfg : Config) (h : List Exchange) : Prop :=
  ∀post e2 mid e1 pre,h=post++e2::mid++e1::pre → ∀a m m',e1.Sends msgAck a m → e2.Gives a m' →
    m'≠m → (∀e∈mid,¬e.GivesUp cfg m) → e1.now.toNat+dhcpdLeaseS.toNat≤e2.now.toNat

/-- What holds of a server and of everything it has answered. -/
structure LeaseSafety (cfg : Config) (h : List Exchange) (s : World) : Prop where
  kept : Kept cfg h
  single : ∀t : UInt32,s.now≤t → t.toNat<2^31 → ∀i j,leaseLive (s.d.lease i) t=true →
    leaseLive (s.d.lease j) t=true → (s.d.lease i).mac=(s.d.lease j).mac → i=j
  pooled : ∀e∈h,∀a m,e.Gives a m → ∃i<dhcpdLeases,a=poolIp cfg i
  asked : ∀e∈h,∀a m,e.Sends msgAck a m → a=askedIp e.req
  parsed : ∀e∈h,∀code p l,findOption (options e.req) code=some (p,l) →
    240+p+l.toNat≤e.req.length
  written : ∀e∈h,∀r,e.reply=some r → r.written.length≤dhcpdMaxReply ∧ r.len≤dhcpdMaxReply

/-- What slot i is given for: an offer held for a while, or the lease that was asked for. -/
def Grants (d : Dhcpd) (req : Bytes) (i : Fin dhcpdLeases) (type : UInt8) (k : UInt32) : Prop :=
  requestType d.cfg req=some msgDiscover ∧ type=msgOffer ∧ k=offerHoldS ∨
  (d.lease i).ip=askedIp req ∧ type=msgAck ∧ k=dhcpdLeaseS

/-- What a message can do: nothing, or end the client's leases, or give slot i, which is the
client's or free, to the client. -/
inductive Handled (d : Dhcpd) (req : Bytes) (now : UInt32) : Dhcpd → Option Reply → Prop
  | silent : Handled d req now d none
  | refused : Handled d req now d (some (reply d.cfg req msgNak none))
  | released : requestType d.cfg req=some msgRelease ∨ requestType d.cfg req=some msgDecline →
      Handled d req now (releaseLeases d (clientMac req) now) none
  | given (i : Fin dhcpdLeases) (type : UInt8) (k : UInt32) (b : Bool) :
      leaseFor d (clientMac req) now=some i → Grants d req i type k →
      Handled d req now
        (d.set i {d.lease i with mac := clientMac req, untilS := now+k, offeredOnly := b})
        (some (reply d.cfg req type (some (d.lease i).ip)))

theorem handle_cases (d : Dhcpd) (req : Bytes) (now : UInt32) :
    Handled d req now (dhcpdHandle d req now).1 (dhcpdHandle d req now).2 := by
  unfold dhcpdHandle
  split
  · exact .silent
  · next type ht =>
    by_cases h1 : type=msgRelease ∨ type=msgDecline
    · rw [if_pos h1]
      exact .released (h1.imp (fun h => by rw [ht,h]) (fun h => by rw [ht,h]))
    rw [if_neg h1]
    by_cases h2 : type=msgDiscover
    · rw [if_pos h2,handleDiscover]
      split
      · exact .silent
      · next i hi => exact .given i _ _ _ hi (.inl ⟨by rw [ht,h2],rfl,rfl⟩)
    rw [if_neg h2]
    by_cases h3 : type=msgRequest
    · rw [if_pos h3,handleRequest]
      dsimp only
      split
      · exact .refused
      · next i hi =>
        by_cases hip : (d.lease i).ip=askedIp req
        · rw [if_pos hip]
          exact .given i _ _ _ hi (.inr ⟨hip,rfl,rfl⟩)
        · rw [if_neg hip]
          exact .refused
    · rw [if_neg h3]
      exact .silent

section
variable {d d' : Dhcpd} {req : Bytes} {now : UInt32} {r : Option Reply}

theorem Handled.cfg (h : Handled d req now d' r) : d'.cfg=d.cfg := by
  cases h <;> rfl

theorem Handled.ip (h : Handled d req now d' r) (i : Fin dhcpdLeases) :
    (d'.lease i).ip=(d.lease i).ip := by
  cases h with
  | silent | refused => rfl
  | released =>
    dsimp only [releaseLeases]
    split_ifs <;> rfl
  | given j =>
    dsimp only [Dhcpd.set]
    by_cases hj : i=j
    · rw [hj,update_self]
    · rw [update_of_ne hj]

theorem Handled.slot (h : Handled d req now d' r) (i : Fin dhcpdLeases) :
    d'.lease i=d.lease i ∨ (d'.lease i).untilS=0 ∨
    leaseFor d (clientMac req) now=some i ∧ (d'.lease i).mac=clientMac req ∧
      ((d'.lease i).untilS=now+offerHoldS ∨ (d'.lease i).untilS=now+dhcpdLeaseS) := by
  cases h with
  | silent | refused => exact .inl rfl
  | released =>
    dsimp only [releaseLeases]
    split_ifs
    · exact .inr (.inl rfl)
    · exact .inl rfl
  | given j type k b hf hg =>
    dsimp only [Dhcpd.set]
    by_cases hj : i=j
    · rw [hj,update_self]
      refine .inr (.inr ⟨hf,rfl,?_⟩)
      rcases hg with ⟨_,_,rfl⟩ | ⟨_,_,rfl⟩
      · exact .inl rfl
      · exact .inr rfl
    · rw [update_of_ne hj]
      exact .inl rfl

end

/-- The table between two messages: the addresses are the pool's, no lease runs for longer than a
lease does, and a client has one at most. -/
structure Table (cfg : Config) (s : World) : Prop where
  config : s.d.cfg=cfg
  now : s.now.toNat<2^31
  ip : ∀i,(s.d.lease i).ip=poolIp cfg i
  bound : ∀i,(s.d.lease i).untilS.toNat ≤ s.now.toNat+dhcpdLeaseS.toNat
  single : ∀i j,s.now.toNat<(s.d.lease i).untilS.toNat → s.now.toNat<(s.d.lease j).untilS.toNat →
    (s.d.lease i).mac=(s.d.lease j).mac → i=j

theorem Table.start (cfg : Config) : Table cfg (start cfg) where
  config := rfl
  now := Nat.two_pow_pos 31
  ip _ := rfl
  bound _ := Nat.zero_le _
  single _ _ hi := absurd hi (Nat.lt_irrefl 0)

section
variable {cfg : Config} {s s' : World} {e : Exchange} {t : UInt32}

theorem Table.live (h : Table cfg s) (hn : s.now≤t) (ht : t.toNat<2^31) (i : Fin dhcpdLeases) :
    leaseLive (s.d.lease i) t=true ↔ t.toNat<(s.d.lease i).untilS.toNat := by
  have hb := h.bound i
  rw [UInt32.le_iff_toNat_le] at hn
  exact leaseLive_iff _ ht (by rw [show dhcpdLeaseS.toNat=3600 from rfl] at hb; omega)

theorem step_handled (hs : Step s e s') : Handled s.d e.req e.now s'.d e.reply := by
  have h := handle_cases s.d e.req e.now
  rw [hs.2.2.1] at h
  exact h

theorem until_lease (ht : t.toNat<2^31) :
    (t+offerHoldS).toNat=t.toNat+30 ∧ (t+dhcpdLeaseS).toNat=t.toNat+3600 := by
  constructor
  · rw [UInt32.toNat_add,show offerHoldS.toNat=30 from rfl]
    omega
  · rw [UInt32.toNat_add,show dhcpdLeaseS.toNat=3600 from rfl]
    omega

theorem Table.alone (h : Table cfg s) (hn : s.now≤t) (ht : t.toNat<2^31) {i j : Fin dhcpdLeases}
    {m : Mac} (hi : leaseFor s.d m t=some i) (hj : t.toNat<(s.d.lease j).untilS.toNat)
    (hm : (s.d.lease j).mac=m) : j=i := by
  rcases leaseFor_some hi with ⟨hl,hmi⟩ | ⟨_,hno⟩
  · have hl := (h.live hn ht i).mp hl
    rw [UInt32.le_iff_toNat_le] at hn
    exact h.single j i (by omega) (by omega) (hm.trans hmi.symm)
  · exact absurd hm (hno j ((h.live hn ht j).mpr hj))

theorem Table.step (h : Table cfg s) (hs : Step s e s') : Table cfg s' := by
  have hh := step_handled hs
  obtain ⟨hn,ht,_,he⟩ := hs
  obtain ⟨ho,hl⟩ := until_lease ht
  have hle := UInt32.le_iff_toNat_le.mp hn
  have h3600 : dhcpdLeaseS.toNat=3600 := rfl
  refine ⟨hh.cfg.trans h.config,by rw [he]; exact ht,fun i => (hh.ip i).trans (h.ip i),?_,?_⟩
  · intro i
    rw [he]
    rcases hh.slot i with hi | hi | ⟨_,_,hi | hi⟩
    · rw [hi]
      have := h.bound i
      omega
    · rw [hi]
      exact Nat.zero_le _
    · rw [hi]
      omega
    · rw [hi]
      omega
  · intro i j hi hj hm
    rw [he] at hi hj
    have hzero {k : Fin dhcpdLeases} (hk : (s'.d.lease k).untilS=0)
        (hk' : e.now.toNat<(s'.d.lease k).untilS.toNat) : False := by
      rw [hk] at hk'
      cases hk'
    -- an old lease of the client that is given one is the one it is given
    have hold {k l : Fin dhcpdLeases} (hk : s'.d.lease k=s.d.lease k)
        (hk' : e.now.toNat<(s'.d.lease k).untilS.toNat)
        (hl : leaseFor s.d (clientMac e.req) e.now=some l)
        (hm : (s'.d.lease k).mac=clientMac e.req) : k=l := by
      rw [hk] at hk' hm
      exact h.alone hn ht hl hk' hm
    rcases hh.slot i with hi' | hi' | ⟨hfi,hmi,_⟩
    · rcases hh.slot j with hj' | hj' | ⟨hfj,hmj,_⟩
      · rw [hi'] at hi hm
        rw [hj'] at hj hm
        exact h.single i j (by omega) (by omega) hm
      · exact absurd hj (fun hj => hzero hj' hj)
      · exact hold hi' hi hfj (hm.trans hmj)
    · exact absurd hi (fun hi => hzero hi' hi)
    · rcases hh.slot j with hj' | hj' | ⟨hfj,_,_⟩
      · exact (hold hj' hj hfi (hm.symm.trans hmi)).symm
      · exact absurd hj (fun hj => hzero hj' hj)
      · exact Option.some.inj (hfi.symm.trans hfj)

theorem step_gives (hs : Step s e s') {k : UInt8} {a : Ip} {m : Mac} (hr : e.Sends k a m)
    (hk : k=msgOffer ∨ k=msgAck) :
    clientMac e.req=m ∧ ∃i,leaseFor s.d m e.now=some i ∧ (s.d.lease i).ip=a ∧
      (k=msgAck → a=askedIp e.req ∧ (s'.d.lease i).mac=m ∧
        (s'.d.lease i).untilS=e.now+dhcpdLeaseS) := by
  have hh := step_handled hs
  obtain ⟨r,hr,rfl,rfl,rfl⟩ := hr
  rw [hr] at hh
  generalize hd : s'.d=d' at hh ⊢
  cases hh with
  | refused =>
    rw [reply_type] at hk
    exact absurd hk (by decide)
  | given i type k b hf hg =>
    rw [reply_chaddr,reply_yiaddr,reply_type]
    refine ⟨rfl,i,hf,rfl,fun hack => ?_⟩
    rcases hg with ⟨_,ho,_⟩ | ⟨hip,_,rfl⟩
    · rw [ho] at hack
      exact absurd hack (by decide)
    · refine ⟨hip,?_⟩
      dsimp only [Dhcpd.set]
      rw [update_self]
      exact ⟨rfl,rfl⟩

/-- A lease acknowledged in the history stands in the table, for as long as it was promised. -/
def Promised (cfg : Config) (h : List Exchange) (s : World) : Prop :=
  ∀mid e1 pre,h=mid++e1::pre → ∀a m,e1.Sends msgAck a m → (∀e∈mid,¬e.GivesUp cfg m) →
    s.now.toNat<e1.now.toNat+dhcpdLeaseS.toNat →
    ∃i,(s.d.lease i).ip=a ∧ (s.d.lease i).mac=m ∧
      e1.now.toNat+dhcpdLeaseS.toNat≤(s.d.lease i).untilS.toNat

/-- A slot with a live lease is its client's until the client gives it up; a message that does not
shorten it leaves it as long as it was. -/
theorem slot_stands (h : Table cfg s) (hs : Step s e s') (hl : Lasting s e) {i : Fin dhcpdLeases}
    {m : Mac} (hm : (s.d.lease i).mac=m) (hi : e.now.toNat<(s.d.lease i).untilS.toNat)
    (hg : ¬e.GivesUp cfg m) :
    (s'.d.lease i).mac=m ∧ (s.d.lease i).untilS.toNat≤(s'.d.lease i).untilS.toNat := by
  have hh := step_handled hs
  obtain ⟨hn,ht,_,_⟩ := hs
  have hlive := (h.live hn ht i).mpr hi
  have hle := UInt32.le_iff_toNat_le.mp hn
  have hb := h.bound i
  obtain ⟨hoff,hlease⟩ := until_lease ht
  rw [Exchange.GivesUp,← h.config] at hg
  generalize s'.d=d' at hh ⊢
  generalize e.reply=r at hh
  cases hh with
  | silent | refused => exact ⟨hm,Nat.le_refl _⟩
  | released hrel =>
    have hne : (s.d.lease i).mac≠clientMac e.req := fun hc => hg ⟨hc.symm.trans hm,hrel⟩
    dsimp only [releaseLeases]
    rw [if_neg (fun hc => hne hc.1)]
    exact ⟨hm,Nat.le_refl _⟩
  | given j type k b hf hgr =>
    dsimp only [Dhcpd.set]
    by_cases hj : i=j
    · subst hj
      rw [update_self]
      rcases leaseFor_some hf with ⟨_,hmac⟩ | ⟨hdead,_⟩
      · refine ⟨hmac.symm.trans hm,?_⟩
        dsimp only
        rcases hgr with ⟨hty,_,rfl⟩ | ⟨_,_,rfl⟩
        · have := hl hty i hlive hmac
          rw [show offerHoldS.toNat=30 from rfl] at this
          omega
        · rw [show dhcpdLeaseS.toNat=3600 from rfl] at hb
          omega
      · rw [hlive] at hdead
        cases hdead
    · rw [update_of_ne hj]
      exact ⟨hm,Nat.le_refl _⟩

variable {h : List Exchange}

theorem Promised.step (hp : Promised cfg h s) (ht : Table cfg s) (hs : Step s e s')
    (hl : Lasting s e) : Promised cfg (e::h) s' := by
  intro mid e1 pre he a m hack hgive hnow
  have hhn : s'.now=e.now := hs.2.2.2
  have hle := UInt32.le_iff_toNat_le.mp hs.1
  rw [hhn] at hnow
  cases mid with
  | nil =>
    cases he
    obtain ⟨_,i,_,hip,hack⟩ := step_gives hs hack (.inr rfl)
    obtain ⟨_,hm,hu⟩ := hack rfl
    refine ⟨i,((step_handled hs).ip i).trans hip,hm,?_⟩
    rw [hu,(until_lease hs.2.1).2]
    exact Nat.le_refl _
  | cons x mid =>
    cases he
    obtain ⟨i,hip,hm,hu⟩ := hp mid e1 pre rfl a m hack
      (fun y hy => hgive y (List.mem_cons_of_mem _ hy)) (by omega)
    obtain ⟨hm',hu'⟩ := slot_stands ht hs hl hm (by omega) (hgive e List.mem_cons_self)
    exact ⟨i,((step_handled hs).ip i).trans hip,hm',by omega⟩

theorem Kept.step (hk : Kept cfg h) (hp : Promised cfg h s) (ht : Table cfg s)
    (hs : Step s e s') : Kept cfg (e::h) := by
  intro post e2 mid e1 pre he a m m' hack hgive hne hmid
  cases post with
  | cons x post =>
    cases he
    exact hk post e2 mid e1 pre rfl a m m' hack hgive hne hmid
  | nil =>
    cases he
    by_contra hlt
    have hle := UInt32.le_iff_toNat_le.mp hs.1
    obtain ⟨i,hip,hm,hu⟩ := hp mid e1 pre rfl a m hack hmid (by omega)
    have hlive := (ht.live hs.1 hs.2.1 i).mpr (by omega)
    have hgiven : ∃j,leaseFor s.d m' e.now=some j ∧ (s.d.lease j).ip=a := by
      rcases hgive with hg | hg
      · obtain ⟨_,j,hj,hja,_⟩ := step_gives hs hg (.inl rfl)
        exact ⟨j,hj,hja⟩
      · obtain ⟨_,j,hj,hja,_⟩ := step_gives hs hg (.inr rfl)
        exact ⟨j,hj,hja⟩
    obtain ⟨j,hj,hja⟩ := hgiven
    have hij : i=j := poolIp_inj ((ht.ip i).symm.trans ((hip.trans hja.symm).trans (ht.ip j)))
    subst hij
    rcases leaseFor_some hj with ⟨_,hm'⟩ | ⟨hdead,_⟩
    · exact hne (hm'.symm.trans hm)
    · rw [hlive] at hdead
      cases hdead

theorem run_table (hr : Reach (fun s e s' => Step s e s' ∧ Lasting s e) (start cfg) h s) :
    Table cfg s ∧ Promised cfg h s ∧ Kept cfg h := by
  refine hr.invariant (fun h s => Table cfg s ∧ Promised cfg h s ∧ Kept cfg h)
    ⟨Table.start cfg,fun mid e1 pre he => ?_,fun post e2 mid e1 pre he => ?_⟩ ?_
  · cases mid <;> cases he
  · cases post <;> cases he
  · rintro h s e s' ⟨ht,hp,hk⟩ ⟨hs,hl⟩
    exact ⟨ht.step hs,hp.step ht hs hl,hk.step hp ht hs⟩

/-- One answer: its address is of the pool and, acknowledged, the one asked for; the options are
read and the reply is written within their bounds. -/
theorem step_answer (ht : Table cfg s) (hs : Step s e s') (hf : PortalFits cfg) :
    (∀a m,e.Gives a m → ∃i<dhcpdLeases,a=poolIp cfg i) ∧
    (∀a m,e.Sends msgAck a m → a=askedIp e.req) ∧
    (∀code p l,findOption (options e.req) code=some (p,l) → 240+p+l.toNat≤e.req.length) ∧
    ∀r,e.reply=some r → r.written.length≤dhcpdMaxReply ∧ r.len≤dhcpdMaxReply := by
  refine ⟨?_,?_,?_,?_⟩
  · rintro a m (hg | hg)
    · obtain ⟨_,i,_,hi,_⟩ := step_gives hs hg (.inl rfl)
      exact ⟨i,i.2,hi.symm.trans (ht.ip i)⟩
    · obtain ⟨_,i,_,hi,_⟩ := step_gives hs hg (.inr rfl)
      exact ⟨i,i.2,hi.symm.trans (ht.ip i)⟩
  · intro a m hg
    obtain ⟨_,i,_,_,hack⟩ := step_gives hs hg (.inr rfl)
    exact (hack rfl).1
  · intro code p l ho
    have hin := findOption_inside _ _ _ _ ho
    have hpos := findOption_value _ _ _ _ ho
    rw [options,List.length_drop] at hin
    omega
  · intro r hr
    have hh := step_handled hs
    rw [hr] at hh
    rw [← ht.config] at hf
    generalize s'.d=d' at hh
    cases hh with
    | refused | given => exact reply_fits hf _ _ _

/-- In every run in which no client sends a DISCOVER while its lease runs for longer than an offer
is held, and with a portal address that the reply has room for, leases are safe. -/
theorem dhcpd_leases (hf : PortalFits cfg)
    (hr : Reach (fun s e s' => Step s e s' ∧ Lasting s e) (start cfg) h s) :
    LeaseSafety cfg h s := by
  have hall : ∀e∈h,(∀a m,e.Gives a m → ∃i<dhcpdLeases,a=poolIp cfg i) ∧
      (∀a m,e.Sends msgAck a m → a=askedIp e.req) ∧
      (∀code p l,findOption (options e.req) code=some (p,l) → 240+p+l.toNat≤e.req.length) ∧
      ∀r,e.reply=some r → r.written.length≤dhcpdMaxReply ∧ r.len≤dhcpdMaxReply := by
    induction hr with
    | start => exact fun e he => absurd he List.not_mem_nil
    | next hr hs ih =>
      intro e he
      rcases List.mem_cons.mp he with rfl | he
      · exact step_answer (run_table hr).1 hs.1 hf
      · exact ih e he
  obtain ⟨ht,_,hk⟩ := run_table hr
  refine ⟨hk,?_,fun e he => (hall e he).1,fun e he => (hall e he).2.1,
    fun e he => (hall e he).2.2.1,fun e he => (hall e he).2.2.2⟩
  intro t hn htt i j hi hj hm
  have hle := UInt32.le_iff_toNat_le.mp hn
  have hi := (ht.live hn htt i).mp hi
  have hj := (ht.live hn htt j).mp hj
  exact ht.single i j (by omega) (by omega) hm

end

instance (e : Exchange) (k : UInt8) (a : Ip) (m : Mac) : Decidable (e.Sends k a m) :=
  decidable_of_iff (e.reply.any fun r => r.type=k ∧ r.yiaddr=a ∧ r.chaddr=m) (by
    cases hr : e.reply <;> simp [Exchange.Sends,hr])

instance (e : Exchange) (a : Ip) (m : Mac) : Decidable (e.Gives a m) :=
  inferInstanceAs (Decidable (_ ∨ _))

instance (cfg : Config) (e : Exchange) (m : Mac) : Decidable (e.GivesUp cfg m) :=
  inferInstanceAs (Decidable (_ ∧ _))

def handled (s : World) (req : Bytes) (now : UInt32) : World := ⟨(dhcpdHandle s.d req now).1,now⟩

def answered (s : World) (req : Bytes) (now : UInt32) : Exchange :=
  ⟨req,now,(dhcpdHandle s.d req now).2⟩

theorem handled_step (s : World) (req : Bytes) (now : UInt32) (hn : s.now≤now)
    (ht : now.toNat<2^31) : Step s (answered s req now) (handled s req now) :=
  ⟨hn,ht,rfl,rfl⟩

/-- A client's message: its type, the last byte of its address and option 50. -/
def clientMsg (type seed : UInt8) (want : Bytes) : Bytes :=
  [1,1,6,0]++List.replicate 24 0++[2,0,0,0,0,seed]++List.replicate 202 0++magic++
    [53,1,type]++want++[255]

/-- The setup network: 192.168.4.10 is the first of its addresses. -/
def setupNet : Config where
  serverIp := ⟨#[192,168,4,1],rfl⟩
  mask := ⟨#[255,255,255,0],rfl⟩
  firstIp := ⟨#[192,168,4,10],rfl⟩
  portalUri := some (ofString "http://192.168.4.1/")

def client (seed : UInt8) : Mac := ⟨#[2,0,0,0,0,seed],rfl⟩

def asks10 : Bytes := clientMsg msgRequest 1 [50,4,192,168,4,10]

/-- Client 1 discovers, and is acknowledged .10 at 101 s. -/
def offered1 : World := handled (start setupNet) (clientMsg msgDiscover 1 []) 100
def leased1 : World := handled offered1 asks10 101

def start1 : World := start setupNet

theorem offered1_step : Step start1 (answered start1 (clientMsg msgDiscover 1 []) 100) offered1 :=
  handled_step start1 _ 100 (by decide) (by decide)

theorem leased1_step : Step offered1 (answered offered1 asks10 101) leased1 :=
  handled_step offered1 _ 101 (by decide) (by decide)

theorem dhcpd_leases_setup : PortalFits setupNet ∧ LeaseSafety setupNet
    [answered offered1 asks10 101,answered start1 (clientMsg msgDiscover 1 []) 100] leased1 := by
  have hf : PortalFits setupNet := fun uri hu => by cases hu; exact .inl (by decide)
  have h1 : Lasting start1 (answered start1 (clientMsg msgDiscover 1 []) 100) :=
    fun _ i hi => absurd hi (by revert i; decide +kernel)
  have h2 : Lasting offered1 (answered offered1 asks10 101) :=
    fun hd => absurd hd (by decide +kernel)
  exact ⟨hf,dhcpd_leases hf ((Reach.start.next ⟨offered1_step,h1⟩).next ⟨leased1_step,h2⟩)⟩

/-- A DISCOVER of client 1 at 200 s cuts its lease to 30 s; at 300 s client 2 is offered .10. -/
theorem dhcpd_leases_cut : ¬∀cfg h s,Reach Step (start cfg) h s → LeaseSafety cfg h s := by
  intro hall
  let cut := handled leased1 (clientMsg msgDiscover 1 []) 200
  have hr := (((Reach.start.next offered1_step).next leased1_step).next
    (handled_step leased1 (clientMsg msgDiscover 1 []) 200 (by decide) (by decide))).next
    (handled_step cut (clientMsg msgDiscover 2 []) 300 (by decide) (by decide))
  have hk := (hall _ _ _ hr).kept [] _ [_] _ [_] rfl ⟨#[192,168,4,10],rfl⟩ (client 1) (client 2)
    (by decide +kernel) (by decide +kernel) (by decide) (by decide +kernel)
  exact absurd hk (by decide)

end LugalOS.Dhcp
