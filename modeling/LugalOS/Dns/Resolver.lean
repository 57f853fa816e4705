import LugalOS.Dns.Hosts

namespace LugalOS.Dns

open CString

abbrev dnsCacheSize : Nat := 4

structure Entry where
  name : Bytes
  ip : Ip
  expiresMs : Nat

/-- g_dns_cache and the place of its next entry. -/
structure Cache where
  entry : Fin dnsCacheSize → Entry
  idx : Fin dnsCacheSize

def emptyCache : Cache := ⟨fun _ => ⟨[],Vector.replicate 4 0,0⟩,0⟩

/-- A UDP datagram for the client's port, with where it says it is from. -/
structure Datagram where
  srcIp : Ip
  srcPort : UInt16
  data : Bytes

/-- One dns_resolve with all it meets: the time, the bytes of the two hosts files, the server, the
random number, whether the port can be bound and the query sent, the datagrams delivered to the
port until it is unbound, and the time then. -/
structure Call where
  name : Bytes
  now : Nat
  sdHosts : Option Bytes
  flashHosts : Option Bytes
  server : Option Ip
  rand : UInt16
  bound : Bool
  sent : Bool
  datagrams : List Datagram
  done : Nat

/-- What an address has come from. -/
inductive Via where
  | literal
  | cache
  | hosts
  | query
deriving DecidableEq

def Call.xid (c : Call) : UInt16 := if c.rand=0 then 0x1234 else c.rand

def be16 (v : UInt16) : Bytes := [(v>>>8).toUInt8,v.toUInt8]

/-- The labels of a name, behind a packet. -/
def encodeLabels : Nat → Bytes → Bytes → Option Bytes
  | 0,pkt,_ => some pkt
  | n+1,pkt,s =>
    if s=[] then some pkt
    else
      let label := s.takeWhile fun c => c≠46
      let rest := s.drop label.length
      if label=[] ∨ 63 < label.length ∨ 256-4≤pkt.length+label.length+1 then none
      else
        let pkt := pkt++(label.length.toUInt8::label)
        if rest=[] then some pkt else encodeLabels n pkt (rest.drop 1)

def queryPacket (xid : UInt16) (name : Bytes) : Option Bytes := do
  let pkt ← encodeLabels name.length (be16 xid++be16 0x0100++be16 1++be16 0++be16 0++be16 0) name
  return pkt++[0]++be16 1++be16 1

/-- The first entry for a name that has not expired. -/
def Cache.find (s : Cache) (name : Bytes) (now : Nat) : Option Ip :=
  (List.finRange dnsCacheSize).findSome? fun i =>
    if (s.entry i).name≠[] ∧ (s.entry i).name=name ∧ now < (s.entry i).expiresMs
    then some (s.entry i).ip else none

/-- A name is stored as far as its field goes. -/
def Cache.store (s : Cache) (name : Bytes) (ip : Ip) (expiresMs : Nat) : Cache where
  entry := Function.update s.entry s.idx ⟨copyInto 64 name,ip,expiresMs⟩
  idx := s.idx+1

/-- The reply slot after the datagrams, one after the other. -/
def receive : Slot → List Datagram → Option Slot
  | s,[] => return s
  | s,d::ds => do receive (← dnsRxCb s d.data) ds

/-- dns_resolve_locked: the address if there is one, and the cache. There is no result if the parser
of replies has left a datagram or does not stop. -/
def dnsResolveLocked (s : Cache) (c : Call) : Option (Option (Via×Ip)×Cache) :=
  if c.name=[] then return (none,s)
  else
    match ipv4Parse c.name with
    | some ip => return (some (.literal,ip),s)
    | none =>
      match s.find c.name c.now with
      | some ip => return (some (.cache,ip),s)
      | none =>
        match (checkHostsFile c.sdHosts c.name).or (checkHostsFile c.flashHosts c.name) with
        | some ip => return (some (.hosts,ip),s.store c.name ip (c.now+60000))
        | none =>
          if c.server=none ∨ queryPacket c.xid c.name=none ∨ c.bound=false ∨ c.sent=false then
            return (none,s)
          else do
            let r ← receive ⟨false,c.xid.toNat,Vector.replicate 4 0⟩ c.datagrams
            if r.got then return (some (.query,r.ip),s.store c.name r.ip (c.done+30000))
            else return (none,s)

/-- The calls so far, each with what it gave, and the cache they have left. -/
inductive Run : List (Call×Option (Via×Ip)) → Cache → Prop where
  | start : Run [] emptyCache
  | resolve {h : List (Call×Option (Via×Ip))} {s s' : Cache} {c : Call} {r : Option (Via×Ip)}
      (hr : Run h s) (hc : dnsResolveLocked s c=some (r,s')) : Run (h++[(c,r)]) s'

theorem receive_inside (s : Slot) (ds : List Datagram) : ∃s',receive s ds=some s' := by
  induction ds generalizing s with
  | nil => exact ⟨s,rfl⟩
  | cons d ds ih =>
    obtain ⟨s',hs⟩ := dnsRxCb_inside s d.data
    rw [receive,hs]
    exact ih s'

theorem receive_got {s s' : Slot} {ds : List Datagram} (hs : s.got=false)
    (h : receive s ds=some s') (hg : s'.got=true) :
    ∃d∈ds,acceptReply s.xid d.data=some (some s'.ip) := by
  induction ds generalizing s with
  | nil =>
    cases h
    exact absurd (hs.symm.trans hg) Bool.noConfusion
  | cons d ds ih =>
    obtain ⟨t,ht⟩ := dnsRxCb_inside s d.data
    obtain ⟨r,hr⟩ := acceptReply_inside s.xid d.data
    rw [receive,ht] at h
    rw [dnsRxCb,hs,hr] at ht
    cases r with
    | none =>
      obtain rfl : s=t := Option.some.inj ht
      obtain ⟨d',hd,ha⟩ := ih hs h
      exact ⟨d',List.mem_cons_of_mem _ hd,ha⟩
    | some ip =>
      obtain rfl : ({s with got := true,ip} : Slot)=t := Option.some.inj ht
      have hstay : ∀ (es : List Datagram) (u : Slot),u.got=true → receive u es=some s' → s'=u := by
        intro es
        induction es with
        | nil =>
          intro u _ hu
          exact (Option.some.inj hu).symm
        | cons e es ih =>
          intro u hgot hu
          rw [receive,dnsRxCb,if_pos hgot] at hu
          exact ih u hgot hu
      rw [hstay ds _ rfl h]
      exact ⟨d,List.mem_cons_self,hr⟩

theorem Cache.find_some {s : Cache} {name : Bytes} {now : Nat} {ip : Ip}
    (h : s.find name now=some ip) : ∃i,(s.entry i).name≠[] ∧ (s.entry i).name=name ∧
      now < (s.entry i).expiresMs ∧ (s.entry i).ip=ip := by
  obtain ⟨i,-,hi⟩ := List.exists_of_findSome?_eq_some h
  split_ifs at hi with hc
  exact ⟨i,hc.1,hc.2.1,hc.2.2,Option.some.inj hi⟩

/-- What an address is that came in a reply, or of a hosts file. -/
def Answered (c : Call) (ip : Ip) : Prop :=
  ∃d∈c.datagrams,RepliesTo c.xid.toNat d.data ∧ (Unmixed d.data → Carries d.data ip)

def InHosts (c : Call) (ip : Ip) : Prop :=
  ∃s,(c.sdHosts=some s ∨ c.flashHosts=some s) ∧
    ((∀l∈hostsLines s,l.length<128) → ∃l∈hostsLines s,HostLine (cstr l) c.name ip)

theorem dnsResolve_cases {s s' : Cache} {c : Call} {r : Option (Via×Ip)}
    (h : dnsResolveLocked s c=some (r,s')) :
    (r=none ∧ s'=s) ∨ (∃ip,r=some (.literal,ip) ∧ s'=s) ∨
    (∃ip,r=some (.cache,ip) ∧ s'=s ∧ s.find c.name c.now=some ip) ∨
    (∃ip,r=some (.hosts,ip) ∧ s'=s.store c.name ip (c.now+60000) ∧ InHosts c ip) ∨
    ∃ip,r=some (.query,ip) ∧ s'=s.store c.name ip (c.done+30000) ∧ Answered c ip := by
  rw [dnsResolveLocked] at h
  by_cases hname : c.name=[]
  · rw [if_pos hname] at h
    cases h
    exact .inl ⟨rfl,rfl⟩
  · rw [if_neg hname] at h
    cases hlit : ipv4Parse c.name with
    | some ip =>
      rw [hlit] at h
      cases h
      exact .inr (.inl ⟨ip,rfl,rfl⟩)
    | none =>
      rw [hlit] at h
      cases hfind : s.find c.name c.now with
      | some ip =>
        rw [hfind] at h
        cases h
        exact .inr (.inr (.inl ⟨ip,rfl,rfl,rfl⟩))
      | none =>
        rw [hfind] at h
        cases hhosts : (checkHostsFile c.sdHosts c.name).or (checkHostsFile c.flashHosts c.name) with
        | some ip =>
          rw [hhosts] at h
          cases h
          refine .inr (.inr (.inr (.inl ⟨ip,rfl,rfl,?_⟩)))
          rcases Option.or_eq_some_iff.mp hhosts with hf | ⟨-,hf⟩
          · obtain ⟨s,hs,hl⟩ := checkHostsFile_spec hf
            exact ⟨s,.inl hs,hl⟩
          · obtain ⟨s,hs,hl⟩ := checkHostsFile_spec hf
            exact ⟨s,.inr hs,hl⟩
        | none =>
          rw [hhosts] at h
          dsimp only at h
          by_cases hno : c.server=none ∨ queryPacket c.xid c.name=none ∨ c.bound=false ∨ c.sent=false
          · rw [if_pos hno] at h
            cases h
            exact .inl ⟨rfl,rfl⟩
          · obtain ⟨t,ht⟩ := receive_inside ⟨false,c.xid.toNat,Vector.replicate 4 0⟩ c.datagrams
            rw [if_neg hno,ht] at h
            change (if t.got=true then _ else _)=_ at h
            by_cases hg : t.got=true
            · rw [if_pos hg] at h
              cases h
              refine .inr (.inr (.inr (.inr ⟨t.ip,rfl,rfl,?_⟩)))
              obtain ⟨d,hd,ha⟩ := receive_got rfl ht hg
              exact ⟨d,hd,acceptReply_spec ha⟩
            · rw [if_neg hg] at h
              cases h
              exact .inl ⟨rfl,rfl⟩

theorem dnsResolve_inside (s : Cache) (c : Call) : ∃r,dnsResolveLocked s c=some r := by
  obtain ⟨t,ht⟩ := receive_inside ⟨false,c.xid.toNat,Vector.replicate 4 0⟩ c.datagrams
  rw [dnsResolveLocked]
  by_cases hname : c.name=[]
  · rw [if_pos hname]
    exact ⟨_,rfl⟩
  · rw [if_neg hname]
    split
    · exact ⟨_,rfl⟩
    · split
      · exact ⟨_,rfl⟩
      · split
        · exact ⟨_,rfl⟩
        · by_cases hno : c.server=none ∨ queryPacket c.xid c.name=none ∨ c.bound=false ∨ c.sent=false
          · rw [if_pos hno]
            exact ⟨_,rfl⟩
          · rw [if_neg hno,ht]
            change ∃r,(if t.got=true then _ else _)=_
            split_ifs
            · exact ⟨_,rfl⟩
            · exact ⟨_,rfl⟩

/-- An earlier call has got the address, for a name that is this one as far as the field goes. -/
def Cached (h : List (Call×Option (Via×Ip))) (name : Bytes) (ip : Ip) (expiresMs : Nat) : Prop :=
  ∃c : Call,((c,some (Via.hosts,ip))∈h ∧ expiresMs=c.now+60000 ∨
    (c,some (Via.query,ip))∈h ∧ expiresMs=c.done+30000) ∧ copyInto 64 c.name=name

theorem Cached.later {h : List (Call×Option (Via×Ip))} {name : Bytes} {ip : Ip} {t : Nat}
    (hc : Cached h name ip t) (e : Call×Option (Via×Ip)) : Cached (h++[e]) name ip t := by
  obtain ⟨c,hm,hn⟩ := hc
  refine ⟨c,?_,hn⟩
  rcases hm with ⟨hm,ht⟩ | ⟨hm,ht⟩
  · exact .inl ⟨List.mem_append_left _ hm,ht⟩
  · exact .inr ⟨List.mem_append_left _ hm,ht⟩

theorem Run.entries {h : List (Call×Option (Via×Ip))} {s : Cache} (hr : Run h s)
    (i : Fin dnsCacheSize) (hi : (s.entry i).name≠[]) :
    Cached h (s.entry i).name (s.entry i).ip (s.entry i).expiresMs := by
  induction hr generalizing i with
  | start => exact absurd rfl hi
  | @resolve h s s' c r hr hc ih =>
    have hstore : ∀ ip t,s'=s.store c.name ip t → Cached (h++[(c,r)]) (copyInto 64 c.name) ip t →
        Cached (h++[(c,r)]) (s'.entry i).name (s'.entry i).ip (s'.entry i).expiresMs := by
      rintro ip t rfl hnew
      by_cases hidx : i=s.idx
      · rw [Cache.store,hidx]
        dsimp only
        rw [Function.update_self]
        exact hnew
      · have hsame : (s.store c.name ip t).entry i=s.entry i := Function.update_of_ne hidx _ _
        rw [hsame] at hi ⊢
        exact (ih i hi).later _
    rcases dnsResolve_cases hc with ⟨-,rfl⟩ | ⟨ip,-,rfl⟩ | ⟨ip,-,rfl,-⟩ | ⟨ip,rfl,hs,-⟩ | ⟨ip,rfl,hs,-⟩
    · exact (ih i hi).later _
    · exact (ih i hi).later _
    · exact (ih i hi).later _
    · exact hstore ip _ hs ⟨c,.inl ⟨by simp,rfl⟩,rfl⟩
    · exact hstore ip _ hs ⟨c,.inr ⟨by simp,rfl⟩,rfl⟩

theorem Run.answered {h : List (Call×Option (Via×Ip))} {s : Cache} (hr : Run h s) {c : Call}
    {ip : Ip} : ((c,some (Via.query,ip))∈h → Answered c ip) ∧
      ((c,some (Via.hosts,ip))∈h → InHosts c ip) := by
  induction hr with
  | start => exact ⟨fun hm => absurd hm List.not_mem_nil,fun hm => absurd hm List.not_mem_nil⟩
  | @resolve h s s' c' r hr hc ih =>
    have hlast : ∀v,(c,some (v,ip))∈h++[(c',r)] → (c,some (v,ip))∈h ∨ c=c' ∧ r=some (v,ip) := by
      intro v hm
      rcases List.mem_append.mp hm with hm | hm
      · exact .inl hm
      · have := List.mem_singleton.mp hm
        exact .inr ⟨congrArg Prod.fst this,(congrArg Prod.snd this).symm⟩
    constructor
    · intro hm
      rcases hlast _ hm with hm | ⟨rfl,hv⟩
      · exact ih.1 hm
      · rcases dnsResolve_cases hc with ⟨hr,-⟩ | ⟨_,hr,-⟩ | ⟨_,hr,-⟩ | ⟨_,hr,-⟩ | ⟨_,hr,-,ha⟩
        all_goals rw [hv] at hr; cases hr
        exact ha
    · intro hm
      rcases hlast _ hm with hm | ⟨rfl,hv⟩
      · exact ih.2 hm
      · rcases dnsResolve_cases hc with ⟨hr,-⟩ | ⟨_,hr,-⟩ | ⟨_,hr,-⟩ | ⟨_,hr,-,ha⟩ | ⟨_,hr,-⟩
        all_goals rw [hv] at hr; cases hr
        exact ha

/-- In every run an address is from an answer to the query, from a line of a hosts file that has the
name, or one that an earlier call has got so for the name; and no reply leads the parser astray. -/
theorem dns_answers :
    (∀ h s c r s',Run h s → dnsResolveLocked s c=some (r,s') →
      (∀ip,r=some (.query,ip) → Answered c ip) ∧ (∀ip,r=some (.hosts,ip) → InHosts c ip) ∧
      ∀ip,r=some (.cache,ip) → ∃ (c' : Call) (via : Via),(c',some (via,ip))∈h ∧
        (via=.hosts ∧ InHosts c' ip ∧ c.now < c'.now+60000 ∨
          via=.query ∧ Answered c' ip ∧ c.now < c'.done+30000) ∧
        (c'.name.length<64 → c'.name=c.name)) ∧
    (∀ s c,∃r,dnsResolveLocked s c=some r) ∧
    ∀ (xid : Nat) (d : Bytes),∃r,acceptReply xid d=some r := by
  refine ⟨fun h s c r s' hr hc => ?_,dnsResolve_inside,acceptReply_inside⟩
  have hlast : (c,r)∈h++[(c,r)] := List.mem_append_right _ List.mem_cons_self
  refine ⟨fun ip h => (hr.resolve hc).answered.1 (h ▸ hlast),
    fun ip h => (hr.resolve hc).answered.2 (h ▸ hlast),fun ip hcache => ?_⟩
  rcases dnsResolve_cases hc with ⟨hr',-⟩ | ⟨_,hr',-⟩ | ⟨ip',hr',-,hfind⟩ | ⟨_,hr',-⟩ | ⟨_,hr',-⟩
  all_goals rw [hcache] at hr'; cases hr'
  obtain ⟨i,hne,hn,ht,rfl⟩ := Cache.find_some hfind
  obtain ⟨c',hget,hcut⟩ := hr.entries i hne
  have hname : c'.name.length<64 → c'.name=c.name := fun hl => by
    rw [copyInto_of_short 64 _ hl] at hcut
    exact hcut.trans hn
  rcases hget with ⟨hm,htime⟩ | ⟨hm,htime⟩
  · exact ⟨c',.hosts,hm,.inl ⟨rfl,hr.answered.2 hm,htime ▸ ht⟩,hname⟩
  · exact ⟨c',.query,hm,.inr ⟨rfl,hr.answered.1 hm,htime ▸ ht⟩,hname⟩

def google : Ip := #v[8,8,8,8]

/-- A reply to id 7 with the question b.c and its address. -/
def otherReply : Bytes :=
  [0,7,0x80,0,0,1,0,1,0,0,0,0]++[1,98,1,99,0,0,1,0,1]++[0xC0,12,0,1,0,1,0,0,0,60,0,4,6,6,6,6]

def spoofedCall : Call where
  name := ofString "a.b"
  now := 0
  sdHosts := none
  flashHosts := none
  server := some google
  rand := 7
  bound := true
  sent := true
  datagrams := [⟨#v[10,0,0,66],666,otherReply⟩]
  done := 5

/-- The datagram is from the server, and repeats the question. -/
def Belongs (c : Call) (d : Datagram) : Prop :=
  c.server=some d.srcIp ∧ d.srcPort=53 ∧
    ∀pkt,queryPacket c.xid c.name=some pkt → (d.data.drop 12).take (pkt.length-12)=pkt.drop 12

theorem spoofedReply_accepted : Run [] emptyCache ∧
    ((dnsResolveLocked emptyCache spoofedCall).map fun r => r.1)=
      some (some (.query,#v[6,6,6,6])) ∧
    ∀d∈spoofedCall.datagrams,¬Belongs spoofedCall d ∧ spoofedCall.server≠some d.srcIp ∧
      (d.data.drop 12).take 5≠[1,97,1,98,0] := by
  refine ⟨.start,by decide +kernel,fun d hd => ?_⟩
  obtain rfl := List.mem_singleton.mp hd
  refine ⟨fun hb => absurd hb.1 (by decide +kernel),by decide +kernel,by decide +kernel⟩

/-- The same query, answered; then the name from the cache. -/
def goodReply : Bytes :=
  [0,7,0x80,0,0,1,0,2,0,0,0,0]++[1,97,1,98,0,0,1,0,1]++
    [0xC0,12,0,5,0,1,0,0,0,60,0,2,0xC0,12]++[0xC0,12,0,1,0,1,0,0,0,60,0,4,1,2,3,4]

def goodCall : Call := {spoofedCall with datagrams := [⟨google,53,goodReply⟩]}

def goodIp : Ip := #v[1,2,3,4]

def goodCache : Cache := emptyCache.store goodCall.name goodIp 30005

theorem dns_answers_goodCall : Run [(goodCall,some (.query,goodIp))] goodCache ∧
    dnsResolveLocked goodCache goodCall=some (some (.cache,goodIp),goodCache) ∧
    ∃ (c' : Call) (via : Via),(c',some (via,goodIp))∈[(goodCall,some (Via.query,goodIp))] ∧
      (via=.hosts ∧ InHosts c' goodIp ∧ goodCall.now < c'.now+60000 ∨
        via=.query ∧ Answered c' goodIp ∧ goodCall.now < c'.done+30000) ∧
      (c'.name.length<64 → c'.name=goodCall.name) := by
  have hgo : dnsResolveLocked emptyCache goodCall=some (some (.query,goodIp),goodCache) := by
    obtain ⟨⟨r,s'⟩,h⟩ := dnsResolve_inside emptyCache goodCall
    have hr : (dnsResolveLocked emptyCache goodCall).map (fun r => r.1)=
        some (some (.query,goodIp)) := by decide +kernel
    rw [h] at hr
    obtain rfl : r=some (.query,goodIp) := Option.some.inj hr
    rcases dnsResolve_cases h with ⟨hr,-⟩ | ⟨_,hr,-⟩ | ⟨_,hr,-⟩ | ⟨_,hr,-⟩ | ⟨_,hr,hs,-⟩
    all_goals cases hr
    rw [h,hs]
    rfl
  have hcache : dnsResolveLocked goodCache goodCall=some (some (.cache,goodIp),goodCache) := by
    obtain ⟨⟨r,s'⟩,h⟩ := dnsResolve_inside goodCache goodCall
    have hr : (dnsResolveLocked goodCache goodCall).map (fun r => r.1)=
        some (some (.cache,goodIp)) := by decide +kernel
    rw [h] at hr
    obtain rfl : r=some (.cache,goodIp) := Option.some.inj hr
    rcases dnsResolve_cases h with ⟨hr,-⟩ | ⟨_,hr,-⟩ | ⟨_,hr,hs,-⟩ | ⟨_,hr,-⟩ | ⟨_,hr,-⟩
    all_goals cases hr
    rw [h,hs]
  have hrun : Run [(goodCall,some (.query,goodIp))] goodCache := .resolve .start hgo
  exact ⟨hrun,hcache,(dns_answers.1 _ _ _ _ _ hrun hcache).2.2 _ rfl⟩

end LugalOS.Dns
