import LugalOS.Lib.CString

namespace LugalOS.Dns

open CString

abbrev Ip := Vector UInt8 4

abbrev Ip.ofBytes (a b c d : UInt8) : Ip := #v[a,b,c,d]

/-! The parser of replies. Where it would read outside the datagram, or go on for ever, there is no
result. -/

def getBe16 (d : Bytes) (p : Nat) : Option Nat := do
  let a ← d[p]?
  let b ← d[p+1]?
  return a.toNat<<<8 ||| b.toNat

def isPointer (c : UInt8) : Bool := c &&& 0xC0=0xC0

/-- The loop over the labels of a name: where it stops, and whether at a pointer. -/
def skipLabels (d : Bytes) : Nat → Nat → Option (Nat×Bool)
  | 0,_ => none
  | n+1,p =>
    if p < d.length then do
      let c ← d[p]?
      if c=0 then return (p,false)
      else if isPointer c then return (p+2,true)
      else skipLabels d n (p+(c.toNat+1))
    else return (p,false)

/-- Past the zero of the root, if it is there. -/
def skipRoot (d : Bytes) (p : Nat) : Nat := if p < d.length ∧ d[p]?=some 0 then p+1 else p

def skipQuestions (d : Bytes) : Nat → Nat → Option Nat
  | 0,p => return p
  | q+1,p =>
    if p < d.length then do
      let (p,pointer) ← skipLabels d (d.length+1) p
      skipQuestions d q ((if pointer then p else skipRoot d p)+4)
    else return p

def skipOwner (d : Bytes) (p : Nat) : Option Nat := do
  let c ← d[p]?
  if isPointer c then return p+2
  else
    let (p,_) ← skipLabels d (d.length+1) p
    return skipRoot d p

def ipAt (d : Bytes) (p : Nat) : Option Ip := do
  let a ← d[p]?
  let b ← d[p+1]?
  let c ← d[p+2]?
  let e ← d[p+3]?
  return .ofBytes a b c e

def parseAnswers (d : Bytes) : Nat → Nat → Option (Option Ip)
  | 0,_ => return none
  | a+1,p =>
    if p+10≤d.length then do
      let p ← skipOwner d p
      if d.length < p+10 then return none
      else
        let rtype ← getBe16 d p
        let rclass ← getBe16 d (p+2)
        let rdlen ← getBe16 d (p+8)
        if d.length < p+10+rdlen then return none
        else if rtype=1 ∧ rclass=1 ∧ rdlen=4 then do
          let ip ← ipAt d (p+10)
          return some ip
        else parseAnswers d a (p+10+rdlen)
    else return none

/-- g_dns_reply. -/
structure Slot where
  got : Bool
  xid : Nat
  ip : Ip

/-- What dns_rx_cb finds in a datagram: an address, if the datagram answers the query in flight. -/
def acceptReply (xid : Nat) (d : Bytes) : Option (Option Ip) :=
  if d.length<12 then return none
  else do
    let id ← getBe16 d 0
    if id≠xid then return none
    else
      let flags ← getBe16 d 2
      if flags &&& 0x8000=0 ∨ flags &&& 0x000F≠0 then return none
      else
        let qdcount ← getBe16 d 4
        let ancount ← getBe16 d 6
        if ancount=0 then return none
        else
          let p ← skipQuestions d qdcount 12
          parseAnswers d ancount p

def dnsRxCb (s : Slot) (d : Bytes) : Option Slot :=
  if s.got then return s
  else do
    match (← acceptReply s.xid d) with
    | none => return s
    | some ip => return {s with got := true,ip}

theorem getElem?_inside {d : Bytes} {p : Nat} (h : p < d.length) : ∃c,d[p]?=some c :=
  ⟨d[p],List.getElem?_eq_getElem h⟩

theorem getBe16_inside {d : Bytes} {p : Nat} (h : p+1 < d.length) : ∃v,getBe16 d p=some v := by
  obtain ⟨a,ha⟩ := getElem?_inside (show p < d.length by omega)
  obtain ⟨b,hb⟩ := getElem?_inside h
  exact ⟨_,by rw [getBe16,ha,hb]; rfl⟩

theorem skipLabels_inside {d : Bytes} {n p : Nat} (h : d.length < n+p) (hn : 0<n) :
    ∃r,skipLabels d n p=some r := by
  induction n generalizing p with
  | zero => exact absurd hn (lt_irrefl _)
  | succ n ih =>
    rw [skipLabels]
    by_cases hp : p < d.length
    · obtain ⟨c,hc⟩ := getElem?_inside hp
      rw [if_pos hp,hc]
      change ∃r,(if c=0 then _ else _)=_
      split_ifs
      · exact ⟨_,rfl⟩
      · exact ⟨_,rfl⟩
      · exact ih (by omega) (by omega)
    · rw [if_neg hp]
      exact ⟨_,rfl⟩

theorem skipQuestions_inside (d : Bytes) (q p : Nat) : ∃r,skipQuestions d q p=some r := by
  induction q generalizing p with
  | zero => exact ⟨p,rfl⟩
  | succ q ih =>
    rw [skipQuestions]
    split_ifs with hp
    · obtain ⟨r,hr⟩ := skipLabels_inside (d := d) (n := d.length+1) (p := p) (by omega) (by omega)
      rw [hr]
      exact ih _
    · exact ⟨p,rfl⟩

theorem skipOwner_inside {d : Bytes} {p : Nat} (hp : p < d.length) : ∃r,skipOwner d p=some r := by
  obtain ⟨c,hc⟩ := getElem?_inside hp
  obtain ⟨r,hr⟩ := skipLabels_inside (d := d) (n := d.length+1) (p := p) (by omega) (by omega)
  rw [skipOwner,hc,hr]
  change ∃r,(if isPointer c=true then _ else _)=_
  split_ifs
  · exact ⟨_,rfl⟩
  · exact ⟨_,rfl⟩

theorem ipAt_inside {d : Bytes} {p : Nat} (h : p+3 < d.length) : ∃ip,ipAt d p=some ip := by
  obtain ⟨a,ha⟩ := getElem?_inside (show p < d.length by omega)
  obtain ⟨b,hb⟩ := getElem?_inside (show p+1 < d.length by omega)
  obtain ⟨c,hc⟩ := getElem?_inside (show p+2 < d.length by omega)
  obtain ⟨e,he⟩ := getElem?_inside h
  exact ⟨_,by rw [ipAt,ha,hb,hc,he]; rfl⟩

theorem parseAnswers_inside (d : Bytes) (a p : Nat) : ∃r,parseAnswers d a p=some r := by
  induction a generalizing p with
  | zero => exact ⟨none,rfl⟩
  | succ a ih =>
    rw [parseAnswers]
    by_cases hp : p+10≤d.length
    · obtain ⟨p',hp'⟩ := skipOwner_inside (show p < d.length by omega)
      rw [if_pos hp,hp']
      change ∃r,(if d.length < p'+10 then _ else _)=_
      by_cases hshort : d.length < p'+10
      · rw [if_pos hshort]
        exact ⟨none,rfl⟩
      · obtain ⟨t,ht⟩ := getBe16_inside (show p'+1 < d.length by omega)
        obtain ⟨c,hc⟩ := getBe16_inside (show p'+2+1 < d.length by omega)
        obtain ⟨l,hl⟩ := getBe16_inside (show p'+8+1 < d.length by omega)
        rw [if_neg hshort,ht,hc,hl]
        change ∃r,(if d.length < p'+10+l then _ else _)=_
        by_cases hdata : d.length < p'+10+l
        · rw [if_pos hdata]
          exact ⟨none,rfl⟩
        · rw [if_neg hdata]
          by_cases hA : t=1 ∧ c=1 ∧ l=4
          · obtain ⟨ip,hip⟩ := ipAt_inside (show p'+10+3 < d.length by omega)
            rw [if_pos hA,hip]
            exact ⟨some ip,rfl⟩
          · rw [if_neg hA]
            exact ih _
    · rw [if_neg hp]
      exact ⟨none,rfl⟩

theorem acceptReply_inside (xid : Nat) (d : Bytes) : ∃r,acceptReply xid d=some r := by
  rw [acceptReply]
  by_cases h12 : d.length<12
  · rw [if_pos h12]
    exact ⟨none,rfl⟩
  · obtain ⟨i,hi⟩ := getBe16_inside (show 0+1 < d.length by omega)
    obtain ⟨f,hf⟩ := getBe16_inside (show 2+1 < d.length by omega)
    obtain ⟨q,hq⟩ := getBe16_inside (show 4+1 < d.length by omega)
    obtain ⟨a,ha⟩ := getBe16_inside (show 6+1 < d.length by omega)
    obtain ⟨p,hp⟩ := skipQuestions_inside d q 12
    obtain ⟨r,hr⟩ := parseAnswers_inside d a p
    rw [if_neg h12,hi,hf,hq,ha]
    change ∃r,(if i≠xid then _ else if f &&& 0x8000=0 ∨ f &&& 0x000F≠0 then _
      else if a=0 then _ else _)=_
    split_ifs
    · exact ⟨none,rfl⟩
    · exact ⟨none,rfl⟩
    · exact ⟨none,rfl⟩
    · exact ⟨r,by rw [hp]; exact hr⟩

theorem dnsRxCb_inside (s : Slot) (d : Bytes) : ∃s',dnsRxCb s d=some s' := by
  obtain ⟨r,hr⟩ := acceptReply_inside s.xid d
  rw [dnsRxCb,hr]
  split_ifs
  · exact ⟨s,rfl⟩
  · cases r with
    | none => exact ⟨s,rfl⟩
    | some ip => exact ⟨_,rfl⟩

/-- The name from p to q; the last says whether it goes on behind a pointer. -/
inductive NameAt (d : Bytes) : Nat → Nat → Bool → Prop where
  | root {p : Nat} (h : d[p]?=some 0) : NameAt d p (p+1) false
  | pointer {p : Nat} {c : UInt8} (h : d[p]?=some c) (hc : isPointer c=true) : NameAt d p (p+2) true
  | label {p q : Nat} {c : UInt8} {t : Bool} (h : d[p]?=some c) (h0 : c≠0)
      (hc : isPointer c=false) (rest : NameAt d (p+(c.toNat+1)) q t) : NameAt d p q t

/-- A name of labels with a pointer behind them. -/
def Mixed (d : Bytes) (p : Nat) : Prop :=
  ∃ c q,d[p]?=some c ∧ isPointer c=false ∧ NameAt d p q true

/-- A resource record, without its name and the time it lives. -/
structure Rr where
  rtype : Nat
  rclass : Nat
  rdata : Bytes

def Rr.IsA (r : Rr) : Prop := r.rtype=1 ∧ r.rclass=1 ∧ r.rdata.length=4

def RrAt (d : Bytes) (p : Nat) (r : Rr) (q : Nat) : Prop :=
  ∃ e t,NameAt d p e t ∧ getBe16 d e=some r.rtype ∧ getBe16 d (e+2)=some r.rclass ∧
    getBe16 d (e+8)=some r.rdata.length ∧ (d.drop (e+10)).take r.rdata.length=r.rdata ∧
    q=e+10+r.rdata.length

/-- The records from p to q. -/
inductive Records (d : Bytes) (p : Nat) : List Rr → Nat → Prop where
  | none : Records d p [] p
  | more {rs : List Rr} {r : Rr} {q e : Nat} (hs : Records d p rs q) (h : RrAt d q r e) :
      Records d p (rs++[r]) e

/-- So many questions from p to q. -/
inductive Questions (d : Bytes) : Nat → Nat → Nat → Prop where
  | none (p : Nat) : Questions d 0 p p
  | more {n p e q : Nat} {t : Bool} (h : NameAt d p e t) (hs : Questions d n (e+4) q) :
      Questions d (n+1) p q

/-- After the questions of the datagram there are these answers, up to q. -/
def AnswersTo (d : Bytes) (rs : List Rr) (q : Nat) : Prop :=
  ∃ qd start,getBe16 d 4=some qd ∧ Questions d qd 12 start ∧ Records d start rs q

/-- No owner of an answer is labels with a pointer behind them. -/
def Unmixed (d : Bytes) : Prop :=
  ∀ rs q an,getBe16 d 6=some an → AnswersTo d rs q → rs.length<an → ¬Mixed d q

/-- A reply to this id, without an error. -/
def RepliesTo (xid : Nat) (d : Bytes) : Prop :=
  getBe16 d 0=some xid ∧ ∃f,getBe16 d 2=some f ∧ f &&& 0x8000≠0 ∧ f &&& 0x000F=0

/-- The address is that of the first A record among the answers. -/
def Carries (d : Bytes) (ip : Ip) : Prop :=
  ∃ rs r q an,getBe16 d 6=some an ∧ AnswersTo d (rs++[r]) q ∧ rs.length<an ∧ r.IsA ∧
    r.rdata=ip.toList ∧ ∀r'∈rs,¬r'.IsA

theorem skipLabels_name {d : Bytes} {n p q : Nat} {b : Bool} (h : skipLabels d n p=some (q,b)) :
    (b=true → NameAt d p q true) ∧
      (b=false → q < d.length → d[q]?=some 0 ∧ NameAt d p (q+1) false) := by
  induction n generalizing p with
  | zero => cases h
  | succ n ih =>
    rw [skipLabels] at h
    by_cases hp : p < d.length
    · obtain ⟨c,hc⟩ := getElem?_inside hp
      rw [if_pos hp,hc] at h
      change (if c=0 then some (p,false) else if isPointer c=true then some (p+2,true)
        else skipLabels d n (p+(c.toNat+1)))=_ at h
      by_cases h0 : c=0
      · rw [if_pos h0] at h
        cases h
        rw [h0] at hc
        exact ⟨fun h => Bool.noConfusion h,fun _ _ => ⟨hc,.root hc⟩⟩
      · rw [if_neg h0] at h
        by_cases hptr : isPointer c=true
        · rw [if_pos hptr] at h
          cases h
          exact ⟨fun _ => .pointer hc hptr,fun h => Bool.noConfusion h⟩
        · rw [if_neg hptr] at h
          obtain ⟨h1,h2⟩ := ih h
          have hno := Bool.eq_false_iff.mpr hptr
          exact ⟨fun hb => .label hc h0 hno (h1 hb),fun hb hq =>
            ⟨(h2 hb hq).1,.label hc h0 hno (h2 hb hq).2⟩⟩
    · rw [if_neg hp] at h
      cases h
      exact ⟨fun h => Bool.noConfusion h,fun _ hq => absurd hq hp⟩

theorem skipRoot_name {d : Bytes} {p q : Nat} (hq : skipRoot d q < d.length)
    (h : q < d.length → d[q]?=some 0 ∧ NameAt d p (q+1) false) : NameAt d p (skipRoot d q) false := by
  have hle : q ≤ skipRoot d q := by
    rw [skipRoot]
    split_ifs <;> omega
  obtain ⟨h0,hn⟩ := h (Nat.lt_of_le_of_lt hle hq)
  rwa [skipRoot,if_pos ⟨Nat.lt_of_le_of_lt hle hq,h0⟩]

theorem skipOwner_name {d : Bytes} {p q : Nat} (h : skipOwner d p=some q) (hm : ¬Mixed d p)
    (hq : q < d.length) : ∃t,NameAt d p q t := by
  rw [skipOwner] at h
  cases hc : d[p]? with
  | none =>
    rw [hc] at h
    cases h
  | some c =>
    rw [hc] at h
    change (if isPointer c=true then some (p+2) else _)=_ at h
    by_cases hptr : isPointer c=true
    · rw [if_pos hptr] at h
      cases h
      exact ⟨true,.pointer hc hptr⟩
    · rw [if_neg hptr] at h
      cases hl : skipLabels d (d.length+1) p with
      | none =>
        rw [hl] at h
        cases h
      | some r =>
        obtain ⟨e,b⟩ := r
        rw [hl] at h
        obtain rfl : skipRoot d e=q := Option.some.inj h
        obtain ⟨h1,h2⟩ := skipLabels_name hl
        cases b with
        | true => exact absurd ⟨c,e,hc,Bool.eq_false_iff.mpr hptr,h1 rfl⟩ hm
        | false => exact ⟨false,skipRoot_name hq (h2 rfl)⟩

theorem skipQuestions_spec {d : Bytes} {n p q : Nat} (h : skipQuestions d n p=some q)
    (hq : q < d.length) : Questions d n p q := by
  induction n generalizing p with
  | zero =>
    cases h
    exact .none _
  | succ n ih =>
    rw [skipQuestions] at h
    by_cases hp : p < d.length
    · obtain ⟨⟨e,b⟩,hl⟩ := skipLabels_inside (d := d) (n := d.length+1) (p := p) (by omega) (by omega)
      rw [if_pos hp,hl] at h
      change skipQuestions d n ((if b=true then e else skipRoot d e)+4)=some q at h
      obtain ⟨h1,h2⟩ := skipLabels_name hl
      cases b with
      | true => exact .more (h1 rfl) (ih h)
      | false =>
        have hlt : skipRoot d e < d.length := by
          by_contra hge
          have hstop : ∀ m k,d.length≤k → skipQuestions d m k=some k := by
            intro m k hk
            cases m with
            | zero => rfl
            | succ m =>
              rw [skipQuestions,if_neg (by omega)]
              rfl
          change skipQuestions d n (skipRoot d e+4)=some q at h
          rw [hstop n _ (by omega)] at h
          have := Option.some.inj h
          omega
        exact .more (skipRoot_name hlt (h2 rfl)) (ih h)
    · rw [if_neg hp] at h
      cases h
      exact absurd hq hp

theorem drop_cons {d : Bytes} {p : Nat} {a : UInt8} (h : d[p]?=some a) :
    d.drop p=a::d.drop (p+1) := by
  obtain ⟨hp,rfl⟩ := List.getElem?_eq_some_iff.mp h
  exact List.drop_eq_getElem_cons hp

theorem ipAt_eq {d : Bytes} {p : Nat} {ip : Ip} (h : ipAt d p=some ip) :
    (d.drop p).take 4=ip.toList := by
  simp only [ipAt,Option.bind_eq_bind,Option.bind_eq_some_iff] at h
  obtain ⟨a,ha,b,hb,c,hc,e,he,h⟩ := h
  cases h
  rw [drop_cons ha,drop_cons hb,drop_cons hc,drop_cons he]
  rfl

theorem parseAnswers_spec {d : Bytes} {start : Nat} {ip : Ip} {n p : Nat} {rs : List Rr}
    (h : parseAnswers d n p=some (some ip)) (hrs : Records d start rs p) (hno : ∀r∈rs,¬r.IsA)
    (hm : ∀ rs' q,Records d start rs' q → rs'.length < rs.length+n → ¬Mixed d q) :
    ∃ rs' r q,Records d start (rs'++[r]) q ∧ rs'.length < rs.length+n ∧ r.IsA ∧
      r.rdata=ip.toList ∧ ∀r'∈rs',¬r'.IsA := by
  induction n generalizing p rs with
  | zero => cases h
  | succ n ih =>
    rw [parseAnswers] at h
    by_cases hp : p+10≤d.length
    · obtain ⟨e,he⟩ := skipOwner_inside (show p < d.length by omega)
      rw [if_pos hp,he] at h
      change (if d.length < e+10 then _ else _)=_ at h
      by_cases hshort : d.length < e+10
      · rw [if_pos hshort] at h
        cases h
      · obtain ⟨t,hname⟩ := skipOwner_name he (hm rs p hrs (by omega)) (by omega)
        obtain ⟨ty,hty⟩ := getBe16_inside (show e+1 < d.length by omega)
        obtain ⟨c,hc⟩ := getBe16_inside (show e+2+1 < d.length by omega)
        obtain ⟨l,hl⟩ := getBe16_inside (show e+8+1 < d.length by omega)
        rw [if_neg hshort,hty,hc,hl] at h
        change (if d.length < e+10+l then _ else _)=_ at h
        by_cases hdata : d.length < e+10+l
        · rw [if_pos hdata] at h
          cases h
        · rw [if_neg hdata] at h
          have hlen : ((d.drop (e+10)).take l).length=l := by
            rw [List.length_take,List.length_drop]
            omega
          have hrr : RrAt d p ⟨ty,c,(d.drop (e+10)).take l⟩ (e+10+l) :=
            ⟨e,t,hname,hty,hc,by rw [hlen]; exact hl,by rw [hlen],by rw [hlen]⟩
          by_cases hA : ty=1 ∧ c=1 ∧ l=4
          · rw [if_pos hA] at h
            cases hip : ipAt d (e+10) with
            | none =>
              rw [hip] at h
              cases h
            | some v =>
              rw [hip] at h
              obtain rfl : v=ip := Option.some.inj (Option.some.inj h)
              exact ⟨rs,_,_,.more hrs hrr,by omega,⟨hA.1,hA.2.1,hlen.trans hA.2.2⟩,
                by rw [hA.2.2]; exact ipAt_eq hip,hno⟩
          · rw [if_neg hA] at h
            have hlonger : (rs++[(⟨ty,c,(d.drop (e+10)).take l⟩ : Rr)]).length=rs.length+1 := by
              rw [List.length_append,List.length_singleton]
            obtain ⟨rs',r,q,h1,h2,h3⟩ := ih h (.more hrs hrr) (fun r hr => by
              rcases List.mem_append.mp hr with hr | hr
              · exact hno r hr
              · obtain rfl := List.mem_singleton.mp hr
                exact fun hc => hA ⟨hc.1,hc.2.1,hlen.symm.trans hc.2.2⟩)
              fun rs' q h1 h2 => hm rs' q h1 (by omega)
            exact ⟨rs',r,q,h1,by omega,h3⟩
    · rw [if_neg hp] at h
      cases h

theorem acceptReply_spec {xid : Nat} {d : Bytes} {ip : Ip}
    (h : acceptReply xid d=some (some ip)) : RepliesTo xid d ∧ (Unmixed d → Carries d ip) := by
  rw [acceptReply] at h
  by_cases h12 : d.length<12
  · rw [if_pos h12] at h
    cases h
  · obtain ⟨i,hi⟩ := getBe16_inside (show 0+1 < d.length by omega)
    obtain ⟨f,hf⟩ := getBe16_inside (show 2+1 < d.length by omega)
    obtain ⟨qd,hqd⟩ := getBe16_inside (show 4+1 < d.length by omega)
    obtain ⟨an,han⟩ := getBe16_inside (show 6+1 < d.length by omega)
    obtain ⟨p,hp⟩ := skipQuestions_inside d qd 12
    rw [if_neg h12,hi,hf,hqd,han] at h
    change (if i≠xid then some none else if f &&& 0x8000=0 ∨ f &&& 0x000F≠0 then some none
      else if an=0 then some none else _)=_ at h
    by_cases hid : i≠xid
    · rw [if_pos hid] at h
      cases h
    · rw [if_neg hid] at h
      by_cases hflags : f &&& 0x8000=0 ∨ f &&& 0x000F≠0
      · rw [if_pos hflags] at h
        cases h
      · rw [if_neg hflags] at h
        by_cases h0 : an=0
        · rw [if_pos h0] at h
          cases h
        · rw [if_neg h0,hp] at h
          change parseAnswers d an p=_ at h
          obtain ⟨hqr,hrcode⟩ := not_or.mp hflags
          refine ⟨⟨not_not.mp hid ▸ hi,f,hf,hqr,not_not.mp hrcode⟩,fun hun => ?_⟩
          have hlt : p < d.length := by
            obtain ⟨n,rfl⟩ := Nat.exists_eq_succ_of_ne_zero h0
            by_contra hge
            rw [Nat.succ_eq_add_one,parseAnswers,if_neg (by omega)] at h
            cases h
          have hq := skipQuestions_spec hp hlt
          obtain ⟨rs,r,q,h1,h2,h3,h4,h5⟩ := parseAnswers_spec h .none
            (fun r hr => absurd hr List.not_mem_nil) fun rs q hrs hl =>
              hun rs q an han ⟨qd,p,hqd,hq,hrs⟩ (by rwa [List.length_nil,Nat.zero_add] at hl)
          exact ⟨rs,r,q,an,han,⟨qd,p,hqd,hq,h1⟩,by rwa [List.length_nil,Nat.zero_add] at h2,h3,h4,h5⟩

end LugalOS.Dns
