import LugalOS.P9.Interleaving

namespace LugalOS.P9

open CString Run

/-- Some event satisfies p, seen with the events before it, and no reset came after it. -/
def Since (reset : Event → Prop) (p : Event → List Event → Prop) : List Event → Prop
  | [] => False
  | e::h => p e h ∨ ¬reset e ∧ Since reset p h

theorem Since.later {reset : Event → Prop} {p : Event → List Event → Prop} {e : Event}
    {h : List Event} (hs : Since reset p h) (hn : ¬reset e) : Since reset p (e::h) :=
  .inr ⟨hn,hs⟩

def Versions (conn : Nat) : Event → Prop
  | .request _ _ c (some req) _ => c.conn=conn ∧ req.type=.tversion
  | _ => False

/-- A Tversion on conn that was answered with Rversion. -/
def Resets (conn : Nat) : Event → Prop
  | .request _ _ c (some req) resp => c.conn=conn ∧ req.type=.tversion ∧ resp.type=.rversion
  | _ => False

/-- An accepted Twrite of the 32 bytes that prove uname and aname on an auth fid. -/
def Proves (conn : Nat) (afid : UInt32) (uname aname : Bytes) (e : Event) : Prop :=
  ∃pre w c req resp,e=.request pre w c (some req) resp ∧ c.conn=conn ∧ req.type=.twrite ∧
    req.fid=afid ∧ req.count=32 ∧ resp.type=.rwrite ∧
    ∃i key,pre.fidFind conn afid=some i ∧ (pre.fids i).isAuth=true ∧
      w.authKeyFor uname=some key ∧
      req.payload=(w.hmacSha256 key ((pre.fids i).nonce.bytes++uname++aname)).bytes

/-- The two attaches that need no afid. -/
def Unauthenticated (w : World) (c : ReqCtx) (req : P9Msg) : Prop :=
  req.afid=p9Nofid ∧ (req.aname.bytes=ofString "/proc/board" ∨
    req.aname.bytes=ofString "/dev/setup" ∧ w.setupUnauthAttachOk=true ∧ c.p9LinkIsSetupAp=true)

/-- What an attach on conn rests on, given what came before it. -/
def Authorised (conn : Nat) (w : World) (c : ReqCtx) (req : P9Msg) (h : List Event) : Prop :=
  Unauthenticated w c req ∨
    Since (Resets conn) (fun e _ => Proves conn req.afid req.uname.bytes req.aname.bytes e) h

/-- A Tattach on conn that was authorised and answered with Rattach. -/
def Attaches (conn : Nat) (req : P9Msg) (e : Event) (h : List Event) : Prop :=
  ∃pre w c resp,e=.request pre w c (some req) resp ∧ c.conn=conn ∧ req.type=.tattach ∧
    resp.type=.rattach ∧ Authorised conn w c req h

theorem sha256Verify_iff (a b : Bytes) (n : Nat) :
    sha256Verify a b n=true ↔ ∀k,k<n → a.getD k 0=b.getD k 0 := by
  unfold sha256Verify
  rw [beq_iff_eq]
  induction n with
  | zero => simp
  | succ n ih =>
    rw [List.range_succ,List.foldl_append,List.foldl_cons,List.foldl_nil,UInt8.or_eq_zero_iff,
      UInt8.xor_eq_zero_iff,ih]
    constructor
    · rintro ⟨h,hn⟩ k hk
      rcases Nat.lt_succ_iff_lt_or_eq.mp hk with hk | rfl
      · exact h k hk
      · exact hn
    · intro h
      exact ⟨fun k hk => h k (by omega),h n (by omega)⟩

theorem sha256Verify_eq {a b : Bytes} {n : Nat} (ha : a.length=n) (hb : b.length=n)
    (h : sha256Verify a b n=true) : a=b := by
  rw [sha256Verify_iff] at h
  apply List.ext_getElem (ha.trans hb.symm)
  intro k hka hkb
  have hk := h k (by omega)
  simpa [List.getD_eq_getElem?_getD,hka,hkb] using hk

theorem strncmpEq_name {a : Bytes} {n : Name} (h : strncmpEq a n.bytes p9MaxNameLen=true) :
    a=n.bytes := by
  have hs := n.short
  unfold strncmpEq at h
  have ht : n.bytes.take p9MaxNameLen=n.bytes := List.take_of_length_le (by omega)
  rw [beq_iff_eq,ht] at h
  have hl := congrArg List.length h
  rw [List.length_take] at hl
  rwa [List.take_of_length_le (by omega)] at h

section
variable {w : World} {c : ReqCtx} {s : Server} {req : P9Msg}

theorem p9AttachGate_ok {g : AttachGate} (hp : c.policyNeedsAuth=true)
    (hg : p9AttachGate w c s req=.ok g) :
    Unauthenticated w c req ∨ ∃i,s.fidFind c.conn req.afid=some i ∧ (s.fids i).isAuth=true ∧
      (s.fids i).authed=true ∧ (s.fids i).authUname=req.uname.bytes ∧
      (s.fids i).authAname=req.aname.bytes := by
  unfold p9AttachGate at hg
  by_cases h1 : c.policyNeedsAuth=true ∧ req.afid=p9Nofid ∧ req.aname.bytes=ofString "/proc/board"
  · exact .inl ⟨h1.2.1,.inl h1.2.2⟩
  rw [if_neg h1] at hg
  by_cases h2 : c.policyNeedsAuth=true ∧ req.afid=p9Nofid ∧
      req.aname.bytes=ofString "/dev/setup" ∧ w.setupUnauthAttachOk=true ∧ c.p9LinkIsSetupAp=true
  · exact .inl ⟨h2.2.1,.inr h2.2.2⟩
  rw [if_neg h2,if_pos hp] at hg
  by_cases h3 : req.afid=p9Nofid
  · rw [if_pos h3] at hg
    cases hg
  rw [if_neg h3] at hg
  cases hf : s.fidFind c.conn req.afid with
  | none =>
    rw [hf] at hg
    cases hg
  | some i =>
    rw [hf] at hg
    dsimp only at hg
    by_cases ha : (s.fids i).isAuth=true
    · by_cases hd : (s.fids i).authed=true
      · by_cases hn : (!strncmpEq (s.fids i).authUname req.uname.bytes p9MaxNameLen ||
          !strncmpEq (s.fids i).authAname req.aname.bytes p9MaxNameLen)=true
        · rw [if_neg (by simp [ha]),if_neg (by simp [hd]),if_pos hn] at hg
          cases hg
        · have hu : strncmpEq (s.fids i).authUname req.uname.bytes p9MaxNameLen=true ∧
              strncmpEq (s.fids i).authAname req.aname.bytes p9MaxNameLen=true := by
            simpa using hn
          exact .inr ⟨i,rfl,ha,hd,strncmpEq_name hu.1,strncmpEq_name hu.2⟩
      · rw [if_neg (by simp [ha]),if_pos (by simp [hd])] at hg
        cases hg
    · rw [if_pos (by simp [ha])] at hg
      cases hg

theorem processRequest_tattach (ht : req.type=.tattach) :
    processRequest w c s (some req)=
      p9HandleTattach w c s req {type := .unknown 0, tag := req.tag} := by
  simp [processRequest,ht]

theorem processRequest_twrite (ht : req.type=.twrite) :
    processRequest w c s (some req)=
      p9HandleTwrite w c s req {type := .unknown 0, tag := req.tag} := by
  simp [processRequest,ht]

theorem processRequest_tversion (ht : req.type=.tversion) :
    processRequest w c s (some req)=
      p9HandleTversion w c s req {type := .unknown 0, tag := req.tag} := by
  simp [processRequest,ht]

theorem p9HandleTattach_answer (w : World) (c : ReqCtx) (s : Server) (req resp : P9Msg) :
    (p9HandleTattach w c s req resp).1.type=.rerror ∧ (p9HandleTattach w c s req resp).2=s ∨
    (p9HandleTattach w c s req resp).1.type=.rattach ∧ ∃g,p9AttachGate w c s req=.ok g := by
  unfold p9HandleTattach
  split
  · exact .inl ⟨rfl,rfl⟩
  · next g hg =>
    by_cases hs : p9PathIsSecret req.aname.bytes=true
    · rw [if_pos hs]
      exact .inl ⟨rfl,rfl⟩
    · rw [if_neg hs]
      split
      · exact .inl ⟨rfl,rfl⟩
      · exact .inr ⟨rfl,g,hg⟩

theorem p9HandleTwrite_verified {e : FidEntry} {key : Bytes} (resp : P9Msg)
    (hn : Named c s req e) (ha : e.isAuth=true) (h32 : req.count=32)
    (hk : w.authKeyFor e.authUname=some key)
    (hv : sha256Verify (p9AuthExpected w e key).bytes req.payload 32=true) :
    (p9HandleTwrite w c s req resp).1.type=.rwrite := by
  obtain ⟨i,hi,rfl⟩ := hn
  unfold p9HandleTwrite
  rw [hi]
  dsimp only
  rw [if_pos ha,if_neg (by simp [h32]),hk]
  dsimp only
  rw [if_pos hv]

theorem p9HandleTversion_resets {resp : P9Msg}
    (hv : (p9HandleTversion w c s req resp).1.type=.rversion) (i : Slot)
    (hu : ((p9HandleTversion w c s req resp).2.fids i).inUse=true) :
    ((p9HandleTversion w c s req resp).2.fids i).conn≠c.conn := by
  unfold p9HandleTversion at hv hu ⊢
  by_cases ha : w.linkSessionActive=true
  · rw [if_pos ha] at hv
    cases hv
  · rw [if_neg ha] at hu ⊢
    dsimp only [msizeSet,p9FidResetConn] at hu ⊢
    rw [(releaseWhere_spec _ s).1 i] at hu ⊢
    by_cases hm : ((s.fids i).inUse && (s.fids i).conn==c.conn)=true
    · rw [if_pos hm] at hu
      cases hu
    · rw [if_neg hm] at hu ⊢
      intro hc
      exact hm (by simp [hu,hc])

/-- What the history keeps of an entry of conn: the accepted proof behind an authenticated
afid, the authorised attach behind a file fid. -/
structure Accounted (conn : Nat) (h : List Event) (e : FidEntry) : Prop where
  afid : e.isAuth=true → e.authed=true →
    Since (Resets conn) (fun ev _ => Proves conn e.fidValue e.authUname e.authAname ev) h
  file : e.isAuth=false → ∃o,e.origin=some o ∧ Since (Resets conn) (Attaches conn o.req) h

theorem Accounted.later {conn : Nat} {h : List Event} {e : FidEntry} {ev : Event}
    (ha : Accounted conn h e) (hn : ¬Resets conn ev) : Accounted conn (ev::h) e := by
  refine ⟨fun h1 h2 => (ha.afid h1 h2).later hn,fun h1 => ?_⟩
  obtain ⟨o,ho,hs⟩ := ha.file h1
  exact ⟨o,ho,hs.later hn⟩

/-- The entries of conn that are in use are accounted for. -/
def TableAccounted (conn : Nat) (h : List Event) (s : Server) : Prop :=
  ∀i,(s.fids i).inUse=true → (s.fids i).conn=conn → Accounted conn h (s.fids i)

theorem authorised_of_gate {conn : Nat} {h : List Event} {g : AttachGate}
    (hi : TableAccounted conn h s) (hc : c.conn=conn) (hp : c.policyNeedsAuth=true)
    (hg : p9AttachGate w c s req=.ok g) : Authorised conn w c req h := by
  rcases p9AttachGate_ok hp hg with hu | ⟨i,hf,ha,hd,hun,han⟩
  · exact .inl hu
  · obtain ⟨hu,hec,hfid⟩ := fidFind_some s _ _ i hf
    have hs := (hi i hu (hec.trans hc)).afid ha hd
    rw [hfid,hun,han] at hs
    exact .inr hs

end

theorem newEntry_accounted {conn : Nat} {h : List Event} {w : World} {c : ReqCtx} {s : Server}
    {req : P9Msg} {e : FidEntry} (hi : TableAccounted conn h s) (hc : c.conn=conn)
    (hp : c.policyNeedsAuth=true) (hu : e.inUse=true) (hn : NewEntry w c s req e)
    (hv : req.type=.tattach → (processRequest w c s (some req)).1.type=.rattach) :
    Accounted conn (.request s w c (some req) (processRequest w c s (some req)).1::h) e := by
  have hkeep {src : FidEntry} (hn : Named c s req src) (ht : req.type≠.tversion) :
      Accounted conn (.request s w c (some req) (processRequest w c s (some req)).1::h) src := by
    obtain ⟨hu,hec,_,i,rfl⟩ := hn.spec
    exact (hi i hu (hec.trans hc)).later fun hr => ht hr.2.1
  cases hn with
  | freed => cases hu
  | auth => exact ⟨fun _ h => (by cases h),fun h => (by cases h)⟩
  | attach seq g isDir qid ht hg _ =>
    refine ⟨fun h => (by cases h),fun _ => ⟨_,rfl,.inl ?_⟩⟩
    exact ⟨s,w,c,_,rfl,hc,ht,hv ht,authorised_of_gate hi hc hp hg⟩
  | clone seq src ht hn hs => exact ⟨fun h => (by cases h),fun _ => (hkeep hn (by simp [ht])).file hs⟩
  | walk src base qid ht hn hs hb =>
    have hk := hkeep hn (by simp [ht])
    rcases hb with rfl | ⟨seq,rfl⟩
    · exact ⟨fun h => absurd (hs.symm.trans h) (by decide),fun _ => hk.file hs⟩
    · exact ⟨fun h => (by cases h),fun _ => hk.file hs⟩
  | «open» e _ _ _ ht hn _ _ | create e _ _ _ _ ht hn _ _ _ | readDir e _ ht hn =>
    have hk := hkeep hn (by simp [ht])
    exact ⟨hk.afid,hk.file⟩
  | authed e key ht hn ha h32 hk hver =>
    obtain ⟨hu',hec,hfid,i,rfl⟩ := hn.spec
    have hans : (processRequest w c s (some req)).1.type=.rwrite := by
      rw [processRequest_twrite ht]
      exact p9HandleTwrite_verified _ hn ha h32 hk hver
    obtain ⟨j,hj,hje⟩ := hn
    refine ⟨fun _ _ => .inl ⟨s,w,c,req,_,rfl,hc,ht,hfid.symm,h32,hans,j,key,?_,?_,hk,?_⟩,
      fun h => absurd (ha.symm.trans h) (by decide)⟩
    · rw [←hc,hfid]
      exact hj
    · rw [←hje]
      exact ha
    · rw [←hje]
      refine (sha256Verify_eq (p9AuthExpected w _ key).length_eq ?_ hver).symm
      rw [P9Msg.payload,List.length_map,List.length_range,h32]
      rfl
  | burned e ht hn _ =>
    have hk := hkeep hn (by simp [ht])
    exact ⟨hk.afid,hk.file⟩

theorem tableAccounted_step {conn : Nat} (h : List Event) (s : Server) (e : Event) (s' : Server)
    (hi : TableAccounted conn h s) (hs : ServerStep (OnAuthLink conn) s e s') :
    TableAccounted conn (e::h) s' := by
  intro i hu hc
  cases hs with
  | closed k seq =>
    rcases p9ServerConnClosed_fids k seq s i with he | he
    · rw [he] at hu
      cases hu
    · rw [he] at hu hc ⊢
      exact (hi i hu hc).later fun h => h
  | request w c frame ho =>
    cases frame with
    | none => exact (hi i hu hc).later fun h => h
    | some req =>
      by_cases hr : Resets conn (.request s w c (some req) (processRequest w c s (some req)).1)
      · -- nothing of the connection is left
        obtain ⟨hcc,ht,hv⟩ := hr
        rw [processRequest_tversion ht] at hv hu hc
        exact absurd (hc.trans hcc.symm) (p9HandleTversion_resets hv i hu)
      · have hold (he : (processRequest w c s (some req)).2.fids i=s.fids i) :
            Accounted conn (.request s w c (some req) (processRequest w c s (some req)).1::h)
              ((processRequest w c s (some req)).2.fids i) := by
          rw [he] at hu hc ⊢
          exact (hi i hu hc).later hr
        rcases (processRequest_effect w c s req).entries i with he | he
        · exact hold he
        · have hcc : c.conn=conn := (he.conn hu).symm.trans hc
          by_cases ht : req.type=.tattach
          · rcases p9HandleTattach_answer w c s req
              {type := .unknown 0, tag := req.tag} with ⟨_,hs⟩ | ⟨hv,_⟩
            · rw [←processRequest_tattach ht] at hs
              exact hold (by rw [hs])
            · rw [←processRequest_tattach ht] at hv
              exact newEntry_accounted hi hcc (ho req rfl hcc) hu he fun _ => hv
          · exact newEntry_accounted hi hcc (ho req rfl hcc) hu he fun h => absurd h ht

theorem tableAccounted_reach {conn : Nat} {h : List Event} {s : Server}
    (hr : Reach (ServerStep (OnAuthLink conn)) p9Init h s) : TableAccounted conn h s :=
  hr.invariant (TableAccounted conn) (fun _ hu => by cases hu) tableAccounted_step

/-- On a connection that requires authentication, an attach is answered only when it is
authorised, and every file fid descends from an answered, authorised attach. -/
theorem p9Server_authenticated (conn : Nat) (h : List Event) (s : Server)
    (hr : Reach (ServerStep (OnAuthLink conn)) p9Init h s) :
    (∀w c req,c.conn=conn → c.policyNeedsAuth=true → req.type=.tattach →
      (processRequest w c s (some req)).1.type=.rattach → Authorised conn w c req h) ∧
    (∀i,(s.fids i).inUse=true → (s.fids i).conn=conn → (s.fids i).isAuth=false →
      ∃o,(s.fids i).origin=some o ∧ Since (Resets conn) (Attaches conn o.req) h) := by
  have hi := tableAccounted_reach hr
  refine ⟨fun w c req hc hp ht hv => ?_,fun i hu hc ha => (hi i hu hc).file ha⟩
  rw [processRequest_tattach ht] at hv
  rcases p9HandleTattach_answer w c s req
    {type := .unknown 0, tag := req.tag} with ⟨he,_⟩ | ⟨_,g,hg⟩
  · rw [he] at hv
    cases hv
  · exact authorised_of_gate hi hc hp hg

def aliceKey : Bytes := (List.range 32).map fun k => k.toUInt8

/-- The HMAC-SHA256 of 32 zero bytes and "alice" under aliceKey. -/
def aliceMac : Bytes :=
  [87,41,204,214,43,133,7,139,115,226,27,242,178,141,222,209,35,154,209,112,252,135,17,218,153,63,
    88,103,61,236,124,59]

/-- A key store that holds one key, on a link that offers protected sessions. -/
def aliceWorld : World where
  authHaveKeys := true
  authKeyFor := fun uname => if uname=ofString "alice" then some aliceKey else none
  hmacSha256 := fun key msg =>
    if key=aliceKey ∧ msg=zeroDigest.bytes++ofString "alice" then ⟨aliceMac,by decide⟩ else zeroDigest
  linkSessionOffered := true

def alice : Name := ⟨ofString "alice",by decide,by decide⟩

def aliceAuth : P9Msg := {type := .tauth, afid := 7, uname := alice}

def aliceProof : P9Msg := {type := .twrite, fid := 7, count := 32, data := aliceMac}

def aliceAttach : P9Msg := {type := .tattach, fid := 0, afid := 7, uname := alice}

def protectedVersion : P9Msg := {type := .tversion, msize := 4096, lp := true}

/-- Tauth, its proof, then the attach. -/
theorem p9Server_authenticated_alice :
    ∃h s,Reach (ServerStep (OnAuthLink 1)) p9Init h s ∧
      (processRequest aliceWorld authLink s (some aliceAttach)).1.type=.rattach ∧
      Authorised 1 aliceWorld authLink aliceAttach h := by
  have hr : Reach (ServerStep (OnAuthLink 1)) p9Init _ _ := reach_request (reach_request .start
    aliceWorld authLink aliceAuth fun _ => rfl) aliceWorld authLink aliceProof fun _ => rfl
  have hv : (processRequest aliceWorld authLink (processRequest aliceWorld authLink
    (processRequest aliceWorld authLink p9Init (some aliceAuth)).2 (some aliceProof)).2
    (some aliceAttach)).1.type=.rattach := by decide
  exact ⟨_,_,hr,hv,(p9Server_authenticated 1 _ _ hr).1 aliceWorld authLink aliceAttach rfl rfl rfl hv⟩

/-- A Tversion refused because a protected session runs leaves the proof before it in force. -/
theorem p9Server_attach_after_refused_version :
    ¬∀(conn : Nat) (h : List Event) (s : Server),Reach (ServerStep (OnAuthLink conn)) p9Init h s →
      ∀w c req,c.conn=conn → c.policyNeedsAuth=true → req.type=.tattach →
        (processRequest w c s (some req)).1.type=.rattach → Unauthenticated w c req ∨
          Since (Versions conn)
            (fun e _ => Proves conn req.afid req.uname.bytes req.aname.bytes e) h := by
  intro hall
  have hr : Reach (ServerStep (OnAuthLink 1)) p9Init _ _ :=
    reach_request (reach_request (reach_request (reach_request .start aliceWorld authLink
      protectedVersion fun _ => rfl) aliceWorld authLink aliceAuth fun _ => rfl) aliceWorld authLink
      aliceProof fun _ => rfl) {aliceWorld with linkSessionActive := true} authLink
      protectedVersion fun _ => rfl
  rcases hall 1 _ _ hr {aliceWorld with linkSessionActive := true} authLink aliceAttach rfl rfl rfl
    (by decide) with ⟨hu,_⟩ | ⟨pre,w,c,req,resp,he,_,ht,_⟩ | ⟨hn,_⟩
  · exact absurd hu (by decide)
  · cases he
    cases ht
  · exact hn ⟨rfl,rfl⟩

end LugalOS.P9
