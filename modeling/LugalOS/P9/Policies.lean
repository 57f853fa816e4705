import LugalOS.P9.Interleaving

namespace LugalOS.P9

open CString Run

/-- A call that changes what the VFS holds. -/
def VfsCall.mutates : VfsCall → Bool
  | .open _ flags => flags.write || flags.trunc || flags.create
  | .pwrite _ _ _ | .mkdir _ | .remove _ | .rmdir _ => true
  | .stat _ | .close _ | .readdir _ | .pread _ _ _ => false

/-- The fids a request names: fid, the newfid of a walk, the afid of an auth or an attach. -/
def P9Msg.names (req : P9Msg) (fid : UInt32) : Prop :=
  fid=req.fid ∨ req.type=.twalk ∧ fid=req.newfid ∨
    (req.type=.tauth ∨ req.type=.tattach) ∧ fid=req.afid

/-- An entry keeps the flag its attach gave it, and a read-only one defers no remove. -/
structure KeepsReadOnly (e : FidEntry) : Prop where
  origin : ∀o,e.origin=some o → e.readOnly=o.readOnly
  noRemove : e.readOnly=true → e.removeOnClunk=false

theorem newEntry_readOnly (w : World) (c : ReqCtx) (s : Server) (req : P9Msg) (e : FidEntry)
    (hi : ∀i,KeepsReadOnly (s.fids i)) (hn : NewEntry w c s req e) : KeepsReadOnly e := by
  have hnamed {e : FidEntry} (h : Named c s req e) : KeepsReadOnly e := by
    obtain ⟨i,_,rfl⟩ := h
    exact hi i
  cases hn with
  | freed | auth => exact ⟨fun _ h => (by cases h),fun _ => rfl⟩
  | attach =>
    refine ⟨fun o h => ?_,fun _ => rfl⟩
    cases h
    rfl
  | clone seq src _ hn _ => exact ⟨(hnamed hn).origin,fun _ => rfl⟩
  | walk src base qid _ hn _ hb =>
    refine ⟨(hnamed hn).origin,fun h => ?_⟩
    rcases hb with rfl | ⟨seq,rfl⟩
    · exact (hnamed hn).noRemove h
    · rfl
  | «open» e _ _ orclose _ hn _ hr => exact ⟨(hnamed hn).origin,hr⟩
  | create e _ _ _ _ _ hn _ _ hr =>
    exact ⟨(hnamed hn).origin,fun h => absurd (hr.symm.trans h) (by decide)⟩
  | readDir e _ _ hn | authed e _ _ hn | burned e _ hn =>
    exact ⟨(hnamed hn).origin,(hnamed hn).noRemove⟩

theorem newCall_mutates {c : ReqCtx} {s : Server} {req : P9Msg} {v : VfsCall}
    (hn : NewCall c s req v) (hm : v.mutates=true) :
    (req.type≠.twalk ∧ req.type≠.tauth ∧ req.type≠.tattach) ∧
    ∃e,Named c s req e ∧ (e.readOnly=false ∨ e.removeOnClunk=true) := by
  cases hn with
  | stat | close | readdir | pread => cases hm
  | «open» e flags ht hn hc hr =>
    refine ⟨by rcases ht with ht | ht <;> simp [ht],e,hn,.inl ?_⟩
    have hw : flags.writes=true := by simpa [VfsCall.mutates,VfsFlags.writes,hc] using hm
    cases he : e.readOnly with
    | false => rfl
    | true => exact absurd ((hr he).symm.trans hw) (by decide)
  | create e v ht hn _ _ hr _ | pwrite e _ _ ht hn hr => exact ⟨by simp [ht],e,hn,.inl hr⟩
  | delete e v ht hn hr _ => exact ⟨by rcases ht with ht | ht <;> simp [ht],e,hn,hr⟩

/-- In every state a run reaches, a request that names a fid descending from a read-only attach
makes no call that changes the VFS. -/
theorem p9Server_readOnly (h : List Event) (s : Server)
    (hr : Reach (ServerStep AnyRequest) p9Init h s) (w : World) (c : ReqCtx) (req : P9Msg)
    (fid : UInt32) (i : Slot) (o : Origin) (hf : s.fidFind c.conn fid=some i)
    (ho : (s.fids i).origin=some o) (hro : o.readOnly=true) (hnm : req.names fid) :
    ∃new,(processRequest w c s (some req)).2.calls=new++s.calls ∧ ∀v∈new,v.mutates=false := by
  have hi := entries_invariant KeepsReadOnly
    ⟨fun _ h => (by cases h),fun _ => rfl⟩ (fun w c s req e hi _ => newEntry_readOnly w c s req e hi)
    hr
  obtain ⟨new,hc,hv⟩ := (processRequest_effect w c s req).calls
  refine ⟨new,hc,fun v hm => ?_⟩
  cases hmut : v.mutates with
  | false => rfl
  | true =>
    obtain ⟨⟨hwalk,hauth,hattach⟩,e,⟨j,hj,rfl⟩,hw⟩ := newCall_mutates (hv v hm) hmut
    rcases hnm with rfl | ⟨ht,_⟩ | ⟨ht | ht,_⟩
    · have hij : i=j := Option.some.inj (hf.symm.trans hj)
      subst hij
      have hread : (s.fids i).readOnly=true := ((hi i).origin o ho).trans hro
      rcases hw with hw | hw
      · exact absurd (hw.symm.trans hread) (by decide)
      · exact absurd (hw.symm.trans ((hi i).noRemove hread)) (by decide)
    · exact absurd ht hwalk
    · exact absurd ht hauth
    · exact absurd ht hattach

def openWrite : P9Msg := {type := .topen, fid := 0, mode := p9ORdwr ||| p9OTrunc}

/-- Opening the public attach for writing. -/
theorem p9Server_readOnly_board :
    ∃new,(processRequest boardWorld authLink (processRequest boardWorld authLink p9Init
        (some boardAttach)).2 (some openWrite)).2.calls=
      new++(processRequest boardWorld authLink p9Init (some boardAttach)).2.calls ∧
    ∀v∈new,v.mutates=false :=
  p9Server_readOnly _ _ (reach_request .start boardWorld authLink boardAttach trivial) boardWorld
    authLink openWrite 0 (0 : Fin 8) ⟨boardAttach,true⟩ (by decide) rfl rfl (.inl rfl)

/-- The call hands the VFS a path to open, create or delete. -/
def VfsCall.target : VfsCall → Option Bytes
  | .open path _ | .mkdir path | .remove path | .rmdir path => some path
  | .stat _ | .close _ | .readdir _ | .pread _ _ _ | .pwrite _ _ _ => none

/-- No call so far opened, created or deleted a secret path. -/
def SecretsKept (s : Server) : Prop :=
  ∀v∈s.calls,∀path,v.target=some path → p9PathIsSecret path=false

/-- The two paths the server builds without asking p9_path_is_secret again: the tree of an attach
whose aname has no leading slash, and the new name of a create. -/
def NamesNoSecret (_ : World) (c : ReqCtx) (s : Server) (req : P9Msg) : Prop :=
  (req.type=.tattach → p9PathIsSecret req.aname.bytes=false →
    p9PathIsSecret (attachPath req.aname.bytes)=false) ∧
  (req.type=.tcreate → ∀e,Named c s req e → e.isDir=true → e.isOpen=false → e.readOnly=false →
    p9PathIsSecret (p9PathJoin pathSize e.path req.name.bytes)=false)

/-- A stored path that may be handed to the VFS. -/
structure Public (path : Bytes) : Prop where
  notSecret : p9PathIsSecret path=false
  length : path.length<pathSize

theorem public_copy {path : Bytes} (hl : path.length<pathSize) (hp : p9PathIsSecret path=false) :
    Public (copyInto pathSize path) := by
  rw [copyInto_of_short _ _ hl]
  exact ⟨hp,hl⟩

theorem walkFrom_public (w : World) (names : List Name) (s : Server) (cur : Bytes) (dir : Bool)
    (qids : List P9Qid) (h : Public cur) : Public (walkFrom w s cur dir qids names).2.1 := by
  induction names generalizing s cur dir qids with
  | nil => exact h
  | cons n ns ih =>
    unfold walkFrom
    dsimp only
    by_cases hp : p9PathIsSecret (p9PathJoin pathSize cur n.bytes)=true
    · rw [if_pos hp]
      exact h
    · rw [if_neg hp]
      split
      · exact h
      · exact ih _ _ _ _ (public_copy (p9PathJoin_length _ _) (by simpa using hp))

theorem newEntry_public (w : World) (c : ReqCtx) (s : Server) (req : P9Msg) (e : FidEntry)
    (hi : ∀i,Public (s.fids i).path) (ho : NamesNoSecret w c s req)
    (hn : NewEntry w c s req e) : Public e.path := by
  have hnamed {e : FidEntry} (h : Named c s req e) : Public e.path := by
    obtain ⟨i,_,rfl⟩ := h
    exact hi i
  have hempty : Public [] := ⟨by decide,by decide⟩
  cases hn with
  | freed | auth => exact hempty
  | attach seq g isDir qid ht _ hs => exact public_copy (attachPath_length _) (ho.1 ht hs)
  | clone seq src _ hn _ => exact hnamed (e := src) hn
  | walk src base qid _ hn _ _ =>
    have h0 := hnamed hn
    have h := walkFrom_public w req.wname s (copyInto pathSize src.path) src.isDir []
      (public_copy h0.length h0.notSecret)
    exact public_copy h.length h.notSecret
  | «open» e _ _ _ _ hn => exact hnamed (e := e) hn
  | create e _ _ _ _ ht hn hd hop hr =>
    exact public_copy (p9PathJoin_length _ _) (ho.2 ht e hn hd hop hr)
  | readDir e _ _ hn | authed e _ _ hn | burned e _ hn => exact hnamed (e := e) hn

theorem newCall_public (w : World) (c : ReqCtx) (s : Server) (req : P9Msg) (v : VfsCall)
    (hi : ∀i,Public (s.fids i).path) (ho : NamesNoSecret w c s req) (hn : NewCall c s req v)
    (path : Bytes) (hp : v.target=some path) : p9PathIsSecret path=false := by
  have hnamed {e : FidEntry} (h : Named c s req e) : p9PathIsSecret e.path=false := by
    obtain ⟨i,_,rfl⟩ := h
    exact (hi i).notSecret
  cases hn with
  | stat | close | readdir | pread | pwrite => cases hp
  | «open» e flags _ hn =>
    cases hp
    exact hnamed hn
  | create e v ht hn hd hop hr hv =>
    have h := ho.2 ht e hn hd hop hr
    rcases hv with rfl | rfl <;> cases hp <;> exact h
  | delete e v _ hn _ hv => rcases hv with rfl | rfl <;> cases hp <;> exact hnamed hn

/-- Along every run that builds no secret path in an attach or a create, none reaches the VFS. -/
theorem p9Server_keeps_secrets (h : List Event) (s : Server)
    (hr : Reach (ServerStep NamesNoSecret) p9Init h s) : SecretsKept s :=
  calls_invariant (fun e => Public e.path) _ ⟨by decide,by decide⟩ newEntry_public
    newCall_public (fun _ _ h => by cases h) hr

/-- The volume as far as the parent of the key directory. -/
def etcWorld : World where
  vfsStat := fun _ path => if path=ofString "/sd0/system/etc" then some ⟨0,true⟩ else none
  vfsMkdir := fun _ _ => 0

/-- A link without authentication: the cable. -/
def cable : ReqCtx := {conn := 1, policy := .notRequired}

def etcAttach : P9Msg :=
  {type := .tattach, fid := 0, afid := p9Nofid,
    aname := ⟨ofString "/sd0/system/etc",by decide,by decide⟩}

def createDir (name : Name) : P9Msg := {type := .tcreate, fid := 0, name := name, perm := p9DmDir}

/-- A create under the parent of the key directory. -/
def afterCreate (name : Name) : Server :=
  (processRequest etcWorld cable (processRequest etcWorld cable p9Init (some etcAttach)).2
    (some (createDir name))).2

theorem p9Server_keeps_secrets_mkdir :
    SecretsKept (afterCreate ⟨ofString "logs",by decide,by decide⟩) := by
  have ha : NamesNoSecret etcWorld cable p9Init etcAttach :=
    ⟨fun _ => (by decide),fun h => (by cases h)⟩
  refine p9Server_keeps_secrets _ _ (reach_request (reach_request .start etcWorld cable etcAttach ha)
    etcWorld cable (createDir ⟨ofString "logs",by decide,by decide⟩) ⟨fun h => (by cases h),?_⟩)
  rintro _ e ⟨i,hi,rfl⟩ _ _ _
  have h0 : i=(0 : Fin 8) := Option.some.inj (hi.symm.trans (by decide))
  subst h0
  decide

/-- Tcreate of "auth" there makes the key directory. -/
theorem p9Server_not_keeps_secrets :
    ¬∀h s,Reach (ServerStep AnyRequest) p9Init h s → SecretsKept s := by
  intro hall
  have hr : Reach (ServerStep AnyRequest) p9Init _ (afterCreate ⟨ofString "auth",by decide,by decide⟩) :=
    reach_request (reach_request .start etcWorld cable etcAttach trivial) etcWorld cable (createDir ⟨ofString "auth",by decide,by decide⟩) trivial
  have h := hall _ _ hr (.mkdir authKeyDir) (by decide) authKeyDir rfl
  revert h
  decide

/-- Every name of a walk that is taken keeps the path inside the tree at aname. -/
def WalkStays (w : World) (aname : Bytes) : Server → Bytes → List Name → Prop
  | _,_,[] => True
  | s,cur,n::ns =>
      let next := p9PathJoin pathSize cur n.bytes
      p9PathIsSecret next=true ∨ w.vfsStat s.calls next=none ∨
        JoinStays aname cur n.bytes ∧
          WalkStays w aname (s.call (.stat next)) (copyInto pathSize next) ns

/-- A request on conn that no path join takes out of the tree its fid attached at. -/
def StaysBelow (conn : Nat) (w : World) (c : ReqCtx) (s : Server) (req : P9Msg) : Prop :=
  c.conn=conn →
    (req.type=.tattach → Boundary req.aname.bytes) ∧
    (req.type=.twalk → ∀e o,Named c s req e → e.isAuth=false → e.origin=some o →
      WalkStays w o.req.aname.bytes s (copyInto pathSize e.path) req.wname) ∧
    (req.type=.tcreate → ∀e o,Named c s req e → e.isDir=true → e.isOpen=false →
      e.readOnly=false → e.origin=some o → JoinStays o.req.aname.bytes e.path req.name.bytes)

/-- A stored path inside the tree at aname. -/
structure Inside (aname path : Bytes) : Prop where
  within : p9PathWithin aname path=true
  absolute : Absolute path
  length : path.length<pathSize

theorem Inside.join {aname path comp : Bytes} (h : Inside aname path) (ha : aname.length<32)
    (hc : comp.length<32) (hj : JoinStays aname path comp) :
    Inside aname (copyInto pathSize (p9PathJoin pathSize path comp)) := by
  rw [copyInto_of_short _ _ (p9PathJoin_length path comp)]
  exact ⟨(p9PathJoin_within_iff aname path comp ha hc h.length h.absolute h.within).mpr hj,
    p9PathJoin_absolute path comp h.absolute,p9PathJoin_length path comp⟩

theorem walkFrom_inside (w : World) (aname : Bytes) (ha : aname.length<32) (names : List Name)
    (s : Server) (cur : Bytes) (dir : Bool) (qids : List P9Qid) (h : Inside aname cur)
    (hs : WalkStays w aname s cur names) :
    Inside aname (walkFrom w s cur dir qids names).2.1 := by
  induction names generalizing s cur dir qids with
  | nil => exact h
  | cons n ns ih =>
    unfold walkFrom
    unfold WalkStays at hs
    dsimp only at hs ⊢
    by_cases hp : p9PathIsSecret (p9PathJoin pathSize cur n.bytes)=true
    · rw [if_pos hp]
      exact h
    · rw [if_neg hp]
      split
      · exact h
      · next st hst =>
        rcases hs with hs | hs | ⟨hj,hs⟩
        · exact absurd hs hp
        · rw [hst] at hs
          cases hs
        · exact ih _ _ _ _ (h.join ha n.short hj) hs

/-- What the fid table keeps of an entry of conn: its path is inside the tree it attached at. -/
def EntryInside (conn : Nat) (e : FidEntry) : Prop :=
  e.inUse=true → e.conn=conn → e.isAuth=false →
    ∃o,e.origin=some o ∧ Inside o.req.aname.bytes e.path

theorem named_inside {conn : Nat} {c : ReqCtx} {s : Server} {req : P9Msg} {e : FidEntry}
    (hi : ∀i,EntryInside conn (s.fids i)) (hc : c.conn=conn) (hn : Named c s req e)
    (ha : e.isAuth=false) : ∃o,e.origin=some o ∧ Inside o.req.aname.bytes e.path := by
  obtain ⟨hu,hec,_,i,rfl⟩ := hn.spec
  exact hi i hu (hec.trans hc) ha

theorem newEntry_inside (conn : Nat) (w : World) (c : ReqCtx) (s : Server) (req : P9Msg)
    (e : FidEntry) (hi : ∀i,EntryInside conn (s.fids i)) (ho : StaysBelow conn w c s req)
    (hn : NewEntry w c s req e) : EntryInside conn e := by
  intro hu hc ha
  have hcc : c.conn=conn := (hn.conn hu).symm.trans hc
  obtain ⟨hattach,hwalk,hcreate⟩ := ho hcc
  cases hn with
  | freed => cases hu
  | auth => cases ha
  | attach seq g isDir qid ht _ _ =>
    refine ⟨_,rfl,?_⟩
    dsimp only
    rw [copyInto_of_short _ _ (attachPath_length _)]
    exact ⟨(attachPath_within_iff _ req.aname.short).mpr (hattach ht),attachPath_absolute _,
      attachPath_length _⟩
  | clone seq src ht hn hs =>
    have h := named_inside hi hcc hn hs
    exact h
  | walk src base qid ht hn hs _ =>
    obtain ⟨o,ho,hp⟩ := named_inside hi hcc hn hs
    refine ⟨o,ho,?_⟩
    dsimp only
    have hsrc : copyInto pathSize src.path=src.path := copyInto_of_short _ _ hp.length
    have h := walkFrom_inside w _ o.req.aname.short req.wname s (copyInto pathSize src.path)
      src.isDir [] (by rw [hsrc]; exact hp) (hwalk ht src o hn hs ho)
    rw [copyInto_of_short _ _ h.length]
    exact h
  | «open» e _ _ _ _ hn hs _ =>
    have h := named_inside hi hcc hn hs
    exact h
  | create e _ _ _ _ ht hn hd hop hr =>
    obtain ⟨o,ho,hp⟩ := named_inside hi hcc hn ha
    exact ⟨o,ho,hp.join o.req.aname.short req.name.short (hcreate ht e o hn hd hop hr ho)⟩
  | readDir e _ _ hn =>
    have h := named_inside hi hcc hn ha
    exact h
  | authed e _ _ hn hs | burned e _ hn hs => exact absurd (hs.symm.trans ha) (by decide)

/-- Every file fid of conn holds a path inside the tree of the Tattach it descends from. -/
def Confined (conn : Nat) (s : Server) : Prop :=
  ∀i,(s.fids i).inUse=true → (s.fids i).conn=conn → (s.fids i).isAuth=false →
    ∃o,(s.fids i).origin=some o ∧ p9PathWithin o.req.aname.bytes (s.fids i).path=true

/-- Along every run whose joins on a connection stay in their trees, its fids are confined. -/
theorem p9Server_confined (conn : Nat) (h : List Event) (s : Server)
    (hr : Reach (ServerStep (StaysBelow conn)) p9Init h s) : Confined conn s := by
  intro i hu hc ha
  have hi := entries_invariant (EntryInside conn) (fun hu => by cases hu)
    (newEntry_inside conn) hr i
  obtain ⟨o,ho,hp⟩ := hi hu hc ha
  exact ⟨o,ho,hp.within⟩

def walkUp : P9Msg :=
  {type := .twalk, fid := 0, newfid := 1, wname := [⟨dotdot,by decide,by decide⟩]}

/-- The fid table after two requests on authLink. -/
def afterTwo (m1 m2 : P9Msg) : Server :=
  (processRequest boardWorld authLink (processRequest boardWorld authLink p9Init (some m1)).2
    (some m2)).2

def procAttach : P9Msg :=
  {type := .tattach, fid := 0, afid := p9Nofid, aname := procTree}

def walkBoard : P9Msg :=
  {type := .twalk, fid := 0, newfid := 1, wname := [⟨ofString "board",by decide,by decide⟩]}

/-- On a link without authentication the tree /proc is attached and "board" walked in it. -/
theorem p9Server_confined_board :
    let c : ReqCtx := {conn := 1, policy := .notRequired}
    let s := (processRequest boardWorld c (processRequest boardWorld c p9Init (some procAttach)).2
      (some walkBoard)).2
    (s.fids (1 : Fin 8)).path=ofString "/proc/board" ∧ Confined 1 s := by
  refine ⟨by decide,?_⟩
  refine p9Server_confined 1 _ _ (reach_request (reach_request .start boardWorld _ procAttach ?_)
    boardWorld _ walkBoard ?_)
  · exact fun _ => ⟨fun _ => by decide,fun h => (by cases h),fun h => (by cases h)⟩
  · refine fun _ => ⟨fun h => (by cases h),fun _ e o hn _ ho => ?_,fun h => (by cases h)⟩
    obtain ⟨i,hi,rfl⟩ := hn
    have h0 : i=(0 : Fin 8) := Option.some.inj (hi.symm.trans (by decide))
    subst h0
    cases ho
    exact .inr (.inr ⟨by decide,trivial⟩)

/-- One ".." takes the unauthenticated /proc/board attach to /proc. -/
theorem p9Server_not_confined :
    ¬∀(conn : Nat) (h : List Event) (s : Server),
      Reach (ServerStep (OnAuthLink conn)) p9Init h s → Confined conn s := by
  intro hall
  have hr : Reach (ServerStep (OnAuthLink 1)) p9Init _ (afterTwo boardAttach walkUp) :=
    reach_request (reach_request .start boardWorld authLink boardAttach fun _ => rfl) boardWorld
      authLink walkUp fun _ => rfl
  obtain ⟨o,ho,hw⟩ := hall 1 _ _ hr (1 : Fin 8) (by decide) (by decide) (by decide)
  cases ho
  revert hw
  decide

end LugalOS.P9
