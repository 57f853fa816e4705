import Mathlib.Data.Fintype.Basic
import LugalOS.P9.Path

namespace LugalOS.P9

open CString

/-- `uint8_t[SHA256_DIGEST_LEN]`. -/
structure Digest where
  bytes : Bytes
  length_eq : bytes.length=32

def zeroDigest : Digest := ⟨List.replicate 32 0,by simp⟩

inductive P9AuthPolicy where
  | notRequired
  | required
  | requiredRo
  deriving DecidableEq

/-- The arguments of one call of p9_server_process_link besides the frame. -/
structure ReqCtx where
  conn : Nat
  policy : P9AuthPolicy
  linkFlags : UInt32 := 0
  respMax : Nat := 4096

def ReqCtx.policyNeedsAuth (c : ReqCtx) : Bool := c.policy≠.notRequired

def p9LinkSetupNet : UInt32 := 2

def ReqCtx.p9LinkIsSetupAp (c : ReqCtx) : Bool := (c.linkFlags &&& p9LinkSetupNet)≠0

structure P9Grant where
  name : Bytes
  key : Bytes
  aname : Bytes
  readOnly : Bool
  admin : Bool

structure VfsStat where
  size : UInt32
  isDir : Bool

/-- VFS_O_READ, VFS_O_WRITE, VFS_O_CREATE, VFS_O_TRUNC. -/
structure VfsFlags where
  read : Bool := false
  write : Bool := false
  create : Bool := false
  trunc : Bool := false
  deriving DecidableEq

/-- A call the handlers make on the VFS. -/
inductive VfsCall where
  | stat (path : Bytes)
  | open (path : Bytes) (flags : VfsFlags)
  | close (fd : Int)
  | readdir (fd : Int)
  | pread (fd : Int) (count : UInt32) (offset : UInt64)
  | pwrite (fd : Int) (data : Bytes) (offset : UInt64)
  | mkdir (path : Bytes)
  | remove (path : Bytes)
  | rmdir (path : Bytes)
  deriving DecidableEq

/-- What the code outside 9p.c answers while one request is served. A VFS answer may depend on
every call made before it; keys, grants, randomness and link state are unconstrained. -/
structure World where
  maxMsize : UInt32 := 4096
  databufTake : Bool := true
  authHaveKeys : Bool := false
  authKeyFor : Bytes → Option Bytes := fun _ => none
  grantsFind : Bytes → Option P9Grant := fun _ => none
  hmacSha256 : Bytes → Bytes → Digest := fun _ _ => zeroDigest
  randomBytes : Digest := zeroDigest
  setupUnauthAttachOk : Bool := false
  linkSessionOffered : Bool := false
  linkSessionActive : Bool := false
  vfsStat : List VfsCall → Bytes → Option VfsStat := fun _ _ => none
  vfsOpen : List VfsCall → Bytes → VfsFlags → Int := fun _ _ _ => -1
  vfsDir : List VfsCall → Int → List (Bytes×VfsStat) := fun _ _ => []
  vfsPread : List VfsCall → Int → UInt32 → UInt64 → Option Bytes := fun _ _ _ _ => none
  vfsPwrite : List VfsCall → Int → Bytes → UInt64 → Int := fun _ _ _ _ => -1
  vfsMkdir : List VfsCall → Bytes → Int := fun _ _ => -1
  vfsRemove : List VfsCall → Bytes → Int := fun _ _ => -1
  vfsRmdir : List VfsCall → Bytes → Int := fun _ _ => -1

/-- The Tattach a fid descends from. History only: no handler reads it. -/
structure Origin where
  req : P9Msg
  readOnly : Bool

structure FidEntry where
  conn : Nat := 0
  seq : UInt32 := 0
  inUse : Bool := false
  fidValue : UInt32 := 0
  path : Bytes := []
  isDir : Bool := false
  isOpen : Bool := false
  vfsFd : Int := 0
  dirReadIndex : UInt32 := 0
  removeOnClunk : Bool := false
  qid : P9Qid := {}
  readOnly : Bool := false
  admin : Bool := false
  setupAttach : Bool := false
  isAuth : Bool := false
  authed : Bool := false
  nonce : Digest := zeroDigest
  authUname : Bytes := []
  authAname : Bytes := []
  origin : Option Origin := none

structure MsizeEntry where
  conn : Nat := 0
  msize : UInt32 := 0
  age : UInt32 := 0

def p9MsizeConns : Nat := 6

abbrev Slot := Fin p9MaxFids

structure Server where
  fids : Slot → FidEntry
  fidSeq : UInt32 := 0
  msizes : List MsizeEntry := List.replicate p9MsizeConns {}
  msizeAge : UInt32 := 0
  /-- The VFS calls made so far, latest first. -/
  calls : List VfsCall := []
  /-- The p9_link_session_authenticated calls made so far, latest first. -/
  sessionKeys : List (Nat×Digest) := []

/-- Zeroed storage, as p9_init leaves it. -/
def p9Init : Server := {fids := fun _ => {}}

def Server.setFid (s : Server) (i : Slot) (e : FidEntry) : Server :=
  {s with fids := Function.update s.fids i e}

def Server.call (s : Server) (v : VfsCall) : Server := {s with calls := v::s.calls}

def Server.find (s : Server) (p : FidEntry → Bool) : Option Slot :=
  (List.finRange p9MaxFids).find? fun i => p (s.fids i)

def Server.fidFind (s : Server) (conn : Nat) (fid : UInt32) : Option Slot :=
  s.find fun e => e.inUse && e.conn==conn && e.fidValue==fid

def p9FidRelease (s : Server) (i : Slot) : Server :=
  let e := s.fids i
  let s := if e.isOpen && !e.isDir && decide (0≤e.vfsFd) then s.call (.close e.vfsFd) else s
  s.setFid i {}

/-- The entry p9_fid_alloc leaves in the slot it takes. -/
def freshEntry (c : ReqCtx) (fid seq : UInt32) : FidEntry :=
  {inUse := true, conn := c.conn, seq := seq, fidValue := fid, vfsFd := -1}

def p9FidAlloc (c : ReqCtx) (s : Server) (fid : UInt32) : Option (Slot×Server) :=
  match s.fidFind c.conn fid with
  | some _ => none
  | none =>
    match s.find fun e => !e.inUse with
    | none => none
    | some i =>
      some (i,{s with fidSeq := s.fidSeq+1}.setFid i (freshEntry c fid (s.fidSeq+1)))

/-- Releases, slot by slot, the entries that match. -/
def releaseWhere (p : FidEntry → Bool) (s : Server) : Server :=
  (List.finRange p9MaxFids).foldl
    (fun s i => if p (s.fids i) then p9FidRelease s i else s) s

def p9FidResetConn (c : ReqCtx) (s : Server) : Server :=
  releaseWhere (fun e => e.inUse && e.conn==c.conn) s

/-- `(int32_t)(e->seq-seq)<=0` picks the entries allocated at or before seq. -/
def p9ServerConnClosed (conn : Nat) (seq : UInt32) (s : Server) : Server :=
  releaseWhere (fun e => e.inUse && e.conn==conn && decide ((e.seq-seq).toInt32≤0)) s

def readOnlyEname (c : ReqCtx) (op : String) : String :=
  if c.policy=.requiredRo then
    op++": this session is read-only: writes need a protected session (9P2000.lp) on this link"
  else op++": this peer is granted read-only access"

def sha256Verify (a b : Bytes) (len : Nat) : Bool :=
  ((List.range len).foldl (fun diff i => diff ||| (a.getD i 0 ^^^ b.getD i 0)) 0)==0

def p9HandleTauth (w : World) (c : ReqCtx) (s : Server) (req resp : P9Msg) : P9Msg×Server :=
  if req.afid=p9Nofid then (resp.error "auth: afid may not be NOFID",s)
  else if !w.authHaveKeys then (resp.error "auth: no keys configured on this server",s)
  else
    match p9FidAlloc c s req.afid with
    | none => (resp.error "auth: afid in use or table full",s)
    | some (i,s) =>
      let e := {s.fids i with
        isAuth := true, authed := false, nonce := w.randomBytes,
        authUname := copyInto p9MaxNameLen req.uname.bytes,
        authAname := copyInto p9MaxNameLen req.aname.bytes,
        qid := {type := p9QtAuth, path := p9PathHash (ofString "#auth")}}
      ({resp with type := .rauth, qid := e.qid},s.setFid i e)

/-- The MAC a client must write to an afid: nonce, uname and aname under the key. -/
def p9AuthExpected (w : World) (e : FidEntry) (key : Bytes) : Digest :=
  w.hmacSha256 key (e.nonce.bytes++e.authUname++e.authAname)

def p9ProtectDerive (w : World) (key : Bytes) (nonce : Digest) (uname aname : Bytes) : Digest :=
  let prk := w.hmacSha256 nonce.bytes key
  w.hmacSha256 prk.bytes (ofString "LugalOS 9P v1"++0::uname++0::aname++[0,1])

def p9WriteAllowed (e : FidEntry) : Bool :=
  if e.path=ofString "/dev/owner" then e.admin
  else if e.path=ofString "/dev/tls" ∨ e.path=ofString "/dev/tlscert" ∨
    e.path=ofString "/dev/tlsca" then e.admin
  else if e.path=ofString "/dev/setup" then e.admin || e.setupAttach
  else true

/-- What the first half of p9_handle_tattach decides. -/
structure AttachGate where
  grant : Option P9Grant := none
  setupAttach : Bool := false
  publicAttach : Bool := false

def AttachGate.readOnly (c : ReqCtx) (g : AttachGate) : Bool :=
  (match g.grant with | some g => g.readOnly | none => false) || c.policy==.requiredRo ||
    g.publicAttach

def AttachGate.admin (c : ReqCtx) (g : AttachGate) : Bool :=
  !c.policyNeedsAuth || (match g.grant with | some g => g.admin | none => false)

def p9AttachGate (w : World) (c : ReqCtx) (s : Server) (req : P9Msg) :
    Except String AttachGate :=
  if c.policyNeedsAuth ∧ req.afid=p9Nofid ∧ req.aname.bytes=ofString "/proc/board" then
    .ok {publicAttach := true}
  else if c.policyNeedsAuth ∧ req.afid=p9Nofid ∧ req.aname.bytes=ofString "/dev/setup" ∧
      w.setupUnauthAttachOk ∧ c.p9LinkIsSetupAp then
    .ok {setupAttach := true}
  else if c.policyNeedsAuth then
    if req.afid=p9Nofid then .error "attach: this link requires authentication (no afid)"
    else
      match s.fidFind c.conn req.afid with
      | none => .error "attach: afid is not an auth fid"
      | some i =>
        let a := s.fids i
        if !a.isAuth then .error "attach: afid is not an auth fid"
        else if !a.authed then .error "attach: afid has not authenticated"
        else if !strncmpEq a.authUname req.uname.bytes p9MaxNameLen ||
            !strncmpEq a.authAname req.aname.bytes p9MaxNameLen then
          .error "attach: afid was authenticated for a different uname/aname"
        else
          match w.grantsFind req.uname.bytes with
          | none => .ok {}
          | some g =>
            if p9PathWithin (attachPath g.aname) (attachPath req.aname.bytes) then
              .ok {grant := some g}
            else .error "attach: not granted at this aname"
  else .ok {}

def p9HandleTattach (w : World) (c : ReqCtx) (s : Server) (req resp : P9Msg) : P9Msg×Server :=
  match p9AttachGate w c s req with
  | .error e => (resp.error e,s)
  | .ok g =>
    if p9PathIsSecret req.aname.bytes then (resp.error "attach: no such tree",s)
    else
      match p9FidAlloc c s req.fid with
      | none => (resp.error "attach: fid table full or fid in use",s)
      | some (i,s) =>
        let path := attachPath req.aname.bytes
        let st := w.vfsStat s.calls path
        let s := s.call (.stat path)
        let isDir := match st with | some st => st.isDir | none => true
        let e := {s.fids i with
          path := copyInto pathSize path, readOnly := g.readOnly c, admin := g.admin c,
          setupAttach := g.setupAttach, isDir := isDir,
          qid := {type := if isDir then p9QtDir else p9QtFile, path := p9PathHash path},
          origin := some ⟨req,g.readOnly c⟩}
        ({resp with type := .rattach, qid := e.qid},s.setFid i e)

/-- Walks name by name; stops at the first name that is secret or not there. -/
def walkFrom (w : World) : Server → Bytes → Bool → List P9Qid → List Name →
    Server×Bytes×Bool×List P9Qid
  | s,cur,dir,qids,[] => (s,cur,dir,qids)
  | s,cur,dir,qids,n::ns =>
      let next := p9PathJoin pathSize cur n.bytes
      if p9PathIsSecret next then (s,cur,dir,qids)
      else
        match w.vfsStat s.calls next with
        | none => (s.call (.stat next),cur,dir,qids)
        | some st =>
          let cur := copyInto pathSize next
          walkFrom w (s.call (.stat next)) cur st.isDir
            (qids++[{type := if st.isDir then p9QtDir else p9QtFile, path := p9PathHash cur}]) ns

/-- newfid's entry: the walked fid itself, or a fresh one. -/
def walkTarget (c : ReqCtx) (s : Server) (req : P9Msg) (src : Slot) : Except String (Slot×Server) :=
  if req.newfid=req.fid then .ok (src,s)
  else if (s.fidFind c.conn req.newfid).isSome then .error "walk: newfid already in use"
  else
    match p9FidAlloc c s req.newfid with
    | none => .error "walk: fid table full"
    | some r => .ok r

def p9HandleTwalk (w : World) (c : ReqCtx) (s : Server) (req resp : P9Msg) : P9Msg×Server :=
  match s.fidFind c.conn req.fid with
  | none => (resp.error "walk: unknown fid",s)
  | some i =>
    let src := s.fids i
    if src.isAuth then (resp.error "walk: fid is an auth fid",s)
    else if req.wname=[] then
      match walkTarget c s req i with
      | .error e => (resp.error e,s)
      | .ok (j,s) =>
        let s := if req.newfid=req.fid then s else s.setFid j {s.fids j with
          path := src.path, isDir := src.isDir, qid := src.qid, readOnly := src.readOnly,
          admin := src.admin, setupAttach := src.setupAttach, origin := src.origin}
        ({resp with type := .rwalk, wqid := []},s)
    else
      let (s,cur,dir,qids) := walkFrom w s (copyInto pathSize src.path) src.isDir [] req.wname
      if qids=[] then (resp.error "walk: no such file or directory",s)
      else
        match walkTarget c s req i with
        | .error e => (resp.error e,s)
        | .ok (j,s) =>
          let s := s.setFid j {s.fids j with
            path := copyInto pathSize cur, isDir := dir, qid := qids.getLastD src.qid,
            readOnly := src.readOnly, admin := src.admin, setupAttach := src.setupAttach,
            origin := src.origin}
          ({resp with type := .rwalk, wqid := qids},s)

def openFlags (mode : UInt8) : VfsFlags :=
  let access := mode &&& 0x03
  let trunc := (mode &&& p9OTrunc)≠0
  if access=p9OWrite then {write := true, trunc := trunc}
  else if access=p9ORdwr ∨ access=p9OExec then {read := true, write := true, trunc := trunc}
  else {read := true, trunc := trunc}

def VfsFlags.writes (f : VfsFlags) : Bool := f.write || f.trunc

def p9HandleTopen (w : World) (c : ReqCtx) (s : Server) (req resp : P9Msg) : P9Msg×Server :=
  match s.fidFind c.conn req.fid with
  | none => (resp.error "open: unknown fid",s)
  | some i =>
    let e := s.fids i
    if e.isAuth then (resp.error "open: fid is an auth fid",s)
    else if e.isOpen then (resp.error "open: fid already open",s)
    else
      let orclose := (req.mode &&& p9OrClose)≠0
      if e.readOnly ∧ orclose then (resp.error (readOnlyEname c "open"),s)
      else if !e.isDir then
        let flags := openFlags req.mode
        if e.readOnly ∧ flags.writes then (resp.error (readOnlyEname c "open"),s)
        else if flags.writes ∧ !p9WriteAllowed e then
          (resp.error "open: writing this file needs the admin grant",s)
        else
          let fd := w.vfsOpen s.calls e.path flags
          let s := s.call (.open e.path flags)
          if fd<0 then (resp.error "open: cannot open file",s)
          else
            let e := {e with vfsFd := fd, isOpen := true, removeOnClunk := orclose}
            ({resp with type := .ropen, qid := e.qid},s.setFid i e)
      else
        let e := {e with dirReadIndex := 0, isOpen := true, removeOnClunk := orclose}
        ({resp with type := .ropen, qid := e.qid},s.setFid i e)

def createFlags : VfsFlags := {write := true, create := true, trunc := true}

def p9HandleTcreate (w : World) (c : ReqCtx) (s : Server) (req resp : P9Msg) : P9Msg×Server :=
  match s.fidFind c.conn req.fid with
  | none => (resp.error "create: unknown fid",s)
  | some i =>
    let e := s.fids i
    if !e.isDir then (resp.error "create: fid is not a directory",s)
    else if e.isOpen then (resp.error "create: fid already open",s)
    else if e.readOnly then (resp.error (readOnlyEname c "create"),s)
    else
      let newpath := p9PathJoin pathSize e.path req.name.bytes
      let wantDir := (req.perm &&& p9DmDir)≠0
      let rc := if wantDir then w.vfsMkdir s.calls newpath else w.vfsOpen s.calls newpath createFlags
      let s := s.call (if wantDir then .mkdir newpath else .open newpath createFlags)
      if wantDir ∧ rc≠0 then (resp.error "create: mkdir failed",s)
      else if ¬wantDir ∧ rc<0 then (resp.error "create: cannot create file",s)
      else
        let path := copyInto pathSize newpath
        let e := {e with
          path := path, isDir := wantDir, isOpen := true, vfsFd := if wantDir then -1 else rc,
          dirReadIndex := 0, removeOnClunk := (req.mode &&& p9OrClose)≠0,
          qid := {type := if wantDir then p9QtDir else p9QtFile, path := p9PathHash path}}
        ({resp with type := .rcreate, qid := e.qid},s.setFid i e)

/-- Packs the entries left in a directory while they fit; "." and ".." are passed over. -/
def readDirLoop (path : Bytes) (cap : Nat) : List (Bytes×VfsStat) → UInt32 → Bytes → UInt32×Bytes
  | [],index,out => (index,out)
  | (name,st)::rest,index,out =>
      if name=ofString "." ∨ name=dotdot then readDirLoop path cap rest (index+1) out
      else
        let child := p9PathJoin pathSize path name
        let q := {type := if st.isDir then p9QtDir else p9QtFile, path := p9PathHash child}
        match p9PackStat 96 name st.size.toUInt64 st.isDir q with
        | none => (index,out)
        | some entry =>
          if out.length+entry.length>cap then (index,out)
          else readDirLoop path cap rest (index+1) (out++entry)

def p9ReadDirStream (w : World) (s : Server) (i : Slot) (offset : UInt64) (cap : Nat) :
    Bytes×Server :=
  let e := s.fids i
  let index := if offset=0 then 0 else e.dirReadIndex
  let dfd := w.vfsOpen s.calls e.path {read := true}
  let s := s.call (.open e.path {read := true})
  if dfd<0 then ([],s.setFid i {e with dirReadIndex := index})
  else
    let dir := w.vfsDir s.calls dfd
    let (index,out) := readDirLoop e.path cap (dir.drop index.toNat) index []
    let s := (s.call (.readdir dfd)).call (.close dfd)
    (out,s.setFid i {e with dirReadIndex := index})

def p9HandleTread (w : World) (c : ReqCtx) (s : Server) (req resp : P9Msg) (databufMax : Nat) :
    P9Msg×Server :=
  let want := min req.count.toNat databufMax
  match s.fidFind c.conn req.fid with
  | none => (resp.error "read: fid not open",s)
  | some i =>
    let e := s.fids i
    if e.isAuth then
      let off := min req.offset.toNat 32
      let data := (e.nonce.bytes.drop off).take want
      ({resp with type := .rread, count := data.length.toUInt32, data := data},s)
    else if !e.isOpen then (resp.error "read: fid not open",s)
    else if e.isDir then
      let (data,s) := p9ReadDirStream w s i req.offset want
      ({resp with type := .rread, count := data.length.toUInt32, data := data},s)
    else
      let got := w.vfsPread s.calls e.vfsFd want.toUInt32 req.offset
      let s := s.call (.pread e.vfsFd want.toUInt32 req.offset)
      match got with
      | none => (resp.error "read: I/O error",s)
      | some data => ({resp with type := .rread, count := data.length.toUInt32, data := data},s)

def p9HandleTwrite (w : World) (c : ReqCtx) (s : Server) (req resp : P9Msg) : P9Msg×Server :=
  match s.fidFind c.conn req.fid with
  | none => (resp.error "write: fid not open for writing",s)
  | some i =>
    let e := s.fids i
    if e.isAuth then
      if req.count≠32 then (resp.error "auth: response must be 32 bytes",s)
      else
        match w.authKeyFor e.authUname with
        | none => (resp.error "auth: no key for that uname",s)
        | some key =>
          if sha256Verify (p9AuthExpected w e key).bytes req.payload 32 then
            let sk := p9ProtectDerive w key e.nonce e.authUname e.authAname
            let s := s.setFid i {e with authed := true}
            ({resp with type := .rwrite, count := req.count},
              {s with sessionKeys := (c.conn,sk)::s.sessionKeys})
          -- a failed try costs the nonce, and leaves `authed` as it was
          else (resp.error "auth: response rejected",s.setFid i {e with nonce := w.randomBytes})
    else if !e.isOpen || e.isDir then (resp.error "write: fid not open for writing",s)
    else if e.readOnly then (resp.error (readOnlyEname c "write"),s)
    else if !p9WriteAllowed e then (resp.error "write: this file needs the admin grant",s)
    else
      let n := w.vfsPwrite s.calls e.vfsFd req.payload req.offset
      let s := s.call (.pwrite e.vfsFd req.payload req.offset)
      if n<0 then (resp.error "write: I/O error",s)
      else ({resp with type := .rwrite, count := n.toNat.toUInt32},s)

def p9HandleTstat (w : World) (c : ReqCtx) (s : Server) (req resp : P9Msg) (databufMax : Nat) :
    P9Msg×Server :=
  match s.fidFind c.conn req.fid with
  | none => (resp.error "stat: unknown fid",s)
  | some i =>
    let e := s.fids i
    if e.isAuth then (resp.error "stat: fid is an auth fid",s)
    else
      let (size,isDir) := match w.vfsStat s.calls e.path with
        | some st => (st.size.toUInt64,st.isDir)
        | none => (0,e.isDir)
      let s := s.call (.stat e.path)
      let base := match p9FindLastSlash e.path with
        | some k => e.path.drop (k+1)
        | none => e.path
      let base := if base=[] then rootPath else base
      match p9PackStat databufMax base size isDir e.qid with
      | none => (resp.error "stat: does not fit in reply buffer",s)
      | some data => ({resp with type := .rstat, count := data.length.toUInt32, data := data},s)

def p9HandleTclunk (c : ReqCtx) (s : Server) (req resp : P9Msg) : P9Msg×Server :=
  match s.fidFind c.conn req.fid with
  | none => ({resp with type := .rclunk},s)
  | some i =>
    let e := s.fids i
    let s := if e.removeOnClunk then
      s.call (if e.isDir then .rmdir e.path else .remove e.path) else s
    ({resp with type := .rclunk},p9FidRelease s i)

def p9HandleTremove (w : World) (c : ReqCtx) (s : Server) (req resp : P9Msg) : P9Msg×Server :=
  match s.fidFind c.conn req.fid with
  | none => (resp.error "remove: unknown fid",s)
  | some i =>
    let e := s.fids i
    if e.readOnly then (resp.error (readOnlyEname c "remove"),p9FidRelease s i)
    else
      let rc := if e.isDir then w.vfsRmdir s.calls e.path else w.vfsRemove s.calls e.path
      let s := s.call (if e.isDir then .rmdir e.path else .remove e.path)
      let s := p9FidRelease s i
      if rc=0 then ({resp with type := .rremove},s) else (resp.error "remove: failed",s)

/-- The slot msize_set writes: the connection's own, else an empty one, else the oldest. -/
def msizeSlot (conn : Nat) (t : List MsizeEntry) : Nat :=
  match t.findIdx? fun e => e.msize≠0 && e.conn==conn with
  | some i => i
  | none => (List.range p9MsizeConns).foldl (fun slot i =>
      let e := t.getD i {}
      if e.msize=0 ∨ e.age<(t.getD slot {}).age then i else slot) 0

def msizeSet (c : ReqCtx) (s : Server) (msize : UInt32) : Server :=
  {s with
    msizeAge := s.msizeAge+1,
    msizes := s.msizes.set (msizeSlot c.conn s.msizes) ⟨c.conn,msize,s.msizeAge+1⟩}

def p9HandleTversion (w : World) (c : ReqCtx) (s : Server) (req resp : P9Msg) : P9Msg×Server :=
  if w.linkSessionActive then (resp.error "version: a protected session is running",s)
  else
    let s := p9FidResetConn c s
    let lp := req.lp && w.linkSessionOffered
    let msize := if 0 < req.msize ∧ req.msize<w.maxMsize then req.msize else w.maxMsize
    let msize := if lp ∧ w.maxMsize-p9TagLen < msize then w.maxMsize-p9TagLen else msize
    ({resp with type := .rversion, lp := lp, msize := msize},msizeSet c s msize)

/-- process_request on a frame p9_deserialize accepted, or `none` for one it refused. -/
def processRequest (w : World) (c : ReqCtx) (s : Server) : Option P9Msg → P9Msg×Server
  | none => ({type := .rerror, tag := 0xFFFF, ename := "Invalid 9P frame"},s)
  | some req =>
    let resp : P9Msg := {type := .unknown 0, tag := req.tag}
    let maxPayload := min (c.respMax-11) w.maxMsize.toNat
    if (req.type=.tread ∨ req.type=.tstat) ∧ !w.databufTake then (resp.error "out of memory",s)
    else
      match req.type with
      | .tversion => p9HandleTversion w c s req resp
      | .tauth => p9HandleTauth w c s req resp
      | .tattach => p9HandleTattach w c s req resp
      | .twalk => p9HandleTwalk w c s req resp
      | .topen => p9HandleTopen w c s req resp
      | .tcreate => p9HandleTcreate w c s req resp
      | .tread => p9HandleTread w c s req resp maxPayload
      | .twrite => p9HandleTwrite w c s req resp
      | .tclunk => p9HandleTclunk c s req resp
      | .tremove => p9HandleTremove w c s req resp
      | .tstat => p9HandleTstat w c s req resp maxPayload
      | .tflush => ({resp with type := .rflush},s)
      | _ => (resp.error "Unsupported 9P request type",s)

/-- The bytes p9_auth_expected hands to hmac_sha256. -/
def p9AuthMessage (e : FidEntry) : Bytes := e.nonce.bytes++e.authUname++e.authAname

theorem p9AuthExpected_eq (w : World) (e : FidEntry) (key : Bytes) :
    p9AuthExpected w e key=w.hmacSha256 key (p9AuthMessage e) := rfl

/-- The auth fid of a Tauth with this uname and aname. -/
def FidEntry.claims (e : FidEntry) (uname aname : Name) : FidEntry :=
  {e with
    authUname := copyInto p9MaxNameLen uname.bytes
    authAname := copyInto p9MaxNameLen aname.bytes}

theorem message_claims (e : FidEntry) (uname aname : Name) :
    p9AuthMessage (e.claims uname aname)=e.nonce.bytes++(uname.bytes++aname.bytes) := by
  simp [p9AuthMessage,FidEntry.claims,copyInto_of_short _ _ uname.short,
    copyInto_of_short _ _ aname.short]

/-- The front of the one aname is the end of the other uname. -/
def Shifted (u a u' a' : Bytes) : Prop :=
  ∃s,s≠[] ∧ (u'=u++s ∧ a=s++a' ∨ u=u'++s ∧ a'=s++a)

theorem append_eq_iff_shifted {u a u' a' : Bytes} (hne : (u,a)≠(u',a')) :
    u++a=u'++a' ↔ Shifted u a u' a' := by
  rw [List.append_eq_append_iff]
  constructor
  · rintro (⟨s,hu,ha⟩ | ⟨s,hu,ha⟩)
    · refine ⟨s,?_,.inl ⟨hu,ha⟩⟩
      rintro rfl
      exact hne (by simp [hu,ha])
    · refine ⟨s,?_,.inr ⟨hu,ha⟩⟩
      rintro rfl
      exact hne (by simp [hu,ha])
  · rintro ⟨s,-,⟨hu,ha⟩ | ⟨hu,ha⟩⟩
    · exact .inl ⟨s,hu,ha⟩
    · exact .inr ⟨s,hu,ha⟩

/-- Two identities on one nonce have different messages exactly when no bytes only moved from one
name to the other; where they did, the MACs are the same under every key. -/
theorem authMessage_ne_iff (e : FidEntry) (u a u' a' : Name) (hne : (u,a)≠(u',a')) :
    (p9AuthMessage (e.claims u a)≠p9AuthMessage (e.claims u' a') ↔
      ¬Shifted u.bytes a.bytes u'.bytes a'.bytes) ∧
    (Shifted u.bytes a.bytes u'.bytes a'.bytes → ∀(w : World) (key : Bytes),
      p9AuthExpected w (e.claims u a) key=p9AuthExpected w (e.claims u' a') key) := by
  have hbytes : (u.bytes,a.bytes)≠(u'.bytes,a'.bytes) := by
    intro heq
    obtain ⟨ub,us,un⟩ := u
    obtain ⟨ab,as,an⟩ := a
    obtain ⟨ub',us',un'⟩ := u'
    obtain ⟨ab',as',an'⟩ := a'
    cases heq
    exact hne rfl
  have hmsg : p9AuthMessage (e.claims u a)=p9AuthMessage (e.claims u' a') ↔
      Shifted u.bytes a.bytes u'.bytes a'.bytes := by
    rw [message_claims,message_claims,List.append_cancel_left_eq,append_eq_iff_shifted hbytes]
  refine ⟨not_congr hmsg,fun h w key => ?_⟩
  rw [p9AuthExpected_eq,p9AuthExpected_eq,hmsg.mpr h]

def carolName : Name := ⟨ofString "carol",by decide,by decide⟩

def bobbyName : Name := ⟨ofString "bobby",by decide,by decide⟩

def procTree : Name := ⟨ofString "/proc",by decide,by decide⟩

theorem authMessage_carol_bobby : p9AuthMessage (({} : FidEntry).claims carolName procTree)≠
    p9AuthMessage (({} : FidEntry).claims bobbyName procTree) := by
  refine (authMessage_ne_iff {} carolName procTree bobbyName procTree (by decide)).1.mpr ?_
  -- names of one length leave no room for bytes that moved
  rintro ⟨s,hs,⟨hu,-⟩ | ⟨hu,-⟩⟩
  · have hlen := congrArg List.length hu
    rw [List.length_append] at hlen
    exact hs (List.eq_nil_of_length_eq_zero (by simpa [carolName,bobbyName,ofString] using hlen))
  · have hlen := congrArg List.length hu
    rw [List.length_append] at hlen
    exact hs (List.eq_nil_of_length_eq_zero (by simpa [carolName,bobbyName,ofString] using hlen))

/-- carol at /proc and carol/ at proc are one message. -/
theorem authMessage_same : ¬∀(e : FidEntry) (u a u' a' : Name),(u,a)≠(u',a') →
    p9AuthMessage (e.claims u a)≠p9AuthMessage (e.claims u' a') := by
  intro h
  exact h {} carolName procTree ⟨ofString "carol/",by decide,by decide⟩
    ⟨ofString "proc",by decide,by decide⟩ (by decide) (by decide)

end LugalOS.P9
