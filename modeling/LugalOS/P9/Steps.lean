import LugalOS.Lib.Run
import LugalOS.P9.Server

namespace LugalOS.P9

open CString

@[simp] theorem setFid_fids (s : Server) (i : Slot) (e : FidEntry) :
    (s.setFid i e).fids=Function.update s.fids i e := rfl

@[simp] theorem setFid_calls (s : Server) (i : Slot) (e : FidEntry) :
    (s.setFid i e).calls=s.calls := rfl

@[simp] theorem call_fids (s : Server) (v : VfsCall) : (s.call v).fids=s.fids := rfl

@[simp] theorem call_calls (s : Server) (v : VfsCall) : (s.call v).calls=v::s.calls := rfl

theorem find_some (s : Server) (p : FidEntry → Bool) (i : Slot) (h : s.find p=some i) :
    p (s.fids i)=true := by
  have hi := List.find?_some h
  simpa using hi

theorem fidFind_some (s : Server) (conn : Nat) (fid : UInt32) (i : Slot)
    (h : s.fidFind conn fid=some i) :
    (s.fids i).inUse=true ∧ (s.fids i).conn=conn ∧ (s.fids i).fidValue=fid := by
  have hp := find_some s _ i h
  simp only [Bool.and_eq_true,beq_iff_eq] at hp
  exact ⟨hp.1.1,hp.1.2,hp.2⟩

theorem p9FidAlloc_some (c : ReqCtx) (s s1 : Server) (fid : UInt32) (i : Slot)
    (h : p9FidAlloc c s fid=some (i,s1)) :
    (s.fids i).inUse=false ∧ s1.calls=s.calls ∧
    s1.fids=Function.update s.fids i (freshEntry c fid (s.fidSeq+1)) := by
  unfold p9FidAlloc at h
  split at h
  · cases h
  · split at h
    · cases h
    · next hf =>
      cases h
      have hi := find_some s _ _ hf
      exact ⟨by simpa using hi,rfl,rfl⟩

theorem p9FidRelease_fids (s : Server) (i : Slot) :
    (p9FidRelease s i).fids=Function.update s.fids i {} := by
  unfold p9FidRelease
  dsimp only
  split <;> rfl

theorem p9FidRelease_calls (s : Server) (i : Slot) :
    (p9FidRelease s i).calls=s.calls ∨ (p9FidRelease s i).calls=.close (s.fids i).vfsFd::s.calls := by
  unfold p9FidRelease
  dsimp only
  split
  · exact .inr rfl
  · exact .inl rfl

theorem releaseWhere_spec (p : FidEntry → Bool) (s : Server) :
    (∀i,(releaseWhere p s).fids i=if p (s.fids i) then {} else s.fids i) ∧
    ∃new,(releaseWhere p s).calls=new++s.calls ∧ ∀v∈new,∃fd,v=.close fd := by
  have key (l : List Slot) (s : Server) : ∀t,
      t=l.foldl (fun s i => if p (s.fids i) then p9FidRelease s i else s) s →
      (∀i,t.fids i=if i∈l ∧ p (s.fids i)=true then {} else s.fids i) ∧
      ∃new,t.calls=new++s.calls ∧ ∀v∈new,∃fd,v=.close fd := by
    induction l generalizing s with
    | nil =>
      rintro t rfl
      exact ⟨by simp,[],by simp,by simp⟩
    | cons k l ih =>
      rintro t rfl
      rw [List.foldl_cons]
      by_cases hk : p (s.fids k)=true
      · rw [if_pos hk]
        obtain ⟨hf,new,hc,hn⟩ := ih (p9FidRelease s k) _ rfl
        rw [p9FidRelease_fids] at hf
        constructor
        · intro i
          rw [hf i]
          by_cases hi : i=k
          · subst hi
            simp [hk]
          · simp [hi]
        · rcases p9FidRelease_calls s k with h | h
          · exact ⟨new,by rw [hc,h],hn⟩
          · refine ⟨new++[.close (s.fids k).vfsFd],by rw [hc,h]; simp,?_⟩
            intro v hv
            rcases List.mem_append.mp hv with hv | hv
            · exact hn v hv
            · exact ⟨_,by simpa using hv⟩
      · rw [if_neg hk]
        obtain ⟨hf,hc⟩ := ih s _ rfl
        refine ⟨fun i => ?_,hc⟩
        rw [hf i]
        by_cases hi : i=k
        · subst hi
          simp [hk]
        · simp [hi]
  obtain ⟨hf,hc⟩ := key (List.finRange p9MaxFids) s _ rfl
  refine ⟨fun i => ?_,hc⟩
  rw [show (releaseWhere p s).fids i=_ from hf i]
  simp

/-- The entry a request's fid names. -/
def Named (c : ReqCtx) (s : Server) (req : P9Msg) (e : FidEntry) : Prop :=
  ∃i,s.fidFind c.conn req.fid=some i ∧ e=s.fids i

/-- Every entry a request can leave in the table in place of the one that was there. -/
inductive NewEntry (w : World) (c : ReqCtx) (s : Server) (req : P9Msg) : FidEntry → Prop
  | freed : NewEntry w c s req {}
  | auth (seq : UInt32) : req.type=.tauth →
      NewEntry w c s req {freshEntry c req.afid seq with
        isAuth := true, authed := false, nonce := w.randomBytes,
        authUname := copyInto p9MaxNameLen req.uname.bytes,
        authAname := copyInto p9MaxNameLen req.aname.bytes,
        qid := {type := p9QtAuth, path := p9PathHash (ofString "#auth")}}
  | attach (seq : UInt32) (g : AttachGate) (isDir : Bool) (qid : P9Qid) : req.type=.tattach →
      p9AttachGate w c s req=.ok g → p9PathIsSecret req.aname.bytes=false →
      NewEntry w c s req {freshEntry c req.fid seq with
        path := copyInto pathSize (attachPath req.aname.bytes), readOnly := g.readOnly c,
        admin := g.admin c, setupAttach := g.setupAttach, isDir := isDir, qid := qid,
        origin := some ⟨req,g.readOnly c⟩}
  | clone (seq : UInt32) (src : FidEntry) : req.type=.twalk → Named c s req src →
      src.isAuth=false →
      NewEntry w c s req {freshEntry c req.newfid seq with
        path := src.path, isDir := src.isDir, qid := src.qid, readOnly := src.readOnly,
        admin := src.admin, setupAttach := src.setupAttach, origin := src.origin}
  | walk (src base : FidEntry) (qid : P9Qid) : req.type=.twalk → Named c s req src →
      src.isAuth=false → (base=src ∨ ∃seq,base=freshEntry c req.newfid seq) →
      NewEntry w c s req {base with
        path := copyInto pathSize
          (walkFrom w s (copyInto pathSize src.path) src.isDir [] req.wname).2.1,
        isDir := (walkFrom w s (copyInto pathSize src.path) src.isDir [] req.wname).2.2.1,
        qid := qid, readOnly := src.readOnly, admin := src.admin,
        setupAttach := src.setupAttach, origin := src.origin}
  | open (e : FidEntry) (fd : Int) (index : UInt32) (orclose : Bool) : req.type=.topen →
      Named c s req e → e.isAuth=false → (e.readOnly=true → orclose=false) →
      NewEntry w c s req
        {e with vfsFd := fd, dirReadIndex := index, isOpen := true, removeOnClunk := orclose}
  | create (e : FidEntry) (isDir orclose : Bool) (fd : Int) (qid : P9Qid) : req.type=.tcreate →
      Named c s req e → e.isDir=true → e.isOpen=false → e.readOnly=false →
      NewEntry w c s req {e with
        path := copyInto pathSize (p9PathJoin pathSize e.path req.name.bytes), isDir := isDir,
        isOpen := true, vfsFd := fd, dirReadIndex := 0, removeOnClunk := orclose, qid := qid}
  | readDir (e : FidEntry) (index : UInt32) : req.type=.tread → Named c s req e →
      NewEntry w c s req {e with dirReadIndex := index}
  | authed (e : FidEntry) (key : Bytes) : req.type=.twrite → Named c s req e → e.isAuth=true →
      req.count=32 → w.authKeyFor e.authUname=some key →
      sha256Verify (p9AuthExpected w e key).bytes req.payload 32=true →
      NewEntry w c s req {e with authed := true}
  | burned (e : FidEntry) : req.type=.twrite → Named c s req e → e.isAuth=true →
      NewEntry w c s req {e with nonce := w.randomBytes}

/-- Every VFS call a request can make. -/
inductive NewCall (c : ReqCtx) (s : Server) (req : P9Msg) : VfsCall → Prop
  | stat (path : Bytes) : NewCall c s req (.stat path)
  | close (fd : Int) : NewCall c s req (.close fd)
  | readdir (fd : Int) : NewCall c s req (.readdir fd)
  | pread (fd : Int) (count : UInt32) (offset : UInt64) : NewCall c s req (.pread fd count offset)
  | open (e : FidEntry) (flags : VfsFlags) : req.type=.topen ∨ req.type=.tread →
      Named c s req e → flags.create=false → (e.readOnly=true → flags.writes=false) →
      NewCall c s req (.open e.path flags)
  | create (e : FidEntry) (v : VfsCall) : req.type=.tcreate → Named c s req e →
      e.isDir=true → e.isOpen=false → e.readOnly=false →
      v=.mkdir (p9PathJoin pathSize e.path req.name.bytes) ∨
        v=.open (p9PathJoin pathSize e.path req.name.bytes) createFlags → NewCall c s req v
  | pwrite (e : FidEntry) (data : Bytes) (offset : UInt64) : req.type=.twrite →
      Named c s req e → e.readOnly=false → NewCall c s req (.pwrite e.vfsFd data offset)
  | delete (e : FidEntry) (v : VfsCall) : req.type=.tclunk ∨ req.type=.tremove →
      Named c s req e → e.readOnly=false ∨ e.removeOnClunk=true →
      v=.rmdir e.path ∨ v=.remove e.path → NewCall c s req v

/-- What one request does to the table and asks of the VFS. -/
structure Effect (w : World) (c : ReqCtx) (s : Server) (req : P9Msg) (s' : Server) : Prop where
  entries : ∀i,s'.fids i=s.fids i ∨ NewEntry w c s req (s'.fids i)
  calls : ∃new,s'.calls=new++s.calls ∧ ∀v∈new,NewCall c s req v

section
variable {w : World} {c : ReqCtx} {s : Server} {req : P9Msg}

theorem effect_refl : Effect w c s req s :=
  ⟨fun _ => .inl rfl,[],rfl,by simp⟩

theorem effect_call {v : VfsCall} (hv : NewCall c s req v) : Effect w c s req (s.call v) :=
  ⟨fun _ => .inl rfl,[v],rfl,by simpa using hv⟩

theorem Effect.call {s1 : Server} (h : Effect w c s req s1) {v : VfsCall}
    (hv : NewCall c s req v) : Effect w c s req (s1.call v) := by
  obtain ⟨new,hc,hn⟩ := h.calls
  refine ⟨h.entries,v::new,by simp [hc],?_⟩
  simpa using ⟨hv,hn⟩

theorem Effect.setFid {s1 : Server} (h : Effect w c s req s1) (i : Slot) {e : FidEntry}
    (he : NewEntry w c s req e) : Effect w c s req (s1.setFid i e) := by
  refine ⟨fun j => ?_,h.calls⟩
  by_cases hj : j=i
  · subst hj
    right
    simpa using he
  · simpa [hj] using h.entries j

theorem Effect.release {s1 : Server} (h : Effect w c s req s1) (i : Slot) :
    Effect w c s req (p9FidRelease s1 i) := by
  unfold p9FidRelease
  dsimp only
  split
  · exact (h.call (.close _)).setFid i .freed
  · exact h.setFid i .freed

theorem effect_alloc {fid : UInt32} {i : Slot} {s1 : Server}
    (ha : p9FidAlloc c s fid=some (i,s1)) {s2 : Server} (hf : s2.fids=s1.fids)
    (hc : ∃new,s2.calls=new++s.calls ∧ ∀v∈new,NewCall c s req v) {e : FidEntry}
    (he : NewEntry w c s req e) : Effect w c s req (s2.setFid i e) := by
  obtain ⟨_,_,h1⟩ := p9FidAlloc_some c s s1 fid i ha
  refine ⟨fun j => ?_,hc⟩
  by_cases hj : j=i
  · subst hj
    right
    simpa using he
  · left
    simp [hj,hf,h1]

theorem alloc_entry {fid : UInt32} {i : Slot} {s1 : Server}
    (ha : p9FidAlloc c s fid=some (i,s1)) : s1.fids i=freshEntry c fid (s.fidSeq+1) := by
  rw [(p9FidAlloc_some c s s1 fid i ha).2.2,Function.update_self]

theorem p9HandleTauth_effect (ht : req.type=.tauth) (resp : P9Msg) :
    Effect w c s req (p9HandleTauth w c s req resp).2 := by
  unfold p9HandleTauth
  split_ifs
  · exact effect_refl
  · exact effect_refl
  · split
    · exact effect_refl
    · next i s1 ha =>
      dsimp only
      rw [alloc_entry ha]
      have hc := (p9FidAlloc_some c s s1 _ i ha).2.1
      exact effect_alloc ha rfl ⟨[],hc,by simp⟩ (.auth _ ht)

theorem p9HandleTattach_effect (ht : req.type=.tattach) (resp : P9Msg) :
    Effect w c s req (p9HandleTattach w c s req resp).2 := by
  unfold p9HandleTattach
  split
  · exact effect_refl
  · next g hg =>
    split_ifs with hs
    · exact effect_refl
    · split
      · exact effect_refl
      · next i s1 ha =>
        dsimp only [call_fids]
        rw [alloc_entry ha]
        have hc := (p9FidAlloc_some c s s1 _ i ha).2.1
        have hf := call_fids s1 (.stat (attachPath req.aname.bytes))
        refine effect_alloc ha hf ⟨[.stat _],by rw [call_calls,hc]; rfl,?_⟩
          (.attach _ g _ _ ht hg (by simpa using hs))
        intro v hv
        rw [List.mem_singleton.mp hv]
        exact .stat _

theorem walkFrom_effect (names : List Name) (cur : Bytes) (dir : Bool) (qids : List P9Qid)
    (s1 : Server) (h : Effect w c s req s1) (hf : s1.fids=s.fids) :
    Effect w c s req (walkFrom w s1 cur dir qids names).1 ∧
    (walkFrom w s1 cur dir qids names).1.fids=s.fids := by
  induction names generalizing s1 cur dir qids with
  | nil => exact ⟨h,hf⟩
  | cons n ns ih =>
    unfold walkFrom
    dsimp only
    split_ifs
    · exact ⟨h,hf⟩
    · split
      · exact ⟨h.call (.stat _),hf⟩
      · exact ih _ _ _ _ (h.call (.stat _)) hf

theorem walkTarget_ok {s1 s2 : Server} {i j : Slot} (hf : s1.fids=s.fids)
    (h : walkTarget c s1 req i=.ok (j,s2)) :
    s2.calls=s1.calls ∧ (∀k,k≠j → s2.fids k=s.fids k) ∧
    ((req.newfid=req.fid ∧ j=i ∧ s2=s1) ∨
      (req.newfid≠req.fid ∧ ∃seq,s2.fids j=freshEntry c req.newfid seq)) := by
  unfold walkTarget at h
  split_ifs at h with he hs
  · cases h
    exact ⟨rfl,fun k _ => by rw [hf],.inl ⟨he,rfl,rfl⟩⟩
  · split at h
    · cases h
    · next ha =>
      cases h
      obtain ⟨_,hc,hn⟩ := p9FidAlloc_some c s1 s2 _ j ha
      refine ⟨hc,fun k hk => ?_,.inr ⟨he,s1.fidSeq+1,by rw [hn,Function.update_self]⟩⟩
      rw [hn,hf,Function.update_of_ne hk]

theorem effect_target {s1 s2 : Server} {j : Slot} (h : Effect w c s req s1)
    (hc : s2.calls=s1.calls) (hk : ∀k,k≠j → s2.fids k=s.fids k) {e : FidEntry}
    (he : NewEntry w c s req e) : Effect w c s req (s2.setFid j e) := by
  refine ⟨fun k => ?_,by rw [setFid_calls,hc]; exact h.calls⟩
  by_cases hj : k=j
  · subst hj
    right
    simpa using he
  · left
    simp [hj,hk]

theorem p9HandleTwalk_effect (ht : req.type=.twalk) (resp : P9Msg) :
    Effect w c s req (p9HandleTwalk w c s req resp).2 := by
  unfold p9HandleTwalk
  split
  · exact effect_refl
  · next i hi =>
    have hn : Named c s req (s.fids i) := ⟨i,hi,rfl⟩
    dsimp only
    by_cases ha : (s.fids i).isAuth=true
    · rw [if_pos ha]
      exact effect_refl
    rw [if_neg ha]
    have ha' : (s.fids i).isAuth=false := by simpa using ha
    by_cases hw : req.wname=[]
    · rw [if_pos hw]
      split
      · exact effect_refl
      · next j s2 h2 =>
        obtain ⟨hc,hk,hj⟩ := walkTarget_ok rfl h2
        rcases hj with ⟨he,_,rfl⟩ | ⟨he,seq,hf⟩
        · rw [if_pos he]
          exact effect_refl
        · rw [if_neg he,hf]
          exact effect_target effect_refl hc hk (.clone seq _ ht hn ha')
    · rw [if_neg hw]
      have h0 : Effect w c s req s := effect_refl
      obtain ⟨he,hf⟩ := walkFrom_effect req.wname (copyInto pathSize (s.fids i).path)
        (s.fids i).isDir [] s h0 rfl
      by_cases hq : (walkFrom w s (copyInto pathSize (s.fids i).path) (s.fids i).isDir []
          req.wname).2.2.2=[]
      · rw [if_pos hq]
        exact he
      · rw [if_neg hq]
        split
        · exact he
        · next j s2 h2 =>
          obtain ⟨hc,hk,hj⟩ := walkTarget_ok hf h2
          have hb : s2.fids j=s.fids i ∨ ∃seq,s2.fids j=freshEntry c req.newfid seq := by
            rcases hj with ⟨_,rfl,rfl⟩ | ⟨_,h⟩
            · exact .inl (by rw [hf])
            · exact .inr h
          exact effect_target he hc hk (.walk (s.fids i) (s2.fids j) _ ht hn ha' hb)

theorem openFlags_create (mode : UInt8) : (openFlags mode).create=false := by
  unfold openFlags
  dsimp only
  split_ifs <;> rfl

theorem p9HandleTopen_effect (ht : req.type=.topen) (resp : P9Msg) :
    Effect w c s req (p9HandleTopen w c s req resp).2 := by
  unfold p9HandleTopen
  split
  · exact effect_refl
  · next i hi =>
    have hn : Named c s req (s.fids i) := ⟨i,hi,rfl⟩
    dsimp only
    split_ifs with ha ho hr hd hw hp hf
    · exact effect_refl
    · exact effect_refl
    · exact effect_refl
    · exact effect_refl
    · exact effect_refl
    all_goals
      have ha' : (s.fids i).isAuth=false := by simpa using ha
      have hr' : (s.fids i).readOnly=true → decide ((req.mode &&& p9OrClose)≠0)=false := by
        intro h
        simpa [h] using hr
    · apply effect_call
      exact .open _ _ (.inl ht) hn (openFlags_create _) fun h => by simpa [h] using hw
    · refine (effect_call ?_).setFid i (.open _ _ _ _ ht hn ha' hr')
      exact .open _ _ (.inl ht) hn (openFlags_create _) fun h => by simpa [h] using hw
    · exact effect_refl.setFid i (.open _ (s.fids i).vfsFd _ _ ht hn ha' hr')

theorem p9HandleTcreate_effect (ht : req.type=.tcreate) (resp : P9Msg) :
    Effect w c s req (p9HandleTcreate w c s req resp).2 := by
  unfold p9HandleTcreate
  split
  · exact effect_refl
  · next i hi =>
    have hn : Named c s req (s.fids i) := ⟨i,hi,rfl⟩
    dsimp only
    split_ifs with hd ho hr
    · exact effect_refl
    · exact effect_refl
    · exact effect_refl
    all_goals
      have hd' : (s.fids i).isDir=true := by simpa using hd
      have ho' : (s.fids i).isOpen=false := by simpa using ho
      have hr' : (s.fids i).readOnly=false := by simpa using hr
      first
      | exact effect_call (.create _ _ ht hn hd' ho' hr' (.inl rfl))
      | exact effect_call (.create _ _ ht hn hd' ho' hr' (.inr rfl))
      | exact (effect_call (.create _ _ ht hn hd' ho' hr' (.inl rfl))).setFid i
          (.create _ _ _ _ _ ht hn hd' ho' hr')
      | exact (effect_call (.create _ _ ht hn hd' ho' hr' (.inr rfl))).setFid i
          (.create _ _ _ _ _ ht hn hd' ho' hr')

theorem p9ReadDirStream_effect (ht : req.type=.tread) {i : Slot}
    (hi : s.fidFind c.conn req.fid=some i) (offset : UInt64) (cap : Nat) : Effect w c s req (p9ReadDirStream w s i offset cap).2 := by
  have hn : Named c s req (s.fids i) := ⟨i,hi,rfl⟩
  have ho : NewCall c s req (.open (s.fids i).path {read := true}) :=
    .open _ _ (.inr ht) hn rfl fun _ => rfl
  unfold p9ReadDirStream
  dsimp only
  split_ifs
  · exact (effect_call ho).setFid i (.readDir _ _ ht hn)
  · exact (effect_call ho).setFid i (.readDir _ _ ht hn)
  · exact (((effect_call ho).call (.readdir _)).call (.close _)).setFid i (.readDir _ _ ht hn)
  · exact (((effect_call ho).call (.readdir _)).call (.close _)).setFid i (.readDir _ _ ht hn)

theorem p9HandleTread_effect (ht : req.type=.tread) (resp : P9Msg) (max : Nat) :
    Effect w c s req (p9HandleTread w c s req resp max).2 := by
  unfold p9HandleTread
  dsimp only
  split
  · exact effect_refl
  · next i hi =>
    split_ifs
    · exact effect_refl
    · exact effect_refl
    · exact p9ReadDirStream_effect ht hi _ _
    · split <;> exact effect_call (.pread _ _ _)

theorem p9HandleTwrite_effect (ht : req.type=.twrite) (resp : P9Msg) :
    Effect w c s req (p9HandleTwrite w c s req resp).2 := by
  unfold p9HandleTwrite
  split
  · exact effect_refl
  · next i hi =>
    have hn : Named c s req (s.fids i) := ⟨i,hi,rfl⟩
    dsimp only
    split_ifs with ha h32 ho hr hp hw
    · exact effect_refl
    · split
      · exact effect_refl
      · next key hk =>
        split_ifs with hv
        · have h := (effect_refl (w := w)).setFid i
            (.authed (s.fids i) key ht hn ha (by simpa using h32) hk hv)
          exact ⟨h.entries,h.calls⟩
        · exact effect_refl.setFid i (.burned _ ht hn ha)
    · exact effect_refl
    · exact effect_refl
    · exact effect_refl
    · exact effect_call (.pwrite _ _ _ ht hn (by simpa using hr))
    · exact effect_call (.pwrite _ _ _ ht hn (by simpa using hr))

theorem p9HandleTclunk_effect (ht : req.type=.tclunk) (resp : P9Msg) :
    Effect w c s req (p9HandleTclunk c s req resp).2 := by
  unfold p9HandleTclunk
  split
  · exact effect_refl
  · next i hi =>
    have hn : Named c s req (s.fids i) := ⟨i,hi,rfl⟩
    dsimp only
    split_ifs with hr hd
    · exact (effect_call (.delete _ _ (.inl ht) hn (.inr hr) (.inl rfl))).release i
    · exact (effect_call (.delete _ _ (.inl ht) hn (.inr hr) (.inr rfl))).release i
    · exact effect_refl.release i

theorem p9HandleTremove_effect (ht : req.type=.tremove) (resp : P9Msg) :
    Effect w c s req (p9HandleTremove w c s req resp).2 := by
  unfold p9HandleTremove
  split
  · exact effect_refl
  · next i hi =>
    have hn : Named c s req (s.fids i) := ⟨i,hi,rfl⟩
    dsimp only
    split_ifs with hr hd hz hz
    · exact effect_refl.release i
    all_goals
      have hr' : (s.fids i).readOnly=false := by simpa using hr
      first
      | exact (effect_call (.delete _ _ (.inr ht) hn (.inl hr') (.inl rfl))).release i
      | exact (effect_call (.delete _ _ (.inr ht) hn (.inl hr') (.inr rfl))).release i

theorem p9HandleTstat_effect (resp : P9Msg) (max : Nat) :
    Effect w c s req (p9HandleTstat w c s req resp max).2 := by
  unfold p9HandleTstat
  split
  · exact effect_refl
  · dsimp only
    split_ifs
    · exact effect_refl
    all_goals split <;> exact effect_call (.stat _)

theorem p9FidResetConn_effect : Effect w c s req (p9FidResetConn c s) := by
  obtain ⟨hf,new,hc,hn⟩ := releaseWhere_spec (fun e => e.inUse && e.conn==c.conn) s
  refine ⟨fun i => ?_,new,hc,fun v hv => ?_⟩
  · unfold p9FidResetConn
    rw [hf i]
    split_ifs
    · exact .inr .freed
    · exact .inl rfl
  · obtain ⟨fd,rfl⟩ := hn v hv
    exact .close fd

theorem p9HandleTversion_effect (resp : P9Msg) :
    Effect w c s req (p9HandleTversion w c s req resp).2 := by
  have h : Effect w c s req (p9FidResetConn c s) := p9FidResetConn_effect
  unfold p9HandleTversion
  by_cases ha : w.linkSessionActive=true
  · rw [if_pos ha]
    exact effect_refl
  · rw [if_neg ha]
    exact ⟨h.entries,h.calls⟩

/-- Everything one request can do. -/
theorem processRequest_effect (w : World) (c : ReqCtx) (s : Server) (req : P9Msg) :
    Effect w c s req (processRequest w c s (some req)).2 := by
  unfold processRequest
  dsimp only
  split_ifs
  · exact effect_refl
  · split
    · exact p9HandleTversion_effect _
    · next ht => exact p9HandleTauth_effect ht _
    · next ht => exact p9HandleTattach_effect ht _
    · next ht => exact p9HandleTwalk_effect ht _
    · next ht => exact p9HandleTopen_effect ht _
    · next ht => exact p9HandleTcreate_effect ht _
    · next ht => exact p9HandleTread_effect ht _ _
    · next ht => exact p9HandleTwrite_effect ht _
    · next ht => exact p9HandleTclunk_effect ht _
    · next ht => exact p9HandleTremove_effect ht _
    · exact p9HandleTstat_effect _ _
    · exact effect_refl
    · exact effect_refl

end

end LugalOS.P9

