import LugalOS.P9.Steps

namespace LugalOS.P9

open CString Run

/-- One call into the server, with the state it found. -/
inductive Event where
  | request (pre : Server) (w : World) (c : ReqCtx) (frame : Option P9Msg) (resp : P9Msg)
  | closed (pre : Server) (conn : Nat) (seq : UInt32)

/-- The calls into the server whose accepted frames meet ok; other connections' calls and link
closures come in between in any order. -/
inductive ServerStep (ok : World → ReqCtx → Server → P9Msg → Prop) : Server → Event → Server → Prop
  | request (s : Server) (w : World) (c : ReqCtx) (frame : Option P9Msg) :
      (∀req,frame=some req → ok w c s req) →
      ServerStep ok s (.request s w c frame (processRequest w c s frame).1)
        (processRequest w c s frame).2
  | closed (s : Server) (conn : Nat) (seq : UInt32) :
      ServerStep ok s (.closed s conn seq) (p9ServerConnClosed conn seq s)

def AnyRequest : World → ReqCtx → Server → P9Msg → Prop := fun _ _ _ _ => True

/-- Requests on conn arrive on a link that requires authentication. -/
def OnAuthLink (conn : Nat) (_ : World) (c : ReqCtx) (_ : Server) (_ : P9Msg) : Prop :=
  c.conn=conn → c.policyNeedsAuth=true

section
variable {ok : World → ReqCtx → Server → P9Msg → Prop}

theorem reach_request {h : List Event} {s : Server} (hr : Reach (ServerStep ok) p9Init h s)
    (w : World) (c : ReqCtx) (req : P9Msg) (ho : ok w c s req) :
    Reach (ServerStep ok) p9Init (.request s w c (some req) (processRequest w c s (some req)).1::h)
      (processRequest w c s (some req)).2 := by
  refine hr.next (.request s w c (some req) ?_)
  rintro _ ⟨⟩
  exact ho

theorem p9ServerConnClosed_fids (conn : Nat) (seq : UInt32) (s : Server) (i : Slot) :
    (p9ServerConnClosed conn seq s).fids i={} ∨
    (p9ServerConnClosed conn seq s).fids i=s.fids i := by
  unfold p9ServerConnClosed
  rw [(releaseWhere_spec _ s).1 i]
  split_ifs
  · exact .inl rfl
  · exact .inr rfl

theorem entries_invariant (inv : FidEntry → Prop) (h0 : inv {})
    (hn : ∀w c s req e,(∀i,inv (s.fids i)) → ok w c s req → NewEntry w c s req e → inv e)
    {h : List Event} {s : Server} (hr : Reach (ServerStep ok) p9Init h s) (i : Slot) :
    inv (s.fids i) := by
  refine Reach.invariant (fun _ s => ∀i,inv (s.fids i)) (fun _ => h0) ?_ hr i
  intro h s e s' hi hs i
  cases hs with
  | request w c frame ho =>
    cases frame with
    | none => exact hi i
    | some req =>
      rcases (processRequest_effect w c s req).entries i with he | he
      · rw [he]
        exact hi i
      · exact hn w c s req _ hi (ho req rfl) he
  | closed conn seq =>
    rcases p9ServerConnClosed_fids conn seq s i with he | he <;> rw [he]
    · exact h0
    · exact hi i

theorem calls_invariant (inv : FidEntry → Prop) (good : VfsCall → Prop) (h0 : inv {})
    (hn : ∀w c s req e,(∀i,inv (s.fids i)) → ok w c s req → NewEntry w c s req e → inv e)
    (hg : ∀w c s req v,(∀i,inv (s.fids i)) → ok w c s req → NewCall c s req v → good v)
    (hc : ∀fd,good (.close fd))
    {h : List Event} {s : Server} (hr : Reach (ServerStep ok) p9Init h s) :
    ∀v∈s.calls,good v := by
  induction hr with
  | start => simp [p9Init]
  | next hr hs ih =>
    have hi := entries_invariant inv h0 hn hr
    cases hs with
    | request w c frame ho =>
      cases frame with
      | none => exact ih
      | some req =>
        obtain ⟨new,he,hv⟩ := (processRequest_effect w c _ req).calls
        intro v hm
        rw [he] at hm
        rcases List.mem_append.mp hm with hm | hm
        · exact hg w c _ req v hi (ho req rfl) (hv v hm)
        · exact ih v hm
    | closed conn seq =>
      obtain ⟨new,he,hv⟩ := (releaseWhere_spec _ _).2
      intro v hm
      unfold p9ServerConnClosed at hm
      rw [he] at hm
      rcases List.mem_append.mp hm with hm | hm
      · obtain ⟨fd,rfl⟩ := hv v hm
        exact hc fd
      · exact ih v hm

end

theorem Named.spec {c : ReqCtx} {s : Server} {req : P9Msg} {e : FidEntry} (h : Named c s req e) :
    e.inUse=true ∧ e.conn=c.conn ∧ e.fidValue=req.fid ∧ ∃i,e=s.fids i := by
  obtain ⟨i,hi,rfl⟩ := h
  obtain ⟨hu,hc,hf⟩ := fidFind_some s _ _ i hi
  exact ⟨hu,hc,hf,i,rfl⟩

theorem NewEntry.conn {w : World} {c : ReqCtx} {s : Server} {req : P9Msg} {e : FidEntry}
    (h : NewEntry w c s req e) (hu : e.inUse=true) : e.conn=c.conn := by
  cases h with
  | freed => cases hu
  | auth | attach | clone => rfl
  | walk src base qid _ hn _ hb =>
    rcases hb with rfl | ⟨seq,rfl⟩
    · exact hn.spec.2.1
    · rfl
  | «open» e _ _ _ _ hn | create e _ _ _ _ _ hn | readDir e _ _ hn | authed e _ _ hn
  | burned e _ hn => exact hn.spec.2.1

/-- A volume-less board: /proc and /proc/board are there. -/
def boardWorld : World where
  vfsStat := fun _ path =>
    if path=ofString "/proc" then some ⟨0,true⟩
    else if path=ofString "/proc/board" then some ⟨64,false⟩
    else none

/-- A link that requires authentication. -/
def authLink : ReqCtx := {conn := 1, policy := .required}

/-- The attach every peer may make without an afid. -/
def boardAttach : P9Msg :=
  {type := .tattach, fid := 0, afid := p9Nofid,
    aname := ⟨ofString "/proc/board",by decide,by decide⟩}

end LugalOS.P9
