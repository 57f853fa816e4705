import LugalOS.Der.Sequence

namespace LugalOS.Der

open CString Memory Forest Run

variable {s : Sys}

section Failed

variable {w : Writer}

theorem putHeader_err (he : w.err=true) (tag : UInt8) (n : Nat) : putHeader w tag n=w := by
  have hf : w.fail=w := by
    cases w
    dsimp only at he
    rw [Writer.fail,he]
  unfold putHeader
  dsimp only
  simp only [putByte_err he,hf,ite_self]

theorem exec_err (he : w.err=true) (op : Op) : op.exec w=w := by
  have hu : ∀be,derPutUint w be=w := fun be => by
    rw [derPutUint,putHeader_err he,putByte_err he]
    split_ifs <;> exact putContent_err he
  cases op with
  | start tag => rw [Op.exec,derBegin,if_pos he]
  | finish => rw [Op.exec,derEnd,if_pos he]
  | put tag val => rw [Op.exec,derPut,putHeader_err he,putContent_err he]
  | putUint be => exact hu be
  | putSmall v => exact hu _
  | putRaw f => exact putContent_err he

end Failed

theorem Inv.failed (h : Inv s) (he : s.w.err=true) (op : Op) :
    Inv ⟨op.exec s.w,s.parts.play op⟩ := by
  obtain ⟨h1,h2,h3⟩ := s.parts.play_mono op
  rw [exec_err he]
  refine ⟨h.inside,fun hf => (by rw [he] at hf; cases hf),fun _ => ?_⟩
  rcases h.bad he with hb | hb | hb
  · exact .inl (h1 hb)
  · exact .inr (.inl (h2 hb))
  · exact .inr (.inr (by dsimp only; omega))

theorem Inv.wrote (h : Inv s) (he : s.w.err=false) {w : Writer} {f : Forest}
    (hw : Wrote s.w f.der w) (hf : f.Readable) : Inv ⟨w,s.parts.add f⟩ := by
  have hfine := h.fine he
  obtain ⟨hd,hp,hl,hdeep⟩ := s.parts.add_stack f
  have hlen := congrArg List.length hd
  rw [List.length_append] at hlen
  cases hw with
  | ok he' ho' hl' hop' hc' hi' =>
    refine ⟨hi',fun _ => ⟨?_,?_,?_,hl.trans hfine.long,hdeep.trans hfine.deep,
      hfine.readable.add hf⟩,fun hc => by rw [he'] at hc; cases hc⟩
    · exact ho'.trans (by rw [hfine.out,hd])
    · exact hl'.trans (by rw [hfine.len,hlen])
    · exact hop'.trans (hfine.opens.trans hp.symm)
  | full he' hc' hfull hi' =>
    refine ⟨hi',fun hc => (by rw [he'] at hc; cases hc),fun _ => .inr (.inr ?_)⟩
    dsimp only
    rw [hlen,← hfine.len,hc']
    exact hfull

theorem Inv.prim (h : Inv s) (he : s.w.err=false) {w : Writer} {tag : UInt8} {val : Bytes}
    (ht : lowTag tag) (hw : if val.length<0x10000 then Wrote s.w (element tag val) w
      else Refused s.w w) : Inv ⟨w,s.parts.prim tag val⟩ := by
  by_cases hn : val.length<0x10000
  · rw [if_pos hn] at hw
    have hp : s.parts.prim tag val=s.parts.add (.prim tag val .nil) := by
      have hl := (s.parts.add_stack (.prim tag val .nil)).2.2.1
      rw [Parts.prim,(decide_eq_false (by omega) : decide (65535<val.length)=false),
        Bool.or_false,← hl]
    rw [hp]
    refine h.wrote he ?_ ⟨ht,by omega,trivial⟩
    rw [Forest.der,Forest.der,List.append_nil]
    exact hw
  · rw [if_neg hn] at hw
    refine ⟨hw.inside,fun hc => (by rw [hw.err] at hc; cases hc),fun _ => .inl ?_⟩
    have hlong : 65535<val.length := by omega
    simp [Parts.prim,hlong]

theorem Inv.start (h : Inv s) (he : s.w.err=false) {tag : UInt8} (ht : lowTag tag) :
    Inv ⟨derBegin s.w tag,s.parts.play (.start tag)⟩ := by
  have hfine := h.fine he
  have hlen : s.w.opens.length=s.parts.stack.length := by
    rw [hfine.opens]
    generalize s.parts.stack=st
    induction st with
    | nil => rfl
    | cons e st ih => exact congrArg Nat.succ ih
  have hs := derBegin_spec h.inside he tag
  rw [hlen] at hs
  by_cases hd : s.parts.stack.length<derMaxDepth
  · rw [if_pos hd] at hs
    have hder : (s.parts.play (.start tag)).der=s.parts.der++[tag,0] := rfl
    cases hs with
    | ok he' ho' hl' hop' hc' hi' =>
      refine ⟨hi',fun _ => ⟨?_,?_,?_,hfine.long,?_,⟨hfine.readable.done,?_⟩⟩,
        fun hc => by rw [he'] at hc; cases hc⟩
      · exact ho'.trans (by rw [hfine.out,hder])
      · exact hl'.trans (by rw [hder,List.length_append,← hfine.len]; rfl)
      · exact hop'.trans (by rw [hfine.opens,hfine.len]; rfl)
      · simp [Parts.play,hfine.deep,hd]
      · intro e hm
        rcases List.mem_cons.1 hm with rfl | hm
        · exact ⟨ht,trivial⟩
        · exact hfine.readable.stack e hm
    | full he' hc' hf' hi' =>
      refine ⟨hi',fun hc => (by rw [he'] at hc; cases hc),fun _ => .inr (.inr ?_)⟩
      dsimp only
      rw [hder,List.length_append,← hfine.len,hc']
      exact hf'
  · rw [if_neg hd] at hs
    refine ⟨hs.inside,fun hc => (by rw [hs.err] at hc; cases hc),fun _ => .inr (.inl ?_)⟩
    simp [Parts.play,Nat.not_lt.1 hd]

theorem Inv.finish (h : Inv s) (he : s.w.err=false) (hst : s.parts.stack≠[])
    (hsum : Op.finish.Sums s.w) : Inv ⟨derEnd s.w,s.parts.play .finish⟩ := by
  have hfine := h.fine he
  obtain ⟨w,⟨stack,done,tl,td⟩⟩ := s
  cases stack with
  | nil => exact absurd rfl hst
  | cons e st =>
    obtain ⟨tag,inner⟩ := e
    have hop : w.opens=((openDer st done).length+1)::openPos st done := hfine.opens
    have hlen : w.len=(openDer st done).length+1+1+inner.der.length := by
      rw [hfine.len]
      simp only [Parts.der,openDer,List.length_append,List.length_cons,List.length_nil]
      omega
    have hL : w.len-((openDer st done).length+1+1)=inner.der.length := by omega
    have hs := derEnd_spec h.inside he hop (show _≤w.len by omega) (hsum _ _ hop)
    rw [hL] at hs
    obtain ⟨hd,hp,hl,hdeep⟩ := Parts.add_stack ⟨st,done,tl,td⟩ (.node tag inner .nil)
    have hder : (Parts.play ⟨(tag,inner)::st,done,tl,td⟩ .finish).der=
        openDer st done++(tag::(lenBytes inner.der.length++inner.der)) := by
      refine hd.trans ?_
      rw [Forest.der,Forest.der,List.append_nil]
      rfl
    by_cases hn : inner.der.length<0x10000
    · rw [if_pos hn] at hs
      cases hs with
      | ok he' ho' hl' hop' hc' hi' =>
        have hout : w.out=(openDer st done++[tag])++(0::inner.der) := by
          rw [hfine.out]
          simp [Parts.der,openDer]
        have htag : (openDer st done++[tag]).length=(openDer st done).length+1 := by
          rw [List.length_append,List.length_singleton]
        refine ⟨hi',fun _ => ⟨?_,?_,hop'.trans hp.symm,?_,hdeep.trans hfine.deep,?_⟩,
          fun hc => by rw [he'] at hc; cases hc⟩
        · refine ho'.trans ?_
          rw [hL,hder,hout,← htag,List.take_left,← List.drop_drop,List.drop_left]
          simp
        · refine hl'.trans ?_
          rw [hL,hder,List.length_append,List.length_cons,List.length_append]
          omega
        · have hf := hfine.long
          dsimp only at hf
          simp only [Parts.play,hf,Bool.false_or,decide_eq_false_iff_not]
          omega
        · have hr := hfine.readable
          have he' := hr.stack (tag,inner) List.mem_cons_self
          have h0 : (Parts.mk st done tl td).Readable :=
            ⟨hr.done,fun e hm => hr.stack e (List.mem_cons_of_mem _ hm)⟩
          have h1 := h0.add (f := .node tag inner .nil) ⟨he'.1,by omega,he'.2,trivial⟩
          exact ⟨h1.done,h1.stack⟩
      | full he' hc' hf' hi' =>
        refine ⟨hi',fun hc => (by rw [he'] at hc; cases hc),fun _ => .inr (.inr ?_)⟩
        rw [hL] at hf'
        dsimp only
        rw [hder,hc',List.length_append,List.length_cons,List.length_append]
        omega
    · rw [if_neg hn] at hs
      refine ⟨hs.inside,fun hc => (by rw [hs.err] at hc; cases hc),fun _ => .inl ?_⟩
      have hlong : 65535 < inner.der.length := by omega
      simp [Parts.play,hlong]

theorem Inv.step (h : Inv s) {op : Op} (hv : op.Valid s.parts) (ha : Admitted s op) :
    Inv ⟨op.exec s.w,s.parts.play op⟩ := by
  cases he : s.w.err with
  | true => exact h.failed he op
  | false =>
    have hsum := ha he
    cases op with
    | start tag => exact h.start he hv
    | finish => exact h.finish he hv hsum
    | put tag val => exact h.prim he hv (derPut_spec h.inside he tag hsum)
    | putUint be | putSmall v =>
      exact h.prim he (show ¬_ by decide) (derPutUint_spec h.inside he hsum)
    | putRaw f => exact h.wrote he (derPutRaw_spec h.inside he hsum) hv

theorem Inv.written (h : Inv s) : Written s where
  size := ⟨h.inside.size,h.inside.len⟩
  back hst he := by
    have hf := h.fine he
    have hout : s.w.out=s.parts.done.der++[] := by
      rw [hf.out,Parts.der,hst,List.append_nil]
      rfl
    rw [hout]
    refine ⟨read_der (fun tag val rest ht hl => derNext_element rest ht hl) hf.readable.done [],
      read_der (fun tag val rest ht hl => ?_) hf.readable.done []⟩
    rw [expectCall,derExpect_element rest ht hl]
    rfl
  err hst := by
    have hd : s.parts.der=s.parts.done.der := by rw [Parts.der,hst]; rfl
    constructor
    · intro he
      rw [← hd]
      exact h.bad he
    · intro hb
      cases he : s.w.err with
      | true => rfl
      | false =>
        have hf := h.fine he
        have hin := h.inside.len
        rw [hf.long,hf.deep,← hd,← hf.len] at hb
        rcases hb with hb | hb | hb
        · cases hb
        · cases hb
        · omega

/-- Every sequence of calls whose sums have 32 bits. -/
theorem der_written {buf : Bytes} {cap : Nat} (hb : buf.length=cap) (hc : cap<2^32) {h : List Op}
    {s : Sys} (hr : Reach (fun s op s' => Step s op s' ∧ Admitted s op) (Sys.init buf cap) h s) :
    Written s := by
  refine Inv.written (hr.invariant (fun _ s => Inv s) ?_ ?_)
  · refine ⟨⟨hb,hc,Nat.zero_le _⟩,fun _ => ⟨rfl,rfl,rfl,rfl,rfl,⟨trivial,fun e he => (by cases he)⟩⟩,
      fun he => by cases he⟩
  · rintro _ s op s' hi ⟨⟨hv,rfl⟩,ha⟩
    exact hi.step hv ha

theorem Step.of_valid {s : Sys} (op : Op) (hv : op.Valid s.parts) : Step s op (s.play op) :=
  ⟨hv,rfl⟩

/-- INTEGER 200 in a SEQUENCE, in a buffer of 16 bytes. -/
def smallSys : Sys :=
  (((Sys.init (List.replicate 16 0) 16).play (.start 0x30)).play (.putSmall 200)).play .finish

theorem der_written_small : Written smallSys ∧ smallSys.w.out=[0x30,4,0x02,2,0,200] := by
  have h1 := Step.of_valid (s := Sys.init (List.replicate 16 0) 16) (.start 0x30)
    (show ¬_ by decide)
  have hsmall : Room ((Sys.init (List.replicate 16 0) 16).play (.start 0x30)).w 2 1 :=
    ⟨by decide,fun _ _ => by decide⟩
  have h2 := Step.of_valid (s := (Sys.init (List.replicate 16 0) 16).play (.start 0x30))
    (.putSmall 200) trivial
  have h3 := Step.of_valid
    (s := ((Sys.init (List.replicate 16 0) 16).play (.start 0x30)).play (.putSmall 200)) .finish
    (show _≠[] by decide)
  have hlast : Admitted (((Sys.init (List.replicate 16 0) 16).play (.start 0x30)).play
      (.putSmall 200)) .finish := fun _ at' opens hop => by
    obtain ⟨rfl,rfl⟩ := List.cons.inj (show [1]=at'::opens from hop)
    decide
  refine ⟨@der_written (List.replicate 16 0) 16 rfl (by decide) _ _
    (((Reach.start.next ⟨h1,?_⟩).next ⟨h2,?_⟩).next ⟨h3,hlast⟩),by decide⟩
  · exact fun _ => trivial
  · exact fun _ => hsmall

def nulls : Nat → Forest
  | 0 => .nil
  | n+1 => .prim 0x05 [] (nulls n)

theorem nulls_readable (n : Nat) : (nulls n).Readable := by
  induction n with
  | zero => exact trivial
  | succ n ih => exact ⟨show ¬_ by decide,Nat.zero_le _,ih⟩

theorem nulls_length (n : Nat) : (nulls n).der.length=2*n := by
  induction n with
  | zero => rfl
  | succ n ih =>
    rw [nulls,Forest.der,List.length_append,ih]
    change 2+2*n=_
    omega

/-- Behind a NULL, 2^32-2 bytes of DER wrap the sum, and are copied past the buffer. -/
theorem raw_past_end : ¬∀(buf : Bytes) (cap : Nat) (h : List Op) (s : Sys),buf.length=cap →
    cap<2^32 → Reach Step (Sys.init buf cap) h s → Written s := by
  intro hall
  obtain ⟨n,hn⟩ : ∃n,2*n=2^32-2 := ⟨2^31-1,by decide⟩
  have h1 : Step (Sys.init (List.replicate 16 0) 16) (.put 0x05 [])
      ⟨⟨0x05::0::List.replicate 14 0,16,2,[],false⟩,⟨[],nulls 1,false,false⟩⟩ :=
    ⟨show ¬_ by decide,rfl⟩
  have h2 := Step.of_valid
    (s := ⟨⟨0x05::0::List.replicate 14 0,16,2,[],false⟩,⟨[],nulls 1,false,false⟩⟩)
    (.putRaw (nulls n)) (nulls_readable n)
  have hw := (hall _ _ _ _ rfl (by decide) ((Reach.start.next h1).next h2)).size.1
  have hl := nulls_length n
  rw [Sys.play,Op.exec,derPutRaw,putContent,if_neg (show ¬(false=true) by decide),hl,hn,
    if_neg (by decide)] at hw
  dsimp only at hw
  rw [store,List.length_append,List.length_append,hl,hn] at hw
  omega

end LugalOS.Der
