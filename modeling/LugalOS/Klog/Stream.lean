import Mathlib.Data.List.Infix
import LugalOS.Klog.Reading
import LugalOS.Lib.Run

namespace LugalOS.Klog

open CString LittleEndian RingStream Run

variable {b : Build}

inductive Event (b : Build) where
  | recordText (ms : UInt32) (text : Bytes) (onConsole : Bool)
  | emit (ms : UInt32) (text : Bytes)
  | emitTok (ms : UInt32) (fmt : Fin (256^b.ptrSize)) (blob rendered : Bytes)
  | clear
  | read (off count : Nat)
  /-- The reader goes on from where it stands. -/
  | next (count : Nat)

/-- The record a call gives to ring_append. -/
def Event.record : Event b → Option (Rec b)
  | .recordText ms text onConsole => some (.text ms (text.take klogRecMax) onConsole)
  | .emit ms text => some (.text ms (text.take klogRecMax) false)
  | .emitTok ms fmt blob rendered =>
    if klogBlobMax<blob.length ∨ klogLenMask < rendered.length then
      some (.text ms (rendered.take klogRecMax) false)
    else some (.tok ms fmt blob)
  | .clear | .read _ _ | .next _ => none

/-- printk_render gives a tokenised record the length that is recorded. -/
def Event.Rendered : Event b → Prop
  | .emitTok _ fmt blob rendered => blob.length≤klogBlobMax → rendered.length≤klogLenMask →
    (b.render fmt blob).length=rendered.length
  | _ => True

/-- The log beside everything that was ever appended, and a reader: from where it reads, where it
stands, and what it got; lapped once it stood before the oldest byte. -/
structure Sys (b : Build) where
  klog : Log
  log : List (Rec b)
  start : Nat
  pos : Nat
  got : Bytes
  lapped : Bool

def Sys.init (ring : Nat → UInt8) (start : Nat) : Sys b := ⟨Log.init ring,[],start,start,[],false⟩

/-- The record, unless it is dropped because the ring itself is too small for it. -/
def Event.appended (e : Event b) : Option (Rec b) :=
  e.record.filter fun r => r.stored.length≤b.ringSize

def Sys.play (s : Sys b) (e : Event b) : Sys b :=
  let log := s.log++e.appended.toList
  match e with
  | .recordText ms text onConsole =>
    {s with klog := klogRecordText b s.klog ms text onConsole,log := log}
  | .emit ms text => {s with klog := klogEmit b s.klog ms text,log := log}
  | .emitTok ms fmt blob rendered =>
    {s with klog := klogEmitTok b s.klog ms fmt blob rendered,log := log}
  | .clear => {s with klog := klogClear s.klog}
  | .read _ _ => s
  | .next count =>
    let bytes := klogRead b s.klog s.pos count
    {s with
      pos := s.pos+bytes.length
      got := s.got++bytes
      lapped := s.lapped || s.pos < s.klog.renderOldest}

/-- A call that klog_read's scratch line and the 64-bit positions can take. -/
def Admitted (s : Sys b) (e : Event b) : Prop :=
  ∀r,e.appended=some r → (r.tokenised=true → r.body.length≤klogRecMax) ∧
    s.klog.storedTotal+r.stored.length<2^64 ∧ s.klog.renderTotal+r.rendered.length<2^64

def Step (s : Sys b) (e : Event b) (s' : Sys b) : Prop := e.Rendered ∧ s'=s.play e

/-- The ring holds whole records, the rendered positions are the lengths of what they stand for,
and readers get the log. -/
structure Stream (s : Sys b) : Prop where
  whole : ∃gone kept,s.log=gone++kept ∧
    Holds s.klog.ring b.ringSize s.klog.storedOldest (storedAll kept) ∧
    s.klog.storedTotal=s.klog.storedOldest+(storedAll kept).length ∧
    s.klog.renderOldest=(renderedAll gone).length ∧
    s.klog.renderTotal-s.klog.renderOldest=(kept.map fun r => r.rendered.length).sum
  read : ∀off n,klogRead b s.klog off n=
    ((renderedAll s.log).drop (max off s.klog.renderOldest)).take n
  pos : s.pos=s.start+s.got.length
  got : s.lapped=false → s.got<+:(renderedAll s.log).drop s.start

/-- The state of the ring, and what the reader has so far. -/
structure Inv (s : Sys b) : Prop where
  keeps : ∃gone kept,s.log=gone++kept ∧ Keeps s.klog gone kept
  pos : s.pos=s.start+s.got.length
  got : s.lapped=false → s.got<+:(renderedAll s.log).drop s.start

theorem Inv.stream {s : Sys b} (h : Inv s) : Stream s := by
  obtain ⟨gone,kept,hlog,hk⟩ := h.keeps
  have hrt := hk.renderTotal
  refine ⟨⟨gone,kept,hlog,hk.held,hk.storedTotal,hk.renderOldest,?_⟩,fun off n => ?_,h.pos,h.got⟩
  · rw [hrt,Nat.add_sub_cancel_left,renderedAll,List.length_flatMap]
  · rw [hlog]; exact hk.read off n

section Append

variable {k : Log} {gone kept : List (Rec b)}

theorem Keeps.counters (h : Keeps k gone kept) (t d : UInt32) :
    Keeps {k with truncations := t,drops := d} gone kept :=
  ⟨h.storedOldest,h.storedTotal,h.renderOldest,h.renderTotal,h.held,h.fits,h.stored,h.render⟩

theorem cutText_spec (k : Log) (text : Bytes) :
    ∃t,cutText k text=({k with truncations := t},text.take klogRecMax) := by
  unfold cutText
  by_cases h : klogRecMax<text.length
  · exact ⟨k.truncations+1,by rw [if_pos h]⟩
  · exact ⟨k.truncations,by rw [if_neg h,List.take_of_length_le (Nat.not_lt.1 h)]⟩

theorem Keeps.appended (h : Keeps k gone kept) {r : Rec b} (hf : r.Fits)
    (hs : k.storedTotal+r.stored.length<2^64) (hr : k.renderTotal+r.rendered.length<2^64)
    (hring : r.stored.length≤b.ringSize) (t : UInt32) :
    ∃gone' kept',(gone++kept)++[r]=gone'++kept' ∧
      Keeps (ringAppend b {k with truncations := t} r.ms r.payload r.onConsole r.tokenised
        r.body.length) gone' kept' := by
  obtain ⟨moved,kept',hk,hk'⟩ := (h.counters t k.drops).append hf hring hs hr
  exact ⟨gone++moved,kept'++[r],by rw [hk,List.append_assoc,List.append_assoc,List.append_assoc],
    hk'⟩

theorem Keeps.dropped (h : Keeps k gone kept) {r : Rec b} (hring : ¬r.stored.length≤b.ringSize)
    (t : UInt32) :
    Keeps (ringAppend b {k with truncations := t} r.ms r.payload r.onConsole r.tokenised
      r.body.length) gone kept := by
  rw [Rec.stored_length] at hring
  rw [ringAppend,if_pos (by omega)]
  exact h.counters t _

end Append

theorem Sys.play_record (s : Sys b) {e : Event b} (hrend : e.Rendered) {r : Rec b}
    (hr : e.record=some r) :
    ∃t,s.play e={s with
      klog := ringAppend b {s.klog with truncations := t} r.ms r.payload r.onConsole r.tokenised
        r.body.length
      log := s.log++e.appended.toList} := by
  have htext : ∀ms text c,∃t,klogRecordText b s.klog ms text c=ringAppend b
      {s.klog with truncations := t} ms (text.take klogRecMax) c false
      (text.take klogRecMax).length := fun ms text c => by
    obtain ⟨t,ht⟩ := cutText_spec s.klog text
    exact ⟨t,by rw [klogRecordText,ht]⟩
  cases e with
  | recordText ms text c =>
    obtain ⟨t,ht⟩ := htext ms text c
    cases hr
    exact ⟨t,by rw [play,ht]; rfl⟩
  | emit ms text =>
    obtain ⟨t,ht⟩ := htext ms text false
    cases hr
    exact ⟨t,by rw [play,show klogEmit b s.klog ms text=_ from ht]; rfl⟩
  | emitTok ms fmt blob rendered =>
    rw [Event.record] at hr
    by_cases hc : klogBlobMax<blob.length ∨ klogLenMask < rendered.length
    · obtain ⟨t,ht⟩ := htext ms rendered false
      rw [if_pos hc] at hr
      cases hr
      exact ⟨t,by rw [play,klogEmitTok,if_pos hc,show klogEmit b s.klog ms rendered=_ from ht]; rfl⟩
    · have hlen := hrend (Nat.not_lt.1 fun h => hc (.inl h)) (Nat.not_lt.1 fun h => hc (.inr h))
      rw [if_neg hc] at hr
      cases hr
      refine ⟨s.klog.truncations,?_⟩
      rw [play,klogEmitTok,if_neg hc,← hlen]
      rfl
  | clear | read _ _ | next _ => cases hr

theorem Event.record_text {e : Event b} {ms : UInt32} {t : Bytes} {c : Bool}
    (hr : e.record=some (.text ms t c)) : t.length≤klogRecMax := by
  cases e with
  | recordText _ _ _ | emit _ _ => cases hr; exact List.length_take_le _ _
  | emitTok ms' fmt' blob' rendered =>
    rw [Event.record] at hr
    split at hr
    · cases hr; exact List.length_take_le _ _
    · cases hr
  | clear | read _ _ | next _ => cases hr

theorem Event.record_tok {e : Event b} {ms : UInt32} {fmt : Fin (256^b.ptrSize)} {blob : Bytes}
    (hr : e.record=some (.tok ms fmt blob)) : blob.length≤klogBlobMax := by
  cases e with
  | emitTok ms' fmt' blob' rendered =>
    rw [Event.record] at hr
    split at hr
    · cases hr
    · next hc =>
      cases hr
      exact Nat.not_lt.1 fun h => hc (.inl h)
  | recordText _ _ _ | emit _ _ | clear | read _ _ | next _ => cases hr

theorem Event.record_fits {e : Event b} {r : Rec b} (hr : e.record=some r)
    (hb : r.tokenised=true → r.body.length≤klogRecMax) : r.Fits := by
  cases r with
  | text ms t c => exact ⟨Event.record_text hr,fun _ _ _ h => by cases h⟩
  | tok ms fmt blob => exact ⟨hb rfl,fun _ _ _ h => by cases h; exact Event.record_tok hr⟩

theorem Inv.step {s s' : Sys b} {e : Event b} (h : Inv s) (ha : Admitted s e) (hs : Step s e s') :
    Inv s' := by
  obtain ⟨hrend,rfl⟩ := hs
  obtain ⟨gone,kept,hlog,hk⟩ := h.keeps
  cases hr : e.record with
  | some r =>
    obtain ⟨t,ht⟩ := s.play_record hrend hr
    rw [ht]
    have hst : e.appended=if r.stored.length≤b.ringSize then some r else none := by
      rw [Event.appended,hr,Option.filter_some]
      simp only [decide_eq_true_eq]
    by_cases hring : r.stored.length≤b.ringSize
    · rw [if_pos hring] at hst
      obtain ⟨hb,h1,h2⟩ := ha r hst
      obtain ⟨gone',kept',hl,hk'⟩ := hk.appended (Event.record_fits hr hb) h1 h2 hring t
      rw [hst,Option.toList_some]
      refine ⟨⟨gone',kept',by rw [← hl,hlog],hk'⟩,h.pos,fun hlap => ?_⟩
      have hm : renderedAll s.log<+:renderedAll (s.log++[r]) :=
        ⟨_,(renderedAll_append _ _).symm⟩
      exact (h.got hlap).trans (List.IsPrefix.drop hm s.start)
    · rw [if_neg hring] at hst
      rw [hst,Option.toList_none,List.append_nil]
      exact ⟨⟨gone,kept,hlog,hk.dropped hring t⟩,h.pos,h.got⟩
  | none =>
    cases e with
    | recordText _ _ _ | emit _ _ => cases hr
    | emitTok _ _ _ _ => rw [Event.record] at hr; split at hr <;> cases hr
    | clear =>
      exact ⟨⟨gone++kept,[],by rw [List.append_nil]; exact hlog,hk.clear⟩,h.pos,h.got⟩
    | read _ _ => exact h
    | next count =>
      have hpos := h.pos
      refine ⟨⟨gone,kept,hlog,hk⟩,?_,fun hlap => ?_⟩
      · simp only [Sys.play,List.length_append]; omega
      · simp only [Sys.play,Bool.or_eq_false_iff,decide_eq_false_iff_not,Nat.not_lt] at hlap ⊢
        obtain ⟨rest,hrest⟩ := h.got hlap.1
        have hread : klogRead b s.klog s.pos count=rest.take count := by
          rw [hk.read,← hlog,Nat.max_eq_left hlap.2,hpos,← List.drop_drop,← hrest,
            List.drop_left]
        exact ⟨rest.drop count,by
          rw [hread,List.append_assoc,List.take_append_drop,hrest]⟩

/-- Every state of a run of admitted calls, with any reader beside them. -/
theorem klog_stream {ring : Nat → UInt8} {start : Nat} {h : List (Event b)} {s : Sys b}
    (hr : Reach (fun s e s' => Step s e s' ∧ Admitted s e) (Sys.init ring start) h s) :
    Stream s := by
  refine Inv.stream (hr.invariant (fun _ s => Inv s) ?_ fun _ s e s' hi hs => hi.step hs.2 hs.1)
  exact ⟨⟨[],[],rfl,keeps_init ring⟩,rfl,fun _ => ⟨_,rfl⟩⟩

/-- A build whose only format renders to n bytes. -/
def oneFormat (n : Nat) : Build := ⟨8192,8,fun _ _ => List.replicate n 120,.inr rfl⟩

def oneLine (n : Nat) : Event (oneFormat n) :=
  .emitTok 10 ⟨0,show 0<256^8 by decide⟩ [] (List.replicate n 120)

def oneLineLog (n : Nat) : Sys (oneFormat n) := (Sys.init (fun _ => 0) 0).play (oneLine n)

def smallRing : Build := ⟨64,8,fun _ _ => List.replicate 5 120,.inr rfl⟩

def tokLine : Event smallRing := .emitTok 10 ⟨0,show 0<256^8 by decide⟩ [] (List.replicate 5 120)

def textLine (c : UInt8) : Event smallRing := .emit 20 (List.replicate 20 c)

def twoLines : Sys smallRing := (((Sys.init (fun _ => 0) 0).play tokLine).play (textLine 97)).play
  (.next 100)

/-- The third record wraps around the ring's end and puts the first one out. -/
def wrapped : Sys smallRing := (twoLines.play (textLine 98)).play (.next 100)

theorem klog_stream_wrapped :
    Stream wrapped ∧ wrapped.klog.storedOldest=16 ∧ wrapped.klog.storedTotal=68 ∧
      wrapped.lapped=false ∧ wrapped.got.length=81 := by
  have hnext : ∀s : Sys smallRing,Step s (.next 100) (s.play (.next 100)) ∧
      Admitted s (.next 100) := fun s => ⟨⟨trivial,rfl⟩,fun r hr => by cases hr⟩
  have htok : Admitted (Sys.init (fun _ => 0) 0) tokLine := fun r hr => by
    obtain rfl : Rec.tok 10 _ []=r := Option.some.inj hr
    decide +kernel
  have htext : ∀(s : Sys smallRing) c,s.klog.storedTotal<1000 ∧ s.klog.renderTotal<1000 →
      Step s (textLine c) (s.play (textLine c)) ∧ Admitted s (textLine c) := by
    refine fun s c hs => ⟨⟨trivial,rfl⟩,fun r hr => ?_⟩
    obtain rfl : Rec.text 20 (List.replicate 20 c) false=r := Option.some.inj hr
    refine ⟨fun h => (by cases h),?_,?_⟩
    · rw [Rec.stored_length,Rec.payload,List.length_replicate,klogHdrLen]
      omega
    · have hts : (tsRender 20).length<100 := by decide +kernel
      rw [Rec.rendered,List.length_append,Rec.body,List.length_replicate,Rec.ms]
      omega
  have h1 : Step (Sys.init (fun _ => 0) 0) tokLine ((Sys.init (fun _ => 0) 0).play tokLine) :=
    ⟨fun _ _ => rfl,rfl⟩
  have hrun : Reach (fun s e s' => Step s e s' ∧ Admitted s e) _ _ wrapped :=
    ((((Reach.start.next ⟨h1,htok⟩).next (htext _ 97 (by decide +kernel))).next
      (hnext _)).next (htext twoLines 98 (by decide +kernel))).next (hnext _)
  exact ⟨@klog_stream _ (fun _ => 0) 0 _ _ hrun,by decide +kernel,by decide +kernel,
    by decide +kernel,by decide +kernel⟩

/-- A line of 321 bytes is tokenised, and its last byte is read as a space. -/
theorem long_token_garbled :
    ¬∀(b : Build) (ring : Nat → UInt8) (start : Nat) (h : List (Event b)) (s : Sys b),
      Reach Step (Sys.init ring start) h s → Stream s := by
  intro hall
  have hrun : Reach Step (Sys.init (fun _ => 0) 0) [oneLine 321] (oneLineLog 321) :=
    Reach.start.next ⟨fun _ _ => rfl,rfl⟩
  have hread := (hall _ _ _ _ _ hrun).read 332 1
  revert hread
  decide +kernel

end LugalOS.Klog
