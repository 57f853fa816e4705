import LugalOS.Httpd.Session

namespace LugalOS.Httpd

open CString Framing Memory

/-- The part of a session that has to do with what comes in. -/
structure Intake where
  rx : Bytes
  hbuf : Bytes
  hdr : WsHdr
  haveHdr : Bool
  got : Nat
  ctl : Bytes
  ibuf : Bytes
  msgLen : Nat
  msgReady : Bool
  handed : List Bytes

def HSess.intake (h : HSess) : Intake :=
  ⟨h.rx,h.hbuf,h.hdr,h.haveHdr,h.got,h.ctl,h.ibuf,h.msgLen,h.msgReady,h.handed⟩

/-- The buffers have the sizes they were made with, and the header fits its own. -/
structure Kept (max : Nat) (i : Intake) : Prop where
  ctl : i.ctl.length=128
  ibuf : i.ibuf.length=max
  hbuf : i.hbuf.length≤wsHdrMax

/-- The session has read whole frames, pre, and cur of the next one. -/
structure At (max : Nat) (i : Intake) (pre cur : Bytes) : Prop where
  kept : Kept max i
  rx : i.rx=pre++cur
  whole : ((wsFormat max).split pre).2=[]
  alive : (frames max false pre).ended=false
  msgs : i.handed++(if i.msgReady then [i.ibuf.take i.msgLen] else [])=(frames max false pre).msgs
  fits : i.msgLen ≤ max
  part : i.msgReady=false → i.ibuf.take i.msgLen=(frames max false pre).cur.getD []
  ready : i.msgReady=true → (frames max false pre).cur=none

/-- In the header of a frame. -/
structure InHeader (max : Nat) (i : Intake) (pre : Bytes) : Prop where
  base : At max i pre i.hbuf
  noHdr : i.haveHdr=false
  room : i.hbuf.length < wsHdrMax
  short : wsHead max i.hbuf=.short
  waits : i.msgReady=true → i.hbuf=[]

/-- In the payload of a frame: what has come of it stands behind the message so far. -/
structure InPayload (max : Nat) (i : Intake) (pre cur : Bytes) : Prop where
  base : At max i pre cur
  hasHdr : i.haveHdr=true
  open_ : i.msgReady=false
  parsed : 0 < (wsParseHeader cur max {}).1
  hdr : i.hdr=frameHdr max cur
  got : cur.length=frameHdrLen max cur+i.got
  most : i.got ≤ i.hdr.payloadLen
  sound : (frames max false pre).Sound max i.hdr
  data : i.hdr.opcode<wsOpClose → i.ibuf.take (i.msgLen+i.got)=
    (frames max false pre).cur.getD []++framePayload max cur

def Live (max : Nat) (i : Intake) : Prop :=
  (∃pre,InHeader max i pre) ∨ ∃ pre cur,InPayload max i pre cur ∧ i.got < i.hdr.payloadLen

/-- When the session is over: what has been handed over were messages of the stream. -/
structure Settled (max : Nat) (i : Intake) : Prop where
  kept : Kept max i
  handed : i.handed<+:(assembled max false i.rx).msgs

theorem Asm.take_msgs (a : Asm) (hdr : WsHdr) (payload : Bytes) :
    a.msgs<+:(a.take hdr payload).msgs := by
  unfold Asm.take
  split_ifs
  · exact List.prefix_refl _
  · exact List.prefix_refl _
  · exact List.prefix_append _ _
  · exact List.prefix_refl _

theorem Asm.step_msgs {max : Nat} (a : Asm) (strict : Bool) (p : Bytes) :
    a.msgs<+:(a.step max strict p).msgs := by
  unfold Asm.step
  split_ifs
  · exact List.prefix_refl _
  · exact Asm.take_msgs _ _ _
  · exact List.prefix_refl _

theorem Asm.run_msgs {max : Nat} (a : Asm) (strict : Bool) (ps : List Bytes) :
    a.msgs<+:(a.run max strict ps).msgs := by
  induction ps generalizing a with
  | nil => exact List.prefix_refl _
  | cons p ps ih => exact (a.step_msgs strict p).trans (ih (a.step max strict p))

theorem assembled_msgs (max : Nat) (strict : Bool) (s : Bytes) :
    (assembled max strict s).msgs=(frames max strict s).msgs := by
  rw [assembled,Asm.finish]
  split
  · rfl
  · rfl
  · split_ifs <;> rfl

theorem frames_append {max : Nat} {pre : Bytes} (h : ((wsFormat max).split pre).2=[])
    (strict : Bool) (cur : Bytes) : frames max strict (pre++cur)=
      (frames max strict pre).run max strict ((wsFormat max).split cur).1 ∧
      ((wsFormat max).split (pre++cur)).2=((wsFormat max).split cur).2 := by
  rw [frames,(wsFormat max).split_append,h,List.nil_append]
  exact ⟨Asm.run_append _ _ _ _,rfl⟩

theorem frames_next {max : Nat} {pre cur : Bytes} (h : ((wsFormat max).split pre).2=[])
    (strict : Bool) (hc : wsHead max cur=.frame cur.length) : frames max strict (pre++cur)=
      (frames max strict pre).step max strict cur ∧ ((wsFormat max).split (pre++cur)).2=[] := by
  obtain ⟨h1,h2⟩ := frames_append h strict cur
  rw [(wsFormat max).split_of_frame hc le_rfl,List.drop_length,
    (wsFormat max).split_of_waits (wsFormat max).waits_nil,List.take_length] at h1 h2
  exact ⟨h1,h2⟩

theorem At.settled {max : Nat} {i : Intake} {pre cur : Bytes} (h : At max i pre cur) :
    Settled max i := by
  refine ⟨h.kept,?_⟩
  rw [assembled_msgs,h.rx,(frames_append h.whole false cur).1]
  have := List.prefix_append i.handed (if i.msgReady then [i.ibuf.take i.msgLen] else [])
  rw [h.msgs] at this
  exact this.trans (Asm.run_msgs _ _ _)

theorem Live.settled {max : Nat} {i : Intake} (h : Live max i) : Settled max i := by
  rcases h with ⟨pre,h⟩ | ⟨pre,cur,h,-⟩
  · exact h.base.settled
  · exact h.base.settled

/-- A step has left the session between two reads, or over. -/
def Goes (max : Nat) (h : HSess) : Prop :=
  h.st=.ws ∧ Live max h.intake ∨ h.st≠.ws ∧ Settled max h.intake

theorem Settled.closed {max : Nat} {h : HSess} (hs : Settled max h.intake) (code : UInt16) :
    Goes max (wsCloseNow h code) := by
  refine .inr ⟨HState.noConfusion,⟨⟨?_,?_,?_⟩,?_⟩⟩
  · exact hs.kept.ctl
  · exact hs.kept.ibuf
  · exact hs.kept.hbuf
  · exact hs.handed

theorem Settled.ended {max : Nat} {h : HSess} (hs : Settled max h.intake) :
    Goes max (ended h) :=
  .inr ⟨HState.noConfusion,hs⟩

theorem At.msgLen_eq {max : Nat} {i : Intake} {pre cur : Bytes} (h : At max i pre cur)
    (hr : i.msgReady=false) : ((frames max false pre).cur.getD []).length=i.msgLen := by
  rw [← h.part hr,List.length_take,h.kept.ibuf,Nat.min_eq_left h.fits]

theorem header_exact {max : Nat} {buf b : Bytes} {hdr : WsHdr} (hb : b.length=1)
    (hs : wsHead max buf=.short) (hpos : 0 < (wsParseHeader (buf++b) max hdr).1) :
    (wsParseHeader (buf++b) max hdr).1=(buf++b).length := by
  obtain ⟨h2,hle,-⟩ := wsParseHeader_pos hpos
  by_contra hne
  have hall : (buf++b).length=buf.length+1 := by rw [List.length_append,hb]
  obtain ⟨m,hm⟩ : ∃m : Nat,(wsParseHeader (buf++b) max hdr).1=m := ⟨_,(Int.toNat_of_nonneg
    hpos.le).symm⟩
  rw [hm] at hpos h2 hle hne
  have hbuf : m≤buf.length := by omega
  have hst : (buf++b).take m=buf.take m := List.take_append_of_le_length hbuf
  have hcut := (wsParseHeader_congr (k := {}) hst (by omega) hbuf (by omega) (by omega) hm.le
    fun h => by omega).1
  have hzero : (wsParseHeader buf max {}).1=0 := by
    rw [wsHead] at hs
    split_ifs at hs with hneg h0
    exact h0
  omega

theorem sread_length {reads reads' : List (Option Bytes)} {len : Nat} {bs : Bytes}
    (h : sread reads len=(some bs,reads')) : bs.length≤len := by
  cases reads with
  | nil =>
    rw [sread,Prod.mk.injEq,Option.some.injEq] at h
    rw [← h.1]
    exact Nat.zero_le _
  | cons a as =>
    rw [sread,Prod.mk.injEq,Option.map_eq_some_iff] at h
    obtain ⟨⟨b,_,rfl⟩,_⟩ := h
    rw [List.length_take]
    exact Nat.min_le_left _ _

theorem At.header {max : Nat} {i : Intake} {pre : Bytes} (h : At max i pre i.hbuf)
    (b : Bytes) (hdr : WsHdr) (hroom : (i.hbuf++b).length≤wsHdrMax) :
    At max {i with rx := i.rx++b,hbuf := i.hbuf++b,hdr} pre (i.hbuf++b) :=
  ⟨⟨h.kept.ctl,h.kept.ibuf,hroom⟩,by rw [h.rx,List.append_assoc],h.whole,h.alive,h.msgs,h.fits,
    h.part,h.ready⟩

theorem At.setHdr {max : Nat} {i : Intake} {pre cur : Bytes} (h : At max i pre cur) (hdr : WsHdr)
    (haveHdr : Bool) (got : Nat) : At max {i with hdr,haveHdr,got} pre cur :=
  ⟨⟨h.kept.ctl,h.kept.ibuf,h.kept.hbuf⟩,h.rx,h.whole,h.alive,h.msgs,h.fits,h.part,h.ready⟩

theorem wsReadHeader_goes {max : Nat} {env : Env} {reads : List (Option Bytes)} {h : HSess}
    {pre : Bytes} (hst : h.st=.ws) (hin : InHeader max h.intake pre) (hr : h.msgReady=false) :
    let r := wsReadHeader max env reads h
    (r.2.1=.stop ∧ Goes max r.1) ∨
    (r.2.1=.again ∧ r.1.st=.ws ∧ InHeader max r.1.intake pre) ∨
    (r.2.1=.payload ∧ r.1.st=.ws ∧ ∃cur,InPayload max r.1.intake pre cur) := by
  have hlive : Live max h.intake := .inl ⟨pre,hin⟩
  unfold wsReadHeader
  cases hread : sread reads 1 with
  | mk ans reads =>
    cases ans with
    | none => exact .inl ⟨rfl,hlive.settled.ended⟩
    | some b =>
      cases b with
      | nil =>
        refine .inl ⟨rfl,?_⟩
        dsimp only
        split_ifs
        · exact hlive.settled.ended
        · exact .inl ⟨hst,hlive⟩
      | cons x bs =>
        have hle := sread_length hread
        have hb : (x::bs).length=1 := by
          rw [List.length_cons] at hle ⊢
          omega
        dsimp only
        generalize x::bs=b at hb ⊢
        have hroom := hin.room
        obtain ⟨h1,h2⟩ := wsParseHeader_init (h.hbuf++b) max {} h.hdr
        have hat := hin.base.header b (wsParseHeader (h.hbuf++b) max h.hdr).2 (by
          rw [List.length_append]
          omega)
        have hset := hat.settled
        by_cases hbad : (wsParseHeader (h.hbuf++b) max h.hdr).1<0 ∨
            (wsParseHeader (h.hbuf++b) max h.hdr).1=0 ∧ wsHdrMax≤(h.hbuf++b).length
        · rw [if_pos hbad]
          exact .inl ⟨rfl,Settled.closed hset 1002⟩
        · rw [if_neg hbad]
          by_cases hz : (wsParseHeader (h.hbuf++b) max h.hdr).1=0
          · rw [if_pos hz]
            refine .inr (.inl ⟨rfl,hst,hat,hin.noHdr,?_,?_,fun hc => ?_⟩)
            · exact Nat.lt_of_not_le fun hge => hbad (.inr ⟨hz,hge⟩)
            · change wsHead max (h.hbuf++b)=.short
              rw [wsHead,← h1,hz]
              rfl
            · exact Bool.noConfusion (hr.symm.trans hc)
          · have hpos : 0 < (wsParseHeader (h.hbuf++b) max h.hdr).1 := by omega
            rw [if_neg hz]
            by_cases hmask : (wsParseHeader (h.hbuf++b) max h.hdr).2.masked=false
            · rw [if_pos hmask]
              exact .inl ⟨rfl,Settled.closed hset 1002⟩
            · rw [if_neg hmask]
              by_cases htext : (wsParseHeader (h.hbuf++b) max h.hdr).2.opcode=wsOpText
              · rw [if_pos htext]
                exact .inl ⟨rfl,Settled.closed hset 1003⟩
              · rw [if_neg htext]
                by_cases hbig : (wsParseHeader (h.hbuf++b) max h.hdr).2.opcode≤wsOpBinary ∧
                    max < h.msgLen+(wsParseHeader (h.hbuf++b) max h.hdr).2.payloadLen
                · rw [if_pos hbig]
                  exact .inl ⟨rfl,Settled.closed hset 1009⟩
                · rw [if_neg hbig]
                  have hexact : (wsParseHeader (h.hbuf++b) max h.hdr).1=(h.hbuf++b).length :=
                    header_exact hb hin.short hpos
                  have hlen := hat.msgLen_eq hr
                  have hend : (h.hbuf++b).drop (frameHdrLen max (h.hbuf++b))=[] := by
                    rw [frameHdrLen,← h1,hexact]
                    exact List.drop_length
                  refine .inr (.inr ⟨rfl,hst,h.hbuf++b,?_,rfl,hr,h1 ▸ hpos,h2 (h1 ▸ hpos),?_,
                    Nat.zero_le _,⟨Bool.eq_true_of_not_eq_false hmask,htext,fun hop => ?_⟩,
                    fun _ => ?_⟩)
                  · exact hat.setHdr _ true 0
                  · rw [frameHdrLen,← h1,hexact]
                    rfl
                  · rw [hlen]
                    exact Nat.not_lt.mp fun hlt => hbig ⟨hop,hlt⟩
                  · rw [framePayload,hend]
                    exact (hat.part hr).trans (List.append_nil _).symm

theorem InPayload.taken {max : Nat} {i : Intake} {pre cur : Bytes} (h : InPayload max i pre cur)
    (hall : i.got=i.hdr.payloadLen) : frames max false (pre++cur)=
      (frames max false pre).take i.hdr (framePayload max cur) ∧
      ((wsFormat max).split (pre++cur)).2=[] := by
  have hpos := h.parsed
  have hc : wsHead max cur=.frame cur.length := by
    rw [wsHead,if_neg (by omega),if_neg (by omega),h.got,hall,h.hdr]
    rfl
  obtain ⟨hf,hw⟩ := frames_next h.base.whole false hc
  have hadm : (frames max false pre).Admits max false (frameHdr max cur) :=
    ⟨h.hdr ▸ h.sound,fun hs => Bool.noConfusion hs⟩
  rw [Asm.step,if_neg (fun he => Bool.noConfusion (he.symm.trans h.base.alive)),if_pos hadm,
    ← h.hdr] at hf
  exact ⟨hf,hw⟩

theorem InHeader.fresh {max : Nat} {i : Intake} {pre : Bytes} (h : At max i pre [])
    (hbuf : i.hbuf=[]) (hno : i.haveHdr=false) : InHeader max i pre :=
  ⟨hbuf ▸ h,hno,by rw [hbuf]; decide,by rw [hbuf]; rfl,fun _ => hbuf⟩

theorem queueControl_intake (h : HSess) (op : UInt8) (payload : Bytes) :
    (queueControl h op payload).intake=h.intake ∧ (queueControl h op payload).st=h.st := by
  rw [queueControl]
  split_ifs <;> exact ⟨rfl,rfl⟩

theorem opcode_data {op : UInt8}
    (h : ¬(wsOpBinary < op ∧ op < wsOpClose ∨ wsOpPong < op)) (hping : op≠wsOpPing)
    (hpong : op≠wsOpPong) (hclose : op≠wsOpClose) : op≤wsOpBinary ∧ op < wsOpClose := by
  simp only [wsOpBinary,wsOpClose,wsOpPing,wsOpPong,UInt8.lt_iff_toNat_lt,UInt8.le_iff_toNat_le,
    ne_eq,← UInt8.toNat_inj,UInt8.reduceToNat] at h hping hpong hclose ⊢
  omega

theorem wsFrameDone_goes {max : Nat} {h : HSess} {pre cur : Bytes} (hst : h.st=.ws)
    (hin : InPayload max h.intake pre cur) (hall : h.got=h.hdr.payloadLen) :
    Goes max (wsFrameDone h).1 ∧ (wsFrameDone h).2≠.payload ∧
      ((wsFrameDone h).2=.again → (wsFrameDone h).1.st=.ws) := by
  obtain ⟨hf,hw⟩ := hin.taken hall
  change frames max false (pre++cur)=(frames max false pre).take h.hdr _ at hf
  have hb := hin.base
  have hmsgs : h.handed=(frames max false pre).msgs := by
    have := hb.msgs
    rw [hin.open_] at this
    exact (List.append_nil _).symm.trans this
  have hrx : h.rx=(pre++cur)++[] := hb.rx.trans (List.append_nil _).symm
  have hnext : ∀ g : HSess,g.st=.ws → g.hbuf=[] → g.haveHdr=false → At max g.intake (pre++cur) [] →
      ∀ t : Turn,(t=if g.obuf.length≠0 then Turn.stop else Turn.again) →
      Goes max g ∧ t≠.payload ∧ (t=.again → g.st=.ws) := by
    rintro g hg hbuf hno hat _ rfl
    refine ⟨.inl ⟨hg,.inl ⟨_,InHeader.fresh hat hbuf hno⟩⟩,?_,fun _ => hg⟩
    split_ifs <;> exact Turn.noConfusion
  -- a control frame leaves the message as it was
  have hsame : (h.hdr.opcode=wsOpPing ∨ h.hdr.opcode=wsOpPong) →
      At max {h.intake with haveHdr := false,hbuf := []} (pre++cur) [] := by
    intro hop
    have hfa : frames max false (pre++cur)=frames max false pre := by
      rw [hf]
      exact if_pos hop
    exact ⟨⟨hb.kept.ctl,hb.kept.ibuf,Nat.zero_le _⟩,hrx,hw,hfa ▸ hb.alive,hfa ▸ hb.msgs,hb.fits,
      fun hr => hfa ▸ hb.part hr,fun hr => hfa ▸ hb.ready hr⟩
  unfold wsFrameDone
  dsimp only
  by_cases hping : h.hdr.opcode=wsOpPing
  · rw [if_pos hping]
    obtain ⟨hi,hs⟩ := queueControl_intake {h with haveHdr := false,hbuf := []} wsOpPong
      (h.ctl.take h.hdr.payloadLen)
    refine hnext _ (hs.trans hst) (congrArg Intake.hbuf hi) (congrArg Intake.haveHdr hi) ?_ _ rfl
    rw [hi]
    exact hsame (.inl hping)
  · rw [if_neg hping]
    by_cases hpong : h.hdr.opcode=wsOpPong
    · rw [if_pos hpong]
      exact hnext {h with haveHdr := false,hbuf := [],pingOut := false} hst rfl rfl
        (hsame (.inr hpong)) _ rfl
    · rw [if_neg hpong]
      have hctl : ¬(h.hdr.opcode=wsOpPing ∨ h.hdr.opcode=wsOpPong) := not_or.mpr ⟨hping,hpong⟩
      by_cases hclose : h.hdr.opcode=wsOpClose
      · rw [if_pos hclose]
        refine ⟨Settled.closed (h := {h with haveHdr := false,hbuf := []})
          ⟨⟨hb.kept.ctl,hb.kept.ibuf,Nat.zero_le _⟩,hb.settled.handed⟩ 1000,
          Turn.noConfusion,fun ht => Turn.noConfusion ht⟩
      · rw [if_neg hclose]
        have hknown := (wsParseHeader_known hin.parsed).1
        rw [show (wsParseHeader cur max {}).2=h.hdr from hin.hdr.symm] at hknown
        obtain ⟨hle,hlt⟩ := opcode_data hknown hping hpong hclose
        have hdata := hin.data hlt
        rw [show h.intake.got=h.hdr.payloadLen from hall] at hdata
        have hroom := hin.sound.2.2 hle
        rw [hb.msgLen_eq hin.open_] at hroom
        have htake : frames max false (pre++cur)=if h.hdr.fin=true then
            {(frames max false pre) with
              cur := none
              msgs := h.handed++[h.ibuf.take (h.msgLen+h.hdr.payloadLen)]}
            else {(frames max false pre) with
              cur := some (h.ibuf.take (h.msgLen+h.hdr.payloadLen))} := by
          rw [hf,Asm.take,if_neg hctl,if_neg hclose,hmsgs,← hdata]
          rfl
        by_cases hfin : h.hdr.fin=true
        · rw [if_pos hfin] at htake
          simp only [if_pos hfin]
          refine hnext {h with
            haveHdr := false
            hbuf := []
            msgLen := h.msgLen+h.hdr.payloadLen
            msgReady := true} hst rfl rfl ?_ _ rfl
          refine ⟨⟨hb.kept.ctl,hb.kept.ibuf,Nat.zero_le _⟩,hrx,hw,htake ▸ hb.alive,?_,hroom,
            fun hr => Bool.noConfusion hr,fun _ => by rw [htake]⟩
          rw [htake]
          rfl
        · rw [if_neg hfin] at htake
          simp only [if_neg hfin]
          refine hnext {h with haveHdr := false,hbuf := [],msgLen := h.msgLen+h.hdr.payloadLen}
            hst rfl rfl ?_ _ rfl
          refine ⟨⟨hb.kept.ctl,hb.kept.ibuf,Nat.zero_le _⟩,hrx,hw,htake ▸ hb.alive,?_,hroom,
            fun _ => by rw [htake]; rfl,fun hr => Bool.noConfusion (hin.open_.symm.trans hr)⟩
          rw [htake]
          change h.handed++(if h.msgReady=true then _ else [])=_
          rw [show h.msgReady=false from hin.open_]
          exact (List.append_nil _).trans hmsgs

theorem wsUnmask_length (bs mask : Bytes) (offset : Nat) :
    (wsUnmask bs mask offset).length=bs.length := List.length_mapIdx

theorem wsUnmask_append (as bs mask : Bytes) (offset : Nat) : wsUnmask (as++bs) mask offset=
    wsUnmask as mask offset++wsUnmask bs mask (offset+as.length) := by
  rw [wsUnmask,List.mapIdx_append]
  congr 1
  rw [wsUnmask]
  congr 1
  funext i b
  rw [Nat.add_comm i,Nat.add_assoc]

theorem frame_grows {max : Nat} {cur : Bytes} (bs : Bytes)
    (hpos : 0 < (wsParseHeader cur max {}).1) :
    (wsParseHeader (cur++bs) max {}).1=(wsParseHeader cur max {}).1 ∧
      frameHdr max (cur++bs)=frameHdr max cur ∧ frameHdrLen max (cur++bs)=frameHdrLen max cur := by
  obtain ⟨h2,hle,-⟩ := wsParseHeader_pos hpos
  have hst : cur.take cur.length=(cur++bs).take cur.length := by simp
  obtain ⟨h1,hh⟩ := wsParseHeader_congr (k := {}) hst le_rfl
    (by rw [List.length_append]; omega) (by omega) (by omega) hle (by omega)
  exact ⟨h1,hh hpos,congrArg Int.toNat h1⟩

theorem framePayload_append {max : Nat} {cur : Bytes} (bs : Bytes)
    (hpos : 0 < (wsParseHeader cur max {}).1) : framePayload max (cur++bs)=
      framePayload max cur++
        wsUnmask bs (frameHdr max cur).mask (cur.length-frameHdrLen max cur) := by
  obtain ⟨-,hh,hl⟩ := frame_grows bs hpos
  have hle : frameHdrLen max cur≤cur.length := by
    have := (wsParseHeader_pos hpos).2.1
    rw [frameHdrLen]
    omega
  rw [framePayload,framePayload,hh,hl,List.drop_append_of_le_length hle,wsUnmask_append,
    List.length_drop,Nat.zero_add]

/-- Payload goes to the control buffer or behind the message so far. -/
def Intake.more (i : Intake) (bs : Bytes) : Intake :=
  let plain := wsUnmask bs i.hdr.mask i.got
  {i with
    ctl := if wsOpClose ≤ i.hdr.opcode then store i.ctl i.got plain else i.ctl
    ibuf := if wsOpClose ≤ i.hdr.opcode then i.ibuf else store i.ibuf (i.msgLen+i.got) plain
    got := i.got+bs.length
    rx := i.rx++bs}

theorem InPayload.more {max : Nat} {i : Intake} {pre cur bs : Bytes} (h : InPayload max i pre cur)
    (hbs : i.got+bs.length ≤ i.hdr.payloadLen) : InPayload max (i.more bs) pre (cur++bs) := by
  have hb := h.base
  obtain ⟨h1,hh,hl⟩ := frame_grows bs h.parsed
  obtain ⟨hknown,hctl⟩ := wsParseHeader_known h.parsed
  rw [show (wsParseHeader cur max {}).2=i.hdr from h.hdr.symm] at hknown hctl
  have hdata : i.hdr.opcode < wsOpClose → i.msgLen+i.hdr.payloadLen ≤ max := by
    intro hlt
    have := h.sound.2.2 (UInt8.not_lt.mp fun hgt => hknown (.inl ⟨hgt,hlt⟩))
    rwa [hb.msgLen_eq h.open_] at this
  have hbuf : (i.more bs).ibuf.length=max ∧ (i.more bs).ibuf.take i.msgLen=i.ibuf.take i.msgLen := by
    change (if _ then _ else _ : Bytes).length=_ ∧ List.take _ (if _ then _ else _)=_
    split_ifs with hop
    · exact ⟨hb.kept.ibuf,rfl⟩
    · have := hdata (UInt8.not_le.mp hop)
      have hfit : i.msgLen+i.got+(wsUnmask bs i.hdr.mask i.got).length ≤ i.ibuf.length := by
        rw [wsUnmask_length,hb.kept.ibuf]
        omega
      exact ⟨(store_length hfit).trans hb.kept.ibuf,store_before (by omega) (by omega)⟩
  refine ⟨⟨⟨?_,hbuf.1,hb.kept.hbuf⟩,?_,hb.whole,hb.alive,?_,hb.fits,fun hr => ?_,hb.ready⟩,h.hasHdr,
    h.open_,h1 ▸ h.parsed,hh ▸ h.hdr,?_,hbs,h.sound,fun hlt => ?_⟩
  · change (if _ then _ else _ : Bytes).length=_
    split_ifs with hop
    · rw [store_length,hb.kept.ctl]
      have := hctl hop
      rw [wsUnmask_length,hb.kept.ctl]
      omega
    · exact hb.kept.ctl
  · change i.rx++bs=_
    rw [hb.rx,List.append_assoc]
  · have := hb.msgs
    rw [h.open_] at this
    change i.handed++(if i.msgReady=true then _ else [])=_
    rw [h.open_]
    exact this
  · exact hbuf.2.trans (hb.part hr)
  · rw [List.length_append,h.got,hl]
    exact Nat.add_assoc _ _ _
  · have hroom := hdata hlt
    have hfit : i.msgLen+i.got+(wsUnmask bs i.hdr.mask i.got).length ≤ i.ibuf.length := by
      rw [wsUnmask_length,hb.kept.ibuf]
      omega
    have htake := store_take hfit
    rw [wsUnmask_length,h.data hlt] at htake
    rw [framePayload_append bs h.parsed,← h.hdr,h.got,Nat.add_sub_cancel_left,← List.append_assoc,
      ← htake]
    change List.take (i.msgLen+(i.got+bs.length)) (if _ then _ else _)=_
    have hop : ¬wsOpClose ≤ i.hdr.opcode := UInt8.not_le.mpr hlt
    rw [if_neg hop,Nat.add_assoc]

theorem wsReadPayload_goes {max : Nat} {env : Env} {reads : List (Option Bytes)} {h : HSess}
    {pre cur : Bytes} (hst : h.st=.ws) (hin : InPayload max h.intake pre cur) :
    let r := wsReadPayload env reads h
    Goes max r.1 ∧ r.2.1≠.payload ∧ (r.2.1=.again → r.1.st=.ws) := by
  have hlast : h.got≤h.hdr.payloadLen := hin.most
  unfold wsReadPayload
  by_cases hwant : h.hdr.payloadLen-h.got≠0
  · dsimp only
    rw [if_pos hwant]
    have hlive : Live max h.intake :=
      .inr ⟨pre,cur,hin,show h.got < h.hdr.payloadLen by omega⟩
    cases hread : sread reads (h.hdr.payloadLen-h.got) with
    | mk ans reads =>
      cases ans with
      | none => exact ⟨hlive.settled.ended,Turn.noConfusion,fun ht => Turn.noConfusion ht⟩
      | some b =>
        cases b with
        | nil =>
          exact ⟨.inl ⟨hst,hlive⟩,Turn.noConfusion,fun ht => Turn.noConfusion ht⟩
        | cons x bs =>
          have hle := sread_length hread
          dsimp only
          generalize x::bs=b at hle ⊢
          have hmore := hin.more (show h.got+b.length≤h.hdr.payloadLen by omega)
          have hgo : ∀ g : HSess,g.st=.ws → g.intake=h.intake.more b →
              let r := if g.got < g.hdr.payloadLen then (g,Turn.stop,reads)
                else ((wsFrameDone g).1,(wsFrameDone g).2,reads)
              Goes max r.1 ∧ r.2.1≠.payload ∧ (r.2.1=.again → r.1.st=.ws) := by
            intro g hg hi
            rw [← hi] at hmore
            by_cases hlt : g.got < g.hdr.payloadLen
            · simp only [if_pos hlt]
              exact ⟨.inl ⟨hg,.inr ⟨pre,cur++b,hmore,hlt⟩⟩,Turn.noConfusion,
                fun ht => Turn.noConfusion ht⟩
            · simp only [if_neg hlt]
              exact wsFrameDone_goes hg hmore (Nat.le_antisymm hmore.most (Nat.not_lt.mp hlt))
          by_cases hop : wsOpClose≤h.hdr.opcode
          · simp only [if_pos hop]
            refine hgo {h with
              lastRxMs := env.now
              ctl := store h.ctl h.got (wsUnmask b h.hdr.mask h.got)
              got := h.got+b.length
              rx := h.rx++b} hst ?_
            rw [Intake.more,if_pos (show wsOpClose≤h.intake.hdr.opcode from hop),
              if_pos (show wsOpClose≤h.intake.hdr.opcode from hop)]
            rfl
          · simp only [if_neg hop]
            refine hgo {h with
              lastRxMs := env.now
              ibuf := store h.ibuf (h.msgLen+h.got) (wsUnmask b h.hdr.mask h.got)
              got := h.got+b.length
              rx := h.rx++b} hst ?_
            rw [Intake.more,if_neg (show ¬wsOpClose≤h.intake.hdr.opcode from hop),
              if_neg (show ¬wsOpClose≤h.intake.hdr.opcode from hop)]
            rfl
  · dsimp only
    rw [if_neg hwant]
    exact wsFrameDone_goes hst hin (show h.got=h.hdr.payloadLen by omega)

theorem wsRead_goes {max : Nat} {env : Env} (guard : Nat) (reads : List (Option Bytes)) {h : HSess}
    (hst : h.st=.ws) (hl : Live max h.intake) : Goes max (wsRead max env guard reads h) := by
  induction guard generalizing reads h with
  | zero => exact .inl ⟨hst,hl⟩
  | succ guard ih =>
    rw [wsRead]
    by_cases hr : h.msgReady=true
    · rw [if_pos hr]
      exact .inl ⟨hst,hl⟩
    · rw [if_neg hr]
      have hnext : ∀ (r : HSess×Turn×List (Option Bytes)),Goes max r.1 → (r.2.1=.again → r.1.st=.ws) →
          Goes max (if r.2.1=.again then wsRead max env guard r.2.2 r.1 else r.1) := by
        intro r hg hag
        by_cases ht : r.2.1=.again
        · rw [if_pos ht]
          rcases hg with ⟨-,hl⟩ | ⟨hne,-⟩
          · exact ih r.2.2 (hag ht) hl
          · exact absurd (hag ht) hne
        · rw [if_neg ht]
          exact hg
      have hpay : ∀ (r : HSess×Turn×List (Option Bytes)),r.2.1=.payload → r.1.st=.ws →
          (∃ pre cur,InPayload max r.1.intake pre cur) →
          let r := if r.2.1=.payload then wsReadPayload env r.2.2 r.1 else r
          Goes max (if r.2.1=.again then wsRead max env guard r.2.2 r.1 else r.1) := by
        rintro r ht hst ⟨pre,cur,hin⟩
        rw [if_pos ht]
        obtain ⟨hg,-,hag⟩ := @wsReadPayload_goes max env r.2.2 _ _ _ hst hin
        exact hnext _ hg hag
      by_cases hh : h.haveHdr=true
      · simp only [if_pos hh]
        rcases hl with ⟨pre,hin⟩ | ⟨pre,cur,hin,-⟩
        · exact absurd (hin.noHdr.symm.trans hh) Bool.noConfusion
        · exact hpay (h,.payload,reads) rfl hst ⟨pre,cur,hin⟩
      · simp only [if_neg hh]
        rcases hl with ⟨pre,hin⟩ | ⟨pre,cur,hin,-⟩
        · rcases @wsReadHeader_goes max env reads _ _ hst hin
            (Bool.eq_false_iff.mpr hr) with ⟨ht,hg⟩ | ⟨ht,hs,hi⟩ | ⟨ht,hs,cur,hi⟩
          · rw [if_neg (show ¬(wsReadHeader max env reads h).2.1=.payload by rw [ht]; decide)]
            exact hnext _ hg fun hag => Turn.noConfusion (ht.symm.trans hag)
          · rw [if_neg (show ¬(wsReadHeader max env reads h).2.1=.payload by rw [ht]; decide)]
            exact hnext _ (.inl ⟨hs,.inl ⟨pre,hi⟩⟩) fun _ => hs
          · exact hpay _ ht hs ⟨pre,cur,hi⟩
        · exact absurd hin.hasHdr hh

theorem drain_intake (flushed : Bool) (writes : List Int) (h : HSess) :
    (drain flushed writes h).2.1.intake=h.intake ∧ (drain flushed writes h).2.1.st=h.st := by
  induction writes generalizing h with
  | nil =>
    rw [drain]
    split_ifs <;> exact ⟨rfl,rfl⟩
  | cons n ns ih =>
    rw [drain]
    split_ifs
    · exact ⟨rfl,rfl⟩
    · exact ⟨rfl,rfl⟩
    · exact ih {h with osent := h.osent+min n.toNat (h.obuf.length-h.osent)}
    · exact ⟨rfl,rfl⟩

theorem Goes.of_same {max : Nat} {g h : HSess} (hg : Goes max g)
    (hs : h.intake=g.intake ∧ h.st=g.st) : Goes max h := by
  rw [Goes,hs.1,hs.2]
  exact hg

theorem Goes.settled {max : Nat} {h : HSess} (hg : Goes max h) : Settled max h.intake := by
  rcases hg with ⟨-,hl⟩ | ⟨-,hs⟩
  · exact hl.settled
  · exact hs

theorem Goes.over {max : Nat} {g h : HSess} (hg : Goes max g) (hi : h.intake=g.intake)
    (hst : h.st≠.ws) : Goes max h := .inr ⟨hst,hi ▸ hg.settled⟩

theorem wsLinkSend_same (max : Nat) (h : HSess) (buf : Bytes) :
    (wsLinkSend max h buf).intake=h.intake ∧ (wsLinkSend max h buf).st=h.st := by
  rw [wsLinkSend]
  split_ifs <;> exact ⟨rfl,rfl⟩

theorem Live.recv {max : Nat} {h : HSess} (hl : Live max h.intake) (hr : h.msgReady=true) :
    ∃msg,(wsLinkRecv max h).1=some msg ∧ (wsLinkRecv max h).2.st=h.st ∧
      Live max (wsLinkRecv max h).2.intake := by
  rcases hl with ⟨pre,hin⟩ | ⟨pre,cur,hin,-⟩
  · have hb := hin.base
    have hbuf : h.hbuf=[] := hin.waits hr
    have hnot : ¬(h.msgReady=false ∨ max < h.msgLen) := by
      rintro (hf | hlt)
      · exact Bool.noConfusion (hf.symm.trans hr)
      · exact absurd hlt (Nat.not_lt.mpr hb.fits)
    have hmsgs := hb.msgs
    rw [show h.intake.msgReady=true from hr,if_pos rfl] at hmsgs
    rw [wsLinkRecv,if_neg hnot]
    refine ⟨_,rfl,rfl,.inl ⟨pre,⟨⟨hb.kept.ctl,hb.kept.ibuf,hb.kept.hbuf⟩,hb.rx,hb.whole,hb.alive,
      (List.append_nil _).trans hmsgs,Nat.zero_le _,fun _ => ?_,fun hc => Bool.noConfusion hc⟩,
      hin.noHdr,hin.room,hin.short,fun hc => Bool.noConfusion hc⟩⟩
    rw [hb.ready hr]
    rfl
  · exact absurd (hin.open_.symm.trans hr) Bool.noConfusion

theorem p9LinkService_goes {max : Nat} {env : Env} {h : HSess} (hg : Goes max h) :
    Goes max (p9LinkService max env h) := by
  rw [p9LinkService]
  by_cases hno : h.protDead=true ∨ wsLinkPoll h=false
  · rw [if_pos hno]
    exact hg
  · rw [if_neg hno]
    simp only [wsLinkPoll,not_or,Bool.not_eq_false,Bool.and_eq_true,decide_eq_true_eq,
      beq_iff_eq] at hno
    obtain ⟨-,⟨hst,hr⟩,-⟩ := hno
    rcases hg with ⟨-,hl⟩ | ⟨hne,-⟩
    · obtain ⟨msg,h1,h2,h3⟩ := hl.recv hr
      have hg : Goes max (wsLinkRecv max h).2 := .inl ⟨h2.trans hst,h3⟩
      cases hrecv : wsLinkRecv max h with
      | mk ans g =>
        rw [hrecv] at h1 hg
        dsimp only at h1 hg ⊢
        rw [h1]
        dsimp only
        split_ifs
        · exact hg
        · exact hg
        · cases env.reply with
          | none => exact hg
          | some buf => exact hg.of_same (wsLinkSend_same max g buf)
    · exact absurd hst hne

theorem sessClose_goes {max : Nat} {h : HSess} (hg : Goes max h) : Goes max (sessClose h) :=
  hg.over (h := sessClose h) rfl HState.noConfusion

theorem sessStep_goes {max : Nat} {env : Env} {h : HSess} (hg : Goes max h) :
    Goes max (sessStep max env h) := by
  have hd := drain_intake env.flushed env.writes h
  unfold sessStep
  cases hdr : drain env.flushed env.writes h with
  | mk went r =>
    obtain ⟨g,writes⟩ := r
    rw [hdr] at hd
    have hgg : Goes max g := hg.of_same hd
    cases hst : h.st with
    | free => exact hg
    | closing =>
      dsimp only
      split_ifs
      · exact sessClose_goes hgg
      · exact sessClose_goes hgg
      · exact hgg
    | ws =>
      dsimp only
      by_cases hwent : went=false
      · rw [if_pos hwent]
        exact hgg
      · rw [if_neg hwent]
        rcases hgg with ⟨hgs,hgl⟩ | ⟨hne,-⟩
        · have hread := @wsRead_goes max env 8 env.reads _ hgs hgl
          generalize wsRead max env 8 env.reads g=k at hread ⊢
          have hserve : Goes max (if k.st=.ws ∧ k.msgReady=true ∧ k.obuf.length=0 then
              p9LinkService max env k else k) := by
            split_ifs
            · exact p9LinkService_goes hread
            · exact hread
          generalize (if k.st=.ws ∧ k.msgReady=true ∧ k.obuf.length=0 then
              p9LinkService max env k else k)=k at hserve ⊢
          by_cases hdead : k.st=.ws ∧ k.protDead=true
          · rw [if_pos hdead]
            exact hserve.settled.closed 1008
          · rw [if_neg hdead]
            have hout : Goes max (if k.st=.ws ∧ k.obuf.length≠0 then
                (drain env.flushed writes k).2.1 else k) := by
              split_ifs
              · exact hserve.of_same (drain_intake _ _ _)
              · exact hserve
            generalize (if k.st=.ws ∧ k.obuf.length≠0 then
                (drain env.flushed writes k).2.1 else k)=k at hout ⊢
            split_ifs
            · exact hout
            · exact (hout.of_same (queueControl_intake k wsOpPing [])).of_same ⟨rfl,rfl⟩
            · exact sessClose_goes hout
            · exact hout
        · exact absurd (hd.2.trans hst) hne

theorem Session.goes {max : Nat} {h : HSess} (hs : Session max h) : Goes max h := by
  induction hs with
  | start now answer hctl hibuf =>
    have hsplit := (wsFormat max).split_of_waits (wsFormat max).waits_nil
    have hf : frames max false []={} := by
      rw [frames,hsplit]
      rfl
    refine .inl ⟨rfl,.inl ⟨[],InHeader.fresh ⟨⟨hctl,hibuf,Nat.zero_le _⟩,rfl,by rw [hsplit],?_,?_,
      Nat.zero_le _,fun _ => ?_,fun hc => Bool.noConfusion hc⟩ rfl rfl⟩⟩
    · rw [hf]
    · rw [hf]
      rfl
    · rw [hf]
      rfl
  | step env _ ih => exact sessStep_goes ih

theorem Asm.finish_of {max : Nat} {a : Asm} {strict : Bool} {rest : Bytes}
    (h : wsHead max rest=.short ∨ ∃n,wsHead max rest=.frame n ∧
      a.Admits max strict (frameHdr max rest)) : a.finish max strict rest=a := by
  rw [Asm.finish]
  rcases h with h | ⟨n,h,hadm⟩
  · rw [h]
  · rw [h]
    exact if_pos (.inr hadm)

theorem Live.assembled {max : Nat} {i : Intake} (hl : Live max i) :
    i.handed++(if i.msgReady then [i.ibuf.take i.msgLen] else [])=
      (assembled max false i.rx).msgs ∧ (assembled max false i.rx).ended=false := by
  have hgo : ∀ pre cur,At max i pre cur → (wsFormat max).Waits cur →
      ((frames max false pre).finish max false cur=frames max false pre) →
      i.handed++(if i.msgReady then [i.ibuf.take i.msgLen] else [])=
        (Httpd.assembled max false i.rx).msgs ∧ (Httpd.assembled max false i.rx).ended=false := by
    intro pre cur hat hw hfin
    obtain ⟨hf,hr⟩ := frames_append hat.whole false cur
    rw [(wsFormat max).split_of_waits hw] at hf hr
    have : Httpd.assembled max false i.rx=frames max false pre := by
      rw [Httpd.assembled,hat.rx,hf,hr]
      exact hfin
    rw [this]
    exact ⟨hat.msgs,hat.alive⟩
  rcases hl with ⟨pre,hin⟩ | ⟨pre,cur,hin,hlt⟩
  · exact hgo pre i.hbuf hin.base
      (fun n hn => Head.noConfusion (hin.short.symm.trans hn)) (Asm.finish_of (.inl hin.short))
  · have hpos := hin.parsed
    have hhead : wsHead max cur=.frame (frameHdrLen max cur+i.hdr.payloadLen) := by
      rw [wsHead,if_neg (by omega),if_neg (by omega),hin.hdr]
      rfl
    refine hgo pre cur hin.base (fun n hn => ?_) (Asm.finish_of (.inr ⟨_,hhead,
      hin.hdr ▸ hin.sound,fun hs => Bool.noConfusion hs⟩))
    have hn : n=frameHdrLen max cur+i.hdr.payloadLen := (Head.frame.inj (hhead.symm.trans hn)).symm
    have := hin.got
    omega

theorem Goes.delivers {max : Nat} {h : HSess} (hg : Goes max h) (hp : Placed max h.rx) :
    Delivers max h := by
  have heq := assembled_strict hp
  refine ⟨heq ▸ hg.settled.handed,fun hst => ?_,fun hst => ?_⟩
  · rcases hg with ⟨-,hl⟩ | ⟨hne,-⟩
    · exact heq ▸ hl.assembled.1
    · exact absurd hst hne
  · rcases hg with ⟨-,hl⟩ | ⟨hne,-⟩
    · exact heq ▸ hl.assembled.2
    · exact absurd hst hne

/-- In every session the buffers are kept, and the messages of the stream are handed over, if no
frame comes out of order, and as long as it lasts only if; and the parser reads what is built. -/
theorem ws_messages (max : Nat) :
    (∀ h : HSess,Session max h →
      (h.ibuf.length=max ∧ h.ctl.length=128 ∧ h.hbuf.length≤wsHdrMax) ∧
      (Placed max h.rx → Delivers max h) ∧ (h.st=.ws → (Delivers max h ↔ Placed max h.rx))) ∧
    ∀ (opcode : UInt8) (len : UInt32) (mask : Option Bytes) (rest : Bytes) (hdr : WsHdr),
      WsAllowed opcode len.toNat → (∀m,mask=some m → m.length=4) → len.toNat ≤ max →
      wsParseHeader (wsBuildHeader opcode len mask++rest) max hdr=
        (((wsBuildHeader opcode len mask).length : Int),
          ⟨opcode,true,mask.isSome,mask.getD [0,0,0,0],len.toNat⟩) := by
  refine ⟨fun h hs => ?_,fun opcode len mask rest hdr hop hmask hmax =>
    wsParseHeader_build opcode len mask max rest hdr hop hmask hmax⟩
  have hg := hs.goes
  have hk := hg.settled.kept
  exact ⟨⟨hk.ibuf,hk.ctl,hk.hbuf⟩,hg.delivers,
    fun hst => ⟨fun hd => placed_of_lasts (hd.lasts hst),hg.delivers⟩⟩

def openSess : HSess where
  st := .free
  startedMs := 0
  lastRxMs := 0
  pingSentMs := 0
  ctl := List.replicate 128 0
  ibuf := List.replicate 16 0

def readEnv (reads : List Bytes) : Env where
  now := 1
  writes := [100]
  flushed := true
  reads := reads.map some
  peerClosed := false
  reply := none
  dead := false

/-- A BINARY frame, a PING and the CONTINUATION that ends the message, each under its own mask. -/
def joinedSess : HSess :=
  sessStep 16 (readEnv [[0x80],[0x84],[0],[0],[0],[9],[0,100,0,9]])
    (sessStep 16 (readEnv [[0x89],[0x80],[1],[2],[3],[4]])
      (sessStep 16 (readEnv [[0x02],[0x83],[1],[1],[1],[1],[6,1,1]]) (startWs 0 [] openSess)))

theorem ws_messages_joined : joinedSess.handed=[[7,0,0,0,100,0,0]] ∧ Delivers 16 joinedSess := by
  have hs : Session 16 joinedSess := .step _ (.step _ (.step _ (.start 0 [] rfl rfl)))
  refine ⟨by decide +kernel,((ws_messages 16).1 _ hs).2.1 (placed_of_lasts ?_)⟩
  have hrx : joinedSess.rx=[[0x02,0x83,1,1,1,1,6,1,1],[0x89,0x80,1,2,3,4],
      [0x80,0x84,0,0,0,9,0,100,0,9]].flatten := by decide +kernel
  have hsplit := (wsFormat 16).split_frames (l := [[0x02,0x83,1,1,1,1,6,1,1],
    [0x89,0x80,1,2,3,4],[0x80,0x84,0,0,0,9,0,100,0,9]]) (by decide +kernel)
  rw [hrx,assembled,frames,hsplit]
  decide +kernel

/-- A last CONTINUATION with no message open. -/
def straySess : HSess :=
  sessStep 16 (readEnv [[0x80],[0x87],[0],[0],[0],[0],[7,0,0,0,100,0,0]]) (startWs 0 [] openSess)

theorem strayContinuation_handed : Session 16 straySess ∧ ¬Delivers 16 straySess := by
  refine ⟨.step _ (.start 0 [] rfl rfl),fun hd => ?_⟩
  have hrx : straySess.rx=[[0x80,0x87,0,0,0,0,7,0,0,0,100,0,0]].flatten := by decide +kernel
  have hsplit := (wsFormat 16).split_frames (l := [[0x80,0x87,0,0,0,0,7,0,0,0,100,0,0]])
    (by decide +kernel)
  have hhanded := hd.handed
  rw [hrx,assembled,frames,hsplit] at hhanded
  exact absurd hhanded (by decide +kernel)

end LugalOS.Httpd
