import LugalOS.Mqtt.Stream

namespace LugalOS.Mqtt

open CString Framing Memory

theorem getD_take {l : Bytes} {n i : Nat} (h : i < n) : (l.take n).getD i 0=l.getD i 0 := by
  rw [List.getD_eq_getElem?_getD,List.getD_eq_getElem?_getD,List.getElem?_take_of_lt h]

theorem take_drop_take {l : Bytes} {n p k : Nat} (h : p+k≤n) :
    ((l.take n).drop p).take k=(l.drop p).take k := by
  rw [List.drop_take,List.take_take,Nat.min_eq_left (by omega)]

theorem handlePublish_take (pkt : Bytes) (len : Nat) (flags : UInt8) :
    handlePublish (pkt.take len) len flags=handlePublish pkt len flags := by
  unfold handlePublish
  by_cases h2 : len<2
  · rw [if_pos h2,if_pos h2]
  · rw [if_neg h2,if_neg h2,getD_take (by omega),getD_take (by omega)]
    dsimp only
    generalize (pkt.getD 0 0).toNat<<<8 ||| (pkt.getD 1 0).toNat=tlen
    by_cases ht : len<2+tlen
    · rw [if_pos ht,if_pos ht]
    · have hk : 2+(if mqttTopicMax < tlen then mqttTopicMax else tlen)≤len := by
        split_ifs <;> omega
      rw [if_neg ht,if_neg ht,take_drop_take hk]
      by_cases hq : (flags>>>1) &&& 3≠0 ∧ len<2+tlen+2
      · rw [if_pos hq,if_pos hq]
      · have hoff : (if (flags>>>1) &&& 3≠0 then 2+tlen+2 else 2+tlen)≤len := by
          split_ifs with h0
          · exact Nat.not_lt.mp fun hlt => hq ⟨h0,hlt⟩
          · omega
        rw [if_neg hq,if_neg hq,take_drop_take (by omega)]

theorem handlePublish_inside {body : Bytes} {flags : UInt8} {call : Call}
    (h : handlePublish body body.length flags=some call) :
    call.topic<:+:body ∧ call.payload<:+body := by
  unfold handlePublish at h
  by_cases h2 : body.length<2
  · rw [if_pos h2] at h
    cases h
  · rw [if_neg h2] at h
    dsimp only at h
    generalize (if mqttTopicMax < _ then mqttTopicMax else _)=take at h
    generalize (if (flags>>>1) &&& 3≠0 then _ else _)=off at h
    split_ifs at h with ht hq
    obtain rfl := Option.some.inj h
    refine ⟨(List.take_prefix _ _).isInfix.trans (List.drop_suffix _ _).isInfix,?_⟩
    dsimp only
    rw [List.take_of_length_le (by rw [List.length_drop])]
    exact List.drop_suffix _ _

theorem dispatch_take (g : Core) (pkt : Bytes) {hdrLen : Nat} (bodyLen : Nat) (h : 0 < hdrLen) :
    dispatch g (pkt.take (hdrLen+bodyLen)) hdrLen bodyLen=dispatch g pkt hdrLen bodyLen := by
  have hbody : (pkt.take (hdrLen+bodyLen)).drop hdrLen=(pkt.drop hdrLen).take bodyLen := by
    rw [List.drop_take,Nat.add_sub_cancel_left]
  unfold dispatch
  rw [hbody,List.take_take,Nat.min_self,getD_take (by omega)]
  dsimp only
  rw [handlePublish_take]
  generalize pkt.getD 0 0 &&& 0xf0=type
  by_cases h2 : bodyLen<2
  · have h3 : bodyLen<3 := by omega
    simp only [h2,h3,if_true]
  · rw [getD_take (show 0 < bodyLen by omega),getD_take (show 1 < bodyLen by omega)]
    by_cases h3 : bodyLen<3
    · simp only [h3,if_true]
    · rw [getD_take (show 2 < bodyLen by omega)]

theorem varintLoop_short {k i v m : Nat} {buf : Bytes} (h : (varintLoop k buf i v m).1=0) :
    buf.length < k := by
  induction k generalizing buf i v m with
  | zero => exact absurd h (by simp [varintLoop])
  | succ k ih =>
    cases buf with
    | nil => simp
    | cons b buf =>
      rw [varintLoop] at h
      rw [List.length_cons]
      split_ifs at h with hb
      · omega
      · have := ih h
        omega

/-- Between two bytes of the stream: the buffer holds what has come of the next packet, or the
packet is too large and what has come of it is gone. -/
structure Settled (g : Client) (rest : Bytes) : Prop where
  size : g.rx.length=mqttRxMax
  held : (∀n,mqttHead rest=.frame n → n ≤ mqttRxMax) → g.skip=0 ∧ g.rxLen=rest.length ∧
    rest.length < mqttRxMax ∧ g.rx.take g.rxLen=rest
  gone : ∀n,mqttHead rest=.frame n → mqttRxMax < n → g.rxLen=0 ∧ g.skip=n-rest.length

theorem rest_of_buffer {rx : Bytes} {len n : Nat} (hsize : rx.length=mqttRxMax)
    (hlen : len ≤ mqttRxMax) (hn : n≤len) :
    let after := if len-n≠0 then store rx 0 ((rx.drop n).take (len-n)) else rx
    after.take (len-n)=(rx.take len).drop n ∧ after.length=mqttRxMax := by
  have hl : ((rx.drop n).take (len-n)).length=len-n := by
    rw [List.length_take,List.length_drop]
    omega
  dsimp only
  split_ifs with h0
  · have hfits : 0+((rx.drop n).take (len-n)).length ≤ rx.length := by omega
    have := store_take hfits
    rw [Nat.zero_add,hl,List.take_zero,List.nil_append] at this
    exact ⟨by rw [this,List.drop_take],by rw [store_length hfits,hsize]⟩
  · rw [not_not.mp h0,List.take_zero,List.drop_eq_nil_of_le (by rw [List.length_take]; omega)]
    exact ⟨rfl,hsize⟩

/-- Nothing has been written past the buffer's end, and what is in use is in it. -/
def Bounded (g : Client) : Prop := g.rx.length=mqttRxMax ∧ g.rxLen ≤ mqttRxMax

theorem Settled.bounded {g : Client} {rest : Bytes} (h : Settled g rest) : Bounded g := by
  refine ⟨h.size,?_⟩
  by_cases hs : ∀n,mqttHead rest=.frame n → n ≤ mqttRxMax
  · have := h.held hs
    omega
  · push Not at hs
    obtain ⟨n,hn,hbig⟩ := hs
    rw [(h.gone n hn hbig).1]
    exact Nat.zero_le _

theorem consume_received (k : Nat) (g : Client) (hsize : g.rx.length=mqttRxMax)
    (hlen : g.rxLen ≤ mqttRxMax) (hskip : g.skip=0) (hk : g.rxLen≤k) (hpos : 0 < k) :
    ∃g',consume k g=some (g',(received g.core (g.rx.take g.rxLen)).2) ∧
      g'.core=(received g.core (g.rx.take g.rxLen)).1 ∧ Bounded g' ∧
      ((received g.core (g.rx.take g.rxLen)).2=0 →
        Settled g' (mqttFormat.split (g.rx.take g.rxLen)).2) := by
  induction k generalizing g with
  | zero => exact absurd hpos (Nat.lt_irrefl 0)
  | succ k ih =>
    have hl : (g.rx.take g.rxLen).length=g.rxLen := by
      rw [List.length_take,hsize,Nat.min_eq_left hlen]
    have hdec : (g.rx.drop 1).take (g.rxLen-1)=(g.rx.take g.rxLen).drop 1 := by
      rw [List.drop_take]
    rw [consume,hdec]
    generalize hs : g.rx.take g.rxLen=s at hl ⊢
    have hwait : mqttFormat.Waits s → ending g.core s=(g.core,0) →
        (∀n,mqttHead s=.frame n → n ≤ mqttRxMax) → s.length < mqttRxMax → ∃g',
          some (g,(0 : Int))=some (g',(received g.core s).2) ∧
          g'.core=(received g.core s).1 ∧ Bounded g' ∧
          ((received g.core s).2=0 → Settled g' (mqttFormat.split s).2) := by
      intro hw he hsmall hfits
      rw [received_waits hw,mqttFormat.split_of_waits hw,he]
      exact ⟨g,rfl,rfl,⟨hsize,hlen⟩,fun _ => ⟨hsize,fun _ => ⟨hskip,hl.symm,hfits,hs⟩,
        fun n hn hbig => absurd (hsmall n hn) (by omega)⟩⟩
    cases hh : mqttHead s with
    | short =>
      have hw : mqttFormat.Waits s := fun n hn => Head.noConfusion (hh.symm.trans hn)
      have hgot := hwait hw (by rw [ending,hh]) (fun n hn => Head.noConfusion (hh.symm.trans hn))
      rcases mqttHead_short hh with h2 | hz
      · rw [if_pos (by omega)]
        exact hgot (by rw [mqttRxMax]; omega)
      · by_cases h2 : g.rxLen<2
        · rw [if_pos h2]
          exact hgot (by rw [mqttRxMax]; omega)
        · rw [if_neg h2]
          dsimp only
          rw [if_neg (by omega),if_pos hz]
          have := varintLoop_short (by rwa [mqttVarintDecode] at hz)
          rw [List.length_drop] at this
          exact hgot (by rw [mqttRxMax]; omega)
    | bad =>
      obtain ⟨h2,hneg⟩ := mqttHead_bad hh
      have hw : mqttFormat.Waits s := fun n hn => Head.noConfusion (hh.symm.trans hn)
      rw [if_neg (by omega),received_waits hw,ending,hh]
      dsimp only
      rw [if_pos hneg]
      exact ⟨g,rfl,rfl,⟨hsize,hlen⟩,fun h => absurd h (by decide)⟩
    | frame n =>
      obtain ⟨h2,hpos',hval⟩ := mqttHead_frame hh
      have hhdr := mqttHead_header hpos'
      rw [if_neg (by omega)]
      dsimp only
      rw [if_neg (by omega),if_neg (by omega),← hval]
      by_cases hbig : mqttRxMax < n
      · have hw : mqttFormat.Waits s := fun m hm => by
          obtain rfl : m=n := Head.frame.inj (hm.symm.trans hh)
          omega
        rw [if_pos hbig,received_waits hw,mqttFormat.split_of_waits hw,ending,hh]
        dsimp only
        rw [if_pos hbig]
        refine ⟨_,rfl,rfl,⟨hsize,Nat.zero_le _⟩,fun _ => ⟨hsize,fun hno => absurd (hno n hh) (by omega),
          fun m hm _ => ⟨rfl,?_⟩⟩⟩
        obtain rfl : m=n := Head.frame.inj (hm.symm.trans hh)
        dsimp only
        rw [if_pos (by omega)]
        omega
      · rw [if_neg hbig]
        by_cases hfull : g.rxLen < n
        · rw [if_pos hfull]
          have hw : mqttFormat.Waits s := fun m hm => by
            obtain rfl : m=n := Head.frame.inj (hm.symm.trans hh)
            omega
          refine hwait hw (by rw [ending,hh]; exact if_neg hbig) (fun m hm => ?_) (by omega)
          obtain rfl : m=n := Head.frame.inj (hm.symm.trans hh)
          omega
        · have hpkt : s.take n=g.rx.take n := by
            rw [← hs,List.take_take,Nat.min_eq_left (by omega)]
          have hd : dispatch g.core g.rx (1+(mqttVarintDecode (s.drop 1)).1.toNat)
              (mqttVarintDecode (s.drop 1)).2=
              dispatch g.core (s.take n) (1+(mqttVarintDecode (s.drop 1)).1.toNat)
              (mqttVarintDecode (s.drop 1)).2 := by
            rw [hpkt,hval]
            exact (dispatch_take _ _ _ (by omega)).symm
          obtain ⟨hrest,hlen'⟩ := rest_of_buffer hsize hlen (show n≤g.rxLen by omega)
          rw [if_neg hfull,received_frame hh (by omega),if_neg hbig,hd,
            mqttFormat.split_of_frame hh (by omega)]
          generalize dispatch g.core (s.take n) _ _=r
          obtain ⟨core,rc⟩ := r
          dsimp only
          generalize (if g.rxLen-n≠0 then _ else g.rx)=after at hrest hlen' ⊢
          by_cases hrc : rc=0
          · have := ih ⟨core,after,g.rxLen-n,g.skip⟩ hlen' ((Nat.sub_le _ _).trans hlen) hskip
              (show g.rxLen-n≤k by omega) (by omega)
            rw [hrest,hs] at this
            simp only [hrc,ne_eq,not_true_eq_false,if_false]
            exact this
          · simp only [hrc,ne_eq,not_false_eq_true,if_true]
            exact ⟨_,rfl,rfl,⟨hlen',(Nat.sub_le _ _).trans hlen⟩,fun h => h.elim⟩

theorem Settled.waits_gone {g : Client} {rest : Bytes} (h : Settled g rest) (hs : g.skip≠0) :
    ∃n,mqttHead rest=.frame n ∧ mqttRxMax < n := by
  by_contra hno
  push Not at hno
  exact hs (h.held hno).1

theorem Settled.small {g : Client} {rest : Bytes} (h : Settled g rest)
    (hw : mqttFormat.Waits rest) (hs : g.skip=0) : ∀n,mqttHead rest=.frame n → n ≤ mqttRxMax := by
  intro n hn
  by_contra hbig
  have := hw n hn
  have := (h.gone n hn (by omega)).2
  omega

theorem received_ok {c : Core} {s : Bytes} (h : (received c s).2=0) :
    (handle c (mqttFormat.split s).1).2=0 ∧
      received c s=ending (handle c (mqttFormat.split s).1).1 (mqttFormat.split s).2 := by
  by_cases hh : (handle c (mqttFormat.split s).1).2=0
  · exact ⟨hh,if_neg (not_not.mpr hh)⟩
  · rw [received,if_pos hh] at h
    exact absurd h hh

theorem ending_small {c : Core} {rest : Bytes}
    (hs : ∀n,mqttHead rest=.frame n → n ≤ mqttRxMax) : (ending c rest).1=c := by
  rw [ending]
  cases hh : mqttHead rest with
  | short | bad => rfl
  | frame n => exact congrArg Prod.fst (if_neg (Nat.not_lt.mpr (hs n hh)))

/-- The client has settled on rest, and stands where c has come to with it. -/
structure Between (g : Client) (c : Core) (rest : Bytes) : Prop where
  waits : mqttFormat.Waits rest
  good : (ending c rest).2=0
  core : g.core=(ending c rest).1
  settled : Settled g rest

/-- What a call that is to take s after c comes to. -/
def Comes (r : Option (Client×Int)) (c : Core) (s : Bytes) : Prop :=
  ∃g',r=some (g',(received c s).2) ∧ g'.core=(received c s).1 ∧ Bounded g' ∧
    ((received c s).2=0 → Settled g' (mqttFormat.split s).2)

theorem Between.done {g : Client} {c : Core} {rest : Bytes} (h : Between g c rest) :
    Comes (some (g,0)) c rest := by
  rw [Comes,received_waits h.waits,mqttFormat.split_of_waits h.waits,h.good]
  exact ⟨g,rfl,h.core,h.settled.bounded,fun _ => h.settled⟩

theorem Between.after {g : Client} {c : Core} {s : Bytes} (hcore : g.core=(received c s).1)
    (hrc : (received c s).2=0) (hset : Settled g (mqttFormat.split s).2) :
    Between g (handle c (mqttFormat.split s).1).1 (mqttFormat.split s).2 := by
  obtain ⟨hh,he⟩ := received_ok hrc
  exact ⟨mqttFormat.split_rest_waits s,he ▸ hrc,he ▸ hcore,hset⟩

theorem Comes.append {r : Option (Client×Int)} {c : Core} {s d : Bytes}
    (h : Comes r (handle c (mqttFormat.split s).1).1 ((mqttFormat.split s).2++d))
    (hrc : (received c s).2=0) : Comes r c (s++d) := by
  rw [Comes,received_append (received_ok hrc).1,mqttFormat.split_append s d]
  exact h

theorem Between.skips {g : Client} {c : Core} {rest : Bytes} (h : Between g c rest) {n : Nat}
    (hn : mqttHead rest=.frame n) (hbig : mqttRxMax < n) {d : Bytes} (hd : d.length≤g.skip) :
    ∃ c' rest',Between {g with skip := g.skip-d.length} c' rest' ∧
      ∀e,received c ((rest++d)++e)=received c' (rest'++e) ∧
        (mqttFormat.split ((rest++d)++e)).2=(mqttFormat.split (rest'++e)).2 := by
  obtain ⟨hlen,hskip⟩ := h.settled.gone n hn hbig
  have hlt := h.waits n hn
  have hstay : ∀e,mqttHead (rest++e)=.frame n := fun e =>
    (mqttFormat.stable rest e fun hs => Head.noConfusion (hn.symm.trans hs)).trans hn
  have hl : (rest++d).length=rest.length+d.length := List.length_append
  by_cases hall : d.length=g.skip
  · refine ⟨c.skipped,[],⟨fun m hm => Head.noConfusion hm,rfl,?_,h.settled.size,
      fun _ => ⟨?_,hlen,by decide,by rw [hlen]; rfl⟩,fun m hm => Head.noConfusion hm⟩,fun e => ?_⟩
    · rw [h.core,ending,hn]
      exact congrArg Prod.fst (if_pos hbig)
    · dsimp only
      omega
    · have hf : mqttHead ((rest++d)++e)=.frame n := by
        rw [List.append_assoc]
        exact hstay _
      have hle : n≤((rest++d)++e).length := by
        rw [List.length_append]
        omega
      have hdrop : ((rest++d)++e).drop n=e := by
        rw [show n=(rest++d).length by omega,List.drop_left]
      rw [received_frame hf hle,if_pos hbig,mqttFormat.split_of_frame hf hle,hdrop]
      exact ⟨rfl,rfl⟩
  · refine ⟨c,rest++d,⟨fun m hm => ?_,?_,?_,h.settled.size,fun hno =>
      absurd (hno n (hstay d)) (by omega),fun m hm _ => ⟨hlen,?_⟩⟩,fun e => ⟨rfl,rfl⟩⟩
    · obtain rfl : m=n := Head.frame.inj (hm.symm.trans (hstay d))
      omega
    · rw [ending,hstay d]
      dsimp only
      rw [if_pos hbig]
    · rw [h.core,ending,hn,ending,hstay d]
    · obtain rfl : m=n := Head.frame.inj (hm.symm.trans (hstay d))
      dsimp only
      omega

theorem feed_comes (k : Nat) (g : Client) (data rest : Bytes) (c : Core) (h : Between g c rest)
    (hk : data.length≤k) : Comes (feed k g data) c (rest++data) := by
  induction k generalizing g data rest c with
  | zero =>
    rw [feed,if_neg (by omega),List.length_eq_zero_iff.mp (by omega : data.length=0),
      List.append_nil]
    exact h.done
  | succ k ih =>
    rw [feed]
    by_cases h0 : data.length=0
    · rw [if_neg (not_not.mpr h0),List.length_eq_zero_iff.mp h0,List.append_nil]
      exact h.done
    · rw [if_pos h0]
      by_cases hskip : g.skip=0
      · rw [if_neg (not_not.mpr hskip)]
        dsimp only
        have hsmall := h.settled.small h.waits hskip
        obtain ⟨-,hlen,hfits,hheld⟩ := h.settled.held hsmall
        have hsize := h.settled.size
        rw [mqttRxMax] at hfits hsize ⊢
        generalize ht : (if data.length<512-g.rxLen then data.length else 512-g.rxLen)=t
        have htle : t≤data.length ∧ g.rxLen+t≤512 ∧ 0 < t := by
          split_ifs at ht <;> omega
        have hl : (data.take t).length=t := by
          rw [List.length_take,Nat.min_eq_left htle.1]
        have hstore : g.rxLen+(data.take t).length≤g.rx.length := by omega
        have hnow := store_take hstore
        have hsz := store_length hstore
        rw [hl,hheld] at hnow
        have hgot := consume_received (g.rxLen+t)
          {g with rx := store g.rx g.rxLen (data.take t),rxLen := g.rxLen+t}
          (hsz.trans hsize) htle.2.1 hskip le_rfl (by omega)
        dsimp only at hgot
        have hc : c=g.core := (ending_small hsmall).symm.trans h.core.symm
        subst hc
        rw [hnow] at hgot
        obtain ⟨g',hg,hcore,hrx,hset⟩ := hgot
        have hdata : rest++data=(rest++data.take t)++data.drop t := by
          rw [List.append_assoc,List.take_append_drop]
        rw [hg,hdata]
        dsimp only
        by_cases hrc : (received g.core (rest++data.take t)).2=0
        · have hb := Between.after hcore hrc (hset hrc)
          have hgoes := ih g' (data.drop t) _ _ hb (by rw [List.length_drop]; omega)
          rw [if_neg (not_not.mpr hrc)]
          exact hgoes.append hrc
        · rw [if_pos hrc,Comes,received_append_error hrc]
          exact ⟨g',rfl,hcore,hrx,fun h => absurd h hrc⟩
      · obtain ⟨n,hn,hbig⟩ := h.settled.waits_gone hskip
        rw [if_pos hskip]
        dsimp only
        generalize ht : (if g.skip < data.length then g.skip else data.length)=t
        have htle : t≤data.length ∧ t≤g.skip ∧ 0 < t := by
          split_ifs at ht <;> omega
        have hl : (data.take t).length=t := by
          rw [List.length_take,Nat.min_eq_left htle.1]
        obtain ⟨c',rest',hb,hsame⟩ := h.skips hn hbig (d := data.take t) (by omega)
        obtain ⟨hr,hs⟩ := hsame (data.drop t)
        rw [List.append_assoc,List.take_append_drop] at hr hs
        rw [Comes,hr,hs]
        rw [hl] at hb
        exact ih _ _ _ _ hb (by rw [List.length_drop]; omega)

theorem feedAll_comes (chunks : List Bytes) (g : Client) (rest : Bytes) (c : Core)
    (h : Between g c rest) : Comes (feedAll g chunks) c (rest++chunks.flatten) := by
  induction chunks generalizing g rest c with
  | nil =>
    rw [List.flatten_nil,List.append_nil]
    exact h.done
  | cons data chunks ih =>
    obtain ⟨g',hg,hcore,hrx,hset⟩ := feed_comes data.length g data rest c h le_rfl
    rw [feedAll,hg,List.flatten_cons,← List.append_assoc]
    dsimp only
    by_cases hrc : (received c (rest++data)).2=0
    · have hgoes := ih g' _ _ (Between.after hcore hrc (hset hrc))
      rw [if_neg (not_not.mpr hrc)]
      exact hgoes.append hrc
    · rw [if_pos hrc,Comes,received_append_error hrc]
      exact ⟨g',rfl,hcore,hrx,fun h => absurd h hrc⟩

theorem varintLoop_neg (k : Nat) (buf : Bytes) (i v m : Nat) : (varintLoop k buf i v m).1<0 ↔
    k≤buf.length ∧ ∀ b∈buf.take k,b &&& 0x80≠0 := by
  induction k generalizing buf i v m with
  | zero => simp [varintLoop]
  | succ k ih =>
    cases buf with
    | nil => simp [varintLoop]
    | cons b buf =>
      rw [varintLoop,List.take_succ_cons,List.forall_mem_cons,List.length_cons]
      by_cases hb : b &&& 0x80=0
      · rw [if_pos hb]
        refine ⟨fun h => by omega,fun h => absurd hb h.2.1⟩
      · rw [if_neg hb,ih]
        exact ⟨fun h => ⟨by omega,hb,h.2⟩,fun h => ⟨by omega,h.2.2⟩⟩

/-- A packet whose length field has four continuation bytes. -/
def FourContinued (s : Bytes) : Prop := 5 ≤ s.length ∧ ∀ b∈(s.drop 1).take 4,b &&& 0x80≠0

theorem mqttHead_bad_iff (s : Bytes) : mqttHead s=.bad ↔ FourContinued s := by
  have hneg := varintLoop_neg 4 (s.drop 1) 0 0 1
  rw [← mqttVarintDecode,List.length_drop] at hneg
  refine ⟨fun h => ?_,fun ⟨hl,hb⟩ => ?_⟩
  · have := hneg.mp (mqttHead_bad h).2
    exact ⟨by omega,this.2⟩
  · rw [mqttHead,if_neg (by omega),if_pos (hneg.mpr ⟨by omega,hb⟩)]

theorem received_error_iff (c : Core) (s : Bytes) : (received c s).2≠0 ↔
    (handle c (mqttFormat.split s).1).2≠0 ∨ FourContinued (mqttFormat.split s).2 := by
  by_cases hh : (handle c (mqttFormat.split s).1).2=0
  · have he : (ending (handle c (mqttFormat.split s).1).1 (mqttFormat.split s).2).2≠0 ↔
        mqttHead (mqttFormat.split s).2=.bad := by
      rw [ending]
      cases mqttHead (mqttFormat.split s).2 with
      | short => simp
      | bad => simp [mqttErrProto]
      | frame n =>
        dsimp only
        split_ifs <;> simp
    rw [received,if_neg (not_not.mpr hh),he,mqttHead_bad_iff]
    exact ⟨.inr,fun h => h.resolve_left (not_not.mpr hh)⟩
  · rw [received,if_pos hh]
    exact ⟨.inl,fun _ => hh⟩

/-- A packet makes the handler be called at most once, and only with its own bytes. -/
theorem dispatch_calls (c : Core) (p : Bytes) (hdrLen : Nat) :
    ∀ call∈(dispatch c p hdrLen (p.length-hdrLen)).1.calls,
      call∈c.calls ∨ call.topic<:+:p ∧ call.payload<:+p := by
  intro call hcall
  unfold dispatch at hcall
  dsimp only at hcall
  cases hpub : handlePublish (p.drop hdrLen) (p.length-hdrLen) (p.getD 0 0 &&& 0x0f) with
  | none =>
    rw [hpub] at hcall
    split_ifs at hcall <;> exact .inl hcall
  | some made =>
    rw [hpub] at hcall
    have hdrop := List.drop_suffix hdrLen p
    rw [← List.length_drop] at hpub
    obtain ⟨htopic,hpayload⟩ := handlePublish_inside hpub
    have hnew : ∀ cs : List Call,call∈cs++[made] → cs=c.calls →
        call∈c.calls ∨ call.topic<:+:p ∧ call.payload<:+p := by
      rintro cs hin rfl
      rw [List.mem_append,List.mem_singleton] at hin
      rcases hin with hin | rfl
      · exact .inl hin
      · exact .inr ⟨htopic.trans hdrop.isInfix,hpayload.trans hdrop⟩
    split_ifs at hcall <;> first | exact .inl hcall | exact hnew _ hcall rfl

theorem handle_calls (ps : List Bytes) (c : Core) : ∀ call∈(handle c ps).1.calls,
    call∈c.calls ∨ ∃p∈ps,call.topic<:+:p ∧ call.payload<:+p := by
  induction ps generalizing c with
  | nil => exact fun call h => .inl h
  | cons p ps ih =>
    intro call hcall
    have hlater : ∀ c',call∈(handle c' ps).1.calls → (call∈c'.calls →
        call∈c.calls ∨ call.topic<:+:p ∧ call.payload<:+p) →
        call∈c.calls ∨ ∃q∈p::ps,call.topic<:+:q ∧ call.payload<:+q := by
      intro c' hin hfirst
      rcases ih c' call hin with h | ⟨q,hq,hcall⟩
      · exact (hfirst h).imp id fun h => ⟨p,List.mem_cons_self,h⟩
      · exact .inr ⟨q,List.mem_cons_of_mem _ hq,hcall⟩
    have hd := dispatch_calls c p (1+(mqttVarintDecode (p.drop 1)).1.toNat) call
    rw [handle] at hcall
    split_ifs at hcall with hbig
    · exact hlater _ hcall .inl
    · dsimp only at hcall
      split_ifs at hcall with hrc
      · exact (hd hcall).imp id fun h => ⟨p,List.mem_cons_self,h⟩
      · exact hlater _ hcall hd

theorem received_calls (c : Core) (s : Bytes) : ∀ call∈(received c s).1.calls,
    call∈c.calls ∨ ∃p∈(mqttFormat.split s).1,call.topic<:+:p ∧ call.payload<:+p := by
  intro call hcall
  refine handle_calls _ c call ?_
  rw [received] at hcall
  split_ifs at hcall with hrc
  · exact hcall
  · rw [ending] at hcall
    split at hcall
    · exact hcall
    · exact hcall
    · split_ifs at hcall <;> exact hcall

/-- The bytes that come in do to the client what their packets do, whatever pieces they come in. -/
theorem mqtt_stream (g : Client) (chunks : List Bytes) (hsize : g.rx.length=mqttRxMax)
    (hlen : g.rxLen=0) (hskip : g.skip=0) :
    (∃g',feedAll g chunks=some (g',(received g.core chunks.flatten).2) ∧
      g'.core=(received g.core chunks.flatten).1 ∧ Bounded g') ∧
    (∀ packets rest,mqttFormat.split chunks.flatten=(packets,rest) →
      packets.flatten++rest=chunks.flatten ∧ (∀ p∈packets,mqttHead p=.frame p.length) ∧
      ((received g.core chunks.flatten).2≠0 ↔
        (handle g.core packets).2≠0 ∨ FourContinued rest) ∧
      ∀ call∈(received g.core chunks.flatten).1.calls,
        call∈g.core.calls ∨ ∃p∈packets,call.topic<:+:p ∧ call.payload<:+p) ∧
    ∀ value : UInt32,value.toNat≤varintMax → ∀ rest,
      mqttVarintDecode (mqttVarintEncode value++rest)=
        (((mqttVarintEncode value).length : Int),value.toNat) ∧
      0 < (mqttVarintEncode value).length ∧ (mqttVarintEncode value).length≤4 := by
  have hb : Between g g.core [] := ⟨fun n hn => Head.noConfusion hn,rfl,rfl,hsize,
    fun _ => ⟨hskip,hlen,by decide,by rw [hlen]; rfl⟩,fun n hn => Head.noConfusion hn⟩
  obtain ⟨g',hg,hcore,hrx,-⟩ := feedAll_comes chunks g [] g.core hb
  refine ⟨⟨g',hg,hcore,hrx⟩,fun packets rest hs => ?_,mqttVarintDecode_encode⟩
  have hflat := mqttFormat.split_flatten chunks.flatten
  have hiff := received_error_iff g.core chunks.flatten
  have hcalls := received_calls g.core chunks.flatten
  have hframes := fun p (hp : p∈(mqttFormat.split chunks.flatten).1) => mqttFormat.split_frame hp
  rw [hs] at hflat hiff hcalls hframes
  exact ⟨hflat,hframes,hiff,hcalls⟩

/-- A client with an empty buffer and a handler. -/
def freshClient : Client where
  core := {handler := true}
  rx := List.replicate mqttRxMax 0
  rxLen := 0
  skip := 0

/-- A message on topic "t" with payload "hi", a byte at a time. -/
theorem mqtt_stream_publish :
    (∃g',feedAll freshClient [[0x30],[5],[0],[1],[116],[104],[105]]=
      some (g',(received freshClient.core [0x30,5,0,1,116,104,105]).2) ∧
      g'.core=(received freshClient.core [0x30,5,0,1,116,104,105]).1 ∧ Bounded g') ∧
    (received freshClient.core [0x30,5,0,1,116,104,105]).1.calls=[⟨[116],[104,105],false⟩] := by
  refine ⟨(mqtt_stream freshClient [[0x30],[5],[0],[1],[116],[104],[105]] List.length_replicate
    rfl rfl).1,?_⟩
  have hw : mqttFormat.Waits [] := fun n hn => Head.noConfusion hn
  rw [received_frame (n := 7) (by decide) (by decide),if_neg (by decide)]
  dsimp only
  rw [if_neg (by decide),show List.drop 7 ([0x30,5,0,1,116,104,105] : Bytes)=[] from rfl,
    received_waits hw]
  decide

end LugalOS.Mqtt
