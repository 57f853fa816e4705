import LugalOS.Spartan.Server
import LugalOS.P9.Aliases

namespace LugalOS.Spartan

open CString
open Fat32 (DirEntry Fat32Fs filenameTo83 pad83 toUpper extDot dotdotName namesOf walkNames outNameSize)
open P9 (Mounts mountGet resolve sd0)

variable {e : Env} {cap : Nat} {dst : Bytes}

theorem ksnprintf_length (h : dst.length≤cap) (text : Bytes) :
    (ksnprintf cap dst text).length≤cap := by
  simp only [ksnprintf,List.length_append,List.length_take]
  omega

theorem emitSpans_length (ss : List MdSpan) (links : List (Bytes×Bytes)) (h : dst.length≤cap) :
    (emitSpans cap ss dst links).1.length≤cap := by
  induction ss generalizing dst links with
  | nil => exact h
  | cons s ss ih =>
    unfold emitSpans
    split
    · refine ih _ ?_
      split
      · exact ksnprintf_length h _
      · exact h
    · refine ih _ ?_
      simp only [List.length_append,List.length_take]
      omega

theorem emitLinks_length (ls : List (Bytes×Bytes)) (h : dst.length≤cap) :
    (emitLinks cap ls dst).length≤cap := by
  induction ls generalizing dst with
  | nil => exact h
  | cons l ls ih =>
    unfold emitLinks
    split
    · exact ih (ksnprintf_length h _)
    · exact h

theorem emitGmiLine_length (raw : Bytes) {g : Gmi} (h : g.dst.length≤cap) :
    (spartanEmitGmiLine e raw cap g).dst.length≤cap := by
  unfold spartanEmitGmiLine
  split
  · exact h
  · dsimp only
    split
    · exact ksnprintf_length h _
    · split
      all_goals first
        | exact ksnprintf_length h _
        | (refine emitLinks_length _ ?_
           have hs (ss : List MdSpan) := emitSpans_length ss [] h
           split
           · simp only [List.length_append,List.length_singleton]
             omega
           · exact hs _)

theorem convertBytes_length (bs line : Bytes) {g : Gmi} (h : g.dst.length≤cap) :
    (convertBytes e cap bs line g).2.2.dst.length≤cap := by
  induction bs generalizing line g with
  | nil => exact h
  | cons ch rest ih =>
    unfold convertBytes
    split
    · exact ih _ h
    · split
      · dsimp only
        split
        · exact emitGmiLine_length _ h
        · exact ih _ (emitGmiLine_length _ h)
      · split <;> exact ih _ h

theorem convertLoop_length (cs : List Bytes) (line : Bytes) {g : Gmi} (h : g.dst.length≤cap) :
    (convertLoop e cap cs line g).dst.length≤cap := by
  have hend (line : Bytes) {g : Gmi} (h : g.dst.length≤cap) :
      (if line≠[] then spartanEmitGmiLine e (cstr line) cap g else g).dst.length≤cap := by
    split
    · exact emitGmiLine_length _ h
    · exact h
  induction cs generalizing line g with
  | nil => exact hend line h
  | cons c cs ih =>
    unfold convertLoop
    have hb := convertBytes_length (e := e) (c.take 512) line h
    split
    · exact hend line h
    · split
      · next hx => rw [hx] at hb; exact hb
      · next hx => rw [hx] at hb; exact ih _ hb

theorem convertMdToGmi_length (fd : Int) : (spartanConvertMdToGmi e fd cap).length≤cap := by
  unfold spartanConvertMdToGmi
  split
  · exact Nat.zero_le _
  · exact convertLoop_length _ _ (Nat.zero_le _)

theorem sendFile_length (path : Bytes) (fd : Int) (isMd : Bool) :
    (sendFile e cap path fd isMd).length≤cap := by
  unfold sendFile
  dsimp only
  generalize ksnprintf cap [] _=hdr
  split
  · exact Nat.zero_le _
  · split <;> rw [List.length_append]
    · have : (spartanConvertMdToGmi e fd (cap-hdr.length)).length≤cap-hdr.length :=
        convertMdToGmi_length fd
      omega
    · rw [List.length_take]
      omega

theorem reply_length {rx : Bytes} {txMax : Nat} {r : Reply}
    (h : spartanProcessRequest e rx txMax=some r) : r.reply.length≤txMax := by
  have hsay (s : String) : (ksnprintf txMax [] (ofString s)).length≤txMax :=
    ksnprintf_length (Nat.zero_le _) _
  unfold spartanProcessRequest at h
  dsimp only at h
  split at h
  · cases h
  split at h
  · split at h <;> cases h
    exact hsay _
  split at h
  · cases h; exact hsay _
  split at h
  · cases h; exact hsay _
  split at h <;> cases h
  · exact hsay _
  · exact sendFile_length _ _ _

/-- The component that filename_to_83 stores as "..": the text before the last '.' is "..", and
nothing comes after it. -/
def dots : Bytes := ofString "..."

theorem toUpper_eq {c d : UInt8} (hd : d<65) (h : toUpper c=d) : c=d := by
  unfold toUpper at h
  split at h
  · next hc =>
    have h1 := UInt8.le_iff_toNat_le.mp hc.1
    have h2 := UInt8.le_iff_toNat_le.mp hc.2
    have h3 := UInt8.lt_iff_toNat_lt.mp hd
    have hn := congrArg UInt8.toNat h
    rw [UInt8.toNat_sub] at hn
    simp only [UInt8.reduceToNat] at h1 h2 h3 hn
    omega
  · exact h

theorem pad83_blank {n : Nat} {s : Bytes} (hn : 0<n) (hs : space∉s)
    (h : pad83 n s=List.replicate n space) : s=[] := by
  cases s with
  | nil => rfl
  | cons c s =>
    obtain ⟨n,rfl⟩ := Nat.exists_eq_succ_of_ne_zero (Nat.pos_iff_ne_zero.mp hn)
    simp only [pad83,List.take_succ_cons,List.map_cons,List.cons_append,List.replicate_succ,
      List.cons.injEq] at h
    exact absurd (toUpper_eq (by decide) h.1) fun hc => hs (by rw [hc]; exact List.mem_cons_self)

theorem pad83_dots {s : Bytes} (hs : space∉s)
    (h : pad83 8 s=[dot,dot,space,space,space,space,space,space]) : s=[dot,dot] := by
  rcases s with _ | ⟨a,_ | ⟨b,s⟩⟩
  · exact absurd h (by decide)
  · simp [pad83,List.replicate,dot,space,Fat32.space] at h
  · simp only [pad83,List.take_succ_cons,List.map_cons,List.cons_append,List.length_cons,
      List.cons.injEq] at h
    obtain ⟨ha,hb,ht⟩ := h
    have : s=[] := by
      refine pad83_blank (n := 6) (by decide) (fun hm => hs (by simp [hm])) ?_
      rw [show 8-(s.length+1+1)=6-s.length by omega] at ht
      exact ht
    rw [toUpper_eq (by decide) ha,toUpper_eq (by decide) hb,this]

theorem filenameTo83_dotdot {c : Bytes} (hs : space∉c) (hl : slash∉c)
    (h : filenameTo83 c=dotdotName) : c=dots := by
  have hc : c.takeWhile (· != slash)=c := by
    refine List.takeWhile_eq_self_iff.mpr fun x hx => ?_
    simpa using fun he : x=slash => hl (he ▸ hx)
  have hname : dotdotName=[dot,dot,space,space,space,space,space,space]++
      List.replicate 3 space := rfl
  unfold filenameTo83 at h
  rw [hc,hname] at h
  dsimp only at h
  split at h
  · next i hi =>
    obtain ⟨h1,h2⟩ := List.append_inj h (by simp)
    have hbase := pad83_dots (fun hm => hs (List.mem_of_mem_take hm)) h1
    have hext := pad83_blank (by decide) (fun hm => hs (List.mem_of_mem_drop hm)) h2
    have hdot : lastIndex dot c=some i := by
      unfold extDot at hi
      split at hi
      · cases hi
      · exact hi
    have hlt := lastIndex_lt dot c i hdot
    have hi2 : i=2 := by
      have := congrArg List.length hbase
      simp only [List.length_take,List.length_cons,List.length_nil] at this
      omega
    subst hi2
    have hlen : c.length=3 := by
      have := congrArg List.length hext
      simp only [List.length_drop,List.length_nil] at this
      omega
    obtain ⟨x,y,z,rfl⟩ := List.length_eq_three.mp hlen
    simp only [List.take_succ_cons,List.take_zero,List.cons.injEq] at hbase
    obtain ⟨rfl,rfl,-⟩ := hbase
    by_cases hz : z=dot
    · rw [hz]; rfl
    · exact absurd hdot (by simp [lastIndex,hz])
  · next hi =>
    obtain ⟨h1,-⟩ := List.append_inj h (by simp)
    rw [pad83_dots hs h1] at hi
    exact absurd hi (by decide)

def pub : Bytes := ofString "pub"

/-- The whole way of a path is in the sandbox: the entries that it resolves to are those of
/sd0/pub and below them none that leads back up, so a way that leaves and comes back is outside;
the two help files are the exception. -/
def Inside (mnt : Mounts) (path : Bytes) : Prop :=
  path=helpMd ∨ path=helpGmi ∨ ∀m es,resolve mnt path=some (m,es) →
    m=sd0 ∧ ∃top below,resolve mnt spartanPubRoot=some (sd0,[top]) ∧ es=top::below ∧
      ∀e∈below,e.name≠dotdotName

theorem resolve_pub {mnt : Mounts} {q m : Bytes} {es : List DirEntry} {more : List Bytes}
    (hp : parts slash q=sd0::pub::more) (hr : resolve mnt q=some (m,es)) :
    m=sd0 ∧ ∃top below,resolve mnt spartanPubRoot=some (sd0,[top]) ∧ es=top::below ∧
      below.map DirEntry.name=namesOf more := by
  obtain ⟨rel,hg,hn,-⟩ := P9.resolve_names mnt q m es hr
  rw [P9.mountGet_parts q m rel hg,List.cons.injEq] at hp
  obtain ⟨rfl,hrel⟩ := hp
  have hns : namesOf (parts slash rel)=filenameTo83 pub::namesOf more := by
    rw [hrel]
    cases more <;> rfl
  rw [hns] at hn
  cases es with
  | nil => cases hn
  | cons top below =>
    rw [List.map_cons,List.cons.injEq] at hn
    refine ⟨rfl,top,below,?_,rfl,hn.2⟩
    unfold resolve at hr ⊢
    rw [hg] at hr
    rw [show mountGet spartanPubRoot=some (sd0,pub) by decide]
    dsimp only at hr ⊢
    cases hv : mnt.volume sd0 with
    | none => simp [hv] at hr
    | some fs =>
      rw [hv] at hr
      obtain ⟨es,he,hpair⟩ := Option.map_eq_some_iff.mp hr
      cases hpair
      have hw := Fat32.trace_walk he
      rw [hns,←List.singleton_append] at hw
      have h1 := Fat32.walkNames_append fs _ _ _ _ hw
      unfold Fat32.fat32Trace
      rw [show Fat32.pathNames pub=some [filenameTo83 pub] by decide]
      simp only [h1]
      rfl

theorem namesOf_dots {cs : List Bytes} (h : dots∈cs) : dotdotName∈namesOf cs := by
  induction cs with
  | nil => cases h
  | cons c cs ih =>
    cases cs with
    | nil =>
      rw [List.mem_singleton] at h
      rw [←h]
      exact List.mem_singleton.mpr (by decide)
    | cons d cs =>
      rcases List.mem_cons.mp h with rfl | h
      · exact List.mem_cons.mpr (.inl (by decide))
      · exact List.mem_cons_of_mem _ (ih h)

theorem namesOf_dotdot {cs : List Bytes} (hs : ∀c∈cs,space∉c ∧ slash∉c)
    (h : dotdotName∈namesOf cs) : dots∈cs := by
  induction cs with
  | nil => cases h
  | cons c cs ih =>
    obtain ⟨hsp,hsl⟩ := hs c List.mem_cons_self
    cases cs with
    | nil =>
      have hd := filenameTo83_dotdot (c := copyInto outNameSize c)
        (fun hm => hsp (List.mem_of_mem_take hm)) (fun hm => hsl (List.mem_of_mem_take hm))
        (List.mem_singleton.mp h).symm
      have hlen := congrArg List.length hd
      rw [copyInto,List.length_take,show dots.length=3 from rfl,outNameSize] at hlen
      rw [copyInto_of_short _ _ (by rw [outNameSize]; omega)] at hd
      rw [hd]
      exact List.mem_singleton_self _
    | cons d cs =>
      rcases List.mem_cons.mp h with h | h
      · rw [filenameTo83_dotdot hsp hsl h.symm]
        exact List.mem_cons_self
      · exact List.mem_cons_of_mem _ (ih (fun x hx => hs x (List.mem_cons_of_mem _ hx)) h)

theorem inside_iff {mnt : Mounts} {q : Bytes} {more : List Bytes} (hsp : space∉q)
    (hp : parts slash q=sd0::pub::more) (hq : q≠helpMd ∧ q≠helpGmi) :
    Inside mnt q ↔ (dots∈more → resolve mnt q=none) := by
  constructor
  · intro hi hd
    by_contra hr
    obtain ⟨⟨m,es⟩,hr⟩ := Option.ne_none_iff_exists'.mp hr
    obtain ⟨-,top,below,-,rfl,hn⟩ := resolve_pub hp hr
    rcases hi with h | h | hi
    · exact hq.1 h
    · exact hq.2 h
    · obtain ⟨-,top',below',-,he,hb⟩ := hi m _ hr
      cases he
      have hm := namesOf_dots hd
      rw [←hn] at hm
      obtain ⟨x,hx,hname⟩ := List.mem_map.mp hm
      exact hb x hx hname
  · refine fun h => .inr (.inr fun m es hr => ?_)
    obtain ⟨hm,top,below,ht,he,hn⟩ := resolve_pub hp hr
    refine ⟨hm,top,below,ht,he,fun x hx hname => ?_⟩
    have hd : dotdotName∈namesOf more := by
      rw [←hn,←hname]
      exact List.mem_map_of_mem hx
    have hmem (c : Bytes) (hc : c∈more) : space∉c ∧ slash∉c := by
      have hc' : c∈parts slash q := by rw [hp]; exact List.mem_cons_of_mem _ (List.mem_cons_of_mem _ hc)
      exact ⟨fun hs => hsp (parts_subset slash q c hc' hs),(parts_mem slash q c hc').1⟩
    rw [h (namesOf_dotdot hmem hd)] at hr
    cases hr

theorem requestPath_space {line path : Bytes} (h : requestPath line=some path) : space∉path := by
  unfold requestPath at h
  dsimp only at h
  split at h
  · cases h
    exact fun hm => absurd (List.mem_takeWhile_imp (List.mem_of_mem_take hm)) (by simp)
  · cases h

theorem safePath_parts {path safePath : Bytes}
    (h : spartanSandboxValidatePath path 160=some safePath) :
    (∃more,parts slash safePath=sd0::pub::more ∧ (dots∈more ↔ dots∈parts slash path)) ∧
      (space∉path → space∉safePath) ∧ safePath.length<160 ∧
      ∃t,safePath=spartanPubRoot++slash::t := by
  have hroot : parts slash spartanPubRoot=[sd0,pub] := by decide
  unfold spartanSandboxValidatePath at h
  split at h
  · cases h
  next h0 =>
    split at h
    · cases h
    split at h
    · next hp =>
      dsimp only at h
      rw [if_neg (by decide),Option.some.injEq] at h
      rw [hp,←h]
      refine ⟨⟨[ofString "index.gmi"],by decide,by decide⟩,fun _ => by decide,by decide,
        ofString "index.gmi",rfl⟩
    · next hp =>
      split at h
      · cases h
      next hl =>
        cases h
        obtain ⟨t,rfl⟩ : ∃t,path=slash::t := by
          cases path with
          | nil => simp at h0
          | cons c t => exact ⟨t,by simpa using h0⟩
        refine ⟨⟨parts slash t,?_,by rw [parts_cons]⟩,fun hs hm => ?_,?_,t,rfl⟩
        · rw [parts_append,hroot]; rfl
        · rcases List.mem_append.mp hm with hm | hm
          · exact absurd hm (by decide)
          · exact hs hm
        · rw [List.length_append]; omega

theorem parts_suffix {y : Bytes} (hy : slash∈y) :
    ∃ini z,∀t,slash∉t → t≠[] → parts slash (y++t)=ini++[z++t] := by
  obtain ⟨z,a,hr,hz⟩ := List.eq_append_cons_of_mem (List.mem_reverse.mpr hy)
  have he : y=a.reverse++slash::z.reverse := by
    rw [←List.reverse_reverse y,hr]
    simp
  refine ⟨parts slash a.reverse,z.reverse,fun t ht hn => ?_⟩
  rw [he,List.append_assoc,List.cons_append,parts_append,parts_single slash (z.reverse++t)]
  · simp [ht,hz]
  · simp [hn]

theorem mdTwin_parts {safePath q : Bytes} {more : List Bytes} (h : mdTwin safePath=some q)
    (hl : safePath.length<160) (ht : ∃t,safePath=spartanPubRoot++slash::t)
    (hp : parts slash safePath=sd0::pub::more) :
    (∃more',parts slash q=sd0::pub::more' ∧ (dots∈more' ↔ dots∈more)) ∧
      (space∉safePath → space∉q) := by
  unfold mdTwin at h
  rw [copyInto_of_short _ _ hl] at h
  dsimp only at h
  split at h
  next i hi =>
    split at h
    next hd =>
      cases h
      have he : safePath=safePath.take i++gmiExt := by
        conv => lhs; rw [←List.take_append_drop i safePath,hd]
      have hy : slash∈safePath.take i := by
        obtain ⟨t,rfl⟩ := ht
        cases i with
        | zero => cases hd
        | succ i => exact List.mem_cons_self
      obtain ⟨ini,z,hz⟩ := parts_suffix hy
      have hg := hz gmiExt (by decide) (by decide)
      rw [←he,hp] at hg
      have hne (x : Bytes) (hx : x.length=4 ∨ x=mdExt) : z++x≠dots := by
        intro hc
        have hlen := congrArg List.length hc
        rw [List.length_append,show dots.length=3 from rfl] at hlen
        rcases hx with hx | rfl
        · omega
        · have : z=[] := List.eq_nil_of_length_eq_zero (by simpa [mdExt,ofString] using hlen)
          rw [this] at hc
          exact absurd hc (by decide)
      refine ⟨?_,fun hs hm => ?_⟩
      · rcases ini with _ | ⟨a,_ | ⟨b,ini⟩⟩
        · exact absurd (congrArg List.length hg) (by simp)
        · rw [List.cons_append,List.nil_append,List.cons.injEq,List.cons.injEq] at hg
          have hlen := congrArg List.length hg.2.1
          rw [List.length_append,show pub.length=3 from rfl,show gmiExt.length=4 from rfl] at hlen
          omega
        · rw [List.cons_append,List.cons_append,List.cons.injEq,List.cons.injEq] at hg
          obtain ⟨rfl,rfl,rfl⟩ := hg
          refine ⟨ini++[z++mdExt],hz mdExt (by decide) (by decide),?_⟩
          have h4 := hne gmiExt (.inl rfl)
          have h3 := hne mdExt (.inr rfl)
          simp only [List.mem_append,List.mem_singleton,h4.symm,h3.symm,or_false]
      · rcases List.mem_append.mp hm with hm | hm
        · exact hs (List.mem_of_mem_take hm)
        · exact absurd hm (by decide)
    · cases h
  · cases h

theorem openFile_opens {path safePath q : Bytes} (h : q∈(openFile e path safePath).2.2) :
    q=helpMd ∨ q=helpGmi ∨ q=safePath ∨ mdTwin safePath=some q := by
  unfold openFile at h
  dsimp only at h
  have htwin : ∀altPath,(if e.vfsOpen [] safePath<0 then mdTwin safePath else none)=some altPath →
      mdTwin safePath=some altPath := by
    intro altPath ha
    split at ha
    · exact ha
    · cases ha
  split at h
  all_goals
    split at h
    · split at h <;> simp only [List.mem_cons,List.not_mem_nil,or_false] at h <;> grind
    · simp only [List.mem_cons,List.not_mem_nil,or_false] at h; grind

theorem process_opens {rx : Bytes} {txMax : Nat} {r : Reply} {q : Bytes}
    (h : spartanProcessRequest e rx txMax=some r) (hq : q∈r.opens) :
    newline∈rx ∧ ∃path safePath,requestPath (requestLine rx)=some path ∧
      spartanSandboxValidatePath path 160=some safePath ∧ q∈(openFile e path safePath).2.2 := by
  unfold spartanProcessRequest at h
  dsimp only at h
  split at h
  · cases h
  split at h
  · split at h <;> cases h
    cases hq
  next hn =>
    refine ⟨Classical.not_not.mp hn,?_⟩
    split at h
    · cases h; cases hq
    next path hpath =>
      split at h
      · cases h; cases hq
      next safePath hsafe =>
        refine ⟨path,safePath,hpath,hsafe,?_⟩
        split at h <;> cases h <;> exact hq

/-- A volume on which nothing can be opened. -/
def shut : Env where
  vfsOpen _ _ := -1
  vfsPread _ _ := []
  chunks _ := []
  mdParseLine _ _ _ := (none,false,false)
  mdSpans _ := []

theorem shut_opens {path safePath q : Bytes} (h : q=safePath ∨ mdTwin safePath=some q) :
    q∈(openFile shut path safePath).2.2 := by
  unfold openFile
  have h1 : ∀l p,shut.vfsOpen l p<0 := fun _ _ => Int.negSucc_lt_zero 0
  have h2 : ∀l p,¬shut.vfsOpen l p≥0 := fun _ _ => Int.not_le.mpr (Int.negSucc_lt_zero 0)
  simp only [h1,h2,if_true,if_false]
  rcases h with rfl | h
  · split <;> split <;> simp
  · simp only [h]
    split <;> simp

theorem shut_process {rx path safePath : Bytes} {txMax : Nat} (ht : 0<txMax) (hn : newline∈rx)
    (hpath : requestPath (requestLine rx)=some path)
    (hsafe : spartanSandboxValidatePath path 160=some safePath) :
    ∃r,spartanProcessRequest shut rx txMax=some r ∧
      r.opens=(openFile shut path safePath).2.2 := by
  have h0 : ¬(rx=[] ∨ txMax=0) := by
    rintro (rfl | rfl)
    · cases hn
    · cases ht
  unfold spartanProcessRequest
  rw [if_neg h0,if_neg (not_not_intro hn)]
  simp only [hpath,hsafe]
  split <;> exact ⟨_,rfl,rfl⟩

/-- The path of the request has no component "...", or the volume has none of the files that it
stands for. -/
def Contained (mnt : Mounts) (rx : Bytes) : Prop :=
  newline∈rx → ∀path safePath,requestPath (requestLine rx)=some path →
    spartanSandboxValidatePath path 160=some safePath → dots∈parts slash path →
      resolve mnt safePath=none ∧ ∀q,mdTwin safePath=some q → resolve mnt q=none

/-- Whatever the card holds and the opens answer, the replies fit and the files opened are those of
the sandbox exactly when the request does not lead back up by a component "...". -/
theorem spartan_sandbox_iff (mnt : Mounts) (rx : Bytes) (txMax : Nat) (ht : 0<txMax) :
    (∀e r,spartanProcessRequest e rx txMax=some r →
      r.reply.length≤txMax ∧ ∀q∈r.opens,Inside mnt q) ↔ Contained mnt rx := by
  -- what is opened below /sd0/pub, with the components that decide
  have hfile {path safePath q : Bytes} (hpath : requestPath (requestLine rx)=some path)
      (hsafe : spartanSandboxValidatePath path 160=some safePath)
      (hq : q=safePath ∨ mdTwin safePath=some q) :
      Inside mnt q ↔ (dots∈parts slash path → resolve mnt q=none) := by
    obtain ⟨⟨more,hp,hd⟩,hs,hl,hr⟩ := safePath_parts hsafe
    have hsp := hs (requestPath_space hpath)
    have hhelp {q : Bytes} {more : List Bytes} (hp : parts slash q=sd0::pub::more) :
        q≠helpMd ∧ q≠helpGmi := by
      have h2 : (parts slash q).take 2=[sd0,pub] := by rw [hp]; rfl
      constructor <;> rintro rfl <;> exact absurd h2 (by decide)
    rcases hq with rfl | hq
    · rw [inside_iff hsp hp (hhelp hp),hd]
    · obtain ⟨⟨more',hp',hd'⟩,hsq⟩ := mdTwin_parts hq hl hr hp
      rw [inside_iff (hsq hsp) hp' (hhelp hp'),hd',hd]
  constructor
  · intro h hn path safePath hpath hsafe hd
    obtain ⟨r,hr,ho⟩ := shut_process ht hn hpath hsafe
    have hin {q : Bytes} (hq : q=safePath ∨ mdTwin safePath=some q) : resolve mnt q=none :=
      (hfile hpath hsafe hq).mp ((h shut r hr).2 q (by rw [ho]; exact shut_opens hq)) hd
    exact ⟨hin (.inl rfl),fun q hq => hin (.inr hq)⟩
  · intro h e r hr
    refine ⟨reply_length hr,fun q hq => ?_⟩
    obtain ⟨hn,path,safePath,hpath,hsafe,ho⟩ := process_opens hr hq
    rcases openFile_opens ho with rfl | rfl | hq
    · exact .inl rfl
    · exact .inr (.inl rfl)
    · refine (hfile hpath hsafe hq).mpr fun hd => ?_
      obtain ⟨h1,h2⟩ := h hn path safePath hpath hsafe hd
      rcases hq with rfl | hq
      · exact h1
      · exact h2 q hq

/-- A card with the public directory next to the key directory. -/
def pubMounts : Mounts :=
  ⟨fun m => if m=sd0 then some (Fat32.fat32Mkdir P9.keyCard pub).2 else none,by decide⟩

theorem spartan_sandbox_index :
    0<4096 ∧ Contained pubMounts (ofString "node /a/index.gmi\r\n") ∧
    ∀e r,spartanProcessRequest e (ofString "node /a/index.gmi\r\n") 4096=some r →
      r.reply.length≤4096 ∧ ∀q∈r.opens,Inside pubMounts q := by
  have hc : Contained pubMounts (ofString "node /a/index.gmi\r\n") := by
    intro _ path safePath hpath _ hd
    have : path=ofString "/a/index.gmi" :=
      Option.some.inj (hpath.symm.trans (by decide : requestPath _=some (ofString "/a/index.gmi")))
    rw [this] at hd
    exact absurd hd (by decide)
  exact ⟨by decide,hc,(spartan_sandbox_iff pubMounts _ 4096 (by decide)).mpr hc⟩

/-- "/.../system" is opened, and resolves to the directory next to the public one. -/
theorem spartan_sandbox_left :
    ¬∀mnt e rx txMax r,spartanProcessRequest e rx txMax=some r →
      r.reply.length≤txMax ∧ ∀q∈r.opens,Inside mnt q := by
  intro h
  have hpath : requestPath (requestLine (ofString "node /.../system\r\n"))=
      some (ofString "/.../system") := by decide
  have hsafe : spartanSandboxValidatePath (ofString "/.../system") 160=
      some (ofString "/sd0/pub/.../system") := by decide
  have hparts : parts slash (ofString "/sd0/pub/.../system")=
      sd0::pub::[dots,ofString "system"] := by decide
  obtain ⟨r,hr,ho⟩ := shut_process (by decide : 0<4096) (by decide) hpath hsafe
  have hin := (h pubMounts shut _ 4096 r hr).2 (ofString "/sd0/pub/.../system")
    (by rw [ho]; exact shut_opens (.inl rfl))
  have hn := (inside_iff (by decide) hparts (by decide)).mp hin (by decide)
  have hs : (resolve pubMounts (ofString "/sd0/pub/.../system")).isSome=true := by decide +kernel
  rw [hn] at hs
  cases hs

end LugalOS.Spartan
