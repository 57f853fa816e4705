import LugalOS.Elf.Loader

namespace LugalOS.Elf

open CString

/-- Claims of a resource that are not released yet. -/
def Loader.held (s : Loader) (r : Resource) : Int :=
  (s.log.count (.claim r) : Int)-s.log.count (.release r)

/-- The writes of s2 that are not in s1 satisfy p. -/
def WritesIn (p : Nat → Nat → Prop) (s1 s2 : Loader) : Prop :=
  ∀a n,Event.write a n∈s2.log → Event.write a n∈s1.log ∨ p a n

@[simp] theorem release_procs (s : Loader) (r : Resource) : (s.release r).procs=s.procs := rfl

@[simp] theorem write_procs (s : Loader) (a n : Nat) : (s.write a n).procs=s.procs := rfl

@[simp] theorem setProc_procs (s : Loader) (i : ProcId) (p : UserProc) :
    (s.setProc i p).procs=Function.update s.procs i p := rfl

theorem held_claim (s : Loader) (q r : Resource) :
    (s.claim q).held r=s.held r+if q=r then 1 else 0 := by
  unfold Loader.held Loader.claim
  by_cases h : q=r
  · simp [h]
    omega
  · simp [h]

theorem held_release (s : Loader) (q r : Resource) :
    (s.release q).held r=s.held r-if q=r then 1 else 0 := by
  unfold Loader.held Loader.release
  by_cases h : q=r
  · simp [h]
    omega
  · simp [h]

theorem held_write (s : Loader) (a n : Nat) (r : Resource) : (s.write a n).held r=s.held r := by
  unfold Loader.held Loader.write
  simp

theorem held_setProc (s : Loader) (i : ProcId) (p : UserProc) (r : Resource) :
    (s.setProc i p).held r=s.held r := rfl

section
variable {p : Nat → Nat → Prop} {s1 s2 : Loader}

theorem writesIn_refl : WritesIn p s1 s1 := fun _ _ h => .inl h

theorem WritesIn.claim (h : WritesIn p s1 s2) (r : Resource) : WritesIn p s1 (s2.claim r) := by
  intro a n hm
  rcases List.mem_cons.mp hm with he | hm
  · cases he
  · exact h a n hm

theorem WritesIn.release (h : WritesIn p s1 s2) (r : Resource) : WritesIn p s1 (s2.release r) := by
  intro a n hm
  rcases List.mem_cons.mp hm with he | hm
  · cases he
  · exact h a n hm

theorem WritesIn.write (h : WritesIn p s1 s2) {a n : Nat} (hp : p a n) :
    WritesIn p s1 (s2.write a n) := by
  intro b m hm
  rcases List.mem_cons.mp hm with he | hm
  · cases he
    exact .inr hp
  · exact h b m hm

theorem WritesIn.setProc (h : WritesIn p s1 s2) (i : ProcId) (q : UserProc) :
    WritesIn p s1 (s2.setProc i q) := h

theorem WritesIn.procRelease (h : WritesIn p s1 s2) (i : ProcId) :
    WritesIn p s1 (procRelease s2 i) := by
  unfold Elf.procRelease
  dsimp only
  split_ifs
  · exact h
  · exact ((((h.release _).release _).release _).release _).setProc i _
  · exact (((h.release _).release _).release _).setProc i _
  · exact (((h.release _).release _).release _).setProc i _
  · exact ((h.release _).release _).setProc i _

end

/-- The slot holds the blocks that procAlloc took for it. -/
structure Owns (i : ProcId) (image ustack pages : Nat) (s : Loader) : Prop where
  inUse : (s.procs i).inUse=true
  image : (s.procs i).image=image
  imagePages : (s.procs i).imagePages=pages
  ustack : (s.procs i).ustack=ustack

theorem Owns.of_procs {i : ProcId} {image ustack pages : Nat} {s s' : Loader}
    (h : Owns i image ustack pages s) (hp : s'.procs=s.procs) : Owns i image ustack pages s' := by
  refine ⟨?_,?_,?_,?_⟩ <;> rw [hp]
  exacts [h.inUse,h.image,h.imagePages,h.ustack]

/-- What a slot and its blocks count for: one claim each. -/
def slotClaims (i : ProcId) (image ustack pages : Nat) (r : Resource) : Int :=
  (if .slot i=r then 1 else 0)+(if .domain i=r then 1 else 0)+
    (if .pages ustack 1=r then 1 else 0)+(if .pages image pages=r then 1 else 0)

theorem procRelease_held {i : ProcId} {image ustack pages : Nat} {s : Loader}
    (h : Owns i image ustack pages s) (hi : image≠0) (hu : ustack≠0) (r : Resource) :
    (procRelease s i).held r=s.held r-slotClaims i image ustack pages r := by
  unfold procRelease slotClaims
  simp only [h.inUse,h.image,h.imagePages,h.ustack,Bool.not_true,Bool.false_eq_true,if_false,
    if_pos hi,if_pos hu,ne_eq,held_setProc,held_release]
  omega

theorem procAlloc_some {v : Env} {n : Nat} {s s1 : Loader} {i : ProcId}
    (h : procAlloc v n s=(some i,s1)) :
    ∃(image : Block v.xlen n) (stack : Block v.xlen 1),v.pallocImage n=some image ∧
      v.pallocStack=some stack ∧ Owns i image.addr stack.addr n s1 ∧
      (s1.procs i).domain=(memDomainAdd v.toDomainConfig [] ⟨stack.addr,4096,memR ||| memW⟩).getD [] ∧
      (∀r,s1.held r=s.held r+slotClaims i image.addr stack.addr n r) ∧
      ∀p,WritesIn p s s1 := by
  unfold procAlloc at h
  split at h
  · cases h
  · split at h
    · cases h
    · next image hi =>
      dsimp only at h
      split at h
      · cases h
      · next stack hs =>
        cases h
        refine ⟨image,stack,hi,hs,⟨?_,?_,?_,?_⟩,?_,fun r => ?_,fun p => ?_⟩
        any_goals simp
        · unfold slotClaims
          simp only [held_setProc,held_claim]
          omega
        · exact ((((writesIn_refl.claim _).claim _).claim _).claim _).setProc _ _

theorem procAlloc_none {v : Env} {n : Nat} {s s1 : Loader} (h : procAlloc v n s=(none,s1)) :
    (∀r,s1.held r=s.held r) ∧ ∀p,WritesIn p s s1 := by
  unfold procAlloc at h
  split at h
  · cases h
    exact ⟨fun _ => rfl,fun _ => writesIn_refl⟩
  · split at h
    · cases h
      exact ⟨fun _ => rfl,fun _ => writesIn_refl⟩
    · dsimp only at h
      split at h
      · cases h
        refine ⟨fun r => ?_,fun p => ((writesIn_refl.claim _).release _).setProc _ _⟩
        rw [held_setProc,held_release,held_claim]
        omega
      · cases h

theorem subPtr_of_le {xlen a b : Nat} (hb : b≤a) (ha : a<2^xlen) : subPtr xlen a b=a-b := by
  unfold subPtr
  rw [Nat.mod_eq_of_lt (show b<2^xlen by omega),show a+(2^xlen-b)=a-b+2^xlen by omega,
    Nat.add_mod_right,Nat.mod_eq_of_lt (by omega)]

/-- A write inside the page at ustack. -/
def InPage (ustack a n : Nat) : Prop := ustack≤a ∧ a+n≤ustack+4096

theorem argBytes_length (a : Option Arg) : (argBytes a).length+1≤256 := by
  cases a with
  | none => decide
  | some a => exact a.short

theorem pushArgs_spec {xlen ustack : Nat} (hx : ustack+4096<2^xlen) (argv : Nat → Option Arg)
    (p : Nat → Nat → Prop) (hp : ∀a n,InPage ustack a n → p a n) (n sp : Nat) (s0 s : Loader)
    (hw : WritesIn p s0 s) (h1 : ustack+3584 ≤ sp) (h2 : sp≤ustack+4096) :
    WritesIn p s0 (pushArgs xlen (ustack+3584) argv n sp s).2 ∧
    (pushArgs xlen (ustack+3584) argv n sp s).2.procs=s.procs ∧
    (∀r,(pushArgs xlen (ustack+3584) argv n sp s).2.held r=s.held r) ∧
    ∀sp',(pushArgs xlen (ustack+3584) argv n sp s).1=some sp' →
      ustack+3584 ≤ sp' ∧ sp'≤ustack+4096 := by
  induction n generalizing sp s with
  | zero =>
    refine ⟨hw,rfl,fun _ => rfl,fun sp' h => ?_⟩
    cases h
    exact ⟨h1,h2⟩
  | succ n ih =>
    unfold pushArgs
    have hlen := argBytes_length (argv n)
    generalize (argBytes (argv n)).length+1=size at hlen ⊢
    dsimp only
    rw [subPtr_of_le (show size ≤ sp by omega) (by omega)]
    by_cases hl : sp-size<ustack+3584
    · rw [if_pos hl]
      exact ⟨hw,rfl,fun _ => rfl,fun sp' h => by cases h⟩
    · rw [if_neg hl]
      have hin : InPage ustack (sp-size) size := ⟨by omega,by omega⟩
      obtain ⟨hw',hpr,hh,hr⟩ := ih (sp-size) (s.write _ _) (hw.write (hp _ _ hin))
        (by omega) (by omega)
      exact ⟨hw',hpr,fun r => by rw [hh r,held_write],hr⟩

theorem buildArgv_spec (v : Env) (stack : Block v.xlen 1) (argc : Int) (argv : Nat → Option Arg)
    (p : Nat → Nat → Prop) (hp : ∀a n,InPage stack.addr a n → p a n) (s0 s : Loader)
    (hw : WritesIn p s0 s) :
    WritesIn p s0 (buildArgv v stack.addr argc argv s).2 ∧
    (buildArgv v stack.addr argc argv s).2.procs=s.procs ∧
    ∀r,(buildArgv v stack.addr argc argv s).2.held r=s.held r := by
  have hx : stack.addr+4096<2^v.xlen := by simpa using stack.fits
  unfold buildArgv
  dsimp only
  rw [Nat.mod_eq_of_lt hx,subPtr_of_le (show userArgvMaxBytes ≤ stack.addr+4096 by
    unfold userArgvMaxBytes; omega) hx,show stack.addr+4096-userArgvMaxBytes=stack.addr+3584 by
    unfold userArgvMaxBytes; omega]
  by_cases hc : userArgvMaxCount<argc.toNat
  · rw [if_pos hc]
    exact ⟨hw,rfl,fun _ => rfl⟩
  rw [if_neg hc]
  obtain ⟨hw1,hpr,hh,hr⟩ := pushArgs_spec hx argv p hp argc.toNat (stack.addr+4096) s0 s hw
    (by omega) (by omega)
  generalize pushArgs v.xlen (stack.addr+3584) argv argc.toNat (stack.addr+4096) s=out at *
  obtain ⟨_ | sp,s2⟩ := out
  · exact ⟨hw1,hpr,hh⟩
  dsimp only at hw1 hpr hh hr ⊢
  obtain ⟨h1,h2⟩ := hr sp rfl
  unfold userArgvMaxCount at hc
  have hvec : (argc.toNat+1)*(v.xlen/8)≤72 := by
    rcases v.xlen_ok with he | he <;> rw [he] <;> omega
  have hmod : sp%(v.xlen/8)≤8 := by
    rcases v.xlen_ok with he | he <;> rw [he] <;> omega
  generalize (argc.toNat+1)*(v.xlen/8)=size at hvec ⊢
  generalize sp%(v.xlen/8)=low at hmod ⊢
  rw [subPtr_of_le (show size ≤ sp-low by omega) (by omega)]
  by_cases hl : sp-low-size < stack.addr+3584
  · rw [if_pos hl]
    exact ⟨hw1,hpr,hh⟩
  · rw [if_neg hl]
    exact ⟨hw1.write (hp _ _ ⟨by omega,by omega⟩),hpr,fun r => by rw [held_write,hh r]⟩

/-- A write inside the image block. -/
def InImage (image pages a n : Nat) : Prop := image≤a ∧ a+n ≤ image+pages*4096

theorem copySegs_spec (v : Env) (pages : Nat) (image : Block v.xlen pages) (segs : List Seg)
    (hs : ∀seg∈segs,seg.last≤pages*4096 ∧ seg.filesz.toNat ≤ seg.memsz.toNat)
    (p : Nat → Nat → Prop) (hp : ∀a n,InImage image.addr pages a n → p a n) (s0 s : Loader)
    (hw : WritesIn p s0 s) :
    WritesIn p s0 (copySegs v image.addr segs s).2 ∧
    (copySegs v image.addr segs s).2.procs=s.procs ∧
    ∀r,(copySegs v image.addr segs s).2.held r=s.held r := by
  induction segs generalizing s with
  | nil => exact ⟨hw,rfl,fun _ => rfl⟩
  | cons seg segs ih =>
    have ih := ih fun t ht => hs t (List.mem_cons_of_mem _ ht)
    obtain ⟨hlast,hfile⟩ := hs seg List.mem_cons_self
    unfold Seg.last at hlast
    have hfits := image.fits
    unfold copySegs
    dsimp only
    by_cases h0 : seg.filesz=0
    · rw [if_pos h0]
      exact ih s hw
    rw [if_neg h0,Nat.mod_eq_of_lt (show image.addr+seg.vaddr.toNat<2^v.xlen by omega)]
    have hw1 := hw.write (hp (image.addr+seg.vaddr.toNat) seg.filesz.toNat ⟨by omega,by omega⟩)
    split_ifs
    · exact ⟨hw1,rfl,fun r => held_write _ _ _ _⟩
    · obtain ⟨hw2,hpr,hh⟩ := ih _ hw1
      exact ⟨hw2,hpr,fun r => by rw [hh r,held_write]⟩

/-- The page holds some byte of the segment. -/
def Seg.HasPage (s : Seg) (q : Nat) : Prop := q*4096 < s.last ∧ s.vaddr.toNat<(q+1)*4096

/-- The regions a load adds are made of the segments' pages, and every such page is granted. -/
structure Granted (k : DomainConfig) (image : Nat) (segs : List Seg) (new : List Region) :
    Prop where
  exact : ∀r∈new,∃seg∈segs,∃o c,r=pageRegion k image o c seg.perms ∧ 0<c ∧
    ∀q,o≤q → q<o+c → seg.HasPage q
  covered : ∀seg∈segs,∀q,seg.HasPage q → PageGranted k image seg.perms new q

theorem pageRange_toNat {s : Seg} (hr : s.Rounds) :
    s.pageRange.1.toNat=s.vaddr.toNat/4096 ∧ s.pageRange.2.toNat=(s.last+4095)/4096 := by
  unfold Seg.Rounds Seg.last at hr
  unfold Seg.pageRange
  dsimp only
  rw [spanPages_toNat,UInt32.toNat_div,UInt32.toNat_add,show pageSize.toNat=4096 from rfl]
  unfold Seg.last
  exact ⟨rfl,by omega⟩

theorem grantSegs_some (k : DomainConfig) (image : Nat) (segs : List Seg)
    (hs : ∀seg∈segs,seg.Rounds ∧ seg.memsz≠0) (d d' : List Region) (regions : Nat)
    (h : grantSegs k image segs d regions=some d') :
    ∃new,d'=d++new ∧ Granted k image segs new := by
  induction segs generalizing d regions with
  | nil =>
    cases h
    exact ⟨[],by simp,by simp,by simp⟩
  | cons seg segs ih =>
    obtain ⟨hround,hmem⟩ := hs seg List.mem_cons_self
    have hm0 : 0 < seg.memsz.toNat := by
      rcases Nat.eq_zero_or_pos seg.memsz.toNat with hz | hz
      · exact absurd (UInt32.toNat_inj.mp hz) hmem
      · exact hz
    obtain ⟨hfirst,hlast⟩ := pageRange_toNat hround
    have hne : ¬seg.pageRange.2 ≤ seg.pageRange.1 := by
      rw [UInt32.le_iff_toNat_le,hfirst,hlast]
      unfold Seg.last
      omega
    unfold grantSegs at h
    dsimp only at h
    rw [if_neg hne] at h
    have hcount : (seg.pageRange.2-seg.pageRange.1).toNat=
        (seg.last+4095)/4096-seg.vaddr.toNat/4096 := by
      rw [UInt32.toNat_sub_of_le _ _ (by rw [UInt32.le_iff_toNat_le] at hne ⊢; omega),hfirst,hlast]
    rw [hcount,hfirst] at h
    split at h
    · cases h
    · next d1 n hg =>
      obtain ⟨new1,rfl,hexact,hcov⟩ := grantNapotSpan_some _ _ _ _ _ _ _ _ _ _ _ (Nat.le_refl _) hg
      obtain ⟨new2,rfl,hnew⟩ := ih (fun t ht => hs t (List.mem_cons_of_mem _ ht)) _ _ h
      refine ⟨new1++new2,by rw [List.append_assoc],fun r hm => ?_,fun t ht q hq => ?_⟩
      · rcases List.mem_append.mp hm with hm | hm
        · obtain ⟨o,c,he,hc0,ho,hoc⟩ := hexact r hm
          refine ⟨seg,List.mem_cons_self,o,c,he,hc0,fun q h1 h2 => ?_⟩
          unfold Seg.HasPage
          unfold Seg.last at hoc ⊢
          constructor <;> omega
        · obtain ⟨t,ht,hr⟩ := hnew.exact r hm
          exact ⟨t,List.mem_cons_of_mem _ ht,hr⟩
      · rcases List.mem_cons.mp ht with rfl | ht
        · obtain ⟨h1,h2⟩ := hq
          unfold Seg.last at h1 hcov
          exact (hcov q (by omega) (by omega)).mono fun r h => List.mem_append.mpr (.inl h)
        · exact (hnew.covered t ht q hq).mono fun r h => List.mem_append.mpr (.inr h)

theorem loadPlan_ok {v : Env} {plan : Plan} (h : loadPlan v=.ok plan) :
    (∀seg∈plan.segs,seg.Loadable) ∧ imageSpanPages plan.segs=.ok (plan.pages,plan.span) := by
  unfold loadPlan at h
  split at h
  · cases h
  · dsimp only at h
    split_ifs at h
    split at h
    · cases h
    · next segs entry hp =>
      split at h
      · cases h
      · next pages span hs =>
        split_ifs at h
        cases h
        exact ⟨parseHeaders_loadable hp,hs⟩

/-- The writes of a load: inside the image it allocated, or inside the stack page. -/
def LoadWrites (image ustack pages a n : Nat) : Prop := InImage image pages a n ∨ InPage ustack a n

theorem loadImage_spec (v : Env) (fd : Int) (plan : Plan) (argc : Int) (argv : Nat → Option Arg)
    (i : ProcId) (image : Block v.xlen plan.pages.toNat) (stack : Block v.xlen 1) (s0 s : Loader)
    (ho : Owns i image.addr stack.addr plan.pages.toNat s) (hpos : 0<plan.pages.toNat)
    (hs : ∀seg∈plan.segs,seg.last≤plan.pages.toNat*4096 ∧ seg.filesz.toNat ≤ seg.memsz.toNat)
    (hw : WritesIn (LoadWrites image.addr stack.addr plan.pages.toNat) s0 s) :
    WritesIn (LoadWrites image.addr stack.addr plan.pages.toNat) s0
      (loadImage v fd plan argc argv i s).2 ∧
    ((loadImage v fd plan argc argv i s).1=none → ∀r,(loadImage v fd plan argc argv i s).2.held r=
      s.held r-(if .fd fd=r then 1 else 0)-
        slotClaims i image.addr stack.addr plan.pages.toNat r) ∧
    ∀j,(loadImage v fd plan argc argv i s).1=some j → j=i ∧
      grantSegs v.toDomainConfig image.addr plan.segs (s.procs i).domain 0=
        some ((loadImage v fd plan argc argv i s).2.procs i).domain := by
  have himg : ∀a n,InImage image.addr plan.pages.toNat a n →
      LoadWrites image.addr stack.addr plan.pages.toNat a n := fun _ _ h => .inl h
  have hstk : ∀a n,InPage stack.addr a n →
      LoadWrites image.addr stack.addr plan.pages.toNat a n := fun _ _ h => .inr h
  have hfits := image.fits
  unfold loadImage
  dsimp only
  rw [ho.image]
  obtain ⟨hw1,hp1,hh1⟩ := copySegs_spec v _ image plan.segs hs _ himg s0
    (s.write image.addr (plan.pages.toNat*4096)) (hw.write (himg _ _ ⟨by omega,by omega⟩))
  generalize copySegs v image.addr plan.segs (s.write image.addr (plan.pages.toNat*4096))=out at *
  obtain ⟨ok,s1⟩ := out
  dsimp only at hw1 hp1 hh1
  have ho1 : Owns i image.addr stack.addr plan.pages.toNat (s1.release (.fd fd)) :=
    ho.of_procs (by simpa using hp1)
  have hheld (r : Resource) : (s1.release (.fd fd)).held r=s.held r-if .fd fd=r then 1 else 0 := by
    rw [held_release,hh1 r,held_write]
  cases ok with
  | false =>
    refine ⟨(hw1.release _).procRelease i,fun _ r => ?_,fun j h => by cases h⟩
    dsimp only
    rw [procRelease_held ho1 image.nonNull stack.nonNull,hheld r]
  | true =>
    dsimp only
    have hdom : ((s1.release (.fd fd)).procs i).domain=(s.procs i).domain := by
      rw [release_procs,hp1,write_procs]
    rw [hdom]
    split
    · refine ⟨(hw1.release _).procRelease i,fun _ r => ?_,fun j h => by cases h⟩
      dsimp only
      rw [procRelease_held ho1 image.nonNull stack.nonNull,hheld r]
    · next domain hg =>
      have hstub : (image.addr+4096-exitStubBytes.toNat)%2^v.xlen=image.addr+4080 := by
        rw [show exitStubBytes.toNat=16 from rfl,Nat.mod_eq_of_lt (by omega)]
        omega
      rw [hstub,show exitStubBytes.toNat=16 from rfl]
      generalize hp2 : ({((s1.release (.fd fd)).write (image.addr+4080) 16).procs i with
        domain := domain, entry := (image.addr+plan.entry)%2^v.xlen} : UserProc)=proc2
      generalize hs2 : ((s1.release (.fd fd)).write (image.addr+4080) 16).setProc i proc2=s2
      have hproc2 : s2.procs i=proc2 := by rw [←hs2,setProc_procs,Function.update_self]
      have ho2 : Owns i image.addr stack.addr plan.pages.toNat s2 := by
        refine ⟨?_,?_,?_,?_⟩ <;> rw [hproc2,←hp2]
        exacts [ho1.inUse,ho1.image,ho1.imagePages,ho1.ustack]
      have hw2 : WritesIn (LoadWrites image.addr stack.addr plan.pages.toNat) s0 s2 := by
        rw [←hs2]
        exact ((hw1.release _).write (himg _ _ ⟨by omega,by omega⟩)).setProc i _
      have hh2 (r : Resource) : s2.held r=s.held r-if .fd fd=r then 1 else 0 := by
        rw [←hs2,held_setProc,held_write,hheld r]
      obtain ⟨hw3,hp3,hh3⟩ := buildArgv_spec v stack argc argv _ hstk s0 s2 hw2
      rw [ho2.ustack]
      generalize buildArgv v stack.addr argc argv s2=out at *
      obtain ⟨_ | ⟨argvAddr,userSp,argc'⟩,s3⟩ := out
      · refine ⟨hw3.procRelease i,fun _ r => ?_,fun j h => by cases h⟩
        dsimp only at hp3 hh3 ⊢
        rw [procRelease_held (ho2.of_procs hp3) image.nonNull stack.nonNull,hh3 r,hh2 r]
      · dsimp only at hw3 hp3 hh3 ⊢
        generalize hp4 : ({s3.procs i with
          argvAddr := argvAddr, userSp := userSp, argc := argc',
          spanPages := plan.span.toNat, pid := v.taskCreate} : UserProc)=proc4
        have hproc4 : (s3.setProc i proc4).procs i=proc4 := by
          rw [setProc_procs,Function.update_self]
        have ho4 : Owns i image.addr stack.addr plan.pages.toNat (s3.setProc i proc4) := by
          refine ⟨?_,?_,?_,?_⟩ <;> rw [hproc4,←hp4,hp3]
          exacts [ho2.inUse,ho2.image,ho2.imagePages,ho2.ustack]
        by_cases ht : v.taskCreate<0
        · rw [if_pos ht]
          refine ⟨(hw3.setProc i proc4).procRelease i,fun _ r => ?_,fun j h => by cases h⟩
          dsimp only
          rw [procRelease_held ho4 image.nonNull stack.nonNull,held_setProc,hh3 r,hh2 r]
        · rw [if_neg ht]
          refine ⟨hw3,fun h => (by cases h),fun j h => ?_⟩
          cases h
          refine ⟨rfl,?_⟩
          rw [hg]
          dsimp only
          rw [hproc4,←hp4,hp3,hproc2,←hp2]

/-- Where the load starts: a call without a path does nothing, any other reaps first. -/
def loadStart (v : Env) (path : Option Bytes) (s : Loader) : Loader :=
  match path with
  | none => s
  | some _ => reapFinished v s

/-- The load gets as far as laying the plan's segments out in slot i. -/
def Lays (v : Env) (path : Option Bytes) (s : Loader) (plan : Plan) (i : ProcId) (s1 : Loader) :
    Prop :=
  ∃path',path=some path' ∧ 0≤v.vfsOpen path' ∧ loadPlan v=.ok plan ∧
    procAlloc v plan.pages.toNat ((reapFinished v s).claim (.fd (v.vfsOpen path')))=(some i,s1)

/-- The first region that matches an address decides what may be done there. -/
def firstMatch (d : List Region) (a : Nat) : Option Region :=
  d.find? fun r => decide (r.base≤a ∧ a < r.base+r.size)

/-- What a load may do, whatever the file, the arguments and the services answer. -/
structure LoadContained (v : Env) (path : Option Bytes) (argc : Int) (argv : Nat → Option Arg)
    (s : Loader) : Prop where
  segments : ∀plan i s1,Lays v path s plan i s1 →
    ∀seg∈plan.segs,seg.last≤plan.pages.toNat*4096
  writes : WritesIn (fun a n => ∃(plan : Plan) (image : Block v.xlen plan.pages.toNat)
      (stack : Block v.xlen 1),loadPlan v=.ok plan ∧ v.pallocImage plan.pages.toNat=some image ∧
      v.pallocStack=some stack ∧ LoadWrites image.addr stack.addr plan.pages.toNat a n)
    (loadStart v path s) (loadIntoSlotLocked v path argc argv s).2
  regions : ∀i,(loadIntoSlotLocked v path argc argv s).1=some i →
    ∃(plan : Plan) (image : Block v.xlen plan.pages.toNat) (stack : Block v.xlen 1)
      (own new : List Region),loadPlan v=.ok plan ∧ v.pallocImage plan.pages.toNat=some image ∧
      v.pallocStack=some stack ∧
      ((loadIntoSlotLocked v path argc argv s).2.procs i).domain=own++new ∧
      (∀r∈own,r=⟨stack.addr,4096,memR ||| memW⟩) ∧ Granted v.toDomainConfig image.addr plan.segs new
  writeXorExecute : ∀i,(loadIntoSlotLocked v path argc argv s).1=some i → ∀a r,
    firstMatch ((loadIntoSlotLocked v path argc argv s).2.procs i).domain a=some r →
      r.perms &&& memW=0 ∨ r.perms &&& memX=0
  released : (loadIntoSlotLocked v path argc argv s).1=none → ∀r,
    (loadIntoSlotLocked v path argc argv s).2.held r=(loadStart v path s).held r

theorem stackDomain_own (k : DomainConfig) (r : Region) :
    ∀q∈(memDomainAdd k [] r).getD [],q=r := by
  cases h : memDomainAdd k [] r with
  | none => simp
  | some d =>
    rcases memDomainAdd_some h with ⟨rfl,_⟩ | rfl <;> simp

theorem granted_perms {k : DomainConfig} {image stack : Nat} {segs : List Seg}
    {own new : List Region} (ho : ∀r∈own,r=⟨stack,4096,memR ||| memW⟩)
    (hn : Granted k image segs new) (a : Nat) (r : Region) (hr : firstMatch (own++new) a=some r) :
    r.perms &&& memW=0 ∨ r.perms &&& memX=0 := by
  rcases List.mem_append.mp (List.mem_of_find?_eq_some hr) with hm | hm
  · rw [ho r hm]
    exact .inr (show (memR ||| memW) &&& memX=0 by decide)
  · obtain ⟨seg,_,o,c,rfl,_⟩ := hn.exact r hm
    unfold pageRegion Seg.perms
    dsimp only
    split_ifs
    · exact .inl (by decide)
    · exact .inr (by decide)

theorem loadIntoSlotLocked_cases (v : Env) (path : Option Bytes) (argc : Int)
    (argv : Nat → Option Arg) (s : Loader) :
    ((loadIntoSlotLocked v path argc argv s).1=none ∧
      (∀p,WritesIn p (loadStart v path s) (loadIntoSlotLocked v path argc argv s).2) ∧
      ∀r,(loadIntoSlotLocked v path argc argv s).2.held r=(loadStart v path s).held r) ∨
    ∃path' plan i s1,path=some path' ∧ Lays v path s plan i s1 ∧
      loadIntoSlotLocked v path argc argv s=loadImage v (v.vfsOpen path') plan argc argv i s1 := by
  unfold loadIntoSlotLocked loadStart
  cases path with
  | none => exact .inl ⟨rfl,fun _ => writesIn_refl,fun _ => rfl⟩
  | some path =>
    dsimp only
    by_cases hfd : v.vfsOpen path<0
    · rw [if_pos hfd]
      exact .inl ⟨rfl,fun _ => writesIn_refl,fun _ => rfl⟩
    rw [if_neg hfd]
    cases hplan : loadPlan v with
    | error e =>
      refine .inl ⟨rfl,fun _ => (writesIn_refl.claim _).release _,fun r => ?_⟩
      dsimp only
      rw [held_release,held_claim]
      omega
    | ok plan =>
      dsimp only
      cases halloc : procAlloc v plan.pages.toNat
        ((reapFinished v s).claim (.fd (v.vfsOpen path))) with
      | mk o s1 =>
        cases o with
        | none =>
          obtain ⟨hh,hw⟩ := procAlloc_none halloc
          refine .inl ⟨rfl,fun p a n hm => ?_,fun r => ?_⟩
          · rcases ((hw p).release (.fd (v.vfsOpen path))) a n hm with h | h
            · exact (writesIn_refl (p := p)).claim _ a n h
            · exact .inr h
          · dsimp only
            rw [held_release,hh r,held_claim]
            omega
        | some i =>
          exact .inr ⟨path,plan,i,s1,rfl,⟨path,rfl,by omega,hplan,halloc⟩,rfl⟩

/-- The load is contained exactly when none of the segments it lays out ends in the last page of
the 32-bit address space. -/
theorem loadIntoSlotLocked_contained_iff (v : Env) (path : Option Bytes) (argc : Int)
    (argv : Nat → Option Arg) (s : Loader) :
    LoadContained v path argc argv s ↔
      ∀plan i s1,Lays v path s plan i s1 → ∀seg∈plan.segs,seg.Rounds := by
  constructor
  · intro h plan i s1 hl
    obtain ⟨_,_,_,hplan,_⟩ := id hl
    exact (imageSpanPages_ok (loadPlan_ok hplan).2).2.2.2.mp (h.segments plan i s1 hl)
  · intro h
    have hsegs (plan : Plan) (i : ProcId) (s1 : Loader) (hl : Lays v path s plan i s1) :
        ∀seg∈plan.segs,seg.last≤plan.pages.toNat*4096 := by
      obtain ⟨_,_,_,hplan,_⟩ := id hl
      exact (imageSpanPages_ok (loadPlan_ok hplan).2).2.2.2.mpr (h plan i s1 hl)
    rcases loadIntoSlotLocked_cases v path argc argv s with
      ⟨hnone,hw,hh⟩ | ⟨path',plan,i,s1,rfl,hl,hout⟩
    · have hno (i : ProcId) (hi : (loadIntoSlotLocked v path argc argv s).1=some i) : False := by
        rw [hnone] at hi
        cases hi
      exact ⟨hsegs,hw _,fun i hi => (hno i hi).elim,fun i hi => (hno i hi).elim,fun _ => hh⟩
    · obtain ⟨path'',hpath,_,hplan,halloc⟩ := id hl
      cases hpath
      obtain ⟨hload,hspan⟩ := loadPlan_ok hplan
      obtain ⟨image,stack,himage,hstack,ho,hd,hheld,hw⟩ := procAlloc_some halloc
      have hstart : WritesIn (LoadWrites image.addr stack.addr plan.pages.toNat)
          (reapFinished v s) s1 := by
        intro a n hm
        rcases hw _ a n hm with hm | hm
        · exact (writesIn_refl.claim _) a n hm
        · exact .inr hm
      obtain ⟨hwrites,hfail,hok⟩ := loadImage_spec v (v.vfsOpen path') plan argc argv i image stack
        _ s1 ho (imageSpanPages_ok hspan).1
        (fun seg hm => ⟨hsegs plan i s1 hl seg hm,(hload seg hm).2⟩) hstart
      rw [←hout] at hwrites hfail hok
      have hregions (j : ProcId)
          (hj : (loadIntoSlotLocked v (some path') argc argv s).1=some j) :
          ∃new,((loadIntoSlotLocked v (some path') argc argv s).2.procs j).domain=
              (s1.procs i).domain++new ∧ Granted v.toDomainConfig image.addr plan.segs new := by
        obtain ⟨rfl,hg⟩ := hok j hj
        exact grantSegs_some _ _ _ (fun seg hm => ⟨h plan _ s1 hl seg hm,(hload seg hm).1⟩) _ _ _ hg
      have hown : ∀r∈(s1.procs i).domain,r=⟨stack.addr,4096,memR ||| memW⟩ := by
        rw [hd]
        exact stackDomain_own _ _
      refine ⟨hsegs,fun a n hm => ?_,fun j hj => ?_,fun j hj a r hr => ?_,fun hn r => ?_⟩
      · exact (hwrites a n hm).imp_right fun hm => ⟨plan,image,stack,hplan,himage,hstack,hm⟩
      · obtain ⟨new,hdom,hg⟩ := hregions j hj
        exact ⟨plan,image,stack,_,new,hplan,himage,hstack,hdom,hown,hg⟩
      · obtain ⟨new,hdom,hg⟩ := hregions j hj
        rw [hdom] at hr
        exact granted_perms hown hg a r hr
      · rw [hfail hn r,hheld r,held_claim]
        show (reapFinished v s).held r+_+_-_-_=(reapFinished v s).held r
        omega

/-- A 32-bit ELF file of 100 bytes with one segment: 16 file bytes, memsz bytes at vaddr. -/
def oneSegment (vaddr memsz : Bytes) : Bytes :=
  elfMagic++[1,1,1,0]++List.replicate 8 0++[2,0,0xF3,0,1,0,0,0]++[0,0,0,0]++[52,0,0,0]++
    List.replicate 8 0++[52,0,32,0,1,0,0,0,0,0,0,0]++
    [1,0,0,0]++[84,0,0,0]++vaddr++vaddr++[16,0,0,0]++memsz++[5,0,0,0]++[0,16,0,0]++
    List.replicate 16 0x13

/-- A machine with 32-bit addresses, free blocks, and this file in its volume. -/
def machine32 (file : Bytes) : Env where
  xlen := 32
  xlen_ok := .inl rfl
  vfsOpen := fun _ => 3
  vfsFstat := some file.length.toUInt32
  content := fun k => file.getD k 0
  vfsPread := fun off len => (min len (file.length-off) : Nat)
  pallocImage := fun pages =>
    if h : pages≤64 then
      some ⟨0x80100000,by decide,by decide,by
        have := Nat.mul_le_mul_right 4096 h
        omega⟩
    else none
  pallocStack := some ⟨0x80080000,by decide,by decide,by decide⟩
  taskCreate := 7

def freshLoader : Loader := {procs := fun _ => {}}

/-- 0x700 bytes at 0xFFFFF800: the page count wraps to 0 and the image is one page. -/
def wrappingFile : Bytes := oneSegment [0x00,0xF8,0xFF,0xFF] [0x00,0x07,0,0]

theorem loadIntoSlotLocked_not_contained : ¬∀v path argc argv s,LoadContained v path argc argv s := by
  intro hall
  have h := (hall (machine32 wrappingFile) (some (ofString "/sd0/a")) 0 (fun _ => none)
    freshLoader).segments ⟨[⟨84,0xFFFFF800,16,0x700,5⟩],1,0,0⟩ (0 : Fin 4) _
    ⟨_,rfl,by decide,rfl,rfl⟩ ⟨84,0xFFFFF800,16,0x700,5⟩ List.mem_cons_self
  revert h
  decide

/-- The same file at address 0 loads. -/
example : (loadIntoSlotLocked (machine32 (oneSegment [0,0,0,0] [0x00,0x07,0,0]))
    (some (ofString "/sd0/a")) 0 (fun _ => none) freshLoader).1=some (0 : Fin 4) := by rfl

end LugalOS.Elf
