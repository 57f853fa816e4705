import LugalOS.Fat32.Created
import LugalOS.Lib.Buffer

namespace LugalOS.Fat32

open CString Linked Buffer

section seek

variable {fs fs' : Fat32Fs} {cur : Cursor} {l : List Nat}

theorem Keeps.ends (h : Keeps fs fs') (m : Mounted fs) (hl : Ends (fatLink fs) l) :
    Ends (fatLink fs') l :=
  hl.congr fun c hc => fatLink_congr h.layout (h.entry m.sound c (ends_has hl c hc))

theorem chainSeekLoop_spec (m : Mounted fs) {n c : Nat} (h : Ends (fatLink fs) (c::l)) :
    (chainSeekLoop false n fs c).1=(c::l).getD n 0 ∧ Keeps fs (chainSeekLoop false n fs c).2 := by
  induction n generalizing fs c l with
  | zero => exact ⟨rfl,Keeps.refl fs⟩
  | succ n ih =>
    have hk := fatGetEntry_keeps fs m c
    have hc := ends_has h c List.mem_cons_self
    simp only [chainSeekLoop,fatGetEntry_eq fs m c hc]
    cases l with
    | nil =>
      obtain ⟨v,hv,hge⟩ := fatLink_stop h
      rw [hv,Option.getD_some,if_pos hge]
      exact ⟨rfl,hk⟩
    | cons d l =>
      obtain ⟨hd,hlt⟩ := fatLink_to h.1
      have h2 := (ends_has h d (by simp)).1
      rw [hd,Option.getD_some,if_neg (by omega),if_neg (by omega)]
      obtain ⟨h3,h4⟩ := ih (hk.mounted m) (hk.ends m h.2)
      exact ⟨by simpa using h3,hk.trans h4⟩

/-- A cursor of the volume's generation is at the cluster of its index. -/
def Cursor.Follows (cur : Cursor) (fs : Fat32Fs) : Prop :=
  cur.gen%2^32=fs.gen%2^32 → cur.cluster≥2 → (chainOf fs cur.first)[cur.index]?=some cur.cluster

theorem Keeps.follows (h : Keeps fs fs') (m : Mounted fs) : cur.Follows fs' ↔ cur.Follows fs := by
  have hc : chainOf fs' cur.first=chainOf fs cur.first := by
    rw [chainOf,chainOf,h.layout,scanned_keeps m h]
  rw [Cursor.Follows,Cursor.Follows,hc,h.gen]

theorem chainSeek_spec (m : Mounted fs) {first : Nat} (target : Nat) (hp : Proper fs first)
    (hc : cur.Follows fs) :
    (chainSeek fs first target cur false).1.1=(chainOf fs first).getD target 0 ∧
      (chainSeek fs first target cur false).1.2.Follows fs ∧
      Keeps fs (chainSeek fs first target cur false).2 := by
  obtain ⟨start,hstart⟩ : ∃s,s=if cur.usable fs first target then (cur.cluster,cur.index)
    else (first,0) := ⟨_,rfl⟩
  have hends := hp.ends
  have hat : start.2≤target ∧ (chainOf fs first)[start.2]?=some start.1 := by
    split at hstart
    next hu =>
      simp only [Cursor.usable,Bool.decide_and,Bool.and_eq_true,decide_eq_true_eq] at hu
      have hi := hc hu.2.1 hu.2.2.1
      rw [hu.1] at hi
      exact hstart ▸ ⟨hu.2.2.2,hi⟩
    next =>
      obtain ⟨l,hl⟩ := hp
      rw [chainOf_ends hl,hstart]
      exact ⟨Nat.zero_le _,rfl⟩
  obtain ⟨hle,hat⟩ := hat
  obtain ⟨hlt,hat⟩ := List.getElem?_eq_some_iff.mp hat
  rw [← List.take_append_drop start.2 (chainOf fs first),List.drop_eq_getElem_cons hlt,hat] at hends
  have hloop := chainSeekLoop_spec m hends.suffix (n := target-start.2)
  rw [← hat,← List.drop_eq_getElem_cons hlt,List.getD_eq_getElem?_getD,List.getElem?_drop,
    Nat.add_sub_cancel' hle,hat] at hloop
  simp only [chainSeek,← hstart]
  rw [List.getD_eq_getElem?_getD,← hloop.1]
  split
  next h0 => exact ⟨h0.symm,hc,hloop.2⟩
  next h0 =>
    refine ⟨rfl,fun _ _ => ?_,hloop.2⟩
    rw [hloop.1] at h0 ⊢
    cases hi : (chainOf fs first)[target]? with
    | none => exact absurd (by rw [hi]; rfl) h0
    | some c => rfl

end seek

/-- The bytes of the clusters of a chain, one after the other. -/
def Fat32Fs.chainBytes (fs : Fat32Fs) (l : List Nat) (p : Nat) : UInt8 :=
  fs.dev.blocks (fs.dataLba (l.getD (p/512/fs.bpb.secPerClus) 0) (p/512%fs.bpb.secPerClus)) (p%512)

/-- The bytes of a file, as far as its chain goes. -/
def Fat32Fs.contents (fs : Fat32Fs) (e : DirEntry) : Bytes :=
  memRead (fs.chainBytes (chainOf fs e.fstClus)) 0
    (min e.fileSize ((chainOf fs e.fstClus).length*fs.bytesPerCluster))

section read

variable {fs fs' : Fat32Fs} {l : List Nat} {a toRead i s o c z : Nat} {out : Bytes} {cur : Cursor}

theorem Readable.read (hr : Readable fs) {lba : Nat} (hl : fs.InFat1 lba ∨ fs.InData lba) :
    fs.dev.readBlocks lba=some (fs.dev.blocks lba) := by
  obtain ⟨sec,hsec⟩ := Option.isSome_iff_exists.mp (hr lba hl)
  exact if_pos (readBlocks_some _ _ _ hsec)

theorem chainBytes_eq (hz : fs.bpb.secPerClus=z) (hs : s<z) (ho : o<512) (hc : l[i]?=some c) :
    fs.chainBytes l ((i*z+s)*512+o)=fs.dev.blocks (fs.dataLba c s) o := by
  have h1 : ((i*z+s)*512+o)/512=z*i+s := by
    rw [Nat.mul_comm z]
    omega
  rw [Fat32Fs.chainBytes,hz,h1,Nat.mul_add_div (by omega),Nat.div_eq_of_lt hs,Nat.mul_add_mod,
    Nat.mod_eq_of_lt hs,Nat.add_zero,List.getD_eq_getElem?_getD,hc,Nat.mul_add_mod',
    Nat.mod_eq_of_lt ho]
  rfl

/-- The bytes from a on that have been read. -/
structure Served (fs : Fat32Fs) (l : List Nat) (z a toRead : Nat) (out : Bytes) : Prop where
  le : out.length≤toRead
  eq : out=memRead (fs.chainBytes l) a out.length
  fits : a+out.length≤l.length*(z*512)

/-- While bytes are wanted, the next one is byte o of sector s of cluster i. -/
def At (a toRead z i s o : Nat) (out : Bytes) : Prop :=
  out.length<toRead → a+out.length=(i*z+s)*512+o ∧ o<512 ∧ (s<z ∨ s=z ∧ o=0)

theorem At.done (h : At a toRead z i s o out) (hs : ¬s<z) (hlt : out.length<toRead) :
    a+out.length=(i+1)*z*512 := by
  obtain ⟨hx,-,he⟩ := h hlt
  obtain ⟨rfl,rfl⟩ := he.resolve_left hs
  rw [hx,Nat.add_mul i,Nat.one_mul,Nat.add_zero]

theorem readSectors_spec (m : Mounted fs) (hr : Readable fs) (hk : Keeps fs fs')
    (hz : fs.bpb.secPerClus=z) (base : Nat) (hb : ∀s<z,(base+s)%2^32=fs.dataLba c s)
    (hc : l[i]?=some c) (hh : fs.HasCluster c) (n : Nat) (hn : z≤n+s)
    (h : Served fs l z a toRead out) (hp : At a toRead z i s o out) :
    ∃out',readSectors fs' base toRead n s o out=some out' ∧ Served fs l z a toRead out' ∧
      (out'.length<toRead → a+out'.length=(i+1)*z*512) := by
  have hspc : fs'.spc=z := by
    rw [hk.layout,Layout.spc,if_neg (Nat.pos_iff_ne_zero.mp m.sound.spcPos),hz]
  induction n generalizing s o out with
  | zero => exact ⟨out,rfl,h,hp.done (by omega)⟩
  | succ n ih =>
    unfold readSectors
    rw [hspc]
    by_cases hgo : s<z ∧ out.length<toRead
    · obtain ⟨hpos,ho,-⟩ := hp hgo.2
      have hin : fs.InFat1 (fs.dataLba c s) ∨ fs.InData (fs.dataLba c s) :=
        .inr (Layout.dataLba_inData c s hh (hz ▸ hgo.1))
      rw [if_pos hgo,hb s hgo.1,hk.reads _ hin,hr.read hin]
      dsimp only
      generalize hch : min (512-o) (toRead-out.length)=chunk
      have hbytes : slice (fs.dev.blocks (fs.dataLba c s)) o chunk=
          memRead (fs.chainBytes l) (a+out.length) chunk := by
        refine List.map_congr_left fun k hk => ?_
        have hk := List.mem_range.mp hk
        rw [hpos,Nat.add_assoc,chainBytes_eq hz hgo.1 (by omega) hc]
      have hlen : (out++slice (fs.dev.blocks (fs.dataLba c s)) o chunk).length=
          out.length+chunk := by simp [slice]
      have hrow : (i*z+(s+1))*512≤l.length*(z*512) := by
        have hm := Nat.mul_le_mul_right z (List.getElem?_eq_some_iff.mp hc).1
        rw [Nat.succ_mul] at hm
        rw [← Nat.mul_assoc]
        omega
      exact ih (by omega)
        ⟨by omega,by rw [hlen,memRead_add,← h.eq,hbytes],by omega⟩ (by intro _; omega)
    · rw [if_neg hgo]
      exact ⟨out,rfl,h,fun hlt => hp.done (fun hs => hgo ⟨hs,hlt⟩) hlt⟩

/-- What a read has given: bytes up to the end of the chain or as many as were asked for. -/
structure Given (fs : Fat32Fs) (l : List Nat) (z a toRead : Nat)
    (r : (Option Bytes×Cursor)×Fat32Fs) : Prop where
  bytes : ∃out,r.1.1=some out ∧ Served fs l z a toRead out ∧
    (out.length<toRead → a+out.length=l.length*(z*512))
  cursor : r.1.2.Follows fs
  keeps : Keeps fs r.2

theorem readLoop_spec (m : Mounted fs) (hr : Readable fs) (hz : fs.bpb.secPerClus=z) {first : Nat}
    (hpr : Proper fs first) (hl : chainOf fs first=l) (n : Nat) (hn : toRead<n+out.length)
    (hk : Keeps fs fs') (hcur : cur.Follows fs) (h : Served fs l z a toRead out)
    (hp : At a toRead z i s o out) (hs : s<z) (hc : l[i]?=some c) :
    Given fs l z a toRead (readLoop first toRead n fs' c i s o out cur) := by
  have hhas : ∀c∈l,fs.HasCluster c := hl ▸ ends_has hpr.ends
  induction n generalizing i s o c out fs' cur with
  | zero =>
    have := h.le
    omega
  | succ n ih =>
    unfold readLoop
    by_cases hlt : out.length<toRead
    · have hh := hhas c (List.mem_of_getElem? hc)
      have hspc : fs'.spc=z := by
        rw [hk.layout,Layout.spc,if_neg (Nat.pos_iff_ne_zero.mp m.sound.spcPos),hz]
      obtain ⟨out1,h1,h2,h4⟩ := readSectors_spec m hr hk hz (fs'.clusterToLba c)
        (fun s hs => by rw [hk.layout,m.sound.sectorLba c s hh (hz ▸ hs)]) hc hh z
        (Nat.le_add_right _ s) h hp
      rw [if_pos hlt,hspc,h1]
      dsimp only
      by_cases hlt1 : out1.length<toRead
      · rw [if_pos hlt1]
        have hend := h4 hlt1
        have hproper := hk.stores.chainOf m hpr
        obtain ⟨k1,k2,k3⟩ := chainSeek_spec (hk.mounted m) (i+1) hproper.2
          ((hk.follows m).mpr hcur)
        have hk' := hk.trans k3
        have k2 := (hk.follows m).mp k2
        rw [hproper.1,hl,List.getD_eq_getElem?_getD] at k1
        cases hd : l[i+1]? with
        | none =>
          rw [hd,Option.getD_none] at k1
          rw [if_pos k1]
          refine ⟨⟨out1,rfl,h2,fun _ => ?_⟩,k2,hk'⟩
          rw [hend,Nat.le_antisymm (List.getElem?_eq_none_iff.mp hd)
            (List.getElem?_eq_some_iff.mp hc).1,Nat.mul_assoc]
        | some d =>
          rw [hd,Option.getD_some] at k1
          have h0 : d≠0 := by
            have := (hhas d (List.mem_of_getElem? hd)).1
            omega
          have hmore : toRead<n+out1.length := by
            have := hp hlt
            have := Nat.add_mul i 1 z
            omega
          rw [k1,if_neg h0]
          refine ih hmore hk' k2 h2 (fun _ => ⟨?_,by decide,.inl ?_⟩) ?_ hd
          · simp only [hend,Nat.add_zero]
          all_goals exact hz ▸ m.sound.spcPos
      · rw [if_neg hlt1]
        exact ⟨⟨out1,rfl,h2,fun h => absurd h hlt1⟩,hcur,hk⟩
    · rw [if_neg hlt]
      exact ⟨⟨out,rfl,h,fun h => absurd h hlt⟩,hcur,hk⟩

theorem memRead_part (f : Nat → UInt8) (n a k : Nat) :
    ((memRead f 0 n).drop a).take k=memRead f a (min k (n-a)) := by
  refine List.ext_getElem (by simp) fun i _ _ => ?_
  simp only [List.getElem_take,List.getElem_drop,memRead_getElem,Nat.zero_add]

theorem fat32ReadAt_part (m : Mounted fs) (hr : Readable fs) {e : DirEntry}
    (he : e.fstClus<2 ∨ Proper fs e.fstClus) (hcur : cur.Follows fs) (count offset : Nat) :
    let r := fat32ReadAt fs e count offset cur
    r.1.1.bytes=((fs.contents e).drop offset).take count ∧ r.1.1.ret=asInt r.1.1.bytes.length ∧
      r.1.2.Follows r.2 ∧ Keeps fs r.2 := by
  obtain ⟨z,hz⟩ : ∃z,fs.bpb.secPerClus=z := ⟨_,rfl⟩
  have hspc : 0<z := hz ▸ m.sound.spcPos
  have hb : fs.bytesPerCluster=z*512 := hz ▸ m.sound.bpcEq
  have hbpc : fs.bpc=z*512 := by rw [Layout.bpc,hb,if_neg (by omega)]
  rw [Fat32Fs.contents,memRead_part,hb]
  generalize hl : chainOf fs e.fstClus=l
  have hnil : ∀{c : Cursor} {g : Fat32Fs},c.Follows fs → Keeps fs g → min count (min e.fileSize (l.length*(z*512))-
      offset)=0 → ([] : Bytes)=memRead (fs.chainBytes l) offset (min count
        (min e.fileSize (l.length*(z*512))-offset)) ∧ 0=asInt 0 ∧ c.Follows g ∧ Keeps fs g :=
    fun h hk h0 => ⟨by rw [h0]; rfl,rfl,(hk.follows m).mpr h,hk⟩
  dsimp only
  unfold fat32ReadAt
  rw [hbpc]
  by_cases h0 : offset≥e.fileSize ∨ count=0
  · rw [if_pos h0]
    exact hnil hcur (Keeps.refl fs) (by omega)
  rw [if_neg h0]
  by_cases h2 : e.fstClus<2
  · have hz : l.length=0 := by
      rw [← hl,chainOf,scanned,if_neg fun h => by have := h.1; omega]
      rfl
    dsimp only
    rw [if_pos h2]
    exact hnil hcur (Keeps.refl fs) (by simp [hz])
  have hp := he.resolve_left h2
  obtain ⟨k1,k2,k3⟩ := chainSeek_spec m (offset/(z*512)) hp hcur
  have hpos := Nat.div_add_mod' offset (z*512)
  have hskip := Nat.mod_lt offset (show z*512>0 by omega)
  rw [hl,List.getD_eq_getElem?_getD] at k1
  dsimp only
  rw [if_neg h2]
  cases hc : l[offset/(z*512)]? with
  | none =>
    have hend := (Nat.le_div_iff_mul_le (by omega)).mp (List.getElem?_eq_none_iff.mp hc)
    rw [hc,Option.getD_none] at k1
    rw [if_pos k1]
    exact hnil k2 k3 (by omega)
  | some c =>
    have hi := Nat.mul_le_mul_right (z*512) (List.getElem?_eq_some_iff.mp hc).1
    have hc2 := (ends_has hp.ends c (hl ▸ List.mem_of_getElem? hc)).1
    rw [hc,Option.getD_some] at k1
    rw [k1,if_neg (by omega)]
    rw [Nat.succ_mul] at hi
    have hle : (if e.fileSize-offset<count then e.fileSize-offset else count)=
        min (e.fileSize-offset) count := by split <;> omega
    have hnone : Served fs l z offset (if e.fileSize-offset<count then e.fileSize-offset else count)
        [] := ⟨Nat.zero_le _,rfl,by rw [List.length_nil]; omega⟩
    obtain ⟨⟨out,h1,h2,h3⟩,h4,h5⟩ := readLoop_spec (i := offset/(z*512))
      (s := offset%(z*512)/512) (o := offset%(z*512)%512) m hr hz hp hl _ (Nat.lt_succ_self _) k3 k2
      hnone (fun _ => ⟨by
        rw [Nat.add_mul,Nat.mul_assoc,List.length_nil]
        omega,Nat.mod_lt _ (by decide),.inl (by omega)⟩) (by omega) hc
    have hfits := h2.fits
    have hlen := h2.le
    rw [hle] at h3 hlen
    rw [h1]
    refine ⟨?_,rfl,(h5.follows m).mpr h4,h5⟩
    dsimp only
    rw [h2.eq]
    congr 1
    omega

theorem Keeps.contents (h : Keeps fs fs') (m : Mounted fs) (hr : Readable fs) {e : DirEntry}
    (he : e.fstClus<2 ∨ Proper fs e.fstClus) :
    fs'.contents e=fs.contents e ∧ (e.fstClus<2 ∨ Proper fs' e.fstClus) := by
  have hchain : chainOf fs' e.fstClus=chainOf fs e.fstClus := by
    rw [chainOf,chainOf,h.layout,scanned_keeps m h]
  refine ⟨?_,he.imp id fun hp => (h.stores.chainOf m hp).2⟩
  rw [Fat32Fs.contents,Fat32Fs.contents,hchain,h.layout]
  refine memRead_congr fun p hp => ?_
  rw [Nat.zero_add,Fat32Fs.chainBytes,Fat32Fs.chainBytes,h.layout]
  generalize hl : chainOf fs e.fstClus=l at hp
  have hb := m.sound.bpcEq
  have hpos := m.sound.spcPos
  generalize hz : fs.bpb.secPerClus=z at hb hpos
  have hi : p/512/z<l.length := by
    rw [Nat.div_lt_iff_lt_mul hpos,Nat.div_lt_iff_lt_mul (by decide),Nat.mul_assoc,← hb]
    omega
  have hp2 : Proper fs e.fstClus := he.resolve_left fun h2 => by
    rw [← hl,chainOf,scanned,if_neg fun hc => by have := hc.1; omega] at hi
    exact absurd hi (Nat.not_lt_zero _)
  have hc : fs.HasCluster (l.getD (p/512/z) 0) := by
    rw [List.getD_eq_getElem _ _ hi]
    exact ends_has hp2.ends _ (hl ▸ List.getElem_mem hi)
  have hin : fs.InFat1 (fs.dataLba (l.getD (p/512/z) 0) (p/512%z)) ∨
      fs.InData (fs.dataLba (l.getD (p/512/z) 0) (p/512%z)) :=
    .inr (Layout.dataLba_inData _ _ hc (by rw [hz]; exact Nat.mod_lt _ hpos))
  have hblock := (h.readable hr).read (by rw [h.layout]; exact hin)
  rw [h.reads _ hin,hr.read hin] at hblock
  rw [Option.some.inj hblock]

/-- Reads of parts of a file, one after the other, through one cursor. -/
def readParts (e : DirEntry) : List (Nat×Nat) → Fat32Fs → Cursor → List Bytes
  | [],_,_ => []
  | (count,offset)::parts,fs,cur =>
    let r := fat32ReadAt fs e count offset cur
    r.1.1.bytes::readParts e parts r.2 r.1.2

/-- Reads in any order, one after the other through one cursor, give just the parts of the file
that they ask for, as far as the file goes. -/
theorem readParts_eq (m : Mounted fs) (hr : Readable fs) {e : DirEntry}
    (he : e.fstClus<2 ∨ Proper fs e.fstClus) (hcur : cur.Follows fs) (parts : List (Nat×Nat)) :
    readParts e parts fs cur=
      parts.map fun p => ((fs.contents e).drop p.2).take p.1 := by
  induction parts generalizing fs cur with
  | nil => rfl
  | cons p parts ih =>
    obtain ⟨h1,-,h2,h3⟩ := fat32ReadAt_part m hr he hcur p.1 p.2
    obtain ⟨h4,h5⟩ := h3.contents m hr he
    rw [readParts,List.map_cons,h1,ih (h3.mounted m) (h3.readable hr) h5 h2,h4]

/-- A file of 700 bytes in two clusters; the reads take the cursor to the second and back. -/
theorem readParts_eq_two :
    let fs := fatSetEntry (fatSetEntry volumeWithDir 3 4) 4 endMark
    readParts ⟨[],0,3,700⟩ [(50,600),(20,505),(600,690),(9,0)] fs Cursor.nowhere=
      [(50,600),(20,505),(600,690),(9,0)].map fun p =>
        ((fs.contents ⟨[],0,3,700⟩).drop p.2).take p.1 := by
  dsimp only
  generalize hfs : fatSetEntry (fatSetEntry volumeWithDir 3 4) 4 endMark=fs
  have hc : ∀c<5,2≤c → volumeWithDir.HasCluster c := by
    unfold Layout.HasCluster
    decide +kernel
  have h1 := fatSetEntry_spec volumeWithDir volumeWithDir_mounted 3 4 (hc 3 (by decide)
    (by decide))
  have h2 := fatSetEntry_spec _ (volumeWithDir_mounted.grows h1.toGrows) 4 endMark (by
    rw [h1.layout]
    exact hc 4 (by decide) (by decide))
  have he : (fatSetEntry (fatSetEntry volumeWithDir 3 4) 4 endMark).entry 3=some 4 ∧
      (fatSetEntry (fatSetEntry volumeWithDir 3 4) 4 endMark).entry 4=some endMark := by
    decide +kernel
  have hg := h1.toGrows.trans h2.toGrows
  rw [hfs] at he hg
  have hends : Ends (fatLink fs) [3,4] := by
    refine ⟨?_,?_⟩
    · rw [fatLink,if_pos (by rw [hg.layout]; exact hc 3 (by decide) (by decide)),he.1]
      exact if_neg (by decide)
    · rw [Ends,fatLink,if_pos (by rw [hg.layout]; exact hc 4 (by decide) (by decide)),he.2]
      exact if_pos (by decide)
  exact readParts_eq (volumeWithDir_mounted.grows hg) (hg.readable volumeWithDir_readable)
    (.inr ⟨[4],hends⟩) (fun _ h => absurd h (by decide)) _

end read

end LugalOS.Fat32
