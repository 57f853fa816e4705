import LugalOS.Fat32.Listing
import LugalOS.Fat32.Mount

namespace LugalOS.Fat32

open CString

section Names

/-- A padded field that the conversion of a name can produce: no lower-case letter, no NUL, and
nothing but padding after the first space. -/
def fieldOk (f : Bytes) : Bool :=
  f.all (fun c => toUpper c == c && c != 0) && (f.dropWhile (· != space)).all (· == space)

/-- The 11 bytes that come back from their display name: two such fields, a base that is not
empty, and no dot that would be taken for the separator. -/
def showable (raw : Bytes) : Bool :=
  let base := raw.take 8
  let ext := raw.drop 8
  fieldOk base && fieldOk ext && base.headD space != space &&
    if ext.headD space == space then !(base.drop 1).contains dot else !ext.contains dot

theorem toUpper_toUpper (c : UInt8) : toUpper (toUpper c)=toUpper c := by
  unfold toUpper
  grind

theorem toUpper_ne {c : UInt8} (hs : c≠space) (h0 : c≠0) : toUpper c≠space ∧ toUpper c≠0 := by
  unfold toUpper space at *
  grind

theorem dropWhile_spaces {f : Bytes} (h : fieldOk f=true) :
    f=f.takeWhile (· != space)++List.replicate (f.length-(f.takeWhile (· != space)).length)
      space := by
  rw [fieldOk,Bool.and_eq_true,List.all_eq_true] at h
  have hall : f.dropWhile (· != space)=
      List.replicate (f.dropWhile (· != space)).length space :=
    List.eq_replicate_of_mem fun c hc => by simpa using List.all_eq_true.mp h.2 c hc
  have hsplit := List.takeWhile_append_dropWhile (p := (· != space)) (l := f)
  have hlen := congrArg List.length hsplit
  rw [List.length_append] at hlen
  rw [show f.length-(f.takeWhile (· != space)).length=(f.dropWhile (· != space)).length by omega,
    ← hall,hsplit]

theorem pad83_field {f : Bytes} {n : Nat} (h : fieldOk f=true) (hn : f.length=n) :
    pad83 n (f.takeWhile (· != space))=f := by
  have hle : (f.takeWhile (· != space)).length≤n := hn ▸ (List.takeWhile_prefix _).length_le
  have hmap : (f.takeWhile (· != space)).map toUpper=f.takeWhile (· != space) := by
    refine (List.map_congr_left fun c hc => ?_).trans (List.map_id _)
    rw [fieldOk,Bool.and_eq_true,List.all_eq_true] at h
    have hc' := h.1 c (List.takeWhile_subset _ hc)
    simp only [Bool.and_eq_true,beq_iff_eq] at hc'
    exact hc'.1
  rw [pad83,List.take_of_length_le hle,hmap,← hn]
  exact (dropWhile_spaces h).symm

theorem field_pad83 {t : Bytes} (n : Nat) (h : ∀c∈t,c≠space ∧ c≠0) :
    fieldOk (pad83 n t)=true ∧
      (pad83 n t).takeWhile (· != space)=(t.take n).map toUpper := by
  have hup : ∀c∈(t.take n).map toUpper,c≠space ∧ c≠0 ∧ toUpper c=c := by
    intro c hc
    obtain ⟨d,hd,rfl⟩ := List.mem_map.mp hc
    obtain ⟨h1,h2⟩ := h d (List.mem_of_mem_take hd)
    exact ⟨(toUpper_ne h1 h2).1,(toUpper_ne h1 h2).2,toUpper_toUpper d⟩
  have htw : (pad83 n t).takeWhile (· != space)=(t.take n).map toUpper := by
    rw [pad83,List.takeWhile_append_of_pos (fun c hc => by simpa using (hup c hc).1)]
    cases n-t.length with
    | zero => simp
    | succ k => rw [List.replicate_succ,List.takeWhile_cons_of_neg (by simp),List.append_nil]
  refine ⟨?_,htw⟩
  rw [fieldOk,Bool.and_eq_true,List.all_eq_true,List.all_eq_true]
  constructor
  · intro c hc
    rcases List.mem_append.mp hc with hc | hc
    · simp [(hup c hc).2.1,(hup c hc).2.2]
    · rw [List.eq_of_mem_replicate hc]
      decide
  · intro c hc
    have hsplit := List.takeWhile_append_dropWhile (p := (· != space)) (l := pad83 n t)
    rw [htw] at hsplit
    have hd : (pad83 n t).dropWhile (· != space)=List.replicate (n-t.length) space :=
      List.append_cancel_left hsplit
    rw [hd] at hc
    simpa using List.eq_of_mem_replicate hc

theorem displayName_eq {raw : Bytes} {n : Nat} (hr : raw.length=11) (hn : 13≤n) :
    fat83ToDisplayName raw n=
      ((raw.take 8).takeWhile (· != space)).takeWhile (· != 0)++
        if (raw.drop 8).takeWhile (· != space)=[] then []
        else dot::((raw.drop 8).takeWhile (· != space)).takeWhile (· != 0) := by
  have htake : (raw.drop 8).take 3=raw.drop 8 := List.take_of_length_le (by simp [hr])
  have h1 : (((raw.take 8).takeWhile (· != space)).takeWhile (· != 0)).length≤8 :=
    ((List.takeWhile_prefix _).length_le.trans (List.takeWhile_prefix _).length_le).trans
      (List.length_take_le 8 raw)
  have h2 : (((raw.drop 8).takeWhile (· != space)).takeWhile (· != 0)).length≤3 :=
    ((List.takeWhile_prefix _).length_le.trans (List.takeWhile_prefix _).length_le).trans
      (by simp [hr])
  simp only [fat83ToDisplayName,htake,List.isEmpty_iff]
  refine List.take_of_length_le ?_
  rw [List.length_append]
  split
  · simp only [List.length_nil]
    omega
  · rw [List.length_cons]
    omega

theorem takeWhile_holds {α : Type} {p : α → Bool} {c : α} {l : List α} (h : c∈l.takeWhile p) :
    p c=true := by
  induction l with
  | nil => cases h
  | cons x l ih =>
    rw [List.takeWhile_cons] at h
    split at h
    next hx =>
      rcases List.mem_cons.mp h with rfl | h
      · exact hx
      · exact ih h
    next => cases h

theorem filenameTo83_plain {s : Bytes} (hs : slash∉s) (h : dot∉s.drop 1) :
    filenameTo83 s=pad83 8 s++pad83 3 [] := by
  have htw : s.takeWhile (· != slash)=s :=
    List.takeWhile_eq_self_iff.mpr fun c hc => by simpa using fun he : c=slash => hs (he ▸ hc)
  have hext : extDot s=none := by
    rw [extDot]
    cases s with
    | nil => rfl
    | cons c s =>
      have hnone : lastIndex dot s=none := (lastIndex_none dot s).mpr h
      by_cases hc : c=dot <;> simp [lastIndex,hnone,hc]
  rw [filenameTo83]
  simp only [htw,hext]

theorem filenameTo83_dotted {p q : Bytes} (hs : slash∉p++dot::q) (hp : p≠[]) (hq : dot∉q) :
    filenameTo83 (p++dot::q)=pad83 8 p++pad83 3 q := by
  have htw : (p++dot::q).takeWhile (· != slash)=p++dot::q :=
    List.takeWhile_eq_self_iff.mpr fun c hc => by simpa using fun he : c=slash => hs (he ▸ hc)
  have hlast : lastIndex dot (dot::q)=some 0 := by
    simp [lastIndex,(lastIndex_none dot q).mpr hq]
  have hidx : lastIndex dot (p++dot::q)=some p.length := lastIndex_append dot p (dot::q) 0 hlast
  have hext : extDot (p++dot::q)=some p.length := by
    rw [extDot,hidx]
    cases p with
    | nil => exact absurd rfl hp
    | cons c p => rfl
  rw [filenameTo83]
  simp only [htw,hext]
  rw [List.take_left,List.drop_append,List.drop_of_length_le (by omega)]
  simp

theorem filenameTo83_parts {s : Bytes} (hs : slash∉s) :
    (extDot s=none ∧ filenameTo83 s=pad83 8 s++pad83 3 []) ∨
      ∃i,extDot s=some i ∧ filenameTo83 s=pad83 8 (s.take i)++pad83 3 (s.drop (i+1)) := by
  have htw : s.takeWhile (· != slash)=s :=
    List.takeWhile_eq_self_iff.mpr fun c hc => by simpa using fun he : c=slash => hs (he ▸ hc)
  rw [filenameTo83]
  simp only [htw]
  cases extDot s with
  | none => exact .inl ⟨rfl,rfl⟩
  | some i => exact .inr ⟨i,rfl,rfl⟩

theorem extDot_some {s : Bytes} {i : Nat} (h : extDot s=some i) :
    lastIndex dot s=some i ∧ i≠0 := by
  rw [extDot] at h
  cases hi : lastIndex dot s with
  | none =>
    rw [hi] at h
    cases h
  | some j =>
    rw [hi] at h
    cases j with
    | zero => cases h
    | succ j =>
      cases h
      exact ⟨rfl,Nat.succ_ne_zero j⟩

theorem extDot_none {s : Bytes} (h : extDot s=none) : dot∉s.drop 1 := by
  cases s with
  | nil => simp
  | cons c s =>
    rw [List.drop_one,List.tail_cons,← lastIndex_none]
    cases hi : lastIndex dot s with
    | none => rfl
    | some j => simp [extDot,lastIndex,hi] at h

theorem headD_space {f : Bytes} (hf : f≠[]) :
    f.headD space=space ↔ f.takeWhile (· != space)=[] := by
  cases f with
  | nil => exact absurd rfl hf
  | cons c f =>
    rw [List.headD_cons,List.takeWhile_cons]
    by_cases hc : c=space <;> simp [hc]

theorem mem_field {f : Bytes} {c : UInt8} {k : Nat} (h : fieldOk f=true) (hc : c≠space)
    (hm : c∈f.drop k) : c∈(f.takeWhile (· != space)).drop k := by
  rw [dropWhile_spaces h,List.drop_append] at hm
  rcases List.mem_append.mp hm with hm | hm
  · exact hm
  · exact absurd (List.eq_of_mem_replicate (List.mem_of_mem_drop hm)) hc

theorem takeWhile_nonzero {f : Bytes} (h : fieldOk f=true) :
    (f.takeWhile (· != space)).takeWhile (· != 0)=f.takeWhile (· != space) := by
  rw [fieldOk,Bool.and_eq_true,List.all_eq_true] at h
  refine List.takeWhile_eq_self_iff.mpr fun c hc => ?_
  have hc' := h.1 c (List.takeWhile_subset _ hc)
  rw [Bool.and_eq_true] at hc'
  exact hc'.2

theorem displayName_bytes {raw : Bytes} {n : Nat} (hr : raw.length=11) (hn : 13≤n) :
    ∀c∈fat83ToDisplayName raw n,c≠space ∧ c≠0 ∧ (c=dot ∨ c∈raw) := by
  intro c hc
  have hfield {f : Bytes} (hf : ∀x∈f,x∈raw)
      (hc : c∈(f.takeWhile (· != space)).takeWhile (· != 0)) : c≠space ∧ c≠0 ∧ c∈raw := by
    have h1 := List.takeWhile_subset _ hc
    have h2 : (c != space)=true := takeWhile_holds (p := (· != space)) h1
    have h3 : (c != 0)=true := takeWhile_holds (p := (· != 0)) hc
    exact ⟨by simpa using h2,by simpa using h3,hf c (List.takeWhile_subset _ h1)⟩
  rw [displayName_eq hr hn,List.mem_append] at hc
  rcases hc with hc | hc
  · obtain ⟨h1,h2,h3⟩ := hfield (fun x hx => List.mem_of_mem_take hx) hc
    exact ⟨h1,h2,.inr h3⟩
  · split at hc
    · cases hc
    · rcases List.mem_cons.mp hc with rfl | hc
      · exact ⟨by decide,by decide,.inl rfl⟩
      · obtain ⟨h1,h2,h3⟩ := hfield (fun x hx => List.mem_of_mem_drop hx) hc
        exact ⟨h1,h2,.inr h3⟩

theorem showable_iff {raw : Bytes} {n : Nat} (hr : raw.length=11) (hn : 13≤n) (hs : slash∉raw) :
    showable raw=true ↔
      filenameTo83 (fat83ToDisplayName raw n)=raw ∧ fat83ToDisplayName raw n≠[] := by
  have hlen8 : (raw.take 8).length=8 := by simp [hr]
  have hlen3 : (raw.drop 8).length=3 := by simp [hr]
  have hne8 : raw.take 8≠[] := fun h => by rw [h] at hlen8; cases hlen8
  have hne3 : raw.drop 8≠[] := fun h => by rw [h] at hlen3; cases hlen3
  have hbytes := displayName_bytes (n := n) hr hn
  have hslash : slash∉fat83ToDisplayName raw n := fun hm => by
    rcases (hbytes _ hm).2.2 with h | h
    · cases h
    · exact hs h
  have hdisp := displayName_eq (n := n) hr hn
  constructor
  · intro h
    simp only [showable,Bool.and_eq_true,bne_iff_ne,ne_eq] at h
    obtain ⟨⟨⟨hb,hx⟩,hhead⟩,hdot⟩ := h
    have hp : (raw.take 8).takeWhile (· != space)≠[] := fun h => hhead ((headD_space hne8).mpr h)
    rw [takeWhile_nonzero hb,takeWhile_nonzero hx] at hdisp
    have hsplit : pad83 8 ((raw.take 8).takeWhile (· != space))++
        pad83 3 ((raw.drop 8).takeWhile (· != space))=raw := by
      rw [pad83_field hb hlen8,pad83_field hx hlen3,List.take_append_drop]
    by_cases hq : (raw.drop 8).takeWhile (· != space)=[]
    · rw [if_pos hq,List.append_nil] at hdisp
      rw [if_pos (by rw [beq_iff_eq]; exact (headD_space hne3).mpr hq)] at hdot
      rw [hdisp] at hslash ⊢
      refine ⟨?_,hp⟩
      have hbase : dot∉(raw.take 8).drop 1 := by simpa using hdot
      have hno : dot∉((raw.take 8).takeWhile (· != space)).drop 1 :=
        fun hm => hbase (((List.takeWhile_prefix _).drop 1).subset hm)
      rw [filenameTo83_plain hslash hno,← hq]
      exact hsplit
    · rw [if_neg hq] at hdisp
      rw [if_neg (by rw [beq_iff_eq]; exact fun h => hq ((headD_space hne3).mp h))] at hdot
      rw [hdisp] at hslash ⊢
      refine ⟨?_,by simp⟩
      have hext : dot∉raw.drop 8 := by simpa using hdot
      have hno : dot∉(raw.drop 8).takeWhile (· != space) :=
        fun hm => hext (List.takeWhile_subset _ hm)
      rw [filenameTo83_dotted hslash hp hno]
      exact hsplit
  · rintro ⟨hback,hne⟩
    -- the two fields come from two parts of the display name
    obtain ⟨t,u,htu,ht,hu,hwhere⟩ : ∃t u,
        filenameTo83 (fat83ToDisplayName raw n)=pad83 8 t++pad83 3 u ∧
        (∀c∈t,c≠space ∧ c≠0) ∧ (∀c∈u,c≠space ∧ c≠0) ∧
        (extDot (fat83ToDisplayName raw n)=none ∧ t=fat83ToDisplayName raw n ∨
          ∃i,extDot (fat83ToDisplayName raw n)=some i ∧ t=(fat83ToDisplayName raw n).take i ∧
            u=(fat83ToDisplayName raw n).drop (i+1)) := by
      rcases filenameTo83_parts hslash with ⟨h1,h2⟩ | ⟨i,h1,h2⟩
      · exact ⟨_,[],h2,fun c hc => ⟨(hbytes c hc).1,(hbytes c hc).2.1⟩,fun c hc => (by cases hc),
          .inl ⟨h1,rfl⟩⟩
      · have hin {c : UInt8} (hc : c∈fat83ToDisplayName raw n) : c≠space ∧ c≠0 :=
          ⟨(hbytes c hc).1,(hbytes c hc).2.1⟩
        exact ⟨_,_,h2,fun c hc => hin (List.mem_of_mem_take hc),
          fun c hc => hin (List.mem_of_mem_drop hc),.inr ⟨i,h1,rfl,rfl⟩⟩
    rw [htu] at hback
    have hbase : raw.take 8=pad83 8 t := by rw [← hback,List.take_left' (pad83_length 8 t)]
    have hext : raw.drop 8=pad83 3 u := by rw [← hback,List.drop_left' (pad83_length 8 t)]
    obtain ⟨hb,hp⟩ := field_pad83 8 ht
    obtain ⟨hx,hq⟩ := field_pad83 3 hu
    rw [← hbase] at hb hp
    rw [← hext] at hx hq
    rw [takeWhile_nonzero hb,takeWhile_nonzero hx] at hdisp
    generalize hP : (raw.take 8).takeWhile (· != space)=p at *
    generalize hQ : (raw.drop 8).takeWhile (· != space)=q at *
    have hpt : p.length≤t.length := by
      rw [hp,List.length_map]
      exact List.length_take_le' 8 t
    have hqu : q.length≤u.length := by
      rw [hq,List.length_map]
      exact List.length_take_le' 3 u
    have hp0 : p≠[] := fun h0 => by
      have ht0 : t=[] := by
        rw [h0] at hp
        simpa using hp.symm
      rcases hwhere with ⟨-,h⟩ | ⟨i,hi,h,-⟩
      · exact hne (h.symm.trans ht0)
      · rw [ht0] at h
        have hlen := congrArg List.length h
        rw [List.length_take,List.length_nil] at hlen
        have hpos := List.length_pos_of_ne_nil hne
        have hi0 := (extDot_some hi).2
        omega
    have hhead : (raw.take 8).headD space≠space := fun h =>
      hp0 (hP.symm.trans ((headD_space hne8).mp h))
    simp only [showable,hb,hx,Bool.true_and,Bool.and_eq_true,bne_iff_ne,ne_eq,hhead,
      not_false_eq_true,true_and]
    by_cases hq0 : q=[]
    · rw [if_pos (by rw [beq_iff_eq,headD_space hne3,hQ]; exact hq0)]
      rw [if_pos hq0,List.append_nil] at hdisp
      have hno : dot∉p.drop 1 := by
        rcases hwhere with ⟨h,-⟩ | ⟨i,hi,h,-⟩
        · exact hdisp ▸ extDot_none h
        · have hlt := lastIndex_lt _ _ _ (extDot_some hi).1
          have hlen := congrArg List.length h
          rw [List.length_take,hdisp] at hlen
          rw [hdisp] at hlt
          omega
      have hbase' : dot∉(raw.take 8).drop 1 := fun hm => by
        have hm' := mem_field hb (by decide) hm
        rw [hP] at hm'
        exact hno hm'
      simpa using hbase'
    · rw [if_neg (by rw [beq_iff_eq,headD_space hne3,hQ]; exact hq0)]
      rw [if_neg hq0] at hdisp
      have hno : dot∉q := fun hm => by
        obtain ⟨j,hj⟩ : ∃j,lastIndex dot q=some j := by
          cases hj : lastIndex dot q with
          | none => exact absurd hm ((lastIndex_none dot q).mp hj)
          | some j => exact ⟨j,rfl⟩
        have hlast : lastIndex dot (dot::q)=some (j+1) := by simp [lastIndex,hj]
        have hidx := lastIndex_append dot p (dot::q) (j+1) hlast
        rw [← hdisp] at hidx
        rcases hwhere with ⟨h,-⟩ | ⟨i,hi,-,h⟩
        · have hnone := extDot_none h
          rw [hdisp,List.drop_append_of_le_length (List.length_pos_of_ne_nil hp0)] at hnone
          exact hnone (List.mem_append_right _ List.mem_cons_self)
        · rw [(extDot_some hi).1] at hidx
          have hlen := congrArg List.length h
          rw [List.length_drop,hdisp,List.length_append,List.length_cons] at hlen
          have hi' := Option.some.inj hidx
          have hpos := List.length_pos_of_ne_nil hq0
          omega
      have hext' : dot∉raw.drop 8 := fun hm => by
        have hm' := mem_field (k := 0) hx (by decide) hm
        rw [hQ] at hm'
        exact hno hm'
      simpa using hext'

end Names

section Listing

/-- The live entries of a directory that are no labels, up to its end. -/
def shown (l : List Slot) : List Slot :=
  (l.takeWhile fun t => !t.entry.isEnd).filter fun t => listed t.entry

def liveSlots (fs : Fat32Fs) (d : Nat) : List Slot := shown (dirSlots fs d)

/-- The directory's clusters follow one another without coming back. -/
def Chained (fs : Fat32Fs) (d : Nat) : Prop := (scanned fs (fs.totalClusters+1) d).Nodup

theorem shown_cons (t : Slot) (l : List Slot) :
    shown (t::l)=if t.entry.isEnd then [] else
      if listed t.entry then t::shown l else shown l := by
  unfold shown
  rw [List.takeWhile_cons]
  cases ht : t.entry.isEnd with
  | true => rfl
  | false =>
    rw [Bool.not_false,if_pos rfl,List.filter_cons]
    rfl

def readdirStep (target : Nat) (e : DirEntry) (a : Nat×Option DirEntry) :
    Bool×(Nat×Option DirEntry) :=
  if e.isEnd then (true,a)
  else if !listed e then (false,a)
  else if a.1=target then (true,(a.1,some e))
  else (false,(a.1+1,a.2))

theorem look_readdir (target : Nat) (l : List Slot) {k : Nat} (hk : k≤target) :
    (lookSlots (fun _ _ => readdirStep target) l (k,none)).2.2=
      (shown l)[target-k]?.map Slot.entry := by
  induction l generalizing k with
  | nil => rfl
  | cons t l ih =>
    rw [lookSlots,shown_cons]
    cases he : t.entry.isEnd with
    | true => simp [readdirStep,he]
    | false =>
      cases hl : listed t.entry with
      | false =>
        simp only [readdirStep,he,hl,Bool.false_eq_true,if_false,Bool.not_false,if_true]
        exact ih hk
      | true =>
        by_cases heq : k=target
        · simp [readdirStep,he,hl,heq]
        · simp only [readdirStep,he,hl,heq,Bool.false_eq_true,if_false,Bool.not_true,if_true]
          rw [ih (by omega),show target-k=(target-(k+1))+1 by omega,List.getElem?_cons_succ]

/-- The index-th call shows the index-th live entry. -/
theorem readdir_shows {fs : Fat32Fs} (m : Mounted fs) (d index nameMax : Nat) :
    (fat32Readdir fs d index nameMax).1=(liveSlots fs d)[index]?.map fun t =>
      (fat83ToDisplayName t.entry.name nameMax,t.entry) := by
  have h := scan_look (fun _ _ => readdirStep index) fs m d (0,none)
  have hk := look_readdir index (dirSlots fs d) (Nat.zero_le index)
  rw [Nat.sub_zero] at hk
  simp only [fat32Readdir]
  rw [show fat32ScanDir fs d (readdirCb index) (0,none)=
    fat32ScanDir fs d (looking fun _ _ => readdirStep index) (0,none) from rfl,h,hk,liveSlots,
    Option.map_map]
  rfl

def findStep (name83 : Bytes) (e : DirEntry) (found : Option DirEntry) : Bool×Option DirEntry :=
  if e.isEnd then (true,found)
  else if dirEntryIsSkippable e then (false,found)
  else if e.name=name83 then (true,some e)
  else (false,found)

theorem listed_eq (e : DirEntry) : listed e=!dirEntryIsSkippable e := by
  simp [listed,dirEntryIsSkippable]

theorem look_find (name83 : Bytes) (l : List Slot) :
    (lookSlots (fun _ _ => findStep name83) l none).2=
      ((shown l).find? fun t => t.entry.name=name83).map Slot.entry := by
  induction l with
  | nil => rfl
  | cons t l ih =>
    rw [lookSlots,shown_cons]
    cases he : t.entry.isEnd with
    | true => simp [findStep,he]
    | false =>
      cases hs : dirEntryIsSkippable t.entry with
      | true =>
        simp only [findStep,listed_eq,he,hs,Bool.false_eq_true,if_false,Bool.not_true,if_true]
        exact ih
      | false =>
        by_cases hn : t.entry.name=name83
        · simp [findStep,listed_eq,he,hs,hn]
        · simp only [findStep,listed_eq,he,hs,hn,Bool.false_eq_true,if_false,Bool.not_false,
            if_true]
          rw [List.find?_cons_of_neg (by simpa using hn)]
          exact ih

theorem findFile_scan {fs : Fat32Fs} (m : Mounted fs) (d : Nat) (name83 : Bytes) :
    (fat32ScanDir fs d (findFileCb name83) none).1=
      ((liveSlots fs d).find? fun t => t.entry.name=name83).map Slot.entry :=
  (scan_look (fun _ _ => findStep name83) fs m d none).trans (look_find name83 _)

theorem slotsOfSector_nodup (lba : Nat) (s : Sector) : (slotsOfSector lba s).Nodup := by
  refine List.Nodup.map_on (fun i _ j _ h => ?_) List.nodup_range'
  exact congrArg Slot.idx h

theorem mem_readSlots {dev : BlockDev} {x : List Nat} {t : Slot} (h : t∈readSlots dev x) :
    t.lba∈x := by
  induction x with
  | nil => cases h
  | cons lba x ih =>
    rw [readSlots] at h
    cases hr : dev.readBlocks lba with
    | none =>
      rw [hr] at h
      cases h
    | some s =>
      rw [hr] at h
      rcases List.mem_append.mp h with h | h
      · obtain ⟨i,-,rfl⟩ := List.mem_map.mp h
        exact List.mem_cons_self
      · exact List.mem_cons_of_mem _ (ih h)

theorem readSlots_entry {dev : BlockDev} {x : List Nat} {t : Slot} (h : t∈readSlots dev x) :
    ∃s i,t.entry=entryAt s i := by
  induction x with
  | nil => cases h
  | cons lba x ih =>
    rw [readSlots] at h
    cases hr : dev.readBlocks lba with
    | none =>
      rw [hr] at h
      cases h
    | some s =>
      rw [hr] at h
      rcases List.mem_append.mp h with h | h
      · obtain ⟨i,-,rfl⟩ := List.mem_map.mp h
        exact ⟨s,i,rfl⟩
      · exact ih h

theorem readSlots_nodup (dev : BlockDev) {x : List Nat} (h : x.Nodup) :
    (readSlots dev x).Nodup := by
  induction x with
  | nil => exact List.nodup_nil
  | cons lba x ih =>
    obtain ⟨hn,hx⟩ := List.nodup_cons.mp h
    rw [readSlots]
    cases hr : dev.readBlocks lba with
    | none => exact List.nodup_nil
    | some s =>
      refine List.nodup_append.mpr ⟨slotsOfSector_nodup lba s,ih hx,fun a ha b hb hab => ?_⟩
      obtain ⟨i,-,rfl⟩ := List.mem_map.mp ha
      rw [← hab] at hb
      exact hn (mem_readSlots hb)

theorem clusterLbas_nodup (l : Layout) (c : Nat) : (l.clusterLbas c).Nodup := by
  refine List.Nodup.map_on (fun i _ j _ h => ?_) List.nodup_range'
  simp only [Layout.dataLba] at h
  omega

theorem dataLba_cluster {l : Layout} {c d i j : Nat} (hc : l.HasCluster c) (hd : l.HasCluster d)
    (hi : i<l.bpb.secPerClus) (hj : j<l.bpb.secPerClus) (h : l.dataLba c i=l.dataLba d j) :
    c=d := by
  have hpos : 0<l.bpb.secPerClus := Nat.zero_lt_of_lt hi
  have heq : i+(c-2)*l.bpb.secPerClus=j+(d-2)*l.bpb.secPerClus := by
    unfold Layout.dataLba at h
    omega
  have hdiv := congrArg (· / l.bpb.secPerClus) heq
  simp only [Nat.add_mul_div_right _ _ hpos,Nat.div_eq_of_lt hi,Nat.div_eq_of_lt hj] at hdiv
  have h1 := hc.1
  have h2 := hd.1
  omega

theorem clusterLbas_disjoint {l : Layout} {c d : Nat} (hc : l.HasCluster c) (hd : l.HasCluster d)
    (hne : c≠d) : List.Disjoint (l.clusterLbas c) (l.clusterLbas d) := by
  intro lba h1 h2
  obtain ⟨i,hi,rfl⟩ := List.mem_map.mp h1
  obtain ⟨j,hj,he⟩ := List.mem_map.mp h2
  exact hne (dataLba_cluster hc hd (by simpa using hi) (by simpa using hj) he.symm)

theorem dirSlots_nodup {fs : Fat32Fs} {d : Nat} (hd : Chained fs d) : (dirSlots fs d).Nodup := by
  refine readSlots_nodup fs.dev ?_
  refine List.nodup_flatMap.mpr ⟨fun c _ => clusterLbas_nodup fs.toLayout c,?_⟩
  refine hd.imp_of_mem fun {a b} ha hb hne => ?_
  exact clusterLbas_disjoint (scanned_has fs _ d a ha) (scanned_has fs _ d b hb) hne

theorem liveSlots_nodup {fs : Fat32Fs} {d : Nat} (hd : Chained fs d) :
    (liveSlots fs d).Nodup :=
  ((dirSlots_nodup hd).sublist (List.takeWhile_sublist _)).filter _

theorem mem_liveSlots {fs : Fat32Fs} {d : Nat} {t : Slot} (h : t∈liveSlots fs d) :
    t.entry.name.length=11 ∧ t.entry.isEnd=false ∧ listed t.entry=true ∧ d≠0 := by
  obtain ⟨htake,hl⟩ := List.mem_filter.mp h
  have hmem : t∈dirSlots fs d := List.takeWhile_subset _ htake
  have hend : t.entry.isEnd=false := by simpa using takeWhile_holds htake
  refine ⟨?_,hend,hl,fun hd => ?_⟩
  · obtain ⟨s,i,he⟩ := readSlots_entry hmem
    rw [he]
    exact entryAt_name_length s i
  · have hno : ¬fs.HasCluster d := fun hc => by
      have := hc.1
      omega
    rw [dirSlots,scanned,if_neg hno] at hmem
    cases hmem

theorem listed_slash {e : DirEntry} (h : listed e=true) : slash∉e.name := by
  intro hm
  simp only [listed,Bool.and_eq_true,Bool.not_eq_true'] at h
  obtain ⟨⟨⟨-,hlong⟩,-⟩,hcorrupt⟩ := h
  rw [dirEntryIsCorrupt,hlong] at hcorrupt
  simp only [Bool.false_eq_true,if_false] at hcorrupt
  split_ifs at hcorrupt
  have hany := List.any_eq_false.mp hcorrupt slash hm
  exact hany (by decide)

theorem dropWhile_getLast {path : Bytes} (h : path.dropWhile (· == slash)≠[]) :
    (path.dropWhile (· == slash)).getLast?=path.getLast? := by
  have ht := List.takeWhile_append_dropWhile (p := (· == slash)) (l := path)
  conv => rhs; rw [← ht]
  rw [List.getLast?_append_of_ne_nil _ h]

theorem getParent_dropWhile (fs : Fat32Fs) (path : Bytes) :
    fat32GetParentCluster fs (path.dropWhile (· == slash))=fat32GetParentCluster fs path := by
  rw [fat32GetParentCluster,fat32GetParentCluster,pathComponents,pathComponents,dropWhile_twice]

theorem findFile_root {fs : Fat32Fs} {path : Bytes} (h : path.dropWhile (· == slash)=[]) :
    (fat32FindFile fs path).1=some (rootEntry fs) ∧ (fat32GetParentCluster fs path).1.2=[] := by
  refine ⟨by simp [fat32FindFile,h],?_⟩
  rw [fat32GetParentCluster,pathComponents,h]
  simp [trimSlashes,pathCopySize,parentLoop,copyInto]

theorem findFile_nameless {fs : Fat32Fs} {path : Bytes} (h : path.dropWhile (· == slash)≠[])
    (hp : (fat32GetParentCluster fs path).1.2=[]) : (fat32FindFile fs path).1=none := by
  rw [fat32FindFile]
  dsimp only
  rw [if_neg h,getParent_dropWhile,if_pos (.inr hp)]

theorem findFile_in {fs : Fat32Fs} (m : Mounted fs) {path name : Bytes} {d : Nat}
    (hp : (fat32GetParentCluster fs path).1=(d,name)) (hd : d≠0) (hne : name≠[])
    (hslash : path.getLast?≠some slash) :
    (fat32FindFile fs path).1=
      ((liveSlots fs d).find? fun t => t.entry.name=filenameTo83 name).map Slot.entry := by
  have hpath : path.dropWhile (· == slash)≠[] := fun h => by
    have hroot := (findFile_root h : _ ∧ (fat32GetParentCluster fs path).1.2=[]).2
    rw [hp] at hroot
    exact hne hroot
  have h1 : (fat32GetParentCluster fs path).1.1=d := by rw [hp]
  have h2 : (fat32GetParentCluster fs path).1.2=name := by rw [hp]
  have hk := getParent_keeps fs m path
  have hscan : (fat32ScanDir (fat32GetParentCluster fs path).2 d
      (findFileCb (filenameTo83 name)) none).1=
      ((liveSlots fs d).find? fun t => t.entry.name=filenameTo83 name).map Slot.entry :=
    (scan_look_stable (fun _ _ => findStep (filenameTo83 name)) m hk d none).trans
      (findFile_scan m d (filenameTo83 name))
  rw [fat32FindFile]
  dsimp only
  rw [if_neg hpath,getParent_dropWhile,h1,h2,if_neg (by simp [hd,hne]),← hscan]
  cases (fat32ScanDir (fat32GetParentCluster fs path).2 d (findFileCb (filenameTo83 name))
    none).1 with
  | none => rfl
  | some e =>
    dsimp only
    rw [if_neg fun h => hslash ((dropWhile_getLast hpath).symm.trans h.1)]

/-- A listing shows every live entry once, and the name it shows leads back to an entry of that
stored name exactly when the name is showable. -/
theorem listing_leads_back {fs : Fat32Fs} (m : Mounted fs) {d : Nat} (hd : Chained fs d) :
    (liveSlots fs d).Nodup ∧
    (∀index nameMax,(fat32Readdir fs d index nameMax).1=(liveSlots fs d)[index]?.map fun t =>
      (fat83ToDisplayName t.entry.name nameMax,t.entry)) ∧
    ∀t∈liveSlots fs d,∀nameMax path,13≤nameMax → path.getLast?≠some slash →
      (fat32GetParentCluster fs path).1=(d,fat83ToDisplayName t.entry.name nameMax) →
      ((∃e,(fat32FindFile fs path).1=some e ∧ e.name=t.entry.name) ↔
        showable t.entry.name=true) := by
  refine ⟨liveSlots_nodup hd,fun index nameMax => readdir_shows m d index nameMax,
    fun t ht nameMax path hn hslash hp => ?_⟩
  obtain ⟨hlen,hend,hl,hd0⟩ := mem_liveSlots ht
  rw [showable_iff hlen hn (listed_slash hl)]
  by_cases hne : fat83ToDisplayName t.entry.name nameMax=[]
  · refine ⟨?_,fun h => absurd hne h.2⟩
    rintro ⟨e,he,hname⟩
    have h2 : (fat32GetParentCluster fs path).1.2=[] := by rw [hp]; exact hne
    by_cases hpath : path.dropWhile (· == slash)=[]
    · rw [(findFile_root hpath).1] at he
      rw [← Option.some.inj he] at hname
      have hz : t.entry.isEnd=true := by
        rw [DirEntry.isEnd,DirEntry.head,← hname]
        rfl
      rw [hend] at hz
      cases hz
    · rw [findFile_nameless hpath h2] at he
      cases he
  · rw [findFile_in m hp hd0 hne hslash]
    constructor
    · rintro ⟨e,he,hname⟩
      refine ⟨?_,hne⟩
      obtain ⟨t',ht',rfl⟩ := Option.map_eq_some_iff.mp he
      have hfound := List.find?_some ht'
      exact (of_decide_eq_true hfound).symm.trans hname
    · rintro ⟨hback,-⟩
      obtain ⟨t',ht'⟩ := Option.isSome_iff_exists.mp
        (List.find?_isSome (p := fun x : Slot => decide (x.entry.name=
          filenameTo83 (fat83ToDisplayName t.entry.name nameMax))).mpr
            ⟨t,ht,decide_eq_true hback.symm⟩)
      have hfound := List.find?_some ht'
      exact ⟨t'.entry,by rw [ht']; rfl,(of_decide_eq_true hfound).trans hback⟩

/-- A small volume with one directory. -/
def volumeWithDir : Fat32Fs := (fat32Mkdir smallVolume (ofString "SUB")).2

theorem volumeWithDir_mounted : Mounted volumeWithDir := by
  have hv : volumeWithDir.totalClusters=30 ∧ volumeWithDir.bpb.secPerClus=1 ∧
      volumeWithDir.bpb.numFats=2 ∧ volumeWithDir.bpb.fatSz32=1 ∧
      volumeWithDir.fatStartSector=32 ∧ volumeWithDir.dataStartSector=34 ∧
      volumeWithDir.rootDirCluster=2 ∧ volumeWithDir.bytesPerCluster=512 ∧
      volumeWithDir.fsinfoLba=0 ∧ volumeWithDir.fatCache=none := by decide +kernel
  obtain ⟨h1,h2,h3,h4,h5,h6,h7,h8,h9,h10⟩ := hv
  refine ⟨⟨⟨by rw [h6,h5,h3,h4],by rw [h6,h1,h2]; decide⟩,by rw [h2]; decide,by rw [h3]; decide,
    by rw [h5]; decide,by rw [h4]; decide,fun c hc => ?_,by rw [h1]; decide,?_,by rw [h8,h2]⟩,
    by rw [h9,h5]; decide,fun w hw => by rw [h10] at hw; cases hw⟩
  · have hlt := hc.2
    rw [h1] at hlt
    rw [h4]
    omega
  · rw [h7,Layout.HasCluster,h1]
    decide

/-- The second name a directory lists, "..", leads back to the entry ".". -/
theorem dotdot_lost :
    ((fat32Readdir volumeWithDir 3 1 13).1.map fun r => (r.1,r.2.name))=
      some (ofString "..",dotdotName) ∧
    (fat32GetParentCluster volumeWithDir (ofString "SUB/..")).1=(3,ofString "..") ∧
    (fat32FindFile volumeWithDir (ofString "SUB/..")).1.map DirEntry.name=some dotName ∧
    dotName≠dotdotName := by decide +kernel

/-- The directory's own name leads back. -/
theorem listing_leads_back_dir : ∃e,
    (fat32FindFile volumeWithDir (ofString "SUB")).1=some e ∧ e.name=ofString "SUB        " := by
  obtain ⟨-,hshow,hback⟩ := listing_leads_back volumeWithDir_mounted (d := 2)
    (show List.Nodup _ by decide +kernel)
  have hread : ((fat32Readdir volumeWithDir 2 0 13).1.map fun r => r.2.name)=
      some (ofString "SUB        ") := by decide +kernel
  rw [hshow 0 13,Option.map_map] at hread
  obtain ⟨t,ht,hname⟩ := Option.map_eq_some_iff.mp hread
  have hname' : t.entry.name=ofString "SUB        " := hname
  have hpath : (fat32GetParentCluster volumeWithDir (ofString "SUB")).1=
      (2,fat83ToDisplayName (ofString "SUB        ") 13) := by decide +kernel
  rw [← hname'] at hpath ⊢
  refine (hback t (List.mem_of_getElem? ht) 13 (ofString "SUB") (le_refl 13) (by decide)
    hpath).mpr ?_
  rw [hname']
  decide

end Listing

end LugalOS.Fat32
