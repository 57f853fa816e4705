import LugalOS.P9.Steps
import LugalOS.Lib.Paging

namespace LugalOS.P9

open CString Paging

/-- What vfs_readdir tells of a directory, index by index up to the first one it refuses: names in
a buffer of P9_MAX_NAME_LEN, indices of 32 bits. -/
structure DirContent where
  entries : List (Bytes×VfsStat)
  named : ∀x∈entries,x.1.length < p9MaxNameLen
  indexed : entries.length < 2^32

/-- The entry of a directory at path as it goes on the wire; none for "." and "..". -/
def wireEntry (path : Bytes) (x : Bytes×VfsStat) : Option Bytes :=
  if x.1=ofString "." ∨ x.1=dotdot then none
  else
    p9PackStat 96 x.1 x.2.size.toUInt64 x.2.isDir
      {type := if x.2.isDir then p9QtDir else p9QtFile,
        path := p9PathHash (p9PathJoin pathSize path x.1)}

/-- The packed entries of a directory. -/
def DirContent.packed (d : DirContent) (path : Bytes) : List Bytes :=
  d.entries.filterMap (wireEntry path)

theorem wcurQid_length (q : P9Qid) : (wcurQid q).length=13 := rfl

theorem p9PackStat_eq (outMax : ℕ) (name : Bytes) (length : UInt64) (isDir : Bool) (q : P9Qid)
    (h : 49+name.length≤outMax) :
    ∃b,p9PackStat outMax name length isDir q=some b ∧ b.length=49+name.length := by
  unfold p9PackStat
  dsimp only
  rw [if_pos]
  · refine ⟨_,rfl,?_⟩
    simp only [List.length_append,wcurQid_length,wcurStr,le16,le32,le64,List.length_cons,
      List.length_nil]
    omega
  · simp only [List.length_append,wcurQid_length,wcurStr,le16,le32,le64,List.length_cons,
      List.length_nil]
    omega

theorem p9PackStat_bounds {outMax : ℕ} {name : Bytes} {length : UInt64} {isDir : Bool} {q : P9Qid}
    {b : Bytes} (h : p9PackStat outMax name length isDir q=some b) :
    0 < b.length ∧ b.length≤outMax := by
  unfold p9PackStat at h
  rcases (Option.ite_none_right_eq_some.mp h) with ⟨hfit,hb⟩
  cases hb
  refine ⟨?_,hfit⟩
  rw [List.length_append]
  exact Nat.add_pos_left Nat.two_pos _

theorem wireEntry_some {path : Bytes} {x : Bytes×VfsStat} (hn : x.1.length < p9MaxNameLen)
    (hdot : ¬(x.1=ofString "." ∨ x.1=dotdot)) : ∃b,wireEntry path x=some b := by
  have hlen : p9MaxNameLen=32 := rfl
  obtain ⟨b,hb,-⟩ := p9PackStat_eq 96 x.1 x.2.size.toUInt64 x.2.isDir
    {type := if x.2.isDir then p9QtDir else p9QtFile,
      path := p9PathHash (p9PathJoin pathSize path x.1)} (by omega)
  exact ⟨b,by rw [wireEntry,if_neg hdot,hb]⟩

theorem wireEntry_length {path : Bytes} {x : Bytes×VfsStat} {b : Bytes}
    (h : wireEntry path x=some b) : 0 < b.length ∧ b.length≤96 := by
  rw [wireEntry] at h
  exact p9PackStat_bounds (Option.ite_none_left_eq_some.mp h).2

/-- The packing loop: it passes k entries and appends what they encode to; it stops at the end, or
before an entry that does not fit. -/
theorem readDirLoop_spec (path : Bytes) (cap : ℕ) (l : List (Bytes×VfsStat))
    (hl : ∀x∈l,x.1.length < p9MaxNameLen) (index : UInt32) (out : Bytes) (hout : out.length≤cap) :
    ∃k part,readDirLoop path cap l index out=(index+UInt32.ofNat k,out++List.flatten part) ∧
      k≤l.length ∧ part=(l.take k).filterMap (wireEntry path) ∧
      out.length+part.flatten.length≤cap ∧
      ∀x,l[k]?=some x →
        ∃b,wireEntry path x=some b ∧ cap < out.length+part.flatten.length+b.length := by
  induction l generalizing index out with
  | nil => exact ⟨0,[],by simp [readDirLoop],le_rfl,rfl,by simpa using hout,by simp⟩
  | cons x rest ih =>
    obtain ⟨name,st⟩ := x
    have hrest := fun y hy => hl y (List.mem_cons_of_mem _ hy)
    have hstep : ∀k : ℕ,index+1+UInt32.ofNat k=index+UInt32.ofNat (k+1) := by
      intro k
      rw [UInt32.ofNat_add,UInt32.add_assoc,UInt32.add_comm 1]
      rfl
    rw [readDirLoop]
    by_cases hdot : name=ofString "." ∨ name=dotdot
    · rw [if_pos hdot]
      obtain ⟨k,part,heq,hle,hpart,hfits,hfull⟩ := ih hrest (index+1) out hout
      have hnone : wireEntry path (name,st)=none := if_pos hdot
      refine ⟨k+1,part,by rw [heq,hstep],by simpa using hle,?_,hfits,by simpa using hfull⟩
      rw [List.take_succ_cons,List.filterMap_cons_none hnone,hpart]
    · rw [if_neg hdot]
      obtain ⟨b,hb⟩ : ∃b,wireEntry path (name,st)=some b :=
        wireEntry_some (hl _ List.mem_cons_self) hdot
      have hpack := hb
      rw [wireEntry,if_neg hdot] at hpack
      dsimp only at hpack ⊢
      rw [hpack]
      dsimp only
      by_cases hcap : cap < out.length+b.length
      · rw [if_pos hcap]
        refine ⟨0,[],by simp,Nat.zero_le _,rfl,by simpa using hout,fun x hx => ?_⟩
        obtain rfl : (name,st)=x := by simpa using hx
        exact ⟨b,hb,by simpa using hcap⟩
      · rw [if_neg hcap]
        obtain ⟨k,part,heq,hle,hpart,hfits,hfull⟩ := ih hrest (index+1) (out++b)
          (by rw [List.length_append]; omega)
        rw [List.length_append] at hfits hfull
        refine ⟨k+1,b::part,?_,by simpa using hle,?_,?_,?_⟩
        · rw [heq,hstep,List.flatten_cons,List.append_assoc]
        · rw [List.take_succ_cons,List.filterMap_cons_some hb,hpart]
        · rw [List.flatten_cons,List.length_append]
          omega
        · intro y hy
          obtain ⟨c,hc,hlt⟩ := hfull y (by simpa using hy)
          refine ⟨c,hc,?_⟩
          rw [List.flatten_cons,List.length_append]
          omega

/-- Whenever the directory at path is opened, it reads as d. -/
def World.Shows (w : World) (path : Bytes) (d : DirContent) : Prop :=
  ∀calls,0≤w.vfsOpen calls path {read := true} ∧
    w.vfsDir (.open path {read := true}::calls) (w.vfsOpen calls path {read := true})=d.entries

/-- The fid names an open directory at path, the next entry of which is the one at pos. -/
structure DirFid (s : Server) (conn : ℕ) (fid : UInt32) (path : Bytes) (pos : ℕ) : Prop where
  slot : ∃i,s.fidFind conn fid=some i ∧ (s.fids i).path=path ∧ (s.fids i).isDir=true ∧
    (s.fids i).isOpen=true ∧ (s.fids i).isAuth=false ∧ (s.fids i).dirReadIndex.toNat=pos

/-- A Tread as it reaches its handler. -/
structure Tread where
  w : World
  c : ReqCtx
  req : P9Msg
  databufMax : ℕ

def Tread.serve (t : Tread) (s : Server) : P9Msg×Server :=
  p9HandleTread t.w t.c s t.req {type := .unknown 0,tag := t.req.tag} t.databufMax

/-- The replies to Treads, one behind the other. -/
def serveTreads : Server → List Tread → List P9Msg
  | _,[] => []
  | s,t::ts => (t.serve s).1::serveTreads (t.serve s).2 ts

/-- A Tread of the directory at path: it asks for at least the biggest entry, and the reply buffer
has room for one. -/
structure Tread.Reads (t : Tread) (conn : ℕ) (fid : UInt32) (path : Bytes) (d : DirContent) :
    Prop where
  conn_eq : t.c.conn=conn
  fid_eq : t.req.fid=fid
  shows : t.w.Shows path d
  count_le : ∀b∈d.packed path,b.length≤t.req.count.toNat
  room : 96≤t.databufMax

theorem fidFind_setCursor (s : Server) (conn : ℕ) (fid : UInt32) (i : Slot) (index : UInt32) :
    (s.setFid i {s.fids i with dirReadIndex := index}).fidFind conn fid=s.fidFind conn fid := by
  unfold Server.fidFind Server.find
  congr 1
  funext j
  by_cases hj : j=i
  · subst hj
    simp
  · simp [hj]

/-- A Tread of an open directory: the reply is a page of the entries from the cursor on, or from
the start at offset 0, and the cursor moves behind it. -/
theorem Tread.serve_spec {t : Tread} {conn : ℕ} {fid : UInt32} {path : Bytes} {d : DirContent}
    {s : Server} {pos : ℕ} (ht : t.Reads conn fid path d) (hs : DirFid s conn fid path pos) :
    ∃k part,
      Fills (wireEntry path) (min t.req.count.toNat t.databufMax)
        (d.entries.drop (if t.req.offset=0 then 0 else pos)) k part ∧
      (t.serve s).1.type=.rread ∧ (t.serve s).1.data=part.flatten ∧
      (t.serve s).1.count.toNat=part.flatten.length ∧
      DirFid (t.serve s).2 conn fid path ((if t.req.offset=0 then 0 else pos)+k) := by
  obtain ⟨i,hfind,rfl,hdir,hopen,hauth,hpos⟩ := hs.slot
  have hcap : (min t.req.count.toNat t.databufMax) < 2^32 :=
    lt_of_le_of_lt (Nat.min_le_left _ _) t.req.count.toNat_lt
  generalize hindex : (if t.req.offset=0 then 0 else (s.fids i).dirReadIndex)=index
  have hat : index.toNat=if t.req.offset=0 then 0 else pos := by
    rw [← hindex]
    split_ifs
    · rfl
    · exact hpos
  obtain ⟨k,part,hloop,hle,hpart,hfits,hfull⟩ := readDirLoop_spec (s.fids i).path
    (min t.req.count.toNat t.databufMax) (d.entries.drop index.toNat)
    (fun x hx => d.named x (List.mem_of_mem_drop hx)) index [] (Nat.zero_le _)
  rw [List.length_nil,Nat.zero_add] at hfits hfull
  obtain ⟨hfd,hentries⟩ := ht.shows s.calls
  have hserve : ∃s1 : Server,s1.fids=s.fids ∧
      (t.serve s).1.type=.rread ∧ (t.serve s).1.data=part.flatten ∧
      (t.serve s).1.count=part.flatten.length.toUInt32 ∧
      (t.serve s).2=s1.setFid i {s.fids i with dirReadIndex := index+UInt32.ofNat k} := by
    unfold Tread.serve p9HandleTread
    rw [ht.conn_eq,ht.fid_eq,hfind]
    dsimp only
    rw [if_neg (by simp [hauth]),if_neg (by simp [hopen]),if_pos hdir]
    unfold p9ReadDirStream
    dsimp only
    rw [hindex,if_neg (not_lt.mpr hfd)]
    simp only [call_calls,hentries,hloop,List.nil_append]
    refine ⟨_,?_,trivial,trivial,trivial,rfl⟩
    rfl
  obtain ⟨s1,hs1,htype,hdata,hcount,hs2⟩ := hserve
  rw [← hat]
  refine ⟨k,part,⟨hle,hpart,hfits,hfull⟩,htype,hdata,?_,⟨i,?_⟩⟩
  · rw [hcount,Nat.toUInt32,UInt32.toNat_ofNat',Nat.mod_eq_of_lt (by omega)]
  · have hfound : (t.serve s).2.fidFind conn fid=some i := by
      rw [hs2,← hs1,fidFind_setCursor,← hfind]
      unfold Server.fidFind Server.find
      rw [hs1]
    have hentry : (t.serve s).2.fids i={s.fids i with dirReadIndex := index+UInt32.ofNat k} := by
      rw [hs2,setFid_fids,Function.update_self]
    rw [hentry]
    refine ⟨hfound,rfl,hdir,hopen,hauth,?_⟩
    have hlen := d.indexed
    have hlt := index.toNat_lt
    rw [List.length_drop] at hle
    rw [UInt32.toNat_add,UInt32.toNat_ofNat',Nat.mod_eq_of_lt (show k < 2^32 by omega)]
    exact Nat.mod_eq_of_lt (by omega)

/-- The room of a Tread: its count, within the reply buffer. -/
def Tread.cap (t : Tread) : ℕ := min t.req.count.toNat t.databufMax

section

variable {d : DirContent} {conn : ℕ} {fid : UInt32} {path : Bytes}

theorem serveTreads_pages {ts : List Tread} (hts : ∀t∈ts,t.Reads conn fid path d)
    (hgo : ∀t∈ts,t.req.offset≠0) {s : Server} {pos : ℕ} (hs : DirFid s conn fid path pos) :
    ∃ps,Pages (wireEntry path) d.entries pos ps ∧ ps.map Prod.fst=ts.map Tread.cap ∧
      (serveTreads s ts).map P9Msg.data=ps.map (fun p => p.2.flatten) ∧
      ∀r∈serveTreads s ts,r.type=.rread ∧ r.count.toNat=r.data.length := by
  induction ts generalizing s pos with
  | nil => exact ⟨[],.nil pos,rfl,rfl,by simp [serveTreads]⟩
  | cons t ts ih =>
    obtain ⟨k,part,hfill,htype,hdata,hcount,hnext⟩ := t.serve_spec (hts t List.mem_cons_self) hs
    rw [if_neg (hgo t List.mem_cons_self)] at hfill hnext
    obtain ⟨ps,hpages,hcaps,hmap,hall⟩ := ih (fun u hu => hts u (List.mem_cons_of_mem _ hu))
      (fun u hu => hgo u (List.mem_cons_of_mem _ hu)) hnext
    refine ⟨(t.cap,part)::ps,.cons hfill hpages,by simp [hcaps],by simp [serveTreads,hdata,hmap],?_⟩
    intro r hr
    rcases List.mem_cons.mp hr with rfl | hr
    · exact ⟨htype,by rw [hcount,hdata]⟩
    · exact hall r hr

theorem listing_pages {t : Tread} {ts : List Tread} (hts : ∀u∈t::ts,u.Reads conn fid path d)
    (hfirst : t.req.offset=0) (hgo : ∀u∈ts,u.req.offset≠0) {s : Server} {pos : ℕ}
    (hs : DirFid s conn fid path pos) :
    ∃ps,Pages (wireEntry path) d.entries 0 ps ∧ ps.map Prod.fst=(t::ts).map Tread.cap ∧
      (serveTreads s (t::ts)).map P9Msg.data=ps.map (fun p => p.2.flatten) ∧
      ∀r∈serveTreads s (t::ts),r.type=.rread ∧ r.count.toNat=r.data.length := by
  obtain ⟨k,part,hfill,htype,hdata,hcount,hnext⟩ := t.serve_spec (hts t List.mem_cons_self) hs
  rw [if_pos hfirst] at hfill hnext
  obtain ⟨ps,hpages,hcaps,hmap,hall⟩ :=
    serveTreads_pages (fun u hu => hts u (List.mem_cons_of_mem _ hu)) hgo hnext
  refine ⟨(t.cap,part)::ps,.cons hfill hpages,by simp [hcaps],by simp [serveTreads,hdata,hmap],?_⟩
  intro r hr
  rcases List.mem_cons.mp hr with rfl | hr
  · exact ⟨htype,by rw [hcount,hdata]⟩
  · exact hall r hr

end

theorem pages_part_nil {path : Bytes} {items : List (Bytes×VfsStat)} {pos : ℕ}
    {ps : List (ℕ×List Bytes)} (h : Pages (wireEntry path) items pos ps) {p : ℕ×List Bytes}
    (hp : p∈ps) (hnil : p.2.flatten=[]) : p.2=[] := by
  rw [List.eq_nil_iff_forall_not_mem]
  intro b hb
  have hbytes := List.flatten_eq_nil_iff.mp hnil b hb
  obtain ⟨x,-,hx⟩ := List.mem_filterMap.mp (h.mem p hp b hb)
  have hpos := (wireEntry_length hx).1
  rw [hbytes] at hpos
  exact absurd hpos (Nat.lt_irrefl 0)

/-- A listing, by Treads of which the first is at offset 0 and the others go on: every reply is
whole packed entries and no longer than its count; the replies before an empty one are the packed
entries of the directory, each once and in order; and a listing longer than the directory has an
empty reply. -/
theorem dirStream_exact {d : DirContent} {conn : ℕ} {fid : UInt32} {path : Bytes} {s : Server}
    {pos : ℕ} (hs : DirFid s conn fid path pos) {t : Tread} {ts : List Tread}
    (hts : ∀u∈t::ts,u.Reads conn fid path d) (hfirst : t.req.offset=0)
    (hgo : ∀u∈ts,u.req.offset≠0) :
    ∃parts : List (List Bytes),
      (serveTreads s (t::ts)).map P9Msg.data=parts.map List.flatten ∧
      (∀part∈parts,∀b∈part,b∈d.packed path) ∧
      (∀r∈serveTreads s (t::ts),r.type=.rread ∧ r.count.toNat=r.data.length) ∧
      (∀(j : ℕ) (u : Tread) (r : P9Msg),(t::ts)[j]?=some u → (serveTreads s (t::ts))[j]?=some r →
        r.data.length≤u.req.count.toNat) ∧
      (∀(j : ℕ) (r : P9Msg),(serveTreads s (t::ts))[j]?=some r → r.data=[] →
        (parts.take j).flatten=d.packed path) ∧
      (d.entries.length < (t::ts).length → ∃r∈serveTreads s (t::ts),r.data=[]) := by
  obtain ⟨ps,hpages,hcaps,hmap,hall⟩ := listing_pages hts hfirst hgo hs
  have hroom : ∀p∈ps,∀x∈d.entries,∀b,wireEntry path x=some b → b.length≤p.1 := by
    intro p hp x hx b hb
    have hcap : p.1∈(t::ts).map Tread.cap := hcaps ▸ List.mem_map_of_mem hp
    obtain ⟨u,hu,hpu⟩ := List.mem_map.mp hcap
    have hcount := (hts u hu).count_le b (List.mem_filterMap.mpr ⟨x,hx,hb⟩)
    have hroom := (hts u hu).room
    have hlen := (wireEntry_length hb).2
    rw [← hpu,Tread.cap]
    omega
  have hat : ∀(j : ℕ) (r : P9Msg),(serveTreads s (t::ts))[j]?=some r →
      ∃p,ps[j]?=some p ∧ r.data=p.2.flatten := by
    intro j r hr
    have hdata : (ps.map fun p => p.2.flatten)[j]?=some r.data := by
      rw [← hmap,List.getElem?_map,hr]
      rfl
    rw [List.getElem?_map,Option.map_eq_some_iff] at hdata
    obtain ⟨p,hp,heq⟩ := hdata
    exact ⟨p,hp,heq.symm⟩
  refine ⟨ps.map Prod.snd,by rw [hmap,List.map_map]; rfl,?_,hall,?_,?_,?_⟩
  · intro part hpart b hb
    obtain ⟨p,hp,rfl⟩ := List.mem_map.mp hpart
    exact hpages.mem p hp b hb
  · intro j u r hu hr
    obtain ⟨p,hp,heq⟩ := hat j r hr
    have hcap : p.1=u.cap := by
      have hcapj : (ps.map Prod.fst)[j]?=some u.cap := by rw [hcaps,List.getElem?_map,hu]; rfl
      rw [List.getElem?_map,hp] at hcapj
      exact Option.some.inj hcapj
    have hfits := hpages.fits p (List.mem_of_getElem? hp)
    rw [heq]
    exact (hfits.trans_eq hcap).trans (Nat.min_le_left _ _)
  · intro j r hr hnil
    obtain ⟨⟨cap,part⟩,hp,heq⟩ := hat j r hr
    have hpart : part=[] := pages_part_nil hpages (List.mem_of_getElem? hp) (heq ▸ hnil)
    rw [hpart] at hp
    rw [← List.map_take]
    exact hpages.exact hroom hp
  · intro hlong
    by_contra hno
    have hbound := hpages.bounded fun p hp hnil => by
      obtain ⟨j,hj⟩ := List.mem_iff_getElem?.mp hp
      have hdata : ((serveTreads s (t::ts)).map P9Msg.data)[j]?=some [] := by
        rw [hmap,List.getElem?_map,hj,Option.map_some,hnil]
        rfl
      rw [List.getElem?_map,Option.map_eq_some_iff] at hdata
      obtain ⟨r,hr,hr0⟩ := hdata
      exact hno ⟨r,List.mem_of_getElem? hr,hr0⟩
    have hlen : ps.length=(t::ts).length := by
      rw [← List.length_map Prod.fst,hcaps,List.length_map]
    omega

/-- A directory with an entry for itself and two files, open at fid 5. -/
def homeContent : DirContent :=
  {entries := [(ofString ".",⟨0,true⟩),(ofString "notes",⟨3,false⟩),(ofString "todo",⟨9,false⟩)]
   named := by decide
   indexed := by decide}

def homeServer : Server :=
  {fids := fun i => if i.val=0 then
    {inUse := true, conn := 1, fidValue := 5, path := ofString "/home", isDir := true,
      isOpen := true, dirReadIndex := 2} else {}}

/-- A Tread of the directory with room for one entry. -/
def homeTread (offset : UInt64) : Tread :=
  {w := {vfsOpen := fun _ _ _ => 3, vfsDir := fun _ _ => homeContent.entries}
   c := {conn := 1, policy := .notRequired}
   req := {type := .tread, fid := 5, offset := offset, count := 60}
   databufMax := 4085}

theorem homeTread_reads (offset : UInt64) :
    (homeTread offset).Reads 1 5 (ofString "/home") homeContent :=
  ⟨rfl,rfl,fun _ => ⟨show (0 : Int)≤3 by decide,rfl⟩,
    show ∀b∈homeContent.packed (ofString "/home"),b.length≤60 by decide +kernel,
    show 96≤4085 by decide⟩

theorem homeServer_dirFid : DirFid homeServer 1 5 (ofString "/home") 2 :=
  ⟨⟨⟨0,by decide⟩,by decide +kernel⟩⟩

theorem dirStream_exact_home :
    ∃parts : List (List Bytes),
      (serveTreads homeServer [homeTread 0,homeTread 54,homeTread 107]).map P9Msg.data=
        parts.map List.flatten ∧
      (parts.take 2).flatten=homeContent.packed (ofString "/home") := by
  have hreads : ∀u∈[homeTread 0,homeTread 54,homeTread 107],
      u.Reads 1 5 (ofString "/home") homeContent := by
    intro u hu
    simp only [List.mem_cons,List.not_mem_nil,or_false] at hu
    rcases hu with rfl | rfl | rfl <;> exact homeTread_reads _
  have hgo : ∀u∈[homeTread 54,homeTread 107],u.req.offset≠0 := by
    intro u hu
    simp only [List.mem_cons,List.not_mem_nil,or_false] at hu
    rcases hu with rfl | rfl <;> decide
  obtain ⟨parts,hdata,-,-,-,hall,-⟩ := dirStream_exact homeServer_dirFid hreads rfl hgo
  exact ⟨parts,hdata,hall 2 _ rfl (by decide +kernel)⟩

end LugalOS.P9
