import LugalOS.P9.Roundtrip

namespace LugalOS.P9

open CString

/-- The part of a mount that a write reads. -/
structure RemoteMount where
  inUse : Bool
  nextTag : UInt16
  msize : UInt32

/-- The msize a mount keeps of what its peer's Rversion said. -/
def agreedMsize (maxMsize rversion : UInt32) : UInt32 :=
  if 0 < rversion ∧ rversion ≤ maxMsize then rversion else maxMsize

def p9RemoteNextTag (m : RemoteMount) : UInt16 × RemoteMount :=
  let next := m.nextTag+1
  (m.nextTag,{m with nextTag := if next=0 then 1 else next})

/-- How an exchange goes on the link: nothing is sent (another generation, a link that is down, no
waiter), the request is sent and no usable reply comes, or a reply is read. -/
inductive Outcome
  | unsent
  | lost
  | reply (resp : P9MsgT)

/-- One p9_remote_xchg: the request, the frame that went out and the reply. -/
structure Turn where
  req : P9MsgT
  frame : Option Bytes
  resp : Option P9MsgT

/-- p9_remote_xchg with the static buffers of maxMsize bytes. -/
def p9RemoteXchg (iounit maxMsize : UInt32) (o : Outcome) (req : P9MsgT) : Turn :=
  let (len,tx) := p9Serialize iounit req maxMsize
  if len < 7 then ⟨req,none,none⟩
  else
    match o with
    | .unsent => ⟨req,none,none⟩
    | .lost => ⟨req,some tx,none⟩
    | .reply resp => ⟨req,some tx,some resp⟩

/-- What stays the same in a call of remote_pwrite_locked. -/
structure PwriteCall where
  iounit : UInt32
  maxMsize : UInt32
  fid : UInt32
  buf : Bytes
  count : UInt32
  offset : UInt64
  outcomes : ℕ → Outcome

/-- The chunk: the agreed msize, or the buffer's size, less 64. -/
def PwriteCall.chunk (c : PwriteCall) (m : RemoteMount) : UInt32 :=
  (if 0 < m.msize ∧ m.msize < c.maxMsize then m.msize else c.maxMsize)-64

/-- The Twrite of a turn; its data are the n bytes at p+done. -/
def PwriteCall.twrite (c : PwriteCall) (tag : UInt16) (done n : UInt32) : P9MsgT :=
  {type := .twrite,tag,fid := c.fid,offset := c.offset+done.toUInt64,count := n,
    data := some ((c.buf.drop done.toNat).take n.toNat)}

/-- The loop of remote_pwrite_locked, with at most fuel turns (none: it has not ended by then), the
k-th of which has the k-th outcome. -/
def pwriteLoop (c : PwriteCall) (chunk : UInt32) :
    ℕ → ℕ → RemoteMount → UInt32 → Option (Int × List Turn)
  | 0,_,_,_ => none
  | fuel+1,k,m,done =>
    if done < c.count then
      let n := if c.count-done < chunk then c.count-done else chunk
      let (tag,m) := p9RemoteNextTag m
      let x := p9RemoteXchg c.iounit c.maxMsize (c.outcomes k) (c.twrite tag done n)
      let failed := if done≠0 then done.toInt32.toInt else -1
      match x.resp with
      | none => some (failed,[x])
      | some r =>
        if r.type≠.rwrite then some (failed,[x])
        else if n < r.count then some (-1,[x])
        else if r.count < n then some ((done+r.count).toInt32.toInt,[x])
        else (pwriteLoop c chunk fuel (k+1) m (done+r.count)).map fun y => (y.1,x::y.2)
    else some (done.toInt32.toInt,[])

/-- remote_pwrite_locked within fuel turns: what it returns and the exchanges it made. -/
def remotePwriteLocked (c : PwriteCall) (m : RemoteMount) (fuel : ℕ) : Option (Int × List Turn) :=
  if !m.inUse then some (-1,[]) else pwriteLoop c (c.chunk m) fuel 0 m 0

/-- The bytes with their places in the file. -/
def placed (o : UInt64) (bs : Bytes) : List (UInt64 × UInt8) :=
  bs.mapIdx fun i b => (o+UInt64.ofNat i,b)

/-- What the peer accepted of a turn's Twrite. -/
def Turn.taken (x : Turn) : List (UInt64 × UInt8) :=
  match x.resp with
  | some r =>
    if r.type=.rwrite then placed x.req.offset ((x.req.data.getD []).take r.count.toNat) else []
  | none => []

/-- The Twrites cover the buffer from done on, one range behind the other. -/
def Consecutive (c : PwriteCall) : ℕ → List Turn → Prop
  | _,[] => True
  | done,x::xs => (x.req.type=.twrite ∧ x.req.fid=c.fid ∧
      x.req.offset=c.offset+UInt64.ofNat done ∧ done+x.req.count.toNat≤c.count.toNat ∧
      x.req.data=some ((c.buf.drop done).take x.req.count.toNat)) ∧
    Consecutive c (done+x.req.count.toNat) xs

/-- What a write owes its caller and its peer. -/
structure Writes (c : PwriteCall) (m : RemoteMount) (r : Int × List Turn) : Prop where
  fits : ∀x∈r.2,∀f,x.frame=some f → f.length ≤ m.msize.toNat
  ordered : Consecutive c 0 r.2
  accepted : 0 ≤ r.1 → r.2.flatMap Turn.taken=placed c.offset (c.buf.take r.1.toNat)

theorem placed_append (o : UInt64) (a b : Bytes) :
    placed o (a++b)=placed o a++placed (o+UInt64.ofNat a.length) b := by
  unfold placed
  rw [List.mapIdx_append]
  congr 1
  refine List.mapIdx_eq_mapIdx_iff.mpr fun i hi => ?_
  rw [Nat.add_comm,UInt64.ofNat_add,UInt64.add_assoc]

theorem twrite_encoding_length (iounit : UInt32) {req : P9MsgT} (ht : req.type=.twrite)
    (hw : req.Whole) : (encoding iounit req).length=23+req.count.toNat := by
  have hpay := payloadBytes_length hw
  rw [encoding_length,bodyBytes,ht]
  simp only [List.length_append,hpay,le32,le64,List.length_cons,List.length_nil]
  omega

theorem xchg_twrite (iounit : UInt32) {maxMsize : UInt32} (hmax : maxMsize.toNat≤4096) (o : Outcome)
    {req : P9MsgT} (ht : req.type=.twrite) (hw : req.Whole) :
    p9RemoteXchg iounit maxMsize o req=
      if maxMsize.toNat < 23+req.count.toNat then ⟨req,none,none⟩
      else
        match o with
        | .unsent => ⟨req,none,none⟩
        | .lost => ⟨req,some (encoding iounit req),none⟩
        | .reply resp => ⟨req,some (encoding iounit req),some resp⟩ := by
  have hlen := twrite_encoding_length iounit ht hw
  obtain ⟨hover,hfits⟩ := p9Serialize_eq iounit hw maxMsize
  rw [hlen] at hover hfits
  unfold p9RemoteXchg
  by_cases hroom : maxMsize.toNat < 23+req.count.toNat
  · rw [if_pos hroom]
    rcases hs : p9Serialize iounit req maxMsize with ⟨len,tx⟩
    have hneg := hover hroom
    rw [hs] at hneg
    dsimp only at hneg ⊢
    rw [if_pos (by omega)]
  · rw [if_neg hroom,hfits (by omega)]
    have hbig : ¬(23+req.count.toNat).toUInt32.toInt32.toInt < 7 := by
      have hint : (23+req.count.toNat).toUInt32.toInt32.toInt=(23+req.count.toNat : ℕ) := by
        have hnat : (23+req.count.toNat).toUInt32.toNat=23+req.count.toNat := by
          rw [Nat.toUInt32,UInt32.toNat_ofNat',Nat.mod_eq_of_lt (by omega)]
        rw [Serial.toInt32_toInt,hnat,if_pos (by omega)]
      omega
    dsimp only
    rw [if_neg hbig]

namespace PwriteCall

variable {c : PwriteCall}

def piece (c : PwriteCall) (chunk done : UInt32) : UInt32 :=
  if c.count-done < chunk then c.count-done else chunk

theorem piece_toNat (chunk : UInt32) {done : UInt32} (hd : done.toNat≤c.count.toNat) :
    (c.piece chunk done).toNat=min (c.count.toNat-done.toNat) chunk.toNat := by
  have hsub : (c.count-done).toNat=c.count.toNat-done.toNat :=
    UInt32.toNat_sub_of_le _ _ (UInt32.le_iff_toNat_le.mpr hd)
  unfold piece
  split_ifs with h
  · rw [UInt32.lt_iff_toNat_lt,hsub] at h
    rw [hsub]
    omega
  · rw [UInt32.lt_iff_toNat_lt,hsub] at h
    omega

theorem piece_first (c : PwriteCall) (chunk : UInt32) :
    (c.piece chunk 0).toNat=min c.count.toNat chunk.toNat := by
  rw [piece_toNat chunk (Nat.zero_le _),show (0 : UInt32).toNat=0 from rfl,Nat.sub_zero]

theorem twrite_whole (c : PwriteCall) (tag : UInt16) {done n : UInt32}
    (h : done.toNat+n.toNat≤c.buf.length) : (c.twrite tag done n).Whole := by
  have hnone : (0 : UInt16).toNat≤p9MaxWalkElem := by decide
  refine ⟨by simp [twrite,handledTypes],hnone,hnone,?_⟩
  simp only [twrite,Option.getD_some,List.length_take,List.length_drop]
  omega

theorem xchg_spec (tag : UInt16) {done n : UInt32} (hmax : c.maxMsize.toNat≤4096)
    (hbuf : done.toNat+n.toNat≤c.buf.length) (o : Outcome) :
    (p9RemoteXchg c.iounit c.maxMsize o (c.twrite tag done n)).req=c.twrite tag done n ∧
    ∀f,(p9RemoteXchg c.iounit c.maxMsize o (c.twrite tag done n)).frame=some f →
      f.length=23+n.toNat := by
  have hw := c.twrite_whole tag hbuf
  have hlen : (encoding c.iounit (c.twrite tag done n)).length=23+n.toNat :=
    twrite_encoding_length c.iounit rfl hw
  rw [xchg_twrite c.iounit hmax o rfl hw]
  split_ifs
  · exact ⟨rfl,fun f hf => by cases hf⟩
  · cases o with
    | unsent => exact ⟨rfl,fun f hf => by cases hf⟩
    | lost | reply resp => exact ⟨rfl,fun f hf => by cases hf; exact hlen⟩

end PwriteCall

/-- What the loop owes from done on. -/
structure WritesFrom (c : PwriteCall) (limit done : ℕ) (r : Int × List Turn) : Prop where
  fits : ∀x∈r.2,∀f,x.frame=some f → f.length≤limit
  ordered : Consecutive c done r.2
  accepted : 0 ≤ r.1 → done ≤ r.1.toNat ∧ r.2.flatMap Turn.taken=
    placed (c.offset+UInt64.ofNat done) ((c.buf.drop done).take (r.1.toNat-done))

theorem WritesFrom.last {c : PwriteCall} {limit done : ℕ} {ret : Int} {x : Turn}
    (hf : ∀f,x.frame=some f → f.length≤limit) (hx : Consecutive c done [x])
    (ha : 0 ≤ ret → done ≤ ret.toNat ∧ x.taken=
      placed (c.offset+UInt64.ofNat done) ((c.buf.drop done).take (ret.toNat-done))) :
    WritesFrom c limit done (ret,[x]) := by
  refine ⟨?_,hx,?_⟩
  · intro y hy
    rw [List.mem_singleton.mp hy]
    exact hf
  · intro h
    simpa using ha h

theorem WritesFrom.cons {c : PwriteCall} {limit : ℕ} {done n : UInt32} {x : Turn}
    {r : P9MsgT} {y : Int × List Turn} (h : WritesFrom c limit (done+r.count).toNat y)
    (hf : ∀f,x.frame=some f → f.length≤limit)
    (hx : x.req.type=.twrite ∧ x.req.fid=c.fid ∧ x.req.offset=c.offset+UInt64.ofNat done.toNat ∧
      done.toNat+x.req.count.toNat≤c.count.toNat ∧
      x.req.data=some ((c.buf.drop done.toNat).take x.req.count.toNat))
    (hn : x.req.count=n) (htaken : x.taken=
      placed (c.offset+UInt64.ofNat done.toNat) ((c.buf.drop done.toNat).take r.count.toNat))
    (hall : r.count.toNat=n.toNat) (hsum : (done+r.count).toNat=done.toNat+r.count.toNat)
    (hbuf : done.toNat+n.toNat≤c.buf.length) : WritesFrom c limit done.toNat (y.1,x::y.2) := by
  refine ⟨?_,⟨hx,?_⟩,?_⟩
  · intro z hz
    rcases List.mem_cons.mp hz with rfl | hz
    · exact hf
    · exact h.fits z hz
  · rw [hn,← hall,← hsum]
    exact h.ordered
  · intro hret
    obtain ⟨hge,htail⟩ := h.accepted hret
    rw [hsum] at hge htail
    dsimp only at hret ⊢
    refine ⟨by omega,?_⟩
    have hcut : y.1.toNat-done.toNat=r.count.toNat+(y.1.toNat-(done.toNat+r.count.toNat)) := by
      omega
    have hlen : ((c.buf.drop done.toNat).take r.count.toNat).length=r.count.toNat := by
      rw [List.length_take,List.length_drop]
      omega
    rw [List.flatMap_cons,htaken,htail,hcut,List.take_add,placed_append,hlen,List.drop_drop,
      UInt64.add_assoc,← UInt64.ofNat_add]

theorem toInt_of_nonneg {x : UInt32} (h : 0≤x.toInt32.toInt) : x.toInt32.toInt.toNat=x.toNat := by
  rw [Serial.toInt32_toInt] at h ⊢
  have hlt := x.toNat_lt
  split_ifs at h ⊢ <;> omega

/-- A chunk that is not zero and whose frame fits the limit: the loop ends within as many turns as
there are bytes, and one more. -/
theorem pwriteLoop_spec {c : PwriteCall} {chunk : UInt32} {limit : ℕ}
    (hmax : c.maxMsize.toNat≤4096) (hbuf : c.count.toNat≤c.buf.length) (hpos : 0 < chunk.toNat)
    (hfit : ∀n,n≤chunk.toNat → n≤c.count.toNat → 23+n≤limit) (fuel k : ℕ) (m : RemoteMount)
    (done : UInt32) (hd : done.toNat≤c.count.toNat) (hfuel : c.count.toNat-done.toNat < fuel) :
    ∃r,pwriteLoop c chunk fuel k m done=some r ∧ WritesFrom c limit done.toNat r := by
  induction fuel generalizing k m done with
  | zero => omega
  | succ fuel ih =>
    rw [pwriteLoop]
    by_cases hmore : done < c.count
    · have hlt := UInt32.lt_iff_toNat_lt.mp hmore
      rw [if_pos hmore]
      dsimp only
      rw [show (if c.count-done < chunk then c.count-done else chunk)=c.piece chunk done from rfl]
      have hpiece := PwriteCall.piece_toNat chunk hd
      generalize c.piece chunk done=n at hpiece ⊢
      have hn : 0 < n.toNat ∧ done.toNat+n.toNat≤c.count.toNat ∧ n.toNat≤chunk.toNat := by omega
      obtain ⟨hreq,hframe⟩ := PwriteCall.xchg_spec (p9RemoteNextTag m).1 hmax
        (show done.toNat+n.toNat≤c.buf.length by omega) (c.outcomes k)
      generalize p9RemoteXchg c.iounit c.maxMsize (c.outcomes k)
        (c.twrite (p9RemoteNextTag m).1 done n)=x at hreq hframe ⊢
      have hfits : ∀f,x.frame=some f → f.length≤limit := by
        intro f hf
        rw [hframe f hf]
        exact hfit _ hn.2.2 (by omega)
      have hplace : c.offset+done.toUInt64=c.offset+UInt64.ofNat done.toNat :=
        congrArg (c.offset+·) (UInt64.toNat_inj.mp (by simp))
      have hturn : x.req.type=.twrite ∧ x.req.fid=c.fid ∧
          x.req.offset=c.offset+UInt64.ofNat done.toNat ∧
          done.toNat+x.req.count.toNat≤c.count.toNat ∧
          x.req.data=some ((c.buf.drop done.toNat).take x.req.count.toNat) := by
        rw [hreq]
        exact ⟨rfl,rfl,hplace,hn.2.1,rfl⟩
      have hfailed : ∀r : Option P9MsgT,x.resp=r → (∀y,r=some y → y.type≠.rwrite) →
          WritesFrom c limit done.toNat ((if done≠0 then done.toInt32.toInt else -1),[x]) := by
        intro r hr hno
        refine WritesFrom.last hfits ⟨hturn,trivial⟩ fun hret => ?_
        have htaken : x.taken=[] := by
          unfold Turn.taken
          rw [hr]
          cases r with
          | none => rfl
          | some y => exact if_neg (hno y rfl)
        split_ifs at hret ⊢ with hz
        · rw [toInt_of_nonneg hret,htaken,Nat.sub_self,List.take_zero]
          exact ⟨le_rfl,rfl⟩
        · omega
      cases hresp : x.resp with
      | none => exact ⟨_,rfl,hfailed none hresp (by simp)⟩
      | some r =>
        dsimp only
        by_cases htype : r.type=.rwrite
        · rw [if_neg (not_not.mpr htype)]
          have htaken : x.taken=placed (c.offset+UInt64.ofNat done.toNat)
              (((c.buf.drop done.toNat).take n.toNat).take r.count.toNat) := by
            unfold Turn.taken
            rw [hresp]
            dsimp only
            rw [if_pos htype,hreq]
            dsimp only [PwriteCall.twrite,Option.getD_some]
            rw [hplace]
          by_cases hexcess : n < r.count
          · rw [if_pos hexcess]
            exact ⟨_,rfl,WritesFrom.last hfits ⟨hturn,trivial⟩ fun hret => by omega⟩
          · rw [if_neg hexcess]
            have hle : r.count.toNat≤n.toNat := by
              have := mt UInt32.lt_iff_toNat_lt.mpr hexcess
              omega
            have hsum : (done+r.count).toNat=done.toNat+r.count.toNat := by
              have hlt32 := c.count.toNat_lt
              rw [UInt32.toNat_add,Nat.mod_eq_of_lt (by omega)]
            rw [List.take_take,Nat.min_eq_left hle] at htaken
            by_cases hshort : r.count < n
            · rw [if_pos hshort]
              refine ⟨_,rfl,WritesFrom.last hfits ⟨hturn,trivial⟩ fun hret => ?_⟩
              rw [toInt_of_nonneg hret,hsum,htaken,Nat.add_sub_cancel_left]
              exact ⟨Nat.le_add_right _ _,rfl⟩
            · rw [if_neg hshort]
              have heq : r.count.toNat=n.toNat := by
                have := mt UInt32.lt_iff_toNat_lt.mpr hshort
                omega
              obtain ⟨y,hy,hrest⟩ :=
                ih (k+1) (p9RemoteNextTag m).2 (done+r.count) (by omega) (by omega)
              rw [hy]
              exact ⟨_,rfl,hrest.cons hfits hturn (by rw [hreq]; rfl) htaken heq hsum (by omega)⟩
        · rw [if_pos htype]
          exact ⟨_,rfl,hfailed (some r) hresp (by simpa using htype)⟩
    · rw [if_neg hmore]
      refine ⟨_,rfl,by simp,trivial,fun hret => ?_⟩
      rw [toInt_of_nonneg hret,Nat.sub_self,List.take_zero]
      exact ⟨le_rfl,rfl⟩

theorem pwriteLoop_zero {c : PwriteCall} (hmax : c.maxMsize.toNat=2048 ∨ c.maxMsize.toNat=4096)
    (ho : ∀k,c.outcomes k=.reply {type := .rwrite,tag := 0}) (hmore : 0 < c.count) (fuel k : ℕ)
    (m : RemoteMount) : pwriteLoop c 0 fuel k m 0=none := by
  induction fuel generalizing k m with
  | zero => rfl
  | succ fuel ih =>
    rw [pwriteLoop,if_pos hmore]
    dsimp only
    rw [if_neg UInt32.not_lt_zero]
    have hw : (c.twrite (p9RemoteNextTag m).1 0 0).Whole := c.twrite_whole _ (Nat.zero_le _)
    rw [xchg_twrite c.iounit (by omega) _ rfl hw,ho k]
    have hroom : ¬c.maxMsize.toNat < 23+(c.twrite (p9RemoteNextTag m).1 0 0).count.toNat := by
      show ¬c.maxMsize.toNat < 23+0
      omega
    rw [if_neg hroom]
    dsimp only
    rw [if_neg (by decide),if_neg UInt32.not_lt_zero,if_neg UInt32.not_lt_zero]
    rw [show (0+0 : UInt32)=0 from rfl,ih]
    rfl

theorem pwriteLoop_first {c : PwriteCall} (chunk : UInt32) (fuel : ℕ) (m : RemoteMount)
    (hmore : 0 < c.count)
    (hnone : (p9RemoteXchg c.iounit c.maxMsize (c.outcomes 0)
      (c.twrite (p9RemoteNextTag m).1 0 (c.piece chunk 0))).resp=none) :
    pwriteLoop c chunk (fuel+1) 0 m 0=some (-1,[p9RemoteXchg c.iounit c.maxMsize (c.outcomes 0)
      (c.twrite (p9RemoteNextTag m).1 0 (c.piece chunk 0))]) := by
  rw [pwriteLoop,if_pos hmore]
  dsimp only
  unfold PwriteCall.piece at hnone ⊢
  rw [hnone]
  rfl

/-- The splitting keeps its promises whatever becomes of the exchanges: the loop ends, and what it
made is a write. -/
def PwriteCall.Kept (c : PwriteCall) (m : RemoteMount) : Prop :=
  ∀outcomes,∃fuel r,remotePwriteLocked {c with outcomes} m fuel=some r ∧
    Writes {c with outcomes} m r

theorem writes_of_from {c : PwriteCall} {m : RemoteMount} {r : Int × List Turn}
    (h : WritesFrom c m.msize.toNat 0 r) : Writes c m r := by
  refine ⟨h.fits,h.ordered,fun hret => ?_⟩
  have htaken := (h.accepted hret).2
  rwa [List.drop_zero,Nat.sub_zero,show c.offset+UInt64.ofNat 0=c.offset from UInt64.add_zero _]
    at htaken

theorem agreedMsize_bounds {maxMsize : UInt32} (hmax : 0 < maxMsize.toNat) (rversion : UInt32) :
    0 < (agreedMsize maxMsize rversion).toNat ∧
    (agreedMsize maxMsize rversion).toNat ≤ maxMsize.toNat := by
  unfold agreedMsize
  split_ifs with h
  · exact ⟨UInt32.lt_iff_toNat_lt.mp h.1,UInt32.le_iff_toNat_le.mp h.2⟩
  · exact ⟨hmax,le_rfl⟩

section

variable {c : PwriteCall} {m : RemoteMount}

theorem chunk_eq (hlow : 0 < m.msize.toNat) (hhigh : m.msize.toNat≤c.maxMsize.toNat) :
    c.chunk m=m.msize-64 := by
  unfold PwriteCall.chunk
  split_ifs with h
  · rfl
  · congr 1
    refine UInt32.toNat_inj.mp ?_
    have hor : ¬m.msize.toNat < c.maxMsize.toNat := fun hlt =>
      h ⟨UInt32.lt_iff_toNat_lt.mpr hlow,UInt32.lt_iff_toNat_lt.mpr hlt⟩
    omega

theorem chunk_toNat (hlow : 0 < m.msize.toNat) (hhigh : m.msize.toNat≤c.maxMsize.toNat) :
    (c.chunk m).toNat=if 64 ≤ m.msize.toNat then m.msize.toNat-64 else 2^32-64+m.msize.toNat := by
  rw [chunk_eq hlow hhigh,UInt32.toNat_sub]
  have hlt := m.msize.toNat_lt
  have h64 : (64 : UInt32).toNat=64 := rfl
  rw [h64]
  split_ifs <;> omega

theorem kept_of_unsent (hmax : c.maxMsize.toNat=2048 ∨ c.maxMsize.toNat=4096)
    (hbuf : c.count.toNat≤c.buf.length) (huse : m.inUse=true) (hmore : 0 < c.count)
    (hbig : c.maxMsize.toNat < 23+(c.piece (c.chunk m) 0).toNat) : c.Kept m := by
  intro outcomes
  have hpiece := c.piece_first (c.chunk m)
  have hzero : (0 : UInt32).toNat=0 := rfl
  have hw : (c.twrite (p9RemoteNextTag m).1 0 (c.piece (c.chunk m) 0)).Whole :=
    c.twrite_whole _ (by omega)
  have hx : p9RemoteXchg c.iounit c.maxMsize (outcomes 0)
      (c.twrite (p9RemoteNextTag m).1 0 (c.piece (c.chunk m) 0))=
      ⟨c.twrite (p9RemoteNextTag m).1 0 (c.piece (c.chunk m) 0),none,none⟩ := by
    rw [xchg_twrite c.iounit (by omega) _ rfl hw]
    exact if_pos hbig
  refine ⟨1,(-1,[p9RemoteXchg c.iounit c.maxMsize (outcomes 0)
    (c.twrite (p9RemoteNextTag m).1 0 (c.piece (c.chunk m) 0))]),?_,?_⟩
  · unfold remotePwriteLocked
    rw [huse]
    exact pwriteLoop_first (c := {c with outcomes}) (c.chunk m) 0 m hmore (by
      show (p9RemoteXchg c.iounit c.maxMsize (outcomes 0) _).resp=none
      exact congrArg Turn.resp hx)
  · rw [hx]
    refine ⟨?_,⟨⟨rfl,rfl,rfl,?_,?_⟩,trivial⟩,fun h => absurd h (by norm_num)⟩
    · intro y hy f hf
      rw [List.mem_singleton.mp hy] at hf
      cases hf
    · show 0+(c.piece (c.chunk m) 0).toNat≤c.count.toNat
      omega
    · rfl

theorem not_kept_of_oversized (hmax : c.maxMsize.toNat=2048 ∨ c.maxMsize.toNat=4096)
    (hbuf : c.count.toNat≤c.buf.length) (huse : m.inUse=true) (hmore : 0 < c.count)
    (hsent : 23+(c.piece (c.chunk m) 0).toNat≤c.maxMsize.toNat)
    (hbig : m.msize.toNat < 23+(c.piece (c.chunk m) 0).toNat) : ¬c.Kept m := by
  intro hkept
  obtain ⟨fuel,r,hrun,hwrites⟩ := hkept fun _ => .lost
  have hpiece := c.piece_first (c.chunk m)
  have hzero : (0 : UInt32).toNat=0 := rfl
  have hw : (c.twrite (p9RemoteNextTag m).1 0 (c.piece (c.chunk m) 0)).Whole :=
    c.twrite_whole _ (by omega)
  have hx : p9RemoteXchg c.iounit c.maxMsize .lost
      (c.twrite (p9RemoteNextTag m).1 0 (c.piece (c.chunk m) 0))=
      ⟨c.twrite (p9RemoteNextTag m).1 0 (c.piece (c.chunk m) 0),
        some (encoding c.iounit (c.twrite (p9RemoteNextTag m).1 0 (c.piece (c.chunk m) 0))),
        none⟩ := by
    rw [xchg_twrite c.iounit (by omega) _ rfl hw]
    exact if_neg (not_lt.mpr hsent)
  unfold remotePwriteLocked at hrun
  rw [huse] at hrun
  cases fuel with
  | zero => cases hrun
  | succ fuel =>
    have hfirst := pwriteLoop_first (c := {c with outcomes := fun _ => .lost}) (c.chunk m) fuel m
      hmore (by
        show (p9RemoteXchg c.iounit c.maxMsize .lost _).resp=none
        exact congrArg Turn.resp hx)
    have hret := hrun.symm.trans hfirst
    cases hret
    have hfits := hwrites.fits _ (List.mem_singleton_self _) _ (congrArg Turn.frame hx)
    rw [twrite_encoding_length c.iounit rfl hw] at hfits
    exact absurd hfits (not_le.mpr hbig)

theorem not_kept_of_stuck (hmax : c.maxMsize.toNat=2048 ∨ c.maxMsize.toNat=4096)
    (huse : m.inUse=true) (hmore : 0 < c.count) (hz : c.chunk m=0) : ¬c.Kept m := by
  intro hkept
  obtain ⟨fuel,r,hrun,-⟩ := hkept fun _ => .reply {type := .rwrite,tag := 0}
  unfold remotePwriteLocked at hrun
  rw [huse] at hrun
  have hloop : pwriteLoop {c with outcomes := fun _ => .reply {type := .rwrite,tag := 0}}
      (c.chunk m) fuel 0 m 0=some r := hrun
  rw [hz,pwriteLoop_zero (c := {c with outcomes := fun _ => .reply {type := .rwrite,tag := 0}})
    hmax (fun _ => rfl) hmore] at hloop
  cases hloop

end

/-- A write keeps its promises exactly when the agreed msize is above 64, or there is nothing to
write, or the msize is below 64 and all the bytes fit one frame of it or not even one of the
buffer's. -/
theorem pwrite_kept_iff (c : PwriteCall) (rversion : UInt32) (nextTag : UInt16)
    (hmax : c.maxMsize=2048 ∨ c.maxMsize=4096) (hbuf : c.count.toNat≤c.buf.length) :
    c.Kept ⟨true,nextTag,agreedMsize c.maxMsize rversion⟩ ↔
      64 < (agreedMsize c.maxMsize rversion).toNat ∨ c.count=0 ∨
      ((agreedMsize c.maxMsize rversion).toNat < 64 ∧
        (c.count.toNat+23≤(agreedMsize c.maxMsize rversion).toNat ∨
          c.maxMsize.toNat < c.count.toNat+23)) := by
  have hmaxN : c.maxMsize.toNat=2048 ∨ c.maxMsize.toNat=4096 := by
    rcases hmax with h | h
    · exact .inl (by rw [h]; rfl)
    · exact .inr (by rw [h]; rfl)
  obtain ⟨hlow,hhigh⟩ := agreedMsize_bounds (show 0 < c.maxMsize.toNat by omega) rversion
  generalize hm : agreedMsize c.maxMsize rversion=msize at hlow hhigh ⊢
  have hchunk := chunk_toNat (c := c) (m := ⟨true,nextTag,msize⟩) hlow hhigh
  have hpiece := c.piece_first (c.chunk ⟨true,nextTag,msize⟩)
  have hlt := c.count.toNat_lt
  dsimp only at hchunk
  -- the loop with a chunk whose frames fit the agreed msize
  have hloop : 0 < (c.chunk ⟨true,nextTag,msize⟩).toNat →
      (∀n,n≤(c.chunk ⟨true,nextTag,msize⟩).toNat → n≤c.count.toNat → 23+n ≤ msize.toNat) →
      c.Kept ⟨true,nextTag,msize⟩ := by
    intro hpos hfit outcomes
    obtain ⟨r,hr,hfrom⟩ := pwriteLoop_spec (c := {c with outcomes})
      (by show c.maxMsize.toNat≤4096; omega) hbuf hpos hfit (c.count.toNat+1) 0
      ⟨true,nextTag,msize⟩ 0 (Nat.zero_le _) (by show c.count.toNat-0 < c.count.toNat+1; omega)
    exact ⟨c.count.toNat+1,r,hr,writes_of_from hfrom⟩
  by_cases hcount : c.count=0
  · refine iff_of_true ?_ (.inr (.inl hcount))
    intro outcomes
    refine ⟨1,(0,[]),?_,by simp,trivial,fun _ => by simp [placed]⟩
    unfold remotePwriteLocked pwriteLoop
    dsimp only
    rw [hcount,if_neg UInt32.not_lt_zero]
    rfl
  · have hmore : 0 < c.count := UInt32.pos_iff_ne_zero.mpr hcount
    have hmoreN : 0 < c.count.toNat := UInt32.lt_iff_toNat_lt.mp hmore
    rcases Nat.lt_trichotomy msize.toNat 64 with hsmall | heq | hlarge
    · rw [if_neg (by omega)] at hchunk
      have hn : (c.piece (c.chunk ⟨true,nextTag,msize⟩) 0).toNat≤c.count.toNat := by omega
      by_cases hone : c.count.toNat+23 ≤ msize.toNat
      · exact iff_of_true (hloop (by omega) fun n _ hc => by omega) (.inr (.inr ⟨hsmall,.inl hone⟩))
      · by_cases hover : c.maxMsize.toNat < c.count.toNat+23
        · exact iff_of_true (kept_of_unsent hmaxN hbuf rfl hmore (by omega))
            (.inr (.inr ⟨hsmall,.inr hover⟩))
        · refine iff_of_false (not_kept_of_oversized hmaxN hbuf rfl hmore (by omega) ?_) ?_
          · show msize.toNat < _
            omega
          · rintro (h | h | ⟨-,h | h⟩)
            · omega
            · exact hcount h
            · exact hone h
            · exact hover h
    · rw [if_pos (by omega)] at hchunk
      have hz : c.chunk ⟨true,nextTag,msize⟩=0 := UInt32.toNat_inj.mp (by rw [hchunk,heq]; rfl)
      refine iff_of_false (not_kept_of_stuck hmaxN rfl hmore hz) ?_
      rintro (h | h | ⟨h,-⟩)
      · omega
      · exact hcount h
      · omega
    · rw [if_pos (by omega)] at hchunk
      exact iff_of_true (hloop (by omega) fun n hc _ => by omega) (.inl hlarge)

/-- One byte written to a peer that agreed to 64: the loop sends empty Twrites for ever. -/
theorem pwrite_stuck_at_64 :
    ¬PwriteCall.Kept ⟨0,4096,7,[0x61],1,0,fun _ => .lost⟩ ⟨true,1,agreedMsize 4096 64⟩ :=
  not_kept_of_stuck (.inr rfl) rfl (by decide) (by decide)

theorem pwrite_kept_iff_small :
    (PwriteCall.mk 0 2048 7 [0x61,0x62,0x63] 3 10 fun _ => .lost).Kept
      ⟨true,1,agreedMsize 2048 65⟩ :=
  (pwrite_kept_iff ⟨0,2048,7,[0x61,0x62,0x63],3,10,fun _ => .lost⟩ 65 1 (.inl rfl)
    (by decide)).mpr (.inl (by decide))

end LugalOS.P9
