import LugalOS.Klog.Ring

namespace LugalOS.Klog

open CString LittleEndian RingStream

variable {b : Build}

/-- A record as it was given: text, or a format's address with the captured arguments. -/
inductive Rec (b : Build) where
  | text (ms : UInt32) (t : Bytes) (onConsole : Bool)
  | tok (ms : UInt32) (fmt : Fin (256^b.ptrSize)) (blob : Bytes)

namespace Rec

def ms : Rec b → UInt32
  | .text ms _ _ => ms
  | .tok ms _ _ => ms

/-- What a reader gets behind the time stamp. -/
def body : Rec b → Bytes
  | .text _ t _ => t
  | .tok _ fmt blob => b.render fmt blob

def payload : Rec b → Bytes
  | .text _ t _ => t
  | .tok _ fmt blob => leBytes (b.render fmt blob).length 2++leBytes fmt.val b.ptrSize++blob

def onConsole : Rec b → Bool
  | .text _ _ c => c
  | .tok _ _ _ => false

def tokenised : Rec b → Bool
  | .text _ _ _ => false
  | .tok _ _ _ => true

def flags (r : Rec b) : Nat := storedLen r.payload.length r.onConsole r.tokenised

def stored (r : Rec b) : Bytes := leBytes r.ms.toNat 4++leBytes r.flags 2++r.payload

def rendered (r : Rec b) : Bytes := tsRender r.ms++r.body

/-- The record can be stored and rendered back. -/
structure Fits (r : Rec b) : Prop where
  body : r.body.length≤klogRecMax
  blob : ∀ms fmt blob,r=.tok ms fmt blob → blob.length≤klogBlobMax

theorem stored_length (r : Rec b) : r.stored.length=klogHdrLen+r.payload.length := by
  simp only [stored,List.length_append,leBytes_length,klogHdrLen]

theorem payload_length {r : Rec b} (h : r.Fits) : r.payload.length<512 := by
  cases r with
  | text ms t c => exact Nat.lt_of_le_of_lt h.body (by decide)
  | tok ms fmt blob =>
    have hb : blob.length≤64 := h.blob ms fmt blob rfl
    have hp : b.ptrSize=4 ∨ b.ptrSize=8 := b.hptr
    simp only [payload,List.length_append,leBytes_length]
    omega

end Rec

theorem storedLen_spec {len : Nat} (h : len<512) (c t : Bool) :
    storedLen len c t<65536 ∧ recLenOf (storedLen len c t)=len ∧
      recTokenised (storedLen len c t)=t := by
  have hall : ∀len<512,∀c t : Bool,storedLen len c t<65536 ∧ recLenOf (storedLen len c t)=len ∧
      recTokenised (storedLen len c t)=t := by decide +kernel
  exact hall len h c t

theorem add64_eq {a c : Nat} (h : a+c<2^64) : add64 a c=a+c := Nat.mod_eq_of_lt h

theorem sub64_eq {a c : Nat} (h : c≤a) (ha : a<2^64) : sub64 a c=a-c := by
  rw [sub64,show a+(2^64-c)=a-c+2^64 by omega,Nat.add_mod_right,Nat.mod_eq_of_lt (by omega)]

theorem ringStore_eq (ring : Nat → UInt8) {pos : Nat} {text : Bytes} (h : pos+text.length≤2^64) :
    ringStore b ring pos text=put ring b.ringSize pos text := by
  induction text generalizing ring pos with
  | nil => rfl
  | cons c text ih =>
    rw [List.length_cons] at h
    rw [ringStore,put,Nat.mod_eq_of_lt (a := pos) (by omega),ih _ (by omega)]

section Decode

variable {k : Log} {pos : Nat}

theorem word_eq {v w : Nat} (h : Holds k.ring b.ringSize pos (leBytes v w))
    (hp : pos+w≤2^64) : k.word b pos w=v%256^w := by
  rw [Log.word,← h.number]
  refine leAt_congr _ _ _ _ fun p h0 h1 => ?_
  rw [ringAt,Nat.mod_eq_of_lt (a := p) (by omega)]

theorem bytes_eq {l : Bytes} (h : Holds k.ring b.ringSize pos l) (hp : pos+l.length≤2^64) :
    k.bytes b pos l.length=l := by
  refine Eq.trans ?_ h.map_range
  refine List.map_congr_left fun i hi => ?_
  rw [List.mem_range] at hi
  rw [ringAt,Nat.mod_eq_of_lt (a := pos+i) (by omega)]

variable {r : Rec b}

theorem recHeader_eq (hf : r.Fits) (h : Holds k.ring b.ringSize pos r.stored)
    (hp : pos+r.stored.length≤2^64) : recHeader b k pos=(r.ms,r.flags) := by
  rw [Rec.stored_length,klogHdrLen] at hp
  have hh := h.append_left
  have hms := word_eq hh.append_left (by omega)
  have hlen := word_eq (hh.append_right (l := leBytes r.ms.toNat 4))
    (by rw [leBytes_length]; omega)
  have hl : r.flags<256^2 := (storedLen_spec (Rec.payload_length hf) _ _).1
  have hm : r.ms.toNat<256^4 := r.ms.toNat_lt
  rw [leBytes_length] at hlen
  rw [recHeader,hms,hlen,Nat.mod_eq_of_lt hm,Nat.mod_eq_of_lt hl]
  simp

theorem held_payload (h : Holds k.ring b.ringSize pos r.stored) :
    Holds k.ring b.ringSize (pos+klogHdrLen) r.payload := by
  have := h.append_right
  rwa [List.length_append,leBytes_length,leBytes_length] at this

theorem recLenOf_flags (hf : r.Fits) : recLenOf r.flags=r.payload.length :=
  (storedLen_spec (Rec.payload_length hf) _ _).2.1

theorem recTokenised_flags (hf : r.Fits) : recTokenised r.flags=r.tokenised :=
  (storedLen_spec (Rec.payload_length hf) _ _).2.2

theorem bodyLenAt_eq (hf : r.Fits) (h : Holds k.ring b.ringSize pos r.stored)
    (hp : pos+r.stored.length≤2^64) :
    bodyLenAt b k r.flags (pos+klogHdrLen)=r.body.length := by
  have hpay := held_payload h
  rw [Rec.stored_length] at hp
  rw [bodyLenAt,recTokenised_flags hf,recLenOf_flags hf]
  cases r with
  | text ms t c => rfl
  | tok ms fmt blob =>
    have hb : (b.render fmt blob).length≤320 := hf.body
    simp only [Rec.payload,List.length_append,leBytes_length] at hp
    rw [Rec.tokenised,if_pos rfl,tokRenderLen,
      word_eq hpay.append_left.append_left (by omega),Nat.mod_eq_of_lt (by omega)]
    rfl

theorem recRenderLenAt_eq (hf : r.Fits) (h : Holds k.ring b.ringSize pos r.stored)
    (hp : pos+r.stored.length≤2^64) :
    recRenderLenAt b k r.ms r.flags (pos+klogHdrLen)=r.rendered.length := by
  rw [recRenderLenAt,bodyLenAt_eq hf h hp,Rec.rendered,List.length_append]

theorem recBodyRender_eq (hf : r.Fits) (h : Holds k.ring b.ringSize pos r.stored)
    (hp : pos+r.stored.length≤2^64) :
    recBodyRender b k (pos+klogHdrLen) r.flags klogRecMax=r.body := by
  have hpay := held_payload h
  rw [Rec.stored_length] at hp
  rw [recBodyRender,recTokenised_flags hf,recLenOf_flags hf]
  cases r with
  | text ms t c =>
    have ht : t.length≤klogRecMax := hf.body
    rw [Rec.tokenised,if_neg Bool.false_ne_true,Rec.payload,Nat.min_eq_left ht]
    exact bytes_eq hpay (by simp only [Rec.payload] at hp ⊢; omega)
  | tok ms fmt blob =>
    have hb : blob.length≤64 := hf.blob ms fmt blob rfl
    have hfmt := word_eq (hpay.append_left.append_right)
    have hblob := bytes_eq hpay.append_right
    simp only [Rec.payload,List.length_append,leBytes_length] at hp hfmt hblob ⊢
    have hlen : min (2+b.ptrSize+blob.length-tokHdr b) klogBlobMax=blob.length := by
      rw [tokHdr,klogBlobMax]; omega
    have hft : tokFmt b k (pos+klogHdrLen)=fmt :=
      Fin.ext ((hfmt (by omega)).trans (Nat.mod_eq_of_lt fmt.isLt))
    rw [Rec.tokenised,if_pos rfl,hlen,hft,tokHdr,hblob (by omega)]
    exact List.take_of_length_le hf.body

end Decode

def storedAll (l : List (Rec b)) : Bytes := l.flatMap Rec.stored
def renderedAll (l : List (Rec b)) : Bytes := l.flatMap Rec.rendered

/-- The ring holds whole records: gone were appended and are no longer there, kept are. -/
structure Keeps (k : Log) (gone kept : List (Rec b)) : Prop where
  storedOldest : k.storedOldest=(storedAll gone).length
  storedTotal : k.storedTotal=k.storedOldest+(storedAll kept).length
  renderOldest : k.renderOldest=(renderedAll gone).length
  renderTotal : k.renderTotal=k.renderOldest+(renderedAll kept).length
  held : Holds k.ring b.ringSize k.storedOldest (storedAll kept)
  fits : ∀r∈kept,r.Fits
  stored : k.storedTotal<2^64
  render : k.renderTotal<2^64

theorem storedAll_cons (r : Rec b) (l : List (Rec b)) :
    storedAll (r::l)=r.stored++storedAll l := List.flatMap_cons

theorem renderedAll_cons (r : Rec b) (l : List (Rec b)) :
    renderedAll (r::l)=r.rendered++renderedAll l := List.flatMap_cons

theorem storedAll_append (l m : List (Rec b)) : storedAll (l++m)=storedAll l++storedAll m :=
  List.flatMap_append

theorem renderedAll_append (l m : List (Rec b)) :
    renderedAll (l++m)=renderedAll l++renderedAll m := List.flatMap_append

@[simp] theorem storedAll_one (r : Rec b) : storedAll [r]=r.stored := by simp [storedAll]

@[simp] theorem renderedAll_one (r : Rec b) : renderedAll [r]=r.rendered := by simp [renderedAll]

variable {k : Log} {gone kept : List (Rec b)} {r : Rec b}

theorem keeps_init (ring : Nat → UInt8) : Keeps (b := b) (Log.init ring) [] [] where
  storedOldest := rfl
  storedTotal := rfl
  renderOldest := rfl
  renderTotal := rfl
  held := holds_nil _ _ _
  fits _ h := by cases h
  stored := Nat.two_pow_pos 64
  render := Nat.two_pow_pos 64

theorem Keeps.evict (h : Keeps k gone (r::kept)) :
    Keeps {k with
      renderOldest := add64 k.renderOldest
        (recRenderLenAt b k (recHeader b k k.storedOldest).1 (recHeader b k k.storedOldest).2
          (add64 k.storedOldest klogHdrLen))
      storedOldest := add64 k.storedOldest
        (klogHdrLen+recLenOf (recHeader b k k.storedOldest).2)} (gone++[r]) kept := by
  have hf := h.fits r List.mem_cons_self
  have hheld := h.held
  have hst := h.storedTotal
  have hrt := h.renderTotal
  have hs := h.stored
  have hr := h.render
  rw [storedAll_cons] at hheld
  rw [storedAll_cons,List.length_append,Rec.stored_length] at hst
  rw [renderedAll_cons,List.length_append] at hrt
  have h0 := hheld.append_left
  have hp : k.storedOldest+r.stored.length≤2^64 := by rw [Rec.stored_length]; omega
  have hnext : add64 k.storedOldest (klogHdrLen+r.payload.length)=
      k.storedOldest+r.stored.length := by
    rw [add64_eq (by omega),Rec.stored_length]
  rw [recHeader_eq hf h0 hp]
  rw [add64_eq (show k.storedOldest+klogHdrLen<2^64 by omega),recRenderLenAt_eq hf h0 hp,
    recLenOf_flags hf,hnext,add64_eq (by omega)]
  refine ⟨?_,?_,?_,?_,hheld.append_right,fun r hr => h.fits r (List.mem_cons_of_mem _ hr),hs,hr⟩
  · rw [storedAll_append,List.length_append,storedAll_one,h.storedOldest]
  · dsimp only; rw [hst,Rec.stored_length]; omega
  · rw [renderedAll_append,List.length_append,renderedAll_one,h.renderOldest]
  · dsimp only; omega

theorem Keeps.makeRoom {need : Nat} (hn : need≤b.ringSize) {fuel : Nat} {k : Log}
    {gone kept : List (Rec b)} (h : Keeps k gone kept)
    (hf : k.storedTotal+need-k.storedOldest≤fuel) (ht : k.storedTotal+need<2^64) :
    ∃moved kept',kept=moved++kept' ∧ Keeps (makeRoomLoop b need fuel k) (gone++moved) kept' ∧
      (storedAll kept').length+need≤b.ringSize ∧
      (makeRoomLoop b need fuel k).storedTotal=k.storedTotal ∧
      (makeRoomLoop b need fuel k).renderTotal=k.renderTotal := by
  induction fuel generalizing k gone kept with
  | zero =>
    have hst := h.storedTotal
    exact ⟨[],kept,rfl,by rw [List.append_nil]; exact h,by omega,rfl,rfl⟩
  | succ fuel ih =>
    have hst := h.storedTotal
    rw [makeRoomLoop,add64_eq ht,sub64_eq (by omega) ht]
    by_cases hc : b.ringSize<k.storedTotal+need-k.storedOldest
    · rw [if_pos hc]
      cases kept with
      | nil => rw [storedAll,List.flatMap_nil,List.length_nil] at hst; omega
      | cons r kept =>
        have he := h.evict
        have hold := he.storedTotal
        rw [storedAll_cons,List.length_append,Rec.stored_length,klogHdrLen] at hst
        dsimp only at hold
        obtain ⟨moved,kept',hk,hk',hroom,hs',hr'⟩ := ih he (by dsimp only; omega) ht
        exact ⟨r::moved,kept',by rw [hk]; rfl,by rwa [List.append_assoc] at hk',hroom,hs',hr'⟩
    · rw [if_neg hc]
      exact ⟨[],kept,rfl,by rw [List.append_nil]; exact h,by omega,rfl,rfl⟩

theorem Keeps.append (h : Keeps k gone kept) (hf : r.Fits)
    (hring : r.stored.length≤b.ringSize) (hs : k.storedTotal+r.stored.length<2^64)
    (hr : k.renderTotal+r.rendered.length<2^64) :
    ∃moved kept',kept=moved++kept' ∧
      Keeps (ringAppend b k r.ms r.payload r.onConsole r.tokenised r.body.length)
        (gone++moved) (kept'++[r]) := by
  have hst := h.storedTotal
  have hlen := r.stored_length
  rw [ringAppend,if_neg (by omega)]
  rw [ringMakeRoom,← hlen,add64_eq hs,sub64_eq (by omega) hs]
  obtain ⟨moved,kept',hk,hk',hroom,hs',hr'⟩ := h.makeRoom hring (Nat.le_refl _) hs
  refine ⟨moved,kept',hk,?_⟩
  generalize makeRoomLoop b _ _ k=k' at *
  have hst' := hk'.storedTotal
  have hrt' := hk'.renderTotal
  change Keeps {k' with
    ring := ringStore b k'.ring k'.storedTotal r.stored
    storedTotal := add64 k'.storedTotal r.stored.length
    renderTotal := add64 k'.renderTotal ((tsRender r.ms).length+r.body.length)} _ _
  rw [← List.length_append,show tsRender r.ms++r.body=r.rendered from rfl,
    add64_eq (by omega),add64_eq (by omega),ringStore_eq _ (by omega)]
  have hput := hk'.held.put (m := r.stored) hroom
  rw [← hst'] at hput
  refine ⟨hk'.storedOldest,?_,hk'.renderOldest,?_,?_,?_,?_,?_⟩
  · dsimp only; rw [storedAll_append,List.length_append,storedAll_one]; omega
  · dsimp only; rw [renderedAll_append,List.length_append,renderedAll_one]; omega
  · rw [storedAll_append,storedAll_one]; exact hput
  · intro r' hm
    rcases List.mem_append.1 hm with hm | hm
    · exact hk'.fits r' hm
    · rw [List.mem_singleton.1 hm]; exact hf
  · dsimp only; omega
  · dsimp only; omega

theorem Keeps.clear (h : Keeps k gone kept) :
    Keeps (klogClear k) (gone++kept) ([] : List (Rec b)) := by
  have hst := h.storedTotal
  have hrt := h.renderTotal
  refine ⟨?_,rfl,?_,rfl,holds_nil _ _ _,fun r hr => (by cases hr),h.stored,h.render⟩
  · rw [storedAll_append,List.length_append,← h.storedOldest]; exact hst
  · rw [renderedAll_append,List.length_append,← h.renderOldest]; exact hrt

end LugalOS.Klog
