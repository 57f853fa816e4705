import Mathlib.Data.List.GetD
import LugalOS.Klog.Records

namespace LugalOS.Klog

open CString RingStream

theorem window_foldl (f : Nat → UInt8) (off count n : Nat) {out : Bytes} (h : out.length≤count) :
    (List.range n).foldl (fun out i => if out.length<count ∧ off ≤ i then out++[f i] else out) out=
      out++(((List.range n).map f).drop off).take (count-out.length) := by
  induction n with
  | zero => simp
  | succ n ih =>
    rw [List.range_succ,List.foldl_append,ih,List.map_append,List.foldl_cons,List.foldl_nil]
    by_cases hoff : off≤n
    · have hd : off≤((List.range n).map f).length := by simpa using hoff
      rw [List.drop_append_of_le_length hd,List.take_append,← List.append_assoc]
      have hlen : (((List.range n).map f).drop off).length=n-off := by simp
      rw [List.length_append,List.length_take,hlen]
      by_cases hroom : n-off<count-out.length
      · rw [if_pos ⟨by omega,hoff⟩,List.take_of_length_le (by rw [hlen]; omega),List.append_assoc,
          List.append_assoc,List.map_singleton,
          List.take_of_length_le (by rw [List.length_singleton]; omega)]
      · rw [if_neg (by omega),show count-out.length-(n-off)=0 by omega]
        simp
    · rw [if_neg (fun hc => hoff hc.2),List.drop_eq_nil_of_le (by simp; omega),
        List.drop_eq_nil_of_le (by simp; omega)]

theorem recByte_map (ts body : Bytes) :
    (List.range (ts.length+body.length)).map (recByte ts body)=ts++body := by
  apply List.ext_getElem (by simp)
  intro i h1 h2
  rw [List.length_append] at h2
  rw [List.getElem_map,List.getElem_range,recByte]
  by_cases hi : i<ts.length
  · rw [if_pos hi,List.getElem_append_left hi,List.getD_eq_getElem _ _ hi]
  · rw [if_neg hi,List.getElem_append_right (Nat.not_lt.1 hi),
      List.getD_eq_getElem _ _ (by omega)]

variable {b : Build} {k : Log}

theorem copy_record (ts body : Bytes) (off : Nat) {count rpos : Nat} {out : Bytes}
    (hr : rpos+(ts.length+body.length)<2^64) (h : out.length≤count) :
    (List.range (ts.length+body.length)).foldl (fun out i =>
      if out.length<count ∧ off≤add64 rpos i then out++[recByte ts body i] else out) out=
      out++((ts++body).drop (off-rpos)).take (count-out.length) := by
  rw [← recByte_map ts body,← window_foldl _ _ _ _ h]
  refine List.foldl_ext _ _ _ fun a i hi => ?_
  rw [List.mem_range] at hi
  have ha : (a.length<count ∧ off ≤ rpos+i) ↔ (a.length<count ∧ off-rpos ≤ i) := by omega
  rw [add64_eq (by omega),if_congr ha rfl rfl]

theorem readLoop_eq {off count : Nat} {rs : List (Rec b)} :
    ∀{fuel spos rpos : Nat} {out : Bytes},Holds k.ring b.ringSize spos (storedAll rs) →
      (∀r∈rs,r.Fits) → spos+(storedAll rs).length=k.storedTotal →
      rpos+(renderedAll rs).length=k.renderTotal → k.storedTotal<2^64 → k.renderTotal<2^64 →
      (storedAll rs).length≤fuel → out.length≤count →
      readLoop b k off count fuel spos rpos out=
        out++((renderedAll rs).drop (off-rpos)).take (count-out.length) := by
  induction rs with
  | nil =>
    intro fuel spos rpos out _ _ hs _ _ _ _ _
    have hspos : spos=k.storedTotal := hs
    have hnil : out=out++((renderedAll ([] : List (Rec b))).drop (off-rpos)).take
        (count-out.length) := by simp [renderedAll]
    rw [← hnil]
    cases fuel with
    | zero => rfl
    | succ fuel => rw [readLoop,if_neg (by omega)]
  | cons r rs ih =>
    intro fuel spos rpos out hheld hfits hs hr hst hrt hf hout
    have hfit := hfits r List.mem_cons_self
    have hlen := r.stored_length
    rw [storedAll_cons] at hheld hs hf
    rw [renderedAll_cons] at hr ⊢
    rw [List.length_append] at hs hr hf
    have h0 := hheld.append_left
    have h6 : klogHdrLen=6 := rfl
    have hbody : (tsRender r.ms).length+r.body.length=r.rendered.length :=
      List.length_append.symm
    obtain ⟨fuel,rfl⟩ := Nat.exists_eq_succ_of_ne_zero (show fuel≠0 by omega)
    rw [readLoop]
    by_cases hc : out.length<count
    · rw [if_pos ⟨by omega,hc⟩,recHeader_eq hfit h0 (by omega)]
      dsimp only
      rw [bodyLenAt_eq hfit h0 (by omega),
        recLenOf_flags hfit,← hlen,hbody,add64_eq (by omega),add64_eq (by omega)]
      have hgo : ∀o : Bytes,o.length≤count →
          readLoop b k off count fuel (spos+r.stored.length) (rpos+r.rendered.length) o=
            o++((renderedAll rs).drop (off-(rpos+r.rendered.length))).take (count-o.length) :=
        fun o ho => ih hheld.append_right (fun r hr => hfits r (List.mem_cons_of_mem _ hr))
          (by omega) (by omega) hst hrt (by omega) ho
      by_cases hoff : rpos+r.rendered.length≤off
      · have hd : (r.rendered++renderedAll rs).drop (off-rpos)=
            (renderedAll rs).drop (off-(rpos+r.rendered.length)) := by
          rw [List.drop_append,List.drop_eq_nil_of_le (show r.rendered.length≤off-rpos by omega),
            List.nil_append]
          congr 1
          omega
        rw [if_pos hoff,hgo out hout,hd]
      · have hcopy := copy_record (tsRender r.ms) r.body off
          (show rpos+((tsRender r.ms).length+r.body.length)<2^64 by omega) hout
        rw [hbody,show tsRender r.ms++r.body=r.rendered from rfl] at hcopy
        rw [if_neg hoff,recBodyRender_eq hfit h0 (by omega),hcopy,
          hgo _ (by rw [List.length_append,List.length_take]; omega),List.append_assoc]
        congr 1
        rw [List.drop_append_of_le_length (by omega),List.take_append,List.length_append,
          List.length_take,show off-(rpos+r.rendered.length)=0 by omega,List.drop_zero]
        congr 2
        omega
    · rw [if_neg (by omega),show count-out.length=0 by omega,List.take_zero,List.append_nil]

theorem Keeps.read {gone kept : List (Rec b)} (h : Keeps k gone kept) (off n : Nat) :
    klogRead b k off n=
      ((renderedAll (gone++kept)).drop (max off k.renderOldest)).take n := by
  have hst := h.storedTotal
  have hrt := h.renderTotal
  have hgo := h.renderOldest
  have hmax : (if off<k.renderOldest then k.renderOldest else off)=max off k.renderOldest := by
    rw [Nat.max_def]
    split <;> split <;> omega
  rw [klogRead,hmax]
  by_cases hn : n=0
  · rw [if_pos hn,hn,List.take_zero]
  rw [if_neg hn]
  have hlen : (renderedAll (gone++kept)).length=k.renderTotal := by
    rw [renderedAll_append,List.length_append]; omega
  by_cases ht : k.renderTotal ≤ max off k.renderOldest
  · rw [if_pos ht,List.drop_eq_nil_of_le (by omega),List.take_nil]
  · have hdrop : (renderedAll (gone++kept)).drop (max off k.renderOldest)=
        (renderedAll kept).drop (max off k.renderOldest-k.renderOldest) := by
      rw [renderedAll_append,List.drop_append,List.drop_eq_nil_of_le (by omega),List.nil_append,
        hgo]
    rw [if_neg ht,readLoop_eq h.held h.fits hst.symm hrt.symm h.stored h.render (by omega)
      (Nat.zero_le _),List.nil_append,hdrop,List.length_nil,Nat.sub_zero]
    rw [List.take_eq_take_iff,List.length_drop]
    omega

end LugalOS.Klog
