import Mathlib.Data.List.Nodup
import Mathlib.Data.List.Induction

/-! Who waits in a line, told from what has happened to it: a log of who came in, who was given
the turn, who went away, who was passed over and who took the place without waiting. -/

namespace LugalOS.Line

inductive Note (ι : Type) where
  | joins (c : ι)
  | granted (c : ι)
  | left (c : ι)
  | skipped (c : ι)
  | took (c : ι)
deriving DecidableEq

variable {ι : Type} [DecidableEq ι]

def Note.ends (c : ι) : Note ι → Prop
  | .granted d => d=c
  | .left d => d=c
  | .skipped d => d=c
  | _ => False

def after (l : List ι) : Note ι → List ι
  | .joins c => l++[c]
  | .granted c => l.filter (· ≠ c)
  | .left c => l.filter (· ≠ c)
  | .skipped c => l.filter (· ≠ c)
  | .took _ => l

/-- Who waits after a log, oldest first. -/
def line (log : List (Note ι)) : List ι := log.foldl after []

/-- The turn goes to the first in line, and the place is taken freely only past an empty line. -/
def Allowed (l : List ι) : Note ι → Prop
  | .joins c => c∉l
  | .granted c => l.head?=some c
  | .left _ => True
  | .skipped c => l.head?=some c
  | .took _ => l=[]

def Fair (log : List (Note ι)) : Prop := ∀a n b,log=a++n::b → Allowed (line a) n

@[simp] theorem line_snoc (log : List (Note ι)) (n : Note ι) :
    line (log++[n])=after (line log) n := by
  rw [line,List.foldl_append]
  rfl

theorem Fair.nil : Fair ([] : List (Note ι)) := fun a n b h => by
  cases a <;> cases h

theorem Fair.snoc {log : List (Note ι)} {n : Note ι} (h : Fair log) (hn : Allowed (line log) n) :
    Fair (log++[n]) := by
  intro a m b he
  rcases List.eq_nil_or_concat b with rfl | ⟨b,x,rfl⟩
  · obtain ⟨rfl,hm⟩ := List.append_inj' he rfl
    cases hm
    exact hn
  · rw [List.concat_eq_append,← List.cons_append,← List.append_assoc] at he
    obtain ⟨hl,-⟩ := List.append_inj' he rfl
    exact h a m b hl

theorem after_nodup {l : List ι} {n : Note ι} (h : l.Nodup) (hn : Allowed l n) :
    (after l n).Nodup := by
  cases n with
  | joins c => exact List.nodup_append.mpr ⟨h,List.nodup_singleton c,fun a ha b hb he =>
      hn (List.mem_singleton.mp hb ▸ he ▸ ha)⟩
  | granted c | left c | skipped c => exact h.filter _
  | took c => exact h

theorem Fair.line_nodup {log : List (Note ι)} (h : Fair log) : (line log).Nodup := by
  induction log using List.reverseRecOn with
  | nil => exact List.nodup_nil
  | append_singleton log n ih =>
    have hpre : Fair log := fun a m b he => h a m (b++[n]) (by rw [he]; simp)
    rw [line_snoc]
    exact after_nodup (ih hpre) (h log n [] rfl)

theorem filter_head {c : ι} {rest : List ι} (h : (c::rest).Nodup) :
    (c::rest).filter (· ≠ c)=rest := by
  rw [List.filter_cons,if_neg (by simp)]
  refine List.filter_eq_self.mpr fun a ha => ?_
  have hne : a≠c := fun he => (List.nodup_cons.mp h).1 (he ▸ ha)
  simpa using hne

theorem after_keeps {l m : List ι} {n : Note ι} (h : m.Sublist l) (hn : ∀c∈m,¬n.ends c) :
    m.Sublist (after l n) := by
  have hkeep {c : ι} (hc : ∀d∈m,¬c=d) : m.Sublist (l.filter (· ≠ c)) := by
    have hf : m.filter (· ≠ c)=m :=
      List.filter_eq_self.mpr fun d hd => by simpa using fun he : d=c => hc d hd he.symm
    rw [← hf]
    exact h.filter _
  cases n with
  | joins c => exact h.trans (List.sublist_append_left l [c])
  | granted c | left c | skipped c => exact hkeep hn
  | took c => exact h

theorem line_keeps {a b : List (Note ι)} {m : List ι} (h : m.Sublist (line a))
    (hb : ∀n∈b,∀c∈m,¬n.ends c) : m.Sublist (line (a++b)) := by
  induction b using List.reverseRecOn with
  | nil => rwa [List.append_nil]
  | append_singleton b n ih =>
    rw [← List.append_assoc,line_snoc]
    exact after_keeps (ih fun k hk => hb k (List.mem_append_left _ hk))
      (hb n (List.mem_append_right _ (List.mem_singleton_self n)))

theorem line_joins {a b : List (Note ι)} {p : ι} (hb : ∀n∈b,¬n.ends p) :
    p∈line (a++.joins p::b) := by
  have h0 : [p].Sublist (line (a++[.joins p])) := by
    rw [line_snoc]
    exact List.sublist_append_right _ _
  have h := line_keeps (b := b) h0 fun n hn c hc => by
    rw [List.mem_singleton.mp hc]
    exact hb n hn
  rw [List.append_assoc] at h
  exact h.subset (List.mem_singleton_self p)

/-- Nobody overtakes: the wait of a party that came in before the one given the turn is over. -/
theorem Fair.no_overtaking {a b c d : List (Note ι)} {p q : ι}
    (h : Fair (a++.joins p::b++.joins q::c++.granted q::d)) (hq : ∀n∈c,¬n.ends q) :
    ∃n∈b++.joins q::c,n.ends p := by
  by_contra hno
  have hp : ∀n∈b++.joins q::c,¬n.ends p := fun n hn he => hno ⟨n,hn,he⟩
  have hfirst : p∈line (a++.joins p::b) := line_joins fun n hn => hp n (List.mem_append_left _ hn)
  have hpair : [p,q].Sublist (line (a++.joins p::b++[.joins q])) := by
    rw [line_snoc]
    exact (List.singleton_sublist.mpr hfirst).append (List.Sublist.refl [q])
  have hlater := line_keeps (b := c) hpair fun n hn x hx => by
    rcases List.mem_cons.mp hx with rfl | hx
    · exact hp n (List.mem_append_right _ (List.mem_cons_of_mem _ hn))
    · rw [List.mem_singleton.mp hx]
      exact hq n hn
  have hpre : Fair (a++.joins p::b++.joins q::c) := fun x n y he =>
    h x n (y++.granted q::d) (by rw [he]; simp)
  have hhead := h _ _ d rfl
  rw [List.append_assoc,List.singleton_append] at hlater
  have hnodup := hpre.line_nodup
  generalize line (a++.joins p::b++.joins q::c)=l at hlater hhead hnodup
  cases l with
  | nil => cases hhead
  | cons x rest =>
    obtain rfl : x=q := by simpa [Allowed] using hhead
    have hnot := (List.nodup_cons.mp hnodup).1
    cases hlater with
    | cons _ hs | cons_cons _ hs => exact hnot (hs.subset (by simp))

/-- Who takes the place without waiting finds that every wait before it is over. -/
theorem Fair.took_idle {a b d : List (Note ι)} {p c : ι}
    (h : Fair (a++.joins p::b++.took c::d)) : ∃n∈b,n.ends p := by
  by_contra hno
  have hmem := line_joins (a := a) (p := p) (b := b) fun n hn he => hno ⟨n,hn,he⟩
  have hnil : line (a++.joins p::b)=[] := h _ _ d rfl
  rw [hnil] at hmem
  cases hmem

theorem mem_after {l : List ι} {n : Note ι} {q : ι} (h : q∈after l n) :
    n=.joins q ∨ q∈l ∧ ¬n.ends q := by
  cases n with
  | joins c =>
    rcases List.mem_append.mp h with h | h
    · exact .inr ⟨h,fun hx => hx⟩
    · rw [List.mem_singleton.mp h]
      exact .inl rfl
  | took c => exact .inr ⟨h,fun hx => hx⟩
  | granted c | left c | skipped c =>
    rw [after,List.mem_filter] at h
    exact .inr ⟨h.1,fun hx => by rw [hx] at h; simp at h⟩

theorem mem_line {log : List (Note ι)} {q : ι} (h : q∈line log) :
    ∃a b,log=a++.joins q::b ∧ ∀n∈b,¬n.ends q := by
  induction log using List.reverseRecOn with
  | nil => cases h
  | append_singleton log n ih =>
    rw [line_snoc] at h
    rcases mem_after h with rfl | ⟨hm,hn⟩
    · exact ⟨log,[],rfl,fun n hn => by cases hn⟩
    · obtain ⟨a,b,rfl,hb⟩ := ih hm
      refine ⟨a,b++[n],by simp,fun m hm => ?_⟩
      rcases List.mem_append.mp hm with hm | hm
      · exact hb m hm
      · rw [List.mem_singleton.mp hm]
        exact hn

theorem Fair.granted_joined {a d : List (Note ι)} {q : ι} (h : Fair (a++.granted q::d)) :
    ∃b c,a=b++.joins q::c ∧ ∀n∈c,¬n.ends q :=
  mem_line (List.mem_of_mem_head? (h a _ d rfl))

end LugalOS.Line
