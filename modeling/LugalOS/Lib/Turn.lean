import Mathlib.Data.List.Nodup
import Mathlib.Algebra.Order.Ring.Nat

/-! A lock with a FIFO of waiting parties, which its holder hands straight to the oldest of
them: it never goes free in between. -/

namespace LugalOS.Turn

inductive Role where
  | out | waits | holds
deriving DecidableEq

/-- `handed` is the party that was handed the lock, until it takes it. -/
structure State (ι : Type) where
  role : ι → Role
  busy : Bool
  holder : Option ι
  queue : List ι
  handed : Option ι

inductive Step {ι : Type} [DecidableEq ι] : State ι → State ι → Prop
  | take {s : State ι} (c : ι) : s.role c=.out → s.busy=false →
      Step s {s with role := Function.update s.role c .holds,busy := true,holder := some c}
  | join {s : State ι} (c : ι) : s.role c=.out → s.busy=true →
      Step s {s with role := Function.update s.role c .waits,queue := s.queue++[c]}
  | accept {s : State ι} (c : ι) : s.handed=some c →
      Step s {s with role := Function.update s.role c .holds,holder := some c,handed := none}
  | leave {s : State ι} (c : ι) : s.role c=.waits → s.handed≠some c →
      Step s {s with role := Function.update s.role c .out,queue := s.queue.filter (· ≠ c)}
  | hand {s : State ι} (c d : ι) (rest : List ι) : s.role c=.holds → s.queue=d::rest →
      Step s {s with
        role := Function.update s.role c .out,queue := rest,holder := some d,handed := some d}
  | free {s : State ι} (c : ι) : s.role c=.holds → s.queue=[] →
      Step s {s with role := Function.update s.role c .out,busy := false,holder := none}

/-- The parties that wait are those of the queue and the one handed to; the lock has one holder
at most, and is free only when nobody waits. -/
structure Sound {ι : Type} (s : State ι) : Prop where
  nodup : s.queue.Nodup
  queued : ∀c∈s.queue,s.role c=.waits
  waiting : ∀c,s.role c=.waits → c∈s.queue ∨ s.handed=some c
  handed : ∀c,s.handed=some c → s.role c=.waits ∧ c∉s.queue ∧ s.holder=some c ∧ s.busy=true
  alone : ∀c,s.role c=.holds → s.holder=some c ∧ s.busy=true ∧ s.handed=none
  taken : ∀c,s.holder=some c → s.role c=.holds ∨ s.handed=some c
  owned : s.busy=true → ∃c,s.holder=some c
  free : s.busy=false → s.queue=[]

variable {ι : Type} {s s' : State ι}

theorem Sound.empty : Sound (⟨fun _ => .out,false,none,[],none⟩ : State ι) := by
  constructor
  case nodup => exact List.nodup_nil
  case free => exact fun _ => rfl
  case owned => rintro ⟨⟩
  all_goals intro c hc; cases hc

theorem Sound.unique (h : Sound s) {c d : ι} (hc : s.role c=.holds) (hd : s.role d=.holds) :
    c=d := by
  have h1 := (h.alone c hc).1
  rw [(h.alone d hd).1] at h1
  exact (Option.some.inj h1).symm

theorem Sound.none_holds (h : Sound s) {c d : ι} (hc : s.handed=some c) : s.role d≠.holds := by
  intro hd
  rw [(h.alone d hd).2.2] at hc
  cases hc

theorem Sound.idle (h : Sound s) (hb : s.busy=false) {c : ι} : s.role c=.out := by
  cases hc : s.role c with
  | out => rfl
  | waits =>
    rcases h.waiting c hc with hq | hh
    · rw [h.free hb] at hq; cases hq
    · rw [(h.handed c hh).2.2.2] at hb; cases hb
  | holds => rw [(h.alone c hc).2.1] at hb; cases hb

theorem update_other [DecidableEq ι] {f : ι → Role} {c d : ι} {r x : Role} (he : d≠c) :
    Function.update f c r d=x ↔ f d=x := by rw [Function.update_of_ne he]

theorem ne_of_update [DecidableEq ι] {f : ι → Role} {c d : ι} {r x : Role} (hx : r≠x)
    (hd : Function.update f c r d=x) : d≠c := by
  rintro rfl
  rw [Function.update_self] at hd
  exact hx hd

theorem Step.sound [DecidableEq ι] (hs : Step s s') (h : Sound s) : Sound s' := by
  cases hs with
  | take c hc hb =>
    have hq := h.free hb
    have hh : s.handed=none := by
      cases hd : s.handed with
      | none => rfl
      | some d => rw [(h.handed d hd).2.2.2] at hb; cases hb
    refine ⟨h.nodup,fun d hd => ?_,fun d hd => ?_,fun d hd => ?_,fun d hd => ?_,fun d hd => ?_,
      fun _ => ⟨c,rfl⟩,fun hf => ?_⟩
    · rw [hq] at hd; cases hd
    · by_cases he : d=c
      · subst he; simp at hd
      · have hr := (update_other he).mp hd; rw [h.idle hb] at hr; cases hr
    · rw [hh] at hd; cases hd
    · by_cases he : d=c
      · subst he; exact ⟨rfl,rfl,hh⟩
      · have hr := (update_other he).mp hd; rw [h.idle hb] at hr; cases hr
    · cases hd; exact .inl (Function.update_self ..)
    · cases hf
  | join c hc hb =>
    have hnq : c∉s.queue := fun hm => by rw [h.queued c hm] at hc; cases hc
    have hnh : s.handed≠some c := fun hm => by rw [(h.handed c hm).1] at hc; cases hc
    refine ⟨?_,fun d hd => ?_,fun d hd => ?_,fun d hd => ?_,fun d hd => ?_,fun d hd => ?_,
      h.owned,fun hf => ?_⟩
    · exact List.nodup_append.mpr ⟨h.nodup,List.nodup_singleton c,fun a ha b hb he => by
        rw [List.mem_singleton] at hb; subst hb; subst he; exact hnq ha⟩
    · by_cases he : d=c
      · subst he; exact Function.update_self ..
      · refine (update_other he).mpr ?_
        rcases List.mem_append.mp hd with hd | hd
        · exact h.queued d hd
        · exact absurd (List.mem_singleton.mp hd) he
    · by_cases he : d=c
      · subst he; exact .inl (List.mem_append_right _ (List.mem_singleton_self d))
      · replace hd := (update_other he).mp hd
        exact (h.waiting d hd).imp (List.mem_append_left _) id
    · have he : d≠c := fun he => hnh (he ▸ hd)
      obtain ⟨h1,h2,h3,h4⟩ := h.handed d hd
      refine ⟨(update_other he).mpr <| h1,fun hm => ?_,h3,h4⟩
      rcases List.mem_append.mp hm with hm | hm
      · exact h2 hm
      · exact he (List.mem_singleton.mp hm)
    · have he : d≠c := ne_of_update (by decide) hd
      replace hd := (update_other he).mp hd
      exact h.alone d hd
    · refine (h.taken d hd).imp (fun hr => ?_) id
      exact (update_other fun he => by rw [he,hc] at hr; cases hr).mpr hr
    · rw [hb] at hf; cases hf
  | accept c hc =>
    obtain ⟨_,hnq,_,hb⟩ := h.handed c hc
    refine ⟨h.nodup,fun d hd => ?_,fun d hd => ?_,fun d hd => ?_,fun d hd => ?_,fun d hd => ?_,
      fun _ => ⟨c,rfl⟩,h.free⟩
    · have he : d≠c := fun he => hnq (he ▸ hd)
      exact (update_other he).mpr <| h.queued d hd
    · have he : d≠c := ne_of_update (by decide) hd
      replace hd := (update_other he).mp hd
      rcases h.waiting d hd with hq | hh
      · exact .inl hq
      · rw [hc] at hh; exact absurd (Option.some.inj hh).symm he
    · cases hd
    · by_cases he : d=c
      · subst he; exact ⟨rfl,hb,rfl⟩
      · replace hd := (update_other he).mp hd
        exact absurd hd (h.none_holds hc)
    · cases hd; exact .inl (Function.update_self ..)
  | leave c hc hn =>
    refine ⟨h.nodup.filter _,fun d hd => ?_,fun d hd => ?_,fun d hd => ?_,fun d hd => ?_,
      fun d hd => ?_,h.owned,fun hf => ?_⟩
    · have hd := List.mem_filter.mp hd
      exact (update_other (by simpa using hd.2)).mpr <| h.queued d hd.1
    · have he : d≠c := ne_of_update (by decide) hd
      replace hd := (update_other he).mp hd
      exact (h.waiting d hd).imp (fun hm => List.mem_filter.mpr ⟨hm,by simpa using he⟩) id
    · have he : d≠c := fun he => hn (he ▸ hd)
      obtain ⟨h1,h2,h3,h4⟩ := h.handed d hd
      exact ⟨(update_other he).mpr <| h1,
        fun hm => h2 (List.mem_filter.mp hm).1,h3,h4⟩
    · have he : d≠c := ne_of_update (by decide) hd
      replace hd := (update_other he).mp hd
      exact h.alone d hd
    · refine (h.taken d hd).imp (fun hr => ?_) id
      exact (update_other fun he => by rw [he,hc] at hr; cases hr).mpr hr
    · rw [show s.queue=[] from h.free hf]; rfl
  | hand c d rest hc hq =>
    have hn := h.nodup
    rw [hq,List.nodup_cons] at hn
    have hout : ∀e∈s.queue,e≠c := fun e he hec => by
      have := h.queued e he; rw [hec,hc] at this; cases this
    have hdc : d≠c := hout d (by rw [hq]; exact List.mem_cons_self)
    refine ⟨hn.2,fun e he => ?_,fun e he => ?_,fun e he => ?_,fun e he => ?_,fun e he => ?_,
      fun _ => ⟨d,rfl⟩,fun hf => ?_⟩
    · have hm : e∈s.queue := by rw [hq]; exact List.mem_cons_of_mem _ he
      exact (update_other (hout e hm)).mpr <| h.queued e hm
    · have hec : e≠c := ne_of_update (by decide) he
      replace he := (update_other hec).mp he
      rcases h.waiting e he with hm | hh
      · rw [hq] at hm
        rcases List.mem_cons.mp hm with rfl | hm
        · exact .inr rfl
        · exact .inl hm
      · rw [(h.alone c hc).2.2] at hh; cases hh
    · cases he
      refine ⟨?_,hn.1,rfl,(h.alone c hc).2.1⟩
      exact (update_other hdc).mpr <| h.queued d (by rw [hq]; exact List.mem_cons_self)
    · have hec : e≠c := ne_of_update (by decide) he
      replace he := (update_other hec).mp he
      exact absurd (h.unique he hc) hec
    · exact .inr he
    · rw [(h.alone c hc).2.1] at hf; cases hf
  | free c hc hq =>
    refine ⟨h.nodup,fun e he => ?_,fun e he => ?_,fun e he => ?_,fun e he => ?_,fun e he => ?_,
      (by rintro ⟨⟩),fun _ => hq⟩
    · rw [hq] at he; cases he
    · have hec : e≠c := ne_of_update (by decide) he
      replace he := (update_other hec).mp he
      rcases h.waiting e he with hm | hh
      · rw [hq] at hm; cases hm
      · rw [(h.alone c hc).2.2] at hh; cases hh
    · rw [(h.alone c hc).2.2] at he; cases he
    · have hec : e≠c := ne_of_update (by decide) he
      replace he := (update_other hec).mp he
      exact absurd (h.unique he hc) hec
    · cases he

end LugalOS.Turn
