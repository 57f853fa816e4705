import Mathlib.Data.List.Basic

/-! Scanners: functions that take a beginning of their input and answer a value with what is behind
it. -/

namespace LugalOS.Scanner

variable {σ α : Type} {f : List σ → Option (α × List σ)} {L F : List σ → Prop} {p : σ → Bool}

/-- The scanner takes exactly the texts in L, those that are followed by an F whole. -/
structure Scans (f : List σ → Option (α × List σ)) (L F : List σ → Prop) : Prop where
  sound : ∀{s a r},f s=some (a,r) → ∃t,s=t++r ∧ L t
  complete : ∀{t r},L t → F r → ∃a,f (t++r)=some (a,r)

theorem Scans.unique (h : Scans f L F) {t t' r r' : List σ} (ht : L t) (ht' : L t') (hr : F r)
    (hr' : F r') (he : t++r=t'++r') : t=t' ∧ r=r' := by
  obtain ⟨a,ha⟩ := h.complete ht hr
  obtain ⟨b,hb⟩ := h.complete ht' hr'
  rw [he,hb] at ha
  simp only [Option.some.injEq,Prod.mk.injEq] at ha
  obtain ⟨-,rfl⟩ := ha
  exact ⟨List.append_cancel_right he,rfl⟩

/-- At most n symbols of a kind, and what is behind them. -/
def scan (p : σ → Bool) : Nat → List σ → List σ × List σ
  | 0,s => ([],s)
  | _+1,[] => ([],[])
  | n+1,c::s => if p c then let (a,r) := scan p n s; (c::a,r) else ([],c::s)

theorem scan_sound : ∀{n : Nat} {s a r : List σ},scan p n s=(a,r) →
    s=a++r ∧ (∀c∈a,p c=true) ∧ a.length≤n
  | 0,_,_,_,h => by
    cases h
    simp
  | n+1,[],_,_,h => by
    cases h
    simp
  | n+1,c::s,a,r,h => by
    rw [scan] at h
    split at h
    · rename_i hc
      obtain ⟨rfl,rfl⟩ := Prod.mk.inj h
      obtain ⟨hs,ha,hn⟩ := scan_sound (n := n) (s := s) rfl
      refine ⟨by rw [List.cons_append,← hs],?_,by simpa using hn⟩
      simp only [List.mem_cons,forall_eq_or_imp]
      exact ⟨hc,ha⟩
    · cases h
      simp

theorem scan_complete {r : List σ} : ∀{n : Nat} {a : List σ},(∀c∈a,p c=true) → a.length≤n →
    (a.length=n ∨ ∀c∈r.head?,p c=false) → scan p n (a++r)=(a,r)
  | 0,[],_,_,_ => rfl
  | n+1,[],_,_,hr => by
    cases r with
    | nil => rfl
    | cons c r =>
      have hc : p c=false := hr.resolve_left (by simp) c rfl
      simp [scan,hc]
  | n+1,c::a,ha,hn,hr => by
    have hr' : a.length=n ∨ ∀c∈r.head?,p c=false := hr.imp_left (by simp)
    have ih := scan_complete (n := n) (a := a) (fun x hx => ha x (by simp [hx]))
      (by simpa using hn) hr'
    simp [scan,ha c (by simp),ih]

end LugalOS.Scanner
