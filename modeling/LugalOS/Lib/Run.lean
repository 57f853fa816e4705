namespace LugalOS.Run

variable {σ ε : Type}

/-- Runs of a labelled transition relation from s0, with their history, latest event first. -/
inductive Reach (step : σ → ε → σ → Prop) (s0 : σ) : List ε → σ → Prop
  | start : Reach step s0 [] s0
  | next {h : List ε} {s s' : σ} {e : ε} :
      Reach step s0 h s → step s e s' → Reach step s0 (e::h) s'

variable {step : σ → ε → σ → Prop} {s0 : σ}

theorem Reach.invariant (inv : List ε → σ → Prop) (h0 : inv [] s0)
    (hs : ∀h s e s',inv h s → step s e s' → inv (e::h) s')
    {h : List ε} {s : σ} (hr : Reach step s0 h s) : inv h s := by
  induction hr with
  | start => exact h0
  | next _ he ih => exact hs _ _ _ _ ih he

theorem Reach.restrict {p : ε → Prop} {h : List ε} {s : σ} (hr : Reach step s0 h s)
    (hp : ∀e∈h,p e) : Reach (fun s e s' => step s e s' ∧ p e) s0 h s := by
  induction hr with
  | start => exact Reach.start
  | next _ he ih =>
    exact (ih fun e hm => hp e (List.mem_cons_of_mem _ hm)).next ⟨he,hp _ List.mem_cons_self⟩

/-- The run of a list of events, where each step is computed. -/
def exec (f : ε → σ → Option σ) : List ε → σ → Option σ
  | [],s => some s
  | e::es,s => (f e s).bind (exec f es)

theorem Reach.exec_events {f : ε → σ → Option σ} (hf : ∀s e s',f e s=some s' → step s e s')
    (es : List ε) : ∀{h : List ε} {s s' : σ},Reach step s0 h s → Run.exec f es s=some s' →
      Reach step s0 (es.reverse++h) s' := by
  induction es with
  | nil => intro h s s' hr he; cases he; exact hr
  | cons e es ih =>
    intro h s s' hr he
    simp only [Run.exec,Option.bind_eq_some_iff] at he
    obtain ⟨s1,h1,h2⟩ := he
    have hn := ih (hr.next (hf _ _ _ h1)) h2
    rw [List.reverse_cons,List.append_assoc]
    exact hn

/-- A computed run ends in a state that passes a test. -/
theorem Reach.exec_any {f : ε → σ → Option σ} (hf : ∀s e s',f e s=some s' → step s e s')
    {es : List ε} {p : σ → Bool} (h : (Run.exec f es s0).any p=true) :
    ∃s,Reach step s0 (es.reverse++[]) s ∧ p s=true := by
  obtain ⟨s,hs,hp⟩ := (Option.any_eq_true _ _).mp h
  exact ⟨s,Reach.exec_events hf es .start hs,hp⟩

end LugalOS.Run
