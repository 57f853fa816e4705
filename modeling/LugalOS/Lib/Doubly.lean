import Mathlib.Data.List.Nodup

namespace LugalOS.Doubly

variable {next prev next' prev' : Nat → Nat} {back head a x : Nat} {l : List Nat}

/-- From head the links lead through the cells of l to the end; back is what leads to head. -/
def Chain (next prev : Nat → Nat) : Nat → Nat → List Nat → Prop
  | _,head,[] => head=0
  | back,head,a::l => head=a+1 ∧ prev a=back ∧ Chain next prev (a+1) (next a) l

theorem Chain.congr (h : Chain next prev back head l) (hn : ∀x∈l,next' x=next x)
    (hp : ∀x∈l,prev' x=prev x) : Chain next' prev' back head l := by
  induction l generalizing back head with
  | nil => exact h
  | cons a l ih =>
    obtain ⟨hh,hb,ht⟩ := h
    refine ⟨hh,(hp a List.mem_cons_self).trans hb,?_⟩
    rw [hn a List.mem_cons_self]
    exact ih ht (fun x hx => hn x (List.mem_cons_of_mem _ hx))
      fun x hx => hp x (List.mem_cons_of_mem _ hx)

theorem Chain.head_iff (h : Chain next prev back head l) : head=0 ↔ l=[] := by
  cases l with
  | nil => exact ⟨fun _ => rfl,fun _ => h⟩
  | cons a l => simp [h.1]

theorem Chain.before (h : Chain next prev back head l) (ha : a∈l) :
    prev a=back ∧ head=a+1 ∨ ∃x∈l,prev a=x+1 ∧ next x=a+1 := by
  induction l generalizing back head with
  | nil => simp at ha
  | cons b l ih =>
    obtain ⟨hh,hb,ht⟩ := h
    obtain rfl | ha := List.mem_cons.mp ha
    · exact .inl ⟨hb,hh⟩
    · obtain ⟨hp,hn⟩ | ⟨x,hx,hp,hn⟩ := ih ht ha
      · exact .inr ⟨b,List.mem_cons_self,hp,hn⟩
      · exact .inr ⟨x,List.mem_cons_of_mem _ hx,hp,hn⟩

theorem Chain.after (h : Chain next prev back head l) (ha : a∈l) :
    next a=0 ∨ ∃y∈l,next a=y+1 ∧ prev y=a+1 := by
  induction l generalizing back head with
  | nil => simp at ha
  | cons b l ih =>
    obtain ⟨hh,hb,ht⟩ := h
    obtain rfl | ha := List.mem_cons.mp ha
    · cases l with
      | nil => exact .inl ht
      | cons c l => exact .inr ⟨c,by simp,ht.1,ht.2.1⟩
    · obtain h0 | ⟨y,hy,hn,hp⟩ := ih ht ha
      · exact .inl h0
      · exact .inr ⟨y,List.mem_cons_of_mem _ hy,hn,hp⟩

theorem Chain.links_iff (h : Chain next prev 0 head l) (ha : a∈l) (hx : x∈l) :
    prev a=x+1 ↔ next x=a+1 := by
  constructor
  · intro hp
    obtain ⟨h0,_⟩ | ⟨y,_,hy,hn⟩ := h.before ha
    · omega
    · rwa [show x=y by omega]
  · intro hn
    obtain h0 | ⟨y,_,hy,hp⟩ := h.after hx
    · omega
    · rwa [show a=y by omega]

theorem Chain.first_iff (h : Chain next prev 0 head l) (ha : a∈l) : prev a=0 ↔ head=a+1 := by
  constructor
  · intro hp
    obtain ⟨_,hh⟩ | ⟨y,_,hy,_⟩ := h.before ha
    · exact hh
    · omega
  · intro hh
    cases l with
    | nil => simp at ha
    | cons b l =>
      have := h.1
      rw [show a=b by omega]
      exact h.2.1

theorem Chain.push (h : Chain next prev 0 head l) (hd : l.Nodup) (hna : next' a=head)
    (hpa : prev' a=0) (hn : ∀x∈l,next' x=next x)
    (hp : ∀x∈l,prev' x=if head=x+1 then a+1 else prev x) : Chain next' prev' 0 (a+1) (a::l) := by
  refine ⟨rfl,hpa,?_⟩
  rw [hna]
  cases l with
  | nil => exact h
  | cons b l =>
    obtain ⟨hh,hb,ht⟩ := h
    refine ⟨hh,?_,?_⟩
    · rw [hp b List.mem_cons_self,if_pos hh]
    · rw [hn b List.mem_cons_self]
      apply ht.congr
      · exact fun x hx => hn x (List.mem_cons_of_mem _ hx)
      · intro x hx
        have hne : b≠x := fun he => (List.nodup_cons.mp hd).1 (he ▸ hx)
        rw [hp x (List.mem_cons_of_mem _ hx),if_neg (by omega)]

theorem Chain.remove (h : Chain next prev back head l) (hd : l.Nodup) (ha : a∈l)
    (hn : ∀x∈l,x≠a → next' x=if next x=a+1 then next a else next x)
    (hp : ∀x∈l,x≠a → prev' x=if prev x=a+1 then prev a else prev x) (hb : back≠a+1) :
    Chain next' prev' back (if head=a+1 then next a else head) (l.erase a) := by
  induction l generalizing back head with
  | nil => simp at ha
  | cons b l ih =>
    obtain ⟨hh,hpb,ht⟩ := h
    obtain ⟨hbl,hd⟩ := List.nodup_cons.mp hd
    by_cases hba : b=a
    · subst hba
      rw [if_pos hh,List.erase_cons_head]
      cases l with
      | nil => exact ht
      | cons c l =>
        obtain ⟨hc,hpc,ht⟩ := ht
        have hcb : ∀x∈c::l,x≠b := fun x hx he => hbl (he ▸ hx)
        refine ⟨hc,?_,?_⟩
        · rw [hp c (by simp) (hcb c (by simp)),if_pos hpc,hpb]
        · have hnext : ∀x∈c::l,next' x=next x := by
            intro x hx
            rw [hn x (List.mem_cons_of_mem _ hx) (hcb x hx),if_neg]
            intro he
            obtain h0 | ⟨y,hy,hy1,hy2⟩ := Chain.after (l := c::l) ⟨hc,hpc,ht⟩ hx
            · omega
            · exact hcb y hy (by omega)
          rw [hnext c (by simp)]
          apply ht.congr
          · exact fun x hx => hnext x (List.mem_cons_of_mem _ hx)
          · intro x hx
            have hxc : x≠c := by
              intro he
              exact (List.nodup_cons.mp hd).1 (he ▸ hx)
            rw [hp x (by simp [hx]) (hcb x (by simp [hx])),if_neg]
            intro he
            obtain ⟨hpx,hnx⟩ | ⟨y,hy,hy1,hy2⟩ := ht.before hx
            · exact hcb c (by simp) (by omega)
            · exact hcb y (by simp [hy]) (by omega)
    · have hal : a∈l := (List.mem_cons.mp ha).resolve_left (Ne.symm hba)
      rw [if_neg (by omega),List.erase_cons_tail (by simpa using hba)]
      refine ⟨hh,?_,?_⟩
      · rw [hp b (by simp) hba,if_neg (by omega),hpb]
      · rw [hn b (by simp) hba]
        apply ih ht hd hal
        · exact fun x hx => hn x (List.mem_cons_of_mem _ hx)
        · exact fun x hx => hp x (List.mem_cons_of_mem _ hx)
        · omega

end LugalOS.Doubly
