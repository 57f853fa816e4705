import LugalOS.Lib.CString

/-! Readers: programs that take one field after another from a frame in memory. A reader says only
how long its next field is and what it does with the bytes; running it adds the addresses and the
bounds test. -/

namespace LugalOS.Frames

open CString

inductive Reader (α : Type) where
  | done (x : α)
  | refuse
  /-- A field of n bytes; the first `shown` of them are handed on as they are. -/
  | take (shown n : Nat) (k : Bytes → Reader α)

namespace Reader

variable {α β : Type}

def bind : Reader α → (α → Reader β) → Reader β
  | done x,f => f x
  | refuse,_ => refuse
  | take shown n k,f => take shown n fun b => (k b).bind f

instance : Monad Reader where
  pure := done
  bind := bind

end Reader

/-- Memory whose addresses are counted modulo width; 0 is no bound at all. -/
structure Memory where
  width : Nat
  byte : Nat → UInt8

def Memory.read (m : Memory) (p n : Nat) : Bytes :=
  (List.range n).map fun i => m.byte ((p+i)%m.width)

/-- Addresses up to stop do not wrap. -/
def Memory.Upto (m : Memory) (stop : Nat) : Prop := m.width=0 ∨ stop < m.width

theorem Memory.Upto.mod {m : Memory} {stop p : Nat} (h : m.Upto stop) (hp : p ≤ stop) :
    p%m.width=p := by
  rcases h with h | h
  · rw [h,Nat.mod_zero]
  · exact Nat.mod_eq_of_lt (by omega)

/-- Where a field lies and how much of it is handed on. -/
structure Field where
  pos : Nat
  len : Nat
  shown : Nat

/-- What is handed on lies from lo to hi. -/
def Field.Within (f : Field) (lo hi : Nat) : Prop := f.shown=0 ∨ lo≤f.pos ∧ f.pos+f.shown≤hi

namespace Reader

variable {α β : Type}

/-- Each field is tested against the end before it is read, by address. -/
def run (m : Memory) (stop : Nat) : Reader α → Nat → Option (α×Nat)
  | done x,p => some (x,p)
  | refuse,_ => none
  | take _ n k,p =>
    if stop<(p+n)%m.width then none else (k (m.read p n)).run m stop ((p+n)%m.width)

/-- The fields laid end to end from p, wherever they come to lie. -/
def fields (m : Memory) : Reader α → Nat → List Field
  | done _,_ => []
  | refuse,_ => []
  | take shown n k,p => ⟨p,n,min shown n⟩::(k (m.read p n)).fields m ((p+n)%m.width)

/-- No field that begins inside runs round the address space. -/
def Bounded (m : Memory) (stop : Nat) : Reader α → Nat → Prop
  | done _,_ => True
  | refuse,_ => True
  | take _ n k,p => p+n < m.width ∧ (p+n ≤ stop → (k (m.read p n)).Bounded m stop (p+n))

/-- Nothing is handed on. -/
def Silent : Reader α → Prop
  | done _ => True
  | refuse => True
  | take shown n k => min shown n=0 ∧ ∀b,(k b).Silent

/-- Reading r from p comes to reading r' from q. -/
def Leads {γ : Type} (m : Memory) (stop : Nat) (r : Reader α) (p : Nat) (r' : Reader γ) (q : Nat) : Prop :=
  ((r'.run m stop q).isSome → (r.run m stop p).isSome) ∧ ∀f∈r'.fields m q,f∈r.fields m p

theorem run_bind (m : Memory) (stop : Nat) (r : Reader α) (f : α → Reader β) (p : Nat) :
    (r.bind f).run m stop p=(r.run m stop p).bind fun x => (f x.1).run m stop x.2 := by
  induction r generalizing p with
  | done x | refuse => rfl
  | take shown n k ih =>
    simp only [bind,run]
    split_ifs
    · rfl
    · exact ih _ _

theorem within_of_bounded {m : Memory} {lo stop : Nat} (r : Reader α) (p : Nat) (hp : lo≤p)
    (h : r.Bounded m stop p) (hr : (r.run m stop p).isSome) :
    ∀f∈r.fields m p,f.Within lo stop := by
  induction r generalizing p with
  | done x | refuse => simp [fields]
  | take shown n k ih =>
    obtain ⟨hlt,hk⟩ := h
    rw [run,Nat.mod_eq_of_lt hlt] at hr
    rw [fields,Nat.mod_eq_of_lt hlt]
    split_ifs at hr with hend
    · simp at hr
    have hin : p+n ≤ stop := Nat.not_lt.mp hend
    rw [List.forall_mem_cons]
    exact ⟨.inr ⟨hp,(Nat.add_le_add_left (Nat.min_le_right _ _) _).trans hin⟩,
      ih _ (p+n) (Nat.le_add_right_of_le hp) (hk hin) hr⟩

theorem Silent.within {m : Memory} {lo stop : Nat} {r : Reader α} (h : r.Silent) (p : Nat) :
    ∀f∈r.fields m p,f.Within lo stop := by
  induction r generalizing p with
  | done x | refuse => simp [fields]
  | take shown n k ih =>
    rw [fields,List.forall_mem_cons]
    exact ⟨.inl h.1,ih _ (h.2 _) _⟩

theorem Silent.bind {r : Reader α} {f : α → Reader β} (h : r.Silent) (hf : ∀x,(f x).Silent) :
    (r.bind f).Silent := by
  induction r with
  | done x => exact hf x
  | refuse => trivial
  | take shown n k ih => exact ⟨h.1,fun b => ih b (h.2 b)⟩

theorem Bounded.bind {m : Memory} {stop p : Nat} {r : Reader α} {f : α → Reader β}
    (h : r.Bounded m stop p) (hf : ∀x q,r.run m stop p=some (x,q) → (f x).Bounded m stop q) :
    (r.bind f).Bounded m stop p := by
  induction r generalizing p with
  | done x => exact hf x p rfl
  | refuse => trivial
  | take shown n k ih =>
    refine ⟨h.1,fun hin => ih _ (h.2 hin) fun x q hx => hf x q ?_⟩
    rw [run,Nat.mod_eq_of_lt h.1,if_neg (Nat.not_lt.mpr hin)]
    exact hx

theorem Leads.refl {m : Memory} {stop : Nat} (r : Reader α) (p : Nat) : r.Leads m stop p r p :=
  ⟨id,fun _ h => h⟩

theorem Leads.take {m : Memory} {stop s n p q : Nat} {k : Bytes → Reader α} {r : Reader β}
    (hs : stop < m.width) (hn : p+n ≤ stop) (h : (k (m.read p n)).Leads m stop (p+n) r q) :
    (take s n k).Leads m stop p r q := by
  have hmod : (p+n)%m.width=p+n := Nat.mod_eq_of_lt (Nat.lt_of_le_of_lt hn hs)
  refine ⟨fun hr => ?_,fun f hf => ?_⟩
  · rw [run,hmod,if_neg (Nat.not_lt.mpr hn)]
    exact h.1 hr
  · rw [fields,hmod]
    exact List.mem_cons_of_mem _ (h.2 f hf)

theorem wraps_passes {m : Memory} {stop p n : Nat} (hp : p ≤ stop) (hs : stop < m.width)
    (hn : n < m.width) (hw : m.width≤p+n) : ¬stop<(p+n)%m.width := by
  rw [Nat.mod_eq_sub_mod hw,Nat.mod_eq_of_lt (by omega)]
  omega

def Stands (m : Memory) (p : Nat) (bs : Bytes) : Prop := m.read p bs.length=bs

/-- Where no address wraps, the reader takes exactly the bytes bs for x. -/
def Reads (r : Reader α) (x : α) (bs : Bytes) : Prop :=
  ∀ m stop p,Memory.Upto m stop → Stands m p bs → p+bs.length ≤ stop →
    r.run m stop p=some (x,p+bs.length)

theorem read_append (m : Memory) (p a b : Nat) :
    m.read p (a+b)=m.read p a++m.read (p+a) b := by
  simp only [Memory.read,List.range_add,List.map_append,List.map_map]
  congr 1
  exact List.map_congr_left fun i _ => by simp [Nat.add_assoc]

theorem read_length (m : Memory) (p n : Nat) : (m.read p n).length=n := by simp [Memory.read]

theorem stands_append {m : Memory} {p : Nat} {a b : Bytes}
    (h : Stands m p (a++b)) : Stands m p a ∧ Stands m (p+a.length) b := by
  unfold Stands at h ⊢
  rw [List.length_append,read_append m] at h
  exact List.append_inj h (read_length m p a.length)

theorem Reads.done (x : α) : Reads (done x) x [] := fun _ _ _ _ _ _ => rfl

theorem Reads.bind {r : Reader α} {f : α → Reader β} {x : α} {y : β} {a b : Bytes}
    (hr : Reads r x a) (hf : Reads (f x) y b) : Reads (r.bind f) y (a++b) := by
  intro m stop p hm hs hp
  obtain ⟨ha,hb⟩ := stands_append hs
  rw [List.length_append] at hp ⊢
  rw [run_bind,hr m stop p hm ha (by omega),Option.bind_some,
    hf m stop _ hm hb (by omega),Nat.add_assoc]

theorem Reads.take {c n : Nat} {k : Bytes → Reader α} {x : α} {a b : Bytes}
    (hn : a.length=n) (hk : Reads (k a) x b) : Reads (take c n k) x (a++b) := by
  subst hn
  intro m stop p hm hs hp
  obtain ⟨ha,hb⟩ := stands_append hs
  rw [List.length_append] at hp ⊢
  rw [run,hm.mod (by omega),if_neg (by omega),ha,hk m stop _ hm hb (by omega),Nat.add_assoc]

theorem Reads.map {r : Reader α} {x : α} {a : Bytes} (hr : Reads r x a) (f : α → β) :
    Reads (r.bind fun y => .done (f y)) (f x) a := by
  have h := hr.bind (f := fun y => Reader.done (f y)) (Reads.done (f x))
  rwa [List.append_nil] at h

/-- As many times as asked, one item after the other. -/
def replicate (n : Nat) (r : Reader α) : Reader (List α) :=
  match n with
  | 0 => .done []
  | n+1 => r.bind fun x => (replicate n r).bind fun xs => .done (x::xs)

theorem Silent.replicate {r : Reader α} (h : r.Silent) (n : Nat) : (replicate n r).Silent := by
  induction n with
  | zero => trivial
  | succ n ih => exact h.bind fun _ => ih.bind fun _ => trivial

theorem Reads.replicate {r : Reader α} {enc : α → Bytes} (xs : List α)
    (h : ∀x∈xs,Reads r x (enc x)) : Reads (replicate xs.length r) xs (xs.flatMap enc) := by
  induction xs with
  | nil => exact Reads.done []
  | cons x xs ih =>
    have hx := h x List.mem_cons_self
    have hxs := ih fun y hy => h y (List.mem_cons_of_mem _ hy)
    exact hx.bind (f := fun x => (Reader.replicate xs.length r).bind fun xs =>
      Reader.done (x::xs)) (hxs.map fun xs => x::xs)

end Reader

end LugalOS.Frames
