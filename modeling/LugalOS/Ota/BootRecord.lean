import Mathlib.Data.Fintype.Basic
import Mathlib.Tactic.FinCases
import LugalOS.Lib.Run

namespace LugalOS.Ota

open Function (update)

def crcBit (c : UInt32) : UInt32 := (c>>>1)^^^(0xedb88320 &&& (0-(c &&& 1)))

def crcByte (c : UInt32) (b : UInt8) : UInt32 := crcBit^[8] (c^^^b.toUInt32)

def otaCrc32 (data : List UInt8) : UInt32 := ~~~(data.foldl crcByte 0xffffffff)

def le32 (x : UInt32) : List UInt8 :=
  [x.toUInt8,(x>>>8).toUInt8,(x>>>16).toUInt8,(x>>>24).toUInt8]

def bootrecMagic : UInt32 := 0x42544f4c
def slotNone : UInt8 := 0xff
def allOnes : UInt32 := 0xffffffff

structure Bootrec where
  magic : UInt32
  seq : UInt32
  active : UInt8
  pending : UInt8
  pad : UInt8×UInt8
  crc : UInt32
  tried : UInt32
  failed : UInt32
  deriving DecidableEq,Repr

/-- The bytes before the CRC. -/
def Bootrec.covered (r : Bootrec) : List UInt8 :=
  le32 r.magic++le32 r.seq++[r.active,r.pending,r.pad.1,r.pad.2]

def otaBootrecValid (r : Option Bootrec) (nslots : Nat) : Bool :=
  match r with
  | none => false
  | some r => decide (r.magic=bootrecMagic ∧ r.crc=otaCrc32 r.covered ∧ r.active.toNat < nslots ∧
      (r.pending=slotNone ∨ r.pending.toNat < nslots))

/-- (int32_t)(b - a) > 0. -/
def seqAfter (b a : UInt32) : Bool := b-a≠0 && b-a < 0x80000000

def otaBootrecCurrent (rec : Fin 2 → Option Bootrec) (nslots : Nat) : Option (Fin 2) :=
  let v0 := otaBootrecValid (rec 0) nslots
  let v1 := otaBootrecValid (rec 1) nslots
  match rec 0,rec 1 with
  | some r0,some r1 =>
    if v0 && v1 then some (if seqAfter r1.seq r0.seq then 1 else 0)
    else if v0 then some 0 else if v1 then some 1 else none
  | _,_ => if v0 then some 0 else if v1 then some 1 else none

inductive MarkWord
  | tried
  | failed
  deriving DecidableEq,Repr

structure BootChoice where
  slot : UInt8
  trial : Bool
  fellBack : Bool
  current : Option (Fin 2)
  mark : Option (Fin 2×MarkWord)
  deriving DecidableEq,Repr

def otaBootChoose (rec : Fin 2 → Option Bootrec) (nslots : Nat) : BootChoice :=
  match otaBootrecCurrent rec nslots with
  | none => ⟨0,false,false,none,none⟩
  | some cur =>
    match rec cur with
    | none => ⟨0,false,false,none,none⟩
    | some r =>
      if r.pending=slotNone ∨ r.pending=r.active then ⟨r.active,false,false,some cur,none⟩
      else if r.tried=allOnes then ⟨r.pending,true,false,some cur,some (cur,.tried)⟩
      else ⟨r.active,false,true,some cur,if r.failed=allOnes then some (cur,.failed) else none⟩

def otaBootrecMake (seq : UInt32) (active pending : UInt8) : Bootrec :=
  let r : Bootrec := ⟨bootrecMagic,seq,active,pending,(0,0),0,allOnes,allOnes⟩
  {r with crc := otaCrc32 r.covered}

/-- A word written over one of the two that are not under the CRC. -/
def Bootrec.program (r : Bootrec) (w : MarkWord) (word : UInt32) : Bootrec :=
  match w with
  | .tried => {r with tried := word}
  | .failed => {r with failed := word}

abbrev Board := Fin 2 → Bootrec

def Board.current (b : Board) (nslots : Nat) : Option (Fin 2) :=
  otaBootrecCurrent (fun i => some (b i)) nslots

def Board.choose (b : Board) (nslots : Nat) : BootChoice :=
  otaBootChoose (fun i => some (b i)) nslots

/-- The mark a choice asks for, left as word. -/
def Board.mark (b : Board) (c : BootChoice) (word : UInt32) : Board :=
  match c.mark with
  | none => b
  | some (i,w) => update b i ((b i).program w word)

/-- write_record: the sector the current record is not in, and the next sequence number. -/
def Board.target (b : Board) (nslots : Nat) : Fin 2 :=
  if b.current nslots=some 0 then 1 else 0

def Board.nextSeq (b : Board) (nslots : Nat) : UInt32 :=
  match b.current nslots with
  | some cur => (b cur).seq+1
  | none => 1

inductive Event
  | boot (c : BootChoice)
  | cutBoot (c : BootChoice) (word : UInt32)
  | write (active pending : UInt8)
  | cutWrite
  deriving DecidableEq

/-- A boot marks the word its choice names, then enters the slot; a power cut leaves the mark with
any word, and the slot is not entered. A record is written whole, or its sector is left invalid. -/
inductive Step (nslots : Nat) : Board → Event → Board → Prop
  | boot {b : Board} : Step nslots b (.boot (b.choose nslots)) (b.mark (b.choose nslots) 0)
  | cutBoot {b : Board} {word : UInt32} :
      Step nslots b (.cutBoot (b.choose nslots) word) (b.mark (b.choose nslots) word)
  | write {b : Board} {active pending : UInt8} : active.toNat < nslots →
      pending=slotNone ∨ pending.toNat < nslots → Step nslots b (.write active pending)
        (update b (b.target nslots) (otaBootrecMake (b.nextSeq nslots) active pending))
  | cutWrite {b : Board} {r : Bootrec} : otaBootrecValid (some r) nslots=false →
      Step nslots b .cutWrite (update b (b.target nslots) r)

/-- How often a slot has been chosen as a trial since a record was last written whole, but for
choices that a power cut undid before anything of the mark was programmed. -/
def trials : List Event → Nat
  | [] => 0
  | .boot c::h => if c.trial then trials h+1 else trials h
  | .cutBoot c word::h => if c.trial ∧ word≠allOnes then trials h+1 else trials h
  | .write _ _::_ => 0
  | _::h => trials h

/-- active and pending of the record last written whole, or of the one there was at the start. -/
def lastRecord (start : Option (UInt8×UInt8)) : List Event → Option (UInt8×UInt8)
  | [] => start
  | .write active pending::_ => some (active,pending)
  | _::h => lastRecord start h

def Board.slots (b : Board) (nslots : Nat) : Option (UInt8×UInt8) :=
  (b.current nslots).map fun i => ((b i).active,(b i).pending)

section Records

variable {nslots : Nat}

theorem make_valid {seq : UInt32} {active pending : UInt8} (ha : active.toNat < nslots)
    (hp : pending=slotNone ∨ pending.toNat < nslots) :
    otaBootrecValid (some (otaBootrecMake seq active pending)) nslots=true := by
  rw [otaBootrecValid,decide_eq_true_eq]
  exact ⟨rfl,rfl,ha,hp⟩

theorem program_valid (r : Bootrec) (w : MarkWord) (word : UInt32) :
    otaBootrecValid (some (r.program w word)) nslots=otaBootrecValid (some r) nslots ∧
      (r.program w word).seq=r.seq ∧ (r.program w word).active=r.active ∧
      (r.program w word).pending=r.pending := by
  cases w <;> exact ⟨rfl,rfl,rfl,rfl⟩

theorem current_congr {s s' : Board} (h : ∀i,
    otaBootrecValid (some (s' i)) nslots=otaBootrecValid (some (s i)) nslots ∧
      (s' i).seq=(s i).seq) :
    s'.current nslots=s.current nslots := by
  simp only [Board.current,otaBootrecCurrent,(h 0).1,(h 1).1,(h 0).2,(h 1).2]

theorem seqAfter_succ (x : UInt32) : seqAfter (x+1) x=true ∧ seqAfter x (x+1)=false := by
  have h1 : x+1-x=1 := by grind
  have h2 : x-(x+1)=0xffffffff := by grind
  unfold seqAfter
  rw [h1,h2]
  decide

theorem current_valid {s : Board} {i : Fin 2}
    (h : s.current nslots=some i) :
    otaBootrecValid (some (s i)) nslots=true := by
  unfold Board.current otaBootrecCurrent at h
  dsimp only at h
  split_ifs at h with h1 h2 h3 h4
  all_goals obtain rfl := Option.some.inj h
  · simp only [Bool.and_eq_true] at h1
    exact h1.2
  · simp only [Bool.and_eq_true] at h1
    exact h1.1
  · exact h3
  · exact h4

theorem current_none {s : Board}
    (h : s.current nslots=none) (i : Fin 2) :
    otaBootrecValid (some (s i)) nslots=false := by
  unfold Board.current otaBootrecCurrent at h
  dsimp only at h
  split_ifs at h with h1 h2 h3
  fin_cases i
  · exact Bool.eq_false_iff.mpr h2
  · exact Bool.eq_false_iff.mpr h3

variable {b : Board}

theorem current_write {active pending : UInt8} (ha : active.toNat < nslots)
    (hp : pending=slotNone ∨ pending.toNat < nslots) :
    Board.current (update b (b.target nslots)
      (otaBootrecMake (b.nextSeq nslots) active pending)) nslots=some (b.target nslots) := by
  have hv : ∀seq,otaBootrecValid (some (otaBootrecMake seq active pending)) nslots=true :=
    fun _ => make_valid ha hp
  have hseq : ∀seq,(otaBootrecMake seq active pending).seq=seq := fun _ => rfl
  cases hc : b.current nslots with
  | none =>
    have h1 := current_none hc 1
    have ht : b.target nslots=0 := by simp [Board.target,hc]
    rw [ht]
    simp [Board.current,otaBootrecCurrent,hv,h1]
  | some cur =>
    have hcur := current_valid hc
    fin_cases cur
    · simp only [Fin.zero_eta] at hc hcur
      have ht : b.target nslots=1 := by simp [Board.target,hc]
      have hn : b.nextSeq nslots=(b 0).seq+1 := by simp [Board.nextSeq,hc]
      rw [ht,hn]
      simp [Board.current,otaBootrecCurrent,hv,hcur,hseq,seqAfter_succ]
    · simp only [Fin.mk_one] at hc hcur
      have ht : b.target nslots=0 := by simp [Board.target,hc]
      have hn : b.nextSeq nslots=(b 1).seq+1 := by simp [Board.nextSeq,hc]
      rw [ht,hn]
      simp [Board.current,otaBootrecCurrent,hv,hcur,hseq,seqAfter_succ]

theorem current_cut {r : Bootrec} (hr : otaBootrecValid (some r) nslots=false) :
    Board.current (update b (b.target nslots) r) nslots=b.current nslots := by
  cases hc : b.current nslots with
  | none =>
    have h1 := current_none hc 1
    have ht : b.target nslots=0 := by simp [Board.target,hc]
    rw [ht]
    simp [Board.current,otaBootrecCurrent,hr,h1]
  | some cur =>
    have hcur := current_valid hc
    fin_cases cur
    · simp only [Fin.zero_eta] at hc hcur ⊢
      have ht : b.target nslots=1 := by simp [Board.target,hc]
      rw [ht]
      simp [Board.current,otaBootrecCurrent,hr,hcur]
    · simp only [Fin.mk_one] at hc hcur ⊢
      have ht : b.target nslots=0 := by simp [Board.target,hc]
      rw [ht]
      simp [Board.current,otaBootrecCurrent,hr,hcur]

theorem target_ne {cur : Fin 2} (h : b.current nslots=some cur) :
    cur≠b.target nslots := by
  fin_cases cur <;> simp [Board.target,h]

theorem mark_kept (c : BootChoice) (word : UInt32) :
    (b.mark c word).current nslots=b.current nslots ∧
      ∀i,(b.mark c word i).active=(b i).active ∧
        (b.mark c word i).pending=(b i).pending := by
  unfold Board.mark
  cases c.mark with
  | none => exact ⟨rfl,fun _ => ⟨rfl,rfl⟩⟩
  | some m =>
    obtain ⟨j,w⟩ := m
    have hall : ∀i,otaBootrecValid (some (update b j ((b j).program w word) i)) nslots=
        otaBootrecValid (some (b i)) nslots ∧
        (update b j ((b j).program w word) i).seq=(b i).seq ∧
        (update b j ((b j).program w word) i).active=(b i).active ∧
        (update b j ((b j).program w word) i).pending=(b i).pending := by
      intro i
      by_cases hi : i=j
      · subst hi
        rw [Function.update_self]
        exact program_valid _ w word
      · rw [Function.update_of_ne hi]
        exact ⟨rfl,rfl,rfl,rfl⟩
    exact ⟨current_congr fun i => ⟨(hall i).1,(hall i).2.1⟩,fun i => (hall i).2.2⟩

end Records

section Trials

open Run

variable {nslots : Nat} {b b' : Board} {h : List Event} {start : Option (UInt8×UInt8)}

theorem choose_none (hc : b.current nslots=none) : b.choose nslots=⟨0,false,false,none,none⟩ := by
  have hc' : otaBootrecCurrent (fun i => some (b i)) nslots=none := hc
  simp [Board.choose,otaBootChoose,hc']

theorem choose_some {i : Fin 2} (hc : b.current nslots=some i) :
    b.choose nslots=
      if (b i).pending=slotNone ∨ (b i).pending=(b i).active then
        ⟨(b i).active,false,false,some i,none⟩
      else if (b i).tried=allOnes then ⟨(b i).pending,true,false,some i,some (i,.tried)⟩
      else ⟨(b i).active,false,true,some i,
        if (b i).failed=allOnes then some (i,.failed) else none⟩ := by
  have hc' : otaBootrecCurrent (fun i => some (b i)) nslots=some i := hc
  simp only [Board.choose,otaBootChoose,hc']

/-- The record in force is the one last written whole, and once its trial has been entered its
tried word is no longer all ones. -/
structure Kept (nslots : Nat) (start : Option (UInt8×UInt8)) (h : List Event) (b : Board) :
    Prop where
  slots : b.slots nslots=lastRecord start h
  once : trials h≤1
  entered : trials h≠0 → ∃i,b.current nslots=some i ∧ (b i).pending≠slotNone ∧
    (b i).pending≠(b i).active ∧ (b i).tried≠allOnes

theorem slots_mark (c : BootChoice) (word : UInt32) :
    (b.mark c word).slots nslots=b.slots nslots := by
  obtain ⟨hc,hs⟩ := mark_kept (b := b) c word
  unfold Board.slots
  rw [hc]
  cases b.current nslots with
  | none => rfl
  | some i => simp only [Option.map_some,(hs i).1,(hs i).2]

theorem tried_mark {i : Fin 2} {c : BootChoice} (word : UInt32) (hc : ∀j,c.mark≠some (j,.tried)) :
    (b.mark c word i).tried=(b i).tried := by
  unfold Board.mark
  cases hm : c.mark with
  | none => rfl
  | some m =>
    obtain ⟨j,w⟩ := m
    cases w with
    | tried => exact absurd hm (hc j)
    | failed =>
      by_cases hi : i=j
      · subst hi
        simp [Bootrec.program]
      · simp [hi]

theorem choose_entered {i : Fin 2} (hc : b.current nslots=some i) (hp : (b i).pending≠slotNone)
    (ha : (b i).pending≠(b i).active) (ht : (b i).tried≠allOnes) :
    (b.choose nslots).slot=(b i).active ∧ (b.choose nslots).trial=false ∧
      (b.choose nslots).fellBack=true ∧ ∀j,(b.choose nslots).mark≠some (j,.tried) := by
  rw [choose_some hc,if_neg (not_or.mpr ⟨hp,ha⟩),if_neg ht]
  refine ⟨rfl,rfl,rfl,?_⟩
  intro j hj
  dsimp only at hj
  split_ifs at hj
  cases hj

theorem choose_trial (ht : (b.choose nslots).trial=true) :
    ∃i,b.current nslots=some i ∧ (b.choose nslots).slot=(b i).pending ∧
      (b i).pending≠slotNone ∧ (b i).pending≠(b i).active ∧ (b i).tried=allOnes ∧
      (b.choose nslots).mark=some (i,.tried) := by
  cases hc : b.current nslots with
  | none =>
    rw [choose_none hc] at ht
    cases ht
  | some i =>
    rw [choose_some hc] at ht ⊢
    split_ifs at ht ⊢ with h1 h2
    exact ⟨i,rfl,rfl,(not_or.mp h1).1,(not_or.mp h1).2,h2,rfl⟩

theorem Kept.marked {e : Event} {word : UInt32} (hk : Kept nslots start h b)
    (hl : lastRecord start (e::h)=lastRecord start h)
    (ht : trials (e::h)=if (b.choose nslots).trial ∧ word≠allOnes then trials h+1 else trials h) :
    Kept nslots start (e::h) (b.mark (b.choose nslots) word) := by
  obtain ⟨hcur,hslots⟩ := mark_kept (b.choose nslots) word
  have hsl := ((slots_mark (b.choose nslots) word).trans hk.slots).trans hl.symm
  by_cases htr : (b.choose nslots).trial=true ∧ word≠allOnes
  · rw [if_pos htr] at ht
    obtain ⟨i,hc,-,hp,ha,hones,hm⟩ := choose_trial htr.1
    have h0 : trials h=0 := by
      by_contra hne
      obtain ⟨j,hj,-,-,hjt⟩ := hk.entered hne
      obtain rfl := Option.some.inj (hc.symm.trans hj)
      exact hjt hones
    refine ⟨hsl,by omega,fun _ => ⟨i,hcur.trans hc,?_⟩⟩
    have hword : (b.mark (b.choose nslots) word i).tried=word := by
      simp [Board.mark,hm,Bootrec.program]
    rw [(hslots i).1,(hslots i).2,hword]
    exact ⟨hp,ha,htr.2⟩
  · rw [if_neg htr] at ht
    refine ⟨hsl,ht ▸ hk.once,fun hne => ?_⟩
    obtain ⟨i,hc,hp,ha,htried⟩ := hk.entered (ht ▸ hne)
    refine ⟨i,hcur.trans hc,?_⟩
    rw [(hslots i).1,(hslots i).2,tried_mark word (choose_entered hc hp ha htried).2.2.2]
    exact ⟨hp,ha,htried⟩

theorem Kept.step {e : Event} (hk : Kept nslots start h b) (hs : Step nslots b e b') :
    Kept nslots start (e::h) b' := by
  cases hs with
  | boot =>
    refine hk.marked rfl ?_
    simp [trials,show (0 : UInt32)≠allOnes by decide]
  | cutBoot => exact hk.marked rfl rfl
  | @write active pending hact hpend =>
    have hc := current_write (b := b) hact hpend
    refine ⟨?_,Nat.zero_le _,fun hne => absurd rfl hne⟩
    unfold Board.slots
    rw [hc,Option.map_some,Function.update_self]
    rfl
  | @cutWrite r hr =>
    have hc := current_cut (b := b) hr
    have hold : ∀i,b.current nslots=some i → update b (b.target nslots) r i=b i := fun i hi =>
      Function.update_of_ne (target_ne hi) _ _
    refine ⟨?_,hk.once,?_⟩
    · change Board.slots _ nslots=lastRecord start h
      rw [← hk.slots]
      unfold Board.slots
      rw [hc]
      cases hi : b.current nslots with
      | none => rfl
      | some i => simp only [Option.map_some,hold i hi]
    · intro hne
      obtain ⟨i,hi,hrest⟩ := hk.entered hne
      exact ⟨i,hc.trans hi,by rw [hold i hi]; exact hrest⟩

/-- Every boot chooses the active slot of the record last written whole, or its pending slot as a
trial, at most once for a record and with its tried word cleared before the slot is entered. After
a trial every boot falls back until a record is written. -/
theorem boot_trials {b₀ : Board} (hr : Reach (Step nslots) b₀ h b) :
    trials h≤1 ∧
      ((b.choose nslots).trial=false → (b.choose nslots).slot=
        ((lastRecord (b₀.slots nslots) h).map Prod.fst).getD 0) ∧
      ((b.choose nslots).trial=true → trials h=0 ∧
        (lastRecord (b₀.slots nslots) h).map Prod.snd=some (b.choose nslots).slot ∧
        ∃i,b.current nslots=some i ∧ (b.choose nslots).mark=some (i,.tried) ∧
          (b.mark (b.choose nslots) 0 i).tried=0) ∧
      (trials h≠0 → (b.choose nslots).trial=false ∧ (b.choose nslots).fellBack=true) := by
  have hk : Kept nslots (b₀.slots nslots) h b := by
    refine hr.invariant (fun h b => Kept nslots (b₀.slots nslots) h b) ?_ ?_
    · exact ⟨rfl,Nat.zero_le _,fun hne => absurd rfl hne⟩
    · exact fun h b e b' hk hs => hk.step hs
  rw [← hk.slots]
  refine ⟨hk.once,?_,?_,?_⟩
  · intro ht
    cases hc : b.current nslots with
    | none => simp [choose_none hc,Board.slots,hc]
    | some i =>
      rw [choose_some hc] at ht ⊢
      split_ifs at ht ⊢ <;> simp [Board.slots,hc]
  · intro ht
    obtain ⟨i,hc,hslot,-,-,hones,hm⟩ := choose_trial ht
    refine ⟨?_,?_,i,hc,hm,by simp [Board.mark,hm,Bootrec.program]⟩
    · by_contra hne
      obtain ⟨j,hj,-,-,hjt⟩ := hk.entered hne
      obtain rfl := Option.some.inj (hc.symm.trans hj)
      exact hjt hones
    · simp [Board.slots,hc,hslot]
  · intro hne
    obtain ⟨i,hc,hp,ha,ht⟩ := hk.entered hne
    obtain ⟨-,h1,h2,-⟩ := choose_entered hc hp ha ht
    exact ⟨h1,h2⟩

/-- Both sectors erased, as a new board has them. -/
def erased : Board := fun _ => ⟨allOnes,allOnes,0xff,0xff,(0xff,0xff),allOnes,allOnes,allOnes⟩

/-- Slot 1 is pending, and was not tried. -/
def updated : Board := update erased 0 (otaBootrecMake 1 0 1)

def updatedChoice : BootChoice := ⟨1,true,false,some 0,some (0,.tried)⟩

theorem updated_choose : updated.choose 2=updatedChoice := by decide +kernel

theorem updated_step : Step 2 erased (.write 0 1) updated := by
  have ht : erased.target 2=0 := by decide +kernel
  have hn : erased.nextSeq 2=1 := by decide +kernel
  have hs : Step 2 erased (.write 0 1) _ := Step.write (by decide) (.inr (by decide))
  rwa [ht,hn] at hs

/-- The trial of an update. -/
theorem boot_trials_update : trials [.boot updatedChoice,.write 0 1]≤1 := by
  have h1 := Reach.start.next updated_step
  have hb : Step 2 updated (.boot _) _ := Step.boot
  rw [updated_choose] at hb
  exact (boot_trials (h1.next hb)).1

end Trials

end LugalOS.Ota
