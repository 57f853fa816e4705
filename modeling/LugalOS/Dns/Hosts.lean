import Mathlib.Data.List.TakeWhile
import LugalOS.Dns.Reply

namespace LugalOS.Dns

open CString

/-- ipv4_parse from the place it has come to: the parts so far, and the digits of the next. -/
def ipv4Parts : List UInt8 → Nat → Nat → Bytes → Option (List UInt8)
  | out,val,digits,[] => if digits=0 ∨ 3 < out.length then none else some (out++[val.toUInt8])
  | out,val,digits,c::s =>
    if 48≤c ∧ c≤57 then
      if 3 < digits+1 ∨ 255 < val*10+(c-48).toNat then none
      else ipv4Parts out (val*10+(c-48).toNat) (digits+1) s
    else if c=46 then
      if digits=0 ∨ 3 < out.length then none else ipv4Parts (out++[val.toUInt8]) 0 0 s
    else none

def ipv4Parse (s : Bytes) : Option Ip :=
  match ipv4Parts [] 0 0 s with
  | some [a,b,c,d] => some (.ofBytes a b c d)
  | _ => none

def isBlank (c : UInt8) : Bool := c=32 || c=9
def hash : UInt8 := 35

def isText (c : UInt8) : Bool := c≠hash

/-- The loop over the names of a line. -/
def hostNames (addr name : Bytes) : Nat → Bytes → Option Ip
  | 0,_ => none
  | n+1,p =>
    let p := p.dropWhile isBlank
    if p=[] ∨ p.head?=some hash then none
    else
      let h := p.takeWhile fun c => !isBlank c && isText c
      let rest := p.drop h.length
      match if h=name then ipv4Parse addr else none with
      | some ip => some ip
      | none => if rest=[] ∨ rest.head?=some hash then none else hostNames addr name n (rest.drop 1)

def hostLine (name line : Bytes) : Option Ip :=
  let p := line.dropWhile isBlank
  if p=[] ∨ p.head?=some hash then none
  else
    let addr := p.takeWhile fun c => !isBlank c
    let rest := p.drop addr.length
    if rest=[] then none else hostNames addr name line.length (rest.drop 1)

/-- A string as far as its first NUL. -/
def cstr (s : Bytes) : Bytes := s.takeWhile fun c => c≠0

/-- The bytes of a hosts file one after the other, after the first bytes of a line. -/
def hostsScan (name : Bytes) : Bytes → Bytes → Option Ip
  | _,[] => none
  | line,c::s =>
    if c=13 then hostsScan name line s
    else if c=10 then
      match hostLine name (cstr line) with
      | some ip => some ip
      | none => hostsScan name [] s
    else hostsScan name (if line.length<127 then line++[c] else line) s

/-- check_hosts_file of the bytes it can read, if the file can be opened. -/
def checkHostsFile (file : Option Bytes) (name : Bytes) : Option Ip :=
  match file with
  | none => none
  | some s => hostsScan name [] s

/-- The word stands in the text between blanks. -/
def HasWord (s w : Bytes) : Prop :=
  ∃ pre post,s=pre++(w++post) ∧ w≠[] ∧ (∀c∈w,isBlank c=false) ∧
    (∀c,pre.getLast?=some c → isBlank c=true) ∧ ∀c,post.head?=some c → isBlank c=true

/-- Before any comment there is an address and, after it, the name among others. -/
def HostLine (line name : Bytes) (ip : Ip) : Prop :=
  ∃ lead addr b rest,line.takeWhile isText=lead++(addr++b::rest) ∧
    (∀c∈lead,isBlank c=true) ∧ (∀c∈addr,isBlank c=false) ∧ isBlank b=true ∧
    ipv4Parse addr=some ip ∧ HasWord rest name

theorem HasWord.behind {s w : Bytes} (h : HasWord s w) (pre : Bytes) {b : UInt8}
    (hb : isBlank b=true) : HasWord (pre++b::s) w := by
  obtain ⟨as,post,rfl,hne,hw,hl,hr⟩ := h
  refine ⟨pre++b::as,post,by simp,hne,hw,fun c hc => ?_,hr⟩
  rw [List.getLast?_append] at hc
  cases as with
  | nil =>
    obtain rfl : b=c := by simpa using hc
    exact hb
  | cons a as =>
    refine hl c ?_
    rw [List.getLast?_cons_cons] at hc
    cases ha : (a::as).getLast? with
    | none => simp at ha
    | some x =>
      rw [ha] at hc
      exact hc

theorem isText_blank {c : UInt8} (h : isBlank c=true) : isText c=true := by
  rw [isText,decide_eq_true_eq]
  rintro rfl
  exact absurd h (by decide)

theorem takeWhile_split (p : UInt8 → Bool) (s : Bytes) : ∃rest,s=s.takeWhile p++rest ∧
    s.drop (s.takeWhile p).length=rest ∧ (∀c∈s.takeWhile p,p c=true) ∧
    ∀c,rest.head?=some c → p c=false := by
  have h := List.takeWhile_append_dropWhile (p := p) (l := s)
  refine ⟨s.dropWhile p,h.symm,?_,fun _ hc => List.mem_takeWhile_imp hc,fun c hc => ?_⟩
  · have := congrArg (List.drop (s.takeWhile p).length) h
    rw [List.drop_left] at this
    exact this.symm
  · have := List.head?_dropWhile_not p s
    rw [hc] at this
    exact this

theorem dropWhile_split (p : UInt8 → Bool) (s : Bytes) : ∃as,s=as++s.dropWhile p ∧ ∀c∈as,p c=true :=
  ⟨s.takeWhile p,List.takeWhile_append_dropWhile.symm,fun _ hc => List.mem_takeWhile_imp hc⟩

theorem hostNames_spec {addr name p : Bytes} {n : Nat} {ip : Ip}
    (h : hostNames addr name n p=some ip) :
    ipv4Parse addr=some ip ∧ HasWord (p.takeWhile isText) name := by
  induction n generalizing p with
  | zero => cases h
  | succ n ih =>
    rw [hostNames] at h
    dsimp only at h
    obtain ⟨lead,hp,hlead⟩ := dropWhile_split isBlank p
    have hstart := List.head?_dropWhile_not isBlank p
    generalize p.dropWhile isBlank=q at h hp hstart
    subst hp
    rw [List.takeWhile_append_of_pos fun c hc => isText_blank (hlead c hc)]
    by_cases hno : q=[] ∨ q.head?=some hash
    · rw [if_pos hno] at h
      cases h
    · rw [if_neg hno] at h
      obtain ⟨hne,hhash⟩ := not_or.mp hno
      obtain ⟨rest,hq,hdrop,hword,hstop⟩ :=
        takeWhile_split (fun c => !isBlank c && isText c) q
      rw [hdrop] at h
      generalize hw : q.takeWhile (fun c => !isBlank c && isText c)=w at h hq hword
      have hwords : ∀c∈w,isBlank c=false ∧ isText c=true := by
        intro c hc
        have := hword c hc
        rw [Bool.and_eq_true,Bool.not_eq_true'] at this
        exact this
      have hwne : w≠[] := by
        rintro rfl
        rw [List.nil_append] at hq
        subst hq
        cases q with
        | nil => exact hne rfl
        | cons c cs =>
          have := hstop c rfl
          rw [List.head?_cons] at hstart hhash
          rw [show isBlank c=false from hstart] at this
          exact hhash (congrArg some (by simpa [isText] using this))
      subst hq
      rw [List.takeWhile_append_of_pos fun c hc => (hwords c hc).2]
      -- the word itself, or one behind the next blank
      have hself : w=name → HasWord (lead++(w++rest.takeWhile isText)) name := by
        rintro rfl
        refine ⟨lead,_,rfl,hwne,fun c hc => (hwords c hc).1,fun c hc =>
          hlead c (List.mem_of_getLast? hc),fun c hc => ?_⟩
        cases rest with
        | nil => cases hc
        | cons r rs =>
          have := hstop r rfl
          rw [List.takeWhile_cons] at hc
          split_ifs at hc with hr
          · obtain rfl : r=c := Option.some.inj hc
            rw [hr,Bool.and_true,Bool.not_eq_false'] at this
            exact this
          · cases hc
      cases hm : (if w=name then ipv4Parse addr else none) with
      | some v =>
        rw [hm] at h
        obtain rfl : v=ip := Option.some.inj h
        split_ifs at hm with hwn
        exact ⟨hm,hself hwn⟩
      | none =>
        rw [hm] at h
        dsimp only at h
        by_cases hend : rest=[] ∨ rest.head?=some hash
        · rw [if_pos hend] at h
          cases h
        · rw [if_neg hend] at h
          obtain ⟨hrne,hrhash⟩ := not_or.mp hend
          obtain ⟨r,rs,rfl⟩ := List.exists_cons_of_ne_nil hrne
          have hrb : isBlank r=true := by
            have := hstop r rfl
            have hrh : isText r=true := by
              rw [isText,decide_eq_true_eq]
              rintro rfl
              exact hrhash rfl
            rw [hrh,Bool.and_true,Bool.not_eq_false'] at this
            exact this
          obtain ⟨h1,h2⟩ := ih h
          refine ⟨h1,?_⟩
          rw [List.takeWhile_cons_of_pos (isText_blank hrb),← List.append_assoc]
          exact h2.behind _ hrb

theorem ipv4Parts_chars {out r : List UInt8} {val digits : Nat} {s : Bytes}
    (h : ipv4Parts out val digits s=some r) {c : UInt8} (hc : c∈s) : 48≤c ∧ c≤57 ∨ c=46 := by
  induction s generalizing out val digits with
  | nil => exact absurd hc List.not_mem_nil
  | cons x s ih =>
    rw [ipv4Parts] at h
    rcases List.mem_cons.mp hc with rfl | hc
    · by_contra hno
      obtain ⟨h1,h2⟩ := not_or.mp hno
      rw [if_neg h1,if_neg h2] at h
      cases h
    · split_ifs at h
      · exact ih h hc
      · exact ih h hc

theorem ipv4Parse_text {s : Bytes} {ip : Ip} (h : ipv4Parse s=some ip) {c : UInt8} (hc : c∈s) :
    isText c=true := by
  rw [ipv4Parse] at h
  rw [isText,decide_eq_true_eq]
  rintro rfl
  split at h
  · rename_i hp
    exact absurd (ipv4Parts_chars hp hc) (by decide)
  · cases h

theorem hostLine_spec {name line : Bytes} {ip : Ip} (h : hostLine name line=some ip) :
    HostLine line name ip := by
  rw [hostLine] at h
  dsimp only at h
  obtain ⟨lead,hp,hlead⟩ := dropWhile_split isBlank line
  generalize hlen : line.length=n at h
  generalize line.dropWhile isBlank=q at h hp
  subst hp
  by_cases hno : q=[] ∨ q.head?=some hash
  · rw [if_pos hno] at h
    cases h
  · rw [if_neg hno] at h
    obtain ⟨rest,hq,hdrop,hword,hstop⟩ := takeWhile_split (fun c => !isBlank c) q
    rw [hdrop] at h
    generalize q.takeWhile (fun c => !isBlank c)=w at h hq hword
    by_cases hend : rest=[]
    · rw [if_pos hend] at h
      cases h
    · rw [if_neg hend] at h
      obtain ⟨b,rs,rfl⟩ := List.exists_cons_of_ne_nil hend
      have hb : isBlank b=true := by simpa using hstop b rfl
      obtain ⟨h1,h2⟩ := hostNames_spec h
      refine ⟨lead,w,b,rs.takeWhile isText,?_,hlead,fun c hc => by simpa using hword c hc,hb,h1,h2⟩
      rw [hq,List.takeWhile_append_of_pos fun c hc => isText_blank (hlead c hc),
        List.takeWhile_append_of_pos fun c hc => ipv4Parse_text h1 hc,
        List.takeWhile_cons_of_pos (isText_blank hb)]

/-- The lines of a text that are ended, after the first bytes of one. -/
def endedLines : Bytes → Bytes → List Bytes
  | _,[] => []
  | line,c::s => if c=10 then line::endedLines [] s else endedLines (line++[c]) s

/-- The lines of a hosts file, without carriage returns. -/
def hostsLines (file : Bytes) : List Bytes := endedLines [] (file.filter fun c => c≠13)

theorem hostsScan_spec {name line w s : Bytes} {ip : Ip} (hw : line=w.take 127)
    (h : hostsScan name line s=some ip) : ∃l∈endedLines w (s.filter fun c => c≠13),
      hostLine name (cstr (l.take 127))=some ip := by
  induction s generalizing line w with
  | nil => cases h
  | cons c s ih =>
    rw [hostsScan] at h
    by_cases hcr : c=13
    · rw [if_pos hcr] at h
      rw [List.filter_cons_of_neg (by simpa using hcr)]
      exact ih hw h
    · rw [if_neg hcr] at h
      rw [List.filter_cons_of_pos (by simpa using hcr),endedLines]
      by_cases hlf : c=10
      · rw [if_pos hlf] at h ⊢
        cases hl : hostLine name (cstr line) with
        | some v =>
          rw [hl] at h
          obtain rfl : v=ip := Option.some.inj h
          exact ⟨w,List.mem_cons_self,hw ▸ hl⟩
        | none =>
          rw [hl] at h
          obtain ⟨l,hm,hr⟩ := ih (w := []) rfl h
          exact ⟨l,List.mem_cons_of_mem _ hm,hr⟩
      · rw [if_neg hlf] at h ⊢
        refine ih ?_ h
        by_cases hroom : w.length<127
        · rw [if_pos (by rw [hw,List.length_take]; omega),hw,List.take_of_length_le hroom.le,
            List.take_of_length_le (by rw [List.length_append,List.length_singleton]; omega)]
        · rw [if_neg (by rw [hw,List.length_take]; omega),hw,List.take_append_of_le_length (by omega)]

/-- A hosts file whose lines fit answers for the names that stand in it, and for no others. -/
theorem checkHostsFile_spec {file : Option Bytes} {name : Bytes} {ip : Ip}
    (h : checkHostsFile file name=some ip) :
    ∃s,file=some s ∧ ((∀l∈hostsLines s,l.length<128) → ∃l∈hostsLines s,HostLine (cstr l) name ip) := by
  cases file with
  | none => cases h
  | some s =>
    refine ⟨s,rfl,fun hfit => ?_⟩
    obtain ⟨l,hm,hl⟩ := hostsScan_spec (w := []) rfl h
    rw [List.take_of_length_le (Nat.le_of_lt_succ (hfit l hm))] at hl
    exact ⟨l,hm,hostLine_spec hl⟩

end LugalOS.Dns
