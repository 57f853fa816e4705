import LugalOS.Lib.Ring
import LugalOS.Kobj.Waiting

namespace LugalOS.Kobj

open Function (update)

variable {n : Nat} {ws ws' : Waiters n} {q : Queue n} {x : Fin n}

def Queue.ring (q : Queue n) : Ring Item q.len := ⟨q.buf,q.head,q.count⟩

/-- The items in the queue, the next one to be received first. -/
def Queue.items (q : Queue n) : List Item := q.ring.toList

/-- Receivers wait only where there is nothing to be had, senders only where there is no room. -/
structure Queue.Sound (ws : Waiters n) (q : Queue n) : Prop where
  rx : Threads ws q.rx (q.rx.members ws)
  tx : Threads ws q.tx (q.tx.members ws)
  apart : ∀x∈q.rx.members ws,x∉q.tx.members ws
  empty : q.rx.members ws≠[] → q.count=0
  full : q.tx.members ws≠[] → q.count=q.len
  room : q.count≤q.len
  head : q.head < q.len

/-- Those that wait on either side. -/
def Queue.members (q : Queue n) (ws : Waiters n) : List (Fin n) :=
  q.rx.members ws++q.tx.members ws

section Items

theorem Queue.length_items (q : Queue n) : q.items.length=q.count := Ring.length_toList _

theorem Queue.push_fields (q : Queue n) (item : Item) (front : Bool) :
    (q.push item front).len=q.len ∧ (q.push item front).count=q.count+1 ∧
      (q.push item front).rx=q.rx ∧ (q.push item front).tx=q.tx := by
  unfold Queue.push
  cases front <;> exact ⟨rfl,rfl,rfl,rfl⟩

theorem Queue.push_head (h : q.head < q.len) (item : Item) (front : Bool) :
    (q.push item front).head < (q.push item front).len := by
  unfold Queue.push
  cases front with
  | false => exact h
  | true => exact Nat.mod_lt _ (Nat.zero_lt_of_lt h)

theorem Queue.items_push (h : q.count < q.len) (item : Item) (front : Bool) :
    (q.push item front).items=if front then item::q.items else q.items++[item] := by
  unfold Queue.items
  cases front with
  | false => exact Ring.toList_push (r := q.ring) h item
  | true => exact Ring.toList_pushFront (r := q.ring) h item

/-- The queue once its first item is taken. -/
def Queue.popped (q : Queue n) : Queue n := {q with head := (q.head+1)%q.len,count := q.count-1}

theorem Queue.items_popped (h : q.count≠0) :
    q.items=q.buf (q.slot 0)::q.popped.items :=
  Ring.toList_pop (r := q.ring) h

theorem Queue.items_nil : q.items=[] ↔ q.count=0 := by
  rw [← List.length_eq_zero_iff,Queue.length_items]

end Items

section Operations

theorem Queue.Sound.congr (h : q.Sound ws) (hs : ∀x∈q.members ws,ws' x=ws x) :
    q.Sound ws' ∧ q.members ws'=q.members ws := by
  have hrx := h.rx.congr fun x hx => hs x (List.mem_append_left _ hx)
  have htx := h.tx.congr fun x hx => hs x (List.mem_append_right _ hx)
  refine ⟨⟨hrx.self,htx.self,?_,?_,?_,h.room,h.head⟩,?_⟩
  · rw [hrx.members,htx.members]
    exact h.apart
  · rw [hrx.members]
    exact h.empty
  · rw [htx.members]
    exact h.full
  · rw [Queue.members,hrx.members,htx.members]
    rfl

theorem Queue.Sound.receiving (h : q.Sound ws) : ∀x∈q.rx.members ws,(ws x).state=.wait :=
  h.rx.waiting

theorem Queue.Sound.sending (h : q.Sound ws) : ∀x∈q.tx.members ws,(ws x).state=.wait :=
  h.tx.waiting

theorem Queue.Sound.apart' (h : q.Sound ws) : ∀x∈q.tx.members ws,x∉q.rx.members ws :=
  fun x hx hx' => h.apart x hx' hx

/-- What a send does: it hands the item to the first receiver, puts it in the queue, is refused,
or waits with it. -/
theorem Queue.send_spec (h : q.Sound ws) {item : Item} {front : Bool} {w : Option (Fin n)}
    (hw : ∀x∈w,(ws x).state≠.wait) (who : Int) {r : Answer×Waiters n×Queue n}
    (hr : Queue.send ws q item front w who=r) :
    r.2.2.Sound r.2.1 ∧ Edit ws r.2.1 (q.members ws) (r.2.2.members r.2.1) ∧ r.2.2.len=q.len ∧
      ((∃x,q.rx.members ws=x::r.2.2.rx.members r.2.1 ∧
          r.2.2.tx.members r.2.1=q.tx.members ws ∧ r.1.ko=.ok ∧ (r.2.1 x).state=.grant ∧
          (r.2.1 x).item=item ∧ q.items=[] ∧ r.2.2.items=[]) ∨
        (q.rx.members ws=[] ∧ r.1.ko=.ok ∧ r.2.1=ws ∧ r.2.2.rx=q.rx ∧ r.2.2.tx=q.tx ∧
          r.2.2.items=if front then item::q.items else q.items++[item]) ∨
        (r.1.ko≠.ok ∧ r.1.ko≠.block ∧ r.2=(ws,q)) ∨
        (∃x∈w,r.1.ko=.block ∧ r.2.2.rx.members r.2.1=q.rx.members ws ∧
          r.2.2.tx.members r.2.1=q.tx.members ws++[x] ∧ (r.2.1 x).state=.wait ∧
          (r.2.1 x).item=item ∧ (r.2.1 x).all=front ∧ r.2.2.items=q.items)) := by
  subst hr
  unfold Queue.send
  cases hm : q.rx.members ws with
  | cons x m =>
    have hrx := h.rx
    rw [hm] at hrx
    obtain ⟨l',hpop,hth,hed,hx⟩ := serve_spec hrx
      (Eq.refl (update (ws.setNext x none) x
        {ws.setNext x none x with item := item,state := .grant})) fun hx => by cases hx
    have hcount : q.count=0 := h.empty (by rw [hm]; exact List.cons_ne_nil _ _)
    have hap : ∀y∈q.tx.members ws,y∉x::m := by
      rw [← hm]
      exact h.apart'
    have htx := hed.threads h.tx hap
    rw [hpop]
    dsimp only
    rw [Queue.members,Queue.members,hth.members,htx.members,hm]
    refine ⟨⟨hth.self,htx.self,?_,fun _ => hcount,?_,h.room,h.head⟩,
      hed.under_left hap h.sending,rfl,
      .inl ⟨x,rfl,rfl,rfl,by rw [hx],by rw [hx],Queue.items_nil.mpr hcount,
        Queue.items_nil.mpr hcount⟩⟩
    · dsimp only
      rw [hth.members,htx.members]
      exact fun y hy hy' => hap y hy' (List.mem_cons_of_mem _ hy)
    · dsimp only
      rw [htx.members]
      exact h.full
  | nil =>
    have hrx := h.rx
    rw [hm] at hrx
    rw [wlPop_none hrx]
    dsimp only
    by_cases hc : q.count < q.len
    · rw [if_pos hc]
      obtain ⟨hlen,hcount,hr',ht'⟩ := q.push_fields item front
      have htx : q.tx.members ws=[] := by
        by_contra hne
        have := h.full hne
        omega
      refine ⟨⟨?_,?_,?_,?_,?_,?_,Queue.push_head h.head item front⟩,?_,hlen,
        .inr (.inl ⟨rfl,rfl,rfl,hr',ht',Queue.items_push hc item front⟩)⟩
      · rw [hr']
        exact h.rx
      · rw [ht']
        exact h.tx
      · rw [hr',ht']
        exact h.apart
      · rw [hr']
        exact fun hne => absurd hm hne
      · rw [ht']
        exact fun hne => absurd htx hne
      · rw [hcount,hlen]
        exact hc
      · rw [Queue.members,Queue.members,hr',ht']
        exact .refl ws _
    · rw [if_neg hc]
      have hfull : q.count=q.len := by
        have := h.room
        omega
      cases w with
      | none => exact ⟨h,.refl ws _,rfl,
          .inr (.inr (.inl ⟨(fun hx => by cases hx),(fun hx => by cases hx),rfl⟩))⟩
      | some w =>
        set v := {ws w with item := item,all := front} with hv
        obtain ⟨hth,hed,hcw⟩ := enqueue_spec h.tx (hw w rfl) v rfl who
        dsimp only
        set ws' := (enqueue (update ws w v) q.tx w who).1 with hws
        have hrx' := hed.threads h.rx h.apart
        have hwr : w∉q.rx.members ws := fun hx => hw w rfl (h.receiving w hx)
        rw [Queue.members,Queue.members,hth.members,hrx'.members]
        refine ⟨⟨hrx'.self,hth.self,?_,?_,fun _ => hfull,h.room,h.head⟩,
          hed.under_right h.apart h.receiving,rfl,
          .inr (.inr (.inr ⟨w,rfl,rfl,hm,rfl,core_state hcw,?_,?_,rfl⟩))⟩
        · dsimp only
          rw [hrx'.members,hm]
          exact fun y hy => absurd hy List.not_mem_nil
        · dsimp only
          rw [hrx'.members,hm]
          exact fun hne => absurd rfl hne
        · exact show (ws' w).core.item=item from congrArg KWaiter.item hcw
        · exact show (ws' w).core.all=front from congrArg KWaiter.all hcw

theorem Queue.recv_some (hc : q.count > 0) (item : Item) (w : Option (Fin n)) (who : Int) :
    Queue.recv ws q item w who=match wlPop ws q.tx with
      | some (s,ws,tx) => ({item := q.buf (q.slot 0),wake := kwAdd [] (ws s).who},
          ws.setState s .grant,{q.popped.push (ws s).item (ws s).all with tx := tx})
      | none => ({item := q.buf (q.slot 0)},ws,q.popped) := if_pos hc

/-- What a receive does: it takes the first item, and lets the first sender in after it; or it
changes nothing; or it waits. -/
theorem Queue.recv_spec (h : q.Sound ws) {item : Item} {w : Option (Fin n)}
    (hw : ∀x∈w,(ws x).state≠.wait) (who : Int) {r : Answer×Waiters n×Queue n}
    (hr : Queue.recv ws q item w who=r) :
    r.2.2.Sound r.2.1 ∧ Edit ws r.2.1 (q.members ws) (r.2.2.members r.2.1) ∧ r.2.2.len=q.len ∧
      ((∃rest,q.items=r.1.item::rest ∧ r.1.ko=.ok ∧
          r.2.2.rx.members r.2.1=q.rx.members ws ∧
          ((q.tx.members ws=[] ∧ r.2.1=ws ∧ r.2.2.tx.members r.2.1=[] ∧ r.2.2.items=rest) ∨
            (∃x,q.tx.members ws=x::r.2.2.tx.members r.2.1 ∧ (r.2.1 x).state=.grant ∧
              r.2.2.items=if (ws x).all then (ws x).item::rest else rest++[(ws x).item]))) ∨
        (r.1.ko≠.ok ∧ r.1.ko≠.block ∧ r.2=(ws,q)) ∨
        (∃x∈w,r.1.ko=.block ∧ r.2.2.rx.members r.2.1=q.rx.members ws++[x] ∧
          r.2.2.tx.members r.2.1=q.tx.members ws ∧ (r.2.1 x).state=.wait ∧ q.items=[] ∧
          r.2.2.items=[])) := by
  subst hr
  by_cases hc : q.count > 0
  · rw [Queue.recv_some hc]
    have hne : q.count≠0 := Nat.ne_of_gt hc
    have hrx : q.rx.members ws=[] := by
      by_contra hx
      exact hne (h.empty hx)
    have hitems := Queue.items_popped hne
    have hpopped : q.popped.count < q.popped.len := by
      have := h.room
      change q.count-1 < q.len
      omega
    have hhead : q.popped.head < q.popped.len := Nat.mod_lt _ (Nat.zero_lt_of_lt h.head)
    cases hm : q.tx.members ws with
    | nil =>
      have htx := h.tx
      rw [hm] at htx
      rw [wlPop_none htx]
      refine ⟨⟨h.rx,h.tx,h.apart,fun hx => absurd hrx hx,fun hx => absurd hm hx,
        Nat.le_of_lt hpopped,hhead⟩,.refl ws _,rfl,
        .inl ⟨q.popped.items,hitems,rfl,rfl,.inl ⟨rfl,rfl,hm,rfl⟩⟩⟩
    | cons x m =>
      have htx := h.tx
      rw [hm] at htx
      obtain ⟨l',hpop,hth,hed,hx⟩ := serve_spec htx
        (Eq.refl ((ws.setNext x none).setState x .grant)) fun hx => by cases hx
      have hdata : (ws.setNext x none x).item=(ws x).item ∧
          (ws.setNext x none x).all=(ws x).all := by
        have hcore := setNext_core ws x none x
        exact ⟨show (ws.setNext x none x).core.item=(ws x).core.item from
            congrArg KWaiter.item hcore,
          show (ws.setNext x none x).core.all=(ws x).core.all from congrArg KWaiter.all hcore⟩
      have hap : ∀y∈q.rx.members ws,y∉x::m := by
        rw [← hm]
        exact h.apart
      have hrx' := hed.threads h.rx hap
      have hcount : q.count=q.len := h.full (by rw [hm]; exact List.cons_ne_nil _ _)
      rw [hpop]
      dsimp only
      rw [hdata.1,hdata.2]
      obtain ⟨hlen,hcnt,hpr,-⟩ := q.popped.push_fields (ws x).item (ws x).all
      set q' := q.popped.push (ws x).item (ws x).all with hq'
      have hrxq : q'.rx=q.rx := hpr
      have hlenq : q'.len=q.len := hlen
      have hcountq : q'.count=q.len := by
        rw [hcnt]
        change q.count-1+1=q.len
        omega
      have hpushed : {q' with tx := l'}.items=
          if (ws x).all then (ws x).item::q.popped.items else q.popped.items++[(ws x).item] :=
        Queue.items_push hpopped _ _
      have hmem : {q' with tx := l'}.members ((ws.setNext x none).setState x .grant)=
          q.rx.members ws++m := by
        rw [Queue.members]
        dsimp only
        rw [hth.members,hrxq,hrx'.members]
      refine ⟨⟨?_,hth.self,?_,?_,fun _ => ?_,?_,?_⟩,?_,hlenq,
        .inl ⟨q.popped.items,hitems,rfl,?_,.inr ⟨x,?_,?_,hpushed⟩⟩⟩
      · dsimp only
        rw [hrxq]
        exact hrx'.self
      · dsimp only
        rw [hrxq,hrx'.members,hrx]
        exact fun y hy => absurd hy List.not_mem_nil
      · dsimp only
        rw [hrxq,hrx'.members]
        exact fun hx => absurd hrx hx
      · dsimp only
        rw [hcountq,hlenq]
      · dsimp only
        rw [hcountq,hlenq]
      · exact Queue.push_head hhead _ _
      · rw [hmem,Queue.members,hm]
        exact hed.under_right hap h.receiving
      · rw [hrxq,hrx'.members]
      · rw [hth.members]
      · rw [hx]
  · unfold Queue.recv
    rw [if_neg hc]
    have hzero : q.count=0 := Nat.eq_zero_of_not_pos hc
    cases w with
    | none => exact ⟨h,.refl ws _,rfl,
        .inr (.inl ⟨(fun hx => by cases hx),(fun hx => by cases hx),rfl⟩)⟩
    | some w =>
      set v := {ws w with item := item} with hv
      obtain ⟨hth,hed,hcw⟩ := enqueue_spec h.rx (hw w rfl) v rfl who
      have htx : q.tx.members ws=[] := by
        by_contra hx
        have := h.full hx
        have := h.head
        omega
      have htx' := hed.threads h.tx h.apart'
      dsimp only
      rw [Queue.members,Queue.members,hth.members,htx'.members]
      refine ⟨⟨hth.self,htx'.self,?_,fun _ => hzero,?_,h.room,h.head⟩,
        hed.under_left h.apart' h.sending,rfl,
        .inr (.inr ⟨w,rfl,rfl,rfl,rfl,core_state hcw,Queue.items_nil.mpr hzero,
          Queue.items_nil.mpr hzero⟩)⟩
      · rw [htx'.members,htx]
        exact fun y _ => List.not_mem_nil
      · rw [htx'.members]
        exact fun hx => absurd htx hx

theorem Queue.drop_spec (h : q.Sound ws) {w : Fin n} (hw : w∈q.members ws)
    {r : Waiters n×Queue n} (hr : Queue.drop w ws q=r) :
    r.2.Sound (r.1.setState w .idle) ∧
      Edit ws (r.1.setState w .idle) (q.members ws) (r.2.members (r.1.setState w .idle)) ∧
      r.2.rx.members (r.1.setState w .idle)=(q.rx.members ws).erase w ∧
      r.2.tx.members (r.1.setState w .idle)=(q.tx.members ws).erase w ∧
      r.2.len=q.len ∧ r.2.items=q.items ∧ (r.1.setState w .idle w).state=.idle := by
  subst hr
  unfold Queue.drop
  by_cases hin : w∈q.rx.members ws
  · obtain ⟨x,hx,hth,hed,hidle⟩ := remove_spec h.rx hin
    have htx := hed.threads h.tx h.apart'
    have herase : (q.tx.members ws).erase w=q.tx.members ws :=
      List.erase_of_not_mem (h.apart w hin)
    rw [hx]
    dsimp only
    rw [Queue.members,Queue.members,hth.members,htx.members,herase]
    refine ⟨⟨hth.self,htx.self,?_,?_,?_,h.room,h.head⟩,hed.under_left h.apart' h.sending,rfl,rfl,
      rfl,rfl,hidle⟩
    · dsimp only
      rw [hth.members,htx.members]
      exact fun y hy => h.apart y (List.mem_of_mem_erase hy)
    · dsimp only
      rw [hth.members]
      exact fun hne => h.empty fun he => hne (by rw [he]; rfl)
    · dsimp only
      rw [htx.members]
      exact h.full
  · have hin' : w∈q.tx.members ws := (List.mem_append.mp hw).resolve_left hin
    obtain ⟨x,hx,hth,hed,hidle⟩ := remove_spec h.tx hin'
    have hrx := hed.threads h.rx h.apart
    have herase : (q.rx.members ws).erase w=q.rx.members ws := List.erase_of_not_mem hin
    rw [wlRemove_none h.rx hin,wlDrop,hx]
    dsimp only [Option.getD_some]
    rw [Queue.members,Queue.members,hth.members,hrx.members,herase]
    refine ⟨⟨hrx.self,hth.self,?_,?_,?_,h.room,h.head⟩,hed.under_right h.apart h.receiving,rfl,
      rfl,rfl,rfl,hidle⟩
    · dsimp only
      rw [hth.members,hrx.members]
      exact fun y hy hy' => h.apart y hy (List.mem_of_mem_erase hy')
    · dsimp only
      rw [hrx.members]
      exact h.empty
    · dsimp only
      rw [hth.members]
      exact fun hne => h.full fun he => hne (by rw [he]; rfl)

end Operations

end LugalOS.Kobj
