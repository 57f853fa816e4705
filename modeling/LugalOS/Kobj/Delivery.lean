import LugalOS.Lib.Deque
import LugalOS.Kobj.Sharing

namespace LugalOS.Kobj

open Function (update)
open Run Deque

variable {n : Nat}

namespace Objects

def queue (k : Objects n) (i : Nat) : Queue n := (k.tab .queue i).obj

/-- The receivers that wait at the queue in a slot, the one that came first first. -/
def rx (k : Objects n) (i : Nat) : List (Fin n) :=
  if (k.tab .queue i).used then (k.queue i).rx.members k.ws else []

def tx (k : Objects n) (i : Nat) : List (Fin n) :=
  if (k.tab .queue i).used then (k.queue i).tx.members k.ws else []

end Objects

/-- The items that the operation has had accepted, with their front flags: that of a send that
returns, and those of the senders whose waits it has granted. -/
def Event.accepted (e : Event n) (i : Nat) : List (Item×Bool) :=
  (match e.op with
  | .qSend _ item front _ _ => if e.reaches .queue i && e.answer.ko==.ok then [(item,front)] else []
  | _ => [])++
    (e.granted (e.before.tx i)).map fun w => ((e.before.ws w).item,(e.before.ws w).all)

/-- The items that the operation has delivered: to a receive that returns, and to the receivers
whose waits it has granted. -/
def Event.delivered (e : Event n) (i : Nat) : List Item :=
  (match e.op with
  | .qRecv _ _ _ _ => if e.reaches .queue i && e.answer.ko==.ok then [e.answer.item] else []
  | _ => [])++(e.granted (e.before.rx i)).map fun w => (e.after.ws w).item

/-- A receive lets a sender in only once it has taken its own item out. -/
def Event.traffic (e : Event n) (i : Nat) : List (Traffic Item) :=
  let a := (e.accepted i).map fun x => Traffic.accept x.1 x.2
  let d := (e.delivered i).map Traffic.deliver
  match e.op with
  | .qRecv _ _ _ _ => d++a
  | _ => a++d

/-- Only sends and receives that succeed move items. -/
def Event.moves (e : Event n) : Bool :=
  match e.op with
  | .qSend _ _ _ _ _ => e.answer.ko==.ok
  | .qRecv _ _ _ _ => e.answer.ko==.ok
  | _ => false

/-- The account of the queue in a slot since it was made. -/
def ledger (i : Nat) : List (Event n) → Option (Ledger Item)
  | [] => some .start
  | e::hist =>
    if e.creates .queue i then some .start else (ledger i hist).bind (Ledger.replay (e.traffic i))

def Event.joinsRx (e : Event n) (i : Nat) : List (Fin n) :=
  match e.op with
  | .qRecv _ _ (some w) _ => if e.reaches .queue i && e.answer.ko==.block then [w] else []
  | _ => []

def Event.joinsTx (e : Event n) (i : Nat) : List (Fin n) :=
  match e.op with
  | .qSend _ _ _ (some w) _ => if e.reaches .queue i && e.answer.ko==.block then [w] else []
  | _ => []

/-- Who has joined and waits since, in the order they came. -/
def arrivals (joins : Event n → List (Fin n)) : List (Event n) → List (Fin n)
  | [] => []
  | e::hist => e.waiting (arrivals joins hist)++joins e

section Sides

variable {k k' : Objects n} {i : Nat} {e : Event n} {m m' : List (Fin n)}

theorem rx_used (hu : (k.tab .queue i).used=true) : k.rx i=(k.queue i).rx.members k.ws := if_pos hu

theorem tx_used (hu : (k.tab .queue i).used=true) : k.tx i=(k.queue i).tx.members k.ws := if_pos hu

theorem rx_unused (hu : (k.tab .queue i).used=false) : k.rx i=[] := by
  rw [Objects.rx,hu]
  rfl

theorem tx_unused (hu : (k.tab .queue i).used=false) : k.tx i=[] := by
  rw [Objects.tx,hu]
  rfl

theorem mem_rx {w : Fin n} (hw : w∈k.rx i) : w∈k.members .queue i := by
  unfold Objects.rx at hw
  unfold Objects.members
  split_ifs at hw ⊢
  · exact List.mem_append_left _ hw
  · exact hw

theorem mem_tx {w : Fin n} (hw : w∈k.tx i) : w∈k.members .queue i := by
  unfold Objects.tx at hw
  unfold Objects.members
  split_ifs at hw ⊢
  · exact List.mem_append_right _ hw
  · exact hw

theorem quiet_queue (hk : k.Inv) (hq : Quiet .queue i k k') :
    k'.queue i=k.queue i ∧ k'.rx i=k.rx i ∧ k'.tx i=k.tx i := by
  have hobj : k'.queue i=k.queue i := hq.obj
  refine ⟨hobj,?_,?_⟩
  · by_cases hu : (k.tab .queue i).used=true
    · rw [rx_used hu,rx_used (hq.used.trans hu),hobj]
      refine ((hk.sound .queue i hu).rx.congr fun w hw => hq.ws w ?_).members
      exact mem_rx (by rw [rx_used hu]; exact hw)
    · have hu : (k.tab .queue i).used=false := by simpa using hu
      rw [rx_unused hu,rx_unused (hq.used.trans hu)]
  · by_cases hu : (k.tab .queue i).used=true
    · rw [tx_used hu,tx_used (hq.used.trans hu),hobj]
      refine ((hk.sound .queue i hu).tx.congr fun w hw => hq.ws w ?_).members
      exact mem_tx (by rw [tx_used hu]; exact hw)
    · have hu : (k.tab .queue i).used=false := by simpa using hu
      rw [tx_unused hu,tx_unused (hq.used.trans hu)]

end Sides

/-- What an operation does to the queue in a slot. -/
structure QueueMove (s s' : World n) (e : Event n) (i : Nat) : Prop where
  rx : s'.obj.rx i=e.waiting (s.obj.rx i)++e.joinsRx i
  tx : s'.obj.tx i=e.waiting (s.obj.tx i)++e.joinsTx i
  rxFirst : ∃rest,s.obj.rx i=e.granted (s.obj.rx i)++rest
  txFirst : ∃rest,s.obj.tx i=e.granted (s.obj.tx i)++rest
  account : e.creates .queue i=false → ∀l : Ledger Item,
    ((s.obj.tab .queue i).used=true → l.contents=(s.obj.queue i).items) →
    ∃l',Ledger.replay (e.traffic i) l=some l' ∧
      ((s'.obj.tab .queue i).used=true → l'.contents=(s'.obj.queue i).items)
  fresh : e.creates .queue i=true → (s'.obj.queue i).items=[]
  still : e.moves=false → e.traffic i=[]

section Moves

variable {s s' : World n} {e : Event n} {i : Nat}

theorem queueMove_quiet (hs : s.Inv) (hm : Move s e s') (hr : e.reaches .queue i=false)
    (hc : e.creates .queue i=false) : QueueMove s s' e i := by
  have hq := hm.quiet hs hr hc
  obtain ⟨hobj,hrx,htx⟩ := quiet_queue hs.obj hq
  have hs' := move_inv hs hm
  obtain ⟨-,⟨hbefore,hafter,-⟩,-⟩ := hm
  have hwr : ∀w∈s.obj.rx i,(e.after.ws w).state=.wait := fun w hw => by
    rw [hafter]
    exact hs'.obj.waiting (mem_rx (by rw [hrx]; exact hw))
  have hwt : ∀w∈s.obj.tx i,(e.after.ws w).state=.wait := fun w hw => by
    rw [hafter]
    exact hs'.obj.waiting (mem_tx (by rw [htx]; exact hw))
  obtain ⟨hr1,hr2⟩ := waiting_keep hwr
  obtain ⟨ht1,ht2⟩ := waiting_keep hwt
  have hjr : e.joinsRx i=[] := by
    unfold Event.joinsRx
    rw [hr]
    cases e.op <;> try rfl
    rename_i w _
    cases w <;> rfl
  have hjt : e.joinsTx i=[] := by
    unfold Event.joinsTx
    rw [hr]
    cases e.op <;> try rfl
    rename_i w _
    cases w <;> rfl
  have hnew : e.creates .queue i=true → (s'.obj.queue i).items=[] := fun hx => by
    rw [hc] at hx
    cases hx
  have htr : e.traffic i=[] := by
    unfold Event.traffic Event.accepted Event.delivered
    rw [hr,hbefore,hr2,ht2]
    cases e.op <;> rfl
  refine ⟨by rw [hrx,hr1,hjr,List.append_nil],by rw [htx,ht1,hjt,List.append_nil],
    ⟨_,by rw [hr2]; rfl⟩,⟨_,by rw [ht2]; rfl⟩,fun _ l hl => ?_,hnew,fun _ => htr⟩
  rw [htr]
  refine ⟨l,rfl,fun hu => ?_⟩
  rw [hobj]
  exact hl (hq.used.symm.trans hu)

theorem queue_set {ws' : Waiters n} {q' : Queue n} (hu : (s.obj.tab .queue i).used=true)
    (hk : s'.obj=s.obj.setObj .queue i ws' q') :
    s'.obj.queue i=q' ∧ s'.obj.ws=ws' ∧ (s'.obj.tab .queue i).used=true ∧
      s'.obj.rx i=q'.rx.members ws' ∧ s'.obj.tx i=q'.tx.members ws' := by
  have htab : s'.obj.tab .queue i={s.obj.tab .queue i with obj := q'} := by
    rw [hk]
    exact setSlot_same _ _
  have hq : s'.obj.queue i=q' := congrArg Slot.obj htab
  have hws : s'.obj.ws=ws' := by
    rw [hk]
    rfl
  have hu' : (s'.obj.tab .queue i).used=true := (congrArg Slot.used htab).trans hu
  exact ⟨hq,hws,hu',by rw [rx_used hu',hq,hws],by rw [tx_used hu',hq,hws]⟩

theorem FoundAt.queue {r : Answer×Waiters n×Queue n} (hf : FoundAt s s' e .queue i r) :
    s'.obj.queue i=r.2.2 ∧ s'.obj.rx i=(s'.obj.queue i).rx.members e.after.ws ∧
      s'.obj.tx i=(s'.obj.queue i).tx.members e.after.ws ∧
      (∀w∈s'.obj.rx i,(e.after.ws w).state=.wait) ∧
      ∀w∈s'.obj.tx i,(e.after.ws w).state=.wait :=
  ⟨hf.obj,by rw [rx_used hf.used',hf.after],by rw [tx_used hf.used',hf.after],
    fun w hw => hf.wait w (mem_rx hw),fun w hw => hf.wait w (mem_tx hw)⟩

theorem items_of_made (hn : e.op.creates=none) (hc : e.creates .queue i=true) :
    (s'.obj.queue i).items=[] := by
  rw [Event.creates,hn] at hc
  exact absurd (of_decide_eq_true hc).1 (Option.some_ne_none _).symm

theorem queueMove_still (hacc : e.accepted i=(e.granted (e.before.tx i)).map fun w =>
      ((e.before.ws w).item,(e.before.ws w).all))
    (hdel : e.delivered i=(e.granted (e.before.rx i)).map fun w => (e.after.ws w).item)
    (hbefore : e.before=s.obj) (hjr : e.joinsRx i=[]) (hjt : e.joinsTx i=[])
    (hr : e.waiting (s.obj.rx i)=s'.obj.rx i ∧ e.granted (s.obj.rx i)=[])
    (ht : e.waiting (s.obj.tx i)=s'.obj.tx i ∧ e.granted (s.obj.tx i)=[])
    (hitems : (s.obj.tab .queue i).used=true → (s'.obj.tab .queue i).used=true →
      (s'.obj.queue i).items=(s.obj.queue i).items)
    (hused : e.creates .queue i=false → (s'.obj.tab .queue i).used=true →
      (s.obj.tab .queue i).used=true)
    (hnew : e.creates .queue i=true → (s'.obj.queue i).items=[]) : QueueMove s s' e i := by
  have htr : e.traffic i=[] := by
    unfold Event.traffic
    rw [hacc,hdel,hbefore,hr.2,ht.2]
    cases e.op <;> rfl
  refine ⟨by rw [hr.1,hjr,List.append_nil],by rw [ht.1,hjt,List.append_nil],
    ⟨_,by rw [hr.2]; rfl⟩,⟨_,by rw [ht.2]; rfl⟩,fun hc l hl => ?_,hnew,fun _ => htr⟩
  rw [htr]
  refine ⟨l,rfl,fun hu => ?_⟩
  rw [hitems (hused hc hu) hu]
  exact hl (hused hc hu)

theorem FoundAt.unmoved {r : Answer×Waiters n×Queue n} (hf : FoundAt s s' e .queue i r)
    (h : r.2=(s.obj.ws,s.obj.queue i)) :
    (e.waiting (s.obj.rx i)=s'.obj.rx i ∧ e.granted (s.obj.rx i)=[]) ∧
      (e.waiting (s.obj.tx i)=s'.obj.tx i ∧ e.granted (s.obj.tx i)=[]) ∧
      s'.obj.queue i=s.obj.queue i := by
  obtain ⟨hq,hrx,htx,hwr,hwt⟩ := hf.queue
  have hws : e.after.ws=s.obj.ws := hf.ws.trans (congrArg Prod.fst h)
  replace hq := hq.trans (congrArg Prod.snd h)
  have hrx' : s'.obj.rx i=s.obj.rx i := by rw [hrx,hq,hws,← rx_used hf.used]
  have htx' : s'.obj.tx i=s.obj.tx i := by rw [htx,hq,hws,← tx_used hf.used]
  rw [hrx'] at hwr ⊢
  rw [htx'] at hwt ⊢
  exact ⟨waiting_keep hwr,waiting_keep hwt,hq⟩

theorem queueMove_send (hs : s.Inv) (hm : Move s e s') {h : UInt32} {item : Item} {front : Bool}
    {w : Option (Fin n)} {who : Int} (hop : e.op=.qSend h item front w who)
    (hf : s.obj.find .queue h=some i) : QueueMove s s' e i := by
  have hnew : e.creates .queue i=true → (s'.obj.queue i).items=[] := items_of_made (by rw [hop]; rfl)
  have hfound := hm.foundAt hs (κ := .queue)
    (f := fun ws q => Queue.send ws q item front w who)
    (by rw [hop]; rfl : exec s.obj e.op=s.obj.on .queue h {ko := .fail} _) (by rw [hop]; rfl) hf
  have hkept := hfound.unmoved
  obtain ⟨hq,hrx,htx,hwr,hwt⟩ := hfound.queue
  obtain ⟨hans,-,hws,hbefore,-,hu,hu',-,-,hreach⟩ := hfound
  obtain ⟨r,hr⟩ : ∃r,Queue.send s.obj.ws (s.obj.queue i) item front w who=r := ⟨_,rfl⟩
  replace hans := hans.trans (congrArg Prod.fst hr)
  replace hws := hws.trans (congrArg (fun x => x.2.1) hr)
  replace hq := hq.trans (congrArg (fun x => x.2.2) hr)
  obtain ⟨-,-,-,hc⟩ := Queue.send_spec (q := s.obj.queue i) (hs.obj.sound .queue i hu)
    (fun x hx => hm.1.fresh x (by rw [hop]; exact hx)) who hr
  rw [← hq,← hans,← hws,← hrx,← htx,← rx_used hu,← tx_used hu] at hc
  have hjr : e.joinsRx i=[] := by
    rw [Event.joinsRx,hop]
  have hacc : e.traffic i=(e.accepted i).map (fun x => Traffic.accept x.1 x.2)++
      (e.delivered i).map Traffic.deliver := by
    rw [Event.traffic,hop]
  have hdel : e.delivered i=(e.granted (s.obj.rx i)).map fun w => (e.after.ws w).item := by
    rw [Event.delivered,hop,hbefore]
    rfl
  have hacc' : e.accepted i=(if e.reaches .queue i && e.answer.ko==.ok then [(item,front)] else [])++
      (e.granted (s.obj.tx i)).map fun w => ((e.before.ws w).item,(e.before.ws w).all) := by
    rw [Event.accepted,hop,hbefore]
  rcases hc with ⟨x,hm1,hm2,hko,hx,hitem,hi1,hi2⟩|⟨hm1,hko,hsame,hr1,hr2,hi⟩|⟨hko,hko',hsame⟩|
    ⟨x,hx,hko,hm1,hm2,hst,hitem,hall,hi⟩
  · obtain ⟨h1,h2⟩ := waiting_first hx hwr
    rw [hm2] at hwt
    obtain ⟨h3,h4⟩ := waiting_keep hwt
    have hjt : e.joinsTx i=[] := by
      rw [Event.joinsTx,hop,hreach,hko]
      cases w <;> rfl
    refine ⟨by rw [hm1,h1,hjr,List.append_nil],by rw [hm2,h3,hjt,List.append_nil],
      ⟨s'.obj.rx i,by rw [hm1,h2]; rfl⟩,⟨s.obj.tx i,by rw [h4]; rfl⟩,fun _ l hl => ?_,hnew,fun hx => ?_⟩
    · have ht : e.traffic i=[.accept item front,.deliver item] := by
        rw [hacc,hdel,hacc',hm1,h2,h4,hreach,hko,List.map_singleton,hitem]
        rfl
      obtain ⟨l1,hl1,hc1⟩ := l.step_accept item front
      rw [hl hu,hi1] at hc1
      have hc1' : l1.contents=[item] := by
        rw [hc1]
        cases front <;> rfl
      obtain ⟨l2,hl2,hc2⟩ := Ledger.step_deliver hc1'
      refine ⟨l2,?_,fun _ => by rw [hc2,hi2]⟩
      rw [ht,Ledger.replay,hl1]
      change (l1.step _).bind _=_
      rw [hl2]
      rfl
    · rw [Event.moves,hop,hko] at hx
      exact absurd hx.symm Bool.false_ne_true
  · have hrx' : s'.obj.rx i=s.obj.rx i := by rw [hrx,hr1,hsame,← rx_used hu]
    have htx' : s'.obj.tx i=s.obj.tx i := by rw [htx,hr2,hsame,← tx_used hu]
    rw [hrx'] at hwr
    rw [htx'] at hwt
    obtain ⟨h1,h2⟩ := waiting_keep hwr
    obtain ⟨h3,h4⟩ := waiting_keep hwt
    have hjt : e.joinsTx i=[] := by
      rw [Event.joinsTx,hop,hreach,hko]
      cases w <;> rfl
    refine ⟨by rw [hrx',h1,hjr,List.append_nil],by rw [htx',h3,hjt,List.append_nil],
      ⟨s.obj.rx i,by rw [h2]; rfl⟩,⟨s.obj.tx i,by rw [h4]; rfl⟩,fun _ l hl => ?_,hnew,fun hx => ?_⟩
    · have ht : e.traffic i=[.accept item front] := by
        rw [hacc,hdel,hacc',h2,h4,hreach,hko]
        rfl
      obtain ⟨l1,hl1,hc1⟩ := l.step_accept item front
      refine ⟨l1,?_,fun _ => by rw [hc1,hi,hl hu]⟩
      rw [ht,Ledger.replay,hl1]
      rfl
    · rw [Event.moves,hop,hko] at hx
      exact absurd hx.symm Bool.false_ne_true
  · obtain ⟨hr',ht',hsq⟩ := hkept ((congrArg Prod.snd hr).trans hsame)
    have hjt : e.joinsTx i=[] := by
      rw [Event.joinsTx,hop,hreach]
      cases w <;> simp [hko']
    refine queueMove_still ?_ (by rw [hdel,hbefore]) hbefore hjr hjt hr' ht'
      (fun _ _ => congrArg Queue.items hsq) (fun _ _ => hu) hnew
    rw [hacc',hreach,hbefore]
    simp [hko]
  · rw [hm1] at hwr
    have hwt' : ∀w∈s.obj.tx i,(e.after.ws w).state=.wait := fun w hw => by
      refine hwt w ?_
      rw [hm2]
      exact List.mem_append_left _ hw
    obtain ⟨h1,h2⟩ := waiting_keep hwr
    obtain ⟨h3,h4⟩ := waiting_keep hwt'
    have hjt : e.joinsTx i=[x] := by
      rw [Event.joinsTx,hop,hreach,hko,show w=some x from hx]
      rfl
    have ht : e.traffic i=[] := by
      rw [hacc,hdel,hacc',h2,h4,hreach,hko]
      rfl
    refine ⟨by rw [hm1,h1,hjr,List.append_nil],by rw [hm2,h3,hjt],
      ⟨s.obj.rx i,by rw [h2]; rfl⟩,⟨s.obj.tx i,by rw [h4]; rfl⟩,fun _ l hl => ?_,hnew,fun _ => ht⟩
    refine ⟨l,by rw [ht]; rfl,fun _ => by rw [hi,hl hu]⟩

theorem queueMove_recv (hs : s.Inv) (hm : Move s e s') {h : UInt32} {item : Item}
    {w : Option (Fin n)} {who : Int} (hop : e.op=.qRecv h item w who)
    (hf : s.obj.find .queue h=some i) : QueueMove s s' e i := by
  have hnew : e.creates .queue i=true → (s'.obj.queue i).items=[] := items_of_made (by rw [hop]; rfl)
  have hfound := hm.foundAt hs (κ := .queue)
    (f := fun ws q => Queue.recv ws q item w who)
    (by rw [hop]; rfl : exec s.obj e.op=s.obj.on .queue h {ko := .fail,item := item} _)
    (by rw [hop]; rfl) hf
  have hkept := hfound.unmoved
  obtain ⟨hq,hrx,htx,hwr,hwt⟩ := hfound.queue
  obtain ⟨hans,-,hws,hbefore,-,hu,hu',-,-,hreach⟩ := hfound
  obtain ⟨r,hr⟩ : ∃r,Queue.recv s.obj.ws (s.obj.queue i) item w who=r := ⟨_,rfl⟩
  replace hans := hans.trans (congrArg Prod.fst hr)
  replace hws := hws.trans (congrArg (fun x => x.2.1) hr)
  replace hq := hq.trans (congrArg (fun x => x.2.2) hr)
  obtain ⟨-,-,-,hc⟩ := Queue.recv_spec (q := s.obj.queue i) (hs.obj.sound .queue i hu)
    (fun x hx => hm.1.fresh x (by rw [hop]; exact hx)) who hr
  rw [← hq,← hans,← hws,← hrx,← htx,← rx_used hu,← tx_used hu] at hc
  have hjt : e.joinsTx i=[] := by
    rw [Event.joinsTx,hop]
  have hacc : e.traffic i=(e.delivered i).map Traffic.deliver++
      (e.accepted i).map (fun x => Traffic.accept x.1 x.2) := by
    rw [Event.traffic,hop]
  have hacc' : e.accepted i=(e.granted (s.obj.tx i)).map fun w =>
      ((s.obj.ws w).item,(s.obj.ws w).all) := by
    rw [Event.accepted,hop,hbefore]
    rfl
  have hdel : e.delivered i=(if e.reaches .queue i && e.answer.ko==.ok then [e.answer.item] else [])++
      (e.granted (s.obj.rx i)).map fun w => (e.after.ws w).item := by
    rw [Event.delivered,hop,hbefore]
  rcases hc with ⟨rest,hitems,hko,hm1,hc⟩|⟨hko,hko',hsame⟩|⟨x,hx,hko,hm1,hm2,hst,hi1,hi2⟩
  · rw [hm1] at hwr
    obtain ⟨h1,h2⟩ := waiting_keep hwr
    have hjr : e.joinsRx i=[] := by
      rw [Event.joinsRx,hop,hreach,hko]
      cases w <;> rfl
    have hdel' : e.delivered i=[e.answer.item] := by
      rw [hdel,h2,hreach,hko]
      rfl
    rcases hc with ⟨hnone,hsw,hnone',hi⟩|⟨x,hm2,hx,hi⟩
    · rw [hnone] at hacc'
      refine ⟨by rw [hm1,h1,hjr,List.append_nil],by rw [hnone,hnone',hjt]; rfl,
        ⟨s.obj.rx i,by rw [h2]; rfl⟩,⟨s.obj.tx i,by rw [hnone]; rfl⟩,fun _ l hl => ?_,hnew,fun hx => ?_⟩
      · obtain ⟨l1,hl1,hc1⟩ := Ledger.step_deliver ((hl hu).trans hitems)
        refine ⟨l1,?_,fun _ => by rw [hc1,hi]⟩
        rw [hacc,hdel',hacc']
        change (l.step _).bind _=_
        rw [hl1]
        rfl
      · rw [Event.moves,hop,hko] at hx
        exact absurd hx.symm Bool.false_ne_true
    · obtain ⟨h3,h4⟩ := waiting_first hx hwt
      rw [hm2,h4] at hacc'
      refine ⟨by rw [hm1,h1,hjr,List.append_nil],by rw [hm2,h3,hjt,List.append_nil],
        ⟨s.obj.rx i,by rw [h2]; rfl⟩,⟨s'.obj.tx i,by rw [hm2,h4]; rfl⟩,fun _ l hl => ?_,hnew,fun hx => ?_⟩
      · obtain ⟨l1,hl1,hc1⟩ := Ledger.step_deliver ((hl hu).trans hitems)
        obtain ⟨l2,hl2,hc2⟩ := l1.step_accept (s.obj.ws x).item (s.obj.ws x).all
        refine ⟨l2,?_,fun _ => by rw [hc2,hi,hc1]⟩
        rw [hacc,hdel',hacc']
        change (l.step _).bind _=_
        rw [hl1]
        change (l1.step _).bind _=_
        rw [hl2]
        rfl
      · rw [Event.moves,hop,hko] at hx
        exact absurd hx.symm Bool.false_ne_true
  · obtain ⟨hr',ht',hsq⟩ := hkept ((congrArg Prod.snd hr).trans hsame)
    have hjr : e.joinsRx i=[] := by
      rw [Event.joinsRx,hop,hreach]
      cases w <;> simp [hko']
    refine queueMove_still (by rw [hacc',hbefore]) ?_ hbefore hjr hjt hr' ht'
      (fun _ _ => congrArg Queue.items hsq) (fun _ _ => hu) hnew
    rw [hdel,hreach,hbefore]
    simp [hko]
  · have hwr' : ∀w∈s.obj.rx i,(e.after.ws w).state=.wait := fun w hw => by
      refine hwr w ?_
      rw [hm1]
      exact List.mem_append_left _ hw
    rw [hm2] at hwt
    obtain ⟨h1,h2⟩ := waiting_keep hwr'
    obtain ⟨h3,h4⟩ := waiting_keep hwt
    have hjr : e.joinsRx i=[x] := by
      rw [Event.joinsRx,hop,hreach,hko,show w=some x from hx]
      rfl
    have ht : e.traffic i=[] := by
      rw [hacc,hdel,hacc',h2,h4,hreach,hko]
      rfl
    refine ⟨by rw [hm1,h1,hjr],by rw [hm2,h3,hjt,List.append_nil],
      ⟨s.obj.rx i,by rw [h2]; rfl⟩,⟨s.obj.tx i,by rw [h4]; rfl⟩,fun _ l hl => ?_,hnew,fun _ => ht⟩
    refine ⟨l,by rw [ht]; rfl,fun _ => by rw [hl hu,hi1,hi2]⟩

theorem queueMove_cancel (hs : s.Inv) (hm : Move s e s') {h : UInt32} {w : Fin n}
    (hop : e.op=.cancel .queue h w) (hf : s.obj.find .queue h=some i) : QueueMove s s' e i := by
  have hs' := move_inv hs hm
  have hu : (s.obj.tab .queue i).used=true := (lookup_some.mp hf).2.2.2.1
  have hnew : e.creates .queue i=true → (s'.obj.queue i).items=[] := items_of_made (by rw [hop]; rfl)
  obtain ⟨hl,⟨hbefore,hafter,hx⟩,-⟩ := hm
  rw [hop] at hl hx
  have hk : (s.obj.cancel .queue h w (Queue.drop w)).2=s'.obj := (Prod.mk.inj hx).2
  have hwr : ∀x∈s'.obj.rx i,(e.after.ws x).state=.wait := fun x hx => by
    rw [hafter]
    exact hs'.obj.waiting (mem_rx hx)
  have hwt : ∀x∈s'.obj.tx i,(e.after.ws x).state=.wait := fun x hx => by
    rw [hafter]
    exact hs'.obj.waiting (mem_tx hx)
  have hfacts : (e.waiting (s.obj.rx i)=s'.obj.rx i ∧ e.granted (s.obj.rx i)=[]) ∧
      (e.waiting (s.obj.tx i)=s'.obj.tx i ∧ e.granted (s.obj.tx i)=[]) ∧
      (s'.obj.queue i).items=(s.obj.queue i).items := by
    have hsame : s'.obj=s.obj → (e.waiting (s.obj.rx i)=s'.obj.rx i ∧ e.granted (s.obj.rx i)=[]) ∧
        (e.waiting (s.obj.tx i)=s'.obj.tx i ∧ e.granted (s.obj.tx i)=[]) ∧
        (s'.obj.queue i).items=(s.obj.queue i).items := fun hsame => by
      rw [hsame] at hwr hwt ⊢
      exact ⟨waiting_keep hwr,waiting_keep hwt,rfl⟩
    rcases cancel_cases hs hl (Queue.drop w) with ⟨-,hc⟩|⟨-,hc⟩|⟨-,j,hj,hw,hc⟩
    · exact hsame (hk.symm.trans (congrArg Prod.snd hc))
    · exact hsame (hk.symm.trans (congrArg Prod.snd hc))
    · obtain rfl : j=i := Option.some.inj (hj.symm.trans hf)
      have hset := hk.symm.trans (congrArg Prod.snd hc)
      dsimp only at hset
      rw [members_of_used hu] at hw
      obtain ⟨-,-,hrx,htx,-,hitems,hidle⟩ :=
        Queue.drop_spec (q := s.obj.queue j) (hs.obj.sound .queue j hu) hw rfl
      obtain ⟨hq,hws,-,hrx',htx'⟩ := queue_set hu hset
      have hsound := hs.obj.sound .queue j hu
      have hrxn : (s.obj.rx j).Nodup := by
        rw [rx_used hu]
        exact hsound.rx.nodup
      have htxn : (s.obj.tx j).Nodup := by
        rw [tx_used hu]
        exact hsound.tx.nodup
      have hi : (e.after.ws w).state=.idle := by
        rw [hafter,hws]
        exact hidle
      have hrxe : s'.obj.rx j=(s.obj.rx j).erase w := by
        rw [hrx',rx_used hu]
        exact hrx
      have htxe : s'.obj.tx j=(s.obj.tx j).erase w := by
        rw [htx',tx_used hu]
        exact htx
      rw [hrxe] at hwr ⊢
      rw [htxe] at hwt ⊢
      exact ⟨waiting_erase hrxn hi hwr,waiting_erase htxn hi hwt,by rw [hq]; exact hitems⟩
  obtain ⟨hr,ht,hitems⟩ := hfacts
  exact queueMove_still (by rw [Event.accepted,hop]; rfl) (by rw [Event.delivered,hop]; rfl)
    hbefore (by rw [Event.joinsRx,hop]) (by rw [Event.joinsTx,hop]) hr ht (fun _ _ => hitems)
    (fun _ _ => hu) hnew

theorem queueMove_delete (hs : s.Inv) (hm : Move s e s') {h : UInt32}
    (hop : e.op=.delete .queue h) (hf : s.obj.find .queue h=some i) : QueueMove s s' e i := by
  have hu : (s.obj.tab .queue i).used=true := (lookup_some.mp hf).2.2.2.1
  have hnew : e.creates .queue i=true → (s'.obj.queue i).items=[] := items_of_made (by rw [hop]; rfl)
  obtain ⟨-,⟨hbefore,hafter,hx⟩,-⟩ := hm
  rw [hop] at hx
  change s.obj.delete .queue h Queue.failAll=_ at hx
  rw [Objects.delete,hf] at hx
  have hk := (Prod.mk.inj hx).2
  have hu' : (s'.obj.tab .queue i).used=false := by
    rw [← hk,setSlot_same]
    rfl
  have hfail : ∀x∈s.obj.members .queue i,(e.after.ws x).state=.failed := fun x hx => by
    rw [hafter,← hk]
    rw [members_of_used hu] at hx
    exact (queue_failAll (hs.obj.sound .queue i hu)).2 x hx
  refine queueMove_still (by rw [Event.accepted,hop]; rfl) (by rw [Event.delivered,hop]; rfl)
    hbefore (by rw [Event.joinsRx,hop]) (by rw [Event.joinsTx,hop]) ?_ ?_
    (fun _ hx => absurd (hu'.symm.trans hx) Bool.false_ne_true)
    (fun _ hx => absurd (hu'.symm.trans hx) Bool.false_ne_true) hnew
  · rw [rx_unused hu']
    exact waiting_failed fun w hw => hfail w (mem_rx hw)
  · rw [tx_unused hu']
    exact waiting_failed fun w hw => hfail w (mem_tx hw)

theorem queueMove_create (hm : Move s e s') (hc : e.creates .queue i=true) :
    QueueMove s s' e i := by
  obtain ⟨-,⟨hbefore,hafter,hx⟩,-⟩ := hm
  obtain ⟨hop,hne,hidx⟩ := of_decide_eq_true hc
  cases hq : e.op with
  | qCreate len isz storage =>
    rw [hq] at hx
    change kqCreate s.obj len isz storage=_ at hx
    unfold kqCreate at hx
    split_ifs at hx with hargs
    · exact absurd (congrArg Answer.handle (Prod.mk.inj hx).1).symm hne
    · cases storage with
      | none => exact absurd (congrArg Answer.handle (Prod.mk.inj hx).1).symm hne
      | some buf =>
        dsimp only at hx
        rw [Objects.create] at hx
        rcases createIn_cases _ (Eq.refl (createIn (s.obj.tab .queue) .queue
            (⟨len,isz,0,0,buf,WList.empty,WList.empty⟩ : Queue n))) with hr|⟨j,hj,hu,hr⟩
        · rw [hr] at hx
          exact absurd (congrArg Answer.handle (Prod.mk.inj hx).1).symm hne
        · rw [hr] at hx
          obtain ⟨hans,hk⟩ := Prod.mk.inj hx
          have hji : j=i := by
            rw [← hans] at hidx
            exact Option.some.inj ((hIdx_hMake (κ := .queue) _ hj).symm.trans hidx)
          subst hji
          have htab : s'.obj.tab .queue j=⟨true,(s.obj.tab .queue j).gen,0,
              ⟨len,isz,0,0,buf,WList.empty,WList.empty⟩⟩ := by
            rw [← hk]
            exact setSlot_same (k := s.obj) (κ := .queue) (i := j) s.obj.ws _
          have hu' : (s'.obj.tab .queue j).used=true := by rw [htab]
          have hobj : s'.obj.queue j=⟨len,isz,0,0,buf,WList.empty,WList.empty⟩ :=
            congrArg Slot.obj htab
          have hitems : (s'.obj.queue j).items=[] := by
            rw [hobj]
            exact Queue.items_nil.mpr rfl
          have hrx' : s'.obj.rx j=[] := by
            rw [rx_used hu',hobj]
            exact Threads.empty.members
          have htx' : s'.obj.tx j=[] := by
            rw [tx_used hu',hobj]
            exact Threads.empty.members
          refine queueMove_still (by rw [Event.accepted,hq]; rfl)
            (by rw [Event.delivered,hq]; rfl) hbefore (by rw [Event.joinsRx,hq])
            (by rw [Event.joinsTx,hq]) ?_ ?_ (fun hx _ => absurd (hu.symm.trans hx)
              Bool.false_ne_true) (fun hx _ => absurd (hx.symm.trans hc) Bool.false_ne_true)
            fun _ => hitems
          · rw [rx_unused hu,hrx']
            exact ⟨rfl,rfl⟩
          · rw [tx_unused hu,htx']
            exact ⟨rfl,rfl⟩
  | _ =>
    rw [hq] at hop
    cases hop

theorem queue_move (hs : s.Inv) (hm : Move s e s') (i : Nat) : QueueMove s s' e i := by
  by_cases hc : e.creates .queue i=true
  · exact queueMove_create hm hc
  · by_cases hr : e.reaches .queue i=true
    · have hbefore : e.before=s.obj := hm.2.1.1
      unfold Event.reaches at hr
      cases hop : e.op with
      | qSend h item front w who =>
        rw [hop] at hr
        exact queueMove_send hs hm hop (hbefore ▸ (of_decide_eq_true hr).2)
      | qRecv h item w who =>
        rw [hop] at hr
        exact queueMove_recv hs hm hop (hbefore ▸ (of_decide_eq_true hr).2)
      | cancel κ h w =>
        rw [hop] at hr
        obtain ⟨rfl,hf⟩ := of_decide_eq_true hr
        exact queueMove_cancel hs hm hop (hbefore ▸ hf)
      | delete κ h =>
        rw [hop] at hr
        obtain ⟨rfl,hf⟩ := of_decide_eq_true hr
        exact queueMove_delete hs hm hop (hbefore ▸ hf)
      | _ =>
        rw [hop] at hr
        exact absurd hr Bool.false_ne_true
    · exact queueMove_quiet hs hm (by simpa using hr) (by simpa using hc)

end Moves

/-- What holds of the queue in a slot after any run. -/
structure QueueKept (hist : List (Event n)) (s : World n) (i : Nat) : Prop where
  receivers : s.obj.rx i≠[] → (s.obj.queue i).items=[] ∧ s.obj.tx i=[]
  senders : s.obj.tx i≠[] → (s.obj.queue i).items.length=(s.obj.queue i).len ∧ s.obj.rx i=[]
  account : ∃l,ledger i hist=some l ∧ l.Sound ∧
    ((s.obj.tab .queue i).used=true → l.contents=(s.obj.queue i).items)
  rxOrder : s.obj.rx i=arrivals (fun e => e.joinsRx i) hist
  txOrder : s.obj.tx i=arrivals (fun e => e.joinsTx i) hist
  served : ∀e∈hist,(∃rest,e.before.rx i=e.granted (e.before.rx i)++rest) ∧
    ∃rest,e.before.tx i=e.granted (e.before.tx i)++rest
  still : ∀e∈hist,e.moves=false → e.traffic i=[]

section Runs

variable {s : World n} {hist : List (Event n)} {i : Nat}

theorem queue_sides (hs : s.Inv) (i : Nat) :
    (s.obj.rx i≠[] → (s.obj.queue i).items=[] ∧ s.obj.tx i=[]) ∧
      (s.obj.tx i≠[] → (s.obj.queue i).items.length=(s.obj.queue i).len ∧ s.obj.rx i=[]) := by
  by_cases hu : (s.obj.tab .queue i).used=true
  · have hq : (s.obj.queue i).Sound s.obj.ws := hs.obj.sound .queue i hu
    have hpos := Nat.zero_lt_of_lt hq.head
    rw [rx_used hu,tx_used hu]
    constructor
    · intro hne
      have hzero := hq.empty hne
      refine ⟨Queue.items_nil.mpr hzero,?_⟩
      by_contra ht
      have := hq.full ht
      omega
    · intro hne
      have hfull := hq.full hne
      refine ⟨(Queue.length_items _).trans hfull,?_⟩
      by_contra hr
      have := hq.empty hr
      omega
  · have hu : (s.obj.tab .queue i).used=false := by simpa using hu
    rw [rx_unused hu,tx_unused hu]
    exact ⟨fun h => absurd rfl h,fun h => absurd rfl h⟩

theorem queue_account {ws : Waiters n} (hw : ∀w,(ws w).state≠.wait)
    (hr : Reach Move (World.init ws) hist s) (i : Nat) : QueueKept hist s i := by
  have hinv : s.Inv ∧ QueueKept hist s i := by
    refine Reach.invariant (fun hist s => s.Inv ∧ QueueKept hist s i) ⟨init_inv hw,?_⟩ ?_ hr
    · obtain ⟨h1,h2⟩ := queue_sides (init_inv hw) i
      refine ⟨h1,h2,⟨.start,rfl,Ledger.start_sound,fun hu => by cases hu⟩,rx_unused rfl,
        tx_unused rfl,?_,?_⟩
      · exact fun e he => absurd he List.not_mem_nil
      · exact fun e he => absurd he List.not_mem_nil
    · rintro hist s e s' ⟨hs,hk⟩ hm
      obtain ⟨hrx,htx,hrf,htf,hacc,hnew,hstill⟩ := queue_move hs hm i
      have hs' := move_inv hs hm
      have hbefore : e.before=s.obj := hm.2.1.1
      obtain ⟨h1,h2⟩ := queue_sides hs' i
      refine ⟨hs',h1,h2,?_,?_,?_,?_,?_⟩
      · by_cases hc : e.creates .queue i=true
        · exact ⟨.start,if_pos hc,Ledger.start_sound,fun _ => (hnew hc).symm⟩
        · obtain ⟨l,hl,hsound,hcont⟩ := hk.account
          obtain ⟨l',hrep,hcont'⟩ := hacc (by simpa using hc) l hcont
          refine ⟨l',?_,Ledger.replay_sound hsound hrep,hcont'⟩
          rw [ledger,if_neg hc,hl]
          exact hrep
      · rw [hrx,arrivals,← hk.rxOrder]
      · rw [htx,arrivals,← hk.txOrder]
      · intro x hx
        rcases List.mem_cons.mp hx with rfl|hx
        · rw [hbefore]
          exact ⟨hrf,htf⟩
        · exact hk.served x hx
      · intro x hx
        rcases List.mem_cons.mp hx with rfl|hx
        · exact hstill
        · exact hk.still x hx
  exact hinv.2

theorem gone_delivers_nothing {s₀ : World n} (h₀ : s₀.Inv)
    (hu : (s₀.obj.tab .queue i).used=false) {later : List (Event n)}
    (hr : Reach Move s₀ later s) (hno : ∀e∈later,e.creates .queue i=false) :
    ∀e∈later,e.delivered i=[] := by
  have hinv : s.Inv ∧ ((∀e∈later,e.creates .queue i=false) →
      (s.obj.tab .queue i).used=false ∧ ∀e∈later,e.delivered i=[]) := by
    refine Reach.invariant (fun later s => s.Inv ∧ ((∀e∈later,e.creates .queue i=false) →
      (s.obj.tab .queue i).used=false ∧ ∀e∈later,e.delivered i=[]))
      ⟨h₀,fun _ => ⟨hu,fun e he => absurd he List.not_mem_nil⟩⟩ ?_ hr
    rintro hist s e s' ⟨hs,hk⟩ hm
    refine ⟨move_inv hs hm,fun hno => ?_⟩
    obtain ⟨hused,hold⟩ := hk fun x hx => hno x (List.mem_cons_of_mem _ hx)
    have hnew := hno e List.mem_cons_self
    obtain ⟨-,he,-⟩ := hm
    have hbefore : e.before=s.obj := he.1
    have hreach : e.reaches .queue i=false := by
      unfold Event.reaches
      cases e.op.handle with
      | none => rfl
      | some x =>
        rw [hbefore,decide_eq_false_iff_not]
        rintro ⟨hκ,hf⟩
        have hin := (lookup_some.mp hf).2.2.2.1
        rw [hκ,hused] at hin
        cases hin
    constructor
    · rcases step_slot he .queue i with ⟨hc,-⟩|⟨-,-,⟨h,-,hf⟩,-⟩|⟨-,-,hs'⟩
      · rw [hnew] at hc
        cases hc
      · have hin := (lookup_some.mp hf).2.2.2.1
        rw [hused] at hin
        cases hin
      · exact (congrArg Prod.fst hs').trans hused
    · intro x hx
      rcases List.mem_cons.mp hx with rfl|hx
      · rw [Event.delivered,hreach,hbefore,rx_unused hused]
        cases x.op <;> rfl
      · exact hold x hx
  exact (hinv.2 hno).2

end Runs

section Examples

/-- A queue of one item, made, and waited at by a receiver. -/
def served0 : World 1 := World.init idle
def served1 : World 1 := served0.play (.qCreate 1 2 (some fun _ => []))
def served2 : World 1 := served1.play (.qRecv 0x30000001 [0,0] (some 0) 5)

theorem legal_serve :
    Legal served0 (.qCreate 1 2 (some fun _ => [])) ∧
      Legal served1 (.qRecv 0x30000001 [0,0] (some 0) 5) ∧
      Legal served2 (.qSend 0x30000001 [7,8] false none 6) := by
  refine ⟨⟨?_,?_,?_⟩,⟨?_,?_,?_⟩,⟨?_,?_,?_⟩⟩
  · intro w h
    cases h
  · intro κ h w hop
    cases hop
  · intro who h
    cases h
  · decide +kernel
  · intro κ h w hop
    cases hop
  · intro who h
    obtain rfl := Option.some.inj h
    decide +kernel
  · intro w h
    cases h
  · intro κ h w hop
    cases hop
  · intro who h
    obtain rfl := Option.some.inj h
    decide +kernel

theorem queue_account_handoff :
    QueueKept [act served2.obj (.qSend 0x30000001 [7,8] false none 6),
      act served1.obj (.qRecv 0x30000001 [0,0] (some 0) 5),
      act served0.obj (.qCreate 1 2 (some fun _ => []))]
      (served2.play (.qSend 0x30000001 [7,8] false none 6)) 0 :=
  queue_account (by decide : ∀w : Fin 1,(idle w).state≠.wait)
    (((Reach.start.next (move_play legal_serve.1)).next (move_play legal_serve.2.1)).next
      (move_play legal_serve.2.2)) 0

def dropped0 : World 0 := World.init idle
def dropped1 : World 0 := dropped0.play (.qCreate 1 2 (some fun _ => []))
def dropped2 : World 0 := dropped1.play (.qSend 0x30000001 [7,8] false none 6)
/-- An item that is accepted, and that nobody receives, whatever happens after its queue is
deleted. -/
theorem accepted_not_delivered : ∃(hist : List (Event 0)) (s : World 0),
    Reach Move (World.init idle) hist s ∧ (∃e∈hist,e.accepted 0=[([7,8],false)]) ∧
      (∀e∈hist,e.delivered 0=[]) ∧
      ∀later s',Reach Move s later s' → (∀e∈later,e.creates .queue 0=false) →
        ∀e∈later,e.delivered 0=[] := by
  have h1 := Reach.start.next (move_play (legal_nobody _ (fun who h => by cases h) :
    Legal dropped0 (.qCreate 1 2 (some fun _ => []))))
  have h2 := h1.next (move_play (legal_nobody _ (fun who h => by
    obtain rfl := Option.some.inj h
    decide) : Legal dropped1 (.qSend 0x30000001 [7,8] false none 6)))
  have h3 := h2.next (move_play (legal_nobody _ (fun who h => by cases h) :
    Legal dropped2 (.delete .queue 0x30000001)))
  refine ⟨_,_,h3,⟨_,List.mem_cons_of_mem _ List.mem_cons_self,?_⟩,?_,?_⟩
  · decide +kernel
  · intro e he
    rcases List.mem_cons.mp he with rfl|he
    · decide +kernel
    rcases List.mem_cons.mp he with rfl|he
    · decide +kernel
    obtain rfl := List.mem_singleton.mp he
    decide +kernel
  · intro later s' hr hno
    refine gone_delivers_nothing (reach_inv (fun w => w.elim0) h3) ?_ hr hno
    decide +kernel

end Examples

end LugalOS.Kobj
