import Htram.Pe.Items
import Htram.Pe.Transparent
import Htram.System.Sound

/-!
# Where the items are

* `System.run_placed`: with combining off every item handed in waits on its source, in a
  queue or in a buffer, is in flight, or has been delivered, each as often as it was handed
  in; it always goes by way of its destination and is delivered to its PE only.
-/

namespace Htram

open Network

variable {α F : Type*}

/-- The item that a call hands in. -/
def Op.handed : Op α F → Multiset α
  | .send x _ | .sendTo x _ _ | .insertValue x _ | .insertValueWPs x _ => {x}
  | _ => 0

/-- The buckets, thresholds and PEs of a call are in range. -/
def Event.InRange (cfg : Config α) (agg : Agg) : Event α F → Prop
  | .call _ op => op.InRange cfg agg false
  | _ => True

/-- The calls on PE `pe`, in order. -/
def callsOn (pe : ℕ) (es : List (Event α F)) : List (Op α F) :=
  es.filterMap fun
    | .call i op => if i = pe then some op else none
    | _ => none

/-- The items handed in on PE `pe`. -/
def handedOn (pe : ℕ) (es : List (Event α F)) : Multiset α :=
  ((callsOn pe es).map Op.handed).sum

/-- The items of a message in flight. -/
def Packet.items (cfg : Config α) : Packet α → Multiset α
  | .buffer _ s => payloads s.msg.items
  | .post p => (p.items cfg : List α)

/-- The message has items for its destination, which say what PE they are for, or for the PE
    that it is posted to. -/
def Packet.Addressed (cfg : Config α) (agg : Agg) : Packet α → Prop
  | .buffer d s => ∀ x ∈ s.msg.items,
      x.destPe = cfg.getDestProc x.payload ∧ cfg.destOf agg (cfg.getDestProc x.payload) = d
  | .post p => ∀ y ∈ p.items cfg, cfg.getDestProc y = p.pe

/-- The items in the queues and in the buffer of a destination. -/
def Dest.waiting (cfg : Config α) (d : Dest α) : Multiset α :=
  ∑ b ∈ Finset.range cfg.histoBucketCount, (d.queues b : Multiset α) + payloads d.msgBuffer.items

namespace HTram

/-- The items that wait on a PE. -/
def backlog (cfg : Config α) (p : HTram α F) : Multiset α :=
  ∑ d ∈ Finset.range (p.destCount cfg), (p.dest d).waiting cfg

/-- The items that a PE has sent. -/
def sentItems (cfg : Config α) (p : HTram α F) : Multiset α :=
  ∑ d ∈ Finset.range (p.destCount cfg), shipped (p.dest d).sent

end HTram

namespace System

/-- The items in flight. -/
def inFlight (cfg : Config α) (s : System α F) : Multiset α :=
  (s.flight.map (Packet.items cfg)).sum

/-- The items that have been handed to the clients. -/
def delivered (cfg : Config α) (s : System α F) : Multiset α :=
  ∑ pe ∈ Finset.range cfg.numPes, ((s.node pe).delivered : Multiset α)

/-- Every item handed in by the events `es` is in one place, on its way to its PE. -/
structure Placed (cfg : Config α) (agg : Agg) (es : List (Event α F)) (s : System α F) :
    Prop where
  source : ∀ pe < cfg.numPes,
    handedOn pe es = (s.node pe).tram.backlog cfg + (s.node pe).tram.sentItems cfg
  once : ∑ pe ∈ Finset.range cfg.numPes, handedOn pe es =
    ∑ pe ∈ Finset.range cfg.numPes, (s.node pe).tram.backlog cfg + s.inFlight cfg +
      s.delivered cfg
  queues : ∀ pe < cfg.numPes, ∀ d < cfg.destCount agg, ∀ b,
    ∀ y ∈ ((s.node pe).tram.dest d).queues b, cfg.destOf agg (cfg.getDestProc y) = d
  buffers : ∀ pe < cfg.numPes, ∀ d < cfg.destCount agg,
    ∀ x ∈ ((s.node pe).tram.dest d).msgBuffer.items,
      x.destPe = cfg.getDestProc x.payload ∧ cfg.destOf agg (cfg.getDestProc x.payload) = d
  outside : ∀ pe < cfg.numPes, ∀ d < cfg.destCount agg, ∀ b ≥ cfg.histoBucketCount,
    ((s.node pe).tram.dest d).queues b = []
  flight : ∀ m ∈ s.flight, m.Addressed cfg agg
  mine : ∀ pe < cfg.numPes, ∀ y ∈ (s.node pe).delivered, cfg.getDestProc y = pe
  atMostOnce : s.delivered cfg ≤ ∑ pe ∈ Finset.range cfg.numPes, handedOn pe es

end System

/-! ## The calls on one PE -/

namespace System

variable [Inhabited α] {cfg : Config α} {s t : System α F}

variable [ReleaseArith F]

/-- The branch of a PE is where the calls on that PE lead. -/
theorem run_callsOn (pe : ℕ) :
    ∀ {es : List (Event α F)} {s t : System α F}, (∀ e ∈ es, e.Ok cfg false) →
      run cfg es s = some t →
      (s.node pe).tram.run cfg (callsOn pe es) = .returns (t.node pe).tram := by
  intro es
  induction es with
  | nil =>
    intro s t _ h
    cases h
    rfl
  | cons e es ih =>
    intro s t hes h
    obtain ⟨r, hr, ht⟩ := runs_cons.mp h
    have hrest := ih (fun e' h' => hes e' (List.mem_cons_of_mem _ h')) ht
    cases e with
    | enableCombining i => cases hes _ (List.mem_cons_self ..)
    | deliver k skip =>
      obtain ⟨m, -, harrive⟩ := step_deliver hr
      rw [arrive_tram harrive] at hrest
      exact hrest
    | call i op =>
      obtain ⟨-, hr⟩ := step_call hr
      obtain ⟨q, hq, rfl⟩ := settle_some hr
      by_cases hi : i = pe
      · subst hi
        have hcalls : callsOn i (.call i op :: es) = op :: callsOn i es := by
          simp [callsOn]
        rw [hcalls, HTram.run, hq]
        have hnode : ((s.ended cfg i q).node i).tram = q := by
          unfold ended
          rw [Net.emit_node, Net.set_node_self]
        rwa [hnode] at hrest
      · have hcalls : callsOn pe (.call i op :: es) = callsOn pe es := by
          simp [callsOn, hi]
        have hnode : ((s.ended cfg i q).node pe).tram = (s.node pe).tram := by
          unfold ended
          rw [Net.emit_node, Net.set_node_of_ne s (Ne.symm hi)]
        rw [hcalls]
        rwa [hnode] at hrest

end System

namespace HTram

variable [Inhabited α] [ReleaseArith F] {cfg : Config α} {p q : HTram α F}

omit [Inhabited α] [ReleaseArith F] in
theorem sum_handed {agg : Agg} {n : ℕ} {pe : ℕ} (hpe : cfg.destOf agg pe < n) (x : Input α) :
    ∑ d ∈ Finset.range n, handed (if cfg.destOf agg pe = d then [x] else []) = {x.item} := by
  have hone : ∀ d, handed (if cfg.destOf agg pe = d then [x] else []) =
      if cfg.destOf agg pe = d then {x.item} else 0 := by
    intro d
    split_ifs
    · rfl
    · rfl
  simp only [hone]
  rw [Finset.sum_ite_eq, if_pos (Finset.mem_range.mpr hpe)]

/-- A send that returns has an item for one of the destinations. -/
theorem step_handed {op : Op α F} (hop : op.Deferred) (hq : p.step cfg op = .returns q) :
    op.handed = ∑ d ∈ Finset.range (p.destCount cfg), handed (op.inputs cfg p.knobs.agg d) := by
  have hzero : (0 : Multiset α) = ∑ d ∈ Finset.range (p.destCount cfg), handed [] :=
    (Finset.sum_eq_zero fun _ _ => rfl).symm
  have hsend : ∀ x b pe, p.sendItemPrioDeferredDestTo cfg x b pe = .returns q →
      cfg.destOf p.knobs.agg pe < p.destCount cfg := by
    intro x b pe h
    unfold sendItemPrioDeferredDestTo at h
    dsimp only at h
    split_ifs at h with hge
    exact not_le.mp hge
  cases op with
  | insertValue | insertValueWPs => exact hop.elim
  | send x b => exact (sum_handed (hsend x b _ hq) (.send x b (cfg.getDestProc x))).symm
  | sendTo x b pe => exact (sum_handed (hsend x b pe hq) (.send x b pe)).symm
  | _ => exact hzero

/-- The items handed in are those handed in for the destinations. -/
theorem run_handedFor :
    ∀ {ops : List (Op α F)} {p q : HTram α F}, (∀ op ∈ ops, op.Deferred) →
      p.run cfg ops = .returns q →
      (ops.map Op.handed).sum =
        ∑ d ∈ Finset.range (p.destCount cfg), handed (inputsOf cfg p.knobs.agg ops d) := by
  intro ops
  induction ops with
  | nil =>
    intro p q _ _
    exact (Finset.sum_eq_zero fun _ _ => rfl).symm
  | cons op ops ih =>
    intro p q hops h
    rw [run] at h
    cases hr : p.step cfg op with
    | aborts => rw [hr] at h; cases h
    | hangs r => rw [hr] at h; cases h
    | returns r =>
      rw [hr] at h
      have hagg : r.knobs.agg = p.knobs.agg := by
        rw [(step_acts hr).1]
        exact (op.settings_mode _).1
      have hrest := ih (fun op' h' => hops op' (List.mem_cons_of_mem _ h')) h
      have hcount : r.destCount cfg = p.destCount cfg := by
        unfold destCount
        rw [hagg]
      rw [hagg, hcount] at hrest
      rw [List.map_cons, List.sum_cons, hrest,
        step_handed (hops op (List.mem_cons_self ..)) hr, ← Finset.sum_add_distrib]
      refine Finset.sum_congr rfl fun d _ => ?_
      simp [inputsOf, handed]

/-- With combining off what was handed in on a PE waits there or has been sent. -/
theorem run_waiting {agg : Agg} (hagg : agg ≠ .WsP) {bufSize : ℕ} (hpos : 0 < bufSize)
    {ops : List (Op α F)} (hdef : ∀ op ∈ ops, op.Deferred)
    (hrange : ∀ op ∈ ops, op.InRange cfg agg false)
    (hq : (init agg bufSize : HTram α F).run cfg ops = .returns q) :
    (ops.map Op.handed).sum = q.backlog cfg + q.sentItems cfg ∧
      ∀ d < cfg.destCount agg, ∀ b ≥ cfg.histoBucketCount, (q.dest d).queues b = [] := by
  have hpre : ∀ op ∈ ([] : List (Op α F)), op.Idle ∧ op.InRange cfg agg false := by simp
  have hran := session_ran hagg hpos hpre hrange (fun op _ => op.rules_le false)
    fun h => by cases h
  have hsession : session cfg agg bufSize [] false ops = .returns q := hq
  rw [hsession] at hran
  have hran : Ran cfg agg false ⟨false, true, true⟩ ops q := hran
  refine ⟨?_, fun d hd => ((Dest.settled_off hran.combining_eq).mp
    (hran.steady.dest d (hran.destCount ▸ hd))).bounded⟩
  rw [run_handedFor hdef hq]
  have hn : (init agg bufSize : HTram α F).destCount cfg = q.destCount cfg :=
    hran.destCount.symm
  rw [hn]
  unfold backlog sentItems
  rw [← Finset.sum_add_distrib]
  refine Finset.sum_congr rfl fun d hd => ?_
  have hd := Finset.mem_range.mp hd
  have hcons := hran.conserved (fun h => by cases h) d hd
  obtain ⟨L, hblank, hvalid, -, hpath⟩ := hran.path d (hran.destCount ▸ hd)
  have hretired : (q.dest d).hold.retired = [] :=
    (hpath.retired rfl hvalid).trans hblank.retired
  rw [hretired, Multiset.coe_nil, add_zero, hran.agg_eq] at hcons
  refine hcons.trans ?_
  unfold Dest.held Dest.waiting
  rw [hran.combining_eq]
  rfl

end HTram

/-! ## The messages -/

namespace System

variable [Inhabited α] {cfg : Config α} {agg : Agg} {combining : Bool} {s t : System α F}

/-- What the PEs have sent is in flight or has been delivered. -/
def Carried (cfg : Config α) (s : System α F) : Prop :=
  s.total cfg.numPes (fun b => (b.delivered : Multiset α)) (Packet.items cfg) =
    s.total cfg.numPes (fun b => b.tram.sentItems cfg) fun _ => 0

theorem ended_carried (hs : s.Sound cfg agg combining) (hc : s.Carried cfg) {pe : ℕ}
    (hpe : pe < cfg.numPes) {q : HTram α F} {n : ℕ → ℕ} (hq : q.Books cfg agg combining)
    (hsends : (s.node pe).tram.Sends cfg agg n q) : (s.ended cfg pe q).Carried cfg := by
  have hp := (hs.node pe hpe).books
  have hsent : q.sentItems cfg = (s.node pe).tram.sentItems cfg +
      (((s.node pe).tram.outgoing cfg q).map (Packet.items cfg)).sum := by
    have := HTram.outgoing_sum (p := (s.node pe).tram) (q := q)
      (by rw [hp.destCount]; exact hsends.grown) (Packet.items cfg)
    unfold HTram.sentItems
    rw [hq.destCount, ← hp.destCount]
    exact this
  have hleft := Net.total_set (s := s) (v := Packet.items cfg)
    (w := fun b : Branch α F => (b.delivered : Multiset α)) hpe { s.node pe with tram := q }
  have hright := Net.total_set (s := s) (v := fun _ => (0 : Multiset α))
    (w := fun b : Branch α F => b.tram.sentItems cfg) hpe { s.node pe with tram := q }
  have hzero : (((s.node pe).tram.outgoing cfg q).map fun _ => (0 : Multiset α)).sum = 0 := by
    simp
  unfold Carried ended at *
  rw [Net.total_emit, Net.total_emit, hzero, add_zero, add_right_cancel hleft, hc]
  refine add_right_cancel (b := (s.node pe).tram.sentItems cfg) (Eq.trans ?_ hright.symm)
  dsimp only
  rw [hsent]
  abel

omit [Inhabited α] in
/-- A PE hands over what has been taken out of flight. -/
theorem hand_carried {m : Packet α} (hc : s.total cfg.numPes
      (fun b => (b.delivered : Multiset α)) (Packet.items cfg) + m.items cfg =
        s.total cfg.numPes (fun b => b.tram.sentItems cfg) fun _ => 0)
    {pe : ℕ} (hpe : pe < cfg.numPes) {items : List α} (hitems : m.items cfg = items) (count : ℤ) :
    (s.hand pe items count).Carried cfg := by
  have hleft := Net.total_set (s := s) (v := Packet.items cfg)
    (w := fun b : Branch α F => (b.delivered : Multiset α)) hpe
    { s.node pe with
      delivered := (s.node pe).delivered ++ items
      totRecvCount := (s.node pe).totRecvCount + count }
  have hright : (s.hand pe items count).total cfg.numPes (fun b => b.tram.sentItems cfg)
      (fun _ => 0) = s.total cfg.numPes (fun b => b.tram.sentItems cfg) fun _ => 0 := by
    rw [Net.total_nodes, Net.total_nodes]
    exact Finset.sum_congr rfl fun i _ => by rw [hand_tram]
  unfold Carried
  rw [hright, ← hc, hitems]
  refine add_right_cancel (b := ((s.node pe).delivered : Multiset α)) (hleft.trans ?_)
  dsimp only
  rw [← Multiset.coe_add]
  abel

theorem arrive_carried (hsize : 0 < cfg.nodeSize) {m : Packet α} (hm : m.Sound cfg agg)
    (hc : s.total cfg.numPes (fun b => (b.delivered : Multiset α)) (Packet.items cfg) +
      m.items cfg = s.total cfg.numPes (fun b => b.tram.sentItems cfg) fun _ => 0)
    {skip : Bool} (h : arrive cfg skip s m = some t) : t.Carried cfg := by
  cases m with
  | post p =>
    cases h
    exact hand_carried hc (hm.post hsize).1 rfl _
  | buffer d x =>
    obtain ⟨hww, hwps⟩ := hm.buffer
    by_cases ha : agg = .WW
    · obtain ⟨hd, hentry, -⟩ := hww ha
      rw [arrive, hentry] at h
      cases h
      refine hand_carried hc hd ?_ 0
      rw [hm.2.2.received]
      rfl
    · obtain ⟨-, hentry, hwhole⟩ := hwps ha
      rw [arrive, hentry] at h
      cases h
      have hposts : (((HTramRecv.receive (cfg.node d) skip x.msg).map Packet.post).map
          (Packet.items cfg)).sum = payloads x.msg.items := by
        rw [List.map_map]
        show ((HTramRecv.receive (cfg.node d) skip x.msg).map
          fun p => ((p.items cfg : List α) : Multiset α)).sum = _
        rw [payloads, ← Multiset.coe_eq_coe.mpr (receive_items hsize hwhole skip)]
        generalize HTramRecv.receive (cfg.node d) skip x.msg = posts
        induction posts with
        | nil => rfl
        | cons p posts ih =>
          rw [List.map_cons, List.sum_cons, ih, List.flatMap_cons, ← Multiset.coe_add]
      unfold Carried
      rw [Net.total_emit, hposts, Net.total_nodes]
      exact hc.trans Net.total_nodes

variable [ReleaseArith F]

/-- An event keeps it so that what has been sent is in flight or delivered. -/
theorem step_carried (hagg : agg ≠ .WsP) (hsize : 0 < cfg.nodeSize)
    (hcombine : combining = true → ∀ d, cfg.Combines (cfg.Here agg d)) {e : Event α F}
    (he : e.Ok cfg combining) (hs : s.Sound cfg agg combining) (hc : s.Carried cfg)
    (h : step cfg s e = some t) : t.Carried cfg := by
  cases e with
  | call pe op =>
    obtain ⟨hpe, h⟩ := step_call h
    obtain ⟨q, hq, rfl⟩ := settle_some h
    obtain ⟨hbooks, hsends⟩ :=
      HTram.step_books hagg hcombine (hs.node pe hpe).books he.1 he.2 hq
    exact ended_carried hs hc hpe hbooks hsends
  | enableCombining pe =>
    obtain ⟨hpe, h⟩ := step_enableCombining h
    obtain ⟨q, hq, rfl⟩ := settle_some h
    obtain ⟨hbooks, hsends⟩ := HTram.enableCombining_books (hs.node pe hpe).books he hq
    exact ended_carried hs hc hpe hbooks hsends
  | deliver k skip =>
    obtain ⟨m, hk, h⟩ := step_deliver h
    refine arrive_carried hsize (hs.arriving hk) ?_ h
    unfold Carried at hc
    rw [Net.total_take hk, hc, Net.total_nodes, Net.total_nodes]
    rfl

theorem start_carried (cfg : Config α) (agg : Agg) (bufSize : ℕ) :
    (start agg bufSize : System α F).Carried cfg := by
  unfold Carried
  rw [Net.total_quiet rfl, Net.total_nodes]
  refine Finset.sum_congr rfl fun pe _ => ?_
  simp [start, HTram.sentItems, HTram.init, Dest.init, shipped]

/-- In every state of every run with combining off, each item handed in is in one place and on
    its way to its PE, which alone is handed it, at most once. -/
theorem run_placed (hagg : agg ≠ .WsP) (hsize : 0 < cfg.nodeSize) {bufSize : ℕ}
    (hpos : 0 < bufSize) {es : List (Event α F)} (hes : ∀ e ∈ es, e.Ok cfg false)
    (hrange : ∀ e ∈ es, e.InRange cfg agg)
    (hrun : run cfg es (start agg bufSize) = some t) : Placed cfg agg es t := by
  have hoff : false = true → ∀ d, cfg.Combines (cfg.Here agg d) := fun h => by cases h
  obtain ⟨hs, hc⟩ : t.Sound cfg agg false ∧ t.Carried cfg :=
    runs_inv (I := fun s : System α F => s.Sound cfg agg false ∧ s.Carried cfg)
      (fun s e r he hI hr => ⟨step_sound hagg hsize hoff he hI.1 hr,
        step_carried hagg hsize hoff he hI.1 hI.2 hr⟩) hes
      ⟨start_sound cfg agg bufSize false, start_carried cfg agg bufSize⟩ hrun
  have hwaiting : ∀ pe, handedOn pe es =
      (t.node pe).tram.backlog cfg + (t.node pe).tram.sentItems cfg ∧
        ∀ d < cfg.destCount agg, ∀ b ≥ cfg.histoBucketCount,
          ((t.node pe).tram.dest d).queues b = [] := by
    intro pe
    have hcalls : ∀ op ∈ callsOn pe es, Event.call pe op ∈ es := by
      intro op hop
      obtain ⟨e, he, hsome⟩ := List.mem_filterMap.mp hop
      cases e with
      | call i op' =>
        dsimp only at hsome
        split_ifs at hsome with hi
        cases hsome
        rwa [← hi]
      | enableCombining i => cases hsome
      | deliver k skip => cases hsome
    exact HTram.run_waiting hagg hpos (fun op hop => (hes _ (hcalls op hop)).1)
      (fun op hop => hrange _ (hcalls op hop)) (run_callsOn pe hes hrun)
  have hsent : ∑ pe ∈ Finset.range cfg.numPes, (t.node pe).tram.sentItems cfg =
      t.inFlight cfg + t.delivered cfg := by
    unfold Carried at hc
    rw [Net.total_nodes] at hc
    rw [← hc, add_comm]
    rfl
  have honce : ∑ pe ∈ Finset.range cfg.numPes, handedOn pe es =
      ∑ pe ∈ Finset.range cfg.numPes, (t.node pe).tram.backlog cfg + t.inFlight cfg +
        t.delivered cfg := by
    rw [add_assoc, ← hsent, ← Finset.sum_add_distrib]
    exact Finset.sum_congr rfl fun pe _ => (hwaiting pe).1
  refine ⟨fun pe _ => (hwaiting pe).1, honce, fun pe hpe d hd b y hy => ?_,
    fun pe hpe d hd x hx => ?_, fun pe _ => (hwaiting pe).2, fun m hm => ?_,
    fun pe hpe => (hs.node pe hpe).mine, ?_⟩
  · exact ((hs.node pe hpe).books.dest d hd).queues b y hy
  · exact ((hs.node pe hpe).books.dest d hd).buffer.owned x hx
  · have hm := hs.flight m hm
    cases m with
    | post p => exact (hm.post hsize).2.1
    | buffer d x => exact fun y hy => hm.2.2.owned y hy
  · rw [honce]
    exact Multiset.le_add_left _ _

/-- Three items: one has been delivered, one is held, and one is in a buffer. -/
theorem run_placed_four :
    ∃ (es : List (Event KeyValue ℚ)) (t : System KeyValue ℚ),
      run fourPes es (start .WPs 2) = some t ∧ (t.node 3).delivered = [⟨3, 0⟩] ∧
        Placed fourPes .WPs es t := by
  obtain ⟨t, ht, hmine⟩ := of_check
    (o := run fourPes [.call 0 (HTram.offer 3 0), .call 0 (HTram.offer 1 5),
      .call 2 (HTram.offer 1 0), .call 0 (.tflush false), .deliver 0 true, .deliver 0 true]
      (start .WPs 2))
    (P := fun t => (t.node 3).delivered = [⟨3, 0⟩]) (by decide +kernel)
  refine ⟨_, t, ht, hmine, run_placed (by decide) (by decide) (by decide) ?_ ?_ ht⟩
  · simp [Event.Ok, HTram.offer, Op.Deferred, Op.Addressed]
  · simp [HTram.offer, Event.InRange, Op.InRange, fourPes]

end System

end Htram
