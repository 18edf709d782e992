import Htram.System.Sound

/-!
# The totals of `sanityCheck`

Under `WPs` every item sent is counted in `tot_recv_count` when it is handed over. What
`tot_send_count` misses is what `tflush` with combining off finds in the buffers.

* `System.totals_balance`: with nothing in flight the sums of `tot_send_count` and
  `tot_recv_count` agree if and only if no such call has found an item in a buffer.
-/

namespace Htram

open Network

variable {α F : Type*}

/-- The items of a message in flight. -/
def Packet.weight (cfg : Config α) : Packet α → ℤ
  | .buffer _ s => s.msg.next
  | .post p => p.count cfg

namespace HTram

/-- The items that a PE has sent. -/
def sentCount (cfg : Config α) (p : HTram α F) : ℤ :=
  ∑ d ∈ Finset.range (p.destCount cfg), ((p.dest d).sent.map fun s => (s.msg.next : ℤ)).sum

/-- The items that a PE has sent and not added to `tot_send_count`. -/
def uncounted (cfg : Config α) (p : HTram α F) : ℤ :=
  ∑ d ∈ Finset.range (p.destCount cfg), (p.dest d).uncounted

theorem sentCount_eq (cfg : Config α) (p : HTram α F) :
    p.sentCount cfg = p.totSendCount cfg + p.uncounted cfg := by
  unfold sentCount totSendCount uncounted
  rw [← Finset.sum_add_distrib]
  refine Finset.sum_congr rfl fun d _ => ?_
  unfold Dest.uncounted
  omega

variable {cfg : Config α} {agg : Agg} {combining : Bool} {p q : HTram α F} {n : ℕ → ℕ}

theorem Sends.sentCount (hp : p.Books cfg agg combining) (hq : q.Books cfg agg combining)
    (hs : p.Sends cfg agg n q) :
    q.sentCount cfg = p.sentCount cfg + ((p.outgoing cfg q).map (Packet.weight cfg)).sum := by
  have := outgoing_sum (p := p) (q := q) (by rw [hp.destCount]; exact hs.grown)
    (Packet.weight cfg)
  unfold HTram.sentCount
  rw [hq.destCount, ← hp.destCount]
  exact this

theorem Sends.total_uncounted (hp : p.Books cfg agg combining) (hq : q.Books cfg agg combining)
    (hs : p.Sends cfg agg n q) :
    q.uncounted cfg = p.uncounted cfg + ∑ d ∈ Finset.range (cfg.destCount agg), (n d : ℤ) := by
  unfold HTram.uncounted
  rw [hq.destCount, hp.destCount, ← Finset.sum_add_distrib]
  exact Finset.sum_congr rfl fun d hd => hs.uncounted d (Finset.mem_range.mp hd)

end HTram

/-- The sorted messages that a node posts count what it received. -/
theorem receive_count [Inhabited α] {cfg : Config α} (hsize : 0 < cfg.nodeSize) {d : ℕ}
    {m : HTramMessage α} (hm : m.Whole cfg fun y => cfg.nodeOf (cfg.getDestProc y) = d)
    (skip : Bool) :
    (((HTramRecv.receive (cfg.node d) skip m).map Packet.post).map (Packet.weight cfg)).sum =
      m.next := by
  have hlen := (receive_items hsize hm skip).length_eq
  rw [List.length_map, hm.written, List.length_flatMap] at hlen
  rw [List.map_map, ← hlen, Nat.cast_list_sum, List.map_map]
  congr 1
  refine List.map_congr_left fun p hp => ?_
  obtain ⟨-, -, -, -, hcount⟩ := mem_receive hsize hm hp
  exact hcount

namespace System

/-- What has been counted as received and is in flight, less what has been sent. -/
def balance (cfg : Config α) (s : System α F) : ℤ :=
  s.total cfg.numPes (fun b => b.totRecvCount - b.tram.sentCount cfg) (Packet.weight cfg)

/-- What all PEs have sent and not added to `tot_send_count`. -/
def uncounted (cfg : Config α) (s : System α F) : ℤ :=
  s.total cfg.numPes (fun b => b.tram.uncounted cfg) fun _ => 0

theorem uncounted_eq (cfg : Config α) (s : System α F) :
    s.uncounted cfg = ∑ pe ∈ Finset.range cfg.numPes, (s.node pe).tram.uncounted cfg :=
  Net.total_nodes

/-- Once nothing is in flight, the totals differ by what was not counted. -/
theorem totRecv_eq {cfg : Config α} {s : System α F} (hs : s.balance cfg = 0)
    (hquiet : s.flight = []) : s.totRecv cfg = s.totSend cfg + s.uncounted cfg := by
  unfold balance at hs
  rw [Net.total_quiet hquiet, Finset.sum_sub_distrib] at hs
  rw [uncounted_eq]
  unfold totRecv totSend
  rw [← Finset.sum_add_distrib, sub_eq_zero.mp hs]
  exact Finset.sum_congr rfl fun pe _ => HTram.sentCount_eq cfg _

end System

/-! ## One event -/

/-- The items that the event sends and does not add to `tot_send_count`. -/
def Event.uncounts [ReleaseArith F] [Inhabited α] (cfg : Config α) (s : System α F) :
    Event α F → ℕ
  | .call pe op =>
    ∑ d ∈ Finset.range ((s.node pe).tram.destCount cfg),
      op.uncounts (s.node pe).tram.knobs ((s.node pe).tram.dest d)
  | _ => 0

namespace System

variable [Inhabited α] {cfg : Config α} {agg : Agg} {combining : Bool} {s t : System α F}

theorem ended_balance (hs : s.Sound cfg agg combining) {pe : ℕ} (hpe : pe < cfg.numPes)
    {q : HTram α F} {n : ℕ → ℕ} (hq : q.Books cfg agg combining)
    (hsends : (s.node pe).tram.Sends cfg agg n q) :
    (s.ended cfg pe q).balance cfg = s.balance cfg := by
  have hsent := hsends.sentCount (hs.node pe hpe).books hq
  unfold balance ended
  rw [Net.total_emit, Net.total_set_sub hpe]
  dsimp only
  rw [hsent]
  omega

theorem ended_uncounted (hs : s.Sound cfg agg combining) {pe : ℕ} (hpe : pe < cfg.numPes)
    {q : HTram α F} {n : ℕ → ℕ} (hq : q.Books cfg agg combining)
    (hsends : (s.node pe).tram.Sends cfg agg n q) :
    (s.ended cfg pe q).uncounted cfg =
      s.uncounted cfg + ∑ d ∈ Finset.range (cfg.destCount agg), (n d : ℤ) := by
  have hsent := hsends.total_uncounted (hs.node pe hpe).books hq
  have hzero : (((s.node pe).tram.outgoing cfg q).map fun _ => (0 : ℤ)).sum = 0 := by simp
  unfold uncounted ended
  rw [Net.total_emit, Net.total_set_sub hpe, hzero]
  dsimp only
  rw [hsent]
  omega

omit [Inhabited α] in
theorem hand_balance {pe : ℕ} (hpe : pe < cfg.numPes) (items : List α) (count : ℤ) :
    (s.hand pe items count).balance cfg = s.balance cfg + count := by
  unfold balance hand
  rw [Net.total_set_sub hpe]
  dsimp only
  omega

omit [Inhabited α] in
theorem hand_uncounted {pe : ℕ} (items : List α) (count : ℤ) :
    (s.hand pe items count).uncounted cfg = s.uncounted cfg := by
  rw [uncounted_eq, uncounted_eq]
  refine Finset.sum_congr rfl fun i _ => ?_
  unfold hand
  by_cases h : i = pe
  · subst h
    rw [Net.set_node_self]
  · rw [Net.set_node_of_ne s h]

/-- Under `WPs` an arrival counts as received what it takes out of flight. -/
theorem arrive_balance (hsize : 0 < cfg.nodeSize) {m : Packet α} (hm : m.Sound cfg .WPs)
    {skip : Bool} (h : arrive cfg skip s m = some t) :
    t.balance cfg = s.balance cfg + m.weight cfg ∧ t.uncounted cfg = s.uncounted cfg := by
  cases m with
  | post p =>
    cases h
    exact ⟨hand_balance (hm.post hsize).1 _ _, hand_uncounted _ _⟩
  | buffer d x =>
    obtain ⟨-, hentry, hwhole⟩ := hm.buffer.2 (by decide)
    rw [arrive, hentry] at h
    cases h
    refine ⟨?_, ?_⟩
    · unfold balance
      rw [Net.total_emit, receive_count hsize hwhole skip]
      rfl
    · rw [uncounted_eq, uncounted_eq]
      rfl

variable [ReleaseArith F]

/-- What an event does to the totals. -/
theorem step_totals (hsize : 0 < cfg.nodeSize)
    (hcombine : combining = true → ∀ d, cfg.Combines (cfg.Here .WPs d)) {e : Event α F}
    (he : e.Ok cfg combining) (hs : s.Sound cfg .WPs combining) (h : step cfg s e = some t) :
    t.balance cfg = s.balance cfg ∧ t.uncounted cfg = s.uncounted cfg + e.uncounts cfg s := by
  cases e with
  | call pe op =>
    obtain ⟨hpe, h⟩ := step_call h
    obtain ⟨q, hq, rfl⟩ := settle_some h
    have hp := (hs.node pe hpe).books
    obtain ⟨hbooks, hsends⟩ := HTram.step_books (by decide) hcombine hp he.1 he.2 hq
    refine ⟨ended_balance hs hpe hbooks hsends, ?_⟩
    rw [ended_uncounted hs hpe hbooks hsends, Event.uncounts, hp.destCount, Nat.cast_sum]
  | enableCombining pe =>
    obtain ⟨hpe, h⟩ := step_enableCombining h
    obtain ⟨q, hq, rfl⟩ := settle_some h
    obtain ⟨hbooks, hsends⟩ := HTram.enableCombining_books (hs.node pe hpe).books he hq
    refine ⟨ended_balance hs hpe hbooks hsends, ?_⟩
    rw [ended_uncounted hs hpe hbooks hsends]
    simp [Event.uncounts]
  | deliver k skip =>
    obtain ⟨m, hk, h⟩ := step_deliver h
    obtain ⟨hbal, hunc⟩ := arrive_balance hsize (hs.arriving hk) h
    have htake := Net.total_take (n := cfg.numPes) (v := Packet.weight cfg)
      (w := fun b : Branch α F => b.totRecvCount - b.tram.sentCount cfg) hk
    refine ⟨?_, ?_⟩
    · rw [hbal]
      exact htake
    · rw [hunc, uncounted_eq, uncounted_eq]
      simp [Event.uncounts]

end System

/-! ## Runs -/

/-- The event is not a `tflush` with combining off that finds an item in a buffer. -/
def Event.Counts [ReleaseArith F] (cfg : Config α) (s : System α F) : Event α F → Prop
  | .call pe (.tflush false) => (s.node pe).tram.knobs.combining = false →
      ∀ d < (s.node pe).tram.destCount cfg, ((s.node pe).tram.dest d).msgBuffer.next = 0
  | _ => True

theorem Event.counts_iff [ReleaseArith F] [Inhabited α] {cfg : Config α} {s : System α F}
    {e : Event α F} : e.Counts cfg s ↔ e.uncounts cfg s = 0 := by
  cases e with
  | call pe op =>
    cases op with
    | tflush idleflush =>
      rw [Event.uncounts, Finset.sum_eq_zero_iff]
      simp only [Op.uncounts, Dest.tflushed, Finset.mem_range]
      cases idleflush with
      | true => simp [Event.Counts]
      | false =>
        cases hk : (s.node pe).tram.knobs.combining with
        | true => simp [Event.Counts, hk]
        | false => simp [Event.Counts, hk]
    | _ => simp [Event.Counts, Event.uncounts, Op.uncounts]
  | _ => simp [Event.Counts, Event.uncounts]

namespace System

variable [Inhabited α] [ReleaseArith F]

/-- No event of the run is a `tflush` with combining off that finds an item in a buffer. -/
def CountsRun (cfg : Config α) : List (Event α F) → System α F → Prop
  | [], _ => True
  | e :: es, s => e.Counts cfg s ∧ ∀ t, step cfg s e = some t → CountsRun cfg es t

variable {cfg : Config α} {combining : Bool}

/-- A run keeps the balance, and what it leaves uncounted never becomes less. -/
theorem run_totals (hsize : 0 < cfg.nodeSize)
    (hcombine : combining = true → ∀ d, cfg.Combines (cfg.Here .WPs d)) :
    ∀ {es : List (Event α F)} {s t : System α F}, (∀ e ∈ es, e.Ok cfg combining) →
      s.Sound cfg .WPs combining → run cfg es s = some t →
      t.balance cfg = s.balance cfg ∧ s.uncounted cfg ≤ t.uncounted cfg ∧
        (t.uncounted cfg = s.uncounted cfg ↔ CountsRun cfg es s) := by
  intro es
  induction es with
  | nil =>
    intro s t _ _ h
    cases h
    exact ⟨rfl, le_refl _, by simp [CountsRun]⟩
  | cons e es ih =>
    intro s t hes hs h
    obtain ⟨r, hr, ht⟩ := runs_cons.mp h
    have he := hes e (List.mem_cons_self ..)
    obtain ⟨hbal, hunc⟩ := step_totals hsize hcombine he hs hr
    obtain ⟨hbal', hle, hiff⟩ := ih (fun e' h' => hes e' (List.mem_cons_of_mem _ h'))
      (step_sound (by decide) hsize hcombine he hs hr) ht
    refine ⟨hbal'.trans hbal, by omega, ?_⟩
    rw [CountsRun, Event.counts_iff, hr]
    constructor
    · intro heq
      refine ⟨by omega, fun r' hr' => ?_⟩
      cases hr'
      exact hiff.mp (by omega)
    · rintro ⟨h0, hrest⟩
      have := hiff.mpr (hrest r rfl)
      omega

theorem start_totals (cfg : Config α) (agg : Agg) (bufSize : ℕ) :
    (start agg bufSize : System α F).balance cfg = 0 ∧
      (start agg bufSize : System α F).uncounted cfg = 0 := by
  constructor
  · unfold balance
    rw [Net.total_quiet rfl]
    refine Finset.sum_eq_zero fun pe _ => ?_
    simp [start, HTram.sentCount, HTram.init, Dest.init]
  · rw [uncounted_eq]
    refine Finset.sum_eq_zero fun pe _ => ?_
    simp [start, HTram.uncounted, HTram.init, Dest.init, Dest.uncounted]

/-- Whenever nothing is in flight, the sums of `tot_send_count` and `tot_recv_count` over all
    PEs agree if and only if no `tflush` with combining off has found an item in a buffer. -/
theorem totals_balance (hsize : 0 < cfg.nodeSize)
    (hcombine : combining = true → ∀ d, cfg.Combines (cfg.Here .WPs d)) {bufSize : ℕ}
    {es : List (Event α F)} (hes : ∀ e ∈ es, e.Ok cfg combining) {t : System α F}
    (hrun : run cfg es (start .WPs bufSize) = some t) (hquiet : t.flight = []) :
    t.totSend cfg = t.totRecv cfg ↔ CountsRun cfg es (start .WPs bufSize) := by
  obtain ⟨hbal, -, hiff⟩ := run_totals hsize hcombine hes (start_sound cfg .WPs bufSize combining)
    hrun
  obtain ⟨hbal₀, hunc₀⟩ := start_totals (F := F) cfg .WPs bufSize
  have htotal := totRecv_eq (hbal.trans hbal₀) hquiet
  rw [← hiff, hunc₀]
  omega

/-- With combining on `tflush` counts what it ships. -/
theorem totals_balance_four :
    ∃ (es : List (Event KeyValue ℚ)) (t : System KeyValue ℚ),
      run fourPes es (start .WPs 4) = some t ∧ t.totRecv fourPes = 1 ∧
        (t.totSend fourPes = t.totRecv fourPes ↔ CountsRun fourPes es (start .WPs 4)) := by
  obtain ⟨t, ht, hlen, hrecv⟩ := of_check
    (o := run fourPes [.enableCombining 0, .call 0 (HTram.offer 3 0), .call 0 (.tflush false),
      .deliver 0 false, .deliver 0 true, .deliver 0 true] (start .WPs 4))
    (P := fun t => t.flight.length = 0 ∧ t.totRecv fourPes = 1) (by decide +kernel)
  have hes : ∀ e ∈ ([.enableCombining 0, .call 0 (HTram.offer 3 0), .call 0 (.tflush false),
      .deliver 0 false, .deliver 0 true, .deliver 0 true] : List (Event KeyValue ℚ)),
      e.Ok fourPes true := by
    simp [Event.Ok, HTram.offer, Op.Deferred, Op.Addressed]
  exact ⟨_, t, ht, hrecv, totals_balance (by decide) (fun _ d => fourPes_combines _) hes ht
    (List.length_eq_zero_iff.mp hlen)⟩

/-- With combining off it does not: one item is sent, and received, and is not counted as
    sent. -/
theorem totals_unbalanced :
    ∃ t, run fourPes [.call 0 (HTram.offer 3 0), .call 0 (.tflush false), .deliver 0 true,
        .deliver 0 true] (start .WPs 4) = some t ∧
      t.flight = [] ∧ t.totSend fourPes = 0 ∧ t.totRecv fourPes = 1 := by
  obtain ⟨t, ht, hlen, htotals⟩ := of_check
    (o := run fourPes [.call 0 (HTram.offer 3 0), .call 0 (.tflush false), .deliver 0 true,
      .deliver 0 true] (start .WPs 4))
    (P := fun t => t.flight.length = 0 ∧ t.totSend fourPes = 0 ∧ t.totRecv fourPes = 1)
    (by decide +kernel)
  exact ⟨t, ht, List.length_eq_zero_iff.mp hlen, htotals⟩

end System

end Htram
