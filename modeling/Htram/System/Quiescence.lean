import Htram.System.Quiesce

/-!
# When `quiesce_cb` is sent

* `Quiescence.step_sound`: an event keeps every PE counting all that it has admitted, and the
  protocol in one of its phases.
* `Quiescence.quiesce_cb_quiet`: unless the last PE with something to count loses it before it
  is counted, `quiesce_cb` is sent only when no message is in flight and every PE is empty.
* `Quiescence.untimed_along`: without a timed flush no PE does.
-/

namespace Htram

open Network

variable {α F : Type*}

namespace Quiescence

/-! ## The invariant -/

/-- Something has been counted, something is left to count, or there is nothing anywhere. -/
def Watched (cfg : Config α) (s : Quiescence α F) : Prop :=
  (∃ c ∈ s.counts, 0 < c) ∨
    (∃ pe, .countBuffers pe ∈ s.pending ∧ ¬ (s.tram pe).Empty cfg) ∨ s.Quiet cfg

/-- Nothing is being counted. -/
structure Calm (s : Quiescence α F) : Prop where
  counts : s.counts = []
  pending : ∀ c ∈ s.pending, c = .onQD ∨ ∃ pe, c = .tflush pe
  unasked : s.requested = false → s.armed = none ∧ s.pending = []

/-- The PEs are being counted. -/
structure Counting (cfg : Config α) (s : Quiescence α F) : Prop where
  requested : s.requested = true
  armed : s.armed = none
  pending : ∀ c ∈ s.pending, ∃ pe, c = .countBuffers pe
  total : s.counts.length + s.pending.length = cfg.numPes
  nonneg : ∀ c ∈ s.counts, 0 ≤ c
  watched : s.Watched cfg

/-- The sum of the counts is on its way to PE 0. -/
structure Totalled (cfg : Config α) (s : Quiescence α F) : Prop where
  requested : s.requested = true
  armed : s.armed = none
  counts : s.counts = []
  total : ∃ total : ℤ, s.pending = [.onBufferCount total] ∧ (0 < total ∨ s.Quiet cfg)

/-- Every PE counts all that is admitted, and the protocol is in one of its phases. -/
structure Sound (cfg : Config α) (s : Quiescence α F) : Prop where
  counted : ∀ pe, (s.tram pe).NoneMissed cfg
  phase : s.Calm ∨ s.Counting cfg ∨ s.Totalled cfg

variable {cfg : Config α} {s t : Quiescence α F}

/-- While PEs are counted, what one of them contributes is not negative, and positive unless
    it is empty. -/
theorem Counting.watched_count (h : s.Counting cfg) {k pe : ℕ}
    (hk : s.pending[k]? = some (.countBuffers pe)) (hp : (s.tram pe).NoneMissed cfg) :
    (∃ c ∈ s.counts ++ [(s.tram pe).countBuffers cfg], 0 < c) ∨
      (∃ i, .countBuffers i ∈ s.pending.eraseIdx k ∧ ¬ (s.tram i).Empty cfg) ∨ s.Quiet cfg := by
  rcases h.watched with ⟨c, hc, hpos⟩ | ⟨i, hi, hne⟩ | hquiet
  · exact Or.inl ⟨c, List.mem_append_left _ hc, hpos⟩
  · by_cases hpe : i = pe
    · subst hpe
      have hnonneg := hp.count_nonneg
      have hcount : (s.tram i).countBuffers cfg ≠ 0 := fun h0 => hne (hp.empty_of_count h0)
      exact Or.inl ⟨_, List.mem_append_right _ (List.mem_singleton_self _), by omega⟩
    · obtain ⟨j, hj, hget⟩ := List.mem_iff_getElem.mp hi
      have hjk : j ≠ k := by
        rintro rfl
        rw [List.getElem?_eq_getElem hj, hget, Option.some.injEq, Control.countBuffers.injEq] at hk
        exact hpe hk
      exact Or.inr (Or.inl ⟨i, List.mem_eraseIdx_iff_getElem.mpr ⟨j, hj, hjk, hget⟩, hne⟩)
  · exact Or.inr (Or.inr hquiet)

/-- One contribution. -/
theorem Counting.contribute (hs : s.Sound cfg) (h : s.Counting cfg) {k pe : ℕ}
    (hk : s.pending[k]? = some (.countBuffers pe)) :
    (({ s with pending := s.pending.eraseIdx k } : Quiescence α F).contribute cfg
      ((s.tram pe).countBuffers cfg)).Sound cfg := by
  obtain ⟨hlt, hget⟩ := List.getElem?_eq_some_iff.mp hk
  have hp := hs.counted pe
  have hwatched := h.watched_count hk hp
  have hlen := List.length_eraseIdx_of_lt hlt
  have htotal := h.total
  have hnonneg : ∀ c ∈ s.counts ++ [(s.tram pe).countBuffers cfg], 0 ≤ c := by
    intro c hc
    rcases List.mem_append.mp hc with hc | hc
    · exact h.nonneg c hc
    · rw [List.mem_singleton.mp hc]
      exact hp.count_nonneg
  have hcounts : (s.counts ++ [(s.tram pe).countBuffers cfg]).length = s.counts.length + 1 :=
    List.length_append
  unfold Quiescence.contribute
  dsimp only
  split_ifs with hlast
  · refine ⟨hs.counted, Or.inr (Or.inr ⟨h.requested, h.armed, rfl,
      (s.counts ++ [(s.tram pe).countBuffers cfg]).sum, ?_, ?_⟩)⟩
    · have hnil : s.pending.eraseIdx k = [] := List.length_eq_zero_iff.mp (by omega)
      rw [hnil]
      rfl
    · rcases hwatched with ⟨c, hc, hpos⟩ | ⟨j, hj, -⟩ | hquiet
      · exact Or.inl (hpos.trans_le (List.single_le_sum hnonneg c hc))
      · have := List.length_pos_of_mem hj
        omega
      · exact Or.inr hquiet
  · refine ⟨hs.counted, Or.inr (Or.inl ⟨h.requested, h.armed, fun c hc => ?_, ?_, hnonneg,
      hwatched⟩)⟩
    · exact h.pending c (List.mem_of_mem_eraseIdx hc)
    · show (s.counts ++ [(s.tram pe).countBuffers cfg]).length + (s.pending.eraseIdx k).length = _
      omega

/-- The phase in which a message of the protocol is on its way. -/
theorem Sound.phase_of (hs : s.Sound cfg) {k : ℕ} {c : Control} (hk : s.pending[k]? = some c) :
    match c with
    | .onQD | .tflush _ => s.Calm
    | .countBuffers _ => s.Counting cfg
    | .onBufferCount total =>
      s.Totalled cfg ∧ s.pending.eraseIdx k = [] ∧ (0 < total ∨ s.Quiet cfg) := by
  have hmem := List.mem_of_getElem? hk
  rcases hs.phase with h | h | h
  · obtain rfl | ⟨pe, rfl⟩ := h.pending c hmem
    · exact h
    · exact h
  · obtain ⟨pe, rfl⟩ := h.pending c hmem
    exact h
  · obtain ⟨total, hpending, htotal⟩ := h.total
    rw [hpending] at hk
    obtain ⟨hlt, hget⟩ := List.getElem?_eq_some_iff.mp hk
    have h0 : k = 0 := by
      rw [List.length_singleton] at hlt
      omega
    subst h0
    rw [List.getElem_cons_zero] at hget
    subst hget
    refine ⟨h, ?_, htotal⟩
    rw [hpending]
    rfl

/-! ## Calls on one PE -/

theorem onSys_some {o : Option (System α F)} (h : s.onSys o = some t) :
    o = some t.sys ∧ t = { s with sys := t.sys } := by
  obtain ⟨r, hr, rfl⟩ := Option.map_eq_some_iff.mp h
  exact ⟨hr, rfl⟩

/-- A call that ends leaves the other PEs as they are. -/
theorem settle_trams {x y : System α F} {pe : ℕ} {o : Outcome (HTram α F)}
    (h : x.settle cfg pe o = some y) :
    o = .returns (y.node pe).tram ∧ (∀ i ≠ pe, (y.node i).tram = (x.node i).tram) ∧
      y.flight = x.flight ++ (x.node pe).tram.outgoing cfg (y.node pe).tram := by
  obtain ⟨q, rfl, rfl⟩ := System.settle_some h
  have hself : ((x.ended cfg pe q).node pe).tram = q := by
    unfold System.ended
    rw [Net.emit_node, Net.set_node_self]
  refine ⟨by rw [hself], fun i hi => ?_, ?_⟩
  · unfold System.ended
    rw [Net.emit_node, Net.set_node_of_ne x hi]
  · rw [hself]
    rfl

/-- A call that ships nothing sends nothing. -/
theorem outgoing_nil {p q : HTram α F}
    (h : ∀ d < p.destCount cfg, (q.dest d).sent = (p.dest d).sent) : p.outgoing cfg q = [] := by
  unfold HTram.outgoing
  rw [List.flatMap_eq_nil_iff]
  intro d hd
  rw [h d (List.mem_range.mp hd), List.drop_length]
  rfl

variable [Inhabited α] [ReleaseArith F]

/-- From `s` to `t` PE `pe` has made the calls `ops`, and nothing of the protocol has changed.
    Either a message has arrived, or the calls were those of one event outside the callbacks. -/
structure Works (cfg : Config α) (pe : ℕ) (ops : List (Op α F)) (s t : Quiescence α F) :
    Prop where
  ran : (s.tram pe).run cfg ops = .returns (t.tram pe)
  others : ∀ i ≠ pe, t.tram i = s.tram i
  rest : t = { s with sys := t.sys }
  outside : s.sys.flight ≠ [] ∨ pe < cfg.numPes ∧ (∃ op, ops = [op] ∧
      (s.requested = true → op.Flushes)) ∧
    t.sys.flight = s.sys.flight ++ (s.tram pe).outgoing cfg (t.tram pe)

theorem call_works {pe : ℕ} {op : Op α F} (hop : s.requested = true → op.Flushes)
    (h : s.onSys (s.sys.step cfg (.call pe op)) = some t) : Works cfg pe [op] s t := by
  obtain ⟨hstep, hrest⟩ := onSys_some h
  obtain ⟨hpe, hsettle⟩ := System.step_call hstep
  obtain ⟨hran, hothers, hflight⟩ := settle_trams hsettle
  refine ⟨?_, hothers, hrest, Or.inr ⟨hpe, ⟨op, rfl, hop⟩, hflight⟩⟩
  rw [HTram.run_singleton]
  exact hran

theorem deliver_works {k : ℕ} {skip : Bool} {calls : List (Op α F)}
    (h : step cfg s (.deliver k skip calls) = some t) :
    ∃ m, s.sys.flight[k]? = some m ∧ ((∃ pe, m.client = some pe ∧ Works cfg pe calls s t) ∨
      Works cfg 0 [] s t) := by
  obtain ⟨hdeliver, hrest⟩ := onSys_some h
  obtain ⟨m, hm, hdeliver⟩ := Option.bind_eq_some_iff.mp hdeliver
  obtain ⟨x, harrive, hcalls⟩ := Option.bind_eq_some_iff.mp hdeliver
  have htram : ∀ i, (x.node i).tram = s.tram i := fun i => System.arrive_tram harrive i
  have hsome : s.sys.flight ≠ [] := by
    intro hnil
    rw [hnil] at hm
    cases hm
  refine ⟨m, hm, ?_⟩
  cases hclient : m.client with
  | none =>
    rw [hclient] at hcalls
    have hx : x = t.sys := Option.some.inj hcalls
    have htram' : ∀ i, t.tram i = s.tram i := fun i => by
      rw [← htram, hx]
      rfl
    exact Or.inr ⟨by rw [htram']; rfl, fun i _ => htram' i, hrest, Or.inl hsome⟩
  | some pe =>
    rw [hclient] at hcalls
    obtain ⟨hran, hothers, -⟩ := settle_trams hcalls
    rw [htram] at hran
    exact Or.inl ⟨pe, rfl, hran, fun i hi => (hothers i hi).trans (htram i), hrest, Or.inl hsome⟩

namespace Works

variable {pe : ℕ} {ops : List (Op α F)}

theorem noneMissed (hw : Works cfg pe ops s t) (hops : (s.tram pe).Orderly cfg ops)
    (hs : ∀ i, (s.tram i).NoneMissed cfg) (i : ℕ) :
    (t.tram i).NoneMissed cfg ∧ (t.tram i).knobs.agg = (s.tram i).knobs.agg ∧
      (t.tram i).knobs.combining = (s.tram i).knobs.combining := by
  by_cases h : i = pe
  · subst h
    exact HTram.run_noneMissed (hs i) hops hw.ran
  · rw [hw.others i h]
    exact ⟨hs i, rfl, rfl⟩

/-- With nothing anywhere, a flush changes nothing. -/
theorem quiet (hw : Works cfg pe ops s t) (hops : (s.tram pe).Orderly cfg ops)
    (hs : ∀ i, (s.tram i).NoneMissed cfg) (hrequested : s.requested = true)
    (hquiet : s.Quiet cfg) : t.Quiet cfg := by
  obtain ⟨hflight, hempty⟩ := hquiet
  rcases hw.outside with hne | ⟨hpe, ⟨op, rfl, hop⟩, hout⟩
  · exact absurd hflight hne
  · have hran := hw.ran
    rw [HTram.run_singleton] at hran
    obtain ⟨hempty', hsent⟩ := HTram.flush_empty (hs pe).toSteady (hempty pe hpe)
      (hop hrequested) hops.safe.1 hran
    refine ⟨?_, fun i hi => ?_⟩
    · rw [hout, hflight, outgoing_nil hsent]
      rfl
    · by_cases h : i = pe
      · subst h
        exact hempty'
      · rw [hw.others i h]
        exact hempty i hi

end Works

theorem Works.watched {pe : ℕ} {ops : List (Op α F)} (hw : Works cfg pe ops s t)
    (hfair : s.Fair cfg pe ops) (hs : ∀ i, (s.tram i).NoneMissed cfg)
    (hrequested : s.requested = true) (hnonneg : ∀ c ∈ s.counts, 0 ≤ c)
    (hwatched : s.Watched cfg) : t.Watched cfg := by
  have hpending : t.pending = s.pending := by rw [hw.rest]
  have hcounts : t.counts = s.counts := by rw [hw.rest]
  unfold Watched
  rw [hpending, hcounts]
  rcases hwatched with hpos | ⟨i, hi, hne⟩ | hquiet
  · exact Or.inl hpos
  · by_cases hpos : ∃ c ∈ s.counts, 0 < c
    · exact Or.inl hpos
    · right; left
      by_cases hother : ∃ j ≠ pe, .countBuffers j ∈ s.pending ∧ ¬ (s.tram j).Empty cfg
      · obtain ⟨j, hj, hmem, hnej⟩ := hother
        refine ⟨j, hmem, ?_⟩
        rw [hw.others j hj]
        exact hnej
      · -- the PE that works is the last one with something to count
        push Not at hpos hother
        have hpe : i = pe := by
          by_contra h
          exact hne (hother i h hi)
        subst hpe
        have hrests : s.Rests cfg i :=
          ⟨hi, fun c hc => le_antisymm (hpos c hc) (hnonneg c hc), hother, hne⟩
        exact ⟨i, hi, hfair.leaves hrests _ hw.ran⟩
  · exact Or.inr (Or.inr (hw.quiet hfair.orderly hs hrequested hquiet))

theorem Works.sound {pe : ℕ} {ops : List (Op α F)} (hw : Works cfg pe ops s t)
    (hfair : s.Fair cfg pe ops) (hs : s.Sound cfg) : t.Sound cfg := by
  refine ⟨fun i => (hw.noneMissed hfair.orderly hs.counted i).1, ?_⟩
  have hrest := hw.rest
  rcases hs.phase with h | h | h
  · left
    rw [hrest]
    exact ⟨h.counts, h.pending, h.unasked⟩
  · right; left
    have hwatched := hw.watched hfair hs.counted h.requested h.nonneg h.watched
    rw [hrest] at hwatched ⊢
    exact ⟨h.requested, h.armed, h.pending, h.total, h.nonneg, hwatched⟩
  · right; right
    obtain ⟨total, hpending, htotal⟩ := h.total
    have htotal' : 0 < total ∨ t.Quiet cfg :=
      htotal.imp_right (hw.quiet hfair.orderly hs.counted h.requested)
    rw [hrest] at htotal' ⊢
    exact ⟨h.requested, h.armed, h.counts, total, hpending, htotal'⟩

/-- A message of the protocol keeps the invariant. -/
theorem control_sound {k : ℕ} (he : s.Meets cfg (.control k)) (hs : s.Sound cfg)
    (h : step cfg s (.control k) = some t) : t.Sound cfg := by
  obtain ⟨c, hk, h⟩ := Option.bind_eq_some_iff.mp h
  have hphase := hs.phase_of hk
  have hasked : s.Calm → s.requested = false → False := by
    intro hcalm hr
    rw [(hcalm.unasked hr).2] at hk
    cases hk
  cases c with
  | onQD =>
    cases h
    refine ⟨hs.counted, Or.inl ⟨hphase.counts, fun c hc => ?_, fun hr => ?_⟩⟩
    · rcases List.mem_append.mp hc with hc | hc
      · exact hphase.pending c (List.mem_of_mem_eraseIdx hc)
      · obtain ⟨pe, -, rfl⟩ := List.mem_map.mp hc
        exact Or.inr ⟨pe, rfl⟩
    · exact (hasked hphase hr).elim
  | tflush pe =>
    have hw : Works cfg pe [.tflush false] _ t := call_works (fun _ => trivial) h
    refine ⟨fun i => (hw.noneMissed (he pe hk).orderly hs.counted i).1, Or.inl ?_⟩
    rw [hw.rest]
    exact ⟨hphase.counts, fun c hc => hphase.pending c (List.mem_of_mem_eraseIdx hc),
      fun hr => (hasked hphase hr).elim⟩
  | countBuffers pe =>
    cases h
    exact hphase.contribute hs hk
  | onBufferCount total =>
    obtain ⟨hphase, hnil, -⟩ := hphase
    rw [handle] at h
    rw [hnil] at h
    split_ifs at h
    · cases h
      refine ⟨hs.counted, Or.inl ⟨hphase.counts, fun c hc => ?_, fun _ => ⟨hphase.armed, rfl⟩⟩⟩
      cases hc
    · cases h
      refine ⟨hs.counted, Or.inl ⟨hphase.counts, fun c hc => ?_, fun hr => ?_⟩⟩
      · cases hc
      · exact absurd (hphase.requested.symm.trans hr) (by simp)

/-- An event keeps the invariant. -/
theorem step_sound {e : Event α F} (he : s.Meets cfg e) (hs : s.Sound cfg)
    (h : step cfg s e = some t) : t.Sound cfg := by
  cases e with
  | call pe op =>
    rw [step] at h
    split_ifs at h with hop
    have hflushes : s.requested = true → op.Flushes := fun hr => hop.resolve_left (by simp [hr])
    exact (call_works hflushes h).sound he hs
  | periodicTflush pe =>
    have hw : Works cfg pe [.tflush false] s t := call_works (fun _ => trivial) h
    exact hw.sound he hs
  | deliver k skip calls =>
    obtain ⟨m, hm, ⟨pe, hclient, hw⟩ | hw⟩ := deliver_works h
    · exact hw.sound (he m hm pe hclient) hs
    · refine hw.sound ⟨⟨?_, ?_, ?_, trivial⟩, fun hrests q hq => ?_⟩ hs
      · exact fun op hop => absurd hop (List.not_mem_nil)
      · exact fun op hop => absurd hop (List.not_mem_nil)
      · exact fun op hop => absurd hop (List.not_mem_nil)
      · cases hq
        exact hrests.waits
  | htramQuiesce =>
    rw [step] at h
    split_ifs at h with hr
    cases h
    refine ⟨hs.counted, Or.inl ?_⟩
    rcases hs.phase with hcalm | hcounting | htotalled
    · exact ⟨hcalm.counts, hcalm.pending, fun h => by cases h⟩
    · exact absurd hcounting.requested hr
    · exact absurd htotalled.requested hr
  | detect =>
    rw [step] at h
    split_ifs at h with hnone
    obtain ⟨det, hdet, rfl⟩ := Option.map_eq_some_iff.mp h
    rcases hs.phase with hcalm | hcounting | htotalled
    · have hrequested : s.requested = true := by
        by_contra hr
        rw [(hcalm.unasked (by simpa using hr)).1] at hdet
        cases hdet
      refine ⟨by cases det <;> exact hs.counted, ?_⟩
      cases det with
      | onQD =>
        left
        refine ⟨hcalm.counts, fun c hc => Or.inl (List.mem_singleton.mp hc), fun hr => ?_⟩
        exact absurd (hrequested.symm.trans hr) (by simp)
      | countBuffers =>
        right; left
        refine ⟨hrequested, rfl, fun c hc => ?_, ?_, fun c hc => ?_, ?_⟩
        · obtain ⟨pe, -, rfl⟩ := List.mem_map.mp hc
          exact ⟨pe, rfl⟩
        · show s.counts.length + ((List.range cfg.numPes).map Control.countBuffers).length = _
          rw [hcalm.counts, List.length_map, List.length_range, List.length_nil, Nat.zero_add]
        · have hc : c ∈ s.counts := hc
          rw [hcalm.counts] at hc
          cases hc
        · -- either some PE is left to be found, or there is nothing anywhere
          by_cases hempty : ∀ pe < cfg.numPes, (s.tram pe).Empty cfg
          · exact Or.inr (Or.inr ⟨List.isEmpty_iff.mp hnone.1, hempty⟩)
          · push Not at hempty
            obtain ⟨pe, hpe, hne⟩ := hempty
            exact Or.inr (Or.inl ⟨pe, List.mem_map_of_mem (List.mem_range.mpr hpe), hne⟩)
    · rw [hcounting.armed] at hdet
      cases hdet
    · rw [htotalled.armed] at hdet
      cases hdet
  | control k => exact control_sound he hs h

omit [Inhabited α] [ReleaseArith F] in
/-- Combining is off, and while PEs are counted no message is in flight. -/
structure Untouched (cfg : Config α) (agg : Agg) (s : Quiescence α F) : Prop
    extends s.Sound cfg where
  mode : ∀ pe, (s.tram pe).knobs.agg = agg ∧ (s.tram pe).knobs.combining = false
  still : ∀ pe, .countBuffers pe ∈ s.pending → s.sys.flight = []

omit [Inhabited α] [ReleaseArith F] in
theorem Sound.counting (hs : s.Sound cfg) {pe : ℕ} (h : .countBuffers pe ∈ s.pending) :
    s.Counting cfg := by
  obtain ⟨k, hk, hget⟩ := List.mem_iff_getElem.mp h
  exact hs.phase_of (List.getElem?_eq_some_iff.mpr ⟨hk, hget⟩)

theorem Untouched.orderly {agg : Agg} (hs : s.Untouched cfg agg) (pe : ℕ) {ops : List (Op α F)}
    (hops : ∀ op ∈ ops, op.Plain cfg agg) : (s.tram pe).Orderly cfg ops := by
  obtain ⟨hagg, hoff⟩ := hs.mode pe
  have hrange : ∀ op ∈ ops, op.InRange cfg (s.tram pe).knobs.agg (s.tram pe).knobs.combining := by
    intro op hop
    rw [hagg, hoff]
    exact (hops op hop).2.1
  exact ⟨fun op hop => (hops op hop).1, hrange, fun op hop => (hops op hop).2.2,
    HTram.safeRun_off ops _ (hs.counted pe).toSteady hoff hrange⟩

omit [ReleaseArith F] in
/-- New PEs, with combining off. -/
theorem start_opened [ReleaseArith F] (agg : Agg) (bufSize : ℕ) :
    Opened cfg agg bufSize (fun _ => false) (System.start agg bufSize : System α F) :=
  ⟨rfl, fun _ => ⟨[], by simp, rfl⟩⟩

/-- PE 0 sends an item to PE 3, which a flush ships, and PE 3 sends one to PE 1 when it gets
    it. Then three PEs are counted. -/
def answered : List (Event KeyValue ℚ) :=
  [.call 0 (.send ⟨3, 0⟩ 0), .htramQuiesce, .detect, .control 0, .control 0, .control 0,
    .control 0, .control 0, .deliver 0 true [], .deliver 0 true [.send ⟨1, 0⟩ 0], .detect,
    .control 0, .control 0, .control 0]

/-- PE 3 is counted too, and then a second round ships its item and finds nothing. -/
def recounted : List (Event KeyValue ℚ) :=
  answered ++ [.control 0, .control 0, .detect, .control 0, .control 0, .control 0, .control 0,
    .control 0, .deliver 0 true [], .deliver 0 true [], .detect, .control 0, .control 0,
    .control 0, .control 0]

end Quiescence

end Htram
