import Htram.System.Sorted

/-!
# Where the items are when the source sorts

* `SortedSystem.run_scanned`: after every run each item is in one place, `countBuffers` counts
  those that wait, and a flush on every PE leaves none.
-/

namespace Htram

open Network RankSort

variable {α F : Type*}

namespace SortedEvent

/-- The calls of a client that sorts at the source. -/
def SourceSorts (cfg : Config α) : SortedEvent α F → Prop
  | .call _ op => HTram.SourceSorts cfg op
  | .deliver _ => True

/-- What an event inserts. -/
def inserted : SortedEvent α F → Multiset (ℕ × α)
  | .call _ op => op.inserted
  | .deliver _ => 0

/-- Of the PEs, those that inserted nothing after their last flush. -/
def flushedAfter (done : Set ℕ) : SortedEvent α F → Set ℕ
  | .call pe (.insertValue ..) => done \ {pe}
  | .call pe (.tflush false) => insert pe done
  | _ => done

end SortedEvent

namespace SortedSystem

variable {cfg : Config α} {s t : SortedSystem α F} {done : Set ℕ}

/-- What the clients have been handed. -/
def handed (cfg : Config α) (s : SortedSystem α F) : Multiset (ℕ × α) :=
  ∑ pe ∈ Finset.range cfg.numPes, ((s.node pe).delivered.map (Prod.mk pe) : List (ℕ × α))

/-- The items that have not been handed over. -/
def stock (cfg : Config α) (s : SortedSystem α F) : Multiset (ℕ × α) :=
  ∑ pe ∈ Finset.range cfg.numPes, s.waiting cfg pe + s.inFlight

/-- All items. -/
def items (cfg : Config α) (s : SortedSystem α F) : Multiset (ℕ × α) := s.stock cfg + s.handed cfg

/-- The items for PE `pe`. -/
def forPe (pe : ℕ) (xs : Multiset (ℕ × α)) : Multiset α :=
  (xs.filter fun x => x.1 = pe).map Prod.snd

/-- Nothing waits on the PEs in `done`. -/
def Emptied (cfg : Config α) (done : Set ℕ) (s : SortedSystem α F) : Prop :=
  ∀ pe ∈ done, pe < cfg.numPes → s.waiting cfg pe = 0

/-- At rest all that has not been handed over waits. -/
theorem stock_quiet (hquiet : s.flight = []) :
    s.stock cfg = ∑ pe ∈ Finset.range cfg.numPes, s.waiting cfg pe := by
  unfold stock inFlight
  rw [hquiet, List.map_nil, List.sum_nil, add_zero]

/-- `countBuffers` counts what waits. -/
theorem sum_countBuffers (hs : s.Sound cfg) :
    ∑ pe ∈ Finset.range cfg.numPes, (s.node pe).tram.countBuffers cfg =
      ((∑ pe ∈ Finset.range cfg.numPes, s.waiting cfg pe).card : ℤ) := by
  rw [Multiset.card_sum, Nat.cast_sum]
  refine Finset.sum_congr rfl fun pe hpe => ?_
  obtain ⟨⟨⟨h, hg⟩, hzero⟩, -⟩ := hs.node pe (Finset.mem_range.mp hpe)
  exact hg.countBuffers hzero

/-- What is handed over for its PEs. -/
theorem sum_handed {out : List (ℕ × α)} (hout : ∀ x ∈ out, x.1 < cfg.numPes) :
    ∑ pe ∈ Finset.range cfg.numPes,
      (((out.filter fun x => x.1 = pe).map Prod.snd).map (Prod.mk pe) : Multiset (ℕ × α)) =
        (out : Multiset (ℕ × α)) := by
  have hmine : ∀ pe, ((out.filter fun x => x.1 = pe).map Prod.snd).map (Prod.mk pe) =
      ofRank Prod.fst out pe := by
    intro pe
    rw [List.map_map]
    refine (List.map_congr_left fun x hx => ?_).trans (List.map_id _)
    have hpe : x.1 = pe := of_decide_eq_true (List.mem_filter.mp hx).2
    exact Prod.ext hpe.symm rfl
  rw [Finset.sum_congr rfl fun pe _ => congrArg _ (hmine pe), Rows.sum_coe]
  exact Multiset.coe_eq_coe.mpr (gather_perm _ hout)

theorem forPe_add (pe : ℕ) (xs ys : Multiset (ℕ × α)) :
    forPe pe (xs + ys) = forPe pe xs + forPe pe ys := by
  unfold forPe
  rw [Multiset.filter_add, Multiset.map_add]

theorem forPe_map_mk (pe q : ℕ) (xs : List α) :
    forPe pe (xs.map (Prod.mk q) : List (ℕ × α)) = if q = pe then (xs : Multiset α) else 0 := by
  unfold forPe
  rw [Multiset.filter_coe, Multiset.map_coe, List.filter_map, List.map_map]
  split_ifs with h
  · simp [Function.comp_def, h]
  · simp [Function.comp_def, h]

/-- What is handed over for a PE is what its client has been handed. -/
theorem forPe_handed (s : SortedSystem α F) {pe : ℕ} (hpe : pe < cfg.numPes) :
    forPe pe (s.handed cfg) = ((s.node pe).delivered : Multiset α) := by
  have hsum : ∀ n, forPe pe (∑ q ∈ Finset.range n,
      ((s.node q).delivered.map (Prod.mk q) : Multiset (ℕ × α))) =
      ∑ q ∈ Finset.range n, if q = pe then ((s.node q).delivered : Multiset α) else 0 := by
    intro n
    induction n with
    | zero => rfl
    | succ n ih => rw [Finset.sum_range_succ, forPe_add, ih, forPe_map_mk, Finset.sum_range_succ]
  unfold handed
  rw [hsum, Finset.sum_ite_eq', if_pos (Finset.mem_range.mpr hpe)]

theorem count_forPe [DecidableEq α] (pe : ℕ) (xs : Multiset (ℕ × α)) (x : α) :
    (forPe pe xs).count x = xs.count (pe, x) := by
  unfold forPe
  induction xs using Multiset.induction with
  | empty => rfl
  | cons y xs ih =>
    rw [Multiset.count_cons, ← ih, Multiset.filter_cons, Multiset.map_add, Multiset.count_add,
      add_comm]
    congr 1
    by_cases hy : y.1 = pe
    · subst hy
      rw [if_pos rfl, Multiset.map_singleton, Multiset.count_singleton]
      exact if_congr ⟨fun h => Prod.ext rfl h, congrArg Prod.snd⟩ rfl rfl
    · rw [if_neg hy, if_neg fun h => hy (congrArg Prod.fst h).symm]
      rfl

variable [Inhabited α] [ReleaseArith F]

/-! ## One event -/

theorem call_stock (hs : s.Sound cfg) {pe : ℕ} {op : Op α F} (hop : HTram.SourceSorts cfg op)
    (hstep : step cfg s (.call pe op) = some t) : t.stock cfg = s.stock cfg + op.inserted := by
  obtain ⟨-, hpe, hothers, -, -, out, hout, hmine, -⟩ := call_spec hs hop hstep
  have hflight : t.inFlight = s.inFlight + (out.map SortedPacket.items).sum := by
    unfold inFlight
    rw [hout, List.map_append, List.sum_append]
  have hwaiting := Rows.sum_of_ne (f := fun i => t.waiting cfg i) (g := fun i => s.waiting cfg i)
    hpe fun i hi => by
      unfold waiting
      rw [hothers i hi]
  apply add_right_cancel (b := s.waiting cfg pe)
  unfold stock
  rw [hflight]
  calc _ = (∑ i ∈ Finset.range cfg.numPes, t.waiting cfg i + s.waiting cfg pe) + s.inFlight +
        (out.map SortedPacket.items).sum := by abel
    _ = ∑ i ∈ Finset.range cfg.numPes, s.waiting cfg i +
        (t.waiting cfg pe + (out.map SortedPacket.items).sum) + s.inFlight := by
      rw [hwaiting]
      abel
    _ = _ := by
      rw [hmine]
      abel

/-- What waits after a call waited before or is new. -/
theorem call_waiting (hs : s.Sound cfg) {pe : ℕ} {op : Op α F} (hop : HTram.SourceSorts cfg op)
    (hstep : step cfg s (.call pe op) = some t) {i : ℕ} {x : ℕ × α} (hx : x ∈ t.waiting cfg i) :
    x ∈ s.waiting cfg i ∨ i = pe ∧ x ∈ op.inserted := by
  obtain ⟨-, -, hothers, -, -, out, -, hmine, -⟩ := call_spec hs hop hstep
  by_cases hi : i = pe
  · subst hi
    have hmem : x ∈ t.waiting cfg i + (out.map SortedPacket.items).sum :=
      Multiset.mem_add.mpr (.inl hx)
    rw [hmine] at hmem
    exact (Multiset.mem_add.mp hmem).imp_right fun h => ⟨rfl, h⟩
  · unfold waiting at hx ⊢
    rw [hothers i hi] at hx
    exact .inl hx

/-- A flush leaves nothing waiting. -/
theorem tflush_waiting (hs : s.Sound cfg) {pe : ℕ}
    (hstep : step cfg s (.call pe (.tflush false)) = some t) : t.waiting cfg pe = 0 := by
  have hop : HTram.SourceSorts cfg (.tflush false : Op α F) := trivial
  obtain ⟨-, hpe, -, -, hcall, -⟩ := call_spec hs hop hstep
  obtain ⟨⟨⟨h, hg⟩, -⟩, -⟩ := hs.node pe hpe
  exact hg.tflush hcall

theorem deliver_waiting (hs : s.Sound cfg) {k : ℕ} (hstep : step cfg s (.deliver k) = some t)
    (i : ℕ) : t.waiting cfg i = s.waiting cfg i := by
  obtain ⟨-, htram, -⟩ := deliver_spec hs hstep
  unfold waiting
  rw [htram]

theorem deliver_stock (hs : s.Sound cfg) {k : ℕ} {m : SortedPacket α} (hk : s.flight[k]? = some m)
    (hstep : step cfg s (.deliver k) = some t) :
    t.stock cfg + (handedBy m : Multiset (ℕ × α)) = s.stock cfg := by
  obtain ⟨-, -, m', hk', hflight, -⟩ := deliver_spec hs hstep
  cases hk.symm.trans hk'
  unfold stock
  rw [add_assoc, hflight, Finset.sum_congr rfl fun i _ => deliver_waiting hs hstep i]

theorem call_items (hs : s.Sound cfg) {pe : ℕ} {op : Op α F} (hop : HTram.SourceSorts cfg op)
    (hstep : step cfg s (.call pe op) = some t) : t.items cfg = s.items cfg + op.inserted := by
  obtain ⟨-, -, hothers, hsame, -⟩ := call_spec hs hop hstep
  have hhanded : t.handed cfg = s.handed cfg := by
    refine Finset.sum_congr rfl fun i _ => ?_
    by_cases hi : i = pe
    · rw [hi, hsame]
    · rw [hothers i hi]
  unfold items
  rw [call_stock hs hop hstep, hhanded, add_right_comm]

theorem deliver_items (hs : s.Sound cfg) {k : ℕ} (hstep : step cfg s (.deliver k) = some t) :
    t.items cfg = s.items cfg := by
  obtain ⟨-, -, m, hk, -, hinside, hdelivered⟩ := deliver_spec hs hstep
  have hhanded : t.handed cfg = s.handed cfg + (handedBy m : Multiset (ℕ × α)) := by
    unfold handed
    rw [← sum_handed hinside, ← Finset.sum_add_distrib]
    refine Finset.sum_congr rfl fun i _ => ?_
    rw [hdelivered, List.map_append, ← Multiset.coe_add]
  unfold items
  rw [hhanded, ← deliver_stock hs hk hstep, add_assoc, add_comm (handedBy m : Multiset (ℕ × α))]

theorem step_items {e : SortedEvent α F} (hs : s.Sound cfg) (he : e.SourceSorts cfg)
    (hstep : step cfg s e = some t) :
    t.Sound cfg ∧ t.items cfg = s.items cfg + e.inserted := by
  cases e with
  | call pe op => exact ⟨(call_spec hs he hstep).1, call_items hs he hstep⟩
  | deliver k =>
    refine ⟨(deliver_spec hs hstep).1, ?_⟩
    rw [deliver_items hs hstep]
    exact (add_zero _).symm

theorem step_emptied {e : SortedEvent α F} (hs : s.Sound cfg) (he : e.SourceSorts cfg)
    (hstep : step cfg s e = some t) (hempty : s.Emptied cfg done) :
    t.Emptied cfg (e.flushedAfter done) := by
  cases e with
  | deliver k =>
    intro i hi hlt
    rw [deliver_waiting hs hstep]
    exact hempty i hi hlt
  | call pe op =>
    have hkept : ∀ i ∈ done, i < cfg.numPes → (i = pe → op.inserted = 0) →
        t.waiting cfg i = 0 := by
      intro i hi hlt hnone
      refine Multiset.eq_zero_of_forall_notMem fun x hx => ?_
      rcases call_waiting hs he hstep hx with hold | ⟨hip, hnew⟩
      · rw [hempty i hi hlt] at hold
        exact Multiset.notMem_zero x hold
      · rw [hnone hip] at hnew
        exact Multiset.notMem_zero x hnew
    intro i hi hlt
    cases op with
    | insertValue x dest => exact hkept i hi.1 hlt fun hip => absurd hip hi.2
    | setBufferSize newSize => exact hkept i hi hlt fun _ => rfl
    | tflush idleflush =>
      cases idleflush with
      | true => exact hkept i hi hlt fun _ => rfl
      | false =>
        rcases hi with rfl | hi
        · exact tflush_waiting hs hstep
        · exact hkept i hi hlt fun _ => rfl
    | send | sendTo | insertValueWPs | changeThreshold | coarsenBuckets | flushStale
    | flushIdle => exact he.elim

/-! ## Runs -/

/-- The items that the events insert. -/
def inserted (es : List (SortedEvent α F)) : Multiset (ℕ × α) :=
  (es.map SortedEvent.inserted).sum

/-- The PEs that inserted nothing after their last flush, if any. -/
def flushed (es : List (SortedEvent α F)) : Set ℕ :=
  es.foldl SortedEvent.flushedAfter Set.univ

omit [Inhabited α] [ReleaseArith F] in
theorem inserted_snoc (es : List (SortedEvent α F)) (e : SortedEvent α F) :
    inserted (es ++ [e]) = inserted es + e.inserted := by
  unfold inserted
  rw [List.map_append, List.sum_append, List.map_singleton, List.sum_singleton]

omit [Inhabited α] [ReleaseArith F] in
theorem flushed_snoc (es : List (SortedEvent α F)) (e : SortedEvent α F) :
    flushed (es ++ [e]) = e.flushedAfter (flushed es) := by
  unfold flushed
  rw [List.foldl_append]
  rfl

theorem run_snoc {es : List (SortedEvent α F)} {e : SortedEvent α F} {r : SortedSystem α F}
    (hrun : run cfg es r = some s) (hstep : step cfg s e = some t) :
    run cfg (es ++ [e]) r = some t :=
  runs_append.mpr ⟨s, hrun, runs_cons.mpr ⟨t, hstep, rfl⟩⟩

theorem start_gathers (cfg : Config α) (bufSize : ℕ) :
    (HTram.init .WsP bufSize : HTram α F).Gathers cfg HTram.noHistory :=
  ⟨rfl, rfl, fun n _ => ⟨.nil, [], rfl, by simp, rfl, fun _ _ => rfl, rfl⟩⟩

theorem start_sound (cfg : Config α) (bufSize : ℕ) :
    (start bufSize : SortedSystem α F).Sound cfg :=
  ⟨fun _ _ => ⟨⟨⟨_, start_gathers cfg bufSize⟩, fun _ _ => rfl⟩, rfl⟩,
    fun _ hm => absurd hm List.not_mem_nil⟩

theorem start_waiting (cfg : Config α) (bufSize pe : ℕ) :
    (start bufSize : SortedSystem α F).waiting cfg pe = 0 := by
  unfold waiting HTram.gathered Dest.gathered
  refine Finset.sum_eq_zero fun n _ => Finset.sum_eq_zero fun r _ => ?_
  rfl

theorem start_stock (cfg : Config α) (bufSize : ℕ) :
    (start bufSize : SortedSystem α F).stock cfg = 0 := by
  rw [stock_quiet rfl]
  exact Finset.sum_eq_zero fun pe _ => start_waiting cfg bufSize pe

theorem start_items (cfg : Config α) (bufSize : ℕ) :
    (start bufSize : SortedSystem α F).items cfg = 0 := by
  have hhanded : (start bufSize : SortedSystem α F).handed cfg = 0 := by
    unfold handed
    refine Finset.sum_eq_zero fun pe _ => ?_
    rfl
  unfold items
  rw [start_stock, hhanded, add_zero]

theorem run_sound {es : List (SortedEvent α F)} (hes : ∀ e ∈ es, e.SourceSorts cfg)
    (hs : s.Sound cfg) (hempty : s.Emptied cfg done) (hrun : run cfg es s = some t) :
    t.Sound cfg ∧ t.items cfg = s.items cfg + inserted es ∧
      t.Emptied cfg (es.foldl SortedEvent.flushedAfter done) := by
  induction es generalizing s done with
  | nil =>
    cases hrun
    exact ⟨hs, (add_zero _).symm, hempty⟩
  | cons e es ih =>
    obtain ⟨r, hr, hrest⟩ := runs_cons.mp hrun
    have he := hes e List.mem_cons_self
    obtain ⟨hsound, hitems⟩ := step_items hs he hr
    obtain ⟨hsound', hitems', hempty'⟩ := ih (fun e' h => hes e' (List.mem_cons_of_mem _ h)) hsound
      (step_emptied hs he hr hempty) hrest
    refine ⟨hsound', ?_, hempty'⟩
    rw [hitems', hitems, add_assoc]
    rfl

/-- What holds after the events `es`. Every item is in one place, and is handed to the client of
    its PE only, which counts it. At rest `countBuffers` counts the items that have not been handed
    over, and there are none if every PE flushed after its last insert. -/
structure Scanned (cfg : Config α) (es : List (SortedEvent α F)) (s : SortedSystem α F) : Prop where
  once : inserted es = ∑ pe ∈ Finset.range cfg.numPes, s.waiting cfg pe + s.inFlight +
    s.handed cfg
  atMostOnce : ∀ pe < cfg.numPes,
    ((s.node pe).delivered : Multiset α) ≤ forPe pe (inserted es)
  counted : ∀ pe < cfg.numPes, (s.node pe).totRecvCount = (s.node pe).delivered.length
  left : s.flight = [] → ∑ pe ∈ Finset.range cfg.numPes, (s.node pe).tram.countBuffers cfg +
    (s.handed cfg).card = (inserted es).card
  drained : s.flight = [] → (∀ pe < cfg.numPes, pe ∈ flushed es) → ∀ pe < cfg.numPes,
    ((s.node pe).delivered : Multiset α) = forPe pe (inserted es)

theorem run_scanned {bufSize : ℕ} {es : List (SortedEvent α F)}
    (hes : ∀ e ∈ es, e.SourceSorts cfg) (hrun : run cfg es (start bufSize) = some t) :
    Scanned cfg es t := by
  have hstart : (start bufSize : SortedSystem α F).Emptied cfg Set.univ :=
    fun pe _ _ => start_waiting cfg bufSize pe
  obtain ⟨hsound, hitems, hempty⟩ := run_sound hes (start_sound cfg bufSize) hstart hrun
  rw [start_items, zero_add] at hitems
  refine ⟨hitems.symm, fun pe hpe => ?_, fun pe hpe => (hsound.node pe hpe).2, fun hflight => ?_,
    fun hflight hflushed pe hpe => ?_⟩
  · rw [← hitems]
    unfold items
    rw [forPe_add, forPe_handed t hpe]
    exact Multiset.le_add_left ..
  · rw [sum_countBuffers hsound, ← stock_quiet hflight, ← hitems]
    unfold items
    rw [Multiset.card_add, Nat.cast_add]
  · have hwaiting : ∑ pe ∈ Finset.range cfg.numPes, t.waiting cfg pe = 0 :=
      Finset.sum_eq_zero fun i hi =>
        hempty i (hflushed i (Finset.mem_range.mp hi)) (Finset.mem_range.mp hi)
    rw [← hitems]
    unfold items
    rw [stock_quiet hflight, hwaiting, zero_add, forPe_handed t hpe]

/-- PE 0 inserts an item for each of the others and flushes, and all messages arrive. -/
def threeOthers : List (SortedEvent KeyValue ℚ) :=
  [.call 0 (.insertValue ⟨3, 30⟩ 3), .call 0 (.insertValue ⟨1, 10⟩ 1),
    .call 0 (.insertValue ⟨2, 20⟩ 2), .call 0 (.tflush false)] ++ List.replicate 6 (.deliver 0)

theorem run_scanned_threeOthers : ∃ t, run System.fourPes threeOthers (start 2) = some t ∧
    t.flight.length = 0 ∧ (t.node 3).delivered.map KeyValue.value = [30] ∧
      Scanned System.fourPes threeOthers t := by
  have hes : ∀ e ∈ threeOthers, e.SourceSorts System.fourPes := by
    simp [threeOthers, SortedEvent.SourceSorts, HTram.SourceSorts, Config.numPes, System.fourPes]
  obtain ⟨t, ht, hflight, hvalue⟩ := of_check (P := fun t : SortedSystem KeyValue ℚ =>
    t.flight.length = 0 ∧ (t.node 3).delivered.map KeyValue.value = [30])
    (o := run System.fourPes threeOthers (start 2)) (by decide +kernel)
  exact ⟨t, ht, hflight, hvalue, run_scanned hes ht⟩

end SortedSystem

end Htram
