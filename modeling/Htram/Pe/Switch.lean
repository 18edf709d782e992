import Htram.Pe.Bodies
import Htram.Pe.Items

/-!
# Switching modes

`reset_stats` also switches the mode, and with it what a destination index means
(`htram_group.C` lines 252–268). It gives every destination a new buffer, whatever the old one
holds, and leaves the queues, the `localBuffers` and the counts where they are.

* `HTram.run_undisturbed`: what a run leaves alone: the destinations past `destCount()` and,
  except under `WsP`, the `localBuffers`.
* `HTram.resetStats_carries`: when a switch keeps every pending item, under an index that the
  new mode routes to the item's PE, with counts that match.
-/

namespace Htram

variable {α F : Type*}

namespace Dest

/-- The items in the buffer and, under `WsP`, in the `localBuffers` of the node's PEs. -/
def buffered (cfg : Config α) (agg : Agg) (d : Dest α) : List (Item α) :=
  d.msgBuffer.items ++ if agg = .WsP then d.sorted cfg else []

/-- The pending items of a destination, each with the PE it is for. -/
def pending (cfg : Config α) (k : Knobs F) (d : Dest α) : Multiset (ℕ × α) :=
  ((d.buffered cfg k.agg).map fun x => (x.destPe, x.payload) : List (ℕ × α)) +
    (d.held cfg k).map fun y => (cfg.getDestProc y, y)

theorem card_pending (cfg : Config α) (k : Knobs F) (d : Dest α) :
    (d.pending cfg k).card = (d.buffered cfg k.agg).length + (d.held cfg k).card := by
  simp [pending]

theorem pending_of_buffered {cfg : Config α} {k : Knobs F} {d : Dest α}
    (h : d.buffered cfg k.agg = []) :
    d.pending cfg k = (d.held cfg k).map fun y => (cfg.getDestProc y, y) := by
  simp [pending, h]

theorem sorted_of_none {cfg : Config α} {d : Dest α} (h : d.localBuffers = fun _ => []) :
    d.sorted cfg = [] := by
  simp [sorted, h]

theorem init_held [Inhabited α] (cfg : Config α) {k : Knobs F} (hk : k.combining = false) (n : ℕ) :
    (Dest.init n : Dest α).held cfg k = 0 := by
  simp [held, hk, Dest.init]

/-! ## What the calls leave alone -/

/-- Outside `WsP` no body touches the `localBuffers`. -/
theorem localBuffers_closed (cfg : Config α) (k : Knobs F) (full : Bool)
    (l : ℕ → List (Item α)) :
    Closed cfg k full (fun _ _ => True) (fun d : Dest α => d.localBuffers = l) where
  counts := fun _ _ h => h
  front := fun _ _ => trivial
  pop := fun _ h => h
  push := fun _ _ _ h => h
  put := fun _ h => h
  grow := fun _ h => h
  ship := fun _ h => h
  released := fun _ _ => trivial
  release := fun _ _ h => h

end Dest

namespace Op

variable [ReleaseArith F] [Inhabited α]

/-- The PE that `insertValue` is called with is one of the machine's. -/
def PeInRange (cfg : Config α) (agg : Agg) : Op α F → Prop
  | .insertValue _ pe | .insertValueWPs _ pe => cfg.destOf agg pe < cfg.destCount agg
  | _ => True

theorem act_localBuffers {cfg : Config α} {k : Knobs F} (hagg : k.agg ≠ .WsP) (op : Op α F)
    (d : ℕ) (x : Dest α) : (op.act cfg k d x).localBuffers = x.localBuffers := by
  have hclosed := fun (k' : Knobs F) (full : Bool) =>
    Dest.localBuffers_closed cfg k' full x.localBuffers
  cases op with
  | send y b =>
    dsimp only [act]
    split_ifs
    · exact (hclosed k true).sendItem (fun _ => rfl) trivial trivial rfl
    · rfl
  | sendTo y b pe =>
    dsimp only [act]
    split_ifs
    · exact (hclosed k true).sendItem (fun _ => rfl) trivial trivial rfl
    · rfl
  | insertValue y pe =>
    dsimp only [act]
    split_ifs
    · exact (hclosed k true).insertValue (fun _ _ h => h) hagg trivial _ rfl
    · rfl
  | insertValueWPs y pe =>
    dsimp only [act]
    split_ifs
    · exact (hclosed k true).insertValueWPsTo trivial _ rfl
    · rfl
  | changeThreshold | coarsenBuckets | setBufferSize =>
    refine act_closed (fun k' _ => hclosed k' true) ?_ d (fun n => ?_) rfl
    · exact trivial
    · rfl
  | tflush idleflush => exact (hclosed k false).tflush (fun _ h => h) hagg idleflush rfl
  | flushStale =>
    dsimp only [act]
    rw [if_pos hagg]
    exact (hclosed k false).flushIfStale (fun _ h => h) rfl
  | flushIdle elapsed =>
    dsimp only [act]
    split_ifs
    · exact (hclosed k false).flushIfAny rfl
    · rfl

end Op

namespace HTram

theorem setDest_past {n c : ℕ} (hc : c < n) (x : Dest α) (p : HTram α F) {d : ℕ} (hd : n ≤ d) :
    (p.setDest c x).dest d = p.dest d := by
  rw [setDest_apply, if_neg (by omega)]

theorem mapDest_past {cfg : Config α} (k : Knobs F) (f : Dest α → Dest α) (p : HTram α F) {d : ℕ}
    (hd : p.destCount cfg ≤ d) : (p.mapDest cfg k f).dest d = p.dest d := if_neg (by omega)

theorem forDest_past {cfg : Config α} {f : Dest α → Dest α} {p q : HTram α F}
    (hq : p.forDest cfg f = .returns q) {d : ℕ} (hd : p.destCount cfg ≤ d) :
    q.dest d = p.dest d := by
  obtain ⟨-, hdest⟩ := eachDest_returns List.nodup_range hq
  rw [hdest, if_neg (by simpa using hd)]

variable [ReleaseArith F] [Inhabited α]

theorem sendItemPrioDeferredDestTo_past {cfg : Config α} {p q : HTram α F} {x : α} {b pe : ℕ}
    (hq : p.sendItemPrioDeferredDestTo cfg x b pe = .returns q) {d : ℕ}
    (hd : p.destCount cfg ≤ d) : q.dest d = p.dest d := by
  unfold sendItemPrioDeferredDestTo onDest at hq
  dsimp only at hq
  split_ifs at hq with hpe
  · cases hq
    exact setDest_past (not_le.mp hpe) _ p hd

/-- No call touches a destination past `destCount()`. -/
theorem step_past {cfg : Config α} {p q : HTram α F} {op : Op α F}
    (hop : op.PeInRange cfg p.knobs.agg) (hq : p.step cfg op = .returns q) {d : ℕ}
    (hd : p.destCount cfg ≤ d) : q.dest d = p.dest d := by
  cases op with
  | send x b => exact sendItemPrioDeferredDestTo_past hq hd
  | sendTo x b pe => exact sendItemPrioDeferredDestTo_past hq hd
  | insertValue x pe =>
    cases hq
    exact setDest_past hop _ p hd
  | insertValueWPs x pe =>
    cases hq
    exact setDest_past hop _ p hd
  | changeThreshold direct t selectivity =>
    have hq : p.changeThreshold cfg direct t selectivity = .returns q := hq
    unfold changeThreshold at hq
    split_ifs at hq
    · cases hq
      rfl
    · exact (forDest_past hq hd).trans (mapDest_past _ _ p hd)
  | coarsenBuckets factor keepTop =>
    have hq : p.coarsenBuckets cfg factor keepTop = .returns q := hq
    unfold coarsenBuckets at hq
    split_ifs at hq
    · cases hq
      rfl
    · exact (forDest_past hq hd).trans (mapDest_past _ _ p hd)
  | setBufferSize newSize =>
    have hq : p.setBufferSize cfg newSize = .returns q := hq
    unfold setBufferSize at hq
    split_ifs at hq
    · cases hq
      rfl
    · cases hq
      exact mapDest_past _ _ p hd
    · cases hq
      exact mapDest_past _ _ p hd
  | tflush idleflush => exact forDest_past hq hd
  | flushStale =>
    have hq : p.flushStale cfg = .returns q := hq
    unfold flushStale at hq
    split_ifs at hq
    · exact forDest_past hq hd
    · exact forDest_past hq hd
  | flushIdle elapsed =>
    have hq : p.flushIdle cfg elapsed = .returns q := hq
    unfold flushIdle at hq
    split_ifs at hq
    · exact forDest_past hq hd
    · cases hq
      rfl

/-- What a run in mode `agg` on a new PE leaves as it was. -/
structure Undisturbed (cfg : Config α) (agg : Agg) (bufSize : ℕ) (p : HTram α F) : Prop where
  mode : p.knobs.agg = agg
  off : p.knobs.combining = false
  past : ∀ d ≥ cfg.destCount agg, p.dest d = Dest.init bufSize
  unsorted : agg ≠ .WsP → ∀ d, (p.dest d).localBuffers = fun _ => []

theorem init_undisturbed (cfg : Config α) (agg : Agg) (bufSize : ℕ) :
    (init agg bufSize : HTram α F).Undisturbed cfg agg bufSize :=
  ⟨rfl, rfl, fun _ _ => rfl, fun _ _ => rfl⟩

theorem step_undisturbed {cfg : Config α} {agg : Agg} {bufSize : ℕ} {p q : HTram α F}
    (hp : p.Undisturbed cfg agg bufSize) {op : Op α F} (hop : op.PeInRange cfg agg)
    (hq : p.step cfg op = .returns q) : q.Undisturbed cfg agg bufSize := by
  obtain ⟨rfl, hoff, hpast, hunsorted⟩ := hp
  obtain ⟨hknobs, hdest⟩ := step_acts hq
  obtain ⟨hagg, hcombining⟩ := op.settings_mode p.knobs
  have hrest : ∀ d ≥ cfg.destCount p.knobs.agg, q.dest d = p.dest d := fun d hd =>
    step_past hop hq hd
  refine ⟨?_, ?_, fun d hd => ?_, fun hmode d => ?_⟩
  · rw [hknobs, hagg]
  · rw [hknobs, hcombining, hoff]
  · rw [hrest d hd, hpast d hd]
  · by_cases hd : d < cfg.destCount p.knobs.agg
    · rw [hdest d hd, Op.act_localBuffers hmode, hunsorted hmode d]
    · rw [hrest d (not_lt.mp hd), hunsorted hmode d]

theorem run_undisturbed {cfg : Config α} {agg : Agg} {bufSize : ℕ} {ops : List (Op α F)}
    {p q : HTram α F} (hp : p.Undisturbed cfg agg bufSize)
    (hops : ∀ op ∈ ops, op.PeInRange cfg agg) (hq : p.run cfg ops = .returns q) :
    q.Undisturbed cfg agg bufSize :=
  run_keeps (fun op hop _ _ hp hq => step_undisturbed hp (hops op hop) hq) hp hq

/-! ## The switch -/

omit [ReleaseArith F] [Inhabited α] in
/-- `reset_stats` (lines 252–268), without the statistics. Of its arguments it uses the third
    only. The rows that it adds to `tram_hold` are of empty queues. -/
def resetStats (cfg : Config α) (_btype _bufSize : ℤ) (agtype : Agg) (p : HTram α F) :
    HTram α F where
  knobs := { p.knobs with agg := agtype }
  dest := fun d =>
    if d < cfg.destCount agtype then { p.dest d with msgBuffer := newHTramMessage p.knobs.bufSize }
    else p.dest d

/-- A new PE is switched to the mode it runs in by `reset_stats`. -/
theorem resetStats_init (cfg : Config α) (btype size : ℤ) (agtype : Agg) (bufSize : ℕ) :
    (init .WPs bufSize : HTram α F).resetStats cfg btype size agtype = init agtype bufSize := by
  unfold resetStats init
  congr 1
  funext d
  exact ite_self _

/-- From `p` to `q` every pending item is kept, once, where the mode of `q` routes to the PE it
    is for, and the counts of `q` match what it stores. -/
structure CarriesOver (cfg : Config α) (p q : HTram α F) : Prop where
  kept : ∑ d ∈ Finset.range (q.destCount cfg), (q.dest d).pending cfg q.knobs =
    ∑ d ∈ Finset.range (p.destCount cfg), (p.dest d).pending cfg p.knobs
  routed : ∀ d < q.destCount cfg, ∀ x ∈ (q.dest d).pending cfg q.knobs,
    cfg.destOf q.knobs.agg x.1 = d
  next : ∀ d < q.destCount cfg,
    (q.dest d).msgBuffer.next = ((q.dest d).buffered cfg q.knobs.agg).length
  updates : ∀ d < q.destCount cfg, (q.dest d).updatesInTram = (q.dest d).admitted q.knobs

/-- Nothing is buffered, what is held has the same index under `agtype`, and what is admitted
    is counted. -/
structure Portable (cfg : Config α) (agtype : Agg) (p : HTram α F) : Prop where
  buffered : ∀ d < p.destCount cfg, (p.dest d).buffered cfg p.knobs.agg = []
  held : ∀ d < p.destCount cfg, ∀ y ∈ (p.dest d).held cfg p.knobs,
    d < cfg.destCount agtype ∧ cfg.destOf agtype (cfg.getDestProc y) = d
  counted : ∀ d < cfg.destCount agtype, (p.dest d).updatesInTram = (p.dest d).heldAdmitted p.knobs

instance (cfg : Config α) (agtype : Agg) (p : HTram α F) : Decidable (p.Portable cfg agtype) :=
  decidable_of_iff
    ((∀ d < p.destCount cfg, (p.dest d).buffered cfg p.knobs.agg = []) ∧
      (∀ d < p.destCount cfg, ∀ y ∈ (p.dest d).held cfg p.knobs,
        d < cfg.destCount agtype ∧ cfg.destOf agtype (cfg.getDestProc y) = d) ∧
      ∀ d < cfg.destCount agtype, (p.dest d).updatesInTram = (p.dest d).heldAdmitted p.knobs)
    ⟨fun ⟨buffered, held, counted⟩ => ⟨buffered, held, counted⟩,
      fun h => ⟨h.buffered, h.held, h.counted⟩⟩

section Switch

variable {cfg : Config α} {agg : Agg} {bufSize : ℕ} {p : HTram α F} {btype size : ℤ}
  {agtype : Agg}

omit [ReleaseArith F] [Inhabited α] in
/-- A destination after the switch: a new buffer, and the rest as it was. -/
theorem resetStats_dest {d : ℕ} (hd : d < cfg.destCount agtype) :
    (p.resetStats cfg btype size agtype).dest d =
      { p.dest d with msgBuffer := newHTramMessage p.knobs.bufSize } := if_pos hd

omit [ReleaseArith F] [Inhabited α] in
theorem resetStats_held {d : ℕ} (hd : d < cfg.destCount agtype) :
    ((p.resetStats cfg btype size agtype).dest d).held cfg
        (p.resetStats cfg btype size agtype).knobs = (p.dest d).held cfg p.knobs := by
  rw [resetStats_dest hd]
  rfl

omit [ReleaseArith F] [Inhabited α] in
theorem resetStats_admitted {d : ℕ} (hd : d < cfg.destCount agtype) :
    ((p.resetStats cfg btype size agtype).dest d).admitted
        (p.resetStats cfg btype size agtype).knobs = (p.dest d).heldAdmitted p.knobs := by
  rw [resetStats_dest hd]
  exact add_zero _

omit [ReleaseArith F] in
theorem Undisturbed.held_past (hp : p.Undisturbed cfg agg bufSize) {d : ℕ}
    (hd : p.destCount cfg ≤ d) : (p.dest d).held cfg p.knobs = 0 := by
  rw [hp.past d (by rwa [← hp.mode])]
  exact Dest.init_held cfg hp.off bufSize

omit [ReleaseArith F] in
/-- As `next` is zero in a new buffer, nothing was buffered and nothing is stranded past the
    new `destCount()`. -/
theorem Undisturbed.carries_none (hp : p.Undisturbed cfg agg bufSize)
    (h : p.CarriesOver cfg (p.resetStats cfg btype size agtype)) :
    (∀ d < p.destCount cfg, (p.dest d).buffered cfg p.knobs.agg = []) ∧
      ∀ d < p.destCount cfg, ∀ y ∈ (p.dest d).held cfg p.knobs, d < cfg.destCount agtype := by
  have hnew : ∀ d ∈ Finset.range (cfg.destCount agtype),
      (((p.resetStats cfg btype size agtype).dest d).pending cfg
        (p.resetStats cfg btype size agtype).knobs).card = ((p.dest d).held cfg p.knobs).card := by
    intro d hd
    have hd := Finset.mem_range.mp hd
    have hnext := h.next d hd
    rw [Dest.card_pending, resetStats_held hd, ← hnext, resetStats_dest hd]
    exact zero_add _
  have hcard := congrArg Multiset.card h.kept
  rw [Multiset.card_sum, Multiset.card_sum] at hcard
  have hle : ∑ d ∈ Finset.range (cfg.destCount agtype), ((p.dest d).held cfg p.knobs).card ≤
      ∑ d ∈ Finset.range (p.destCount cfg), ((p.dest d).held cfg p.knobs).card := by
    refine Finset.sum_le_sum_of_ne_zero fun d _ hne => ?_
    rw [Finset.mem_range]
    by_contra hd
    exact hne (by rw [hp.held_past (not_lt.mp hd), Multiset.card_zero])
  have hsum : ∑ d ∈ Finset.range (cfg.destCount agtype), ((p.dest d).held cfg p.knobs).card =
      ∑ d ∈ Finset.range (p.destCount cfg), ((p.dest d).buffered cfg p.knobs.agg).length +
        ∑ d ∈ Finset.range (p.destCount cfg), ((p.dest d).held cfg p.knobs).card := by
    rw [← Finset.sum_add_distrib, ← Finset.sum_congr rfl hnew]
    exact hcard.trans (Finset.sum_congr rfl fun d _ => Dest.card_pending cfg _ _)
  refine ⟨fun d hd => ?_, fun d hd y hy => ?_⟩
  · have hzero : ∑ d ∈ Finset.range (p.destCount cfg),
        ((p.dest d).buffered cfg p.knobs.agg).length = 0 := by omega
    exact List.eq_nil_of_length_eq_zero
      (Finset.sum_eq_zero_iff.mp hzero d (Finset.mem_range.mpr hd))
  · by_contra hpast
    have hsub : Finset.range (cfg.destCount agtype) ⊆ Finset.range (p.destCount cfg) := by
      intro c hc
      rw [Finset.mem_range] at hc ⊢
      omega
    have hlt := Finset.sum_lt_sum_of_subset (f := fun d => ((p.dest d).held cfg p.knobs).card) hsub
      (Finset.mem_range.mpr hd) (by simpa using hpast)
      (Multiset.card_pos_iff_exists_mem.mpr ⟨y, hy⟩) fun _ _ _ => Nat.zero_le _
    omega

omit [ReleaseArith F] in
/-- What waits in `localBuffers` after the switch is what waited under `WsP` before it. -/
theorem Undisturbed.buffered_none (hp : p.Undisturbed cfg agg bufSize)
    (h : p.Portable cfg agtype) {d : ℕ} (hd : d < cfg.destCount agtype) :
    ((p.resetStats cfg btype size agtype).dest d).buffered cfg
      (p.resetStats cfg btype size agtype).knobs.agg = [] := by
  have hsorted : (p.dest d).sorted cfg = [] := by
    by_cases hmode : p.knobs.agg = .WsP
    · by_cases hdest : d < p.destCount cfg
      · have hnone := h.buffered d hdest
        unfold Dest.buffered at hnone
        rw [if_pos hmode] at hnone
        exact (List.append_eq_nil_iff.mp hnone).2
      · rw [hp.past d (by rw [← hp.mode]; exact not_lt.mp hdest)]
        exact Dest.sorted_of_none rfl
    · exact Dest.sorted_of_none (hp.unsorted (by rwa [← hp.mode]) d)
  rw [resetStats_dest hd]
  unfold Dest.buffered
  rw [show Dest.sorted cfg { p.dest d with msgBuffer := newHTramMessage p.knobs.bufSize } = [] from
    hsorted, ite_self]
  rfl

omit [ReleaseArith F] in
theorem Undisturbed.carries (hp : p.Undisturbed cfg agg bufSize) (h : p.Portable cfg agtype) :
    p.CarriesOver cfg (p.resetStats cfg btype size agtype) := by
  have hpending : ∀ d < cfg.destCount agtype,
      ((p.resetStats cfg btype size agtype).dest d).pending cfg
        (p.resetStats cfg btype size agtype).knobs =
      ((p.dest d).held cfg p.knobs).map fun y => (cfg.getDestProc y, y) := by
    intro d hd
    rw [Dest.pending_of_buffered (hp.buffered_none h hd), resetStats_held hd]
  have hold : ∀ d < p.destCount cfg, (p.dest d).pending cfg p.knobs =
      ((p.dest d).held cfg p.knobs).map fun y => (cfg.getDestProc y, y) := fun d hd =>
    Dest.pending_of_buffered (h.buffered d hd)
  refine ⟨?_, fun d (hd : d < cfg.destCount agtype) x hx => ?_,
    fun d (hd : d < cfg.destCount agtype) => ?_, fun d (hd : d < cfg.destCount agtype) => ?_⟩
  · refine Finset.sum_congr_of_eq_on_inter (fun d hd hout => ?_) (fun d hd hout => ?_)
      fun d hd hin => ?_
    · rw [hpending d (Finset.mem_range.mp hd), hp.held_past (by simpa using hout),
        Multiset.map_zero]
    · rw [hold d (Finset.mem_range.mp hd), Multiset.map_eq_zero]
      refine Multiset.eq_zero_of_forall_notMem fun y hy => hout (Finset.mem_range.mpr ?_)
      exact (h.held d (Finset.mem_range.mp hd) y hy).1
    · rw [hpending d (Finset.mem_range.mp hd), hold d (Finset.mem_range.mp hin)]
  · rw [hpending d hd] at hx
    obtain ⟨y, hy, rfl⟩ := Multiset.mem_map.mp hx
    by_cases hdest : d < p.destCount cfg
    · exact (h.held d hdest y hy).2
    · rw [hp.held_past (not_lt.mp hdest)] at hy
      exact absurd hy (Multiset.notMem_zero y)
  · rw [hp.buffered_none h hd, resetStats_dest hd]
    rfl
  · rw [resetStats_admitted hd, resetStats_dest hd]
    exact h.counted d hd

/-- After any calls on a new PE in mode `agg`, `reset_stats` keeps every pending item, under an
    index that routes to the item's PE in the new mode, and leaves counts that match, exactly if
    nothing is buffered, what is held has the same index in both modes, and what is admitted is
    counted. It never aborts. -/
theorem resetStats_carries {ops : List (Op α F)} (hops : ∀ op ∈ ops, op.PeInRange cfg agg)
    (hp : run cfg ops (init agg bufSize) = .returns p) (btype size : ℤ) (agtype : Agg) :
    p.CarriesOver cfg (p.resetStats cfg btype size agtype) ↔ p.Portable cfg agtype := by
  have hrun := run_undisturbed (init_undisturbed cfg agg bufSize) hops hp
  constructor
  · intro h
    obtain ⟨hbuffered, hinside⟩ := hrun.carries_none h
    refine ⟨hbuffered, fun d hd y hy => ?_, fun d hd => ?_⟩
    · have hnew := hinside d hd y hy
      have hmem : (cfg.getDestProc y, y) ∈ ((p.resetStats cfg btype size agtype).dest d).pending
          cfg (p.resetStats cfg btype size agtype).knobs := by
        refine Multiset.mem_add.mpr (Or.inr (Multiset.mem_map.mpr ⟨y, ?_, rfl⟩))
        rwa [resetStats_held hnew]
      exact ⟨hnew, h.routed d hnew _ hmem⟩
    · have hupdates := h.updates d hd
      rw [resetStats_admitted hd, resetStats_dest hd] at hupdates
      exact hupdates
  · exact hrun.carries

end Switch

/-- Two nodes of two PEs. The key of an item is the PE it is for. -/
def twoByTwo : Config KeyValue where
  numNodes := 2
  nodeSize := 2
  histoBucketCount := 8
  maxBufSize := 4
  addFillers := false
  getDestProc := fun x => x.key.toNat
  ops := minOps

/-- A held item for PE 0 has index 0 in both modes; one for PE 3 is held for node 1, and under `WW`
    index 1 is PE 1. -/
theorem resetStats_carries_held :
    (∃ p : HTram KeyValue ℚ, run twoByTwo [offer 0 7] (init .WPs 4) = .returns p ∧
      p.CarriesOver twoByTwo (p.resetStats twoByTwo 0 4 .WW)) ∧
    ∃ p : HTram KeyValue ℚ, run twoByTwo [offer 3 7] (init .WPs 4) = .returns p ∧
      ¬ p.CarriesOver twoByTwo (p.resetStats twoByTwo 0 4 .WW) := by
  obtain ⟨p, hp, hportable⟩ := Outcome.of_check
    (P := fun p : HTram KeyValue ℚ => p.Portable twoByTwo .WW)
    (o := run twoByTwo [offer 0 7] (init .WPs 4)) (by decide +kernel)
  obtain ⟨q, hq, hstranded⟩ := Outcome.of_check
    (P := fun q : HTram KeyValue ℚ => ¬ q.Portable twoByTwo .WW)
    (o := run twoByTwo [offer 3 7] (init .WPs 4)) (by decide +kernel)
  refine ⟨⟨p, hp, ?_⟩, q, hq, fun h => hstranded ?_⟩
  · exact (resetStats_carries (by simp [offer, Op.PeInRange]) hp 0 4 .WW).mpr hportable
  · exact (resetStats_carries (by simp [offer, Op.PeInRange]) hq 0 4 .WW).mp h

/-- An item in a buffer is lost, even where the mode stays the same. -/
theorem resetStats_drops :
    ¬ ∀ ops : List (Op KeyValue ℚ), (∀ op ∈ ops, op.PeInRange oneNode .WPs) →
      ∀ p, run oneNode ops (init .WPs 4) = .returns p →
        ∀ agtype, p.CarriesOver oneNode (p.resetStats oneNode 0 4 agtype) := by
  intro h
  obtain ⟨p, hp, hmode, hbuffer⟩ : ∃ p : HTram KeyValue ℚ,
      run oneNode [.insertValue ⟨1, 3⟩ 0] (init .WPs 4) = .returns p ∧ p.knobs.agg = .WPs ∧
        (p.dest 0).msgBuffer.items.length = 1 :=
    Outcome.of_check (by decide +kernel)
  have hops : ∀ op ∈ ([.insertValue ⟨1, 3⟩ 0] : List (Op KeyValue ℚ)),
      op.PeInRange oneNode .WPs := by
    simp [Op.PeInRange, oneNode, Config.destOf, Config.nodeOf, Config.destCount]
  have hrun := run_undisturbed (init_undisturbed oneNode .WPs 4) hops hp
  obtain ⟨hnone, -⟩ := hrun.carries_none (h _ hops p hp .WPs)
  have hempty := hnone 0 (by unfold destCount; rw [hmode]; exact Nat.one_pos)
  rw [(List.append_eq_nil_iff.mp hempty).1] at hbuffer
  cases hbuffer

end HTram

end Htram
