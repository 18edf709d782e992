import Htram.Pe.Quiet

/-!
# What a call can ship, and an exact count

No message is shipped empty, so the items that wait pay for the messages that they will be in.

* `Path.charge`: a lane ships no more messages than its items pay for.
* `HTram.run_exact`: calls that do not coarsen with `keep_top` keep the counts exact, ship what is
  paid for, and if they are all flushes they leave an empty PE empty.
* `HTram.Exact.flushed`: `tflush` returns and leaves its PE empty.
-/

namespace Htram

variable {α F : Type*}

/-! ## Lanes -/

/-- The items that wait, held or in the buffer. -/
def Lane.stock (cfg : Config α) (L : Lane α) : Multiset α :=
  heldItems cfg.histoBucketCount L.held + payloads L.buffer

/-- The items that wait and the messages that have been shipped. -/
def Lane.charge (cfg : Config α) (L : Lane α) : ℕ := (L.stock cfg).card + L.sent.length

/-- Every message is for the entry method of the lane. -/
def Lane.Posted (L : Lane α) : Prop := ∀ s ∈ L.sent, s.entry = L.entry

/-- A move ships one message that is not empty, or none. -/
theorem Move.ships {cfg : Config α} {R : Rules} {xs : List (Input α)} {L L' : Lane α}
    (hm : Move cfg R xs L L') : L'.entry = L.entry ∧ (L'.sent = L.sent ∨
      ∃ s : Sent α, s.msg.items ≠ [] ∧ s.entry = L.entry ∧ L'.sent = L.sent ++ [s]) := by
  cases hm with
  | ship _ s full counted hne hitems _ hentry =>
    exact ⟨rfl, .inr ⟨s, by rwa [hitems], hentry, rfl⟩⟩
  | shipFilled _ s fs held' _ hne _ _ _ hitems _ hentry =>
    refine ⟨rfl, .inr ⟨s, ?_, hentry, rfl⟩⟩
    rw [hitems]
    exact List.append_ne_nil_of_left_ne_nil hne fs
  | _ => exact ⟨rfl, .inl rfl⟩

theorem Move.posted {cfg : Config α} {R : Rules} {xs : List (Input α)} {L L' : Lane α}
    (hm : Move cfg R xs L L') (hL : L.Posted) : L'.Posted := by
  obtain ⟨hentry, hsame | ⟨s, -, hs, hmore⟩⟩ := hm.ships
  · unfold Lane.Posted
    rwa [hentry, hsame]
  · intro m hmem
    rw [hmore, List.mem_append, List.mem_singleton] at hmem
    rw [hentry]
    rcases hmem with hold | rfl
    · exact hL m hold
    · exact hs

/-- A move ships no more messages than the items that wait, or come in, pay for. -/
theorem Move.charge {cfg : Config α} {R : Rules} {xs : List (Input α)} {L L' : Lane α}
    (hm : Move cfg R xs L L') (hL : L.Valid cfg) : L'.charge cfg ≤ L.charge cfg + xs.length := by
  have hpresent : (L'.present cfg).card ≤ (L.present cfg).card + xs.length := by
    rcases hm.present hL with ⟨-, hp⟩ | ⟨x, b, pe, y, c, -, rfl, -, -, hp⟩
    · rw [hp, Multiset.card_add, Multiset.coe_card, List.length_map]
    · have hcard := congrArg Multiset.card hp
      rw [Multiset.card_add, Multiset.card_add, Multiset.card_singleton,
        Multiset.card_singleton] at hcard
      omega
  have hsplit : ∀ M : Lane α,
      (M.present cfg).card = (M.stock cfg).card + (shipped M.sent).card :=
    fun M => Multiset.card_add ..
  rw [hsplit, hsplit] at hpresent
  unfold Lane.charge
  obtain ⟨-, hsame | ⟨s, hne, -, hmore⟩⟩ := hm.ships
  · rw [hsame] at hpresent ⊢
    omega
  · have hitems : 0 < (payloads s.msg.items).card := by
      unfold payloads
      rw [Multiset.coe_card, List.length_map]
      exact List.length_pos_of_ne_nil hne
    rw [hmore, shipped_append, shipped_singleton, Multiset.card_add] at hpresent
    rw [hmore, List.length_append, List.length_singleton]
    omega

theorem Path.posted {cfg : Config α} {R : Rules} {xs : List (Input α)} {L L' : Lane α}
    (hp : Path cfg R xs L L') (hL : L.Posted) : L'.Posted :=
  hp.invariant (P := fun _ => True) (fun _ _ _ hm _ => hm.posted) (fun _ _ => trivial) hL

theorem Path.grown {cfg : Config α} {R : Rules} {xs : List (Input α)} {L L' : Lane α}
    (hp : Path cfg R xs L L') : L.sent <+: L'.sent := by
  induction hp with
  | nil L => exact List.prefix_rfl
  | snoc hp hm ih =>
    obtain ⟨-, hsame | ⟨s, -, -, hmore⟩⟩ := hm.ships
    · rwa [hsame]
    · rw [hmore]
      exact ih.trans (List.prefix_append ..)

theorem Path.charge {cfg : Config α} {R : Rules} {xs : List (Input α)} {L L' : Lane α}
    (hp : Path cfg R xs L L') (hL : L.Valid cfg) : L'.charge cfg ≤ L.charge cfg + xs.length := by
  induction hp with
  | nil L => exact le_rfl
  | snoc hp hm ih =>
    have hlast := hm.charge (hp.valid hL)
    have hfirst := ih hL
    rw [List.length_append]
    omega

/-! ## Calls -/

/-- Whether a call may leave its PE with more than there was: 0 for a flush. -/
def Op.news : Op α F → ℕ
  | .tflush _ | .flushStale | .flushIdle _ => 0
  | _ => 1

theorem Op.flushes_of_news {op : Op α F} (h : op.news = 0) : op.Flushes := by
  cases op with
  | tflush | flushStale | flushIdle => trivial
  | _ => cases h

/-- A call hands in one item at most. -/
theorem Op.inputs_le (cfg : Config α) (agg : Agg) (op : Op α F) (n : ℕ) :
    ∑ d ∈ Finset.range n, (op.inputs cfg agg d).length ≤ op.news := by
  have hone : ∀ (x : Input α) (c : ℕ),
      ∑ d ∈ Finset.range n, (if c = d then [x] else []).length ≤ 1 := by
    intro x c
    have hif : ∀ d, (if c = d then [x] else []).length = if c = d then 1 else 0 := by
      intro d
      split_ifs
      all_goals rfl
    rw [Finset.sum_congr rfl fun d _ => hif d, Finset.sum_ite_eq]
    split_ifs
    all_goals omega
  have hnone : ∑ d ∈ Finset.range n, ([] : List (Input α)).length = 0 :=
    Finset.sum_eq_zero fun _ _ => rfl
  cases op with
  | send | sendTo | insertValue | insertValueWPs => exact hone ..
  | changeThreshold | coarsenBuckets | setBufferSize => exact hnone.le.trans (Nat.zero_le 1)
  | tflush | flushStale | flushIdle => exact hnone.le

namespace HTram

/-- The number of items that wait on a PE. -/
def stored (cfg : Config α) (p : HTram α F) : ℕ :=
  ∑ d ∈ Finset.range (p.destCount cfg), ((p.lane cfg d).stock cfg).card

/-- The items that wait on a PE and the messages that it has shipped. -/
def charge (cfg : Config α) (p : HTram α F) : ℕ :=
  ∑ d ∈ Finset.range (p.destCount cfg), (p.lane cfg d).charge cfg

/-- Every destination has admitted as much as is counted for it. -/
structure Exact (cfg : Config α) (p : HTram α F) : Prop extends p.Steady cfg where
  valid : ∀ d < p.destCount cfg, (p.lane cfg d).Valid cfg
  drift : ∀ d < p.destCount cfg, (p.lane cfg d).drift = 0
  posted : ∀ d < p.destCount cfg, (p.lane cfg d).Posted

/-- From `p` to `q` a PE ships no more than its items and `n` more pay for, and if `n` is 0 it
    stays empty if it is. -/
structure Pays (cfg : Config α) (n : ℕ) (p q : HTram α F) : Prop where
  agg : q.knobs.agg = p.knobs.agg
  combining : q.knobs.combining = p.knobs.combining
  grown : ∀ d < p.destCount cfg, (p.dest d).sent <+: (q.dest d).sent
  paid : q.charge cfg ≤ p.charge cfg + n
  empty : n = 0 → p.Empty cfg → q.Empty cfg

variable {cfg : Config α} {p q r : HTram α F}

theorem Pays.destCount {n : ℕ} (h : Pays cfg n p q) : q.destCount cfg = p.destCount cfg := by
  unfold HTram.destCount
  rw [h.agg]

theorem Pays.refl : Pays cfg 0 p p := ⟨rfl, rfl, fun _ _ => List.prefix_rfl, le_rfl, fun _ h => h⟩

theorem Pays.trans {m n : ℕ} (h : Pays cfg m p q) (h' : Pays cfg n q r) :
    Pays cfg (m + n) p r := by
  refine ⟨h'.agg.trans h.agg, h'.combining.trans h.combining, fun d hd => ?_, ?_, fun h0 hp => ?_⟩
  · exact (h.grown d hd).trans (h'.grown d (h.destCount ▸ hd))
  · have := h.paid
    have := h'.paid
    omega
  · exact h'.empty (by omega) (h.empty (by omega) hp)

/-- An exact PE contributes what there is to count. -/
theorem Exact.count_eq (hp : p.Exact cfg) : p.countBuffers cfg = p.waiting cfg := by
  have hcount : p.countBuffers cfg = ∑ d ∈ Finset.range (p.destCount cfg),
      (((p.dest d).msgBuffer.next : ℤ) + (p.dest d).updatesInTram) := by
    rw [Finset.sum_add_distrib]
    rfl
  rw [hcount]
  refine Finset.sum_congr rfl fun d hd => ?_
  have hd := Finset.mem_range.mp hd
  have hdrift := hp.drift d hd
  unfold lane at hdrift
  rw [(hp.dest d hd).drift_eq] at hdrift
  unfold Dest.admitted at hdrift
  omega

theorem Exact.count_of_empty (hp : p.Exact cfg) (hempty : p.Empty cfg) : p.countBuffers cfg = 0 :=
  hp.count_eq.trans (hp.empty_iff.mp hempty)

variable [Inhabited α]

/-- What a call does to a PE whose lanes take paths. -/
theorem Moves.pays {R : Rules} {xs : ℕ → List (Input α)} {n : ℕ} (hp : p.Exact cfg)
    (hm : Moves cfg R xs p q)
    (hxs : ∑ d ∈ Finset.range (p.destCount cfg), (xs d).length ≤ n)
    (hempty : n = 0 → p.Empty cfg → q.Empty cfg) : Pays cfg n p q := by
  refine ⟨hm.agg, hm.combining, fun d hd => (hm.path d hd).grown, ?_, hempty⟩
  have hsum : q.charge cfg ≤ ∑ d ∈ Finset.range (p.destCount cfg),
      ((p.lane cfg d).charge cfg + (xs d).length) := by
    unfold charge
    rw [hm.destCount]
    refine Finset.sum_le_sum fun d hd => ?_
    have hd := Finset.mem_range.mp hd
    exact (hm.path d hd).charge (hp.valid d hd)
  rw [Finset.sum_add_distrib] at hsum
  exact hsum.trans (Nat.add_le_add_left hxs _)

theorem Moves.exact {R : Rules} {xs : ℕ → List (Input α)} (hp : p.Exact cfg)
    (hm : Moves cfg R xs p q) (hR : R.keepTop = false) (hxs : ∀ d, raws (xs d) = 0) :
    q.Exact cfg := by
  refine ⟨hm.steady, fun d hd => ?_, fun d hd => ?_, fun d hd => ?_⟩
  · rw [hm.destCount] at hd
    exact (hm.path d hd).valid (hp.valid d hd)
  · rw [hm.destCount] at hd
    rw [(hm.path d hd).drift hR (hp.valid d hd), hp.drift d hd, hxs d]
    rfl
  · rw [hm.destCount] at hd
    exact (hm.path d hd).posted (hp.posted d hd)

variable [ReleaseArith F]

theorem step_exact (hp : p.Exact cfg) {op : Op α F} (hdefer : op.Deferred)
    (hrange : op.InRange cfg p.knobs.agg p.knobs.combining) (htop : op.MergesTop)
    (hsafe : p.StampsSafe cfg op) (hq : p.step cfg op = .returns q) :
    q.Exact cfg ∧ Pays cfg op.news p q := by
  have hstep := step_moves hp.toSteady hrange hsafe
  rw [hq] at hstep
  have hm : Moves cfg _ _ p q := hstep
  have hkeep : (op.rules p.knobs.combining).keepTop = false := by
    by_contra h
    exact absurd ((htop.rules p.knobs.combining).keepTop (by simpa using h)) (by simp)
  refine ⟨hm.exact hp hkeep fun d => raws_eq_zero (hdefer.inputs cfg p.knobs.agg d),
    hm.pays hp (op.inputs_le cfg _ _) fun h hempty => ?_⟩
  exact (flush_empty hp.toSteady hempty (Op.flushes_of_news h) hsafe hq).1

theorem run_exact : ∀ {ops : List (Op α F)} {p q : HTram α F}, p.Exact cfg → p.Orderly cfg ops →
    (∀ op ∈ ops, op.MergesTop) → p.run cfg ops = .returns q →
      q.Exact cfg ∧ Pays cfg (ops.map Op.news).sum p q := by
  intro ops
  induction ops with
  | nil =>
    intro p q hp _ _ hq
    cases hq
    exact ⟨hp, .refl⟩
  | cons op ops ih =>
    intro p q hp hops htop hq
    have hfirst : op ∈ op :: ops := List.mem_cons_self ..
    have hlater : ∀ {op'}, op' ∈ ops → op' ∈ op :: ops := List.mem_cons_of_mem _
    rw [run] at hq
    cases hr : p.step cfg op with
    | aborts => rw [hr] at hq; cases hq
    | hangs r => rw [hr] at hq; cases hq
    | returns r =>
      rw [hr] at hq
      obtain ⟨hnew, hpays⟩ := step_exact hp (hops.deferred op hfirst) (hops.inRange op hfirst)
        (htop op hfirst) hops.safe.1 hr
      have hrest : r.Orderly cfg ops := by
        refine ⟨fun op' h => hops.deferred op' (hlater h), fun op' h => ?_,
          fun op' h => hops.topped op' (hlater h), hops.safe.2 r hr⟩
        rw [hpays.agg, hpays.combining]
        exact hops.inRange op' (hlater h)
      obtain ⟨hlast, hpays'⟩ := ih hnew hrest (fun op' h => htop op' (hlater h)) hq
      exact ⟨hlast, by simpa using hpays.trans hpays'⟩

/-- `tflush` returns and leaves its PE empty. -/
theorem Exact.flushed (hp : p.Exact cfg) {idleflush : Bool}
    (hsafe : p.StampsSafe cfg (.tflush idleflush : Op α F)) :
    ∃ q, p.step cfg (.tflush idleflush) = .returns q ∧ q.Empty cfg := by
  obtain ⟨q, hq, -, hm, hflushed⟩ := tflush_moves (R := ⟨false, true, false⟩) rfl hp.toSteady
    idleflush hsafe
  refine ⟨q, hq, hm.steady.empty_iff_flushed.mpr fun d hd => hflushed d ?_⟩
  rwa [hm.destCount] at hd

/-- A PE as its client opens it is exact and has nothing waiting. -/
theorem opened_exact {agg : Agg} (hagg : agg ≠ .WsP) {bufSize : ℕ} (hpos : 0 < bufSize)
    {combining : Bool} {pre : List (Op α F)}
    (hpre : ∀ op ∈ pre, op.Idle ∧ op.InRange cfg agg combining)
    (hp : opened cfg agg bufSize pre combining = .returns p) :
    p.Exact cfg ∧ p.stored cfg = 0 ∧ p.knobs.agg = agg ∧ p.knobs.combining = combining := by
  have hopened := opened_unsent (F := F) hagg hpos hpre
  rw [hp] at hopened
  obtain ⟨hunsent, hmode⟩ := hopened
  refine ⟨⟨hunsent.toSteady, fun d hd => hunsent.lane_valid hd, fun d hd => ?_, fun d hd => ?_⟩,
    Finset.sum_eq_zero fun d hd => ?_, hmode⟩
  · exact (hunsent.blank d hd).drift
  · unfold Lane.Posted
    rw [(hunsent.blank d hd).sent]
    exact fun _ h => absurd h List.not_mem_nil
  · obtain ⟨hheld, hbuffer, -⟩ := hunsent.blank d (Finset.mem_range.mp hd)
    unfold Lane.stock heldItems
    rw [hbuffer, Finset.sum_eq_zero fun b _ => by rw [hheld b]; rfl]
    rfl

end HTram

end Htram
