import Htram.Pe.Acts
import Htram.Pe.Items

/-!
# What a count of 0 says about a PE, and flushes of an empty one

* `HTram.step_noneMissed`, `HTram.run_noneMissed`: on a PE whose items go through the
  buckets, no destination has more admitted than `updates_in_tram` counts.
* `HTram.NoneMissed.empty_of_count`: such a PE contributes 0 in `countBuffers` only if it
  is empty.
* `HTram.flush_empty`: a flush of an empty PE ships nothing and leaves it empty.
-/

namespace Htram

open CombiningHold

variable {α F : Type*}

namespace Dest

section One

variable {cfg : Config α} {k : Knobs F} {d d' : Dest α}

/-- Nothing is in the buffer or held up to the threshold. -/
theorem Settled.flushed_iff (hd : d.Settled cfg k) :
    (d.lane cfg k).Flushed ↔
      d.msgBuffer.next = 0 ∧ ∀ b : ℕ, (b : ℤ) ≤ k.tramThreshold → d.heldIn k b = 0 := by
  have hlen : (d.lane cfg k).buffer.length = d.msgBuffer.next := hd.sized.sound.written
  have hheld : ∀ b, d.heldIn k b = 0 ↔ (d.lane cfg k).held b = [] := by
    intro b
    rw [hd.heldIn_eq, Nat.cast_eq_zero, List.length_eq_zero_iff]
  constructor
  · rintro ⟨hbuffer, hdrained⟩
    refine ⟨by rw [← hlen, hbuffer]; rfl, fun b hb => (hheld b).mpr (hdrained b hb)⟩
  · rintro ⟨hnext, hnone⟩
    exact ⟨List.length_eq_zero_iff.mp (hlen.trans hnext), fun b hb => (hheld b).mp (hnone b hb)⟩

/-! ## Flushes of an empty destination -/

/-- From `d` to `d'` nothing was shipped, and nothing is admitted. -/
structure Still (cfg : Config α) (k : Knobs F) (d d' : Dest α) : Prop where
  sent : d'.sent = d.sent
  flushed : (d'.lane cfg k).Flushed

theorem Still.refl (hd : (d.lane cfg k).Flushed) : Still cfg k d d := ⟨rfl, hd⟩

theorem flushed_next (hd : d.Settled cfg k) (hflushed : (d.lane cfg k).Flushed) :
    d.msgBuffer.next = 0 := (hd.flushed_iff.mp hflushed).1

/-- With nothing admitted, the flush loops do nothing. -/
theorem drain_empty (hk : k.combining = false) (hd : d.Queued cfg k)
    (hdrained : (d.lane cfg k).Drained) : d.drain cfg k = d := by
  refine WordBits.forNext_rule (n := cfg.histoBucketCount)
    (P := fun _ s => s = d) (Q := fun s => s = d) ?_ ?_ ?_ ?_ ?_ _ _ _ rfl ?_
  · rintro start s i rfl h
    obtain ⟨h1, h2, -⟩ := hd.toStored.holdNext_some h
    exact ⟨h1, h2⟩
  · intro start s hs _
    exact hs
  · intro start s i hs _ _
    exact hs
  · rintro start s i rfl h hi _
    obtain ⟨-, -, hne, -⟩ := hd.toStored.holdNext_some h
    have hnil := hdrained i (of_decide_eq_true hi)
    simp only [lane, hk, Bool.false_eq_true, if_false, List.map_eq_nil_iff] at hnil
    exact absurd hnil hne
  · intro start s i _ _ _ h
    cases h
  · omega

theorem shipPartial_empty (fillers : Dest α → Dest α) (hnext : d.msgBuffer.next = 0) :
    d.shipPartial cfg k fillers = d := if_pos hnext

/-- The flush of an empty destination without combining leaves it as it is. -/
theorem flushQueue_empty (hk : k.combining = false) (hd : d.Queued cfg k)
    (hflushed : (d.lane cfg k).Flushed) : d.flushQueue cfg k = d := by
  unfold flushQueue
  rw [drain_empty hk hd hflushed.drained,
    shipPartial_empty _ (flushed_next ((settled_off hk).mpr hd) hflushed)]

theorem flushAll_empty (hk : k.combining = false) (hd : d.Queued cfg k)
    (hflushed : (d.lane cfg k).Flushed) (idleflush : Bool) :
    d.flushAll cfg k idleflush = d := by
  have hnext := flushed_next ((settled_off hk).mpr hd) hflushed
  have hbuffer : (if idleflush then d else d.flushBuffer k) = d := by
    unfold flushBuffer
    rw [if_pos hnext, ite_self]
  unfold flushAll
  rw [hbuffer, drain_empty hk hd hflushed.drained, shipPartial_empty _ hnext]

/-- With combining on, a flush of an empty destination only clears its lists. -/
theorem flushHold_still (hk : k.combining = true) (hd : d.Folds cfg k)
    (hflushed : (d.lane cfg k).Flushed) (hf : d.FlushSafe cfg k) :
    Still cfg k d (d.flushHold cfg k) := by
  obtain ⟨a, ha⟩ := hd.folded
  have hpos := hd.pos
  have hnext := flushed_next ((settled_on hk).mpr hd) hflushed
  have horder : a.order 0 (k.tramThreshold + 1).toNat = [] := by
    refine List.eq_nil_iff_forall_not_mem.mpr fun key hkey => ?_
    obtain ⟨c, -, hc, hmem⟩ := a.mem_order.mp hkey
    have hc : c < (k.tramThreshold + 1).toNat := by omega
    have hnone := hflushed.drained c (lt_toNat_iff.mp hc)
    rw [ha.held hk] at hnone
    have hlen := a.entries_length c
    rw [hnone] at hlen
    exact absurd (List.length_eq_zero_iff.mp hlen.symm) (List.ne_nil_of_mem hmem)
  obtain ⟨ha', -, -, hnext', hrest⟩ := releaseInto_spec k k.tramThreshold
    (k.bufSize - d.msgBuffer.next) false ha (hf.admitted ha _)
  rw [horder, List.take_nil] at ha' hnext'
  have hempty : (d.releaseAdmitted cfg k).msgBuffer.next = 0 := hnext'.trans hnext
  have hloop : flushHeldLoop cfg k (d.hold.count + 1) d = d.releaseAdmitted cfg k := by
    rw [flushHeldLoop]
    exact if_pos (Or.inr (hempty.symm ▸ hpos))
  have hstuck : (d.releaseAdmitted cfg k).hold.stuck = false := ha'.stuck
  have heq : d.flushHold cfg k = d.releaseAdmitted cfg k := by
    unfold flushHold
    dsimp only
    rw [hloop, hstuck, if_neg (by simp)]
    exact if_pos hempty
  obtain ⟨-, -, -, hflushed'⟩ := flushHold_path cfg hk ⟨false, true, false⟩ rfl hd hf
  have hsent := congrArg Dest.sent hrest
  exact ⟨(congrArg Dest.sent heq).trans hsent, hflushed'⟩

theorem flushDest_still (hd : d.Settled cfg k) (hflushed : (d.lane cfg k).Flushed)
    (hf : k.combining = true → d.FlushSafe cfg k) : Still cfg k d (d.flushDest cfg k) := by
  unfold flushDest
  split_ifs with hk
  · exact flushHold_still hk ((settled_on hk).mp hd) hflushed (hf hk)
  · have hk : k.combining = false := by simpa using hk
    rw [flushQueue_empty hk ((settled_off hk).mp hd) hflushed]
    exact .refl hflushed

theorem tflush_still (hagg : k.agg ≠ .WsP) (hd : d.Settled cfg k)
    (hflushed : (d.lane cfg k).Flushed) (hf : k.combining = true → d.FlushSafe cfg k)
    (idleflush : Bool) : Still cfg k d (d.tflush cfg k idleflush) := by
  unfold tflush
  split_ifs with hk
  · exact flushDest_still hd hflushed hf
  · have hk : k.combining = false := by simpa using hk
    rw [flushAll_empty hk ((settled_off hk).mp hd) hflushed]
    exact .refl hflushed

theorem flushIfStale_still (hd : d.Settled cfg k) (hflushed : (d.lane cfg k).Flushed)
    (hf : k.combining = true → d.FlushSafe cfg k) : Still cfg k d (d.flushIfStale cfg k) := by
  have hreset : ∀ d' : Dest α, Still cfg k d d' →
      Still cfg k d (if d'.hold.stuck then d' else { d' with fullSends := 0 }) := by
    intro d' h
    split_ifs
    · exact h
    · exact ⟨h.sent, h.flushed.buffer, h.flushed.drained⟩
  unfold flushIfStale
  dsimp only
  refine hreset _ ?_
  split_ifs
  · exact flushDest_still hd hflushed hf
  · exact .refl hflushed

theorem flushIfAny_still (hd : d.Settled cfg k) (hflushed : (d.lane cfg k).Flushed)
    (hf : k.combining = true → d.FlushSafe cfg k) : Still cfg k d (d.flushIfAny cfg k) := by
  unfold flushIfAny
  split_ifs
  · exact flushDest_still hd hflushed hf
  · exact .refl hflushed

end One

end Dest

namespace HTram

/-! ## The counts -/

/-- No destination has more admitted than is counted for it. -/
structure NoneMissed (cfg : Config α) (p : HTram α F) : Prop extends p.Steady cfg where
  valid : ∀ d < p.destCount cfg, (p.lane cfg d).Valid cfg
  drift : ∀ d < p.destCount cfg, 0 ≤ (p.lane cfg d).drift

theorem Steady.empty_iff_flushed {cfg : Config α} {p : HTram α F} (hp : p.Steady cfg) :
    p.Empty cfg ↔ ∀ d < p.destCount cfg, (p.lane cfg d).Flushed :=
  forall₂_congr fun d hd => (hp.dest d hd).flushed_iff.symm

section Counts

variable {cfg : Config α} {p : HTram α F}

theorem NoneMissed.admitted_le (hp : p.NoneMissed cfg) {d : ℕ} (hd : d < p.destCount cfg) :
    (p.dest d).admitted p.knobs ≤ (p.dest d).updatesInTram := by
  have hdrift := hp.drift d hd
  unfold lane at hdrift
  rw [(hp.dest d hd).drift_eq] at hdrift
  omega

/-- What such a PE contributes, against what there is to count. -/
theorem NoneMissed.waiting_le (hp : p.NoneMissed cfg) : p.waiting cfg ≤ p.countBuffers cfg := by
  have hcount : p.countBuffers cfg = ∑ d ∈ Finset.range (p.destCount cfg),
      (((p.dest d).msgBuffer.next : ℤ) + (p.dest d).updatesInTram) := by
    rw [Finset.sum_add_distrib]
    rfl
  rw [hcount]
  refine Finset.sum_le_sum fun d hd => ?_
  have hle := hp.admitted_le (Finset.mem_range.mp hd)
  unfold Dest.admitted at hle
  omega

theorem NoneMissed.count_nonneg (hp : p.NoneMissed cfg) : 0 ≤ p.countBuffers cfg :=
  hp.waiting_nonneg.trans hp.waiting_le

/-- A contribution of 0 says that the PE is empty. -/
theorem NoneMissed.empty_of_count (hp : p.NoneMissed cfg) (h : p.countBuffers cfg = 0) :
    p.Empty cfg := by
  have hnonneg := hp.waiting_nonneg
  have hle := hp.waiting_le
  exact hp.empty_iff.mpr (by omega)

end Counts

variable [Inhabited α] [ReleaseArith F]

/-- Calls that send through the buckets and inside their range, use `keep_top` only if the top
    bucket is not the only one, and meet no reference about to be taken for current. -/
structure Orderly (cfg : Config α) (p : HTram α F) (ops : List (Op α F)) : Prop where
  deferred : ∀ op ∈ ops, op.Deferred
  inRange : ∀ op ∈ ops, op.InRange cfg p.knobs.agg p.knobs.combining
  topped : ∀ op ∈ ops, op.MergesTop ∨ 2 ≤ cfg.histoBucketCount
  safe : SafeRun cfg ops p

/-- A call misses nothing that it admits. -/
theorem step_noneMissed {cfg : Config α} {p q : HTram α F} (hp : p.NoneMissed cfg)
    {op : Op α F} (hdefer : op.Deferred) (hrange : op.InRange cfg p.knobs.agg p.knobs.combining)
    (htop : op.MergesTop ∨ 2 ≤ cfg.histoBucketCount) (hsafe : p.StampsSafe cfg op)
    (hq : p.step cfg op = .returns q) :
    q.NoneMissed cfg ∧ q.knobs.agg = p.knobs.agg ∧ q.knobs.combining = p.knobs.combining := by
  have hstep := step_moves hp.toSteady hrange hsafe
  rw [hq] at hstep
  have hm : Moves cfg _ _ p q := hstep
  refine ⟨⟨hm.steady, fun d hd => ?_, fun d hd => ?_⟩, hm.agg, hm.combining⟩
  · rw [hm.destCount] at hd
    exact (hm.path d hd).valid (hp.valid d hd)
  · rw [hm.destCount] at hd
    have hraws := raws_eq_zero (hdefer.inputs cfg p.knobs.agg d)
    have hdrift := hp.drift d hd
    rcases htop with htop | hB
    · have hpath := (hm.path d hd).mono (htop.rules _)
      rw [hpath.drift rfl (hp.valid d hd), hraws]
      omega
    · exact hdrift.trans ((hm.path d hd).drift_le hB (hp.valid d hd) hraws)

theorem run_noneMissed {cfg : Config α} :
    ∀ {ops : List (Op α F)} {p q : HTram α F}, p.NoneMissed cfg → p.Orderly cfg ops →
      p.run cfg ops = .returns q →
      q.NoneMissed cfg ∧ q.knobs.agg = p.knobs.agg ∧ q.knobs.combining = p.knobs.combining := by
  intro ops
  induction ops with
  | nil =>
    intro p q hp _ hq
    cases hq
    exact ⟨hp, rfl, rfl⟩
  | cons op ops ih =>
    intro p q hp hops hq
    have hfirst : op ∈ op :: ops := List.mem_cons_self ..
    have hlater : ∀ {op'}, op' ∈ ops → op' ∈ op :: ops := List.mem_cons_of_mem _
    rw [run] at hq
    cases hr : p.step cfg op with
    | aborts => rw [hr] at hq; cases hq
    | hangs r => rw [hr] at hq; cases hq
    | returns r =>
      rw [hr] at hq
      obtain ⟨hnew, hagg, hcombining⟩ := step_noneMissed hp (hops.deferred op hfirst)
        (hops.inRange op hfirst) (hops.topped op hfirst) hops.safe.1 hr
      have hrest : r.Orderly cfg ops := by
        refine ⟨fun op' h => hops.deferred op' (hlater h), fun op' h => ?_,
          fun op' h => hops.topped op' (hlater h), hops.safe.2 r hr⟩
        rw [hagg, hcombining]
        exact hops.inRange op' (hlater h)
      obtain ⟨hlast, hagg', hcombining'⟩ := ih hnew hrest hq
      exact ⟨hlast, hagg'.trans hagg, hcombining'.trans hcombining⟩

theorem run_singleton {cfg : Config α} (p : HTram α F) (op : Op α F) :
    p.run cfg [op] = p.step cfg op := by
  rw [run]
  cases p.step cfg op <;> rfl

omit [Inhabited α] [ReleaseArith F] in
/-- An empty PE on which nothing is shipped and nothing becomes admitted. -/
theorem Empty.still {cfg : Config α} {p q : HTram α F} (hempty : p.Empty cfg)
    (hp : p.Steady cfg) (hq : q.Steady cfg) (hknobs : q.knobs = p.knobs)
    (hstill : ∀ d < p.destCount cfg, (p.lane cfg d).Flushed →
      Dest.Still cfg p.knobs (p.dest d) (q.dest d)) :
    q.Empty cfg ∧ ∀ d < p.destCount cfg, (q.dest d).sent = (p.dest d).sent := by
  have hcount : q.destCount cfg = p.destCount cfg := by
    unfold destCount
    rw [hknobs]
  have hflushed := hp.empty_iff_flushed.mp hempty
  refine ⟨hq.empty_iff_flushed.mpr fun d hd => ?_, fun d hd => (hstill d hd (hflushed d hd)).sent⟩
  rw [hcount] at hd
  unfold lane
  rw [hknobs]
  exact (hstill d hd (hflushed d hd)).flushed

/-- A flush of an empty PE ships nothing, and the PE is empty still. -/
theorem flush_empty {cfg : Config α} {p q : HTram α F} (hp : p.Steady cfg)
    (hempty : p.Empty cfg) {op : Op α F} (hop : op.Flushes) (hsafe : p.StampsSafe cfg op)
    (hq : p.step cfg op = .returns q) :
    q.Empty cfg ∧ ∀ d < p.destCount cfg, (q.dest d).sent = (p.dest d).sent := by
  have hsteady : q.Steady cfg := by
    have hrange : op.InRange cfg p.knobs.agg p.knobs.combining := by
      cases op <;> trivial
    have hstep := step_moves hp hrange hsafe
    rw [hq] at hstep
    exact (show Moves cfg _ _ p q from hstep).steady
  obtain ⟨hknobs, hdest⟩ := step_acts hq
  have hagg := hp.agg
  cases op with
  | tflush idleflush =>
    refine hempty.still hp hsteady hknobs fun d hd hflushed => ?_
    rw [hdest d hd]
    exact Dest.tflush_still hagg (hp.dest d hd) hflushed (fun hk => hsafe hk d hd) idleflush
  | flushStale =>
    refine hempty.still hp hsteady hknobs fun d hd hflushed => ?_
    rw [hdest d hd]
    dsimp only [Op.act]
    rw [if_pos hagg]
    exact Dest.flushIfStale_still (hp.dest d hd) hflushed fun hk => hsafe hk d hd
  | flushIdle elapsed =>
    refine hempty.still hp hsteady hknobs fun d hd hflushed => ?_
    rw [hdest d hd]
    dsimp only [Op.act]
    split_ifs
    · exact Dest.flushIfAny_still (hp.dest d hd) hflushed fun hk => hsafe hk d hd
    · exact .refl hflushed
  | send | sendTo | insertValue | insertValueWPs | changeThreshold | coarsenBuckets
    | setBufferSize => exact hop.elim

end HTram

end Htram
