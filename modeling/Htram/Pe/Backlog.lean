import Htram.Pe.Acts
import Htram.Pe.Admitted
import Htram.Pe.Fills

/-!
# How many admitted items wait

A release ends below the release level or with nothing admitted held, and then what waits
is in the buffer.

* `Dest.insertBucketsByDest_stops`, `Dest.releaseFull_stops`: how the two releases end.
* `HTram.session_relieved`: the bound on every destination's count, over runs.
-/

namespace Htram

variable {α F : Type*}

namespace Dest

/-! ## How a release ends -/

section Release

variable [ReleaseArith F] (cfg : Config α) {k : Knobs F}

/-- The loop of `releaseFull` ends below the level or with nothing admitted held: its bound
    is never reached. -/
theorem releaseFullLoop_stops (hk : k.combining = true) :
    ∀ (fuel : ℕ) (d : Dest α) (a : KeyedHold UInt64 α), d.Sized k.bufSize → d.Folded cfg a →
      d.hold.DrainSafe k.tramThreshold → (a.order 0 (k.tramThreshold + 1).toNat).length < fuel →
      ReleaseArith.ge (releaseFullLoop cfg k fuel d).updatesInTram k.releaseLevel = false ∨
        ((releaseFullLoop cfg k fuel d).lane cfg k).Drained := by
  intro fuel
  induction fuel with
  | zero => intro d a _ _ _ h; cases h
  | succ fuel ih =>
    intro d a hd ha hf hlen
    obtain ⟨ks, l, horder, ha', hrel, hp, hnext, hall⟩ :=
      releaseAdmitted_path cfg hk ⟨false, false, false⟩ hd ha hf
    have hfits := releaseAdmitted_fits cfg hd
    rw [releaseFullLoop]
    dsimp only
    split_ifs with hge hstop
    · right
      have hroom := hstop.resolve_left (by simp [ha'.stuck])
      rw [hall hroom, List.append_nil] at horder
      intro b hb
      rw [ha'.held hk, ← horder]
      exact a.entries_eraseAll_order (lt_toNat_iff.mpr hb)
    · rw [not_or] at hstop
      obtain ⟨hs, ha'', -⟩ := shipFull_path cfg ⟨false, false, false⟩ hfits hd.pos ha' hstop.2
        true hp
      refine ih _ _ hs ha'' (hrel.drainSafe ha'.refines.inv hf) ?_
      have hlt := hd.lt
      have hle := hfits.le
      rw [horder, List.length_append] at hlen
      rw [KeyedHold.order_eraseAll_prefix ks a horder]
      omega
    · left
      simpa using hge

theorem releaseFull_stops (hk : k.combining = true) {d : Dest α} (hd : d.Folds cfg k)
    (hf : d.hold.DrainSafe k.tramThreshold) :
    ReleaseArith.ge (d.releaseFull cfg k).updatesInTram k.releaseLevel = false ∨
      ((d.releaseFull cfg k).lane cfg k).Drained := by
  obtain ⟨a, ha⟩ := hd.folded
  exact releaseFullLoop_stops cfg hk _ d a hd.toSized ha hf
    (Nat.lt_succ_of_le (order_length_le ha _))

end Release

section Level

variable (cfg : Config α) {k : Knobs ℚ}

/-- `insertBucketsByDest` ends below the level or with nothing held up to `high`. -/
theorem insertBucketsByDest_stops (hk : k.combining = false) (high : ℤ) {d : Dest α}
    (hd : d.Queued cfg k) :
    ((d.insertBucketsByDest cfg k high).updatesInTram : ℚ) < k.releaseLevel ∨
      ∀ c : ℕ, (c : ℤ) ≤ high → (d.insertBucketsByDest cfg k high).queues c = [] := by
  refine WordBits.forNext_rule (n := cfg.histoBucketCount)
    (P := fun start (s : Dest α) => s.Queued cfg k ∧
      ((s.updatesInTram : ℚ) < k.releaseLevel ∨ ∀ c < start, s.queues c = []))
    (Q := fun s : Dest α => (s.updatesInTram : ℚ) < k.releaseLevel ∨
      ∀ c : ℕ, (c : ℤ) ≤ high → s.queues c = [])
    ?_ ?_ ?_ ?_ ?_ cfg.histoBucketCount 0 d ?_ (by omega)
  · rintro start s i ⟨hq, -⟩ hnext
    obtain ⟨h1, h2, -⟩ := hq.toStored.holdNext_some hnext
    exact ⟨h1, h2⟩
  · rintro start s ⟨hq, hstate⟩ hnone
    refine hstate.imp_right fun hempty c _ => ?_
    rcases Nat.lt_or_ge c start with h | h
    · exact hempty c h
    · exact hq.toStored.holdNext_none hnone c h
  · rintro start s i ⟨hq, hstate⟩ hnext hcond
    obtain ⟨-, -, -, hskip⟩ := hq.toStored.holdNext_some hnext
    have hi := of_decide_eq_false hcond
    refine hstate.imp_right fun hempty c hc => ?_
    rcases Nat.lt_or_ge c start with h | h
    · exact hempty c h
    · exact hskip c h (by omega)
  · rintro start s i ⟨hq, hstate⟩ hnext hcond -
    obtain ⟨-, -, -, hskip⟩ := hq.toStored.holdNext_some hnext
    obtain ⟨xs, htakes, -, hbelow, -⟩ := insertBucket_takes cfg hk (i := i) (s.tramHold i).size s
      hq.toSized le_rfl
    have hqueued := insertBucket_queued cfg i (s.tramHold i).size s hq
    have hcount := htakes.updates
    generalize insertBucket cfg k i (s.tramHold i).size s = s' at *
    refine ⟨hqueued, ?_⟩
    rcases hstate with hlow | hempty
    · -- the count only falls
      left
      refine lt_of_le_of_lt ?_ hlow
      rw [hcount]
      unfold countAfter
      exact_mod_cast Int.sub_le_self _ (Int.natCast_nonneg _)
    · rcases Nat.eq_or_lt_of_le htakes.length_le with hall | hpart
      · right
        intro c hc
        rw [htakes.queues_eq]
        split_ifs with hci
        · rw [hall, List.drop_length]
        · rcases Nat.lt_or_ge c start with h | h
          · exact hempty c h
          · exact hskip c h (by omega)
      · left
        rw [hcount]
        exact of_decide_eq_true (hbelow hpart)
  · intro _ _ _ _ _ _ h; cases h
  · exact ⟨hd, Or.inr (by omega)⟩

end Level

/-! ## The bound -/

/-- The bound on the count of admitted items. -/
def Relieved (k : Knobs ℚ) (d : Dest α) : Prop :=
  (d.updatesInTram : ℚ) ≤ max (k.selectivity * k.bufSize) (k.bufSize - 1)

instance (k : Knobs ℚ) (d : Dest α) : Decidable (d.Relieved k) :=
  inferInstanceAs (Decidable (_ ≤ _))

theorem Relieved.of_le {k : Knobs ℚ} {d d' : Dest α} (hd : d.Relieved k)
    (hle : d'.updatesInTram ≤ d.updatesInTram) : d'.Relieved k := by
  unfold Relieved at hd ⊢
  exact le_trans (Int.cast_le.mpr hle) hd

theorem relieved_of_level {k : Knobs ℚ} {d : Dest α}
    (h : (d.updatesInTram : ℚ) ≤ k.selectivity * k.bufSize) : d.Relieved k :=
  h.trans (le_max_left _ _)

/-- A destination of a PE that does not count more than is admitted. -/
structure NoExcess (cfg : Config α) (k : Knobs F) (d : Dest α) : Prop where
  settled : d.Settled cfg k
  valid : (d.lane cfg k).Valid cfg
  drift : (d.lane cfg k).drift ≤ 0

theorem NoExcess.settles {cfg : Config α} {R : Rules} (hR : R.keepTop = false) {k k' : Knobs F}
    {xs : List (Input α)} {h : CombiningHold α} {d d' : Dest α} (hd : d.NoExcess cfg k)
    (hs : Settles cfg R k k' xs h d d') : d'.NoExcess cfg k' := by
  refine ⟨hs.settled, hs.path.valid hd.valid, ?_⟩
  have hdrift := hd.drift
  rw [hs.path.drift hR hd.valid]
  omega

section Bound

variable {cfg : Config α} {k : Knobs ℚ} {d : Dest α}

/-- With nothing admitted held, what is counted is in the buffer. -/
theorem NoExcess.relieved_of_drained (hd : d.NoExcess cfg k) (hdrained : (d.lane cfg k).Drained) :
    d.Relieved k := by
  have hnone : countUpTo (d.lane cfg k).held (d.lane cfg k).threshold = 0 := by
    refine Finset.sum_eq_zero fun b hb => ?_
    rw [hdrained b (lt_toNat_iff.mp (Finset.mem_range.mp hb))]
    rfl
  have hbuffer : (d.lane cfg k).buffer.length = d.msgBuffer.next := hd.settled.sized.sound.written
  have hdrift := hd.drift
  unfold Lane.drift Lane.admitted at hdrift
  rw [hnone, hbuffer] at hdrift
  have hlt := hd.settled.sized.lt
  have hle : d.updatesInTram ≤ (k.bufSize : ℤ) - 1 := by
    have hcount : d.updatesInTram - ((0 + d.msgBuffer.next : ℕ) : ℤ) ≤ 0 := hdrift
    omega
  refine le_trans ?_ (le_max_right _ _)
  have hcast : ((d.updatesInTram : ℤ) : ℚ) ≤ (((k.bufSize : ℤ) - 1 : ℤ) : ℚ) :=
    Int.cast_le.mpr hle
  push_cast at hcast
  exact hcast

/-- A release that has stopped. -/
theorem NoExcess.relieved_of_stop (hlevel : k.releaseLevel = k.selectivity * k.bufSize)
    (hd : d.NoExcess cfg k)
    (hstop : (d.updatesInTram : ℚ) < k.releaseLevel ∨ (d.lane cfg k).Drained) : d.Relieved k := by
  rcases hstop with hlow | hdrained
  · exact relieved_of_level (hlevel ▸ hlow.le)
  · exact hd.relieved_of_drained hdrained

theorem releaseFull_relieved (hlevel : k.releaseLevel = k.selectivity * k.bufSize)
    (hk : k.combining = true) (hd : d.Folds cfg k) (hf : d.hold.DrainSafe k.tramThreshold)
    (hnew : (d.releaseFull cfg k).NoExcess cfg k) : (d.releaseFull cfg k).Relieved k := by
  refine hnew.relieved_of_stop hlevel ((releaseFull_stops cfg hk hd hf).imp_left fun h => ?_)
  exact not_le.mp (of_decide_eq_false h)

theorem insertBucketsByDest_relieved (hlevel : k.releaseLevel = k.selectivity * k.bufSize)
    (hk : k.combining = false) (hd : d.Queued cfg k)
    (hnew : (d.insertBucketsByDest cfg k k.tramThreshold).NoExcess cfg k) :
    (d.insertBucketsByDest cfg k k.tramThreshold).Relieved k := by
  refine hnew.relieved_of_stop hlevel
    ((insertBucketsByDest_stops cfg hk _ hd).imp_right fun h b hb => ?_)
  have hqueue := h b hb
  unfold queues at hqueue
  simp [lane, hk, hqueue]

theorem releaseOver_relieved (hlevel : k.releaseLevel = k.selectivity * k.bufSize)
    (hk : k.combining = false) (hd : d.Queued cfg k)
    (hnew : (d.releaseOver cfg k).NoExcess cfg k) : (d.releaseOver cfg k).Relieved k := by
  unfold releaseOver at hnew ⊢
  split_ifs at hnew ⊢ with hover
  · exact insertBucketsByDest_relieved hlevel hk hd hnew
  · have hle := of_decide_eq_false (Bool.eq_false_of_not_eq_true hover)
    exact relieved_of_level (hlevel ▸ not_lt.mp hle)

theorem releaseAbove_relieved (hlevel : k.releaseLevel = k.selectivity * k.bufSize)
    (hd : d.NoExcess cfg k) (hf : k.combining = true → d.hold.DrainSafe k.tramThreshold) :
    (d.releaseAbove cfg k).NoExcess cfg k ∧ (d.releaseAbove cfg k).Relieved k := by
  have hnew : (d.releaseAbove cfg k).NoExcess cfg k := hd.settles rfl
    (releaseAbove_settles cfg ⟨false, false, false⟩ hd.settled hf)
  refine ⟨hnew, ?_⟩
  unfold releaseAbove at hnew ⊢
  split_ifs at hnew ⊢ with hover hk
  · exact releaseFull_relieved hlevel hk ((settled_on hk).mp hd.settled) (hf hk) hnew
  · have hk : k.combining = false := by simpa using hk
    exact insertBucketsByDest_relieved hlevel hk ((settled_off hk).mp hd.settled) hnew
  · exact relieved_of_level (not_lt.mp (of_decide_eq_false (Bool.eq_false_of_not_eq_true hover)))

/-! ## What each call leaves -/

theorem sendItem_relieved [Inhabited α] (hlevel : k.releaseLevel = k.selectivity * k.bufSize)
    (hd : d.NoExcess cfg k) (x : α) {b : ℕ} (hs : k.combining = true → d.SendSafe cfg k x b)
    (hb : b < cfg.histoBucketCount) (pe : ℕ) :
    (d.sendItem cfg k x b pe).NoExcess cfg k ∧ (d.sendItem cfg k x b pe).Relieved k := by
  have hnew : (d.sendItem cfg k x b pe).NoExcess cfg k := hd.settles rfl
    (sendItem_settles cfg (R := ⟨true, false, false⟩) (fun _ => rfl) hd.settled x hs hb pe)
  refine ⟨hnew, ?_⟩
  unfold sendItem at hnew ⊢
  split_ifs at hnew ⊢ with hk
  · obtain ⟨d', hd', hf, -, -, hsend⟩ := sendHold_insert cfg hk ⟨true, false, false⟩ rfl
      ((settled_on hk).mp hd.settled) x (hs hk) pe hb
    rw [hsend] at hnew ⊢
    split_ifs at hnew ⊢ with hfull
    · exact releaseFull_relieved hlevel hk hd' hf hnew
    · have hlow := not_le.mp (of_decide_eq_false (Bool.eq_false_of_not_eq_true hfull))
      exact relieved_of_level (hlevel ▸ hlow.le)
  · have hk : k.combining = false := by simpa using hk
    obtain ⟨hq, -⟩ := enqueue_path cfg hk ⟨false, false, false⟩ x pe hb
      ((settled_off hk).mp hd.settled)
    exact releaseOver_relieved hlevel hk hq hnew

theorem insertValueWPsTo_updates (k : Knobs F) (d : Dest α) (x : α) (pe : ℕ) (bucket : Option ℕ) :
    (d.insertValueWPsTo k x pe bucket).updatesInTram ≤ d.updatesInTram := by
  unfold insertValueWPsTo
  dsimp only
  split_ifs
  · exact Int.sub_le_self _ (Int.natCast_nonneg _)
  · exact le_refl _

theorem insertValue_updates (cfg : Config α) (k : Knobs F) (d : Dest α) (x : α) (pe rank : ℕ) :
    (d.insertValue cfg k x pe rank).updatesInTram ≤ d.updatesInTram := by
  unfold insertValue
  cases k.agg with
  | WsP =>
    dsimp only
    unfold insertSorted
    dsimp only
    split_ifs <;> exact le_refl _
  | WW | WPs =>
    dsimp only
    split_ifs
    · exact Int.sub_le_self _ (Int.natCast_nonneg _)
    · exact le_refl _

theorem flushDest_relieved (hd : d.NoExcess cfg k) (hf : k.combining = true → d.FlushSafe cfg k) :
    (d.flushDest cfg k).NoExcess cfg k ∧ (d.flushDest cfg k).Relieved k := by
  obtain ⟨hs, hflushed⟩ := flushDest_settles cfg (R := ⟨false, true, false⟩) rfl hd.settled hf
  have hnew := hd.settles rfl hs
  exact ⟨hnew, hnew.relieved_of_drained hflushed.drained⟩

theorem tflush_relieved (hagg : k.agg ≠ .WsP) (hd : d.NoExcess cfg k)
    (hf : k.combining = true → d.FlushSafe cfg k) (idleflush : Bool) :
    (d.tflush cfg k idleflush).NoExcess cfg k ∧ (d.tflush cfg k idleflush).Relieved k := by
  obtain ⟨hs, hflushed⟩ := tflush_settles cfg hagg (R := ⟨false, true, false⟩) rfl idleflush
    hd.settled hf
  have hnew := hd.settles rfl hs
  exact ⟨hnew, hnew.relieved_of_drained hflushed.drained⟩

theorem flushIfStale_relieved (hd : d.NoExcess cfg k) (hrel : d.Relieved k)
    (hf : k.combining = true → d.FlushSafe cfg k) :
    (d.flushIfStale cfg k).NoExcess cfg k ∧ (d.flushIfStale cfg k).Relieved k := by
  refine ⟨hd.settles rfl (flushIfStale_settles cfg (R := ⟨false, true, false⟩) rfl hd.settled hf),
    ?_⟩
  have hkeep : ∀ d' : Dest α, d'.Relieved k →
      (if d'.hold.stuck then d' else { d' with fullSends := 0 }).Relieved k := by
    intro d' h
    split_ifs <;> exact h
  unfold flushIfStale
  dsimp only
  refine hkeep _ ?_
  split_ifs
  · exact (flushDest_relieved hd hf).2
  · exact hrel

theorem flushIfAny_relieved (hd : d.NoExcess cfg k) (hrel : d.Relieved k)
    (hf : k.combining = true → d.FlushSafe cfg k) :
    (d.flushIfAny cfg k).NoExcess cfg k ∧ (d.flushIfAny cfg k).Relieved k := by
  unfold flushIfAny
  split_ifs
  · exact flushDest_relieved hd hf
  · exact ⟨hd, hrel⟩

/-- Unless the top bucket stops being admitted with something in it. -/
theorem coarsen_noExcess (hk : k.combining = false) {factor : ℕ} (hf : 2 ≤ factor) (keepTop : Bool)
    (hd : d.NoExcess cfg k)
    (htop : keepTop = true → ((cfg.histoBucketCount - 1 : ℕ) : ℤ) ≤ k.tramThreshold →
      k.tramThreshold.tdiv factor < (cfg.histoBucketCount - 1 : ℕ) →
      d.queues (cfg.histoBucketCount - 1) = []) :
    (d.coarsen cfg k factor keepTop).NoExcess cfg (k.coarsened factor) := by
  have hs := coarsen_settles cfg hk (R := ⟨false, false, keepTop⟩) hf id hd.settled
  cases keepTop with
  | false => exact hd.settles rfl hs
  | true =>
    refine ⟨hs.settled, hs.path.valid hd.valid, ?_⟩
    obtain ⟨-, hlane⟩ := coarsen_lane cfg hk hf true ((settled_off hk).mp hd.settled)
    rw [hlane]
    have hge := coarsen_drift_ge cfg hd.valid.bounded hf hd.valid.threshold fun h1 h2 => by
      have hqueue := htop rfl h1 h2
      unfold queues at hqueue
      simp [lane, hk, hqueue]
    exact le_trans hge hd.drift

end Bound

end Dest

/-! ## Runs -/

/-- The call leaves the bound to a release: with combining on, `setBufferSize` does not
    release, so the counts must be within the new bound already; and `coarsenBuckets` with
    `keep_top` leaves nothing counted in a top bucket that stops being admitted. -/
def Op.Relieves (cfg : Config α) (p : HTram α ℚ) : Op α ℚ → Prop
  | .setBufferSize newSize =>
    p.knobs.combining = true → (∀ d < p.destCount cfg, (p.dest d).msgBuffer.next = 0) →
      ∀ d < p.destCount cfg, (p.dest d).Relieved (p.knobs.resized newSize)
  | .coarsenBuckets factor keepTop =>
    keepTop = true → 2 ≤ factor → p.knobs.combining = false →
      ((cfg.histoBucketCount - 1 : ℕ) : ℤ) ≤ p.knobs.tramThreshold →
      p.knobs.tramThreshold.tdiv factor < (cfg.histoBucketCount - 1 : ℕ) →
      ∀ d < p.destCount cfg, (p.dest d).queues (cfg.histoBucketCount - 1) = []
  | _ => True

namespace HTram

/-- A PE between two calls, with every count within the bound. -/
structure WithinLevel (cfg : Config α) (p : HTram α ℚ) : Prop where
  steady : p.Steady cfg
  level : p.knobs.releaseLevel = p.knobs.selectivity * p.knobs.bufSize
  noExcess : ∀ d < p.destCount cfg, (p.dest d).NoExcess cfg p.knobs
  relieved : ∀ d < p.destCount cfg, (p.dest d).Relieved p.knobs

theorem setBufferSize_returns {cfg : Config α} {p q : HTram α ℚ} {newSize : ℕ}
    (hq : p.setBufferSize cfg newSize = .returns q) :
    0 < newSize ∧ (newSize ≠ p.knobs.bufSize → p.knobs.combining = true →
      ∀ d < p.destCount cfg, (p.dest d).msgBuffer.next = 0) := by
  unfold setBufferSize at hq
  split_ifs at hq with hrange hsame hoff hfull
  · exact ⟨hrange.1, fun h => absurd hsame h⟩
  · exact ⟨hrange.1, fun _ hon => absurd hon hoff.1⟩
  · push Not at hfull
    exact ⟨hrange.1, fun _ _ => hfull⟩

variable [Inhabited α]

/-- What a call leaves of each destination. -/
theorem act_relieved {cfg : Config α} {p q : HTram α ℚ} (hp : p.WithinLevel cfg) {op : Op α ℚ}
    (hop : op.InRange cfg p.knobs.agg p.knobs.combining) (hs : p.StampsSafe cfg op)
    (hrel : op.Relieves cfg p) (hq : p.step cfg op = .returns q) {d : ℕ}
    (hd : d < p.destCount cfg) :
    (op.act cfg p.knobs d (p.dest d)).NoExcess cfg (op.settings p.knobs) ∧
      (op.act cfg p.knobs d (p.dest d)).Relieved (op.settings p.knobs) := by
  have hx := hp.noExcess d hd
  have hr := hp.relieved d hd
  cases op with
  | send x b =>
    dsimp only [Op.act, Op.settings]
    split_ifs with h
    · exact Dest.sendItem_relieved hp.level hx x (fun hk => hs hk d hd h) hop _
    · exact ⟨hx, hr⟩
  | sendTo x b pe =>
    dsimp only [Op.act, Op.settings]
    split_ifs with h
    · exact Dest.sendItem_relieved hp.level hx x (fun hk => hs hk d hd h) hop _
    · exact ⟨hx, hr⟩
  | insertValue x pe =>
    dsimp only [Op.act, Op.settings]
    split_ifs with h
    · exact ⟨hx.settles rfl (Dest.insertValue_settles cfg hp.steady.agg ⟨false, false, false⟩
        hx.settled x pe _), hr.of_le (Dest.insertValue_updates ..)⟩
    · exact ⟨hx, hr⟩
  | insertValueWPs x pe =>
    dsimp only [Op.act, Op.settings]
    split_ifs with h
    · exact ⟨hx.settles rfl (Dest.insertValueWPsTo_settles cfg ⟨false, false, false⟩ hx.settled x
        pe), hr.of_le (Dest.insertValueWPsTo_updates ..)⟩
    · exact ⟨hx, hr⟩
  | changeThreshold direct t selectivity =>
    dsimp only [Op.act, Op.settings]
    split_ifs with h
    · exact ⟨hx, hr⟩
    · have hs' := Dest.retune_settles cfg ⟨false, false, false⟩ hp.steady.threshold hop.1 direct
        selectivity hx.settled
      exact Dest.releaseAbove_relieved rfl (hx.settles rfl hs') fun hk =>
        (hs'.hold hk).drainSafe (hs'.settled.holdInv hk) (hs hk d hd)
  | coarsenBuckets factor keepTop =>
    dsimp only [Op.act, Op.settings]
    split_ifs with h
    · exact ⟨hx, hr⟩
    · have hoff : p.knobs.combining = false := by
        have hq : p.coarsenBuckets cfg factor keepTop = .returns q := hq
        unfold coarsenBuckets at hq
        rw [if_neg h] at hq
        split_ifs at hq with hon
        · simpa using hon
      have hfactor : (factor.toNat : ℤ) = factor := Int.toNat_of_nonneg (by omega)
      refine Dest.releaseAbove_relieved hp.level (Dest.coarsen_noExcess hoff (by omega) keepTop hx
        fun hkeep h1 h2 => ?_) fun hk => absurd (hoff.symm.trans hk) (by simp)
      rw [hfactor] at h2
      exact hrel hkeep (by omega) hoff h1 h2 d hd
  | setBufferSize newSize =>
    obtain ⟨hpos, hempty⟩ := setBufferSize_returns hq
    dsimp only [Op.act, Op.settings]
    split_ifs with hsame hoff
    · exact ⟨hx, hr⟩
    · have hk : p.knobs.combining = false := by simpa using hoff.1
      have hnew := hx.settles rfl
        (Dest.resize_settles cfg ⟨false, false, false⟩ hk hpos hx.settled)
      refine ⟨hnew, ?_⟩
      obtain ⟨hqueued, -⟩ := Dest.refit_path cfg ⟨false, false, false⟩ hpos
        ((Dest.settled_off hk).mp hx.settled)
      exact Dest.releaseOver_relieved rfl hk hqueued hnew
    · have hk : p.knobs.combining = true := by
        by_contra hk
        exact hoff ⟨hk, hp.steady.agg⟩
      exact ⟨hx.settles rfl (Dest.newBuffer_settles cfg ⟨false, false, false⟩ hk hpos
        (hempty hsame hk d hd) hx.settled), hrel hk (hempty hsame hk) d hd⟩
  | tflush idleflush =>
    exact Dest.tflush_relieved hp.steady.agg hx (fun hk => hs hk d hd) idleflush
  | flushStale =>
    dsimp only [Op.act, Op.settings]
    rw [if_pos hp.steady.agg]
    exact Dest.flushIfStale_relieved hx hr fun hk => hs hk d hd
  | flushIdle elapsed =>
    dsimp only [Op.act, Op.settings]
    split_ifs
    · exact Dest.flushIfAny_relieved hx hr fun hk => hs hk d hd
    · exact ⟨hx, hr⟩

omit [Inhabited α] in
theorem settings_level {p : HTram α ℚ}
    (hp : p.knobs.releaseLevel = p.knobs.selectivity * p.knobs.bufSize) (op : Op α ℚ) :
    (op.settings p.knobs).releaseLevel =
      (op.settings p.knobs).selectivity * (op.settings p.knobs).bufSize := by
  cases op with
  | changeThreshold | setBufferSize | coarsenBuckets =>
    dsimp only [Op.settings]
    split_ifs
    · exact hp
    · first | rfl | exact hp
  | _ => exact hp

/-- A call keeps every count within the bound. -/
theorem step_withinLevel {cfg : Config α} {p : HTram α ℚ} (hp : p.WithinLevel cfg) {op : Op α ℚ}
    (hop : op.InRange cfg p.knobs.agg p.knobs.combining) (hs : p.StampsSafe cfg op)
    (hrel : op.Relieves cfg p) : (p.step cfg op).Holds (WithinLevel cfg) fun _ => False := by
  have hmoves := step_moves hp.steady hop hs
  unfold StepMoves at hmoves
  cases hq : p.step cfg op with
  | aborts => trivial
  | hangs q => rw [hq] at hmoves; exact hmoves
  | returns q =>
    rw [hq] at hmoves
    have hm : Moves cfg _ _ p q := hmoves
    obtain ⟨hknobs, hdest⟩ := step_acts hq
    refine ⟨hm.steady, ?_, fun d hd => ?_, fun d hd => ?_⟩
    · rw [hknobs]
      exact settings_level hp.level op
    · rw [hm.destCount] at hd
      rw [hdest d hd, hknobs]
      exact (act_relieved hp hop hs hrel hq hd).1
    · rw [hm.destCount] at hd
      rw [hdest d hd, hknobs]
      exact (act_relieved hp hop hs hrel hq hd).2

/-- Every call of the run leaves the bound to a release. -/
def RelievesRun (cfg : Config α) : List (Op α ℚ) → HTram α ℚ → Prop
  | [], _ => True
  | op :: ops, p => op.Relieves cfg p ∧ ∀ q, p.step cfg op = .returns q → RelievesRun cfg ops q

theorem run_withinLevel {cfg : Config α} :
    ∀ (ops : List (Op α ℚ)) (p : HTram α ℚ), p.WithinLevel cfg →
      (∀ op ∈ ops, op.InRange cfg p.knobs.agg p.knobs.combining) → SafeRun cfg ops p →
      RelievesRun cfg ops p → (p.run cfg ops).Holds (WithinLevel cfg) fun _ => False := by
  intro ops
  induction ops with
  | nil => intro p hp _ _ _; exact hp
  | cons op ops ih =>
    intro p hp hops hsafe hrel
    have hin := hops op (List.mem_cons_self ..)
    have hstep := step_withinLevel hp hin hsafe.1 hrel.1
    have hmoves := step_moves hp.steady hin hsafe.1
    rw [run]
    cases hq : p.step cfg op with
    | aborts => trivial
    | hangs q => rw [hq] at hstep; exact hstep
    | returns q =>
      unfold StepMoves at hmoves
      rw [hq] at hstep hmoves
      have hm : Moves cfg _ _ p q := hmoves
      refine ih q hstep (fun op' h => ?_) (hsafe.2 q hq) (hrel.2 q hq)
      rw [hm.agg, hm.combining]
      exact hops op' (List.mem_cons_of_mem _ h)

theorem run_level {cfg : Config α} {ops : List (Op α ℚ)} {p q : HTram α ℚ}
    (hp : p.knobs.releaseLevel = p.knobs.selectivity * p.knobs.bufSize)
    (hq : p.run cfg ops = .returns q) :
    q.knobs.releaseLevel = q.knobs.selectivity * q.knobs.bufSize := by
  refine run_keeps (I := fun p : HTram α ℚ => p.knobs.releaseLevel =
    p.knobs.selectivity * p.knobs.bufSize) (fun op _ p q hp hq => ?_) hp hq
  rw [(step_acts hq).1]
  exact settings_level hp op

/-- A PE that has been handed no item is within the bound. -/
theorem opened_withinLevel {cfg : Config α} {agg : Agg} (hagg : agg ≠ .WsP) {bufSize : ℕ}
    (hpos : 0 < bufSize) {pre : List (Op α ℚ)} {combining : Bool}
    (hpre : ∀ op ∈ pre, op.Idle ∧ op.InRange cfg agg combining) {p : HTram α ℚ}
    (hp : opened cfg agg bufSize pre combining = .returns p) :
    p.WithinLevel cfg ∧ p.knobs.agg = agg ∧ p.knobs.combining = combining := by
  have hopened := opened_unsent (F := ℚ) hagg hpos hpre
  rw [hp] at hopened
  obtain ⟨hunsent, hagg', hcomb⟩ := hopened
  have hlevel : p.knobs.releaseLevel = p.knobs.selectivity * p.knobs.bufSize := by
    unfold opened at hp
    cases hr : run cfg pre (init agg bufSize : HTram α ℚ) with
    | aborts => rw [hr] at hp; cases hp
    | hangs r => rw [hr] at hp; cases hp
    | returns r =>
      rw [hr] at hp
      have hr' := run_level rfl hr
      have hp : (if combining = true then r.enableCombining cfg else .returns r) = .returns p := hp
      unfold enableCombining at hp
      split_ifs at hp <;> · cases hp; exact hr'
  have hexcess : ∀ d < p.destCount cfg, (p.dest d).NoExcess cfg p.knobs := by
    intro d hd
    refine ⟨hunsent.dest d hd, hunsent.lane_valid hd, ?_⟩
    have := (hunsent.blank d hd).drift
    unfold lane at this
    omega
  refine ⟨⟨hunsent.toSteady, hlevel, hexcess, fun d hd => ?_⟩, hagg', hcomb⟩
  exact (hexcess d hd).relieved_of_drained fun b _ => (hunsent.blank d hd).held b

/-- Every call of the session leaves the bound to a release. -/
def RelievesSession (cfg : Config α) (agg : Agg) (bufSize : ℕ) (pre : List (Op α ℚ))
    (combining : Bool) (ops : List (Op α ℚ)) : Prop :=
  ∀ p, opened cfg agg bufSize pre combining = .returns p → RelievesRun cfg ops p

/-- After every run of the client's calls no destination has more admitted items waiting than
    the release level or one less than a buffer, if no call lowers the level without a
    release, none leaves items counted that are no longer admitted, and, with combining on,
    none meets a reference about to be taken for current. -/
theorem session_relieved {cfg : Config α} {agg : Agg} (hagg : agg ≠ .WsP) {bufSize : ℕ}
    (hpos : 0 < bufSize) {combining : Bool} {pre ops : List (Op α ℚ)}
    (hpre : ∀ op ∈ pre, op.Idle ∧ op.InRange cfg agg combining)
    (hrange : ∀ op ∈ ops, op.InRange cfg agg combining)
    (hsafe : SafeSession cfg agg bufSize pre combining ops)
    (hrel : RelievesSession cfg agg bufSize pre combining ops) :
    (session cfg agg bufSize pre combining ops).Holds
      (fun p => ∀ d < p.destCount cfg, (p.dest d).Relieved p.knobs) fun _ => False := by
  have hopened := opened_unsent (F := ℚ) hagg hpos hpre
  unfold session
  unfold SafeSession at hsafe
  unfold RelievesSession at hrel
  cases ho : opened cfg agg bufSize pre combining with
  | aborts => trivial
  | hangs p => rw [ho] at hopened; exact hopened
  | returns p =>
    obtain ⟨hp, hagg', hcomb⟩ := opened_withinLevel hagg hpos hpre ho
    have hin : ∀ op ∈ ops, op.InRange cfg p.knobs.agg p.knobs.combining := by
      rw [hagg', hcomb]
      exact hrange
    have hsafe' : SafeRun cfg ops p := by
      by_cases hc : combining = true
      · exact hsafe hc p ho
      · exact safeRun_off ops p hp.steady (hcomb.trans (by simpa using hc)) hin
    exact (run_withinLevel ops p hp hin hsafe' (hrel p ho)).imp fun q hq => hq.relieved

/-- Two items below the threshold and one above, with combining on. -/
theorem session_relieved_three :
    (session oneNode .WPs 4 [] true
      [.changeThreshold 0 3 1, offer 1 1, offer 2 2, offer 3 7, .tflush false]).Holds
      (fun p => ∀ d < p.destCount oneNode, (p.dest d).Relieved p.knobs) fun _ => False := by
  have hrange : ∀ op ∈ ([.changeThreshold 0 3 1, offer 1 1, offer 2 2, offer 3 7,
      .tflush false] : List (Op KeyValue ℚ)), op.InRange oneNode .WPs true := by
    simp [offer, Op.InRange, oneNode]
  refine session_relieved (by decide) (by decide) (by simp) hrange ?_ fun p _ => ?_
  · exact safeSession_of_few (by decide) (by decide) (by simp) hrange fun d hd => by
      obtain rfl : d = 0 := Nat.lt_one_iff.mp hd
      decide
  · simp [RelievesRun, offer, Op.Relieves]

/-- With combining on a smaller buffer leaves the admitted items where they are. -/
theorem setBufferSize_leaves :
    ∃ p : HTram KeyValue ℚ, session oneNode .WPs 4 [] true
        [.changeThreshold 0 3 1, offer 1 1, offer 2 2, offer 3 3, .setBufferSize 2] = .returns p ∧
      0 < p.destCount oneNode ∧ ¬ (p.dest 0).Relieved p.knobs := by
  refine Outcome.of_check (P := fun p : HTram KeyValue ℚ =>
    0 < p.destCount oneNode ∧ ¬ (p.dest 0).Relieved p.knobs) ?_
  decide +kernel

end HTram

end Htram
