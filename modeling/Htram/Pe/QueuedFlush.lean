import Htram.Pe.Queued

/-!
# Combining off: the flushes

`tflush`, `flushDest` and the fillers of both as paths of the lane. A flush leaves
nothing in the buffer and nothing held up to the threshold.

* `fillersFlush_eq`: the filler loops of `tflush` and of `flushDest` do the same.
* `flushQueue_path`, `flushAll_path`: the two flushes.
-/

namespace Htram

variable {α F : Type*}

namespace Dest

/-! ## Draining -/

/-- Draining a queue empties it and leaves the others and the bits alone. -/
theorem drainBucket_queues (cfg : Config α) (k : Knobs F) (i : ℕ) :
    ∀ (fuel : ℕ) (d : Dest α), (d.tramHold i).size ≤ fuel →
      (∀ c ≠ i, (drainBucket cfg k i fuel d).tramHold c = d.tramHold c) ∧
        ((drainBucket cfg k i fuel d).tramHold i).toList = [] ∧
        (drainBucket cfg k i fuel d).holdBits = d.holdBits ∧
        (drainBucket cfg k i fuel d).hold = d.hold := by
  intro fuel
  induction fuel with
  | zero =>
    intro d hsize
    rw [HoldQueue.size_eq_length] at hsize
    exact ⟨fun _ _ => rfl, List.length_eq_zero_iff.mp (Nat.le_zero.mp hsize), rfl, rfl⟩
  | succ fuel ih =>
    intro d hsize
    rw [drainBucket]
    cases hfront : (d.tramHold i).front with
    | none =>
      rw [HoldQueue.front_eq_head?, List.head?_eq_none_iff] at hfront
      exact ⟨fun _ _ => rfl, hfront, rfl, rfl⟩
    | some item =>
      dsimp only
      have hrest : ∀ x : Item α, ∀ d' : Dest α,
          d' = (if ((d.holdPop i).put x).msgBuffer.next = k.bufSize then
            ((d.holdPop i).put x).uncount.shipBuffer k false else (d.holdPop i).put x) →
          d'.tramHold = Function.update d.tramHold i (d.tramHold i).pop ∧
            d'.holdBits = d.holdBits ∧ d'.hold = d.hold := by
        rintro x d' rfl
        split_ifs <;> exact ⟨rfl, rfl, rfl⟩
      obtain ⟨hq, hbits, hhold⟩ := hrest _ _ rfl
      generalize (if (((d.holdPop i).put ⟨cfg.getDestProc item, item,
        d.fill k (some i) false⟩).msgBuffer.next = k.bufSize) then _ else _ : Dest α) = d' at *
      have hlen : (d'.tramHold i).size ≤ fuel := by
        rw [hq, Function.update_self, HoldQueue.size_eq_length, HoldQueue.toList_pop,
          List.length_tail]
        rw [HoldQueue.size_eq_length] at hsize
        omega
      obtain ⟨h1, h2, h3, h4⟩ := ih d' hlen
      refine ⟨fun c hc => ?_, h2, h3.trans hbits, h4.trans hhold⟩
      rw [h1 c hc, hq, Function.update_of_ne hc]

/-- The bit of a bucket is cleared before the bucket is drained. -/
theorem Stored.drainBucket {cfg : Config α} {k : Knobs F} {d : Dest α} (hd : d.Stored cfg) (i : ℕ) :
    (drainBucket cfg k i (d.tramHold i).size (d.holdEmptied i)).Stored cfg := by
  obtain ⟨hother, hi, hbits, hhold⟩ :=
    drainBucket_queues cfg k i (d.tramHold i).size (d.holdEmptied i) le_rfl
  generalize Dest.drainBucket cfg k i (d.tramHold i).size (d.holdEmptied i) = d' at *
  have hother : ∀ c ≠ i, d'.tramHold c = d.tramHold c := hother
  refine ⟨fun c => ?_, fun c hc => ?_, by rw [hhold]; exact hd.stuck⟩
  · rw [hbits]
    show WordBits.get (WordBits.clear d.holdBits i) c = true ↔ _
    rw [WordBits.get_clear]
    by_cases hci : c = i
    · subst hci
      simp [hi]
    · rw [hother c hci]
      simp [hci, hd.bits c]
  · by_cases hci : c = i
    · subst hci
      exact hi
    · rw [hother c hci]
      exact hd.bounded c hc

theorem drainBucket_path (cfg : Config α) {k : Knobs F} (hk : k.combining = false) (R : Rules)
    {i : ℕ} (hi : (i : ℤ) ≤ k.tramThreshold) :
    ∀ (fuel : ℕ) (d : Dest α), d.Sized k.bufSize →
      Path cfg R [] (d.lane cfg k) ((drainBucket cfg k i fuel d).lane cfg k) := by
  intro fuel
  induction fuel with
  | zero => intro d _; exact .nil _
  | succ fuel ih =>
    intro d hd
    rw [drainBucket]
    cases hfront : (d.tramHold i).front with
    | none => exact .nil _
    | some item =>
      dsimp only
      have hsized : (d.holdPop i).Sized k.bufSize := hd.congr rfl rfl
      have htake := take_move cfg hk R hi hfront (d.holdPop i) rfl rfl
      have hput := putShip_path cfg R hsized _ false htake
      exact hput.andThen (ih _ (hsized.putShip _ false))

/-- The body of the drain on bucket `i` empties it. -/
theorem drainBucket_emptied (cfg : Config α) {k : Knobs F} (hk : k.combining = false) (R : Rules)
    {i : ℕ} (hi : (i : ℤ) ≤ k.tramThreshold) {d : Dest α} (hd : d.Queued cfg k) :
    (drainBucket cfg k i (d.tramHold i).size (d.holdEmptied i)).Queued cfg k ∧
      Path cfg R [] (d.lane cfg k)
        ((drainBucket cfg k i (d.tramHold i).size (d.holdEmptied i)).lane cfg k) ∧
      ((drainBucket cfg k i (d.tramHold i).size (d.holdEmptied i)).tramHold i).toList = [] ∧
      ∀ c ≠ i, (drainBucket cfg k i (d.tramHold i).size (d.holdEmptied i)).tramHold c =
        d.tramHold c := by
  have hemptied : (d.holdEmptied i).Sized k.bufSize := hd.toSized.congr rfl rfl
  obtain ⟨hother, hempty, -⟩ :=
    drainBucket_queues cfg k i (d.tramHold i).size (d.holdEmptied i) le_rfl
  exact ⟨⟨drainBucket_sized cfg k i _ _ hemptied, hd.toStored.drainBucket i⟩,
    drainBucket_path cfg hk R hi _ _ hemptied, hempty, hother⟩

theorem drain_path (cfg : Config α) {k : Knobs F} (hk : k.combining = false) (R : Rules)
    {d : Dest α} (hd : d.Queued cfg k) :
    (d.drain cfg k).Queued cfg k ∧
      Path cfg R [] (d.lane cfg k) ((d.drain cfg k).lane cfg k) ∧
      ((d.drain cfg k).lane cfg k).Drained := by
  have key : (d.drain cfg k).Queued cfg k ∧
      Path cfg R [] (d.lane cfg k) ((d.drain cfg k).lane cfg k) ∧
      ∀ c : ℕ, (c : ℤ) ≤ k.tramThreshold → ((d.drain cfg k).tramHold c).toList = [] := by
    refine WordBits.forNext_rule (n := cfg.histoBucketCount)
      (P := fun start (s : Dest α) => s.Queued cfg k ∧
        Path cfg R [] (d.lane cfg k) (s.lane cfg k) ∧
        ∀ c : ℕ, c < start → (c : ℤ) ≤ k.tramThreshold → (s.tramHold c).toList = [])
      (Q := fun s : Dest α => s.Queued cfg k ∧ Path cfg R [] (d.lane cfg k) (s.lane cfg k) ∧
        ∀ c : ℕ, (c : ℤ) ≤ k.tramThreshold → (s.tramHold c).toList = [])
      ?_ ?_ ?_ ?_ ?_ cfg.histoBucketCount 0 d ⟨hd, .nil _, by omega⟩ (by omega)
    · intro start s i hs hnext
      obtain ⟨h1, h2, -⟩ := hs.1.toStored.holdNext_some hnext
      exact ⟨h1, h2⟩
    · rintro start s ⟨hq, hp, hlow⟩ hnone
      refine ⟨hq, hp, fun c hc => ?_⟩
      by_cases hcs : c < start
      · exact hlow c hcs hc
      · exact hq.toStored.holdNext_none hnone c (by omega)
    · rintro start s i ⟨hq, hp, hlow⟩ hnext hcond
      obtain ⟨-, -, -, h4⟩ := hq.toStored.holdNext_some hnext
      have hi := of_decide_eq_false hcond
      refine ⟨hq, hp, fun c hc => ?_⟩
      by_cases hcs : c < start
      · exact hlow c hcs hc
      · exact h4 c (by omega) (by omega)
    · rintro start s i ⟨hq, hp, hlow⟩ hnext hcond -
      obtain ⟨-, -, -, h4⟩ := hq.toStored.holdNext_some hnext
      obtain ⟨h1, h2, h3, h4'⟩ := drainBucket_emptied cfg hk R (of_decide_eq_true hcond) hq
      refine ⟨h1, hp.andThen h2, fun c hc hct => ?_⟩
      by_cases hci : c = i
      · subst hci; exact h3
      · rw [h4' c hci]
        by_cases hcs : c < start
        · exact hlow c hcs hct
        · exact h4 c (by omega) (by omega)
    · intro _ _ _ _ _ _ h; cases h
  refine ⟨key.1, key.2.1, fun b hb => ?_⟩
  simp [lane, hk, key.2.2 b hb]

/-! ## Fillers -/

/-- `fs` are the fillers put into the buffer of `d₀` so far. -/
structure Filling (cfg : Config α) (k : Knobs F) (d₀ d : Dest α) (fs : List (Item α)) : Prop where
  queued : d.Queued cfg k
  fillers : Fillers cfg k.tramThreshold (d₀.lane cfg k).held fs (d.lane cfg k).held
  items : d.msgBuffer.items = d₀.msgBuffer.items ++ fs
  half : fs ≠ [] → d.msgBuffer.next ≤ k.bufSize / 2
  rest : d = { d₀ with
    tramHold := d.tramHold, holdBits := d.holdBits, msgBuffer := d.msgBuffer }

theorem Filling.take {cfg : Config α} {k : Knobs F} (hk : k.combining = false) {d₀ d : Dest α}
    {fs : List (Item α)} (hf : Filling cfg k d₀ d fs) {i : ℕ} (hi : k.tramThreshold < i)
    (hlow : ∀ c < i, (d.tramHold c).toList = []) {item : α}
    (hfront : (d.tramHold i).front = some item) (hroom : d.msgBuffer.next < k.bufSize / 2) :
    ∃ fs', fs' ≠ [] ∧ Filling cfg k d₀ (takeFiller cfg k i item d) fs' := by
  obtain ⟨hq, hfill, hitems, hhalf, hrest⟩ := hf
  obtain ⟨rest, hlist⟩ : ∃ rest, (d.tramHold i).toList = item :: rest := by
    rw [HoldQueue.front_eq_head?] at hfront
    exact ⟨_, List.head?_eq_some_iff.mp hfront |>.choose_spec⟩
  have hheld : ∀ c,
      (d.lane cfg k).held c = (d.tramHold c).toList.map fun x => (cfg.ops.key x, x) := by
    intro c; simp [lane, hk]
  have hcons : (d.lane cfg k).held i =
      (cfg.ops.key item, item) :: rest.map fun x => (cfg.ops.key x, x) := by
    rw [hheld, hlist]; rfl
  have hsnoc := Fillers.snoc hfill hi (fun c hc => by rw [hheld, hlow c hc]; rfl) hcons
  refine ⟨fs ++ [⟨cfg.getDestProc item, item, d.fill k (some i) true⟩], by simp,
    ⟨⟨takeFiller_sized cfg i item hq.toSized hroom,
      (hq.toStored.holdTake i).congr rfl rfl rfl⟩, ?_, ?_, fun _ => ?_, ?_⟩⟩
  · have hsizes : (fun c => ((d.lane cfg k).held c).length) = d.heldSizes k :=
      (heldSizes_eq cfg hk d).symm
    rw [hsizes] at hsnoc
    have : ((takeFiller cfg k i item d).lane cfg k).held =
        Function.update (d.lane cfg k).held i (rest.map fun x => (cfg.ops.key x, x)) := by
      funext c
      rw [takeFiller, holdTake_eq]
      by_cases hc : c = i
      · subst hc; simp [lane, put, hk, hlist]
      · simp [lane, put, hk, Function.update_of_ne hc]
    rw [this]
    exact hsnoc
  · rw [takeFiller, holdTake_eq, ← List.append_assoc, ← hitems]
    rfl
  · rw [takeFiller, holdTake_eq]
    show d.msgBuffer.next + 1 ≤ _
    omega
  · rw [takeFiller, holdTake_eq, hrest]
    rfl

theorem fillFromDest_fills {cfg : Config α} {k : Knobs F} (hk : k.combining = false)
    {d₀ : Dest α} {i : ℕ} (hi : k.tramThreshold < i) :
    ∀ (fuel : ℕ) (d : Dest α) (fs : List (Item α)), Filling cfg k d₀ d fs →
      (∀ c < i, (d.tramHold c).toList = []) → (d.tramHold i).size ≤ fuel →
      ∃ fs', Filling cfg k d₀ (fillFromDest cfg k i fuel d) fs' ∧
        (k.bufSize / 2 ≤ (fillFromDest cfg k i fuel d).msgBuffer.next ∨
          ∀ c < i + 1, ((fillFromDest cfg k i fuel d).tramHold c).toList = []) := by
  intro fuel
  induction fuel with
  | zero =>
    intro d fs hf hlow hsize
    refine ⟨fs, hf, Or.inr fun c hc => ?_⟩
    rcases Nat.lt_succ_iff_lt_or_eq.mp hc with hc | rfl
    · exact hlow c hc
    · rw [HoldQueue.size_eq_length] at hsize
      exact List.length_eq_zero_iff.mp (Nat.le_zero.mp hsize)
  | succ fuel ih =>
    intro d fs hf hlow hsize
    rw [fillFromDest]
    cases hfront : (d.tramHold i).front with
    | none =>
      refine ⟨fs, hf, Or.inr fun c hc => ?_⟩
      rcases Nat.lt_succ_iff_lt_or_eq.mp hc with hc | rfl
      · exact hlow c hc
      · rwa [HoldQueue.front_eq_head?, List.head?_eq_none_iff] at hfront
    | some item =>
      dsimp only
      split_ifs with hroom
      · obtain ⟨fs', -, hf'⟩ := hf.take hk hi hlow hfront hroom
        refine ih _ fs' hf' (fun c hc => ?_) ?_
        · rw [takeFiller, holdTake_eq]
          show (Function.update d.tramHold i _ c).toList = []
          rw [Function.update_of_ne (by omega), hlow c hc]
        · rw [takeFiller, holdTake_eq]
          show (Function.update d.tramHold i _ i).size ≤ fuel
          rw [Function.update_self, HoldQueue.size_eq_length, HoldQueue.toList_pop,
            List.length_tail]
          rw [HoldQueue.size_eq_length] at hsize
          omega
      · exact ⟨fs, hf, Or.inl (by omega)⟩

theorem fillersDest_fills {cfg : Config α} {k : Knobs F} (hk : k.combining = false)
    {d₀ d : Dest α} (hd : Filling cfg k d₀ d []) (hlow : (d.lane cfg k).Drained) :
    ∃ fs, Filling cfg k d₀ (fillersDest cfg k d) fs ∧
      (k.bufSize / 2 ≤ (fillersDest cfg k d).msgBuffer.next ∨
        ∀ c, ((fillersDest cfg k d).tramHold c).toList = []) := by
  refine WordBits.forNext_rule (n := cfg.histoBucketCount)
    (P := fun start (s : Dest α) => k.tramThreshold < start ∧ ∃ fs, Filling cfg k d₀ s fs ∧
      (k.bufSize / 2 ≤ s.msgBuffer.next ∨ ∀ c < start, (s.tramHold c).toList = []))
    (Q := fun s : Dest α => ∃ fs, Filling cfg k d₀ s fs ∧
      (k.bufSize / 2 ≤ s.msgBuffer.next ∨ ∀ c, (s.tramHold c).toList = []))
    ?_ ?_ ?_ ?_ ?_ cfg.histoBucketCount (k.tramThreshold + 1).toNat d ?_ (by omega)
  · rintro start s i ⟨-, fs, hf, -⟩ hnext
    obtain ⟨h1, h2, -⟩ := hf.queued.toStored.holdNext_some hnext
    exact ⟨h1, h2⟩
  · rintro start s ⟨-, fs, hf, hor⟩ hnone
    refine ⟨fs, hf, hor.imp_right fun h c => ?_⟩
    by_cases hcs : c < start
    · exact h c hcs
    · exact hf.queued.toStored.holdNext_none hnone c (by omega)
  · rintro start s i ⟨-, fs, hf, -⟩ hnext hcond
    obtain ⟨-, h2, -⟩ := hf.queued.toStored.holdNext_some hnext
    refine ⟨fs, hf, Or.inl ?_⟩
    rw [decide_eq_true h2, Bool.true_and, decide_eq_false_iff_not] at hcond
    omega
  · rintro start s i ⟨hstart, fs, hf, hor⟩ hnext hcond -
    obtain ⟨h1, -, -, h4⟩ := hf.queued.toStored.holdNext_some hnext
    have hroom := of_decide_eq_true ((Bool.and_eq_true _ _).mp hcond).2
    have hlow' : ∀ c < i, (s.tramHold c).toList = [] := by
      intro c hc
      rcases hor with h | h
      · omega
      · by_cases hcs : c < start
        · exact h c hcs
        · exact h4 c (by omega) hc
    obtain ⟨fs', hf', hor'⟩ := fillFromDest_fills hk (show k.tramThreshold < i by omega)
      (s.tramHold i).size s fs hf hlow' le_rfl
    exact ⟨by push_cast; omega, fs', hf', hor'⟩
  · intro _ _ _ _ _ _ h; cases h
  · refine ⟨by omega, [], hd, Or.inr fun c hc => ?_⟩
    have := hlow c (lt_toNat_iff.mp hc)
    simpa [lane, hk] using this

/-- The inner filler loops of `tflush` and `flushDest` do the same where they run. -/
theorem fillFromFlush_eq (cfg : Config α) (k : Knobs F) (i : ℕ) :
    ∀ (fuel : ℕ) (d : Dest α), d.msgBuffer.next < k.bufSize / 2 →
      fillFromFlush cfg k i fuel d = fillFromDest cfg k i fuel d := by
  intro fuel
  induction fuel with
  | zero => intro d _; rfl
  | succ fuel ih =>
    intro d hroom
    rw [fillFromFlush, fillFromDest]
    cases (d.tramHold i).front with
    | none => rfl
    | some item =>
      dsimp only
      rw [if_pos hroom]
      split_ifs with hfull
      · cases fuel with
        | zero => rfl
        | succ fuel =>
          rw [fillFromDest]
          cases ((takeFiller cfg k i item d).tramHold i).front with
          | none => rfl
          | some item' => dsimp only; rw [if_neg (by omega)]
      · exact ih _ (by omega)

/-- The filler loops of `tflush` and `flushDest` do the same. -/
theorem fillersFlush_eq (cfg : Config α) (k : Knobs F) (d : Dest α) :
    fillersFlush cfg k d = fillersDest cfg k d := by
  unfold fillersFlush fillersDest
  have hbody : ∀ i (s : Dest α), decide (s.msgBuffer.next < k.bufSize / 2) = true →
      fillFromFlush cfg k i (s.tramHold i).size s = fillFromDest cfg k i (s.tramHold i).size s :=
    fun i s hok => fillFromFlush_eq cfg k i _ s (of_decide_eq_true hok)
  rw [WordBits.forNext_until hbody]
  simp only [decide_eq_true_eq, ← decide_not, not_lt]

/-! ## The flushes -/

/-- The end of a flush: fillers, if any, and the message. -/
theorem shipPartial_path (cfg : Config α) {k : Knobs F} (hk : k.combining = false) {R : Rules}
    (hR : R.flush = true) {d : Dest α} (hd : d.Queued cfg k) (hlow : (d.lane cfg k).Drained) :
    (d.shipPartial cfg k (fillersDest cfg k)).Queued cfg k ∧
      Path cfg R [] (d.lane cfg k) ((d.shipPartial cfg k (fillersDest cfg k)).lane cfg k) ∧
      ((d.shipPartial cfg k (fillersDest cfg k)).lane cfg k).Flushed := by
  have hsized := shipPartial_sized cfg (fun d hd => fillersDest_sized cfg hd) hd.toSized
  unfold shipPartial at hsized ⊢
  split_ifs at hsized ⊢ with hnext hfillers
  · refine ⟨hd, .nil _, ?_, hlow⟩
    exact List.length_eq_zero_iff.mp (hd.sound.written.trans hnext)
  · have hun : d.uncount.Queued cfg k :=
      ⟨hd.toSized.congr rfl rfl, hd.toStored.congr rfl rfl rfl⟩
    have hnil : Filling cfg k d.uncount d.uncount [] :=
      ⟨hun, .nil _, (List.append_nil _).symm, fun h => absurd rfl h, rfl⟩
    obtain ⟨fs, hf, -⟩ := fillersDest_fills hk hnil hlow
    obtain ⟨hq, hfill, hitems, hhalf, hrest⟩ := hf
    dsimp only at hsized ⊢
    generalize fillersDest cfg k d.uncount = d' at *
    refine ⟨⟨hsized, hq.toStored.congr rfl rfl rfl⟩, ?_, rfl, fun b hb => ?_⟩
    · exact shipFilled_path cfg k hR hd.sound hq.sound hnext hfill hitems hhalf
        (by rw [hrest]; rfl) (by rw [hrest]; rfl) (by rw [hrest]; rfl) (by rw [hrest]; rfl)
        (by rw [hrest]; rfl)
    · exact (hfill.admitted b hb).trans (hlow b hb)
  · refine ⟨⟨hsized, hd.toStored.congr rfl rfl rfl⟩, ?_, rfl, hlow⟩
    exact ship_path cfg k R hd.toFits hnext false

theorem flushQueue_path (cfg : Config α) {k : Knobs F} (hk : k.combining = false) {R : Rules}
    (hR : R.flush = true) {d : Dest α} (hd : d.Queued cfg k) :
    (d.flushQueue cfg k).Queued cfg k ∧
      Path cfg R [] (d.lane cfg k) ((d.flushQueue cfg k).lane cfg k) ∧
      ((d.flushQueue cfg k).lane cfg k).Flushed := by
  obtain ⟨hq, hp, hlow⟩ := drain_path cfg hk R hd
  obtain ⟨hq', hp', hflushed⟩ := shipPartial_path cfg hk hR hq hlow
  exact ⟨hq', hp.andThen hp', hflushed⟩

/-- The partial buffer is not counted in `tot_send_count`. -/
theorem flushBuffer_path (cfg : Config α) (k : Knobs F) (R : Rules) {d : Dest α}
    (hd : d.Queued cfg k) :
    (d.flushBuffer k).Queued cfg k ∧
      Path cfg R [] (d.lane cfg k) ((d.flushBuffer k).lane cfg k) := by
  have hsized := flushBuffer_sized hd.toSized
  unfold flushBuffer at hsized ⊢
  split_ifs at hsized ⊢ with hnext
  · exact ⟨hd, .nil _⟩
  · refine ⟨⟨hsized, hd.toStored.congr rfl rfl rfl⟩, ?_⟩
    have hlen : (d.lane cfg k).buffer.length = d.msgBuffer.next := hd.sound.written
    have hmove : Move cfg R [] (d.lane cfg k) _ := Move.ship _
      ⟨if k.agg = .WW then .receiveOnPE else .receive, d.msgBuffer, k.bufSize⟩ false false
      (by intro h; rw [h] at hlen; exact hnext hlen.symm) rfl rfl rfl
    rw [hlen] at hmove
    exact Path.single hmove

theorem flushAll_path (cfg : Config α) {k : Knobs F} (hk : k.combining = false) {R : Rules}
    (hR : R.flush = true) (idleflush : Bool) {d : Dest α} (hd : d.Queued cfg k) :
    (d.flushAll cfg k idleflush).Queued cfg k ∧
      Path cfg R [] (d.lane cfg k) ((d.flushAll cfg k idleflush).lane cfg k) ∧
      ((d.flushAll cfg k idleflush).lane cfg k).Flushed := by
  unfold flushAll
  rw [show fillersFlush cfg k = fillersDest cfg k from funext (fillersFlush_eq cfg k)]
  cases idleflush with
  | true => exact flushQueue_path cfg hk hR hd
  | false =>
    obtain ⟨hq, hp⟩ := flushBuffer_path cfg k R hd
    obtain ⟨hq', hp', hflushed⟩ := flushQueue_path cfg hk hR hq
    exact ⟨hq', hp.andThen hp', hflushed⟩

end Dest

end Htram
