import Htram.Pe.FlushAgree
import Htram.Pe.Transparent

/-!
# What `flush_everything` leaves

`flush_everything` is `tflush`. Of the items above the threshold it ships only what fills
the last message up to half a buffer, and that only in an `ADD_FILLERS` build.

* `Dest.flushQueue_tops`, `Dest.flushHold_tops`: how many items above the threshold stay.
* `HTram.flushEverything_drains`: exactly when nothing stays.
-/

namespace Htram

open CombiningHold

variable {α F : Type*}

namespace Dest

/-- The number of items held up to the threshold. -/
def below (k : Knobs F) (d : Dest α) : ℕ :=
  ∑ b ∈ Finset.range (k.tramThreshold + 1).toNat, d.heldSizes k b

/-- The number of items held above the threshold. -/
def above (cfg : Config α) (k : Knobs F) (d : Dest α) : ℕ :=
  ∑ b ∈ Finset.range cfg.histoBucketCount, if (b : ℤ) ≤ k.tramThreshold then 0 else d.heldSizes k b

/-- The number of admitted items in the last message of a flush, 0 if no message is partly
    filled. With combining off what was in the buffer leaves in a message of its own. -/
def lastPart (k : Knobs F) (d : Dest α) : ℕ :=
  ((if k.combining then d.msgBuffer.next else 0) + d.below k) % k.bufSize

/-- Nothing is held above the threshold, or all of it fits into the last message of a flush
    as fillers. -/
def Drainable (cfg : Config α) (k : Knobs F) (d : Dest α) : Prop :=
  d.above cfg k = 0 ∨ (cfg.addFillers = true ∧ d.lastPart k ≠ 0 ∧
    d.lastPart k + d.above cfg k ≤ k.bufSize / 2)

/-- The number of items held. -/
def heldTotal (cfg : Config α) (k : Knobs F) (d : Dest α) : ℕ :=
  ∑ b ∈ Finset.range cfg.histoBucketCount, d.heldSizes k b

/-- Of `n` items above the threshold a flush takes `f` as fillers for a last message with
    `r` items, and leaves the others in `d`. -/
structure Tops (cfg : Config α) (k : Knobs F) (r n : ℕ) (d : Dest α) (f : ℕ) : Prop where
  count : d.heldTotal cfg k + f = n
  half : f ≠ 0 → cfg.addFillers = true ∧ r + f ≤ k.bufSize / 2
  filled : cfg.addFillers = true → r ≠ 0 → k.bufSize / 2 ≤ r + f ∨ d.heldTotal cfg k = 0
  idle : r = 0 → f = 0

theorem Tops.empty_iff {cfg : Config α} {k : Knobs F} {r n f : ℕ} {d : Dest α}
    (ht : Tops cfg k r n d f) :
    d.heldTotal cfg k = 0 ↔
      n = 0 ∨ (cfg.addFillers = true ∧ r ≠ 0 ∧ r + n ≤ k.bufSize / 2) := by
  obtain ⟨hcount, hhalf, hfilled, hidle⟩ := ht
  constructor
  · intro hzero
    by_cases hf : f = 0
    · left; omega
    · obtain ⟨hfill, hle⟩ := hhalf hf
      right
      refine ⟨hfill, fun hr => hf (hidle hr), by omega⟩
  · rintro (hn | ⟨hfill, hr, hle⟩)
    · omega
    · rcases hfilled hfill hr with h | h
      · omega
      · exact h

/-! ## Combining off -/

theorem heldSizes_off {k : Knobs F} (hk : k.combining = false) (d : Dest α) (b : ℕ) :
    d.heldSizes k b = (d.queues b).length := by
  unfold heldSizes
  rw [hk]
  exact HoldQueue.size_eq_length _

theorem heldTotal_eq (cfg : Config α) {k : Knobs F} (hk : k.combining = false) (d : Dest α) :
    d.heldTotal cfg k = d.heldCount cfg :=
  Finset.sum_congr rfl fun b _ => heldSizes_off hk d b

theorem below_eq {k : Knobs F} (hk : k.combining = false) (d : Dest α) :
    d.below k = (d.heldUpTo k.tramThreshold).length := by
  unfold heldUpTo
  rw [List.length_flatMap]
  exact Finset.sum_congr rfl fun b _ => heldSizes_off hk d b

/-- What is held once the admitted queues are empty. -/
theorem above_eq (cfg : Config α) {k : Knobs F} (hk : k.combining = false) {d d' : Dest α}
    (hqueues : ∀ c : ℕ, d'.queues c = if (c : ℤ) ≤ k.tramThreshold then [] else d.queues c) :
    d.above cfg k = d'.heldCount cfg := by
  refine Finset.sum_congr rfl fun c _ => ?_
  rw [hqueues c, heldSizes_off hk]
  split_ifs <;> rfl

theorem flushQueue_tops (cfg : Config α) {k : Knobs F} (hk : k.combining = false) {d : Dest α}
    (hd : d.Queued cfg k) :
    ∃ f, Tops cfg k ((d.msgBuffer.next + d.below k) % k.bufSize) (d.above cfg k)
      (d.flushQueue cfg k) f := by
  obtain ⟨xs, hpacks, hpayloads, -, hqueues⟩ := drain_packs cfg hk hd
  obtain ⟨hq, -, hlow⟩ := drain_path cfg hk ⟨false, true, true⟩ hd
  obtain ⟨fs, hends⟩ := shipPartial_ends cfg hk hq hlow
  have hlen : xs.length = d.below k := by
    rw [below_eq hk, ← hpayloads, List.length_map]
  have hnext := hpacks.next hd.toSized hq.toSized
  rw [hlen] at hnext
  have hq' : (d.flushQueue cfg k).Queued cfg k :=
    (flushQueue_path cfg hk (R := ⟨false, true, true⟩) rfl hd).1
  rw [← hnext]
  refine ⟨fs.length, ?_, fun h => hends.half (List.length_pos_iff.mp (by omega)),
    fun hfill hr => ?_, fun hr => by rw [(hends.idle hr).2]; rfl⟩
  · rw [heldTotal_eq cfg hk, above_eq cfg hk hqueues]
    exact hends.count
  · rw [heldTotal_eq cfg hk]
    exact (hends.filled hfill hr).imp_right fun h => hq'.toStored.heldCount_eq_zero.mpr h

theorem flushAll_tops (cfg : Config α) {k : Knobs F} (hk : k.combining = false) {d : Dest α}
    (hd : d.Queued cfg k) :
    ∃ f, Tops cfg k (d.lastPart k) (d.above cfg k) (d.flushAll cfg k false) f := by
  obtain ⟨-, -, hnext, hqueues⟩ := flushBuffer_store hd
  obtain ⟨hq, -⟩ := flushBuffer_path cfg k ⟨false, true, true⟩ hd
  have hsizes : (d.flushBuffer k).heldSizes k = d.heldSizes k := by
    funext b
    rw [heldSizes_off hk, heldSizes_off hk, hqueues]
  have htops := flushQueue_tops cfg hk hq
  unfold below above at htops
  rw [hsizes, hnext] at htops
  unfold lastPart below above
  rw [hk, flushAll_eq]
  exact htops

/-! ## Combining on -/

theorem order_length (a : KeyedHold UInt64 α) (n : ℕ) :
    (a.order 0 n).length = ∑ b ∈ Finset.range n, (a.queue b).length := by
  unfold KeyedHold.order
  rw [List.length_flatMap, ← List.range_eq_range']
  rfl

section CombiningOn

variable {cfg : Config α} {k : Knobs F} (hk : k.combining = true)
include hk

theorem Folded.sizes {d : Dest α} {a : KeyedHold UInt64 α} (ha : d.Folded cfg a) (b : ℕ) :
    d.heldSizes k b = (a.queue b).length := by
  rw [ha.heldSizes cfg hk, ← a.entries_length]
  unfold Lane.heldLen
  rw [ha.held hk]

theorem Folded.below_eq {d : Dest α} {a : KeyedHold UInt64 α} (ha : d.Folded cfg a) :
    d.below k = (a.order 0 (k.tramThreshold + 1).toNat).length := by
  rw [order_length]
  exact Finset.sum_congr rfl fun b _ => ha.sizes hk b

theorem Folded.heldTotal_eq {d : Dest α} {a : KeyedHold UInt64 α} (ha : d.Folded cfg a) :
    d.heldTotal cfg k = (a.order 0 cfg.histoBucketCount).length := by
  rw [order_length]
  exact Finset.sum_congr rfl fun b _ => ha.sizes hk b

/-- What is held once the admitted buckets are empty. -/
theorem Folded.above_eq {d : Dest α} {a : KeyedHold UInt64 α} (ha : d.Folded cfg a) :
    d.above cfg k =
      ((a.eraseAll (a.order 0 (k.tramThreshold + 1).toNat)).order 0
        cfg.histoBucketCount).length := by
  rw [order_length]
  refine Finset.sum_congr rfl fun b _ => ?_
  rw [ha.sizes hk]
  split_ifs with hb
  · rw [KeyedHold.entries_eq_nil _ |>.mp (a.entries_eraseAll_order (by omega))]
    rfl
  · rw [KeyedHold.eraseAll_queue_of_disjoint]
    intro key hkey hin
    obtain ⟨c, -, hc, hkc⟩ := a.mem_order.mp hkey
    have := a.bucket_unique hin hkc
    omega

theorem shipHeld_tops {d : Dest α} {a : KeyedHold UInt64 α} (ha : d.Folded cfg a)
    (hf : d.FlushSafe cfg k) :
    ∃ f, Tops cfg k d.msgBuffer.next (a.order 0 cfg.histoBucketCount).length
      (d.shipHeld cfg k) f := by
  unfold shipHeld
  split_ifs with hnext hfillers
  · refine ⟨0, ?_, fun h => absurd rfl h, fun _ h => absurd hnext h, fun _ => rfl⟩
    rw [ha.heldTotal_eq hk]
    rfl
  · dsimp only
    unfold fillersHold
    by_cases hroom : d.uncount.msgBuffer.next < k.bufSize / 2
    · rw [if_pos hroom]
      obtain ⟨ha', -, -, -, -⟩ := releaseInto_spec k (cfg.histoBucketCount - 1)
        (k.bufSize / 2 - d.uncount.msgBuffer.next : ℕ) true
        (ha.congr rfl : d.uncount.Folded cfg a) (hf.fillers hfillers _)
      rw [if_neg (by simp [ha'.stuck])]
      have hall : (((cfg.histoBucketCount : ℤ) - 1) + 1).toNat = cfg.histoBucketCount := by omega
      have hlim : ((k.bufSize / 2 - d.uncount.msgBuffer.next : ℕ) : ℤ).toNat =
          k.bufSize / 2 - d.msgBuffer.next := rfl
      rw [hall, hlim] at ha'
      have hrest := KeyedHold.order_eraseAll_prefix _ a
        (List.take_append_drop (k.bufSize / 2 - d.msgBuffer.next)
          (a.order 0 cfg.histoBucketCount)).symm
      have htotal : ((d.uncount.releaseInto cfg k (cfg.histoBucketCount - 1)
          (k.bufSize / 2 - d.uncount.msgBuffer.next : ℕ) true).shipBuffer k false).heldTotal cfg k =
            (a.order 0 cfg.histoBucketCount).length - (k.bufSize / 2 - d.msgBuffer.next) := by
        rw [← List.length_drop, ← hrest]
        exact ha'.heldTotal_eq hk
      have hroom' : d.msgBuffer.next < k.bufSize / 2 := hroom
      refine ⟨min (k.bufSize / 2 - d.msgBuffer.next) (a.order 0 cfg.histoBucketCount).length,
        ?_, fun _ => ⟨hfillers, by omega⟩, fun _ _ => ?_, fun h => absurd h hnext⟩
      · rw [htotal]; omega
      · rw [htotal]; omega
    · rw [if_neg hroom, if_neg (by simp [uncount, ha.stuck])]
      have hroom' : ¬ d.msgBuffer.next < k.bufSize / 2 := hroom
      refine ⟨0, ?_, fun h => absurd rfl h, fun _ _ => Or.inl (by omega), fun _ => rfl⟩
      exact ha.heldTotal_eq hk
  · dsimp only
    rw [if_neg (by simp [uncount, ha.stuck])]
    refine ⟨0, ?_, fun h => absurd rfl h, fun h => absurd h hfillers, fun _ => rfl⟩
    exact ha.heldTotal_eq hk

theorem flushHold_tops {d : Dest α} (hd : d.Folds cfg k) (hf : d.FlushSafe cfg k) :
    ∃ f, Tops cfg k (d.lastPart k) (d.above cfg k) (d.flushHold cfg k) f := by
  obtain ⟨a, ha⟩ := hd.folded
  obtain ⟨-, h2, h3, -, h5⟩ := flushHeldLoop_path cfg hk ⟨false, true, true⟩ (d.hold.count + 1) d a
    hd.toSized ha (hf.admitted ha) (Nat.lt_succ_of_le (order_length_le ha _))
  have hlast : d.lastPart k = (d.msgBuffer.next +
      (a.order 0 (k.tramThreshold + 1).toNat).length) % k.bufSize := by
    unfold lastPart
    rw [if_pos hk, ha.below_eq hk]
  rw [hlast, ha.above_eq hk, ← h5]
  unfold flushHold
  dsimp only
  rw [if_neg (by simp [h2.stuck])]
  exact shipHeld_tops hk h2 (hf.released h3 h2)

end CombiningOn

/-! ## Combining on or off -/

section Both

variable (cfg : Config α) {k : Knobs F} {d : Dest α}

theorem Settled.heldSizes_eq (hd : d.Settled cfg k) : d.heldSizes k = (d.lane cfg k).heldLen := by
  cases hk : k.combining with
  | true =>
    obtain ⟨-, a, ha⟩ := (settled_on hk).mp hd
    exact ha.heldSizes cfg hk
  | false => exact Dest.heldSizes_eq cfg hk d

theorem tflush_tops (hagg : k.agg ≠ .WsP) (hd : d.Settled cfg k)
    (hf : k.combining = true → d.FlushSafe cfg k) :
    ∃ f, Tops cfg k (d.lastPart k) (d.above cfg k) (d.tflush cfg k false) f := by
  unfold tflush
  cases hk : k.combining with
  | true =>
    unfold flushDest
    rw [if_pos rfl, if_pos hk]
    exact flushHold_tops hk ((settled_on hk).mp hd) (hf hk)
  | false =>
    rw [if_neg (by simp), if_neg hagg]
    exact flushAll_tops cfg hk ((settled_off hk).mp hd)

/-- Nothing is held in `d'` if nothing is counted. -/
theorem Settled.none_held (hd : d.Settled cfg k) (hb : (d.lane cfg k).Bounded cfg) :
    d.heldTotal cfg k = 0 ↔ ∀ b, d.heldSizes k b = 0 := by
  unfold heldTotal
  rw [Finset.sum_eq_zero_iff]
  constructor
  · intro h b
    by_cases hlt : b < cfg.histoBucketCount
    · exact h b (Finset.mem_range.mpr hlt)
    · rw [hd.heldSizes_eq]
      unfold Lane.heldLen
      rw [hb b (Nat.le_of_not_lt hlt)]
      rfl
  · intro h b _
    exact h b

end Both

/-- Nothing is left in `d'`, and what was held or buffered in `d` has been shipped. -/
structure Emptied (cfg : Config α) (k : Knobs F) (d d' : Dest α) : Prop where
  buffer : d'.msgBuffer.next = 0
  held : ∀ b, d'.heldSizes k b = 0
  ships : shipped d'.sent = shipped d.sent + (payloads d.msgBuffer.items + d.held cfg k)

/-- A flush empties a destination if and only if it is drainable. -/
theorem tflush_emptied (cfg : Config α) {k : Knobs F} {d : Dest α} (hagg : k.agg ≠ .WsP)
    (hd : d.Settled cfg k) (hf : k.combining = true → d.FlushSafe cfg k)
    (hv : (d.lane cfg k).Valid cfg) :
    Emptied cfg k d (d.tflush cfg k false) ↔ d.Drainable cfg k := by
  obtain ⟨hset, hflushed⟩ := tflush_settles cfg hagg (R := ⟨false, true, false⟩) rfl false hd hf
  obtain ⟨f, htops⟩ := tflush_tops cfg hagg hd hf
  have hv' := hset.path.valid hv
  have hnone := hset.settled.none_held cfg hv'.bounded
  unfold Drainable
  rw [← htops.empty_iff, hnone]
  constructor
  · exact Emptied.held
  · intro hheld
    have hbuffer : (d.tflush cfg k false).msgBuffer.items = [] := hflushed.buffer
    have hnext : (d.tflush cfg k false).msgBuffer.next = 0 := by
      rw [← hset.settled.sized.sound.written, hbuffer]
      rfl
    refine ⟨hnext, hheld, ?_⟩
    have hitems := hset.path.items (fun h => by cases h) hv
    have hretired := hset.path.retired rfl hv
    unfold Lane.items at hitems
    rw [hretired, List.map_nil, Multiset.coe_nil, add_zero] at hitems
    have hpresent := add_right_cancel hitems
    unfold Lane.present at hpresent
    rw [← hset.settled.held_eq, ← hd.held_eq] at hpresent
    have hnoheld : (d.tflush cfg k false).held cfg k = 0 := by
      rw [hset.settled.held_eq]
      refine Finset.sum_eq_zero fun b _ => ?_
      have hlen := hheld b
      rw [hset.settled.heldSizes_eq] at hlen
      rw [List.length_eq_zero_iff.mp hlen]
      rfl
    have hnobuffer : payloads ((d.tflush cfg k false).lane cfg k).buffer = 0 := by
      rw [hflushed.buffer]
      rfl
    rw [hnoheld, hnobuffer, zero_add, zero_add] at hpresent
    calc shipped (d.tflush cfg k false).sent
        = d.held cfg k + payloads d.msgBuffer.items + shipped d.sent := hpresent
      _ = shipped d.sent + (payloads d.msgBuffer.items + d.held cfg k) := by abel

end Dest

namespace HTram

/-- `flush_everything` returns with nothing held or buffered, and everything that was is
    shipped. -/
def DrainsEverything (cfg : Config α) (p : HTram α F) : Prop :=
  ∃ q, p.flushEverything cfg = .returns q ∧
    ∀ d < p.destCount cfg, Dest.Emptied cfg p.knobs (p.dest d) (q.dest d)

variable [Inhabited α] [ReleaseArith F]

/-- After a run that meets no reference about to be taken for current, in the flush either,
    `flush_everything` drains the PE if and only if for each destination nothing is held
    above the threshold, or all of it fits into the last message as fillers. -/
theorem flushEverything_drains {cfg : Config α} {agg : Agg} (hagg : agg ≠ .WsP) {bufSize : ℕ}
    (hpos : 0 < bufSize) {combining : Bool} {pre ops : List (Op α F)}
    (hpre : ∀ op ∈ pre, op.Idle ∧ op.InRange cfg agg combining)
    (hrange : ∀ op ∈ ops, op.InRange cfg agg combining)
    (hsafe : SafeSession cfg agg bufSize pre combining ops) :
    (session cfg agg bufSize pre combining ops).Holds
      (fun p => p.StampsSafe cfg (.tflush false) →
        (DrainsEverything cfg p ↔ ∀ d < p.destCount cfg, (p.dest d).Drainable cfg p.knobs))
      fun _ => False := by
  have hran := session_ran hagg hpos hpre hrange (fun op _ => op.rules_le combining) hsafe
  refine hran.imp fun p hp hstamps => ?_
  have hvalid : ∀ d < p.destCount cfg, (p.lane cfg d).Valid cfg := by
    intro d hd
    obtain ⟨L, -, hL, -, hpath⟩ := hp.path d (hp.destCount ▸ hd)
    exact hpath.valid hL
  have hflushSafe : ∀ d < p.destCount cfg, p.knobs.combining = true →
      (p.dest d).FlushSafe cfg p.knobs := fun d hd hk => hstamps hk d hd
  have hflush : p.flushEverything cfg =
      .returns (p.mapDest cfg p.knobs (Dest.tflush cfg p.knobs false)) := by
    refine forDest_eq fun d hd => ?_
    exact (Dest.tflush_settles cfg hp.steady.agg (R := ⟨false, true, false⟩) rfl false
      (hp.steady.dest d hd) (hflushSafe d hd)).1.settled.stuck
  have hiff := fun d hd => Dest.tflush_emptied cfg hp.steady.agg (hp.steady.dest d hd)
    (hflushSafe d hd) (hvalid d hd)
  unfold DrainsEverything
  rw [hflush]
  constructor
  · rintro ⟨q, hq, hempty⟩ d hd
    cases hq
    have h := hempty d hd
    rw [mapDest_dest _ _ hd] at h
    exact (hiff d hd).mp h
  · intro h
    refine ⟨_, rfl, fun d hd => ?_⟩
    rw [mapDest_dest _ _ hd]
    exact (hiff d hd).mpr (h d hd)

/-- One item held below the threshold and one above. -/
theorem flushEverything_drains_two :
    (session oneNode .WPs 4 [] true
      [.changeThreshold 0 3 1, offer 1 7, (offer 2 2 : Op KeyValue ℚ)]).Holds
      (fun p => p.StampsSafe oneNode (.tflush false) →
        (DrainsEverything oneNode p ↔
          ∀ d < p.destCount oneNode, (p.dest d).Drainable oneNode p.knobs))
      fun _ => False := by
  have hrange : ∀ op ∈ ([.changeThreshold 0 3 1, offer 1 7, offer 2 2] : List (Op KeyValue ℚ)),
      op.InRange oneNode .WPs true := by
    simp [offer, Op.InRange, oneNode]
  refine flushEverything_drains (by decide) (by decide) (by simp) hrange ?_
  exact safeSession_of_few (by decide) (by decide) (by simp) hrange fun d hd => by
    obtain rfl : d = 0 := Nat.lt_one_iff.mp hd
    decide

/-- An item above the threshold stays. -/
theorem flushEverything_leaves :
    ∃ p : HTram KeyValue ℚ, session oneNode .WPs 4 [] false [offer 1 5] = .returns p ∧
      0 < p.destCount oneNode ∧ ¬ DrainsEverything oneNode p := by
  obtain ⟨p, hp, hzero, hleft⟩ := Outcome.of_check
    (P := fun p : HTram KeyValue ℚ => 0 < p.destCount oneNode ∧
      (p.flushEverything oneNode).check (fun q => (q.dest 0).heldSizes p.knobs 5 = 1) = true)
    (o := session oneNode .WPs 4 [] false [offer 1 5]) (by decide +kernel)
  refine ⟨p, hp, hzero, ?_⟩
  rintro ⟨q, hq, hempty⟩
  obtain ⟨q', hq', hone⟩ := Outcome.of_check hleft
  rw [hq] at hq'
  cases hq'
  have := (hempty 0 hzero).held 5
  omega

end HTram

end Htram
