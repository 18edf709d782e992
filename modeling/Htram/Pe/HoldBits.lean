import Htram.Pe.Acts
import Mathlib.Order.Bounds.Basic

/-!
# The hold bitmap

With combining off `hold_bits` has the bit of each bucket that holds something and no
other (`htram_group.h` lines 338–368), in every state of a run and whatever the settings.

* `Dest.Stored.sendItem` … `Dest.Stored.flushIfAny`: each operation on a destination keeps
  the bits exact.
* `HTram.run_holdBits`: so does every run, and then `holdNext` finds the least bucket that
  holds something without reading a word outside the destination's row.
-/

namespace Htram

variable {α F : Type*}

namespace Dest

/-- `holdNext` with each word read inside the destination's row, and `none` if one is not. -/
def holdNextRead (cfg : Config α) (d : Dest α) (start : ℕ) : Option (Option ℕ) :=
  if start ≥ cfg.histoBucketCount then some none
  else WordBits.nextRead d.holdBits cfg.holdWords start

theorem holdNextRead_eq (cfg : Config α) (d : Dest α) (start : ℕ) :
    d.holdNextRead cfg start = some (d.holdNext cfg start) := by
  unfold holdNextRead holdNext
  split_ifs with h
  · rfl
  · exact WordBits.nextRead_eq d.holdBits (by unfold Config.holdWords; omega)

/-! ## Releases and sends -/

variable {cfg : Config α} {k : Knobs F} {d : Dest α}

theorem Stored.insertBucketsByDest [ReleaseArith F] (hd : d.Stored cfg) (high : ℤ) :
    (d.insertBucketsByDest cfg k high).Stored cfg :=
  WordBits.forNext_inv (I := fun s : Dest α => s.Stored cfg)
    (fun i s hs => insertBucket_stored i _ s hs) _ _ d hd

theorem Stored.releaseOver [ReleaseArith F] (hd : d.Stored cfg) :
    (d.releaseOver cfg k).Stored cfg := by
  unfold Dest.releaseOver
  split_ifs
  · exact hd.insertBucketsByDest _
  · exact hd

theorem Stored.releaseAbove [ReleaseArith F] (hk : k.combining = false) (hd : d.Stored cfg) :
    (d.releaseAbove cfg k).Stored cfg := by
  unfold Dest.releaseAbove
  rw [hk]
  simp only [Bool.false_eq_true, if_false]
  split_ifs
  · exact hd.insertBucketsByDest _
  · exact hd

theorem Stored.enqueue (hd : d.Stored cfg) (x : α) {b : ℕ} (hb : b < cfg.histoBucketCount)
    (pe : ℕ) : (d.enqueue k x b pe).Stored cfg := by
  have hcount : Stored cfg { d with updatesInTram := d.updatesInTram + 1 } := hd.congr rfl rfl rfl
  unfold Dest.enqueue
  dsimp only
  split_ifs
  · exact hd.holdPush hb x
  · exact hcount.holdPush hb x
  · exact hcount.putShip _ true

theorem Stored.sendItem [ReleaseArith F] [Inhabited α] (hk : k.combining = false)
    (hd : d.Stored cfg) (x : α) {b : ℕ} (hb : b < cfg.histoBucketCount) (pe : ℕ) :
    (d.sendItem cfg k x b pe).Stored cfg := by
  unfold Dest.sendItem
  rw [hk]
  exact (hd.enqueue x hb pe).releaseOver

theorem Stored.insertValue (hd : d.Stored cfg) (x : α) (pe rank : ℕ) :
    (d.insertValue cfg k x pe rank).Stored cfg := by
  unfold Dest.insertValue
  cases k.agg with
  | WPs => exact hd.putShip _ true
  | WW =>
    dsimp only
    split_ifs <;> exact hd.congr rfl rfl rfl
  | WsP =>
    unfold insertSorted
    dsimp only
    split_ifs <;> exact hd.congr rfl rfl rfl

/-! ## Flushes -/

theorem Stored.drain (hd : d.Stored cfg) : (d.drain cfg k).Stored cfg :=
  WordBits.forNext_inv (I := fun s : Dest α => s.Stored cfg)
    (fun i _ hs => hs.drainBucket i) _ _ d hd

theorem fillFromDest_stored (i : ℕ) :
    ∀ (fuel : ℕ) (d : Dest α), d.Stored cfg → (fillFromDest cfg k i fuel d).Stored cfg := by
  intro fuel
  induction fuel with
  | zero => intro d hd; exact hd
  | succ fuel ih =>
    intro d hd
    rw [fillFromDest]
    cases (d.tramHold i).front with
    | none => exact hd
    | some item =>
      dsimp only
      split_ifs
      · exact ih _ ((hd.holdTake i).congr rfl rfl rfl)
      · exact hd

theorem Stored.fillersDest (hd : d.Stored cfg) : (fillersDest cfg k d).Stored cfg :=
  WordBits.forNext_inv (I := fun s : Dest α => s.Stored cfg)
    (fun i s hs => fillFromDest_stored i _ s hs) _ _ d hd

theorem Stored.shipPartial (hd : d.Stored cfg) {fillers : Dest α → Dest α}
    (hf : ∀ x : Dest α, x.Stored cfg → (fillers x).Stored cfg) :
    (d.shipPartial cfg k fillers).Stored cfg := by
  have hun : d.uncount.Stored cfg := hd.congr rfl rfl rfl
  unfold Dest.shipPartial
  dsimp only
  split_ifs
  · exact hd
  · exact (hf _ hun).congr rfl rfl rfl
  · exact hun.congr rfl rfl rfl

theorem Stored.flushDest (hk : k.combining = false) (hd : d.Stored cfg) :
    (d.flushDest cfg k).Stored cfg := by
  unfold Dest.flushDest
  rw [hk]
  exact hd.drain.shipPartial fun _ h => h.fillersDest

theorem Stored.tflush (hk : k.combining = false) (hd : d.Stored cfg) (idleflush : Bool) :
    (d.tflush cfg k idleflush).Stored cfg := by
  unfold Dest.tflush
  rw [if_neg (by simp [hk])]
  split_ifs
  · unfold flushSorted
    split_ifs
    · exact hd
    · exact hd.congr rfl rfl rfl
  · have hfirst : (if idleflush then d else d.flushBuffer k).Stored cfg := by
      unfold flushBuffer
      split_ifs
      · exact hd
      · exact hd
      · exact hd.congr rfl rfl rfl
    unfold flushAll
    rw [show fillersFlush cfg k = Dest.fillersDest cfg k from funext (fillersFlush_eq cfg k)]
    exact hfirst.drain.shipPartial fun _ h => h.fillersDest

theorem Stored.flushIfStale (hk : k.combining = false) (hd : d.Stored cfg) :
    (d.flushIfStale cfg k).Stored cfg := by
  unfold Dest.flushIfStale
  dsimp only
  split_ifs
  · exact hd.flushDest hk
  · exact (hd.flushDest hk).congr rfl rfl rfl
  · exact hd
  · exact hd.congr rfl rfl rfl

theorem Stored.flushIfAny (hk : k.combining = false) (hd : d.Stored cfg) :
    (d.flushIfAny cfg k).Stored cfg := by
  unfold Dest.flushIfAny
  split_ifs
  · exact hd.flushDest hk
  · exact hd

/-! ## Settings -/

theorem Stored.retune (hk : k.combining = false) (hd : d.Stored cfg) (new : ℤ) :
    (d.retune cfg k new).Stored cfg := by
  unfold Dest.retune
  rw [if_neg (by simp [hk])]
  split_ifs
  · apply WordBits.forNext_inv (I := fun s : Dest α => s.Stored cfg) _ _ _ d hd
    intro i s hs
    exact hs.congr rfl rfl rfl
  · exact hd

theorem Stored.coarsen (hd : d.Stored cfg) {factor : ℕ} (hf : 2 ≤ factor) (keepTop : Bool) :
    (d.coarsen cfg k factor keepTop).Stored cfg := by
  unfold Dest.coarsen
  dsimp only
  apply And.left
  apply mergeBuckets_spec hf
  apply WordBits.forNext_inv (I := fun s : Dest α => s.Stored cfg) _ _ _ d hd
  intro i s hs
  exact hs.congr rfl rfl rfl

theorem Stored.resize [ReleaseArith F] (hd : d.Stored cfg) : (d.resize cfg k).Stored cfg := by
  have hfit : (d.refit k).Stored cfg := by
    unfold refit
    split_ifs <;> exact hd.congr rfl rfl rfl
  exact hfit.releaseOver

/-! ## The search -/

/-- `holdNext` from `start` finds the least bucket from there that holds something. -/
theorem Stored.holdNext_isLeast (hd : d.Stored cfg) (start i : ℕ) :
    d.holdNext cfg start = some i ↔
      IsLeast {b | start ≤ b ∧ (d.tramHold b).empty = false} i := by
  have hempty : ∀ b, (d.tramHold b).empty = false ↔ (d.tramHold b).toList ≠ [] := fun b => by
    rw [ne_eq, ← HoldQueue.empty_iff, Bool.not_eq_true]
  have hsome : ∀ {i}, d.holdNext cfg start = some i →
      IsLeast {b | start ≤ b ∧ (d.tramHold b).empty = false} i := by
    intro i h
    obtain ⟨h1, -, h3, h4⟩ := hd.holdNext_some h
    refine ⟨⟨h1, (hempty i).mpr h3⟩, fun c hc => ?_⟩
    by_contra hlt
    exact (hempty c).mp hc.2 (h4 c hc.1 (by omega))
  refine ⟨hsome, fun hleast => ?_⟩
  cases h : d.holdNext cfg start with
  | none => exact absurd (hd.holdNext_none h i hleast.1.1) ((hempty i).mp hleast.1.2)
  | some j => rw [(hsome h).unique hleast]

theorem Stored.holdNext_eq_none (hd : d.Stored cfg) (start : ℕ) :
    d.holdNext cfg start = none ↔ ∀ b ≥ start, (d.tramHold b).empty = true := by
  constructor
  · intro h b hb
    exact (HoldQueue.empty_iff _).mpr (hd.holdNext_none h b hb)
  · intro h
    cases hi : d.holdNext cfg start with
    | none => rfl
    | some i =>
      obtain ⟨h1, -, h3, -⟩ := hd.holdNext_some hi
      exact absurd ((HoldQueue.empty_iff _).mp (h i h1)) h3

end Dest

/-! ## Runs -/

/-- An item sent is put in one of the buckets. -/
def Op.InBuckets (cfg : Config α) : Op α F → Prop
  | .send _ b | .sendTo _ b _ => b < cfg.histoBucketCount
  | _ => True

namespace HTram

/-- A PE with combining off whose hold bitmap is exact. -/
structure Mapped (cfg : Config α) (p : HTram α F) : Prop where
  off : p.knobs.combining = false
  stored : ∀ d < p.destCount cfg, (p.dest d).Stored cfg

variable [ReleaseArith F] [Inhabited α]

theorem act_stored {cfg : Config α} {k : Knobs F} (hk : k.combining = false) {op : Op α F}
    (hop : op.InBuckets cfg) (d : ℕ) {x : Dest α} (hx : x.Stored cfg) :
    (op.act cfg k d x).Stored cfg := by
  cases op with
  | send y b =>
    dsimp only [Op.act]
    split_ifs
    · exact hx.sendItem hk y hop _
    · exact hx
  | sendTo y b pe =>
    dsimp only [Op.act]
    split_ifs
    · exact hx.sendItem hk y hop pe
    · exact hx
  | insertValue y pe =>
    dsimp only [Op.act]
    split_ifs
    · exact hx.insertValue y pe _
    · exact hx
  | insertValueWPs y pe =>
    dsimp only [Op.act]
    split_ifs
    · exact hx.putShip _ true
    · exact hx
  | changeThreshold direct t selectivity =>
    dsimp only [Op.act]
    split_ifs
    · exact hx
    · exact (hx.retune hk t).releaseAbove hk
  | coarsenBuckets factor keepTop =>
    dsimp only [Op.act]
    split_ifs with hf
    · exact hx
    · exact (hx.coarsen (by omega) keepTop).releaseAbove hk
  | setBufferSize newSize =>
    dsimp only [Op.act]
    split_ifs
    · exact hx
    · exact hx.resize
    · exact hx.congr rfl rfl rfl
  | tflush idleflush => exact hx.tflush hk idleflush
  | flushStale =>
    dsimp only [Op.act]
    split_ifs
    · exact hx.flushIfStale hk
    · exact hx.tflush hk false
  | flushIdle elapsed =>
    dsimp only [Op.act]
    split_ifs
    · exact hx.flushIfAny hk
    · exact hx

theorem step_mapped {cfg : Config α} {p q : HTram α F} (hp : p.Mapped cfg) {op : Op α F}
    (hop : op.InBuckets cfg) (hq : p.step cfg op = .returns q) : q.Mapped cfg := by
  obtain ⟨hknobs, hdest⟩ := step_acts hq
  obtain ⟨hagg, hcombining⟩ := op.settings_mode p.knobs
  refine ⟨by rw [hknobs, hcombining, hp.off], fun d hd => ?_⟩
  have hd : d < p.destCount cfg := by
    unfold destCount at hd ⊢
    rwa [hknobs, hagg] at hd
  rw [hdest d hd]
  exact act_stored hp.off hop d (hp.stored d hd)

theorem run_mapped {cfg : Config α} {ops : List (Op α F)} {p q : HTram α F} (hp : p.Mapped cfg)
    (hops : ∀ op ∈ ops, op.InBuckets cfg) (hq : p.run cfg ops = .returns q) : q.Mapped cfg :=
  run_keeps (fun op hop _ _ hp hq => step_mapped hp (hops op hop) hq) hp hq

theorem init_mapped (cfg : Config α) (agg : Agg) (bufSize : ℕ) :
    (init agg bufSize : HTram α F).Mapped cfg :=
  ⟨rfl, fun _ _ => Dest.init_stored cfg bufSize⟩

/-- With combining off, after any calls on a new PE: the bit of each bucket is set exactly if
    the bucket holds something, `holdNext` finds the least bucket from `start` that does, if
    there is one, and every word it reads is in the destination's row. -/
theorem run_holdBits {cfg : Config α} {agg : Agg} {bufSize : ℕ} {ops : List (Op α F)}
    {q : HTram α F} (hops : ∀ op ∈ ops, op.InBuckets cfg)
    (hq : (init agg bufSize).run cfg ops = .returns q) {d : ℕ} (hd : d < q.destCount cfg) :
    (∀ b, WordBits.get (q.dest d).holdBits b = true ↔ ((q.dest d).tramHold b).empty = false) ∧
      ∀ start,
        (∀ i, (q.dest d).holdNext cfg start = some i ↔
          IsLeast {b | start ≤ b ∧ ((q.dest d).tramHold b).empty = false} i) ∧
        ((q.dest d).holdNext cfg start = none ↔
          ∀ b ≥ start, ((q.dest d).tramHold b).empty = true) ∧
        (q.dest d).holdNextRead cfg start = some ((q.dest d).holdNext cfg start) := by
  have hs := (run_mapped (init_mapped cfg agg bufSize) hops hq).stored d hd
  refine ⟨fun b => ?_, fun start => ⟨hs.holdNext_isLeast start, hs.holdNext_eq_none start,
    Dest.holdNextRead_eq cfg _ start⟩⟩
  rw [hs.bits b, ne_eq, ← HoldQueue.empty_iff, Bool.not_eq_true]

/-- Held items either side of a word boundary, one of them let go. -/
theorem run_holdBits_wide :
    ∃ q, (init .WPs 4).run { oneNode with histoBucketCount := 130 }
        [offer 1 63, offer 2 64, offer 3 129, .changeThreshold (-1) 63 1, .flushStale] =
          .returns q ∧
      (q.dest 0).holdNext { oneNode with histoBucketCount := 130 } 0 = some 64 ∧
      (q.dest 0).holdNextRead { oneNode with histoBucketCount := 130 } 65 = some (some 129) := by
  obtain ⟨q, hq, hd⟩ : ∃ q, (init .WPs 4).run { oneNode with histoBucketCount := 130 }
      [offer 1 63, offer 2 64, offer 3 129, .changeThreshold (-1) 63 1, .flushStale] =
        .returns q ∧ 0 < q.destCount { oneNode with histoBucketCount := 130 } ∧
      (q.dest 0).holdNext { oneNode with histoBucketCount := 130 } 0 = some 64 ∧
      (q.dest 0).holdNext { oneNode with histoBucketCount := 130 } 65 = some 129 :=
    Outcome.of_check (by decide +kernel)
  refine ⟨q, hq, hd.2.1, ?_⟩
  have hops : ∀ op ∈ [offer 1 63, offer 2 64, offer 3 129,
      (.changeThreshold (-1) 63 1 : Op KeyValue ℚ), .flushStale],
      op.InBuckets { oneNode with histoBucketCount := 130 } := by
    simp [offer, Op.InBuckets]
  rw [((run_holdBits hops hq hd.1).2 65).2.2, hd.2.2]

end HTram

end Htram
