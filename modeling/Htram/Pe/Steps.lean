import Htram.Pe.Folding
import Htram.Pe.Htram
import Htram.Pe.QueuedTune

/-!
# The calls of a PE as moves of its lanes

* `HTram.step_moves`: a call that is in range and does not meet a reference about to be
  taken for current returns or aborts, and each lane takes a path.
-/

namespace Htram

open CombiningHold

variable {α F : Type*}

/-! ## One destination, combining on or off -/

namespace Dest

/-- A destination between two calls. -/
def Settled (cfg : Config α) (k : Knobs F) (d : Dest α) : Prop :=
  if k.combining = true then d.Folds cfg k else d.Queued cfg k

theorem settled_on {cfg : Config α} {k : Knobs F} (hk : k.combining = true) {d : Dest α} :
    d.Settled cfg k ↔ d.Folds cfg k := by
  unfold Settled; rw [if_pos hk]

theorem settled_off {cfg : Config α} {k : Knobs F} (hk : k.combining = false) {d : Dest α} :
    d.Settled cfg k ↔ d.Queued cfg k := by
  unfold Settled; rw [if_neg (by simp [hk])]

theorem Settled.stuck {cfg : Config α} {k : Knobs F} {d : Dest α} (hd : d.Settled cfg k) :
    d.hold.stuck = false := by
  cases hk : k.combining with
  | true => exact ((settled_on hk).mp hd).stuck
  | false => exact ((settled_off hk).mp hd).stuck

theorem Settled.sized {cfg : Config α} {k : Knobs F} {d : Dest α} (hd : d.Settled cfg k) :
    d.Sized k.bufSize := by
  cases hk : k.combining with
  | true => exact ((settled_on hk).mp hd).toSized
  | false => exact ((settled_off hk).mp hd).toSized

theorem Settled.holdInv {cfg : Config α} {k : Knobs F} {d : Dest α} (hd : d.Settled cfg k)
    (hk : k.combining = true) : HoldInv d.hold := by
  obtain ⟨-, a, ha⟩ := (settled_on hk).mp hd
  exact ha.refines.inv

/-- A destination whose hold is new. -/
theorem Settled.newHold [Inhabited α] {cfg : Config α} {k k' : Knobs F} {d : Dest α}
    (hd : d.Settled cfg k) (hk : k'.combining = true) (hsize : k'.bufSize = k.bufSize) :
    { d with hold := CombiningHold.init cfg.histoBucketCount : Dest α }.Settled cfg k' := by
  have hsized : { d with hold := CombiningHold.init cfg.histoBucketCount : Dest α }.Sized
      k.bufSize := hd.sized.congr rfl rfl
  rw [← hsize] at hsized
  exact (settled_on hk).mpr ⟨hsized, KeyedHold.empty, CombiningHold.init_refines _,
    CombiningHold.rebuild_bucketCount ..⟩

/-- What a call does to a destination: from `d` to `d'`, along a path of the lane, and,
    from `h` on, only releasing from the hold. -/
structure Settles (cfg : Config α) (R : Rules) (k k' : Knobs F) (xs : List (Input α))
    (h : CombiningHold α) (d d' : Dest α) : Prop where
  settled : d'.Settled cfg k'
  path : Path cfg R xs (d.lane cfg k) (d'.lane cfg k')
  hold : k.combining = true → Released h d'.hold

variable (cfg : Config α) {k : Knobs F} {d : Dest α}

theorem sendItem_settles [ReleaseArith F] [Inhabited α] {R : Rules}
    (hR : k.combining = true → R.fold = true) (hd : d.Settled cfg k)
    (x : α) {b : ℕ} (hs : k.combining = true → d.SendSafe cfg k x b)
    (hb : b < cfg.histoBucketCount) (pe : ℕ) :
    Settles cfg R k k [.send x b pe] (d.hold.insert cfg.ops x b).1 d
      (d.sendItem cfg k x b pe) := by
  cases hk : k.combining with
  | true =>
    obtain ⟨h1, h2, h3⟩ := sendHold_path cfg hk R (hR hk) ((settled_on hk).mp hd) x (hs hk) pe hb
    have heq : d.sendItem cfg k x b pe = d.sendHold cfg k x b := by
      unfold sendItem; rw [if_pos hk]
    rw [heq]
    exact ⟨(settled_on hk).mpr h1, h3, fun _ => h2⟩
  | false =>
    obtain ⟨h1, h2⟩ := sendItem_path cfg hk R x pe hb ((settled_off hk).mp hd)
    exact ⟨(settled_off hk).mpr h1, h2, fun h => by rw [hk] at h; cases h⟩

theorem insertValueWPsTo_settles (R : Rules) (hd : d.Settled cfg k) (x : α) (pe : ℕ) :
    Settles cfg R k k [.raw x pe] d.hold d (d.insertValueWPsTo k x pe none) := by
  cases hk : k.combining with
  | true =>
    obtain ⟨h1, h2, h3⟩ := insertValueWPsTo_folds cfg hk R x pe ((settled_on hk).mp hd)
    exact ⟨(settled_on hk).mpr h1, h3, fun _ => h2 ▸ .refl _⟩
  | false =>
    obtain ⟨h1, h2⟩ := insertValueWPsTo_path cfg hk R x pe ((settled_off hk).mp hd)
    exact ⟨(settled_off hk).mpr h1, h2, fun h => by rw [hk] at h; cases h⟩

theorem insertValue_settles (hagg : k.agg ≠ .WsP) (R : Rules) (hd : d.Settled cfg k) (x : α)
    (pe rank : ℕ) :
    Settles cfg R k k [.raw x pe] d.hold d (d.insertValue cfg k x pe rank) := by
  cases hk : k.combining with
  | true =>
    obtain ⟨h1, h2, h3⟩ := insertValue_folds cfg hk R hagg x pe rank ((settled_on hk).mp hd)
    exact ⟨(settled_on hk).mpr h1, h3, fun _ => h2 ▸ .refl _⟩
  | false =>
    obtain ⟨h1, h2⟩ := insertValue_path cfg hk R hagg x pe rank ((settled_off hk).mp hd)
    exact ⟨(settled_off hk).mpr h1, h2, fun h => by rw [hk] at h; cases h⟩

theorem releaseAbove_settles [ReleaseArith F] (R : Rules) (hd : d.Settled cfg k)
    (hf : k.combining = true → d.hold.DrainSafe k.tramThreshold) :
    Settles cfg R k k [] d.hold d (d.releaseAbove cfg k) := by
  cases hk : k.combining with
  | true =>
    obtain ⟨h1, h2, h3⟩ := releaseAbove_folds cfg hk R ((settled_on hk).mp hd) (hf hk)
    exact ⟨(settled_on hk).mpr h1, h3, fun _ => h2⟩
  | false =>
    obtain ⟨h1, h2⟩ := releaseAbove_path cfg hk R ((settled_off hk).mp hd)
    exact ⟨(settled_off hk).mpr h1, h2, fun h => by rw [hk] at h; cases h⟩

theorem retune_settles [ReleaseArith F] (R : Rules) (hold : -1 ≤ k.tramThreshold) {new : ℤ}
    (hnew : -1 ≤ new) (direct : ℤ) (selectivity : F) (hd : d.Settled cfg k) :
    Settles cfg R k (k.retuned direct new selectivity) [] d.hold d (d.retune cfg k new) := by
  cases hk : k.combining with
  | true =>
    obtain ⟨h1, h2⟩ := retuneHold_path cfg hk R direct selectivity hold hnew
      ((settled_on hk).mp hd)
    refine ⟨(settled_on (k := k.retuned direct new selectivity) hk).mpr h1, h2, fun _ => ?_⟩
    unfold retune
    rw [if_pos hk]
    exact .refl _
  | false =>
    obtain ⟨h1, h2⟩ := retune_path cfg hk R direct selectivity hold hnew ((settled_off hk).mp hd)
    exact ⟨(settled_off (k := k.retuned direct new selectivity) hk).mpr h1, h2,
      fun h => by rw [hk] at h; cases h⟩

theorem tflush_settles (hagg : k.agg ≠ .WsP) {R : Rules} (hR : R.flush = true)
    (idleflush : Bool) (hd : d.Settled cfg k) (hf : k.combining = true → d.FlushSafe cfg k) :
    Settles cfg R k k [] d.hold d (d.tflush cfg k idleflush) ∧
      ((d.tflush cfg k idleflush).lane cfg k).Flushed := by
  cases hk : k.combining with
  | true =>
    obtain ⟨h1, h2, h3, h4⟩ := flushHold_path cfg hk R hR ((settled_on hk).mp hd) (hf hk)
    have heq : d.tflush cfg k idleflush = d.flushHold cfg k := by
      unfold tflush flushDest; rw [if_pos hk, if_pos hk]
    rw [heq]
    exact ⟨⟨(settled_on hk).mpr h1, h3, fun _ => h2⟩, h4⟩
  | false =>
    obtain ⟨h1, h2, h3⟩ := flushAll_path cfg hk hR idleflush ((settled_off hk).mp hd)
    have heq : d.tflush cfg k idleflush = d.flushAll cfg k idleflush := by
      unfold tflush; rw [if_neg (by simp [hk]), if_neg hagg]
    rw [heq]
    exact ⟨⟨(settled_off hk).mpr h1, h2, fun h => by rw [hk] at h; cases h⟩, h3⟩

theorem flushDest_settles {R : Rules} (hR : R.flush = true) (hd : d.Settled cfg k)
    (hf : k.combining = true → d.FlushSafe cfg k) :
    Settles cfg R k k [] d.hold d (d.flushDest cfg k) ∧
      ((d.flushDest cfg k).lane cfg k).Flushed := by
  unfold flushDest
  split_ifs with hk
  · obtain ⟨h1, h2, h3, h4⟩ := flushHold_path cfg hk R hR ((settled_on hk).mp hd) (hf hk)
    exact ⟨⟨(settled_on hk).mpr h1, h3, fun _ => h2⟩, h4⟩
  · have hk : k.combining = false := by simpa using hk
    obtain ⟨h1, h2, h3⟩ := flushQueue_path cfg hk hR ((settled_off hk).mp hd)
    exact ⟨⟨(settled_off hk).mpr h1, h2, fun h => by rw [hk] at h; cases h⟩, h3⟩

theorem flushIfStale_settles {R : Rules} (hR : R.flush = true) (hd : d.Settled cfg k)
    (hf : k.combining = true → d.FlushSafe cfg k) :
    Settles cfg R k k [] d.hold d (d.flushIfStale cfg k) := by
  cases hk : k.combining with
  | true =>
    obtain ⟨h1, h2, h3⟩ := flushIfStale_folds cfg hk R hR ((settled_on hk).mp hd) (hf hk)
    exact ⟨(settled_on hk).mpr h1, h3, fun _ => h2⟩
  | false =>
    obtain ⟨h1, h2⟩ := flushIfStale_path cfg hk hR ((settled_off hk).mp hd)
    exact ⟨(settled_off hk).mpr h1, h2, fun h => by rw [hk] at h; cases h⟩

theorem flushIfAny_settles {R : Rules} (hR : R.flush = true) (hd : d.Settled cfg k)
    (hf : k.combining = true → d.FlushSafe cfg k) :
    Settles cfg R k k [] d.hold d (d.flushIfAny cfg k) := by
  cases hk : k.combining with
  | true =>
    obtain ⟨h1, h2, h3⟩ := flushIfAny_folds cfg hk R hR ((settled_on hk).mp hd) (hf hk)
    exact ⟨(settled_on hk).mpr h1, h3, fun _ => h2⟩
  | false =>
    obtain ⟨h1, h2⟩ := flushIfAny_path cfg hk hR ((settled_off hk).mp hd)
    exact ⟨(settled_off hk).mpr h1, h2, fun h => by rw [hk] at h; cases h⟩

theorem resize_settles [ReleaseArith F] (R : Rules) (hk : k.combining = false) {newSize : ℕ}
    (hnew : 0 < newSize) (hd : d.Settled cfg k) :
    Settles cfg R k (k.resized newSize) [] d.hold d (d.resize cfg (k.resized newSize)) := by
  obtain ⟨h1, h2⟩ := resize_path cfg hk R hnew ((settled_off hk).mp hd)
  exact ⟨(settled_off (k := k.resized newSize) hk).mpr h1, h2, fun h => by rw [hk] at h; cases h⟩

/-- An empty buffer is replaced by an empty one of the new size. -/
theorem newBuffer_settles [ReleaseArith F] (R : Rules) (hk : k.combining = true) {newSize : ℕ}
    (hnew : 0 < newSize) (hempty : d.msgBuffer.next = 0) (hd : d.Settled cfg k) :
    Settles cfg R k (k.resized newSize) [] d.hold d
      { d with msgBuffer := newHTramMessage newSize } := by
  obtain ⟨hsized, a, ha⟩ := (settled_on hk).mp hd
  have hnil : d.msgBuffer.items = [] :=
    List.length_eq_zero_iff.mp (hsized.sound.written.trans hempty)
  refine ⟨(settled_on (k := k.resized newSize) hk).mpr ⟨⟨⟨Nat.zero_le _, le_refl _,
    newHTramMessage_sound _, hsized.sentSound⟩, hnew⟩, a, ha.congr rfl⟩, ?_, fun _ => .refl _⟩
  have hmove : Move cfg R [] (d.lane cfg k) _ := Move.resize _ newSize
  convert Path.single hmove using 1
  exact Lane.ext rfl rfl rfl rfl hnil.symm rfl rfl rfl rfl rfl

theorem coarsen_settles (hk : k.combining = false) {R : Rules} {factor : ℕ} (hf : 2 ≤ factor)
    {keepTop : Bool} (hkeep : keepTop = true → R.keepTop = true) (hd : d.Settled cfg k) :
    Settles cfg R k (k.coarsened factor) [] d.hold d (d.coarsen cfg k factor keepTop) := by
  obtain ⟨h1, h2⟩ := coarsen_path cfg hk hf hkeep ((settled_off hk).mp hd)
  exact ⟨(settled_off (k := k.coarsened factor) hk).mpr h1, h2, fun h => by rw [hk] at h; cases h⟩

end Dest

/-! ## One call -/

namespace Op

/-- What a call hands to destination `d`. -/
def inputs (cfg : Config α) (agg : Agg) (d : ℕ) : Op α F → List (Input α)
  | .send x b =>
    if cfg.destOf agg (cfg.getDestProc x) = d then [.send x b (cfg.getDestProc x)] else []
  | .sendTo x b pe => if cfg.destOf agg pe = d then [.send x b pe] else []
  | .insertValue x pe => if cfg.destOf agg pe = d then [.raw x pe] else []
  | .insertValueWPs x pe => if cfg.destOf agg pe = d then [.raw x pe] else []
  | _ => []

/-- What may happen to a lane in a call. -/
def rules (combining : Bool) : Op α F → Rules
  | .tflush _ | .flushStale | .flushIdle _ => ⟨combining, true, false⟩
  | .coarsenBuckets _ keepTop => ⟨combining, false, keepTop⟩
  | _ => ⟨combining, false, false⟩

/-- The call stays inside the bucket range and names a destination. -/
def InRange (cfg : Config α) (agg : Agg) (combining : Bool) : Op α F → Prop
  | .send _ b | .sendTo _ b _ => b < cfg.histoBucketCount
  | .insertValue _ pe | .insertValueWPs _ pe => cfg.destOf agg pe < cfg.destCount agg
  | .changeThreshold _ t _ => -1 ≤ t ∧ (combining = true → t < cfg.histoBucketCount)
  | _ => True

end Op

namespace HTram

/-- Destination `d` of the PE as a lane. -/
def lane (cfg : Config α) (p : HTram α F) (d : ℕ) : Lane α := (p.dest d).lane cfg p.knobs

/-- No reference in a hold is about to be taken for current in the call: not in the `insert`
    of a send, and not in the releases that follow it, that a new threshold makes or that
    a flush makes. -/
def StampsSafe [Inhabited α] (cfg : Config α) (p : HTram α F) (op : Op α F) : Prop :=
  p.knobs.combining = true → ∀ d < p.destCount cfg,
    match op with
    | .send x b =>
      cfg.destOf p.knobs.agg (cfg.getDestProc x) = d → (p.dest d).SendSafe cfg p.knobs x b
    | .sendTo x b pe => cfg.destOf p.knobs.agg pe = d → (p.dest d).SendSafe cfg p.knobs x b
    | .changeThreshold _ t _ => (p.dest d).hold.DrainSafe t
    | .tflush _ | .flushStale | .flushIdle _ => (p.dest d).FlushSafe cfg p.knobs
    | _ => True

/-- A PE of the modes `WPs` and `WW` between two calls. -/
structure Steady (cfg : Config α) (p : HTram α F) : Prop where
  agg : p.knobs.agg ≠ .WsP
  threshold : -1 ≤ p.knobs.tramThreshold
  dest : ∀ d < p.destCount cfg, (p.dest d).Settled cfg p.knobs

/-! ### Calls on every destination -/

/-- If no destination hangs, the loop runs `f` for each. -/
theorem eachDest_eq (f : Dest α → Dest α) :
    ∀ (ds : List ℕ) (p : HTram α F), ds.Nodup →
      (∀ d ∈ ds, (f (p.dest d)).hold.stuck = false) →
      eachDest f ds p =
        .returns { p with dest := fun d => if d ∈ ds then f (p.dest d) else p.dest d } := by
  intro ds
  induction ds with
  | nil => intro p _ _; simp [eachDest]
  | cons d ds ih =>
    intro p hnd hf
    obtain ⟨hd, hnd⟩ := List.nodup_cons.mp hnd
    have hrest : ∀ d' ∈ ds, d' ≠ d := by
      rintro d' hd' rfl
      exact hd hd'
    rw [eachDest, onDest, if_neg (by simp [hf d (List.mem_cons_self ..)])]
    show eachDest f ds (p.setDest d (f (p.dest d))) = _
    rw [ih _ hnd fun d' hd' => by
      simpa [setDest, Function.update_of_ne (hrest d' hd')] using
        hf d' (List.mem_cons_of_mem _ hd')]
    congr 2
    funext d'
    by_cases hdd : d' = d
    · subst hdd; simp [setDest, hd]
    · simp [setDest, hdd]

theorem forDest_eq {cfg : Config α} {p : HTram α F} {f : Dest α → Dest α}
    (hf : ∀ d < p.destCount cfg, (f (p.dest d)).hold.stuck = false) :
    p.forDest cfg f = .returns (p.mapDest cfg p.knobs f) := by
  unfold forDest
  rw [eachDest_eq f _ p List.nodup_range fun d hd => hf d (List.mem_range.mp hd)]
  unfold mapDest
  simp only [List.mem_range]

theorem mapDest_dest {cfg : Config α} {p : HTram α F} (k : Knobs F) (f : Dest α → Dest α) {d : ℕ}
    (hd : d < p.destCount cfg) : (p.mapDest cfg k f).dest d = f (p.dest d) := if_pos hd

variable [Inhabited α]

/-- What a call does to a PE: `xs d` is handed to destination `d`, whose lane takes a path. -/
structure Moves (cfg : Config α) (R : Rules) (xs : ℕ → List (Input α)) (p q : HTram α F) :
    Prop where
  steady : q.Steady cfg
  agg : q.knobs.agg = p.knobs.agg
  combining : q.knobs.combining = p.knobs.combining
  path : ∀ d < p.destCount cfg, Path cfg R (xs d) (p.lane cfg d) (q.lane cfg d)
  hold : p.knobs.combining = true → ∀ d < p.destCount cfg, ∃ h, Released h (q.dest d).hold ∧
    (h = (p.dest d).hold ∨ xs d ≠ [] ∧ ∃ x b, h = ((p.dest d).hold.insert cfg.ops x b).1)

theorem Moves.destCount {cfg : Config α} {R : Rules} {xs : ℕ → List (Input α)} {p q : HTram α F}
    (h : Moves cfg R xs p q) : q.destCount cfg = p.destCount cfg := by
  unfold HTram.destCount
  rw [h.agg]

theorem Moves.refl {cfg : Config α} {R : Rules} {p : HTram α F} (hp : p.Steady cfg) :
    Moves cfg R (fun _ => []) p p :=
  ⟨hp, rfl, rfl, fun _ _ => .nil _, fun _ _ _ => ⟨_, .refl _, Or.inl rfl⟩⟩

theorem Moves.andThen {cfg : Config α} {R : Rules} {p q r : HTram α F}
    (h1 : Moves cfg R (fun _ => []) p q) (h2 : Moves cfg R (fun _ => []) q r) :
    Moves cfg R (fun _ => []) p r := by
  have hcount := h1.destCount
  refine ⟨h2.steady, h2.agg.trans h1.agg, h2.combining.trans h1.combining, fun d hd => ?_,
    fun hk d hd => ?_⟩
  · exact (h1.path d hd).andThen (h2.path d (hcount ▸ hd))
  · obtain ⟨h, hr, h'⟩ := h1.hold hk d hd
    obtain ⟨i, hs, hi⟩ := h2.hold (h1.combining.trans hk) d (hcount ▸ hd)
    rcases hi with rfl | ⟨hne, -⟩
    · exact ⟨h, hr.trans hs, h'⟩
    · exact absurd rfl hne

/-- New settings and `f` for every destination. -/
theorem mapDest_moves {cfg : Config α} {R : Rules} {p : HTram α F} (hp : p.Steady cfg)
    {k : Knobs F} (hagg : k.agg = p.knobs.agg) (hcomb : k.combining = p.knobs.combining)
    (hthr : -1 ≤ k.tramThreshold) {f : Dest α → Dest α}
    (hf : ∀ d < p.destCount cfg, Dest.Settles cfg R p.knobs k [] (p.dest d).hold (p.dest d)
      (f (p.dest d))) :
    Moves cfg R (fun _ => []) p (p.mapDest cfg k f) := by
  have hcount : (p.mapDest cfg k f).destCount cfg = p.destCount cfg := by
    unfold destCount
    rw [← hagg]; rfl
  refine ⟨⟨?_, hthr, fun d hd => ?_⟩, hagg, hcomb, fun d hd => ?_, fun hk d hd => ?_⟩
  · show k.agg ≠ .WsP
    rw [hagg]; exact hp.agg
  · rw [hcount] at hd
    rw [mapDest_dest k f hd]
    exact (hf d hd).settled
  · unfold lane
    rw [mapDest_dest k f hd]
    exact (hf d hd).path
  · rw [mapDest_dest k f hd]
    exact ⟨_, (hf d hd).hold hk, Or.inl rfl⟩

/-- A call on every destination. -/
theorem forDest_moves {cfg : Config α} {R : Rules} {p : HTram α F} (hp : p.Steady cfg)
    {f : Dest α → Dest α}
    (hf : ∀ d < p.destCount cfg, Dest.Settles cfg R p.knobs p.knobs [] (p.dest d).hold (p.dest d)
      (f (p.dest d))) :
    ∃ q, p.forDest cfg f = .returns q ∧ q.knobs = p.knobs ∧ Moves cfg R (fun _ => []) p q ∧
      ∀ d < p.destCount cfg, q.dest d = f (p.dest d) :=
  ⟨_, forDest_eq fun d hd => (hf d hd).settled.stuck, rfl,
    mapDest_moves hp rfl rfl hp.threshold hf, fun _ hd => mapDest_dest _ f hd⟩

/-- A call on one destination. -/
theorem setDest_moves {cfg : Config α} {R : Rules} {p : HTram α F} (hp : p.Steady cfg) {d₀ : ℕ}
    {x : Dest α} {xs : ℕ → List (Input α)} {h : CombiningHold α}
    (hx : d₀ < p.destCount cfg →
      Dest.Settles cfg R p.knobs p.knobs (xs d₀) h (p.dest d₀) x)
    (hh : h = (p.dest d₀).hold ∨ ∃ y b, h = ((p.dest d₀).hold.insert cfg.ops y b).1)
    (hone : xs d₀ ≠ []) (hxs : ∀ d ≠ d₀, xs d = []) :
    Moves cfg R xs p (p.setDest d₀ x) := by
  refine ⟨⟨hp.agg, hp.threshold, fun d hd => ?_⟩, rfl, rfl, fun d hd => ?_, fun hk d hd => ?_⟩
  · by_cases he : d = d₀
    · subst he; simpa [setDest] using (hx hd).settled
    · simpa [setDest, Function.update_of_ne he] using hp.dest d hd
  · by_cases he : d = d₀
    · subst he; simpa [setDest, lane] using (hx hd).path
    · rw [hxs d he]
      simpa [setDest, lane, Function.update_of_ne he] using Path.nil (p.lane cfg d)
  · by_cases he : d = d₀
    · subst he
      refine ⟨h, by simpa [setDest] using (hx hd).hold hk, hh.imp_right fun hi => ⟨hone, hi⟩⟩
    · refine ⟨(p.dest d).hold, ?_, Or.inl rfl⟩
      simpa [setDest, Function.update_of_ne he] using Released.refl (p.dest d).hold

/-! ### The calls -/

theorem insertValueWPs_moves {cfg : Config α} (R : Rules) {p : HTram α F} (hp : p.Steady cfg)
    (x : α) {pe : ℕ} (hpe : cfg.destOf p.knobs.agg pe < p.destCount cfg) :
    Moves cfg R (fun d => if cfg.destOf p.knobs.agg pe = d then [.raw x pe] else []) p
      (p.insertValueWPs cfg x pe) := by
  have hsettles := Dest.insertValueWPsTo_settles cfg R (hp.dest _ hpe) x pe
  exact setDest_moves hp (fun _ => by rw [if_pos rfl]; exact hsettles) (Or.inl rfl)
    (by simp) fun d hne => if_neg (Ne.symm hne)

theorem insertValue_moves {cfg : Config α} (R : Rules) {p : HTram α F} (hp : p.Steady cfg)
    (x : α) {pe : ℕ} (hpe : cfg.destOf p.knobs.agg pe < p.destCount cfg) :
    Moves cfg R (fun d => if cfg.destOf p.knobs.agg pe = d then [.raw x pe] else []) p
      (p.insertValue cfg x pe) := by
  have hsettles := Dest.insertValue_settles cfg hp.agg R (hp.dest _ hpe) x pe (pe % cfg.nodeSize)
  exact setDest_moves hp (fun _ => by rw [if_pos rfl]; exact hsettles) (Or.inl rfl)
    (by simp) fun d hne => if_neg (Ne.symm hne)

theorem tflush_moves {cfg : Config α} {R : Rules} (hR : R.flush = true) {p : HTram α F}
    (hp : p.Steady cfg) (idleflush : Bool)
    (hf : p.knobs.combining = true → ∀ d < p.destCount cfg, (p.dest d).FlushSafe cfg p.knobs) :
    ∃ q, p.tflush cfg idleflush = .returns q ∧ q.knobs = p.knobs ∧
      Moves cfg R (fun _ => []) p q ∧ ∀ d < p.destCount cfg, (q.lane cfg d).Flushed := by
  have hsettles := fun d hd => Dest.tflush_settles cfg hp.agg hR idleflush (hp.dest d hd)
    fun hk => hf hk d hd
  obtain ⟨q, hq, hknobs, hmoves, hdest⟩ := forDest_moves hp fun d hd => (hsettles d hd).1
  refine ⟨q, hq, hknobs, hmoves, fun d hd => ?_⟩
  unfold lane
  rw [hdest d hd, hknobs]
  exact (hsettles d hd).2

variable [ReleaseArith F]

/-- A call returns what its lanes allow, or aborts. -/
def StepMoves (cfg : Config α) (R : Rules) (xs : ℕ → List (Input α)) (p : HTram α F)
    (o : Outcome (HTram α F)) : Prop :=
  o.Holds (Moves cfg R xs p) fun _ => False

theorem sendItemPrioDeferredDestTo_moves {cfg : Config α} {p : HTram α F}
    (hp : p.Steady cfg) (x : α) {b : ℕ} (hb : b < cfg.histoBucketCount) (pe : ℕ)
    (hs : p.knobs.combining = true → ∀ d < p.destCount cfg, cfg.destOf p.knobs.agg pe = d →
      (p.dest d).SendSafe cfg p.knobs x b) :
    StepMoves cfg ⟨p.knobs.combining, false, false⟩
      (fun d => if cfg.destOf p.knobs.agg pe = d then [.send x b pe] else []) p
      (p.sendItemPrioDeferredDestTo cfg x b pe) := by
  unfold sendItemPrioDeferredDestTo
  dsimp only
  split_ifs with hd
  · trivial
  · have hlt := Nat.not_le.mp hd
    have hsettles := Dest.sendItem_settles (R := ⟨p.knobs.combining, false, false⟩) cfg id
      (hp.dest _ hlt) x (fun hk => hs hk _ hlt rfl) hb pe
    rw [onDest, if_neg (by simp [hsettles.settled.stuck])]
    refine setDest_moves hp (fun _ => by rw [if_pos rfl]; exact hsettles) (Or.inr ⟨_, _, rfl⟩)
      (by simp) fun d hne => if_neg (Ne.symm hne)

/-- A release after the settings have changed. -/
theorem releaseAbove_moves {cfg : Config α} {R : Rules} {p q : HTram α F}
    (hpq : Moves cfg R (fun _ => []) p q)
    (hf : p.knobs.combining = true →
      ∀ d < p.destCount cfg, (p.dest d).hold.DrainSafe q.knobs.tramThreshold) :
    StepMoves cfg R (fun _ => []) p (q.forDest cfg (Dest.releaseAbove cfg q.knobs)) := by
  have hsafe : ∀ d < q.destCount cfg, q.knobs.combining = true →
      (q.dest d).hold.DrainSafe q.knobs.tramThreshold := by
    intro d hd hk
    have hinv := (hpq.steady.dest d hd).holdInv hk
    rw [hpq.combining] at hk
    rw [hpq.destCount] at hd
    obtain ⟨h, hrel, rfl | ⟨hne, -⟩⟩ := hpq.hold hk d hd
    · exact hrel.drainSafe hinv (hf hk d hd)
    · exact absurd rfl hne
  obtain ⟨r, hr, -, hmoves, -⟩ := forDest_moves (R := R) hpq.steady fun d hd =>
    Dest.releaseAbove_settles cfg R (hpq.steady.dest d hd) (hsafe d hd)
  rw [hr]
  exact hpq.andThen hmoves

theorem changeThreshold_moves {cfg : Config α} (R : Rules) {p : HTram α F} (hp : p.Steady cfg)
    (direct : ℤ) {t : ℤ} (ht : -1 ≤ t) (selectivity : F)
    (hf : p.knobs.combining = true → ∀ d < p.destCount cfg, (p.dest d).hold.DrainSafe t) :
    StepMoves cfg R (fun _ => []) p (p.changeThreshold cfg direct t selectivity) := by
  unfold changeThreshold
  split_ifs
  · exact Moves.refl hp
  · refine releaseAbove_moves (q := p.mapDest cfg (p.knobs.retuned direct t selectivity)
      (Dest.retune cfg p.knobs t)) (mapDest_moves (k := p.knobs.retuned direct t selectivity) hp
        rfl rfl ht fun d hd => ?_) hf
    exact Dest.retune_settles cfg R hp.threshold ht direct selectivity (hp.dest d hd)

theorem coarsenBuckets_moves {cfg : Config α} {R : Rules} {p : HTram α F} (hp : p.Steady cfg)
    (factor : ℤ) {keepTop : Bool} (hkeep : keepTop = true → R.keepTop = true) :
    StepMoves cfg R (fun _ => []) p (p.coarsenBuckets cfg factor keepTop) := by
  unfold coarsenBuckets
  split_ifs with hfactor hcomb
  · exact Moves.refl hp
  · trivial
  · have hoff : p.knobs.combining = false := by simpa using hcomb
    obtain ⟨n, hn, -⟩ := tdiv_spec hp.threshold (show 2 ≤ factor.toNat by omega)
    refine releaseAbove_moves (q := p.mapDest cfg (p.knobs.coarsened factor.toNat)
      (Dest.coarsen cfg p.knobs factor.toNat keepTop))
      (mapDest_moves (k := p.knobs.coarsened factor.toNat) hp rfl rfl
        (show (-1 : ℤ) ≤ p.knobs.tramThreshold.tdiv factor.toNat by omega) fun d hd => ?_)
      fun hon => absurd hon hcomb
    exact Dest.coarsen_settles cfg hoff (by omega) hkeep (hp.dest d hd)

theorem setBufferSize_moves {cfg : Config α} (R : Rules) {p : HTram α F} (hp : p.Steady cfg)
    (newSize : ℕ) : StepMoves cfg R (fun _ => []) p (p.setBufferSize cfg newSize) := by
  unfold setBufferSize
  split_ifs with hrange hsame hoff hfull
  · exact Moves.refl hp
  · refine mapDest_moves (k := p.knobs.resized newSize) hp rfl rfl hp.threshold fun d hd => ?_
    exact Dest.resize_settles cfg R (by simpa using hoff.1) hrange.1 (hp.dest d hd)
  · trivial
  · refine mapDest_moves (k := p.knobs.resized newSize) hp rfl rfl hp.threshold fun d hd => ?_
    have hon : p.knobs.combining = true := by
      by_contra hc
      exact hoff ⟨hc, hp.agg⟩
    push Not at hfull
    exact Dest.newBuffer_settles cfg R hon hrange.1 (hfull d hd) (hp.dest d hd)
  · trivial

/-- A call that is in range and meets no reference about to be taken for current. -/
theorem step_moves {cfg : Config α} {p : HTram α F} (hp : p.Steady cfg) {op : Op α F}
    (hop : op.InRange cfg p.knobs.agg p.knobs.combining) (hs : p.StampsSafe cfg op) :
    StepMoves cfg (op.rules p.knobs.combining) (fun d => op.inputs cfg p.knobs.agg d) p
      (p.step cfg op) := by
  cases op with
  | send x b => exact sendItemPrioDeferredDestTo_moves hp x hop (cfg.getDestProc x) hs
  | sendTo x b pe => exact sendItemPrioDeferredDestTo_moves hp x hop pe hs
  | insertValue x pe => exact insertValue_moves _ hp x hop
  | insertValueWPs x pe => exact insertValueWPs_moves _ hp x hop
  | changeThreshold direct t selectivity =>
    exact changeThreshold_moves _ hp direct hop.1 selectivity hs
  | coarsenBuckets factor keepTop => exact coarsenBuckets_moves hp factor id
  | setBufferSize newSize => exact setBufferSize_moves _ hp newSize
  | tflush idleflush =>
    obtain ⟨q, hq, -, hmoves, -⟩ := tflush_moves rfl hp idleflush hs
      (R := (Op.tflush idleflush : Op α F).rules p.knobs.combining)
    show StepMoves cfg _ _ p (p.tflush cfg idleflush)
    rw [hq]
    exact hmoves
  | flushStale =>
    obtain ⟨q, hq, -, hmoves, -⟩ := forDest_moves hp
      (R := (Op.flushStale : Op α F).rules p.knobs.combining) fun d hd =>
      Dest.flushIfStale_settles cfg rfl (hp.dest d hd) fun hk => hs hk d hd
    show StepMoves cfg _ _ p (p.flushStale cfg)
    rw [flushStale, if_pos hp.agg, hq]
    exact hmoves
  | flushIdle elapsed =>
    obtain ⟨q, hq, -, hmoves, -⟩ := forDest_moves hp
      (R := (Op.flushIdle elapsed : Op α F).rules p.knobs.combining) fun d hd =>
      Dest.flushIfAny_settles cfg rfl (hp.dest d hd) fun hk => hs hk d hd
    show StepMoves cfg _ _ p (p.flushIdle cfg elapsed)
    unfold flushIdle
    split_ifs
    · rw [hq]; exact hmoves
    · exact Moves.refl hp

end HTram

end Htram
