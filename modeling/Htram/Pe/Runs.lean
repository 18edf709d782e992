import Htram.Pe.Steps

/-!
# Runs of a PE

* `HTram.run_moves`: a run that is in range and never meets a reference about to be taken
  for current returns or aborts, and each lane takes a path.
* `HTram.session_ran`: the same for a client's session with a new PE.
* `HTram.safeSession_of_few`: fewer than `2 ^ 31` items for each destination meet no such
  reference.
-/

namespace Htram

open CombiningHold

variable {α F : Type*}

/-- What a run hands to destination `d`. -/
def inputsOf (cfg : Config α) (agg : Agg) (ops : List (Op α F)) (d : ℕ) : List (Input α) :=
  ops.flatMap fun op => op.inputs cfg agg d

namespace Op

theorem Idle.inputs {op : Op α F} (hop : op.Idle) (cfg : Config α) (agg : Agg) (d : ℕ) :
    op.inputs cfg agg d = [] := by
  cases op with
  | send | sendTo | insertValue | insertValueWPs => exact hop.elim
  | changeThreshold | coarsenBuckets | setBufferSize | tflush | flushStale | flushIdle => rfl

theorem InRange.off {cfg : Config α} {agg : Agg} {combining : Bool} {op : Op α F}
    (hop : op.InRange cfg agg combining) : op.InRange cfg agg false := by
  cases op with
  | changeThreshold direct t selectivity => exact ⟨hop.1, fun h => by cases h⟩
  | _ => exact hop

theorem rules_le (op : Op α F) (combining : Bool) :
    (op.rules combining).Le ⟨combining, true, true⟩ := by
  cases op <;> exact ⟨id, fun _ => rfl, fun _ => rfl⟩

end Op

theorem inputsOf_idle {cfg : Config α} {agg : Agg} {ops : List (Op α F)}
    (hops : ∀ op ∈ ops, op.Idle) (d : ℕ) : inputsOf cfg agg ops d = [] :=
  List.flatMap_eq_nil_iff.mpr fun op hop => (hops op hop).inputs cfg agg d

/-- The entry method that takes the buffers of a mode. -/
def Agg.entry (agg : Agg) : Entry := if agg = .WW then .receiveOnPE else .receive

variable [Inhabited α]

/-- In the first `2 ^ 31` sends there is nothing to meet. -/
theorem Dest.sendSafe_of_early {cfg : Config α} {k : Knobs F} {d : Dest α}
    {a : KeyedHold UInt64 α} (ha : d.Folded cfg a) {n : ℕ} (he : Early d.hold n)
    (hn : n + 1 < 2 ^ 31) (x : α) {b : ℕ} (hb : b < cfg.histoBucketCount) :
    d.SendSafe cfg k x b := by
  have hroomy := he.roomy hn
  have hinsert := hroomy.fresh.insertSafe cfg.ops x b
  have hrefines := (insert_refines ha.refines cfg.ops x (ha.bucketCount ▸ hb) hinsert).1
  exact ⟨hinsert, (insert_freshHeld ha.refines.inv hroomy cfg.ops x b).drainSafe hrefines.inv _⟩

namespace HTram

/-- Each destination's stamps after at most `n d` items for it. -/
def EarlyFor (cfg : Config α) (p : HTram α F) (n : ℕ → ℕ) : Prop :=
  p.knobs.combining = true → ∀ d < p.destCount cfg, Early (p.dest d).hold (n d)

theorem EarlyFor.stampsSafe {cfg : Config α} {p : HTram α F} {n : ℕ → ℕ}
    (he : p.EarlyFor cfg n) (hp : p.Steady cfg) {op : Op α F}
    (hop : op.InRange cfg p.knobs.agg p.knobs.combining)
    (hn : ∀ d < p.destCount cfg, n d + (op.inputs cfg p.knobs.agg d).length < 2 ^ 31) :
    p.StampsSafe cfg op := by
  intro hk d hd
  have hlt := hn d hd
  obtain ⟨-, a, ha⟩ := (Dest.settled_on hk).mp (hp.dest d hd)
  have hsend : ∀ x b, b < cfg.histoBucketCount → op.inputs cfg p.knobs.agg d ≠ [] →
      (p.dest d).SendSafe cfg p.knobs x b := by
    intro x b hb hne
    have := List.length_pos_iff.mpr hne
    exact Dest.sendSafe_of_early ha (he hk d hd) (by omega) x hb
  have hrelease : ∀ high, (p.dest d).hold.DrainSafe high := fun high =>
    ((he hk d hd).freshHeld (by omega)).drainSafe ha.refines.inv high
  cases op with
  | send x b => exact fun h => hsend x b hop (by simp [Op.inputs, h])
  | sendTo x b pe => exact fun h => hsend x b hop (by simp [Op.inputs, h])
  | changeThreshold direct t selectivity => exact hrelease t
  | tflush | flushStale | flushIdle => exact hrelease _
  | insertValue | insertValueWPs | coarsenBuckets | setBufferSize => trivial

variable [ReleaseArith F]

theorem run_append {cfg : Config α} {ops ops' : List (Op α F)} :
    ∀ (p : HTram α F), p.run cfg (ops ++ ops') = (p.run cfg ops).andThen (run cfg ops') := by
  induction ops with
  | nil => intro p; rfl
  | cons op ops ih =>
    intro p
    rw [List.cons_append, run, run]
    cases p.step cfg op with
    | returns q => exact ih q
    | aborts => rfl
    | hangs q => rfl

/-- No call of the run meets a reference about to be taken for current. -/
def SafeRun (cfg : Config α) : List (Op α F) → HTram α F → Prop
  | [], _ => True
  | op :: ops, p =>
    p.StampsSafe cfg op ∧ ∀ q, p.step cfg op = .returns q → SafeRun cfg ops q

/-- With combining off there is nothing to meet. -/
theorem safeRun_off {cfg : Config α} :
    ∀ (ops : List (Op α F)) (p : HTram α F), p.Steady cfg → p.knobs.combining = false →
      (∀ op ∈ ops, op.InRange cfg p.knobs.agg p.knobs.combining) → SafeRun cfg ops p := by
  intro ops
  induction ops with
  | nil => intro p _ _ _; trivial
  | cons op ops ih =>
    intro p hp hoff hops
    have hsafe : p.StampsSafe cfg op := fun hon => by rw [hoff] at hon; cases hon
    refine ⟨hsafe, fun q hq => ?_⟩
    have hstep := step_moves hp (hops op (List.mem_cons_self ..)) hsafe
    rw [hq] at hstep
    have hm : Moves cfg _ _ p q := hstep
    refine ih q hm.steady (hm.combining.trans hoff) fun op' h => ?_
    rw [hm.agg, hm.combining]
    exact hops op' (List.mem_cons_of_mem _ h)

/-- What a run does to a PE. -/
structure RunMoves (cfg : Config α) (R : Rules) (ops : List (Op α F)) (p q : HTram α F) :
    Prop where
  steady : q.Steady cfg
  agg : q.knobs.agg = p.knobs.agg
  combining : q.knobs.combining = p.knobs.combining
  path : ∀ d < p.destCount cfg, Path cfg R (inputsOf cfg p.knobs.agg ops d) (p.lane cfg d)
    (q.lane cfg d)

theorem run_moves {cfg : Config α} {R : Rules} :
    ∀ (ops : List (Op α F)) (p : HTram α F), p.Steady cfg →
      (∀ op ∈ ops, op.InRange cfg p.knobs.agg p.knobs.combining) →
      (∀ op ∈ ops, (op.rules p.knobs.combining).Le R) → SafeRun cfg ops p →
      (p.run cfg ops).Holds (RunMoves cfg R ops p) fun _ => False := by
  intro ops
  induction ops with
  | nil => intro p hp _ _ _; exact ⟨hp, rfl, rfl, fun _ _ => .nil _⟩
  | cons op ops ih =>
    intro p hp hops hR hsafe
    have hstep := step_moves hp (hops op (List.mem_cons_self ..)) hsafe.1
    rw [run]
    cases hq : p.step cfg op with
    | aborts => trivial
    | hangs q => rw [hq] at hstep; exact hstep.elim
    | returns q =>
      rw [hq] at hstep
      have hm : Moves cfg _ _ p q := hstep
      have hrun := ih q hm.steady
        (fun op' h => by rw [hm.agg, hm.combining]; exact hops op' (List.mem_cons_of_mem _ h))
        (fun op' h => by rw [hm.combining]; exact hR op' (List.mem_cons_of_mem _ h))
        (hsafe.2 q hq)
      show (q.run cfg ops).Holds _ _
      cases hr : q.run cfg ops with
      | aborts => trivial
      | hangs r => rw [hr] at hrun; exact hrun
      | returns r =>
        rw [hr] at hrun
        refine ⟨hrun.steady, hrun.agg.trans hm.agg, hrun.combining.trans hm.combining,
          fun d hd => ?_⟩
        have h1 := (hm.path d hd).mono (hR op (List.mem_cons_self ..))
        have h2 := hrun.path d (hm.destCount ▸ hd)
        rw [hm.agg] at h2
        exact h1.trans h2

/-! ### From a new PE -/

/-- A PE that has been handed no item. -/
structure Unsent (cfg : Config α) (p : HTram α F) : Prop extends Steady cfg p where
  blank : ∀ d < p.destCount cfg, (p.lane cfg d).Blank
  early : p.EarlyFor cfg fun _ => 0

theorem init_unsent (cfg : Config α) {agg : Agg} (hagg : agg ≠ .WsP) {bufSize : ℕ}
    (hpos : 0 < bufSize) : (init agg bufSize : HTram α F).Unsent cfg where
  agg := hagg
  threshold := by simp [init]
  dest := fun d _ =>
    (Dest.settled_off rfl).mpr ⟨Dest.init_sized hpos, Dest.init_stored cfg _⟩
  blank := fun _ _ => ⟨fun _ => rfl, rfl, rfl, rfl, rfl⟩
  early := fun hk => by cases hk

omit [Inhabited α] [ReleaseArith F] in
theorem Unsent.lane_valid {cfg : Config α} {p : HTram α F} (hp : p.Unsent cfg) {d : ℕ}
    (hd : d < p.destCount cfg) : (p.lane cfg d).Valid cfg :=
  ⟨fun b _ => (hp.blank d hd).held b, hp.threshold⟩

omit [ReleaseArith F] in
/-- `enableCombining` before the first item. -/
theorem enableCombining_unsent {cfg : Config α} {p : HTram α F} (hp : p.Unsent cfg)
    (hoff : p.knobs.combining = false) :
    ∃ q, p.enableCombining cfg = .returns q ∧ q.Unsent cfg ∧ q.knobs.agg = p.knobs.agg ∧
      q.knobs.combining = true := by
  have hclear : ¬ ∃ d < p.destCount cfg,
      (p.dest d).updatesInTram ≠ 0 ∨ (p.dest d).msgBuffer.next ≠ 0 := by
    rintro ⟨d, hd, h⟩
    have hitems : (p.dest d).msgBuffer.items = [] := (hp.blank d hd).buffer
    have hnext := (hp.dest d hd).sized.sound.written
    rw [hitems] at hnext
    exact h.elim (fun hne => hne (hp.blank d hd).updates) fun hne => hne hnext.symm
  unfold enableCombining
  rw [if_neg hp.agg, if_neg (by simp [hoff]), if_neg hclear]
  refine ⟨_, rfl, ⟨⟨hp.agg, hp.threshold, fun d hd => ?_⟩, fun d hd => ?_, fun _ d _ => ?_⟩,
    rfl, rfl⟩
  · exact (hp.dest d hd).newHold rfl rfl
  · obtain ⟨hheld, hbuffer, hupdates, hsent, hretired⟩ := hp.blank d hd
    refine ⟨fun b => ?_, hbuffer, hupdates, hsent, init_retired cfg.histoBucketCount⟩
    simp [lane, Dest.lane, liveRefs]
  · exact init_early _

theorem opened_unsent {cfg : Config α} {agg : Agg} (hagg : agg ≠ .WsP) {bufSize : ℕ}
    (hpos : 0 < bufSize) {pre : List (Op α F)} {combining : Bool}
    (hpre : ∀ op ∈ pre, op.Idle ∧ op.InRange cfg agg combining) :
    (opened cfg agg bufSize pre combining).Holds
      (fun p => p.Unsent cfg ∧ p.knobs.agg = agg ∧ p.knobs.combining = combining)
      fun _ => False := by
  have hinit : (init agg bufSize : HTram α F).Unsent cfg := init_unsent cfg hagg hpos
  have hin : ∀ op ∈ pre, op.InRange cfg agg false := fun op hop => Op.InRange.off (hpre op hop).2
  have hrun := run_moves (R := ⟨false, true, true⟩) pre (init agg bufSize : HTram α F)
    hinit.toSteady hin (fun op _ => op.rules_le false) (safeRun_off pre _ hinit.toSteady rfl hin)
  refine Outcome.Holds.andThen hrun fun p hp => ?_
  have hunsent : p.Unsent cfg := by
    refine ⟨hp.steady, fun d hd => ?_, fun hk => by rw [hp.combining] at hk; cases hk⟩
    have hd' : d < (init agg bufSize : HTram α F).destCount cfg := by
      unfold HTram.destCount at hd ⊢
      rwa [hp.agg] at hd
    have hpath := hp.path d hd'
    rw [inputsOf_idle fun op hop => (hpre op hop).1] at hpath
    exact hpath.blank (hinit.blank d hd')
  cases combining with
  | false => exact ⟨hunsent, hp.agg, hp.combining⟩
  | true =>
    obtain ⟨q, hq, hunsent', hagg', hcomb⟩ := enableCombining_unsent hunsent hp.combining
    rw [if_pos rfl, hq]
    exact ⟨hunsent', hagg'.trans hp.agg, hcomb⟩

/-- A PE that enables combining first, or not at all. -/
theorem opened_nil {cfg : Config α} {agg : Agg} (hagg : agg ≠ .WsP) {bufSize : ℕ}
    (hpos : 0 < bufSize) (combining : Bool) :
    ∃ p, opened cfg agg bufSize ([] : List (Op α F)) combining = .returns p := by
  cases combining with
  | false => exact ⟨_, rfl⟩
  | true =>
    obtain ⟨q, hq, -⟩ := enableCombining_unsent (init_unsent (F := F) cfg hagg hpos) rfl
    exact ⟨q, hq⟩

/-- With combining on, no call of `ops` meets a reference about to be taken for current. -/
def SafeSession (cfg : Config α) (agg : Agg) (bufSize : ℕ) (pre : List (Op α F))
    (combining : Bool) (ops : List (Op α F)) : Prop :=
  combining = true → ∀ p, opened cfg agg bufSize pre combining = .returns p → SafeRun cfg ops p

/-- A PE after the calls `ops`. -/
structure Ran (cfg : Config α) (agg : Agg) (combining : Bool) (R : Rules) (ops : List (Op α F))
    (q : HTram α F) : Prop where
  steady : q.Steady cfg
  agg_eq : q.knobs.agg = agg
  combining_eq : q.knobs.combining = combining
  path : ∀ d < cfg.destCount agg, ∃ L : Lane α, L.Blank ∧ L.Valid cfg ∧ L.entry = agg.entry ∧
    Path cfg R (inputsOf cfg agg ops d) L (q.lane cfg d)

omit [Inhabited α] [ReleaseArith F] in
theorem Ran.destCount {cfg : Config α} {agg : Agg} {combining : Bool} {R : Rules}
    {ops : List (Op α F)} {q : HTram α F} (hq : Ran cfg agg combining R ops q) :
    q.destCount cfg = cfg.destCount agg := by
  unfold HTram.destCount
  rw [hq.agg_eq]

theorem session_ran {cfg : Config α} {agg : Agg} (hagg : agg ≠ .WsP) {bufSize : ℕ}
    (hpos : 0 < bufSize) {combining : Bool} {R : Rules} {pre ops : List (Op α F)}
    (hpre : ∀ op ∈ pre, op.Idle ∧ op.InRange cfg agg combining)
    (hops : ∀ op ∈ ops, op.InRange cfg agg combining)
    (hR : ∀ op ∈ ops, (op.rules combining).Le R)
    (hsafe : SafeSession cfg agg bufSize pre combining ops) :
    (session cfg agg bufSize pre combining ops).Holds (Ran cfg agg combining R ops)
      fun _ => False := by
  have hopened := opened_unsent (F := F) hagg hpos hpre
  unfold session
  unfold SafeSession at hsafe
  cases ho : opened cfg agg bufSize pre combining with
  | aborts => trivial
  | hangs p => rw [ho] at hopened; exact hopened
  | returns p =>
    rw [ho] at hopened hsafe
    obtain ⟨hunsent, hagg', hcomb⟩ := hopened
    have hin : ∀ op ∈ ops, op.InRange cfg p.knobs.agg p.knobs.combining := by
      rw [hagg', hcomb]; exact hops
    have hsafe' : SafeRun cfg ops p := by
      by_cases hc : combining = true
      · exact hsafe hc p rfl
      · exact safeRun_off ops p hunsent.toSteady (hcomb.trans (by simpa using hc)) hin
    have hrun := run_moves (R := R) ops p hunsent.toSteady hin (by rw [hcomb]; exact hR) hsafe'
    show (p.run cfg ops).Holds _ _
    cases hr : p.run cfg ops with
    | aborts => trivial
    | hangs q => rw [hr] at hrun; exact hrun
    | returns q =>
      rw [hr] at hrun
      refine ⟨hrun.steady, hrun.agg.trans hagg', hrun.combining.trans hcomb, fun d hd => ?_⟩
      have hd' : d < p.destCount cfg := by unfold HTram.destCount; rwa [hagg']
      refine ⟨p.lane cfg d, hunsent.blank d hd', hunsent.lane_valid hd', ?_, ?_⟩
      · rw [← hagg']; rfl
      · have hp := hrun.path d hd'
        rwa [hagg'] at hp

/-! ### Runs with few items -/

omit [ReleaseArith F] in
theorem EarlyFor.moves {cfg : Config α} {R : Rules} {p q : HTram α F} {n : ℕ → ℕ}
    {xs : ℕ → List (Input α)} (he : p.EarlyFor cfg n) (hp : p.Steady cfg)
    (hm : Moves cfg R xs p q) (hn : ∀ d < p.destCount cfg, n d + (xs d).length < 2 ^ 31) :
    q.EarlyFor cfg fun d => n d + (xs d).length := by
  intro hk d hd
  rw [hm.combining] at hk
  rw [hm.destCount] at hd
  have hlt := hn d hd
  show Early _ (n d + (xs d).length)
  obtain ⟨h, hrel, rfl | ⟨hne, x, b, rfl⟩⟩ := hm.hold hk d hd
  · exact ((he hk d hd).released hrel (by omega)).mono (by omega)
  · have hpos := List.length_pos_iff.mpr hne
    exact (((he hk d hd).insert ((hp.dest d hd).holdInv hk) (by omega) cfg.ops x b).released hrel
      (by omega)).mono (by omega)

theorem safeRun_of_early {cfg : Config α} :
    ∀ (ops : List (Op α F)) (p : HTram α F) (n : ℕ → ℕ), p.Steady cfg → p.EarlyFor cfg n →
      (∀ op ∈ ops, op.InRange cfg p.knobs.agg p.knobs.combining) →
      (∀ d < p.destCount cfg, n d + (inputsOf cfg p.knobs.agg ops d).length < 2 ^ 31) →
      SafeRun cfg ops p := by
  intro ops
  induction ops with
  | nil => intro p n _ _ _ _; trivial
  | cons op ops ih =>
    intro p n hp he hops hn
    have hcons : ∀ d, inputsOf cfg p.knobs.agg (op :: ops) d =
        op.inputs cfg p.knobs.agg d ++ inputsOf cfg p.knobs.agg ops d := fun d => rfl
    have hlen : ∀ d < p.destCount cfg, n d + (op.inputs cfg p.knobs.agg d).length +
        (inputsOf cfg p.knobs.agg ops d).length < 2 ^ 31 := by
      intro d hd
      have := hn d hd
      rw [hcons, List.length_append] at this
      omega
    have hsafe : p.StampsSafe cfg op := he.stampsSafe hp
      (hops op (List.mem_cons_self ..)) fun d hd => by have := hlen d hd; omega
    refine ⟨hsafe, fun q hq => ?_⟩
    have hstep := step_moves hp (hops op (List.mem_cons_self ..)) hsafe
    rw [hq] at hstep
    have hm : Moves cfg _ _ p q := hstep
    refine ih q (fun d => n d + (op.inputs cfg p.knobs.agg d).length) hm.steady
      (he.moves hp hm fun d hd => by have := hlen d hd; omega)
      (fun op' h => by rw [hm.agg, hm.combining]; exact hops op' (List.mem_cons_of_mem _ h))
      fun d hd => ?_
    rw [hm.agg]
    exact hlen d (hm.destCount ▸ hd)

/-- With fewer than `2 ^ 31` items for each destination, no reference in a hold is ever
    about to be taken for current. -/
theorem safeSession_of_few {cfg : Config α} {agg : Agg} (hagg : agg ≠ .WsP) {bufSize : ℕ}
    (hpos : 0 < bufSize) {combining : Bool} {pre ops : List (Op α F)}
    (hpre : ∀ op ∈ pre, op.Idle ∧ op.InRange cfg agg combining)
    (hops : ∀ op ∈ ops, op.InRange cfg agg combining)
    (hfew : ∀ d < cfg.destCount agg, (inputsOf cfg agg ops d).length < 2 ^ 31) :
    SafeSession cfg agg bufSize pre combining ops := by
  intro _ p hp
  have hopened := opened_unsent (F := F) hagg hpos hpre
  rw [hp] at hopened
  obtain ⟨hunsent, hagg', hcomb⟩ := hopened
  refine safeRun_of_early ops p _ hunsent.toSteady hunsent.early ?_ ?_
  · rw [hagg', hcomb]; exact hops
  · intro d hd
    unfold HTram.destCount at hd
    rw [hagg'] at hd ⊢
    have := hfew d hd
    omega

end HTram

end Htram
