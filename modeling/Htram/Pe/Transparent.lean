import Htram.Pe.Acts
import Htram.Pe.Items

/-!
# Transparency of combining

* `HTram.session_closed`: a session that ends with a flush of everything returns with
  everything shipped or retired.
* `HTram.combining_transparent`: with a combine that keeps the smaller item, combining
  changes neither the least value shipped for a key nor adds an item.
-/

namespace Htram

open CombiningHold

variable {α F : Type*}

/-! ## Calls that return -/

namespace Op

/-- The calls of a client that only sends, moves the thresholds and flushes, with the
    buckets and destinations in range. -/
def Served (cfg : Config α) (agg : Agg) : Op α F → Prop
  | .send x b => b < cfg.histoBucketCount ∧ cfg.destOf agg (cfg.getDestProc x) < cfg.destCount agg
  | .sendTo _ b pe => b < cfg.histoBucketCount ∧ cfg.destOf agg pe < cfg.destCount agg
  | .changeThreshold _ t _ => -1 ≤ t ∧ t < cfg.histoBucketCount
  | .tflush _ | .flushStale | .flushIdle _ => True
  | _ => False

theorem Served.inRange {cfg : Config α} {agg : Agg} {op : Op α F} (hop : op.Served cfg agg)
    (combining : Bool) : op.InRange cfg agg combining := by
  cases op with
  | send | sendTo => exact hop.1
  | changeThreshold => exact ⟨hop.1, fun _ => hop.2⟩
  | tflush | flushStale | flushIdle => trivial
  | insertValue | insertValueWPs | coarsenBuckets | setBufferSize => exact hop.elim

/-- The two calls that ship everything. -/
def closing (cfg : Config α) (direct : ℤ) (selectivity : F) (idleflush : Bool) : List (Op α F) :=
  [.changeThreshold direct (cfg.histoBucketCount - 1) selectivity, .tflush idleflush]

theorem closing_served (cfg : Config α) (agg : Agg) (direct : ℤ) (selectivity : F)
    (idleflush : Bool) : ∀ op ∈ closing cfg direct selectivity idleflush, op.Served cfg agg := by
  intro op hop
  simp only [closing, List.mem_cons, List.not_mem_nil, or_false] at hop
  rcases hop with rfl | rfl
  · constructor <;> omega
  · trivial

end Op

namespace HTram

theorem eachDest_ne_aborts (f : Dest α → Dest α) :
    ∀ (ds : List ℕ) (p : HTram α F), eachDest f ds p ≠ .aborts := by
  intro ds
  induction ds with
  | nil => intro p h; cases h
  | cons d ds ih =>
    intro p
    rw [eachDest, onDest]
    split_ifs
    · intro h; cases h
    · exact ih _

variable [Inhabited α] [ReleaseArith F]

/-- Calls that are served do not abort. -/
theorem step_ne_aborts {cfg : Config α} {p : HTram α F} {op : Op α F}
    (hop : op.Served cfg p.knobs.agg) : p.step cfg op ≠ .aborts := by
  have hsend : ∀ (x : α) (b pe : ℕ), cfg.destOf p.knobs.agg pe < cfg.destCount p.knobs.agg →
      p.sendItemPrioDeferredDestTo cfg x b pe ≠ .aborts := by
    intro x b pe hpe
    unfold sendItemPrioDeferredDestTo
    dsimp only
    rw [if_neg (show ¬ _ ≥ p.destCount cfg from Nat.not_le.mpr hpe), onDest]
    split_ifs <;> (intro h; cases h)
  cases op with
  | send x b => exact hsend x b _ hop.2
  | sendTo x b pe => exact hsend x b pe hop.2
  | changeThreshold direct t selectivity =>
    show p.changeThreshold cfg direct t selectivity ≠ .aborts
    unfold changeThreshold
    split_ifs
    · intro h; cases h
    · exact eachDest_ne_aborts _ _ _
  | tflush idleflush => exact eachDest_ne_aborts _ _ _
  | flushStale =>
    show p.flushStale cfg ≠ .aborts
    unfold flushStale
    split_ifs <;> exact eachDest_ne_aborts _ _ _
  | flushIdle elapsed =>
    show p.flushIdle cfg elapsed ≠ .aborts
    unfold flushIdle
    split_ifs
    · exact eachDest_ne_aborts _ _ _
    · intro h; cases h
  | insertValue | insertValueWPs | coarsenBuckets | setBufferSize => exact hop.elim

/-- One call that is served returns. -/
theorem step_returns {cfg : Config α} {p : HTram α F} (hp : p.Steady cfg) {op : Op α F}
    (hop : op.Served cfg p.knobs.agg) (hs : p.StampsSafe cfg op) :
    ∃ q, p.step cfg op = .returns q ∧
      Moves cfg (op.rules p.knobs.combining) (fun d => op.inputs cfg p.knobs.agg d) p q := by
  have hstep := step_moves hp (hop.inRange p.knobs.combining) hs
  unfold StepMoves at hstep
  cases hq : p.step cfg op with
  | aborts => exact absurd hq (step_ne_aborts hop)
  | hangs q => rw [hq] at hstep; exact hstep.elim
  | returns q => rw [hq] at hstep; exact ⟨q, rfl, hstep⟩

theorem run_returns {cfg : Config α} :
    ∀ (ops : List (Op α F)) (p : HTram α F), p.Steady cfg →
      (∀ op ∈ ops, op.Served cfg p.knobs.agg) → SafeRun cfg ops p →
      ∃ q, p.run cfg ops = .returns q ∧ q.Steady cfg ∧ q.knobs.agg = p.knobs.agg := by
  intro ops
  induction ops with
  | nil => intro p hp _ _; exact ⟨p, rfl, hp, rfl⟩
  | cons op ops ih =>
    intro p hp hops hsafe
    obtain ⟨q, hq, hm⟩ := step_returns hp (hops op (List.mem_cons_self ..)) hsafe.1
    obtain ⟨r, hr, hsteady, hagg⟩ := ih q hm.steady
      (fun op' h => by rw [hm.agg]; exact hops op' (List.mem_cons_of_mem _ h)) (hsafe.2 q hq)
    refine ⟨r, ?_, hsteady, hagg.trans hm.agg⟩
    rw [run, hq]
    exact hr

theorem SafeRun.append {cfg : Config α} {ops ops' : List (Op α F)} :
    ∀ {p : HTram α F}, SafeRun cfg (ops ++ ops') p →
      SafeRun cfg ops p ∧ ∀ q, p.run cfg ops = .returns q → SafeRun cfg ops' q := by
  induction ops with
  | nil => intro p h; exact ⟨trivial, fun q hq => by cases hq; exact h⟩
  | cons op ops ih =>
    rintro p ⟨h1, h2⟩
    refine ⟨⟨h1, fun q hq => (ih (h2 q hq)).1⟩, fun r hr => ?_⟩
    rw [run] at hr
    cases hq : p.step cfg op with
    | returns q => rw [hq] at hr; exact (ih (h2 q hq)).2 r hr
    | aborts => rw [hq] at hr; cases hr
    | hangs q => rw [hq] at hr; cases hr

omit [Inhabited α] in
/-- The threshold after `changeThreshold`. -/
theorem changeThreshold_threshold {cfg : Config α} {p q : HTram α F} {direct t : ℤ}
    {selectivity : F} (hq : p.changeThreshold cfg direct t selectivity = .returns q) :
    q.knobs.tramThreshold = t := by
  unfold changeThreshold at hq
  split_ifs at hq with hsame
  · cases hq; exact hsame.1.symm
  · rw [(forDest_returns hq).1]
    rfl

/-- After the closing calls nothing is left. -/
theorem closing_flushed {cfg : Config α} {p : HTram α F} (hp : p.Steady cfg) {direct : ℤ}
    {selectivity : F} {idleflush : Bool}
    (hsafe : SafeRun cfg (Op.closing cfg direct selectivity idleflush) p) :
    ∃ q, p.run cfg (Op.closing cfg direct selectivity idleflush) = .returns q ∧
      ∀ d < q.destCount cfg, (q.lane cfg d).Flushed ∧
        (q.lane cfg d).threshold = cfg.histoBucketCount - 1 := by
  have hserved := Op.closing_served cfg p.knobs.agg direct selectivity idleflush
  obtain ⟨p', hp', hm⟩ := step_returns hp (hserved _ (List.mem_cons_self ..)) hsafe.1
  obtain ⟨q, hq, hknobs, hflush, hflushed⟩ := tflush_moves (R := ⟨true, true, true⟩) rfl
    hm.steady idleflush (hsafe.2 p' hp').1
  refine ⟨q, ?_, fun d hd => ⟨hflushed d (hflush.destCount ▸ hd), ?_⟩⟩
  · rw [Op.closing, run, hp']
    show (p'.tflush cfg idleflush).andThen _ = _
    rw [hq]; rfl
  · show q.knobs.tramThreshold = _
    rw [hknobs]
    exact changeThreshold_threshold hp'

end HTram

/-! ## What is shipped -/

/-- The values of the shipped items with key `κ`. -/
def shippedValues {β : Type*} (cfg : Config α) (val : α → β) (κ : UInt64) (sent : List (Sent α)) :
    Set β := {w | ∃ x ∈ shipped sent, cfg.ops.key x = κ ∧ val x = w}

/-- A lane from which everything has been shipped. -/
theorem Lane.Flushed.present {cfg : Config α} {L : Lane α} (hL : L.Flushed)
    (hthr : L.threshold = cfg.histoBucketCount - 1) : L.present cfg = shipped L.sent := by
  unfold Lane.present heldItems
  rw [hL.buffer, Finset.sum_eq_zero fun b hb => ?_]
  · simp
  · rw [hL.drained b (by rw [hthr]; have := Finset.mem_range.mp hb; omega)]
    rfl

/-- Without folds nothing is retired. -/
theorem Path.retired {cfg : Config α} {R : Rules} (hR : R.fold = false) {xs : List (Input α)}
    {L L' : Lane α} (hp : Path cfg R xs L L') (hL : L.Valid cfg) : L'.retired = L.retired := by
  induction hp with
  | nil L => rfl
  | snoc hp hm ih =>
    rcases hm.present (hp.valid hL) with ⟨hr, -⟩ | ⟨x, b, pe, y, c, hfold, -⟩
    · exact hr.trans (ih hL)
    · rw [hR] at hfold; cases hfold

theorem Lane.Blank.keyed {cfg : Config α} {L : Lane α} (hL : L.Blank) : L.Keyed cfg :=
  fun b e he => by rw [hL.held b] at he; cases he

theorem Lane.Blank.dominated {β : Type*} [LE β] {cfg : Config α} {val : α → β} {L : Lane α}
    (hL : L.Blank) : L.Dominated cfg val := fun r hr => by rw [hL.retired] at hr; cases hr

/-- A combine that keeps the item with the smaller value, the held one if they are equal. -/
def Config.MinCombine {β : Type*} [LinearOrder β] (cfg : Config α) (val : α → β) : Prop :=
  ∀ held incoming, cfg.ops.combine held incoming =
    if val incoming < val held then (incoming, held, true) else (held, incoming, false)

namespace Config.MinCombine

variable {β : Type*} [LinearOrder β] {cfg : Config α} {val : α → β}

theorem keepsBoth (h : cfg.MinCombine val) : cfg.KeepsBoth := by
  intro y x
  rw [h y x]
  split_ifs
  · exact add_comm _ _
  · rfl

theorem keepsLeast (h : cfg.MinCombine val) : cfg.KeepsLeast val := by
  intro y x hk
  rw [h y x]
  split_ifs with hlt
  · exact ⟨rfl, hk, hlt.le, hlt.le⟩
  · exact ⟨hk, rfl, le_refl _, not_lt.mp hlt⟩

end Config.MinCombine

namespace HTram

variable [Inhabited α] [ReleaseArith F]

/-- A session that ends with the closing calls returns, with everything shipped or
    retired. -/
theorem session_closed {cfg : Config α} {agg : Agg} (hagg : agg ≠ .WsP) {bufSize : ℕ}
    (hpos : 0 < bufSize) {combining : Bool} {ops : List (Op α F)}
    (hops : ∀ op ∈ ops, op.Served cfg agg) {direct : ℤ} {selectivity : F} {idleflush : Bool}
    (hsafe : SafeSession cfg agg bufSize [] combining
      (ops ++ Op.closing cfg direct selectivity idleflush)) :
    ∃ q, session cfg agg bufSize [] combining
        (ops ++ Op.closing cfg direct selectivity idleflush) = .returns q ∧
      Ran cfg agg combining ⟨combining, true, true⟩
        (ops ++ Op.closing cfg direct selectivity idleflush) q ∧
      ∀ d < cfg.destCount agg, (q.lane cfg d).present cfg = shipped (q.dest d).sent := by
  obtain ⟨p, hp⟩ : ∃ p : HTram α F, opened cfg agg bufSize [] combining = .returns p :=
    opened_nil hagg hpos combining
  have hunsent : (opened cfg agg bufSize ([] : List (Op α F)) combining).Holds
      (fun p => p.Unsent cfg ∧ p.knobs.agg = agg ∧ p.knobs.combining = combining) fun _ => False :=
    opened_unsent hagg hpos (by simp)
  rw [hp] at hunsent
  obtain ⟨hunsent, hagg', hcomb⟩ := hunsent
  have hserved : ∀ op ∈ ops ++ Op.closing cfg direct selectivity idleflush,
      op.Served cfg agg := by
    intro op hop
    rcases List.mem_append.mp hop with hop | hop
    · exact hops op hop
    · exact Op.closing_served cfg agg direct selectivity idleflush op hop
  have hrange := fun op hop => (hserved op hop).inRange combining
  have hsafe' : SafeRun cfg (ops ++ Op.closing cfg direct selectivity idleflush) p := by
    by_cases hc : combining = true
    · exact hsafe hc p hp
    · refine safeRun_off _ p hunsent.toSteady (hcomb.trans (by simpa using hc)) ?_
      rw [hagg', hcomb]
      exact hrange
  obtain ⟨p', hp', hsteady, -⟩ := run_returns ops p hunsent.toSteady
    (by rw [hagg']; exact hops) hsafe'.append.1
  obtain ⟨q, hq, hflushed⟩ := closing_flushed hsteady (hsafe'.append.2 p' hp')
  have hreturns : session cfg agg bufSize [] combining
      (ops ++ Op.closing cfg direct selectivity idleflush) = .returns q := by
    unfold session
    rw [hp]
    show p.run cfg _ = _
    rw [run_append, hp']
    exact hq
  have hran := session_ran hagg hpos (by simp) hrange
    (fun op _ => op.rules_le combining) hsafe
  rw [hreturns] at hran
  have hq' : Ran cfg agg combining ⟨combining, true, true⟩ _ q := hran
  refine ⟨q, hreturns, hq', fun d hd => ?_⟩
  obtain ⟨h1, h2⟩ := hflushed d (by rw [hq'.destCount]; exact hd)
  exact h1.present h2

/-- With combining off a closed session ships what it is handed. -/
theorem session_off_shipped {cfg : Config α} {agg : Agg} (hagg : agg ≠ .WsP) {bufSize : ℕ}
    (hpos : 0 < bufSize) {ops : List (Op α F)} (hops : ∀ op ∈ ops, op.Served cfg agg)
    (direct : ℤ) (selectivity : F) (idleflush : Bool) :
    ∃ p, session cfg agg bufSize [] false
        (ops ++ Op.closing cfg direct selectivity idleflush) = .returns p ∧
      ∀ d < cfg.destCount agg, shipped (p.dest d).sent =
        handed (inputsOf cfg agg (ops ++ Op.closing cfg direct selectivity idleflush) d) := by
  have hoff : SafeSession cfg agg bufSize [] false
      (ops ++ Op.closing cfg direct selectivity idleflush) := fun h => by cases h
  obtain ⟨p, hp, hran, hpresent⟩ := session_closed hagg hpos hops hoff
  refine ⟨p, hp, fun d hd => ?_⟩
  obtain ⟨L, hblank, hvalid, -, hpath⟩ := hran.path d hd
  have hitems := hpath.items (fun h => by cases h) hvalid
  have hretired : (p.lane cfg d).retired = [] := (hpath.retired rfl hvalid).trans hblank.retired
  rw [hblank.items, Lane.items, hretired, hpresent d hd] at hitems
  rw [handed, ← zero_add ((_ : List α) : Multiset α), ← hitems]
  exact (add_zero _).symm

/-- For a client with a combine that keeps the smaller item, a session that ends with the
    closing calls ships with combining on, for each destination, some of the items that it
    ships with combining off, and the same least value for each key, if no call of the
    former meets a reference about to be taken for current. -/
theorem combining_transparent {β : Type*} [LinearOrder β] {cfg : Config α} {val : α → β}
    (hmin : cfg.MinCombine val) {agg : Agg} (hagg : agg ≠ .WsP) {bufSize : ℕ} (hpos : 0 < bufSize)
    {ops : List (Op α F)} (hops : ∀ op ∈ ops, op.Served cfg agg) (direct : ℤ) (selectivity : F)
    (idleflush : Bool)
    (hsafe : SafeSession cfg agg bufSize [] true
      (ops ++ Op.closing cfg direct selectivity idleflush)) :
    ∃ p q, session cfg agg bufSize [] false
        (ops ++ Op.closing cfg direct selectivity idleflush) = .returns p ∧
      session cfg agg bufSize [] true
        (ops ++ Op.closing cfg direct selectivity idleflush) = .returns q ∧
      ∀ d < cfg.destCount agg, shipped (q.dest d).sent ≤ shipped (p.dest d).sent ∧
        ∀ κ v, IsLeast (shippedValues cfg val κ (q.dest d).sent) v ↔
          IsLeast (shippedValues cfg val κ (p.dest d).sent) v := by
  obtain ⟨p, hp, hshipped⟩ := session_off_shipped hagg hpos hops direct selectivity idleflush
  obtain ⟨q, hq, hranq, hpresentq⟩ := session_closed hagg hpos hops hsafe
  refine ⟨p, q, hp, hq, fun d hd => ?_⟩
  obtain ⟨M, hblank', hvalid', -, hpath'⟩ := hranq.path d hd
  -- both runs are handed the same items
  have hitems' := hpath'.items (fun _ => hmin.keepsBoth) hvalid'
  rw [hblank'.items, Lane.items, hpresentq d hd, zero_add] at hitems'
  have hall : shipped (q.dest d).sent + ((q.lane cfg d).retired : Multiset α) =
      shipped (p.dest d).sent := hitems'.trans (hshipped d hd).symm
  have hle : shipped (q.dest d).sent ≤ shipped (p.dest d).sent :=
    hall ▸ Multiset.le_add_right _ _
  obtain ⟨-, hdom⟩ := hpath'.dominated (fun _ => hmin.keepsLeast) hvalid' hblank'.keyed
    hblank'.dominated
  -- what is shipped off is shipped on, or retired for something that is and is not larger
  have hcover : ∀ κ, ∀ w ∈ shippedValues cfg val κ (p.dest d).sent,
      ∃ w' ∈ shippedValues cfg val κ (q.dest d).sent, w' ≤ w := by
    rintro κ w ⟨x, hx, hk, rfl⟩
    rw [← hall] at hx
    rcases Multiset.mem_add.mp hx with hx | hx
    · exact ⟨val x, ⟨x, hx, hk, rfl⟩, le_refl _⟩
    · obtain ⟨y, hy, hky, hle⟩ := hdom x hx
      rw [hpresentq d hd] at hy
      exact ⟨val y, ⟨y, hy, hky.trans hk, rfl⟩, hle⟩
  have hsub : ∀ κ, shippedValues cfg val κ (q.dest d).sent ⊆
      shippedValues cfg val κ (p.dest d).sent := by
    rintro κ w ⟨x, hx, hk, rfl⟩
    exact ⟨x, Multiset.mem_of_le hle hx, hk, rfl⟩
  refine ⟨hle, fun κ v => ⟨fun ⟨hv, hlow⟩ => ⟨hsub κ hv, fun w hw => ?_⟩,
    fun ⟨hv, hlow⟩ => ?_⟩⟩
  · obtain ⟨w', hw', hww⟩ := hcover κ w hw
    exact (hlow hw').trans hww
  · obtain ⟨w', hw', hww⟩ := hcover κ v hv
    have : w' = v := le_antisymm hww (hlow (hsub κ hw'))
    exact ⟨this ▸ hw', fun w hw => hlow (hsub κ hw)⟩

theorem oneNode_minCombine : oneNode.MinCombine KeyValue.value := fun _ _ => rfl

/-- Two items for one key. -/
theorem combining_transparent_two :
    ∃ p q : HTram KeyValue ℚ,
      session oneNode .WPs 4 [] false ([offer 1 7, offer 1 2] ++ Op.closing oneNode 0 1 false) =
        .returns p ∧
      session oneNode .WPs 4 [] true ([offer 1 7, offer 1 2] ++ Op.closing oneNode 0 1 false) =
        .returns q ∧
      ∀ d < oneNode.destCount .WPs, shipped (q.dest d).sent ≤ shipped (p.dest d).sent ∧
        ∀ κ v, IsLeast (shippedValues oneNode KeyValue.value κ (q.dest d).sent) v ↔
          IsLeast (shippedValues oneNode KeyValue.value κ (p.dest d).sent) v := by
  have hserved : ∀ op ∈ [offer 1 7, offer 1 2], op.Served oneNode .WPs := by
    simp [offer, Op.Served, oneNode, Config.destOf, Config.nodeOf, Config.destCount]
  refine combining_transparent oneNode_minCombine (by decide) (by decide) hserved 0 1 false ?_
  refine safeSession_of_few (by decide) (by decide) (by simp) ?_ fun d hd => ?_
  · intro op hop
    rcases List.mem_append.mp hop with hop | hop
    · exact (hserved op hop).inRange true
    · exact (Op.closing_served oneNode .WPs 0 1 false op hop).inRange true
  · obtain rfl : d = 0 := Nat.lt_one_iff.mp hd
    decide

/-- Without the last condition the run with combining on may not end, and the least value
    of a key that the other run ships is not shipped. -/
theorem combining_wraps :
    (∀ op ∈ wearing (2 ^ 31 - 1), op.Served oneNode .WPs) ∧
      ∃ p q : HTram KeyValue ℚ,
        session oneNode .WPs 4 [] false (wearing (2 ^ 31 - 1) ++ Op.closing oneNode 0 1 false) =
          .returns p ∧
        session oneNode .WPs 4 [] true (wearing (2 ^ 31 - 1) ++ Op.closing oneNode 0 1 false) =
          .hangs q ∧
        IsLeast (shippedValues oneNode KeyValue.value 0 (p.dest 0).sent) 2 ∧
        shippedValues oneNode KeyValue.value 0 (q.dest 0).sent = ∅ := by
  have hserved : ∀ op ∈ wearing (2 ^ 31 - 1), op.Served oneNode .WPs := by
    refine forall_wearing ?_
    simp [offer, Op.Served, oneNode, Config.destOf, Config.nodeOf, Config.destCount]
  obtain ⟨p, hp, hshipped⟩ := session_off_shipped (show Agg.WPs ≠ .WsP by decide)
    (show 0 < 4 by decide) hserved 0 1 false
  obtain ⟨q, hq, -, -, -, -, hkeys⟩ := hangingRun_hangs
  refine ⟨hserved, p, q, hp, hq, ⟨?_, ?_⟩, ?_⟩
  · refine ⟨⟨0, 2⟩, ?_, rfl, rfl⟩
    rw [hshipped 0 Nat.one_pos]
    refine List.mem_map.mpr ⟨.send ⟨0, 2⟩ 2 0, List.mem_flatMap.mpr ⟨offer 0 2, ?_, ?_⟩, rfl⟩
    · exact List.mem_append_left _ (offer_mem_wearing _)
    · exact List.mem_singleton_self _
  · -- no other item has key 0
    rintro w ⟨x, hx, hk, rfl⟩
    rw [hshipped 0 Nat.one_pos] at hx
    obtain ⟨i, hi, rfl⟩ := List.mem_map.mp hx
    obtain ⟨op, hop, hi⟩ := List.mem_flatMap.mp hi
    have hall : ∀ op ∈ wearing (2 ^ 31 - 1) ++ Op.closing oneNode 0 1 false,
        ∀ i ∈ op.inputs oneNode .WPs 0, i.item.key = 0 → i.item.value = 2 := by
      refine List.forall_mem_append.mpr ⟨forall_wearing ?_, ?_⟩ <;>
        simp [offer, Op.inputs, Op.closing, oneNode, Config.destOf, Config.nodeOf, Input.item]
    exact (hall op hop i hi hk).ge
  · refine Set.eq_empty_of_forall_notMem fun w => ?_
    rintro ⟨x, hx, hk, -⟩
    rw [show oneNode.ops.key x = x.key from rfl, hkeys x hx] at hk
    exact absurd hk (by decide)

end HTram

end Htram
