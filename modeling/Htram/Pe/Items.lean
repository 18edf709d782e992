import Htram.Pe.Admitted
import Htram.Pe.LaneGate
import Htram.Pe.LaneItems

/-!
# What happens to the items of a session

* `HTram.session_conserved`: every item handed in for a destination is held for it, in its
  buffer, in a message shipped to it, or was passed to `on_absorb`, each as often as it
  was handed in.
* `HTram.session_gated`: an item enters a buffer when its bucket is admitted, or as a
  filler of a flush.
-/

namespace Htram

open CombiningHold

variable {α F : Type*}

/-- The items in a hold: those of the allocated entries that are not in `free_`. -/
def CombiningHold.items (h : CombiningHold α) : Multiset α := ∑ e ∈ h.heldSet, {h.payloads e}

/-- The items in a hold are those that its lists refer to. -/
theorem CombiningHold.HoldInv.items_eq {h : CombiningHold α} (hi : HoldInv h) :
    h.items = ∑ b ∈ Finset.range h.bucketCount,
      (((liveRefs h.stamps (h.lists b)).map fun r => h.payloads r.entry : List α) :
        Multiset α) := by
  have hmaps : ∀ e ∈ h.heldSet, h.buckets e ∈ Finset.range h.bucketCount := fun e he =>
    Finset.mem_range.mpr (hi.bucketLt e (mem_heldSet.mp he))
  unfold CombiningHold.items
  rw [← Finset.sum_fiberwise_of_maps_to hmaps]
  refine Finset.sum_congr rfl fun b _ => ?_
  have hfiber : (h.heldSet.filter fun e => h.buckets e = b).val =
      ((List.range h.pool).filter fun e => e ∉ h.free ∧ h.buckets e = b : List ℕ) := by
    rw [heldSet, Finset.filter_filter]
    rfl
  rw [Finset.sum_eq_multiset_sum, hfiber, Multiset.coe_eq_coe.mpr (hi.list.entries_perm b)]
  have hsingle := Multiset.sum_map_singleton
    (((liveRefs h.stamps (h.lists b)).map fun r => h.payloads r.entry : List α) : Multiset α)
  rw [Multiset.map_coe, List.map_map] at hsingle
  rw [Multiset.map_coe, List.map_map]
  exact hsingle

namespace Dest

/-- The items held for a destination. -/
def held (cfg : Config α) (k : Knobs F) (d : Dest α) : Multiset α :=
  if k.combining then d.hold.items
  else ∑ b ∈ Finset.range cfg.histoBucketCount, ((d.tramHold b).toList : Multiset α)

theorem Settled.held_eq {cfg : Config α} {k : Knobs F} {d : Dest α} (hd : d.Settled cfg k) :
    d.held cfg k = heldItems cfg.histoBucketCount (d.lane cfg k).held := by
  unfold held heldItems bagged lane
  cases hk : k.combining with
  | true =>
    obtain ⟨-, a, ha⟩ := (settled_on hk).mp hd
    simp only [if_true, List.map_map, Function.comp_def]
    rw [ha.refines.inv.items_eq, ha.bucketCount]
  | false => simp [List.map_map, Function.comp_def]

end Dest

/-- The items of the inputs. -/
def handed (xs : List (Input α)) : Multiset α := (xs.map Input.item : List α)

theorem Lane.Blank.items {cfg : Config α} {L : Lane α} (hL : L.Blank) : L.items cfg = 0 := by
  unfold Lane.items Lane.present heldItems
  rw [hL.buffer, hL.sent, hL.retired, Finset.sum_eq_zero fun b _ => by rw [hL.held b]; rfl]
  rfl

namespace HTram

/-- Every item handed in for destination `d` is held, in the buffer, shipped or retired. -/
def Conserved (cfg : Config α) (ops : List (Op α F)) (q : HTram α F) : Prop :=
  ∀ d < q.destCount cfg, handed (inputsOf cfg q.knobs.agg ops d) =
    (q.dest d).held cfg q.knobs + payloads (q.dest d).msgBuffer.items +
      shipped (q.dest d).sent + (q.dest d).hold.retired

theorem Ran.conserved {cfg : Config α} {agg : Agg} {combining : Bool} {R : Rules}
    (hboth : R.fold = true → cfg.KeepsBoth) {ops : List (Op α F)} {q : HTram α F}
    (hq : Ran cfg agg combining R ops q) : q.Conserved cfg ops := by
  intro d hd
  obtain ⟨L, hblank, hvalid, -, hpath⟩ := hq.path d (hq.destCount ▸ hd)
  have hitems := hpath.items hboth hvalid
  rw [hblank.items, zero_add] at hitems
  rw [handed, hq.agg_eq, ← hitems, (hq.steady.dest d hd).held_eq]
  rfl

variable [Inhabited α] [ReleaseArith F]

/-- With a `combine` that keeps exactly its two items, and if no call meets a reference
    about to be taken for current, no item is lost or duplicated: each is where its
    destination is. -/
theorem session_conserved {cfg : Config α} (hboth : cfg.KeepsBoth) {agg : Agg} (hagg : agg ≠ .WsP)
    {bufSize : ℕ} (hpos : 0 < bufSize) {combining : Bool} {pre ops : List (Op α F)}
    (hpre : ∀ op ∈ pre, op.Idle ∧ op.InRange cfg agg combining)
    (hrange : ∀ op ∈ ops, op.InRange cfg agg combining)
    (hsafe : SafeSession cfg agg bufSize pre combining ops) :
    (session cfg agg bufSize pre combining ops).Holds (Conserved cfg ops) fun _ => False := by
  have hran := session_ran hagg hpos hpre hrange (fun op _ => op.rules_le combining) hsafe
  cases hr : session cfg agg bufSize pre combining ops with
  | aborts => trivial
  | hangs q => rw [hr] at hran; exact hran
  | returns q =>
    rw [hr] at hran
    have hq : Ran cfg agg combining ⟨combining, true, true⟩ ops q := hran
    exact hq.conserved fun _ => hboth

theorem oneNode_keepsBoth : oneNode.KeepsBoth := by
  intro y x
  show ({(minCombine y x).1} + {(minCombine y x).2.1} : Multiset KeyValue) = {y} + {x}
  unfold minCombine
  split_ifs
  · exact add_comm _ _
  · rfl

/-- Two items for one key, of which one is retired. -/
theorem session_conserved_two :
    (session oneNode .WPs 4 [] true [offer 1 7, offer 1 2, (.tflush false : Op KeyValue ℚ)]).Holds
      (Conserved oneNode [offer 1 7, offer 1 2, .tflush false]) fun _ => False := by
  have hrange : ∀ op ∈ ([offer 1 7, offer 1 2, .tflush false] : List (Op KeyValue ℚ)),
      op.InRange oneNode .WPs true := by
    simp [offer, Op.InRange, oneNode]
  refine session_conserved oneNode_keepsBoth (by decide) (by decide) (by simp) hrange ?_
  exact safeSession_of_few (by decide) (by decide) (by simp) hrange fun d hd => by
    obtain rfl : d = 0 := Nat.lt_one_iff.mp hd
    decide

/-- Without the last condition an item that was shipped can enter the buffer again, and the
    flush that puts it there does not return. -/
theorem session_conserved_wraps :
    (∀ op ∈ hangingRun, op.InRange oneNode .WPs true) ∧
      ∃ q, session oneNode .WPs 4 [] true hangingRun = .hangs q ∧
        ¬ q.Conserved oneNode hangingRun := by
  constructor
  · refine List.forall_mem_append.mpr ⟨forall_wearing ?_, ?_⟩ <;>
      simp [offer, Op.InRange, oneNode]
  · obtain ⟨q, hq, hk, hheld, hbuffer, hcard, -⟩ := hangingRun_hangs
    refine ⟨q, hq, fun h => ?_⟩
    have h0 := congrArg Multiset.card (h 0 (by unfold destCount; rw [hk]; exact Nat.one_pos))
    have hinputs : (inputsOf oneNode .WPs hangingRun 0).length = 3 + (2 ^ 31 - 1) := by
      rw [hangingRun, inputsOf, List.flatMap_append, List.length_append]
      have hw := inputsOf_wearing (2 ^ 31 - 1)
      rw [inputsOf] at hw
      rw [hw]
      rfl
    have hnone : (q.dest 0).held oneNode (wornKnobs 7) = 0 := by
      show ∑ e ∈ (q.dest 0).hold.heldSet, _ = _
      rw [hheld, Finset.sum_empty]
    have hagg : (wornKnobs 7).agg = .WPs := rfl
    rw [hk, hnone, hagg, handed, payloads] at h0
    simp only [Multiset.coe_card, List.length_map, hinputs, Multiset.card_add, hbuffer,
      Multiset.card_zero] at h0
    omega

/-! ## Gating -/

end HTram

/-- The call is one of the flushes. -/
def Op.Flushes : Op α F → Prop
  | .tflush _ | .flushStale | .flushIdle _ => True
  | _ => False

instance (op : Op α F) : Decidable op.Flushes :=
  match op with
  | .tflush _ | .flushStale | .flushIdle _ => isTrue trivial
  | .send .. | .sendTo .. | .insertValue .. | .insertValueWPs .. | .changeThreshold ..
  | .coarsenBuckets .. | .setBufferSize .. => isFalse id

theorem Op.flush_eq {op : Op α F} (hop : ¬ op.Flushes) (combining : Bool) :
    (op.rules combining).flush = false := by
  cases op with
  | tflush | flushStale | flushIdle => exact absurd trivial hop
  | send | sendTo | insertValue | insertValueWPs | changeThreshold | coarsenBuckets
    | setBufferSize => rfl

theorem Lane.Blank.gated {L : Lane α} (hL : L.Blank) : L.Gated :=
  ⟨by simp [hL.buffer], by simp [hL.sent]⟩

namespace HTram

/-- What is in the buffers was admitted when it entered, and each message carries what
    the flushes promise. -/
def Gated (cfg : Config α) (q : HTram α F) : Prop :=
  ∀ d < q.destCount cfg,
    (∀ x ∈ (q.dest d).msgBuffer.items, x.Admitted) ∧ ∀ s ∈ (q.dest d).sent, s.Gated

/-- What has been shipped since `p` carries no filler. -/
def PlainSince (cfg : Config α) (p q : HTram α F) : Prop :=
  ∀ d < p.destCount cfg, ∀ s ∈ (q.dest d).sent.drop (p.dest d).sent.length, s.Plain

variable [Inhabited α] [ReleaseArith F]

/-- Every item in a buffer or a message was in an admitted bucket when it entered or is a
    filler of a flush, with the bounds on fillers; and a call that is not a flush ships no
    filler. -/
theorem session_gated {cfg : Config α} {agg : Agg} (hagg : agg ≠ .WsP) {bufSize : ℕ}
    (hpos : 0 < bufSize) {combining : Bool} {pre ops : List (Op α F)}
    (hpre : ∀ op ∈ pre, op.Idle ∧ op.InRange cfg agg combining)
    (hrange : ∀ op ∈ ops, op.InRange cfg agg combining) (hdefer : ∀ op ∈ ops, op.Deferred)
    (hsafe : SafeSession cfg agg bufSize pre combining ops) :
    (session cfg agg bufSize pre combining ops).Holds
      (fun q => q.Gated cfg ∧ ∀ op : Op α F, op.InRange cfg agg combining → op.Deferred →
        ¬ op.Flushes → q.StampsSafe cfg op →
          (q.step cfg op).Holds (PlainSince cfg q) fun _ => False)
      fun _ => False := by
  have hran := session_ran hagg hpos hpre hrange (fun op _ => op.rules_le combining) hsafe
  cases hr : session cfg agg bufSize pre combining ops with
  | aborts => trivial
  | hangs q => rw [hr] at hran; exact hran
  | returns q =>
    rw [hr] at hran
    have hq : Ran cfg agg combining ⟨combining, true, true⟩ ops q := hran
    have hgated : ∀ d < q.destCount cfg, (q.lane cfg d).Gated := by
      intro d hd
      obtain ⟨L, hblank, -, -, hpath⟩ := hq.path d (hq.destCount ▸ hd)
      exact hpath.gated (inputsOf_deferred hdefer d) hblank.gated
    refine ⟨fun d hd => ⟨(hgated d hd).buffer, (hgated d hd).sent⟩,
      fun op hop hdeferred hflush hstamps => ?_⟩
    have hstep := step_moves hq.steady (by rw [hq.agg_eq, hq.combining_eq]; exact hop) hstamps
    unfold StepMoves at hstep
    cases hs : q.step cfg op with
    | aborts => trivial
    | hangs r => rw [hs] at hstep; exact hstep
    | returns r =>
      rw [hs] at hstep
      intro d hd
      exact (hstep.path d hd).plain (Op.flush_eq hflush _) (hdeferred.inputs cfg _ d) (hgated d hd)

/-- A send that is held back, and one that a flush ships. -/
theorem session_gated_two :
    (session oneNode .WPs 4 [] true
      [.changeThreshold 0 3 1, offer 1 7, offer 2 2, (.tflush false : Op KeyValue ℚ)]).Holds
      (fun q => q.Gated oneNode ∧ ∀ op : Op KeyValue ℚ, op.InRange oneNode .WPs true →
        op.Deferred → ¬ op.Flushes → q.StampsSafe oneNode op →
          (q.step oneNode op).Holds (PlainSince oneNode q) fun _ => False)
      fun _ => False := by
  have hrange : ∀ op ∈ ([.changeThreshold 0 3 1, offer 1 7, offer 2 2, .tflush false] :
      List (Op KeyValue ℚ)), op.InRange oneNode .WPs true := by
    simp [offer, Op.InRange, oneNode]
  refine session_gated (by decide) (by decide) (by simp) hrange (by simp [offer, Op.Deferred]) ?_
  exact safeSession_of_few (by decide) (by decide) (by simp) hrange fun d hd => by
    obtain rfl : d = 0 := Nat.lt_one_iff.mp hd
    decide

/-- Without the last condition a flush can ship an item from a bucket above the threshold
    that is no filler. -/
theorem session_gated_wraps :
    ¬ ∀ ops : List (Op KeyValue ℚ), (∀ op ∈ ops, op.InRange oneNode .WPs true ∧ op.Deferred) →
      (session oneNode .WPs 4 [] true ops).Holds (Gated oneNode) fun _ => False := by
  intro h
  obtain ⟨q, hq, hk, -, s, hs, x, hx, hfiller, hbucket, hthr⟩ := earlyRun_returns
  have hgated := h earlyRun (by
    refine List.forall_mem_append.mpr ⟨forall_wearing ?_, ?_⟩ <;>
      simp [offer, Op.InRange, Op.Deferred, oneNode])
  rw [hq] at hgated
  have hsent := ((show q.Gated oneNode from hgated) 0
    (by unfold destCount; rw [hk]; exact Nat.one_pos)).2 s hs
  rcases hsent.items x hx with ⟨-, b, hb, hle⟩ | ⟨hf, -⟩
  · rw [hbucket] at hb
    rw [hthr] at hle
    cases hb
    omega
  · rw [hfiller] at hf
    cases hf

end HTram

end Htram
