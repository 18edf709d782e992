import Htram.Pe.Acts

/-!
# The bodies in small steps

Every body of `Pe.Dest` is made of the same few changes to a destination: an item moves
from a hold to the buffer, a count or a bit changes, the buffer leaves. What these keep,
the bodies keep.

* `Dest.Closed`: a property that the small steps keep, with one lemma for each body.
* `Op.act_closed`: the calls that tune a PE keep it.
-/

namespace Htram

variable {α F : Type*}

namespace Dest

/-- `I` is kept by each small step, where items may come in whose PE and payload satisfy
    `P`, and buffers leave by `shipBuffer(d, full)`, full ones only if `full`. -/
structure Closed (cfg : Config α) (k : Knobs F) (full : Bool) (P : ℕ → α → Prop)
    (I : Dest α → Prop) : Prop where
  counts : ∀ {d : Dest α} (u : ℤ) (bits : WordBits.Row), I d →
    I { d with updatesInTram := u, holdBits := bits }
  front : ∀ {d : Dest α} {b : ℕ} {y : α}, I d → (d.tramHold b).front = some y →
    P (cfg.getDestProc y) y
  pop : ∀ {d : Dest α} (b : ℕ), I d →
    I { d with tramHold := Function.update d.tramHold b (d.tramHold b).pop }
  push : ∀ {d : Dest α} (b : ℕ) {y : α}, P (cfg.getDestProc y) y → I d →
    I { d with tramHold := Function.update d.tramHold b ((d.tramHold b).push y) }
  put : ∀ {d : Dest α} {x : Item α}, P x.destPe x.payload → I d → I (d.put x)
  grow : ∀ {d : Dest α} (n : ℕ), I d → I { d with msgBuffer := d.msgBuffer.grow n }
  ship : ∀ {d : Dest α}, (full = true → k.bufSize ≤ d.msgBuffer.next) → I d →
    I (d.shipBuffer k full)
  released : ∀ {d : Dest α} {high limit : ℤ} {e : Emitted α}, I d →
    e ∈ (d.hold.release high limit).2 → P (cfg.getDestProc e.item) e.item
  release : ∀ {d : Dest α} (high limit : ℤ), I d →
    I { d with hold := (d.hold.release high limit).1 }

namespace Closed

variable {cfg : Config α} {k : Knobs F} {full : Bool} {P : ℕ → α → Prop} {I : Dest α → Prop}
  {d : Dest α}

theorem uncount (hI : Closed cfg k full P I) (hd : I d) : I d.uncount := hI.counts _ d.holdBits hd

theorem holdEmptied (hI : Closed cfg k full P I) (b : ℕ) (hd : I d) : I (d.holdEmptied b) :=
  hI.counts d.updatesInTram _ hd

theorem holdPush (hI : Closed cfg k full P I) (b : ℕ) {y : α} (hy : P (cfg.getDestProc y) y)
    (hd : I d) : I (d.holdPush b y) := hI.counts d.updatesInTram _ (hI.push b hy hd)

theorem holdTake (hI : Closed cfg k full P I) (b : ℕ) (hd : I d) : I (d.holdTake b) := by
  rw [holdTake_eq]
  exact hI.counts d.updatesInTram _ (hI.pop b hd)

/-- Every fill site: write an item, and ship if the buffer is full now. -/
theorem putShip (hI : Closed cfg k full P I) {x : Item α} (hx : P x.destPe x.payload) (hd : I d) :
    I (if (d.put x).msgBuffer.next = k.bufSize then (d.put x).uncount.shipBuffer k full
      else d.put x) := by
  have hput := hI.put hx hd
  split_ifs with hnext
  · exact hI.ship (fun _ => hnext.ge) (hI.uncount hput)
  · exact hput

/-! ## Holds -/

theorem releaseInto (hI : Closed cfg k full P I) (high limit : ℤ) (filler : Bool) (hd : I d) :
    I (d.releaseInto cfg k high limit filler) := by
  unfold Dest.releaseInto
  refine List.foldlRecOn _ _ (hI.release high limit hd) fun x hx e he => ?_
  exact hI.put (hI.released hd he) hx

theorem takeFiller (hI : Closed cfg k full P I) {i : ℕ} {y : α}
    (hy : (d.tramHold i).front = some y) (hd : I d) : I (takeFiller cfg k i y d) :=
  hI.put (hI.front hd hy) (hI.holdTake i hd)

theorem fillFromDest (hI : Closed cfg k full P I) (i : ℕ) :
    ∀ (fuel : ℕ) (d : Dest α), I d → I (fillFromDest cfg k i fuel d) := by
  intro fuel
  induction fuel with
  | zero => intro d hd; exact hd
  | succ fuel ih =>
    intro d hd
    rw [Dest.fillFromDest]
    cases hy : (d.tramHold i).front with
    | none => exact hd
    | some y =>
      dsimp only
      split_ifs
      · exact ih _ (hI.takeFiller hy hd)
      · exact hd

theorem fillersDest (hI : Closed cfg k full P I) (hd : I d) : I (fillersDest cfg k d) :=
  WordBits.forNext_inv (fun i x hx => hI.fillFromDest i _ x hx) _ _ _ hd

theorem fillFromFlush (hI : Closed cfg k full P I) (i : ℕ) :
    ∀ (fuel : ℕ) (d : Dest α), I d → I (fillFromFlush cfg k i fuel d) := by
  intro fuel
  induction fuel with
  | zero => intro d hd; exact hd
  | succ fuel ih =>
    intro d hd
    rw [Dest.fillFromFlush]
    cases hy : (d.tramHold i).front with
    | none => exact hd
    | some y =>
      have hnext := hI.takeFiller (k := k) hy hd
      dsimp only
      split_ifs
      · exact hnext
      · exact ih _ hnext

theorem fillersFlush (hI : Closed cfg k full P I) (hd : I d) : I (fillersFlush cfg k d) := by
  unfold Dest.fillersFlush
  split_ifs
  · exact WordBits.forNext_inv (fun i x hx => hI.fillFromFlush i _ x hx) _ _ _ hd
  · exact hd

theorem fillersHold (hI : Closed cfg k full P I) (hd : I d) : I (d.fillersHold cfg k) := by
  unfold Dest.fillersHold
  split_ifs
  · exact hI.releaseInto _ _ _ hd
  · exact hd

theorem mergeBucket (hI : Closed cfg k full P I) (i j : ℕ) :
    ∀ (fuel : ℕ) (d : Dest α), I d → I (mergeBucket i j fuel d) := by
  intro fuel
  induction fuel with
  | zero => intro d hd; exact hd
  | succ fuel ih =>
    intro d hd
    rw [Dest.mergeBucket]
    cases hy : (d.tramHold i).front with
    | none => exact hd
    | some y => exact ih _ (hI.pop i (hI.holdPush j (hI.front hd hy) hd))

theorem coarsen (hI : Closed cfg k full P I) (factor : ℕ) (keepTop : Bool) (hd : I d) :
    I (d.coarsen cfg k factor keepTop) := by
  have hmerged : ∀ admitBelow, I (d.admitMerged cfg k.tramThreshold admitBelow) := by
    intro admitBelow
    exact WordBits.forNext_inv (I := I) (fun i x hx => hI.counts _ x.holdBits hx) _ _ _ hd
  refine WordBits.forNext_inv (I := I) (fun i x hx => ?_) _ _ _ (hmerged _)
  split_ifs
  · exact hx
  · exact hI.holdEmptied i (hI.mergeBucket i _ _ x hx)

theorem retune (hI : Closed cfg k full P I) (newThreshold : ℤ) (hd : I d) :
    I (d.retune cfg k newThreshold) := by
  unfold Dest.retune
  split_ifs
  · exact hI.counts _ d.holdBits hd
  · exact WordBits.forNext_inv (I := I) (fun i x hx => hI.counts _ x.holdBits hx) _ _ _ hd
  · exact hd

theorem countInsert (hI : Closed cfg k full P I) (r : InsertResult) (hd : I d) :
    I (d.countInsert k r) := by
  have hcount : ∀ u : ℤ, I { d with updatesInTram := u } := fun u => hI.counts u d.holdBits hd
  unfold Dest.countInsert
  dsimp only
  split_ifs <;> first
    | exact hd
    | exact hcount _

/-! ## Releases -/

theorem insertValueWPsTo (hI : Closed cfg k true P I) {y : α} {pe : ℕ} (hy : P pe y)
    (bucket : Option ℕ) (hd : I d) : I (d.insertValueWPsTo k y pe bucket) := by
  unfold Dest.insertValueWPsTo
  exact hI.putShip hy hd

theorem enqueue (hI : Closed cfg k true P I) {y : α} {pe : ℕ} (hy : P (cfg.getDestProc y) y)
    (hpe : P pe y) (b : ℕ) (hd : I d) : I (d.enqueue k y b pe) := by
  have hup : I { d with updatesInTram := d.updatesInTram + 1 } := hI.counts _ d.holdBits hd
  unfold Dest.enqueue
  dsimp only
  split_ifs
  · exact hI.holdPush b hy hd
  · exact hI.holdPush b hy hup
  · exact hI.insertValueWPsTo hpe _ hup

/-- `hship` says that `I` is kept where `insertValue` ships under `WW`, which does not add to
    `tot_send_count`. -/
theorem insertValue (hI : Closed cfg k true P I)
    (hship : ∀ x : Dest α, k.bufSize ≤ x.msgBuffer.next → I x →
      I ({ x with fullSends := x.fullSends + 1 : Dest α }.send k))
    (hagg : k.agg ≠ .WsP) {y : α} {pe : ℕ} (hpe : P pe y) (rank : ℕ) (hd : I d) :
    I (d.insertValue cfg k y pe rank) := by
  have hput := hI.put (x := ⟨pe, y, d.fill k none false⟩) hpe hd
  have hputShip := hI.putShip (x := ⟨pe, y, d.fill k none false⟩) hpe hd
  unfold Dest.insertValue
  dsimp only
  cases hk : k.agg with
  | WsP => exact absurd hk hagg
  | WPs => exact hputShip
  | WW =>
    dsimp only
    split_ifs with hnext
    · exact hship _ hnext.ge (hI.uncount hput)
    · exact hput

section Releases

variable [ReleaseArith F]

theorem insertBucket (hI : Closed cfg k true P I) (i : ℕ) :
    ∀ (fuel : ℕ) (d : Dest α), I d → I (insertBucket cfg k i fuel d) := by
  intro fuel
  induction fuel with
  | zero => intro d hd; exact hd
  | succ fuel ih =>
    intro d hd
    rw [Dest.insertBucket]
    cases hy : (d.tramHold i).front with
    | none => exact hd
    | some y =>
      have hnext := hI.putShip (x := ⟨cfg.getDestProc y, y, d.fill k (some i) false⟩)
        (hI.front hd hy) (hI.holdTake i hd)
      dsimp only
      generalize (if ((d.holdTake i).put _).msgBuffer.next = k.bufSize then _ else _ :
        Dest α) = x at hnext ⊢
      split_ifs
      · exact hnext
      · exact ih x hnext

theorem insertBucketsByDest (hI : Closed cfg k true P I) (high : ℤ) (hd : I d) :
    I (d.insertBucketsByDest cfg k high) :=
  WordBits.forNext_inv (fun i x hx => hI.insertBucket i _ x hx) _ _ _ hd

theorem releaseOver (hI : Closed cfg k true P I) (hd : I d) : I (d.releaseOver cfg k) := by
  unfold Dest.releaseOver
  split_ifs
  · exact hI.insertBucketsByDest _ hd
  · exact hd

theorem releaseFullLoop (hI : Closed cfg k true P I) :
    ∀ (fuel : ℕ) (d : Dest α), I d → I (releaseFullLoop cfg k fuel d) := by
  intro fuel
  induction fuel with
  | zero => intro d hd; exact hd
  | succ fuel ih =>
    intro d hd
    have hrel : I (d.releaseAdmitted cfg k) := hI.releaseInto _ _ _ hd
    rw [Dest.releaseFullLoop]
    dsimp only
    split_ifs with _ hpart
    · exact hrel
    · rw [not_or, not_lt] at hpart
      exact ih _ (hI.ship (fun _ => hpart.2) (hI.uncount hrel))
    · exact hd

theorem releaseAbove (hI : Closed cfg k true P I) (hd : I d) : I (d.releaseAbove cfg k) := by
  unfold Dest.releaseAbove
  split_ifs
  · exact hI.releaseFullLoop _ _ hd
  · exact hI.insertBucketsByDest _ hd
  · exact hd

/-- `hinsert` says that `I` is kept where the item is inserted into the hold. -/
theorem sendItem [Inhabited α] (hI : Closed cfg k true P I) {y : α} {b pe : ℕ}
    (hinsert : k.combining = true → I { d with hold := (d.hold.insert cfg.ops y b).1 })
    (hy : P (cfg.getDestProc y) y) (hpe : P pe y) (hd : I d) : I (d.sendItem cfg k y b pe) := by
  unfold Dest.sendItem sendHold
  split_ifs with hk
  · have hcount := hI.countInsert (k := k) (d.hold.insert cfg.ops y b).2 (hinsert hk)
    dsimp only
    split_ifs
    · exact hinsert hk
    · exact hI.releaseFullLoop _ _ hcount
    · exact hcount
  · exact hI.releaseOver (hI.enqueue hy hpe b hd)

theorem resize (hI : Closed cfg k true P I) (hd : I d) : I (d.resize cfg k) := by
  apply hI.releaseOver
  unfold refit
  split_ifs with _ hfull
  · exact hI.grow _ hd
  · exact hI.ship (fun _ => hfull) (hI.uncount hd)
  · exact hd

end Releases

/-! ## Flushes -/

theorem drainBucket (hI : Closed cfg k false P I) (i : ℕ) :
    ∀ (fuel : ℕ) (d : Dest α), I d → I (drainBucket cfg k i fuel d) := by
  intro fuel
  induction fuel with
  | zero => intro d hd; exact hd
  | succ fuel ih =>
    intro d hd
    rw [Dest.drainBucket]
    cases hy : (d.tramHold i).front with
    | none => exact hd
    | some y =>
      apply ih
      exact hI.putShip (hI.front hd hy) (hI.pop i hd)

theorem drain (hI : Closed cfg k false P I) (hd : I d) : I (d.drain cfg k) :=
  WordBits.forNext_inv (fun i _ hx => hI.drainBucket i _ _ (hI.holdEmptied i hx)) _ _ _ hd

theorem shipPartial (hI : Closed cfg k false P I) {fillers : Dest α → Dest α}
    (hfill : ∀ x, I x → I (fillers x)) (hd : I d) : I (d.shipPartial cfg k fillers) := by
  unfold Dest.shipPartial
  dsimp only
  split_ifs
  · exact hd
  · exact hI.ship (by simp) (hfill _ (hI.uncount hd))
  · exact hI.ship (by simp) (hI.uncount hd)

theorem flushHeldLoop (hI : Closed cfg k false P I) :
    ∀ (fuel : ℕ) (d : Dest α), I d → I (flushHeldLoop cfg k fuel d) := by
  intro fuel
  induction fuel with
  | zero => intro d hd; exact hd
  | succ fuel ih =>
    intro d hd
    have hrel : I (d.releaseAdmitted cfg k) := hI.releaseInto _ _ _ hd
    rw [Dest.flushHeldLoop]
    split_ifs
    · exact hrel
    · exact ih _ (hI.ship (by simp) (hI.uncount hrel))

theorem shipHeld (hI : Closed cfg k false P I) (hd : I d) : I (d.shipHeld cfg k) := by
  have hship : ∀ x : Dest α, I x → I (if x.hold.stuck then x else x.shipBuffer k false) := by
    intro x hx
    split_ifs
    · exact hx
    · exact hI.ship (by simp) hx
  unfold Dest.shipHeld
  split_ifs
  · exact hd
  · exact hship _ (hI.fillersHold (hI.uncount hd))
  · exact hship _ (hI.uncount hd)

theorem flushDest (hI : Closed cfg k false P I) (hd : I d) : I (d.flushDest cfg k) := by
  have hloop := hI.flushHeldLoop (d.hold.count + 1) d hd
  unfold Dest.flushDest flushHold flushQueue
  dsimp only
  split_ifs
  · exact hloop
  · exact hI.shipHeld hloop
  · exact hI.shipPartial (fun _ hx => hI.fillersDest hx) (hI.drain hd)

theorem flushIfAny (hI : Closed cfg k false P I) (hd : I d) : I (d.flushIfAny cfg k) := by
  unfold Dest.flushIfAny
  split_ifs
  · exact hI.flushDest hd
  · exact hd

/-- `hreset` says that `I` does not depend on `full_sends`. -/
theorem flushIfStale (hI : Closed cfg k false P I)
    (hreset : ∀ x, I x → I { x with fullSends := 0 }) (hd : I d) : I (d.flushIfStale cfg k) := by
  have hstale : ∀ x : Dest α, I x → I (if x.hold.stuck then x else { x with fullSends := 0 }) := by
    intro x hx
    split_ifs
    · exact hx
    · exact hreset x hx
  apply hstale
  split_ifs
  · exact hI.flushDest hd
  · exact hd

/-- `hsend` says that `I` is kept where a buffer leaves uncounted. -/
theorem tflush (hI : Closed cfg k false P I) (hsend : ∀ x, I x → I (x.send k))
    (hagg : k.agg ≠ .WsP) (idleflush : Bool) (hd : I d) : I (d.tflush cfg k idleflush) := by
  have hbuffer : I (d.flushBuffer k) := by
    unfold flushBuffer
    split_ifs
    · exact hd
    · exact hsend _ (hI.uncount hd)
  unfold Dest.tflush
  split_ifs
  · exact hI.flushDest hd
  · refine hI.shipPartial (fun _ hx => hI.fillersFlush hx) (hI.drain ?_)
    split_ifs
    · exact hd
    · exact hbuffer

end Closed

end Dest

namespace Op

/-- The call changes settings. -/
def Tunes : Op α F → Prop
  | .changeThreshold .. | .coarsenBuckets .. | .setBufferSize .. => True
  | _ => False

variable [ReleaseArith F] [Inhabited α]

/-- What the bodies keep under any settings, the calls that tune a PE keep. -/
theorem act_closed {cfg : Config α} {k : Knobs F} {P : ℕ → α → Prop} {I : Dest α → Prop}
    (hI : ∀ k' : Knobs F, k'.agg = k.agg → Dest.Closed cfg k' true P I) {op : Op α F}
    (hop : op.Tunes) (d : ℕ) {x : Dest α}
    (hfresh : ∀ n, I { x with msgBuffer := newHTramMessage n }) (hx : I x) :
    I (op.act cfg k d x) := by
  cases op with
  | send | sendTo | insertValue | insertValueWPs | tflush | flushStale | flushIdle =>
    exact hop.elim
  | changeThreshold direct t selectivity =>
    dsimp only [act]
    split_ifs
    · exact hx
    · exact (hI (k.retuned direct t selectivity) rfl).releaseAbove ((hI k rfl).retune t hx)
  | coarsenBuckets factor keepTop =>
    dsimp only [act]
    split_ifs
    · exact hx
    · exact (hI (k.coarsened factor.toNat) rfl).releaseAbove ((hI k rfl).coarsen _ keepTop hx)
  | setBufferSize newSize =>
    dsimp only [act]
    split_ifs
    · exact hx
    · exact (hI (k.resized newSize) rfl).resize hx
    · exact hfresh newSize

end Op

end Htram
