import Htram.Pe.View
import Htram.Pe.LaneInv

/-!
# Combining off: the queues are a lane

With combining off a destination keeps its items in the queues `tram_hold[d][b]`, and
`hold_bits` tells which of them are not empty. `Dest.Queued` is what every function of
`Htram.Pe.Dest` keeps of this; under it each function is a path of the lane
`Dest.lane`.
-/

namespace Htram

variable {α F : Type*}

namespace Dest

/-- The bits tell which queues are not empty, and queues past the last bucket are. -/
structure Stored (cfg : Config α) (d : Dest α) : Prop where
  bits : ∀ b, WordBits.get d.holdBits b = true ↔ (d.tramHold b).toList ≠ []
  bounded : ∀ b ≥ cfg.histoBucketCount, (d.tramHold b).toList = []
  stuck : d.hold.stuck = false

/-- A destination between two operations, with combining off. -/
structure Queued (cfg : Config α) (k : Knobs F) (d : Dest α) : Prop
    extends Sized k.bufSize d, Stored cfg d

theorem Stored.congr {cfg : Config α} {d d' : Dest α} (hd : d.Stored cfg)
    (hbits : d'.holdBits = d.holdBits) (hq : d'.tramHold = d.tramHold) (hh : d'.hold = d.hold) :
    d'.Stored cfg := by
  obtain ⟨h1, h2, h3⟩ := hd
  exact ⟨by rwa [hbits, hq], by rwa [hq], by rwa [hh]⟩

theorem init_stored [Inhabited α] (cfg : Config α) (n : ℕ) : (Dest.init n : Dest α).Stored cfg := by
  refine ⟨fun b => ?_, fun _ _ => rfl, rfl⟩
  simp [Dest.init, WordBits.get]

theorem Queued.lane_bounded {cfg : Config α} {k : Knobs F} (hk : k.combining = false)
    {d : Dest α} (hd : d.Queued cfg k) : (d.lane cfg k).Bounded cfg := by
  intro b hb
  show (if k.combining then _ else (d.tramHold b).toList.map _) = []
  rw [hk, hd.bounded b hb]
  rfl

/-! ## Single queue operations -/

theorem Stored.holdNext_some {cfg : Config α} {d : Dest α} (hd : d.Stored cfg) {start i : ℕ}
    (h : holdNext cfg d start = some i) :
    start ≤ i ∧ i < cfg.histoBucketCount ∧ (d.tramHold i).toList ≠ [] ∧
      ∀ c, start ≤ c → c < i → (d.tramHold c).toList = [] := by
  unfold holdNext at h
  split_ifs at h with hs
  obtain ⟨h1, -, h3, h4⟩ := WordBits.next_eq_some
    (show start < 64 * cfg.holdWords by unfold Config.holdWords; omega) h
  have hi := (hd.bits i).mp h3
  refine ⟨h1, ?_, hi, fun c hc hci => ?_⟩
  · by_contra hge
    exact hi (hd.bounded i (by omega))
  · by_contra hne
    exact absurd (h4 c hc hci) (by simp [(hd.bits c).mpr hne])

theorem Stored.holdNext_none {cfg : Config α} {d : Dest α} (hd : d.Stored cfg) {start : ℕ}
    (h : holdNext cfg d start = none) : ∀ c ≥ start, (d.tramHold c).toList = [] := by
  intro c hc
  unfold holdNext at h
  split_ifs at h with hs
  · exact hd.bounded c (by omega)
  · by_cases hcB : c < cfg.histoBucketCount
    · have := WordBits.next_eq_none
        (show start < 64 * cfg.holdWords by unfold Config.holdWords; omega) h c hc
        (by unfold Config.holdWords; omega)
      by_contra hne
      rw [(hd.bits c).mpr hne] at this
      cases this
    · exact hd.bounded c (by omega)

theorem Stored.holdPush {cfg : Config α} {d : Dest α} (hd : d.Stored cfg) {b : ℕ}
    (hb : b < cfg.histoBucketCount) (x : α) : (d.holdPush b x).Stored cfg := by
  refine ⟨fun c => ?_, fun c hc => ?_, hd.stuck⟩
  · show WordBits.get (WordBits.set d.holdBits b) c = true ↔ _
    rw [WordBits.get_set]
    by_cases hcb : c = b
    · subst hcb; simp [Dest.holdPush]
    · simp [Dest.holdPush, hcb, hd.bits c]
  · show ((Function.update d.tramHold b _) c).toList = []
    rw [Function.update_of_ne (by omega), hd.bounded c hc]

theorem Stored.holdTake {cfg : Config α} {d : Dest α} (hd : d.Stored cfg) (b : ℕ) :
    (d.holdTake b).Stored cfg := by
  rw [holdTake_eq]
  refine ⟨fun c => ?_, fun c hc => ?_, hd.stuck⟩
  · show WordBits.get _ c = true ↔ ((Function.update d.tramHold b (d.tramHold b).pop) c).toList ≠ []
    by_cases hcb : c = b
    · subst hcb
      rw [Function.update_self]
      split_ifs with he
      · rw [WordBits.get_clear, (HoldQueue.empty_iff _).mp he]
        simp
      · have hne : (d.tramHold c).pop.toList ≠ [] := fun h => he ((HoldQueue.empty_iff _).mpr h)
        have : (d.tramHold c).toList ≠ [] := by
          intro h
          rw [HoldQueue.toList_pop, h] at hne
          exact hne rfl
        exact ⟨fun _ => hne, fun _ => (hd.bits c).mpr this⟩
    · rw [Function.update_of_ne hcb, ← hd.bits c]
      split_ifs
      · rw [WordBits.get_clear]; simp [hcb]
      · rfl
  · show ((Function.update d.tramHold b _) c).toList = []
    by_cases hcb : c = b
    · subst hcb
      rw [Function.update_self, HoldQueue.toList_pop, hd.bounded c hc]; rfl
    · rw [Function.update_of_ne hcb, hd.bounded c hc]

theorem heldSizes_eq (cfg : Config α) {k : Knobs F} (hk : k.combining = false) (d : Dest α) :
    d.heldSizes k = (d.lane cfg k).heldLen := by
  funext b
  simp [heldSizes, lane, Lane.heldLen, hk]

/-- An item goes from the front of queue `i` into the buffer. -/
theorem take_move (cfg : Config α) {k : Knobs F} (hk : k.combining = false) (R : Rules)
    {d : Dest α} {i : ℕ} (hi : (i : ℤ) ≤ k.tramThreshold) {item : α}
    (hfront : (d.tramHold i).front = some item) (d' : Dest α)
    (hq : d'.tramHold = Function.update d.tramHold i (d.tramHold i).pop)
    (hrest : d' = { d with tramHold := d'.tramHold, holdBits := d'.holdBits }) :
    Path cfg R [] (d.lane cfg k)
      ((d'.put ⟨cfg.getDestProc item, item, d.fill k (some i) false⟩).lane cfg k) := by
  obtain ⟨rest, hlist⟩ : ∃ rest, (d.tramHold i).toList = item :: rest := by
    rw [HoldQueue.front_eq_head?] at hfront
    exact ⟨_, List.head?_eq_some_iff.mp hfront |>.choose_spec⟩
  have hheld : (d.lane cfg k).held i =
      (cfg.ops.key item, item) :: rest.map fun x => (cfg.ops.key x, x) := by
    simp [lane, hk, hlist]
  have hmove : Move cfg R [] (d.lane cfg k) _ := Move.take _ i _ item _ hi hheld
  have hlane : (d'.put ⟨cfg.getDestProc item, item, d.fill k (some i) false⟩).lane cfg k =
      { d.lane cfg k with
        held := Function.update (d.lane cfg k).held i (rest.map fun x => (cfg.ops.key x, x))
        buffer := (d.lane cfg k).buffer ++ [⟨cfg.getDestProc item, item,
          ⟨some i, (d.lane cfg k).threshold, false, (d.lane cfg k).heldLen⟩⟩] } := by
    rw [hrest]
    refine Lane.ext rfl rfl rfl (funext fun b => ?_) ?_ rfl rfl rfl rfl rfl
    · show (if k.combining then _ else (d'.tramHold b).toList.map _) = _
      rw [hq, hk]
      by_cases hb : b = i
      · subst hb; simp [hlist]
      · simp [lane, hk, Function.update_of_ne hb]
    · simp only [put, HTramMessage.put, fill, heldSizes_eq cfg hk]
      rfl
  rw [hlane]
  exact Path.single hmove

/-! ## Releases -/

/-- Every fill site keeps the queues. -/
theorem Stored.putShip {cfg : Config α} {k : Knobs F} {d : Dest α} (hd : d.Stored cfg)
    (x : Item α) (full : Bool) :
    (if (d.put x).msgBuffer.next = k.bufSize then (d.put x).uncount.shipBuffer k full
      else d.put x).Stored cfg := by
  split_ifs <;> exact hd.congr rfl rfl rfl

/-- A loop over the queues up to a bound whose body keeps the lane. -/
theorem forNext_path (cfg : Config α) (k : Knobs F) (R : Rules) {bound : ℕ → Dest α → Bool}
    {body : ℕ → Dest α → Dest α}
    (hbody : ∀ i d, bound i d = true → d.Queued cfg k →
      (body i d).Queued cfg k ∧ Path cfg R [] (d.lane cfg k) ((body i d).lane cfg k))
    {d : Dest α} (hd : d.Queued cfg k) (start : ℕ) :
    (WordBits.forNext (holdNext cfg) bound body (fun _ => false) cfg.histoBucketCount start
      d).Queued cfg k ∧
    Path cfg R [] (d.lane cfg k) ((WordBits.forNext (holdNext cfg) bound body (fun _ => false)
      cfg.histoBucketCount start d).lane cfg k) := by
  refine WordBits.forNext_rule (n := cfg.histoBucketCount)
    (P := fun _ (s : Dest α) => s.Queued cfg k ∧ Path cfg R [] (d.lane cfg k) (s.lane cfg k))
    (Q := fun s : Dest α => s.Queued cfg k ∧ Path cfg R [] (d.lane cfg k) (s.lane cfg k))
    ?_ (fun _ _ h _ => h) (fun _ _ _ h _ _ => h) ?_ ?_ cfg.histoBucketCount start d
    ⟨hd, .nil _⟩ (by omega)
  · intro start s i hs hnext
    obtain ⟨h1, h2, -⟩ := hs.1.toStored.holdNext_some hnext
    exact ⟨h1, h2⟩
  · intro start s i hs _ hc _
    obtain ⟨h1, h2⟩ := hbody i s hc hs.1
    exact ⟨h1, hs.2.andThen h2⟩
  · intro start s i _ _ _ h
    cases h

/-- One round of `insertBucket`: the item taken goes into the buffer, which is shipped if it
    is full. -/
theorem Queued.takeShip {cfg : Config α} {k : Knobs F} {d : Dest α} (hd : d.Queued cfg k) (i : ℕ)
    (x : Item α) :
    (if ((d.holdTake i).put x).msgBuffer.next = k.bufSize then
      ((d.holdTake i).put x).uncount.shipBuffer k true else (d.holdTake i).put x).Queued cfg k :=
  ⟨(holdTake_sized hd.toSized i).putShip x true, (hd.toStored.holdTake i).putShip x true⟩

theorem insertBucket_stored [ReleaseArith F] {cfg : Config α} {k : Knobs F} (i : ℕ) :
    ∀ (fuel : ℕ) (d : Dest α), d.Stored cfg → (insertBucket cfg k i fuel d).Stored cfg := by
  intro fuel
  induction fuel with
  | zero => intro d hd; exact hd
  | succ fuel ih =>
    intro d hd
    rw [insertBucket]
    cases (d.tramHold i).front with
    | none => exact hd
    | some item =>
      have hs := (hd.holdTake i).putShip (k := k)
        ⟨cfg.getDestProc item, item, d.fill k (some i) false⟩ true
      dsimp only
      generalize (if (((d.holdTake i).put ⟨cfg.getDestProc item, item,
        d.fill k (some i) false⟩).msgBuffer.next = k.bufSize) then _ else _ : Dest α) = d' at *
      split_ifs
      · exact hs
      · exact ih d' hs

/-- One bucket in `insertBucketsByDest` keeps the queues. -/
theorem insertBucket_queued [ReleaseArith F] (cfg : Config α) {k : Knobs F} (i fuel : ℕ)
    (d : Dest α) (hd : d.Queued cfg k) : (insertBucket cfg k i fuel d).Queued cfg k :=
  ⟨insertBucket_sized cfg k i fuel d hd.toSized, insertBucket_stored i fuel d hd.toStored⟩

section CombiningOff

variable (cfg : Config α) {k : Knobs F} (hk : k.combining = false) (R : Rules)
include hk

theorem insertBucket_path [ReleaseArith F] {i : ℕ} (hi : (i : ℤ) ≤ k.tramThreshold) :
    ∀ (fuel : ℕ) (d : Dest α), d.Queued cfg k → (insertBucket cfg k i fuel d).Queued cfg k ∧
      Path cfg R [] (d.lane cfg k) ((insertBucket cfg k i fuel d).lane cfg k) := by
  intro fuel
  induction fuel with
  | zero => intro d hd; exact ⟨hd, .nil _⟩
  | succ fuel ih =>
    intro d hd
    rw [insertBucket]
    cases hfront : (d.tramHold i).front with
    | none => exact ⟨hd, .nil _⟩
    | some item =>
      have hq := hd.takeShip i ⟨cfg.getDestProc item, item, d.fill k (some i) false⟩
      have hput := putShip_path cfg R (holdTake_sized hd.toSized i) _ true
        (take_move cfg hk R hi hfront (d.holdTake i) (by rw [holdTake_eq]) (by rw [holdTake_eq]))
      dsimp only
      generalize (if (((d.holdTake i).put ⟨cfg.getDestProc item, item,
        d.fill k (some i) false⟩).msgBuffer.next = k.bufSize) then _ else _ : Dest α) = d' at *
      split_ifs
      · exact ⟨hq, hput⟩
      · obtain ⟨hq', hp'⟩ := ih d' hq
        exact ⟨hq', hput.andThen hp'⟩

theorem insertBucketsByDest_path [ReleaseArith F] {d : Dest α} (hd : d.Queued cfg k) :
    (d.insertBucketsByDest cfg k k.tramThreshold).Queued cfg k ∧
      Path cfg R [] (d.lane cfg k)
        ((d.insertBucketsByDest cfg k k.tramThreshold).lane cfg k) :=
  forNext_path cfg k R (fun _ d hi hd =>
    insertBucket_path cfg hk R (of_decide_eq_true hi) _ d hd) hd 0

theorem releaseOver_path [ReleaseArith F] {d : Dest α} (hd : d.Queued cfg k) :
    (d.releaseOver cfg k).Queued cfg k ∧
      Path cfg R [] (d.lane cfg k) ((d.releaseOver cfg k).lane cfg k) := by
  unfold releaseOver
  split_ifs
  · exact insertBucketsByDest_path cfg hk R hd
  · exact ⟨hd, .nil _⟩

theorem releaseAbove_path [ReleaseArith F] {d : Dest α} (hd : d.Queued cfg k) :
    (d.releaseAbove cfg k).Queued cfg k ∧
      Path cfg R [] (d.lane cfg k) ((d.releaseAbove cfg k).lane cfg k) := by
  unfold releaseAbove
  rw [hk]
  simp only [Bool.false_eq_true, if_false]
  split_ifs
  · exact insertBucketsByDest_path cfg hk R hd
  · exact ⟨hd, .nil _⟩

/-! ## Sends -/

/-- An item goes into a queue. -/
theorem hold_move {b : ℕ} (hb : b < cfg.histoBucketCount) (x : α) (pe : ℕ) (d : Dest α) (n : ℤ)
    (hn : n = d.updatesInTram + if (b : ℤ) ≤ k.tramThreshold then 1 else 0) :
    Path cfg R [.send x b pe] (d.lane cfg k)
      (({ d with updatesInTram := n }.holdPush b x).lane cfg k) := by
  have hmove : Move cfg R [.send x b pe] (d.lane cfg k) _ := Move.hold _ x b pe hb
  have hlane : ({ d with updatesInTram := n }.holdPush b x).lane cfg k =
      { d.lane cfg k with
        held := Function.update (d.lane cfg k).held b
          ((d.lane cfg k).held b ++ [(cfg.ops.key x, x)])
        updates := (d.lane cfg k).updates +
          if (b : ℤ) ≤ (d.lane cfg k).threshold then 1 else 0 } := by
    refine Lane.ext rfl rfl rfl (funext fun c => ?_) rfl hn rfl rfl rfl rfl
    by_cases hc : c = b
    · subst hc; simp [lane, holdPush, hk]
    · simp [lane, holdPush, hk, Function.update_of_ne hc]
  rw [hlane]
  exact Path.single hmove

theorem enqueue_path (x : α) {b : ℕ} (pe : ℕ) (hb : b < cfg.histoBucketCount) {d : Dest α}
    (hd : d.Queued cfg k) :
    (d.enqueue k x b pe).Queued cfg k ∧
      Path cfg R [.send x b pe] (d.lane cfg k) ((d.enqueue k x b pe).lane cfg k) := by
  refine ⟨⟨enqueue_sized x b pe hd.toSized, ?_⟩, ?_⟩
  · unfold enqueue
    dsimp only
    split_ifs
    · exact hd.toStored.holdPush hb x
    · exact (hd.toStored.congr rfl rfl rfl : Stored cfg { d with
        updatesInTram := d.updatesInTram + 1 }).holdPush hb x
    · exact (hd.toStored.congr rfl rfl rfl : Stored cfg { d with
        updatesInTram := d.updatesInTram + 1 }).putShip _ true
  · unfold enqueue
    dsimp only
    split_ifs with h1 h2
    · exact hold_move cfg hk R hb x pe d d.updatesInTram (by rw [if_neg (by omega)]; omega)
    · exact hold_move cfg hk R hb x pe d (d.updatesInTram + 1) (by rw [if_pos (by omega)])
    · have hmove : Move cfg R [.send x b pe] (d.lane cfg k) _ :=
        Move.direct _ x b pe (show (b : ℤ) ≤ k.tramThreshold by omega)
      rw [← heldSizes_eq cfg hk] at hmove
      exact putShip_path cfg R (d := { d with updatesInTram := d.updatesInTram + 1 })
        (hd.toSized.congr rfl rfl) _ true (Path.single hmove)

theorem sendItem_path [ReleaseArith F] [Inhabited α] (x : α) {b : ℕ} (pe : ℕ)
    (hb : b < cfg.histoBucketCount) {d : Dest α} (hd : d.Queued cfg k) :
    (d.sendItem cfg k x b pe).Queued cfg k ∧
      Path cfg R [.send x b pe] (d.lane cfg k) ((d.sendItem cfg k x b pe).lane cfg k) := by
  unfold sendItem
  rw [hk]
  simp only [Bool.false_eq_true, if_false]
  obtain ⟨hq, hp⟩ := enqueue_path cfg hk R x pe hb hd
  obtain ⟨hq', hp'⟩ := releaseOver_path cfg hk R hq
  have := hp.trans hp'
  exact ⟨hq', by rwa [List.append_nil] at this⟩

theorem insertValueWPsTo_path (x : α) (pe : ℕ) {d : Dest α} (hd : d.Queued cfg k) :
    (d.insertValueWPsTo k x pe none).Queued cfg k ∧
      Path cfg R [.raw x pe] (d.lane cfg k) ((d.insertValueWPsTo k x pe none).lane cfg k) := by
  obtain ⟨h1, h2, h3⟩ := insertValueWPsTo_rest d x pe none (k := k)
  exact ⟨⟨insertValueWPsTo_sized hd.toSized x pe none, hd.toStored.congr h2 h1 h3⟩,
    insertValueWPsTo_raw cfg R (heldSizes_eq cfg hk d) hd.toSized x pe⟩

theorem insertValue_path (hagg : k.agg ≠ .WsP) (x : α) (pe rank : ℕ) {d : Dest α}
    (hd : d.Queued cfg k) :
    (d.insertValue cfg k x pe rank).Queued cfg k ∧
      Path cfg R [.raw x pe] (d.lane cfg k) ((d.insertValue cfg k x pe rank).lane cfg k) := by
  obtain ⟨h1, h2, h3⟩ := insertValue_rest cfg hagg d x pe rank
  exact ⟨⟨insertValue_sized cfg hagg x pe rank hd.toSized, hd.toStored.congr h2 h1 h3⟩,
    insertValue_raw cfg hagg R (heldSizes_eq cfg hk d) hd.toSized x pe rank⟩

end CombiningOff

end Dest

end Htram
