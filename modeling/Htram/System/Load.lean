import Htram.System.Scanned

/-!
# The work that is left

What a machine that sorts at the source has still to do: items that wait are shipped, messages
arrive at their nodes, and then at the PEs of the nodes.

* `SortedSystem.call_load`: a call adds no more work than its items are worth, as no message is
  shipped empty.
* `SortedSystem.deliver_load`: an arrival does some of it.
* `SortedSystem.call_enabled`, `SortedSystem.deliver_enabled`: calls and arrivals take place.
-/

namespace Htram

open Network

variable {α F : Type*}

/-- The arrivals that a message makes, its own included. -/
def SortedPacket.weight (cfg : Config α) : SortedPacket α → ℕ
  | .buffer .. => cfg.nodeSize + 1
  | .slice .. => 1

namespace SortedSystem

/-- What an item that waits is worth. -/
def price (cfg : Config α) : ℕ := cfg.nodeSize + 2

/-- The work that is left. -/
def load (cfg : Config α) (s : SortedSystem α F) : ℕ :=
  (∑ pe ∈ Finset.range cfg.numPes, s.waiting cfg pe).card * price cfg +
    (s.flight.map (SortedPacket.weight cfg)).sum

variable {cfg : Config α} {s t : SortedSystem α F}

/-- Messages that are not empty are worth less than their items. -/
theorem sum_weight_le (cfg : Config α) {out : List (SortedPacket α)} (hout : ∀ m ∈ out, m.items ≠ 0) :
    (out.map (SortedPacket.weight cfg)).sum ≤
      (out.map SortedPacket.items).sum.card * price cfg := by
  induction out with
  | nil => exact Nat.zero_le _
  | cons m out ih =>
    have hm : 0 < m.items.card := Multiset.card_pos.mpr (hout m List.mem_cons_self)
    have hrest := ih fun m' h => hout m' (List.mem_cons_of_mem _ h)
    have hweight : m.weight cfg ≤ m.items.card * price cfg := by
      refine le_trans ?_ (Nat.le_mul_of_pos_left _ hm)
      unfold SortedPacket.weight price
      split
      all_goals omega
    rw [List.map_cons, List.sum_cons, List.map_cons, List.sum_cons, Multiset.card_add, Nat.add_mul]
    exact Nat.add_le_add hweight hrest

variable [Inhabited α] [ReleaseArith F]

theorem call_load (hs : s.Sound cfg) {pe : ℕ} {op : Op α F} (hop : HTram.SourceSorts cfg op)
    (hsize : ∀ newSize, op ≠ .setBufferSize newSize)
    (hstep : step cfg s (.call pe op) = some t) :
    t.load cfg ≤ s.load cfg + op.inserted.card * price cfg := by
  obtain ⟨-, hpe, hothers, -, -, out, hout, hmine, hfull⟩ := call_spec hs hop hstep
  have hwaiting := Rows.sum_of_ne (f := fun i => t.waiting cfg i) (g := fun i => s.waiting cfg i)
    hpe fun i hi => by
      unfold waiting
      rw [hothers i hi]
  have hweight := sum_weight_le cfg (hfull hsize)
  have hcard := congrArg Multiset.card hwaiting
  have hcard' := congrArg Multiset.card hmine
  rw [Multiset.card_add, Multiset.card_add] at hcard hcard'
  have hmul : (∑ i ∈ Finset.range cfg.numPes, t.waiting cfg i).card +
      (out.map SortedPacket.items).sum.card =
        (∑ i ∈ Finset.range cfg.numPes, s.waiting cfg i).card + op.inserted.card := by omega
  have hprice : _ * price cfg = _ * price cfg := congrArg (· * price cfg) hmul
  rw [Nat.add_mul, Nat.add_mul] at hprice
  unfold load
  rw [hout, List.map_append, List.sum_append]
  omega

theorem insertValue_load (hs : s.Sound cfg) {pe destPe : ℕ} (hdest : destPe < cfg.numPes) {x : α}
    (hstep : step cfg s (.call pe (.insertValue x destPe)) = some t) :
    t.load cfg ≤ s.load cfg + price cfg := by
  have hop : HTram.SourceSorts cfg (.insertValue x destPe : Op α F) := hdest
  have hload := call_load hs hop (by simp) hstep
  rwa [show (Op.insertValue x destPe : Op α F).inserted.card = 1 from rfl, Nat.one_mul] at hload

theorem tflush_load (hs : s.Sound cfg) {pe : ℕ}
    (hstep : step cfg s (.call pe (.tflush false)) = some t) : t.load cfg ≤ s.load cfg := by
  have hop : HTram.SourceSorts cfg (.tflush false : Op α F) := trivial
  have hload := call_load hs hop (by simp) hstep
  rwa [show (Op.tflush false : Op α F).inserted.card = 0 from rfl, Nat.zero_mul] at hload

theorem deliver_load (hs : s.Sound cfg) {k : ℕ} (hstep : step cfg s (.deliver k) = some t) :
    t.load cfg + 1 ≤ s.load cfg := by
  have hwaiting := Finset.sum_congr rfl fun i (_ : i ∈ Finset.range cfg.numPes) =>
    deliver_waiting hs hstep i
  obtain ⟨m, hk, harrive⟩ := Option.bind_eq_some_iff.mp hstep
  have hm := hs.arriving hk
  have htake : ((Net.take s k).flight.map (SortedPacket.weight cfg)).sum + m.weight cfg =
      (s.flight.map (SortedPacket.weight cfg)).sum := by
    have htotal := Net.total_take (n := 0) (w := fun _ => 0) (v := SortedPacket.weight cfg) hk
    simpa [Net.total] using htotal
  unfold load
  rw [hwaiting, ← htake]
  cases m with
  | buffer d sent =>
    rw [arrive, hm.2.1] at harrive
    cases harrive
    have hslices : (((HTramRecv.receiveNoSort (cfg.node d) sent.msg).map fun p =>
        SortedPacket.slice p.1 p.2).map (SortedPacket.weight cfg)).sum = cfg.nodeSize := by
      simp [HTramRecv.receiveNoSort, Function.comp_def, SortedPacket.weight, Config.node]
    have hbuffer : (SortedPacket.buffer d sent).weight cfg = cfg.nodeSize + 1 := rfl
    unfold Net.emit
    dsimp only
    rw [List.map_append, List.sum_append, hslices, hbuffer]
    omega
  | slice pe msg =>
    cases harrive
    exact le_rfl

theorem start_load (cfg : Config α) (bufSize : ℕ) :
    (start bufSize : SortedSystem α F).load cfg = 0 := by
  unfold load
  rw [Finset.sum_eq_zero fun q _ => start_waiting cfg bufSize q, Multiset.card_zero, Nat.zero_mul]
  rfl

/-- A message that is in flight arrives. -/
theorem deliver_enabled (hs : s.Sound cfg) {m : SortedPacket α} {k : ℕ}
    (hk : s.flight[k]? = some m) : ∃ t, step cfg s (.deliver k) = some t := by
  have hm := hs.arriving hk
  have harrive : ∃ t, arrive cfg (Net.take s k) m = some t := by
    cases m with
    | buffer d sent =>
      rw [arrive, hm.2.1]
      exact ⟨_, rfl⟩
    | slice pe msg => exact ⟨_, rfl⟩
  obtain ⟨t, ht⟩ := harrive
  exact ⟨t, Option.bind_eq_some_iff.mpr ⟨m, hk, ht⟩⟩

/-- A call returns. -/
theorem call_enabled (hs : s.Sound cfg) {pe : ℕ} (hpe : pe < cfg.numPes) {op : Op α F}
    (hop : HTram.SourceSorts cfg op) (hsize : ∀ newSize, op ≠ .setBufferSize newSize) :
    ∃ t, step cfg s (.call pe op) = some t := by
  obtain ⟨⟨⟨h, hg⟩, -⟩, -⟩ := hs.node pe hpe
  obtain ⟨q, hq⟩ := hg.sourceSorted.returns op hop hsize
  exact ⟨s.ended cfg pe q, by rw [step, if_pos hpe, hq, settle]⟩

theorem insertValue_enabled (hs : s.Sound cfg) {pe destPe : ℕ} (hpe : pe < cfg.numPes)
    (hdest : destPe < cfg.numPes) (x : α) :
    ∃ t, step cfg s (.call pe (.insertValue x destPe)) = some t :=
  call_enabled hs hpe hdest (by simp)

theorem tflush_enabled (hs : s.Sound cfg) {pe : ℕ} (hpe : pe < cfg.numPes) :
    ∃ t, step cfg s (.call pe (.tflush false)) = some t := call_enabled hs hpe trivial (by simp)

end SortedSystem

end Htram
