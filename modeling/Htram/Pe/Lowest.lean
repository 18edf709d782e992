import Htram.Pe.Fills
import Htram.Pe.Runs

/-!
# Which bucket is released first

The `break` of `insertBucketsByDest` ends the inner loop only. The outer loop goes on, and
takes one item of every later bucket that is not empty.

* `insertBucketsByDest_lowestFirst`: exactly when the items moved come from the lowest
  bucket that holds something.
-/

namespace Htram

variable {α F : Type*}

namespace Dest

/-- The number of items held below bucket `i`. -/
def heldBelow (d : Dest α) (i : ℕ) : ℕ := ((List.range i).flatMap d.queues).length

/-- The items moved come each from the lowest bucket that holds something, and are the
    first ones held. -/
structure LowestFirst (high : ℤ) (d d' : Dest α) : Prop where
  lowest : ∀ x ∈ moved d d', ∃ b, x.fill.bucket = some b ∧ ∀ c < b, x.fill.held c = 0
  first : (moved d d').map Item.payload <+: d.heldUpTo high

/-- While a bucket is partly moved and a later one up to `high` is not empty, the count is
    not below the release level. -/
def NoEarlyStop [ReleaseArith F] (k : Knobs F) (high : ℤ) (d : Dest α) : Prop :=
  ∀ i m : ℕ, d.heldBelow i < m → m < d.heldBelow (i + 1) →
    (∃ j, i < j ∧ (j : ℤ) ≤ high ∧ d.queues j ≠ []) →
    ReleaseArith.lt (d.countAfter k m) k.releaseLevel = false

theorem heldBelow_succ (d : Dest α) (i : ℕ) :
    d.heldBelow (i + 1) = d.heldBelow i + (d.queues i).length := by
  unfold heldBelow
  rw [List.range_succ, List.flatMap_append, List.length_append, List.flatMap_singleton]

theorem prefix_flatMap_range {β : Type*} (f : ℕ → List β) {a b : ℕ} (hab : a ≤ b) :
    (List.range a).flatMap f <+: (List.range b).flatMap f := by
  obtain ⟨n, rfl⟩ := Nat.exists_eq_add_of_le hab
  rw [List.range_add, List.flatMap_append]
  exact List.prefix_append _ _

/-- The walk of `insertBucketsByDest` has come to bucket `start`; every bucket below it is
    empty now. -/
structure Clean [ReleaseArith F] (k : Knobs F) (high : ℤ) (start : ℕ) (d s : Dest α)
    (xs : List (Item α)) : Prop where
  empty : ∀ c < start, s.queues c = []
  lowest : ∀ x ∈ xs, ∃ b, x.fill.bucket = some b ∧ ∀ c < b, x.fill.held c = 0
  payloads : xs.map Item.payload = (List.range start).flatMap d.queues
  noStop : ∀ i < start, ∀ m, d.heldBelow i < m → m < d.heldBelow (i + 1) →
    (∃ j, i < j ∧ (j : ℤ) ≤ high ∧ d.queues j ≠ []) →
    ReleaseArith.lt (d.countAfter k m) k.releaseLevel = false

/-- The walk has come to bucket `start`, with something left in bucket `b`. -/
structure Broken [ReleaseArith F] (k : Knobs F) (high : ℤ) (start b : ℕ) (d s : Dest α)
    (xs : List (Item α)) : Prop where
  lt : b < start
  left : s.queues b ≠ []
  noEarly_iff : d.NoEarlyStop k high ↔ ∀ c, b < c → (c : ℤ) ≤ high → d.queues c = []
  lowest_iff : ((∀ x ∈ xs, ∃ b, x.fill.bucket = some b ∧ ∀ c < b, x.fill.held c = 0) ∧
    xs.map Item.payload <+: d.heldUpTo high) ↔ ∀ c, b < c → c < start → d.queues c = []

/-- The state of the walk. -/
structure Walk [ReleaseArith F] (cfg : Config α) (k : Knobs F) (high : ℤ) (start : ℕ)
    (d s : Dest α) (xs : List (Item α)) : Prop where
  queued : s.Queued cfg k
  packs : Packs k d s xs
  within : start ≤ (high + 1).toNat
  ahead : ∀ c ≥ start, s.queues c = d.queues c
  state : Clean k high start d s xs ∨ ∃ b, Broken k high start b d s xs

section Walk

variable [ReleaseArith F] {cfg : Config α} {k : Knobs F} {high : ℤ} {start : ℕ} {d s : Dest α}
  {xs : List (Item α)}

/-- When nothing more is found up to `high`, the walk has the property or not. -/
theorem Walk.done (hw : Walk cfg k high start d s xs)
    (hnone : ∀ c, start ≤ c → (c : ℤ) ≤ high → s.queues c = []) :
    LowestFirst high d s ↔ d.NoEarlyStop k high := by
  have hahead : ∀ c, start ≤ c → (c : ℤ) ≤ high → d.queues c = [] := by
    intro c hc hch
    rw [← hw.ahead c hc, hnone c hc hch]
  have hmoved : LowestFirst high d s ↔
      ((∀ x ∈ xs, ∃ b, x.fill.bucket = some b ∧ ∀ c < b, x.fill.held c = 0) ∧
        xs.map Item.payload <+: d.heldUpTo high) := by
    rw [← hw.packs.moved]
    exact ⟨fun h => ⟨h.lowest, h.first⟩, fun h => ⟨h.1, h.2⟩⟩
  rw [hmoved]
  rcases hw.state with hclean | ⟨b, hbroken⟩
  · refine iff_of_true ⟨hclean.lowest, ?_⟩ fun i m h1 h2 hlater => ?_
    · rw [hclean.payloads]
      exact prefix_flatMap_range _ hw.within
    · rcases Nat.lt_or_ge i start with hi | hi
      · exact hclean.noStop i hi m h1 h2 hlater
      · obtain ⟨j, hij, hj, hne⟩ := hlater
        exact absurd (hahead j (by omega) hj) hne
  · rw [hbroken.lowest_iff, hbroken.noEarly_iff]
    have hlt := hbroken.lt
    have hwithin := hw.within
    constructor
    · intro h c hbc hch
      rcases Nat.lt_or_ge c start with hc | hc
      · exact h c hbc hc
      · exact hahead c hc hch
    · intro h c hbc hc
      exact h c hbc (by omega)

/-- The walk on the next bucket that is not empty. -/
theorem Walk.step (hk : k.combining = false) (hd : d.Queued cfg k)
    (hw : Walk cfg k high start d s xs) {i : ℕ} (hi : start ≤ i) (hih : (i : ℤ) ≤ high)
    (hne : s.queues i ≠ []) (hskip : ∀ c, start ≤ c → c < i → s.queues c = []) :
    ∃ ys, Walk cfg k high (i + 1) d (insertBucket cfg k i (s.tramHold i).size s) ys := by
  obtain ⟨ys, htakes, hsome, hbelow, habove⟩ := insertBucket_takes cfg hk (i := i)
    (s.tramHold i).size s hw.queued.toSized le_rfl
  have hqueued := insertBucket_queued cfg i (s.tramHold i).size s hw.queued
  generalize insertBucket cfg k i (s.tramHold i).size s = s' at *
  have hpacks := hw.packs.trans hd.toSized hw.queued.toSized htakes.toPacks
  have hqi : s.queues i = d.queues i := hw.ahead i hi
  have hskip' : ∀ c, start ≤ c → c < i → d.queues c = [] := by
    intro c h1 h2
    rw [← hw.ahead c h1, hskip c h1 h2]
  have hys : ∃ y, y ∈ ys := List.exists_mem_of_ne_nil _ (hsome hne)
  refine ⟨xs ++ ys, hqueued, hpacks, by omega, fun c hc => ?_, ?_⟩
  · rw [htakes.queues_eq, if_neg (by omega), hw.ahead c (by omega)]
  rcases hw.state with hclean | ⟨b, hbroken⟩
  · have hempty : ∀ c < i, s.queues c = [] := by
      intro c hc
      rcases Nat.lt_or_ge c start with h | h
      · exact hclean.empty c h
      · exact hskip c h hc
    have hlowest : ∀ x ∈ xs ++ ys, ∃ b, x.fill.bucket = some b ∧ ∀ c < b, x.fill.held c = 0 := by
      intro x hx
      rcases List.mem_append.mp hx with hx | hx
      · exact hclean.lowest x hx
      · have hfrom := htakes.from_bucket x hx
        refine ⟨i, hfrom.bucket, fun c hc => ?_⟩
        rw [hfrom.held c (by omega), hempty c hc]
        rfl
    have hbefore : (List.range start).flatMap d.queues = (List.range i).flatMap d.queues :=
      (flatMap_range_skip hi hskip').symm
    have hxs : xs.length = d.heldBelow i := by
      have := congrArg List.length hclean.payloads
      rwa [List.length_map, hbefore] at this
    have hpayloads : (xs ++ ys).map Item.payload =
        (List.range i).flatMap d.queues ++ (d.queues i).take ys.length := by
      rw [List.map_append, hclean.payloads, htakes.payloads, hbefore, hqi]
    have hcount := hw.packs.countAfter hd.toSized hw.queued.toSized
    have hnoStop : ∀ j < i, ∀ m, d.heldBelow j < m → m < d.heldBelow (j + 1) →
        (∃ l, j < l ∧ (l : ℤ) ≤ high ∧ d.queues l ≠ []) →
        ReleaseArith.lt (d.countAfter k m) k.releaseLevel = false := by
      intro j hj m h1 h2 hlater
      rcases Nat.lt_or_ge j start with h | h
      · exact hclean.noStop j h m h1 h2 hlater
      · rw [heldBelow_succ, hskip' j h hj, List.length_nil] at h2
        omega
    have hle := htakes.length_le
    rcases Nat.eq_or_lt_of_le hle with hall | hpart
    · -- the bucket is empty now
      refine Or.inl ⟨fun c hc => ?_, hlowest, ?_, fun j hj m h1 h2 hlater => ?_⟩
      · rw [htakes.queues_eq]
        split_ifs with hci
        · rw [hall, List.drop_length]
        · exact hempty c (by omega)
      · rw [hpayloads, List.range_succ, List.flatMap_append, List.flatMap_singleton, hall, hqi,
          List.take_length]
      · rcases Nat.lt_succ_iff_lt_or_eq.mp hj with h | rfl
        · exact hnoStop j h m h1 h2 hlater
        · rw [heldBelow_succ, ← hqi, ← hall] at h2
          have := habove (m - xs.length) (by omega) (by omega)
          rwa [hcount, Nat.add_sub_cancel' (by omega)] at this
    · -- something is left in the bucket
      have hlast := hbelow hpart
      rw [hcount] at hlast
      have hpos : 0 < ys.length := List.length_pos_iff.mpr (hsome hne)
      refine Or.inr ⟨i, Nat.lt_succ_self i, ?_, ?_, ?_⟩
      · rw [htakes.queues_eq, if_pos rfl]
        intro h
        rw [List.drop_eq_nil_iff] at h
        omega
      · constructor
        · intro h c hic hch
          by_contra hc
          have := h i (xs.length + ys.length) (by omega)
            (by rw [heldBelow_succ, ← hqi]; omega) ⟨c, hic, hch, hc⟩
          rw [hlast] at this
          cases this
        · intro h j m h1 h2 hlater
          rcases Nat.lt_or_ge j i with hj | hj
          · exact hnoStop j hj m h1 h2 hlater
          · obtain ⟨l, hjl, hl, hne'⟩ := hlater
            exact absurd (h l (by omega) hl) hne'
      · refine iff_of_true ⟨hlowest, ?_⟩ fun c h1 h2 => by omega
        rw [hpayloads]
        refine List.IsPrefix.trans ?_ (prefix_flatMap_range d.queues
          (show i + 1 ≤ (high + 1).toNat by omega))
        rw [List.range_succ, List.flatMap_append, List.flatMap_singleton]
        exact (List.prefix_append_right_inj _).mpr (List.take_prefix _ _)
  · have hlt := hbroken.lt
    refine Or.inr ⟨b, by omega, ?_, hbroken.noEarly_iff, ?_⟩
    · rw [htakes.queues_eq, if_neg (by omega)]
      exact hbroken.left
    · -- an item of bucket `i` is moved while bucket `b` is not empty
      refine iff_of_false (fun h => ?_) fun h => ?_
      · obtain ⟨y, hy⟩ := hys
        have hfrom := htakes.from_bucket y hy
        obtain ⟨b', hb', hzero⟩ := h.1 y (List.mem_append_right _ hy)
        rw [hfrom.bucket, Option.some_inj] at hb'
        subst hb'
        have := hzero b (by omega)
        rw [hfrom.held b (by omega)] at this
        exact hbroken.left (List.length_eq_zero_iff.mp this)
      · exact hne (hqi.trans (h i (by omega) (by omega)))

end Walk

/-- For every content of the queues and every count, `insertBucketsByDest` moves the items
    of the lowest buckets first if and only if, at each moment when a bucket is partly moved
    and a later one up to `high` is not empty, the count is not below the release level. -/
theorem insertBucketsByDest_lowestFirst [ReleaseArith F] {cfg : Config α} {k : Knobs F}
    (hk : k.combining = false) {d : Dest α} (hd : d.Queued cfg k) (high : ℤ) :
    LowestFirst high d (d.insertBucketsByDest cfg k high) ↔ d.NoEarlyStop k high := by
  refine WordBits.forNext_rule (n := cfg.histoBucketCount)
    (P := fun start (s : Dest α) => ∃ xs, Walk cfg k high start d s xs)
    (Q := fun s : Dest α => LowestFirst high d s ↔ d.NoEarlyStop k high)
    ?_ ?_ ?_ ?_ ?_ cfg.histoBucketCount 0 d ?_ (by omega)
  · rintro start s i ⟨xs, hw⟩ hnext
    obtain ⟨h1, h2, -⟩ := hw.queued.toStored.holdNext_some hnext
    exact ⟨h1, h2⟩
  · rintro start s ⟨xs, hw⟩ hnone
    exact hw.done fun c hc _ => hw.queued.toStored.holdNext_none hnone c hc
  · rintro start s i ⟨xs, hw⟩ hnext hcond
    obtain ⟨-, -, -, h4⟩ := hw.queued.toStored.holdNext_some hnext
    have hi := of_decide_eq_false hcond
    exact hw.done fun c hc hch => h4 c hc (by omega)
  · rintro start s i ⟨xs, hw⟩ hnext hcond -
    obtain ⟨h1, -, h3, h4⟩ := hw.queued.toStored.holdNext_some hnext
    exact hw.step hk hd h1 (of_decide_eq_true hcond) h3 h4
  · intro _ _ _ _ _ _ h; cases h
  · exact ⟨[], hd, .nil hd.toSized, Nat.zero_le _, fun _ _ => rfl,
      Or.inl ⟨by omega, by simp, rfl, by omega⟩⟩

end Dest

namespace HTram

/-- Two items in two buckets, both above the threshold, which is then raised to 2. -/
theorem insertBucketsByDest_lowestFirst_two :
    ∃ p : HTram KeyValue ℚ, session oneNode .WPs 4 [] false [offer 1 1, offer 2 2] = .returns p ∧
      (Dest.LowestFirst 2 (p.dest 0) ((p.dest 0).insertBucketsByDest oneNode p.knobs 2) ↔
        (p.dest 0).NoEarlyStop p.knobs 2) := by
  have hrange : ∀ op ∈ ([offer 1 1, offer 2 2] : List (Op KeyValue ℚ)),
      op.InRange oneNode .WPs false := by
    simp [offer, Op.InRange, oneNode]
  have hran : (session oneNode .WPs 4 [] false _).Holds _ fun _ => False :=
    session_ran (by decide) (by decide) (by simp) hrange (fun op _ => op.rules_le false)
      fun h => by cases h
  obtain ⟨p, hp, hone⟩ := Outcome.of_check
    (P := fun p : HTram KeyValue ℚ => 0 < p.destCount oneNode)
    (o := session oneNode .WPs 4 [] false [offer 1 1, offer 2 2]) (by decide +kernel)
  rw [hp] at hran
  have hq : Ran oneNode .WPs false _ _ p := hran
  have hqueued := (Dest.settled_off hq.combining_eq).mp (hq.steady.dest 0 hone)
  exact ⟨p, hp, Dest.insertBucketsByDest_lowestFirst hq.combining_eq hqueued 2⟩

/-- Five items in bucket 1 and one in bucket 2, when `changeThreshold` raises the threshold
    to 2: the first message leaves one item in bucket 1, and the item of bucket 2 goes into
    the buffer. -/
theorem changeThreshold_passes_over :
    ∃ p : HTram KeyValue ℚ,
      session oneNode .WPs 4 [] false
        [offer 1 1, offer 2 1, offer 3 1, offer 4 1, offer 5 1, offer 6 2] = .returns p ∧
      ¬ Dest.LowestFirst 2 ((p.dest 0).retune oneNode p.knobs 2)
        (((p.dest 0).retune oneNode p.knobs 2).insertBucketsByDest oneNode
          (p.knobs.retuned 0 2 1) 2) := by
  obtain ⟨p, hp, hpassed⟩ := Outcome.of_check
    (P := fun p : HTram KeyValue ℚ =>
      ((Dest.moved ((p.dest 0).retune oneNode p.knobs 2)
        (((p.dest 0).retune oneNode p.knobs 2).insertBucketsByDest oneNode
          (p.knobs.retuned 0 2 1) 2)).any fun x =>
            decide (x.fill.bucket = some 2) && decide (x.fill.held 1 = 1)) = true)
    (o := session oneNode .WPs 4 [] false
      [offer 1 1, offer 2 1, offer 3 1, offer 4 1, offer 5 1, offer 6 2]) (by decide +kernel)
  refine ⟨p, hp, fun h => ?_⟩
  obtain ⟨x, hx, hnote⟩ := List.any_eq_true.mp hpassed
  rw [Bool.and_eq_true, decide_eq_true_eq, decide_eq_true_eq] at hnote
  obtain ⟨b, hb, hzero⟩ := h.lowest x hx
  rw [hnote.1, Option.some_inj] at hb
  subst hb
  have := hzero 1 (by omega)
  omega

end HTram

end Htram
