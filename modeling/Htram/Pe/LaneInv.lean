import Htram.Common.Rows
import Htram.Pe.Lane
import Mathlib.Algebra.BigOperators.Ring.Finset
import Mathlib.Algebra.Order.BigOperators.Group.Finset

/-!
# What every path of a lane keeps

* `Path.drift`: the admitted count differs from what is admitted by the number of items
  that entered through `insertValue`; `coarsen_drift` gives the one exception.
* `Path.drift_le`: with two buckets or more it does not fall behind, whatever `keep_top` is.
-/

namespace Htram

variable {α : Type*}

/-! ## Sums over buckets -/

theorem lt_toNat_iff {b : ℕ} {t : ℤ} : b < (t + 1).toNat ↔ (b : ℤ) ≤ t := by omega

/-- Changing one bucket changes the number of items up to `t` by that bucket. -/
theorem countUpTo_update {β : Type*} (held : ℕ → List β) (t : ℤ) (b : ℕ) (l : List β) :
    countUpTo (Function.update held b l) t + (if (b : ℤ) ≤ t then (held b).length else 0) =
      countUpTo held t + if (b : ℤ) ≤ t then l.length else 0 := by
  have := Rows.sum_update_ite List.length held b l (t + 1).toNat
  simp only [lt_toNat_iff] at this
  exact this

theorem countUpTo_congr {β γ : Type*} {held : ℕ → List β} {held' : ℕ → List γ} {t : ℤ}
    (h : ∀ b : ℕ, (b : ℤ) ≤ t → (held b).length = (held' b).length) :
    countUpTo held t = countUpTo held' t :=
  Finset.sum_congr rfl fun b hb => h b (lt_toNat_iff.mp (Finset.mem_range.mp hb))

/-- Nothing is held in buckets that do not exist. -/
def Lane.Bounded (cfg : Config α) (L : Lane α) : Prop :=
  ∀ b ≥ cfg.histoBucketCount, L.held b = []

/-! ## Coarser buckets -/

/-- A total over items, of a bucket that others are merged into. -/
theorem coarsenHeld_total {β M : Type*} [AddCommMonoid M] (g : List β → M) (hnil : g [] = 0)
    (happend : ∀ l r, g (l ++ r) = g l + g r) (factor top : ℕ) (held : ℕ → List β) (j : ℕ) :
    g (coarsenHeld factor top held j) =
      (∑ i ∈ Finset.range top, if i / factor = j then g (held i) else 0) +
        if top ≤ j then g (held j) else 0 := by
  have hmerged : ∀ n, g (((List.range n).filter fun i => i / factor = j).flatMap held) =
      ∑ i ∈ Finset.range n, if i / factor = j then g (held i) else 0 := by
    intro n
    induction n with
    | zero => exact hnil
    | succ n ih =>
      rw [List.range_succ, List.filter_append, List.flatMap_append, happend, ih,
        Finset.sum_range_succ]
      by_cases h : n / factor = j <;> simp [h, hnil]
  rw [coarsenHeld, happend, hmerged]
  split_ifs
  · rfl
  · rw [hnil]

/-- The number of items in the coarser buckets up to `t`. -/
theorem countUpTo_coarsenHeld {β : Type*} {factor : ℕ} (hf : 2 ≤ factor) (top : ℕ)
    (held : ℕ → List β) (n : ℕ) :
    countUpTo (coarsenHeld factor top held) n =
      countBetween held 0 (min ((n + 1) * factor : ℕ) top : ℕ) + countBetween held top (n + 1) := by
  have hlen := coarsenHeld_total List.length rfl (fun _ _ => List.length_append) factor top held
  have hmerged : (∑ j ∈ Finset.range (n + 1), ∑ i ∈ Finset.range top,
      if i / factor = j then (held i).length else 0) =
        ∑ i ∈ Finset.range (min ((n + 1) * factor) top), (held i).length := by
    rw [Finset.sum_comm]
    have : ∀ i ∈ Finset.range top, (∑ j ∈ Finset.range (n + 1),
        if i / factor = j then (held i).length else 0) =
          if i < (n + 1) * factor then (held i).length else 0 := by
      intro i _
      rw [Finset.sum_ite_eq]
      simp only [Finset.mem_range, Nat.div_lt_iff_lt_mul (show 0 < factor by omega)]
    rw [Finset.sum_congr rfl this, ← Finset.sum_filter]
    congr 1
    ext i
    simp only [Finset.mem_filter, Finset.mem_range]
    omega
  have hkept : (∑ j ∈ Finset.range (n + 1), if top ≤ j then (held j).length else 0) =
      ∑ j ∈ Finset.Ico top (n + 1), (held j).length := by
    rw [← Finset.sum_filter]
    congr 1
    ext j
    simp only [Finset.mem_filter, Finset.mem_range, Finset.mem_Ico]
    omega
  unfold countUpTo countBetween
  rw [show ((n : ℤ) + 1).toNat = n + 1 by omega, Int.toNat_natCast, Int.toNat_natCast,
    Int.toNat_zero, Finset.sum_congr rfl fun j _ => hlen j, Finset.sum_add_distrib, hmerged, hkept,
    Finset.range_eq_Ico]

/-- The threshold of the coarser buckets. -/
theorem tdiv_spec {t : ℤ} (ht : -1 ≤ t) {factor : ℕ} (hf : 2 ≤ factor) :
    ∃ n : ℕ, t.tdiv factor = n ∧ (n = 0 ∨ (n : ℤ) < t) ∧ (t + 1).toNat ≤ (n + 1) * factor := by
  rcases Int.lt_or_le t 0 with hneg | hpos
  · obtain rfl : t = -1 := by omega
    refine ⟨0, ?_, Or.inl rfl, Nat.zero_le _⟩
    rw [Int.neg_tdiv, Int.tdiv_eq_ediv_of_nonneg (by omega),
      Int.ediv_eq_zero_of_lt (by omega) (by omega)]
    rfl
  · obtain ⟨m, rfl⟩ := Int.eq_ofNat_of_zero_le hpos
    refine ⟨m / factor, by rw [Int.tdiv_eq_ediv_of_nonneg hpos]; rfl, ?_, ?_⟩
    · have : m / factor ≤ m / 2 := Nat.div_le_div_left hf (by omega)
      omega
    · have := Nat.lt_div_mul_add (a := m) (show 0 < factor by omega)
      rw [Nat.add_mul, Nat.one_mul]
      omega

/-- Moving the end of a range of buckets. -/
theorem sum_Ico_split {f : ℕ → ℕ} {a b c : ℕ} (hab : a ≤ b) (hbc : b ≤ c) :
    (∑ i ∈ Finset.Ico a b, f i) + ∑ i ∈ Finset.Ico b c, f i = ∑ i ∈ Finset.Ico a c, f i :=
  Finset.sum_Ico_consecutive f hab hbc

/-- What `coarsenBuckets` does to the count of admitted items, as sums over the buckets below
    the threshold, those merged below the new one, and the top one. -/
theorem coarsen_sums (cfg : Config α) (L : Lane α) {factor : ℕ} (hf : 2 ≤ factor) (keepTop : Bool)
    (hthr : -1 ≤ L.threshold) :
    ∃ n M : ℕ, L.threshold.tdiv factor = n ∧ (n = 0 ∨ (n : ℤ) < L.threshold) ∧
      (L.threshold + 1).toNat ≤ (n + 1) * factor ∧
      M = min ((n + 1) * factor) (cfg.mergedTop keepTop) ∧
      (L.updates + countBetween L.held (L.threshold + 1)
          (min ((L.threshold.tdiv factor + 1) * factor) (cfg.mergedTop keepTop)) : ℤ) -
        (countUpTo (coarsenHeld factor (cfg.mergedTop keepTop) L.held) (L.threshold.tdiv factor) +
          L.buffer.length : ℕ) =
        L.drift + ((∑ i ∈ Finset.Ico 0 (L.threshold + 1).toNat, L.heldLen i) +
            ∑ i ∈ Finset.Ico (L.threshold + 1).toNat M, L.heldLen i : ℕ) -
          ((∑ i ∈ Finset.Ico 0 M, L.heldLen i) +
            ∑ i ∈ Finset.Ico (cfg.mergedTop keepTop) (n + 1), L.heldLen i : ℕ) := by
  obtain ⟨n, hn, hnt, hle⟩ := tdiv_spec hthr hf
  refine ⟨n, _, hn, hnt, hle, rfl, ?_⟩
  set top := cfg.mergedTop keepTop
  set M := min ((n + 1) * factor) top with hM
  have hcount : countUpTo L.held L.threshold =
      ∑ i ∈ Finset.Ico 0 (L.threshold + 1).toNat, L.heldLen i := by
    rw [← Finset.range_eq_Ico]; rfl
  have hbetween : countBetween L.held (L.threshold + 1) (min (((n : ℤ) + 1) * factor) top) =
      ∑ i ∈ Finset.Ico (L.threshold + 1).toNat M, L.heldLen i := by
    have : (min (((n : ℤ) + 1) * factor) top).toNat = M := by
      rw [hM, show ((n : ℤ) + 1) * factor = ((n + 1) * factor : ℕ) by push_cast; rfl]
      omega
    unfold countBetween
    rw [this]
    rfl
  have hmerged : countBetween L.held 0 (M : ℕ) = ∑ i ∈ Finset.Ico 0 M, L.heldLen i := rfl
  have hkept : countBetween L.held top ((n : ℤ) + 1) =
      ∑ i ∈ Finset.Ico top (n + 1), L.heldLen i := rfl
  rw [hn, countUpTo_coarsenHeld hf, hbetween, hmerged, hkept]
  unfold Lane.drift Lane.admitted
  rw [hcount]
  push_cast
  omega

theorem Lane.Bounded.sum_past {cfg : Config α} {L : Lane α} (hL : L.Bounded cfg) {a b : ℕ}
    (ha : cfg.histoBucketCount ≤ a) : ∑ i ∈ Finset.Ico a b, L.heldLen i = 0 := by
  refine Finset.sum_eq_zero fun i hi => ?_
  unfold Lane.heldLen
  rw [hL i (le_trans ha (Finset.mem_Ico.mp hi).1)]
  rfl

/-- `coarsenBuckets` keeps the count of admitted items, except that with `keep_top` the
    items of the top bucket stay counted when the threshold was that bucket. -/
theorem coarsen_drift (cfg : Config α) {L : Lane α} (hL : L.Bounded cfg) {factor : ℕ}
    (hf : 2 ≤ factor) (keepTop : Bool) (hthr : -1 ≤ L.threshold)
    (htop : keepTop = true → 0 ≤ L.threshold ∧ L.threshold < cfg.histoBucketCount) :
    (L.updates + countBetween L.held (L.threshold + 1)
        (min ((L.threshold.tdiv factor + 1) * factor) (cfg.mergedTop keepTop)) : ℤ) -
      (countUpTo (coarsenHeld factor (cfg.mergedTop keepTop) L.held) (L.threshold.tdiv factor) +
        L.buffer.length : ℕ) =
      L.drift +
        if keepTop = true ∧ L.threshold = (cfg.histoBucketCount - 1 : ℕ) ∧
          2 ≤ cfg.histoBucketCount then (L.held (cfg.histoBucketCount - 1)).length else 0 := by
  obtain ⟨n, M, hn, hnt, hle, hM, hsums⟩ := coarsen_sums cfg L hf keepTop hthr
  set B := cfg.histoBucketCount with hB
  have htopB : cfg.mergedTop keepTop = if keepTop = true then B - 1 else B := rfl
  set top := cfg.mergedTop keepTop
  set T := (L.threshold + 1).toNat with hT
  have hsum : (∑ i ∈ Finset.Ico 0 T, L.heldLen i) + ∑ i ∈ Finset.Ico T M, L.heldLen i =
      (∑ i ∈ Finset.Ico 0 M, L.heldLen i) + (∑ i ∈ Finset.Ico top (n + 1), L.heldLen i) +
        if keepTop = true ∧ L.threshold = (B - 1 : ℕ) ∧ 2 ≤ B then L.heldLen (B - 1) else 0 := by
    rcases Nat.lt_or_ge top T with h | h
    · -- the threshold lies in the last bucket or past it
      rw [Finset.Ico_eq_empty (a := T) (b := M) (by omega), Finset.sum_empty, add_zero]
      cases keepTop with
      | false =>
        simp only [Bool.false_eq_true, if_false] at htopB
        rw [if_neg (by simp), hL.sum_past (a := top) (by omega), show M = B by omega,
          ← sum_Ico_split (Nat.zero_le B) (show B ≤ T by omega), hL.sum_past (a := B) le_rfl]
      | true =>
        simp only [if_true] at htopB
        obtain ⟨h0, hlt⟩ := htop rfl
        rw [show M = B - 1 by omega, show T = B - 1 + 1 by omega,
          Finset.sum_Ico_succ_top (Nat.zero_le _)]
        by_cases h2 : 2 ≤ B
        · rw [if_pos ⟨rfl, by omega, h2⟩, Finset.Ico_eq_empty (a := top) (by omega),
            Finset.sum_empty, add_zero]
        · rw [if_neg (fun h => h2 h.2.2), show B - 1 = 0 by omega, show top = 0 by omega,
            show n = 0 by omega]
          simp
    · have hnone : ¬ (keepTop = true ∧ L.threshold = (B - 1 : ℕ) ∧ 2 ≤ B) := by
        rintro ⟨hk, ht, h2⟩
        rw [if_pos hk] at htopB
        omega
      have hpast : ∑ i ∈ Finset.Ico top (n + 1), L.heldLen i = 0 := by
        by_cases hB0 : B ≤ top
        · exact hL.sum_past hB0
        · have hk : keepTop = true := by
            by_contra hk
            rw [if_neg hk] at htopB
            omega
          have := htop hk
          rw [Finset.Ico_eq_empty (by omega), Finset.sum_empty]
      rw [if_neg hnone, hpast, sum_Ico_split (Nat.zero_le T) (by omega), add_zero]
      rfl
  rw [hsums, hsum]
  unfold Lane.heldLen
  push_cast
  omega

/-- With at least two buckets `coarsenBuckets` never makes the count too small. -/
theorem coarsen_drift_le (cfg : Config α) {L : Lane α} (hB : 2 ≤ cfg.histoBucketCount)
    {factor : ℕ} (hf : 2 ≤ factor) (hthr : -1 ≤ L.threshold) :
    L.drift ≤ (L.updates + countBetween L.held (L.threshold + 1)
        (min ((L.threshold.tdiv factor + 1) * factor) (cfg.mergedTop true)) : ℤ) -
      (countUpTo (coarsenHeld factor (cfg.mergedTop true) L.held) (L.threshold.tdiv factor) +
        L.buffer.length : ℕ) := by
  obtain ⟨n, M, hn, hnt, hle, hM, hsums⟩ := coarsen_sums cfg L hf true hthr
  have htop : cfg.mergedTop true = cfg.histoBucketCount - 1 := rfl
  set top := cfg.mergedTop true
  set T := (L.threshold + 1).toNat with hT
  have hsum : (∑ i ∈ Finset.Ico 0 M, L.heldLen i) + ∑ i ∈ Finset.Ico top (n + 1), L.heldLen i ≤
      (∑ i ∈ Finset.Ico 0 T, L.heldLen i) + ∑ i ∈ Finset.Ico T M, L.heldLen i := by
    rcases Nat.lt_or_ge n top with h | h
    · -- no bucket past the merged ones is admitted afterwards
      rw [Finset.Ico_eq_empty (a := top) (by omega), Finset.sum_empty, add_zero]
      rcases Nat.le_total T M with hTM | hTM
      · rw [sum_Ico_split (Nat.zero_le T) hTM]
      · exact (Finset.sum_le_sum_of_subset (Finset.Ico_subset_Ico_right hTM)).trans
          (Nat.le_add_right _ _)
    · -- then all of them were admitted before
      have h1 : (∑ i ∈ Finset.Ico 0 M, L.heldLen i) ≤ ∑ i ∈ Finset.Ico 0 top, L.heldLen i :=
        Finset.sum_le_sum_of_subset (Finset.Ico_subset_Ico_right (by omega))
      have h2 : (∑ i ∈ Finset.Ico 0 (n + 1), L.heldLen i) ≤ ∑ i ∈ Finset.Ico 0 T, L.heldLen i :=
        Finset.sum_le_sum_of_subset (Finset.Ico_subset_Ico_right (by omega))
      have h3 := sum_Ico_split (f := L.heldLen) (Nat.zero_le top) (show top ≤ n + 1 by omega)
      omega
  rw [hsums]
  omega

/-- Unless the top bucket stops being admitted with something in it, `coarsenBuckets` never
    makes the count too large. -/
theorem coarsen_drift_ge (cfg : Config α) {L : Lane α} (hL : L.Bounded cfg) {factor : ℕ}
    (hf : 2 ≤ factor) (hthr : -1 ≤ L.threshold)
    (htop : ((cfg.histoBucketCount - 1 : ℕ) : ℤ) ≤ L.threshold →
      L.threshold.tdiv factor < (cfg.histoBucketCount - 1 : ℕ) →
      L.held (cfg.histoBucketCount - 1) = []) :
    (L.updates + countBetween L.held (L.threshold + 1)
        (min ((L.threshold.tdiv factor + 1) * factor) (cfg.mergedTop true)) : ℤ) -
      (countUpTo (coarsenHeld factor (cfg.mergedTop true) L.held) (L.threshold.tdiv factor) +
        L.buffer.length : ℕ) ≤ L.drift := by
  obtain ⟨n, M, hn, hnt, hle, hM, hsums⟩ := coarsen_sums cfg L hf true hthr
  have htopB : cfg.mergedTop true = cfg.histoBucketCount - 1 := rfl
  rw [hn] at htop
  rw [← htopB] at htop
  set top := cfg.mergedTop true
  set T := (L.threshold + 1).toNat with hT
  have hsum : (∑ i ∈ Finset.Ico 0 T, L.heldLen i) + ∑ i ∈ Finset.Ico T M, L.heldLen i ≤
      (∑ i ∈ Finset.Ico 0 M, L.heldLen i) + ∑ i ∈ Finset.Ico top (n + 1), L.heldLen i := by
    rcases Nat.lt_or_ge top T with h | h
    · -- the top bucket was admitted
      have hpast := hL.sum_past (a := top + 1) (b := T) (by omega)
      have hsplit := sum_Ico_split (f := L.heldLen) (Nat.zero_le top) (show top ≤ T by omega)
      have hone := Finset.sum_eq_sum_Ico_succ_bot h L.heldLen
      rw [Finset.Ico_eq_empty (a := T) (b := M) (by omega), Finset.sum_empty,
        show M = top by omega]
      rcases Nat.lt_or_ge n top with hn' | hn'
      · have hnil : L.heldLen top = 0 := by
          unfold Lane.heldLen
          rw [htop (by omega) (by omega)]
          rfl
        omega
      · have hin := Finset.sum_eq_sum_Ico_succ_bot (show top < n + 1 by omega) L.heldLen
        omega
    · rw [sum_Ico_split (Nat.zero_le T) (by omega)]
      exact Nat.le_add_right _ _
  rw [hsums]
  omega

theorem Fillers.admitted {cfg : Config α} {t : ℤ} {held held' : ℕ → List (UInt64 × α)}
    {fs : List (Item α)} (hf : Fillers cfg t held fs held') :
    ∀ b : ℕ, (b : ℤ) ≤ t → held' b = held b := by
  induction hf with
  | nil => exact fun _ _ => rfl
  | snoc _ habove _ _ ih =>
    intro b hb
    rw [Function.update_of_ne (by omega), ih b hb]

theorem Fillers.bounded {cfg : Config α} {t : ℤ} {held held' : ℕ → List (UInt64 × α)}
    {fs : List (Item α)} (hf : Fillers cfg t held fs held')
    (hb : ∀ b ≥ cfg.histoBucketCount, held b = []) :
    ∀ b ≥ cfg.histoBucketCount, held' b = [] := by
  induction hf with
  | nil => exact hb
  | @snoc held' _ c _ _ _ _ _ _ hc ih =>
    intro b hge
    by_cases he : b = c
    · subst he
      rw [ih b hge] at hc
      cases hc
    · rw [Function.update_of_ne he, ih b hge]

/-! ## The admitted count -/

/-- A lane as the code keeps it. -/
structure Lane.Valid (cfg : Config α) (L : Lane α) : Prop where
  bounded : L.Bounded cfg
  threshold : -1 ≤ L.threshold

theorem Lane.Bounded.lt {cfg : Config α} {L : Lane α} (hL : L.Bounded cfg) {b : ℕ}
    (h : L.held b ≠ []) : b < cfg.histoBucketCount := by
  by_contra hge
  exact h (hL b (by omega))

theorem Lane.Bounded.update {cfg : Config α} {L : Lane α} (hL : L.Bounded cfg) {b : ℕ}
    (hb : b < cfg.histoBucketCount) (l : List (UInt64 × α)) :
    ∀ c ≥ cfg.histoBucketCount, Function.update L.held b l c = [] := by
  intro c hc
  rw [Function.update_of_ne (by omega), hL c hc]

theorem Move.valid {cfg : Config α} {R : Rules} {xs : List (Input α)} {L L' : Lane α}
    (hm : Move cfg R xs L L') (hL : L.Valid cfg) : L'.Valid cfg := by
  obtain ⟨hb, ht⟩ := hL
  cases hm with
  | hold _ x b pe hlt => exact ⟨hb.update hlt _, ht⟩
  | direct => exact ⟨hb, ht⟩
  | raw => exact ⟨hb, ht⟩
  | fold _ x y b c pe l r _ hc _ => exact ⟨hb.update (hb.lt (by simp [hc])) _, ht⟩
  | foldMove _ x y b c pe l r _ hlt hc _ =>
    refine ⟨fun j hj => ?_, ht⟩
    show Function.update (Function.update L.held c _) b _ j = []
    rw [Function.update_of_ne (by omega)]
    exact hb.update (hb.lt (by simp [hc])) _ j hj
  | take _ b k x rest _ hc => exact ⟨hb.update (hb.lt (by simp [hc])) _, ht⟩
  | ship => exact ⟨hb, ht⟩
  | shipFilled _ s fs held' _ _ hfs => exact ⟨hfs.bounded hb, ht⟩
  | retune _ t ht' => exact ⟨hb, ht'⟩
  | coarsen _ factor hf keepTop _ =>
    obtain ⟨n, hn, -⟩ := tdiv_spec ht hf
    refine ⟨fun j hj => ?_, show (-1 : ℤ) ≤ L.threshold.tdiv factor by omega⟩
    show coarsenHeld factor _ L.held j = []
    have htop : cfg.mergedTop keepTop ≤ cfg.histoBucketCount := by
      unfold Config.mergedTop
      split_ifs <;> omega
    unfold coarsenHeld
    rw [List.filter_eq_nil_iff.mpr, hb j hj]
    · simp
    · intro i hi
      have := Nat.div_le_self i factor
      have := List.mem_range.mp hi
      simp only [decide_eq_true_eq]
      omega
  | resize => exact ⟨hb, ht⟩
  | newRound => exact ⟨hb, ht⟩

/-- The number of items that bypass the buckets. -/
def raws (xs : List (Input α)) : ℕ := xs.countP Input.isRaw

@[simp] theorem raws_nil : raws ([] : List (Input α)) = 0 := rfl

@[simp] theorem raws_send (x : α) (b pe : ℕ) : raws [Input.send x b pe] = 0 := rfl

@[simp] theorem raws_raw (x : α) (pe : ℕ) : raws [Input.raw x pe] = 1 := rfl

@[simp] theorem raws_append (xs ys : List (Input α)) : raws (xs ++ ys) = raws xs + raws ys :=
  List.countP_append

/-- A move without `keep_top` changes the count of admitted items as it changes what is
    admitted, but for an item that bypasses the buckets. -/
theorem Move.drift {cfg : Config α} {R : Rules} (hR : R.keepTop = false) {xs : List (Input α)}
    {L L' : Lane α} (hm : Move cfg R xs L L') (hL : L.Valid cfg) :
    L'.drift = L.drift - raws xs := by
  unfold Lane.drift Lane.admitted
  cases hm with
  | hold _ x b pe hlt =>
    have h := countUpTo_update L.held L.threshold b (L.held b ++ [(cfg.ops.key x, x)])
    simp only [List.length_append, List.length_singleton] at h
    rw [raws_send]
    split_ifs at h ⊢ <;> push_cast <;> omega
  | direct => simp only [List.length_append, List.length_singleton, raws_send]; omega
  | raw => simp only [List.length_append, List.length_singleton, raws_raw]; omega
  | fold _ x y b c pe l r _ hc _ =>
    have h := countUpTo_update L.held L.threshold c
      (l ++ (cfg.ops.key x, (cfg.ops.combine y x).1) :: r)
    rw [hc] at h
    simp only [List.length_append, List.length_cons] at h
    rw [raws_send]
    split_ifs at h ⊢ <;> push_cast <;> omega
  | foldMove _ x y b c pe l r _ hlt hc hmoved =>
    have h1 := countUpTo_update L.held L.threshold c (l ++ r)
    have h2 := countUpTo_update (Function.update L.held c (l ++ r)) L.threshold b
      (L.held b ++ [(cfg.ops.key x, (cfg.ops.combine y x).1)])
    rw [Function.update_of_ne hmoved.2] at h2
    rw [hc] at h1
    simp only [List.length_append, List.length_cons, List.length_nil] at h1 h2
    rw [raws_send]
    split_ifs at h1 h2 ⊢ <;> push_cast <;> omega
  | take _ b k x rest hle hheld =>
    have h := countUpTo_update L.held L.threshold b rest
    rw [hheld, if_pos hle, if_pos hle] at h
    simp only [List.length_cons] at h
    simp only [List.length_append, List.length_singleton, raws_nil]
    omega
  | ship => simp only [List.length_nil, raws_nil]; omega
  | shipFilled _ s fs held' _ _ hfs =>
    rw [countUpTo_congr fun b hb => congrArg List.length (hfs.admitted b hb)]
    simp only [List.length_nil, raws_nil]
    omega
  | retune => simp only [raws_nil]; omega
  | coarsen _ factor hf keepTop hk =>
    have hkeep : keepTop = false := by
      by_contra h
      rw [hk (by simpa using h)] at hR
      cases hR
    subst hkeep
    have h := coarsen_drift cfg hL.bounded hf false hL.threshold (by simp)
    simp only [Bool.false_eq_true, false_and, if_false] at h
    unfold Lane.drift Lane.admitted at h
    rw [h]
    simp
  | resize => simp
  | newRound => simp

theorem Path.valid {cfg : Config α} {R : Rules} {xs : List (Input α)} {L L' : Lane α}
    (hp : Path cfg R xs L L') (hL : L.Valid cfg) : L'.Valid cfg :=
  hp.invariant (P := fun _ => True) (fun _ _ _ hm _ => hm.valid) (fun _ _ => trivial) hL

/-- The count of admitted items is off by the number of items that bypassed the buckets. -/
theorem Path.drift {cfg : Config α} {R : Rules} (hR : R.keepTop = false) {xs : List (Input α)}
    {L L' : Lane α} (hp : Path cfg R xs L L') (hL : L.Valid cfg) :
    L'.drift = L.drift - raws xs := by
  induction hp with
  | nil L => simp
  | snoc hp hm ih =>
    rw [hm.drift hR (hp.valid hL), ih hL, raws_append]
    push_cast
    omega

/-- A move is one without `keep_top`, or it is `coarsenBuckets` with it. -/
theorem Move.topless_or {cfg : Config α} {R : Rules} {xs : List (Input α)} {L L' : Lane α}
    (hm : Move cfg R xs L L') :
    Move cfg { R with keepTop := false } xs L L' ∨ xs = [] ∧ ∃ factor : ℕ, 2 ≤ factor ∧ L' =
      { L with
        threshold := L.threshold.tdiv factor
        held := coarsenHeld factor (cfg.mergedTop true) L.held
        updates := L.updates + countBetween L.held (L.threshold + 1)
          (min ((L.threshold.tdiv factor + 1) * factor) (cfg.mergedTop true)) } := by
  cases hm with
  | coarsen _ factor hf keepTop _ =>
    cases keepTop with
    | false => exact Or.inl (.coarsen L factor hf false (by simp))
    | true => exact Or.inr ⟨rfl, factor, hf, rfl⟩
  | hold _ x b pe hb => exact Or.inl (.hold L x b pe hb)
  | direct _ x b pe hb => exact Or.inl (.direct L x b pe hb)
  | raw _ x pe => exact Or.inl (.raw L x pe)
  | fold _ x y b c pe l r hf hc hs => exact Or.inl (.fold L x y b c pe l r hf hc hs)
  | foldMove _ x y b c pe l r hf hb hc hm =>
    exact Or.inl (.foldMove L x y b c pe l r hf hb hc hm)
  | take _ b k x rest hb hh => exact Or.inl (.take L b k x rest hb hh)
  | ship _ s full counted h1 h2 h3 h4 => exact Or.inl (.ship L s full counted h1 h2 h3 h4)
  | shipFilled _ s fs held' h h1 h2 h3 h4 h5 h6 h7 =>
    exact Or.inl (.shipFilled L s fs held' h h1 h2 h3 h4 h5 h6 h7)
  | retune _ t ht => exact Or.inl (.retune L t ht)
  | resize _ n => exact Or.inl (.resize L n)
  | newRound _ => exact Or.inl (.newRound L)

/-- With at least two buckets and no item that bypasses them the count never gets too
    small. -/
theorem Path.drift_le {cfg : Config α} {R : Rules} (hB : 2 ≤ cfg.histoBucketCount)
    {xs : List (Input α)} {L L' : Lane α} (hp : Path cfg R xs L L') (hL : L.Valid cfg)
    (hxs : raws xs = 0) : L.drift ≤ L'.drift := by
  induction hp with
  | nil L => exact le_refl _
  | snoc hp hm ih =>
    rw [raws_append] at hxs
    have ih := ih hL (by omega)
    have hvalid := hp.valid hL
    rcases hm.topless_or with hm' | ⟨-, factor, hf, rfl⟩
    · rw [hm'.drift rfl hvalid]
      omega
    · exact ih.trans (coarsen_drift_le cfg hB hf hvalid.threshold)

end Htram
