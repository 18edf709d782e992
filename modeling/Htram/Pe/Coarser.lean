import Htram.Common.RankSort
import Htram.Pe.Items

/-!
# Coarser buckets, once and twice

`coarsenBuckets` when it releases nothing: bucket `i` becomes bucket `i / k`, and two
calls do what one call with the product does.

* `coarsenHeld_comp`: the buckets after two steps.
* `coarsen_admits_comp`: the items that two steps admit.
* `HTram.coarsenBuckets_relabels`: the call on a PE.
-/

namespace Htram

open RankSort

variable {α F : Type*}

/-! ## Buckets -/

/-- Two steps of coarsening put every bucket where one step by the product puts it, in
    the same order. -/
theorem coarsenHeld_comp {β : Type*} (k₁ k₂ top : ℕ) (held : ℕ → List β) (j : ℕ) :
    coarsenHeld k₂ top (coarsenHeld k₁ top held) j = coarsenHeld (k₁ * k₂) top held j := by
  have hsorted : (List.range top).Pairwise fun a b => a / k₁ ≤ b / k₁ :=
    List.pairwise_lt_range.imp fun h => Nat.div_le_div_right h.le
  have hlt : ∀ i ∈ List.range top, i / k₁ < top := fun i hi =>
    (Nat.div_le_self i k₁).trans_lt (List.mem_range.mp hi)
  have hidx := flatMap_ofRank_filter (· / k₁) hsorted hlt fun i => decide (i / k₂ = j)
  have hfirst : ∀ i ∈ (List.range top).filter (fun i => i / k₂ = j),
      coarsenHeld k₁ top held i = (ofRank (· / k₁) (List.range top) i).flatMap held := by
    intro i hi
    have := List.mem_range.mp (List.mem_filter.mp hi).1
    rw [coarsenHeld, if_neg (by omega), List.append_nil]
    rfl
  have hlast : (if top ≤ j then coarsenHeld k₁ top held j else []) =
      if top ≤ j then held j else [] := by
    split_ifs with hj
    · unfold coarsenHeld
      rw [List.filter_eq_nil_iff.mpr, if_pos hj]
      · rfl
      · intro i hi
        have := hlt i hi
        rw [decide_eq_true_eq]
        omega
    · rfl
  rw [coarsenHeld, hlast, List.flatMap_congr hfirst, ← List.flatMap_assoc, hidx]
  simp only [Nat.div_div_eq_div_mul]
  rfl

/-- The items of the merged buckets from `a` to below `b`. -/
theorem countBetween_coarsenHeld {β : Type*} {k : ℕ} (hk : 0 < k) {top a b : ℕ} (hb : b ≤ top)
    (held : ℕ → List β) :
    countBetween (coarsenHeld k top held) a b =
      countBetween held (a * k : ℕ) (min (b * k) top : ℕ) := by
  have hlen := coarsenHeld_total List.length rfl (fun _ _ => List.length_append) k top held
  have hmerged : ∀ j ∈ Finset.Ico a b, (coarsenHeld k top held j).length =
      ∑ i ∈ Finset.range top, if i / k = j then (held i).length else 0 := by
    intro j hj
    have := (Finset.mem_Ico.mp hj).2
    rw [hlen, if_neg (by omega), Nat.add_zero]
  have hin : ∀ i ∈ Finset.range top, (∑ j ∈ Finset.Ico a b,
      if i / k = j then (held i).length else 0) =
        if a * k ≤ i ∧ i < b * k then (held i).length else 0 := by
    intro i _
    rw [Finset.sum_ite_eq]
    simp only [Finset.mem_Ico, Nat.le_div_iff_mul_le hk, Nat.div_lt_iff_lt_mul hk]
  unfold countBetween
  simp only [Int.toNat_natCast]
  rw [Finset.sum_congr rfl hmerged, Finset.sum_comm, Finset.sum_congr rfl hin, ← Finset.sum_filter]
  congr 1
  ext i
  simp only [Finset.mem_filter, Finset.mem_range, Finset.mem_Ico]
  omega

/-- What the first step admits and what the second admits, one step by the product
    admits. -/
theorem coarsen_admits_comp {β : Type*} {k₁ k₂ : ℕ} (hk₁ : 0 < k₁) (hk₂ : 0 < k₂) (t top : ℕ)
    (held : ℕ → List β) :
    countBetween held (t + 1 : ℕ) (min ((t / k₁ + 1) * k₁) top : ℕ) +
        countBetween (coarsenHeld k₁ top held) (t / k₁ + 1 : ℕ)
          (min ((t / k₁ / k₂ + 1) * k₂) top : ℕ) =
      countBetween held (t + 1 : ℕ) (min ((t / (k₁ * k₂) + 1) * (k₁ * k₂)) top : ℕ) := by
  have hup : t / k₁ + 1 ≤ (t / k₁ / k₂ + 1) * k₂ := by
    have := Nat.lt_div_mul_add (a := t / k₁) hk₂
    rw [Nat.add_mul, Nat.one_mul]
    omega
  have hup' : (t / k₁ + 1) * k₁ ≤ (t / k₁ / k₂ + 1) * k₂ * k₁ := Nat.mul_le_mul_right k₁ hup
  have htop : top ≤ top * k₁ := Nat.le_mul_of_pos_right top hk₁
  have ht : t + 1 ≤ (t / k₁ + 1) * k₁ := by
    have := Nat.lt_div_mul_add (a := t) hk₁
    rw [Nat.add_mul, Nat.one_mul]
    omega
  have hmin : min (min ((t / k₁ / k₂ + 1) * k₂) top * k₁) top =
      min ((t / (k₁ * k₂) + 1) * (k₁ * k₂)) top := by
    rw [← Nat.mul_min_mul_right, Nat.div_div_eq_div_mul, Nat.mul_comm k₁ k₂, ← Nat.mul_assoc]
    omega
  have hfull : (t / k₁ / k₂ + 1) * k₂ * k₁ = (t / (k₁ * k₂) + 1) * (k₁ * k₂) := by
    rw [Nat.div_div_eq_div_mul, Nat.mul_assoc, Nat.mul_comm k₂ k₁]
  rw [hfull] at hup'
  rw [countBetween_coarsenHeld hk₁ (min_le_right _ _), hmin]
  unfold countBetween
  simp only [Int.toNat_natCast]
  generalize (t / (k₁ * k₂) + 1) * (k₁ * k₂) = m at *
  generalize (t / k₁ + 1) * k₁ = a at *
  rcases Nat.le_total a top with h | h
  · rw [Nat.min_eq_left h, Finset.sum_Ico_consecutive _ ht (by omega)]
  · rw [Nat.min_eq_right h, Finset.Ico_eq_empty (a := a) (by omega), Finset.sum_empty, Nat.add_zero,
      Nat.min_eq_right (by omega)]

/-! ## One destination -/

namespace Dest

/-- The queues and the count after `coarsenBuckets`, before items are released. -/
theorem coarsen_stored {cfg : Config α} {k : Knobs F} (hk : k.combining = false) {factor : ℕ}
    (hf : 2 ≤ factor) (keepTop : Bool) {d : Dest α} (hd : d.Stored cfg) {t : ℕ}
    (ht : k.tramThreshold = t) :
    (d.coarsen cfg k factor keepTop).Stored cfg ∧
      (d.coarsen cfg k factor keepTop).queues =
        coarsenHeld factor (cfg.mergedTop keepTop) d.queues ∧
      (d.coarsen cfg k factor keepTop).updatesInTram = d.updatesInTram +
        (countBetween d.queues (t + 1 : ℕ)
          (min ((t / factor + 1) * factor) (cfg.mergedTop keepTop) : ℕ) : ℕ) := by
  have hdiv : k.tramThreshold.tdiv factor = (t / factor : ℕ) := by rw [ht]; rfl
  unfold coarsen
  dsimp only
  rw [admitMerged_eq hk hd]
  generalize hu : d.updatesInTram + (countBetween (d.lane cfg k).held (k.tramThreshold + 1)
    (min ((k.tramThreshold.tdiv factor + 1) * factor) (cfg.mergedTop keepTop)) : ℤ) = u
  have hst : ({ d with updatesInTram := u } : Dest α).Stored cfg := hd.congr rfl rfl rfl
  obtain ⟨hs, hrest, hq⟩ := mergeBuckets_spec hf (cfg.mergedTop keepTop) hst
  refine ⟨hs, funext hq, ?_⟩
  have hlen : ∀ b, ((d.lane cfg k).held b).length = (d.queues b).length := by
    intro b
    rw [lane_heldLen cfg hk, HoldQueue.size_eq_length]
    rfl
  rw [hrest, ← hu, hdiv, ht]
  show d.updatesInTram + _ = _
  unfold countBetween
  simp only [hlen]
  congr 4
  push_cast
  rfl

/-- Two steps leave the queues and the count that one step by the product leaves. -/
theorem coarsen_twice {cfg : Config α} {k : Knobs F} (hk : k.combining = false) {m n : ℕ}
    (hm : 2 ≤ m) (hn : 2 ≤ n) (keepTop : Bool) {d : Dest α} (hd : d.Stored cfg)
    (h0 : 0 ≤ k.tramThreshold) :
    ((d.coarsen cfg k m keepTop).coarsen cfg (k.coarsened m) n keepTop).queues =
        (d.coarsen cfg k (m * n) keepTop).queues ∧
      ((d.coarsen cfg k m keepTop).coarsen cfg (k.coarsened m) n keepTop).updatesInTram =
        (d.coarsen cfg k (m * n) keepTop).updatesInTram := by
  obtain ⟨t, ht⟩ := Int.eq_ofNat_of_zero_le h0
  have ht' : (k.coarsened m).tramThreshold = (t / m : ℕ) := by
    show k.tramThreshold.tdiv m = _
    rw [ht]
    rfl
  have hmn : 2 ≤ m * n := le_trans hm (Nat.le_mul_of_pos_right m (by omega))
  obtain ⟨hs, hq₁, hu₁⟩ := coarsen_stored hk hm keepTop hd ht
  obtain ⟨-, hq₂, hu₂⟩ := coarsen_stored (k := k.coarsened m) hk hn keepTop hs ht'
  obtain ⟨-, hq, hu⟩ := coarsen_stored hk hmn keepTop hd ht
  constructor
  · rw [hq₂, hq₁, hq]
    exact funext fun j => coarsenHeld_comp m n _ _ j
  · have hadmits := coarsen_admits_comp (show 0 < m by omega) (show 0 < n by omega) t
      (cfg.mergedTop keepTop) d.queues
    rw [hu₂, hu₁, hq₁, hu, ← hadmits]
    omega

end Dest

/-- Two steps of the thresholds. -/
theorem Knobs.coarsened_comp {k : Knobs F} (h0 : 0 ≤ k.tramThreshold) (m n : ℕ) :
    (k.coarsened m).coarsened n = k.coarsened (m * n) := by
  have hdiv : ∀ t : ℤ, 0 ≤ t → (t.tdiv m).tdiv n = t.tdiv (m * n : ℕ) := by
    intro t ht
    obtain ⟨t, rfl⟩ := Int.eq_ofNat_of_zero_le ht
    show ((t / m / n : ℕ) : ℤ) = (t / (m * n) : ℕ)
    rw [Nat.div_div_eq_div_mul]
  unfold Knobs.coarsened
  dsimp only
  rw [hdiv _ h0]
  congr 1
  by_cases hpos : k.directThreshold > 0
  · rw [if_pos hpos, if_pos hpos, ← hdiv _ hpos.le]
    split_ifs with hdpos
    · rfl
    · obtain ⟨t, ht⟩ := Int.eq_ofNat_of_zero_le hpos.le
      rw [ht] at hdpos ⊢
      have hzero : t / m = 0 := by
        by_contra hne
        exact hdpos (Int.natCast_pos.mpr (Nat.pos_of_ne_zero hne))
      show ((t / m : ℕ) : ℤ) = (t / m / n : ℕ)
      rw [hzero, Nat.zero_div]
  · rw [if_neg hpos, if_neg hpos, if_neg hpos]

/-! ## The call -/

namespace HTram

variable [ReleaseArith F]

/-- `coarsenBuckets(factor, keepTop)` admits no more items anywhere than may wait. -/
def Quiet (cfg : Config α) (factor : ℤ) (keepTop : Bool) (p : HTram α F) : Prop :=
  ∀ d < p.destCount cfg,
    ReleaseArith.gt ((p.dest d).coarsen cfg p.knobs factor.toNat keepTop).updatesInTram
      (ReleaseArith.level p.knobs.selectivity p.knobs.bufSize) = false

/-- The two PEs have the same settings and, for each destination, the same queues and the
    same admitted count. -/
structure SameBuckets (cfg : Config α) (p q : HTram α F) : Prop where
  knobs : p.knobs = q.knobs
  queues : ∀ d < p.destCount cfg, (p.dest d).queues = (q.dest d).queues
  updates : ∀ d < p.destCount cfg, (p.dest d).updatesInTram = (q.dest d).updatesInTram

variable {cfg : Config α} {p : HTram α F}

/-- Without a release the call is the merge of every destination. -/
theorem coarsenBuckets_quiet {k : ℤ} (hk : 2 ≤ k) {keepTop : Bool}
    (hoff : p.knobs.combining = false) (h0 : 0 ≤ p.knobs.tramThreshold)
    (hp : ∀ d < p.destCount cfg, (p.dest d).Stored cfg) (hquiet : p.Quiet cfg k keepTop) :
    p.coarsenBuckets cfg k keepTop = .returns
      (p.mapDest cfg (p.knobs.coarsened k.toNat) (Dest.coarsen cfg p.knobs k.toNat keepTop)) := by
  obtain ⟨t, ht⟩ := Int.eq_ofNat_of_zero_le h0
  have hrelease : ∀ d < p.destCount cfg,
      ((p.dest d).coarsen cfg p.knobs k.toNat keepTop).releaseAbove cfg
        (p.knobs.coarsened k.toNat) = (p.dest d).coarsen cfg p.knobs k.toNat keepTop := by
    intro d hd
    unfold Dest.releaseAbove
    refine if_neg ?_
    rw [show (p.knobs.coarsened k.toNat).selectivity = p.knobs.selectivity from rfl,
      show (p.knobs.coarsened k.toNat).bufSize = p.knobs.bufSize from rfl, hquiet d hd]
    simp
  unfold coarsenBuckets
  rw [if_neg (by omega), if_neg (by simp [hoff])]
  dsimp only
  rw [forDest_eq]
  · congr 1
    unfold mapDest
    congr 1
    funext d
    by_cases hd : d < p.destCount cfg
    · have hd' : d < (⟨p.knobs.coarsened k.toNat, fun d => if d < p.destCount cfg then
          (p.dest d).coarsen cfg p.knobs k.toNat keepTop else p.dest d⟩ :
            HTram α F).destCount cfg := hd
      simp only [hd', hd, if_true]
      exact hrelease d hd
    · exact if_neg hd
  · intro d hd
    have hd' : d < p.destCount cfg := hd
    rw [mapDest_dest _ _ hd', hrelease d hd']
    exact (Dest.coarsen_stored hoff (by omega) keepTop (hp d hd') ht).1.stuck

/-- A second call does what one call with the product does. -/
theorem coarsenBuckets_twice {m n : ℕ} (hm : 2 ≤ m) (hn : 2 ≤ n) {keepTop : Bool}
    (hoff : p.knobs.combining = false) (h0 : 0 ≤ p.knobs.tramThreshold)
    (hp : ∀ d < p.destCount cfg, (p.dest d).Stored cfg)
    (hquiet : p.Quiet cfg (m * n) keepTop) :
    ∃ r s, (p.mapDest cfg (p.knobs.coarsened m)
        (Dest.coarsen cfg p.knobs m keepTop)).coarsenBuckets cfg n keepTop = .returns r ∧
      p.coarsenBuckets cfg (m * n) keepTop = .returns s ∧ r.SameBuckets cfg s := by
  obtain ⟨t, ht⟩ := Int.eq_ofNat_of_zero_le h0
  have hmn : ((m : ℤ) * n).toNat = m * n := by rw [← Int.natCast_mul, Int.toNat_natCast]
  have htwice : ∀ d < p.destCount cfg, _ := fun d hd =>
    Dest.coarsen_twice (k := p.knobs) hoff hm hn keepTop (hp d hd) h0
  set q := p.mapDest cfg (p.knobs.coarsened m) (Dest.coarsen cfg p.knobs m keepTop) with hq
  have hqd : ∀ d < p.destCount cfg, q.dest d = (p.dest d).coarsen cfg p.knobs m keepTop :=
    fun d hd => mapDest_dest _ _ hd
  have hquiet' : q.Quiet cfg n keepTop := by
    intro d hd
    have h := hquiet d hd
    rw [hmn, ← (htwice d hd).2] at h
    rw [hqd d hd]
    exact h
  have hsecond := coarsenBuckets_quiet (p := q) (k := n) (by omega) hoff
    (show 0 ≤ p.knobs.tramThreshold.tdiv m from Int.tdiv_nonneg h0 (by omega))
    (fun d hd => by rw [hqd d hd]; exact (Dest.coarsen_stored hoff hm keepTop (hp d hd) ht).1)
    hquiet'
  have hdirect := coarsenBuckets_quiet (p := p) (k := m * n) (by
    have := Nat.le_mul_of_pos_right m (show 0 < n by omega)
    rw [← Int.natCast_mul]
    omega) hoff h0 hp hquiet
  refine ⟨_, _, hsecond, hdirect, ?_, fun d hd => ?_, fun d hd => ?_⟩
  · rw [hmn]
    exact Knobs.coarsened_comp h0 m n
  · have hd' : d < p.destCount cfg := hd
    rw [mapDest_dest (p := q) _ _ hd, mapDest_dest _ _ hd', mapDest_dest _ _ hd', hmn]
    exact (htwice d hd').1
  · have hd' : d < p.destCount cfg := hd
    rw [mapDest_dest (p := q) _ _ hd, mapDest_dest _ _ hd', mapDest_dest _ _ hd', hmn]
    exact (htwice d hd').2

/-- `coarsenBuckets` that releases nothing puts queue `i` below the merged top into queue
    `i / k`, keeps every item, and is followed by a second call as by one with the
    product. -/
theorem coarsenBuckets_relabels {k : ℤ} (hk : 2 ≤ k) {keepTop : Bool}
    (hoff : p.knobs.combining = false) (h0 : 0 ≤ p.knobs.tramThreshold)
    (hp : ∀ d < p.destCount cfg, (p.dest d).Stored cfg) (hquiet : p.Quiet cfg k keepTop) :
    ∃ q, p.coarsenBuckets cfg k keepTop = .returns q ∧
      (∀ d < p.destCount cfg,
        (q.dest d).queues = coarsenHeld k.toNat (cfg.mergedTop keepTop) (p.dest d).queues ∧
          (q.dest d).held cfg q.knobs = (p.dest d).held cfg p.knobs) ∧
      ∀ k₂ : ℤ, 2 ≤ k₂ → p.Quiet cfg (k * k₂) keepTop →
        ∃ r s, q.coarsenBuckets cfg k₂ keepTop = .returns r ∧
          p.coarsenBuckets cfg (k * k₂) keepTop = .returns s ∧ r.SameBuckets cfg s := by
  obtain ⟨t, ht⟩ := Int.eq_ofNat_of_zero_le h0
  obtain ⟨m, rfl⟩ := Int.eq_ofNat_of_zero_le (show 0 ≤ k by omega)
  have hm : 2 ≤ m := by omega
  refine ⟨_, coarsenBuckets_quiet hk hoff h0 hp hquiet, fun d hd => ?_, fun k₂ hk₂ hquiet' => ?_⟩
  · rw [mapDest_dest _ _ hd]
    have hqueues := (Dest.coarsen_stored (k := p.knobs) hoff hm keepTop (hp d hd) ht).2.1
    refine ⟨hqueues, ?_⟩
    have hoff' : (p.knobs.coarsened (Int.toNat m)).combining = false := hoff
    have hsum : (∑ j ∈ Finset.range cfg.histoBucketCount,
        ((coarsenHeld m (cfg.mergedTop keepTop) (p.dest d).queues j : List α) : Multiset α)) =
          ∑ j ∈ Finset.range cfg.histoBucketCount, (((p.dest d).queues j : List α) : Multiset α) :=
      coarsenHeld_sum (fun l : List α => (l : Multiset α)) rfl
        (fun l r => (Multiset.coe_add l r).symm) (cfg.mergedTop_le keepTop) (p.dest d).queues
    rw [← hqueues] at hsum
    unfold Dest.held
    show (if (p.knobs.coarsened (Int.toNat m)).combining = true then _ else _) = _
    rw [hoff', hoff]
    exact hsum
  · obtain ⟨n, rfl⟩ := Int.eq_ofNat_of_zero_le (show 0 ≤ k₂ by omega)
    exact coarsenBuckets_twice hm (by omega) hoff h0 hp hquiet'

/-- One item in each of the buckets 1, 2, 5 and 7. -/
def fourOffers : List (Op KeyValue ℚ) := [offer 1 1, offer 2 2, offer 3 5, offer 4 7]

theorem coarsenBuckets_relabels_four :
    ∃ p q r s : HTram KeyValue ℚ, session oneNode .WPs 4 [] false fourOffers = .returns p ∧
      p.coarsenBuckets oneNode 2 true = .returns q ∧ q.coarsenBuckets oneNode 2 true = .returns r ∧
      p.coarsenBuckets oneNode 4 true = .returns s ∧ r.SameBuckets oneNode s ∧
      (q.dest 0).queues 1 = [⟨2, 2⟩] := by
  have hran : (session oneNode .WPs 4 [] false fourOffers).Holds _ fun _ => False :=
    session_ran (by decide) (by decide) (by simp)
      (by simp [fourOffers, offer, Op.InRange, oneNode]) (fun op _ => op.rules_le false)
      fun h => by cases h
  obtain ⟨p, hp, hone, hzero, h2, h4, hqueue⟩ := Outcome.of_check
    (P := fun p : HTram KeyValue ℚ => p.destCount oneNode = 1 ∧ p.knobs.tramThreshold = 0 ∧
      ReleaseArith.gt ((p.dest 0).coarsen oneNode p.knobs 2 true).updatesInTram
        (ReleaseArith.level p.knobs.selectivity p.knobs.bufSize) = false ∧
      ReleaseArith.gt ((p.dest 0).coarsen oneNode p.knobs 4 true).updatesInTram
        (ReleaseArith.level p.knobs.selectivity p.knobs.bufSize) = false ∧
      coarsenHeld 2 7 (p.dest 0).queues 1 = [⟨2, 2⟩])
    (o := session oneNode .WPs 4 [] false fourOffers) (by decide +kernel)
  rw [hp] at hran
  have hq : Ran oneNode .WPs false _ _ p := hran
  have hquiet : ∀ k : ℤ, ReleaseArith.gt
      ((p.dest 0).coarsen oneNode p.knobs k.toNat true).updatesInTram
        (ReleaseArith.level p.knobs.selectivity p.knobs.bufSize) = false →
      p.Quiet oneNode k true := by
    intro k h d hd
    obtain rfl : d = 0 := Nat.lt_one_iff.mp (hone ▸ hd)
    exact h
  have hstored : ∀ d < p.destCount oneNode, (p.dest d).Stored oneNode := fun d hd =>
    ((Dest.settled_off hq.combining_eq).mp (hq.steady.dest d hd)).toStored
  obtain ⟨q, hq2, hd, htwice⟩ := coarsenBuckets_relabels (le_refl 2) hq.combining_eq (by omega)
    hstored (hquiet 2 h2)
  obtain ⟨r, s, hr, hs, hsame⟩ := htwice 2 (le_refl 2) (hquiet (2 * 2) h4)
  refine ⟨p, q, r, s, hp, hq2, hr, hs, hsame, ?_⟩
  rw [(hd 0 (by omega)).1]
  exact hqueue

end HTram

end Htram
