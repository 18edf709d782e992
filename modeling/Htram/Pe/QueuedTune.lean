import Htram.Pe.QueuedFlush

/-!
# Combining off: new settings

`changeThreshold`, `coarsenBuckets` and `setBufferSize` for one destination, as paths
of the lane.

* `retune_path`, `coarsen_path`, `refit_path`.
-/

namespace Htram

variable {α F : Type*}

namespace Dest

/-- Adding up the sizes of queues. -/
theorem addSizes {cfg : Config α} {d : Dest α} (hd : d.Stored cfg) (sign : ℤ) (start stop : ℕ)
    (bound : ℕ → Dest α → Bool) (hbound : ∀ i s, bound i s = decide (i < stop)) :
    WordBits.forNext (holdNext cfg) bound
        (fun i s => { s with updatesInTram := s.updatesInTram + sign * (s.tramHold i).size })
        (fun _ => false) cfg.histoBucketCount start d =
      { d with updatesInTram :=
          d.updatesInTram + ∑ i ∈ Finset.Ico start stop, sign * ((d.tramHold i).size : ℤ) } := by
  have hI : ∀ s : Dest α, s = { d with updatesInTram := s.updatesInTram } → s.Stored cfg := by
    intro s hs
    rw [hs]
    exact hd.congr rfl rfl rfl
  have hsize : ∀ c, (d.tramHold c).toList = [] → sign * ((d.tramHold c).size : ℤ) = 0 := by
    intro c hc
    rw [HoldQueue.size_eq_length, hc]
    simp
  have hnext : ∀ (s : Dest α) start i, s = { d with updatesInTram := s.updatesInTram } →
      holdNext cfg s start = some i → start ≤ i ∧ i < cfg.histoBucketCount ∧
        ∀ c, start ≤ c → c < i → sign * ((d.tramHold c).size : ℤ) = 0 := by
    intro s start i hs hnext
    obtain ⟨ha, hb, -, hc⟩ := (hI s hs).holdNext_some hnext
    refine ⟨ha, hb, fun c hc1 hc2 => hsize c ?_⟩
    have := hc c hc1 hc2
    rwa [hs] at this
  have hnone : ∀ (s : Dest α) start, s = { d with updatesInTram := s.updatesInTram } →
      holdNext cfg s start = none → ∀ c ≥ start, sign * ((d.tramHold c).size : ℤ) = 0 := by
    intro s start hs hnone c hc
    have := (hI s hs).holdNext_none hnone c hc
    rw [hs] at this
    exact hsize c this
  have hbody : ∀ i (s : Dest α), s = { d with updatesInTram := s.updatesInTram } →
      ({ s with updatesInTram := s.updatesInTram + sign * (s.tramHold i).size } =
        ({ d with updatesInTram := s.updatesInTram + sign * (s.tramHold i).size } : Dest α)) ∧
      s.updatesInTram + sign * ((s.tramHold i).size : ℤ) =
        s.updatesInTram + sign * ((d.tramHold i).size : ℤ) := by
    intro i s hs
    rw [hs]
    exact ⟨rfl, rfl⟩
  have htotal := WordBits.forNext_total (v := Dest.updatesInTram) hnext hnone hbound hbody
    (x := d) rfl (show cfg.histoBucketCount ≤ start + cfg.histoBucketCount by omega)
  rw [htotal.1, htotal.2]

theorem lane_heldLen (cfg : Config α) {k : Knobs F} (hk : k.combining = false) (d : Dest α)
    (b : ℕ) : ((d.lane cfg k).held b).length = (d.tramHold b).size := by
  simp [lane, hk]

/-! ## `changeThreshold` -/

theorem retuneQueue_eq {cfg : Config α} {k : Knobs F} (hk : k.combining = false) {d : Dest α}
    (hd : d.Stored cfg) {old new : ℤ} (hold : -1 ≤ old) (hnew : -1 ≤ new) :
    d.retuneQueue cfg old new =
      { d with updatesInTram := d.updatesInTram + countUpTo (d.lane cfg k).held new -
          countUpTo (d.lane cfg k).held old } := by
  have hcount : ∀ t : ℤ, (countUpTo (d.lane cfg k).held t : ℤ) =
      ∑ i ∈ Finset.Ico 0 (t + 1).toNat, ((d.tramHold i).size : ℤ) := by
    intro t
    unfold countUpTo
    rw [Finset.range_eq_Ico]
    push_cast
    exact Finset.sum_congr rfl fun b _ => by rw [lane_heldLen cfg hk]
  unfold retuneQueue
  rw [addSizes hd _ _ (max old new + 1).toNat _ (fun i s => by
    rw [decide_eq_decide]; omega), ← Finset.mul_sum]
  have hsplit : ∀ {a b : ℤ}, a ≤ b → (countUpTo (d.lane cfg k).held b : ℤ) =
      countUpTo (d.lane cfg k).held a +
        ∑ i ∈ Finset.Ico (a + 1).toNat (b + 1).toNat, ((d.tramHold i).size : ℤ) := by
    intro a b hab
    rw [hcount, hcount, Finset.sum_Ico_consecutive _ (Nat.zero_le _) (by omega)]
  rcases lt_or_ge old new with h | h
  · rw [if_pos h, min_eq_left h.le, max_eq_right h.le, hsplit h.le]
    congr 1
    omega
  · rw [if_neg (by omega), min_eq_right h, max_eq_left h, hsplit h]
    congr 1
    omega

theorem retune_path (cfg : Config α) {k : Knobs F} (hk : k.combining = false)
    [ReleaseArith F] (R : Rules) (direct : ℤ) {new : ℤ} (selectivity : F)
    (hold : -1 ≤ k.tramThreshold) (hnew : -1 ≤ new) {d : Dest α} (hd : d.Queued cfg k) :
    (d.retune cfg k new).Queued cfg (k.retuned direct new selectivity) ∧
      Path cfg R [] (d.lane cfg k)
        ((d.retune cfg k new).lane cfg (k.retuned direct new selectivity)) := by
  have heq : d.retune cfg k new =
      { d with updatesInTram := d.updatesInTram + countUpTo (d.lane cfg k).held new -
          countUpTo (d.lane cfg k).held k.tramThreshold } := by
    unfold retune
    rw [hk]
    simp only [Bool.false_eq_true, if_false]
    split_ifs with h
    · exact retuneQueue_eq hk hd.toStored hold hnew
    · rw [not_not.mp h]
      simp
  rw [heq]
  exact ⟨⟨hd.toSized.congr rfl rfl, hd.toStored.congr rfl rfl rfl⟩,
    Path.single (Move.retune (R := R) (d.lane cfg k) new hnew)⟩

/-! ## `coarsenBuckets` -/

/-- Buckets are merged downwards only. -/
theorem filter_div_eq_nil {factor m j : ℕ} (hf : 2 ≤ factor) (hj : 1 ≤ j) (hm : m ≤ j) :
    (List.range m).filter (fun i => decide (i / factor = j)) = [] := by
  refine List.filter_eq_nil_iff.mpr fun i hi => ?_
  have hi := List.mem_range.mp hi
  have : i / factor < j := by
    rcases Nat.eq_zero_or_pos i with h0 | h0
    · subst h0; rwa [Nat.zero_div]
    · exact lt_trans (Nat.div_lt_self h0 hf) (by omega)
  simp only [decide_eq_true_eq]
  omega

theorem coarsenHeld_above {β : Type*} {factor n j : ℕ} (hf : 2 ≤ factor) (hj : 1 ≤ j)
    (hn : n ≤ j) (held : ℕ → List β) : coarsenHeld factor n held j = held j := by
  unfold coarsenHeld
  rw [filter_div_eq_nil hf hj hn, if_pos hn]
  rfl

theorem coarsenHeld_one {β : Type*} {factor : ℕ} (hf : 2 ≤ factor) (held : ℕ → List β) (j : ℕ) :
    coarsenHeld factor 1 held j = held j := by
  rcases Nat.eq_zero_or_pos j with h | h
  · subst h
    simp [coarsenHeld, show 0 < factor by omega]
  · exact coarsenHeld_above hf h h held

theorem coarsenHeld_zero {β : Type*} (factor : ℕ) (held : ℕ → List β) (j : ℕ) :
    coarsenHeld factor 0 held j = held j := by
  simp [coarsenHeld]

/-- The buckets merged below `n + 1`, from those merged below `n`. -/
theorem coarsenHeld_succ {β : Type*} {factor n : ℕ} (hf : 2 ≤ factor) (hn : 1 ≤ n)
    (held : ℕ → List β) (j : ℕ) :
    coarsenHeld factor (n + 1) held j =
      if j = n then []
      else coarsenHeld factor n held j ++ if n / factor = j then held n else [] := by
  have hlt : n / factor < n := Nat.div_lt_self hn hf
  unfold coarsenHeld
  rw [List.range_succ, List.filter_append, List.flatMap_append]
  by_cases hj : j = n
  · subst hj
    rw [if_pos rfl, if_neg (by omega), filter_div_eq_nil hf hn le_rfl]
    simp [hlt.ne]
  · rw [if_neg hj]
    by_cases hnj : n / factor = j
    · simp [hnj, show ¬ n + 1 ≤ j by omega, show ¬ n ≤ j by omega]
    · by_cases hle : n ≤ j
      · simp [hnj, show n + 1 ≤ j by omega, hle]
      · simp [hnj, show ¬ n + 1 ≤ j by omega, hle]

/-- Empty buckets do not matter to a merge. -/
theorem coarsenHeld_skip {β : Type*} {factor : ℕ} (hf : 2 ≤ factor) {held : ℕ → List β} {a : ℕ}
    (ha : 1 ≤ a) :
    ∀ n, (∀ c, a ≤ c → c < a + n → held c = []) →
      ∀ j, coarsenHeld factor (a + n) held j = coarsenHeld factor a held j := by
  intro n
  induction n with
  | zero => intro _ j; rfl
  | succ n ih =>
    intro hempty j
    have ih := ih (fun c h1 h2 => hempty c h1 (by omega))
    have hlast := hempty (a + n) (by omega) (by omega)
    rw [← Nat.add_assoc, coarsenHeld_succ hf (by omega), hlast]
    by_cases hj : j = a + n
    · subst hj
      rw [if_pos rfl, ← ih, coarsenHeld_above hf (by omega) le_rfl, hlast]
    · rw [if_neg hj, ih]
      simp

/-- Moving a queue to another. -/
theorem mergeBucket_spec {i j : ℕ} (hij : j ≠ i) :
    ∀ (fuel : ℕ) (d : Dest α), (d.tramHold i).size ≤ fuel →
      mergeBucket i j fuel d =
        { d with
          tramHold := (mergeBucket i j fuel d).tramHold
          holdBits := (mergeBucket i j fuel d).holdBits } ∧
      (∀ c, ((mergeBucket i j fuel d).tramHold c).toList =
        if c = i then [] else if c = j then (d.tramHold j).toList ++ (d.tramHold i).toList
        else (d.tramHold c).toList) ∧
      ∀ c, WordBits.get (mergeBucket i j fuel d).holdBits c =
        (WordBits.get d.holdBits c || decide (c = j ∧ (d.tramHold i).toList ≠ [])) := by
  have hempty : ∀ (d : Dest α), (d.tramHold i).toList = [] →
      d = { d with tramHold := d.tramHold, holdBits := d.holdBits } ∧
      (∀ c, (d.tramHold c).toList =
        if c = i then [] else if c = j then (d.tramHold j).toList ++ (d.tramHold i).toList
        else (d.tramHold c).toList) ∧
      ∀ c, WordBits.get d.holdBits c =
        (WordBits.get d.holdBits c || decide (c = j ∧ (d.tramHold i).toList ≠ [])) := by
    intro d hd
    refine ⟨rfl, fun c => ?_, fun c => by simp [hd]⟩
    split_ifs with h1 h2
    · rw [h1, hd]
    · rw [h2, hd, List.append_nil]
    · rfl
  intro fuel
  induction fuel with
  | zero =>
    intro d hsize
    rw [HoldQueue.size_eq_length] at hsize
    exact hempty d (List.length_eq_zero_iff.mp (Nat.le_zero.mp hsize))
  | succ fuel ih =>
    intro d hsize
    rw [mergeBucket]
    cases hfront : (d.tramHold i).front with
    | none =>
      rw [HoldQueue.front_eq_head?, List.head?_eq_none_iff] at hfront
      exact hempty d hfront
    | some item =>
      dsimp only
      obtain ⟨rest, hlist⟩ : ∃ rest, (d.tramHold i).toList = item :: rest := by
        rw [HoldQueue.front_eq_head?] at hfront
        exact ⟨_, List.head?_eq_some_iff.mp hfront |>.choose_spec⟩
      have hi : (((d.holdPush j item).holdPop i).tramHold i).toList = rest := by
        simp [holdPush, holdPop, Function.update_of_ne (Ne.symm hij), hlist]
      have hj : (((d.holdPush j item).holdPop i).tramHold j).toList =
          (d.tramHold j).toList ++ [item] := by
        simp [holdPush, holdPop, Function.update_of_ne hij]
      have hother : ∀ c, c ≠ i → c ≠ j →
          (((d.holdPush j item).holdPop i).tramHold c).toList = (d.tramHold c).toList := by
        intro c hci hcj
        simp [holdPush, holdPop, Function.update_of_ne hci, Function.update_of_ne hcj]
      have hbits : ∀ c, WordBits.get ((d.holdPush j item).holdPop i).holdBits c =
          (decide (c = j) || WordBits.get d.holdBits c) := fun c => WordBits.get_set _ _ _
      obtain ⟨h1, h2, h3⟩ := ih ((d.holdPush j item).holdPop i) (by
        rw [HoldQueue.size_eq_length, hi]
        rw [HoldQueue.size_eq_length, hlist, List.length_cons] at hsize
        omega)
      refine ⟨h1, fun c => ?_, fun c => ?_⟩
      · rw [h2 c, hi, hj, hlist]
        split_ifs with hci hcj
        · rfl
        · rw [List.append_assoc]; rfl
        · exact hother c hci hcj
      · rw [h3 c, hbits c, hlist]
        by_cases hcj : c = j <;> simp [hcj]

/-- The merge of `coarsenBuckets` on the queues. -/
theorem mergeBuckets_spec {cfg : Config α} {factor : ℕ} (hf : 2 ≤ factor) (top : ℕ) {d : Dest α}
    (hd : d.Stored cfg) :
    (d.mergeBuckets cfg factor top).Stored cfg ∧
      d.mergeBuckets cfg factor top =
        { d with
          tramHold := (d.mergeBuckets cfg factor top).tramHold
          holdBits := (d.mergeBuckets cfg factor top).holdBits } ∧
      ∀ j, ((d.mergeBuckets cfg factor top).tramHold j).toList =
        coarsenHeld factor top (fun b => (d.tramHold b).toList) j := by
  set orig := fun b => (d.tramHold b).toList with horig
  have hend : ∀ {start : ℕ}, 1 ≤ start → start ≤ top ∨ start = 1 →
      (∀ c, start ≤ c → c < top → orig c = []) →
      ∀ j, coarsenHeld factor start orig j = coarsenHeld factor top orig j := by
    intro start h1 hle hempty j
    by_cases hst : start ≤ top
    · have := coarsenHeld_skip hf h1 (top - start) (fun c h2 h3 => hempty c h2 (by omega)) j
      rwa [Nat.add_sub_cancel' hst, eq_comm] at this
    · rw [show start = 1 by omega, show top = 0 by omega, coarsenHeld_one hf, coarsenHeld_zero]
  refine WordBits.forNext_rule (n := cfg.histoBucketCount)
    (P := fun start (s : Dest α) => 1 ≤ start ∧ (start ≤ top ∨ start = 1) ∧ s.Stored cfg ∧
      s = { d with tramHold := s.tramHold, holdBits := s.holdBits } ∧
      ∀ j, (s.tramHold j).toList = coarsenHeld factor start orig j)
    (Q := fun s : Dest α => s.Stored cfg ∧
      s = { d with tramHold := s.tramHold, holdBits := s.holdBits } ∧
      ∀ j, (s.tramHold j).toList = coarsenHeld factor top orig j)
    ?_ ?_ ?_ ?_ ?_ cfg.histoBucketCount 1 d
    ⟨le_rfl, Or.inr rfl, hd, rfl, fun j => (coarsenHeld_one hf orig j).symm⟩ (by omega)
  · rintro start s i ⟨-, -, hs, -⟩ hnext
    obtain ⟨h1, h2, -⟩ := hs.holdNext_some hnext
    exact ⟨h1, h2⟩
  · rintro start s ⟨h1, hle, hs, hrest, hq⟩ hnone
    refine ⟨hs, hrest, fun j => (hq j).trans (hend h1 hle (fun c hc _ => ?_) j)⟩
    rw [← coarsenHeld_above hf (by omega) hc orig, ← hq c]
    exact hs.holdNext_none hnone c hc
  · rintro start s i ⟨h1, hle, hs, hrest, hq⟩ hnext hcond
    obtain ⟨-, -, -, h4⟩ := hs.holdNext_some hnext
    have hi := of_decide_eq_false hcond
    refine ⟨hs, hrest, fun j => (hq j).trans (hend h1 hle (fun c hc hct => ?_) j)⟩
    rw [← coarsenHeld_above hf (by omega) hc orig, ← hq c]
    exact h4 c hc (by omega)
  · rintro start s i ⟨h1, hle, hs, hrest, hq⟩ hnext hcond -
    obtain ⟨hsi, hiB, hne, h4⟩ := hs.holdNext_some hnext
    have hi := of_decide_eq_true hcond
    have hdiv : i / factor < i := Nat.div_lt_self (by omega) hf
    have hempty : ∀ c, start ≤ c → c < start + (i - start) → orig c = [] := by
      intro c hc1 hc2
      rw [← coarsenHeld_above hf (by omega) hc1 orig, ← hq c]
      exact h4 c hc1 (by omega)
    have hskip : ∀ j, (s.tramHold j).toList = coarsenHeld factor i orig j := by
      intro j
      have := coarsenHeld_skip hf h1 (i - start) hempty j
      rw [Nat.add_sub_cancel' hsi] at this
      rw [hq j, this]
    have horigi : (s.tramHold i).toList = orig i := by
      rw [hskip, coarsenHeld_above hf (by omega) le_rfl]
    rw [if_neg (by omega)]
    obtain ⟨hm1, hm2, hm3⟩ := mergeBucket_spec hdiv.ne (s.tramHold i).size s le_rfl
    generalize mergeBucket i (i / factor) (s.tramHold i).size s = s' at *
    refine ⟨by omega, Or.inl (by omega), ⟨fun c => ?_, fun c hc => ?_, ?_⟩, ?_, fun j => ?_⟩
    · show WordBits.get (WordBits.clear s'.holdBits i) c = true ↔ (s'.tramHold c).toList ≠ []
      rw [WordBits.get_clear, hm3 c, hm2 c]
      have := hs.bits c
      by_cases hci : c = i
      · simp [hci]
      · by_cases hcd : c = i / factor
        · simp [hcd, hne, hdiv.ne]
        · simp [hci, hcd, this]
    · show (s'.tramHold c).toList = []
      rw [hm2 c, if_neg (by omega), if_neg (by omega)]
      exact hs.bounded c hc
    · show s'.hold.stuck = false
      rw [hm1]
      exact hs.stuck
    · unfold holdEmptied
      rw [hm1, hrest]
    · show (s'.tramHold j).toList = _
      rw [hm2 j, coarsenHeld_succ hf (by omega)]
      by_cases hj : j = i
      · rw [if_pos hj, if_pos hj]
      · rw [if_neg hj, if_neg hj, ← hskip]
        by_cases hjd : j = i / factor
        · rw [if_pos hjd, if_pos hjd.symm, horigi, hjd]
        · rw [if_neg hjd, if_neg (Ne.symm hjd), List.append_nil]
  · intro _ _ _ _ _ _ h; cases h

theorem coarsenHeld_map {β γ : Type*} (f : β → γ) (factor top : ℕ) (held : ℕ → List β) (j : ℕ) :
    coarsenHeld factor top (fun b => (held b).map f) j = (coarsenHeld factor top held j).map f := by
  unfold coarsenHeld
  rw [List.map_append, List.map_flatMap]
  split_ifs <;> rfl

theorem admitMerged_eq {cfg : Config α} {k : Knobs F} (hk : k.combining = false) {d : Dest α}
    (hd : d.Stored cfg) (threshold below : ℤ) :
    d.admitMerged cfg threshold below =
      { d with updatesInTram :=
          d.updatesInTram + countBetween (d.lane cfg k).held (threshold + 1) below } := by
  have h := addSizes hd 1 (threshold + 1).toNat below.toNat (fun i _ => decide ((i : ℤ) < below))
    (fun i s => by rw [decide_eq_decide]; omega)
  simp only [one_mul] at h
  unfold admitMerged
  rw [h]
  unfold countBetween
  push_cast
  simp only [lane_heldLen cfg hk]

/-- The lane after `coarsenBuckets`. -/
theorem coarsen_lane (cfg : Config α) {k : Knobs F} (hk : k.combining = false) {factor : ℕ}
    (hf : 2 ≤ factor) (keepTop : Bool) {d : Dest α} (hd : d.Queued cfg k) :
    (d.coarsen cfg k factor keepTop).Queued cfg (k.coarsened factor) ∧
      (d.coarsen cfg k factor keepTop).lane cfg (k.coarsened factor) =
        { d.lane cfg k with
          threshold := k.tramThreshold.tdiv factor
          held := coarsenHeld factor (cfg.mergedTop keepTop) (d.lane cfg k).held
          updates := d.updatesInTram + countBetween (d.lane cfg k).held (k.tramThreshold + 1)
            (min ((k.tramThreshold.tdiv factor + 1) * factor) (cfg.mergedTop keepTop)) } := by
  have hsized := coarsen_sized cfg k factor keepTop hd.toSized
  unfold coarsen at hsized ⊢
  dsimp only at hsized ⊢
  rw [admitMerged_eq hk hd.toStored] at hsized ⊢
  generalize d.updatesInTram + (countBetween (d.lane cfg k).held (k.tramThreshold + 1)
    (min ((k.tramThreshold.tdiv factor + 1) * factor) (cfg.mergedTop keepTop)) : ℤ) = u
    at hsized ⊢
  have hst : ({ d with updatesInTram := u } : Dest α).Stored cfg :=
    hd.toStored.congr rfl rfl rfl
  obtain ⟨hs, hrest, hq⟩ := mergeBuckets_spec hf (cfg.mergedTop keepTop) hst
  generalize mergeBuckets cfg factor (cfg.mergedTop keepTop) _ = d' at *
  refine ⟨⟨hsized, hs⟩, ?_⟩
  have hheld : (d.lane cfg k).held =
      fun b => (d.tramHold b).toList.map fun x => (cfg.ops.key x, x) := by
    funext b
    simp [lane, hk]
  refine Lane.ext rfl rfl rfl (funext fun b => ?_) ?_ ?_ ?_ ?_ ?_ ?_
  · show (if k.combining then _ else (d'.tramHold b).toList.map _) = coarsenHeld factor _ _ b
    rw [hk, hq b, hheld, coarsenHeld_map]
    rfl
  all_goals rw [hrest]; rfl

theorem coarsen_path (cfg : Config α) {k : Knobs F} (hk : k.combining = false) {R : Rules}
    {factor : ℕ} (hf : 2 ≤ factor) {keepTop : Bool} (hkeep : keepTop = true → R.keepTop = true)
    {d : Dest α} (hd : d.Queued cfg k) :
    (d.coarsen cfg k factor keepTop).Queued cfg (k.coarsened factor) ∧
      Path cfg R [] (d.lane cfg k)
        ((d.coarsen cfg k factor keepTop).lane cfg (k.coarsened factor)) := by
  obtain ⟨hqueued, hlane⟩ := coarsen_lane cfg hk hf keepTop hd
  refine ⟨hqueued, ?_⟩
  rw [hlane]
  exact Path.single (.coarsen (d.lane cfg k) factor hf keepTop hkeep)

/-! ## `setBufferSize` -/

theorem refit_path (cfg : Config α) {k : Knobs F} (R : Rules) {newSize : ℕ} [ReleaseArith F]
    (hnew : 0 < newSize) {d : Dest α} (hd : d.Queued cfg k) :
    (d.refit (k.resized newSize)).Queued cfg (k.resized newSize) ∧
      Path cfg R [] (d.lane cfg k)
        ((d.refit (k.resized newSize)).lane cfg (k.resized newSize)) := by
  have hsized := refit_sized (k := k.resized newSize) hnew hd.toSized
  have hresize : Path cfg R [] (d.lane cfg k) (d.lane cfg (k.resized newSize)) :=
    Path.single (Move.resize (d.lane cfg k) newSize)
  unfold refit at hsized ⊢
  split_ifs at hsized ⊢ with h1 h2
  · exact ⟨⟨hsized, hd.toStored.congr rfl rfl rfl⟩, hresize⟩
  · refine ⟨⟨hsized, hd.toStored.congr rfl rfl rfl⟩, hresize.andThen ?_⟩
    refine ship_path cfg _ R hd.toFits ?_ true
    have : newSize ≤ d.msgBuffer.next := h2
    omega
  · exact ⟨⟨hsized, hd.toStored⟩, hresize⟩

theorem resize_path (cfg : Config α) {k : Knobs F} (hk : k.combining = false) (R : Rules)
    [ReleaseArith F] {newSize : ℕ} (hnew : 0 < newSize) {d : Dest α} (hd : d.Queued cfg k) :
    (d.resize cfg (k.resized newSize)).Queued cfg (k.resized newSize) ∧
      Path cfg R [] (d.lane cfg k)
        ((d.resize cfg (k.resized newSize)).lane cfg (k.resized newSize)) := by
  obtain ⟨hq, hp⟩ := refit_path cfg R hnew hd
  obtain ⟨hq', hp'⟩ := releaseOver_path cfg (k := k.resized newSize) hk R hq
  exact ⟨hq', hp.andThen hp'⟩

/-! ## Partial flushes -/

theorem flushDest_path (cfg : Config α) {k : Knobs F} (hk : k.combining = false) {R : Rules}
    (hR : R.flush = true) {d : Dest α} (hd : d.Queued cfg k) :
    (d.flushDest cfg k).Queued cfg k ∧
      Path cfg R [] (d.lane cfg k) ((d.flushDest cfg k).lane cfg k) := by
  unfold flushDest
  rw [hk]
  obtain ⟨hq, hp, -⟩ := flushQueue_path cfg hk hR hd
  exact ⟨hq, hp⟩

theorem flushIfStale_path (cfg : Config α) {k : Knobs F} (hk : k.combining = false) {R : Rules}
    (hR : R.flush = true) {d : Dest α} (hd : d.Queued cfg k) :
    (d.flushIfStale cfg k).Queued cfg k ∧
      Path cfg R [] (d.lane cfg k) ((d.flushIfStale cfg k).lane cfg k) := by
  have hnew : ∀ d' : Dest α, d'.Queued cfg k → Path cfg R [] (d.lane cfg k) (d'.lane cfg k) →
      (if d'.hold.stuck then d' else { d' with fullSends := 0 }).Queued cfg k ∧
        Path cfg R [] (d.lane cfg k)
          ((if d'.hold.stuck then d' else { d' with fullSends := 0 }).lane cfg k) := by
    intro d' hq hp
    rw [hq.stuck]
    exact ⟨⟨hq.toSized.congr rfl rfl, hq.toStored.congr rfl rfl rfl⟩,
      hp.andThen (Path.single (Move.newRound (d'.lane cfg k)))⟩
  by_cases hcond : d.fullSends = 0 ∧ (d.updatesInTram > 0 ∨ d.msgBuffer.next ≠ 0)
  · obtain ⟨hq, hp⟩ := flushDest_path cfg hk hR hd
    rw [flushIfStale, if_pos hcond]
    exact hnew _ hq hp
  · rw [flushIfStale, if_neg hcond]
    exact hnew _ hd (.nil _)

theorem flushIfAny_path (cfg : Config α) {k : Knobs F} (hk : k.combining = false) {R : Rules}
    (hR : R.flush = true) {d : Dest α} (hd : d.Queued cfg k) :
    (d.flushIfAny cfg k).Queued cfg k ∧
      Path cfg R [] (d.lane cfg k) ((d.flushIfAny cfg k).lane cfg k) := by
  unfold flushIfAny
  split_ifs
  · exact flushDest_path cfg hk hR hd
  · exact ⟨hd, .nil _⟩

end Dest

end Htram
