import Mathlib.Algebra.BigOperators.Intervals
import Mathlib.Data.Nat.Notation
import Mathlib.Logic.Function.Basic
import Mathlib.Tactic.Common
import Mathlib.Tactic.SplitIfs

/-!
# Sorting by rank

A stable counting sort of a list into ranks, as loops over arrays: count the items of
each rank, turn the counts into first slots, put every item into its rank's next slot,
and write the ends of the ranks over the cursors.

* `tally_eq`, `starts_eq`, `ends_eq`: what the three counting loops compute.
* `Board.scatter_spec`: the items of a rank lie in that rank's slots, in order, and no
  slot is written past the end.
* `first_cover`: every slot belongs to one rank.
* `gather_perm`, `gather_sorted`, `ofRank_gather`: a list with the items of each rank put
  together.
-/

namespace RankSort

variable {β γ : Type*}

/-! ## The loops -/

/-- `for (x : xs) sizes[rank(x)]++;`, from zeros. -/
def tally (rank : γ → ℕ) (xs : List γ) : ℕ → ℕ :=
  xs.foldl (fun sizes x => Function.update sizes (rank x) (sizes (rank x) + 1)) fun _ => 0

/-- `offset[0] = base; for (i = 1; i < n; i++) offset[i] = offset[i - 1] + step[i];`. -/
def chain (n base : ℕ) (step offset : ℕ → ℕ) : ℕ → ℕ :=
  (List.range' 1 (n - 1)).foldl
    (fun offset i => Function.update offset i (offset (i - 1) + step i))
    (Function.update offset 0 base)

/-- The first slot of each rank. -/
def starts (n : ℕ) (sizes offset : ℕ → ℕ) : ℕ → ℕ := chain n 0 (fun i => sizes (i - 1)) offset

/-- The slot after the last of each rank. -/
def ends (n : ℕ) (sizes offset : ℕ → ℕ) : ℕ → ℕ := chain n (sizes 0) sizes offset

/-- An array of `cap` items with an offset for each rank. `overrun` tells whether a slot
    at or past `cap` has been written. -/
structure Board (β : Type*) where
  cap : ℕ
  items : ℕ → β
  offset : ℕ → ℕ
  overrun : Bool

namespace Board

/-- `items[offset[r]++] = x`. -/
def put (m : Board β) (r : ℕ) (x : β) : Board β where
  cap := m.cap
  items := Function.update m.items (m.offset r) x
  offset := Function.update m.offset r (m.offset r + 1)
  overrun := m.overrun || decide (m.cap ≤ m.offset r)

/-- `for (x : xs) items[offset[rank(x)]++] = val(x);`. -/
def scatter (rank : γ → ℕ) (val : γ → β) (xs : List γ) (m : Board β) : Board β :=
  xs.foldl (fun m x => m.put (rank x) (val x)) m

/-- The items in the slots from `lo` to below `hi`. -/
def slice (m : Board β) (lo hi : ℕ) : List β := (List.range' lo (hi - lo)).map m.items

end Board

/-! ## Counts -/

variable (rank : γ → ℕ)

/-- The number of items of rank `r`. -/
def size (xs : List γ) (r : ℕ) : ℕ := xs.countP fun x => rank x = r

/-- The number of items of ranks below `r`: the first slot of rank `r`. -/
def first (xs : List γ) (r : ℕ) : ℕ := xs.countP fun x => rank x < r

/-- The items of rank `r`, in order. -/
def ofRank (xs : List γ) (r : ℕ) : List γ := xs.filter fun x => rank x = r

@[simp] theorem length_ofRank (xs : List γ) (r : ℕ) : (ofRank rank xs r).length = size rank xs r :=
  List.countP_eq_length_filter.symm

@[simp] theorem first_zero (xs : List γ) : first rank xs 0 = 0 := by
  simp [first]

theorem first_succ (xs : List γ) (r : ℕ) :
    first rank xs (r + 1) = first rank xs r + size rank xs r := by
  induction xs with
  | nil => rfl
  | cons x xs ih =>
    unfold first size at ih ⊢
    simp only [List.countP_cons, decide_eq_true_eq]
    split_ifs <;> omega

theorem first_mono (xs : List γ) {r s : ℕ} (h : r ≤ s) : first rank xs r ≤ first rank xs s := by
  refine List.countP_mono_left fun x _ hx => ?_
  rw [decide_eq_true_eq] at hx ⊢
  omega

theorem first_eq_length {xs : List γ} {n : ℕ} (h : ∀ x ∈ xs, rank x < n) :
    first rank xs n = xs.length := by
  rw [first, List.countP_eq_length]
  simpa using h

theorem first_eq_sum (xs : List γ) (r : ℕ) :
    first rank xs r = ∑ s ∈ Finset.range r, size rank xs s := by
  induction r with
  | zero => simp
  | succ r ih => rw [first_succ, Finset.sum_range_succ, ih]

/-- A prefix has no more items of a rank. -/
theorem size_append (xs ys : List γ) (r : ℕ) :
    size rank (xs ++ ys) r = size rank xs r + size rank ys r := List.countP_append

theorem size_singleton (x : γ) (r : ℕ) : size rank [x] r = if rank x = r then 1 else 0 := by
  simp [size, List.countP_singleton]

/-- Slots of different ranks are different. -/
theorem first_add_ne {xs : List γ} {r s i j : ℕ} (hrs : r ≠ s) (hi : i < size rank xs r)
    (hj : j < size rank xs s) : first rank xs r + i ≠ first rank xs s + j := by
  have hr := first_succ rank xs r
  have hs := first_succ rank xs s
  rcases Nat.lt_or_gt_of_ne hrs with h | h
  · have := first_mono rank xs (show r + 1 ≤ s by omega)
    omega
  · have := first_mono rank xs (show s + 1 ≤ r by omega)
    omega

/-- Every slot belongs to one rank. -/
theorem first_cover {xs : List γ} {n : ℕ} (h : ∀ x ∈ xs, rank x < n) {i : ℕ}
    (hi : i < xs.length) :
    ∃! r, r < n ∧ first rank xs r ≤ i ∧ i < first rank xs (r + 1) := by
  have hn : i < first rank xs n := by rwa [first_eq_length rank h]
  have hex : ∃ r, i < first rank xs r := ⟨n, hn⟩
  obtain ⟨r, hr⟩ : ∃ r, Nat.find hex = r + 1 := by
    refine Nat.exists_eq_succ_of_ne_zero fun h0 => ?_
    have := Nat.find_spec hex
    rw [h0, first_zero] at this
    omega
  have hlt : i < first rank xs (r + 1) := hr ▸ Nat.find_spec hex
  have hle : first rank xs r ≤ i := Nat.not_lt.mp (Nat.find_min hex (by omega))
  refine ⟨r, ⟨?_, hle, hlt⟩, ?_⟩
  · have := Nat.find_min' hex hn
    omega
  · rintro s ⟨-, h1, h2⟩
    by_contra hne
    rcases Nat.lt_or_gt_of_ne hne with h | h
    · have := first_mono rank xs (show s + 1 ≤ r by omega)
      omega
    · have := first_mono rank xs (show r + 1 ≤ s by omega)
      omega

/-! ## The items of each rank together -/

/-- The items of the ranks below `n`, rank after rank. -/
def gather (n : ℕ) (xs : List γ) : List γ := (List.range n).flatMap (ofRank rank xs)

theorem gather_succ (n : ℕ) (xs : List γ) :
    gather rank (n + 1) xs = gather rank n xs ++ ofRank rank xs n := by
  rw [gather, List.range_succ, List.flatMap_append, List.flatMap_singleton]
  rfl

theorem mem_gather {n : ℕ} {xs : List γ} {x : γ} :
    x ∈ gather rank n xs ↔ x ∈ xs ∧ rank x < n := by
  simp only [gather, ofRank, List.mem_flatMap, List.mem_range, List.mem_filter, decide_eq_true_eq]
  constructor
  · rintro ⟨r, hr, hx, rfl⟩
    exact ⟨hx, hr⟩
  · rintro ⟨hx, hr⟩
    exact ⟨_, hr, hx, rfl⟩

theorem gather_perm {n : ℕ} {xs : List γ} (h : ∀ x ∈ xs, rank x < n) :
    (gather rank n xs).Perm xs := by
  have key : ∀ m, (gather rank m xs).Perm (xs.filter fun x => rank x < m) := by
    intro m
    induction m with
    | zero => simp [gather]
    | succ m ih =>
      have hlow : (xs.filter fun x => rank x < m + 1).filter (fun x => rank x < m) =
          xs.filter fun x => rank x < m := by
        rw [List.filter_filter]
        refine List.filter_congr fun x _ => ?_
        rw [← Bool.decide_and, decide_eq_decide]
        omega
      have hhigh : (xs.filter fun x => rank x < m + 1).filter (fun x => !decide (rank x < m)) =
          ofRank rank xs m := by
        rw [List.filter_filter]
        refine List.filter_congr fun x _ => ?_
        rw [← decide_not, ← Bool.decide_and, decide_eq_decide]
        omega
      rw [gather_succ]
      refine (ih.append_right _).trans ?_
      have := List.filter_append_perm (fun x => decide (rank x < m))
        (xs.filter fun x => rank x < m + 1)
      rwa [hlow, hhigh] at this
  have hall : xs.filter (fun x => rank x < n) = xs := List.filter_eq_self.mpr fun x hx => by
    simpa using h x hx
  rw [← hall]
  exact hall.symm ▸ key n

theorem gather_sorted (n : ℕ) (xs : List γ) :
    (gather rank n xs).Pairwise fun x y => rank x ≤ rank y := by
  induction n with
  | zero => exact List.Pairwise.nil
  | succ n ih =>
    rw [gather_succ, List.pairwise_append]
    refine ⟨ih, ?_, fun x hx y hy => ?_⟩
    · refine List.pairwise_of_forall_mem_list fun x hx y hy => ?_
      rw [ofRank, List.mem_filter, decide_eq_true_eq] at hx hy
      omega
    · have := ((mem_gather rank).mp hx).2
      rw [ofRank, List.mem_filter, decide_eq_true_eq] at hy
      omega

theorem ofRank_gather {n r : ℕ} (hr : r < n) (xs : List γ) :
    ofRank rank (gather rank n xs) r = ofRank rank xs r := by
  have hother : ∀ s, s ≠ r → ofRank rank (ofRank rank xs s) r = [] := by
    intro s hs
    rw [ofRank, List.filter_eq_nil_iff]
    intro x hx
    rw [ofRank, List.mem_filter, decide_eq_true_eq] at hx
    rw [decide_eq_true_eq]
    omega
  have hself : ofRank rank (ofRank rank xs r) r = ofRank rank xs r := by
    rw [ofRank, ofRank, List.filter_filter]
    simp
  have key : ∀ m, ofRank rank (gather rank m xs) r = if r < m then ofRank rank xs r else [] := by
    intro m
    induction m with
    | zero => simp [gather, ofRank]
    | succ m ih =>
      have happend : ofRank rank (gather rank (m + 1) xs) r =
          ofRank rank (gather rank m xs) r ++ ofRank rank (ofRank rank xs m) r := by
        rw [gather_succ]
        exact List.filter_append _ _
      rw [happend, ih]
      by_cases hm : m = r
      · subst hm
        simp [hself]
      · rw [hother m hm, List.append_nil]
        split_ifs <;> first | rfl | omega
  rw [key n, if_pos hr]

/-- A sorted list has the items of each rank together. -/
theorem gather_of_sorted {n : ℕ} {xs : List γ} (hs : xs.Pairwise fun x y => rank x ≤ rank y)
    (h : ∀ x ∈ xs, rank x < n) : gather rank n xs = xs := by
  have hcut : ∀ (xs : List γ) (m : ℕ), xs.Pairwise (fun x y => rank x ≤ rank y) →
      xs.filter (fun x => rank x < m + 1) =
        xs.filter (fun x => rank x < m) ++ ofRank rank xs m := by
    intro xs m
    induction xs with
    | nil => intro _; rfl
    | cons x xs ih =>
      intro hs
      obtain ⟨hx, hs⟩ := List.pairwise_cons.mp hs
      unfold ofRank at ih ⊢
      simp only [List.filter_cons, ih hs, decide_eq_true_eq]
      rcases lt_trichotomy (rank x) m with hlt | heq | hgt
      · rw [if_pos (by omega), if_pos hlt, if_neg (by omega), List.cons_append]
      · have hnone : xs.filter (fun y => rank y < m) = [] :=
          List.filter_eq_nil_iff.mpr fun y hy => by simpa [heq] using hx y hy
        rw [if_pos (by omega), if_neg (by omega), if_pos heq, hnone]
        rfl
      · rw [if_neg (by omega), if_neg (by omega), if_neg (by omega)]
  have key : ∀ m, gather rank m xs = xs.filter fun x => rank x < m := by
    intro m
    induction m with
    | zero => simp [gather]
    | succ m ih => rw [gather_succ, ih, hcut xs m hs]
  rw [key n]
  exact List.filter_eq_self.mpr fun x hx => by simpa using h x hx

/-- The items of the ranks that `keep` picks, rank after rank, are those of a sorted list. -/
theorem flatMap_ofRank_filter {n : ℕ} {xs : List γ} (hs : xs.Pairwise fun x y => rank x ≤ rank y)
    (h : ∀ x ∈ xs, rank x < n) (keep : ℕ → Bool) :
    ((List.range n).filter keep).flatMap (ofRank rank xs) = xs.filter fun x => keep (rank x) := by
  have hkept : ∀ r, ofRank rank (xs.filter fun x => keep (rank x)) r =
      if keep r then ofRank rank xs r else [] := by
    intro r
    unfold ofRank
    rw [List.filter_filter]
    split_ifs with hr
    · refine List.filter_congr fun x _ => ?_
      by_cases hx : rank x = r
      · simp [hx, hr]
      · simp [hx]
    · refine List.filter_eq_nil_iff.mpr fun x _ => ?_
      by_cases hx : rank x = r
      · simp [hx, hr]
      · simp [hx]
  have hsorted : (xs.filter fun x => keep (rank x)).Pairwise fun x y => rank x ≤ rank y :=
    List.Pairwise.filter _ hs
  have hgather := gather_of_sorted rank hsorted fun x hx => h x (List.mem_filter.mp hx).1
  rw [← hgather, gather, List.flatMap_congr fun r _ => hkept r]
  induction List.range n with
  | nil => rfl
  | cons r l ih =>
    rw [List.filter_cons, List.flatMap_cons, ← ih]
    split_ifs <;> simp

/-! ## What the loops compute -/

theorem tally_eq (xs : List γ) (r : ℕ) : tally rank xs r = size rank xs r := by
  have key : ∀ (xs : List γ) (sizes : ℕ → ℕ),
      xs.foldl (fun sizes x => Function.update sizes (rank x) (sizes (rank x) + 1)) sizes r =
        sizes r + size rank xs r := by
    intro xs
    induction xs with
    | nil => intro sizes; rfl
    | cons x xs ih =>
      intro sizes
      rw [List.foldl_cons, ih, ← List.singleton_append, size_append, size_singleton]
      by_cases hx : rank x = r
      · subst hx
        simp
        omega
      · rw [Function.update_of_ne (Ne.symm hx), if_neg hx]
        omega
  rw [tally, key, Nat.zero_add]

theorem chain_eq {n base : ℕ} (step offset : ℕ → ℕ) :
    ∀ {r : ℕ}, r < n → chain n base step offset r = base + ∑ i ∈ Finset.Ico 1 (r + 1), step i := by
  -- after the loop has passed `m`, the entries up to `m` are set
  have key : ∀ m r, r ≤ m →
      (List.range' 1 m).foldl (fun offset i => Function.update offset i (offset (i - 1) + step i))
        (Function.update offset 0 base) r = base + ∑ i ∈ Finset.Ico 1 (r + 1), step i := by
    intro m
    induction m with
    | zero =>
      intro r hr
      obtain rfl : r = 0 := by omega
      simp
    | succ m ih =>
      intro r hr
      rw [List.range'_concat, List.foldl_append, List.foldl_cons, List.foldl_nil, Nat.one_mul,
        Nat.add_comm 1 m]
      by_cases hrm : r = m + 1
      · subst hrm
        rw [Function.update_self, Nat.add_sub_cancel, ih m le_rfl, Nat.add_assoc,
          ← Finset.sum_Ico_succ_top (show 1 ≤ m + 1 by omega) step]
      · rw [Function.update_of_ne hrm, ih r (by omega)]
  intro r hr
  exact key (n - 1) r (by omega)

theorem starts_eq {n : ℕ} (xs : List γ) (offset : ℕ → ℕ) {r : ℕ} (hr : r < n) :
    starts n (tally rank xs) offset r = first rank xs r := by
  rw [starts, chain_eq _ _ hr, first_eq_sum, Nat.zero_add, Finset.sum_Ico_eq_sum_range]
  simp [tally_eq]

theorem ends_eq {n : ℕ} (xs : List γ) (offset : ℕ → ℕ) {r : ℕ} (hr : r < n) :
    ends n (tally rank xs) offset r = first rank xs (r + 1) := by
  have hbot := Finset.sum_eq_sum_Ico_succ_bot (show 0 < r + 1 by omega) (size rank xs)
  rw [ends, chain_eq _ _ hr, first_eq_sum, Finset.range_eq_Ico, hbot, tally_eq]
  simp [tally_eq]

namespace Board

variable {rank} {val : γ → β}

/-- The items `pre` of the list `xs` have been put into the slots of their ranks. -/
structure Placed (rank : γ → ℕ) (val : γ → β) (n : ℕ) (xs pre : List γ) (m : Board β) : Prop where
  cap : xs.length ≤ m.cap
  overrun : m.overrun = false
  offset : ∀ r < n, m.offset r = first rank xs r + size rank pre r
  items : ∀ r < n, ∀ (j : ℕ) (hj : j < (ofRank rank pre r).length),
    m.items (first rank xs r + j) = val (ofRank rank pre r)[j]

theorem Placed.put {n : ℕ} {xs pre post : List γ} {x : γ} {m : Board β}
    (hm : Placed rank val n xs pre m) (hxs : xs = pre ++ x :: post) (hx : rank x < n) :
    Placed rank val n xs (pre ++ [x]) (m.put (rank x) (val x)) := by
  have hoff := hm.offset _ hx
  have hroom : ∀ r, size rank pre r + (if rank x = r then 1 else 0) ≤ size rank xs r := by
    intro r
    rw [hxs, ← List.singleton_append, size_append, size_append, size_singleton]
    omega
  refine ⟨hm.cap, ?_, fun r hr => ?_, fun r hr j hj => ?_⟩
  · -- the slot lies below the number of items of ranks up to that of `x`
    have hlt := hroom (rank x)
    rw [if_pos rfl] at hlt
    have hend := first_succ rank xs (rank x)
    have hle : first rank xs (rank x + 1) ≤ xs.length := List.countP_le_length
    have hcap := hm.cap
    show (m.overrun || decide (m.cap ≤ m.offset (rank x))) = false
    rw [hm.overrun, hoff, Bool.false_or, decide_eq_false_iff_not]
    omega
  · show Function.update m.offset (rank x) _ r = _
    rw [size_append, size_singleton]
    by_cases hxr : rank x = r
    · subst hxr
      rw [Function.update_self, if_pos rfl, hoff, Nat.add_assoc]
    · rw [Function.update_of_ne (Ne.symm hxr), if_neg hxr, hm.offset r hr, Nat.add_zero]
  · show Function.update m.items (m.offset (rank x)) (val x) _ = _
    have hsplit : ofRank rank (pre ++ [x]) r =
        ofRank rank pre r ++ if rank x = r then [x] else [] := by
      rw [ofRank, List.filter_append, List.filter_singleton]
      by_cases hxr : rank x = r <;> simp [hxr, ofRank]
    have hlen : j < size rank pre r + if rank x = r then 1 else 0 := by
      rw [length_ofRank, size_append, size_singleton] at hj
      exact hj
    rw [hoff]
    by_cases hxr : rank x = r
    · by_cases hlast : j = size rank pre r
      · subst hxr hlast
        rw [Function.update_self]
        simp [hsplit]
      · have hjlt : j < (ofRank rank pre r).length := by
          rw [length_ofRank]
          rw [if_pos hxr] at hlen
          omega
        subst hxr
        rw [Function.update_of_ne (by omega), hm.items _ hr j hjlt]
        simp only [hsplit, List.getElem_append_left hjlt]
    · have hjlt : j < (ofRank rank pre r).length := by
        rw [length_ofRank]
        rwa [if_neg hxr, Nat.add_zero] at hlen
      have hslot : first rank xs r + j ≠ first rank xs (rank x) + size rank pre (rank x) := by
        have h1 := hroom r
        have h2 := hroom (rank x)
        rw [if_neg hxr] at h1 hlen
        rw [if_pos rfl] at h2
        exact first_add_ne rank (Ne.symm hxr) (by omega) (by omega)
      rw [Function.update_of_ne hslot, hm.items r hr j hjlt]
      simp only [hsplit, List.getElem_append_left hjlt]

/-- Where the items are once all have been put into their slots. -/
theorem scatter_spec {n : ℕ} {xs : List γ} (h : ∀ x ∈ xs, rank x < n) {m : Board β}
    (hcap : xs.length ≤ m.cap) (hover : m.overrun = false)
    (hoff : ∀ r < n, m.offset r = first rank xs r) :
    Placed rank val n xs xs (m.scatter rank val xs) := by
  have key : ∀ (post pre : List γ) (m : Board β), xs = pre ++ post → Placed rank val n xs pre m →
      Placed rank val n xs xs (post.foldl (fun m x => m.put (rank x) (val x)) m) := by
    intro post
    induction post with
    | nil =>
      intro pre m hxs hm
      rw [List.append_nil] at hxs
      subst hxs
      exact hm
    | cons x post ih =>
      intro pre m hxs hm
      refine ih (pre ++ [x]) _ (by simp [hxs]) (hm.put hxs (h x (by simp [hxs])))
  refine key xs [] m rfl ⟨hcap, hover, fun r hr => hoff r hr, fun r _ j hj => ?_⟩
  simp [ofRank] at hj

/-- The slots of a rank. -/
theorem Placed.slice {n : ℕ} {xs : List γ} {m : Board β} (hm : Placed rank val n xs xs m) {r : ℕ}
    (hr : r < n) :
    m.slice (first rank xs r) (first rank xs (r + 1)) = (ofRank rank xs r).map val := by
  have hlen : first rank xs (r + 1) - first rank xs r = (ofRank rank xs r).length := by
    rw [first_succ, length_ofRank, Nat.add_sub_cancel_left]
  rw [Board.slice, hlen]
  refine List.ext_getElem (by simp) fun j h1 h2 => ?_
  rw [List.length_map] at h2
  simp only [List.getElem_map, List.getElem_range', Nat.one_mul]
  exact hm.items r hr j h2

end Board

end RankSort
