import Mathlib.Data.Nat.Notation
import Mathlib.Order.Lattice
import Mathlib.Tactic.Common

/-!
# Scanning a sorted list for a key

Two index loops find the items of one key in a list that is sorted by key: the first
passes over the smaller keys, the second over the key itself.

* `slice_eq`: between the two indices lie the items of the key, in order.
-/

namespace KeyScan

variable {β κ : Type*} [LinearOrder κ]

/-- `while (i < n && cond(xs[i])) i++;`, for the `n` items of `xs`. -/
def scan (cond : β → Bool) (xs : List β) : ℕ → ℕ → ℕ
  | 0, i => i
  | fuel + 1, i =>
    match xs[i]? with
    | none => i
    | some x => if cond x then scan cond xs fuel (i + 1) else i

/-- The index of the first key that is not below `k`. -/
def lower (key : β → κ) (k : κ) (xs : List β) : ℕ :=
  scan (fun x => key x < k) xs xs.length 0

/-- The index after the keys equal to `k` that start at `lower`. -/
def upper (key : β → κ) (k : κ) (xs : List β) : ℕ :=
  scan (fun x => key x = k) xs xs.length (lower key k xs)

theorem scan_eq (cond : β → Bool) (xs : List β) :
    ∀ fuel i, xs.length ≤ i + fuel →
      scan cond xs fuel i = i + ((xs.drop i).takeWhile cond).length := by
  intro fuel
  induction fuel with
  | zero =>
    intro i hi
    rw [List.drop_eq_nil_of_le (show xs.length ≤ i from hi)]
    rfl
  | succ fuel ih =>
    intro i hi
    rw [scan]
    cases hx : xs[i]? with
    | none =>
      rw [List.drop_eq_nil_of_le (List.getElem?_eq_none_iff.mp hx)]
      rfl
    | some x =>
      obtain ⟨hlt, hget⟩ := List.getElem?_eq_some_iff.mp hx
      rw [List.drop_eq_getElem_cons hlt, hget, List.takeWhile_cons]
      dsimp only
      split_ifs with hc
      · rw [ih (i + 1) (by omega), List.length_cons]
        omega
      · rfl

theorem drop_takeWhile (cond : β → Bool) (xs : List β) :
    xs.drop (xs.takeWhile cond).length = xs.dropWhile cond :=
  calc
    xs.drop (xs.takeWhile cond).length =
        (xs.takeWhile cond ++ xs.dropWhile cond).drop (xs.takeWhile cond).length := by
      rw [List.takeWhile_append_dropWhile]
    _ = xs.dropWhile cond := List.drop_left' rfl

theorem take_takeWhile (cond : β → Bool) (xs : List β) :
    xs.take (xs.takeWhile cond).length = xs.takeWhile cond :=
  (List.prefix_iff_eq_take.mp (List.takeWhile_prefix cond)).symm

/-- Where no key is below `k`, the items of key `k` come first. -/
theorem takeWhile_eq_filter {key : β → κ} {k : κ} {xs : List β}
    (hs : xs.Pairwise fun x y => key x ≤ key y) (hk : ∀ x ∈ xs, k ≤ key x) :
    xs.takeWhile (fun x => key x = k) = xs.filter fun x => key x = k := by
  induction xs with
  | nil => rfl
  | cons x xs ih =>
    obtain ⟨hx, hs⟩ := List.pairwise_cons.mp hs
    rw [List.takeWhile_cons, List.filter_cons]
    split_ifs with h
    · rw [ih hs fun y hy => hk y (List.mem_cons_of_mem _ hy)]
    · have hlt : k < key x := lt_of_le_of_ne (hk x (List.mem_cons_self ..)) fun he =>
        h (decide_eq_true he.symm)
      refine (List.filter_eq_nil_iff.mpr fun y hy => ?_).symm
      rw [decide_eq_true_eq]
      exact ((hlt.trans_le (hx y hy)).ne').elim ∘ id

theorem takeWhile_dropWhile {key : β → κ} {k : κ} {xs : List β}
    (hs : xs.Pairwise fun x y => key x ≤ key y) :
    (xs.dropWhile fun x => key x < k).takeWhile (fun x => key x = k) =
      xs.filter fun x => key x = k := by
  induction xs with
  | nil => rfl
  | cons x xs ih =>
    obtain ⟨hx, hs'⟩ := List.pairwise_cons.mp hs
    by_cases h : key x < k
    · rw [List.dropWhile_cons_of_pos (by simpa using h), ih hs',
        List.filter_cons_of_neg (by simpa using h.ne)]
    · rw [List.dropWhile_cons_of_neg (by simpa using h)]
      refine takeWhile_eq_filter hs fun y hy => ?_
      rcases List.mem_cons.mp hy with rfl | hy
      · exact not_lt.mp h
      · exact (not_lt.mp h).trans (hx y hy)

/-- Between the two indices lie the items of the key, in order. -/
theorem slice_eq {key : β → κ} (k : κ) {xs : List β}
    (hs : xs.Pairwise fun x y => key x ≤ key y) :
    (xs.drop (lower key k xs)).take (upper key k xs - lower key k xs) =
      xs.filter fun x => key x = k := by
  have hlow : lower key k xs = (xs.takeWhile fun x => key x < k).length := by
    rw [lower, scan_eq _ _ _ _ (by omega), Nat.zero_add, List.drop_zero]
  have hup : upper key k xs - lower key k xs =
      ((xs.drop (lower key k xs)).takeWhile fun x => key x = k).length := by
    rw [upper, scan_eq _ _ _ _ (by omega), Nat.add_sub_cancel_left]
  rw [hup, take_takeWhile, hlow, drop_takeWhile, takeWhile_dropWhile hs]

end KeyScan
