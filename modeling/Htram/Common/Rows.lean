import Mathlib.Algebra.BigOperators.Group.Finset.Basic
import Mathlib.Algebra.Order.BigOperators.Group.Finset

/-!
# Rows of entries

A row is a function on the indices, and one of its entries changes.

* `Rows.sum_update`, `Rows.sum_update_ite`: what the change does to a sum over the row.
* `Rows.sum_coe`, `Rows.sum_flatMap`: a row of lists.
* `Rows.sum_blocks`: a row of rows.
* `Rows.forall_of_update`: what holds of every entry after it, and of the old entry, held of every
  entry before.
-/

namespace Rows

open Finset

variable {β M : Type*} [AddCommMonoid M]

/-- Two rows that differ in one entry. -/
theorem sum_of_ne {f g : ℕ → M} {n i : ℕ} (hi : i < n) (hfg : ∀ j ≠ i, f j = g j) :
    ∑ j ∈ range n, f j + g i = ∑ j ∈ range n, g j + f i := by
  have hmem : i ∈ range n := mem_range.mpr hi
  have hrest : ∑ j ∈ (range n).erase i, f j = ∑ j ∈ (range n).erase i, g j :=
    sum_congr rfl fun j hj => hfg j (ne_of_mem_erase hj)
  rw [← add_sum_erase _ f hmem, ← add_sum_erase _ g hmem, hrest, add_right_comm, add_comm (f i),
    add_right_comm]

/-- Changing one entry changes the sum by that entry's term. -/
theorem sum_update_at (w : ℕ → β → M) (f : ℕ → β) {n i : ℕ} (hi : i < n) (v : β) :
    ∑ j ∈ range n, w j (Function.update f i v j) + w i (f i) =
      ∑ j ∈ range n, w j (f j) + w i v := by
  have hsum := sum_of_ne (f := fun j => w j (Function.update f i v j)) (g := fun j => w j (f j)) hi
    fun j hj => by rw [Function.update_of_ne hj]
  rwa [Function.update_self] at hsum

theorem sum_update (w : β → M) (f : ℕ → β) {n i : ℕ} (hi : i < n) (v : β) :
    ∑ j ∈ range n, w (Function.update f i v j) + w (f i) = ∑ j ∈ range n, w (f j) + w v :=
  sum_update_at (fun _ => w) f hi v

/-- The sum over a row of lists is the lists one after the other. -/
theorem sum_coe (f : ℕ → List β) (n : ℕ) :
    ∑ j ∈ range n, (f j : Multiset β) = ((List.range n).flatMap f : List β) := by
  induction n with
  | zero => rfl
  | succ n ih =>
    rw [sum_range_succ, ih, List.range_succ, List.flatMap_append, List.flatMap_singleton,
      Multiset.coe_add]

/-- What the lists of a row add up to. -/
theorem sum_flatMap (w : β → M) (f : ℕ → List β) (n : ℕ) :
    (((List.range n).flatMap f).map w).sum = ∑ j ∈ range n, ((f j).map w).sum := by
  induction n with
  | zero => rfl
  | succ n ih =>
    rw [sum_range_succ, ← ih, List.range_succ, List.flatMap_append, List.flatMap_singleton,
      List.map_append, List.sum_append]

/-- Changing an entry outside the row changes nothing. -/
theorem sum_update_ite (w : β → M) (f : ℕ → β) (i : ℕ) (v : β) (n : ℕ) :
    (∑ j ∈ range n, w (Function.update f i v j)) + (if i < n then w (f i) else 0) =
      (∑ j ∈ range n, w (f j)) + if i < n then w v else 0 := by
  split_ifs with hi
  · exact sum_update w f hi v
  · rw [add_zero, add_zero]
    apply sum_congr rfl
    intro j hj
    have := mem_range.mp hj
    rw [Function.update_of_ne (by omega)]

theorem le_sum (w : ℕ → ℕ) {n i : ℕ} (hi : i < n) : w i ≤ ∑ j ∈ range n, w j :=
  single_le_sum (fun _ _ => Nat.zero_le _) (mem_range.mpr hi)

/-- A row of `n` blocks of `k` entries, block by block. -/
theorem sum_blocks (f : ℕ → M) (n k : ℕ) :
    ∑ i ∈ range (n * k), f i = ∑ a ∈ range n, ∑ b ∈ range k, f (a * k + b) := by
  induction n with
  | zero => rw [Nat.zero_mul, sum_range_zero, sum_range_zero]
  | succ n ih => rw [Nat.succ_mul, sum_range_add, ih, sum_range_succ]

/-! ## All entries -/

/-- What is the same in `x` is the same in the whole row. -/
theorem update_field {γ : Type*} (f : β → γ) (row : ℕ → β) {i : ℕ} {x : β}
    (h : f x = f (row i)) (j : ℕ) : f (Function.update row i x j) = f (row j) := by
  by_cases hj : j = i
  · subst hj
    rw [Function.update_self, h]
  · rw [Function.update_of_ne hj]

theorem forall_of_update {P : β → Prop} {f : ℕ → β} {i : ℕ} {v : β}
    (h : ∀ j, P (Function.update f i v j)) (hi : P (f i)) (j : ℕ) : P (f j) := by
  by_cases hj : j = i
  · rwa [hj]
  · exact ((Function.forall_update_iff f fun _ => P).mp h).2 j hj

end Rows
