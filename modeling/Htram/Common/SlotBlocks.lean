import Mathlib.Data.Multiset.MapFold
import Mathlib.Logic.Function.Basic

/-!
# Slots handed out in blocks

Workers fill a common row of slots. Each takes the next block of `b` slots, writes them one by
one and lets the block go. This is what holds of the slots whatever the order of the writes;
how a worker gets its block is not said here.

* `SlotBlocks.Blocks`: the blocks, who has them and what is written.
* `SlotBlocks.Blocks.full`: when nobody has a block, the slots handed out are written.
* `SlotBlocks.contents_write`: a write adds one item to what the slots have.
-/

namespace SlotBlocks

variable {ι β : Type*}

/-- `k` blocks of `b` slots have been handed out, one after the other. A worker with
    `pend w = some (a, i)` has block `a` and has written its first `i` slots. -/
structure Blocks (b k : ℕ) (slots : ℕ → Option β) (pend : ι → Option (ℕ × ℕ)) : Prop where
  claimed : ∀ {w a i}, pend w = some (a, i) → a < k
  own : ∀ {v w a i i'}, pend v = some (a, i) → pend w = some (a, i') → v = w
  ahead : ∀ {w a i j}, pend w = some (a, i) → i ≤ j → j < b → slots (b * a + j) = none
  beyond : ∀ j ≥ b * k, slots j = none
  filled : ∀ {a j}, a < k → j < b → slots (b * a + j) = none → ∃ w i, pend w = some (a, i) ∧ i ≤ j

theorem block_unique {b a a' i i' : ℕ} (hi : i < b) (hi' : i' < b) (h : b * a + i = b * a' + i') :
    a = a' ∧ i = i' := by
  have hdiv := congrArg (· / b) h
  have hmod := congrArg (· % b) h
  simp only [Nat.mul_add_div (Nat.zero_lt_of_lt hi), Nat.mul_add_mod, Nat.div_eq_of_lt hi,
    Nat.div_eq_of_lt hi', Nat.mod_eq_of_lt hi, Nat.mod_eq_of_lt hi'] at hdiv hmod
  omega

theorem lt_block_end {b k a j : ℕ} (ha : a < k) (hj : j < b) : b * a + j < b * k := by
  have := Nat.mul_le_mul_left b (Nat.succ_le_of_lt ha)
  rw [Nat.mul_succ] at this
  omega

namespace Blocks

variable {b k : ℕ} {slots : ℕ → Option β} {pend : ι → Option (ℕ × ℕ)}

theorem empty (b : ℕ) (h : ∀ w, pend w = none) : Blocks b 0 (fun _ => (none : Option β)) pend where
  claimed := fun hw => by simp [h] at hw
  own := fun hv => by simp [h] at hv
  ahead := fun _ _ _ => rfl
  beyond := fun _ _ => rfl
  filled := fun ha => absurd ha (Nat.not_lt_zero _)

/-- No two workers have a slot in common. -/
theorem disjoint (h : Blocks b k slots pend) {v w : ι} (hvw : v ≠ w) {a a' i i' j j' : ℕ}
    (hv : pend v = some (a, i)) (hw : pend w = some (a', i')) (hj : j < b) (hj' : j' < b) :
    b * a + j ≠ b * a' + j' := by
  intro he
  obtain ⟨rfl, -⟩ := block_unique hj hj' he
  exact hvw (h.own hv hw)

/-- When nobody has a block, exactly the slots handed out are written. -/
theorem full (h : Blocks b k slots pend) (hnone : ∀ w, pend w = none) (j : ℕ) :
    slots j ≠ none ↔ j < b * k := by
  constructor
  · intro hj
    by_contra hlt
    exact hj (h.beyond j (not_lt.mp hlt))
  · intro hlt hj
    have hb : 0 < b := Nat.pos_of_ne_zero fun h0 => by simp [h0] at hlt
    have ha : j / b < k := Nat.div_lt_of_lt_mul hlt
    rw [← Nat.div_add_mod j b] at hj
    obtain ⟨w, i, hw, -⟩ := h.filled ha (Nat.mod_lt j hb) hj
    simp [hnone] at hw

variable [DecidableEq ι]

/-- A worker takes the next block. -/
theorem claim (h : Blocks b k slots pend) {w : ι} (hw : pend w = none) :
    Blocks b (k + 1) slots (Function.update pend w (some (k, 0))) where
  claimed := by
    intro v a i hv
    by_cases he : v = w
    · subst he
      simp at hv
      omega
    · rw [Function.update_of_ne he] at hv
      exact (h.claimed hv).trans (Nat.lt_succ_self k)
  own := by
    intro u v a i i' hu hv
    by_cases hue : u = w <;> by_cases hve : v = w
    · rw [hue, hve]
    · subst hue
      rw [Function.update_of_ne hve] at hv
      have := h.claimed hv
      simp at hu
      omega
    · subst hve
      rw [Function.update_of_ne hue] at hu
      have := h.claimed hu
      simp at hv
      omega
    · rw [Function.update_of_ne hue] at hu
      rw [Function.update_of_ne hve] at hv
      exact h.own hu hv
  ahead := by
    intro v a i j hv hij hj
    by_cases he : v = w
    · subst he
      simp only [Function.update_self, Option.some.injEq, Prod.mk.injEq] at hv
      obtain ⟨rfl, -⟩ := hv
      exact h.beyond _ (Nat.le_add_right _ _)
    · rw [Function.update_of_ne he] at hv
      exact h.ahead hv hij hj
  beyond := by
    intro j hj
    refine h.beyond j (le_trans ?_ hj)
    exact Nat.mul_le_mul_left b (Nat.le_succ k)
  filled := by
    intro a j ha hj hnone
    rcases Nat.lt_succ_iff_lt_or_eq.mp ha with ha | rfl
    · obtain ⟨v, i, hv, hij⟩ := h.filled ha hj hnone
      have he : v ≠ w := fun he => by rw [he, hw] at hv; cases hv
      exact ⟨v, i, by rwa [Function.update_of_ne he], hij⟩
    · exact ⟨w, 0, Function.update_self .., Nat.zero_le j⟩

/-- A worker writes the next slot of its block. -/
theorem write (h : Blocks b k slots pend) {w : ι} {a i : ℕ} (hw : pend w = some (a, i))
    (hi : i < b) (x : β) :
    Blocks b k (Function.update slots (b * a + i) (some x))
      (Function.update pend w (some (a, i + 1))) where
  claimed := by
    intro v a' i' hv
    by_cases he : v = w
    · subst he
      simp only [Function.update_self, Option.some.injEq, Prod.mk.injEq] at hv
      obtain ⟨rfl, -⟩ := hv
      exact h.claimed hw
    · rw [Function.update_of_ne he] at hv
      exact h.claimed hv
  own := by
    have hback : ∀ {v a' i'}, Function.update pend w (some (a, i + 1)) v = some (a', i') →
        ∃ i'', pend v = some (a', i'') := by
      intro v a' i' hv
      by_cases he : v = w
      · subst he
        simp only [Function.update_self, Option.some.injEq, Prod.mk.injEq] at hv
        obtain ⟨rfl, -⟩ := hv
        exact ⟨i, hw⟩
      · rw [Function.update_of_ne he] at hv
        exact ⟨i', hv⟩
    intro u v a' i' i'' hu hv
    obtain ⟨_, hu⟩ := hback hu
    obtain ⟨_, hv⟩ := hback hv
    exact h.own hu hv
  ahead := by
    intro v a' i' j hv hij hj
    by_cases he : v = w
    · subst he
      simp only [Function.update_self, Option.some.injEq, Prod.mk.injEq] at hv
      obtain ⟨rfl, rfl⟩ := hv
      rw [Function.update_of_ne (by omega)]
      exact h.ahead hw (by omega) hj
    · rw [Function.update_of_ne he] at hv
      rw [Function.update_of_ne (h.disjoint he hv hw hj hi)]
      exact h.ahead hv hij hj
  beyond := by
    intro j hj
    have := lt_block_end (h.claimed hw) hi
    rw [Function.update_of_ne (by omega)]
    exact h.beyond j hj
  filled := by
    intro a' j ha hj hnone
    have hne : b * a' + j ≠ b * a + i := fun he => by simp [he] at hnone
    rw [Function.update_of_ne hne] at hnone
    obtain ⟨v, i', hv, hij⟩ := h.filled ha hj hnone
    by_cases he : v = w
    · subst he
      rw [hw] at hv
      simp only [Option.some.injEq, Prod.mk.injEq] at hv
      obtain ⟨rfl, rfl⟩ := hv
      exact ⟨v, i + 1, Function.update_self .., by omega⟩
    · exact ⟨v, i', by rwa [Function.update_of_ne he], hij⟩

/-- A worker whose block is written lets it go. -/
theorem release (h : Blocks b k slots pend) {w : ι} {a : ℕ} (hw : pend w = some (a, b)) :
    Blocks b k slots (Function.update pend w none) := by
  have hback : ∀ {v a' i'}, Function.update pend w none v = some (a', i') →
      pend v = some (a', i') := by
    intro v a' i' hv
    by_cases he : v = w
    · subst he
      simp at hv
    · rwa [Function.update_of_ne he] at hv
  refine ⟨fun hv => h.claimed (hback hv), fun hu hv => h.own (hback hu) (hback hv),
    fun hv => h.ahead (hback hv), h.beyond, fun {a' j} ha hj hnone => ?_⟩
  obtain ⟨v, i, hv, hij⟩ := h.filled ha hj hnone
  have he : v ≠ w := by
    rintro rfl
    rw [hw] at hv
    simp only [Option.some.injEq, Prod.mk.injEq] at hv
    omega
  exact ⟨v, i, by rwa [Function.update_of_ne he], hij⟩

end Blocks

/-! ## What the slots have -/

/-- The items in the first `n` slots. -/
def contents (n : ℕ) (slots : ℕ → Option β) : Multiset β :=
  ((List.range n).filterMap slots : List β)

@[simp] theorem contents_empty (n : ℕ) : contents n (fun _ => (none : Option β)) = 0 := by
  simp [contents]

theorem contents_write {slots : ℕ → Option β} {j : ℕ} (hnone : slots j = none) (x : β) :
    ∀ {n : ℕ}, j < n → contents n (Function.update slots j (some x)) = x ::ₘ contents n slots := by
  have hbelow : ∀ n ≤ j, (List.range n).filterMap (Function.update slots j (some x)) =
      (List.range n).filterMap slots := by
    intro n hn
    refine List.filterMap_congr fun i hi => ?_
    have := List.mem_range.mp hi
    rw [Function.update_of_ne (by omega)]
  intro n
  induction n with
  | zero => intro h; exact absurd h (Nat.not_lt_zero j)
  | succ n ih =>
    intro hj
    unfold contents at ih ⊢
    rw [Multiset.cons_coe, Multiset.coe_eq_coe] at ih ⊢
    rw [List.range_succ, List.filterMap_append, List.filterMap_append]
    rcases Nat.lt_succ_iff_lt_or_eq.mp hj with hlt | rfl
    · have hlast : [n].filterMap (Function.update slots j (some x)) = [n].filterMap slots := by
        refine List.filterMap_congr fun i hi => ?_
        rw [List.mem_singleton.mp hi, Function.update_of_ne (by omega)]
      rw [hlast]
      exact (ih hlt).append_right _
    · rw [hbelow j le_rfl]
      simp [hnone]

/-- Slots that nobody wrote do not count. -/
theorem contents_beyond {slots : ℕ → Option β} {m : ℕ} (h : ∀ j ≥ m, slots j = none) (l : ℕ) :
    contents (m + l) slots = contents m slots := by
  induction l with
  | zero => rfl
  | succ l ih =>
    rw [← ih]
    unfold contents
    rw [← Nat.add_assoc, List.range_succ, List.filterMap_append]
    simp [h (m + l) (Nat.le_add_right m l)]

/-- Slots that are all written are read back whole. -/
theorem contents_full {slots : ℕ → Option β} {m : ℕ} (h : ∀ j < m, slots j ≠ none) :
    (contents m slots).map some = ((List.range m).map slots : List (Option β)) := by
  unfold contents
  rw [Multiset.map_coe, List.map_filterMap, ← List.filterMap_eq_map']
  refine congrArg _ (List.filterMap_congr fun j hj => ?_)
  obtain ⟨x, hx⟩ := Option.ne_none_iff_exists'.mp (h j (List.mem_range.mp hj))
  rw [hx]
  rfl

end SlotBlocks
