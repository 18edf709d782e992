import Mathlib.Data.List.Basic
import Mathlib.Tactic.SplitIfs

/-!
# `HoldQueue`, the FIFO of one (destination, bucket) hold

Model of the class `HoldQueue` of `htram_group.h` (lines 26–48): a vector and
the index of its first item that has not been popped. The two facts every
operation keeps about that index are fields of the structure.

* `toList`: the items not yet popped, in order.
* `toList_push`, `toList_pop`, `front_eq_head?`, `size_eq_length`,
  `empty_iff`: each operation is the operation of a plain FIFO on `toList`.
-/

namespace Htram

/-- `HoldQueue<T>` (lines 26–48). `capacity` is `items_.capacity()`. -/
structure HoldQueue (α : Type*) where
  items : List α
  head : ℕ
  capacity : ℕ
  /-- Either nothing has been popped since the last reset or something is left. -/
  head_lt : head = 0 ∨ head < items.length
  /-- The consumed prefix is short, or shorter than what is left. -/
  prefix_lt : head < 4096 ∨ 2 * head < items.length

namespace HoldQueue

variable {α : Type*}

/-- `kKeep` (line 29). -/
def kKeep : ℕ := 256

/-- A default-constructed queue. -/
def init : HoldQueue α := ⟨[], 0, 0, Or.inl rfl, Or.inl (by omega)⟩

instance : Inhabited (HoldQueue α) := ⟨init⟩

/-- `push` (line 31); a full vector doubles its capacity. -/
def push (q : HoldQueue α) (x : α) : HoldQueue α where
  items := q.items ++ [x]
  head := q.head
  capacity := if q.items.length < q.capacity then q.capacity else max 1 (2 * q.capacity)
  head_lt := by have := q.head_lt; simp; omega
  prefix_lt := by have := q.prefix_lt; simp; omega

/-- `front` (line 32): `items_[head_]`. -/
def front (q : HoldQueue α) : Option α := q.items[q.head]?

/-- `empty` (line 46). -/
def empty (q : HoldQueue α) : Bool := q.head = q.items.length

/-- `size` (line 47). -/
def size (q : HoldQueue α) : ℕ := q.items.length - q.head

/-- `pop` (lines 34–45), which every caller guards with `!empty()`. -/
def pop (q : HoldQueue α) : HoldQueue α :=
  if _h : q.head < q.items.length then
    if h₁ : q.head + 1 = q.items.length then
      { items := [], head := 0, head_lt := Or.inl rfl, prefix_lt := Or.inl (by omega)
        capacity := if q.capacity > kKeep then 0 else q.capacity }
    else if h₂ : q.head + 1 ≥ 4096 ∧ 2 * (q.head + 1) ≥ q.items.length then
      { items := q.items.drop (q.head + 1), head := 0, capacity := q.capacity
        head_lt := Or.inl rfl, prefix_lt := Or.inl (by omega) }
    else
      { items := q.items, head := q.head + 1, capacity := q.capacity
        head_lt := by omega, prefix_lt := by omega }
  else q

/-- The items not yet popped, in order. -/
def toList (q : HoldQueue α) : List α := q.items.drop q.head

theorem head_le (q : HoldQueue α) : q.head ≤ q.items.length := by
  have := q.head_lt; omega

@[simp] theorem toList_init : (init : HoldQueue α).toList = [] := rfl

@[simp] theorem toList_push (q : HoldQueue α) (x : α) : (q.push x).toList = q.toList ++ [x] := by
  simp [toList, push, List.drop_append_of_le_length q.head_le]

@[simp] theorem front_eq_head? (q : HoldQueue α) : q.front = q.toList.head? := by
  simp [front, toList, List.head?_drop]

@[simp] theorem size_eq_length (q : HoldQueue α) : q.size = q.toList.length := by
  simp [size, toList]

@[simp] theorem empty_iff (q : HoldQueue α) : q.empty = true ↔ q.toList = [] := by
  have := q.head_le
  simp [empty, toList, List.drop_eq_nil_iff]; omega

@[simp] theorem toList_pop (q : HoldQueue α) : q.pop.toList = q.toList.tail := by
  have htail : q.toList.tail = q.items.drop (q.head + 1) := by simp [toList]
  rw [htail]
  unfold pop
  by_cases h : q.head < q.items.length
  · rw [dif_pos h]
    by_cases h₁ : q.head + 1 = q.items.length
    · rw [dif_pos h₁, h₁, List.drop_length]; rfl
    · rw [dif_neg h₁]
      split <;> rfl
  · rw [dif_neg h, List.drop_of_length_le (by omega)]
    exact List.drop_of_length_le (by omega)

end HoldQueue

end Htram
