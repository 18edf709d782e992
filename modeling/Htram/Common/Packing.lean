import Mathlib.Data.List.Basic
import Mathlib.Data.Nat.Notation
import Mathlib.Tactic.Common
import Mathlib.Tactic.SplitIfs

/-!
# Filling packages of one size

Values are put into a package one at a time. A package that has `b` values is closed and
the next one begun; one that is not full can be closed early.

* `putAll_stream`: the values stay in the order in which they came.
* `length_putAll_rest`, `length_putAll_closed`: what is in the open package and how many
  are closed.
* `length_close_le`: closing early first saves no package.
-/

namespace Packing

/-- The packages closed so far, and the open one. -/
@[ext] structure Store (β : Type*) where
  closed : List (List β)
  rest : List β

variable {β : Type*}

namespace Store

/-- The values in the order in which they came. -/
def stream (s : Store β) : List β := s.closed.flatten ++ s.rest

/-- Put in `x`, and close the package if it has `b` values now. -/
def put (b : ℕ) (s : Store β) (x : β) : Store β :=
  if s.rest.length + 1 = b then ⟨s.closed ++ [s.rest ++ [x]], []⟩
  else ⟨s.closed, s.rest ++ [x]⟩

/-- Put in `xs`, one after the other. -/
def putAll (b : ℕ) (s : Store β) (xs : List β) : Store β := xs.foldl (put b) s

/-- Close the open package, with `extra` added, if there is something in it. -/
def closeWith (extra : List β) (s : Store β) : Store β :=
  if s.rest = [] then s else ⟨s.closed ++ [s.rest ++ extra], []⟩

/-- Close the open package if there is something in it. -/
def close (s : Store β) : Store β := s.closeWith []

@[simp] theorem putAll_nil (b : ℕ) (s : Store β) : s.putAll b [] = s := rfl

theorem putAll_append (b : ℕ) (s : Store β) (xs ys : List β) :
    s.putAll b (xs ++ ys) = (s.putAll b xs).putAll b ys := List.foldl_append

@[simp] theorem putAll_singleton (b : ℕ) (s : Store β) (x : β) : s.putAll b [x] = s.put b x := rfl

/-! ## The order -/

theorem put_stream (b : ℕ) (s : Store β) (x : β) : (s.put b x).stream = s.stream ++ [x] := by
  unfold put stream
  split_ifs
  · simp
  · simp

theorem putAll_stream (b : ℕ) (s : Store β) (xs : List β) :
    (s.putAll b xs).stream = s.stream ++ xs := by
  induction xs generalizing s with
  | nil => simp
  | cons x xs ih =>
    show ((s.put b x).putAll b xs).stream = _
    rw [ih, put_stream, List.append_assoc, List.singleton_append]

theorem closeWith_stream (extra : List β) (s : Store β) :
    (s.closeWith extra).stream = s.stream ++ if s.rest = [] then [] else extra := by
  unfold closeWith stream
  split_ifs
  · simp
  · simp

@[simp] theorem closeWith_rest (extra : List β) (s : Store β) : (s.closeWith extra).rest = [] := by
  unfold closeWith
  split_ifs with h
  · exact h
  · rfl

@[simp] theorem close_stream (s : Store β) : s.close.stream = s.stream := by
  rw [close, closeWith_stream]
  simp

@[simp] theorem close_rest (s : Store β) : s.close.rest = [] := closeWith_rest [] s

/-! ## New packages -/

theorem put_closed (b : ℕ) (s : Store β) (x : β) : s.closed <+: (s.put b x).closed := by
  unfold put
  split_ifs
  · exact List.prefix_append _ _
  · exact List.prefix_rfl

theorem putAll_closed (b : ℕ) (s : Store β) (xs : List β) :
    s.closed <+: (s.putAll b xs).closed := by
  induction xs generalizing s with
  | nil => exact List.prefix_rfl
  | cons x xs ih => exact (put_closed b s x).trans (ih (s.put b x))

theorem closeWith_closed (extra : List β) (s : Store β) :
    s.closed <+: (s.closeWith extra).closed := by
  unfold closeWith
  split_ifs
  · exact List.prefix_rfl
  · exact List.prefix_append _ _

/-- What the packages closed since `s` hold, if nothing is left open. -/
theorem flatten_new {s s' : Store β} (hclosed : s.closed <+: s'.closed) (hrest : s'.rest = [])
    {ys : List β} (hstream : s'.stream = s.stream ++ ys) :
    (s'.closed.drop s.closed.length).flatten = s.rest ++ ys := by
  obtain ⟨new, hnew⟩ := hclosed
  unfold stream at hstream
  rw [hrest, ← hnew, List.flatten_append, List.append_nil, List.append_assoc] at hstream
  rw [← hnew, List.drop_left]
  exact List.append_cancel_left hstream

/-! ## The numbers -/

theorem length_put {b : ℕ} {s : Store β} (h : s.rest.length < b) (x : β) :
    (s.put b x).rest.length = (s.rest.length + 1) % b ∧
      (s.put b x).closed.length = s.closed.length + (s.rest.length + 1) / b := by
  unfold put
  split_ifs with hfull
  · rw [hfull, Nat.mod_self, Nat.div_self (by omega), List.length_append]
    exact ⟨rfl, rfl⟩
  · rw [Nat.mod_eq_of_lt (by omega), Nat.div_eq_of_lt (by omega), List.length_append]
    exact ⟨rfl, rfl⟩

theorem length_putAll {b : ℕ} {s : Store β} (h : s.rest.length < b) (xs : List β) :
    (s.putAll b xs).rest.length = (s.rest.length + xs.length) % b ∧
      (s.putAll b xs).closed.length = s.closed.length + (s.rest.length + xs.length) / b := by
  induction xs generalizing s with
  | nil =>
    rw [putAll_nil, List.length_nil, Nat.add_zero, Nat.mod_eq_of_lt h, Nat.div_eq_of_lt h]
    exact ⟨rfl, rfl⟩
  | cons x xs ih =>
    obtain ⟨h1, h2⟩ := length_put h x
    have hlt : (s.put b x).rest.length < b := by
      rw [h1]
      exact Nat.mod_lt _ (by omega)
    obtain ⟨h3, h4⟩ := ih hlt
    have hsum : s.rest.length + (x :: xs).length = s.rest.length + 1 + xs.length := by
      rw [List.length_cons]
      omega
    have hdiv := Nat.div_add_mod (s.rest.length + 1) b
    have hsplit : s.rest.length + 1 + xs.length =
        (s.rest.length + 1) % b + xs.length + (s.rest.length + 1) / b * b := by
      rw [Nat.mul_comm] at hdiv
      omega
    show ((s.put b x).putAll b xs).rest.length = _ ∧ ((s.put b x).putAll b xs).closed.length = _
    rw [h3, h4, h1, h2, hsum]
    constructor
    · rw [hsplit, Nat.add_mul_mod_self_right]
    · rw [hsplit, Nat.add_mul_div_right _ _ (by omega)]
      omega

theorem length_putAll_rest {b : ℕ} {s : Store β} (h : s.rest.length < b) (xs : List β) :
    (s.putAll b xs).rest.length = (s.rest.length + xs.length) % b := (length_putAll h xs).1

theorem length_putAll_closed {b : ℕ} {s : Store β} (h : s.rest.length < b) (xs : List β) :
    (s.putAll b xs).closed.length = s.closed.length + (s.rest.length + xs.length) / b :=
  (length_putAll h xs).2

theorem length_closeWith (extra : List β) (s : Store β) :
    (s.closeWith extra).closed.length = s.closed.length + if s.rest.length = 0 then 0 else 1 := by
  unfold closeWith
  simp only [List.length_eq_zero_iff]
  split_ifs
  · rfl
  · simp

theorem length_close (s : Store β) :
    s.close.closed.length = s.closed.length + if s.rest.length = 0 then 0 else 1 :=
  length_closeWith [] s

/-- The packages for `n` values, the last one perhaps not full. -/
theorem div_add_ite {b : ℕ} (hb : 0 < b) (n : ℕ) :
    (n / b + if n % b = 0 then 0 else 1) = (n + (b - 1)) / b := by
  have hn := Nat.div_add_mod n b
  have hlt := Nat.mod_lt n hb
  have hsplit : n + (b - 1) = n % b + (b - 1) + n / b * b := by
    rw [Nat.mul_comm] at hn
    omega
  rw [hsplit, Nat.add_mul_div_right _ _ hb, Nat.add_comm]
  congr 1
  split_ifs with h
  · rw [h, Nat.zero_add, Nat.div_eq_of_lt (by omega)]
  · rw [show n % b + (b - 1) = n % b - 1 + 1 * b by omega, Nat.add_mul_div_right _ _ hb,
      Nat.div_eq_of_lt (by omega)]

/-- Closing the open package first does not save one. -/
theorem length_close_le {b : ℕ} {s : Store β} (h : s.rest.length < b) (xs : List β) :
    (s.putAll b xs).close.closed.length ≤ (s.close.putAll b xs).close.closed.length := by
  have hpos : 0 < b := by omega
  have hclose : s.close.rest.length < b := by rw [close_rest]; exact hpos
  rw [length_close, length_close, length_putAll_rest h, length_putAll_closed h,
    length_putAll_rest hclose, length_putAll_closed hclose, length_close, close_rest,
    List.length_nil, Nat.zero_add, Nat.add_assoc, Nat.add_assoc, Nat.add_assoc, div_add_ite hpos,
    div_add_ite hpos]
  refine Nat.add_le_add_left ?_ _
  split_ifs with hrest
  · exact Nat.le_of_eq (by rw [hrest, Nat.zero_add, Nat.zero_add])
  · calc (s.rest.length + xs.length + (b - 1)) / b ≤ (xs.length + (b - 1) + 1 * b) / b :=
          Nat.div_le_div_right (by omega)
      _ = 1 + (xs.length + (b - 1)) / b := by rw [Nat.add_mul_div_right _ _ hpos, Nat.add_comm]

end Store

end Packing
