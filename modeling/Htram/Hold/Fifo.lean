import Htram.Common.Network
import Htram.Hold.HoldQueue

/-!
# Runs of pushes and pops

A `HoldQueue` beside the plain list queue of the items pushed and not yet popped
(`htram_group.h` lines 26–48), over any sequence of calls.

* `step_fifo`: one call keeps the two in agreement, and both allow the same pops.
* `runs_fifo`: so does every sequence of calls on a new queue.
-/

namespace Htram

namespace HoldQueue

variable {α : Type*}

/-- A call on the queue. -/
inductive Op (α : Type*)
  | push (x : α)
  | pop

/-- One call; callers pop only when the queue is not empty. -/
def step (q : HoldQueue α) : Op α → Option (HoldQueue α)
  | .push x => some (q.push x)
  | .pop => if q.empty then none else some q.pop

/-- One call on the plain list queue. -/
def plainStep : List α → Op α → Option (List α)
  | xs, .push x => some (xs ++ [x])
  | [], .pop => none
  | _ :: xs, .pop => some xs

/-- The queue shows what the plain queue `xs` shows, and its consumed prefix is bounded. -/
structure Fifo (q : HoldQueue α) (xs : List α) : Prop where
  front : q.front = xs.head?
  size : q.size = xs.length
  empty : q.empty = xs.isEmpty
  head_lt : q.head = 0 ∨ q.head < q.items.length
  prefix_lt : q.head < 4096 ∨ 2 * q.head < q.items.length
  prefix_le : q.head ≤ max 4095 (q.items.length / 2)

theorem fifo_toList (q : HoldQueue α) : Fifo q q.toList where
  front := q.front_eq_head?
  size := q.size_eq_length
  empty := by rw [Bool.eq_iff_iff, empty_iff, List.isEmpty_iff]
  head_lt := q.head_lt
  prefix_lt := q.prefix_lt
  prefix_le := by have := q.prefix_lt; omega

theorem step_fifo (q : HoldQueue α) (c : Op α) :
    Option.Rel (fun q xs => toList q = xs) (q.step c) (plainStep q.toList c) := by
  rcases c with x | _
  · exact Option.Rel.some (q.toList_push x)
  · unfold step
    have hpop := q.toList_pop
    generalize hxs : q.toList = xs at hpop ⊢
    cases xs with
    | nil =>
      rw [if_pos ((empty_iff q).mpr hxs)]
      exact Option.Rel.none
    | cons x xs =>
      rw [if_neg fun he => by simp [(empty_iff q).mp he] at hxs]
      exact Option.Rel.some hpop

/-- After any calls on a new queue, each pop on a queue that is not empty, the queue is the
    plain queue of the items pushed and not yet popped. -/
theorem runs_fifo (calls : List (Op α)) :
    Option.Rel Fifo (Network.runs step calls init) (Network.runs plainStep calls []) := by
  have h : Option.Rel (fun q xs => toList q = xs) (Network.runs step calls init)
      (Network.runs plainStep calls []) :=
    Network.runs_rel (fun q xs c hq => by rw [← hq]; exact step_fifo q c) (toList_init (α := α))
  generalize Network.runs step calls init = o at h ⊢
  generalize Network.runs plainStep calls [] = o' at h ⊢
  rcases h with hq | _
  · apply Option.Rel.some
    rw [← hq]
    exact fifo_toList _
  · exact Option.Rel.none

end HoldQueue

end Htram
