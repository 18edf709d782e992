import Mathlib.Data.Finset.Card
import Mathlib.Order.RelClasses
import Mathlib.Tactic.Push

/-!
# Fair runs

What must happen in an infinite run `σ`, where `acts p n` says that process `p` takes step `n` and
fairness that it takes another one after every moment. Nothing is said about how the processes
take turns.

* `falls`, `drops`: a measure that falls again and again.
* `eventually`: a measure that no step raises, and at each moment a process whose next step lowers
  it.
* `all_rest`: processes that come to rest one after the other have all come to rest.
-/

namespace FairRun

variable {S P α : Type*}

/-- Process `p` takes a step after every moment. -/
def Again (acts : P → ℕ → Prop) (p : P) : Prop := ∀ n, ∃ m ≥ n, acts p m

section Measure

variable [Preorder α] {σ : ℕ → S} {start : ℕ} {goal : S → Prop} {μ : S → α}
  {helps : P → S → Prop} {acts : P → ℕ → Prop}

/-- Step `n` reaches the goal or lowers the measure. -/
def Gains (σ : ℕ → S) (goal : S → Prop) (μ : S → α) (n : ℕ) : Prop :=
  goal (σ (n + 1)) ∨ μ (σ (n + 1)) < μ (σ n)

/-- A process that helps until it acts brings the run forward. -/
theorem progress (keeps : ∀ n ≥ start, ∀ p, ¬ goal (σ n) → helps p (σ n) →
      Gains σ goal μ n ∨ ¬ acts p n ∧ μ (σ (n + 1)) = μ (σ n) ∧ helps p (σ (n + 1)))
    {p : P} {m : ℕ} (hm : acts p m) :
    ∀ {n : ℕ}, start ≤ n → n ≤ m → ¬ goal (σ n) → helps p (σ n) →
      ∃ k > n, goal (σ k) ∨ μ (σ k) < μ (σ n) := by
  intro n
  -- on the number of steps before `p` acts
  induction hd : m - n generalizing n with
  | zero =>
    intro hstart hle hno hhelps
    obtain rfl : n = m := by omega
    rcases keeps n hstart p hno hhelps with hgain | ⟨hact, -⟩
    · exact ⟨n + 1, Nat.lt_succ_self n, hgain⟩
    · exact absurd hm hact
  | succ d ih =>
    intro hstart hle hno hhelps
    rcases keeps n hstart p hno hhelps with hgain | ⟨-, heq, hstill⟩
    · exact ⟨n + 1, Nat.lt_succ_self n, hgain⟩
    · by_cases hgoal : goal (σ (n + 1))
      · exact ⟨n + 1, Nat.lt_succ_self n, .inl hgoal⟩
      · obtain ⟨k, hk, hgain⟩ := ih (by omega) (by omega) (by omega) hgoal hstill
        rw [heq] at hgain
        exact ⟨k, by omega, hgain⟩

/-- A measure that falls again and again until the goal is reached. -/
theorem falls [WellFoundedLT α] (σ : ℕ → S) (goal : S → Prop) (μ : S → α)
    (again : ∀ n ≥ start, ¬ goal (σ n) → ∃ m > n, goal (σ m) ∨ μ (σ m) < μ (σ n)) :
    ∃ m ≥ start, goal (σ m) := by
  have hall : ∀ a : α, ∀ n ≥ start, μ (σ n) = a → ∃ m ≥ start, goal (σ m) := by
    intro a
    induction a using WellFoundedLT.induction with
    | ind a ih =>
      rintro n hn rfl
      by_cases hgoal : goal (σ n)
      · exact ⟨n, hn, hgoal⟩
      · obtain ⟨m, hm, hdone | hless⟩ := again n hn hgoal
        · exact ⟨m, by omega, hdone⟩
        · exact ih _ hless m (by omega) rfl
  exact hall _ start le_rfl rfl

/-- If at each moment before the goal some process helps, which means that the measure stays as it
    is, and the process helps, until a step lowers it, at the latest the next step of that
    process, then a run that is fair to the processes that help comes to the goal. -/
theorem eventually [WellFoundedLT α] (σ : ℕ → S) (goal : S → Prop) (μ : S → α)
    (helps : P → S → Prop) (fair : ∀ n p, helps p (σ n) → Again acts p)
    (helper : ∀ n ≥ start, ¬ goal (σ n) → ∃ p, helps p (σ n))
    (keeps : ∀ n ≥ start, ∀ p, ¬ goal (σ n) → helps p (σ n) →
      Gains σ goal μ n ∨ ¬ acts p n ∧ μ (σ (n + 1)) = μ (σ n) ∧ helps p (σ (n + 1))) :
    ∃ m ≥ start, goal (σ m) := by
  apply falls σ goal μ
  intro n hn hgoal
  obtain ⟨p, hp⟩ := helper n hn hgoal
  obtain ⟨m, hm, hact⟩ := fair n p hp n
  exact progress keeps hact hn hm hgoal hp

/-- A measure that no step raises, and that does not stay as it is for ever. -/
theorem drops [WellFoundedLT α] (σ : ℕ → S) (goal : S → Prop) (μ : S → α)
    (never : ∀ n ≥ start, μ (σ (n + 1)) ≤ μ (σ n))
    (again : ∀ n ≥ start, ∃ m ≥ n, goal (σ m) ∨ μ (σ (m + 1)) < μ (σ m)) :
    ∃ m ≥ start, goal (σ m) := by
  apply falls σ goal μ
  intro n hn hgoal
  have hle : ∀ m ≥ n, μ (σ m) ≤ μ (σ n) := by
    intro m hm
    induction m, hm using Nat.le_induction with
    | base => exact le_rfl
    | succ m hm ih => exact (never m (hn.trans hm)).trans ih
  obtain ⟨m, hm, hdone | hless⟩ := again n hn
  · refine ⟨m, lt_of_le_of_ne hm ?_, .inl hdone⟩
    rintro rfl
    exact hgoal hdone
  · exact ⟨m + 1, by omega, .inr (hless.trans_le (hle m hm))⟩

end Measure

section Rest

variable {ps : Finset P} {busy : ℕ → P → Prop}

theorem rests_on (stays : ∀ n, ∀ p ∈ ps, ¬ busy n p → ¬ busy (n + 1) p) {n m : ℕ} (h : n ≤ m)
    {p : P} (hp : p ∈ ps) (hrest : ¬ busy n p) : ¬ busy m p := by
  induction h with
  | refl => exact hrest
  | step _ ih => exact stays _ p hp ih

/-- Processes that stay at rest, of which one comes to rest whenever one is busy. -/
theorem all_rest (ps : Finset P) (busy : ℕ → P → Prop)
    (stays : ∀ n, ∀ p ∈ ps, ¬ busy n p → ¬ busy (n + 1) p)
    (rests : ∀ n, ∀ p ∈ ps, busy n p → ∃ m ≥ n, ∃ q ∈ ps, busy n q ∧ ¬ busy m q) (n : ℕ) :
    ∃ m ≥ n, ∀ k ≥ m, ∀ p ∈ ps, ¬ busy k p := by
  classical
  induction hd : (ps.filter (busy n)).card using Nat.strong_induction_on generalizing n with
  | _ d ih =>
    subst hd
    by_cases hbusy : ∃ p ∈ ps, busy n p
    · obtain ⟨p, hp, hbusy⟩ := hbusy
      obtain ⟨m, hm, q, hq, hthen, hnow⟩ := rests n p hp hbusy
      have hfewer : (ps.filter (busy m)).card < (ps.filter (busy n)).card := by
        apply Finset.card_lt_card
        rw [Finset.ssubset_iff_of_subset]
        · refine ⟨q, Finset.mem_filter.mpr ⟨hq, hthen⟩, fun hmem => ?_⟩
          exact hnow (Finset.mem_filter.mp hmem).2
        · intro r hr
          obtain ⟨hr, hbusyr⟩ := Finset.mem_filter.mp hr
          refine Finset.mem_filter.mpr ⟨hr, ?_⟩
          by_contra hrest
          exact rests_on stays hm hr hrest hbusyr
      obtain ⟨k, hk, hall⟩ := ih _ hfewer m rfl
      exact ⟨k, hm.trans hk, hall⟩
    · push Not at hbusy
      exact ⟨n, le_rfl, fun k hk p hp => rests_on stays hk hp (hbusy p hp)⟩

end Rest

end FairRun
