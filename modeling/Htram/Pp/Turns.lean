import Htram.Pp.Accesses

/-!
# What a PE's turn changes

A PE that takes a step changes its own place, and the counters that others wait for only from a few
places. A buffer that is closed to claims has a PE that will open it again.

* `Exclusive.moves`: what a step changes.
* `Manned.of_reachable`: who opens a closed buffer.
-/

namespace Htram

namespace PP

open Finset

variable {α : Type*} {cfg : NodeConfig} {s s' : Node α} {p q : ℕ} {c : Pc α}

/-- Accesses left in the copy of its items, up to the count of them. -/
def Pc.left : Pc α → ℕ
  | .write _ _ i => 2 * (localBufSize - i) + 2
  | .store _ _ i _ _ => 2 * (localBufSize - i) + 1
  | .count _ => 1
  | _ => 0

theorem Pc.left_eq_zero {c : Pc α} : c.left = 0 ↔ c.pending = none := by
  cases c <;> simp [left, pending]

namespace Node

/-! ## One turn -/

theorem run_pc (cfg : NodeConfig) (s : Node α) (hq : q ≠ p) : (s.run cfg p).pc q = s.pc q := by
  unfold run
  cases hpc : s.pc p <;> dsimp only <;> (try split_ifs) <;> (try split) <;>
    simp [goto, setMessage, hq]

theorem run_pc_eq (cfg : NodeConfig) (s : Node α) (p : ℕ) :
    (s.run cfg p).pc = Function.update s.pc p ((s.run cfg p).pc p) := by
  funext q
  by_cases hq : q = p
  · rw [hq, Function.update_self]
  · rw [Function.update_of_ne hq, run_pc cfg s hq]

/-- The accesses that change `done_count`. -/
theorem run_doneCount (hold : (s.pc p).left = 0) (hzero : s.pc p ≠ .zeroDone) :
    (s.run cfg p).doneCount = s.doneCount := by
  unfold run
  cases hpc : s.pc p <;> rw [hpc] at hold hzero <;> dsimp only <;> (try split_ifs) <;>
    (try split) <;> simp_all [goto, setMessage, Pc.left]

/-- The accesses that change a mailbox. -/
theorem run_mailbox (hmail : (s.pc p).unmailed = 0) (hclear : ¬ (s.pc p).Cleared) :
    (s.run cfg p).mailbox = s.mailbox := by
  unfold run
  cases hpc : s.pc p <;> rw [hpc] at hmail hclear <;> dsimp only <;> (try split_ifs) <;>
    (try split) <;> simp_all [goto, setMessage, Pc.unmailed, Pc.Cleared]

/-- A PE has mail to send once it has counted. -/
theorem run_unmailed (hold : (s.pc p).left = 0) : ((s.run cfg p).pc p).unmailed = 0 := by
  unfold run
  cases hpc : s.pc p <;> rw [hpc] at hold <;> dsimp only
  case clear role j => cases role <;> split_ifs <;> simp [goto, Pc.unmailed, Role.ships]
  all_goals
    (try split_ifs) <;> (try split) <;> simp_all [goto, setMessage, Pc.left, Pc.unmailed]

/-- While the buffer is closed, no copy begins and every copy goes on. -/
theorem run_left (hclosed : cfg.bufSize ≤ s.getIdx) (hholds : (s.pc p).Holds cfg s) :
    ((s.run cfg p).pc p).left < (s.pc p).left ∨
      ((s.run cfg p).pc p).left = 0 ∧ (s.pc p).left = 0 := by
  unfold run
  cases hpc : s.pc p <;> rw [hpc] at hholds <;> dsimp only
  case store items idx i m x =>
    obtain ⟨hlen, hx, -⟩ := hholds
    have hi := (List.getElem?_eq_some_iff.mp hx).1
    left
    simp only [goto, setMessage, Function.update_self, Pc.left]
    omega
  case clear role j => cases role <;> split_ifs <;> simp [goto, Pc.left, Role.ships]
  all_goals
    (try split_ifs) <;> (try split) <;> simp_all [goto, setMessage, Pc.left, Role.ships]

end Node

/-- PE `p` has taken the step from `s` to `s'`. -/
structure Moves (cfg : NodeConfig) (s s' : Node α) (p : ℕ) : Prop where
  others : ∀ q ≠ p, s'.pc q = s.pc q
  doneCount : (s.pc p).left = 0 → s.pc p ≠ .zeroDone → s'.doneCount = s.doneCount
  mailbox : (s.pc p).unmailed = 0 → ¬ (s.pc p).Cleared → s'.mailbox = s.mailbox
  unmailed : (s.pc p).left = 0 → (s'.pc p).unmailed = 0
  left : cfg.bufSize ≤ s.getIdx →
    (s'.pc p).left < (s.pc p).left ∨ (s'.pc p).left = 0 ∧ (s.pc p).left = 0

namespace Exclusive

theorem moves_run (h : Exclusive cfg s) (p : ℕ) : Moves cfg s (s.run cfg p) p where
  others := fun _ hq => Node.run_pc cfg s hq
  doneCount := Node.run_doneCount
  mailbox := Node.run_mailbox
  unmailed := Node.run_unmailed
  left := fun hclosed => Node.run_left hclosed (h.holds p)

/-- A step is a turn of one PE, or a call of a PE that is idle. -/
theorem moves (h : Exclusive cfg s) (hstep : Node.Step cfg s s') :
    ∃ p < cfg.numPes, Moves cfg s s' p ∧ (s' = s.run cfg p ∨ s.pc p = .idle) := by
  cases hstep with
  | run hp => exact ⟨_, hp, h.moves_run _, .inl rfl⟩
  | copy hp hidle hfull =>
    refine ⟨_, hp, ⟨fun q hq => Function.update_of_ne hq .., ?_, ?_, ?_, ?_⟩, .inr hidle⟩
    all_goals simp [Node.goto, Pc.left, Pc.unmailed, hidle]
  | flush hp hidle =>
    refine ⟨_, hp, ⟨fun q hq => Function.update_of_ne hq .., ?_, ?_, ?_, ?_⟩, .inr hidle⟩
    all_goals simp [Node.goto, Pc.left, Pc.unmailed, hidle]

end Exclusive

/-! ## A closed buffer -/

/-- A buffer that is closed to claims has a PE to itself, or is full and being copied to. -/
def Manned (cfg : NodeConfig) (s : Node α) : Prop :=
  cfg.bufSize ≤ s.getIdx → (∃ p, (s.pc p).Owns cfg) ∨
    localBufSize * s.claims.length = cfg.bufSize ∧ 0 < s.copying cfg

namespace Manned

/-- The PE that moved has the buffer to itself. -/
theorem of_owns (hpc : s'.pc = Function.update s.pc p c) (hown : c.Owns cfg) : Manned cfg s' := by
  intro _
  left
  use p
  rw [hpc, Function.update_self]
  exact hown

/-- A move that counts for nothing here. -/
theorem keep (h : Manned cfg s) (hp : p < cfg.numPes) (hpc : s'.pc = Function.update s.pc p c)
    (hget : cfg.bufSize ≤ s'.getIdx → cfg.bufSize ≤ s.getIdx) (hclaims : s'.claims = s.claims)
    (hcopying : c.copying = (s.pc p).copying) (howns : (s.pc p).Owns cfg → c.Owns cfg) :
    Manned cfg s' := by
  intro hclosed
  rcases h (hget hclosed) with ⟨q, hq⟩ | hfull
  · by_cases hqp : q = p
    · rw [hqp] at hq
      exact of_owns hpc (howns hq) hclosed
    · left
      use q
      rw [hpc, Function.update_of_ne hqp]
      exact hq
  · right
    rw [hclaims, Node.copying_eq hp hpc hcopying]
    exact hfull

theorem init (cfg : NodeConfig) (hpos : 0 < cfg.bufSize) : Manned cfg (Node.init cfg : Node α) :=
  fun hclosed => absurd hpos (not_lt.mpr hclosed)

/-- The claim that closes the buffer is of its last slots. -/
theorem claim (h : Exclusive cfg s) (hp : p < cfg.numPes) {items : List (ItemT α)}
    (hpc : s.pc p = .claim items) (hlt : s.getIdx < cfg.bufSize) :
    Manned cfg (s.run cfg p) := by
  have hnext := h.run hp
  have hrun : s.run cfg p = { s with
      getIdx := s.getIdx + localBufSize
      claims := s.claims ++ [s.getIdx] : Node α }.goto p (.write items s.getIdx 0) := by
    simp [Node.run, hpc, hlt.not_ge]
  intro hclosed
  right
  have hwithin := hnext.within
  have hcopies : ((s.run cfg p).pc p).pending ≠ none := by
    rw [hrun]
    simp [Node.goto, Pc.pending]
  refine ⟨?_, Node.copying_pos hp hcopies⟩
  have hget := (h.unlocked hlt).1
  rw [hrun] at hclosed hwithin ⊢
  simp only [Node.goto, List.length_append, List.length_singleton] at hclosed hwithin ⊢
  unfold localBufSize at *
  omega

/-- The last PE that counts ships the buffer. -/
theorem count (h : Exclusive cfg s) (hman : Manned cfg s) (hp : p < cfg.numPes) {idx : ℕ}
    (hpc : s.pc p = .count idx) : Manned cfg (s.run cfg p) := by
  have hnext := h.run hp
  have hpending : (s.pc p).pending ≠ none := by simp [hpc, Pc.pending]
  intro hclosed
  have hstays : cfg.bufSize ≤ s.getIdx := by simpa [Node.run, hpc, Node.goto] using hclosed
  rcases hman hstays with ⟨q, hq⟩ | ⟨hfull, -⟩
  · left
    use q
    rw [Node.run_pc]
    · exact hq
    · rintro rfl
      simp [hpc, Pc.Owns] at hq
  · by_cases hlast : s.doneCount + localBufSize = cfg.bufSize
    · left
      use p
      by_cases hboxes : cfg.mailboxes = true
      · simp [Node.run, hpc, Node.goto, hboxes, hlast, Pc.Owns]
      · simp [Node.run, hpc, Node.goto, hboxes, hlast, Pc.Owns, Role.ships]
    · right
      have hclaims : (s.run cfg p).claims = s.claims := by simp [Node.run, hpc, Node.goto]
      have hcount := h.counted_of_pending hp hpending
      have hbusy := Node.copying_pos hp hpending
      have hsum := Node.copying_update hp (Node.run_pc_eq cfg s p)
      have hone : (s.pc p).copying = 1 := by rw [hpc]; rfl
      rw [hclaims]
      refine ⟨hfull, ?_⟩
      unfold localBufSize at *
      omega

theorem run (hman : Manned cfg s) (h : Exclusive cfg s) (hpos : 0 < cfg.bufSize)
    (hp : p < cfg.numPes) : Manned cfg (s.run cfg p) := by
  have hpc' := Node.run_pc_eq cfg s p
  cases hpc : s.pc p
  case claim items =>
    by_cases hlt : s.getIdx < cfg.bufSize
    · exact claim h hp hpc hlt
    · refine hman.keep hp hpc' (fun _ => not_lt.mp hlt) ?_ ?_ ?_
      all_goals simp [Node.run, hpc, not_lt.mp hlt]
  case count idx => exact count h hman hp hpc
  case lock =>
    by_cases hlt : s.getIdx < cfg.bufSize
    · refine of_owns hpc' ?_
      simpa [Node.run, hpc, Node.goto, Pc.Owns] using hlt
    · refine hman.keep hp hpc' (fun _ => not_lt.mp hlt) ?_ ?_ ?_
      all_goals simp [Node.run, hpc, Node.goto, Pc.copying, Pc.pending, Pc.Owns]
  case zeroGet =>
    intro hclosed
    simp [Node.run, hpc, Node.goto] at hclosed
    omega
  case write items idx i =>
    cases hx : items[i]? with
    | none =>
      refine hman.keep hp hpc' ?_ ?_ ?_ ?_
      all_goals simp [Node.run, hpc, hx, Node.goto, Pc.copying, Pc.pending, Pc.Owns]
    | some x =>
      refine hman.keep hp hpc' ?_ ?_ ?_ ?_
      all_goals simp [Node.run, hpc, hx, Node.goto, Pc.copying, Pc.pending, Pc.Owns]
  case mail last =>
    by_cases hlast : last
    · refine of_owns hpc' ?_
      simp [Node.run, hpc, hlast, Node.goto, Pc.Owns]
    · refine hman.keep hp hpc' ?_ ?_ ?_ ?_
      all_goals simp [Node.run, hpc, hlast, Node.goto, Pc.copying, Pc.pending, Pc.Owns]
  case read idx =>
    by_cases hlt : idx < cfg.bufSize
    · refine of_owns hpc' ?_
      simp only [Node.run, hpc, ge_iff_le, if_neg (not_le.mpr hlt)]
      split_ifs
      · rw [hpc]
        exact hlt
      all_goals simp [Node.goto, Pc.Owns]
    · refine hman.keep hp hpc' ?_ ?_ ?_ ?_
      all_goals
        simp [Node.run, hpc, not_lt.mp hlt, hlt, Node.goto, Pc.copying, Pc.pending, Pc.Owns]
  case check =>
    by_cases hdone : s.doneCount = 0
    · refine hman.keep hp hpc' ?_ ?_ ?_ ?_
      all_goals simp [Node.run, hpc, hdone, Node.goto, Pc.copying, Pc.pending, Pc.Owns]
    · refine hman.keep hp hpc' ?_ ?_ ?_ ?_
      all_goals simp [Node.run, hpc, hdone, Node.goto, Pc.copying, Pc.pending, Pc.Owns]
  case idle | store =>
    refine hman.keep hp hpc' ?_ ?_ ?_ ?_
    all_goals simp [Node.run, hpc, Node.goto, Node.setMessage, Pc.copying, Pc.pending, Pc.Owns]
  case await role target j sum =>
    refine of_owns hpc' ?_
    simp only [Node.run, hpc]
    split_ifs
    all_goals simp [Node.goto, Pc.Owns]
  case clear role j =>
    refine of_owns hpc' ?_
    by_cases hlt : j < cfg.numPes
    · simp [Node.run, hpc, hlt, Node.goto, Pc.Owns]
    · cases role
      all_goals simp [Node.run, hpc, hlt, Node.goto, Pc.Owns, Role.ships]
  all_goals
    refine of_owns hpc' ?_
    simp [Node.run, hpc, Node.goto, Node.setMessage, Pc.Owns]

theorem step (hman : Manned cfg s) (h : Exclusive cfg s) (hpos : 0 < cfg.bufSize)
    (hstep : Node.Step cfg s s') : Manned cfg s' := by
  cases hstep with
  | copy hp hidle hfull =>
    refine hman.keep hp rfl id rfl ?_ ?_
    all_goals simp [hidle, Pc.copying, Pc.pending, Pc.Owns]
  | flush hp hidle =>
    refine hman.keep hp rfl id rfl ?_ ?_
    all_goals simp [hidle, Pc.copying, Pc.pending, Pc.Owns]
  | run hp => exact run hman h hpos hp

theorem of_reachable (hpos : 0 < cfg.bufSize) (h : Node.Reachable cfg s) : Manned cfg s := by
  induction h with
  | refl => exact init cfg hpos
  | tail hreach hstep ih => exact ih.step (Exclusive.of_reachable hreach) hpos hstep

end Manned

end PP

end Htram
