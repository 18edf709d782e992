import Htram.Common.FairRun
import Htram.Pp.Turns
import Mathlib.Data.Prod.Lex

/-!
# Calls return

`copyToNodeBuf` and the second loop body of `tflush` wait in three loops: for a buffer that can be
claimed (`htram_group.C` lines 780–784), for `done_count` (lines 862–866) and for the mailboxes
(lines 801–808 and 872–879). A PE that got its slots, or that flushes, comes to the end of its
call, whatever calls the others go on to make. The first loop can be overtaken for ever by other
PEs: it ends when they make no more calls.

* `Fair.idle_again`: a PE that is past its claim returns.
* `Fair.all_idle`: when no more calls are made, every PE returns.
-/

namespace Htram

namespace PP

open Finset

variable {α : Type*} {cfg : NodeConfig} {s s' : Node α} {p q r : ℕ}

namespace Pc

/-- The PE is in a call and has no slots to wait for. -/
def Busy : Pc α → Prop
  | .idle | .claim _ => False
  | _ => True

/-- Falls with every step that is not one of a loop that waits. -/
def rank (cfg : NodeConfig) : Pc α → ℕ
  | .idle | .claim _ => 0
  | .zeroGet => 1
  | .zeroDone => 2
  | .renew => 3
  | .handOver _ => 4
  | .send => 5
  | .putNext .. => 6
  | .setNext _ => 7
  | .load => 8
  | .clear _ j => 9 + (cfg.numPes - j)
  | .await .. => 10 + cfg.numPes
  | .mail _ | .read _ => 11 + cfg.numPes
  | .lock => 12 + cfg.numPes
  | .check => 13 + cfg.numPes
  | c => 11 + cfg.numPes + c.left

/-- What a PE at `c` waits for a PE at `c'` to do. -/
def due (cfg : NodeConfig) (c c' : Pc α) : ℕ :=
  match c with
  | .read idx => if idx < cfg.bufSize then c'.left else 0
  | .await .. => c'.unmailed
  | _ => 0

theorem Owns.busy {c : Pc α} (h : c.Owns cfg) : c.Busy := by
  cases c
  case idle | claim => exact h.elim
  all_goals trivial

theorem busy_of_pending {c : Pc α} (h : c.pending ≠ none) : c.Busy := by
  cases c
  case idle | claim => exact h rfl
  all_goals trivial

@[simp] theorem due_self (c : Pc α) : c.due cfg c = 0 := by
  cases c <;> simp [due, left, unmailed]

@[simp] theorem due_idle (c : Pc α) : c.due cfg .idle = 0 := by
  cases c <;> simp [due, left, unmailed]

end Pc

theorem Role.ships_rank (cfg : NodeConfig) (role : Role) :
    (role.ships cfg : Pc α).rank cfg ≤ 8 := by
  cases role
  · exact Nat.le_succ 7
  · exact le_rfl

namespace Node

theorem run_busy (hbusy : (s.pc p).Busy) :
    ((s.run cfg p).pc p).Busy ∨ (s.run cfg p).pc p = .idle := by
  unfold run
  cases hpc : s.pc p <;> rw [hpc] at hbusy <;> dsimp only
  case idle | claim => exact hbusy.elim
  case clear role j => cases role <;> split_ifs <;> simp [goto, Pc.Busy, Role.ships]
  all_goals
    (try split_ifs) <;> (try split) <;> simp_all [goto, setMessage, Pc.Busy, Role.ships]

/-- What PE `p` waits for. -/
def due (cfg : NodeConfig) (s : Node α) (p : ℕ) : ℕ :=
  ∑ q ∈ range cfg.numPes, (s.pc p).due cfg (s.pc q)

/-- Mailboxes to read until their sum is what a PE at `c` waits for, if they stay as they are. -/
def rounds (cfg : NodeConfig) (s : Node α) : Pc α → ℕ
  | .await _ target j sum =>
    if target ≤ sum + ∑ i ∈ Ico j cfg.numPes, s.mailbox i then cfg.numPes - j
    else cfg.numPes - j + (cfg.numPes + 1)
  | _ => 0

/-- What is left until PE `p` returns. -/
def effort (cfg : NodeConfig) (p : ℕ) (s : Node α) : ℕ ×ₗ ℕ ×ₗ ℕ :=
  toLex ((s.pc p).rank cfg,
    toLex (s.due cfg p, if s.due cfg p = 0 then s.rounds cfg (s.pc p) else 0))

/-- PE `q` brings PE `p` forward with its next step. -/
def Helps (cfg : NodeConfig) (p q : ℕ) (s : Node α) : Prop :=
  if s.due cfg p = 0 then q = p else q < cfg.numPes ∧ (s.pc p).due cfg (s.pc q) ≠ 0

theorem Helps.lt (h : s.Helps cfg p q) (hp : p < cfg.numPes) : q < cfg.numPes := by
  unfold Helps at h
  split_ifs at h
  · rwa [h]
  · exact h.1

theorem exists_helps (cfg : NodeConfig) (p : ℕ) (s : Node α) : ∃ q, s.Helps cfg p q := by
  unfold Helps
  by_cases hdue : s.due cfg p = 0
  · exact ⟨p, by rw [if_pos hdue]⟩
  · obtain ⟨q, hq, hne⟩ := exists_ne_zero_of_sum_ne_zero hdue
    refine ⟨q, ?_⟩
    rw [if_neg hdue]
    exact ⟨mem_range.mp hq, hne⟩

theorem effort_lt_of_rank (h : (s'.pc p).rank cfg < (s.pc p).rank cfg) :
    s'.effort cfg p < s.effort cfg p :=
  Prod.Lex.toLex_lt_toLex.mpr (.inl h)

theorem effort_lt_of_due (hrank : (s'.pc p).rank cfg = (s.pc p).rank cfg)
    (h : s'.due cfg p < s.due cfg p) : s'.effort cfg p < s.effort cfg p :=
  Prod.Lex.toLex_lt_toLex.mpr (.inr ⟨hrank, Prod.Lex.toLex_lt_toLex.mpr (.inl h)⟩)

theorem effort_lt_of_rounds (hrank : (s'.pc p).rank cfg = (s.pc p).rank cfg)
    (hdue : s.due cfg p = 0) (hdue' : s'.due cfg p = 0)
    (h : s'.rounds cfg (s'.pc p) < s.rounds cfg (s.pc p)) : s'.effort cfg p < s.effort cfg p := by
  refine Prod.Lex.toLex_lt_toLex.mpr (.inr ⟨hrank, Prod.Lex.toLex_lt_toLex.mpr (.inr ⟨?_, ?_⟩)⟩)
  · exact hdue'.trans hdue.symm
  · simpa [hdue, hdue'] using h

theorem effort_eq (hrank : (s'.pc p).rank cfg = (s.pc p).rank cfg)
    (hdue : s'.due cfg p = s.due cfg p)
    (h : s.due cfg p = 0 → s'.rounds cfg (s'.pc p) = s.rounds cfg (s.pc p)) :
    s'.effort cfg p = s.effort cfg p := by
  unfold effort
  rw [hrank, hdue]
  by_cases hzero : s.due cfg p = 0
  · rw [if_pos hzero, if_pos hzero, h hzero]
  · rw [if_neg hzero, if_neg hzero]

end Node

/-! ## Steps of other PEs -/

namespace Moves

theorem pc_eq (hm : Moves cfg s s' r) : s'.pc = Function.update s.pc r (s'.pc r) := by
  funext q
  by_cases hq : q = r
  · rw [hq, Function.update_self]
  · rw [Function.update_of_ne hq, hm.others q hq]

/-- What a PE waits for another to do gets less with every step of that PE. -/
theorem due_lt (h : Exclusive cfg s) (hm : Moves cfg s s' r) (p : ℕ) :
    (s.pc p).due cfg (s'.pc r) < (s.pc p).due cfg (s.pc r) ∨
      (s.pc p).due cfg (s'.pc r) = 0 ∧ (s.pc p).due cfg (s.pc r) = 0 := by
  have hmine := h.holds p
  cases hpc : s.pc p with
  | read idx =>
    by_cases hlt : idx < cfg.bufSize
    · have hclosed := h.full_of_owns (p := p) (by rw [hpc]; exact hlt)
      simpa [Pc.due, hlt] using hm.left hclosed
    · simp [Pc.due, hlt]
  | await role target j sum =>
    rw [hpc] at hmine
    obtain ⟨-, hcomplete, -⟩ := hmine
    have hcopying := h.copying_eq_zero hcomplete
      (h.ne_zeroDone (p := p) (by rw [hpc]; trivial) (by simp [hpc]))
    have hold : (s.pc r).left = 0 := Pc.left_eq_zero.mpr (h.pending_eq_none hcopying r)
    have hmail : (Pc.await role target j sum).due cfg (s'.pc r) = 0 := hm.unmailed hold
    rw [hmail]
    exact (Nat.eq_zero_or_pos _).elim (fun hzero => .inr ⟨rfl, hzero⟩) .inl
  | _ => simp [Pc.due]

/-- The same for all that PE `p` waits for. -/
theorem due_add (hm : Moves cfg s s' r) (hr : r < cfg.numPes) (hp : s'.pc p = s.pc p) :
    s'.due cfg p + (s.pc p).due cfg (s.pc r) = s.due cfg p + (s.pc p).due cfg (s'.pc r) := by
  have hsum := Rows.sum_update ((s.pc p).due cfg) s.pc hr (s'.pc r)
  rw [← hm.pc_eq] at hsum
  unfold Node.due
  rw [hp]
  exact hsum

/-- A step of a PE that PE `p` waits for. -/
theorem helps (h : Exclusive cfg s) (hm : Moves cfg s s' r) (hr : r < cfg.numPes)
    (hp : s'.pc p = s.pc p) (hdue : (s.pc p).due cfg (s.pc r) ≠ 0) :
    s'.effort cfg p < s.effort cfg p := by
  have hadd := hm.due_add hr hp
  have hlt := hm.due_lt h p
  apply Node.effort_lt_of_due
  · rw [hp]
  · omega

/-- A step of another PE: it helps, or nothing changes for PE `p` and those that help it. -/
theorem keeps (h : Exclusive cfg s) (hm : Moves cfg s s' r) (hr : r < cfg.numPes) (hne : p ≠ r)
    (hhelps : s.Helps cfg p q) :
    s'.effort cfg p < s.effort cfg p ∨
      s'.effort cfg p = s.effort cfg p ∧ s'.Helps cfg p q := by
  have hp := hm.others p hne
  have hadd := hm.due_add hr hp
  rcases hm.due_lt h p with hlt | ⟨hnew, hold⟩
  · exact .inl (hm.helps h hr hp (by omega))
  · right
    have hdue : s'.due cfg p = s.due cfg p := by omega
    refine ⟨Node.effort_eq (by rw [hp]) hdue fun hzero => ?_, ?_⟩
    · rw [hp]
      cases hpc : s.pc p with
      | await role target j sum =>
        have hmail : (s.pc r).unmailed = 0 := by simpa [hpc, Pc.due] using hold
        have hclear : ¬ (s.pc r).Cleared := fun hcl => by
          have hown : (s.pc p).Owns cfg := by rw [hpc]; trivial
          exact hne (h.alone hown hcl.owns)
        unfold Node.rounds
        rw [hm.mailbox hmail hclear]
      | _ => rfl
    · unfold Node.Helps at hhelps ⊢
      rw [hdue, hp]
      split_ifs at hhelps ⊢
      · exact hhelps
      · obtain ⟨hq, hhelps⟩ := hhelps
        refine ⟨hq, ?_⟩
        have hqr : q ≠ r := fun he => hhelps (he ▸ hold)
        rw [hm.others q hqr]
        exact hhelps

end Moves

/-! ## Its own steps -/

theorem Node.due_await {role : Role} {target j sum : ℕ} (hpc : s.pc p = .await role target j sum) :
    s.due cfg p = s.unmailed cfg := by
  simp [Node.due, Node.unmailed, hpc, Pc.due]

/-- Round again, a PE that waits for mail waits for the same. -/
theorem Node.due_await_goto (hp : p < cfg.numPes) {role role' : Role}
    {target target' j j' sum sum' : ℕ} (hpc : s.pc p = .await role target j sum) :
    (s.goto p (.await role' target' j' sum')).due cfg p = s.due cfg p := by
  rw [due_await hpc, due_await (Function.update_self ..)]
  apply unmailed_eq hp rfl
  rw [hpc]
  rfl

namespace Exclusive

/-- `done_count` is behind for as long as somebody copies. -/
theorem due_read (h : Exclusive cfg s) {idx : ℕ} (hpc : s.pc p = .read idx)
    (hlt : idx < cfg.bufSize) : s.due cfg p = 0 ↔ idx = s.doneCount := by
  have hmine := h.holds p
  rw [hpc] at hmine
  have hcounted := h.counted (h.ne_zeroDone (p := p) (by rw [hpc]; exact hlt) (by simp [hpc]))
  rw [← hmine hlt] at hcounted
  have hcopies : s.due cfg p = 0 ↔ s.copying cfg = 0 := by
    unfold Node.due Node.copying
    rw [sum_eq_zero_iff, sum_eq_zero_iff]
    refine forall₂_congr fun q _ => ?_
    simp [hpc, Pc.due, hlt, Pc.left_eq_zero, Pc.copying]
  rw [hcopies]
  unfold localBufSize at hcounted
  omega

/-- A PE that waits for another stays where it is, or goes on. -/
theorem waits (h : Exclusive cfg s) (hp : p < cfg.numPes) (hdue : s.due cfg p ≠ 0) :
    (s.run cfg p).effort cfg p < s.effort cfg p ∨
      (s.run cfg p).effort cfg p = s.effort cfg p ∧
        ∀ q, s.Helps cfg p q → (s.run cfg p).Helps cfg p q := by
  cases hpc : s.pc p with
  | read idx =>
    right
    have hlt : idx < cfg.bufSize := by
      by_contra hge
      simp [Node.due, hpc, Pc.due, hge] at hdue
    have hne := mt (h.due_read hpc hlt).mpr hdue
    have hsame : s.run cfg p = s := by simp [Node.run, hpc, hlt.not_ge, hne]
    rw [hsame]
    exact ⟨rfl, fun _ => id⟩
  | await role target j sum =>
    have hround : ∀ j' sum', (s.goto p (.await role target j' sum')).effort cfg p = s.effort cfg p ∧
        ∀ q, s.Helps cfg p q → (s.goto p (.await role target j' sum')).Helps cfg p q := by
      intro j' sum'
      have hsame : (s.goto p (.await role target j' sum')).due cfg p = s.due cfg p :=
        Node.due_await_goto hp hpc
      refine ⟨Node.effort_eq (by simp [Node.goto, hpc, Pc.rank]) hsame (absurd · hdue), ?_⟩
      intro q hhelps
      unfold Node.Helps at hhelps ⊢
      rw [hsame]
      rw [if_neg hdue] at hhelps ⊢
      obtain ⟨hq, hhelps⟩ := hhelps
      have hqp : q ≠ p := by
        rintro rfl
        simp [hpc, Pc.due, Pc.unmailed] at hhelps
      refine ⟨hq, ?_⟩
      simpa [Node.goto, hqp, hpc, Pc.due] using hhelps
    simp only [Node.run, hpc]
    split_ifs
    · exact .inr (hround _ _)
    · exact .inr (hround _ _)
    · left
      apply Node.effort_lt_of_rank
      simp only [Node.goto, Function.update_self, hpc, Pc.rank]
      omega
  | _ => simp [Node.due, hpc, Pc.due] at hdue

/-- The round over the mailboxes, once nobody has mail to send. -/
theorem round (h : Exclusive cfg s) (hp : p < cfg.numPes) {role : Role} {target j sum : ℕ}
    (hpc : s.pc p = .await role target j sum) (hdue : s.due cfg p = 0) :
    (s.run cfg p).effort cfg p < s.effort cfg p := by
  have hmine := h.holds p
  rw [hpc] at hmine
  obtain ⟨hboxes, -, -, htarget, hj, -⟩ := hmine
  have hround : ∀ j' sum', s.rounds cfg (.await role target j' sum') <
      s.rounds cfg (.await role target j sum) →
      (s.goto p (.await role target j' sum')).effort cfg p < s.effort cfg p := by
    intro j' sum' hless
    apply Node.effort_lt_of_rounds
    · simp [Node.goto, hpc, Pc.rank]
    · exact hdue
    · rw [Node.due_await_goto hp hpc, hdue]
    · have hself : (s.goto p (.await role target j' sum')).pc p = .await role target j' sum' :=
        Function.update_self ..
      rw [hself, hpc]
      exact hless
  simp only [Node.run, hpc]
  split_ifs with hlt hless
  · apply hround
    simp only [Node.rounds]
    rw [sum_eq_sum_Ico_succ_bot hlt]
    split_ifs
    all_goals omega
  · -- the mailboxes have it all: the next round is the last
    have hmailed := h.mailed hboxes fun q hq => by
      have hown : (s.pc p).Owns cfg := by rw [hpc]; trivial
      have := h.alone hown hq.owns
      rw [← this, hpc] at hq
      exact hq
    rw [← Node.due_await hpc, hdue, ← htarget, range_eq_Ico] at hmailed
    apply hround
    simp only [Node.rounds]
    obtain rfl : j = cfg.numPes := by omega
    rw [Ico_self, sum_empty, if_pos (by omega), if_neg (by omega)]
    omega
  · apply Node.effort_lt_of_rank
    simp only [Node.goto, Function.update_self, hpc, Pc.rank]
    omega

/-- A PE that waits for nothing goes on. -/
theorem goes (h : Exclusive cfg s) (hp : p < cfg.numPes) (hbusy : (s.pc p).Busy)
    (hdue : s.due cfg p = 0) : (s.run cfg p).effort cfg p < s.effort cfg p := by
  have hmine := h.holds p
  cases hpc : s.pc p with
  | idle | claim =>
    rw [hpc] at hbusy
    exact hbusy.elim
  | await role target j sum => exact h.round hp hpc hdue
  | read idx =>
    apply Node.effort_lt_of_rank
    by_cases hlt : idx < cfg.bufSize
    · have hdone := (h.due_read hpc hlt).mp hdue
      simp only [Node.run, hpc, ge_iff_le, if_neg (not_le.mpr hlt), if_neg (not_not.mpr hdone)]
      split_ifs
      all_goals
        simp only [Node.goto, Function.update_self, Pc.rank]
        omega
    · simp only [Node.run, hpc, ge_iff_le, if_pos (not_lt.mp hlt), Node.goto, Function.update_self,
        Pc.rank]
      omega
  | write items idx i =>
    apply Node.effort_lt_of_rank
    simp only [Node.run, hpc]
    split
    all_goals
      simp only [Node.goto, Function.update_self, Pc.rank, Pc.left]
      omega
  | store items idx i m x =>
    rw [hpc] at hmine
    obtain ⟨hlen, hx, -⟩ := hmine
    have hi := (List.getElem?_eq_some_iff.mp hx).1
    apply Node.effort_lt_of_rank
    simp only [Node.run, hpc, Node.goto, Function.update_self, Pc.rank, Pc.left]
    omega
  | clear role j =>
    have hships := Role.ships_rank (α := α) cfg role
    apply Node.effort_lt_of_rank
    simp only [Node.run, hpc]
    split_ifs
    · simp only [Node.goto, Function.update_self, Pc.rank]
      omega
    · simp only [Node.goto, Function.update_self]
      exact Nat.lt_of_le_of_lt hships (Nat.le_add_right 9 _)
  | _ =>
    apply Node.effort_lt_of_rank
    simp only [Node.run, hpc]
    (try split_ifs)
    all_goals
      simp only [Node.goto, Function.update_self, Pc.rank, Pc.left, Role.ships]
      omega

end Exclusive

/-! ## Fair runs -/

/-- PE `p` takes step `n`, or is in no call. -/
def Turn (cfg : NodeConfig) (σ : ℕ → Node α) (p n : ℕ) : Prop :=
  (σ n).pc p = .idle ∨ σ (n + 1) = (σ n).run cfg p

/-- An infinite run in which every PE that is in a call gets its turn again and again. Calls may be
    made at any time, and nothing need happen for a while. -/
structure Fair (cfg : NodeConfig) (σ : ℕ → Node α) : Prop where
  start : Node.Reachable cfg (σ 0)
  step : ∀ n, σ (n + 1) = σ n ∨ Node.Step cfg (σ n) (σ (n + 1))
  turns : ∀ p < cfg.numPes, FairRun.Again (Turn cfg σ) p

namespace Fair

variable {σ : ℕ → Node α} {n : ℕ}

theorem reachable (h : Fair cfg σ) (n : ℕ) : Node.Reachable cfg (σ n) := by
  induction n with
  | zero => exact h.start
  | succ n ih =>
    rcases h.step n with hsame | hstep
    · rw [hsame]
      exact ih
    · exact ih.tail hstep

theorem exclusive (h : Fair cfg σ) (n : ℕ) : Exclusive cfg (σ n) :=
  .of_reachable (h.reachable n)

/-- A PE in a call stays there until it returns. -/
theorem busy_or_idle (h : Fair cfg σ) (hbusy : ((σ n).pc p).Busy) :
    ((σ (n + 1)).pc p).Busy ∨ (σ (n + 1)).pc p = .idle := by
  rcases h.step n with hsame | hstep
  · rw [hsame]
    exact .inl hbusy
  obtain ⟨r, -, hm, hstep⟩ := (h.exclusive n).moves hstep
  by_cases hpr : p = r
  · subst hpr
    rcases hstep with hrun | hidle
    · rw [hrun]
      exact Node.run_busy hbusy
    · rw [hidle] at hbusy
      exact hbusy.elim
  · rw [hm.others p hpr]
    exact .inl hbusy

/-- While PE `p` is in a call, there is a PE whose turn brings it forward. -/
theorem gains (h : Fair cfg σ) (hp : p < cfg.numPes) (hbusy : ((σ n).pc p).Busy)
    (hhelps : (σ n).Helps cfg p q) :
    (σ (n + 1)).effort cfg p < (σ n).effort cfg p ∨ ¬ Turn cfg σ q n ∧
      (σ (n + 1)).effort cfg p = (σ n).effort cfg p ∧ (σ (n + 1)).Helps cfg p q := by
  have hex := h.exclusive n
  by_cases hturn : Turn cfg σ q n
  · left
    by_cases hzero : (σ n).due cfg p = 0
    · rw [Node.Helps, if_pos hzero] at hhelps
      subst hhelps
      rcases hturn with hidle | hrun
      · rw [hidle] at hbusy
        exact hbusy.elim
      · rw [hrun]
        exact hex.goes hp hbusy hzero
    · rw [Node.Helps, if_neg hzero] at hhelps
      obtain ⟨hq, hdue⟩ := hhelps
      rcases hturn with hidle | hrun
      · simp [hidle] at hdue
      · have hm := hex.moves_run q
        have hpq : p ≠ q := by
          rintro rfl
          simp at hdue
        rw [hrun]
        exact hm.helps hex hq (hm.others p hpq) hdue
  · rcases h.step n with hsame | hstep
    · rw [hsame]
      exact .inr ⟨hturn, rfl, hhelps⟩
    obtain ⟨r, hr, hm, hstep⟩ := hex.moves hstep
    by_cases hpr : p = r
    · subst hpr
      rcases hstep with hrun | hidle
      · rw [hrun]
        have hdue : (σ n).due cfg p ≠ 0 := by
          intro hzero
          rw [Node.Helps, if_pos hzero] at hhelps
          subst hhelps
          exact hturn (.inr hrun)
        rcases hex.waits hp hdue with hlt | ⟨hsame, hstill⟩
        · exact .inl hlt
        · exact .inr ⟨hturn, hsame, hstill q hhelps⟩
      · rw [hidle] at hbusy
        exact hbusy.elim
    · rcases hm.keeps hex hr hpr hhelps with hlt | hsame
      · exact .inl hlt
      · exact .inr ⟨hturn, hsame⟩

/-- A call ends: the copy of a PE that got its slots, and every flush. -/
theorem idle_again (h : Fair cfg σ) (hbusy : ((σ n).pc p).Busy) : ∃ m > n, (σ m).pc p = .idle := by
  have hp : p < cfg.numPes := by
    by_contra hge
    rw [(h.exclusive n).outside p (not_lt.mp hge)] at hbusy
    exact hbusy
  have hleaves : ∃ m ≥ n, ¬ ((σ m).pc p).Busy := by
    refine FairRun.eventually σ (fun s => ¬ (s.pc p).Busy) (Node.effort cfg p)
      (fun q s => s.Helps cfg p q) (fun m q hhelps => h.turns q (hhelps.lt hp)) ?_ ?_
    · exact fun m _ _ => Node.exists_helps cfg p (σ m)
    · intro m _ q hstill hhelps
      rcases h.gains hp (not_not.mp hstill) hhelps with hlt | hsame
      · exact .inl (.inr hlt)
      · exact .inr hsame
  have hstays : ∀ m ≥ n, ((σ m).pc p).Busy ∨ ∃ k > n, (σ k).pc p = .idle := by
    intro m hm
    induction m, hm using Nat.le_induction with
    | base => exact .inl hbusy
    | succ m hm ih =>
      rcases ih with hstill | hidle
      · rcases h.busy_or_idle hstill with hbusy' | hidle
        · exact .inl hbusy'
        · exact .inr ⟨m + 1, by omega, hidle⟩
      · exact .inr hidle
  obtain ⟨m, hm, hno⟩ := hleaves
  exact (hstays m hm).resolve_left hno

section Quiet

variable (hquiet : ∀ m ≥ n, σ (m + 1) = σ m ∨ ∃ p < cfg.numPes, σ (m + 1) = (σ m).run cfg p)
include hquiet

theorem idle_stays {m k : ℕ} (hm : n ≤ m) (hk : m ≤ k)
    (hidle : (σ m).pc p = .idle) : (σ k).pc p = .idle := by
  induction k, hk using Nat.le_induction with
  | base => exact hidle
  | succ k hk ih =>
    obtain hsame | ⟨r, -, hrun⟩ := hquiet k (hm.trans hk)
    · rw [hsame, ih]
    rw [hrun]
    by_cases hpr : p = r
    · subst hpr
      simp [Node.run, ih]
    · rw [Node.run_pc _ _ hpr]
      exact ih

/-- When all that are left wait for slots, the buffer is open, and one of them gets some. -/
theorem claims (h : Fair cfg σ) (hpos : 0 < cfg.bufSize) (hp : p < cfg.numPes) :
    ∃ m ≥ n, (σ m).pc p = .idle ∨ ∃ q, ((σ m).pc q).Busy := by
  refine FairRun.eventually σ (fun s => s.pc p = .idle ∨ ∃ q, (s.pc q).Busy) (fun _ => 0)
    (fun q _ => q = p) (fun m q hhelps => hhelps ▸ h.turns p hp) ?_ ?_
  · exact fun _ _ _ => ⟨p, rfl⟩
  · rintro m hm q hno rfl
    push Not at hno
    obtain ⟨hbusy, hnone⟩ := hno
    have hopen : (σ m).getIdx < cfg.bufSize := by
      by_contra hclosed
      rcases Manned.of_reachable hpos (h.reachable m) (not_lt.mp hclosed) with
        ⟨r, hown⟩ | ⟨-, hcopying⟩
      · exact hnone r hown.busy
      · refine hcopying.ne' (sum_eq_zero fun r _ => ?_)
        have hpending : ((σ m).pc r).pending = none := by
          by_contra hcopies
          exact hnone r (Pc.busy_of_pending hcopies)
        simp [Pc.copying, hpending]
    have hclaims : ∀ r, (σ m).pc r ≠ .idle → ((σ m).run cfg r |>.pc r).Busy := by
      intro r hr
      have hrest := hnone r
      cases hpc : (σ m).pc r
      case idle => exact absurd hpc hr
      case claim items => simp [Node.run, hpc, hopen.not_ge, Node.goto, Pc.Busy]
      all_goals simp [hpc, Pc.Busy] at hrest
    by_cases hturn : Turn cfg σ q m
    · left
      left
      right
      refine ⟨q, ?_⟩
      rw [hturn.resolve_left hbusy]
      exact hclaims q hbusy
    · obtain hsame | ⟨r, -, hrun⟩ := hquiet m hm
      · exact .inr ⟨hturn, rfl, rfl⟩
      by_cases hidle : (σ m).pc r = .idle
      · refine .inr ⟨hturn, rfl, rfl⟩
      · left
        left
        right
        refine ⟨r, ?_⟩
        rw [hrun]
        exact hclaims r hidle

/-- Then, of the PEs that are in a call, one returns. -/
theorem one_returns (h : Fair cfg σ) (hpos : 0 < cfg.bufSize) (hin : (σ n).pc p ≠ .idle) :
    ∃ m ≥ n, ∃ q < cfg.numPes, (σ n).pc q ≠ .idle ∧ (σ m).pc q = .idle := by
  have hlt : ∀ {q m}, (σ m).pc q ≠ .idle → q < cfg.numPes := by
    intro q m hq
    by_contra hge
    exact hq ((h.exclusive m).outside q (not_lt.mp hge))
  obtain ⟨m, hm, hidle | ⟨q, hq⟩⟩ := claims hquiet h hpos (hlt hin)
  · exact ⟨m, hm, p, hlt hin, hin, hidle⟩
  · have hbefore : (σ n).pc q ≠ .idle := by
      intro hidle
      rw [idle_stays hquiet le_rfl hm hidle] at hq
      exact hq
    obtain ⟨k, hk, hidle⟩ := h.idle_again hq
    exact ⟨k, by omega, q, hlt hbefore, hbefore, hidle⟩

/-- When no more calls are made, all that were made come to their end. -/
theorem all_idle (h : Fair cfg σ) (hpos : 0 < cfg.bufSize) :
    ∃ m ≥ n, ∀ k ≥ m, ∀ p, (σ k).pc p = .idle := by
  have hrest := FairRun.all_rest (range cfg.numPes) (fun k p => (σ (n + k)).pc p ≠ .idle) ?_ ?_ 0
  · obtain ⟨m, -, hm⟩ := hrest
    refine ⟨n + m, by omega, fun k hk p => ?_⟩
    by_cases hp : p < cfg.numPes
    · have hidle := hm (k - n) (by omega) p (mem_range.mpr hp)
      rw [Nat.add_sub_cancel' (by omega)] at hidle
      exact not_not.mp hidle
    · exact (h.exclusive k).outside p (not_lt.mp hp)
  · intro k p _ hidle
    exact not_not.mpr (idle_stays hquiet (by omega) (by omega) (not_not.mp hidle))
  · intro k p _ hin
    obtain ⟨m, hm, q, hq, hbefore, hidle⟩ :=
      one_returns (fun m hm => hquiet m (by omega)) h hpos hin
    refine ⟨m - n, by omega, q, mem_range.mpr hq, hbefore, ?_⟩
    rw [Nat.add_sub_cancel' (by omega)]
    exact not_not.mpr hidle

end Quiet

end Fair

end PP

end Htram
