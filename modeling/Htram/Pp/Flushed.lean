import Htram.Pp.Returns
import Htram.Pp.Shipments

/-!
# Nothing is left behind

A PE that finds `done_count` at 0 or the buffer closed ends its flush without shipping
(`htram_group.C` lines 857 and 861). What it copied leaves all the same: if the count is 0 it has
left, and if the buffer is closed, the PE that closed it takes everything along that was claimed.

* `Ends`: the PEs whose last call was a flush.
* `Ends.ships`: what was shipped when all calls have returned.
-/

namespace Htram

namespace PP

open Finset SlotBlocks

variable {α : Type*} {cfg : NodeConfig} {s s' : Node α} {p q : ℕ} {done : Set ℕ}

/-- A run to `s` in which the PEs in `done` copied nothing after their last flush. -/
inductive Ends (cfg : NodeConfig) : Set ℕ → Node α → Prop
  | init : Ends cfg Set.univ (Node.init cfg)
  | copy {done : Set ℕ} {s : Node α} {p : ℕ} {items : List (ItemT α)} (h : Ends cfg done s)
      (hp : p < cfg.numPes) (hidle : s.pc p = .idle) (hfull : items.length = localBufSize) :
    Ends cfg (done \ {p}) ({ s with log := s.log ++ items : Node α }.goto p (.claim items))
  | flush {done : Set ℕ} {s : Node α} {p : ℕ} (h : Ends cfg done s) (hp : p < cfg.numPes)
      (hidle : s.pc p = .idle) : Ends cfg (insert p done) (s.goto p .check)
  | run {done : Set ℕ} {s : Node α} {p : ℕ} (h : Ends cfg done s) (hp : p < cfg.numPes) :
    Ends cfg done (s.run cfg p)

theorem Ends.reachable (h : Ends cfg done s) : Node.Reachable cfg s := by
  induction h with
  | init => exact .refl
  | copy _ hp hidle hfull ih => exact ih.tail (.copy hp hidle hfull)
  | flush _ hp hidle ih => exact ih.tail (.flush hp hidle)
  | run _ hp ih => exact ih.tail (.run hp)

/-- If something is claimed, one of those who claimed it is still writing, or has still to flush, or
    is about to, or has found the buffer closed. -/
structure Tended (cfg : NodeConfig) (done : Set ℕ) (s : Node α) : Prop where
  flushed : ∀ p ∈ done, (s.pc p).pending = none ∧ ∀ items, s.pc p ≠ .claim items
  tended : s.claims ≠ [] → ∃ p < cfg.numPes, (s.pc p).pending ≠ none ∨ 0 < s.doneCount ∧
    (p ∈ done → s.pc p = .check ∨ s.pc p = .lock ∨ cfg.bufSize ≤ s.getIdx)

namespace Node

@[simp] theorem run_log (cfg : NodeConfig) (p : ℕ) (s : Node α) :
    (s.run cfg p).log = s.log := by
  unfold run
  cases hpc : s.pc p <;> dsimp only <;> (try split_ifs) <;> (try split) <;>
    simp [goto, setMessage]

theorem run_claims (hrenew : s.pc p ≠ .renew)
    (hclosed : ∀ items, s.pc p = .claim items → cfg.bufSize ≤ s.getIdx) :
    (s.run cfg p).claims = s.claims := by
  unfold run
  cases hpc : s.pc p <;> dsimp only <;> (try split_ifs) <;> (try split) <;>
    simp_all [goto, setMessage]

theorem le_run_doneCount (hzero : s.pc p ≠ .zeroDone) :
    s.doneCount ≤ (s.run cfg p).doneCount := by
  unfold run
  cases hpc : s.pc p <;> dsimp only
  case count idx => exact Nat.le_add_right s.doneCount localBufSize
  all_goals
    (try split_ifs) <;> (try split) <;> simp_all [goto, setMessage]

theorem le_run_getIdx (hzero : s.pc p ≠ .zeroGet) : s.getIdx ≤ (s.run cfg p).getIdx := by
  unfold run
  cases hpc : s.pc p <;> dsimp only <;> (try split_ifs) <;> (try split) <;>
    simp_all [goto, setMessage]

theorem run_pending (hcopies : (s.pc p).pending ≠ none) :
    ((s.run cfg p).pc p).pending ≠ none ∨ 0 < (s.run cfg p).doneCount := by
  unfold run
  cases hpc : s.pc p <;> rw [hpc] at hcopies <;> dsimp only <;> (try split_ifs) <;> (try split) <;>
    simp_all [goto, setMessage, Pc.pending, localBufSize]

/-- Only a claim begins a copy. -/
theorem run_flushed (hno : (s.pc p).pending = none) (hclaim : ∀ items, s.pc p ≠ .claim items) :
    ((s.run cfg p).pc p).pending = none ∧ ∀ items, (s.run cfg p).pc p ≠ .claim items := by
  unfold run
  cases hpc : s.pc p <;> rw [hpc] at hno hclaim <;> dsimp only
  case clear role j => cases role <;> split_ifs <;> simp [goto, Pc.pending, Role.ships]
  all_goals
    (try split_ifs) <;> (try split) <;> simp_all [goto, setMessage, Pc.pending]

end Node

namespace Tended

theorem init (cfg : NodeConfig) (done : Set ℕ) : Tended cfg done (Node.init cfg : Node α) where
  flushed := fun _ _ => ⟨rfl, nofun⟩
  tended := fun hne => absurd rfl hne

theorem copy (h : Tended cfg done s) (hp : p < cfg.numPes) (hidle : s.pc p = .idle)
    (items log : List (ItemT α)) :
    Tended cfg (done \ {p}) ({ s with log := log : Node α }.goto p (.claim items)) where
  flushed := by
    rintro q ⟨hq, hqp⟩
    have hqp : q ≠ p := hqp
    simpa [Node.goto, hqp] using h.flushed q hq
  tended := by
    intro hne
    obtain ⟨q, hq, htends⟩ := h.tended hne
    refine ⟨q, hq, ?_⟩
    by_cases hqp : q = p
    · subst hqp
      have hdone := htends.resolve_left (by simp [hidle, Pc.pending])
      exact .inr ⟨hdone.1, fun hmem => absurd rfl hmem.2⟩
    · simp only [Node.goto, Function.update_of_ne hqp]
      exact htends.imp_right fun hdone => ⟨hdone.1, fun hmem => hdone.2 hmem.1⟩

theorem flush (h : Tended cfg done s) (hp : p < cfg.numPes) (hidle : s.pc p = .idle) :
    Tended cfg (insert p done) (s.goto p .check) where
  flushed := by
    intro q hq
    by_cases hqp : q = p
    · simp [Node.goto, hqp, Pc.pending]
    · simpa [Node.goto, hqp] using h.flushed q (hq.resolve_left hqp)
  tended := by
    intro hne
    obtain ⟨q, hq, htends⟩ := h.tended hne
    refine ⟨q, hq, ?_⟩
    by_cases hqp : q = p
    · subst hqp
      have hdone := htends.resolve_left (by simp [hidle, Pc.pending])
      exact .inr ⟨hdone.1, fun _ => .inl (Function.update_self ..)⟩
    · simp only [Node.goto, Function.update_of_ne hqp]
      exact htends.imp_right fun hdone => ⟨hdone.1, fun hmem => hdone.2 (hmem.resolve_left hqp)⟩

theorem run (ht : Tended cfg done s) (h : Exclusive cfg s) (hp : p < cfg.numPes) :
    Tended cfg done (s.run cfg p) where
  flushed := by
    intro q hq
    obtain ⟨hno, hclaim⟩ := ht.flushed q hq
    by_cases hqp : q = p
    · subst hqp
      exact Node.run_flushed hno hclaim
    · rw [Node.run_pc cfg s hqp]
      exact ⟨hno, hclaim⟩
  tended := by
    intro hne
    have hmine := h.holds p
    by_cases hopen : (∃ items, s.pc p = .claim items) ∧ s.getIdx < cfg.bufSize
    · -- the claim is tended by the PE that makes it
      obtain ⟨⟨items, hpc⟩, hlt⟩ := hopen
      refine ⟨p, hp, .inl ?_⟩
      simp [Node.run, hpc, hlt.not_ge, Node.goto, Pc.pending]
    · have hrenew : s.pc p ≠ .renew := by
        intro hpc
        simp [Node.run, hpc, Node.goto] at hne
      have hclaims := Node.run_claims hrenew fun items hpc =>
        not_lt.mp fun hlt => hopen ⟨⟨items, hpc⟩, hlt⟩
      rw [hclaims] at hne
      have hdone : s.doneCount ≤ (s.run cfg p).doneCount := by
        apply Node.le_run_doneCount
        intro hpc
        rw [hpc] at hmine
        exact hne hmine.2
      have hget : s.getIdx ≤ (s.run cfg p).getIdx := by
        apply Node.le_run_getIdx
        intro hpc
        rw [hpc] at hmine
        exact hne hmine
      obtain ⟨q, hq, htends⟩ := ht.tended hne
      refine ⟨q, hq, ?_⟩
      by_cases hqp : q = p
      · subst hqp
        rcases htends with hcopies | ⟨hpos, hleft⟩
        · refine (Node.run_pending hcopies).imp_right fun hpos => ⟨hpos, fun hmem => ?_⟩
          exact absurd (ht.flushed q hmem).1 hcopies
        · refine .inr ⟨hpos.trans_le hdone, fun hmem => ?_⟩
          rcases hleft hmem with hpc | hpc | hclosed
          · right
            left
            simp [Node.run, hpc, hpos.ne', Node.goto]
          · right
            right
            simp [Node.run, hpc, Node.goto]
          · exact .inr (.inr (hclosed.trans hget))
      · rw [Node.run_pc cfg s hqp]
        refine htends.imp_right fun hleft => ⟨hleft.1.trans_le hdone, fun hmem => ?_⟩
        exact (hleft.2 hmem).imp_right (Or.imp_right fun hclosed => hclosed.trans hget)

theorem of_ends (h : Ends cfg done s) : Tended cfg done s := by
  induction h with
  | init => exact init cfg _
  | copy _ hp hidle _ ih => exact ih.copy hp hidle _ _
  | flush _ hp hidle ih => exact ih.flush hp hidle
  | run h hp ih => exact ih.run (.of_reachable h.reachable) hp

end Tended

/-- When all calls have returned and every PE flushed after its last copy, the shared buffer is as
    it was at the start, and what came to `copyToNodeBuf` has left. -/
theorem Ends.ships (h : Ends cfg done s) (hpos : 0 < cfg.bufSize)
    (hdone : ∀ p < cfg.numPes, p ∈ done) (hidle : ∀ p, s.pc p = .idle) :
    s.getIdx = 0 ∧ s.doneCount = 0 ∧ s.Drained cfg ∧ s.claims = [] ∧
      (s.log : Multiset (ItemT α)).map some =
        (s.sent.map fun e => (e.msg.received : Multiset (Option (ItemT α)))).sum := by
  have hreach := h.reachable
  have hex := Exclusive.of_reachable hreach
  have hg := Shipped.of_reachable hreach
  have hopen : s.getIdx < cfg.bufSize := by
    by_contra hclosed
    rcases Manned.of_reachable hpos hreach (not_lt.mp hclosed) with ⟨p, hown⟩ | ⟨-, hcopying⟩
    · simp [hidle, Pc.Owns] at hown
    · simp [Node.copying, hidle, Pc.copying, Pc.pending] at hcopying
  have hclaims : s.claims = [] := by
    by_contra hne
    obtain ⟨p, hp, hcopies | ⟨-, hleft⟩⟩ := (Tended.of_ends h).tended hne
    · simp [hidle, Pc.pending] at hcopies
    · have := hleft (hdone p hp)
      simp [hidle, hopen.not_ge] at this
  have hget : s.getIdx = 0 := by rw [(hex.unlocked hopen).1, hclaims]; rfl
  have hcounted := hex.counted fun p => by simp [hidle]
  rw [hclaims, List.length_nil] at hcounted
  have hdone : s.doneCount = 0 := by omega
  have hdrained : s.Drained cfg := by
    intro hboxes
    have hmailed := hex.mailed hboxes fun p => by simp [hidle, Pc.Cleared]
    have hnone : s.unmailed cfg = 0 := by simp [Node.unmailed, hidle, Pc.unmailed]
    rw [hdone, hnone, Nat.add_eq_zero_iff, sum_eq_zero_iff] at hmailed
    exact ⟨hnone, fun i hi => hmailed.1 i (mem_range.mpr hi)⟩
  have hempty : s.current cfg = 0 := by
    have hnone : (s.heap s.cur).slots = fun _ => none := by
      funext j
      apply hg.blocks.beyond
      rw [hclaims]
      exact Nat.zero_le j
    unfold Node.current
    rw [hnone, contents_empty, ite_self]
  have hwritten : s.unwritten cfg = 0 := by simp [Node.unwritten, hidle, Pc.unwritten]
  refine ⟨hget, hdone, hdrained, hclaims, ?_⟩
  rw [(Node.reachable_safe hreach).account, hempty, hwritten]
  exact add_zero _

end PP

end Htram
