import Htram.Common.Rows
import Htram.Pp.Shared

/-!
# One PE ships at a time

A PE that gets a slot index below `bufSize` from `fetch_add(bufSize)`, or that counts the last
items of a full buffer, has the buffer to itself: `get_idx` is too high for everybody else until
that PE sets it back. `done_count` has reached what was claimed when it stops waiting, and the
mailboxes say that every count has been followed by a mail. `Exclusive` is all that as an
invariant of the shared counters and of where the PEs are.

* `Exclusive.owner_reads`: while a PE copies, another can at most wait to ship.
* `Exclusive.copying_eq_zero`: when everything claimed is counted, nobody copies.
* `Exclusive.unmailed_eq_zero`: when the mailboxes say so, nobody is about to mail.
-/

namespace Htram

namespace PP

open Finset

variable {α : Type*}

/-! ## Where a PE is -/

namespace Pc

/-- The block of slots the PE claimed, by number, and how much of it is written, as long as
    `done_count` does not say so. -/
def pending : Pc α → Option (ℕ × ℕ)
  | .write _ idx i => some (idx / localBufSize, i)
  | .store _ idx i _ _ => some (idx / localBufSize, i)
  | .count idx => some (idx / localBufSize, localBufSize)
  | _ => none

/-- Whether the PE has a block of slots. -/
def copying (c : Pc α) : ℕ := if c.pending.isSome then 1 else 0

/-- Whether its mailbox lacks what `done_count` has. -/
def unmailed : Pc α → ℕ
  | .mail _ => 1
  | _ => 0

/-- The PE has the buffer to itself. -/
def Owns (cfg : NodeConfig) : Pc α → Prop
  | .mail last => last = true
  | .await .. | .clear .. | .load | .setNext _ | .putNext .. | .send | .handOver _ | .renew
  | .zeroDone | .zeroGet => True
  | .read idx => idx < cfg.bufSize
  | _ => False

/-- The mailboxes are being cleared, or are clear, and `done_count` is not yet. -/
def Cleared : Pc α → Prop
  | .clear .. | .load | .setNext _ | .putNext .. | .send | .handOver _ | .renew | .zeroDone => True
  | _ => False

/-- From `c` to `c'` no counter need change. -/
structure Goes (cfg : NodeConfig) (c c' : Pc α) : Prop where
  copying : c'.copying = c.copying
  unmailed : c'.unmailed = c.unmailed
  owns : c'.Owns cfg → c.Owns cfg
  cleared : c.Cleared → c'.Cleared
  ne : c ≠ .zeroDone

end Pc

namespace Node

/-- How many PEs have a block of slots. -/
def copying (cfg : NodeConfig) (s : Node α) : ℕ := ∑ q ∈ range cfg.numPes, (s.pc q).copying

/-- How many PEs have counted and not mailed. -/
def unmailed (cfg : NodeConfig) (s : Node α) : ℕ := ∑ q ∈ range cfg.numPes, (s.pc q).unmailed

/-- Everything claimed is counted. -/
def Complete (s : Node α) : Prop := s.doneCount = localBufSize * s.claims.length

/-- If there are mailboxes, they are clear and nobody is about to mail. -/
def Drained (cfg : NodeConfig) (s : Node α) : Prop :=
  cfg.mailboxes = true → s.unmailed cfg = 0 ∧ ∀ i < cfg.numPes, s.mailbox i = 0

end Node

/-- What a PE knows where it is. -/
def Pc.Holds (cfg : NodeConfig) (s : Node α) : Pc α → Prop
  | .claim items => items.length = localBufSize
  | .write items idx i => items.length = localBufSize ∧ i ≤ localBufSize ∧ localBufSize ∣ idx
  | .store items idx i m x =>
    items.length = localBufSize ∧ items[i]? = some x ∧ localBufSize ∣ idx ∧ m = s.cur
  | .count idx => localBufSize ∣ idx
  | .mail last =>
    cfg.mailboxes = true ∧ (last = true → s.Complete ∧ s.doneCount = cfg.bufSize)
  | .await role target j sum =>
    cfg.mailboxes = true ∧ s.Complete ∧ (role = .copy → s.doneCount = cfg.bufSize) ∧
      target = s.doneCount ∧ j ≤ cfg.numPes ∧ sum ≤ ∑ i ∈ range j, s.mailbox i
  | .clear role j =>
    cfg.mailboxes = true ∧ s.Complete ∧ (role = .copy → s.doneCount = cfg.bufSize) ∧
      s.unmailed cfg = 0 ∧ ∀ i < j, s.mailbox i = 0
  | .load => s.Complete ∧ s.Drained cfg
  | .setNext next => s.Complete ∧ s.Drained cfg ∧ next = s.doneCount
  | .putNext next m => s.Complete ∧ s.Drained cfg ∧ next = s.doneCount ∧ m = s.cur
  | .send => s.Complete ∧ s.Drained cfg ∧ (s.heap s.cur).next = s.doneCount
  | .handOver m => s.Complete ∧ s.Drained cfg ∧ (s.heap s.cur).next = s.doneCount ∧ m = s.cur
  | .renew => s.Complete ∧ s.Drained cfg
  | .zeroDone => s.Drained cfg ∧ s.claims = []
  | .zeroGet => s.claims = []
  | .read idx => idx < cfg.bufSize → idx = localBufSize * s.claims.length
  | .idle | .check | .lock => True

/-- The shared counters agree with where the PEs are. -/
structure Exclusive (cfg : NodeConfig) (s : Node α) : Prop where
  outside : ∀ p ≥ cfg.numPes, s.pc p = .idle
  inOrder : s.claims = (List.range s.claims.length).map (localBufSize * ·)
  within : localBufSize * s.claims.length ≤ cfg.bufSize
  unlocked : s.getIdx < cfg.bufSize →
    s.getIdx = localBufSize * s.claims.length ∧ ∀ p, ¬ (s.pc p).Owns cfg
  alone : ∀ {p q}, (s.pc p).Owns cfg → (s.pc q).Owns cfg → p = q
  fewer : s.copying cfg ≤ s.claims.length
  counted : (∀ p, s.pc p ≠ .zeroDone) →
    s.doneCount + localBufSize * s.copying cfg = localBufSize * s.claims.length
  mailed : cfg.mailboxes = true → (∀ p, ¬ (s.pc p).Cleared) →
    ∑ i ∈ range cfg.numPes, s.mailbox i + localBufSize * s.unmailed cfg = s.doneCount
  holds : ∀ p, (s.pc p).Holds cfg s

/-! ## What a step leaves alone -/

variable {cfg : NodeConfig} {s s' : Node α} {p : ℕ} {c : Pc α}

namespace Pc

theorem Cleared.owns (h : c.Cleared) : c.Owns cfg := by
  cases c <;> first | exact h.elim | trivial

theorem Holds.of_eq (h : c.Holds cfg s) (hclaims : s'.claims = s.claims)
    (hdone : s'.doneCount = s.doneCount) (hmail : s'.unmailed cfg = s.unmailed cfg)
    (hbox : s'.mailbox = s.mailbox) (hcur : s'.cur = s.cur)
    (hnext : (s'.heap s'.cur).next = (s.heap s.cur).next) : c.Holds cfg s' := by
  rw [hcur] at hnext
  cases c <;>
    simp only [Holds, Node.Complete, Node.Drained, hclaims, hdone, hmail, hbox, hnext,
      hcur] at h ⊢ <;>
    exact h

/-- What a PE knows that does not have the buffer to itself does not depend on the counters. -/
theorem Holds.of_not_owns (h : c.Holds cfg s) (hno : ¬ c.Owns cfg)
    (hcur : c.pending = none ∨ s'.cur = s.cur) : c.Holds cfg s' := by
  cases c with
  | store items idx i m x =>
    have hcur : s'.cur = s.cur := by simpa [pending] using hcur
    simpa [Holds, hcur] using h
  | mail last =>
    refine ⟨h.1, fun hlast => ?_⟩
    exact absurd hlast hno
  | read idx => exact fun hlt => absurd hlt hno
  | idle | claim | write | count | check | lock => exact h
  | _ => exact absurd trivial hno

end Pc

namespace Node

theorem copying_update (hp : p < cfg.numPes) (hpc : s'.pc = Function.update s.pc p c) :
    s'.copying cfg + (s.pc p).copying = s.copying cfg + c.copying := by
  unfold copying
  rw [hpc]
  exact Rows.sum_update Pc.copying s.pc hp c

theorem unmailed_update (hp : p < cfg.numPes) (hpc : s'.pc = Function.update s.pc p c) :
    s'.unmailed cfg + (s.pc p).unmailed = s.unmailed cfg + c.unmailed := by
  unfold unmailed
  rw [hpc]
  exact Rows.sum_update Pc.unmailed s.pc hp c

theorem copying_eq (hp : p < cfg.numPes) (hpc : s'.pc = Function.update s.pc p c)
    (hc : c.copying = (s.pc p).copying) : s'.copying cfg = s.copying cfg := by
  have := copying_update hp hpc
  omega

theorem unmailed_eq (hp : p < cfg.numPes) (hpc : s'.pc = Function.update s.pc p c)
    (hc : c.unmailed = (s.pc p).unmailed) : s'.unmailed cfg = s.unmailed cfg := by
  have := unmailed_update hp hpc
  omega

theorem copying_pos (hp : p < cfg.numPes) (hcopy : (s.pc p).pending ≠ none) :
    0 < s.copying cfg := by
  have hle := Rows.le_sum (fun q => (s.pc q).copying) hp
  have hone : (s.pc p).copying = 1 := by
    unfold Pc.copying
    rw [if_pos (Option.isSome_iff_ne_none.mpr hcopy)]
  unfold copying
  omega

theorem unmailed_pos {last : Bool} (hp : p < cfg.numPes) (hpc : s.pc p = .mail last) :
    0 < s.unmailed cfg := by
  have hle := Rows.le_sum (fun q => (s.pc q).unmailed) hp
  simp only [hpc] at hle
  exact hle

theorem cleared_update (hpc : s'.pc = Function.update s.pc p c) (hc : c.Cleared) :
    ¬ ∀ q, ¬ (s'.pc q).Cleared := by
  intro hno
  have := hno p
  rw [hpc, Function.update_self] at this
  exact this hc

end Node

namespace Exclusive

theorem not_owns_of_owns (h : Exclusive cfg s) (hp : (s.pc p).Owns cfg) :
    ∀ q ≠ p, ¬ (s.pc q).Owns cfg :=
  fun _ hqp hq => hqp (h.alone hq hp)

theorem full_of_owns (h : Exclusive cfg s) (hown : (s.pc p).Owns cfg) : cfg.bufSize ≤ s.getIdx := by
  by_contra hlt
  exact (h.unlocked (not_le.mp hlt)).2 p hown

theorem pending_eq_none (h : Exclusive cfg s) (hC : s.copying cfg = 0) (q : ℕ) :
    (s.pc q).pending = none := by
  by_cases hq : q < cfg.numPes
  · by_contra hpend
    have := Node.copying_pos hq hpend
    omega
  · rw [h.outside q (not_lt.mp hq)]
    rfl

theorem ne_zeroDone (h : Exclusive cfg s) (hown : (s.pc p).Owns cfg) (hp : s.pc p ≠ .zeroDone)
    (q : ℕ) : s.pc q ≠ .zeroDone := by
  intro hq
  have hqown : (s.pc q).Owns cfg := by
    rw [hq]
    trivial
  exact hp (h.alone hown hqown ▸ hq)

/-- Once everything claimed is counted, nobody has a block of slots. -/
theorem copying_eq_zero (h : Exclusive cfg s) (hdone : s.Complete)
    (hno : ∀ p, s.pc p ≠ .zeroDone) : s.copying cfg = 0 := by
  have hcount := h.counted hno
  unfold Node.Complete localBufSize at *
  omega

/-- While somebody copies, only a PE that waits for it can have the buffer to itself. -/
theorem owner_reads (h : Exclusive cfg s) (hp : p < cfg.numPes) (hcopy : (s.pc p).pending ≠ none)
    {q : ℕ} (hown : (s.pc q).Owns cfg) : ∃ idx, s.pc q = .read idx := by
  have hpos := Node.copying_pos hp hcopy
  have hfew := h.fewer
  have hclaims : s.claims ≠ [] := fun hnil => by
    rw [hnil, List.length_nil] at hfew
    omega
  have hbusy : ¬ (s.Complete ∧ s.pc q ≠ .zeroDone) := fun ⟨hdone, hz⟩ => by
    have := h.copying_eq_zero hdone (h.ne_zeroDone hown hz)
    omega
  have hq := h.holds q
  cases hc : s.pc q with
  | read idx => exact ⟨idx, rfl⟩
  | idle | claim | write | store | count | check | lock => rw [hc] at hown; exact hown.elim
  | mail last =>
    rw [hc] at hown hq
    exact absurd ⟨(hq.2 hown).1, by simp [hc]⟩ hbusy
  | await | clear =>
    rw [hc] at hq
    exact absurd ⟨hq.2.1, by simp [hc]⟩ hbusy
  | load | setNext | putNext | send | handOver | renew =>
    rw [hc] at hq
    exact absurd ⟨hq.1, by simp [hc]⟩ hbusy
  | zeroDone =>
    rw [hc] at hq
    exact absurd hq.2 hclaims
  | zeroGet =>
    rw [hc] at hq
    exact absurd hq hclaims

/-- While somebody copies, the count is behind by the blocks that are being copied. -/
theorem counted_of_pending (h : Exclusive cfg s) (hp : p < cfg.numPes)
    (hcopy : (s.pc p).pending ≠ none) :
    s.doneCount + localBufSize * s.copying cfg = localBufSize * s.claims.length := by
  refine h.counted fun q hq => ?_
  have hown : (s.pc q).Owns cfg := by
    rw [hq]
    trivial
  obtain ⟨idx, hread⟩ := h.owner_reads hp hcopy hown
  rw [hread] at hq
  cases hq

/-- A PE that has seen all the mail knows that nobody is about to mail. -/
theorem unmailed_eq_zero (h : Exclusive cfg s) {role : Role} {target j sum : ℕ}
    (hpc : s.pc p = .await role target j sum) (hsum : target ≤ sum) : s.unmailed cfg = 0 := by
  have hmine := h.holds p
  rw [hpc] at hmine
  obtain ⟨hboxes, -, -, rfl, hj, hle⟩ := hmine
  have hmailed := h.mailed hboxes fun q hq => by
    have hown : (s.pc p).Owns cfg := by
      rw [hpc]
      trivial
    have := h.alone hown hq.owns
    rw [← this, hpc] at hq
    exact hq
  have hall : ∑ i ∈ range j, s.mailbox i ≤ ∑ i ∈ range cfg.numPes, s.mailbox i :=
    sum_le_sum_of_subset (range_subset_range.mpr hj)
  unfold localBufSize at hmailed
  omega

end Exclusive

end PP

end Htram
