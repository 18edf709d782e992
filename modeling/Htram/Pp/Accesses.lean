import Htram.Pp.Exclusion

/-!
# Every access keeps the buffer exclusive

One lemma for each access that changes what the PEs share, from what it does to the shared fields,
and `Exclusive.move` for those that change nothing that counts.

* `Exclusive.run`, `Exclusive.step`: every step keeps the invariant.
* `Exclusive.of_reachable`: it holds in every run.
-/

namespace Htram

namespace PP

open Finset

variable {α : Type*} {cfg : NodeConfig} {s s' : Node α} {p : ℕ} {c : Pc α}

namespace Exclusive

/-! ## After a step -/

theorem counted_eq (h : Exclusive cfg s) (hpc : s'.pc = Function.update s.pc p c)
    (hp : s.pc p ≠ .zeroDone) (hC : s'.copying cfg = s.copying cfg) (hclaims : s'.claims = s.claims)
    (hdone : s'.doneCount = s.doneCount) (hno : ∀ q, s'.pc q ≠ .zeroDone) :
    s'.doneCount + localBufSize * s'.copying cfg = localBufSize * s'.claims.length := by
  rw [hpc] at hno
  rw [hC, hclaims, hdone]
  exact h.counted (Rows.forall_of_update (P := (· ≠ Pc.zeroDone)) hno hp)

theorem mailed_of (h : Exclusive cfg s) (hboxes : cfg.mailboxes = true)
    (hpc : s'.pc = Function.update s.pc p c) (hp : (s.pc p).Cleared → c.Cleared)
    (hno : ∀ q, ¬ (s'.pc q).Cleared) :
    ∑ i ∈ range cfg.numPes, s.mailbox i + localBufSize * s.unmailed cfg = s.doneCount := by
  have hpno : ¬ (s.pc p).Cleared := fun hcl => Node.cleared_update hpc (hp hcl) hno
  rw [hpc] at hno
  exact h.mailed hboxes (Rows.forall_of_update (P := (¬ Pc.Cleared ·)) hno hpno)

/-- The invariant after PE `p` came to `c`, from what the step did to the counters. -/
theorem arrive (h : Exclusive cfg s) (hp : p < cfg.numPes)
    (hpc : s'.pc = Function.update s.pc p c)
    (inOrder : s'.claims = (List.range s'.claims.length).map (localBufSize * ·))
    (within : localBufSize * s'.claims.length ≤ cfg.bufSize)
    (fewer : s'.copying cfg ≤ s'.claims.length)
    (unlocked : s'.getIdx < cfg.bufSize → s'.getIdx = localBufSize * s'.claims.length ∧
      ¬ c.Owns cfg ∧ ∀ q ≠ p, ¬ (s.pc q).Owns cfg)
    (alone : c.Owns cfg → ∀ q ≠ p, ¬ (s.pc q).Owns cfg)
    (counted : (∀ p, s'.pc p ≠ .zeroDone) →
      s'.doneCount + localBufSize * s'.copying cfg = localBufSize * s'.claims.length)
    (mailed : cfg.mailboxes = true → (∀ p, ¬ (s'.pc p).Cleared) →
      ∑ i ∈ range cfg.numPes, s'.mailbox i + localBufSize * s'.unmailed cfg = s'.doneCount)
    (holds : c.Holds cfg s') (others : ∀ q ≠ p, (s.pc q).Holds cfg s') : Exclusive cfg s' where
  outside := by
    intro q hq
    rw [hpc, Function.update_of_ne (by omega)]
    exact h.outside q hq
  inOrder := inOrder
  within := within
  unlocked := by
    intro hlt
    obtain ⟨hget, hown, hothers⟩ := unlocked hlt
    rw [hpc]
    exact ⟨hget, (Function.forall_update_iff _ fun _ c => ¬ Pc.Owns cfg c).mpr ⟨hown, hothers⟩⟩
  alone := by
    intro q r hq hr
    rw [hpc] at hq hr
    by_cases hqp : q = p <;> by_cases hrp : r = p
    · rw [hqp, hrp]
    · rw [hqp, Function.update_self] at hq
      rw [Function.update_of_ne hrp] at hr
      exact absurd hr (alone hq r hrp)
    · rw [hrp, Function.update_self] at hr
      rw [Function.update_of_ne hqp] at hq
      exact absurd hq (alone hr q hqp)
    · rw [Function.update_of_ne hqp] at hq
      rw [Function.update_of_ne hrp] at hr
      exact h.alone hq hr
  fewer := fewer
  counted := counted
  mailed := mailed
  holds := by
    rw [hpc]
    exact (Function.forall_update_iff _ fun _ c => Pc.Holds cfg s' c).mpr ⟨holds, others⟩

/-- A step that neither claims nor resets. -/
theorem arrive_claims (h : Exclusive cfg s) (hp : p < cfg.numPes)
    (hpc : s'.pc = Function.update s.pc p c) (hclaims : s'.claims = s.claims)
    (hC : s'.copying cfg ≤ s.copying cfg)
    (unlocked : s'.getIdx < cfg.bufSize → s'.getIdx = localBufSize * s'.claims.length ∧
      ¬ c.Owns cfg ∧ ∀ q ≠ p, ¬ (s.pc q).Owns cfg)
    (alone : c.Owns cfg → ∀ q ≠ p, ¬ (s.pc q).Owns cfg)
    (counted : (∀ p, s'.pc p ≠ .zeroDone) →
      s'.doneCount + localBufSize * s'.copying cfg = localBufSize * s'.claims.length)
    (mailed : cfg.mailboxes = true → (∀ p, ¬ (s'.pc p).Cleared) →
      ∑ i ∈ range cfg.numPes, s'.mailbox i + localBufSize * s'.unmailed cfg = s'.doneCount)
    (holds : c.Holds cfg s') (others : ∀ q ≠ p, (s.pc q).Holds cfg s') : Exclusive cfg s' := by
  refine h.arrive hp hpc ?_ ?_ ?_ unlocked alone counted mailed holds others
  · rw [hclaims]
    exact h.inOrder
  · rw [hclaims]
    exact h.within
  · rw [hclaims]
    exact hC.trans h.fewer

/-- A step that changes no counter. -/
theorem move (h : Exclusive cfg s) (hp : p < cfg.numPes) {c₀ : Pc α} (hpc₀ : s.pc p = c₀)
    (hpc : s'.pc = Function.update s.pc p c) (hgo : c₀.Goes cfg c)
    (hget : s'.getIdx = s.getIdx) (hclaims : s'.claims = s.claims)
    (hdone : s'.doneCount = s.doneCount) (hbox : s'.mailbox = s.mailbox) (hcur : s'.cur = s.cur)
    (hnext : (s'.heap s'.cur).next = (s.heap s.cur).next)
    (holds : c.Holds cfg s) : Exclusive cfg s' := by
  rw [← hpc₀] at hgo
  have hC := Node.copying_eq hp hpc hgo.copying
  have hU := Node.unmailed_eq hp hpc hgo.unmailed
  have hframe : ∀ {c' : Pc α}, c'.Holds cfg s → c'.Holds cfg s' :=
    fun hc' => hc'.of_eq hclaims hdone hU hbox hcur hnext
  apply h.arrive_claims hp hpc hclaims hC.le
  · rw [hget, hclaims]
    intro hlt
    obtain ⟨heq, hfree⟩ := h.unlocked hlt
    exact ⟨heq, fun hc => hfree p (hgo.owns hc), fun q _ => hfree q⟩
  · exact fun hc => h.not_owns_of_owns (hgo.owns hc)
  · exact h.counted_eq hpc hgo.ne hC hclaims hdone
  · rw [hbox, hU, hdone]
    exact fun hboxes => h.mailed_of hboxes hpc hgo.cleared
  · exact hframe holds
  · exact fun q _ => hframe (h.holds q)

/-! ## The steps of a PE that copies -/

/-- `fetch_add(increment)` came back with `get_idx` at or above `bufSize`. -/
theorem claim_full (h : Exclusive cfg s) (hge : cfg.bufSize ≤ s.getIdx) :
    Exclusive cfg { s with getIdx := s.getIdx + localBufSize : Node α } :=
  { h with
    unlocked := fun hlt => by
      have : s.getIdx + localBufSize < cfg.bufSize := hlt
      omega
    holds := fun q => (h.holds q).of_eq rfl rfl rfl rfl rfl rfl }

/-- `fetch_add(increment)` gave the next block. -/
theorem claim (h : Exclusive cfg s) (hp : p < cfg.numPes) {items : List (ItemT α)}
    (hpc : s.pc p = .claim items) (hlt : s.getIdx < cfg.bufSize)
    (hpc' : s'.pc = Function.update s.pc p (.write items s.getIdx 0))
    (hget : s'.getIdx = s.getIdx + localBufSize) (hclaims : s'.claims = s.claims ++ [s.getIdx])
    (hdone : s'.doneCount = s.doneCount) (hbox : s'.mailbox = s.mailbox) (hcur : s'.cur = s.cur) :
    Exclusive cfg s' := by
  obtain ⟨heq, hfree⟩ := h.unlocked hlt
  obtain ⟨n, hn⟩ := cfg.whole
  have hC : s'.copying cfg = s.copying cfg + 1 := by
    have := Node.copying_update hp hpc'
    rw [hpc] at this
    exact this
  have hU := Node.unmailed_eq hp hpc' (by rw [hpc]; rfl)
  have hlen : s'.claims.length = s.claims.length + 1 := by rw [hclaims, List.length_append]; rfl
  have hmul : localBufSize * (s.claims.length + 1) =
      localBufSize * s.claims.length + localBufSize := Nat.mul_succ _ _
  have hitems := h.holds p
  rw [hpc] at hitems
  apply h.arrive hp hpc'
  · rw [hlen, List.range_succ, List.map_append, ← h.inOrder, hclaims, heq]
    rfl
  · rw [hlen, hn]
    apply Nat.mul_le_mul_left
    rw [heq, hn] at hlt
    exact Nat.lt_of_mul_lt_mul_left hlt
  · have := h.fewer
    omega
  · intro _
    refine ⟨?_, id, fun q _ => hfree q⟩
    rw [hget, hlen, hmul, heq]
  · exact fun hown => hown.elim
  · intro hno
    rw [hpc'] at hno
    have := h.counted (Rows.forall_of_update (P := (· ≠ Pc.zeroDone)) hno (by simp [hpc]))
    rw [hdone, hC, hlen, hmul, Nat.mul_succ]
    omega
  · rw [hbox, hU, hdone]
    exact fun hboxes => h.mailed_of hboxes hpc' (by simp [hpc, Pc.Cleared])
  · exact ⟨hitems, Nat.zero_le _, heq ▸ Nat.dvd_mul_right _ _⟩
  · exact fun q _ => (h.holds q).of_not_owns (hfree q) (.inr hcur)

/-- The items are counted. Who counts the last ones gets the buffer. -/
theorem count (h : Exclusive cfg s) (hp : p < cfg.numPes) {idx : ℕ} (hpc : s.pc p = .count idx)
    (hpc' : s'.pc = Function.update s.pc p c) (hget : s'.getIdx = s.getIdx)
    (hclaims : s'.claims = s.claims) (hdone : s'.doneCount = s.doneCount + localBufSize)
    (hbox : s'.mailbox = s.mailbox) (hcur : s'.cur = s.cur) (hcopy : c.copying = 0)
    (hmail : cfg.mailboxes = true → c.unmailed = 1)
    (hown : c.Owns cfg → s.doneCount + localBufSize = cfg.bufSize)
    (holds : (s.doneCount + localBufSize = cfg.bufSize → s'.Complete) → c.Holds cfg s') :
    Exclusive cfg s' := by
  have hpend : (s.pc p).pending ≠ none := by simp [hpc, Pc.pending]
  have hcount := h.counted_of_pending hp hpend
  have hC : s.copying cfg = s'.copying cfg + 1 := by
    have := Node.copying_update hp hpc'
    rw [hpc, hcopy] at this
    exact this.symm
  rw [hC, Nat.mul_succ] at hcount
  have hU : s'.unmailed cfg = s.unmailed cfg + c.unmailed := by
    have := Node.unmailed_update hp hpc'
    rw [hpc] at this
    exact this
  have hwithin := h.within
  have hlast : s.doneCount + localBufSize = cfg.bufSize →
      localBufSize * s.claims.length = cfg.bufSize := by omega
  apply h.arrive_claims hp hpc' hclaims (by omega)
  · rw [hget, hclaims]
    intro hlt
    obtain ⟨heq, hfree⟩ := h.unlocked hlt
    refine ⟨heq, fun hc => ?_, fun q _ => hfree q⟩
    have := hlast (hown hc)
    omega
  · intro hc q hq hqown
    obtain ⟨idx', hread⟩ := h.owner_reads hp hpend hqown
    have hidx := h.holds q
    rw [hread] at hqown hidx
    have hlt : idx' < cfg.bufSize := hqown
    have := hidx hlt
    have := hlast (hown hc)
    omega
  · intro _
    rw [hdone, hclaims]
    omega
  · rw [hbox, hU, hdone]
    intro hboxes hno
    have := h.mailed_of hboxes hpc' (by simp [hpc, Pc.Cleared]) hno
    rw [hmail hboxes, Nat.mul_succ]
    omega
  · apply holds
    intro heq
    unfold Node.Complete
    have := hlast heq
    rw [hdone, hclaims]
    omega
  · intro q _
    by_cases hqown : (s.pc q).Owns cfg
    · obtain ⟨idx', hread⟩ := h.owner_reads hp hpend hqown
      have hidx := h.holds q
      rw [hread] at hidx ⊢
      unfold Pc.Holds at hidx ⊢
      rw [hclaims]
      exact hidx
    · exact (h.holds q).of_not_owns hqown (.inr hcur)

theorem sum_mailbox {box : ℕ → ℕ} (n : ℕ) (hp : p < n) :
    ∑ i ∈ range n, Function.update box p (box p + localBufSize) i =
      ∑ i ∈ range n, box i + localBufSize := by
  have := Rows.sum_update id box hp (box p + localBufSize)
  simp only [id] at this
  omega

/-- A mail does not bother the PE that has the buffer to itself: if it still looks at the
    mailboxes, it waits for this mail. -/
theorem holds_mail (h : Exclusive cfg s) (hp : p < cfg.numPes) {last : Bool}
    (hpc : s.pc p = .mail last) (hclaims : s'.claims = s.claims)
    (hdone : s'.doneCount = s.doneCount)
    (hbox : s'.mailbox = Function.update s.mailbox p (s.mailbox p + localBufSize))
    {q : ℕ} (hown : (s.pc q).Owns cfg) : (s.pc q).Holds cfg s' := by
  have hpos := Node.unmailed_pos hp hpc
  have hboxes : cfg.mailboxes = true := by
    have := h.holds p
    rw [hpc] at this
    exact this.1
  have hdrained : ¬ s.Drained cfg := by
    intro hd
    have := (hd hboxes).1
    omega
  have hq := h.holds q
  cases hc : s.pc q with
  | idle | claim | write | store | count | check | lock => rw [hc] at hown; exact hown.elim
  | mail last' =>
    rw [hc] at hown hq
    refine ⟨hboxes, fun _ => ?_⟩
    unfold Node.Complete
    rw [hdone, hclaims]
    exact hq.2 hown
  | await role target j sum =>
    rw [hc] at hq
    obtain ⟨-, hcomplete, hrole, htarget, hj, hsum⟩ := hq
    unfold Pc.Holds Node.Complete
    rw [hdone, hclaims, hbox]
    refine ⟨hboxes, hcomplete, hrole, htarget, hj, hsum.trans ?_⟩
    apply sum_le_sum
    intro i _
    by_cases hi : i = p
    · rw [hi, Function.update_self]
      exact Nat.le_add_right _ _
    · rw [Function.update_of_ne hi]
  | clear =>
    rw [hc] at hq
    have := hq.2.2.2.1
    omega
  | load | renew =>
    rw [hc] at hq
    exact absurd hq.2 hdrained
  | setNext | putNext | send | handOver =>
    rw [hc] at hq
    exact absurd hq.2.1 hdrained
  | zeroDone =>
    rw [hc] at hq
    exact absurd hq.1 hdrained
  | zeroGet =>
    rw [hc] at hq
    exact hclaims.trans hq
  | read idx =>
    rw [hc] at hq
    unfold Pc.Holds at hq ⊢
    rw [hclaims]
    exact hq

/-- The count is mailed. -/
theorem mail (h : Exclusive cfg s) (hp : p < cfg.numPes) {last : Bool} (hpc : s.pc p = .mail last)
    (hpc' : s'.pc = Function.update s.pc p
      (if last then .await .copy cfg.bufSize cfg.numPes 0 else .idle))
    (hget : s'.getIdx = s.getIdx) (hclaims : s'.claims = s.claims)
    (hdone : s'.doneCount = s.doneCount)
    (hbox : s'.mailbox = Function.update s.mailbox p (s.mailbox p + localBufSize))
    (hcur : s'.cur = s.cur) : Exclusive cfg s' := by
  have hC := Node.copying_eq hp hpc' (by rw [hpc]; cases last <;> rfl)
  have hU : s'.unmailed cfg + 1 = s.unmailed cfg := by
    have := Node.unmailed_update hp hpc'
    rw [hpc] at this
    cases last <;> exact this
  have hmine := h.holds p
  rw [hpc] at hmine
  obtain ⟨hboxes, hlast⟩ := hmine
  have hown : Pc.Owns cfg (if last then Pc.await .copy cfg.bufSize cfg.numPes 0 else .idle : Pc α) →
      (s.pc p).Owns cfg := by
    rw [hpc]
    cases last with
    | false => simp [Pc.Owns]
    | true => exact fun _ => rfl
  apply h.arrive_claims hp hpc' hclaims hC.le
  · rw [hget, hclaims]
    intro hlt
    obtain ⟨heq, hfree⟩ := h.unlocked hlt
    exact ⟨heq, fun hc => hfree p (hown hc), fun q _ => hfree q⟩
  · exact fun hc => h.not_owns_of_owns (hown hc)
  · exact h.counted_eq hpc' (by simp [hpc]) hC hclaims hdone
  · rw [hbox, hdone, sum_mailbox _ hp]
    intro _ hno
    have := h.mailed_of hboxes hpc' (by simp [hpc, Pc.Cleared]) hno
    rw [← hU, Nat.mul_succ] at this
    omega
  · cases last with
    | false => trivial
    | true =>
      obtain ⟨hcomplete, hfull⟩ := hlast rfl
      refine ⟨hboxes, ?_, fun _ => ?_, ?_, le_rfl, Nat.zero_le _⟩
      · unfold Node.Complete
        rw [hdone, hclaims]
        exact hcomplete
      · rw [hdone]
        exact hfull
      · rw [hdone]
        exact hfull.symm
  · intro q hq
    by_cases hqown : (s.pc q).Owns cfg
    · exact h.holds_mail hp hpc hclaims hdone hbox hqown
    · exact (h.holds q).of_not_owns hqown (.inr hcur)

/-! ## The steps of the PE that ships -/

/-- The PE that has the buffer to itself goes on and leaves `get_idx`. -/
theorem arrive_owner (h : Exclusive cfg s) (hp : p < cfg.numPes) (hown : (s.pc p).Owns cfg)
    (hpc : s'.pc = Function.update s.pc p c) (hget : s'.getIdx = s.getIdx)
    (hclaims : s'.claims = s.claims) (hC : s'.copying cfg = s.copying cfg) (hcur : s'.cur = s.cur)
    (counted : (∀ p, s'.pc p ≠ .zeroDone) →
      s'.doneCount + localBufSize * s'.copying cfg = localBufSize * s'.claims.length)
    (mailed : cfg.mailboxes = true → (∀ p, ¬ (s'.pc p).Cleared) →
      ∑ i ∈ range cfg.numPes, s'.mailbox i + localBufSize * s'.unmailed cfg = s'.doneCount)
    (holds : c.Holds cfg s') : Exclusive cfg s' := by
  have hothers := h.not_owns_of_owns hown
  refine h.arrive_claims hp hpc hclaims hC.le ?_ (fun _ => hothers) counted mailed holds ?_
  · rw [hget]
    exact fun hlt => absurd (h.full_of_owns hown) (not_le.mpr hlt)
  · exact fun q hq => (h.holds q).of_not_owns (hothers q hq) (.inr hcur)

/-- A mailbox is cleared. -/
theorem clear (h : Exclusive cfg s) (hp : p < cfg.numPes) {role : Role} {j : ℕ}
    (hpc : s.pc p = .clear role j) (hpc' : s'.pc = Function.update s.pc p (.clear role (j + 1)))
    (hget : s'.getIdx = s.getIdx) (hclaims : s'.claims = s.claims)
    (hdone : s'.doneCount = s.doneCount) (hbox : s'.mailbox = Function.update s.mailbox j 0)
    (hcur : s'.cur = s.cur) : Exclusive cfg s' := by
  have hC := Node.copying_eq hp hpc' (by rw [hpc]; rfl)
  have hU := Node.unmailed_eq hp hpc' (by rw [hpc]; rfl)
  have hmine := h.holds p
  rw [hpc] at hmine
  obtain ⟨hboxes, hcomplete, hrole, hunmailed, hclear⟩ := hmine
  apply h.arrive_owner hp (by rw [hpc]; trivial) hpc' hget hclaims hC hcur
  · exact h.counted_eq hpc' (by simp [hpc]) hC hclaims hdone
  · exact fun _ hno => absurd hno (Node.cleared_update hpc' trivial)
  · unfold Pc.Holds Node.Complete
    rw [hdone, hclaims, hU, hbox]
    refine ⟨hboxes, hcomplete, hrole, hunmailed, fun i hi => ?_⟩
    by_cases hij : i = j
    · rw [hij, Function.update_self]
    · rw [Function.update_of_ne hij]
      exact hclear i (by omega)

/-- The message gets its `next`. -/
theorem putNext (h : Exclusive cfg s) (hp : p < cfg.numPes) {next m : ℕ}
    (hpc : s.pc p = .putNext next m) (hpc' : s'.pc = Function.update s.pc p .send)
    (hget : s'.getIdx = s.getIdx) (hclaims : s'.claims = s.claims)
    (hdone : s'.doneCount = s.doneCount) (hbox : s'.mailbox = s.mailbox) (hcur : s'.cur = s.cur)
    (hset : (s'.heap m).next = next) : Exclusive cfg s' := by
  have hC := Node.copying_eq hp hpc' (by rw [hpc]; rfl)
  have hU := Node.unmailed_eq hp hpc' (by rw [hpc]; rfl)
  have hmine := h.holds p
  rw [hpc] at hmine
  obtain ⟨hcomplete, hdrained, hnext, hm⟩ := hmine
  apply h.arrive_owner hp (by rw [hpc]; trivial) hpc' hget hclaims hC hcur
  · exact h.counted_eq hpc' (by simp [hpc]) hC hclaims hdone
  · exact fun _ hno => absurd hno (Node.cleared_update hpc' trivial)
  · unfold Pc.Holds Node.Complete Node.Drained
    rw [hdone, hclaims, hU, hbox, hcur, ← hm, hset, hnext]
    exact ⟨hcomplete, hdrained, rfl⟩

/-- A new message takes the place of the one that left. -/
theorem renew (h : Exclusive cfg s) (hp : p < cfg.numPes) (hpc : s.pc p = .renew)
    (hpc' : s'.pc = Function.update s.pc p .zeroDone) (hget : s'.getIdx = s.getIdx)
    (hclaims : s'.claims = []) (hbox : s'.mailbox = s.mailbox) : Exclusive cfg s' := by
  have hC := Node.copying_eq hp hpc' (by rw [hpc]; rfl)
  have hU := Node.unmailed_eq hp hpc' (by rw [hpc]; rfl)
  have hmine := h.holds p
  rw [hpc] at hmine
  obtain ⟨hcomplete, hdrained⟩ := hmine
  have hown : (s.pc p).Owns cfg := by
    rw [hpc]
    trivial
  have hothers := h.not_owns_of_owns hown
  have hzero := h.copying_eq_zero hcomplete (h.ne_zeroDone hown (by simp [hpc]))
  apply h.arrive hp hpc'
  · rw [hclaims]
    rfl
  · rw [hclaims]
    exact Nat.zero_le _
  · rw [hC, hzero]
    exact Nat.zero_le _
  · rw [hget]
    exact fun hlt => absurd (h.full_of_owns hown) (not_le.mpr hlt)
  · exact fun _ => hothers
  · intro hno
    have := hno p
    rw [hpc', Function.update_self] at this
    exact absurd rfl this
  · exact fun _ hno => absurd hno (Node.cleared_update hpc' trivial)
  · unfold Pc.Holds Node.Drained
    rw [hU, hbox]
    exact ⟨hdrained, hclaims⟩
  · exact fun q hq =>
      (h.holds q).of_not_owns (hothers q hq) (.inl (h.pending_eq_none hzero q))

/-- `done_count = 0`. -/
theorem zeroDone (h : Exclusive cfg s) (hp : p < cfg.numPes) (hpc : s.pc p = .zeroDone)
    (hpc' : s'.pc = Function.update s.pc p .zeroGet) (hget : s'.getIdx = s.getIdx)
    (hclaims : s'.claims = s.claims) (hdone : s'.doneCount = 0) (hbox : s'.mailbox = s.mailbox)
    (hcur : s'.cur = s.cur) : Exclusive cfg s' := by
  have hC := Node.copying_eq hp hpc' (by rw [hpc]; rfl)
  have hU := Node.unmailed_eq hp hpc' (by rw [hpc]; rfl)
  have hmine := h.holds p
  rw [hpc] at hmine
  obtain ⟨hdrained, hnil⟩ := hmine
  apply h.arrive_owner hp (by rw [hpc]; trivial) hpc' hget hclaims hC hcur
  · have hfew := h.fewer
    rw [hnil, List.length_nil] at hfew
    intro _
    rw [hC, hdone, hclaims, hnil, Nat.le_zero.mp hfew]
    rfl
  · intro hboxes _
    obtain ⟨hunmailed, hclear⟩ := hdrained hboxes
    rw [hbox, hU, hdone, hunmailed, sum_eq_zero fun i hi => hclear i (mem_range.mp hi)]
    rfl
  · exact hclaims.trans hnil

/-- `get_idx = 0`: the buffer is open again. -/
theorem zeroGet (h : Exclusive cfg s) (hp : p < cfg.numPes) (hpc : s.pc p = .zeroGet)
    (hpc' : s'.pc = Function.update s.pc p .idle) (hget : s'.getIdx = 0)
    (hclaims : s'.claims = s.claims) (hdone : s'.doneCount = s.doneCount)
    (hbox : s'.mailbox = s.mailbox) (hcur : s'.cur = s.cur) : Exclusive cfg s' := by
  have hC := Node.copying_eq hp hpc' (by rw [hpc]; rfl)
  have hU := Node.unmailed_eq hp hpc' (by rw [hpc]; rfl)
  have hnil := h.holds p
  rw [hpc] at hnil
  have hnil : s.claims = [] := hnil
  have hothers := h.not_owns_of_owns (p := p) (by rw [hpc]; trivial)
  apply h.arrive_claims hp hpc' hclaims hC.le
  · intro _
    refine ⟨?_, id, hothers⟩
    rw [hget, hclaims, hnil]
    rfl
  · exact fun hc => hc.elim
  · exact h.counted_eq hpc' (by simp [hpc]) hC hclaims hdone
  · rw [hbox, hU, hdone]
    exact fun hboxes => h.mailed_of hboxes hpc' (by simp [hpc, Pc.Cleared])
  · trivial
  · exact fun q hq => (h.holds q).of_not_owns (hothers q hq) (.inr hcur)

/-- `get_idx.fetch_add(bufSize)`: the first PE that does this has the buffer to itself. -/
theorem lock (h : Exclusive cfg s) (hp : p < cfg.numPes) (hpc : s.pc p = .lock)
    (hpc' : s'.pc = Function.update s.pc p (.read s.getIdx))
    (hget : s'.getIdx = s.getIdx + cfg.bufSize) (hclaims : s'.claims = s.claims)
    (hdone : s'.doneCount = s.doneCount) (hbox : s'.mailbox = s.mailbox) (hcur : s'.cur = s.cur)
    (hheap : s'.heap = s.heap) : Exclusive cfg s' := by
  have hC := Node.copying_eq hp hpc' (by rw [hpc]; rfl)
  have hU := Node.unmailed_eq hp hpc' (by rw [hpc]; rfl)
  apply h.arrive_claims hp hpc' hclaims hC.le
  · intro hlt
    omega
  · exact fun hlt q _ => (h.unlocked hlt).2 q
  · exact h.counted_eq hpc' (by simp [hpc]) hC hclaims hdone
  · rw [hbox, hU, hdone]
    exact fun hboxes => h.mailed_of hboxes hpc' (by simp [hpc, Pc.Cleared])
  · intro hlt
    rw [hclaims]
    exact (h.unlocked hlt).1
  · exact fun q _ => (h.holds q).of_eq hclaims hdone hU hbox hcur (by rw [hcur, hheap])

/-! ## Every step -/

theorem init (cfg : NodeConfig) : Exclusive cfg (Node.init cfg : Node α) where
  outside := fun _ _ => rfl
  inOrder := rfl
  within := Nat.zero_le _
  unlocked := fun _ => ⟨rfl, fun _ => id⟩
  alone := fun hp => hp.elim
  fewer := by simp [Node.copying, Node.init, Pc.copying, Pc.pending]
  counted := by simp [Node.copying, Node.init, Pc.copying, Pc.pending]
  mailed := by simp [Node.unmailed, Node.init, Pc.unmailed]
  holds := fun _ => trivial

theorem run (h : Exclusive cfg s) (hp : p < cfg.numPes) : Exclusive cfg (s.run cfg p) := by
  have hmine := h.holds p
  unfold Node.run
  cases hpc : s.pc p <;> rw [hpc] at hmine <;> dsimp only
  case idle => exact h
  case claim items =>
    split_ifs with hge
    · exact h.claim_full hge
    · exact h.claim hp hpc (not_le.mp hge) rfl rfl rfl rfl rfl rfl
  case write items idx i =>
    obtain ⟨hlen, hi, hidx⟩ := hmine
    cases hx : items[i]? with
    | none =>
      exact h.move (c := .count idx) hp hpc rfl ⟨rfl, rfl, id, id, nofun⟩
        rfl rfl rfl rfl rfl rfl hidx
    | some x =>
      exact h.move (c := .store items idx i s.cur x) hp hpc rfl ⟨rfl, rfl, id, id, nofun⟩
        rfl rfl rfl rfl rfl rfl ⟨hlen, hx, hidx, rfl⟩
  case store items idx i m x =>
    obtain ⟨hlen, hx, hidx, rfl⟩ := hmine
    have hi := (List.getElem?_eq_some_iff.mp hx).1
    rw [hlen] at hi
    refine h.move (c := .write items idx (i + 1)) hp hpc rfl ⟨rfl, rfl, id, id, nofun⟩
      rfl rfl rfl rfl rfl ?_ ⟨hlen, hi, hidx⟩
    simp [Node.goto, Node.setMessage, Message.setItem]
  case count idx =>
    split_ifs with hboxes hlast
    · refine h.count (c := .mail _) hp hpc rfl rfl rfl rfl rfl rfl rfl (fun _ => rfl) ?_ ?_
      · exact fun hown => of_decide_eq_true hown
      · intro hdone
        refine ⟨hboxes, fun hl => ?_⟩
        exact ⟨hdone (of_decide_eq_true hl), of_decide_eq_true hl⟩
    · have hlast := of_decide_eq_true hlast
      refine h.count (c := .setNext _) hp hpc rfl rfl rfl rfl rfl rfl rfl
        (fun hb => absurd hb hboxes) (fun _ => hlast) fun hdone => ?_
      exact ⟨hdone hlast, fun hb => absurd hb hboxes, hlast.symm⟩
    · exact h.count (c := .idle) hp hpc rfl rfl rfl rfl rfl rfl rfl
        (fun hb => absurd hb hboxes) (fun hown => hown.elim) fun _ => trivial
  case mail last => exact h.mail hp hpc rfl rfl rfl rfl rfl rfl
  case await role target j sum =>
    obtain ⟨hboxes, hdone, hrole, htarget, hj, hsum⟩ := hmine
    split_ifs with hlt hless
    · refine h.move (c := .await role target (j + 1) (sum + s.mailbox j)) hp hpc rfl
        ⟨rfl, rfl, id, id, nofun⟩ rfl rfl rfl rfl rfl rfl ⟨hboxes, hdone, hrole, htarget, hlt, ?_⟩
      rw [sum_range_succ]
      omega
    · exact h.move (c := .await role target 0 0) hp hpc rfl
        ⟨rfl, rfl, id, id, nofun⟩ rfl rfl rfl rfl rfl rfl
        ⟨hboxes, hdone, hrole, htarget, Nat.zero_le _, Nat.zero_le _⟩
    · exact h.move (c := .clear role 0) hp hpc rfl
        ⟨rfl, rfl, id, fun _ => trivial, nofun⟩ rfl rfl rfl rfl rfl rfl
        ⟨hboxes, hdone, hrole, h.unmailed_eq_zero hpc (not_lt.mp hless),
          fun i hi => absurd hi (Nat.not_lt_zero i)⟩
  case clear role j =>
    obtain ⟨hboxes, hdone, hrole, hunmailed, hclear⟩ := hmine
    split_ifs with hlt
    · exact h.clear hp hpc rfl rfl rfl rfl rfl rfl
    · have hdrained : s.Drained cfg := fun _ => ⟨hunmailed, fun i hi => hclear i (by omega)⟩
      cases role with
      | copy =>
        exact h.move (c := .setNext cfg.bufSize) hp hpc rfl ⟨rfl, rfl, id, id, nofun⟩
          rfl rfl rfl rfl rfl rfl ⟨hdone, hdrained, (hrole rfl).symm⟩
      | flush =>
        exact h.move (c := .load) hp hpc rfl ⟨rfl, rfl, id, id, nofun⟩
          rfl rfl rfl rfl rfl rfl ⟨hdone, hdrained⟩
  case load =>
    obtain ⟨hdone, hdrained⟩ := hmine
    exact h.move (c := .setNext s.doneCount) hp hpc rfl ⟨rfl, rfl, id, id, nofun⟩
      rfl rfl rfl rfl rfl rfl ⟨hdone, hdrained, rfl⟩
  case setNext next =>
    obtain ⟨hdone, hdrained, hnext⟩ := hmine
    exact h.move (c := .putNext next s.cur) hp hpc rfl ⟨rfl, rfl, id, id, nofun⟩
      rfl rfl rfl rfl rfl rfl ⟨hdone, hdrained, hnext, rfl⟩
  case putNext next m =>
    refine h.putNext hp hpc rfl rfl rfl rfl rfl rfl ?_
    simp [Node.goto, Node.setMessage]
  case send =>
    obtain ⟨hdone, hdrained, hnext⟩ := hmine
    exact h.move (c := .handOver s.cur) hp hpc rfl ⟨rfl, rfl, id, id, nofun⟩
      rfl rfl rfl rfl rfl rfl ⟨hdone, hdrained, hnext, rfl⟩
  case handOver m =>
    obtain ⟨hdone, hdrained, -⟩ := hmine
    exact h.move (c := .renew) hp hpc rfl ⟨rfl, rfl, id, id, nofun⟩
      rfl rfl rfl rfl rfl rfl ⟨hdone, hdrained⟩
  case renew => exact h.renew hp hpc rfl rfl rfl rfl
  case zeroDone => exact h.zeroDone hp hpc rfl rfl rfl rfl rfl rfl
  case zeroGet => exact h.zeroGet hp hpc rfl rfl rfl rfl rfl rfl
  case check =>
    split_ifs with hdone
    · exact h.move (c := .lock) hp hpc rfl ⟨rfl, rfl, id, id, nofun⟩
        rfl rfl rfl rfl rfl rfl trivial
    · exact h.move (c := .idle) hp hpc rfl ⟨rfl, rfl, id, id, nofun⟩
        rfl rfl rfl rfl rfl rfl trivial
  case lock => exact h.lock hp hpc rfl rfl rfl rfl rfl rfl rfl
  case read idx =>
    split_ifs with hge hne hboxes
    · exact h.move (c := .idle) hp hpc rfl ⟨rfl, rfl, fun hown => hown.elim, id, nofun⟩
        rfl rfl rfl rfl rfl rfl trivial
    · exact h
    · have hlt := not_le.mp hge
      have hdone := not_not.mp hne
      refine h.move (c := .await .flush idx cfg.numPes 0) hp hpc rfl
        ⟨rfl, rfl, fun _ => hlt, id, nofun⟩ rfl rfl rfl rfl rfl rfl
        ⟨hboxes, hdone.symm.trans (hmine hlt), nofun, hdone, le_rfl, Nat.zero_le _⟩
    · have hlt := not_le.mp hge
      have hdone := not_not.mp hne
      exact h.move (c := .load) hp hpc rfl ⟨rfl, rfl, fun _ => hlt, fun hcl => hcl.elim, nofun⟩
        rfl rfl rfl rfl rfl rfl ⟨hdone.symm.trans (hmine hlt), fun hb => absurd hb hboxes⟩

theorem step (h : Exclusive cfg s) (hstep : Node.Step cfg s s') : Exclusive cfg s' := by
  cases hstep with
  | copy hp hidle hfull =>
    exact h.move hp hidle rfl ⟨rfl, rfl, id, id, nofun⟩ rfl rfl rfl rfl rfl rfl hfull
  | flush hp hidle =>
    exact h.move hp hidle rfl ⟨rfl, rfl, id, id, nofun⟩ rfl rfl rfl rfl rfl rfl trivial
  | run hp => exact h.run hp

/-- The invariant holds in every run. -/
theorem of_reachable (h : Node.Reachable cfg s) : Exclusive cfg s := by
  induction h with
  | refl => exact init cfg
  | tail _ hstep ih => exact ih.step hstep

end Exclusive

end PP

end Htram
