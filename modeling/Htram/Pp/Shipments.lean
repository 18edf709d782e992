import Htram.Pp.Accesses

/-!
# What the shared buffer ships

The slots of the message that `msgBuffers` points to are written by the PEs that claimed them, a
block each, and nobody writes into a message after it left. Together with `Exclusive` this says
where every item is that a PE copied.

* `Shipped`: the invariant of the messages.
* `Node.reachable_safe`: what it says of a run.
-/

namespace Htram

namespace PP

open Finset SlotBlocks

variable {α : Type*}

/-- What of its items a PE has still to write. -/
def Pc.unwritten : Pc α → Multiset (ItemT α)
  | .claim items => items
  | .write items _ i => items.drop i
  | .store items _ i _ _ => items.drop i
  | _ => 0

namespace Shipment

/-- The message has the slots claimed in it, and `next` says how many they are. -/
structure Whole (cfg : NodeConfig) (e : Shipment α) : Prop where
  next : e.msg.next = localBufSize * e.claims.length
  fits : e.msg.next ≤ cfg.bufSize
  written : ∀ j : ℕ, e.msg.slots j ≠ none ↔ (j : ℤ) < e.msg.next
  claimed : ∀ a ∈ e.claims, ∀ i < localBufSize, e.msg.slots (a + i) ≠ none

/-- The items in the message. -/
def items (cfg : NodeConfig) (e : Shipment α) : Multiset (ItemT α) :=
  contents cfg.bufSize e.msg.slots

end Shipment

namespace Node

/-- The blocks of slots that are being written. -/
def pending (s : Node α) (p : ℕ) : Option (ℕ × ℕ) := (s.pc p).pending

/-- The items in the message that `msgBuffers` points to, unless it left already. -/
def current (cfg : NodeConfig) (s : Node α) : Multiset (ItemT α) :=
  if s.cur ∈ s.sent.map Shipment.id then 0 else contents cfg.bufSize (s.heap s.cur).slots

/-- The items that the PEs have still to write. -/
def unwritten (cfg : NodeConfig) (s : Node α) : Multiset (ItemT α) :=
  ∑ q ∈ range cfg.numPes, (s.pc q).unwritten

end Node

/-- The messages, and where the items are. -/
structure Shipped (cfg : NodeConfig) (s : Node α) : Prop where
  blocks : Blocks localBufSize s.claims.length (s.heap s.cur).slots s.pending
  older : ∀ e ∈ s.sent, e.id ≤ s.cur
  left : s.cur ∈ s.sent.map Shipment.id ↔ ∃ p, s.pc p = .renew
  ids : (s.sent.map Shipment.id).Nodup
  asSent : ∀ e ∈ s.sent, s.heap e.id = e.msg
  whole : ∀ e ∈ s.sent, e.Whole cfg
  account : (s.log : Multiset (ItemT α)) =
    (s.sent.map (Shipment.items cfg)).sum + s.current cfg + s.unwritten cfg

variable {cfg : NodeConfig} {s s' : Node α} {p : ℕ} {c : Pc α}

namespace Node

theorem pending_update (hpc : s'.pc = Function.update s.pc p c) :
    s'.pending = Function.update s.pending p c.pending := by
  funext q
  unfold pending
  rw [hpc]
  by_cases hq : q = p
  · rw [hq, Function.update_self, Function.update_self]
  · rw [Function.update_of_ne hq, Function.update_of_ne hq]

theorem pending_eq (hpc : s'.pc = Function.update s.pc p c) (hc : c.pending = (s.pc p).pending) :
    s'.pending = s.pending := by
  rw [pending_update hpc, hc]
  exact Function.update_eq_self p s.pending

theorem unwritten_update (hp : p < cfg.numPes) (hpc : s'.pc = Function.update s.pc p c) :
    s'.unwritten cfg + (s.pc p).unwritten = s.unwritten cfg + c.unwritten := by
  unfold unwritten
  rw [hpc]
  exact Rows.sum_update Pc.unwritten s.pc hp c

theorem unwritten_eq (hp : p < cfg.numPes) (hpc : s'.pc = Function.update s.pc p c)
    (hc : c.unwritten = (s.pc p).unwritten) : s'.unwritten cfg = s.unwritten cfg := by
  have := unwritten_update hp hpc
  rw [hc] at this
  exact add_right_cancel this

theorem renewing_update (hpc : s'.pc = Function.update s.pc p c)
    (hc : c = .renew ↔ s.pc p = .renew) :
    (∃ q, s'.pc q = .renew) ↔ ∃ q, s.pc q = .renew := by
  apply exists_congr
  intro q
  rw [hpc]
  by_cases hq : q = p
  · rw [hq, Function.update_self]
    exact hc
  · rw [Function.update_of_ne hq]

theorem current_of_sent (h : s.cur ∈ s.sent.map Shipment.id) : s.current cfg = 0 := if_pos h

theorem current_of_not_sent (h : s.cur ∉ s.sent.map Shipment.id) :
    s.current cfg = contents cfg.bufSize (s.heap s.cur).slots := if_neg h

end Node

namespace Exclusive

theorem not_renewing (h : Exclusive cfg s) (hown : (s.pc p).Owns cfg) (hne : s.pc p ≠ .renew) :
    ¬ ∃ q, s.pc q = .renew := by
  rintro ⟨q, hq⟩
  have hqown : (s.pc q).Owns cfg := by
    rw [hq]
    trivial
  rw [← h.alone hown hqown] at hq
  exact hne hq

theorem not_renewing_of_pending (h : Exclusive cfg s) (hp : p < cfg.numPes)
    (hcopy : (s.pc p).pending ≠ none) : ¬ ∃ q, s.pc q = .renew := by
  rintro ⟨q, hq⟩
  have hqown : (s.pc q).Owns cfg := by
    rw [hq]
    trivial
  obtain ⟨idx, hread⟩ := h.owner_reads hp hcopy hqown
  rw [hread] at hq
  cases hq

end Exclusive

namespace Shipped

theorem ne_cur (g : Shipped cfg s) (hno : ¬ ∃ q, s.pc q = .renew) :
    ∀ e ∈ s.sent, e.id ≠ s.cur :=
  fun _ he heq => hno (g.left.mp (heq ▸ List.mem_map_of_mem he))

/-- A step that leaves the messages that left, from what it does to the one at hand. -/
theorem stay (g : Shipped cfg s)
    (blocks : Blocks localBufSize s'.claims.length (s'.heap s'.cur).slots s'.pending)
    (hrenew : (∃ q, s'.pc q = .renew) ↔ ∃ q, s.pc q = .renew)
    (hheap : ∀ e ∈ s.sent, s'.heap e.id = s.heap e.id) (hcur : s'.cur = s.cur)
    (hsent : s'.sent = s.sent)
    (account : (s'.log : Multiset (ItemT α)) =
      (s.sent.map (Shipment.items cfg)).sum + s'.current cfg + s'.unwritten cfg) :
    Shipped cfg s' where
  blocks := blocks
  older := by
    rw [hsent, hcur]
    exact g.older
  left := by
    rw [hsent, hcur, hrenew]
    exact g.left
  ids := by
    rw [hsent]
    exact g.ids
  asSent := by
    rw [hsent]
    exact fun e he => (hheap e he).trans (g.asSent e he)
  whole := by
    rw [hsent]
    exact g.whole
  account := by
    rw [hsent]
    exact account

/-- A step that writes no message and ships none, from what it does to the blocks. -/
theorem keep (g : Shipped cfg s)
    (blocks : Blocks localBufSize s'.claims.length (s.heap s.cur).slots s'.pending)
    (hrenew : (∃ q, s'.pc q = .renew) ↔ ∃ q, s.pc q = .renew) (hheap : s'.heap = s.heap)
    (hcur : s'.cur = s.cur) (hsent : s'.sent = s.sent)
    (hlog : (s'.log : Multiset (ItemT α)) + s.unwritten cfg = s.log + s'.unwritten cfg) :
    Shipped cfg s' := by
  refine g.stay ?_ hrenew (fun e _ => by rw [hheap]) hcur hsent ?_
  · rw [hheap, hcur]
    exact blocks
  · have hcurrent : s'.current cfg = s.current cfg := by
      unfold Node.current
      rw [hsent, hcur, hheap]
    rw [g.account, add_right_comm] at hlog
    rw [hcurrent]
    exact add_right_cancel hlog

theorem move (g : Shipped cfg s) (hp : p < cfg.numPes) {c₀ : Pc α} (hpc₀ : s.pc p = c₀)
    (hpc : s'.pc = Function.update s.pc p c) (hpend : c.pending = c₀.pending)
    (hitems : c.unwritten = c₀.unwritten) (hrenew : c = .renew ↔ c₀ = .renew)
    (hheap : s'.heap = s.heap) (hcur : s'.cur = s.cur) (hsent : s'.sent = s.sent)
    (hclaims : s'.claims = s.claims) (hlog : s'.log = s.log) : Shipped cfg s' := by
  subst hpc₀
  apply g.keep ?_ (Node.renewing_update hpc hrenew) hheap hcur hsent
  · rw [hlog, Node.unwritten_eq hp hpc hitems]
  · rw [hclaims, Node.pending_eq hpc hpend]
    exact g.blocks

/-- A `local_buf` comes to `copyToNodeBuf`. -/
theorem copy (g : Shipped cfg s) (hp : p < cfg.numPes) {items : List (ItemT α)}
    (hpc : s.pc p = .idle) (hpc' : s'.pc = Function.update s.pc p (.claim items))
    (hheap : s'.heap = s.heap) (hcur : s'.cur = s.cur) (hsent : s'.sent = s.sent)
    (hclaims : s'.claims = s.claims) (hlog : s'.log = s.log ++ items) : Shipped cfg s' := by
  have hunwritten := Node.unwritten_update hp hpc'
  rw [hpc] at hunwritten
  apply g.keep ?_ (Node.renewing_update hpc' (by simp [hpc])) hheap hcur hsent
  · have hunwritten : s'.unwritten cfg + 0 = s.unwritten cfg + (items : Multiset _) := hunwritten
    rw [add_zero] at hunwritten
    rw [hlog, ← Multiset.coe_add, hunwritten, add_right_comm, add_assoc]
  · rw [hclaims, Node.pending_eq hpc' (by rw [hpc]; rfl)]
    exact g.blocks

theorem claim (h : Exclusive cfg s) (g : Shipped cfg s) (hp : p < cfg.numPes)
    {items : List (ItemT α)} (hpc : s.pc p = .claim items) (hlt : s.getIdx < cfg.bufSize)
    (hpc' : s'.pc = Function.update s.pc p (.write items s.getIdx 0))
    (hclaims : s'.claims = s.claims ++ [s.getIdx]) (hheap : s'.heap = s.heap)
    (hcur : s'.cur = s.cur) (hsent : s'.sent = s.sent) (hlog : s'.log = s.log) :
    Shipped cfg s' := by
  have hnone : s.pending p = none := by simp [Node.pending, hpc, Pc.pending]
  have hidx : s.getIdx / localBufSize = s.claims.length := by
    rw [(h.unlocked hlt).1]
    exact Nat.mul_div_cancel_left _ (by decide)
  apply g.keep ?_ (Node.renewing_update hpc' (by simp [hpc])) hheap hcur hsent
  · rw [hlog, Node.unwritten_eq hp hpc' (by rw [hpc]; rfl)]
  · rw [Node.pending_update hpc', hclaims, List.length_append]
    simp only [Pc.pending, hidx]
    exact g.blocks.claim hnone

theorem count (g : Shipped cfg s) (hp : p < cfg.numPes) {idx : ℕ} (hpc : s.pc p = .count idx)
    (hpc' : s'.pc = Function.update s.pc p c) (hpend : c.pending = none) (hitems : c.unwritten = 0)
    (hne : c ≠ .renew) (hclaims : s'.claims = s.claims) (hheap : s'.heap = s.heap)
    (hcur : s'.cur = s.cur) (hsent : s'.sent = s.sent) (hlog : s'.log = s.log) :
    Shipped cfg s' := by
  have hsome : s.pending p = some (idx / localBufSize, localBufSize) := by
    simp [Node.pending, hpc, Pc.pending]
  apply g.keep ?_ (Node.renewing_update hpc' (by simp [hpc, hne])) hheap hcur hsent
  · rw [hlog, Node.unwritten_eq hp hpc' (by rw [hpc, hitems]; rfl)]
  · rw [Node.pending_update hpc', hclaims, hpend]
    exact g.blocks.release hsome

/-- An item is written to its slot, which was empty. -/
theorem store (h : Exclusive cfg s) (g : Shipped cfg s) (hp : p < cfg.numPes)
    {items : List (ItemT α)} {idx i m : ℕ} {x : ItemT α} (hpc : s.pc p = .store items idx i m x)
    (hpc' : s'.pc = Function.update s.pc p (.write items idx (i + 1)))
    (hheap : s'.heap = Function.update s.heap m ((s.heap m).setItem (idx + i) x))
    (hcur : s'.cur = s.cur) (hsent : s'.sent = s.sent) (hclaims : s'.claims = s.claims)
    (hlog : s'.log = s.log) : Shipped cfg s' := by
  have hmine := h.holds p
  rw [hpc] at hmine
  obtain ⟨hlen, hx, hidx, rfl⟩ := hmine
  obtain ⟨hi, hx⟩ := List.getElem?_eq_some_iff.mp hx
  have hdrop : items.drop i = x :: items.drop (i + 1) := by
    rw [← hx]
    exact List.drop_eq_getElem_cons hi
  rw [hlen] at hi
  have hslot : localBufSize * (idx / localBufSize) = idx := Nat.mul_div_cancel' hidx
  have hsome : s.pending p = some (idx / localBufSize, i) := by
    simp [Node.pending, hpc, Pc.pending]
  have hno := h.not_renewing_of_pending hp (by simp [hpc, Pc.pending])
  have hnot := g.ne_cur hno
  have hcurNot : s.cur ∉ s.sent.map Shipment.id := fun hmem => hno (g.left.mp hmem)
  have hslots : (s'.heap s'.cur).slots =
      Function.update (s.heap s.cur).slots (idx + i) (some x) := by
    rw [hcur, hheap, Function.update_self]
    rfl
  refine g.stay ?_ (Node.renewing_update hpc' (by simp [hpc])) ?_ hcur hsent ?_
  · rw [hslots, hclaims, Node.pending_update hpc']
    have := g.blocks.write hsome hi x
    rw [hslot] at this
    exact this
  · intro e he
    rw [hheap, Function.update_of_ne (hnot e he)]
  · have hempty : (s.heap s.cur).slots (idx + i) = none := by
      have := g.blocks.ahead hsome le_rfl hi
      rwa [hslot] at this
    have hlt : idx + i < cfg.bufSize := by
      have := lt_block_end (g.blocks.claimed hsome) hi
      rw [hslot] at this
      exact this.trans_le h.within
    have hunwritten : s.unwritten cfg = x ::ₘ s'.unwritten cfg := by
      have hmoved := Node.unwritten_update hp hpc'
      rw [hpc] at hmoved
      have hmoved : s'.unwritten cfg + (items.drop i : List (ItemT α)) =
        s.unwritten cfg + (items.drop (i + 1) : List (ItemT α)) := hmoved
      rw [hdrop, ← Multiset.cons_coe, Multiset.add_cons, ← Multiset.cons_add] at hmoved
      exact (add_right_cancel hmoved).symm
    rw [Node.current_of_not_sent (by rw [hsent, hcur]; exact hcurNot), hslots,
      contents_write hempty x hlt, hlog, g.account, Node.current_of_not_sent hcurNot,
      hunwritten, Multiset.add_cons, Multiset.add_cons, Multiset.cons_add]

/-- `next` is set in the message that is about to leave. -/
theorem putNext (h : Exclusive cfg s) (g : Shipped cfg s) (hp : p < cfg.numPes) {next m : ℕ}
    (hpc : s.pc p = .putNext next m) (hpc' : s'.pc = Function.update s.pc p .send)
    (hheap : s'.heap = Function.update s.heap m { s.heap m with next := next })
    (hcur : s'.cur = s.cur) (hsent : s'.sent = s.sent) (hclaims : s'.claims = s.claims)
    (hlog : s'.log = s.log) : Shipped cfg s' := by
  have hmine := h.holds p
  rw [hpc] at hmine
  obtain ⟨-, -, -, rfl⟩ := hmine
  have hnot := g.ne_cur (h.not_renewing (p := p) (by rw [hpc]; trivial) (by simp [hpc]))
  have hslots : (s'.heap s.cur).slots = (s.heap s.cur).slots := by
    rw [hheap, Function.update_self]
  refine g.stay ?_ (Node.renewing_update hpc' (by simp [hpc])) ?_ hcur hsent ?_
  · rw [hcur, hslots, hclaims, Node.pending_eq hpc' (by rw [hpc]; rfl)]
    exact g.blocks
  · intro e he
    rw [hheap, Function.update_of_ne (hnot e he)]
  · unfold Node.current
    rw [hlog, hsent, hcur, hslots, Node.unwritten_eq hp hpc' (by rw [hpc]; rfl)]
    exact g.account

/-- The message is whole when it is handed over. -/
theorem whole_cur (h : Exclusive cfg s) (g : Shipped cfg s) {m : ℕ} (hpc : s.pc p = .handOver m) :
    Shipment.Whole cfg ⟨m, s.heap m, s.claims⟩ := by
  have hmine := h.holds p
  rw [hpc] at hmine
  obtain ⟨hdone, -, hnext, rfl⟩ := hmine
  unfold Node.Complete at hdone
  rw [hdone] at hnext
  have hown : (s.pc p).Owns cfg := by
    rw [hpc]
    trivial
  have hzero := h.copying_eq_zero hdone (h.ne_zeroDone hown (by simp [hpc]))
  have hfull := g.blocks.full (h.pending_eq_none hzero)
  refine ⟨hnext, ?_, fun j => ?_, fun a ha i hi => ?_⟩
  · show (s.heap s.cur).next ≤ _
    rw [hnext]
    exact Int.ofNat_le.mpr h.within
  · show _ ↔ (j : ℤ) < (s.heap s.cur).next
    rw [hnext, Int.ofNat_lt]
    exact hfull j
  · have ha : a ∈ s.claims := ha
    rw [h.inOrder] at ha
    obtain ⟨k, hk, rfl⟩ := List.mem_map.mp ha
    exact (hfull _).mpr (lt_block_end (List.mem_range.mp hk) hi)

/-- The message leaves. -/
theorem handOver (h : Exclusive cfg s) (g : Shipped cfg s) (hp : p < cfg.numPes) {m : ℕ}
    (hpc : s.pc p = .handOver m) (hpc' : s'.pc = Function.update s.pc p .renew)
    (hheap : s'.heap = s.heap) (hcur : s'.cur = s.cur)
    (hsent : s'.sent = s.sent ++ [⟨m, s.heap m, s.claims⟩]) (hclaims : s'.claims = s.claims)
    (hlog : s'.log = s.log) : Shipped cfg s' := by
  have hwhole := whole_cur h g hpc
  have hmine := h.holds p
  rw [hpc] at hmine
  obtain ⟨-, -, -, rfl⟩ := hmine
  have hno := h.not_renewing (p := p) (by rw [hpc]; trivial) (by simp [hpc])
  have hcurNot : s.cur ∉ s.sent.map Shipment.id := fun hmem => hno (g.left.mp hmem)
  have hmem : s'.cur ∈ s'.sent.map Shipment.id := by
    rw [hcur, hsent]
    simp
  refine ⟨?_, ?_, ?_, ?_, ?_, ?_, ?_⟩
  · rw [hcur, hheap, hclaims, Node.pending_eq hpc' (by rw [hpc]; rfl)]
    exact g.blocks
  · rw [hsent, hcur, List.forall_mem_append, List.forall_mem_singleton]
    exact ⟨g.older, le_rfl⟩
  · refine iff_of_true hmem ⟨p, ?_⟩
    rw [hpc', Function.update_self]
  · rw [hsent, List.map_append, List.nodup_append_comm]
    exact List.nodup_cons.mpr ⟨hcurNot, g.ids⟩
  · rw [hsent, hheap, List.forall_mem_append, List.forall_mem_singleton]
    exact ⟨g.asSent, rfl⟩
  · rw [hsent, List.forall_mem_append, List.forall_mem_singleton]
    exact ⟨g.whole, hwhole⟩
  · rw [Node.current_of_sent hmem, hlog, hsent, g.account, Node.current_of_not_sent hcurNot,
      List.map_append, List.sum_append, add_zero, Node.unwritten_eq hp hpc' (by rw [hpc]; rfl)]
    simp [Shipment.items]

/-- A new message, with nothing in it, takes the place of the one that left. -/
theorem renew (h : Exclusive cfg s) (g : Shipped cfg s) (hp : p < cfg.numPes)
    (hpc : s.pc p = .renew) {n : ℕ} (hpc' : s'.pc = Function.update s.pc p .zeroDone)
    (hheap : s'.heap = Function.update s.heap (s.cur + 1) (newMessage n))
    (hcur : s'.cur = s.cur + 1) (hsent : s'.sent = s.sent) (hclaims : s'.claims = [])
    (hlog : s'.log = s.log) : Shipped cfg s' := by
  have hmine := h.holds p
  rw [hpc] at hmine
  have hown : (s.pc p).Owns cfg := by
    rw [hpc]
    trivial
  have hzero := h.copying_eq_zero hmine.1 (h.ne_zeroDone hown (by simp [hpc]))
  have hslots : (s'.heap s'.cur).slots = fun _ => none := by
    rw [hcur, hheap, Function.update_self]
    rfl
  have hcurNot : s'.cur ∉ s'.sent.map Shipment.id := by
    rw [hsent, hcur]
    intro hmem
    obtain ⟨e, he, heq⟩ := List.mem_map.mp hmem
    have := g.older e he
    omega
  refine ⟨?_, ?_, ?_, ?_, ?_, ?_, ?_⟩
  · rw [hslots, hclaims, Node.pending_eq hpc' (by rw [hpc]; rfl)]
    exact Blocks.empty _ (h.pending_eq_none hzero)
  · rw [hsent, hcur]
    exact fun e he => (g.older e he).trans (Nat.le_succ _)
  · refine iff_of_false hcurNot ?_
    rintro ⟨q, hq⟩
    rw [hpc'] at hq
    by_cases hqp : q = p
    · rw [hqp, Function.update_self] at hq
      cases hq
    · rw [Function.update_of_ne hqp] at hq
      have hqown : (s.pc q).Owns cfg := by
        rw [hq]
        trivial
      exact hqp (h.alone hqown hown)
  · rw [hsent]
    exact g.ids
  · rw [hsent, hheap]
    intro e he
    have := g.older e he
    rw [Function.update_of_ne (by omega)]
    exact g.asSent e he
  · rw [hsent]
    exact g.whole
  · rw [Node.current_of_not_sent hcurNot, hslots, contents_empty, hlog, hsent, g.account,
      Node.current_of_sent (g.left.mpr ⟨p, hpc⟩), Node.unwritten_eq hp hpc' (by rw [hpc]; rfl)]

/-! ## Every step -/

theorem init (cfg : NodeConfig) : Shipped cfg (Node.init cfg : Node α) where
  blocks := Blocks.empty _ fun _ => rfl
  older := nofun
  left := iff_of_false (List.not_mem_nil) (by simp [Node.init])
  ids := List.nodup_nil
  asSent := nofun
  whole := nofun
  account := by simp [Node.init, Node.current, Node.unwritten, Pc.unwritten, newMessage]

theorem run (h : Exclusive cfg s) (g : Shipped cfg s) (hp : p < cfg.numPes) :
    Shipped cfg (s.run cfg p) := by
  have hmine := h.holds p
  unfold Node.run
  cases hpc : s.pc p <;> rw [hpc] at hmine <;> dsimp only
  case idle => exact g
  case claim items =>
    split_ifs with hge
    · exact g.keep g.blocks Iff.rfl rfl rfl rfl rfl
    · exact claim h g hp hpc (not_le.mp hge) rfl rfl rfl rfl rfl rfl
  case write items idx i =>
    obtain ⟨hlen, hi, -⟩ := hmine
    cases hx : items[i]? with
    | none =>
      have hi : i = localBufSize := by
        have := List.getElem?_eq_none_iff.mp hx
        omega
      have hdrop : items.drop i = [] := List.drop_eq_nil_of_le (by omega)
      subst hi
      refine g.move (c := .count idx) hp hpc rfl rfl ?_ (by simp) rfl rfl rfl rfl rfl
      simp only [Pc.unwritten, hdrop]
      rfl
    | some x =>
      exact g.move (c := .store items idx i s.cur x) hp hpc rfl rfl rfl (by simp)
        rfl rfl rfl rfl rfl
  case store items idx i m x => exact store h g hp hpc rfl rfl rfl rfl rfl rfl
  case count idx =>
    refine g.count hp hpc rfl ?_ ?_ ?_ rfl rfl rfl rfl rfl
    · split_ifs <;> rfl
    · split_ifs <;> rfl
    · split_ifs <;> simp [Role.ships]
  case mail last =>
    refine g.move hp hpc rfl ?_ ?_ ?_ rfl rfl rfl rfl rfl
    · split_ifs <;> rfl
    · split_ifs <;> rfl
    · split_ifs <;> simp
  case await role target j sum =>
    refine g.move hp hpc rfl ?_ ?_ ?_ rfl rfl rfl rfl rfl
    · split_ifs <;> rfl
    · split_ifs <;> rfl
    · split_ifs <;> simp
  case clear role j =>
    split_ifs
    · exact g.move hp hpc rfl rfl rfl (by simp) rfl rfl rfl rfl rfl
    · refine g.move hp hpc rfl ?_ ?_ ?_ rfl rfl rfl rfl rfl
      · cases role <;> rfl
      · cases role <;> rfl
      · cases role <;> simp [Role.ships]
  case putNext next m => exact putNext h g hp hpc rfl rfl rfl rfl rfl rfl
  case handOver m => exact handOver h g hp hpc rfl rfl rfl rfl rfl rfl
  case renew => exact renew h g hp hpc rfl rfl rfl rfl rfl rfl
  case check =>
    refine g.move hp hpc rfl ?_ ?_ ?_ rfl rfl rfl rfl rfl
    · split_ifs <;> rfl
    · split_ifs <;> rfl
    · split_ifs <;> simp
  case read idx =>
    split_ifs
    · exact g.move hp hpc rfl rfl rfl (by simp) rfl rfl rfl rfl rfl
    · exact g
    · exact g.move hp hpc rfl rfl rfl (by simp) rfl rfl rfl rfl rfl
    · exact g.move hp hpc rfl rfl rfl (by simp) rfl rfl rfl rfl rfl
  all_goals exact g.move hp hpc rfl rfl rfl (by simp) rfl rfl rfl rfl rfl

theorem step (h : Exclusive cfg s) (g : Shipped cfg s) (hstep : Node.Step cfg s s') :
    Shipped cfg s' := by
  cases hstep with
  | copy hp hidle hfull => exact g.copy hp hidle rfl rfl rfl rfl rfl rfl
  | flush hp hidle => exact g.move hp hidle rfl rfl rfl (by simp) rfl rfl rfl rfl rfl
  | run hp => exact run h g hp

/-- The invariant holds in every run. -/
theorem of_reachable (h : Node.Reachable cfg s) : Shipped cfg s := by
  induction h with
  | refl => exact init cfg
  | tail hreach hstep ih => exact ih.step (Exclusive.of_reachable hreach) hstep

end Shipped

/-! ## What holds of a run -/

theorem Shipment.Whole.received {e : Shipment α} (h : e.Whole cfg) :
    (e.msg.received : Multiset (Option (ItemT α))) = (e.items cfg).map some := by
  obtain ⟨n, hn⟩ : ∃ n : ℕ, e.msg.next = n := ⟨localBufSize * e.claims.length, h.next⟩
  have hfits := h.fits
  have hwritten := h.written
  unfold Message.received Shipment.items
  rw [hn] at hfits hwritten ⊢
  obtain ⟨l, hl⟩ := Nat.exists_eq_add_of_le (Int.ofNat_le.mp hfits)
  have hbeyond : ∀ j ≥ n, e.msg.slots j = none := by
    intro j hj
    by_contra hne
    have := (hwritten j).mp hne
    omega
  rw [hl, contents_beyond hbeyond, contents_full fun j hj => (hwritten j).mpr (Int.ofNat_lt.mpr hj)]
  rfl

namespace Node

/-- What the PEs of a node rely on. The first slots of the ranges claimed are in order and a range
    apart; a PE writes to an empty slot of a range that nobody else has, in a message that has not
    left; a message that left has all that was claimed in it, left once and stays as it was; one
    PE at a time has the buffer to itself; and what came to `copyToNodeBuf` is in the messages or
    yet to be written, every item once. -/
structure Safe (cfg : NodeConfig) (s : Node α) : Prop where
  apart : s.claims.Pairwise fun a b => a + localBufSize ≤ b
  writes : ∀ {p items idx i m x}, s.pc p = .store items idx i m x →
    idx ∈ s.claims ∧ i < localBufSize ∧ (s.heap m).slots (idx + i) = none ∧ ∀ e ∈ s.sent, e.id ≠ m
  own : ∀ {p q items items' idx idx' i i' m m' x x'}, p ≠ q →
    s.pc p = .store items idx i m x → s.pc q = .store items' idx' i' m' x' → idx ≠ idx'
  whole : ∀ e ∈ s.sent, e.Whole cfg
  once : (s.sent.map Shipment.id).Nodup
  asSent : ∀ e ∈ s.sent, s.heap e.id = e.msg
  alone : ∀ {p q}, (s.pc p).Owns cfg → (s.pc q).Owns cfg → p = q
  account : (s.log : Multiset (ItemT α)).map some =
    (s.sent.map fun e => (e.msg.received : Multiset (Option (ItemT α)))).sum +
      (s.current cfg + s.unwritten cfg).map some

/-- In any interleaving, the shared buffer neither loses, duplicates nor overwrites an item. -/
theorem reachable_safe (hreach : Reachable cfg s) : s.Safe cfg := by
  have h := Exclusive.of_reachable hreach
  have g := Shipped.of_reachable hreach
  refine ⟨?_, ?_, ?_, g.whole, g.ids, g.asSent, h.alone, ?_⟩
  · rw [h.inOrder, List.pairwise_map]
    apply List.pairwise_lt_range.imp
    intro a b hab
    rw [← Nat.mul_succ]
    exact Nat.mul_le_mul_left _ hab
  · intro p items idx i m x hpc
    have hmine := h.holds p
    rw [hpc] at hmine
    obtain ⟨hlen, hx, hidx, rfl⟩ := hmine
    have hi := (List.getElem?_eq_some_iff.mp hx).1
    rw [hlen] at hi
    have hslot : localBufSize * (idx / localBufSize) = idx := Nat.mul_div_cancel' hidx
    have hsome : s.pending p = some (idx / localBufSize, i) := by
      simp [pending, hpc, Pc.pending]
    have hp : p < cfg.numPes := by
      by_contra hge
      rw [h.outside p (not_lt.mp hge)] at hpc
      cases hpc
    refine ⟨?_, hi, ?_, ?_⟩
    · rw [h.inOrder, ← hslot]
      exact List.mem_map_of_mem (List.mem_range.mpr (g.blocks.claimed hsome))
    · have := g.blocks.ahead hsome le_rfl hi
      rwa [hslot] at this
    · exact g.ne_cur (h.not_renewing_of_pending hp (by simp [hpc, Pc.pending]))
  · intro p q items items' idx idx' i i' m m' x x' hpq hp hq heq
    subst heq
    have hpsome : s.pending p = some (idx / localBufSize, i) := by
      simp [pending, hp, Pc.pending]
    have hqsome : s.pending q = some (idx / localBufSize, i') := by
      simp [pending, hq, Pc.pending]
    exact hpq (g.blocks.own hpsome hqsome)
  · have hsum : (s.sent.map fun e => (e.msg.received : Multiset (Option (ItemT α)))).sum =
        ((s.sent.map (Shipment.items cfg)).sum).map some := by
      rw [← Multiset.coe_mapAddMonoidHom, map_list_sum, List.map_map]
      exact congrArg List.sum (List.map_congr_left fun e he => (g.whole e he).received)
    rw [hsum, g.account, add_assoc, Multiset.map_add]

/-- A node of two PEs with a shared buffer of 32 items. -/
def twoPes : NodeConfig := ⟨2, 32, 64, true, by decide⟩

/-- Both PEs copy a `local_buf`, one step each in turn. -/
def twoCopies (turns : ℕ) : Node ℕ :=
  let items n := (List.range localBufSize).map fun i => ⟨0, localBufSize * n + i⟩
  let s : Node ℕ := init twoPes
  let s := { s with log := s.log ++ items 0 : Node ℕ }.goto 0 (.claim (items 0))
  let s := { s with log := s.log ++ items 1 : Node ℕ }.goto 1 (.claim (items 1))
  (List.replicate turns [0, 1]).flatten.foldl (fun s p => s.run twoPes p) s

theorem twoCopies_reachable (turns : ℕ) : Reachable twoPes (twoCopies turns) := by
  apply Reachable.turns
  · exact (Relation.ReflTransGen.refl.tail (.copy (by decide) rfl rfl)).tail
      (.copy (by decide) rfl rfl)
  · intro p hp
    obtain ⟨turn, hturn, hp⟩ := List.mem_flatten.mp hp
    rw [List.eq_of_mem_replicate hturn] at hp
    rcases List.mem_pair.mp hp with rfl | rfl <;> decide

theorem reachable_safe_twoCopies : (twoCopies 60).Safe twoPes ∧
    (twoCopies 60).sent.map (fun e => (e.claims, e.msg.next)) = [([0, 16], 32)] :=
  ⟨reachable_safe (twoCopies_reachable 60), by decide +kernel⟩

end Node

end PP

end Htram
