import Htram.Pp.Placed

/-!
# Quiescence under `PP`

`onQD` flushes on every PE and then has every PE count what it has left (`htram_group.C` lines
1203–1246). When no call is running and no message is in flight, the sum is 0 exactly when every
item has been handed over, and it is 0 if every PE flushed after its last insert.

* `Cluster.run_counted`: what the sum says.
* `Cluster.run_drained`: what a flush on every PE achieves.
-/

namespace Htram

namespace PP

open Finset Network SlotBlocks

variable {α : Type*} {cfg : ClusterConfig}

namespace Node

/-- When all PEs are at rest, `done_count` is the number of items that wait. -/
theorem card_waiting {ncfg : NodeConfig} {s : Node α} (hreach : Reachable ncfg s)
    (hidle : ∀ p, s.pc p = .idle) : (s.waiting ncfg).card = s.doneCount := by
  have hex := Exclusive.of_reachable hreach
  have hg := Shipped.of_reachable hreach
  have hcounted := hex.counted fun p => by simp [hidle]
  have hcopying : s.copying ncfg = 0 := by simp [copying, hidle, Pc.copying, Pc.pending]
  have hwritten : s.unwritten ncfg = 0 := by simp [unwritten, hidle, Pc.unwritten]
  have hhere : s.cur ∉ s.sent.map Shipment.id := by
    rw [hg.left]
    rintro ⟨p, hp⟩
    rw [hidle p] at hp
    cases hp
  have hfull := hg.blocks.full fun p => by simp [pending, hidle, Pc.pending]
  obtain ⟨l, hl⟩ := Nat.exists_eq_add_of_le hex.within
  have hcontents := contents_full fun j hj => (hfull j).mpr hj
  rw [← contents_beyond hg.blocks.beyond l, ← hl] at hcontents
  have hcard := congrArg Multiset.card hcontents
  rw [Multiset.card_map, Multiset.coe_card, List.length_map, List.length_range] at hcard
  unfold waiting
  rw [hwritten, add_zero, current_of_not_sent hhere, hcard, ← hcounted, hcopying]
  rfl

end Node

namespace Cluster

variable [Inhabited α] {s t : Cluster α} {es : List (Event α)}

/-- No call is running and no message is in flight. -/
def Quiet (cfg : ClusterConfig) (s : Cluster α) : Prop :=
  s.flight = [] ∧
    ∀ pe < cfg.allPes, ((s.node (cfg.nodeOf pe)).worker (cfg.rankOf pe)).task = .idle

instance (cfg : ClusterConfig) (s : Cluster α) : Decidable (s.Quiet cfg) :=
  inferInstanceAs (Decidable (_ ∧ _))

omit [Inhabited α] in
theorem bufferCount_eq_zero (cfg : ClusterConfig) (s : Cluster α) :
    s.bufferCount cfg = 0 ↔ ∀ n < cfg.numNodes, ∀ r < cfg.numPes, ∀ d < cfg.numNodes,
      ((s.node n).worker r).localBuf d = [] ∧ ((s.node n).shared d).doneCount = 0 := by
  have hblocks : s.bufferCount cfg = ∑ n ∈ range cfg.numNodes, ∑ r ∈ range cfg.numPes,
      ∑ d ∈ range cfg.numNodes, ((((s.node n).worker r).localBuf d).length +
        ((s.node n).shared d).doneCount) := by
    unfold bufferCount ClusterConfig.allPes
    rw [Rows.sum_blocks]
    refine sum_congr rfl fun n _ => sum_congr rfl fun r hr => ?_
    obtain ⟨hnode, hrank⟩ := cfg.pe_unique (mem_range.mp hr) rfl
    unfold countBuffers
    dsimp only
    rw [← hnode, ← hrank]
  rw [hblocks]
  simp only [sum_eq_zero_iff, mem_range, Nat.add_eq_zero_iff, List.length_eq_zero_iff]

section Quiet

variable {done : Set ℕ} {n : ℕ} (hs : s.Sound cfg done) (hquiet : s.Quiet cfg)
include hs hquiet

omit [Inhabited α] hs in
theorem Quiet.task (hn : n < cfg.numNodes) {r : ℕ} (hr : r < cfg.numPes) :
    ((s.node n).worker r).task = .idle := by
  obtain ⟨hnode, hrank⟩ := cfg.pe_unique hr rfl
  have htask := hquiet.2 _ (ClusterConfig.pe_lt hn hr)
  rwa [← hnode, ← hrank] at htask

omit [Inhabited α] in
theorem Quiet.rests (hn : n < cfg.numNodes) {d : ℕ} (hd : d < cfg.numNodes) (p : ℕ) :
    ((s.node n).shared d).pc p = .idle := by
  have hnode := hs.node n hn
  by_cases hp : p < cfg.numPes
  · apply hnode.rests hd
    simp [Quiet.task hquiet hn hp, Task.At]
  · exact (Exclusive.of_reachable (hnode.reachable hd)).outside p (not_lt.mp hp)

omit [Inhabited α] in
/-- The number of items that wait on a node. -/
theorem Quiet.card_waiting (hn : n < cfg.numNodes) :
    ((s.node n).waiting cfg).card =
      ∑ r ∈ range cfg.numPes, ∑ d ∈ range cfg.numNodes,
        (((s.node n).worker r).localBuf d).length +
          ∑ d ∈ range cfg.numNodes, ((s.node n).shared d).doneCount := by
  unfold Host.waiting
  rw [Multiset.card_add, Multiset.card_sum, Multiset.card_sum]
  congr 1
  · refine sum_congr rfl fun r hr => ?_
    have htask := Quiet.task hquiet hn (mem_range.mp hr)
    rw [Host.buffered_idle cfg (by simp [htask]), Multiset.card_sum]
    rfl
  · refine sum_congr rfl fun d hd => ?_
    have hd := mem_range.mp hd
    exact Node.card_waiting ((hs.node n hn).reachable hd) (Quiet.rests hs hquiet hn hd)

omit [Inhabited α] in
theorem Quiet.waiting_eq_zero : s.waiting cfg = 0 ↔ s.bufferCount cfg = 0 := by
  have hnode : ∀ n < cfg.numNodes, (s.node n).waiting cfg = 0 ↔
      (∀ r < cfg.numPes, ∀ d < cfg.numNodes, ((s.node n).worker r).localBuf d = []) ∧
        ∀ d < cfg.numNodes, ((s.node n).shared d).doneCount = 0 := by
    intro n hn
    rw [← Multiset.card_eq_zero, Quiet.card_waiting hs hquiet hn]
    simp only [Nat.add_eq_zero_iff, sum_eq_zero_iff, mem_range, List.length_eq_zero_iff]
  unfold waiting
  rw [bufferCount_eq_zero, sum_eq_zero_iff]
  refine forall_congr' fun n => ?_
  rw [mem_range]
  refine forall_congr' fun hn => ?_
  rw [hnode n hn]
  constructor
  · exact fun h r hr d hd => ⟨h.1 r hr d hd, h.2 d hd⟩
  · exact fun h => ⟨fun r hr d hd => (h r hr d hd).1, fun d hd => (h 0 cfg.hasPes d hd).2⟩

end Quiet

/-- In a quiet state every item waits on its node or has been handed over. -/
theorem run_quiet (hrun : run cfg es (start cfg) = some t) (hquiet : t.Quiet cfg) :
    inserted es = t.waiting cfg + t.handed cfg := by
  have hnone : t.inFlight cfg = 0 := by
    unfold inFlight
    rw [hquiet.1, List.map_nil, List.sum_nil]
  rw [run_items hrun, hnone, add_zero]

/-- In a quiet state in which every PE flushed after its last insert, every client has been handed
    all its items, and `onBufferCount` gets 0. -/
theorem run_drained (hpos : 0 < cfg.bufSize) (hrun : run cfg es (start cfg) = some t)
    (hquiet : t.Quiet cfg) (hflushed : ∀ pe < cfg.allPes, pe ∈ flushed es) :
    t.bufferCount cfg = 0 ∧
      ∀ pe < cfg.allPes, (t.delivered cfg pe : Multiset α) = forPe pe (inserted es) := by
  obtain ⟨hsound, -⟩ := run_sound (start_sound cfg) hrun
  have hcount : t.bufferCount cfg = 0 := by
    rw [bufferCount_eq_zero]
    intro n hn r hr d hd
    have hnode := hsound.node n hn
    have hranks : ∀ q < cfg.numPes, q ∈ ranks cfg (flushed es) n := by
      intro q hq
      exact ⟨hq, hflushed _ (ClusterConfig.pe_lt hn hq)⟩
    have hidle : ∀ q < cfg.numPes, ((t.node n).worker q).task = .idle :=
      fun q => Quiet.task hquiet hn
    refine ⟨(hnode.flushed r (hranks r hr)).emptied d hd ?_, ?_⟩
    · rw [hidle r hr]
      trivial
    · obtain ⟨quiet, hends, hlooked⟩ := hnode.ends d hd
      refine (hends.ships hpos (fun q hq => hlooked q (hranks q hq) ?_)
        (Quiet.rests hsound hquiet hn hd)).2.1
      rw [hidle q hq]
      trivial
  have hempty := (Quiet.waiting_eq_zero hsound hquiet).mpr hcount
  refine ⟨hcount, fun pe hpe => ?_⟩
  rw [run_quiet hrun hquiet, hempty, zero_add, forPe_handed t hpe]

end Cluster

end PP

end Htram
