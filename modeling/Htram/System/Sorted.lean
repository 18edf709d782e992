import Htram.Pe.SourceSorted
import Htram.System.Events

/-!
# The machine that sorts at the source

All PEs under `WsP`, as the constructor leaves them in a build without `BUCKETS_BY_DEST`, and the
messages in flight. A node hands a message that arrives to each of its PEs, and each looks for its
own items when it gets it.

* `SortedSystem.step_items`: no event loses or doubles an item.
* `SortedSystem.run_scanned`: what a run keeps.
-/

namespace Htram

open Network RankSort HTramRecv

variable {α F : Type*}

/-- A message in flight: for a node, or for a PE whose node has got it. -/
inductive SortedPacket (α : Type*)
  | buffer (dest : ℕ) (sent : Sent α)
  | slice (pe : ℕ) (msg : HTramMessage α)

/-- All PEs and the messages in flight. -/
abbrev SortedSystem (α F : Type*) := Net (Branch α F) (SortedPacket α)

/-- What a PE has sent from `p` to `q`, node by node. -/
def HTram.outgoingSorted (cfg : Config α) (p q : HTram α F) : List (SortedPacket α) :=
  (List.range (p.destCount cfg)).flatMap fun d =>
    ((q.dest d).sent.drop (p.dest d).sent.length).map (SortedPacket.buffer d)

/-- A call of the client on a PE, or the arrival of message `k`. -/
inductive SortedEvent (α F : Type*)
  | call (pe : ℕ) (op : Op α F)
  | deliver (k : ℕ)

namespace SortedSystem

/-- A call has left PE `pe` in `q`. -/
def ended (cfg : Config α) (pe : ℕ) (q : HTram α F) (s : SortedSystem α F) : SortedSystem α F :=
  (s.set pe { s.node pe with tram := q }).emit ((s.node pe).tram.outgoingSorted cfg q)

/-- A call of PE `pe` ends. -/
def settle (cfg : Config α) (pe : ℕ) (s : SortedSystem α F) :
    Outcome (HTram α F) → Option (SortedSystem α F)
  | .returns q => some (s.ended cfg pe q)
  | _ => none

/-- PE `pe` looks for its items and hands them to the client (lines 1290–1312). -/
def hand (pe : ℕ) (msg : HTramMessage α) (s : SortedSystem α F) : SortedSystem α F :=
  s.set pe
    { s.node pe with
      delivered := (s.node pe).delivered ++ msg.receivePerPE pe
      totRecvCount := (s.node pe).totRecvCount + (msg.receivePerPE pe).length }

/-- A message arrives: at a node (`receive_no_sort`), or at a PE (`receivePerPE`). -/
def arrive (cfg : Config α) (s : SortedSystem α F) :
    SortedPacket α → Option (SortedSystem α F)
  | .buffer d sent =>
    match sent.entry with
    | .receiveNoSort =>
      some (s.emit ((HTramRecv.receiveNoSort (cfg.node d) sent.msg).map fun p => .slice p.1 p.2))
    | _ => none
  | .slice pe msg => some (s.hand pe msg)

variable [Inhabited α] [ReleaseArith F]

/-- All PEs as the constructor leaves them. -/
def start (bufSize : ℕ) : SortedSystem α F := ⟨fun _ => ⟨HTram.init .WsP bufSize, [], 0⟩, []⟩

/-- One event. -/
def step (cfg : Config α) (s : SortedSystem α F) : SortedEvent α F → Option (SortedSystem α F)
  | .call pe op =>
    if pe < cfg.numPes then s.settle cfg pe ((s.node pe).tram.step cfg op) else none
  | .deliver k => s.flight[k]?.bind (arrive cfg (s.take k))

/-- A run of events. -/
def run (cfg : Config α) : List (SortedEvent α F) → SortedSystem α F → Option (SortedSystem α F) :=
  runs (step cfg)

end SortedSystem

/-! ## Where items can be -/

/-- An item, and the PE that it is for. -/
def Item.addressed (x : Item α) : ℕ × α := (x.destPe, x.payload)

def Input.addressed (x : Input α) : ℕ × α := (x.destPe, x.item)

/-- The items that wait for a message to a node. -/
def Dest.gathered (cfg : Config α) (d : Dest α) : Multiset (ℕ × α) :=
  ∑ r ∈ Finset.range cfg.nodeSize, ((d.localBuffers r).map Item.addressed : List (ℕ × α))

/-- The items that wait on a PE. -/
def HTram.gathered (cfg : Config α) (p : HTram α F) : Multiset (ℕ × α) :=
  ∑ n ∈ Finset.range cfg.numNodes, (p.dest n).gathered cfg

/-- What a call inserts. -/
def Op.inserted : Op α F → Multiset (ℕ × α)
  | .insertValue x pe => {(pe, x)}
  | _ => 0

namespace SortedPacket

/-- The items of a message in flight. -/
def items : SortedPacket α → Multiset (ℕ × α)
  | .buffer _ s => (s.msg.received.map Item.addressed : List (ℕ × α))
  | .slice pe msg => ((msg.receivePerPE pe).map (Prod.mk pe) : List (ℕ × α))

/-- A message to a node has items for that node's PEs, sorted by PE. -/
def Sound (cfg : Config α) : SortedPacket α → Prop
  | .buffer d s => d < cfg.numNodes ∧ s.entry = .receiveNoSort ∧
      (s.msg.received.Pairwise fun x y => x.destPe ≤ y.destPe) ∧
      ∀ x ∈ s.msg.received, (cfg.node d).Owns x.destPe
  | .slice pe _ => pe < cfg.numPes

end SortedPacket

/-! ## One destination -/

namespace Dest

variable {cfg : Config α} {n : ℕ} {h : History α} {d d' : Dest α} {new : List (Input α)}

theorem Gathering.gathered {since : List (Item α)} (hd : d.Gathering cfg n since) :
    d.gathered cfg = (since.map Item.addressed : List (ℕ × α)) := by
  have hperm : (gather (cfg.node n).rank cfg.nodeSize since).Perm since :=
    gather_perm _ (rank_lt hd.owned)
  unfold Dest.gathered
  rw [Rows.sum_coe, ← List.map_flatMap, hd.flatMap, Multiset.coe_eq_coe]
  exact hperm.map _

theorem Logged.gathered (hd : d.Logged cfg n h) :
    d.gathered cfg = (h.since.map Input.addressed : List (ℕ × α)) := by
  obtain ⟨-, since, hsince, hg⟩ := hd
  rw [hg.gathered, ← hsince, List.map_map]
  rfl

theorem Logged.owned (hd : d.Logged cfg n h) : ∀ x ∈ h.since, (cfg.node n).Owns x.destPe := by
  obtain ⟨-, since, hsince, hg⟩ := hd
  intro x hx
  rw [← hsince] at hx
  obtain ⟨y, hy, rfl⟩ := List.mem_map.mp hx
  exact hg.owned y hy

end Dest

/-- The items of a message that is shipped, and that the PEs of its node can find them. -/
theorem Carries.packet {cfg : Config α} {n : ℕ} {chunk : List (Input α)} {s : Sent α}
    (hs : Carries (cfg.node n) chunk s) (hn : n < cfg.numNodes)
    (howns : ∀ x ∈ chunk, (cfg.node n).Owns x.destPe) :
    (SortedPacket.buffer n s).Sound cfg ∧
      (SortedPacket.buffer n s).items = (chunk.map Input.addressed : List (ℕ × α)) := by
  refine ⟨⟨hn, hs.entry, hs.sorted, fun x hx => ?_⟩, ?_⟩
  · exact howns x.input (hs.items.mem_iff.mp (List.mem_map_of_mem hx))
  · have hperm := hs.items.map Input.addressed
    rw [List.map_map] at hperm
    exact Multiset.coe_eq_coe.mpr hperm

namespace Dest

variable {cfg : Config α} {n : ℕ} {h : History α} {d d' : Dest α} {new : List (Input α)}

/-- What a call does to the items of a destination. -/
theorem Logged.moves (hd : d.Logged cfg n h)
    (hd' : d'.Logged cfg n (h.after new (d.shippedSince d'))) (hn : n < cfg.numNodes)
    (hnew : ∀ x ∈ new, (cfg.node n).Owns x.destPe) :
    d'.gathered cfg + (((d'.sent.drop d.sent.length).map (SortedPacket.buffer n)).map
        SortedPacket.items).sum = d.gathered cfg + (new.map Input.addressed : List (ℕ × α)) ∧
      ∀ m ∈ (d'.sent.drop d.sent.length).map (SortedPacket.buffer n), m.Sound cfg ∧
        d.shippedSince d' = true ∧
          m.items = ((h.since ++ new).map Input.addressed : List (ℕ × α)) := by
  have hlen := hd.1.length_eq
  rw [hd'.gathered, hd.gathered]
  have hmsg := hd'.1
  cases hshipped : d.shippedSince d' with
  | false =>
    have hnone : d'.sent.drop d.sent.length = [] := by
      apply List.drop_eq_nil_of_le
      exact not_lt.mp (of_decide_eq_false hshipped)
    rw [hnone]
    refine ⟨?_, fun m hm => absurd hm List.not_mem_nil⟩
    rw [History.after, if_neg Bool.false_ne_true, List.map_append, ← Multiset.coe_add]
    exact add_zero _
  | true =>
    rw [hshipped, History.after, if_pos rfl] at hmsg
    have hlast := List.forall₂_drop_append _ _ _ hmsg.flip
    rw [hlen] at hlast
    obtain ⟨s, hdrop, hs⟩ : ∃ s, d'.sent.drop d.sent.length = [s] ∧
        Carries (cfg.node n) (h.since ++ new) s := by
      cases hdrop : d'.sent.drop d.sent.length with
      | nil =>
        rw [hdrop] at hlast
        cases hlast
      | cons s l =>
        rw [hdrop] at hlast
        cases hlast with
        | cons hs hnil =>
          cases hnil
          exact ⟨s, rfl, hs⟩
    have howns : ∀ x ∈ h.since ++ new, (cfg.node n).Owns x.destPe := by
      intro x hx
      rcases List.mem_append.mp hx with hx | hx
      · exact hd.owned x hx
      · exact hnew x hx
    obtain ⟨hsound, hitems⟩ := hs.packet hn howns
    rw [hdrop]
    refine ⟨?_, fun m hm => ?_⟩
    · rw [List.map_singleton, List.map_singleton, List.sum_singleton, hitems, History.after,
        if_pos rfl, List.map_append, ← Multiset.coe_add]
      exact zero_add _
    · rw [List.mem_singleton.mp hm]
      exact ⟨hsound, rfl, hitems⟩

/-- What a flush leaves. -/
theorem Gathering.flushSorted {since : List (Item α)} (k : Knobs F)
    (hd : d.Gathering cfg n since) : (d.flushSorted cfg k false).gathered cfg = 0 := by
  unfold Dest.flushSorted
  by_cases hempty : d.msgBuffer.next = 0
  · have hnil : since = [] := by rw [← List.length_eq_zero_iff, ← hd.next, hempty]
    rw [if_pos (.inr hempty), hd.gathered, hnil]
    rfl
  · rw [if_neg (by simp [hempty])]
    exact (shipSorted_gathering k hd).gathered

end Dest

/-! ## One call -/

namespace HTram

variable {cfg : Config α} {h : ℕ → History α} {p q : HTram α F} {op : Op α F}

theorem SourceSorts.owned {n : ℕ} (hop : SourceSorts cfg op) (hn : n < cfg.numNodes) :
    ∀ x ∈ op.inputs cfg .WsP n, (cfg.node n).Owns x.destPe := by
  intro x hx
  cases op with
  | insertValue value destPe =>
    have hpe : destPe < cfg.numPes := hop
    have hsize : 0 < cfg.nodeSize := by
      by_contra h0
      rw [Config.numPes, Nat.eq_zero_of_not_pos h0] at hpe
      omega
    simp only [Op.inputs] at hx
    split_ifs at hx with hdest
    · rw [List.mem_singleton.mp hx]
      subst hdest
      exact ⟨Nat.div_mul_le_self .., Nat.lt_div_mul_add hsize⟩
    · exact absurd hx List.not_mem_nil
  | setBufferSize | tflush => exact absurd hx List.not_mem_nil
  | send | sendTo | insertValueWPs | changeThreshold | coarsenBuckets | flushStale | flushIdle =>
    exact hop.elim

/-- What a call hands to all destinations. -/
theorem SourceSorts.inputs (hop : SourceSorts cfg op) :
    ∑ n ∈ Finset.range cfg.numNodes,
      ((op.inputs cfg .WsP n).map Input.addressed : Multiset (ℕ × α)) = op.inserted := by
  cases op with
  | insertValue value destPe =>
    have hpe : destPe < cfg.numPes := hop
    have hnode : destPe / cfg.nodeSize < cfg.numNodes :=
      Nat.div_lt_of_lt_mul (by rwa [Config.numPes, Nat.mul_comm] at hpe)
    have hone : ∀ n, ((Op.inputs cfg .WsP n (.insertValue value destPe : Op α F)).map
        Input.addressed : Multiset (ℕ × α)) =
        if destPe / cfg.nodeSize = n then {(destPe, value)} else 0 := by
      intro n
      show (((if destPe / cfg.nodeSize = n then [Input.raw value destPe] else []).map
        Input.addressed : List (ℕ × α)) : Multiset (ℕ × α)) = _
      split_ifs
      · rfl
      · rfl
    rw [Finset.sum_congr rfl fun n _ => hone n, Finset.sum_ite_eq,
      if_pos (Finset.mem_range.mpr hnode)]
    rfl
  | setBufferSize | tflush => exact Finset.sum_const_zero
  | send | sendTo | insertValueWPs | changeThreshold | coarsenBuckets | flushStale | flushIdle =>
    exact hop.elim

/-- What a call does to the items of a PE. -/
theorem Gathers.moves (hp : p.Gathers cfg h) (hq : q.Gathers cfg (logStep cfg op p q h))
    (hop : SourceSorts cfg op) :
    q.gathered cfg + ((p.outgoingSorted cfg q).map SortedPacket.items).sum =
        p.gathered cfg + op.inserted ∧
      ∀ m ∈ p.outgoingSorted cfg q, m.Sound cfg ∧ ∃ n < cfg.numNodes,
        (p.dest n).shippedSince (q.dest n) = true ∧
          m.items = (((h n).since ++ op.inputs cfg .WsP n).map Input.addressed : List (ℕ × α)) := by
  have hdest : ∀ n < cfg.numNodes, _ := fun n hn =>
    (hp.logged n hn).moves (hq.logged n hn) hn (hop.owned hn)
  unfold outgoingSorted gathered
  rw [hp.destCount]
  refine ⟨?_, fun m hm => ?_⟩
  · rw [Rows.sum_flatMap, ← Finset.sum_add_distrib, ← hop.inputs, ← Finset.sum_add_distrib]
    exact Finset.sum_congr rfl fun n hn => (hdest n (Finset.mem_range.mp hn)).1
  · obtain ⟨n, hn, hm⟩ := List.mem_flatMap.mp hm
    have hn := List.mem_range.mp hn
    obtain ⟨hsound, hm⟩ := (hdest n hn).2 m hm
    exact ⟨hsound, n, hn, hm⟩

/-- No insert or flush ships an empty message. -/
theorem Gathers.ships [Inhabited α] [ReleaseArith F] (hp : p.Gathers cfg h)
    (hop : SourceSorts cfg op) (hsize : ∀ newSize, op ≠ .setBufferSize newSize)
    (hq : p.step cfg op = .returns q) {n : ℕ} (hn : n < cfg.numNodes)
    (hshipped : (p.dest n).shippedSince (q.dest n) = true) :
    (h n).since ++ op.inputs cfg .WsP n ≠ [] := by
  have hn' : n < p.destCount cfg := by rwa [hp.destCount]
  have hsame : (q.dest n).sent ≠ (p.dest n).sent := by
    intro heq
    rw [Dest.shippedSince, heq, decide_eq_true_eq] at hshipped
    exact lt_irrefl _ hshipped
  cases op with
  | insertValue value destPe =>
    cases hq
    by_cases he : n = cfg.destOf p.knobs.agg destPe
    · rw [hp.agg] at he
      rw [Op.inputs, if_pos he.symm]
      exact List.append_ne_nil_of_right_ne_nil _ (List.cons_ne_nil _ _)
    · exact absurd (congrArg Dest.sent (Function.update_of_ne he ..)) hsame
  | tflush idleflush =>
    obtain ⟨-, hdest⟩ := forDest_returns hq
    obtain ⟨-, since, hsince, hg⟩ := hp.logged n hn
    have hflush : q.dest n = (p.dest n).flushSorted cfg p.knobs idleflush := by
      rw [hdest n hn']
      unfold Dest.tflush
      rw [if_neg (by simp [hp.combining]), if_pos hp.agg]
    rw [hflush, Dest.flushSorted] at hsame
    split_ifs at hsame with hno
    · exact absurd rfl hsame
    · intro hnil
      rw [← hsince] at hnil
      have hempty := List.map_eq_nil_iff.mp (List.append_eq_nil_iff.mp hnil).1
      exact hno (.inr (by rw [hg.next, hempty, List.length_nil]))
  | setBufferSize newSize => exact absurd rfl (hsize newSize)
  | send | sendTo | insertValueWPs | changeThreshold | coarsenBuckets | flushStale | flushIdle =>
    exact hop.elim

/-- No call counts an item in `updates_in_tram`. -/
theorem Gathers.updates [Inhabited α] [ReleaseArith F] (hp : p.Gathers cfg h)
    (hop : SourceSorts cfg op) (hq : p.step cfg op = .returns q) {n : ℕ} (hn : n < cfg.numNodes) :
    (q.dest n).updatesInTram = (p.dest n).updatesInTram := by
  have hn' : n < p.destCount cfg := by rwa [hp.destCount]
  cases op with
  | insertValue value destPe =>
    cases hq
    show (Function.update p.dest _ _ n).updatesInTram = _
    by_cases he : n = cfg.destOf p.knobs.agg destPe
    · subst he
      rw [Function.update_self]
      unfold Dest.insertValue
      rw [hp.agg]
      dsimp only
      unfold Dest.insertSorted
      dsimp only
      split_ifs
      all_goals rfl
    · rw [Function.update_of_ne he]
  | tflush idleflush =>
    obtain ⟨-, hdest⟩ := forDest_returns hq
    rw [hdest n hn']
    unfold Dest.tflush
    rw [if_neg (by simp [hp.combining]), if_pos hp.agg]
    unfold Dest.flushSorted
    split_ifs
    all_goals rfl
  | setBufferSize newSize =>
    simp only [step, setBufferSize] at hq
    rw [if_neg (c := ¬ p.knobs.combining = true ∧ p.knobs.agg ≠ .WsP) fun hno => hno.2 hp.agg] at hq
    split_ifs at hq
    · rw [Outcome.returns.inj hq]
    · rw [← Outcome.returns.inj hq, mapDest_dest _ _ hn']
  | send | sendTo | insertValueWPs | changeThreshold | coarsenBuckets | flushStale | flushIdle =>
    exact hop.elim

/-- A flush leaves nothing. -/
theorem Gathers.tflush [ReleaseArith F] (hp : p.Gathers cfg h)
    (hq : p.tflush cfg false = .returns q) : q.gathered cfg = 0 := by
  obtain ⟨-, hdest⟩ := forDest_returns hq
  refine Finset.sum_eq_zero fun n hn => ?_
  have hn := Finset.mem_range.mp hn
  obtain ⟨-, since, -, hg⟩ := hp.logged n hn
  rw [hdest n (by rwa [hp.destCount])]
  unfold Dest.tflush
  rw [if_neg (by simp [hp.combining]), if_pos hp.agg]
  exact hg.flushSorted p.knobs

/-- What `countBuffers` counts is what waits. -/
theorem Gathers.countBuffers (hp : p.Gathers cfg h)
    (hzero : ∀ n < cfg.numNodes, (p.dest n).updatesInTram = 0) :
    p.countBuffers cfg = (p.gathered cfg).card := by
  have hnext : ∀ n < cfg.numNodes, (p.dest n).msgBuffer.next = ((p.dest n).gathered cfg).card := by
    intro n hn
    obtain ⟨-, since, -, hg⟩ := hp.logged n hn
    rw [hg.gathered, hg.next, Multiset.coe_card, List.length_map]
  have hsum : ∀ f : ℕ → ℤ, ((List.range cfg.numNodes).map f).sum =
      ∑ n ∈ Finset.range cfg.numNodes, f n := fun _ => rfl
  unfold HTram.countBuffers HTram.gathered
  rw [hp.destCount, hsum, hsum, Finset.sum_eq_zero fun n hn => hzero n (Finset.mem_range.mp hn),
    add_zero, Multiset.card_sum, Nat.cast_sum]
  exact Finset.sum_congr rfl fun n hn =>
    congrArg Nat.cast (hnext n (Finset.mem_range.mp hn))

end HTram

/-! ## One arrival -/

/-- A node hands each of its PEs its own items. -/
theorem SortedPacket.receiveNoSort_items {cfg : Config α} {n : ℕ} {s : Sent α}
    (hs : (SortedPacket.buffer n s).Sound cfg) :
    (((HTramRecv.receiveNoSort (cfg.node n) s.msg).map fun p => SortedPacket.slice p.1 p.2).map
      SortedPacket.items).sum = (SortedPacket.buffer n s).items := by
  obtain ⟨-, -, hsorted, howns⟩ := hs
  have hslice : ∀ r, (SortedPacket.slice ((cfg.node n).first + r) s.msg).items =
      ((ofRank (cfg.node n).rank s.msg.received r).map Item.addressed : List (ℕ × α)) := by
    intro r
    unfold SortedPacket.items
    dsimp only
    rw [s.msg.receivePerPE_eq hsorted, ← ofRank_rank howns, List.map_map]
    congr 1
    apply List.map_congr_left
    intro x hx
    obtain ⟨hx, hr⟩ := List.mem_filter.mp hx
    have hown := howns x hx
    have hr := of_decide_eq_true hr
    unfold Node.Owns at hown
    unfold Node.rank at hr
    show ((cfg.node n).first + r, x.payload) = (x.destPe, x.payload)
    rw [show (cfg.node n).first + r = x.destPe by omega]
  have hall : (((List.range cfg.nodeSize).map fun r =>
      (SortedPacket.slice ((cfg.node n).first + r) s.msg).items)).sum =
        ∑ r ∈ Finset.range cfg.nodeSize,
          ((ofRank (cfg.node n).rank s.msg.received r).map Item.addressed : Multiset (ℕ × α)) := by
    rw [← Multiset.sum_coe, ← Multiset.map_coe, ← Finset.sum_congr rfl fun r _ => hslice r]
    rfl
  unfold HTramRecv.receiveNoSort
  rw [List.range'_eq_map_range, List.map_map, List.map_map, List.map_map]
  refine hall.trans ?_
  rw [Rows.sum_coe, ← List.map_flatMap]
  exact Multiset.coe_eq_coe.mpr ((gather_perm _ (rank_lt howns)).map _)

/-! ## The machine -/

namespace SortedSystem

variable {cfg : Config α} {s t : SortedSystem α F}

/-- Every PE counts what waits for its messages, and every message is sound. -/
def Sound (cfg : Config α) (s : SortedSystem α F) : Prop :=
  s.All cfg.numPes (fun _ b => ((∃ h, b.tram.Gathers cfg h) ∧
    ∀ n < cfg.numNodes, (b.tram.dest n).updatesInTram = 0) ∧
      b.totRecvCount = b.delivered.length) (SortedPacket.Sound cfg)

/-- The items that wait on PE `pe`. -/
def waiting (cfg : Config α) (pe : ℕ) (s : SortedSystem α F) : Multiset (ℕ × α) :=
  (s.node pe).tram.gathered cfg

/-- The items in flight. -/
def inFlight (s : SortedSystem α F) : Multiset (ℕ × α) := (s.flight.map SortedPacket.items).sum

/-- What is handed over when a message arrives. -/
def handedBy : SortedPacket α → List (ℕ × α)
  | .buffer .. => []
  | .slice pe msg => (msg.receivePerPE pe).map (Prod.mk pe)

theorem handedBy_slice (pe : ℕ) (msg : HTramMessage α) (i : ℕ) :
    ((handedBy (SortedPacket.slice pe msg)).filter fun x => x.1 = i).map Prod.snd =
      if pe = i then msg.receivePerPE pe else [] := by
  unfold handedBy
  dsimp only
  rw [List.filter_map, List.map_map]
  split_ifs with hi
  · simp [Function.comp_def, hi]
  · simp [Function.comp_def, hi]

theorem inFlight_emit (s : SortedSystem α F) (out : List (SortedPacket α)) :
    inFlight (Net.emit s out) = s.inFlight + (out.map SortedPacket.items).sum := by
  unfold inFlight Net.emit
  rw [List.map_append, List.sum_append]

theorem inFlight_take {k : ℕ} {m : SortedPacket α} (hk : s.flight[k]? = some m) :
    inFlight (Net.take s k) + m.items = s.inFlight := by
  have htake := Net.total_take (n := 0) (w := fun _ => 0) (v := SortedPacket.items) hk
  simpa [Net.total, inFlight] using htake

variable [Inhabited α] [ReleaseArith F]

theorem call_inside {pe : ℕ} {op : Op α F} (hstep : step cfg s (.call pe op) = some t) :
    pe < cfg.numPes := by
  rw [step] at hstep
  split_ifs at hstep with hpe
  exact hpe

/-- A call that a client makes while it sorts at the source. -/
theorem call_spec (hs : s.Sound cfg) {pe : ℕ} {op : Op α F} (hop : HTram.SourceSorts cfg op)
    (hstep : step cfg s (.call pe op) = some t) :
    t.Sound cfg ∧ pe < cfg.numPes ∧ (∀ i ≠ pe, t.node i = s.node i) ∧
      (t.node pe).delivered = (s.node pe).delivered ∧
      (s.node pe).tram.step cfg op = .returns (t.node pe).tram ∧
      ∃ out, t.flight = s.flight ++ out ∧
        t.waiting cfg pe + (out.map SortedPacket.items).sum = s.waiting cfg pe + op.inserted ∧
        ((∀ newSize, op ≠ .setBufferSize newSize) → ∀ m ∈ out, m.items ≠ 0) := by
  rw [step] at hstep
  split_ifs at hstep with hpe
  cases hcall : (s.node pe).tram.step cfg op with
  | aborts | hangs =>
    rw [hcall] at hstep
    cases hstep
  | returns q =>
    rw [hcall] at hstep
    cases hstep
    obtain ⟨⟨⟨h, hg⟩, hzero⟩, hcount⟩ := hs.node pe hpe
    have hholds := HTram.step_gathers hg hop
    rw [hcall] at hholds
    have hq : q.Gathers cfg (HTram.logStep cfg op (s.node pe).tram q h) := hholds
    obtain ⟨hitems, hout⟩ := hg.moves hq hop
    have hself : (s.ended cfg pe q).node pe = { s.node pe with tram := q } :=
      Net.set_node_self ..
    have hset : Sound cfg (Net.set s pe { s.node pe with tram := q }) :=
      Net.All.set hs ⟨⟨⟨_, hq⟩, fun n hn => (hg.updates hop hcall hn).trans (hzero n hn)⟩, hcount⟩
    refine ⟨hset.emit fun m hm => (hout m hm).1, hpe,
      fun i hi => Net.set_node_of_ne s hi _, ?_, ?_, _, rfl, ?_, fun hsize m hm hnone => ?_⟩
    · rw [hself]
    · rw [hself]
    · unfold waiting
      rw [hself]
      exact hitems
    · obtain ⟨-, n, hn, hshipped, hchunk⟩ := hout m hm
      rw [hnone, eq_comm, Multiset.coe_eq_zero, List.map_eq_nil_iff] at hchunk
      exact hg.ships hop hsize hcall hn hshipped hchunk

/-- A message that arrives is passed on or handed over with all that it has. -/
theorem deliver_spec (hs : s.Sound cfg) {k : ℕ} (hstep : step cfg s (.deliver k) = some t) :
    t.Sound cfg ∧ (∀ i, (t.node i).tram = (s.node i).tram) ∧
      ∃ m, s.flight[k]? = some m ∧ t.inFlight + (handedBy m : Multiset (ℕ × α)) = s.inFlight ∧
        (∀ x ∈ handedBy m, x.1 < cfg.numPes) ∧ ∀ i, (t.node i).delivered = (s.node i).delivered ++
          ((handedBy m).filter fun x => x.1 = i).map Prod.snd := by
  obtain ⟨m, hk, harrive⟩ := Option.bind_eq_some_iff.mp hstep
  have hm := hs.arriving hk
  have htaken := hs.take k
  have hflight := inFlight_take hk
  cases m with
  | buffer d x =>
    rw [arrive, hm.2.1] at harrive
    cases harrive
    refine ⟨htaken.emit fun m hmem => ?_, fun _ => rfl, _, hk, ?_,
      fun x hx => absurd hx List.not_mem_nil, fun i => ?_⟩
    · obtain ⟨p, hp, rfl⟩ := List.mem_map.mp hmem
      obtain ⟨pe, hpe, rfl⟩ := List.mem_map.mp hp
      obtain ⟨-, hlt⟩ := List.mem_range'_1.mp hpe
      have hnext := Nat.mul_le_mul_right cfg.nodeSize (Nat.succ_le_of_lt hm.1)
      rw [Nat.succ_mul] at hnext
      exact hlt.trans_le hnext
    · rw [inFlight_emit, SortedPacket.receiveNoSort_items hm]
      exact (add_zero _).trans hflight
    · exact (List.append_nil _).symm
  | slice pe msg =>
    cases harrive
    obtain ⟨hg, hcount⟩ := hs.node pe hm
    refine ⟨Net.All.set htaken ⟨hg, ?_⟩, fun i => ?_, _, hk, hflight, fun x hx => ?_, fun i => ?_⟩
    · simp [hcount]
    · unfold hand
      by_cases hi : i = pe
      · subst hi
        rw [Net.set_node_self]
        rfl
      · rw [Net.set_node_of_ne _ hi]
        rfl
    · obtain ⟨y, -, rfl⟩ := List.mem_map.mp hx
      exact hm
    · rw [handedBy_slice]
      unfold hand
      by_cases hi : i = pe
      · subst hi
        rw [if_pos rfl, Net.set_node_self]
        rfl
      · rw [if_neg (Ne.symm hi), List.append_nil, Net.set_node_of_ne _ hi]
        rfl

end SortedSystem

end Htram
