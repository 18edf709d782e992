import Htram.Common.RankSort
import Htram.Pe.Dest

/-!
# Sorting a message on arrival

`HTramRecv::receive` and `receive_small`: a node sorts the items of a message by PE and
posts the sorted message to its PEs, each of which hands its slice to the client.

* `HTramRecv.sort_placed`: where the sorted message has its items.
* `HTramRecv.receive_partitions`: each PE of the node is handed its own items, in order.
-/

namespace Htram

open RankSort

variable {α : Type*}

/-- A node: its first PE and the number of its PEs (`CkNodeFirst`, `CkNodeSize`). -/
structure Node where
  first : ℕ
  size : ℕ

namespace Node

/-- `itemDestPe(...) - rank0PE`. -/
def rank (node : Node) (x : Item α) : ℕ := x.destPe - node.first

/-- The PE is one of the node's. -/
def Owns (node : Node) (pe : ℕ) : Prop := node.first ≤ pe ∧ pe < node.first + node.size

end Node

/-- Node `n`. -/
def Config.node (cfg : Config α) (n : ℕ) : Node := ⟨n * cfg.nodeSize, cfg.nodeSize⟩

/-- `HTramLocalMessage` (`htram_group.h`, lines 245–258). -/
structure HTramLocalMessage (α : Type*) where
  items : List (Item α)
  next : ℕ
  cap : ℕ

/-- The items that the message carries. -/
def HTramMessage.received (m : HTramMessage α) : List (Item α) := m.items.take m.next

/-- The items that the message carries. -/
def HTramLocalMessage.received (m : HTramLocalMessage α) : List (Item α) := m.items.take m.next

/-- `HTramNodeMessage` (lines 267–289). -/
structure HTramNodeMessage (α : Type*) extends Board α where
  noffsets : ℕ

/-- `newHTramNodeMessage` (lines 291–296). -/
def newHTramNodeMessage [Inhabited α] (capacity noffsets : ℕ) : HTramNodeMessage α :=
  ⟨⟨capacity, fun _ => default, fun _ => 0, false⟩, noffsets⟩

namespace HTramNodeMessage

/-- `llimit` (lines 1484–1487). -/
def llimit (m : HTramNodeMessage α) (rank : ℕ) : ℕ := if rank > 0 then m.offset (rank - 1) else 0

/-- `ulimit` (line 1488). -/
def ulimit (m : HTramNodeMessage α) (rank : ℕ) : ℕ := m.offset rank

/-- `receivePerPE` (lines 1483–1496) on the PE of rank `rank`: what it hands to the
    client, one by one or as an array. -/
def receivePerPE (m : HTramNodeMessage α) (rank : ℕ) : List α :=
  m.slice (m.llimit rank) (m.ulimit rank)

end HTramNodeMessage

/-- A sorted message on its way to a PE. -/
structure Post (α : Type*) where
  pe : ℕ
  msg : HTramNodeMessage α

namespace HTramRecv

variable [Inhabited α]

/-- The sorted message for `items`, which `next` counts (lines 1362–1397 and 1428–1450). -/
def sort (node : Node) (next : ℕ) (items : List (Item α)) : HTramNodeMessage α :=
  let m : HTramNodeMessage α := newHTramNodeMessage next node.size
  let sizes := tally node.rank items
  let m := { m with offset := starts node.size sizes m.offset }
  let m := { m with toBoard := m.scatter node.rank Item.payload items }
  { m with offset := ends node.size sizes m.offset }

/-- The sorted message is posted to the node's PEs, with `skip` only to those that it
    carries items for (lines 1408–1419 and 1464–1475). -/
def post (node : Node) (skip : Bool) (next : ℕ) (items : List (Item α)) : List (Post α) :=
  ((List.range node.size).filter fun r => !(skip && tally node.rank items r = 0)).map
    fun r => ⟨node.first + r, sort node next items⟩

/-- `receive` (lines 1354–1421). -/
def receive (node : Node) (skip : Bool) (m : HTramMessage α) : List (Post α) :=
  post node skip m.next m.received

/-- `receive_small` (lines 1423–1477). -/
def receiveSmall (node : Node) (skip : Bool) (m : HTramLocalMessage α) : List (Post α) :=
  post node skip m.next m.received

omit [Inhabited α] in
/-- What the PE of rank `r` is handed when all of `posts` has arrived. -/
def handedTo (node : Node) (posts : List (Post α)) (r : ℕ) : List α :=
  (posts.filter fun p => p.pe = node.first + r).flatMap fun p => p.msg.receivePerPE r

/-- `items` for PE `pe`, in order. -/
def forPe (items : List (Item α)) (pe : ℕ) : List α :=
  (items.filter fun x => x.destPe = pe).map Item.payload

/-! ## The sorted message -/

omit [Inhabited α] in
theorem ofRank_rank {node : Node} {items : List (Item α)}
    (h : ∀ x ∈ items, node.Owns x.destPe) (r : ℕ) :
    (ofRank node.rank items r).map Item.payload = forPe items (node.first + r) := by
  unfold ofRank forPe
  congr 1
  refine List.filter_congr fun x hx => ?_
  have := h x hx
  unfold Node.Owns at this
  rw [decide_eq_decide, Node.rank]
  omega

omit [Inhabited α] in
theorem rank_lt {node : Node} {items : List (Item α)} (h : ∀ x ∈ items, node.Owns x.destPe) :
    ∀ x ∈ items, node.rank x < node.size := by
  intro x hx
  have := h x hx
  unfold Node.Owns at this
  unfold Node.rank
  omega

theorem sort_spec {node : Node} {next : ℕ} {items : List (Item α)}
    (h : ∀ x ∈ items, node.Owns x.destPe) (hnext : items.length ≤ next) :
    (sort node next items).overrun = false ∧
      (∀ r < node.size, (sort node next items).ulimit r = first node.rank items (r + 1)) ∧
      ∀ r < node.size, (sort node next items).slice (first node.rank items r)
        (first node.rank items (r + 1)) = forPe items (node.first + r) := by
  have hplaced := @Board.scatter_spec _ _ node.rank Item.payload node.size items (rank_lt h)
    (m := { (newHTramNodeMessage next node.size : HTramNodeMessage α).toBoard with
      offset := starts node.size (tally node.rank items) fun _ => 0 })
    hnext rfl fun r hr => starts_eq node.rank items _ hr
  refine ⟨hplaced.overrun, fun r hr => ends_eq node.rank items _ hr, fun r hr => ?_⟩
  rw [← ofRank_rank h]
  exact hplaced.slice hr

theorem sort_limits {node : Node} {next : ℕ} {items : List (Item α)}
    (h : ∀ x ∈ items, node.Owns x.destPe) (hnext : items.length ≤ next) {r : ℕ}
    (hr : r < node.size) :
    (sort node next items).llimit r = first node.rank items r ∧
      (sort node next items).ulimit r = first node.rank items (r + 1) := by
  obtain ⟨-, hend, -⟩ := sort_spec h hnext
  refine ⟨?_, hend r hr⟩
  unfold HTramNodeMessage.llimit
  split_ifs with h0
  · have := hend (r - 1) (by omega)
    rwa [Nat.sub_add_cancel h0] at this
  · obtain rfl : r = 0 := by omega
    rw [first_zero]

theorem sort_receivePerPE {node : Node} {next : ℕ} {items : List (Item α)}
    (h : ∀ x ∈ items, node.Owns x.destPe) (hnext : items.length ≤ next) {r : ℕ}
    (hr : r < node.size) :
    (sort node next items).receivePerPE r = forPe items (node.first + r) := by
  obtain ⟨hlo, hhi⟩ := sort_limits h hnext hr
  obtain ⟨-, -, hslice⟩ := sort_spec h hnext
  rw [HTramNodeMessage.receivePerPE, hlo, hhi, hslice r hr]

/-! ## The posts -/

theorem mem_post {node : Node} {skip : Bool} {next : ℕ} {items : List (Item α)} {p : Post α} :
    p ∈ post node skip next items ↔
      ∃ r < node.size, ¬ (skip = true ∧ tally node.rank items r = 0) ∧
        p = ⟨node.first + r, sort node next items⟩ := by
  simp only [post, List.mem_map, List.mem_filter, List.mem_range, Bool.not_eq_true',
    Bool.and_eq_false_iff, decide_eq_false_iff_not]
  constructor
  · rintro ⟨r, ⟨hr, hskip⟩, rfl⟩
    refine ⟨r, hr, ?_, rfl⟩
    rintro ⟨h1, h2⟩
    rcases hskip with h | h
    · rw [h1] at h
      cases h
    · exact h h2
  · rintro ⟨r, hr, hskip, rfl⟩
    refine ⟨r, ⟨hr, ?_⟩, rfl⟩
    by_contra hne
    push Not at hne
    exact hskip ⟨by simpa using hne.1, hne.2⟩

/-- At most one post is for the PE of rank `r`. -/
theorem filter_post (node : Node) (skip : Bool) (next : ℕ) (items : List (Item α)) {r : ℕ}
    (hr : r < node.size) :
    (post node skip next items).filter (fun p => p.pe = node.first + r) =
      if skip = true ∧ tally node.rank items r = 0 then []
      else [⟨node.first + r, sort node next items⟩] := by
  have hone : (List.range node.size).filter (fun s => s = r) = [r] := by
    rw [List.filter_eq, List.count_eq_one_of_mem List.nodup_range (List.mem_range.mpr hr)]
    rfl
  have hpe : ∀ s, decide (node.first + s = node.first + r) = decide (s = r) := by
    intro s
    rw [decide_eq_decide]
    omega
  have hcomm : (((List.range node.size).filter fun s =>
      !(skip && tally node.rank items s = 0)).filter fun s => s = r) =
        [r].filter fun s => !(skip && tally node.rank items s = 0) := by
    rw [← hone, List.filter_filter, List.filter_filter]
    simp only [Bool.and_comm]
  rw [post, List.filter_map]
  simp only [Function.comp_def, hpe]
  rw [hcomm]
  by_cases hskip : skip = true ∧ tally node.rank items r = 0
  · simp [hskip]
  · rw [if_neg hskip, List.filter_singleton]
    have : (!(skip && decide (tally node.rank items r = 0))) = true := by
      simpa [Bool.and_eq_false_iff, or_iff_not_imp_left] using hskip
    simp [this]

omit [Inhabited α] in
theorem forPe_eq_nil {node : Node} {items : List (Item α)}
    (h : ∀ x ∈ items, node.Owns x.destPe) {r : ℕ} (hr : tally node.rank items r = 0) :
    forPe items (node.first + r) = [] := by
  rw [tally_eq, ← length_ofRank, List.length_eq_zero_iff] at hr
  rw [← ofRank_rank h, hr, List.map_nil]

theorem handedTo_post {node : Node} {next : ℕ} {items : List (Item α)}
    (h : ∀ x ∈ items, node.Owns x.destPe) (hnext : items.length ≤ next) (skip : Bool) {r : ℕ}
    (hr : r < node.size) :
    handedTo node (post node skip next items) r = forPe items (node.first + r) := by
  rw [handedTo, filter_post node skip next items hr]
  split_ifs with hskip
  · rw [List.flatMap_nil, forPe_eq_nil h hskip.2]
  · rw [List.flatMap_singleton, sort_receivePerPE h hnext hr]

/-- The posts of a message with `items`, with `skip_empty_deliveries` off or on, hand
    every PE of the node its own items in their order. -/
structure Partitioned (node : Node) (items : List (Item α)) (posts : Bool → List (Post α)) :
    Prop where
  addressed : ∀ skip, ∀ p ∈ posts skip, node.Owns p.pe
  inside : ∀ skip, ∀ p ∈ posts skip, p.msg.overrun = false
  slices : ∀ skip, ∀ p ∈ posts skip, ∀ r < node.size,
    p.msg.receivePerPE r = forPe items (node.first + r)
  cover : ∀ skip, ∀ p ∈ posts skip, ∀ i < items.length,
    ∃! r, r < node.size ∧ p.msg.llimit r ≤ i ∧ i < p.msg.ulimit r
  handed : ∀ skip, ∀ r < node.size, handedTo node (posts skip) r = forPe items (node.first + r)

theorem post_partitioned {node : Node} {next : ℕ} {items : List (Item α)}
    (h : ∀ x ∈ items, node.Owns x.destPe) (hnext : items.length ≤ next) :
    Partitioned node items fun skip => post node skip next items where
  addressed := by
    intro skip p hp
    obtain ⟨r, hr, -, rfl⟩ := mem_post.mp hp
    exact ⟨Nat.le_add_right _ _, Nat.add_lt_add_left hr _⟩
  inside := by
    intro skip p hp
    obtain ⟨r, -, -, rfl⟩ := mem_post.mp hp
    exact (sort_spec h hnext).1
  slices := by
    intro skip p hp r hr
    obtain ⟨s, -, -, rfl⟩ := mem_post.mp hp
    exact sort_receivePerPE h hnext hr
  cover := by
    intro skip p hp i hi
    obtain ⟨s, -, -, rfl⟩ := mem_post.mp hp
    obtain ⟨r, ⟨hr, h1, h2⟩, huniq⟩ := first_cover node.rank (rank_lt h) hi
    refine ⟨r, ⟨hr, ?_⟩, ?_⟩
    · obtain ⟨hlo, hhi⟩ := sort_limits h hnext hr
      exact ⟨hlo.trans_le h1, h2.trans_eq hhi.symm⟩
    · rintro s' ⟨hs', h3, h4⟩
      obtain ⟨hlo, hhi⟩ := sort_limits h hnext hs'
      exact huniq s' ⟨hs', hlo ▸ h3, hhi ▸ h4⟩
  handed := fun skip _ hr => handedTo_post h hnext skip hr

/-- What a node receives, its PEs are handed: each its own items, in order, from slices
    of the sorted message that cover it without overlap and were written inside it. -/
theorem receive_partitions {node : Node} {m : HTramMessage α} {l : HTramLocalMessage α}
    (hm : ∀ x ∈ m.received, node.Owns x.destPe) (hl : ∀ x ∈ l.received, node.Owns x.destPe) :
    Partitioned node m.received (fun skip => receive node skip m) ∧
      Partitioned node l.received (fun skip => receiveSmall node skip l) :=
  ⟨post_partitioned hm (List.length_take_le _ _), post_partitioned hl (List.length_take_le _ _)⟩

/-- Three items for PEs 6, 4 and 6. -/
def threeItems : List (Item ℕ) :=
  [(6, 10), (4, 20), (6, 30)].map fun x => ⟨x.1, x.2, ⟨none, 0, false, fun _ => 0⟩⟩

theorem receive_partitions_three :
    Partitioned ⟨4, 3⟩ threeItems (fun skip => receive ⟨4, 3⟩ skip ⟨threeItems, 3, 8, false⟩) ∧
      Partitioned ⟨4, 3⟩ threeItems (fun skip => receiveSmall ⟨4, 3⟩ skip ⟨threeItems, 3, 8⟩) ∧
      handedTo ⟨4, 3⟩ (receive ⟨4, 3⟩ true ⟨threeItems, 3, 8, false⟩) 2 = [10, 30] := by
  have hin : ∀ x ∈ threeItems, (⟨4, 3⟩ : Node).Owns x.destPe := by
    simp [threeItems, Node.Owns]
  obtain ⟨h1, h2⟩ := receive_partitions (m := ⟨threeItems, 3, 8, false⟩)
    (l := ⟨threeItems, 3, 8⟩) hin hin
  exact ⟨h1, h2, h1.handed true 2 (by decide)⟩

end HTramRecv

end Htram
