import Htram.Common.KeyScan
import Htram.Recv.Sort
import Mathlib.Data.Multiset.Basic
import Mathlib.Tactic.Abel

/-!
# Items for a process

`insertToProcess` in a build without `BUCKETS_BY_DEST`, in its default mode `WsP`. A
message that fills up goes to `receiveOnProc`; `tflush` ships what is left to
`receive_no_sort`, where each PE looks for items with its own number. An item for a
process carries the number -1.

* `Process.run_balance`: what has been handed over, lost and kept.
* `Process.run_handed`: after a last `tflush` everything has been handed over exactly when
  no `tflush` found a message partly filled.
-/

namespace Htram

namespace Process

variable {α : Type*}

/-- `item` (`htram_group.h`, lines 140–144). -/
structure Item (α : Type*) where
  destPe : ℤ
  payload : α

/-- `HTramMessage` (lines 166–192). -/
structure Message (α : Type*) where
  items : List (Item α)
  next : ℕ
  cap : ℕ

/-- The entry methods of a node that messages are handed to. -/
inductive Entry
  | receiveOnProc | receiveNoSort
  deriving DecidableEq

/-- A message handed to Charm++ for node `node`. -/
structure Sent (α : Type*) where
  entry : Entry
  node : ℕ
  msg : Message α

/-- The machine, with `nodeSize` PEs on every node. -/
structure Machine where
  numNodes : ℕ
  nodeSize : ℕ

/-- What `HTram` keeps on a PE: a message for each node, and a buffer for each PE that
    only `insertValue` fills. -/
structure HTram (α : Type*) where
  bufSize : ℕ
  msgBuffers : ℕ → Message α
  localBuffers : ℕ → List (Item α)
  sent : List (Sent α)

/-- `newHTramMessage`. -/
def newHTramMessage (capacity : ℕ) : Message α := ⟨[], 0, capacity⟩

/-- `setItem(m->items()[m->next], value, -1); m->next++`. -/
def Message.add (m : Message α) (value : α) : Message α :=
  { m with items := m.items ++ [⟨-1, value⟩], next := m.next + 1 }

/-- The constructor. -/
def init (bufSize : ℕ) : HTram α :=
  ⟨bufSize, fun _ => newHTramMessage bufSize, fun _ => [], []⟩

namespace HTram

/-- Message `node` is handed to `entry` and replaced. -/
def ship (entry : Entry) (node : ℕ) (p : HTram α) : HTram α :=
  { p with
    msgBuffers := Function.update p.msgBuffers node (newHTramMessage p.bufSize)
    sent := p.sent ++ [⟨entry, node, p.msgBuffers node⟩] }

/-- `insertToProcess` (lines 691–700). -/
def insertToProcess (value : α) (destNode : ℕ) (p : HTram α) : HTram α :=
  let destMsg := (p.msgBuffers destNode).add value
  let p := { p with msgBuffers := Function.update p.msgBuffers destNode destMsg }
  if destMsg.next = p.bufSize then p.ship .receiveOnProc destNode else p

/-- The PEs of node `i`. -/
def pes (machine : Machine) (i : ℕ) : List ℕ :=
  List.range' (i * machine.nodeSize) machine.nodeSize

/-- The loop body of `tflush` (lines 911–931) for node `i`: the buffers of the node's PEs
    are copied over the first slots of the message. -/
def flushNode (machine : Machine) (p : HTram α) (i : ℕ) : HTram α :=
  if (p.msgBuffers i).next = 0 then p
  else
    let local_ := (pes machine i).flatMap p.localBuffers
    let m := p.msgBuffers i
    { p with
      msgBuffers := Function.update p.msgBuffers i
        { m with items := local_ ++ m.items.drop local_.length }
      localBuffers := fun pe => if pe ∈ pes machine i then [] else p.localBuffers pe
      : HTram α }.ship .receiveNoSort i

/-- `tflush` (lines 895–942). -/
def tflush (machine : Machine) (idleflush : Bool) (p : HTram α) : HTram α :=
  if idleflush then p else (List.range machine.numNodes).foldl (flushNode machine) p

end HTram

/-! ## The receiving node -/

namespace Message

/-- The items that the message carries. -/
def received (m : Message α) : List (Item α) := m.items.take m.next

/-- `receiveOnProc` (lines 1338–1352): what the process is handed. -/
def receiveOnProc (m : Message α) : List α := m.received.map Item.payload

/-- `receivePerPE` (lines 1290–1312) on PE `pe`: what it is handed. -/
def receivePerPE (m : Message α) (pe : ℕ) : List α :=
  let llimit := KeyScan.lower Item.destPe (pe : ℤ) m.received
  let ulimit := KeyScan.upper Item.destPe (pe : ℤ) m.received
  ((m.received.drop llimit).take (ulimit - llimit)).map Item.payload

end Message

/-- What is handed over on the node when the message arrives: to its process, or, by
    `receive_no_sort` (lines 1277–1288), to its PEs. -/
def Sent.handed (machine : Machine) (s : Sent α) : Multiset α :=
  match s.entry with
  | .receiveOnProc => s.msg.receiveOnProc
  | .receiveNoSort => ((HTram.pes machine s.node).flatMap s.msg.receivePerPE : List α)

/-- What has been handed over on node `n` when all messages have arrived. -/
def handed (machine : Machine) (n : ℕ) (sent : List (Sent α)) : Multiset α :=
  ((sent.filter fun s => s.node = n).map (Sent.handed machine)).sum

/-! ## Runs -/

/-- The client's calls. -/
inductive Op (α : Type*)
  | insertToProcess (value : α) (destNode : ℕ)
  | tflush (idleflush : Bool)

/-- One call. -/
def HTram.step (machine : Machine) (p : HTram α) : Op α → HTram α
  | .insertToProcess value destNode => p.insertToProcess value destNode
  | .tflush idleflush => p.tflush machine idleflush

/-- A sequence of calls on a new PE. -/
def run (machine : Machine) (bufSize : ℕ) (ops : List (Op α)) : HTram α :=
  ops.foldl (HTram.step machine) (init bufSize)

/-- What a call inserts for node `n`. -/
def Op.inserted (n : ℕ) : Op α → List α
  | .insertToProcess value destNode => if destNode = n then [value] else []
  | .tflush _ => []

/-- What the calls insert for node `n`. -/
def inserted (n : ℕ) (ops : List (Op α)) : List α := ops.flatMap (Op.inserted n)

/-! ## One node -/

/-- Node `n`'s message and what has been shipped to it. -/
def view (n : ℕ) (p : HTram α) : Message α × List (Sent α) :=
  (p.msgBuffers n, p.sent.filter fun s => s.node = n)

/-- What `tflush` does to a node. -/
def flushed (bufSize n : ℕ) (v : Message α × List (Sent α)) : Message α × List (Sent α) :=
  if v.1.next = 0 then v else (newHTramMessage bufSize, v.2 ++ [⟨.receiveNoSort, n, v.1⟩])

/-- What `insertToProcess` does to its node. -/
def added (bufSize n : ℕ) (value : α) (v : Message α × List (Sent α)) :
    Message α × List (Sent α) :=
  if (v.1.add value).next = bufSize then
    (newHTramMessage bufSize, v.2 ++ [⟨.receiveOnProc, n, v.1.add value⟩])
  else (v.1.add value, v.2)

/-- Only `insertToProcess` has been used on the PE. -/
structure HTram.Plain (bufSize : ℕ) (p : HTram α) : Prop where
  size : p.bufSize = bufSize
  localBuffers : ∀ pe, p.localBuffers pe = []

variable {machine : Machine} {bufSize : ℕ} {p : HTram α}

theorem ship_view (entry : Entry) (i n : ℕ) (p : HTram α) :
    view n (p.ship entry i) =
      if n = i then (newHTramMessage p.bufSize, (view n p).2 ++ [⟨entry, i, p.msgBuffers i⟩])
      else view n p := by
  unfold view HTram.ship
  by_cases hn : n = i
  · subst hn
    simp
  · simp [hn, Ne.symm hn]

theorem insertToProcess_view (hp : p.Plain bufSize) (value : α) (i n : ℕ) :
    view n (p.insertToProcess value i) = if n = i then added bufSize n value (view n p)
      else view n p := by
  have hadd : ∀ q : HTram α, q = { p with
      msgBuffers := Function.update p.msgBuffers i ((p.msgBuffers i).add value) } →
      view n q = if n = i then ((p.msgBuffers i).add value, (view n p).2) else view n p := by
    rintro q rfl
    unfold view
    by_cases hn : n = i
    · subst hn
      simp
    · simp [hn]
  unfold HTram.insertToProcess
  dsimp only
  by_cases hn : n = i
  · subst hn
    rw [if_pos rfl, added, ← hp.size]
    show view n (if ((view n p).1.add value).next = p.bufSize then _ else _) = _
    split_ifs with hfull
    · rw [ship_view, if_pos rfl, hadd _ rfl, if_pos rfl]
      simp [view]
    · rw [hadd _ rfl, if_pos rfl]
      rfl
  · rw [if_neg hn]
    split_ifs
    · rw [ship_view, if_neg hn, hadd _ rfl, if_neg hn]
    · rw [hadd _ rfl, if_neg hn]

theorem insertToProcess_plain (hp : p.Plain bufSize) (value : α) (i : ℕ) :
    (p.insertToProcess value i).Plain bufSize := by
  unfold HTram.insertToProcess
  dsimp only
  split_ifs <;> exact ⟨hp.size, hp.localBuffers⟩

theorem flushNode_view (hp : p.Plain bufSize) (i n : ℕ) :
    view n (p.flushNode machine i) =
      if n = i then flushed bufSize n (view n p) else view n p := by
  have hnone : (HTram.pes machine i).flatMap p.localBuffers = [] :=
    List.flatMap_eq_nil_iff.mpr fun pe _ => hp.localBuffers pe
  unfold HTram.flushNode flushed
  by_cases hn : n = i
  · subst hn
    rw [if_pos rfl]
    show view n (if (view n p).1.next = 0 then p else _) = _
    split_ifs with hempty
    · rfl
    · dsimp only
      rw [ship_view, if_pos rfl, hnone, ← hp.size]
      simp [view]
  · rw [if_neg hn]
    split_ifs
    · rfl
    · dsimp only
      rw [ship_view, if_neg hn]
      simp [view, hn]

theorem flushNode_plain (hp : p.Plain bufSize) (i : ℕ) :
    (p.flushNode machine i).Plain bufSize := by
  unfold HTram.flushNode
  split_ifs
  · exact hp
  · refine ⟨hp.size, fun pe => ?_⟩
    show (if pe ∈ HTram.pes machine i then [] else p.localBuffers pe) = []
    rw [hp.localBuffers, ite_self]

theorem flushNodes_view {n : ℕ} :
    ∀ (l : List ℕ) (p : HTram α), p.Plain bufSize → l.Nodup →
      (l.foldl (HTram.flushNode machine) p).Plain bufSize ∧
        view n (l.foldl (HTram.flushNode machine) p) =
          if n ∈ l then flushed bufSize n (view n p) else view n p := by
  intro l
  induction l with
  | nil => intro p hp _; exact ⟨hp, by simp⟩
  | cons i l ih =>
    intro p hp hl
    obtain ⟨hil, hl⟩ := List.nodup_cons.mp hl
    obtain ⟨h1, h2⟩ := ih _ (flushNode_plain hp i) hl
    refine ⟨h1, ?_⟩
    rw [List.foldl_cons, h2, flushNode_view hp]
    by_cases hn : n = i
    · subst hn
      simp [hil]
    · simp [hn]

theorem tflush_view (hp : p.Plain bufSize) {n : ℕ} (hn : n < machine.numNodes)
    (idleflush : Bool) :
    (p.tflush machine idleflush).Plain bufSize ∧
      view n (p.tflush machine idleflush) =
        if idleflush then view n p else flushed bufSize n (view n p) := by
  unfold HTram.tflush
  cases idleflush with
  | true => exact ⟨hp, rfl⟩
  | false =>
    obtain ⟨h1, h2⟩ := flushNodes_view (n := n) _ p hp
      (List.nodup_range (n := machine.numNodes))
    rw [if_pos (List.mem_range.mpr hn)] at h2
    exact ⟨h1, h2⟩

/-! ## What is handed over and what is lost -/

/-- The items of the messages that went to `receive_no_sort`. -/
def lost (sent : List (Sent α)) : Multiset α :=
  ((sent.filter fun s => s.entry = .receiveNoSort).map fun s =>
    (s.msg.received.map Item.payload : Multiset α)).sum

/-- No PE has the number -1. -/
theorem receivePerPE_eq_nil {m : Message α} (h : ∀ x ∈ m.received, x.destPe = -1) (pe : ℕ) :
    m.receivePerPE pe = [] := by
  have hsorted : m.received.Pairwise fun x y => x.destPe ≤ y.destPe :=
    List.pairwise_of_forall_mem_list fun x hx y hy => by rw [h x hx, h y hy]
  unfold Message.receivePerPE
  dsimp only
  rw [KeyScan.slice_eq (pe : ℤ) hsorted, List.map_eq_nil_iff, List.filter_eq_nil_iff]
  intro x hx
  rw [decide_eq_true_eq, h x hx]
  omega

/-- For node `n`, `xs` has been handed over, lost or kept. -/
structure Balanced (machine : Machine) (bufSize : ℕ) (xs : List α)
    (v : Message α × List (Sent α)) : Prop where
  numbered : ∀ x ∈ v.1.items, x.destPe = -1
  written : v.1.items.length = v.1.next
  balance : (v.2.map (Sent.handed machine)).sum + lost v.2 + (v.1.items.map Item.payload : List α) =
    (xs : Multiset α)
  next : lost v.2 = 0 → v.1.next = xs.length % bufSize

theorem received_eq {m : Message α} (h : m.items.length = m.next) : m.received = m.items := by
  rw [Message.received, ← h, List.take_length]

theorem lost_append (sent : List (Sent α)) (s : Sent α) :
    lost (sent ++ [s]) = lost sent +
      if s.entry = .receiveNoSort then (s.msg.received.map Item.payload : Multiset α) else 0 := by
  rw [lost, List.filter_append, List.map_append, List.sum_append, List.filter_singleton]
  congr 1
  by_cases h : s.entry = .receiveNoSort <;> simp [h]

theorem Balanced.added {n : ℕ} {xs : List α} {v : Message α × List (Sent α)} (hpos : 0 < bufSize)
    (hv : Balanced machine bufSize xs v) (value : α) :
    Balanced machine bufSize (xs ++ [value]) (added bufSize n value v) := by
  obtain ⟨hnum, hwritten, hbal, hnext⟩ := hv
  have hwritten' : (v.1.add value).items.length = (v.1.add value).next := by
    simp [Message.add, hwritten]
  have hitems : ((v.1.add value).items.map Item.payload : Multiset α) =
      (v.1.items.map Item.payload : List α) + {value} := by
    rw [Message.add, List.map_append, ← Multiset.coe_add]
    rfl
  have hxs : ((xs ++ [value] : List α) : Multiset α) = (xs : Multiset α) + {value} := by
    rw [← Multiset.coe_add, Multiset.coe_singleton]
  have hlen : (xs ++ [value]).length = xs.length + 1 := by simp
  have hmod := Nat.mod_lt xs.length hpos
  unfold Process.added
  split_ifs with hfull
  · refine ⟨by simp [newHTramMessage], rfl, ?_, fun h0 => ?_⟩
    · rw [List.map_append, List.sum_append, lost_append, hxs, ← hbal]
      have hhanded : Sent.handed machine ⟨.receiveOnProc, n, v.1.add value⟩ =
          ((v.1.add value).items.map Item.payload : List α) :=
        congrArg (fun l : List (Item α) => (l.map Item.payload : Multiset α))
          (received_eq hwritten')
      simp only [List.map_singleton, List.sum_singleton, hhanded, hitems, newHTramMessage,
        List.map_nil, Multiset.coe_nil, add_zero, if_neg (show Entry.receiveOnProc ≠ .receiveNoSort
          by decide)]
      abel
    · rw [lost_append, if_neg (show Entry.receiveOnProc ≠ .receiveNoSort by decide),
        add_zero] at h0
      have hone : xs.length % bufSize + 1 = bufSize := by rw [← hnext h0]; exact hfull
      rw [hlen, ← Nat.mod_add_mod, hone, Nat.mod_self]
      rfl
  · refine ⟨fun x hx => ?_, hwritten', ?_, fun h0 => ?_⟩
    · rcases List.mem_append.mp hx with hx | hx
      · exact hnum x hx
      · rw [List.mem_singleton.mp hx]
    · rw [hitems, hxs, ← hbal, ← add_assoc]
    · have hne : xs.length % bufSize + 1 ≠ bufSize := by rw [← hnext h0]; exact hfull
      rw [hlen]
      show v.1.next + 1 = _
      rw [hnext h0, ← Nat.mod_add_mod, Nat.mod_eq_of_lt (show _ + 1 < bufSize by omega)]

theorem lost_added (bufSize n : ℕ) (value : α) (v : Message α × List (Sent α)) :
    lost (added bufSize n value v).2 = lost v.2 := by
  unfold Process.added
  split_ifs
  · rw [lost_append, if_neg (show Entry.receiveOnProc ≠ .receiveNoSort by decide), add_zero]
  · rfl

theorem Balanced.flushed {n : ℕ} {xs : List α} {v : Message α × List (Sent α)}
    (hv : Balanced machine bufSize xs v) :
    Balanced machine bufSize xs (flushed bufSize n v) ∧ (flushed bufSize n v).1.items = [] ∧
      (lost (flushed bufSize n v).2 = 0 ↔ lost v.2 = 0 ∧ bufSize ∣ xs.length) := by
  obtain ⟨hnum, hwritten, hbal, hnext⟩ := hv
  unfold Process.flushed
  split_ifs with hempty
  · refine ⟨⟨hnum, hwritten, hbal, hnext⟩, ?_, fun h0 => ⟨h0, ?_⟩, And.left⟩
    · exact List.length_eq_zero_iff.mp (hwritten.trans hempty)
    · exact Nat.dvd_of_mod_eq_zero ((hnext h0).symm.trans hempty)
  · have hrec := received_eq hwritten
    have hhanded : Sent.handed machine ⟨.receiveNoSort, n, v.1⟩ = (0 : Multiset α) := by
      show (((HTram.pes machine n).flatMap v.1.receivePerPE : List α) : Multiset α) = 0
      rw [List.flatMap_eq_nil_iff.mpr fun pe _ => receivePerPE_eq_nil (by rwa [hrec]) pe]
      rfl
    have hlost : lost (v.2 ++ [⟨.receiveNoSort, n, v.1⟩]) =
        lost v.2 + (v.1.items.map Item.payload : Multiset α) := by
      rw [lost_append, if_pos rfl, hrec]
    have hsome : lost (v.2 ++ [⟨.receiveNoSort, n, v.1⟩]) ≠ 0 := by
      rw [hlost]
      intro h0
      have hcard := congrArg Multiset.card h0
      rw [Multiset.card_add, Multiset.coe_card, List.length_map, Multiset.card_zero] at hcard
      omega
    refine ⟨⟨by simp [newHTramMessage], rfl, ?_, fun h0 => absurd h0 hsome⟩, rfl,
      fun h0 => absurd h0 hsome, fun ⟨h0, hdvd⟩ => ?_⟩
    · rw [List.map_append, List.sum_append, hlost, ← hbal]
      simp only [List.map_singleton, List.sum_singleton, hhanded, newHTramMessage, List.map_nil,
        Multiset.coe_nil, add_zero]
      abel
    · exact absurd ((hnext h0).trans (Nat.mod_eq_zero_of_dvd hdvd)) hempty

/-! ## Runs -/

/-- Whenever the calls flush, as many items have been inserted for node `n` as fill whole
    messages. -/
def FlushesWhole (bufSize n : ℕ) (ops : List (Op α)) : Prop :=
  ∀ pre post, ops = pre ++ .tflush false :: post → bufSize ∣ (inserted n pre).length

theorem flushesWhole_nil (bufSize n : ℕ) : FlushesWhole bufSize n ([] : List (Op α)) := by
  intro pre post h
  cases pre <;> cases h

theorem flushesWhole_snoc {bufSize n : ℕ} {ops : List (Op α)} {op : Op α} :
    FlushesWhole bufSize n (ops ++ [op]) ↔
      FlushesWhole bufSize n ops ∧ (op = .tflush false → bufSize ∣ (inserted n ops).length) := by
  constructor
  · intro h
    refine ⟨fun pre post hops => h pre (post ++ [op]) (by simp [hops]), ?_⟩
    rintro rfl
    exact h ops [] rfl
  · rintro ⟨h, hlast⟩ pre post hops
    rcases List.eq_nil_or_concat post with rfl | ⟨post, x, rfl⟩
    · obtain ⟨rfl, hop⟩ := List.append_inj' hops rfl
      exact hlast (List.singleton_inj.mp hop)
    · rw [List.concat_eq_append, ← List.cons_append, ← List.append_assoc] at hops
      exact h pre post (List.append_inj' hops rfl).1

theorem inserted_snoc (n : ℕ) (ops : List (Op α)) (op : Op α) :
    inserted n (ops ++ [op]) = inserted n ops ++ op.inserted n := by
  rw [inserted, List.flatMap_append, List.flatMap_singleton]
  rfl

/-- After the calls `ops`, everything inserted for node `n` has been handed over, lost or
    kept, and nothing is lost exactly when every `tflush` found whole messages. -/
theorem run_balance {n : ℕ} (hpos : 0 < bufSize) (hn : n < machine.numNodes) (ops : List (Op α)) :
    (run machine bufSize ops).Plain bufSize ∧
      Balanced machine bufSize (inserted n ops) (view n (run machine bufSize ops)) ∧
      (lost (view n (run machine bufSize ops)).2 = 0 ↔ FlushesWhole bufSize n ops) := by
  induction ops using List.reverseRecOn with
  | nil =>
    refine ⟨⟨rfl, fun _ => rfl⟩, ⟨?_, rfl, ?_, fun _ => ?_⟩, ?_⟩
    · intro x hx
      cases hx
    · rfl
    · exact (Nat.zero_mod _).symm
    · exact ⟨fun _ => flushesWhole_nil bufSize n, fun _ => rfl⟩
  | append_singleton ops op ih =>
    obtain ⟨hplain, hbal, hlost⟩ := ih
    have hrun : run machine bufSize (ops ++ [op]) = (run machine bufSize ops).step machine op := by
      rw [run, List.foldl_append]
      rfl
    rw [hrun, inserted_snoc, flushesWhole_snoc]
    cases op with
    | insertToProcess value destNode =>
      refine ⟨insertToProcess_plain hplain value destNode, ?_⟩
      have hview := insertToProcess_view hplain value destNode n
      rw [HTram.step, hview, Op.inserted]
      by_cases hd : n = destNode
      · rw [if_pos hd, if_pos hd.symm]
        exact ⟨hbal.added hpos value, by simp [lost_added, hlost]⟩
      · rw [if_neg hd, if_neg (Ne.symm hd), List.append_nil]
        exact ⟨hbal, by simp [hlost]⟩
    | tflush idleflush =>
      obtain ⟨hplain', hview⟩ := tflush_view hplain hn idleflush
      refine ⟨hplain', ?_⟩
      rw [HTram.step, hview, Op.inserted, List.append_nil]
      cases idleflush with
      | true => exact ⟨hbal, by simp [hlost]⟩
      | false =>
        obtain ⟨h1, -, h3⟩ := hbal.flushed (n := n)
        exact ⟨h1, h3.trans (and_congr hlost (by simp))⟩

/-- After a last `tflush`, everything inserted for each node has been handed over there
    once exactly when every `tflush` found whole messages only. -/
theorem run_handed (machine : Machine) {bufSize : ℕ} (hpos : 0 < bufSize) (ops : List (Op α)) :
    (∀ n < machine.numNodes,
      handed machine n (run machine bufSize (ops ++ [.tflush false])).sent = inserted n ops) ↔
      ∀ n < machine.numNodes, FlushesWhole bufSize n (ops ++ [.tflush false]) := by
  refine forall₂_congr fun n hn => ?_
  obtain ⟨hplain, hbal, -⟩ := run_balance hpos hn ops
  obtain ⟨-, -, hlost⟩ := run_balance hpos hn (ops ++ [.tflush false])
  have hview : view n (run machine bufSize (ops ++ [.tflush false])) =
      flushed bufSize n (view n (run machine bufSize ops)) := by
    rw [run, List.foldl_append]
    exact (tflush_view hplain hn false).2
  obtain ⟨hbal', hnil, -⟩ := hbal.flushed (n := n)
  rw [← hlost, hview]
  have hsum := hbal'.balance
  rw [hnil, List.map_nil, Multiset.coe_nil, add_zero] at hsum
  have hhanded : handed machine n (run machine bufSize (ops ++ [.tflush false])).sent =
      ((flushed bufSize n (view n (run machine bufSize ops))).2.map (Sent.handed machine)).sum := by
    rw [← hview]
    rfl
  rw [hhanded, ← hsum, left_eq_add]

theorem run_handed_two :
    handed ⟨1, 1⟩ 0 (run ⟨1, 1⟩ 2 ([.insertToProcess 7 0, .insertToProcess 8 0] ++
        [.tflush false])).sent =
      (inserted 0 [.insertToProcess 7 0, .insertToProcess 8 0] : Multiset ℕ) := by
  refine (run_handed ⟨1, 1⟩ (by decide) _).mpr (fun n hn => ?_) 0 Nat.one_pos
  obtain rfl : n = 0 := Nat.lt_one_iff.mp hn
  have hone : FlushesWhole 2 0 ([] ++ [Op.insertToProcess 7 0] : List (Op ℕ)) :=
    flushesWhole_snoc.mpr ⟨flushesWhole_nil 2 0, by simp⟩
  have htwo : FlushesWhole 2 0 ([Op.insertToProcess 7 0] ++ [.insertToProcess 8 0] : List (Op ℕ)) :=
    flushesWhole_snoc.mpr ⟨hone, by simp⟩
  exact flushesWhole_snoc.mpr ⟨htwo, fun _ => by decide⟩

/-- An item flushed from a message that is not full reaches nobody. -/
theorem run_loses :
    inserted 0 [.insertToProcess 7 0] = [7] ∧
      handed ⟨1, 1⟩ 0 (run ⟨1, 1⟩ 2 ([.insertToProcess 7 0] ++ [.tflush false])).sent =
        (0 : Multiset ℕ) := by
  decide

end Process

end Htram
