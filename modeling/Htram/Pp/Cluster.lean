import Htram.Common.Network
import Htram.Pp.Flushed
import Htram.Recv.Sort

/-!
# All nodes under `PP`

The PEs of every node, each in one of its calls or in none, the buffers that the PEs of a node
share, one for each destination node, and the messages in flight. `Cluster.step` is one event: a
call of a client, one access of a PE that is in a call, or the arrival of a message. Calls of
different PEs overlap in any way, and messages arrive in any order, each once.

What a client is handed does not depend on the accesses of a call, so an arrival is one event, also
while the PE is in a call.
-/

namespace Htram

namespace PP

open Network

/-- The machine: `numPes` is the number of PEs of every node. -/
structure ClusterConfig extends NodeConfig where
  numNodes : ℕ
  hasPes : 0 < numPes

/-- In which call a PE is, and how far. -/
inductive Task
  | idle
  /-- in `copyToNodeBuf` for node `d` -/
  | copying (d : ℕ)
  /-- in the first loop of `tflush` (line 848), at node `d` -/
  | flushLocal (d : ℕ)
  /-- in the second loop (line 857), at node `d` -/
  | flushShared (d : ℕ)
  /-- in the body of the second loop -/
  | shipping (d : ℕ)
  deriving DecidableEq

/-- What a PE has for itself: `CkMyPe()`, `local_buf` up to `local_idx` for each destination node,
    what it has handed to the client, and `tot_recv_count`. -/
structure Worker (α : Type*) where
  myPe : ℕ
  task : Task
  localBuf : ℕ → List (ItemT α)
  delivered : List α
  totRecvCount : ℕ

/-- A node: its PEs by rank, and what `HTramNodeGrp` has for each destination node. -/
structure Host (α : Type*) where
  worker : ℕ → Worker α
  shared : ℕ → Node α

/-- A message in flight: for `receive` or `receive_small` on node `dest`, or a sorted message. -/
inductive Packet (α : Type*)
  | shared (dest : ℕ) (msg : Message α)
  | small (dest : ℕ) (items : List (ItemT α))
  | post (post : Post α)

/-- All nodes and the messages in flight. -/
abbrev Cluster (α : Type*) := Net (Host α) (Packet α)

variable {α : Type*}

namespace Pc

/-- The PE is outside both functions. -/
def isIdle : Pc α → Bool
  | .idle => true
  | _ => false

@[simp] theorem isIdle_iff {c : Pc α} : c.isIdle = true ↔ c = .idle := by
  cases c <;> simp [isIdle]

end Pc

namespace Host

/-- PE `r` becomes `w`. -/
def setWorker (h : Host α) (r : ℕ) (w : Worker α) : Host α :=
  { h with worker := Function.update h.worker r w }

/-- What the PEs share for node `d` becomes `s`. -/
def setShared (h : Host α) (d : ℕ) (s : Node α) : Host α :=
  { h with shared := Function.update h.shared d s }

/-- `insertValue` (lines 702–717) for node `d` on PE `r`, up to `copyToNodeBuf`. -/
def insertValue (x : ItemT α) (d r : ℕ) (h : Host α) : Host α :=
  let w := h.worker r
  let buf :=
    if (w.localBuf d).length ≤ localBufSize - 1 then w.localBuf d ++ [x] else w.localBuf d
  let w := { w with localBuf := Function.update w.localBuf d buf }
  if buf.length = localBufSize then
    let s := h.shared d
    (h.setWorker r { w with task := .copying d }).setShared d
      ({ s with log := s.log ++ buf : Node α }.goto r (.claim buf))
  else h.setWorker r w

/-- One access of PE `r` to what it shares for node `d`. When it has returned it becomes `w`. -/
def access (cfg : ClusterConfig) (r d : ℕ) (w : Worker α) (h : Host α) : Host α × List (Packet α) :=
  let s := (h.shared d).run cfg.toNodeConfig r
  let h' := if (s.pc r).isIdle then h.setWorker r w else h
  (h'.setShared d s, (s.sent.drop (h.shared d).sent.length).map fun e => .shared d e.msg)

/-- PE `r` goes on with its call: what it changes, and what it sends. -/
def turn (cfg : ClusterConfig) (r : ℕ) (h : Host α) : Option (Host α × List (Packet α)) :=
  let w := h.worker r
  match w.task with
  | .idle => none
  | .copying d =>
    some (h.access cfg r d { w with localBuf := Function.update w.localBuf d [], task := .idle })
  | .flushLocal d =>
    if d < cfg.numNodes then
      some (h.setWorker r
        { w with localBuf := Function.update w.localBuf d [], task := .flushLocal (d + 1) },
        [.small d (w.localBuf d)])
    else some (h.setWorker r { w with task := .flushShared 0 }, [])
  | .flushShared d =>
    if d < cfg.numNodes then
      some ((h.setWorker r { w with task := .shipping d }).setShared d
        ((h.shared d).goto r .check), [])
    else some (h.setWorker r { w with task := .idle }, [])
  | .shipping d => some (h.access cfg r d { w with task := .flushShared (d + 1) })

/-- PE `r` hands `items` to the client (`receivePerPE`, lines 1483–1496). -/
def hand (r : ℕ) (items : List α) (h : Host α) : Host α :=
  let w := h.worker r
  h.setWorker r
    { w with
      delivered := w.delivered ++ items
      totRecvCount := w.totRecvCount + items.length }

end Host

/-! ## Arrival -/

/-- The slots as items, if all of them have been written. -/
def loaded : List (Option (ItemT α)) → Option (List (ItemT α))
  | [] => some []
  | none :: _ => none
  | some x :: xs => (loaded xs).map (x :: ·)

/-- The item as a node finds it. -/
def ItemT.item (x : ItemT α) : Item α := ⟨x.destPe, x.payload, ⟨none, 0, false, fun _ => 0⟩⟩

namespace ClusterConfig

/-- `CkNumPes()`. -/
def allPes (cfg : ClusterConfig) : ℕ := cfg.numNodes * cfg.numPes

/-- `CkNodeOf(pe)`. -/
def nodeOf (cfg : ClusterConfig) (pe : ℕ) : ℕ := pe / cfg.numPes

/-- `CkRankOf(pe)`. -/
def rankOf (cfg : ClusterConfig) (pe : ℕ) : ℕ := pe % cfg.numPes

/-- The PEs of node `n`. -/
def node (cfg : ClusterConfig) (n : ℕ) : Htram.Node := ⟨n * cfg.numPes, cfg.numPes⟩

end ClusterConfig

/-- What the client is handed when `post` arrives. -/
def posted (cfg : ClusterConfig) (post : Post α) : List α :=
  post.msg.receivePerPE (cfg.rankOf post.pe)

/-- A call on PE `pe`, an access of it, or the arrival of message `k`, where `skip` is
    `skip_empty_deliveries` on the PE that sorts it. -/
inductive Event (α : Type*)
  | insert (pe : ℕ) (x : ItemT α)
  | flush (pe : ℕ)
  | turn (pe : ℕ)
  | deliver (k : ℕ) (skip : Bool)

namespace Cluster

variable [Inhabited α]

/-- Node `d` has sorted `items` and posts them to its PEs. -/
def sorts (cfg : ClusterConfig) (skip : Bool) (d : ℕ) (items : List (ItemT α)) : List (Packet α) :=
  (HTramRecv.post (cfg.node d) skip items.length (items.map ItemT.item)).map .post

/-- A message arrives: at a node, which sorts it, or, sorted, at a PE. -/
def arrive (cfg : ClusterConfig) (skip : Bool) (s : Cluster α) : Packet α → Option (Cluster α)
  | .shared d m => (loaded m.received).map fun items => s.emit (sorts cfg skip d items)
  | .small d items => some (s.emit (sorts cfg skip d items))
  | .post p =>
    some (s.set (cfg.nodeOf p.pe)
      ((s.node (cfg.nodeOf p.pe)).hand (cfg.rankOf p.pe) (posted cfg p)))

/-- All nodes as their constructors leave them. -/
def start (cfg : ClusterConfig) : Cluster α :=
  ⟨fun n => ⟨fun r => ⟨n * cfg.numPes + r, .idle, fun _ => [], [], 0⟩,
    fun _ => Node.init cfg.toNodeConfig⟩, []⟩

/-- One event. A PE that is in a call makes no other. -/
def step (cfg : ClusterConfig) (s : Cluster α) : Event α → Option (Cluster α)
  | .insert pe x =>
    let h := s.node (cfg.nodeOf pe)
    if pe < cfg.allPes ∧ x.destPe < cfg.allPes ∧ (h.worker (cfg.rankOf pe)).task = .idle then
      some (s.set (cfg.nodeOf pe) (h.insertValue x (cfg.nodeOf x.destPe) (cfg.rankOf pe)))
    else none
  | .flush pe =>
    let h := s.node (cfg.nodeOf pe)
    let w := h.worker (cfg.rankOf pe)
    if pe < cfg.allPes ∧ w.task = .idle then
      some (s.set (cfg.nodeOf pe) (h.setWorker (cfg.rankOf pe) { w with task := .flushLocal 0 }))
    else none
  | .turn pe =>
    if pe < cfg.allPes then
      ((s.node (cfg.nodeOf pe)).turn cfg (cfg.rankOf pe)).map fun (h, out) =>
        (s.set (cfg.nodeOf pe) h).emit out
    else none
  | .deliver k skip => s.flight[k]?.bind (arrive cfg skip (s.take k))

omit [Inhabited α] in
/-- `countBuffers` on PE `pe` (lines 1217–1235). -/
def countBuffers (cfg : ClusterConfig) (s : Cluster α) (pe : ℕ) : ℕ :=
  let h := s.node (cfg.nodeOf pe)
  ∑ i ∈ Finset.range cfg.numNodes,
    (((h.worker (cfg.rankOf pe)).localBuf i).length + (h.shared i).doneCount)

omit [Inhabited α] in
/-- The sum that `onBufferCount` gets. -/
def bufferCount (cfg : ClusterConfig) (s : Cluster α) : ℕ :=
  ∑ pe ∈ Finset.range cfg.allPes, s.countBuffers cfg pe

/-- A run of events. -/
def run (cfg : ClusterConfig) : List (Event α) → Cluster α → Option (Cluster α) := runs (step cfg)

end Cluster

end PP

end Htram
