import Htram.Common.SlotBlocks
import Htram.Pp.Node
import Mathlib.Logic.Relation

/-!
# The shared buffer of a node under `PP`

Any number of PEs of a node run `copyToNodeBuf` and the second loop body of `tflush` for one
destination node at the same time (`htram_group.C` lines 778–822 and 857–892). A step is one
access of one PE to what they share: an atomic operation, a load of `msgBuffers`, a store to it
or to the message. The steps of the PEs come in any order.

The counters do not wrap here, and every PE has the same `bufSize`, a multiple of
`LOCAL_BUFSIZE`.
-/

namespace Htram

namespace PP

/-- The settings of a node: the number of its PEs, `bufSize`, `BUFSIZE`, and whether the build
    has mailboxes. -/
structure NodeConfig where
  numPes : ℕ
  bufSize : ℕ
  maxBufSize : ℕ
  mailboxes : Bool
  whole : localBufSize ∣ bufSize

/-- In which function a PE ships. -/
inductive Role
  | copy | flush
  deriving DecidableEq

/-- What a PE does next. Its locals are the arguments: `items` is what `local_buf` has. -/
inductive Pc (α : Type*)
  /-- outside both functions -/
  | idle
  /-- `get_idx.fetch_add(increment)` (lines 779 and 782) -/
  | claim (items : List (ItemT α))
  /-- the loop over the items (line 786), with the load of `msgBuffers` in line 787 -/
  | write (items : List (ItemT α)) (idx i : ℕ)
  /-- `items()[idx + i] = x` in message `m`, with `x` from `local_buf` (lines 787–788) -/
  | store (items : List (ItemT α)) (idx i m : ℕ) (x : ItemT α)
  /-- `done_count.fetch_add(increment)` (line 790) -/
  | count (idx : ℕ)
  /-- `mailbox_receiver[rank].fetch_add(increment)` (line 794); `last` if `done_count` has
      reached `bufSize` -/
  | mail (last : Bool)
  /-- the sum of the mailboxes, up to `j` (lines 801–808 and 872–879) -/
  | await (role : Role) (target j sum : ℕ)
  /-- `mailbox_receiver[j].store(0)` (lines 809–811 and 880–882) -/
  | clear (role : Role) (j : ℕ)
  /-- the load of `done_count` in line 885 -/
  | load
  /-- the load of `msgBuffers` in lines 814 and 885 -/
  | setNext (next : ℕ)
  /-- `next` is set in message `m` (lines 814 and 885) -/
  | putNext (next m : ℕ)
  /-- the load of `msgBuffers` in lines 816 and 887 -/
  | send
  /-- message `m` is handed to Charm++ (lines 816 and 887) -/
  | handOver (m : ℕ)
  /-- `msgBuffers = newHTramMessage(...)` (lines 817 and 888) -/
  | renew
  /-- `done_count = 0` (lines 818 and 889) -/
  | zeroDone
  /-- `get_idx = 0` (lines 819 and 891) -/
  | zeroGet
  /-- `if (done_count)` (line 857) -/
  | check
  /-- `get_idx.fetch_add(bufSize)` (line 859) -/
  | lock
  /-- `done_count.fetch_add(0)` (lines 862 and 866) -/
  | read (idx : ℕ)

variable {α : Type*}

/-- After the mailboxes: `copyToNodeBuf` sets `next` to `bufSize`, `tflush` to `done_count`. -/
def Role.ships (cfg : NodeConfig) : Role → Pc α
  | .copy => .setNext cfg.bufSize
  | .flush => .load

/-- A message that was shipped: the buffer it was, its contents then, and the slots that had
    been claimed in it. -/
structure Shipment (α : Type*) where
  id : ℕ
  msg : Message α
  claims : List ℕ

/-- What the PEs share, and where each PE is. `heap` has the messages by number and `msgBuffers`
    points to number `cur`; `claims` lists the first slots claimed in that message, and `log` the
    items that came to `copyToNodeBuf`. -/
structure Node (α : Type*) where
  getIdx : ℕ
  doneCount : ℕ
  mailbox : ℕ → ℕ
  heap : ℕ → Message α
  cur : ℕ
  pc : ℕ → Pc α
  sent : List (Shipment α)
  claims : List ℕ
  log : List (ItemT α)

namespace Node

/-- `HTramNodeGrp` as its constructor leaves it (lines 1250–1269). -/
def init (cfg : NodeConfig) : Node α where
  getIdx := 0
  doneCount := 0
  mailbox := fun _ => 0
  heap := fun _ => newMessage (cfg.maxBufSize + localBufSize)
  cur := 0
  pc := fun _ => .idle
  sent := []
  claims := []
  log := []

/-- PE `p` goes on with `c`. -/
def goto (s : Node α) (p : ℕ) (c : Pc α) : Node α := { s with pc := Function.update s.pc p c }

/-- Message `m` becomes `msg`. -/
def setMessage (s : Node α) (m : ℕ) (msg : Message α) : Node α :=
  { s with heap := Function.update s.heap m msg }

/-- One step of PE `p`. -/
def run (cfg : NodeConfig) (p : ℕ) (s : Node α) : Node α :=
  match s.pc p with
  | .idle => s
  | .claim items =>
    let idx := s.getIdx
    let s := { s with getIdx := idx + localBufSize }
    if idx ≥ cfg.bufSize then s
    else { s with claims := s.claims ++ [idx] : Node α }.goto p (.write items idx 0)
  | .write items idx i =>
    match items[i]? with
    | none => s.goto p (.count idx)
    | some x => s.goto p (.store items idx i s.cur x)
  | .store items idx i m x =>
    (s.setMessage m ((s.heap m).setItem (idx + i) x)).goto p (.write items idx (i + 1))
  | .count _ =>
    let last := decide (s.doneCount + localBufSize = cfg.bufSize)
    { s with doneCount := s.doneCount + localBufSize : Node α }.goto p
      (if cfg.mailboxes then .mail last else if last then Role.copy.ships cfg else .idle)
  | .mail last =>
    { s with mailbox := Function.update s.mailbox p (s.mailbox p + localBufSize) : Node α }.goto p
      (if last then .await .copy cfg.bufSize cfg.numPes 0 else .idle)
  | .await role target j sum =>
    s.goto p
      (if j < cfg.numPes then .await role target (j + 1) (sum + s.mailbox j)
      else if sum < target then .await role target 0 0
      else .clear role 0)
  | .clear role j =>
    if j < cfg.numPes then
      { s with mailbox := Function.update s.mailbox j 0 : Node α }.goto p (.clear role (j + 1))
    else s.goto p (role.ships cfg)
  | .load => s.goto p (.setNext s.doneCount)
  | .setNext next => s.goto p (.putNext next s.cur)
  | .putNext next m => (s.setMessage m { s.heap m with next := next }).goto p .send
  | .send => s.goto p (.handOver s.cur)
  | .handOver m =>
    { s with sent := s.sent ++ [⟨m, s.heap m, s.claims⟩] : Node α }.goto p .renew
  | .renew =>
    { s.setMessage (s.cur + 1) (newMessage (cfg.maxBufSize + localBufSize)) with
      cur := s.cur + 1, claims := [] : Node α }.goto p .zeroDone
  | .zeroDone => { s with doneCount := 0 : Node α }.goto p .zeroGet
  | .zeroGet => { s with getIdx := 0 : Node α }.goto p .idle
  | .check => s.goto p (if s.doneCount ≠ 0 then .lock else .idle)
  | .lock =>
    { s with getIdx := s.getIdx + cfg.bufSize : Node α }.goto p (.read s.getIdx)
  | .read idx =>
    if idx ≥ cfg.bufSize then s.goto p .idle
    else if idx ≠ s.doneCount then s
    else s.goto p (if cfg.mailboxes then .await .flush idx cfg.numPes 0 else .load)

/-- A PE enters `copyToNodeBuf` with a full `local_buf`, enters the loop body of `tflush`, or
    goes on. -/
inductive Step (cfg : NodeConfig) (s : Node α) : Node α → Prop
  | copy {p : ℕ} {items : List (ItemT α)} (hp : p < cfg.numPes) (hidle : s.pc p = .idle)
      (hfull : items.length = localBufSize) :
    Step cfg s ({ s with log := s.log ++ items : Node α }.goto p (.claim items))
  | flush {p : ℕ} (hp : p < cfg.numPes) (hidle : s.pc p = .idle) : Step cfg s (s.goto p .check)
  | run {p : ℕ} (hp : p < cfg.numPes) : Step cfg s (s.run cfg p)

/-- The state comes up in some run. -/
def Reachable (cfg : NodeConfig) (s : Node α) : Prop :=
  Relation.ReflTransGen (Step cfg) (init cfg) s

/-- PEs that take turns make a run. -/
theorem Reachable.turns {cfg : NodeConfig} {s : Node α} (hreach : Reachable cfg s) {ps : List ℕ}
    (hps : ∀ p ∈ ps, p < cfg.numPes) :
    Reachable cfg (ps.foldl (fun s p => s.run cfg p) s) := by
  induction ps generalizing s with
  | nil => exact hreach
  | cons p ps ih =>
    rw [List.foldl_cons]
    apply ih
    · exact hreach.tail (.run (hps p List.mem_cons_self))
    · exact fun q hq => hps q (List.mem_cons_of_mem p hq)

end Node

end PP

end Htram
