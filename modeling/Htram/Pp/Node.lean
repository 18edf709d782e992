import Htram.Pe.Htram

/-!
# `PP` mode on a node of one PE

Under `PP` a PE collects items for a destination node in `local_buf` and copies every
`LOCAL_BUFSIZE` of them into a buffer that the PEs of its node share (`htram_group.C` lines
702–717, 778–822 and 844–894). This is the code as the only PE of a node runs it: nothing
happens between two accesses to the shared counters, so a loop that waits for another PE never
ends.

`get_idx`, `done_count` and the mailbox are `std::atomic<int>` and wrap. A loop takes its bound
as an argument.
-/

namespace Htram

namespace PP

/-- `LOCAL_BUFSIZE` (`htram_group.h`, line 96). -/
def localBufSize : ℕ := 16

/-- The machine and the build: `maxBufSize` is `BUFSIZE`, and `mailboxes` is off in a
    `BUCKETS_BY_DEST` build. The capacity of a shared buffer is an `int`. -/
structure Config where
  numNodes : ℕ
  maxBufSize : ℕ
  mailboxes : Bool
  fits : maxBufSize + localBufSize < 2 ^ 31

/-- `item` (`htram_group.h`, lines 140–144). -/
structure ItemT (α : Type*) where
  destPe : ℕ
  payload : α
  deriving DecidableEq

/-- `HTramMessage` and `HTramLocalMessage`. `slots i` is what was written to `items()[i]`. -/
structure Message (α : Type*) where
  slots : ℕ → Option (ItemT α)
  next : ℤ
  cap : ℕ

variable {α : Type*}

/-- `newHTramMessage` and `newHTramLocalMessage` (`htram_group.h`, lines 195–200 and 254–259). -/
def newMessage (capacity : ℕ) : Message α := ⟨fun _ => none, 0, capacity⟩

namespace Message

/-- `setItem(m->items()[i], ...)`. -/
def setItem (m : Message α) (i : ℕ) (x : ItemT α) : Message α :=
  { m with slots := Function.update m.slots i (some x) }

/-- `items()[idx + i] = src->items()[i]` for `i < increment`. What this writes below slot 0 is
    not in the message. -/
def copyIn (m : Message α) (idx : ℤ) (increment : ℕ) (src : Message α) : Message α :=
  { m with
    slots := fun j =>
      if idx ≤ j ∧ j < idx + increment then src.slots (j - idx).toNat else m.slots j }

/-- What a receiver of the message takes out of it: the slots below `next`. -/
def received (m : Message α) : List (Option (ItemT α)) := (List.range m.next.toNat).map m.slots

end Message

/-- The value of a `std::atomic<int>` after `fetch_add`. -/
def fetchAdd (x n : ℤ) : ℤ := (x + n).bmod (2 ^ 32)

/-- What the PE has for one destination node: its entries of `local_idx` and `local_buf`, those
    of `HTramNodeGrp`, and the messages handed to Charm++. `claims` lists the slots at which
    `copyToNodeBuf` began to write. -/
structure Dest (α : Type*) where
  localIdx : ℕ
  localBuf : Message α
  getIdx : ℤ
  doneCount : ℤ
  mailbox : ℤ
  msgBuffer : Message α
  sent : List (Message α)
  claims : List ℤ

namespace Dest

/-- The constructors of `HTram` and `HTramNodeGrp` (lines 140–145 and 1250–1269). -/
def init (cfg : Config) : Dest α where
  localIdx := 0
  localBuf := newMessage localBufSize
  getIdx := 0
  doneCount := 0
  mailbox := 0
  msgBuffer := newMessage (cfg.maxBufSize + localBufSize)
  sent := []
  claims := []

/-- The loop of `copyToNodeBuf` that claims slots (lines 779–784): the slot that it got, and
    `get_idx` after it. -/
def claim (bufSize increment : ℕ) : ℕ → ℤ → Option (ℤ × ℤ)
  | 0, _ => none
  | fuel + 1, getIdx =>
    if getIdx ≥ bufSize then claim bufSize increment fuel (fetchAdd getIdx increment)
    else some (getIdx, fetchAdd getIdx increment)

/-- The shared buffer leaves with `next` set, is replaced, and the counters start again
    (lines 814–819 and 885–891). -/
def ship (cfg : Config) (next : ℤ) (d : Dest α) : Dest α :=
  { d with
    sent := d.sent ++ [{ d.msgBuffer with next := next }]
    msgBuffer := newMessage (cfg.maxBufSize + localBufSize)
    mailbox := 0
    doneCount := 0
    getIdx := 0 }

/-- The loops over the mailboxes and what follows (lines 800–819 and 871–891): the sum of the
    mailboxes, which is that of the only PE, has to reach `count`. -/
def awaitShip (cfg : Config) (count : ℤ) (d : Dest α) : Outcome (Dest α) :=
  if cfg.mailboxes ∧ d.mailbox < count then .hangs d else .returns (d.ship cfg count)

/-- The copy of `increment` items to the slot claimed, and the counts of it (lines 786–795). -/
def copyAt (cfg : Config) (increment : ℕ) (idx getIdx : ℤ) (d : Dest α) : Dest α :=
  { d with
    getIdx := getIdx
    claims := d.claims ++ [idx]
    msgBuffer := d.msgBuffer.copyIn idx increment d.localBuf
    doneCount := fetchAdd d.doneCount increment
    mailbox := if cfg.mailboxes then fetchAdd d.mailbox increment else d.mailbox }

@[simp] theorem copyAt_sent (cfg : Config) (increment : ℕ) (idx getIdx : ℤ) (d : Dest α) :
    (d.copyAt cfg increment idx getIdx).sent = d.sent := rfl

@[simp] theorem copyAt_localBuf (cfg : Config) (increment : ℕ) (idx getIdx : ℤ) (d : Dest α) :
    (d.copyAt cfg increment idx getIdx).localBuf = d.localBuf := rfl

@[simp] theorem copyAt_getIdx (cfg : Config) (increment : ℕ) (idx getIdx : ℤ) (d : Dest α) :
    (d.copyAt cfg increment idx getIdx).getIdx = getIdx := rfl

@[simp] theorem copyAt_doneCount (cfg : Config) (increment : ℕ) (idx getIdx : ℤ) (d : Dest α) :
    (d.copyAt cfg increment idx getIdx).doneCount = fetchAdd d.doneCount increment := rfl

/-- `copyToNodeBuf` (lines 778–822). The first loop ends within `2 ^ 28` rounds. -/
def copyToNodeBuf (cfg : Config) (bufSize increment : ℕ) (d : Dest α) : Outcome (Dest α) :=
  match claim bufSize increment (2 ^ 28) d.getIdx with
  | none => .hangs d
  | some (idx, getIdx) =>
    let d' := d.copyAt cfg increment idx getIdx
    let shipped :=
      if d.doneCount + increment = bufSize then d'.awaitShip cfg bufSize else .returns d'
    shipped.andThen fun d => .returns { d with localIdx := 0 }

/-- `insertValue` under `PP` (lines 702–717). -/
def insertValue (cfg : Config) (bufSize : ℕ) (x : ItemT α) (d : Dest α) : Outcome (Dest α) :=
  let d :=
    if d.localIdx ≤ localBufSize - 1 then
      { d with localBuf := d.localBuf.setItem d.localIdx x, localIdx := d.localIdx + 1 }
    else d
  if d.localIdx = localBufSize then d.copyToNodeBuf cfg bufSize localBufSize else .returns d

/-- The first loop body of `tflush` under `PP` (lines 848–853). -/
def flushLocal (d : Dest α) : Dest α :=
  { d with
    sent := d.sent ++ [{ d.localBuf with next := d.localIdx }]
    localBuf := newMessage localBufSize
    localIdx := 0 }

/-- The second loop body of `tflush` under `PP` (lines 857–892). -/
def flushShared (cfg : Config) (bufSize : ℕ) (d : Dest α) : Outcome (Dest α) :=
  if d.doneCount = 0 then .returns d
  else
    let idx := d.getIdx
    let d := { d with getIdx := fetchAdd d.getIdx bufSize }
    if idx ≥ bufSize then .returns d
    else if idx ≠ d.doneCount then .hangs d
    else d.awaitShip cfg d.doneCount

end Dest

/-! ## The calls -/

/-- `f` for node `n`. -/
def onNode (n : ℕ) (f : Dest α → Outcome (Dest α)) (p : ℕ → Dest α) : Outcome (ℕ → Dest α) :=
  match f (p n) with
  | .returns d => .returns (Function.update p n d)
  | .aborts => .aborts
  | .hangs d => .hangs (Function.update p n d)

/-- `f` for the nodes listed, in order, until one hangs. -/
def eachNode (f : Dest α → Outcome (Dest α)) : List ℕ → (ℕ → Dest α) → Outcome (ℕ → Dest α)
  | [], p => .returns p
  | n :: ns, p => (onNode n f p).andThen (eachNode f ns)

/-- `insertValue` (lines 702–717). `CkNodeSize(0)` is 1: a PE has the number of its node. -/
def insertValue (cfg : Config) (bufSize : ℕ) (x : ItemT α) (p : ℕ → Dest α) :
    Outcome (ℕ → Dest α) := onNode x.destPe (Dest.insertValue cfg bufSize x) p

/-- `tflush` under `PP` (lines 844–894). -/
def tflush (cfg : Config) (bufSize : ℕ) (p : ℕ → Dest α) : Outcome (ℕ → Dest α) :=
  (eachNode (fun d => .returns d.flushLocal) (List.range cfg.numNodes) p).andThen
    (eachNode (Dest.flushShared cfg bufSize) (List.range cfg.numNodes))

/-- `insertValue` for each item. -/
def insertAll (cfg : Config) (bufSize : ℕ) : List (ItemT α) → (ℕ → Dest α) →
    Outcome (ℕ → Dest α)
  | [], p => .returns p
  | x :: xs, p => (insertValue cfg bufSize x p).andThen (insertAll cfg bufSize xs)

/-- What a client does with a new PE: it inserts the items `xs` and flushes. -/
def insertFlush (cfg : Config) (bufSize : ℕ) (xs : List (ItemT α)) : Outcome (ℕ → Dest α) :=
  (insertAll cfg bufSize xs fun _ => Dest.init cfg).andThen (tflush cfg bufSize)

end PP

end Htram
