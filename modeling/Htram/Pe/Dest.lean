import Htram.Common.WordBits
import Htram.Hold.CombiningHold
import Htram.Hold.HoldQueue
import Mathlib.Algebra.Order.Ring.Rat

/-!
# One destination of `HTram`

Model of what `htram_group.C` does for one destination in a `BUCKETS_BY_DEST` build:
a node under `WPs` and `WsP`, a PE under `WW`. `Dest` has that destination's entry of
every per-destination array, and the functions here are the bodies that the library
runs for one destination index.

`bool` results and loops follow the source; a loop takes its bound as an argument and
is called with a bound it cannot reach. Counters are exact integers. `selectivity` is
a `float`, of which only the operations in `ReleaseArith` are used.
-/

namespace Htram

/-- The `float` operations on `selectivity` and `release_level`: the initial `1.0`,
    the product with `bufSize`, the comparisons of an admitted count with a level and
    `==`. -/
class ReleaseArith (F : Type*) where
  one : F
  level : F → ℕ → F
  gt : ℤ → F → Bool
  ge : ℤ → F → Bool
  lt : ℤ → F → Bool
  eq : F → F → Bool

instance : ReleaseArith ℚ where
  one := 1
  level := fun s n => s * n
  gt := fun u l => decide (l < u)
  ge := fun u l => decide (l ≤ u)
  lt := fun u l => decide ((u : ℚ) < l)
  eq := fun a b => decide (a = b)

/-- The aggregation modes with buffers of the PE's own (`htram_group.h`, lines 107–117). -/
inductive Agg
  | WPs | WsP | WW
  deriving DecidableEq

/-- The entry method a buffer is handed to. -/
inductive Entry
  | receive | receiveOnPE | receiveNoSort
  deriving DecidableEq

/-- What does not change while a PE runs: the machine, the build and the client. -/
structure Config (α : Type*) where
  numNodes : ℕ
  nodeSize : ℕ
  histoBucketCount : ℕ
  maxBufSize : ℕ
  addFillers : Bool
  getDestProc : α → ℕ
  ops : HoldOps α

/-- The settings of a PE. `combining` is `holds != nullptr`. -/
structure Knobs (F : Type*) where
  agg : Agg
  bufSize : ℕ
  directThreshold : ℤ
  tramThreshold : ℤ
  selectivity : F
  releaseLevel : F
  combining : Bool

namespace Knobs

variable {F : Type*} [ReleaseArith F]

/-- The settings after `changeThreshold` (lines 381–384), `updateReleaseLevel` included. -/
def retuned (k : Knobs F) (directThreshold tramThreshold : ℤ) (selectivity : F) : Knobs F :=
  { k with
    directThreshold := directThreshold
    tramThreshold := tramThreshold
    selectivity := selectivity
    releaseLevel := ReleaseArith.level selectivity k.bufSize }

/-- The settings after `setBufferSize`, `updateReleaseLevel` included. -/
def resized (k : Knobs F) (newSize : ℕ) : Knobs F :=
  { k with
    bufSize := newSize
    releaseLevel := ReleaseArith.level k.selectivity newSize }

/-- The settings after `coarsenBuckets` (lines 580–584). A negative direct threshold
    stays as it is. -/
def coarsened (k : Knobs F) (factor : ℕ) : Knobs F :=
  { k with
    tramThreshold := k.tramThreshold.tdiv factor
    directThreshold :=
      if k.directThreshold > 0 then k.directThreshold.tdiv factor else k.directThreshold }

end Knobs

namespace Config

variable {α : Type*}

/-- `CkNumPes()`, every node having `nodeSize` PEs. -/
def numPes (cfg : Config α) : ℕ := cfg.numNodes * cfg.nodeSize

/-- `nodeOf[pe]`. -/
def nodeOf (cfg : Config α) (pe : ℕ) : ℕ := pe / cfg.nodeSize

/-- `hold_words`. -/
def holdWords (cfg : Config α) : ℕ := (cfg.histoBucketCount + 63) / 64

/-- `destCount()` (`htram_group.h`, line 331). -/
def destCount (cfg : Config α) : Agg → ℕ
  | .WW => cfg.numPes
  | _ => cfg.numNodes

/-- `merged_top` (line 547): the buckets that `coarsenBuckets` merges lie below it. -/
def mergedTop (cfg : Config α) (keepTop : Bool) : ℕ :=
  if keepTop then cfg.histoBucketCount - 1 else cfg.histoBucketCount

/-- The destination index for PE `pe`. -/
def destOf (cfg : Config α) (agg : Agg) (pe : ℕ) : ℕ :=
  if agg = .WW then pe else cfg.nodeOf pe

end Config

/-! ## Messages -/

/-- A note on how an item came into a buffer, which the source does not keep: its
    bucket, the threshold at that moment, whether a filler loop put it there, and how
    many items each bucket held before it was taken. -/
structure Fill where
  bucket : Option ℕ
  threshold : ℤ
  filler : Bool
  held : ℕ → ℕ

/-- `item` (`htram_group.h`, lines 140–144). -/
structure Item (α : Type*) where
  destPe : ℕ
  payload : α
  fill : Fill

/-- `HTramMessage` (lines 166–192). `items` are the slots written, in index order, and
    `overrun` tells whether a slot at or past `cap` has been written. -/
structure HTramMessage (α : Type*) where
  items : List (Item α)
  next : ℕ
  cap : ℕ
  overrun : Bool

variable {α F : Type*}

/-- `newHTramMessage` (lines 195–200). -/
def newHTramMessage (capacity : ℕ) : HTramMessage α := ⟨[], 0, capacity, false⟩

namespace HTramMessage

/-- `setItem(m->items()[m->next], ...); m->next++`. -/
def put (m : HTramMessage α) (x : Item α) : HTramMessage α :=
  { m with
    items := m.items ++ [x]
    next := m.next + 1
    overrun := m.overrun || decide (m.cap ≤ m.next) }

/-- A buffer of `capacity` with the items of `m` copied in (`setBufferSize`, lines 214–216). -/
def grow (m : HTramMessage α) (capacity : ℕ) : HTramMessage α :=
  ⟨m.items, m.next, capacity, m.overrun || decide (capacity < m.next)⟩

/-- The slots from 0 overwritten with `xs`. -/
def copyIn (m : HTramMessage α) (xs : List (Item α)) : HTramMessage α :=
  { m with items := xs, overrun := m.overrun || decide (m.cap < xs.length) }

end HTramMessage

/-- A message handed to Charm++, with the `bufSize` of that moment. -/
structure Sent (α : Type*) where
  entry : Entry
  msg : HTramMessage α
  bufSize : ℕ

/-! ## The state -/

/-- One destination's entries of the arrays of `HTram`. `totSendCount` is what the
    destination has added to `tot_send_count`, `localBuffers` are those of the node's
    PEs, by rank, and `sent` lists the messages handed to Charm++. -/
structure Dest (α : Type*) where
  updatesInTram : ℤ
  fullSends : Int32
  totSendCount : ℕ
  tramHold : ℕ → HoldQueue α
  holdBits : WordBits.Row
  hold : CombiningHold α
  msgBuffer : HTramMessage α
  localBuffers : ℕ → List (Item α)
  sent : List (Sent α)

namespace Dest

/-- The destination as the constructor leaves it (lines 112–157). -/
def init [Inhabited α] (bufSize : ℕ) : Dest α where
  updatesInTram := 0
  fullSends := 0
  totSendCount := 0
  tramHold := fun _ => HoldQueue.init
  holdBits := fun _ => 0
  hold := CombiningHold.init 0
  msgBuffer := newHTramMessage bufSize
  localBuffers := fun _ => []
  sent := []

/-- `holdPush` (`htram_group.h`, lines 348–351). -/
def holdPush (d : Dest α) (b : ℕ) (x : α) : Dest α :=
  { d with
    tramHold := Function.update d.tramHold b ((d.tramHold b).push x)
    holdBits := WordBits.set d.holdBits b }

/-- `tram_hold[d][b].pop()`. -/
def holdPop (d : Dest α) (b : ℕ) : Dest α :=
  { d with tramHold := Function.update d.tramHold b (d.tramHold b).pop }

/-- `holdEmptied` (lines 352–354). -/
def holdEmptied (d : Dest α) (b : ℕ) : Dest α :=
  { d with holdBits := WordBits.clear d.holdBits b }

/-- `pop()`, and `holdEmptied` if that was the last item. -/
def holdTake (d : Dest α) (b : ℕ) : Dest α :=
  let d := d.holdPop b
  if (d.tramHold b).empty then d.holdEmptied b else d

theorem holdTake_eq (d : Dest α) (b : ℕ) :
    d.holdTake b =
      { d with
        tramHold := Function.update d.tramHold b (d.tramHold b).pop
        holdBits :=
          if (d.tramHold b).pop.empty then WordBits.clear d.holdBits b else d.holdBits } := by
  unfold holdTake holdPop holdEmptied
  simp only [Function.update_self]
  split_ifs <;> rfl

/-- `holdNext` (lines 356–368); `none` is `INT_MAX`. -/
def holdNext (cfg : Config α) (d : Dest α) (start : ℕ) : Option ℕ :=
  if start ≥ cfg.histoBucketCount then none else WordBits.next d.holdBits cfg.holdWords start

/-- The items held in each bucket, in order. -/
def queues (d : Dest α) (b : ℕ) : List α := (d.tramHold b).toList

/-- The number of items held in each bucket. -/
def heldSizes (k : Knobs F) (d : Dest α) : ℕ → ℕ :=
  if k.combining then d.hold.heldCount else fun b => (d.tramHold b).size

/-- The note for an item that enters the buffer now. -/
def fill (k : Knobs F) (d : Dest α) (bucket : Option ℕ) (filler : Bool) : Fill :=
  ⟨bucket, k.tramThreshold, filler, d.heldSizes k⟩

/-- The item goes into the buffer's next slot. -/
def put (d : Dest α) (x : Item α) : Dest α := { d with msgBuffer := d.msgBuffer.put x }

/-- Hand the buffer to an entry method and replace it. -/
def sendTo (entry : Entry) (k : Knobs F) (d : Dest α) : Dest α :=
  { d with
    sent := d.sent ++ [⟨entry, d.msgBuffer, k.bufSize⟩]
    msgBuffer := newHTramMessage k.bufSize }

/-- Hand the buffer to the node's `receive`, or to the PE under `WW`. -/
def send (k : Knobs F) (d : Dest α) : Dest α :=
  d.sendTo (if k.agg = .WW then .receiveOnPE else .receive) k

/-- `updates_in_tram[d] -= msgBuffers[d]->next`. -/
def uncount (d : Dest α) : Dest α :=
  { d with updatesInTram := d.updatesInTram - d.msgBuffer.next }

/-- `shipBuffer` (lines 1038–1049). -/
def shipBuffer (k : Knobs F) (d : Dest α) (full : Bool) : Dest α :=
  { d with
    totSendCount := d.totSendCount + d.msgBuffer.next
    fullSends := if full then d.fullSends + 1 else d.fullSends : Dest α }.send k

/-! ## Without combining -/

/-- The inner loop of `insertBucketsByDest` (lines 601–622) on bucket `i`. -/
def insertBucket [ReleaseArith F] (cfg : Config α) (k : Knobs F) (i : ℕ) :
    ℕ → Dest α → Dest α
  | 0, d => d
  | fuel + 1, d =>
    match (d.tramHold i).front with
    | none => d
    | some item =>
      let x : Item α := ⟨cfg.getDestProc item, item, d.fill k (some i) false⟩
      let d := (d.holdTake i).put x
      let d := if d.msgBuffer.next = k.bufSize then d.uncount.shipBuffer k true else d
      if ReleaseArith.lt d.updatesInTram k.releaseLevel then d else insertBucket cfg k i fuel d

/-- `insertBucketsByDest` (lines 597–629). -/
def insertBucketsByDest [ReleaseArith F] (cfg : Config α) (k : Knobs F) (high : ℤ) (d : Dest α) :
    Dest α :=
  WordBits.forNext (holdNext cfg) (fun i _ => decide ((i : ℤ) ≤ high))
    (fun i d => insertBucket cfg k i (d.tramHold i).size d) (fun _ => false)
    cfg.histoBucketCount 0 d

/-- `insertValueWPsTo` (lines 667–687), for an item whose bucket is `bucket` if the
    caller was given one. -/
def insertValueWPsTo (k : Knobs F) (value : α) (destPe : ℕ) (bucket : Option ℕ) (d : Dest α) :
    Dest α :=
  let d := d.put ⟨destPe, value, d.fill k bucket false⟩
  if d.msgBuffer.next = k.bufSize then d.uncount.shipBuffer k true else d

/-- The loop body of `tflush` and `flushDest` that empties bucket `i` into buffers
    (lines 956–973 and 1105–1121). -/
def drainBucket (cfg : Config α) (k : Knobs F) (i : ℕ) : ℕ → Dest α → Dest α
  | 0, d => d
  | fuel + 1, d =>
    match (d.tramHold i).front with
    | none => d
    | some item =>
      let x : Item α := ⟨cfg.getDestProc item, item, d.fill k (some i) false⟩
      let d := (d.holdPop i).put x
      let d := if d.msgBuffer.next = k.bufSize then d.uncount.shipBuffer k false else d
      drainBucket cfg k i fuel d

/-- Empty the buckets up to the threshold into buffers. -/
def drain (cfg : Config α) (k : Knobs F) (d : Dest α) : Dest α :=
  WordBits.forNext (holdNext cfg) (fun i _ => decide ((i : ℤ) ≤ k.tramThreshold))
    (fun i d => drainBucket cfg k i (d.tramHold i).size (d.holdEmptied i)) (fun _ => false)
    cfg.histoBucketCount 0 d

/-- One filler from bucket `i`. -/
def takeFiller (cfg : Config α) (k : Knobs F) (i : ℕ) (item : α) (d : Dest α) : Dest α :=
  (d.holdTake i).put ⟨cfg.getDestProc item, item, d.fill k (some i) true⟩

/-- The inner filler loop of `flushDest` (lines 1131–1138). -/
def fillFromDest (cfg : Config α) (k : Knobs F) (i : ℕ) : ℕ → Dest α → Dest α
  | 0, d => d
  | fuel + 1, d =>
    match (d.tramHold i).front with
    | none => d
    | some item =>
      if d.msgBuffer.next < k.bufSize / 2 then
        fillFromDest cfg k i fuel (takeFiller cfg k i item d)
      else d

/-- The fillers of `flushDest` (lines 1128–1139). -/
def fillersDest (cfg : Config α) (k : Knobs F) (d : Dest α) : Dest α :=
  WordBits.forNext (holdNext cfg)
    (fun i d => decide (i < cfg.histoBucketCount) && decide (d.msgBuffer.next < k.bufSize / 2))
    (fun i d => fillFromDest cfg k i (d.tramHold i).size d) (fun _ => false)
    cfg.histoBucketCount (k.tramThreshold + 1).toNat d

/-- The inner filler loop of `tflush` (lines 984–993). -/
def fillFromFlush (cfg : Config α) (k : Knobs F) (i : ℕ) : ℕ → Dest α → Dest α
  | 0, d => d
  | fuel + 1, d =>
    match (d.tramHold i).front with
    | none => d
    | some item =>
      let d := takeFiller cfg k i item d
      if d.msgBuffer.next ≥ k.bufSize / 2 then d else fillFromFlush cfg k i fuel d

/-- The fillers of `tflush` (lines 980–997). -/
def fillersFlush (cfg : Config α) (k : Knobs F) (d : Dest α) : Dest α :=
  if d.msgBuffer.next < k.bufSize / 2 then
    WordBits.forNext (holdNext cfg) (fun i _ => decide (i < cfg.histoBucketCount))
      (fun i d => fillFromFlush cfg k i (d.tramHold i).size d)
      (fun d => decide (d.msgBuffer.next ≥ k.bufSize / 2))
      cfg.histoBucketCount (k.tramThreshold + 1).toNat d
  else d

/-- The end of both flushes: ship what is in the buffer, with `fillers` added. -/
def shipPartial (cfg : Config α) (k : Knobs F) (fillers : Dest α → Dest α) (d : Dest α) :
    Dest α :=
  if d.msgBuffer.next = 0 then d
  else
    let d := d.uncount
    let d := if cfg.addFillers then fillers d else d
    d.shipBuffer k false

/-- The partial buffer as `tflush` ships it first (lines 914–941). Not counted in
    `tot_send_count`. -/
def flushBuffer (k : Knobs F) (d : Dest α) : Dest α :=
  if d.msgBuffer.next = 0 then d else d.uncount.send k

/-- `flushDest` with combining off (lines 1101–1143). -/
def flushQueue (cfg : Config α) (k : Knobs F) (d : Dest α) : Dest α :=
  (d.drain cfg k).shipPartial cfg k (fillersDest cfg k)

/-- The release of admitted items at the end of `sendItemPrioDeferredDest` and of
    `setBufferSize` (lines 221–222 and 458–459). -/
def releaseOver [ReleaseArith F] (cfg : Config α) (k : Knobs F) (d : Dest α) : Dest α :=
  if ReleaseArith.gt d.updatesInTram k.releaseLevel then
    d.insertBucketsByDest cfg k k.tramThreshold
  else d

/-- Where `sendItemPrioDeferredDest` puts an item (lines 448–457). -/
def enqueue (k : Knobs F) (newUpdate : α) (neighborBucket destProc : ℕ) (d : Dest α) : Dest α :=
  if (neighborBucket : ℤ) > k.tramThreshold then d.holdPush neighborBucket newUpdate
  else
    let d := { d with updatesInTram := d.updatesInTram + 1 }
    if (neighborBucket : ℤ) > k.directThreshold then d.holdPush neighborBucket newUpdate
    else d.insertValueWPsTo k newUpdate destProc (some neighborBucket)

/-! ## With combining -/

/-- `holds[d].release(high, limit, appendHeld)`. -/
def releaseInto (cfg : Config α) (k : Knobs F) (high limit : ℤ) (filler : Bool) (d : Dest α) :
    Dest α :=
  let (hold, out) := d.hold.release high limit
  out.foldl
    (fun d e => d.put ⟨cfg.getDestProc e.item, e.item,
      ⟨some e.bucket, k.tramThreshold, filler, e.held⟩⟩)
    { d with hold := hold }

/-- Fill the buffer from the admitted buckets. -/
def releaseAdmitted (cfg : Config α) (k : Knobs F) (d : Dest α) : Dest α :=
  d.releaseInto cfg k k.tramThreshold (k.bufSize - d.msgBuffer.next) false

/-- The loop of `releaseFull` (lines 1054–1064). -/
def releaseFullLoop [ReleaseArith F] (cfg : Config α) (k : Knobs F) : ℕ → Dest α → Dest α
  | 0, d => d
  | fuel + 1, d =>
    if ReleaseArith.ge d.updatesInTram k.releaseLevel then
      let d := d.releaseAdmitted cfg k
      if d.hold.stuck ∨ d.msgBuffer.next < k.bufSize then d
      else releaseFullLoop cfg k fuel (d.uncount.shipBuffer k true)
    else d

/-- `releaseFull` (lines 1054–1064). -/
def releaseFull [ReleaseArith F] (cfg : Config α) (k : Knobs F) (d : Dest α) : Dest α :=
  releaseFullLoop cfg k (d.hold.count + 1) d

/-- The loop of `flushDest` with combining on (lines 1073–1081). -/
def flushHeldLoop (cfg : Config α) (k : Knobs F) : ℕ → Dest α → Dest α
  | 0, d => d
  | fuel + 1, d =>
    let d := d.releaseAdmitted cfg k
    if d.hold.stuck ∨ d.msgBuffer.next < k.bufSize then d
    else flushHeldLoop cfg k fuel (d.uncount.shipBuffer k false)

/-- The fillers of `flushDest` with combining on (lines 1085–1091). -/
def fillersHold (cfg : Config α) (k : Knobs F) (d : Dest α) : Dest α :=
  if d.msgBuffer.next < k.bufSize / 2 then
    d.releaseInto cfg k (cfg.histoBucketCount - 1) (k.bufSize / 2 - d.msgBuffer.next : ℕ) true
  else d

/-- The partial buffer of `flushDest` with combining on (lines 1082–1093). -/
def shipHeld (cfg : Config α) (k : Knobs F) (d : Dest α) : Dest α :=
  if d.msgBuffer.next = 0 then d
  else
    let d := d.uncount
    let d := if cfg.addFillers then d.fillersHold cfg k else d
    if d.hold.stuck then d else d.shipBuffer k false

/-- `flushDest` with combining on (lines 1073–1095). -/
def flushHold (cfg : Config α) (k : Knobs F) (d : Dest α) : Dest α :=
  let d := flushHeldLoop cfg k (d.hold.count + 1) d
  if d.hold.stuck then d else d.shipHeld cfg k

/-- The admitted count after `insert` reported `r` (lines 431–444). -/
def countInsert (k : Knobs F) (r : InsertResult) (d : Dest α) : Dest α :=
  let admitted := r.newBucket ≤ k.tramThreshold
  let wasAdmitted := r.oldBucket ≤ k.tramThreshold
  if ¬ r.absorbed then
    if admitted then { d with updatesInTram := d.updatesInTram + 1 } else d
  else if r.oldBucket ≠ r.newBucket then
    if admitted ∧ ¬ wasAdmitted then { d with updatesInTram := d.updatesInTram + 1 }
    else if wasAdmitted ∧ ¬ admitted then { d with updatesInTram := d.updatesInTram - 1 }
    else d
  else d

/-- `sendItemPrioDeferredDest` with combining on (lines 428–447). -/
def sendHold [ReleaseArith F] [Inhabited α] (cfg : Config α) (k : Knobs F) (newUpdate : α)
    (neighborBucket : ℕ) (d : Dest α) : Dest α :=
  let (hold, r) := d.hold.insert cfg.ops newUpdate neighborBucket
  let d := { d with hold := hold }
  if d.hold.stuck then d
  else
    let d := d.countInsert k r
    if ReleaseArith.ge d.updatesInTram k.releaseLevel then d.releaseFull cfg k else d

/-! ## Both -/

/-- `flushDest` (lines 1071–1144). -/
def flushDest (cfg : Config α) (k : Knobs F) (d : Dest α) : Dest α :=
  if k.combining then d.flushHold cfg k else d.flushQueue cfg k

/-- The loop body of `flushStale` (lines 1150–1156). -/
def flushIfStale (cfg : Config α) (k : Knobs F) (d : Dest α) : Dest α :=
  let d :=
    if d.fullSends = 0 ∧ (d.updatesInTram > 0 ∨ d.msgBuffer.next ≠ 0) then d.flushDest cfg k else d
  if d.hold.stuck then d else { d with fullSends := 0 }

/-- The loop body of `flushIdle` (lines 1177–1182). -/
def flushIfAny (cfg : Config α) (k : Knobs F) (d : Dest α) : Dest α :=
  if d.updatesInTram > 0 ∨ d.msgBuffer.next ≠ 0 then d.flushDest cfg k else d

/-- `sendItemPrioDeferredDest` (lines 424–460) once the destination is known. -/
def sendItem [ReleaseArith F] [Inhabited α] (cfg : Config α) (k : Knobs F) (newUpdate : α)
    (neighborBucket destProc : ℕ) (d : Dest α) : Dest α :=
  if k.combining then d.sendHold cfg k newUpdate neighborBucket
  else (d.enqueue k newUpdate neighborBucket destProc).releaseOver cfg k

/-- Copy the node's `localBuffers` into the message and ship it (lines 734–742, 752–755
    and 918–931). -/
def shipSorted (cfg : Config α) (k : Knobs F) (d : Dest α) : Dest α :=
  { d with
    msgBuffer := d.msgBuffer.copyIn ((List.range cfg.nodeSize).flatMap d.localBuffers)
    localBuffers := fun r => if r < cfg.nodeSize then [] else d.localBuffers r
    : Dest α }.sendTo .receiveNoSort k

/-- `insertValue` under `WsP`, for PE rank `rank` of the node. -/
def insertSorted (cfg : Config α) (k : Knobs F) (x : Item α) (rank : ℕ) (d : Dest α) : Dest α :=
  let d :=
    { d with
      localBuffers := Function.update d.localBuffers rank (d.localBuffers rank ++ [x])
      msgBuffer := { d.msgBuffer with next := d.msgBuffer.next + 1 } }
  if d.msgBuffer.next = k.bufSize then d.shipSorted cfg k else d

/-- `insertValue` (lines 718–768) in the modes modelled. -/
def insertValue (cfg : Config α) (k : Knobs F) (value : α) (destPe rank : ℕ) (d : Dest α) :
    Dest α :=
  let x : Item α := ⟨destPe, value, d.fill k none false⟩
  match k.agg with
  | .WsP => d.insertSorted cfg k x rank
  | .WW =>
    let d := d.put x
    if d.msgBuffer.next = k.bufSize then
      { d.uncount with fullSends := d.fullSends + 1 : Dest α }.send k
    else d
  | .WPs =>
    let d := d.put x
    if d.msgBuffer.next = k.bufSize then d.uncount.shipBuffer k true else d

/-- `tflush` with combining off under `WPs` and `WW` (lines 911–1001). -/
def flushAll (cfg : Config α) (k : Knobs F) (idleflush : Bool) (d : Dest α) : Dest α :=
  ((if idleflush then d else d.flushBuffer k).drain cfg k).shipPartial cfg k (fillersFlush cfg k)

/-- `tflush` under `WsP` (lines 915–931). -/
def flushSorted (cfg : Config α) (k : Knobs F) (idleflush : Bool) (d : Dest α) : Dest α :=
  if idleflush ∨ d.msgBuffer.next = 0 then d else d.shipSorted cfg k

/-- `tflush` (lines 895–1009) for one destination. -/
def tflush (cfg : Config α) (k : Knobs F) (idleflush : Bool) (d : Dest α) : Dest α :=
  if k.combining then d.flushDest cfg k
  else if k.agg = .WsP then d.flushSorted cfg k idleflush
  else d.flushAll cfg k idleflush

/-- The change of the admitted count in `changeThreshold` with combining on (lines 356–365). -/
def retuneHold (old new : ℤ) (d : Dest α) : Dest α :=
  let live := (List.range' (min old new + 1).toNat (max old new - min old new).toNat).map
    d.hold.live
  { d with
    updatesInTram :=
      if new > old then live.foldl (· + ·) d.updatesInTram
      else live.reverse.foldl (· - ·) d.updatesInTram }

/-- The change of the admitted count in `changeThreshold` with combining off (lines 366–373). -/
def retuneQueue (cfg : Config α) (old new : ℤ) (d : Dest α) : Dest α :=
  let sign : ℤ := if new > old then 1 else -1
  WordBits.forNext (holdNext cfg) (fun i _ => decide ((i : ℤ) ≤ max old new))
    (fun i d => { d with updatesInTram := d.updatesInTram + sign * (d.tramHold i).size })
    (fun _ => false) cfg.histoBucketCount (min old new + 1).toNat d

/-- The change of the admitted count in `changeThreshold`. -/
def retune (cfg : Config α) (k : Knobs F) (newThreshold : ℤ) (d : Dest α) : Dest α :=
  if k.combining then d.retuneHold k.tramThreshold newThreshold
  else if newThreshold ≠ k.tramThreshold then d.retuneQueue cfg k.tramThreshold newThreshold
  else d

/-- The release at the end of `changeThreshold` (lines 387–392). -/
def releaseAbove [ReleaseArith F] (cfg : Config α) (k : Knobs F) (d : Dest α) : Dest α :=
  if ReleaseArith.gt d.updatesInTram (ReleaseArith.level k.selectivity k.bufSize) then
    if k.combining then d.releaseFull cfg k else d.insertBucketsByDest cfg k k.tramThreshold
  else d

/-- The loop of `coarsenBuckets` that moves bucket `i` to bucket `j` (lines 564–568). -/
def mergeBucket (i j : ℕ) : ℕ → Dest α → Dest α
  | 0, d => d
  | fuel + 1, d =>
    match (d.tramHold i).front with
    | none => d
    | some item => mergeBucket i j fuel ((d.holdPush j item).holdPop i)

/-- The items that `coarsenBuckets` admits (lines 555–557). -/
def admitMerged (cfg : Config α) (threshold admitBelow : ℤ) (d : Dest α) : Dest α :=
  WordBits.forNext (holdNext cfg) (fun i _ => decide ((i : ℤ) < admitBelow))
    (fun i d => { d with updatesInTram := d.updatesInTram + (d.tramHold i).size })
    (fun _ => false) cfg.histoBucketCount (threshold + 1).toNat d

/-- The merge of `coarsenBuckets` (lines 560–570). -/
def mergeBuckets (cfg : Config α) (factor mergedTop : ℕ) (d : Dest α) : Dest α :=
  WordBits.forNext (holdNext cfg) (fun i _ => decide (i < mergedTop))
    (fun i d =>
      if i / factor = i then d
      else (mergeBucket i (i / factor) (d.tramHold i).size d).holdEmptied i)
    (fun _ => false) cfg.histoBucketCount 1 d

/-- `coarsenBuckets` for one destination, up to the release (lines 546–570). -/
def coarsen (cfg : Config α) (k : Knobs F) (factor : ℕ) (keepTop : Bool) (d : Dest α) : Dest α :=
  let newTram := k.tramThreshold.tdiv factor
  let admitBelow := min ((newTram + 1) * factor) (cfg.mergedTop keepTop)
  (d.admitMerged cfg k.tramThreshold admitBelow).mergeBuckets cfg factor (cfg.mergedTop keepTop)

/-- The buffer at the new size: a larger one, or shipped, or kept (lines 213–220). -/
def refit (k : Knobs F) (d : Dest α) : Dest α :=
  if d.msgBuffer.cap < k.bufSize then { d with msgBuffer := d.msgBuffer.grow k.bufSize }
  else if d.msgBuffer.next ≥ k.bufSize then d.uncount.shipBuffer k true
  else d

/-- `setBufferSize` (lines 211–224) for one destination, `k` having the new size. -/
def resize [ReleaseArith F] (cfg : Config α) (k : Knobs F) (d : Dest α) : Dest α :=
  (d.refit k).releaseOver cfg k

end Dest

end Htram
