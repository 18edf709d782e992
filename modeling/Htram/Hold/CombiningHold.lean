import Htram.Common.ProbeTable
import Mathlib.Algebra.Order.Group.Int

/-!
# `CombiningHold`

Model of `htram_combine.h` (lines 39–262), the set of items a source holds for
one destination, keyed so that a second item for a key folds into the first.

A vector is a function on indices. The parallel vectors `slots_` and `tags_` are
one table of `Option Slot` (`none` is a slot holding `0`; the tag of an empty slot
is never read). Entry indices and counts are exact integers; the stamps are
`uint32_t`, as declared, and wrap. A probe loop that would never end in the
source sets `stuck`, and the operation stops there.
-/

namespace Htram

open ProbeTable

/-- `HoldOps` (lines 39–53). `combine held incoming` is the survivor left in
    `held`, what is left in `retired`, and the result. The calls of `combine` and
    `on_absorb` are recorded: `CombiningHold.combined` and `CombiningHold.retired` are
    the arguments they have been called with. -/
structure HoldOps (α : Type*) where
  key : α → UInt64
  combine : α → α → α × α × Bool

/-- `Ref` (lines 167–170). -/
structure Ref where
  entry : ℕ
  stamp : UInt32
  deriving DecidableEq

/-- A slot that is not empty: `slots_[i] - 1` and `tags_[i]`. -/
structure Slot where
  entry : ℕ
  tag : UInt8
  deriving DecidableEq

/-- `CombiningHold` (lines 244–261). `pool` is `keys_.size()`, `bucketCount` is
    `lists_.size()`, and the head of `free` is `free_.back()`. -/
structure CombiningHold (α : Type*) where
  mask : ℕ
  count : ℕ
  lowest : ℕ
  slots : ℕ → Option Slot
  keys : ℕ → UInt64
  buckets : ℕ → ℕ
  stamps : ℕ → UInt32
  payloads : ℕ → α
  pool : ℕ
  free : List ℕ
  lists : ℕ → List Ref
  live : ℕ → ℤ
  bucketCount : ℕ
  absorbed : ℕ
  inserted : ℕ
  combined : List (α × α)
  retired : List α
  stuck : Bool

/-- `InsertResult` (lines 57–61). -/
structure InsertResult where
  absorbed : Bool
  oldBucket : ℤ
  newBucket : ℤ
  deriving DecidableEq

/-- What `release` passes to `emit`, with the bucket recorded for the entry and
    the number of items held in each bucket at that moment. -/
structure Emitted (α : Type*) where
  item : α
  bucket : ℕ
  held : ℕ → ℕ

/-- `mix` (lines 172–177). -/
def mix (x : UInt64) : UInt64 :=
  let x := x + 0x9E3779B97F4A7C15
  let x := (x ^^^ (x >>> 30)) * 0xBF58476D1CE4E5B9
  let x := (x ^^^ (x >>> 27)) * 0x94D049BB133111EB
  x ^^^ (x >>> 31)

/-- `tagOf` (line 179). -/
def tagOf (h : UInt64) : UInt8 := (h >>> 56).toUInt8

namespace CombiningHold

variable {α : Type*}

/-- `slots_.size()`. -/
def capacity (h : CombiningHold α) : ℕ := h.mask + 1

/-- `(slot + 1) & mask_`. -/
def adv (mask : ℕ) (slot : ℕ) : ℕ := (slot + 1) &&& mask

/-- `(size_t)mix(keys_[e]) & mask_`. -/
def home (keys : ℕ → UInt64) (mask : ℕ) (s : Slot) : ℕ := (mix (keys s.entry)).toNat &&& mask

/-- Number of allocated entries in bucket `b` that are not in `free_`. -/
def heldCount (h : CombiningHold α) (b : ℕ) : ℕ :=
  (List.range h.pool).countP fun e => e ∉ h.free ∧ h.buckets e = b

/-! ## The table -/

/-- The loop body of `rebuild` (lines 232–241) for one old slot that is not empty. -/
def reinsert (keys : ℕ → UInt64) (mask : ℕ) (T : ℕ → Option Slot) (s : Slot) :
    Option (ℕ → Option Slot) :=
  (scan (adv mask) (fun p => (T p).all fun _ => false) (mask + 1) (home keys mask s)).map
    fun slot => Function.update T slot (some ⟨s.entry, tagOf (mix (keys s.entry))⟩)

/-- The loop of `rebuild` over the old slots. -/
def reinsertAll (keys : ℕ → UInt64) (mask : ℕ) (old : ℕ → Option Slot) :
    List ℕ → (ℕ → Option Slot) → Option (ℕ → Option Slot)
  | [], T => some T
  | i :: is, T =>
    match old i with
    | none => reinsertAll keys mask old is T
    | some s => (reinsert keys mask T s).bind (reinsertAll keys mask old is)

/-- `rebuild` (lines 226–242). -/
def rebuild (h : CombiningHold α) (capacity : ℕ) : CombiningHold α :=
  match reinsertAll h.keys (capacity - 1) h.slots (List.range h.capacity) fun _ => none with
  | none => { h with mask := capacity - 1, stuck := true }
  | some slots => { h with mask := capacity - 1, slots := slots }

/-- `init` (lines 65–74), on a default-constructed hold. -/
def init [Inhabited α] (buckets : ℕ) : CombiningHold α :=
  rebuild
    { mask := 0, count := 0, lowest := buckets, slots := fun _ => none, keys := fun _ => 0
      buckets := fun _ => 0, stamps := fun _ => 0, payloads := fun _ => default, pool := 0
      free := [], lists := fun _ => [], live := fun _ => 0, bucketCount := buckets
      absorbed := 0, inserted := 0, combined := [], retired := [], stuck := false }
    64

/-- `allocEntry` (lines 183–195). -/
def allocEntry [Inhabited α] (h : CombiningHold α) : CombiningHold α × ℕ :=
  match h.free with
  | e :: rest => ({ h with free := rest }, e)
  | [] =>
    ({ h with
        pool := h.pool + 1
        keys := Function.update h.keys h.pool 0
        buckets := Function.update h.buckets h.pool 0
        stamps := Function.update h.stamps h.pool 0
        payloads := Function.update h.payloads h.pool default }, h.pool)

/-- `erase` (lines 200–224). -/
def erase (h : CombiningHold α) (e : ℕ) : CombiningHold α :=
  match scan (adv h.mask) (fun p => (h.slots p).any fun s => s.entry = e) h.capacity
      ((mix (h.keys e)).toNat &&& h.mask) with
  | none => { h with stuck := true }
  | some slot =>
    match closeHole (adv h.mask) (home h.keys h.mask) h.capacity h.slots slot
        (adv h.mask slot) with
    | none => { h with stuck := true }
    | some (slots, hole) =>
      { h with
        slots := Function.update slots hole none
        stamps := Function.update h.stamps e (h.stamps e + 1)
        free := e :: h.free
        count := h.count - 1 }

/-! ## `insert` -/

/-- The branch of `insert` that folds into the held entry `e` (lines 86–102). -/
def fold (ops : HoldOps α) (h : CombiningHold α) (e : ℕ) (item : α) (bucket : ℕ) :
    CombiningHold α × InsertResult :=
  let old := h.buckets e
  let (held, retired, moved) := ops.combine (h.payloads e) item
  let h :=
    { h with
      payloads := Function.update h.payloads e held
      combined := h.combined ++ [(h.payloads e, item)]
      retired := h.retired ++ [retired]
      absorbed := h.absorbed + 1 }
  let h :=
    if moved ∧ bucket ≠ old then
      let live := Function.update h.live old (h.live old - 1)
      { h with
        live := Function.update live bucket (live bucket + 1)
        buckets := Function.update h.buckets e bucket
        stamps := Function.update h.stamps e (h.stamps e + 1)
        lists := Function.update h.lists bucket (h.lists bucket ++ [Ref.mk e (h.stamps e + 1)])
        lowest := min bucket h.lowest }
    else h
  (h, ⟨true, old, h.buckets e⟩)

/-- The branch of `insert` that adds an entry at the empty `slot` (lines 106–125). -/
def add [Inhabited α] (h : CombiningHold α) (slot : ℕ) (key : UInt64) (item : α) (bucket : ℕ) :
    CombiningHold α × InsertResult :=
  let (h, e) := h.allocEntry
  let h :=
    { h with
      keys := Function.update h.keys e key
      buckets := Function.update h.buckets e bucket
      stamps := Function.update h.stamps e (h.stamps e + 1)
      payloads := Function.update h.payloads e item
      slots := Function.update h.slots slot (some (Slot.mk e (tagOf (mix key))))
      count := h.count + 1
      live := Function.update h.live bucket (h.live bucket + 1)
      lists := Function.update h.lists bucket (h.lists bucket ++ [Ref.mk e (h.stamps e + 1)])
      lowest := min bucket h.lowest }
  let h := if h.count * 2 > h.mask + 1 then h.rebuild ((h.mask + 1) * 2) else h
  ({ h with inserted := h.inserted + 1 }, ⟨false, -1, bucket⟩)

/-- `insert` (lines 78–126). -/
def insert [Inhabited α] (ops : HoldOps α) (h : CombiningHold α) (item : α) (bucket : ℕ) :
    CombiningHold α × InsertResult :=
  let key := ops.key item
  let hash := mix key
  match scan (adv h.mask)
      (fun p => (h.slots p).all fun s => s.tag = tagOf hash ∧ h.keys s.entry = key)
      h.capacity (hash.toNat &&& h.mask) with
  | none => ({ h with stuck := true }, ⟨false, -1, bucket⟩)
  | some slot =>
    match h.slots slot with
    | some s => h.fold ops s.entry item bucket
    | none => h.add slot key item bucket

/-! ## `release` -/

/-- The inner loop of `release` (lines 139–147) over what is left of list `b`,
    with `limit` removals to go. Also returns the references not consumed. -/
def releaseList (b : ℕ) :
    List Ref → ℕ → CombiningHold α → CombiningHold α × List Ref × List (Emitted α)
  | [], _, h => (h, [], [])
  | r :: rs, 0, h => (h, r :: rs, [])
  | r :: rs, limit + 1, h =>
    if h.stamps r.entry ≠ r.stamp then releaseList b rs (limit + 1) h
    else
      let out : Emitted α := ⟨h.payloads r.entry, h.buckets r.entry, h.heldCount⟩
      let h := h.erase r.entry
      if h.stuck then (h, rs, [out])
      else
        let h := { h with live := Function.update h.live b (h.live b - 1) }
        let (h, rest, outs) := releaseList b rs limit h
        (h, rest, out :: outs)

/-- The loop of `release` (lines 136–152) over the `n` buckets from `b`. -/
def releaseBuckets : ℕ → ℕ → ℕ → CombiningHold α → CombiningHold α × List (Emitted α)
  | 0, _, _, h => (h, [])
  | n + 1, b, limit, h =>
    if limit = 0 then (h, [])
    else
      let (h, rest, out) := releaseList b (h.lists b) limit h
      if h.stuck then (h, out)
      else
        let h := { h with lists := Function.update h.lists b rest }
        let (h, outs) := releaseBuckets n (b + 1) (limit - out.length) h
        (h, out ++ outs)

/-- The loop that moves `lowest_` up (lines 153–156), over at most `n` buckets. -/
def raiseLowest : ℕ → CombiningHold α → CombiningHold α
  | 0, h => h
  | n + 1, h =>
    if h.lowest < h.bucketCount ∧ h.live h.lowest = 0 then
      raiseLowest n
        { h with lists := Function.update h.lists h.lowest [], lowest := h.lowest + 1 }
    else h

/-- `release` (lines 131–158). The items go to `emit` in the order of the list;
    its length is the number returned. -/
def release (h : CombiningHold α) (high limit : ℤ) : CombiningHold α × List (Emitted α) :=
  let high := min high (h.bucketCount - 1)
  let (h, out) := releaseBuckets (high + 1 - h.lowest).toNat h.lowest limit.toNat h
  if h.stuck then (h, out) else (raiseLowest (h.bucketCount - h.lowest) h, out)

/-- `size` (line 162). -/
def size (h : CombiningHold α) : ℕ := h.count

end CombiningHold

/-! ## The client of the unit test (`tests/test_combine.cpp`) -/

/-- `Item` (lines 21–24), with the key as `key_of` returns it. -/
structure KeyValue where
  key : UInt64
  value : ℤ
  deriving DecidableEq, Inhabited

/-- `min_combine` (lines 28–37). -/
def minCombine (held incoming : KeyValue) : KeyValue × KeyValue × Bool :=
  if incoming.value < held.value then (incoming, held, true) else (held, incoming, false)

/-- The operations of the test's hold. -/
def minOps : HoldOps KeyValue := ⟨KeyValue.key, minCombine⟩

end Htram
