import Htram.Pe.Dest

/-!
# The operations of `HTram` on a PE

The client's calls on one PE, in the modes `WPs`, `WsP` and `WW`. An operation
returns, aborts, or, if a probe loop of a hold would never end, hangs.

`Op` lists the calls and `step` runs one; `run` runs a sequence of them, and `session` is
what a client does with a new PE.
-/

namespace Htram

/-- How a call ends. -/
inductive Outcome (σ : Type*)
  | returns (s : σ)
  | aborts
  | hangs (s : σ)

/-- Go on if the call returned. -/
def Outcome.andThen {σ : Type*} (o : Outcome σ) (f : σ → Outcome σ) : Outcome σ :=
  match o with
  | .returns s => f s
  | .aborts => .aborts
  | .hangs s => .hangs s

/-- What is true of the state if the call returns (`R`) and if it hangs (`H`). -/
def Outcome.Holds {σ : Type*} (R H : σ → Prop) : Outcome σ → Prop
  | .returns s => R s
  | .aborts => True
  | .hangs s => H s

theorem Outcome.Holds.andThen {σ : Type*} {R R' H : σ → Prop} {o : Outcome σ}
    (ho : o.Holds R H) {f : σ → Outcome σ} (hf : ∀ s, R s → (f s).Holds R' H) :
    (o.andThen f).Holds R' H := by
  cases o with
  | returns s => exact hf s ho
  | aborts => trivial
  | hangs s => exact ho

theorem Outcome.Holds.imp {σ : Type*} {R R' H : σ → Prop} {o : Outcome σ} (ho : o.Holds R H)
    (hR : ∀ s, R s → R' s) : o.Holds R' H := by
  cases o with
  | returns s => exact hR s ho
  | aborts => trivial
  | hangs s => exact ho

/-- Whether the call returns in a state with `P`. -/
def Outcome.check {σ : Type*} (P : σ → Prop) [DecidablePred P] : Outcome σ → Bool
  | .returns s => decide (P s)
  | _ => false

theorem Outcome.of_check {σ : Type*} {P : σ → Prop} [DecidablePred P] {o : Outcome σ}
    (h : o.check P = true) : ∃ s, o = .returns s ∧ P s := by
  cases o with
  | returns s => exact ⟨s, rfl, of_decide_eq_true h⟩
  | aborts => cases h
  | hangs s => cases h

/-- `HTram` on one PE. -/
structure HTram (α F : Type*) where
  knobs : Knobs F
  dest : ℕ → Dest α

variable {α F : Type*}

namespace HTram

/-- Destination `d` becomes `x`. -/
def setDest (d : ℕ) (x : Dest α) (p : HTram α F) : HTram α F :=
  { p with dest := Function.update p.dest d x }

/-- `f` for destination `d`; it may hang. -/
def onDest (d : ℕ) (f : Dest α → Dest α) (p : HTram α F) : Outcome (HTram α F) :=
  if (f (p.dest d)).hold.stuck then .hangs (p.setDest d (f (p.dest d)))
  else .returns (p.setDest d (f (p.dest d)))

/-- `f` for the destinations listed, in order, until one hangs. -/
def eachDest (f : Dest α → Dest α) : List ℕ → HTram α F → Outcome (HTram α F)
  | [], p => .returns p
  | d :: ds, p => (p.onDest d f).andThen (eachDest f ds)

/-- `destCount()`. -/
def destCount (cfg : Config α) (p : HTram α F) : ℕ := cfg.destCount p.knobs.agg

/-- New settings, and `f` for every destination. -/
def mapDest (cfg : Config α) (knobs : Knobs F) (f : Dest α → Dest α) (p : HTram α F) :
    HTram α F where
  knobs := knobs
  dest := fun d => if d < p.destCount cfg then f (p.dest d) else p.dest d

/-- `for (int d = 0; d < destCount(); d++) f(d);`. -/
def forDest (cfg : Config α) (f : Dest α → Dest α) (p : HTram α F) : Outcome (HTram α F) :=
  eachDest f (List.range (p.destCount cfg)) p

/-- What `f` does to each destination, the loop does to all of them. -/
theorem eachDest_holds {n : ℕ} {f : Dest α → Dest α} {I J : Dest α → Prop}
    (hIJ : ∀ x, I x → J x)
    (hf : ∀ x, I x → J (f x) ∧ ((f x).hold.stuck = false → I (f x))) :
    ∀ (ds : List ℕ) (p : HTram α F), (∀ d < n, I (p.dest d)) → (∀ d ∈ ds, d < n) →
      (eachDest f ds p).Holds (fun q => q.knobs = p.knobs ∧ ∀ d < n, I (q.dest d))
        (fun q => q.knobs = p.knobs ∧ ∀ d < n, J (q.dest d)) := by
  intro ds
  induction ds with
  | nil => intro p hp _; exact ⟨rfl, hp⟩
  | cons d ds ih =>
    intro p hp hds
    obtain ⟨hJ, hI⟩ := hf _ (hp d (hds d (List.mem_cons_self ..)))
    rw [eachDest, onDest]
    split_ifs with hs
    · refine ⟨rfl, fun d' hd' => ?_⟩
      by_cases he : d' = d
      · subst he; simpa [setDest] using hJ
      · simpa [setDest, Function.update_of_ne he] using hIJ _ (hp d' hd')
    · refine ih (p.setDest d (f (p.dest d))) ?_ fun d' h => hds d' (List.mem_cons_of_mem _ h)
      intro d' hd'
      by_cases he : d' = d
      · subst he; simpa [setDest] using hI (by simpa using hs)
      · simpa [setDest, Function.update_of_ne he] using hp d' hd'

variable [ReleaseArith F]

/-- The constructor (lines 46–182), in mode `agg`. -/
def init [Inhabited α] (agg : Agg) (bufSize : ℕ) : HTram α F where
  knobs :=
    { agg := agg, bufSize := bufSize, directThreshold := 0, tramThreshold := 0
      selectivity := ReleaseArith.one
      releaseLevel := ReleaseArith.level ReleaseArith.one bufSize
      combining := false }
  dest := fun _ => Dest.init bufSize

/-- `setBufferSize` (lines 197–243). -/
def setBufferSize (cfg : Config α) (newSize : ℕ) (p : HTram α F) : Outcome (HTram α F) :=
  if ¬ (0 < newSize ∧ newSize ≤ cfg.maxBufSize) then .aborts
  else if newSize = p.knobs.bufSize then .returns p
  else if ¬ p.knobs.combining ∧ p.knobs.agg ≠ .WsP then
    .returns (p.mapDest cfg (p.knobs.resized newSize) (Dest.resize cfg (p.knobs.resized newSize)))
  else if ∃ d < p.destCount cfg, (p.dest d).msgBuffer.next ≠ 0 then .aborts
  else
    .returns (p.mapDest cfg (p.knobs.resized newSize)
      fun d => { d with msgBuffer := newHTramMessage newSize })

/-- `changeThreshold` (lines 346–393). -/
def changeThreshold (cfg : Config α) (directThreshold newtramThreshold : ℤ) (selectivity : F)
    (p : HTram α F) : Outcome (HTram α F) :=
  if newtramThreshold = p.knobs.tramThreshold ∧ directThreshold = p.knobs.directThreshold ∧
      ReleaseArith.eq selectivity p.knobs.selectivity then .returns p
  else
    let knobs := p.knobs.retuned directThreshold newtramThreshold selectivity
    (p.mapDest cfg knobs (Dest.retune cfg p.knobs newtramThreshold)).forDest cfg
      (Dest.releaseAbove cfg knobs)

/-- `sendItemPrioDeferredDest` with three arguments (lines 424–460). -/
def sendItemPrioDeferredDestTo [Inhabited α] (cfg : Config α) (newUpdate : α)
    (neighborBucket destProc : ℕ) (p : HTram α F) : Outcome (HTram α F) :=
  let destNode := cfg.destOf p.knobs.agg destProc
  if destNode ≥ p.destCount cfg then .aborts
  else p.onDest destNode (Dest.sendItem cfg p.knobs newUpdate neighborBucket destProc)

/-- `sendItemPrioDeferredDest` with two arguments (lines 419–422). -/
def sendItemPrioDeferredDest [Inhabited α] (cfg : Config α) (newUpdate : α) (neighborBucket : ℕ)
    (p : HTram α F) : Outcome (HTram α F) :=
  p.sendItemPrioDeferredDestTo cfg newUpdate neighborBucket (cfg.getDestProc newUpdate)

/-- `coarsenBuckets` (lines 539–594). -/
def coarsenBuckets (cfg : Config α) (factor : ℤ) (keepTop : Bool) (p : HTram α F) :
    Outcome (HTram α F) :=
  if factor < 2 then .returns p
  else if p.knobs.combining then .aborts
  else
    let knobs := p.knobs.coarsened factor.toNat
    (p.mapDest cfg knobs (Dest.coarsen cfg p.knobs factor.toNat keepTop)).forDest cfg
      (Dest.releaseAbove cfg knobs)

/-- `insertValueWPs` (lines 660–665). -/
def insertValueWPs (cfg : Config α) (value : α) (destPe : ℕ) (p : HTram α F) : HTram α F :=
  let destNode := cfg.destOf p.knobs.agg destPe
  p.setDest destNode ((p.dest destNode).insertValueWPsTo p.knobs value destPe none)

/-- `insertValue` (lines 702–770). -/
def insertValue (cfg : Config α) (value : α) (destPe : ℕ) (p : HTram α F) : HTram α F :=
  let dest := cfg.destOf p.knobs.agg destPe
  p.setDest dest ((p.dest dest).insertValue cfg p.knobs value destPe (destPe % cfg.nodeSize))

/-- `tflush` (lines 895–1009). -/
def tflush (cfg : Config α) (idleflush : Bool) (p : HTram α F) : Outcome (HTram α F) :=
  p.forDest cfg (Dest.tflush cfg p.knobs idleflush)

/-- `flush_everything` (lines 1195–1197). -/
def flushEverything (cfg : Config α) (p : HTram α F) : Outcome (HTram α F) := p.tflush cfg false

/-- `enableCombining` (lines 1019–1034). -/
def enableCombining [Inhabited α] (cfg : Config α) (p : HTram α F) : Outcome (HTram α F) :=
  if p.knobs.agg = .WsP then .aborts
  else if p.knobs.combining then .returns p
  else if ∃ d < p.destCount cfg,
      (p.dest d).updatesInTram ≠ 0 ∨ (p.dest d).msgBuffer.next ≠ 0 then .aborts
  else
    .returns
      { knobs := { p.knobs with combining := true }
        dest := fun d => { p.dest d with hold := CombiningHold.init cfg.histoBucketCount } }

/-- `flushStale` (lines 1147–1162). -/
def flushStale (cfg : Config α) (p : HTram α F) : Outcome (HTram α F) :=
  if p.knobs.agg ≠ .WsP then
    p.forDest cfg (Dest.flushIfStale cfg p.knobs)
  else p.tflush cfg false

/-- `flushIdle` (lines 1164–1193). `elapsed` is the outcome of the test of the wall
    clock against `last_idle_flush`. -/
def flushIdle (cfg : Config α) (elapsed : Bool) (p : HTram α F) : Outcome (HTram α F) :=
  if p.knobs.agg ≠ .WsP ∧ elapsed then
    p.forDest cfg (Dest.flushIfAny cfg p.knobs)
  else .returns p

/-- `admittedDrift` (lines 484–498). -/
def admittedDrift (cfg : Config α) (p : HTram α F) : ℤ :=
  if p.knobs.combining then 0
  else
    ((List.range (p.destCount cfg)).map fun i =>
      let d := p.dest i
      let want := WordBits.forNext (fun _ => Dest.holdNext cfg d)
        (fun i _ => decide ((i : ℤ) ≤ p.knobs.tramThreshold))
        (fun i want => want + ((d.tramHold i).size : ℤ)) (fun _ => false)
        cfg.histoBucketCount 0 (d.msgBuffer.next : ℤ)
      |want - d.updatesInTram|).sum

/-- What `countBuffers` contributes (lines 1217–1237). -/
def countBuffers (cfg : Config α) (p : HTram α F) : ℤ :=
  ((List.range (p.destCount cfg)).map fun d => ((p.dest d).msgBuffer.next : ℤ)).sum +
    ((List.range (p.destCount cfg)).map fun d => (p.dest d).updatesInTram).sum

end HTram

/-! ## Calls and runs -/

/-- A call of the client on a PE. -/
inductive Op (α F : Type*)
  | send (item : α) (bucket : ℕ)
  | sendTo (item : α) (bucket destProc : ℕ)
  | insertValue (value : α) (destPe : ℕ)
  | insertValueWPs (value : α) (destPe : ℕ)
  | changeThreshold (directThreshold newtramThreshold : ℤ) (selectivity : F)
  | coarsenBuckets (k : ℤ) (keepTop : Bool)
  | setBufferSize (newSize : ℕ)
  | tflush (idleflush : Bool)
  | flushStale
  | flushIdle (elapsed : Bool)

/-- The call hands no item in. -/
def Op.Idle : Op α F → Prop
  | .send .. | .sendTo .. | .insertValue .. | .insertValueWPs .. => False
  | _ => True

/-- The calls this development is about, mode by mode, with the PEs they name in
    range: under `WsP` only `insertValue`, `tflush` and `setBufferSize`. -/
def Op.Covered (cfg : Config α) (agg : Agg) : Op α F → Prop
  | .insertValue _ destPe => cfg.nodeSize ≠ 0 ∧ cfg.destOf agg destPe < cfg.destCount agg
  | .insertValueWPs _ destPe => agg ≠ .WsP ∧ cfg.destOf agg destPe < cfg.destCount agg
  | .setBufferSize _ => True
  | .tflush _ => True
  | _ => agg ≠ .WsP

namespace HTram

variable [ReleaseArith F] [Inhabited α]

/-- One call. -/
def step (cfg : Config α) (p : HTram α F) : Op α F → Outcome (HTram α F)
  | .send item bucket => p.sendItemPrioDeferredDest cfg item bucket
  | .sendTo item bucket destProc => p.sendItemPrioDeferredDestTo cfg item bucket destProc
  | .insertValue value destPe => .returns (p.insertValue cfg value destPe)
  | .insertValueWPs value destPe => .returns (p.insertValueWPs cfg value destPe)
  | .changeThreshold direct tram selectivity => p.changeThreshold cfg direct tram selectivity
  | .coarsenBuckets k keepTop => p.coarsenBuckets cfg k keepTop
  | .setBufferSize newSize => p.setBufferSize cfg newSize
  | .tflush idleflush => p.tflush cfg idleflush
  | .flushStale => p.flushStale cfg
  | .flushIdle elapsed => p.flushIdle cfg elapsed

/-- A sequence of calls. -/
def run (cfg : Config α) : List (Op α F) → HTram α F → Outcome (HTram α F)
  | [], p => .returns p
  | op :: ops, p => (p.step cfg op).andThen (run cfg ops)

/-- A new PE that makes the calls `pre` and then enables combining or does not. -/
def opened (cfg : Config α) (agg : Agg) (bufSize : ℕ) (pre : List (Op α F)) (combining : Bool) :
    Outcome (HTram α F) :=
  (run cfg pre (init agg bufSize)).andThen fun p =>
    if combining then p.enableCombining cfg else .returns p

/-- The same PE after the calls `ops`. -/
def session (cfg : Config α) (agg : Agg) (bufSize : ℕ) (pre : List (Op α F)) (combining : Bool)
    (ops : List (Op α F)) : Outcome (HTram α F) :=
  (opened cfg agg bufSize pre combining).andThen (run cfg ops)

/-! ## The unit test's client on one PE -/

/-- One node of one PE, whose client keeps the least value of each key. -/
def oneNode : Config KeyValue where
  numNodes := 1
  nodeSize := 1
  histoBucketCount := 8
  maxBufSize := 4
  addFillers := false
  getDestProc := fun _ => 0
  ops := minOps

/-- Send the item with the given key and value; its bucket is the value. -/
def offer (key : UInt64) (value : ℕ) : Op KeyValue ℚ := .send ⟨key, value⟩ value

end HTram

end Htram
