import Htram.Pe.Quiet
import Htram.System.Sound

/-!
# Quiescence

`htramQuiesce`, `onQD`, `countBuffers` and `onBufferCount` over the PEs and the messages in
flight. Charm++ calls what was armed only when no message is in flight; a broadcast, a
reduction and a call of the detector are messages too. Once `htramQuiesce` has been called the
client calls only from inside its delivery callbacks, apart from flushes, which may come at
any time: `periodic_tflush` is one of them.
-/

namespace Htram

open Network

variable {α F : Type*}

/-- The PE whose client is handed the items of a message. -/
def Packet.client : Packet α → Option ℕ
  | .buffer d sent =>
    match sent.entry with
    | .receiveOnPE => some d
    | _ => none
  | .post p => some p.pe

/-- The call sends through the buckets and inside their range, on a PE with combining off. -/
def Op.Plain (cfg : Config α) (agg : Agg) (op : Op α F) : Prop :=
  op.Deferred ∧ op.InRange cfg agg false ∧ (op.MergesTop ∨ 2 ≤ cfg.histoBucketCount)

/-- The entry method that quiescence detection calls. -/
inductive Detector
  | onQD | countBuffers
  deriving DecidableEq

/-- A message of the protocol. -/
inductive Control
  | onQD
  | tflush (pe : ℕ)
  | countBuffers (pe : ℕ)
  | onBufferCount (total : ℤ)
  deriving DecidableEq

/-- The system with what `htramQuiesce` has started: whether `quiesce_cb` is owed, what the
    detector is armed with, the protocol's messages in flight, the contributions to the
    reduction that is running, and how often `quiesce_cb` has been sent. -/
structure Quiescence (α F : Type*) where
  sys : System α F
  requested : Bool
  armed : Option Detector
  pending : List Control
  counts : List ℤ
  callbacks : ℕ

namespace Quiescence

/-- A call of the client outside its delivery callbacks, a timed flush, the arrival of
    message `k` with what the client calls in its callbacks, the request on PE 0, a detection
    and the arrival of the protocol's message `k`. -/
inductive Event (α F : Type*)
  | call (pe : ℕ) (op : Op α F)
  | periodicTflush (pe : ℕ)
  | deliver (k : ℕ) (skip : Bool) (calls : List (Op α F))
  | htramQuiesce
  | detect
  | control (k : ℕ)

/-- Every call of the client is plain. -/
def Event.Plain (cfg : Config α) (agg : Agg) : Event α F → Prop
  | .call _ op => op.Plain cfg agg
  | .deliver _ _ calls => ∀ op ∈ calls, op.Plain cfg agg
  | _ => True

/-- `HTram` on PE `pe`. -/
def tram (s : Quiescence α F) (pe : ℕ) : HTram α F := (s.sys.node pe).tram

/-- The PEs and messages become those of `o`. -/
def onSys (s : Quiescence α F) (o : Option (System α F)) : Option (Quiescence α F) :=
  o.map fun t => { s with sys := t }

/-- Before `htramQuiesce`. -/
def idle (sys : System α F) : Quiescence α F := ⟨sys, false, none, [], [], 0⟩

/-- `contribute` of one PE. The last contribution ends the reduction. -/
def contribute (cfg : Config α) (count : ℤ) (s : Quiescence α F) : Quiescence α F :=
  let counts := s.counts ++ [count]
  if counts.length = cfg.numPes then
    { s with counts := [], pending := s.pending ++ [.onBufferCount counts.sum] }
  else { s with counts := counts }

/-- The detector calls what it was armed with. `countBuffers` is called on every PE. -/
def detected (cfg : Config α) (s : Quiescence α F) : Detector → Quiescence α F
  | .onQD => { s with armed := none, pending := [.onQD] }
  | .countBuffers =>
    { s with armed := none, pending := (List.range cfg.numPes).map .countBuffers }

/-! ## Events -/

section Events

variable [Inhabited α] [ReleaseArith F]

/-- What the client of PE `pe` calls in its callbacks. -/
def callback (cfg : Config α) (calls : List (Op α F)) (s : System α F) :
    Option ℕ → Option (System α F)
  | none => some s
  | some pe => s.settle cfg pe ((s.node pe).tram.run cfg calls)

/-- An entry method of the protocol (lines 1209–1248). -/
def handle (cfg : Config α) (s : Quiescence α F) : Control → Option (Quiescence α F)
  | .onQD =>
    some
      { s with
        armed := some .countBuffers
        pending := s.pending ++ (List.range cfg.numPes).map .tflush }
  | .tflush pe => s.onSys (s.sys.step cfg (.call pe (.tflush false)))
  | .countBuffers pe => some (s.contribute cfg ((s.tram pe).countBuffers cfg))
  | .onBufferCount total =>
    if total = 0 then some { s with requested := false, callbacks := s.callbacks + 1 }
    else some { s with armed := some .onQD }

/-- One event. -/
def step (cfg : Config α) (s : Quiescence α F) : Event α F → Option (Quiescence α F)
  | .call pe op =>
    if s.requested = false ∨ op.Flushes then s.onSys (s.sys.step cfg (.call pe op)) else none
  | .periodicTflush pe => s.onSys (s.sys.step cfg (.call pe (.tflush false)))
  | .deliver k skip calls =>
    s.onSys (s.sys.flight[k]?.bind fun m =>
      (System.arrive cfg skip (s.sys.take k) m).bind fun t => callback cfg calls t m.client)
  | .htramQuiesce =>
    if s.requested then none else some { s with requested := true, armed := some .onQD }
  | .detect =>
    if s.sys.flight.isEmpty ∧ s.pending.isEmpty then s.armed.map (s.detected cfg) else none
  | .control k => s.pending[k]?.bind (handle cfg { s with pending := s.pending.eraseIdx k })

/-- A run of events. -/
def run (cfg : Config α) : List (Event α F) → Quiescence α F → Option (Quiescence α F) :=
  runs (step cfg)

end Events

/-! ## Quiescence and its conditions -/

/-- No message is in flight and every PE is empty. -/
def Quiet (cfg : Config α) (s : Quiescence α F) : Prop :=
  s.sys.flight = [] ∧ ∀ pe < cfg.numPes, (s.tram pe).Empty cfg

/-- The count rests on PE `pe`: every contribution so far is 0, and of the PEs that have not
    been counted it is the only one that is not empty. -/
structure Rests (cfg : Config α) (s : Quiescence α F) (pe : ℕ) : Prop where
  uncounted : .countBuffers pe ∈ s.pending
  zero : ∀ c ∈ s.counts, c = 0
  others : ∀ i ≠ pe, .countBuffers i ∈ s.pending → (s.tram i).Empty cfg
  waits : ¬ (s.tram pe).Empty cfg

section Conditions

variable [Inhabited α] [ReleaseArith F]

/-- The calls `ops` on PE `pe` are orderly, and if the count rests on it they leave something
    there to count. -/
structure Fair (cfg : Config α) (s : Quiescence α F) (pe : ℕ) (ops : List (Op α F)) : Prop where
  orderly : (s.tram pe).Orderly cfg ops
  leaves : s.Rests cfg pe → ∀ q, (s.tram pe).run cfg ops = .returns q → ¬ q.Empty cfg

/-- What the calls of an event meet. -/
def Meets (cfg : Config α) (s : Quiescence α F) : Event α F → Prop
  | .call pe op => s.Fair cfg pe [op]
  | .periodicTflush pe => s.Fair cfg pe [.tflush false]
  | .deliver k _ calls =>
    ∀ m, s.sys.flight[k]? = some m → ∀ pe, m.client = some pe → s.Fair cfg pe calls
  | .control k => ∀ pe, s.pending[k]? = some (.tflush pe) → s.Fair cfg pe [.tflush false]
  | .htramQuiesce | .detect => True

/-- The PEs as their clients open them, with no message in flight. -/
structure Opened (cfg : Config α) (agg : Agg) (bufSize : ℕ) (combining : ℕ → Bool)
    (s : System α F) : Prop where
  flight : s.flight = []
  tram : ∀ pe, ∃ pre : List (Op α F), (∀ op ∈ pre, op.Idle ∧ op.InRange cfg agg (combining pe)) ∧
    HTram.opened cfg agg bufSize pre (combining pe) = .returns (s.node pe).tram

end Conditions

end Quiescence

end Htram
