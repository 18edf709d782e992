import Htram.Client.Index
import Htram.System.Scanned

/-!
# The index gather of `smp_ig.C`

Every PE asks for the entries of a table that its indices name. The requests go through one group
`HTram` and the answers through another: `requestData` looks the entry up and answers, and
`responseData` keeps the answer and asks again until it has been answered three times. When all is
quiet `lastFlush` sends off the answers that wait, and when all is quiet again the check runs.
-/

namespace Htram

open Network

/-- `packet1`. -/
structure Packet1 where
  val : ℤ
  idx : ℕ
  pe : ℕ
  deriving DecidableEq, Inhabited

namespace IndexGather

/-- The parameters of a run, and what `rand()` returns, PE by PE. -/
structure Setup where
  lNumReq : ℕ
  ltabSiz : ℕ
  rand : ℕ → ℕ → ℕ

/-- The element of `Updater` on a PE: the answers, how often each request has been answered, how far
    `generateUpdates` has come, and whether it and `lastFlush` have returned. -/
structure Updater where
  tgt : ℕ → ℤ
  count : ℕ → ℕ
  next : ℕ
  flushed : Bool
  lastFlushed : Bool

/-- What the main chare waits for, and at the end what `reportErrors` has got. -/
inductive Phase
  | updates
  | lastFlush
  | latency
  | checked (globalNumErrors : ℕ)
  deriving DecidableEq

end IndexGather

/-- The two groups, the updaters and the phase. -/
structure IndexGather (F : Type*) where
  req : SortedSystem Packet1 F
  resp : SortedSystem Packet1 F
  updater : ℕ → IndexGather.Updater
  phase : IndexGather.Phase

/-- A turn of `generateUpdates`, the arrival of message `k` of one of the groups, `lastFlush` on a
    PE, or quiescence. -/
inductive IndexGather.Event
  | generateUpdates (pe : ℕ)
  | deliverReq (k : ℕ)
  | deliverResp (k : ℕ)
  | lastFlush (pe : ℕ)
  | startVerificationPhase
  | completeRun
  | checkErrors

namespace IndexGather

variable {F : Type*}

/-- `index[i]`: `rand() % tab_siz`. -/
def Setup.index (cfg : Config Packet1) (p : Setup) (pe i : ℕ) : ℕ :=
  Client.indx cfg.numPes p.ltabSiz (p.rand pe i)

/-- The table is not empty, and an `int` holds the number of its entries. -/
def Setup.Fits (cfg : Config Packet1) (p : Setup) : Prop := Client.Fits cfg.numPes p.ltabSiz

/-- The request for index `i`, and the PE that it goes to. -/
def Setup.request (cfg : Config Packet1) (p : Setup) (pe i : ℕ) : ℕ × Packet1 :=
  (Client.pe cfg.numPes (p.index cfg pe i), ⟨Client.col cfg.numPes (p.index cfg pe i), i, pe⟩)

/-- `table[i]` on PE `pe`. -/
def Setup.table (p : Setup) (pe : ℕ) (i : ℤ) : ℤ :=
  let indexK := Client.int (Client.int (pe * p.ltabSiz) + i)
  Client.int ((-1) * Client.int (indexK + 1))

/-- The answer of PE `pe` to a request. -/
def Setup.answer (p : Setup) (pe : ℕ) (x : Packet1) : Packet1 := ⟨p.table pe x.val, x.idx, x.pe⟩

/-- What `checkErrors` compares `tgt[i]` with. -/
def Setup.expected (cfg : Config Packet1) (p : Setup) (pe i : ℕ) : ℤ :=
  let indexK := Client.int (p.index cfg pe i)
  let lIndx := indexK.tdiv cfg.numPes
  let pe := indexK.tmod cfg.numPes
  let indexI := Client.int (Client.int (pe * p.ltabSiz) + lIndx)
  Client.int (Client.int (-1 * indexI) - 1)

/-- What `checkErrors` counts: the answers that are wrong. -/
def Updater.checkErrors (cfg : Config Packet1) (p : Setup) (pe : ℕ) (u : Updater) : ℕ :=
  (List.range p.lNumReq).countP fun i => decide (u.tgt i ≠ p.expected cfg pe i)

/-- The sum over all PEs. -/
def globalNumErrors (cfg : Config Packet1) (p : Setup) (s : IndexGather F) : ℕ :=
  ∑ pe ∈ Finset.range cfg.numPes, (s.updater pe).checkErrors cfg p pe

/-- Nothing is in flight. -/
def Quiet (s : IndexGather F) : Prop := s.req.flight.length = 0 ∧ s.resp.flight.length = 0

instance (s : IndexGather F) : Decidable s.Quiet := inferInstanceAs (Decidable (_ ∧ _))

variable [ReleaseArith F]

/-- All PEs when `preGenerateUpdates` has returned everywhere. -/
def start (bufSize : ℕ) : IndexGather F :=
  ⟨SortedSystem.start bufSize, SortedSystem.start bufSize,
    fun _ => ⟨fun _ => 0, fun _ => 0, 0, false, false⟩, .updates⟩

/-- The constructors: `rand() % tab_siz` divides by zero if `tab_siz` is 0. -/
def construct (cfg : Config Packet1) (p : Setup) (bufSize : ℕ) : Option (IndexGather F) :=
  if 0 < cfg.numPes ∧ 0 < p.lNumReq ∧ Client.tabSiz cfg.numPes p.ltabSiz = 0 then none
  else some (start bufSize)

/-- `requestData`. -/
def requestData (cfg : Config Packet1) (p : Setup) (s : IndexGather F) (pe : ℕ) (x : Packet1) :
    Option (IndexGather F) :=
  (s.resp.step cfg (.call pe (.insertValue (p.answer pe x) x.pe))).map fun resp => { s with resp }

/-- `responseData`. -/
def responseData (cfg : Config Packet1) (p : Setup) (s : IndexGather F) (pe : ℕ) (x : Packet1) :
    Option (IndexGather F) :=
  let u := s.updater pe
  let u' : Updater :=
    { u with
      tgt := Function.update u.tgt x.idx x.val
      count := Function.update u.count x.idx (u.count x.idx + 1) }
  let updater := Function.update s.updater pe u'
  if u'.count x.idx < 3 then
    let (destPe, x') := p.request cfg pe x.idx
    (s.req.step cfg (.call pe (.insertValue x' destPe))).map fun req => { s with req, updater }
  else some { s with updater }

/-- One event. Quiescence is detected when nothing is in flight and no entry method runs. -/
def step (cfg : Config Packet1) (p : Setup) (s : IndexGather F) : Event → Option (IndexGather F)
  | .generateUpdates pe =>
    let u := s.updater pe
    if s.phase = .updates ∧ u.flushed = false then
      if u.next < p.lNumReq then
        let (destPe, x) := p.request cfg pe u.next
        (s.req.step cfg (.call pe (.insertValue x destPe))).map fun req =>
          { s with req, updater := Function.update s.updater pe { u with next := u.next + 1 } }
      else
        (s.req.step cfg (.call pe (.tflush false))).map fun req =>
          { s with req, updater := Function.update s.updater pe { u with flushed := true } }
    else none
  | .deliverReq k =>
    s.req.flight[k]?.bind fun m =>
      (s.req.step cfg (.deliver k)).bind fun req =>
        runs (fun s x => requestData cfg p s x.1 x.2) (SortedSystem.handedBy m) { s with req }
  | .deliverResp k =>
    s.resp.flight[k]?.bind fun m =>
      (s.resp.step cfg (.deliver k)).bind fun resp =>
        runs (fun s x => responseData cfg p s x.1 x.2) (SortedSystem.handedBy m) { s with resp }
  | .lastFlush pe =>
    let u := s.updater pe
    if s.phase = .lastFlush ∧ u.lastFlushed = false then
      (s.resp.step cfg (.call pe (.tflush false))).map fun resp =>
        { s with resp, updater := Function.update s.updater pe { u with lastFlushed := true } }
    else none
  | .startVerificationPhase =>
    if s.phase = .updates ∧ s.Quiet ∧ ∀ pe < cfg.numPes, (s.updater pe).flushed = true then
      some { s with phase := .lastFlush }
    else none
  | .completeRun =>
    if s.phase = .lastFlush ∧ s.Quiet ∧ ∀ pe < cfg.numPes, (s.updater pe).lastFlushed = true then
      some { s with phase := .latency }
    else none
  | .checkErrors =>
    if s.phase = .latency ∧ s.Quiet then
      -- `tgt[i] = 0` when the answer has been checked
      some { s with
        updater := fun pe => { s.updater pe with tgt := fun _ => 0 }
        phase := .checked (s.globalNumErrors cfg p) }
    else none

/-- A run of events. -/
def run (cfg : Config Packet1) (p : Setup) : List Event → IndexGather F → Option (IndexGather F) :=
  runs (step cfg p)

end IndexGather

end Htram
