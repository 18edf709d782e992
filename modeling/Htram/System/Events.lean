import Htram.Common.Network
import Htram.Pe.Books
import Htram.Recv.Sort

/-!
# The PEs and the messages between them

The branches of the group `HTram` on all PEs, in the modes `WPs` and `WW`, with the messages
that are in flight. `System.step` is one event: a call of the client on a PE, or the arrival
of a message. Charm++ delivers each message once, in any order.

A state is one in which no call is running. A call that does not return is no event.
-/

namespace Htram

open Network

variable {α F : Type*}

/-- The branch of the group on a PE: with what it sends by, what it has handed to the client
    and `tot_recv_count`. -/
structure Branch (α F : Type*) where
  tram : HTram α F
  delivered : List α
  totRecvCount : ℤ

/-- A message in flight: the buffer of destination `dest`, or a sorted message. -/
inductive Packet (α : Type*)
  | buffer (dest : ℕ) (sent : Sent α)
  | post (post : Post α)

/-- All PEs and the messages in flight. -/
abbrev System (α F : Type*) := Net (Branch α F) (Packet α)

/-- `CkMyRank()` on PE `pe`. -/
def Config.rankOf (cfg : Config α) (pe : ℕ) : ℕ := pe % cfg.nodeSize

/-- What a PE has sent from `p` to `q`, destination by destination. -/
def HTram.outgoing (cfg : Config α) (p q : HTram α F) : List (Packet α) :=
  (List.range (p.destCount cfg)).flatMap fun d =>
    ((q.dest d).sent.drop (p.dest d).sent.length).map (Packet.buffer d)

/-- `tot_send_count`. -/
def HTram.totSendCount (cfg : Config α) (p : HTram α F) : ℤ :=
  ∑ d ∈ Finset.range (p.destCount cfg), ((p.dest d).totSendCount : ℤ)

/-- `ulimit - llimit` in `receivePerPE`. -/
def Post.count (cfg : Config α) (p : Post α) : ℤ :=
  p.msg.ulimit (cfg.rankOf p.pe) - p.msg.llimit (cfg.rankOf p.pe)

/-- What `receivePerPE` hands to the client. -/
def Post.items (cfg : Config α) (p : Post α) : List α := p.msg.receivePerPE (cfg.rankOf p.pe)

/-- A call of the client on a PE, or the arrival of message `k`, where `skip` is
    `skip_empty_deliveries` on the PE that receives it. -/
inductive Event (α F : Type*)
  | call (pe : ℕ) (op : Op α F)
  | enableCombining (pe : ℕ)
  | deliver (k : ℕ) (skip : Bool)

namespace System

/-- A call has left PE `pe` in `q`. -/
def ended (cfg : Config α) (pe : ℕ) (q : HTram α F) (s : System α F) : System α F :=
  (s.set pe { s.node pe with tram := q }).emit ((s.node pe).tram.outgoing cfg q)

/-- A call of PE `pe` ends. -/
def settle (cfg : Config α) (pe : ℕ) (s : System α F) : Outcome (HTram α F) → Option (System α F)
  | .returns q => some (s.ended cfg pe q)
  | _ => none

/-- PE `pe` hands `items` to the client, of which it counts `count`. -/
def hand (pe : ℕ) (items : List α) (count : ℤ) (s : System α F) : System α F :=
  s.set pe
    { s.node pe with
      delivered := (s.node pe).delivered ++ items
      totRecvCount := (s.node pe).totRecvCount + count }

/-- A message arrives: at a node (`HTramRecv::receive`), at a PE (`receiveOnPE`, lines
    1314–1332, which counts nothing), or, sorted, at a PE (`receivePerPE`, lines 1483–1496).
    `receive_no_sort` takes the buffers of `WsP` only. -/
def arrive [Inhabited α] (cfg : Config α) (skip : Bool) (s : System α F) :
    Packet α → Option (System α F)
  | .buffer d sent =>
    match sent.entry with
    | .receive => some (s.emit ((HTramRecv.receive (cfg.node d) skip sent.msg).map .post))
    | .receiveOnPE => some (s.hand d (sent.msg.received.map Item.payload) 0)
    | .receiveNoSort => none
  | .post p => some (s.hand p.pe (p.items cfg) (p.count cfg))

variable [Inhabited α] [ReleaseArith F]

/-- All PEs as the constructor leaves them. -/
def start (agg : Agg) (bufSize : ℕ) : System α F := ⟨fun _ => ⟨HTram.init agg bufSize, [], 0⟩, []⟩

/-- One event. -/
def step (cfg : Config α) (s : System α F) : Event α F → Option (System α F)
  | .call pe op =>
    if pe < cfg.numPes then s.settle cfg pe ((s.node pe).tram.step cfg op) else none
  | .enableCombining pe =>
    if pe < cfg.numPes then s.settle cfg pe ((s.node pe).tram.enableCombining cfg) else none
  | .deliver k skip => s.flight[k]?.bind (arrive cfg skip (s.take k))

/-- A run of events. -/
def run (cfg : Config α) : List (Event α F) → System α F → Option (System α F) :=
  runs (step cfg)

omit [Inhabited α] [ReleaseArith F] in
/-- The sum of `tot_send_count` that `sanityCheck` reports (lines 1507–1518). -/
def totSend (cfg : Config α) (s : System α F) : ℤ :=
  ∑ pe ∈ Finset.range cfg.numPes, (s.node pe).tram.totSendCount cfg

omit [Inhabited α] [ReleaseArith F] in
/-- The sum of `tot_recv_count` that `sanityCheck` reports. -/
def totRecv (cfg : Config α) (s : System α F) : ℤ :=
  ∑ pe ∈ Finset.range cfg.numPes, (s.node pe).totRecvCount

/-! ## Single events -/

omit [Inhabited α] [ReleaseArith F] in
theorem settle_some {cfg : Config α} {pe : ℕ} {s t : System α F} {o : Outcome (HTram α F)}
    (h : s.settle cfg pe o = some t) :
    ∃ q, o = .returns q ∧ t = s.ended cfg pe q := by
  cases o with
  | returns q => exact ⟨q, rfl, (Option.some.inj h).symm⟩
  | aborts => cases h
  | hangs q => cases h

theorem step_call {cfg : Config α} {s t : System α F} {pe : ℕ} {op : Op α F}
    (h : step cfg s (.call pe op) = some t) :
    pe < cfg.numPes ∧ s.settle cfg pe ((s.node pe).tram.step cfg op) = some t := by
  rw [step] at h
  split_ifs at h with hpe
  exact ⟨hpe, h⟩

theorem step_enableCombining {cfg : Config α} {s t : System α F} {pe : ℕ}
    (h : step cfg s (.enableCombining pe) = some t) :
    pe < cfg.numPes ∧ s.settle cfg pe ((s.node pe).tram.enableCombining cfg) = some t := by
  rw [step] at h
  split_ifs at h with hpe
  exact ⟨hpe, h⟩

theorem step_deliver {cfg : Config α} {s t : System α F} {k : ℕ} {skip : Bool}
    (h : step cfg s (.deliver k skip) = some t) :
    ∃ m, s.flight[k]? = some m ∧ arrive cfg skip (s.take k) m = some t :=
  Option.bind_eq_some_iff.mp h

omit [Inhabited α] [ReleaseArith F] in
theorem hand_tram {s : System α F} (pe : ℕ) (items : List α) (count : ℤ) (i : ℕ) :
    ((s.hand pe items count).node i).tram = (s.node i).tram := by
  unfold hand
  by_cases h : i = pe
  · subst h
    rw [Net.set_node_self]
  · rw [Net.set_node_of_ne s h]

omit [ReleaseArith F] in
/-- A message that arrives does not change what a PE sends with. -/
theorem arrive_tram {cfg : Config α} {s t : System α F} {skip : Bool} {m : Packet α}
    (h : arrive cfg skip s m = some t) (i : ℕ) : (t.node i).tram = (s.node i).tram := by
  cases m with
  | post p =>
    cases h
    exact hand_tram ..
  | buffer d x =>
    rw [arrive] at h
    cases hx : x.entry with
    | receive => rw [hx] at h; cases h; rfl
    | receiveOnPE => rw [hx] at h; cases h; exact hand_tram ..
    | receiveNoSort => rw [hx] at h; cases h

/-! ## The unit test's client on four PEs -/

/-- Two nodes of two PEs each. The key of an item is the PE that it is for. -/
def fourPes : Config KeyValue where
  numNodes := 2
  nodeSize := 2
  histoBucketCount := 8
  maxBufSize := 4
  addFillers := false
  getDestProc := fun x => x.key.toNat
  ops := minOps

theorem fourPes_combines (own : KeyValue → Prop) : fourPes.Combines own := by
  intro y x hkey hy hx
  show (minCombine y x).1.key = x.key ∧ own (minCombine y x).1
  unfold minCombine
  split_ifs
  · exact ⟨rfl, hx⟩
  · exact ⟨hkey, hy⟩

end System

end Htram
