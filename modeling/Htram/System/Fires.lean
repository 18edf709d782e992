import Htram.Pe.Exact
import Htram.System.Quiescence

/-!
# `quiesce_cb` is sent

What waits, what is in flight and what is left of the round pay for every arrival and every step of
the protocol. A call that may leave something to count pays for one round more.

* `System.ended_load`, `System.arrive_load`: calls and arrivals.
* `Quiescence.step_within`: an event uses up no more than it costs less what it brings in.
* `Quiescence.goes_on`: while `quiesce_cb` is owed some event can take place without the client.
* `Quiescence.run_fires`: in every run the protocol takes a bounded number of steps for the calls
  that the clients make, answers every request once, and is not stuck while it owes an answer.
-/

namespace Htram

open Network

variable {α F : Type*}

/-! ## Messages -/

/-- The arrivals that a message makes, its own included. -/
def Packet.arrivals (cfg : Config α) : Packet α → ℕ
  | .buffer .. => cfg.nodeSize + 1
  | .post _ => 1

/-- The message is for a destination of the mode, by its entry method, or for a PE. -/
def Packet.Goes (cfg : Config α) (agg : Agg) : Packet α → Prop
  | .buffer d s => d < cfg.destCount agg ∧ s.entry = if agg = .WW then .receiveOnPE else .receive
  | .post p => p.pe < cfg.numPes

theorem Packet.Goes.client {cfg : Config α} {agg : Agg} {m : Packet α} (hm : m.Goes cfg agg)
    {pe : ℕ} (hpe : m.client = some pe) : pe < cfg.numPes := by
  cases m with
  | post p =>
    cases hpe
    exact hm
  | buffer d s =>
    obtain ⟨hd, hentry⟩ := hm
    unfold Packet.client at hpe
    by_cases hagg : agg = .WW
    · subst hagg
      rw [if_pos rfl] at hentry
      simp only [hentry, Option.some.injEq] at hpe
      rwa [← hpe]
    · rw [if_neg hagg] at hentry
      simp [hentry] at hpe

theorem post_pe {cfg : Config α} {d : ℕ} [Inhabited α] (hd : d < cfg.numNodes) {skip : Bool}
    {msg : HTramMessage α} {p : Post α} (hp : p ∈ HTramRecv.receive (cfg.node d) skip msg) :
    p.pe < cfg.numPes := by
  obtain ⟨r, hr, -, rfl⟩ := HTramRecv.mem_post.mp hp
  exact Config.node_pe hd hr

theorem length_receive_le [Inhabited α] (cfg : Config α) (d : ℕ) (skip : Bool)
    (msg : HTramMessage α) : (HTramRecv.receive (cfg.node d) skip msg).length ≤ cfg.nodeSize := by
  unfold HTramRecv.receive HTramRecv.post
  rw [List.length_map]
  refine (List.length_filter_le ..).trans ?_
  rw [List.length_range]
  exact le_rfl

namespace System

/-- What an item that waits is worth. -/
def price (cfg : Config α) : ℕ := cfg.nodeSize + 1

/-- The arrivals that are left, and those of the items that wait. -/
def load (cfg : Config α) (s : System α F) : ℕ :=
  s.total cfg.numPes (fun b => b.tram.stored cfg * price cfg) (Packet.arrivals cfg)

variable {cfg : Config α} {agg : Agg} {s t : System α F}

/-- What a call ships, in messages that are not empty. -/
theorem outgoing_paid {n : ℕ} {p q : HTram α F} (h : HTram.Pays cfg n p q) :
    q.stored cfg + (p.outgoing cfg q).length ≤ p.stored cfg + n := by
  have hsum := HTram.outgoing_sum h.grown fun _ => (1 : ℕ)
  have hpaid := h.paid
  unfold HTram.charge Lane.charge at hpaid
  rw [Finset.sum_add_distrib, Finset.sum_add_distrib, h.destCount] at hpaid
  unfold HTram.stored
  rw [h.destCount]
  simp only [List.map_const', List.sum_replicate, Nat.nsmul_eq_mul, Nat.mul_one] at hsum
  have hq : ∀ (r : HTram α F) (d : ℕ), (r.lane cfg d).sent.length = (r.dest d).sent.length :=
    fun _ _ => rfl
  simp only [hq] at hpaid
  omega

theorem outgoing_goes {p q : HTram α F} (hq : q.Exact cfg)
    (hcount : q.destCount cfg = p.destCount cfg) (hagg : q.knobs.agg = agg) :
    ∀ m ∈ p.outgoing cfg q, m.Goes cfg agg := by
  intro m hm
  obtain ⟨d, hd, x, hx, rfl⟩ := mem_outgoing.mp hm
  rw [← hcount] at hd
  refine ⟨?_, ?_⟩
  · unfold HTram.destCount at hd
    rwa [hagg] at hd
  · have hentry := hq.posted d hd x (List.mem_of_mem_drop hx)
    rw [← hagg]
    exact hentry

theorem ended_load {pe : ℕ} (hpe : pe < cfg.numPes) {n : ℕ} {q : HTram α F}
    (hpays : HTram.Pays cfg n (s.node pe).tram q) :
    (s.ended cfg pe q).load cfg ≤ s.load cfg + n * price cfg := by
  have hpaid := Nat.mul_le_mul_right (price cfg) (outgoing_paid hpays)
  have hbuffer : ∀ m ∈ (s.node pe).tram.outgoing cfg q, m.arrivals cfg = price cfg := by
    intro m hm
    obtain ⟨d, -, x, -, rfl⟩ := mem_outgoing.mp hm
    rfl
  have htotal := Net.total_set (s := s) (v := Packet.arrivals cfg)
    (w := fun b : Branch α F => b.tram.stored cfg * price cfg) hpe
    ⟨q, (s.node pe).delivered, (s.node pe).totRecvCount⟩
  show ((s.set pe ⟨q, (s.node pe).delivered, (s.node pe).totRecvCount⟩).emit
    ((s.node pe).tram.outgoing cfg q)).total _ _ _ ≤ _
  unfold load
  rw [Net.total_emit, List.map_congr_left hbuffer, List.map_const', List.sum_replicate,
    Nat.nsmul_eq_mul]
  rw [Nat.add_mul, Nat.add_mul] at hpaid
  dsimp only at htotal
  omega

variable [Inhabited α]

theorem arrive_load {k : ℕ} {m : Packet α} (hk : s.flight[k]? = some m)
    {skip : Bool} (h : arrive cfg skip (s.take k) m = some t) :
    t.load cfg + 1 ≤ s.load cfg := by
  have htake := Net.total_take (n := cfg.numPes) (v := Packet.arrivals cfg)
    (w := fun b : Branch α F => b.tram.stored cfg * price cfg) hk
  have hhand : ∀ pe items count, load cfg (hand pe items count (s.take k)) =
      load cfg (s.take k) := by
    intro pe items count
    unfold load Net.total
    simp only [hand_tram]
    rfl
  unfold load at hhand ⊢
  cases m with
  | post p =>
    cases h
    rw [hhand, ← htake]
    exact le_rfl
  | buffer d x =>
    have hbuffer : (Packet.buffer d x).arrivals cfg = cfg.nodeSize + 1 := rfl
    rw [arrive] at h
    cases hx : x.entry with
    | receive =>
      rw [hx] at h
      cases h
      have hposts : (((HTramRecv.receive (cfg.node d) skip x.msg).map Packet.post).map
          (Packet.arrivals cfg)).sum ≤ cfg.nodeSize := by
        have hone : ∀ p ∈ HTramRecv.receive (cfg.node d) skip x.msg,
            (Packet.arrivals cfg ∘ Packet.post) p = 1 := fun _ _ => rfl
        rw [List.map_map, List.map_congr_left hone, List.map_const', List.sum_replicate,
          Nat.nsmul_eq_mul, Nat.mul_one]
        exact length_receive_le cfg d skip x.msg
      rw [Net.total_emit, ← htake]
      omega
    | receiveOnPE =>
      rw [hx] at h
      cases h
      rw [hhand, ← htake]
      omega
    | receiveNoSort =>
      rw [hx] at h
      cases h

theorem arrive_goes (hs : ∀ m ∈ s.flight, m.Goes cfg agg) {k : ℕ} {m : Packet α}
    (hk : s.flight[k]? = some m) {skip : Bool} (h : arrive cfg skip (s.take k) m = some t) :
    ∀ m' ∈ t.flight, m'.Goes cfg agg := by
  have hm := hs m (List.mem_of_getElem? hk)
  have htake : ∀ m' ∈ (s.take k).flight, m'.Goes cfg agg :=
    fun m' h' => hs m' (List.mem_of_mem_eraseIdx h')
  cases m with
  | post p =>
    cases h
    exact htake
  | buffer d x =>
    rw [arrive] at h
    cases hx : x.entry with
    | receive =>
      rw [hx] at h
      cases h
      intro m' hm'
      rcases List.mem_append.mp hm' with hold | hnew
      · exact htake m' hold
      · obtain ⟨p, hp, rfl⟩ := List.mem_map.mp hnew
        obtain ⟨hd, hentry⟩ := hm
        refine post_pe (d := d) ?_ hp
        have hagg : agg ≠ .WW := by
          rintro rfl
          rw [if_pos rfl, hx] at hentry
          cases hentry
        cases agg with
        | WW => exact absurd rfl hagg
        | WPs | WsP => exact hd
    | receiveOnPE =>
      rw [hx] at h
      cases h
      exact htake
    | receiveNoSort =>
      rw [hx] at h
      cases h

theorem arrive_enabled {m : Packet α} (hm : m.Goes cfg agg) (skip : Bool) :
    ∃ t, arrive cfg skip s m = some t := by
  cases m with
  | post p => exact ⟨_, rfl⟩
  | buffer d x =>
    rw [arrive, hm.2]
    split_ifs
    · exact ⟨_, rfl⟩
    · exact ⟨_, rfl⟩

variable {combining : ℕ → Bool}

/-- The counts of every PE are exact, and every message goes somewhere. -/
structure Exact (cfg : Config α) (agg : Agg) (combining : ℕ → Bool) (s : System α F) : Prop where
  tram : ∀ i, (s.node i).tram.Exact cfg
  mode : ∀ i, (s.node i).tram.knobs.agg = agg ∧ (s.node i).tram.knobs.combining = combining i
  goes : ∀ m ∈ s.flight, m.Goes cfg agg

theorem Exact.arrive (hs : s.Exact cfg agg combining) {k : ℕ} {m : Packet α}
    (hk : s.flight[k]? = some m) {skip : Bool} (h : arrive cfg skip (s.take k) m = some t) :
    t.Exact cfg agg combining := by
  refine ⟨fun i => ?_, fun i => ?_, arrive_goes hs.goes hk h⟩
  · rw [arrive_tram h i]
    exact hs.tram i
  · rw [arrive_tram h i]
    exact hs.mode i

variable [ReleaseArith F]

/-- The calls `ops` of PE `pe`. -/
theorem Exact.calls (hs : s.Exact cfg agg combining) {pe : ℕ} (hpe : pe < cfg.numPes)
    {ops : List (Op α F)} (hops : (s.node pe).tram.Orderly cfg ops)
    (htop : ∀ op ∈ ops, op.MergesTop)
    (h : s.settle cfg pe ((s.node pe).tram.run cfg ops) = some t) :
    t.Exact cfg agg combining ∧ t.load cfg ≤ s.load cfg + (ops.map Op.news).sum * price cfg ∧
      ((ops.map Op.news).sum = 0 →
        ∀ i, (s.node i).tram.Empty cfg → (t.node i).tram.Empty cfg) := by
  obtain ⟨q, hq, rfl⟩ := settle_some h
  obtain ⟨hexact, hpays⟩ := HTram.run_exact (hs.tram pe) hops htop hq
  have hself : ((s.ended cfg pe q).node pe).tram = q := by
    unfold ended
    rw [Net.emit_node, Net.set_node_self]
  have hothers : ∀ i ≠ pe, ((s.ended cfg pe q).node i).tram = (s.node i).tram := by
    intro i hi
    unfold ended
    rw [Net.emit_node, Net.set_node_of_ne s hi]
  have hagg := hpays.agg.trans (hs.mode pe).1
  refine ⟨⟨fun i => ?_, fun i => ?_, fun m hm => ?_⟩, ended_load hpe hpays, fun h0 i hi => ?_⟩
  · by_cases hi : i = pe
    · subst hi
      rwa [hself]
    · rw [hothers i hi]
      exact hs.tram i
  · by_cases hi : i = pe
    · subst hi
      rw [hself]
      exact ⟨hagg, hpays.combining.trans (hs.mode i).2⟩
    · rw [hothers i hi]
      exact hs.mode i
  · rcases List.mem_append.mp hm with hold | hnew
    · exact hs.goes m hold
    · exact outgoing_goes hexact hpays.destCount hagg m hnew
  · by_cases hie : i = pe
    · subst hie
      rw [hself]
      exact hpays.empty h0 hi
    · rwa [hothers i hie]

end System

namespace Quiescence

/-! ## Rounds -/

/-- The events of a round. -/
def round (cfg : Config α) : ℕ := 2 * cfg.numPes + 4

/-- Where the protocol is on `n` PEs, and what is left of its round. -/
inductive Stage (n : ℕ) : Bool → Option Detector → List Control → List ℤ → ℕ → Prop
  | asleep : Stage n false none [] [] 0
  | asked : Stage n true (some .onQD) [] [] (2 * n + 4)
  | begun : Stage n true none [.onQD] [] (2 * n + 3)
  | flushing (pes : List ℕ) (hpes : ∀ pe ∈ pes, pe < n) :
      Stage n true (some .countBuffers) (pes.map .tflush) [] (pes.length + n + 2)
  | counting (pes : List ℕ) (counts : List ℤ) (hsome : pes ≠ [])
      (hall : counts.length + pes.length = n) :
      Stage n true none (pes.map .countBuffers) counts (pes.length + 1)
  | totalled (total : ℤ) : Stage n true none [.onBufferCount total] [] 1

/-- The round will count 0, unless more comes in. -/
structure Clean (cfg : Config α) (s : Quiescence α F) : Prop where
  flushed : s.armed = some .countBuffers →
    ∀ pe < cfg.numPes, (s.tram pe).Empty cfg ∨ .tflush pe ∈ s.pending
  counts : ∀ c ∈ s.counts, c = 0
  uncounted : ∀ pe, .countBuffers pe ∈ s.pending → (s.tram pe).Empty cfg
  total : ∀ total, .onBufferCount total ∈ s.pending → total = 0

/-- `n` pays for what is left: this round, and another one unless this round is clean. -/
structure Within (cfg : Config α) (agg : Agg) (combining : ℕ → Bool) (n : ℕ)
    (s : Quiescence α F) : Prop where
  exact : s.sys.Exact cfg agg combining
  left : ∃ r, Stage cfg.numPes s.requested s.armed s.pending s.counts r ∧
    (s.Clean cfg ∧ s.sys.load cfg + r ≤ n ∨ s.sys.load cfg + r + round cfg ≤ n)

/-- An arrival or a step of the protocol. -/
def Event.cost : Event α F → ℕ
  | .deliver .. | .detect | .control _ => 1
  | _ => 0

/-- What an event brings in: a call that is not a flush an item and a round, and a request a
    round. -/
def Event.credit (cfg : Config α) : Event α F → ℕ
  | .call _ op => op.news * (System.price cfg + round cfg)
  | .deliver _ _ calls => (calls.map Op.news).sum * (System.price cfg + round cfg)
  | .htramQuiesce => round cfg
  | _ => 0

/-- The requests for `quiesce_cb`. -/
def Event.asks : Event α F → ℕ
  | .htramQuiesce => 1
  | _ => 0

/-- An arrival without calls of the client, or a step of the protocol. -/
def Event.Own : Event α F → Prop
  | .deliver _ _ calls => calls = []
  | .detect | .control _ => True
  | _ => False

/-! ## What a message of the protocol does to the round -/

theorem lt_of_mapped {f : ℕ → Control} {pes : List ℕ} {k : ℕ} {c : Control}
    (hk : (pes.map f)[k]? = some c) : k < pes.length := by
  have := (List.getElem?_eq_some_iff.mp hk).1
  rwa [List.length_map] at this

/-- The only message on its way arrives. -/
theorem eraseIdx_of_single {c d : Control} {k : ℕ} (hk : [c][k]? = some d) :
    [c].eraseIdx k = [] := by
  have hk0 : k = 0 := by
    have := (List.getElem?_eq_some_iff.mp hk).1
    rw [List.length_singleton] at this
    omega
  subst hk0
  rfl

namespace Stage

variable {n r : ℕ} {requested : Bool} {armed : Option Detector} {pending : List Control}
  {counts : List ℤ} {k : ℕ}

theorem idle (h : Stage n false armed pending counts r) : pending = [] ∧ counts = [] := by
  cases h
  exact ⟨rfl, rfl⟩

/-- The detector calls what it was armed with. -/
theorem detect {det : Detector} (h : Stage n requested (some det) pending counts r)
    (hpending : pending = []) : requested = true ∧ counts = [] ∧
      (det = .onQD → r = 2 * n + 4) ∧ (det = .countBuffers → r = n + 2) := by
  cases h with
  | asked => exact ⟨rfl, rfl, fun _ => rfl, by simp⟩
  | flushing pes hpes =>
    have hpes : pes = [] := List.map_eq_nil_iff.mp hpending
    subst hpes
    refine ⟨rfl, rfl, by simp, fun _ => ?_⟩
    rw [List.length_nil, Nat.zero_add]

theorem onQD (h : Stage n requested armed pending counts r) (hk : pending[k]? = some .onQD) :
    requested = true ∧ armed = none ∧ counts = [] ∧ pending.eraseIdx k = [] ∧ r = 2 * n + 3 := by
  have hmem := List.mem_of_getElem? hk
  cases h with
  | begun =>
    exact ⟨rfl, rfl, rfl, eraseIdx_of_single hk, rfl⟩
  | _ => simp at hmem

theorem tflush {pe : ℕ} (h : Stage n requested armed pending counts r)
    (hk : pending[k]? = some (.tflush pe)) :
    armed = some .countBuffers ∧ counts = [] ∧ (∀ c ∈ pending, ∃ i, c = .tflush i) ∧
      ∃ r', r' + 1 = r ∧ Stage n requested armed (pending.eraseIdx k) counts r' := by
  have hmem := List.mem_of_getElem? hk
  cases h with
  | flushing pes hpes =>
    have hlen := lt_of_mapped hk
    refine ⟨rfl, rfl, fun c hc => ?_, (pes.eraseIdx k).length + n + 2, ?_, ?_⟩
    · obtain ⟨i, -, rfl⟩ := List.mem_map.mp hc
      exact ⟨i, rfl⟩
    · rw [List.length_eraseIdx_of_lt hlen]
      omega
    · rw [List.eraseIdx_map]
      exact .flushing _ fun i hi => hpes i (List.mem_of_mem_eraseIdx hi)
  | _ => simp at hmem

theorem countBuffers {pe : ℕ} (h : Stage n requested armed pending counts r)
    (hk : pending[k]? = some (.countBuffers pe)) :
    requested = true ∧ armed = none ∧ ∃ pes : List ℕ, pending.eraseIdx k = pes.map .countBuffers ∧
      counts.length + pes.length + 1 = n ∧ r = pes.length + 2 := by
  have hmem := List.mem_of_getElem? hk
  cases h with
  | counting pes counts hsome hall =>
    have hlen := lt_of_mapped hk
    refine ⟨rfl, rfl, pes.eraseIdx k, List.eraseIdx_map .., ?_, ?_⟩
    · rw [List.length_eraseIdx_of_lt hlen]
      omega
    · rw [List.length_eraseIdx_of_lt hlen]
      omega
  | _ => simp at hmem

theorem onBufferCount {total : ℤ} (h : Stage n requested armed pending counts r)
    (hk : pending[k]? = some (.onBufferCount total)) :
    requested = true ∧ armed = none ∧ counts = [] ∧ pending.eraseIdx k = [] ∧ r = 1 := by
  have hmem := List.mem_of_getElem? hk
  cases h with
  | totalled total =>
    exact ⟨rfl, rfl, rfl, eraseIdx_of_single hk, rfl⟩
  | _ => simp at hmem

/-- While `quiesce_cb` is owed the detector is armed or a message of the protocol is on its way. -/
theorem busy (h : Stage n true armed pending counts r) :
    (pending = [] ∧ ∃ det, armed = some det) ∨
      ∃ c, pending[0]? = some c ∧ ∀ pe, c = .tflush pe → pe < n := by
  cases h with
  | asked => exact .inl ⟨rfl, _, rfl⟩
  | flushing pes hpes =>
    cases pes with
    | nil => exact .inl ⟨rfl, _, rfl⟩
    | cons pe pes =>
      refine .inr ⟨.tflush pe, rfl, fun pe' h => ?_⟩
      cases h
      exact hpes pe (List.mem_cons_self ..)
  | counting pes counts hsome =>
    obtain ⟨pe, pes', rfl⟩ := List.exists_cons_of_ne_nil hsome
    exact .inr ⟨.countBuffers pe, rfl, by simp⟩
  | begun | totalled => exact .inr ⟨_, rfl, by simp⟩

end Stage

/-- A round that has not begun is clean. -/
theorem Clean.of_asked {cfg : Config α} {s : Quiescence α F}
    (harmed : s.armed ≠ some .countBuffers) (hcounts : s.counts = [])
    (hpending : ∀ c ∈ s.pending, c = .onQD) : s.Clean cfg := by
  refine ⟨fun h => absurd h harmed, fun c hc => ?_, fun pe hpe => ?_, fun total htotal => ?_⟩
  · rw [hcounts] at hc
    cases hc
  · cases hpending _ hpe
  · cases hpending _ htotal

/-- While PEs are flushed, those that are not flushed yet may have something to count. -/
theorem Clean.of_flushing {cfg : Config α} {s : Quiescence α F}
    (hpending : ∀ c ∈ s.pending, ∃ i, c = .tflush i) (hcounts : s.counts = [])
    (hflushed : ∀ pe < cfg.numPes, (s.tram pe).Empty cfg ∨ .tflush pe ∈ s.pending) :
    s.Clean cfg := by
  refine ⟨fun _ => hflushed, fun c hc => ?_, fun pe hpe => ?_, fun total htotal => ?_⟩
  · rw [hcounts] at hc
    cases hc
  · obtain ⟨i, hi⟩ := hpending _ hpe
    cases hi
  · obtain ⟨i, hi⟩ := hpending _ htotal
    cases hi

section Steps

variable [Inhabited α] [ReleaseArith F]

/-- The calls of an event are orderly and do not coarsen with `keep_top`. -/
def Counts (cfg : Config α) (s : Quiescence α F) : Event α F → Prop
  | .call pe op => (s.tram pe).Orderly cfg [op] ∧ op.MergesTop
  | .periodicTflush pe => (s.tram pe).Orderly cfg [.tflush false]
  | .deliver k _ calls => ∀ m, s.sys.flight[k]? = some m → ∀ pe, m.client = some pe →
      (s.tram pe).Orderly cfg calls ∧ ∀ op ∈ calls, op.MergesTop
  | .control k => ∀ pe, s.pending[k]? = some (.tflush pe) →
      (s.tram pe).Orderly cfg [.tflush false]
  | .htramQuiesce | .detect => True

variable {cfg : Config α} {agg : Agg} {combining : ℕ → Bool} {n : ℕ} {s t : Quiescence α F}

omit [Inhabited α] [ReleaseArith F] in
/-- The system works, and the protocol stays where it is. -/
theorem Within.works (hs : s.Within cfg agg combining n) {sys : System α F} {c k : ℕ}
    (hsys : sys.Exact cfg agg combining)
    (hload : sys.load cfg + c ≤ s.sys.load cfg + k * System.price cfg)
    (hempty : k = 0 → ∀ i, (s.tram i).Empty cfg → (sys.node i).tram.Empty cfg) :
    ∃ n', Within cfg agg combining n' { s with sys } ∧
      n' + c ≤ n + k * (System.price cfg + round cfg) := by
  obtain ⟨r, hstage, hleft⟩ := hs.left
  rw [Nat.mul_add]
  by_cases hclean : k = 0 ∧ s.Clean cfg ∧ s.sys.load cfg + r ≤ n
  · obtain ⟨rfl, hclean, hn⟩ := hclean
    have hclean' : Clean cfg { s with sys } :=
      ⟨fun h pe hpe => (hclean.flushed h pe hpe).imp_left (hempty rfl pe), hclean.counts,
        fun pe hpe => hempty rfl pe (hclean.uncounted pe hpe), hclean.total⟩
    refine ⟨sys.load cfg + r, ⟨hsys, r, hstage, .inl ⟨hclean', le_rfl⟩⟩, ?_⟩
    omega
  · refine ⟨sys.load cfg + r + round cfg, ⟨hsys, r, hstage, .inr le_rfl⟩, ?_⟩
    rcases hleft with ⟨hclean', hn⟩ | hn
    · have hk : 1 ≤ k := Nat.one_le_iff_ne_zero.mpr fun h => hclean ⟨h, hclean', hn⟩
      have := Nat.le_mul_of_pos_left (round cfg) hk
      omega
    · omega

theorem deliver_within (hs : s.Within cfg agg combining n) {k : ℕ} {skip : Bool}
    {calls : List (Op α F)}
    (he : s.Counts cfg (.deliver k skip calls)) (h : step cfg s (.deliver k skip calls) = some t) :
    ∃ n', t.Within cfg agg combining n' ∧
      n' + 1 ≤ n + (calls.map Op.news).sum * (System.price cfg + round cfg) := by
  obtain ⟨sys, hsys, rfl⟩ := Option.map_eq_some_iff.mp h
  obtain ⟨m, hm, hsys⟩ := Option.bind_eq_some_iff.mp hsys
  obtain ⟨x, harrive, hcalls⟩ := Option.bind_eq_some_iff.mp hsys
  have hload := System.arrive_load hm harrive
  have hx := hs.exact.arrive hm harrive
  have htram : ∀ i, (x.node i).tram = s.tram i := fun i => System.arrive_tram harrive i
  cases hclient : m.client with
  | none =>
    rw [hclient] at hcalls
    cases hcalls
    refine hs.works hx (hload.trans (Nat.le_add_right ..)) fun _ i hi => ?_
    rwa [htram]
  | some pe =>
    rw [hclient] at hcalls
    have hpe := (hs.exact.goes m (List.mem_of_getElem? hm)).client hclient
    obtain ⟨hops, htop⟩ := he m hm pe hclient
    rw [← htram] at hops
    obtain ⟨hy, hload', hempty⟩ := hx.calls hpe hops htop hcalls
    refine hs.works hy (by omega) fun h0 i hi => hempty h0 i ?_
    rwa [htram]

/-- A call of one PE. -/
theorem call_exact {x y : System α F} (hx : x.Exact cfg agg combining) {pe : ℕ} {op : Op α F}
    (hops : (x.node pe).tram.Orderly cfg [op]) (htop : op.MergesTop)
    (h : x.step cfg (.call pe op) = some y) :
    y.Exact cfg agg combining ∧ y.load cfg ≤ x.load cfg + op.news * System.price cfg ∧
      (op.news = 0 → ∀ i, (x.node i).tram.Empty cfg → (y.node i).tram.Empty cfg) := by
  obtain ⟨hpe, hsettle⟩ := System.step_call h
  have htops : ∀ op' ∈ [op], op'.MergesTop := fun op' h' => List.mem_singleton.mp h' ▸ htop
  have hcalls := hx.calls (t := y) hpe hops htops
  rw [HTram.run_singleton, List.map_singleton, List.sum_singleton] at hcalls
  exact hcalls hsettle

theorem call_within (hs : s.Within cfg agg combining n) {pe : ℕ} {op : Op α F}
    (hops : (s.tram pe).Orderly cfg [op]) (htop : op.MergesTop)
    (h : s.onSys (s.sys.step cfg (.call pe op)) = some t) :
    ∃ n', t.Within cfg agg combining n' ∧ n' ≤ n + op.news * (System.price cfg + round cfg) := by
  obtain ⟨sys, hsys, rfl⟩ := Option.map_eq_some_iff.mp h
  obtain ⟨hy, hload, hempty⟩ := call_exact hs.exact hops htop hsys
  exact hs.works (c := 0) hy hload hempty

/-- A PE is flushed in the round. -/
theorem tflush_within (hs : s.Within cfg agg combining n) {k pe : ℕ}
    (hk : s.pending[k]? = some (.tflush pe)) (hops : (s.tram pe).Orderly cfg [.tflush false])
    (h : step cfg s (.control k) = some t) : ∃ n', t.Within cfg agg combining n' ∧ n' + 1 ≤ n := by
  obtain ⟨c, hc, h⟩ := Option.bind_eq_some_iff.mp h
  cases hk.symm.trans hc
  obtain ⟨sys, hsys, rfl⟩ := Option.map_eq_some_iff.mp h
  obtain ⟨hy, hload, hempty⟩ := call_exact hs.exact hops trivial hsys
  have hload : sys.load cfg ≤ s.sys.load cfg := by
    rwa [show (Op.tflush false : Op α F).news = 0 from rfl, Nat.zero_mul, Nat.add_zero] at hload
  have hflushed : (sys.node pe).tram.Empty cfg := by
    obtain ⟨q, hq, hqe⟩ := (hs.exact.tram pe).flushed hops.safe.1
    obtain ⟨hpe, hsettle⟩ := System.step_call hsys
    obtain ⟨hran, -, -⟩ := settle_trams hsettle
    cases hq.symm.trans hran
    exact hqe
  obtain ⟨r, hstage, hleft⟩ := hs.left
  obtain ⟨harmed, hcounts, hpending, r', hr, hstage'⟩ := hstage.tflush hk
  refine ⟨n - 1, ⟨hy, r', hstage', ?_⟩, by omega⟩
  dsimp only
  refine hleft.imp (fun hclean => ⟨?_, by omega⟩) (by omega)
  refine .of_flushing (fun c hc => hpending c (List.mem_of_mem_eraseIdx hc)) hcounts
    fun i hi => ?_
  by_cases hie : i = pe
  · subst hie
    exact .inl hflushed
  · refine (hclean.1.flushed harmed i hi).imp (hempty rfl i) fun hmem => ?_
    obtain ⟨j, hj, hget⟩ := List.mem_iff_getElem.mp hmem
    refine List.mem_eraseIdx_iff_getElem.mpr ⟨j, hj, ?_, hget⟩
    rintro rfl
    rw [List.getElem?_eq_getElem hj, hget, Option.some.injEq, Control.tflush.injEq] at hk
    exact hie hk

/-- A PE is counted. -/
theorem countBuffers_within (hs : s.Within cfg agg combining n) {k pe : ℕ}
    (hk : s.pending[k]? = some (.countBuffers pe)) (h : step cfg s (.control k) = some t) :
    ∃ n', t.Within cfg agg combining n' ∧ n' + 1 ≤ n := by
  obtain ⟨c, hc, h⟩ := Option.bind_eq_some_iff.mp h
  cases hk.symm.trans hc
  have ht : t = contribute cfg ((s.tram pe).countBuffers cfg)
      { s with pending := s.pending.eraseIdx k } := (Option.some.inj h).symm
  subst ht
  obtain ⟨r, hstage, hleft⟩ := hs.left
  obtain ⟨hrequested, harmed, pes, hpending, hall, hr⟩ := hstage.countBuffers hk
  have hcount : s.Clean cfg → (s.tram pe).countBuffers cfg = 0 := fun hclean =>
    (hs.exact.tram pe).count_of_empty (hclean.uncounted pe (List.mem_of_getElem? hk))
  have hzero : s.Clean cfg → ∀ c ∈ s.counts ++ [(s.tram pe).countBuffers cfg], c = 0 := by
    intro hclean c hc
    rcases List.mem_append.mp hc with hc | hc
    · exact hclean.counts c hc
    · rw [List.mem_singleton.mp hc, hcount hclean]
  have hmem : ∀ c ∈ s.pending.eraseIdx k, ∃ i, c = .countBuffers i := by
    intro c hc
    rw [hpending] at hc
    obtain ⟨i, -, rfl⟩ := List.mem_map.mp hc
    exact ⟨i, rfl⟩
  have hlen : (s.counts ++ [(s.tram pe).countBuffers cfg]).length = s.counts.length + 1 := by
    rw [List.length_append, List.length_singleton]
  unfold contribute
  dsimp only
  split_ifs with hlast
  · have hpes : pes = [] := List.length_eq_zero_iff.mp (by omega)
    have hnil : s.pending.eraseIdx k = [] := by rw [hpending, hpes, List.map_nil]
    refine ⟨n - 1, ⟨hs.exact, 1, ?_, ?_⟩, by omega⟩
    · dsimp only
      rw [hnil, hrequested, harmed, List.nil_append]
      exact .totalled _
    · dsimp only
      refine hleft.imp (fun hclean => ⟨⟨fun h => ?_, fun c hc => ?_, fun i hi => ?_,
        fun total htotal => ?_⟩, by omega⟩) (by omega)
      · exact absurd (harmed.symm.trans h) (by simp)
      · cases hc
      · dsimp only at hi
        rw [hnil, List.nil_append, List.mem_singleton] at hi
        cases hi
      · dsimp only at htotal
        rw [hnil, List.nil_append, List.mem_singleton, Control.onBufferCount.injEq] at htotal
        rw [htotal]
        exact List.sum_eq_zero (hzero hclean.1)
  · have hpes : pes ≠ [] := by
      rintro rfl
      rw [List.length_nil] at hall
      omega
    refine ⟨n - 1, ⟨hs.exact, pes.length + 1, ?_, ?_⟩, by omega⟩
    · dsimp only
      rw [hrequested, harmed, hpending]
      exact .counting pes _ hpes (by omega)
    · dsimp only
      refine hleft.imp (fun hclean => ⟨⟨fun h => ?_, hzero hclean.1, fun i hi => ?_,
        fun total htotal => ?_⟩, by omega⟩) (by omega)
      · exact absurd (harmed.symm.trans h) (by simp)
      · exact hclean.1.uncounted i (List.mem_of_mem_eraseIdx hi)
      · obtain ⟨i, hi⟩ := hmem _ htotal
        cases hi

theorem control_within (hs : s.Within cfg agg combining n) {k : ℕ} (he : s.Counts cfg (.control k))
    (h : step cfg s (.control k) = some t) : ∃ n', t.Within cfg agg combining n' ∧ n' + 1 ≤ n := by
  obtain ⟨c, hk, hhandle⟩ := Option.bind_eq_some_iff.mp h
  obtain ⟨r, hstage, hleft⟩ := hs.left
  cases c with
  | tflush pe => exact tflush_within hs hk (he pe hk) h
  | countBuffers pe => exact countBuffers_within hs hk h
  | onQD =>
    cases hhandle
    obtain ⟨hrequested, -, hcounts, hnil, hr⟩ := hstage.onQD hk
    refine ⟨n - 1, ⟨hs.exact, 2 * cfg.numPes + 2, ?_, .inl ⟨.of_flushing ?_ hcounts ?_, ?_⟩⟩, ?_⟩
    · dsimp only
      rw [hnil, hrequested, hcounts, List.nil_append]
      have hflushing := Stage.flushing (n := cfg.numPes) (List.range cfg.numPes)
        fun i hi => List.mem_range.mp hi
      rw [List.length_range] at hflushing
      rwa [Nat.two_mul]
    · dsimp only
      rw [hnil, List.nil_append]
      intro c hc
      obtain ⟨i, -, rfl⟩ := List.mem_map.mp hc
      exact ⟨i, rfl⟩
    · dsimp only
      rw [hnil, List.nil_append]
      exact fun i hi => .inr (List.mem_map_of_mem (List.mem_range.mpr hi))
    · dsimp only
      omega
    · omega
  | onBufferCount total =>
    obtain ⟨hrequested, harmed, hcounts, hnil, hr⟩ := hstage.onBufferCount hk
    rw [handle] at hhandle
    split_ifs at hhandle with h0
    · cases hhandle
      refine ⟨n - 1, ⟨hs.exact, 0, ?_, .inl ⟨.of_asked ?_ hcounts ?_, ?_⟩⟩, ?_⟩
      · dsimp only
        rw [hnil, harmed, hcounts]
        exact .asleep
      · dsimp only
        rw [harmed]
        simp
      · dsimp only
        rw [hnil]
        exact fun c hc => absurd hc List.not_mem_nil
      · dsimp only
        omega
      · omega
    · cases hhandle
      have hdirty : s.sys.load cfg + r + round cfg ≤ n :=
        hleft.resolve_left fun hclean => h0 (hclean.1.total total (List.mem_of_getElem? hk))
      refine ⟨n - 1, ⟨hs.exact, 2 * cfg.numPes + 4, ?_, .inl ⟨.of_asked ?_ hcounts ?_, ?_⟩⟩, ?_⟩
      · dsimp only
        rw [hnil, hrequested, hcounts]
        exact .asked
      · dsimp only
        simp
      · dsimp only
        rw [hnil]
        exact fun c hc => absurd hc List.not_mem_nil
      · unfold round at hdirty
        dsimp only
        omega
      · omega

theorem detect_within (hpes : 0 < cfg.numPes) (hs : s.Within cfg agg combining n)
    (h : step cfg s .detect = some t) : ∃ n', t.Within cfg agg combining n' ∧ n' + 1 ≤ n := by
  rw [step] at h
  split_ifs at h with hnone
  obtain ⟨det, hdet, rfl⟩ := Option.map_eq_some_iff.mp h
  have hpending := List.isEmpty_iff.mp hnone.2
  obtain ⟨r, hstage, hleft⟩ := hs.left
  rw [hdet] at hstage
  obtain ⟨hrequested, hcounts, hasked, hflushing⟩ := hstage.detect hpending
  cases det with
  | onQD =>
    have hr := hasked rfl
    refine ⟨n - 1, ⟨hs.exact, 2 * cfg.numPes + 3, ?_, .inl ⟨.of_asked ?_ hcounts ?_, ?_⟩⟩, ?_⟩
    · dsimp only [detected]
      rw [hrequested, hcounts]
      exact .begun
    · dsimp only [detected]
      simp
    · exact fun c hc => List.mem_singleton.mp hc
    · dsimp only [detected]
      omega
    · omega
  | countBuffers =>
    have hr := hflushing rfl
    have hmem : ∀ c ∈ (List.range cfg.numPes).map Control.countBuffers,
        ∃ i < cfg.numPes, c = .countBuffers i := by
      intro c hc
      obtain ⟨i, hi, rfl⟩ := List.mem_map.mp hc
      exact ⟨i, List.mem_range.mp hi, rfl⟩
    refine ⟨n - 1, ⟨hs.exact, cfg.numPes + 1, ?_, ?_⟩, by omega⟩
    · dsimp only [detected]
      rw [hrequested, hcounts]
      have hcounting := Stage.counting (n := cfg.numPes) (List.range cfg.numPes) []
        (by rwa [ne_eq, List.range_eq_nil, ← ne_eq, ← Nat.pos_iff_ne_zero])
        (by rw [List.length_range, List.length_nil, Nat.zero_add])
      rwa [List.length_range] at hcounting
    · dsimp only [detected]
      refine hleft.imp (fun hclean => ⟨⟨by simp, hclean.1.counts, fun i hi => ?_,
        fun total htotal => ?_⟩, by omega⟩) (by omega)
      · obtain ⟨j, hj, heq⟩ := hmem _ hi
        cases heq
        refine (hclean.1.flushed hdet i hj).resolve_right fun hflush => ?_
        rw [hpending] at hflush
        cases hflush
      · obtain ⟨i, -, hi⟩ := hmem _ htotal
        cases hi

theorem step_within (hpes : 0 < cfg.numPes) {e : Event α F} (he : s.Counts cfg e)
    (hs : s.Within cfg agg combining n) (h : step cfg s e = some t) :
    ∃ n', t.Within cfg agg combining n' ∧ n' + e.cost ≤ n + e.credit cfg := by
  cases e with
  | call pe op =>
    rw [step] at h
    split_ifs at h
    exact call_within hs he.1 he.2 h
  | periodicTflush pe =>
    obtain ⟨n', ht, hn⟩ := call_within hs he trivial h
    exact ⟨n', ht, by simpa [Op.news, Event.cost, Event.credit] using hn⟩
  | deliver k skip calls => exact deliver_within hs he h
  | htramQuiesce =>
    rw [step] at h
    split_ifs at h with hrequested
    cases h
    obtain ⟨r, hstage, hleft⟩ := hs.left
    rw [Bool.eq_false_of_not_eq_true hrequested] at hstage
    obtain ⟨hpending, hcounts⟩ := hstage.idle
    refine ⟨n + round cfg, ⟨hs.exact, 2 * cfg.numPes + 4, ?_,
      .inl ⟨.of_asked ?_ hcounts ?_, ?_⟩⟩, le_rfl⟩
    · dsimp only
      rw [hpending, hcounts]
      exact .asked
    · dsimp only
      simp
    · dsimp only
      rw [hpending]
      exact fun c hc => absurd hc List.not_mem_nil
    · unfold round at hleft ⊢
      dsimp only
      omega
  | detect => exact detect_within hpes hs h
  | control k => exact control_within hs he h

/-! ## Answers -/

/-- Something can happen without the client while `quiesce_cb` is owed. -/
theorem goes_on (hs : s.Within cfg agg combining n) (hrequested : s.requested = true)
    (hsafe : ∀ pe, .tflush pe ∈ s.pending → (s.tram pe).StampsSafe cfg (.tflush false)) :
    ∃ e : Event α F, e.Own ∧ ∃ t, step cfg s e = some t := by
  by_cases hflight : s.sys.flight = []
  · obtain ⟨r, hstage, -⟩ := hs.left
    rw [hrequested] at hstage
    rcases hstage.busy with ⟨hpending, det, harmed⟩ | ⟨c, hk, hpe⟩
    · refine ⟨.detect, trivial, s.detected cfg det, ?_⟩
      rw [step, hflight, hpending, harmed]
      rfl
    · refine ⟨.control 0, trivial, ?_⟩
      rw [step, hk, Option.bind_some]
      cases c with
      | onQD => exact ⟨_, rfl⟩
      | countBuffers pe => exact ⟨_, rfl⟩
      | onBufferCount total =>
        rw [handle]
        split_ifs
        · exact ⟨_, rfl⟩
        · exact ⟨_, rfl⟩
      | tflush pe =>
        obtain ⟨q, hq, -⟩ := (hs.exact.tram pe).flushed (hsafe pe (List.mem_of_getElem? hk))
        refine ⟨{ s with pending := s.pending.eraseIdx 0, sys := s.sys.ended cfg pe q }, ?_⟩
        rw [handle, onSys]
        dsimp only
        rw [System.step, if_pos (hpe pe rfl), hq]
        rfl
  · obtain ⟨m, ms, hms⟩ := List.exists_cons_of_ne_nil hflight
    have hm := hs.exact.goes m (by rw [hms]; exact List.mem_cons_self ..)
    obtain ⟨x, hx⟩ := System.arrive_enabled (s := s.sys.take 0) hm true
    have hcalls : ∃ y, callback cfg [] x m.client = some y := by
      cases m.client with
      | none => exact ⟨x, rfl⟩
      | some pe => exact ⟨_, rfl⟩
    obtain ⟨y, hy⟩ := hcalls
    refine ⟨.deliver 0 true [], rfl, { s with sys := y }, ?_⟩
    rw [step, hms, List.getElem?_cons_zero, Option.bind_some, hx, Option.bind_some, hy]
    rfl

/-- An answer is sent for a request, and only then. -/
theorem step_answers (hs : s.Within cfg agg combining n) {e : Event α F}
    (h : step cfg s e = some t) :
    t.callbacks + t.requested.toNat = s.callbacks + s.requested.toNat + e.asks := by
  have hsys : ∀ {u : Quiescence α F} {o : Option (System α F)}, u.onSys o = some t →
      t.callbacks + t.requested.toNat = u.callbacks + u.requested.toNat := by
    intro u o h
    obtain ⟨-, hrest⟩ := onSys_some h
    rw [hrest]
  cases e with
  | call pe op =>
    rw [step] at h
    split_ifs at h
    exact hsys h
  | periodicTflush pe => exact hsys h
  | deliver k skip calls => exact hsys h
  | htramQuiesce =>
    rw [step] at h
    split_ifs at h with hrequested
    cases h
    rw [Bool.eq_false_of_not_eq_true hrequested]
    rfl
  | detect =>
    rw [step] at h
    split_ifs at h
    obtain ⟨det, -, rfl⟩ := Option.map_eq_some_iff.mp h
    cases det
    all_goals rfl
  | control k =>
    obtain ⟨c, hk, h⟩ := Option.bind_eq_some_iff.mp h
    cases c with
    | onQD =>
      cases h
      rfl
    | tflush pe =>
      have hsame := hsys h
      exact hsame
    | countBuffers pe =>
      cases h
      unfold contribute
      dsimp only
      split_ifs
      all_goals rfl
    | onBufferCount total =>
      obtain ⟨r, hstage, -⟩ := hs.left
      have hrequested := (hstage.onBufferCount hk).1
      rw [handle] at h
      split_ifs at h
      · cases h
        rw [hrequested]
        rfl
      · cases h
        rfl

theorem run_answers (hpes : 0 < cfg.numPes) :
    ∀ {es : List (Event α F)} {n : ℕ} {s t : Quiescence α F},
      Along (step cfg) (Counts cfg) es s → s.Within cfg agg combining n →
      run cfg es s = some t →
      t.callbacks + t.requested.toNat =
        s.callbacks + s.requested.toNat + (es.map Event.asks).sum := by
  intro es
  induction es with
  | nil =>
    intro n s t _ _ h
    cases h
    rfl
  | cons e es ih =>
    intro n s t hes hs h
    obtain ⟨u, hu, h⟩ := runs_cons.mp h
    obtain ⟨he, hes⟩ := hes u hu
    obtain ⟨n', hn', -⟩ := step_within hpes he hs hu
    have hfirst := step_answers hs hu
    have hrest := ih hes hn' h
    rw [List.map_cons, List.sum_cons]
    omega

/-! ## Runs -/

/-- Before the request nothing is left to pay for. -/
theorem idle_within (hagg : agg ≠ .WsP) {bufSize : ℕ} (hpos : 0 < bufSize) {sys : System α F}
    (hsys : Opened cfg agg bufSize combining sys) : (idle sys).Within cfg agg combining 0 := by
  have hopened : ∀ i, (sys.node i).tram.Exact cfg ∧ (sys.node i).tram.stored cfg = 0 ∧
      (sys.node i).tram.knobs.agg = agg ∧ (sys.node i).tram.knobs.combining = combining i := by
    intro i
    obtain ⟨pre, hpre, hopened⟩ := hsys.tram i
    exact HTram.opened_exact hagg hpos hpre hopened
  have hflight : (idle sys).sys.flight = [] := hsys.flight
  have hload : (idle sys).sys.load cfg = 0 := by
    unfold System.load
    rw [Net.total_quiet hflight]
    refine Finset.sum_eq_zero fun i _ => ?_
    rw [show ((idle sys).sys.node i).tram.stored cfg = 0 from (hopened i).2.1, Nat.zero_mul]
  refine ⟨⟨fun i => (hopened i).1, fun i => (hopened i).2.2, fun m hm => ?_⟩, 0, .asleep,
    .inl ⟨.of_asked (by simp [idle]) rfl fun c hc => absurd hc List.not_mem_nil, hload.le⟩⟩
  rw [hflight] at hm
  cases hm

/-- The arrivals and the steps of the protocol are no more than the calls bring in. Every request
    has been answered once or is the one that is owed an answer, and then some event can take place
    without the client, unless a flush of the round meets a reference about to be taken for
    current. -/
structure Fires (cfg : Config α) (es : List (Event α F)) (s : Quiescence α F) : Prop where
  bounded : (es.map Event.cost).sum ≤ (es.map (Event.credit cfg)).sum
  answered : s.callbacks + s.requested.toNat = (es.map Event.asks).sum
  goes_on : s.requested = true →
    (∀ pe, .tflush pe ∈ s.pending → (s.tram pe).StampsSafe cfg (.tflush false)) →
      ∃ e : Event α F, e.Own ∧ ∃ t, step cfg s e = some t

theorem run_fires (hagg : agg ≠ .WsP) (hpes : 0 < cfg.numPes) {bufSize : ℕ} (hpos : 0 < bufSize)
    {sys : System α F} (hsys : Opened cfg agg bufSize combining sys) {es : List (Event α F)}
    (hes : Along (step cfg) (Counts cfg) es (idle sys)) (hrun : run cfg es (idle sys) = some s) :
    Fires cfg es s := by
  have hidle := idle_within hagg hpos hsys
  obtain ⟨n', hs, hpaid⟩ := runs_credit (I := fun n u => Within cfg agg combining n u)
    (fun _ _ _ _ he hu hstep => step_within hpes he hu hstep) hes hidle hrun
  have hanswers := run_answers hpes hes hidle hrun
  refine ⟨?_, ?_, fun hrequested hsafe => goes_on hs hrequested hsafe⟩
  · exact (Nat.le_add_left ..).trans (hpaid.trans (Nat.zero_add _).le)
  · rw [hanswers]
    exact Nat.zero_add _

/-- The calls of the client do not coarsen with `keep_top`. -/
def Event.Merges : Event α F → Prop
  | .call _ op => op.MergesTop
  | .deliver _ _ calls => ∀ op ∈ calls, op.MergesTop
  | _ => True

theorem Within.orderly (hs : s.Within cfg agg (fun _ => false) n) (pe : ℕ)
    {ops : List (Op α F)} (hops : ∀ op ∈ ops, op.Plain cfg agg) :
    (s.tram pe).Orderly cfg ops := by
  obtain ⟨hagg, hoff⟩ := hs.exact.mode pe
  have hrange : ∀ op ∈ ops, op.InRange cfg (s.tram pe).knobs.agg (s.tram pe).knobs.combining := by
    intro op hop
    unfold tram
    rw [hagg, hoff]
    exact (hops op hop).2.1
  exact ⟨fun op hop => (hops op hop).1, hrange, fun op hop => (hops op hop).2.2,
    HTram.safeRun_off ops _ (hs.exact.tram pe).toSteady hoff hrange⟩

/-- With combining off the calls of every run are orderly. -/
theorem plain_along (hagg : agg ≠ .WsP) (hpes : 0 < cfg.numPes) {bufSize : ℕ} (hpos : 0 < bufSize)
    {sys : System α F} (hsys : Opened cfg agg bufSize (fun _ => false) sys)
    {es : List (Event α F)} (hes : ∀ e ∈ es, e.Plain cfg agg ∧ e.Merges) :
    Along (step cfg) (Counts cfg) es (idle sys) := by
  have hflush : ∀ op ∈ [(Op.tflush false : Op α F)], op.Plain cfg agg := by
    intro op hop
    rw [List.mem_singleton.mp hop]
    exact ⟨trivial, trivial, .inl trivial⟩
  refine along_of_inv (I := fun u => ∃ n, Within cfg agg (fun _ => false) n u) ?_ hes
    ⟨0, idle_within hagg hpos hsys⟩
  rintro u e v ⟨hplain, hmerges⟩ ⟨n, hu⟩ hstep
  have hcounts : u.Counts cfg e := by
    cases e with
    | call pe op =>
      refine ⟨hu.orderly pe fun op' hop' => ?_, hmerges⟩
      rw [List.mem_singleton.mp hop']
      exact hplain
    | periodicTflush pe => exact hu.orderly pe hflush
    | deliver k skip calls => exact fun m _ pe _ => ⟨hu.orderly pe hplain, hmerges⟩
    | control k => exact fun pe _ => hu.orderly pe hflush
    | htramQuiesce | detect => trivial
  obtain ⟨n', hn', -⟩ := step_within hpes hcounts hu hstep
  exact ⟨hcounts, n', hn'⟩

/-- The second round of `recounted` answers the request. -/
theorem run_fires_recounted : ∃ s : Quiescence KeyValue ℚ,
    run System.fourPes (recounted ++ [.control 0]) (idle (System.start .WPs 4)) = some s ∧
      s.callbacks = 1 ∧ Fires System.fourPes (recounted ++ [.control 0]) s := by
  obtain ⟨s, hs, hafter⟩ := of_check (P := fun s : Quiescence KeyValue ℚ => s.callbacks = 1)
    (o := run System.fourPes (recounted ++ [.control 0]) (idle (System.start .WPs 4)))
    (by decide +kernel)
  have hplain : ∀ e ∈ recounted ++ [.control 0], e.Plain System.fourPes .WPs ∧ e.Merges := by
    simp [recounted, answered, Event.Plain, Event.Merges, Op.Plain, Op.Deferred, Op.InRange,
      Op.MergesTop, System.fourPes]
  have hopened : Opened System.fourPes .WPs 4 (fun _ => false)
      (System.start .WPs 4 : System KeyValue ℚ) := start_opened .WPs 4
  exact ⟨s, hs, hafter, run_fires (by decide) (by decide) (by decide) hopened
    (plain_along (by decide) (by decide) (by decide) hopened hplain) hs⟩

end Steps

end Quiescence

end Htram
