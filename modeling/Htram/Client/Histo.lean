import Htram.Client.Index
import Htram.System.Scanned

/-!
# The histogram of `histo.C`

Every PE draws indices, and `generateUpdates` sends each to the PE that has its entry, which counts
it. When all is quiet `generateUpdatesVerify` takes every update back, by a message of its own, and
when all is quiet again each PE counts the entries that are not zero.

* `Histo.step_traced`: what the library has been called with, and what the entries hold.
* `Histo.run_verified`: the histogram is right, and no run finds an error.
-/

namespace Htram

open Network

/-- The parameters of a run, and what `rand()` returns, PE by PE. -/
structure Histo.Setup where
  lNumUps : ℕ
  lnumCounts : ℕ
  rand : ℕ → ℕ → ℕ

/-- The element of `Updater` on a PE: the entries it has, how far `generateUpdates` and
    `generateUpdatesVerify` have come, and whether the first has returned. -/
structure Histo.Updater where
  counts : ℕ → ℤ
  next : ℕ
  flushed : Bool
  verified : ℕ

/-- What the main chare waits for. -/
inductive Histo.Phase
  | updates
  | verification
  | checked
  deriving DecidableEq

/-- The library, the updaters with the messages `insertData2` in flight, and the phase. -/
structure Histo (F : Type*) where
  tram : SortedSystem ℕ F
  updaters : Net Histo.Updater (ℕ × ℕ)
  phase : Histo.Phase

/-- A turn of `generateUpdates` or `generateUpdatesVerify` (both yield), a periodic flush, the
    arrival of message `k` of the library or of `insertData2`, or quiescence. -/
inductive Histo.Event
  | generateUpdates (pe : ℕ)
  | periodicTflush (pe : ℕ)
  | deliver (k : ℕ)
  | generateUpdatesVerify (pe : ℕ)
  | insertData2 (k : ℕ)
  | startVerificationPhase
  | checkErrors

namespace Histo

variable {F : Type*}

/-- `index[i]`: `rand() % num_counts`. -/
def Setup.index (cfg : Config ℕ) (p : Setup) (pe i : ℕ) : ℕ :=
  Client.indx cfg.numPes p.lnumCounts (p.rand pe i)

/-- The table is not empty, and an `int` holds the number of its entries. -/
def Setup.Fits (cfg : Config ℕ) (p : Setup) : Prop := Client.Fits cfg.numPes p.lnumCounts

/-- The PE and the entry of update `i`. -/
def Setup.target (cfg : Config ℕ) (p : Setup) (pe i : ℕ) : ℕ × ℕ :=
  (Client.pe cfg.numPes (p.index cfg pe i), Client.col cfg.numPes (p.index cfg pe i))

/-- `insertData`: `counts[key]++`. -/
def Updater.insertData (u : Updater) (key : ℕ) : Updater :=
  { u with counts := Function.update u.counts key (u.counts key + 1) }

/-- `insertData2`: `counts[key]--`. -/
def Updater.insertData2 (u : Updater) (key : ℕ) : Updater :=
  { u with counts := Function.update u.counts key (u.counts key - 1) }

/-- `insertDataArrCaller`. -/
def Updater.insertDataArrCaller (u : Updater) (keys : List ℕ) : Updater :=
  keys.foldl Updater.insertData u

/-- `checkErrors`: the number of entries that are not zero. -/
def Updater.checkErrors (p : Setup) (u : Updater) : ℕ :=
  (List.range p.lnumCounts).countP fun i => decide (u.counts i ≠ 0)

/-- What `reportErrors` gets: the sum over all PEs. -/
def reportErrors (cfg : Config ℕ) (p : Setup) (s : Histo F) : ℕ :=
  ∑ pe ∈ Finset.range cfg.numPes, (s.updaters.node pe).checkErrors p

/-- The client's part when a message of the library arrives. -/
def received (us : Net Updater (ℕ × ℕ)) : SortedPacket ℕ → Net Updater (ℕ × ℕ)
  | .buffer .. => us
  | .slice pe msg => us.set pe ((us.node pe).insertDataArrCaller (msg.receivePerPE pe))

/-- Nothing is in flight. -/
def Quiet (s : Histo F) : Prop := s.tram.flight.length = 0 ∧ s.updaters.flight.length = 0

instance (s : Histo F) : Decidable s.Quiet := inferInstanceAs (Decidable (_ ∧ _))

variable [ReleaseArith F]

/-- All PEs when `preGenerateUpdates` has returned everywhere. -/
def start (bufSize : ℕ) : Histo F :=
  ⟨SortedSystem.start bufSize, ⟨fun _ => ⟨fun _ => 0, 0, false, 0⟩, []⟩, .updates⟩

/-- The constructors: `rand() % num_counts` divides by zero if `num_counts` is 0. -/
def construct (cfg : Config ℕ) (p : Setup) (bufSize : ℕ) : Option (Histo F) :=
  if 0 < cfg.numPes ∧ 0 < p.lNumUps ∧ Client.tabSiz cfg.numPes p.lnumCounts = 0 then none
  else some (start bufSize)

/-- One event. Quiescence is detected when nothing is in flight and no entry method runs. -/
def step (cfg : Config ℕ) (p : Setup) (s : Histo F) : Event → Option (Histo F)
  | .generateUpdates pe =>
    let u := s.updaters.node pe
    if s.phase = .updates ∧ u.flushed = false then
      if u.next < p.lNumUps then
        let (destPe, key) := p.target cfg pe u.next
        (s.tram.step cfg (.call pe (.insertValue key destPe))).map fun tram =>
          { s with tram, updaters := s.updaters.set pe { u with next := u.next + 1 } }
      else
        (s.tram.step cfg (.call pe (.tflush false))).map fun tram =>
          { s with tram, updaters := s.updaters.set pe { u with flushed := true } }
    else none
  | .periodicTflush pe =>
    (s.tram.step cfg (.call pe (.tflush false))).map fun tram => { s with tram }
  | .deliver k =>
    s.tram.flight[k]?.bind fun m =>
      (s.tram.step cfg (.deliver k)).map fun tram =>
        { s with tram, updaters := received s.updaters m }
  | .generateUpdatesVerify pe =>
    let u := s.updaters.node pe
    if s.phase = .verification ∧ pe < cfg.numPes ∧ u.verified < p.lNumUps then
      some { s with
        updaters := (s.updaters.set pe { u with verified := u.verified + 1 }).emit
          [p.target cfg pe u.verified] }
    else none
  | .insertData2 k =>
    s.updaters.flight[k]?.map fun (pe, key) =>
      { s with
        updaters := (s.updaters.take k).set pe ((s.updaters.node pe).insertData2 key) }
  | .startVerificationPhase =>
    if s.phase = .updates ∧ s.Quiet ∧ ∀ pe < cfg.numPes, (s.updaters.node pe).flushed = true then
      some { s with phase := .verification }
    else none
  | .checkErrors =>
    if s.phase = .verification ∧ s.Quiet ∧
        ∀ pe < cfg.numPes, (s.updaters.node pe).verified = p.lNumUps then
      some { s with phase := .checked }
    else none

/-- A run of events. -/
def run (cfg : Config ℕ) (p : Setup) : List Event → Histo F → Option (Histo F) :=
  runs (step cfg p)

/-! ## Entries -/

namespace Updater

variable (u : Updater) (key : ℕ)

theorem insertDataArrCaller_counts (keys : List ℕ) :
    (u.insertDataArrCaller keys).counts key = u.counts key + keys.count key := by
  unfold insertDataArrCaller
  induction keys generalizing u with
  | nil => simp
  | cons k keys ih =>
    rw [List.foldl_cons, ih, List.count_cons]
    unfold insertData
    dsimp only
    by_cases hk : k = key
    · subst hk
      rw [Function.update_self, if_pos (beq_self_eq_true k)]
      push_cast
      omega
    · rw [Function.update_of_ne (Ne.symm hk), if_neg (by simpa using hk), add_zero]

/-- Nothing but the entries changes. -/
theorem insertDataArrCaller_same (keys : List ℕ) :
    (u.insertDataArrCaller keys).next = u.next ∧
      (u.insertDataArrCaller keys).flushed = u.flushed ∧
      (u.insertDataArrCaller keys).verified = u.verified := by
  unfold insertDataArrCaller
  induction keys generalizing u with
  | nil => exact ⟨rfl, rfl, rfl⟩
  | cons k keys ih => exact ih (u.insertData k)

theorem insertData2_counts (k : ℕ) :
    (u.insertData2 k).counts key + (if key = k then 1 else 0) = u.counts key := by
  unfold insertData2
  dsimp only
  by_cases hk : key = k
  · subst hk
    rw [Function.update_self, if_pos rfl, sub_add_cancel]
  · rw [Function.update_of_ne hk, if_neg hk, add_zero]

end Updater

/-- An updater counts what it is handed. -/
theorem received_node (us : Net Updater (ℕ × ℕ)) (m : SortedPacket ℕ) (i : ℕ) :
    (received us m).node i = (us.node i).insertDataArrCaller
      (((SortedSystem.handedBy m).filter fun x => x.1 = i).map Prod.snd) := by
  cases m with
  | buffer d x => rfl
  | slice pe msg =>
    rw [SortedSystem.handedBy_slice]
    by_cases hi : i = pe
    · subst hi
      rw [if_pos rfl]
      exact Net.set_node_self ..
    · rw [if_neg (Ne.symm hi)]
      exact Net.set_node_of_ne us hi _

/-! ## Updates -/

/-- The first `n q` updates of each PE `q`. -/
def Setup.updates (cfg : Config ℕ) (p : Setup) (n : ℕ → ℕ) : Multiset (ℕ × ℕ) :=
  ∑ q ∈ Finset.range cfg.numPes, ((List.range (n q)).map (p.target cfg q) : List (ℕ × ℕ))

/-- One more update of PE `pe`. -/
theorem Setup.updates_succ {cfg : Config ℕ} {p : Setup} {n n' : ℕ → ℕ} {pe : ℕ}
    (hpe : pe < cfg.numPes) (hn : n' pe = n pe + 1) (hothers : ∀ q ≠ pe, n' q = n q) :
    p.updates cfg n' = p.updates cfg n + {p.target cfg pe (n pe)} := by
  have hone : ((List.range (n' pe)).map (p.target cfg pe) : Multiset (ℕ × ℕ)) =
      ((List.range (n pe)).map (p.target cfg pe) : List (ℕ × ℕ)) + {p.target cfg pe (n pe)} := by
    rw [hn, List.range_succ, List.map_append, ← Multiset.coe_add]
    rfl
  have hsum := Rows.sum_of_ne
    (f := fun q => ((List.range (n' q)).map (p.target cfg q) : Multiset (ℕ × ℕ)))
    (g := fun q => ((List.range (n q)).map (p.target cfg q) : Multiset (ℕ × ℕ))) hpe
    fun q hq => by rw [hothers q hq]
  rw [hone, ← add_assoc, add_right_comm] at hsum
  exact add_right_cancel hsum

theorem Setup.updates_congr {cfg : Config ℕ} {p : Setup} {n n' : ℕ → ℕ}
    (h : ∀ q < cfg.numPes, n' q = n q) : p.updates cfg n' = p.updates cfg n := by
  refine Finset.sum_congr rfl fun q hq => ?_
  rw [h q (Finset.mem_range.mp hq)]

/-! ## One event -/

/-- What the library was called with, what is inserted and taken back, and what the entries hold. -/
structure Traced (cfg : Config ℕ) (p : Setup) (bufSize : ℕ)
    (es : List (SortedEvent ℕ F)) (s : Histo F) : Prop where
  run : SortedSystem.run cfg es (SortedSystem.start bufSize) = some s.tram
  calls : ∀ e ∈ es, e.SourceSorts cfg
  inserted : SortedSystem.inserted es = p.updates cfg fun q => (s.updaters.node q).next
  bounds : ∀ q < cfg.numPes, (s.updaters.node q).next ≤ p.lNumUps ∧
    (s.updaters.node q).verified ≤ p.lNumUps
  flushed : ∀ q < cfg.numPes, (s.updaters.node q).flushed = true →
    (s.updaters.node q).next = p.lNumUps ∧ q ∈ SortedSystem.flushed es
  counts : ∀ q < cfg.numPes, ∀ key, (s.updaters.node q).counts key +
      ((p.updates cfg fun q => (s.updaters.node q).verified).count (q, key) : ℤ) =
    (s.tram.node q).delivered.count key +
      ((s.updaters.flight : Multiset (ℕ × ℕ)).count (q, key) : ℤ)
  taken : (s.updaters.flight : Multiset (ℕ × ℕ)) ≤
    p.updates cfg fun q => (s.updaters.node q).verified
  full : s.phase ≠ .updates → ∀ q < cfg.numPes, (s.updaters.node q).flushed = true ∧
    ((s.tram.node q).delivered : Multiset ℕ) =
      SortedSystem.forPe q (p.updates cfg fun _ => p.lNumUps)
  checked : s.phase = .checked →
    s.updaters.flight = [] ∧ ∀ q < cfg.numPes, (s.updaters.node q).verified = p.lNumUps

variable {cfg : Config ℕ} {p : Setup} {bufSize : ℕ} {es : List (SortedEvent ℕ F)}
  {s t : Histo F}

theorem Traced.sound (hs : Traced cfg p bufSize es s) : s.tram.Sound cfg := by
  have hstart : (SortedSystem.start bufSize : SortedSystem ℕ F).Emptied cfg Set.univ :=
    fun pe _ _ => SortedSystem.start_waiting cfg bufSize pe
  exact (SortedSystem.run_sound hs.calls (SortedSystem.start_sound cfg bufSize) hstart hs.run).1

/-- The library is called once more. -/
theorem Traced.called (hs : Traced cfg p bufSize es s) {e : SortedEvent ℕ F}
    (he : e.SourceSorts cfg) :
    ∀ e' ∈ es ++ [e], e'.SourceSorts cfg := by
  intro e' he'
  rcases List.mem_append.mp he' with h | h
  · exact hs.calls e' h
  · rw [List.mem_singleton.mp h]
    exact he

/-- A call hands nothing over. -/
theorem call_delivered {s t : SortedSystem ℕ F} (hs : s.Sound cfg) {pe : ℕ} {op : Op ℕ F}
    (hop : HTram.SourceSorts cfg op) (hstep : SortedSystem.step cfg s (.call pe op) = some t)
    (q : ℕ) : (t.node q).delivered = (s.node q).delivered := by
  obtain ⟨-, -, hothers, hsame, -⟩ := SortedSystem.call_spec hs hop hstep
  by_cases hq : q = pe
  · rw [hq, hsame]
  · rw [hothers q hq]

/-- An iteration of the loop of `generateUpdates`. -/
theorem Traced.insertValue (hs : Traced cfg p bufSize es s) {pe : ℕ} {tram : SortedSystem ℕ F}
    (hphase : s.phase = .updates) (hflushed : (s.updaters.node pe).flushed = false)
    (hnext : (s.updaters.node pe).next < p.lNumUps) {u : Updater}
    (hu : u = { s.updaters.node pe with next := (s.updaters.node pe).next + 1 })
    (htram : s.tram.step cfg (.call pe (.insertValue (p.target cfg pe (s.updaters.node pe).next).2
      (p.target cfg pe (s.updaters.node pe).next).1)) = some tram) :
    ∃ es', Traced cfg p bufSize es' { s with tram, updaters := s.updaters.set pe u } := by
  have hpe := SortedSystem.call_inside htram
  have hop : HTram.SourceSorts cfg (.insertValue (p.target cfg pe (s.updaters.node pe).next).2
      (p.target cfg pe (s.updaters.node pe).next).1 : Op ℕ F) :=
    Client.pe_lt (Nat.zero_lt_of_lt hpe) _
  have hself := Net.set_node_self s.updaters pe u
  have hothers : ∀ q ≠ pe, (s.updaters.set pe u).node q = s.updaters.node q :=
    fun q hq => Net.set_node_of_ne _ hq _
  have hcounts : ∀ q, ((s.updaters.set pe u).node q).counts = (s.updaters.node q).counts :=
    Net.set_field Updater.counts s.updaters (by rw [hu])
  have hverified : ∀ q, ((s.updaters.set pe u).node q).verified = (s.updaters.node q).verified :=
    Net.set_field Updater.verified s.updaters (by rw [hu])
  refine ⟨_, SortedSystem.run_snoc hs.run htram, hs.called hop, ?_, fun q hq => ?_,
    fun q hq hf => ?_, fun q hq key => ?_, ?_, fun h => absurd hphase h, fun h => ?_⟩
  · rw [SortedSystem.inserted_snoc, hs.inserted]
    symm
    apply Setup.updates_succ hpe
    · rw [hself, hu]
    · intro q hq
      rw [hothers q hq]
  · by_cases hqe : q = pe
    · subst hqe
      rw [hself, hu]
      exact ⟨hnext, (hs.bounds q hq).2⟩
    · rw [hothers q hqe]
      exact hs.bounds q hq
  · by_cases hqe : q = pe
    · rw [hqe, hself, hu] at hf
      exact absurd (hflushed.symm.trans hf) Bool.false_ne_true
    · rw [hothers q hqe] at hf ⊢
      obtain ⟨hdone, hmem⟩ := hs.flushed q hq hf
      rw [SortedSystem.flushed_snoc]
      exact ⟨hdone, hmem, hqe⟩
  · simp only [hcounts, hverified, call_delivered hs.sound hop htram]
    exact hs.counts q hq key
  · simp only [hverified]
    exact hs.taken
  · exact absurd (hphase.symm.trans h) (by simp)

/-- A flush: by the clock, or the one in which `generateUpdates` ends. -/
theorem Traced.tflush (hs : Traced cfg p bufSize es s) {pe : ℕ} {tram : SortedSystem ℕ F}
    {us : Net Updater (ℕ × ℕ)} (hflight : us.flight = s.updaters.flight)
    (hsame : ∀ q, (us.node q).counts = (s.updaters.node q).counts ∧
      (us.node q).next = (s.updaters.node q).next ∧
      (us.node q).verified = (s.updaters.node q).verified)
    (hflushed : ∀ q, (s.updaters.node q).flushed = true → (us.node q).flushed = true)
    (hnew : ∀ q, (us.node q).flushed = true →
      (s.updaters.node q).flushed = true ∨ q = pe ∧ (s.updaters.node q).next = p.lNumUps)
    (htram : s.tram.step cfg (.call pe (.tflush false)) = some tram) :
    ∃ es', Traced cfg p bufSize es' { s with tram, updaters := us } := by
  have hop : HTram.SourceSorts cfg (.tflush false : Op ℕ F) := trivial
  have hcounts := fun q => (hsame q).1
  have hnext := fun q => (hsame q).2.1
  have hverified := fun q => (hsame q).2.2
  refine ⟨_, SortedSystem.run_snoc hs.run htram, hs.called hop, ?_, fun q hq => ?_,
    fun q hq hf => ?_, fun q hq key => ?_, ?_, fun h q hq => ?_, fun h => ?_⟩
  · rw [SortedSystem.inserted_snoc, hs.inserted]
    simp only [hnext]
    exact add_zero _
  · rw [hnext, hverified]
    exact hs.bounds q hq
  · rw [SortedSystem.flushed_snoc, hnext]
    rcases hnew q hf with hold | ⟨rfl, hdone⟩
    · obtain ⟨hdone, hmem⟩ := hs.flushed q hq hold
      exact ⟨hdone, .inr hmem⟩
    · exact ⟨hdone, .inl rfl⟩
  · simp only [hcounts, hverified, hflight, call_delivered hs.sound hop htram]
    exact hs.counts q hq key
  · simp only [hverified, hflight]
    exact hs.taken
  · simp only [call_delivered hs.sound hop htram]
    obtain ⟨hold, hall⟩ := hs.full h q hq
    exact ⟨hflushed q hold, hall⟩
  · simp only [hverified, hflight]
    exact hs.checked h

theorem Traced.deliver (hs : Traced cfg p bufSize es s) {k : ℕ} {m : SortedPacket ℕ}
    {tram : SortedSystem ℕ F} (hk : s.tram.flight[k]? = some m)
    (htram : s.tram.step cfg (.deliver k) = some tram) :
    ∃ es', Traced cfg p bufSize es' { s with tram, updaters := received s.updaters m } := by
  obtain ⟨-, -, m', hk', -, -, hdelivered⟩ := SortedSystem.deliver_spec hs.sound htram
  cases hk.symm.trans hk'
  have hnode := received_node s.updaters m
  have hsame := fun q => (s.updaters.node q).insertDataArrCaller_same
    (((SortedSystem.handedBy m).filter fun x => x.1 = q).map Prod.snd)
  have hflight : (received s.updaters m).flight = s.updaters.flight := by
    cases m
    all_goals rfl
  have hrun := SortedSystem.run_snoc hs.run htram
  have hcalls := hs.called (e := .deliver k) trivial
  have hinserted : SortedSystem.inserted (es ++ [.deliver k]) = SortedSystem.inserted es := by
    rw [SortedSystem.inserted_snoc]
    exact add_zero _
  refine ⟨_, hrun, hcalls, ?_, fun q hq => ?_, fun q hq hf => ?_, fun q hq key => ?_, ?_,
    fun h q hq => ?_, fun h => ?_⟩
  · rw [hinserted, hs.inserted]
    simp only [hnode, hsame]
  · rw [hnode, (hsame q).1, (hsame q).2.2]
    exact hs.bounds q hq
  · rw [hnode, (hsame q).2.1] at hf
    rw [hnode, (hsame q).1, SortedSystem.flushed_snoc]
    exact hs.flushed q hq hf
  · have hold := hs.counts q hq key
    simp only [hnode, hsame, hflight, hdelivered, Updater.insertDataArrCaller_counts,
      List.count_append]
    push_cast
    omega
  · simp only [hnode, hsame, hflight]
    exact hs.taken
  · obtain ⟨hflushed, hall⟩ := hs.full h q hq
    rw [hnode, (hsame q).2.1]
    refine ⟨hflushed, le_antisymm ?_ ?_⟩
    · have hmost := (SortedSystem.run_scanned hcalls hrun).atMostOnce q hq
      rwa [hinserted, hs.inserted, Setup.updates_congr fun i hi =>
        (hs.flushed i hi (hs.full h i hi).1).1] at hmost
    · simp only [hdelivered]
      rw [← hall, ← Multiset.coe_add]
      exact Multiset.le_add_right ..
  · obtain ⟨hnone, hall⟩ := hs.checked h
    simp only [hnode, hsame, hflight]
    exact ⟨hnone, hall⟩

/-- An iteration of the loop of `generateUpdatesVerify`. -/
theorem Traced.sendInsertData2 (hs : Traced cfg p bufSize es s) {pe : ℕ} (hpe : pe < cfg.numPes)
    (hphase : s.phase = .verification) (hmore : (s.updaters.node pe).verified < p.lNumUps)
    {u : Updater}
    (hu : u = { s.updaters.node pe with verified := (s.updaters.node pe).verified + 1 }) :
    Traced cfg p bufSize es { s with
      updaters := (s.updaters.set pe u).emit [p.target cfg pe (s.updaters.node pe).verified] } := by
  have hself := Net.set_node_self s.updaters pe u
  have hothers : ∀ q ≠ pe, (s.updaters.set pe u).node q = s.updaters.node q :=
    fun q hq => Net.set_node_of_ne _ hq _
  have hcounts : ∀ q, ((s.updaters.set pe u).node q).counts = (s.updaters.node q).counts :=
    Net.set_field Updater.counts s.updaters (by rw [hu])
  have hnext : ∀ q, ((s.updaters.set pe u).node q).next = (s.updaters.node q).next :=
    Net.set_field Updater.next s.updaters (by rw [hu])
  have hflushed : ∀ q, ((s.updaters.set pe u).node q).flushed = (s.updaters.node q).flushed :=
    Net.set_field Updater.flushed s.updaters (by rw [hu])
  have hback : (p.updates cfg fun q => ((s.updaters.set pe u).node q).verified) =
      (p.updates cfg fun q => (s.updaters.node q).verified) +
        {p.target cfg pe (s.updaters.node pe).verified} := by
    apply Setup.updates_succ hpe
    · rw [hself, hu]
    · intro q hq
      rw [hothers q hq]
  have hflight : ((s.updaters.flight ++ [p.target cfg pe (s.updaters.node pe).verified] :
      List (ℕ × ℕ)) : Multiset (ℕ × ℕ)) = (s.updaters.flight : Multiset (ℕ × ℕ)) +
        {p.target cfg pe (s.updaters.node pe).verified} := (Multiset.coe_add ..).symm
  refine ⟨hs.run, hs.calls, ?_, fun q hq => ?_, fun q hq hf => ?_, fun q hq key => ?_, ?_,
    fun h q hq => ?_, fun h => ?_⟩
  · simp only [Net.emit_node, hnext]
    exact hs.inserted
  · simp only [Net.emit_node, hnext]
    refine ⟨(hs.bounds q hq).1, ?_⟩
    by_cases hqe : q = pe
    · subst hqe
      rw [hself, hu]
      exact hmore
    · rw [hothers q hqe]
      exact (hs.bounds q hq).2
  · simp only [Net.emit_node, hnext, hflushed] at hf ⊢
    exact hs.flushed q hq hf
  · have hold := hs.counts q hq key
    simp only [Net.emit, Net.set_flight, hcounts, hback, hflight, Multiset.count_add]
    push_cast
    omega
  · simp only [Net.emit, Net.set_flight, hback, hflight]
    exact add_le_add_left hs.taken _
  · simp only [Net.emit_node, hflushed]
    exact hs.full h q hq
  · exact absurd (hphase.symm.trans h) (by simp)

theorem Traced.insertData2 (hs : Traced cfg p bufSize es s) {k pe key : ℕ}
    (hk : s.updaters.flight[k]? = some (pe, key)) :
    Traced cfg p bufSize es { s with
      updaters := (s.updaters.take k).set pe ((s.updaters.node pe).insertData2 key) } := by
  have hperm : (s.updaters.flight : Multiset (ℕ × ℕ)) =
      (pe, key) ::ₘ (s.updaters.flight.eraseIdx k : List (ℕ × ℕ)) := by
    obtain ⟨hlt, hget⟩ := List.getElem?_eq_some_iff.mp hk
    rw [Multiset.cons_coe, ← hget]
    exact Multiset.coe_eq_coe.mpr (List.getElem_cons_eraseIdx_perm hlt).symm
  have hnext : ∀ q, (((s.updaters.take k).set pe ((s.updaters.node pe).insertData2 key)).node
      q).next = (s.updaters.node q).next := Net.set_field Updater.next (s.updaters.take k) rfl
  have hflushed : ∀ q, (((s.updaters.take k).set pe ((s.updaters.node pe).insertData2 key)).node
      q).flushed = (s.updaters.node q).flushed :=
    Net.set_field Updater.flushed (s.updaters.take k) rfl
  have hverified : ∀ q, (((s.updaters.take k).set pe ((s.updaters.node pe).insertData2 key)).node
      q).verified = (s.updaters.node q).verified :=
    Net.set_field Updater.verified (s.updaters.take k) rfl
  have hflight : ((s.updaters.take k).set pe ((s.updaters.node pe).insertData2 key)).flight =
      s.updaters.flight.eraseIdx k := rfl
  refine ⟨hs.run, hs.calls, ?_, fun q hq => ?_, fun q hq hf => ?_, fun q hq key' => ?_, ?_,
    fun h q hq => ?_, fun h => ?_⟩
  · simp only [hnext]
    exact hs.inserted
  · rw [hnext, hverified]
    exact hs.bounds q hq
  · rw [hnext]
    rw [hflushed] at hf
    exact hs.flushed q hq hf
  · have hold := hs.counts q hq key'
    have hentry : (((s.updaters.take k).set pe ((s.updaters.node pe).insertData2 key)).node
        q).counts key' + (if (q, key') = (pe, key) then 1 else 0) =
          (s.updaters.node q).counts key' := by
      by_cases hq : q = pe
      · subst hq
        rw [Net.set_node_self, ← Updater.insertData2_counts (s.updaters.node q) key' key]
        congr 1
        exact if_congr (by simp) rfl rfl
      · rw [Net.set_node_of_ne _ hq, if_neg fun h => hq (congrArg Prod.fst h), add_zero]
        rfl
    rw [hperm, Multiset.count_cons] at hold
    simp only [hverified, hflight]
    push_cast at hold
    omega
  · simp only [hverified, hflight]
    refine le_trans ?_ hs.taken
    rw [hperm]
    exact Multiset.le_cons_self ..
  · rw [hflushed]
    exact hs.full h q hq
  · obtain ⟨hnone, -⟩ := hs.checked h
    rw [hnone] at hk
    cases hk

/-- Nothing is in flight and every PE has flushed after its last update. -/
theorem Traced.startVerificationPhase (hs : Traced cfg p bufSize es s) (hquiet : s.Quiet)
    (hall : ∀ pe < cfg.numPes, (s.updaters.node pe).flushed = true) :
    Traced cfg p bufSize es { s with phase := .verification } := by
  refine { hs with full := fun _ q hq => ⟨hall q hq, ?_⟩, checked := fun h => absurd h (by simp) }
  have hdrained := (SortedSystem.run_scanned hs.calls hs.run).drained
    (List.length_eq_zero_iff.mp hquiet.1) (fun q hq => (hs.flushed q hq (hall q hq)).2) q hq
  rw [hdrained, hs.inserted, Setup.updates_congr fun i hi => (hs.flushed i hi (hall i hi)).1]

theorem Traced.step (hs : Traced cfg p bufSize es s) {e : Event} (hstep : step cfg p s e = some t) :
    ∃ es', Traced cfg p bufSize es' t := by
  cases e with
  | generateUpdates pe =>
    simp only [Histo.step] at hstep
    split_ifs at hstep with hrunning hnext
    · obtain ⟨tram, htram, rfl⟩ := Option.map_eq_some_iff.mp hstep
      exact hs.insertValue hrunning.1 hrunning.2 hnext rfl htram
    · obtain ⟨tram, htram, rfl⟩ := Option.map_eq_some_iff.mp hstep
      have hpe := SortedSystem.call_inside htram
      have hdone := Nat.le_antisymm (hs.bounds pe hpe).1 (not_lt.mp hnext)
      refine hs.tflush rfl (fun q => ⟨?_, ?_, ?_⟩) (fun q hf => ?_) (fun q hf => ?_) htram
      · exact Net.set_field Updater.counts s.updaters (by rfl) q
      · exact Net.set_field Updater.next s.updaters (by rfl) q
      · exact Net.set_field Updater.verified s.updaters (by rfl) q
      · by_cases hq : q = pe
        · rw [hq, Net.set_node_self]
        · rwa [Net.set_node_of_ne _ hq]
      · by_cases hq : q = pe
        · subst hq
          exact .inr ⟨rfl, hdone⟩
        · rw [Net.set_node_of_ne _ hq] at hf
          exact .inl hf
  | periodicTflush pe =>
    obtain ⟨tram, htram, rfl⟩ := Option.map_eq_some_iff.mp hstep
    exact hs.tflush rfl (fun q => ⟨rfl, rfl, rfl⟩) (fun q hf => hf) (fun q hf => .inl hf) htram
  | deliver k =>
    obtain ⟨m, hk, hstep⟩ := Option.bind_eq_some_iff.mp hstep
    obtain ⟨tram, htram, rfl⟩ := Option.map_eq_some_iff.mp hstep
    exact hs.deliver hk htram
  | generateUpdatesVerify pe =>
    simp only [Histo.step] at hstep
    split_ifs at hstep with h
    cases hstep
    exact ⟨es, hs.sendInsertData2 h.2.1 h.1 h.2.2 rfl⟩
  | insertData2 k =>
    obtain ⟨⟨pe, key⟩, hk, rfl⟩ := Option.map_eq_some_iff.mp hstep
    exact ⟨es, hs.insertData2 hk⟩
  | startVerificationPhase =>
    simp only [Histo.step] at hstep
    split_ifs at hstep with h
    cases hstep
    exact ⟨es, hs.startVerificationPhase h.2.1 h.2.2⟩
  | checkErrors =>
    simp only [Histo.step] at hstep
    split_ifs at hstep with h
    cases hstep
    exact ⟨es, { hs with
      full := fun _ => hs.full (by rw [h.1]; simp)
      checked := fun _ => ⟨List.length_eq_zero_iff.mp h.2.1.2, h.2.2⟩ }⟩

/-! ## Runs -/

theorem start_traced (cfg : Config ℕ) (p : Setup) (bufSize : ℕ) :
    Traced cfg p bufSize [] (start bufSize : Histo F) where
  run := rfl
  calls := fun e he => absurd he List.not_mem_nil
  inserted := (Finset.sum_eq_zero fun q _ => rfl).symm
  bounds := fun q _ => ⟨Nat.zero_le _, Nat.zero_le _⟩
  flushed := fun q _ h => absurd h Bool.false_ne_true
  counts := fun q _ key => by
    have hnone : p.updates cfg (fun _ => 0) = 0 := Finset.sum_eq_zero fun q _ => rfl
    show (0 : ℤ) + ((p.updates cfg fun _ => 0).count (q, key) : ℤ) = 0
    rw [hnone]
    rfl
  taken := Multiset.zero_le _
  full := fun h => absurd rfl h
  checked := fun h => absurd h (by simp [start])

theorem run_traced {es : List Event} (hrun : run cfg p es (start bufSize) = some t) :
    ∃ es', Traced cfg p bufSize es' t :=
  runs_inv (I := fun s => ∃ es', Traced cfg p bufSize es' s)
    (fun _ _ _ (_ : True) hs hstep => by
      obtain ⟨es', hs⟩ := hs
      exact hs.step hstep)
    (fun _ _ => trivial) ⟨[], start_traced cfg p bufSize⟩ hrun

theorem Setup.mem_updates {cfg : Config ℕ} {p : Setup} {n : ℕ → ℕ} {x : ℕ × ℕ} :
    x ∈ p.updates cfg n ↔ ∃ q < cfg.numPes, ∃ i < n q, p.target cfg q i = x := by
  unfold Setup.updates
  simp [Multiset.mem_sum]

theorem Setup.target_inside {cfg : Config ℕ} {p : Setup} (hpes : 0 < cfg.numPes)
    (hfits : p.Fits cfg) (q i : ℕ) :
    (p.target cfg q i).1 < cfg.numPes ∧ (p.target cfg q i).2 < p.lnumCounts :=
  ⟨Client.pe_lt hpes _, Client.col_lt (Client.indx_lt hfits hpes _)⟩

/-- The updates of an entry are those with its index. -/
theorem Setup.count_updates {cfg : Config ℕ} {p : Setup} {n : ℕ → ℕ} {pe : ℕ}
    (hpe : pe < cfg.numPes) (hmax : cfg.numPes ≤ 2 ^ 16) (key : ℕ) :
    (p.updates cfg n).count (pe, key) = ∑ q ∈ Finset.range cfg.numPes,
      (List.range (n q)).countP fun i => decide (p.index cfg q i = key * cfg.numPes + pe) := by
  unfold Setup.updates
  rw [Multiset.count_sum']
  refine Finset.sum_congr rfl fun q _ => ?_
  rw [← Multiset.map_coe, Multiset.count_map, ← Multiset.countP_eq_card_filter, Multiset.coe_countP]
  refine List.countP_congr fun i _ => ?_
  rw [decide_eq_true_eq, decide_eq_true_eq]
  unfold Setup.target
  rw [Client.pe_eq (Nat.zero_lt_of_lt hpe) hmax, Client.col_pckindx, Prod.mk.injEq, eq_comm,
    @eq_comm _ key, and_comm, Nat.div_mod_unique (Nat.zero_lt_of_lt hpe)]
  constructor
  · rintro ⟨h, -⟩
    rw [← h, Nat.mul_comm, Nat.add_comm]
  · intro h
    exact ⟨by rw [h, Nat.mul_comm, Nat.add_comm], hpe⟩

theorem Traced.delivered (ht : Traced cfg p bufSize es t) (hphase : t.phase ≠ .updates) {pe : ℕ}
    (hpe : pe < cfg.numPes) (key : ℕ) : (t.tram.node pe).delivered.count key =
      (p.updates cfg fun _ => p.lNumUps).count (pe, key) := by
  rw [← SortedSystem.count_forPe, ← (ht.full hphase pe hpe).2, Multiset.coe_count]

/-- The check finds no error. -/
theorem Traced.no_errors (ht : Traced cfg p bufSize es t) (hphase : t.phase = .checked) :
    reportErrors cfg p t = 0 := by
  obtain ⟨hflight, hback⟩ := ht.checked hphase
  refine Finset.sum_eq_zero fun pe hpe => List.countP_eq_zero.mpr fun key _ => ?_
  have hpe := Finset.mem_range.mp hpe
  have hcounts := ht.counts pe hpe key
  rw [Setup.updates_congr hback, hflight, ht.delivered (by rw [hphase]; simp) hpe] at hcounts
  simpa using hcounts

/-- No constructor divides by zero. -/
theorem construct_eq (hfits : p.Fits cfg) (bufSize : ℕ) :
    construct cfg p bufSize = some (start bufSize : Histo F) := by
  refine if_neg fun ⟨hpes, _, hzero⟩ => ?_
  have hpos := Nat.mul_pos hfits.pos hpes
  rw [Client.tabSiz_eq hfits] at hzero
  omega

/-- The histogram is right when the updates are about to be taken back, no entry outside a table is
    touched, and the check finds no error. -/
structure Verified (cfg : Config ℕ) (p : Setup) (s : Histo F) : Prop where
  histogram : cfg.numPes ≤ 2 ^ 16 → s.phase = .verification →
    (∀ q < cfg.numPes, (s.updaters.node q).verified = 0) → ∀ pe < cfg.numPes, ∀ key,
      (s.updaters.node pe).counts key = ∑ q ∈ Finset.range cfg.numPes, ((List.range
        p.lNumUps).countP fun i => decide (p.index cfg q i = key * cfg.numPes + pe) : ℤ)
  inside : (∀ pe < cfg.numPes, ∀ key ∈ (s.tram.node pe).delivered, key < p.lnumCounts) ∧
    ∀ m ∈ s.updaters.flight, m.1 < cfg.numPes ∧ m.2 < p.lnumCounts
  errors : s.phase = .checked → reportErrors cfg p s = 0

theorem run_verified (hfits : p.Fits cfg) {es : List Event}
    (hs : construct cfg p bufSize = some s) (hrun : run cfg p es s = some t) :
    Verified cfg p t := by
  rw [construct_eq hfits] at hs
  cases hs
  obtain ⟨es', ht⟩ := run_traced hrun
  refine ⟨fun hmax hphase hnone pe hpe key => ?_, ⟨fun pe hpe key hkey => ?_, fun m hm => ?_⟩,
    ht.no_errors⟩
  · have hback : (p.updates cfg fun q => (t.updaters.node q).verified) = 0 := by
      rw [Setup.updates_congr (n := fun _ => 0) hnone]
      exact Finset.sum_eq_zero fun q _ => rfl
    have hflight := ht.taken
    rw [hback, Multiset.le_zero] at hflight
    have hcounts := ht.counts pe hpe key
    rw [hback, hflight, ht.delivered (by rw [hphase]; simp) hpe,
      Setup.count_updates hpe hmax] at hcounts
    push_cast at hcounts ⊢
    simpa using hcounts
  · have hmost := (SortedSystem.run_scanned ht.calls ht.run).atMostOnce pe hpe
    have hmem := Multiset.mem_of_le hmost (Multiset.mem_coe.mpr hkey)
    rw [← Multiset.count_pos, SortedSystem.count_forPe, Multiset.count_pos, ht.inserted] at hmem
    obtain ⟨q, hq, i, -, htarget⟩ := Setup.mem_updates.mp hmem
    have hinside := p.target_inside (Nat.zero_lt_of_lt hpe) hfits q i
    rw [htarget] at hinside
    exact hinside.2
  · obtain ⟨q, hq, i, -, rfl⟩ :=
      Setup.mem_updates.mp (Multiset.mem_of_le ht.taken (Multiset.mem_coe.mpr hm))
    exact p.target_inside (Nat.zero_lt_of_lt hq) hfits q i

/-- Two nodes of one PE, and two updates on each. -/
def twoPes : Config ℕ where
  numNodes := 2
  nodeSize := 1
  histoBucketCount := 8
  maxBufSize := 4
  addFillers := false
  getDestProc := fun _ => 0
  ops := ⟨Nat.toUInt64, fun held incoming => (held, incoming, false)⟩

def fourUpdates : Setup := ⟨2, 2, fun pe i => 2 * i + pe + 1⟩

/-- The PEs update and flush, all arrives, and the updates are taken back. -/
def wholeRun : List Event :=
  List.replicate 3 (.generateUpdates 0) ++ List.replicate 3 (.generateUpdates 1) ++
    List.replicate 4 (.deliver 0) ++ [.startVerificationPhase] ++
    [.generateUpdatesVerify 0, .generateUpdatesVerify 1, .generateUpdatesVerify 1,
      .generateUpdatesVerify 0] ++ List.replicate 4 (.insertData2 0) ++ [.checkErrors]

theorem run_verified_wholeRun : ∃ s t : Histo ℚ, construct twoPes fourUpdates 2 = some s ∧
    run twoPes fourUpdates wholeRun s = some t ∧ t.phase = .checked ∧
      Verified twoPes fourUpdates t := by
  have hfits : fourUpdates.Fits twoPes := ⟨by decide, by decide⟩
  have hs : construct twoPes fourUpdates 2 = some (start 2 : Histo ℚ) := rfl
  obtain ⟨t, ht, hphase⟩ := of_check (P := fun t : Histo ℚ => t.phase = .checked)
    (o := run twoPes fourUpdates wholeRun (start 2)) (by decide +kernel)
  exact ⟨start 2, t, hs, ht, hphase, run_verified hfits hs ht⟩

end Histo

end Htram
