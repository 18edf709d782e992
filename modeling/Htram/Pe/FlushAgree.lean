import Htram.Pe.Fills
import Htram.Pe.Items

/-!
# `tflush` and `flushDest`

`tflush` ships the partial buffer and then drains the queues into a new one, `flushDest`
drains them into the buffer there is. What they ship to a destination is the same
sequence.

* `Dest.flushQueue_flushes`, `Dest.flushAll_flushes`: what either does to a destination.
* `HTram.flushes_agree`: the comparison, and when the counts end at 0.
-/

namespace Htram

variable {α F : Type*}

/-- An item as it stands in a message: the PE it is for, and its payload. -/
def Item.asSent (x : Item α) : ℕ × α := (x.destPe, x.payload)

namespace Dest

/-- What a flush without combining does: the items `xs`, all that is held up to the
    threshold, leave with the buffer, and the fillers `fs` with the last message. -/
structure Flushes (cfg : Config α) (k : Knobs F) (d d' : Dest α) (xs fs : List (Item α)) :
    Prop where
  closed : d.store.closed <+: d'.store.closed
  rest : d'.store.rest = []
  stream : d'.store.stream = d.store.stream ++ xs ++ fs
  payloads : xs.map Item.payload = d.heldUpTo k.tramThreshold
  plain : ∀ x ∈ xs, x.destPe = cfg.getDestProc x.payload ∧ x.fill.filler = false
  fillers : ∀ x ∈ fs, x.destPe = cfg.getDestProc x.payload ∧ x.fill.filler = true
  updates : d'.updatesInTram = d.updatesInTram - (d.msgBuffer.next + xs.length : ℕ)
  low : ∀ c : ℕ, (c : ℤ) ≤ k.tramThreshold → d'.queues c = []

/-- The end of a flush leaves the queues up to the threshold as they are. -/
theorem shipPartial_low (cfg : Config α) {k : Knobs F} (hk : k.combining = false) {d : Dest α}
    (hd : d.Queued cfg k) (hlow : (d.lane cfg k).Drained) :
    ∀ c : ℕ, (c : ℤ) ≤ k.tramThreshold →
      (d.shipPartial cfg k (fillersDest cfg k)).queues c = [] := by
  obtain ⟨-, -, hflushed⟩ := shipPartial_path (R := ⟨false, true, true⟩) cfg hk rfl hd hlow
  intro c hc
  have hnil := hflushed.drained c hc
  simp only [lane, hk, Bool.false_eq_true, if_false, List.map_eq_nil_iff] at hnil
  exact hnil

theorem flushQueue_flushes (cfg : Config α) {k : Knobs F} (hk : k.combining = false) {d : Dest α}
    (hd : d.Queued cfg k) :
    ∃ xs fs, Flushes cfg k d (d.flushQueue cfg k) xs fs ∧
      (d.flushQueue cfg k).store = (d.store.putAll k.bufSize xs).closeWith fs := by
  obtain ⟨xs, hpacks, hpayloads, hplain, -⟩ := drain_packs cfg hk hd
  obtain ⟨hq, -, hlow⟩ := drain_path cfg hk ⟨false, true, true⟩ hd
  obtain ⟨fs, hends⟩ := shipPartial_ends cfg hk hq hlow
  have hstore : (d.flushQueue cfg k).store = (d.store.putAll k.bufSize xs).closeWith fs := by
    rw [← hpacks.store_eq]
    exact hends.store_eq
  have hnone : (d.store.putAll k.bufSize xs).rest = [] → fs = [] := by
    intro h
    refine (hends.idle ?_).2
    rw [← hq.toSized.store_rest, hpacks.store_eq, h]
    rfl
  refine ⟨xs, fs, ⟨?_, ?_, ?_, hpayloads, hplain, hends.fillers, ?_,
    shipPartial_low cfg hk hq hlow⟩, hstore⟩
  · rw [hstore]
    exact (Packing.Store.putAll_closed _ _ _).trans (Packing.Store.closeWith_closed _ _)
  · rw [hstore, Packing.Store.closeWith_rest]
  · rw [hstore, Packing.Store.closeWith_stream, Packing.Store.putAll_stream]
    split_ifs with h
    · rw [hnone h]
    · rfl
  · have hnext := hpacks.next hd.toSized hq.toSized
    have hdiv := Nat.div_add_mod (d.msgBuffer.next + xs.length) k.bufSize
    show (Dest.shipPartial cfg k (fillersDest cfg k) (d.drain cfg k)).updatesInTram = _
    rw [hends.updates, hpacks.updates, hnext]
    unfold countAfter
    omega

/-- A flush after the partial buffer has been shipped. -/
theorem flushBuffer_store {cfg : Config α} {k : Knobs F} {d : Dest α} (hd : d.Queued cfg k) :
    (d.flushBuffer k).store = d.store.close ∧
      (d.flushBuffer k).updatesInTram = d.updatesInTram - d.msgBuffer.next ∧
      (d.flushBuffer k).msgBuffer.next = 0 ∧ (d.flushBuffer k).queues = d.queues := by
  have hrest : d.store.rest.length = d.msgBuffer.next := hd.toSized.store_rest
  unfold flushBuffer
  split_ifs with hnext
  · refine ⟨?_, by omega, hnext, rfl⟩
    rw [Packing.Store.close, Packing.Store.closeWith,
      if_pos (List.length_eq_zero_iff.mp (hrest.trans hnext))]
  · refine ⟨?_, rfl, rfl, rfl⟩
    have hne : d.store.rest ≠ [] := by
      intro h
      rw [h] at hrest
      exact hnext hrest.symm
    rw [Packing.Store.close, Packing.Store.closeWith, if_neg hne, List.append_nil]
    refine Packing.Store.ext ?_ rfl
    show (d.sent ++ [_]).map _ = d.sent.map _ ++ [d.msgBuffer.items]
    rw [List.map_append, List.map_singleton]
    rfl

theorem flushAll_eq (cfg : Config α) (k : Knobs F) (d : Dest α) :
    d.flushAll cfg k false = (d.flushBuffer k).flushQueue cfg k := by
  unfold flushAll flushQueue
  rw [show fillersFlush cfg k = fillersDest cfg k from funext (fillersFlush_eq cfg k)]
  rfl

theorem flushAll_flushes (cfg : Config α) {k : Knobs F} (hk : k.combining = false) {d : Dest α}
    (hd : d.Queued cfg k) :
    ∃ xs fs, Flushes cfg k d (d.flushAll cfg k false) xs fs ∧
      (d.flushAll cfg k false).store = (d.store.close.putAll k.bufSize xs).closeWith fs := by
  obtain ⟨hstore, hupdates, hnext, hqueues⟩ := flushBuffer_store hd
  obtain ⟨hq, -⟩ := flushBuffer_path cfg k ⟨false, true, true⟩ hd
  rw [flushAll_eq]
  obtain ⟨xs, fs, hf, hall⟩ := flushQueue_flushes cfg hk hq
  rw [hstore] at hall
  refine ⟨xs, fs, ⟨?_, hf.rest, ?_, ?_, hf.plain, hf.fillers, ?_, hf.low⟩, hall⟩
  · have := hf.closed
    rw [hstore] at this
    exact (Packing.Store.closeWith_closed _ _).trans this
  · rw [hf.stream, hstore, Packing.Store.close_stream]
  · rw [hf.payloads, heldUpTo, heldUpTo, hqueues]
  · rw [hf.updates, hupdates, hnext]
    omega

/-! ## What is shipped -/

/-- The messages shipped since `d`. -/
def newSent (d d' : Dest α) : List (Sent α) := d'.sent.drop d.sent.length

/-- The sequence of items shipped since `d`, fillers left out. -/
def shippedPlain (d d' : Dest α) : List (ℕ × α) :=
  (((newSent d d').flatMap fun s => s.msg.items).filter fun x => !x.fill.filler).map
    Item.asSent

/-- The items in the buffer and then those held up to the threshold, by bucket and in order
    of arrival. -/
def waitingItems (cfg : Config α) (k : Knobs F) (d : Dest α) : List (ℕ × α) :=
  d.msgBuffer.items.map Item.asSent ++
    (d.heldUpTo k.tramThreshold).map fun x => (cfg.getDestProc x, x)

theorem Flushes.shippedPlain {cfg : Config α} {k : Knobs F} {d d' : Dest α}
    {xs fs : List (Item α)} (hf : Flushes cfg k d d' xs fs)
    (hbuffer : ∀ x ∈ d.msgBuffer.items, x.fill.filler = false) :
    shippedPlain d d' = d.waitingItems cfg k := by
  have hstream := hf.stream
  rw [List.append_assoc] at hstream
  have hnew := Packing.Store.flatten_new hf.closed hf.rest hstream
  have hflat : (newSent d d').flatMap (fun s => s.msg.items) = d.msgBuffer.items ++ (xs ++ fs) := by
    rw [List.flatMap_def, newSent, List.map_drop]
    have hlen : d.store.closed.length = d.sent.length := List.length_map _
    rw [← hlen]
    exact hnew
  have hall : ∀ l : List (Item α), (∀ x ∈ l, x.fill.filler = false) →
      l.filter (fun x => !x.fill.filler) = l := by
    intro l hl
    exact List.filter_eq_self.mpr fun x hx => by simp [hl x hx]
  have hnone : fs.filter (fun x => !x.fill.filler) = [] :=
    List.filter_eq_nil_iff.mpr fun x hx => by simp [(hf.fillers x hx).2]
  have hxs : xs.map Item.asSent =
      (xs.map Item.payload).map fun x => (cfg.getDestProc x, x) := by
    rw [List.map_map]
    refine List.map_congr_left fun x hx => ?_
    show (x.destPe, x.payload) = _
    rw [(hf.plain x hx).1]
    rfl
  unfold Dest.shippedPlain waitingItems
  rw [hflat, List.filter_append, List.filter_append, hall _ hbuffer,
    hall _ fun x hx => (hf.plain x hx).2, hnone, List.append_nil, List.map_append, hxs, hf.payloads]

/-- Nothing is left that is admitted, and the count says so. -/
structure Cleared (k : Knobs F) (d : Dest α) : Prop where
  buffer : d.msgBuffer.next = 0
  held : ∀ c : ℕ, (c : ℤ) ≤ k.tramThreshold → d.queues c = []
  updates : d.updatesInTram = 0

/-- Both flushes of `d` ship what is waiting, in order, and leave nothing; the second one
    does not need more messages. -/
structure Agree (cfg : Config α) (k : Knobs F) (d dAll dOne : Dest α) : Prop where
  allShips : shippedPlain d dAll = d.waitingItems cfg k
  oneShips : shippedPlain d dOne = d.waitingItems cfg k
  allClears : dAll.Cleared k
  oneClears : dOne.Cleared k
  fewer : (newSent d dOne).length ≤ (newSent d dAll).length

theorem flushAll_agree (cfg : Config α) {k : Knobs F} (hk : k.combining = false) {d : Dest α}
    (hd : d.Queued cfg k) (hbuffer : ∀ x ∈ d.msgBuffer.items, x.fill.filler = false) :
    Agree cfg k d (d.flushAll cfg k false) (d.flushQueue cfg k) ↔
      d.updatesInTram = d.msgBuffer.next + (d.heldUpTo k.tramThreshold).length := by
  obtain ⟨xs, fs, hone, hstore⟩ := flushQueue_flushes cfg hk hd
  obtain ⟨ys, gs, hall, hstore'⟩ := flushAll_flushes cfg hk hd
  obtain ⟨hq, -⟩ := flushQueue_path cfg hk (R := ⟨false, true, true⟩) rfl hd
  obtain ⟨hq', -⟩ := flushAll_path cfg hk (R := ⟨false, true, true⟩) rfl false hd
  generalize d.flushQueue cfg k = dOne at *
  generalize d.flushAll cfg k false = dAll at *
  have hlen : xs.length = (d.heldUpTo k.tramThreshold).length := by
    rw [← hone.payloads, List.length_map]
  have hlen' : ys.length = (d.heldUpTo k.tramThreshold).length := by
    rw [← hall.payloads, List.length_map]
  have hempty : ∀ {d' : Dest α} {zs hs : List (Item α)}, Flushes cfg k d d' zs hs →
      d'.Queued cfg k → d'.msgBuffer.next = 0 := by
    intro d' zs hs hf hq
    rw [← hq.toSized.store_rest, hf.rest]
    rfl
  constructor
  · intro h
    have := h.oneClears.updates
    rw [hone.updates] at this
    omega
  · intro h
    have hfewer : (newSent d dOne).length ≤ (newSent d dAll).length := by
      have hcount : ∀ d' : Dest α, d'.store.closed.length = d'.sent.length :=
        fun d' => List.length_map _
      have hle := Packing.Store.length_close_le hd.toSized.store_lt xs
      have hclose : d.store.close.rest.length < k.bufSize := by
        rw [Packing.Store.close_rest]
        exact hd.toSized.pos
      have hsame : (d.store.close.putAll k.bufSize xs).close.closed.length =
          (d.store.close.putAll k.bufSize ys).close.closed.length := by
        rw [Packing.Store.length_close, Packing.Store.length_close,
          Packing.Store.length_putAll_rest hclose, Packing.Store.length_putAll_rest hclose,
          Packing.Store.length_putAll_closed hclose, Packing.Store.length_putAll_closed hclose,
          hlen, hlen']
      unfold newSent
      rw [List.length_drop, List.length_drop, ← hcount, ← hcount, ← hcount, hstore, hstore',
        Packing.Store.length_closeWith, Packing.Store.length_closeWith,
        ← Packing.Store.length_close, ← Packing.Store.length_close, ← hsame]
      omega
    refine ⟨hall.shippedPlain hbuffer, hone.shippedPlain hbuffer,
      ⟨hempty hall hq', hall.low, ?_⟩, ⟨hempty hone hq, hone.low, ?_⟩, hfewer⟩
    · rw [hall.updates]; omega
    · rw [hone.updates]; omega

end Dest

/-! ## Reachable states -/

/-- No filler waits in the buffer. -/
def Lane.NoFiller (L : Lane α) : Prop := ∀ x ∈ L.buffer, x.fill.filler = false

theorem Lane.NoFiller.put {L L' : Lane α} (hL : L.NoFiller) {x : Item α}
    (hbuffer : L'.buffer = L.buffer ++ [x]) (hx : x.fill.filler = false) : L'.NoFiller := by
  intro y hy
  rw [hbuffer] at hy
  rcases List.mem_append.mp hy with hy | hy
  · exact hL y hy
  · rw [List.mem_singleton.mp hy]; exact hx

theorem Move.noFiller {cfg : Config α} {R : Rules} {xs : List (Input α)} {L L' : Lane α}
    (hm : Move cfg R xs L L') (hL : L.NoFiller) : L'.NoFiller := by
  cases hm with
  | direct | raw | take => exact hL.put rfl rfl
  | ship | shipFilled => intro x hx; cases hx
  | hold | fold | foldMove | retune | coarsen | resize | newRound => exact hL

theorem Path.noFiller {cfg : Config α} {R : Rules} {xs : List (Input α)} {L L' : Lane α}
    (hp : Path cfg R xs L L') (hL : L.NoFiller) : L'.NoFiller :=
  hp.invariant (P := fun _ => True) (fun _ _ _ hm _ => hm.noFiller) (fun _ _ => trivial) hL

namespace HTram

variable [Inhabited α] [ReleaseArith F]

/-- `tflush()` and `flushDest(d)` from `p` return and agree on destination `d`. -/
def FlushesAgree (cfg : Config α) (p : HTram α F) (d : ℕ) : Prop :=
  ∃ q r, p.tflush cfg false = .returns q ∧ p.onDest d (Dest.flushDest cfg p.knobs) = .returns r ∧
    Dest.Agree cfg p.knobs (p.dest d) (q.dest d) (r.dest d)

omit [Inhabited α] [ReleaseArith F] in
/-- What is admitted, as the items waiting. -/
theorem admitted_eq {k : Knobs F} (hk : k.combining = false) (d : Dest α) :
    d.admitted k = d.msgBuffer.next + (d.heldUpTo k.tramThreshold).length := by
  have hsum : (d.heldUpTo k.tramThreshold).length =
      ∑ b ∈ Finset.range (k.tramThreshold + 1).toNat, (d.queues b).length := List.length_flatMap
  unfold Dest.admitted Dest.heldAdmitted Dest.heldIn
  rw [hsum, hk, add_comm]
  push_cast
  simp only [HoldQueue.size_eq_length]
  rfl

/-- After a run with combining off, both flushes ship the same items in the same order to
    a destination, and both end with an empty buffer, nothing admitted held and the count at
    0, if and only if the count of the destination is right before. -/
theorem flushes_agree {cfg : Config α} {agg : Agg} (hagg : agg ≠ .WsP) {bufSize : ℕ}
    (hpos : 0 < bufSize) {ops : List (Op α F)} (hrange : ∀ op ∈ ops, op.InRange cfg agg false) :
    (session cfg agg bufSize [] false ops).Holds
      (fun p => ∀ d < p.destCount cfg,
        FlushesAgree cfg p d ↔ (p.dest d).updatesInTram = (p.dest d).admitted p.knobs)
      fun _ => False := by
  have hran : (session cfg agg bufSize [] false ops).Holds
      (Ran cfg agg false ⟨false, true, true⟩ ops) fun _ => False :=
    session_ran hagg hpos (by simp) hrange (fun op _ => op.rules_le false) fun h => by cases h
  refine hran.imp fun p hq d hd => ?_
  have hk := hq.combining_eq
  have hqueued : ∀ d < p.destCount cfg, (p.dest d).Queued cfg p.knobs := fun d hd =>
    (Dest.settled_off hk).mp (hq.steady.dest d hd)
  have hbuffer : ∀ x ∈ (p.dest d).msgBuffer.items, x.fill.filler = false := by
    obtain ⟨L, hblank, -, -, hpath⟩ := hq.path d (hq.destCount ▸ hd)
    exact hpath.noFiller (by intro x hx; rw [hblank.buffer] at hx; cases hx)
  have htflush : ∀ d < p.destCount cfg,
      Dest.tflush cfg p.knobs false (p.dest d) = (p.dest d).flushAll cfg p.knobs false := by
    intro d _
    unfold Dest.tflush
    rw [if_neg (by simp [hk]), if_neg hq.steady.agg]
  have hflushDest : (p.dest d).flushDest cfg p.knobs = (p.dest d).flushQueue cfg p.knobs := by
    unfold Dest.flushDest
    rw [if_neg (by simp [hk])]
  obtain ⟨hone, -⟩ := Dest.flushQueue_path cfg hk (R := ⟨false, true, true⟩) rfl (hqueued d hd)
  have hall : p.tflush cfg false =
      .returns (p.mapDest cfg p.knobs (Dest.tflush cfg p.knobs false)) := by
    refine forDest_eq fun d hd => ?_
    rw [htflush d hd]
    exact (Dest.flushAll_path cfg hk (R := ⟨false, true, true⟩) rfl false (hqueued d hd)).1.stuck
  have hall' : p.onDest d (Dest.flushDest cfg p.knobs) =
      .returns (p.setDest d ((p.dest d).flushQueue cfg p.knobs)) := by
    rw [onDest, if_neg (by rw [hflushDest, hone.stuck]; simp), hflushDest]
  rw [admitted_eq hk, ← Dest.flushAll_agree cfg hk (hqueued d hd) hbuffer]
  unfold FlushesAgree
  rw [hall, hall']
  constructor
  · rintro ⟨q, r, hq', hr, hagree⟩
    cases hq'
    cases hr
    rw [mapDest_dest _ _ hd, htflush d hd] at hagree
    simpa [setDest] using hagree
  · intro hagree
    refine ⟨_, _, rfl, rfl, ?_⟩
    rw [mapDest_dest _ _ hd, htflush d hd]
    simpa [setDest] using hagree

/-- One item in the buffer and one held below the threshold. -/
theorem flushes_agree_two :
    (session oneNode .WPs 4 [] false
      [.changeThreshold 0 3 1, offer 1 0, (offer 2 2 : Op KeyValue ℚ)]).Holds
      (fun p => ∀ d < p.destCount oneNode, FlushesAgree oneNode p d ↔
        (p.dest d).updatesInTram = (p.dest d).admitted p.knobs)
      fun _ => False := by
  refine flushes_agree (by decide) (by decide) ?_
  simp [offer, Op.InRange, oneNode]

/-- After `coarsenBuckets` has kept an item of the top bucket counted, the flushes end with
    a count of 1. -/
theorem flushes_miscount :
    ∃ p : HTram KeyValue ℚ,
      session oneNode .WPs 4 [] false [.changeThreshold 0 7 1, offer 1 7, .coarsenBuckets 2 true] =
        .returns p ∧
      0 < p.destCount oneNode ∧ ¬ FlushesAgree oneNode p 0 := by
  obtain ⟨p, hp, hzero, hleft⟩ := Outcome.of_check
    (P := fun p : HTram KeyValue ℚ => 0 < p.destCount oneNode ∧
      (p.tflush oneNode false).check (fun q => (q.dest 0).updatesInTram = 1) = true)
    (o := session oneNode .WPs 4 [] false
      [.changeThreshold 0 7 1, offer 1 7, .coarsenBuckets 2 true]) (by decide +kernel)
  refine ⟨p, hp, hzero, ?_⟩
  rintro ⟨q, r, hq, -, hagree⟩
  obtain ⟨q', hq', hone⟩ := Outcome.of_check hleft
  rw [hq] at hq'
  cases hq'
  have := hagree.allClears.updates
  omega

end HTram

end Htram
