import Htram.Hold.Contents
import Htram.Pe.Bodies
import Htram.Pe.Admitted

/-!
# The books of a destination

What a destination has sent and what it has added to `tot_send_count`, and where the items
it has belong. Nothing here depends on the stamps of the hold or on the buckets in the
client's calls.

* `Op.act_books`: a call adds every item that it sends to `tot_send_count`, but for those
  that `tflush` with combining off finds in the buffer; and what it sends, keeps and holds
  belongs to the destination.
-/

namespace Htram

variable {α F : Type*}

/-- The item is for the PE that `get_dest_proc` names and belongs here. -/
def Item.Owned (cfg : Config α) (own : α → Prop) (x : Item α) : Prop :=
  x.destPe = cfg.getDestProc x.payload ∧ own x.payload

/-- The message has the items that `next` counts, each owned. -/
structure HTramMessage.Whole (cfg : Config α) (own : α → Prop) (m : HTramMessage α) : Prop where
  written : m.items.length = m.next
  owned : ∀ x ∈ m.items, x.Owned cfg own

/-- The survivor of two items with one key has that key and belongs where they do. -/
def Config.Combines (cfg : Config α) (own : α → Prop) : Prop :=
  ∀ y x, cfg.ops.key y = cfg.ops.key x → own y → own x →
    cfg.ops.key (cfg.ops.combine y x).1 = cfg.ops.key x ∧ own (cfg.ops.combine y x).1

theorem newHTramMessage_whole (cfg : Config α) (own : α → Prop) (n : ℕ) :
    (newHTramMessage n : HTramMessage α).Whole cfg own := by
  refine ⟨rfl, fun x hx => ?_⟩
  cases hx

namespace Dest

/-- The items sent less those added to `tot_send_count`. -/
def uncounted (d : Dest α) : ℤ := (d.sent.map fun s => (s.msg.next : ℤ)).sum - d.totSendCount

/-- The destination has sent `u` items that it has not counted, and the messages `log`
    before the others; its items belong to it. -/
structure Books (cfg : Config α) (entry : Entry) (own : α → Prop) (log : List (Sent α)) (u : ℤ)
    (d : Dest α) : Prop where
  uncounted : d.uncounted = u
  grown : log <+: d.sent
  sent : ∀ s ∈ d.sent, s.entry = entry ∧ s.msg.Whole cfg own
  buffer : d.msgBuffer.Whole cfg own
  queues : ∀ b, ∀ y ∈ d.queues b, own y
  hold : d.hold.Only fun key y => cfg.ops.key y = key ∧ own y

variable {cfg : Config α} {k : Knobs F} {own : α → Prop} {log : List (Sent α)} {u : ℤ}
  {d d' : Dest α}

theorem Books.congr {entry : Entry} (hd : d.Books cfg entry own log u)
    (hm : d'.msgBuffer = d.msgBuffer) (hs : d'.sent = d.sent)
    (ht : d'.totSendCount = d.totSendCount) (hq : d'.tramHold = d.tramHold)
    (hh : d'.hold = d.hold) : d'.Books cfg entry own log u := by
  obtain ⟨h1, h2, h3, h4, h5, h6⟩ := hd
  unfold Dest.uncounted at h1
  unfold Dest.queues at h5
  refine ⟨?_, by rwa [hs], by rwa [hs], by rwa [hm], ?_, by rwa [hh]⟩
  · unfold Dest.uncounted
    rwa [hs, ht]
  · unfold Dest.queues
    rwa [hq]

theorem init_books [Inhabited α] (cfg : Config α) (entry : Entry) (own : α → Prop) (n : ℕ) :
    (Dest.init n : Dest α).Books cfg entry own [] 0 where
  uncounted := rfl
  grown := List.nil_prefix
  sent := by simp [Dest.init]
  buffer := newHTramMessage_whole cfg own n
  queues := by simp [Dest.queues, Dest.init]
  hold := CombiningHold.init_only 0

/-- The books from here on. -/
theorem Books.restart {entry : Entry} (hd : d.Books cfg entry own log u) :
    d.Books cfg entry own d.sent u :=
  ⟨hd.uncounted, List.prefix_rfl, hd.sent, hd.buffer, hd.queues, hd.hold⟩

/-! ## Single steps -/

theorem Books.put {entry : Entry} (hd : d.Books cfg entry own log u) {x : Item α}
    (hx : x.Owned cfg own) : (d.put x).Books cfg entry own log u := by
  refine ⟨hd.uncounted, hd.grown, hd.sent, ⟨?_, fun y hy => ?_⟩, hd.queues, hd.hold⟩
  · show (d.msgBuffer.items ++ [x]).length = d.msgBuffer.next + 1
    rw [List.length_append, hd.buffer.written, List.length_singleton]
  · rcases List.mem_append.mp hy with hy | hy
    · exact hd.buffer.owned y hy
    · rw [List.mem_singleton.mp hy]
      exact hx

/-- A buffer that leaves without being counted. -/
theorem Books.send (hd : d.Books cfg k.agg.entry own log u) :
    (d.send k).Books cfg k.agg.entry own log (u + d.msgBuffer.next) := by
  refine ⟨?_, hd.grown.trans (List.prefix_append ..), fun s hs => ?_,
    newHTramMessage_whole cfg own _, hd.queues, hd.hold⟩
  · rw [← hd.uncounted]
    simp only [Dest.uncounted, Dest.send, sendTo, List.map_append, List.sum_append, List.map_cons,
      List.map_nil, List.sum_cons, List.sum_nil]
    omega
  · rcases List.mem_append.mp hs with hs | hs
    · exact hd.sent s hs
    · rw [List.mem_singleton.mp hs]
      exact ⟨rfl, hd.buffer⟩

/-- A buffer that leaves by `shipBuffer`. -/
theorem Books.shipBuffer (hd : d.Books cfg k.agg.entry own log u) (full : Bool) :
    (d.shipBuffer k full).Books cfg k.agg.entry own log u := by
  have hcount : ({ d with
      totSendCount := d.totSendCount + d.msgBuffer.next
      fullSends := if full then d.fullSends + 1 else d.fullSends } : Dest α).Books cfg k.agg.entry
      own log (u - d.msgBuffer.next) := by
    refine ⟨?_, hd.grown, hd.sent, hd.buffer, hd.queues, hd.hold⟩
    rw [← hd.uncounted]
    simp only [Dest.uncounted, Nat.cast_add]
    omega
  have := hcount.send
  rwa [show u - d.msgBuffer.next + d.msgBuffer.next = u by omega] at this

theorem Books.uncount {entry : Entry} (hd : d.Books cfg entry own log u) :
    d.uncount.Books cfg entry own log u := hd.congr rfl rfl rfl rfl rfl

theorem Books.queue {entry : Entry} (hd : d.Books cfg entry own log u) {i : ℕ} {q : HoldQueue α}
    (hq : ∀ y ∈ q.toList, own y) (bits : WordBits.Row) :
    ({ d with tramHold := Function.update d.tramHold i q, holdBits := bits } : Dest α).Books cfg
      entry own log u := by
  refine ⟨hd.uncounted, hd.grown, hd.sent, hd.buffer, fun b y hy => ?_, hd.hold⟩
  have hy : y ∈ (Function.update d.tramHold i q b).toList := hy
  by_cases hb : b = i
  · subst hb
    rw [Function.update_self] at hy
    exact hq y hy
  · rw [Function.update_of_ne hb] at hy
    exact hd.queues b y hy

/-- Every body keeps the books, whatever way it ships. -/
theorem books_closed (cfg : Config α) (k : Knobs F) (full : Bool) (own : α → Prop)
    (log : List (Sent α)) (u : ℤ) :
    Closed cfg k full (fun pe y => pe = cfg.getDestProc y ∧ own y)
      (Books cfg k.agg.entry own log u) where
  counts := fun _ _ hd => hd.congr rfl rfl rfl rfl rfl
  front := by
    intro d b y hd hy
    rw [HoldQueue.front_eq_head?] at hy
    exact ⟨rfl, hd.queues b y (List.mem_of_mem_head? hy)⟩
  pop := by
    intro d b hd
    refine hd.queue (fun y hy => ?_) d.holdBits
    rw [HoldQueue.toList_pop] at hy
    exact hd.queues b y (List.mem_of_mem_tail hy)
  push := by
    intro d b y hown hd
    refine hd.queue (fun z hz => ?_) d.holdBits
    rw [HoldQueue.toList_push] at hz
    rcases List.mem_append.mp hz with hz | hz
    · exact hd.queues b z hz
    · rw [List.mem_singleton.mp hz]
      exact hown.2
  put := fun hx hd => hd.put hx
  grow := fun _ hd =>
    ⟨hd.uncounted, hd.grown, hd.sent, ⟨hd.buffer.written, hd.buffer.owned⟩, hd.queues, hd.hold⟩
  ship := fun _ hd => hd.shipBuffer full
  released := by
    intro d high limit e hd he
    obtain ⟨-, hout⟩ := CombiningHold.release_only hd.hold high limit
    obtain ⟨-, -, hown⟩ := hout e he
    exact ⟨rfl, hown⟩
  release := fun high limit hd =>
    ⟨hd.uncounted, hd.grown, hd.sent, hd.buffer, hd.queues,
      (CombiningHold.release_only hd.hold high limit).1⟩

/-! ## The bodies of the operations -/

theorem sendItem_books [ReleaseArith F] [Inhabited α]
    (hcombine : k.combining = true → cfg.Combines own)
    (hd : d.Books cfg k.agg.entry own log u) {y : α} (hy : own y) (b : ℕ) :
    (d.sendItem cfg k y b (cfg.getDestProc y)).Books cfg k.agg.entry own log u := by
  refine (books_closed cfg k true own log u).sendItem (fun hk => ?_) ⟨rfl, hy⟩ ⟨rfl, hy⟩ hd
  refine ⟨hd.uncounted, hd.grown, hd.sent, hd.buffer, hd.queues, ?_⟩
  refine CombiningHold.insert_only (fun key z x hz hx => ?_) hd.hold ⟨rfl, hy⟩ b
  have := hcombine hk z x (hz.1.trans hx.1.symm) hz.2 hx.2
  rwa [hx.1] at this

/-- `tflush` does not count the buffer that it ships first. -/
theorem flushBuffer_books (hd : d.Books cfg k.agg.entry own log u) :
    (d.flushBuffer k).Books cfg k.agg.entry own log (u + d.msgBuffer.next) := by
  unfold flushBuffer
  split_ifs with h0
  · rwa [h0, Nat.cast_zero, add_zero]
  · exact hd.uncount.send

/-- The items that `tflush` ships uncounted. -/
def tflushed (k : Knobs F) (idleflush : Bool) (d : Dest α) : ℕ :=
  if k.combining ∨ idleflush then 0 else d.msgBuffer.next

theorem tflush_books (hk : k.agg ≠ .WsP) (hd : d.Books cfg k.agg.entry own log u)
    (idleflush : Bool) :
    (d.tflush cfg k idleflush).Books cfg k.agg.entry own log (u + d.tflushed k idleflush) := by
  have hbooks := books_closed cfg k false own log
  unfold tflush tflushed
  rw [if_neg hk]
  by_cases hc : k.combining = true
  · rw [if_pos hc, if_pos (Or.inl hc), Nat.cast_zero, add_zero]
    exact (hbooks u).flushDest hd
  · rw [if_neg hc]
    refine (hbooks _).shipPartial (fun _ hx => (hbooks _).fillersFlush hx) ((hbooks _).drain ?_)
    cases idleflush with
    | true =>
      rw [if_pos (Or.inr rfl), Nat.cast_zero, add_zero]
      exact hd
    | false =>
      rw [if_neg (by simp [hc])]
      exact flushBuffer_books hd

end Dest

/-! ## Calls -/

namespace Op

variable [ReleaseArith F] [Inhabited α]

/-- The call names the PE of `get_dest_proc`. -/
def Addressed (cfg : Config α) : Op α F → Prop
  | .sendTo item _ destProc => destProc = cfg.getDestProc item
  | _ => True

/-- The items that the call ships to destination `x` and does not count. -/
def uncounts (k : Knobs F) (x : Dest α) : Op α F → ℕ
  | .tflush idleflush => x.tflushed k idleflush
  | _ => 0

/-- A call keeps the books of a destination. -/
theorem act_books {cfg : Config α} {k : Knobs F} (hk : k.agg ≠ .WsP) {d : ℕ} {x : Dest α}
    {log : List (Sent α)} {u : ℤ} {own : α → Prop}
    (hown : ∀ y, cfg.destOf k.agg (cfg.getDestProc y) = d → own y)
    (hcombine : k.combining = true → cfg.Combines own) {op : Op α F} (hop : op.Deferred)
    (haddr : op.Addressed cfg) (hx : x.Books cfg k.agg.entry own log u) :
    (op.act cfg k d x).Books cfg k.agg.entry own log (u + op.uncounts k x) := by
  have hstay : u + ((0 : ℕ) : ℤ) = u := by rw [Nat.cast_zero, add_zero]
  have hbooks : ∀ k' : Knobs F, k'.agg = k.agg → Dest.Closed cfg k' true
      (fun pe y => pe = cfg.getDestProc y ∧ own y) (Dest.Books cfg k.agg.entry own log u) := by
    intro k' hk'
    rw [← hk']
    exact Dest.books_closed cfg k' true own log u
  cases op with
  | insertValue | insertValueWPs => exact hop.elim
  | send y b =>
    dsimp only [act, uncounts]
    rw [hstay]
    split_ifs with hd
    · exact Dest.sendItem_books hcombine hx (hown y hd) b
    · exact hx
  | sendTo y b pe =>
    have hpe : pe = cfg.getDestProc y := haddr
    subst hpe
    dsimp only [act, uncounts]
    rw [hstay]
    split_ifs with hd
    · exact Dest.sendItem_books hcombine hx (hown y hd) b
    · exact hx
  | changeThreshold | coarsenBuckets | setBufferSize =>
    dsimp only [uncounts]
    rw [hstay]
    refine act_closed hbooks ?_ d (fun n => ?_) hx
    · exact trivial
    · exact ⟨hx.uncounted, hx.grown, hx.sent, newHTramMessage_whole cfg own n, hx.queues, hx.hold⟩
  | tflush idleflush => exact Dest.tflush_books hk hx idleflush
  | flushStale =>
    dsimp only [act, uncounts]
    rw [hstay, if_pos hk]
    exact (Dest.books_closed cfg k false own log u).flushIfStale
      (fun _ hy => hy.congr rfl rfl rfl rfl rfl) hx
  | flushIdle elapsed =>
    dsimp only [act, uncounts]
    rw [hstay]
    split_ifs
    · exact (Dest.books_closed cfg k false own log u).flushIfAny hx
    · exact hx

end Op

/-- The item goes by way of destination `d`. -/
def Config.Here (cfg : Config α) (agg : Agg) (d : ℕ) (y : α) : Prop :=
  cfg.destOf agg (cfg.getDestProc y) = d

namespace HTram

/-- The books of a PE in mode `agg`. Combining is off, or `combining` says that it may be on. -/
structure Books (cfg : Config α) (agg : Agg) (combining : Bool) (p : HTram α F) : Prop where
  mode : p.knobs.agg = agg
  combines : p.knobs.combining = true → combining = true
  dest : ∀ d < cfg.destCount agg, (p.dest d).Books cfg agg.entry (cfg.Here agg d) (p.dest d).sent
    (p.dest d).uncounted

/-- From `p` to `q` a PE sends messages, of which `n d` items for destination `d` are not
    counted. -/
structure Sends (cfg : Config α) (agg : Agg) (n : ℕ → ℕ) (p q : HTram α F) : Prop where
  grown : ∀ d < cfg.destCount agg, (p.dest d).sent <+: (q.dest d).sent
  uncounted : ∀ d < cfg.destCount agg, (q.dest d).uncounted = (p.dest d).uncounted + n d

theorem init_books [Inhabited α] [ReleaseArith F] (cfg : Config α) (agg : Agg) (bufSize : ℕ)
    (combining : Bool) : (init agg bufSize : HTram α F).Books cfg agg combining where
  mode := rfl
  combines := fun h => by cases h
  dest := fun d _ => Dest.init_books cfg agg.entry (cfg.Here agg d) bufSize

variable {cfg : Config α} {agg : Agg} {combining : Bool} {p q : HTram α F}

theorem Books.destCount (hp : p.Books cfg agg combining) :
    p.destCount cfg = cfg.destCount agg := by
  rw [HTram.destCount, hp.mode]

/-- A call keeps the books of a PE. -/
theorem step_books [Inhabited α] [ReleaseArith F] (hagg : agg ≠ .WsP)
    (hcombine : combining = true → ∀ d, cfg.Combines (cfg.Here agg d))
    (hp : p.Books cfg agg combining) {op : Op α F} (hop : op.Deferred) (haddr : op.Addressed cfg)
    (hq : p.step cfg op = .returns q) :
    q.Books cfg agg combining ∧
      p.Sends cfg agg (fun d => op.uncounts p.knobs (p.dest d)) q := by
  obtain ⟨hknobs, hdest⟩ := step_acts hq
  obtain ⟨hsame, hstill⟩ := op.settings_mode p.knobs
  obtain ⟨rfl, hcomb, hbooks⟩ := hp
  have hnew : ∀ d < cfg.destCount p.knobs.agg,
      (q.dest d).Books cfg p.knobs.agg.entry (cfg.Here p.knobs.agg d) (p.dest d).sent
        ((p.dest d).uncounted + op.uncounts p.knobs (p.dest d)) := by
    intro d hd
    rw [hdest d hd]
    exact Op.act_books hagg (fun y hy => hy) (fun hk => hcombine (hcomb hk) d) hop haddr
      (hbooks d hd)
  refine ⟨⟨?_, fun hk => hcomb ?_, fun d hd => ?_⟩, ⟨fun d hd => (hnew d hd).grown,
    fun d hd => (hnew d hd).uncounted⟩⟩
  · rw [hknobs, hsame]
  · rwa [hknobs, hstill] at hk
  · have := (hnew d hd).restart
    rwa [← (hnew d hd).uncounted] at this

theorem enableCombining_books [Inhabited α] (hp : p.Books cfg agg combining)
    (hcomb : combining = true) (hq : p.enableCombining cfg = .returns q) :
    q.Books cfg agg combining ∧ p.Sends cfg agg (fun _ => 0) q := by
  unfold enableCombining at hq
  split_ifs at hq
  · cases hq
    exact ⟨hp, fun d _ => List.prefix_rfl, fun d _ => by simp⟩
  · cases hq
    refine ⟨⟨hp.mode, fun _ => hcomb, fun d hd => ?_⟩, fun d _ => List.prefix_rfl,
      fun d _ => by simp [Dest.uncounted]⟩
    obtain ⟨h1, h2, h3, h4, h5, -⟩ := hp.dest d hd
    exact ⟨h1, h2, h3, h4, h5, CombiningHold.init_only _⟩

end HTram

end Htram
