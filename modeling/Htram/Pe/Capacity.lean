import Htram.Pe.Htram

/-!
# The capacity of the buffers

Every fill site writes at index `next` and ships when `next` is `bufSize` exactly.
`Dest.Sized` is what makes that safe: between operations a buffer has room for
`bufSize` items and holds fewer.

* `HTram.session_capacity`: every operation that returns leaves every buffer so, and no
  item is ever written at or past the capacity of its message, also not in an operation
  that hangs. Under `WsP` a message is written when it ships.
-/

namespace Htram

variable {α F : Type*}

/-- A message whose first `next` slots are written, all within its allocation. -/
structure HTramMessage.Sound (m : HTramMessage α) : Prop where
  written : m.items.length = m.next
  inside : m.overrun = false

theorem HTramMessage.Sound.put {m : HTramMessage α} (hm : m.Sound) (x : Item α)
    (h : m.next < m.cap) : (m.put x).Sound := by
  refine ⟨by simp [HTramMessage.put, hm.written], ?_⟩
  simp [HTramMessage.put, hm.inside, h]

theorem newHTramMessage_sound (n : ℕ) : (newHTramMessage n : HTramMessage α).Sound := ⟨rfl, rfl⟩

namespace Dest

/-- The buffer can hold `n` items and holds at most that many; every item was written
    inside its message. -/
structure Fits (n : ℕ) (d : Dest α) : Prop where
  le : d.msgBuffer.next ≤ n
  cap : n ≤ d.msgBuffer.cap
  sound : d.msgBuffer.Sound
  sentSound : ∀ s ∈ d.sent, s.msg.Sound

/-- Between operations there is room for one more item. -/
structure Sized (n : ℕ) (d : Dest α) : Prop extends Fits n d where
  lt : d.msgBuffer.next < n

theorem Fits.congr {n : ℕ} {d d' : Dest α} (hd : d.Fits n) (hm : d'.msgBuffer = d.msgBuffer)
    (hs : d'.sent = d.sent) : d'.Fits n := by
  obtain ⟨h1, h2, h3, h4⟩ := hd
  exact ⟨by rwa [hm], by rwa [hm], by rwa [hm], by rwa [hs]⟩

theorem Sized.congr {n : ℕ} {d d' : Dest α} (hd : d.Sized n) (hm : d'.msgBuffer = d.msgBuffer)
    (hs : d'.sent = d.sent) : d'.Sized n :=
  ⟨hd.toFits.congr hm hs, by rw [hm]; exact hd.lt⟩

theorem init_sized [Inhabited α] {n : ℕ} (h : 0 < n) : (Dest.init n : Dest α).Sized n :=
  ⟨⟨Nat.zero_le n, le_refl n, newHTramMessage_sound n, by simp [Dest.init]⟩, h⟩

/-- A write at index `next`. -/
theorem Sized.put {n : ℕ} {d : Dest α} (hd : d.Sized n) (x : Item α) : (d.put x).Fits n :=
  ⟨hd.lt, hd.cap, hd.sound.put x (lt_of_lt_of_le hd.lt hd.cap), hd.sentSound⟩

/-- A buffer that ships is replaced by an empty one. -/
theorem Fits.sendTo {k : Knobs F} {d : Dest α} {n : ℕ} (hd : d.Fits n) (hk : 0 < k.bufSize)
    (entry : Entry) : (d.sendTo entry k).Sized k.bufSize := by
  refine ⟨⟨Nat.zero_le _, le_refl _, newHTramMessage_sound _, ?_⟩, hk⟩
  intro s hs
  rcases List.mem_append.mp hs with hs | hs
  · exact hd.sentSound s hs
  · rw [List.mem_singleton.mp hs]; exact hd.sound

theorem Fits.send {k : Knobs F} {d : Dest α} {n : ℕ} (hd : d.Fits n) (hk : 0 < k.bufSize) :
    (d.send k).Sized k.bufSize := hd.sendTo hk _

theorem Fits.shipBuffer {k : Knobs F} {d : Dest α} {n : ℕ} (hd : d.Fits n) (hk : 0 < k.bufSize)
    (full : Bool) : (d.shipBuffer k full).Sized k.bufSize :=
  Fits.send (d := { d with
    totSendCount := d.totSendCount + d.msgBuffer.next
    fullSends := if full then d.fullSends + 1 else d.fullSends : Dest α }) (hd.congr rfl rfl) hk

theorem Fits.uncount {n : ℕ} {d : Dest α} (hd : d.Fits n) : d.uncount.Fits n := hd.congr rfl rfl

theorem Sized.uncount {n : ℕ} {d : Dest α} (hd : d.Sized n) : d.uncount.Sized n := hd.congr rfl rfl

theorem Sized.pos {n : ℕ} {d : Dest α} (hd : d.Sized n) : 0 < n :=
  lt_of_le_of_lt (Nat.zero_le _) hd.lt

/-- Every fill site: write an item, and ship if the buffer is full now. -/
theorem Sized.putShip {k : Knobs F} {d : Dest α} (hd : d.Sized k.bufSize) (x : Item α)
    (full : Bool) :
    (if (d.put x).msgBuffer.next = k.bufSize then (d.put x).uncount.shipBuffer k full
      else d.put x).Sized k.bufSize := by
  have hp := hd.put x
  split_ifs with hfull
  · exact hp.uncount.shipBuffer hd.pos full
  · exact ⟨hp, lt_of_le_of_ne hp.le hfull⟩

/-! ## Without combining -/

theorem holdTake_sized {n : ℕ} {d : Dest α} (hd : d.Sized n) (b : ℕ) : (d.holdTake b).Sized n := by
  rw [holdTake_eq]; exact hd.congr rfl rfl

theorem insertBucket_sized [ReleaseArith F] (cfg : Config α) (k : Knobs F) (i : ℕ) :
    ∀ (fuel : ℕ) (d : Dest α), d.Sized k.bufSize →
      (insertBucket cfg k i fuel d).Sized k.bufSize := by
  intro fuel
  induction fuel with
  | zero => intro d hd; exact hd
  | succ fuel ih =>
    intro d hd
    rw [insertBucket]
    cases (d.tramHold i).front with
    | none => exact hd
    | some item =>
      dsimp only
      have := (holdTake_sized hd i).putShip
        (⟨cfg.getDestProc item, item, d.fill k (some i) false⟩ : Item α) true
      split_ifs with h1 h2 h2
      all_goals first
        | exact ih _ (by simpa [h1] using this)
        | simpa [h1] using this

theorem insertBucketsByDest_sized [ReleaseArith F] (cfg : Config α) {k : Knobs F} (high : ℤ)
    {d : Dest α} (hd : d.Sized k.bufSize) : (d.insertBucketsByDest cfg k high).Sized k.bufSize :=
  WordBits.forNext_inv (fun i d hd => insertBucket_sized cfg k i _ d hd) _ _ _ hd

theorem insertValueWPsTo_sized {k : Knobs F} {d : Dest α} (hd : d.Sized k.bufSize) (value : α)
    (destPe : ℕ) (bucket : Option ℕ) :
    (d.insertValueWPsTo k value destPe bucket).Sized k.bufSize := hd.putShip _ true

theorem drainBucket_sized (cfg : Config α) (k : Knobs F) (i : ℕ) :
    ∀ (fuel : ℕ) (d : Dest α), d.Sized k.bufSize →
      (drainBucket cfg k i fuel d).Sized k.bufSize := by
  intro fuel
  induction fuel with
  | zero => intro d hd; exact hd
  | succ fuel ih =>
    intro d hd
    rw [drainBucket]
    cases (d.tramHold i).front with
    | none => exact hd
    | some item => exact ih _ (Sized.putShip (d := d.holdPop i) (hd.congr rfl rfl) _ false)

theorem drain_sized (cfg : Config α) {k : Knobs F} {d : Dest α} (hd : d.Sized k.bufSize) :
    (d.drain cfg k).Sized k.bufSize :=
  WordBits.forNext_inv (fun i d hd => drainBucket_sized cfg k i _ (d.holdEmptied i)
    (hd.congr rfl rfl)) _ _ _ hd

/-- A filler stays below half of `bufSize`. -/
theorem takeFiller_sized (cfg : Config α) {k : Knobs F} (i : ℕ) (item : α) {d : Dest α}
    (hd : d.Sized k.bufSize) (hlt : d.msgBuffer.next < k.bufSize / 2) :
    (takeFiller cfg k i item d).Sized k.bufSize := by
  have hp := (holdTake_sized hd i).put
    (⟨cfg.getDestProc item, item, d.fill k (some i) true⟩ : Item α)
  refine ⟨hp, ?_⟩
  rw [takeFiller, holdTake_eq]
  simp only [Dest.put, HTramMessage.put]
  omega

theorem fillFromDest_sized (cfg : Config α) (k : Knobs F) (i : ℕ) :
    ∀ (fuel : ℕ) (d : Dest α), d.Sized k.bufSize →
      (fillFromDest cfg k i fuel d).Sized k.bufSize := by
  intro fuel
  induction fuel with
  | zero => intro d hd; exact hd
  | succ fuel ih =>
    intro d hd
    rw [fillFromDest]
    cases (d.tramHold i).front with
    | none => exact hd
    | some item =>
      dsimp only
      split_ifs with hlt
      · exact ih _ (takeFiller_sized cfg i item hd hlt)
      · exact hd

theorem fillersDest_sized (cfg : Config α) {k : Knobs F} {d : Dest α} (hd : d.Sized k.bufSize) :
    (fillersDest cfg k d).Sized k.bufSize :=
  WordBits.forNext_inv (fun i d hd => fillFromDest_sized cfg k i _ d hd) _ _ _ hd

/-- The loop of `tflush` is entered below half of `bufSize` and left at it. -/
theorem fillFromFlush_sized (cfg : Config α) (k : Knobs F) (i : ℕ) :
    ∀ (fuel : ℕ) (d : Dest α), d.Sized k.bufSize → d.msgBuffer.next < k.bufSize / 2 →
      (fillFromFlush cfg k i fuel d).Sized k.bufSize := by
  intro fuel
  induction fuel with
  | zero => intro d hd _; exact hd
  | succ fuel ih =>
    intro d hd hlt
    rw [fillFromFlush]
    cases (d.tramHold i).front with
    | none => exact hd
    | some item =>
      have := takeFiller_sized cfg i item hd hlt
      dsimp only
      split_ifs with hge
      · exact this
      · exact ih _ this (by omega)

theorem fillersFlush_sized (cfg : Config α) {k : Knobs F} {d : Dest α} (hd : d.Sized k.bufSize) :
    (fillersFlush cfg k d).Sized k.bufSize := by
  unfold fillersFlush
  split_ifs with hlt
  · refine WordBits.forNext_stop
      (I := fun d : Dest α => d.Sized k.bufSize ∧ d.msgBuffer.next < k.bufSize / 2)
      (fun d hd => hd.1) ?_ ?_ _ _ _ ⟨hd, hlt⟩
    · intro i d hd hs
      exact ⟨fillFromFlush_sized cfg k i _ d hd.1 hd.2, by simpa using hs⟩
    · intro i d hd _
      exact fillFromFlush_sized cfg k i _ d hd.1 hd.2
  · exact hd

theorem shipPartial_sized (cfg : Config α) {k : Knobs F} {fillers : Dest α → Dest α}
    (hfill : ∀ d : Dest α, d.Sized k.bufSize → (fillers d).Sized k.bufSize) {d : Dest α}
    (hd : d.Sized k.bufSize) : (d.shipPartial cfg k fillers).Sized k.bufSize := by
  unfold shipPartial
  dsimp only
  split_ifs
  · exact hd
  · exact (hfill _ hd.uncount).shipBuffer hd.pos false
  · exact hd.uncount.shipBuffer hd.pos false

theorem flushBuffer_sized {k : Knobs F} {d : Dest α} (hd : d.Sized k.bufSize) :
    (d.flushBuffer k).Sized k.bufSize := by
  unfold flushBuffer
  split_ifs
  · exact hd
  · exact hd.uncount.send hd.pos

end Dest

/-! ## With combining -/

namespace CombiningHold

/-- `release` never passes more than `limit` items to `emit`. -/
theorem releaseList_length (b : ℕ) :
    ∀ (refs : List Ref) (limit : ℕ) (h : CombiningHold α),
      (releaseList b refs limit h).2.2.length ≤ limit := by
  intro refs
  induction refs with
  | nil => intro limit h; exact Nat.zero_le _
  | cons r rs ih =>
    intro limit h
    cases limit with
    | zero => exact le_refl _
    | succ limit =>
      rw [releaseList]
      split_ifs
      · exact ih (limit + 1) h
      · dsimp only
        split_ifs
        · exact Nat.succ_le_succ (Nat.zero_le _)
        · exact Nat.succ_le_succ (ih limit _)

theorem releaseBuckets_length :
    ∀ (n b limit : ℕ) (h : CombiningHold α), (releaseBuckets n b limit h).2.length ≤ limit := by
  intro n
  induction n with
  | zero => intro b limit h; exact Nat.zero_le _
  | succ n ih =>
    intro b limit h
    have hlist := releaseList_length b (h.lists b) limit h
    rw [releaseBuckets]
    split_ifs
    · exact Nat.zero_le _
    · dsimp only
      split_ifs
      · exact hlist
      · have := ih (b + 1) (limit - (releaseList b (h.lists b) limit h).2.2.length)
          { (releaseList b (h.lists b) limit h).1 with
            lists := Function.update (releaseList b (h.lists b) limit h).1.lists b
              (releaseList b (h.lists b) limit h).2.1 }
        rw [List.length_append]
        exact Nat.add_le_of_le_sub' hlist this

theorem release_length (h : CombiningHold α) (high limit : ℤ) :
    (h.release high limit).2.length ≤ limit.toNat := by
  have := releaseBuckets_length (min high (h.bucketCount - 1) + 1 - h.lowest).toNat h.lowest
    limit.toNat h
  rw [release]
  dsimp only
  split_ifs <;> exact this

end CombiningHold

namespace Dest

theorem foldl_put_fits {n : ℕ} {β : Type*} (f : β → Item α) :
    ∀ (out : List β) (d : Dest α), d.Fits n → d.msgBuffer.next + out.length ≤ n →
      (out.foldl (fun d e => d.put (f e)) d).Fits n := by
  intro out
  induction out with
  | nil => intro d hd _; exact hd
  | cons e out ih =>
    intro d hd hlen
    rw [List.length_cons] at hlen
    exact ih _ (Sized.put ⟨hd, by omega⟩ (f e)) (by show d.msgBuffer.next + 1 + _ ≤ n; omega)

theorem foldl_put_next {β : Type*} (f : β → Item α) :
    ∀ (out : List β) (d : Dest α),
      (out.foldl (fun d e => d.put (f e)) d).msgBuffer.next = d.msgBuffer.next + out.length := by
  intro out
  induction out with
  | nil => intro d; rfl
  | cons e out ih =>
    intro d
    rw [List.foldl_cons, ih, List.length_cons]
    show d.msgBuffer.next + 1 + _ = _
    omega

theorem releaseInto_fits (cfg : Config α) (k : Knobs F) (high limit : ℤ) (filler : Bool) {n : ℕ}
    {d : Dest α} (hd : d.Fits n) (hlim : d.msgBuffer.next + limit.toNat ≤ n) :
    (d.releaseInto cfg k high limit filler).Fits n ∧
      (d.releaseInto cfg k high limit filler).msgBuffer.next ≤ d.msgBuffer.next + limit.toNat := by
  have hlen := d.hold.release_length high limit
  unfold releaseInto
  refine ⟨foldl_put_fits _ _ _ (hd.congr rfl rfl) ?_, ?_⟩
  · exact (Nat.add_le_add_left hlen _).trans hlim
  · rw [foldl_put_next]
    exact Nat.add_le_add_left hlen _

theorem releaseAdmitted_fits (cfg : Config α) {k : Knobs F} {d : Dest α} (hd : d.Sized k.bufSize) :
    (d.releaseAdmitted cfg k).Fits k.bufSize :=
  (releaseInto_fits cfg k _ _ false hd.toFits (by have := hd.lt; omega)).1

theorem releaseFullLoop_sized [ReleaseArith F] (cfg : Config α) (k : Knobs F) :
    ∀ (fuel : ℕ) (d : Dest α), d.Sized k.bufSize →
      (releaseFullLoop cfg k fuel d).Fits k.bufSize ∧
        ((releaseFullLoop cfg k fuel d).hold.stuck = false →
          (releaseFullLoop cfg k fuel d).Sized k.bufSize) := by
  intro fuel
  induction fuel with
  | zero => intro d hd; exact ⟨hd.toFits, fun _ => hd⟩
  | succ fuel ih =>
    intro d hd
    have hfits := releaseAdmitted_fits cfg hd
    rw [releaseFullLoop]
    dsimp only
    split_ifs with hge hstop
    · refine ⟨hfits, fun hs => ⟨hfits, ?_⟩⟩
      exact hstop.resolve_left (by simp [hs])
    · exact ih _ (hfits.uncount.shipBuffer hd.pos true)
    · exact ⟨hd.toFits, fun _ => hd⟩

theorem releaseFull_sized [ReleaseArith F] (cfg : Config α) {k : Knobs F} {d : Dest α}
    (hd : d.Sized k.bufSize) :
    (d.releaseFull cfg k).Fits k.bufSize ∧
      ((d.releaseFull cfg k).hold.stuck = false → (d.releaseFull cfg k).Sized k.bufSize) :=
  releaseFullLoop_sized cfg k _ d hd

theorem flushHeldLoop_sized (cfg : Config α) (k : Knobs F) :
    ∀ (fuel : ℕ) (d : Dest α), d.Sized k.bufSize →
      (flushHeldLoop cfg k fuel d).Fits k.bufSize ∧
        ((flushHeldLoop cfg k fuel d).hold.stuck = false →
          (flushHeldLoop cfg k fuel d).Sized k.bufSize) := by
  intro fuel
  induction fuel with
  | zero => intro d hd; exact ⟨hd.toFits, fun _ => hd⟩
  | succ fuel ih =>
    intro d hd
    have hfits := releaseAdmitted_fits cfg hd
    rw [flushHeldLoop]
    split_ifs with hstop
    · refine ⟨hfits, fun hs => ⟨hfits, ?_⟩⟩
      exact hstop.resolve_left (by simp [hs])
    · exact ih _ (hfits.uncount.shipBuffer hd.pos false)

theorem fillersHold_sized (cfg : Config α) {k : Knobs F} {d : Dest α} (hd : d.Sized k.bufSize) :
    (d.fillersHold cfg k).Sized k.bufSize := by
  unfold fillersHold
  split_ifs with hlt
  · obtain ⟨h1, h2⟩ := releaseInto_fits cfg k (cfg.histoBucketCount - 1)
      (k.bufSize / 2 - d.msgBuffer.next : ℕ) true hd.toFits (by omega)
    exact ⟨h1, by omega⟩
  · exact hd

theorem shipHeld_sized (cfg : Config α) {k : Knobs F} {d : Dest α} (hd : d.Sized k.bufSize) :
    (d.shipHeld cfg k).Sized k.bufSize := by
  have key : ∀ x : Dest α, x.Sized k.bufSize →
      (if x.hold.stuck then x else x.shipBuffer k false).Sized k.bufSize := by
    intro x hx
    split_ifs
    · exact hx
    · exact hx.shipBuffer hd.pos false
  unfold shipHeld
  split_ifs
  · exact hd
  · exact key _ (fillersHold_sized cfg hd.uncount)
  · exact key _ hd.uncount

theorem flushHold_sized (cfg : Config α) {k : Knobs F} {d : Dest α} (hd : d.Sized k.bufSize) :
    (d.flushHold cfg k).Fits k.bufSize ∧
      ((d.flushHold cfg k).hold.stuck = false → (d.flushHold cfg k).Sized k.bufSize) := by
  obtain ⟨hf, hs⟩ := flushHeldLoop_sized cfg k (d.hold.count + 1) d hd
  unfold flushHold
  dsimp only
  split_ifs with hstuck
  · exact ⟨hf, hs⟩
  · have := shipHeld_sized cfg (hs (by simpa using hstuck))
    exact ⟨this.toFits, fun _ => this⟩

theorem countInsert_sized (k : Knobs F) (r : InsertResult) {n : ℕ} {d : Dest α} (hd : d.Sized n) :
    (d.countInsert k r).Sized n := by
  unfold countInsert
  dsimp only
  split_ifs <;> exact hd.congr rfl rfl

theorem sendHold_sized [ReleaseArith F] [Inhabited α] (cfg : Config α) {k : Knobs F}
    (newUpdate : α) (neighborBucket : ℕ) {d : Dest α} (hd : d.Sized k.bufSize) :
    (d.sendHold cfg k newUpdate neighborBucket).Fits k.bufSize ∧
      ((d.sendHold cfg k newUpdate neighborBucket).hold.stuck = false →
        (d.sendHold cfg k newUpdate neighborBucket).Sized k.bufSize) := by
  have hins : ({ d with hold := (d.hold.insert cfg.ops newUpdate neighborBucket).1 } :
      Dest α).Sized k.bufSize := hd.congr rfl rfl
  have hcnt := countInsert_sized k (d.hold.insert cfg.ops newUpdate neighborBucket).2 hins
  unfold sendHold
  dsimp only
  split_ifs
  · exact ⟨hins.toFits, fun _ => hins⟩
  · exact releaseFull_sized cfg hcnt
  · exact ⟨hcnt.toFits, fun _ => hcnt⟩

/-! ## The bodies of the operations -/

theorem flushDest_sized (cfg : Config α) {k : Knobs F} {d : Dest α} (hd : d.Sized k.bufSize) :
    (d.flushDest cfg k).Fits k.bufSize ∧
      ((d.flushDest cfg k).hold.stuck = false → (d.flushDest cfg k).Sized k.bufSize) := by
  unfold flushDest
  split_ifs
  · exact flushHold_sized cfg hd
  · have : (d.flushQueue cfg k).Sized k.bufSize :=
      shipPartial_sized cfg (fun d hd => fillersDest_sized cfg hd) (drain_sized cfg hd)
    exact ⟨this.toFits, fun _ => this⟩

theorem releaseOver_sized [ReleaseArith F] (cfg : Config α) {k : Knobs F} {d : Dest α}
    (hd : d.Sized k.bufSize) : (d.releaseOver cfg k).Sized k.bufSize := by
  unfold releaseOver
  split_ifs
  · exact insertBucketsByDest_sized cfg _ hd
  · exact hd

theorem enqueue_sized {k : Knobs F} (newUpdate : α) (neighborBucket destProc : ℕ) {d : Dest α}
    (hd : d.Sized k.bufSize) : (d.enqueue k newUpdate neighborBucket destProc).Sized k.bufSize := by
  have hup : ({ d with updatesInTram := d.updatesInTram + 1 } : Dest α).Sized k.bufSize :=
    hd.congr rfl rfl
  unfold enqueue
  dsimp only
  split_ifs
  · exact hd.congr rfl rfl
  · exact hup.congr rfl rfl
  · exact insertValueWPsTo_sized hup _ _ _

theorem sendItem_sized [ReleaseArith F] [Inhabited α] (cfg : Config α) {k : Knobs F}
    (newUpdate : α) (neighborBucket destProc : ℕ) {d : Dest α} (hd : d.Sized k.bufSize) :
    (d.sendItem cfg k newUpdate neighborBucket destProc).Fits k.bufSize ∧
      ((d.sendItem cfg k newUpdate neighborBucket destProc).hold.stuck = false →
        (d.sendItem cfg k newUpdate neighborBucket destProc).Sized k.bufSize) := by
  unfold sendItem
  split_ifs
  · exact sendHold_sized cfg _ _ hd
  · have := releaseOver_sized cfg (enqueue_sized newUpdate neighborBucket destProc hd)
    exact ⟨this.toFits, fun _ => this⟩

theorem flushAll_sized (cfg : Config α) {k : Knobs F} (idleflush : Bool) {d : Dest α}
    (hd : d.Sized k.bufSize) : (d.flushAll cfg k idleflush).Sized k.bufSize := by
  have : (if idleflush then d else d.flushBuffer k).Sized k.bufSize := by
    split_ifs
    · exact hd
    · exact flushBuffer_sized hd
  exact shipPartial_sized cfg (fun d hd => fillersFlush_sized cfg hd) (drain_sized cfg this)

theorem tflush_sized (cfg : Config α) {k : Knobs F} (hk : k.agg ≠ .WsP) (idleflush : Bool)
    {d : Dest α} (hd : d.Sized k.bufSize) :
    (d.tflush cfg k idleflush).Fits k.bufSize ∧
      ((d.tflush cfg k idleflush).hold.stuck = false →
        (d.tflush cfg k idleflush).Sized k.bufSize) := by
  unfold tflush
  rw [if_neg hk]
  split_ifs
  · exact flushDest_sized cfg hd
  · have := flushAll_sized cfg idleflush hd
    exact ⟨this.toFits, fun _ => this⟩

theorem flushIfStale_sized (cfg : Config α) {k : Knobs F} {d : Dest α} (hd : d.Sized k.bufSize) :
    (d.flushIfStale cfg k).Fits k.bufSize ∧
      ((d.flushIfStale cfg k).hold.stuck = false → (d.flushIfStale cfg k).Sized k.bufSize) := by
  have key : ∀ x : Dest α, x.Fits k.bufSize ∧ (x.hold.stuck = false → x.Sized k.bufSize) →
      (if x.hold.stuck then x else { x with fullSends := 0 }).Fits k.bufSize ∧
        ((if x.hold.stuck then x else { x with fullSends := 0 }).hold.stuck = false →
          (if x.hold.stuck then x else { x with fullSends := 0 }).Sized k.bufSize) := by
    intro x hx
    split_ifs with hs
    · exact hx
    · exact ⟨hx.1.congr rfl rfl, fun h => (hx.2 h).congr rfl rfl⟩
  unfold flushIfStale
  refine key _ ?_
  split_ifs
  · exact flushDest_sized cfg hd
  · exact ⟨hd.toFits, fun _ => hd⟩

theorem flushIfAny_sized (cfg : Config α) {k : Knobs F} {d : Dest α} (hd : d.Sized k.bufSize) :
    (d.flushIfAny cfg k).Fits k.bufSize ∧
      ((d.flushIfAny cfg k).hold.stuck = false → (d.flushIfAny cfg k).Sized k.bufSize) := by
  unfold flushIfAny
  split_ifs
  · exact flushDest_sized cfg hd
  · exact ⟨hd.toFits, fun _ => hd⟩

theorem insertValue_sized (cfg : Config α) {k : Knobs F} (hk : k.agg ≠ .WsP) (value : α)
    (destPe rank : ℕ) {d : Dest α} (hd : d.Sized k.bufSize) :
    (d.insertValue cfg k value destPe rank).Sized k.bufSize := by
  unfold insertValue
  cases hagg : k.agg with
  | WsP => exact absurd hagg hk
  | WPs => exact hd.putShip _ true
  | WW =>
    dsimp only
    have hp := hd.put (⟨destPe, value, d.fill k none false⟩ : Item α)
    split_ifs with hfull
    · exact Fits.send (d := { (d.put ⟨destPe, value, d.fill k none false⟩).uncount with
        fullSends := (d.put ⟨destPe, value, d.fill k none false⟩).fullSends + 1 })
        (hp.congr rfl rfl) hd.pos
    · exact ⟨hp, lt_of_le_of_ne hp.le hfull⟩

theorem retuneQueue_sized (cfg : Config α) (old new : ℤ) {n : ℕ} {d : Dest α} (hd : d.Sized n) :
    (d.retuneQueue cfg old new).Sized n := by
  refine WordBits.forNext_inv ?_ _ _ _ hd
  intro i d hd
  exact hd.congr rfl rfl

theorem retune_sized (cfg : Config α) (k : Knobs F) (newThreshold : ℤ) {n : ℕ} {d : Dest α}
    (hd : d.Sized n) : (d.retune cfg k newThreshold).Sized n := by
  unfold retune
  split_ifs
  · exact hd.congr rfl rfl
  · exact retuneQueue_sized cfg _ _ hd
  · exact hd

theorem mergeBucket_same (i j : ℕ) :
    ∀ (fuel : ℕ) (d : Dest α), (mergeBucket i j fuel d).msgBuffer = d.msgBuffer ∧
      (mergeBucket i j fuel d).sent = d.sent := by
  intro fuel
  induction fuel with
  | zero => intro d; exact ⟨rfl, rfl⟩
  | succ fuel ih =>
    intro d
    rw [mergeBucket]
    cases (d.tramHold i).front with
    | none => exact ⟨rfl, rfl⟩
    | some item => exact ih _

theorem coarsen_sized (cfg : Config α) (k : Knobs F) (factor : ℕ) (keepTop : Bool) {n : ℕ}
    {d : Dest α} (hd : d.Sized n) : (d.coarsen cfg k factor keepTop).Sized n := by
  have hmerged : ∀ admitBelow, (d.admitMerged cfg k.tramThreshold admitBelow).Sized n := by
    intro admitBelow
    refine WordBits.forNext_inv ?_ _ _ _ hd
    intro i d hd
    exact hd.congr rfl rfl
  refine WordBits.forNext_inv ?_ _ _ _ (hmerged _)
  intro i d hd
  split_ifs
  · exact hd
  · obtain ⟨h1, h2⟩ := mergeBucket_same i (i / factor) (d.tramHold i).size d
    exact hd.congr h1 h2

/-- A buffer that fitted the old size fits the new one after `refit`. -/
theorem refit_sized {k : Knobs F} (hk : 0 < k.bufSize) {n : ℕ} {d : Dest α} (hd : d.Sized n) :
    (d.refit k).Sized k.bufSize := by
  have hcap := lt_of_lt_of_le hd.lt hd.cap
  unfold refit
  split_ifs with h1 h2
  · have hlt : d.msgBuffer.next < k.bufSize := lt_trans hcap h1
    refine ⟨⟨hlt.le, le_refl _, ⟨hd.sound.written, ?_⟩, hd.sentSound⟩, hlt⟩
    simp [HTramMessage.grow, hd.sound.inside, hlt.le]
  · exact (hd.toFits.uncount).shipBuffer hk true
  · exact ⟨⟨by omega, by omega, hd.sound, hd.sentSound⟩, by omega⟩

theorem resize_sized [ReleaseArith F] (cfg : Config α) {k : Knobs F} (hk : 0 < k.bufSize) {n : ℕ}
    {d : Dest α} (hd : d.Sized n) : (d.resize cfg k).Sized k.bufSize :=
  releaseOver_sized cfg (refit_sized hk hd)

theorem releaseAbove_sized [ReleaseArith F] (cfg : Config α) {k : Knobs F} {d : Dest α}
    (hd : d.Sized k.bufSize) :
    (d.releaseAbove cfg k).Fits k.bufSize ∧
      ((d.releaseAbove cfg k).hold.stuck = false → (d.releaseAbove cfg k).Sized k.bufSize) := by
  unfold releaseAbove
  split_ifs
  · exact releaseFull_sized cfg hd
  · have := insertBucketsByDest_sized cfg k.tramThreshold hd
    exact ⟨this.toFits, fun _ => this⟩
  · exact ⟨hd.toFits, fun _ => hd⟩

/-! ## Source-sorted messages -/

/-- The items of the node's `localBuffers`, in the order of the PEs. -/
def sorted (cfg : Config α) (d : Dest α) : List (Item α) :=
  (List.range cfg.nodeSize).flatMap d.localBuffers

/-- Under `WsP` the buffer counts the items that wait in `localBuffers`. -/
structure SortedSized (cfg : Config α) (n : ℕ) (d : Dest α) : Prop where
  lt : d.msgBuffer.next < n
  cap : n ≤ d.msgBuffer.cap
  count : (d.sorted cfg).length = d.msgBuffer.next
  inside : d.msgBuffer.overrun = false
  sentInside : ∀ s ∈ d.sent, s.msg.overrun = false

theorem sorted_insert (cfg : Config α) (d : Dest α) (x : Item α) {rank : ℕ}
    (hr : rank < cfg.nodeSize) :
    ((List.range cfg.nodeSize).flatMap
      (Function.update d.localBuffers rank (d.localBuffers rank ++ [x]))).length =
        (d.sorted cfg).length + 1 := by
  have key : ∀ l : List ℕ, l.Nodup →
      (l.flatMap (Function.update d.localBuffers rank (d.localBuffers rank ++ [x]))).length =
        (l.flatMap d.localBuffers).length + if rank ∈ l then 1 else 0 := by
    intro l
    induction l with
    | nil => intro _; rfl
    | cons r l ih =>
      intro hnd
      obtain ⟨hrl, hnd'⟩ := List.nodup_cons.mp hnd
      rw [List.flatMap_cons, List.flatMap_cons, List.length_append, List.length_append, ih hnd']
      by_cases he : r = rank
      · subst he
        rw [Function.update_self, List.length_append, if_neg hrl, if_pos (List.mem_cons_self ..)]
        simp only [List.length_singleton]
        omega
      · rw [Function.update_of_ne he]
        simp [Ne.symm he, Nat.add_assoc]
  rw [key _ List.nodup_range, if_pos (List.mem_range.mpr hr)]
  rfl

/-- Copying in the waiting items stays inside the message. -/
theorem shipSorted_sized {cfg : Config α} {k : Knobs F} {d : Dest α} (hk : 0 < k.bufSize)
    (hle : (d.sorted cfg).length ≤ d.msgBuffer.cap) (hin : d.msgBuffer.overrun = false)
    (hsent : ∀ s ∈ d.sent, s.msg.overrun = false) :
    (d.shipSorted cfg k).SortedSized cfg k.bufSize := by
  refine ⟨hk, le_refl _, ?_, rfl, ?_⟩
  · have : (List.range cfg.nodeSize).flatMap
        (fun r => if r < cfg.nodeSize then [] else d.localBuffers r) = [] := by
      rw [List.flatMap_eq_nil_iff]
      intro r hr
      rw [if_pos (List.mem_range.mp hr)]
    exact congrArg List.length this
  · intro s hs
    rcases List.mem_append.mp hs with hs | hs
    · exact hsent s hs
    · rw [List.mem_singleton.mp hs]
      show (d.msgBuffer.overrun || decide (d.msgBuffer.cap < (d.sorted cfg).length)) = false
      simp only [hin, Bool.false_or, decide_eq_false_iff_not, not_lt]
      exact hle

theorem insertSorted_sized {cfg : Config α} {k : Knobs F} {d : Dest α}
    (hd : d.SortedSized cfg k.bufSize) (x : Item α) {rank : ℕ} (hr : rank < cfg.nodeSize) :
    (d.insertSorted cfg k x rank).SortedSized cfg k.bufSize := by
  have hlen := sorted_insert cfg d x hr
  rw [hd.count] at hlen
  have hlt := hd.lt
  have hcap := hd.cap
  unfold insertSorted
  dsimp only
  split_ifs with hfull
  · exact shipSorted_sized (by omega) (by rw [sorted]; simp only; omega) hd.inside hd.sentInside
  · exact ⟨by simp only at hfull ⊢; omega, hd.cap, hlen, hd.inside, hd.sentInside⟩

theorem flushSorted_sized {cfg : Config α} {k : Knobs F} {d : Dest α}
    (hd : d.SortedSized cfg k.bufSize) (idleflush : Bool) :
    (d.flushSorted cfg k idleflush).SortedSized cfg k.bufSize := by
  have hlt := hd.lt
  have hcap := hd.cap
  unfold flushSorted
  split_ifs
  · exact hd
  · exact shipSorted_sized (by omega) (by rw [hd.count]; omega) hd.inside hd.sentInside

theorem sorted_eq_nil {cfg : Config α} {n : ℕ} {d : Dest α} (hd : d.SortedSized cfg n)
    (h0 : d.msgBuffer.next = 0) : d.sorted cfg = [] :=
  List.eq_nil_of_length_eq_zero (by rw [hd.count, h0])

end Dest

/-! ## Operations and runs -/

namespace Dest

/-- No item has been written at or past the capacity of its message. -/
def Inside (d : Dest α) : Prop :=
  d.msgBuffer.overrun = false ∧ ∀ s ∈ d.sent, s.msg.overrun = false

theorem Fits.inside {n : ℕ} {d : Dest α} (hd : d.Fits n) : d.Inside :=
  ⟨hd.sound.inside, fun s hs => (hd.sentSound s hs).inside⟩

/-- The invariant of a destination's buffer in each mode. -/
def Ok (cfg : Config α) (k : Knobs F) (d : Dest α) : Prop :=
  if k.agg = .WsP then k.combining = false ∧ d.SortedSized cfg k.bufSize else d.Sized k.bufSize

theorem ok_iff {cfg : Config α} {k : Knobs F} (hk : k.agg ≠ .WsP) {d : Dest α} :
    d.Ok cfg k ↔ d.Sized k.bufSize := by rw [Ok, if_neg hk]

theorem Ok.inside {cfg : Config α} {k : Knobs F} {d : Dest α} (hd : d.Ok cfg k) : d.Inside := by
  unfold Ok at hd
  split_ifs at hd
  · exact ⟨hd.2.inside, hd.2.sentInside⟩
  · exact hd.toFits.inside

theorem Ok.lt_cap {cfg : Config α} {k : Knobs F} {d : Dest α} (hd : d.Ok cfg k) :
    d.msgBuffer.next < k.bufSize ∧ k.bufSize ≤ d.msgBuffer.cap := by
  unfold Ok at hd
  split_ifs at hd
  · exact ⟨hd.2.lt, hd.2.cap⟩
  · exact ⟨hd.lt, hd.cap⟩

end Dest

namespace HTram

/-- The invariant of the buffers of a PE. -/
def BuffersOk (cfg : Config α) (p : HTram α F) : Prop :=
  ∀ d < p.destCount cfg, (p.dest d).Ok cfg p.knobs

/-- No item has been written at or past the capacity of its message. -/
def Inside (cfg : Config α) (p : HTram α F) : Prop :=
  ∀ d < p.destCount cfg, (p.dest d).Inside

/-- Every buffer has room for `bufSize` items and holds fewer. -/
def HasRoom (cfg : Config α) (p : HTram α F) : Prop :=
  ∀ d < p.destCount cfg, (p.dest d).msgBuffer.next < p.knobs.bufSize ∧
    p.knobs.bufSize ≤ (p.dest d).msgBuffer.cap

/-- What a call leaves: the mode and the invariant of the buffers. -/
def Kept (cfg : Config α) (p : HTram α F) (o : Outcome (HTram α F)) : Prop :=
  o.Holds (fun q => q.knobs.agg = p.knobs.agg ∧ q.BuffersOk cfg) fun q => q.Inside cfg

theorem forDest_kept {cfg : Config α} {p : HTram α F} (hp : p.BuffersOk cfg)
    {f : Dest α → Dest α}
    (hf : ∀ x : Dest α, x.Ok cfg p.knobs →
      (f x).Inside ∧ ((f x).hold.stuck = false → (f x).Ok cfg p.knobs)) :
    Kept cfg p (p.forDest cfg f) := by
  have h := eachDest_holds (fun x hx => Dest.Ok.inside hx) hf (List.range (p.destCount cfg)) p hp
    fun d hd => List.mem_range.mp hd
  unfold Kept forDest
  cases ho : eachDest f (List.range (p.destCount cfg)) p with
  | returns q =>
    rw [ho] at h
    obtain ⟨hk, hq⟩ := h
    refine ⟨by rw [hk], fun d hd => ?_⟩
    rw [destCount, hk] at hd
    rw [hk]
    exact hq d hd
  | aborts => trivial
  | hangs q =>
    rw [ho] at h
    obtain ⟨hk, hq⟩ := h
    intro d hd
    rw [destCount, hk] at hd
    exact hq d hd

/-- The same under `WPs` and `WW`, for a body that may hang. -/
theorem forDest_kept_sized {cfg : Config α} {p : HTram α F} (hagg : p.knobs.agg ≠ .WsP)
    (hp : p.BuffersOk cfg) {f : Dest α → Dest α}
    (hf : ∀ x : Dest α, x.Sized p.knobs.bufSize → (f x).Fits p.knobs.bufSize ∧
      ((f x).hold.stuck = false → (f x).Sized p.knobs.bufSize)) :
    Kept cfg p (p.forDest cfg f) := by
  refine forDest_kept hp fun x hx => ?_
  obtain ⟨h1, h2⟩ := hf x ((Dest.ok_iff hagg).mp hx)
  exact ⟨h1.inside, fun hs => (Dest.ok_iff hagg).mpr (h2 hs)⟩

theorem mapDest_buffersOk {cfg : Config α} {p : HTram α F} (hp : p.BuffersOk cfg)
    {k : Knobs F} (hagg : k.agg = p.knobs.agg) {f : Dest α → Dest α}
    (hf : ∀ x : Dest α, x.Ok cfg p.knobs → (f x).Ok cfg k) : (p.mapDest cfg k f).BuffersOk cfg := by
  intro d hd
  have hd : d < p.destCount cfg := by rw [destCount, ← hagg]; exact hd
  show (if d < p.destCount cfg then f (p.dest d) else p.dest d).Ok cfg k
  rw [if_pos hd]
  exact hf _ (hp d hd)

theorem setDest_buffersOk {cfg : Config α} {p : HTram α F} (hp : p.BuffersOk cfg) {d : ℕ}
    {x : Dest α} (hx : x.Ok cfg p.knobs) : (p.setDest d x).BuffersOk cfg := by
  intro d' hd'
  by_cases he : d' = d
  · subst he; simpa [setDest] using hx
  · simpa [setDest, Function.update_of_ne he] using hp d' hd'

theorem tflush_kept {cfg : Config α} {p : HTram α F} (hp : p.BuffersOk cfg) (idleflush : Bool) :
    Kept cfg p (p.tflush cfg idleflush) := by
  by_cases hagg : p.knobs.agg = .WsP
  · refine forDest_kept hp fun x hx => ?_
    have hx' := hx
    rw [Dest.Ok, if_pos hagg] at hx
    have hfl : (x.tflush cfg p.knobs idleflush).Ok cfg p.knobs := by
      rw [Dest.Ok, if_pos hagg, Dest.tflush, if_neg (by simp [hx.1]), if_pos hagg]
      exact ⟨hx.1, Dest.flushSorted_sized hx.2 idleflush⟩
    exact ⟨hfl.inside, fun _ => hfl⟩
  · exact forDest_kept_sized hagg hp fun x hx => Dest.tflush_sized cfg hagg idleflush hx

variable [ReleaseArith F]

theorem setBufferSize_kept {cfg : Config α} {p : HTram α F} (hp : p.BuffersOk cfg)
    (newSize : ℕ) : Kept cfg p (p.setBufferSize cfg newSize) := by
  unfold setBufferSize
  by_cases hrange : 0 < newSize ∧ newSize ≤ cfg.maxBufSize
  swap
  · rw [if_pos hrange]; trivial
  rw [if_neg (not_not.mpr hrange)]
  by_cases hsame : newSize = p.knobs.bufSize
  · rw [if_pos hsame]; exact ⟨rfl, hp⟩
  rw [if_neg hsame]
  by_cases hmode : ¬ p.knobs.combining ∧ p.knobs.agg ≠ .WsP
  · rw [if_pos hmode]
    refine ⟨rfl, mapDest_buffersOk (k := p.knobs.resized newSize) hp rfl fun x hx => ?_⟩
    rw [Dest.ok_iff hmode.2] at hx
    exact (Dest.ok_iff (k := p.knobs.resized newSize) hmode.2).mpr
      (Dest.resize_sized cfg hrange.1 hx)
  rw [if_neg hmode]
  by_cases hnext : ∃ d < p.destCount cfg, (p.dest d).msgBuffer.next ≠ 0
  · rw [if_pos hnext]; trivial
  rw [if_neg hnext]
  refine ⟨rfl, fun d hd => ?_⟩
  have hd : d < p.destCount cfg := hd
  have hok := hp d hd
  have h0 : (p.dest d).msgBuffer.next = 0 := by
    by_contra h
    exact hnext ⟨d, hd, h⟩
  have hdest : (p.mapDest cfg (p.knobs.resized newSize)
      fun d => { d with msgBuffer := newHTramMessage newSize }).dest d =
      { p.dest d with msgBuffer := newHTramMessage newSize } := if_pos hd
  rw [hdest]
  unfold Dest.Ok at hok ⊢
  simp only [mapDest, Knobs.resized]
  split_ifs at hok ⊢
  · exact ⟨hok.1, hrange.1, le_refl _, congrArg List.length (Dest.sorted_eq_nil hok.2 h0), rfl,
      hok.2.sentInside⟩
  · exact ⟨⟨Nat.zero_le _, le_refl _, newHTramMessage_sound _, hok.sentSound⟩, hrange.1⟩

theorem changeThreshold_kept {cfg : Config α} {p : HTram α F} (hagg : p.knobs.agg ≠ .WsP)
    (hp : p.BuffersOk cfg) (direct tram : ℤ) (selectivity : F) :
    Kept cfg p (p.changeThreshold cfg direct tram selectivity) := by
  unfold changeThreshold
  split_ifs
  · exact ⟨rfl, hp⟩
  · refine forDest_kept_sized
      (p := p.mapDest cfg (p.knobs.retuned direct tram selectivity) (Dest.retune cfg p.knobs tram))
      hagg (mapDest_buffersOk hp rfl fun x hx => ?_) fun x hx => Dest.releaseAbove_sized cfg hx
    rw [Dest.ok_iff hagg] at hx
    exact (Dest.ok_iff (k := p.knobs.retuned direct tram selectivity) hagg).mpr
      (Dest.retune_sized cfg _ _ hx)

theorem coarsenBuckets_kept {cfg : Config α} {p : HTram α F} (hagg : p.knobs.agg ≠ .WsP)
    (hp : p.BuffersOk cfg) (factor : ℤ) (keepTop : Bool) :
    Kept cfg p (p.coarsenBuckets cfg factor keepTop) := by
  unfold coarsenBuckets
  by_cases hf : factor < 2
  · rw [if_pos hf]; exact ⟨rfl, hp⟩
  rw [if_neg hf]
  by_cases hc : p.knobs.combining = true
  · rw [if_pos hc]; trivial
  rw [if_neg hc]
  refine forDest_kept_sized
    (p := p.mapDest cfg (p.knobs.coarsened factor.toNat)
      (Dest.coarsen cfg p.knobs factor.toNat keepTop))
    hagg (mapDest_buffersOk hp rfl fun x hx => ?_) fun x hx => Dest.releaseAbove_sized cfg hx
  rw [Dest.ok_iff hagg] at hx
  exact (Dest.ok_iff (k := p.knobs.coarsened factor.toNat) hagg).mpr
    (Dest.coarsen_sized cfg _ _ _ hx)

theorem sendItemPrioDeferredDestTo_kept [Inhabited α] {cfg : Config α} {p : HTram α F}
    (hagg : p.knobs.agg ≠ .WsP) (hp : p.BuffersOk cfg) (item : α) (bucket destProc : ℕ) :
    Kept cfg p (p.sendItemPrioDeferredDestTo cfg item bucket destProc) := by
  unfold sendItemPrioDeferredDestTo
  dsimp only
  split_ifs with hd
  · trivial
  · obtain ⟨hf, hs⟩ := Dest.sendItem_sized cfg item bucket destProc
      ((Dest.ok_iff hagg).mp (hp _ (not_le.mp hd)))
    unfold onDest
    split_ifs with hstuck
    · intro d hd'
      by_cases he : d = cfg.destOf p.knobs.agg destProc
      · subst he; simpa [setDest] using hf.inside
      · simpa [setDest, Function.update_of_ne he] using (hp d hd').inside
    · exact ⟨rfl, setDest_buffersOk hp ((Dest.ok_iff hagg).mpr (hs (by simpa using hstuck)))⟩

/-- One call keeps the invariant of the buffers. -/
theorem step_kept [Inhabited α] {cfg : Config α} {p : HTram α F} (hp : p.BuffersOk cfg)
    {op : Op α F} (hop : op.Covered cfg p.knobs.agg) : Kept cfg p (p.step cfg op) := by
  cases op with
  | send item bucket => exact sendItemPrioDeferredDestTo_kept hop hp item bucket _
  | sendTo item bucket destProc =>
    exact sendItemPrioDeferredDestTo_kept hop hp item bucket destProc
  | insertValue value destPe =>
    obtain ⟨hns, hd⟩ := hop
    refine ⟨rfl, setDest_buffersOk hp ?_⟩
    have hok := hp _ hd
    by_cases hagg : p.knobs.agg = .WsP
    · rw [Dest.Ok, if_pos hagg] at hok ⊢
      simp only [Dest.insertValue, hagg] at hok ⊢
      exact ⟨hok.1, Dest.insertSorted_sized hok.2 _ (Nat.mod_lt _ (Nat.pos_of_ne_zero hns))⟩
    · rw [Dest.ok_iff hagg] at hok ⊢
      exact Dest.insertValue_sized cfg hagg value destPe _ hok
  | insertValueWPs value destPe =>
    obtain ⟨hagg, hd⟩ := hop
    refine ⟨rfl, setDest_buffersOk hp ?_⟩
    have hok := hp _ hd
    rw [Dest.ok_iff hagg] at hok ⊢
    exact Dest.insertValueWPsTo_sized hok value destPe none
  | changeThreshold direct tram selectivity => exact changeThreshold_kept hop hp _ _ _
  | coarsenBuckets k keepTop => exact coarsenBuckets_kept hop hp k keepTop
  | setBufferSize newSize => exact setBufferSize_kept hp newSize
  | tflush idleflush => exact tflush_kept hp idleflush
  | flushStale =>
    have hagg : p.knobs.agg ≠ .WsP := hop
    rw [step, flushStale, if_pos hagg]
    exact forDest_kept_sized hagg hp fun x hx => Dest.flushIfStale_sized cfg hx
  | flushIdle elapsed =>
    have hagg : p.knobs.agg ≠ .WsP := hop
    rw [step, flushIdle]
    split_ifs
    · exact forDest_kept_sized hagg hp fun x hx => Dest.flushIfAny_sized cfg hx
    · exact ⟨rfl, hp⟩

theorem run_kept [Inhabited α] {cfg : Config α} :
    ∀ (ops : List (Op α F)) (p : HTram α F), p.BuffersOk cfg →
      (∀ op ∈ ops, op.Covered cfg p.knobs.agg) → Kept cfg p (p.run cfg ops) := by
  intro ops
  induction ops with
  | nil => intro p hp _; exact ⟨rfl, hp⟩
  | cons op ops ih =>
    intro p hp hops
    have hstep := step_kept hp (hops op (List.mem_cons_self ..))
    refine Outcome.Holds.andThen hstep fun q ⟨hagg, hq⟩ => ?_
    have := ih q hq fun op' h => by rw [hagg]; exact hops op' (List.mem_cons_of_mem _ h)
    rwa [Kept, hagg] at this

theorem init_buffersOk [Inhabited α] (cfg : Config α) (agg : Agg) {bufSize : ℕ}
    (hpos : 0 < bufSize) : (init agg bufSize : HTram α F).BuffersOk cfg := by
  intro d hd
  unfold Dest.Ok
  split_ifs
  · refine ⟨rfl, hpos, le_refl bufSize, ?_, rfl, by simp [init, Dest.init]⟩
    have hnone : ∀ r, ((init agg bufSize : HTram α F).dest d).localBuffers r = [] := fun _ => rfl
    rw [Dest.sorted, List.flatMap_eq_nil_iff.mpr fun r _ => hnone r]
    rfl
  · exact Dest.init_sized hpos

omit [ReleaseArith F] in
theorem enableCombining_kept [Inhabited α] {cfg : Config α} {p : HTram α F}
    (hp : p.BuffersOk cfg) : Kept cfg p (p.enableCombining cfg) := by
  unfold enableCombining
  split_ifs with hagg
  · trivial
  · exact ⟨rfl, hp⟩
  · trivial
  · refine ⟨rfl, fun d hd => ?_⟩
    exact (Dest.ok_iff (k := { p.knobs with combining := true }) hagg).mpr
      (((Dest.ok_iff hagg).mp (hp d hd)).congr rfl rfl)

theorem opened_kept [Inhabited α] {cfg : Config α} {agg : Agg} {bufSize : ℕ} (hpos : 0 < bufSize)
    (combining : Bool) {pre : List (Op α F)} (hpre : ∀ op ∈ pre, op.Covered cfg agg) :
    Kept cfg (init agg bufSize) (opened cfg agg bufSize pre combining) := by
  have hrun := run_kept pre _ (init_buffersOk cfg agg (F := F) hpos) hpre
  refine Outcome.Holds.andThen hrun fun p ⟨hagg, hp⟩ => ?_
  split_ifs
  · have := enableCombining_kept hp
    rwa [Kept, hagg] at this
  · exact ⟨hagg, hp⟩

/-- After every operation that returns each buffer has room for `bufSize` items and
    holds fewer, and no operation, whether it returns or hangs, writes an item at or
    past the capacity of its message. -/
theorem session_capacity [Inhabited α] (cfg : Config α) (agg : Agg) {bufSize : ℕ}
    (hpos : 0 < bufSize) (combining : Bool) {pre ops : List (Op α F)}
    (hpre : ∀ op ∈ pre, op.Covered cfg agg) (hops : ∀ op ∈ ops, op.Covered cfg agg) :
    (session cfg agg bufSize pre combining ops).Holds
      (fun p => p.HasRoom cfg ∧ p.Inside cfg) fun p => p.Inside cfg := by
  have hkept : Kept cfg (init agg bufSize) (session cfg agg bufSize pre combining ops) := by
    refine Outcome.Holds.andThen (opened_kept hpos combining hpre) fun p ⟨hagg, hp⟩ => ?_
    have := run_kept ops p hp fun op h => by rw [hagg]; exact hops op h
    rwa [Kept, hagg] at this
  unfold Kept at hkept
  cases ho : session cfg agg bufSize pre combining ops with
  | returns p =>
    rw [ho] at hkept
    exact ⟨fun d hd => (hkept.2 d hd).lt_cap, fun d hd => (hkept.2 d hd).inside⟩
  | aborts => trivial
  | hangs p => rw [ho] at hkept; exact hkept

/-- A run in which buffers of 2 grow to 4 and fill up to 3, are made smaller and fill again. -/
def resizes : List (Op KeyValue ℚ) :=
  [.insertValue ⟨1, 3⟩ 0, .setBufferSize 4, .insertValue ⟨2, 3⟩ 0, offer 3 0,
    .setBufferSize 2, .insertValue ⟨4, 3⟩ 0, offer 5 0, offer 1 7]

/-- Shrinking the buffer ships its 3 items at once. -/
theorem session_capacity_two :
    ∃ p : HTram KeyValue ℚ, session oneNode .WPs 2 [] false resizes = .returns p ∧
      (p.dest 0).sent.map (fun s => s.msg.next) = [3, 2] ∧ p.HasRoom oneNode ∧
      p.Inside oneNode := by
  have hroom : (session oneNode .WPs 2 [] false resizes).Holds
      (fun p => p.HasRoom oneNode ∧ p.Inside oneNode) fun p => p.Inside oneNode := by
    refine session_capacity oneNode .WPs (by decide) false (by simp) ?_
    simp [resizes, offer, Op.Covered, oneNode, Config.destOf, Config.nodeOf, Config.destCount]
  obtain ⟨p, hp, hsent⟩ := Outcome.of_check
    (P := fun p : HTram KeyValue ℚ => (p.dest 0).sent.map (fun s => s.msg.next) = [3, 2])
    (o := session oneNode .WPs 2 [] false resizes) (by decide +kernel)
  rw [hp] at hroom
  exact ⟨p, hp, hsent, hroom⟩

end HTram

end Htram
