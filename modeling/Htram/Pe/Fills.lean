import Htram.Common.Packing
import Htram.Pe.LaneGate
import Htram.Pe.LaneItems
import Htram.Pe.QueuedFlush

/-!
# What the loops put into the buffer

With combining off, the loops that move items from the queues put them into the buffer
one after the other and ship each buffer that is full then. `Dest.Packs` says what this
does to the messages and the counts, `Dest.Takes` which items of a queue are moved.

* `insertBucket_takes`: one bucket in `insertBucketsByDest`, up to the `break`.
* `drain_packs`: the drain of both flushes.
* `shipPartial_ends`: the end of both flushes.
-/

namespace Htram

variable {α F : Type*}

/-- The item was taken from bucket `i` while the other buckets were as in `d`. -/
structure Item.From (cfg : Config α) (d : Dest α) (filler : Bool) (i : ℕ) (x : Item α) :
    Prop where
  destPe : x.destPe = cfg.getDestProc x.payload
  bucket : x.fill.bucket = some i
  filler_eq : x.fill.filler = filler
  held : ∀ c ≠ i, x.fill.held c = (d.queues c).length

namespace Dest

/-- The messages and the buffer, as packages of items. -/
def store (d : Dest α) : Packing.Store (Item α) :=
  ⟨d.sent.map fun s => s.msg.items, d.msgBuffer.items⟩

/-- `updates_in_tram[d]` once `m` more items have been put into the buffer. -/
def countAfter (k : Knobs F) (d : Dest α) (m : ℕ) : ℤ :=
  d.updatesInTram - k.bufSize * ((d.msgBuffer.next + m) / k.bufSize : ℕ)

/-- `d'` is `d` after the items `xs` have been put into the buffer, one after the other,
    each full buffer having been shipped. -/
structure Packs (k : Knobs F) (d d' : Dest α) (xs : List (Item α)) : Prop where
  store_eq : d'.store = d.store.putAll k.bufSize xs
  updates : d'.updatesInTram = d.countAfter k xs.length
  total : d'.totSendCount =
    d.totSendCount + k.bufSize * ((d.msgBuffer.next + xs.length) / k.bufSize)

theorem Sized.store_rest {n : ℕ} {d : Dest α} (hd : d.Sized n) :
    d.store.rest.length = d.msgBuffer.next := hd.sound.written

theorem Sized.store_lt {n : ℕ} {d : Dest α} (hd : d.Sized n) : d.store.rest.length < n :=
  hd.store_rest.trans_lt hd.lt

section Packs

variable {k : Knobs F} {d d' d'' : Dest α} {xs ys : List (Item α)}

theorem Packs.nil (hd : d.Sized k.bufSize) : Packs k d d [] := by
  have hdiv : (d.msgBuffer.next + ([] : List (Item α)).length) / k.bufSize = 0 :=
    Nat.div_eq_of_lt hd.lt
  refine ⟨rfl, ?_, ?_⟩
  · unfold countAfter
    rw [hdiv]
    omega
  · rw [hdiv]
    omega

theorem Packs.next (hd : d.Sized k.bufSize) (hd' : d'.Sized k.bufSize) (hp : Packs k d d' xs) :
    d'.msgBuffer.next = (d.msgBuffer.next + xs.length) % k.bufSize := by
  rw [← hd'.store_rest, hp.store_eq, Packing.Store.length_putAll_rest hd.store_lt, hd.store_rest]

theorem Packs.stream (hp : Packs k d d' xs) : d'.store.stream = d.store.stream ++ xs := by
  rw [hp.store_eq, Packing.Store.putAll_stream]

/-- The packages filled by `n` items and then by `m` more. -/
theorem div_add_div {r b : ℕ} (hb : 0 < b) (n m : ℕ) :
    (r + n) / b + ((r + n) % b + m) / b = (r + (n + m)) / b := by
  have h := Nat.div_add_mod (r + n) b
  have hsplit : r + (n + m) = (r + n) % b + m + (r + n) / b * b := by
    rw [Nat.mul_comm] at h
    omega
  rw [hsplit, Nat.add_mul_div_right _ _ hb, Nat.add_comm]

theorem Packs.countAfter (hd : d.Sized k.bufSize) (hd' : d'.Sized k.bufSize)
    (hp : Packs k d d' xs) (m : ℕ) : d'.countAfter k m = d.countAfter k (xs.length + m) := by
  have hdiv := div_add_div (r := d.msgBuffer.next) hd.pos xs.length m
  unfold Dest.countAfter
  rw [hp.updates, hp.next hd hd', ← hdiv]
  unfold Dest.countAfter
  push_cast
  rw [mul_add]
  omega

theorem Packs.trans (hd : d.Sized k.bufSize) (hd' : d'.Sized k.bufSize) (h1 : Packs k d d' xs)
    (h2 : Packs k d' d'' ys) : Packs k d d'' (xs ++ ys) := by
  refine ⟨?_, ?_, ?_⟩
  · rw [h2.store_eq, h1.store_eq, Packing.Store.putAll_append]
  · rw [h2.updates, h1.countAfter hd hd', List.length_append]
  · rw [h2.total, h1.total, h1.next hd hd', List.length_append,
      ← div_add_div hd.pos xs.length ys.length, Nat.mul_add, Nat.add_assoc]

/-- One item, and the message if the buffer is full then. -/
theorem putShip_packs (hd : d.Sized k.bufSize) (x : Item α) (full : Bool) :
    Packs k d (if (d.put x).msgBuffer.next = k.bufSize then (d.put x).uncount.shipBuffer k full
      else d.put x) [x] := by
  have hlen : (d.store.rest).length = d.msgBuffer.next := hd.store_rest
  have hnext : (d.put x).msgBuffer.next = d.msgBuffer.next + 1 := rfl
  have hlt := hd.lt
  split_ifs with hfull
  · rw [hnext] at hfull
    have hdiv : (d.msgBuffer.next + 1) / k.bufSize = 1 := by
      rw [hfull, Nat.div_self hd.pos]
    refine ⟨?_, ?_, ?_⟩
    · rw [Packing.Store.putAll_singleton, Packing.Store.put, if_pos (by rw [hlen, hfull])]
      refine Packing.Store.ext ?_ rfl
      show (d.sent ++ [_]).map _ = _
      rw [List.map_append]
      rfl
    · unfold Dest.countAfter
      rw [List.length_singleton, hdiv]
      show d.updatesInTram - ((d.msgBuffer.next + 1 : ℕ) : ℤ) = _
      rw [hfull]
      omega
    · rw [List.length_singleton, hdiv, Nat.mul_one, ← hfull]
      rfl
  · rw [hnext] at hfull
    have hdiv : (d.msgBuffer.next + 1) / k.bufSize = 0 := Nat.div_eq_of_lt (by omega)
    refine ⟨?_, ?_, ?_⟩
    · rw [Packing.Store.putAll_singleton, Packing.Store.put, if_neg (by rw [hlen]; exact hfull)]
      rfl
    · unfold Dest.countAfter
      rw [List.length_singleton, hdiv]
      show d.updatesInTram = _
      omega
    · rw [List.length_singleton, hdiv]
      rfl

end Packs

/-- The items that have entered the buffer since `d`, in order. -/
def moved (d d' : Dest α) : List (Item α) := d'.store.stream.drop d.store.stream.length

theorem Packs.moved {k : Knobs F} {d d' : Dest α} {xs : List (Item α)} (hp : Packs k d d' xs) :
    moved d d' = xs := by
  unfold Dest.moved
  rw [hp.stream, List.drop_left]

/-- The items held up to bucket `high`, by bucket and then in order of arrival. -/
def heldUpTo (high : ℤ) (d : Dest α) : List α := (List.range (high + 1).toNat).flatMap d.queues

/-! ## One bucket -/

/-- `d'` is `d` after the items `xs`, the first ones of queue `i`, have been put into the
    buffer. -/
structure Takes (cfg : Config α) (k : Knobs F) (filler : Bool) (i : ℕ) (d d' : Dest α)
    (xs : List (Item α)) : Prop extends Packs k d d' xs where
  queues_eq : ∀ c, d'.queues c = if c = i then (d.queues i).drop xs.length else d.queues c
  payloads : xs.map Item.payload = (d.queues i).take xs.length
  from_bucket : ∀ x ∈ xs, x.From cfg d filler i

theorem Takes.nil (cfg : Config α) {k : Knobs F} (filler : Bool) (i : ℕ) {d : Dest α}
    (hd : d.Sized k.bufSize) : Takes cfg k filler i d d [] := by
  refine ⟨.nil hd, fun c => ?_, rfl, by simp⟩
  split_ifs with h
  · rw [h]; rfl
  · rfl

theorem Takes.length_le {cfg : Config α} {k : Knobs F} {filler : Bool} {i : ℕ} {d d' : Dest α}
    {xs : List (Item α)} (ht : Takes cfg k filler i d d' xs) :
    xs.length ≤ (d.queues i).length := by
  have h := congrArg List.length ht.payloads
  rw [List.length_map, List.length_take] at h
  omega

theorem Takes.trans {cfg : Config α} {k : Knobs F} {filler : Bool} {i : ℕ} {d d' d'' : Dest α}
    {xs ys : List (Item α)} (hd : d.Sized k.bufSize) (hd' : d'.Sized k.bufSize)
    (h1 : Takes cfg k filler i d d' xs) (h2 : Takes cfg k filler i d' d'' ys) :
    Takes cfg k filler i d d'' (xs ++ ys) := by
  have hi : d'.queues i = (d.queues i).drop xs.length := by rw [h1.queues_eq, if_pos rfl]
  refine ⟨h1.toPacks.trans hd hd' h2.toPacks, fun c => ?_, ?_, fun x hx => ?_⟩
  · rw [h2.queues_eq, hi, List.drop_drop, List.length_append]
    by_cases hc : c = i
    · rw [if_pos hc, if_pos hc]
    · rw [if_neg hc, if_neg hc, h1.queues_eq, if_neg hc]
  · rw [List.map_append, h1.payloads, h2.payloads, hi, List.length_append, List.take_add]
  · rcases List.mem_append.mp hx with hx | hx
    · exact h1.from_bucket x hx
    · obtain ⟨h3, h4, h5, h6⟩ := h2.from_bucket x hx
      refine ⟨h3, h4, h5, fun c hc => ?_⟩
      rw [h6 c hc, h1.queues_eq, if_neg hc]

theorem front_queues {d : Dest α} {i : ℕ} {item : α} (h : (d.tramHold i).front = some item) :
    ∃ rest, d.queues i = item :: rest := by
  rw [HoldQueue.front_eq_head?] at h
  exact ⟨_, (List.head?_eq_some_iff.mp h).choose_spec⟩

/-- What is taken from the front of queue `i`. -/
theorem take_from (cfg : Config α) {k : Knobs F} (hk : k.combining = false) (d : Dest α) (i : ℕ)
    (item : α) (filler : Bool) :
    (⟨cfg.getDestProc item, item, d.fill k (some i) filler⟩ : Item α).From cfg d filler i := by
  refine ⟨rfl, rfl, rfl, fun c _ => ?_⟩
  unfold fill heldSizes
  rw [hk]
  exact HoldQueue.size_eq_length _

theorem pop_queues {d d' : Dest α} {i : ℕ} {item : α} {rest : List α}
    (hlist : d.queues i = item :: rest)
    (hq : d'.tramHold = Function.update d.tramHold i (d.tramHold i).pop) (c : ℕ) :
    d'.queues c = if c = i then rest else d.queues c := by
  unfold queues at hlist ⊢
  rw [hq]
  by_cases hc : c = i
  · subst hc
    rw [Function.update_self, HoldQueue.toList_pop, hlist, if_pos rfl]
    rfl
  · rw [Function.update_of_ne hc, if_neg hc]

/-- One item is taken from the front of queue `i`. -/
theorem take_takes (cfg : Config α) {k : Knobs F} (hk : k.combining = false) {d e : Dest α}
    {i : ℕ} {item : α} (hfront : (d.tramHold i).front = some item) (hd : d.Sized k.bufSize)
    (hq : e.tramHold = Function.update d.tramHold i (d.tramHold i).pop)
    (hrest : e = { d with tramHold := e.tramHold, holdBits := e.holdBits }) (full : Bool)
    {x : Item α} (hx : x = ⟨cfg.getDestProc item, item, d.fill k (some i) false⟩) :
    Takes cfg k false i d
      (if (e.put x).msgBuffer.next = k.bufSize then (e.put x).uncount.shipBuffer k full
        else e.put x) [x] := by
  obtain ⟨rest, hlist⟩ := front_queues hfront
  have hsized : e.Sized k.bufSize := by rw [hrest]; exact hd.congr rfl rfl
  have hqueues := pop_queues hlist hq
  have hpacks := putShip_packs hsized x full
  have hstays : ∀ d' : Dest α, d' = (if (e.put x).msgBuffer.next = k.bufSize then
      (e.put x).uncount.shipBuffer k full else e.put x) → d'.queues = e.queues := by
    rintro d' rfl
    split_ifs <;> rfl
  have hkept := hstays _ rfl
  generalize (if (e.put x).msgBuffer.next = k.bufSize then _ else _ : Dest α) = d' at *
  refine ⟨⟨?_, ?_, ?_⟩, fun c => ?_, ?_, fun y hy => ?_⟩
  · rw [hpacks.store_eq, hrest]; rfl
  · rw [hpacks.updates, hrest]; rfl
  · rw [hpacks.total, hrest]
  · rw [hkept, hqueues, hlist]
    rfl
  · rw [hlist, hx]; rfl
  · rw [List.mem_singleton.mp hy, hx]
    exact take_from cfg hk d i item false

section OneBucket

variable (cfg : Config α) {k : Knobs F} (hk : k.combining = false) {i : ℕ}
include hk

/-- The drain of one bucket. -/
theorem drainBucket_takes :
    ∀ (fuel : ℕ) (d : Dest α), d.Sized k.bufSize → (d.tramHold i).size ≤ fuel →
      ∃ xs, Takes cfg k false i d (drainBucket cfg k i fuel d) xs ∧
        xs.length = (d.queues i).length := by
  intro fuel
  induction fuel with
  | zero =>
    intro d hd hsize
    rw [HoldQueue.size_eq_length] at hsize
    exact ⟨[], .nil cfg false i hd, (Nat.le_zero.mp hsize).symm⟩
  | succ fuel ih =>
    intro d hd hsize
    rw [drainBucket]
    cases hfront : (d.tramHold i).front with
    | none =>
      rw [HoldQueue.front_eq_head?, List.head?_eq_none_iff] at hfront
      exact ⟨[], .nil cfg false i hd, by unfold queues; rw [hfront]; rfl⟩
    | some item =>
      dsimp only
      obtain ⟨rest, hlist⟩ := front_queues hfront
      have hpop : (d.holdPop i).Sized k.bufSize := hd.congr rfl rfl
      have htakes := take_takes cfg hk hfront hd (e := d.holdPop i) rfl rfl false rfl
      have hsized := hpop.putShip (⟨cfg.getDestProc item, item,
        d.fill k (some i) false⟩ : Item α) false
      generalize (if (((d.holdPop i).put ⟨cfg.getDestProc item, item,
        d.fill k (some i) false⟩).msgBuffer.next = k.bufSize) then _ else _ : Dest α) = d₁ at *
      have hqueue : d₁.queues i = rest := by rw [htakes.queues_eq, if_pos rfl, hlist]; rfl
      have hlen : (d.tramHold i).size = rest.length + 1 := by
        rw [HoldQueue.size_eq_length]
        exact congrArg List.length hlist
      obtain ⟨xs, hxs, hall⟩ := ih d₁ hsized (by
        rw [HoldQueue.size_eq_length]
        show (d₁.queues i).length ≤ fuel
        rw [hqueue]
        omega)
      refine ⟨_, htakes.trans hd hsized hxs, ?_⟩
      rw [List.length_append, hall, hqueue, hlist, List.length_singleton, List.length_cons]
      omega

/-- One bucket in `insertBucketsByDest`: the loop takes an item, and goes on until the
    bucket is empty or the count has fallen below the release level. -/
theorem insertBucket_takes [ReleaseArith F] :
    ∀ (fuel : ℕ) (d : Dest α), d.Sized k.bufSize → (d.tramHold i).size ≤ fuel →
      ∃ xs, Takes cfg k false i d (insertBucket cfg k i fuel d) xs ∧
        (d.queues i ≠ [] → xs ≠ []) ∧
        (xs.length < (d.queues i).length →
          ReleaseArith.lt (d.countAfter k xs.length) k.releaseLevel = true) ∧
        ∀ m, 0 < m → m < xs.length →
          ReleaseArith.lt (d.countAfter k m) k.releaseLevel = false := by
  intro fuel
  induction fuel with
  | zero =>
    intro d hd hsize
    rw [HoldQueue.size_eq_length] at hsize
    have hnil : d.queues i = [] := List.length_eq_zero_iff.mp (Nat.le_zero.mp hsize)
    refine ⟨[], .nil cfg false i hd, fun h => absurd hnil h, fun h => ?_, fun m _ h => ?_⟩
    · rw [hnil] at h; cases h
    · cases h
  | succ fuel ih =>
    intro d hd hsize
    rw [insertBucket]
    cases hfront : (d.tramHold i).front with
    | none =>
      rw [HoldQueue.front_eq_head?, List.head?_eq_none_iff] at hfront
      have hnil : d.queues i = [] := hfront
      refine ⟨[], .nil cfg false i hd, fun h => absurd hnil h, fun h => ?_, fun m _ h => ?_⟩
      · rw [hnil] at h; cases h
      · cases h
    | some item =>
      dsimp only
      obtain ⟨rest, hlist⟩ := front_queues hfront
      have hpop := holdTake_sized hd i
      have htakes := take_takes cfg hk hfront hd (e := d.holdTake i)
        (by rw [holdTake_eq]) (by rw [holdTake_eq]) true rfl
      have hsized := hpop.putShip (⟨cfg.getDestProc item, item,
        d.fill k (some i) false⟩ : Item α) true
      generalize (if (((d.holdTake i).put ⟨cfg.getDestProc item, item,
        d.fill k (some i) false⟩).msgBuffer.next = k.bufSize) then _ else _ : Dest α) = d₁ at *
      have hcount : d₁.updatesInTram = d.countAfter k 1 := htakes.updates
      split_ifs with hstop
      · refine ⟨_, htakes, fun _ => by simp, fun _ => ?_, fun m h0 h1 => ?_⟩
        · rw [List.length_singleton, ← hcount]
          exact hstop
        · rw [List.length_singleton] at h1
          omega
      · have hqueue : d₁.queues i = rest := by rw [htakes.queues_eq, if_pos rfl, hlist]; rfl
        have hlen : (d.tramHold i).size = rest.length + 1 := by
          rw [HoldQueue.size_eq_length]
          exact congrArg List.length hlist
        obtain ⟨xs, hxs, -, hbelow, habove⟩ := ih d₁ hsized (by
          rw [HoldQueue.size_eq_length]
          show (d₁.queues i).length ≤ fuel
          rw [hqueue]
          omega)
        have hshift := htakes.toPacks.countAfter hd hsized
        rw [List.length_singleton] at hshift
        refine ⟨_, htakes.trans hd hsized hxs, fun _ => by simp, fun h => ?_, fun m h0 h1 => ?_⟩
        · rw [List.length_append, List.length_singleton, ← hshift]
          refine hbelow ?_
          rw [List.length_append, List.length_singleton, hlist, List.length_cons] at h
          rw [hqueue]
          omega
        · rw [List.length_append, List.length_singleton] at h1
          rcases Nat.lt_or_ge 1 m with hm | hm
          · have := habove (m - 1) (by omega) (by omega)
            rwa [hshift, Nat.add_sub_cancel' hm.le] at this
          · obtain rfl : m = 1 := by omega
            rw [← hcount]
            simpa using hstop

end OneBucket

/-! ## The drain -/

/-- Buckets that are empty do not matter to the items held below. -/
theorem flatMap_range_skip {β : Type*} {f : ℕ → List β} {a b : ℕ} (hab : a ≤ b)
    (h : ∀ c, a ≤ c → c < b → f c = []) :
    (List.range b).flatMap f = (List.range a).flatMap f := by
  induction b with
  | zero => rw [Nat.le_zero.mp hab]
  | succ b ih =>
    rcases Nat.eq_or_lt_of_le hab with he | hlt
    · rw [he]
    · rw [List.range_succ, List.flatMap_append, ih (by omega) fun c h1 h2 => h c h1 (by omega),
        List.flatMap_singleton, h b (by omega) (by omega), List.append_nil]

/-- The end of the drain. -/
theorem drained_end {cfg : Config α} {k : Knobs F} {d s : Dest α} {start : ℕ}
    {xs : List (Item α)} (hle : start ≤ (k.tramThreshold + 1).toNat)
    (hqueues : ∀ c, s.queues c = if c < start then [] else d.queues c)
    (hpacks : Packs k d s xs)
    (hpayloads : xs.map Item.payload = (List.range start).flatMap d.queues)
    (hxs : ∀ x ∈ xs, x.destPe = cfg.getDestProc x.payload ∧ x.fill.filler = false)
    (hempty : ∀ c : ℕ, start ≤ c → (c : ℤ) ≤ k.tramThreshold → s.queues c = []) :
    ∃ xs, Packs k d s xs ∧ xs.map Item.payload = d.heldUpTo k.tramThreshold ∧
      (∀ x ∈ xs, x.destPe = cfg.getDestProc x.payload ∧ x.fill.filler = false) ∧
      ∀ c : ℕ, s.queues c = if (c : ℤ) ≤ k.tramThreshold then [] else d.queues c := by
  have hrest : ∀ c : ℕ, start ≤ c → c < (k.tramThreshold + 1).toNat → d.queues c = [] := by
    intro c hc hct
    have := hqueues c
    rw [if_neg (by omega)] at this
    rw [← this]
    exact hempty c hc (by omega)
  refine ⟨xs, hpacks, ?_, hxs, fun c => ?_⟩
  · rw [hpayloads, heldUpTo, flatMap_range_skip hle hrest]
  · split_ifs with hc
    · rcases Nat.lt_or_ge c start with h | h
      · rw [hqueues, if_pos h]
      · exact hempty c h hc
    · rw [hqueues, if_neg (by omega)]

/-- What both flushes do first: the items held up to the threshold are put into the buffer,
    by bucket and then in order of arrival. -/
theorem drain_packs (cfg : Config α) {k : Knobs F} (hk : k.combining = false) {d : Dest α}
    (hd : d.Queued cfg k) :
    ∃ xs, Packs k d (d.drain cfg k) xs ∧ xs.map Item.payload = d.heldUpTo k.tramThreshold ∧
      (∀ x ∈ xs, x.destPe = cfg.getDestProc x.payload ∧ x.fill.filler = false) ∧
      ∀ c : ℕ, (d.drain cfg k).queues c = if (c : ℤ) ≤ k.tramThreshold then [] else d.queues c := by
  set n := (k.tramThreshold + 1).toNat with hn
  refine WordBits.forNext_rule (n := cfg.histoBucketCount)
    (P := fun start (s : Dest α) => start ≤ n ∧ s.Queued cfg k ∧
      (∀ c, s.queues c = if c < start then [] else d.queues c) ∧
      ∃ xs, Packs k d s xs ∧ xs.map Item.payload = (List.range start).flatMap d.queues ∧
        ∀ x ∈ xs, x.destPe = cfg.getDestProc x.payload ∧ x.fill.filler = false)
    (Q := fun s : Dest α => ∃ xs, Packs k d s xs ∧
      xs.map Item.payload = d.heldUpTo k.tramThreshold ∧
      (∀ x ∈ xs, x.destPe = cfg.getDestProc x.payload ∧ x.fill.filler = false) ∧
      ∀ c : ℕ, s.queues c = if (c : ℤ) ≤ k.tramThreshold then [] else d.queues c)
    ?_ ?_ ?_ ?_ ?_ cfg.histoBucketCount 0 d ?_ (by omega)
  · rintro start s i ⟨-, hq, -⟩ hnext
    obtain ⟨h1, h2, -⟩ := hq.toStored.holdNext_some hnext
    exact ⟨h1, h2⟩
  · rintro start s ⟨hle, hq, hqueues, xs, hpacks, hpayloads, hxs⟩ hnone
    exact drained_end hle hqueues hpacks hpayloads hxs fun c hc _ =>
      hq.toStored.holdNext_none hnone c hc
  · rintro start s i ⟨hle, hq, hqueues, xs, hpacks, hpayloads, hxs⟩ hnext hcond
    obtain ⟨-, -, -, h4⟩ := hq.toStored.holdNext_some hnext
    have hi := of_decide_eq_false hcond
    exact drained_end hle hqueues hpacks hpayloads hxs fun c hc hct => h4 c hc (by omega)
  · rintro start s i ⟨hle, hq, hqueues, xs, hpacks, hpayloads, hxs⟩ hnext hcond -
    obtain ⟨h1, -, -, h4⟩ := hq.toStored.holdNext_some hnext
    have hi := of_decide_eq_true hcond
    have hskip : ∀ c, start ≤ c → c < i → d.queues c = [] := by
      intro c hc hci
      have := hqueues c
      rw [if_neg (by omega)] at this
      rw [← this]
      exact h4 c hc hci
    have hemptied : (s.holdEmptied i).Sized k.bufSize := hq.toSized.congr rfl rfl
    obtain ⟨ys, htakes, hall⟩ := drainBucket_takes cfg hk (i := i) (s.tramHold i).size
      (s.holdEmptied i) hemptied le_rfl
    obtain ⟨hq', -, -, -⟩ := drainBucket_emptied cfg hk ⟨false, false, false⟩ hi hq
    generalize drainBucket cfg k i (s.tramHold i).size (s.holdEmptied i) = s' at *
    have hqi : (s.holdEmptied i).queues i = d.queues i := by
      have := hqueues i
      rwa [if_neg (by omega)] at this
    refine ⟨by omega, hq', fun c => ?_, xs ++ ys, hpacks.trans hd.toSized hq.toSized
      ⟨htakes.store_eq, htakes.updates, htakes.total⟩, ?_, fun x hx => ?_⟩
    · rw [htakes.queues_eq]
      show (if c = i then _ else s.queues c) = _
      rcases Nat.lt_trichotomy c i with hc | rfl | hc
      · rw [if_neg (by omega), if_pos (by omega), hqueues]
        split_ifs with hcs
        · rfl
        · exact hskip c (by omega) hc
      · rw [if_pos rfl, if_pos (by omega), hall, List.drop_length]
      · rw [if_neg (by omega), if_neg (by omega), hqueues, if_neg (by omega)]
    · rw [List.map_append, hpayloads, htakes.payloads, hall, List.take_length, hqi,
        List.range_succ, List.flatMap_append, List.flatMap_singleton, flatMap_range_skip h1 hskip]
    · rcases List.mem_append.mp hx with hx | hx
      · exact hxs x hx
      · exact ⟨(htakes.from_bucket x hx).destPe, (htakes.from_bucket x hx).filler_eq⟩
  · intro _ _ _ _ _ _ h; cases h
  · exact ⟨Nat.zero_le _, hd, fun c => by rw [if_neg (by omega)], [], .nil hd.toSized, rfl, by simp⟩

/-! ## The end of a flush -/

/-- The number of items held. -/
def heldCount (cfg : Config α) (d : Dest α) : ℕ :=
  ∑ b ∈ Finset.range cfg.histoBucketCount, (d.queues b).length

theorem Stored.heldCount_eq_zero {cfg : Config α} {d : Dest α} (hd : d.Stored cfg) :
    d.heldCount cfg = 0 ↔ ∀ b, d.queues b = [] := by
  unfold heldCount
  rw [Finset.sum_eq_zero_iff]
  constructor
  · intro h b
    rcases Nat.lt_or_ge b cfg.histoBucketCount with hb | hb
    · exact List.length_eq_zero_iff.mp (h b (Finset.mem_range.mpr hb))
    · exact hd.bounded b hb
  · intro h b _
    rw [h b]
    rfl

theorem card_heldItems (cfg : Config α) {k : Knobs F} (hk : k.combining = false) (d : Dest α) :
    Multiset.card (heldItems cfg.histoBucketCount (d.lane cfg k).held) = d.heldCount cfg := by
  unfold heldItems heldCount
  rw [Multiset.card_sum]
  refine Finset.sum_congr rfl fun b _ => ?_
  simp [bagged, lane, hk, queues]

/-- What the end of a flush does to a drained destination: the buffer is shipped if it is
    not empty, with the fillers `fs`. -/
structure Ends (cfg : Config α) (k : Knobs F) (d d' : Dest α) (fs : List (Item α)) : Prop where
  store_eq : d'.store = d.store.closeWith fs
  idle : d.msgBuffer.next = 0 → d' = d ∧ fs = []
  fillers : ∀ x ∈ fs, x.destPe = cfg.getDestProc x.payload ∧ x.fill.filler = true
  updates : d'.updatesInTram = d.updatesInTram - d.msgBuffer.next
  total : d'.totSendCount = d.totSendCount + d.msgBuffer.next + fs.length
  count : d'.heldCount cfg + fs.length = d.heldCount cfg
  half : fs ≠ [] → cfg.addFillers = true ∧ d.msgBuffer.next + fs.length ≤ k.bufSize / 2
  filled : cfg.addFillers = true → d.msgBuffer.next ≠ 0 →
    k.bufSize / 2 ≤ d.msgBuffer.next + fs.length ∨ ∀ c, d'.queues c = []

theorem shipPartial_ends (cfg : Config α) {k : Knobs F} (hk : k.combining = false) {d : Dest α}
    (hd : d.Queued cfg k) (hlow : (d.lane cfg k).Drained) :
    ∃ fs, Ends cfg k d (d.shipPartial cfg k (fillersDest cfg k)) fs := by
  have hrest : d.store.rest.length = d.msgBuffer.next := hd.toSized.store_rest
  have hsome : d.msgBuffer.next ≠ 0 → d.store.rest ≠ [] := by
    intro hne h
    rw [h] at hrest
    exact hne hrest.symm
  unfold shipPartial
  split_ifs with hnext hfillers
  · refine ⟨[], ?_, fun _ => ⟨rfl, rfl⟩, by simp, by rw [hnext]; omega, by rw [hnext]; rfl, rfl,
      by simp, fun _ h => absurd hnext h⟩
    rw [Packing.Store.closeWith, if_pos (List.length_eq_zero_iff.mp (hrest.trans hnext))]
  · have hun : d.uncount.Queued cfg k :=
      ⟨hd.toSized.congr rfl rfl, hd.toStored.congr rfl rfl rfl⟩
    have hnil : Filling cfg k d.uncount d.uncount [] :=
      ⟨hun, .nil _, (List.append_nil _).symm, fun h => absurd rfl h, rfl⟩
    obtain ⟨fs, hf, hor⟩ := fillersDest_fills hk hnil hlow
    obtain ⟨hq, hfill, hitems, hhalf, hframe⟩ := hf
    dsimp only
    generalize fillersDest cfg k d.uncount = d' at *
    have hlen : d'.msgBuffer.next = d.msgBuffer.next + fs.length := by
      rw [← hq.sound.written, hitems, List.length_append]
      exact congrArg (· + fs.length) hd.sound.written
    refine ⟨fs, ?_, fun h => absurd h hnext, fun x hx => ⟨hfill.addressed x hx,
      (hfill.fillers x hx).1⟩, ?_, ?_, ?_, fun h => ⟨hfillers, hlen ▸ hhalf h⟩, fun _ _ => ?_⟩
    · rw [Packing.Store.closeWith, if_neg (hsome hnext)]
      refine Packing.Store.ext ?_ rfl
      show (d'.sent ++ [_]).map _ = d.sent.map _ ++ [d.msgBuffer.items ++ fs]
      rw [List.map_append, List.map_singleton, hitems, hframe]
      rfl
    · show d'.updatesInTram = _
      rw [hframe]; rfl
    · show d'.totSendCount + d'.msgBuffer.next = _
      rw [hlen, hframe, ← Nat.add_assoc]; rfl
    · have hbounded : ∀ b ≥ cfg.histoBucketCount, (d.uncount.lane cfg k).held b = [] :=
        hun.lane_bounded hk
      have hcard := congrArg Multiset.card (hfill.items hbounded)
      rw [Multiset.card_add, card_heldItems cfg hk, card_heldItems cfg hk, payloads,
        Multiset.coe_card, List.length_map] at hcard
      exact hcard
    · rw [← hlen]
      exact hor
  · refine ⟨[], ?_, fun h => absurd h hnext, by simp, rfl, rfl, rfl, by simp,
      fun h => absurd h hfillers⟩
    rw [Packing.Store.closeWith, if_neg (hsome hnext), List.append_nil]
    refine Packing.Store.ext ?_ rfl
    show (d.sent ++ [_]).map _ = d.sent.map _ ++ [d.msgBuffer.items]
    rw [List.map_append, List.map_singleton]
    rfl

end Dest

end Htram
