import Htram.Pp.Node
import Mathlib.Tactic.NormNum
import Mathlib.Tactic.Ring

/-!
# Progress under `PP`

What a node of one PE does with `n` items for one destination node. `copyToNodeBuf` claims
`LOCAL_BUFSIZE` slots at a time and ships when `done_count` is `bufSize`; a flush ships if
`get_idx` is still below `bufSize`. If `bufSize` is no multiple of `LOCAL_BUFSIZE`, the counters
pass it: then a flush leaves the shared buffer where it is, and the next claim comes back with
the slot `-2 ^ 31`, when `get_idx` has wrapped.

* `PP.Filled`: what a destination holds and has shipped, as three lists of items.
* `PP.Stage.insertValue`: one call.
* `PP.insertAll_tflush_ships`: exactly when all items are shipped.
-/

namespace Htram

namespace PP

variable {α : Type*}

/-! ## Slots -/

namespace Message

/-- The first slots have the items `xs`. -/
def Has (m : Message α) (xs : List (ItemT α)) : Prop := ∀ i < xs.length, m.slots i = xs[i]?

theorem has_nil (m : Message α) : m.Has [] := fun i hi => absurd hi (Nat.not_lt_zero i)

theorem Has.setItem {m : Message α} {xs : List (ItemT α)} (h : m.Has xs) (x : ItemT α) :
    (m.setItem xs.length x).Has (xs ++ [x]) := by
  intro i hi
  rw [List.length_append, List.length_singleton] at hi
  unfold Message.setItem
  by_cases hlast : i = xs.length
  · subst hlast
    simp
  · have hlt : i < xs.length := by omega
    rw [List.getElem?_append_left hlt, ← h i hlt]
    exact Function.update_of_ne hlast ..

theorem Has.copyIn {m src : Message α} {xs ys : List (ItemT α)} (hm : m.Has xs)
    (hsrc : src.Has ys) : (m.copyIn xs.length ys.length src).Has (xs ++ ys) := by
  intro i hi
  rw [List.length_append] at hi
  unfold Message.copyIn
  dsimp only
  by_cases hlt : i < xs.length
  · rw [if_neg (by omega), List.getElem?_append_left hlt, hm i hlt]
  · rw [if_pos (by omega), List.getElem?_append_right (not_lt.mp hlt),
      show ((i : ℤ) - (xs.length : ℕ)).toNat = i - xs.length by omega]
    exact hsrc _ (by omega)

theorem Has.received {m : Message α} {xs : List (ItemT α)} (h : m.Has xs)
    (hnext : m.next = xs.length) : m.received = xs.map some := by
  unfold Message.received
  rw [hnext, Int.toNat_natCast]
  refine List.ext_getElem (by simp) fun i hi _ => ?_
  have hlt : i < xs.length := by simpa using hi
  simp [h i hlt]

end Message

/-! ## Counters -/

theorem fetchAdd_eq {x n : ℤ} (hlo : -2 ^ 31 ≤ x + n) (hhi : x + n < 2 ^ 31) :
    fetchAdd x n = x + n := by
  unfold fetchAdd
  apply Int.bmod_eq_of_le_mul_two
  · norm_num
    omega
  · norm_num
    omega

namespace Dest

/-- Below `bufSize` the first claim succeeds. -/
theorem claim_of_lt {bufSize increment fuel : ℕ} {getIdx : ℤ} (h : getIdx < bufSize)
    (hfuel : 0 < fuel) :
    claim bufSize increment fuel getIdx = some (getIdx, fetchAdd getIdx increment) := by
  obtain ⟨n, rfl⟩ : ∃ n, fuel = n + 1 := ⟨fuel - 1, by omega⟩
  rw [claim, if_neg (not_le.mpr h)]

/-- From `bufSize` on, the claims go on until `get_idx` has wrapped. -/
theorem claim_wraps {bufSize : ℕ} : ∀ (k fuel : ℕ) {getIdx : ℤ},
    getIdx = 2 ^ 31 - localBufSize * (k + 1) → (bufSize : ℤ) ≤ getIdx → k + 1 < fuel →
      ∃ next, claim bufSize localBufSize fuel getIdx = some (-2 ^ 31, next) := by
  intro k
  induction k with
  | zero =>
    intro fuel getIdx hidx hle hfuel
    obtain ⟨fuel, rfl⟩ : ∃ n, fuel = n + 1 + 1 := ⟨fuel - 2, by omega⟩
    have hwrap : fetchAdd getIdx localBufSize = -2 ^ 31 := by
      rw [hidx]
      rfl
    rw [claim, if_pos hle, hwrap, claim_of_lt (by omega) (Nat.succ_pos fuel)]
    exact ⟨_, rfl⟩
  | succ k ih =>
    intro fuel getIdx hidx hle hfuel
    obtain ⟨fuel, rfl⟩ : ∃ n, fuel = n + 1 := ⟨fuel - 1, by omega⟩
    have hnext : fetchAdd getIdx localBufSize = getIdx + localBufSize := by
      unfold localBufSize at hidx ⊢
      push_cast at hidx ⊢
      apply fetchAdd_eq
      · omega
      · omega
    rw [claim, if_pos hle, hnext]
    apply ih fuel
    · rw [hidx]
      push_cast
      ring
    · omega
    · omega

end Dest

/-! ## One destination -/

/-- `n` items leave the shared buffer short of `bufSize` or fill it to the slot. -/
def Fits (bufSize n : ℕ) : Prop :=
  localBufSize ∣ bufSize ∨ localBufSize * (n / localBufSize) < bufSize

/-- The items shipped for a destination node and those in its shared buffer. Every claim was of
    slots inside the allocation. -/
structure Buffers (cfg : Config) (d : Dest α) (shipped shared : List (ItemT α)) : Prop where
  sent : d.sent.flatMap Message.received = shipped.map some
  has : d.msgBuffer.Has shared
  getIdx : d.getIdx = shared.length
  doneCount : d.doneCount = shared.length
  mailbox : d.mailbox = if cfg.mailboxes then (shared.length : ℤ) else 0
  whole : localBufSize ∣ shared.length
  inside : ∀ idx ∈ d.claims, 0 ≤ idx ∧ idx + localBufSize ≤ cfg.maxBufSize + localBufSize

/-- The same, and the items in `local_buf`. -/
structure Filled (cfg : Config) (d : Dest α) (shipped shared loc : List (ItemT α)) : Prop
    extends Buffers cfg d shipped shared where
  localIdx : d.localIdx = loc.length
  lt : loc.length < localBufSize
  localHas : d.localBuf.Has loc

theorem init_filled (cfg : Config) : Filled cfg (Dest.init cfg : Dest α) [] [] [] where
  sent := rfl
  has := Message.has_nil _
  getIdx := rfl
  doneCount := rfl
  mailbox := by simp [Dest.init]
  whole := dvd_zero _
  inside := by simp [Dest.init]
  localIdx := rfl
  lt := Nat.succ_pos 15
  localHas := Message.has_nil _

section One

variable {cfg : Config} {bufSize : ℕ} {d : Dest α} {shipped shared loc : List (ItemT α)}

theorem awaitShip_returns {count : ℤ} (h : cfg.mailboxes = true → count ≤ d.mailbox) :
    d.awaitShip cfg count = .returns (d.ship cfg count) := by
  unfold Dest.awaitShip
  rw [if_neg]
  rintro ⟨hon, hlt⟩
  have := h hon
  omega

theorem Buffers.mailbox_le (h : Buffers cfg d shipped shared) (hon : cfg.mailboxes = true) :
    (shared.length : ℤ) ≤ d.mailbox := by
  rw [h.mailbox, if_pos hon]

/-- The shared buffer leaves with all it has. -/
theorem Buffers.ship (h : Buffers cfg d shipped shared) :
    Buffers cfg (d.ship cfg shared.length) (shipped ++ shared) [] := by
  refine ⟨?_, Message.has_nil _, rfl, rfl, by simp [Dest.ship], Nat.dvd_zero _, h.inside⟩
  have hlast : ({ d.msgBuffer with next := shared.length } : Message α).received =
      shared.map some := Message.Has.received h.has rfl
  simp [Dest.ship, List.flatMap_append, h.sent, hlast]

/-- `local_buf` starts again. -/
theorem Buffers.filled (h : Buffers cfg d shipped shared) :
    Filled cfg { d with localIdx := 0 } shipped shared [] :=
  ⟨⟨h.sent, h.has, h.getIdx, h.doneCount, h.mailbox, h.whole, h.inside⟩, rfl, Nat.succ_pos 15,
    Message.has_nil _⟩

/-- The items of `local_buf` in the slots claimed. -/
theorem Buffers.copyAt (h : Buffers cfg d shipped shared) (hlt : shared.length < bufSize)
    (hmax : bufSize ≤ cfg.maxBufSize) {ys : List (ItemT α)} (hys : d.localBuf.Has ys)
    (hlen : ys.length = localBufSize) :
    Buffers cfg (d.copyAt cfg localBufSize shared.length (fetchAdd shared.length localBufSize))
      shipped (shared ++ ys) := by
  have hfits := cfg.fits
  have hcount : fetchAdd (shared.length : ℤ) localBufSize = ((shared ++ ys).length : ℕ) := by
    rw [List.length_append, hlen, fetchAdd_eq (by omega) (by omega)]
    push_cast
    rfl
  refine ⟨?_, ?_, ?_, ?_, ?_, ?_, fun idx hidx => ?_⟩
  · rw [Dest.copyAt_sent, h.sent]
  · have := h.has.copyIn hys
    rwa [hlen] at this
  · rw [Dest.copyAt_getIdx, hcount]
  · rw [Dest.copyAt_doneCount, h.doneCount, hcount]
  · show (if cfg.mailboxes then fetchAdd d.mailbox localBufSize else d.mailbox) = _
    rw [h.mailbox]
    split_ifs
    · exact hcount
    · rfl
  · rw [List.length_append, hlen]
    exact Nat.dvd_add h.whole (Nat.dvd_refl _)
  · rcases List.mem_append.mp hidx with hidx | hidx
    · exact h.inside idx hidx
    · rw [List.mem_singleton.mp hidx]
      omega

/-- The items of `local_buf` are copied behind those that the buffer has, and the buffer leaves if
    it is full then. -/
theorem Buffers.copyToNodeBuf_eq (h : Buffers cfg d shipped shared) (hlt : shared.length < bufSize)
    (hmax : bufSize ≤ cfg.maxBufSize) {ys : List (ItemT α)} (hys : d.localBuf.Has ys)
    (hlen : ys.length = localBufSize) {d' : Dest α}
    (hd' : d' = d.copyAt cfg localBufSize shared.length (fetchAdd shared.length localBufSize)) :
    d.copyToNodeBuf cfg bufSize localBufSize = .returns
      { (if shared.length + localBufSize = bufSize then d'.ship cfg bufSize else d') with
        localIdx := 0 } := by
  have hcopy := h.copyAt hlt hmax hys hlen
  rw [← hd'] at hcopy
  unfold Dest.copyToNodeBuf
  rw [h.getIdx, Dest.claim_of_lt (by omega) (by norm_num)]
  dsimp only
  rw [h.doneCount, ← hd']
  by_cases hfull : shared.length + localBufSize = bufSize
  · have hle := hcopy.mailbox_le
    rw [List.length_append, hlen, hfull] at hle
    rw [if_pos (by omega), if_pos hfull, awaitShip_returns hle]
    rfl
  · rw [if_neg (by omega), if_neg hfull]
    rfl

/-- `copyToNodeBuf` while `get_idx` is below `bufSize`. -/
theorem Buffers.copyToNodeBuf (h : Buffers cfg d shipped shared) (hlt : shared.length < bufSize)
    (hmax : bufSize ≤ cfg.maxBufSize) {ys : List (ItemT α)} (hys : d.localBuf.Has ys)
    (hlen : ys.length = localBufSize) :
    ∃ d', d.copyToNodeBuf cfg bufSize localBufSize = .returns d' ∧
      (shared.length + localBufSize = bufSize →
        Filled cfg d' (shipped ++ (shared ++ ys)) [] []) ∧
      (shared.length + localBufSize ≠ bufSize → Filled cfg d' shipped (shared ++ ys) []) := by
  have hcopy := h.copyAt hlt hmax hys hlen
  refine ⟨_, h.copyToNodeBuf_eq hlt hmax hys hlen rfl, fun hfull => ?_, fun hne => ?_⟩
  · have hship := hcopy.ship
    rw [List.length_append, hlen, hfull] at hship
    rw [if_pos hfull]
    exact hship.filled
  · rw [if_neg hne]
    exact hcopy.filled

/-- `insertValue` puts the item behind those of `local_buf`. -/
theorem Filled.insertValue_eq (h : Filled cfg d shipped shared loc) (x : ItemT α) :
    d.insertValue cfg bufSize x =
      if loc.length + 1 = localBufSize then
        { d with localBuf := d.localBuf.setItem loc.length x, localIdx := loc.length + 1 :
          Dest α }.copyToNodeBuf cfg bufSize localBufSize
      else .returns
        { d with localBuf := d.localBuf.setItem loc.length x, localIdx := loc.length + 1 } := by
  have hlt := h.lt
  have hle : d.localIdx ≤ localBufSize - 1 := by
    rw [h.localIdx]
    omega
  unfold Dest.insertValue
  rw [if_pos hle, h.localIdx]

theorem Filled.setItem (h : Filled cfg d shipped shared loc) (x : ItemT α) :
    Buffers cfg { d with localBuf := d.localBuf.setItem loc.length x, localIdx := loc.length + 1 }
      shipped shared :=
  ⟨h.sent, h.has, h.getIdx, h.doneCount, h.mailbox, h.whole, h.inside⟩

/-- Some claim was of slots below 0. -/
def Below (d : Dest α) : Prop := ∃ idx ∈ d.claims, idx < 0

/-- No claim is forgotten. -/
theorem copyToNodeBuf_claims (cfg : Config) (bufSize increment : ℕ) (d : Dest α) {idx : ℤ}
    (hidx : idx ∈ d.claims ∨
      ∃ next, Dest.claim bufSize increment (2 ^ 28) d.getIdx = some (idx, next)) :
    ∃ d', (d.copyToNodeBuf cfg bufSize increment = .returns d' ∧ idx ∈ d'.claims) ∨
      d.copyToNodeBuf cfg bufSize increment = .hangs d' := by
  unfold Dest.copyToNodeBuf
  cases hclaim : Dest.claim bufSize increment (2 ^ 28) d.getIdx with
  | none => exact ⟨d, Or.inr rfl⟩
  | some c =>
    obtain ⟨idx', getIdx⟩ := c
    have hmem : idx ∈ d.claims ++ [idx'] := by
      rcases hidx with hidx | ⟨next, hnext⟩
      · exact List.mem_append_left _ hidx
      · rw [hclaim] at hnext
        cases hnext
        exact List.mem_append_right _ (List.mem_singleton_self _)
    unfold Dest.awaitShip
    dsimp only
    split_ifs
    · exact ⟨_, Or.inr rfl⟩
    · exact ⟨_, Or.inl ⟨rfl, hmem⟩⟩
    · exact ⟨_, Or.inl ⟨rfl, hmem⟩⟩

theorem Below.insertValue (h : Below d) (cfg : Config) (bufSize : ℕ) (x : ItemT α) :
    ∃ d', (d.insertValue cfg bufSize x = .returns d' ∧ Below d') ∨
      d.insertValue cfg bufSize x = .hangs d' := by
  obtain ⟨idx, hidx, hneg⟩ := h
  have hcopy : ∀ y : Dest α, idx ∈ y.claims →
      ∃ d', ((if y.localIdx = localBufSize then y.copyToNodeBuf cfg bufSize localBufSize
        else .returns y) = .returns d' ∧ Below d') ∨
        (if y.localIdx = localBufSize then y.copyToNodeBuf cfg bufSize localBufSize
        else .returns y) = .hangs d' := by
    intro y hy
    split_ifs
    · obtain ⟨d', h | h⟩ := copyToNodeBuf_claims cfg bufSize localBufSize y (Or.inl hy)
      · exact ⟨d', Or.inl ⟨h.1, idx, h.2, hneg⟩⟩
      · exact ⟨d', Or.inr h⟩
    · exact ⟨y, Or.inl ⟨rfl, idx, hy, hneg⟩⟩
  apply hcopy
  split_ifs
  · exact hidx
  · exact hidx

/-- `copyToNodeBuf` once `get_idx` is past `bufSize`. -/
theorem Buffers.copyToNodeBuf_below (h : Buffers cfg d shipped shared)
    (hle : bufSize ≤ shared.length) (hlt : shared.length < 2 ^ 31) :
    ∃ d', (d.copyToNodeBuf cfg bufSize localBufSize = .returns d' ∧ Below d') ∨
      d.copyToNodeBuf cfg bufSize localBufSize = .hangs d' := by
  obtain ⟨j, hj⟩ := h.whole
  have hj' : shared.length = 16 * j := hj
  have hclaim : ∃ next, Dest.claim bufSize localBufSize (2 ^ 28) shared.length =
      some (-2 ^ 31, next) :=
    Dest.claim_wraps (2 ^ 27 - j - 1) (2 ^ 28) (by unfold localBufSize; omega) (by omega) (by omega)
  rw [← h.getIdx] at hclaim
  obtain ⟨d', hd' | hd'⟩ := copyToNodeBuf_claims cfg bufSize localBufSize d (Or.inr hclaim)
  · exact ⟨d', Or.inl ⟨hd'.1, _, hd'.2, by norm_num⟩⟩
  · exact ⟨d', Or.inr hd'⟩

/-! ## Calls -/

/-- A destination after the items `xs`: what it shipped, what it shares and what is in
    `local_buf` are `xs`, or a claim has gone wrong. -/
inductive Stage (cfg : Config) (bufSize : ℕ) (d : Dest α) (xs : List (ItemT α)) : Prop
  | filled {shipped shared loc : List (ItemT α)} (split : xs = shipped ++ shared ++ loc)
      (filled : Filled cfg d shipped shared loc)
      (whole : localBufSize ∣ bufSize → shared.length < bufSize)
      (part : ¬ localBufSize ∣ bufSize →
        shipped = [] ∧ shared.length < bufSize + localBufSize) : Stage cfg bufSize d xs
  | below (below : Below d) (passed : ¬ Fits bufSize xs.length) : Stage cfg bufSize d xs

theorem Fits.of_le {m n : ℕ} (h : Fits bufSize n) (hle : m ≤ n) : Fits bufSize m := by
  rcases h with h | h
  · exact Or.inl h
  · right
    unfold localBufSize at h ⊢
    omega

/-- The items that are not in `local_buf` decide. -/
theorem Filled.fits_iff (h : Filled cfg d [] shared loc) (hpart : ¬ localBufSize ∣ bufSize) :
    Fits bufSize (shared ++ loc).length ↔ shared.length < bufSize := by
  obtain ⟨j, hj⟩ := h.whole
  have hlt := h.lt
  unfold Fits
  rw [or_iff_right hpart, List.length_append]
  unfold localBufSize at hj hlt ⊢
  omega

/-- One call of `insertValue`. -/
theorem Stage.insertValue {xs : List (ItemT α)} (h : Stage cfg bufSize d xs) (hpos : 0 < bufSize)
    (hmax : bufSize ≤ cfg.maxBufSize) (x : ItemT α) :
    ∃ d', (d.insertValue cfg bufSize x = .returns d' ∧ Stage cfg bufSize d' (xs ++ [x])) ∨
      (d.insertValue cfg bufSize x = .hangs d' ∧ ¬ Fits bufSize (xs ++ [x]).length) := by
  cases h with
  | below hbelow hpassed =>
    have hpassed' : ¬ Fits bufSize (xs ++ [x]).length := fun hfits =>
      hpassed (hfits.of_le (by simp))
    obtain ⟨d', hd' | hd'⟩ := hbelow.insertValue cfg bufSize x
    · exact ⟨d', Or.inl ⟨hd'.1, .below hd'.2 hpassed'⟩⟩
    · exact ⟨d', Or.inr ⟨hd', hpassed'⟩⟩
  | @filled shipped shared loc hsplit hfilled hwhole hpart =>
    have hlt := hfilled.lt
    have hbuffers := hfilled.setItem x
    have hhas : (d.localBuf.setItem loc.length x).Has (loc ++ [x]) := hfilled.localHas.setItem x
    have hlen : (loc ++ [x]).length = loc.length + 1 := by simp
    have hsplit' : xs ++ [x] = shipped ++ shared ++ (loc ++ [x]) := by
      rw [hsplit, List.append_assoc (shipped ++ shared)]
    rw [hfilled.insertValue_eq x]
    by_cases hlast : loc.length + 1 = localBufSize
    · rw [if_pos hlast]
      by_cases hroom : shared.length < bufSize
      · obtain ⟨d', hd', hship, hkeep⟩ := hbuffers.copyToNodeBuf hroom hmax hhas (hlen.trans hlast)
        refine ⟨d', Or.inl ⟨hd', ?_⟩⟩
        by_cases hfull : shared.length + localBufSize = bufSize
        · refine .filled ?_ (hship hfull) (fun _ => hpos) fun hodd => absurd ?_ hodd
          · rw [hsplit', List.append_nil, List.append_nil, List.append_assoc]
          · rw [← hfull]
            exact Nat.dvd_add hfilled.whole (Nat.dvd_refl _)
        · refine .filled ?_ (hkeep hfull) (fun hdvd => ?_) fun hodd => ⟨(hpart hodd).1, ?_⟩
          · rw [hsplit', List.append_nil, List.append_assoc]
          · obtain ⟨i, hi⟩ := hfilled.whole
            obtain ⟨j, hj⟩ := hdvd
            rw [List.length_append, hlen]
            unfold localBufSize at hi hj hfull hlast
            omega
          · rw [List.length_append, hlen]
            omega
      · have hodd : ¬ localBufSize ∣ bufSize := fun hdvd => hroom (hwhole hdvd)
        obtain ⟨hnil, hbound⟩ := hpart hodd
        subst hnil
        have hfits := cfg.fits
        have hpassed : ¬ Fits bufSize (xs ++ [x]).length := by
          intro hfit
          refine hroom ((hfilled.fits_iff hodd).mp (hfit.of_le ?_))
          rw [hsplit]
          simp
        obtain ⟨d', hd' | hd'⟩ := hbuffers.copyToNodeBuf_below (not_lt.mp hroom) (by omega)
        · exact ⟨d', Or.inl ⟨hd'.1, .below hd'.2 hpassed⟩⟩
        · exact ⟨d', Or.inr ⟨hd', hpassed⟩⟩
    · rw [if_neg hlast]
      refine ⟨_, Or.inl ⟨rfl, .filled hsplit' ⟨hbuffers, hlen.symm, ?_, hhas⟩ hwhole hpart⟩⟩
      rw [hlen]
      omega

/-! ## The flush -/

theorem Filled.flushLocal (h : Filled cfg d shipped shared loc) :
    Buffers cfg d.flushLocal (shipped ++ loc) shared := by
  refine ⟨?_, h.has, h.getIdx, h.doneCount, h.mailbox, h.whole, h.inside⟩
  have hlast : ({ d.localBuf with next := d.localIdx } : Message α).received = loc.map some :=
    Message.Has.received h.localHas (congrArg Nat.cast h.localIdx)
  simp [Dest.flushLocal, List.flatMap_append, h.sent, hlast]

theorem Buffers.flushShared_nil (h : Buffers cfg d shipped []) :
    d.flushShared cfg bufSize = .returns d := by
  unfold Dest.flushShared
  exact if_pos h.doneCount

theorem Buffers.flushShared_ships (h : Buffers cfg d shipped shared)
    (hlt : shared.length < bufSize) (hne : shared ≠ []) :
    d.flushShared cfg bufSize = .returns (d.ship cfg shared.length) := by
  have hpos := List.length_pos_iff.mpr hne
  have hle := h.mailbox_le
  unfold Dest.flushShared
  rw [if_neg (by rw [h.doneCount]; omega)]
  dsimp only
  rw [if_neg (by rw [h.getIdx]; omega), if_neg (by rw [h.getIdx, h.doneCount]; simp)]
  rw [← h.doneCount] at hle ⊢
  exact awaitShip_returns (d := { d with getIdx := fetchAdd d.getIdx bufSize }) hle

theorem Buffers.flushShared (h : Buffers cfg d shipped shared) (hlt : shared.length < bufSize) :
    ∃ d', d.flushShared cfg bufSize = .returns d' ∧ Buffers cfg d' (shipped ++ shared) [] := by
  by_cases hne : shared = []
  · subst hne
    exact ⟨d, h.flushShared_nil, by rwa [List.append_nil]⟩
  · exact ⟨_, h.flushShared_ships hlt hne, h.ship⟩

/-- The flush gives up. -/
theorem Buffers.flushShared_past (h : Buffers cfg d shipped shared) (hpos : 0 < bufSize)
    (hle : bufSize ≤ shared.length) :
    d.flushShared cfg bufSize = .returns { d with getIdx := fetchAdd d.getIdx bufSize } := by
  unfold Dest.flushShared
  rw [if_neg (by rw [h.doneCount]; omega)]
  dsimp only
  rw [if_pos (by rw [h.getIdx]; omega)]

/-- It claims nothing, and `local_buf` is not touched. -/
theorem flushShared_keeps {d' : Dest α} (h : d.flushShared cfg bufSize = .returns d') :
    d'.claims = d.claims ∧ d'.localIdx = d.localIdx := by
  unfold Dest.flushShared Dest.awaitShip at h
  dsimp only at h
  split_ifs at h <;> · cases h; exact ⟨rfl, rfl⟩

end One

/-! ## All nodes -/

theorem eachNode_returns {f : Dest α → Outcome (Dest α)} {ns : List ℕ} :
    ∀ {p : ℕ → Dest α}, ns.Nodup → (∀ n ∈ ns, ∃ d, f (p n) = .returns d) →
      ∃ q, eachNode f ns p = .returns q := by
  induction ns with
  | nil => intro p _ _; exact ⟨p, rfl⟩
  | cons n ns ih =>
    intro p hnd hf
    obtain ⟨hn, hnd⟩ := List.nodup_cons.mp hnd
    obtain ⟨d, hd⟩ := hf n (List.mem_cons_self ..)
    rw [eachNode, onNode, hd]
    refine ih hnd fun m hm => ?_
    have hne : m ≠ n := fun h => hn (h ▸ hm)
    rw [Function.update_of_ne hne]
    exact hf m (List.mem_cons_of_mem _ hm)

/-- A loop over nodes that returns has run `f` for each of them. -/
theorem eachNode_spec {f : Dest α → Outcome (Dest α)} {ns : List ℕ} :
    ∀ {p q : ℕ → Dest α}, ns.Nodup → eachNode f ns p = .returns q →
      (∀ n ∈ ns, f (p n) = .returns (q n)) ∧ ∀ n ∉ ns, q n = p n := by
  induction ns with
  | nil =>
    intro p q _ hq
    cases hq
    exact ⟨by simp, fun _ _ => rfl⟩
  | cons n ns ih =>
    intro p q hnd hq
    obtain ⟨hn, hnd⟩ := List.nodup_cons.mp hnd
    rw [eachNode, onNode] at hq
    cases hd : f (p n) with
    | aborts => rw [hd] at hq; cases hq
    | hangs d => rw [hd] at hq; cases hq
    | returns d =>
      rw [hd] at hq
      obtain ⟨hin, hout⟩ := ih hnd hq
      refine ⟨fun m hm => ?_, fun m hm => ?_⟩
      · rcases List.mem_cons.mp hm with rfl | hm
        · rw [hout m hn, Function.update_self, hd]
        · have hne : m ≠ n := fun h => hn (h ▸ hm)
          have := hin m hm
          rwa [Function.update_of_ne hne] at this
      · have hne : m ≠ n := fun h => hm (h ▸ List.mem_cons_self ..)
        rw [hout m fun h => hm (List.mem_cons_of_mem _ h), Function.update_of_ne hne]

/-- The items of `xs` for node `n`. -/
def itemsFor (n : ℕ) (xs : List (ItemT α)) : List (ItemT α) := xs.filter fun x => x.destPe = n

theorem itemsFor_cons (n : ℕ) (x : ItemT α) (xs : List (ItemT α)) :
    itemsFor n (x :: xs) = (if x.destPe = n then [x] else []) ++ itemsFor n xs := by
  unfold itemsFor
  by_cases h : x.destPe = n
  · simp [h]
  · simp [h]

variable {cfg : Config} {bufSize : ℕ}

theorem insertAll_stage (hpos : 0 < bufSize) (hmax : bufSize ≤ cfg.maxBufSize)
    (xs : List (ItemT α)) :
    ∀ {p : ℕ → Dest α} {ys : ℕ → List (ItemT α)}, (∀ n, Stage cfg bufSize (p n) (ys n)) →
      ∃ q, (insertAll cfg bufSize xs p = .returns q ∧
          ∀ n, Stage cfg bufSize (q n) (ys n ++ itemsFor n xs)) ∨
        (insertAll cfg bufSize xs p = .hangs q ∧
          ∃ n, ¬ Fits bufSize (ys n ++ itemsFor n xs).length) := by
  induction xs with
  | nil =>
    intro p ys hp
    exact ⟨p, Or.inl ⟨rfl, fun n => by simpa [itemsFor] using hp n⟩⟩
  | cons x xs ih =>
    intro p ys hp
    rw [insertAll, insertValue, onNode]
    obtain ⟨d, ⟨hd, hstage⟩ | ⟨hd, hfits⟩⟩ := (hp x.destPe).insertValue hpos hmax x
    · rw [hd]
      have hnext : ∀ n, Stage cfg bufSize (Function.update p x.destPe d n)
          (ys n ++ if x.destPe = n then [x] else []) := by
        intro n
        by_cases hn : x.destPe = n
        · subst hn
          rwa [Function.update_self, if_pos rfl]
        · rw [Function.update_of_ne (Ne.symm hn), if_neg hn, List.append_nil]
          exact hp n
      obtain ⟨q, hq⟩ := ih hnext
      simp only [List.append_assoc, ← itemsFor_cons] at hq
      exact ⟨q, hq⟩
    · rw [hd]
      refine ⟨_, Or.inr ⟨rfl, x.destPe, fun h => hfits (h.of_le ?_)⟩⟩
      rw [itemsFor_cons, if_pos rfl]
      simp

/-- Every claim of slots was inside the allocation, and each item is in exactly one message for
    its node, as often as it was inserted. -/
structure Ships (cfg : Config) (xs : List (ItemT α)) (q : ℕ → Dest α) : Prop where
  inside : ∀ n < cfg.numNodes, ∀ idx ∈ (q n).claims,
    0 ≤ idx ∧ idx + localBufSize ≤ cfg.maxBufSize + localBufSize
  once : ∀ n < cfg.numNodes, ((q n).sent.flatMap Message.received : Multiset (Option (ItemT α))) =
    ((itemsFor n xs).map some : List (Option (ItemT α)))

theorem flushLocal_returns (cfg : Config) (p : ℕ → Dest α) :
    ∃ r, eachNode (fun d => .returns d.flushLocal) (List.range cfg.numNodes) p = .returns r ∧
      ∀ n < cfg.numNodes, r n = (p n).flushLocal := by
  obtain ⟨r, hr⟩ := eachNode_returns (f := fun d : Dest α => .returns d.flushLocal) (p := p)
    (List.nodup_range (n := cfg.numNodes)) fun n _ => ⟨_, rfl⟩
  refine ⟨r, hr, fun n hn => ?_⟩
  have := (eachNode_spec List.nodup_range hr).1 n (List.mem_range.mpr hn)
  exact (Outcome.returns.inj this).symm

theorem tflush_spec {p q : ℕ → Dest α} (hq : tflush cfg bufSize p = .returns q) :
    ∀ n < cfg.numNodes, (p n).flushLocal.flushShared cfg bufSize = .returns (q n) := by
  obtain ⟨r, hr, hlocal⟩ := flushLocal_returns cfg p
  unfold tflush at hq
  rw [hr] at hq
  intro n hn
  rw [← hlocal n hn]
  exact (eachNode_spec List.nodup_range hq).1 n (List.mem_range.mpr hn)

/-- A number that is no node keeps what it has. -/
theorem tflush_other {p q : ℕ → Dest α} (hq : tflush cfg bufSize p = .returns q) {n : ℕ}
    (hn : cfg.numNodes ≤ n) : q n = p n := by
  obtain ⟨r, hr, -⟩ := flushLocal_returns cfg p
  have hout : n ∉ List.range cfg.numNodes := fun h => (List.mem_range.mp h).not_ge hn
  unfold tflush at hq
  rw [hr] at hq
  exact ((eachNode_spec List.nodup_range hq).2 n hout).trans
    ((eachNode_spec List.nodup_range hr).2 n hout)

theorem tflush_returns {p : ℕ → Dest α}
    (hp : ∀ n < cfg.numNodes, ∃ d, (p n).flushLocal.flushShared cfg bufSize = .returns d) :
    ∃ q, tflush cfg bufSize p = .returns q := by
  obtain ⟨r, hr, hlocal⟩ := flushLocal_returns cfg p
  unfold tflush
  rw [hr]
  refine eachNode_returns List.nodup_range fun n hn => ?_
  rw [hlocal n (List.mem_range.mp hn)]
  exact hp n (List.mem_range.mp hn)

/-- The flush of a destination whose shared buffer is short of `bufSize`. -/
theorem Stage.flushes {d : Dest α} {xs : List (ItemT α)} (h : Stage cfg bufSize d xs)
    (hfits : Fits bufSize xs.length) :
    ∃ d', d.flushLocal.flushShared cfg bufSize = .returns d' ∧
      (∀ idx ∈ d'.claims, 0 ≤ idx ∧ idx + localBufSize ≤ cfg.maxBufSize + localBufSize) ∧
      (d'.sent.flatMap Message.received : Multiset (Option (ItemT α))) =
        (xs.map some : List (Option (ItemT α))) := by
  cases h with
  | below _ hpassed => exact absurd hfits hpassed
  | @filled shipped shared loc hsplit hfilled hwhole hpart =>
    have hroom : shared.length < bufSize := by
      by_cases hdvd : localBufSize ∣ bufSize
      · exact hwhole hdvd
      · obtain ⟨hnil, -⟩ := hpart hdvd
        subst hnil
        rw [hsplit, List.nil_append] at hfits
        exact (hfilled.fits_iff hdvd).mp hfits
    obtain ⟨d', hd', hafter⟩ := hfilled.flushLocal.flushShared hroom
    refine ⟨d', hd', hafter.inside, ?_⟩
    rw [hafter.sent, hsplit, Multiset.coe_eq_coe]
    refine List.Perm.map _ ?_
    rw [List.append_assoc, List.append_assoc]
    exact List.perm_append_comm.append_left shipped

/-- Where the counters have passed `bufSize`, items stay behind or slots were claimed below 0. -/
theorem Stage.strands {d d' : Dest α} {xs : List (ItemT α)} (h : Stage cfg bufSize d xs)
    (hpos : 0 < bufSize) (hfits : ¬ Fits bufSize xs.length)
    (hd' : d.flushLocal.flushShared cfg bufSize = .returns d')
    (hinside : ∀ idx ∈ d'.claims, 0 ≤ idx) :
    (d'.sent.flatMap Message.received : Multiset (Option (ItemT α))) ≠
      (xs.map some : List (Option (ItemT α))) := by
  cases h with
  | below hbelow _ =>
    obtain ⟨idx, hidx, hneg⟩ := hbelow
    have hmem : idx ∈ d'.claims := by
      rw [(flushShared_keeps hd').1]
      exact hidx
    have := hinside idx hmem
    omega
  | @filled shipped shared loc hsplit hfilled hwhole hpart =>
    have hodd : ¬ localBufSize ∣ bufSize := fun hdvd => hfits (Or.inl hdvd)
    obtain ⟨hnil, -⟩ := hpart hodd
    subst hnil
    rw [hsplit, List.nil_append, hfilled.fits_iff hodd, not_lt] at hfits
    have hlocal := hfilled.flushLocal
    rw [hlocal.flushShared_past hpos hfits] at hd'
    cases hd'
    intro h
    have hcard := congrArg Multiset.card h
    rw [hlocal.sent, hsplit] at hcard
    have hnone : shared = [] := by simpa using hcard
    rw [hnone, List.length_nil] at hfits
    omega

/-- On a node of one PE: `insertValue` of the items `xs` and a `tflush` all return, claim slots
    inside the allocation only and ship each item in exactly one message, exactly if `bufSize` is
    a multiple of `LOCAL_BUFSIZE` or the items that are copied for each node, by
    `LOCAL_BUFSIZE`, are fewer than `bufSize`. -/
theorem insertFlush_ships (hpos : 0 < bufSize) (hmax : bufSize ≤ cfg.maxBufSize)
    {xs : List (ItemT α)} (hxs : ∀ x ∈ xs, x.destPe < cfg.numNodes) :
    (∃ q, insertFlush cfg bufSize xs = .returns q ∧ Ships cfg xs q) ↔
      localBufSize ∣ bufSize ∨ ∀ n < cfg.numNodes,
        localBufSize * ((itemsFor n xs).length / localBufSize) < bufSize := by
  have hinit : ∀ n : ℕ, Stage cfg bufSize (Dest.init cfg : Dest α) [] := fun _ =>
    .filled rfl (init_filled cfg) (fun _ => hpos) fun _ => ⟨rfl, by simp; omega⟩
  have hstage := insertAll_stage hpos hmax xs (p := fun _ => Dest.init cfg) hinit
  simp only [List.nil_append] at hstage
  have hall : (localBufSize ∣ bufSize ∨ ∀ n < cfg.numNodes,
      localBufSize * ((itemsFor n xs).length / localBufSize) < bufSize) ↔
      ∀ n < cfg.numNodes, Fits bufSize (itemsFor n xs).length := by
    unfold Fits
    by_cases hdvd : localBufSize ∣ bufSize
    · simp [hdvd]
    · simp [hdvd]
  have hnone : ∀ n, ¬ n < cfg.numNodes → Fits bufSize (itemsFor n xs).length := by
    intro n hn
    have hnil : itemsFor n xs = [] := by
      unfold itemsFor
      rw [List.filter_eq_nil_iff]
      intro x hx
      have := hxs x hx
      simp
      omega
    rw [hnil]
    exact Or.inr (by simpa using hpos)
  rw [hall]
  unfold insertFlush
  obtain ⟨p, ⟨hp, hfor⟩ | ⟨hp, n, hn⟩⟩ := hstage
  · rw [hp]
    constructor
    · rintro ⟨q, hq, hships⟩ n hn
      by_contra hfits
      have hinside := fun idx hidx => (hships.inside n hn idx hidx).1
      exact (hfor n).strands hpos hfits (tflush_spec hq n hn) hinside (hships.once n hn)
    · intro hfits
      obtain ⟨q, hq⟩ := tflush_returns fun n hn =>
        let ⟨d, hd, _⟩ := (hfor n).flushes (hfits n hn)
        ⟨d, hd⟩
      refine ⟨q, hq, fun n hn => ?_, fun n hn => ?_⟩
      · obtain ⟨d, hd, hinside, -⟩ := (hfor n).flushes (hfits n hn)
        rw [tflush_spec hq n hn] at hd
        cases hd
        exact hinside
      · obtain ⟨d, hd, -, honce⟩ := (hfor n).flushes (hfits n hn)
        rw [tflush_spec hq n hn] at hd
        cases hd
        exact honce
  · rw [hp]
    constructor
    · rintro ⟨q, hq, -⟩
      cases hq
    · intro hfits
      by_cases hlt : n < cfg.numNodes
      · exact absurd (hfits n hlt) hn
      · exact absurd (hnone n hlt) hn

/-- One node, with the sizes of the header. -/
def oneNode : Config where
  numNodes := 1
  maxBufSize := 16384
  mailboxes := false
  fits := by decide

/-- A shared buffer that leaves full and one that leaves with the flush. -/
theorem insertFlush_ships_sixty :
    ∃ q, insertFlush oneNode 32 (List.replicate 60 ⟨0, ()⟩) = .returns q ∧
      Ships oneNode (List.replicate 60 ⟨0, ()⟩) q := by
  have hxs : ∀ x ∈ List.replicate 60 (⟨0, ()⟩ : ItemT Unit), x.destPe < oneNode.numNodes := by
    intro x hx
    rw [List.eq_of_mem_replicate hx]
    decide
  exact (insertFlush_ships (by decide) (by decide) hxs).mpr (Or.inl (by decide))

/-- A buffer size that `LOCAL_BUFSIZE` does not divide: 16 items stay in the shared buffer. -/
theorem insertFlush_strands :
    ¬ ∀ bufSize : ℕ, 0 < bufSize → bufSize ≤ oneNode.maxBufSize → ∀ xs : List (ItemT Unit),
      (∀ x ∈ xs, x.destPe < oneNode.numNodes) →
        ∃ q, insertFlush oneNode bufSize xs = .returns q ∧ Ships oneNode xs q := by
  intro h
  have hxs : ∀ x ∈ List.replicate 16 (⟨0, ()⟩ : ItemT Unit), x.destPe < oneNode.numNodes := by
    intro x hx
    rw [List.eq_of_mem_replicate hx]
    decide
  obtain ⟨q, hq, hships⟩ := h 8 (by decide) (by decide) _ hxs
  obtain ⟨q', hq', hnone⟩ : ∃ q, insertFlush oneNode 8 (List.replicate 16 ⟨0, ()⟩) = .returns q ∧
      ((q 0).sent.flatMap Message.received).length = 0 := Outcome.of_check (by decide +kernel)
  rw [hq] at hq'
  cases hq'
  have hcard := congrArg Multiset.card (hships.once 0 (by decide))
  rw [Multiset.coe_card, hnone] at hcard
  simp [itemsFor] at hcard

end PP

end Htram
