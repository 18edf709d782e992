import Htram.Hold.Wrap
import Htram.Pe.Runs
import Htram.Pe.LaneItems
import Mathlib.Algebra.Order.Ring.Cast

/-!
# A PE whose stamps wrap

One PE with one destination, combining on and a client that keeps the least value of each
key. Its runs wear a stamp of the hold out: `wearing` leaves a stale reference in a bucket
above the threshold and then sends and flushes one item until the stamp comes round.

* `HTram.earlyRun_returns`: a flush ships an item from a bucket above the threshold, and
  the admitted count ends below zero.
* `HTram.hangingRun_hangs`: a flush puts an item that was shipped before into the buffer
  again and does not return.
-/

namespace Htram

open CombiningHold

/-! ## Flushing what one release empties -/

namespace Dest

variable {α F : Type*} {cfg : Config α} {k : Knobs F} {d : Dest α}

/-- `releaseAdmitted`, from what `release` returns. -/
theorem releaseAdmitted_eq (cfg : Config α) {h : CombiningHold α} {out : List (Emitted α)}
    (hrel : d.hold.release k.tramThreshold (k.bufSize - d.msgBuffer.next) = (h, out)) :
    ∃ m : HTramMessage α, d.releaseAdmitted cfg k = { d with hold := h, msgBuffer := m } ∧
      m.items = d.msgBuffer.items ++ out.map (Emitted.toItem cfg k.tramThreshold false) ∧
      m.next = d.msgBuffer.next + out.length := by
  obtain ⟨h1, h2⟩ := foldl_put_eq (Emitted.toItem cfg k.tramThreshold false) out
    { d with hold := h }
  have h3 := foldl_put_next (Emitted.toItem cfg k.tramThreshold false) out { d with hold := h }
  refine ⟨_, ?_, h2, h3⟩
  unfold releaseAdmitted releaseInto
  rw [hrel]
  exact h1

/-- One release takes everything admitted, and the partial buffer is shipped. -/
theorem flushHold_once (hfill : cfg.addFillers = false)
    (hbuf : d.msgBuffer = newHTramMessage k.bufSize) {h : CombiningHold α} {out : List (Emitted α)}
    (hrel : d.hold.release k.tramThreshold k.bufSize = (h, out)) (hstuck : h.stuck = false)
    (hne : out ≠ []) (hlt : out.length < k.bufSize) :
    ∃ m n, d.flushHold cfg k =
        { d with
          hold := h
          updatesInTram := d.updatesInTram - out.length
          totSendCount := n
          sent := d.sent ++ [⟨k.agg.entry, m, k.bufSize⟩]
          msgBuffer := newHTramMessage k.bufSize } ∧
      m.items = out.map (Emitted.toItem cfg k.tramThreshold false) := by
  have hnext : d.msgBuffer.next = 0 := by rw [hbuf]; rfl
  have hitems : d.msgBuffer.items = [] := by rw [hbuf]; rfl
  have hrel' : d.hold.release k.tramThreshold (k.bufSize - d.msgBuffer.next) = (h, out) := by
    rw [hnext]; simpa using hrel
  obtain ⟨m, hd', hm, hmn⟩ := releaseAdmitted_eq cfg hrel'
  rw [hitems, List.nil_append] at hm
  rw [hnext, zero_add] at hmn
  have hpos := List.length_pos_iff.mpr hne
  refine ⟨m, d.totSendCount + m.next, ?_, hm⟩
  unfold flushHold flushHeldLoop
  rw [hd']
  simp only [hstuck, hmn, hlt, or_true, if_true, Bool.false_eq_true, if_false]
  unfold shipHeld
  rw [if_neg (by simp only [hmn]; omega)]
  simp only [hfill, uncount, hstuck, Bool.false_eq_true, if_false, hmn]
  rw [← hmn]
  rfl

/-- A release that hangs leaves the items it put into the buffer. -/
theorem flushHold_hangs (cfg : Config α) (hbuf : d.msgBuffer = newHTramMessage k.bufSize)
    {h : CombiningHold α} {out : List (Emitted α)}
    (hrel : d.hold.release k.tramThreshold k.bufSize = (h, out)) (hstuck : h.stuck = true) :
    ∃ m : HTramMessage α, d.flushHold cfg k = { d with hold := h, msgBuffer := m } ∧
      m.items = out.map (Emitted.toItem cfg k.tramThreshold false) := by
  have hnext : d.msgBuffer.next = 0 := by rw [hbuf]; rfl
  have hitems : d.msgBuffer.items = [] := by rw [hbuf]; rfl
  have hrel' : d.hold.release k.tramThreshold (k.bufSize - d.msgBuffer.next) = (h, out) := by
    rw [hnext]; simpa using hrel
  obtain ⟨m, hd', hm, -⟩ := releaseAdmitted_eq cfg hrel'
  rw [hitems, List.nil_append] at hm
  refine ⟨m, ?_, hm⟩
  unfold flushHold flushHeldLoop
  rw [hd']
  simp [hstuck]

end Dest


/-! ## A PE with one destination -/

namespace HTram

/-- The settings of `oneNode` with threshold `t`. -/
def wornKnobs (t : ℤ) : Knobs ℚ where
  agg := .WPs
  bufSize := 4
  directThreshold := 0
  tramThreshold := t
  selectivity := 1
  releaseLevel := ReleaseArith.level (1 : ℚ) 4
  combining := true

theorem setDest_dest (d : ℕ) (x : Dest KeyValue) (p : HTram KeyValue ℚ) :
    (p.setDest d x).dest d = x := Function.update_self ..

theorem offer_returns {p : HTram KeyValue ℚ} {t : ℤ} (hk : p.knobs = wornKnobs t) {key : UInt64}
    {value : ℕ} {h : CombiningHold KeyValue} {r : InsertResult} {u : ℤ}
    (hins : (p.dest 0).hold.insert minOps ⟨key, value⟩ value = (h, r)) (hs : h.stuck = false)
    (hu : ({ p.dest 0 with hold := h } : Dest KeyValue).countInsert (wornKnobs t) r =
      { p.dest 0 with hold := h, updatesInTram := u }) (hlow : u < 4) :
    ∃ q, p.step oneNode (offer key value) = .returns q ∧ q.knobs = wornKnobs t ∧
      q.dest 0 = { p.dest 0 with hold := h, updatesInTram := u } := by
  refine ⟨p.setDest 0 { p.dest 0 with hold := h, updatesInTram := u }, ?_, hk, setDest_dest ..⟩
  have hlevel : ReleaseArith.ge u (wornKnobs t).releaseLevel = false := by
    refine decide_eq_false (not_le.mpr ?_)
    have : (u : ℚ) < (4 : ℤ) := Int.cast_lt.mpr hlow
    simpa [wornKnobs, ReleaseArith.level] using this
  have hsend : (p.dest 0).sendItem oneNode p.knobs ⟨key, value⟩ value 0 =
      { p.dest 0 with hold := h, updatesInTram := u } := by
    rw [hk]
    show (p.dest 0).sendHold oneNode (wornKnobs t) _ _ = _
    have hins' : (p.dest 0).hold.insert oneNode.ops ⟨key, value⟩ value = (h, r) := hins
    unfold Dest.sendHold
    rw [hins']
    dsimp only
    rw [if_neg (by simp [hs]), hu, if_neg (by simp [hlevel])]
  show p.sendItemPrioDeferredDestTo oneNode _ _ 0 = _
  unfold sendItemPrioDeferredDestTo destCount
  have hdest : oneNode.destOf p.knobs.agg 0 = 0 := by rw [hk]; rfl
  have hcount : oneNode.destCount p.knobs.agg = 1 := by rw [hk]; rfl
  rw [hdest, hcount]
  show (p.onDest 0 _) = _
  rw [onDest, hsend, if_neg (by simp [hs])]

theorem tflush_eq {p : HTram KeyValue ℚ} {t : ℤ} (hk : p.knobs = wornKnobs t) (idleflush : Bool) :
    p.step oneNode (.tflush idleflush) = p.onDest 0 (Dest.flushHold oneNode (wornKnobs t)) := by
  show p.tflush oneNode idleflush = _
  unfold tflush forDest destCount
  rw [hk]
  show (p.onDest 0 (Dest.flushHold oneNode (wornKnobs t))).andThen .returns = _
  cases p.onDest 0 (Dest.flushHold oneNode (wornKnobs t)) <;> rfl

theorem tflush_returns {p : HTram KeyValue ℚ} {t : ℤ} (hk : p.knobs = wornKnobs t)
    {d : Dest KeyValue} (hd : (p.dest 0).flushHold oneNode (wornKnobs t) = d)
    (hs : d.hold.stuck = false) :
    ∃ q, p.step oneNode (.tflush false) = .returns q ∧ q.knobs = wornKnobs t ∧ q.dest 0 = d := by
  refine ⟨p.setDest 0 d, ?_, hk, setDest_dest ..⟩
  rw [tflush_eq hk, onDest, hd, if_neg (by simp [hs])]

theorem changeThreshold_returns {p : HTram KeyValue ℚ} {t : ℤ} (hk : p.knobs = wornKnobs t)
    (t' : ℤ) (ht : t' ≠ t) (hs : (p.dest 0).hold.stuck = false)
    (hlow : ((p.dest 0).retuneHold t t').updatesInTram ≤ 4) :
    ∃ q, p.step oneNode (.changeThreshold 0 t' 1) = .returns q ∧ q.knobs = wornKnobs t' ∧
      q.dest 0 = (p.dest 0).retuneHold t t' := by
  have hlevel : ReleaseArith.gt ((p.dest 0).retuneHold t t').updatesInTram
      (ReleaseArith.level (1 : ℚ) 4) = false := by
    refine decide_eq_false (not_lt.mpr ?_)
    have : (((p.dest 0).retuneHold t t').updatesInTram : ℚ) ≤ (4 : ℤ) := Int.cast_le.mpr hlow
    simpa [ReleaseArith.level] using this
  -- the only destination
  have hone : ∀ d < p.destCount oneNode, d = 0 := by
    intro d hd
    unfold destCount at hd
    rw [hk] at hd
    exact Nat.lt_one_iff.mp hd
  have hzero : 0 < p.destCount oneNode := by unfold destCount; rw [hk]; exact Nat.one_pos
  set p' := p.mapDest oneNode (wornKnobs t') (Dest.retune oneNode p.knobs t') with hp'
  have hdest : p'.dest 0 = (p.dest 0).retuneHold t t' := by
    rw [hp', mapDest_dest _ _ hzero, hk]
    rfl
  have hcount : p'.destCount oneNode = p.destCount oneNode := by
    unfold destCount
    rw [hk]
    rfl
  have hrelease : Dest.releaseAbove oneNode (wornKnobs t') (p'.dest 0) = p'.dest 0 := by
    rw [hdest]
    exact if_neg (by simp [wornKnobs, hlevel])
  have hfor := forDest_eq (p := p') (f := Dest.releaseAbove oneNode (wornKnobs t'))
    fun d (hd : d < p'.destCount oneNode) => by
      obtain rfl := hone d (hcount ▸ hd)
      rw [hrelease, hdest]
      exact hs
  refine ⟨p'.mapDest oneNode p'.knobs (Dest.releaseAbove oneNode (wornKnobs t')), ?_, rfl, ?_⟩
  · show p.changeThreshold oneNode 0 t' 1 = _
    unfold changeThreshold
    have hknobs : p.knobs.retuned 0 t' 1 = wornKnobs t' := by rw [hk]; rfl
    rw [if_neg (by rw [hk]; exact fun h => ht h.1), hknobs]
    exact hfor
  · rw [mapDest_dest _ _ (hcount ▸ hzero), hrelease, hdest]

/-! ## The run that wears a stamp out -/

/-- An item for bucket 2, one for bucket 3 that a smaller one then moves, and `n` times an
    item that comes and goes. -/
def wearing (n : ℕ) : List (Op KeyValue ℚ) :=
  [.changeThreshold 0 1 1, offer 0 2, offer 1 3, offer 1 1, .tflush false] ++
    (List.replicate n [offer 1 1, .tflush false]).flatten

/-- The PE on its way: a hold with `P`, the count `u`, an empty buffer, and `m` items
    shipped or retired, those shipped with key 1. -/
structure Wears (P : CombiningHold KeyValue → Prop) (u : ℤ) (m : ℕ) (p : HTram KeyValue ℚ) :
    Prop where
  knobs : p.knobs = wornKnobs 1
  hold : P (p.dest 0).hold
  updates : (p.dest 0).updatesInTram = u
  buffer : (p.dest 0).msgBuffer = newHTramMessage 4
  card : (shipped (p.dest 0).sent).card + (p.dest 0).hold.retired.length = m
  keys : ∀ x ∈ shipped (p.dest 0).sent, x.key = 1

theorem Wears.tflush {s : UInt32} {m : ℕ} {p : HTram KeyValue ℚ} (hp : Wears (Busy s) 1 m p) :
    ∃ q, p.step oneNode (.tflush false) = .returns q ∧ Wears (Worn (s + 1)) 0 (m + 1) q := by
  obtain ⟨h', n, hrel, hworn, hret⟩ := hp.hold.release
  obtain ⟨msg, c, hflush, hitems⟩ := Dest.flushHold_once (k := wornKnobs 1)
    (show oneNode.addFillers = false from rfl) hp.buffer hrel hworn.table.stuck (by simp)
    (by simp [wornKnobs])
  have hshipped : shipped ((p.dest 0).sent ++ [⟨(wornKnobs 1).agg.entry, msg, 4⟩]) =
      shipped (p.dest 0).sent + {⟨1, 1⟩} := by
    rw [shipped_append]
    simp [shipped, hitems, payloads, Emitted.toItem]
  obtain ⟨q, hq, hknobs, hdest⟩ := tflush_returns hp.knobs hflush hworn.table.stuck
  refine ⟨q, hq, hknobs, ?_, ?_, ?_, ?_, ?_⟩ <;> rw [hdest]
  · exact hworn
  · show (p.dest 0).updatesInTram - 1 = 0
    rw [hp.updates]; rfl
  · rfl
  · show (shipped (_ ++ [⟨_, msg, 4⟩])).card + h'.retired.length = m + 1
    rw [hshipped, hret, Multiset.card_add, Multiset.card_singleton, ← hp.card]
    omega
  · intro x hx
    rw [show (wornKnobs 1).bufSize = 4 from rfl, hshipped] at hx
    rcases Multiset.mem_add.mp hx with hx | hx
    · exact hp.keys x hx
    · rw [Multiset.mem_singleton.mp hx]

theorem Wears.put {s : UInt32} {m : ℕ} {p : HTram KeyValue ℚ} (hp : Wears (Worn s) 0 m p) :
    ∃ q, p.step oneNode (offer 1 1) = .returns q ∧ Wears (Busy (s + 1)) 1 m q := by
  obtain ⟨h', hins, hbusy, hret⟩ := hp.hold.put
  obtain ⟨q, hq, hknobs, hdest⟩ := offer_returns hp.knobs hins hbusy.table.stuck (u := 1)
    (by unfold Dest.countInsert; simp [wornKnobs, hp.updates]) (by decide)
  refine ⟨q, hq, hknobs, ?_, ?_, ?_, ?_, ?_⟩ <;> rw [hdest]
  · exact hbusy
  · exact hp.buffer
  · show _ + h'.retired.length = m
    rw [hret]; exact hp.card
  · exact hp.keys

/-- One more item comes and goes. -/
theorem Wears.cycle {s : UInt32} {m : ℕ} {p : HTram KeyValue ℚ} (hp : Wears (Worn s) 0 m p)
    (ops : List (Op KeyValue ℚ)) :
    ∃ q, p.run oneNode ([offer 1 1, .tflush false] ++ ops) = q.run oneNode ops ∧
      Wears (Worn (s + 1 + 1)) 0 (m + 1) q := by
  obtain ⟨p', hp', hbusy⟩ := hp.put
  obtain ⟨q, hq, hworn⟩ := hbusy.tflush
  refine ⟨q, ?_, hworn⟩
  show (p.step oneNode (offer 1 1)).andThen _ = _
  rw [hp']
  show (p'.step oneNode (.tflush false)).andThen _ = _
  rw [hq]
  rfl

theorem run_cycles (n : ℕ) :
    ∀ {s : UInt32} {m : ℕ} {p : HTram KeyValue ℚ}, Wears (Worn s) 0 m p →
      ∃ q, p.run oneNode (List.replicate n [offer 1 1, .tflush false]).flatten = .returns q ∧
        Wears (Worn (s + 2 * UInt32.ofNat n)) 0 (m + n) q := by
  induction n with
  | zero => intro s m p hp; exact ⟨p, rfl, by simpa using hp⟩
  | succ n ih =>
    intro s m p hp
    obtain ⟨p', hrun, hp'⟩ := hp.cycle (List.replicate n [offer 1 1, .tflush false]).flatten
    obtain ⟨q, hq, hworn⟩ := ih hp'
    have hstamp : s + 1 + 1 + 2 * UInt32.ofNat n = s + 2 * UInt32.ofNat (n + 1) := by
      rw [UInt32.ofNat_add]; grind
    rw [List.replicate_succ, List.flatten_cons]
    refine ⟨q, hrun.trans hq, ?_⟩
    rw [← hstamp, show m + (n + 1) = m + 1 + n by omega]
    exact hworn

/-- The calls before the item first comes and goes. -/
theorem run_start {p : HTram KeyValue ℚ} (hp : opened oneNode .WPs 4 [] true = .returns p) :
    ∃ q, p.run oneNode [.changeThreshold 0 1 1, offer 0 2, offer 1 3, offer 1 1, .tflush false] =
      .returns q ∧ Wears (Worn 3) 0 2 q := by
  obtain ⟨h₁, h₂, h₃, hins₁, hs₁, hins₂, hs₂, hins₃, hbusy, hret⟩ := init_busy
  have hopen : opened oneNode .WPs 4 [] true = .returns
      ({ knobs := wornKnobs 0
         dest := fun _ => { Dest.init 4 with hold := CombiningHold.init 8 } } :
        HTram KeyValue ℚ) := rfl
  rw [hopen] at hp
  cases hp
  set p₀ : HTram KeyValue ℚ :=
    { knobs := wornKnobs 0
      dest := fun _ => { Dest.init 4 with hold := CombiningHold.init 8 } } with hp₀
  have hlive : (CombiningHold.init 8 : CombiningHold KeyValue).live 1 = 0 := by
    obtain ⟨T, hT, -, -⟩ := init_eq (α := KeyValue) 8
    rw [hT]
  -- threshold 1 admits only the last item
  obtain ⟨p₁, hp₁, hk₁, hd₁⟩ := changeThreshold_returns
    (show p₀.knobs = wornKnobs 0 from rfl) 1 (by decide) (init_tableInv 8).stuck (by
      show (0 : ℤ) + (CombiningHold.init 8 : CombiningHold KeyValue).live 1 ≤ 4
      rw [hlive]; decide)
  have hd₁' : p₁.dest 0 = { Dest.init 4 with hold := CombiningHold.init 8 } := by
    rw [hd₁]
    show ({ Dest.init 4 with
      hold := CombiningHold.init 8
      updatesInTram := 0 + (CombiningHold.init 8 : CombiningHold KeyValue).live 1 } :
        Dest KeyValue) = _
    rw [hlive]
    rfl
  obtain ⟨p₂, hp₂, hk₂, hd₂⟩ := offer_returns hk₁ (u := 0) (by rw [hd₁']; exact hins₁) hs₁
    (by rw [hd₁']; rfl) (by decide)
  obtain ⟨p₃, hp₃, hk₃, hd₃⟩ := offer_returns hk₂ (u := 0) (by rw [hd₂]; exact hins₂) hs₂
    (by rw [hd₂, hd₁']; rfl) (by decide)
  obtain ⟨p₄, hp₄, hk₄, hd₄⟩ := offer_returns hk₃ (u := 1) (by rw [hd₃]; exact hins₃)
    hbusy.table.stuck (by rw [hd₃, hd₂, hd₁']; rfl) (by decide)
  have hbusy' : Wears (Busy 2) 1 1 p₄ := by
    refine ⟨hk₄, ?_, ?_, ?_, ?_, ?_⟩ <;> rw [hd₄, hd₃, hd₂, hd₁']
    · exact hbusy
    · rfl
    · show (shipped []).card + h₃.retired.length = 1
      rw [hret]; rfl
    · intro x hx; cases hx
  obtain ⟨q, hq, hworn⟩ := hbusy'.tflush
  refine ⟨q, ?_, hworn⟩
  simp only [run, hp₁, hp₂, hp₃, hp₄, hq, Outcome.andThen]

theorem mem_wearing {n : ℕ} {op : Op KeyValue ℚ} (hop : op ∈ wearing n) :
    op ∈ [.changeThreshold 0 1 1, offer 0 2, offer 1 3, offer 1 1, .tflush false] := by
  rcases List.mem_append.mp hop with hop | hop
  · exact hop
  · obtain ⟨l, hl, hop⟩ := List.mem_flatten.mp hop
    rw [(List.mem_replicate.mp hl).2] at hop
    simp only [List.mem_cons, List.not_mem_nil, or_false] at hop ⊢
    tauto

theorem offer_mem_wearing (n : ℕ) : offer 0 2 ∈ wearing n := by
  refine List.mem_append_left _ ?_
  simp

theorem forall_wearing {n : ℕ} {P : Op KeyValue ℚ → Prop}
    (h : ∀ op ∈ [.changeThreshold 0 1 1, offer 0 2, offer 1 3, offer 1 1, .tflush false], P op) :
    ∀ op ∈ wearing n, P op := fun op hop => h op (mem_wearing hop)

/-- The number of items it sends. -/
theorem inputsOf_wearing (n : ℕ) :
    (inputsOf oneNode .WPs (wearing n) 0).length = 3 + n := by
  have hcycles : ∀ n, (inputsOf oneNode .WPs
      (List.replicate n [offer 1 1, (.tflush false : Op KeyValue ℚ)]).flatten 0).length = n := by
    intro n
    induction n with
    | zero => rfl
    | succ n ih =>
      rw [List.replicate_succ, List.flatten_cons, inputsOf, List.flatMap_append,
        List.length_append]
      rw [inputsOf] at ih
      rw [ih, add_comm]
      rfl
  rw [wearing, inputsOf, List.flatMap_append, List.length_append]
  have h := hcycles n
  rw [inputsOf] at h
  rw [h]
  rfl

/-- After `n` rounds the second entry is free with stamp `3 + 2 n`. -/
theorem session_wearing (n : ℕ) (ops : List (Op KeyValue ℚ)) :
    ∃ p, session oneNode .WPs 4 [] true (wearing n ++ ops) = p.run oneNode ops ∧
      Wears (Worn (3 + 2 * UInt32.ofNat n)) 0 (2 + n) p := by
  have hopen : ∃ p : HTram KeyValue ℚ, opened oneNode .WPs 4 [] true = .returns p := ⟨_, rfl⟩
  obtain ⟨p₀, hp₀⟩ := hopen
  obtain ⟨p₁, hp₁, hw₁⟩ := run_start hp₀
  obtain ⟨p₂, hp₂, hw₂⟩ := run_cycles n hw₁
  refine ⟨p₂, ?_, hw₂⟩
  unfold session wearing
  rw [hp₀]
  show p₀.run oneNode _ = _
  rw [List.append_assoc, run_append, hp₁]
  show p₁.run oneNode _ = _
  rw [run_append, hp₂]
  rfl

/-- An item for bucket 7, moved to bucket 5, and a flush with threshold 3. -/
def earlyRun : List (Op KeyValue ℚ) :=
  wearing (2 ^ 31 - 2) ++ [offer 1 7, offer 1 5, .changeThreshold 0 3 1, .tflush false]

/-- The flush takes the item from bucket 5, and the count ends below zero. -/
theorem Wears.early {m : ℕ} {p : HTram KeyValue ℚ} (hw : Wears (Worn (-1)) 0 m p) :
    ∃ q, p.run oneNode [offer 1 7, offer 1 5, .changeThreshold 0 3 1, .tflush false] =
        .returns q ∧ q.knobs = wornKnobs 3 ∧ Spent (q.dest 0).hold ∧
      (q.dest 0).updatesInTram = -1 ∧ (q.dest 0).msgBuffer = newHTramMessage 4 ∧
      (q.dest 0).fullSends = (p.dest 0).fullSends ∧
      ∃ s ∈ (q.dest 0).sent, ∃ x ∈ s.msg.items,
        x.fill.filler = false ∧ x.fill.bucket = some 5 ∧ x.fill.threshold = 3 := by
  obtain ⟨h₁, h₂, h₃, x, b, n, n', hins₁, hs₁, hins₂, hs₂, ⟨hlive₂, hlive₃⟩, hrel, hspent⟩ :=
    hw.hold.early
  obtain ⟨p₁, hp₁, hk₁, hd₁⟩ := offer_returns hw.knobs (u := 0) hins₁ hs₁
    (by unfold Dest.countInsert; simp [wornKnobs, hw.updates]) (by decide)
  obtain ⟨p₂, hp₂, hk₂, hd₂⟩ := offer_returns hk₁ (u := 0) (by rw [hd₁]; exact hins₂) hs₂
    (by rw [hd₁]; unfold Dest.countInsert; simp [wornKnobs]) (by decide)
  -- the threshold admits the item of bucket 2
  have hcount : (p₂.dest 0).retuneHold 1 3 = { p₂.dest 0 with updatesInTram := 1 } := by
    show { p₂.dest 0 with updatesInTram :=
      (p₂.dest 0).updatesInTram + (p₂.dest 0).hold.live 2 + (p₂.dest 0).hold.live 3 } = _
    rw [hd₂]
    simp only [hlive₂, hlive₃]
    rfl
  obtain ⟨p₃, hp₃, hk₃, hd₃⟩ := changeThreshold_returns hk₂ 3 (by decide)
    (by rw [hd₂]; exact hs₂) (by rw [hcount]; show (1 : ℤ) ≤ 4; decide)
  rw [hcount, hd₂, hd₁] at hd₃
  obtain ⟨m, c, hflush, hitems⟩ := Dest.flushHold_once (k := wornKnobs 3)
    (d := p₃.dest 0) (show oneNode.addFillers = false from rfl) (by rw [hd₃]; exact hw.buffer)
    (by rw [hd₃]; exact hrel) hspent.table.stuck (by simp) (by simp [wornKnobs])
  obtain ⟨q, hq, hkq, hdq⟩ := tflush_returns hk₃ hflush hspent.table.stuck
  refine ⟨q, ?_, hkq, ?_, ?_, ?_, ?_, ⟨(wornKnobs 3).agg.entry, m, 4⟩, ?_, ?_⟩
  · simp only [run, hp₁, hp₂, hp₃, hq, Outcome.andThen]
  · rw [hdq]; exact hspent
  · rw [hdq, hd₃]; rfl
  · rw [hdq]; rfl
  · rw [hdq, hd₃]
  · rw [hdq]
    exact List.mem_append_right _ (List.mem_singleton_self _)
  · refine ⟨Emitted.toItem oneNode 3 false ⟨⟨1, 5⟩, 5, n'⟩, ?_, rfl, rfl, rfl⟩
    show _ ∈ m.items
    rw [hitems]
    simp [wornKnobs]

theorem earlyRun_returns :
    ∃ q, session oneNode .WPs 4 [] true earlyRun = .returns q ∧ q.knobs = wornKnobs 3 ∧
      (q.dest 0).updatesInTram = -1 ∧ ∃ s ∈ (q.dest 0).sent, ∃ x ∈ s.msg.items,
        x.fill.filler = false ∧ x.fill.bucket = some 5 ∧ x.fill.threshold = 3 := by
  obtain ⟨p, hp, hw⟩ := session_wearing (2 ^ 31 - 2)
    [offer 1 7, offer 1 5, .changeThreshold 0 3 1, .tflush false]
  have hstamp : (3 : UInt32) + 2 * UInt32.ofNat (2 ^ 31 - 2) = -1 := by decide
  rw [hstamp] at hw
  obtain ⟨q, hq, hknobs, -, hupdates, -, -, hsent⟩ := hw.early
  refine ⟨q, ?_, hknobs, hupdates, hsent⟩
  unfold earlyRun
  rw [hp, hq]

/-- A flush of everything when the second entry is free with the stamp left in bucket 3. -/
def hangingRun : List (Op KeyValue ℚ) :=
  wearing (2 ^ 31 - 1) ++ [.changeThreshold 0 7 1, .tflush false]

/-- The flush takes the free entry's item and does not return. -/
theorem hangingRun_hangs :
    ∃ q, session oneNode .WPs 4 [] true hangingRun = .hangs q ∧ q.knobs = wornKnobs 7 ∧
      (q.dest 0).hold.heldSet = ∅ ∧ (q.dest 0).msgBuffer.items.length = 2 ∧
      (shipped (q.dest 0).sent).card + (q.dest 0).hold.retired.length = 2 + (2 ^ 31 - 1) ∧
      ∀ x ∈ shipped (q.dest 0).sent, x.key = 1 := by
  obtain ⟨p, hp, hw⟩ := session_wearing (2 ^ 31 - 1) [.changeThreshold 0 7 1, .tflush false]
  have hstamp : (3 : UInt32) + 2 * UInt32.ofNat (2 ^ 31 - 1) = 1 := by decide
  rw [hstamp] at hw
  obtain ⟨h', x, n, n', hrel, hs, hheld, hret⟩ := hw.hold.hangs
  have hcount : (p.dest 0).retuneHold 1 7 = { p.dest 0 with updatesInTram := 1 } := by
    show { p.dest 0 with
      updatesInTram := (([2, 3, 4, 5, 6, 7].map (p.dest 0).hold.live).foldl (· + ·)
        (p.dest 0).updatesInTram) } = _
    rw [hw.updates, hw.hold.live]
    rfl
  obtain ⟨p₁, hp₁, hk₁, hd₁⟩ := changeThreshold_returns hw.knobs 7 (by decide)
    hw.hold.table.stuck (by rw [hcount]; show (1 : ℤ) ≤ 4; decide)
  rw [hcount] at hd₁
  obtain ⟨m, hflush, hitems⟩ := Dest.flushHold_hangs oneNode (k := wornKnobs 7)
    (d := p₁.dest 0) (by rw [hd₁]; exact hw.buffer) (by rw [hd₁]; exact hrel) hs
  refine ⟨p₁.setDest 0 ((p₁.dest 0).flushHold oneNode (wornKnobs 7)), ?_, hk₁, ?_, ?_, ?_, ?_⟩
  · unfold hangingRun
    rw [hp, run, hp₁]
    show (p₁.step oneNode (.tflush false)).andThen _ = _
    rw [tflush_eq hk₁, onDest, if_pos (by rw [hflush]; exact hs)]
    rfl
  all_goals rw [setDest_dest, hflush, hd₁]
  · exact hheld
  · show m.items.length = 2
    rw [hitems]
    rfl
  · show _ + h'.retired.length = _
    rw [hret]
    exact hw.card
  · exact hw.keys

end HTram

end Htram
