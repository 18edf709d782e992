import Htram.Hold.Calls
import Htram.Pe.LaneInv
import Htram.Pe.View

/-!
# Combining on: the hold is a lane

With combining on a destination keeps its items in `holds[d]`. While no reference in the
hold is about to be taken for current (`InsertSafe`, `DrainSafe`), every function of
`Htram.Pe.Dest` is a path of the lane `Dest.lane`: sends fold or hold, releases take
from the front of the lowest bucket.

* `sendHold_path`, `releaseFull_path`, `flushHold_path`, `retuneHold_path`.
-/

namespace Htram

open CombiningHold

variable {α F : Type*}

/-- What the lists of a hold stand for. -/
theorem CombiningHold.Refines.entries_eq {h : CombiningHold α} {a : KeyedHold UInt64 α}
    (hr : Refines h a) (b : ℕ) :
    ((liveRefs h.stamps (h.lists b)).map fun r => (h.keys r.entry, h.payloads r.entry)) =
      a.entries b := by
  have key : ∀ l : List Ref, (∀ r ∈ l, h.Held r.entry) →
      (l.map fun r => (h.keys r.entry, h.payloads r.entry)) =
        a.pairs (l.map fun r => h.keys r.entry) := by
    intro l
    induction l with
    | nil => intro _; rfl
    | cons r l ih =>
      intro hl
      rw [List.map_cons, List.map_cons, a.pairs_cons (hr.item _ (hl r (List.mem_cons_self ..))),
        ih fun r' hr' => hl r' (List.mem_cons_of_mem _ hr')]
  rw [KeyedHold.entries, hr.queue b]
  exact key _ fun r hmem => (hr.inv.list.ofRef b r hmem).1

/-! ## Taking items in order -/

/-- The note on an item that `release` passes to `appendHeld`. -/
def Emitted.toItem (cfg : Config α) (threshold : ℤ) (filler : Bool) (e : Emitted α) : Item α :=
  ⟨cfg.getDestProc e.item, e.item, ⟨some e.bucket, threshold, filler, e.held⟩⟩

/-- The first key in order, with what giving it up does. -/
theorem emittedOf_head {a : KeyedHold UInt64 α} {k : UInt64} {l : List UInt64} {m : ℕ}
    (h : a.order 0 m = k :: l) :
    ∃ b x rest, b < m ∧ (∀ c < b, a.entries c = []) ∧ a.entries b = (k, x) :: rest ∧
      (a.erase k).entries = Function.update a.entries b rest ∧ (a.erase k).order 0 m = l ∧
      ∀ ks, emittedOf a (k :: ks) =
        ⟨x, b, fun c => (a.entries c).length⟩ :: emittedOf (a.erase k) ks := by
  obtain ⟨b, q, -, hb, hq, hlow, hrest⟩ := a.order_head h
  obtain ⟨x, hx⟩ := a.item_of_mem (k := k) (b := b) (hq ▸ List.mem_cons_self ..)
  obtain ⟨he1, he2⟩ := a.entries_erase_head hq hx
  refine ⟨b, x, a.pairs q, by omega, fun c hc => ?_, he1, he2, hrest, fun ks => ?_⟩
  · rw [a.entries_eq_nil, hlow c (Nat.zero_le _) hc]
  · rw [emittedOf, hx]
    simp only [a.entries_length]

/-- Giving up the first keys in order, from admitted buckets. -/
theorem takes_path (cfg : Config α) (R : Rules) {m : ℕ} {l : List UInt64} :
    ∀ (ks : List UInt64) (a : KeyedHold UInt64 α) (L : Lane α), a.order 0 m = ks ++ l →
      (∀ b < m, (b : ℤ) ≤ L.threshold) → L.held = a.entries →
      Path cfg R [] L
        { L with
          held := (a.eraseAll ks).entries
          buffer := L.buffer ++ (emittedOf a ks).map (Emitted.toItem cfg L.threshold false) } := by
  intro ks
  induction ks with
  | nil =>
    intro a L _ _ hheld
    have : { L with held := (a.eraseAll []).entries, buffer := L.buffer ++ [] } = L := by
      rw [List.append_nil]
      exact Lane.ext rfl rfl rfl hheld.symm rfl rfl rfl rfl rfl rfl
    rw [emittedOf, List.map_nil, this]
    exact .nil L
  | cons k ks ih =>
    intro a L horder hm hheld
    obtain ⟨b, x, rest, hb, -, hentry, hera, horder', hemit⟩ := emittedOf_head horder
    have hmove : Move cfg R [] L _ := Move.take L b k x rest (hm b hb) (by rw [hheld, hentry])
    have hlen : L.heldLen = fun c => (a.entries c).length := by
      unfold Lane.heldLen; rw [hheld]
    have hrest := ih (a.erase k)
      { L with
        held := Function.update L.held b rest
        buffer := L.buffer ++ [Emitted.toItem cfg L.threshold false
          ⟨x, b, fun c => (a.entries c).length⟩] } horder' hm
      (show Function.update L.held b rest = (a.erase k).entries by rw [hera, hheld])
    dsimp only at hrest
    rw [List.append_assoc, List.singleton_append] at hrest
    rw [hemit ks, List.map_cons]
    rw [hlen] at hmove
    exact (Path.single hmove).andThen hrest

theorem Fillers.trans {cfg : Config α} {t : ℤ} {held held' held'' : ℕ → List (UInt64 × α)}
    {fs gs : List (Item α)} (h1 : Fillers cfg t held fs held')
    (h2 : Fillers cfg t held' gs held'') : Fillers cfg t held (fs ++ gs) held'' := by
  induction h2 with
  | nil => rw [List.append_nil]; exact h1
  | snoc _ habove hlow hb ih =>
    rw [← List.append_assoc]
    exact .snoc ih habove hlow hb

/-- Giving up the first keys in order, from buckets that are not admitted. -/
theorem takes_fillers (cfg : Config α) {t : ℤ} {m : ℕ} {l : List UInt64} :
    ∀ (ks : List UInt64) (a : KeyedHold UInt64 α), a.order 0 m = ks ++ l →
      (∀ b : ℕ, (b : ℤ) ≤ t → a.entries b = []) →
      Fillers cfg t a.entries ((emittedOf a ks).map (Emitted.toItem cfg t true))
        (a.eraseAll ks).entries := by
  intro ks
  induction ks with
  | nil => intro a _ _; exact .nil _
  | cons k ks ih =>
    intro a horder hlow
    obtain ⟨b, x, rest, hb, hempty, hentry, hera, horder', hemit⟩ := emittedOf_head horder
    have hbt : t < b := by
      by_contra h
      rw [hlow b (by omega)] at hentry
      cases hentry
    have hone := Fillers.snoc (show Fillers cfg t a.entries [] a.entries from .nil _) hbt hempty
      hentry
    rw [← hera] at hone
    have hrest := ih (a.erase k) horder' fun c hc => by
      rw [hera, Function.update_of_ne (by omega), hlow c hc]
    rw [hemit ks, List.map_cons, ← List.singleton_append]
    exact hone.trans hrest

namespace Dest

/-- A destination between two operations, with combining on. -/
structure Folded (cfg : Config α) (d : Dest α) (a : KeyedHold UInt64 α) : Prop where
  refines : Refines d.hold a
  bucketCount : d.hold.bucketCount = cfg.histoBucketCount

theorem Folded.stuck {cfg : Config α} {d : Dest α} {a : KeyedHold UInt64 α}
    (hd : d.Folded cfg a) : d.hold.stuck = false := hd.refines.inv.table.stuck

theorem Folded.congr {cfg : Config α} {d d' : Dest α} {a : KeyedHold UInt64 α}
    (hd : d.Folded cfg a) (h : d'.hold = d.hold) : d'.Folded cfg a := by
  obtain ⟨h1, h2⟩ := hd
  exact ⟨by rwa [h], by rwa [h]⟩

theorem Folded.held {cfg : Config α} {k : Knobs F} (hk : k.combining = true) {d : Dest α}
    {a : KeyedHold UInt64 α} (hd : d.Folded cfg a) : (d.lane cfg k).held = a.entries := by
  funext b
  show (if k.combining = true then _ else _) = _
  rw [if_pos hk]
  exact hd.refines.entries_eq b

theorem foldl_put_eq {β : Type*} (f : β → Item α) :
    ∀ (out : List β) (d : Dest α), (out.foldl (fun d e => d.put (f e)) d) =
      { d with msgBuffer := (out.foldl (fun d e => d.put (f e)) d).msgBuffer } ∧
      (out.foldl (fun d e => d.put (f e)) d).msgBuffer.items =
        d.msgBuffer.items ++ out.map f := by
  intro out
  induction out with
  | nil => intro d; exact ⟨rfl, (List.append_nil _).symm⟩
  | cons e out ih =>
    intro d
    obtain ⟨h1, h2⟩ := ih (d.put (f e))
    rw [List.foldl_cons]
    refine ⟨h1, h2.trans ?_⟩
    show d.msgBuffer.items ++ [f e] ++ _ = _
    rw [List.append_assoc]
    rfl

/-- What `release` does to a destination. -/
theorem releaseInto_spec {cfg : Config α} (k : Knobs F) (high limit : ℤ) (filler : Bool)
    {d : Dest α} {a : KeyedHold UInt64 α} (hd : d.Folded cfg a)
    (hf : d.hold.ReleaseSafe high limit) :
    let ks := (a.order 0 (high + 1).toNat).take limit.toNat
    let d' := d.releaseInto cfg k high limit filler
    d'.Folded cfg (a.eraseAll ks) ∧ Released d.hold d'.hold ∧
      d'.msgBuffer.items = d.msgBuffer.items ++
        (emittedOf a ks).map (Emitted.toItem cfg k.tramThreshold filler) ∧
      d'.msgBuffer.next = d.msgBuffer.next + ks.length ∧
      d' = { d with hold := d'.hold, msgBuffer := d'.msgBuffer } := by
  intro ks d'
  obtain ⟨hout, hr, hrel⟩ := release_refines hd.refines hf
  obtain ⟨h1, h2⟩ := foldl_put_eq (Emitted.toItem cfg k.tramThreshold filler)
    (d.hold.release high limit).2 { d with hold := (d.hold.release high limit).1 }
  have hnext := foldl_put_next (Emitted.toItem cfg k.tramThreshold filler)
    (d.hold.release high limit).2 { d with hold := (d.hold.release high limit).1 }
  have hlen : (emittedOf a ks).length = ks.length := by
    refine emittedOf_length ((a.order_nodup _ 0).sublist (List.take_sublist ..)) fun k hk => ?_
    obtain ⟨c, -, -, hc⟩ := a.mem_order.mp (List.mem_of_mem_take hk)
    obtain ⟨x, hx⟩ := a.item_of_mem hc
    simp [hx]
  have hhold : d'.hold = (d.hold.release high limit).1 := by
    show (List.foldl _ _ _ : Dest α).hold = _
    exact congrArg Dest.hold h1
  refine ⟨⟨?_, ?_⟩, ?_, ?_, ?_, ?_⟩
  · rw [hhold]; exact hr
  · rw [hhold]; exact hrel.bucketCount.trans hd.bucketCount
  · rw [hhold]; exact hrel
  · rw [← hout]; exact h2
  · rw [← hlen, ← hout]; exact hnext
  · rw [hhold]; exact h1

/-- A destination between two operations, with combining on. -/
structure Folds (cfg : Config α) (k : Knobs F) (d : Dest α) : Prop extends Sized k.bufSize d where
  folded : ∃ a, d.Folded cfg a

theorem Folds.stuck {cfg : Config α} {k : Knobs F} {d : Dest α} (hd : d.Folds cfg k) :
    d.hold.stuck = false := by
  obtain ⟨a, ha⟩ := hd.folded
  exact ha.stuck

theorem Folds.congr {cfg : Config α} {k : Knobs F} {d d' : Dest α} (hd : d.Folds cfg k)
    (hm : d'.msgBuffer = d.msgBuffer) (hs : d'.sent = d.sent) (hh : d'.hold = d.hold) :
    d'.Folds cfg k := by
  obtain ⟨a, ha⟩ := hd.folded
  exact ⟨hd.toSized.congr hm hs, a, ha.congr hh⟩

/-! ## Releases -/

/-- Every key held is counted by `count_`. -/
theorem order_length_le {cfg : Config α} {d : Dest α} {a : KeyedHold UInt64 α}
    (ha : d.Folded cfg a) (m : ℕ) : (a.order 0 m).length ≤ d.hold.count := by
  have hsize : d.hold.count = (a.order 0 d.hold.bucketCount).length := ha.refines.size_eq
  rw [hsize]
  refine ((a.order_nodup m 0).subperm fun key hkey => ?_).length_le
  obtain ⟨c, -, -, hc⟩ := a.mem_order.mp hkey
  obtain ⟨x, hx⟩ := a.item_of_mem hc
  obtain ⟨e, he, -, -, hb⟩ := ha.refines.held_of_item hx
  have := ha.refines.inv.bucketLt e he
  exact a.mem_order.mpr ⟨c, Nat.zero_le _, by omega, hc⟩

/-- The end of one round of a release loop: a full buffer is shipped. -/
theorem shipFull_path (cfg : Config α) {k : Knobs F} (R : Rules) {d d' : Dest α}
    {a : KeyedHold UInt64 α} (hd : d.Fits k.bufSize) (hpos : 0 < k.bufSize)
    (ha : d.Folded cfg a) (hfull : ¬ d.msgBuffer.next < k.bufSize)
    (full : Bool) (hp : Path cfg R [] (d'.lane cfg k) (d.lane cfg k)) :
    (d.uncount.shipBuffer k full).Sized k.bufSize ∧ (d.uncount.shipBuffer k full).Folded cfg a ∧
      Path cfg R [] (d'.lane cfg k) ((d.uncount.shipBuffer k full).lane cfg k) := by
  refine ⟨hd.uncount.shipBuffer hpos full, ha.congr rfl, hp.andThen ?_⟩
  exact ship_path cfg k R hd (by omega) full

section CombiningOn

variable (cfg : Config α) {k : Knobs F} (hk : k.combining = true) (R : Rules)
include hk

theorem releaseAdmitted_path {d : Dest α} {a : KeyedHold UInt64 α} (hd : d.Sized k.bufSize)
    (ha : d.Folded cfg a) (hf : d.hold.DrainSafe k.tramThreshold) :
    ∃ ks l, a.order 0 (k.tramThreshold + 1).toNat = ks ++ l ∧
      (d.releaseAdmitted cfg k).Folded cfg (a.eraseAll ks) ∧
      Released d.hold (d.releaseAdmitted cfg k).hold ∧
      Path cfg R [] (d.lane cfg k) ((d.releaseAdmitted cfg k).lane cfg k) ∧
      (d.releaseAdmitted cfg k).msgBuffer.next = d.msgBuffer.next + ks.length ∧
      ((d.releaseAdmitted cfg k).msgBuffer.next < k.bufSize → l = []) := by
  have hlt := hd.lt
  set n := (k.bufSize - d.msgBuffer.next : ℤ).toNat with hn
  obtain ⟨h1, h2, h3, h4, h5⟩ := releaseInto_spec k k.tramThreshold
    (k.bufSize - d.msgBuffer.next) false ha (hf _)
  rw [← hn] at h1 h3 h4
  refine ⟨_, (a.order 0 (k.tramThreshold + 1).toNat).drop n, (List.take_append_drop n _).symm,
    h1, h2, ?_, h4, fun hroom => ?_⟩
  · have hpath := takes_path cfg R _ a (d.lane cfg k) (List.take_append_drop n _).symm
      (fun b hb => lt_toNat_iff.mp hb) (ha.held hk)
    convert hpath using 1
    refine Lane.ext rfl rfl rfl (h1.held hk) h3 ?_ ?_ ?_ ?_ h2.retired
    all_goals
      unfold releaseAdmitted
      rw [h5]
      rfl
  · have : (d.releaseAdmitted cfg k).msgBuffer.next = _ := h4
    rw [this, List.length_take] at hroom
    exact List.drop_eq_nil_of_le (by omega)

theorem releaseFullLoop_path [ReleaseArith F] :
    ∀ (fuel : ℕ) (d : Dest α), d.Folds cfg k → d.hold.DrainSafe k.tramThreshold →
      (releaseFullLoop cfg k fuel d).Folds cfg k ∧
        Released d.hold (releaseFullLoop cfg k fuel d).hold ∧
        Path cfg R [] (d.lane cfg k) ((releaseFullLoop cfg k fuel d).lane cfg k) := by
  intro fuel
  induction fuel with
  | zero => intro d hd hf; exact ⟨hd, .refl _, .nil _⟩
  | succ fuel ih =>
    intro d hd hf
    obtain ⟨a, ha⟩ := hd.folded
    obtain ⟨ks, l, -, ha', hrel, hp, -⟩ := releaseAdmitted_path cfg hk R hd.toSized ha hf
    have hfits := releaseAdmitted_fits cfg hd.toSized
    rw [releaseFullLoop]
    dsimp only
    split_ifs with hge hstop
    · exact ⟨⟨⟨hfits, hstop.resolve_left (by simp [ha'.stuck])⟩, _, ha'⟩, hrel, hp⟩
    · rw [not_or] at hstop
      obtain ⟨hs, ha'', hp'⟩ := shipFull_path cfg R hfits hd.pos ha' hstop.2 true hp
      obtain ⟨h1, h2, h3⟩ := ih _ ⟨hs, _, ha''⟩ (hrel.drainSafe ha'.refines.inv hf)
      exact ⟨h1, hrel.trans h2, hp'.andThen h3⟩
    · exact ⟨hd, .refl _, .nil _⟩

theorem releaseAbove_folds [ReleaseArith F] {d : Dest α} (hd : d.Folds cfg k)
    (hf : d.hold.DrainSafe k.tramThreshold) :
    (d.releaseAbove cfg k).Folds cfg k ∧ Released d.hold (d.releaseAbove cfg k).hold ∧
      Path cfg R [] (d.lane cfg k) ((d.releaseAbove cfg k).lane cfg k) := by
  unfold releaseAbove
  rw [hk]
  simp only [if_true]
  split_ifs
  · exact releaseFullLoop_path cfg hk R _ d hd hf
  · exact ⟨hd, .refl _, .nil _⟩

/-! ## Flushes -/

/-- A flush meets no reference about to be taken for current: it empties the admitted
    buckets, and its fillers come from any bucket. -/
def FlushSafe (k : Knobs F) (d : Dest α) : Prop :=
  d.hold.DrainSafe (if cfg.addFillers then cfg.histoBucketCount - 1 else k.tramThreshold)

omit hk in
theorem FlushSafe.admitted {cfg : Config α} {d : Dest α} {a : KeyedHold UInt64 α}
    (hf : d.FlushSafe cfg k) (ha : d.Folded cfg a) : d.hold.DrainSafe k.tramThreshold := by
  refine hf.mono ?_
  rw [ha.bucketCount]
  split_ifs <;> omega

omit hk in
theorem FlushSafe.fillers {cfg : Config α} {d : Dest α} (hf : d.FlushSafe cfg k)
    (hfill : cfg.addFillers = true) : d.hold.DrainSafe (cfg.histoBucketCount - 1) := by
  unfold FlushSafe at hf
  rwa [if_pos hfill] at hf

omit hk in
theorem FlushSafe.released {cfg : Config α} {d d' : Dest α} {a : KeyedHold UInt64 α}
    (hf : d.FlushSafe cfg k) (hrel : Released d.hold d'.hold) (ha' : d'.Folded cfg a) :
    d'.FlushSafe cfg k := hrel.drainSafe ha'.refines.inv hf

/-- The loop of `flushDest` empties the admitted buckets: its bound is never reached. -/
theorem flushHeldLoop_path :
    ∀ (fuel : ℕ) (d : Dest α) (a : KeyedHold UInt64 α), d.Sized k.bufSize → d.Folded cfg a →
      d.hold.DrainSafe k.tramThreshold → (a.order 0 (k.tramThreshold + 1).toNat).length < fuel →
      (flushHeldLoop cfg k fuel d).Sized k.bufSize ∧
        (flushHeldLoop cfg k fuel d).Folded cfg
          (a.eraseAll (a.order 0 (k.tramThreshold + 1).toNat)) ∧
        Released d.hold (flushHeldLoop cfg k fuel d).hold ∧
        Path cfg R [] (d.lane cfg k) ((flushHeldLoop cfg k fuel d).lane cfg k) ∧
        (flushHeldLoop cfg k fuel d).msgBuffer.next =
          (d.msgBuffer.next + (a.order 0 (k.tramThreshold + 1).toNat).length) % k.bufSize := by
  intro fuel
  induction fuel with
  | zero => intro d a _ _ _ h; cases h
  | succ fuel ih =>
    intro d a hd ha hf hlen
    obtain ⟨ks, l, horder, ha', hrel, hp, hnext, hall⟩ := releaseAdmitted_path cfg hk R hd ha hf
    have hfits := releaseAdmitted_fits cfg hd
    have horder' := KeyedHold.order_eraseAll_prefix ks a horder
    rw [flushHeldLoop]
    split_ifs with hstop
    · have hroom := hstop.resolve_left (by simp [ha'.stuck])
      rw [hall hroom, List.append_nil] at horder
      rw [horder]
      refine ⟨⟨hfits, hroom⟩, ha', hrel, hp, ?_⟩
      rw [← hnext, Nat.mod_eq_of_lt hroom]
    · rw [not_or] at hstop
      obtain ⟨hs, ha'', hp'⟩ := shipFull_path cfg R hfits hd.pos ha' hstop.2 false hp
      have hlt := hd.lt
      have hle := hfits.le
      have hlen' : ((a.eraseAll ks).order 0 (k.tramThreshold + 1).toNat).length < fuel := by
        rw [horder, List.length_append] at hlen
        rw [horder']
        omega
      obtain ⟨h1, h2, h3, h4, h5⟩ := ih _ _ hs ha'' (hrel.drainSafe ha'.refines.inv hf) hlen'
      rw [horder'] at h2 h5
      rw [horder, KeyedHold.eraseAll_append]
      refine ⟨h1, h2, hrel.trans h3, hp'.andThen h4, h5.trans ?_⟩
      -- the buffer was full, so it is empty again
      show (0 + l.length) % k.bufSize = _
      rw [List.length_append, show d.msgBuffer.next + (ks.length + l.length) =
        0 + l.length + 1 * k.bufSize by omega, Nat.add_mul_mod_self_right]

theorem fillersHold_path {d₀ d : Dest α} {a : KeyedHold UInt64 α} (ha : d.Folded cfg a)
    (hf : d.hold.DrainSafe (cfg.histoBucketCount - 1))
    (hlow : ∀ b : ℕ, (b : ℤ) ≤ k.tramThreshold → a.entries b = [])
    (hheld : (d₀.lane cfg k).held = a.entries) :
    ∃ a' fs, (d.fillersHold cfg k).Folded cfg a' ∧
      Fillers cfg k.tramThreshold (d₀.lane cfg k).held fs
        ((d.fillersHold cfg k).lane cfg k).held ∧
      (d.fillersHold cfg k).msgBuffer.items = d.msgBuffer.items ++ fs ∧
      (fs ≠ [] → (d.fillersHold cfg k).msgBuffer.next ≤ k.bufSize / 2) ∧
      d.fillersHold cfg k =
        { d with
          hold := (d.fillersHold cfg k).hold
          msgBuffer := (d.fillersHold cfg k).msgBuffer } ∧
      Released d.hold (d.fillersHold cfg k).hold := by
  unfold fillersHold
  split_ifs with hroom
  · obtain ⟨h1, h2, h3, h4, h5⟩ := releaseInto_spec k (cfg.histoBucketCount - 1)
      (k.bufSize / 2 - d.msgBuffer.next : ℕ) true ha (hf _)
    refine ⟨_, _, h1, ?_, h3, fun _ => ?_, h5, h2⟩
    · rw [h1.held hk, hheld]
      exact takes_fillers cfg _ a (List.take_append_drop _ _).symm hlow
    · rw [h4, List.length_take]
      omega
  · refine ⟨a, [], ha, ?_, (List.append_nil _).symm, fun h => absurd rfl h, rfl, .refl _⟩
    rw [ha.held hk, hheld]
    exact .nil _

theorem shipHeld_path (hR : R.flush = true) {d : Dest α} {a : KeyedHold UInt64 α}
    (hd : d.Sized k.bufSize) (ha : d.Folded cfg a) (hf : d.FlushSafe cfg k)
    (hlow : ∀ b : ℕ, (b : ℤ) ≤ k.tramThreshold → a.entries b = []) :
    (d.shipHeld cfg k).Folds cfg k ∧ Released d.hold (d.shipHeld cfg k).hold ∧
      Path cfg R [] (d.lane cfg k) ((d.shipHeld cfg k).lane cfg k) ∧
      ((d.shipHeld cfg k).lane cfg k).Flushed := by
  have hdrained : (d.lane cfg k).Drained := by
    intro b hb
    rw [ha.held hk]
    exact hlow b hb
  have hsized := shipHeld_sized cfg hd
  unfold shipHeld at hsized ⊢
  split_ifs at hsized ⊢ with hnext hfillers
  · exact ⟨⟨hd, a, ha⟩, .refl _, .nil _, List.length_eq_zero_iff.mp (hd.sound.written.trans hnext),
      hdrained⟩
  · dsimp only at hsized ⊢
    have hun : d.uncount.Sized k.bufSize := hd.uncount
    obtain ⟨a', fs, ha', hfill, hitems, hhalf, hrest, hrel⟩ := fillersHold_path cfg hk
      (ha.congr rfl : d.uncount.Folded cfg a) (hf.fillers hfillers) hlow (ha.held hk)
    have hsound := (fillersHold_sized cfg hun).sound
    generalize d.uncount.fillersHold cfg k = d' at *
    rw [if_neg (by simp [ha'.stuck])] at hsized ⊢
    refine ⟨⟨hsized, a', ha'.congr rfl⟩, hrel, ?_, rfl, fun b hb => ?_⟩
    · exact shipFilled_path cfg k hR hd.sound hsound hnext hfill hitems hhalf
        (by rw [hrest]; rfl) (by rw [hrest]; rfl) (by rw [hrest]; rfl) (by rw [hrest]; rfl)
        hrel.retired
    · exact (hfill.admitted b hb).trans (hdrained b hb)
  · dsimp only at hsized ⊢
    rw [if_neg (by simp [uncount, ha.stuck])] at hsized ⊢
    exact ⟨⟨hsized, a, ha.congr rfl⟩, .refl _, ship_path cfg k R hd.toFits hnext false, rfl,
      hdrained⟩

theorem flushHold_path (hR : R.flush = true) {d : Dest α} (hd : d.Folds cfg k)
    (hf : d.FlushSafe cfg k) :
    (d.flushHold cfg k).Folds cfg k ∧ Released d.hold (d.flushHold cfg k).hold ∧
      Path cfg R [] (d.lane cfg k) ((d.flushHold cfg k).lane cfg k) ∧
      ((d.flushHold cfg k).lane cfg k).Flushed := by
  obtain ⟨a, ha⟩ := hd.folded
  obtain ⟨h1, h2, h3, h4, -⟩ := flushHeldLoop_path cfg hk R (d.hold.count + 1) d a hd.toSized
    ha (hf.admitted ha) (Nat.lt_succ_of_le (order_length_le ha _))
  have hlow : ∀ b : ℕ, (b : ℤ) ≤ k.tramThreshold →
      (a.eraseAll (a.order 0 (k.tramThreshold + 1).toNat)).entries b = [] := by
    intro b hb
    exact a.entries_eraseAll_order (by omega)
  unfold flushHold
  dsimp only
  rw [if_neg (by simp [h2.stuck])]
  obtain ⟨h6, h7, h8, h9⟩ := shipHeld_path cfg hk R hR h1 h2 (hf.released h3 h2) hlow
  exact ⟨h6, h3.trans h7, h4.andThen h8, h9⟩

/-! ## Sends -/

omit hk in
theorem countInsert_new (d : Dest α) (b : ℕ) :
    d.countInsert k (resultOf none b) =
      { d with updatesInTram := d.updatesInTram + if (b : ℤ) ≤ k.tramThreshold then 1 else 0 } := by
  unfold countInsert resultOf
  dsimp only
  by_cases h : (b : ℤ) ≤ k.tramThreshold <;> simp [h]

omit hk in
theorem countInsert_same (d : Dest α) (b : ℕ) : d.countInsert k (resultOf (some b) b) = d := by
  simp [countInsert, resultOf]

omit hk in
theorem countInsert_moved (d : Dest α) {b c : ℕ} (hbc : b ≠ c) :
    d.countInsert k (resultOf (some c) b) =
      { d with updatesInTram := d.updatesInTram + (if (b : ℤ) ≤ k.tramThreshold then 1 else 0) -
          if (c : ℤ) ≤ k.tramThreshold then 1 else 0 } := by
  have hne : ¬ (c : ℤ) = b := by omega
  unfold countInsert resultOf
  dsimp only
  by_cases h1 : (b : ℤ) ≤ k.tramThreshold <;> by_cases h2 : (c : ℤ) ≤ k.tramThreshold <;>
    simp [h1, h2, hne]

/-- What an insert into the hold does to the lane. -/
theorem insert_move [Inhabited α] (hR : R.fold = true) {d : Dest α} {a : KeyedHold UInt64 α}
    (ha : d.Folded cfg a) (x : α) {b : ℕ} (hf : d.hold.InsertSafe cfg.ops x b) (pe : ℕ)
    (hb : b < cfg.histoBucketCount) :
    ∃ a', (({ d with hold := (d.hold.insert cfg.ops x b).1 } : Dest α).countInsert k
        (d.hold.insert cfg.ops x b).2).Folded cfg a' ∧
      Path cfg R [.send x b pe] (d.lane cfg k)
        ((({ d with hold := (d.hold.insert cfg.ops x b).1 } : Dest α).countInsert k
          (d.hold.insert cfg.ops x b).2).lane cfg k) := by
  obtain ⟨h1, h2, -, h4⟩ := insert_refines ha.refines cfg.ops x
    (show b < d.hold.bucketCount by rwa [ha.bucketCount]) hf
  have hcount := insert_bucketCount cfg.ops d.hold x b
  have hheld := ha.held hk
  generalize d.hold.insert cfg.ops x b = c at *
  have hfolded : ∀ a', Refines c.1 a' →
      ({ d with hold := c.1 } : Dest α).Folded cfg a' := fun a' hr =>
    ⟨hr, hcount.trans ha.bucketCount⟩
  cases hitem : a.item (cfg.ops.key x) with
  | none =>
    rw [KeyedHold.insert_of_none _ _ hitem] at h1 h2 h4
    rw [h2, countInsert_new]
    have hmove : Move cfg R [.send x b pe] (d.lane cfg k) _ := Move.hold _ x b pe hb
    refine ⟨_, (hfolded _ h1).congr rfl, ?_⟩
    convert Path.single hmove using 1
    refine Lane.ext rfl rfl rfl ?_ rfl rfl rfl rfl rfl (h4.trans (List.append_nil _))
    rw [hheld]
    exact (Folded.held hk (hfolded _ h1)).trans (a.entries_add x b hitem)
  | some p =>
    obtain ⟨y, old⟩ := p
    obtain ⟨l, r, hsplit, hreplace, herase⟩ := a.entries_split hitem
    rw [KeyedHold.insert_of_some _ _ hitem] at h1 h2 h4
    split_ifs at h1 h2 h4 with hmoved
    · rw [h2, countInsert_moved _ hmoved.2]
      have hmove : Move cfg R [.send x b pe] (d.lane cfg k) _ :=
        Move.foldMove _ x y b old pe l r hR hb (by rw [hheld]; exact hsplit) hmoved
      refine ⟨_, (hfolded _ h1).congr rfl, ?_⟩
      convert Path.single hmove using 1
      refine Lane.ext rfl rfl rfl ?_ rfl rfl rfl rfl rfl h4
      rw [hheld]
      exact (Folded.held hk (hfolded _ h1)).trans (a.entries_move _ hmoved.2 herase)
    · rw [h2, countInsert_same]
      have hmove : Move cfg R [.send x b pe] (d.lane cfg k) _ :=
        Move.fold _ x y b old pe l r hR (by rw [hheld]; exact hsplit) hmoved
      refine ⟨_, hfolded _ h1, ?_⟩
      convert Path.single hmove using 1
      refine Lane.ext rfl rfl rfl ?_ rfl rfl rfl rfl rfl h4
      rw [hheld]
      exact (Folded.held hk (hfolded _ h1)).trans (hreplace _)

/-- A send meets no reference about to be taken for current: not in `insert`, and not in
    the releases up to the threshold that may follow. -/
structure SendSafe [Inhabited α] (k : Knobs F) (x : α) (b : ℕ) (d : Dest α) : Prop where
  insert : d.hold.InsertSafe cfg.ops x b
  release : (d.hold.insert cfg.ops x b).1.DrainSafe k.tramThreshold

/-- A send inserts into the hold and counts, and then releases if the level is reached. -/
theorem sendHold_insert [ReleaseArith F] [Inhabited α] (hR : R.fold = true) {d : Dest α}
    (hd : d.Folds cfg k) (x : α) {b : ℕ} (hs : d.SendSafe cfg k x b) (pe : ℕ)
    (hb : b < cfg.histoBucketCount) :
    ∃ d' : Dest α, d'.Folds cfg k ∧ d'.hold.DrainSafe k.tramThreshold ∧
      d'.hold = (d.hold.insert cfg.ops x b).1 ∧
      Path cfg R [.send x b pe] (d.lane cfg k) (d'.lane cfg k) ∧
      d.sendHold cfg k x b =
        if ReleaseArith.ge d'.updatesInTram k.releaseLevel then d'.releaseFull cfg k else d' := by
  obtain ⟨a, ha⟩ := hd.folded
  obtain ⟨a', ha', hp⟩ := insert_move cfg hk R hR ha x hs.insert pe hb
  have hhold : (({ d with hold := (d.hold.insert cfg.ops x b).1 } : Dest α).countInsert k
      (d.hold.insert cfg.ops x b).2).hold = (d.hold.insert cfg.ops x b).1 := by
    unfold countInsert
    dsimp only
    split_ifs <;> rfl
  have hsized := countInsert_sized k (d.hold.insert cfg.ops x b).2
    (hd.toSized.congr rfl rfl :
      ({ d with hold := (d.hold.insert cfg.ops x b).1 } : Dest α).Sized k.bufSize)
  have hstuck : (d.hold.insert cfg.ops x b).1.stuck = false := by
    rw [← hhold]
    exact ha'.stuck
  refine ⟨_, ⟨hsized, a', ha'⟩, by rw [hhold]; exact hs.release, hhold, hp, ?_⟩
  unfold sendHold
  dsimp only
  rw [if_neg (by simp [hstuck])]

theorem sendHold_path [ReleaseArith F] [Inhabited α] (hR : R.fold = true) {d : Dest α}
    (hd : d.Folds cfg k) (x : α) {b : ℕ} (hs : d.SendSafe cfg k x b) (pe : ℕ)
    (hb : b < cfg.histoBucketCount) :
    (d.sendHold cfg k x b).Folds cfg k ∧
      Released (d.hold.insert cfg.ops x b).1 (d.sendHold cfg k x b).hold ∧
      Path cfg R [.send x b pe] (d.lane cfg k) ((d.sendHold cfg k x b).lane cfg k) := by
  obtain ⟨d', hd', hf, hhold, hp, hsend⟩ := sendHold_insert cfg hk R hR hd x hs pe hb
  rw [hsend, ← hhold]
  split_ifs
  · obtain ⟨h1, h2, h3⟩ := releaseFullLoop_path cfg hk R _ d' hd' hf
    have := hp.trans h3
    rw [List.append_nil] at this
    exact ⟨h1, h2, this⟩
  · exact ⟨hd', .refl _, hp⟩

/-! ## New settings and partial flushes -/

omit hk in
theorem foldl_add_eq (l : List ℤ) : ∀ u : ℤ, l.foldl (· + ·) u = u + l.sum := by
  induction l with
  | nil => intro u; simp
  | cons x l ih =>
    intro u
    rw [List.foldl_cons, ih, List.sum_cons]
    omega

omit hk in
theorem foldl_sub_eq (l : List ℤ) : ∀ u : ℤ, l.foldl (· - ·) u = u - l.sum := by
  induction l with
  | nil => intro u; simp
  | cons x l ih =>
    intro u
    rw [List.foldl_cons, ih, List.sum_cons]
    omega

theorem retuneHold_path [ReleaseArith F] (direct : ℤ) {new : ℤ} (selectivity : F)
    (hold : -1 ≤ k.tramThreshold) (hnew : -1 ≤ new) {d : Dest α} (hd : d.Folds cfg k) :
    (d.retune cfg k new).Folds cfg (k.retuned direct new selectivity) ∧
      Path cfg R [] (d.lane cfg k)
        ((d.retune cfg k new).lane cfg (k.retuned direct new selectivity)) := by
  obtain ⟨a, ha⟩ := hd.folded
  set old := k.tramThreshold with holdeq
  have hlive : ∀ b, d.hold.live b = ((d.lane cfg k).held b).length := by
    intro b
    rw [ha.refines.live_eq, ha.held hk, a.entries_length]
  have hsum : ((List.range' (min old new + 1).toNat (max old new - min old new).toNat).map
      d.hold.live).sum = (countUpTo (d.lane cfg k).held (max old new) : ℤ) -
        countUpTo (d.lane cfg k).held (min old new) := by
    have hIco : ((List.range' (min old new + 1).toNat (max old new - min old new).toNat).map
        d.hold.live).sum =
          ∑ b ∈ Finset.Ico (min old new + 1).toNat (max old new + 1).toNat, d.hold.live b := by
      rw [show (max old new - min old new).toNat =
        (max old new + 1).toNat - (min old new + 1).toNat by omega]
      rfl
    have hsplit := Finset.sum_Ico_consecutive (fun b => ((d.lane cfg k).held b).length)
      (Nat.zero_le (min old new + 1).toNat)
      (show (min old new + 1).toNat ≤ (max old new + 1).toNat by omega)
    unfold countUpTo
    rw [hIco, Finset.range_eq_Ico, Finset.range_eq_Ico, ← hsplit,
      Finset.sum_congr rfl fun b _ => hlive b]
    push_cast
    omega
  have heq : d.retune cfg k new =
      { d with updatesInTram := d.updatesInTram + countUpTo (d.lane cfg k).held new -
          countUpTo (d.lane cfg k).held old } := by
    unfold retune retuneHold
    rw [if_pos hk]
    dsimp only
    rw [← holdeq]
    congr 1
    split_ifs with h
    · rw [foldl_add_eq, hsum, max_eq_right (by omega), min_eq_left (by omega)]
      omega
    · rw [foldl_sub_eq, List.sum_reverse, hsum, max_eq_left (by omega), min_eq_right (by omega)]
      omega
  rw [heq]
  exact ⟨⟨hd.toSized.congr rfl rfl, a, ha.congr rfl⟩,
    Path.single (Move.retune (R := R) (d.lane cfg k) new hnew)⟩

theorem flushIfStale_folds (hR : R.flush = true) {d : Dest α} (hd : d.Folds cfg k)
    (hf : d.FlushSafe cfg k) :
    (d.flushIfStale cfg k).Folds cfg k ∧ Released d.hold (d.flushIfStale cfg k).hold ∧
      Path cfg R [] (d.lane cfg k) ((d.flushIfStale cfg k).lane cfg k) := by
  have hnew : ∀ d' : Dest α, d'.Folds cfg k → Released d.hold d'.hold →
      Path cfg R [] (d.lane cfg k) (d'.lane cfg k) →
      (if d'.hold.stuck then d' else { d' with fullSends := 0 }).Folds cfg k ∧
        Released d.hold (if d'.hold.stuck then d' else { d' with fullSends := 0 }).hold ∧
        Path cfg R [] (d.lane cfg k)
          ((if d'.hold.stuck then d' else { d' with fullSends := 0 }).lane cfg k) := by
    intro d' hd' hrel hp
    rw [hd'.stuck]
    exact ⟨hd'.congr rfl rfl rfl, hrel,
      hp.andThen (Path.single (Move.newRound (d'.lane cfg k)))⟩
  by_cases hcond : d.fullSends = 0 ∧ (d.updatesInTram > 0 ∨ d.msgBuffer.next ≠ 0)
  · obtain ⟨h1, h2, h3, -⟩ := flushHold_path cfg hk R hR hd hf
    rw [flushIfStale, if_pos hcond, flushDest, if_pos hk]
    exact hnew _ h1 h2 h3
  · rw [flushIfStale, if_neg hcond]
    exact hnew _ hd (.refl _) (.nil _)

theorem flushIfAny_folds (hR : R.flush = true) {d : Dest α} (hd : d.Folds cfg k)
    (hf : d.FlushSafe cfg k) :
    (d.flushIfAny cfg k).Folds cfg k ∧ Released d.hold (d.flushIfAny cfg k).hold ∧
      Path cfg R [] (d.lane cfg k) ((d.flushIfAny cfg k).lane cfg k) := by
  unfold flushIfAny flushDest
  rw [if_pos hk]
  split_ifs
  · obtain ⟨h1, h2, h3, -⟩ := flushHold_path cfg hk R hR hd hf
    exact ⟨h1, h2, h3⟩
  · exact ⟨hd, .refl _, .nil _⟩

/-! ## Items that bypass the hold -/

theorem Folded.heldSizes {d : Dest α} {a : KeyedHold UInt64 α} (ha : d.Folded cfg a) :
    d.heldSizes k = (d.lane cfg k).heldLen := by
  funext b
  unfold Dest.heldSizes Lane.heldLen
  rw [if_pos hk, ha.held hk, a.entries_length]
  exact ha.refines.heldCount_eq b

theorem insertValueWPsTo_folds (x : α) (pe : ℕ) {d : Dest α} (hd : d.Folds cfg k) :
    (d.insertValueWPsTo k x pe none).Folds cfg k ∧
      (d.insertValueWPsTo k x pe none).hold = d.hold ∧
      Path cfg R [.raw x pe] (d.lane cfg k) ((d.insertValueWPsTo k x pe none).lane cfg k) := by
  obtain ⟨a, ha⟩ := hd.folded
  obtain ⟨-, -, hhold⟩ := insertValueWPsTo_rest d x pe none (k := k)
  exact ⟨⟨insertValueWPsTo_sized hd.toSized x pe none, a, ha.congr hhold⟩, hhold,
    insertValueWPsTo_raw cfg R (ha.heldSizes cfg hk) hd.toSized x pe⟩

theorem insertValue_folds (hagg : k.agg ≠ .WsP) (x : α) (pe rank : ℕ) {d : Dest α}
    (hd : d.Folds cfg k) :
    (d.insertValue cfg k x pe rank).Folds cfg k ∧
      (d.insertValue cfg k x pe rank).hold = d.hold ∧
      Path cfg R [.raw x pe] (d.lane cfg k) ((d.insertValue cfg k x pe rank).lane cfg k) := by
  obtain ⟨a, ha⟩ := hd.folded
  obtain ⟨-, -, hhold⟩ := insertValue_rest cfg hagg d x pe rank
  exact ⟨⟨insertValue_sized cfg hagg x pe rank hd.toSized, a, ha.congr hhold⟩, hhold,
    insertValue_raw cfg hagg R (ha.heldSizes cfg hk) hd.toSized x pe rank⟩

end CombiningOn

end Dest

end Htram
