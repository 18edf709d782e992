import Htram.Hold.ListInv
import Htram.Pe.Capacity
import Htram.Pe.Lane

/-!
# A destination as a lane

`Dest.lane` is what a destination is, apart from how it stores its items. Shipping does
not depend on that either: `ship_path`, `putShip_path` and `shipFilled_path` are the
moves of every ship site.
-/

namespace Htram

variable {α F : Type*}

namespace Dest

/-- What a destination is, apart from how it is stored. -/
def lane (cfg : Config α) (k : Knobs F) (d : Dest α) : Lane α where
  entry := if k.agg = .WW then .receiveOnPE else .receive
  threshold := k.tramThreshold
  bufSize := k.bufSize
  held := fun b =>
    if k.combining then
      (CombiningHold.liveRefs d.hold.stamps (d.hold.lists b)).map fun r =>
        (d.hold.keys r.entry, d.hold.payloads r.entry)
    else (d.tramHold b).toList.map fun x => (cfg.ops.key x, x)
  buffer := d.msgBuffer.items
  updates := d.updatesInTram
  fullSends := d.fullSends
  totSend := d.totSendCount
  sent := d.sent
  retired := d.hold.retired

/-- The buffer is shipped. -/
theorem ship_path (cfg : Config α) (k : Knobs F) (R : Rules) {d : Dest α} {n : ℕ}
    (hd : d.Fits n) (hne : d.msgBuffer.next ≠ 0) (full : Bool) :
    Path cfg R [] (d.lane cfg k) ((d.uncount.shipBuffer k full).lane cfg k) := by
  have hlen : (d.lane cfg k).buffer.length = d.msgBuffer.next := hd.sound.written
  have hmove : Move cfg R [] (d.lane cfg k) _ := Move.ship _
    ⟨if k.agg = .WW then .receiveOnPE else .receive, d.msgBuffer, k.bufSize⟩ full true
    (by intro h; rw [h] at hlen; exact hne hlen.symm) rfl rfl rfl
  rw [hlen] at hmove
  exact Path.single hmove

/-- Every fill site: the buffer is shipped if it is full now. -/
theorem putShip_path (cfg : Config α) {k : Knobs F} (R : Rules) {d d' : Dest α}
    {xs : List (Input α)} (hd : d.Sized k.bufSize) (x : Item α) (full : Bool)
    (hp : Path cfg R xs (d'.lane cfg k) ((d.put x).lane cfg k)) :
    Path cfg R xs (d'.lane cfg k)
      ((if (d.put x).msgBuffer.next = k.bufSize then (d.put x).uncount.shipBuffer k full
        else d.put x).lane cfg k) := by
  split_ifs with h
  · have := hp.trans (ship_path cfg k R (hd.put x) (by simp [put, HTramMessage.put]) full)
    rwa [List.append_nil] at this
  · exact hp

/-- The buffer is shipped with the fillers `fs`. -/
theorem shipFilled_path (cfg : Config α) (k : Knobs F) {R : Rules} (hR : R.flush = true)
    {d d' : Dest α} (hd : d.msgBuffer.Sound) (hd' : d'.msgBuffer.Sound)
    (hne : d.msgBuffer.next ≠ 0) {fs : List (Item α)}
    (hfill : Fillers cfg k.tramThreshold (d.lane cfg k).held fs (d'.lane cfg k).held)
    (hitems : d'.msgBuffer.items = d.msgBuffer.items ++ fs)
    (hhalf : fs ≠ [] → d'.msgBuffer.next ≤ k.bufSize / 2)
    (hup : d'.updatesInTram = d.updatesInTram - d.msgBuffer.next)
    (hfull : d'.fullSends = d.fullSends) (htot : d'.totSendCount = d.totSendCount)
    (hsent : d'.sent = d.sent) (hret : d'.hold.retired = d.hold.retired) :
    Path cfg R [] (d.lane cfg k) ((d'.shipBuffer k false).lane cfg k) := by
  have hlen : (d.lane cfg k).buffer.length = d.msgBuffer.next := hd.written
  have hlen' : d'.msgBuffer.next = d.msgBuffer.next + fs.length := by
    rw [← hd'.written, hitems, List.length_append, hd.written]
  have hbuf : (d.lane cfg k).buffer ≠ [] := by
    intro h
    rw [h] at hlen
    exact hne hlen.symm
  by_cases hfs : fs = []
  · subst hfs
    have hmove : Move cfg R [] (d.lane cfg k) _ := Move.ship _
      ⟨if k.agg = .WW then .receiveOnPE else .receive, d'.msgBuffer, k.bufSize⟩ false true
      hbuf (hitems.trans (List.append_nil _)) rfl rfl
    convert Path.single hmove using 1
    refine Lane.ext rfl rfl rfl (hfill.of_nil rfl) rfl ?_ hfull ?_ ?_ hret
    · rw [hlen]; exact hup
    · rw [hlen]
      show d'.totSendCount + d'.msgBuffer.next = _
      rw [htot, hlen']; rfl
    · show d'.sent ++ _ = _
      rw [hsent]; rfl
  · have hmove : Move cfg R [] (d.lane cfg k) _ := Move.shipFilled _
      ⟨if k.agg = .WW then .receiveOnPE else .receive, d'.msgBuffer, k.bufSize⟩ fs
      (d'.lane cfg k).held hR hbuf hfill hfs
      (by rw [hlen, ← hlen']; exact hhalf hfs) hitems rfl rfl
    convert Path.single hmove using 1
    refine Lane.ext rfl rfl rfl rfl rfl ?_ hfull ?_ ?_ hret
    · rw [hlen]; exact hup
    · rw [hlen]
      show d'.totSendCount + d'.msgBuffer.next = _
      rw [htot, hlen', ← Nat.add_assoc]; rfl
    · show d'.sent ++ _ = _
      rw [hsent]; rfl

/-! ## Items that bypass the buckets -/

theorem insertValueWPsTo_rest {k : Knobs F} (d : Dest α) (x : α) (pe : ℕ) (bucket : Option ℕ) :
    (d.insertValueWPsTo k x pe bucket).tramHold = d.tramHold ∧
      (d.insertValueWPsTo k x pe bucket).holdBits = d.holdBits ∧
      (d.insertValueWPsTo k x pe bucket).hold = d.hold := by
  unfold insertValueWPsTo
  dsimp only
  split_ifs <;> exact ⟨rfl, rfl, rfl⟩

theorem insertValueWPsTo_raw (cfg : Config α) {k : Knobs F} (R : Rules) {d : Dest α}
    (hfill : d.heldSizes k = (d.lane cfg k).heldLen) (hd : d.Sized k.bufSize) (x : α) (pe : ℕ) :
    Path cfg R [.raw x pe] (d.lane cfg k) ((d.insertValueWPsTo k x pe none).lane cfg k) := by
  have hmove : Move cfg R [.raw x pe] (d.lane cfg k) _ := Move.raw _ x pe
  rw [← hfill] at hmove
  exact putShip_path cfg R hd _ true (Path.single hmove)

theorem insertValue_rest (cfg : Config α) {k : Knobs F} (hagg : k.agg ≠ .WsP) (d : Dest α)
    (x : α) (pe rank : ℕ) :
    (d.insertValue cfg k x pe rank).tramHold = d.tramHold ∧
      (d.insertValue cfg k x pe rank).holdBits = d.holdBits ∧
      (d.insertValue cfg k x pe rank).hold = d.hold := by
  unfold insertValue
  cases hmode : k.agg with
  | WsP => exact absurd hmode hagg
  | WPs | WW =>
    dsimp only
    split_ifs <;> exact ⟨rfl, rfl, rfl⟩

theorem insertValue_raw (cfg : Config α) {k : Knobs F} (hagg : k.agg ≠ .WsP) (R : Rules)
    {d : Dest α} (hfill : d.heldSizes k = (d.lane cfg k).heldLen) (hd : d.Sized k.bufSize)
    (x : α) (pe rank : ℕ) :
    Path cfg R [.raw x pe] (d.lane cfg k) ((d.insertValue cfg k x pe rank).lane cfg k) := by
  unfold insertValue
  cases hmode : k.agg with
  | WsP => exact absurd hmode hagg
  | WPs => exact insertValueWPsTo_raw cfg R hfill hd x pe
  | WW =>
    dsimp only
    have hmove : Move cfg R [.raw x pe] (d.lane cfg k) _ := Move.raw _ x pe
    rw [← hfill] at hmove
    have hput := (hd.put (⟨pe, x, d.fill k none false⟩ : Item α)).sound
    split_ifs with hfull
    · -- the full buffer is not counted in `tot_send_count` here
      have hlen : ((d.put ⟨pe, x, d.fill k none false⟩).lane cfg k).buffer.length =
          (d.put ⟨pe, x, d.fill k none false⟩).msgBuffer.next := hput.written
      have hship : Move cfg R [] ((d.put ⟨pe, x, d.fill k none false⟩).lane cfg k) _ :=
        Move.ship _ ⟨if k.agg = .WW then .receiveOnPE else .receive,
          (d.put ⟨pe, x, d.fill k none false⟩).msgBuffer, k.bufSize⟩ true false
          (by simp [lane, put, HTramMessage.put]) rfl rfl rfl
      rw [hlen] at hship
      exact (Path.single hmove).snoc hship
    · exact Path.single hmove

end Dest

end Htram
