import Htram.Hold.Refine
import Mathlib.Data.List.Flatten
import Mathlib.Data.List.Perm.Basic

/-!
# `release` refines the abstract `release`

`release_refines`: `CombiningHold::release` passes to `emit` the first items of the
buckets up to `high`, lowest bucket first and in arrival order within a bucket, each
with its current payload, and takes exactly those out of the hold, as long as no reference
it meets is about to be taken for current (`ReleaseSafe`). What it leaves is as safe for a
further call (`Released.drainSafe`).
-/

namespace Htram

namespace CombiningHold

variable {α : Type*}

/-- The live references of list `b` name the held entries of bucket `b`. -/
theorem ListInv.entries_perm {h : CombiningHold α}
    (hl : ListInv h.Held h.stamps h.buckets h.lists h.live) (b : ℕ) :
    ((List.range h.pool).filter fun e => e ∉ h.free ∧ h.buckets e = b).Perm
      ((liveRefs h.stamps (h.lists b)).map Ref.entry) := by
  have hnd : ((liveRefs h.stamps (h.lists b)).map Ref.entry).Nodup := by
    refine (hl.nodup b).map_on ?_
    intro r hr' r' hr'' he
    rw [liveRef_eq hr' he, ← liveRef_eq hr'' rfl]
  apply (List.perm_ext_iff_of_nodup (List.nodup_range.filter _) hnd).mpr
  intro e
  simp only [List.mem_filter, List.mem_range, decide_eq_true_eq, List.mem_map]
  constructor
  · rintro ⟨hlt, hfree, rfl⟩
    exact ⟨_, hl.hasRef e ⟨hlt, hfree⟩, rfl⟩
  · rintro ⟨r, hr', rfl⟩
    obtain ⟨h1, h2⟩ := hl.ofRef b r hr'
    exact ⟨h1.1, h1.2, h2⟩

/-- `heldCount` counts the keys of the abstract bucket. -/
theorem Refines.heldCount_eq {h : CombiningHold α} {a : KeyedHold UInt64 α} (hr : Refines h a)
    (b : ℕ) : h.heldCount b = (a.queue b).length := by
  rw [heldCount, List.countP_eq_length_filter, (hr.inv.list.entries_perm b).length_eq, hr.queue]
  simp

/-- What the abstract hold passes to `emit` when it gives up the keys `ks`. -/
def emittedOf (a : KeyedHold UInt64 α) : List UInt64 → List (Emitted α)
  | [] => []
  | k :: ks =>
    match a.item k with
    | none => emittedOf (a.erase k) ks
    | some (x, b) => ⟨x, b, fun c => (a.queue c).length⟩ :: emittedOf (a.erase k) ks

theorem emittedOf_append :
    ∀ (ks ks' : List UInt64) (a : KeyedHold UInt64 α),
      emittedOf a (ks ++ ks') = emittedOf a ks ++ emittedOf (a.eraseAll ks) ks' := by
  intro ks
  induction ks with
  | nil => intro ks' a; rfl
  | cons k ks ih =>
    intro ks' a
    rw [List.cons_append, emittedOf, emittedOf, KeyedHold.eraseAll_cons]
    cases a.item k with
    | none => exact ih ks' _
    | some p => simp [ih]

/-- What is emitted is what is held for the keys given up. -/
theorem emittedOf_pairs :
    ∀ (ks : List UInt64) (a : KeyedHold UInt64 α), ks.Nodup →
      (emittedOf a ks).map (fun x => (x.item, x.bucket)) = ks.filterMap a.item := by
  intro ks
  induction ks with
  | nil => intro a _; rfl
  | cons k ks ih =>
    intro a hnd
    obtain ⟨hk, hnd'⟩ := List.nodup_cons.mp hnd
    have hrest : ks.filterMap (a.erase k).item = ks.filterMap a.item := by
      apply List.filterMap_congr
      intro k' hk'
      rw [KeyedHold.erase_item_of_ne _ (by rintro rfl; exact hk hk')]
    rw [emittedOf]
    cases hi : a.item k with
    | none => simp [ih _ hnd', hrest, hi]
    | some p => simp [ih _ hnd', hrest, hi]

theorem emittedOf_items (ks : List UInt64) (a : KeyedHold UInt64 α) (hnd : ks.Nodup) :
    (emittedOf a ks).map Emitted.item = ks.filterMap fun k => (a.item k).map Prod.fst := by
  have := congrArg (List.map Prod.fst) (emittedOf_pairs ks a hnd)
  rwa [List.map_map, List.map_filterMap] at this

theorem emittedOf_length {ks : List UInt64} {a : KeyedHold UInt64 α} (hnd : ks.Nodup)
    (hheld : ∀ k ∈ ks, a.item k ≠ none) : (emittedOf a ks).length = ks.length := by
  have := congrArg List.length (emittedOf_items ks a hnd)
  rw [List.length_map] at this
  rw [this]
  clear this hnd
  induction ks with
  | nil => rfl
  | cons k ks ih =>
    obtain ⟨p, hp⟩ := Option.ne_none_iff_exists'.mp (hheld k (List.mem_cons_self ..))
    simp [hp, ih fun k' hk' => hheld k' (List.mem_cons_of_mem _ hk')]

/-! ## One bucket -/

/-- The hold with list `b` replaced. -/
def withList (h : CombiningHold α) (b : ℕ) (l : List Ref) : CombiningHold α :=
  { h with lists := Function.update h.lists b l }

/-- How `release` changes a hold: entries it takes get a new stamp, references only
    leave the lists, `lowest_` goes up past empty ones, and the other fields stay. -/
structure Released (h h' : CombiningHold α) : Prop where
  entry : ∀ e, (h'.Held e ↔ h.Held e) ∧ h'.stamps e = h.stamps e ∨
    h.Held e ∧ ¬ h'.Held e ∧ h'.stamps e = h.stamps e + 1
  lists : ∀ b, (h'.lists b).Sublist (h.lists b)
  lowest : h.lowest ≤ h'.lowest
  cleared : ∀ b, h.lowest ≤ b → b < h'.lowest → h'.lists b = []
  pool : h'.pool = h.pool
  bucketCount : h'.bucketCount = h.bucketCount
  combined : h'.combined = h.combined
  retired : h'.retired = h.retired

theorem Released.refl (h : CombiningHold α) : Released h h :=
  ⟨fun _ => Or.inl ⟨Iff.rfl, rfl⟩, fun _ => .refl _, le_refl _,
    fun _ h1 h2 => absurd h1 (Nat.not_le.mpr h2), rfl, rfl, rfl, rfl⟩

theorem Released.trans {h h' h'' : CombiningHold α} (h1 : Released h h')
    (h2 : Released h' h'') : Released h h'' := by
  refine ⟨?_, fun b => (h2.lists b).trans (h1.lists b), h1.lowest.trans h2.lowest, ?_,
    h2.pool.trans h1.pool, h2.bucketCount.trans h1.bucketCount, h2.combined.trans h1.combined,
    h2.retired.trans h1.retired⟩
  · intro e
    rcases h1.entry e with ⟨hh1, hs1⟩ | ⟨hh1, hn1, hs1⟩ <;>
      rcases h2.entry e with ⟨hh2, hs2⟩ | ⟨hh2, hn2, hs2⟩
    · exact Or.inl ⟨hh2.trans hh1, hs2.trans hs1⟩
    · exact Or.inr ⟨hh1.mp hh2, hn2, by rw [hs2, hs1]⟩
    · exact Or.inr ⟨hh1, fun h => hn1 (hh2.mp h), by rw [hs2, hs1]⟩
    · exact absurd hh2 hn1
  · intro b hle hlt
    by_cases hb : b < h'.lowest
    · have hnil := h1.cleared b hle hb
      exact List.sublist_nil.mp (hnil ▸ h2.lists b)
    · exact h2.cleared b (Nat.not_lt.mp hb) hlt

theorem Released.mem {h h' : CombiningHold α} (hd : Released h h') {b : ℕ} {r : Ref}
    (hr : r ∈ h'.lists b) : r ∈ h.lists b := (hd.lists b).subset hr

theorem stamp_ne_succ (x : UInt32) : x ≠ x + 1 := by
  intro h
  have := congrArg UInt32.toNat h
  rw [UInt32.toNat_add] at this
  have hx := x.toNat_lt
  simp at this
  omega

/-! ### The references that `release` meets -/

/-- The references in the lists of the `n` buckets from `b`, in order. -/
def refsFrom (h : CombiningHold α) (b n : ℕ) : List Ref := (List.range' b n).flatMap h.lists

/-- No reference is about to be taken for current in the loops of `release` over the `n`
    buckets from `b`: for each of the first `limit` current references, none with the next
    stamp stands behind it or in another bucket. -/
def ScanSafe (h : CombiningHold α) (b n limit : ℕ) : Prop :=
  ∀ before r behind, h.refsFrom b n = before ++ r :: behind → h.stamps r.entry = r.stamp →
    (liveRefs h.stamps before).length < limit →
    Ref.mk r.entry (r.stamp + 1) ∉ behind ∧
      ∀ c, c < b ∨ b + n ≤ c → Ref.mk r.entry (r.stamp + 1) ∉ h.lists c

/-- The same for a call of `release`. -/
def ReleaseSafe (h : CombiningHold α) (high limit : ℤ) : Prop :=
  h.ScanSafe h.lowest (min high (h.bucketCount - 1) + 1 - h.lowest).toNat limit.toNat

theorem FreshHeld.releaseSafe {h : CombiningHold α} (hi : HoldInv h) (hf : h.FreshHeld)
    (high limit : ℤ) : h.ReleaseSafe high limit := by
  intro before r behind heq hs _
  have hmem : ∀ x ∈ h.refsFrom h.lowest (min high (h.bucketCount - 1) + 1 - h.lowest).toNat,
      ∃ c, x ∈ h.lists c := by
    intro x hx
    obtain ⟨c, -, hc⟩ := List.mem_flatMap.mp hx
    exact ⟨c, hc⟩
  obtain ⟨b, hb⟩ := hmem r (by rw [heq]; simp)
  have hheld := (hi.list.ofRef b r (mem_liveRefs.mpr ⟨hb, hs.symm⟩)).1
  have hno : ∀ c, Ref.mk r.entry (r.stamp + 1) ∉ h.lists c := by
    intro c hc
    apply hf c _ hc hheld
    rw [hs]
  refine ⟨fun hx => ?_, fun c _ => hno c⟩
  obtain ⟨c, hc⟩ := hmem (Ref.mk r.entry (r.stamp + 1)) (by rw [heq]; simp [hx])
  exact hno c hc

/-- The same however many items are asked for, in one call or in several. -/
def DrainSafe (h : CombiningHold α) (high : ℤ) : Prop := ∀ limit, h.ReleaseSafe high limit

theorem FreshHeld.drainSafe {h : CombiningHold α} (hi : HoldInv h) (hf : h.FreshHeld)
    (high : ℤ) : h.DrainSafe high := hf.releaseSafe hi high

/-- The number of buckets that `release` goes through. -/
def span (h : CombiningHold α) (high : ℤ) : ℕ :=
  (min high (h.bucketCount - 1) + 1 - h.lowest).toNat

/-- The reference with the next stamp neither follows a current one nor stands in a bucket
    that `release` does not reach. -/
theorem drainSafe_iff {h : CombiningHold α} {high : ℤ} :
    h.DrainSafe high ↔
      ∀ r ∈ h.refsFrom h.lowest (h.span high), h.stamps r.entry = r.stamp →
        ¬ [r, ⟨r.entry, r.stamp + 1⟩].Sublist (h.refsFrom h.lowest (h.span high)) ∧
          ∀ c, c < h.lowest ∨ h.lowest + h.span high ≤ c →
            Ref.mk r.entry (r.stamp + 1) ∉ h.lists c := by
  constructor
  · intro hd r hmem hs
    have hsafe : ∀ before behind, h.refsFrom h.lowest (h.span high) = before ++ r :: behind →
        Ref.mk r.entry (r.stamp + 1) ∉ behind ∧
          ∀ c, c < h.lowest ∨ h.lowest + h.span high ≤ c →
            Ref.mk r.entry (r.stamp + 1) ∉ h.lists c := fun before behind heq =>
      hd (((liveRefs h.stamps before).length + 1 : ℕ) : ℤ) before r behind heq hs
        (by rw [Int.toNat_natCast]; exact Nat.lt_succ_self _)
    obtain ⟨before, behind, heq⟩ := List.append_of_mem hmem
    refine ⟨fun hsub => ?_, (hsafe before behind heq).2⟩
    obtain ⟨l₁, l₂, hl, h1, h2⟩ := List.cons_sublist_iff.mp hsub
    obtain ⟨m, m', rfl⟩ := List.append_of_mem h1
    apply (hsafe m (m' ++ l₂) (by rw [hl, List.append_assoc, List.cons_append])).1
    exact List.mem_append_right _ (List.singleton_sublist.mp h2)
  · intro hall limit before r behind heq hs _
    have heq : h.refsFrom h.lowest (h.span high) = before ++ r :: behind := heq
    obtain ⟨h1, h2⟩ := hall r (by rw [heq]; simp) hs
    refine ⟨fun hmem => h1 ?_, h2⟩
    rw [heq]
    exact ((List.singleton_sublist.mpr hmem).cons_cons r).trans (List.sublist_append_right ..)

theorem refsFrom_add (h : CombiningHold α) (b m n : ℕ) :
    h.refsFrom b (m + n) = h.refsFrom b m ++ h.refsFrom (b + m) n := by
  unfold refsFrom
  rw [← List.range'_append_1, List.flatMap_append]

/-- Fewer buckets are safe too. -/
theorem DrainSafe.mono {h : CombiningHold α} {high high' : ℤ} (hd : h.DrainSafe high)
    (hle : min high' (h.bucketCount - 1) ≤ min high (h.bucketCount - 1)) :
    h.DrainSafe high' := by
  rw [drainSafe_iff] at hd ⊢
  obtain ⟨m, hm⟩ : ∃ m, h.span high = h.span high' + m := by
    apply Nat.exists_eq_add_of_le
    unfold span
    omega
  rw [hm, refsFrom_add] at hd
  intro r hmem hs
  obtain ⟨h1, h2⟩ := hd r (List.mem_append_left _ hmem) hs
  refine ⟨fun hsub => h1 (hsub.trans (List.sublist_append_left ..)), fun c hc hin => ?_⟩
  by_cases hout : c < h.lowest ∨ h.lowest + (h.span high' + m) ≤ c
  · exact h2 c hout hin
  · -- the bucket is one of those that only the longer call reaches
    apply h1
    have hlater : Ref.mk r.entry (r.stamp + 1) ∈ h.refsFrom (h.lowest + h.span high') m :=
      List.mem_flatMap.mpr ⟨c, List.mem_range'_1.mpr (by omega), hin⟩
    exact (List.singleton_sublist.mpr hmem).append (List.singleton_sublist.mpr hlater)

/-- What `release` leaves is as safe as what it was given. -/
theorem Released.drainSafe {h h' : CombiningHold α} (hd : Released h h') (hi' : HoldInv h')
    {high : ℤ} (hf : h.DrainSafe high) : h'.DrainSafe high := by
  rw [drainSafe_iff] at hf ⊢
  by_cases hspan : h'.span high = 0
  · intro r hr
    rw [hspan] at hr
    cases hr
  have hend : h.lowest + h.span high = h'.lowest + h'.span high := by
    have hlow := hd.lowest
    have hcount := hd.bucketCount
    unfold span at hspan ⊢
    omega
  obtain ⟨m, hm⟩ := Nat.exists_eq_add_of_le hd.lowest
  have hspans : h.span high = m + h'.span high := by omega
  -- the lists below the new `lowest_` are empty
  have hempty : h'.refsFrom h.lowest m = [] := by
    refine List.flatMap_eq_nil_iff.mpr fun c hc => ?_
    have hrange := List.mem_range'_1.mp hc
    exact hd.cleared c hrange.1 (by omega)
  have hsub : (h'.refsFrom h'.lowest (h'.span high)).Sublist
      (h.refsFrom h.lowest (h.span high)) := by
    have hall : h'.refsFrom h.lowest (h.span high) = h'.refsFrom h'.lowest (h'.span high) := by
      rw [hspans, refsFrom_add, hempty, List.nil_append, hm]
    rw [← hall]
    exact List.Sublist.flatMap_right _ fun c _ => hd.lists c
  intro r hr hs
  obtain ⟨b, -, hb⟩ := List.mem_flatMap.mp hr
  have hheld := (hi'.list.ofRef b r (mem_liveRefs.mpr ⟨hb, hs.symm⟩)).1
  have hcur : h.stamps r.entry = r.stamp := by
    rcases hd.entry r.entry with ⟨-, heq⟩ | ⟨-, hno, -⟩
    · rw [← heq]; exact hs
    · exact absurd hheld hno
  obtain ⟨h1, h2⟩ := hf r (hsub.subset hr) hcur
  refine ⟨fun h => h1 (h.trans hsub), fun c hc hin => ?_⟩
  by_cases hlow : c < h.lowest ∨ h.lowest + h.span high ≤ c
  · exact h2 c hlow (hd.mem hin)
  · rw [hd.cleared c (by omega) (by omega)] at hin
    cases hin

theorem scanSafe_zero (h : CombiningHold α) (b n : ℕ) : h.ScanSafe b n 0 := by
  intro before r behind _ _ hlen
  exact absurd hlen (Nat.not_lt_zero _)

theorem refsFrom_withList (h : CombiningHold α) (b n : ℕ) (l : List Ref) :
    (h.withList b l).refsFrom b (n + 1) = l ++ h.refsFrom (b + 1) n := by
  unfold refsFrom
  rw [List.range'_succ, List.flatMap_cons]
  have hb : (h.withList b l).lists b = l := Function.update_self ..
  rw [hb]
  congr 1
  apply List.flatMap_congr
  intro c hc
  have := (List.mem_range'_1.mp hc).1
  exact Function.update_of_ne (by omega) ..

theorem ScanSafe.stale {h : CombiningHold α} {b n limit : ℕ} {r : Ref} {rs : List Ref}
    (hf : (h.withList b (r :: rs)).ScanSafe b (n + 1) limit)
    (hs : h.stamps r.entry ≠ r.stamp) : (h.withList b rs).ScanSafe b (n + 1) limit := by
  intro before x behind heq hx hlen
  rw [refsFrom_withList] at heq
  have hstale : liveRefs h.stamps (r :: before) = liveRefs h.stamps before :=
    List.filter_cons_of_neg (by simpa using Ne.symm hs)
  obtain ⟨h1, h2⟩ := hf (r :: before) x behind
    (by rw [refsFrom_withList, List.cons_append, heq, List.cons_append]) hx
    (by
      show (liveRefs h.stamps (r :: before)).length < limit
      rw [hstale]
      exact hlen)
  refine ⟨h1, fun c hc => ?_⟩
  have hcb : c ≠ b := by omega
  have := h2 c hc
  simp only [withList, Function.update_of_ne hcb] at this ⊢
  exact this

/-- Nothing names the entry of a current reference at the head of list `b` once it is taken. -/
theorem ScanSafe.unclaimed {h : CombiningHold α} {b n limit : ℕ} {r : Ref} {rs : List Ref}
    (hf : (h.withList b (r :: rs)).ScanSafe b (n + 1) (limit + 1))
    (hs : h.stamps r.entry = r.stamp) : (h.withList b (r :: rs)).Unclaimed r.entry := by
  obtain ⟨h1, h2⟩ := hf [] r (rs ++ h.refsFrom (b + 1) n) (refsFrom_withList h b n _) hs
    (Nat.succ_pos limit)
  intro c x hx hxe hstamp
  have hxr : x = Ref.mk r.entry (r.stamp + 1) := by
    cases x
    simp only at hxe hstamp
    rw [hxe, hstamp, ← hs]
    rfl
  rw [hxr] at hx
  by_cases hcb : c = b
  · subst hcb
    rw [show (h.withList c (r :: rs)).lists c = r :: rs from Function.update_self ..] at hx
    rcases List.mem_cons.mp hx with hx | hx
    · exact stamp_ne_succ r.stamp (congrArg Ref.stamp hx).symm
    · exact h1 (List.mem_append_left _ hx)
  · by_cases hin : b < c ∧ c < b + (n + 1)
    · apply h1
      apply List.mem_append_right
      refine List.mem_flatMap.mpr ⟨c, List.mem_range'_1.mpr (by omega), ?_⟩
      rwa [show (h.withList b (r :: rs)).lists c = h.lists c from
        Function.update_of_ne hcb ..] at hx
    · exact h2 c (by omega) hx

/-- The loops go on safely when the entry of the head of list `b` has been taken. -/
theorem ScanSafe.taken {h h' : CombiningHold α} {b n limit : ℕ} {r : Ref} {rs : List Ref}
    (hf : (h.withList b (r :: rs)).ScanSafe b (n + 1) (limit + 1))
    (hl : ListInv h.Held h.stamps h.buckets (h.withList b (r :: rs)).lists h.live)
    (hs : h.stamps r.entry = r.stamp)
    (hstamps : h'.stamps = Function.update h.stamps r.entry (h.stamps r.entry + 1))
    (hlists : h'.lists = h.lists) : (h'.withList b rs).ScanSafe b (n + 1) limit := by
  obtain ⟨h1, h2⟩ := hf [] r (rs ++ h.refsFrom (b + 1) n) (refsFrom_withList h b n _) hs
    (Nat.succ_pos limit)
  have hall : h'.refsFrom (b + 1) n = h.refsFrom (b + 1) n := by
    unfold refsFrom
    rw [hlists]
  have hhead : r ∈ liveRefs h.stamps ((h.withList b (r :: rs)).lists b) := by
    rw [show (h.withList b (r :: rs)).lists b = r :: rs from Function.update_self ..]
    exact mem_liveRefs.mpr ⟨List.mem_cons_self .., hs.symm⟩
  -- the head is the only current reference to its entry, and none has its next stamp
  have hother : ∀ x ∈ rs ++ h.refsFrom (b + 1) n,
      (h'.stamps x.entry = x.stamp ↔ h.stamps x.entry = x.stamp) := by
    intro x hx
    rw [hstamps]
    by_cases hxe : x.entry = r.entry
    · rw [hxe, Function.update_self]
      refine iff_of_false (fun hnext => h1 ?_) fun hsame => ?_
      · have : x = Ref.mk r.entry (r.stamp + 1) := by
          cases x
          simp only at hxe hnext
          rw [hxe, ← hnext, hs]
        rwa [← this]
      · have hxr : x = r := by
          cases x
          cases r
          simp only at hxe hsame hs
          rw [hxe, ← hsame, hs]
        rw [hxr] at hx
        rcases List.mem_append.mp hx with hx | hx
        · have hnd := hl.nodup b
          rw [show (h.withList b (r :: rs)).lists b = r :: rs from Function.update_self ..] at hnd
          unfold liveRefs at hnd
          rw [List.filter_cons_of_pos (by simpa using hs.symm)] at hnd
          exact (List.nodup_cons.mp hnd).1 (mem_liveRefs.mpr ⟨hx, hs.symm⟩)
        · obtain ⟨c, hc, hxc⟩ := List.mem_flatMap.mp hx
          have hcb : c ≠ b := by
            have := (List.mem_range'_1.mp hc).1
            omega
          have hmem : r ∈ liveRefs h.stamps ((h.withList b (r :: rs)).lists c) := by
            rw [show (h.withList b (r :: rs)).lists c = h.lists c from
              Function.update_of_ne hcb ..]
            exact mem_liveRefs.mpr ⟨hxc, hs.symm⟩
          exact hcb ((hl.ofRef c r hmem).2.symm.trans (hl.ofRef b r hhead).2)
    · rw [Function.update_of_ne hxe]
  intro before x behind heq hx hlen
  rw [refsFrom_withList, hall] at heq
  have hmem : ∀ y ∈ before ++ x :: behind, y ∈ rs ++ h.refsFrom (b + 1) n := by
    intro y hy
    rwa [heq]
  have hlive : liveRefs h.stamps before = liveRefs h'.stamps before := by
    unfold liveRefs
    apply List.filter_congr
    intro y hy
    rw [decide_eq_decide, eq_comm, ← hother y (hmem y (List.mem_append_left _ hy)), eq_comm]
  have hxs : h.stamps x.entry = x.stamp := (hother x (hmem x (by simp))).mp hx
  obtain ⟨h3, h4⟩ := hf (r :: before) x behind
    (by rw [refsFrom_withList, List.cons_append, heq, List.cons_append]) hxs
    (by
      show (liveRefs h.stamps (r :: before)).length < limit + 1
      unfold liveRefs
      rw [List.filter_cons_of_pos (by simpa using hs.symm), List.length_cons]
      have : (liveRefs h'.stamps before).length < limit := hlen
      rw [← hlive] at this
      exact Nat.succ_lt_succ this)
  refine ⟨h3, fun c hc => ?_⟩
  have hcb : c ≠ b := by omega
  have := h4 c hc
  simp only [withList, Function.update_of_ne hcb, hlists] at this ⊢
  exact this

/-- The loop over list `b` has come to its end. -/
theorem ScanSafe.next {h : CombiningHold α} {b n limit : ℕ}
    (hf : (h.withList b []).ScanSafe b (n + 1) limit) :
    (h.withList b []).ScanSafe (b + 1) n limit := by
  have hall : (h.withList b []).refsFrom (b + 1) n = (h.withList b []).refsFrom b (n + 1) := by
    rw [refsFrom_withList, List.nil_append]
    unfold refsFrom
    apply List.flatMap_congr
    intro c hc
    have := (List.mem_range'_1.mp hc).1
    exact Function.update_of_ne (by omega) ..
  intro before r behind heq hs hlen
  obtain ⟨h1, h2⟩ := hf before r behind (hall ▸ heq) hs hlen
  refine ⟨h1, fun c hc => ?_⟩
  by_cases hcb : c = b
  · subst hcb
    rw [show (h.withList c []).lists c = [] from Function.update_self ..]
    exact List.not_mem_nil
  · exact h2 c (by omega)

/-! ### The loops -/

/-- Consuming a stale reference at the head of list `b`. -/
theorem Refines.dropStale {h : CombiningHold α} {a : KeyedHold UInt64 α} {b : ℕ} {r : Ref}
    {rs : List Ref} (hr : Refines (h.withList b (r :: rs)) a) (hs : h.stamps r.entry ≠ r.stamp) :
    Refines (h.withList b rs) a := by
  have hlr : liveRefs h.stamps rs = liveRefs h.stamps (r :: rs) := by
    unfold liveRefs
    rw [List.filter_cons_of_neg]
    simpa using Ne.symm hs
  have hrefs : ∀ c, liveRefs h.stamps (Function.update h.lists b rs c) =
      liveRefs h.stamps (Function.update h.lists b (r :: rs) c) := by
    intro c
    by_cases hc : c = b
    · subst hc; rw [Function.update_self, Function.update_self, hlr]
    · rw [Function.update_of_ne hc, Function.update_of_ne hc]
  obtain ⟨htab, hlist, hlt, hbl, hlow, hle⟩ := hr.inv
  refine ⟨⟨⟨htab.cap, htab.table, htab.mem, htab.keyInj, htab.freeLt, htab.freeNodup, htab.count,
    htab.load, htab.stuck⟩, ?_, ?_, hbl, hlow, hle⟩, ?_, hr.item⟩
  · have := hlist.drop (b := b) (l := rs) (by
      show _ = liveRefs h.stamps (Function.update h.lists b (r :: rs) b)
      rw [Function.update_self]; exact hlr)
    simp only [withList, Function.update_idem] at this ⊢
    exact this
  · intro c x hx
    simp only [withList] at hx
    by_cases hc : c = b
    · subst hc
      rw [Function.update_self] at hx
      exact hlt c x (by simp [withList, hx])
    · rw [Function.update_of_ne hc] at hx
      exact hlt c x (by simp [withList, Function.update_of_ne hc, hx])
  · intro c
    rw [hr.queue c]
    simp only [withList]
    rw [hrefs c]

theorem released_dropHead (h : CombiningHold α) (b : ℕ) (r : Ref) (rs : List Ref) :
    Released (h.withList b (r :: rs)) (h.withList b rs) := by
  refine ⟨fun _ => Or.inl ⟨Iff.rfl, rfl⟩, fun c => ?_, le_refl _,
    fun _ h1 h2 => absurd h1 (Nat.not_le.mpr h2), rfl, rfl, rfl, rfl⟩
  simp only [withList]
  by_cases hc : c = b
  · subst hc
    rw [Function.update_self, Function.update_self]
    exact List.sublist_cons_self r rs
  · rw [Function.update_of_ne hc, Function.update_of_ne hc]

theorem TableInv.ofWithList {h : CombiningHold α} {b : ℕ} {l : List Ref}
    (ht : TableInv (h.withList b l)) : TableInv h :=
  ⟨ht.cap, ht.table, ht.mem, ht.keyInj, ht.freeLt, ht.freeNodup, ht.count, ht.load, ht.stuck⟩

/-- The state after the loop body of `release` for the live reference to `e`. -/
def taken (h : CombiningHold α) (b e : ℕ) : CombiningHold α :=
  { h.erase e with live := Function.update (h.erase e).live b ((h.erase e).live b - 1) }

/-- What the abstract hold knows about a live reference at the head of list `b`. -/
theorem Refines.head {h : CombiningHold α} {a : KeyedHold UInt64 α} {b : ℕ} {r : Ref}
    {rs : List Ref} (hr : Refines (h.withList b (r :: rs)) a)
    (hs : h.stamps r.entry = r.stamp) :
    h.Held r.entry ∧ h.buckets r.entry = b ∧
      a.item (h.keys r.entry) = some (h.payloads r.entry, b) ∧
      a.queue b = h.keys r.entry :: (liveRefs h.stamps rs).map fun r => h.keys r.entry := by
  have hmem : r ∈ liveRefs h.stamps (r :: rs) := by simp [liveRefs, hs]
  have hq := hr.queue b
  simp only [withList, Function.update_self] at hq
  obtain ⟨hheld, hb⟩ := hr.inv.list.ofRef b r (by simp [withList, liveRefs, hs])
  have hitem := hr.item _ hheld
  refine ⟨hheld, hb, ?_, ?_⟩
  · rw [← show (h.withList b (r :: rs)).buckets r.entry = b from hb]; exact hitem
  · rw [hq]; simp [liveRefs, hs]

/-- Emitting and erasing the entry of a live reference at the head of list `b`. -/
theorem Refines.takeHead {h : CombiningHold α} {a : KeyedHold UInt64 α} {b : ℕ} {r : Ref}
    {rs : List Ref} (hr : Refines (h.withList b (r :: rs)) a)
    (hfresh : (h.withList b (r :: rs)).Unclaimed r.entry) (hs : h.stamps r.entry = r.stamp) :
    (h.erase r.entry).stuck = false ∧
      Refines ((h.taken b r.entry).withList b rs) (a.erase (h.keys r.entry)) ∧
      Released (h.withList b (r :: rs)) ((h.taken b r.entry).withList b rs) := by
  obtain ⟨hheld, hb, -, -⟩ := hr.head hs
  set e := r.entry with he
  obtain ⟨⟨slots, her⟩, htab, hheld'⟩ := erase_spec hr.inv.table.ofWithList hheld
  have hstuck : (h.erase e).stuck = false := htab.stuck
  obtain ⟨-, hlist, hlt, hbl, hlow, hle⟩ := hr.inv
  obtain ⟨hbump, hrefs⟩ := hlist.bump hheld hfresh
  simp only [withList] at hbump hrefs
  rw [hb] at hbump
  -- the head itself is stale now
  have hdrop : liveRefs (Function.update h.stamps e (h.stamps e + 1)) rs =
      liveRefs (Function.update h.stamps e (h.stamps e + 1)) (r :: rs) := by
    unfold liveRefs
    rw [List.filter_cons_of_neg]
    rw [← he, Function.update_self, ← hs]
    simp only [decide_eq_true_eq]
    exact stamp_ne_succ _
  have hlist' := hbump.drop (b := b) (l := rs) (by rw [Function.update_self]; exact hdrop)
  rw [Function.update_idem] at hlist'
  have hkeys : ((h.taken b e).withList b rs).keys = h.keys := by simp [withList, taken, her]
  have hstamps : ((h.taken b e).withList b rs).stamps =
      Function.update h.stamps e (h.stamps e + 1) := by simp [withList, taken, her]
  have hlists : ((h.taken b e).withList b rs).lists = Function.update h.lists b rs := by
    simp [withList, taken, her]
  have hHeld : ∀ x, ((h.taken b e).withList b rs).Held x ↔ h.Held x ∧ x ≠ e := hheld'
  have hlowest : ((h.taken b e).withList b rs).lowest = h.lowest := by simp [withList, taken, her]
  refine ⟨hstuck, ⟨⟨?_, ?_, ?_, ?_, ?_, ?_⟩, ?_, ?_⟩, ⟨?_, ?_, hlowest.ge,
    fun c h1 h2 => ?_, by simp [withList, taken, her], by simp [withList, taken, her],
    by simp [withList, taken, her], by simp [withList, taken, her]⟩⟩
  · exact ⟨htab.cap, htab.table, htab.mem, htab.keyInj, htab.freeLt, htab.freeNodup, htab.count,
      htab.load, htab.stuck⟩
  · rw [hstamps, hlists]
    have hlive : ((h.taken b e).withList b rs).live =
        Function.update h.live b (h.live b - 1) := by simp [withList, taken, her]
    have hbuckets : ((h.taken b e).withList b rs).buckets = h.buckets := by
      simp [withList, taken, her]
    rw [hlive, hbuckets]
    exact hlist'.congr hHeld fun _ _ => rfl
  · intro c x hx
    have hpool : ((h.taken b e).withList b rs).pool = h.pool := by simp [withList, taken, her]
    rw [hpool]
    rw [hlists] at hx
    apply hlt c x
    simp only [withList]
    by_cases hc : c = b
    · subst hc
      rw [Function.update_self] at hx ⊢
      exact List.mem_cons_of_mem _ hx
    · rwa [Function.update_of_ne hc] at hx ⊢
  · intro x hx
    have := hbl x ((hHeld x).mp hx).1
    simpa [withList, taken, her] using this
  · intro c hc
    have hc' : c < h.lowest := by simpa [withList, taken, her] using hc
    have h0 : h.live c = 0 := hlow c hc'
    have hcb : c ≠ b := by
      rintro rfl
      have hmem := hlist.hasRef e hheld
      rw [show (h.withList c (r :: rs)).buckets e = c from hb, hlist.liveRefs_eq_nil h0] at hmem
      cases hmem
    simp [withList, taken, her, Function.update_of_ne hcb, h0]
  · have : h.lowest ≤ h.bucketCount := hle
    simpa [withList, taken, her] using this
  · intro c
    rw [hkeys, hstamps, hlists]
    have hc :
        liveRefs (Function.update h.stamps e (h.stamps e + 1)) (Function.update h.lists b rs c) =
        liveRefs (Function.update h.stamps e (h.stamps e + 1))
          (Function.update h.lists b (r :: rs) c) := by
      by_cases hcb : c = b
      · subst hcb; rw [Function.update_self, Function.update_self, hdrop]
      · rw [Function.update_of_ne hcb, Function.update_of_ne hcb]
    rw [hc, hrefs c]
    have hme := hr.inv.map_erase hheld c
    simp only [withList] at hme
    rw [hme]
    show (a.queue c).erase _ = _
    rw [hr.queue c]
    simp only [withList]
  · intro x hx
    obtain ⟨hx1, hx2⟩ := (hHeld x).mp hx
    have hk : h.keys x ≠ h.keys e := fun hk => hx2 (hr.inv.table.keyInj x e hx1 hheld hk)
    rw [hkeys, KeyedHold.erase_item_of_ne _ hk]
    have := hr.item x hx1
    simpa [withList, taken, her] using this
  · intro x
    rw [hHeld x, hstamps]
    by_cases hx : x = e
    · subst hx
      exact Or.inr ⟨hheld, fun h => h.2 rfl, Function.update_self ..⟩
    · exact Or.inl ⟨⟨And.left, fun h => ⟨h, hx⟩⟩, Function.update_of_ne hx ..⟩
  · intro c
    rw [hlists]
    exact (released_dropHead h b r rs).lists c
  · rw [hlowest] at h2
    exact absurd h1 (Nat.not_le.mpr h2)

theorem releaseList_cons {h : CombiningHold α} {b : ℕ} {r : Ref} (rs : List Ref) (limit : ℕ)
    (hs : h.stamps r.entry = r.stamp) (hstuck : (h.erase r.entry).stuck = false) :
    releaseList b (r :: rs) (limit + 1) h =
      let p := releaseList b rs limit (h.taken b r.entry)
      (p.1, p.2.1, ⟨h.payloads r.entry, h.buckets r.entry, h.heldCount⟩ :: p.2.2) := by
  rw [releaseList, if_neg (not_not.mpr hs)]
  dsimp only
  rw [if_neg (by simp [hstuck])]
  rfl

/-- What `taken` does to the stamps and the lists. -/
theorem taken_fields {h : CombiningHold α} (ht : TableInv h) {e : ℕ} (he : h.Held e) (b : ℕ) :
    (h.taken b e).stamps = Function.update h.stamps e (h.stamps e + 1) ∧
      (h.taken b e).lists = h.lists := by
  obtain ⟨⟨slots, her⟩, -, -⟩ := erase_spec ht he
  simp [taken, her]

/-- The inner loop of `release` on what is left of list `b`. -/
theorem releaseList_refines (b n : ℕ) :
    ∀ (refs : List Ref) (limit : ℕ) (h : CombiningHold α) (a : KeyedHold UInt64 α),
      Refines (h.withList b refs) a → (h.withList b refs).ScanSafe b (n + 1) limit →
      ∃ h' rest, releaseList b refs limit h =
          (h', rest, emittedOf a ((a.queue b).take limit)) ∧ h'.stuck = false ∧
        Refines (h'.withList b rest) (a.eraseAll ((a.queue b).take limit)) ∧
        Released (h.withList b refs) (h'.withList b rest) ∧
        (h'.withList b rest).ScanSafe (b + 1) n (limit - ((a.queue b).take limit).length) := by
  intro refs
  induction refs with
  | nil =>
    intro limit h a hr hf
    have hq : a.queue b = [] := by rw [hr.queue b]; simp [withList, liveRefs]
    refine ⟨h, [], by simp [releaseList, hq, emittedOf], hr.inv.table.stuck, ?_,
      Released.refl _, ?_⟩
    · rw [hq, List.take_nil]
      exact hr
    · rw [hq, List.take_nil]
      exact hf.next
  | cons r rs ih =>
    intro limit h a hr hf
    cases limit with
    | zero =>
      refine ⟨h, r :: rs, by simp [releaseList, emittedOf], hr.inv.table.stuck, hr,
        Released.refl _, ?_⟩
      rw [Nat.zero_sub]
      exact scanSafe_zero _ _ _
    | succ limit =>
      by_cases hs : h.stamps r.entry = r.stamp
      · obtain ⟨hheld, hb, hitem, hq⟩ := hr.head hs
        obtain ⟨hstuck, hr', hd⟩ := hr.takeHead (hf.unclaimed hs) hs
        obtain ⟨hstamps, hlists⟩ := taken_fields hr.inv.table.ofWithList hheld b
        have hq' : (a.erase (h.keys r.entry)).queue b =
            (liveRefs h.stamps rs).map fun r => h.keys r.entry := by
          show (a.queue b).erase _ = _
          rw [hq, List.erase_cons_head]
        obtain ⟨h', rest, heq, hst, hr'', hd', hf'⟩ :=
          ih limit _ _ hr' (hf.taken hr.inv.list hs hstamps hlists)
        have hout : (⟨h.payloads r.entry, h.buckets r.entry, h.heldCount⟩ : Emitted α) =
            ⟨h.payloads r.entry, b, fun c => (a.queue c).length⟩ := by
          rw [hb]
          congr 1
          funext c
          exact hr.heldCount_eq c
        refine ⟨h', rest, ?_, hst, ?_, hd.trans hd', ?_⟩
        · rw [releaseList_cons rs limit hs hstuck, heq, hq, hq', List.take_succ_cons, emittedOf,
            hitem, hout]
        · rw [hq, List.take_succ_cons, KeyedHold.eraseAll_cons, ← hq']
          exact hr''
        · rw [hq, List.take_succ_cons, List.length_cons, Nat.succ_sub_succ, ← hq']
          exact hf'
      · rw [releaseList, if_pos hs]
        have hd := h.released_dropHead b r rs
        obtain ⟨h', rest, heq, hst, hr', hd', hf'⟩ :=
          ih (limit + 1) h a (hr.dropStale hs) (hf.stale hs)
        exact ⟨h', rest, heq, hst, hr', hd.trans hd', hf'⟩

/-! ## All buckets -/

theorem withList_self (h : CombiningHold α) (b : ℕ) : h.withList b (h.lists b) = h := by
  unfold withList
  rw [Function.update_eq_self]

/-- Keys of higher buckets keep their order when keys of bucket `b` leave. -/
theorem order_eraseAll (a : KeyedHold UInt64 α) {b : ℕ} {ks : List UInt64}
    (hks : ∀ k ∈ ks, k ∈ a.queue b) (n : ℕ) :
    (a.eraseAll ks).order (b + 1) n = a.order (b + 1) n := by
  unfold KeyedHold.order
  apply List.flatMap_congr
  intro c hc
  have hbc : b ≠ c := by
    have := (List.mem_range'_1.mp hc).1
    omega
  exact a.eraseAll_queue_of_disjoint ks fun k hk hkc => hbc (a.bucket_unique (hks k hk) hkc)

/-- The loop of `release` over the buckets. -/
theorem releaseBuckets_refines :
    ∀ (n b limit : ℕ) (h : CombiningHold α) (a : KeyedHold UInt64 α), Refines h a →
      h.ScanSafe b n limit →
      ∃ h', releaseBuckets n b limit h = (h', emittedOf a ((a.order b n).take limit)) ∧
        h'.stuck = false ∧ Refines h' (a.eraseAll ((a.order b n).take limit)) ∧
        Released h h' := by
  intro n
  induction n with
  | zero =>
    intro b limit h a hr hf
    exact ⟨h, by simp [releaseBuckets, KeyedHold.order, emittedOf], hr.inv.table.stuck,
      by simpa [KeyedHold.order, KeyedHold.eraseAll] using hr, Released.refl h⟩
  | succ n ih =>
    intro b limit h a hr hf
    rw [releaseBuckets]
    by_cases hl : limit = 0
    · subst hl
      exact ⟨h, by simp [emittedOf], hr.inv.table.stuck, hr, Released.refl h⟩
    rw [if_neg hl]
    obtain ⟨h1, rest, heq, hstuck, hr1, hd1, hf1⟩ :=
      releaseList_refines b n (h.lists b) limit h a (by rwa [withList_self])
        (by rwa [withList_self])
    set ks := (a.queue b).take limit with hks
    have hmem : ∀ k ∈ ks, k ∈ a.queue b := fun k hk => List.mem_of_mem_take hk
    have hlen : (emittedOf a ks).length = ks.length := by
      refine emittedOf_length ((a.nodup b).sublist (List.take_sublist ..)) fun k hk => ?_
      obtain ⟨x, hx⟩ := a.item_of_mem (hmem k hk)
      simp [hx]
    rw [withList_self] at hd1
    obtain ⟨h2, heq2, hstuck2, hr2, hd2⟩ :=
      ih (b + 1) (limit - ks.length) _ _ hr1 hf1
    rw [order_eraseAll a hmem] at heq2 hr2
    have htake : (a.order b (n + 1)).take limit =
        ks ++ (a.order (b + 1) n).take (limit - ks.length) := by
      rw [a.order_succ, List.take_append, hks, List.length_take]
      congr 2
      omega
    refine ⟨h2, ?_, hstuck2, ?_, hd1.trans hd2⟩
    · rw [heq]
      dsimp only
      rw [if_neg (by simp [hstuck]), hlen]
      show (_, _) = _
      rw [show ({ h1 with lists := Function.update h1.lists b rest } : CombiningHold α) =
        h1.withList b rest from rfl, heq2, htake, emittedOf_append]
    · rw [htake, KeyedHold.eraseAll_append]
      exact hr2

/-- The loop that moves `lowest_` drops stale references only. -/
theorem raiseLowest_refines :
    ∀ (n : ℕ) (h : CombiningHold α) (a : KeyedHold UInt64 α), Refines h a →
      Refines (raiseLowest n h) a ∧ Released h (raiseLowest n h) := by
  intro n
  induction n with
  | zero => intro h a hr; exact ⟨hr, Released.refl h⟩
  | succ n ih =>
    intro h a hr
    rw [raiseLowest]
    split_ifs with hc
    · obtain ⟨hlt, h0⟩ := hc
      have hnil : liveRefs h.stamps [] = liveRefs h.stamps (h.lists h.lowest) := by
        rw [hr.inv.list.liveRefs_eq_nil h0]; rfl
      set h1 : CombiningHold α :=
        { h with lists := Function.update h.lists h.lowest [], lowest := h.lowest + 1 } with hh1
      have hsub : ∀ b, (h1.lists b).Sublist (h.lists b) := by
        intro b
        by_cases hbl : b = h.lowest
        · subst hbl; simp [hh1]
        · simp [hh1, Function.update_of_ne hbl]
      obtain ⟨htab, hlist, hrl, hbl, hlow, hle⟩ := hr.inv
      have hr1 : Refines h1 a := by
        refine ⟨⟨⟨htab.cap, htab.table, htab.mem, htab.keyInj, htab.freeLt, htab.freeNodup,
          htab.count, htab.load, htab.stuck⟩, hlist.drop hnil,
          fun b r hb => hrl b r ((hsub b).subset hb), hbl, ?_, hlt⟩, ?_, hr.item⟩
        · intro b hb
          rcases Nat.lt_succ_iff_lt_or_eq.mp hb with hb | rfl
          · exact hlow b hb
          · exact h0
        · intro b
          rw [hr.queue b]
          by_cases hbl : b = h.lowest
          · subst hbl; simp only [hh1, Function.update_self, hnil]
          · simp only [hh1, Function.update_of_ne hbl]
      have hd1 : Released h h1 := by
        refine ⟨fun _ => Or.inl ⟨Iff.rfl, rfl⟩, hsub, Nat.le_succ _, fun b h2 h3 => ?_, rfl, rfl,
          rfl, rfl⟩
        obtain rfl : b = h.lowest := Nat.le_antisymm (Nat.lt_succ_iff.mp h3) h2
        simp [hh1]
      obtain ⟨hr2, hd2⟩ := ih h1 a hr1
      exact ⟨hr2, hd1.trans hd2⟩
    · exact ⟨hr, Released.refl h⟩

/-- One call of `release` is the abstract `release`: the items emitted, their current
    payloads, the keys that leave, and nothing else changes. -/
theorem release_refines {h : CombiningHold α} {a : KeyedHold UInt64 α} (hr : Refines h a)
    {high limit : ℤ} (hf : h.ReleaseSafe high limit) :
    let ks := (a.order 0 (high + 1).toNat).take limit.toNat
    (h.release high limit).2 = emittedOf a ks ∧
      Refines (h.release high limit).1 (a.eraseAll ks) ∧ Released h (h.release high limit).1 := by
  dsimp only
  have hord : a.order h.lowest (min high (h.bucketCount - 1) + 1 - h.lowest).toNat =
      a.order 0 (high + 1).toNat := by
    apply a.order_congr
    intro c hc
    obtain ⟨k, hk⟩ := List.exists_mem_of_ne_nil _ hc
    obtain ⟨x, hx⟩ := a.item_of_mem hk
    obtain ⟨e, he, -, -, hb⟩ := hr.held_of_item hx
    have hlt := hr.inv.bucketLt e he
    have hge : h.lowest ≤ c := by
      by_contra hlow
      have := hr.inv.list.hasRef e he
      rw [hb, hr.inv.list.liveRefs_eq_nil (hr.inv.lowest c (by omega))] at this
      cases this
    rw [hb] at hlt
    omega
  obtain ⟨h1, heq, hstuck, hr1, hd1⟩ := releaseBuckets_refines
    (min high (h.bucketCount - 1) + 1 - h.lowest).toNat h.lowest limit.toNat h a hr hf
  rw [hord] at heq hr1
  obtain ⟨hr2, hd2⟩ := raiseLowest_refines (h1.bucketCount - h1.lowest) h1 _ hr1
  rw [release, heq]
  dsimp only
  rw [if_neg (by simp [hstuck])]
  exact ⟨rfl, hr2, hd1.trans hd2⟩

end CombiningHold

end Htram
