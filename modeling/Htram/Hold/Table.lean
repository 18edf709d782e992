import Htram.Hold.CombiningHold
import Mathlib.Data.Finset.Card
import Mathlib.Data.Finset.Filter
import Mathlib.Data.Finset.Range
import Mathlib.Algebra.Order.Ring.Nat

/-!
# The open-addressed table of `CombiningHold`

`TableOk keys mask T` is the representation invariant of the slots: the right tag
in each, one slot an entry, and no empty slot between an entry's home and its slot.

* `lookup_spec`: the probe loop of `insert` ends, at the entry of the key or, if no
  entry in the table has the key, at an empty slot.
* `TableOk.put`, `reinsertAll_spec`, `eraseSlot_spec`: adding an entry, `rebuild`
  and backward-shift deletion keep it and change the entries as they should.
-/

namespace Htram

open ProbeTable

namespace CombiningHold

theorem adv_isRing {mask k : ℕ} (hk : mask + 1 = 2 ^ k) : IsRing (mask + 1) (adv mask) := by
  intro p hp
  have hmask : mask = 2 ^ k - 1 := by omega
  unfold adv
  rw [hmask, Nat.and_two_pow_sub_one_eq_mod, ← hk]
  split_ifs with h
  · have h' : p + 1 = mask + 1 := by omega
    rw [h', Nat.mod_self]
  · exact Nat.mod_eq_of_lt (by omega)

theorem and_mask_lt (x mask : ℕ) : x &&& mask < mask + 1 :=
  Nat.lt_succ_of_le Nat.and_le_right

/-- Entry `e` sits in some slot. -/
def InTable (T : ℕ → Option Slot) (e : ℕ) : Prop := ∃ p s, T p = some s ∧ s.entry = e

/-- The representation invariant of the slots. -/
structure TableOk (keys : ℕ → UInt64) (mask : ℕ) (T : ℕ → Option Slot) : Prop where
  lt : ∀ p s, T p = some s → p < mask + 1
  tag : ∀ p s, T p = some s → s.tag = tagOf (mix (keys s.entry))
  inj : ∀ p q s t, T p = some s → T q = some t → s.entry = t.entry → p = q
  noGap : NoGap (mask + 1) (home keys mask) T

variable {keys : ℕ → UInt64} {mask : ℕ} {T : ℕ → Option Slot}

theorem TableOk.empty (keys : ℕ → UInt64) (mask : ℕ) : TableOk keys mask fun _ => none := by
  constructor
  · intro p s h; cases h
  · intro p s h; cases h
  · intro p q s t h; cases h
  · intro p _ x h; cases h

/-- The invariant only reads the keys of the entries in the table. -/
theorem TableOk.congr_keys (ht : TableOk keys mask T) {keys' : ℕ → UInt64}
    (hk : ∀ e, InTable T e → keys' e = keys e) : TableOk keys' mask T := by
  have hkey : ∀ p s, T p = some s → keys' s.entry = keys s.entry :=
    fun p s h => hk _ ⟨p, s, h, rfl⟩
  refine ⟨ht.lt, ?_, ht.inj, ?_⟩
  · intro p s h; rw [hkey p s h]; exact ht.tag p s h
  · intro p hp x hx q hq hon
    have : home keys' mask x = home keys mask x := by unfold home; rw [hkey p x hx]
    rw [this] at hon
    exact ht.noGap p hp x hx q hq hon

/-- Fewer entries than slots leave a slot empty. -/
theorem TableOk.exists_empty (ht : TableOk keys mask T) {S : Finset ℕ}
    (hS : ∀ e, InTable T e → e ∈ S) (hcard : S.card < mask + 1) :
    ∃ z < mask + 1, T z = none := by
  by_contra hno
  push Not at hno
  have hmaps : ∀ p ∈ Finset.range (mask + 1), ((T p).map Slot.entry).getD 0 ∈ S := by
    intro p hp
    obtain ⟨s, hs⟩ := Option.ne_none_iff_exists'.mp (hno p (Finset.mem_range.mp hp))
    rw [hs]
    exact hS _ ⟨p, s, hs, rfl⟩
  have hinj : Set.InjOn (fun p => ((T p).map Slot.entry).getD 0) (Finset.range (mask + 1)) := by
    intro p hp q hq hpq
    obtain ⟨s, hs⟩ := Option.ne_none_iff_exists'.mp (hno p (Finset.mem_range.mp hp))
    obtain ⟨t, ht'⟩ := Option.ne_none_iff_exists'.mp (hno q (Finset.mem_range.mp hq))
    simp only [hs, ht', Option.map_some, Option.getD_some] at hpq
    exact ht.inj p q s t hs ht' hpq
  have := Finset.card_le_card_of_injOn _ hmaps hinj
  rw [Finset.card_range] at this
  omega

/-! ## Adding an entry -/

theorem inTable_update {p e e' : ℕ} {tag : UInt8} (hp : T p = none) :
    InTable (Function.update T p (some ⟨e, tag⟩)) e' ↔ e' = e ∨ InTable T e' := by
  constructor
  · rintro ⟨q, s, hs, rfl⟩
    by_cases hqp : q = p
    · subst hqp
      rw [Function.update_self] at hs; cases hs
      exact Or.inl rfl
    · rw [Function.update_of_ne hqp] at hs
      exact Or.inr ⟨q, s, hs, rfl⟩
  · rintro (rfl | ⟨q, s, hs, rfl⟩)
    · exact ⟨p, _, Function.update_self .., rfl⟩
    · have hqp : q ≠ p := by rintro rfl; rw [hp] at hs; cases hs
      exact ⟨q, s, by rwa [Function.update_of_ne hqp], rfl⟩

/-- Putting an entry where the search from its home ended. -/
theorem TableOk.put (ht : TableOk keys mask T) {hit : Slot → Bool} {p e : ℕ}
    (he : Ended (mask + 1) (fun q => (T q).all hit) ((mix (keys e)).toNat &&& mask) p)
    (hnew : ¬ InTable T e) :
    TableOk keys mask (Function.update T p (some ⟨e, tagOf (mix (keys e))⟩)) := by
  refine ⟨?_, ?_, ?_, ?_⟩
  · intro q s hs
    by_cases hqp : q = p
    · rw [hqp]; exact he.lt
    · rw [Function.update_of_ne hqp] at hs; exact ht.lt q s hs
  · intro q s hs
    by_cases hqp : q = p
    · subst hqp; rw [Function.update_self] at hs; cases hs; rfl
    · rw [Function.update_of_ne hqp] at hs; exact ht.tag q s hs
  · intro q r s t hs hr hst
    by_cases hqp : q = p <;> by_cases hrp : r = p
    · rw [hqp, hrp]
    · subst hqp
      rw [Function.update_self] at hs; cases hs
      rw [Function.update_of_ne hrp] at hr
      exact absurd ⟨r, t, hr, hst.symm⟩ hnew
    · subst hrp
      rw [Function.update_self] at hr; cases hr
      rw [Function.update_of_ne hqp] at hs
      exact absurd ⟨q, s, hs, hst⟩ hnew
    · rw [Function.update_of_ne hqp] at hs
      rw [Function.update_of_ne hrp] at hr
      exact ht.inj q r s t hs hr hst
  · exact ht.noGap.update_some he

/-! ## `insert`'s search -/

/-- The search of `insert` for `key`: it ends at the entry of `key`, or at an empty
    slot when no entry in the table has that key. -/
theorem lookup_spec (ht : TableOk keys mask T) {k : ℕ} (hk : mask + 1 = 2 ^ k) {S : Finset ℕ}
    (hS : ∀ e, InTable T e → e ∈ S) (hcard : S.card < mask + 1) (key : UInt64) :
    ∃ p, scan (adv mask)
        (fun p => (T p).all fun s => s.tag = tagOf (mix key) ∧ keys s.entry = key)
        (mask + 1) ((mix key).toNat &&& mask) = some p ∧
      Ended (mask + 1) (fun p => (T p).all fun s => s.tag = tagOf (mix key) ∧ keys s.entry = key)
        ((mix key).toNat &&& mask) p ∧
      ((∃ s, T p = some s ∧ keys s.entry = key) ∨
        (T p = none ∧ ∀ e, InTable T e → keys e ≠ key)) := by
  obtain ⟨z, hz, hTz⟩ := ht.exists_empty hS hcard
  obtain ⟨p, hscan, hend⟩ := scan_spec (adv_isRing hk)
    (fun p => (T p).all fun s => s.tag = tagOf (mix key) ∧ keys s.entry = key)
    hz (by simp [hTz]) (and_mask_lt (mix key).toNat mask)
  refine ⟨p, hscan, hend, ?_⟩
  cases hp : T p with
  | some s =>
    have := hend.stop
    simp only [hp, Option.all_some, decide_eq_true_eq] at this
    exact Or.inl ⟨s, rfl, this.2⟩
  | none =>
    refine Or.inr ⟨rfl, ?_⟩
    rintro e ⟨q, s, hs, rfl⟩ hkey
    have hmiss := probe_absent ht.noGap hend hp (ht.lt q s hs) hs
      (show home keys mask s = _ by unfold home; rw [hkey])
    simp [ht.tag q s hs, hkey] at hmiss

/-! ## `rebuild` -/

theorem reinsert_spec (ht : TableOk keys mask T) {k : ℕ} (hk : mask + 1 = 2 ^ k) {S : Finset ℕ}
    (hS : ∀ e, InTable T e → e ∈ S) (hcard : S.card < mask + 1) {s : Slot}
    (hnew : ¬ InTable T s.entry) :
    ∃ T', reinsert keys mask T s = some T' ∧ TableOk keys mask T' ∧
      ∀ e, InTable T' e ↔ e = s.entry ∨ InTable T e := by
  obtain ⟨z, hz, hTz⟩ := ht.exists_empty hS hcard
  obtain ⟨p, hscan, hend⟩ := scan_spec (adv_isRing hk)
    (fun p => (T p).all fun _ => false) hz (by simp [hTz])
    (and_mask_lt (mix (keys s.entry)).toNat mask)
  have hp : T p = none := by
    have := hend.stop
    cases hp : T p with
    | none => rfl
    | some t => simp [hp] at this
  refine ⟨_, ?_, ht.put hend hnew, fun e => inTable_update hp⟩
  unfold reinsert home
  rw [hscan]; rfl

theorem reinsertAll_spec {k : ℕ} (hk : mask + 1 = 2 ^ k) (old : ℕ → Option Slot)
    (hold : ∀ p q s t, old p = some s → old q = some t → s.entry = t.entry → p = q)
    {S : Finset ℕ} (hcard : S.card < mask + 1) (holdS : ∀ i s, old i = some s → s.entry ∈ S) :
    ∀ (is : List ℕ) (T : ℕ → Option Slot), is.Nodup → TableOk keys mask T →
      (∀ e, InTable T e → e ∈ S) → (∀ i ∈ is, ∀ s, old i = some s → ¬ InTable T s.entry) →
      ∃ T', reinsertAll keys mask old is T = some T' ∧ TableOk keys mask T' ∧
        ∀ e, InTable T' e ↔ InTable T e ∨ ∃ i ∈ is, ∃ s, old i = some s ∧ s.entry = e := by
  intro is
  induction is with
  | nil =>
    intro T _ ht _ _
    exact ⟨T, rfl, ht, fun e => by simp⟩
  | cons i is ih =>
    intro T hnd ht hS hnew
    obtain ⟨hi, hnd'⟩ := List.nodup_cons.mp hnd
    rw [reinsertAll]
    cases ho : old i with
    | none =>
      obtain ⟨T', hT', hok, hmem⟩ := ih T hnd' ht hS fun j hj => hnew j (List.mem_cons_of_mem _ hj)
      refine ⟨T', hT', hok, fun e => (hmem e).trans (or_congr_right ?_)⟩
      constructor
      · rintro ⟨j, hj, h⟩; exact ⟨j, List.mem_cons_of_mem _ hj, h⟩
      · rintro ⟨j, hj, s, hs, he⟩
        rcases List.mem_cons.mp hj with rfl | hj
        · rw [ho] at hs; cases hs
        · exact ⟨j, hj, s, hs, he⟩
    | some s =>
      obtain ⟨T₁, hT₁, hok₁, hmem₁⟩ :=
        reinsert_spec ht hk hS hcard (hnew i (List.mem_cons_self ..) s ho)
      have hS₁ : ∀ e, InTable T₁ e → e ∈ S := by
        intro e he
        rcases (hmem₁ e).mp he with rfl | he
        · exact holdS i s ho
        · exact hS e he
      have hnew₁ : ∀ j ∈ is, ∀ t, old j = some t → ¬ InTable T₁ t.entry := by
        intro j hj t hjt hin
        rcases (hmem₁ _).mp hin with he | hin
        · have := hold j i t s hjt ho he
          subst this; exact hi hj
        · exact hnew j (List.mem_cons_of_mem _ hj) t hjt hin
      obtain ⟨T', hT', hok, hmem⟩ := ih T₁ hnd' hok₁ hS₁ hnew₁
      refine ⟨T', by simp [hT₁, hT'], hok, fun e => ?_⟩
      rw [hmem e, hmem₁ e]
      constructor
      · rintro ((rfl | h) | ⟨j, hj, t, ht, he⟩)
        · exact Or.inr ⟨i, List.mem_cons_self .., s, ho, rfl⟩
        · exact Or.inl h
        · exact Or.inr ⟨j, List.mem_cons_of_mem _ hj, t, ht, he⟩
      · rintro (h | ⟨j, hj, t, ht, he⟩)
        · exact Or.inl (Or.inr h)
        · rcases List.mem_cons.mp hj with rfl | hj
          · rw [ho] at ht; cases ht; exact Or.inl (Or.inl he.symm)
          · exact Or.inr ⟨j, hj, t, ht, he⟩

/-! ## Deletion -/

/-- The two loops of `erase` for an entry in the table: they end, and take that
    entry out of the table. -/
theorem eraseSlot_spec (ht : TableOk keys mask T) {k : ℕ} (hk : mask + 1 = 2 ^ k) {S : Finset ℕ}
    (hS : ∀ e, InTable T e → e ∈ S) (hcard : S.card < mask + 1) {e : ℕ} (he : InTable T e) :
    ∃ slot T' hole,
      scan (adv mask) (fun p => (T p).any fun s => s.entry = e) (mask + 1)
        ((mix (keys e)).toNat &&& mask) = some slot ∧
      closeHole (adv mask) (home keys mask) (mask + 1) T slot (adv mask slot) = some (T', hole) ∧
      TableOk keys mask (Function.update T' hole none) ∧
      ∀ e', InTable (Function.update T' hole none) e' ↔ InTable T e' ∧ e' ≠ e := by
  have hring := adv_isRing hk
  obtain ⟨z, hz, hTz⟩ := ht.exists_empty hS hcard
  obtain ⟨p, s, hs, hse⟩ := he
  obtain ⟨slot, hscan, hend⟩ := scan_spec hring
    (fun p => (T p).any fun s => s.entry = e) (ht.lt p s hs) (by simp [hs, hse])
    (and_mask_lt (mix (keys e)).toNat mask)
  obtain ⟨t, htslot, hte⟩ : ∃ t, T slot = some t ∧ t.entry = e := by
    have := hend.stop
    cases hsl : T slot with
    | none => simp [hsl] at this
    | some t => exact ⟨t, rfl, by simpa [hsl] using this⟩
  have hinjOff : InjOff (mask + 1) T slot :=
    fun p _ q _ _ _ x hx hy => ht.inj p q x x hx hy rfl
  obtain ⟨T', hole, hclose, hlt, hgap, hinj', hmem, hout⟩ :=
    closeHole_erase hring ht.noGap hz hTz hend.lt htslot hinjOff
  -- an entry left in `T'` is an entry of `T` other than `e`
  have hback : ∀ q x, q ≠ hole → T' q = some x →
      q < mask + 1 ∧ ∃ r, T r = some x ∧ x.entry ≠ e := by
    intro q x hqh hx
    have hq : q < mask + 1 := by
      by_contra hq
      rw [hout q (by omega)] at hx
      exact hq (ht.lt q x hx)
    obtain ⟨r, hr, hrs, hxr⟩ := (hmem x).mp ⟨q, hq, hqh, hx⟩
    exact ⟨hq, r, hxr, fun hxe => hrs (ht.inj r slot x t hxr htslot (hxe.trans hte.symm))⟩
  refine ⟨slot, T', hole, hscan, hclose, ⟨?_, ?_, ?_, hgap⟩, ?_⟩
  · intro q x hx
    have hqh : q ≠ hole := by rintro rfl; rw [Function.update_self] at hx; cases hx
    rw [Function.update_of_ne hqh] at hx
    exact (hback q x hqh hx).1
  · intro q x hx
    have hqh : q ≠ hole := by rintro rfl; rw [Function.update_self] at hx; cases hx
    rw [Function.update_of_ne hqh] at hx
    obtain ⟨-, r, hr, -⟩ := hback q x hqh hx
    exact ht.tag r x hr
  · intro q r x y hx hy hxy
    have hqh : q ≠ hole := by rintro rfl; rw [Function.update_self] at hx; cases hx
    have hrh : r ≠ hole := by rintro rfl; rw [Function.update_self] at hy; cases hy
    rw [Function.update_of_ne hqh] at hx
    rw [Function.update_of_ne hrh] at hy
    obtain ⟨hq, q₀, hq₀, -⟩ := hback q x hqh hx
    obtain ⟨hr, r₀, hr₀, -⟩ := hback r y hrh hy
    have h0 := ht.inj q₀ r₀ x y hq₀ hr₀ hxy
    subst h0
    rw [hq₀] at hr₀; cases hr₀
    exact hinj' q hq r hr hqh hrh x hx hy
  · intro e'
    constructor
    · rintro ⟨q, x, hx, rfl⟩
      have hqh : q ≠ hole := by rintro rfl; rw [Function.update_self] at hx; cases hx
      rw [Function.update_of_ne hqh] at hx
      obtain ⟨-, r, hr, hne⟩ := hback q x hqh hx
      exact ⟨⟨r, x, hr, rfl⟩, hne⟩
    · rintro ⟨⟨q, x, hx, rfl⟩, hne⟩
      have hqs : q ≠ slot := by rintro rfl; rw [htslot] at hx; cases hx; exact hne hte
      obtain ⟨r, -, hrh, hrx⟩ := (hmem x).mpr ⟨q, ht.lt q x hx, hqs, hx⟩
      exact ⟨r, x, by rwa [Function.update_of_ne hrh], rfl⟩

end CombiningHold

end Htram
