import Htram.Hold.Calls

/-!
# The table after any calls

What the table of a hold looks like between calls (`htram_combine.h` lines 78–126 and
172–242), in the terms of the source: slots, tags, home slots and the free list.

* `tableRep_iff`: this is the invariant `TableInv`.
* `after_tableRep`: it holds after every sequence of fewer than `2 ^ 31` inserts. In any
  table of this form the loops of `insert` and `erase` end at the slot they look for, and
  `erase` and `rebuild` keep the form.
-/

namespace Htram

open ProbeTable

namespace CombiningHold

variable {α : Type*}

/-- Slot `p` holds entry `e`. -/
def Sits (h : CombiningHold α) (e p : ℕ) : Prop := ∃ s, h.slots p = some s ∧ s.entry = e

/-- `(size_t)mix(keys_[e]) & mask_`, the home slot of an entry. -/
def homeOf (h : CombiningHold α) (e : ℕ) : ℕ := (mix (h.keys e)).toNat &&& h.mask

/-- The table between calls. -/
structure TableRep (h : CombiningHold α) : Prop where
  capacity : ∃ k, h.capacity = 2 ^ k
  load : 2 * h.count ≤ h.capacity
  count : h.count = (List.range h.pool).countP (· ∉ h.free)
  oneSlot : ∀ e, h.Held e → ∃! p, h.Sits e p
  slot : ∀ p s, h.slots p = some s →
    p < h.capacity ∧ h.Held s.entry ∧ s.tag = tagOf (mix (h.keys s.entry))
  noGap : ∀ p e, h.Sits e p → ∀ q < h.capacity, OnPath (h.homeOf e) p q → h.slots q ≠ none
  keyInj : ∀ e e', h.Held e → h.Held e' → h.keys e = h.keys e' → e = e'
  freeLt : ∀ e ∈ h.free, e < h.pool
  pool : ∀ e < h.pool, ((∃! p, h.Sits e p) ∧ h.free.count e = 0) ∨
    ((∀ p, ¬ h.Sits e p) ∧ h.free.count e = 1)
  stuck : h.stuck = false

theorem card_heldSet (h : CombiningHold α) :
    h.heldSet.card = (List.range h.pool).countP (· ∉ h.free) := by
  rw [List.countP_eq_length_filter]
  rfl

theorem TableInv.rep {h : CombiningHold α} (ht : TableInv h) : h.TableRep := by
  have hone : ∀ e, h.Held e → ∃! p, h.Sits e p := by
    intro e he
    obtain ⟨p, s, hs, hse⟩ := (ht.mem e).mpr he
    refine ⟨p, ⟨s, hs, hse⟩, ?_⟩
    rintro q ⟨t, hq, hte⟩
    exact ht.table.inj q p t s hq hs (hte.trans hse.symm)
  refine
    { capacity := ht.cap
      load := ht.load
      count := ht.count.trans h.card_heldSet
      oneSlot := hone
      slot := fun p s hs => ⟨ht.table.lt p s hs, (ht.mem _).mp ⟨p, s, hs, rfl⟩, ht.table.tag p s hs⟩
      noGap := ?_
      keyInj := ht.keyInj
      freeLt := ht.freeLt
      pool := fun e he => ?_
      stuck := ht.stuck }
  · rintro p e ⟨s, hs, rfl⟩ q hq hon
    exact ht.table.noGap p (ht.table.lt p s hs) s hs q hq hon
  · by_cases hf : e ∈ h.free
    · refine Or.inr ⟨fun p hp => ?_, List.count_eq_one_of_mem ht.freeNodup hf⟩
      exact ((ht.mem e).mp ⟨p, hp⟩).2 hf
    · exact Or.inl ⟨hone e ⟨he, hf⟩, List.count_eq_zero_of_not_mem hf⟩

theorem TableRep.inv {h : CombiningHold α} (hr : h.TableRep) : TableInv h where
  cap := hr.capacity
  table :=
    { lt := fun p s hs => (hr.slot p s hs).1
      tag := fun p s hs => (hr.slot p s hs).2.2
      inj := fun p q s t hs ht hst =>
        (hr.oneSlot t.entry (hr.slot q t ht).2.1).unique ⟨s, hs, hst⟩ ⟨t, ht, rfl⟩
      noGap := fun p _ s hs q hq hon => hr.noGap p s.entry ⟨s, hs, rfl⟩ q hq hon }
  mem e := by
    constructor
    · rintro ⟨p, s, hs, rfl⟩
      exact (hr.slot p s hs).2.1
    · intro he
      exact (hr.oneSlot e he).exists
  keyInj := hr.keyInj
  freeLt := hr.freeLt
  freeNodup := by
    rw [List.nodup_iff_count_le_one]
    intro e
    by_cases he : e ∈ h.free
    · rcases hr.pool e (hr.freeLt e he) with ⟨-, hc⟩ | ⟨-, hc⟩ <;> omega
    · rw [List.count_eq_zero_of_not_mem he]
      omega
  count := hr.count.trans h.card_heldSet.symm
  load := hr.load
  stuck := hr.stuck

theorem tableRep_iff {h : CombiningHold α} : h.TableRep ↔ TableInv h :=
  ⟨TableRep.inv, TableInv.rep⟩

/-! ## The loops -/

/-- The loop of `insert` (lines 83–105) ends, at the entry of the key if one is held and at
    an empty slot if not; the loops of `erase` (lines 202–219) end for every entry held, the
    first of them at its slot. -/
structure Searches (h : CombiningHold α) : Prop where
  insert : ∀ key, ∃ p, scan (adv h.mask)
      (fun p => (h.slots p).all fun s => s.tag = tagOf (mix key) ∧ h.keys s.entry = key)
      h.capacity ((mix key).toNat &&& h.mask) = some p ∧
    ((∃ s, h.slots p = some s ∧ h.keys s.entry = key) ↔ ∃ e, h.Held e ∧ h.keys e = key) ∧
    (h.slots p = none ↔ ∀ e, h.Held e → h.keys e ≠ key)
  erase : ∀ e, h.Held e → ∃ p end_, scan (adv h.mask)
      (fun p => (h.slots p).any fun s => s.entry = e) h.capacity (h.homeOf e) = some p ∧
    h.Sits e p ∧
    closeHole (adv h.mask) (home h.keys h.mask) h.capacity h.slots p (adv h.mask p) = some end_

theorem TableInv.searches {h : CombiningHold α} (ht : TableInv h) : h.Searches := by
  obtain ⟨k, hk⟩ := ht.cap
  refine ⟨fun key => ?_, fun e he => ?_⟩
  · obtain ⟨p, hscan, -, hp⟩ := lookup_spec ht.table hk ht.mem_heldSet ht.card_lt key
    refine ⟨p, hscan, ?_⟩
    rcases hp with ⟨s, hs, hkey⟩ | ⟨hnone, habs⟩
    · have he : h.Held s.entry := (ht.mem _).mp ⟨p, s, hs, rfl⟩
      refine ⟨iff_of_true ⟨s, hs, hkey⟩ ⟨s.entry, he, hkey⟩, iff_of_false ?_ ?_⟩
      · rw [hs]
        exact Option.some_ne_none s
      · intro hno
        exact hno _ he hkey
    · have hno : ∀ e, h.Held e → h.keys e ≠ key := fun e he => habs e ((ht.mem e).mpr he)
      refine ⟨iff_of_false ?_ ?_, iff_of_true hnone hno⟩
      · rintro ⟨s, hs, -⟩
        rw [hnone] at hs
        cases hs
      · rintro ⟨e, he, hkey⟩
        exact hno e he hkey
  · obtain ⟨p, T, hole, hscan, hclose, -⟩ :=
      eraseSlot_spec ht.table hk ht.mem_heldSet ht.card_lt ((ht.mem e).mpr he)
    refine ⟨p, (T, hole), hscan, ?_, hclose⟩
    have hstop := scan_some hscan
    cases hs : h.slots p with
    | none => simp [hs] at hstop
    | some s => exact ⟨s, hs, by simpa [hs] using hstop⟩

/-- `rebuild` with room for the entries held. -/
theorem TableInv.rebuild {h : CombiningHold α} (ht : TableInv h) {k : ℕ}
    (hk : 2 * h.count ≤ 2 ^ k) :
    TableInv (h.rebuild (2 ^ k)) ∧ ∀ e, (h.rebuild (2 ^ k)).Held e ↔ h.Held e := by
  have hpos := Nat.two_pow_pos k
  have hcard : h.heldSet.card < 2 ^ k := by have := ht.count; omega
  obtain ⟨T, hT, hok, hin⟩ := rebuild_spec ht.table ht.mem_heldSet hcard
  rw [hT]
  exact ⟨⟨⟨k, Nat.sub_add_cancel hpos⟩, hok, fun e => (hin e).trans (ht.mem e), ht.keyInj,
    ht.freeLt, ht.freeNodup, ht.count, hk.trans (Nat.sub_add_cancel hpos).ge, ht.stuck⟩,
    fun _ => Iff.rfl⟩

/-! ## Runs -/

theorem running_after [Inhabited α] (ops : HoldOps α) {buckets : ℕ} :
    ∀ (cs : List (Call α)) {n : ℕ} {h : CombiningHold α} {a : KeyedHold UInt64 α},
      Running buckets n h a → InRange buckets cs → n + inserts cs < 2 ^ 31 →
      ∃ a', Running buckets (n + inserts cs) (h.after ops cs) a' := by
  intro cs
  induction cs with
  | nil => intro n h a hs _ _; exact ⟨a, hs⟩
  | cons c cs ih =>
    intro n h a hs hb hn
    rw [inserts_cons] at hn ⊢
    have hb1 : InRange buckets [c] := fun item b hm =>
      hb item b (List.mem_cons.mpr (Or.inl (List.mem_singleton.mp hm)))
    obtain ⟨hs', -⟩ := call_step hs ops hb1 (by omega)
    rw [← Nat.add_assoc]
    exact ih hs' (fun item b hm => hb item b (List.mem_cons_of_mem _ hm)) (by omega)

/-- After any calls with fewer than `2 ^ 31` inserts the table has this form. In every table of
    this form the loops of `insert` and `erase` end and find a key exactly if it is held, and
    `erase` of an entry held and `rebuild` with enough room leave a table of this form with
    the other entries, respectively all of them. -/
theorem after_tableRep [Inhabited α] (ops : HoldOps α) (buckets : ℕ) :
    (∀ cs, InRange buckets cs → inserts cs < 2 ^ 31 → ((init buckets).after ops cs).TableRep) ∧
      ∀ h : CombiningHold α, h.TableRep → h.Searches ∧
        (∀ e, h.Held e →
          (h.erase e).TableRep ∧ ∀ x, (h.erase e).Held x ↔ h.Held x ∧ x ≠ e) ∧
        ∀ k, 2 * h.count ≤ 2 ^ k →
          (h.rebuild (2 ^ k)).TableRep ∧ ∀ x, (h.rebuild (2 ^ k)).Held x ↔ h.Held x := by
  constructor
  · intro cs hb hn
    have hinit : Running buckets 0 (init buckets : CombiningHold α) KeyedHold.empty :=
      ⟨init_refines buckets, rebuild_bucketCount .., init_early buckets⟩
    obtain ⟨a, hs⟩ := running_after ops cs hinit hb (by omega)
    exact hs.refines.inv.table.rep
  · intro h hr
    have ht := tableRep_iff.mp hr
    refine ⟨ht.searches, fun e he => ?_, fun k hk => ?_⟩
    · obtain ⟨-, ht', hheld⟩ := erase_spec ht he
      exact ⟨ht'.rep, hheld⟩
    · obtain ⟨ht', hheld⟩ := ht.rebuild hk
      exact ⟨ht'.rep, hheld⟩

/-- A fold, a new key and a release; then the table is rebuilt. -/
theorem after_tableRep_three :
    ((init 8).after minOps
        [.insert ⟨1, 7⟩ 7, .insert ⟨1, 2⟩ 2, .insert ⟨5, 3⟩ 3, .release 3 1]).TableRep ∧
      (((init 8).after minOps
        [.insert ⟨1, 7⟩ 7, .insert ⟨1, 2⟩ 2, .insert ⟨5, 3⟩ 3, .release 3 1]).rebuild
          (2 ^ 7)).TableRep := by
  have hrep := (after_tableRep minOps 8).1
    [.insert ⟨1, 7⟩ 7, .insert ⟨1, 2⟩ 2, .insert ⟨5, 3⟩ 3, .release 3 1]
    (by intro item b hmem; simp at hmem; omega) (by decide)
  refine ⟨hrep, (((after_tableRep minOps 8).2 _ hrep).2.2 7 ?_).1⟩
  decide +kernel

end CombiningHold

end Htram
