import Htram.Hold.Release

/-!
# The stamps of `CombiningHold`

Stamps are 32 bits wide. An operation is the abstract one as long as no reference
still in a list is about to be named again by its entry's next stamp; this file says
when that is.

* `insert_freshHeld`: after `insert`, `release` is safe if no reference was one or two
  stamps ahead.
* `Early`: in the first `2 ^ 31` inserts no stamp wraps, so no reference is ever ahead
  of its entry (`Early.roomy`, `Early.freshHeld`).
-/

namespace Htram

namespace CombiningHold

variable {α : Type*}

/-- How `insert` changes stamps and lists: not at all, or entry `e` takes the stamp
    after `s` and a reference with it is put in a list. -/
inductive Restamped (h h' : CombiningHold α) : Prop where
  | same (held : ∀ x, h'.Held x ↔ h.Held x) (stamps : h'.stamps = h.stamps)
      (lists : h'.lists = h.lists)
  | bump (e : ℕ) (s : UInt32) (old : e < h.pool → s = h.stamps e) (new : ¬ e < h.pool → s = 0)
      (held : ∀ x, h'.Held x ↔ h.Held x ∨ x = e)
      (stamps : h'.stamps = Function.update h.stamps e (s + 1))
      (lists : ∀ b, ∀ r ∈ h'.lists b, r ∈ h.lists b ∨ r = Ref.mk e (s + 1))

theorem mem_update_append {lists : ℕ → List Ref} {b c : ℕ} {r x : Ref}
    (hr : r ∈ Function.update lists b (lists b ++ [x]) c) : r ∈ lists c ∨ r = x := by
  by_cases hc : c = b
  · subst hc
    rwa [Function.update_self, List.mem_append, List.mem_singleton] at hr
  · rw [Function.update_of_ne hc] at hr
    exact Or.inl hr

theorem fold_restamped {h : CombiningHold α} (ht : TableInv h) (ops : HoldOps α) {e : ℕ}
    (he : h.Held e) (item : α) (bucket : ℕ) : Restamped h (h.fold ops e item bucket).1 := by
  have hheld := (fold_tableInv ht ops e item bucket).2
  by_cases hm : (ops.combine (h.payloads e) item).2.2 = true ∧ bucket ≠ h.buckets e
  · refine Restamped.bump e (h.stamps e) (fun _ => rfl) (fun hno => absurd he.1 hno) ?_ ?_ ?_
    · intro x
      rw [hheld x]
      exact ⟨Or.inl, fun hx => hx.elim id fun hx => hx ▸ he⟩
    · simp only [fold, if_pos hm]
    · intro b r hr
      simp only [fold, if_pos hm] at hr
      exact mem_update_append hr
  · exact Restamped.same hheld (by simp only [fold, if_neg hm]) (by simp only [fold, if_neg hm])

theorem insert_restamped [Inhabited α] {h : CombiningHold α} (ht : TableInv h) (ops : HoldOps α)
    (item : α) (bucket : ℕ) : Restamped h (h.insert ops item bucket).1 := by
  rcases insert_cases ht ops item bucket with
    ⟨e, he, -, hins⟩ | ⟨slot, hit, hnew, hslot, hend, hins⟩
  · rw [hins]; exact fold_restamped ht ops he item bucket
  · obtain ⟨h', e, ha⟩ : ∃ h' e, h.allocEntry = (h', e) := ⟨_, _, rfl⟩
    have hal : Alloc h h' e := by
      have := allocEntry_spec ht.freeLt ht.freeNodup
      rwa [ha] at this
    obtain ⟨-, -, -, -, hlists, -⟩ := hal.rest
    obtain ⟨mask, slots, heq, -⟩ := add_spec ht hnew hslot hend item bucket ha
    rw [hins, heq]
    refine Restamped.bump e (h'.stamps e) hal.stamp hal.stampNew hal.held ?_ ?_
    · funext x
      by_cases hx : x = e
      · subst hx; simp
      · simp [Function.update_of_ne hx, hal.stamps x hx]
    · intro b r hr
      rw [← hlists]
      exact mem_update_append hr

/-- After `insert` the hold may be released from. -/
theorem insert_freshHeld [Inhabited α] {h : CombiningHold α} (hi : HoldInv h) (hr : h.Roomy)
    (ops : HoldOps α) (item : α) (bucket : ℕ) : (h.insert ops item bucket).1.FreshHeld := by
  intro b r hb _
  cases insert_restamped hi.table ops item bucket with
  | same held stamps lists =>
    rw [stamps]; rw [lists] at hb
    exact (hr b r hb).1
  | bump e s old new held stamps lists =>
    rw [stamps]
    rcases lists b r hb with hb | rfl
    · by_cases he : r.entry = e
      · have hlt : e < h.pool := he ▸ hi.refLt b r hb
        rw [he, Function.update_self, old hlt, ← he, UInt32.add_assoc]
        exact (hr b r hb).2
      · rw [Function.update_of_ne he]
        exact (hr b r hb).1
    · rw [Function.update_self]
      exact stamp_ne_succ _

/-- The stamps after `n` inserts, none of them wrapped. -/
structure Early (h : CombiningHold α) (n : ℕ) : Prop where
  refLe : ∀ b, ∀ r ∈ h.lists b, r.stamp.toNat ≤ (h.stamps r.entry).toNat
  stampLe : ∀ e, (h.stamps e).toNat ≤ 2 * n
  heldLt : ∀ e, h.Held e → (h.stamps e).toNat < 2 * n

theorem Early.mono {h : CombiningHold α} {n m : ℕ} (he : Early h n) (hm : n ≤ m) : Early h m :=
  ⟨he.refLe, fun e => (he.stampLe e).trans (by omega),
    fun e hx => (he.heldLt e hx).trans_le (by omega)⟩

theorem Early.roomy {h : CombiningHold α} {n : ℕ} (he : Early h n) (hn : n + 1 < 2 ^ 31) :
    h.Roomy := by
  intro b r hb
  have h1 := he.refLe b r hb
  have h2 := he.stampLe r.entry
  constructor
  · intro heq
    rw [heq, UInt32.toNat_add] at h1
    simp at h1; omega
  · intro heq
    rw [heq, UInt32.toNat_add] at h1
    simp at h1; omega

theorem Early.freshHeld {h : CombiningHold α} {n : ℕ} (he : Early h n) (hn : n < 2 ^ 31) :
    h.FreshHeld := by
  intro b r hb hheld heq
  have h1 := he.refLe b r hb
  have h2 := he.heldLt _ hheld
  rw [heq, UInt32.toNat_add] at h1
  simp at h1; omega

theorem init_early [Inhabited α] (buckets : ℕ) : Early (init buckets : CombiningHold α) 0 := by
  obtain ⟨T, hT, -, -⟩ := init_eq (α := α) buckets
  rw [hT]
  exact ⟨by simp, by simp, fun e he => by simp [Held] at he⟩

theorem toNat_succ {s : UInt32} (h : s.toNat + 1 < 2 ^ 32) : (s + 1).toNat = s.toNat + 1 := by
  rw [UInt32.toNat_add]
  simp only [UInt32.toNat_one]
  omega

theorem Early.insert [Inhabited α] {h : CombiningHold α} {n : ℕ} (he : Early h n)
    (hi : HoldInv h) (hn : n + 1 < 2 ^ 31) (ops : HoldOps α) (item : α) (bucket : ℕ) :
    Early (h.insert ops item bucket).1 (n + 1) := by
  cases insert_restamped hi.table ops item bucket with
  | same held stamps lists =>
    refine ⟨by rw [stamps, lists]; exact he.refLe, ?_, ?_⟩
    · intro e; rw [stamps]; have := he.stampLe e; omega
    · intro e hx; rw [stamps]; have := he.heldLt e ((held e).mp hx); omega
  | bump e s old new held stamps lists =>
    have hs : s.toNat ≤ 2 * n := by
      by_cases hlt : e < h.pool
      · rw [old hlt]; exact he.stampLe e
      · rw [new hlt]; simp
    have hs1 : (s + 1).toNat = s.toNat + 1 := toNat_succ (by omega)
    refine ⟨?_, ?_, ?_⟩
    · intro b r hb
      rw [stamps]
      rcases lists b r hb with hb | rfl
      · by_cases hre : r.entry = e
        · have := he.refLe b r hb
          rw [hre, Function.update_self, hs1, old (hre ▸ hi.refLt b r hb)]
          rw [hre] at this
          omega
        · rw [Function.update_of_ne hre]; exact he.refLe b r hb
      · rw [Function.update_self]
    · intro x
      rw [stamps]
      by_cases hx : x = e
      · subst hx; rw [Function.update_self, hs1]; omega
      · rw [Function.update_of_ne hx]; have := he.stampLe x; omega
    · intro x hheld
      rw [stamps]
      by_cases hx : x = e
      · subst hx; rw [Function.update_self, hs1]; omega
      · rw [Function.update_of_ne hx]
        have := he.heldLt x (((held x).mp hheld).resolve_right hx)
        omega

theorem Early.released {h h' : CombiningHold α} {n : ℕ} (he : Early h n) (hd : Released h h')
    (hn : n < 2 ^ 31) : Early h' n := by
  have hstep : ∀ e, h.Held e → (h.stamps e + 1).toNat = (h.stamps e).toNat + 1 := by
    intro e hheld
    have := he.heldLt e hheld
    exact toNat_succ (by omega)
  refine ⟨?_, ?_, ?_⟩
  · intro b r hb
    have := he.refLe b r (hd.mem hb)
    rcases hd.entry r.entry with ⟨-, hs⟩ | ⟨hh, -, hs⟩
    · rw [hs]; exact this
    · rw [hs, hstep _ hh]; omega
  · intro e
    rcases hd.entry e with ⟨-, hs⟩ | ⟨hh, -, hs⟩
    · rw [hs]; exact he.stampLe e
    · rw [hs, hstep e hh]; have := he.heldLt e hh; omega
  · intro e hheld
    rcases hd.entry e with ⟨hh, hs⟩ | ⟨-, hno, -⟩
    · rw [hs]; exact he.heldLt e (hh.mp hheld)
    · exact absurd hheld hno

end CombiningHold

end Htram
