import Htram.Hold.Table
import Mathlib.Data.Finset.Insert

/-!
# The pool and table invariant of `CombiningHold`

`TableInv h` ties the slots, the key array, the free list and `count_` together:
each entry of the pool is either in exactly one slot or exactly once in the free
list, no two held entries share a key, and at most half of the slots are taken.

* `insert_cases`: under the invariant `insert` either folds into the held entry of
  the item's key, or adds an entry because no held entry has that key.
* `add_spec`, `fold_tableInv`, `erase_spec`, `init_tableInv`: the operations keep
  the invariant, never get stuck, and hold exactly the entries they should.
-/

namespace Htram

open ProbeTable

namespace CombiningHold

variable {α : Type*}

/-- Entry `e` is allocated and not free. -/
def Held (h : CombiningHold α) (e : ℕ) : Prop := e < h.pool ∧ e ∉ h.free

/-- The held entries. -/
def heldSet (h : CombiningHold α) : Finset ℕ := (Finset.range h.pool).filter (· ∉ h.free)

theorem mem_heldSet {h : CombiningHold α} {e : ℕ} : e ∈ h.heldSet ↔ h.Held e := by
  simp [heldSet, Held]

/-- The invariant of the pool, the free list and the table. -/
structure TableInv (h : CombiningHold α) : Prop where
  cap : ∃ k, h.mask + 1 = 2 ^ k
  table : TableOk h.keys h.mask h.slots
  mem : ∀ e, InTable h.slots e ↔ h.Held e
  keyInj : ∀ e e', h.Held e → h.Held e' → h.keys e = h.keys e' → e = e'
  freeLt : ∀ e ∈ h.free, e < h.pool
  freeNodup : h.free.Nodup
  count : h.count = h.heldSet.card
  load : 2 * h.count ≤ h.mask + 1
  stuck : h.stuck = false

theorem TableInv.mem_heldSet {h : CombiningHold α} (ht : TableInv h) :
    ∀ e, InTable h.slots e → e ∈ h.heldSet :=
  fun e he => CombiningHold.mem_heldSet.mpr ((ht.mem e).mp he)

theorem TableInv.card_lt {h : CombiningHold α} (ht : TableInv h) :
    h.heldSet.card < h.mask + 1 := by
  have := ht.load; rw [ht.count] at this; omega

/-! ## `rebuild` and `init` -/

/-- `rebuild` to a larger power of two keeps the entries of the table. -/
theorem rebuild_spec {h : CombiningHold α} {k : ℕ} (ht : TableOk h.keys h.mask h.slots)
    (hmem : ∀ e, InTable h.slots e → e ∈ h.heldSet) (hcard : h.heldSet.card < 2 ^ k) :
    ∃ T, h.rebuild (2 ^ k) = { h with mask := 2 ^ k - 1, slots := T } ∧
      TableOk h.keys (2 ^ k - 1) T ∧ ∀ e, InTable T e ↔ InTable h.slots e := by
  have hpos : 2 ^ k - 1 + 1 = 2 ^ k := by have := Nat.one_le_two_pow (n := k); omega
  obtain ⟨T, hT, hok, hin⟩ := reinsertAll_spec hpos h.slots ht.inj
    (by rw [hpos]; exact hcard) (fun i s hs => hmem _ ⟨i, s, hs, rfl⟩)
    (List.range h.capacity) (fun _ => none) List.nodup_range (TableOk.empty _ _)
    (by rintro e ⟨p, s, hs, -⟩; cases hs) (by rintro i - s - ⟨p, t, ht', -⟩; cases ht')
  refine ⟨T, by simp [rebuild, hT], hok, fun e => (hin e).trans ?_⟩
  constructor
  · rintro (⟨p, s, hs, -⟩ | ⟨i, -, s, hs, he⟩)
    · cases hs
    · exact ⟨i, s, hs, he⟩
  · rintro ⟨p, s, hs, he⟩
    exact Or.inr ⟨p, List.mem_range.mpr (ht.lt p s hs), s, hs, he⟩

theorem init_eq [Inhabited α] (buckets : ℕ) :
    ∃ T, (init buckets : CombiningHold α) =
        { mask := 63, count := 0, lowest := buckets, slots := T, keys := fun _ => 0
          buckets := fun _ => 0, stamps := fun _ => 0, payloads := fun _ => default, pool := 0
          free := [], lists := fun _ => [], live := fun _ => 0, bucketCount := buckets
          absorbed := 0, inserted := 0, combined := [], retired := [], stuck := false } ∧
      TableOk (fun _ => 0) 63 T ∧ ∀ e, ¬ InTable T e := by
  obtain ⟨T, hT, hok, hin⟩ := rebuild_spec (k := 6)
    (h := ({ mask := 0, count := 0, lowest := buckets, slots := fun _ => none, keys := fun _ => 0
             buckets := fun _ => 0, stamps := fun _ => 0, payloads := fun _ => default, pool := 0
             free := [], lists := fun _ => [], live := fun _ => 0, bucketCount := buckets
             absorbed := 0, inserted := 0, combined := [], retired := []
             stuck := false } : CombiningHold α))
    (TableOk.empty _ _) (by rintro e ⟨p, s, hs, -⟩; cases hs) (by simp [heldSet])
  refine ⟨T, hT, hok, fun e he => ?_⟩
  obtain ⟨p, s, hs, -⟩ := (hin e).mp he
  cases hs

@[simp] theorem init_lists [Inhabited α] (buckets b : ℕ) :
    (init buckets : CombiningHold α).lists b = [] := by
  obtain ⟨T, hT, -, -⟩ := init_eq (α := α) buckets
  rw [hT]

@[simp] theorem init_retired [Inhabited α] (buckets : ℕ) :
    (init buckets : CombiningHold α).retired = [] := by
  obtain ⟨T, hT, -, -⟩ := init_eq (α := α) buckets
  rw [hT]

theorem init_tableInv [Inhabited α] (buckets : ℕ) : TableInv (init buckets : CombiningHold α) := by
  obtain ⟨T, hT, hok, hin⟩ := init_eq (α := α) buckets
  rw [hT]
  have hno : ∀ e, ¬ ({ mask := 63, count := 0, lowest := buckets, slots := T, keys := fun _ => 0
                       buckets := fun _ => 0, stamps := fun _ => 0
                       payloads := fun _ => default, pool := 0
                       free := [], lists := fun _ => [], live := fun _ => 0
                       bucketCount := buckets, absorbed := 0, inserted := 0, combined := []
                       retired := [], stuck := false } : CombiningHold α).Held e := fun e he => by
    simp [Held] at he
  exact ⟨⟨6, rfl⟩, hok, fun e => iff_of_false (hin e) (hno e),
    fun e _ he => absurd he (hno e), by simp, List.nodup_nil, by simp [heldSet], by simp, rfl⟩

/-! ## `allocEntry` -/

/-- What `allocEntry` returns: an entry that was not held, and a hold that differs
    from the old one in its pool, its free list and at that entry only. -/
structure Alloc (h h' : CombiningHold α) (e : ℕ) : Prop where
  notHeld : ¬ h.Held e
  held : ∀ x, h'.Held x ↔ h.Held x ∨ x = e
  card : h'.heldSet.card = h.heldSet.card + 1
  freeLt : ∀ x ∈ h'.free, x < h'.pool
  freeNodup : h'.free.Nodup
  pool_le : h.pool ≤ h'.pool
  lt : e < h'.pool
  keys : ∀ x, x ≠ e → h'.keys x = h.keys x
  buckets : ∀ x, x ≠ e → h'.buckets x = h.buckets x
  stamps : ∀ x, x ≠ e → h'.stamps x = h.stamps x
  payloads : ∀ x, x ≠ e → h'.payloads x = h.payloads x
  stamp : e < h.pool → h'.stamps e = h.stamps e
  stampNew : ¬ e < h.pool → h'.stamps e = 0
  rest : h'.mask = h.mask ∧ h'.count = h.count ∧ h'.lowest = h.lowest ∧ h'.slots = h.slots ∧
    h'.lists = h.lists ∧ h'.live = h.live ∧ h'.bucketCount = h.bucketCount ∧
    h'.absorbed = h.absorbed ∧ h'.inserted = h.inserted ∧ h'.combined = h.combined ∧
    h'.retired = h.retired ∧ h'.stuck = h.stuck

theorem card_heldSet_succ {h h' : CombiningHold α} {e : ℕ} (hno : ¬ h.Held e)
    (hheld : ∀ x, h'.Held x ↔ h.Held x ∨ x = e) : h'.heldSet.card = h.heldSet.card + 1 := by
  have : h'.heldSet = Finset.cons e h.heldSet (fun he => hno (mem_heldSet.mp he)) := by
    ext x
    rw [Finset.mem_cons, mem_heldSet, mem_heldSet, hheld, or_comm]
  rw [this, Finset.card_cons]

theorem allocEntry_spec [Inhabited α] {h : CombiningHold α} (hlt : ∀ e ∈ h.free, e < h.pool)
    (hnd : h.free.Nodup) : Alloc h h.allocEntry.1 h.allocEntry.2 := by
  unfold allocEntry
  cases hf : h.free with
  | cons e rest =>
    rw [hf] at hlt hnd
    obtain ⟨he, hnd'⟩ := List.nodup_cons.mp hnd
    have hep : e < h.pool := hlt e (List.mem_cons_self ..)
    have hheld : ∀ x, ({ h with free := rest } : CombiningHold α).Held x ↔ h.Held x ∨ x = e := by
      intro x
      simp only [Held, hf, List.mem_cons, not_or]
      by_cases hx : x = e
      · subst hx; simp [hep, he]
      · simp [hx]
    exact
      { notHeld := by simp [Held, hf]
        held := hheld
        card := card_heldSet_succ (by simp [Held, hf]) hheld
        freeLt := fun x hx => hlt x (List.mem_cons_of_mem _ hx)
        freeNodup := hnd'
        pool_le := le_refl _
        lt := hep
        keys := fun _ _ => rfl
        buckets := fun _ _ => rfl
        stamps := fun _ _ => rfl
        payloads := fun _ _ => rfl
        stamp := fun _ => rfl
        stampNew := fun hno => absurd hep hno
        rest := ⟨rfl, rfl, rfl, rfl, rfl, rfl, rfl, rfl, rfl, rfl, rfl, rfl⟩ }
  | nil =>
    have hheld : ∀ x, x < h.pool + 1 ∧ x ∉ ([] : List ℕ) ↔ h.Held x ∨ x = h.pool := by
      intro x; simp only [Held, hf, List.not_mem_nil, not_false_eq_true, and_true]; omega
    exact
      { notHeld := by simp [Held]
        held := fun x => hheld x
        card := card_heldSet_succ (e := h.pool) (by simp [Held]) fun x => hheld x
        freeLt := by simp
        freeNodup := by simp
        pool_le := Nat.le_succ _
        lt := Nat.lt_succ_self _
        keys := fun x hx => Function.update_of_ne hx ..
        buckets := fun x hx => Function.update_of_ne hx ..
        stamps := fun x hx => Function.update_of_ne hx ..
        payloads := fun x hx => Function.update_of_ne hx ..
        stamp := fun hlt => absurd hlt (lt_irrefl _)
        stampNew := fun _ => Function.update_self ..
        rest := ⟨rfl, rfl, rfl, rfl, rfl, rfl, rfl, rfl, rfl, rfl, rfl, rfl⟩ }

/-! ## `insert` -/

/-- `insert` folds into the held entry of the item's key, or adds an entry at the
    empty slot its search ended at, when no held entry has that key. -/
theorem insert_cases [Inhabited α] {h : CombiningHold α} (ht : TableInv h) (ops : HoldOps α)
    (item : α) (bucket : ℕ) :
    (∃ e, h.Held e ∧ h.keys e = ops.key item ∧
      h.insert ops item bucket = h.fold ops e item bucket) ∨
    ∃ slot hit, (∀ e, h.Held e → h.keys e ≠ ops.key item) ∧ h.slots slot = none ∧
      Ended (h.mask + 1) (fun p => (h.slots p).all hit)
        ((mix (ops.key item)).toNat &&& h.mask) slot ∧
      h.insert ops item bucket = h.add slot (ops.key item) item bucket := by
  obtain ⟨k, hk⟩ := ht.cap
  obtain ⟨slot, hscan, hend, hcase⟩ :=
    lookup_spec ht.table hk ht.mem_heldSet ht.card_lt (ops.key item)
  rcases hcase with ⟨s, hs, hkey⟩ | ⟨hnone, habs⟩
  · refine Or.inl ⟨s.entry, (ht.mem _).mp ⟨slot, s, hs, rfl⟩, hkey, ?_⟩
    unfold insert capacity; simp only [hscan, hs]
  · refine Or.inr ⟨slot, _, fun e he => habs e ((ht.mem e).mpr he), hnone, hend, ?_⟩
    unfold insert capacity; simp only [hscan, hnone]

/-- Folding does not touch the table. -/
theorem fold_tableInv {h : CombiningHold α} (ht : TableInv h) (ops : HoldOps α) (e : ℕ) (item : α)
    (bucket : ℕ) :
    TableInv (h.fold ops e item bucket).1 ∧
      ∀ x, (h.fold ops e item bucket).1.Held x ↔ h.Held x := by
  unfold fold
  dsimp only
  split_ifs
  · exact ⟨⟨ht.cap, ht.table, ht.mem, ht.keyInj, ht.freeLt, ht.freeNodup, ht.count, ht.load,
      ht.stuck⟩, fun _ => Iff.rfl⟩
  · exact ⟨⟨ht.cap, ht.table, ht.mem, ht.keyInj, ht.freeLt, ht.freeNodup, ht.count, ht.load,
      ht.stuck⟩, fun _ => Iff.rfl⟩

/-- `add` takes a fresh entry, which becomes the only one with its key. -/
theorem add_spec [Inhabited α] {h : CombiningHold α} (ht : TableInv h) {slot : ℕ}
    {hit : Slot → Bool} {key : UInt64} (hnew : ∀ e, h.Held e → h.keys e ≠ key)
    (hslot : h.slots slot = none)
    (hend : Ended (h.mask + 1) (fun p => (h.slots p).all hit) ((mix key).toNat &&& h.mask) slot)
    (item : α) (bucket : ℕ) {h' : CombiningHold α} {e : ℕ} (ha : h.allocEntry = (h', e)) :
    ∃ mask slots, (h.add slot key item bucket).1 =
        { h' with
          mask := mask
          slots := slots
          keys := Function.update h'.keys e key
          buckets := Function.update h'.buckets e bucket
          stamps := Function.update h'.stamps e (h'.stamps e + 1)
          payloads := Function.update h'.payloads e item
          count := h'.count + 1
          live := Function.update h'.live bucket (h'.live bucket + 1)
          lists := Function.update h'.lists bucket (h'.lists bucket ++ [Ref.mk e (h'.stamps e + 1)])
          lowest := min bucket h'.lowest
          inserted := h'.inserted + 1 } ∧
      TableInv (h.add slot key item bucket).1 := by
  have hal : Alloc h h' e := by
    have := allocEntry_spec ht.freeLt ht.freeNodup
    rwa [ha] at this
  obtain ⟨hmask, hcount, -, hslots, -, -, -, -, -, -, -, hstuck⟩ := hal.rest
  obtain ⟨k, hk⟩ := ht.cap
  have hnoIn : ¬ InTable h.slots e := fun hin => hal.notHeld ((ht.mem e).mp hin)
  -- the table with the new entry in it
  have hok : TableOk (Function.update h'.keys e key) h.mask
      (Function.update h.slots slot (some ⟨e, tagOf (mix key)⟩)) := by
    have h1 : TableOk (Function.update h'.keys e key) h.mask h.slots := by
      refine ht.table.congr_keys fun x hx => ?_
      have hxe : x ≠ e := by rintro rfl; exact hnoIn hx
      rw [Function.update_of_ne hxe, hal.keys x hxe]
    have h2 := h1.put (e := e) (by rw [Function.update_self]; exact hend) hnoIn
    rwa [Function.update_self] at h2
  have hin : ∀ x, InTable (Function.update h.slots slot (some ⟨e, tagOf (mix key)⟩)) x ↔
      h'.Held x := by
    intro x; rw [inTable_update hslot, hal.held x, ht.mem x, or_comm]
  have hcard : h'.heldSet.card = h.count + 1 := by rw [hal.card, ht.count]
  have hinj : ∀ x y, h'.Held x → h'.Held y →
      Function.update h'.keys e key x = Function.update h'.keys e key y → x = y := by
    intro x y hx hy hxy
    by_cases hxe : x = e <;> by_cases hye : y = e
    · rw [hxe, hye]
    · subst hxe
      rw [Function.update_self, Function.update_of_ne hye, hal.keys y hye] at hxy
      exact absurd hxy.symm (hnew y (((hal.held y).mp hy).resolve_right hye))
    · subst hye
      rw [Function.update_self, Function.update_of_ne hxe, hal.keys x hxe] at hxy
      exact absurd hxy (hnew x (((hal.held x).mp hx).resolve_right hxe))
    · rw [Function.update_of_ne hxe, Function.update_of_ne hye, hal.keys x hxe,
        hal.keys y hye] at hxy
      exact ht.keyInj x y (((hal.held x).mp hx).resolve_right hxe)
        (((hal.held y).mp hy).resolve_right hye) hxy
  unfold add
  rw [ha]
  dsimp only
  have hload := ht.load
  split_ifs with hfull
  · -- the table doubles
    rw [hcount, hmask] at hfull
    have hpow : (h'.mask + 1) * 2 = 2 ^ (k + 1) := by rw [hmask, hk, pow_succ]
    rw [hpow]
    have hpow' : 2 ^ (k + 1) = 2 * (h.mask + 1) := by rw [← hpow, hmask]; omega
    generalize hh : ({ h' with
        keys := Function.update h'.keys e key
        buckets := Function.update h'.buckets e bucket
        stamps := Function.update h'.stamps e (h'.stamps e + 1)
        payloads := Function.update h'.payloads e item
        slots := Function.update h'.slots slot (some (Slot.mk e (tagOf (mix key))))
        count := h'.count + 1
        live := Function.update h'.live bucket (h'.live bucket + 1)
        lists := Function.update h'.lists bucket (h'.lists bucket ++ [Ref.mk e (h'.stamps e + 1)])
        lowest := min bucket h'.lowest } : CombiningHold α) = h2
    have hheldSet : h2.heldSet = h'.heldSet := by subst hh; rfl
    obtain ⟨T, hT, hokT, hinT⟩ := rebuild_spec (h := h2) (k := k + 1)
      (by subst hh; rw [hslots, hmask]; exact hok)
      (by
        intro x hx
        rw [hheldSet, mem_heldSet]
        subst hh
        rw [hslots] at hx
        exact (hin x).mp hx)
      (by rw [hheldSet, hcard, hpow']; omega)
    rw [hT]
    subst hh
    refine ⟨_, _, rfl, ?_⟩
    exact
      { cap := ⟨k + 1, by have := Nat.one_le_two_pow (n := k + 1); simp only; omega⟩
        table := hokT
        mem := fun x => by rw [hinT x, hslots]; exact hin x
        keyInj := hinj
        freeLt := hal.freeLt
        freeNodup := hal.freeNodup
        count := by simp only [hcount]; exact hcard.symm
        load := by simp only [hcount]; omega
        stuck := by simp only [hstuck]; exact ht.stuck }
  · refine ⟨_, _, rfl, ?_⟩
    rw [hcount, hmask] at hfull
    exact
      { cap := ⟨k, by simp only [hmask]; exact hk⟩
        table := by simp only [hmask, hslots]; exact hok
        mem := fun x => by simp only [hslots]; exact hin x
        keyInj := hinj
        freeLt := hal.freeLt
        freeNodup := hal.freeNodup
        count := by simp only [hcount]; exact hcard.symm
        load := by simp only [hcount, hmask]; omega
        stuck := by simp only [hstuck]; exact ht.stuck }

/-! ## The number of buckets -/

@[simp] theorem rebuild_bucketCount (h : CombiningHold α) (capacity : ℕ) :
    (h.rebuild capacity).bucketCount = h.bucketCount := by
  unfold rebuild
  split <;> rfl

@[simp] theorem allocEntry_bucketCount [Inhabited α] (h : CombiningHold α) :
    h.allocEntry.1.bucketCount = h.bucketCount := by
  unfold allocEntry
  split <;> rfl

@[simp] theorem insert_bucketCount [Inhabited α] (ops : HoldOps α) (h : CombiningHold α) (item : α)
    (bucket : ℕ) : (h.insert ops item bucket).1.bucketCount = h.bucketCount := by
  unfold insert
  dsimp only
  split
  · rfl
  · split
    · unfold fold; dsimp only; split_ifs <;> rfl
    · unfold add; dsimp only; split_ifs <;> simp

/-! ## `erase` -/

/-- `erase` of a held entry ends, bumps its stamp and frees it. -/
theorem erase_spec {h : CombiningHold α} (ht : TableInv h) {e : ℕ} (he : h.Held e) :
    (∃ slots, h.erase e =
        { h with
          slots := slots
          stamps := Function.update h.stamps e (h.stamps e + 1)
          free := e :: h.free
          count := h.count - 1 }) ∧
      TableInv (h.erase e) ∧ ∀ x, (h.erase e).Held x ↔ h.Held x ∧ x ≠ e := by
  obtain ⟨k, hk⟩ := ht.cap
  obtain ⟨slot, T, hole, hscan, hclose, hok, hin⟩ :=
    eraseSlot_spec ht.table hk ht.mem_heldSet ht.card_lt ((ht.mem e).mpr he)
  have her : h.erase e =
      { h with
        slots := Function.update T hole none
        stamps := Function.update h.stamps e (h.stamps e + 1)
        free := e :: h.free
        count := h.count - 1 } := by
    unfold erase capacity; simp only [hscan, hclose]
  have hheld : ∀ x, (h.erase e).Held x ↔ h.Held x ∧ x ≠ e := by
    intro x
    rw [her]
    simp only [Held, List.mem_cons, not_or]
    tauto
  have hcard : h.heldSet.card = (h.erase e).heldSet.card + 1 := by
    apply card_heldSet_succ (e := e)
    · rw [hheld]; simp
    · intro x
      rw [hheld x]
      by_cases hx : x = e
      · subst hx; simp [he]
      · simp [hx]
  refine ⟨⟨_, her⟩, ?_, hheld⟩
  have hload := ht.load
  have hcount := ht.count
  rw [her] at hheld hcard ⊢
  exact
    { cap := ⟨k, hk⟩
      table := hok
      mem := fun x => by rw [hin x, ht.mem x]; exact (hheld x).symm
      keyInj := fun x y hx hy => ht.keyInj x y ((hheld x).mp hx).1 ((hheld y).mp hy).1
      freeLt := fun x hx => by
        rcases List.mem_cons.mp hx with rfl | hx
        · exact he.1
        · exact ht.freeLt x hx
      freeNodup := List.nodup_cons.mpr ⟨he.2, ht.freeNodup⟩
      count := by simp only; omega
      load := by simp only; omega
      stuck := ht.stuck }

end CombiningHold

end Htram
