import Htram.Common.KeyedHold
import Htram.Hold.ListInv
import Htram.Hold.TableInv

/-!
# `CombiningHold` refines a keyed priority hold

`Refines h a` relates the hold of the source to the abstract `KeyedHold`: the live
references of bucket `b`'s list are the keys of `a.queue b`, in order, and each held
entry carries its key's item and bucket.

* `insert_refines`, `release_refines`: one call of `insert` or `release` is the
  abstract operation, provided that no reference still in the lists carries the
  stamp that its entry takes in the call (`InsertSafe`, `ScanSafe`).
-/

namespace Htram

namespace CombiningHold

variable {α : Type*}

/-- The representation invariant of a hold. -/
structure HoldInv (h : CombiningHold α) : Prop where
  table : TableInv h
  list : ListInv h.Held h.stamps h.buckets h.lists h.live
  refLt : ∀ b, ∀ r ∈ h.lists b, r.entry < h.pool
  bucketLt : ∀ e, h.Held e → h.buckets e < h.bucketCount
  lowest : ∀ b < h.lowest, h.live b = 0
  lowestLe : h.lowest ≤ h.bucketCount

/-- No reference carries the stamp its entry takes next. -/
def Fresh (h : CombiningHold α) : Prop :=
  ∀ b, ∀ r ∈ h.lists b, r.stamp ≠ h.stamps r.entry + 1

/-- No reference to a held entry carries the stamp the entry takes next. -/
def FreshHeld (h : CombiningHold α) : Prop :=
  ∀ b, ∀ r ∈ h.lists b, h.Held r.entry → r.stamp ≠ h.stamps r.entry + 1

/-- No reference is one or two stamps ahead of its entry. -/
def Roomy (h : CombiningHold α) : Prop :=
  ∀ b, ∀ r ∈ h.lists b, r.stamp ≠ h.stamps r.entry + 1 ∧ r.stamp ≠ h.stamps r.entry + 2

/-- No reference to `e` carries the stamp the entry takes next. -/
def Unclaimed (h : CombiningHold α) (e : ℕ) : Prop :=
  ∀ b, ∀ r ∈ h.lists b, r.entry = e → r.stamp ≠ h.stamps e + 1

/-- No reference is about to be taken for current in `insert`: not to the held entry of the
    key, if the item moves it, and not to the entry that is reused for a new key. -/
structure InsertSafe (ops : HoldOps α) (h : CombiningHold α) (item : α) (bucket : ℕ) : Prop where
  move : ∀ e, h.Held e → h.keys e = ops.key item →
    (ops.combine (h.payloads e) item).2.2 = true → bucket ≠ h.buckets e → h.Unclaimed e
  reuse : (∀ e, h.Held e → h.keys e ≠ ops.key item) → ∀ e, h.free.head? = some e → h.Unclaimed e

theorem Fresh.insertSafe {h : CombiningHold α} (hf : h.Fresh) (ops : HoldOps α) (item : α)
    (bucket : ℕ) : h.InsertSafe ops item bucket := by
  have hall : ∀ e, h.Unclaimed e := fun e b r hb he => by
    rw [← he]
    exact hf b r hb
  exact ⟨fun e _ _ _ _ => hall e, fun _ e _ => hall e⟩

theorem Roomy.fresh {h : CombiningHold α} (hr : h.Roomy) : h.Fresh := fun b r hb => (hr b r hb).1

/-- The refinement relation. -/
structure Refines (h : CombiningHold α) (a : KeyedHold UInt64 α) : Prop where
  inv : HoldInv h
  queue : ∀ b, a.queue b = (liveRefs h.stamps (h.lists b)).map fun r => h.keys r.entry
  item : ∀ e, h.Held e → a.item (h.keys e) = some (h.payloads e, h.buckets e)

/-- A key held abstractly is the key of a held entry. -/
theorem Refines.held_of_item {h : CombiningHold α} {a : KeyedHold UInt64 α} (hr : Refines h a)
    {k : UInt64} {x : α} {b : ℕ} (hk : a.item k = some (x, b)) :
    ∃ e, h.Held e ∧ h.keys e = k ∧ h.payloads e = x ∧ h.buckets e = b := by
  have hmem := a.mem_of_item hk
  rw [hr.queue b, List.mem_map] at hmem
  obtain ⟨r, hrl, rfl⟩ := hmem
  have hheld := (hr.inv.list.ofRef b r hrl).1
  have := hr.item _ hheld
  rw [hk] at this
  cases this
  exact ⟨r.entry, hheld, rfl, rfl, rfl⟩

theorem map_erase_of_injOn {β γ : Type*} [DecidableEq β] [DecidableEq γ] {f : β → γ} {a : β} :
    ∀ {l : List β}, (∀ x ∈ l, f x = f a → x = a) → (l.erase a).map f = (l.map f).erase (f a) := by
  intro l
  induction l with
  | nil => intro _; rfl
  | cons x l ih =>
    intro h
    have ih := ih fun y hy => h y (List.mem_cons_of_mem _ hy)
    by_cases hx : x = a
    · subst hx; simp
    · have hfx : f x ≠ f a := fun hf => hx (h x (List.mem_cons_self ..) hf)
      rw [List.erase_cons_tail (by simpa using hx), List.map_cons, List.map_cons,
        List.erase_cons_tail (by simpa using hfx), ih]

/-- The live reference to a held entry is the only one with its key. -/
theorem HoldInv.map_erase {h : CombiningHold α} (hi : HoldInv h) {e : ℕ} (he : h.Held e) (b : ℕ) :
    ((liveRefs h.stamps (h.lists b)).erase (Ref.mk e (h.stamps e))).map (fun r => h.keys r.entry) =
      ((liveRefs h.stamps (h.lists b)).map fun r => h.keys r.entry).erase (h.keys e) := by
  apply map_erase_of_injOn (f := fun r : Ref => h.keys r.entry) (a := Ref.mk e (h.stamps e))
  intro r hr hk
  exact liveRef_eq hr (hi.table.keyInj _ _ (hi.list.ofRef b r hr).1 he hk)

/-! ## `init` -/

theorem init_refines [Inhabited α] (buckets : ℕ) :
    Refines (init buckets : CombiningHold α) KeyedHold.empty := by
  have htab := init_tableInv (α := α) buckets
  obtain ⟨T, hT, -, -⟩ := init_eq (α := α) buckets
  rw [hT] at htab ⊢
  have hno : ∀ e, ¬ CombiningHold.Held
      { mask := 63, count := 0, lowest := buckets, slots := T, keys := fun _ => 0
        buckets := fun _ => 0, stamps := fun _ => 0, payloads := fun _ => (default : α), pool := 0
        free := [], lists := fun _ => [], live := fun _ => 0, bucketCount := buckets
        absorbed := 0, inserted := 0, combined := [], retired := [], stuck := false } e := by
    simp [CombiningHold.Held]
  refine ⟨⟨htab, ?_, by simp, fun e he => absurd he (hno e), by simp, le_refl _⟩, ?_, ?_⟩
  · exact (ListInv.empty _ fun _ => 0).congr (fun e => iff_of_false (hno e) id) fun _ _ => rfl
  · intro b; simp [KeyedHold.empty, liveRefs]
  · intro e he; exact absurd he (hno e)

/-! ## `insert` -/

/-- The abstract result of `insert` as an `InsertResult`. -/
def resultOf (old : Option ℕ) (new : ℕ) : InsertResult :=
  ⟨old.isSome, (old.map Int.ofNat).getD (-1), new⟩

theorem fold_refines {h : CombiningHold α} {a : KeyedHold UInt64 α} (hr : Refines h a)
    (ops : HoldOps α) {e : ℕ} (he : h.Held e) {item : α} (hkey : h.keys e = ops.key item)
    {bucket : ℕ} (hb : bucket < h.bucketCount) (hf : h.InsertSafe ops item bucket) :
    let c := h.fold ops e item bucket
    let i := a.insert ops.combine (ops.key item) item bucket
    Refines c.1 i.1 ∧ c.2 = resultOf i.2.1 i.2.2.1 ∧
      c.1.combined = h.combined ++ a.folded (ops.key item) item ∧
      c.1.retired = h.retired ++ i.2.2.2 := by
  have hitem := hr.item e he
  rw [hkey] at hitem
  dsimp only
  rw [KeyedHold.insert_of_some _ _ hitem]
  have htab := (fold_tableInv hr.inv.table ops e item bucket).1
  unfold fold at htab ⊢
  dsimp only at htab ⊢
  by_cases hm : (ops.combine (h.payloads e) item).2.2 = true ∧ bucket ≠ h.buckets e
  · simp only [if_pos hm] at htab ⊢
    have hfresh : h.Unclaimed e := hf.move e he hkey hm.1 hm.2
    obtain ⟨hbump, hrefs⟩ := hr.inv.list.bump he hfresh
    obtain ⟨henter, hlast⟩ := hbump.enter (e := e) (fun h => h.2 rfl) bucket
    simp only [Function.update_self] at henter hlast
    refine ⟨⟨⟨htab, ?_, ?_, ?_, ?_, ?_⟩, ?_, ?_⟩, ?_, ?_, trivial⟩
    · apply henter.congr _ fun _ _ => rfl
      intro x
      by_cases hx : x = e
      · subst hx; exact iff_of_true he (Or.inr rfl)
      · simp only [hx, or_false, ne_eq, not_false_eq_true, and_true]; exact Iff.rfl
    · intro c r hc
      by_cases hcb : c = bucket
      · subst hcb
        simp only [Function.update_self, List.mem_append, List.mem_singleton] at hc
        rcases hc with hc | rfl
        · exact hr.inv.refLt c r hc
        · exact he.1
      · simp only [Function.update_of_ne hcb] at hc; exact hr.inv.refLt c r hc
    · intro x hx
      by_cases hxe : x = e
      · subst hxe; simp only [Function.update_self]; exact hb
      · simp only [Function.update_of_ne hxe]; exact hr.inv.bucketLt x hx
    · intro c hc
      simp only at hc ⊢
      have hlow : h.live c = 0 := hr.inv.lowest c (by omega)
      have hcb : c ≠ bucket := by omega
      rw [Function.update_of_ne hcb]
      by_cases hco : c = h.buckets e
      · have := hr.inv.list.hasRef e he
        rw [← hco, hr.inv.list.liveRefs_eq_nil hlow] at this
        cases this
      · rw [Function.update_of_ne hco]; exact hlow
    · have := hr.inv.lowestLe; simp only; omega
    · intro c
      simp only [KeyedHold.move, KeyedHold.add, KeyedHold.erase]
      by_cases hcb : c = bucket
      · subst hcb
        rw [Function.update_self, Function.update_self, hlast, hrefs, List.map_append,
          hr.inv.map_erase he, ← hr.queue, hkey]
        simp [hkey]
      · rw [Function.update_of_ne hcb, Function.update_of_ne hcb, hrefs, hr.inv.map_erase he,
          ← hr.queue, hkey]
    · intro x hx
      simp only [KeyedHold.move, KeyedHold.add, KeyedHold.erase]
      by_cases hxe : x = e
      · subst hxe; simp [hkey]
      · have hk : h.keys x ≠ ops.key item := fun hk =>
          hxe (hr.inv.table.keyInj x e hx he (hk.trans hkey.symm))
        simp only [Function.update_of_ne hxe, Function.update_of_ne hk]
        exact hr.item x hx
    · simp [resultOf]
    · simp [KeyedHold.folded, hitem]
  · simp only [if_neg hm] at htab ⊢
    refine ⟨⟨⟨htab, ?_, hr.inv.refLt, hr.inv.bucketLt, hr.inv.lowest, hr.inv.lowestLe⟩,
      hr.queue, ?_⟩, by simp [resultOf], by simp [KeyedHold.folded, hitem], trivial⟩
    · exact hr.inv.list
    · intro x hx
      simp only [KeyedHold.replace]
      by_cases hxe : x = e
      · subst hxe; simp [hkey, hitem]
      · have hk : h.keys x ≠ ops.key item := fun hk =>
          hxe (hr.inv.table.keyInj x e hx he (hk.trans hkey.symm))
        simp only [Function.update_of_ne hxe, Function.update_of_ne hk]
        exact hr.item x hx

/-- An entry of the pool that is allocated was the head of the free list. -/
theorem allocEntry_head [Inhabited α] {h h' : CombiningHold α} {e : ℕ}
    (ha : h.allocEntry = (h', e)) (he : e < h.pool) : h.free.head? = some e := by
  unfold allocEntry at ha
  cases hf : h.free with
  | nil =>
    rw [hf] at ha
    obtain ⟨-, rfl⟩ := Prod.mk.inj ha
    exact absurd he (lt_irrefl _)
  | cons x rest =>
    rw [hf] at ha
    obtain ⟨-, rfl⟩ := Prod.mk.inj ha
    rfl

theorem add_refines [Inhabited α] {h : CombiningHold α} {a : KeyedHold UInt64 α}
    (hr : Refines h a) (hf : ∀ e, h.free.head? = some e → h.Unclaimed e) {slot : ℕ}
    {hit : Slot → Bool} {key : UInt64}
    (hnew : ∀ e, h.Held e → h.keys e ≠ key) (hslot : h.slots slot = none)
    (hend : ProbeTable.Ended (h.mask + 1) (fun p => (h.slots p).all hit)
      ((mix key).toNat &&& h.mask) slot)
    (item : α) {bucket : ℕ} (hb : bucket < h.bucketCount) (hkey : a.item key = none) :
    Refines (h.add slot key item bucket).1 (a.add key item bucket hkey) ∧
      (h.add slot key item bucket).1.combined = h.combined ∧
      (h.add slot key item bucket).1.retired = h.retired := by
  obtain ⟨h', e, ha⟩ : ∃ h' e, h.allocEntry = (h', e) := ⟨_, _, rfl⟩
  have hal : Alloc h h' e := by
    have := allocEntry_spec hr.inv.table.freeLt hr.inv.table.freeNodup
    rwa [ha] at this
  obtain ⟨-, -, hlowest, -, hlists, hlive, hcount, -, -, hcomb, hret, -⟩ := hal.rest
  obtain ⟨mask, slots, heq, htab⟩ := add_spec hr.inv.table hnew hslot hend item bucket ha
  rw [heq] at htab ⊢
  have hstamps : Function.update h'.stamps e (h'.stamps e + 1) =
      Function.update h.stamps e (h'.stamps e + 1) := by
    funext x
    by_cases hx : x = e
    · subst hx; simp
    · rw [Function.update_of_ne hx, Function.update_of_ne hx, hal.stamps x hx]
  have hfresh : ∀ b, ∀ r ∈ h.lists b, r.entry = e → r.stamp ≠ h'.stamps e + 1 := by
    intro b r hbr hre
    have hlt : e < h.pool := hre ▸ hr.inv.refLt b r hbr
    rw [hal.stamp hlt]
    exact hf e (allocEntry_head ha hlt) b r hbr hre
  obtain ⟨hbump, hrefs⟩ := hr.inv.list.bumpFree hal.notHeld hfresh
  obtain ⟨henter, hlast⟩ := hbump.enter hal.notHeld bucket
  simp only [Function.update_self] at henter hlast
  have hne : ∀ b, ∀ r ∈ liveRefs h.stamps (h.lists b), r.entry ≠ e :=
    fun b r hr' hre => hal.notHeld (hre ▸ (hr.inv.list.ofRef b r hr').1)
  have hmap : ∀ b, (liveRefs h.stamps (h.lists b)).map
      (fun r => Function.update h'.keys e key r.entry) =
        (liveRefs h.stamps (h.lists b)).map fun r => h.keys r.entry := by
    intro b
    apply List.map_congr_left
    intro r hr'
    rw [Function.update_of_ne (hne b r hr'), hal.keys _ (hne b r hr')]
  refine ⟨⟨⟨htab, ?_, ?_, ?_, ?_, ?_⟩, ?_, ?_⟩, hcomb, hret⟩
  · simp only [hstamps, hlists, hlive]
    apply (henter.congr (fun x => hal.held x))
    intro x _
    by_cases hx : x = e
    · subst hx; simp
    · rw [Function.update_of_ne hx, Function.update_of_ne hx, hal.buckets x hx]
  · intro c r hc
    simp only [hlists] at hc ⊢
    by_cases hcb : c = bucket
    · subst hcb
      rw [Function.update_self, List.mem_append, List.mem_singleton] at hc
      rcases hc with hc | rfl
      · exact lt_of_lt_of_le (hr.inv.refLt c r hc) hal.pool_le
      · exact hal.lt
    · rw [Function.update_of_ne hcb] at hc
      exact lt_of_lt_of_le (hr.inv.refLt c r hc) hal.pool_le
  · intro x hx
    simp only [hcount]
    by_cases hxe : x = e
    · subst hxe; rw [Function.update_self]; exact hb
    · rw [Function.update_of_ne hxe, hal.buckets x hxe]
      exact hr.inv.bucketLt x (((hal.held x).mp hx).resolve_right hxe)
  · intro c hc
    simp only [hlowest] at hc
    simp only [hlive]
    rw [Function.update_of_ne (by omega)]
    exact hr.inv.lowest c (by omega)
  · have := hr.inv.lowestLe; simp only [hlowest, hcount]; omega
  · intro c
    simp only [KeyedHold.add, hstamps, hlists]
    by_cases hcb : c = bucket
    · subst hcb
      rw [Function.update_self, Function.update_self, hlast, hrefs, List.map_append, hmap,
        ← hr.queue]
      simp
    · rw [Function.update_of_ne hcb, Function.update_of_ne hcb, hrefs, hmap, ← hr.queue]
  · intro x hx
    simp only [KeyedHold.add]
    by_cases hxe : x = e
    · subst hxe; simp
    · have hx' := ((hal.held x).mp hx).resolve_right hxe
      simp only [Function.update_of_ne hxe, hal.keys x hxe, hal.buckets x hxe, hal.payloads x hxe,
        Function.update_of_ne (hnew x hx')]
      exact hr.item x hx'

theorem add_result [Inhabited α] (h : CombiningHold α) (slot : ℕ) (key : UInt64) (item : α)
    (bucket : ℕ) : (h.add slot key item bucket).2 = resultOf none bucket := rfl

/-- One call of `insert` is the abstract `insert`: the same result, `combine` called
    once if the key is held, and `on_absorb` for exactly the item that is retired. -/
theorem insert_refines [Inhabited α] {h : CombiningHold α} {a : KeyedHold UInt64 α}
    (hr : Refines h a) (ops : HoldOps α) (item : α) {bucket : ℕ} (hb : bucket < h.bucketCount)
    (hf : h.InsertSafe ops item bucket) :
    let c := h.insert ops item bucket
    let i := a.insert ops.combine (ops.key item) item bucket
    Refines c.1 i.1 ∧ c.2 = resultOf i.2.1 i.2.2.1 ∧
      c.1.combined = h.combined ++ a.folded (ops.key item) item ∧
      c.1.retired = h.retired ++ i.2.2.2 := by
  rcases insert_cases hr.inv.table ops item bucket with
    ⟨e, he, hkey, hins⟩ | ⟨slot, hit, hnew, hslot, hend, hins⟩
  · rw [hins]; exact fold_refines hr ops he hkey hb hf
  · have hnone : a.item (ops.key item) = none := by
      cases hi : a.item (ops.key item) with
      | none => rfl
      | some p =>
        obtain ⟨e, he, hk, -⟩ := hr.held_of_item hi
        exact absurd hk (hnew e he)
    obtain ⟨h1, h2, h3⟩ := add_refines hr (hf.reuse hnew) hnew hslot hend item hb hnone
    dsimp only
    rw [hins, KeyedHold.insert_of_none _ _ hnone]
    exact ⟨h1, add_result .., by simp [h2, KeyedHold.folded, hnone], by simp [h3]⟩

end CombiningHold

end Htram
