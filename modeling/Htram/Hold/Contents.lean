import Htram.Hold.TableInv

/-!
# What a hold contains

What is true of every item inserted and its key, and of the survivor of two such items
with one key, is true of every item that a hold gives out. This does not depend on the
stamps.

* `CombiningHold.insert_only`, `CombiningHold.release_only`.
-/

namespace Htram

open ProbeTable

namespace CombiningHold

variable {α : Type*} {P : UInt64 → α → Prop}

/-- The keys and items of the entries that are in the table or in a list satisfy `P`. -/
structure Only (P : UInt64 → α → Prop) (h : CombiningHold α) : Prop where
  slots : ∀ p s, h.slots p = some s → P (h.keys s.entry) (h.payloads s.entry)
  lists : ∀ b, ∀ r ∈ h.lists b, P (h.keys r.entry) (h.payloads r.entry)

theorem Only.congr {h h' : CombiningHold α} (ho : h.Only P) (hk : h'.keys = h.keys)
    (hp : h'.payloads = h.payloads)
    (hs : ∀ p s, h'.slots p = some s → ∃ q t, h.slots q = some t ∧ t.entry = s.entry)
    (hl : ∀ b, ∀ r ∈ h'.lists b, r ∈ h.lists b) : h'.Only P := by
  refine ⟨fun p s hps => ?_, fun b r hr => ?_⟩
  · obtain ⟨q, t, hq, ht⟩ := hs p s hps
    rw [hk, hp, ← ht]
    exact ho.slots q t hq
  · rw [hk, hp]
    exact ho.lists b r (hl b r hr)

/-! ## The table -/

theorem reinsertAll_entries {keys : ℕ → UInt64} {mask : ℕ} {old : ℕ → Option Slot} :
    ∀ (is : List ℕ) (T : ℕ → Option Slot) {T' : ℕ → Option Slot},
      reinsertAll keys mask old is T = some T' → ∀ p s, T' p = some s →
        (∃ q t, old q = some t ∧ t.entry = s.entry) ∨ ∃ q t, T q = some t ∧ t.entry = s.entry := by
  intro is
  induction is with
  | nil =>
    intro T T' h p s hs
    cases h
    exact Or.inr ⟨p, s, hs, rfl⟩
  | cons i is ih =>
    intro T T' h p s hs
    rw [reinsertAll] at h
    cases hold : old i with
    | none =>
      rw [hold] at h
      exact ih T h p s hs
    | some t =>
      rw [hold] at h
      dsimp only at h
      cases hin : reinsert keys mask T t with
      | none => rw [hin] at h; cases h
      | some T₁ =>
        rw [hin] at h
        unfold reinsert at hin
        obtain ⟨slot, -, rfl⟩ := Option.map_eq_some_iff.mp hin
        rcases ih _ h p s hs with hfrom | ⟨q, t', hq, ht'⟩
        · exact Or.inl hfrom
        · by_cases hqs : q = slot
          · subst hqs
            rw [Function.update_self] at hq
            cases hq
            exact Or.inl ⟨i, t, hold, ht'⟩
          · rw [Function.update_of_ne hqs] at hq
            exact Or.inr ⟨q, t', hq, ht'⟩

theorem Only.rebuild {h : CombiningHold α} (ho : h.Only P) (capacity : ℕ) :
    (h.rebuild capacity).Only P := by
  unfold CombiningHold.rebuild
  cases hall : reinsertAll h.keys (capacity - 1) h.slots (List.range h.capacity)
      fun _ => none with
  | none => exact ⟨ho.slots, ho.lists⟩
  | some T =>
    refine ho.congr rfl rfl (fun p s hps => ?_) fun _ _ hr => hr
    rcases reinsertAll_entries _ _ hall p s hps with hfrom | ⟨q, t, hq, -⟩
    · exact hfrom
    · cases hq

theorem init_only [Inhabited α] (buckets : ℕ) : (init buckets : CombiningHold α).Only P := by
  refine Only.rebuild ⟨fun p s h => ?_, fun b r h => ?_⟩ 64
  · cases h
  · cases h

theorem Only.erase {h : CombiningHold α} (ho : h.Only P) (e : ℕ) : (h.erase e).Only P := by
  unfold CombiningHold.erase
  split
  · exact ⟨ho.slots, ho.lists⟩
  · split
    · exact ⟨ho.slots, ho.lists⟩
    · rename_i slot _ slots hole hclose
      refine ho.congr rfl rfl (fun p s hps => ?_) fun _ _ hr => hr
      have hne : p ≠ hole := by
        rintro rfl
        simp at hps
      simp only [Function.update_of_ne hne] at hps
      obtain ⟨q, hq⟩ := closeHole_entries _ _ _ _ hclose p s hps
      exact ⟨q, s, hq, rfl⟩

/-! ## `insert` -/

theorem Only.fold {h : CombiningHold α} (ho : h.Only P) {ops : HoldOps α}
    (hcombine : ∀ κ y x, P κ y → P κ x → P κ (ops.combine y x).1) {slot : ℕ} {s : Slot}
    (hs : h.slots slot = some s) {item : α} (hx : P (h.keys s.entry) item) (bucket : ℕ) :
    (h.fold ops s.entry item bucket).1.Only P := by
  have hnew : ∀ e, (P (h.keys e) (h.payloads e) ∨ e = s.entry) →
      P (h.keys e) (Function.update h.payloads s.entry
        (ops.combine (h.payloads s.entry) item).1 e) := by
    rintro e he
    by_cases hes : e = s.entry
    · subst hes
      rw [Function.update_self]
      exact hcombine _ _ _ (ho.slots slot s hs) hx
    · rw [Function.update_of_ne hes]
      exact he.resolve_right hes
  unfold CombiningHold.fold
  dsimp only
  split_ifs
  · refine ⟨fun p t ht => hnew _ (Or.inl (ho.slots p t ht)), fun b r hr => hnew _ ?_⟩
    by_cases hb : b = bucket
    · subst hb
      simp only [Function.update_self, List.mem_append, List.mem_singleton] at hr
      rcases hr with hr | rfl
      · exact Or.inl (ho.lists b r hr)
      · exact Or.inr rfl
    · simp only [Function.update_of_ne hb] at hr
      exact Or.inl (ho.lists b r hr)
  · exact ⟨fun p t ht => hnew _ (Or.inl (ho.slots p t ht)),
      fun b r hr => hnew _ (Or.inl (ho.lists b r hr))⟩

theorem allocEntry_only [Inhabited α] (h : CombiningHold α) {key : UInt64} {item : α}
    (hx : P key item) :
    h.allocEntry.1.slots = h.slots ∧ h.allocEntry.1.lists = h.lists ∧
      ∀ e, P (h.keys e) (h.payloads e) →
        P (Function.update h.allocEntry.1.keys h.allocEntry.2 key e)
          (Function.update h.allocEntry.1.payloads h.allocEntry.2 item e) := by
  have hupdate : ∀ i e : ℕ, P (h.keys e) (h.payloads e) →
      P (Function.update h.keys i key e) (Function.update h.payloads i item e) := by
    intro i e he
    by_cases hei : e = i
    · subst hei
      rw [Function.update_self, Function.update_self]
      exact hx
    · rwa [Function.update_of_ne hei, Function.update_of_ne hei]
  unfold CombiningHold.allocEntry
  cases h.free with
  | cons i rest => exact ⟨rfl, rfl, fun e he => hupdate _ _ he⟩
  | nil =>
    refine ⟨rfl, rfl, fun e he => ?_⟩
    dsimp only
    rw [Function.update_idem, Function.update_idem]
    exact hupdate _ _ he

theorem Only.add [Inhabited α] {h : CombiningHold α} (ho : h.Only P) (slot : ℕ) {key : UInt64}
    {item : α} (hx : P key item) (bucket : ℕ) : (h.add slot key item bucket).1.Only P := by
  obtain ⟨hslots, hlists, hold⟩ := allocEntry_only h hx
  have hnew : P (Function.update h.allocEntry.1.keys h.allocEntry.2 key h.allocEntry.2)
      (Function.update h.allocEntry.1.payloads h.allocEntry.2 item h.allocEntry.2) := by
    rwa [Function.update_self, Function.update_self]
  unfold CombiningHold.add
  generalize h.allocEntry = c at *
  obtain ⟨h₁, e⟩ := c
  dsimp only at hslots hlists hold hnew ⊢
  have hmid : ({ h₁ with
      keys := Function.update h₁.keys e key
      buckets := Function.update h₁.buckets e bucket
      stamps := Function.update h₁.stamps e (h₁.stamps e + 1)
      payloads := Function.update h₁.payloads e item
      slots := Function.update h₁.slots slot (some (Slot.mk e (tagOf (mix key))))
      count := h₁.count + 1
      live := Function.update h₁.live bucket (h₁.live bucket + 1)
      lists := Function.update h₁.lists bucket
        (h₁.lists bucket ++ [Ref.mk e (h₁.stamps e + 1)])
      lowest := min bucket h₁.lowest } : CombiningHold α).Only P := by
    refine ⟨fun p t ht => ?_, fun b r hr => ?_⟩
    · dsimp only at ht ⊢
      by_cases hps : p = slot
      · subst hps
        rw [Function.update_self] at ht
        cases ht
        exact hnew
      · rw [Function.update_of_ne hps, hslots] at ht
        exact hold _ (ho.slots p t ht)
    · dsimp only at hr ⊢
      by_cases hb : b = bucket
      · subst hb
        rw [Function.update_self, hlists] at hr
        rcases List.mem_append.mp hr with hr | hr
        · exact hold _ (ho.lists b r hr)
        · rw [List.mem_singleton.mp hr]
          exact hnew
      · rw [Function.update_of_ne hb, hlists] at hr
        exact hold _ (ho.lists b r hr)
  split_ifs
  · have hr := hmid.rebuild ((h₁.mask + 1) * 2)
    exact ⟨hr.slots, hr.lists⟩
  · exact ⟨hmid.slots, hmid.lists⟩

theorem insert_only [Inhabited α] {ops : HoldOps α}
    (hcombine : ∀ κ y x, P κ y → P κ x → P κ (ops.combine y x).1) {h : CombiningHold α}
    (ho : h.Only P) {item : α} (hx : P (ops.key item) item) (bucket : ℕ) :
    (h.insert ops item bucket).1.Only P := by
  unfold CombiningHold.insert
  dsimp only
  cases hscan : scan (adv h.mask) (fun p => (h.slots p).all fun s =>
      s.tag = tagOf (mix (ops.key item)) ∧ h.keys s.entry = ops.key item)
      h.capacity ((mix (ops.key item)).toNat &&& h.mask) with
  | none => exact ⟨ho.slots, ho.lists⟩
  | some slot =>
    dsimp only
    have hend := scan_some hscan
    cases hs : h.slots slot with
    | none => exact ho.add _ hx bucket
    | some s =>
      rw [hs] at hend
      have hkey : h.keys s.entry = ops.key item := by simp_all
      exact ho.fold hcombine hs (hkey ▸ hx) bucket

/-! ## `release` -/

theorem releaseList_only (b : ℕ) :
    ∀ (rs : List Ref) (limit : ℕ) (h : CombiningHold α), h.Only P →
      (∀ r ∈ rs, P (h.keys r.entry) (h.payloads r.entry)) →
      (releaseList b rs limit h).1.Only P ∧ (∀ r ∈ (releaseList b rs limit h).2.1, r ∈ rs) ∧
        (releaseList b rs limit h).1.keys = h.keys ∧
        (releaseList b rs limit h).1.payloads = h.payloads ∧
        ∀ e ∈ (releaseList b rs limit h).2.2, ∃ κ, P κ e.item := by
  intro rs
  induction rs with
  | nil => intro limit h ho _; exact ⟨ho, by simp [releaseList], rfl, rfl, by simp [releaseList]⟩
  | cons r rs ih =>
    intro limit h ho hrs
    cases limit with
    | zero => exact ⟨ho, fun _ hr => hr, rfl, rfl, by simp [releaseList]⟩
    | succ limit =>
      have hrest : ∀ r' ∈ rs, P (h.keys r'.entry) (h.payloads r'.entry) := fun r' hr' =>
        hrs r' (List.mem_cons_of_mem _ hr')
      obtain ⟨hkey, hpay⟩ : (h.erase r.entry).keys = h.keys ∧
          (h.erase r.entry).payloads = h.payloads := by
        unfold CombiningHold.erase
        split
        · exact ⟨rfl, rfl⟩
        · split
          · exact ⟨rfl, rfl⟩
          · exact ⟨rfl, rfl⟩
      have herase := ho.erase r.entry
      rw [releaseList]
      split_ifs with hstale
      · obtain ⟨h1, h2, h3, h4, h5⟩ := ih (limit + 1) h ho hrest
        exact ⟨h1, fun r' hr' => List.mem_cons_of_mem _ (h2 r' hr'), h3, h4, h5⟩
      · dsimp only
        split_ifs
        · refine ⟨herase, fun r' hr' => List.mem_cons_of_mem _ hr', hkey, hpay, ?_⟩
          intro e he
          rw [List.mem_singleton.mp he]
          exact ⟨_, hrs r (List.mem_cons_self ..)⟩
        · obtain ⟨h1, h2, h3, h4, h5⟩ := ih limit
            { h.erase r.entry with
              live := Function.update (h.erase r.entry).live b ((h.erase r.entry).live b - 1) }
            ⟨herase.slots, herase.lists⟩
            (fun r' hr' => by rw [hkey, hpay]; exact hrest r' hr')
          refine ⟨h1, fun r' hr' => List.mem_cons_of_mem _ (h2 r' hr'), h3.trans hkey,
            h4.trans hpay, ?_⟩
          intro e he
          rcases List.mem_cons.mp he with rfl | he
          · exact ⟨_, hrs r (List.mem_cons_self ..)⟩
          · exact h5 e he

theorem releaseBuckets_only :
    ∀ (n b limit : ℕ) (h : CombiningHold α), h.Only P →
      (releaseBuckets n b limit h).1.Only P ∧
        ∀ e ∈ (releaseBuckets n b limit h).2, ∃ κ, P κ e.item := by
  intro n
  induction n with
  | zero => intro b limit h ho; exact ⟨ho, by simp [releaseBuckets]⟩
  | succ n ih =>
    intro b limit h ho
    obtain ⟨h1, h2, h3, h4, h5⟩ := releaseList_only b (h.lists b) limit h ho (ho.lists b)
    rw [releaseBuckets]
    split_ifs
    · exact ⟨ho, by simp⟩
    · generalize releaseList b (h.lists b) limit h = c at *
      obtain ⟨h', rest, out⟩ := c
      dsimp only at h1 h2 h3 h4 h5 ⊢
      split_ifs
      · exact ⟨h1, h5⟩
      · have hmid : ({ h' with lists := Function.update h'.lists b rest } : CombiningHold α).Only
            P := by
          refine ⟨h1.slots, fun c r hr => ?_⟩
          by_cases hc : c = b
          · subst hc
            simp only [Function.update_self] at hr
            show P (h'.keys r.entry) (h'.payloads r.entry)
            rw [h3, h4]
            exact ho.lists c r (h2 r hr)
          · simp only [Function.update_of_ne hc] at hr
            exact h1.lists c r hr
        obtain ⟨h6, h7⟩ := ih (b + 1) (limit - out.length) _ hmid
        refine ⟨h6, fun e he => ?_⟩
        rcases List.mem_append.mp he with he | he
        · exact h5 e he
        · exact h7 e he

theorem raiseLowest_only :
    ∀ (n : ℕ) (h : CombiningHold α), h.Only P → (raiseLowest n h).Only P := by
  intro n
  induction n with
  | zero => intro h ho; exact ho
  | succ n ih =>
    intro h ho
    rw [raiseLowest]
    split_ifs
    · refine ih _ ⟨ho.slots, fun b r hr => ?_⟩
      by_cases hb : b = h.lowest
      · subst hb
        simp at hr
      · simp only [Function.update_of_ne hb] at hr
        exact ho.lists b r hr
    · exact ho

theorem release_only {h : CombiningHold α} (ho : h.Only P) (high limit : ℤ) :
    (h.release high limit).1.Only P ∧ ∀ e ∈ (h.release high limit).2, ∃ κ, P κ e.item := by
  unfold CombiningHold.release
  dsimp only
  obtain ⟨h1, h2⟩ := releaseBuckets_only (min high (h.bucketCount - 1) + 1 - h.lowest).toNat
    h.lowest limit.toNat h ho
  split_ifs
  · exact ⟨h1, h2⟩
  · exact ⟨raiseLowest_only _ _ h1, h2⟩

end CombiningHold

end Htram
