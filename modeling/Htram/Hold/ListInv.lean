import Htram.Hold.CombiningHold
import Mathlib.Data.List.Nodup

/-!
# The bucket lists of `CombiningHold`

Decrease-key is lazy, so a bucket's list may hold references whose stamp is no
longer the entry's. `ListInv` says that the references that do carry their entry's
stamp are exactly the held entries, each once, in the list of its own bucket, and
that `live_` counts them.

* `ListInv.bump`, `ListInv.bumpFree`: a new stamp takes an entry out of the lists,
  provided that no reference still in them carries that stamp already.
* `ListInv.enter`: a reference with the current stamp puts an entry in a bucket.
* `ListInv.drop`: references with an old stamp may be removed.
-/

namespace Htram

namespace CombiningHold

/-- The references of `l` that carry their entry's current stamp. -/
def liveRefs (stamps : ℕ → UInt32) (l : List Ref) : List Ref :=
  l.filter fun r => r.stamp = stamps r.entry

theorem mem_liveRefs {stamps : ℕ → UInt32} {l : List Ref} {r : Ref} :
    r ∈ liveRefs stamps l ↔ r ∈ l ∧ r.stamp = stamps r.entry := by simp [liveRefs]

/-- The invariant of the bucket lists, for the entries that satisfy `held`. -/
structure ListInv (held : ℕ → Prop) (stamps : ℕ → UInt32) (buckets : ℕ → ℕ)
    (lists : ℕ → List Ref) (live : ℕ → ℤ) : Prop where
  ofRef : ∀ b, ∀ r ∈ liveRefs stamps (lists b), held r.entry ∧ buckets r.entry = b
  hasRef : ∀ e, held e → Ref.mk e (stamps e) ∈ liveRefs stamps (lists (buckets e))
  nodup : ∀ b, (liveRefs stamps (lists b)).Nodup
  count : ∀ b, live b = (liveRefs stamps (lists b)).length

variable {held : ℕ → Prop} {stamps : ℕ → UInt32} {buckets : ℕ → ℕ} {lists : ℕ → List Ref}
  {live : ℕ → ℤ}

theorem ListInv.empty (stamps : ℕ → UInt32) (buckets : ℕ → ℕ) :
    ListInv (fun _ => False) stamps buckets (fun _ => []) fun _ => 0 :=
  ⟨by simp [liveRefs], fun _ h => h.elim, by simp [liveRefs], by simp [liveRefs]⟩

theorem ListInv.congr (hl : ListInv held stamps buckets lists live) {held' : ℕ → Prop}
    {buckets' : ℕ → ℕ} (hh : ∀ e, held' e ↔ held e) (hb : ∀ e, held e → buckets' e = buckets e) :
    ListInv held' stamps buckets' lists live := by
  refine ⟨?_, ?_, hl.nodup, hl.count⟩
  · intro b r hr
    obtain ⟨h1, h2⟩ := hl.ofRef b r hr
    exact ⟨(hh _).mpr h1, by rw [hb _ h1, h2]⟩
  · intro e he
    rw [hb e ((hh e).mp he)]
    exact hl.hasRef e ((hh e).mp he)

/-- Entry `e`'s live references are all the same reference. -/
theorem liveRef_eq {l : List Ref} {r : Ref} (hr : r ∈ liveRefs stamps l) {e : ℕ}
    (he : r.entry = e) : r = Ref.mk e (stamps e) := by
  have := (mem_liveRefs.mp hr).2
  cases r; simp only at he this; subst he; rw [this]

/-- A new stamp, carried by no reference of `l`, makes the references to `e` stale. -/
theorem liveRefs_update {l : List Ref} {e : ℕ} {s : UInt32}
    (hfresh : ∀ r ∈ l, r.entry = e → r.stamp ≠ s) :
    liveRefs (Function.update stamps e s) l =
      (liveRefs stamps l).filter fun r => r.entry ≠ e := by
  unfold liveRefs
  rw [List.filter_filter]
  apply List.filter_congr
  intro r hr
  by_cases he : r.entry = e
  · subst he; simp [hfresh r hr rfl]
  · simp [he]

/-- Entry `e` takes a new stamp and is no longer in any list. -/
theorem ListInv.bump (hl : ListInv held stamps buckets lists live) {e : ℕ} (he : held e)
    {s : UInt32} (hfresh : ∀ b, ∀ r ∈ lists b, r.entry = e → r.stamp ≠ s) :
    ListInv (fun x => held x ∧ x ≠ e) (Function.update stamps e s) buckets lists
        (Function.update live (buckets e) (live (buckets e) - 1)) ∧
      ∀ b, liveRefs (Function.update stamps e s) (lists b) =
        (liveRefs stamps (lists b)).erase (Ref.mk e (stamps e)) := by
  have hrefs : ∀ b, liveRefs (Function.update stamps e s) (lists b) =
      (liveRefs stamps (lists b)).erase (Ref.mk e (stamps e)) := by
    intro b
    rw [liveRefs_update (hfresh b), (hl.nodup b).erase_eq_filter]
    apply List.filter_congr
    intro r hr
    by_cases hre : r.entry = e
    · simp [liveRef_eq hr hre]
    · have : r ≠ Ref.mk e (stamps e) := by rintro rfl; exact hre rfl
      simp [hre, this]
  refine ⟨⟨?_, ?_, ?_, ?_⟩, hrefs⟩
  · intro b r hr
    rw [hrefs b] at hr
    obtain ⟨hne, hr'⟩ := (hl.nodup b).mem_erase_iff.mp hr
    exact ⟨⟨(hl.ofRef b r hr').1, fun h => hne (liveRef_eq hr' h)⟩, (hl.ofRef b r hr').2⟩
  · rintro x ⟨hx, hxe⟩
    rw [hrefs, Function.update_of_ne hxe, (hl.nodup _).mem_erase_iff]
    exact ⟨fun h => hxe (congrArg Ref.entry h), hl.hasRef x hx⟩
  · intro b; rw [hrefs b]; exact (hl.nodup b).erase _
  · intro b
    rw [hrefs b]
    by_cases hb : b = buckets e
    · subst hb
      have hmem := hl.hasRef e he
      rw [Function.update_self, hl.count, List.length_erase_of_mem hmem]
      have := List.length_pos_of_mem hmem
      omega
    · rw [Function.update_of_ne hb, hl.count, List.erase_of_not_mem]
      intro hmem
      exact hb (hl.ofRef b _ hmem).2.symm

/-- An entry that is not held may take a new stamp. -/
theorem ListInv.bumpFree (hl : ListInv held stamps buckets lists live) {e : ℕ} (he : ¬ held e)
    {s : UInt32} (hfresh : ∀ b, ∀ r ∈ lists b, r.entry = e → r.stamp ≠ s) :
    ListInv held (Function.update stamps e s) buckets lists live ∧
      ∀ b, liveRefs (Function.update stamps e s) (lists b) = liveRefs stamps (lists b) := by
  have hrefs : ∀ b,
      liveRefs (Function.update stamps e s) (lists b) = liveRefs stamps (lists b) := by
    intro b
    rw [liveRefs_update (hfresh b), List.filter_eq_self]
    intro r hr
    have : r.entry ≠ e := fun h => he (h ▸ (hl.ofRef b r hr).1)
    simpa using this
  refine ⟨⟨?_, ?_, ?_, ?_⟩, hrefs⟩
  · intro b r hr; rw [hrefs b] at hr; exact hl.ofRef b r hr
  · intro x hx
    have : x ≠ e := by rintro rfl; exact he hx
    rw [hrefs, Function.update_of_ne this]
    exact hl.hasRef x hx
  · intro b; rw [hrefs b]; exact hl.nodup b
  · intro b; rw [hrefs b]; exact hl.count b

/-- Entry `e` enters bucket `b` under its current stamp. -/
theorem ListInv.enter (hl : ListInv held stamps buckets lists live) {e : ℕ} (he : ¬ held e)
    (b : ℕ) :
    ListInv (fun x => held x ∨ x = e) stamps (Function.update buckets e b)
        (Function.update lists b (lists b ++ [Ref.mk e (stamps e)]))
        (Function.update live b (live b + 1)) ∧
      (liveRefs stamps (lists b ++ [Ref.mk e (stamps e)]) =
        liveRefs stamps (lists b) ++ [Ref.mk e (stamps e)]) := by
  have hrefs : liveRefs stamps (lists b ++ [Ref.mk e (stamps e)]) =
      liveRefs stamps (lists b) ++ [Ref.mk e (stamps e)] := by simp [liveRefs]
  have hno : ∀ c, ∀ r ∈ liveRefs stamps (lists c), r.entry ≠ e :=
    fun c r hr h => he (h ▸ (hl.ofRef c r hr).1)
  refine ⟨⟨?_, ?_, ?_, ?_⟩, hrefs⟩
  · intro c r hr
    by_cases hc : c = b
    · subst hc
      rw [Function.update_self, hrefs, List.mem_append, List.mem_singleton] at hr
      rcases hr with hr | rfl
      · rw [Function.update_of_ne (hno c r hr)]
        exact ⟨Or.inl (hl.ofRef c r hr).1, (hl.ofRef c r hr).2⟩
      · exact ⟨Or.inr rfl, Function.update_self ..⟩
    · rw [Function.update_of_ne hc] at hr
      rw [Function.update_of_ne (hno c r hr)]
      exact ⟨Or.inl (hl.ofRef c r hr).1, (hl.ofRef c r hr).2⟩
  · intro x hx
    by_cases hxe : x = e
    · subst hxe
      rw [Function.update_self, Function.update_self, hrefs]
      simp
    · have hx' : held x := hx.resolve_right hxe
      rw [Function.update_of_ne hxe]
      by_cases hc : buckets x = b
      · have := hl.hasRef x hx'
        rw [hc] at this ⊢
        rw [Function.update_self, hrefs]
        exact List.mem_append_left _ this
      · rw [Function.update_of_ne hc]; exact hl.hasRef x hx'
  · intro c
    by_cases hc : c = b
    · subst hc
      rw [Function.update_self, hrefs, List.nodup_append]
      refine ⟨hl.nodup c, by simp, ?_⟩
      rintro r hr r' hr' rfl
      rw [List.mem_singleton] at hr'
      exact hno c r hr (by rw [hr'])
    · rw [Function.update_of_ne hc]; exact hl.nodup c
  · intro c
    by_cases hc : c = b
    · subst hc
      rw [Function.update_self, Function.update_self, hrefs, hl.count]
      simp
    · rw [Function.update_of_ne hc, Function.update_of_ne hc]; exact hl.count c

/-- A list may be replaced by one with the same live references. -/
theorem ListInv.drop (hl : ListInv held stamps buckets lists live) {b : ℕ} {l : List Ref}
    (hlr : liveRefs stamps l = liveRefs stamps (lists b)) :
    ListInv held stamps buckets (Function.update lists b l) live := by
  have hrefs : ∀ c, liveRefs stamps (Function.update lists b l c) = liveRefs stamps (lists c) := by
    intro c
    by_cases hc : c = b
    · subst hc; rw [Function.update_self, hlr]
    · rw [Function.update_of_ne hc]
  refine ⟨?_, ?_, ?_, ?_⟩
  · intro c r hr; rw [hrefs c] at hr; exact hl.ofRef c r hr
  · intro x hx; rw [hrefs]; exact hl.hasRef x hx
  · intro c; rw [hrefs c]; exact hl.nodup c
  · intro c; rw [hrefs c]; exact hl.count c

/-- A bucket with no live reference has none in its list. -/
theorem ListInv.liveRefs_eq_nil (hl : ListInv held stamps buckets lists live) {b : ℕ}
    (h : live b = 0) : liveRefs stamps (lists b) = [] := by
  have := hl.count b
  exact List.eq_nil_of_length_eq_zero (by omega)

end CombiningHold

end Htram
