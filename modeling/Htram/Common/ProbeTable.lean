import Mathlib.Data.List.Basic
import Mathlib.Logic.Function.Basic
import Mathlib.Tactic.SplitIfs
import Mathlib.Tactic.Common

/-!
# Open addressing with linear probing and backward-shift deletion

A table of `n` slots is a function `T : ℕ → Option ι`; `home x` is the slot a
search for `x` starts from, and `adv` steps to the next slot around the ring.

* `scan_spec`: a walk round the ring ends within `n` steps if there is a slot to
  stop at, and has passed no such slot before.
* `probe_absent`: in a table without gaps, a search that ends at an empty slot
  proves that no entry matches.
* `NoGap.update_some`, `closeHole_spec`: filling the slot a search ended at and
  closing the hole an entry leaves both keep the table free of gaps.
-/

namespace ProbeTable

variable {ι : Type*}

/-- Slot `q` lies on the way round from `h` up to, but not including, `p`. -/
def OnPath (h p q : ℕ) : Prop :=
  (h ≤ p ∧ h ≤ q ∧ q < p) ∨ (p < h ∧ (h ≤ q ∨ q < p))

instance (h p q : ℕ) : Decidable (OnPath h p q) := by unfold OnPath; infer_instance

/-- `adv` steps once around a ring of `n` slots. -/
def IsRing (n : ℕ) (adv : ℕ → ℕ) : Prop :=
  ∀ p < n, adv p = if p + 1 = n then 0 else p + 1

theorem IsRing.lt {n : ℕ} {adv : ℕ → ℕ} (hr : IsRing n adv) {p : ℕ} (hp : p < n) : adv p < n := by
  rw [hr p hp]; split_ifs <;> omega

/-- Every entry is reached from its home slot without crossing an empty slot. -/
def NoGap (n : ℕ) (home : ι → ℕ) (T : ℕ → Option ι) : Prop :=
  ∀ p < n, ∀ x, T p = some x → ∀ q < n, OnPath (home x) p q → T q ≠ none

/-- Steps from `p` around a ring of `n` slots to `z`. -/
def dist (n p z : ℕ) : ℕ := if p ≤ z then z - p else z + n - p

/-! ## Searching -/

/-- Walk from slot `p`, at most `fuel` slots, to the first slot `stop` accepts. -/
def scan (adv : ℕ → ℕ) (stop : ℕ → Bool) : ℕ → ℕ → Option ℕ
  | 0, _ => none
  | fuel + 1, p => if stop p then some p else scan adv stop fuel (adv p)

theorem scan_some {adv : ℕ → ℕ} {stop : ℕ → Bool} :
    ∀ {fuel p r : ℕ}, scan adv stop fuel p = some r → stop r = true := by
  intro fuel
  induction fuel with
  | zero => intro p r h; cases h
  | succ fuel ih =>
    intro p r h
    rw [scan] at h
    split_ifs at h with hp
    · cases h
      exact hp
    · exact ih h

/-- A walk from `p₀` that ended at `p` has passed no slot that `stop` accepts. -/
structure Ended (n : ℕ) (stop : ℕ → Bool) (p₀ p : ℕ) : Prop where
  lt : p < n
  pass : ∀ q < n, OnPath p₀ p q → stop q = false
  stop : stop p = true

theorem scan_ended {n : ℕ} {adv : ℕ → ℕ} (hr : IsRing n adv) {stop : ℕ → Bool} {z : ℕ}
    (hz : z < n) (hsz : stop z = true) (p₀ : ℕ) :
    ∀ fuel p, p < n → dist n p z < fuel → (∀ q < n, OnPath p₀ p q → stop q = false) →
      (p₀ = p ∨ OnPath p₀ z p ∨ z = p) →
      ∃ r, scan adv stop fuel p = some r ∧ Ended n stop p₀ r := by
  intro fuel
  induction fuel with
  | zero => intro p _ hd; omega
  | succ fuel ih =>
    intro p hp hd hpass hpos
    rw [scan]
    cases hs : stop p with
    | true => exact ⟨p, rfl, hp, hpass, hs⟩
    | false =>
      have hpz : p ≠ z := by rintro rfl; rw [hs] at hsz; cases hsz
      have hadv := hr p hp
      apply ih (adv p) (hr.lt hp)
      · unfold dist at hd ⊢
        split_ifs at hd hadv ⊢ <;> omega
      · intro q hq hqp
        by_cases hqe : q = p
        · subst hqe; exact hs
        · apply hpass q hq
          unfold OnPath at hqp hpos ⊢
          split_ifs at hadv <;> omega
      · unfold OnPath at hpos ⊢
        split_ifs at hadv <;> omega

/-- A walk round the whole ring ends if there is a slot to stop at. -/
theorem scan_spec {n : ℕ} {adv : ℕ → ℕ} (hr : IsRing n adv) (stop : ℕ → Bool) {z : ℕ}
    (hz : z < n) (hsz : stop z = true) {p₀ : ℕ} (hp₀ : p₀ < n) :
    ∃ r, scan adv stop n p₀ = some r ∧ Ended n stop p₀ r := by
  apply scan_ended hr hz hsz p₀ n p₀ hp₀
  · unfold dist; split_ifs <;> omega
  · intro q _ hq; unfold OnPath at hq; omega
  · exact Or.inl rfl

/-- In a table without gaps, a search that ended at an empty slot has passed
    every entry of its home slot. -/
theorem probe_absent {n : ℕ} {home : ι → ℕ} {T : ℕ → Option ι} (hg : NoGap n home T)
    {hit : ι → Bool} {p₀ p : ℕ} (he : Ended n (fun q => (T q).all hit) p₀ p) (hp : T p = none)
    {q : ℕ} {x : ι} (hq : q < n) (hx : T q = some x) (hh : home x = p₀) : hit x = false := by
  have hqp : q ≠ p := by rintro rfl; rw [hp] at hx; cases hx
  by_cases hon : OnPath p₀ p q
  · simpa [hx] using he.pass q hq hon
  · have : OnPath (home x) q p := by rw [hh]; unfold OnPath at hon ⊢; omega
    exact absurd hp (hg q hq x hx p he.lt this)

/-- Filling the empty slot a search ended at leaves no gap. -/
theorem NoGap.update_some {n : ℕ} {home : ι → ℕ} {T : ℕ → Option ι} (hg : NoGap n home T)
    {hit : ι → Bool} {p : ℕ} {x : ι} (he : Ended n (fun q => (T q).all hit) (home x) p) :
    NoGap n home (Function.update T p (some x)) := by
  intro q hq y hy r hr hon
  by_cases hrp : r = p
  · subst hrp; simp
  rw [Function.update_of_ne hrp]
  by_cases hqp : q = p
  · subst hqp
    rw [Function.update_self] at hy
    cases hy
    intro hnone
    simpa [hnone] using he.pass r hr hon
  · rw [Function.update_of_ne hqp] at hy
    exact hg q hq y hy r hr hon

/-! ## Closing the hole an entry leaves -/

/-- The entry at `next`, whose home is `home`, may move back to `hole`: its home
    does not lie cyclically in `(hole, next]`. -/
def movable (hole next home : ℕ) : Bool :=
  if next > hole then home ≤ hole || home > next else home ≤ hole && home > next

theorem movable_iff {hole next home : ℕ} :
    movable hole next home = true ↔ OnPath home next hole := by
  unfold movable OnPath
  split_ifs <;> simp <;> omega

/-- Walk on from `next`, at most `fuel` slots, moving back into `hole` whatever
    may move, until an empty slot; `none` if there is none among them. -/
def closeHole (adv : ℕ → ℕ) (home : ι → ℕ) :
    ℕ → (ℕ → Option ι) → ℕ → ℕ → Option ((ℕ → Option ι) × ℕ)
  | 0, _, _, _ => none
  | fuel + 1, T, hole, next =>
    match T next with
    | none => some (T, hole)
    | some x =>
      if movable hole next (home x) then
        closeHole adv home fuel (Function.update T hole (some x)) next (adv next)
      else closeHole adv home fuel T hole (adv next)

/-- Closing a hole moves entries about and adds none. -/
theorem closeHole_entries {adv : ℕ → ℕ} {home : ι → ℕ} :
    ∀ (fuel : ℕ) (T : ℕ → Option ι) (hole next : ℕ) {T' : ℕ → Option ι} {hole' : ℕ},
      closeHole adv home fuel T hole next = some (T', hole') →
      ∀ p x, T' p = some x → ∃ q, T q = some x := by
  intro fuel
  induction fuel with
  | zero => intro T hole next T' hole' h; cases h
  | succ fuel ih =>
    intro T hole next T' hole' h p x hx
    rw [closeHole] at h
    cases hnext : T next with
    | none =>
      rw [hnext] at h
      cases h
      exact ⟨p, hx⟩
    | some y =>
      rw [hnext] at h
      dsimp only at h
      split_ifs at h
      · obtain ⟨q, hq⟩ := ih _ _ _ h p x hx
        by_cases hqh : q = hole
        · subst hqh
          rw [Function.update_self] at hq
          exact ⟨next, hnext.trans hq⟩
        · rw [Function.update_of_ne hqh] at hq
          exact ⟨q, hq⟩
      · exact ih _ _ _ h p x hx

/-- The walk of `closeHole` has come to `next`; slot `hole` counts as vacated. -/
structure Closing (n : ℕ) (home : ι → ℕ) (T : ℕ → Option ι) (hole next : ℕ) : Prop where
  hole_lt : hole < n
  next_lt : next < n
  ne : hole ≠ next
  filled : ∀ q < n, OnPath hole next q → T q ≠ none
  noGap : ∀ p < n, p ≠ hole → ∀ x, T p = some x → ∀ q < n, OnPath (home x) p q → T q ≠ none
  behind : ∀ p < n, p ≠ hole → ∀ x, T p = some x → OnPath (home x) p hole →
    ¬ OnPath hole next p

/-- Each entry outside `hole` sits in one slot only. -/
def InjOff (n : ℕ) (T : ℕ → Option ι) (hole : ℕ) : Prop :=
  ∀ p < n, ∀ q < n, p ≠ hole → q ≠ hole → ∀ x, T p = some x → T q = some x → p = q

/-- Entry `x` sits in some slot other than `hole`. -/
def MemOff (n : ℕ) (T : ℕ → Option ι) (hole : ℕ) (x : ι) : Prop :=
  ∃ p < n, p ≠ hole ∧ T p = some x

/-- Nothing to move at `next`: the walk goes on. -/
theorem Closing.skip {n : ℕ} {adv : ℕ → ℕ} (hr : IsRing n adv) {home : ι → ℕ}
    {T : ℕ → Option ι} {hole next : ℕ} (hc : Closing n home T hole next) {x : ι}
    (hx : T next = some x) (hm : ¬ OnPath (home x) next hole) {z : ℕ} (hz : z < n)
    (hTz : T z = none) : Closing n home T hole (adv next) := by
  have hadv := hr next hc.next_lt
  have hne : hole ≠ adv next := by
    rintro rfl
    by_cases hzh : z = adv next
    · refine hc.filled z hz ?_ hTz
      have := hc.ne; unfold OnPath; split_ifs at hadv <;> omega
    · have hzn : z ≠ next := by rintro rfl; rw [hTz] at hx; cases hx
      refine hc.filled z hz ?_ hTz
      unfold OnPath; split_ifs at hadv <;> omega
  refine ⟨hc.hole_lt, hr.lt hc.next_lt, hne, ?_, hc.noGap, ?_⟩
  · intro q hq hon
    by_cases hqn : q = next
    · subst hqn; rw [hx]; simp
    · apply hc.filled q hq
      have := hc.next_lt
      unfold OnPath at hon ⊢; split_ifs at hadv <;> omega
  · intro p hp hph y hy hon hin
    by_cases hpn : p = next
    · subst hpn; rw [hx] at hy; cases hy; exact hm hon
    · apply hc.behind p hp hph y hy hon
      have := hc.next_lt
      unfold OnPath at hin ⊢; split_ifs at hadv <;> omega

/-- The entry at `next` moves into the hole, which is now at `next`. -/
theorem Closing.move {n : ℕ} {adv : ℕ → ℕ} (hr : IsRing n adv) {home : ι → ℕ}
    {T : ℕ → Option ι} {hole next : ℕ} (hc : Closing n home T hole next) {x : ι}
    (hx : T next = some x) (hm : OnPath (home x) next hole) (hn : 1 < n) :
    Closing n home (Function.update T hole (some x)) next (adv next) := by
  have hadv := hr next hc.next_lt
  have hl := hc.next_lt
  have hne := hc.ne
  have hfull : ∀ q < n, T q ≠ none → Function.update T hole (some x) q ≠ none := by
    intro q _ hq
    by_cases hqh : q = hole
    · subst hqh; simp
    · rwa [Function.update_of_ne hqh]
  refine ⟨hl, hr.lt hl, ?_, ?_, ?_, ?_⟩
  · split_ifs at hadv <;> omega
  · intro q hq hon
    have : q = next := by unfold OnPath at hon; split_ifs at hadv <;> omega
    subst this
    exact hfull q hq (by rw [hx]; simp)
  · intro p hp hpn y hy q hq hon
    apply hfull q hq
    by_cases hph : p = hole
    · subst hph
      rw [Function.update_self] at hy
      cases hy
      apply hc.noGap next hl hne.symm x hx q hq
      unfold OnPath at hm hon ⊢; omega
    · rw [Function.update_of_ne hph] at hy
      exact hc.noGap p hp hph y hy q hq hon
  · intro p hp hpn y hy hon hin
    have : p = next := by unfold OnPath at hin; split_ifs at hadv <;> omega
    exact hpn this

/-- The walk has met an empty slot: clearing the hole leaves no gap. -/
theorem Closing.finish {n : ℕ} {home : ι → ℕ} {T : ℕ → Option ι} {hole next : ℕ}
    (hc : Closing n home T hole next) (hx : T next = none) :
    NoGap n home (Function.update T hole none) := by
  intro p hp x hpx q hq hon
  have hph : p ≠ hole := by rintro rfl; rw [Function.update_self] at hpx; cases hpx
  rw [Function.update_of_ne hph] at hpx
  have hqh : q ≠ hole := by
    rintro rfl
    -- a path that crosses the hole goes on past `next`, which is empty
    have hbeh := hc.behind p hp hph x hpx hon
    have hpn : p ≠ next := by rintro rfl; rw [hx] at hpx; cases hpx
    refine hc.noGap p hp hph x hpx next hc.next_lt ?_ hx
    have := hc.ne
    unfold OnPath at hon hbeh ⊢; omega
  rw [Function.update_of_ne hqh]
  exact hc.noGap p hp hph x hpx q hq hon

theorem closeHole_spec {n : ℕ} {adv : ℕ → ℕ} (hr : IsRing n adv) {home : ι → ℕ} (hn : 1 < n)
    {z : ℕ} (hz : z < n) :
    ∀ fuel (T : ℕ → Option ι) hole next, T z = none → Closing n home T hole next →
      InjOff n T hole → dist n next z < fuel →
      ∃ T' hole', closeHole adv home fuel T hole next = some (T', hole') ∧ hole' < n ∧
        NoGap n home (Function.update T' hole' none) ∧ InjOff n T' hole' ∧
        (∀ x, MemOff n T' hole' x ↔ MemOff n T hole x) ∧ ∀ p, n ≤ p → T' p = T p := by
  intro fuel
  induction fuel with
  | zero => intro T hole next _ _ _ hd; omega
  | succ fuel ih =>
    intro T hole next hTz hc hinj hd
    rw [closeHole]
    cases hx : T next with
    | none =>
      exact ⟨T, hole, rfl, hc.hole_lt, hc.finish hx, hinj, fun _ => Iff.rfl, fun _ _ => rfl⟩
    | some x =>
      have hzn : z ≠ next := by rintro rfl; rw [hTz] at hx; cases hx
      have hd' : dist n (adv next) z < fuel := by
        have hadv := hr next hc.next_lt
        have := hc.next_lt
        unfold dist at hd ⊢
        split_ifs at hd hadv ⊢ <;> omega
      dsimp only
      by_cases hm : movable hole next (home x) = true
      · rw [if_pos hm]
        have hzh : z ≠ hole := by
          rintro rfl
          refine hc.filled z hz ?_ hTz
          have := hc.ne; unfold OnPath; omega
        have hinj' : InjOff n (Function.update T hole (some x)) next := by
          intro p hp q hq hpn hqn y hpy hqy
          by_cases hph : p = hole <;> by_cases hqh : q = hole
          · rw [hph, hqh]
          · subst hph
            rw [Function.update_self] at hpy; cases hpy
            rw [Function.update_of_ne hqh] at hqy
            exact absurd (hinj q hq next hc.next_lt hqh hc.ne.symm x hqy hx) hqn
          · subst hqh
            rw [Function.update_self] at hqy; cases hqy
            rw [Function.update_of_ne hph] at hpy
            exact absurd (hinj p hp next hc.next_lt hph hc.ne.symm x hpy hx) hpn
          · rw [Function.update_of_ne hph] at hpy
            rw [Function.update_of_ne hqh] at hqy
            exact hinj p hp q hq hph hqh y hpy hqy
        obtain ⟨T', hole', he, hlt, hg, hi, hmem, hout⟩ := ih _ next (adv next)
          (by rwa [Function.update_of_ne hzh]) (hc.move hr hx (movable_iff.mp hm) hn) hinj' hd'
        refine ⟨T', hole', he, hlt, hg, hi, fun y => (hmem y).trans ?_, fun p hp => ?_⟩
        · constructor
          · rintro ⟨p, hp, hpn, hy⟩
            by_cases hph : p = hole
            · subst hph
              rw [Function.update_self] at hy; cases hy
              exact ⟨next, hc.next_lt, hc.ne.symm, hx⟩
            · rw [Function.update_of_ne hph] at hy
              exact ⟨p, hp, hph, hy⟩
          · rintro ⟨p, hp, hph, hy⟩
            by_cases hpn : p = next
            · subst hpn
              rw [hx] at hy; cases hy
              exact ⟨hole, hc.hole_lt, hc.ne, by rw [Function.update_self]⟩
            · exact ⟨p, hp, hpn, by rwa [Function.update_of_ne hph]⟩
        · rw [hout p hp, Function.update_of_ne (by have := hc.hole_lt; omega)]
      · rw [if_neg hm]
        exact ih T hole (adv next) hTz
          (hc.skip hr hx (fun h => hm (movable_iff.mpr h)) hz hTz) hinj hd'

/-- Closing the hole at an entry's slot removes that entry, keeps every other
    entry in one slot, and leaves no gap. -/
theorem closeHole_erase {n : ℕ} {adv : ℕ → ℕ} (hr : IsRing n adv) {home : ι → ℕ}
    {T : ℕ → Option ι} (hg : NoGap n home T) {z : ℕ} (hz : z < n) (hTz : T z = none)
    {slot : ℕ} (hs : slot < n) {e : ι} (he : T slot = some e) (hinj : InjOff n T slot) :
    ∃ T' hole', closeHole adv home n T slot (adv slot) = some (T', hole') ∧ hole' < n ∧
      NoGap n home (Function.update T' hole' none) ∧ InjOff n T' hole' ∧
      (∀ x, MemOff n T' hole' x ↔ MemOff n T slot x) ∧ ∀ p, n ≤ p → T' p = T p := by
  have hadv := hr slot hs
  have hzs : z ≠ slot := by rintro rfl; rw [hTz] at he; cases he
  have hn : 1 < n := by omega
  apply closeHole_spec hr hn hz n T slot (adv slot) hTz _ hinj
  · unfold dist; split_ifs at hadv ⊢ <;> omega
  · refine ⟨hs, hr.lt hs, by split_ifs at hadv <;> omega, ?_, ?_, ?_⟩
    · intro q hq hon
      have : q = slot := by unfold OnPath at hon; split_ifs at hadv <;> omega
      rw [this, he]; simp
    · intro p hp _ x hx
      exact hg p hp x hx
    · intro p hp hps x _ _ hin
      unfold OnPath at hin; split_ifs at hadv <;> omega

end ProbeTable
