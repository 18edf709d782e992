import Htram.Hold.Stamps
import Mathlib.Algebra.BigOperators.Group.Finset.Basic
import Mathlib.Algebra.BigOperators.Group.List.Basic
import Mathlib.Data.Finset.Card

/-!
# Runs of calls on a hold

What a client of a hold can observe of a sequence of `insert` and `release` calls,
computed from the source (`trace`) and from the abstract hold (`specTrace`).

* `trace_init`: after `init` the two are equal, for fewer than `2 ^ 31` inserts.
-/

namespace Htram

open CombiningHold

variable {α : Type*}

/-- A call on a hold. -/
inductive Call (α : Type*)
  | insert (item : α) (bucket : ℕ)
  | release (high limit : ℤ)

/-- What one call shows: the result of `insert`, the calls of `combine` and of
    `on_absorb`, the items passed to `emit`, the number returned by `release`, and
    `live` and `size` afterwards. -/
structure Report (α : Type*) where
  result : Option InsertResult
  combined : List (α × α)
  absorbed : List α
  emitted : List α
  removed : ℕ
  live : ℕ → ℤ
  size : ℕ

namespace CombiningHold

/-- One call on the hold of the source. -/
def call [Inhabited α] (ops : HoldOps α) (h : CombiningHold α) :
    Call α → CombiningHold α × Report α
  | .insert item bucket =>
    let (h', result) := h.insert ops item bucket
    (h', ⟨some result, h'.combined.drop h.combined.length, h'.retired.drop h.retired.length,
      [], 0, h'.live, h'.size⟩)
  | .release high limit =>
    let (h', out) := h.release high limit
    (h', ⟨none, h'.combined.drop h.combined.length, h'.retired.drop h.retired.length,
      out.map Emitted.item, out.length, h'.live, h'.size⟩)

/-- The reports of a sequence of calls. -/
def trace [Inhabited α] (ops : HoldOps α) : CombiningHold α → List (Call α) → List (Report α)
  | _, [] => []
  | h, c :: cs => (h.call ops c).2 :: trace ops (h.call ops c).1 cs

/-- The hold after a sequence of calls. -/
def after [Inhabited α] (ops : HoldOps α) (h : CombiningHold α) (cs : List (Call α)) :
    CombiningHold α :=
  cs.foldl (fun h c => (h.call ops c).1) h

end CombiningHold

/-- One call on the abstract hold. An `insert` is absorbed when the key is held, and
    `release` takes the first items of the buckets up to `high`. -/
def specCall (ops : HoldOps α) (buckets : ℕ) (a : KeyedHold UInt64 α) :
    Call α → KeyedHold UInt64 α × Report α
  | .insert item bucket =>
    let (a', old, new, retired) := a.insert ops.combine (ops.key item) item bucket
    (a', ⟨some (resultOf old new), a.folded (ops.key item) item, retired, [], 0,
      fun b => (a'.queue b).length, (a'.order 0 buckets).length⟩)
  | .release high limit =>
    let (a', out) := a.release high limit
    (a', ⟨none, [], [], out, min limit.toNat (a.order 0 (high + 1).toNat).length,
      fun b => (a'.queue b).length, (a'.order 0 buckets).length⟩)

/-- The reports of a sequence of calls on the abstract hold. -/
def specTrace (ops : HoldOps α) (buckets : ℕ) :
    KeyedHold UInt64 α → List (Call α) → List (Report α)
  | _, [] => []
  | a, c :: cs =>
    (specCall ops buckets a c).2 :: specTrace ops buckets (specCall ops buckets a c).1 cs

/-- The number of inserts in a sequence of calls. -/
def inserts (cs : List (Call α)) : ℕ :=
  cs.countP fun c => match c with
    | .insert .. => true
    | .release .. => false

/-- Every insert names a bucket in range. -/
def InRange (buckets : ℕ) (cs : List (Call α)) : Prop :=
  ∀ item b, Call.insert item b ∈ cs → b < buckets

/-! ## `live` and `size` -/

namespace CombiningHold

theorem Refines.live_eq {h : CombiningHold α} {a : KeyedHold UInt64 α} (hr : Refines h a) (b : ℕ) :
    h.live b = (a.queue b).length := by
  rw [hr.queue b, List.length_map]
  exact hr.inv.list.count b

/-- `size` is the number of keys held. -/
theorem Refines.size_eq {h : CombiningHold α} {a : KeyedHold UInt64 α} (hr : Refines h a) :
    h.size = (a.order 0 h.bucketCount).length := by
  have hmaps : ∀ e ∈ h.heldSet, h.buckets e ∈ Finset.range h.bucketCount := fun e he =>
    Finset.mem_range.mpr (hr.inv.bucketLt e (mem_heldSet.mp he))
  have hfiber : ∀ b, (h.heldSet.filter fun e => h.buckets e = b).card = (a.queue b).length := by
    intro b
    rw [← hr.heldCount_eq b, heldCount, List.countP_eq_length_filter, heldSet, Finset.filter_filter]
    rfl
  show h.count = _
  rw [hr.inv.table.count, Finset.card_eq_sum_card_fiberwise hmaps, KeyedHold.order,
    List.length_flatMap, ← List.range_eq_range']
  simp only [hfiber]
  rfl

end CombiningHold

/-! ## One call -/

theorem insert_call [Inhabited α] {h : CombiningHold α} {a : KeyedHold UInt64 α} (hr : Refines h a)
    (ops : HoldOps α) (item : α) {bucket : ℕ} (hb : bucket < h.bucketCount)
    (hf : h.InsertSafe ops item bucket) :
    Refines (h.call ops (.insert item bucket)).1
        (specCall ops h.bucketCount a (.insert item bucket)).1 ∧
      (h.call ops (.insert item bucket)).2 =
        (specCall ops h.bucketCount a (.insert item bucket)).2 := by
  obtain ⟨hr', hres, hcomb, hret⟩ := insert_refines hr ops item hb hf
  refine ⟨hr', ?_⟩
  have hlive := funext hr'.live_eq
  have hsize := hr'.size_eq
  rw [insert_bucketCount] at hsize
  simp only [call, specCall]
  rw [hlive, hsize, hcomb, hret, hres, List.drop_left, List.drop_left]

theorem release_call [Inhabited α] {h : CombiningHold α} {a : KeyedHold UInt64 α}
    (hr : Refines h a) (ops : HoldOps α) {high limit : ℤ} (hf : h.ReleaseSafe high limit) :
    Refines (h.call ops (.release high limit)).1
        (specCall ops h.bucketCount a (.release high limit)).1 ∧
      (h.call ops (.release high limit)).2 =
        (specCall ops h.bucketCount a (.release high limit)).2 := by
  obtain ⟨hout, hr', hd⟩ := release_refines hr hf
  refine ⟨hr', ?_⟩
  set ks := (a.order 0 (high + 1).toNat).take limit.toNat with hks
  have hnd : ks.Nodup := (a.order_nodup _ 0).sublist (List.take_sublist ..)
  have hheld : ∀ k ∈ ks, a.item k ≠ none := by
    intro k hk
    obtain ⟨c, -, -, hc⟩ := a.mem_order.mp (List.mem_of_mem_take hk)
    obtain ⟨x, hx⟩ := a.item_of_mem hc
    simp [hx]
  have hlive := funext hr'.live_eq
  have hsize := hr'.size_eq
  rw [hd.bucketCount] at hsize
  simp only [call, specCall, KeyedHold.release]
  rw [hlive, hsize, hout, hd.combined, hd.retired, emittedOf_items _ _ hnd,
    emittedOf_length hnd hheld, hks, List.length_take, List.drop_length, List.drop_length]

/-- No reference is about to be taken for current in the call. -/
def CombiningHold.CallSafe (ops : HoldOps α) (h : CombiningHold α) : Call α → Prop
  | .insert item bucket => h.InsertSafe ops item bucket
  | .release high limit => h.ReleaseSafe high limit

theorem call_refines [Inhabited α] {h : CombiningHold α} {a : KeyedHold UInt64 α}
    (hr : Refines h a) (ops : HoldOps α) {c : Call α} (hb : InRange h.bucketCount [c])
    (hf : h.CallSafe ops c) :
    Refines (h.call ops c).1 (specCall ops h.bucketCount a c).1 ∧
      (h.call ops c).2 = (specCall ops h.bucketCount a c).2 ∧
      (h.call ops c).1.bucketCount = h.bucketCount := by
  cases c with
  | insert item bucket =>
    obtain ⟨hr', hrep⟩ := insert_call hr ops item (hb item bucket (List.mem_singleton_self _)) hf
    exact ⟨hr', hrep, insert_bucketCount ..⟩
  | release high limit =>
    obtain ⟨hr', hrep⟩ := release_call hr ops hf
    obtain ⟨-, -, hd⟩ := release_refines hr hf
    exact ⟨hr', hrep, hd.bucketCount⟩

/-! ## Runs -/

/-- The state of a run: the hold, what it stands for, and how many inserts it has seen. -/
structure Running (buckets n : ℕ) (h : CombiningHold α) (a : KeyedHold UInt64 α) : Prop where
  refines : Refines h a
  bucketCount : h.bucketCount = buckets
  early : Early h n

/-- The stamps of fewer than `2 ^ 31` inserts are out of reach of the references left. -/
theorem Running.callSafe {buckets n : ℕ} {h : CombiningHold α} {a : KeyedHold UInt64 α}
    (hs : Running buckets n h a) (ops : HoldOps α) {c : Call α} (hn : n + inserts [c] < 2 ^ 31) :
    h.CallSafe ops c := by
  cases c with
  | insert item bucket =>
    have hn : n + 1 < 2 ^ 31 := hn
    exact (hs.early.roomy hn).fresh.insertSafe ops item bucket
  | release high limit =>
    have hn : n < 2 ^ 31 := hn
    exact (hs.early.freshHeld hn).releaseSafe hs.refines.inv high limit

theorem call_step [Inhabited α] {buckets n : ℕ} {h : CombiningHold α} {a : KeyedHold UInt64 α}
    (hs : Running buckets n h a) (ops : HoldOps α) {c : Call α} (hb : InRange buckets [c])
    (hn : n + inserts [c] < 2 ^ 31) :
    Running buckets (n + inserts [c]) (h.call ops c).1 (specCall ops buckets a c).1 ∧
      (h.call ops c).2 = (specCall ops buckets a c).2 := by
  have hsafe := hs.callSafe ops hn
  obtain ⟨hr, rfl, he⟩ := hs
  obtain ⟨hr', hrep, hcount⟩ := call_refines hr ops hb hsafe
  refine ⟨⟨hr', hcount, ?_⟩, hrep⟩
  cases c with
  | insert item bucket =>
    have hn : n + 1 < 2 ^ 31 := hn
    exact he.insert hr.inv hn ops item bucket
  | release high limit =>
    have hn : n < 2 ^ 31 := hn
    obtain ⟨-, -, hd⟩ := release_refines hr hsafe
    exact he.released hd hn

theorem inserts_cons (c : Call α) (cs : List (Call α)) :
    inserts (c :: cs) = inserts [c] + inserts cs := by
  unfold inserts
  rw [← List.singleton_append, List.countP_append]

theorem trace_eq [Inhabited α] (ops : HoldOps α) {buckets : ℕ} :
    ∀ (cs : List (Call α)) (n : ℕ) (h : CombiningHold α) (a : KeyedHold UInt64 α),
      Running buckets n h a → InRange buckets cs → n + inserts cs < 2 ^ 31 →
      h.trace ops cs = specTrace ops buckets a cs ∧ (h.after ops cs).stuck = false := by
  intro cs
  induction cs with
  | nil => intro n h a hs _ _; exact ⟨rfl, hs.refines.inv.table.stuck⟩
  | cons c cs ih =>
    intro n h a hs hb hn
    rw [inserts_cons] at hn
    have hb1 : InRange buckets [c] := fun item b hm =>
      hb item b (List.mem_cons.mpr (Or.inl (List.mem_singleton.mp hm)))
    obtain ⟨hs', hrep⟩ := call_step hs ops hb1 (by omega)
    obtain ⟨htr, hst⟩ := ih _ _ _ hs' (fun item b hm => hb item b (List.mem_cons_of_mem _ hm))
      (by omega)
    exact ⟨by rw [trace, specTrace, hrep, htr], hst⟩

/-- After `init`, every sequence of fewer than `2 ^ 31` inserts and any number of
    releases shows what the abstract hold shows, and no call fails to return. -/
theorem trace_init [Inhabited α] (ops : HoldOps α) (buckets : ℕ) (cs : List (Call α))
    (hb : InRange buckets cs) (hn : inserts cs < 2 ^ 31) :
    (init buckets).trace ops cs = specTrace ops buckets KeyedHold.empty cs ∧
      ((init buckets).after ops cs).stuck = false := by
  have hcount : (init buckets : CombiningHold α).bucketCount = buckets := rebuild_bucketCount ..
  exact trace_eq ops cs 0 _ _ ⟨init_refines buckets, hcount, init_early buckets⟩ hb (by omega)

/-- Two items for one key, and a release. -/
theorem trace_init_two :
    (init 8).trace minOps [.insert ⟨1, 7⟩ 7, .insert ⟨1, 2⟩ 2, .release 3 1] =
        specTrace minOps 8 KeyedHold.empty [.insert ⟨1, 7⟩ 7, .insert ⟨1, 2⟩ 2, .release 3 1] ∧
      ((init 8).after minOps [.insert ⟨1, 7⟩ 7, .insert ⟨1, 2⟩ 2, .release 3 1]).stuck = false := by
  refine trace_init minOps 8 _ ?_ (by decide)
  intro item b hmem
  simp at hmem
  omega

end Htram
