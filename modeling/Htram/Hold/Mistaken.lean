import Htram.Hold.Calls
import Htram.Hold.Wrap

/-!
# References that are taken for current

A reference is current if it carries the stamp of its entry (`htram_combine.h` lines
92–158). Over runs of any length, with stamps that wrap:

* `current_refs`: as long as no call gives an entry the stamp of a reference that is still
  to be met, every current reference names a held entry of its bucket, and `release` emits
  held items of buckets up to `high` only.
* `mistakenRun_mistaken`: without that it does not.
-/

namespace Htram

open CombiningHold

variable {α : Type*}

namespace CombiningHold

/-- Every current reference names an entry that is held, in the bucket of its list, and no
    bucket counts less than nothing. -/
structure Current (h : CombiningHold α) : Prop where
  ref : ∀ b, ∀ r ∈ h.lists b, r.stamp = h.stamps r.entry → h.Held r.entry ∧ h.buckets r.entry = b
  live : ∀ b, 0 ≤ h.live b

/-- `release` emits the items of entries that are held in buckets up to `high`, each entry
    once. -/
def EmitsHeld (h : CombiningHold α) (high limit : ℤ) : Prop :=
  ∃ es : List ℕ, es.Nodup ∧ (∀ e ∈ es, h.Held e ∧ (h.buckets e : ℤ) ≤ high) ∧
    (h.release high limit).2.map (fun x => (x.item, x.bucket)) =
      es.map fun e => (h.payloads e, h.buckets e)

theorem Refines.current {h : CombiningHold α} {a : KeyedHold UInt64 α} (hr : Refines h a) :
    h.Current := by
  refine ⟨fun b r hb hs => hr.inv.list.ofRef b r (mem_liveRefs.mpr ⟨hb, hs⟩), fun b => ?_⟩
  rw [hr.live_eq b]
  exact Int.natCast_nonneg _

/-- The keys in buckets up to `high` are those of held entries there. -/
theorem Refines.entries {h : CombiningHold α} {a : KeyedHold UInt64 α} (hr : Refines h a)
    {high : ℤ} :
    ∀ {ks : List UInt64}, (∀ k ∈ ks, k ∈ a.order 0 (high + 1).toNat) →
      ∃ es : List ℕ, es.map h.keys = ks ∧ ∀ e ∈ es, h.Held e ∧ (h.buckets e : ℤ) ≤ high := by
  intro ks
  induction ks with
  | nil => intro _; exact ⟨[], rfl, by simp⟩
  | cons k ks ih =>
    intro hks
    obtain ⟨es, hes, hheld⟩ := ih fun k' h' => hks k' (List.mem_cons_of_mem _ h')
    obtain ⟨c, -, hc, hk⟩ := a.mem_order.mp (hks k (List.mem_cons_self ..))
    obtain ⟨x, hx⟩ := a.item_of_mem hk
    obtain ⟨e, he, hkey, -, hb⟩ := hr.held_of_item hx
    refine ⟨e :: es, by rw [List.map_cons, hkey, hes], fun e' he' => ?_⟩
    rcases List.mem_cons.mp he' with rfl | he'
    · exact ⟨he, by omega⟩
    · exact hheld e' he'

theorem Refines.emitsHeld {h : CombiningHold α} {a : KeyedHold UInt64 α} (hr : Refines h a)
    {high limit : ℤ} (hf : h.ReleaseSafe high limit) : h.EmitsHeld high limit := by
  obtain ⟨hout, -, -⟩ := release_refines hr hf
  have hnd : ((a.order 0 (high + 1).toNat).take limit.toNat).Nodup :=
    (a.order_nodup _ 0).sublist (List.take_sublist ..)
  obtain ⟨es, hes, hheld⟩ := hr.entries fun k hk => List.mem_of_mem_take hk
  refine ⟨es, List.Nodup.of_map h.keys (by rwa [hes]), hheld, ?_⟩
  rw [hout, emittedOf_pairs _ _ hnd, ← hes, List.filterMap_map]
  rw [← List.filterMap_eq_map]
  apply List.filterMap_congr
  intro e he
  exact hr.item e (hheld e he).1

/-! ## Runs -/

/-- No call of the run meets a reference that is about to be taken for current. -/
def CallsSafe [Inhabited α] (ops : HoldOps α) (h : CombiningHold α) (cs : List (Call α)) : Prop :=
  ∀ xs c, xs ++ [c] <+: cs → (h.after ops xs).CallSafe ops c

theorem CallsSafe.cons [Inhabited α] {ops : HoldOps α} {h : CombiningHold α} {c : Call α}
    {cs : List (Call α)} (hs : h.CallsSafe ops (c :: cs)) :
    h.CallSafe ops c ∧ (h.call ops c).1.CallsSafe ops cs := by
  constructor
  · exact hs [] c ⟨cs, rfl⟩
  · intro xs c' hpre
    exact hs (c :: xs) c' (List.cons_prefix_cons.mpr ⟨rfl, hpre⟩)

theorem InRange.cons {buckets : ℕ} {c : Call α} {cs : List (Call α)}
    (hb : InRange buckets (c :: cs)) : InRange buckets [c] ∧ InRange buckets cs :=
  ⟨fun item b hm => hb item b (List.mem_cons.mpr (Or.inl (List.mem_singleton.mp hm))),
    fun item b hm => hb item b (List.mem_cons_of_mem _ hm)⟩

theorem after_refines [Inhabited α] (ops : HoldOps α) {buckets : ℕ} :
    ∀ (cs : List (Call α)) {h : CombiningHold α} {a : KeyedHold UInt64 α}, Refines h a →
      h.bucketCount = buckets → InRange buckets cs → h.CallsSafe ops cs →
      ∃ a', Refines (h.after ops cs) a' := by
  intro cs
  induction cs with
  | nil => intro h a hr _ _ _; exact ⟨a, hr⟩
  | cons c cs ih =>
    intro h a hr hcount hb hs
    obtain ⟨hb1, hb⟩ := InRange.cons hb
    obtain ⟨hs1, hs⟩ := hs.cons
    obtain ⟨hr', -, hcount'⟩ := call_refines hr ops (by rwa [hcount]) hs1
    exact ih hr' (hcount'.trans hcount) hb hs

/-- Fewer than `2 ^ 31` inserts are such a run. -/
theorem callsSafe_of_few [Inhabited α] (ops : HoldOps α) {buckets : ℕ} :
    ∀ (cs : List (Call α)) {n : ℕ} {h : CombiningHold α} {a : KeyedHold UInt64 α},
      Running buckets n h a → InRange buckets cs → n + inserts cs < 2 ^ 31 →
      h.CallsSafe ops cs := by
  intro cs
  induction cs with
  | nil =>
    intro n h a _ _ _ xs c hpre
    exact absurd (List.prefix_nil.mp hpre) (by simp)
  | cons c cs ih =>
    intro n h a hs hb hn
    rw [inserts_cons] at hn
    obtain ⟨hb1, hb⟩ := InRange.cons hb
    obtain ⟨hs', -⟩ := call_step hs ops hb1 (by omega)
    have htail := ih hs' hb (by omega)
    intro xs c' hpre
    cases xs with
    | nil =>
      obtain ⟨rfl, -⟩ := List.cons_prefix_cons.mp hpre
      exact hs.callSafe ops (by omega)
    | cons x xs =>
      obtain ⟨rfl, hrest⟩ := List.cons_prefix_cons.mp hpre
      exact htail xs c' hrest

/-- As long as no reference is about to be taken for current, in a run of any length: in the
    state reached every current reference names an entry held in its bucket, no count is
    negative and every loop has ended; and each release has emitted held items only, of
    buckets up to its `high`. -/
theorem current_refs [Inhabited α] (ops : HoldOps α) {buckets : ℕ} {cs : List (Call α)}
    (hb : InRange buckets cs) (hs : (init buckets).CallsSafe ops cs) :
    ((init buckets).after ops cs).Current ∧ ((init buckets).after ops cs).stuck = false ∧
      ∀ xs high limit, xs ++ [.release high limit] <+: cs →
        ((init buckets).after ops xs).EmitsHeld high limit := by
  have hcount : (init buckets : CombiningHold α).bucketCount = buckets := rebuild_bucketCount ..
  obtain ⟨a, hr⟩ := after_refines ops cs (init_refines buckets) hcount hb hs
  refine ⟨hr.current, hr.inv.table.stuck, fun xs high limit hpre => ?_⟩
  have hxs : xs <+: cs := (List.prefix_append xs _).trans hpre
  obtain ⟨a', hr'⟩ := after_refines ops xs (init_refines buckets) hcount
    (fun item b hm => hb item b (hxs.subset hm))
    fun ys c hys => hs ys c (hys.trans hxs)
  exact hr'.emitsHeld (hs xs (.release high limit) hpre)

/-- An item that moves, and the release of the bucket that it has left. -/
theorem current_refs_three :
    ((init 8).after minOps
      [.insert ⟨1, 7⟩ 3, .insert ⟨1, 5⟩ 5, .release 3 4]).Current ∧
    ((init 8).after minOps [.insert ⟨1, 7⟩ 3, .insert ⟨1, 5⟩ 5]).EmitsHeld 3 4 := by
  have hb : InRange 8 [.insert (⟨1, 7⟩ : KeyValue) 3, .insert ⟨1, 5⟩ 5, .release 3 4] := by
    intro item b hm
    simp at hm
    omega
  have hrun : Running 8 0 (init 8 : CombiningHold KeyValue) KeyedHold.empty :=
    ⟨init_refines 8, rebuild_bucketCount .., init_early 8⟩
  obtain ⟨hcur, -, hemits⟩ :=
    current_refs minOps hb (callsSafe_of_few minOps _ hrun hb (by decide))
  exact ⟨hcur, hemits _ 3 4 (List.prefix_refl _)⟩

/-! ## A run that wears a stamp out -/

/-- An item for bucket 2, one for bucket 3 that a smaller one moves to bucket 1, and `n` times
    its release and the next item for bucket 1. -/
def wearing (n : ℕ) : List (Call KeyValue) :=
  [.insert ⟨0, 2⟩ 2, .insert ⟨1, 3⟩ 3, .insert ⟨1, 1⟩ 1] ++
    (List.replicate n [.release 1 4, .insert ⟨1, 1⟩ 1]).flatten

theorem after_append [Inhabited α] (ops : HoldOps α) (h : CombiningHold α)
    (cs cs' : List (Call α)) : h.after ops (cs ++ cs') = (h.after ops cs).after ops cs' :=
  List.foldl_append ..

theorem Busy.cycles (n : ℕ) :
    ∀ {s : UInt32} {h : CombiningHold KeyValue}, Busy s h →
      Busy (s + 2 * UInt32.ofNat n)
        (h.after minOps (List.replicate n [.release 1 4, .insert ⟨1, 1⟩ 1]).flatten) := by
  induction n with
  | zero =>
    intro s h hb
    show Busy (s + 0) h
    rwa [UInt32.add_zero]
  | succ n ih =>
    intro s h hb
    obtain ⟨h', m, hrel, hworn, -⟩ := hb.release
    obtain ⟨h'', hins, hbusy, -⟩ := hworn.put
    have hstep : h.after minOps [.release 1 4, .insert ⟨1, 1⟩ 1] = h'' := by
      show ((h.release 1 4).1.insert minOps ⟨1, 1⟩ 1).1 = h''
      rw [hrel, hins]
    have hstamp : s + 1 + 1 + 2 * UInt32.ofNat n = s + 2 * UInt32.ofNat (n + 1) := by
      rw [UInt32.ofNat_add]
      grind
    rw [List.replicate_succ, List.flatten_cons, after_append, hstep, ← hstamp]
    exact ih hbusy

theorem wearing_busy (n : ℕ) :
    Busy (2 + 2 * UInt32.ofNat n) ((init 8).after minOps (wearing n)) := by
  obtain ⟨h₁, h₂, h₃, hins₁, -, hins₂, -, hins₃, hbusy, -⟩ := init_busy
  have hstart : (init 8).after minOps [.insert ⟨0, 2⟩ 2, .insert ⟨1, 3⟩ 3, .insert ⟨1, 1⟩ 1] =
      h₃ := by
    show ((((init 8).insert minOps ⟨0, 2⟩ 2).1.insert minOps ⟨1, 3⟩ 3).1.insert minOps ⟨1, 1⟩
      1).1 = h₃
    rw [hins₁, hins₂, hins₃]
  unfold wearing
  rw [after_append, hstart]
  exact hbusy.cycles n

theorem wearing_inRange (n : ℕ) : InRange 8 (wearing n) := by
  intro item b hm
  unfold wearing at hm
  simp only [List.mem_append, List.mem_flatten, List.mem_replicate] at hm
  rcases hm with hm | ⟨l, ⟨-, rfl⟩, hm⟩
  · simp at hm
    omega
  · simp at hm
    omega

/-- After `wearing n` the stamp of the second entry may be about to wrap: the item is released,
    an item with its key enters bucket 7 and a smaller one moves it to bucket 5. -/
def worn (n : ℕ) : List (Call KeyValue) :=
  wearing n ++ [.release 1 4, .insert ⟨1, 7⟩ 7, .insert ⟨1, 5⟩ 5]

theorem worn_inRange (n : ℕ) : InRange 8 (worn n) := by
  intro item b hm
  rcases List.mem_append.mp hm with hm | hm
  · exact wearing_inRange n item b hm
  · simp at hm
    omega

/-- The reference left in bucket 3 is current again and names an entry of bucket 5, which a
    release of bucket 3 emits. -/
theorem worn_mistaken {n : ℕ} (hstamp : 2 + 2 * UInt32.ofNat n + 1 = -1) :
    ¬ ((init 8).after minOps (worn n)).Current ∧
      ∃ x ∈ (((init 8).after minOps (worn n)).release 3 4).2, x.item = ⟨1, 5⟩ ∧ x.bucket = 5 := by
  obtain ⟨h, m₀, hrel, hworn, -⟩ := (wearing_busy n).release
  rw [hstamp] at hworn
  obtain ⟨h₁, h₂, hins₁, -, hins₂, hp₂, hbucket₂, -⟩ := Worn.moved hworn
  obtain ⟨_, _, h₃, x, b, m, m', hins₁', -, hins₂', -, -, hrel₃, -⟩ := Worn.early hworn
  have hlast : ((init 8).after minOps (wearing n)).after minOps
      [.release 1 4, .insert ⟨1, 7⟩ 7, .insert ⟨1, 5⟩ 5] = h₂ := by
    generalize (init 8).after minOps (wearing n) = h₀ at hrel
    show (((h₀.release 1 4).1.insert minOps ⟨1, 7⟩ 7).1.insert minOps ⟨1, 5⟩ 5).1 = h₂
    rw [hrel, hins₁, hins₂]
  have hafter : (init 8).after minOps (worn n) = h₂ := by
    unfold worn
    rw [after_append, hlast]
  rw [hins₁] at hins₁'
  cases hins₁'
  rw [hins₂] at hins₂'
  cases hins₂'
  rw [hafter]
  constructor
  · intro hcur
    have hmem : (⟨1, 1⟩ : Ref) ∈ h₂.lists 3 := by
      rw [hp₂.lists]
      decide
    have := (hcur.ref 3 ⟨1, 1⟩ hmem hp₂.stamp'.symm).2
    rw [hbucket₂] at this
    omega
  · rw [hrel₃]
    exact ⟨⟨⟨1, 5⟩, 5, m'⟩, by simp, rfl, rfl⟩

/-- `2 ^ 31 - 2` rounds wear the stamp out. -/
theorem mistakenRun_mistaken :
    InRange 8 (worn 2147483646) ∧ ¬ ((init 8).after minOps (worn 2147483646)).Current ∧
      ∃ x ∈ (((init 8).after minOps (worn 2147483646)).release 3 4).2,
        x.item = ⟨1, 5⟩ ∧ x.bucket = 5 := by
  have hstamp : 2 + 2 * UInt32.ofNat 2147483646 + 1 = -1 := by decide
  obtain ⟨hcur, hemits⟩ := worn_mistaken hstamp
  exact ⟨worn_inRange _, hcur, hemits⟩

end CombiningHold

end Htram
