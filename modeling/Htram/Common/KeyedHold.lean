import Mathlib.Data.Int.Notation
import Mathlib.Data.List.Basic
import Mathlib.Data.List.Nodup
import Mathlib.Logic.Function.Basic
import Mathlib.Tactic.SplitIfs
import Mathlib.Tactic.Common

/-!
# Keyed priority holds

What a hold that combines items by key is for: a map from each held key to its
item and its bucket, and for each bucket the order in which the keys now in it
last entered it. Both views are one value, and the structure carries the proof
that they agree.

* `insert`: add an item, or fold it into the one its key already holds.
* `release`: take the first items of the buckets up to a bound, lowest bucket
  first and in arrival order within a bucket.
-/

/-- Items held by key, each in a bucket, with the arrival order of each bucket. -/
structure KeyedHold (κ α : Type*) where
  item : κ → Option (α × ℕ)
  queue : ℕ → List κ
  mem_queue : ∀ k b, k ∈ queue b ↔ ∃ x, item k = some (x, b)
  nodup : ∀ b, (queue b).Nodup

namespace KeyedHold

variable {κ α : Type*}

/-- The hold of nothing. -/
def empty : KeyedHold κ α where
  item := fun _ => none
  queue := fun _ => []
  mem_queue := by simp
  nodup := by simp

instance : Inhabited (KeyedHold κ α) := ⟨empty⟩

theorem item_of_mem (a : KeyedHold κ α) {k : κ} {b : ℕ} (h : k ∈ a.queue b) :
    ∃ x, a.item k = some (x, b) :=
  (a.mem_queue k b).mp h

theorem mem_of_item (a : KeyedHold κ α) {k : κ} {x : α} {b : ℕ} (h : a.item k = some (x, b)) :
    k ∈ a.queue b :=
  (a.mem_queue k b).mpr ⟨x, h⟩

/-- A key is in one bucket only. -/
theorem bucket_unique (a : KeyedHold κ α) {k : κ} {b b' : ℕ} (h : k ∈ a.queue b)
    (h' : k ∈ a.queue b') : b = b' := by
  obtain ⟨x, hx⟩ := a.item_of_mem h
  obtain ⟨y, hy⟩ := a.item_of_mem h'
  rw [hx] at hy; cases hy; rfl

theorem notMem_of_item_none (a : KeyedHold κ α) {k : κ} (h : a.item k = none) (b : ℕ) :
    k ∉ a.queue b := by
  intro hk
  obtain ⟨x, hx⟩ := a.item_of_mem hk
  rw [h] at hx; cases hx

/-- The keys in `n` buckets from `b`, lowest bucket first. -/
def order (a : KeyedHold κ α) (b n : ℕ) : List κ := (List.range' b n).flatMap a.queue

theorem order_succ (a : KeyedHold κ α) (b n : ℕ) :
    a.order b (n + 1) = a.queue b ++ a.order (b + 1) n := by
  unfold order; rw [List.range'_succ]; rfl

theorem mem_order (a : KeyedHold κ α) {b n : ℕ} {k : κ} :
    k ∈ a.order b n ↔ ∃ c, b ≤ c ∧ c < b + n ∧ k ∈ a.queue c := by
  unfold order
  simp only [List.mem_flatMap, List.mem_range'_1]
  exact ⟨fun ⟨c, ⟨h1, h2⟩, h3⟩ => ⟨c, h1, h2, h3⟩, fun ⟨c, h1, h2, h3⟩ => ⟨c, ⟨h1, h2⟩, h3⟩⟩

theorem order_nodup (a : KeyedHold κ α) : ∀ n b, (a.order b n).Nodup := by
  intro n
  induction n with
  | zero => intro b; exact List.nodup_nil
  | succ n ih =>
    intro b
    rw [order_succ, List.nodup_append]
    refine ⟨a.nodup b, ih (b + 1), ?_⟩
    rintro k hk k' hk' rfl
    obtain ⟨c, hc, -, hkc⟩ := a.mem_order.mp hk'
    have := a.bucket_unique hk hkc
    omega

/-- Buckets that hold nothing do not matter to the order. -/
theorem order_congr (a : KeyedHold κ α) {b n b' n' : ℕ}
    (h : ∀ c, a.queue c ≠ [] → (b ≤ c ∧ c < b + n ↔ b' ≤ c ∧ c < b' + n')) :
    a.order b n = a.order b' n' := by
  have key : ∀ b n, a.order b n =
      ((List.range' b n).filter fun c => a.queue c ≠ []).flatMap a.queue := by
    intro b n
    unfold order
    induction List.range' b n with
    | nil => rfl
    | cons c l ih =>
      rw [List.flatMap_cons, ih]
      by_cases hc : a.queue c = []
      · simp [hc]
      · simp [hc]
  rw [key b n, key b' n']
  congr 1
  have hlt : ∀ b n, (List.range' b n).Pairwise (· < ·) := fun b n => List.pairwise_lt_range' ..
  refine List.Perm.eq_of_pairwise ?_ ((hlt b n).filter _) ((hlt b' n').filter _) ?_
  · intro x y _ _ hxy hyx; omega
  · apply (List.perm_ext_iff_of_nodup ((List.nodup_range' ..).filter _)
      ((List.nodup_range' ..).filter _)).mpr
    intro c
    simp only [List.mem_filter, List.mem_range'_1, ne_eq, decide_not, Bool.not_eq_eq_eq_not,
      Bool.not_true, decide_eq_false_iff_not]
    constructor
    · rintro ⟨h1, h2⟩; exact ⟨(h c h2).mp h1, h2⟩
    · rintro ⟨h1, h2⟩; exact ⟨(h c h2).mpr h1, h2⟩

/-- The keys `ks` with their items. -/
def pairs (a : KeyedHold κ α) (ks : List κ) : List (κ × α) :=
  ks.filterMap fun k => (a.item k).map fun p => (k, p.1)

/-- The keys of bucket `b` with their items, in arrival order. -/
def entries (a : KeyedHold κ α) (b : ℕ) : List (κ × α) := a.pairs (a.queue b)

theorem pairs_append (a : KeyedHold κ α) (ks ks' : List κ) :
    a.pairs (ks ++ ks') = a.pairs ks ++ a.pairs ks' := List.filterMap_append

theorem pairs_cons (a : KeyedHold κ α) {k : κ} {x : α} {b : ℕ} (h : a.item k = some (x, b))
    (ks : List κ) : a.pairs (k :: ks) = (k, x) :: a.pairs ks := by
  simp [pairs, h]

theorem pairs_congr {a a' : KeyedHold κ α} {ks : List κ}
    (h : ∀ k ∈ ks, (a'.item k).map Prod.fst = (a.item k).map Prod.fst) :
    a'.pairs ks = a.pairs ks := by
  refine List.filterMap_congr fun k hk => ?_
  have := congrArg (Option.map (Prod.mk k)) (h k hk)
  rwa [Option.map_map, Option.map_map] at this

theorem pairs_length (a : KeyedHold κ α) {ks : List κ} (h : ∀ k ∈ ks, a.item k ≠ none) :
    (a.pairs ks).length = ks.length := by
  induction ks with
  | nil => rfl
  | cons k ks ih =>
    obtain ⟨p, hp⟩ := Option.ne_none_iff_exists'.mp (h k (List.mem_cons_self ..))
    rw [a.pairs_cons (x := p.1) (b := p.2) hp, List.length_cons,
      ih fun k' hk' => h k' (List.mem_cons_of_mem _ hk'), List.length_cons]

theorem entries_length (a : KeyedHold κ α) (b : ℕ) : (a.entries b).length = (a.queue b).length := by
  refine a.pairs_length fun k hk => ?_
  obtain ⟨x, hx⟩ := a.item_of_mem hk
  simp [hx]

theorem entries_eq_nil (a : KeyedHold κ α) {b : ℕ} : a.entries b = [] ↔ a.queue b = [] := by
  rw [← List.length_eq_zero_iff, a.entries_length, List.length_eq_zero_iff]

variable [DecidableEq κ]

/-- `x` enters bucket `b` under a key that is not held. -/
def add (a : KeyedHold κ α) (k : κ) (x : α) (b : ℕ) (h : a.item k = none) : KeyedHold κ α where
  item := Function.update a.item k (some (x, b))
  queue := Function.update a.queue b (a.queue b ++ [k])
  mem_queue := by
    intro k' b'
    have hno := a.notMem_of_item_none h
    have hmem := a.mem_queue k' b'
    by_cases hk : k' = k
    · subst hk
      by_cases hb : b' = b
      · subst hb; simp
      · rw [Function.update_of_ne hb, Function.update_self]
        simp [hno b', Ne.symm hb]
    · rw [Function.update_of_ne hk, ← hmem]
      by_cases hb : b' = b
      · subst hb; simp [hk]
      · rw [Function.update_of_ne hb]
  nodup := by
    intro b'
    by_cases hb : b' = b
    · subst hb
      rw [Function.update_self, List.nodup_append]
      refine ⟨a.nodup b', by simp, ?_⟩
      rintro y hy z hz rfl
      rw [List.mem_singleton.mp hz] at hy
      exact a.notMem_of_item_none h b' hy
    · rw [Function.update_of_ne hb]; exact a.nodup b'

/-- The item of a held key becomes `y`, in place. -/
def replace (a : KeyedHold κ α) (k : κ) (y : α) : KeyedHold κ α where
  item := Function.update a.item k ((a.item k).map fun p => (y, p.2))
  queue := a.queue
  mem_queue := by
    intro k' b'
    by_cases hk : k' = k
    · subst hk
      rw [Function.update_self, a.mem_queue]
      cases a.item k' with
      | none => simp
      | some p => obtain ⟨z, c⟩ := p; simp
    · rw [Function.update_of_ne hk]; exact a.mem_queue k' b'
  nodup := a.nodup

/-- The key leaves the hold. -/
def erase (a : KeyedHold κ α) (k : κ) : KeyedHold κ α where
  item := Function.update a.item k none
  queue := fun b => (a.queue b).erase k
  mem_queue := by
    intro k' b'
    rw [(a.nodup b').mem_erase_iff]
    by_cases hk : k' = k
    · subst hk; simp
    · rw [Function.update_of_ne hk, ← a.mem_queue]; simp [hk]
  nodup := fun b => (a.nodup b).erase k

@[simp] theorem erase_item_self (a : KeyedHold κ α) (k : κ) : (a.erase k).item k = none :=
  Function.update_self ..

/-- The item of `k` becomes `y`, at the back of bucket `b`. -/
def move (a : KeyedHold κ α) (k : κ) (y : α) (b : ℕ) : KeyedHold κ α :=
  (a.erase k).add k y b (a.erase_item_self k)

/-- Add an item for key `k` at bucket `b`, or fold it into the item already held:
    `combine` gives the survivor, what is retired, and whether the survivor is to
    be found at bucket `b`. Also returns the bucket before and after, and what was
    retired. -/
def insert (combine : α → α → α × α × Bool) (a : KeyedHold κ α) (k : κ) (x : α) (b : ℕ) :
    KeyedHold κ α × Option ℕ × ℕ × List α :=
  match h : a.item k with
  | none => (a.add k x b h, none, b, [])
  | some (y, old) =>
    let (held, retired, moved) := combine y x
    if moved ∧ b ≠ old then (a.move k held b, some old, b, [retired])
    else (a.replace k held, some old, old, [retired])

theorem insert_of_none (combine : α → α → α × α × Bool) (a : KeyedHold κ α) {k : κ}
    (h : a.item k = none) (x : α) (b : ℕ) :
    a.insert combine k x b = (a.add k x b h, none, b, []) := by
  unfold insert
  split
  · rfl
  · next h' => rw [h] at h'; cases h'

theorem insert_of_some (combine : α → α → α × α × Bool) (a : KeyedHold κ α) {k : κ} {y : α}
    {old : ℕ} (h : a.item k = some (y, old)) (x : α) (b : ℕ) :
    a.insert combine k x b =
      if (combine y x).2.2 ∧ b ≠ old then
        (a.move k (combine y x).1 b, some old, b, [(combine y x).2.1])
      else (a.replace k (combine y x).1, some old, old, [(combine y x).2.1]) := by
  unfold insert
  split
  · next h' => rw [h] at h'; cases h'
  · next h' => rw [h] at h'; cases h'; rfl

/-- What `combine` is called with when an item `x` for key `k` arrives. -/
def folded (a : KeyedHold κ α) (k : κ) (x : α) : List (α × α) :=
  ((a.item k).map fun p => (p.1, x)).toList

/-- The keys leave the hold. -/
def eraseAll (a : KeyedHold κ α) (ks : List κ) : KeyedHold κ α := ks.foldl erase a

/-- Take the first `limit` items of the buckets up to `high`. -/
def release (a : KeyedHold κ α) (high limit : ℤ) : KeyedHold κ α × List α :=
  let ks := (a.order 0 (high + 1).toNat).take limit.toNat
  (a.eraseAll ks, ks.filterMap fun k => (a.item k).map Prod.fst)

/-! ## How the operations change the queues -/

/-- Erasing keys of other buckets leaves a queue alone. -/
theorem erase_queue_of_notMem (a : KeyedHold κ α) {k : κ} {b : ℕ} (h : k ∉ a.queue b) :
    (a.erase k).queue b = a.queue b :=
  List.erase_of_not_mem h

theorem erase_item_of_ne (a : KeyedHold κ α) {k k' : κ} (h : k' ≠ k) :
    (a.erase k).item k' = a.item k' :=
  Function.update_of_ne h ..

theorem eraseAll_cons (a : KeyedHold κ α) (k : κ) (ks : List κ) :
    a.eraseAll (k :: ks) = (a.erase k).eraseAll ks := rfl

theorem eraseAll_append (a : KeyedHold κ α) (ks ks' : List κ) :
    a.eraseAll (ks ++ ks') = (a.eraseAll ks).eraseAll ks' := List.foldl_append ..

theorem eraseAll_queue :
    ∀ (ks : List κ) (a : KeyedHold κ α) (b : ℕ),
      (a.eraseAll ks).queue b = (a.queue b).filter (· ∉ ks) := by
  intro ks
  induction ks with
  | nil => intro a b; simp [eraseAll]
  | cons k ks ih =>
    intro a b
    rw [eraseAll_cons, ih]
    show ((a.queue b).erase k).filter _ = _
    rw [(a.nodup b).erase_eq_filter, List.filter_filter]
    apply List.filter_congr
    intro x _
    by_cases hx : x = k <;> simp [hx]

/-- Buckets whose keys are all erased are empty. -/
theorem entries_eraseAll_order (a : KeyedHold κ α) {b n : ℕ} (hb : b < n) :
    (a.eraseAll (a.order 0 n)).entries b = [] := by
  rw [entries_eq_nil, eraseAll_queue, List.filter_eq_nil_iff]
  intro k hk
  have hmem : k ∈ a.order 0 n := a.mem_order.mpr ⟨b, Nat.zero_le _, by omega, hk⟩
  simp [hmem]

/-- Keys above the buckets being drained stay where they are. -/
theorem eraseAll_queue_of_disjoint {b : ℕ} :
    ∀ (ks : List κ) (a : KeyedHold κ α), (∀ k ∈ ks, k ∉ a.queue b) →
      (a.eraseAll ks).queue b = a.queue b := by
  intro ks
  induction ks with
  | nil => intro a _; rfl
  | cons k ks ih =>
    intro a h
    have hk := a.erase_queue_of_notMem (h k (List.mem_cons_self ..))
    rw [eraseAll_cons, ih, hk]
    intro k' hk'
    rw [hk]
    exact h k' (List.mem_cons_of_mem _ hk')

/-! ## How the operations change the entries -/

theorem entries_add (a : KeyedHold κ α) {k : κ} (x : α) (b : ℕ) (h : a.item k = none) :
    (a.add k x b h).entries = Function.update a.entries b (a.entries b ++ [(k, x)]) := by
  have hold : ∀ c, (a.add k x b h).pairs (a.queue c) = a.pairs (a.queue c) := by
    intro c
    refine pairs_congr fun k' hk' => ?_
    have hne : k' ≠ k := by
      rintro rfl
      exact a.notMem_of_item_none h c hk'
    simp [add, Function.update_of_ne hne]
  funext c
  by_cases hc : c = b
  · subst hc
    have hitem : (a.add k x c h).item k = some (x, c) := Function.update_self ..
    rw [Function.update_self]
    show (a.add k x c h).pairs (Function.update a.queue c (a.queue c ++ [k]) c) = _
    rw [Function.update_self, pairs_append, hold, pairs_cons _ hitem]
    rfl
  · rw [Function.update_of_ne hc]
    show (a.add k x b h).pairs (Function.update a.queue b (a.queue b ++ [k]) c) = _
    rw [Function.update_of_ne hc, hold]
    rfl

theorem erase_pairs (a : KeyedHold κ α) {k : κ} {ks : List κ} (hks : k ∉ ks) :
    (a.erase k).pairs ks = a.pairs ks := by
  refine pairs_congr fun k' hk' => ?_
  rw [erase_item_of_ne _ (by rintro rfl; exact hks hk')]

/-- Taking the first key of a bucket. -/
theorem entries_erase_head (a : KeyedHold κ α) {k : κ} {x : α} {b : ℕ} {q : List κ}
    (hq : a.queue b = k :: q) (h : a.item k = some (x, b)) :
    a.entries b = (k, x) :: a.pairs q ∧
      (a.erase k).entries = Function.update a.entries b (a.pairs q) := by
  refine ⟨by rw [entries, hq, a.pairs_cons h], funext fun c => ?_⟩
  have hnd := a.nodup b
  rw [hq] at hnd
  by_cases hc : c = b
  · subst hc
    rw [Function.update_self]
    show (a.erase k).pairs ((a.queue c).erase k) = _
    rw [hq, List.erase_cons_head, a.erase_pairs (List.nodup_cons.mp hnd).1]
  · have hk : k ∉ a.queue c := fun hk => hc (a.bucket_unique hk (a.mem_of_item h))
    rw [Function.update_of_ne hc]
    show (a.erase k).pairs ((a.queue c).erase k) = _
    rw [List.erase_of_not_mem hk]
    exact a.erase_pairs hk

/-- A held key splits the entries of its bucket. -/
theorem entries_split (a : KeyedHold κ α) {k : κ} {y : α} {b : ℕ} (h : a.item k = some (y, b)) :
    ∃ l r, a.entries b = l ++ (k, y) :: r ∧
      (∀ z, (a.replace k z).entries = Function.update a.entries b (l ++ (k, z) :: r)) ∧
      (a.erase k).entries = Function.update a.entries b (l ++ r) := by
  obtain ⟨q1, q2, hq⟩ := List.append_of_mem (a.mem_of_item h)
  have hnd := a.nodup b
  rw [hq] at hnd
  have h1 : k ∉ q1 := fun hk => List.disjoint_of_nodup_append hnd hk (List.mem_cons_self ..)
  have h2 : k ∉ q2 := (List.nodup_cons.mp hnd.of_append_right).1
  have hother : ∀ c ≠ b, k ∉ a.queue c := fun c hc hk =>
    hc (a.bucket_unique hk (a.mem_of_item h))
  have hrep : ∀ z ks, k ∉ ks → (a.replace k z).pairs ks = a.pairs ks := by
    intro z ks hks
    refine pairs_congr fun k' hk' => ?_
    have hne : k' ≠ k := by rintro rfl; exact hks hk'
    simp [replace, Function.update_of_ne hne]
  refine ⟨a.pairs q1, a.pairs q2, ?_, fun z => ?_, ?_⟩
  · rw [entries, hq, pairs_append, pairs_cons _ h]
  · have hz : (a.replace k z).item k = some (z, b) := by
      simp [replace, h]
    funext c
    by_cases hc : c = b
    · subst hc
      rw [Function.update_self]
      show (a.replace k z).pairs (a.queue c) = _
      rw [hq, pairs_append, pairs_cons _ hz, hrep z q1 h1, hrep z q2 h2]
    · rw [Function.update_of_ne hc]
      exact hrep z _ (hother c hc)
  · funext c
    by_cases hc : c = b
    · subst hc
      rw [Function.update_self]
      show (a.erase k).pairs ((a.queue c).erase k) = _
      rw [hq, List.erase_append_right _ h1, List.erase_cons_head, pairs_append, a.erase_pairs h1,
        a.erase_pairs h2]
    · rw [Function.update_of_ne hc]
      show (a.erase k).pairs ((a.queue c).erase k) = _
      rw [List.erase_of_not_mem (hother c hc)]
      exact a.erase_pairs (hother c hc)

theorem entries_move (a : KeyedHold κ α) {k : κ} (z : α) {b c : ℕ} (hbc : b ≠ c)
    {m : List (κ × α)} (hm : (a.erase k).entries = Function.update a.entries c m) :
    (a.move k z b).entries =
      Function.update (Function.update a.entries c m) b (a.entries b ++ [(k, z)]) := by
  unfold move
  rw [entries_add, hm, Function.update_of_ne hbc]

/-- The first key in order heads the lowest bucket that is not empty. -/
theorem order_head (a : KeyedHold κ α) {k : κ} {l : List κ} :
    ∀ {n s : ℕ}, a.order s n = k :: l →
      ∃ b q, s ≤ b ∧ b < s + n ∧ a.queue b = k :: q ∧ (∀ c, s ≤ c → c < b → a.queue c = []) ∧
        (a.erase k).order s n = l := by
  intro n
  induction n with
  | zero => intro s h; cases h
  | succ n ih =>
    intro s h
    rw [order_succ] at h
    cases hq : a.queue s with
    | nil =>
      rw [hq, List.nil_append] at h
      obtain ⟨b, q, h1, h2, h3, h4, h5⟩ := ih h
      refine ⟨b, q, by omega, by omega, h3, fun c hc hcb => ?_, ?_⟩
      · rcases Nat.eq_or_lt_of_le hc with rfl | hc
        · exact hq
        · exact h4 c hc hcb
      · rw [order_succ, h5]
        show (a.queue s).erase k ++ l = l
        rw [hq]; rfl
    | cons k' q =>
      rw [hq] at h
      obtain ⟨rfl, rfl⟩ : k' = k ∧ q ++ a.order (s + 1) n = l := by simpa using h
      refine ⟨s, q, Nat.le_refl s, by omega, hq, fun c hc hcb => absurd hcb (by omega), ?_⟩
      have hk : k' ∈ a.queue s := hq ▸ List.mem_cons_self ..
      rw [order_succ]
      congr 1
      · show (a.queue s).erase k' = q
        rw [hq, List.erase_cons_head]
      · unfold order
        refine List.flatMap_congr fun c hc => ?_
        refine a.erase_queue_of_notMem fun hkc => ?_
        have := a.bucket_unique hk hkc
        have := (List.mem_range'_1.mp hc).1
        omega

/-- Erasing the first keys in order leaves the others, in order. -/
theorem order_eraseAll_prefix {n s : ℕ} {l : List κ} :
    ∀ (ks : List κ) (a : KeyedHold κ α), a.order s n = ks ++ l →
      (a.eraseAll ks).order s n = l := by
  intro ks
  induction ks with
  | nil => intro a h; exact h
  | cons k ks ih =>
    intro a h
    obtain ⟨b, q, -, -, -, -, hrest⟩ := a.order_head h
    exact ih _ hrest

end KeyedHold
