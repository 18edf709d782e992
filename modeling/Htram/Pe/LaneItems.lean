import Htram.Pe.LaneInv
import Mathlib.Data.Multiset.AddSub
import Mathlib.Algebra.Order.Group.Multiset
import Mathlib.Tactic.Abel

/-!
# Where the items of a lane are

* `Path.items`: the items taken in are those held, in the buffer, shipped or retired,
  each as often as it was taken in.
* `Path.dominated`: with a `combine` that keeps the better item, a retired item leaves
  one behind that is at least as good.
-/

namespace Htram

variable {α : Type*}

/-- The items of a bucket. -/
def bagged (l : List (UInt64 × α)) : Multiset α := (l.map Prod.snd : List α)

@[simp] theorem bagged_nil : bagged ([] : List (UInt64 × α)) = 0 := rfl

@[simp] theorem bagged_cons (e : UInt64 × α) (l : List (UInt64 × α)) :
    bagged (e :: l) = {e.2} + bagged l := rfl

@[simp] theorem bagged_append (l r : List (UInt64 × α)) :
    bagged (l ++ r) = bagged l + bagged r := by
  simp [bagged]

/-- The items in the buckets below `n`. -/
def heldItems (n : ℕ) (held : ℕ → List (UInt64 × α)) : Multiset α :=
  ∑ b ∈ Finset.range n, bagged (held b)

theorem heldItems_update (held : ℕ → List (UInt64 × α)) {n b : ℕ} (hb : b < n)
    (l : List (UInt64 × α)) :
    heldItems n (Function.update held b l) + bagged (held b) = heldItems n held + bagged l :=
  Rows.sum_update bagged held hb l

theorem mem_heldItems {n : ℕ} {held : ℕ → List (UInt64 × α)} {x : α} :
    x ∈ heldItems n held ↔ ∃ b < n, ∃ k, (k, x) ∈ held b := by
  simp [heldItems, bagged, Multiset.mem_sum]

/-- The items of a buffer or a message. -/
def payloads (l : List (Item α)) : Multiset α := (l.map Item.payload : List α)

@[simp] theorem payloads_nil : payloads ([] : List (Item α)) = 0 := rfl

@[simp] theorem payloads_append (l r : List (Item α)) :
    payloads (l ++ r) = payloads l + payloads r := by
  simp [payloads]

@[simp] theorem payloads_singleton (x : Item α) : payloads [x] = {x.payload} := rfl

/-- The items shipped. -/
def shipped (l : List (Sent α)) : Multiset α := (l.map fun s => payloads s.msg.items).sum

@[simp] theorem shipped_append (l r : List (Sent α)) :
    shipped (l ++ r) = shipped l + shipped r := by
  simp [shipped]

@[simp] theorem shipped_singleton (s : Sent α) : shipped [s] = payloads s.msg.items := by
  simp [shipped]

/-- The items that have not been retired. -/
def Lane.present (cfg : Config α) (L : Lane α) : Multiset α :=
  heldItems cfg.histoBucketCount L.held + payloads L.buffer + shipped L.sent

/-- All items that came into the lane. -/
def Lane.items (cfg : Config α) (L : Lane α) : Multiset α := L.present cfg + L.retired

/-- `combine` keeps exactly its two items. -/
def Config.KeepsBoth (cfg : Config α) : Prop :=
  ∀ y x, ({(cfg.ops.combine y x).1} + {(cfg.ops.combine y x).2.1} : Multiset α) = {y} + {x}

theorem Fillers.items {cfg : Config α} {t : ℤ} {held held' : ℕ → List (UInt64 × α)}
    {fs : List (Item α)} (hf : Fillers cfg t held fs held')
    (hb : ∀ b ≥ cfg.histoBucketCount, held b = []) :
    heldItems cfg.histoBucketCount held' + payloads fs =
      heldItems cfg.histoBucketCount held := by
  induction hf with
  | nil => simp
  | @snoc held' fs b k x rest hfs _ _ hheld ih =>
    have hlt : b < cfg.histoBucketCount := by
      by_contra hge
      rw [hfs.bounded hb b (by omega)] at hheld
      cases hheld
    have h := heldItems_update held' hlt rest
    rw [hheld, bagged_cons, ← add_assoc] at h
    rw [payloads_append, payloads_singleton, ← ih, ← add_right_cancel h]
    abel

/-- Merging buckets does not change a total over all buckets. -/
theorem coarsenHeld_sum {β M : Type*} [AddCommMonoid M] (g : List β → M) (hnil : g [] = 0)
    (happend : ∀ l r, g (l ++ r) = g l + g r) {factor top n : ℕ} (htop : top ≤ n)
    (held : ℕ → List β) :
    ∑ j ∈ Finset.range n, g (coarsenHeld factor top held j) =
      ∑ j ∈ Finset.range n, g (held j) := by
  rw [Finset.sum_congr rfl fun j _ => coarsenHeld_total g hnil happend factor top held j,
    Finset.sum_add_distrib, Finset.sum_comm]
  have hmerged : ∀ i ∈ Finset.range top, (∑ j ∈ Finset.range n,
      if i / factor = j then g (held i) else 0) = g (held i) := by
    intro i hi
    have := Nat.div_le_self i factor
    have := Finset.mem_range.mp hi
    rw [Finset.sum_ite_eq, if_pos (Finset.mem_range.mpr (by omega))]
  have hkept : (∑ j ∈ Finset.range n, if top ≤ j then g (held j) else 0) =
      ∑ j ∈ Finset.Ico top n, g (held j) := by
    rw [← Finset.sum_filter]
    congr 1
    ext j
    simp only [Finset.mem_filter, Finset.mem_range, Finset.mem_Ico]
    omega
  rw [Finset.sum_congr rfl hmerged, hkept, Finset.range_eq_Ico, Finset.range_eq_Ico,
    Finset.sum_Ico_consecutive _ (Nat.zero_le _) htop]

theorem heldItems_coarsen {factor top n : ℕ} (htop : top ≤ n)
    (held : ℕ → List (UInt64 × α)) :
    heldItems n (coarsenHeld factor top held) = heldItems n held :=
  coarsenHeld_sum bagged bagged_nil bagged_append htop held

theorem Config.mergedTop_le (cfg : Config α) (keepTop : Bool) :
    cfg.mergedTop keepTop ≤ cfg.histoBucketCount := by
  unfold Config.mergedTop
  split_ifs <;> omega

/-- Folding a bucket changes what is present by what was held and what survives. -/
theorem heldItems_fold {n c : ℕ} (hc : c < n) {held : ℕ → List (UInt64 × α)}
    {l r : List (UInt64 × α)} {k : UInt64} {y : α} (hheld : held c = l ++ (k, y) :: r) (z : α) :
    heldItems n (Function.update held c (l ++ (k, z) :: r)) + {y} = heldItems n held + {z} := by
  have h := heldItems_update held hc (l ++ (k, z) :: r)
  rw [hheld] at h
  simp only [bagged_append, bagged_cons] at h
  refine add_right_cancel (b := bagged l + bagged r) ?_
  calc _ = heldItems n (Function.update held c (l ++ (k, z) :: r)) +
        (bagged l + ({y} + bagged r)) := by abel
    _ = heldItems n held + (bagged l + ({z} + bagged r)) := h
    _ = _ := by abel

theorem heldItems_foldMove {n b c : ℕ} (hb : b < n) (hc : c < n) (hbc : b ≠ c)
    {held : ℕ → List (UInt64 × α)} {l r : List (UInt64 × α)} {k : UInt64} {y : α}
    (hheld : held c = l ++ (k, y) :: r) (z : α) :
    heldItems n (Function.update (Function.update held c (l ++ r)) b (held b ++ [(k, z)])) + {y} =
      heldItems n held + {z} := by
  have h1 := heldItems_update held hc (l ++ r)
  have h2 := heldItems_update (Function.update held c (l ++ r)) hb (held b ++ [(k, z)])
  rw [Function.update_of_ne hbc] at h2
  rw [hheld] at h1
  simp only [bagged_append, bagged_cons, bagged_nil, add_zero] at h1 h2
  refine add_right_cancel (b := bagged (held b) + (bagged l + bagged r)) ?_
  calc _ = heldItems n (Function.update (Function.update held c (l ++ r)) b
        (held b ++ [(k, z)])) + bagged (held b) + ({y} + (bagged l + bagged r)) := by abel
    _ = heldItems n (Function.update held c (l ++ r)) + (bagged (held b) + {z}) +
        ({y} + (bagged l + bagged r)) := by rw [h2]
    _ = heldItems n (Function.update held c (l ++ r)) + (bagged l + ({y} + bagged r)) +
        (bagged (held b) + {z}) := by abel
    _ = _ := by rw [h1]; abel

/-- The buffer and the messages are not touched by a fold. -/
theorem swap_frame {H H' y z : Multiset α} (h : H' + y = H + z) (P S : Multiset α) :
    H' + P + S + y = H + P + S + z := by
  calc _ = H' + y + (P + S) := by abel
    _ = H + z + (P + S) := by rw [h]
    _ = _ := by abel

/-- What a move does to the items that have not been retired: those taken in are added, or
    one item takes the place of another, which is held. -/
theorem Move.present {cfg : Config α} {R : Rules} {xs : List (Input α)} {L L' : Lane α}
    (hm : Move cfg R xs L L') (hL : L.Valid cfg) :
    (L'.retired = L.retired ∧ L'.present cfg = L.present cfg + (xs.map Input.item : List α)) ∨
      ∃ x b pe y c, R.fold = true ∧ xs = [.send x b pe] ∧ (cfg.ops.key x, y) ∈ L.held c ∧
        L'.retired = L.retired ++ [(cfg.ops.combine y x).2.1] ∧
        L'.present cfg + {y} = L.present cfg + {(cfg.ops.combine y x).1} := by
  unfold Lane.present
  have hlt := hL.bounded
  cases hm with
  | hold _ x b pe hb =>
    have h := heldItems_update L.held hb (L.held b ++ [(cfg.ops.key x, x)])
    rw [bagged_append, ← add_assoc, add_right_comm] at h
    refine Or.inl ⟨rfl, ?_⟩
    rw [add_right_cancel h]
    simp only [bagged_cons, bagged_nil, add_zero, List.map_cons, List.map_nil, Input.item,
      Multiset.coe_singleton]
    abel
  | direct | raw =>
    refine Or.inl ⟨rfl, ?_⟩
    simp only [payloads_append, payloads_singleton, List.map_cons, List.map_nil, Input.item,
      Multiset.coe_singleton]
    abel
  | fold _ x y b c pe l r hf hc _ =>
    have h := heldItems_fold (hlt.lt (by simp [hc])) hc (cfg.ops.combine y x).1
    exact Or.inr ⟨x, b, pe, y, c, hf, rfl, by simp [hc], rfl, swap_frame h _ _⟩
  | foldMove _ x y b c pe l r hf hb hc hmoved =>
    have h := heldItems_foldMove hb (hlt.lt (by simp [hc])) hmoved.2 hc (cfg.ops.combine y x).1
    exact Or.inr ⟨x, b, pe, y, c, hf, rfl, by simp [hc], rfl, swap_frame h _ _⟩
  | take _ b k x rest _ hheld =>
    have h := heldItems_update L.held (hlt.lt (b := b) (by simp [hheld])) rest
    rw [hheld, bagged_cons, ← add_assoc] at h
    refine Or.inl ⟨rfl, ?_⟩
    rw [← add_right_cancel h]
    simp only [payloads_append, payloads_singleton, List.map_nil, Multiset.coe_nil, add_zero]
    abel
  | ship _ s full counted _ hitems =>
    refine Or.inl ⟨rfl, ?_⟩
    simp only [payloads_nil, shipped_append, shipped_singleton, hitems, List.map_nil,
      Multiset.coe_nil, add_zero]
    abel
  | shipFilled _ s fs held' _ _ hfs _ _ hitems =>
    refine Or.inl ⟨rfl, ?_⟩
    rw [← hfs.items hlt]
    simp only [payloads_nil, shipped_append, shipped_singleton, hitems, payloads_append,
      List.map_nil, Multiset.coe_nil, add_zero]
    abel
  | coarsen _ factor _ keepTop _ =>
    refine Or.inl ⟨rfl, ?_⟩
    show heldItems _ (coarsenHeld factor (cfg.mergedTop keepTop) L.held) + _ + _ = _
    rw [heldItems_coarsen (cfg.mergedTop_le keepTop)]
    simp
  | retune | resize | newRound => exact Or.inl ⟨rfl, by simp⟩

theorem Move.items {cfg : Config α} {R : Rules} (hc : R.fold = true → cfg.KeepsBoth)
    {xs : List (Input α)} {L L' : Lane α} (hm : Move cfg R xs L L') (hL : L.Valid cfg) :
    L'.items cfg = L.items cfg + (xs.map Input.item : List α) := by
  unfold Lane.items
  rcases hm.present hL with ⟨hr, hp⟩ | ⟨x, b, pe, y, c, hf, rfl, -, hr, hp⟩
  · rw [hr, hp, add_right_comm]
  · rw [hr]
    refine add_right_cancel (b := {y}) ?_
    have hboth := hc hf y x
    simp only [List.map_cons, List.map_nil, Input.item, Multiset.coe_singleton,
      ← Multiset.coe_add]
    calc _ = L'.present cfg + {y} + L.retired + {(cfg.ops.combine y x).2.1} := by abel
      _ = L.present cfg + L.retired +
          ({(cfg.ops.combine y x).1} + {(cfg.ops.combine y x).2.1}) := by rw [hp]; abel
      _ = _ := by rw [hboth]; abel

/-- No item is lost or duplicated. -/
theorem Path.items {cfg : Config α} {R : Rules} (hc : R.fold = true → cfg.KeepsBoth)
    {xs : List (Input α)} {L L' : Lane α} (hp : Path cfg R xs L L') (hL : L.Valid cfg) :
    L'.items cfg = L.items cfg + (xs.map Input.item : List α) := by
  induction hp with
  | nil L => simp
  | snoc hp hm ih =>
    rw [hm.items hc (hp.valid hL), ih hL, List.map_append, ← Multiset.coe_add, add_assoc]

/-- A filler carries the PE it is for. -/
theorem Fillers.addressed {cfg : Config α} {t : ℤ} {held held' : ℕ → List (UInt64 × α)}
    {fs : List (Item α)} (hf : Fillers cfg t held fs held') :
    ∀ x ∈ fs, x.destPe = cfg.getDestProc x.payload := by
  induction hf with
  | nil => simp
  | snoc _ _ _ _ ih =>
    intro x hx
    rcases List.mem_append.mp hx with hx | hx
    · exact ih x hx
    · rw [List.mem_singleton.mp hx]

/-! ## Keeping the better item -/

/-- A held item stands under its key. -/
def Lane.Keyed (cfg : Config α) (L : Lane α) : Prop :=
  ∀ b, ∀ e ∈ L.held b, e.1 = cfg.ops.key e.2

/-- `combine` on two items with one key keeps that key and an item whose value is at most
    those of the two and of the one retired. -/
def Config.KeepsLeast {β : Type*} [LE β] (cfg : Config α) (val : α → β) : Prop :=
  ∀ y x, cfg.ops.key y = cfg.ops.key x →
    cfg.ops.key (cfg.ops.combine y x).1 = cfg.ops.key x ∧
    cfg.ops.key (cfg.ops.combine y x).2.1 = cfg.ops.key x ∧
    val (cfg.ops.combine y x).1 ≤ val y ∧
    val (cfg.ops.combine y x).1 ≤ val (cfg.ops.combine y x).2.1

/-- Each retired item has left an item with its key that is at most it. -/
def Lane.Dominated {β : Type*} [LE β] (cfg : Config α) (val : α → β) (L : Lane α) : Prop :=
  ∀ r ∈ L.retired, ∃ x ∈ L.present cfg, cfg.ops.key x = cfg.ops.key r ∧ val x ≤ val r

theorem Fillers.mem_held {cfg : Config α} {t : ℤ} {held held' : ℕ → List (UInt64 × α)}
    {fs : List (Item α)} (hf : Fillers cfg t held fs held') :
    ∀ b, ∀ e ∈ held' b, e ∈ held b := by
  induction hf with
  | nil => exact fun _ _ h => h
  | @snoc held' _ c _ _ rest _ _ _ hc ih =>
    intro b e he
    by_cases hb : b = c
    · subst hb
      rw [Function.update_self] at he
      exact ih b e (hc ▸ List.mem_cons_of_mem _ he)
    · rw [Function.update_of_ne hb] at he
      exact ih b e he

theorem Lane.Keyed.update {cfg : Config α} {held : ℕ → List (UInt64 × α)}
    (hk : ∀ b, ∀ e ∈ held b, e.1 = cfg.ops.key e.2) {b : ℕ} {l : List (UInt64 × α)}
    (hl : ∀ e ∈ l, e.1 = cfg.ops.key e.2) :
    ∀ c, ∀ e ∈ Function.update held b l c, e.1 = cfg.ops.key e.2 := by
  intro c e he
  by_cases hc : c = b
  · subst hc; rw [Function.update_self] at he; exact hl e he
  · rw [Function.update_of_ne hc] at he; exact hk c e he

variable {β : Type*} [Preorder β]

theorem Move.keyed {cfg : Config α} {R : Rules} {val : α → β}
    (hleast : R.fold = true → cfg.KeepsLeast val) {xs : List (Input α)} {L L' : Lane α}
    (hm : Move cfg R xs L L') (hL : L.Keyed cfg) : L'.Keyed cfg := by
  cases hm with
  | hold _ x b pe hb =>
    refine Lane.Keyed.update hL fun e he => ?_
    rcases List.mem_append.mp he with he | he
    · exact hL b e he
    · rw [List.mem_singleton.mp he]
  | fold _ x y b c pe l r hf hc _ =>
    have hin : ∀ e ∈ l ++ (cfg.ops.key x, y) :: r, e.1 = cfg.ops.key e.2 := hc ▸ hL c
    have hk := (hleast hf y x (hin (cfg.ops.key x, y) (by simp)).symm).1
    refine Lane.Keyed.update hL fun e he => ?_
    simp only [List.mem_append, List.mem_cons] at he hin
    rcases he with he | rfl | he
    · exact hin e (Or.inl he)
    · exact hk.symm
    · exact hin e (Or.inr (Or.inr he))
  | foldMove _ x y b c pe l r hf _ hc _ =>
    have hin : ∀ e ∈ l ++ (cfg.ops.key x, y) :: r, e.1 = cfg.ops.key e.2 := hc ▸ hL c
    have hk := (hleast hf y x (hin (cfg.ops.key x, y) (by simp)).symm).1
    refine Lane.Keyed.update (Lane.Keyed.update hL fun e he => ?_) fun e he => ?_
    · simp only [List.mem_append, List.mem_cons] at he hin
      exact hin e (he.imp_right Or.inr)
    · rcases List.mem_append.mp he with he | he
      · exact hL b e he
      · rw [List.mem_singleton.mp he]; exact hk.symm
  | take _ b k x rest _ hheld =>
    exact Lane.Keyed.update hL fun e he => hL b e (hheld ▸ List.mem_cons_of_mem _ he)
  | shipFilled _ s fs held' _ _ hfs => exact fun b e he => hL b e (hfs.mem_held b e he)
  | coarsen _ factor _ keepTop _ =>
    intro j e he
    unfold coarsenHeld at he
    rcases List.mem_append.mp he with he | he
    · obtain ⟨i, -, hi⟩ := List.mem_flatMap.mp he
      exact hL i e hi
    · split_ifs at he with h
      · exact hL j e he
      · cases he
  | direct | raw | ship | retune | resize | newRound => exact hL

theorem Move.dominated {cfg : Config α} {R : Rules} {val : α → β}
    (hleast : R.fold = true → cfg.KeepsLeast val) {xs : List (Input α)} {L L' : Lane α}
    (hm : Move cfg R xs L L') (hL : L.Valid cfg) (hk : L.Keyed cfg)
    (hd : L.Dominated cfg val) : L'.Dominated cfg val := by
  rcases hm.present hL with ⟨hr, hp⟩ | ⟨x, b, pe, y, c, hf, -, hy, hr, hp⟩
  · intro r hmem
    rw [hr] at hmem
    obtain ⟨z, hz, hkz, hle⟩ := hd r hmem
    exact ⟨z, hp ▸ Multiset.mem_add.mpr (Or.inl hz), hkz, hle⟩
  · obtain ⟨hk1, hk2, hle1, hle2⟩ := hleast hf y x (hk c _ hy).symm
    have hsurvives : (cfg.ops.combine y x).1 ∈ L'.present cfg ∨ (cfg.ops.combine y x).1 = y := by
      have : (cfg.ops.combine y x).1 ∈ L'.present cfg + {y} := by
        rw [hp]
        exact Multiset.mem_add.mpr (Or.inr (Multiset.mem_singleton_self _))
      exact (Multiset.mem_add.mp this).imp_right Multiset.mem_singleton.mp
    have hin : (cfg.ops.combine y x).1 ∈ L'.present cfg := by
      rcases hsurvives with h | h
      · exact h
      · rw [h] at hp ⊢
        rw [add_right_cancel hp]
        unfold Lane.present
        refine Multiset.mem_add.mpr (Or.inl (Multiset.mem_add.mpr (Or.inl ?_)))
        exact mem_heldItems.mpr ⟨c, hL.bounded.lt (List.ne_nil_of_mem hy), _, hy⟩
    intro r hmem
    rw [hr] at hmem
    rcases List.mem_append.mp hmem with hmem | hmem
    · obtain ⟨z, hz, hkz, hle⟩ := hd r hmem
      have : z ∈ L'.present cfg + {y} := hp ▸ Multiset.mem_add.mpr (Or.inl hz)
      rcases Multiset.mem_add.mp this with hz' | hz'
      · exact ⟨z, hz', hkz, hle⟩
      · -- `z` is the item that the survivor replaces
        obtain rfl := Multiset.mem_singleton.mp hz'
        exact ⟨_, hin, hk1.trans ((hk c _ hy).trans hkz), hle1.trans hle⟩
    · rw [List.mem_singleton.mp hmem]
      exact ⟨_, hin, hk1.trans hk2.symm, hle2⟩

theorem Path.dominated {cfg : Config α} {R : Rules} {val : α → β}
    (hleast : R.fold = true → cfg.KeepsLeast val) {xs : List (Input α)} {L L' : Lane α}
    (hp : Path cfg R xs L L') (hL : L.Valid cfg) (hk : L.Keyed cfg)
    (hd : L.Dominated cfg val) : L'.Keyed cfg ∧ L'.Dominated cfg val := by
  induction hp with
  | nil L => exact ⟨hk, hd⟩
  | snoc hp hm ih =>
    obtain ⟨hk', hd'⟩ := ih hL hk hd
    exact ⟨hm.keyed hleast hk', hm.dominated hleast (hp.valid hL) hk' hd'⟩

end Htram
