import Htram.Pe.Dest
import Mathlib.Algebra.BigOperators.Group.Finset.Basic
import Mathlib.Algebra.BigOperators.Intervals
import Mathlib.Data.Multiset.Basic

/-!
# Lanes

What one destination of a PE is for, apart from how it is stored: items wait in
buckets, in arrival order; a threshold admits buckets; admitted items move into a
buffer; buffers are shipped. `Move` lists everything that can happen to a lane, and
`Path` is a sequence of moves.

The functions of `Htram.Pe.Dest` are shown to be paths in `Htram.Pe.Queued` (combining
off) and `Htram.Pe.Folding` (combining on). What is true of every path is shown in
`Htram.Pe.LaneInv`.

* `Path.trans`, `Path.invariant`, `Path.mono`: composing paths and reasoning about them.
-/

namespace Htram

variable {α : Type*}

/-- What a client hands to a destination: an item with its bucket, or an item that goes
    into the buffer at once (`insertValue`, `insertValueWPs`). -/
inductive Input (α : Type*)
  | send (item : α) (bucket destProc : ℕ)
  | raw (value : α) (destPe : ℕ)

namespace Input

/-- The item handed in. -/
def item : Input α → α
  | .send x _ _ => x
  | .raw x _ => x

/-- The PE it is for. -/
def destPe : Input α → ℕ
  | .send _ _ pe => pe
  | .raw _ pe => pe

/-- Whether the item bypasses the buckets. -/
def isRaw : Input α → Bool
  | .send .. => false
  | .raw .. => true

end Input

/-- The number of items in the buckets up to `t`. -/
def countUpTo {β : Type*} (held : ℕ → List β) (t : ℤ) : ℕ :=
  ∑ b ∈ Finset.range (t + 1).toNat, (held b).length

/-- The number of items in the buckets from `lo` to below `hi`. -/
def countBetween {β : Type*} (held : ℕ → List β) (lo hi : ℤ) : ℕ :=
  ∑ b ∈ Finset.Ico lo.toNat hi.toNat, (held b).length

/-- The state of a lane. A held item stands next to the key it is held under. -/
@[ext] structure Lane (α : Type*) where
  entry : Entry
  threshold : ℤ
  bufSize : ℕ
  held : ℕ → List (UInt64 × α)
  buffer : List (Item α)
  updates : ℤ
  fullSends : Int32
  totSend : ℕ
  sent : List (Sent α)
  retired : List α

namespace Lane

/-- The number of items held in each bucket. -/
def heldLen (L : Lane α) : ℕ → ℕ := fun b => (L.held b).length

/-- The number of items admitted: held up to the threshold, or in the buffer. -/
def admitted (L : Lane α) : ℕ := countUpTo L.held L.threshold + L.buffer.length

/-- How far the count of admitted items is from the items admitted. -/
def drift (L : Lane α) : ℤ := L.updates - L.admitted

/-- A lane that nothing has come into. -/
structure Blank (L : Lane α) : Prop where
  held : ∀ b, L.held b = []
  buffer : L.buffer = []
  updates : L.updates = 0
  sent : L.sent = []
  retired : L.retired = []

/-- Nothing that is admitted is held. -/
def Drained (L : Lane α) : Prop := ∀ b : ℕ, (b : ℤ) ≤ L.threshold → L.held b = []

/-- Nothing that is admitted is left. -/
structure Flushed (L : Lane α) : Prop where
  buffer : L.buffer = []
  drained : L.Drained

end Lane

/-- The buckets of `held` after `coarsenBuckets` by `factor`, of which the buckets from
    `top` on are left out. -/
def coarsenHeld {β : Type*} (factor top : ℕ) (held : ℕ → List β) (j : ℕ) : List β :=
  ((List.range top).filter fun i => i / factor = j).flatMap held ++
    if top ≤ j then held j else []

/-- Fillers taken from the lowest bucket that holds something, all above `threshold`. -/
inductive Fillers (cfg : Config α) (threshold : ℤ) :
    (ℕ → List (UInt64 × α)) → List (Item α) → (ℕ → List (UInt64 × α)) → Prop
  | nil (held) : Fillers cfg threshold held [] held
  | snoc {held held' : ℕ → List (UInt64 × α)} {fs : List (Item α)} {b : ℕ} {k : UInt64} {x : α}
      {rest : List (UInt64 × α)} (hfs : Fillers cfg threshold held fs held')
      (habove : threshold < b) (hlow : ∀ c < b, held' c = []) (hb : held' b = (k, x) :: rest) :
      Fillers cfg threshold held
        (fs ++ [⟨cfg.getDestProc x, x, ⟨some b, threshold, true, fun c => (held' c).length⟩⟩])
        (Function.update held' b rest)

theorem Fillers.of_nil {cfg : Config α} {t : ℤ} {held held' : ℕ → List (UInt64 × α)}
    {fs : List (Item α)} (hf : Fillers cfg t held fs held') (hfs : fs = []) : held' = held := by
  cases hf with
  | nil => rfl
  | snoc => simp at hfs

/-- Which moves are allowed: folds (combining is on), fillers (in a flush) and
    `coarsenBuckets` with `keep_top`. -/
structure Rules where
  fold : Bool
  flush : Bool
  keepTop : Bool

/-- One thing that can happen to a lane of a PE with `cfg.histoBucketCount` buckets, with
    the items it takes in. -/
inductive Move (cfg : Config α) (R : Rules) : List (Input α) → Lane α → Lane α → Prop
  | hold (L : Lane α) (x : α) (b pe : ℕ) (hb : b < cfg.histoBucketCount) :
      Move cfg R [.send x b pe] L
        { L with
          held := Function.update L.held b (L.held b ++ [(cfg.ops.key x, x)])
          updates := L.updates + if (b : ℤ) ≤ L.threshold then 1 else 0 }
  | direct (L : Lane α) (x : α) (b pe : ℕ) (hb : (b : ℤ) ≤ L.threshold) :
      Move cfg R [.send x b pe] L
        { L with
          buffer := L.buffer ++ [⟨pe, x, ⟨some b, L.threshold, false, L.heldLen⟩⟩]
          updates := L.updates + 1 }
  | raw (L : Lane α) (x : α) (pe : ℕ) :
      Move cfg R [.raw x pe] L
        { L with buffer := L.buffer ++ [⟨pe, x, ⟨none, L.threshold, false, L.heldLen⟩⟩] }
  | fold (L : Lane α) (x y : α) (b c pe : ℕ) (l r : List (UInt64 × α)) (hfold : R.fold = true)
      (hc : L.held c = l ++ (cfg.ops.key x, y) :: r)
      (hstay : ¬ ((cfg.ops.combine y x).2.2 = true ∧ b ≠ c)) :
      Move cfg R [.send x b pe] L
        { L with
          held := Function.update L.held c (l ++ (cfg.ops.key x, (cfg.ops.combine y x).1) :: r)
          retired := L.retired ++ [(cfg.ops.combine y x).2.1] }
  | foldMove (L : Lane α) (x y : α) (b c pe : ℕ) (l r : List (UInt64 × α))
      (hfold : R.fold = true) (hb : b < cfg.histoBucketCount)
      (hc : L.held c = l ++ (cfg.ops.key x, y) :: r)
      (hmoved : (cfg.ops.combine y x).2.2 = true ∧ b ≠ c) :
      Move cfg R [.send x b pe] L
        { L with
          held := Function.update (Function.update L.held c (l ++ r)) b
            (L.held b ++ [(cfg.ops.key x, (cfg.ops.combine y x).1)])
          updates := L.updates + (if (b : ℤ) ≤ L.threshold then 1 else 0) -
            if (c : ℤ) ≤ L.threshold then 1 else 0
          retired := L.retired ++ [(cfg.ops.combine y x).2.1] }
  | take (L : Lane α) (b : ℕ) (k : UInt64) (x : α) (rest : List (UInt64 × α))
      (hb : (b : ℤ) ≤ L.threshold) (hheld : L.held b = (k, x) :: rest) :
      Move cfg R [] L
        { L with
          held := Function.update L.held b rest
          buffer := L.buffer ++
            [⟨cfg.getDestProc x, x, ⟨some b, L.threshold, false, L.heldLen⟩⟩] }
  | ship (L : Lane α) (s : Sent α) (full counted : Bool) (hne : L.buffer ≠ [])
      (hitems : s.msg.items = L.buffer) (hsize : s.bufSize = L.bufSize)
      (hentry : s.entry = L.entry) :
      Move cfg R [] L
        { L with
          buffer := []
          updates := L.updates - L.buffer.length
          fullSends := if full then L.fullSends + 1 else L.fullSends
          totSend := if counted then L.totSend + L.buffer.length else L.totSend
          sent := L.sent ++ [s] }
  | shipFilled (L : Lane α) (s : Sent α) (fs : List (Item α))
      (held' : ℕ → List (UInt64 × α)) (hflush : R.flush = true) (hne : L.buffer ≠ [])
      (hfs : Fillers cfg L.threshold L.held fs held') (hsome : fs ≠ [])
      (hhalf : L.buffer.length + fs.length ≤ L.bufSize / 2)
      (hitems : s.msg.items = L.buffer ++ fs) (hsize : s.bufSize = L.bufSize)
      (hentry : s.entry = L.entry) :
      Move cfg R [] L
        { L with
          held := held'
          buffer := []
          updates := L.updates - L.buffer.length
          totSend := L.totSend + L.buffer.length + fs.length
          sent := L.sent ++ [s] }
  | retune (L : Lane α) (t : ℤ) (ht : -1 ≤ t) :
      Move cfg R [] L
        { L with
          threshold := t
          updates := L.updates + countUpTo L.held t - countUpTo L.held L.threshold }
  | coarsen (L : Lane α) (factor : ℕ) (hfactor : 2 ≤ factor) (keepTop : Bool)
      (hkeep : keepTop = true → R.keepTop = true) :
      Move cfg R [] L
        { L with
          threshold := L.threshold.tdiv factor
          held := coarsenHeld factor (cfg.mergedTop keepTop) L.held
          updates := L.updates + countBetween L.held (L.threshold + 1)
            (min ((L.threshold.tdiv factor + 1) * factor) (cfg.mergedTop keepTop)) }
  | resize (L : Lane α) (n : ℕ) : Move cfg R [] L { L with bufSize := n }
  | newRound (L : Lane α) : Move cfg R [] L { L with fullSends := 0 }

/-- A sequence of moves, with the items taken in. -/
inductive Path (cfg : Config α) (R : Rules) : List (Input α) → Lane α → Lane α → Prop
  | nil (L : Lane α) : Path cfg R [] L L
  | snoc {xs ys : List (Input α)} {L L' L'' : Lane α} (hp : Path cfg R xs L L')
      (hm : Move cfg R ys L' L'') : Path cfg R (xs ++ ys) L L''

namespace Path

variable {cfg : Config α} {R : Rules} {xs ys : List (Input α)} {L L' L'' : Lane α}

theorem single (hm : Move cfg R xs L L') : Path cfg R xs L L' := snoc (nil L) hm

theorem trans (h1 : Path cfg R xs L L') (h2 : Path cfg R ys L' L'') :
    Path cfg R (xs ++ ys) L L'' := by
  induction h2 with
  | nil L' => rw [List.append_nil]; exact h1
  | snoc _ hm ih => rw [← List.append_assoc]; exact snoc (ih h1) hm

/-- Two parts of a path that take nothing in. -/
theorem andThen (h1 : Path cfg R [] L L') (h2 : Path cfg R [] L' L'') :
    Path cfg R [] L L'' := h1.trans h2

/-- What every move keeps that takes in items satisfying `P`, every path keeps. -/
theorem invariant {P : Input α → Prop} {I : Lane α → Prop}
    (hI : ∀ xs L L', Move cfg R xs L L' → (∀ x ∈ xs, P x) → I L → I L')
    (hp : Path cfg R xs L L') (hxs : ∀ x ∈ xs, P x) (h : I L) : I L' := by
  induction hp with
  | nil L => exact h
  | snoc _ hm ih =>
    refine hI _ _ _ hm (fun x hx => hxs x (List.mem_append_right _ hx)) (ih ?_ h)
    exact fun x hx => hxs x (List.mem_append_left _ hx)

end Path

theorem coarsenHeld_nil {β : Type*} {held : ℕ → List β} (h : ∀ b, held b = []) (factor top j : ℕ) :
    coarsenHeld factor top held j = [] := by
  unfold coarsenHeld
  rw [List.flatMap_eq_nil_iff.mpr fun i _ => h i, h j]
  simp

/-- Only an input ends a blank state. -/
theorem Move.blank {cfg : Config α} {R : Rules} {xs : List (Input α)} {L L' : Lane α}
    (hm : Move cfg R xs L L') (hxs : xs = []) (hL : L.Blank) : L'.Blank := by
  obtain ⟨hheld, hbuffer, hupdates, hsent, hretired⟩ := hL
  have hcount : ∀ t, countUpTo L.held t = 0 := by
    intro t
    exact Finset.sum_eq_zero fun b _ => by rw [hheld b]; rfl
  cases hm with
  | hold | direct | raw | fold | foldMove => cases hxs
  | take _ b k x rest _ hb => rw [hheld b] at hb; cases hb
  | ship _ s full counted hne => exact absurd hbuffer hne
  | shipFilled _ s fs held' _ hne => exact absurd hbuffer hne
  | retune _ t _ => exact ⟨hheld, hbuffer, by simp [hcount, hupdates], hsent, hretired⟩
  | coarsen _ factor _ keepTop _ =>
    refine ⟨fun b => coarsenHeld_nil hheld _ _ b, hbuffer, ?_, hsent, hretired⟩
    show L.updates + (countBetween L.held _ _ : ℕ) = 0
    rw [hupdates, countBetween, Finset.sum_eq_zero fun b _ => by rw [hheld b]; rfl]
    rfl
  | resize => exact ⟨hheld, hbuffer, hupdates, hsent, hretired⟩
  | newRound => exact ⟨hheld, hbuffer, hupdates, hsent, hretired⟩

theorem Path.blank {cfg : Config α} {R : Rules} {L L' : Lane α} (hp : Path cfg R [] L L')
    (hL : L.Blank) : L'.Blank :=
  hp.invariant (P := fun _ => False)
    (fun xs _ _ hm hxs => hm.blank (List.eq_nil_iff_forall_not_mem.mpr hxs)) (by simp) hL

/-- What the first set of rules allows, the second does. -/
structure Rules.Le (R R' : Rules) : Prop where
  fold : R.fold = true → R'.fold = true
  flush : R.flush = true → R'.flush = true
  keepTop : R.keepTop = true → R'.keepTop = true

theorem Move.mono {cfg : Config α} {R R' : Rules} (hR : R.Le R') {xs : List (Input α)}
    {L L' : Lane α} (hm : Move cfg R xs L L') : Move cfg R' xs L L' := by
  cases hm with
  | hold _ x b pe hb => exact .hold L x b pe hb
  | direct _ x b pe hb => exact .direct L x b pe hb
  | raw _ x pe => exact .raw L x pe
  | fold _ x y b c pe l r hf hc hs => exact .fold L x y b c pe l r (hR.fold hf) hc hs
  | foldMove _ x y b c pe l r hf hb hc hm =>
    exact .foldMove L x y b c pe l r (hR.fold hf) hb hc hm
  | take _ b k x rest hb hh => exact .take L b k x rest hb hh
  | ship _ s full counted h1 h2 h3 h4 => exact .ship L s full counted h1 h2 h3 h4
  | shipFilled _ s fs held' h h1 h2 h3 h4 h5 h6 h7 =>
    exact .shipFilled L s fs held' (hR.flush h) h1 h2 h3 h4 h5 h6 h7
  | retune _ t ht => exact .retune L t ht
  | coarsen _ k hk keepTop h => exact .coarsen L k hk keepTop fun hk => hR.keepTop (h hk)
  | resize _ n => exact .resize L n
  | newRound _ => exact .newRound L

theorem Path.mono {cfg : Config α} {R R' : Rules} (hR : R.Le R') {xs : List (Input α)}
    {L L' : Lane α} (hp : Path cfg R xs L L') : Path cfg R' xs L L' := by
  induction hp with
  | nil L => exact .nil L
  | snoc _ hm ih => exact .snoc ih (hm.mono hR)

end Htram
