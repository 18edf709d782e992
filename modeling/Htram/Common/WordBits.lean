import Mathlib.Algebra.BigOperators.Intervals
import Mathlib.Data.Nat.Notation
import Mathlib.Logic.Function.Basic
import Mathlib.Tactic.Common
import Mathlib.Tactic.SplitIfs

/-!
# Rows of bits in 64-bit words

A row keeps one bit for each index, 64 to a word.

* `get_set`, `get_clear`: setting and clearing a bit.
* `next_eq_some`, `next_eq_none`: the search for the first set bit, by word and mask,
  finds the least set index from a start.
* `nextRead_eq`: the search stays inside the row.
* `forNext_rule`: the invariant rule for a loop that goes from one set bit to the next;
  `forNext_inv` when the body keeps the invariant at any index; `forNext_total` when it
  adds up something that is zero at the indices passed over.
-/

namespace WordBits

/-- The words of a row. -/
abbrev Row := ℕ → BitVec 64

/-- Bit `b` of the row. -/
def get (w : Row) (b : ℕ) : Bool := (w (b / 64)).getLsbD (b % 64)

/-- `w[b >> 6] |= 1UL << (b & 63)`. -/
def set (w : Row) (b : ℕ) : Row :=
  Function.update w (b >>> 6) (w (b >>> 6) ||| 1#64 <<< (b &&& 63))

/-- `w[b >> 6] &= ~(1UL << (b & 63))`. -/
def clear (w : Row) (b : ℕ) : Row :=
  Function.update w (b >>> 6) (w (b >>> 6) &&& ~~~(1#64 <<< (b &&& 63)))

theorem shiftRight_six (b : ℕ) : b >>> 6 = b / 64 := Nat.shiftRight_eq_div_pow b 6

theorem and_63 (b : ℕ) : b &&& 63 = b % 64 := Nat.and_two_pow_sub_one_eq_mod b 6

theorem getLsbD_one_shiftLeft {k j : ℕ} (hk : k < 64) :
    (1#64 <<< k).getLsbD j = decide (j = k) := by
  rw [BitVec.getLsbD_shiftLeft, BitVec.getLsbD_one]
  by_cases hj : j = k
  · subst hj; simp [hk]
  · by_cases hlt : j < k
    · simp [hlt, hj]
    · have : j - k ≠ 0 := by omega
      simp [this, hj]

theorem get_set (w : Row) (b c : ℕ) : get (set w b) c = (decide (c = b) || get w c) := by
  unfold get set
  rw [shiftRight_six, and_63]
  have hb : b % 64 < 64 := Nat.mod_lt _ (by omega)
  by_cases hw : c / 64 = b / 64
  · have hiff : (c % 64 = b % 64) ↔ c = b := by omega
    rw [hw, Function.update_self, BitVec.getLsbD_or, getLsbD_one_shiftLeft hb, Bool.or_comm]
    simp only [hiff]
  · have hne : c ≠ b := by rintro rfl; exact hw rfl
    rw [Function.update_of_ne hw]
    simp [hne]

theorem get_clear (w : Row) (b c : ℕ) : get (clear w b) c = (!decide (c = b) && get w c) := by
  unfold get clear
  rw [shiftRight_six, and_63]
  have hb : b % 64 < 64 := Nat.mod_lt _ (by omega)
  have hc : c % 64 < 64 := Nat.mod_lt _ (by omega)
  by_cases hw : c / 64 = b / 64
  · have hiff : (c % 64 = b % 64) ↔ c = b := by omega
    rw [hw, Function.update_self, BitVec.getLsbD_and, BitVec.getLsbD_not, getLsbD_one_shiftLeft hb,
      Bool.and_comm]
    simp only [hiff, hc, decide_true, Bool.true_and]
  · have hne : c ≠ b := by rintro rfl; exact hw rfl
    rw [Function.update_of_ne hw]
    simp [hne]

/-! ## The search -/

/-- The loop `while (!m)` at word `i` with mask `m`, in a row of `words` words. -/
def search (w : Row) (words : ℕ) : ℕ → ℕ → BitVec 64 → Option ℕ
  | 0, _, _ => none
  | fuel + 1, i, m =>
    if m = 0 then
      if i + 1 ≥ words then none else search w words fuel (i + 1) (w (i + 1))
    else some ((i <<< 6) + m.ctz.toNat)

/-- The first set bit at or after `start`. -/
def next (w : Row) (words start : ℕ) : Option ℕ :=
  search w words words (start >>> 6) (w (start >>> 6) &&& (~~~0#64) <<< (start &&& 63))

/-- `m` is word `i` of the row without the bits before `start`. -/
def Masked (w : Row) (start i : ℕ) (m : BitVec 64) : Prop :=
  ∀ j < 64, m.getLsbD j = (decide (start ≤ 64 * i + j) && get w (64 * i + j))

theorem get_at (w : Row) {i j : ℕ} (hj : j < 64) : get w (64 * i + j) = (w i).getLsbD j := by
  unfold get
  rw [show (64 * i + j) / 64 = i by omega, show (64 * i + j) % 64 = j by omega]

theorem masked_start (w : Row) (start : ℕ) :
    Masked w start (start / 64) (w (start / 64) &&& (~~~0#64) <<< (start % 64)) := by
  intro j hj
  rw [get_at w hj, BitVec.getLsbD_and, BitVec.getLsbD_shiftLeft, BitVec.getLsbD_not]
  have : (start ≤ 64 * (start / 64) + j) ↔ ¬ j < start % 64 := by omega
  by_cases hlt : j < start % 64
  · simp [hlt, this]
  · have hlt' : j - start % 64 < 64 := by omega
    simp [hlt, hj, this, hlt']

theorem masked_next (w : Row) {start i : ℕ} (h : start ≤ 64 * (i + 1)) :
    Masked w start (i + 1) (w (i + 1)) := by
  intro j hj
  have : start ≤ 64 * (i + 1) + j := by omega
  rw [get_at w hj]
  simp [this]

/-- What the search returns: the least set bit from `start`, if there is one. -/
theorem search_spec (w : Row) {words start : ℕ} :
    ∀ (fuel i : ℕ) (m : BitVec 64), Masked w start i m → i < words → words ≤ i + fuel →
      start < 64 * (i + 1) → (∀ c, start ≤ c → c < 64 * i → get w c = false) →
      match search w words fuel i m with
      | some b => start ≤ b ∧ b < 64 * words ∧ get w b = true ∧
          ∀ c, start ≤ c → c < b → get w c = false
      | none => ∀ c, start ≤ c → c < 64 * words → get w c = false := by
  intro fuel
  induction fuel with
  | zero => intro i m _ hi hf; omega
  | succ fuel ih =>
    intro i m hm hi hf hs hbefore
    rw [search]
    by_cases hz : m = 0
    · have hword : ∀ c, start ≤ c → c < 64 * (i + 1) → get w c = false := by
        intro c hsc hc
        by_cases hci : c < 64 * i
        · exact hbefore c hsc hci
        · have := hm (c - 64 * i) (by omega)
          rw [show 64 * i + (c - 64 * i) = c by omega, hz] at this
          simpa [hsc] using this.symm
      rw [if_pos hz]
      by_cases hw : i + 1 ≥ words
      · rw [if_pos hw]
        intro c hsc hc
        exact hword c hsc (by omega)
      · rw [if_neg hw]
        exact ih (i + 1) _ (masked_next w (by omega)) (by omega) (by omega) (by omega) hword
    · rw [if_neg hz]
      have hctz : m.ctz.toNat < 64 := by
        have := BitVec.ctz_lt_iff_ne_zero.mpr hz
        simpa [BitVec.lt_def] using this
      have hbit := hm _ hctz
      rw [BitVec.getLsbD_true_ctz_of_ne_zero hz] at hbit
      obtain ⟨h1, h2⟩ := (Bool.and_eq_true _ _).mp hbit.symm
      have hshift : i <<< 6 = 64 * i := by rw [Nat.shiftLeft_eq]; omega
      rw [hshift]
      refine ⟨by simpa using h1, by omega, h2, ?_⟩
      intro c hsc hc
      by_cases hci : c < 64 * i
      · exact hbefore c hsc hci
      · have := hm (c - 64 * i) (by omega)
        rw [BitVec.getLsbD_false_of_lt_ctz (by omega),
          show 64 * i + (c - 64 * i) = c by omega] at this
        simpa [hsc] using this.symm

theorem next_spec (w : Row) {words start : ℕ} (h : start < 64 * words) :
    match next w words start with
    | some b => start ≤ b ∧ b < 64 * words ∧ get w b = true ∧
        ∀ c, start ≤ c → c < b → get w c = false
    | none => ∀ c, start ≤ c → c < 64 * words → get w c = false := by
  unfold next
  rw [shiftRight_six, and_63]
  exact search_spec w words _ _ (masked_start w start) (by omega) (by omega) (by omega)
    (by intro c h1 h2; omega)

theorem next_eq_some {w : Row} {words start b : ℕ} (h : start < 64 * words)
    (hb : next w words start = some b) :
    start ≤ b ∧ b < 64 * words ∧ get w b = true ∧ ∀ c, start ≤ c → c < b → get w c = false := by
  have := next_spec w h
  rw [hb] at this
  exact this

theorem next_eq_none {w : Row} {words start : ℕ} (h : start < 64 * words)
    (hn : next w words start = none) : ∀ c, start ≤ c → c < 64 * words → get w c = false := by
  have := next_spec w h
  rw [hn] at this
  exact this

/-! ### The words read -/

/-- Word `i` of a row of `words` words; past its end there is nothing to read. -/
def read (w : Row) (words i : ℕ) : Option (BitVec 64) := if i < words then some (w i) else none

/-- `search` with each word it needs taken by `read`; `none` if one of them is not there. -/
def searchRead (w : Row) (words : ℕ) : ℕ → ℕ → BitVec 64 → Option (Option ℕ)
  | 0, _, _ => some none
  | fuel + 1, i, m =>
    if m = 0 then
      if i + 1 ≥ words then some none
      else (read w words (i + 1)).bind (searchRead w words fuel (i + 1))
    else some (some ((i <<< 6) + m.ctz.toNat))

/-- `next` with each word taken by `read`. -/
def nextRead (w : Row) (words start : ℕ) : Option (Option ℕ) :=
  (read w words (start >>> 6)).bind fun m =>
    searchRead w words words (start >>> 6) (m &&& (~~~0#64) <<< (start &&& 63))

theorem searchRead_eq (w : Row) (words : ℕ) :
    ∀ (fuel i : ℕ) (m : BitVec 64),
      searchRead w words fuel i m = some (search w words fuel i m) := by
  intro fuel
  induction fuel with
  | zero => intro i m; rfl
  | succ fuel ih =>
    intro i m
    rw [searchRead, search]
    split_ifs with hm hi
    · rfl
    · rw [read, if_pos (by omega), Option.bind_some]
      exact ih (i + 1) _
    · rfl

/-- The search reads no word outside the row. -/
theorem nextRead_eq (w : Row) {words start : ℕ} (h : start < 64 * words) :
    nextRead w words start = some (next w words start) := by
  unfold nextRead next
  rw [read, if_pos (by rw [shiftRight_six]; omega), Option.bind_some, searchRead_eq]

/-! ## Loops over the set bits -/

/-- `for (i = next(start); cond(i); i = next(i + 1)) { body(i); if (stop) break; }`,
    where the body may change what `next` sees. -/
def forNext {σ : Type*} (next : σ → ℕ → Option ℕ) (cond : ℕ → σ → Bool) (body : ℕ → σ → σ)
    (stop : σ → Bool) : ℕ → ℕ → σ → σ
  | 0, _, s => s
  | fuel + 1, start, s =>
    match next s start with
    | none => s
    | some i =>
      if cond i s then
        if stop (body i s) then body i s
        else forNext next cond body stop fuel (i + 1) (body i s)
      else s

/-- The rule for `forNext`: `P start` holds whenever the loop looks for the next bit
    from `start`, and `Q` when it ends. -/
theorem forNext_rule {σ : Type*} {next : σ → ℕ → Option ℕ} {cond : ℕ → σ → Bool}
    {body : ℕ → σ → σ} {stop : σ → Bool} {n : ℕ} {P : ℕ → σ → Prop} {Q : σ → Prop}
    (hnext : ∀ start s i, P start s → next s start = some i → start ≤ i ∧ i < n)
    (hnone : ∀ start s, P start s → next s start = none → Q s)
    (hcond : ∀ start s i, P start s → next s start = some i → cond i s = false → Q s)
    (hbody : ∀ start s i, P start s → next s start = some i → cond i s = true →
      stop (body i s) = false → P (i + 1) (body i s))
    (hstop : ∀ start s i, P start s → next s start = some i → cond i s = true →
      stop (body i s) = true → Q (body i s)) :
    ∀ (fuel start : ℕ) (s : σ), P start s → n ≤ start + fuel →
      Q (forNext next cond body stop fuel start s) := by
  intro fuel
  induction fuel with
  | zero =>
    intro start s hp hf
    cases hn : next s start with
    | none => exact hnone start s hp hn
    | some i => have := hnext start s i hp hn; omega
  | succ fuel ih =>
    intro start s hp hf
    rw [forNext]
    cases hn : next s start with
    | none => exact hnone start s hp hn
    | some i =>
      have hlt := hnext start s i hp hn
      dsimp only
      split_ifs with hc hs
      · exact hstop start s i hp hn hc hs
      · exact ih (i + 1) _ (hbody start s i hp hn hc (by simpa using hs)) (by omega)
      · exact hcond start s i hp hn (by simpa using hc)

/-- What the body keeps at every index until the loop stops. -/
theorem forNext_stop {σ : Type*} {next : σ → ℕ → Option ℕ} {cond : ℕ → σ → Bool}
    {body : ℕ → σ → σ} {stop : σ → Bool} {I Q : σ → Prop} (hend : ∀ s, I s → Q s)
    (hbody : ∀ i s, I s → stop (body i s) = false → I (body i s))
    (hstop : ∀ i s, I s → stop (body i s) = true → Q (body i s)) :
    ∀ (fuel start : ℕ) (s : σ), I s → Q (forNext next cond body stop fuel start s) := by
  intro fuel
  induction fuel with
  | zero => intro start s hs; exact hend s hs
  | succ fuel ih =>
    intro start s hs
    rw [forNext]
    cases next s start with
    | none => exact hend s hs
    | some i =>
      dsimp only
      split_ifs with hc hst
      · exact hstop i s hs hst
      · exact ih (i + 1) _ (hbody i s hs (by simpa using hst))
      · exact hend s hs

/-- What the body keeps at every index, the loop keeps. -/
theorem forNext_inv {σ : Type*} {next : σ → ℕ → Option ℕ} {cond : ℕ → σ → Bool}
    {body : ℕ → σ → σ} {stop : σ → Bool} {I : σ → Prop} (hbody : ∀ i s, I s → I (body i s))
    (fuel start : ℕ) (s : σ) (hs : I s) : I (forNext next cond body stop fuel start s) :=
  forNext_stop (fun _ h => h) (fun i s h _ => hbody i s h) (fun i s h _ => hbody i s h)
    fuel start s hs

/-- Indices at which nothing is added do not matter to a sum. -/
theorem sum_Ico_skip {M : Type*} [AddCommMonoid M] {g : ℕ → M} {a b n : ℕ} (hab : a ≤ b)
    (hg : ∀ c, a ≤ c → c < b → g c = 0) :
    ∑ c ∈ Finset.Ico a n, g c = ∑ c ∈ Finset.Ico b n, g c := by
  refine (Finset.sum_subset (Finset.Ico_subset_Ico_left hab) fun c hc hcb => ?_).symm
  rw [Finset.mem_Ico] at hc
  rw [Finset.mem_Ico, not_and] at hcb
  exact hg c hc.1 (by by_contra h; exact hcb (by omega) hc.2)

/-- A loop whose body adds `g i` at index `i`, up to index `stop`. -/
theorem forNext_total {σ M : Type*} [AddCommMonoid M] {next : σ → ℕ → Option ℕ}
    {cond : ℕ → σ → Bool} {body : ℕ → σ → σ} {I : σ → Prop} {v : σ → M} {g : ℕ → M}
    {n stop : ℕ}
    (hnext : ∀ s start i, I s → next s start = some i →
      start ≤ i ∧ i < n ∧ ∀ c, start ≤ c → c < i → g c = 0)
    (hnone : ∀ s start, I s → next s start = none → ∀ c ≥ start, g c = 0)
    (hcond : ∀ i s, cond i s = decide (i < stop))
    (hbody : ∀ i s, I s → I (body i s) ∧ v (body i s) = v s + g i)
    {x : σ} (hs : I x) {start₀ fuel : ℕ} (hfuel : n ≤ start₀ + fuel) :
    I (forNext next cond body (fun _ => false) fuel start₀ x) ∧
      v (forNext next cond body (fun _ => false) fuel start₀ x) =
        v x + ∑ i ∈ Finset.Ico start₀ stop, g i := by
  refine forNext_rule (n := n)
    (P := fun start s => I s ∧ v s + ∑ i ∈ Finset.Ico start stop, g i =
      v x + ∑ i ∈ Finset.Ico start₀ stop, g i)
    (Q := fun s => I s ∧ v s = v x + ∑ i ∈ Finset.Ico start₀ stop, g i)
    ?_ ?_ ?_ ?_ ?_ fuel start₀ x ⟨hs, rfl⟩ hfuel
  · rintro start s i ⟨hI, -⟩ h
    obtain ⟨h1, h2, -⟩ := hnext s start i hI h
    exact ⟨h1, h2⟩
  · rintro start s ⟨hI, hsum⟩ h
    refine ⟨hI, ?_⟩
    rw [← hsum, Finset.sum_eq_zero, add_zero]
    intro c hc
    exact hnone s start hI h c (Finset.mem_Ico.mp hc).1
  · rintro start s i ⟨hI, hsum⟩ h hc
    obtain ⟨-, -, h3⟩ := hnext s start i hI h
    rw [hcond, decide_eq_false_iff_not] at hc
    refine ⟨hI, ?_⟩
    rw [← hsum, Finset.sum_eq_zero, add_zero]
    intro c hcs
    rw [Finset.mem_Ico] at hcs
    exact h3 c hcs.1 (by omega)
  · rintro start s i ⟨hI, hsum⟩ h hc -
    obtain ⟨h1, -, h3⟩ := hnext s start i hI h
    rw [hcond, decide_eq_true_eq] at hc
    obtain ⟨hI', hval⟩ := hbody i s hI
    refine ⟨hI', ?_⟩
    rw [hval, ← hsum, sum_Ico_skip h1 h3, Finset.sum_eq_sum_Ico_succ_bot hc, add_assoc]
  · intro _ _ _ _ _ _ h; cases h

/-- A loop that stops when `ok` ends is one that looks at `ok` before each body. -/
theorem forNext_until {σ : Type*} {next : σ → ℕ → Option ℕ} {cond : ℕ → σ → Bool}
    {body body' : ℕ → σ → σ} {ok : σ → Bool}
    (hbody : ∀ i s, ok s = true → body' i s = body i s) :
    ∀ (fuel start : ℕ) (s : σ),
      forNext next (fun i s => cond i s && ok s) body (fun _ => false) fuel start s =
        if ok s then forNext next cond body' (fun s => !ok s) fuel start s else s := by
  intro fuel
  induction fuel with
  | zero => intro start s; simp [forNext]
  | succ fuel ih =>
    intro start s
    rw [forNext, forNext]
    cases next s start with
    | none => simp
    | some i =>
      by_cases hok : ok s = true
      · by_cases hc : cond i s = true
        · simp only [hc, hok, Bool.and_self, if_true, Bool.false_eq_true, if_false,
            hbody i s hok, ih]
          cases ok (body i s) <;> simp
        · simp [hc, hok]
      · simp [hok]

end WordBits
