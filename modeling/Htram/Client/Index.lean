import Mathlib.Data.Nat.Bitwise
import Mathlib.Data.Nat.Notation
import Mathlib.Data.Int.Notation

/-!
# Indices

`histo.C` and `smp_ig.C` deal a table out to the PEs: entry `indx` is entry `indx / CkNumPes()` of
PE `indx % CkNumPes()`. A client keeps both in one number, `pckindx[i]`.

* `indx_eq`: the size of the table is an `int` product, right if it is less than `2^31`.
* `col_pckindx`: the entry is kept as it is.
* `pe_pckindx`: of the PE, the low 16 bits.
-/

namespace Htram.Client

/-! ## Drawn indices -/

/-- The value of an `int` expression that stands for `x`. -/
def int (x : ℤ) : ℤ := (Int32.ofInt x).toInt

theorem int_eq {x : ℤ} (hlo : -2 ^ 31 ≤ x) (hhi : x < 2 ^ 31) : int x = x :=
  Int32.toInt_ofInt_of_le hlo hhi

/-- The entries of all PEs, each having `size`: `ltab_siz * CkNumPes()`, a product of `int`s. -/
def tabSiz (numPes size : ℕ) : ℤ := int (size * numPes)

/-- `rand() % tab_siz`. -/
def indx (numPes size rand : ℕ) : ℕ := ((rand : ℤ).tmod (tabSiz numPes size)).toNat

/-- There is a table, and an `int` holds the number of its entries. -/
structure Fits (numPes size : ℕ) : Prop where
  pos : 0 < size
  lt : size * numPes < 2 ^ 31

section Fits

variable {numPes size : ℕ} (hfits : Fits numPes size)
include hfits

theorem tabSiz_eq : tabSiz numPes size = (size * numPes : ℕ) := by
  have hlt := hfits.lt
  unfold tabSiz
  rw [← Int.natCast_mul]
  exact int_eq (by omega) (by omega)

theorem indx_eq (rand : ℕ) : indx numPes size rand = rand % (size * numPes) := by
  unfold indx
  rw [tabSiz_eq hfits, ← Int.ofNat_tmod, Int.toNat_natCast]

theorem indx_lt (hpes : 0 < numPes) (rand : ℕ) : indx numPes size rand < size * numPes := by
  rw [indx_eq hfits]
  exact Nat.mod_lt _ (Nat.mul_pos hfits.pos hpes)

end Fits

/-! ## Packed indices -/

/-- `(lindx << 16L) | (pe & 0xffff)`. -/
def pckindx (numPes indx : ℕ) : ℕ := (indx / numPes) <<< 16 ||| (indx % numPes &&& 0xffff)

/-- `pckindx[i] >> 16`. -/
def col (numPes indx : ℕ) : ℕ := pckindx numPes indx >>> 16

/-- `pckindx[i] & 0xffff`. -/
def pe (numPes indx : ℕ) : ℕ := pckindx numPes indx &&& 0xffff

theorem and_ffff (n : ℕ) : n &&& 0xffff = n % 2 ^ 16 := Nat.and_two_pow_sub_one_eq_mod n 16

theorem pckindx_eq (numPes indx : ℕ) :
    pckindx numPes indx = 2 ^ 16 * (indx / numPes) + indx % numPes % 2 ^ 16 := by
  have hlow : indx % numPes % 2 ^ 16 < 2 ^ 16 := Nat.mod_lt _ (by omega)
  rw [pckindx, and_ffff, Nat.shiftLeft_eq, Nat.mul_comm, Nat.two_pow_add_eq_or_of_lt hlow]

theorem col_pckindx (numPes indx : ℕ) : col numPes indx = indx / numPes := by
  rw [col, pckindx_eq, Nat.shiftRight_eq_div_pow]
  omega

theorem pe_pckindx (numPes indx : ℕ) : pe numPes indx = indx % numPes % 2 ^ 16 := by
  rw [pe, pckindx_eq, and_ffff]
  omega

theorem pe_lt {numPes : ℕ} (h : 0 < numPes) (indx : ℕ) : pe numPes indx < numPes := by
  have hmod := Nat.mod_lt indx h
  have hle := Nat.mod_le (indx % numPes) (2 ^ 16)
  rw [pe_pckindx]
  omega

/-- The PE is kept if there are no more than 65536. -/
theorem pe_eq {numPes : ℕ} (h : 0 < numPes) (hmax : numPes ≤ 2 ^ 16) (indx : ℕ) :
    pe numPes indx = indx % numPes := by
  rw [pe_pckindx]
  exact Nat.mod_eq_of_lt ((Nat.mod_lt indx h).trans_le hmax)

theorem col_lt {numPes size indx : ℕ} (h : indx < size * numPes) : col numPes indx < size := by
  rw [col_pckindx]
  exact Nat.div_lt_of_lt_mul (by rwa [Nat.mul_comm] at h)

end Htram.Client
