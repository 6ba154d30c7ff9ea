/-
AdaIdna/Lib/CheckedInt.lean

Machine integers whose operations are checked.

A value is an integer of any size; storing it in a type of the machine (`fit`)
is a fault if the type does not have it, so an operation that would overflow,
wrap around or be cut off ends there, and so does a division by zero.  The
lemmas say that on natural numbers in range nothing of this happens.
-/
import AdaIdna.Lib.Checked

namespace Checked

/-- `x` as a value of the type from `lo` to `hi`. -/
def fit (lo hi x : ℤ) : Checked ℤ := if lo ≤ x ∧ x ≤ hi then ok x else fault

/-- `int32_t` -/
def int32 (x : ℤ) : Checked ℤ := fit (-0x80000000) 0x7FFFFFFF x

/-- `uint32_t` -/
def uint32 (x : ℤ) : Checked ℤ := fit 0 0xFFFFFFFF x

/-- `size_t`, of 64 bits -/
def sizeT (x : ℤ) : Checked ℤ := fit 0 0xFFFFFFFFFFFFFFFF x

/-- `x / y`, rounded towards zero -/
def quotient (x y : ℤ) : Checked ℤ := if y = 0 then fault else ok (x.tdiv y)

/-- `x % y` -/
def remainder (x y : ℤ) : Checked ℤ := if y = 0 then fault else ok (x.tmod y)

variable {a b : ℕ} {x : ℤ}

theorem fit_of_mem {lo hi : ℤ} (h : lo ≤ x ∧ x ≤ hi) : fit lo hi x = ok x := if_pos h

theorem int32_eq (h : x = a) (ha : a ≤ 0x7FFFFFFF) : int32 x = ok (a : ℤ) := by
  rw [h]
  exact fit_of_mem ⟨by omega, by omega⟩

theorem uint32_eq (h : x = a) (ha : a ≤ 0xFFFFFFFF) : uint32 x = ok (a : ℤ) := by
  rw [h]
  exact fit_of_mem ⟨by omega, by omega⟩

theorem sizeT_eq (h : x = a) (ha : a ≤ 0xFFFFFFFFFFFFFFFF) : sizeT x = ok (a : ℤ) := by
  rw [h]
  exact fit_of_mem ⟨by omega, by omega⟩

theorem quotient_natCast (hb : 0 < b) : quotient (a : ℤ) (b : ℤ) = ok ((a / b : ℕ) : ℤ) := by
  rw [quotient, if_neg (by omega), ← Int.ofNat_tdiv]

theorem remainder_natCast (hb : 0 < b) : remainder (a : ℤ) (b : ℤ) = ok ((a % b : ℕ) : ℤ) := by
  rw [remainder, if_neg (by omega), ← Int.ofNat_tmod]

/-! ### Computations that only reject -/

variable {α β : Type}

/-- A failure without a reason. -/
def ofOption : Option α → Checked α
  | some a => ok a
  | none => reject

@[simp] theorem ofOption_some (a : α) : ofOption (some a) = ok a := rfl

@[simp] theorem ofOption_none : ofOption (none : Option α) = reject := rfl

theorem safe_ofOption (o : Option α) : Safe (ofOption o) := by
  cases o with
  | none => exact safe_reject
  | some a => exact safe_ok a

end Checked
