/-
AdaIdna/Lib/ThresholdNumeral.lean

Variable-length numerals whose last digit is recognised by a threshold.

A `System` fixes a base and, for every digit position `j`, a threshold
`thr j` strictly between `0` and the base.  A digit below the threshold of
its position ends the numeral; any other digit `d` continues it, and the
next position counts in units that are `base - thr j` times larger.

`digits` writes a number, `weight` is the unit of a position.  The two rules
that a reader and a writer of such numerals need are

    digits j q = [q]                                      (q < thr j)
    d :: digits (j + 1) q = digits j (d + (base - thr j) * q)   (thr j ≤ d < base)

Read from left to right, the second one is the step of a writer; from right
to left it says that every continued numeral is the one the writer produces,
so that a number has one spelling only.
-/
import Mathlib.Tactic

namespace ThresholdNumeral

/-- A base with a threshold for every digit position. -/
structure System where
  base : ℕ
  thr : ℕ → ℕ
  thr_pos : ∀ j, 0 < thr j
  thr_lt : ∀ j, thr j < base

namespace System

variable (S : System)

/-- How many values a continued digit of position `j` has. -/
def span (j : ℕ) : ℕ := S.base - S.thr j

theorem span_pos (j : ℕ) : 0 < S.span j := by
  have := S.thr_lt j
  unfold span
  omega

/-- The number that is left to write after the continued digit of position `j`. -/
def carry (j q : ℕ) : ℕ := (q - S.thr j) / S.span j

theorem carry_lt {j q : ℕ} (h : S.thr j ≤ q) : S.carry j q < q := by
  have hpos := S.thr_pos j
  have := Nat.div_le_self (q - S.thr j) (S.span j)
  unfold carry
  omega

/-- The digits of `q`, written from position `j` on. -/
def digits (j q : ℕ) : List ℕ :=
  if h : q < S.thr j then [q]
  else (S.thr j + (q - S.thr j) % S.span j) :: digits (j + 1) (S.carry j q)
termination_by q
decreasing_by exact S.carry_lt (by omega)

theorem digits_of_lt {j q : ℕ} (h : q < S.thr j) : S.digits j q = [q] := by
  rw [digits, dif_pos h]

theorem digits_of_le {j q : ℕ} (h : S.thr j ≤ q) :
    S.digits j q
      = (S.thr j + (q - S.thr j) % S.span j) :: S.digits (j + 1) (S.carry j q) := by
  rw [digits, dif_neg (by omega)]

/-- The continued digit and the carry make up the number again. -/
theorem digit_add_carry {j q : ℕ} (h : S.thr j ≤ q) :
    S.thr j + (q - S.thr j) % S.span j + S.span j * S.carry j q = q := by
  have := Nat.mod_add_div (q - S.thr j) (S.span j)
  unfold carry
  omega

/-- The continued digit is a digit. -/
theorem continued_lt_base (j q : ℕ) : S.thr j + (q - S.thr j) % S.span j < S.base := by
  have hmod := Nat.mod_lt (q - S.thr j) (S.span_pos j)
  have := S.thr_lt j
  unfold span at *
  omega

/-- Putting a continued digit in front of a numeral gives a numeral. -/
theorem cons_digits {j d q : ℕ} (hd : S.thr j ≤ d) (hb : d < S.base) :
    d :: S.digits (j + 1) q = S.digits j (d + S.span j * q) := by
  have hspan := S.span_pos j
  have hlt : d - S.thr j < S.span j := by unfold span; omega
  have hsub : d + S.span j * q - S.thr j = d - S.thr j + S.span j * q := by omega
  have hmod : (d + S.span j * q - S.thr j) % S.span j = d - S.thr j := by
    rw [hsub, Nat.add_mul_mod_self_left, Nat.mod_eq_of_lt hlt]
  have hcarry : S.carry j (d + S.span j * q) = q := by
    rw [carry, hsub, Nat.add_mul_div_left _ _ hspan, Nat.div_eq_of_lt hlt, Nat.zero_add]
  rw [digits_of_le S (Nat.le_add_right_of_le hd), hmod, hcarry]
  congr 1
  omega

/-- The digits a writer produces stay below the base. -/
theorem digits_lt_base {j q d : ℕ} (h : d ∈ S.digits j q) : d < S.base := by
  induction j, q using digits.induct S with
  | case1 j q hq =>
    rw [S.digits_of_lt hq, List.mem_singleton] at h
    have := S.thr_lt j
    omega
  | case2 j q hq ih =>
    rw [S.digits_of_le (by omega), List.mem_cons] at h
    rcases h with rfl | h
    · exact S.continued_lt_base j q
    · exact ih h

/-! ### Weights -/

/-- The unit of position `j`. -/
def weight : ℕ → ℕ
  | 0 => 1
  | j + 1 => weight j * S.span j

theorem weight_pos (j : ℕ) : 0 < S.weight j := by
  induction j with
  | zero => exact Nat.one_pos
  | succ j ih => exact Nat.mul_pos ih (S.span_pos j)

theorem weight_le_pow {c : ℕ} (hc : ∀ j, S.span j ≤ c) (j : ℕ) : S.weight j ≤ c ^ j := by
  induction j with
  | zero => simp [weight]
  | succ j ih =>
    rw [weight, pow_succ]
    exact Nat.mul_le_mul ih (hc j)

end System

end ThresholdNumeral
