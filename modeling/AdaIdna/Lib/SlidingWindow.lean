/-
AdaIdna/Lib/SlidingWindow.lean

Text as literals and references to earlier text.

A reference copies symbol by symbol, so it may run into what it has just
written.  What it adds is then a repetition of the symbols it starts from
(`repeated`), which is how it is defined here; `repeated_succ` is the step of a
program that copies one symbol at a time.
-/
import Mathlib.Tactic

namespace SlidingWindow

variable {α : Type*} {w w' : List α} {distance length k : ℕ}

inductive Token (α : Type*) where
  | literal (a : α)
  | copy (length distance : ℕ)
  deriving DecidableEq

/-- The last `distance` symbols of `w`, over and over, `length` symbols in all. -/
def repeated (w : List α) (distance length : ℕ) : List α :=
  (List.range length).filterMap fun k => w[w.length - distance + k % distance]?

/-- The text behind a token; a reference must not reach back behind its beginning. -/
def Token.expand (w : List α) : Token α → Option (List α)
  | literal a => some (w ++ [a])
  | copy length distance =>
    if 0 < distance ∧ distance ≤ w.length then some (w ++ repeated w distance length) else none

def expand (w : List α) (tokens : List (Token α)) : Option (List α) :=
  tokens.foldlM (fun w t => t.expand w) w

@[simp] theorem expand_nil (w : List α) : expand w [] = some w := rfl

@[simp] theorem expand_cons (w : List α) (t : Token α) (tokens : List (Token α)) :
    expand w (t :: tokens) = (t.expand w).bind fun w => expand w tokens := rfl

@[simp] theorem repeated_zero (w : List α) (distance : ℕ) : repeated w distance 0 = [] := rfl

/-- A copied symbol is one of the last `distance` symbols from then on. -/
theorem getElem?_succ_mod (hpos : 0 < distance) (hle : distance ≤ w.length) (k : ℕ) :
    w[w.length - distance + (k + 1) % distance]?
      = (w ++ [w[w.length - distance]])[w.length + 1 - distance + k % distance]? := by
  have hlt := Nat.mod_lt k hpos
  rcases Nat.lt_or_ge (k % distance + 1) distance with h | h
  · have hmod : (k + 1) % distance = k % distance + 1 := by
      rw [Nat.add_mod, Nat.mod_eq_of_lt (show 1 < distance by omega), Nat.mod_eq_of_lt h]
    rw [hmod, List.getElem?_append_left (by omega)]
    congr 1
    omega
  · have hmod : (k + 1) % distance = 0 := by
      rw [← Nat.mod_add_mod, show k % distance + 1 = distance by omega, Nat.mod_self]
    rw [hmod, Nat.add_zero, List.getElem?_eq_getElem (by omega),
      List.getElem?_append_right (by omega),
      show w.length + 1 - distance + k % distance - w.length = 0 by omega]
    rfl

/-- Copying one symbol first. -/
theorem repeated_succ (hpos : 0 < distance) (hle : distance ≤ w.length) :
    repeated w distance (length + 1)
      = w[w.length - distance] :: repeated (w ++ [w[w.length - distance]]) distance length := by
  have hhead : w[w.length - distance + 0 % distance]? = some w[w.length - distance] := by
    rw [Nat.zero_mod, Nat.add_zero, List.getElem?_eq_getElem]
  rw [repeated, List.range_succ_eq_map,
    List.filterMap_cons_some (f := fun k => w[w.length - distance + k % distance]?) hhead,
    List.filterMap_map, repeated]
  refine congrArg (_ :: ·) (List.filterMap_congr fun k _ => ?_)
  rw [List.length_append, List.length_singleton]
  exact getElem?_succ_mod hpos hle k

theorem length_repeated (hpos : 0 < distance) (hle : distance ≤ w.length) :
    (repeated w distance length).length = length := by
  induction length generalizing w with
  | zero => rfl
  | succ length ih =>
    rw [repeated_succ hpos hle, List.length_cons, ih (by rw [List.length_append]; omega)]

/-! ### Text only grows -/

theorem Token.length_expand {t : Token α} (h : t.expand w = some w') : w.length ≤ w'.length := by
  cases t with
  | literal a =>
    cases h
    exact (List.prefix_append w [a]).length_le
  | copy length distance =>
    rw [Token.expand, Option.ite_none_right_eq_some] at h
    obtain ⟨-, h⟩ := h
    cases h
    exact (List.prefix_append w _).length_le

theorem length_expand {tokens : List (Token α)} (h : expand w tokens = some w') :
    w.length ≤ w'.length := by
  induction tokens generalizing w with
  | nil =>
    cases h
    exact le_rfl
  | cons t tokens ih =>
    rw [expand_cons, Option.bind_eq_some_iff] at h
    obtain ⟨v, hv, h⟩ := h
    exact (Token.length_expand hv).trans (ih h)

end SlidingWindow
