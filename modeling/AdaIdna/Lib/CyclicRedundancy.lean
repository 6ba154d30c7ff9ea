/-
AdaIdna/Lib/CyclicRedundancy.lean

Messages as polynomials, and what division by a generator detects.

A message is a list of coefficients, the first one of the highest power
(`value`).  A check that compares residues modulo a generator sees the
difference of two messages if the generator does not divide it.  A difference
that is confined to a burst, no longer than the degree of the generator, is
always seen (`eq_of_dvd_burst`).
-/
import Mathlib.Algebra.Polynomial.Monic
import Mathlib.Data.List.GetD
import Mathlib.RingTheory.Coprime.Lemmas
import Mathlib.Tactic.Ring

namespace CyclicRedundancy

open Polynomial

variable {R : Type*} [CommRing R] {s t m m' before after : List R} {P p q : R[X]} {b : R}

/-- The polynomial of a message, by Horner's rule. -/
noncomputable def value (s : List R) : R[X] := s.foldl (fun p b => X * p + C b) 0

@[simp] theorem value_nil : value ([] : List R) = 0 := rfl

theorem value_concat (s : List R) (b : R) : value (s ++ [b]) = X * value s + C b := by
  rw [value, List.foldl_append]
  rfl

theorem value_append (s t : List R) : value (s ++ t) = X ^ t.length * value s + value t := by
  induction t using List.reverseRecOn with
  | nil => simp
  | append_singleton t b ih =>
    rw [← List.append_assoc, value_concat, ih, value_concat, List.length_append,
      List.length_singleton]
    ring

theorem value_cons (b : R) (s : List R) : value (b :: s) = X ^ s.length * C b + value s := by
  rw [← List.singleton_append, value_append]
  simp [value]

/-- The coefficients are those of the message, from its end. -/
theorem coeff_value (s : List R) (i : ℕ) : (value s).coeff i = s.reverse.getD i 0 := by
  induction s using List.reverseRecOn generalizing i with
  | nil => simp
  | append_singleton s b ih =>
    rw [value_concat, List.reverse_concat, coeff_add]
    cases i with
    | zero => simp
    | succ i => simp [ih]

theorem degree_value_lt (s : List R) : (value s).degree < s.length := by
  rw [degree_lt_iff_coeff_zero]
  intro i hi
  rw [coeff_value, List.getD_eq_default _ _ (by rwa [List.length_reverse])]

/-- Messages of one length are told apart. -/
theorem eq_of_value_eq (hlen : s.length = t.length) (h : value s = value t) : s = t := by
  apply List.reverse_injective
  apply List.ext_getElem (by rw [List.length_reverse, List.length_reverse, hlen])
  intro i hs ht
  have hcoeff := congrArg (coeff · i) h
  simp only [coeff_value, List.getD_eq_getElem _ _ hs, List.getD_eq_getElem _ _ ht] at hcoeff
  exact hcoeff

/-- A small multiple of a monic polynomial is 0. -/
theorem eq_of_dvd_sub (hP : P.Monic) (hlen : s.length = t.length) (hdeg : s.length ≤ P.natDegree)
    (h : P ∣ value s - value t) : s = t := by
  apply eq_of_value_eq hlen
  by_contra hne
  refine hP.not_dvd_of_degree_lt (sub_ne_zero.mpr hne) ?_ h
  have hbound : (s.length : WithBot ℕ) ≤ P.degree := by
    have hP0 : P ≠ 0 := by
      rintro rfl
      rw [zero_dvd_iff] at h
      exact hne (sub_eq_zero.mp h)
    rw [degree_eq_natDegree hP0]
    exact_mod_cast hdeg
  refine (degree_sub_le _ _).trans_lt (max_lt ?_ ?_)
  · exact (degree_value_lt s).trans_le hbound
  · exact (degree_value_lt t).trans_le (hlen ▸ hbound)

/-- **Bursts are detected**: two messages that differ in a window which is not
longer than the degree of the generator have different residues. -/
theorem eq_of_dvd_burst (hP : P.Monic) (hX : IsCoprime P X) (hlen : m.length = m'.length)
    (hdeg : m.length ≤ P.natDegree)
    (h : P ∣ value (before ++ m ++ after) - value (before ++ m' ++ after)) : m = m' := by
  have hcoprime : IsCoprime P (X ^ after.length) := hX.pow_right
  refine eq_of_dvd_sub hP hlen hdeg (hcoprime.dvd_of_dvd_mul_left ?_)
  have hdiff : value (before ++ m ++ after) - value (before ++ m' ++ after)
      = X ^ after.length * (value m - value m') := by
    rw [value_append, value_append, value_append, value_append, hlen]
    ring
  rwa [hdiff] at h

end CyclicRedundancy
