/-
AdaIdna/Lib/StringEquivalence.lean

Strings up to rules and exchanges.

Two strings are equivalent if one can be made from the other by applying rules
of `Lib.Replacement` and undoing them, and by exchanging neighbours without a
rule whose keys differ and are not zero.  A string has a normal form: replace
everything, then bring the symbols into the order of `Lib.CanonicalOrder`.

Main results: every string is equivalent to its normal form
(`equivalent_normalForm`), and two strings are equivalent exactly if they have
the same one (`equivalent_iff`).  The expansion is given as a function that
agrees with `expand` at some depth for each symbol, so nothing here depends on
how deep the rules go.
-/
import AdaIdna.Lib.Replacement
import AdaIdna.Lib.CanonicalOrder

namespace StringEquivalence

open Relation CanonicalOrder

variable {α : Type*} (rule : α → Option (List α)) (key : α → ℕ)

/-- A rule is applied, or two neighbours change places. -/
inductive Step : List α → List α → Prop
  | replace {s t : List α} : Replacement.Step rule s t → Step s t
  | swap (l r : List α) {m k : α} : rule m = none → rule k = none →
      key m ≠ 0 → key k ≠ 0 → key m ≠ key k → Step (l ++ m :: k :: r) (l ++ k :: m :: r)

/-- Steps in either direction. -/
def Equivalent (s t : List α) : Prop := EqvGen (Step rule key) s t

/-- Replace everything, then order. -/
def normalForm (full : α → List α) (s : List α) : List α := order key (s.flatMap full)

/-- `full` is what replacing everything in a symbol leaves. -/
def Expands (full : α → List α) : Prop :=
  ∀ a, ∃ depth, Replacement.expand rule depth a = some (full a)

variable {rule key} {full : α → List α} {s t u l r w front : List α} {a c p : α}

/-! ### Equivalence -/

theorem Step.equivalent (h : Step rule key s t) : Equivalent rule key s t := EqvGen.rel _ _ h

theorem Equivalent.refl (s : List α) : Equivalent rule key s s := EqvGen.refl s

theorem Equivalent.symm (h : Equivalent rule key s t) : Equivalent rule key t s :=
  EqvGen.symm _ _ h

theorem Equivalent.trans (h : Equivalent rule key s t) (h' : Equivalent rule key t u) :
    Equivalent rule key s u :=
  EqvGen.trans _ _ _ h h'

theorem Step.append (h : Step rule key s t) (l r : List α) :
    Step rule key (l ++ (s ++ r)) (l ++ (t ++ r)) := by
  cases h with
  | replace h => exact .replace (h.append l r)
  | swap l' r' hm hk hm0 hk0 hne =>
    have hstep := Step.swap (l ++ l') (r' ++ r) hm hk hm0 hk0 hne
    simpa using hstep

theorem Equivalent.append_both (h : Equivalent rule key s t) (l r : List α) :
    Equivalent rule key (l ++ (s ++ r)) (l ++ (t ++ r)) := by
  induction h with
  | rel _ _ h => exact (h.append l r).equivalent
  | refl _ => exact EqvGen.refl _
  | symm _ _ _ ih => exact EqvGen.symm _ _ ih
  | trans _ _ _ _ _ ih ih' => exact EqvGen.trans _ _ _ ih ih'

theorem Equivalent.append_left (h : Equivalent rule key s t) (l : List α) :
    Equivalent rule key (l ++ s) (l ++ t) := by
  have happ := h.append_both l []
  rwa [List.append_nil, List.append_nil] at happ

theorem Equivalent.append_right (h : Equivalent rule key s t) (r : List α) :
    Equivalent rule key (s ++ r) (t ++ r) := h.append_both [] r

/-- Equivalence is a congruence. -/
theorem Equivalent.append (h : Equivalent rule key s t) (h' : Equivalent rule key l r) :
    Equivalent rule key (s ++ l) (t ++ r) :=
  (h.append_right l).trans (h'.append_left t)

/-! ### Reaching the normal form -/

theorem equivalent_of_reaches (h : ReflTransGen (Replacement.Step rule) s t) :
    Equivalent rule key s t := by
  induction h with
  | refl => exact Equivalent.refl s
  | tail _ hstep ih => exact ih.trans (Step.replace hstep).equivalent

/-- All symbols of a string may be replaced one after the other. -/
theorem equivalent_flatMap (hfull : Expands rule full) (s : List α) :
    Equivalent rule key s (s.flatMap full) := by
  induction s with
  | nil => exact Equivalent.refl []
  | cons a s ih =>
    obtain ⟨depth, hdepth⟩ := hfull a
    have ha : Equivalent rule key [a] (full a) :=
      equivalent_of_reaches (Replacement.fullExpansion_of_expand hdepth).1
    exact ha.append ih

/-- Nothing is left to replace. -/
theorem rule_eq_none (hfull : Expands rule full) (ha : a ∈ s.flatMap full) : rule a = none := by
  obtain ⟨b, -, hb⟩ := List.mem_flatMap.mp ha
  obtain ⟨depth, hdepth⟩ := hfull b
  exact (Replacement.fullExpansion_of_expand hdepth).2 a hb

/-- A symbol moves back by exchanges; `front` is given last one first. -/
theorem equivalent_sink (hc : rule c = none) (hc0 : key c ≠ 0)
    (hfront : ∀ p ∈ front, rule p = none) :
    Equivalent rule key (front.reverse ++ [c]) (sink key c front).reverse := by
  induction front with
  | nil => exact Equivalent.refl _
  | cons p front ih =>
    obtain ⟨hp, hfront⟩ := List.forall_mem_cons.mp hfront
    rw [sink]
    split
    · rename_i hlt
      have hswap : Step rule key (front.reverse ++ p :: c :: []) (front.reverse ++ c :: p :: []) :=
        .swap _ _ hp hc (by omega) hc0 (by omega)
      have hrest := (ih hfront).append_right [p]
      rw [List.append_assoc] at hrest
      rw [List.reverse_cons, List.reverse_cons, List.append_assoc]
      exact hswap.equivalent.trans hrest
    · rw [List.reverse_cons (a := c)]
      exact Equivalent.refl _

theorem equivalent_pushAll (hfront : ∀ p ∈ front, rule p = none) (hs : ∀ c ∈ s, rule c = none) :
    Equivalent rule key (front.reverse ++ s) (pushAll key front s).reverse := by
  induction s generalizing front with
  | nil =>
    rw [List.append_nil]
    exact Equivalent.refl _
  | cons c s ih =>
    obtain ⟨hc, hs⟩ := List.forall_mem_cons.mp hs
    have hpush : Equivalent rule key (front.reverse ++ [c]) (push key front c).reverse := by
      by_cases hc0 : key c = 0
      · rw [push_of_eq_zero hc0, List.reverse_cons]
        exact Equivalent.refl _
      · rw [push_of_ne_zero hc0]
        exact equivalent_sink hc hc0 hfront
    have hmem : ∀ p ∈ push key front c, rule p = none := by
      intro p hp
      rcases List.mem_cons.mp ((push_perm c front).mem_iff.mp hp) with rfl | hp
      · exact hc
      · exact hfront p hp
    have hrest := hpush.append_right s
    rw [List.append_assoc] at hrest
    exact hrest.trans (ih hmem hs)

/-- **Every string is equivalent to its normal form.** -/
theorem equivalent_normalForm (hfull : Expands rule full) (s : List α) :
    Equivalent rule key s (normalForm key full s) := by
  have hnil : ∀ p ∈ ([] : List α), rule p = none := List.forall_mem_nil _
  have hnormal : ∀ c ∈ s.flatMap full, rule c = none := fun _ hc => rule_eq_none hfull hc
  exact (equivalent_flatMap hfull s).trans (equivalent_pushAll hnil hnormal)

/-! ### The normal form is an invariant -/

/-- At a depth that is enough for its symbols, a string expands to what its
symbols do. -/
theorem flatMap_of_expandAll (hfull : Expands rule full) {depth : ℕ}
    (h : Replacement.expandAll rule depth w = some u) : w.flatMap full = u := by
  refine Replacement.expandAll_imp (fun w u => w.flatMap full = u) rfl ?_ h
  intro a p s q hp hq
  obtain ⟨depth', hdepth'⟩ := hfull a
  have hle := Replacement.expand_mono hp (le_max_left depth depth')
  rw [Replacement.expand_mono hdepth' (le_max_right depth depth')] at hle
  rw [List.flatMap_cons, hq, Option.some.inj hle]

/-- A symbol expands to what its rule expands to. -/
theorem full_of_rule (hfull : Expands rule full) (ha : rule a = some w) :
    full a = w.flatMap full := by
  obtain ⟨depth, hdepth⟩ := hfull a
  cases depth with
  | zero => cases hdepth
  | succ depth =>
    rw [Replacement.expand_of_rule ha] at hdepth
    exact (flatMap_of_expandAll hfull hdepth).symm

theorem full_of_none (hfull : Expands rule full) (ha : rule a = none) : full a = [a] := by
  obtain ⟨depth, hdepth⟩ := hfull a
  cases depth with
  | zero => cases hdepth
  | succ depth =>
    rw [Replacement.expand_of_none ha] at hdepth
    exact (Option.some.inj hdepth).symm

theorem Step.normalForm_eq (hfull : Expands rule full) (h : Step rule key s t) :
    normalForm key full s = normalForm key full t := by
  cases h with
  | replace h =>
    obtain ⟨l, a, r, w, ha, rfl, rfl⟩ := h
    simp only [normalForm, List.flatMap_append, List.flatMap_cons]
    rw [full_of_rule hfull ha]
  | @swap l r m k hm hk hm0 hk0 hne =>
    simp only [normalForm, List.flatMap_append, List.flatMap_cons]
    rw [full_of_none hfull hm, full_of_none hfull hk]
    have hswap := (same_swap hm0 hk0 hne).append (Same.refl (r.flatMap full))
    exact ((Same.refl (l.flatMap full)).append hswap).order_eq

theorem Equivalent.normalForm_eq (hfull : Expands rule full) (h : Equivalent rule key s t) :
    normalForm key full s = normalForm key full t := by
  induction h with
  | rel _ _ h => exact h.normalForm_eq hfull
  | refl _ => rfl
  | symm _ _ _ ih => exact ih.symm
  | trans _ _ _ _ _ ih ih' => exact ih.trans ih'

/-- **Strings are equivalent exactly if they have the same normal form.** -/
theorem equivalent_iff (hfull : Expands rule full) :
    Equivalent rule key s t ↔ normalForm key full s = normalForm key full t := by
  constructor
  · exact Equivalent.normalForm_eq hfull
  · intro h
    have hs : Equivalent rule key s (normalForm key full s) := equivalent_normalForm hfull s
    rw [h] at hs
    exact hs.trans (equivalent_normalForm hfull t).symm

end StringEquivalence
