/-
AdaIdna/Lib/CanonicalComposition.lean

Composing a string from left to right.

The characters have combining classes, and some pairs of characters have a
composite.  A character is composed with the last one before it that has class
0, the last starter, unless something between the two blocks it: anything
between them has a class other than 0, and blocks a character unless its class
is less (`add`).  The composite takes the place of the starter.  This is how
the Unicode Standard defines canonical composition.

To compose a string is to add its characters one after another (`compose`), so
a program that keeps the text composed so far, the last starter and what
follows it is compared with it one character at a time.
-/
import Mathlib.Tactic

namespace CanonicalComposition

variable {α : Type*} (ccc : α → ℕ) (primary : α → α → Option α)

/-- The last starter, with what stands before it and what follows it. -/
def lastStarter (s : List α) : Option (List α × α × List α) :=
  match s.reverse.dropWhile (ccc · ≠ 0) with
  | [] => none
  | l :: before => some (before.reverse, l, (s.reverse.takeWhile (ccc · ≠ 0)).reverse)

/-- The composite that a character forms with the last starter, if it is not
blocked from it. -/
def composite (marks : List α) (l c : α) : Option α :=
  if ∀ b ∈ marks, ccc b < ccc c then primary l c else none

/-- One more character. -/
def add (s : List α) (c : α) : List α :=
  match lastStarter ccc s with
  | none => s ++ [c]
  | some (before, l, marks) =>
    match composite ccc primary marks l c with
    | none => s ++ [c]
    | some d => before ++ d :: marks

/-- Composition of a string. -/
def compose (s : List α) : List α := s.foldl (add ccc primary) []

variable {ccc primary} {s before marks : List α} {l c d : α}

@[simp] theorem lastStarter_nil : lastStarter ccc ([] : List α) = none := rfl

theorem lastStarter_append (hl : ccc l = 0) (hmarks : ∀ b ∈ marks, ccc b ≠ 0) :
    lastStarter ccc (before ++ l :: marks) = some (before, l, marks) := by
  have hrev : ∀ b ∈ marks.reverse, decide (ccc b ≠ 0) = true := by
    intro b hb
    exact decide_eq_true (hmarks b (List.mem_reverse.mp hb))
  have hstop : decide (ccc l ≠ 0) = false := by simp [hl]
  have hsplit : (before ++ l :: marks).reverse = marks.reverse ++ l :: before.reverse := by
    rw [List.reverse_append, List.reverse_cons, List.append_assoc, List.singleton_append]
  rw [lastStarter, hsplit, List.dropWhile_append_of_pos hrev, List.takeWhile_append_of_pos hrev,
    List.dropWhile_cons_of_neg (by rw [hstop]; exact Bool.false_ne_true),
    List.takeWhile_cons_of_neg (by rw [hstop]; exact Bool.false_ne_true)]
  simp only [List.append_nil, List.reverse_reverse]

/-- A mark is one more character behind the last starter. -/
theorem lastStarter_concat (hc : ccc c ≠ 0) :
    lastStarter ccc (s ++ [c])
      = (lastStarter ccc s).map fun r => (r.1, r.2.1, r.2.2 ++ [c]) := by
  have hpass : decide (ccc c ≠ 0) = true := decide_eq_true hc
  rw [lastStarter, lastStarter, List.reverse_append, List.reverse_singleton, List.singleton_append,
    List.dropWhile_cons_of_pos (p := fun b => decide (ccc b ≠ 0)) hpass,
    List.takeWhile_cons_of_pos (p := fun b => decide (ccc b ≠ 0)) hpass]
  rcases s.reverse.dropWhile (ccc · ≠ 0) with - | ⟨l, before⟩
  · rfl
  · rw [Option.map_some, List.reverse_cons]

/-- Marks behind a string. -/
theorem lastStarter_append_marks {ms : List α} (hms : ∀ b ∈ ms, ccc b ≠ 0) :
    lastStarter ccc (s ++ ms)
      = (lastStarter ccc s).map fun r => (r.1, r.2.1, r.2.2 ++ ms) := by
  induction ms using List.reverseRecOn with
  | nil => simp
  | append_singleton ms c ih =>
    have ih := ih fun b hb => hms b (List.mem_append_left _ hb)
    rw [← List.append_assoc, lastStarter_concat (hms c (by simp)), ih, Option.map_map]
    simp only [Function.comp_def, List.append_assoc]

/-- **A character that is not blocked** is composed with the last starter. -/
theorem add_of_composite (hl : ccc l = 0) (hmarks : ∀ b ∈ marks, ccc b ≠ 0)
    (hd : composite ccc primary marks l c = some d) :
    add ccc primary (before ++ l :: marks) c = before ++ d :: marks := by
  rw [add, lastStarter_append hl hmarks]
  dsimp only
  rw [hd]

/-- **Any other** is left as it is. -/
theorem add_of_no_composite
    (h : ∀ before l marks, lastStarter ccc s = some (before, l, marks) →
      composite ccc primary marks l c = none) : add ccc primary s c = s ++ [c] := by
  rw [add]
  rcases hs : lastStarter ccc s with - | ⟨before, l, marks⟩
  · rfl
  · dsimp only
    rw [h before l marks hs]

theorem composite_eq_none (h : primary l c = none) : composite ccc primary marks l c = none := by
  rw [composite, h, ite_self]

/-- Behind a mark, a starter is blocked. -/
theorem composite_of_starter (hc : ccc c = 0) (hmarks : marks ≠ []) :
    composite ccc primary marks l c = none := by
  obtain ⟨b, hb⟩ := List.exists_mem_of_ne_nil marks hmarks
  rw [composite, if_neg]
  intro h
  exact absurd (h b hb) (by rw [hc]; exact Nat.not_lt_zero _)

theorem composite_of_forall_lt (h : ∀ b ∈ marks, ccc b < ccc c) :
    composite ccc primary marks l c = primary l c := if_pos h

end CanonicalComposition
