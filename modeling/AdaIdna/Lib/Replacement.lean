/-
AdaIdna/Lib/Replacement.lean

Replacing symbols by strings.

A symbol with a rule may be replaced by its string, wherever it stands, until
no symbol that is left has a rule.  Whatever the order of the replacements,
there is at most one string in which this can end, and `expand`, which
replaces a symbol and then everything in its string recursively, finds it
(`expand_eq_some_iff`), if it may go deep enough.
-/
import Mathlib.Tactic
import Mathlib.Logic.Relation

namespace Replacement

variable {α : Type*} (rule : α → Option (List α))

/-- One symbol is replaced. -/
def Step (s t : List α) : Prop :=
  ∃ l a r w, rule a = some w ∧ s = l ++ a :: r ∧ t = l ++ (w ++ r)

/-- No symbol can be replaced. -/
def Normal (s : List α) : Prop := ∀ a ∈ s, rule a = none

/-- `s` is what replacing all of `a` ends in. -/
def FullExpansion (a : α) (s : List α) : Prop :=
  Relation.ReflTransGen (Step rule) [a] s ∧ Normal rule s

/-- The expansion of a symbol, by recursion down to some depth. -/
def expand : ℕ → α → Option (List α)
  | 0, _ => none
  | depth + 1, a =>
    match rule a with
    | none => some [a]
    | some w => (w.mapM (expand depth)).map List.flatten

/-- The expansion of a string. -/
def expandAll (depth : ℕ) (s : List α) : Option (List α) :=
  (s.mapM (expand rule depth)).map List.flatten

variable {rule} {a : α} {s t u v w : List α} {depth depth' : ℕ}

theorem expandAll_nil (depth : ℕ) : expandAll rule depth [] = some [] := rfl

theorem expandAll_cons_eq_some :
    expandAll rule depth (a :: s) = some v ↔
      ∃ p q, expand rule depth a = some p ∧ expandAll rule depth s = some q ∧ v = p ++ q := by
  rw [expandAll, expandAll, List.mapM_cons]
  rcases expand rule depth a with - | p
  · exact ⟨nofun, nofun⟩
  · rcases s.mapM (expand rule depth) with - | q
    · exact ⟨nofun, nofun⟩
    · constructor
      · rintro h
        cases h
        exact ⟨p, q.flatten, rfl, rfl, rfl⟩
      · rintro ⟨_, _, hp, hq, rfl⟩
        cases hp
        cases hq
        rfl

theorem expandAll_append_eq_some :
    expandAll rule depth (s ++ t) = some v ↔
      ∃ p q, expandAll rule depth s = some p ∧ expandAll rule depth t = some q ∧ v = p ++ q := by
  induction s generalizing v with
  | nil =>
    constructor
    · exact fun h => ⟨[], v, rfl, h, rfl⟩
    · rintro ⟨p, q, hp, hq, rfl⟩
      cases hp
      exact hq
  | cons a s ih =>
    rw [List.cons_append, expandAll_cons_eq_some]
    constructor
    · rintro ⟨p, qr, hp, hqr, rfl⟩
      obtain ⟨q, r, hq, hr, rfl⟩ := ih.mp hqr
      exact ⟨p ++ q, r, expandAll_cons_eq_some.mpr ⟨p, q, hp, hq, rfl⟩, hr,
        (List.append_assoc p q r).symm⟩
    · rintro ⟨pq, r, hpq, hr, rfl⟩
      obtain ⟨p, q, hp, hq, rfl⟩ := expandAll_cons_eq_some.mp hpq
      exact ⟨p, q ++ r, hp, ih.mpr ⟨q, r, hq, hr, rfl⟩, List.append_assoc p q r⟩

theorem expand_of_rule (h : rule a = some w) :
    expand rule (depth + 1) a = expandAll rule depth w := by
  rw [expand, h]
  rfl

theorem expand_of_none (h : rule a = none) : expand rule (depth + 1) a = some [a] := by
  rw [expand, h]

/-- What one symbol becomes and the others keep carries over to strings. -/
theorem expandAll_imp (P : List α → List α → Prop) (hnil : P [] [])
    (hcons : ∀ {a p s q}, expand rule depth a = some p → P s q → P (a :: s) (p ++ q))
    (h : expandAll rule depth s = some v) : P s v := by
  induction s generalizing v with
  | nil =>
    cases h
    exact hnil
  | cons a s ih =>
    obtain ⟨p, q, hp, hq, rfl⟩ := expandAll_cons_eq_some.mp h
    exact hcons hp (ih hq)

/-- More depth does no harm. -/
theorem expand_mono (h : expand rule depth a = some u) (hle : depth ≤ depth') :
    expand rule depth' a = some u := by
  induction depth generalizing a u depth' with
  | zero => cases h
  | succ depth ih =>
    obtain ⟨depth', rfl⟩ : ∃ k, depth' = k + 1 := ⟨depth' - 1, by omega⟩
    rcases hrule : rule a with - | w
    · rw [expand_of_none hrule] at h ⊢
      exact h
    · rw [expand_of_rule hrule] at h ⊢
      refine expandAll_imp (fun s v => expandAll rule depth' s = some v) rfl ?_ h
      exact fun hp hq => expandAll_cons_eq_some.mpr ⟨_, _, ih hp (by omega), hq, rfl⟩

theorem expandAll_mono (h : expandAll rule depth s = some v) (hle : depth ≤ depth') :
    expandAll rule depth' s = some v := by
  refine expandAll_imp (fun s v => expandAll rule depth' s = some v) rfl ?_ h
  exact fun hp hq => expandAll_cons_eq_some.mpr ⟨_, _, expand_mono hp hle, hq, rfl⟩

/-! ### Replacements -/

theorem Step.append (h : Step rule s t) (l r : List α) :
    Step rule (l ++ (s ++ r)) (l ++ (t ++ r)) := by
  obtain ⟨l', a, r', w, ha, rfl, rfl⟩ := h
  exact ⟨l ++ l', a, r' ++ r, w, ha, by simp, by simp⟩

theorem reaches_append (h : Relation.ReflTransGen (Step rule) s t) (l r : List α) :
    Relation.ReflTransGen (Step rule) (l ++ (s ++ r)) (l ++ (t ++ r)) := by
  induction h with
  | refl => exact .refl
  | tail _ hstep ih => exact ih.tail (hstep.append l r)

/-- The recursion makes replacements until there is nothing left to replace. -/
theorem fullExpansion_of_expand (h : expand rule depth a = some u) : FullExpansion rule a u := by
  induction depth generalizing a u with
  | zero => cases h
  | succ depth ih =>
    rcases hrule : rule a with - | w
    · rw [expand_of_none hrule] at h
      cases h
      exact ⟨.refl, fun b hb => List.mem_singleton.mp hb ▸ hrule⟩
    · rw [expand_of_rule hrule] at h
      have hw : Relation.ReflTransGen (Step rule) w u ∧ Normal rule u := by
        refine expandAll_imp (fun s v => Relation.ReflTransGen (Step rule) s v ∧ Normal rule v)
          ⟨.refl, nofun⟩ ?_ h
        intro b p s q hp hq
        obtain ⟨hreach, hnormal⟩ := ih hp
        constructor
        · have hfirst := reaches_append hreach [] s
          have hrest := reaches_append hq.1 p []
          rw [List.append_nil, List.append_nil] at hrest
          exact hfirst.trans hrest
        · intro c hc
          exact (List.mem_append.mp hc).elim (hnormal c) (hq.2 c)
      refine ⟨Relation.ReflTransGen.head ?_ hw.1, hw.2⟩
      exact ⟨[], a, [], w, hrule, rfl, (List.append_nil w).symm⟩

/-- A replacement does not change what a string ends in. -/
theorem Step.expandAll (h : Step rule s t) (hs : expandAll rule depth s = some v) :
    expandAll rule depth t = some v := by
  obtain ⟨l, a, r, w, ha, rfl, rfl⟩ := h
  obtain ⟨p, uq, hp, huq, rfl⟩ := expandAll_append_eq_some.mp hs
  obtain ⟨u, q, hu, hq, rfl⟩ := expandAll_cons_eq_some.mp huq
  refine expandAll_append_eq_some.mpr ⟨p, u ++ q, hp, ?_, rfl⟩
  refine expandAll_append_eq_some.mpr ⟨u, q, ?_, hq, rfl⟩
  cases depth with
  | zero => cases hu
  | succ depth =>
    rw [expand_of_rule ha] at hu
    exact expandAll_mono hu (Nat.le_succ depth)

theorem eq_of_normal (hs : Normal rule s) (h : expandAll rule depth s = some v) : v = s := by
  induction s generalizing v with
  | nil =>
    cases h
    rfl
  | cons a s ih =>
    obtain ⟨p, q, hp, hq, rfl⟩ := expandAll_cons_eq_some.mp h
    rw [ih (fun b hb => hs b (List.mem_cons_of_mem a hb)) hq]
    cases depth with
    | zero => cases hp
    | succ depth =>
      rw [expand_of_none (hs a List.mem_cons_self)] at hp
      cases hp
      rfl

/-- **The recursion finds the full expansion**, and there is no other. -/
theorem expand_eq_some_iff (h : expand rule depth a = some u) :
    FullExpansion rule a s ↔ u = s := by
  constructor
  · rintro ⟨hreach, hnormal⟩
    have hstart : expandAll rule depth [a] = some u :=
      expandAll_cons_eq_some.mpr ⟨u, [], h, rfl, (List.append_nil u).symm⟩
    suffices expandAll rule depth s = some u from eq_of_normal hnormal this
    clear hnormal
    induction hreach with
    | refl => exact hstart
    | tail _ hstep ih => exact hstep.expandAll ih
  · rintro rfl
    exact fullExpansion_of_expand h

/-- Nothing expands to nothing if no rule erases its symbol. -/
theorem ne_nil_of_expand (hrule : ∀ a w, rule a = some w → w ≠ [])
    (h : expand rule depth a = some u) : u ≠ [] := by
  induction depth generalizing a u with
  | zero => cases h
  | succ depth ih =>
    rcases ha : rule a with - | w
    · rw [expand_of_none ha] at h
      cases h
      exact List.cons_ne_nil a []
    · rw [expand_of_rule ha] at h
      cases w with
      | nil => exact absurd rfl (hrule a [] ha)
      | cons b w =>
        obtain ⟨p, q, hp, -, rfl⟩ := expandAll_cons_eq_some.mp h
        exact List.append_ne_nil_of_left_ne_nil (ih hp) q

end Replacement
