/-
AdaIdna/Lib/Buffer.lean

A list as a buffer that is read and written in place.

The state of an in-place rewriting is described by a split of the buffer: the
part that is written, a gap whose contents no longer matter, and the part
that is still to be read.  The lemmas say what a read or a write at the
border of two parts does, so that a loop's invariant is the split and every
round of the loop is one of these steps.
-/
import Mathlib.Tactic

namespace Buffer

variable {α : Type*} {x y d : α} {A J R : List α} {i : ℕ}

/-- Reading behind the gap. -/
theorem getD_append (hi : i = A.length) : (A ++ x :: R).getD i d = x := by
  subst hi
  simp

theorem getD_of_getElem? {l : List α} (h : l[i]? = some x) (d : α) : l.getD i d = x := by
  rw [List.getD_eq_getElem?_getD, h, Option.getD_some]

/-- Overwriting one place. -/
theorem set_append (hi : i = A.length) (y : α) : (A ++ x :: R).set i y = A ++ y :: R := by
  subst hi
  simp

/-- Copying a place elsewhere does not change what is read there. -/
theorem getD_set_getD (l : List α) (j i : ℕ) (d : α) :
    (l.set j (l.getD i d)).getD i d = l.getD i d := by
  by_cases h : j = i
  · subst h
    rcases Nat.lt_or_ge j l.length with hj | hj
    · simp [List.getD_eq_getElem?_getD, hj]
    · rw [List.set_eq_of_length_le hj]
  · simp [List.getD_eq_getElem?_getD, h]

/-- Writing at the front of the gap while the first symbol behind it has been
read: the gap moves on by one place. -/
theorem set_gap (hi : i = A.length) (y : α) :
    ∃ J', (A ++ J ++ x :: R).set i y = A ++ y :: J' ++ R ∧ J'.length = J.length := by
  cases J with
  | nil => exact ⟨[], by rw [List.append_nil, set_append hi]; simp, rfl⟩
  | cons j J =>
    refine ⟨J ++ [x], ?_, by simp⟩
    rw [List.append_assoc, List.cons_append, set_append hi]
    simp

/-- A buffer that lists the values of a function. -/
theorem getElem?_map_range {f : ℕ → α} {n : ℕ} (h : i < n) :
    ((List.range n).map f)[i]? = some (f i) := by
  rw [List.getElem?_map, List.getElem?_range h]
  rfl

theorem set_map_range {f : ℕ → α} {n : ℕ} (i : ℕ) (y : α) :
    ((List.range n).map f).set i y = (List.range n).map (Function.update f i y) := by
  apply List.ext_getElem (by simp)
  intro j h1 h2
  simp only [List.getElem_set, List.getElem_map, List.getElem_range, Function.update_apply,
    eq_comm (a := i)]

/-- Filling a range with one value. -/
theorem getElem?_foldl_set (l : List α) (y : α) (lo n i : ℕ) :
    ((List.range' lo n).foldl (fun l j => l.set j y) l)[i]?
      = if lo ≤ i ∧ i < lo + n ∧ i < l.length then some y else l[i]? := by
  induction n generalizing lo l with
  | zero =>
    rw [List.range'_zero, List.foldl_nil, if_neg (by omega)]
  | succ n ih =>
    rw [List.range'_succ, List.foldl_cons, ih, List.length_set, List.getElem?_set]
    split_ifs <;> first | rfl | omega | exact (List.getElem?_eq_none (by omega)).symm

theorem length_foldl_set (l : List α) (y : α) (js : List ℕ) :
    (js.foldl (fun l j => l.set j y) l).length = l.length := by
  induction js generalizing l with
  | nil => rfl
  | cons j js ih => rw [List.foldl_cons, ih, List.length_set]

/-! ### Regions -/

/-- The `n` symbols from place `a` on. -/
def region (l : List α) (a n : ℕ) : List α := (l.drop a).take n

variable {X Y l : List α} {a b m n : ℕ}

theorem region_append (ha : A.length = a) (hn : X.length = n) :
    region (A ++ (X ++ R)) a n = X := by
  rw [region, List.drop_left' ha, List.take_left' hn]

/-- A buffer is split by a region. -/
theorem append_region (l : List α) (a n : ℕ) :
    l.take a ++ (region l a n ++ l.drop (a + n)) = l := by
  rw [region, ← List.drop_drop, List.take_append_drop, List.take_append_drop]

/-- **Frame.** Replacing a region does not change the regions that are
disjoint from it. -/
theorem region_replace (hlen : X.length = Y.length)
    (h : b + m ≤ A.length ∨ A.length + X.length ≤ b) :
    region (A ++ (Y ++ R)) b m = region (A ++ (X ++ R)) b m := by
  rw [region, region]
  rcases h with h | h
  · have hm : m ≤ (A.drop b).length := by
      rw [List.length_drop]
      omega
    have hb : b ≤ A.length := by omega
    rw [List.drop_append_of_le_length hb, List.drop_append_of_le_length hb,
      List.take_append_of_le_length hm, List.take_append_of_le_length hm]
  · obtain ⟨d, rfl⟩ := Nat.exists_eq_add_of_le h
    rw [← List.append_assoc, ← List.append_assoc, ← List.length_append, List.drop_length_add_append,
      List.length_append, hlen, ← List.length_append, List.drop_length_add_append]

theorem region_region (h : b + m ≤ n) : region (region l a n) b m = region l (a + b) m := by
  rw [region, region, region, List.drop_take, List.drop_drop, List.take_take,
    Nat.min_eq_left (by omega)]

/-- The records of a table. -/
theorem region_flatMap {β : Type*} {f : β → List α} {r : β} {rs : List β} {k : ℕ}
    (hf : ∀ r, (f r).length = n) (h : rs[k]? = some r) : region (rs.flatMap f) (n * k) n = f r := by
  induction rs generalizing k with
  | nil => cases h
  | cons q rs ih =>
    rw [List.flatMap_cons, region]
    cases k with
    | zero =>
      cases h
      rw [Nat.mul_zero, List.drop_zero, List.take_left' (hf r)]
    | succ k =>
      rw [Nat.mul_succ, Nat.add_comm, ← List.drop_drop, List.drop_left' (hf q)]
      exact ih h

end Buffer
