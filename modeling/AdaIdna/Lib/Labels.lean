/-
AdaIdna/Lib/Labels.lean

Strings cut at a separator.

`List.splitOn` cuts a string into its labels and `join` puts labels together.
A walk over a string that takes one label at a time sees what `cut_cases`
says.  The count of separators ties labels to their images: where rewriting
every label of a string leaves the string as it was, it leaves every label as
it was (`eq_of_join_map_eq`), also if the rewriting could produce separators.
-/
import Mathlib.Tactic
import Mathlib.Data.List.TakeWhile

namespace Labels

variable {α β : Type*} {sep : α} {s l : List α} {ls ms : List (List α)}

/-- Labels, with separators between them. -/
def join (sep : α) (ls : List (List α)) : List α := [sep].intercalate ls

@[simp] theorem join_nil : join sep [] = [] := rfl

@[simp] theorem join_singleton (l : List α) : join sep [l] = l := by simp [join]

@[simp] theorem join_cons_cons (l l' : List α) (ls : List (List α)) :
    join sep (l :: l' :: ls) = l ++ sep :: join sep (l' :: ls) := by
  simp [join]

theorem join_cons (hls : ls ≠ []) (l : List α) : join sep (l :: ls) = l ++ sep :: join sep ls := by
  obtain ⟨l', ls, rfl⟩ := List.exists_cons_of_ne_nil hls
  exact join_cons_cons l l' ls

theorem join_append (hls : ls ≠ []) (hms : ms ≠ []) :
    join sep (ls ++ ms) = join sep ls ++ sep :: join sep ms := by
  induction ls with
  | nil => exact absurd rfl hls
  | cons l ls ih =>
    cases ls with
    | nil => rw [List.singleton_append, join_cons hms, join_singleton]
    | cons l' ls =>
      rw [List.cons_append, join_cons (by simp), ih (List.cons_ne_nil _ _), join_cons_cons]
      simp

/-- What a walk over the labels sees: the last label, or a label and the
separator behind it. -/
theorem cut_cases [DecidableEq α] (sep : α) (s : List α) :
    (s.takeWhile (· ≠ sep) = s ∧ s.dropWhile (· ≠ sep) = [] ∧ s.splitOn sep = [s]) ∨
      ∃ l rest, s = l ++ sep :: rest ∧ s.takeWhile (· ≠ sep) = l ∧
        s.dropWhile (· ≠ sep) = sep :: rest ∧ s.splitOn sep = l :: rest.splitOn sep := by
  by_cases hs : sep ∈ s
  · right
    obtain ⟨l, rest, rfl, hl⟩ := List.eq_append_cons_of_mem hs
    have hne : ∀ x ∈ l, decide (x ≠ sep) = true := by
      intro x hx
      rw [decide_eq_true_iff]
      rintro rfl
      exact hl hx
    refine ⟨l, rest, rfl, ?_, ?_, List.splitOn_append_cons_self_of_not_mem hl rest⟩
    · rw [List.takeWhile_append_of_pos hne]
      simp
    · rw [List.dropWhile_append_of_pos hne]
      simp
  · left
    have hne : ∀ x ∈ s, decide (x ≠ sep) = true := by
      intro x hx
      rw [decide_eq_true_iff]
      rintro rfl
      exact hs hx
    exact ⟨List.takeWhile_eq_self_iff.mpr hne, List.dropWhile_eq_nil_iff.mpr hne,
      List.splitOn_eq_singleton hs⟩

theorem join_splitOn [DecidableEq α] (sep : α) (s : List α) : join sep (s.splitOn sep) = s :=
  List.intercalate_splitOn sep

theorem splitOn_join [DecidableEq α] (hls : ls ≠ []) (h : ∀ l ∈ ls, sep ∉ l) :
    (join sep ls).splitOn sep = ls :=
  List.splitOn_intercalate sep h hls

theorem not_mem_of_mem_splitOn [DecidableEq α] (h : l ∈ s.splitOn sep) : sep ∉ l := by
  induction hn : s.length using Nat.strong_induction_on generalizing s with
  | h n ih =>
    rcases cut_cases sep s with ⟨htake, -, hsplit⟩ | ⟨l', rest, rfl, htake, -, hsplit⟩
    · rw [hsplit, List.mem_singleton] at h
      subst h
      rw [← htake]
      intro hmem
      simpa using List.mem_takeWhile_imp hmem
    · rw [hsplit, List.mem_cons] at h
      rcases h with rfl | h
      · rw [← htake]
        intro hmem
        simpa using List.mem_takeWhile_imp hmem
      · refine ih rest.length ?_ h rfl
        rw [← hn, List.length_append, List.length_cons]
        omega

theorem mem_join_of_mem {x : α} (h : l ∈ ls) (hx : x ∈ l) : x ∈ join sep ls := by
  induction ls with
  | nil => cases h
  | cons l' ls ih =>
    rcases List.mem_cons.mp h with rfl | h
    · cases ls with
      | nil => rwa [join_singleton]
      | cons l' ls => exact List.mem_append_left _ hx
    · rw [join_cons (List.ne_nil_of_mem h)]
      exact List.mem_append_right _ (List.mem_cons_of_mem _ (ih h))

theorem mem_of_mem_splitOn [DecidableEq α] (h : l ∈ s.splitOn sep) {x : α} (hx : x ∈ l) :
    x ∈ s := by
  rw [← join_splitOn sep s]
  exact mem_join_of_mem h hx

theorem mem_join {x : α} (h : x ∈ join sep ls) : x = sep ∨ ∃ l ∈ ls, x ∈ l := by
  induction ls with
  | nil => cases h
  | cons l ls ih =>
    cases ls with
    | nil =>
      rw [join_singleton] at h
      exact Or.inr ⟨l, List.mem_cons_self, h⟩
    | cons l' ls =>
      rw [join_cons_cons, List.mem_append, List.mem_cons] at h
      rcases h with h | rfl | h
      · exact Or.inr ⟨l, List.mem_cons_self, h⟩
      · exact Or.inl rfl
      · rcases ih h with rfl | ⟨m, hm, hx⟩
        · exact Or.inl rfl
        · exact Or.inr ⟨m, List.mem_cons_of_mem _ hm, hx⟩

theorem flatMap_join {f : α → List β} {sep' : β} (hsep : f sep = [sep']) (ls : List (List α)) :
    (join sep ls).flatMap f = join sep' (ls.map fun l => l.flatMap f) := by
  induction ls with
  | nil => rfl
  | cons l ls ih =>
    cases ls with
    | nil => simp
    | cons l' ls =>
      rw [join_cons_cons, List.flatMap_append, List.flatMap_cons, hsep, ih]
      simp

/-- One separator fewer than labels, and those inside the labels. -/
theorem map_join (f : α → β) (ls : List (List α)) :
    (join sep ls).map f = join (f sep) (ls.map (List.map f)) := by
  induction ls with
  | nil => rfl
  | cons l ls ih =>
    cases ls with
    | nil => simp
    | cons l' ls =>
      rw [join_cons_cons, List.map_append, List.map_cons, ih]
      exact (join_cons_cons _ _ _).symm

/-- A renaming of the characters renames those of the labels. -/
theorem splitOn_map [DecidableEq α] [DecidableEq β] {f : α → β} (hf : Function.Injective f)
    (sep : α) (s : List α) : (s.map f).splitOn (f sep) = (s.splitOn sep).map (List.map f) := by
  conv_lhs => rw [← join_splitOn sep s, map_join]
  apply splitOn_join (by simp)
  rintro l' hl'
  obtain ⟨l, hl, rfl⟩ := List.mem_map.mp hl'
  rw [List.mem_map_of_injective hf]
  exact not_mem_of_mem_splitOn hl

theorem length_le_join (hl : l ∈ ls) : l.length ≤ (join sep ls).length := by
  induction ls with
  | nil => cases hl
  | cons l' ls ih =>
    by_cases hls : ls = []
    · subst hls
      rw [List.mem_singleton.mp hl, join_singleton]
    · rw [join_cons hls, List.length_append, List.length_cons]
      rcases List.mem_cons.mp hl with rfl | hl
      · exact Nat.le_add_right _ _
      · exact (ih hl).trans (Nat.le_succ_of_le (Nat.le_add_left _ _))

theorem length_le_of_mem_splitOn [DecidableEq α] (hl : l ∈ s.splitOn sep) :
    l.length ≤ s.length := by
  have h : l.length ≤ (join sep (s.splitOn sep)).length := length_le_join hl
  rwa [join_splitOn] at h

theorem count_join [DecidableEq α] (hls : ls ≠ []) :
    (join sep ls).count sep + 1 = (ls.map (List.count sep)).sum + ls.length := by
  induction ls with
  | nil => exact absurd rfl hls
  | cons l ls ih =>
    cases ls with
    | nil => simp
    | cons l' ls =>
      have h := ih (List.cons_ne_nil _ _)
      rw [join_cons_cons, List.count_append, List.count_cons_self, List.map_cons, List.sum_cons,
        List.length_cons, Nat.add_assoc (l.count sep), h]
      ring

theorem sum_count_eq_zero [DecidableEq α] (h : ∀ l ∈ ls, sep ∉ l) :
    (ls.map (List.count sep)).sum = 0 := by
  apply List.sum_eq_zero
  intro n hn
  obtain ⟨l, hl, rfl⟩ := List.mem_map.mp hn
  exact List.count_eq_zero.mpr (h l hl)

/-- Joining inserts one separator less than there are labels. -/
theorem count_join_of_not_mem [DecidableEq α] (hls : ls ≠ []) (h : ∀ l ∈ ls, sep ∉ l) :
    (join sep ls).count sep + 1 = ls.length := by
  rw [count_join hls, sum_count_eq_zero h, Nat.zero_add]

theorem count_add_one [DecidableEq α] (sep : α) (s : List α) :
    s.count sep + 1 = (s.splitOn sep).length := by
  have hne : s.splitOn sep ≠ [] := by simp
  rw [← count_join_of_not_mem hne fun l => not_mem_of_mem_splitOn, join_splitOn]

theorem join_inj [DecidableEq α] (hls : ls ≠ []) (hms : ms ≠ []) (hl : ∀ l ∈ ls, sep ∉ l)
    (hm : ∀ l ∈ ms, sep ∉ l) (h : join sep ls = join sep ms) : ls = ms := by
  rw [← splitOn_join hls hl, h, splitOn_join hms hm]

/-- **Rewriting the labels of a string that stays the same** leaves every
label the same. -/
theorem eq_of_join_map_eq [DecidableEq α] {F : List α → List α} (hl : ∀ l ∈ ls, sep ∉ l)
    (h : join sep (ls.map F) = join sep ls) : ∀ l ∈ ls, F l = l := by
  by_cases hls : ls = []
  · simp [hls]
  have hmap : ls.map F ≠ [] := by simpa using hls
  -- no image has a separator, because the number of separators is the same
  have hsum : ((ls.map F).map (List.count sep)).sum = (ls.map (List.count sep)).sum := by
    have h1 : (join sep ls).count sep + 1 = _ := count_join hls
    have h2 : (join sep (ls.map F)).count sep + 1 = _ := count_join hmap
    rw [h, h1, List.length_map] at h2
    omega
  have hfree : ∀ l ∈ ls.map F, sep ∉ l := by
    intro l hmem
    apply List.count_eq_zero.mp
    exact List.sum_eq_zero_iff.mp (hsum.trans (sum_count_eq_zero hl)) _ (List.mem_map_of_mem hmem)
  have heq := join_inj hmap hls hfree hl h
  intro l hmem
  have hcongr : ls.map F = ls.map id := by rw [heq, List.map_id]
  exact List.map_eq_map_iff.mp hcongr l hmem

end Labels
