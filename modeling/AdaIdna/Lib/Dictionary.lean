/-
AdaIdna/Lib/Dictionary.lean

Dictionaries as the list of their items, in the order in which the keys came.

`setItem` replaces the value of a key where the key is, or adds the key at the
end.  No key is ever listed twice (`nodup_setItem`), and setting new keys one
after another appends them (`foldl_setItem`).
-/
import Mathlib.Tactic

namespace Dictionary

variable {κ ν : Type*} [DecidableEq κ] {d : List (κ × ν)} {e : κ × ν} {ks : List κ} {k : κ} {v : ν}

/-- `d[k] = v` -/
def setItem : List (κ × ν) → κ → ν → List (κ × ν)
  | [], k, v => [(k, v)]
  | e :: d, k, v => if e.1 = k then (k, v) :: d else e :: setItem d k v

/-- The keys do not depend on the values. -/
theorem map_fst_setItem (d : List (κ × ν)) (k : κ) (v : ν) :
    (setItem d k v).map Prod.fst
      = if k ∈ d.map Prod.fst then d.map Prod.fst else d.map Prod.fst ++ [k] := by
  induction d with
  | nil => rfl
  | cons e d ih =>
    rw [setItem]
    by_cases he : e.1 = k
    · rw [if_pos he, if_pos]
      · rw [List.map_cons, List.map_cons, he]
      · rw [List.map_cons, he]
        exact List.mem_cons_self
    · rw [if_neg he, List.map_cons, List.map_cons, ih]
      by_cases hk : k ∈ d.map Prod.fst
      · rw [if_pos hk, if_pos (List.mem_cons_of_mem _ hk)]
      · rw [if_neg hk, if_neg, List.cons_append]
        rw [List.mem_cons]
        rintro (rfl | hmem)
        · exact he rfl
        · exact hk hmem

theorem nodup_setItem (h : (d.map Prod.fst).Nodup) (k : κ) (v : ν) :
    ((setItem d k v).map Prod.fst).Nodup := by
  rw [map_fst_setItem]
  split
  · exact h
  · rename_i hk
    rw [List.nodup_append]
    refine ⟨h, List.nodup_singleton k, fun a ha b hb => ?_⟩
    rintro rfl
    rw [List.mem_singleton] at hb
    exact hk (hb ▸ ha)

theorem setItem_of_not_mem (h : k ∉ d.map Prod.fst) (v : ν) : setItem d k v = d ++ [(k, v)] := by
  induction d with
  | nil => rfl
  | cons e d ih =>
    rw [List.map_cons, List.mem_cons, not_or] at h
    rw [setItem, if_neg (Ne.symm h.1), ih h.2, List.cons_append]

/-- **New keys** are appended. -/
theorem foldl_setItem (hks : ks.Nodup) (h : ∀ k ∈ ks, k ∉ d.map Prod.fst) (v : ν) :
    ks.foldl (fun d k => setItem d k v) d = d ++ ks.map (·, v) := by
  induction ks generalizing d with
  | nil => simp
  | cons k ks ih =>
    rw [List.nodup_cons] at hks
    rw [List.foldl_cons, setItem_of_not_mem (h k List.mem_cons_self), ih hks.2]
    · simp
    · intro k' hk'
      rw [List.map_append, List.mem_append, not_or]
      refine ⟨h k' (List.mem_cons_of_mem k hk'), fun hmem => ?_⟩
      rw [List.map_singleton, List.mem_singleton] at hmem
      subst hmem
      exact hks.1 hk'

end Dictionary
