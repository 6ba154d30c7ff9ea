/-
AdaIdna/Lib/CanonicalCode.lean

Canonical prefix codes from their lengths.

Symbols `0, 1, …` have code lengths, length 0 meaning no code.  The codes of
one length are consecutive numbers in the order of the symbols, and the first
one of each length follows from the counts (`first`).  A number that is a code
of some length, cut down to a shorter length, is past all codes of that length
(`le_div_of_first_le`): reading a code bit by bit, the first match is the
right one, whatever the lengths are.  That a code fits into its length is what
the Kraft sum decides (`first_add_count_le`).
-/
import Mathlib.Tactic
import Mathlib.Data.List.GetD

namespace CanonicalCode

variable {lens : List ℕ} {l j s L : ℕ}

/-- How many symbols have a code of length `l`. -/
def count (lens : List ℕ) (l : ℕ) : ℕ := if l = 0 then 0 else lens.count l

/-- The first code of length `l`. -/
def first (lens : List ℕ) : ℕ → ℕ
  | 0 => 0
  | l + 1 => 2 * (first lens l + count lens l)

/-- How many symbols have a shorter code. -/
def base (lens : List ℕ) : ℕ → ℕ
  | 0 => 0
  | l + 1 => base lens l + count lens l

/-- The symbols with length `l`, in order. -/
def symbolsOf (lens : List ℕ) (l : ℕ) : List ℕ :=
  (List.range lens.length).filter fun s => decide (lens.getD s 0 = l)

/-- The symbols with shorter codes, ordered by length and then by symbol. -/
def symbolsBelow (lens : List ℕ) : ℕ → List ℕ
  | 0 => []
  | l + 1 => symbolsBelow lens l ++ if l = 0 then [] else symbolsOf lens l

/-- The code of a symbol. -/
def codeOf (lens : List ℕ) (s : ℕ) : ℕ :=
  first lens (lens.getD s 0) + (lens.take s).count (lens.getD s 0)

/-- The Kraft sum, in units of the longest codes. -/
def kraft (L : ℕ) (lens : List ℕ) : ℕ := ∑ l ∈ Finset.range (L + 1), count lens l * 2 ^ (L - l)

@[simp] theorem count_zero : count lens 0 = 0 := rfl

theorem count_of_pos (hl : 0 < l) : count lens l = lens.count l := if_neg hl.ne'

@[simp] theorem first_one : first lens 1 = 0 := rfl

/-! ### Symbols -/

theorem symbolsOf_append_singleton (lens : List ℕ) (x l : ℕ) :
    symbolsOf (lens ++ [x]) l = symbolsOf lens l ++ if x = l then [lens.length] else [] := by
  have hfilter : (List.range lens.length).filter (fun s => decide ((lens ++ [x]).getD s 0 = l))
      = symbolsOf lens l := by
    refine List.filter_congr fun s hs => ?_
    rw [List.getD_append _ _ _ _ (List.mem_range.mp hs)]
  rw [symbolsOf, List.length_append, List.length_singleton, List.range_succ, List.filter_append,
    hfilter, List.filter_singleton, List.getD_append_right _ _ _ _ le_rfl, Nat.sub_self]
  simp

theorem length_symbolsOf (lens : List ℕ) (l : ℕ) : (symbolsOf lens l).length = lens.count l := by
  induction lens using List.reverseRecOn with
  | nil => rfl
  | append_singleton lens x ih =>
    rw [symbolsOf_append_singleton, List.length_append, ih, List.count_append,
      List.count_singleton']
    split <;> simp_all

theorem lt_of_mem_symbolsOf (h : s ∈ symbolsOf lens l) : s < lens.length :=
  List.mem_range.mp (List.mem_filter.mp h).1

/-- A symbol stands behind the symbols of its length that precede it. -/
theorem getElem?_symbolsOf (hs : s < lens.length) :
    (symbolsOf lens (lens.getD s 0))[(lens.take s).count (lens.getD s 0)]? = some s := by
  have hsplit : lens = lens.take s ++ lens.getD s 0 :: lens.drop (s + 1) := by
    rw [List.getD_eq_getElem _ _ hs, List.cons_getElem_drop_succ, List.take_append_drop]
  generalize lens.getD s 0 = l at hsplit
  have hlen : (lens.take s).length = s := List.length_take_of_le hs.le
  -- the symbols of the prefix come first, `s` comes next
  obtain ⟨tail, htail⟩ : ∃ tail, symbolsOf lens l = symbolsOf (lens.take s ++ [l]) l ++ tail := by
    conv in symbolsOf lens l => rw [hsplit, List.append_cons]
    generalize lens.take s ++ [l] = pre
    induction lens.drop (s + 1) using List.reverseRecOn with
    | nil => exact ⟨[], by simp⟩
    | append_singleton rest x ih =>
      obtain ⟨tail, htail⟩ := ih
      rw [← List.append_assoc, symbolsOf_append_singleton, htail]
      exact ⟨_, List.append_assoc _ _ _⟩
  rw [htail, symbolsOf_append_singleton, if_pos rfl, hlen, ← length_symbolsOf, List.append_assoc]
  simp

theorem getD_of_mem_symbolsOf (h : s ∈ symbolsOf lens l) : lens.getD s 0 = l :=
  of_decide_eq_true (List.mem_filter.mp h).2

/-- No symbol stands in two places. -/
theorem eq_count_of_getElem?_symbolsOf {k : ℕ} (h : (symbolsOf lens l)[k]? = some s) :
    k = (lens.take s).count l := by
  obtain ⟨hk, hs⟩ := List.getElem?_eq_some_iff.mp h
  have hmem := List.mem_of_getElem? h
  have hplace := getElem?_symbolsOf (lt_of_mem_symbolsOf hmem)
  rw [getD_of_mem_symbolsOf hmem] at hplace
  have hnodup : (symbolsOf lens l).Nodup := List.nodup_range.filter _
  exact (List.getElem?_inj hk hnodup).mp (h.trans hplace.symm)

theorem countP_lt_succ (lens : List ℕ) (l : ℕ) :
    lens.countP (fun x => decide (0 < x ∧ x < l + 1))
      = lens.countP (fun x => decide (0 < x ∧ x < l)) + count lens l := by
  induction lens with
  | nil => simp [count]
  | cons x lens ih =>
    rw [List.countP_cons, List.countP_cons, ih]
    rcases Nat.eq_zero_or_pos l with rfl | hl
    · simp [Nat.pos_iff_ne_zero]
    · rw [count_of_pos hl, count_of_pos hl, List.count_cons]
      simp only [decide_eq_true_eq, beq_iff_eq]
      split_ifs <;> omega

theorem base_eq_countP (lens : List ℕ) (l : ℕ) :
    base lens l = lens.countP fun x => decide (0 < x ∧ x < l) := by
  induction l with
  | zero => simp [base]
  | succ l ih => rw [base, ih, countP_lt_succ]

theorem base_le_length (lens : List ℕ) (l : ℕ) : base lens l ≤ lens.length := by
  rw [base_eq_countP]
  exact List.countP_le_length

theorem length_symbolsBelow (lens : List ℕ) (l : ℕ) :
    (symbolsBelow lens l).length = base lens l := by
  induction l with
  | zero => rfl
  | succ l ih =>
    rw [symbolsBelow, List.length_append, ih, base, count]
    split
    · rfl
    · rw [length_symbolsOf]

/-- The symbols of length `l` begin behind those with shorter codes. -/
theorem exists_symbolsBelow_eq (hl : 0 < l) (h : l < L) :
    ∃ tail, symbolsBelow lens L = symbolsBelow lens l ++ (symbolsOf lens l ++ tail) := by
  induction L with
  | zero => exact absurd h (Nat.not_lt_zero l)
  | succ L ih =>
    rw [symbolsBelow]
    rcases Nat.eq_or_lt_of_le (Nat.le_of_lt_succ h) with rfl | hlt
    · rw [if_neg hl.ne']
      exact ⟨[], by rw [List.append_nil]⟩
    · obtain ⟨tail, htail⟩ := ih hlt
      rw [htail]
      exact ⟨_, by rw [List.append_assoc, List.append_assoc]⟩

theorem count_append_singleton {x : ℕ} (hx : 0 < x) (lens : List ℕ) :
    count (lens ++ [x]) = Function.update (count lens) x (count lens x + 1) := by
  funext l
  by_cases hlx : l = x
  · subst hlx
    rw [Function.update_self, count_of_pos hx, count_of_pos hx, List.count_append,
      List.count_singleton_self]
  · rw [Function.update_of_ne hlx, count, count]
    split
    · rfl
    · rw [List.count_append, List.count_singleton, if_neg (by simpa using Ne.symm hlx),
        Nat.add_zero]

theorem count_append_zero (lens : List ℕ) : count (lens ++ [0]) = count lens := by
  funext l
  rw [count, count]
  split
  · rfl
  · rename_i hl
    rw [List.count_append, List.count_singleton, if_neg (by simpa using Ne.symm hl), Nat.add_zero]

/-! ### Codes -/

theorem codeOf_lt (hs : s < lens.length) (hl : 0 < lens.getD s 0) :
    codeOf lens s < first lens (lens.getD s 0) + count lens (lens.getD s 0) := by
  rw [codeOf, count_of_pos hl]
  apply Nat.add_lt_add_left
  have h := List.getElem?_eq_some_iff.mp (getElem?_symbolsOf hs)
  rw [← length_symbolsOf lens]
  exact h.1

theorem first_le_codeOf (lens : List ℕ) (s : ℕ) : first lens (lens.getD s 0) ≤ codeOf lens s :=
  Nat.le_add_right _ _

/-- The codes of length `l` are past those of every shorter length. -/
theorem first_add_count_mul_le (h : j < l) :
    (first lens j + count lens j) * 2 ^ (l - j) ≤ first lens l := by
  induction l with
  | zero => exact absurd h (Nat.not_lt_zero j)
  | succ l ih =>
    rw [first]
    rcases Nat.eq_or_lt_of_le (Nat.le_of_lt_succ h) with rfl | hlt
    · rw [Nat.add_sub_cancel_left, pow_one, Nat.mul_comm]
    · calc (first lens j + count lens j) * 2 ^ (l + 1 - j)
          = 2 * ((first lens j + count lens j) * 2 ^ (l - j)) := by
            rw [Nat.succ_sub hlt.le, pow_succ]
            ring
        _ ≤ 2 * (first lens l + count lens l) :=
            Nat.mul_le_mul_left 2 ((ih hlt).trans (Nat.le_add_right _ _))

/-- A code of length `l` cut to a shorter length. -/
theorem le_div_of_first_le {c : ℕ} (h : j < l) (hc : first lens l ≤ c) :
    first lens j + count lens j ≤ c / 2 ^ (l - j) := by
  rw [Nat.le_div_iff_mul_le (Nat.two_pow_pos _)]
  exact (first_add_count_mul_le h).trans hc

/-! ### The Kraft sum -/

theorem first_mul_eq (h : l ≤ L) :
    first lens l * 2 ^ (L - l) = ∑ j ∈ Finset.range l, count lens j * 2 ^ (L - j) := by
  induction l with
  | zero => simp [first]
  | succ l ih =>
    rw [Finset.sum_range_succ, ← ih (Nat.le_of_succ_le h), first,
      show L - l = L - (l + 1) + 1 by omega, pow_succ]
    ring

/-- **Codes fit into their length** if the Kraft sum is at most one. -/
theorem first_add_count_le (hk : kraft L lens ≤ 2 ^ L) (h : l ≤ L) :
    first lens l + count lens l ≤ 2 ^ l := by
  have hsum : (first lens l + count lens l) * 2 ^ (L - l) ≤ kraft L lens := by
    rw [Nat.add_mul, first_mul_eq h, ← Finset.sum_range_succ, kraft]
    exact Finset.sum_le_sum_of_subset (Finset.range_subset_range.mpr (by omega))
  apply Nat.le_of_mul_le_mul_right (hsum.trans hk |>.trans_eq _) (Nat.two_pow_pos (L - l))
  rw [← pow_add, Nat.add_sub_cancel' h]

end CanonicalCode
