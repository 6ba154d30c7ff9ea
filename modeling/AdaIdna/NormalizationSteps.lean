/-
AdaIdna/NormalizationSteps.lean

The steps of normalization one by one, on any string.

`decompose` is followed round by round (`decomposeRounds`): the write index is
where the decompositions of the unread characters will end, so it never goes
below them (`decompose_lossless`).  `sort_marks` sorts each run of marks and
moves nothing else (`sortMarks_canonicalOrdering`).  `would_compose` answers
whether `compose` changes the string, which then gets shorter
(`wouldCompose_iff`).
-/
import AdaIdna.CanonicalEquivalence

namespace AdaIdna

open CanonicalOrder Cluster

variable {T : Tables}

/-! ### In-place decomposition -/

variable (T) in
/-- So many rounds of the loop of `decompose`, from `inputCount` down. -/
def decomposeRounds : ℕ → ℕ → U32String × ℕ → U32String × ℕ
  | 0, _, r => r
  | rounds + 1, inputCount, r =>
    decomposeRounds rounds (inputCount - 1) (decomposeStep T (r.1.getD (inputCount - 1) 0) r)

/-- The loop goes on from where the rounds stop. -/
theorem decomposeLoop_rounds (rounds k : ℕ) (r : U32String × ℕ) :
    decomposeLoop T (k + rounds) r
      = decomposeLoop T k (decomposeRounds T rounds (k + rounds) r) := by
  induction rounds generalizing r with
  | zero => rfl
  | succ rounds ih =>
    rw [← Nat.add_assoc, decomposeLoop, ih, decomposeRounds, Nat.add_sub_cancel]

/-- **The rounds of the loop**: what is unread is as it was, what is written
are decompositions, and the gap between is as long as the slack of what is
unread. -/
theorem decomposeRounds_eq (A B J R : U32String) (hJ : J.length = slack T (A ++ B)) :
    ∃ J', J'.length = slack T A ∧
      decomposeRounds T B.length (A ++ B).length (A ++ B ++ J ++ R, (A ++ B).length + J.length)
        = (A ++ J' ++ (B.flatMap (fullDecomp T) ++ R), A.length + J'.length) := by
  -- from the back, as the loop goes
  induction B using List.reverseRecOn generalizing J R with
  | nil =>
    rw [List.append_nil] at hJ
    exact ⟨J, hJ, by rw [List.append_nil]; rfl⟩
  | append_singleton B c ih =>
    rw [← List.append_assoc] at hJ ⊢
    obtain ⟨J₁, hJ₁, hround⟩ := decomposeRound_eq (A ++ B) J R c hJ
    obtain ⟨J', hJ', hrounds⟩ := ih J₁ (fullDecomp T c ++ R) hJ₁
    refine ⟨J', hJ', ?_⟩
    have hcount : (A ++ B ++ [c]).length - 1 = (A ++ B).length := by
      rw [List.length_append, List.length_singleton, Nat.add_sub_cancel]
    have hrun : (B ++ [c]).length = B.length + 1 := by
      rw [List.length_append, List.length_singleton]
    rw [hrun, decomposeRounds, hcount, hround, hrounds, List.flatMap_append, List.flatMap_singleton,
      List.append_assoc (B.flatMap _)]

/-- **In-place decomposition is lossless.**  With `k` characters unread, the
write index is the length of their decompositions, so it is not below `k`; the
unread characters are still there and behind the index stand the
decompositions of the others. -/
theorem decompose_lossless (s : U32String) :
    decompose T s (computeDecompositionLength T s).2 = s.flatMap (fullDecomp T) ∧
      ∀ k ≤ s.length,
        let n := (computeDecompositionLength T s).2
        let r := decomposeRounds T (s.length - k) s.length
          (s ++ List.replicate n 0, (s ++ List.replicate n 0).length)
        decompose T s n = (decomposeLoop T k r).1 ∧
          r.2 = ((s.take k).flatMap (fullDecomp T)).length ∧ k ≤ r.2 ∧
          r.1.take k = s.take k ∧ r.1.drop r.2 = (s.drop k).flatMap (fullDecomp T) := by
  rw [computeDecompositionLength_eq]
  refine ⟨decompose_eq s, fun k hk => ?_⟩
  have hlen : (s.take k).length = k := by rw [List.length_take, min_eq_left hk]
  have hdrop : (s.drop k).length = s.length - k := List.length_drop
  have hslack : (List.replicate (slack T s) 0).length = slack T (s.take k ++ s.drop k) := by
    rw [List.length_replicate, List.take_append_drop]
  obtain ⟨J', hJ', hrounds⟩ := decomposeRounds_eq (s.take k) (s.drop k) _ [] hslack
  rw [List.take_append_drop, List.append_nil, List.append_nil, ← List.length_append, hdrop]
    at hrounds
  dsimp only
  rw [hrounds, length_flatMap_fullDecomp, hlen, hJ']
  refine ⟨?_, rfl, Nat.le_add_right _ _, ?_, ?_⟩
  · rw [decompose, List.length_append, List.length_replicate, Nat.add_sub_cancel]
    have hloop := decomposeLoop_rounds (T := T) (s.length - k) k
      (s ++ List.replicate (slack T s) 0, (s ++ List.replicate (slack T s) 0).length)
    rw [Nat.add_sub_cancel' hk, hrounds, hlen, hJ', List.length_append, List.length_replicate]
      at hloop
    rw [hloop]
  · rw [List.append_assoc, List.take_left' hlen]
  · rw [List.drop_left' (by rw [List.length_append, hlen, hJ'])]

/-- `éA` in the small tables, with one character unread. -/
theorem decompose_lossless_small :
    decompose smallTables [0xE9, 0x41] 1 = [0x65, 0x301, 0x41] ∧
      decompose smallTables [0xE9, 0x41] 1
        = (decomposeLoop smallTables 1 ([0xE9, 0x41, 0x41], 2)).1 :=
  ⟨(decompose_lossless (T := smallTables) [0xE9, 0x41]).1,
    ((decompose_lossless (T := smallTables) [0xE9, 0x41]).2 1 (by decide)).1⟩

/-! ### The order of the marks -/

/-- **`sort_marks` is the Canonical Ordering Algorithm**: a permutation that
moves no character of class 0 and sorts each run between two of them, or
between one and an end of the string. -/
theorem sortMarks_canonicalOrdering (s : U32String) :
    (sortMarks T s).Perm s ∧
      (∀ i c : ℕ, s[i]? = some c → getCcc T c = 0 → (sortMarks T s)[i]? = some c) ∧
      ∀ A M B : U32String, s = A ++ M ++ B → (∀ c ∈ M, getCcc T c ≠ 0) →
        (∀ p ∈ A.getLast?, getCcc T p = 0) → (∀ p ∈ B.head?, getCcc T p = 0) →
        StableSort (getCcc T) M (((sortMarks T s).drop A.length).take M.length) := by
  rw [sortMarks_eq]
  refine ⟨order_perm s, fun i c hi hc => getElem?_order hi hc, ?_⟩
  rintro A M B rfl hM hA hB
  rw [order_append_of_head? hB, order_append_of_getLast? hA, List.append_assoc,
    List.drop_left' (order_perm A).length_eq, List.take_left' (order_perm M).length_eq]
  exact stableSort_order hM

/-- Two acute accents with a grave accent below between them, which comes first. -/
theorem sortMarks_canonicalOrdering_below :
    (sortMarks belowTables [0x65, 0x301, 0x316, 0x301, 0x2E]).Perm
        [0x65, 0x301, 0x316, 0x301, 0x2E] ∧
      (sortMarks belowTables [0x65, 0x301, 0x316, 0x301, 0x2E])[4]? = some 0x2E ∧
      StableSort (getCcc belowTables) [0x301, 0x316, 0x301] [0x316, 0x301, 0x301] := by
  obtain ⟨hperm, hfixed, hruns⟩ :=
    sortMarks_canonicalOrdering (T := belowTables) [0x65, 0x301, 0x316, 0x301, 0x2E]
  refine ⟨hperm, hfixed 4 0x2E rfl (by decide +kernel), ?_⟩
  have hrun := hruns [0x65] [0x301, 0x316, 0x301] [0x2E] rfl (by decide +kernel)
    (by decide +kernel) (by decide +kernel)
  have hsorted : ((sortMarks belowTables [0x65, 0x301, 0x316, 0x301, 0x2E]).drop 1).take 3
      = [0x316, 0x301, 0x301] := by
    decide +kernel
  rwa [← hsorted]

/-! ### Composition and its predicate -/

variable {g : Cluster} {s : U32String}

/-- Every character is written once or absorbed. -/
theorem length_composeFrom_le (g : Cluster) (s : U32String) :
    (composeFrom T g s).length ≤ g.text.length + s.length := by
  induction s generalizing g with
  | nil => exact le_rfl
  | cons m s ih =>
    rw [List.length_cons]
    rcases h : g.next T m with g' | g' | -
    · have hlen := length_text_absorbed h
      have hle := ih g'
      rw [composeFrom_absorbed h]
      omega
    · have hlen := congrArg List.length (text_passed h)
      have hle := ih g'
      rw [List.length_append, List.length_singleton] at hlen
      rw [composeFrom_passed h]
      omega
    · have hle := ih (start m)
      rw [text_start, List.length_singleton] at hle
      rw [composeFrom_closed h, List.length_append]
      show _ + (composeFrom T (start m) s).length ≤ _
      omega

/-- A machine that absorbs nothing writes what it reads. -/
theorem composeFrom_of_not_absorbs (h : absorbsFrom T g s = false) :
    composeFrom T g s = g.text ++ s := by
  induction s generalizing g with
  | nil => exact (List.append_nil _).symm
  | cons m s ih =>
    rw [absorbsFrom] at h
    rcases hm : g.next T m with g' | g' | -
    · rw [hm] at h
      cases h
    · rw [hm] at h
      rw [composeFrom_passed hm, ih h, text_passed hm, List.append_assoc, List.singleton_append]
    · rw [hm] at h
      rw [composeFrom_closed hm, composeText, ih h, text_start, List.singleton_append]

/-- One that absorbs something writes less. -/
theorem length_composeFrom_lt (h : absorbsFrom T g s = true) :
    (composeFrom T g s).length < g.text.length + s.length := by
  induction s generalizing g with
  | nil => cases h
  | cons m s ih =>
    rw [absorbsFrom] at h
    rw [List.length_cons]
    rcases hm : g.next T m with g' | g' | -
    · -- the character is gone, and none is written for it
      have hlen := length_text_absorbed hm
      have hle := length_composeFrom_le (T := T) g' s
      rw [composeFrom_absorbed hm]
      omega
    · rw [hm] at h
      have hlen := congrArg List.length (text_passed hm)
      have hlt := ih h
      rw [List.length_append, List.length_singleton] at hlen
      rw [composeFrom_passed hm]
      omega
    · rw [hm] at h
      have hlt := ih h
      rw [text_start, List.length_singleton] at hlt
      rw [composeFrom_closed hm, List.length_append]
      show _ + (composeFrom T (start m) s).length < _
      omega

theorem composeText_of_not_absorbs (h : absorbs T s = false) : composeText T s = s := by
  cases s with
  | nil => rfl
  | cons c s => rw [composeText, composeFrom_of_not_absorbs h, text_start, List.singleton_append]

theorem length_composeText_lt (h : absorbs T s = true) : (composeText T s).length < s.length := by
  cases s with
  | nil => cases h
  | cons c s =>
    have hlt := length_composeFrom_lt h
    rw [text_start, List.length_singleton] at hlt
    rw [composeText, List.length_cons]
    omega

/-- **`would_compose` mirrors `compose`**: it says whether `compose` changes
the string, and a string that is changed gets shorter. -/
theorem wouldCompose_iff (s : U32String) :
    (wouldCompose T s = true ↔ compose T s ≠ s) ∧
      (wouldCompose T s = true ↔ (compose T s).length < s.length) := by
  rw [wouldCompose_eq, compose_eq]
  rcases h : absorbs T s with - | -
  · rw [composeText_of_not_absorbs h]
    exact ⟨iff_of_false Bool.false_ne_true (not_not.mpr rfl),
      iff_of_false Bool.false_ne_true (lt_irrefl _)⟩
  · have hlt := length_composeText_lt h
    refine ⟨iff_of_true rfl ?_, iff_of_true rfl hlt⟩
    intro heq
    rw [heq] at hlt
    exact lt_irrefl _ hlt

end AdaIdna
