/-
AdaIdna/Decomposition.lean

What `decompose_nfc` computes.

`fullDecomp T c` is the canonical decomposition of one character, by the
Hangul formulas or from the table.  `decompose` writes the decompositions from
the back of the enlarged string to its front; the write index stays in front
of nothing that is still to be read, because the gap between the two indices
is exactly as long as the decompositions that are still to come make it
(`slack`).  `sort_marks` is `CanonicalOrder.order` with the combining class as
key.  Together: `decomposeNfc_eq`.
-/
import AdaIdna.Normalization
import AdaIdna.Lib.Buffer
import AdaIdna.Lib.CanonicalOrder

namespace AdaIdna

open CanonicalOrder

variable (T : Tables)

/-! ### The decomposition of a character -/

/-- The canonical decomposition that the table stores, or nothing. -/
def storedDecomp (c : ℕ) : U32String :=
  decompositionSlice T (T.decomposition c 0 / 4) (canonicalDecompLength T c)

/-- The algorithmic decomposition of a Hangul syllable. -/
def hangulDecomp (c : ℕ) : U32String :=
  [hangulLbase + (c - hangulSbase) / hangulNcount,
    hangulVbase + (c - hangulSbase) % hangulNcount / hangulTcount]
    ++ if (c - hangulSbase) % hangulTcount ≠ 0 then
        [hangulTbase + (c - hangulSbase) % hangulTcount]
      else []

/-- The canonical decomposition of a character. -/
def fullDecomp (c : ℕ) : U32String :=
  if isHangulS c then hangulDecomp c
  else if storedDecomp T c = [] then [c] else storedDecomp T c

variable {T} {c : ℕ}

@[simp] theorem length_decompositionSlice (base length : ℕ) :
    (decompositionSlice T base length).length = length := by
  simp [decompositionSlice]

@[simp] theorem length_storedDecomp (c : ℕ) :
    (storedDecomp T c).length = canonicalDecompLength T c :=
  length_decompositionSlice _ _

theorem storedDecomp_eq_nil_iff : storedDecomp T c = [] ↔ canonicalDecompLength T c = 0 := by
  rw [← List.length_eq_zero_iff, length_storedDecomp]

/-- Only code points are stored with a decomposition. -/
theorem lt_of_storedDecomp (hs : ¬ isHangulS c) (hd : storedDecomp T c ≠ []) : c < codeSpace := by
  by_contra hc
  apply hd
  rw [storedDecomp_eq_nil_iff, canonicalDecompLength, if_neg hs, if_pos (not_lt.mp hc)]

theorem fullDecomp_of_hangul (h : isHangulS c) : fullDecomp T c = hangulDecomp c := if_pos h

theorem fullDecomp_of_stored (h : ¬ isHangulS c) (h' : storedDecomp T c ≠ []) :
    fullDecomp T c = storedDecomp T c := by
  rw [fullDecomp, if_neg h, if_neg h']

theorem fullDecomp_of_none (h : ¬ isHangulS c) (h' : storedDecomp T c = []) :
    fullDecomp T c = [c] := by
  rw [fullDecomp, if_neg h, if_pos h']

theorem fullDecomp_ne_nil (c : ℕ) : fullDecomp T c ≠ [] := by
  rw [fullDecomp]
  split
  · simp [hangulDecomp]
  · split
    · simp
    · assumption

/-- What `compute_decomposition_length` counts for a character. -/
theorem decompositionLengthOf_spec (c : ℕ) :
    decompositionLengthOf T c = 0 ∧ fullDecomp T c = [c] ∨
      decompositionLengthOf T c ≠ 0 ∧ (fullDecomp T c).length = decompositionLengthOf T c := by
  by_cases hs : isHangulS c
  · right
    rw [fullDecomp_of_hangul hs, decompositionLengthOf, if_pos hs, hangulDecomp]
    split <;> simp
  · have hlen : decompositionLengthOf T c = canonicalDecompLength T c := by
      rw [decompositionLengthOf, canonicalDecompLength, if_neg hs, if_neg hs]
      by_cases hc : c < codeSpace
      · rw [if_pos hc, if_neg (not_le.mpr hc)]
      · rw [if_neg hc, if_pos (not_lt.mp hc)]
    rw [hlen]
    by_cases h : storedDecomp T c = []
    · exact Or.inl ⟨storedDecomp_eq_nil_iff.mp h, fullDecomp_of_none hs h⟩
    · refine Or.inr ⟨fun h0 => h (storedDecomp_eq_nil_iff.mpr h0), ?_⟩
      rw [fullDecomp_of_stored hs h, length_storedDecomp]

/-! ### Writing a decomposition -/

theorem writeDown_append (x z : ℕ) (P R : U32String) :
    writeDown x (P ++ z :: R, P.length + 1) = (P ++ x :: R, P.length) := by
  rw [writeDown]
  dsimp only
  rw [Nat.add_sub_cancel, Buffer.set_append rfl]

/-- `writeDown` for every character of a list, last one first. -/
def writeAll (vs : U32String) (r : U32String × ℕ) : U32String × ℕ := vs.foldr writeDown r

theorem writeAll_append (vs P Q R : U32String) (h : Q.length = vs.length) :
    writeAll vs (P ++ Q ++ R, P.length + Q.length) = (P ++ vs ++ R, P.length) := by
  induction vs generalizing P Q with
  | nil =>
    obtain rfl := List.eq_nil_of_length_eq_zero h
    rfl
  | cons v vs ih =>
    cases Q with
    | nil => cases h
    | cons q Q =>
      have h' := ih (P ++ [q]) Q (Nat.succ.inj h)
      have hlen : P.length + (q :: Q).length = (P ++ [q]).length + Q.length := by
        rw [List.length_append, List.length_cons, List.length_singleton]
        omega
      rw [hlen, show P ++ q :: Q ++ R = P ++ [q] ++ Q ++ R by simp]
      show writeDown v (writeAll vs _) = _
      rw [h', List.length_append, List.length_singleton,
        show P ++ [q] ++ vs ++ R = P ++ q :: (vs ++ R) by simp, writeDown_append]
      simp

theorem copyDown_eq (base length : ℕ) (r : U32String × ℕ) :
    copyDown T base length r = writeAll (decompositionSlice T base length) r := by
  induction length generalizing r with
  | zero => rfl
  | succ length ih =>
    rw [copyDown, ih, decompositionSlice, decompositionSlice, List.range_succ, List.map_append,
      writeAll, writeAll, List.foldr_append]
    rfl

theorem storedDecomp_le_size (hs : ¬ isHangulS c) (hc : c < codeSpace) :
    T.decomposition c 0 / 4 + canonicalDecompLength T c ≤ T.decompositionDataSize := by
  have hle := T.decomposition_le c hc
  have hsize := T.decomposition_le_size c hc
  rw [canonicalDecompLength, if_neg hs, if_neg (not_le.mpr hc), tableDecompLength]
  split <;> omega

/-- **A round of `decompose` writes the decomposition of its character.** -/
theorem decomposeStep_eq (c : ℕ) (r : U32String × ℕ) :
    decomposeStep T c r = writeAll (fullDecomp T c) r := by
  by_cases hs : isHangulS c
  · rw [decomposeStep, if_pos hs, fullDecomp_of_hangul hs, hangulDecomp]
    dsimp only
    split <;> rfl
  · rw [decomposeStep, if_neg hs]
    by_cases hc : c < codeSpace
    · have hlen : tableDecompLength T c = canonicalDecompLength T c := by
        rw [canonicalDecompLength, if_neg hs, if_neg (not_le.mpr hc)]
      rw [if_pos hc, hlen]
      dsimp only
      by_cases h : storedDecomp T c = []
      · rw [fullDecomp_of_none hs h, if_neg (by rw [storedDecomp_eq_nil_iff.mp h]; simp)]
        rfl
      · have hpos : 0 < canonicalDecompLength T c :=
          Nat.pos_of_ne_zero fun h0 => h (storedDecomp_eq_nil_iff.mpr h0)
        rw [fullDecomp_of_stored hs h, if_pos hpos,
          if_neg (not_lt.mpr (storedDecomp_le_size hs hc)), copyDown_eq]
        rfl
    · have h : storedDecomp T c = [] := by
        rw [storedDecomp_eq_nil_iff, canonicalDecompLength, if_neg hs, if_pos (not_lt.mp hc)]
      rw [if_neg hc, fullDecomp_of_none hs h]
      rfl

/-! ### In-place decomposition -/

variable (T) in
/-- How much longer the decompositions are than the string. -/
def slack (s : U32String) : ℕ := (s.map fun c => (fullDecomp T c).length - 1).sum

theorem length_fullDecomp_pos (c : ℕ) : 0 < (fullDecomp T c).length :=
  List.length_pos_iff.mpr (fullDecomp_ne_nil c)

theorem slack_append (s t : U32String) : slack T (s ++ t) = slack T s + slack T t := by
  rw [slack, List.map_append, List.sum_append]
  rfl

theorem length_flatMap_fullDecomp (s : U32String) :
    (s.flatMap (fullDecomp T)).length = s.length + slack T s := by
  induction s with
  | nil => rfl
  | cons c s ih =>
    have hpos := length_fullDecomp_pos (T := T) c
    have hslack : slack T (c :: s) = (fullDecomp T c).length - 1 + slack T s := by
      simp [slack]
    rw [List.flatMap_cons, List.length_append, ih, List.length_cons, hslack]
    omega

/-- **One round of the loop of `decompose`**: the last character that is still
to be read fills the end of the gap, and the gap that is left is as long as the
slack of the others. -/
theorem decomposeRound_eq (A J R : U32String) (c : ℕ) (hJ : J.length = slack T (A ++ [c])) :
    ∃ J', J'.length = slack T A ∧
      decomposeStep T ((A ++ [c] ++ J ++ R).getD A.length 0)
          (A ++ [c] ++ J ++ R, (A ++ [c]).length + J.length)
        = (A ++ J' ++ (fullDecomp T c ++ R), A.length + J'.length) := by
  have hpos := length_fullDecomp_pos (T := T) c
  have hslack : J.length = slack T A + ((fullDecomp T c).length - 1) := by
    rw [hJ, slack_append]
    simp [slack]
  -- the gap with the character itself, split where the decomposition goes
  obtain ⟨J₁, Q, hsplit, hJ₁, hQ⟩ : ∃ J₁ Q, c :: J = J₁ ++ Q ∧ J₁.length = slack T A ∧
      Q.length = (fullDecomp T c).length := by
    refine ⟨(c :: J).take (slack T A), (c :: J).drop (slack T A),
      (List.take_append_drop _ _).symm, ?_, ?_⟩
    · rw [List.length_take, List.length_cons]
      omega
    · rw [List.length_drop, List.length_cons]
      omega
  have hread : (A ++ [c] ++ J ++ R).getD A.length 0 = c := by
    rw [List.append_assoc, List.append_assoc]
    exact Buffer.getD_append rfl
  have hlen : (A ++ [c]).length + J.length = (A ++ J₁).length + Q.length := by
    have := congrArg List.length hsplit
    simp only [List.length_append, List.length_cons, List.length_nil] at this ⊢
    omega
  have hbuf : A ++ [c] ++ J ++ R = A ++ J₁ ++ Q ++ R := by
    rw [List.append_assoc A, List.singleton_append, hsplit, List.append_assoc A J₁ Q]
  refine ⟨J₁, hJ₁, ?_⟩
  rw [hread, decomposeStep_eq, hlen, hbuf, writeAll_append _ _ _ _ hQ,
    List.append_assoc (A ++ J₁), List.length_append]

/-- **The loop of `decompose`**: with a gap as long as the slack of what is
still to be read, the loop ends with the decompositions and an empty gap. -/
theorem decomposeLoop_eq (A J R : U32String) (hJ : J.length = slack T A) :
    decomposeLoop T A.length (A ++ J ++ R, A.length + J.length)
      = (A.flatMap (fullDecomp T) ++ R, 0) := by
  -- from the back, as the loop goes; the invariant is the length of the gap `J`
  induction A using List.reverseRecOn generalizing J R with
  | nil =>
    obtain rfl := List.eq_nil_of_length_eq_zero hJ
    rfl
  | append_singleton A c ih =>
    obtain ⟨J', hJ', hround⟩ := decomposeRound_eq A J R c hJ
    rw [List.length_append, List.length_singleton, decomposeLoop]
    dsimp only
    rw [← List.length_singleton (a := c), ← List.length_append, hround, ih J' _ hJ',
      List.flatMap_append, List.flatMap_singleton, List.append_assoc]

theorem computeDecompositionLength_fold (s : U32String) (b : Bool) (n : ℕ) :
    s.foldl (fun r currentCharacter =>
        let decompositionLength := decompositionLengthOf T currentCharacter
        if decompositionLength ≠ 0 then (true, r.2 + (decompositionLength - 1)) else r) (b, n)
      = (b || s.any fun c => decompositionLengthOf T c != 0, n + slack T s) := by
  induction s generalizing b n with
  | nil => simp [slack]
  | cons c s ih =>
    have hslack : slack T (c :: s) = (fullDecomp T c).length - 1 + slack T s := by
      simp [slack]
    rw [List.foldl_cons, List.any_cons, hslack]
    rcases decompositionLengthOf_spec (T := T) c with ⟨h, h'⟩ | ⟨h, h'⟩
    · simp only [h, ne_eq, not_true_eq_false, if_false, ih, h']
      simp
    · simp only [h, ne_eq, not_false_eq_true, if_true, ih, h', bne_iff_ne.mpr h]
      simp [Nat.add_assoc]

/-- **`compute_decomposition_length` is the slack.** -/
theorem computeDecompositionLength_eq (s : U32String) :
    computeDecompositionLength T s
      = (s.any fun c => decompositionLengthOf T c != 0, slack T s) := by
  rw [computeDecompositionLength, computeDecompositionLength_fold]
  simp

/-- **In-place decomposition** decomposes every character. -/
theorem decompose_eq (s : U32String) :
    decompose T s (slack T s) = s.flatMap (fullDecomp T) := by
  have h := decomposeLoop_eq (T := T) s (List.replicate (slack T s) 0) [] List.length_replicate
  rw [List.append_nil, List.append_nil, List.length_replicate] at h
  rw [decompose]
  simp only [List.length_append, List.length_replicate, Nat.add_sub_cancel, h]

/-! ### Sorting -/

theorem moveBack_eq (c : ℕ) (front : U32String) :
    moveBack T c front = sink (getCcc T) c front := by
  induction front with
  | nil => rfl
  | cons p front ih => rw [moveBack, sink, ih]

theorem sortMarksLoop_eq (front s : U32String) :
    sortMarksLoop T front s = (pushAll (getCcc T) front s).reverse := by
  induction s generalizing front with
  | nil => rfl
  | cons c s ih =>
    rw [sortMarksLoop, pushAll_cons, push]
    split
    · exact ih _
    · rw [ih, moveBack_eq]

/-- **`sort_marks` is the canonical ordering.** -/
theorem sortMarks_eq (s : U32String) : sortMarks T s = order (getCcc T) s :=
  sortMarksLoop_eq [] s

/-- **`decompose_nfc`**: decompose every character, then order the marks. -/
theorem decomposeNfc_eq (s : U32String) :
    decomposeNfc T s = order (getCcc T) (s.flatMap (fullDecomp T)) := by
  rw [decomposeNfc, computeDecompositionLength_eq]
  dsimp only
  rw [sortMarks_eq]
  split
  · rw [decompose_eq]
  · -- no character has a decomposition
    rename_i h
    congr 1
    have hnone : ∀ c ∈ s, fullDecomp T c = [c] := by
      intro c hc
      rcases decompositionLengthOf_spec (T := T) c with ⟨-, h'⟩ | ⟨h', -⟩
      · exact h'
      · exact absurd (List.any_eq_true.mpr ⟨c, hc, by simpa using h'⟩) h
    rw [List.flatMap_congr hnone]
    simp

end AdaIdna
