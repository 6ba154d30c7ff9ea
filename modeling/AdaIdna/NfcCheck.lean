/-
AdaIdna/NfcCheck.lean

The quick check for normal form is sound.

`is_already_nfc` never decomposes the string as a whole.  It looks at every
character's own decomposition, at the classes on either side of each border
between two characters, and at the compositions of the string as it stands.
Where all three tests pass, the decomposed string is in canonical order
(`ordered_flatMap`), every decomposition composes back to its character
(`composeText_fullDecomp`), and nothing is absorbed across a border
(`composeFrom_flatMap`): composing the decomposed string retraces the string
itself, cluster by cluster.
-/
import AdaIdna.CanonicalEquivalence

namespace AdaIdna

open CanonicalOrder Cluster

variable {T : Tables} {c d m previous : ℕ} {g g' : Cluster} {s rest : U32String}

/-! ### What the test on one character says -/

/-- The entry of a stored decomposition is not empty, nor is it a compatibility
entry. -/
theorem tableDecompLength_of_stored (hs : ¬ isHangulS c) (hc : c < codeSpace)
    (hd : storedDecomp T c ≠ []) :
    T.decomposition c 1 / 4 - T.decomposition c 0 / 4 = canonicalDecompLength T c ∧
      ¬ (T.decomposition c 1 / 4 - T.decomposition c 0 / 4 = 0 ∨
        T.decomposition c 0 % 2 = 1) := by
  have hlen : canonicalDecompLength T c = tableDecompLength T c := by
    rw [canonicalDecompLength, if_neg hs, if_neg (not_le.mpr hc)]
  have hpos : tableDecompLength T c ≠ 0 := fun h0 =>
    hd (storedDecomp_eq_nil_iff.mpr (hlen.trans h0))
  rw [hlen]
  rw [tableDecompLength] at hpos ⊢
  split at hpos
  · exact absurd rfl hpos
  · rename_i hcanon
    rw [if_neg hcanon]
    exact ⟨rfl, by omega⟩

theorem head?_storedDecomp (hd : storedDecomp T c ≠ []) :
    (storedDecomp T c).head? = some (T.decompositionData (T.decomposition c 0 / 4)) := by
  obtain ⟨k, hk⟩ := Nat.exists_eq_succ_of_ne_zero fun h0 => hd (storedDecomp_eq_nil_iff.mpr h0)
  rw [storedDecomp, hk, decompositionSlice, List.range_succ_eq_map]
  rfl

/-- The test on a character with a stored decomposition. -/
theorem decompositionIsNotNfc_stored (hs : ¬ isHangulS c) (hc : c < codeSpace)
    (hd : storedDecomp T c ≠ []) :
    decompositionIsNotNfc T previous c
      = if (storedDecomp T c).length = 1 then true
        else if !((compose T (storedDecomp T c)).length == 1
            && (compose T (storedDecomp T c)).getD 0 0 == c) then true
        else decide (previous < codeSpace)
          && hasComposition T previous (T.decompositionData (T.decomposition c 0 / 4)) := by
  obtain ⟨htable, hcanon⟩ := tableDecompLength_of_stored hs hc hd
  rw [decompositionIsNotNfc, if_neg hs, if_neg (not_le.mpr hc)]
  dsimp only
  rw [if_neg hcanon, htable, if_neg (not_lt.mpr (storedDecomp_le_size hs hc)), length_storedDecomp]
  rfl

/-- A stored decomposition that passes the test composes back to its
character, and its first element does not compose with the character before. -/
theorem of_decompositionIsNotNfc (hs : ¬ isHangulS c) (hc : c < codeSpace)
    (hd : storedDecomp T c ≠ []) (h : decompositionIsNotNfc T previous c = false) :
    compose T (storedDecomp T c) = [c] ∧ 2 ≤ (storedDecomp T c).length ∧
      (previous < codeSpace → ∀ d ∈ (storedDecomp T c).head?, findPair T previous d = none) := by
  rw [decompositionIsNotNfc_stored hs hc hd] at h
  split at h
  · cases h
  · rename_i hone
    have hpos := List.length_pos_iff.mpr hd
    split at h
    · cases h
    · rename_i hback
      refine ⟨?_, by omega, fun hp d hd' => ?_⟩
      · -- the recomposed string has one character, and it is `c`
        rcases hl : compose T (storedDecomp T c) with - | ⟨x, - | ⟨y, l⟩⟩
        · simp [hl] at hback
        · simpa [hl] using hback
        · simp [hl] at hback
      · obtain rfl := Option.some.inj ((head?_storedDecomp hd).symm.trans hd')
        rw [decide_eq_true hp, Bool.true_and, hasComposition_eq] at h
        exact Option.isNone_iff_eq_none.mp (by simpa using h)

/-! ### Decompositions compose back -/

theorem length_text_le (g : Cluster) (rest : U32String) :
    g.text.length ≤ (composeFrom T g rest).length := by
  induction rest generalizing g with
  | nil => exact le_rfl
  | cons m rest ih =>
    rw [composeFrom]
    rcases h : g.next T m with g' | g' | -
    · exact (length_text_absorbed h).ge.trans (ih g')
    · refine le_trans ?_ (ih g')
      rw [text_passed h, List.length_append]
      exact Nat.le_add_right _ _
    · rw [List.length_append]
      exact Nat.le_add_right _ _

theorem length_composeFrom_pos (g : Cluster) (rest : U32String) :
    0 < (composeFrom T g rest).length := by
  refine lt_of_lt_of_le ?_ (length_text_le g rest)
  cases g <;> exact Nat.succ_pos _

/-- A starter that takes everything that follows up to one character. -/
theorem composeFrom_eq_singleton (hp : PairsOfStarters T) {a : ℕ} {l : U32String}
    (ha : a < codeSpace) (h : composeFrom T (starter a [] (-1)) l = [c]) :
    c < codeSpace ∧
      (∀ r, composeFrom T (starter a [] (-1)) (l ++ r) = composeFrom T (starter c [] (-1)) r) ∧
      (l ≠ [] → getCcc T a = 0 ∧ getCcc T c = 0 ∧ ∃ x y, IsPair T x y c) := by
  induction l generalizing a with
  | nil =>
    obtain rfl : a = c := by simpa [composeFrom, text] using h
    exact ⟨ha, fun r => rfl, fun h => absurd rfl h⟩
  | cons m l ih =>
    rcases hr : reach T a (-1) m with - | d
    · -- what is not absorbed stays in the result
      exfalso
      rw [composeFrom, Cluster.next, hr] at h
      dsimp only at h
      by_cases hm : getCcc T m = 0
      · rw [if_pos hm] at h
        have hlen := congrArg List.length h
        have := length_composeFrom_pos (T := T) (start m) l
        simp only [text, List.length_append, List.length_singleton] at hlen
        omega
      · rw [if_neg hm] at h
        have hlen := length_text_le (T := T) (starter a ([] ++ [m]) (getCcc T m)) l
        dsimp only at h
        rw [h] at hlen
        simp [text] at hlen
    · obtain ⟨hpair, hd⟩ := reach_lt ha hr
      obtain ⟨hccc, hccc'⟩ := hp a m d hpair
      have hnext : (starter a [] (-1)).next T m = .absorbed (starter d [] (-1)) := by
        simp only [Cluster.next, hr]
      rw [composeFrom_absorbed hnext] at h
      obtain ⟨hc, happ, hlast⟩ := ih hd h
      refine ⟨hc, fun r => ?_, fun _ => ⟨hccc, ?_⟩⟩
      · rw [List.cons_append, composeFrom_absorbed hnext, happ]
      · rcases l with - | ⟨x, l⟩
        · obtain rfl : d = c := by simpa [composeFrom, text] using h
          exact ⟨hccc', a, m, hpair⟩
        · exact (hlast (List.cons_ne_nil x l)).2

theorem start_of_not_hangul (hc : c < codeSpace) (h : ¬ (isHangulS c ∨ isJamo c)) :
    start c = starter c [] (-1) :=
  start_of_starter (fun hl => h (Or.inr (Or.inl hl))) (fun hs => h (Or.inl hs)) hc

/-- What a stored decomposition that composes back says about its character
and its first element. -/
theorem stored_composes (hh : HangulApart T) (hp : PairsOfStarters T)
    (h : compose T (storedDecomp T c) = [c]) (hlen : 2 ≤ (storedDecomp T c).length) :
    start c = starter c [] (-1) ∧ getCcc T c = 0 ∧
      ∃ d ds, storedDecomp T c = d :: ds ∧ getCcc T d = 0 ∧ ¬ (isHangulS d ∨ isJamo d) ∧
        ∀ r, composeText T (storedDecomp T c ++ r) = composeFrom T (start c) r := by
  obtain ⟨d, x, ds, hds⟩ : ∃ d x ds, storedDecomp T c = d :: x :: ds := by
    rcases e : storedDecomp T c with - | ⟨d, - | ⟨x, ds⟩⟩
    · rw [e] at hlen
      simp at hlen
    · rw [e] at hlen
      simp at hlen
    · exact ⟨d, x, ds, rfl⟩
  have hd : ¬ (isHangulS d ∨ isJamo d) := hh.not_mem c d (by rw [hds]; simp)
  rw [compose_eq, hds, composeText] at h
  have hdc : d < codeSpace := by
    -- a number beyond the code space composes with nothing
    by_contra hdc
    have hlone : start d = lone d :=
      start_of_lone (fun hl => hd (Or.inr (Or.inl hl))) (fun hs => hd (Or.inl hs)) hdc
    rw [hlone, composeFrom_closed (show (lone d).next T x = .closed from rfl)] at h
    have hlen := congrArg List.length h
    have := length_composeFrom_pos (T := T) (start x) ds
    simp only [text, composeText, List.length_append, List.length_singleton] at hlen
    omega
  have hstart := start_of_not_hangul hdc hd
  rw [hstart] at h
  obtain ⟨hc, happ, hlast⟩ := composeFrom_eq_singleton hp hdc h
  obtain ⟨hccc, hccc', y, z, hpair⟩ := hlast (List.cons_ne_nil x ds)
  -- `c` is the result of a composition, so it is neither a syllable nor jamo
  have hstart' := start_of_not_hangul hc (hh.not_pair y z c hpair).2.2
  refine ⟨hstart', hccc', d, x :: ds, hds, hccc, hd, fun r => ?_⟩
  rw [hds, hstart']
  show composeFrom T (start d) (x :: ds ++ r) = _
  rw [hstart, happ]

/-- The decomposition of a syllable composes back. -/
theorem composeText_hangulDecomp (hs : isHangulS c) (r : U32String) :
    composeText T (hangulDecomp c ++ r) = composeFrom T (start c) r := by
  obtain ⟨l, v, hl, hv, htail⟩ := hangulDecomp_cases hs
  obtain ⟨hsyl, hsyl0⟩ := isHangulS_syllable hl hv
  have hstart : start l = hangul l := start_of_hangul (Or.inl hl)
  rw [start_of_hangul (Or.inr hs)]
  rcases htail with ⟨hd, hc⟩ | ⟨t, ht, hd, hc⟩
  · rw [hd]
    show composeFrom T (start l) (v :: r) = _
    rw [hstart, composeFrom_absorbed (next_vowel hl hv), ← hc]
  · rw [hd]
    show composeFrom T (start l) (v :: t :: r) = _
    rw [hstart, composeFrom_absorbed (next_vowel hl hv),
      composeFrom_absorbed (next_trailing hsyl hsyl0 ht), ← hc]

/-- **A decomposition that passes the test composes back to its character**,
whatever follows. -/
theorem composeText_fullDecomp (hh : HangulApart T) (hp : PairsOfStarters T)
    (h : decompositionIsNotNfc T previous c = false) (r : U32String) :
    composeText T (fullDecomp T c ++ r) = composeFrom T (start c) r := by
  by_cases hs : isHangulS c
  · rw [fullDecomp_of_hangul hs, composeText_hangulDecomp hs]
  · by_cases hd : storedDecomp T c = []
    · rw [fullDecomp_of_none hs hd]
      rfl
    · have hc : c < codeSpace := lt_of_storedDecomp hs hd
      obtain ⟨hback, hlen, -⟩ := of_decompositionIsNotNfc hs hc hd h
      obtain ⟨-, -, _, _, -, -, -, happ⟩ := stored_composes hh hp hback hlen
      rw [fullDecomp_of_stored hs hd, happ]

/-! ### Nothing is absorbed across a border -/

variable (T) in
/-- The cluster stands behind `previous`: a later character either meets
`previous` itself, or a mark in front of it. -/
def Behind : Cluster → ℕ → Prop
  | starter c _ previousCcc, previous => c < codeSpace ∧ (previous = c ∨ 0 ≤ previousCcc)
  | _, _ => True

theorem behind_start (c : ℕ) : Behind (start c) c := by
  rw [Cluster.start]
  split
  · trivial
  · split
    · rename_i h
      exact ⟨h, Or.inl rfl⟩
    · trivial

theorem behind_passed (hg : Behind g previous) (h : g.next T m = .passed g') : Behind g' m := by
  obtain ⟨c, marks, previousCcc, rfl, -, -, rfl⟩ := next_passed h
  exact ⟨hg.1, Or.inr (Int.natCast_nonneg _)⟩

/-- A character of class 0 that composes neither by the table nor by the
Hangul formulas closes the cluster. -/
theorem next_closed (hg : Behind g previous) (h0 : getCcc T d = 0) (hv : ¬ isHangulV d)
    (ht : ¬ isHangulT d)
    (hpair : previous < codeSpace → findPair T previous d = none) : g.next T d = .closed := by
  apply next_closed_of_reach h0 hv ht
  rintro c marks previousCcc rfl
  rw [reach]
  split
  · -- class 0 is above the previous one only right behind the starter
    rename_i hlt
    rcases hg.2 with rfl | hle
    · exact hpair hg.1
    · omega
  · rfl

/-- The first character of a decomposition that passes the test closes the
cluster in front of it. -/
theorem next_fullDecomp (hh : HangulApart T) (hp : PairsOfStarters T) (hg : Behind g previous)
    (h : decompositionIsNotNfc T previous c = false) (hne : fullDecomp T c ≠ [c]) :
    getCcc T c = 0 ∧ ∃ d ds, fullDecomp T c = d :: ds ∧ getCcc T d = 0 ∧
      g.next T d = .closed := by
  by_cases hs : isHangulS c
  · obtain ⟨l, v, hl, hv, htail⟩ := hangulDecomp_cases hs
    have hl0 : getCcc T l = 0 := hh.ccc l (Or.inr (Or.inl hl))
    have hclosed : g.next T l = .closed := by
      refine next_closed hg hl0 ?_ ?_ fun _ => ?_
      · unfold isHangulV isHangulL hangulVbase hangulLbase hangulLcount at *
        omega
      · unfold isHangulT isHangulL hangulTbase hangulLbase hangulLcount at *
        omega
      · rw [Option.eq_none_iff_forall_ne_some]
        intro x hx
        rename_i hprev
        exact (hh.not_pair _ _ _ ((findPair_eq_some_iff hprev).mp hx)).2.1 (Or.inr (Or.inl hl))
    rw [fullDecomp_of_hangul hs]
    refine ⟨hh.ccc c (Or.inl hs), l, ?_⟩
    rcases htail with ⟨hd, -⟩ | ⟨t, -, hd, -⟩
    · exact ⟨[v], hd, hl0, hclosed⟩
    · exact ⟨[v, t], hd, hl0, hclosed⟩
  · have hd : storedDecomp T c ≠ [] := fun hd => hne (fullDecomp_of_none hs hd)
    have hc : c < codeSpace := lt_of_storedDecomp hs hd
    obtain ⟨hback, hlen, hpair⟩ := of_decompositionIsNotNfc hs hc hd h
    obtain ⟨-, hccc, d, ds, hds, hd0, hnot, -⟩ := stored_composes hh hp hback hlen
    rw [fullDecomp_of_stored hs hd]
    refine ⟨hccc, d, ds, hds, hd0, next_closed hg hd0 ?_ ?_ fun hprev => hpair hprev d ?_⟩
    · exact fun hv => hnot (Or.inr (Or.inr (Or.inl hv)))
    · exact fun ht => hnot (Or.inr (Or.inr (Or.inr ht)))
    · rw [hds]
      rfl

/-- **Composing the decomposed string retraces the string.** -/
theorem composeFrom_flatMap (hh : HangulApart T) (hp : PairsOfStarters T)
    (hg : Behind g previous) (habs : absorbsFrom T g rest = false)
    (hnot : anyNotNfc T previous rest = false) :
    composeFrom T g (rest.flatMap (fullDecomp T)) = g.text ++ rest := by
  induction rest generalizing g previous with
  | nil => rw [List.flatMap_nil, composeFrom, List.append_nil]
  | cons c rest ih =>
    rw [anyNotNfc, Bool.or_eq_false_iff] at hnot
    obtain ⟨hc, hnot⟩ := hnot
    have hrest : absorbsFrom T (start c) rest = false →
        composeFrom T (start c) (rest.flatMap (fullDecomp T)) = c :: rest := by
      intro h
      rw [ih (behind_start c) h hnot, text_start]
      rfl
    rw [List.flatMap_cons]
    rcases h : g.next T c with g' | g' | -
    · rw [absorbsFrom, h] at habs
      cases habs
    · -- a mark passes: it has a class, so it has no decomposition
      have hself : fullDecomp T c = [c] := by
        by_contra hne
        obtain ⟨-, -, -, -, -, h0, -⟩ := next_passed h
        exact h0 (next_fullDecomp hh hp hg hc hne).1
      rw [absorbsFrom, h] at habs
      rw [hself, List.singleton_append, composeFrom_passed h, ih (behind_passed hg h) habs hnot,
        text_passed h, List.append_assoc]
      rfl
    · -- a border: the first character of the decomposition closes the cluster too
      rw [absorbsFrom, h] at habs
      have hclosed : ∃ d ds, fullDecomp T c = d :: ds ∧ g.next T d = .closed := by
        by_cases hne : fullDecomp T c = [c]
        · exact ⟨c, [], hne, h⟩
        · obtain ⟨-, d, ds, hds, -, hd⟩ := next_fullDecomp hh hp hg hc hne
          exact ⟨d, ds, hds, hd⟩
      obtain ⟨d, ds, hds, hd⟩ := hclosed
      have hcompose := composeText_fullDecomp hh hp hc (rest.flatMap (fullDecomp T))
      rw [hds] at hcompose ⊢
      rw [List.cons_append, composeFrom_closed hd, ← List.cons_append, hcompose, hrest habs]

/-! ### The decomposed string is in order -/

/-- A decomposition begins with class 0, or is the character itself. -/
theorem head_fullDecomp (hh : HangulApart T) (hp : PairsOfStarters T)
    (h : decompositionIsNotNfc T previous c = false) :
    ∀ d ∈ (fullDecomp T c).head?, getCcc T d = 0 ∨ fullDecomp T c = [c] ∧ d = c := by
  intro d hd
  by_cases hne : fullDecomp T c = [c]
  · rw [hne] at hd
    exact Or.inr ⟨hne, (Option.some.inj hd).symm⟩
  · obtain ⟨-, d', ds, hds, h0, -⟩ := next_fullDecomp hh hp
      (show Behind (lone 0) previous from trivial) h hne
    rw [hds] at hd
    obtain rfl := Option.some.inj hd
    exact Or.inl h0

theorem getLast?_decompositionSlice (base length : ℕ) :
    ∀ d ∈ (decompositionSlice T base length).getLast?,
      d = T.decompositionData (base + length - 1) := by
  intro d hd
  cases length with
  | zero => cases hd
  | succ length =>
    rw [decompositionSlice, List.range_succ, List.map_append, List.map_singleton,
      List.getLast?_append, List.getLast?_singleton] at hd
    exact (Option.some.inj hd).symm

/-- The class at the end of a decomposition is the trailing class. -/
theorem getLast_fullDecomp (hh : HangulApart T) (c : ℕ) :
    ∀ d ∈ (fullDecomp T c).getLast?, getCcc T d = trailingCcc T c := by
  intro d hd
  rw [trailingCcc]
  by_cases hs : isHangulS c
  · rw [fullDecomp_of_hangul hs] at hd
    have h0 : canonicalDecompLength T c = 0 := if_pos hs
    rw [h0, if_pos rfl, hh.ccc c (Or.inl hs)]
    exact hh.ccc d (Or.inr (isJamo_of_mem_hangulDecomp hs (List.mem_of_getLast? hd)))
  · by_cases hn : storedDecomp T c = []
    · rw [fullDecomp_of_none hs hn] at hd
      rw [if_pos (storedDecomp_eq_nil_iff.mp hn), ← Option.some.inj hd]
      rfl
    · rw [fullDecomp_of_stored hs hn] at hd
      rw [if_neg (fun h0 => hn (storedDecomp_eq_nil_iff.mpr h0)),
        getLast?_decompositionSlice _ _ d hd]

theorem ordered_fullDecomp (hh : HangulApart T) (ho : DecompositionsOrdered T) (c : ℕ) :
    Ordered (getCcc T) (fullDecomp T c) := by
  by_cases hs : isHangulS c
  · rw [fullDecomp_of_hangul hs]
    refine (List.pairwise_of_forall_mem_list fun x _ y hy => ?_).isChain
    exact Or.inl (hh.ccc y (Or.inr (isJamo_of_mem_hangulDecomp hs hy)))
  · by_cases hn : storedDecomp T c = []
    · rw [fullDecomp_of_none hs hn]
      exact List.isChain_singleton c
    · rw [fullDecomp_of_stored hs hn]
      exact ho c

/-- **The decomposed string is in canonical order.** -/
theorem ordered_flatMap (hh : HangulApart T) (ho : DecompositionsOrdered T)
    (hp : PairsOfStarters T) {prevCcc : ℕ} (hmarks : marksInOrder T prevCcc s = true)
    (hnot : anyNotNfc T previous s = false) :
    Ordered (getCcc T) (s.flatMap (fullDecomp T)) ∧
      ∀ d ∈ (s.flatMap (fullDecomp T)).head?, getCcc T d = 0 ∨ prevCcc ≤ getCcc T d := by
  induction s generalizing previous prevCcc with
  | nil => exact ⟨List.isChain_nil, fun d hd => by cases hd⟩
  | cons c s ih =>
    rw [anyNotNfc, Bool.or_eq_false_iff] at hnot
    rw [marksInOrder] at hmarks
    split at hmarks
    · cases hmarks
    · rename_i hccc
      obtain ⟨hs, hhead⟩ := ih hmarks hnot.2
      have hfirst := head_fullDecomp hh hp hnot.1
      have hlast := getLast_fullDecomp hh c
      rw [List.flatMap_cons]
      refine ⟨List.isChain_append.mpr ⟨ordered_fullDecomp hh ho c, hs, ?_⟩, ?_⟩
      · -- at the border, the trailing class is compared
        intro x hx y hy
        rcases hhead y hy with h0 | hle
        · exact Or.inl h0
        · exact Or.inr (by rw [hlast x hx]; exact hle)
      · intro d hd
        obtain ⟨x, xs, hxs⟩ := List.exists_cons_of_ne_nil (fullDecomp_ne_nil (T := T) c)
        rw [hxs] at hd hfirst
        obtain rfl := Option.some.inj hd
        rcases hfirst x rfl with h0 | ⟨-, rfl⟩
        · exact Or.inl h0
        · omega

/-! ### The check is sound -/

/-- **A string that passes the check is its own normal form.** -/
theorem compose_decomposeNfc_of_isAlreadyNfc (hh : HangulApart T) (ho : DecompositionsOrdered T)
    (hp : PairsOfStarters T) (h : isAlreadyNfc T s = true) :
    compose T (decomposeNfc T s) = s := by
  cases s with
  | nil => rfl
  | cons c s =>
    rw [isAlreadyNfc, if_neg (by simp)] at h
    split at h
    · cases h
    · split at h
      · cases h
      · rename_i hnot
        split at h
        · cases h
        · rename_i hmarks
          rw [Bool.not_eq_true] at hnot
          simp only [Bool.not_eq_true', Bool.not_eq_false] at hmarks
          obtain ⟨hord, -⟩ := ordered_flatMap hh ho hp hmarks hnot
          rw [anyNotNfc, Bool.or_eq_false_iff] at hnot
          rw [wouldCompose_eq, Bool.not_eq_true', absorbs] at h
          rw [decomposeNfc_eq, order_of_ordered hord, compose_eq, List.flatMap_cons,
            composeText_fullDecomp hh hp hnot.1,
            composeFrom_flatMap hh hp (behind_start c) h hnot.2, text_start]
          rfl

theorem normalize_eq_compose (hh : HangulApart T) (ho : DecompositionsOrdered T)
    (hp : PairsOfStarters T) (htables : T.ensureTables = true) (s : U32String) :
    normalize T s = some (compose T (decomposeNfc T s)) := by
  rw [normalize, htables]
  by_cases h : isAlreadyNfc T s = true
  · rw [if_pos h, compose_decomposeNfc_of_isAlreadyNfc hh ho hp h]
    rfl
  · rw [if_neg h]
    rfl

end AdaIdna
