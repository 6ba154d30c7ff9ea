/-
AdaIdna/NfcShortcut.lean

Skipping the normalization.

`normalize` returns a string as it is if `is_already_nfc` says that it is in
normal form, and the pipelines do not call it then.  They do not call it for
ASCII strings either, and these they do not check: that is sound if the tables
leave ASCII alone (`AsciiInert`), as the shipped ones do.  `pairTables` are
tables of the generator's shape that do not.

Main result: `normalize_eq`.
-/
import AdaIdna.MappingShape

namespace AdaIdna

variable {T : Tables} {s m : U32String}

/-! ### Main result -/

/-- **The quick check never changes the result of normalization**, and skipping
normalization for ASCII does not either if ASCII is inert. -/
theorem normalize_eq (hh : HangulApart T) (ho : DecompositionsOrdered T)
    (hp : PairsOfStarters T) :
    (∀ s, isAlreadyNfc T s = true → compose T (decomposeNfc T s) = s) ∧
      (T.ensureTables = true → ∀ s, normalize T s = some (compose T (decomposeNfc T s))) ∧
      ∀ s m, map T s = some m → (isAscii m = true → AsciiInert T) →
        mapAndNormalize T s = normalize T m := by
  have hsound : ∀ s, isAlreadyNfc T s = true → compose T (decomposeNfc T s) = s :=
    fun _ => compose_decomposeNfc_of_isAlreadyNfc hh ho hp
  refine ⟨hsound, normalize_eq_compose hh ho hp, fun s m hm hascii => ?_⟩
  have hnormalize := normalize_eq_compose hh ho hp (map_eq_some.mp hm).1 m
  rw [mapAndNormalize, hm]
  dsimp only
  split
  · rfl
  · -- the two reasons to skip
    rename_i hskip
    rw [hnormalize]
    by_cases hasc : isAscii m = true
    · exact congrArg some ((hascii hasc).nfc (isAscii_iff.mp hasc)).symm
    · have hcheck : isAlreadyNfc T m = true := by simpa [hasc] using hskip
      rw [hsound m hcheck]

/-- A letter and its acute accent, and the two as one character. -/
theorem normalize_eq_small :
    compose smallTables (decomposeNfc smallTables [0xE9, 0x78]) = [0xE9, 0x78] ∧
      normalize smallTables [0x65, 0x301]
        = some (compose smallTables (decomposeNfc smallTables [0x65, 0x301])) ∧
      mapAndNormalize smallTables [0x45, 0x301] = normalize smallTables [0x65, 0x301] ∧
      mapAndNormalize smallTables [0xE0100, 0x45] = normalize smallTables [0x65] := by
  obtain ⟨hsound, hnormalize, hskip⟩ :=
    normalize_eq small_hangulApart small_decompositionsOrdered small_pairsOfStarters
  exact ⟨hsound _ (by decide), hnormalize rfl _,
    hskip _ _ (by decide) fun h => absurd h (by decide),
    hskip _ _ (by decide) fun _ => small_asciiRows.toAsciiInert⟩

/-! ### Tables in which ASCII composes -/

/-- The only pair of the small tables. -/
theorem small_row {c k : ℕ}
    (h : smallData.composition c 0 + 2 * k + 1 < smallData.composition c 1) :
    c = 0x65 ∧ k = 0 := by
  rw [smallData_composition (Nat.zero_le 1), smallData_composition le_rfl] at h
  split_ifs at h <;> omega

/-- The small tables, but `e` composes with `x` to `é`. -/
def pairTables : Tables :=
  { smallTables with
    decompositionData := fun k => if k = 1 then 0x65 else 0x78
    compositionData := fun k => if k = 1 then 0x78 else 0xE9
    composition_sorted := fun c _ k h => by
      have hone := small_row (c := c) (k := k) (Nat.lt_of_succ_lt h)
      rw [hone.1, hone.2] at h
      exact absurd h (by decide)
    composite_lt := fun c _ k _ => by
      show (if _ then _ else _) < codeSpace
      split <;> decide }

theorem pair_storedDecomp (c : ℕ) :
    storedDecomp pairTables c = if c = 0xE9 then [0x65, 0x78] else [] := by
  by_cases hc : c = 0xE9
  · subst hc
    rfl
  · have hsmall := small_storedDecomp c
    rw [if_neg hc, storedDecomp_eq_nil_iff] at hsmall
    rw [if_neg hc, storedDecomp_eq_nil_iff]
    exact hsmall

theorem pair_isPair {a b c : ℕ} (h : IsPair pairTables a b c) : a = 0x65 ∧ b = 0x78 ∧ c = 0xE9 := by
  obtain ⟨-, k, hk, hb, hc⟩ := h
  obtain ⟨rfl, rfl⟩ := small_row hk
  exact ⟨rfl, hb.symm, hc.symm⟩

theorem pair_getCcc (c : ℕ) : getCcc pairTables c = getCcc smallTables c := rfl

theorem pair_not_hangul {c : ℕ} (h : c = 0x65 ∨ c = 0x78 ∨ c = 0xE9) :
    ¬ (isHangulS c ∨ isJamo c) := by
  have hlt : c < 0x1100 := by omega
  obtain ⟨hs, hl, hv, ht⟩ := not_isHangul_of_lt hlt
  exact fun hc => hc.elim hs fun hj => hj.elim hl fun hj => hj.elim hv ht

theorem pair_generatorShape : GeneratorShape pairTables where
  hangul :=
    { ccc := small_hangulApart.ccc
      stored := by
        intro c hc
        rw [pair_storedDecomp]
        refine if_neg fun h => ?_
        exact pair_not_hangul (Or.inr (Or.inr h)) (Or.inr hc)
      not_mem := by
        intro c d hd
        rw [pair_storedDecomp] at hd
        split at hd
        · rcases List.mem_pair.mp hd with rfl | rfl
          · exact pair_not_hangul (Or.inl rfl)
          · exact pair_not_hangul (Or.inr (Or.inl rfl))
        · cases hd
      not_pair := by
        intro a b c h
        obtain ⟨rfl, rfl, rfl⟩ := pair_isPair h
        exact ⟨pair_not_hangul (Or.inl rfl), pair_not_hangul (Or.inr (Or.inl rfl)),
          pair_not_hangul (Or.inr (Or.inr rfl))⟩ }
  full := by
    intro c d hd
    rw [pair_storedDecomp] at hd ⊢
    split at hd
    · rcases List.mem_pair.mp hd with rfl | rfl <;> rfl
    · cases hd
  ordered := by
    intro c
    rw [pair_storedDecomp]
    split
    · exact List.isChain_pair.mpr (Or.inl (by decide))
    · exact List.isChain_nil
  starters := by
    intro a b c h
    obtain ⟨rfl, rfl, rfl⟩ := pair_isPair h
    rw [pair_getCcc, pair_getCcc, small_getCcc, small_getCcc]
    decide
  decompose := by
    intro a b c h
    obtain ⟨rfl, rfl, rfl⟩ := pair_isPair h
    rfl

/-- **What is skipped for ASCII matters**: `ex` is not in normal form there. -/
theorem mapAndNormalize_ne_normalize :
    (HangulApart pairTables ∧ DecompositionsFull pairTables ∧ DecompositionsOrdered pairTables ∧
        PairsOfStarters pairTables) ∧
      map pairTables [0xE0100, 0x65, 0x78] = some [0x65, 0x78] ∧
      mapAndNormalize pairTables [0xE0100, 0x65, 0x78] = some [0x65, 0x78] ∧
      normalize pairTables [0x65, 0x78] = some [0xE9] :=
  have h := pair_generatorShape
  ⟨⟨h.hangul, h.full, h.ordered, h.starters⟩, by decide +kernel, by decide +kernel,
    by decide +kernel⟩

end AdaIdna
