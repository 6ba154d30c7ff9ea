/-
AdaIdna/TableShape.lean

What the generator puts into the normalization tables.

The properties that unicode_data_table.py gives the decompositions and the
pairs, each as a statement about what the tables store.  They can be met
together: `smallTables` are tables for a small alphabet, with ASCII as
shipped (upper case maps to lower case, everything else is valid), `é` with
its decomposition and its pair, the combining marks of its block and the
Hebrew letters.
-/
import AdaIdna.Decomposition
import AdaIdna.Composition

namespace AdaIdna

open CanonicalOrder

variable (T : Tables)

/-! ### What the generator builds -/

/-- A conjoining jamo of the Hangul formulas. -/
def isJamo (c : ℕ) : Prop := isHangulL c ∨ isHangulV c ∨ isHangulT c

/-- Syllables and jamo take no part in the tables. -/
structure HangulApart : Prop where
  ccc : ∀ c, isHangulS c ∨ isJamo c → getCcc T c = 0
  stored : ∀ c, isJamo c → storedDecomp T c = []
  not_mem : ∀ c, ∀ d ∈ storedDecomp T c, ¬ (isHangulS d ∨ isJamo d)
  not_pair : ∀ a b c, IsPair T a b c →
    ¬ (isHangulS a ∨ isJamo a) ∧ ¬ (isHangulS b ∨ isJamo b) ∧ ¬ (isHangulS c ∨ isJamo c)

/-- Stored decompositions are full. -/
def DecompositionsFull : Prop := ∀ c, ∀ d ∈ storedDecomp T c, storedDecomp T d = []

/-- Stored decompositions are in canonical order. -/
def DecompositionsOrdered : Prop := ∀ c, Ordered (getCcc T) (storedDecomp T c)

/-- The first element of a pair and its composite have class 0. -/
def PairsOfStarters : Prop := ∀ a b c, IsPair T a b c → getCcc T a = 0 ∧ getCcc T c = 0

/-- A composite decomposes as its pair does. -/
def PairsDecompose : Prop :=
  ∀ a b c, IsPair T a b c → storedDecomp T c = fullDecomp T a ++ fullDecomp T b

/-- What unicode_data_table.py builds. -/
structure GeneratorShape : Prop where
  hangul : HangulApart T
  full : DecompositionsFull T
  ordered : DecompositionsOrdered T
  starters : PairsOfStarters T
  decompose : PairsDecompose T

/-- The separator takes no part in normalization. -/
structure DotApart : Prop where
  ccc : getCcc T dot = 0
  stored : storedDecomp T dot = []
  not_first : ∀ b c, ¬ IsPair T dot b c
  not_second : ∀ a c, ¬ IsPair T a dot c

/-! ### Tables for a small alphabet -/

/-- Ranges of equal direction: first and last code point, value. -/
def smallDirections : List (ℕ × ℕ × ℕ) :=
  [(0x2D, 0x2D, 3), (0x2E, 0x2E, 2), (0x30, 0x39, 5), (0x41, 0x5A, 6), (0x61, 0x7A, 6),
    (0xE9, 0xE9, 6), (0x300, 0x36F, 8), (0x5D0, 0x5EA, 7)]

/-- The arrays: one row with data and one empty row in each two-stage table. -/
def smallData : TableData where
  ensureTables := true
  byteOrder := .little
  -- blocks of 64: Latin-1, then a block of valid and one of disallowed characters
  idnaStage1 i := if i < 4 then 64 * i else if i = 12 ∨ i = 23 then 256 else 320
  idnaStage2 j :=
    if j < 128 then if 0x41 ≤ j ∧ j ≤ 0x5A then 1 + 2 * (j - 0x41) else 0xFFFF
    else if j = 0xE9 ∨ 256 ≤ j ∧ j < 320 then 0xFFFF
    else 0xFFFE
  idnaBoolBlocks _ := 0
  idnaUtf8Mappings := 0 :: (List.range 26).flatMap fun k => [toChar (0x61 + k), 0]
  idnaLowRangeEnd := 0x3FC40
  idnaHighIgnoredStart := 0xE0100
  idnaHighIgnoredEnd := 0xE01F0
  -- `é` is `e` and U+0301, and the other way round below
  decompositionIndex i := if i = 0 then 1 else 0
  decompositionBlockFlat j := if j < 257 then 0 else if j ≤ 257 + 0xE9 then 4 else 12
  decompositionData k := if k = 1 then 0x65 else 0x301
  decompositionDataSize := 3
  kDecompBlockRows := 2
  cccIndex i := if i = 3 then 1 else 0
  cccBlockFlat j := if j = 257 then 230 else 0
  kCccBlockRows := 2
  compositionIndex i := if i = 0 then 1 else 0
  compositionBlockFlat j := if j < 257 then 0 else if j ≤ 257 + 0x65 then 1 else 3
  compositionData k := if k = 1 then 0x301 else 0xE9
  compositionDataSize := 3
  kCompBlockRows := 2
  dirStart i := (smallDirections.getD i (0, 0, 0)).1
  dirFinal i := (smallDirections.getD i (0, 0, 0)).2.1
  dirValue i := (smallDirections.getD i (0, 0, 0)).2.2
  dirTableCount := 8
  combiningRanges _ := (0x300, 0x36F)
  combiningRangeCount := 1
  joiningStart _ := 0
  joiningFinal _ := 0
  joiningValue _ := 0
  joiningTableCount := 0

theorem smallData_decomposition {c k : ℕ} (hk : k ≤ 1) :
    smallData.decomposition c k
      = if 256 ≤ c then 0 else if c + k ≤ 0xE9 then 4 else 12 := by
  have hmod := Nat.mod_lt c (show 0 < 256 by omega)
  by_cases hc : 256 ≤ c
  · have hrow : ¬ c / 256 = 0 := by omega
    have hlt : c % 256 + k < 257 := by omega
    simp [TableData.decomposition, TableData.decompositionBlockRow, smallData, hrow, hc, hlt]
  · have hrow : c / 256 = 0 := by omega
    have hmod : c % 256 = c := Nat.mod_eq_of_lt (by omega)
    have hle : 257 + c + k ≤ 490 ↔ c + k ≤ 233 := by omega
    have hge : ¬ 257 + c + k < 257 := by omega
    simp [TableData.decomposition, TableData.decompositionBlockRow, smallData, hrow, hc, hmod,
      kDecompBlockCols, hle, hge]

theorem smallData_composition {c k : ℕ} (hk : k ≤ 1) :
    smallData.composition c k = if 256 ≤ c then 0 else if c + k ≤ 0x65 then 1 else 3 := by
  have hmod := Nat.mod_lt c (show 0 < 256 by omega)
  by_cases hc : 256 ≤ c
  · have hrow : ¬ c / 256 = 0 := by omega
    have hlt : c % 256 + k < 257 := by omega
    simp [TableData.composition, TableData.compositionBlockRow, smallData, hrow, hc, hlt]
  · have hrow : c / 256 = 0 := by omega
    have hmod : c % 256 = c := Nat.mod_eq_of_lt (by omega)
    have hle : 257 + c + k ≤ 358 ↔ c + k ≤ 101 := by omega
    have hge : ¬ 257 + c + k < 257 := by omega
    simp [TableData.composition, TableData.compositionBlockRow, smallData, hrow, hc, hmod,
      kCompBlockCols, hle, hge]

/-- The small tables have the layout of the generator. -/
def smallTables : Tables where
  toTableData := smallData
  idnaLowRangeEnd_le := by decide
  idnaHighIgnoredEnd_le := by decide
  decomposition_le c _ := by
    rw [smallData_decomposition (Nat.zero_le 1), smallData_decomposition le_rfl]
    split
    · exact le_rfl
    · split <;> split <;> omega
  decomposition_le_size c _ := by
    rw [smallData_decomposition le_rfl]
    show _ ≤ 3
    split
    · omega
    · split <;> omega
  composition_le_size c _ := by
    rw [smallData_composition le_rfl]
    show _ ≤ 3
    split
    · omega
    · split <;> omega
  composition_even c _ := by
    rw [smallData_composition (Nat.zero_le 1), smallData_composition le_rfl]
    by_cases hc : c = 0x65
    · subst hc
      exact ⟨1, rfl⟩
    · refine ⟨0, ?_⟩
      split
      · rfl
      · split <;> split <;> omega
  composition_sorted c _ k := by
    rw [smallData_composition (Nat.zero_le 1), smallData_composition le_rfl]
    intro h
    exfalso
    split at h
    · omega
    · split at h <;> split at h <;> omega
  composite_lt c _ k _ := by
    show (if _ then _ else _) < codeSpace
    split <;> decide
  dirValue_lt := by decide

/-! ### What the small tables hold -/

theorem small_storedDecomp (c : ℕ) :
    storedDecomp smallTables c = if c = 0xE9 then [0x65, 0x301] else [] := by
  by_cases hc : c = 0xE9
  · subst hc
    rfl
  · rw [if_neg hc, storedDecomp_eq_nil_iff, canonicalDecompLength]
    split
    · rfl
    · split
      · rfl
      · rw [tableDecompLength]
        have h0 := smallData_decomposition (c := c) (Nat.zero_le 1)
        have h1 := smallData_decomposition (c := c) le_rfl
        have hzero : smallTables.decomposition c 1 / 4 - smallTables.decomposition c 0 / 4 = 0 := by
          show smallData.decomposition c 1 / 4 - smallData.decomposition c 0 / 4 = 0
          rw [h0, h1]
          split
          · rfl
          · split <;> split <;> omega
        rw [hzero]
        rfl

theorem small_isPair {a b c : ℕ} (h : IsPair smallTables a b c) :
    a = 0x65 ∧ b = 0x301 ∧ c = 0xE9 := by
  obtain ⟨-, k, hk, hb, hc⟩ := h
  have h0 := smallData_composition (c := a) (Nat.zero_le 1)
  have h1 := smallData_composition (c := a) le_rfl
  change smallData.composition a 0 + 2 * k + 1 < smallData.composition a 1 at hk
  change smallData.compositionData (smallData.composition a 0 + 2 * k) = b at hb
  change smallData.compositionData (smallData.composition a 0 + 2 * k + 1) = c at hc
  rw [h0, h1] at hk
  have ha : a = 0x65 := by
    split at hk
    · omega
    · split at hk <;> split at hk <;> omega
  subst ha
  obtain rfl : k = 0 := by
    have : (if 256 ≤ 0x65 then 0 else if 0x65 + 0 ≤ 0x65 then 1 else 3) + 2 * k + 1
      < if 256 ≤ 0x65 then 0 else if 0x65 + 1 ≤ 0x65 then 1 else 3 := hk
    simp at this
    omega
  exact ⟨rfl, hb.symm, hc.symm⟩

theorem small_getCcc (c : ℕ) : getCcc smallTables c = if c = 0x301 then 230 else 0 := by
  have hmod := Nat.mod_lt c (show 0 < 256 by omega)
  rw [getCcc]
  split
  · rename_i h
    rw [if_neg (fun hc => by rw [hc] at h; exact absurd h (by decide))]
  · by_cases hrow : c / 256 = 3
    · have hiff : 256 + c % 256 = 257 ↔ c = 769 := by omega
      simp [smallTables, smallData, TableData.cccBlockRow, kCccBlockCols, hrow, hiff]
    · have hne : ¬ c = 769 := by omega
      have hne' : ¬ c % 256 = 257 := by omega
      simp [smallTables, smallData, TableData.cccBlockRow, kCccBlockCols, hrow, hne, hne']

/-- The small tables with the class of U+0316, a grave accent below. -/
def belowTables : Tables :=
  { smallTables with
    cccBlockFlat := fun j => if j = 257 then 230 else if j = 278 then 220 else 0 }

theorem below_getCcc (c : ℕ) :
    getCcc belowTables c = if c = 0x301 then 230 else if c = 0x316 then 220 else 0 := by
  have hmod := Nat.mod_lt c (show 0 < 256 by omega)
  rw [getCcc]
  split
  · rename_i h
    have hlt : codeSpace = 0x110000 := rfl
    rw [if_neg (by omega), if_neg (by omega)]
  · by_cases hrow : c / 256 = 3
    · have hacute : 256 + c % 256 = 257 ↔ c = 769 := by omega
      have hgrave : 256 + c % 256 = 278 ↔ c = 790 := by omega
      simp [belowTables, smallTables, smallData, TableData.cccBlockRow, kCccBlockCols, hrow,
        hacute, hgrave]
    · have hne : ¬ c = 769 ∧ ¬ c = 790 := by omega
      have hne' : ¬ c % 256 = 257 ∧ ¬ c % 256 = 278 := by omega
      simp [belowTables, smallTables, smallData, TableData.cccBlockRow, kCccBlockCols, hrow,
        hne, hne']

/-- The characters of the small tables are not Hangul. -/
theorem small_not_hangul {c : ℕ} (h : c = 0x65 ∨ c = 0x301 ∨ c = 0xE9) :
    ¬ (isHangulS c ∨ isJamo c) := by
  rcases h with rfl | rfl | rfl <;>
    simp [isHangulS, isJamo, isHangulL, isHangulV, isHangulT, hangulSbase, hangulLbase,
      hangulVbase, hangulTbase]

theorem small_hangulApart : HangulApart smallTables where
  ccc c hc := by
    rw [small_getCcc]
    refine if_neg fun h => ?_
    exact small_not_hangul (Or.inr (Or.inl h)) hc
  stored c hc := by
    rw [small_storedDecomp]
    refine if_neg fun h => ?_
    exact small_not_hangul (Or.inr (Or.inr h)) (Or.inr hc)
  not_mem c d hd := by
    rw [small_storedDecomp] at hd
    split at hd
    · rcases List.mem_pair.mp hd with rfl | rfl
      · exact small_not_hangul (Or.inl rfl)
      · exact small_not_hangul (Or.inr (Or.inl rfl))
    · cases hd
  not_pair a b c h := by
    obtain ⟨rfl, rfl, rfl⟩ := small_isPair h
    exact ⟨small_not_hangul (Or.inl rfl), small_not_hangul (Or.inr (Or.inl rfl)),
      small_not_hangul (Or.inr (Or.inr rfl))⟩

theorem small_decompositionsFull : DecompositionsFull smallTables := by
  intro c d hd
  rw [small_storedDecomp] at hd ⊢
  split at hd
  · rcases List.mem_pair.mp hd with rfl | rfl <;> rfl
  · cases hd

theorem small_decompositionsOrdered : DecompositionsOrdered smallTables := by
  intro c
  rw [small_storedDecomp]
  split
  · refine List.isChain_pair.mpr (Or.inr ?_)
    rw [small_getCcc, small_getCcc]
    decide
  · exact List.isChain_nil

theorem small_pairsOfStarters : PairsOfStarters smallTables := by
  intro a b c h
  obtain ⟨rfl, rfl, rfl⟩ := small_isPair h
  rw [small_getCcc, small_getCcc]
  decide

theorem small_pairsDecompose : PairsDecompose smallTables := by
  intro a b c h
  obtain ⟨rfl, rfl, rfl⟩ := small_isPair h
  rfl

theorem small_generatorShape : GeneratorShape smallTables :=
  ⟨small_hangulApart, small_decompositionsFull, small_decompositionsOrdered,
    small_pairsOfStarters, small_pairsDecompose⟩

theorem small_dotApart : DotApart smallTables where
  ccc := by rw [small_getCcc]; rfl
  stored := by rw [small_storedDecomp]; rfl
  not_first b c h := absurd (small_isPair h).1 (by decide)
  not_second a c h := absurd (small_isPair h).2.1 (by decide)

end AdaIdna
