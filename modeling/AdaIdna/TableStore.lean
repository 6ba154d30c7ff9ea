/-
AdaIdna/TableStore.lean

The Unicode tables of table_store.hpp.

`TableData` is what `ensure_tables` publishes: the arrays as functions of the
index, the sizes that the generator writes beside them, whether the
initialization succeeds at all, and the byte order of the host that they are
converted to.  The blob itself is data; nothing here depends on its contents.

`Tables` adds what the generator guarantees about the layout and the code
relies on without a test of its own: the mapping table ends with the code
space, every row of a two-stage table lies in
its data array, composition rows are pairs in ascending order, and what is
looked up again in a table is a code point.
-/
import AdaIdna.Words

namespace AdaIdna

/-- The arrays and constants of the table store. -/
structure TableData where
  /-- The result of `ensure_tables`. -/
  ensureTables : Bool
  /-- `std::endian::native`. -/
  byteOrder : Lanes.ByteOrder
  idnaStage1 : ℕ → ℕ
  idnaStage2 : ℕ → ℕ
  idnaBoolBlocks : ℕ → ℕ
  idnaUtf8Mappings : Bytes
  idnaLowRangeEnd : ℕ
  idnaHighIgnoredStart : ℕ
  idnaHighIgnoredEnd : ℕ
  decompositionIndex : ℕ → ℕ
  decompositionBlockFlat : ℕ → ℕ
  decompositionData : ℕ → ℕ
  decompositionDataSize : ℕ
  kDecompBlockRows : ℕ
  cccIndex : ℕ → ℕ
  cccBlockFlat : ℕ → ℕ
  kCccBlockRows : ℕ
  compositionIndex : ℕ → ℕ
  compositionBlockFlat : ℕ → ℕ
  compositionData : ℕ → ℕ
  compositionDataSize : ℕ
  kCompBlockRows : ℕ
  dirStart : ℕ → ℕ
  dirFinal : ℕ → ℕ
  dirValue : ℕ → ℕ
  dirTableCount : ℕ
  combiningRanges : ℕ → ℕ × ℕ
  combiningRangeCount : ℕ
  joiningStart : ℕ → ℕ
  joiningFinal : ℕ → ℕ
  joiningValue : ℕ → ℕ
  joiningTableCount : ℕ

/-- One past the last code point. -/
def codeSpace : ℕ := 0x110000

def kDecompBlockCols : ℕ := 257
def kCccBlockCols : ℕ := 256
def kCompBlockCols : ℕ := 257

namespace TableData

variable (T : TableData)

/-- `decomposition_block_row`, as an offset into `decomposition_block_flat`. -/
def decompositionBlockRow (bi : ℕ) : ℕ :=
  (if T.kDecompBlockRows ≤ bi then 0 else bi) * kDecompBlockCols

/-- `ccc_block_row`. -/
def cccBlockRow (bi : ℕ) : ℕ := (if T.kCccBlockRows ≤ bi then 0 else bi) * kCccBlockCols

/-- `composition_block_row`. -/
def compositionBlockRow (bi : ℕ) : ℕ :=
  (if T.kCompBlockRows ≤ bi then 0 else bi) * kCompBlockCols

/-- `decomposition[k]`, where `decomposition` is
`decomposition_block_row(decomposition_index[c >> 8]) + (c % 256)`. -/
def decomposition (c k : ℕ) : ℕ :=
  T.decompositionBlockFlat (T.decompositionBlockRow (T.decompositionIndex (c / 256)) + c % 256 + k)

/-- `composition[k]`, where `composition` is
`composition_block_row(composition_index[c >> 8]) + (c % 256)`. -/
def composition (c k : ℕ) : ℕ :=
  T.compositionBlockFlat (T.compositionBlockRow (T.compositionIndex (c / 256)) + c % 256 + k)

end TableData

/-- Tables with the layout that the generator gives them. -/
structure Tables extends TableData where
  /-- The mapping table does not go beyond the code space. -/
  idnaLowRangeEnd_le : idnaLowRangeEnd ≤ codeSpace
  idnaHighIgnoredEnd_le : idnaHighIgnoredEnd ≤ codeSpace
  /-- Decompositions follow one another in the data array. -/
  decomposition_le : ∀ c < codeSpace,
    toTableData.decomposition c 0 / 4 ≤ toTableData.decomposition c 1 / 4
  decomposition_le_size : ∀ c < codeSpace,
    toTableData.decomposition c 1 / 4 ≤ decompositionDataSize
  /-- A composition row is a list of pairs inside the data array. -/
  composition_le_size : ∀ c < codeSpace,
    toTableData.composition c 1 ≤ compositionDataSize
  composition_even : ∀ c < codeSpace, ∃ k,
    toTableData.composition c 1 = toTableData.composition c 0 + 2 * k
  /-- The pairs of a row are sorted by their first component. -/
  composition_sorted : ∀ c < codeSpace, ∀ k,
    toTableData.composition c 0 + 2 * k + 2 < toTableData.composition c 1 →
      compositionData (toTableData.composition c 0 + 2 * k)
        < compositionData (toTableData.composition c 0 + 2 * k + 2)
  /-- The second component of a pair is a code point. -/
  composite_lt : ∀ c < codeSpace, ∀ k,
    toTableData.composition c 0 + 2 * k + 1 < toTableData.composition c 1 →
      compositionData (toTableData.composition c 0 + 2 * k + 1) < codeSpace
  /-- The values of the direction table are those of `enum direction`. -/
  dirValue_lt : ∀ i < dirTableCount, dirValue i < 24

end AdaIdna
