/-
AdaIdna/BlobSection.lean

The sections of the table blob, in the order in which pack_tables.py writes
them.
-/
import Mathlib.Tactic

namespace AdaIdna

/-- The sections of `SECTION_ORDER`. -/
inductive BlobSection where
  | idnaStage1 | idnaStage2 | idnaBoolBlocks | idnaUtf8Mappings
  | decompositionIndex | decompositionBlock | decompositionData
  | cccIndex | cccBlock
  | compositionIndex | compositionBlock | compositionData
  | idContinueFlat | idStartFlat
  | dirStart | dirFinal | dirValue
  | combiningFlat
  | joiningStart | joiningFinal | joiningValue
  deriving DecidableEq

namespace BlobSection

/-- `SECTION_ORDER`. -/
def order : List BlobSection :=
  [idnaStage1, idnaStage2, idnaBoolBlocks, idnaUtf8Mappings, decompositionIndex,
    decompositionBlock, decompositionData, cccIndex, cccBlock, compositionIndex, compositionBlock,
    compositionData, idContinueFlat, idStartFlat, dirStart, dirFinal, dirValue, combiningFlat,
    joiningStart, joiningFinal, joiningValue]

theorem mem_order (s : BlobSection) : s ∈ order := by
  cases s <;> decide

end BlobSection

end AdaIdna
