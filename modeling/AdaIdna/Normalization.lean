/-
AdaIdna/Normalization.lean

The functions of normalization.cpp.

`decompose` and `compose` rewrite their string in place: the string is a list
here, `input[k] = x` is `List.set`, and a read beyond the end (which the code
never makes) gives 0.  `composition` is a pointer into the block of a code
point in the source; here it is that code point.  The loop of `sort_marks`
keeps the part of the string in front of its index reversed, so that the
inner loop, which walks back from the index, is a recursion; functions that
only read their string recurse on what is left of it.
-/
import AdaIdna.TableStore

namespace AdaIdna

def hangulSbase : ℕ := 0xAC00
def hangulTbase : ℕ := 0x11A7
def hangulVbase : ℕ := 0x1161
def hangulLbase : ℕ := 0x1100
def hangulLcount : ℕ := 19
def hangulVcount : ℕ := 21
def hangulTcount : ℕ := 28
def hangulNcount : ℕ := hangulVcount * hangulTcount
def hangulScount : ℕ := hangulLcount * hangulVcount * hangulTcount

/-- `c >= hangul_sbase && c < hangul_sbase + hangul_scount`. -/
def isHangulS (c : ℕ) : Prop := hangulSbase ≤ c ∧ c < hangulSbase + hangulScount

/-- `c >= hangul_lbase && c < hangul_lbase + hangul_lcount`. -/
def isHangulL (c : ℕ) : Prop := hangulLbase ≤ c ∧ c < hangulLbase + hangulLcount

/-- `c >= hangul_vbase && c < hangul_vbase + hangul_vcount`. -/
def isHangulV (c : ℕ) : Prop := hangulVbase ≤ c ∧ c < hangulVbase + hangulVcount

/-- `c > hangul_tbase && c < hangul_tbase + hangul_tcount`. -/
def isHangulT (c : ℕ) : Prop := hangulTbase < c ∧ c < hangulTbase + hangulTcount

instance (c : ℕ) : Decidable (isHangulS c) := inferInstanceAs (Decidable (_ ∧ _))
instance (c : ℕ) : Decidable (isHangulL c) := inferInstanceAs (Decidable (_ ∧ _))
instance (c : ℕ) : Decidable (isHangulV c) := inferInstanceAs (Decidable (_ ∧ _))
instance (c : ℕ) : Decidable (isHangulT c) := inferInstanceAs (Decidable (_ ∧ _))

variable (T : Tables)

/-! ### Decomposition -/

/-- The length of the table entry, compatibility entries left out. -/
def tableDecompLength (c : ℕ) : ℕ :=
  let decompositionLength := T.decomposition c 1 / 4 - T.decomposition c 0 / 4
  if 0 < decompositionLength ∧ T.decomposition c 0 % 2 = 1 then 0 else decompositionLength

def canonicalDecompLength (currentCharacter : ℕ) : ℕ :=
  if isHangulS currentCharacter then 0
  else if codeSpace ≤ currentCharacter then 0
  else tableDecompLength T currentCharacter

/-- One round of `compute_decomposition_length`. -/
def decompositionLengthOf (currentCharacter : ℕ) : ℕ :=
  if isHangulS currentCharacter then
    if (currentCharacter - hangulSbase) % hangulTcount ≠ 0 then 3 else 2
  else if currentCharacter < codeSpace then tableDecompLength T currentCharacter
  else 0

def computeDecompositionLength (input : U32String) : Bool × ℕ :=
  input.foldl
    (fun r currentCharacter =>
      let decompositionLength := decompositionLengthOf T currentCharacter
      if decompositionLength ≠ 0 then (true, r.2 + (decompositionLength - 1)) else r)
    (false, 0)

/-- `input[--descending_idx] = x`. -/
def writeDown (x : ℕ) (r : U32String × ℕ) : U32String × ℕ := (r.1.set (r.2 - 1) x, r.2 - 1)

/-- `while (decomposition_length-- > 0)`. -/
def copyDown (base : ℕ) : ℕ → U32String × ℕ → U32String × ℕ
  | 0, r => r
  | decompositionLength + 1, r =>
    copyDown base decompositionLength
      (writeDown (T.decompositionData (base + decompositionLength)) r)

/-- One round of the loop of `decompose`. -/
def decomposeStep (c : ℕ) (r : U32String × ℕ) : U32String × ℕ :=
  if isHangulS c then
    -- from the back: trailing consonant, vowel, leading consonant
    let sIndex := c - hangulSbase
    let r :=
      if sIndex % hangulTcount ≠ 0 then writeDown (hangulTbase + sIndex % hangulTcount) r else r
    let r := writeDown (hangulVbase + sIndex % hangulNcount / hangulTcount) r
    writeDown (hangulLbase + sIndex / hangulNcount) r
  else if c < codeSpace then
    let decompositionLength := tableDecompLength T c
    if 0 < decompositionLength then
      let base := T.decomposition c 0 / 4
      if T.decompositionDataSize < base + decompositionLength then writeDown c r
      else copyDown T base decompositionLength r
    else writeDown c r
  else writeDown c r

/-- `input_count` counts down to zero. -/
def decomposeLoop : ℕ → U32String × ℕ → U32String × ℕ
  | 0, r => r
  | inputCount + 1, r => decomposeLoop inputCount (decomposeStep T (r.1.getD inputCount 0) r)

def decompose (input : U32String) (additionalElements : ℕ) : U32String :=
  let resized := input ++ List.replicate additionalElements 0
  (decomposeLoop T (resized.length - additionalElements) (resized, resized.length)).1

def getCcc (c : ℕ) : ℕ :=
  if codeSpace ≤ c then 0 else T.cccBlockFlat (T.cccBlockRow (T.cccIndex (c / 256)) + c % 256)

/-- The `while` loop of `sort_marks`: `currentCharacter` moves back over what
stands in front of it, which is given last character first. -/
def moveBack (currentCharacter : ℕ) : U32String → U32String
  | [] => [currentCharacter]
  | previous :: front =>
    if getCcc T currentCharacter < getCcc T previous then
      previous :: moveBack currentCharacter front
    else currentCharacter :: previous :: front

/-- The `for` loop of `sort_marks`. -/
def sortMarksLoop : U32String → U32String → U32String
  | front, [] => front.reverse
  | front, c :: input =>
    if getCcc T c = 0 then sortMarksLoop (c :: front) input
    else sortMarksLoop (moveBack T c front) input

def sortMarks (input : U32String) : U32String := sortMarksLoop T [] input

def decomposeNfc (input : U32String) : U32String :=
  let (decompositionNeeded, additionalElements) := computeDecompositionLength T input
  sortMarks T (if decompositionNeeded then decompose T input additionalElements else input)

/-! ### Composition -/

/-- The binary search for `second` in the pairs between `left` and `right`.
The last bit of half the distance is cleared, so `middle` is at a pair. -/
def searchPair (second : ℕ) : ℕ → ℕ → ℕ → ℕ
  | 0, left, _ => left
  | fuel + 1, left, right =>
    if left + 2 < right then
      let middle := left + (right - left) / 2 / 2 * 2
      let left := if T.compositionData middle ≤ second then middle else left
      let right := if second ≤ T.compositionData middle then middle else right
      searchPair second fuel left right
    else left

/-- Returns true if the composition row of `composition` has a pair with
`second`. -/
def hasComposition (composition second : ℕ) : Bool :=
  let left := T.composition composition 0
  let right := T.composition composition 1
  if right ≤ left ∨ T.compositionDataSize < right then false
  else
    let left := searchPair T second (right - left) left right
    decide (left + 1 < T.compositionDataSize) && T.compositionData left == second

/-- The inner loop of `compose`: everything that `input[initial]` absorbs or
lets pass.  `i` and `o` are `input_count` and `composition_count`. -/
def composeMarks (initial : ℕ) :
    ℕ → U32String → ℕ → ℕ → ℕ → ℤ → U32String × ℕ × ℕ
  | 0, input, i, o, _, _ => (input, i, o)
  | fuel + 1, input, i, o, composition, previousCcc =>
    if i + 1 < input.length then
      let next := input.getD (i + 1) 0
      let ccc := getCcc T next
      let left := T.composition composition 0
      let right := T.composition composition 1
      if right ≠ left ∧ previousCcc < ccc then
        if right < left ∨ T.compositionDataSize < right then (input, i, o)
        else
          let left := searchPair T next (right - left) left right
          if left + 1 < T.compositionDataSize ∧ T.compositionData left = next then
            -- absorbed: `continue` skips the update of `previous_ccc`
            let composed := T.compositionData (left + 1)
            composeMarks initial fuel (input.set initial composed) (i + 1) o composed previousCcc
          else if ccc = 0 then (input, i, o)
          else composeMarks initial fuel (input.set (o + 1) next) (i + 1) (o + 1) composition ccc
      else if ccc = 0 then (input, i, o)
      else composeMarks initial fuel (input.set (o + 1) next) (i + 1) (o + 1) composition ccc
    else (input, i, o)

/-- `input[input_count + 1]` is there and satisfies `p`. -/
def nextIs (p : ℕ → Prop) [DecidablePred p] (input : U32String) (i : ℕ) : Prop :=
  i + 1 < input.length ∧ p (input.getD (i + 1) 0)

instance (p : ℕ → Prop) [DecidablePred p] (input : U32String) (i : ℕ) :
    Decidable (nextIs p input i) := inferInstanceAs (Decidable (_ ∧ _))

/-- `input[composition_count] += input[++input_count] - hangul_tbase`, if a
trailing consonant follows. -/
def composeT (input : U32String) (i o : ℕ) : U32String × ℕ × ℕ :=
  if nextIs isHangulT input i then
    (input.set o (input.getD o 0 + (input.getD (i + 1) 0 - hangulTbase)), i + 1, o)
  else (input, i, o)

/-- One round of the outer loop of `compose`. -/
def composeStep (input : U32String) (i o : ℕ) : U32String × ℕ × ℕ :=
  -- `o ≤ i`, so the copy does not touch what is still to be read
  let input := input.set o (input.getD i 0)
  let c := input.getD i 0
  if isHangulL c then
    if nextIs isHangulV input i then
      composeT
        (input.set o (hangulSbase + ((c - hangulLbase) * hangulVcount
          + (input.getD (i + 1) 0 - hangulVbase)) * hangulTcount))
        (i + 1) o
    else (input, i, o)
  else if isHangulS c then
    if (c - hangulSbase) % hangulTcount = 0 then composeT input i o else (input, i, o)
  else if c < codeSpace then composeMarks T o input.length input i o c (-1)
  else (input, i, o)

def composeLoop : ℕ → U32String → ℕ → ℕ → U32String × ℕ × ℕ
  | 0, input, i, o => (input, i, o)
  | fuel + 1, input, i, o =>
    if i < input.length then
      let (input, i, o) := composeStep T input i o
      composeLoop fuel input (i + 1) (o + 1)
    else (input, i, o)

def compose (input : U32String) : U32String :=
  let (input, i, o) := composeLoop T input.length input 0 0
  if o < i then input.take o else input

/-! ### The check -/

/-- The inner loop of `would_compose`, from `input[j + 1]` on: `none` where
a composition applies, else what is left after the loop. -/
def wouldComposeMarks (composition : ℕ) : ℤ → U32String → Option U32String
  | _, [] => some []
  | previousCcc, next :: input =>
    let ccc := getCcc T next
    if T.composition composition 1 ≠ T.composition composition 0 ∧ previousCcc < ccc
        ∧ hasComposition T composition next = true then none
    else if ccc = 0 then some (next :: input)
    else wouldComposeMarks composition ccc input

/-- A character follows and satisfies `p`. -/
def headIs (p : ℕ → Prop) [DecidablePred p] : U32String → Bool
  | [] => false
  | c :: _ => decide (p c)

/-- The outer loop of `would_compose`. -/
def wouldComposeLoop : ℕ → U32String → Bool
  | _, [] => false
  | 0, _ :: _ => false
  | fuel + 1, current :: input =>
    if isHangulL current then
      if headIs isHangulV input then true else wouldComposeLoop fuel input
    else if isHangulS current then
      if (current - hangulSbase) % hangulTcount = 0 ∧ headIs isHangulT input then true
      else wouldComposeLoop fuel input
    else if current < codeSpace then
      match wouldComposeMarks T current (-1) input with
      | none => true
      | some input => wouldComposeLoop fuel input
    else wouldComposeLoop fuel input

/-- Returns true if a composition step would change the string. -/
def wouldCompose (input : U32String) : Bool := wouldComposeLoop T input.length input

/-- The combining class of the last code point of the decomposition. -/
def trailingCcc (c : ℕ) : ℕ :=
  let length := canonicalDecompLength T c
  if length = 0 then getCcc T c
  else getCcc T (T.decompositionData (T.decomposition c 0 / 4 + length - 1))

/-- The part of the data array that a decomposition names. -/
def decompositionSlice (base length : ℕ) : U32String :=
  (List.range length).map fun k => T.decompositionData (base + k)

def decompositionIsNotNfc (previous c : ℕ) : Bool :=
  if isHangulS c then false
  else if codeSpace ≤ c then false
  else
    let length := T.decomposition c 1 / 4 - T.decomposition c 0 / 4
    if length = 0 ∨ T.decomposition c 0 % 2 = 1 then false
    else if length = 1 then true
    else
      let base := T.decomposition c 0 / 4
      if T.decompositionDataSize < base + length then false
      else
        -- a composition exclusion does not come back from its decomposition
        let decomposed := compose T (decompositionSlice T base length)
        if !(decomposed.length == 1 && decomposed.getD 0 0 == c) then true
        else decide (previous < codeSpace) && hasComposition T previous (T.decompositionData base)

/-- The first loop of `is_already_nfc`. -/
def anyNotNfc (previous : ℕ) : U32String → Bool
  | [] => false
  | c :: input => decompositionIsNotNfc T previous c || anyNotNfc c input

/-- The second loop of `is_already_nfc`. -/
def marksInOrder (prevCcc : ℕ) : U32String → Bool
  | [] => true
  | c :: input =>
    let ccc := getCcc T c
    -- the next mark is compared with what the decomposition of `c` ends in
    if ccc ≠ 0 ∧ ccc < prevCcc then false else marksInOrder (trailingCcc T c) input

def isAlreadyNfc (input : U32String) : Bool :=
  if input.isEmpty then true
  else if !T.ensureTables then false
  -- `codeSpace` stands for no previous character
  else if anyNotNfc T codeSpace input then false
  else if !marksInOrder T 0 input then false
  else !wouldCompose T input

/-- `normalize`; `none` is `false`. -/
def normalize (input : U32String) : Option U32String :=
  if !T.ensureTables then none
  else if isAlreadyNfc T input then some input
  else some (compose T (decomposeNfc T input))

end AdaIdna
