/-
AdaIdna/Validity.lean

The functions of validity.cpp.

`is_contextj_valid` looks both ways from its index: the characters in front of
it are kept last one first, so that both scans recurse on a list.  The table
pointers that `is_label_valid` tests for null are those that `ensure_tables`
sets, so the tests come down to its result.
-/
import AdaIdna.Normalization

namespace AdaIdna

/-- `enum direction`. -/
inductive Direction where
  | none | bn | cs | es | on | en | l | r | nsm | al | an | et | ws | rlo | lro | pdf | rle | rli
  | fsi | pdi | lri | b | s | lre
  deriving DecidableEq

/-- The directions in the order of their values. -/
def directions : List Direction :=
  [.none, .bn, .cs, .es, .on, .en, .l, .r, .nsm, .al, .an, .et, .ws, .rlo, .lro, .pdf, .rle, .rli,
    .fsi, .pdi, .lri, .b, .s, .lre]

/-- `static_cast<direction>`. -/
def Direction.ofValue (value : ℕ) : Direction := directions.getD value .none

def Direction.value (d : Direction) : ℕ := directions.idxOf d

/-- `enum class joining_type`. -/
inductive JoiningType where
  | u | c | d | l | r | t
  deriving DecidableEq

/-- `static_cast<joining_type>`. -/
def JoiningType.ofValue (value : ℕ) : JoiningType :=
  [JoiningType.u, .c, .d, .l, .r, .t].getD value .u

/-! ### Lookup -/

/-- The loop of `find_range`. -/
def findRangeLoop (last : ℕ → ℕ) (codePoint : ℕ) : ℕ → ℕ → ℕ → ℕ
  | 0, lo, _ => lo
  | fuel + 1, lo, hi =>
    if lo < hi then
      let mid := lo + (hi - lo) / 2
      if last mid < codePoint then findRangeLoop last codePoint fuel (mid + 1) hi
      else findRangeLoop last codePoint fuel lo mid
    else lo

/-- The index of the range that contains the code point, or `count`. -/
def findRange (start last : ℕ → ℕ) (count codePoint : ℕ) : ℕ :=
  let lo := findRangeLoop last codePoint count 0 count
  if lo < count ∧ start lo ≤ codePoint then lo else count

/-- `std::ranges::lower_bound`: the first index whose key is not below `value`. -/
def lowerBound (key : ℕ → ℕ) (count value : ℕ) : ℕ :=
  (List.range count).findIdx fun i => !decide (key i < value)

variable (T : Tables)

def findDirection (codePoint : ℕ) : Direction :=
  let i := findRange T.dirStart T.dirFinal T.dirTableCount codePoint
  if i = T.dirTableCount then .none else Direction.ofValue (T.dirValue i)

def findJoiningType (codePoint : ℕ) : JoiningType :=
  let i := findRange T.joiningStart T.joiningFinal T.joiningTableCount codePoint
  if i = T.joiningTableCount then .u else JoiningType.ofValue (T.joiningValue i)

/-! ### ContextJ -/

/-- The joining type that a scan away from the joiner ends with. -/
def scanJoining : JoiningType → U32String → JoiningType
  | found, [] => found
  | _, c :: label =>
    let found := findJoiningType T c
    if found ≠ .t then found else scanJoining found label

/-- `virama_ccc`. -/
def viramaCcc : ℕ := 9

/-- `i > 0 && get_ccc(label[i - 1]) == virama_ccc` -/
def afterVirama : U32String → Bool
  | [] => false
  | previous :: _ => getCcc T previous == viramaCcc

/-- The loop of `is_contextj_valid`. -/
def isContextjValidFrom : U32String → U32String → Bool
  | _, [] => true
  | front, c :: label =>
    if c ≠ 0x200C ∧ c ≠ 0x200D then isContextjValidFrom (c :: front) label
    else if afterVirama T front then isContextjValidFrom (c :: front) label
    else if c = 0x200D then false
    -- only U+200C is left for the joining types
    else
      let before := scanJoining T .u front
      if before ≠ .l ∧ before ≠ .d then false
      else
        let after := scanJoining T .u label
        if after ≠ .r ∧ after ≠ .d then false else isContextjValidFrom (c :: front) label

def isContextjValid (label : U32String) : Bool := isContextjValidFrom T [] label

/-! ### Bidi -/

/-- The loop of `find_last_not_of_nsm`, which counts down. -/
def findLastNotOfNsmBelow (label : U32String) : ℕ → Option ℕ
  | 0 => none
  | i + 1 =>
    if findDirection T (label.getD i 0) ≠ .nsm then some i else findLastNotOfNsmBelow label i

/-- `static_cast<int>(label.size() - 1)`: an `int` keeps the low 32 bits. -/
def lastIndex (size : ℕ) : ℤ := ((size : ℤ) - 1).bmod (2 ^ 32)

/-- `find_last_not_of_nsm`; `none` is `npos`. -/
def findLastNotOfNsm (label : U32String) : Option ℕ :=
  findLastNotOfNsmBelow T label (lastIndex label.length + 1).toNat

def isRtlLabel (label : U32String) : Bool :=
  let mask := 1 <<< Direction.r.value ||| 1 <<< Direction.al.value ||| 1 <<< Direction.an.value
  let directions :=
    label.foldl (fun directions c => directions ||| 1 <<< (findDirection T c).value) 0
  directions &&& mask != 0

/-- Allowed in an LTR label. -/
def ltrAllowed (d : Direction) : Bool :=
  d == .l || d == .en || d == .es || d == .cs || d == .et || d == .on || d == .bn || d == .nsm

/-- Allowed in an RTL label. -/
def rtlAllowed (d : Direction) : Bool :=
  d == .r || d == .al || d == .an || d == .en || d == .es || d == .cs || d == .et || d == .on
    || d == .bn || d == .nsm

/-- The loop over an RTL label up to its last character that is no NSM. -/
def rtlLoop (hasAn hasEn : Bool) : U32String → Bool
  | [] => true
  | c :: label =>
    let d := findDirection T c
    -- the source sets the flag of `d` first, and tests the other one
    if d == .en && hasAn || d == .an && hasEn then false
    else if !rtlAllowed d then false
    else if label.isEmpty && !(d == .r || d == .al || d == .an || d == .en) then false
    else rtlLoop (hasAn || d == .an) (hasEn || d == .en) label

/-- The end of `is_label_valid`, from the search for the last character that
is no NSM. -/
def checkBidi (label : U32String) : Bool :=
  match findLastNotOfNsm T label with
  | none => false
  | some lastNonNsmChar =>
    if isRtlLabel T label then
      -- the first character decides which of the two rules applies
      if findDirection T (label.getD 0 0) = .l then
        if !(label.take (lastNonNsmChar + 1)).all fun c => ltrAllowed (findDirection T c) then false
        else
          let lastDir := findDirection T (label.getD lastNonNsmChar 0)
          lastDir == .l || lastDir == .en
      else
        let firstDir := findDirection T (label.getD 0 0)
        if firstDir ≠ .r ∧ firstDir ≠ .al then false
        else rtlLoop T false false (label.take (lastNonNsmChar + 1))
    else true

/-- The label begins with a combining mark. -/
def startsWithMark (label : U32String) : Bool :=
  let front := label.getD 0 0
  let combIt := lowerBound (fun i => (T.combiningRanges i).2) T.combiningRangeCount front
  decide (combIt ≠ T.combiningRangeCount) && decide ((T.combiningRanges combIt).1 ≤ front)

def isLabelValid (label : U32String) : Bool :=
  if label.isEmpty then true
  else if !T.ensureTables then false
  else if startsWithMark T label then false
  else if !isContextjValid T label then false
  else checkBidi T label

end AdaIdna
