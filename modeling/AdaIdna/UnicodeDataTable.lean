/-
AdaIdna/UnicodeDataTable.lean

The functions of unicode_data_table.py that build the normalization tables.

A dictionary is the list of its items, and a failed build, where the script
raises, is `none`.  `limit` is how deep Python may recurse.  The arrays
`entries`, which the script fills in from the first code point to the last,
grow here instead.  What `UnicodeData` and `parse_composition_exclusions` read
from the files is the input.
-/
import AdaIdna.Basic
import AdaIdna.Lib.Multistage

namespace AdaIdna

namespace UnicodeDataTable

def maxCodePoint : ℕ := 0x10FFFF
def blockCount : ℕ := (maxCodePoint + 1) >>> 8

def hangulSbase : ℕ := 0xAC00
def hangulScount : ℕ := 11172

/-- The fields that the normalization tables are built from. -/
structure UnicodeData where
  ccc : List (ℕ × ℕ)
  canonical : List (ℕ × U32String)
  compatibility : List (ℕ × U32String)
  deriving DecidableEq

variable (ucd : UnicodeData)

/-- `mapping` -/
def mappingOf (compatibility : Bool) (cp : ℕ) : Option U32String :=
  (ucd.canonical.lookup cp).or (if compatibility then ucd.compatibility.lookup cp else none)

def fullDecomposition (compatibility : Bool) : ℕ → ℕ → Option U32String
  | 0, _ => none
  | limit + 1, cp =>
    match mappingOf ucd compatibility cp with
    | none => some [cp]
    | some mapping => (mapping.mapM (fullDecomposition compatibility limit)).map List.flatten

/-- `ucd.ccc.get(cp, 0)` -/
def cccOf (cp : ℕ) : ℕ := (ucd.ccc.lookup cp).getD 0

/-! ### Rows -/

/-- `row` -/
def rowOf (entries : List ℕ) (cols : ℕ) (blockIsEmpty : List Bool) (block : ℕ) : List ℕ :=
  if blockIsEmpty.getD block false then List.replicate cols 0
  else (entries.drop (block <<< 8)).take cols

/-- `index` and `rows`; there may be no more rows than a byte can number. -/
def buildMultistage (entries : List ℕ) (cols : ℕ) (blockIsEmpty : List Bool) :
    Option (List ℕ × List ℕ) :=
  let t := ((List.range blockCount).map (rowOf entries cols blockIsEmpty)).foldl
    Multistage.addRow .empty
  if 256 < t.rows.places.length then none else some (t.index, t.rows.data)

/-- `data`, `entries` and `has_data`. -/
structure Layout where
  data : List ℕ
  entries : List ℕ
  hasData : List Bool

def Layout.empty : Layout := ⟨[0], [], List.replicate blockCount false⟩

/-- The entry and the data of one more code point. -/
def Layout.add (r : Layout) (cp entry : ℕ) (content : List ℕ) : Layout where
  data := r.data ++ content
  entries := r.entries ++ [entry]
  hasData := if content = [] then r.hasData else r.hasData.set (cp >>> 8) true

/-! ### Decompositions -/

/-- `decomposition` and `flags` -/
def decompositionOf (limit cp : ℕ) : Option (U32String × ℕ) :=
  if hangulSbase ≤ cp ∧ cp < hangulSbase + hangulScount then some ([], 0)
  else if (ucd.canonical.lookup cp).isSome then do
    let decomposition ← fullDecomposition ucd false limit cp
    let compatible ← fullDecomposition ucd true limit cp
    some (decomposition, if compatible ≠ decomposition then 2 else 0)
  else if (ucd.compatibility.lookup cp).isSome then do
    let decomposition ← fullDecomposition ucd true limit cp
    some (decomposition, 1)
  else some ([], 0)

/-- One round of the loop over the code points. -/
def decompositionStep (limit : ℕ) (r : Layout) (cp : ℕ) : Option Layout :=
  (decompositionOf ucd limit cp).map fun d => r.add cp ((r.data.length <<< 2) ||| d.2) d.1

/-- The sections of one of the tables. -/
structure Sections where
  index : List ℕ
  block : List ℕ
  data : List ℕ
  deriving DecidableEq

def buildDecomposition (limit : ℕ) : Option Sections := do
  let r ← (List.range (maxCodePoint + 1)).foldlM (decompositionStep ucd limit) .empty
  let entries := r.entries ++ [r.data.length <<< 2]
  if 1 <<< 14 ≤ r.data.length then none
  else
    let (index, block) ← buildMultistage entries 257 (r.hasData.map not)
    some ⟨index, block, r.data⟩

/-! ### Combining classes -/

/-- `entries` of `build_ccc` -/
def cccEntries : List ℕ := (List.range (maxCodePoint + 1)).map (cccOf ucd)

/-- `not any(entries[block << 8 : (block + 1) << 8])` -/
def cccIsEmpty (block : ℕ) : Bool :=
  !(((cccEntries ucd).drop (block <<< 8)).take ((block + 1) <<< 8 - block <<< 8)).any (· != 0)

def buildCcc : Option (List ℕ × List ℕ) :=
  buildMultistage (cccEntries ucd) 256 ((List.range blockCount).map (cccIsEmpty ucd))

/-! ### Compositions -/

variable (exclusions : Finset ℕ)

/-- What the loop over the canonical mappings adds to the list of `first`. -/
def pairOf (first : ℕ) (item : ℕ × U32String) : Option (ℕ × ℕ) :=
  match item.2 with
  | [head, second] =>
    if item.1 ∈ exclusions ∨ cccOf ucd item.1 ≠ 0 ∨ cccOf ucd head ≠ 0 then none
    else if head = first then some (second, item.1)
    else none
  | _ => none

/-- `pairs.get(first, ())` -/
def pairsOf (first : ℕ) : List (ℕ × ℕ) := ucd.canonical.filterMap (pairOf ucd exclusions first)

/-- Python's order of pairs. -/
def pairLe (p q : ℕ × ℕ) : Bool := decide (p.1 < q.1 ∨ p.1 = q.1 ∧ p.2 ≤ q.2)

/-- What `data` is extended by. -/
def compositionOf (cp : ℕ) : List ℕ :=
  ((pairsOf ucd exclusions cp).mergeSort pairLe).flatMap fun p => [p.1, p.2]

/-- One round of the loop over the code points. -/
def compositionStep (r : Layout) (cp : ℕ) : Layout :=
  r.add cp r.data.length (compositionOf ucd exclusions cp)

def buildComposition : Option Sections := do
  let r := (List.range (maxCodePoint + 1)).foldl (compositionStep ucd exclusions) .empty
  let entries := r.entries ++ [r.data.length]
  if 0xFFFF < r.data.length then none
  else
    let (index, block) ← buildMultistage entries 257 (r.hasData.map not)
    some ⟨index, block, r.data⟩

end UnicodeDataTable

end AdaIdna
