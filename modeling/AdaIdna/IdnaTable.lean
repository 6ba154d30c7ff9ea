/-
AdaIdna/IdnaTable.lean

The functions of idna_table.py that build the mapping tables.

The two dictionaries that avoid storing a block twice and the one for the
mapping sequences are pools; `mixed_map` and `mixed_data` are the places and
the data of one pool, and so on.  A failed assertion is `none`, and so is any
other exception.  What `parse_idna` returns is the input here.
-/
import AdaIdna.Basic
import AdaIdna.Lib.Pool

namespace AdaIdna

namespace IdnaTable

def blockBits : ℕ := 6
def blockSize : ℕ := 1 <<< blockBits
def boolFlag : ℕ := 0x8000
def sentinelValid : ℕ := 0xFFFF
def sentinelDisallowed : ℕ := 0xFFFE
def ignoredIdx : ℕ := 0

/-- `bytes(values)`, which raises if a value is no byte. -/
def bytesOf (values : List ℕ) : Option Bytes :=
  if ∀ v ∈ values, v < 0x100 then some (values.map toChar) else none

def encodeUtf8 (cp : ℕ) : Option Bytes :=
  if cp ≤ 0x7F then bytesOf [cp]
  else if cp ≤ 0x7FF then bytesOf [0xC0 ||| cp >>> 6, 0x80 ||| (cp &&& 0x3F)]
  else if cp ≤ 0xFFFF then
    bytesOf [0xE0 ||| cp >>> 12, 0x80 ||| (cp >>> 6 &&& 0x3F), 0x80 ||| (cp &&& 0x3F)]
  else
    bytesOf [0xF0 ||| cp >>> 18, 0x80 ||| (cp >>> 12 &&& 0x3F), 0x80 ||| (cp >>> 6 &&& 0x3F),
      0x80 ||| (cp &&& 0x3F)]

/-- The encodings of the code points of a mapping, one behind the other. -/
def encodeSeq (seq : U32String) : Option Bytes := (seq.mapM encodeUtf8).map List.flatten

/-! ### Entries -/

/-- The codes 0 to 3 of `parse_idna`. -/
inductive Code where
  | ignored
  | valid
  | disallowed
  | mapped
  deriving DecidableEq

/-- `(cp_start, cp_end, code, seq)`; `cp_end` is inclusive. -/
structure Entry where
  cpStart : ℕ
  cpEnd : ℕ
  code : Code
  seq : U32String
  deriving DecidableEq

/-- `find_high_ignored_range`: first code point and one past the last. -/
def findHighIgnoredRange (entries : List Entry) : Option (ℕ × ℕ) := do
  let highIgnored := entries.filter fun e => e.code = .ignored ∧ 0xE0000 ≤ e.cpStart
  let start ← (highIgnored.map Entry.cpStart).min?
  let last ← (highIgnored.map Entry.cpEnd).max?
  some (start, last + 1)

/-- One round of the loop over the entries. -/
def activeStep (highIgnoredStart : ℕ) (maxActiveCp : ℕ) (e : Entry) : ℕ :=
  if highIgnoredStart ≤ e.cpStart then maxActiveCp
  else if e.code ≠ .disallowed then max maxActiveCp e.cpEnd
  else maxActiveCp

def computeLowRangeEnd (entries : List Entry) (highIgnoredStart : ℕ) : ℕ :=
  let maxActiveCp := entries.foldl (activeStep highIgnoredStart) 0
  ((maxActiveCp >>> blockBits) + 1) <<< blockBits

/-! ### One value per code point -/

/-- `seq_to_idx` and `utf8_table`, where offset 0 is the empty string.  A sequence
that cannot be encoded is an error (`encodes`), so it does not matter what stands
for it here. -/
def buildMappings (entries : List Entry) : Pool U32String UInt8 :=
  entries.foldl (fun utf8 e =>
    if e.code = .mapped then
      utf8.insert e.seq utf8.data.length ((encodeSeq e.seq).getD [] ++ [0])
    else utf8) ⟨[([], ignoredIdx)], [0]⟩

/-- No sequence makes `encode_utf8` raise. -/
def encodes (entries : List Entry) : Bool :=
  entries.all fun e => e.code ≠ .mapped || (encodeSeq e.seq).isSome

/-- `val`; every sequence has its place in `seq_to_idx`. -/
def entryValue (utf8 : Pool U32String UInt8) (e : Entry) : ℕ :=
  match e.code with
  | .ignored => ignoredIdx
  | .valid => sentinelValid
  | .disallowed => sentinelDisallowed
  | .mapped => (utf8.lookup e.seq).getD 0

/-- The loop that fills in an entry. -/
def fillEntry (utf8 : Pool U32String UInt8) (lowRangeEnd : ℕ) (flat : List ℕ) (e : Entry) :
    List ℕ :=
  let lo := max e.cpStart 0
  let hi := min (e.cpEnd + 1) lowRangeEnd
  (List.range' lo (hi - lo)).foldl (fun flat cp => flat.set cp (entryValue utf8 e)) flat

/-- `build_flat_and_mappings` -/
def buildFlat (entries : List Entry) (lowRangeEnd : ℕ) : List ℕ :=
  entries.foldl (fillEntry (buildMappings entries) lowRangeEnd)
    (List.replicate lowRangeEnd sentinelDisallowed)

/-! ### Two levels -/

/-- `stage1`, `mixed_map` with `mixed_data`, and `bool_map` with `bool_words`. -/
structure TwoLevel where
  stage1 : List ℕ
  mixed : Pool (List ℕ) ℕ
  bool : Pool ℕ ℕ

/-- `block`, filled up at the end. -/
def blockAt (flat : List ℕ) (bi : ℕ) : List ℕ :=
  let block := (flat.drop (bi * blockSize)).take blockSize
  block ++ List.replicate (blockSize - block.length) sentinelDisallowed

def isBool (block : List ℕ) : Bool :=
  block.all fun v => v == sentinelValid || v == sentinelDisallowed

/-- `bits` -/
def validBits (block : List ℕ) : ℕ :=
  block.zipIdx.foldl (fun bits v => if v.1 = sentinelValid then bits ||| 1 <<< v.2 else bits) 0

/-- One round of the loop over the blocks. -/
def addBlock (flat : List ℕ) (t : TwoLevel) (bi : ℕ) : TwoLevel :=
  let block := blockAt flat bi
  if isBool block then
    let bits := validBits block
    let bool := t.bool.insert bits t.bool.data.length [bits]
    ⟨t.stage1 ++ [boolFlag ||| (bool.lookup bits).getD 0], t.mixed, bool⟩
  else
    let mixed := t.mixed.insert block t.mixed.data.length block
    ⟨t.stage1 ++ [(mixed.lookup block).getD 0], mixed, t.bool⟩

def buildTwoLevel (flat : List ℕ) : TwoLevel :=
  (List.range ((flat.length + blockSize - 1) / blockSize)).foldl (addBlock flat)
    ⟨[], .empty, .empty⟩

/-- What `generate_idna` returns for packing. -/
structure Generated where
  lowRangeEnd : ℕ
  highIgnoredStart : ℕ
  highIgnoredEnd : ℕ
  stage1 : List ℕ
  mixedData : List ℕ
  boolWords : List ℕ
  utf8Table : Bytes
  deriving DecidableEq

/-- The high ignored range, or an empty one behind the last code point. -/
def highIgnored (entries : List Entry) : ℕ × ℕ :=
  (findHighIgnoredRange entries).getD (0x110000, 0x110000)

def generateIdna (entries : List Entry) : Option Generated :=
  let lowRangeEnd := computeLowRangeEnd entries (highIgnored entries).1
  let t := buildTwoLevel (buildFlat entries lowRangeEnd)
  let utf8Table := (buildMappings entries).data
  if encodes entries ∧ utf8Table.length < 0xFFFD ∧ t.stage1.length ≤ 0x8000 then
    some {
      lowRangeEnd
      highIgnoredStart := (highIgnored entries).1
      highIgnoredEnd := (highIgnored entries).2
      stage1 := t.stage1
      mixedData := t.mixed.data
      boolWords := t.bool.data
      utf8Table }
  else none

end IdnaTable

end AdaIdna
