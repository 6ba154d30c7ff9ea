/-
AdaIdna/PackTables.lean

The functions of pack_tables.py that write and read table_blob.inc.

`zlib` is given by its two functions, raw DEFLATE at level 9 and its inverse;
`zlib.crc32` is the CRC-32 that table_store.hpp computes too.  A `SystemExit`,
a failed assertion and any other exception is `none`.  A text is the list of
its characters, and the regular expressions of `_parse_blob_meta` are
patterns: none of their repetitions has to give a character back.  `\w` and
`\d` stand for ASCII only, which is all that `write_blob` writes.
-/
import AdaIdna.Basic
import AdaIdna.BlobSection
import AdaIdna.Lib.Lanes
import AdaIdna.Lib.TextScan

namespace AdaIdna

/-- The name of a section in `SECTION_ORDER`. -/
def BlobSection.name : BlobSection → String
  | idnaStage1 => "idna_stage1"
  | idnaStage2 => "idna_stage2"
  | idnaBoolBlocks => "idna_bool_blocks"
  | idnaUtf8Mappings => "idna_utf8_mappings"
  | decompositionIndex => "decomposition_index"
  | decompositionBlock => "decomposition_block"
  | decompositionData => "decomposition_data"
  | cccIndex => "ccc_index"
  | cccBlock => "ccc_block"
  | compositionIndex => "composition_index"
  | compositionBlock => "composition_block"
  | compositionData => "composition_data"
  | idContinueFlat => "id_continue_flat"
  | idStartFlat => "id_start_flat"
  | dirStart => "dir_start"
  | dirFinal => "dir_final"
  | dirValue => "dir_value"
  | combiningFlat => "combining_flat"
  | joiningStart => "joining_start"
  | joiningFinal => "joining_final"
  | joiningValue => "joining_value"

/-- `crc32_ieee`, one bit. -/
def crc32Bit (c : UInt32) : UInt32 := (c >>> 1) ^^^ (0xEDB88320 &&& (0 - (c &&& 1)))

/-- `crc32_ieee`, and `zlib.crc32`. -/
def crc32Ieee (data : Bytes) : UInt32 :=
  ~~~ data.foldl (fun c b => crc32Bit^[8] (c ^^^ b.toUInt32)) 0xFFFFFFFF

namespace PackTables

open TextScan

/-- The integer kinds of the sections. -/
inductive Kind where
  | u8 | u16 | u32 | u64
  deriving DecidableEq

/-- `ALIGN` -/
def Kind.align : Kind → ℕ
  | u8 => 1
  | u16 => 2
  | u32 => 4
  | u64 => 8

/-- `WIDTH` -/
def Kind.width : Kind → ℕ
  | u8 => 1
  | u16 => 2
  | u32 => 4
  | u64 => 8

/-- `SECTION_ORDER` -/
def sectionOrder : List (BlobSection × Kind) :=
  [(.idnaStage1, .u16), (.idnaStage2, .u16), (.idnaBoolBlocks, .u64), (.idnaUtf8Mappings, .u8),
    (.decompositionIndex, .u8), (.decompositionBlock, .u16), (.decompositionData, .u32),
    (.cccIndex, .u8), (.cccBlock, .u8), (.compositionIndex, .u8), (.compositionBlock, .u16),
    (.compositionData, .u32), (.idContinueFlat, .u32), (.idStartFlat, .u32), (.dirStart, .u32),
    (.dirFinal, .u32), (.dirValue, .u8), (.combiningFlat, .u32), (.joiningStart, .u32),
    (.joiningFinal, .u32), (.joiningValue, .u8)]

/-! ### Layout -/

/-- `struct.pack` of one value, lowest byte first. -/
def packValue (kind : Kind) (v : ℕ) : Option Bytes :=
  if v < 2 ^ (8 * kind.width) then some ((Lanes.unpack 8 kind.width v).map toChar) else none

/-- `struct.pack("<" + PACK[kind] * len(vals), *vals)` -/
def packValues (kind : Kind) (vals : List ℕ) : Option Bytes :=
  (vals.mapM (packValue kind)).map List.flatten

/-- `struct.unpack("<" + PACK[kind] * count, raw)` -/
def unpackValues (kind : Kind) (count : ℕ) (raw : Bytes) : List ℕ :=
  (List.range count).map fun k =>
    Lanes.pack 8 (((raw.drop (kind.width * k)).take kind.width).map UInt8.toNat)

/-- The loop of `align`. -/
def alignLoop (a : ℕ) : ℕ → Bytes → Bytes
  | 0, blob => blob
  | fuel + 1, blob => if blob.length % a ≠ 0 then alignLoop a fuel (blob ++ [0]) else blob

def align (a : ℕ) (blob : Bytes) : Bytes := alignLoop a a blob

/-- An entry of `layout`. -/
structure Placed where
  name : BlobSection
  off : ℕ
  nbytes : ℕ
  kind : Kind
  count : ℕ
  deriving DecidableEq

variable (sections : BlobSection → Option (List ℕ))

/-- One round of the loop over `SECTION_ORDER`. -/
def placeSection (r : Bytes × List Placed) (item : BlobSection × Kind) :
    Option (Bytes × List Placed) := do
  let vals ← sections item.1
  let blob := align item.2.align r.1
  let packed ← packValues item.2 vals
  some (blob ++ packed,
    r.2 ++ [⟨item.1, blob.length, vals.length * item.2.width, item.2, vals.length⟩])

/-- `uncompressed` and `layout`. -/
def computeLayout : Option (Bytes × List Placed) :=
  sectionOrder.foldlM (placeSection sections) ([], [])

/-! ### Writing -/

/-- `zlib.compressobj(9, zlib.DEFLATED, -15)` and `zlib.decompress(_, -15)`. -/
structure Zlib where
  compress : Bytes → Bytes
  decompress : Bytes → Option Bytes

def blockRows (name : BlobSection) (cols : ℕ) : Option ℕ := do
  let vals ← sections name
  if vals.length % cols ≠ 0 then none else some (vals.length / cols)

/-- `len(sections[name])` -/
def lengthOf (name : BlobSection) : Option ℕ := (sections name).map List.length

/-- What table_blob.inc declares. -/
structure Blob where
  uncompressedSize : ℕ
  compressedSize : ℕ
  uncompressedCrc32 : UInt32
  /-- `meta` -/
  dimensions : List (String × ℕ)
  layout : List Placed
  compressed : Bytes

/-- `meta` -/
def dimensionsOf : Option (List (String × ℕ)) := do
  let decompositionRows ← blockRows sections .decompositionBlock 257
  let cccRows ← blockRows sections .cccBlock 256
  let compositionRows ← blockRows sections .compositionBlock 257
  let idContinue ← lengthOf sections .idContinueFlat
  let idStart ← lengthOf sections .idStartFlat
  let dirTable ← lengthOf sections .dirStart
  let combining ← lengthOf sections .combiningFlat
  let joiningTable ← lengthOf sections .joiningStart
  some [("decomposition_block_rows", decompositionRows), ("decomposition_block_cols", 257),
    ("ccc_block_rows", cccRows), ("ccc_block_cols", 256),
    ("composition_block_rows", compositionRows), ("composition_block_cols", 257),
    ("id_continue_count", idContinue / 2), ("id_start_count", idStart / 2),
    ("dir_table_count", dirTable), ("combining_range_count", combining / 2),
    ("joining_table_count", joiningTable)]

/-- `write_blob`, up to the text. -/
def writeBlob (z : Zlib) : Option Blob := do
  let (uncompressed, layout) ← computeLayout sections
  let compressed := z.compress uncompressed
  if z.decompress compressed ≠ some uncompressed then none
  else
    let dimensions ← dimensionsOf sections
    some {
      uncompressedSize := uncompressed.length
      compressedSize := compressed.length
      uncompressedCrc32 := crc32Ieee uncompressed
      dimensions
      layout
      compressed }

/-! ### The text -/

def hexDigit (digits : String) (d : ℕ) : Char := digits.toList.getD d '0'

/-- `0x{b:02x}` -/
def hexByte (b : UInt8) : List Char :=
  ['0', 'x', hexDigit "0123456789abcdef" (b.toNat / 16), hexDigit "0123456789abcdef" (b.toNat % 16)]

/-- `c_bytes` -/
def cBytes (data : Bytes) : List (List Char) :=
  if data = [] then []
  else (List.intercalate [','] ((data.take 16).map hexByte) ++ [',']) :: cBytes (data.drop 16)
termination_by data.length
decreasing_by
  rename_i h
  have := List.length_pos_iff.mpr h
  rw [List.length_drop]
  omega

/-- `constexpr size_t {name} = {value};` -/
def constantLine (name : List Char) (value : ℕ) : List Char :=
  "constexpr size_t ".toList ++ name ++ " = ".toList ++ Nat.toDigits 10 value ++ ";".toList

/-- `0x{crc:08X}u` -/
def crcText (crc : UInt32) : List Char :=
  "0x".toList ++ (Lanes.unpack 4 8 crc.toNat).reverse.map (hexDigit "0123456789ABCDEF") ++ ['u']

/-- `out` -/
def Blob.lines (b : Blob) : List (List Char) :=
  ["// Auto-generated by scripts/pack_tables.py - do not edit.".toList,
    "// Compressed Unicode/IDNA tables (raw DEFLATE).".toList,
    "// clang-format off".toList,
    "#ifndef ADA_IDNA_TABLE_BLOB_H".toList,
    "#define ADA_IDNA_TABLE_BLOB_H".toList,
    "#include <cstdint>".toList,
    "#include <cstddef>".toList,
    "namespace ada::idna::table_blob \x7b".toList,
    constantLine "uncompressed_size".toList b.uncompressedSize,
    constantLine "compressed_size".toList b.compressedSize,
    "constexpr uint32_t uncompressed_crc32 = ".toList ++ crcText b.uncompressedCrc32 ++
      ";".toList] ++
  b.dimensions.map (fun d => constantLine d.1.toList d.2) ++
  ["// Offsets into the decompressed buffer:".toList] ++
  b.layout.flatMap (fun p =>
    [constantLine ("off_".toList ++ p.name.name.toList) p.off,
      constantLine ("count_".toList ++ p.name.name.toList) p.count]) ++
  ["alignas(8) inline constexpr uint8_t compressed[] = \x7b".toList,
    List.intercalate ['\n'] (cBytes b.compressed),
    "\x7d;".toList,
    "\x7d  // namespace ada::idna::table_blob".toList,
    "#endif".toList]

/-- `"\n".join(out) + "\n"` -/
def Blob.text (b : Blob) : List Char := List.intercalate ['\n'] b.lines ++ ['\n']

/-! ### Reading -/

/-- `\w` -/
def isWord (c : Char) : Bool := c.isAlphanum || c == '_'

/-- `[0-9a-fA-F]` -/
def isHex (c : Char) : Bool :=
  c.isDigit || ('a' ≤ c && c ≤ 'f') || ('A' ≤ c && c ≤ 'F')

/-- `compressed\[\] = \{(.*?)\};` -/
def compressedPattern : Pattern (List Char) := fun s =>
  (lit "compressed[] = \x7b".toList s).bind (upTo "\x7d;".toList)

/-- `0x([0-9a-fA-F]+)` -/
def hexPattern : Pattern (List Char) := fun s => (lit "0x".toList s).bind (run isHex)

/-- `uncompressed_size = (\d+)` -/
def sizePattern : Pattern (List Char) := fun s =>
  (lit "uncompressed_size = ".toList s).bind (run Char.isDigit)

/-- `constexpr size_t off_(\w+) = (\d+);`, and the same with `count_`. -/
def constantPattern (start : String) : Pattern (List Char × List Char) := fun s => do
  let s ← lit ("constexpr size_t ".toList ++ start.toList) s
  let (name, s) ← run isWord s
  let s ← lit " = ".toList s
  let (value, s) ← run Char.isDigit s
  let s ← lit ";".toList s
  some ((name, value), s)

/-- `int(x)` -/
def intOf (digits : List Char) : ℕ := Nat.ofDigitChars 10 digits 0

/-- The value of a hexadecimal digit of either case. -/
def hexValue (c : Char) : ℕ :=
  if c.isDigit then c.toNat - 48 else if 'a' ≤ c then c.toNat - 87 else c.toNat - 55

/-- `int(x, 16)`, as an element of `bytes`. -/
def byteOf (digits : List Char) : Option UInt8 :=
  let value := digits.foldl (fun v c => 16 * v + hexValue c) 0
  if value < 256 then some (toChar value) else none

/-- `{name: value}`; a later item replaces an earlier one. -/
def constantOf (start : String) (text : List Char) (name : BlobSection) : Option ℕ :=
  (((findAll (constantPattern start) text).reverse.lookup name.name.toList)).map intOf

/-- `_parse_blob_meta`: `plain`. -/
def parseBlobMeta (z : Zlib) (text : List Char) : Option Bytes := do
  let array ← search compressedPattern text
  let compressed ← (findAll hexPattern array).mapM byteOf
  let us ← search sizePattern text
  let plain ← z.decompress compressed
  if plain.length ≠ intOf us then none else some plain

/-- One round of the loop over `SECTION_ORDER`; a section that is not there is
left out. -/
def loadSection (text : List Char) (plain : Bytes) (item : BlobSection × Kind) :
    Option (List (BlobSection × List ℕ)) :=
  match constantOf "off_" text item.1 with
  | none => some []
  | some off => do
    let count ← constantOf "count_" text item.1
    let raw := (plain.drop off).take (count * item.2.width)
    if raw.length ≠ count * item.2.width then none
    else some [(item.1, unpackValues item.2 count raw)]

def loadBlobSections (z : Zlib) (text : List Char) : Option (List (BlobSection × List ℕ)) := do
  let plain ← parseBlobMeta z text
  (sectionOrder.mapM (loadSection text plain)).map List.flatten

end PackTables

end AdaIdna
