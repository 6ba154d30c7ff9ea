/-
AdaIdna/Mapping.lean

The functions of mapping.cpp.

A pointer into `idna_utf8_mappings` is what the array holds from there on, and
`*ptr` beyond its end (which the code never reads, every entry ending in a
zero) is 0.  `map` goes over its input twice, once to size the output and once
to write it by index, and both passes decide by `idna_lookup` afresh.
-/
import AdaIdna.TableStore

namespace AdaIdna

open Lanes

def idnaBlockBits : ℕ := 6
def idnaBlockSize : ℕ := 64
def idnaBlockMask : ℕ := 63
def idnaValid : ℕ := 0xFFFF
def idnaDisallowed : ℕ := 0xFFFE
def idnaIgnored : ℕ := 0
def idnaBoolFlag : ℕ := 0x8000

variable (T : Tables)

/-! ### Lookup -/

def idnaLookup (cp : ℕ) : ℕ :=
  if cp < T.idnaLowRangeEnd then
    let ref := T.idnaStage1 (cp >>> idnaBlockBits)
    if ref &&& idnaBoolFlag ≠ 0 then
      -- `ref & ~IDNA_BOOL_FLAG` on 16 bits
      let bitIdx := (ref &&& (0xFFFF - idnaBoolFlag)) * idnaBlockSize + (cp &&& idnaBlockMask)
      if (T.idnaBoolBlocks (bitIdx >>> 6) >>> (bitIdx &&& 63)) &&& 1 ≠ 0 then idnaValid
      else idnaDisallowed
    -- a block whose statuses are stored one by one
    else T.idnaStage2 (ref + (cp &&& idnaBlockMask))
  else if T.idnaHighIgnoredStart ≤ cp ∧ cp < T.idnaHighIgnoredEnd then idnaIgnored
  else idnaDisallowed

/-! ### Mapping strings -/

/-- `*ptr`. -/
def byteAt (ptr : Bytes) : ℕ := (ptr.headD 0).toNat

/-- `utf8_next`: one code point, and the pointer behind it. -/
def utf8Next (ptr : Bytes) : ℕ × Bytes :=
  let b0 := byteAt ptr
  let p1 := ptr.drop 1
  let p2 := ptr.drop 2
  let p3 := ptr.drop 3
  if b0 < 0x80 then (b0, p1)
  else if b0 < 0xE0 then ((b0 &&& 0x1F) <<< 6 ||| (byteAt p1 &&& 0x3F), p2)
  else if b0 < 0xF0 then
    ((b0 &&& 0x0F) <<< 12 ||| (byteAt p1 &&& 0x3F) <<< 6 ||| (byteAt p2 &&& 0x3F), p3)
  else
    ((b0 &&& 0x07) <<< 18 ||| (byteAt p1 &&& 0x3F) <<< 12 ||| (byteAt p2 &&& 0x3F) <<< 6
      ||| (byteAt p3 &&& 0x3F), ptr.drop 4)

/-- `utf8_count_codepoints`. -/
def utf8CountCodepoints : ℕ → Bytes → ℕ
  | 0, _ => 0
  | fuel + 1, ptr =>
    if byteAt ptr = 0 then 0
    else if byteAt ptr < 0x80 then utf8CountCodepoints fuel (ptr.drop 1) + 1
    else if byteAt ptr < 0xE0 then utf8CountCodepoints fuel (ptr.drop 2) + 1
    else if byteAt ptr < 0xF0 then utf8CountCodepoints fuel (ptr.drop 3) + 1
    else utf8CountCodepoints fuel (ptr.drop 4) + 1

/-- `idna_utf8_mappings + status`. -/
def mappingAt (status : ℕ) : Bytes := T.idnaUtf8Mappings.drop status

/-! ### The two passes -/

/-- Pass 1: the size of the output; `none` is the failure exit. -/
def mapSize : U32String → ℕ → Option ℕ
  | [], outSize => some outSize
  | x :: input, outSize =>
    let status := idnaLookup T x
    if status = idnaDisallowed then none
    else if status = idnaValid then mapSize input (outSize + 1)
    else if T.idnaUtf8Mappings.length ≤ status then none
    else
      let ptr := mappingAt T status
      mapSize input (outSize + utf8CountCodepoints ptr.length ptr)

/-- `while (*ptr != 0) out[w++] = utf8_next(ptr);` -/
def writeMapping : ℕ → Bytes → U32String × ℕ → U32String × ℕ
  | 0, _, r => r
  | fuel + 1, ptr, r =>
    if byteAt ptr = 0 then r
    else
      let (c, ptr) := utf8Next ptr
      writeMapping fuel ptr (r.1.set r.2 c, r.2 + 1)

/-- Pass 2. -/
def mapWrite : U32String → U32String × ℕ → U32String
  | [], r => r.1
  | x :: input, r =>
    let status := idnaLookup T x
    if status = idnaValid then mapWrite input (r.1.set r.2 x, r.2 + 1)
    else
      -- an ignored code point is mapped to the empty string at offset 0
      let ptr := mappingAt T status
      mapWrite input (writeMapping ptr.length ptr r)

/-- `map`; `none` is `false`, with an empty `out`. -/
def map (input : U32String) : Option U32String :=
  if !T.ensureTables then none
  else
    match mapSize T input 0 with
    | none => none
    | some outSize => some (mapWrite T input (List.replicate outSize 0, 0))

/-! ### The ASCII path -/

/-- `word ^= (((word + broadcast_Ap) ^ (word + broadcast_Zp)) & broadcast_80) >> 2` -/
def asciiMapWord (word : UInt64) : UInt64 :=
  word ^^^ ((((word + broadcast (128 - 0x41)) ^^^ (word + broadcast (128 - 0x5A - 1)))
    &&& broadcast 0x80) >>> 2)

/-- Up to eight bytes, through one word. -/
def asciiMapBlock (o : ByteOrder) (input : Bytes) : Bytes :=
  (storeWord o (asciiMapWord (loadWord o (input ++ List.replicate (8 - input.length) 0)))).take
    input.length

/-- The loop over blocks of eight, and the partial block behind it. -/
def asciiMapLoop (o : ByteOrder) : ℕ → Bytes → Bytes
  | 0, input => asciiMapBlock o input
  | blocks + 1, input =>
    if 8 ≤ input.length then asciiMapBlock o (input.take 8) ++ asciiMapLoop o blocks (input.drop 8)
    else asciiMapBlock o input

def asciiMap (o : ByteOrder) (input : Bytes) : Bytes := asciiMapLoop o (input.length / 8) input

end AdaIdna
