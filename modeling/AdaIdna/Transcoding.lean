/-
AdaIdna/Transcoding.lean

The functions of unicode_transcoding.cpp.

The readers walk over what is left of their input.  A writer returns the count
that the function returns, 0 for a failure, together with everything it has
written by then: on a failure the caller's buffer holds a part of the output.
-/
import AdaIdna.Words

namespace AdaIdna

open Lanes

/-! ### Decoding -/

/-- The test on the next 16 bytes, through two words. -/
def asciiBlock (o : ByteOrder) (data : Bytes) : Bool :=
  let v1 := loadWord o (data.take 8)
  let v2 := loadWord o ((data.drop 8).take 8)
  (v1 ||| v2) &&& 0x8080808080808080 == 0

/-- `(data[pos + i] & 0b11000000) == 0b10000000` -/
def isContinuation (b : UInt8) : Bool := b.toNat &&& 0xC0 == 0x80

/-- The part of the loop that converts one code point; `none` is a failure. -/
def readCodePoint : Bytes → Option (ℕ × Bytes)
  | [] => none
  | leadingByte :: data =>
    let lead := leadingByte.toNat
    if lead < 0x80 then some (lead, data)
    -- 110xxxxx
    else if lead &&& 0xE0 = 0xC0 then
      match data with
      | b1 :: data =>
        if !isContinuation b1 then none
        else
          let codePoint := (lead &&& 0x1F) <<< 6 ||| (b1.toNat &&& 0x3F)
          if codePoint < 0x80 ∨ 0x7FF < codePoint then none else some (codePoint, data)
      | _ => none
    -- 1110xxxx
    else if lead &&& 0xF0 = 0xE0 then
      match data with
      | b1 :: b2 :: data =>
        if !isContinuation b1 then none
        else if !isContinuation b2 then none
        else
          let codePoint :=
            (lead &&& 0x0F) <<< 12 ||| (b1.toNat &&& 0x3F) <<< 6 ||| (b2.toNat &&& 0x3F)
          if codePoint < 0x800 ∨ 0xFFFF < codePoint ∨ 0xD7FF < codePoint ∧ codePoint < 0xE000 then
            none
          else some (codePoint, data)
      | _ => none
    -- 11110xxx
    else if lead &&& 0xF8 = 0xF0 then
      match data with
      | b1 :: b2 :: b3 :: data =>
        if !isContinuation b1 then none
        else if !isContinuation b2 then none
        else if !isContinuation b3 then none
        else
          let codePoint := (lead &&& 0x07) <<< 18 ||| (b1.toNat &&& 0x3F) <<< 12
            ||| (b2.toNat &&& 0x3F) <<< 6 ||| (b3.toNat &&& 0x3F)
          if codePoint ≤ 0xFFFF ∨ 0x10FFFF < codePoint then none else some (codePoint, data)
      | _ => none
    else none

/-- The loop of `utf8_to_utf32`, behind the code points already written. -/
def utf8ToUtf32Loop (o : ByteOrder) : ℕ → Bytes → U32String → ℕ × U32String
  | _, [], out => (out.length, out)
  | 0, _ :: _, out => (0, out)
  | fuel + 1, data@(_ :: _), out =>
    if 16 ≤ data.length ∧ asciiBlock o data = true then
      utf8ToUtf32Loop o fuel (data.drop 16) (out ++ (data.take 16).map UInt8.toNat)
    else
      -- with fewer than 16 bytes left, or a byte that is not ASCII among them
      match readCodePoint data with
      | none => (0, out)
      | some (codePoint, data) => utf8ToUtf32Loop o fuel data (out ++ [codePoint])

def utf8ToUtf32 (o : ByteOrder) (buf : Bytes) : ℕ × U32String :=
  utf8ToUtf32Loop o buf.length buf []

/-- `utf32_length_from_utf8`: bytes above -65 as an `int8_t`. -/
def utf32LengthFromUtf8 (buf : Bytes) : ℕ := buf.countP fun c => decide (-65 < c.toInt8.toInt)

/-! ### Encoding -/

def utf8LengthFromUtf32 (buf : U32String) : ℕ :=
  buf.foldl
    (fun counter p =>
      counter + 1 + (if 0x7F < p then 1 else 0) + (if 0x7FF < p then 1 else 0)
        + (if 0xFFFF < p then 1 else 0))
    0

/-- The test on the next two characters, through one word. -/
def asciiPair (o : ByteOrder) (c d : ℕ) : Bool :=
  pack 32 (o.arrange [c, d]) &&& 0xFFFFFF80FFFFFF80 == 0

/-- The part of the loop that converts one code point; `none` is a failure. -/
def writeCodePoint (word : ℕ) : Option Bytes :=
  if word &&& 0xFFFFFF80 = 0 then some [toChar word]
  else if word &&& 0xFFFFF800 = 0 then
    some [toChar (word >>> 6 ||| 0xC0), toChar ((word &&& 0x3F) ||| 0x80)]
  else if word &&& 0xFFFF0000 = 0 then
    if 0xD800 ≤ word ∧ word ≤ 0xDFFF then none
    else
      some [toChar (word >>> 12 ||| 0xE0), toChar ((word >>> 6 &&& 0x3F) ||| 0x80),
        toChar ((word &&& 0x3F) ||| 0x80)]
  else if 0x10FFFF < word then none
  else
    some [toChar (word >>> 18 ||| 0xF0), toChar ((word >>> 12 &&& 0x3F) ||| 0x80),
      toChar ((word >>> 6 &&& 0x3F) ||| 0x80), toChar ((word &&& 0x3F) ||| 0x80)]

/-- The loop of `utf32_to_utf8`, behind the bytes already written. -/
def utf32ToUtf8Loop (o : ByteOrder) : U32String → Bytes → ℕ × Bytes
  | [], out => (out.length, out)
  | [c], out =>
    match writeCodePoint c with
    | none => (0, out)
    | some bytes => ((out ++ bytes).length, out ++ bytes)
  | c :: d :: data, out =>
    if asciiPair o c d then utf32ToUtf8Loop o data (out ++ [toChar c, toChar d])
    else
      match writeCodePoint c with
      | none => (0, out)
      | some bytes => utf32ToUtf8Loop o (d :: data) (out ++ bytes)

def utf32ToUtf8 (o : ByteOrder) (buf : U32String) : ℕ × Bytes := utf32ToUtf8Loop o buf []

end AdaIdna
