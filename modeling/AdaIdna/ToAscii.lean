/-
AdaIdna/ToAscii.lean

The functions of to_ascii.cpp.

`to_ascii` returns its result and leaves its output in `out`; here both are
returned, so that what `out` holds after a failure can be stated.  Everything
before the walk over the labels is `mapAndNormalize` behind `readInput`; one
round of the walk is `appendLabel`, and its exits through `out.clear()` are
`none`.  The code converts between the encodings with its own functions (the
build without simdutf).
-/
import AdaIdna.MappingImage
import AdaIdna.Transcoding
import AdaIdna.Validity
import AdaIdna.Punycode

namespace AdaIdna

def maxDomainInputBytes : ℕ := 16384

/-- `xn--`. -/
def acePrefixBytes : Bytes := [0x78, 0x6E, 0x2D, 0x2D]

/-- `.`. -/
def dotByte : UInt8 := 0x2E

variable (T : Tables)

/-- `from_ascii_to_ascii`. -/
def fromAsciiToAscii (utf8String : Bytes) : Bytes := asciiMap T.byteOrder utf8String

/-! ### The input -/

/-- The UTF-32 form of the input. -/
def readInput (utf8String : Bytes) : Option U32String :=
  let utf32Length := utf32LengthFromUtf8 utf8String
  if utf32Length = 0 ∧ utf8String ≠ [] then none
  else
    let (actualUtf32Length, working) := utf8ToUtf32 T.byteOrder utf8String
    if actualUtf32Length = 0 ∨ actualUtf32Length ≠ utf32Length then none else some working

/-- Mapping, and normalization unless it can be skipped. -/
def mapAndNormalize (working : U32String) : Option U32String :=
  match map T working with
  | none => none
  | some mapped =>
    if !isAscii mapped && !isAlreadyNfc T mapped then normalize T mapped else some mapped

/-! ### The labels -/

/-- The tests on the payload of an ACE label. -/
def isAcePayloadValid (punySegmentAscii : Bytes) : Bool :=
  match punycodeToUtf32 punySegmentAscii [] with
  | none => false
  | some working =>
    if isAscii working then false
    else
      match map T working with
      | none => false
      | some postMap =>
        if working ≠ postMap then false
        else if !isAscii postMap && !isAlreadyNfc T postMap
            && normalize T postMap != some working then
          false
        else !(postMap.isEmpty || !isLabelValid T postMap)

/-- One round of the walk: append the ASCII form of a label. -/
def appendLabel (labelView : U32String) (out : Bytes) : Option Bytes :=
  if labelView.isEmpty then some out
  else if isAcePrefix labelView then
    -- copied as it stands, once its payload has passed
    if labelView.any (0x80 ≤ ·) then none
    else if isAcePayloadValid T ((labelView.map toChar).drop 4) then
      some (out ++ labelView.map toChar)
    else none
  else if isAscii labelView then some (out ++ labelView.map toChar)
  else if !isLabelValid T labelView then none
  else utf32ToPunycode labelView (out ++ acePrefixBytes)

/-- `while (p < end)`. -/
def toAsciiLoop : ℕ → U32String → Bytes → Bool × Bytes
  | _, [], out => (true, out)
  | 0, _ :: _, _ => (false, [])
  | fuel + 1, p@(_ :: _), out =>
    let labelView := p.takeWhile (· ≠ dot)
    let rest := p.dropWhile (· ≠ dot)
    match appendLabel T labelView out with
    | none => (false, [])
    -- a separator is written for each one that was skipped
    | some out => toAsciiLoop fuel rest.tail (if rest.isEmpty then out else out ++ [dotByte])

/-- `to_ascii`: the result, and what `out` holds. -/
def toAscii (utf8String : Bytes) : Bool × Bytes :=
  -- the ASCII path has no length bound
  if isAsciiBytes utf8String then (true, fromAsciiToAscii T utf8String)
  else if maxDomainInputBytes < utf8String.length then (false, [])
  else
    match readInput T utf8String with
    | none => (false, [])
    | some working =>
      match mapAndNormalize T working with
      | none => (false, [])
      | some mapped => toAsciiLoop T mapped.length mapped []

end AdaIdna
