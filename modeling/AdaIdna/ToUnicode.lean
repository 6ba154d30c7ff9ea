/-
AdaIdna/ToUnicode.lean

The functions of to_unicode.cpp.
-/
import AdaIdna.ToAscii

namespace AdaIdna

variable (T : Tables)

/-- `accept_decoded`. -/
def acceptDecoded (tmpBuffer : U32String) : Bool :=
  if isAscii tmpBuffer then false
  else
    match map T tmpBuffer with
    | none => false
    | some postMap =>
      if postMap ≠ tmpBuffer then false
      else
        match normalize T postMap with
        | none => false
        | some postMap => postMap == tmpBuffer && !postMap.isEmpty && isLabelValid T postMap

/-- What is appended for a label. -/
def unicodeLabel (labelView : Bytes) : Bytes :=
  if acePrefixBytes.isPrefixOf labelView && isAsciiBytes labelView then
    match punycodeToUtf32 (labelView.drop 4) [] with
    -- whatever fails, the label is returned as it came
    | none => labelView
    | some tmpBuffer =>
      if acceptDecoded T tmpBuffer then
        let utf8Size := utf8LengthFromUtf32 tmpBuffer
        let (written, utf8) := utf32ToUtf8 T.byteOrder tmpBuffer
        if written ≠ utf8Size then labelView else utf8
      else labelView
  else labelView

/-- `while (label_start < input.size())`. -/
def toUnicodeLoop : ℕ → Bytes → Bytes → Bytes
  | _, [], output => output
  | 0, _ :: _, output => output
  | fuel + 1, input@(_ :: _), output =>
    let labelView := input.takeWhile (· ≠ dotByte)
    let rest := input.dropWhile (· ≠ dotByte)
    let output := output ++ unicodeLabel T labelView
    toUnicodeLoop fuel rest.tail (if rest.isEmpty then output else output ++ [dotByte])

/-- `to_unicode(input, output)`; `none` is `false`. -/
def toUnicodeInto (input : Bytes) : Option Bytes :=
  if maxDomainInputBytes < input.length then none
  else some (toUnicodeLoop T input.length input [])

/-- `to_unicode(input)`: over-limit input is returned as it is. -/
def toUnicode (input : Bytes) : Bytes :=
  match toUnicodeInto T input with
  | none => input
  | some output => output

end AdaIdna
