/-
AdaIdna/Punycode.lean

The three functions of punycode.cpp: the decoder `punycodeToUtf32`, the
allocation-free checker `verifyPunycode` and the encoder `utf32ToPunycode`.

The `int32_t` variables `i`, `w`, `k`, `d`, `q`, `bias` are natural numbers
here; each guard against overflow stands where the source has it.  A loop of
the source that consumes its `string_view` recurses on the bytes that are
left; the outer loops, which consume several bytes or place several code
points in a round, take the number of rounds that always suffice as `fuel`.
`return false` is `none`: every caller drops what a failed call has written.
-/
import AdaIdna.Basic

namespace AdaIdna

def base : ℕ := 36
def tmin : ℕ := 1
def tmax : ℕ := 26
def skew : ℕ := 38
def damp : ℕ := 700
def initialBias : ℕ := 72
def initialN : ℕ := 128

/-- The hyphen, Punycode's delimiter. -/
def delimiter : UInt8 := 0x2D

/-- `char_to_digit_value`; the `-1` of the source is `none`. -/
def charToDigitValue (value : UInt8) : Option ℕ :=
  if 0x61 ≤ value.toNat ∧ value.toNat ≤ 0x7A then some (value.toNat - 0x61)
  else if 0x30 ≤ value.toNat ∧ value.toNat ≤ 0x39 then some (value.toNat - 0x30 + 26)
  else none

def digitToChar (digit : ℕ) : UInt8 :=
  if digit < 26 then toChar (digit + 97) else toChar (digit + 22)

/-- The `while` loop of `adapt`. -/
def adaptLoop : ℕ → ℕ → ℕ → ℕ × ℕ
  | 0, d, k => (d, k)
  | fuel + 1, d, k =>
    if (base - tmin) * tmax / 2 < d then adaptLoop fuel (d / (base - tmin)) (k + base)
    else (d, k)

def adapt (d n : ℕ) (firsttime : Bool) : ℕ :=
  let d := if firsttime then d / damp else d / 2
  let d := d + d / n
  let r := adaptLoop d d 0
  r.2 + (base - tmin + 1) * r.1 / (r.1 + skew)

/-- The threshold `t` that both directions compute from `k` and `bias`. -/
def thresholdAt (bias k : ℕ) : ℕ :=
  if k ≤ bias then tmin else if bias + tmax ≤ k then tmax else k - bias

/-! ### Decoder -/

/-- The inner loop of the decoder, which adds one generalized variable-length
integer to `i`.  Returns the new `i` and the input left. -/
def decodeDelta (bias : ℕ) : Bytes → ℕ → ℕ → ℕ → Option (ℕ × Bytes)
  | [], _, _, _ => none
  | codePoint :: input, i, w, k =>
    match charToDigitValue codePoint with
    | none => none
    | some digit =>
      if (int32Max - i) / w < digit then none
      else
        -- neither the sum nor the product below leaves `int32_t`
        let i := i + digit * w
        let t := thresholdAt bias k
        if digit < t then some (i, input)
        else if int32Max / (base - t) < w then none
        else decodeDelta bias input i (w * (base - t)) (k + base)

/-- The outer loop of the decoder. -/
def decodeLoop :
    ℕ → Bytes → U32String → ℕ → ℕ → ℕ → ℕ → Option U32String
  | _, [], out, _, _, _, _ => some out
  | 0, _ :: _, _, _, _, _, _ => none
  | fuel + 1, input@(_ :: _), out, writtenOut, n, i, bias =>
    let oldi := i
    match decodeDelta bias input i 1 base with
    | none => none
    | some (i, input) =>
      let bias := adapt (i - oldi) (writtenOut + 1) (oldi == 0)
      if int32Max - n < i / (writtenOut + 1) then none
      else
        -- a round through all gaps of the output raises `n` by one
        let n := n + i / (writtenOut + 1)
        let i := i % (writtenOut + 1)
        if n < 0x80 then none
        else decodeLoop fuel input (out.insertIdx i n) (writtenOut + 1) n (i + 1) bias

/-- `find_last_of`; `none` is `npos`. -/
def findLastOf (c : UInt8) : Bytes → Option ℕ
  | [] => none
  | x :: input =>
    match findLastOf c input with
    | some e => some (e + 1)
    | none => if x = c then some 0 else none

/-- The end of the decoder: a decoded form that begins with `xn--` is
rejected. -/
def rejectAce (out : U32String) : Option U32String :=
  if isAcePrefix out then none else some out

/-- `punycode_to_utf32`: decode `input` behind what `out` holds. -/
def punycodeToUtf32 (input : Bytes) (out : U32String) : Option U32String :=
  match findLastOf delimiter input with
  | some (e + 1) =>
    -- the delimiter is consumed only behind at least one basic code point
    let ascii := input.take (e + 1)
    let input := input.drop (e + 2)
    if isAsciiBytes ascii then
      (decodeLoop input.length input (out ++ ascii.map UInt8.toNat) (e + 1)
        initialN 0 initialBias).bind rejectAce
    else none
  | _ =>
    (decodeLoop input.length input out 0 initialN 0 initialBias).bind rejectAce

/-! ### Checker -/

/-- `for (size_t j = 3; j > insert_pos; j--) first4[j] = first4[j - 1];` -/
def shiftFirst4 (insertPos : ℕ) : ℕ → List ℕ → List ℕ
  | 0, first4 => first4
  | j + 1, first4 =>
    if insertPos < j + 1 then
      shiftFirst4 insertPos j (first4.set (j + 1) (first4.getD j 0))
    else first4

/-- The simulated insertion into the window of the first four code points. -/
def insertFirst4 (insertPos n : ℕ) (first4 : List ℕ) : List ℕ :=
  if insertPos < 4 then (shiftFirst4 insertPos 3 first4).set insertPos n else first4

/-- The loop over the basic code points: the window and the number written. -/
def asciiFirst4 : Bytes → List ℕ → ℕ → List ℕ × ℕ
  | [], first4, writtenOut => (first4, writtenOut)
  | c :: input, first4, writtenOut =>
    asciiFirst4 input (if writtenOut < 4 then first4.set writtenOut c.toNat else first4)
      (writtenOut + 1)

/-- The outer loop of the checker. -/
def verifyLoop : ℕ → Bytes → List ℕ → ℕ → ℕ → ℕ → ℕ → Bool
  | _, [], first4, writtenOut, _, _, _ => !(decide (4 ≤ writtenOut) && first4 == acePrefix)
  | 0, _ :: _, _, _, _, _, _ => false
  | fuel + 1, input@(_ :: _), first4, writtenOut, n, i, bias =>
    let oldi := i
    match decodeDelta bias input i 1 base with
    | none => false
    | some (i, input) =>
      let bias := adapt (i - oldi) (writtenOut + 1) (oldi == 0)
      if int32Max - n < i / (writtenOut + 1) then false
      else
        let n := n + i / (writtenOut + 1)
        let i := i % (writtenOut + 1)
        if n < 0x80 then false
        else verifyLoop fuel input (insertFirst4 i n first4) (writtenOut + 1) n (i + 1) bias

/-- `verify_punycode`.  Unlike the decoder it consumes a delimiter that no
basic code point precedes. -/
def verifyPunycode (input : Bytes) : Bool :=
  match findLastOf delimiter input with
  | some e =>
    let ascii := input.take e
    let input := input.drop (e + 1)
    if isAsciiBytes ascii then
      let (first4, writtenOut) := asciiFirst4 ascii [0, 0, 0, 0] 0
      verifyLoop input.length input first4 writtenOut initialN 0 initialBias
    else false
  | none => verifyLoop input.length input [0, 0, 0, 0] 0 initialN 0 initialBias

/-! ### Encoder -/

/-- The digits of one delta, from position `k` on. -/
def encodeDelta (bias : ℕ) : ℕ → ℕ → ℕ → Bytes
  | 0, _, _ => []
  | fuel + 1, q, k =>
    let t := thresholdAt bias k
    if q < t then [digitToChar q]
    else
      digitToChar (t + (q - t) % (base - t))
        :: encodeDelta bias fuel ((q - t) / (base - t)) (k + base)

/-- The variables that the passes of the encoder change. -/
structure EncoderState where
  d : ℕ
  bias : ℕ
  h : ℕ
  out : Bytes

/-- `for (auto c : input)`, the pass that emits the occurrences of `n`. -/
def encodePass (n b : ℕ) : U32String → EncoderState → Option EncoderState
  | [], s => some s
  | c :: input, s =>
    if c < n then
      if s.d = int32Max then none
      else encodePass n b input { s with d := s.d + 1 }
    -- `c == n` is a second `if` in the source; the two exclude each other
    else if c = n then
      encodePass n b input
        { d := 0
          bias := adapt s.d (s.h + 1) (s.h == b)
          h := s.h + 1
          out := s.out ++ encodeDelta s.bias (s.d + 1) s.d base }
    else encodePass n b input s

/-- The loop that looks for the next code point to insert. -/
def nextCodePoint (n : ℕ) (input : U32String) : ℕ :=
  input.foldl (fun m codePoint => if n ≤ codePoint ∧ codePoint < m then codePoint else m) 0x10FFFF

/-- `while (h < input.size())`. -/
def encodeLoop (input : U32String) (b : ℕ) : ℕ → ℕ → EncoderState → Option Bytes
  | 0, _, s => if s.h < input.length then none else some s.out
  | fuel + 1, n, s =>
    if s.h < input.length then
      let m := nextCodePoint n input
      if (int32Max - s.d) / (s.h + 1) < m - n then none
      else
        match encodePass m b input { s with d := s.d + (m - n) * (s.h + 1) } with
        | none => none
        | some s => encodeLoop input b fuel (m + 1) { s with d := s.d + 1 }
    else some s.out

/-- `utf32_to_punycode`: append the encoding of `input` to `out`. -/
def utf32ToPunycode (input : U32String) (out : Bytes) : Option Bytes :=
  -- the range test stands in the loop that copies the basic code points
  if input.all (fun c => decide (IsScalar c)) then
    let ascii := input.filter (· < 0x80)
    let b := ascii.length
    let out := out ++ ascii.map toChar
    let out := if 0 < b then out ++ [delimiter] else out
    encodeLoop input b input.length initialN { d := 0, bias := initialBias, h := b, out := out }
  else none

end AdaIdna
