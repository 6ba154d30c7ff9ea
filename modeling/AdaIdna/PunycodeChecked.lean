/-
AdaIdna/PunycodeChecked.lean

The functions of punycode.cpp with the types of their variables.

Every value that the source computes is stored in its type, `int32_t`,
`uint32_t` or `size_t`, and is a fault if the type does not have it: signed
overflow and casts that cut something off, and also where C++ would wrap.  So
are a division by zero, an insertion behind the end of the output and an access
outside `first4`.  `return false` is `reject`, and a loop that is not done when
its fuel is used up ends with `timeout`.

PunycodeSafety.lean shows that none of this happens, and that the functions
compute what those of Punycode.lean compute, which use natural numbers.
-/
import AdaIdna.Punycode
import AdaIdna.Lib.CheckedInt

namespace AdaIdna

namespace CheckedPunycode

open Checked

/-- `char(x)`, for a value that a `char` has on every platform. -/
def charOf (x : ℤ) : Checked UInt8 := if 0 ≤ x ∧ x < 0x80 then ok (toChar x.toNat) else fault

def digitToChar (digit : ℤ) : Checked UInt8 := do
  let x ← int32 (if digit < 26 then digit + 97 else digit + 22)
  charOf x

/-! ### Bias and threshold -/

/-- The `while` loop of `adapt`. -/
def adaptLoop : ℕ → ℤ → ℤ → Checked (ℤ × ℤ)
  | 0, _, _ => timeout
  | fuel + 1, d, k =>
    if (((base - tmin) * tmax / 2 : ℕ) : ℤ) < d then do
      let k ← int32 (k + base)
      let d ← quotient d (base - tmin : ℕ)
      adaptLoop fuel d k
    else ok (d, k)

def adapt (d n : ℤ) (firsttime : Bool) : Checked ℤ := do
  let d ← quotient d (if firsttime then damp else 2)
  let share ← quotient d n
  let d ← int32 (d + share)
  let (d, k) ← adaptLoop (d.toNat + 1) d 0
  let scaled ← int32 ((base - tmin + 1 : ℕ) * d)
  let skewed ← int32 (d + skew)
  let step ← quotient scaled skewed
  int32 (k + step)

/-- `k <= bias ? tmin : k >= bias + tmax ? tmax : k - bias` -/
def thresholdAt (bias k : ℤ) : Checked ℤ :=
  if k ≤ bias then ok tmin
  else do
    let top ← int32 (bias + tmax)
    if top ≤ k then ok (tmax : ℤ) else int32 (k - bias)

/-! ### Decoder and checker -/

/-- The inner loop of the decoder and the checker. -/
def decodeDelta (bias : ℤ) : Bytes → ℤ → ℤ → ℤ → Checked (ℤ × Bytes)
  | [], _, _, _ => reject
  | codePoint :: input, i, w, k =>
    match charToDigitValue codePoint with
    | none => reject
    | some digit => do
      let room ← int32 (0x7fffffff - i)
      let most ← quotient room w
      if most < digit then reject
      else do
        let product ← int32 (digit * w)
        let i ← int32 (i + product)
        let t ← thresholdAt bias k
        if digit < t then ok (i, input)
        else do
          let span ← int32 (base - t)
          let most ← quotient 0x7fffffff span
          if most < w then reject
          else do
            let w ← int32 (w * span)
            let k ← int32 (k + base)
            decodeDelta bias input i w k

/-- `out.insert(out.begin() + i, n)` -/
def insertAt (out : U32String) (i n : ℤ) : Checked U32String :=
  if 0 ≤ i ∧ i ≤ out.length then ok (out.insertIdx i.toNat n.toNat) else fault

/-- The outer loop of the decoder. -/
def decodeLoop : ℕ → Bytes → U32String → ℤ → ℤ → ℤ → ℤ → Checked U32String
  | _, [], out, _, _, _, _ => ok out
  | 0, _ :: _, _, _, _, _, _ => timeout
  | fuel + 1, input@(_ :: _), out, writtenOut, n, i, bias => do
    let oldi := i
    let (i, input) ← decodeDelta bias input i 1 base
    let delta ← int32 (i - oldi)
    let count ← int32 (writtenOut + 1)
    let bias ← adapt delta count (oldi == 0)
    let turns ← quotient i count
    let room ← uint32 (0x7fffffff - n)
    let room ← int32 room
    if room < turns then reject
    else do
      let n ← uint32 (n + turns)
      let i ← remainder i count
      if n < 0x80 then reject
      else do
        let out ← insertAt out i n
        let writtenOut ← int32 (writtenOut + 1)
        let i ← int32 (i + 1)
        decodeLoop fuel input out writtenOut n i bias

/-- The loop of the decoder over the basic code points. -/
def copyBasic : Bytes → U32String → ℤ → Checked (U32String × ℤ)
  | [], out, writtenOut => ok (out, writtenOut)
  | c :: input, out, writtenOut =>
    if 0x80 ≤ c.toNat then reject
    else do
      let writtenOut ← int32 (writtenOut + 1)
      copyBasic input (out ++ [c.toNat]) writtenOut

def punycodeToUtf32 (input : Bytes) (out : U32String) : Checked U32String := do
  let out ←
    match findLastOf delimiter input with
    | some (e + 1) => do
      let (out, writtenOut) ← copyBasic (input.take (e + 1)) out 0
      let input := input.drop (e + 2)
      decodeLoop input.length input out writtenOut initialN 0 initialBias
    | _ => decodeLoop input.length input out 0 initialN 0 initialBias
  ofOption (rejectAce out)

/-- The loop that shifts `first4`. -/
def shiftFirst4 (insertPos : ℤ) : ℕ → List ℕ → Checked (List ℕ)
  | 0, first4 => ok first4
  | j + 1, first4 =>
    if insertPos < (j + 1 : ℕ) then do
      let v ← read first4 j
      let first4 ← write first4 (j + 1) v
      shiftFirst4 insertPos j first4
    else ok first4

/-- The simulated insertion, into an output of `writtenOut` code points. -/
def insertFirst4 (insertPos n writtenOut : ℤ) (first4 : List ℕ) : Checked (List ℕ) :=
  if writtenOut < insertPos then fault
  else if insertPos < 4 then do
    let first4 ← shiftFirst4 insertPos 3 first4
    write first4 insertPos.toNat n.toNat
  else ok first4

/-- `if (written_out < 4) first4[written_out] = c;` -/
def keepFirst4 (writtenOut : ℤ) (c : UInt8) (first4 : List ℕ) : Checked (List ℕ) :=
  if writtenOut < 4 then write first4 writtenOut.toNat c.toNat else ok first4

/-- The loop of the checker over the basic code points. -/
def asciiFirst4 : Bytes → List ℕ → ℤ → Checked (List ℕ × ℤ)
  | [], first4, writtenOut => ok (first4, writtenOut)
  | c :: input, first4, writtenOut =>
    if 0x80 ≤ c.toNat then reject
    else do
      let first4 ← keepFirst4 writtenOut c first4
      let writtenOut ← sizeT (writtenOut + 1)
      asciiFirst4 input first4 writtenOut

/-- The outer loop of the checker. -/
def verifyLoop : ℕ → Bytes → List ℕ → ℤ → ℤ → ℤ → ℤ → Checked Bool
  | _, [], first4, writtenOut, _, _, _ =>
    ok (!(decide (4 ≤ writtenOut) && first4 == acePrefix))
  | 0, _ :: _, _, _, _, _, _ => timeout
  | fuel + 1, input@(_ :: _), first4, writtenOut, n, i, bias => do
    let oldi := i
    let (i, input) ← decodeDelta bias input i 1 base
    let delta ← int32 (i - oldi)
    let count ← sizeT (writtenOut + 1)
    let count32 ← int32 count
    let bias ← adapt delta count32 (oldi == 0)
    -- `i` is compared as a `size_t`
    let wide ← sizeT i
    let turns ← quotient wide count
    let room ← uint32 (0x7fffffff - n)
    if room < turns then reject
    else do
      let turns ← quotient i count32
      let n ← uint32 (n + turns)
      let i ← remainder i count32
      if n < 0x80 then reject
      else do
        let insertPos ← sizeT i
        let first4 ← insertFirst4 insertPos n writtenOut first4
        let writtenOut ← sizeT (writtenOut + 1)
        let i ← int32 (i + 1)
        verifyLoop fuel input first4 writtenOut n i bias

def verifyPunycode (input : Bytes) : Checked Bool :=
  match findLastOf delimiter input with
  | some e => do
    let (first4, writtenOut) ← asciiFirst4 (input.take e) [0, 0, 0, 0] 0
    let input := input.drop (e + 1)
    verifyLoop input.length input first4 writtenOut initialN 0 initialBias
  | none => verifyLoop input.length input [0, 0, 0, 0] 0 initialN 0 initialBias

/-! ### Encoder -/

/-- The loop that writes the digits of `q` behind `out`. -/
def encodeDelta (bias : ℤ) : ℕ → ℤ → ℤ → Bytes → Checked Bytes
  | 0, _, _, _ => timeout
  | fuel + 1, q, k, out => do
    let t ← thresholdAt bias k
    if q < t then do
      let c ← digitToChar q
      ok (out ++ [c])
    else do
      let rest ← int32 (q - t)
      let span ← int32 (base - t)
      let low ← remainder rest span
      let digit ← int32 (t + low)
      let c ← digitToChar digit
      let q ← quotient rest span
      let k ← int32 (k + base)
      encodeDelta bias fuel q k (out ++ [c])

/-- The variables that the passes of the encoder change. -/
structure EncoderState where
  d : ℤ
  bias : ℤ
  h : ℤ
  out : Bytes

/-- `if (c < n)`: one more code point is passed. -/
def countBelow (n : ℤ) (c : ℕ) (s : EncoderState) : Checked EncoderState :=
  if c < n then
    if s.d = 0x7fffffff then reject
    else do
      let d ← int32 (s.d + 1)
      ok { s with d := d }
  else ok s

/-- `if (c == n)`: the delta is written. -/
def emitAt (n b : ℤ) (c : ℕ) (s : EncoderState) : Checked EncoderState :=
  if c = n then do
    let out ← encodeDelta s.bias (s.d.toNat + 1) s.d base s.out
    let count ← sizeT (s.h + 1)
    let count ← int32 count
    let bias ← adapt s.d count (s.h == b)
    let h ← sizeT (s.h + 1)
    ok { d := 0, bias := bias, h := h, out := out }
  else ok s

/-- The pass over the input. -/
def encodePass (n b : ℤ) : U32String → EncoderState → Checked EncoderState
  | [], s => ok s
  | c :: input, s => do
    let s ← countBelow n c s
    let s ← emitAt n b c s
    encodePass n b input s

/-- The loop that looks for the next code point to insert. -/
def nextCodePoint (n : ℤ) (input : U32String) : ℤ :=
  input.foldl
    (fun (m : ℤ) (codePoint : ℕ) => if n ≤ codePoint ∧ codePoint < m then codePoint else m)
    0x10FFFF

/-- The body of the outer loop for the code point `m`, up to the end of its pass. -/
def encodeRound (input : U32String) (b n m : ℤ) (s : EncoderState) : Checked EncoderState := do
  let turns ← uint32 (m - n)
  let room ← int32 (0x7fffffff - s.d)
  let room ← sizeT room
  let count ← sizeT (s.h + 1)
  let most ← quotient room count
  if most < turns then reject
  else do
    let product ← sizeT (turns * count)
    let product ← int32 product
    let d ← int32 (s.d + product)
    encodePass m b input { s with d := d }

/-- `while (h < input.size())`. -/
def encodeLoop (input : U32String) (b : ℤ) : ℕ → ℤ → EncoderState → Checked Bytes
  | 0, _, s => if s.h < input.length then timeout else ok s.out
  | fuel + 1, n, s =>
    if s.h < input.length then do
      let m := nextCodePoint n input
      let s ← encodeRound input b n m s
      let d ← int32 (s.d + 1)
      let n ← uint32 (m + 1)
      encodeLoop input b fuel n { s with d := d }
    else ok s.out

/-- `if (c < 0x80)`: a basic code point is copied. -/
def pushOne (c : ℕ) (h : ℤ) (out : Bytes) : Checked (ℤ × Bytes) :=
  if c < 0x80 then do
    let h ← sizeT (h + 1)
    ok (h, out ++ [toChar c])
  else ok (h, out)

/-- The loop over the input that copies the basic code points and tests the
range of all. -/
def pushBasic : U32String → ℤ → Bytes → Checked (ℤ × Bytes)
  | [], h, out => ok (h, out)
  | c :: input, h, out => do
    let (h, out) ← pushOne c h out
    if 0x10ffff < c ∨ 0xd800 ≤ c ∧ c < 0xe000 then reject else pushBasic input h out

def utf32ToPunycode (input : U32String) (out : Bytes) : Checked Bytes := do
  let (b, out) ← pushBasic input 0 out
  let out := if 0 < b then out ++ [delimiter] else out
  encodeLoop input b input.length initialN { d := 0, bias := initialBias, h := b, out := out }

end CheckedPunycode

end AdaIdna
