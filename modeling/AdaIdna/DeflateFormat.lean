/-
AdaIdna/DeflateFormat.lean

The DEFLATE format: what a stream of blocks is, and which bits store it.

A bit string is a list of zeros and ones in the order of the stream.  Numbers
are stored lowest bit first and codes highest bit first.  This file speaks of
the format only; that `inflate_raw` decodes it is `inflateRaw_of_encodes`.
-/
import AdaIdna.Basic
import AdaIdna.Lib.CanonicalCode
import AdaIdna.Lib.Lanes
import AdaIdna.Lib.SlidingWindow

namespace AdaIdna

open Lanes CanonicalCode SlidingWindow

/-- The bits of bytes, lowest bit of each byte first. -/
def bytesToBits (p : Bytes) : List ℕ := p.flatMap fun b => unpack 1 8 b.toNat

/-- The code of a symbol as the format stores it, highest bit first. -/
def codeBits (lens : List ℕ) (s : ℕ) : List ℕ :=
  (unpack 1 (lens.getD s 0) (codeOf lens s)).reverse

namespace Deflate

/-! ### Symbols of a compressed block -/

/-- How many extra bits belong to the `c`-th length code, the one with symbol `257 + c`. -/
def lengthExtraBits (c : ℕ) : ℕ := if c = 28 then 0 else (c - 4) / 4

/-- The shortest length of a length code: lengths go on from where the codes
before end, but for the last code, which stands for the greatest length. -/
def lengthStart : ℕ → ℕ
  | 0 => 3
  | c + 1 => if c + 1 = 28 then 258 else lengthStart c + 2 ^ lengthExtraBits c

def distExtraBits (c : ℕ) : ℕ := (c - 2) / 2

def distStart : ℕ → ℕ
  | 0 => 1
  | c + 1 => distStart c + 2 ^ distExtraBits c

/-- A literal, or a length and a distance with their extra bits. -/
inductive Symbol where
  | literal (b : UInt8)
  | pair (lengthCode lengthExtra distCode distExtra : ℕ)
  deriving DecidableEq

namespace Symbol

/-- What it stands for. -/
def token : Symbol → Token UInt8
  | literal b => .literal b
  | pair lengthCode lengthExtra distCode distExtra =>
    .copy (lengthStart lengthCode + lengthExtra) (distStart distCode + distExtra)

/-- The symbols have codes, and the extra bits are enough for the extra values. -/
def Encodable (litLens distLens : List ℕ) : Symbol → Prop
  | literal b => 0 < litLens.getD b.toNat 0
  | pair lengthCode lengthExtra distCode distExtra =>
    lengthCode ≤ 28 ∧ 0 < litLens.getD (257 + lengthCode) 0 ∧
      lengthExtra < 2 ^ lengthExtraBits lengthCode ∧
      distCode ≤ 29 ∧ 0 < distLens.getD distCode 0 ∧ distExtra < 2 ^ distExtraBits distCode

instance (litLens distLens : List ℕ) : DecidablePred (Encodable litLens distLens)
  | literal b => inferInstanceAs (Decidable (0 < litLens.getD b.toNat 0))
  | pair lengthCode lengthExtra distCode distExtra =>
    inferInstanceAs (Decidable (lengthCode ≤ 28 ∧ 0 < litLens.getD (257 + lengthCode) 0 ∧
      lengthExtra < 2 ^ lengthExtraBits lengthCode ∧
      distCode ≤ 29 ∧ 0 < distLens.getD distCode 0 ∧ distExtra < 2 ^ distExtraBits distCode))

def bits (litLens distLens : List ℕ) : Symbol → List ℕ
  | literal b => codeBits litLens b.toNat
  | pair lengthCode lengthExtra distCode distExtra =>
    codeBits litLens (257 + lengthCode) ++ unpack 1 (lengthExtraBits lengthCode) lengthExtra ++
      codeBits distLens distCode ++ unpack 1 (distExtraBits distCode) distExtra

end Symbol

/-- The symbols of a block and the end-of-block symbol. -/
def symbolBits (litLens distLens : List ℕ) (symbols : List Symbol) : List ℕ :=
  symbols.flatMap (Symbol.bits litLens distLens) ++ codeBits litLens 256

/-! ### Codes -/

/-- The literal and length code of a fixed block. -/
def fixedLitLens : List ℕ :=
  (List.range 288).map fun s =>
    if s < 144 then 8 else if s < 256 then 9 else if s < 280 then 7 else 8

/-- The distance code of a fixed block. -/
def fixedDistLens : List ℕ := (List.range 32).map fun _ => 5

/-- The order in which the lengths of the code for the code lengths are stored. -/
def lengthOrder : List ℕ := [16, 17, 18, 0, 8, 7, 9, 6, 10, 5, 11, 4, 12, 3, 13, 2, 14, 1, 15]

/-- A symbol of the code for the code lengths, with its count. -/
inductive LengthRun where
  | value (v : ℕ)
  | repeatLast (n : ℕ)
  | zeros (n : ℕ)
  deriving DecidableEq

namespace LengthRun

def Valid : LengthRun → Prop
  | value v => v ≤ 15
  | repeatLast n => 3 ≤ n ∧ n ≤ 6
  | zeros n => 3 ≤ n ∧ n ≤ 138

instance : DecidablePred Valid
  | value v => inferInstanceAs (Decidable (v ≤ 15))
  | repeatLast n => inferInstanceAs (Decidable (3 ≤ n ∧ n ≤ 6))
  | zeros n => inferInstanceAs (Decidable (3 ≤ n ∧ n ≤ 138))

def symbol : LengthRun → ℕ
  | value v => v
  | repeatLast _ => 16
  | zeros n => if n ≤ 10 then 17 else 18

def extra : LengthRun → List ℕ
  | value _ => []
  | repeatLast n => unpack 1 2 (n - 3)
  | zeros n => if n ≤ 10 then unpack 1 3 (n - 3) else unpack 1 7 (n - 11)

def bits (clen : List ℕ) (r : LengthRun) : List ℕ := codeBits clen r.symbol ++ r.extra

/-- The code lengths so far and those of the run. -/
def expand (lens : List ℕ) : LengthRun → Option (List ℕ)
  | value v => some (lens ++ [v])
  | repeatLast n => lens.getLast?.map fun v => lens ++ List.replicate n v
  | zeros n => some (lens ++ List.replicate n 0)

end LengthRun

/-- The code lengths of runs; nothing keeps a run within one of the two codes. -/
def expandRuns (lens : List ℕ) (runs : List LengthRun) : Option (List ℕ) :=
  runs.foldlM LengthRun.expand lens

/-- The two codes of a dynamic block, and how they are stored: `clen` are the
lengths of the code for the code lengths, of which `sent` are stored. -/
structure DynamicCodes where
  litLens : List ℕ
  distLens : List ℕ
  clen : List ℕ
  sent : ℕ
  runs : List LengthRun
  length_litLens : 257 ≤ litLens.length ∧ litLens.length ≤ 288
  length_distLens : 1 ≤ distLens.length ∧ distLens.length ≤ 32
  lens_le : ∀ x ∈ litLens ++ distLens, x ≤ 15
  kraft_litLens : kraft 15 litLens ≤ 2 ^ 15
  kraft_distLens : kraft 15 distLens ≤ 2 ^ 15
  length_clen : clen.length = 19
  clen_le : ∀ x ∈ clen, x ≤ 7
  kraft_clen : kraft 15 clen ≤ 2 ^ 15
  sent_ge : 4 ≤ sent
  sent_le : sent ≤ 19
  clen_eq_zero : ∀ s ∈ lengthOrder.drop sent, clen.getD s 0 = 0
  runs_valid : ∀ r ∈ runs, r.Valid ∧ 0 < clen.getD r.symbol 0
  expandRuns_runs : expandRuns [] runs = some (litLens ++ distLens)

def DynamicCodes.bits (c : DynamicCodes) : List ℕ :=
  unpack 1 5 (c.litLens.length - 257) ++ unpack 1 5 (c.distLens.length - 1) ++
    unpack 1 4 (c.sent - 4) ++
    (lengthOrder.take c.sent).flatMap (fun s => unpack 1 3 (c.clen.getD s 0)) ++
    c.runs.flatMap (LengthRun.bits c.clen)

/-! ### Blocks -/

inductive Block where
  /-- `pad` are the bits up to the next byte -/
  | stored (pad : List ℕ) (data : Bytes)
  | fixed (symbols : List Symbol)
  | dynamic (codes : DynamicCodes) (symbols : List Symbol)

namespace Block

/-- The symbols of a compressed block are encodable with its codes. -/
def EncodableSymbols (litLens distLens : List ℕ) (symbols : List Symbol) : Prop :=
  (∀ s ∈ symbols, s.Encodable litLens distLens) ∧ 0 < litLens.getD 256 0

instance (litLens distLens : List ℕ) : DecidablePred (EncodableSymbols litLens distLens) :=
  fun symbols => inferInstanceAs (Decidable
    ((∀ s ∈ symbols, s.Encodable litLens distLens) ∧ 0 < litLens.getD 256 0))

/-- A block that can stand at the position `pos` of the stream. -/
def ValidAt (pos : ℕ) : Block → Prop
  | stored pad data => pad.length < 8 ∧ (pos + 3 + pad.length) % 8 = 0 ∧ data.length < 2 ^ 16
  | fixed symbols => EncodableSymbols fixedLitLens fixedDistLens symbols
  | dynamic codes symbols => EncodableSymbols codes.litLens codes.distLens symbols

def btype : Block → ℕ
  | stored _ _ => 0
  | fixed _ => 1
  | dynamic _ _ => 2

/-- What is stored behind the header of the block. -/
def body : Block → List ℕ
  | stored pad data =>
    pad ++ unpack 1 16 data.length ++ unpack 1 16 (2 ^ 16 - 1 - data.length) ++ bytesToBits data
  | fixed symbols => symbolBits fixedLitLens fixedDistLens symbols
  | dynamic codes symbols => codes.bits ++ symbolBits codes.litLens codes.distLens symbols

/-- The bits of a block; `bfinal` is 1 for the last one. -/
def bits (bfinal : ℕ) (b : Block) : List ℕ := unpack 1 1 bfinal ++ unpack 1 2 b.btype ++ b.body

/-- The text so far and that of the block. -/
def expand (w : Bytes) : Block → Option Bytes
  | stored _ data => some (w ++ data)
  | fixed symbols => SlidingWindow.expand w (symbols.map Symbol.token)
  | dynamic _ symbols => SlidingWindow.expand w (symbols.map Symbol.token)

end Block

/-- The text of a list of blocks; references may reach back into earlier blocks. -/
def expandBlocks (w : Bytes) (blocks : List Block) : Option Bytes := blocks.foldlM Block.expand w

/-- The bits store the blocks, the first of which stands at the position `pos`. -/
inductive Encodes : ℕ → List Block → List ℕ → Prop
  | last {pos : ℕ} {b : Block} (hb : b.ValidAt pos) : Encodes pos [b] (b.bits 1)
  | cons {pos : ℕ} {b : Block} {blocks : List Block} {u : List ℕ} (hb : b.ValidAt pos)
      (hblocks : Encodes (pos + (b.bits 0).length) blocks u) :
      Encodes pos (b :: blocks) (b.bits 0 ++ u)

/-! ### Facts -/

@[simp] theorem expandBlocks_nil (w : Bytes) : expandBlocks w [] = some w := rfl

@[simp] theorem expandBlocks_cons (w : Bytes) (b : Block) (blocks : List Block) :
    expandBlocks w (b :: blocks) = (b.expand w).bind fun w => expandBlocks w blocks := rfl

@[simp] theorem expandRuns_nil (lens : List ℕ) : expandRuns lens [] = some lens := rfl

@[simp] theorem expandRuns_cons (lens : List ℕ) (r : LengthRun) (runs : List LengthRun) :
    expandRuns lens (r :: runs) = (r.expand lens).bind fun lens => expandRuns lens runs := rfl

theorem Block.length_expand {b : Block} {w w' : Bytes} (h : b.expand w = some w') :
    w.length ≤ w'.length := by
  cases b with
  | stored pad data =>
    cases h
    exact (List.prefix_append w data).length_le
  | fixed symbols => exact SlidingWindow.length_expand h
  | dynamic codes symbols => exact SlidingWindow.length_expand h

theorem length_expandBlocks {blocks : List Block} {w w' : Bytes}
    (h : expandBlocks w blocks = some w') : w.length ≤ w'.length := by
  induction blocks generalizing w with
  | nil =>
    cases h
    exact le_rfl
  | cons b blocks ih =>
    rw [expandBlocks_cons, Option.bind_eq_some_iff] at h
    obtain ⟨v, hv, h⟩ := h
    exact (Block.length_expand hv).trans (ih h)

end Deflate

end AdaIdna
