/-
AdaIdna/Inflate.lean

The functions of raw_inflate.hpp.

Every access to an array goes through a check: a computation that would leave
the array ends with `fault`.  A failed read of the bit reader and every other
`return 0` (or `-1`, which each caller turns into 0) is `reject`.  The loops
run on fuel; `timeout` would mean that it was too little.

The accumulator of the bit reader has fewer than 32 bits in use at any time,
so it is a natural number here.  What `inflate_raw` has written to `dst` is the
list of the first `out` bytes.
-/
import AdaIdna.Basic
import AdaIdna.Lib.Checked

namespace AdaIdna

open Checked

/-! ### BitReader -/

/-- The bytes still to be read, and the bits taken from those before. -/
structure BitReader where
  p : Bytes
  acc : ℕ
  bits : ℕ
  deriving DecidableEq

namespace BitReader

/-- The loop of `ensure`. -/
def ensureLoop (n : ℕ) : Bytes → ℕ → ℕ → Checked BitReader
  | [], acc, bits => if bits < n then reject else ok ⟨[], acc, bits⟩
  | b :: p, acc, bits =>
    if bits < n then ensureLoop n p (acc ||| b.toNat <<< bits) (bits + 8)
    else ok ⟨b :: p, acc, bits⟩

def ensure (br : BitReader) (n : ℕ) : Checked BitReader := ensureLoop n br.p br.acc br.bits

def get (br : BitReader) (n : ℕ) : Checked (ℕ × BitReader) := do
  let br ← br.ensure n
  let v := br.acc &&& (1 <<< n - 1)
  ok (v, { br with acc := br.acc >>> n, bits := br.bits - n })

def alignByte (br : BitReader) : BitReader :=
  { br with acc := br.acc >>> (br.bits &&& 7), bits := br.bits - (br.bits &&& 7) }

end BitReader

/-! ### Huff -/

/-- `MAXBITS` -/
def maxCodeBits : ℕ := 15

structure Huff where
  lengths : List ℕ
  counts : List ℕ
  firstCode : List ℕ
  symbols : List ℕ
  maxBits : ℕ
  baseIdx : List ℕ
  deriving DecidableEq

namespace Huff

/-- One round of the loop that copies the lengths and counts them; the state is
`lengths`, `counts` and `max_bits`. -/
def countStep (lens : List ℕ) : List ℕ × List ℕ × ℕ → ℕ → Checked (List ℕ × List ℕ × ℕ)
  | (lengths, counts, maxBits), i => do
    let len ← read lens i
    let lengths ← write lengths i len
    if len = 0 then ok (lengths, counts, maxBits)
    else
      let count ← read counts len
      let counts ← write counts len (count + 1)
      ok (lengths, counts, if maxBits < len then len else maxBits)

def countLengths (lens : List ℕ) (n : ℕ) : Checked (List ℕ × List ℕ × ℕ) :=
  (List.range n).foldlM (countStep lens)
    (List.replicate 288 0, List.replicate (maxCodeBits + 1) 0, 0)

/-- One round of the loop over the first codes, for the codes of length
`i + 1`; the state is `first_code` and `code`. -/
def firstCodeStep (counts : List ℕ) : List ℕ × ℕ → ℕ → Checked (List ℕ × ℕ)
  | (firstCode, code), i => do
    let count ← read counts i
    let code := (code + count) <<< 1
    let firstCode ← write firstCode (i + 1) code
    ok (firstCode, code)

def firstCodes (counts : List ℕ) : Checked (List ℕ × ℕ) :=
  (List.range maxCodeBits).foldlM (firstCodeStep counts)
    (List.replicate (maxCodeBits + 1) 0, 0)

/-- One round of the loop over the symbols; the state is `symbols` and `idx`. -/
def symbolStep (lengths : List ℕ) (bits : ℕ) : List ℕ × ℕ → ℕ → Checked (List ℕ × ℕ)
  | (symbols, idx), sym => do
    let len ← read lengths sym
    if len = bits then
      let symbols ← write symbols idx sym
      ok (symbols, idx + 1)
    else ok (symbols, idx)

/-- One round of the loop over the lengths up to `max_bits`, for the length
`i + 1`; the state is `base_idx`, `symbols` and `idx`. -/
def lengthStep (lengths : List ℕ) (n : ℕ) :
    List ℕ × List ℕ × ℕ → ℕ → Checked (List ℕ × List ℕ × ℕ)
  | (baseIdx, symbols, idx), i => do
    let baseIdx ← write baseIdx (i + 1) idx
    let (symbols, idx) ← (List.range n).foldlM (symbolStep lengths (i + 1)) (symbols, idx)
    ok (baseIdx, symbols, idx)

def assignSymbols (lengths : List ℕ) (n maxBits : ℕ) : Checked (List ℕ × List ℕ × ℕ) :=
  (List.range maxBits).foldlM (lengthStep lengths n)
    (List.replicate (maxCodeBits + 1) 0, List.replicate 288 0, 0)

/-- `build`; `lens` is what the pointer points to. -/
def build (lens : List ℕ) (n : ℕ) : Checked Huff := do
  let (lengths, counts, maxBits) ← countLengths lens n
  let (firstCode, _) ← firstCodes counts
  let (baseIdx, symbols, _) ← assignSymbols lengths n maxBits
  ok { lengths, counts, firstCode, symbols, maxBits, baseIdx }

/-- The loop of `decode`, with `rounds` lengths from `len` on still to try. -/
def decodeLoop (h : Huff) : ℕ → ℕ → ℕ → BitReader → Checked (ℕ × BitReader)
  | 0, _, _, _ => reject
  | rounds + 1, len, code, br => do
    let (b, br) ← br.get 1
    let code := code <<< 1 ||| b
    let first ← read h.firstCode len
    let cnt ← read h.counts len
    if cnt ≠ 0 ∧ (code : ℤ) - first < cnt then
      let base ← read h.baseIdx len
      let sym ← readInt h.symbols (base + ((code : ℤ) - first))
      ok (sym, br)
    else decodeLoop h rounds (len + 1) code br

def decode (h : Huff) (br : BitReader) : Checked (ℕ × BitReader) :=
  if h.maxBits = 0 then reject else decodeLoop h h.maxBits 1 0 br

end Huff

/-- The lengths in `make_fixed_litlen_huff`. -/
def fixedLitLenLengths : List ℕ :=
  List.replicate 144 8 ++ List.replicate 112 9 ++ List.replicate 24 7 ++ List.replicate 8 8

/-- The lengths in `make_fixed_dist_huff`. -/
def fixedDistLengths : List ℕ := List.replicate 32 5

/-! ### Length and distance tables -/

def lenBase : List ℕ :=
  [3, 4, 5, 6, 7, 8, 9, 10, 11, 13, 15, 17, 19, 23, 27, 31, 35, 43, 51, 59, 67, 83, 99, 115, 131,
    163, 195, 227, 258]

def lenExtra : List ℕ :=
  [0, 0, 0, 0, 0, 0, 0, 0, 1, 1, 1, 1, 2, 2, 2, 2, 3, 3, 3, 3, 4, 4, 4, 4, 5, 5, 5, 5, 0]

def distBase : List ℕ :=
  [1, 2, 3, 4, 5, 7, 9, 13, 17, 25, 33, 49, 65, 97, 129, 193, 257, 385, 513, 769, 1025, 1537, 2049,
    3073, 4097, 6145, 8193, 12289, 16385, 24577]

def distExtra : List ℕ :=
  [0, 0, 0, 0, 1, 1, 2, 2, 3, 3, 4, 4, 5, 5, 6, 6, 7, 7, 8, 8, 9, 9, 10, 10, 11, 11, 12, 12, 13,
    13]

/-! ### Output -/

/-- `dst[out++] = b` -/
def putByte (dstCap : ℕ) (out : Bytes) (b : UInt8) : Checked Bytes :=
  if out.length < dstCap then ok (out ++ [b]) else fault

/-- The loop that copies from `distance` bytes back. -/
def copyBack (dstCap distance : ℕ) : ℕ → Bytes → Checked Bytes
  | 0, out => ok out
  | length + 1, out => do
    let b ← readInt out ((out.length : ℤ) - distance)
    let out ← putByte dstCap out b
    copyBack dstCap distance length out

/-- `std::memcpy(dst + out, br.p, len)` -/
def copyStored (dstCap : ℕ) (p : Bytes) (len : ℕ) (out : Bytes) : Checked Bytes :=
  if len ≤ p.length ∧ out.length + len ≤ dstCap then ok (out ++ p.take len) else fault

/-! ### Blocks -/

def inflateStored (dstCap : ℕ) (br : BitReader) (out : Bytes) : Checked (BitReader × Bytes) := do
  let br ← br.alignByte.ensure 16
  let (len, br) ← br.get 16
  let (nlen, br) ← br.get 16
  if len ^^^ 0xFFFF ≠ nlen then reject
  else if br.p.length < len then reject
  else if dstCap < out.length + len then reject
  else
    let out ← copyStored dstCap br.p len out
    ok ({ br with p := br.p.drop len }, out)

/-- `order` -/
def codeLengthOrder : List ℕ := [16, 17, 18, 0, 8, 7, 9, 6, 10, 5, 11, 4, 12, 3, 13, 2, 14, 1, 15]

/-- What the code lengths are read with. -/
structure DynamicHeader where
  hlit : ℕ
  hdist : ℕ
  cl : Huff
  br : BitReader

/-- One round of the loop over `order`; the state is `clen` and the reader. -/
def clenStep : List ℕ × BitReader → ℕ → Checked (List ℕ × BitReader)
  | (clen, br), i => do
    let (v, br) ← br.get 3
    let index ← read codeLengthOrder i
    let clen ← write clen index v
    ok (clen, br)

/-- The beginning of a dynamic block, up to the code for the code lengths. -/
def readDynamicHeader (br : BitReader) : Checked DynamicHeader := do
  let (hlit, br) ← br.get 5
  let (hdist, br) ← br.get 5
  let (hclen, br) ← br.get 4
  let (clen, br) ← (List.range (hclen + 4)).foldlM clenStep (List.replicate 19 0, br)
  let cl ← Huff.build clen 19
  ok { hlit := hlit + 257, hdist := hdist + 1, cl, br }

/-- A symbol of the code for the code lengths, with its count. -/
inductive LengthOp where
  | value (v : ℕ)
  /-- 16: repeat the previous length -/
  | copy (rep : ℕ)
  /-- 17 and 18 -/
  | zeros (rep : ℕ)
  deriving DecidableEq

/-- How many code lengths it stands for. -/
def LengthOp.count : LengthOp → ℕ
  | value _ => 1
  | copy rep => rep
  | zeros rep => rep

def readLengthOp (cl : Huff) (br : BitReader) : Checked (LengthOp × BitReader) := do
  let (sym, br) ← cl.decode br
  if sym < 16 then ok (.value sym, br)
  else if sym = 16 then
    let (rep, br) ← br.get 2
    ok (.copy (rep + 3), br)
  else if sym = 17 then
    let (rep, br) ← br.get 3
    ok (.zeros (rep + 3), br)
  else if sym = 18 then
    let (rep, br) ← br.get 7
    ok (.zeros (rep + 11), br)
  else reject

/-- `while (rep--) lens[i++] = v` -/
def fillLens (v : ℕ) : ℕ → List ℕ → ℕ → Checked (List ℕ × ℕ)
  | 0, lens, i => ok (lens, i)
  | rep + 1, lens, i => do
    let lens ← write lens i v
    fillLens v rep lens (i + 1)

def applyLengthOp (lens : List ℕ) (i : ℕ) : LengthOp → Checked (List ℕ × ℕ)
  | .value v => do
    let lens ← write lens i v
    ok (lens, i + 1)
  | .copy rep =>
    if i = 0 then reject
    else do
      let v ← read lens (i - 1)
      fillLens v rep lens i
  | .zeros rep => fillLens 0 rep lens i

/-- `for (uint32_t i = 0; i < n;)` -/
def codeLengthsLoop (cl : Huff) (n : ℕ) :
    ℕ → List ℕ → ℕ → BitReader → Checked (List ℕ × BitReader)
  | fuel, lens, i, br =>
    if i < n then
      match fuel with
      | 0 => timeout
      | fuel + 1 => do
        let (op, br) ← readLengthOp cl br
        let (lens, i) ← applyLengthOp lens i op
        codeLengthsLoop cl n fuel lens i br
    else ok (lens, br)

/-- The two codes of a dynamic block. -/
def readDynamicCodes (br : BitReader) : Checked (Huff × Huff × BitReader) := do
  let h ← readDynamicHeader br
  let n := h.hlit + h.hdist
  let (lens, br) ← codeLengthsLoop h.cl n n (List.replicate (288 + 32) 0) 0 h.br
  let lit ← Huff.build lens h.hlit
  let dist ← Huff.build (lens.drop h.hlit) h.hdist
  ok (lit, dist, br)

/-- The length and the distance behind a length symbol. -/
def readPair (dist : Huff) (sym : ℕ) (br : BitReader) : Checked (ℕ × ℕ × BitReader) := do
  let lenCode := sym - 257
  if 28 < lenCode then reject
  else
    let lextra ← read lenExtra lenCode
    let (extra, br) ← br.get lextra
    let lbase ← read lenBase lenCode
    let length := lbase + if lextra ≠ 0 then extra else 0
    let (dsym, br) ← dist.decode br
    if 29 < dsym then reject
    else
      let dextra ← read distExtra dsym
      let (extra, br) ← br.get dextra
      let dbase ← read distBase dsym
      let distance := dbase + if dextra ≠ 0 then extra else 0
      ok (length, distance, br)

/-- The loop over the symbols of a block. -/
def symbolsLoop (dstCap : ℕ) (lit dist : Huff) :
    ℕ → BitReader → Bytes → Checked (BitReader × Bytes)
  | 0, _, _ => timeout
  | fuel + 1, br, out => do
    let (sym, br) ← lit.decode br
    if sym < 256 then
      if dstCap ≤ out.length then reject
      else
        let out ← putByte dstCap out (toChar sym)
        symbolsLoop dstCap lit dist fuel br out
    else if sym = 256 then ok (br, out)
    else
      let (length, distance, br) ← readPair dist sym br
      if out.length < distance ∨ dstCap < out.length + length then reject
      else
        let out ← copyBack dstCap distance length out
        symbolsLoop dstCap lit dist fuel br out

/-- The bits that a reader still has. -/
def BitReader.size (br : BitReader) : ℕ := 8 * br.p.length + br.bits

/-- The codes of a compressed block, `btype` 1 or 2. -/
def readCodes (btype : ℕ) (br : BitReader) : Checked (Huff × Huff × BitReader) :=
  if btype = 1 then do
    let lit ← Huff.build fixedLitLenLengths 288
    let dist ← Huff.build fixedDistLengths 32
    ok (lit, dist, br)
  else readDynamicCodes br

def inflateCompressed (dstCap btype : ℕ) (br : BitReader) (out : Bytes) :
    Checked (BitReader × Bytes) := do
  let (lit, dist, br) ← readCodes btype br
  symbolsLoop dstCap lit dist (br.size + 1) br out

def readBlockHeader (br : BitReader) : Checked (ℕ × ℕ × BitReader) := do
  let (bfinal, br) ← br.get 1
  let (btype, br) ← br.get 2
  ok (bfinal, btype, br)

/-- What stands behind the header of a block. -/
def inflateBody (dstCap btype : ℕ) (br : BitReader) (out : Bytes) : Checked (BitReader × Bytes) :=
  if btype = 0 then inflateStored dstCap br out
  else if btype = 1 ∨ btype = 2 then inflateCompressed dstCap btype br out
  else reject

/-- One round of the outer loop, and whether the block was the last one. -/
def inflateBlock (dstCap : ℕ) (br : BitReader) (out : Bytes) :
    Checked (Bool × BitReader × Bytes) := do
  let (bfinal, btype, br) ← readBlockHeader br
  let (br, out) ← inflateBody dstCap btype br out
  ok (bfinal != 0, br, out)

def inflateLoop (dstCap : ℕ) : ℕ → BitReader → Bytes → Checked Bytes
  | 0, _, _ => timeout
  | fuel + 1, br, out => do
    let (last, br, out) ← inflateBlock dstCap br out
    if last then ok out else inflateLoop dstCap fuel br out

/-- `inflate_raw`: the bytes written to `dst`; the function returns their
number, and 0 for `reject`. -/
def inflateRaw (src : Bytes) (dstCap : ℕ) : Checked Bytes :=
  inflateLoop dstCap (8 * src.length + 1) ⟨src, 0, 0⟩ []

end AdaIdna
