/-
AdaIdna/StoredZlib.lean

What is asked of `zlib`, and that something meets it.

`zlib.compressobj(9, zlib.DEFLATED, -15)` makes a DEFLATE stream of the data,
and `zlib.decompress(_, -15)` reads it (`Zlib.Correct`).  It is enough to know
this much: `inflate_raw` then restores what was compressed
(`Zlib.Correct.inflateRaw`).

A compressor that puts the data into stored blocks, and `inflate_raw` as its
inverse, are correct in this sense (`storedZlib_correct`).
-/
import AdaIdna.BlobRoundTrip

namespace AdaIdna

namespace PackTables

open Lanes Deflate

/-- Compressed data is a DEFLATE stream of the data, and is decompressed. -/
structure Zlib.Correct (z : Zlib) : Prop where
  decompress_compress : ∀ data, z.decompress (z.compress data) = some data
  deflates : ∀ data, ∃ blocks u rest, Encodes 0 blocks u ∧
    bytesToBits (z.compress data) = u ++ rest ∧ expandBlocks [] blocks = some data

theorem inflateRaw_of_stream {src data : Bytes} {blocks : List Block} {u rest : List ℕ} {n : ℕ}
    (h : Encodes 0 blocks u) (hsrc : bytesToBits src = u ++ rest)
    (hdata : expandBlocks [] blocks = some data) (hn : data.length ≤ n) :
    AdaIdna.inflateRaw src n = .ok data := by
  refine inflateLoop_of_encodes h ?_ hdata hn (BitReader.wf_start _) hsrc ?_
  · rw [BitReader.toBits_start, length_bytesToBits, Nat.zero_add, Nat.mul_mod_right]
  · exact Nat.lt_succ_self _

theorem Zlib.Correct.inflateRaw {z : Zlib} (hz : z.Correct) (data : Bytes) :
    AdaIdna.inflateRaw (z.compress data) data.length = .ok data := by
  obtain ⟨blocks, u, rest, hblocks, hsrc, hdata⟩ := hz.deflates data
  exact inflateRaw_of_stream hblocks hsrc hdata le_rfl

/-! ### Stored blocks -/

/-- A block that begins with a byte of its own; `bfinal` is 1 for the last one. -/
def storedBlock (bfinal : ℕ) (data : Bytes) : Bytes :=
  toChar bfinal :: ((unpack 8 2 data.length).map toChar ++
    ((unpack 8 2 (2 ^ 16 - 1 - data.length)).map toChar ++ data))

/-- The data in blocks of at most `2 ^ 16 - 1` bytes. -/
def storedBlocks (data : Bytes) : Bytes :=
  if data.length < 2 ^ 16 then storedBlock 1 data
  else storedBlock 0 (data.take (2 ^ 16 - 1)) ++ storedBlocks (data.drop (2 ^ 16 - 1))
termination_by data.length
decreasing_by
  rw [List.length_drop]
  omega

theorem bytesToBits_append (p q : Bytes) :
    bytesToBits (p ++ q) = bytesToBits p ++ bytesToBits q := List.flatMap_append

/-- The bits of the bytes of a number are those of the number. -/
theorem bytesToBits_unpack (n a : ℕ) :
    bytesToBits ((unpack 8 n a).map toChar) = unpack 1 (8 * n) a := by
  induction n generalizing a with
  | zero => rfl
  | succ n ih =>
    have hbyte : (toChar (a % 2 ^ 8)).toNat = a % 2 ^ 8 := toNat_toChar (Nat.mod_lt a (by decide))
    rw [unpack, List.map_cons, bytesToBits_cons, ih, hbyte, Nat.mul_succ, Nat.add_comm (8 * n),
      unpack_add, Nat.one_mul]
    exact congrArg (· ++ _) (unpack_mod 1 8 a)

theorem bytesToBits_storedBlock {bfinal : ℕ} (hbfinal : bfinal < 2) (data : Bytes) :
    bytesToBits (storedBlock bfinal data) = (Block.stored [0, 0, 0, 0, 0] data).bits bfinal := by
  have hhead : bytesToBits [toChar bfinal]
      = unpack 1 1 bfinal ++ unpack 1 2 0 ++ [0, 0, 0, 0, 0] := by
    obtain rfl | rfl : bfinal = 0 ∨ bfinal = 1 := by omega
    · rfl
    · rfl
  rw [storedBlock, ← List.singleton_append, bytesToBits_append, bytesToBits_append,
    bytesToBits_append, bytesToBits_unpack, bytesToBits_unpack, hhead]
  simp only [Block.bits, Block.body, Block.btype, List.append_assoc]

/-- **Stored blocks** are a stream of the data. -/
theorem exists_encodes_storedBlocks (data : Bytes) (w : Bytes) {pos : ℕ} (hpos : pos % 8 = 0) :
    ∃ blocks, Encodes pos blocks (bytesToBits (storedBlocks data)) ∧
      expandBlocks w blocks = some (w ++ data) := by
  induction hn : data.length using Nat.strong_induction_on generalizing data w pos with
  | h n ih =>
    have hvalid : ∀ d : Bytes, d.length < 2 ^ 16 →
        (Block.stored [0, 0, 0, 0, 0] d).ValidAt pos := by
      intro d hd
      refine ⟨by decide, ?_, hd⟩
      rw [List.length_cons, List.length_cons]
      simp only [List.length_cons, List.length_nil]
      omega
    rw [storedBlocks]
    split_ifs with hsmall
    · refine ⟨[.stored [0, 0, 0, 0, 0] data], ?_, rfl⟩
      rw [bytesToBits_storedBlock (by decide)]
      exact .last (hvalid data hsmall)
    · have htake : (data.take (2 ^ 16 - 1)).length = 2 ^ 16 - 1 := by
        rw [List.length_take]
        omega
      have hblock := bytesToBits_storedBlock Nat.zero_lt_two (data.take (2 ^ 16 - 1))
      have hlen : (pos + ((Block.stored [0, 0, 0, 0, 0] (data.take (2 ^ 16 - 1))).bits 0).length)
          % 8 = 0 := by
        rw [← hblock, length_bytesToBits]
        omega
      obtain ⟨blocks, hblocks, hexpand⟩ := ih (data.drop (2 ^ 16 - 1)).length
        (by rw [List.length_drop]; omega) (data.drop (2 ^ 16 - 1)) (w ++ data.take (2 ^ 16 - 1))
        hlen rfl
      refine ⟨.stored [0, 0, 0, 0, 0] (data.take (2 ^ 16 - 1)) :: blocks, ?_, ?_⟩
      · rw [bytesToBits_append, hblock]
        exact .cons (hvalid _ (by omega)) hblocks
      · rw [expandBlocks_cons, Block.expand, Option.bind_some, hexpand, List.append_assoc,
          List.take_append_drop]

theorem length_storedBlocks (data : Bytes) : data.length ≤ (storedBlocks data).length := by
  induction hn : data.length using Nat.strong_induction_on generalizing data with
  | h n ih =>
    have hblock : ∀ bfinal (d : Bytes), d.length ≤ (storedBlock bfinal d).length := by
      intro bfinal d
      rw [storedBlock, List.length_cons, List.length_append, List.length_append]
      omega
    rw [storedBlocks]
    split_ifs with hsmall
    · exact hn ▸ hblock 1 data
    · have hrest := ih (data.drop (2 ^ 16 - 1)).length (by rw [List.length_drop]; omega) _ rfl
      have htake := hblock 0 (data.take (2 ^ 16 - 1))
      rw [List.length_append]
      rw [List.length_drop] at hrest
      rw [List.length_take] at htake
      omega

/-- A compressor that stores, and `inflate_raw`. -/
def storedZlib : Zlib where
  compress := storedBlocks
  decompress src :=
    match AdaIdna.inflateRaw src src.length with
    | .ok data => some data
    | _ => none

theorem storedZlib_correct : storedZlib.Correct where
  decompress_compress data := by
    obtain ⟨blocks, hblocks, hdata⟩ := exists_encodes_storedBlocks data [] (Nat.zero_mod 8)
    show (match AdaIdna.inflateRaw (storedBlocks data) (storedBlocks data).length with
      | .ok data => some data
      | _ => none) = some data
    rw [inflateRaw_of_stream hblocks (List.append_nil _).symm hdata (length_storedBlocks data)]
    rfl
  deflates data := by
    obtain ⟨blocks, hblocks, hdata⟩ := exists_encodes_storedBlocks data [] (Nat.zero_mod 8)
    exact ⟨blocks, _, [], hblocks, (List.append_nil _).symm, hdata⟩

end PackTables

end AdaIdna
