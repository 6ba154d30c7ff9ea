/-
AdaIdna/TableBlob.lean

How table_store.hpp unpacks table_blob.inc.

A buffer is a list of bytes, and a pointer of an integer type into it is the
address of its first byte.  A load or a store moves the bytes of a value in
the order of the host, `std::endian::native`.  What `ensure_tables` does with
the buffer once it has the right to, from decompressing to converting it, is
`ensureTablesBuffer`; the protocol around it is elsewhere.
-/
import AdaIdna.PackTables
import AdaIdna.Inflate

namespace AdaIdna

namespace TableBlob

open Lanes PackTables

/-- `*p`, where `p` points to an integer of `w` bytes at `a`. -/
def nativeLoad (o : ByteOrder) (w : ℕ) (buffer : Bytes) (a : ℕ) : ℕ :=
  pack 8 (o.arrange (((buffer.drop a).take w).map UInt8.toNat))

/-- `*p = v` -/
def nativeStore (o : ByteOrder) (w : ℕ) (buffer : Bytes) (a v : ℕ) : Bytes :=
  buffer.take a ++ (o.arrange ((unpack 8 w v).map toChar) ++ buffer.drop (a + w))

/-- `__builtin_bswap16`, `__builtin_bswap32` and `__builtin_bswap64` -/
def bswap (w v : ℕ) : ℕ := pack 8 (unpack 8 w v).reverse

/-- `data[i] = bswap(data[i])`, where `data` is at `off`. -/
def bswapStep (o : ByteOrder) (w off : ℕ) (buffer : Bytes) (i : ℕ) : Bytes :=
  nativeStore o w buffer (off + w * i) (bswap w (nativeLoad o w buffer (off + w * i)))

def bswapInplace (o : ByteOrder) (w : ℕ) (buffer : Bytes) (off count : ℕ) : Bytes :=
  match o with
  | .little => buffer
  | .big => (List.range count).foldl (bswapStep o w off) buffer

/-- `off_` and the name of the section. -/
def off (b : Blob) (s : BlobSection) : ℕ :=
  ((b.layout.find? fun p => p.name = s).map Placed.off).getD 0

/-- `count_` and the name of the section. -/
def count (b : Blob) (s : BlobSection) : ℕ :=
  ((b.layout.find? fun p => p.name = s).map Placed.count).getD 0

/-- The calls of `convert_table_blob_to_host_endian`, with the width of `u16`,
`u32` and `u64`. -/
def converted : List (BlobSection × ℕ) :=
  [(.idnaStage1, 2), (.idnaStage2, 2), (.idnaBoolBlocks, 8), (.decompositionBlock, 2),
    (.decompositionData, 4), (.compositionBlock, 2), (.compositionData, 4), (.idContinueFlat, 4),
    (.idStartFlat, 4), (.dirStart, 4), (.dirFinal, 4), (.combiningFlat, 4), (.joiningStart, 4),
    (.joiningFinal, 4)]

def convertTableBlobToHostEndian (o : ByteOrder) (b : Blob) (buffer : Bytes) : Bytes :=
  match o with
  | .little => buffer
  | .big =>
    converted.foldl (fun buffer c => bswapInplace o c.2 buffer (off b c.1) (count b c.1)) buffer

/-- The size of what the pointer to a section points to; `range_pair_ptr` points
to pairs of `uint32_t`. -/
def pointerWidth : BlobSection → ℕ
  | .idnaStage1 => 2
  | .idnaStage2 => 2
  | .idnaBoolBlocks => 8
  | .idnaUtf8Mappings => 1
  | .decompositionIndex => 1
  | .decompositionBlock => 2
  | .decompositionData => 4
  | .cccIndex => 1
  | .cccBlock => 1
  | .compositionIndex => 1
  | .compositionBlock => 2
  | .compositionData => 4
  | .idContinueFlat => 4
  | .idStartFlat => 4
  | .dirStart => 4
  | .dirFinal => 4
  | .dirValue => 1
  | .combiningFlat => 4
  | .joiningStart => 4
  | .joiningFinal => 4
  | .joiningValue => 1

/-- What `inflate_raw` wrote; it returns how much that is. -/
def inflated (b : Blob) : Bytes :=
  match inflateRaw b.compressed b.uncompressedSize with
  | .ok buffer => buffer
  | _ => []

/-- The buffer that is published; `none` is `kTablesFailed`. -/
def ensureTablesBuffer (o : ByteOrder) (b : Blob) : Option Bytes :=
  if (inflated b).length ≠ b.uncompressedSize ∨ crc32Ieee (inflated b) ≠ b.uncompressedCrc32 then
    none
  else some (convertTableBlobToHostEndian o b (inflated b))

end TableBlob

end AdaIdna
