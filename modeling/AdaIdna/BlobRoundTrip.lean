/-
AdaIdna/BlobRoundTrip.lean

The values that were packed are read again, by pack_tables.py from the text
of table_blob.inc and by table_store.hpp from the buffer, on hosts of either
byte order.

That `zlib` decompresses what it has compressed, and that `inflate_raw`
reproduces it, is assumed.
-/
import AdaIdna.BlobEndian
import AdaIdna.InflateExact
import AdaIdna.PackText

namespace AdaIdna

namespace TableBlob

open Lanes PackTables Buffer

variable {z : Zlib} {vals : BlobSection → List ℕ} {b : Blob} {payload : Bytes}
  {layout : List Placed} {p : Placed} {o : ByteOrder}

/-! ### What is written -/

theorem blockRows_eq (s : BlobSection) (cols : ℕ) :
    blockRows (fun s => some (vals s)) s cols
      = if (vals s).length % cols ≠ 0 then none else some ((vals s).length / cols) := rfl

/-- The dimensions are those of whole rows. -/
theorem exists_dimensionsOf_iff :
    (∃ dims, dimensionsOf (fun s => some (vals s)) = some dims) ↔
      257 ∣ (vals .decompositionBlock).length ∧ 256 ∣ (vals .cccBlock).length ∧
        257 ∣ (vals .compositionBlock).length := by
  rw [Nat.dvd_iff_mod_eq_zero, Nat.dvd_iff_mod_eq_zero, Nat.dvd_iff_mod_eq_zero, dimensionsOf,
    blockRows_eq, blockRows_eq, blockRows_eq]
  split_ifs <;> simp_all [lengthOf]

/-- The dimensions are declared under their names. -/
theorem mem_dimensionNames {dims : List (String × ℕ)}
    (h : dimensionsOf (fun s => some (vals s)) = some dims) :
    ∀ d ∈ dims, d.1 ∈ dimensionNames := by
  have hnames : dims.map Prod.fst = dimensionNames := by
    rw [dimensionsOf, blockRows_eq, blockRows_eq, blockRows_eq] at h
    split_ifs at h
    all_goals first | cases h; rfl | cases h
  intro d hd
  rw [← hnames]
  exact List.mem_map_of_mem hd

/-- What is written for a payload. -/
structure Written (z : Zlib) (payload : Bytes) (layout : List Placed) (b : Blob) : Prop where
  layout : b.layout = layout
  compressed : b.compressed = z.compress payload
  uncompressedSize : b.uncompressedSize = payload.length
  uncompressedCrc32 : b.uncompressedCrc32 = crc32Ieee payload
  dimensions : ∀ d ∈ b.dimensions, d.1 ∈ dimensionNames

section Written

variable (hlayout : computeLayout (fun s => some (vals s)) = some (payload, layout))
  (hz : z.decompress (z.compress payload) = some payload)
include hlayout hz

theorem writeBlob_eq :
    writeBlob (fun s => some (vals s)) z
      = (dimensionsOf fun s => some (vals s)).map fun dimensions =>
        { uncompressedSize := payload.length
          compressedSize := (z.compress payload).length
          uncompressedCrc32 := crc32Ieee payload
          dimensions
          layout
          compressed := z.compress payload } := by
  rw [writeBlob, hlayout]
  simp only [Option.bind_eq_bind, Option.bind_some, hz, ne_eq, not_true_eq_false, if_false]
  cases dimensionsOf fun s => some (vals s) with
  | none => rfl
  | some dims => rfl

theorem written (hb : writeBlob (fun s => some (vals s)) z = some b) :
    Written z payload layout b := by
  rw [writeBlob_eq hlayout hz] at hb
  obtain ⟨dims, hdims, rfl⟩ := Option.map_eq_some_iff.mp hb
  exact ⟨rfl, rfl, rfl, rfl, mem_dimensionNames hdims⟩

/-- Whole rows are written. -/
theorem exists_writeBlob_iff :
    (∃ b, writeBlob (fun s => some (vals s)) z = some b) ↔
      257 ∣ (vals .decompositionBlock).length ∧ 256 ∣ (vals .cccBlock).length ∧
        257 ∣ (vals .compositionBlock).length := by
  rw [← exists_dimensionsOf_iff, writeBlob_eq hlayout hz]
  constructor
  · rintro ⟨b, hb⟩
    obtain ⟨dims, hdims, -⟩ := Option.map_eq_some_iff.mp hb
    exact ⟨dims, hdims⟩
  · rintro ⟨dims, hdims⟩
    exact ⟨_, Option.map_eq_some_iff.mpr ⟨dims, hdims, rfl⟩⟩

end Written

/-! ### pack_tables.py -/

section Reading

variable (hfits : PackTables.Fits vals) (hlaid : Laid vals sectionOrder payload b.layout)
  (hdims : ∀ d ∈ b.dimensions, d.1 ∈ dimensionNames)
include hfits hlaid hdims

/-- The values of a section are read. -/
theorem loadSection_text {item : BlobSection × Kind} (hitem : item ∈ sectionOrder) :
    loadSection b.text payload item = some [(item.1, vals item.1)] := by
  obtain ⟨p, hp, hname, hkind⟩ := exists_placed hlaid hitem
  obtain ⟨pre, post, hblob, hpre⟩ := hlaid.content p hp
  have hnodup := nodup_of_laid hlaid
  have hoff := constantOf_eq (findAll_off hdims) hnodup hp
  have hcount := constantOf_eq (findAll_count hdims) hnodup hp
  have hlen : (packed p.kind (vals p.name)).length = p.count * p.kind.width := by
    rw [length_packed, hlaid.count p hp]
  have hraw : (payload.drop p.off).take (p.count * p.kind.width) = packed p.kind (vals p.name) := by
    rw [hblob]
    exact region_append hpre hlen
  have hvals : unpackValues p.kind p.count (packed p.kind (vals p.name)) = vals p.name := by
    rw [hlaid.count p hp]
    exact unpackValues_packed (hfits _ (mem_sectionOrder_of_laid hlaid hp))
  obtain rfl : item = (p.name, p.kind) := Prod.ext hname.symm hkind.symm
  simp only [loadSection, hoff, Option.bind_eq_bind, hcount, Option.bind_some, hraw, hlen, ne_eq,
    not_true_eq_false, if_false, hvals]

/-- **`load_blob_sections`** reads the values that were written. -/
theorem loadBlobSections_text (hz : z.decompress b.compressed = some payload)
    (hsize : b.uncompressedSize = payload.length) :
    loadBlobSections z b.text = some (sectionOrder.map fun item => (item.1, vals item.1)) := by
  have hall : ∀ items ⊆ sectionOrder, items.mapM (loadSection b.text payload)
      = some (items.map fun item => [(item.1, vals item.1)]) := by
    intro items hsub
    induction items with
    | nil => rfl
    | cons item items ih =>
      obtain ⟨hitem, hsub⟩ := List.cons_subset.mp hsub
      rw [List.mapM_cons, loadSection_text hfits hlaid hdims hitem, ih hsub]
      rfl
  rw [loadBlobSections, parseBlobMeta_text hz hsize hdims, Option.bind_eq_bind, Option.bind_some,
    hall sectionOrder (List.Subset.refl _), Option.map_some, ← List.flatMap_def,
    ← List.map_eq_flatMap]

end Reading

/-! ### table_store.hpp -/

theorem exists_kind (s : BlobSection) : ∃ kind, (s, kind) ∈ sectionOrder := by
  have hs := s.mem_order
  have horder : BlobSection.order = sectionOrder.map Prod.fst := rfl
  rw [horder] at hs
  obtain ⟨item, hitem, rfl⟩ := List.mem_map.mp hs
  exact ⟨item.2, hitem⟩

theorem ensureTablesBuffer_eq (hinfl : inflateRaw b.compressed b.uncompressedSize = .ok payload)
    (hsize : b.uncompressedSize = payload.length)
    (hcrc : b.uncompressedCrc32 = crc32Ieee payload) (o : ByteOrder) :
    ensureTablesBuffer o b = some (convertTableBlobToHostEndian o b payload) := by
  have hinflated : inflated b = payload := by rw [inflated, hinfl]
  rw [ensureTablesBuffer, hinflated, hsize, hcrc]
  simp

section Loading

variable (hlaid : Laid vals sectionOrder payload b.layout)
include hlaid

/-- The constants of a section are those of its place. -/
theorem exists_place {s : BlobSection} {kind : Kind} (hs : (s, kind) ∈ sectionOrder) :
    ∃ p ∈ b.layout, p.name = s ∧ p.kind = kind ∧ off b s = p.off ∧ count b s = p.count := by
  obtain ⟨p, hp, hname, hkind⟩ := exists_placed hlaid hs
  have hnodup := nodup_of_laid hlaid
  obtain rfl : p.name = s := hname
  exact ⟨p, hp, rfl, hkind, off_eq hnodup hp, count_eq hnodup hp⟩

/-- **A load** from a section gives back the value that was packed. -/
theorem nativeLoad_convert (hfits : PackTables.Fits vals) {s : BlobSection} {k v : ℕ}
    (hv : (vals s)[k]? = some v) :
    nativeLoad o (pointerWidth s) (convertTableBlobToHostEndian o b payload)
      (off b s + pointerWidth s * k) = v := by
  obtain ⟨kind, hs⟩ := exists_kind s
  obtain ⟨p, hp, rfl, rfl, hoff, -⟩ := exists_place hlaid hs
  have hwidth : pointerWidth p.name = p.kind.width := pointerWidth_eq _ hs
  rw [hwidth, hoff]
  apply nativeLoad_of_region (region_convert hlaid hp) _ (hfits _ hs) hv
  rw [hlaid.count p hp]

/-- **Single bytes** are left as they are. -/
theorem region_convert_u8 {s : BlobSection} (hs : (s, .u8) ∈ sectionOrder) :
    region (convertTableBlobToHostEndian o b payload) (off b s) (count b s)
      = region payload (off b s) (count b s) := by
  obtain ⟨p, hp, rfl, hkind, hoff, hcount⟩ := exists_place hlaid hs
  obtain ⟨pre, post, hblob, hpre⟩ := hlaid.content p hp
  have hlen : (packed p.kind (vals p.name)).length = p.count * p.kind.width := by
    rw [length_packed, hlaid.count p hp]
  have hbefore : region payload p.off (p.count * p.kind.width) = packed p.kind (vals p.name) := by
    rw [hblob]
    exact region_append hpre hlen
  have hafter := region_convert (o := o) hlaid hp
  rw [hkind, hostPacked_u8] at hafter
  rw [hkind] at hbefore
  rw [hoff, hcount]
  simpa [Kind.width] using hafter.trans hbefore.symm

end Loading

/-! ### Both -/

/-- The places of a section in the payload. -/
def places (p : Placed) : Finset ℕ := Finset.Ico p.off (p.off + p.nbytes)

/-- **Packing and reading agree.** -/
theorem blob_round_trip (hz : ∀ data, z.decompress (z.compress data) = some data)
    (hfits : PackTables.Fits vals) :
    ∃ payload layout, computeLayout (fun s => some (vals s)) = some (payload, layout) ∧
      layout.map (fun p => (p.name, p.kind)) = sectionOrder ∧
      (∀ p ∈ layout, p.nbytes = (vals p.name).length * p.kind.width ∧ p.kind.align ∣ p.off ∧
        p.off + p.nbytes ≤ payload.length) ∧
      layout.Pairwise (fun p q => Disjoint (places p) (places q)) ∧
      ((∃ b, writeBlob (fun s => some (vals s)) z = some b) ↔
        257 ∣ (vals .decompositionBlock).length ∧ 256 ∣ (vals .cccBlock).length ∧
          257 ∣ (vals .compositionBlock).length) ∧
      ∀ b, writeBlob (fun s => some (vals s)) z = some b →
        b.layout = layout ∧
        loadBlobSections z b.text = some (sectionOrder.map fun item => (item.1, vals item.1)) ∧
        (inflateRaw b.compressed b.uncompressedSize = .ok payload →
          ∀ o, ∃ buffer, ensureTablesBuffer o b = some buffer ∧
            (∀ s k v, (vals s)[k]? = some v →
              nativeLoad o (pointerWidth s) buffer (off b s + pointerWidth s * k) = v) ∧
            ∀ s, (s, .u8) ∈ sectionOrder →
              region buffer (off b s) (count b s) = region payload (off b s) (count b s)) := by
  obtain ⟨payload, layout, hlayout, hlaid⟩ := exists_computeLayout hfits
  refine ⟨payload, layout, hlayout, hlaid.items, fun p hp => ?_, ?_,
    exists_writeBlob_iff hlayout (hz payload), fun b hb => ?_⟩
  · have hnbytes := hlaid.nbytes p hp
    refine ⟨?_, hlaid.aligned p hp, ?_⟩
    · rw [hnbytes, hlaid.count p hp]
    · rw [hnbytes]
      exact hlaid.le_length hp
  · refine hlaid.ordered.imp_of_mem fun {p q} hp hq hle => ?_
    rw [← hlaid.nbytes p hp] at hle
    rw [Finset.disjoint_left]
    intro i hi hi'
    have hlt := (Finset.mem_Ico.mp hi).2
    have hge := (Finset.mem_Ico.mp hi').1
    omega
  · obtain ⟨rfl, hcompressed, hsize, hcrc, hdims⟩ := written hlayout (hz payload) hb
    have hdecompress : z.decompress b.compressed = some payload := by
      rw [hcompressed]
      exact hz payload
    refine ⟨rfl, loadBlobSections_text hfits hlaid hdims hdecompress hsize, fun hinfl o => ?_⟩
    refine ⟨_, ensureTablesBuffer_eq hinfl hsize hcrc o, fun s k v hv => ?_, fun s hs => ?_⟩
    · exact nativeLoad_convert hlaid hfits hv
    · exact region_convert_u8 hlaid hs

/-- Values of all four widths. -/
def fewValues : BlobSection → List ℕ
  | .idnaStage1 => [0x1234, 0x5678]
  | .idnaBoolBlocks => [0x8000000000000001]
  | .idnaUtf8Mappings => [0xc3, 0xa9, 0x61]
  | .decompositionData => [0x65, 0x301]
  | .dirValue => [1]
  | _ => []

/-- These values, with padding in front of the second, the fourth and behind the
last of these sections. -/
def fewPayload : Bytes :=
  [0x34, 0x12, 0x78, 0x56, 0, 0, 0, 0, 1, 0, 0, 0, 0, 0, 0, 0x80, 0xc3, 0xa9, 0x61, 0,
    0x65, 0, 0, 0, 1, 3, 0, 0, 1, 0, 0, 0]

/-- What `zlib` makes of these bytes. -/
def fewCompressed : Bytes :=
  [0x33, 0x11, 0xaa, 0x08, 0x63, 0x00, 0x02, 0x46, 0x06, 0x30, 0x68, 0x38, 0xbc, 0x32, 0x91,
    0x21, 0x15, 0xc4, 0x67, 0x86, 0x88, 0x01, 0x00]

/-- Other data is kept behind a zero. -/
def fewZlib : Zlib where
  compress data := if data = fewPayload then fewCompressed else 0 :: data
  decompress
    | 0 :: data => some data
    | data => if data = fewCompressed then some fewPayload else none

theorem fewZlib_decompress (data : Bytes) :
    fewZlib.decompress (fewZlib.compress data) = some data := by
  show fewZlib.decompress (if data = fewPayload then fewCompressed else 0 :: data) = _
  split
  · rename_i h
    rw [h]
    rfl
  · rfl

theorem fits_fewValues : PackTables.Fits fewValues := by
  unfold PackTables.Fits
  decide

/-- The symbols of the one block that the compressed bytes are, a fixed one. -/
def fewSymbols : List Deflate.Symbol :=
  [.literal 0x34, .literal 0x12, .literal 0x78, .literal 0x56, .literal 0, .pair 0 0 0 0,
    .literal 1, .literal 0, .pair 2 0 0 0, .literal 0x80, .literal 0xc3, .literal 0xa9,
    .literal 0x61, .literal 0, .literal 0x65, .pair 1 0 7 3, .literal 3, .pair 3 0 8 3]

theorem inflateRaw_fewCompressed : inflateRaw fewCompressed 32 = .ok fewPayload := by
  have hvalid : (Deflate.Block.fixed fewSymbols).ValidAt 0 := by
    show Deflate.Block.EncodableSymbols _ _ _
    decide +kernel
  have hbits : bytesToBits fewCompressed
      = Deflate.Block.bits 1 (.fixed fewSymbols) ++ [0, 0, 0, 0, 0, 0, 0] := by
    decide +kernel
  refine inflateLoop_of_encodes (.last hvalid) ?_ (by decide +kernel) (by decide)
    (BitReader.wf_start _) hbits (by decide)
  rw [BitReader.toBits_start, length_bytesToBits, Nat.zero_add, Nat.mul_mod_right]

theorem blob_round_trip_few : ∃ b, writeBlob (fun s => some (fewValues s)) fewZlib = some b ∧
    loadBlobSections fewZlib b.text
      = some (sectionOrder.map fun item => (item.1, fewValues item.1)) ∧
    ∀ o, ∃ buffer, ensureTablesBuffer o b = some buffer ∧
      nativeLoad o 2 buffer (off b .idnaStage1 + 2) = 0x5678 ∧
      nativeLoad o 8 buffer (off b .idnaBoolBlocks) = 0x8000000000000001 ∧
      nativeLoad o 1 buffer (off b .idnaUtf8Mappings + 1) = 0xa9 ∧
      nativeLoad o 4 buffer (off b .decompositionData + 4) = 0x301 ∧
      nativeLoad o 1 buffer (off b .dirValue) = 1 := by
  obtain ⟨payload, layout, hlayout, -, -, -, hrows, hb⟩ :=
    blob_round_trip fewZlib_decompress fits_fewValues
  obtain ⟨b, hwrite⟩ := hrows.mpr (by decide)
  obtain ⟨-, hload, hensure⟩ := hb b hwrite
  have hpayload : payload = fewPayload := by
    have hfst : (computeLayout fun s => some (fewValues s)).map Prod.fst = some fewPayload := by
      decide +kernel
    rw [hlayout] at hfst
    exact Option.some.inj hfst
  subst hpayload
  have hwritten := written hlayout (fewZlib_decompress _) hwrite
  have hinfl : inflateRaw b.compressed b.uncompressedSize = .ok fewPayload := by
    rw [hwritten.compressed, hwritten.uncompressedSize]
    exact inflateRaw_fewCompressed
  refine ⟨b, hwrite, hload, fun o => ?_⟩
  obtain ⟨buffer, hbuffer, hnative, -⟩ := hensure hinfl o
  exact ⟨buffer, hbuffer, hnative .idnaStage1 1 _ rfl, hnative .idnaBoolBlocks 0 _ rfl,
    hnative .idnaUtf8Mappings 1 _ rfl, hnative .decompositionData 1 _ rfl,
    hnative .dirValue 0 _ rfl⟩

end TableBlob

end AdaIdna
