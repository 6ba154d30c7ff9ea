/-
AdaIdna/PackText.lean

What `_parse_blob_meta` finds in the text that `write_blob` writes.

Line by line, the patterns pass over everything but the declarations they are
made for (`skips_headText`, `findAll_constantPattern`), so the offsets, the
counts and the bytes are those that were written (`parseBlobMeta_text`).
-/
import AdaIdna.PackTables

namespace AdaIdna

namespace PackTables

open TextScan

variable {β : Type} {m : Pattern β} {p name rest : List Char} {value : ℕ} {b : Blob} {data : Bytes}

/-! ### Lines -/

theorem intercalate_append {sep : List Char} {ls : List (List Char)} (h : ls ≠ []) :
    List.intercalate sep ls ++ sep = ls.flatMap (· ++ sep) := by
  induction ls with
  | nil => exact absurd rfl h
  | cons l ls ih =>
    cases ls with
    | nil => simp [List.intercalate]
    | cons l' ls =>
      rw [List.flatMap_cons, ← ih (List.cons_ne_nil l' ls)]
      simp [List.intercalate, List.intersperse]

/-- Lines with their ends. -/
def block (ls : List (List Char)) : List Char := ls.flatMap (· ++ ['\n'])

/-- The bytes of a line. -/
def chunkLine (chunk : Bytes) : List Char := chunk.flatMap fun b => hexByte b ++ [',']

/-- The lines of bytes are those of chunks. -/
theorem exists_chunks (data : Bytes) :
    ∃ chunks : List Bytes, cBytes data = chunks.map chunkLine ∧ chunks.flatten = data := by
  induction data using cBytes.induct with
  | case1 => exact ⟨[], by rw [cBytes, if_pos rfl]; rfl, rfl⟩
  | case2 data hne ih =>
    obtain ⟨chunks, hlines, hflat⟩ := ih
    have hchunk : (data.take 16).map hexByte ≠ [] := by
      rw [Ne, List.map_eq_nil_iff, List.take_eq_nil_iff]
      exact fun h => h.elim (by decide) hne
    refine ⟨data.take 16 :: chunks, ?_, ?_⟩
    · rw [cBytes, if_neg hne, hlines, List.map_cons, chunkLine]
      have hline : List.intercalate [','] ((data.take 16).map hexByte) ++ [',']
          = ((data.take 16).map hexByte).flatMap (· ++ [',']) := intercalate_append hchunk
      rw [hline, List.flatMap_map]
    · rw [List.flatten_cons, hflat, List.take_append_drop]

/-! ### Passing over -/

theorem not_mem_toDigits {c : Char} (hc : c.isDigit = false) (n : ℕ) : c ∉ Nat.toDigits 10 n := by
  intro h
  rw [Nat.isDigit_of_mem_toDigits (by decide) (by decide) h] at hc
  cases hc

/-- A declaration is passed over if the text in front of its value is. -/
theorem skips_constantLine (hm : ∀ s, m s ≠ none → 'c' :: p <+: s)
    (h : skipsLit ('c' :: p) ("constexpr size_t ".toList ++ name ++ " = ".toList) = true)
    (value : ℕ) : Skips m (constantLine name value ++ ['\n']) := by
  have hdigits : Skips m (Nat.toDigits 10 value) :=
    skips_of_skipsLit hm (skipsLit_of_not_mem (not_mem_toDigits rfl value))
  have hend : Skips m (";".toList ++ ['\n']) :=
    skips_of_skipsLit hm (skipsLit_of_not_mem (by decide))
  unfold constantLine
  rw [List.append_assoc]
  exact ((skips_of_skipsLit hm h).append hdigits).append hend

theorem hexDigit_upper : ∀ d < 16, hexDigit "0123456789ABCDEF" d ≠ 'c' := by
  decide

theorem skips_crcText (hm : ∀ s, m s ≠ none → 'c' :: p <+: s) (crc : UInt32) :
    Skips m (crcText crc) := by
  refine skips_of_skipsLit hm (skipsLit_of_not_mem ?_)
  rw [crcText, List.mem_append, List.mem_append, not_or, not_or]
  refine ⟨⟨by decide, fun h => ?_⟩, by decide⟩
  obtain ⟨d, hd, heq⟩ := List.mem_map.mp h
  have hlt := Lanes.lt_of_mem_unpack (List.mem_reverse.mp hd)
  exact hexDigit_upper d hlt heq

/-- The bytes are passed over by a pattern that does not begin like one. -/
theorem skips_chunkLine (hm : ∀ s, m s ≠ none → p <+: s)
    (h : ∀ i < 16, ∀ j < 16, skipsLit p ['0', 'x', hexDigit "0123456789abcdef" i,
      hexDigit "0123456789abcdef" j, ','] = true) (chunk : Bytes) : Skips m (chunkLine chunk) := by
  refine Skips.flatMap fun b _ => skips_of_skipsLit hm ?_
  have hlt := b.toNat_lt
  exact h (b.toNat / 16) (by omega) (b.toNat % 16) (by omega)

/-- The declarations of `meta`. -/
def dimensionNames : List String :=
  ["decomposition_block_rows", "decomposition_block_cols", "ccc_block_rows", "ccc_block_cols",
    "composition_block_rows", "composition_block_cols", "id_continue_count", "id_start_count",
    "dir_table_count", "combining_range_count", "joining_table_count"]

/-- The lines in front of the declarations. -/
def fixedLines : List (List Char) :=
  ["// Auto-generated by scripts/pack_tables.py - do not edit.".toList,
    "// Compressed Unicode/IDNA tables (raw DEFLATE).".toList,
    "// clang-format off".toList,
    "#ifndef ADA_IDNA_TABLE_BLOB_H".toList,
    "#define ADA_IDNA_TABLE_BLOB_H".toList,
    "#include <cstdint>".toList,
    "#include <cstddef>".toList,
    "namespace ada::idna::table_blob \x7b".toList]

/-- The declaration of the checksum. -/
def crcLine (crc : UInt32) : List Char :=
  "constexpr uint32_t uncompressed_crc32 = ".toList ++ crcText crc ++ ";".toList

/-- The comment in front of the section declarations. -/
def offsetsLine : List Char := "// Offsets into the decompressed buffer:".toList

/-- The declarations of a section. -/
def sectionLines (p : Placed) : List (List Char) :=
  [constantLine ("off_".toList ++ p.name.name.toList) p.off,
    constantLine ("count_".toList ++ p.name.name.toList) p.count]

/-- The text behind `uncompressed_size` and in front of the sections. -/
def metaText (b : Blob) : List Char :=
  block [constantLine "compressed_size".toList b.compressedSize] ++
  (block [crcLine b.uncompressedCrc32] ++
  (block (b.dimensions.map fun d => constantLine d.1.toList d.2) ++ block [offsetsLine]))

/-- The bytes, between the braces. -/
def arrayText (data : Bytes) : List Char :=
  '\n' :: (List.intercalate ['\n'] (cBytes data) ++ ['\n'])

/-- The text behind the bytes. -/
def tailLines : List (List Char) :=
  ["\x7d;".toList, "\x7d  // namespace ada::idna::table_blob".toList, "#endif".toList]

def alignasText : List Char := "alignas(8) inline constexpr uint8_t ".toList

def openText : List Char := "compressed[] = \x7b".toList

theorem block_append (ls ls' : List (List Char)) : block (ls ++ ls') = block ls ++ block ls' :=
  List.flatMap_append

theorem block_cons (l : List Char) (ls : List (List Char)) :
    block (l :: ls) = l ++ ('\n' :: block ls) := by
  rw [block, List.flatMap_cons, List.append_assoc]
  rfl

@[simp] theorem block_nil : block [] = [] := rfl

theorem lines_eq (b : Blob) :
    b.lines = fixedLines ++ (constantLine "uncompressed_size".toList b.uncompressedSize ::
      ([constantLine "compressed_size".toList b.compressedSize, crcLine b.uncompressedCrc32] ++
        (b.dimensions.map (fun d => constantLine d.1.toList d.2) ++ ([offsetsLine] ++
          (b.layout.flatMap sectionLines ++ (alignasText ++ openText) ::
            List.intercalate ['\n'] (cBytes b.compressed) :: tailLines))))) := by
  have hopen : alignasText ++ openText
      = "alignas(8) inline constexpr uint8_t compressed[] = \x7b".toList := by rfl
  rw [hopen, Blob.lines, List.append_assoc, List.append_assoc, List.append_assoc]
  rfl

/-- The text in front of the section declarations. -/
def headText (b : Blob) : List Char :=
  block fixedLines ++
    (block [constantLine "uncompressed_size".toList b.uncompressedSize] ++ metaText b)

theorem text_eq (b : Blob) :
    b.text = headText b ++ (b.layout.flatMap (fun p => block (sectionLines p)) ++ (alignasText ++
      (openText ++ (arrayText b.compressed ++ block tailLines)))) := by
  have hne : b.lines ≠ [] := by
    rw [lines_eq]
    exact List.append_ne_nil_of_left_ne_nil (List.cons_ne_nil _ _) _
  have htext : b.text = block b.lines := intercalate_append hne
  have hlayout : block (b.layout.flatMap sectionLines)
      = b.layout.flatMap fun p => block (sectionLines p) := List.flatMap_assoc
  rw [htext, lines_eq]
  simp only [block_append, block_cons, block_nil, hlayout, headText, metaText, arrayText,
    List.append_assoc, List.cons_append, List.nil_append]

/-- The pieces that do not depend on the data. -/
def headPieces : List (List Char) :=
  [block fixedLines, "constexpr uint32_t uncompressed_crc32 = ".toList, block [offsetsLine],
    alignasText] ++
  ("uncompressed_size" :: "compressed_size" :: dimensionNames).map fun name =>
    "constexpr size_t ".toList ++ name.toList ++ " = ".toList

section Pieces

variable (hm : ∀ s, m s ≠ none → 'c' :: p <+: s)
include hm

theorem skips_line (h : skipsLit ('c' :: p) ("constexpr size_t ".toList ++ name ++ " = ".toList) =
    true) (value : ℕ) : Skips m (block [constantLine name value]) := by
  rw [block, List.flatMap_singleton]
  exact skips_constantLine hm h value

/-- What is in front of the section declarations is passed over. -/
theorem skips_headText (h : ∀ s ∈ headPieces, skipsLit ('c' :: p) s = true)
    (hdims : ∀ d ∈ b.dimensions, d.1 ∈ dimensionNames) : Skips m (headText b) := by
  have hname : ∀ name ∈ "uncompressed_size" :: "compressed_size" :: dimensionNames,
      skipsLit ('c' :: p) ("constexpr size_t ".toList ++ name.toList ++ " = ".toList) = true :=
    fun name hname => h _ (List.mem_append_right _ (List.mem_map_of_mem hname))
  have hfixed : Skips m (block fixedLines) := skips_of_skipsLit hm (h _ (by simp [headPieces]))
  have hcrc : Skips m (block [crcLine b.uncompressedCrc32]) := by
    have hfirst : Skips m "constexpr uint32_t uncompressed_crc32 = ".toList :=
      skips_of_skipsLit hm (h _ (by simp [headPieces]))
    have hlast : Skips m (";".toList ++ ['\n']) :=
      skips_of_skipsLit hm (skipsLit_of_not_mem (by decide))
    rw [block, List.flatMap_singleton]
    unfold crcLine
    rw [List.append_assoc]
    exact (hfirst.append (skips_crcText hm _)).append hlast
  have hdimensions : Skips m (block (b.dimensions.map fun d => constantLine d.1.toList d.2)) := by
    refine Skips.flatMap fun l hl => ?_
    obtain ⟨d, hd, rfl⟩ := List.mem_map.mp hl
    refine skips_constantLine hm (hname d.1 ?_) d.2
    exact List.mem_cons_of_mem _ (List.mem_cons_of_mem _ (hdims d hd))
  have hoffsets : Skips m (block [offsetsLine]) :=
    skips_of_skipsLit hm (h _ (by simp [headPieces]))
  have hus := skips_line hm (hname "uncompressed_size" (by simp)) b.uncompressedSize
  have hcs := skips_line hm (hname "compressed_size" (by simp)) b.compressedSize
  exact hfixed.append (hus.append (hcs.append (hcrc.append (hdimensions.append hoffsets))))

end Pieces

/-! ### The bytes -/

theorem arrayText_eq (data : Bytes) :
    ∃ chunks : List Bytes, arrayText data = '\n' :: block (chunks.map chunkLine) ∧
      chunks.flatten = data := by
  obtain ⟨chunks, hlines, hflat⟩ := exists_chunks data
  rcases eq_or_ne (cBytes data) [] with hnil | hne
  · rw [hlines, List.map_eq_nil_iff] at hnil
    refine ⟨[[]], ?_, ?_⟩
    · rw [arrayText, hlines, hnil]
      rfl
    · rw [← hflat, hnil]
      rfl
  · refine ⟨chunks, ?_, hflat⟩
    rw [arrayText, intercalate_append hne, hlines]
    rfl

/-- The bytes are passed over by a pattern that begins with a letter that is
no hexadecimal digit, or that a comma or a digit does not go on with. -/
theorem skips_arrayText (hm : ∀ s, m s ≠ none → p <+: s) (hline : skipsLit p ['\n'] = true)
    (h : ∀ i < 16, ∀ j < 16, skipsLit p ['0', 'x', hexDigit "0123456789abcdef" i,
      hexDigit "0123456789abcdef" j, ','] = true) (data : Bytes) : Skips m (arrayText data) := by
  obtain ⟨chunks, htext, -⟩ := arrayText_eq data
  have hend : Skips m ['\n'] := skips_of_skipsLit hm hline
  rw [htext, ← List.singleton_append]
  refine hend.append (Skips.flatMap fun l hl => ?_)
  obtain ⟨chunk, -, rfl⟩ := List.mem_map.mp hl
  exact (skips_chunkLine hm h chunk).append hend

/-- The two digits of a byte. -/
def hexDigits (b : UInt8) : List Char :=
  [hexDigit "0123456789abcdef" (b.toNat / 16), hexDigit "0123456789abcdef" (b.toNat % 16)]

theorem hexDigit_lower : ∀ d < 16, isHex (hexDigit "0123456789abcdef" d) = true ∧
    hexValue (hexDigit "0123456789abcdef" d) = d ∧ hexDigit "0123456789abcdef" d ≠ '\x7d' := by
  decide +kernel

theorem byteOf_hexDigits (b : UInt8) : byteOf (hexDigits b) = some b := by
  have hlt := b.toNat_lt
  have hhigh := (hexDigit_lower (b.toNat / 16) (by omega)).2.1
  have hlow := (hexDigit_lower (b.toNat % 16) (by omega)).2.1
  have hvalue : (hexDigits b).foldl (fun v c => 16 * v + hexValue c) 0 = b.toNat := by
    rw [hexDigits, List.foldl_cons, List.foldl_cons, List.foldl_nil, hhigh, hlow]
    omega
  rw [byteOf, hvalue, if_pos hlt, toChar_toNat]

theorem hexPattern_prefix (s : List Char) (h : hexPattern s ≠ none) : "0x".toList <+: s := by
  refine prefix_of_lit fun hnone => h ?_
  rw [hexPattern, hnone]
  rfl

theorem hexPattern_hexByte (b : UInt8) (rest : List Char) :
    hexPattern (hexByte b ++ ',' :: rest) = some (hexDigits b, ',' :: rest) := by
  have hlt := b.toNat_lt
  have hdigits : ∀ c ∈ hexDigits b, isHex c = true := by
    intro c hc
    rcases List.mem_pair.mp hc with rfl | rfl
    · exact (hexDigit_lower _ (by omega)).1
    · exact (hexDigit_lower _ (by omega)).1
  have hrun : run isHex (hexDigits b ++ ',' :: rest) = some (hexDigits b, ',' :: rest) := by
    refine run_append hdigits (List.cons_ne_nil _ _) fun c hc => ?_
    cases hc
    rfl
  have hlit : lit "0x".toList (hexByte b ++ ',' :: rest) = some (hexDigits b ++ ',' :: rest) :=
    lit_append "0x".toList (hexDigits b ++ ',' :: rest)
  rw [hexPattern, hlit]
  exact hrun

/-- The bytes are found again. -/
theorem finds_arrayText (data : Bytes) :
    Finds hexPattern (arrayText data) (data.map hexDigits) := by
  obtain ⟨chunks, htext, rfl⟩ := arrayText_eq data
  have hend : Skips hexPattern ['\n'] := skips_of_skipsLit hexPattern_prefix (by decide)
  have hcomma : Skips hexPattern [','] := skips_of_skipsLit hexPattern_prefix (by decide)
  have hbyte : ∀ b rest l, Finds hexPattern rest l →
      Finds hexPattern ((hexByte b ++ [',']) ++ rest) ([hexDigits b] ++ l) := by
    intro b rest l hrest
    rw [List.append_assoc]
    have hlt : (',' :: rest).length < (hexByte b ++ ',' :: rest).length := by
      rw [List.length_append]
      exact Nat.lt_add_of_pos_left (Nat.succ_pos 3)
    exact Finds.match (hexPattern_hexByte b rest) hlt (Finds.skip hcomma hrest)
  have hline : ∀ chunk rest l, Finds hexPattern rest l →
      Finds hexPattern ((chunkLine chunk ++ ['\n']) ++ rest) (chunk.map hexDigits ++ l) := by
    intro chunk rest l hrest
    rw [List.append_assoc, List.map_eq_flatMap]
    exact Finds.flatMap (fun b _ => hbyte b) (Finds.skip hend hrest)
  have hall : Finds hexPattern (chunks.flatMap (fun c => chunkLine c ++ ['\n']) ++ [])
      (chunks.flatMap (fun c => c.map hexDigits) ++ []) :=
    Finds.flatMap (fun chunk _ => hline chunk) (Finds.nil (by decide))
  rw [List.append_nil, List.append_nil] at hall
  rw [htext, block, List.flatMap_map, List.map_flatten, ← List.flatMap_def, ← List.singleton_append]
  exact Finds.skip hend hall

/-! ### The sections -/

theorem isWord_name (s : BlobSection) :
    s.name.toList ≠ [] ∧ ∀ c ∈ s.name.toList, isWord c = true := by
  have hname : s.name.toList ≠ [] ∧ s.name.toList.all isWord = true := by
    cases s <;> decide +kernel
  exact ⟨hname.1, List.all_eq_true.mp hname.2⟩

theorem run_digits (hrest : ∀ c ∈ rest.head?, c.isDigit = false) (value : ℕ) :
    run Char.isDigit (Nat.toDigits 10 value ++ rest) = some (Nat.toDigits 10 value, rest) :=
  run_append (fun _ hc => Nat.isDigit_of_mem_toDigits (by decide) (by decide) hc)
    Nat.toDigits_ne_nil hrest

/-- What is in front of the name of a section, but for the first letter. -/
def declarationText (start : String) : List Char := "onstexpr size_t ".toList ++ start.toList

theorem constantPattern_prefix (start : String) (s : List Char)
    (h : constantPattern start s ≠ none) : 'c' :: declarationText start <+: s := by
  refine prefix_of_lit fun hnone => h ?_
  have hlit : lit ("constexpr size_t ".toList ++ start.toList) s = none := hnone
  unfold constantPattern
  rw [hlit]
  rfl

/-- A declaration is found. -/
theorem constantPattern_constantLine (start : String) (s : BlobSection) (value : ℕ)
    (rest : List Char) :
    constantPattern start (constantLine (start.toList ++ s.name.toList) value ++ rest)
      = some ((s.name.toList, Nat.toDigits 10 value), rest) := by
  have hlit : lit ("constexpr size_t ".toList ++ start.toList)
      (constantLine (start.toList ++ s.name.toList) value ++ rest)
      = some (s.name.toList
          ++ (" = ".toList ++ (Nat.toDigits 10 value ++ (";".toList ++ rest)))) := by
    unfold constantLine
    simp only [List.append_assoc]
    rw [← List.append_assoc]
    exact lit_append _ _
  have hname : run isWord (s.name.toList ++ (" = ".toList ++ (Nat.toDigits 10 value ++
      (";".toList ++ rest))))
      = some (s.name.toList, " = ".toList ++ (Nat.toDigits 10 value ++ (";".toList ++ rest))) := by
    refine run_append (isWord_name s).2 (isWord_name s).1 fun c hc => ?_
    cases hc
    rfl
  have hdigits : run Char.isDigit (Nat.toDigits 10 value ++ (";".toList ++ rest))
      = some (Nat.toDigits 10 value, ";".toList ++ rest) := by
    refine run_digits (fun c hc => ?_) value
    cases hc
    rfl
  unfold constantPattern
  rw [hlit]
  simp only [Option.bind_eq_bind, Option.bind_some, hname, lit_append, hdigits]

/-- **The declarations of the sections** are found, and nothing else, by a
pattern that passes over all other pieces. -/
theorem findAll_constantPattern {start : String} {valueOf : Placed → ℕ}
    (pre post : Placed → List Char)
    (hpieces : ∀ s ∈ openText :: block tailLines :: ['\n'] :: headPieces,
      skipsLit ('c' :: declarationText start) s = true)
    (hhex : ∀ i < 16, ∀ j < 16, skipsLit ('c' :: declarationText start)
      ['0', 'x', hexDigit "0123456789abcdef" i, hexDigit "0123456789abcdef" j, ','] = true)
    (hlines : ∀ p, block (sectionLines p)
      = pre p ++ (constantLine (start.toList ++ p.name.name.toList) (valueOf p) ++ post p))
    (hpre : ∀ p, Skips (constantPattern start) (pre p))
    (hpost : ∀ p, Skips (constantPattern start) (post p))
    (hdims : ∀ d ∈ b.dimensions, d.1 ∈ dimensionNames) :
    findAll (constantPattern start) b.text
      = b.layout.map fun p => (p.name.name.toList, Nat.toDigits 10 (valueOf p)) := by
  have hm := constantPattern_prefix start
  obtain ⟨hopen, htail, hend, hhead⟩ : _ ∧ _ ∧ _ ∧ _ := by
    simpa only [List.forall_mem_cons] using hpieces
  have halign : Skips (constantPattern start) alignasText :=
    skips_of_skipsLit hm (hhead _ (by simp [headPieces]))
  have hrest : Finds (constantPattern start) (alignasText ++ (openText ++
      (arrayText b.compressed ++ (block tailLines ++ [])))) [] :=
    ((((Finds.nil rfl).skip (skips_of_skipsLit hm htail)).skip
      (skips_arrayText hm hend hhex b.compressed)).skip (skips_of_skipsLit hm hopen)).skip halign
  have hsection : ∀ p rest l, Finds (constantPattern start) rest l →
      Finds (constantPattern start) (block (sectionLines p) ++ rest)
        ([(p.name.name.toList, Nat.toDigits 10 (valueOf p))] ++ l) := by
    intro p rest l hrest
    have hpos : 0 < (constantLine (start.toList ++ p.name.name.toList) (valueOf p)).length := by
      unfold constantLine
      rw [List.length_append]
      exact Nat.add_pos_right _ (by decide)
    rw [hlines, List.append_assoc, List.append_assoc]
    refine Finds.skip (hpre p) (Finds.match (constantPattern_constantLine start p.name _ _) ?_
      (Finds.skip (hpost p) hrest))
    simp only [List.length_append]
    omega
  have hlayout := Finds.flatMap (fun p (_ : p ∈ b.layout) => hsection p) hrest
  rw [List.append_nil, List.append_nil, ← List.map_eq_flatMap] at hlayout
  rw [text_eq]
  exact (Finds.skip (skips_headText hm hhead hdims) hlayout).findAll_eq

theorem block_sectionLines (p : Placed) :
    block (sectionLines p) = constantLine ("off_".toList ++ p.name.name.toList) p.off ++
      ('\n' :: (constantLine ("count_".toList ++ p.name.name.toList) p.count ++ ['\n'])) := by
  rw [sectionLines, block_cons, block_cons, block_nil]

/-- Neither of the two declarations begins like the other. -/
theorem skipsLit_section : ∀ s : BlobSection,
    skipsLit ('c' :: declarationText "off_")
      ("constexpr size_t ".toList ++ ("count_".toList ++ s.name.toList) ++ " = ".toList) = true ∧
    skipsLit ('c' :: declarationText "count_")
      ("constexpr size_t ".toList ++ ("off_".toList ++ s.name.toList) ++ " = ".toList) = true := by
  intro s
  cases s <;> decide +kernel

theorem findAll_off (hdims : ∀ d ∈ b.dimensions, d.1 ∈ dimensionNames) :
    findAll (constantPattern "off_") b.text
      = b.layout.map fun p => (p.name.name.toList, Nat.toDigits 10 p.off) := by
  have hm := constantPattern_prefix "off_"
  refine findAll_constantPattern (fun _ => [])
    (fun p => ['\n'] ++ (constantLine ("count_".toList ++ p.name.name.toList) p.count ++ ['\n']))
    (by decide +kernel) (by decide +kernel) block_sectionLines (fun _ => trivial) (fun p => ?_)
    hdims
  exact (skips_of_skipsLit hm (by decide +kernel)).append
    (skips_constantLine hm (skipsLit_section p.name).1 p.count)

theorem findAll_count (hdims : ∀ d ∈ b.dimensions, d.1 ∈ dimensionNames) :
    findAll (constantPattern "count_") b.text
      = b.layout.map fun p => (p.name.name.toList, Nat.toDigits 10 p.count) := by
  have hm := constantPattern_prefix "count_"
  refine findAll_constantPattern
    (fun p => constantLine ("off_".toList ++ p.name.name.toList) p.off ++ ['\n']) (fun _ => ['\n'])
    (by decide +kernel) (by decide +kernel) (fun p => ?_) (fun p => ?_) (fun p => ?_) hdims
  · rw [block_sectionLines, List.append_assoc]
    rfl
  · exact skips_constantLine hm (skipsLit_section p.name).2 p.off
  · exact skips_of_skipsLit hm (by decide +kernel)

theorem nodup_names : (BlobSection.order.map fun s => s.name.toList).Nodup := by
  decide +kernel

theorem name_injective : Function.Injective fun s : BlobSection => s.name.toList :=
  fun s t h => List.inj_on_of_nodup_map nodup_names s.mem_order t.mem_order h

/-- In a table without repetitions an entry is found. -/
theorem lookup_of_mem {κ ν : Type} [BEq κ] [LawfulBEq κ] {l : List (κ × ν)} {k : κ} {v : ν}
    (hnodup : (l.map Prod.fst).Nodup) (h : (k, v) ∈ l) : l.lookup k = some v := by
  obtain ⟨l₁, l₂, rfl⟩ := List.append_of_mem h
  refine List.lookup_eq_some_iff.mpr ⟨l₁, l₂, rfl, fun e he => ?_⟩
  rw [List.map_append, List.nodup_append] at hnodup
  rw [bne_iff_ne]
  rintro rfl
  exact hnodup.2.2 _ (List.mem_map_of_mem he) _ List.mem_cons_self rfl

/-- **The constants** are those of the layout. -/
theorem constantOf_eq {start : String} {valueOf : Placed → ℕ} {q : Placed}
    (hfind : findAll (constantPattern start) b.text
      = b.layout.map fun p => (p.name.name.toList, Nat.toDigits 10 (valueOf p)))
    (hnodup : (b.layout.map Placed.name).Nodup) (hq : q ∈ b.layout) :
    constantOf start b.text q.name = some (valueOf q) := by
  have hkeys : (((findAll (constantPattern start) b.text).reverse).map Prod.fst).Nodup := by
    rw [hfind, List.map_reverse, List.nodup_reverse, List.map_map]
    have h := hnodup.map name_injective
    rwa [List.map_map] at h
  have hmem : (q.name.name.toList, Nat.toDigits 10 (valueOf q)) ∈
      (findAll (constantPattern start) b.text).reverse := by
    rw [hfind, List.mem_reverse]
    exact List.mem_map_of_mem (f := fun p : Placed => (p.name.name.toList,
      Nat.toDigits 10 (valueOf p))) hq
  rw [constantOf, lookup_of_mem hkeys hmem, Option.map_some, intOf, Nat.ofDigitChars_ten_toDigits]

/-! ### The payload -/

theorem sizePattern_prefix (s : List Char) (h : sizePattern s ≠ none) :
    "uncompressed_size = ".toList <+: s := by
  refine prefix_of_lit fun hnone => h ?_
  rw [sizePattern, hnone]
  rfl

theorem compressedPattern_prefix (s : List Char) (h : compressedPattern s ≠ none) :
    'c' :: "ompressed[] = \x7b".toList <+: s := by
  refine prefix_of_lit fun hnone => h ?_
  have hlit : lit "compressed[] = \x7b".toList s = none := hnone
  rw [compressedPattern, hlit]
  rfl

/-- The size is found. -/
theorem search_sizePattern (b : Blob) :
    search sizePattern b.text = some (Nat.toDigits 10 b.uncompressedSize) := by
  have hline : block [constantLine "uncompressed_size".toList b.uncompressedSize]
      = "constexpr size_t ".toList ++ ("uncompressed_size = ".toList ++
        (Nat.toDigits 10 b.uncompressedSize ++ ";\n".toList)) := by
    have hname : "uncompressed_size".toList ++ " = ".toList = "uncompressed_size = ".toList := by
      rfl
    rw [← hname, block, List.flatMap_singleton]
    unfold constantLine
    simp only [List.append_assoc]
    rfl
  have hmatch : ∀ rest, sizePattern ("uncompressed_size = ".toList ++
      (Nat.toDigits 10 b.uncompressedSize ++ (";\n".toList ++ rest)))
      = some (Nat.toDigits 10 b.uncompressedSize, ";\n".toList ++ rest) := by
    intro rest
    rw [sizePattern, lit_append, Option.bind_some]
    refine run_digits (fun c hc => ?_) _
    cases hc
    rfl
  have hfixed : Skips sizePattern (block fixedLines ++ "constexpr size_t ".toList) :=
    skips_of_skipsLit sizePattern_prefix (by decide +kernel)
  rw [text_eq, headText, hline]
  simp only [List.append_assoc]
  rw [← List.append_assoc, search_of_skips hfixed, search_of_match (hmatch _)]

theorem not_mem_hexByte (b : UInt8) : '\x7d' ∉ hexByte b := by
  have hlt := b.toNat_lt
  have hhigh := (hexDigit_lower (b.toNat / 16) (by omega)).2.2
  have hlow := (hexDigit_lower (b.toNat % 16) (by omega)).2.2
  rw [hexByte, List.mem_cons, List.mem_cons, List.mem_pair]
  rintro (h | h | h | h)
  · cases h
  · cases h
  · exact hhigh h.symm
  · exact hlow h.symm

theorem not_mem_arrayText (data : Bytes) : '\x7d' ∉ arrayText data := by
  obtain ⟨chunks, htext, -⟩ := arrayText_eq data
  rw [htext, List.mem_cons, not_or]
  refine ⟨by decide, fun h => ?_⟩
  obtain ⟨line, hline, h⟩ := List.mem_flatMap.mp h
  obtain ⟨chunk, -, rfl⟩ := List.mem_map.mp hline
  rcases List.mem_append.mp h with h | h
  · obtain ⟨b, -, h⟩ := List.mem_flatMap.mp h
    rcases List.mem_append.mp h with h | h
    · exact not_mem_hexByte b h
    · exact absurd h (by decide)
  · exact absurd h (by decide)

theorem skipsLit_sections : ∀ s : BlobSection, ∀ start ∈ ["off_", "count_"],
    skipsLit ('c' :: "ompressed[] = \x7b".toList)
      ("constexpr size_t ".toList ++ (start.toList ++ s.name.toList) ++ " = ".toList) = true := by
  intro s
  cases s <;> decide +kernel

/-- The bytes are what is between the braces. -/
theorem search_compressedPattern (hdims : ∀ d ∈ b.dimensions, d.1 ∈ dimensionNames) :
    search compressedPattern b.text = some (arrayText b.compressed) := by
  have hm := compressedPattern_prefix
  have hpieces : ∀ s ∈ headPieces, skipsLit ('c' :: "ompressed[] = \x7b".toList) s = true := by
    decide +kernel
  have hhead : Skips compressedPattern (headText b) := skips_headText hm hpieces hdims
  have hlayout : Skips compressedPattern (b.layout.flatMap fun p => block (sectionLines p)) := by
    refine Skips.flatMap fun p _ => ?_
    rw [sectionLines, ← List.singleton_append, block_append]
    exact (skips_line hm (skipsLit_sections p.name "off_" (by decide)) p.off).append
      (skips_line hm (skipsLit_sections p.name "count_" (by decide)) p.count)
  have halign : Skips compressedPattern alignasText :=
    skips_of_skipsLit hm (hpieces _ (by simp [headPieces]))
  have hmatch : ∃ rest, compressedPattern (openText ++ (arrayText b.compressed ++ block tailLines))
      = some (arrayText b.compressed, rest) := by
    obtain ⟨rest, htail⟩ : ∃ rest, block tailLines = "\x7d;".toList ++ rest :=
      ⟨block ([] :: tailLines.tail), rfl⟩
    have hlit : lit "compressed[] = \x7b".toList (openText ++ (arrayText b.compressed ++
        block tailLines)) = some (arrayText b.compressed ++ block tailLines) := lit_append _ _
    refine ⟨rest, ?_⟩
    unfold compressedPattern
    rw [hlit, Option.bind_some, htail]
    exact upTo_append (not_mem_arrayText b.compressed) rest
  obtain ⟨rest, hmatch⟩ := hmatch
  rw [text_eq, search_of_skips hhead, search_of_skips hlayout, search_of_skips halign,
    search_of_match hmatch]

theorem mapM_byteOf (data : Bytes) : (data.map hexDigits).mapM byteOf = some data := by
  induction data with
  | nil => rfl
  | cons b data ih =>
    rw [List.map_cons, List.mapM_cons, byteOf_hexDigits, ih]
    rfl

/-- **The payload** is decompressed from the bytes that were written. -/
theorem parseBlobMeta_text {z : Zlib} {plain : Bytes}
    (hz : z.decompress b.compressed = some plain) (hsize : b.uncompressedSize = plain.length)
    (hdims : ∀ d ∈ b.dimensions, d.1 ∈ dimensionNames) :
    parseBlobMeta z b.text = some plain := by
  have hbytes : (findAll hexPattern (arrayText b.compressed)).mapM byteOf = some b.compressed := by
    rw [(finds_arrayText b.compressed).findAll_eq, mapM_byteOf]
  have hus : intOf (Nat.toDigits 10 b.uncompressedSize) = plain.length := by
    rw [intOf, Nat.ofDigitChars_ten_toDigits, hsize]
  rw [parseBlobMeta]
  simp only [Option.bind_eq_bind, Option.bind_some, search_compressedPattern hdims, hbytes,
    search_sizePattern, hz, hus, ne_eq, not_true_eq_false, if_false]

end PackTables

end AdaIdna
