/-
AdaIdna/PublishedTables.lean

From the sources of the tables to the program.

Compiled together, table_blob.inc, mapping_tables.cpp and table_store.hpp make
the tables that the program reads: pointers into the buffer that
`ensure_tables` publishes, sizes from the constants of the blob
(`publishedTables`).  They hold what was packed, on hosts of either byte order
(`Published.holds_mapping` and the like).

So whatever scripts were run, in whatever order: if the last successful ones
read a source, the assertions of table_store.hpp hold, every lookup answers from
this source, and `to_ascii` is its ToASCII (`answers_executeAll`).
-/
import AdaIdna.UnicodeDataFit
import AdaIdna.Uts46

namespace AdaIdna

namespace TableBlob

open Lanes PackTables Buffer Generators Overwrite
open IdnaTable hiding blockBits blockSize Holds
open UnicodeDataTable

/-! ### The tables of the program -/

/-- `p[i]`, where `p` points to a section of the buffer. -/
def elementAt (o : ByteOrder) (b : Blob) (buffer : Bytes) (s : BlobSection) (i : ℕ) : ℕ :=
  nativeLoad o (pointerWidth s) buffer (off b s + pointerWidth s * i)

/-- `p[i]`, where `p` is a `range_pair_ptr`. -/
def pairAt (o : ByteOrder) (b : Blob) (buffer : Bytes) (s : BlobSection) (i : ℕ) : ℕ × ℕ :=
  (elementAt o b buffer s (2 * i), elementAt o b buffer s (2 * i + 1))

/-- What the program reads once `ensure_tables` has returned, if that was not
for want of memory or time. -/
def publishedTables (o : ByteOrder) (constants : MappingConstants) (b : Blob) : TableData :=
  let buffer := (ensureTablesBuffer o b).getD []
  { ensureTables := (ensureTablesBuffer o b).isSome
    byteOrder := o
    idnaStage1 := elementAt o b buffer .idnaStage1
    idnaStage2 := elementAt o b buffer .idnaStage2
    idnaBoolBlocks := elementAt o b buffer .idnaBoolBlocks
    idnaUtf8Mappings := region buffer (off b .idnaUtf8Mappings) (count b .idnaUtf8Mappings)
    idnaLowRangeEnd := constants.lowRangeEnd
    idnaHighIgnoredStart := constants.highIgnoredStart
    idnaHighIgnoredEnd := constants.highIgnoredEnd
    decompositionIndex := elementAt o b buffer .decompositionIndex
    decompositionBlockFlat := elementAt o b buffer .decompositionBlock
    decompositionData := elementAt o b buffer .decompositionData
    decompositionDataSize := count b .decompositionData
    kDecompBlockRows := dimension b "decomposition_block_rows"
    cccIndex := elementAt o b buffer .cccIndex
    cccBlockFlat := elementAt o b buffer .cccBlock
    kCccBlockRows := dimension b "ccc_block_rows"
    compositionIndex := elementAt o b buffer .compositionIndex
    compositionBlockFlat := elementAt o b buffer .compositionBlock
    compositionData := elementAt o b buffer .compositionData
    compositionDataSize := count b .compositionData
    kCompBlockRows := dimension b "composition_block_rows"
    dirStart := elementAt o b buffer .dirStart
    dirFinal := elementAt o b buffer .dirFinal
    dirValue := elementAt o b buffer .dirValue
    dirTableCount := dimension b "dir_table_count"
    combiningRanges := pairAt o b buffer .combiningFlat
    combiningRangeCount := dimension b "combining_range_count"
    joiningStart := elementAt o b buffer .joiningStart
    joiningFinal := elementAt o b buffer .joiningFinal
    joiningValue := elementAt o b buffer .joiningValue
    joiningTableCount := dimension b "joining_table_count" }

/-- The pointers and counts of the identifier tables; they are null until the
tables are ready. -/
def publishedIds (o : ByteOrder) (b : Blob) : IdTables where
  idStart := (ensureTablesBuffer o b).map fun buffer => pairAt o b buffer .idStartFlat
  idStartCount := dimension b "id_start_count"
  idContinue := (ensureTablesBuffer o b).map fun buffer => pairAt o b buffer .idContinueFlat
  idContinueCount := dimension b "id_continue_count"

/-! ### What they hold -/

variable {z : Zlib} {vals : BlobSection → List ℕ} {b : Blob} {o : ByteOrder} {buffer : Bytes}
  {constants : MappingConstants}

/-- The buffer holds the values. -/
structure Published (o : ByteOrder) (vals : BlobSection → List ℕ) (b : Blob) (buffer : Bytes) :
    Prop where
  ensured : ensureTablesBuffer o b = some buffer
  element : ∀ s i v, (vals s)[i]? = some v → elementAt o b buffer s i = v
  bytes : region buffer (off b .idnaUtf8Mappings) (count b .idnaUtf8Mappings)
    = (vals .idnaUtf8Mappings).map toChar
  count : ∀ s, count b s = (vals s).length
  dimensions : dimensionsOf (fun s => some (vals s)) = some b.dimensions
  dimension : ∀ d ∈ b.dimensions, dimension b d.1 = d.2

/-- **What was packed is published.** -/
theorem exists_published (hz : z.Correct)
    (hb : writeBlob (fun s => some (vals s)) z = some b) (o : ByteOrder) :
    ∃ buffer, Published o vals b buffer := by
  obtain ⟨payload, h⟩ := exists_writtenFor hz.decompress_compress hb
  have hall := (exists_writeBlob_iff_admissible hz.decompress_compress).mp ⟨b, hb⟩
  have hfits : PackTables.Fits vals := fits_iff.mpr fun s => (hall s).1
  have hinfl : inflateRaw b.compressed b.uncompressedSize = .ok payload := by
    rw [h.compressed, h.uncompressedSize]
    exact hz.inflateRaw payload
  have hu8 : (BlobSection.idnaUtf8Mappings, Kind.u8) ∈ sectionOrder := by decide
  refine ⟨_, ensureTablesBuffer_eq hinfl h.uncompressedSize h.uncompressedCrc32 o,
    fun s i v hv => nativeLoad_convert h.laid hfits hv, ?_, fun s => (h.section s).1, h.dimensions,
    h.dimension_eq⟩
  obtain ⟨p, hp, hname, hkind, hoff, hcount⟩ := exists_place h.laid hu8
  have hregion := region_convert (o := o) h.laid hp
  rw [hkind, hname, hostPacked_u8, Kind.width, Nat.mul_one] at hregion
  rw [hoff, hcount, hregion, packed, List.map_eq_flatMap]
  refine List.flatMap_congr fun v hv => ?_
  have hlt : v < 2 ^ 8 := (hall .idnaUtf8Mappings).1 v hv
  show (unpack 8 1 v).map toChar = [toChar v]
  rw [unpack, Nat.mod_eq_of_lt hlt]
  rfl

section Published

variable (h : Published o vals b buffer)
include h

theorem Published.buffer_eq : (ensureTablesBuffer o b).getD [] = buffer := by
  rw [h.ensured, Option.getD_some]

/-- An array that is published, and the list that was packed. -/
theorem Published.element_of_eq {s : BlobSection} {l : List ℕ} (hl : vals s = l) {i v : ℕ}
    (hv : l[i]? = some v) :
    elementAt o b ((ensureTablesBuffer o b).getD []) s i = v := by
  rw [h.buffer_eq]
  exact h.element s i v (hl ▸ hv)

theorem Published.pair_of_eq {s : BlobSection} {l : List ℕ} (hl : vals s = l) {i v w : ℕ}
    (hv : l[2 * i]? = some v) (hw : l[2 * i + 1]? = some w) :
    pairAt o b ((ensureTablesBuffer o b).getD []) s i = (v, w) :=
  congrArg₂ Prod.mk (h.element_of_eq hl hv) (h.element_of_eq hl hw)

/-- The dimensions that the program reads. -/
theorem Published.dimensions_eq :
    TableBlob.dimension b "decomposition_block_rows" = (vals .decompositionBlock).length / 257 ∧
      TableBlob.dimension b "ccc_block_rows" = (vals .cccBlock).length / 256 ∧
      TableBlob.dimension b "composition_block_rows" = (vals .compositionBlock).length / 257 ∧
      TableBlob.dimension b "id_continue_count" = (vals .idContinueFlat).length / 2 ∧
      TableBlob.dimension b "id_start_count" = (vals .idStartFlat).length / 2 ∧
      TableBlob.dimension b "dir_table_count" = (vals .dirStart).length ∧
      TableBlob.dimension b "combining_range_count" = (vals .combiningFlat).length / 2 ∧
      TableBlob.dimension b "joining_table_count" = (vals .joiningStart).length := by
  have hdim := h.dimension
  rw [of_dimensionsOf h.dimensions] at hdim
  simp only [List.forall_mem_cons] at hdim
  obtain ⟨hdRows, -, hcRows, -, hpRows, -, hcont, hstart, hdir, hcomb, hjoin, -⟩ := hdim
  exact ⟨hdRows, hcRows, hpRows, hcont, hstart, hdir, hcomb, hjoin⟩

/-- **The mapping tables** are those of idna_table.py. -/
theorem Published.holds_mapping {g : Generated}
    (hg : ∀ item ∈ mappingSections g, vals item.1 = item.2) :
    IdnaTable.Holds (publishedTables o (mappingConstants g) b) g := by
  simp only [mappingSections, List.forall_mem_cons] at hg
  obtain ⟨hstage1, hmixed, hbool, hutf8, -⟩ := hg
  refine ⟨?_, rfl, rfl, rfl, fun i v => h.element_of_eq hstage1,
    fun i v => h.element_of_eq hmixed, fun i v => h.element_of_eq hbool, ?_⟩
  · show (ensureTablesBuffer o b).isSome = true
    rw [h.ensured]
    rfl
  · show region ((ensureTablesBuffer o b).getD []) _ _ = g.utf8Table
    rw [h.buffer_eq, h.bytes, hutf8, map_toChar_map_toNat]

variable {d p : Sections} {k : List ℕ × List ℕ} {v : ValiditySections}
  (hsections : ∀ item ∈ unicodeSections d k p v, vals item.1 = item.2)
include hsections

/-- **The normalization tables** are those of unicode_data_table.py. -/
theorem Published.holds_unicode (constants : MappingConstants) :
    UnicodeDataTable.Holds (publishedTables o constants b) d k p := by
  simp only [unicodeSections, List.forall_mem_cons] at hsections
  obtain ⟨hdi, hdb, hdd, hki, hkb, hpi, hpb, hpd, -⟩ := hsections
  obtain ⟨hdRows, hcRows, hpRows, -⟩ := h.dimensions_eq
  refine ⟨fun i v => h.element_of_eq hdi, fun i v => h.element_of_eq hdb,
    fun i v => h.element_of_eq hdd, ?_, ?_, fun i v => h.element_of_eq hki,
    fun i v => h.element_of_eq hkb, ?_, fun i v => h.element_of_eq hpi,
    fun i v => h.element_of_eq hpb, fun i v => h.element_of_eq hpd, ?_, ?_⟩
  · exact (h.count _).trans (congrArg List.length hdd)
  · exact hdRows.trans (congrArg (List.length · / 257) hdb)
  · exact hcRows.trans (congrArg (List.length · / 256) hkb)
  · exact (h.count _).trans (congrArg List.length hpd)
  · exact hpRows.trans (congrArg (List.length · / 257) hpb)

/-- **And so are the validity tables.** -/
theorem Published.holds_validity (constants : MappingConstants) :
    HoldsValidity (publishedTables o constants b) v := by
  simp only [unicodeSections, List.forall_mem_cons] at hsections
  obtain ⟨-, -, -, -, -, -, -, -, hmarks, hs, hf, hval, js, jf, jval, -⟩ := hsections
  obtain ⟨-, -, -, -, -, hdir, hcomb, hjoin⟩ := h.dimensions_eq
  refine ⟨fun i a c => h.pair_of_eq hmarks, ?_, fun i a => h.element_of_eq hs,
    fun i a => h.element_of_eq hf, fun i a => h.element_of_eq hval, ?_,
    fun i a => h.element_of_eq js, fun i a => h.element_of_eq jf,
    fun i a => h.element_of_eq jval, ?_⟩
  · exact hcomb.trans (congrArg (List.length · / 2) hmarks)
  · exact hdir.trans (congrArg List.length hs)
  · exact hjoin.trans (congrArg List.length js)

end Published

/-! ### Main result -/

theorem getElem?_flatOf {ranges : List (ℕ × ℕ)} {i : ℕ} {r : ℕ × ℕ} (h : ranges[i]? = some r) :
    (flatOf ranges)[2 * i]? = some r.1 ∧ (flatOf ranges)[2 * i + 1]? = some r.2 := by
  induction ranges generalizing i with
  | nil => simp at h
  | cons r' ranges ih =>
    cases i with
    | zero =>
      obtain rfl := Option.some.inj h
      exact ⟨rfl, rfl⟩
    | succ i => exact ih h

theorem length_flatOf (ranges : List (ℕ × ℕ)) : (flatOf ranges).length = 2 * ranges.length := by
  induction ranges with
  | nil => rfl
  | cons r ranges ih =>
    rw [flatOf, List.flatMap_cons, List.length_append, ← flatOf, ih, List.length_cons]
    exact (Nat.mul_succ 2 _ ▸ Nat.add_comm 2 _)

/-- **The identifier tables** are those of derived_table.py. -/
theorem Published.holds_identifiers (h : Published o vals b buffer)
    {idContinue idStart : List (ℕ × ℕ)} (hcontinue : vals .idContinueFlat = flatOf idContinue)
    (hstart : vals .idStartFlat = flatOf idStart) :
    HoldsRanges idContinue (publishedIds o b).idContinue (publishedIds o b).idContinueCount ∧
      HoldsRanges idStart (publishedIds o b).idStart (publishedIds o b).idStartCount := by
  obtain ⟨-, -, -, hcont, hst, -⟩ := h.dimensions_eq
  have hpair : ∀ {s : BlobSection} {ranges : List (ℕ × ℕ)}, vals s = flatOf ranges →
      ∀ i r, ranges[i]? = some r → pairAt o b buffer s i = r := by
    intro s ranges hs i r hr
    have hget := getElem?_flatOf hr
    rw [← h.buffer_eq]
    exact h.pair_of_eq hs hget.1 hget.2
  have hmap : ∀ s, (ensureTablesBuffer o b).map (fun buffer => pairAt o b buffer s)
      = some (pairAt o b buffer s) := by
    intro s
    rw [h.ensured]
    rfl
  refine ⟨⟨?_, _, hmap _, hpair hcontinue⟩, ⟨?_, _, hmap _, hpair hstart⟩⟩
  · refine hcont.trans ?_
    rw [hcontinue, length_flatOf, Nat.mul_div_cancel_left _ (by decide)]
  · refine hst.trans ?_
    rw [hstart, length_flatOf, Nat.mul_div_cancel_left _ (by decide)]

end TableBlob

namespace Source

open Lanes Generators TableBlob PackTables Overwrite

/-- The last successful run of each generator has read the source, and no
mapping table of the run is out of proportion. -/
structure LastGiven (S : Source) (cs : List Command) : Prop where
  mapping : lastRun .mapping cs = some (.idnaTable S.entries)
  identifiers : lastRun .identifiers cs = some (.derivedTable S.idContinue S.idStart)
  unicode : lastRun .unicode cs
    = some (.unicodeDataTable S.ucd S.exclusions S.joiningTypes S.limit)
  entries : ∀ entries, .idnaTable entries ∈ cs →
    IdnaTable.WellFormed entries ∧ (IdnaTable.mixedBlocks entries).card ≤ 1024

variable {S : Source} {z : Zlib} {C : Contents} {files : Files} {cs : List Command} {c : Command}
  {g : Generator}

/-- What the last run of a generator has packed is there. -/
theorem sectionAfter_of_lastRun (h : lastRun g cs = some c) (C : Contents) :
    ∃ items, c.generated = some items ∧ items.map Prod.fst = namesOf (some g) ∧
      ∀ item ∈ items, sectionAfter C cs item.1 = item.2 := by
  have hmem := List.mem_of_getLast? h
  rw [List.mem_filter, Bool.and_eq_true, beq_iff_eq] at hmem
  obtain ⟨-, hsome, hgenerator⟩ := hmem
  obtain ⟨new, hnew⟩ := Option.isSome_iff_exists.mp hsome
  have hgen := generated_of_change hnew
  have hkeys : new.items.map Prod.fst = namesOf (some g) := by
    rw [keys_generated hgen, hgenerator]
  refine ⟨new.items, hgen, hkeys, fun item hitem => ?_⟩
  have howner : some (generatorOf item.1) = some g := by
    rw [← mem_namesOf, ← hkeys]
    exact List.mem_map_of_mem hitem
  rw [sectionAfter, howner, lastOf_changesOf, h, Option.bind_some, hnew]
  refine overwrite_eq_of_mem C.val ?_ hitem
  rw [hkeys]
  exact nodup_namesOf _

/-- All sections have been generated, and have the shape that is asserted. -/
theorem LastGiven.shaped (h : S.LastGiven cs) (C : Contents) : Shaped (sectionAfter C cs) := by
  obtain ⟨mapping, hmgen, hmkeys, hm⟩ := sectionAfter_of_lastRun h.mapping C
  obtain ⟨ids, higen, hikeys, hi⟩ := sectionAfter_of_lastRun h.identifiers C
  obtain ⟨unicode, hugen, hukeys, hu⟩ := sectionAfter_of_lastRun h.unicode C
  have hall : sectionAfter C cs
      = overwrite (overwrite (overwrite emptyContents.val mapping) ids) unicode := by
    funext s
    have hmem : ∀ {g} {items : List (BlobSection × List ℕ)},
        List.map Prod.fst items = namesOf (some g) →
        (s ∈ List.map Prod.fst items ↔ generatorOf s = g) := by
      intro g items hkeys
      rw [hkeys, mem_namesOf, Option.some.injEq]
    cases hs : generatorOf s with
    | unicode => exact hu _ (overwrite_mem _ ((hmem hukeys).mpr hs))
    | identifiers =>
      rw [overwrite_of_not_mem _ (by rw [hmem hukeys, hs]; decide)]
      exact hi _ (overwrite_mem _ ((hmem hikeys).mpr hs))
    | mapping =>
      rw [overwrite_of_not_mem _ (by rw [hmem hukeys, hs]; decide),
        overwrite_of_not_mem _ (by rw [hmem hikeys, hs]; decide)]
      exact hm _ (overwrite_mem _ ((hmem hmkeys).mpr hs))
  rw [hall]
  exact shaped_generated hugen (shaped_generated higen
    (shaped_generated hmgen shaped_emptyContents))

/-- **What is published after a run** holds the source. -/
theorem LastGiven.exists_published (hz : z.Correct) (hC : Packed z C files.blob)
    (h : S.LastGiven cs) (o : ByteOrder) :
    ∃ b, (executeAll z files cs).blob = b.text ∧ StaticAsserts b ∧
      S.HeldBy (publishedTables o (executeAll z files cs).constants b) (publishedIds o b) := by
  obtain ⟨b, hb, hblob⟩ := packed_executeAll hz.decompress_compress hC cs
  rw [val_applyAll] at hb
  obtain ⟨payload, hwritten⟩ := exists_writtenFor hz.decompress_compress hb
  have hrows := fun s => (((exists_writeBlob_iff_admissible hz.decompress_compress).mp ⟨b, hb⟩) s).2
  obtain ⟨buffer, hbuffer⟩ := TableBlob.exists_published hz hb o
  obtain ⟨mapping, hmgen, -, hm⟩ := sectionAfter_of_lastRun h.mapping C
  obtain ⟨ids, higen, -, hi⟩ := sectionAfter_of_lastRun h.identifiers C
  obtain ⟨unicode, hugen, -, hu⟩ := sectionAfter_of_lastRun h.unicode C
  obtain ⟨g, hg, rfl⟩ := Option.map_eq_some_iff.mp hmgen
  obtain rfl := Option.some.inj higen
  obtain ⟨d, k, p, v, hd, hk, hp, hv, rfl⟩ := of_buildSections hugen
  have hconstants : (executeAll z files cs).constants = mappingConstants g := by
    rw [constants_executeAll hz.decompress_compress hC cs h.entries, h.mapping, Option.bind_some,
      Command.constants, hg]
    rfl
  simp only [List.forall_mem_cons] at hi
  have hids := hbuffer.holds_identifiers hi.1 hi.2.1
  refine ⟨b, hblob, (hwritten.staticAsserts_iff hrows).mpr (h.shaped C), ?_⟩
  rw [hconstants]
  exact
    { ensured := by
        show (ensureTablesBuffer o b).isSome = true
        rw [hbuffer.ensured]
        rfl
      mapping := ⟨g, hg, hbuffer.holds_mapping hm⟩
      unicode := ⟨d, k, p, v, hd, hk, hp, hv, hbuffer.holds_unicode hu _,
        hbuffer.holds_validity hu _⟩
      idContinue := hids.1
      idStart := hids.2 }

/-- **From the sources to the program**: whatever scripts have been run, if the
last ones of each kind have read a source, then the files compile, and on hosts
of either byte order the lookups answer from the source, and `to_ascii` is its
ToASCII. -/
theorem answers_executeAll (hz : z.Correct) (hC : Packed z C files.blob) (hs : S.Standard)
    (h : S.LastGiven cs) (o : ByteOrder) :
    ∃ b, (executeAll z files cs).blob = b.text ∧ StaticAsserts b ∧
      ∃ T : Tables, T.toTableData = publishedTables o (executeAll z files cs).constants b ∧
        S.Answers T (publishedIds o b) ∧
        ∀ x y, isAsciiBytes x = false → (AdaIdna.toAscii T x = (true, y) ↔ S.ToAscii x y) := by
  obtain ⟨b, hblob, hassert, hheld⟩ := h.exists_published hz hC o
  obtain ⟨T, hT⟩ := hheld.exists_tables hs
  rw [← hT] at hheld
  exact ⟨b, hblob, hassert, T, hT, hheld.answers hs,
    fun x y hx => toAscii_iff hs hheld hx⟩

/-- One run of each generator. -/
def fewCommands : List Command :=
  [.idnaTable fewSource.entries,
    .unicodeDataTable fewSource.ucd fewSource.exclusions fewSource.joiningTypes fewSource.limit,
    .derivedTable fewSource.idContinue fewSource.idStart]

theorem lastGiven_fewSource : fewSource.LastGiven fewCommands := by
  have hcard : (IdnaTable.mixedBlocks fewSource.entries).card ≤ 1024 :=
    standard_fewSource.card_le.trans (by decide)
  have hmapping : (Command.idnaTable fewSource.entries).change.isSome = true := by
    refine (isSome_change (c := .idnaTable _) standard_fewSource.entries).mpr ⟨?_, hcard⟩
    exact Option.isSome_iff_exists.mp (by decide +kernel)
  have hunicode : (Command.unicodeDataTable fewSource.ucd fewSource.exclusions
      fewSource.joiningTypes fewSource.limit).change.isSome = true := by
    obtain ⟨d, k, p, v, hd, hk, hp, hv⟩ := exists_build_fewSource
    refine (isSome_change (c := .unicodeDataTable _ _ _ _) ?_).mpr ⟨unicodeSections d k p v, ?_⟩
    · exact ⟨by decide, by decide, by decide, by decide, by decide, by decide⟩
    · rw [buildSections, hd, hk, hp, hv]
      rfl
  have hidentifiers : (Command.derivedTable fewSource.idContinue
      fewSource.idStart).change.isSome = true :=
    (isSome_change (c := .derivedTable _ _) trivial).mpr ⟨by decide, by decide⟩
  constructor
  · simp [fewCommands, lastRun, hmapping, hunicode, hidentifiers, Command.generator]
  · simp [fewCommands, lastRun, hmapping, hunicode, hidentifiers, Command.generator]
  · simp [fewCommands, lastRun, hmapping, hunicode, hidentifiers, Command.generator]
  · intro entries hmem
    obtain rfl : entries = fewSource.entries := by simpa [fewCommands] using hmem
    exact ⟨standard_fewSource.entries, hcard⟩

theorem answers_executeAll_few : ∃ text b T,
    (executeAll storedZlib ⟨⟨0, 0, 0⟩, text⟩ fewCommands).blob = b.text ∧
      Tables.toTableData T = publishedTables .big
        (executeAll storedZlib ⟨⟨0, 0, 0⟩, text⟩ fewCommands).constants b ∧
      AdaIdna.toAscii T [0xC3, 0x89] = (true, [0x78, 0x6E, 0x2D, 0x2D, 0x39, 0x63, 0x61]) := by
  obtain ⟨text, htext⟩ := exists_packed storedZlib_correct.decompress_compress emptyContents
  have hstart : Packed storedZlib emptyContents (Files.mk ⟨0, 0, 0⟩ text).blob := htext
  obtain ⟨b, hblob, -, T, hT, -, hascii⟩ := answers_executeAll storedZlib_correct hstart
    standard_fewSource lastGiven_fewSource .big
  exact ⟨text, b, T, hblob, hT, (hascii _ _ (by decide)).mpr toAscii_fewSource⟩

end Source

end AdaIdna
