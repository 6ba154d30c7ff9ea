/-
AdaIdna/SourceText.lean

From the files of the Unicode database to the program.

The scripts are run on texts here, as they are: what a generator makes of its
files is what it makes of what it reads in them (`Script.command`), and a
script that cannot read its files, or finds another version of Unicode named in
them, changes nothing.

A `Database` is what the files of a version of Unicode say, and `Texts.Spell`
that five texts say it, in any of the ways in which the formats let it be
written.  The readers then get what the database says (`parse_of_spell`).  So,
whatever scripts were run on whatever files, in whatever order: if the last
successful runs read these texts, the program answers from the database
(`answers_executeScripts`).
-/
import AdaIdna.IdnaText
import AdaIdna.PublishedTables
import AdaIdna.RangeText
import AdaIdna.UnicodeDataText

namespace AdaIdna

open LineText PackTables TableBlob Generators
open IdnaTable hiding Holds blockBits blockSize unicodeVersion versionMark getVersion
open UnicodeDataTable hiding Holds unicodeVersion versionMark
open DerivedTable hiding readLine readParts unicodeVersion versionMark getVersion

/-! ### Scripts -/

/-- A run of a script, with the texts of the files that it reads. -/
inductive Script where
  | packTables
  | idnaTable (tableData : List Char)
  | derivedTable (tableData : List Char)
  | unicodeDataTable (unicodeDataText compositionExclusionsText joiningTypeText : List Char)
      (limit : ℕ)

/-- What is done with what is read; `none` if the files cannot be read, or are
of another version. -/
def Script.command : Script → Option Command
  | .packTables => some .packTables
  | .idnaTable tableData => do
    let tableData ← getTable tableData
    let entries ← parseIdna tableData
    some (.idnaTable entries)
  | .derivedTable tableData => do
    let tableData ← getDerivedTable tableData
    let idStart ← parseIdStartSection tableData
    let idContinue ← parseIdContinueSection tableData
    some (.derivedTable idContinue idStart)
  | .unicodeDataTable unicodeDataText compositionExclusionsText joiningTypeText limit => do
    -- UnicodeData.txt has no comment that names its version
    let compositionExclusionsText ←
      getVersionedUcdFile compositionExclusionsStem compositionExclusionsText
    let joiningTypeText ← getVersionedUcdFile derivedJoiningTypeStem joiningTypeText
    let ucd ← initUnicodeData unicodeDataText
    let exclusions ← parseCompositionExclusions compositionExclusionsText
    let joiningTypes ← parseJoiningTypes joiningTypeText
    some (.unicodeDataTable ucd exclusions joiningTypes limit)

/-- The files after a script, and whether it came to its end. -/
def Script.execute (z : Zlib) (files : Files) (s : Script) : Files × Bool :=
  match s.command with
  | none => (files, false)
  | some c => c.execute z files

/-- The files after some scripts. -/
def executeScripts (z : Zlib) (files : Files) (ss : List Script) : Files :=
  ss.foldl (fun files s => (s.execute z files).1) files

/-- The sections of the blob that a script packs. -/
def Script.generator : Script → Option Generator
  | .packTables => none
  | .idnaTable _ => some .mapping
  | .derivedTable _ => some .identifiers
  | .unicodeDataTable _ _ _ _ => some .unicode

/-- Whether a script comes to its end, on any blob that was packed. -/
def Script.succeeds (s : Script) : Bool := (s.command.bind Command.change).isSome

/-- The last successful run of a generator. -/
def lastScript (g : Generator) (ss : List Script) : Option Script :=
  (ss.filter fun s => s.succeeds && s.generator == some g).getLast?

variable {z : Zlib} {files : Files} {s : Script} {ss : List Script} {c : Command} {g : Generator}

theorem executeScripts_eq (z : Zlib) (files : Files) (ss : List Script) :
    executeScripts z files ss = executeAll z files (ss.filterMap Script.command) := by
  induction ss generalizing files with
  | nil => rfl
  | cons s ss ih =>
    have hstep : executeScripts z files (s :: ss) = executeScripts z (s.execute z files).1 ss := rfl
    rw [hstep, ih, Script.execute]
    rcases hs : s.command with - | c
    · rw [List.filterMap_cons_none hs]
    · rw [List.filterMap_cons_some hs]
      rfl

theorem generator_command (h : s.command = some c) : c.generator = s.generator := by
  cases s with
  | packTables =>
    obtain rfl := Option.some.inj h
    rfl
  | idnaTable tableData =>
    obtain ⟨tableData, -, h⟩ := Option.bind_eq_some_iff.mp h
    obtain ⟨entries, -, h⟩ := Option.bind_eq_some_iff.mp h
    obtain rfl := Option.some.inj h
    rfl
  | derivedTable tableData =>
    obtain ⟨tableData, -, h⟩ := Option.bind_eq_some_iff.mp h
    obtain ⟨idStart, -, h⟩ := Option.bind_eq_some_iff.mp h
    obtain ⟨idContinue, -, h⟩ := Option.bind_eq_some_iff.mp h
    obtain rfl := Option.some.inj h
    rfl
  | unicodeDataTable unicodeDataText compositionExclusionsText joiningTypeText limit =>
    obtain ⟨compositionExclusionsText, -, h⟩ := Option.bind_eq_some_iff.mp h
    obtain ⟨joiningTypeText, -, h⟩ := Option.bind_eq_some_iff.mp h
    obtain ⟨ucd, -, h⟩ := Option.bind_eq_some_iff.mp h
    obtain ⟨exclusions, -, h⟩ := Option.bind_eq_some_iff.mp h
    obtain ⟨joiningTypes, -, h⟩ := Option.bind_eq_some_iff.mp h
    obtain rfl := Option.some.inj h
    rfl

/-- The last run of a generator, and what it read. -/
theorem lastRun_filterMap (g : Generator) (ss : List Script) :
    lastRun g (ss.filterMap Script.command) = (lastScript g ss).bind Script.command := by
  induction ss using List.reverseRecOn with
  | nil => rfl
  | append_singleton ss s ih =>
    have hlast : lastScript g (ss ++ [s])
        = if s.succeeds && s.generator == some g then some s else lastScript g ss := by
      rw [lastScript, List.filter_append, List.filter_cons]
      split_ifs with h
      · rw [List.filter_nil, List.getLast?_concat]
      · rw [List.filter_nil, List.append_nil, lastScript]
    rw [List.filterMap_append, hlast]
    rcases hs : s.command with - | c
    · have hsucceeds : s.succeeds = false := by
        rw [Script.succeeds, hs]
        rfl
      rw [List.filterMap_cons_none hs, List.filterMap_nil, List.append_nil, ih, hsucceeds]
      rfl
    · have hsucceeds : s.succeeds = c.change.isSome := by
        rw [Script.succeeds, hs, Option.bind_some]
      rw [List.filterMap_cons_some hs, List.filterMap_nil, lastRun_concat, ih, hsucceeds,
        generator_command hs]
      split_ifs
      · rw [Option.bind_some, hs]
      · rfl

/-! ### Texts -/

/-- What the files of a version of Unicode say. -/
structure Database where
  entries : List Entry
  rows : List Row
  exclusions : List (ℕ × ℕ)
  joining : List JoiningRow
  idContinue : List (ℕ × ℕ)
  idStart : List (ℕ × ℕ)

/-- The source that the generators make of it. -/
def Database.source (D : Database) (limit : ℕ) : Source where
  entries := D.entries
  ucd := fieldsOf D.rows
  exclusions := unionOf D.exclusions
  joiningTypes := D.joining.flatMap JoiningRow.items
  limit := limit
  idContinue := D.idContinue
  idStart := D.idStart

/-- The texts of the five files. -/
structure Texts where
  mappingTable : List Char
  unicodeData : List Char
  compositionExclusions : List Char
  joiningType : List Char
  derivedProperties : List Char

/-- The texts say what the database says. -/
structure Texts.Spell (F : Texts) (D : Database) : Prop where
  mappingTable : ∃ ls, F.mappingTable = unlines ls ∧ (∀ l ∈ ls, IsLine l) ∧
    SpellsEntries ls D.entries
  unicodeData : ∃ ls, F.unicodeData = unlines ls ∧ Spells ls D.rows
  compositionExclusions : ∃ ls, F.compositionExclusions = unlines ls ∧
    SpellsRanges ls D.exclusions
  joiningType : ∃ ls, F.joiningType = unlines ls ∧ SpellsJoining ls D.joining
  derivedProperties : SpellsDerived F.derivedProperties D.idStart D.idContinue

/-- The texts name the version that the scripts are for. -/
structure Texts.Versioned (F : Texts) : Prop where
  mappingTable : Marked IdnaTable.versionMark IdnaTable.unicodeVersion [] F.mappingTable
  compositionExclusions : Marked (UnicodeDataTable.versionMark compositionExclusionsStem)
    UnicodeDataTable.unicodeVersion ".txt".toList F.compositionExclusions
  joiningType : Marked (UnicodeDataTable.versionMark derivedJoiningTypeStem)
    UnicodeDataTable.unicodeVersion ".txt".toList F.joiningType
  derivedProperties : Marked DerivedTable.versionMark DerivedTable.unicodeVersion ".txt".toList
    F.derivedProperties

/-- Numbers in such a text have neither a minus sign nor digits of other scripts. -/
def PlainNumbers (s : List Char) : Prop := ∀ c ∈ s, c ≠ '-' ∧ c.toNat < 0x80

instance (s : List Char) : Decidable (PlainNumbers s) :=
  List.decidableBAll (fun c => c ≠ '-' ∧ c.toNat < 0x80) s

/-- The numbers of a text with comments are plain. -/
def PlainText (text : List Char) : Prop :=
  ∀ l ∈ splitlines text, PlainNumbers (l.takeWhile (· ≠ '#'))

instance (text : List Char) : Decidable (PlainText text) :=
  inferInstanceAs (Decidable (∀ l ∈ splitlines text, _))

/-- The fields of UnicodeData.txt that hold numbers are plain. -/
def PlainRows (text : List Char) : Prop :=
  ∀ l ∈ splitlines text, ∀ i ∈ [0, 3, 5], PlainNumbers ((l.splitOn ';').getD i [])

instance (text : List Char) : Decidable (PlainRows text) :=
  inferInstanceAs (Decidable (∀ l ∈ splitlines text, ∀ i ∈ [0, 3, 5], _))

/-- The numbers that a script reads are plain, so that `parseInt` reads what
`int` reads. -/
def Script.Plain : Script → Prop
  | .packTables => True
  | .idnaTable tableData => PlainText tableData
  | .derivedTable tableData => PlainText tableData
  | .unicodeDataTable unicodeDataText compositionExclusionsText joiningTypeText _ =>
    PlainRows unicodeDataText ∧ PlainText compositionExclusionsText ∧ PlainText joiningTypeText

/-- The last successful runs read these texts, and no mapping table that was
read is out of shape. -/
structure Texts.LastRead (F : Texts) (limit : ℕ) (ss : List Script) : Prop where
  plain : ∀ s ∈ ss, s.Plain
  mapping : lastScript .mapping ss = some (.idnaTable F.mappingTable)
  identifiers : lastScript .identifiers ss = some (.derivedTable F.derivedProperties)
  unicode : lastScript .unicode ss
    = some (.unicodeDataTable F.unicodeData F.compositionExclusions F.joiningType limit)
  entries : ∀ tableData, .idnaTable tableData ∈ ss → ∀ entries,
    (Script.idnaTable tableData).command = some (.idnaTable entries) →
      IdnaTable.WellFormed entries ∧ (IdnaTable.mixedBlocks entries).card ≤ 1024

variable {F : Texts} {D : Database} {C : Contents} {limit : ℕ}

section Readers

variable (h : F.Spell D)
include h

theorem Texts.Spell.parseIdna_eq : parseIdna F.mappingTable = some D.entries := by
  obtain ⟨ls, htext, hline, hls⟩ := h.mappingTable
  rw [htext, parseIdna_unlines hls hline]

theorem Texts.Spell.initUnicodeData_eq (hrows : RowsInOrder D.rows) :
    initUnicodeData F.unicodeData = some (fieldsOf D.rows) := by
  obtain ⟨ls, htext, hls⟩ := h.unicodeData
  rw [htext, initUnicodeData_unlines hls hrows]

theorem Texts.Spell.parseCompositionExclusions_eq :
    parseCompositionExclusions F.compositionExclusions = some (unionOf D.exclusions) := by
  obtain ⟨ls, htext, hls⟩ := h.compositionExclusions
  rw [htext, parseCompositionExclusions_unlines hls]

theorem Texts.Spell.parseJoiningTypes_eq (hjoining : DisjointRows D.joining) :
    parseJoiningTypes F.joiningType = some (D.joining.flatMap JoiningRow.items) := by
  obtain ⟨ls, htext, hls⟩ := h.joiningType
  rw [htext, parseJoiningTypes_unlines hls hjoining]

end Readers

/-- **The five files are read back**: the readers get what the files say. -/
theorem parse_of_spell (hF : F.Spell D) (hrows : RowsInOrder D.rows)
    (hjoining : DisjointRows D.joining) :
    parseIdna F.mappingTable = some D.entries ∧
    parseIdStartSection F.derivedProperties = some D.idStart ∧
    parseIdContinueSection F.derivedProperties = some D.idContinue ∧
    initUnicodeData F.unicodeData = some (fieldsOf D.rows) ∧
    parseCompositionExclusions F.compositionExclusions = some (unionOf D.exclusions) ∧
    parseJoiningTypes F.joiningType = some (D.joining.flatMap JoiningRow.items) := by
  obtain ⟨hstart, hcontinue⟩ := parseSections_of_spells hF.derivedProperties
  refine ⟨hF.parseIdna_eq, hstart, hcontinue, hF.initUnicodeData_eq hrows,
    hF.parseCompositionExclusions_eq, hF.parseJoiningTypes_eq hjoining⟩

section Spell

variable (h : F.Spell D) (hversion : F.Versioned)
include h hversion

theorem Texts.Spell.command_idnaTable :
    (Script.idnaTable F.mappingTable).command = some (.idnaTable D.entries) := by
  rw [Script.command, getTable_of_marked hversion.mappingTable, Option.bind_eq_bind,
    Option.bind_some, h.parseIdna_eq]
  rfl

theorem Texts.Spell.command_derivedTable :
    (Script.derivedTable F.derivedProperties).command
      = some (.derivedTable D.idContinue D.idStart) := by
  obtain ⟨hstart, hcontinue⟩ := parseSections_of_spells h.derivedProperties
  rw [Script.command, getDerivedTable_of_marked hversion.derivedProperties, Option.bind_eq_bind,
    Option.bind_some, hstart, hcontinue]
  rfl

theorem Texts.Spell.command_unicodeDataTable (hrows : RowsInOrder D.rows)
    (hjoining : DisjointRows D.joining) (limit : ℕ) :
    (Script.unicodeDataTable F.unicodeData F.compositionExclusions F.joiningType limit).command
      = some (.unicodeDataTable (D.source limit).ucd (D.source limit).exclusions
          (D.source limit).joiningTypes limit) := by
  rw [Script.command, getVersionedUcdFile_of_marked hversion.compositionExclusions,
    Option.bind_eq_bind, Option.bind_some, getVersionedUcdFile_of_marked hversion.joiningType,
    Option.bind_eq_bind, Option.bind_some, h.initUnicodeData_eq hrows,
    h.parseCompositionExclusions_eq, h.parseJoiningTypes_eq hjoining]
  rfl

/-- The commands that were run last are those of the database. -/
theorem Texts.Spell.lastGiven (hrows : RowsInOrder D.rows) (hjoining : DisjointRows D.joining)
    (hss : F.LastRead limit ss) :
    (D.source limit).LastGiven (ss.filterMap Script.command) where
  mapping := by
    rw [lastRun_filterMap, hss.mapping]
    exact h.command_idnaTable hversion
  identifiers := by
    rw [lastRun_filterMap, hss.identifiers]
    exact h.command_derivedTable hversion
  unicode := by
    rw [lastRun_filterMap, hss.unicode]
    exact h.command_unicodeDataTable hversion hrows hjoining limit
  entries entries hmem := by
    obtain ⟨s, hs, hcommand⟩ := List.mem_filterMap.mp hmem
    have hgenerator := generator_command hcommand
    cases s with
    | idnaTable tableData => exact hss.entries tableData hs entries hcommand
    | packTables => cases hgenerator
    | derivedTable tableData => cases hgenerator
    | unicodeDataTable unicodeDataText compositionExclusionsText joiningTypeText limit =>
      cases hgenerator

end Spell

/-- **From the files to the program.** -/
theorem answers_executeScripts (hz : z.Correct) (hC : Packed z C files.blob) (hF : F.Spell D)
    (hversion : F.Versioned) (hrows : RowsInOrder D.rows) (hjoining : DisjointRows D.joining)
    (hs : (D.source limit).Standard) (hss : F.LastRead limit ss) (o : Lanes.ByteOrder) :
    ∃ b, (executeScripts z files ss).blob = b.text ∧ StaticAsserts b ∧
      ∃ T : Tables,
        T.toTableData = publishedTables o (executeScripts z files ss).constants b ∧
        (D.source limit).Answers T (publishedIds o b) ∧
        ∀ x y, isAsciiBytes x = false →
          (toAscii T x = (true, y) ↔ (D.source limit).ToAscii x y) := by
  rw [executeScripts_eq]
  obtain ⟨b, hblob, hassert, hheld⟩ :=
    (hF.lastGiven hversion hrows hjoining hss).exists_published hz hC o
  obtain ⟨T, hT⟩ := hheld.exists_tables hs
  rw [← hT] at hheld
  exact ⟨b, hblob, hassert, T, hT, hheld.answers hs, fun x y hx => Source.toAscii_iff hs hheld hx⟩

/-! ### A small database -/

def fewDatabase : Database where
  entries := fewEntries
  rows := fewRows
  exclusions := [(0x958, 0x958), (0x95A, 0x95C)]
  joining := fewJoining
  idContinue := [(0x30, 0x39), (0x61, 0x7A)]
  idStart := [(0x61, 0x7A)]

def fewTexts : Texts where
  mappingTable := unlines fewTable
  unicodeData := unlines fewRowLines
  compositionExclusions := unlines fewExclusions
  joiningType := unlines fewJoiningLines
  derivedProperties := fewDerived

theorem spell_fewTexts : fewTexts.Spell fewDatabase where
  mappingTable := ⟨fewTable, rfl, isLine_fewTable, spells_fewTable⟩
  unicodeData := ⟨fewRowLines, rfl, spells_fewRowLines⟩
  compositionExclusions := ⟨fewExclusions, rfl, spells_fewExclusions⟩
  joiningType := ⟨fewJoiningLines, rfl, spells_fewJoiningLines⟩
  derivedProperties := spells_fewDerived

theorem versioned_fewTexts : fewTexts.Versioned where
  mappingTable := marked_fewTable
  compositionExclusions := marked_fewExclusions
  joiningType := marked_fewJoiningLines
  derivedProperties := marked_fewDerived

theorem parse_of_spell_few :
    parseIdna fewTexts.mappingTable = some fewEntries ∧
    parseIdContinueSection fewTexts.derivedProperties = some [(0x30, 0x39), (0x61, 0x7A)] ∧
    initUnicodeData fewTexts.unicodeData = some (fieldsOf fewRows) ∧
    parseCompositionExclusions fewTexts.compositionExclusions
      = some (unionOf [(0x958, 0x958), (0x95A, 0x95C)]) :=
  have h := parse_of_spell spell_fewTexts rowsInOrder_fewRows disjointRows_fewJoining
  ⟨h.1, h.2.2.1, h.2.2.2.1, h.2.2.2.2.1⟩

/-- The rows say of normalization what `fewData` says. -/
theorem agrees_fewRows : Agrees (fieldsOf fewRows).toUnicodeData fewData where
  canonical := rfl
  compatibility := rfl
  cccOf := by
    funext c
    by_cases hc : c ∈ [0x61, 0xAA, 0xE9, 0x113, 0x301, 0x304, 0x1E17, 0x3400, 0x3401, 0x3402]
    · simp only [List.mem_cons, List.not_mem_nil, or_false] at hc
      rcases hc with rfl | rfl | rfl | rfl | rfl | rfl | rfl | rfl | rfl | rfl <;> rfl
    · have hfields : ∀ e ∈ (fieldsOf fewRows).ccc,
          e.1 ∈ [0x61, 0xAA, 0xE9, 0x113, 0x301, 0x304, 0x1E17, 0x3400, 0x3401, 0x3402] := by
        decide
      have hfew : ∀ e ∈ fewData.ccc,
          e.1 ∈ [0x61, 0xAA, 0xE9, 0x113, 0x301, 0x304, 0x1E17, 0x3400, 0x3401, 0x3402] := by
        decide
      rw [cccOf_of_not_mem fun e he heq => hc (by rw [← heq]; exact hfields e he),
        cccOf_of_not_mem fun e he heq => hc (by rw [← heq]; exact hfew e he)]

/-- Fewer composites are primary if there are exclusions. -/
theorem isPrimary_empty {ucd : UnicodeData} {exclusions : Finset ℕ} {a b c : ℕ}
    (h : IsPrimary ucd exclusions a b c) : IsPrimary ucd ∅ a b c :=
  ⟨h.1, Finset.notMem_empty c, h.2.2⟩

theorem standard_fewDatabase : (fewDatabase.source 3).Standard where
  entries := wellFormed_fewEntries
  card_le := (IdnaTable.card_mixedBlocks_le _).trans (by decide +kernel)
  length_seq := by decide
  unicode := agrees_fewRows.standard (by decide) standard_fewData
  length_decomposition cp s hcp hs := (length_fullExpansion_fewData hcp hs).trans (by decide)
  ascii := agrees_fewRows.asciiApart asciiApart_fewData
  distinct := agrees_fewRows.distinctPairs fun a b c c' h h' =>
    distinctPairs_fewData a b c c' (isPrimary_empty h) (isPrimary_empty h')
  category := by decide
  idContinue := ⟨by decide, by decide⟩
  idStart := ⟨by decide, by decide⟩

theorem exists_buildComposition_fewData (exclusions : Finset ℕ) :
    ∃ p, buildComposition fewData exclusions = some p := by
  apply exists_buildComposition {0x65, 0x113}
  · intro cp hne
    obtain ⟨v, hv⟩ := List.exists_mem_of_ne_nil _ hne
    rw [compositionOf_eq] at hv
    obtain ⟨⟨b, c⟩, hq, -⟩ := List.mem_flatMap.mp hv
    rcases isPrimary_fewData (isPrimary_empty (mem_sortedPairs.mp hq)) with h | h | h <;>
      cases h <;> decide
  · decide
  · have hlen : ∀ a, (compositionOf fewData exclusions a).length ≤ 6 := by
      intro a
      have hpairs : (pairsOf fewData exclusions a).length ≤ 3 := List.length_filterMap_le _ _
      rw [compositionOf_eq, length_flatten_pairs, sortedPairs, List.length_mergeSort]
      omega
    have h := hlen 0x65
    have h' := hlen 0x113
    rw [Finset.sum_pair (by decide)]
    omega

/-- A run of each of the scripts, and then one on files that cannot be read. -/
def fewScripts : List Script :=
  [.idnaTable fewTexts.mappingTable,
    .unicodeDataTable fewTexts.unicodeData fewTexts.compositionExclusions fewTexts.joiningType 3,
    .derivedTable fewTexts.derivedProperties, .packTables, .derivedTable []]

theorem lastRead_fewTexts : fewTexts.LastRead 3 fewScripts := by
  have hcard : (IdnaTable.mixedBlocks fewEntries).card ≤ 1024 :=
    (IdnaTable.card_mixedBlocks_le _).trans (by decide +kernel)
  have hmapping : (Script.idnaTable fewTexts.mappingTable).succeeds = true := by
    rw [Script.succeeds, spell_fewTexts.command_idnaTable versioned_fewTexts, Option.bind_some]
    refine (isSome_change (c := .idnaTable _) standard_fewDatabase.entries).mpr ⟨?_, hcard⟩
    exact Option.isSome_iff_exists.mp (by decide +kernel)
  have hidentifiers : (Script.derivedTable fewTexts.derivedProperties).succeeds = true := by
    rw [Script.succeeds, spell_fewTexts.command_derivedTable versioned_fewTexts, Option.bind_some]
    exact (isSome_change (c := .derivedTable _ _) trivial).mpr ⟨by decide, by decide⟩
  have hunicode : (Script.unicodeDataTable fewTexts.unicodeData fewTexts.compositionExclusions
      fewTexts.joiningType 3).succeeds = true := by
    obtain ⟨d, k, -, hd, hk, -⟩ := exists_build_fewData
    obtain ⟨p, hp⟩ := exists_buildComposition_fewData (unionOf fewDatabase.exclusions)
    have hv : ∃ v,
        buildValidity (fieldsOf fewRows) (fewDatabase.source 3).joiningTypes = some v := by
      rw [buildValidity, if_neg (by decide)]
      exact ⟨_, rfl⟩
    obtain ⟨v, hv⟩ := hv
    rw [Script.succeeds,
      spell_fewTexts.command_unicodeDataTable versioned_fewTexts rowsInOrder_fewRows
        disjointRows_fewJoining,
      Option.bind_some]
    refine (isSome_change (c := .unicodeDataTable _ _ _ _) ?_).mpr ⟨unicodeSections d k p v, ?_⟩
    · exact ⟨by decide, by decide, by decide, by decide, by decide, by decide⟩
    · have hsource : (fewDatabase.source 3).ucd = fieldsOf fewRows := rfl
      have hexclusions : (fewDatabase.source 3).exclusions = unionOf fewDatabase.exclusions := rfl
      rw [buildSections, hsource, hexclusions, agrees_fewRows.buildDecomposition,
        agrees_fewRows.buildCcc, agrees_fewRows.buildComposition, hd, hk, hp, hv]
      rfl
  have hempty : (Script.derivedTable []).succeeds = false := rfl
  constructor
  · intro s hs
    simp only [fewScripts, List.mem_cons, List.not_mem_nil, or_false] at hs
    rcases hs with rfl | rfl | rfl | rfl | rfl
    · exact (by decide +kernel : PlainText fewTexts.mappingTable)
    · exact ⟨by decide +kernel, by decide +kernel, by decide +kernel⟩
    · exact (by decide +kernel : PlainText fewTexts.derivedProperties)
    · trivial
    · exact (by decide : PlainText [])
  · simp [fewScripts, lastScript, hmapping, hunicode, hidentifiers, hempty, Script.generator]
  · simp [fewScripts, lastScript, hmapping, hunicode, hidentifiers, hempty, Script.generator]
  · simp [fewScripts, lastScript, hmapping, hunicode, hidentifiers, hempty, Script.generator]
  · intro tableData hmem entries hread
    obtain rfl : tableData = fewTexts.mappingTable := by simpa [fewScripts] using hmem
    rw [spell_fewTexts.command_idnaTable versioned_fewTexts] at hread
    obtain rfl : fewDatabase.entries = entries := by simpa using hread
    exact ⟨standard_fewDatabase.entries, hcard⟩

theorem answers_executeScripts_few : ∃ text b T,
    (executeScripts storedZlib ⟨⟨0, 0, 0⟩, text⟩ fewScripts).blob = b.text ∧
      Tables.toTableData T = publishedTables .big
        (executeScripts storedZlib ⟨⟨0, 0, 0⟩, text⟩ fewScripts).constants b ∧
      (fewDatabase.source 3).Answers T (publishedIds .big b) := by
  obtain ⟨text, htext⟩ := exists_packed storedZlib_correct.decompress_compress emptyContents
  have hstart : Packed storedZlib emptyContents (Files.mk ⟨0, 0, 0⟩ text).blob := htext
  obtain ⟨b, hblob, -, T, hT, hanswers, -⟩ := answers_executeScripts storedZlib_correct hstart
    spell_fewTexts versioned_fewTexts rowsInOrder_fewRows disjointRows_fewJoining
    standard_fewDatabase lastRead_fewTexts .big
  exact ⟨text, b, T, hblob, hT, hanswers⟩

end AdaIdna
