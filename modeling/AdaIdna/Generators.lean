/-
AdaIdna/Generators.lean

The scripts that regenerate the tables, run in any order.

Each of idna_table.py, derived_table.py and unicode_data_table.py generates
some of the sections and puts them into table_blob.inc; pack_tables.py writes
the file again as it is.  A command is one of these scripts with the data that
it has read.  A `SystemExit`, a failed assertion and any other exception end
the script, with the files as far as they were written by then: idna_table.py
writes the constants of mapping_tables.cpp before it packs anything.

A run keeps table_blob.inc readable, and each section has the value that the
last successful run of its generator gave it (`load_executeAll`); so neither
the order of the generators nor anything before their last run matters, to the
last byte (`blob_executeAll_eq`).  The assertions of table_store.hpp stay true
(`staticAsserts_executeAll`).  The constants stay in step with the mapping
tables if no mapping table has more than 1024 mixed blocks
(`inStep_executeAll`).
-/
import AdaIdna.BlobContents
import AdaIdna.IdnaMeaning
import AdaIdna.StoredZlib
import AdaIdna.ValidityTables

namespace AdaIdna

namespace Generators

open PackTables TableBlob Overwrite
open IdnaTable hiding blockBits blockSize
open UnicodeDataTable hiding Holds

/-! ### Commands -/

/-- The constants of mapping_tables.cpp that depend on the data. -/
structure MappingConstants where
  lowRangeEnd : ℕ
  highIgnoredStart : ℕ
  highIgnoredEnd : ℕ
  deriving DecidableEq

/-- A script with `--write`, and the data that it has read; `limit` bounds the
recursion of `full_decomposition`. -/
inductive Command where
  | packTables
  | idnaTable (entries : List Entry)
  | derivedTable (idContinue idStart : List (ℕ × ℕ))
  | unicodeDataTable (ucd : UnicodeFields) (exclusions : Finset ℕ) (joiningTypes : List (ℕ × ℕ))
      (limit : ℕ)

/-- The sections of `update_mapping_in_blob`. -/
def mappingSections (g : Generated) : List (BlobSection × List ℕ) :=
  [(.idnaStage1, g.stage1), (.idnaStage2, g.mixedData), (.idnaBoolBlocks, g.boolWords),
    (.idnaUtf8Mappings, g.utf8Table.map UInt8.toNat)]

/-- What `write_mapping_constants` writes. -/
def mappingConstants (g : Generated) : MappingConstants :=
  ⟨g.lowRangeEnd, g.highIgnoredStart, g.highIgnoredEnd⟩

/-- `cont_flat` and `start_flat` -/
def flatOf (ranges : List (ℕ × ℕ)) : List ℕ := ranges.flatMap fun r => [r.1, r.2]

/-- `sections`, after the four updates. -/
def unicodeSections (decomposition : Sections) (ccc : List ℕ × List ℕ) (composition : Sections)
    (validity : ValiditySections) : List (BlobSection × List ℕ) :=
  [(.decompositionIndex, decomposition.index), (.decompositionBlock, decomposition.block),
    (.decompositionData, decomposition.data), (.cccIndex, ccc.1), (.cccBlock, ccc.2),
    (.compositionIndex, composition.index), (.compositionBlock, composition.block),
    (.compositionData, composition.data), (.combiningFlat, validity.combiningFlat),
    (.dirStart, validity.dirStart), (.dirFinal, validity.dirFinal),
    (.dirValue, validity.dirValue), (.joiningStart, validity.joiningStart),
    (.joiningFinal, validity.joiningFinal), (.joiningValue, validity.joiningValue)]

/-- `build_sections`, from the data that was read. -/
def buildSections (ucd : UnicodeFields) (exclusions : Finset ℕ) (joiningTypes : List (ℕ × ℕ))
    (limit : ℕ) : Option (List (BlobSection × List ℕ)) := do
  let decomposition ← buildDecomposition ucd.toUnicodeData limit
  let ccc ← buildCcc ucd.toUnicodeData
  let composition ← buildComposition ucd.toUnicodeData exclusions
  let validity ← buildValidity ucd joiningTypes
  some (unicodeSections decomposition ccc composition validity)

/-- The sections that a script generates. -/
def Command.generated : Command → Option (List (BlobSection × List ℕ))
  | .packTables => some []
  | .idnaTable entries => (generateIdna entries).map mappingSections
  | .derivedTable idContinue idStart =>
    some [(.idContinueFlat, flatOf idContinue), (.idStartFlat, flatOf idStart)]
  | .unicodeDataTable ucd exclusions joiningTypes limit =>
    buildSections ucd exclusions joiningTypes limit

/-- The constants that a script generates. -/
def Command.constants : Command → Option MappingConstants
  | .idnaTable entries => (generateIdna entries).map mappingConstants
  | _ => none

/-- mapping_tables.cpp and table_blob.inc -/
structure Files where
  constants : MappingConstants
  blob : List Char

/-- The files after a script, and whether it came to its end. -/
def Command.execute (z : Zlib) (files : Files) (c : Command) : Files × Bool :=
  match c.generated with
  | none => (files, false)
  | some new =>
    let files := { files with constants := c.constants.getD files.constants }
    match updateBlob z new files.blob with
    | none => (files, false)
    | some text => ({ files with blob := text }, true)

/-- The files after some scripts. -/
def executeAll (z : Zlib) (files : Files) (cs : List Command) : Files :=
  cs.foldl (fun files c => (c.execute z files).1) files

/-! ### Changes -/

/-- The scripts that generate sections. -/
inductive Generator where
  | mapping | identifiers | unicode
  deriving DecidableEq

/-- The script that generates a section. -/
def generatorOf : BlobSection → Generator
  | .idnaStage1 => .mapping
  | .idnaStage2 => .mapping
  | .idnaBoolBlocks => .mapping
  | .idnaUtf8Mappings => .mapping
  | .idContinueFlat => .identifiers
  | .idStartFlat => .identifiers
  | _ => .unicode

/-- The names of the sections of a script. -/
def namesOf : Option Generator → List BlobSection
  | none => []
  | some .mapping => [.idnaStage1, .idnaStage2, .idnaBoolBlocks, .idnaUtf8Mappings]
  | some .identifiers => [.idContinueFlat, .idStartFlat]
  | some .unicode =>
    [.decompositionIndex, .decompositionBlock, .decompositionData, .cccIndex, .cccBlock,
      .compositionIndex, .compositionBlock, .compositionData, .combiningFlat, .dirStart,
      .dirFinal, .dirValue, .joiningStart, .joiningFinal, .joiningValue]

theorem mem_namesOf (s : BlobSection) (g : Option Generator) :
    s ∈ namesOf g ↔ some (generatorOf s) = g := by
  rcases g with - | g
  · cases s <;> decide
  · cases g <;> cases s <;> decide

theorem nodup_namesOf (g : Option Generator) : (namesOf g).Nodup := by
  rcases g with - | g
  · decide
  · cases g <;> decide

def Command.generator : Command → Option Generator
  | .packTables => none
  | .idnaTable _ => some .mapping
  | .derivedTable _ _ => some .identifiers
  | .unicodeDataTable _ _ _ _ => some .unicode

/-- The sections that a script packs, if nothing keeps it from packing them. -/
def Command.change (c : Command) : Option NewSections :=
  c.generated.bind fun items =>
    if h : ∀ item ∈ items, Admissible item.1 item.2 then some ⟨items, h⟩ else none

/-- What the scripts that came to their end have packed, and which they were. -/
def changesOf (cs : List Command) : List (Option Generator × NewSections) :=
  cs.filterMap fun c => c.change.map fun new => (c.generator, new)

variable {z : Zlib} {C : Contents} {files : Files} {c : Command} {cs cs' : List Command}
  {new : NewSections} {items : List (BlobSection × List ℕ)}

theorem generated_of_change (h : c.change = some new) : c.generated = some new.items := by
  obtain ⟨items, hitems, hnew⟩ := Option.bind_eq_some_iff.mp h
  split_ifs at hnew with hok
  obtain rfl := Option.some.inj hnew
  exact hitems

theorem not_admissible_of_change (hgen : c.generated = some items) (h : c.change = none) :
    ∃ item ∈ items, ¬ Admissible item.1 item.2 := by
  by_contra hall
  simp only [not_exists, not_and, not_not] at hall
  rw [Command.change, hgen, Option.bind_some, dif_pos hall] at h
  cases h

/-- What `build_sections` returns. -/
theorem of_buildSections {ucd : UnicodeFields} {exclusions : Finset ℕ}
    {joiningTypes : List (ℕ × ℕ)} {limit : ℕ}
    (h : buildSections ucd exclusions joiningTypes limit = some items) :
    ∃ d k p v, buildDecomposition ucd.toUnicodeData limit = some d ∧
      buildCcc ucd.toUnicodeData = some k ∧
      buildComposition ucd.toUnicodeData exclusions = some p ∧
      buildValidity ucd joiningTypes = some v ∧ items = unicodeSections d k p v := by
  rw [buildSections] at h
  simp only [Option.bind_eq_bind, Option.bind_eq_some_iff, Option.some.injEq] at h
  obtain ⟨d, hd, k, hk, p, hp, v, hv, rfl⟩ := h
  exact ⟨d, k, p, v, hd, hk, hp, hv, rfl⟩

theorem keys_generated (hgen : c.generated = some items) :
    items.map Prod.fst = namesOf c.generator := by
  cases c with
  | packTables =>
    obtain rfl := Option.some.inj hgen
    rfl
  | idnaTable entries =>
    obtain ⟨g, -, rfl⟩ := Option.map_eq_some_iff.mp hgen
    rfl
  | derivedTable idContinue idStart =>
    obtain rfl := Option.some.inj hgen
    rfl
  | unicodeDataTable ucd exclusions joiningTypes limit =>
    obtain ⟨d, k, p, v, -, -, -, -, rfl⟩ := of_buildSections hgen
    rfl

/-- **Each script** generates exactly its own sections. -/
theorem writes_change (h : c.change = some new) :
    Writes (fun s => some (generatorOf s)) c.generator new := by
  intro s
  rw [keys_generated (generated_of_change h)]
  exact mem_namesOf s c.generator

theorem writes_changesOf : ∀ c ∈ changesOf cs,
    Writes (fun s => some (generatorOf s)) c.1 c.2 := by
  intro c hc
  obtain ⟨command, -, hcommand⟩ := List.mem_filterMap.mp hc
  obtain ⟨new, hnew, rfl⟩ := Option.map_eq_some_iff.mp hcommand
  exact writes_change hnew

/-! ### Runs -/

section Runs

variable (hz : ∀ data, z.decompress (z.compress data) = some data)
include hz

/-- **A script that packs something** replaces its sections. -/
theorem execute_of_change (h : Packed z C files.blob) (hnew : c.change = some new) :
    ∃ text, c.execute z files = (⟨c.constants.getD files.constants, text⟩, true) ∧
      Packed z (C.apply new) text := by
  obtain ⟨text, htext, hpacked⟩ := updateBlob_of_change hz h new
  refine ⟨text, ?_, hpacked⟩
  rw [Command.execute, generated_of_change hnew]
  dsimp only
  rw [htext]

/-- **Any other** leaves table_blob.inc as it was. -/
theorem execute_of_no_change (h : Packed z C files.blob) (hnew : c.change = none) :
    (c.execute z files).1.blob = files.blob ∧ (c.execute z files).2 = false := by
  rw [Command.execute]
  rcases hgen : c.generated with - | items
  · exact ⟨rfl, rfl⟩
  · obtain ⟨item, hitem, hbad⟩ := not_admissible_of_change hgen hnew
    dsimp only
    rw [updateBlob_of_not_admissible hz h (keys_generated hgen ▸ nodup_namesOf _) hitem hbad]
    exact ⟨rfl, rfl⟩

/-- **Run:** table_blob.inc is the store after the changes that were packed. -/
theorem packed_executeAll (h : Packed z C files.blob) (cs : List Command) :
    Packed z (C.applyAll ((changesOf cs).map Prod.snd)) (executeAll z files cs).blob := by
  induction cs generalizing C files with
  | nil => exact h
  | cons c cs ih =>
    show Packed z _ (executeAll z (c.execute z files).1 cs).blob
    rcases hnew : c.change with - | new
    · have hchanges : changesOf (c :: cs) = changesOf cs := by
        rw [changesOf, List.filterMap_cons_none (by rw [hnew]; rfl), changesOf]
      rw [hchanges]
      apply ih
      rwa [(execute_of_no_change hz h hnew).1]
    · have hchanges : changesOf (c :: cs) = (c.generator, new) :: changesOf cs := by
        rw [changesOf, List.filterMap_cons_some (by rw [hnew]; rfl), changesOf]
      obtain ⟨text, hexec, hpacked⟩ := execute_of_change hz h hnew
      rw [hchanges, List.map_cons, applyAll_cons, hexec]
      exact ih hpacked

end Runs

/-- The value of a section after some scripts: what the last one that packed
the section says, if there is one. -/
def sectionAfter (C : Contents) (cs : List Command) (s : BlobSection) : List ℕ :=
  (lastOf (some (generatorOf s)) (changesOf cs)).elim (C.val s) fun new =>
    overwrite C.val new.items s

theorem val_applyAll (C : Contents) (cs : List Command) :
    (C.applyAll ((changesOf cs).map Prod.snd)).val = sectionAfter C cs := by
  funext s
  exact applyAll_val_of_owner writes_changesOf C s

/-- Empty tables: the indexes refer to one block, and nothing else is there. -/
def emptyContents : Contents where
  val
    | .decompositionIndex => List.replicate 4352 0
    | .cccIndex => List.replicate 4352 0
    | .compositionIndex => List.replicate 4352 0
    | _ => []
  allowed s := by
    have hindex : ∀ n, Admissible .cccIndex (List.replicate n 0) := fun n =>
      ⟨fun v hv => by rw [List.eq_of_mem_replicate hv]; decide, one_dvd _⟩
    cases s
    case decompositionIndex => exact hindex 4352
    case cccIndex => exact hindex 4352
    case compositionIndex => exact hindex 4352
    all_goals exact ⟨nofun, dvd_zero _⟩

/-- **What is read after a run** is, section by section, what the last
successful run of its generator wrote. -/
theorem load_executeAll (hz : ∀ data, z.decompress (z.compress data) = some data)
    (h : Packed z C files.blob) (cs : List Command) :
    loadBlobSections z (executeAll z files cs).blob
      = some (sectionOrder.map fun item => (item.1, sectionAfter C cs item.1)) := by
  rw [← val_applyAll]
  exact (packed_executeAll hz h cs).load hz

/-- A value of more than 32 bits is refused, and the run before it counts. -/
theorem load_executeAll_ranges :
    ∃ text, (loadBlobSections storedZlib (executeAll storedZlib ⟨⟨0, 0, 0⟩, text⟩
      [.derivedTable [(0x61, 0x7A)] [], .packTables,
        .derivedTable [(0x100000000, 0)] []]).blob).map (List.lookup .idContinueFlat)
        = some (some [0x61, 0x7A]) := by
  obtain ⟨text, htext⟩ := exists_packed storedZlib_correct.decompress_compress emptyContents
  have hstart : Packed storedZlib emptyContents (Files.mk ⟨0, 0, 0⟩ text).blob := htext
  refine ⟨text, ?_⟩
  rw [load_executeAll storedZlib_correct.decompress_compress hstart]
  rfl

/-- **The same table_blob.inc**, to the last byte, comes out of any two runs
in which each generator has packed the same sections at last. -/
theorem blob_executeAll_eq (hz : ∀ data, z.decompress (z.compress data) = some data)
    (h : Packed z C files.blob)
    (hlast : ∀ g, lastOf (some g) (changesOf cs) = lastOf (some g) (changesOf cs')) :
    (executeAll z files cs).blob = (executeAll z files cs').blob := by
  have hstore := applyAll_eq_of_last writes_changesOf writes_changesOf (fun s => hlast _) C
  have hpacked := packed_executeAll hz h cs
  rw [hstore] at hpacked
  exact hpacked.unique (packed_executeAll hz h cs')

/-- Mapping tables and identifiers may be generated in either order. -/
theorem blob_executeAll_eq_swap :
    ∃ text, (executeAll storedZlib ⟨⟨0, 0, 0⟩, text⟩
        [.derivedTable [(0x61, 0x7A)] [], .idnaTable fewEntries]).blob
      = (executeAll storedZlib ⟨⟨0, 0, 0⟩, text⟩
        [.derivedTable [(0x41, 0x5A)] [], .idnaTable fewEntries,
          .derivedTable [(0x61, 0x7A)] []]).blob := by
  obtain ⟨text, htext⟩ := exists_packed storedZlib_correct.decompress_compress emptyContents
  have hstart : Packed storedZlib emptyContents (Files.mk ⟨0, 0, 0⟩ text).blob := htext
  refine ⟨text, blob_executeAll_eq storedZlib_correct.decompress_compress hstart fun g => ?_⟩
  rw [changesOf, changesOf]
  simp only [List.filterMap_cons, List.filterMap_nil]
  rcases (Command.idnaTable fewEntries).change with - | new
  · cases g <;> rfl
  · cases g <;> rfl

/-! ### The assertions of table_store.hpp -/

theorem length_index_foldl {β : Type} [DecidableEq β] (rows : List (List β)) (t : Multistage β) :
    (rows.foldl Multistage.addRow t).index.length = t.index.length + rows.length := by
  induction rows generalizing t with
  | nil => rfl
  | cons row rows ih =>
    rw [List.foldl_cons, ih, Multistage.addRow, List.length_append, List.length_singleton,
      List.length_cons, Nat.add_assoc, Nat.add_comm 1]

/-- An index has one entry for each block of code points. -/
theorem length_index_buildMultistage {entries index block : List ℕ} {cols : ℕ}
    {blockIsEmpty : List Bool}
    (h : buildMultistage entries cols blockIsEmpty = some (index, block)) :
    index.length = 4352 := by
  rw [buildMultistage] at h
  split_ifs at h
  obtain ⟨rfl, -⟩ := Prod.mk.injEq .. ▸ Option.some.inj h
  rw [length_index_foldl, List.length_map, List.length_range]
  rfl

/-- Pairs are even in number. -/
theorem two_dvd_length_pairs {α : Type} (l : List α) (f g : α → ℕ) :
    2 ∣ (l.flatMap fun x => [f x, g x]).length := by
  induction l with
  | nil => exact dvd_zero 2
  | cons x l ih =>
    rw [List.flatMap_cons, List.length_append]
    exact (dvd_refl 2).add ih

/-- **One script:** what it generates has the shape that is asserted. -/
theorem shaped_generated {vals : BlobSection → List ℕ} (hgen : c.generated = some items)
    (h : Shaped vals) : Shaped (overwrite vals items) := by
  obtain ⟨hd, hc, hp, hf, hv, jf, jv, hcf, hsf, hmf⟩ := h
  cases c with
  | packTables =>
    obtain rfl := Option.some.inj hgen
    exact ⟨hd, hc, hp, hf, hv, jf, jv, hcf, hsf, hmf⟩
  | idnaTable entries =>
    obtain ⟨g, -, rfl⟩ := Option.map_eq_some_iff.mp hgen
    exact ⟨hd, hc, hp, hf, hv, jf, jv, hcf, hsf, hmf⟩
  | derivedTable idContinue idStart =>
    obtain rfl := Option.some.inj hgen
    exact ⟨hd, hc, hp, hf, hv, jf, jv, two_dvd_length_pairs _ _ _, two_dvd_length_pairs _ _ _, hmf⟩
  | unicodeDataTable ucd exclusions joiningTypes limit =>
    obtain ⟨d, k, p, v, hbd, hbk, hbp, hbv, rfl⟩ := of_buildSections hgen
    obtain ⟨-, hmarks, hs, hf, hv, js, jf, jv⟩ := of_buildValidity hbv
    refine ⟨?_, length_index_buildMultistage hbk, ?_, ?_, ?_, ?_, ?_, hcf, hsf, ?_⟩
    · obtain ⟨r, -, -, hm, -⟩ := of_buildDecomposition hbd
      exact length_index_buildMultistage hm
    · obtain ⟨r, -, hm, -⟩ := of_buildComposition hbp
      exact length_index_buildMultistage hm
    · show v.dirFinal.length = v.dirStart.length
      rw [hf, hs, List.length_map, List.length_map]
    · show v.dirValue.length = v.dirStart.length
      rw [hv, hs, List.length_map, List.length_map]
    · show v.joiningFinal.length = v.joiningStart.length
      rw [jf, js, List.length_map, List.length_map]
    · show v.joiningValue.length = v.joiningStart.length
      rw [jv, js, List.length_map, List.length_map]
    · show 2 ∣ v.combiningFlat.length
      rw [hmarks]
      exact two_dvd_length_pairs _ _ _

theorem shaped_applyAll (h : Shaped C.val) :
    Shaped (C.applyAll ((changesOf cs).map Prod.snd)).val := by
  refine applyAll_induction (P := fun C => Shaped C.val) h fun C hC new hnew => ?_
  obtain ⟨c, hc, rfl⟩ := List.mem_map.mp hnew
  obtain ⟨command, -, hcommand⟩ := List.mem_filterMap.mp hc
  obtain ⟨new, hchange, rfl⟩ := Option.map_eq_some_iff.mp hcommand
  exact shaped_generated (generated_of_change hchange) hC

/-- **The assertions stay true**, whatever scripts are run. -/
theorem staticAsserts_executeAll (hz : ∀ data, z.decompress (z.compress data) = some data)
    {b : Blob} (hb : writeBlob (fun s => some (C.val s)) z = some b) (hblob : files.blob = b.text)
    (hassert : StaticAsserts b) (cs : List Command) :
    ∃ C' : Contents, ∃ b', writeBlob (fun s => some (C'.val s)) z = some b' ∧
      (executeAll z files cs).blob = b'.text ∧ StaticAsserts b' := by
  obtain ⟨payload, hpayload⟩ := exists_writtenFor hz hb
  have hshaped := (hpayload.staticAsserts_iff fun s => (C.allowed s).2).mp hassert
  obtain ⟨b', hb', hblob'⟩ := packed_executeAll hz ⟨b, hb, hblob⟩ cs
  obtain ⟨payload', hpayload'⟩ := exists_writtenFor hz hb'
  refine ⟨C.applyAll ((changesOf cs).map Prod.snd), b', hb', hblob', ?_⟩
  refine (hpayload'.staticAsserts_iff fun s => ?_).mpr (shaped_applyAll hshaped)
  exact ((C.applyAll ((changesOf cs).map Prod.snd)).allowed s).2

theorem shaped_emptyContents : Shaped emptyContents.val := by
  constructor <;> first | exact List.length_replicate | exact dvd_zero 2 | rfl

/-- The assertions hold after any run that starts with empty tables. -/
theorem staticAsserts_executeAll_empty :
    ∃ text b, (executeAll storedZlib ⟨⟨0, 0, 0⟩, text⟩
      [.idnaTable fewEntries, .derivedTable [(0x61, 0x7A)] []]).blob = b.text ∧
        StaticAsserts b := by
  obtain ⟨text, b, hb, rfl⟩ :=
    exists_packed storedZlib_correct.decompress_compress emptyContents
  obtain ⟨payload, hpayload⟩ := exists_writtenFor storedZlib_correct.decompress_compress hb
  have hstart : (Files.mk ⟨0, 0, 0⟩ b.text).blob = b.text := rfl
  obtain ⟨-, b', -, hblob, hassert⟩ := staticAsserts_executeAll
    storedZlib_correct.decompress_compress hb hstart
    ((hpayload.staticAsserts_iff fun s => (emptyContents.allowed s).2).mpr shaped_emptyContents)
    [.idnaTable fewEntries, .derivedTable [(0x61, 0x7A)] []]
  exact ⟨b.text, b', hblob, hassert⟩

/-! ### The constants of mapping_tables.cpp -/

theorem lt_of_mem_bool (flat : List ℕ) : ∀ v ∈ (buildTwoLevel flat).bool.data, v < 2 ^ 64 := by
  have hbits : ∀ bi, validBits (blockAt flat bi) < 2 ^ 64 := by
    intro bi
    apply Nat.lt_pow_two_of_testBit
    intro i hi
    rw [testBit_validBits, List.getElem?_eq_none (by rwa [length_blockAt])]
    rfl
  rw [buildTwoLevel]
  induction (flat.length + IdnaTable.blockSize - 1) / IdnaTable.blockSize with
  | zero => exact List.forall_mem_nil _
  | succ n ih =>
    rw [List.range_succ, List.foldl_append, List.foldl_cons, List.foldl_nil, addBlock]
    dsimp only
    split
    · intro v hv
      rcases Pool.mem_data_insert hv with hv | hv
      · exact ih v hv
      · rw [List.mem_singleton.mp hv]
        exact hbits n
    · exact ih

/-- With more than 1024 blocks stored in full, one of them is out of reach. -/
theorem exists_mem_stage1 {flat : List ℕ} {n : ℕ} {t : TwoLevel} (h : IdnaTable.Built flat n t)
    (hplace : 1024 < t.mixed.places.length) : ∃ v ∈ t.stage1, 0x10000 ≤ v := by
  obtain ⟨block, hkey, hlookup⟩ := h.mixed_filled.spaced.exists_key h.mixed_filled.nodup hplace
  obtain ⟨i, hi, hb, rfl⟩ := (h.mixed_mem block).mp hkey
  refine ⟨64 * 1024, ?_, le_rfl⟩
  rw [h.stage1, List.mem_map]
  refine ⟨i, List.mem_range.mpr hi, ?_⟩
  rw [refOf, if_neg (by rw [hb]; decide), hlookup]
  rfl

/-- **Mapping sections** can be packed if at most 1024 blocks are mixed. -/
theorem admissible_mappingSections_iff {entries : List Entry} {g : Generated}
    (hw : WellFormed entries) (hg : generateIdna entries = some g) :
    (∀ item ∈ mappingSections g, Admissible item.1 item.2) ↔ (mixedBlocks entries).card ≤ 1024 := by
  obtain ⟨hsize, hlen, hlow, -, -, hstage1, hmixed, hbool, -⟩ := of_generateIdna hg
  have hdvd : 64 ∣ g.lowRangeEnd := hlow ▸ (computeLowRangeEnd_spec _ _).1
  have hbuilt := built_of_dvd hw hdvd
  have hcard := length_places_mixed hw hsize (hlow ▸ hbuilt)
  rw [← hlow] at hcard
  rw [← hcard]
  constructor
  · intro hall
    by_contra hlarge
    obtain ⟨v, hv, hge⟩ := exists_mem_stage1 hbuilt (not_le.mp hlarge)
    have hlt := (hall (.idnaStage1, g.stage1) List.mem_cons_self).1 v (hstage1 ▸ hv)
    exact absurd hlt (not_lt.mpr hge)
  · intro hsmall
    have hn : g.lowRangeEnd / 64 ≤ 0x8000 := by
      rwa [hbuilt.stage1, List.length_map, List.length_range] at hlen
    simp only [mappingSections, List.forall_mem_cons]
    refine ⟨⟨?_, one_dvd _⟩, ⟨?_, one_dvd _⟩, ⟨?_, one_dvd _⟩, ⟨?_, one_dvd _⟩, nofun⟩
    · rw [hstage1]
      exact hbuilt.lt_of_mem_stage1 hn hsmall
    · rw [hmixed]
      exact lt_of_mem_mixed hw hsize hbuilt
    · rw [hbool]
      exact lt_of_mem_bool _
    · intro v hv
      obtain ⟨x, -, rfl⟩ := List.mem_map.mp hv
      exact x.toNat_lt

/-- The constants belong to the mapping tables in table_blob.inc. -/
def InStep (z : Zlib) (files : Files) : Prop :=
  ∃ entries g C, WellFormed entries ∧ generateIdna entries = some g ∧
    files.constants = mappingConstants g ∧ Packed z C files.blob ∧
    ∀ item ∈ mappingSections g, C.val item.1 = item.2

/-- A script that packs nothing writes no constants, unless it is idna_table.py
and generates more mixed blocks than can be packed. -/
theorem constants_of_no_change (hz : ∀ data, z.decompress (z.compress data) = some data)
    (h : Packed z C files.blob) (hnew : c.change = none)
    (hc : ∀ entries, c = .idnaTable entries →
      WellFormed entries ∧ (mixedBlocks entries).card ≤ 1024) :
    (c.execute z files).1.constants = files.constants := by
  rw [Command.execute]
  rcases hgen : c.generated with - | items
  · rfl
  · obtain ⟨item, hitem, hbad⟩ := not_admissible_of_change hgen hnew
    dsimp only
    rw [updateBlob_of_not_admissible hz h (keys_generated hgen ▸ nodup_namesOf _) hitem hbad]
    cases c with
    | idnaTable entries =>
      obtain ⟨hw, hcard⟩ := hc entries rfl
      obtain ⟨g, hg, rfl⟩ := Option.map_eq_some_iff.mp hgen
      exact absurd ((admissible_mappingSections_iff hw hg).mpr hcard item hitem) hbad
    | _ => rfl

/-- **One script** keeps the constants in step, unless it is idna_table.py and
generates more mixed blocks than can be packed. -/
theorem inStep_execute (hz : ∀ data, z.decompress (z.compress data) = some data)
    (h : InStep z files)
    (hc : ∀ entries, c = .idnaTable entries →
      WellFormed entries ∧ (mixedBlocks entries).card ≤ 1024) :
    InStep z (c.execute z files).1 := by
  obtain ⟨entries, g, C, hw, hg, hconstants, hpacked, hsections⟩ := h
  rcases hnew : c.change with - | new
  · have hkept := constants_of_no_change hz hpacked hnew hc
    refine ⟨entries, g, C, hw, hg, hkept.trans hconstants, ?_, hsections⟩
    rwa [(execute_of_no_change hz hpacked hnew).1]
  · obtain ⟨text, hexec, hpacked'⟩ := execute_of_change hz hpacked hnew
    have hgen := generated_of_change hnew
    rw [hexec]
    by_cases hgenerator : c.generator = some .mapping
    · cases c with
      | idnaTable entries' =>
        obtain ⟨g', hg', hitems⟩ := Option.map_eq_some_iff.mp hgen
        refine ⟨entries', g', _, (hc entries' rfl).1, hg', ?_, hpacked', fun item hitem => ?_⟩
        · show (Command.constants (.idnaTable entries')).getD files.constants = _
          rw [Command.constants, hg']
          rfl
        · rw [hitems] at hitem
          refine overwrite_eq_of_mem C.val ?_ hitem
          rw [keys_generated hgen]
          exact nodup_namesOf _
      | _ => cases hgenerator
    · refine ⟨entries, g, _, hw, hg, ?_, hpacked', fun item hitem => ?_⟩
      · cases c with
        | idnaTable entries' => exact absurd rfl hgenerator
        | _ => exact hconstants
      · rw [← hsections item hitem]
        apply overwrite_of_not_mem
        rw [keys_generated hgen, mem_namesOf]
        intro hmem
        have hmapping : some (generatorOf item.1) = some .mapping :=
          (mem_namesOf item.1 (some .mapping)).mp (List.mem_map_of_mem (f := Prod.fst) hitem)
        exact hgenerator (hmem.symm.trans hmapping)

/-- **Run:** the constants stay in step with the mapping tables if no table
has more than 1024 mixed blocks; a table with more of them replaces the
constants, and table_blob.inc stays as it was. -/
theorem inStep_executeAll (hz : ∀ data, z.decompress (z.compress data) = some data)
    (h : InStep z files) (cs : List Command)
    (hw : ∀ entries, .idnaTable entries ∈ cs → WellFormed entries) :
    ((∀ entries, .idnaTable entries ∈ cs → (mixedBlocks entries).card ≤ 1024) →
      InStep z (executeAll z files cs)) ∧
    ∀ entries g, WellFormed entries → generateIdna entries = some g →
      1024 < (mixedBlocks entries).card →
        (Command.idnaTable entries).execute z (executeAll z files cs)
          = (⟨mappingConstants g, (executeAll z files cs).blob⟩, false) := by
  constructor
  · intro hcard
    induction cs generalizing files with
    | nil => exact h
    | cons c cs ih =>
      refine ih (inStep_execute hz h ?_) (fun entries hmem => ?_) fun entries hmem => ?_
      · rintro entries rfl
        exact ⟨hw entries List.mem_cons_self, hcard entries List.mem_cons_self⟩
      · exact hw entries (List.mem_cons_of_mem c hmem)
      · exact hcard entries (List.mem_cons_of_mem c hmem)
  · intro entries g hw hg hcard
    obtain ⟨-, -, C, -, -, -, hpacked, -⟩ := h
    have hrun := packed_executeAll hz hpacked cs
    have hnew : (Command.idnaTable entries).change = none := by
      rw [Command.change, Command.generated, hg, Option.map_some, Option.bind_some, dif_neg]
      intro hall
      exact absurd ((admissible_mappingSections_iff hw hg).mp hall) (not_le.mpr hcard)
    have hgen : (Command.idnaTable entries).generated = some (mappingSections g) := by
      rw [Command.generated, hg]
      rfl
    obtain ⟨item, hitem, hbad⟩ := not_admissible_of_change hgen hnew
    rw [Command.execute, hgen]
    dsimp only
    rw [updateBlob_of_not_admissible hz hrun (keys_generated hgen ▸ nodup_namesOf _) hitem hbad,
      Command.constants, hg]
    rfl

theorem card_mixedBlocks_fewEntries : (mixedBlocks fewEntries).card ≤ 1024 :=
  (card_mixedBlocks_le _).trans (by decide +kernel)

/-- Files that begin in step stay so while a table is generated again. -/
theorem inStep_executeAll_few :
    ∃ files, InStep storedZlib files ∧ InStep storedZlib (executeAll storedZlib files
      [.packTables, .idnaTable fewEntries, .derivedTable [(0x61, 0x7A)] []]) := by
  obtain ⟨g, hg⟩ := Option.isSome_iff_exists.mp
    (show (generateIdna fewEntries).isSome = true by decide +kernel)
  have hall := (admissible_mappingSections_iff wellFormed_fewEntries hg).mpr
    card_mixedBlocks_fewEntries
  obtain ⟨text, htext⟩ := exists_packed storedZlib_correct.decompress_compress
    (emptyContents.apply ⟨mappingSections g, hall⟩)
  have hstart : InStep storedZlib ⟨mappingConstants g, text⟩ :=
    ⟨fewEntries, g, _, wellFormed_fewEntries, hg, rfl, htext, fun item hitem =>
      overwrite_eq_of_mem _ (show (namesOf (some .mapping)).Nodup from nodup_namesOf _) hitem⟩
  have hentries : ∀ entries, Command.idnaTable entries ∈ [Command.packTables,
      .idnaTable fewEntries, .derivedTable [(0x61, 0x7A)] []] → entries = fewEntries := by
    simp
  refine ⟨_, hstart, (inStep_executeAll storedZlib_correct.decompress_compress hstart _ ?_).1 ?_⟩
  · intro entries hmem
    rw [hentries entries hmem]
    exact wellFormed_fewEntries
  · intro entries hmem
    rw [hentries entries hmem]
    exact card_mixedBlocks_fewEntries

/-! ### The last runs -/

/-- The last successful run of a generator. -/
def lastRun (g : Generator) (cs : List Command) : Option Command :=
  (cs.filter fun c => c.change.isSome && c.generator == some g).getLast?

theorem lastRun_concat (g : Generator) (cs : List Command) (c : Command) :
    lastRun g (cs ++ [c])
      = if c.change.isSome && c.generator == some g then some c else lastRun g cs := by
  rw [lastRun, List.filter_append, List.filter_cons]
  split_ifs with h
  · rw [List.filter_nil, List.getLast?_concat]
  · rw [List.filter_nil, List.append_nil, lastRun]

/-- Its sections are those that are packed last. -/
theorem lastOf_changesOf (g : Generator) (cs : List Command) :
    lastOf (some g) (changesOf cs) = (lastRun g cs).bind Command.change := by
  induction cs using List.reverseRecOn with
  | nil => rfl
  | append_singleton cs c ih =>
    rw [lastRun_concat, changesOf, List.filterMap_append]
    change lastOf (some g) (changesOf cs ++ _) = _
    rcases hnew : c.change with - | new
    · rw [List.filterMap_cons_none (by rw [hnew]; rfl), List.filterMap_nil, List.append_nil, ih]
      rfl
    · rw [List.filterMap_cons_some (by rw [hnew]; rfl), List.filterMap_nil, lastOf_concat, ih]
      by_cases hc : c.generator = some g
      · rw [if_pos hc, if_pos (by rw [hc]; exact beq_self_eq_true _), Option.bind_some, hnew]
      · rw [if_neg hc, if_neg (by simpa using hc)]

/-- **The constants after a run** are those of the last mapping table. -/
theorem constants_executeAll (hz : ∀ data, z.decompress (z.compress data) = some data)
    (h : Packed z C files.blob) (cs : List Command)
    (hw : ∀ entries, .idnaTable entries ∈ cs →
      WellFormed entries ∧ (mixedBlocks entries).card ≤ 1024) :
    (executeAll z files cs).constants
      = ((lastRun .mapping cs).bind Command.constants).getD files.constants := by
  induction cs using List.reverseRecOn with
  | nil => rfl
  | append_singleton cs c ih =>
    have ih := ih fun entries hmem => hw entries (List.mem_append_left _ hmem)
    have hlast : executeAll z files (cs ++ [c]) = (c.execute z (executeAll z files cs)).1 := by
      rw [executeAll, List.foldl_append]
      rfl
    have hpacked := packed_executeAll hz h cs
    rw [hlast, lastRun_concat]
    rcases hnew : c.change with - | new
    · refine (constants_of_no_change hz hpacked hnew ?_).trans ih
      rintro entries rfl
      exact hw entries (List.mem_append_right _ List.mem_cons_self)
    · obtain ⟨text, hexec, -⟩ := execute_of_change hz hpacked hnew
      rw [hexec]
      cases c with
      | idnaTable entries =>
        obtain ⟨g, hg, -⟩ := Option.map_eq_some_iff.mp (generated_of_change hnew)
        show (Command.constants (.idnaTable entries)).getD _
          = (Option.bind (some (Command.idnaTable entries)) Command.constants).getD _
        rw [Option.bind_some, Command.constants, hg]
        rfl
      | _ => exact ih

end Generators

end AdaIdna
