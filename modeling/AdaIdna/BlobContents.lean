/-
AdaIdna/BlobContents.lean

table_blob.inc as a store of sections.

pack_tables.py and the generators never change table_blob.inc in place: they
load all sections, replace some of them and write the whole file again.  What
the file says is a store in the sense of `Overwrite`, whose sections hold
values that `struct.pack` takes and whose multistage blocks are whole rows
(`Admissible`); exactly these can be written (`exists_writeBlob_iff_admissible`).
Rewriting the file is a change of this store, and it fails, with the file as it
was, if a new section is not admissible (`updateBlob_of_not_admissible`).

table_store.hpp asserts more about the constants of the file at compile time
(`StaticAsserts`).  All that depends on the sections is `Shaped`: the number of
blocks, tables of equal length and ranges that come in pairs
(`WrittenFor.staticAsserts_iff`).
-/
import AdaIdna.BlobRoundTrip
import AdaIdna.Lib.Overwrite

namespace AdaIdna

namespace TableBlob

open PackTables Overwrite

variable {z : Zlib} {vals : BlobSection → List ℕ} {b : Blob} {text : List Char}

/-! ### Sections that can be written -/

/-- The length of the rows of a section. -/
def rowLength : BlobSection → ℕ
  | .decompositionBlock => 257
  | .cccBlock => 256
  | .compositionBlock => 257
  | _ => 1

/-- `struct.pack` takes the values, and `block_rows` the rows. -/
def Admissible (s : BlobSection) (l : List ℕ) : Prop :=
  (∀ v ∈ l, v < 2 ^ (8 * pointerWidth s)) ∧ rowLength s ∣ l.length

instance (s : BlobSection) (l : List ℕ) : Decidable (Admissible s l) :=
  inferInstanceAs (Decidable (_ ∧ _))

theorem fits_iff : PackTables.Fits vals ↔ ∀ s, ∀ v ∈ vals s, v < 2 ^ (8 * pointerWidth s) := by
  constructor
  · intro h s
    obtain ⟨kind, hs⟩ := exists_kind s
    rw [pointerWidth_eq _ hs]
    exact h _ hs
  · intro h item hitem
    rw [← pointerWidth_eq item hitem]
    exact h item.1

theorem lt_of_packValues {kind : Kind} {l : List ℕ} {packed : Bytes}
    (h : packValues kind l = some packed) : ∀ v ∈ l, v < 2 ^ (8 * kind.width) := by
  obtain ⟨parts, hparts, -⟩ := Option.map_eq_some_iff.mp h
  clear h packed
  induction l generalizing parts with
  | nil => exact nofun
  | cons v l ih =>
    rw [List.mapM_cons] at hparts
    obtain ⟨part, hpart, hrest⟩ := Option.bind_eq_some_iff.mp hparts
    obtain ⟨parts', hparts', -⟩ := Option.bind_eq_some_iff.mp hrest
    rintro v' (- | ⟨-, hv'⟩)
    · by_contra hv
      rw [packValue, if_neg hv] at hpart
      cases hpart
    · exact ih parts' hparts' v' hv'

/-- What is laid out has been packed. -/
theorem lt_of_foldlM {items : List (BlobSection × Kind)} {r : Bytes × List Placed}
    (h : items.foldlM (placeSection fun s => some (vals s)) ([], []) = some r) :
    ∀ item ∈ items, ∀ v ∈ vals item.1, v < 2 ^ (8 * item.2.width) := by
  induction items using List.reverseRecOn generalizing r with
  | nil => exact nofun
  | append_singleton items item ih =>
    rw [List.foldlM_append] at h
    obtain ⟨r', hr', hlast⟩ := Option.bind_eq_some_iff.mp h
    obtain ⟨r'', hplace, -⟩ := Option.bind_eq_some_iff.mp hlast
    intro item' hitem'
    rcases List.mem_append.mp hitem' with hmem | hmem
    · exact ih hr' item' hmem
    · obtain rfl := List.mem_singleton.mp hmem
      obtain ⟨packed, hpacked, -⟩ := Option.bind_eq_some_iff.mp hplace
      exact lt_of_packValues hpacked

/-- **Only admissible sections** are written, and all of them are. -/
theorem exists_writeBlob_iff_admissible (hz : ∀ data, z.decompress (z.compress data) = some data) :
    (∃ b, writeBlob (fun s => some (vals s)) z = some b) ↔ ∀ s, Admissible s (vals s) := by
  have hrows : (257 ∣ (vals .decompositionBlock).length ∧ 256 ∣ (vals .cccBlock).length ∧
      257 ∣ (vals .compositionBlock).length) ↔ ∀ s, rowLength s ∣ (vals s).length := by
    constructor
    · rintro ⟨hd, hc, hp⟩ s
      cases s
      case decompositionBlock => exact hd
      case cccBlock => exact hc
      case compositionBlock => exact hp
      all_goals exact one_dvd _
    · intro h
      exact ⟨h .decompositionBlock, h .cccBlock, h .compositionBlock⟩
  constructor
  · rintro ⟨b, hb⟩
    obtain ⟨⟨payload, layout⟩, hlayout, -⟩ := Option.bind_eq_some_iff.mp hb
    have hfits : PackTables.Fits vals := lt_of_foldlM hlayout
    have hdvd := hrows.mp ((exists_writeBlob_iff hlayout (hz payload)).mp ⟨b, hb⟩)
    exact fun s => ⟨fits_iff.mp hfits s, hdvd s⟩
  · intro h
    obtain ⟨payload, layout, hlayout, -⟩ := exists_computeLayout (fits_iff.mpr fun s => (h s).1)
    exact (exists_writeBlob_iff hlayout (hz payload)).mpr (hrows.mpr fun s => (h s).2)

/-! ### The file as a store -/

/-- What table_blob.inc says. -/
abbrev Contents : Type := Store Admissible

/-- New sections for it. -/
abbrev NewSections : Type := Change Admissible

/-- The text of table_blob.inc says `C`. -/
def Packed (z : Zlib) (C : Contents) (text : List Char) : Prop :=
  ∃ b, writeBlob (fun s => some (C.val s)) z = some b ∧ text = b.text

theorem exists_packed (hz : ∀ data, z.decompress (z.compress data) = some data) (C : Contents) :
    ∃ text, Packed z C text := by
  obtain ⟨b, hb⟩ := (exists_writeBlob_iff_admissible hz).mpr C.allowed
  exact ⟨b.text, b, hb, rfl⟩

/-- The text is determined by the sections. -/
theorem Packed.unique {C : Contents} {text' : List Char} (h : Packed z C text)
    (h' : Packed z C text') : text = text' := by
  obtain ⟨b, hb, rfl⟩ := h
  obtain ⟨b', hb', rfl⟩ := h'
  rw [Option.some.inj (hb.symm.trans hb')]

/-- `sections[name]`, after items were put into the dictionary in this order. -/
def sectionsOf (items : List (BlobSection × List ℕ)) (s : BlobSection) : Option (List ℕ) :=
  items.reverse.lookup s

/-- `load_blob_sections()`, new sections, `write_blob(sections)`; the result is
the text that is written. -/
def updateBlob (z : Zlib) (new : List (BlobSection × List ℕ)) (text : List Char) :
    Option (List Char) := do
  let sections ← loadBlobSections z text
  let b ← writeBlob (sectionsOf (sections ++ new)) z
  some b.text

section Update

variable (hz : ∀ data, z.decompress (z.compress data) = some data) {C : Contents}
include hz

/-- The file is read as what it says. -/
theorem Packed.load (h : Packed z C text) :
    loadBlobSections z text = some (sectionOrder.map fun item => (item.1, C.val item.1)) := by
  obtain ⟨b, hb, rfl⟩ := h
  have hfits : PackTables.Fits C.val := fits_iff.mpr fun s => (C.allowed s).1
  obtain ⟨payload, layout, hlayout, hlaid⟩ := exists_computeLayout hfits
  obtain ⟨rfl, hcompressed, hsize, -, hdims⟩ := written hlayout (hz payload) hb
  refine loadBlobSections_text hfits hlaid hdims ?_ hsize
  rw [hcompressed]
  exact hz payload

omit hz in
/-- Every section is there, and new ones replace it. -/
theorem sectionsOf_append (vals : BlobSection → List ℕ) (new : List (BlobSection × List ℕ)) :
    sectionsOf (sectionOrder.map (fun item => (item.1, vals item.1)) ++ new)
      = fun s => some (overwrite vals new s) := by
  funext s
  have hold : (sectionOrder.map fun item => (item.1, vals item.1)).reverse.lookup s
      = some (vals s) := by
    cases s <;> rfl
  rw [sectionsOf, List.reverse_append, List.lookup_append, hold, overwrite]
  rcases new.reverse.lookup s with - | l
  · rfl
  · rfl

/-- The update is a change of the store, if all of it is admissible. -/
theorem updateBlob_eq (h : Packed z C text) (new : List (BlobSection × List ℕ)) :
    updateBlob z new text
      = (writeBlob (fun s => some (overwrite C.val new s)) z).map Blob.text := by
  rw [updateBlob, h.load hz, Option.bind_eq_bind, Option.bind_some, sectionsOf_append]
  rcases writeBlob (fun s => some (overwrite C.val new s)) z with - | b
  · rfl
  · rfl

/-- **Admissible sections** are written. -/
theorem updateBlob_of_change (h : Packed z C text) (new : NewSections) :
    ∃ text', updateBlob z new.items text = some text' ∧ Packed z (C.apply new) text' := by
  obtain ⟨text', b, hb, rfl⟩ := exists_packed hz (C.apply new)
  refine ⟨b.text, ?_, b, hb, rfl⟩
  rw [updateBlob_eq hz h]
  exact congrArg (Option.map Blob.text) hb

/-- **Others are refused.** -/
theorem updateBlob_of_not_admissible (h : Packed z C text) {new : List (BlobSection × List ℕ)}
    (hnodup : (new.map Prod.fst).Nodup) {item : BlobSection × List ℕ} (hitem : item ∈ new)
    (hbad : ¬ Admissible item.1 item.2) : updateBlob z new text = none := by
  rw [updateBlob_eq hz h]
  rcases hb : writeBlob (fun s => some (overwrite C.val new s)) z with - | b
  · rfl
  · have hall := (exists_writeBlob_iff_admissible hz).mp ⟨b, hb⟩ item.1
    rw [overwrite_eq_of_mem _ hnodup hitem] at hall
    exact absurd hall hbad

end Update

/-! ### The assertions of table_store.hpp -/

/-- `table_blob::name`, one of the dimensions. -/
def dimension (b : Blob) (name : String) : ℕ := (b.dimensions.lookup name).getD 0

/-- The static assertions about the constants of table_blob.inc; the sections
that have to be aligned are those that `convert_table_blob_to_host_endian`
converts. -/
structure StaticAsserts (b : Blob) : Prop where
  decompositionIndex : count b .decompositionIndex = 4352
  cccIndex : count b .cccIndex = 4352
  compositionIndex : count b .compositionIndex = 4352
  decompositionBlock : count b .decompositionBlock
    = dimension b "decomposition_block_rows" * dimension b "decomposition_block_cols"
  cccBlock : count b .cccBlock = dimension b "ccc_block_rows" * dimension b "ccc_block_cols"
  compositionBlock : count b .compositionBlock
    = dimension b "composition_block_rows" * dimension b "composition_block_cols"
  dirTable : count b .dirStart = dimension b "dir_table_count" ∧
    count b .dirFinal = dimension b "dir_table_count" ∧
    count b .dirValue = dimension b "dir_table_count"
  joiningTable : count b .joiningStart = dimension b "joining_table_count" ∧
    count b .joiningFinal = dimension b "joining_table_count" ∧
    count b .joiningValue = dimension b "joining_table_count"
  idContinueFlat : count b .idContinueFlat = dimension b "id_continue_count" * 2
  idStartFlat : count b .idStartFlat = dimension b "id_start_count" * 2
  combiningFlat : count b .combiningFlat = dimension b "combining_range_count" * 2
  aligned : ∀ c ∈ converted, off b c.1 % c.2 = 0
  compressedSize : b.compressedSize = b.compressed.length
  inBounds : ∀ s, off b s + count b s * pointerWidth s ≤ b.uncompressedSize

/-- What the assertions say about the sections. -/
structure Shaped (vals : BlobSection → List ℕ) : Prop where
  decompositionIndex : (vals .decompositionIndex).length = 4352
  cccIndex : (vals .cccIndex).length = 4352
  compositionIndex : (vals .compositionIndex).length = 4352
  dirFinal : (vals .dirFinal).length = (vals .dirStart).length
  dirValue : (vals .dirValue).length = (vals .dirStart).length
  joiningFinal : (vals .joiningFinal).length = (vals .joiningStart).length
  joiningValue : (vals .joiningValue).length = (vals .joiningStart).length
  idContinueFlat : 2 ∣ (vals .idContinueFlat).length
  idStartFlat : 2 ∣ (vals .idStartFlat).length
  combiningFlat : 2 ∣ (vals .combiningFlat).length

/-- The dimensions that are declared. -/
theorem of_dimensionsOf {dims : List (String × ℕ)}
    (h : dimensionsOf (fun s => some (vals s)) = some dims) :
    dims = [("decomposition_block_rows", (vals .decompositionBlock).length / 257),
      ("decomposition_block_cols", 257), ("ccc_block_rows", (vals .cccBlock).length / 256),
      ("ccc_block_cols", 256), ("composition_block_rows", (vals .compositionBlock).length / 257),
      ("composition_block_cols", 257), ("id_continue_count", (vals .idContinueFlat).length / 2),
      ("id_start_count", (vals .idStartFlat).length / 2),
      ("dir_table_count", (vals .dirStart).length),
      ("combining_range_count", (vals .combiningFlat).length / 2),
      ("joining_table_count", (vals .joiningStart).length)] := by
  rw [dimensionsOf, blockRows_eq, blockRows_eq, blockRows_eq] at h
  split_ifs at h
  all_goals first | cases h; rfl | cases h

/-- What is written for the sections of a store. -/
structure WrittenFor (z : Zlib) (vals : BlobSection → List ℕ) (payload : Bytes) (b : Blob) :
    Prop where
  laid : Laid vals sectionOrder payload b.layout
  compressed : b.compressed = z.compress payload
  compressedSize : b.compressedSize = b.compressed.length
  uncompressedSize : b.uncompressedSize = payload.length
  uncompressedCrc32 : b.uncompressedCrc32 = crc32Ieee payload
  dimensions : dimensionsOf (fun s => some (vals s)) = some b.dimensions

theorem exists_writtenFor (hz : ∀ data, z.decompress (z.compress data) = some data)
    (hb : writeBlob (fun s => some (vals s)) z = some b) :
    ∃ payload, WrittenFor z vals payload b := by
  have hall := (exists_writeBlob_iff_admissible hz).mp ⟨b, hb⟩
  obtain ⟨payload, layout, hlayout, hlaid⟩ :=
    exists_computeLayout (fits_iff.mpr fun s => (hall s).1)
  rw [writeBlob_eq hlayout (hz payload)] at hb
  obtain ⟨dims, hdims, rfl⟩ := Option.map_eq_some_iff.mp hb
  exact ⟨payload, hlaid, rfl, rfl, rfl, rfl, hdims⟩

section WrittenFor

variable {payload : Bytes} (h : WrittenFor z vals payload b)
include h

/-- A section is declared with its length, and lies inside the payload. -/
theorem WrittenFor.section (s : BlobSection) :
    count b s = (vals s).length ∧ off b s % pointerWidth s = 0 ∧
      off b s + count b s * pointerWidth s ≤ b.uncompressedSize := by
  obtain ⟨kind, hs⟩ := exists_kind s
  obtain ⟨p, hp, rfl, rfl, hoff, hcount⟩ := exists_place h.laid hs
  have halign : p.kind.align = p.kind.width := by
    rcases p.kind <;> rfl
  rw [hoff, hcount, pointerWidth_eq _ hs, h.uncompressedSize]
  exact ⟨h.laid.count p hp, Nat.mod_eq_zero_of_dvd (halign ▸ h.laid.aligned p hp),
    h.laid.le_length hp⟩

/-- The dimensions are found under their names. -/
theorem WrittenFor.dimension_eq : ∀ d ∈ b.dimensions, dimension b d.1 = d.2 := by
  have hnodup : (b.dimensions.map Prod.fst).Nodup := by
    rw [of_dimensionsOf h.dimensions]
    show dimensionNames.Nodup
    decide
  intro d hd
  rw [dimension, lookup_of_mem hnodup hd, Option.getD_some]

/-- **The assertions hold** exactly if the sections have the right shape. -/
theorem WrittenFor.staticAsserts_iff (hrows : ∀ s, rowLength s ∣ (vals s).length) :
    StaticAsserts b ↔ Shaped vals := by
  have hcount := fun s => (h.section s).1
  have hdim := h.dimension_eq
  rw [of_dimensionsOf h.dimensions] at hdim
  simp only [List.forall_mem_cons] at hdim
  obtain ⟨hdRows, hdCols, hcRows, hcCols, hpRows, hpCols, hcont, hstart, hdir, hcomb, hjoin, -⟩ :=
    hdim
  have hdvd : ∀ s, (vals s).length / rowLength s * rowLength s = (vals s).length :=
    fun s => Nat.div_mul_cancel (hrows s)
  have hpairs : ∀ {n : ℕ}, n = n / 2 * 2 ↔ 2 ∣ n := by
    intro n
    omega
  constructor
  · rintro ⟨hd, hc, hp, -, -, -, ⟨hs, hf, hv⟩, ⟨js, jf, jv⟩, hcf, hsf, hmf, -, -, -⟩
    rw [hcount] at hd hc hp hs hf hv js jf jv hcf hsf hmf
    rw [hcont] at hcf
    rw [hstart] at hsf
    rw [hcomb] at hmf
    exact ⟨hd, hc, hp, hf.trans hs.symm, hv.trans hs.symm, jf.trans js.symm, jv.trans js.symm,
      hpairs.mp hcf, hpairs.mp hsf, hpairs.mp hmf⟩
  · rintro ⟨hd, hc, hp, hf, hv, jf, jv, hcf, hsf, hmf⟩
    refine ⟨?_, ?_, ?_, ?_, ?_, ?_, ?_, ?_, ?_, ?_, ?_, fun c hc => ?_, h.compressedSize,
      fun s => (h.section s).2.2⟩
    · rwa [hcount]
    · rwa [hcount]
    · rwa [hcount]
    · rw [hcount, hdRows, hdCols]
      exact (hdvd .decompositionBlock).symm
    · rw [hcount, hcRows, hcCols]
      exact (hdvd .cccBlock).symm
    · rw [hcount, hpRows, hpCols]
      exact (hdvd .compositionBlock).symm
    · rw [hcount, hcount, hcount, hdir]
      exact ⟨rfl, hf, hv⟩
    · rw [hcount, hcount, hcount, hjoin]
      exact ⟨rfl, jf, jv⟩
    · rw [hcount, hcont]
      exact hpairs.mpr hcf
    · rw [hcount, hstart]
      exact hpairs.mpr hsf
    · rw [hcount, hcomb]
      exact hpairs.mpr hmf
    · obtain ⟨item, hitem, hname, hwidth⟩ := of_mem_converted c hc
      rw [← hname, ← hwidth, ← pointerWidth_eq item hitem]
      exact (h.section item.1).2.1

end WrittenFor

end TableBlob

end AdaIdna
