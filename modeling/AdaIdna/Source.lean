/-
AdaIdna/Source.lean

The data behind the tables, and what the lookups answer from it.

A `Source` is what the generators read: the entries of the mapping table, the
Unicode data with the composition exclusions and the joining types, and the
ranges of the identifiers.  Tables hold it if they are what the generators
make of it (`Source.HeldBy`), wherever they are stored.

Every lookup of the program is then a question about the source
(`Source.HeldBy.answers`): the image of a code point is that of its entry,
`normalize` is NFC by the Unicode data, a label is valid by the properties of
its characters, and an identifier is one of the ranges.  Labels are counted in
an `int`; those of a domain name are short enough (`Source.HeldBy.length_label_le`).
-/
import AdaIdna.IdnaMeaning
import AdaIdna.LabelLength
import AdaIdna.UnicodeNfc
import AdaIdna.ValidityTables

namespace AdaIdna

open IdnaTable hiding Holds blockBits blockSize
open UnicodeDataTable

/-- The data that the generators read; `limit` bounds the recursion of
`full_decomposition`. -/
structure Source where
  entries : List Entry
  ucd : UnicodeFields
  exclusions : Finset ℕ
  joiningTypes : List (ℕ × ℕ)
  limit : ℕ
  idContinue : List (ℕ × ℕ)
  idStart : List (ℕ × ℕ)

/-- Ranges in ascending order that do not touch one another. -/
def RangesInOrder (ranges : List (ℕ × ℕ)) : Prop :=
  (∀ r ∈ ranges, r.1 ≤ r.2) ∧ ranges.Pairwise fun r r' => r.2 < r'.1

/-- A string of the files has at most so many characters. -/
def maxStringLength : ℕ := 2 ^ 8

/-- What the files of the Unicode database are like. -/
structure Source.Standard (S : Source) : Prop where
  entries : IdnaTable.WellFormed S.entries
  card_le : (mixedBlocks S.entries).card ≤ 512
  length_seq : ∀ e ∈ S.entries, e.seq.length ≤ maxStringLength
  unicode : S.ucd.Standard
  length_decomposition : ∀ cp s, S.ucd.canonical.lookup cp ≠ none →
    IsFullDecomposition S.ucd.toUnicodeData cp s → s.length ≤ maxStringLength
  ascii : S.ucd.AsciiApart
  distinct : DistinctPairs S.ucd.toUnicodeData S.exclusions
  category : (S.ucd.category.map Prod.fst).Nodup
  idContinue : RangesInOrder S.idContinue
  idStart : RangesInOrder S.idStart

/-- The ranges that the program reads are those of the list. -/
structure HoldsRanges (ranges : List (ℕ × ℕ)) (table : Option (ℕ → ℕ × ℕ)) (count : ℕ) :
    Prop where
  count : count = ranges.length
  table : ∃ f, table = some f ∧ ∀ i r, ranges[i]? = some r → f i = r

/-- The tables are what the generators make of the source. -/
structure Source.HeldBy (S : Source) (D : TableData) (ids : IdTables) : Prop where
  ensured : D.ensureTables = true
  mapping : ∃ g, generateIdna S.entries = some g ∧ IdnaTable.Holds D g
  unicode : ∃ d k p v, buildDecomposition S.ucd.toUnicodeData S.limit = some d ∧
    buildCcc S.ucd.toUnicodeData = some k ∧
    buildComposition S.ucd.toUnicodeData S.exclusions = some p ∧
    buildValidity S.ucd S.joiningTypes = some v ∧ Holds D d k p ∧ HoldsValidity D v
  idContinue : HoldsRanges S.idContinue ids.idContinue ids.idContinueCount
  idStart : HoldsRanges S.idStart ids.idStart ids.idStartCount

/-- What the lookups answer. -/
structure Source.Answers (S : Source) (T : Tables) (ids : IdTables) : Prop where
  image : ∀ c, image T c = (statusOf S.entries c).image c
  normalize : ∀ s n, normalize T s = some n ↔ IsNfc S.ucd.toUnicodeData S.exclusions s n
  isLabelValid : ∀ label, label.length ≤ 2 ^ 31 →
    (isLabelValid T label = true ↔ (propertiesOf S.ucd S.joiningTypes).LabelRule label)
  validNameCodePoint : ∀ c first, validNameCodePoint T ids c first = true ↔
    IsAsciiName c first ∨ IsScalar c ∧
      ∃ r ∈ (if first then S.idStart else S.idContinue), r.1 ≤ c ∧ c ≤ r.2

/-! ### Ranges -/

section Ranges

variable {ranges : List (ℕ × ℕ)} {f : ℕ → ℕ × ℕ}

theorem inOrder_of_rangesInOrder (h : RangesInOrder ranges)
    (hf : ∀ i r, ranges[i]? = some r → f i = r) : InOrder f ranges.length := by
  have hget : ∀ i (hi : i < ranges.length), f i = ranges[i] :=
    fun i hi => hf i _ (List.getElem?_eq_getElem hi)
  constructor
  · intro i hi
    rw [hget i hi]
    exact h.1 _ (List.getElem_mem hi)
  · intro i j hij hj
    rw [hget i (hij.trans hj), hget j hj]
    exact List.pairwise_iff_getElem.mp h.2 i j (hij.trans hj) hj hij

theorem inUnion_iff (hf : ∀ i r, ranges[i]? = some r → f i = r) (c : ℕ) :
    InUnion f ranges.length c ↔ ∃ r ∈ ranges, r.1 ≤ c ∧ c ≤ r.2 := by
  constructor
  · rintro ⟨i, hi, hle⟩
    rw [hf i _ (List.getElem?_eq_getElem hi)] at hle
    exact ⟨ranges[i], List.getElem_mem hi, hle⟩
  · rintro ⟨r, hr, hle⟩
    obtain ⟨i, hi⟩ := List.getElem?_of_mem hr
    refine ⟨i, (List.getElem?_eq_some_iff.mp hi).1, ?_⟩
    rw [hf i r hi]
    exact hle

end Ranges

/-! ### The tables that hold a source -/

theorem length_le_of_statusOf {entries : List Entry} {k c : ℕ} {s : U32String}
    (h : ∀ e ∈ entries, e.seq.length ≤ k) (hs : statusOf entries c = .text s) : s.length ≤ k := by
  rw [statusOf] at hs
  split at hs
  case h_1 e hfind =>
    have hseq := h e (List.mem_of_find?_eq_some hfind)
    rw [Entry.status] at hs
    split at hs
    · obtain rfl := Status.text.inj hs
      exact Nat.zero_le _
    · cases hs
    · cases hs
    · obtain rfl := Status.text.inj hs
      exact hseq
  case h_2 => cases hs

section HeldBy

variable {S : Source} {D : TableData} {T : Tables} {ids : IdTables}

/-- Data that holds a source is safe to read. -/
theorem Source.HeldBy.exists_tables (hs : S.Standard) (h : S.HeldBy D ids) :
    ∃ T : Tables, T.toTableData = D := by
  obtain ⟨g, hg, hD⟩ := h.mapping
  obtain ⟨d, k, p, v, hd, hk, hp, hv, hN, hV⟩ := h.unicode
  obtain ⟨-, -, hlow, -, hhigh, -⟩ := of_generateIdna hg
  refine UnicodeDataTable.exists_tables hs.unicode.toWellFormed hs.distinct hd hp hN ?_ ?_
    (dirValue_lt hv hV)
  · rw [hD.lowRangeEnd, hlow]
    exact (computeLowRangeEnd_spec _ _).2.2 hs.entries.lt
  · rw [hD.highIgnoredEnd, hhigh]
    exact highIgnored_le hs.entries

variable (hs : S.Standard) (h : S.HeldBy T.toTableData ids)
include hs h

/-- Normalization has the shape that it relies on, and leaves ASCII alone. -/
theorem Source.HeldBy.shape : GeneratorShape T ∧ DotApart T ∧ AsciiInert T := by
  obtain ⟨d, k, p, v, hd, hk, hp, hv, hN, hV⟩ := h.unicode
  exact ⟨generatorShape hs.unicode hd hk hp hN, dotApart hs.unicode hd hk hp hN hs.ascii,
    asciiInert hs.unicode hd hk hp hN hs.ascii⟩

/-- **The lookups answer from the source.** -/
theorem Source.HeldBy.answers : S.Answers T ids := by
  obtain ⟨g, hg, hD⟩ := h.mapping
  obtain ⟨d, k, p, v, hd, hk, hp, hv, hN, hV⟩ := h.unicode
  refine ⟨fun c => ?_, fun s n => ?_, fun label hlen => ?_, fun c first => ?_⟩
  · rw [← map_singleton h.ensured]
    exact map_eq_of_card_le hs.entries hg hD hs.card_le
  · rw [normalize_eq_nfc (h.shape hs).1 h.ensured, Option.some.injEq]
    exact nfc_eq_iff_isNfc hs.unicode hd hk hp hN
  · rw [isLabelValid_iff h.ensured hlen,
      properties_eq hs.unicode.ccc_lt hk hN hs.category hv hV]
  · obtain ⟨cont, hcont, hcontinue⟩ := h.idContinue.table
    obtain ⟨start, hstart, hstarts⟩ := h.idStart.table
    rw [validNameCodePoint_iff h.ensured hstart hcont]
    · refine or_congr_right (and_congr_right fun _ => ?_)
      cases first
      · rw [h.idContinue.count]
        exact inUnion_iff hcontinue c
      · rw [h.idStart.count]
        exact inUnion_iff hstarts c
    · cases first
      · rw [h.idContinue.count]
        exact inOrder_of_rangesInOrder hs.idContinue hcontinue
      · rw [h.idStart.count]
        exact inOrder_of_rangesInOrder hs.idStart hstarts

theorem Source.HeldBy.length_imageOf_le (c : ℕ) : (imageOf T c).length ≤ maxStringLength := by
  rw [imageOf, (h.answers hs).image]
  cases hst : statusOf S.entries c with
  | disallowed => exact Nat.zero_le _
  | valid => exact Nat.one_le_two_pow
  | text s => exact length_le_of_statusOf hs.length_seq hst

theorem Source.HeldBy.length_fullDecomp_le (c : ℕ) :
    (fullDecomp T c).length ≤ maxStringLength := by
  obtain ⟨d, k, p, v, hd, hk, hp, hv, hN, hV⟩ := h.unicode
  apply AdaIdna.length_fullDecomp_le (by decide)
  by_cases hs' : isHangulS c
  · -- syllables have a formula, and nothing is stored for them
    rw [storedDecomp_eq_nil_iff.mpr (by rw [canonicalDecompLength, if_pos hs'])]
    exact Nat.zero_le _
  · rcases hm : S.ucd.canonical.lookup c with - | m
    · rw [storedDecomp_of_lookup_none hs.unicode hd hN hs' hm]
      exact Nat.zero_le _
    · have hfull := storedDecomp_of_lookup hs.unicode hd hN hm
      rw [fullDecomposition_eq, mappingOf_false] at hfull
      exact hs.length_decomposition c _ (hm ▸ Option.some_ne_none m)
        (Replacement.fullExpansion_of_expand hfull)

/-- The labels of a domain name within the limit. -/
theorem Source.HeldBy.length_label_le {x : Bytes} {n l : U32String}
    (hlen : x.length ≤ maxDomainInputBytes) (hn : prepare T x = some n) (hl : l ∈ n.splitOn dot) :
    l.length ≤ 2 ^ 31 :=
  (length_le_of_prepare (h.length_imageOf_le hs) (h.length_fullDecomp_le hs) hlen hn hl).trans
    (by decide)

end HeldBy

/-! ### A small source -/

/-- If nothing is refused, there are tables that hold the source. -/
theorem Source.Standard.exists_heldBy {S : Source} (hs : S.Standard) {g : Generated}
    {d p : Sections} {k : List ℕ × List ℕ} {v : ValiditySections}
    (hg : generateIdna S.entries = some g)
    (hd : buildDecomposition S.ucd.toUnicodeData S.limit = some d)
    (hk : buildCcc S.ucd.toUnicodeData = some k)
    (hp : buildComposition S.ucd.toUnicodeData S.exclusions = some p)
    (hv : buildValidity S.ucd S.joiningTypes = some v) :
    ∃ (T : Tables) (ids : IdTables), S.HeldBy T.toTableData ids := by
  obtain ⟨T₀, hT₀⟩ := exists_holds hs.entries hg
  have hget : ∀ ranges : List (ℕ × ℕ),
      HoldsRanges ranges (some (ranges.getD · (0, 0))) ranges.length :=
    fun ranges => ⟨rfl, _, rfl, fun _ _ h => Buffer.getD_of_getElem? h _⟩
  have h : S.HeldBy (withValidity (withGenerated T₀.toTableData d k p) v)
      ⟨some (S.idStart.getD · (0, 0)), S.idStart.length, some (S.idContinue.getD · (0, 0)),
        S.idContinue.length⟩ :=
    { ensured := hT₀.ensureTables
      mapping := ⟨g, hg, hT₀.1, hT₀.2, hT₀.3, hT₀.4, hT₀.5, hT₀.6, hT₀.7, hT₀.8⟩
      unicode := ⟨d, k, p, v, hd, hk, hp, hv, (holds_withGenerated _ d k p).withValidity v,
        holdsValidity_withValidity _ v⟩
      idContinue := hget S.idContinue
      idStart := hget S.idStart }
  obtain ⟨T, hT⟩ := h.exists_tables hs
  exact ⟨T, _, hT ▸ h⟩

/-- The letters `a` to `z` and `é`, and what is mapped to them. -/
def fewSource : Source where
  entries := [⟨0x41, 0x41, .mapped, [0x61]⟩, ⟨0x61, 0x7A, .valid, []⟩,
    ⟨0xC9, 0xC9, .mapped, [0xE9]⟩, ⟨0xE9, 0xE9, .valid, []⟩, ⟨0xE0100, 0xE01EF, .ignored, []⟩]
  ucd := { fewData with
    category := [(0x61, "Ll"), (0xE9, "Ll"), (0x301, "Mn")]
    bidi := [(0x61, "L"), (0xE9, "L"), (0x301, "NSM")] }
  exclusions := ∅
  joiningTypes := []
  limit := 3
  idContinue := [(0x61, 0x7A), (0xE9, 0xE9)]
  idStart := [(0xE9, 0xE9)]

theorem standard_fewSource : fewSource.Standard where
  entries :=
    { le := by decide
      lt := by decide
      disjoint := by decide
      scalar := by decide
      high_ignored := by decide +kernel
      high_contiguous := by
        intro cp hlo hhi
        have heq : highIgnored fewSource.entries = (0xE0100, 0xE01F0) := by decide +kernel
        rw [heq] at hlo hhi
        exact ⟨⟨0xE0100, 0xE01EF, .ignored, []⟩, by decide, rfl, hlo, Nat.le_of_lt_succ hhi⟩ }
  card_le := (card_mixedBlocks_le _).trans (by decide +kernel)
  length_seq := by decide
  unicode := standard_fewData
  length_decomposition _ _ hc h := (length_fullExpansion_fewData hc h).trans (by decide)
  ascii := asciiApart_fewData
  distinct := distinctPairs_fewData
  category := by decide
  idContinue := ⟨by decide, by decide⟩
  idStart := ⟨by decide, by decide⟩

theorem exists_build_fewSource :
    ∃ d k p v, buildDecomposition fewSource.ucd.toUnicodeData fewSource.limit = some d ∧
      buildCcc fewSource.ucd.toUnicodeData = some k ∧
      buildComposition fewSource.ucd.toUnicodeData fewSource.exclusions = some p ∧
      buildValidity fewSource.ucd fewSource.joiningTypes = some v := by
  obtain ⟨d, k, p, hd, hk, hp⟩ := exists_build_fewData
  obtain ⟨v, hv⟩ : ∃ v, buildValidity fewSource.ucd fewSource.joiningTypes = some v := by
    rw [buildValidity, if_neg (by decide)]
    exact ⟨_, rfl⟩
  exact ⟨d, k, p, v, hd, hk, hp, hv⟩

theorem exists_heldBy_fewSource :
    ∃ (T : Tables) (ids : IdTables), fewSource.HeldBy T.toTableData ids := by
  obtain ⟨g, hg⟩ := Option.isSome_iff_exists.mp
    (show (generateIdna fewSource.entries).isSome = true by decide +kernel)
  obtain ⟨d, k, p, v, hd, hk, hp, hv⟩ := exists_build_fewSource
  exact standard_fewSource.exists_heldBy hg hd hk hp hv

end AdaIdna
