/-
AdaIdna/UnicodeEquivalence.lean

Normalization decides canonical equivalence.

Two strings are canonically equivalent by the Unicode data if one can be made
from the other by canonical mappings, read in either direction, and by
exchanging neighbouring marks of different classes (`CanonicallyEquivalent`).
The definition knows nothing of tables, of an order or of compositions.

Over the tables that are generated from the data, `normalize` returns a string
that is equivalent to its input, and the same one for all strings that are
equivalent (`normalize_eq_iff_equivalent`).  So domain names whose mapped forms
are canonically equivalent have the same ASCII form
(`toAscii_eq_of_equivalent`).
-/
import AdaIdna.UnicodeDataShape
import AdaIdna.DomainLabels

namespace AdaIdna

namespace UnicodeDataTable

open CanonicalOrder StringEquivalence

/-- Canonical equivalence. -/
def CanonicallyEquivalent (ucd : UnicodeData) (s t : U32String) : Prop :=
  Equivalent (canonicalMapping ucd) (cccOf ucd) s t

variable {ucd : UnicodeData} {exclusions : Finset ℕ} {limit : ℕ} {d p : Sections}
  {k : List ℕ × List ℕ} {T : Tables} {s t m m' : U32String} {x y : Bytes}

/-- `decompose_nfc` brings a string into the normal form of the equivalence. -/
theorem decomposeNfc_eq_normalForm (hu : ucd.Standard) (hk : buildCcc ucd = some k)
    (h : Holds T.toTableData d k p) (s : U32String) :
    decomposeNfc T s = normalForm (cccOf ucd) (fullDecomp T) s := by
  rw [decomposeNfc_eq, normalForm, funext (getCcc_eq_cccOf hu hk h)]

theorem equivalent_iff_decomposeNfc (hu : ucd.Standard)
    (hd : buildDecomposition ucd limit = some d) (hk : buildCcc ucd = some k)
    (h : Holds T.toTableData d k p) :
    CanonicallyEquivalent ucd s t ↔ decomposeNfc T s = decomposeNfc T t := by
  rw [decomposeNfc_eq_normalForm hu hk h, decomposeNfc_eq_normalForm hu hk h]
  exact equivalent_iff (expands_fullDecomp hu hd h)

/-- Normal forms are the same exactly if the decompositions are. -/
theorem nfc_eq_nfc_iff (hg : GeneratorShape T) :
    nfc T s = nfc T t ↔ decomposeNfc T s = decomposeNfc T t := by
  constructor
  · intro h
    have hdecompose := fun s =>
      decomposeNfc_compose_decomposeNfc hg.hangul hg.full hg.decompose s
    rw [← hdecompose s, ← hdecompose t]
    exact congrArg (decomposeNfc T) h
  · intro h
    rw [nfc, nfc, h]

theorem nfc_eq_nfc_iff_equivalent (hu : ucd.Standard)
    (hd : buildDecomposition ucd limit = some d) (hk : buildCcc ucd = some k)
    (hp : buildComposition ucd exclusions = some p) (h : Holds T.toTableData d k p) :
    nfc T s = nfc T t ↔ CanonicallyEquivalent ucd s t := by
  rw [nfc_eq_nfc_iff (generatorShape hu hd hk hp h), equivalent_iff_decomposeNfc hu hd hk h]

theorem equivalent_nfc (hu : ucd.Standard) (hd : buildDecomposition ucd limit = some d)
    (hk : buildCcc ucd = some k) (hp : buildComposition ucd exclusions = some p)
    (h : Holds T.toTableData d k p) (s : U32String) :
    CanonicallyEquivalent ucd s (nfc T s) := by
  have hg := generatorShape hu hd hk hp h
  rw [equivalent_iff_decomposeNfc hu hd hk h]
  exact (decomposeNfc_compose_decomposeNfc hg.hangul hg.full hg.decompose s).symm

/-- **`normalize` decides canonical equivalence**: over generated tables it
returns a string that is equivalent to its input, and the same string for two
inputs exactly if these are equivalent. -/
theorem normalize_eq_iff_equivalent (hu : ucd.Standard)
    (hd : buildDecomposition ucd limit = some d) (hk : buildCcc ucd = some k)
    (hp : buildComposition ucd exclusions = some p) (h : Holds T.toTableData d k p)
    (htables : T.ensureTables = true) :
    (∀ s, ∃ n, normalize T s = some n ∧ CanonicallyEquivalent ucd s n) ∧
      ∀ s t, normalize T s = normalize T t ↔ CanonicallyEquivalent ucd s t := by
  have hg := generatorShape hu hd hk hp h
  refine ⟨fun s => ⟨nfc T s, normalize_eq_nfc hg htables s, equivalent_nfc hu hd hk hp h s⟩,
    fun s t => ?_⟩
  rw [normalize_eq_nfc hg htables, normalize_eq_nfc hg htables, Option.some.injEq]
  exact nfc_eq_nfc_iff_equivalent hu hd hk hp h

/-- `ḗ` is `e` with its two marks. -/
theorem normalize_eq_iff_equivalent_few :
    ∃ T : Tables, normalize T [0x1E17] = normalize T [0x65, 0x304, 0x301] := by
  obtain ⟨d, k, p, hd, hk, hp⟩ := exists_build_fewData
  have hholds := holds_withGenerated smallTables.toTableData d k p
  obtain ⟨T, hT⟩ := exists_tables wellFormed_fewData distinctPairs_fewData hd hp hholds
    smallTables.idnaLowRangeEnd_le smallTables.idnaHighIgnoredEnd_le smallTables.dirValue_lt
  have htables : T.ensureTables = true := by
    rw [hT]
    rfl
  rw [← hT] at hholds
  refine ⟨T, ((normalize_eq_iff_equivalent standard_fewData hd hk hp hholds htables).2 _ _).mpr ?_⟩
  have hfirst : Replacement.Step (canonicalMapping fewData) [0x1E17] [0x113, 0x301] :=
    ⟨[], 0x1E17, [], [0x113, 0x301], rfl, rfl, rfl⟩
  have hsecond : Replacement.Step (canonicalMapping fewData) [0x113, 0x301]
      [0x65, 0x304, 0x301] :=
    ⟨[], 0x113, [0x301], [0x65, 0x304], rfl, rfl, rfl⟩
  exact (Step.replace hfirst).equivalent.trans (Step.replace hsecond).equivalent

/-! ### Domain names -/

/-- What `to_ascii` returns depends on the mapped and normalized form alone. -/
theorem toAscii_eq_of_prepare (hx : isAsciiBytes x = false) (hy : isAsciiBytes y = false)
    (hxlen : x.length ≤ maxDomainInputBytes) (hylen : y.length ≤ maxDomainInputBytes)
    (h : prepare T x = prepare T y) : toAscii T x = toAscii T y := by
  have hloop : ∀ {z}, isAsciiBytes z = false → z.length ≤ maxDomainInputBytes →
      toAscii T z = ((prepare T z).map fun n => toAsciiLoop T n.length n []).getD (false, []) := by
    intro z hz hzlen
    rw [toAscii, if_neg (by simp [hz]), if_neg (not_lt.mpr hzlen), prepare]
    rcases readInput T z with - | w
    · rfl
    · rw [Option.bind_some]
      dsimp only
      rcases mapAndNormalize T w with - | n
      · rfl
      · rfl
  rw [hloop hx hxlen, hloop hy hylen, h]

/-- **Canonically equivalent names have the same ASCII form**: the bytes of
two names may differ, as long as what they are mapped to is canonically
equivalent. -/
theorem toAscii_eq_of_equivalent (hu : ucd.Standard) (ha : ucd.AsciiApart)
    (hd : buildDecomposition ucd limit = some d) (hk : buildCcc ucd = some k)
    (hp : buildComposition ucd exclusions = some p) (h : Holds T.toTableData d k p)
    (hx : isAsciiBytes x = false) (hy : isAsciiBytes y = false)
    (hxlen : x.length ≤ maxDomainInputBytes) (hylen : y.length ≤ maxDomainInputBytes)
    (hs : readInput T x = some s) (ht : readInput T y = some t)
    (hm : map T s = some m) (hm' : map T t = some m') (he : CanonicallyEquivalent ucd m m') :
    toAscii T x = toAscii T y := by
  have hg := generatorShape hu hd hk hp h
  have hin := asciiInert hu hd hk hp h ha
  apply toAscii_eq_of_prepare hx hy hxlen hylen
  rw [prepare, prepare, hs, ht, Option.bind_some, Option.bind_some, mapAndNormalize_eq hg hin,
    mapAndNormalize_eq hg hin, hm, hm', Option.map_some, Option.map_some,
    (nfc_eq_nfc_iff_equivalent hu hd hk hp h).mpr he]

/-- `é` may be one character or two. -/
theorem toAscii_eq_of_equivalent_few :
    ∃ T : Tables, toAscii T (encodeUtf8 [0xE9]) = toAscii T (encodeUtf8 [0x65, 0x301]) := by
  obtain ⟨d, k, p, hd, hk, hp⟩ := exists_build_fewData
  have hholds := holds_withGenerated smallTables.toTableData d k p
  obtain ⟨T, hT⟩ := exists_tables wellFormed_fewData distinctPairs_fewData hd hp hholds
    smallTables.idnaLowRangeEnd_le smallTables.idnaHighIgnoredEnd_le smallTables.dirValue_lt
  rw [← hT] at hholds
  have htables : T.ensureTables = true := by
    rw [hT]
    rfl
  have himage : ∀ c, idnaLookup smallTables c = idnaValid → image T c = some [c] := by
    intro c hc
    apply image_of_valid
    rw [← hc, idnaLookup, idnaLookup, hT]
    rfl
  have hread : ∀ s, s ≠ [] → (∀ c ∈ s, IsScalar c) → readInput T (encodeUtf8 s) = some s :=
    fun s hne hsc => readInput_eq_some.mpr ⟨hne, hsc, rfl⟩
  have hmap1 : map T [0xE9] = some [0xE9] :=
    map_eq_self htables (List.forall_mem_singleton.mpr (himage _ (by decide)))
  have hmap2 : map T [0x65, 0x301] = some [0x65, 0x301] := by
    refine map_eq_self htables fun c hc => ?_
    rcases List.mem_pair.mp hc with rfl | rfl
    · exact himage _ (by decide)
    · exact himage _ (by decide)
  have hstep : Replacement.Step (canonicalMapping fewData) [0xE9] [0x65, 0x301] :=
    ⟨[], 0xE9, [], [0x65, 0x301], rfl, rfl, rfl⟩
  exact ⟨T, toAscii_eq_of_equivalent standard_fewData asciiApart_fewData hd hk hp hholds
    (by decide) (by decide) (by decide) (by decide) (hread _ (by decide) (by decide))
    (hread _ (by decide) (by decide)) hmap1 hmap2 (Step.replace hstep).equivalent⟩

end UnicodeDataTable

end AdaIdna
