/-
AdaIdna/AsciiPrefix.lean

ASCII labels in a domain name that is not ASCII.

Alone, an ASCII string takes the ASCII path and is only lower-cased.  In front
of labels that are not ASCII it goes through mapping, normalization and the
walk over the labels, which lower-case it too, but check its ACE labels.  What
they check is what `to_unicode` checks before it replaces a label.
-/
import AdaIdna.MappingShape

namespace AdaIdna

open Labels

variable {T : Tables} {L a b y : Bytes} {s n : U32String}

/-! ### One label -/

/-- `to_unicode` on a single label. -/
theorem toUnicode_of_label (hlen : L.length ≤ maxDomainInputBytes) (hdot : dotByte ∉ L) :
    toUnicode T L = unicodeLabel T L := by
  rw [toUnicode_eq hlen, List.splitOn_eq_singleton hdot, List.map_singleton, join_singleton]

/-- **The ACE labels that `to_ascii` lets pass** are those that `to_unicode`
changes, and any other ASCII label passes. -/
theorem asciiLabel_of_isAsciiBytes (hsur : SurrogatesDisallowed T) (hL : isAsciiBytes L = true)
    (hlen : L.length ≤ maxDomainInputBytes) (hdot : dotByte ∉ L) :
    asciiLabel T (L.map UInt8.toNat) = some y ↔
      y = L ∧ (acePrefixBytes.isPrefixOf L = true → toUnicode T L ≠ L) := by
  have hascii : isAscii (L.map UInt8.toNat) = true := isAscii_iff.mpr (isAscii_of_isAsciiBytes hL)
  rw [toUnicode_of_label hlen hdot, ← isAcePrefix_map_toNat]
  by_cases hace : isAcePrefix (L.map UInt8.toNat) = true
  · rw [asciiLabel_of_ace hace, map_toChar_map_toNat, and_iff_right hascii]
    refine and_congr_right fun _ => ?_
    rw [isAcePrefix_map_toNat] at hace
    obtain ⟨q, rfl⟩ := isAcePrefixBytes_iff.mp hace
    have hdrop : (acePrefixBytes ++ q).drop 4 = q := rfl
    rw [hdrop]
    constructor
    · rintro ⟨w, hq, hw⟩ - heq
      obtain ⟨hwascii, hmap, -, -⟩ := acceptDecoded_iff.mp hw
      have hsc := hsur.isScalar_of_map hmap
      -- the decoded label is not ASCII, and its encoding neither
      rw [unicodeLabel_of_accepted hL rfl hq hw hsc] at heq
      rw [← isAsciiBytes_encodeUtf8 hsc, heq, hL] at hwascii
      cases hwascii
    · intro hne
      by_contra hw
      refine hne (isAcePrefix_map_toNat _ ▸ hace) (unicodeLabel_of_rejected rfl fun w hq => ?_)
      rw [Bool.eq_false_iff]
      exact fun haccept => hw ⟨w, hq, haccept⟩
  · rw [Bool.not_eq_true] at hace
    rw [asciiLabel_of_ascii hascii hace, map_toChar_map_toNat, hace]
    simp [eq_comm]

/-! ### The domain name -/

theorem map_toNat_map_toLower (a : Bytes) :
    (a.map toLower).map UInt8.toNat = (a.map UInt8.toNat).map lowerCode := by
  rw [List.map_map, List.map_map]
  exact List.map_congr_left fun b _ => toNat_toLower b

theorem isAsciiBytes_map_toLower (ha : isAsciiBytes a = true) :
    isAsciiBytes (a.map toLower) = true := by
  apply isAsciiBytes_iff.mpr
  intro b hb
  obtain ⟨c, hc, rfl⟩ := List.mem_map.mp hb
  rw [toNat_toLower]
  exact lowerCode_lt (isAsciiBytes_iff.mp ha c hc)

/-- Mapping treats the parts of a string one by one. -/
theorem map_append {t m : U32String} :
    map T (s ++ t) = some m ↔ ∃ m₁ m₂, map T s = some m₁ ∧ map T t = some m₂ ∧ m = m₁ ++ m₂ := by
  simp only [map_eq_some, List.forall_mem_append, List.flatMap_append]
  constructor
  · rintro ⟨htables, ⟨hs, ht⟩, rfl⟩
    exact ⟨_, _, ⟨htables, hs, rfl⟩, ⟨htables, ht, rfl⟩, rfl⟩
  · rintro ⟨m₁, m₂, ⟨htables, hs, rfl⟩, ⟨-, ht, rfl⟩, rfl⟩
    exact ⟨htables, ⟨hs, ht⟩, rfl⟩

/-- **The mapped form of an ASCII prefix** is its lower case. -/
theorem prepare_append (hg : GeneratorShape T) (ha : AsciiRows T)
    (hfirst : ∀ b c, ¬ IsPair T dot b c) (hascii : isAsciiBytes a = true)
    (hprep : prepare T b = some n) :
    prepare T (a ++ dotByte :: b) = some ((a.map toLower).map UInt8.toNat ++ dot :: n) := by
  obtain ⟨s, hread, hn⟩ := Option.bind_eq_some_iff.mp hprep
  obtain ⟨hne, hsc, rfl⟩ := readInput_eq_some.mp hread
  rw [mapAndNormalize_eq hg ha.toAsciiInert] at hn
  obtain ⟨m, hm, rfl⟩ := Option.map_eq_some_iff.mp hn
  have hlt := isAscii_of_isAsciiBytes hascii
  have hinput : readInput T (a ++ dotByte :: encodeUtf8 s)
      = some (a.map UInt8.toNat ++ dot :: s) := by
    refine readInput_eq_some.mpr ⟨by simp, ?_, ?_⟩
    · refine List.forall_mem_append.mpr ⟨fun c hc => ?_, List.forall_mem_cons.mpr ⟨by decide, hsc⟩⟩
      have := hlt c hc
      exact ⟨by omega, by omega⟩
    · rw [encodeUtf8_append, encodeUtf8_of_ascii hlt, map_toChar_map_toNat]
      rfl
  have htables := (map_eq_some.mp hm).1
  have hmap : map T (a.map UInt8.toNat ++ dot :: s)
      = some ((a.map toLower).map UInt8.toNat ++ dot :: m) := by
    refine map_append.mpr ⟨_, dot :: m, ha.map htables hlt, ?_, ?_⟩
    · refine map_append (s := [dot]) |>.mpr ⟨[dot], m, ?_, hm, rfl⟩
      exact map_eq_self htables fun c hc => by rw [List.mem_singleton.mp hc, ha.image_dot]
    · rw [map_toNat_map_toLower]
  have hlower : nfc T ((a.map toLower).map UInt8.toNat) = (a.map toLower).map UInt8.toNat :=
    ha.toAsciiInert.nfc (isAscii_of_isAsciiBytes (isAsciiBytes_map_toLower hascii))
  rw [prepare, hinput, Option.bind_some, mapAndNormalize_eq hg ha.toAsciiInert, hmap,
    Option.map_some, nfc_append_dot hg (ha.toAsciiInert.dotApart hfirst), hlower]

/-- The result for an ASCII prefix. -/
theorem toAscii_append_eq_true (hg : GeneratorShape T) (ha : AsciiRows T)
    (hfirst : ∀ b c, ¬ IsPair T dot b c) (hsur : SurrogatesDisallowed T)
    (hascii : isAsciiBytes a = true) (hb : isAsciiBytes b = false) (hy : toAscii T b = (true, y))
    (hlen : (a ++ dotByte :: b).length ≤ maxDomainInputBytes) (z : Bytes) :
    toAscii T (a ++ dotByte :: b) = (true, z) ↔
      (∀ L ∈ (a.map toLower).splitOn dotByte,
        acePrefixBytes.isPrefixOf L = true → toUnicode T L ≠ L) ∧
        z = a.map toLower ++ dotByte :: y := by
  obtain ⟨-, n, hn, hsome, rfl⟩ := (toAscii_eq_true hb).mp hy
  have hx : isAsciiBytes (a ++ dotByte :: b) = false := by
    rw [isAsciiBytes, List.all_append, List.all_cons]
    rw [isAsciiBytes] at hb
    simp [hb]
  have hlower := isAsciiBytes_map_toLower hascii
  have hlabels : ((a.map toLower).map UInt8.toNat ++ dot :: n).splitOn dot
      = ((a.map toLower).splitOn dotByte).map (List.map UInt8.toNat) ++ n.splitOn dot := by
    rw [List.splitOn_append_cons_self]
    exact congrArg (· ++ _) (splitOn_map (fun _ _ => UInt8.toNat_inj.mp) dotByte _)
  -- each label of the prefix, through the pipeline
  have hlabel : ∀ L ∈ (a.map toLower).splitOn dotByte, ∀ z,
      asciiLabel T (L.map UInt8.toNat) = some z ↔
        z = L ∧ (acePrefixBytes.isPrefixOf L = true → toUnicode T L ≠ L) := by
    intro L hL z
    apply asciiLabel_of_isAsciiBytes hsur _ _ (not_mem_of_mem_splitOn hL)
    · apply isAsciiBytes_iff.mpr
      exact fun c hc => isAsciiBytes_iff.mp hlower c (mem_of_mem_splitOn hL hc)
    · have hle := length_le_of_mem_splitOn hL
      rw [List.length_map] at hle
      rw [List.length_append] at hlen
      omega
  have hisSome : ∀ L ∈ (a.map toLower).splitOn dotByte,
      ((asciiLabel T (L.map UInt8.toNat)).isSome = true ↔
        (acePrefixBytes.isPrefixOf L = true → toUnicode T L ≠ L)) := by
    intro L hL
    rw [Option.isSome_iff_exists]
    simp only [hlabel L hL, exists_and_right, exists_eq, true_and]
  rw [toAscii_eq_true hx, and_iff_right hlen, prepare_append hg ha hfirst hascii hn]
  simp only [Option.some.injEq, exists_eq_left']
  rw [hlabels, List.forall_mem_append, and_iff_left hsome, List.forall_mem_map,
    forall₂_congr hisSome, List.map_append, List.map_map]
  refine and_congr_right fun hace => ?_
  have hcopied : ((a.map toLower).splitOn dotByte).map (asciiLabelOf T ∘ List.map UInt8.toNat)
      = (a.map toLower).splitOn dotByte := by
    refine (List.map_congr_left fun L hL => ?_).trans (List.map_id _)
    exact asciiLabelOf_of_eq ((hlabel L hL L).mpr ⟨rfl, hace L hL⟩)
  rw [hcopied, join_append (by simp) (by simp), join_splitOn]

/-- **The ASCII path and the pipeline agree on ASCII labels**: in front of a
domain name that is not ASCII, an ASCII string is lower-cased as it is alone,
and the result is an error exactly if one of its ACE labels is one that
`to_unicode` leaves as it is. -/
theorem toAscii_append (hg : GeneratorShape T) (ha : AsciiRows T)
    (hfirst : ∀ b c, ¬ IsPair T dot b c) (hsur : SurrogatesDisallowed T)
    (hascii : isAsciiBytes a = true) (hb : isAsciiBytes b = false) (hy : toAscii T b = (true, y))
    (hlen : (a ++ dotByte :: b).length ≤ maxDomainInputBytes) :
    toAscii T a = (true, a.map toLower) ∧
      ((toAscii T (a ++ dotByte :: b)).1 = true ↔
        ∀ L ∈ (a.map toLower).splitOn dotByte,
          acePrefixBytes.isPrefixOf L = true → toUnicode T L ≠ L) ∧
      ((toAscii T (a ++ dotByte :: b)).1 = true →
        (toAscii T (a ++ dotByte :: b)).2 = a.map toLower ++ dotByte :: y) := by
  have key := toAscii_append_eq_true hg ha hfirst hsur hascii hb hy hlen
  have hsuccess : (toAscii T (a ++ dotByte :: b)).1 = true →
      toAscii T (a ++ dotByte :: b) = (true, (toAscii T (a ++ dotByte :: b)).2) :=
    fun h => Prod.ext h rfl
  refine ⟨toAscii_of_ascii hascii, ⟨fun h => ?_, fun h => ?_⟩, fun h => ?_⟩
  · exact ((key _).mp (hsuccess h)).1
  · rw [(key _).mpr ⟨h, rfl⟩]
  · exact ((key _).mp (hsuccess h)).2

/-- `A.xn--9ca.É` in the small tables. -/
theorem toAscii_append_small :
    toAscii smallTables [0x41, 0x2E, 0x78, 0x6E, 0x2D, 0x2D, 0x39, 0x63, 0x61]
        = (true, ([0x41, 0x2E, 0x78, 0x6E, 0x2D, 0x2D, 0x39, 0x63, 0x61] : Bytes).map toLower) ∧
      ((toAscii smallTables ([0x41, 0x2E, 0x78, 0x6E, 0x2D, 0x2D, 0x39, 0x63, 0x61]
          ++ dotByte :: [0x45, 0xCC, 0x81])).1 = true ↔
        ∀ L ∈ (([0x41, 0x2E, 0x78, 0x6E, 0x2D, 0x2D, 0x39, 0x63, 0x61] : Bytes).map
            toLower).splitOn dotByte,
          acePrefixBytes.isPrefixOf L = true → toUnicode smallTables L ≠ L) ∧
      ((toAscii smallTables ([0x41, 0x2E, 0x78, 0x6E, 0x2D, 0x2D, 0x39, 0x63, 0x61]
          ++ dotByte :: [0x45, 0xCC, 0x81])).1 = true →
        (toAscii smallTables ([0x41, 0x2E, 0x78, 0x6E, 0x2D, 0x2D, 0x39, 0x63, 0x61]
            ++ dotByte :: [0x45, 0xCC, 0x81])).2
          = ([0x41, 0x2E, 0x78, 0x6E, 0x2D, 0x2D, 0x39, 0x63, 0x61] : Bytes).map toLower
            ++ dotByte :: [0x78, 0x6E, 0x2D, 0x2D, 0x39, 0x63, 0x61]) :=
  toAscii_append small_generatorShape small_asciiRows small_dotApart.not_first
    small_closed.surrogatesDisallowed (by decide) (by decide) (by decide +kernel) (by decide)

end AdaIdna
