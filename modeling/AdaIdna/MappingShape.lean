/-
AdaIdna/MappingShape.lean

What the mapping table holds, and what follows for the mapped string.

As in TableShape.lean, every property of the shipped table is a statement
about what the table stores, and the tables for the small alphabet have all of
them.
-/
import AdaIdna.DomainLabels

namespace AdaIdna

open Cluster

variable (T : Tables)

/-! ### Properties of the table -/

/-- An upper case ASCII letter. -/
def IsUpper (c : ℕ) : Prop := 0x41 ≤ c ∧ c ≤ 0x5A

instance (c : ℕ) : Decidable (IsUpper c) := inferInstanceAs (Decidable (_ ∧ _))

/-- The lower case of an ASCII character. -/
def lowerCode (c : ℕ) : ℕ := if IsUpper c then c + 0x20 else c

/-- ASCII in the normalization tables. -/
structure AsciiInert : Prop where
  ccc : ∀ c < 0x80, getCcc T c = 0
  stored : ∀ c < 0x80, storedDecomp T c = []
  not_second : ∀ a b c, IsPair T a b c → 0x80 ≤ b

/-- ASCII in all tables. -/
structure AsciiRows : Prop extends AsciiInert T where
  upper : ∀ c, IsUpper c → image T c = some [c + 0x20]
  valid : ∀ c < 0x80, ¬ IsUpper c → idnaLookup T c = idnaValid

/-- Surrogates are disallowed. -/
def SurrogatesDisallowed : Prop := ∀ c, 0xD800 ≤ c → c < 0xE000 → idnaLookup T c = idnaDisallowed

/-- Mapping leaves every mapped and normalized string as it is. -/
def MapStable : Prop := ∀ s n, mapAndNormalize T s = some n → map T n = some n

/-- No upper case letter can get into a mapped and normalized string. -/
structure NoUpperCase : Prop where
  not_valid : ∀ c, IsUpper c → idnaLookup T c ≠ idnaValid
  not_mapped : ∀ c, idnaLookup T c ≠ idnaValid → ∀ d ∈ imageOf T c, ¬ IsUpper d
  not_decomposed : ∀ s m, map T s = some m → ∀ c ∈ m, ∀ d ∈ storedDecomp T c, ¬ IsUpper d
  not_composed : ∀ a b c, IsPair T a b c → ¬ IsUpper c

variable {T} {s m n : U32String} {c : ℕ}

/-! ### Scalar values -/

/-- Beyond the code space, everything is disallowed. -/
theorem image_eq_none (h : 0x10FFFF < c) : image T c = none := by
  have hlow : ¬ c < T.idnaLowRangeEnd := not_lt.mpr (T.idnaLowRangeEnd_le.trans h)
  have hhigh : ¬ (T.idnaHighIgnoredStart ≤ c ∧ c < T.idnaHighIgnoredEnd) :=
    fun hc => not_lt.mpr (T.idnaHighIgnoredEnd_le.trans h) hc.2
  have hlookup : idnaLookup T c = idnaDisallowed := by
    rw [idnaLookup, if_neg hlow, if_neg hhigh]
  rw [image, hlookup]
  rfl

/-- A character that can be mapped is a scalar value. -/
theorem SurrogatesDisallowed.isScalar (hsur : SurrogatesDisallowed T)
    (h : (image T c).isSome = true) : IsScalar c := by
  constructor
  · by_contra htop
    rw [image_eq_none (not_le.mp htop)] at h
    cases h
  · rintro ⟨hlo, hhi⟩
    rw [image, hsur c hlo hhi] at h
    cases h

/-- An accepted label consists of scalar values. -/
theorem SurrogatesDisallowed.isScalar_of_map (hsur : SurrogatesDisallowed T)
    (h : map T s = some m) : ∀ c ∈ s, IsScalar c :=
  fun c hc => hsur.isScalar ((map_eq_some.mp h).2.1 c hc)

/-! ### ASCII -/

theorem lowerCode_lt (h : c < 0x80) : lowerCode c < 0x80 := by
  rw [lowerCode]
  split
  · rename_i hu
    obtain ⟨-, hu⟩ := hu
    omega
  · exact h

theorem not_isUpper_lowerCode (c : ℕ) : ¬ IsUpper (lowerCode c) := by
  rw [lowerCode]
  split
  · rename_i h
    exact fun h' => absurd (h.1.trans (Nat.le_of_add_le_add_right h'.2)) (by decide)
  · assumption

theorem toNat_toLower (b : UInt8) : (toLower b).toNat = lowerCode b.toNat := by
  rw [toLower, lowerCode]
  split
  · rename_i h
    rw [if_pos (show IsUpper b.toNat from h), toNat_toChar]
    omega
  · rename_i h
    rw [if_neg (show ¬ IsUpper b.toNat from h)]

theorem toLower_of_not_isUpper {b : UInt8} (h : ¬ IsUpper b.toNat) : toLower b = b := if_neg h

theorem AsciiRows.image (ha : AsciiRows T) (h : c < 0x80) : image T c = some [lowerCode c] := by
  rw [lowerCode]
  split
  · rename_i hu
    exact ha.upper c hu
  · rename_i hu
    exact image_of_valid (ha.valid c h hu)

/-- **Mapping an ASCII string** lowers its case. -/
theorem AsciiRows.map (ha : AsciiRows T) (htables : T.ensureTables = true)
    (h : ∀ c ∈ s, c < 0x80) : map T s = some (s.map lowerCode) := by
  refine map_eq_some.mpr ⟨htables, fun c hc => by rw [ha.image (h c hc)]; rfl, ?_⟩
  rw [List.flatMap_congr fun c hc => imageOf_of_eq (ha.image (h c hc)), List.map_eq_flatMap]

theorem AsciiRows.image_dot (ha : AsciiRows T) : AdaIdna.image T dot = some [dot] :=
  ha.image (by decide)

/-- ASCII strings are in normal form. -/
theorem AsciiInert.nfc (ha : AsciiInert T) (h : ∀ c ∈ s, c < 0x80) : nfc T s = s := by
  apply nfc_eq_self
  intro c hc
  have hlt := h c hc
  exact ⟨hlt.trans (by decide), ha.ccc c hlt, ha.stored c hlt,
    fun a d hp => absurd (ha.not_second a c d hp) (not_le.mpr hlt)⟩

theorem AsciiInert.dotApart (ha : AsciiInert T) (hfirst : ∀ b c, ¬ IsPair T dot b c) :
    DotApart T where
  ccc := ha.ccc dot (by decide)
  stored := ha.stored dot (by decide)
  not_first := hfirst
  not_second a c hp := absurd (ha.not_second a dot c hp) (by decide)

/-- **Mapping and normalization**: the normal form of the mapped string, whether
or not the code skips the normalization. -/
theorem mapAndNormalize_eq (hg : GeneratorShape T) (ha : AsciiInert T) (s : U32String) :
    mapAndNormalize T s = (AdaIdna.map T s).map (nfc T) := by
  rw [mapAndNormalize]
  rcases hmap : AdaIdna.map T s with - | m
  · rfl
  · rw [Option.map_some]
    dsimp only
    by_cases hascii : isAscii m = true
    · rw [hascii, ha.nfc (isAscii_iff.mp hascii)]
      rfl
    · by_cases hnfc : isAlreadyNfc T m = true
      · rw [hnfc, nfc_of_isAlreadyNfc hg hnfc]
        simp
      · rw [Bool.not_eq_true] at hascii hnfc
        rw [hascii, hnfc, ← normalize_eq_nfc hg (map_eq_some.mp hmap).1]
        rfl

/-! ### Upper case -/

/-- What mapping and normalization return, whatever the tables. -/
theorem eq_or_eq_nfc_of_mapAndNormalize (h : mapAndNormalize T s = some n) :
    ∃ m, map T s = some m ∧ (n = m ∨ n = nfc T m) := by
  rw [mapAndNormalize] at h
  rcases hmap : map T s with - | m
  · rw [hmap] at h
    cases h
  · rw [hmap] at h
    refine ⟨m, rfl, ?_⟩
    dsimp only at h
    split at h
    · rw [normalize] at h
      split at h
      · cases h
      · split at h
        · exact Or.inl (Option.some.inj h).symm
        · exact Or.inr (Option.some.inj h).symm
    · exact Or.inl (Option.some.inj h).symm

theorem NoUpperCase.not_isUpper_of_map (hu : NoUpperCase T) (hm : map T s = some m) :
    ∀ c ∈ m, ¬ IsUpper c := by
  obtain ⟨-, -, rfl⟩ := map_eq_some.mp hm
  intro c hc
  obtain ⟨a, -, hc⟩ := List.mem_flatMap.mp hc
  by_cases hval : idnaLookup T a = idnaValid
  · rw [imageOf_of_eq (image_of_valid hval)] at hc
    obtain rfl := List.mem_singleton.mp hc
    exact fun hup => hu.not_valid c hup hval
  · exact hu.not_mapped a hval c hc

/-- Syllables and jamo are far from ASCII. -/
theorem not_isUpper_of_le (h : 0x1100 ≤ c) : ¬ IsUpper c := by
  rintro ⟨-, h'⟩
  omega

theorem not_isUpper_of_isJamo (h : isJamo c) : ¬ IsUpper c := by
  apply not_isUpper_of_le
  rcases h with ⟨hj, -⟩ | ⟨hj, -⟩ | ⟨hj, -⟩
  · exact hj
  · exact le_trans (by decide) hj
  · exact le_trans (by decide) hj.le

theorem not_isUpper_of_isHangulS (h : isHangulS c) : ¬ IsUpper c :=
  not_isUpper_of_le (le_trans (by decide) h.1)

/-- **Mapping and normalization leave no upper case letter.** -/
theorem NoUpperCase.not_isUpper (hu : NoUpperCase T) (h : mapAndNormalize T s = some n) :
    ∀ c ∈ n, ¬ IsUpper c := by
  obtain ⟨m, hm, hn⟩ := eq_or_eq_nfc_of_mapAndNormalize h
  have hmapped := hu.not_isUpper_of_map hm
  rcases hn with rfl | rfl
  · exact hmapped
  · -- decompositions, pairs and the Hangul formulas bring none in
    apply forall_mem_nfc
    · intro c hc d hd
      rw [fullDecomp] at hd
      split at hd
      · rename_i hs
        exact not_isUpper_of_isJamo (isJamo_of_mem_hangulDecomp hs hd)
      · split at hd
        · obtain rfl := List.mem_singleton.mp hd
          exact hmapped d hc
        · exact hu.not_decomposed s m hm c hc d hd
    · exact fun a b c _ _ hp => hu.not_composed a b c hp
    · exact fun l v _ _ hl hv => not_isUpper_of_isHangulS (isHangulS_syllable hl hv).1
    · intro c t _ _ hc _
      exact not_isUpper_of_le (le_trans (by decide) (hc.1.trans (Nat.le_add_right _ _)))

/-! ### Tables for few characters -/

/-- Nothing but what `V` holds of comes out of mapping and normalization, and it
is below U+0600; from there on everything is disallowed or ignored. -/
structure Closed (T : Tables) (V : ℕ → Prop) : Prop where
  lt : ∀ c, V c → c < 0x600
  image_self : ∀ c, V c → image T c = some [c]
  image_of_lt : ∀ c < 0x600, ∀ i, image T c = some i → ∀ d ∈ i, V d
  lookup_of_ge : ∀ c, 0x600 ≤ c →
    idnaLookup T c = idnaDisallowed ∨ 0xE0100 ≤ c ∧ idnaLookup T c = idnaIgnored
  ignored : mappingString (mappingAt T idnaIgnored).length (mappingAt T idnaIgnored) = []
  stored : ∀ c, ∀ d ∈ storedDecomp T c, V d
  pair : ∀ a b c, IsPair T a b c → V c

section Closed

variable {V : ℕ → Prop} (h : Closed T V)
include h

theorem Closed.image_eq_some {i : U32String} (hi : image T c = some i) : ∀ d ∈ i, V d := by
  by_cases hc : c < 0x600
  · exact h.image_of_lt c hc i hi
  · rcases h.lookup_of_ge c (not_lt.mp hc) with hn | ⟨-, hn⟩
    · rw [AdaIdna.image, hn] at hi
      cases hi
    · rw [AdaIdna.image, hn, if_neg (by decide), if_neg (by decide), h.ignored] at hi
      split at hi
      · cases hi
      · obtain rfl := Option.some.inj hi
        exact fun d hd => absurd hd List.not_mem_nil

theorem Closed.forall_mem_map (hm : map T s = some m) : ∀ d ∈ m, V d := by
  obtain ⟨-, hsome, rfl⟩ := map_eq_some.mp hm
  intro d hd
  obtain ⟨c, hc, hd⟩ := List.mem_flatMap.mp hd
  obtain ⟨i, hi⟩ := Option.isSome_iff_exists.mp (hsome c hc)
  rw [imageOf_of_eq hi] at hd
  exact h.image_eq_some hi d hd

theorem Closed.forall_mem (hn : mapAndNormalize T s = some n) : ∀ d ∈ n, V d := by
  obtain ⟨m, hm, hn⟩ := eq_or_eq_nfc_of_mapAndNormalize hn
  have hmapped := h.forall_mem_map hm
  have hlow : ∀ c, V c → ¬ isHangulS c ∧ ¬ isHangulL c ∧ ¬ isHangulV c ∧ ¬ isHangulT c :=
    fun c hc => not_isHangul_of_lt ((h.lt c hc).trans (by decide))
  rcases hn with rfl | rfl
  · exact hmapped
  · apply forall_mem_nfc
    · intro c hc d hd
      rw [fullDecomp, if_neg (hlow c (hmapped c hc)).1] at hd
      split at hd
      · rw [List.mem_singleton.mp hd]
        exact hmapped c hc
      · exact h.stored c d hd
    · exact fun a b c _ _ hp => h.pair a b c hp
    · exact fun l v hl _ hl' _ => absurd hl' (hlow l hl).2.1
    · exact fun c t hc _ hc' _ => absurd hc' (hlow c hc).1

/-- **Such tables are stable.** -/
theorem Closed.mapStable : MapStable T := by
  intro s n hn
  obtain ⟨m, hm, -⟩ := eq_or_eq_nfc_of_mapAndNormalize hn
  exact map_eq_self (map_eq_some.mp hm).1 fun c hc => h.image_self c (h.forall_mem hn c hc)

theorem Closed.surrogatesDisallowed : SurrogatesDisallowed T := by
  intro c hlo hhi
  rcases h.lookup_of_ge c (le_trans (by decide) hlo) with hn | ⟨hge, -⟩
  · exact hn
  · exact absurd (hge.trans hhi.le) (by decide)

end Closed

/-- The blocks from U+0600 on, if they share one. -/
theorem idnaLookup_of_ge (hstage1 : ∀ i, 24 ≤ i → T.idnaStage1 i = 320)
    (hstage2 : ∀ j, 320 ≤ j → T.idnaStage2 j = idnaDisallowed)
    (hstart : T.idnaHighIgnoredStart = 0xE0100) (h : 0x600 ≤ c) :
    idnaLookup T c = idnaDisallowed ∨ 0xE0100 ≤ c ∧ idnaLookup T c = idnaIgnored := by
  rw [idnaLookup]
  split
  · have h24 : 24 ≤ c >>> idnaBlockBits := by
      rw [idnaBlockBits, Nat.shiftRight_eq_div_pow]
      exact (Nat.le_div_iff_mul_le (by decide)).mpr h
    rw [hstage1 _ h24]
    exact Or.inl (hstage2 _ (Nat.le_add_right _ _))
  · split
    · rename_i hc
      exact Or.inr ⟨hstart ▸ hc.1, rfl⟩
    · exact Or.inl rfl

/-! ### What the small tables hold -/

/-- The valid characters of the small tables. -/
def SmallValid (c : ℕ) : Prop :=
  c < 0x80 ∧ ¬ IsUpper c ∨ c = 0xE9 ∨ 0x300 ≤ c ∧ c < 0x340 ∨ 0x5C0 ≤ c ∧ c < 0x600

instance (c : ℕ) : Decidable (SmallValid c) :=
  inferInstanceAs (Decidable (_ ∧ ¬ _ ∨ _ ∨ _ ∧ _ ∨ _ ∧ _))

theorem SmallValid.lt (h : SmallValid c) : c < 0x600 := by
  rcases h with ⟨h, -⟩ | rfl | ⟨-, h⟩ | ⟨-, h⟩
  · exact h.trans (by decide)
  · decide
  · exact h.trans (by decide)
  · exact h

theorem SmallValid.not_isUpper (h : SmallValid c) : ¬ IsUpper c := by
  rintro ⟨hlo, hhi⟩
  rcases h with ⟨-, h⟩ | rfl | ⟨h, -⟩ | ⟨h, -⟩
  · exact h ⟨hlo, hhi⟩
  · exact absurd hhi (by decide)
  · exact absurd (h.trans hhi) (by decide)
  · exact absurd (h.trans hhi) (by decide)

theorem small_image_of_lt : ∀ c < 0x600, image smallTables c =
    if SmallValid c then some [c] else if IsUpper c then some [c + 0x20] else none := by
  decide +kernel

theorem small_stage1 (i : ℕ) (h : 24 ≤ i) : smallTables.idnaStage1 i = 320 := by
  show (if _ then _ else if _ then _ else _) = _
  rw [if_neg (by omega), if_neg (by omega)]

theorem small_stage2 (j : ℕ) (h : 320 ≤ j) : smallTables.idnaStage2 j = idnaDisallowed := by
  show (if _ then _ else if _ then _ else _) = _
  rw [if_neg (by omega), if_neg (by omega)]
  rfl

theorem small_closed : Closed smallTables SmallValid where
  lt _ h := h.lt
  image_self c h := by rw [small_image_of_lt c h.lt, if_pos h]
  image_of_lt c hc i hi d hd := by
    rw [small_image_of_lt c hc] at hi
    split at hi
    · obtain rfl := Option.some.inj hi
      rwa [List.mem_singleton.mp hd]
    · split at hi
      · rename_i hu
        obtain rfl := Option.some.inj hi
        rw [List.mem_singleton.mp hd]
        obtain ⟨hlo, hhi⟩ := hu
        exact Or.inl ⟨by omega, fun h' => absurd h'.2 (by omega)⟩
      · cases hi
  lookup_of_ge _ := idnaLookup_of_ge small_stage1 small_stage2 rfl
  ignored := rfl
  stored c d hd := by
    rw [small_storedDecomp] at hd
    split at hd
    · rcases List.mem_pair.mp hd with rfl | rfl
      · decide
      · decide
    · cases hd
  pair a b c hp := by
    rw [(small_isPair hp).2.2]
    decide

theorem small_asciiRows : AsciiRows smallTables where
  ccc c hc := by
    rw [small_getCcc]
    exact if_neg fun h => absurd hc (by rw [h]; decide)
  stored c hc := by
    rw [small_storedDecomp]
    exact if_neg fun h => absurd hc (by rw [h]; decide)
  not_second a b c hp := by
    rw [(small_isPair hp).2.1]
    decide
  upper c hc := by
    rw [small_image_of_lt c (hc.2.trans_lt (by decide)), if_pos hc,
      if_neg fun h => h.not_isUpper hc]
  valid := by decide +kernel

theorem small_not_isUpper_imageOf (c : ℕ) : ∀ d ∈ imageOf smallTables c, ¬ IsUpper d := by
  intro d hd
  rcases hi : image smallTables c with - | i
  · rw [imageOf, hi] at hd
    cases hd
  · rw [imageOf_of_eq hi] at hd
    exact (small_closed.image_eq_some hi d hd).not_isUpper

theorem small_noUpperCase : NoUpperCase smallTables where
  not_valid c hc h := by
    have hi := image_of_valid h
    exact (small_closed.image_eq_some hi c (List.mem_singleton.mpr rfl)).not_isUpper hc
  not_mapped c _ := small_not_isUpper_imageOf c
  not_decomposed _ _ _ c _ d hd := (small_closed.stored c d hd).not_isUpper
  not_composed a b c hp := by
    rw [(small_isPair hp).2.2]
    decide

end AdaIdna
