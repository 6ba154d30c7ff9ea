/-
AdaIdna/MappingPasses.lean

The two passes of `map` on any mapping table that is well formed.

A lookup of such a table is one of the two sentinels or finds a UTF-8 string
in front of a zero (`LookupsWellFormed`).  Then every character that is not
disallowed has an image, the one that RFC 3629 gives it (`mapsTo_iff`), and both
passes go by it: the first counts the images, the second writes them.
-/
import AdaIdna.IdnaFlat
import AdaIdna.MappingShape
import AdaIdna.Utf8Exact

namespace AdaIdna

variable {T : Tables} {c : ℕ} {i s : U32String} {p : Bytes}

/-- The lookup of every character is `IDNA_VALID`, `IDNA_DISALLOWED` or the
offset of a UTF-8 string that ends at the first zero. -/
def LookupsWellFormed (T : Tables) : Prop :=
  ∀ c, idnaLookup T c = idnaValid ∨ idnaLookup T c = idnaDisallowed ∨
    ∃ p rest, mappingAt T (idnaLookup T c) = p ++ 0 :: rest ∧ 0 ∉ p ∧ IsUtf8 p

/-- What the table maps a character to: a valid one to itself, any other that
is not disallowed to the string whose encoding its lookup finds. -/
def MapsTo (T : Tables) (c : ℕ) (i : U32String) : Prop :=
  idnaLookup T c = idnaValid ∧ i = [c] ∨
    idnaLookup T c ≠ idnaValid ∧ idnaLookup T c ≠ idnaDisallowed ∧ (∀ x ∈ i, IsScalar x) ∧
      0 ∉ encodeUtf8 i ∧ ∃ rest, mappingAt T (idnaLookup T c) = encodeUtf8 i ++ 0 :: rest

/-! ### Images -/

/-- A string whose encoding has no zero byte has no zero. -/
theorem ne_zero_of_not_mem (h : 0 ∉ encodeUtf8 i) : ∀ x ∈ i, x ≠ 0 := by
  rintro x hx rfl
  apply h
  exact List.mem_flatMap.mpr ⟨0, hx, List.mem_singleton.mpr rfl⟩

/-- The reader gets the string back from its encoding. -/
theorem mappingString_encodeUtf8 (hi : ∀ x ∈ i, IsScalar x) (h0 : 0 ∉ encodeUtf8 i)
    (rest : Bytes) :
    mappingString (encodeUtf8 i ++ 0 :: rest).length (encodeUtf8 i ++ 0 :: rest) = i := by
  have hfuel : i.length < (encodeUtf8 i ++ 0 :: rest).length := by
    have hle := length_le_encodeUtf8 i
    simp only [List.length_append, List.length_cons]
    omega
  exact IdnaTable.mappingString_append (fun x hx => ⟨hi x hx, ne_zero_of_not_mem h0 x hx⟩) rest _
    hfuel

/-- **What a character maps to is its image.** -/
theorem MapsTo.image_eq (h : MapsTo T c i) : image T c = some i := by
  rcases h with ⟨hval, rfl⟩ | ⟨hval, hdis, hi, h0, rest, hat⟩
  · exact image_of_valid hval
  · have hsize : ¬ T.idnaUtf8Mappings.length ≤ idnaLookup T c := by
      intro hle
      rw [mappingAt, List.drop_eq_nil_of_le hle] at hat
      simp at hat
    rw [image]
    simp only [hdis, hval, hsize, if_false, hat]
    rw [mappingString_encodeUtf8 hi h0]

theorem exists_mapsTo (hw : LookupsWellFormed T) (h : idnaLookup T c ≠ idnaDisallowed) :
    ∃ i, MapsTo T c i := by
  by_cases hval : idnaLookup T c = idnaValid
  · exact ⟨[c], Or.inl ⟨hval, rfl⟩⟩
  · obtain ⟨p, rest, hat, h0, hp⟩ := ((hw c).resolve_left hval).resolve_left h
    obtain ⟨i, hi, rfl⟩ := isUtf8_iff.mp hp
    exact ⟨i, Or.inr ⟨hval, h, hi, h0, rest, hat⟩⟩

/-- A character has an image unless it is disallowed. -/
theorem image_isSome_iff (hw : LookupsWellFormed T) :
    (image T c).isSome = true ↔ idnaLookup T c ≠ idnaDisallowed := by
  constructor
  · intro h hdis
    rw [image, hdis] at h
    cases h
  · intro h
    obtain ⟨i, hi⟩ := exists_mapsTo hw h
    rw [hi.image_eq]
    rfl

/-- **The image** is what the table maps to. -/
theorem mapsTo_iff (hw : LookupsWellFormed T) :
    MapsTo T c i ↔ idnaLookup T c ≠ idnaDisallowed ∧ imageOf T c = i := by
  constructor
  · intro h
    refine ⟨(image_isSome_iff hw).mp ?_, imageOf_of_eq h.image_eq⟩
    rw [h.image_eq]
    rfl
  · rintro ⟨h, rfl⟩
    obtain ⟨i, hi⟩ := exists_mapsTo hw h
    rwa [imageOf_of_eq hi.image_eq]

/-! ### Both passes -/

/-- **The two passes of `map` agree.** -/
theorem map_passes (htables : T.ensureTables = true) (hw : LookupsWellFormed T) :
    (∀ c i, MapsTo T c i ↔ idnaLookup T c ≠ idnaDisallowed ∧ imageOf T c = i) ∧
      ∀ s, (map T s = none ↔ ∃ c ∈ s, idnaLookup T c = idnaDisallowed) ∧
        ((∀ c ∈ s, idnaLookup T c ≠ idnaDisallowed) →
          mapSize T s 0 = some (s.flatMap (imageOf T)).length ∧
          (∀ buffer, (s.flatMap (imageOf T)).length ≤ buffer.length →
            mapWrite T s (buffer, 0)
              = s.flatMap (imageOf T) ++ buffer.drop (s.flatMap (imageOf T)).length) ∧
          map T s = some (s.flatMap (imageOf T))) ∧
        ∀ t, map T (s ++ t) = (map T s).bind fun m => (map T t).map fun n => m ++ n := by
  have hsome : ∀ s, (∀ c ∈ s, idnaLookup T c ≠ idnaDisallowed) →
      map T s = some (s.flatMap (imageOf T)) := by
    intro s hs
    exact map_eq_some.mpr ⟨htables, fun c hc => (image_isSome_iff hw).mpr (hs c hc), rfl⟩
  have hnone : ∀ s, map T s = none ↔ ∃ c ∈ s, idnaLookup T c = idnaDisallowed := by
    intro s
    constructor
    · intro h
      by_contra hall
      push Not at hall
      rw [hsome s hall] at h
      cases h
    · rintro ⟨c, hc, hdis⟩
      rw [Option.eq_none_iff_forall_ne_some]
      intro m hm
      exact (image_isSome_iff hw).mp ((map_eq_some.mp hm).2.1 c hc) hdis
  refine ⟨fun c i => mapsTo_iff hw, fun s => ⟨hnone s, fun hs => ⟨?_, fun buffer hlen => ?_, ?_⟩,
    fun t => ?_⟩⟩
  · apply mapSize_eq_some.mpr
    exact ⟨fun c hc => (image_isSome_iff hw).mpr (hs c hc), (Nat.zero_add _).symm⟩
  · have hwrite := mapWrite_eq (A := []) (fun c hc => (image_isSome_iff hw).mpr (hs c hc)) hlen
    simpa using hwrite
  · exact hsome s hs
  · -- a disallowed character on either side makes both sides fail
    by_cases hs : ∀ c ∈ s, idnaLookup T c ≠ idnaDisallowed
    · by_cases ht : ∀ c ∈ t, idnaLookup T c ≠ idnaDisallowed
      · rw [hsome s hs, hsome t ht, hsome (s ++ t) (List.forall_mem_append.mpr ⟨hs, ht⟩),
          List.flatMap_append]
        rfl
      · push Not at ht
        have hst : map T (s ++ t) = none := by
          obtain ⟨c, hc, hdis⟩ := ht
          exact (hnone _).mpr ⟨c, List.mem_append_right s hc, hdis⟩
        rw [hsome s hs, (hnone t).mpr ht, hst]
        rfl
    · push Not at hs
      have hst : map T (s ++ t) = none := by
        obtain ⟨c, hc, hdis⟩ := hs
        exact (hnone _).mpr ⟨c, List.mem_append_left t hc, hdis⟩
      rw [(hnone s).mpr hs, hst]
      rfl

/-! ### The small tables -/

/-- The string of an offset of the small tables: none at zero, then the small
letters one after the other. -/
theorem small_mappingAt : ∀ k ≤ 26, ∃ p rest,
    mappingAt smallTables (if k = 0 then 0 else 2 * k - 1) = p ++ 0 :: rest ∧
      p = (if k = 0 then [] else encodeUtf8 [0x60 + k]) := by
  intro k hk
  refine ⟨_, (mappingAt smallTables (if k = 0 then 0 else 2 * k - 1)).drop
    ((if k = 0 then 0 else 1) + 1), ?_, rfl⟩
  revert k
  decide +kernel

/-- The lookups below U+0600 find the sentinels or a small letter. -/
theorem small_idnaLookup_of_lt : ∀ c < 0x600, idnaLookup smallTables c = idnaValid ∨
    idnaLookup smallTables c = idnaDisallowed ∨
      ∃ k ≤ 26, idnaLookup smallTables c = if k = 0 then 0 else 2 * k - 1 := by
  decide +kernel

/-- The small tables hold the small letters, each in front of a zero. -/
theorem small_lookupsWellFormed : LookupsWellFormed smallTables := by
  have hstring : ∀ k ≤ 26, ∃ p rest,
      mappingAt smallTables (if k = 0 then 0 else 2 * k - 1) = p ++ 0 :: rest ∧ 0 ∉ p ∧
        IsUtf8 p := by
    have hzero : ∀ k ≤ 26, 0 ∉ if k = 0 then [] else encodeUtf8 [0x60 + k] := by decide
    intro k hk
    obtain ⟨p, rest, hat, rfl⟩ := small_mappingAt k hk
    refine ⟨_, rest, hat, hzero k hk, ?_⟩
    by_cases h0 : k = 0
    · rw [if_pos h0]
      exact IsUtf8.nil
    · rw [if_neg h0]
      refine isUtf8_iff.mpr ⟨_, ?_, rfl⟩
      intro c hc
      rw [List.mem_singleton.mp hc]
      exact ⟨by omega, by omega⟩
  intro c
  by_cases hc : c < 0x600
  · rcases small_idnaLookup_of_lt c hc with h | h | ⟨k, hk, h⟩
    · exact Or.inl h
    · exact Or.inr (Or.inl h)
    · right; right
      rw [h]
      exact hstring k hk
  · rcases small_closed.lookup_of_ge c (not_lt.mp hc) with h | ⟨-, h⟩
    · exact Or.inr (Or.inl h)
    · right; right
      rw [h]
      exact hstring 0 (Nat.zero_le _)

/-- `Aé`: one character has a string and one stands for itself. -/
theorem map_passes_small : map smallTables ([0x41] ++ [0xE9]) = some ([0x61] ++ [0xE9]) := by
  have h := (map_passes rfl small_lookupsWellFormed).2 [0x41]
  rw [h.2.2 [0xE9]]
  decide +kernel

end AdaIdna
