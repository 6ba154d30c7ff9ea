/-
AdaIdna/LabelLength.lean

How long the mapped string can get.

The input is limited, a mapping string is a part of the table and the longest
decomposition has four characters; composition makes nothing longer.  So the
labels of every domain name that `to_ascii` accepts are far shorter than the
31 bits of the Punycode functions (`TableSizes.length_lt_int32Max`).
-/
import AdaIdna.MappingShape
import AdaIdna.NormalizationSteps

namespace AdaIdna

open CanonicalOrder Cluster Labels

variable (T : Tables)

/-- The number of bytes of the mapping strings. -/
def utf8MapsBytes : ℕ := 17651

/-- The length of the longest canonical decomposition. -/
def maxDecompLength : ℕ := 4

/-- The sizes of the tables. -/
structure TableSizes : Prop where
  mappings : T.idnaUtf8Mappings.length ≤ utf8MapsBytes
  decompositions : ∀ c, (storedDecomp T c).length ≤ maxDecompLength

variable {T} {c : ℕ} {g : Cluster} {l s m n : U32String} {x : Bytes}

theorem length_flatMap_le {f : ℕ → U32String} {k : ℕ} (h : ∀ c, (f c).length ≤ k) (s : U32String) :
    (s.flatMap f).length ≤ s.length * k := by
  have hall : ∀ n ∈ s.map fun c => (f c).length, n ≤ k := by
    intro n hn
    obtain ⟨c, -, rfl⟩ := List.mem_map.mp hn
    exact h c
  have hsum := List.sum_le_card_nsmul _ k hall
  rwa [← List.length_flatMap, List.length_map, smul_eq_mul] at hsum

/-! ### Mapping -/

theorem length_mappingString_le (fuel : ℕ) (ptr : Bytes) :
    (mappingString fuel ptr).length ≤ fuel := by
  induction fuel generalizing ptr with
  | zero => exact le_rfl
  | succ fuel ih =>
    rw [mappingString]
    split
    · exact Nat.zero_le _
    · exact Nat.succ_le_succ (ih _)

theorem TableSizes.length_imageOf (hsize : TableSizes T) (c : ℕ) :
    (imageOf T c).length ≤ utf8MapsBytes := by
  rcases hi : image T c with - | i
  · rw [imageOf, hi]
    exact Nat.zero_le _
  · by_cases hval : idnaLookup T c = idnaValid
    · rw [imageOf_of_eq (image_of_valid hval)]
      show 1 ≤ utf8MapsBytes
      decide
    · rw [imageOf_of_eq (image_of_mapped hval (by rw [hi]; rfl))]
      refine (length_mappingString_le _ _).trans (le_trans ?_ hsize.mappings)
      exact (List.drop_sublist _ _).length_le

/-! ### Normalization -/

theorem length_hangulDecomp_le (c : ℕ) : (hangulDecomp c).length ≤ 3 := by
  rw [hangulDecomp]
  split
  · exact le_rfl
  · exact Nat.le_succ 2

/-- The formula for Hangul and the character itself are no longer than the
decompositions of the table may be. -/
theorem length_fullDecomp_le {k : ℕ} (h3 : 3 ≤ k) (hk : (storedDecomp T c).length ≤ k) :
    (fullDecomp T c).length ≤ k := by
  rw [fullDecomp]
  split
  · exact (length_hangulDecomp_le c).trans h3
  · split
    · exact Nat.one_le_of_lt h3
    · exact hk

theorem TableSizes.length_fullDecomp (hsize : TableSizes T) (c : ℕ) :
    (fullDecomp T c).length ≤ maxDecompLength :=
  length_fullDecomp_le (by decide) (hsize.decompositions c)

/-- Composition makes nothing longer. -/
theorem length_compose_le (s : U32String) : (compose T s).length ≤ s.length := by
  rw [compose_eq]
  cases s with
  | nil => exact le_rfl
  | cons c s =>
    have hle := length_composeFrom_le (T := T) (start c) s
    rw [text_start, List.length_singleton, Nat.add_comm] at hle
    exact hle

/-! ### The mapped string -/

section Bounds

variable {j k : ℕ} (hj : ∀ c, (imageOf T c).length ≤ j) (hk : ∀ c, (fullDecomp T c).length ≤ k)

include hj in
theorem length_map_le (h : map T s = some m) : m.length ≤ s.length * j := by
  obtain ⟨-, -, rfl⟩ := map_eq_some.mp h
  exact length_flatMap_le hj s

include hk in
theorem length_nfc_le (s : U32String) : (nfc T s).length ≤ s.length * k := by
  apply (length_compose_le _).trans
  rw [decomposeNfc_eq, (order_perm _).length_eq]
  exact length_flatMap_le hk s

include hj hk

theorem length_mapAndNormalize_le (h : mapAndNormalize T s = some n) :
    n.length ≤ s.length * j * k := by
  have hpos : 0 < k := (List.length_pos_of_ne_nil (fullDecomp_ne_nil (T := T) 0)).trans_le (hk 0)
  obtain ⟨m, hm, hn⟩ := eq_or_eq_nfc_of_mapAndNormalize h
  have hmap := Nat.mul_le_mul_right k (length_map_le hj hm)
  rcases hn with rfl | rfl
  · exact (Nat.le_mul_of_pos_right _ hpos).trans hmap
  · exact (length_nfc_le hk m).trans hmap

/-- The labels of an input within the limit. -/
theorem length_le_of_prepare (hlen : x.length ≤ maxDomainInputBytes) (h : prepare T x = some n)
    (hl : l ∈ n.splitOn dot) : l.length ≤ maxDomainInputBytes * j * k := by
  obtain ⟨s, hread, hn⟩ := Option.bind_eq_some_iff.mp h
  obtain ⟨-, -, rfl⟩ := readInput_eq_some.mp hread
  calc l.length
      ≤ n.length := length_le_of_mem_splitOn hl
    _ ≤ s.length * j * k := length_mapAndNormalize_le hj hk hn
    _ ≤ maxDomainInputBytes * j * k :=
        Nat.mul_le_mul_right _ (Nat.mul_le_mul_right _ ((length_le_encodeUtf8 s).trans hlen))

end Bounds

/-- **The labels of an input within the limit are short enough for Punycode.** -/
theorem TableSizes.length_lt_int32Max (hsize : TableSizes T) (hlen : x.length ≤ maxDomainInputBytes)
    (h : prepare T x = some n) (hl : l ∈ n.splitOn dot) : l.length < int32Max :=
  (length_le_of_prepare hsize.length_imageOf hsize.length_fullDecomp hlen h hl).trans_lt
    (by decide)

theorem small_tableSizes : TableSizes smallTables where
  mappings := by decide
  decompositions c := by
    rw [small_storedDecomp]
    split
    · decide
    · decide

end AdaIdna
