/-
AdaIdna/Idempotence.lean

The results of `to_ascii` are canonical.

A result has no upper case letter, whichever branch each of its labels took,
so the ASCII path, which every result takes, returns it as it is.
-/
import AdaIdna.MappingShape

namespace AdaIdna

open Labels

variable {T : Tables} {l n : U32String} {x y : Bytes}

/-- The bytes on which `ascii_map` is the identity. -/
def IsCanonicalByte (b : UInt8) : Prop := b.toNat < 0x80 ∧ ¬ IsUpper b.toNat

theorem isCanonicalByte_toLower {b : UInt8} (h : b.toNat < 0x80) : IsCanonicalByte (toLower b) := by
  rw [IsCanonicalByte, toNat_toLower]
  exact ⟨lowerCode_lt h, not_isUpper_lowerCode _⟩

theorem isCanonicalByte_dotByte : IsCanonicalByte dotByte := by
  refine ⟨by decide, ?_⟩
  decide

/-- The ASCII form of a label without upper case letters has none. -/
theorem isCanonicalByte_of_mem_asciiLabel (hl : ∀ c ∈ l, ¬ IsUpper c)
    (h : asciiLabel T l = some y) : ∀ b ∈ y, IsCanonicalByte b := by
  intro b hb
  refine ⟨lt_of_mem_asciiLabel h b hb, ?_⟩
  rcases mem_asciiLabel h b hb with ⟨c, hc, hlt, rfl⟩ | rfl | hd
  · rw [toNat_toChar (hlt.trans (by decide))]
    exact hl c hc
  · decide
  · rintro ⟨hlo, hhi⟩
    rcases hd.range with ⟨hd, -⟩ | ⟨-, hd⟩
    · exact absurd (hd.trans hhi) (by decide)
    · exact absurd (hlo.trans hd) (by decide)

/-- The ASCII path returns a string of such bytes as it is. -/
theorem toAscii_eq_self (h : ∀ b ∈ y, IsCanonicalByte b) : toAscii T y = (true, y) := by
  rw [toAscii_of_ascii (isAsciiBytes_iff.mpr fun b hb => (h b hb).1),
    List.map_congr_left fun b hb => toLower_of_not_isUpper (h b hb).2, List.map_id']

/-- No upper case letter gets into a result. -/
theorem isCanonicalByte_of_mem_toAscii (hu : NoUpperCase T) (h : toAscii T x = (true, y)) :
    ∀ b ∈ y, IsCanonicalByte b := by
  by_cases hx : isAsciiBytes x = true
  · rw [toAscii_of_ascii hx] at h
    obtain rfl := (Prod.mk.inj h).2
    intro b hb
    obtain ⟨a, ha, rfl⟩ := List.mem_map.mp hb
    exact isCanonicalByte_toLower (isAsciiBytes_iff.mp hx a ha)
  · rw [Bool.not_eq_true] at hx
    obtain ⟨-, n, hn, hsome, rfl⟩ := (toAscii_eq_true hx).mp h
    obtain ⟨s, -, hn⟩ := Option.bind_eq_some_iff.mp hn
    have hlower := hu.not_isUpper hn
    intro b hb
    rcases mem_join hb with rfl | ⟨a, ha, hb⟩
    · exact isCanonicalByte_dotByte
    · obtain ⟨l, hl, rfl⟩ := List.mem_map.mp ha
      obtain ⟨a, ha⟩ := Option.isSome_iff_exists.mp (hsome l hl)
      rw [asciiLabelOf_of_eq ha] at hb
      exact isCanonicalByte_of_mem_asciiLabel
        (fun c hc => hlower c (mem_of_mem_splitOn hl hc)) ha b hb

/-- The result has as many separators as the mapped string. -/
theorem count_dotByte_toAscii (hx : isAsciiBytes x = false) (h : toAscii T x = (true, y)) :
    ∃ n, prepare T x = some n ∧ y.count dotByte = n.count dot := by
  obtain ⟨-, n, hn, hsome, rfl⟩ := (toAscii_eq_true hx).mp h
  refine ⟨n, hn, ?_⟩
  apply Nat.succ_injective
  show List.count _ _ + 1 = List.count _ _ + 1
  rw [count_add_one, splitOn_toAscii hsome, List.length_map, count_add_one]

/-- **`to_ascii` is idempotent**, whatever the length of its result, and its
results are canonical: a failure leaves nothing, a success no upper case
letter, nothing beyond ASCII and the separators of the mapped string. -/
theorem toAscii_idempotent (hu : NoUpperCase T) (x : Bytes) :
    ((toAscii T x).1 = false → (toAscii T x).2 = []) ∧
      ∀ y, toAscii T x = (true, y) →
        (∀ b ∈ y, b.toNat < 0x80 ∧ ¬ IsUpper b.toNat) ∧
          (isAsciiBytes x = false → ∃ n, prepare T x = some n ∧ y.count dotByte = n.count dot) ∧
          toAscii T y = (true, y) := by
  refine ⟨toAscii_eq_false, fun y h => ?_⟩
  have hcanonical := isCanonicalByte_of_mem_toAscii hu h
  exact ⟨hcanonical, fun hx => count_dotByte_toAscii hx h, toAscii_eq_self hcanonical⟩

/-- `É.א` in the small tables. -/
theorem toAscii_idempotent_small :
    (∀ b ∈ ([0x78, 0x6E, 0x2D, 0x2D, 0x39, 0x63, 0x61, 0x2E, 0x78, 0x6E, 0x2D, 0x2D, 0x34, 0x64,
        0x62] : Bytes), b.toNat < 0x80 ∧ ¬ IsUpper b.toNat) ∧
      (isAsciiBytes [0x45, 0xCC, 0x81, 0x2E, 0xD7, 0x90] = false →
        ∃ n, prepare smallTables [0x45, 0xCC, 0x81, 0x2E, 0xD7, 0x90] = some n ∧
          ([0x78, 0x6E, 0x2D, 0x2D, 0x39, 0x63, 0x61, 0x2E, 0x78, 0x6E, 0x2D, 0x2D, 0x34, 0x64,
            0x62] : Bytes).count dotByte = n.count dot) ∧
      toAscii smallTables [0x78, 0x6E, 0x2D, 0x2D, 0x39, 0x63, 0x61, 0x2E, 0x78, 0x6E, 0x2D, 0x2D,
          0x34, 0x64, 0x62]
        = (true, [0x78, 0x6E, 0x2D, 0x2D, 0x39, 0x63, 0x61, 0x2E, 0x78, 0x6E, 0x2D, 0x2D, 0x34,
          0x64, 0x62]) :=
  (toAscii_idempotent small_noUpperCase [0x45, 0xCC, 0x81, 0x2E, 0xD7, 0x90]).2 _
    (by decide +kernel)

end AdaIdna
