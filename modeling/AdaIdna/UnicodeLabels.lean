/-
AdaIdna/UnicodeLabels.lean

`to_unicode` acts label by label, and a second time changes nothing.

A label is either returned as it came or replaced by a decoded label that is
not ASCII (`unicodeLabel_cases`).  The latter has no separator, because the
decoder gets none, and is copied when it is met again, because the ACE prefix
is only looked for in ASCII labels.  No assumption on the tables is needed.
-/
import AdaIdna.DomainLabels
import AdaIdna.MappingShape

namespace AdaIdna

open Labels

variable {T : Tables} {a b l x : Bytes} {w : U32String}

/-! ### One label -/

/-- A label is returned as it came, or decoded into a label that is not
ASCII. -/
theorem unicodeLabel_cases (T : Tables) (l : Bytes) :
    unicodeLabel T l = l ∨
      ∃ q w, l = acePrefixBytes ++ q ∧ punycodeToUtf32 q [] = some w ∧ isAscii w = false ∧
        (∀ c ∈ w, IsScalar c) ∧ unicodeLabel T l = encodeUtf8 w := by
  by_cases hace : acePrefixBytes.isPrefixOf l = true
  · obtain ⟨q, rfl⟩ := isAcePrefixBytes_iff.mp hace
    have hdrop : (acePrefixBytes ++ q).drop 4 = q := rfl
    by_cases hascii : isAsciiBytes (acePrefixBytes ++ q) = true
    · rcases hq : punycodeToUtf32 q [] with - | w
      · left
        rw [unicodeLabel, hdrop, hq, ite_self]
      by_cases haccept : acceptDecoded T w = true
      · obtain ⟨hw, hmap, -, -⟩ := acceptDecoded_iff.mp haccept
        by_cases hsc : ∀ c ∈ w, IsScalar c
        · exact Or.inr ⟨q, w, rfl, hq, hw, hsc, unicodeLabel_of_accepted hascii rfl hq haccept hsc⟩
        · -- a surrogate: nothing is written, and the label is returned
          left
          have hle : ∀ c ∈ w, c ≤ 0x10FFFF := by
            intro c hc
            by_contra hlt
            have hsome := (map_eq_some.mp hmap).2.1 c hc
            rw [image_eq_none (not_le.mp hlt)] at hsome
            cases hsome
          have hne : (utf32ToUtf8 T.byteOrder w).1 ≠ utf8LengthFromUtf32 w := by
            rw [utf32ToUtf8, utf32ToUtf8Loop_eq_zero hle hsc, utf8LengthFromUtf32_eq]
            have hpos := length_le_encodeUtf8 w
            have hw0 : w.length ≠ 0 := by
              intro h0
              rw [List.eq_nil_of_length_eq_zero h0] at hw
              cases hw
            omega
          rw [unicodeLabel, hace, hascii, hdrop, hq]
          simp only [Bool.and_self, if_true, haccept]
          rw [if_pos hne]
      · left
        refine unicodeLabel_of_rejected rfl fun w' hw' => ?_
        obtain rfl := Option.some.inj (hq.symm.trans hw')
        exact Bool.eq_false_iff.mpr haccept
    · left
      rw [Bool.not_eq_true] at hascii
      rw [unicodeLabel, hascii, Bool.and_false]
      rfl
  · rw [Bool.not_eq_true] at hace
    exact Or.inl (unicodeLabel_of_not_ace hace)

/-- The encoding of a label has a separator only if the label has one. -/
theorem dotByte_not_mem_encodeUtf8 (hw : ∀ c ∈ w, IsScalar c) (h : dot ∉ w) :
    dotByte ∉ encodeUtf8 w := by
  intro hmem
  obtain ⟨c, hc, hb⟩ := List.mem_flatMap.mp hmem
  by_cases hlt : c < 0x80
  · rw [encodeChar_of_lt hlt, List.mem_singleton] at hb
    have hdot : dot = c := toChar_inj (by decide) (by omega) hb
    exact h (hdot ▸ hc)
  · obtain ⟨b0, bs, heq, hlead, htail⟩ := exists_encodeChar_of_le (not_lt.mp hlt) (hw c hc).1
    rw [heq, List.mem_cons] at hb
    rcases hb with rfl | hb
    · exact absurd hlead (by decide)
    · exact absurd (htail _ hb).1 (by decide)

theorem dotByte_not_mem_unicodeLabel (hl : dotByte ∉ l) : dotByte ∉ unicodeLabel T l := by
  rcases unicodeLabel_cases T l with h | ⟨q, w, rfl, hq, -, hsc, h⟩
  · rwa [h]
  · rw [h]
    refine dotByte_not_mem_encodeUtf8 hsc (dot_not_mem_of_punycodeToUtf32 (fun hmem => hl ?_) hq)
    exact List.mem_append_right _ hmem

/-- A label that has been shown is shown as it is. -/
theorem unicodeLabel_unicodeLabel (T : Tables) (l : Bytes) :
    unicodeLabel T (unicodeLabel T l) = unicodeLabel T l := by
  rcases unicodeLabel_cases T l with h | ⟨q, w, -, -, hw, hsc, h⟩
  · rw [h, h]
  · have hascii : isAsciiBytes (encodeUtf8 w) = false := (isAsciiBytes_encodeUtf8 hsc).trans hw
    rw [h, unicodeLabel, hascii, Bool.and_false]
    rfl

/-! ### The domain name -/

/-- Over-limit input is returned. -/
theorem toUnicode_of_lt (h : maxDomainInputBytes < x.length) : toUnicode T x = x := by
  rw [toUnicode, toUnicodeInto, if_pos h]

/-- The labels of the result are the Unicode forms of the labels. -/
theorem splitOn_toUnicode (T : Tables) (x : Bytes) :
    (join dotByte ((x.splitOn dotByte).map (unicodeLabel T))).splitOn dotByte
      = (x.splitOn dotByte).map (unicodeLabel T) := by
  apply splitOn_join (by simp)
  rintro y hy
  obtain ⟨l, hl, rfl⟩ := List.mem_map.mp hy
  exact dotByte_not_mem_unicodeLabel (not_mem_of_mem_splitOn hl)

theorem splitOn_append_dot (a b : Bytes) :
    (a ++ dotByte :: b).splitOn dotByte = a.splitOn dotByte ++ b.splitOn dotByte := by
  conv_lhs => rw [← join_splitOn dotByte a, ← join_splitOn dotByte b]
  rw [← join_append (by simp) (by simp)]
  apply splitOn_join (by simp)
  rintro l hl
  rcases List.mem_append.mp hl with hl | hl
  · exact not_mem_of_mem_splitOn hl
  · exact not_mem_of_mem_splitOn hl

/-- A separator in the input separates the output. -/
theorem toUnicode_append_dot (h : a.length + 1 + b.length ≤ maxDomainInputBytes) :
    toUnicode T (a ++ dotByte :: b) = toUnicode T a ++ dotByte :: toUnicode T b := by
  rw [toUnicode_eq (x := a) (by omega), toUnicode_eq (x := b) (by omega), toUnicode_eq,
    splitOn_append_dot, List.map_append, join_append (by simp) (by simp)]
  rw [List.length_append, List.length_cons]
  omega

theorem count_dot_toUnicode (T : Tables) (x : Bytes) :
    (toUnicode T x).count dotByte = x.count dotByte := by
  by_cases hlen : x.length ≤ maxDomainInputBytes
  · have hx := count_add_one dotByte x
    have hy := count_add_one dotByte (toUnicode T x)
    rw [toUnicode_eq hlen, splitOn_toUnicode, List.length_map, ← hx] at hy
    rw [toUnicode_eq hlen]
    exact Nat.add_right_cancel hy
  · rw [toUnicode_of_lt (not_le.mp hlen)]

theorem toUnicode_toUnicode (T : Tables) (x : Bytes) :
    toUnicode T (toUnicode T x) = toUnicode T x := by
  by_cases hlen : x.length ≤ maxDomainInputBytes
  · by_cases hlen' : (toUnicode T x).length ≤ maxDomainInputBytes
    · rw [toUnicode_eq hlen', toUnicode_eq hlen, splitOn_toUnicode, List.map_map]
      exact congrArg _ (List.map_congr_left fun l _ => unicodeLabel_unicodeLabel T l)
    · exact toUnicode_of_lt (not_le.mp hlen')
  · rw [toUnicode_of_lt (not_le.mp hlen), toUnicode_of_lt (not_le.mp hlen)]

/-- **`to_unicode` acts label by label and is idempotent.** -/
theorem toUnicode_labelwise (T : Tables) :
    (∀ a b : Bytes, a.length + 1 + b.length ≤ maxDomainInputBytes →
      toUnicode T (a ++ dotByte :: b) = toUnicode T a ++ dotByte :: toUnicode T b) ∧
    (∀ x, (toUnicode T x).count dotByte = x.count dotByte) ∧
    ∀ x, toUnicode T (toUnicode T x) = toUnicode T x :=
  ⟨fun _ _ => toUnicode_append_dot, count_dot_toUnicode T, toUnicode_toUnicode T⟩

end AdaIdna
