/-
AdaIdna/Utf8Exact.lean

Transcoding is exact: `utf8_to_utf32` accepts the byte strings that RFC 3629
calls well-formed and no others, and the two predictors of lengths agree with
the two writers.

Well-formedness is the syntax of RFC 3629, section 4, each alternative a row
of byte ranges.  The buffer for the code points is sized by a function that
only counts bytes; that the reader stays inside it also where it fails half
way is `length_utf8ToUtf32_le`.
-/
import AdaIdna.Utf8Codec

namespace AdaIdna

open Lanes

/-! ### The syntax of RFC 3629 -/

/-- `UTF8-1 / UTF8-2 / UTF8-3 / UTF8-4`, the least and the greatest value of
each byte. -/
def utf8Rows : List (List (ℕ × ℕ)) :=
  [[(0x00, 0x7F)],
    [(0xC2, 0xDF), (0x80, 0xBF)],
    [(0xE0, 0xE0), (0xA0, 0xBF), (0x80, 0xBF)],
    [(0xE1, 0xEC), (0x80, 0xBF), (0x80, 0xBF)],
    [(0xED, 0xED), (0x80, 0x9F), (0x80, 0xBF)],
    [(0xEE, 0xEF), (0x80, 0xBF), (0x80, 0xBF)],
    [(0xF0, 0xF0), (0x90, 0xBF), (0x80, 0xBF), (0x80, 0xBF)],
    [(0xF1, 0xF3), (0x80, 0xBF), (0x80, 0xBF), (0x80, 0xBF)],
    [(0xF4, 0xF4), (0x80, 0x8F), (0x80, 0xBF), (0x80, 0xBF)]]

/-- The byte lies in the range. -/
def InRange (b : UInt8) (r : ℕ × ℕ) : Prop := r.1 ≤ b.toNat ∧ b.toNat ≤ r.2

/-- `UTF8-char` -/
def IsUtf8Char (bytes : Bytes) : Prop := ∃ row ∈ utf8Rows, List.Forall₂ InRange bytes row

/-- `UTF8-octets = *( UTF8-char )` -/
inductive IsUtf8 : Bytes → Prop
  | nil : IsUtf8 []
  | append {char rest : Bytes} : IsUtf8Char char → IsUtf8 rest → IsUtf8 (char ++ rest)

variable {b : Bytes} {c : ℕ} {s : U32String} {o : ByteOrder}

/-! ### Characters -/

/-- Every row lies inside one branch of the reader and inside its range. -/
theorem IsUtf8Char.exists_read (h : IsUtf8Char b) : ∃ c, readCodePoint b = some (c, []) := by
  obtain ⟨row, hrow, h⟩ := h
  simp only [utf8Rows, List.mem_cons, List.not_mem_nil, or_false] at hrow
  rcases hrow with rfl | rfl | rfl | rfl | rfl | rfl | rfl | rfl | rfl
  all_goals
    simp only [List.forall₂_cons_right_iff, List.forall₂_nil_right_iff, InRange] at h
    obtain ⟨b0, _, h0, h⟩ := h
  · obtain ⟨rfl, rfl⟩ := h
    exact ⟨_, readCodePoint_one (by omega) []⟩
  · obtain ⟨⟨b1, _, h1, rfl, rfl⟩, rfl⟩ := h
    rw [readCodePoint_two (by omega), if_pos (by omega)]
    exact ⟨_, rfl⟩
  iterate 4
    · obtain ⟨⟨b1, _, h1, ⟨b2, _, h2, rfl, rfl⟩, rfl⟩, rfl⟩ := h
      rw [readCodePoint_three (by omega), if_pos (by omega)]
      exact ⟨_, rfl⟩
  iterate 3
    · obtain ⟨⟨b1, _, h1, ⟨b2, _, h2, ⟨b3, _, h3, rfl, rfl⟩, rfl⟩, rfl⟩, rfl⟩ := h
      rw [readCodePoint_four (by omega), if_pos (by omega)]
      exact ⟨_, rfl⟩

theorem inRange_toChar {n lo hi : ℕ} (hn : n < 0x100) (hlo : lo ≤ n) (hhi : n ≤ hi) :
    InRange (toChar n) (lo, hi) := by
  rw [InRange, toNat_toChar hn]
  exact ⟨hlo, hhi⟩

/-- The row is found from the leading byte, and within it the second byte
keeps the range. -/
theorem isUtf8Char_encodeChar (h : IsScalar c) : IsUtf8Char (encodeChar c) := by
  obtain ⟨htop, hsur⟩ := h
  have htail : ∀ k, InRange (toChar (0x80 + k % 64)) (0x80, 0xBF) :=
    fun k => inRange_toChar (by omega) (by omega) (by omega)
  rw [encodeChar]
  split
  · exact ⟨_, .head _, .cons (inRange_toChar (by omega) (by omega) (by omega)) .nil⟩
  split
  · exact ⟨_, .tail _ (.head _), .cons (inRange_toChar (by omega) (by omega) (by omega))
      (.cons (htail c) .nil)⟩
  split
  · -- the second byte is bounded behind E0 and ED
    rcases lt_or_ge c 0x1000 with h0 | h0
    · refine ⟨[(0xE0, 0xE0), (0xA0, 0xBF), (0x80, 0xBF)], by simp [utf8Rows], ?_⟩
      exact .cons (inRange_toChar (by omega) (by omega) (by omega))
        (.cons (inRange_toChar (by omega) (by omega) (by omega)) (.cons (htail c) .nil))
    rcases lt_or_ge c 0xD000 with h1 | h1
    · refine ⟨[(0xE1, 0xEC), (0x80, 0xBF), (0x80, 0xBF)], by simp [utf8Rows], ?_⟩
      exact .cons (inRange_toChar (by omega) (by omega) (by omega))
        (.cons (htail (c / 64)) (.cons (htail c) .nil))
    rcases lt_or_ge c 0xE000 with h2 | h2
    · refine ⟨[(0xED, 0xED), (0x80, 0x9F), (0x80, 0xBF)], by simp [utf8Rows], ?_⟩
      exact .cons (inRange_toChar (by omega) (by omega) (by omega))
        (.cons (inRange_toChar (by omega) (by omega) (by omega)) (.cons (htail c) .nil))
    · refine ⟨[(0xEE, 0xEF), (0x80, 0xBF), (0x80, 0xBF)], by simp [utf8Rows], ?_⟩
      exact .cons (inRange_toChar (by omega) (by omega) (by omega))
        (.cons (htail (c / 64)) (.cons (htail c) .nil))
  · -- and behind F0 and F4
    rcases lt_or_ge c 0x40000 with h0 | h0
    · refine ⟨[(0xF0, 0xF0), (0x90, 0xBF), (0x80, 0xBF), (0x80, 0xBF)], by simp [utf8Rows], ?_⟩
      exact .cons (inRange_toChar (by omega) (by omega) (by omega))
        (.cons (inRange_toChar (by omega) (by omega) (by omega))
          (.cons (htail (c / 64)) (.cons (htail c) .nil)))
    rcases lt_or_ge c 0x100000 with h1 | h1
    · refine ⟨[(0xF1, 0xF3), (0x80, 0xBF), (0x80, 0xBF), (0x80, 0xBF)], by simp [utf8Rows], ?_⟩
      exact .cons (inRange_toChar (by omega) (by omega) (by omega))
        (.cons (htail (c / 4096)) (.cons (htail (c / 64)) (.cons (htail c) .nil)))
    · refine ⟨[(0xF4, 0xF4), (0x80, 0x8F), (0x80, 0xBF), (0x80, 0xBF)], by simp [utf8Rows], ?_⟩
      exact .cons (inRange_toChar (by omega) (by omega) (by omega))
        (.cons (inRange_toChar (by omega) (by omega) (by omega))
          (.cons (htail (c / 64)) (.cons (htail c) .nil)))

/-- **`UTF8-char`** derives the encodings of the scalar values. -/
theorem isUtf8Char_iff : IsUtf8Char b ↔ ∃ c, IsScalar c ∧ b = encodeChar c := by
  constructor
  · intro h
    obtain ⟨c, hc⟩ := h.exists_read
    obtain ⟨hs, hb⟩ := readCodePoint_eq_some.mp hc
    exact ⟨c, hs, hb.trans (List.append_nil _)⟩
  · rintro ⟨c, hc, rfl⟩
    exact isUtf8Char_encodeChar hc

/-! ### Strings -/

theorem isUtf8_iff : IsUtf8 b ↔ ∃ s, (∀ c ∈ s, IsScalar c) ∧ b = encodeUtf8 s := by
  constructor
  · intro h
    induction h with
    | nil => exact ⟨[], by simp, rfl⟩
    | append hchar _ ih =>
      obtain ⟨c, hc, rfl⟩ := isUtf8Char_iff.mp hchar
      obtain ⟨s, hs, rfl⟩ := ih
      exact ⟨c :: s, List.forall_mem_cons.mpr ⟨hc, hs⟩, rfl⟩
  · rintro ⟨s, hs, rfl⟩
    induction s with
    | nil => exact .nil
    | cons c s ih =>
      rw [List.forall_mem_cons] at hs
      exact .append (isUtf8Char_encodeChar hs.1) (ih hs.2)

/-- Different strings have different encodings. -/
theorem encodeUtf8_inj {t : U32String} (hs : ∀ c ∈ s, IsScalar c) (ht : ∀ c ∈ t, IsScalar c)
    (h : encodeUtf8 s = encodeUtf8 t) : s = t := by
  have hs' : utf8ToUtf32Loop .little (encodeUtf8 s).length (encodeUtf8 s) [] = _ :=
    utf8ToUtf32Loop_encodeUtf8 hs le_rfl
  rw [h, utf8ToUtf32Loop_encodeUtf8 ht le_rfl] at hs'
  exact (Prod.mk.inj hs').2.symm

theorem utf8ToUtf32_ne_zero_iff (hb : b ≠ []) : (utf8ToUtf32 o b).1 ≠ 0 ↔ IsUtf8 b := by
  rw [isUtf8_iff]
  constructor
  · intro h
    rcases hread : utf8ToUtf32 o b with ⟨n, s⟩
    rw [hread] at h
    obtain ⟨hs, hb, -⟩ := (utf8ToUtf32_eq h).mp hread
    exact ⟨s, hs, hb⟩
  · rintro ⟨s, hs, rfl⟩
    have hne : s.length ≠ 0 := fun h => by
      rw [List.length_eq_zero_iff.mp h] at hb
      exact hb rfl
    rw [(utf8ToUtf32_eq hne).mpr ⟨hs, rfl, rfl⟩]
    exact hne

/-! ### The size of the output -/

theorem utf32LengthFromUtf8_append (a b : Bytes) :
    utf32LengthFromUtf8 (a ++ b) = utf32LengthFromUtf8 a + utf32LengthFromUtf8 b :=
  List.countP_append

/-- ASCII bytes count one each. -/
theorem utf32LengthFromUtf8_of_ascii (h : ∀ x ∈ b, x.toNat < 0x80) :
    utf32LengthFromUtf8 b = b.length := by
  refine List.countP_eq_length.mpr fun x hx => ?_
  have := h x hx
  rw [decide_eq_true_iff, toInt8_gt_iff]
  omega

/-- Each code point written has consumed a byte that counts, so the loop never
writes more than it was promised: this also holds where it fails. -/
theorem length_utf8ToUtf32Loop_le {fuel : ℕ} {out : U32String} :
    (utf8ToUtf32Loop o fuel b out).2.length ≤ out.length + utf32LengthFromUtf8 b := by
  induction fuel generalizing b out with
  | zero => cases b <;> exact Nat.le_add_right _ _
  | succ fuel ih =>
    cases b with
    | nil => exact Nat.le_add_right _ _
    | cons b0 data =>
      rw [utf8ToUtf32Loop]
      split
      · -- sixteen ASCII characters
        rename_i hblock
        have hascii := (asciiBlock_iff hblock.1).mp hblock.2
        apply ih.trans
        rw [List.length_append, List.length_map, Nat.add_assoc,
          ← utf32LengthFromUtf8_of_ascii hascii, ← utf32LengthFromUtf8_append,
          List.take_append_drop]
      · split
        · exact Nat.le_add_right _ _
        · -- one character
          rename_i c rest hread
          obtain ⟨hc, hdata⟩ := readCodePoint_eq_some.mp hread
          have hone := utf32LengthFromUtf8_encodeUtf8 (List.forall_mem_singleton.mpr hc)
          rw [encodeUtf8_cons, encodeUtf8_nil, List.append_nil] at hone
          apply ih.trans
          rw [hdata, utf32LengthFromUtf8_append, hone, List.length_append, Nat.add_assoc]

/-- The reader stays inside the buffer its caller has allocated. -/
theorem length_utf8ToUtf32_le (o : ByteOrder) (b : Bytes) :
    (utf8ToUtf32 o b).2.length ≤ utf32LengthFromUtf8 b := by
  apply length_utf8ToUtf32Loop_le.trans
  rw [List.length_nil, Nat.zero_add]

/-! ### Both directions -/

/-- **Transcoding is exact in both directions**: the reader accepts well-formed
UTF-8 and nothing else, reads what the writer wrote and writes what the reader
read, the predicted lengths are those of the outputs, and the reader never
leaves the buffer of the predicted length. -/
theorem transcoding_exact (o : ByteOrder) :
    (∀ b ≠ [], ((utf8ToUtf32 o b).1 ≠ 0 ↔ IsUtf8 b)) ∧
    (∀ b n s, b ≠ [] → utf8ToUtf32 o b = (n, s) → n ≠ 0 →
      n = utf32LengthFromUtf8 b ∧ n = s.length ∧ (∀ c ∈ s, IsScalar c) ∧
      (∀ t, (∀ c ∈ t, IsScalar c) → (b = encodeUtf8 t ↔ t = s)) ∧
      utf32ToUtf8 o s = (utf8LengthFromUtf32 s, b) ∧ b.length = utf8LengthFromUtf32 s) ∧
    (∀ s, (∀ c ∈ s, IsScalar c) →
      (utf32ToUtf8 o s).1 = utf8LengthFromUtf32 s ∧
      (utf32ToUtf8 o s).2.length = utf8LengthFromUtf32 s ∧
      utf8ToUtf32 o (utf32ToUtf8 o s).2 = (s.length, s)) ∧
    ∀ b, (utf8ToUtf32 o b).2.length ≤ utf32LengthFromUtf8 b := by
  refine ⟨fun b hb => utf8ToUtf32_ne_zero_iff hb, ?_, ?_, length_utf8ToUtf32_le o⟩
  · intro b n s hb h hn
    obtain ⟨hs, rfl, rfl⟩ := (utf8ToUtf32_eq hn).mp h
    refine ⟨(utf32LengthFromUtf8_encodeUtf8 hs).symm, rfl, hs, fun t ht => ?_, ?_, ?_⟩
    · exact ⟨fun h => (encodeUtf8_inj hs ht h).symm, fun h => by rw [h]⟩
    · rw [utf32ToUtf8_eq hs, utf8LengthFromUtf32_eq]
    · rw [utf8LengthFromUtf32_eq]
  · intro s hs
    rw [utf32ToUtf8_eq hs, utf8LengthFromUtf32_eq]
    refine ⟨rfl, rfl, ?_⟩
    rw [utf8ToUtf32, utf8ToUtf32Loop_encodeUtf8 hs le_rfl, List.length_nil, Nat.zero_add,
      List.nil_append]

/-- The euro sign. -/
theorem transcoding_exact_euro :
    utf32LengthFromUtf8 [0xE2, 0x82, 0xAC] = 1 ∧
      utf32ToUtf8 .little [0x20AC] = (3, [0xE2, 0x82, 0xAC]) ∧
      utf8ToUtf32 .little (utf32ToUtf8 .little [0x20AC]).2 = (1, [0x20AC]) := by
  have h := (transcoding_exact .little).2.1 [0xE2, 0x82, 0xAC] 1 [0x20AC] (by decide) (by decide)
    (by decide)
  have h' := (transcoding_exact .little).2.2.1 [0x20AC] (by decide)
  exact ⟨h.1.symm, h.2.2.2.2.1, h'.2.2⟩

end AdaIdna
