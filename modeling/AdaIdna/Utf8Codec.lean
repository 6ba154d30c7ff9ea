/-
AdaIdna/Utf8Codec.lean

The transcoding functions read and write UTF-8.

`encodeChar` is the encoding of one scalar value, by the arithmetic of the
format; `readCodePoint` accepts exactly such encodings
(`readCodePoint_eq_some`) and `writeCodePoint` writes them.  The tests through
a word only decide how many characters one round of a loop takes, so both
loops amount to `encodeUtf8` (`utf8ToUtf32_eq`, `utf32ToUtf8_eq`).
-/
import AdaIdna.Transcoding

namespace AdaIdna

open Lanes

/-! ### The encoding -/

/-- The UTF-8 encoding of a scalar value. -/
def encodeChar (c : ℕ) : Bytes :=
  if c < 0x80 then [toChar c]
  else if c < 0x800 then [toChar (0xC0 + c / 64), toChar (0x80 + c % 64)]
  else if c < 0x10000 then
    [toChar (0xE0 + c / 4096), toChar (0x80 + c / 64 % 64), toChar (0x80 + c % 64)]
  else
    [toChar (0xF0 + c / 262144), toChar (0x80 + c / 4096 % 64), toChar (0x80 + c / 64 % 64),
      toChar (0x80 + c % 64)]

/-- The UTF-8 encoding of a string. -/
def encodeUtf8 (s : U32String) : Bytes := s.flatMap encodeChar

variable {c : ℕ} {s t : U32String} {data rest : Bytes} {o : ByteOrder}

@[simp] theorem encodeUtf8_nil : encodeUtf8 [] = [] := rfl

@[simp] theorem encodeUtf8_cons (c : ℕ) (s : U32String) :
    encodeUtf8 (c :: s) = encodeChar c ++ encodeUtf8 s := rfl

theorem encodeUtf8_append (s t : U32String) :
    encodeUtf8 (s ++ t) = encodeUtf8 s ++ encodeUtf8 t := List.flatMap_append

theorem encodeChar_of_lt (h : c < 0x80) : encodeChar c = [toChar c] := if_pos h

theorem encodeUtf8_of_ascii (h : ∀ c ∈ s, c < 0x80) : encodeUtf8 s = s.map toChar := by
  rw [encodeUtf8, List.flatMap_congr fun c hc => encodeChar_of_lt (h c hc), List.map_eq_flatMap]

theorem length_encodeChar_pos (c : ℕ) : 0 < (encodeChar c).length := by
  rw [encodeChar]
  split
  · exact Nat.one_pos
  · split
    · exact Nat.two_pos
    · split <;> exact Nat.succ_pos _

theorem length_le_encodeUtf8 (s : U32String) : s.length ≤ (encodeUtf8 s).length := by
  induction s with
  | nil => exact le_rfl
  | cons c s ih =>
    have := length_encodeChar_pos c
    rw [encodeUtf8_cons, List.length_append, List.length_cons]
    omega

/-- The first byte of an encoding tells an ASCII character. -/
theorem exists_encodeChar_of_le (h : 0x80 ≤ c) (h' : c ≤ 0x10FFFF) :
    ∃ b bs, encodeChar c = b :: bs ∧ 0xC0 ≤ b.toNat ∧
      ∀ x ∈ bs, 0x80 ≤ x.toNat ∧ x.toNat < 0xC0 := by
  have htail : ∀ k, 0x80 ≤ (toChar (0x80 + k % 64)).toNat ∧
      (toChar (0x80 + k % 64)).toNat < 0xC0 := by
    intro k
    rw [toNat_toChar (by omega)]
    omega
  rw [encodeChar, if_neg (not_lt.mpr h)]
  split
  · refine ⟨_, _, rfl, ?_, ?_⟩
    · rw [toNat_toChar (by omega)]
      omega
    · simpa using htail c
  · split
    · refine ⟨_, _, rfl, ?_, ?_⟩
      · rw [toNat_toChar (by omega)]
        omega
      · simpa using ⟨htail (c / 64), htail c⟩
    · refine ⟨_, _, rfl, ?_, ?_⟩
      · rw [toNat_toChar (by omega)]
        omega
      · simpa using ⟨htail (c / 4096), htail (c / 64), htail c⟩

/-! ### Bit fields -/

theorem and_lead_two : ∀ b < 256, (b &&& 0xE0 = 0xC0 ↔ b / 32 = 6) := by decide +kernel

theorem and_lead_three : ∀ b < 256, (b &&& 0xF0 = 0xE0 ↔ b / 16 = 14) := by decide +kernel

theorem and_lead_four : ∀ b < 256, (b &&& 0xF8 = 0xF0 ↔ b / 8 = 30) := by decide +kernel

theorem isContinuation_iff {b : UInt8} : isContinuation b = true ↔ b.toNat / 64 = 2 := by
  have h : ∀ b < 256, (b &&& 0xC0 = 0x80 ↔ b / 64 = 2) := by decide +kernel
  rw [isContinuation, beq_iff_eq]
  exact h _ b.toNat_lt

theorem not_isContinuation_iff {b : UInt8} : (!isContinuation b) = true ↔ ¬ b.toNat / 64 = 2 := by
  rw [Bool.not_eq_true', Bool.eq_false_iff, Ne, isContinuation_iff]

/-- Six more bits behind a number. -/
theorem shiftLeft_six_or (a b : ℕ) : a <<< 6 ||| (b &&& 0x3F) = a * 64 + b % 64 := by
  have hb : b &&& 0x3F = b % 64 := Nat.and_two_pow_sub_one_eq_mod b 6
  rw [hb, ← Nat.shiftLeft_add_eq_or_of_lt (i := 6) (Nat.mod_lt b (by decide)), Nat.shiftLeft_eq]

theorem fields_two (a b : ℕ) : (a &&& 0x1F) <<< 6 ||| (b &&& 0x3F) = a % 32 * 64 + b % 64 := by
  rw [shiftLeft_six_or, show a &&& 0x1F = a % 32 from Nat.and_two_pow_sub_one_eq_mod a 5]

theorem fields_three (a b c : ℕ) :
    (a &&& 0x0F) <<< 12 ||| (b &&& 0x3F) <<< 6 ||| (c &&& 0x3F)
      = (a % 16 * 64 + b % 64) * 64 + c % 64 := by
  rw [show (a &&& 0x0F) <<< 12 = ((a &&& 0x0F) <<< 6) <<< 6 by rw [← Nat.shiftLeft_add],
    ← Nat.shiftLeft_or_distrib, shiftLeft_six_or, shiftLeft_six_or,
    show a &&& 0x0F = a % 16 from Nat.and_two_pow_sub_one_eq_mod a 4]

theorem fields_four (a b c d : ℕ) :
    (a &&& 0x07) <<< 18 ||| (b &&& 0x3F) <<< 12 ||| (c &&& 0x3F) <<< 6 ||| (d &&& 0x3F)
      = ((a % 8 * 64 + b % 64) * 64 + c % 64) * 64 + d % 64 := by
  rw [show (a &&& 0x07) <<< 18 = (((a &&& 0x07) <<< 6) <<< 6) <<< 6 by
      rw [← Nat.shiftLeft_add, ← Nat.shiftLeft_add],
    show (b &&& 0x3F) <<< 12 = ((b &&& 0x3F) <<< 6) <<< 6 by rw [← Nat.shiftLeft_add],
    ← Nat.shiftLeft_or_distrib, ← Nat.shiftLeft_or_distrib, ← Nat.shiftLeft_or_distrib,
    shiftLeft_six_or, shiftLeft_six_or, shiftLeft_six_or,
    show a &&& 0x07 = a % 8 from Nat.and_two_pow_sub_one_eq_mod a 3]

/-! ### One code point -/

/-- A byte is known from its value. -/
theorem eq_toChar {b : UInt8} {n : ℕ} (h : b.toNat = n) : b = toChar n := by
  rw [← h, toChar_toNat]

section Lead

variable {lead b1 b2 b3 : UInt8}

/-- ASCII is read as it is. -/
theorem readCodePoint_one (h : lead.toNat < 0x80) (data : Bytes) :
    readCodePoint (lead :: data) = some (lead.toNat, data) := if_pos h

/-- Each other branch accepts continuation bytes that give a number of its
range. -/
theorem readCodePoint_two (h : lead.toNat / 32 = 6) (data : Bytes) :
    readCodePoint (lead :: b1 :: data)
      = if b1.toNat / 64 = 2 ∧ 0x80 ≤ lead.toNat % 32 * 64 + b1.toNat % 64 then
          some (lead.toNat % 32 * 64 + b1.toNat % 64, data)
        else none := by
  have h2 := (and_lead_two _ lead.toNat_lt).mpr h
  unfold readCodePoint
  dsimp only
  rw [if_neg (by omega), if_pos h2, fields_two]
  split
  · rename_i h1
    rw [not_isContinuation_iff] at h1
    rw [if_neg fun h => h1 h.1]
  · rename_i h1
    rw [not_isContinuation_iff, not_not] at h1
    split
    · rw [if_neg (by omega)]
    · rw [if_pos ⟨h1, by omega⟩]

theorem readCodePoint_three (h : lead.toNat / 16 = 14) (data : Bytes) :
    readCodePoint (lead :: b1 :: b2 :: data)
      = if b1.toNat / 64 = 2 ∧ b2.toNat / 64 = 2 ∧
            0x800 ≤ (lead.toNat % 16 * 64 + b1.toNat % 64) * 64 + b2.toNat % 64 ∧
            ¬ (0xD800 ≤ (lead.toNat % 16 * 64 + b1.toNat % 64) * 64 + b2.toNat % 64 ∧
              (lead.toNat % 16 * 64 + b1.toNat % 64) * 64 + b2.toNat % 64 < 0xE000) then
          some ((lead.toNat % 16 * 64 + b1.toNat % 64) * 64 + b2.toNat % 64, data)
        else none := by
  have h2 : ¬ lead.toNat &&& 0xE0 = 0xC0 := fun h' => by
    have := (and_lead_two _ lead.toNat_lt).mp h'
    omega
  have h3 := (and_lead_three _ lead.toNat_lt).mpr h
  unfold readCodePoint
  dsimp only
  rw [if_neg (by omega), if_neg h2, if_pos h3, fields_three]
  split
  · rename_i h1
    rw [not_isContinuation_iff] at h1
    rw [if_neg fun h => h1 h.1]
  · rename_i h1
    rw [not_isContinuation_iff, not_not] at h1
    split
    · rename_i h2
      rw [not_isContinuation_iff] at h2
      rw [if_neg fun h => h2 h.2.1]
    · rename_i h2
      rw [not_isContinuation_iff, not_not] at h2
      split
      · rw [if_neg (by omega)]
      · rw [if_pos ⟨h1, h2, by omega, by omega⟩]

theorem readCodePoint_four (h : lead.toNat / 8 = 30) (data : Bytes) :
    readCodePoint (lead :: b1 :: b2 :: b3 :: data)
      = if b1.toNat / 64 = 2 ∧ b2.toNat / 64 = 2 ∧ b3.toNat / 64 = 2 ∧
            0xFFFF < ((lead.toNat % 8 * 64 + b1.toNat % 64) * 64 + b2.toNat % 64) * 64
              + b3.toNat % 64 ∧
            ((lead.toNat % 8 * 64 + b1.toNat % 64) * 64 + b2.toNat % 64) * 64 + b3.toNat % 64
              ≤ 0x10FFFF then
          some (((lead.toNat % 8 * 64 + b1.toNat % 64) * 64 + b2.toNat % 64) * 64 + b3.toNat % 64,
            data)
        else none := by
  have h2 : ¬ lead.toNat &&& 0xE0 = 0xC0 := fun h' => by
    have := (and_lead_two _ lead.toNat_lt).mp h'
    omega
  have h3 : ¬ lead.toNat &&& 0xF0 = 0xE0 := fun h' => by
    have := (and_lead_three _ lead.toNat_lt).mp h'
    omega
  have h4 := (and_lead_four _ lead.toNat_lt).mpr h
  unfold readCodePoint
  dsimp only
  rw [if_neg (by omega), if_neg h2, if_neg h3, if_pos h4, fields_four]
  split
  · rename_i h1
    rw [not_isContinuation_iff] at h1
    rw [if_neg fun h => h1 h.1]
  · rename_i h1
    rw [not_isContinuation_iff, not_not] at h1
    split
    · rename_i h2
      rw [not_isContinuation_iff] at h2
      rw [if_neg fun h => h2 h.2.1]
    · rename_i h2
      rw [not_isContinuation_iff, not_not] at h2
      split
      · rename_i h3
        rw [not_isContinuation_iff] at h3
        rw [if_neg fun h => h3 h.2.2.1]
      · rename_i h3
        rw [not_isContinuation_iff, not_not] at h3
        split
        · rw [if_neg (by omega)]
        · rw [if_pos ⟨h1, h2, h3, by omega, by omega⟩]

/-- The leading byte says how many bytes follow, if they are there. -/
theorem lead_cases (h : readCodePoint (lead :: data) = some (c, rest)) :
    lead.toNat < 0x80 ∨
      (lead.toNat / 32 = 6 ∧ ∃ b1 r, data = b1 :: r) ∨
      (lead.toNat / 16 = 14 ∧ ∃ b1 b2 r, data = b1 :: b2 :: r) ∨
      lead.toNat / 8 = 30 ∧ ∃ b1 b2 b3 r, data = b1 :: b2 :: b3 :: r := by
  unfold readCodePoint at h
  dsimp only at h
  split at h
  · rename_i hlead
    exact Or.inl hlead
  · split at h
    · rename_i hlead
      rw [and_lead_two _ lead.toNat_lt] at hlead
      rcases data with - | ⟨b1, r⟩
      · cases h
      · exact Or.inr (Or.inl ⟨hlead, b1, r, rfl⟩)
    · split at h
      · rename_i hlead
        rw [and_lead_three _ lead.toNat_lt] at hlead
        rcases data with - | ⟨b1, - | ⟨b2, r⟩⟩
        · cases h
        · cases h
        · exact Or.inr (Or.inr (Or.inl ⟨hlead, b1, b2, r, rfl⟩))
      · split at h
        · rename_i hlead
          rw [and_lead_four _ lead.toNat_lt] at hlead
          rcases data with - | ⟨b1, - | ⟨b2, - | ⟨b3, r⟩⟩⟩
          · cases h
          · cases h
          · cases h
          · exact Or.inr (Or.inr (Or.inr ⟨hlead, b1, b2, b3, r, rfl⟩))
        · cases h

end Lead

theorem readCodePoint_encodeChar (h : IsScalar c) (rest : Bytes) :
    readCodePoint (encodeChar c ++ rest) = some (c, rest) := by
  obtain ⟨htop, hsur⟩ := h
  have htail : ∀ k, (toChar (0x80 + k % 64)).toNat = 0x80 + k % 64 :=
    fun k => toNat_toChar (by omega)
  rw [encodeChar]
  split
  · rename_i hascii
    have hlead : (toChar c).toNat = c := toNat_toChar (by omega)
    show readCodePoint (toChar c :: rest) = _
    rw [readCodePoint_one (by omega), hlead]
  · split
    · have hlead : (toChar (0xC0 + c / 64)).toNat = 0xC0 + c / 64 := toNat_toChar (by omega)
      show readCodePoint (_ :: _ :: rest) = _
      rw [readCodePoint_two (by omega), hlead, htail, if_pos (by omega)]
      exact congrArg (fun x => some (x, rest)) (by omega)
    · split
      · have hlead : (toChar (0xE0 + c / 4096)).toNat = 0xE0 + c / 4096 := toNat_toChar (by omega)
        show readCodePoint (_ :: _ :: _ :: rest) = _
        rw [readCodePoint_three (by omega), hlead, htail, htail, if_pos (by omega)]
        exact congrArg (fun x => some (x, rest)) (by omega)
      · have hlead : (toChar (0xF0 + c / 262144)).toNat = 0xF0 + c / 262144 :=
          toNat_toChar (by omega)
        show readCodePoint (_ :: _ :: _ :: _ :: rest) = _
        rw [readCodePoint_four (by omega), hlead, htail, htail, htail, if_pos (by omega)]
        exact congrArg (fun x => some (x, rest)) (by omega)

theorem eq_encodeChar_of_readCodePoint (h : readCodePoint data = some (c, rest)) :
    IsScalar c ∧ data = encodeChar c ++ rest := by
  rcases data with - | ⟨lead, data⟩
  · cases h
  have hlt := lead.toNat_lt
  rcases lead_cases h with hlead | ⟨hlead, b1, r, rfl⟩ | ⟨hlead, b1, b2, r, rfl⟩ |
    ⟨hlead, b1, b2, b3, r, rfl⟩
  · rw [readCodePoint_one hlead] at h
    obtain ⟨rfl, rfl⟩ := Prod.mk.inj (Option.some.inj h)
    refine ⟨⟨by omega, by omega⟩, ?_⟩
    rw [encodeChar_of_lt hlead, toChar_toNat]
    rfl
  · rw [readCodePoint_two hlead] at h
    split at h
    · obtain ⟨hc, rfl⟩ := Prod.mk.inj (Option.some.inj h)
      refine ⟨⟨by omega, by omega⟩, ?_⟩
      rw [encodeChar, if_neg (by omega), if_pos (by omega),
        ← eq_toChar (b := lead) (by omega), ← eq_toChar (b := b1) (by omega)]
      rfl
    · cases h
  · rw [readCodePoint_three hlead] at h
    split at h
    · obtain ⟨hc, rfl⟩ := Prod.mk.inj (Option.some.inj h)
      refine ⟨⟨by omega, by omega⟩, ?_⟩
      rw [encodeChar, if_neg (by omega), if_neg (by omega), if_pos (by omega),
        ← eq_toChar (b := lead) (by omega), ← eq_toChar (b := b1) (by omega),
        ← eq_toChar (b := b2) (by omega)]
      rfl
    · cases h
  · rw [readCodePoint_four hlead] at h
    split at h
    · obtain ⟨hc, rfl⟩ := Prod.mk.inj (Option.some.inj h)
      refine ⟨⟨by omega, by omega⟩, ?_⟩
      rw [encodeChar, if_neg (by omega), if_neg (by omega), if_neg (by omega),
        ← eq_toChar (b := lead) (by omega), ← eq_toChar (b := b1) (by omega),
        ← eq_toChar (b := b2) (by omega), ← eq_toChar (b := b3) (by omega)]
      rfl
    · cases h

/-- **Reading one code point** accepts the encodings of scalar values. -/
theorem readCodePoint_eq_some :
    readCodePoint data = some (c, rest) ↔ IsScalar c ∧ data = encodeChar c ++ rest := by
  constructor
  · exact eq_encodeChar_of_readCodePoint
  · rintro ⟨hc, rfl⟩
    exact readCodePoint_encodeChar hc rest

/-! ### Decoding -/

theorem loadWord_and_eq_zero_iff (hlen : data.length = 8) :
    (loadWord o data).toNat &&& 0x8080808080808080 = 0 ↔ ∀ b ∈ data, b.toNat < 0x80 := by
  have hlane : ∀ x < 256, (x &&& 0x80 = 0 ↔ x < 0x80) := by decide +kernel
  set lanes := (o.arrange data).map UInt8.toNat with hlanes
  have hlt : ∀ x ∈ lanes, x < 256 := by
    intro x hx
    obtain ⟨b, -, rfl⟩ := List.mem_map.mp hx
    exact b.toNat_lt
  have hmask : 0x8080808080808080 = pack 8 (lanes.map fun _ => 0x80) := by
    rw [List.map_const', hlanes, List.length_map, ByteOrder.length_arrange, hlen]
    rfl
  have hword : (loadWord o data).toNat = pack 8 (lanes.map fun x => x) := by
    rw [toNat_loadWord hlen.le, List.map_id']
  rw [hword, hmask, lanewise_and.pack_map (w := 8) hlt fun _ _ => by decide, pack_eq_zero_iff,
    hlanes]
  simp only [List.mem_map, forall_exists_index, and_imp, forall_apply_eq_imp_iff₂,
    ByteOrder.mem_arrange]
  exact forall₂_congr fun b _ => hlane _ b.toNat_lt

/-- **The test on 16 bytes** asks whether all of them are ASCII. -/
theorem asciiBlock_iff (h : 16 ≤ data.length) :
    asciiBlock o data = true ↔ ∀ b ∈ data.take 16, b.toNat < 0x80 := by
  have h1 : (data.take 8).length = 8 := by
    rw [List.length_take]
    omega
  have h2 : ((data.drop 8).take 8).length = 8 := by
    rw [List.length_take, List.length_drop]
    omega
  have hsplit : data.take 16 = data.take 8 ++ (data.drop 8).take 8 := by
    rw [show 16 = 8 + 8 from rfl, List.take_add]
  rw [hsplit, List.forall_mem_append, ← loadWord_and_eq_zero_iff (o := o) h1,
    ← loadWord_and_eq_zero_iff (o := o) h2, asciiBlock, beq_iff_eq, ← UInt64.toNat_inj,
    UInt64.toNat_and, UInt64.toNat_or]
  show (_ ||| _) &&& 0x8080808080808080 = 0 ↔ _
  rw [Nat.and_or_distrib_right, Nat.or_eq_zero_iff]

/-- ASCII bytes in front of an encoding are characters. -/
theorem exists_of_encodeUtf8_eq_append {A R : Bytes} (hs : ∀ c ∈ s, IsScalar c)
    (hA : ∀ b ∈ A, b.toNat < 0x80) (h : encodeUtf8 s = A ++ R) :
    ∃ t, s = A.map UInt8.toNat ++ t ∧ encodeUtf8 t = R := by
  induction A generalizing s with
  | nil => exact ⟨s, rfl, h⟩
  | cons a A ih =>
    rw [List.forall_mem_cons] at hA
    cases s with
    | nil => cases h
    | cons c s =>
      rw [List.forall_mem_cons] at hs
      rw [encodeUtf8_cons, List.cons_append] at h
      by_cases hc : c < 0x80
      · rw [encodeChar_of_lt hc] at h
        obtain ⟨rfl, htail⟩ := List.cons.inj h
        obtain ⟨t, rfl, ht⟩ := ih hs.2 hA.2 htail
        exact ⟨t, by rw [List.map_cons, toNat_toChar (by omega)]; rfl, ht⟩
      · -- the first byte would not be ASCII
        obtain ⟨b, bs, hb, hlead, -⟩ := exists_encodeChar_of_le (not_lt.mp hc) hs.1.1
        rw [hb] at h
        obtain ⟨rfl, -⟩ := List.cons.inj h
        omega

/-- Only ASCII strings have ASCII encodings. -/
theorem eq_map_toNat_of_encodeUtf8 {A : Bytes} (hs : ∀ c ∈ s, IsScalar c)
    (hA : ∀ b ∈ A, b.toNat < 0x80) (h : encodeUtf8 s = A) : s = A.map UInt8.toNat := by
  rw [← List.append_nil A] at h
  obtain ⟨t, rfl, ht⟩ := exists_of_encodeUtf8_eq_append hs hA h
  have hle := length_le_encodeUtf8 t
  rw [ht, List.length_nil, Nat.le_zero] at hle
  rw [List.eq_nil_of_length_eq_zero hle, List.append_nil]

theorem isAsciiBytes_encodeUtf8 (hs : ∀ c ∈ s, IsScalar c) :
    isAsciiBytes (encodeUtf8 s) = isAscii s := by
  rw [Bool.eq_iff_iff]
  constructor
  · intro h
    have hA := isAsciiBytes_iff.mp h
    rw [eq_map_toNat_of_encodeUtf8 hs hA rfl]
    apply isAscii_iff.mpr
    intro c hc
    obtain ⟨b, hb, rfl⟩ := List.mem_map.mp hc
    exact hA b hb
  · intro h
    have hlt := isAscii_iff.mp h
    rw [encodeUtf8_of_ascii hlt]
    apply isAsciiBytes_iff.mpr
    intro b hb
    obtain ⟨c, hc, rfl⟩ := List.mem_map.mp hb
    rw [toNat_toChar ((hlt c hc).trans (by decide))]
    exact hlt c hc

theorem utf8ToUtf32Loop_encodeUtf8 {fuel : ℕ} {out : U32String} (hs : ∀ c ∈ s, IsScalar c)
    (hf : (encodeUtf8 s).length ≤ fuel) :
    utf8ToUtf32Loop o fuel (encodeUtf8 s) out = (out.length + s.length, out ++ s) := by
  induction fuel generalizing s out with
  | zero =>
    have hle := length_le_encodeUtf8 s
    obtain rfl : s = [] := List.eq_nil_of_length_eq_zero (by omega)
    rw [encodeUtf8_nil, utf8ToUtf32Loop, List.append_nil]
    rfl
  | succ fuel ih =>
    rcases h : encodeUtf8 s with - | ⟨b, data⟩
    · have hle := length_le_encodeUtf8 s
      rw [h] at hle
      obtain rfl : s = [] := List.eq_nil_of_length_eq_zero (Nat.le_zero.mp hle)
      rw [utf8ToUtf32Loop, List.append_nil]
      rfl
    · rw [utf8ToUtf32Loop]
      split
      · -- sixteen ASCII characters
        rename_i hblock
        have hascii := (asciiBlock_iff hblock.1).mp hblock.2
        have hdata := h.trans (List.take_append_drop 16 (b :: data)).symm
        obtain ⟨t, rfl, ht⟩ := exists_of_encodeUtf8_eq_append hs hascii hdata
        have hlen := congrArg List.length ht
        rw [List.length_drop, ← h] at hlen
        have h16 := hblock.1
        rw [← h] at h16
        rw [← ht, ih (List.forall_mem_append.mp hs).2 (by omega), List.length_append,
          List.length_append, Nat.add_assoc, List.append_assoc]
      · -- one character
        cases s with
        | nil => cases h
        | cons c s =>
          rw [List.forall_mem_cons] at hs
          have hlen := length_encodeChar_pos c
          rw [encodeUtf8_cons] at h hf
          rw [List.length_append] at hf
          rw [← h, readCodePoint_encodeChar hs.1]
          dsimp only
          rw [ih hs.2 (by omega)]
          simp [Nat.add_assoc, Nat.add_comm 1]

theorem exists_of_utf8ToUtf32Loop {fuel n : ℕ} {out r : U32String} (hn : n ≠ 0)
    (h : utf8ToUtf32Loop o fuel data out = (n, r)) :
    ∃ s, (∀ c ∈ s, IsScalar c) ∧ data = encodeUtf8 s ∧ r = out ++ s ∧ n = r.length := by
  induction fuel generalizing data out with
  | zero =>
    cases data with
    | nil =>
      obtain ⟨rfl, rfl⟩ := Prod.mk.inj h
      exact ⟨[], by simp, rfl, (List.append_nil _).symm, rfl⟩
    | cons b data => exact absurd (Prod.mk.inj h).1.symm hn
  | succ fuel ih =>
    cases data with
    | nil =>
      obtain ⟨rfl, rfl⟩ := Prod.mk.inj h
      exact ⟨[], by simp, rfl, (List.append_nil _).symm, rfl⟩
    | cons b data =>
      rw [utf8ToUtf32Loop] at h
      split at h
      · rename_i hblock
        have hascii := (asciiBlock_iff hblock.1).mp hblock.2
        obtain ⟨s, hs, hdrop, hr, hlen⟩ := ih h
        have hmap : ∀ c ∈ ((b :: data).take 16).map UInt8.toNat, c < 0x80 := by
          intro c hc
          obtain ⟨x, hx, rfl⟩ := List.mem_map.mp hc
          exact hascii x hx
        refine ⟨((b :: data).take 16).map UInt8.toNat ++ s, ?_, ?_, ?_, hlen⟩
        · refine List.forall_mem_append.mpr ⟨fun c hc => ?_, hs⟩
          have := hmap c hc
          exact ⟨by omega, by omega⟩
        · rw [encodeUtf8_append, encodeUtf8_of_ascii hmap, map_toChar_map_toNat, ← hdrop,
            List.take_append_drop]
        · rw [hr, List.append_assoc]
      · split at h
        · exact absurd (Prod.mk.inj h).1.symm hn
        · rename_i c rest hread
          obtain ⟨hc, hdata⟩ := eq_encodeChar_of_readCodePoint hread
          obtain ⟨s, hs, rfl, hr, hlen⟩ := ih h
          exact ⟨c :: s, List.forall_mem_cons.mpr ⟨hc, hs⟩, hdata, by rw [hr]; simp, hlen⟩

/-- **`utf8_to_utf32`** succeeds on the encodings of strings of scalar values. -/
theorem utf8ToUtf32_eq {n : ℕ} (hn : n ≠ 0) :
    utf8ToUtf32 o data = (n, s) ↔
      (∀ c ∈ s, IsScalar c) ∧ data = encodeUtf8 s ∧ n = s.length := by
  constructor
  · intro h
    obtain ⟨s', hs, hdata, rfl, hlen⟩ := exists_of_utf8ToUtf32Loop hn h
    exact ⟨hs, hdata, hlen⟩
  · rintro ⟨hs, rfl, rfl⟩
    rw [utf8ToUtf32, utf8ToUtf32Loop_encodeUtf8 hs le_rfl, List.length_nil, Nat.zero_add,
      List.nil_append]

/-- The bytes that `utf32_length_from_utf8` counts are those that begin a
character. -/
theorem toInt8_gt_iff (b : UInt8) :
    -65 < b.toInt8.toInt ↔ ¬ (0x80 ≤ b.toNat ∧ b.toNat < 0xC0) := by
  have h : ∀ n < 256, (-65 < (UInt8.ofNat n).toInt8.toInt ↔ ¬ (0x80 ≤ n ∧ n < 0xC0)) := by
    decide +kernel
  have hb := h b.toNat b.toNat_lt
  rwa [UInt8.ofNat_toNat] at hb

theorem utf32LengthFromUtf8_encodeUtf8 (hs : ∀ c ∈ s, IsScalar c) :
    utf32LengthFromUtf8 (encodeUtf8 s) = s.length := by
  induction s with
  | nil => rfl
  | cons c s ih =>
    rw [List.forall_mem_cons] at hs
    rw [utf32LengthFromUtf8] at ih ⊢
    rw [encodeUtf8_cons, List.countP_append, ih hs.2, List.length_cons, Nat.add_comm s.length]
    congr 1
    by_cases hc : c < 0x80
    · rw [encodeChar_of_lt hc, List.countP_singleton, if_pos]
      rw [decide_eq_true_iff, toInt8_gt_iff, toNat_toChar (by omega)]
      omega
    -- only the first byte counts
    · obtain ⟨b, bs, hb, hlead, htail⟩ := exists_encodeChar_of_le (not_lt.mp hc) hs.1.1
      rw [hb, List.countP_cons_of_pos, List.countP_eq_zero.mpr]
      · intro x hx
        rw [decide_eq_true_iff, toInt8_gt_iff, not_not]
        exact htail x hx
      · rw [decide_eq_true_iff, toInt8_gt_iff]
        omega

/-! ### Encoding -/

/-- The number is below the mask. -/
theorem and_mask_eq_zero_iff {word k j : ℕ} (h : word < 2 ^ (k + j)) :
    word &&& ((2 ^ j - 1) <<< k) = 0 ↔ word < 2 ^ k := by
  have hshift : word &&& ((2 ^ j - 1) <<< k) = ((word >>> k) &&& (2 ^ j - 1)) <<< k := by
    apply Nat.eq_of_testBit_eq
    intro i
    by_cases hi : k ≤ i
    · simp [Nat.testBit_shiftLeft, Nat.testBit_and, Nat.testBit_shiftRight, hi,
        Nat.add_sub_cancel' hi, Bool.and_comm]
    · simp [Nat.testBit_shiftLeft, Nat.testBit_and, hi]
  have hdiv : word / 2 ^ k < 2 ^ j := by
    rw [Nat.div_lt_iff_lt_mul (Nat.two_pow_pos k), ← pow_add, Nat.add_comm]
    exact h
  rw [hshift, Nat.and_two_pow_sub_one_eq_mod, Nat.shiftRight_eq_div_pow, Nat.mod_eq_of_lt hdiv,
    Nat.shiftLeft_eq, Nat.mul_eq_zero, Nat.div_eq_zero_iff]
  have := Nat.two_pow_pos k
  omega

theorem and_ascii_mask {word : ℕ} (h : word < 2 ^ 32) : word &&& 0xFFFFFF80 = 0 ↔ word < 0x80 :=
  and_mask_eq_zero_iff (k := 7) (j := 25) h

theorem continuation_byte (word k : ℕ) :
    toChar ((word / 2 ^ k &&& 0x3F) ||| 0x80) = toChar (0x80 + word / 2 ^ k % 64) := by
  have h : ∀ x < 64, x ||| 0x80 = 0x80 + x := by decide
  rw [show word / 2 ^ k &&& 0x3F = word / 2 ^ k % 64 from Nat.and_two_pow_sub_one_eq_mod _ 6,
    h _ (Nat.mod_lt _ (by decide))]

/-- **Writing one code point** is the encoding of a scalar value. -/
theorem writeCodePoint_eq (h : IsScalar c) : writeCodePoint c = some (encodeChar c) := by
  obtain ⟨htop, hsur⟩ := h
  have h11 : c &&& 0xFFFFF800 = 0 ↔ c < 0x800 :=
    and_mask_eq_zero_iff (k := 11) (j := 21) (by omega)
  have h16 : c &&& 0xFFFF0000 = 0 ↔ c < 0x10000 :=
    and_mask_eq_zero_iff (k := 16) (j := 16) (by omega)
  have hlast : toChar ((c &&& 0x3F) ||| 0x80) = toChar (0x80 + c % 64) := by
    have hlast := continuation_byte c 0
    rwa [pow_zero, Nat.div_one] at hlast
  have hC0 : ∀ x < 32, x ||| 0xC0 = 0xC0 + x := by decide
  have hE0 : ∀ x < 16, x ||| 0xE0 = 0xE0 + x := by decide
  have hF0 : ∀ x < 8, x ||| 0xF0 = 0xF0 + x := by decide
  simp only [writeCodePoint, encodeChar, and_ascii_mask (show c < 2 ^ 32 by omega), h11, h16, hlast,
    Nat.shiftRight_eq_div_pow, continuation_byte]
  split
  · rfl
  · split
    · rw [hC0 _ (by omega)]
    · split
      · rw [if_neg (by omega), hE0 _ (by omega)]
        rfl
      · rw [if_neg (by omega), hF0 _ (by omega)]
        rfl

/-- **The test on two characters** asks whether both are ASCII. -/
theorem asciiPair_iff {d : ℕ} (hc : c < 2 ^ 32) (hd : d < 2 ^ 32) :
    asciiPair o c d = true ↔ c < 0x80 ∧ d < 0x80 := by
  have hlt : ∀ x ∈ o.arrange [c, d], x < 2 ^ 32 := by
    intro x hx
    rcases List.mem_pair.mp (ByteOrder.mem_arrange.mp hx) with rfl | rfl
    · exact hc
    · exact hd
  have hmask : 0xFFFFFF80FFFFFF80 = pack 32 ((o.arrange [c, d]).map fun _ => 0xFFFFFF80) := by
    rw [List.map_const', ByteOrder.length_arrange]
    rfl
  have hpack := lanewise_and.pack_map (w := 32) (s := o.arrange [c, d]) (f := fun x => x) hlt
    (g := fun _ => 0xFFFFFF80) fun _ _ => by decide
  rw [List.map_id', ← hmask] at hpack
  rw [asciiPair, beq_iff_eq, hpack, pack_eq_zero_iff]
  simp only [List.mem_map, forall_exists_index, and_imp, forall_apply_eq_imp_iff₂,
    ByteOrder.mem_arrange]
  rw [List.forall_mem_cons, List.forall_mem_singleton, and_ascii_mask hc, and_ascii_mask hd]

theorem utf32ToUtf8Loop_eq {out : Bytes} (hs : ∀ c ∈ s, IsScalar c) :
    utf32ToUtf8Loop o s out = ((out ++ encodeUtf8 s).length, out ++ encodeUtf8 s) := by
  have h32 : ∀ c, IsScalar c → c < 2 ^ 32 := fun c hc => hc.1.trans_lt (by decide)
  induction s, out using utf32ToUtf8Loop.induct (o := o) with
  | case1 out => rw [utf32ToUtf8Loop, encodeUtf8_nil, List.append_nil]
  | case2 c out hnone =>
    rw [writeCodePoint_eq (hs c (List.mem_singleton_self c))] at hnone
    cases hnone
  | case3 c out bytes hsome =>
    rw [writeCodePoint_eq (hs c (List.mem_singleton_self c))] at hsome
    rw [utf32ToUtf8Loop, writeCodePoint_eq (hs c (List.mem_singleton_self c)), encodeUtf8_cons,
      encodeUtf8_nil, List.append_nil]
  | case4 c d data out hpair ih =>
    rw [List.forall_mem_cons, List.forall_mem_cons] at hs
    obtain ⟨hc, hd⟩ := (asciiPair_iff (h32 c hs.1) (h32 d hs.2.1)).mp hpair
    rw [utf32ToUtf8Loop, if_pos hpair, ih hs.2.2, encodeUtf8_cons, encodeUtf8_cons,
      encodeChar_of_lt hc, encodeChar_of_lt hd, List.append_assoc]
    rfl
  | case5 c d data out hpair hnone =>
    rw [writeCodePoint_eq (hs c List.mem_cons_self)] at hnone
    cases hnone
  | case6 c d data out hpair bytes hsome ih =>
    rw [List.forall_mem_cons] at hs
    rw [writeCodePoint_eq hs.1] at hsome
    rw [utf32ToUtf8Loop, if_neg hpair, writeCodePoint_eq hs.1]
    dsimp only
    rw [Option.some.injEq] at hsome
    rw [hsome, ih hs.2, encodeUtf8_cons c, hsome, List.append_assoc]

/-- **`utf32_to_utf8`** writes the encoding of a string of scalar values. -/
theorem utf32ToUtf8_eq (hs : ∀ c ∈ s, IsScalar c) :
    utf32ToUtf8 o s = ((encodeUtf8 s).length, encodeUtf8 s) :=
  utf32ToUtf8Loop_eq hs

theorem writeCodePoint_eq_none (h : c ≤ 0x10FFFF) (hc : ¬ IsScalar c) :
    writeCodePoint c = none := by
  have hsur : 0xD800 ≤ c ∧ c < 0xE000 := by
    by_contra hsur
    exact hc ⟨h, hsur⟩
  have h11 : c &&& 0xFFFFF800 = 0 ↔ c < 0x800 :=
    and_mask_eq_zero_iff (k := 11) (j := 21) (by omega)
  have h16 : c &&& 0xFFFF0000 = 0 ↔ c < 0x10000 :=
    and_mask_eq_zero_iff (k := 16) (j := 16) (by omega)
  rw [writeCodePoint, if_neg fun h => absurd ((and_ascii_mask (by omega)).mp h) (by omega),
    if_neg fun h => absurd (h11.mp h) (by omega), if_pos (h16.mpr (by omega)), if_pos (by omega)]

/-- A surrogate makes the conversion fail, wherever it stands. -/
theorem utf32ToUtf8Loop_eq_zero {out : Bytes} (hle : ∀ c ∈ s, c ≤ 0x10FFFF)
    (hs : ¬ ∀ c ∈ s, IsScalar c) : (utf32ToUtf8Loop o s out).1 = 0 := by
  induction s, out using utf32ToUtf8Loop.induct (o := o) with
  | case1 out => exact absurd (fun c hc => absurd hc List.not_mem_nil) hs
  | case2 c out hnone => rw [utf32ToUtf8Loop, hnone]
  | case3 c out bytes hsome =>
    rw [List.forall_mem_singleton] at hle hs
    rw [writeCodePoint_eq_none hle hs] at hsome
    cases hsome
  | case4 c d data out hpair ih =>
    rw [List.forall_mem_cons, List.forall_mem_cons] at hle
    rw [utf32ToUtf8Loop, if_pos hpair]
    refine ih hle.2.2 fun hdata => hs ?_
    -- the pair is ASCII, so the surrogate stands behind it
    obtain ⟨hc, hd⟩ := (asciiPair_iff (by omega) (by omega)).mp hpair
    exact List.forall_mem_cons.mpr ⟨⟨by omega, by omega⟩,
      List.forall_mem_cons.mpr ⟨⟨by omega, by omega⟩, hdata⟩⟩
  | case5 c d data out hpair hnone => rw [utf32ToUtf8Loop, if_neg hpair, hnone]
  | case6 c d data out hpair bytes hsome ih =>
    rw [List.forall_mem_cons] at hle
    rw [utf32ToUtf8Loop, if_neg hpair, hsome]
    refine ih hle.2 fun hdata => hs (List.forall_mem_cons.mpr ⟨?_, hdata⟩)
    by_contra hc
    rw [writeCodePoint_eq_none hle.1 hc] at hsome
    cases hsome

theorem utf8LengthFromUtf32_eq (s : U32String) :
    utf8LengthFromUtf32 s = (encodeUtf8 s).length := by
  have hchar : ∀ c n, n + 1 + (if 0x7F < c then 1 else 0) + (if 0x7FF < c then 1 else 0)
      + (if 0xFFFF < c then 1 else 0) = n + (encodeChar c).length := by
    intro c n
    rw [encodeChar]
    split_ifs <;> simp only [List.length_cons, List.length_nil] <;> omega
  suffices h : ∀ n, s.foldl (fun counter p =>
      counter + 1 + (if 0x7F < p then 1 else 0) + (if 0x7FF < p then 1 else 0)
        + (if 0xFFFF < p then 1 else 0)) n = n + (encodeUtf8 s).length by
    rw [utf8LengthFromUtf32, h, Nat.zero_add]
  induction s with
  | nil => exact fun n => rfl
  | cons c s ih =>
    intro n
    rw [List.foldl_cons, hchar, ih, encodeUtf8_cons, List.length_append, Nat.add_assoc]

end AdaIdna
