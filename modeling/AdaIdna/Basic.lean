/-
AdaIdna/Basic.lean

The strings the library works on, and the predicates on them that several
of its files share.

A `std::string` is a list of bytes.  A `std::u32string` is a list of natural
numbers: no function computes with a code point in a way that could leave 32
bits before a range check has been made, so the width of `char32_t` never
shows, and a statement about every list of numbers covers every string.
-/
import Mathlib.Tactic

namespace AdaIdna

/-- `std::string` and `std::string_view`. -/
abbrev Bytes := List UInt8

/-- `std::u32string` and `std::u32string_view`. -/
abbrev U32String := List ℕ

/-- A Unicode scalar value. -/
def IsScalar (c : ℕ) : Prop := c ≤ 0x10FFFF ∧ ¬ (0xD800 ≤ c ∧ c < 0xE000)

instance (c : ℕ) : Decidable (IsScalar c) := inferInstanceAs (Decidable (_ ∧ ¬ _))

/-- The cast of an ASCII code point to `char`. -/
def toChar (c : ℕ) : UInt8 := UInt8.ofNat c

/-- `is_ascii` on UTF-32. -/
def isAscii (view : U32String) : Bool := view.all (· < 0x80)

/-- `is_ascii` on bytes. -/
def isAsciiBytes (view : Bytes) : Bool := view.all (·.toNat < 0x80)

/-- The code points of `xn--`. -/
def acePrefix : U32String := [0x78, 0x6E, 0x2D, 0x2D]

/-- `is_ace_prefix`: the label begins with `xn--`. -/
def isAcePrefix (label : U32String) : Bool := acePrefix.isPrefixOf label

/-- The largest `int32_t`, written `0x7fffffff` in the source. -/
def int32Max : ℕ := 0x7fffffff

/-- U+002E, the label separator. -/
def dot : ℕ := 0x2E

theorem isAscii_iff {s : U32String} : isAscii s = true ↔ ∀ c ∈ s, c < 0x80 := by
  simp [isAscii]

theorem isAsciiBytes_iff {s : Bytes} : isAsciiBytes s = true ↔ ∀ c ∈ s, c.toNat < 0x80 := by
  simp [isAsciiBytes]

@[simp] theorem toNat_toChar {c : ℕ} (h : c < 0x100) : (toChar c).toNat = c := by
  simp [toChar]
  omega

@[simp] theorem toChar_toNat (c : UInt8) : toChar c.toNat = c := by
  simp [toChar]

theorem toChar_inj {c d : ℕ} (hc : c < 0x100) (hd : d < 0x100) (h : toChar c = toChar d) :
    c = d := by
  rw [← toNat_toChar hc, h, toNat_toChar hd]

theorem map_toNat_map_toChar {s : U32String} (h : ∀ c ∈ s, c < 0x80) :
    (s.map toChar).map UInt8.toNat = s := by
  rw [List.map_map]
  refine (List.map_congr_left fun c hc => ?_).trans s.map_id
  have := h c hc
  exact toNat_toChar (by omega)

theorem map_toChar_map_toNat (s : Bytes) : (s.map UInt8.toNat).map toChar = s := by
  simp [Function.comp_def]

theorem isAcePrefix_iff {label : U32String} :
    isAcePrefix label = true ↔ ∃ rest, label = acePrefix ++ rest := by
  rw [isAcePrefix, List.isPrefixOf_iff_prefix]
  exact ⟨fun ⟨rest, h⟩ => ⟨rest, h.symm⟩, fun ⟨rest, h⟩ => ⟨rest, h.symm⟩⟩

end AdaIdna
