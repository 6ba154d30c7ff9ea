/-
AdaIdna/Lib/RangeSearch.lean

Searching a table of ranges by their last elements.

The table is two functions of the index, `start` and `last`, below a count.
Its ranges are `Separated`: none is empty and each ends in front of the next
one.  A search for `c` by the last elements ends at the first range that does
not end in front of `c` (`IsFirst`), and a look at the start of that range
decides whether any range holds `c` (`Separated.isFirst_iff`).

`Bracket` is the invariant of a binary search for the first index: it holds of
the whole table, survives the choice of either half, and gives the index when
nothing is left.
-/
import Mathlib.Tactic

namespace RangeSearch

variable {α : Type*} [LinearOrder α]

/-! ### The first index -/

/-- `i` is the first index whose key is not below `c`, or the count. -/
structure IsFirst (key : ℕ → α) (count : ℕ) (c : α) (i : ℕ) : Prop where
  le_count : i ≤ count
  below : ∀ j < i, key j < c
  above : ∀ j < count, i ≤ j → c ≤ key j

/-- The first index is between `lo` and `hi`. -/
structure Bracket (key : ℕ → α) (count : ℕ) (c : α) (lo hi : ℕ) : Prop where
  le : lo ≤ hi
  le_count : hi ≤ count
  below : ∀ j < lo, key j < c
  above : ∀ j < count, hi ≤ j → c ≤ key j

variable {key : ℕ → α} {count : ℕ} {c : α} {lo hi i j mid : ℕ}

theorem bracket_whole (key : ℕ → α) (count : ℕ) (c : α) : Bracket key count c 0 count where
  le := Nat.zero_le _
  le_count := le_rfl
  below _ h := absurd h (Nat.not_lt_zero _)
  above _ h h' := absurd h (not_lt.mpr h')

/-- The half behind `mid`. -/
theorem Bracket.right (h : Bracket key count c lo hi) (hmono : MonotoneOn key (Set.Iio count))
    (hmid : mid < hi) (hlt : key mid < c) : Bracket key count c (mid + 1) hi where
  le := hmid
  le_count := h.le_count
  below j hj := by
    have hcount : mid < count := hmid.trans_le h.le_count
    have hle : j ≤ mid := Nat.le_of_lt_succ hj
    exact (hmono (hle.trans_lt hcount) hcount hle).trans_lt hlt
  above := h.above

/-- The half in front of `mid`. -/
theorem Bracket.left (h : Bracket key count c lo hi) (hmono : MonotoneOn key (Set.Iio count))
    (hlo : lo ≤ mid) (hmid : mid < hi) (hge : c ≤ key mid) : Bracket key count c lo mid where
  le := hlo
  le_count := hmid.le.trans h.le_count
  below := h.below
  above _ hj hle := hge.trans (hmono (hmid.trans_le h.le_count) hj hle)

/-- **Nothing is left.** -/
theorem Bracket.isFirst (h : Bracket key count c lo hi) (hle : hi ≤ lo) :
    IsFirst key count c lo where
  le_count := h.le.trans h.le_count
  below := h.below
  above j hj hlo := h.above j hj (hle.trans hlo)

/-! ### Ranges -/

/-- No range is empty and each ends in front of the next one. -/
structure Separated (start last : ℕ → α) (count : ℕ) : Prop where
  le : ∀ i < count, start i ≤ last i
  lt : ∀ i j, i < j → j < count → last i < start j

namespace Separated

variable {start last : ℕ → α}

theorem monotoneOn (h : Separated start last count) : MonotoneOn last (Set.Iio count) := by
  intro i _ j hj hij
  rcases hij.eq_or_lt with rfl | hlt
  · exact le_rfl
  · exact ((h.lt i j hlt hj).trans_le (h.le j hj)).le

/-- The range that holds `c` is the one that the search ends at. -/
theorem eq_of_mem (h : Separated start last count) (hi : IsFirst last count c i) (hj : j < count)
    (hstart : start j ≤ c) (hlast : c ≤ last j) : i = j := by
  have hle : i ≤ j := by
    by_contra hji
    exact absurd (hi.below j (not_le.mp hji)) (not_lt.mpr hlast)
  rcases hle.eq_or_lt with heq | hlt
  · exact heq
  · -- a range in front of it would end in front of `c`
    exfalso
    have habove : c ≤ last i := hi.above i (hlt.trans hj) le_rfl
    exact absurd (habove.trans_lt (h.lt i j hlt hj)) (not_lt.mpr hstart)

/-- **Membership in the union** is decided by the first range that does not
end in front of `c`. -/
theorem isFirst_iff (h : Separated start last count) (hi : IsFirst last count c i) :
    i < count ∧ start i ≤ c ↔ ∃ j < count, start j ≤ c ∧ c ≤ last j := by
  constructor
  · rintro ⟨hlt, hstart⟩
    exact ⟨i, hlt, hstart, hi.above i hlt le_rfl⟩
  · rintro ⟨j, hj, hstart, hlast⟩
    obtain rfl := h.eq_of_mem hi hj hstart hlast
    exact ⟨hj, hstart⟩

end Separated

end RangeSearch
