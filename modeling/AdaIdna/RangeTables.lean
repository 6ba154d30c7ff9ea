/-
AdaIdna/RangeTables.lean

Tables of ranges: how the generator builds them and how they are searched.

`build_ranges` of unicode_data_table.py merges the code points of a dictionary
into ranges of equal value (`buildRanges`).  `find_range` searches such a table
by the ends of the ranges, and `std::ranges::lower_bound` does so in
`is_label_valid` and in `valid_name_code_point` of identifier.cpp, which is
modelled here.

Main result: `range_lookup_exact`.
-/
import Mathlib.Data.List.AList
import Mathlib.Data.List.GetD
import AdaIdna.Validity
import AdaIdna.TableShape
import AdaIdna.Lib.RangeSearch

namespace AdaIdna

open RangeSearch

/-! ### Identifiers -/

def isAsciiLetter (c : ℕ) : Bool :=
  decide (0x41 ≤ c) && decide (c ≤ 0x5A) || decide (0x61 ≤ c) && decide (c ≤ 0x7A)

def isAsciiLetterOrDigit (c : ℕ) : Bool :=
  decide (0x41 ≤ c) && decide (c ≤ 0x5A) || decide (0x61 ≤ c) && decide (c ≤ 0x7A) ||
    decide (0x30 ≤ c) && decide (c ≤ 0x39)

/-- The tables of the code points in identifiers, each range with its first and
last code point; `none` is the null pointer. -/
structure IdTables where
  idStart : Option (ℕ → ℕ × ℕ)
  idStartCount : ℕ
  idContinue : Option (ℕ → ℕ × ℕ)
  idContinueCount : ℕ

def validNameCodePoint (T : Tables) (ids : IdTables) (codePoint : ℕ) (first : Bool) : Bool :=
  -- `$` and `_`
  if first && (codePoint == 0x24 || codePoint == 0x5F || isAsciiLetter codePoint) then true
  else if !first && (codePoint == 0x24 || isAsciiLetterOrDigit codePoint) then true
  else if 0x10FFFF < codePoint then false
  else if 0xD800 ≤ codePoint ∧ codePoint ≤ 0xDFFF then false
  else if !T.ensureTables then false
  else
    match ids.idStart, ids.idContinue with
    | some idStart, some idContinue =>
      let ranges := if first then idStart else idContinue
      let count := if first then ids.idStartCount else ids.idContinueCount
      let iter := lowerBound (fun i => (ranges i).2) count codePoint
      decide (iter ≠ count) && decide ((ranges iter).1 ≤ codePoint)
    | _, _ => false

namespace UnicodeDataTable

/-! ### Building -/

/-- One round of the loop of `build_ranges`; the ranges so far are given last
one first. -/
def addToRanges (value : ℕ) (cp : ℕ) : List (ℕ × ℕ × ℕ) → List (ℕ × ℕ × ℕ)
  | [] => [(cp, cp, value)]
  | (start, last, v) :: ranges =>
    if v = value ∧ last + 1 = cp then (start, cp, value) :: ranges
    else (cp, cp, value) :: (start, last, v) :: ranges

variable (values : AList fun _ : ℕ => ℕ)

/-- `values[cp]` -/
def valueOf (cp : ℕ) : ℕ := (values.lookup cp).getD 0

/-- `(first, last, value)` for each run of code points with equal values. -/
def buildRanges : List (ℕ × ℕ × ℕ) :=
  (values.keys.mergeSort.foldl (fun ranges cp => addToRanges (valueOf values cp) cp ranges)
    []).reverse

/-! ### The ranges of a dictionary -/

/-- The ranges, last one first, hold the code points with their values, and
are in order. -/
structure RangesOf (value : ℕ → ℕ) (points : List ℕ) (ranges : List (ℕ × ℕ × ℕ)) : Prop where
  mem_iff : ∀ c v, (∃ r ∈ ranges, r.1 ≤ c ∧ c ≤ r.2.1 ∧ r.2.2 = v) ↔ c ∈ points ∧ value c = v
  le : ∀ r ∈ ranges, r.1 ≤ r.2.1
  lt : ranges.Pairwise fun r r' => r'.2.1 < r.1

variable {value : ℕ → ℕ} {points : List ℕ} {ranges : List (ℕ × ℕ × ℕ)} {cp : ℕ}

theorem rangesOf_nil (value : ℕ → ℕ) : RangesOf value [] [] where
  mem_iff c v := by simp
  le := by simp
  lt := List.Pairwise.nil

/-- The last element of a range is one of the points. -/
theorem RangesOf.last_lt (h : RangesOf value points ranges) (hlt : ∀ c ∈ points, c < cp) :
    ∀ r ∈ ranges, r.2.1 < cp := by
  intro r hr
  exact hlt _ ((h.mem_iff r.2.1 r.2.2).mp ⟨r, hr, h.le r hr, le_rfl, rfl⟩).1

/-- The range of a single new point. -/
theorem RangesOf.push (h : RangesOf value points ranges) (hlt : ∀ c ∈ points, c < cp) :
    RangesOf value (points ++ [cp]) ((cp, cp, value cp) :: ranges) where
  mem_iff c v := by
    rw [List.exists_mem_cons_iff, h.mem_iff, List.mem_append, List.mem_singleton, or_and_right,
      or_comm]
    apply or_congr_right
    constructor
    · rintro ⟨hle, hge, hv⟩
      obtain rfl := le_antisymm hle hge
      exact ⟨rfl, hv⟩
    · rintro ⟨rfl, hv⟩
      exact ⟨le_rfl, le_rfl, hv⟩
  le := List.forall_mem_cons.mpr ⟨le_rfl, h.le⟩
  lt := List.pairwise_cons.mpr ⟨h.last_lt hlt, h.lt⟩

/-- The last range takes the next point in. -/
theorem RangesOf.extend {start last : ℕ}
    (h : RangesOf value points ((start, last, value (last + 1)) :: ranges)) :
    RangesOf value (points ++ [last + 1]) ((start, last + 1, value (last + 1)) :: ranges) where
  mem_iff c v := by
    have hmem := h.mem_iff c v
    have hle : start ≤ last := h.le _ List.mem_cons_self
    rw [List.exists_mem_cons_iff] at hmem ⊢
    rw [List.mem_append, List.mem_singleton, or_and_right, ← hmem]
    constructor
    · rintro (⟨hstart, hlast, hv⟩ | hr)
      · rcases hlast.eq_or_lt with rfl | hlt
        · exact Or.inr ⟨rfl, hv⟩
        · exact Or.inl (Or.inl ⟨hstart, Nat.le_of_lt_succ hlt, hv⟩)
      · exact Or.inl (Or.inr hr)
    · rintro ((⟨hstart, hlast, hv⟩ | hr) | ⟨rfl, hv⟩)
      · exact Or.inl ⟨hstart, hlast.trans (Nat.le_succ _), hv⟩
      · exact Or.inr hr
      · exact Or.inl ⟨hle.trans (Nat.le_succ _), le_rfl, hv⟩
  le := by
    have hle := h.le
    rw [List.forall_mem_cons] at hle ⊢
    exact ⟨hle.1.trans (Nat.le_succ _), hle.2⟩
  lt := by
    have hlt := h.lt
    rw [List.pairwise_cons] at hlt ⊢
    exact hlt

/-- **One round of the loop** takes in a point behind all others. -/
theorem RangesOf.add (h : RangesOf value points ranges) (hlt : ∀ c ∈ points, c < cp) :
    RangesOf value (points ++ [cp]) (addToRanges (value cp) cp ranges) := by
  cases ranges with
  | nil => exact h.push hlt
  | cons r ranges =>
    obtain ⟨start, last, v⟩ := r
    rw [addToRanges]
    split
    · rename_i heq
      obtain ⟨rfl, rfl⟩ := heq
      exact h.extend
    · exact h.push hlt

/-- **The loop** takes in the points of an ascending list. -/
theorem rangesOf_foldl (hsorted : points.Pairwise (· < ·)) :
    RangesOf value points
      (points.foldl (fun ranges cp => addToRanges (value cp) cp ranges) []) := by
  induction points using List.reverseRecOn with
  | nil => exact rangesOf_nil value
  | append_singleton points cp ih =>
    rw [List.pairwise_append] at hsorted
    rw [List.foldl_append]
    exact (ih hsorted.1).add fun c hc => hsorted.2.2 c hc cp (List.mem_singleton.mpr rfl)

theorem pairwise_mergeSort_keys : values.keys.mergeSort.Pairwise (· < ·) := by
  have hnodup : values.keys.mergeSort.Nodup :=
    (List.mergeSort_perm _ _).nodup_iff.mpr values.keys_nodup
  have hle : values.keys.mergeSort.Pairwise (· ≤ ·) := List.pairwise_mergeSort' (· ≤ ·) _
  exact (hle.and hnodup).imp fun h => lt_of_le_of_ne h.1 h.2

/-- **What `build_ranges` emits**: a code point lies in a range with a value
if the dictionary gives it that value. -/
theorem mem_buildRanges_iff (c v : ℕ) :
    (∃ r ∈ buildRanges values, r.1 ≤ c ∧ c ≤ r.2.1 ∧ r.2.2 = v) ↔ values.lookup c = some v := by
  have h : RangesOf (valueOf values) _ _ := rangesOf_foldl (pairwise_mergeSort_keys values)
  simp only [buildRanges, List.mem_reverse]
  rw [h.mem_iff, List.mem_mergeSort, ← AList.mem_keys, ← AList.lookup_isSome, valueOf]
  cases values.lookup c <;> simp

/-- The arrays of the starts, the ends and the values. -/
def rangeStart (ranges : List (ℕ × ℕ × ℕ)) (i : ℕ) : ℕ := (ranges.getD i (0, 0, 0)).1
def rangeFinal (ranges : List (ℕ × ℕ × ℕ)) (i : ℕ) : ℕ := (ranges.getD i (0, 0, 0)).2.1
def rangeValue (ranges : List (ℕ × ℕ × ℕ)) (i : ℕ) : ℕ := (ranges.getD i (0, 0, 0)).2.2

theorem separated_buildRanges :
    Separated (rangeStart (buildRanges values)) (rangeFinal (buildRanges values))
      (buildRanges values).length := by
  have h : RangesOf (valueOf values) _ _ := rangesOf_foldl (pairwise_mergeSort_keys values)
  have hget : ∀ i < (buildRanges values).length,
      (buildRanges values).getD i (0, 0, 0) ∈ buildRanges values := by
    intro i hi
    rw [List.getD_eq_getElem _ _ hi]
    exact List.getElem_mem hi
  constructor
  · intro i hi
    exact h.le _ (List.mem_reverse.mp (hget i hi))
  · intro i j hij hj
    have hlt : (buildRanges values).Pairwise fun r r' => r.2.1 < r'.1 :=
      List.pairwise_reverse.mpr h.lt
    rw [rangeFinal, rangeStart, List.getD_eq_getElem _ _ hj,
      List.getD_eq_getElem _ _ (hij.trans hj)]
    exact List.pairwise_iff_getElem.mp hlt i j _ hj hij

/-- A range of the list by its index. -/
theorem exists_range_iff {P : ℕ × ℕ × ℕ → Prop} (ranges : List (ℕ × ℕ × ℕ)) :
    (∃ i < ranges.length, P (rangeStart ranges i, rangeFinal ranges i, rangeValue ranges i)) ↔
      ∃ r ∈ ranges, P r := by
  constructor
  · rintro ⟨i, hi, h⟩
    refine ⟨ranges[i], List.getElem_mem hi, ?_⟩
    simpa only [rangeStart, rangeFinal, rangeValue, List.getD_eq_getElem _ _ hi] using h
  · rintro ⟨r, hr, h⟩
    obtain ⟨i, hi, rfl⟩ := List.getElem_of_mem hr
    refine ⟨i, hi, ?_⟩
    simpa only [rangeStart, rangeFinal, rangeValue, List.getD_eq_getElem _ _ hi] using h

end UnicodeDataTable

/-! ### Searching -/

section Search

variable {start last : ℕ → ℕ} {count c : ℕ}

theorem findRangeLoop_isFirst (hmono : MonotoneOn last (Set.Iio count)) {fuel lo hi : ℕ}
    (h : Bracket last count c lo hi) (hfuel : hi - lo ≤ fuel) :
    IsFirst last count c (findRangeLoop last c fuel lo hi) := by
  induction fuel generalizing lo hi with
  | zero => exact h.isFirst (Nat.sub_eq_zero_iff_le.mp (Nat.le_zero.mp hfuel))
  | succ fuel ih =>
    rw [findRangeLoop]
    by_cases hlt : lo < hi
    · have hmid : lo + (hi - lo) / 2 < hi := by omega
      rw [if_pos hlt]
      dsimp only
      split
      · rename_i hkey
        exact ih (h.right hmono hmid hkey) (by omega)
      · rename_i hkey
        exact ih (h.left hmono (Nat.le_add_right _ _) hmid (not_lt.mp hkey)) (by omega)
    · rw [if_neg hlt]
      exact h.isFirst (not_lt.mp hlt)

/-- The search of `find_range` ends at the first range that does not end in
front of the code point. -/
theorem isFirst_findRangeLoop (h : Separated start last count) (c : ℕ) :
    IsFirst last count c (findRangeLoop last c count 0 count) :=
  findRangeLoop_isFirst h.monotoneOn (bracket_whole last count c) (Nat.sub_le _ _)

/-- So does `std::ranges::lower_bound`. -/
theorem isFirst_lowerBound (h : Separated start last count) (c : ℕ) :
    IsFirst last count c (lowerBound last count c) where
  le_count := by
    have hle : lowerBound last count c ≤ (List.range count).length := List.findIdx_le_length
    rwa [List.length_range] at hle
  below j hj := by
    have hnot := List.not_of_lt_findIdx hj
    rw [List.getElem_range] at hnot
    simpa using hnot
  above j hj hle := by
    have hlt : (List.range count).findIdx (fun i => !decide (last i < c))
        < (List.range count).length := by
      rw [List.length_range]
      exact hle.trans_lt hj
    have hfound : c ≤ last ((List.range count).findIdx fun i => !decide (last i < c)) := by
      simpa using List.findIdx_getElem (w := hlt)
    exact hfound.trans (h.monotoneOn (hle.trans_lt hj) hj hle)

/-- **`find_range`** ends at the range that holds the code point, -/
theorem findRange_of_mem (h : Separated start last count) {i : ℕ} (hi : i < count)
    (hstart : start i ≤ c) (hlast : c ≤ last i) : findRange start last count c = i := by
  rw [findRange, h.eq_of_mem (isFirst_findRangeLoop h c) hi hstart hlast, if_pos ⟨hi, hstart⟩]

/-- and nowhere if there is none. -/
theorem findRange_of_not_mem (h : Separated start last count)
    (hnone : ¬ ∃ i < count, start i ≤ c ∧ c ≤ last i) : findRange start last count c = count := by
  rw [findRange, if_neg]
  rwa [h.isFirst_iff (isFirst_findRangeLoop h c)]

/-- **The lookup with `lower_bound`** decides membership in the union. -/
theorem lowerBound_lookup_iff (h : Separated start last count) (c : ℕ) :
    (decide (lowerBound last count c ≠ count) && decide (start (lowerBound last count c) ≤ c))
        = true ↔ ∃ i < count, start i ≤ c ∧ c ≤ last i := by
  have hfirst := isFirst_lowerBound h c
  rw [Bool.and_eq_true, decide_eq_true_eq, decide_eq_true_eq, ← h.isFirst_iff hfirst]
  exact and_congr_left fun _ => ⟨fun hne => lt_of_le_of_ne hfirst.le_count hne, LT.lt.ne⟩

end Search

open UnicodeDataTable

/-- `find_range` in the arrays of a list of ranges; `none` is the index behind
the last one. -/
def lookupRange (ranges : List (ℕ × ℕ × ℕ)) (codePoint : ℕ) : Option ℕ :=
  let i := findRange (rangeStart ranges) (rangeFinal ranges) ranges.length codePoint
  if i = ranges.length then none else some (rangeValue ranges i)

/-- **Searching what was built gives the dictionary back.** -/
theorem lookupRange_buildRanges (values : AList fun _ : ℕ => ℕ) (c : ℕ) :
    lookupRange (buildRanges values) c = values.lookup c := by
  have hsep := separated_buildRanges values
  rw [lookupRange]
  rcases hv : values.lookup c with - | v
  · -- no range holds the code point
    rw [findRange_of_not_mem hsep, if_pos rfl]
    rintro ⟨i, hi, hstart, hlast⟩
    have hvalue := (mem_buildRanges_iff values c (rangeValue (buildRanges values) i)).mp
      ((exists_range_iff _).mp ⟨i, hi, hstart, hlast, rfl⟩)
    rw [hv] at hvalue
    cases hvalue
  · obtain ⟨i, hi, hstart, hlast, rfl⟩ :=
      (exists_range_iff _).mpr ((mem_buildRanges_iff values c v).mpr hv)
    rw [findRange_of_mem hsep hi hstart hlast, if_neg hi.ne]

/-! ### The lookups are exact -/

/-- The ranges of a table with two elements each are in order and disjoint. -/
def InOrder (ranges : ℕ → ℕ × ℕ) (count : ℕ) : Prop :=
  Separated (fun i => (ranges i).1) (fun i => (ranges i).2) count

/-- The code point lies in one of the ranges. -/
def InUnion (ranges : ℕ → ℕ × ℕ) (count codePoint : ℕ) : Prop :=
  ∃ i < count, (ranges i).1 ≤ codePoint ∧ codePoint ≤ (ranges i).2

/-- What `valid_name_code_point` accepts without a table. -/
def IsAsciiName (codePoint : ℕ) (first : Bool) : Prop :=
  codePoint = 0x24 ∨ isAsciiLetter codePoint = true ∨
    if first then codePoint = 0x5F else 0x30 ≤ codePoint ∧ codePoint ≤ 0x39

theorem validNameCodePoint_of_ascii {T : Tables} {ids : IdTables} {c : ℕ} {first : Bool}
    (h : IsAsciiName c first) : validNameCodePoint T ids c first = true := by
  rw [validNameCodePoint]
  cases first with
  | true =>
    rw [if_pos]
    rcases h with rfl | h | rfl
    · rfl
    · simp [h]
    · rfl
  | false =>
    rw [if_neg (by simp), if_pos]
    rcases h with rfl | h | h
    · rfl
    · rw [isAsciiLetter] at h
      simp [isAsciiLetterOrDigit, h]
    · simp [isAsciiLetterOrDigit, h.1, h.2]

/-- **`valid_name_code_point`** looks a scalar value up in the table of its
position. -/
theorem validNameCodePoint_iff {T : Tables} {ids : IdTables} {idStart idContinue : ℕ → ℕ × ℕ}
    {c : ℕ} {first : Bool} (htables : T.ensureTables = true) (hs : ids.idStart = some idStart)
    (hc : ids.idContinue = some idContinue)
    (hsorted : InOrder (if first then idStart else idContinue)
      (if first then ids.idStartCount else ids.idContinueCount)) :
    validNameCodePoint T ids c first = true ↔ IsAsciiName c first ∨ IsScalar c ∧
      InUnion (if first then idStart else idContinue)
        (if first then ids.idStartCount else ids.idContinueCount) c := by
  by_cases hname : IsAsciiName c first
  · exact iff_of_true (validNameCodePoint_of_ascii hname) (Or.inl hname)
  · rw [or_iff_right hname, validNameCodePoint, if_neg, if_neg]
    · by_cases hscalar : IsScalar c
      · obtain ⟨hle, hsurrogate⟩ := hscalar
        rw [if_neg (not_lt.mpr hle), if_neg (by omega), htables, hs, hc,
          and_iff_right ⟨hle, hsurrogate⟩]
        exact lowerBound_lookup_iff hsorted c
      · refine iff_of_false ?_ fun h => hscalar h.1
        rw [IsScalar] at hscalar
        split
        · exact Bool.false_ne_true
        · rw [if_pos (by omega)]
          exact Bool.false_ne_true
    · -- neither shortcut is taken
      rintro h
      cases first with
      | true => simp at h
      | false =>
        apply hname
        simp only [isAsciiLetterOrDigit, Bool.not_false, Bool.true_and, Bool.or_eq_true,
          beq_iff_eq, Bool.and_eq_true, decide_eq_true_eq] at h
        simp only [IsAsciiName, isAsciiLetter, Bool.or_eq_true, Bool.and_eq_true,
          decide_eq_true_eq]
        rcases h with h | h | h
        · exact Or.inl h
        · exact Or.inr (Or.inl h)
        · exact Or.inr (Or.inr h)
    · rintro h
      cases first with
      | true =>
        apply hname
        simp only [Bool.true_and, Bool.or_eq_true, beq_iff_eq] at h
        rcases h with (h | h) | h
        · exact Or.inl h
        · exact Or.inr (Or.inr h)
        · exact Or.inr (Or.inl h)
      | false => simp at h

/-- **Range lookup is exact**: in the ranges that `build_ranges` emits, in the
table of combining marks and in those of identifiers. -/
theorem range_lookup_exact (T : Tables) :
    (∀ (values : AList fun _ : ℕ => ℕ) (c : ℕ),
        lookupRange (buildRanges values) c = values.lookup c) ∧
      (∀ (front : ℕ) (rest : U32String), InOrder T.combiningRanges T.combiningRangeCount →
        (startsWithMark T (front :: rest) = true ↔
          InUnion T.combiningRanges T.combiningRangeCount front)) ∧
      ∀ (ids : IdTables) (idStart idContinue : ℕ → ℕ × ℕ) (c : ℕ) (first : Bool),
        T.ensureTables = true → ids.idStart = some idStart → ids.idContinue = some idContinue →
        InOrder (if first then idStart else idContinue)
          (if first then ids.idStartCount else ids.idContinueCount) →
        (validNameCodePoint T ids c first = true ↔ IsAsciiName c first ∨ IsScalar c ∧
          InUnion (if first then idStart else idContinue)
            (if first then ids.idStartCount else ids.idContinueCount) c) := by
  refine ⟨lookupRange_buildRanges, ?_, ?_⟩
  · intro front rest hsorted
    exact lowerBound_lookup_iff hsorted front
  · intro ids idStart idContinue c first htables hs hc hsorted
    exact validNameCodePoint_iff htables hs hc hsorted

/-- Two ranges, the second one behind the first. -/
def twoRanges (r r' : ℕ × ℕ) (i : ℕ) : ℕ × ℕ := if i = 0 then r else r'

theorem inOrder_twoRanges {r r' : ℕ × ℕ} (hr : r.1 ≤ r.2) (hr' : r'.1 ≤ r'.2) (h : r.2 < r'.1) :
    InOrder (twoRanges r r') 2 := by
  constructor
  · intro i hi
    rw [twoRanges]
    split
    · exact hr
    · exact hr'
  · intro i j hij hj
    obtain rfl : i = 0 := by omega
    obtain rfl : j = 1 := by omega
    exact h

theorem inUnion_twoRanges {r r' : ℕ × ℕ} {c : ℕ} :
    InUnion (twoRanges r r') 2 c ↔ r.1 ≤ c ∧ c ≤ r.2 ∨ r'.1 ≤ c ∧ c ≤ r'.2 := by
  constructor
  · rintro ⟨i, hi, h⟩
    obtain rfl | rfl : i = 0 ∨ i = 1 := by omega
    · exact Or.inl h
    · exact Or.inr h
  · rintro (h | h)
    · exact ⟨0, Nat.zero_lt_two, h⟩
    · exact ⟨1, Nat.one_lt_two, h⟩

/-- The small tables with the marks of two scripts. -/
def markTables : Tables :=
  { smallTables with
    combiningRanges := twoRanges (0x300, 0x36F) (0x483, 0x489)
    combiningRangeCount := 2 }

/-- Two letters of one value in front of one of another value, two ranges of
marks, and `Ø` in the second range of a table; `×` is between the ranges. -/
theorem range_lookup_exact_two :
    (lookupRange (buildRanges (((AList.singleton 0x61 1).insert 0x62 1).insert 0x65 2)) 0x62
        = some 1 ∧
      lookupRange (buildRanges (((AList.singleton 0x61 1).insert 0x62 1).insert 0x65 2)) 0x65
        = some 2) ∧
      (startsWithMark markTables [0x485] = true ∧ startsWithMark markTables [0x370] = false) ∧
      validNameCodePoint markTables ⟨some (twoRanges (0xC0, 0xD6) (0xD8, 0xF6)), 2,
        some fun _ => (0, 0), 1⟩ 0xD8 true = true ∧
      validNameCodePoint markTables ⟨some (twoRanges (0xC0, 0xD6) (0xD8, 0xF6)), 2,
        some fun _ => (0, 0), 1⟩ 0xD7 true = false := by
  obtain ⟨hbuilt, hmark, hname⟩ := range_lookup_exact markTables
  have hmarks := fun c => (hmark c []
    (inOrder_twoRanges (by decide) (by decide) (by decide))).trans inUnion_twoRanges
  have hletters := fun c => (hname ⟨some (twoRanges (0xC0, 0xD6) (0xD8, 0xF6)), 2,
    some fun _ => (0, 0), 1⟩ _ _ c true rfl rfl rfl
    (inOrder_twoRanges (by decide) (by decide) (by decide))).trans
      (or_congr_right (and_congr_right fun _ => inUnion_twoRanges))
  refine ⟨⟨hbuilt _ _, hbuilt _ _⟩, ⟨(hmarks _).mpr (by decide), ?_⟩,
    (hletters _).mpr (Or.inr (by decide)), ?_⟩
  · rw [← Bool.not_eq_true, hmarks]
    decide
  · rw [← Bool.not_eq_true, hletters, IsAsciiName]
    decide

end AdaIdna
