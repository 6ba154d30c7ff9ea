/-
AdaIdna/ValidityTables.lean

The generated validity tables mean what the Unicode data says.

`build_validity` of unicode_data_table.py turns three dictionaries into tables
of ranges: the marks, the directions and the joining types.  The directions are
stored as numbers, which `enum direction` of validity.cpp has to count in the
same order as the list `BIDI_CLASSES`; the enumerators have the names of the
classes, so what is looked up can be compared with what the data says
(`Direction.name`).

`LabelRule` says when a label is valid in terms of the properties of its
characters, whatever they are stored in.

Main results: the lookups give the properties of the data
(`validity_tables_exact`), and `is_label_valid` decides the rule for these
properties (`isLabelValid_iff_labelRule`), as far as its `int` index reaches.
-/
import AdaIdna.RangeTables
import AdaIdna.BidiRule
import AdaIdna.ContextJ
import AdaIdna.UnicodeDataShape

namespace AdaIdna

/-- The name of an enumerator, which is that of a `Bidi_Class`. -/
def Direction.name : Direction → String
  | .none => "NONE"
  | .bn => "BN"
  | .cs => "CS"
  | .es => "ES"
  | .on => "ON"
  | .en => "EN"
  | .l => "L"
  | .r => "R"
  | .nsm => "NSM"
  | .al => "AL"
  | .an => "AN"
  | .et => "ET"
  | .ws => "WS"
  | .rlo => "RLO"
  | .lro => "LRO"
  | .pdf => "PDF"
  | .rle => "RLE"
  | .rli => "RLI"
  | .fsi => "FSI"
  | .pdi => "PDI"
  | .lri => "LRI"
  | .b => "B"
  | .s => "S"
  | .lre => "LRE"

def JoiningType.name : JoiningType → String
  | .u => "U"
  | .c => "C"
  | .d => "D"
  | .l => "L"
  | .r => "R"
  | .t => "T"

/-! ### When a label is valid -/

/-- The properties of characters that decide whether a label is valid. -/
structure CharacterProperties where
  mark : ℕ → Prop
  ccc : ℕ → ℕ
  joining : ℕ → JoiningType
  direction : ℕ → Direction

namespace CharacterProperties

variable (p : CharacterProperties) (label : U32String)

/-- The rules of RFC 5892, Appendix A.1 and A.2. -/
def ContextJ : Prop :=
  ∀ i c : ℕ, label[i]? = some c → IsJoiner c →
    (0 < i ∧ ∃ b, label[i - 1]? = some b ∧ p.ccc b = 9) ∨
      c = 0x200C ∧ ∃ j k a b : ℕ, j < i ∧ i < k ∧ label[j]? = some a ∧ label[k]? = some b ∧
        (p.joining a = .l ∨ p.joining a = .d) ∧ (p.joining b = .r ∨ p.joining b = .d) ∧
        ∀ m e : ℕ, j < m → m < k → m ≠ i → label[m]? = some e → p.joining e = .t

/-- The conditions on a label of a domain name: no mark comes first, joiners
stand where they may, there is something besides nonspacing marks, and a label
with a character that is written from right to left follows the Bidi rule. -/
structure LabelRule : Prop where
  front : ∀ c ∈ label.head?, ¬ p.mark c
  joiners : p.ContextJ label
  base : label ≠ [] → ∃ c ∈ label, p.direction c ≠ .nsm
  bidi : (∃ c ∈ label, (p.direction c).IsRtl) → BidiRule (label.map p.direction)

end CharacterProperties

/-- The properties as the tables have them. -/
def Tables.properties (T : Tables) : CharacterProperties where
  mark c := startsWithMark T [c] = true
  ccc := getCcc T
  joining := findJoiningType T
  direction := findDirection T

/-- The loop over the label checks every joiner. -/
theorem contextJ_iff {T : Tables} {label : U32String} :
    isContextjValid T label = true ↔ T.properties.ContextJ label := by
  rw [isContextjValid, isContextjValidFrom_iff]
  constructor
  · exact fun h i c hc => h i c (Nat.zero_le i) hc
  · exact fun h i c _ hc => h i c hc

/-- **`is_label_valid` decides the rule** for the properties in the tables, if
an `int` holds the indices of the label. -/
theorem isLabelValid_iff {T : Tables} (htables : T.ensureTables = true) {label : U32String}
    (hlen : label.length ≤ 2 ^ 31) :
    isLabelValid T label = true ↔ T.properties.LabelRule label := by
  cases label with
  | nil =>
    refine iff_of_true rfl ⟨nofun, fun i c hc => ?_, fun h => absurd rfl h, ?_⟩
    · simp at hc
    · rintro ⟨c, hc, -⟩
      cases hc
  | cons c rest =>
    have hmark : startsWithMark T (c :: rest) = startsWithMark T [c] := rfl
    have hbidi : checkBidi T (c :: rest) = true ↔
        (∃ e ∈ c :: rest, findDirection T e ≠ .nsm) ∧
          ((∃ e ∈ c :: rest, (findDirection T e).IsRtl) →
            BidiRule (directionsOf T (c :: rest))) := by
      by_cases hrtl : isRtlLabel T (c :: rest) = true
      · obtain ⟨_, hd, hd'⟩ := isRtlLabel_iff.mp hrtl
        obtain ⟨e, he, rfl⟩ := List.mem_map.mp hd
        have hnsm : findDirection T e ≠ .nsm := by
          intro heq
          rw [heq] at hd'
          revert hd'
          decide
        rw [checkBidi_eq hrtl, scanned_eq_self hlen, and_iff_right ⟨e, he, hnsm⟩]
        exact ⟨fun h _ => h, fun h => h ⟨e, he, hd'⟩⟩
      · have hnot : ¬ ∃ e ∈ c :: rest, (findDirection T e).IsRtl := by
          rintro ⟨e, he, hd⟩
          exact hrtl (isRtlLabel_iff.mpr ⟨_, List.mem_map_of_mem he, hd⟩)
        rw [and_iff_left fun h => absurd h hnot,
          checkBidi_of_not_isRtlLabel (Bool.eq_false_iff.mpr hrtl), scanned_eq_self hlen]
    rw [isLabelValid, hmark, htables]
    constructor
    · intro h
      simp only [List.isEmpty_cons, Bool.not_true, Bool.false_eq_true, if_false,
        Bool.not_eq_true'] at h
      split at h
      · cases h
      · rename_i hfront
        split at h
        · cases h
        · rename_i hjoin
          obtain ⟨hbase, hrule⟩ := hbidi.mp h
          rw [Bool.not_eq_false, contextJ_iff] at hjoin
          refine ⟨fun e he => ?_, hjoin, fun _ => hbase, hrule⟩
          obtain rfl := Option.some.inj he
          exact hfront
    · intro h
      have hfront : startsWithMark T [c] = false := Bool.eq_false_iff.mpr (h.front c rfl)
      have hjoin : isContextjValid T (c :: rest) = true :=
        contextJ_iff.mpr h.joiners
      simp only [List.isEmpty_cons, Bool.not_true, Bool.false_eq_true, if_false, hfront, hjoin]
      exact hbidi.mpr ⟨h.base (List.cons_ne_nil c rest), h.bidi⟩

namespace UnicodeDataTable

open RangeSearch

/-! ### The generator -/

/-- `UnicodeData`, with the fields that the validity tables are built from. -/
structure UnicodeFields extends UnicodeData where
  category : List (ℕ × String)
  bidi : List (ℕ × String)
  deriving DecidableEq

def combiningCategories : List String := ["Mn", "Mc", "Me"]

def bidiClasses : List String :=
  ["NONE", "BN", "CS", "ES", "ON", "EN", "L", "R", "NSM", "AL", "AN", "ET", "WS", "RLO", "LRO",
    "PDF", "RLE", "RLI", "FSI", "PDI", "LRI", "B", "S", "LRE"]

def joiningTypes : List String := ["U", "C", "D", "L", "R", "T"]

/-- The dictionary of some items. -/
def dictOf (items : List (ℕ × ℕ)) : AList fun _ : ℕ => ℕ :=
  (items.map fun e => (⟨e.1, e.2⟩ : Sigma fun _ : ℕ => ℕ)).toAList

/-- The items of `marks`. -/
def markItems (ucd : UnicodeFields) : List (ℕ × ℕ) :=
  ucd.category.filterMap fun e => if e.2 ∈ combiningCategories then some (e.1, 1) else none

/-- The items of the dictionary of directions. -/
def bidiItems (ucd : UnicodeFields) : List (ℕ × ℕ) :=
  ucd.bidi.map fun e => (e.1, bidiClasses.idxOf e.2)

/-- The sections that `build_validity` returns. -/
structure ValiditySections where
  combiningFlat : List ℕ
  dirStart : List ℕ
  dirFinal : List ℕ
  dirValue : List ℕ
  joiningStart : List ℕ
  joiningFinal : List ℕ
  joiningValue : List ℕ
  deriving DecidableEq

/-- `build_validity`; there may be no unknown `Bidi_Class`. -/
def buildValidity (ucd : UnicodeFields) (types : List (ℕ × ℕ)) : Option ValiditySections :=
  let combining := buildRanges (dictOf (markItems ucd))
  if ucd.bidi.any fun e => !bidiClasses.tail.contains e.2 then none
  else
    let directions := buildRanges (dictOf (bidiItems ucd))
    let joining := buildRanges (dictOf types)
    some
      { combiningFlat := combining.flatMap fun r => [r.1, r.2.1]
        dirStart := directions.map fun r => r.1
        dirFinal := directions.map fun r => r.2.1
        dirValue := directions.map fun r => r.2.2
        joiningStart := joining.map fun r => r.1
        joiningFinal := joining.map fun r => r.2.1
        joiningValue := joining.map fun r => r.2.2 }

/-! ### What the tables hold -/

/-- The arrays and constants of the table store are the generated ones. -/
structure HoldsValidity (D : TableData) (v : ValiditySections) : Prop where
  combiningRanges : ∀ i a b, v.combiningFlat[2 * i]? = some a →
    v.combiningFlat[2 * i + 1]? = some b → D.combiningRanges i = (a, b)
  combiningRangeCount : D.combiningRangeCount = v.combiningFlat.length / 2
  dirStart : ∀ i a, v.dirStart[i]? = some a → D.dirStart i = a
  dirFinal : ∀ i a, v.dirFinal[i]? = some a → D.dirFinal i = a
  dirValue : ∀ i a, v.dirValue[i]? = some a → D.dirValue i = a
  dirTableCount : D.dirTableCount = v.dirStart.length
  joiningStart : ∀ i a, v.joiningStart[i]? = some a → D.joiningStart i = a
  joiningFinal : ∀ i a, v.joiningFinal[i]? = some a → D.joiningFinal i = a
  joiningValue : ∀ i a, v.joiningValue[i]? = some a → D.joiningValue i = a
  joiningTableCount : D.joiningTableCount = v.joiningStart.length

variable {ucd : UnicodeFields} {types items : List (ℕ × ℕ)} {v : ValiditySections} {T : Tables}
  {c i count : ℕ} {values : AList fun _ : ℕ => ℕ} {start last value : ℕ → ℕ}
  {label : U32String}

theorem lookup_dictOf (items : List (ℕ × ℕ)) (c : ℕ) :
    (dictOf items).lookup c = items.lookup c := by
  rw [dictOf, AList.lookup_to_alist]
  induction items with
  | nil => rfl
  | cons e items ih =>
    obtain ⟨k, x⟩ := e
    by_cases hk : c = k
    · subst hk
      simp [List.dlookup_cons_eq]
    · rw [List.map_cons, List.dlookup_cons_ne _ _ (by exact hk), ih, List.lookup_cons,
        beq_false_of_ne hk]

/-- Two tables that agree on their entries are searched alike. -/
theorem findRangeLoop_congr {last' : ℕ → ℕ} (h : ∀ i < count, last i = last' i) {fuel lo hi : ℕ}
    (hhi : hi ≤ count) : findRangeLoop last c fuel lo hi = findRangeLoop last' c fuel lo hi := by
  induction fuel generalizing lo hi with
  | zero => rfl
  | succ fuel ih =>
    rw [findRangeLoop, findRangeLoop]
    split
    · rename_i hlt
      have hmid : lo + (hi - lo) / 2 < count := by omega
      dsimp only
      rw [h _ hmid, ih hhi, ih hmid.le]
    · rfl

/-- The arrays hold the ranges of a dictionary. -/
structure ReadsRanges (values : AList fun _ : ℕ => ℕ) (start last value : ℕ → ℕ) : Prop where
  start_eq : ∀ i a, ((buildRanges values).map fun r => r.1)[i]? = some a → start i = a
  last_eq : ∀ i a, ((buildRanges values).map fun r => r.2.1)[i]? = some a → last i = a
  value_eq : ∀ i a, ((buildRanges values).map fun r => r.2.2)[i]? = some a → value i = a

/-- What a list of ranges holds at an index. -/
theorem getElem?_map_ranges {β : Type} (f : ℕ × ℕ × ℕ → β) (ranges : List (ℕ × ℕ × ℕ))
    (hi : i < ranges.length) :
    (ranges.map f)[i]? = some (f (ranges.getD i (0, 0, 0))) := by
  rw [List.getElem?_map, List.getElem?_eq_getElem hi, List.getD_eq_getElem _ _ hi]
  rfl

theorem ReadsRanges.findRange_eq (h : ReadsRanges values start last value) (c : ℕ) :
    findRange start last (buildRanges values).length c
      = findRange (rangeStart (buildRanges values)) (rangeFinal (buildRanges values))
          (buildRanges values).length c := by
  have hstart : ∀ i < (buildRanges values).length, start i = rangeStart (buildRanges values) i :=
    fun i hi => h.start_eq i _ (getElem?_map_ranges _ _ hi)
  have hlast : ∀ i < (buildRanges values).length, last i = rangeFinal (buildRanges values) i :=
    fun i hi => h.last_eq i _ (getElem?_map_ranges _ _ hi)
  rw [findRange, findRange, findRangeLoop_congr hlast le_rfl]
  by_cases hlt : findRangeLoop (rangeFinal (buildRanges values)) c (buildRanges values).length 0
      (buildRanges values).length < (buildRanges values).length
  · rw [hstart _ hlt]
  · rw [if_neg fun hand => hlt hand.1, if_neg fun hand => hlt hand.1]

/-- **Searching arrays that hold the ranges of a dictionary** gives the
dictionary back. -/
theorem ReadsRanges.lookup (h : ReadsRanges values start last value) (c : ℕ) :
    (if findRange start last (buildRanges values).length c = (buildRanges values).length then none
      else some (value (findRange start last (buildRanges values).length c)))
      = values.lookup c := by
  rw [h.findRange_eq, ← lookupRange_buildRanges, lookupRange]
  split
  · rfl
  · rename_i hne
    have hlt : findRange (rangeStart (buildRanges values)) (rangeFinal (buildRanges values))
        (buildRanges values).length c < (buildRanges values).length := by
      rw [findRange] at hne ⊢
      split
      · rename_i hand
        exact hand.1
      · rename_i hand
        rw [if_neg hand] at hne
        exact absurd rfl hne
    rw [h.value_eq _ _ (getElem?_map_ranges _ _ hlt), rangeValue]

/-- What `build_validity` checks, and what it returns. -/
theorem of_buildValidity (h : buildValidity ucd types = some v) :
    (∀ e ∈ ucd.bidi, e.2 ∈ bidiClasses.tail) ∧
      v.combiningFlat = (buildRanges (dictOf (markItems ucd))).flatMap (fun r => [r.1, r.2.1]) ∧
      v.dirStart = (buildRanges (dictOf (bidiItems ucd))).map (fun r => r.1) ∧
      v.dirFinal = (buildRanges (dictOf (bidiItems ucd))).map (fun r => r.2.1) ∧
      v.dirValue = (buildRanges (dictOf (bidiItems ucd))).map (fun r => r.2.2) ∧
      v.joiningStart = (buildRanges (dictOf types)).map (fun r => r.1) ∧
      v.joiningFinal = (buildRanges (dictOf types)).map (fun r => r.2.1) ∧
      v.joiningValue = (buildRanges (dictOf types)).map (fun r => r.2.2) := by
  rw [buildValidity] at h
  dsimp only at h
  split at h
  · cases h
  · rename_i hknown
    cases h
    refine ⟨fun e he => ?_, rfl, rfl, rfl, rfl, rfl, rfl, rfl⟩
    simp only [List.any_eq_true, not_exists, not_and, Bool.not_eq_true,
      Bool.not_eq_false'] at hknown
    exact List.contains_iff_mem.mp (hknown e he)

/-! ### Directions -/

/-- The enumerators are counted as the classes are. -/
theorem map_name_directions : directions.map Direction.name = bidiClasses := rfl

theorem name_ofValue {s : String} (hs : s ∈ bidiClasses) :
    Direction.name (Direction.ofValue (bidiClasses.idxOf s)) = s := by
  have hlt : bidiClasses.idxOf s < directions.length :=
    lt_of_lt_of_eq (List.idxOf_lt_length_iff.mpr hs) rfl
  rw [Direction.ofValue, List.getD_eq_getElem _ _ hlt]
  have hget : (directions.map Direction.name)[bidiClasses.idxOf s]? = some s := by
    rw [map_name_directions]
    exact List.getElem?_idxOf hs
  rw [List.getElem?_map, List.getElem?_eq_getElem hlt] at hget
  exact Option.some.inj hget

/-- The `Bidi_Class` of a code point; unassigned ones have none. -/
def bidiClassOf (ucd : UnicodeFields) (c : ℕ) : String := (ucd.bidi.lookup c).getD "NONE"

theorem lookup_map_snd {β γ : Type} (l : List (ℕ × β)) (f : β → γ) (c : ℕ) :
    (l.map fun e => (e.1, f e.2)).lookup c = (l.lookup c).map f := by
  induction l with
  | nil => rfl
  | cons e l ih =>
    rw [List.map_cons, List.lookup_cons, List.lookup_cons, ih]
    split <;> rfl

theorem mem_of_lookup {β : Type} {l : List (ℕ × β)} {x : β} (h : l.lookup c = some x) :
    (c, x) ∈ l := by
  obtain ⟨l1, l2, hsplit, -⟩ := List.lookup_eq_some_iff.mp h
  rw [hsplit]
  exact List.mem_append_right _ List.mem_cons_self

theorem findDirection_eq (h : buildValidity ucd types = some v)
    (hT : HoldsValidity T.toTableData v) (c : ℕ) :
    (findDirection T c).name = bidiClassOf ucd c := by
  obtain ⟨hknown, -, hstart, hfinal, hvalue, -⟩ := of_buildValidity h
  have hreads : ReadsRanges (dictOf (bidiItems ucd)) T.dirStart T.dirFinal T.dirValue :=
    ⟨hstart ▸ hT.dirStart, hfinal ▸ hT.dirFinal, hvalue ▸ hT.dirValue⟩
  have hcount : T.dirTableCount = (buildRanges (dictOf (bidiItems ucd))).length := by
    rw [hT.dirTableCount, hstart, List.length_map]
  have hlookup := hreads.lookup c
  have hitems : (bidiItems ucd).lookup c
      = (ucd.bidi.lookup c).map fun s => bidiClasses.idxOf s :=
    lookup_map_snd ucd.bidi (fun s => bidiClasses.idxOf s) c
  rw [lookup_dictOf, hitems, ← hcount] at hlookup
  rw [findDirection, bidiClassOf]
  rcases hb : ucd.bidi.lookup c with - | s
  · rw [hb, Option.map_none] at hlookup
    split at hlookup
    · rename_i heq
      rw [if_pos heq]
      rfl
    · cases hlookup
  · rw [hb, Option.map_some] at hlookup
    split at hlookup
    · cases hlookup
    · rename_i hne
      rw [if_neg hne, Option.some.inj hlookup]
      exact name_ofValue (List.mem_of_mem_tail (hknown _ (mem_of_lookup hb)))

/-! ### Joining types and marks -/

theorem findJoiningType_eq (h : buildValidity ucd types = some v)
    (hT : HoldsValidity T.toTableData v) (c : ℕ) :
    findJoiningType T c = JoiningType.ofValue ((types.lookup c).getD 0) := by
  obtain ⟨-, -, -, -, -, hstart, hfinal, hvalue⟩ := of_buildValidity h
  have hreads : ReadsRanges (dictOf types) T.joiningStart T.joiningFinal T.joiningValue :=
    ⟨hstart ▸ hT.joiningStart, hfinal ▸ hT.joiningFinal, hvalue ▸ hT.joiningValue⟩
  have hcount : T.joiningTableCount = (buildRanges (dictOf types)).length := by
    rw [hT.joiningTableCount, hstart, List.length_map]
  have hlookup := hreads.lookup c
  rw [lookup_dictOf, ← hcount] at hlookup
  rw [findJoiningType, ← hlookup]
  split
  · rfl
  · rfl

/-- The code point is a mark. -/
def IsMark (ucd : UnicodeFields) (c : ℕ) : Prop :=
  ∃ gc, ucd.category.lookup c = some gc ∧ gc ∈ combiningCategories

theorem isMark_iff (hnodup : (ucd.category.map Prod.fst).Nodup) :
    (∃ x, (markItems ucd).lookup c = some x) ↔ IsMark ucd c := by
  constructor
  · rintro ⟨x, hx⟩
    obtain ⟨⟨k, gc⟩, he, heq⟩ := List.mem_filterMap.mp (mem_of_lookup hx)
    split at heq
    · rename_i hgc
      cases heq
      exact ⟨gc, (lookup_eq_some_iff hnodup).mpr he, hgc⟩
    · cases heq
  · rintro ⟨gc, hlookup, hgc⟩
    have hmem : (c, 1) ∈ markItems ucd :=
      List.mem_filterMap.mpr ⟨(c, gc), mem_of_lookup hlookup, if_pos hgc⟩
    rw [← Option.isSome_iff_exists, Option.isSome_iff_ne_none]
    intro hnone
    have hne := List.lookup_eq_none_iff.mp hnone (c, 1) hmem
    simp at hne

/-- The flattened ranges hold the two borders of each. -/
theorem getElem?_flatMap_pair (ranges : List (ℕ × ℕ × ℕ)) (i : ℕ) :
    (ranges.flatMap fun r => [r.1, r.2.1])[2 * i]? = ranges[i]?.map (fun r => r.1) ∧
      (ranges.flatMap fun r => [r.1, r.2.1])[2 * i + 1]? = ranges[i]?.map (fun r => r.2.1) := by
  have hpairs : (ranges.flatMap fun r => [r.1, r.2.1])
      = (ranges.map fun r => (r.1, r.2.1)).flatMap fun q => [q.1, q.2] := by
    rw [List.flatMap_map]
  obtain ⟨hfst, hsnd⟩ := getElem?_flatten_pairs (ranges.map fun r => (r.1, r.2.1)) i
  rw [hpairs, hfst, hsnd, List.getElem?_map, Option.map_map, Option.map_map]
  exact ⟨rfl, rfl⟩

theorem startsWithMark_iff (hnodup : (ucd.category.map Prod.fst).Nodup)
    (h : buildValidity ucd types = some v) (hT : HoldsValidity T.toTableData v) (c : ℕ)
    (rest : U32String) : startsWithMark T (c :: rest) = true ↔ IsMark ucd c := by
  obtain ⟨-, hflat, -⟩ := of_buildValidity h
  have hranges : ∀ i < (buildRanges (dictOf (markItems ucd))).length,
      T.combiningRanges i = (rangeStart (buildRanges (dictOf (markItems ucd))) i,
        rangeFinal (buildRanges (dictOf (markItems ucd))) i) := by
    intro i hi
    obtain ⟨hfst, hsnd⟩ := getElem?_flatMap_pair (buildRanges (dictOf (markItems ucd))) i
    rw [← hflat, List.getElem?_eq_getElem hi] at hfst hsnd
    rw [hT.combiningRanges i _ _ hfst hsnd, rangeStart, rangeFinal, List.getD_eq_getElem _ _ hi]
  have hcount : T.combiningRangeCount = (buildRanges (dictOf (markItems ucd))).length := by
    have hlen := length_flatten_pairs
      ((buildRanges (dictOf (markItems ucd))).map fun r => (r.1, r.2.1))
    rw [List.flatMap_map, List.length_map] at hlen
    rw [hT.combiningRangeCount, hflat, hlen, Nat.mul_div_cancel_left _ (by decide)]
  have hsep : Separated (fun i => (T.combiningRanges i).1) (fun i => (T.combiningRanges i).2)
      T.combiningRangeCount := by
    have hbuilt := separated_buildRanges (dictOf (markItems ucd))
    rw [hcount]
    constructor
    · intro i hi
      rw [hranges i hi]
      exact hbuilt.le i hi
    · intro i j hij hj
      rw [hranges i (hij.trans hj), hranges j hj]
      exact hbuilt.lt i j hij hj
  rw [startsWithMark, ← isMark_iff hnodup]
  apply (lowerBound_lookup_iff hsep c).trans
  simp only [← lookup_dictOf, ← mem_buildRanges_iff, hcount]
  constructor
  · rintro ⟨i, hi, hle⟩
    rw [hranges i hi] at hle
    obtain ⟨r, hr, hle⟩ := (exists_range_iff (P := fun r => r.1 ≤ c ∧ c ≤ r.2.1) _).mp ⟨i, hi, hle⟩
    exact ⟨r.2.2, r, hr, hle.1, hle.2, rfl⟩
  · rintro ⟨x, r, hr, hle, hge, -⟩
    obtain ⟨i, hi, hle⟩ :=
      (exists_range_iff (P := fun r => r.1 ≤ c ∧ c ≤ r.2.1) _).mpr ⟨r, hr, hle, hge⟩
    refine ⟨i, hi, ?_⟩
    rw [hranges i hi]
    exact hle

/-! ### The properties -/

/-- The direction with the name of a `Bidi_Class`. -/
def directionNamed (s : String) : Direction := (directions.find? fun d => d.name = s).getD .none

/-- The joining type with the name that the number of one stands for. -/
def joiningTypeAt (value : ℕ) : JoiningType :=
  ([JoiningType.u, .c, .d, .l, .r, .t].find? fun x => x.name = joiningTypes.getD value "U").getD .u

/-- The properties as the data has them. -/
def propertiesOf (ucd : UnicodeFields) (types : List (ℕ × ℕ)) : CharacterProperties where
  mark := IsMark ucd
  ccc := cccOf ucd.toUnicodeData
  joining c := joiningTypeAt ((types.lookup c).getD 0)
  direction c := directionNamed (bidiClassOf ucd c)

theorem directionNamed_name (d : Direction) : directionNamed d.name = d := by
  cases d <;> rfl

theorem joiningTypeAt_eq (value : ℕ) : joiningTypeAt value = JoiningType.ofValue value := by
  by_cases hlt : value < 6
  · interval_cases value <;> rfl
  · have hlen : joiningTypes.length ≤ value := by
      show 6 ≤ value
      omega
    have hlen' : [JoiningType.u, .c, .d, .l, .r, .t].length ≤ value := hlen
    rw [joiningTypeAt, JoiningType.ofValue, List.getD_eq_default _ _ hlen,
      List.getD_eq_default _ _ hlen']
    rfl

/-- The stored directions are those of the enumeration. -/
theorem dirValue_lt {D : TableData} (h : buildValidity ucd types = some v)
    (hD : HoldsValidity D v) : ∀ i < D.dirTableCount, D.dirValue i < 24 := by
  obtain ⟨hknown, -, hstart, -, hvalue, -⟩ := of_buildValidity h
  intro i hi
  rw [hD.dirTableCount, hstart, List.length_map] at hi
  have hget := getElem?_map_ranges (fun r => r.2.2) _ hi
  rw [← hvalue] at hget
  rw [hD.dirValue i _ hget]
  -- the value of a range is that of its first code point
  have hmem : (buildRanges (dictOf (bidiItems ucd))).getD i (0, 0, 0)
      ∈ buildRanges (dictOf (bidiItems ucd)) := by
    rw [List.getD_eq_getElem _ _ hi]
    exact List.getElem_mem hi
  have hle := (separated_buildRanges (dictOf (bidiItems ucd))).le i hi
  have hlookup := (mem_buildRanges_iff (dictOf (bidiItems ucd)) _ _).mp
    ⟨_, hmem, le_rfl, hle, rfl⟩
  rw [lookup_dictOf] at hlookup
  obtain ⟨⟨c, s⟩, he, heq⟩ := List.mem_map.mp (mem_of_lookup hlookup)
  rw [← (Prod.mk.inj heq).2]
  exact lt_of_lt_of_eq (List.idxOf_lt_length_iff.mpr (List.mem_of_mem_tail (hknown _ he))) rfl

theorem properties_eq {d p : Sections} {k : List ℕ × List ℕ}
    (hlt : ∀ e ∈ ucd.ccc, e.1 < codeSpace) (hk : buildCcc ucd.toUnicodeData = some k)
    (hN : Holds T.toTableData d k p) (hnodup : (ucd.category.map Prod.fst).Nodup)
    (h : buildValidity ucd types = some v) (hT : HoldsValidity T.toTableData v) :
    T.properties = propertiesOf ucd types := by
  rw [Tables.properties, propertiesOf, CharacterProperties.mk.injEq]
  refine ⟨?_, ?_, ?_, ?_⟩
  · funext c
    exact propext (startsWithMark_iff hnodup h hT c [])
  · funext c
    exact getCcc_eq_cccOf_of_lt hlt hk hN c
  · funext c
    rw [findJoiningType_eq h hT, joiningTypeAt_eq]
  · funext c
    rw [← findDirection_eq h hT, directionNamed_name]

/-! ### Main results -/

/-- **The generated validity tables mean what the Unicode data says**: a label
begins with a mark if the data has its first character in one of the three
categories of marks, the direction that is looked up has the name of the
`Bidi_Class`, and the joining type that of the `Joining_Type`. -/
theorem validity_tables_exact (hnodup : (ucd.category.map Prod.fst).Nodup)
    (h : buildValidity ucd types = some v) (hT : HoldsValidity T.toTableData v) (c : ℕ) :
    (∀ rest, startsWithMark T (c :: rest) = true ↔ IsMark ucd c) ∧
      (findDirection T c).name = bidiClassOf ucd c ∧
      (findJoiningType T c).name = joiningTypes.getD ((types.lookup c).getD 0) "U" := by
  refine ⟨startsWithMark_iff hnodup h hT c, findDirection_eq h hT c, ?_⟩
  rw [findJoiningType_eq h hT]
  generalize (types.lookup c).getD 0 = value
  by_cases hlt : value < 6
  · interval_cases value <;> rfl
  · have hlen : joiningTypes.length ≤ value := not_lt.mp hlt
    have hlen' : [JoiningType.u, .c, .d, .l, .r, .t].length ≤ value := not_lt.mp hlt
    rw [JoiningType.ofValue, List.getD_eq_default _ _ hlen, List.getD_eq_default _ _ hlen']
    rfl

/-- **`is_label_valid` decides the rule for the Unicode data**, over the tables
that are generated from it, for every label of at most 2^31 characters. -/
theorem isLabelValid_iff_labelRule {d p : Sections} {k : List ℕ × List ℕ}
    (htables : T.ensureTables = true) (hlt : ∀ e ∈ ucd.ccc, e.1 < codeSpace)
    (hk : buildCcc ucd.toUnicodeData = some k) (hN : Holds T.toTableData d k p)
    (hnodup : (ucd.category.map Prod.fst).Nodup) (h : buildValidity ucd types = some v)
    (hT : HoldsValidity T.toTableData v) {label : U32String} (hlen : label.length ≤ 2 ^ 31) :
    isLabelValid T label = true ↔ (propertiesOf ucd types).LabelRule label := by
  rw [isLabelValid_iff htables hlen, properties_eq hlt hk hN hnodup h hT]

/-! ### A small example -/

/-- Other tables with generated validity tables. -/
def withValidity (D : TableData) (v : ValiditySections) : TableData :=
  { D with
    combiningRanges := fun i => (v.combiningFlat.getD (2 * i) 0, v.combiningFlat.getD (2 * i + 1) 0)
    combiningRangeCount := v.combiningFlat.length / 2
    dirStart := (v.dirStart.getD · 0)
    dirFinal := (v.dirFinal.getD · 0)
    dirValue := (v.dirValue.getD · 0)
    dirTableCount := v.dirStart.length
    joiningStart := (v.joiningStart.getD · 0)
    joiningFinal := (v.joiningFinal.getD · 0)
    joiningValue := (v.joiningValue.getD · 0)
    joiningTableCount := v.joiningStart.length }

theorem holdsValidity_withValidity (D : TableData) (v : ValiditySections) :
    HoldsValidity (withValidity D v) v := by
  have hget : ∀ (l : List ℕ) i a, l[i]? = some a → l.getD i 0 = a :=
    fun _ _ _ h => Buffer.getD_of_getElem? h 0
  exact
    { combiningRanges := fun i a b ha hb => Prod.ext (hget _ _ _ ha) (hget _ _ _ hb)
      combiningRangeCount := rfl
      dirStart := hget _
      dirFinal := hget _
      dirValue := hget _
      dirTableCount := rfl
      joiningStart := hget _
      joiningFinal := hget _
      joiningValue := hget _
      joiningTableCount := rfl }

/-- The validity tables are apart from the normalization tables. -/
theorem Holds.withValidity {D : TableData} {d p : Sections} {k : List ℕ × List ℕ}
    (h : Holds D d k p) (v : ValiditySections) : Holds (withValidity D v) d k p :=
  ⟨h.decompositionIndex, h.decompositionBlock, h.decompositionData, h.decompositionDataSize,
    h.kDecompBlockRows, h.cccIndex, h.cccBlock, h.kCccBlockRows, h.compositionIndex,
    h.compositionBlock, h.compositionData, h.compositionDataSize, h.kCompBlockRows⟩

/-- A letter from left to right, a virama, a letter from right to left and an
acute accent. -/
def fewFields : UnicodeFields where
  ccc := [(0x301, 230), (0x94D, 9)]
  canonical := []
  compatibility := []
  category := [(0x61, "Ll"), (0x301, "Mn"), (0x5D0, "Lo"), (0x94D, "Mn")]
  bidi := [(0x61, "L"), (0x301, "NSM"), (0x5D0, "R"), (0x94D, "NSM")]

theorem exists_tables_fewFields :
    ∃ (d p : Sections) (k : List ℕ × List ℕ) (v : ValiditySections) (T : Tables),
      buildCcc fewFields.toUnicodeData = some k ∧
      buildValidity fewFields [(0x62A, 2)] = some v ∧ T.ensureTables = true ∧
      Holds T.toTableData d k p ∧ HoldsValidity T.toTableData v := by
  obtain ⟨d, _, p, hd, -, hp⟩ := exists_build_fewData
  obtain ⟨k, hk⟩ : ∃ k, buildCcc fewFields.toUnicodeData = some k := by
    apply exists_buildCcc {0x301, 0x94D}
    · intro cp hne
      by_contra hcp
      simp only [Finset.mem_insert, Finset.mem_singleton, not_or] at hcp
      apply hne
      rw [cccOf, List.lookup_eq_none_iff.mpr (by simp [fewFields, hcp])]
      rfl
    · decide
  obtain ⟨v, hv⟩ : ∃ v, buildValidity fewFields [(0x62A, 2)] = some v := by
    rw [buildValidity, if_neg (by decide)]
    exact ⟨_, rfl⟩
  have hN := (holds_withGenerated smallTables.toTableData d k p).withValidity v
  have hV := holdsValidity_withValidity (withGenerated smallTables.toTableData d k p) v
  obtain ⟨T, hT⟩ := exists_tables wellFormed_fewData distinctPairs_fewData hd hp hN
    smallTables.idnaLowRangeEnd_le smallTables.idnaHighIgnoredEnd_le (dirValue_lt hv hV)
  refine ⟨d, p, k, v, T, hk, hv, ?_, hT ▸ hN, hT ▸ hV⟩
  rw [hT]
  rfl

theorem validity_tables_exact_few :
    ∃ T : Tables, startsWithMark T [0x301] = true ∧ (findDirection T 0x5D0).name = "R" ∧
      (findDirection T 0x5EB).name = "NONE" ∧ (findJoiningType T 0x62A).name = "D" := by
  obtain ⟨d, p, k, v, T, -, hv, -, -, hV⟩ := exists_tables_fewFields
  have hexact := validity_tables_exact (by decide) hv hV
  exact ⟨T, ((hexact 0x301).1 []).mpr ⟨"Mn", rfl, by decide⟩, (hexact 0x5D0).2.1,
    (hexact 0x5EB).2.1, (hexact 0x62A).2.2⟩

/-- A label may not begin with an accent. -/
theorem isLabelValid_iff_labelRule_few :
    ∃ T : Tables, T.ensureTables = true ∧ isLabelValid T [0x301, 0x61] = false := by
  obtain ⟨d, p, k, v, T, hk, hv, htables, hN, hV⟩ := exists_tables_fewFields
  refine ⟨T, htables, Bool.eq_false_iff.mpr fun h => ?_⟩
  have hrule := (isLabelValid_iff_labelRule htables (by decide) hk hN (by decide) hv hV
    (by decide)).mp h
  exact hrule.front 0x301 rfl ⟨"Mn", rfl, by decide⟩

end UnicodeDataTable

end AdaIdna
