/-
AdaIdna/RangeText.lean

The files of ranges: `parse_composition_exclusions` and `parse_joining_types`
of unicode_data_table.py, and `parse_id_start_section` and
`parse_id_continue_section` of derived_table.py.

In all of them a line has a code point or a range `first..last`, perhaps a
value behind a semicolon, and perhaps a comment.  The sections of
DerivedCoreProperties.txt are found by the comments at their heads.  None of
them is read unless its first comment names the version of Unicode
(`getVersionedUcdFile`, `getDerivedTable`).

An exception is `none`.
-/
import AdaIdna.Lib.Dictionary
import AdaIdna.Lib.LineText
import AdaIdna.ValidityTables

namespace AdaIdna

namespace UnicodeDataTable

open Dictionary LineText TextScan

/-! ### The version -/

/-- `UNICODE_VERSION` -/
def unicodeVersion : List Char := "18.0.0".toList

def compositionExclusionsStem : List Char := "CompositionExclusions".toList
def derivedJoiningTypeStem : List Char := "DerivedJoiningType".toList

/-- `# {stem}-` -/
def versionMark (stem : List Char) : List Char := "# ".toList ++ (stem ++ ['-'])

/-- `get_versioned_ucd_file`, once the file is there; the version is `(\S+)` in
front of `\.txt`. -/
def getVersionedUcdFile (stem text : List Char) : Option (List Char) :=
  if search (behind (versionMark stem) (oneAsFarAs (fun c => !isSpace c) ".txt".toList)) text
      = some unicodeVersion then some text
  else none

/-! ### The readers -/

/-- `line.split("#", 1)[0].strip()` -/
def content (line : List Char) : List Char := strip (line.takeWhile (· ≠ '#'))

/-- `first, _, last = s.partition("..")`, and the two numbers that are read. -/
def readRange (s : List Char) : Option (ℕ × ℕ) := do
  let first ← parseInt 16 (partition ['.', '.'] s).1
  let last ← parseInt 16
    (if (partition ['.', '.'] s).2 = [] then (partition ['.', '.'] s).1
      else (partition ['.', '.'] s).2)
  some (first, last)

def exclusionStep (excluded : Finset ℕ) (line : List Char) : Option (Finset ℕ) :=
  if content line = [] then some excluded
  else (readRange (content line)).map fun r => excluded ∪ Finset.Icc r.1 r.2

/-- `parse_composition_exclusions` -/
def parseCompositionExclusions (text : List Char) : Option (Finset ℕ) :=
  (splitlines text).foldlM exclusionStep ∅

def joiningStep (types : List (ℕ × ℕ)) (line : List Char) : Option (List (ℕ × ℕ)) :=
  if content line = [] then some types
  else
    let codePoints := strip (partition [';'] (content line)).1
    let value := String.ofList (strip (partition [';'] (content line)).2)
    -- `raise SystemExit` for an unknown value
    if value ∉ joiningTypes then none
    else if value = "U" then some types
    else (readRange codePoints).map fun r =>
      (closedRange r.1 r.2).foldl
        (fun types cp => setItem types cp (joiningTypes.idxOf value)) types

/-- `parse_joining_types` -/
def parseJoiningTypes (text : List Char) : Option (List (ℕ × ℕ)) :=
  (splitlines text).foldlM joiningStep []

variable {line s t text : List Char} {ls : List (List Char)} {n n' : ℕ} {ranges : List (ℕ × ℕ)}

theorem getVersionedUcdFile_of_marked {stem : List Char}
    (h : Marked (versionMark stem) unicodeVersion ".txt".toList text) :
    getVersionedUcdFile stem text = some text := by
  rw [getVersionedUcdFile, if_pos]
  refine h.search_eq fun post hpost =>
    oneAsFarAs_append (by decide) (List.all_eq_true.mp rfl) (by decide) ?_
  intro c hc
  rw [hpost c hc]
  decide

/-! ### What is spelled is read -/

/-- A line with `t`, blanks around it, and perhaps a comment behind. -/
structure HasContent (t line : List Char) : Prop where
  isLine : IsLine line
  trimmed : Trimmed t
  cut : ∃ field, Around t field ∧ '#' ∉ field ∧
    (line = field ∨ ∃ comment, line = field ++ '#' :: comment)

theorem HasContent.content_eq (h : HasContent t line) : content line = t := by
  obtain ⟨field, haround, hnot, hline⟩ := h.cut
  have hne : ∀ c ∈ field, decide (c ≠ '#') = true := by
    intro c hc
    rw [decide_eq_true_eq]
    rintro rfl
    exact hnot hc
  have htake : line.takeWhile (· ≠ '#') = field := by
    rcases hline with rfl | ⟨comment, rfl⟩
    · exact List.takeWhile_eq_self_iff.mpr hne
    · rw [List.takeWhile_append_of_pos hne, List.takeWhile_cons_of_neg (by simp), List.append_nil]
  rw [content, htake, strip_of_around haround h.trimmed]

theorem readRange_of_spells (h : SpellsRange 16 t n n') : readRange t = some (n, n') := by
  obtain ⟨hfirst, hlast⟩ := partition_of_spellsRange h
  rw [readRange, hfirst, hlast]
  rfl

/-- The lines that spell some ranges. -/
inductive SpellsRanges : List (List Char) → List (ℕ × ℕ) → Prop
  | nil : SpellsRanges [] []
  | blank {line : List Char} {ls : List (List Char)} {rs : List (ℕ × ℕ)}
      (hline : HasContent [] line) (h : SpellsRanges ls rs) : SpellsRanges (line :: ls) rs
  | range {t line : List Char} {n n' : ℕ} {ls : List (List Char)} {rs : List (ℕ × ℕ)}
      (hline : HasContent t line) (ht : SpellsRange 16 t n n') (h : SpellsRanges ls rs) :
      SpellsRanges (line :: ls) ((n, n') :: rs)

/-- The numbers in some ranges. -/
def unionOf (rs : List (ℕ × ℕ)) : Finset ℕ := rs.toFinset.biUnion fun r => Finset.Icc r.1 r.2

theorem foldlM_exclusionStep (h : SpellsRanges ls ranges) (excluded : Finset ℕ) :
    ls.foldlM exclusionStep excluded = some (excluded ∪ unionOf ranges) := by
  induction h generalizing excluded with
  | nil =>
    show some excluded = some (excluded ∪ ∅)
    rw [Finset.union_empty]
  | blank hline _ ih =>
    rw [List.foldlM_cons, exclusionStep, hline.content_eq, if_pos rfl]
    exact ih excluded
  | @range t line n n' ls rs hline ht _ ih =>
    rw [List.foldlM_cons, exclusionStep, hline.content_eq, if_neg ht.isWord.1,
      readRange_of_spells ht]
    show ls.foldlM exclusionStep (excluded ∪ Finset.Icc n n') = _
    rw [ih, unionOf, unionOf, List.toFinset_cons, Finset.biUnion_insert, Finset.union_assoc]

theorem SpellsRanges.isLine (h : SpellsRanges ls ranges) : ∀ l ∈ ls, IsLine l := by
  induction h with
  | nil => exact fun l hl => absurd hl List.not_mem_nil
  | blank hline _ ih => exact List.forall_mem_cons.mpr ⟨hline.isLine, ih⟩
  | range hline _ _ ih => exact List.forall_mem_cons.mpr ⟨hline.isLine, ih⟩

/-- **CompositionExclusions.txt**: the exclusions are what the ranges cover. -/
theorem parseCompositionExclusions_unlines (h : SpellsRanges ls ranges) :
    parseCompositionExclusions (unlines ls) = some (unionOf ranges) := by
  rw [parseCompositionExclusions, splitlines_unlines h.isLine, foldlM_exclusionStep h,
    Finset.empty_union]

/-- What DerivedJoiningType.txt says of a range. -/
structure JoiningRow where
  first : ℕ
  last : ℕ
  value : String

/-- The range, a semicolon and the value. -/
def SpellsJoiningRow (t : List Char) (r : JoiningRow) : Prop :=
  ∃ codes codeField valueField, t = codeField ++ ';' :: valueField ∧ ';' ∉ codeField ∧
    Around codes codeField ∧ SpellsRange 16 codes r.first r.last ∧
    Around r.value.toList valueField ∧ r.value ∈ joiningTypes

/-- The lines that spell some rows. -/
inductive SpellsJoining : List (List Char) → List JoiningRow → Prop
  | nil : SpellsJoining [] []
  | blank {line : List Char} {ls : List (List Char)} {rows : List JoiningRow}
      (hline : HasContent [] line) (h : SpellsJoining ls rows) : SpellsJoining (line :: ls) rows
  | row {t line : List Char} {r : JoiningRow} {ls : List (List Char)} {rows : List JoiningRow}
      (hline : HasContent t line) (ht : SpellsJoiningRow t r) (h : SpellsJoining ls rows) :
      SpellsJoining (line :: ls) (r :: rows)

/-- The items of a row; `U` has none. -/
def JoiningRow.items (r : JoiningRow) : List (ℕ × ℕ) :=
  if r.value = "U" then [] else (closedRange r.first r.last).map (·, joiningTypes.idxOf r.value)

/-- No code point is in two rows. -/
def DisjointRows (rows : List JoiningRow) : Prop :=
  rows.Pairwise fun r r' => r.last < r'.first ∨ r'.last < r.first

theorem joiningStep_of_spells {line : List Char} {r : JoiningRow} (hline : HasContent t line)
    (ht : SpellsJoiningRow t r) (types : List (ℕ × ℕ)) :
    joiningStep types line = some (if r.value = "U" then types
      else (closedRange r.first r.last).foldl
        (fun types cp => setItem types cp (joiningTypes.idxOf r.value)) types) := by
  obtain ⟨codes, codeField, valueField, rfl, hnot, hcodeField, hcodes, hvalueField, hvalue⟩ := ht
  have hvalues : ∀ v ∈ joiningTypes, IsWord v.toList := by decide
  have hword : IsWord r.value.toList := hvalues r.value hvalue
  have hpart : partition [';'] (codeField ++ ';' :: valueField) = (codeField, valueField) :=
    partition_append hnot [] valueField
  rw [joiningStep, hline.content_eq, if_neg (by simp), hpart]
  dsimp only
  rw [strip_of_around hvalueField hword.trimmed, String.ofList_toList,
    strip_of_around hcodeField hcodes.isWord.trimmed, if_neg (not_not_intro hvalue),
    readRange_of_spells hcodes]
  split
  · rfl
  · rfl

/-- Code points that have not come yet are appended. -/
theorem foldlM_joiningStep {rows done : List JoiningRow} (h : SpellsJoining ls rows)
    (hd : DisjointRows (done ++ rows)) :
    ls.foldlM joiningStep (done.flatMap JoiningRow.items)
      = some ((done ++ rows).flatMap JoiningRow.items) := by
  induction h generalizing done with
  | nil => rw [List.append_nil]; rfl
  | blank hline _ ih =>
    rw [List.foldlM_cons, joiningStep, hline.content_eq, if_pos rfl]
    exact ih hd
  | @row t line r ls rows hline ht _ ih =>
    have hnew : ∀ c ∈ closedRange r.first r.last,
        c ∉ (done.flatMap JoiningRow.items).map Prod.fst := by
      intro c hc hmem
      obtain ⟨e, he, rfl⟩ := List.mem_map.mp hmem
      obtain ⟨r', hr', he⟩ := List.mem_flatMap.mp he
      rw [JoiningRow.items] at he
      split at he
      · cases he
      · obtain ⟨d, hd', rfl⟩ := List.mem_map.mp he
        have hdisjoint := (List.pairwise_append.mp hd).2.2 r' hr' r List.mem_cons_self
        rw [mem_closedRange] at hc hd'
        simp only at hc
        omega
    have hstep : joiningStep (done.flatMap JoiningRow.items) line
        = some ((done ++ [r]).flatMap JoiningRow.items) := by
      rw [joiningStep_of_spells hline ht, List.flatMap_append, List.flatMap_singleton,
        JoiningRow.items]
      split
      · rw [List.append_nil]
      · rw [foldl_setItem (nodup_closedRange _ _) hnew]
    have hrun := ih (List.append_cons done r rows ▸ hd)
    rw [List.foldlM_cons, hstep]
    rwa [← List.append_cons] at hrun

theorem SpellsJoining.isLine {rows : List JoiningRow} (h : SpellsJoining ls rows) :
    ∀ l ∈ ls, IsLine l := by
  induction h with
  | nil => exact fun l hl => absurd hl List.not_mem_nil
  | blank hline _ ih => exact List.forall_mem_cons.mpr ⟨hline.isLine, ih⟩
  | row hline _ _ ih => exact List.forall_mem_cons.mpr ⟨hline.isLine, ih⟩

/-- **DerivedJoiningType.txt** -/
theorem parseJoiningTypes_unlines {rows : List JoiningRow} (h : SpellsJoining ls rows)
    (hd : DisjointRows rows) :
    parseJoiningTypes (unlines ls) = some (rows.flatMap JoiningRow.items) := by
  rw [parseJoiningTypes, splitlines_unlines h.isLine]
  have hd' : DisjointRows ([] ++ rows) := hd
  exact foldlM_joiningStep h hd'

/-! ### Small files -/

theorem hasContent_of_isWord {w : List Char} (hw : IsWord w) (hnot : '#' ∉ w) (hline : IsLine w) :
    HasContent w w where
  isLine := hline
  trimmed := hw.trimmed
  cut := ⟨w, ⟨[], [], by decide, by decide, by simp⟩, hnot, .inl rfl⟩

theorem hasContent_comment {comment : List Char} (hline : IsLine ('#' :: comment)) :
    HasContent [] ('#' :: comment) :=
  ⟨hline, trimmed_nil, [], ⟨[], [], by decide, by decide, rfl⟩, List.not_mem_nil,
    .inr ⟨comment, rfl⟩⟩

def fewExclusions : List (List Char) :=
  ["# CompositionExclusions-18.0.0.txt".toList, "0958".toList, "095A..095C".toList]

theorem spells_fewExclusions : SpellsRanges fewExclusions [(0x958, 0x958), (0x95A, 0x95C)] := by
  have hcomment : HasContent [] "# CompositionExclusions-18.0.0.txt".toList :=
    hasContent_comment (by decide)
  have hrange : SpellsRange 16 "095A..095C".toList 0x95A 0x95C :=
    .range (by decide : Numeral 16 "095A".toList 0x95A) (by decide : Numeral 16 "095C".toList 0x95C)
  exact .blank hcomment
    (.range (hasContent_of_isWord (by decide) (by decide) (by decide)) (.single (by decide))
      (.range (hasContent_of_isWord hrange.isWord (by decide) (by decide)) hrange .nil))

theorem marked_fewExclusions :
    Marked (versionMark compositionExclusionsStem) unicodeVersion ".txt".toList
      (unlines fewExclusions) :=
  ⟨[], '\n' :: unlines (fewExclusions.drop 1), rfl, by decide, by simp⟩

def fewJoining : List JoiningRow := [⟨0x640, 0x640, "C"⟩, ⟨0x301, 0x304, "T"⟩, ⟨0x41, 0x42, "U"⟩]

def fewJoiningLines : List (List Char) :=
  ["# DerivedJoiningType-18.0.0.txt".toList, "0640;C".toList, "0301..0304;T".toList,
    "0041..0042;U".toList]

theorem disjointRows_fewJoining : DisjointRows fewJoining := by
  unfold DisjointRows
  decide

theorem spells_fewJoiningLines : SpellsJoining fewJoiningLines fewJoining := by
  have haround : ∀ t : List Char, Around t t := fun t => ⟨[], [], by decide, by decide, by simp⟩
  have h0 : SpellsJoiningRow "0640;C".toList ⟨0x640, 0x640, "C"⟩ :=
    ⟨"0640".toList, "0640".toList, "C".toList, rfl, by decide, haround _, .single (by decide),
      haround _, by decide⟩
  have h1 : SpellsJoiningRow "0301..0304;T".toList ⟨0x301, 0x304, "T"⟩ :=
    ⟨"0301..0304".toList, "0301..0304".toList, "T".toList, rfl, by decide, haround _,
      .range (by decide : Numeral 16 "0301".toList 0x301)
        (by decide : Numeral 16 "0304".toList 0x304), haround _, by decide⟩
  have h2 : SpellsJoiningRow "0041..0042;U".toList ⟨0x41, 0x42, "U"⟩ :=
    ⟨"0041..0042".toList, "0041..0042".toList, "U".toList, rfl, by decide, haround _,
      .range (by decide : Numeral 16 "0041".toList 0x41)
        (by decide : Numeral 16 "0042".toList 0x42), haround _, by decide⟩
  exact .blank (hasContent_comment (by decide))
    (.row (hasContent_of_isWord (by decide) (by decide) (by decide)) h0
      (.row (hasContent_of_isWord (by decide) (by decide) (by decide)) h1
        (.row (hasContent_of_isWord (by decide) (by decide) (by decide)) h2 .nil)))

theorem marked_fewJoiningLines :
    Marked (versionMark derivedJoiningTypeStem) unicodeVersion ".txt".toList
      (unlines fewJoiningLines) :=
  ⟨[], '\n' :: unlines (fewJoiningLines.drop 1), rfl, by decide, by simp⟩

end UnicodeDataTable

namespace DerivedTable

open LineText TextScan

/-! ### The version -/

/-- `UNICODE_VERSION` -/
def unicodeVersion : List Char := "18.0.0".toList

def versionMark : List Char := "# DerivedCoreProperties-".toList

/-- `get_version`; the version is `(.*)` in front of `\.txt`. -/
def getVersion (tableData : List Char) : Option (List Char) :=
  search (behind versionMark (asFarAs (· ≠ '\n') ".txt".toList)) tableData

/-- `get_derived_table`, once the file is there. -/
def getDerivedTable (tableData : List Char) : Option (List Char) :=
  if getVersion tableData = some unicodeVersion then some tableData else none

/-! ### The readers -/

/-- The range of a line of a section, if it has one or two numbers; a line
with more of them is warned of and passed over. -/
def readParts : List (List Char) → Option (List (ℕ × ℕ))
  | [s] => (parseInt 16 s).map fun v => [(v, v)]
  | [s, t] => do
    let startValue ← parseInt 16 s
    let endValue ← parseInt 16 t
    some [(startValue, endValue)]
  | _ => some []

/-- `for line in section` -/
def readLine (line : List Char) : Option (List (ℕ × ℕ)) :=
  let line := strip line
  if line = [] ∨ line.head? = some '#' then some []
  else readParts (splitText ['.', '.'] (strip (line.takeWhile (· ≠ ';'))))

/-- `pattern.search(text)`, for a fixed text: where the match begins. -/
def searchFor (pattern text : List Char) : Option ℕ := (upTo pattern text).map fun r => r.1.length

/-- The ranges between the first places of two patterns. -/
def parseSection (startPattern endPattern text : List Char) : Option (List (ℕ × ℕ)) := do
  let start ← searchFor startPattern text
  let stop ← searchFor endPattern text
  readLines readLine
    ((strip ((text.take stop).drop (start + startPattern.length))).splitOn '\n')

def idStartPattern : List Char := "# Derived Property: ID_Start".toList
def idContinuePattern : List Char := "# Derived Property: ID_Continue".toList
def xidStartPattern : List Char := "# Derived Property: XID_Start".toList

/-- `parse_id_start_section` -/
def parseIdStartSection (text : List Char) : Option (List (ℕ × ℕ)) :=
  parseSection idStartPattern idContinuePattern text

/-- `parse_id_continue_section` -/
def parseIdContinueSection (text : List Char) : Option (List (ℕ × ℕ)) :=
  parseSection idContinuePattern xidStartPattern text

variable {line t text body : List Char} {ls : List (List Char)} {n n' : ℕ}
  {ranges : List (ℕ × ℕ)}

/-! ### What is spelled is read -/

/-- A blank line, or a comment. -/
def IsSkipped (line : List Char) : Prop :=
  IsBlank line ∨ ∃ a comment, IsBlank a ∧ line = a ++ '#' :: comment

/-- The line of a range; what stands behind the semicolon is not read. -/
def SpellsLine (line : List Char) (r : ℕ × ℕ) : Prop :=
  ∃ t field, SpellsRange 16 t r.1 r.2 ∧ Around t field ∧
    (line = field ∨ ∃ rest, line = field ++ ';' :: rest)

/-- The lines that spell some ranges. -/
inductive SpellsSection : List (List Char) → List (ℕ × ℕ) → Prop
  | nil : SpellsSection [] []
  | skipped {line : List Char} {ls : List (List Char)} {rs : List (ℕ × ℕ)}
      (hline : IsSkipped line) (h : SpellsSection ls rs) : SpellsSection (line :: ls) rs
  | range {line : List Char} {r : ℕ × ℕ} {ls : List (List Char)} {rs : List (ℕ × ℕ)}
      (hline : SpellsLine line r) (h : SpellsSection ls rs) : SpellsSection (line :: ls) (r :: rs)

theorem readLine_congr (l l' : List Char) (h : strip l = strip l') : readLine l = readLine l' := by
  rw [readLine, h, readLine]

theorem readLine_of_skipped (h : IsSkipped line) : readLine line = some [] := by
  rw [readLine]
  refine if_pos ?_
  rcases h with h | ⟨a, comment, ha, rfl⟩
  · exact Or.inl (strip_of_blank h)
  · right
    have hstrip := strip_append_cons (s := []) (c := '#') (fun d hd => by cases hd) (by decide)
      comment
    rw [strip_blank_append ha]
    exact congrArg List.head? hstrip

theorem readParts_of_spells (h : SpellsRange 16 t n n') :
    readParts (splitText ['.', '.'] t) = some [(n, n')] := by
  rcases h with h | ⟨h, h'⟩
  · rw [splitText_of_not_mem (h.not_mem rfl), readParts, parseInt_of_numeral h, Option.map_some]
  · rw [splitText_append (h.not_mem rfl) (h'.not_mem rfl), readParts, parseInt_of_numeral h,
      parseInt_of_numeral h']
    rfl

theorem readLine_of_spells {r : ℕ × ℕ} (h : SpellsLine line r) : readLine line = some [r] := by
  obtain ⟨t, field, ht, haround, hline⟩ := h
  have hword := ht.isWord
  have hnot : ∀ c, c ≠ '.' → digitValue c = none → c ∉ t := by
    intro c hdot hc hmem
    rcases ht.mem hmem with rfl | ⟨d, -, hd⟩
    · exact hdot rfl
    · rw [hc] at hd
      cases hd
  have hsep : ∀ c ∈ t, decide (c ≠ ';') = true := by
    intro c hc
    rw [decide_eq_true_eq]
    rintro rfl
    exact hnot ';' (by decide) rfl hc
  -- the line without blanks begins with the range, whatever stands behind
  obtain ⟨rest, hstrip, hcut⟩ : ∃ rest, strip line = t ++ rest ∧
      strip ((t ++ rest).takeWhile (· ≠ ';')) = t := by
    rcases hline with rfl | ⟨rest, rfl⟩
    · refine ⟨[], by rw [strip_of_around haround hword.trimmed, List.append_nil], ?_⟩
      rw [List.append_nil, List.takeWhile_eq_self_iff.mpr hsep]
      exact strip_of_around ⟨[], [], fun _ hc => absurd hc List.not_mem_nil,
        fun _ hc => absurd hc List.not_mem_nil, by simp⟩ hword.trimmed
    · obtain ⟨a, b, ha, hb, rfl⟩ := haround
      have hhead : ∀ d ∈ (t ++ b).head?, isSpace d = false := by
        rw [List.head?_append_of_ne_nil t hword.1]
        exact hword.trimmed.head
      refine ⟨b ++ ';' :: rest.rdropWhile isSpace, ?_, ?_⟩
      · rw [List.append_assoc, strip_blank_append ha, strip_append_cons hhead (by decide),
          List.append_assoc]
      · have hblank : ∀ c ∈ b, decide (c ≠ ';') = true := by
          intro c hc
          rw [decide_eq_true_eq]
          rintro rfl
          have hspace := hb _ hc
          revert hspace
          decide
        rw [List.takeWhile_append_of_pos hsep, List.takeWhile_append_of_pos hblank,
          List.takeWhile_cons_of_neg (by simp), List.append_nil]
        exact strip_of_around ⟨[], b, fun _ hc => absurd hc List.not_mem_nil, hb, by simp⟩
          hword.trimmed
  rw [readLine, hstrip, if_neg, hcut]
  · exact readParts_of_spells ht
  · rintro (hnil | hhead)
    · exact hword.1 (List.append_eq_nil_iff.mp hnil).1
    · rw [List.head?_append_of_ne_nil t hword.1] at hhead
      exact hnot '#' (by decide) rfl (List.mem_of_mem_head? hhead)

theorem readLines_of_spells (h : SpellsSection ls ranges) :
    readLines readLine ls = some ranges := by
  induction h with
  | nil => rfl
  | skipped hline _ ih => rw [readLines_cons, readLine_of_skipped hline, ih]; rfl
  | range hline _ ih => rw [readLines_cons, readLine_of_spells hline, ih]; rfl

/-- **A section is read as the ranges that it spells.** -/
theorem parseSection_of_spells {startPattern endPattern pre post : List Char}
    (htext : text = pre ++ (startPattern ++ (body ++ (endPattern ++ post))))
    (hstart : FirstIn startPattern pre) (hend : FirstIn endPattern (pre ++ (startPattern ++ body)))
    (hbody : SpellsSection (body.splitOn '\n') ranges) :
    parseSection startPattern endPattern text = some ranges := by
  have hsearch : searchFor startPattern text = some pre.length := by
    rw [searchFor, htext, upTo_of_firstIn hstart, Option.map_some]
  have hassoc : text = (pre ++ (startPattern ++ body)) ++ (endPattern ++ post) := by
    rw [htext]
    simp
  have hstop : searchFor endPattern text = some (pre ++ (startPattern ++ body)).length := by
    rw [searchFor, hassoc, upTo_of_firstIn hend, Option.map_some]
  have hcut : (text.take (pre ++ (startPattern ++ body)).length).drop
      (pre.length + startPattern.length) = body := by
    rw [hassoc, List.take_left, ← List.append_assoc pre, ← List.length_append, List.drop_left]
  rw [parseSection, hsearch, hstop]
  show readLines readLine ((strip _).splitOn '\n') = _
  rw [hcut, readLines_strip readLine_congr (by decide)]
  exact readLines_of_spells hbody

theorem getDerivedTable_of_marked (h : Marked versionMark unicodeVersion ".txt".toList text) :
    getDerivedTable text = some text := by
  rw [getDerivedTable, if_pos]
  refine h.search_eq fun post hpost =>
    asFarAs_append (List.all_eq_true.mp rfl) (by decide) ?_
  intro c hc
  rw [hpost c hc]
  decide

/-- DerivedCoreProperties.txt, with sections that spell some ranges. -/
def SpellsDerived (text : List Char) (idStart idContinue : List (ℕ × ℕ)) : Prop :=
  ∃ pre body body' post,
    text = pre ++ (idStartPattern ++ (body ++ (idContinuePattern ++ (body' ++
      (xidStartPattern ++ post))))) ∧
    FirstIn idStartPattern pre ∧
    FirstIn idContinuePattern (pre ++ (idStartPattern ++ body)) ∧
    FirstIn xidStartPattern (pre ++ (idStartPattern ++ (body ++ (idContinuePattern ++ body')))) ∧
    SpellsSection (body.splitOn '\n') idStart ∧ SpellsSection (body'.splitOn '\n') idContinue

/-- **DerivedCoreProperties.txt** -/
theorem parseSections_of_spells {idStart idContinue : List (ℕ × ℕ)}
    (h : SpellsDerived text idStart idContinue) :
    parseIdStartSection text = some idStart ∧ parseIdContinueSection text = some idContinue := by
  obtain ⟨pre, body, body', post, rfl, hstart, hcontinue, hxid, hbody, hbody'⟩ := h
  constructor
  · exact parseSection_of_spells rfl hstart hcontinue hbody
  · have htext : pre ++ (idStartPattern ++ (body ++ (idContinuePattern ++ (body' ++
        (xidStartPattern ++ post)))))
        = (pre ++ (idStartPattern ++ body)) ++ (idContinuePattern ++ (body' ++
          (xidStartPattern ++ post))) := by simp
    have hassoc : pre ++ (idStartPattern ++ (body ++ (idContinuePattern ++ body')))
        = (pre ++ (idStartPattern ++ body)) ++ (idContinuePattern ++ body') := by simp
    rw [hassoc] at hxid
    exact parseSection_of_spells htext hcontinue hxid hbody'

def fewDerived : List Char :=
  "# DerivedCoreProperties-18.0.0.txt\n".toList ++
    (idStartPattern ++ ("\n\n0061..007A ; ID_Start # 26\n".toList ++
      (idContinuePattern ++
        ("\n0030..0039\n0061..007A\n".toList ++ (xidStartPattern ++ ['\n'])))))

theorem spells_fewDerived :
    SpellsDerived fewDerived [(0x61, 0x7A)] [(0x30, 0x39), (0x61, 0x7A)] := by
  have haround : ∀ t : List Char, Around t t := fun t => ⟨[], [], by decide, by decide, by simp⟩
  have hletters : SpellsRange 16 "0061..007A".toList 0x61 0x7A :=
    .range (by decide : Numeral 16 "0061".toList 0x61) (by decide : Numeral 16 "007A".toList 0x7A)
  have hdigits : SpellsRange 16 "0030..0039".toList 0x30 0x39 :=
    .range (by decide : Numeral 16 "0030".toList 0x30) (by decide : Numeral 16 "0039".toList 0x39)
  have hskipped : IsSkipped [] := .inl (by decide)
  have hstart : SpellsLine "0061..007A ; ID_Start # 26".toList (0x61, 0x7A) :=
    ⟨"0061..007A".toList, "0061..007A ".toList, hletters, ⟨[], [' '], by decide, by decide, rfl⟩,
      .inr ⟨" ID_Start # 26".toList, rfl⟩⟩
  refine ⟨"# DerivedCoreProperties-18.0.0.txt\n".toList, "\n\n0061..007A ; ID_Start # 26\n".toList,
    "\n0030..0039\n0061..007A\n".toList, ['\n'], rfl, by decide +kernel, by decide +kernel,
    by decide +kernel, ?_, ?_⟩
  · exact .skipped hskipped (.skipped hskipped (.range hstart (.skipped hskipped .nil)))
  · exact .skipped hskipped (.range ⟨_, _, hdigits, haround _, .inl rfl⟩
      (.range ⟨_, _, hletters, haround _, .inl rfl⟩ (.skipped hskipped .nil)))

theorem marked_fewDerived : Marked versionMark unicodeVersion ".txt".toList fewDerived :=
  ⟨[], '\n' :: fewDerived.drop 35, rfl, by decide, by simp⟩

end DerivedTable

end AdaIdna
