/-
AdaIdna/UnicodeDataText.lean

The class `UnicodeData` of unicode_data_table.py: reading UnicodeData.txt.

A line of the file has fields between semicolons; one line describes a code
point, or two lines, whose names end in `, First>` and `, Last>`, a range.  A
text that spells rows in ascending order, in any of the ways in which they can
be spelled, is read as these rows (`initUnicodeData_unlines`): each code point
has the properties of its row (`initUnicodeData_holdsRows`).

An exception is `none`.
-/
import AdaIdna.Lib.Dictionary
import AdaIdna.Lib.LineText
import AdaIdna.UnicodeDataShape
import AdaIdna.ValidityTables

namespace AdaIdna

namespace UnicodeDataTable

open Dictionary Labels LineText

/-! ### The reader -/

/-- The dictionaries, and `range_first`. -/
structure Reader where
  ucd : UnicodeFields
  rangeFirst : Option ℕ

def Reader.init : Reader where
  ucd := { ccc := [], canonical := [], compatibility := [], category := [], bidi := [] }
  rangeFirst := none

/-- `self.category[c] = fields[2]`, and the other properties of `c`. -/
def setProperties (fields : List (List Char)) (ucd : UnicodeFields) (c : ℕ) :
    Option UnicodeFields := do
  let category ← fields[2]?
  let ccc ← fields[3]?.bind (parseInt 10)
  let bidi ← fields[4]?
  some
    { ucd with
      category := setItem ucd.category c (String.ofList category)
      ccc := setItem ucd.ccc c ccc
      bidi := setItem ucd.bidi c (String.ofList bidi) }

/-- `self.canonical[cp] = ...` or `self.compatibility[cp] = ...` -/
def setMapping (ucd : UnicodeFields) (cp : ℕ) (decomposition : List (List Char)) :
    Option UnicodeFields :=
  match decomposition with
  | [] => some ucd
  | tag :: rest =>
    if tag.head? = some '<' then
      (rest.mapM (parseInt 16)).map fun mapping =>
        { ucd with compatibility := setItem ucd.compatibility cp mapping }
    else
      ((tag :: rest).mapM (parseInt 16)).map fun mapping =>
        { ucd with canonical := setItem ucd.canonical cp mapping }

def firstSuffix : List Char := ", First>".toList
def lastSuffix : List Char := ", Last>".toList

/-- `first`, and `range_first` from then on. -/
def takeRange (name : List Char) (cp : ℕ) (rangeFirst : Option ℕ) : Option (ℕ × Option ℕ) :=
  -- a range that was not begun begins at `None`, and raises
  if lastSuffix.isSuffixOf name then rangeFirst.map (·, none) else some (cp, rangeFirst)

/-- `for line in text.splitlines()` -/
def readLine (r : Reader) (line : List Char) : Option Reader :=
  if line = [] then some r
  else do
    let fields := line.splitOn ';'
    let cp ← fields[0]?.bind (parseInt 16)
    let name ← fields[1]?
    if firstSuffix.isSuffixOf name then some { r with rangeFirst := some cp }
    else do
      let (first, rangeFirst) ← takeRange name cp r.rangeFirst
      let ucd ← (closedRange first cp).foldlM (setProperties fields) r.ucd
      let decomposition ← fields[5]?
      let ucd ← setMapping ucd cp (words decomposition)
      some ⟨ucd, rangeFirst⟩

/-- `UnicodeData.__init__` -/
def initUnicodeData (text : List Char) : Option UnicodeFields :=
  ((splitlines text).foldlM readLine Reader.init).map Reader.ucd

variable {ucd ucd' : UnicodeFields} {r r' : Reader} {fields : List (List Char)}
  {line text : List Char} {c cp : ℕ}

/-! ### What is read is well formed -/

/-- Dictionaries as they come out of the reader: one item for each key, and the
properties are those of the same code points. -/
structure WellRead (ucd : UnicodeFields) : Prop where
  category : ucd.category.map Prod.fst = ucd.ccc.map Prod.fst
  bidi : ucd.bidi.map Prod.fst = ucd.ccc.map Prod.fst
  nodup : (ucd.ccc.map Prod.fst).Nodup
  canonical : (ucd.canonical.map Prod.fst).Nodup
  compatibility : (ucd.compatibility.map Prod.fst).Nodup

theorem WellRead.setProperties (h : WellRead ucd) (hset : setProperties fields ucd c = some ucd') :
    WellRead ucd' := by
  obtain ⟨category, -, hset⟩ := Option.bind_eq_some_iff.mp hset
  obtain ⟨ccc, -, hset⟩ := Option.bind_eq_some_iff.mp hset
  obtain ⟨bidi, -, hset⟩ := Option.bind_eq_some_iff.mp hset
  obtain rfl := Option.some.inj hset
  constructor
  · show (setItem _ _ _).map Prod.fst = (setItem _ _ _).map Prod.fst
    rw [map_fst_setItem, map_fst_setItem, h.category]
  · show (setItem _ _ _).map Prod.fst = (setItem _ _ _).map Prod.fst
    rw [map_fst_setItem, map_fst_setItem, h.bidi]
  · exact nodup_setItem h.nodup _ _
  · exact h.canonical
  · exact h.compatibility

theorem WellRead.setMapping (h : WellRead ucd) {decomposition : List (List Char)}
    (hset : setMapping ucd cp decomposition = some ucd') : WellRead ucd' := by
  cases decomposition with
  | nil =>
    obtain rfl := Option.some.inj hset
    exact h
  | cons tag rest =>
    rw [UnicodeDataTable.setMapping] at hset
    split at hset
    · obtain ⟨mapping, -, rfl⟩ := Option.map_eq_some_iff.mp hset
      exact ⟨h.category, h.bidi, h.nodup, h.canonical, nodup_setItem h.compatibility _ _⟩
    · obtain ⟨mapping, -, rfl⟩ := Option.map_eq_some_iff.mp hset
      exact ⟨h.category, h.bidi, h.nodup, nodup_setItem h.canonical _ _, h.compatibility⟩

theorem WellRead.readLine (h : WellRead r.ucd) (hline : readLine r line = some r') :
    WellRead r'.ucd := by
  rw [UnicodeDataTable.readLine] at hline
  split at hline
  · obtain rfl := Option.some.inj hline
    exact h
  · obtain ⟨cp, -, hline⟩ := Option.bind_eq_some_iff.mp hline
    obtain ⟨name, -, hline⟩ := Option.bind_eq_some_iff.mp hline
    split at hline
    · obtain rfl := Option.some.inj hline
      exact h
    · obtain ⟨⟨first, rangeFirst⟩, -, hline⟩ := Option.bind_eq_some_iff.mp hline
      obtain ⟨ucd, hucd, hline⟩ := Option.bind_eq_some_iff.mp hline
      obtain ⟨decomposition, -, hline⟩ := Option.bind_eq_some_iff.mp hline
      obtain ⟨ucd', hucd', hline⟩ := Option.bind_eq_some_iff.mp hline
      obtain rfl := Option.some.inj hline
      have hkept := foldlM_keeps (fun _ _ _ hx hset => WellRead.setProperties hx hset) h hucd
      exact hkept.setMapping hucd'

/-- The lines one after another. -/
theorem WellRead.foldlM {ls : List (List Char)} (h : WellRead r.ucd)
    (hls : ls.foldlM UnicodeDataTable.readLine r = some r') : WellRead r'.ucd :=
  foldlM_keeps (P := fun r => WellRead r.ucd) (fun _ _ _ hx hline => hx.readLine hline) h hls

/-! ### What is spelled is read -/

/-- The mapping of a row. -/
inductive Mapping where
  | none
  | canonical (m : U32String)
  | compatibility (m : U32String)

/-- What the file says of the code points of a range. -/
structure Row where
  first : ℕ
  last : ℕ
  category : String
  ccc : ℕ
  bidi : String
  mapping : Mapping

/-- The field of the decomposition; a compatibility mapping has a tag. -/
inductive SpellsMapping : Mapping → List Char → Prop
  | none {s : List Char} (hs : IsBlank s) : SpellsMapping .none s
  | canonical {m : U32String} {ws : List (List Char)} {s : List Char} (hm : m ≠ [])
      (hcodes : Numerals 16 ws m) (hs : SpellsWords ws s) : SpellsMapping (.canonical m) s
  | compatibility {m : U32String} {tag : List Char} {ws : List (List Char)} {s : List Char}
      (hcodes : Numerals 16 ws m) (hs : SpellsWords (('<' :: tag) :: ws) s) :
      SpellsMapping (.compatibility m) s

/-- A line with these fields. -/
structure HasFields (line : List Char) (fields : List (List Char)) : Prop where
  eq_join : line = join ';' fields
  isLine : IsLine line
  ne_nil : line ≠ []
  not_mem : ∀ f ∈ fields, ';' ∉ f

/-- A line that gives the properties of `r` to a code point with a name. -/
def SpellsRecord (line : List Char) (code : ℕ) (name : List Char) (r : Row) : Prop :=
  ∃ codeText cccText decomposition rest,
    HasFields line (codeText :: name :: r.category.toList :: cccText :: r.bidi.toList ::
      decomposition :: rest) ∧
    Numeral 16 codeText code ∧ Numeral 10 cccText r.ccc ∧ SpellsMapping r.mapping decomposition

/-- A line that begins a range; what else it says is not read. -/
def SpellsFirst (line : List Char) (code : ℕ) : Prop :=
  ∃ codeText name rest, HasFields line (codeText :: name :: rest) ∧ Numeral 16 codeText code ∧
    firstSuffix <:+ name

/-- The lines that spell some rows. -/
inductive Spells : List (List Char) → List Row → Prop
  | nil : Spells [] []
  | blank {ls : List (List Char)} {rows : List Row} (h : Spells ls rows) : Spells ([] :: ls) rows
  | single {line name : List Char} {r : Row} {ls : List (List Char)} {rows : List Row}
      (hline : SpellsRecord line r.last name r) (hrange : r.first = r.last)
      (hfirst : ¬ firstSuffix <:+ name) (hlast : ¬ lastSuffix <:+ name) (h : Spells ls rows) :
      Spells (line :: ls) (r :: rows)
  | range {line line' name : List Char} {r : Row} {ls : List (List Char)} {rows : List Row}
      (hline : SpellsFirst line r.first) (hline' : SpellsRecord line' r.last name r)
      (hlast : lastSuffix <:+ name) (h : Spells ls rows) :
      Spells (line :: line' :: ls) (r :: rows)

def Row.codePoints (r : Row) : List ℕ := closedRange r.first r.last

def Row.canonical (r : Row) : List (ℕ × U32String) :=
  match r.mapping with
  | .canonical m => [(r.last, m)]
  | _ => []

def Row.compatibility (r : Row) : List (ℕ × U32String) :=
  match r.mapping with
  | .compatibility m => [(r.last, m)]
  | _ => []

/-- The dictionaries that rows stand for. -/
def fieldsOf (rows : List Row) : UnicodeFields where
  category := rows.flatMap fun r => r.codePoints.map (·, r.category)
  ccc := rows.flatMap fun r => r.codePoints.map (·, r.ccc)
  bidi := rows.flatMap fun r => r.codePoints.map (·, r.bidi)
  canonical := rows.flatMap Row.canonical
  compatibility := rows.flatMap Row.compatibility

/-- Rows in ascending order. -/
structure RowsInOrder (rows : List Row) : Prop where
  le : ∀ r ∈ rows, r.first ≤ r.last
  lt : rows.Pairwise fun r r' => r.last < r'.first

variable {row : Row} {rows done : List Row} {ls : List (List Char)} {name : List Char}
  {m : U32String} {k : ℕ}

theorem HasFields.splitOn_eq (h : HasFields line fields) (hne : fields ≠ []) :
    line.splitOn ';' = fields := by
  rw [h.eq_join]
  exact splitOn_join hne h.not_mem

/-- The dictionaries with the mapping of a row. -/
def withMapping (ucd : UnicodeFields) (row : Row) : UnicodeFields :=
  match row.mapping with
  | .none => ucd
  | .canonical m => { ucd with canonical := setItem ucd.canonical row.last m }
  | .compatibility m => { ucd with compatibility := setItem ucd.compatibility row.last m }

theorem setMapping_eq {decomposition : List Char} (h : SpellsMapping row.mapping decomposition) :
    setMapping ucd row.last (words decomposition) = some (withMapping ucd row) := by
  rw [withMapping]
  rcases hmapping : row.mapping with - | m | m
  · rw [hmapping] at h
    obtain ⟨hs⟩ := h
    rw [words_of_spells (.nil hs)]
    rfl
  · rw [hmapping] at h
    obtain - | ⟨hm, hcodes, hs⟩ := h
    rw [words_of_spells hs]
    rcases hcodes with - | ⟨hn, hrest⟩
    · exact absurd rfl hm
    · rename_i w c ws m
      have htag : w.head? ≠ some '<' :=
        fun hhead => hn.not_mem (c := '<') rfl (List.mem_of_mem_head? hhead)
      rw [setMapping, if_neg htag, mapM_parseInt (List.Forall₂.cons hn hrest), Option.map_some]
  · rw [hmapping] at h
    obtain - | - | ⟨hcodes, hs⟩ := h
    rw [words_of_spells hs, setMapping, if_pos List.head?_cons, mapM_parseInt hcodes,
      Option.map_some]

/-- The dictionaries with the properties of a row for some code points. -/
def withProperties (ucd : UnicodeFields) (row : Row) (cps : List ℕ) : UnicodeFields :=
  { ucd with
    category := cps.foldl (fun d k => setItem d k row.category) ucd.category
    ccc := cps.foldl (fun d k => setItem d k row.ccc) ucd.ccc
    bidi := cps.foldl (fun d k => setItem d k row.bidi) ucd.bidi }

theorem foldlM_setProperties (hcategory : fields[2]? = some row.category.toList)
    (hccc : fields[3]?.bind (parseInt 10) = some row.ccc)
    (hbidi : fields[4]? = some row.bidi.toList) (cps : List ℕ) (ucd : UnicodeFields) :
    cps.foldlM (setProperties fields) ucd = some (withProperties ucd row cps) := by
  induction cps generalizing ucd with
  | nil => rfl
  | cons c cps ih =>
    have hset : setProperties fields ucd c = some (withProperties ucd row [c]) := by
      rw [setProperties, hcategory, hccc, hbidi]
      simp [withProperties, String.ofList_toList]
    rw [List.foldlM_cons, hset]
    exact ih _

/-- One line of the file that gives properties. -/
theorem readLine_of_spellsRecord (h : SpellsRecord line row.last name row)
    (hname : ¬ firstSuffix <:+ name) {rangeFirst rangeFirst' : Option ℕ}
    (hrange : takeRange name row.last rangeFirst = some (row.first, rangeFirst')) :
    readLine ⟨ucd, rangeFirst⟩ line
      = some ⟨withMapping (withProperties ucd row row.codePoints) row, rangeFirst'⟩ := by
  obtain ⟨codeText, cccText, decomposition, rest, hfields, hcode, hccc, hmapping⟩ := h
  have hsplit := hfields.splitOn_eq (List.cons_ne_nil _ _)
  rw [readLine, if_neg hfields.ne_nil, hsplit]
  simp only [List.getElem?_cons_zero, List.getElem?_cons_succ, Option.bind_some,
    parseInt_of_numeral hcode, Option.bind_eq_bind, List.isSuffixOf_iff_suffix, if_neg hname,
    hrange]
  have hfold : (closedRange row.first row.last).foldlM (setProperties (codeText :: name ::
      row.category.toList :: cccText :: row.bidi.toList :: decomposition :: rest)) ucd
        = some (withProperties ucd row row.codePoints) := by
    apply foldlM_setProperties
    · rfl
    · exact parseInt_of_numeral hccc
    · rfl
  rw [hfold, Option.bind_some, setMapping_eq hmapping]
  rfl

theorem readLine_of_spellsFirst (h : SpellsFirst line cp) (rangeFirst : Option ℕ) :
    readLine ⟨ucd, rangeFirst⟩ line = some ⟨ucd, some cp⟩ := by
  obtain ⟨codeText, name, rest, hfields, hcode, hname⟩ := h
  have hsplit := hfields.splitOn_eq (List.cons_ne_nil _ _)
  rw [readLine, if_neg hfields.ne_nil, hsplit]
  simp only [List.getElem?_cons_zero, List.getElem?_cons_succ, Option.bind_some,
    parseInt_of_numeral hcode, Option.bind_eq_bind, List.isSuffixOf_iff_suffix, if_pos hname]

/-! ### Rows in order -/

/-- The rows behind `done` are about code points that have not come yet. -/
theorem RowsInOrder.lt_of_mem (h : RowsInOrder (done ++ row :: rows)) {r : Row} (hr : r ∈ done) :
    r.last < row.first :=
  (List.pairwise_append.mp h.lt).2.2 r hr row List.mem_cons_self

theorem RowsInOrder.not_mem_keys (h : RowsInOrder (done ++ row :: rows)) {ν : Type} (f : Row → ν) :
    ∀ k ∈ row.codePoints,
      k ∉ (done.flatMap fun r => r.codePoints.map (·, f r)).map Prod.fst := by
  intro k hk hmem
  obtain ⟨e, he, rfl⟩ := List.mem_map.mp hmem
  obtain ⟨r, hr, he⟩ := List.mem_flatMap.mp he
  obtain ⟨c, hc, rfl⟩ := List.mem_map.mp he
  have hlt := h.lt_of_mem hr
  have hle := (mem_closedRange.mp hk).1
  have hge := (mem_closedRange.mp hc).2
  simp only at hle
  omega

theorem fieldsOf_concat (done : List Row) (row : Row) :
    fieldsOf (done ++ [row]) =
      { category := (fieldsOf done).category ++ row.codePoints.map (·, row.category)
        ccc := (fieldsOf done).ccc ++ row.codePoints.map (·, row.ccc)
        bidi := (fieldsOf done).bidi ++ row.codePoints.map (·, row.bidi)
        canonical := (fieldsOf done).canonical ++ row.canonical
        compatibility := (fieldsOf done).compatibility ++ row.compatibility } := by
  simp [fieldsOf]

theorem mem_canonical {e : ℕ × U32String} (h : e ∈ row.canonical ∨ e ∈ row.compatibility) :
    e.1 = row.last := by
  rw [Row.canonical, Row.compatibility] at h
  rcases hmapping : row.mapping with - | m | m
  · simp [hmapping] at h
  · simp only [hmapping, List.mem_singleton, List.not_mem_nil, or_false] at h
    rw [h]
  · simp only [hmapping, List.mem_singleton, List.not_mem_nil, false_or] at h
    rw [h]

/-- A row in its place adds its items. -/
theorem withMapping_fieldsOf (h : RowsInOrder (done ++ row :: rows)) :
    withMapping (withProperties (fieldsOf done) row row.codePoints) row
      = fieldsOf (done ++ [row]) := by
  have hle : row.first ≤ row.last := h.le row (by simp)
  have hnot : ∀ e, e ∈ done.flatMap Row.canonical ∨ e ∈ done.flatMap Row.compatibility →
      e.1 ≠ row.last := by
    intro e he heq
    obtain ⟨r, hr, he⟩ : ∃ r ∈ done, e ∈ r.canonical ∨ e ∈ r.compatibility := by
      rcases he with he | he
      · obtain ⟨r, hr, he⟩ := List.mem_flatMap.mp he
        exact ⟨r, hr, Or.inl he⟩
      · obtain ⟨r, hr, he⟩ := List.mem_flatMap.mp he
        exact ⟨r, hr, Or.inr he⟩
    have hlt := h.lt_of_mem hr
    rw [← mem_canonical he, heq] at hlt
    omega
  have hcanonical : row.last ∉ (fieldsOf done).canonical.map Prod.fst := by
    intro hmem
    obtain ⟨e, he, heq⟩ := List.mem_map.mp hmem
    exact hnot e (Or.inl he) heq
  have hcompatibility : row.last ∉ (fieldsOf done).compatibility.map Prod.fst := by
    intro hmem
    obtain ⟨e, he, heq⟩ := List.mem_map.mp hmem
    exact hnot e (Or.inr he) heq
  have hproperties : withProperties (fieldsOf done) row row.codePoints =
      { category := (fieldsOf done).category ++ row.codePoints.map (·, row.category)
        ccc := (fieldsOf done).ccc ++ row.codePoints.map (·, row.ccc)
        bidi := (fieldsOf done).bidi ++ row.codePoints.map (·, row.bidi)
        canonical := (fieldsOf done).canonical
        compatibility := (fieldsOf done).compatibility } := by
    have hitems : ∀ {ν : Type} (f : Row → ν) (d : List (ℕ × ν)),
        d = (done.flatMap fun r => r.codePoints.map (·, f r)) →
          row.codePoints.foldl (fun d k => setItem d k (f row)) d
            = d ++ row.codePoints.map (·, f row) := by
      rintro ν f d rfl
      exact foldl_setItem (nodup_closedRange _ _) (h.not_mem_keys f) (f row)
    rw [withProperties, hitems Row.category (fieldsOf done).category rfl,
      hitems Row.ccc (fieldsOf done).ccc rfl, hitems Row.bidi (fieldsOf done).bidi rfl]
  rw [hproperties, fieldsOf_concat, withMapping, Row.canonical, Row.compatibility]
  rcases row.mapping with - | m | m
  · simp
  · simp [setItem_of_not_mem hcanonical]
  · simp [setItem_of_not_mem hcompatibility]

/-- The name that ends a range does not begin one. -/
theorem not_firstSuffix (h : lastSuffix <:+ name) : ¬ firstSuffix <:+ name := by
  intro hfirst
  have hsuffix := List.suffix_of_suffix_length_le h hfirst (by decide)
  revert hsuffix
  decide

theorem takeRange_of_not (h : ¬ lastSuffix <:+ name) (rangeFirst : Option ℕ) :
    takeRange name cp rangeFirst = some (cp, rangeFirst) :=
  if_neg fun hlast => h (List.isSuffixOf_iff_suffix.mp hlast)

theorem takeRange_of_last (h : lastSuffix <:+ name) (first : ℕ) :
    takeRange name cp (some first) = some (first, none) :=
  if_pos (List.isSuffixOf_iff_suffix.mpr h)

theorem foldlM_readLine (h : Spells ls rows) (done : List Row)
    (ho : RowsInOrder (done ++ rows)) :
    ls.foldlM readLine ⟨fieldsOf done, none⟩ = some ⟨fieldsOf (done ++ rows), none⟩ := by
  induction h generalizing done with
  | nil =>
    rw [List.append_nil]
    rfl
  | blank _ ih => exact ih done ho
  | @single line name r ls rows hline hrange hfirst hlast _ ih =>
    have htake : takeRange name r.last none = some (r.first, none) := by
      rw [takeRange_of_not hlast, hrange]
    rw [List.foldlM_cons, readLine_of_spellsRecord hline hfirst htake, withMapping_fieldsOf ho]
    have hrun := ih (done ++ [r]) (List.append_cons done r rows ▸ ho)
    rwa [← List.append_cons] at hrun
  | @range line line' name r ls rows hline hline' hlast _ ih =>
    rw [List.foldlM_cons, readLine_of_spellsFirst hline, Option.bind_eq_bind, Option.bind_some,
      List.foldlM_cons, readLine_of_spellsRecord hline' (not_firstSuffix hlast)
        (takeRange_of_last hlast r.first), withMapping_fieldsOf ho]
    have hrun := ih (done ++ [r]) (List.append_cons done r rows ▸ ho)
    rwa [← List.append_cons] at hrun

theorem Spells.isLine (h : Spells ls rows) : ∀ l ∈ ls, IsLine l := by
  induction h with
  | nil => exact fun l hl => absurd hl List.not_mem_nil
  | blank _ ih => exact List.forall_mem_cons.mpr ⟨fun c hc => absurd hc List.not_mem_nil, ih⟩
  | single hline _ _ _ _ ih =>
    obtain ⟨_, _, _, _, hfields, -⟩ := hline
    exact List.forall_mem_cons.mpr ⟨hfields.isLine, ih⟩
  | range hline hline' _ _ ih =>
    obtain ⟨_, _, _, hfields, -⟩ := hline
    obtain ⟨_, _, _, _, hfields', -⟩ := hline'
    exact List.forall_mem_cons.mpr ⟨hfields.isLine, List.forall_mem_cons.mpr ⟨hfields'.isLine, ih⟩⟩

/-- **A text that spells rows is read as these rows.** -/
theorem initUnicodeData_unlines (h : Spells ls rows) (ho : RowsInOrder rows) :
    initUnicodeData (unlines ls) = some (fieldsOf rows) := by
  rw [initUnicodeData, splitlines_unlines h.isLine]
  have hrun := foldlM_readLine h [] ho
  exact congrArg (Option.map Reader.ucd) hrun

/-! ### Code point by code point -/

section Agrees

variable {a b : UnicodeData} {exclusions : Finset ℕ}

/-- The same mappings, and the same classes: it does not matter whether class 0
is listed. -/
structure Agrees (a b : UnicodeData) : Prop where
  canonical : a.canonical = b.canonical
  compatibility : a.compatibility = b.compatibility
  cccOf : cccOf a = cccOf b

theorem Agrees.fullDecomposition (h : Agrees a b) (compatibility : Bool) (limit : ℕ) :
    fullDecomposition a compatibility limit = fullDecomposition b compatibility limit := by
  induction limit with
  | zero => rfl
  | succ limit ih =>
    funext cp
    simp only [UnicodeDataTable.fullDecomposition, mappingOf, h.canonical, h.compatibility, ih]

theorem Agrees.buildDecomposition (h : Agrees a b) (limit : ℕ) :
    buildDecomposition a limit = buildDecomposition b limit := by
  have hstep : decompositionStep a limit = decompositionStep b limit := by
    funext r cp
    simp only [decompositionStep, decompositionOf, h.canonical, h.compatibility,
      h.fullDecomposition]
  simp only [UnicodeDataTable.buildDecomposition, hstep]

theorem Agrees.buildCcc (h : Agrees a b) : buildCcc a = buildCcc b := by
  have hentries : cccEntries a = cccEntries b := by rw [cccEntries, cccEntries, h.cccOf]
  have hempty : cccIsEmpty a = cccIsEmpty b := by
    funext block
    rw [cccIsEmpty, cccIsEmpty, hentries]
  rw [UnicodeDataTable.buildCcc, UnicodeDataTable.buildCcc, hentries, hempty]

theorem Agrees.buildComposition (h : Agrees a b) (exclusions : Finset ℕ) :
    buildComposition a exclusions = buildComposition b exclusions := by
  have hpair : pairOf a exclusions = pairOf b exclusions := by
    funext first item
    simp only [pairOf, h.cccOf]
  have hstep : compositionStep a exclusions = compositionStep b exclusions := by
    funext r cp
    simp only [compositionStep, compositionOf, pairsOf, h.canonical, hpair]
  simp only [UnicodeDataTable.buildComposition, hstep]

theorem Agrees.standard (h : Agrees a b) (hlt : ∀ e ∈ a.ccc, e.1 < codeSpace)
    (hs : b.Standard) : a.Standard where
  nodup := h.canonical ▸ hs.nodup
  lt := h.canonical ▸ hs.lt
  ne_nil := h.canonical ▸ hs.ne_nil
  not_hangul := h.canonical ▸ hs.not_hangul
  ccc_lt := hlt
  ccc_hangul := h.cccOf ▸ hs.ccc_hangul
  not_jamo := h.canonical ▸ hs.not_jamo
  mapping_lt := h.canonical ▸ hs.mapping_lt
  mapping_not_hangul := h.canonical ▸ hs.mapping_not_hangul
  ordered := by
    unfold IsFullDecomposition
    rw [h.canonical, h.cccOf]
    exact hs.ordered

theorem Agrees.asciiApart (h : Agrees a b) (hs : b.AsciiApart) : a.AsciiApart where
  ccc := h.cccOf ▸ hs.ccc
  lookup := h.canonical ▸ hs.lookup
  second := h.canonical ▸ hs.second
  dot := h.canonical ▸ hs.dot

theorem Agrees.distinctPairs (h : Agrees a b) (hs : DistinctPairs b exclusions) :
    DistinctPairs a exclusions := by
  unfold DistinctPairs IsPrimary
  rw [h.canonical, h.cccOf]
  exact hs
end Agrees

/-! ### A small file -/

def fewRows : List Row :=
  [⟨0x61, 0x61, "Ll", 0, "L", .none⟩, ⟨0xAA, 0xAA, "Lo", 0, "L", .compatibility [0x61]⟩,
    ⟨0xE9, 0xE9, "Ll", 0, "L", .canonical [0x65, 0x301]⟩,
    ⟨0x113, 0x113, "Ll", 0, "L", .canonical [0x65, 0x304]⟩, ⟨0x301, 0x301, "Mn", 230, "NSM", .none⟩,
    ⟨0x304, 0x304, "Mn", 230, "NSM", .none⟩,
    ⟨0x1E17, 0x1E17, "Ll", 0, "L", .canonical [0x113, 0x301]⟩,
    ⟨0x3400, 0x3402, "Lo", 0, "L", .none⟩]

def fewRowLines : List (List Char) :=
  ["0061;SMALL A;Ll;0;L;;N".toList, "00AA;ORDINAL;Lo;0;L;<super> 0061;N".toList,
    "00E9;E ACUTE;Ll;0;L;0065 0301;N".toList, "0113;E MACRON;Ll;0;L;0065 0304;N".toList,
    "0301;ACUTE;Mn;230;NSM;;N".toList, "0304;MACRON;Mn;230;NSM;;N".toList,
    "1E17;E MACRON ACUTE;Ll;0;L;0113 0301;N".toList, "3400;<CJK, First>;Lo;0;L;;N".toList,
    "3402;<CJK, Last>;Lo;0;L;;N".toList]

theorem rowsInOrder_fewRows : RowsInOrder fewRows := ⟨by decide, by decide⟩

/-- Two words with a blank between them. -/
theorem spellsWords_two {w w' : List Char} (hw : IsWord w) (hw' : IsWord w') :
    SpellsWords [w, w'] (w ++ ' ' :: w') := by
  have hblank : ∀ s : List Char, s = [] → IsBlank s := by
    rintro s rfl
    decide
  have hspace : IsBlank [' '] := by decide
  have h := SpellsWords.cons (hblank [] rfl) hw (hw'.spellsWords hspace (hblank [] rfl))
    (by simp [isSpace])
  simpa using h

theorem spells_fewRowLines : Spells fewRowLines fewRows := by
  have hblank : IsBlank [] := by decide
  have hcanonical : ∀ w w' : List Char, ∀ m n : ℕ, Numeral 16 w m → Numeral 16 w' n →
      SpellsMapping (.canonical [m, n]) (w ++ ' ' :: w') := fun w w' m n hw hw' =>
    .canonical (List.cons_ne_nil _ _) (.cons hw (.cons hw' .nil))
      (spellsWords_two hw.isWord hw'.isWord)
  have h0 : SpellsRecord "0061;SMALL A;Ll;0;L;;N".toList 0x61 "SMALL A".toList
      ⟨0x61, 0x61, "Ll", 0, "L", .none⟩ :=
    ⟨"0061".toList, "0".toList, [], ["N".toList],
      ⟨rfl, by decide, by decide, by decide⟩, by decide, by decide, .none hblank⟩
  have h1 : SpellsRecord "00AA;ORDINAL;Lo;0;L;<super> 0061;N".toList 0xAA "ORDINAL".toList
      ⟨0xAA, 0xAA, "Lo", 0, "L", .compatibility [0x61]⟩ :=
    ⟨"00AA".toList, "0".toList, "<super> 0061".toList, ["N".toList],
      ⟨rfl, by decide, by decide, by decide⟩, by decide, by decide,
      .compatibility (.cons (by decide : Numeral 16 "0061".toList 0x61) .nil)
        (spellsWords_two (by decide : IsWord "<super>".toList) (by decide : IsWord "0061".toList))⟩
  have h2 : SpellsRecord "00E9;E ACUTE;Ll;0;L;0065 0301;N".toList 0xE9 "E ACUTE".toList
      ⟨0xE9, 0xE9, "Ll", 0, "L", .canonical [0x65, 0x301]⟩ :=
    ⟨"00E9".toList, "0".toList, "0065 0301".toList, ["N".toList],
      ⟨rfl, by decide, by decide, by decide⟩, by decide, by decide,
      hcanonical "0065".toList "0301".toList 0x65 0x301 (by decide) (by decide)⟩
  have h3 : SpellsRecord "0113;E MACRON;Ll;0;L;0065 0304;N".toList 0x113 "E MACRON".toList
      ⟨0x113, 0x113, "Ll", 0, "L", .canonical [0x65, 0x304]⟩ :=
    ⟨"0113".toList, "0".toList, "0065 0304".toList, ["N".toList],
      ⟨rfl, by decide, by decide, by decide⟩, by decide, by decide,
      hcanonical "0065".toList "0304".toList 0x65 0x304 (by decide) (by decide)⟩
  have h4 : SpellsRecord "0301;ACUTE;Mn;230;NSM;;N".toList 0x301 "ACUTE".toList
      ⟨0x301, 0x301, "Mn", 230, "NSM", .none⟩ :=
    ⟨"0301".toList, "230".toList, [], ["N".toList],
      ⟨rfl, by decide, by decide, by decide⟩, by decide, by decide, .none hblank⟩
  have h5 : SpellsRecord "0304;MACRON;Mn;230;NSM;;N".toList 0x304 "MACRON".toList
      ⟨0x304, 0x304, "Mn", 230, "NSM", .none⟩ :=
    ⟨"0304".toList, "230".toList, [], ["N".toList],
      ⟨rfl, by decide, by decide, by decide⟩, by decide, by decide, .none hblank⟩
  have h6 : SpellsRecord "1E17;E MACRON ACUTE;Ll;0;L;0113 0301;N".toList 0x1E17
      "E MACRON ACUTE".toList
      ⟨0x1E17, 0x1E17, "Ll", 0, "L", .canonical [0x113, 0x301]⟩ :=
    ⟨"1E17".toList, "0".toList, "0113 0301".toList, ["N".toList],
      ⟨rfl, by decide, by decide, by decide⟩, by decide, by decide,
      hcanonical "0113".toList "0301".toList 0x113 0x301 (by decide) (by decide)⟩
  have h7 : SpellsRecord "3402;<CJK, Last>;Lo;0;L;;N".toList 0x3402 "<CJK, Last>".toList
      ⟨0x3400, 0x3402, "Lo", 0, "L", .none⟩ :=
    ⟨"3402".toList, "0".toList, [], ["N".toList],
      ⟨rfl, by decide, by decide, by decide⟩, by decide, by decide, .none hblank⟩
  have hfirst : SpellsFirst "3400;<CJK, First>;Lo;0;L;;N".toList 0x3400 :=
    ⟨"3400".toList, "<CJK, First>".toList, ["Lo".toList, "0".toList, "L".toList, [], "N".toList],
      ⟨rfl, by decide, by decide, by decide⟩, by decide, by decide⟩
  refine .single h0 rfl (by decide) (by decide) ?_
  refine .single h1 rfl (by decide) (by decide) ?_
  refine .single h2 rfl (by decide) (by decide) ?_
  refine .single h3 rfl (by decide) (by decide) ?_
  refine .single h4 rfl (by decide) (by decide) ?_
  refine .single h5 rfl (by decide) (by decide) ?_
  refine .single h6 rfl (by decide) (by decide) ?_
  exact .range hfirst h7 (by decide) .nil

end UnicodeDataTable

end AdaIdna
