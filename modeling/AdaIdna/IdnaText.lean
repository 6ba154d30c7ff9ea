/-
AdaIdna/IdnaText.lean

`parse_idna` of idna_table.py: reading IdnaMappingTable.txt.

A line has a code point or a range, a status, and a mapping if the status asks
for one, with semicolons between them and a comment behind.  A text in which
every line is a comment, blank, or spells an entry is read as these entries,
however the fields are padded (`parseIdna_unlines`).  It is not read at all
unless a comment names the version of Unicode (`getTable`).

An exception is `none`, and a line that is passed over gives no entry.
-/
import AdaIdna.IdnaMeaning
import AdaIdna.Lib.LineText

namespace AdaIdna

namespace IdnaTable

open Labels LineText TextScan

/-! ### The version -/

/-- `UNICODE_VERSION` -/
def unicodeVersion : List Char := "18.0.0".toList

def versionMark : List Char := "# Version: ".toList

/-- `(.*)` -/
def restOfLine : Pattern (List Char) :=
  fun s => some (s.takeWhile (· ≠ '\n'), s.dropWhile (· ≠ '\n'))

/-- `get_version`; without a match there is no group to return. -/
def getVersion (tableData : List Char) : Option (List Char) :=
  search (behind versionMark restOfLine) tableData

/-- `get_table`, once the file is there. -/
def getTable (tableData : List Char) : Option (List Char) :=
  if getVersion tableData = some unicodeVersion then some tableData else none

/-! ### The reader -/

def std3Prefix : List Char := "disallowed_STD3_".toList

/-- `status`, with the compatible readings of IDNA2003. -/
def readStatus (status : List Char) : List Char :=
  let status := if std3Prefix.isPrefixOf status then status.drop 16 else status
  if status = "deviation".toList then "valid".toList else status

/-- `mapping.get(status)` -/
def codeOf (status : List Char) : Option Code :=
  if status = "ignored".toList then some .ignored
  else if status = "valid".toList then some .valid
  else if status = "disallowed".toList then some .disallowed
  else if status = "mapped".toList then some .mapped
  else none

/-- `parts` -/
def partsOf (line : List Char) : List (List Char) :=
  ((line.splitOn ';').filter fun p => strip p ≠ []).map strip

/-- `mapped_seq` -/
def readSeq (code : Code) (parts : List (List Char)) : Option U32String :=
  if code = .mapped then (parts[2]?.map words).bind fun ws => ws.mapM (parseInt 16) else some []

/-- The entry that the parts of a line give, if its status is known. -/
def readParts (parts : List (List Char)) : Option (List Entry) := do
  let status ← parts[1]?
  match codeOf (readStatus status) with
  | none => some []
  | some code => do
    let cpRange ← (splitText ['.', '.'] (parts.getD 0 [])).mapM (parseInt 16)
    let seq ← readSeq code parts
    some [⟨cpRange.headD 0, cpRange.getLastD 0, code, seq⟩]

/-- `for line in table_data.split('\n')` -/
def readEntry (line : List Char) : Option (List Entry) :=
  if line.head? = some '#' ∨ ';' ∉ line then some []
  -- `line.index` raises if there is no comment
  else if '#' ∉ line then none
  else
    let parts := partsOf (line.takeWhile (· ≠ '#'))
    if parts = [] then some [] else readParts parts

/-- `parse_idna` -/
def parseIdna (tableData : List Char) : Option (List Entry) :=
  readLines readEntry (tableData.splitOn '\n')

variable {line text field t t' : List Char} {ls ls' parts fields ws : List (List Char)} {e : Entry}
  {entries : List Entry}

/-! ### What is spelled is read -/

theorem restOfLine_append {w post : List Char} (hw : '\n' ∉ w)
    (hpost : ∀ c ∈ post.head?, c = '\n') :
    restOfLine (w ++ post) = some (w, post) := by
  have hw' : ∀ c ∈ w, decide (c ≠ '\n') = true := by
    intro c hc
    rw [decide_eq_true_eq]
    rintro rfl
    exact hw hc
  have hstop : post.takeWhile (· ≠ '\n') = [] ∧ post.dropWhile (· ≠ '\n') = post := by
    cases post with
    | nil => exact ⟨rfl, rfl⟩
    | cons c post =>
      obtain rfl := hpost c rfl
      exact ⟨rfl, rfl⟩
  rw [restOfLine, List.takeWhile_append_of_pos hw', List.dropWhile_append_of_pos hw', hstop.1,
    hstop.2, List.append_nil]

/-- **The version is found**, and the text is read. -/
theorem getTable_of_marked (h : Marked versionMark unicodeVersion [] text) :
    getTable text = some text := by
  rw [getTable, if_pos]
  exact h.search_eq fun post hpost => restOfLine_append (by decide) hpost

/-- The names of a status. -/
def statusNames : List (String × Code) :=
  [("valid", .valid), ("ignored", .ignored), ("mapped", .mapped), ("disallowed", .disallowed),
    ("deviation", .valid), ("disallowed_STD3_valid", .valid), ("disallowed_STD3_mapped", .mapped)]

/-- The fields behind the status; a mapping is wanted for `mapped` only. -/
inductive SpellsSeq : Code → U32String → List (List Char) → Prop
  | mapped {seq : U32String} {ws rest : List (List Char)} {field : List Char} (hne : seq ≠ [])
      (hcodes : Numerals 16 ws seq) (hfield : SpellsWords ws field) :
      SpellsSeq .mapped seq (field :: rest)
  | other {code : Code} {rest : List (List Char)} (hcode : code ≠ .mapped) :
      SpellsSeq code [] rest

/-- A line that spells an entry: fields with blanks around them, and a comment. -/
def SpellsEntry (line : List Char) (e : Entry) : Prop :=
  ∃ codes codeField status statusField rest comment,
    line = join ';' (codeField :: statusField :: rest) ++ '#' :: comment ∧
    (∀ f ∈ codeField :: statusField :: rest, ';' ∉ f ∧ '#' ∉ f) ∧
    Around codes codeField ∧ SpellsRange 16 codes e.cpStart e.cpEnd ∧
    Around status.toList statusField ∧ (status, e.code) ∈ statusNames ∧
    SpellsSeq e.code e.seq rest

/-- The lines that spell some entries, with comments and lines without fields
between them. -/
inductive SpellsEntries : List (List Char) → List Entry → Prop
  | nil : SpellsEntries [] []
  | skipped {line : List Char} {ls : List (List Char)} {es : List Entry}
      (hline : line.head? = some '#' ∨ ';' ∉ line) (h : SpellsEntries ls es) :
      SpellsEntries (line :: ls) es
  | entry {line : List Char} {e : Entry} {ls : List (List Char)} {es : List Entry}
      (hline : SpellsEntry line e) (h : SpellsEntries ls es) :
      SpellsEntries (line :: ls) (e :: es)

theorem status_facts : ∀ p ∈ statusNames, codeOf (readStatus p.1.toList) = some p.2 ∧
    IsWord p.1.toList := by
  decide

/-- The fields that are not blank, without the blanks around them. -/
def strippedFields (fields : List (List Char)) : List (List Char) :=
  (fields.filter fun p => strip p ≠ []).map strip

theorem partsOf_join (hne : fields ≠ []) (h : ∀ f ∈ fields, ';' ∉ f) :
    partsOf (join ';' fields) = strippedFields fields := by
  rw [partsOf, splitOn_join hne h, strippedFields]

theorem strippedFields_cons (hstrip : strip field = t) (ht : t ≠ []) (fields : List (List Char)) :
    strippedFields (field :: fields) = t :: strippedFields fields := by
  rw [strippedFields, List.filter_cons_of_pos, List.map_cons, hstrip, strippedFields]
  rw [hstrip]
  exact decide_eq_true ht

theorem readParts_of_spells {status : String}
    (hcodes : SpellsRange 16 t e.cpStart e.cpEnd) (hstatus : (status, e.code) ∈ statusNames)
    (hseq : SpellsSeq e.code e.seq fields) :
    readParts (t :: status.toList :: strippedFields fields) = some [e] := by
  obtain ⟨ns, hns, hne, hhead, hlast⟩ := splitText_of_spellsRange hcodes
  have hcode : codeOf (readStatus status.toList) = some e.code := (status_facts _ hstatus).1
  have hread : readSeq e.code (t :: status.toList :: strippedFields fields) = some e.seq := by
    obtain ⟨cpStart, cpEnd, code, seq⟩ := e
    rw [readSeq]
    rcases hseq with ⟨hseq, hnumerals, hfield⟩ | hother
    · rename_i ws rest field
      have hwords : words (strip field) = ws := by rw [words_strip, words_of_spells hfield]
      have hnonempty : strip field ≠ [] := by
        intro hnil
        rw [hnil] at hwords
        subst hwords
        exact hseq (List.forall₂_nil_left_iff.mp hnumerals)
      rw [if_pos rfl, strippedFields_cons rfl hnonempty]
      show (some (words (strip field))).bind _ = _
      rw [hwords]
      exact mapM_parseInt hnumerals
    · rw [if_neg hother]
  rw [readParts]
  show (match codeOf (readStatus status.toList) with
    | none => _
    | some code => _) = _
  rw [hcode]
  dsimp only
  rw [List.getD_cons_zero, hns, hread]
  show some [Entry.mk (ns.headD 0) (ns.getLastD 0) e.code e.seq] = _
  rw [hhead, hlast]

theorem readEntry_of_spells (h : SpellsEntry line e) : readEntry line = some [e] := by
  obtain ⟨codes, codeField, status, statusField, rest, comment, rfl, hnot, hcodeField, hcodes,
    hstatusField, hstatus, hseq⟩ := h
  have hword : IsWord status.toList := (status_facts _ hstatus).2
  generalize hJ : join ';' (codeField :: statusField :: rest) = J
  have hcomment : '#' ∉ J := by
    rw [← hJ]
    intro hmem
    rcases mem_join hmem with heq | ⟨f, hf, hmem⟩
    · revert heq
      decide
    · exact (hnot f hf).2 hmem
  have hsep : ';' ∈ J := by
    rw [← hJ, join_cons_cons]
    exact List.mem_append_right _ List.mem_cons_self
  have hfirst : ¬ ((J ++ '#' :: comment).head? = some '#' ∨ ';' ∉ J ++ '#' :: comment) := by
    rintro (hhead | hnone)
    · rw [List.head?_append_of_ne_nil J (List.ne_nil_of_mem hsep)] at hhead
      exact hcomment (List.mem_of_mem_head? hhead)
    · exact hnone (List.mem_append_left _ hsep)
  have htake : (J ++ '#' :: comment).takeWhile (· ≠ '#') = J := by
    rw [List.takeWhile_append_of_pos, List.takeWhile_cons_of_neg (by simp), List.append_nil]
    intro c hc
    rw [decide_eq_true_eq]
    rintro rfl
    exact hcomment hc
  have hparts : partsOf J = codes :: status.toList :: strippedFields rest := by
    rw [← hJ, partsOf_join (List.cons_ne_nil _ _) fun f hf => (hnot f hf).1,
      strippedFields_cons (strip_of_around hcodeField hcodes.isWord.trimmed) hcodes.isWord.1,
      strippedFields_cons (strip_of_around hstatusField hword.trimmed) hword.1]
  rw [readEntry, if_neg hfirst, if_neg (not_not_intro (by simp)), htake]
  dsimp only
  rw [hparts, if_neg (List.cons_ne_nil _ _)]
  exact readParts_of_spells hcodes hstatus hseq

theorem readLines_of_spells (h : SpellsEntries ls entries) :
    readLines readEntry ls = some entries := by
  induction h with
  | nil => rfl
  | skipped hline _ ih =>
    rw [readLines_cons, readEntry, if_pos hline, ih]
    rfl
  | entry hline _ ih =>
    rw [readLines_cons, readEntry_of_spells hline, ih]
    rfl

/-- **A text that spells entries is read as these entries.** -/
theorem parseIdna_unlines (h : SpellsEntries ls entries) (hline : ∀ l ∈ ls, IsLine l) :
    parseIdna (unlines ls) = some entries := by
  have hlast : readLines readEntry [[]] = some [] := by decide
  rw [parseIdna, splitOn_unlines hline, readLines_append, readLines_of_spells h, hlast]
  simp

/-! ### A small table -/

def fewTable : List (List Char) :=
  ["# Mapping".toList, "# Version: 18.0.0".toList, [], "0041 ; mapped ; 0061 # A".toList,
    "0061..007A; valid # a..z".toList,
    "00AD ; ignored # 1.1".toList, "E0100..E01EF; ignored # 4.0".toList]

theorem spells_fewTable : SpellsEntries fewTable fewEntries := by
  have hA : SpellsEntry "0041 ; mapped ; 0061 # A".toList ⟨0x41, 0x41, .mapped, [0x61]⟩ := by
    refine ⟨"0041".toList, "0041 ".toList, "mapped", " mapped ".toList, [" 0061 ".toList],
      " A".toList, rfl, by decide, ⟨[], [' '], by decide, by decide, rfl⟩, .single (by decide),
      ⟨[' '], [' '], by decide, by decide, rfl⟩, by decide,
      .mapped (by decide) (.cons (by decide : Numeral 16 "0061".toList 0x61) .nil) ?_⟩
    exact IsWord.spellsWords (g := [' ']) (b := [' ']) (by decide) (by decide) (by decide)
  have hsmall : SpellsEntry "0061..007A; valid # a..z".toList ⟨0x61, 0x7A, .valid, []⟩ :=
    ⟨"0061..007A".toList, "0061..007A".toList, "valid", " valid ".toList, [], " a..z".toList, rfl,
      by decide, ⟨[], [], by decide, by decide, rfl⟩,
      .range (by decide : Numeral 16 "0061".toList 0x61)
        (by decide : Numeral 16 "007A".toList 0x7A),
      ⟨[' '], [' '], by decide, by decide, rfl⟩, by decide, .other (by decide)⟩
  have hhyphen : SpellsEntry "00AD ; ignored # 1.1".toList ⟨0xAD, 0xAD, .ignored, []⟩ :=
    ⟨"00AD".toList, "00AD ".toList, "ignored", " ignored ".toList, [], " 1.1".toList, rfl,
      by decide, ⟨[], [' '], by decide, by decide, rfl⟩, .single (by decide),
      ⟨[' '], [' '], by decide, by decide, rfl⟩, by decide, .other (by decide)⟩
  have hselectors : SpellsEntry "E0100..E01EF; ignored # 4.0".toList
      ⟨0xE0100, 0xE01EF, .ignored, []⟩ :=
    ⟨"E0100..E01EF".toList, "E0100..E01EF".toList, "ignored", " ignored ".toList, [],
      " 4.0".toList, rfl, by decide, ⟨[], [], by decide, by decide, rfl⟩,
      .range (by decide : Numeral 16 "E0100".toList 0xE0100)
        (by decide : Numeral 16 "E01EF".toList 0xE01EF),
      ⟨[' '], [' '], by decide, by decide, rfl⟩, by decide, .other (by decide)⟩
  exact .skipped (.inl rfl) (.skipped (.inl rfl) (.skipped (.inr (by decide))
    (.entry hA (.entry hsmall (.entry hhyphen (.entry hselectors .nil))))))

theorem marked_fewTable : Marked versionMark unicodeVersion [] (unlines fewTable) :=
  ⟨"# Mapping\n".toList, '\n' :: unlines (fewTable.drop 2), rfl, by decide, by simp⟩

theorem isLine_fewTable : ∀ l ∈ fewTable, IsLine l := by decide

end IdnaTable

end AdaIdna
