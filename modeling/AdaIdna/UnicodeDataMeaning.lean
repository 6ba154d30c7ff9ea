/-
AdaIdna/UnicodeDataMeaning.lean

The generated normalization tables mean what the Unicode data says.

Read by the table store, the tables have the layout that the normalization
code relies on (`exists_tables`), and give the full canonical decomposition
of a code point with a canonical mapping and nothing for any other, its
combining class, and for a pair of code points the primary composite that has
it as its mapping, if there is one (`normalization_tables_exact`).
-/
import AdaIdna.UnicodeDataRows
import AdaIdna.Lib.Replacement
import AdaIdna.TableShape

namespace AdaIdna

namespace UnicodeDataTable

open Multistage

variable {ucd : UnicodeData} {exclusions : Finset ℕ} {limit cp a b c k n : ℕ} {m s : U32String}
  {r : Layout}

/-! ### Unicode data -/

/-- Unicode data: dictionaries of code points, with mappings that are not
empty, and none for Hangul syllables. -/
structure UnicodeData.WellFormed (ucd : UnicodeData) : Prop where
  nodup : (ucd.canonical.map Prod.fst).Nodup
  lt : ∀ e ∈ ucd.canonical, e.1 < codeSpace
  ne_nil : ∀ e ∈ ucd.canonical, e.2 ≠ []
  not_hangul : ∀ e ∈ ucd.canonical, ¬ isHangulS e.1

/-- `s` is the full canonical decomposition of `cp`: canonical mappings are
applied until no character has one. -/
def IsFullDecomposition (ucd : UnicodeData) (cp : ℕ) (s : U32String) : Prop :=
  Replacement.FullExpansion (ucd.canonical.lookup ·) cp s

/-- `c` is a primary composite that is not excluded, and `a`, `b` is its
canonical mapping. -/
def IsPrimary (ucd : UnicodeData) (exclusions : Finset ℕ) (a b c : ℕ) : Prop :=
  (c, [a, b]) ∈ ucd.canonical ∧ c ∉ exclusions ∧ cccOf ucd c = 0 ∧ cccOf ucd a = 0

instance : Decidable (IsPrimary ucd exclusions a b c) :=
  inferInstanceAs (Decidable (_ ∧ _ ∧ _ ∧ _))

/-- No pair is the mapping of two primary composites. -/
def DistinctPairs (ucd : UnicodeData) (exclusions : Finset ℕ) : Prop :=
  ∀ a b c c', IsPrimary ucd exclusions a b c → IsPrimary ucd exclusions a b c' → c = c'

theorem lookup_eq_some_iff {α β : Type} [DecidableEq α] {l : List (α × β)} {k : α} {v : β}
    (h : (l.map Prod.fst).Nodup) : l.lookup k = some v ↔ (k, v) ∈ l := by
  induction l with
  | nil => exact ⟨nofun, nofun⟩
  | cons e l ih =>
    obtain ⟨k', v'⟩ := e
    rw [List.map_cons, List.nodup_cons] at h
    rw [List.lookup_cons, List.mem_cons, Prod.mk.injEq]
    by_cases hk : k = k'
    · subst hk
      have hnot : (k, v) ∉ l := fun hmem => h.1 (List.mem_map.mpr ⟨(k, v), hmem, rfl⟩)
      rw [beq_self_eq_true, Option.some.injEq]
      exact ⟨fun h => .inl ⟨rfl, h.symm⟩, fun h => (h.resolve_right hnot).2.symm⟩
    · rw [beq_false_of_ne hk]
      exact (ih h.2).trans ⟨.inr, fun h => h.resolve_left fun h => hk h.1⟩

/-- `full_decomposition` expands by the mappings it looks up. -/
theorem fullDecomposition_eq (ucd : UnicodeData) (compatibility : Bool) (limit cp : ℕ) :
    fullDecomposition ucd compatibility limit cp
      = Replacement.expand (mappingOf ucd compatibility) limit cp := by
  induction limit generalizing cp with
  | zero => rfl
  | succ limit ih =>
    rw [fullDecomposition, Replacement.expand, funext ih]
    rcases mappingOf ucd compatibility cp with - | m
    · rfl
    · rfl

theorem mappingOf_false (ucd : UnicodeData) :
    mappingOf ucd false = (ucd.canonical.lookup ·) := by
  funext cp
  exact Option.or_none

/-! ### Decompositions -/

/-- What is stored for a code point, and its flags. -/
def storedOf (ucd : UnicodeData) (limit cp : ℕ) : U32String × ℕ :=
  (decompositionOf ucd limit cp).getD ([], 0)

def decompositionEntry (ucd : UnicodeData) (limit cp offset : ℕ) : ℕ :=
  (offset <<< 2) ||| (storedOf ucd limit cp).2

theorem hangul_iff : (hangulSbase ≤ cp ∧ cp < hangulSbase + hangulScount) ↔ isHangulS cp := Iff.rfl

/-- A code point with a canonical mapping has its full decomposition stored,
with bit 0 of the flags clear. -/
theorem storedOf_of_canonical (hw : ucd.WellFormed) (hm : ucd.canonical.lookup cp = some m)
    (hsome : (decompositionOf ucd limit cp).isSome) :
    fullDecomposition ucd false limit cp = some (storedOf ucd limit cp).1 ∧
      ((storedOf ucd limit cp).2 = 0 ∨ (storedOf ucd limit cp).2 = 2) := by
  have hs : ¬ isHangulS cp := hw.not_hangul _ ((lookup_eq_some_iff hw.nodup).mp hm)
  have heq : decompositionOf ucd limit cp = (do
      let decomposition ← fullDecomposition ucd false limit cp
      let compatible ← fullDecomposition ucd true limit cp
      some (decomposition, if compatible ≠ decomposition then 2 else 0)) := by
    rw [decompositionOf, if_neg (hangul_iff.not.mpr hs), hm]
    rfl
  obtain ⟨d, hd⟩ := Option.isSome_iff_exists.mp hsome
  rw [storedOf, hd, Option.getD_some]
  rw [heq] at hd
  obtain ⟨decomposition, hdec, hd⟩ := Option.bind_eq_some_iff.mp hd
  obtain ⟨compatible, -, hd⟩ := Option.bind_eq_some_iff.mp hd
  cases hd
  refine ⟨hdec, ?_⟩
  show (if compatible ≠ decomposition then 2 else 0) = 0 ∨
    (if compatible ≠ decomposition then 2 else 0) = 2
  split
  · exact .inr rfl
  · exact .inl rfl

/-- Any other has nothing stored or bit 0 set. -/
theorem storedOf_of_not_canonical (hm : ucd.canonical.lookup cp = none) :
    (storedOf ucd limit cp).1 = [] ∧ (storedOf ucd limit cp).2 = 0 ∨
      (storedOf ucd limit cp).2 = 1 := by
  rw [storedOf, decompositionOf, hm]
  split
  · exact .inl ⟨rfl, rfl⟩
  · split
    · rename_i h
      cases h
    · split
      · rcases fullDecomposition ucd true limit cp with - | decomposition
        · exact .inl ⟨rfl, rfl⟩
        · exact .inr rfl
      · exact .inl ⟨rfl, rfl⟩

theorem storedOf_flags_lt (ucd : UnicodeData) (limit cp : ℕ) : (storedOf ucd limit cp).2 < 4 := by
  have h0 : 0 < 4 := by decide
  have h1 : 1 < 4 := by decide
  rw [storedOf, decompositionOf]
  split
  · exact h0
  · split
    · rcases fullDecomposition ucd false limit cp with - | decomposition
      · exact h0
      · rcases fullDecomposition ucd true limit cp with - | compatible
        · exact h0
        · show (if compatible ≠ decomposition then 2 else 0) < 4
          split <;> decide
    · split
      · rcases fullDecomposition ucd true limit cp with - | decomposition
        · exact h0
        · exact h1
      · exact h0

theorem decompositionEntry_eq (ucd : UnicodeData) (limit cp offset : ℕ) :
    decompositionEntry ucd limit cp offset = 4 * offset + (storedOf ucd limit cp).2 := by
  rw [decompositionEntry, ← Nat.shiftLeft_add_eq_or_of_lt (storedOf_flags_lt ucd limit cp),
    Nat.shiftLeft_eq, Nat.mul_comm]

/-- The loop of `build_decomposition`. -/
theorem laid_of_foldlM (hn : n ≤ codeSpace)
    (h : (List.range n).foldlM (decompositionStep ucd limit) .empty = some r) :
    (∀ cp < n, (decompositionOf ucd limit cp).isSome) ∧
      Laid (fun cp => (storedOf ucd limit cp).1) (decompositionEntry ucd limit) n r := by
  induction n generalizing r with
  | zero =>
    cases h
    exact ⟨fun cp hcp => absurd hcp (Nat.not_lt_zero cp), laid_empty⟩
  | succ n ih =>
    rw [List.range_succ, List.foldlM_append] at h
    obtain ⟨r', hr', h⟩ := Option.bind_eq_some_iff.mp h
    obtain ⟨hsome, hlaid⟩ := ih (Nat.le_of_succ_le hn) hr'
    rw [List.foldlM_cons] at h
    obtain ⟨r'', h, hr''⟩ := Option.bind_eq_some_iff.mp h
    cases hr''
    rw [decompositionStep] at h
    obtain ⟨d, hd, rfl⟩ := Option.map_eq_some_iff.mp h
    have hstored : storedOf ucd limit n = d := by
      rw [storedOf, hd, Option.getD_some]
    constructor
    · intro cp hcp
      rcases Nat.lt_succ_iff_lt_or_eq.mp hcp with hcp | rfl
      · exact hsome cp hcp
      · rw [hd]
        rfl
    · have hadd := hlaid.add hn
      rw [decompositionEntry, hstored] at hadd
      exact hadd

/-- The arrays and constants of the table store are the generated ones. -/
structure Holds (D : TableData) (decomposition : Sections) (ccc : List ℕ × List ℕ)
    (composition : Sections) : Prop where
  decompositionIndex : ∀ i v, decomposition.index[i]? = some v → D.decompositionIndex i = v
  decompositionBlock : ∀ i v, decomposition.block[i]? = some v → D.decompositionBlockFlat i = v
  decompositionData : ∀ i v, decomposition.data[i]? = some v → D.decompositionData i = v
  decompositionDataSize : D.decompositionDataSize = decomposition.data.length
  kDecompBlockRows : D.kDecompBlockRows = decomposition.block.length / 257
  cccIndex : ∀ i v, ccc.1[i]? = some v → D.cccIndex i = v
  cccBlock : ∀ i v, ccc.2[i]? = some v → D.cccBlockFlat i = v
  kCccBlockRows : D.kCccBlockRows = ccc.2.length / 256
  compositionIndex : ∀ i v, composition.index[i]? = some v → D.compositionIndex i = v
  compositionBlock : ∀ i v, composition.block[i]? = some v → D.compositionBlockFlat i = v
  compositionData : ∀ i v, composition.data[i]? = some v → D.compositionData i = v
  compositionDataSize : D.compositionDataSize = composition.data.length
  kCompBlockRows : D.kCompBlockRows = composition.block.length / 257

variable {D : TableData} {T : Tables} {d p : Sections} {k : List ℕ × List ℕ}

/-- The arrays that are returned if the data fits. -/
theorem of_sections {tooLarge : Prop} [Decidable tooLarge] {data : List ℕ}
    {multistage : Option (List ℕ × List ℕ)}
    (h : (if tooLarge then none
      else multistage.bind fun (index, block) => some (Sections.mk index block data)) = some d) :
    multistage = some (d.index, d.block) ∧ d.data = data := by
  split at h
  · cases h
  · obtain ⟨⟨index, block⟩, hm, h⟩ := Option.bind_eq_some_iff.mp h
    cases h
    exact ⟨hm, rfl⟩

/-- What `build_decomposition` checks, and what it returns. -/
theorem of_buildDecomposition (h : buildDecomposition ucd limit = some d) :
    ∃ r, (∀ cp < codeSpace, (decompositionOf ucd limit cp).isSome) ∧
      Laid (fun cp => (storedOf ucd limit cp).1) (decompositionEntry ucd limit) codeSpace r ∧
      buildMultistage (r.entries ++ [r.data.length <<< 2]) 257 (r.hasData.map not)
        = some (d.index, d.block) ∧ d.data = r.data := by
  have hn : maxCodePoint + 1 = codeSpace := rfl
  rw [buildDecomposition, hn] at h
  obtain ⟨r, hr, h⟩ := Option.bind_eq_some_iff.mp h
  obtain ⟨hsome, hlaid⟩ := laid_of_foldlM le_rfl hr
  exact ⟨r, hsome, hlaid, of_sections h⟩

/-- **The entry of a code point in the decomposition table**, and the offset
in the next. -/
theorem decomposition_read (hd : buildDecomposition ucd limit = some d) (h : Holds D d k p)
    (hc : c < codeSpace) :
    ((storedOf ucd limit c).1 = [] ∧ D.decomposition c 0 = 0 ∧ D.decomposition c 1 = 0) ∨
      (D.decomposition c 0 = 4 * offset (fun cp => (storedOf ucd limit cp).1) 1 c
          + (storedOf ucd limit c).2 ∧
        D.decomposition c 1 / 4 = offset (fun cp => (storedOf ucd limit cp).1) 1 (c + 1)) := by
  obtain ⟨r, -, hlaid, hm, -⟩ := of_buildDecomposition hd
  have hrow : ∀ k, D.decomposition c k = entryAt D.decompositionIndex D.decompositionBlockFlat
      (d.block.length / 257) 257 c k := by
    intro k
    rw [← h.kDecompBlockRows]
    rfl
  rw [hrow, hrow]
  refine (hlaid.read hm h.decompositionIndex h.decompositionBlock hc).imp ?_ fun hentry => ?_
  · exact fun ⟨hnil, hzero⟩ => ⟨hnil, hzero 0 zero_le_one, hzero 1 le_rfl⟩
  · rw [hentry 0 zero_le_one, hentry 1 le_rfl, Nat.add_zero, if_pos hc, decompositionEntry_eq]
    refine ⟨rfl, ?_⟩
    split
    · rw [decompositionEntry_eq]
      have := storedOf_flags_lt ucd limit (c + 1)
      omega
    · rw [hlaid.length_data, Nat.shiftLeft_eq, show c + 1 = codeSpace by omega]
      exact Nat.mul_div_cancel _ (by decide)

/-- An entry with an odd flag counts for nothing. -/
theorem tableDecompLength_eq {base length flags : ℕ} (h0 : T.decomposition c 0 = 4 * base + flags)
    (hflags : flags < 4) (h1 : T.decomposition c 1 / 4 = base + length) :
    tableDecompLength T c = if flags % 2 = 1 then 0 else length := by
  have hbase : (4 * base + flags) / 4 = base := by omega
  have hbit : (4 * base + flags) % 2 = flags % 2 := by omega
  rw [tableDecompLength, h0, h1, hbase, hbit, Nat.add_sub_cancel_left]
  by_cases hodd : flags % 2 = 1
  · rw [if_pos hodd]
    split
    · rfl
    · omega
  · rw [if_neg hodd, if_neg fun h => hodd h.2]

/-- **What the row lookup yields**: the stored decomposition of a code point
with a canonical mapping, and nothing for any other. -/
theorem storedDecomp_eq (hw : ucd.WellFormed) (hd : buildDecomposition ucd limit = some d)
    (h : Holds T.toTableData d k p) (hc : c < codeSpace) :
    storedDecomp T c
      = if ucd.canonical.lookup c = none then [] else (storedOf ucd limit c).1 := by
  obtain ⟨r, hsome, hlaid, -, hdata⟩ := of_buildDecomposition hd
  have hread := decomposition_read hd h hc
  have hflags := storedOf_flags_lt ucd limit c
  rw [offset_succ] at hread
  rw [storedDecomp, canonicalDecompLength, if_neg (not_le.mpr hc)]
  rcases hm : ucd.canonical.lookup c with - | m
  · -- nothing but Hangul, compatibility mappings and empty entries is left
    rw [if_pos rfl]
    suffices hlen : tableDecompLength T c = 0 by
      rw [hlen, ite_self]
      rfl
    rcases hread with ⟨-, h0, h1⟩ | ⟨h0, h1⟩
    · rw [tableDecompLength, h0, h1]
      rfl
    · rw [tableDecompLength_eq h0 hflags h1]
      rcases storedOf_of_not_canonical hm with ⟨hnil, -⟩ | hone
      · rw [hnil, List.length_nil, ite_self]
      · rw [hone]
        rfl
  · have hs : ¬ isHangulS c := hw.not_hangul _ ((lookup_eq_some_iff hw.nodup).mp hm)
    obtain ⟨hfull, hclear⟩ := storedOf_of_canonical hw hm (hsome c hc)
    have hne : (storedOf ucd limit c).1 ≠ [] := by
      rw [fullDecomposition_eq, mappingOf_false] at hfull
      refine Replacement.ne_nil_of_expand (fun cp m hcp => ?_) hfull
      exact hw.ne_nil _ ((lookup_eq_some_iff hw.nodup).mp hcp)
    obtain ⟨h0, h1⟩ := hread.resolve_left fun hnil => hne hnil.1
    have hbase : T.decomposition c 0 / 4
        = offset (fun cp => (storedOf ucd limit cp).1) 1 c := by omega
    rw [if_neg hs, if_neg (Option.some_ne_none m), tableDecompLength_eq h0 hflags h1,
      if_neg (by omega), hbase]
    -- the data of the code point, one by one
    apply List.ext_getElem (length_decompositionSlice _ _)
    intro i hi hi'
    have hget := hlaid.getElem?_data hc hi'
    rw [← hdata, List.getElem?_eq_getElem hi'] at hget
    rw [← h.decompositionData _ _ hget]
    simp [decompositionSlice]

/-! ### Combining classes -/

/-- A block whose row is shared has class 0 throughout. -/
theorem cccOf_of_cccIsEmpty (h : cccIsEmpty ucd (c / 256) = true) (hc : c < codeSpace) :
    cccOf ucd c = 0 := by
  have hmod := Nat.mod_lt c (show 0 < 256 by decide)
  have hsplit := Nat.div_add_mod c 256
  rw [cccIsEmpty, Bool.not_eq_true', List.any_eq_false] at h
  have hget : (((cccEntries ucd).drop ((c / 256) <<< 8)).take
      ((c / 256 + 1) <<< 8 - (c / 256) <<< 8))[c % 256]? = some (cccOf ucd c) := by
    have hwidth : (c / 256 + 1) <<< 8 - (c / 256) <<< 8 = 256 := by
      rw [Nat.shiftLeft_eq, Nat.shiftLeft_eq]
      omega
    rw [hwidth, List.getElem?_take_of_lt hmod, List.getElem?_drop, Nat.shiftLeft_eq, Nat.mul_comm,
      hsplit]
    exact Buffer.getElem?_map_range hc
  simpa using h _ (List.mem_of_getElem? hget)

/-- **`get_ccc` yields the combining class.** -/
theorem getCcc_eq (hk : buildCcc ucd = some k) (h : Holds T.toTableData d k p)
    (hc : c < codeSpace) : getCcc T c = cccOf ucd c := by
  have hlen : 256 * blockCount + 256 ≤ (cccEntries ucd).length + 256 := by
    rw [cccEntries, List.length_map, List.length_range]
    exact le_rfl
  have hb : c / 256 < blockCount := (Nat.div_lt_iff_lt_mul (by decide)).mpr hc
  have hread := read_buildMultistage hk hlen h.cccIndex h.cccBlock hc
    (show c % 256 + 0 < 256 from Nat.mod_lt c (by decide))
  have hget : (cccEntries ucd).getD (c + 0) 0 = cccOf ucd c := by
    rw [Nat.add_zero, List.getD_eq_getElem?_getD, cccEntries,
      Buffer.getElem?_map_range (show c < maxCodePoint + 1 from hc), Option.getD_some]
  have hempty : ((List.range blockCount).map (cccIsEmpty ucd)).getD (c / 256) false
      = cccIsEmpty ucd (c / 256) := by
    rw [List.getD_eq_getElem?_getD, Buffer.getElem?_map_range hb, Option.getD_some]
  rw [← h.kCccBlockRows, hget, hempty, entryAt, Nat.add_zero] at hread
  rw [getCcc, if_neg (not_le.mpr hc), TableData.cccBlockRow, kCccBlockCols, hread]
  split
  · rename_i hzero
    exact (cccOf_of_cccIsEmpty hzero hc).symm
  · rfl

/-! ### Compositions -/

theorem pairOf_eq_some_iff {item : ℕ × U32String} {q : ℕ × ℕ} :
    pairOf ucd exclusions a item = some q ↔
      item = (q.2, [a, q.1]) ∧ q.2 ∉ exclusions ∧ cccOf ucd q.2 = 0 ∧ cccOf ucd a = 0 := by
  obtain ⟨cp, mapping⟩ := item
  obtain ⟨second, composite⟩ := q
  rw [pairOf, Prod.mk.injEq]
  split
  · rename_i head second' heq
    dsimp only at heq
    subst heq
    split
    · rename_i hor
      refine ⟨nofun, ?_⟩
      rintro ⟨⟨rfl, heq⟩, hexcl, hcomposite, hfirst⟩
      cases heq
      rcases hor with hor | hor | hor
      · exact absurd hor hexcl
      · exact absurd hcomposite hor
      · exact absurd hfirst hor
    · rename_i hnot
      rw [not_or, not_or, not_not, not_not] at hnot
      split
      · rename_i hhead
        subst hhead
        constructor
        · rintro heq
          cases heq
          exact ⟨⟨rfl, rfl⟩, hnot⟩
        · rintro ⟨⟨rfl, heq⟩, -⟩
          cases heq
          rfl
      · rename_i hhead
        refine ⟨nofun, ?_⟩
        rintro ⟨⟨rfl, heq⟩, -⟩
        cases heq
        exact absurd rfl hhead
  · rename_i hshape
    refine ⟨nofun, ?_⟩
    rintro ⟨⟨rfl, rfl⟩, -⟩
    exact absurd rfl (hshape _ _)

/-- The pairs of a first code point. -/
theorem mem_pairsOf : (b, c) ∈ pairsOf ucd exclusions a ↔ IsPrimary ucd exclusions a b c := by
  rw [pairsOf, List.mem_filterMap]
  constructor
  · rintro ⟨item, hitem, h⟩
    obtain ⟨rfl, hrest⟩ := pairOf_eq_some_iff.mp h
    exact ⟨hitem, hrest⟩
  · rintro ⟨hitem, hrest⟩
    exact ⟨_, hitem, pairOf_eq_some_iff.mpr ⟨rfl, hrest⟩⟩

/-- The pairs in the order in which they are stored. -/
def sortedPairs (ucd : UnicodeData) (exclusions : Finset ℕ) (a : ℕ) : List (ℕ × ℕ) :=
  (pairsOf ucd exclusions a).mergeSort pairLe

theorem mem_sortedPairs :
    (b, c) ∈ sortedPairs ucd exclusions a ↔ IsPrimary ucd exclusions a b c :=
  List.mem_mergeSort.trans mem_pairsOf

/-- The second code points ascend if no pair has two composites. -/
theorem pairwise_sortedPairs (hw : ucd.WellFormed)
    (hdistinct : DistinctPairs ucd exclusions) :
    (sortedPairs ucd exclusions a).Pairwise fun q q' => q.1 < q'.1 := by
  have hnodup : (sortedPairs ucd exclusions a).Nodup := by
    rw [sortedPairs, (List.mergeSort_perm _ _).nodup_iff]
    refine hw.nodup.of_map.filterMap fun item item' q hq hq' => ?_
    rw [(pairOf_eq_some_iff.mp hq).1, (pairOf_eq_some_iff.mp hq').1]
  have hsorted : (sortedPairs ucd exclusions a).Pairwise fun q q' => pairLe q q' = true := by
    apply List.pairwise_mergeSort
    · intro q q' q'' h h'
      simp only [pairLe, decide_eq_true_eq] at *
      omega
    · intro q q'
      simp only [pairLe, Bool.or_eq_true, decide_eq_true_eq]
      omega
  refine (hsorted.and hnodup).imp_of_mem fun {q q'} hq hq' hrel => ?_
  obtain ⟨b, c⟩ := q
  obtain ⟨b', c'⟩ := q'
  simp only [pairLe, decide_eq_true_eq] at hrel
  rcases hrel.1 with hlt | ⟨rfl, -⟩
  · exact hlt
  · exact absurd (by rw [hdistinct a b c c' (mem_sortedPairs.mp hq) (mem_sortedPairs.mp hq')])
      hrel.2

theorem length_flatten_pairs (l : List (ℕ × ℕ)) :
    (l.flatMap fun q => [q.1, q.2]).length = 2 * l.length := by
  rw [List.length_flatMap]
  simp [Nat.mul_comm]

/-- Pairs one after another. -/
theorem getElem?_flatten_pairs (l : List (ℕ × ℕ)) (i : ℕ) :
    (l.flatMap fun q => [q.1, q.2])[2 * i]? = l[i]?.map Prod.fst ∧
      (l.flatMap fun q => [q.1, q.2])[2 * i + 1]? = l[i]?.map Prod.snd := by
  induction l generalizing i with
  | nil => exact ⟨rfl, rfl⟩
  | cons q l ih =>
    cases i with
    | zero => exact ⟨rfl, rfl⟩
    | succ i => exact ih i

theorem compositionOf_eq (ucd : UnicodeData) (exclusions : Finset ℕ) (a : ℕ) :
    compositionOf ucd exclusions a = (sortedPairs ucd exclusions a).flatMap fun q => [q.1, q.2] :=
  rfl

/-- The loop of `build_composition`. -/
theorem laid_foldl (ucd : UnicodeData) (exclusions : Finset ℕ) (hn : n ≤ codeSpace) :
    Laid (compositionOf ucd exclusions) (fun _ offset => offset) n
      ((List.range n).foldl (compositionStep ucd exclusions) .empty) := by
  induction n with
  | zero => exact laid_empty
  | succ n ih =>
    rw [List.range_succ, List.foldl_append, List.foldl_cons, List.foldl_nil, compositionStep]
    exact (ih (Nat.le_of_succ_le hn)).add hn

/-- What `build_composition` returns. -/
theorem of_buildComposition (h : buildComposition ucd exclusions = some p) :
    ∃ r, Laid (compositionOf ucd exclusions) (fun _ offset => offset) codeSpace r ∧
      buildMultistage (r.entries ++ [r.data.length]) 257 (r.hasData.map not)
        = some (p.index, p.block) ∧ p.data = r.data := by
  have hn : maxCodePoint + 1 = codeSpace := rfl
  have hlaid := laid_foldl ucd exclusions (le_refl codeSpace)
  rw [buildComposition, hn] at h
  generalize (List.range codeSpace).foldl (compositionStep ucd exclusions) .empty = r at h hlaid
  exact ⟨r, hlaid, of_sections h⟩

/-- **The row of a code point** in the composition table holds its pairs. -/
theorem composition_row (hp : buildComposition ucd exclusions = some p) (h : Holds D d k p)
    (hc : c < codeSpace) :
    D.composition c 1 = D.composition c 0 + 2 * (sortedPairs ucd exclusions c).length ∧
      D.composition c 1 ≤ D.compositionDataSize ∧
      ∀ i q, (sortedPairs ucd exclusions c)[i]? = some q →
        D.compositionData (D.composition c 0 + 2 * i) = q.1 ∧
        D.compositionData (D.composition c 0 + 2 * i + 1) = q.2 := by
  obtain ⟨r, hlaid, hm, hdata⟩ := of_buildComposition hp
  have hrow : ∀ k, D.composition c k = entryAt D.compositionIndex D.compositionBlockFlat
      (p.block.length / 257) 257 c k := by
    intro k
    rw [← h.kCompBlockRows]
    rfl
  have hlen := length_flatten_pairs (sortedPairs ucd exclusions c)
  rw [← compositionOf_eq] at hlen
  rw [hrow, hrow]
  rcases hlaid.read hm h.compositionIndex h.compositionBlock hc with ⟨hnil, hzero⟩ | hentry
  · have hempty : sortedPairs ucd exclusions c = [] := by
      rw [hnil, List.length_nil] at hlen
      exact List.length_eq_zero_iff.mp (by omega)
    rw [hzero 0 zero_le_one, hzero 1 le_rfl, hempty]
    exact ⟨rfl, Nat.zero_le _, nofun⟩
  · have hnext : (if c + 1 < codeSpace then offset (compositionOf ucd exclusions) 1 (c + 1)
        else r.data.length) = offset (compositionOf ucd exclusions) 1 (c + 1) := by
      split
      · rfl
      · rw [hlaid.length_data, show c + 1 = codeSpace by omega]
    have hfirst : entryAt D.compositionIndex D.compositionBlockFlat (p.block.length / 257) 257 c 0
        = offset (compositionOf ucd exclusions) 1 c := (hentry 0 zero_le_one).trans (if_pos hc)
    rw [hfirst, hentry 1 le_rfl, hnext, offset_succ, hlen]
    refine ⟨rfl, ?_, fun i q hq => ?_⟩
    · rw [h.compositionDataSize, hdata, hlaid.length_data, ← hlen, ← offset_succ]
      exact offset_mono hc
    · have hi : i < (sortedPairs ucd exclusions c).length := (List.getElem?_eq_some_iff.mp hq).1
      obtain ⟨hfst, hsnd⟩ := getElem?_flatten_pairs (sortedPairs ucd exclusions c) i
      rw [← compositionOf_eq, hq, Option.map_some] at hfst hsnd
      constructor
      · apply h.compositionData
        rw [hdata, hlaid.getElem?_data hc (by omega), hfst]
      · apply h.compositionData
        rw [hdata, Nat.add_assoc, hlaid.getElem?_data hc (by omega), hsnd]

/-- The pairs of a row are those of the primary composites. -/
theorem isPair_iff (hp : buildComposition ucd exclusions = some p) (h : Holds T.toTableData d k p)
    (ha : a < codeSpace) : IsPair T a b c ↔ IsPrimary ucd exclusions a b c := by
  obtain ⟨hlen, -, hrow⟩ := composition_row hp h ha
  rw [IsPair, and_iff_right ha, ← mem_sortedPairs, hlen, List.mem_iff_getElem?]
  constructor
  · rintro ⟨i, hi, hb, hc⟩
    refine ⟨i, ?_⟩
    have hi : i < (sortedPairs ucd exclusions a).length := by omega
    obtain ⟨hfst, hsnd⟩ := hrow i _ (List.getElem?_eq_getElem hi)
    rw [List.getElem?_eq_getElem hi, ← hb, ← hc, hfst, hsnd]
  · rintro ⟨i, hq⟩
    obtain ⟨hi, -⟩ := List.getElem?_eq_some_iff.mp hq
    exact ⟨i, by omega, hrow i _ hq⟩

/-! ### The tables as a whole -/

/-- **The layout that the normalization code relies on** is what the generator
builds. -/
theorem exists_tables (hw : ucd.WellFormed)
    (hdistinct : DistinctPairs ucd exclusions)
    (hd : buildDecomposition ucd limit = some d) (hp : buildComposition ucd exclusions = some p)
    (h : Holds D d k p) (hlow : D.idnaLowRangeEnd ≤ codeSpace)
    (hhigh : D.idnaHighIgnoredEnd ≤ codeSpace) (hdir : ∀ i < D.dirTableCount, D.dirValue i < 24) :
    ∃ T : Tables, T.toTableData = D := by
  obtain ⟨r, -, hlaid, -, hdata⟩ := of_buildDecomposition hd
  refine ⟨⟨D, hlow, hhigh, fun c hc => ?_, fun c hc => ?_, fun c hc => ?_, fun c hc => ?_,
    fun c hc i hi => ?_, fun c hc i hi => ?_, hdir⟩, rfl⟩
  · have hflags := storedOf_flags_lt ucd limit c
    rcases decomposition_read hd h hc with ⟨-, h0, h1⟩ | ⟨h0, h1⟩
    · rw [h0, h1]
    · rw [h0, h1, offset_succ]
      omega
  · rcases decomposition_read hd h hc with ⟨-, -, h1⟩ | ⟨-, h1⟩
    · rw [h1]
      exact Nat.zero_le _
    · rw [h1, h.decompositionDataSize, hdata, hlaid.length_data]
      exact offset_mono hc
  · exact (composition_row hp h hc).2.1
  · exact ⟨_, (composition_row hp h hc).1⟩
  · obtain ⟨hlen, -, hrow⟩ := composition_row hp h hc
    have hi' : i + 1 < (sortedPairs ucd exclusions c).length := by omega
    obtain ⟨hfst, -⟩ := hrow i _ (List.getElem?_eq_getElem (Nat.lt_of_succ_lt hi'))
    obtain ⟨hnext, -⟩ := hrow (i + 1) _ (List.getElem?_eq_getElem hi')
    rw [hfst, show D.composition c 0 + 2 * i + 2 = D.composition c 0 + 2 * (i + 1) by ring, hnext]
    exact List.pairwise_iff_getElem.mp (pairwise_sortedPairs hw hdistinct) i (i + 1) _ _
      (Nat.lt_succ_self i)
  · obtain ⟨hlen, -, hrow⟩ := composition_row hp h hc
    have hi' : i < (sortedPairs ucd exclusions c).length := by omega
    obtain ⟨-, hsnd⟩ := hrow i _ (List.getElem?_eq_getElem hi')
    rw [hsnd]
    exact hw.lt _ (mem_sortedPairs.mp (List.getElem_mem hi')).1

/-- **The generated normalization tables mean what the Unicode data says.** -/
theorem normalization_tables_exact (hw : ucd.WellFormed)
    (hdistinct : DistinctPairs ucd exclusions)
    (hd : buildDecomposition ucd limit = some d) (hk : buildCcc ucd = some k)
    (hp : buildComposition ucd exclusions = some p) (h : Holds D d k p)
    (hlow : D.idnaLowRangeEnd ≤ codeSpace) (hhigh : D.idnaHighIgnoredEnd ≤ codeSpace)
    (hdir : ∀ i < D.dirTableCount, D.dirValue i < 24) :
    ∃ T : Tables, T.toTableData = D ∧ ∀ cp < codeSpace,
      (ucd.canonical.lookup cp = none → storedDecomp T cp = []) ∧
      (ucd.canonical.lookup cp ≠ none → ∀ s, IsFullDecomposition ucd cp s ↔ storedDecomp T cp = s) ∧
      getCcc T cp = cccOf ucd cp ∧
      ∀ second composite,
        findPair T cp second = some composite ↔ IsPrimary ucd exclusions cp second composite := by
  obtain ⟨T, rfl⟩ := exists_tables hw hdistinct hd hp h hlow hhigh hdir
  refine ⟨T, rfl, fun cp hcp => ⟨fun hnone => ?_, fun hsome s => ?_, getCcc_eq hk h hcp,
    fun second composite => (findPair_eq_some_iff hcp).trans (isPair_iff hp h hcp)⟩⟩
  · rw [storedDecomp_eq hw hd h hcp, if_pos hnone]
  · obtain ⟨m, hm⟩ := Option.ne_none_iff_exists'.mp hsome
    obtain ⟨r, hall, -⟩ := of_buildDecomposition hd
    have hfull := (storedOf_of_canonical hw hm (hall cp hcp)).1
    rw [fullDecomposition_eq, mappingOf_false] at hfull
    rw [storedDecomp_eq hw hd h hcp, if_neg hsome]
    exact Replacement.expand_eq_some_iff hfull

/-! ### Few mappings -/

theorem exists_foldlM (hsome : ∀ cp, (decompositionOf ucd limit cp).isSome) (n : ℕ) :
    ∃ r, (List.range n).foldlM (decompositionStep ucd limit) .empty = some r := by
  induction n with
  | zero => exact ⟨.empty, rfl⟩
  | succ n ih =>
    obtain ⟨r, hr⟩ := ih
    obtain ⟨d, hd⟩ := Option.isSome_iff_exists.mp (hsome n)
    refine ⟨r.add n ((r.data.length <<< 2) ||| d.2) d.1, ?_⟩
    rw [List.range_succ, List.foldlM_append, hr]
    show (decompositionStep ucd limit r n).bind some = _
    rw [decompositionStep, hd]
    rfl

theorem exists_buildDecomposition (keys : Finset ℕ)
    (hsome : ∀ cp, (decompositionOf ucd limit cp).isSome)
    (hkeys : ∀ cp, (storedOf ucd limit cp).1 ≠ [] → cp ∈ keys) (hcard : keys.card < 256)
    (hdata : 1 + ∑ cp ∈ keys, (storedOf ucd limit cp).1.length < 1 <<< 14) :
    ∃ d, buildDecomposition ucd limit = some d := by
  have hn : maxCodePoint + 1 = codeSpace := rfl
  obtain ⟨r, hr⟩ := exists_foldlM hsome codeSpace
  obtain ⟨-, hlaid⟩ := laid_of_foldlM le_rfl hr
  obtain ⟨index, block, hm⟩ := hlaid.exists_buildMultistage hkeys hcard (r.data.length <<< 2)
  have hlen : r.data.length < 1 <<< 14 := by
    rw [hlaid.length_data]
    exact (Nat.add_le_add_left (length_flatMap_le hkeys codeSpace) 1).trans_lt hdata
  refine ⟨⟨index, block, r.data⟩, ?_⟩
  rw [buildDecomposition, hn, hr, Option.bind_eq_bind, Option.bind_some]
  dsimp only
  rw [if_neg (not_le.mpr hlen), hm]
  rfl

theorem exists_buildCcc (keys : Finset ℕ) (hkeys : ∀ cp, cccOf ucd cp ≠ 0 → cp ∈ keys)
    (hcard : keys.card < 256) : ∃ k, buildCcc ucd = some k := by
  have hlen : 256 * blockCount + 256 ≤ (cccEntries ucd).length + 256 := by
    rw [cccEntries, List.length_map, List.length_range]
    exact le_rfl
  suffices hs : ∀ b < blockCount,
      ((List.range blockCount).map (cccIsEmpty ucd)).getD b false = false →
        b ∈ keys.image (· / 256) by
    obtain ⟨index, block, h⟩ :=
      exists_buildMultistage hlen hs (Finset.card_image_le.trans_lt hcard)
    exact ⟨(index, block), h⟩
  intro b hb hempty
  rw [List.getD_eq_getElem?_getD, Buffer.getElem?_map_range hb, Option.getD_some, cccIsEmpty,
    Bool.not_eq_false', List.any_eq_true] at hempty
  obtain ⟨v, hv, hne⟩ := hempty
  obtain ⟨i, hi, rfl⟩ := List.mem_iff_getElem.mp hv
  have hi' : i < (b + 1) <<< 8 - b <<< 8 := (List.length_take_le _ _).trans_lt' hi
  rw [Nat.shiftLeft_eq, Nat.shiftLeft_eq] at hi'
  refine Finset.mem_image.mpr ⟨256 * b + i, hkeys _ ?_, by omega⟩
  simpa [cccEntries, Nat.shiftLeft_eq, Nat.mul_comm] using hne

theorem exists_buildComposition (keys : Finset ℕ)
    (hkeys : ∀ cp, compositionOf ucd exclusions cp ≠ [] → cp ∈ keys) (hcard : keys.card < 256)
    (hdata : 1 + ∑ cp ∈ keys, (compositionOf ucd exclusions cp).length ≤ 0xFFFF) :
    ∃ p, buildComposition ucd exclusions = some p := by
  have hn : maxCodePoint + 1 = codeSpace := rfl
  have hlaid := laid_foldl ucd exclusions (le_refl codeSpace)
  rw [buildComposition, hn]
  generalize (List.range codeSpace).foldl (compositionStep ucd exclusions) .empty = r at hlaid
  obtain ⟨index, block, hm⟩ := hlaid.exists_buildMultistage hkeys hcard r.data.length
  have hlen : r.data.length ≤ 0xFFFF := by
    rw [hlaid.length_data]
    exact (Nat.add_le_add_left (length_flatMap_le hkeys codeSpace) 1).trans hdata
  refine ⟨⟨index, block, r.data⟩, ?_⟩
  dsimp only
  rw [if_neg (not_lt.mpr hlen), hm]
  rfl

/-- Other tables with generated normalization tables. -/
def withGenerated (D : TableData) (d : Sections) (k : List ℕ × List ℕ) (p : Sections) :
    TableData :=
  { D with
    decompositionIndex := (d.index.getD · 0)
    decompositionBlockFlat := (d.block.getD · 0)
    decompositionData := (d.data.getD · 0)
    decompositionDataSize := d.data.length
    kDecompBlockRows := d.block.length / 257
    cccIndex := (k.1.getD · 0)
    cccBlockFlat := (k.2.getD · 0)
    kCccBlockRows := k.2.length / 256
    compositionIndex := (p.index.getD · 0)
    compositionBlockFlat := (p.block.getD · 0)
    compositionData := (p.data.getD · 0)
    compositionDataSize := p.data.length
    kCompBlockRows := p.block.length / 257 }

theorem holds_withGenerated (D : TableData) (d : Sections) (k : List ℕ × List ℕ) (p : Sections) :
    Holds (withGenerated D d k p) d k p := by
  have hget : ∀ (l : List ℕ) i v, l[i]? = some v → l.getD i 0 = v :=
    fun _ _ _ h => Buffer.getD_of_getElem? h 0
  exact ⟨hget d.index, hget d.block, hget d.data, rfl, rfl, hget k.1, hget k.2, rfl,
    hget p.index, hget p.block, hget p.data, rfl, rfl⟩

/-- `é`, `ē` and `ḗ`, whose mapping begins with `ē`, and the feminine ordinal
indicator, which has a compatibility mapping. -/
def fewData : UnicodeData where
  ccc := [(0x301, 230), (0x304, 230)]
  canonical := [(0xE9, [0x65, 0x301]), (0x113, [0x65, 0x304]), (0x1E17, [0x113, 0x301])]
  compatibility := [(0xAA, [0x61])]

theorem wellFormed_fewData : fewData.WellFormed where
  nodup := by decide
  lt := by decide
  ne_nil := by decide
  not_hangul := by decide

theorem isPrimary_fewData (h : IsPrimary fewData ∅ a b c) :
    (a, b, c) = (0x65, 0x301, 0xE9) ∨ (a, b, c) = (0x65, 0x304, 0x113) ∨
      (a, b, c) = (0x113, 0x301, 0x1E17) := by
  have hmem := h.1
  simp only [fewData, List.mem_cons, Prod.mk.injEq, List.cons.injEq, List.not_mem_nil,
    or_false] at hmem
  simp only [Prod.mk.injEq]
  tauto

theorem decompositionOf_fewData (hcp : cp ∉ ({0xE9, 0x113, 0x1E17, 0xAA} : Finset ℕ)) :
    decompositionOf fewData 3 cp = some ([], 0) := by
  simp only [Finset.mem_insert, Finset.mem_singleton, not_or] at hcp
  have hcanonical : fewData.canonical.lookup cp = none :=
    List.lookup_eq_none_iff.mpr (by simp [fewData, hcp])
  have hcompatibility : fewData.compatibility.lookup cp = none :=
    List.lookup_eq_none_iff.mpr (by simp [fewData, hcp])
  rw [decompositionOf, hcanonical, hcompatibility]
  split
  · rfl
  · rfl

theorem distinctPairs_fewData : DistinctPairs fewData ∅ := by
  intro a b c c' h h'
  rcases isPrimary_fewData h with h | h | h <;> cases h <;>
    rcases isPrimary_fewData h' with h' | h' | h' <;> cases h' <;> rfl

theorem exists_build_fewData :
    ∃ d k p, buildDecomposition fewData 3 = some d ∧ buildCcc fewData = some k ∧
      buildComposition fewData ∅ = some p := by
  obtain ⟨d, hd⟩ : ∃ d, buildDecomposition fewData 3 = some d := by
    apply exists_buildDecomposition {0xE9, 0x113, 0x1E17, 0xAA}
    · intro cp
      by_cases hcp : cp ∈ ({0xE9, 0x113, 0x1E17, 0xAA} : Finset ℕ)
      · simp only [Finset.mem_insert, Finset.mem_singleton] at hcp
        rcases hcp with rfl | rfl | rfl | rfl <;> rfl
      · rw [decompositionOf_fewData hcp]
        rfl
    · intro cp hne
      by_contra hcp
      rw [storedOf, decompositionOf_fewData hcp] at hne
      exact hne rfl
    · decide
    · decide +kernel
  obtain ⟨k, hk⟩ : ∃ k, buildCcc fewData = some k := by
    apply exists_buildCcc {0x301, 0x304}
    · intro cp hne
      by_contra hcp
      simp only [Finset.mem_insert, Finset.mem_singleton, not_or] at hcp
      apply hne
      rw [cccOf, List.lookup_eq_none_iff.mpr (by simp [fewData, hcp])]
      rfl
    · decide
  obtain ⟨p, hp⟩ : ∃ p, buildComposition fewData ∅ = some p := by
    apply exists_buildComposition {0x65, 0x113}
    · intro cp hne
      obtain ⟨v, hv⟩ := List.exists_mem_of_ne_nil _ hne
      rw [compositionOf_eq] at hv
      obtain ⟨⟨b, c⟩, hq, -⟩ := List.mem_flatMap.mp hv
      rcases isPrimary_fewData (mem_sortedPairs.mp hq) with h | h | h <;> cases h <;> decide
    · decide
    · simp only [compositionOf_eq, length_flatten_pairs, sortedPairs, List.length_mergeSort]
      decide +kernel
  exact ⟨d, k, p, hd, hk, hp⟩

theorem normalization_tables_exact_few :
    ∃ T : Tables, storedDecomp T 0x1E17 = [0x65, 0x304, 0x301] ∧ storedDecomp T 0xAA = [] ∧
      getCcc T 0x301 = 230 ∧ findPair T 0x113 0x301 = some 0x1E17 ∧
      findPair T 0x65 0x301 = some 0xE9 := by
  obtain ⟨d, k, p, hd, hk, hp⟩ := exists_build_fewData
  obtain ⟨T, -, hT⟩ := normalization_tables_exact wellFormed_fewData
    distinctPairs_fewData hd hk hp (holds_withGenerated smallTables.toTableData d k p)
    smallTables.idnaLowRangeEnd_le smallTables.idnaHighIgnoredEnd_le smallTables.dirValue_lt
  have hfull : IsFullDecomposition fewData 0x1E17 [0x65, 0x304, 0x301] :=
    Replacement.fullExpansion_of_expand
      (show Replacement.expand (fewData.canonical.lookup ·) 3 0x1E17
        = some [0x65, 0x304, 0x301] from rfl)
  refine ⟨T, ?_, ?_, ?_, ?_, ?_⟩
  · exact ((hT 0x1E17 (by decide)).2.1 (by decide) _).mp hfull
  · exact (hT 0xAA (by decide)).1 (by decide)
  · exact (hT 0x301 (by decide)).2.2.1
  · exact ((hT 0x113 (by decide)).2.2.2 0x301 0x1E17).mpr (by decide)
  · exact ((hT 0x65 (by decide)).2.2.2 0x301 0xE9).mpr (by decide)

end UnicodeDataTable

end AdaIdna
