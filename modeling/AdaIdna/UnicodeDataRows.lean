/-
AdaIdna/UnicodeDataRows.lean

The rows of the generated normalization tables.

The loops over the code points lay the contents one after another and note
down for each code point where its content begins (`Laid`).  The entries are
cut into rows of one block each, with one column more for the first entry of
the next block, and stored in two stages; the table store reads an entry back,
or a zero in a block without data (`read_buildMultistage`).
-/
import AdaIdna.UnicodeDataTable
import AdaIdna.Lib.Buffer
import AdaIdna.TableStore

namespace AdaIdna

namespace UnicodeDataTable

open Multistage

variable {content : ℕ → List ℕ} {entry : ℕ → ℕ → ℕ} {r : Layout} {n cp cols c k b : ℕ}
  {entries index block : List ℕ} {blockIsEmpty : List Bool}

theorem blockCount_eq : blockCount = 4352 := rfl

/-! ### Layout -/

/-- The layout of the first `n` code points. -/
structure Laid (content : ℕ → List ℕ) (entry : ℕ → ℕ → ℕ) (n : ℕ) (r : Layout) : Prop where
  data : r.data = [0] ++ (List.range n).flatMap content
  entries : r.entries = (List.range n).map fun cp => entry cp (offset content 1 cp)
  length_hasData : r.hasData.length = blockCount
  hasData : ∀ b < blockCount,
    r.hasData.getD b false = true ↔ ∃ cp < n, cp / 256 = b ∧ content cp ≠ []

theorem laid_empty : Laid content entry 0 .empty := by
  refine ⟨rfl, rfl, List.length_replicate, fun b hb => ?_⟩
  rw [Layout.empty, List.getD_eq_getElem?_getD, List.getElem?_replicate_of_lt hb]
  exact ⟨nofun, fun ⟨cp, hcp, _⟩ => absurd hcp (Nat.not_lt_zero cp)⟩

theorem Laid.length_data (h : Laid content entry n r) : r.data.length = offset content 1 n := by
  rw [h.data, List.length_append, offset]
  rfl

/-- **One more code point.** -/
theorem Laid.add (h : Laid content entry n r) (hn : n < codeSpace) :
    Laid content entry (n + 1) (r.add n (entry n r.data.length) (content n)) := by
  have hblock : n >>> 8 = n / 256 := Nat.shiftRight_eq_div_pow n 8
  have hlt : n / 256 < r.hasData.length := by
    rw [h.length_hasData]
    exact (Nat.div_lt_iff_lt_mul (by decide)).mpr hn
  refine ⟨?_, ?_, ?_, fun b hb => ?_⟩
  · rw [Layout.add, h.data, List.range_succ, List.flatMap_append, List.append_assoc,
      List.flatMap_singleton]
  · rw [Layout.add, h.entries, h.length_data, List.range_succ, List.map_append, List.map_singleton]
  · rw [Layout.add]
    split
    · exact h.length_hasData
    · rw [List.length_set]
      exact h.length_hasData
  · have hstep : (r.add n (entry n r.data.length) (content n)).hasData.getD b false = true ↔
        r.hasData.getD b false = true ∨ n / 256 = b ∧ content n ≠ [] := by
      rw [Layout.add, hblock]
      split
      · rename_i hnil
        simp [hnil]
      · rename_i hne
        rw [List.getD_eq_getElem?_getD, List.getElem?_set]
        by_cases heq : n / 256 = b
        · rw [if_pos heq, if_pos hlt]
          exact iff_of_true rfl (.inr ⟨heq, hne⟩)
        · rw [if_neg heq, ← List.getD_eq_getElem?_getD]
          exact ⟨Or.inl, fun hor => hor.resolve_right fun hand => heq hand.1⟩
    rw [hstep, h.hasData b hb]
    constructor
    · rintro (⟨cp, hcp, hin⟩ | hin)
      · exact ⟨cp, hcp.trans (Nat.lt_succ_self n), hin⟩
      · exact ⟨n, Nat.lt_succ_self n, hin⟩
    · rintro ⟨cp, hcp, hin⟩
      rcases Nat.lt_succ_iff_lt_or_eq.mp hcp with hcp | rfl
      · exact .inl ⟨cp, hcp, hin⟩
      · exact .inr hin

/-- The entries, with the one behind the last code point. -/
theorem Laid.getD_entries (h : Laid content entry codeSpace r) (hcp : cp < codeSpace) (last : ℕ) :
    (r.entries ++ [last]).getD cp 0 = entry cp (offset content 1 cp) := by
  rw [List.getD_eq_getElem?_getD, h.entries, List.getElem?_append_left,
    Buffer.getElem?_map_range hcp, Option.getD_some]
  rw [List.length_map, List.length_range]
  exact hcp

theorem Laid.getD_entries_last (h : Laid content entry codeSpace r) (last : ℕ) :
    (r.entries ++ [last]).getD codeSpace 0 = last := by
  have hlen : r.entries.length = codeSpace := by
    rw [h.entries, List.length_map, List.length_range]
  rw [List.getD_eq_getElem?_getD, ← hlen, List.getElem?_concat_length, Option.getD_some]

/-- A content is in the data. -/
theorem Laid.getElem?_data (h : Laid content entry n r) (hcp : cp < n)
    (hk : k < (content cp).length) : r.data[offset content 1 cp + k]? = (content cp)[k]? := by
  rw [h.data]
  exact getElem?_offset [0] hcp hk

/-! ### Two stages -/

theorem length_rowOf (hlen : 256 * blockCount + cols ≤ entries.length + 256) (hb : b < blockCount) :
    (rowOf entries cols blockIsEmpty b).length = cols := by
  rw [rowOf]
  split
  · exact List.length_replicate
  · rw [List.length_take, List.length_drop, Nat.shiftLeft_eq]
    apply min_eq_left
    rw [blockCount_eq] at *
    omega

theorem getElem?_rowOf (hk : k < cols) :
    (rowOf entries cols blockIsEmpty b)[k]?
      = if blockIsEmpty.getD b false then some 0 else entries[256 * b + k]? := by
  rw [rowOf]
  split
  · exact List.getElem?_replicate_of_lt hk
  · rw [List.getElem?_take_of_lt hk, List.getElem?_drop, Nat.shiftLeft_eq, Nat.mul_comm]

/-- The table that `build_multistage` builds. -/
theorem of_buildMultistage (h : buildMultistage entries cols blockIsEmpty = some (index, block))
    (hlen : 256 * blockCount + cols ≤ entries.length + 256) :
    ∃ t : Multistage ℕ,
      t.Indexes cols ((List.range blockCount).map (rowOf entries cols blockIsEmpty)) ∧
      t.rows.places.length ≤ 256 ∧ t.index = index ∧ t.rows.data = block := by
  have ht := indexes_foldl ((List.range blockCount).map (rowOf entries cols blockIsEmpty))
    (List.forall_mem_map.mpr fun b hb => length_rowOf hlen (List.mem_range.mp hb))
  rw [buildMultistage] at h
  generalize ((List.range blockCount).map (rowOf entries cols blockIsEmpty)).foldl
    Multistage.addRow .empty = t at h ht
  split at h
  · cases h
  · rename_i hcount
    cases h
    exact ⟨t, ht, not_lt.mp hcount, rfl, rfl⟩

/-- What the table store reads in the row of a block, at a code point or
behind it. -/
def entryAt (indexAt flatAt : ℕ → ℕ) (rows cols c k : ℕ) : ℕ :=
  flatAt ((if rows ≤ indexAt (c / 256) then 0 else indexAt (c / 256)) * cols + c % 256 + k)

variable {indexAt flatAt : ℕ → ℕ}

/-- **The table store reads back the entries**, and zeros in a block without
data. -/
theorem read_buildMultistage
    (h : buildMultistage entries cols blockIsEmpty = some (index, block))
    (hlen : 256 * blockCount + cols ≤ entries.length + 256)
    (hindex : ∀ i v, index[i]? = some v → indexAt i = v)
    (hblock : ∀ i v, block[i]? = some v → flatAt i = v)
    (hc : c < codeSpace) (hk : c % 256 + k < cols) :
    entryAt indexAt flatAt (block.length / cols) cols c k
      = if blockIsEmpty.getD (c / 256) false then 0 else entries.getD (c + k) 0 := by
  obtain ⟨t, ht, -, rfl, rfl⟩ := of_buildMultistage h hlen
  have hb : c / 256 < blockCount := (Nat.div_lt_iff_lt_mul (by decide)).mpr hc
  obtain ⟨v, hv, hi, hread⟩ := ht.read (Buffer.getElem?_map_range hb)
  have hrows : t.rows.data.length / cols = t.rows.places.length := by
    rw [ht.length_data]
    exact Nat.mul_div_cancel_left _ (Nat.zero_lt_of_lt hk)
  rw [entryAt, hrows, hindex _ _ hi, if_neg (not_le.mpr hv), Nat.mul_comm, Nat.add_assoc]
  apply hblock
  rw [hread _ (by rw [length_rowOf hlen hb]; exact hk), getElem?_rowOf hk, ← Nat.add_assoc,
    Nat.div_add_mod]
  split
  · rfl
  · have hin : c + k < entries.length := by
      have := Nat.div_add_mod c 256
      rw [blockCount_eq] at *
      omega
    rw [List.getD_eq_getElem?_getD, List.getElem?_eq_getElem hin, Option.getD_some]

/-- **The entry of a code point and the next one**, or two zeros in a block
without data. -/
theorem Laid.read {last : ℕ} (h : Laid content entry codeSpace r)
    (hm : buildMultistage (r.entries ++ [last]) 257 (r.hasData.map not) = some (index, block))
    (hindex : ∀ i v, index[i]? = some v → indexAt i = v)
    (hblock : ∀ i v, block[i]? = some v → flatAt i = v) (hc : c < codeSpace) :
    (content c = [] ∧ ∀ k ≤ 1, entryAt indexAt flatAt (block.length / 257) 257 c k = 0) ∨
      ∀ k ≤ 1, entryAt indexAt flatAt (block.length / 257) 257 c k
        = if c + k < codeSpace then entry (c + k) (offset content 1 (c + k)) else last := by
  have hlen : 256 * blockCount + 257 ≤ (r.entries ++ [last]).length + 256 := by
    rw [List.length_append, h.entries, List.length_map, List.length_range]
    exact le_rfl
  have hb : c / 256 < blockCount := (Nat.div_lt_iff_lt_mul (by decide)).mpr hc
  have hempty : (r.hasData.map not).getD (c / 256) false = !r.hasData.getD (c / 256) false := by
    have hlt : c / 256 < r.hasData.length := by
      rw [h.length_hasData]
      exact hb
    rw [List.getD_eq_getElem?_getD, List.getD_eq_getElem?_getD, List.getElem?_map,
      List.getElem?_eq_getElem hlt]
    rfl
  have hentry : ∀ k ≤ 1, entryAt indexAt flatAt (block.length / 257) 257 c k
      = if r.hasData.getD (c / 256) false then (r.entries ++ [last]).getD (c + k) 0 else 0 := by
    intro k hk
    have hmod := Nat.mod_lt c (show 0 < 256 by decide)
    rw [read_buildMultistage hm hlen hindex hblock hc (by omega), hempty]
    cases r.hasData.getD (c / 256) false with
    | true => rfl
    | false => rfl
  cases hdata : r.hasData.getD (c / 256) false with
  | false =>
    refine .inl ⟨?_, fun k hk => ?_⟩
    · by_contra hne
      exact absurd ((h.hasData _ hb).mpr ⟨c, hc, rfl, hne⟩) (by rw [hdata]; decide)
    · rw [hentry k hk, hdata]
      rfl
  | true =>
    refine .inr fun k hk => ?_
    rw [hentry k hk, hdata, if_pos rfl]
    split
    · rename_i hlt
      exact h.getD_entries hlt last
    · rename_i hge
      rw [show c + k = codeSpace by omega, h.getD_entries_last]

/-! ### Few rows -/

/-- A byte numbers the rows of fewer than 256 blocks with data. -/
theorem exists_buildMultistage {s : Finset ℕ}
    (hlen : 256 * blockCount + cols ≤ entries.length + 256)
    (hs : ∀ b < blockCount, blockIsEmpty.getD b false = false → b ∈ s) (hcard : s.card < 256) :
    ∃ index block, buildMultistage entries cols blockIsEmpty = some (index, block) := by
  have ht := indexes_foldl ((List.range blockCount).map (rowOf entries cols blockIsEmpty))
    (List.forall_mem_map.mpr fun b hb => length_rowOf hlen (List.mem_range.mp hb))
  have hplaces := ht.length_places_le
    (s := insert (List.replicate cols 0) (s.image (rowOf entries cols blockIsEmpty))) <| by
      rw [List.forall_mem_map]
      intro b hb
      cases hempty : blockIsEmpty.getD b false with
      | true =>
        rw [rowOf, hempty]
        exact Finset.mem_insert_self _ _
      | false =>
        apply Finset.mem_insert_of_mem
        exact Finset.mem_image_of_mem _ (hs b (List.mem_range.mp hb) hempty)
  have hle := hplaces.trans (Finset.card_insert_le _ _)
  have himage := Finset.card_image_le (s := s) (f := rowOf entries cols blockIsEmpty)
  rw [buildMultistage]
  generalize ((List.range blockCount).map (rowOf entries cols blockIsEmpty)).foldl
    Multistage.addRow .empty = t at hle
  exact ⟨t.index, t.rows.data, if_neg (by omega)⟩

theorem Laid.exists_buildMultistage (h : Laid content entry codeSpace r) {keys : Finset ℕ}
    (hkeys : ∀ cp, content cp ≠ [] → cp ∈ keys) (hcard : keys.card < 256) (last : ℕ) :
    ∃ index block,
      buildMultistage (r.entries ++ [last]) 257 (r.hasData.map not) = some (index, block) := by
  refine UnicodeDataTable.exists_buildMultistage (s := keys.image (· / 256)) ?_
    (fun b hb hdata => ?_) (Finset.card_image_le.trans_lt hcard)
  · rw [List.length_append, h.entries, List.length_map, List.length_range]
    exact le_rfl
  · have hlt : b < r.hasData.length := by
      rw [h.length_hasData]
      exact hb
    rw [List.getD_eq_getElem?_getD, List.getElem?_map, List.getElem?_eq_getElem hlt,
      Option.map_some, Option.getD_some, Bool.not_eq_false'] at hdata
    have hmem := (h.hasData b hb).mp <| by
      rw [List.getD_eq_getElem?_getD, List.getElem?_eq_getElem hlt, Option.getD_some, hdata]
    obtain ⟨cp, -, hcp, hne⟩ := hmem
    exact Finset.mem_image.mpr ⟨cp, hkeys cp hne, hcp⟩

/-- How much there is to store. -/
theorem length_flatMap_le {keys : Finset ℕ} (hkeys : ∀ cp, content cp ≠ [] → cp ∈ keys) (n : ℕ) :
    ((List.range n).flatMap content).length ≤ ∑ cp ∈ keys, (content cp).length := by
  have hsum : ((List.range n).flatMap content).length
      = ∑ cp ∈ Finset.range n, (content cp).length := List.length_flatMap
  rw [hsum, ← Finset.sum_filter_ne_zero]
  refine Finset.sum_le_sum_of_subset fun cp hcp => ?_
  refine hkeys cp fun hnil => ?_
  exact (Finset.mem_filter.mp hcp).2 (by rw [hnil, List.length_nil])

end UnicodeDataTable

end AdaIdna
