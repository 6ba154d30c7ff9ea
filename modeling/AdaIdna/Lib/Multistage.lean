/-
AdaIdna/Lib/Multistage.lean

Tables in two stages.

A list of rows of equal length is stored as the distinct rows, one after
another, and an index that says for each row where it is stored.  Whatever was
in a row is read back through the index (`Indexes.read`).

The values in the rows are often offsets themselves, into contents that are
stored one after another; the content of a number is what stands between its
offset and the next (`getElem?_offset`).
-/
import AdaIdna.Lib.Pool

/-- The index and the rows stored so far. -/
structure Multistage (β : Type) where
  index : List ℕ
  rows : Pool (List β) β

namespace Multistage

variable {β : Type} [DecidableEq β] {t : Multistage β} {rows : List (List β)} {row : List β}
  {cols b i j k n base : ℕ}

def empty : Multistage β := ⟨[], .empty⟩

/-- A row is stored unless it is there already, and its number is noted down. -/
def addRow (t : Multistage β) (row : List β) : Multistage β :=
  let rows := t.rows.insert row t.rows.places.length row
  ⟨t.index ++ [(rows.lookup row).getD 0], rows⟩

/-- The table of a list of rows. -/
structure Indexes (cols : ℕ) (rows : List (List β)) (t : Multistage β) : Prop where
  index : t.index = rows.map fun row => (t.rows.lookup row).getD 0
  filled : t.rows.Filled cols 1 id
  exists_lookup : ∀ row ∈ rows, ∃ v, t.rows.lookup row = some v
  mem_of_mem_keys : ∀ row ∈ t.rows.keys, row ∈ rows

theorem indexes_empty (cols : ℕ) : (empty : Multistage β).Indexes cols [] :=
  ⟨rfl, Pool.filled_empty, nofun, nofun⟩

theorem Indexes.addRow (h : t.Indexes cols rows) (hrow : row.length = cols) :
    (t.addRow row).Indexes cols (rows ++ [row]) := by
  refine ⟨?_, h.filled.insert (hrow.trans (Nat.mul_one cols).symm) (Nat.one_mul _).symm,
    fun r hr => ?_, fun r hr => ?_⟩
  · rw [Multistage.addRow, List.map_append, h.index]
    refine congrArg (· ++ _) (List.map_congr_left fun r hr => ?_)
    obtain ⟨v, hv⟩ := h.exists_lookup r hr
    rw [hv, Pool.lookup_insert_of_eq_some hv]
  · rcases List.mem_append.mp hr with hr | hr
    · obtain ⟨v, hv⟩ := h.exists_lookup r hr
      exact ⟨v, Pool.lookup_insert_of_eq_some hv⟩
    · rw [List.mem_singleton.mp hr]
      exact Pool.exists_lookup_insert_self _ _ _ _
  · rw [List.mem_append, List.mem_singleton]
    exact (Pool.mem_keys_insert.mp hr).imp_left (h.mem_of_mem_keys r)

/-- **The table is built** row by row. -/
theorem indexes_foldl (rows : List (List β)) (hrows : ∀ row ∈ rows, row.length = cols) :
    (rows.foldl addRow empty).Indexes cols rows := by
  induction rows using List.reverseRecOn with
  | nil => exact indexes_empty cols
  | append_singleton rows row ih =>
    rw [List.foldl_append, List.foldl_cons, List.foldl_nil]
    exact (ih fun r hr => hrows r (List.mem_append_left _ hr)).addRow (hrows row (by simp))

/-- **A row is read back** through the index. -/
theorem Indexes.read (h : t.Indexes cols rows) (hb : rows[b]? = some row) :
    ∃ v < t.rows.places.length, t.index[b]? = some v ∧
      ∀ k < row.length, t.rows.data[cols * v + k]? = row[k]? := by
  obtain ⟨v, hv⟩ := h.exists_lookup row (List.mem_of_getElem? hb)
  obtain ⟨j, hj, hvj⟩ := h.filled.spaced.eq_mul hv
  rw [Nat.one_mul] at hvj
  refine ⟨v, hvj ▸ hj, ?_, fun k hk => h.filled.stores.getElem? hv hk⟩
  rw [h.index, List.getElem?_map, hb, Option.map_some, hv]
  rfl

theorem Indexes.length_data (h : t.Indexes cols rows) :
    t.rows.data.length = cols * t.rows.places.length := by
  rw [h.filled.length_data, Nat.one_mul]

/-- The index numbers rows that are stored. -/
theorem Indexes.lt_of_mem_index (h : t.Indexes cols rows) {v : ℕ} (hv : v ∈ t.index) :
    v < t.rows.places.length := by
  rw [h.index, List.mem_map] at hv
  obtain ⟨row, hrow, rfl⟩ := hv
  obtain ⟨v, hv⟩ := h.exists_lookup row hrow
  obtain ⟨j, hj, hvj⟩ := h.filled.spaced.eq_mul hv
  rw [hv, Option.getD_some, hvj, Nat.one_mul]
  exact hj

/-- What is stored comes from a row. -/
theorem Indexes.exists_mem_of_mem_data (h : t.Indexes cols rows)
    (hrows : ∀ row ∈ rows, row.length = cols) {x : β} (hx : x ∈ t.rows.data) :
    ∃ row ∈ rows, x ∈ row := by
  obtain ⟨i, hi, rfl⟩ := List.mem_iff_getElem.mp hx
  rw [h.length_data] at hi
  have hcols : 0 < cols := by
    rcases Nat.eq_zero_or_pos cols with rfl | hcols
    · rw [Nat.zero_mul] at hi
      exact absurd hi (Nat.not_lt_zero i)
    · exact hcols
  have hj : i / cols < t.rows.places.length := Nat.div_lt_of_lt_mul hi
  obtain ⟨row, hrow, hlookup⟩ := h.filled.spaced.exists_key h.filled.nodup hj
  have hmem := h.mem_of_mem_keys row hrow
  have hk : i % cols < (id row).length := (Nat.mod_lt i hcols).trans_eq (hrows row hmem).symm
  have hread := h.filled.stores.getElem? hlookup hk
  rw [Nat.one_mul, Nat.div_add_mod, List.getElem?_eq_getElem (by rwa [h.length_data])] at hread
  exact ⟨row, hmem, List.mem_of_getElem? hread.symm⟩

/-- There are at most as many rows as there are different ones. -/
theorem Indexes.length_places_le (h : t.Indexes cols rows) {s : Finset (List β)}
    (hs : ∀ row ∈ rows, row ∈ s) : t.rows.places.length ≤ s.card := by
  rw [← Pool.length_keys, ← List.toFinset_card_of_nodup h.filled.nodup]
  refine Finset.card_le_card fun row hrow => ?_
  exact hs row (h.mem_of_mem_keys row (List.mem_toFinset.mp hrow))

/-! ### Contents one after another -/

section Offsets

variable {α : Type*} (content : ℕ → List α)

/-- Where the content of a number begins, `base` others in front of them all. -/
def offset (base i : ℕ) : ℕ := base + ((List.range i).flatMap content).length

variable {content}

theorem offset_succ : offset content base (i + 1) = offset content base i + (content i).length := by
  rw [offset, offset, List.range_succ, List.flatMap_append, List.length_append,
    List.flatMap_singleton, Nat.add_assoc]

theorem offset_mono (h : i ≤ j) : offset content base i ≤ offset content base j := by
  induction h with
  | refl => exact le_rfl
  | step _ ih => exact ih.trans (offset_succ.symm ▸ Nat.le_add_right _ _)

/-- **The content of a number** is at its offset. -/
theorem getElem?_offset (pre : List α) (hi : i < n) (hk : k < (content i).length) :
    (pre ++ (List.range n).flatMap content)[offset content pre.length i + k]?
      = (content i)[k]? := by
  have hsplit : List.range n = List.range i ++ i :: List.range' (i + 1) (n - (i + 1)) := by
    have happend := List.range'_append_1 (s := 0) (m := i) (n := n - (i + 1) + 1)
    rw [Nat.zero_add] at happend
    rw [List.range_eq_range', List.range_eq_range', ← List.range'_succ, happend]
    congr 1
    omega
  rw [hsplit, List.flatMap_append, List.flatMap_cons, offset, Nat.add_assoc,
    List.getElem?_append_right (Nat.le_add_right _ _), Nat.add_sub_cancel_left,
    List.getElem?_append_right (Nat.le_add_right _ _), Nat.add_sub_cancel_left,
    List.getElem?_append_left hk]

end Offsets

end Multistage
