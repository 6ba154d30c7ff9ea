/-
AdaIdna/IdnaLevels.lean

The two-level table and its reader.

Each block of 64 numbers is stored once, as a bit word if it holds nothing but
sentinels and in full otherwise (`Built`).  The reader tells the two by bit 15
of the first level.  The place of a block stored in full has that bit clear as
long as there are at most 512 such blocks; then the reader finds the number
(`idnaLookup_eq`).  The block after those is taken for a bit word, and none of
its strings can be found (`exists_misread`).
-/
import AdaIdna.IdnaFlat

namespace AdaIdna

namespace IdnaTable

variable {flat block : List ℕ} {t : TwoLevel} {n i k v bits cp : ℕ} {T : Tables}

/-! ### Blocks -/

theorem length_blockAt (flat : List ℕ) (i : ℕ) : (blockAt flat i).length = 64 := by
  have hle : ((flat.drop (i * blockSize)).take blockSize).length ≤ 64 := List.length_take_le _ _
  rw [blockAt, List.length_append, List.length_replicate]
  exact Nat.add_sub_cancel' hle

/-- A block is a part of the array. -/
theorem getElem?_blockAt (hk : k < 64) (h : 64 * i + k < flat.length) :
    (blockAt flat i)[k]? = flat[64 * i + k]? := by
  have hlen : k < ((flat.drop (i * blockSize)).take blockSize).length := by
    rw [List.length_take, List.length_drop]
    show k < min 64 (flat.length - i * 64)
    omega
  rw [blockAt, List.getElem?_append_left hlen,
    List.getElem?_take_of_lt (show k < blockSize from hk), List.getElem?_drop]
  congr 1
  show i * 64 + k = _
  omega

theorem isBool_iff : isBool block = true ↔
    ∀ v ∈ block, v = sentinelValid ∨ v = sentinelDisallowed := by
  simp [isBool]

/-- The bit word of a block. -/
theorem testBit_validBits (block : List ℕ) (k : ℕ) :
    (validBits block).testBit k = decide (block[k]? = some sentinelValid) := by
  induction block using List.reverseRecOn with
  | nil =>
    rw [validBits, List.zipIdx_nil, List.foldl_nil, Nat.zero_testBit]
    rfl
  | append_singleton block v ih =>
    have hnone : block[block.length]? = none := List.getElem?_eq_none le_rfl
    rw [validBits, List.zipIdx_append, List.foldl_append, ← validBits, List.zipIdx_singleton,
      List.foldl_cons, List.foldl_nil, Nat.zero_add]
    dsimp only
    rcases Nat.lt_trichotomy k block.length with hk | rfl | hk
    · rw [List.getElem?_append_left hk, ← ih]
      split
      · rw [Nat.testBit_or, Nat.one_shiftLeft, Nat.testBit_two_pow_of_ne hk.ne', Bool.or_false]
      · rfl
    · rw [List.getElem?_append_right le_rfl, Nat.sub_self]
      rw [hnone] at ih
      split
      · rename_i hv
        rw [Nat.testBit_or, Nat.one_shiftLeft, Nat.testBit_two_pow_self, Bool.or_true, hv]
        rfl
      · rename_i hv
        rw [ih]
        simpa using hv
    · rw [List.getElem?_eq_none (by rw [List.length_append, List.length_singleton]; omega)]
      rw [List.getElem?_eq_none hk.le] at ih
      split
      · rw [Nat.testBit_or, ih, Nat.one_shiftLeft, Nat.testBit_two_pow_of_ne hk.ne]
        rfl
      · exact ih

/-! ### Building -/

/-- What the first level says about a block. -/
def refOf (t : TwoLevel) (block : List ℕ) : ℕ :=
  if isBool block then boolFlag ||| (t.bool.lookup (validBits block)).getD 0
  else (t.mixed.lookup block).getD 0

/-- The table after `n` blocks. -/
structure Built (flat : List ℕ) (n : ℕ) (t : TwoLevel) : Prop where
  stage1 : t.stage1 = (List.range n).map fun i => refOf t (blockAt flat i)
  bool_filled : t.bool.Filled 1 1 fun bits => [bits]
  bool_le : t.bool.places.length ≤ n
  bool_mem : ∀ i < n, isBool (blockAt flat i) = true →
    ∃ v, t.bool.lookup (validBits (blockAt flat i)) = some v
  mixed_filled : t.mixed.Filled 1 64 id
  mixed_mem : ∀ block, block ∈ t.mixed.keys ↔
    ∃ i < n, isBool (blockAt flat i) = false ∧ blockAt flat i = block
  mem_mixed : ∀ v ∈ t.mixed.data, ∃ i < n, v ∈ blockAt flat i

theorem built_zero (flat : List ℕ) : Built flat 0 ⟨[], .empty, .empty⟩ := by
  refine ⟨rfl, Pool.filled_empty, le_rfl, nofun, Pool.filled_empty, fun block => ⟨nofun, ?_⟩,
    nofun⟩
  rintro ⟨i, hi, -⟩
  exact absurd hi (Nat.not_lt_zero i)

/-- What the first level says about a block stays, whatever is stored later. -/
theorem refOf_congr {t' : TwoLevel} (hbool : isBool block = true →
      t'.bool.lookup (validBits block) = t.bool.lookup (validBits block))
    (hmixed : isBool block = false → t'.mixed.lookup block = t.mixed.lookup block) :
    refOf t' block = refOf t block := by
  rw [refOf, refOf]
  split
  · rename_i h
    rw [hbool h]
  · rename_i h
    rw [hmixed (Bool.eq_false_iff.mpr h)]

theorem Built.exists_mixed (h : Built flat n t) (hi : i < n)
    (hmixed : isBool (blockAt flat i) = false) : ∃ v, t.mixed.lookup (blockAt flat i) = some v := by
  rcases hv : t.mixed.lookup (blockAt flat i) with - | v
  · exact absurd ((h.mixed_mem _).mpr ⟨i, hi, hmixed, rfl⟩) (Pool.lookup_eq_none_iff.mp hv)
  · exact ⟨v, rfl⟩

/-- **One more block.** -/
theorem Built.addBlock (h : Built flat n t) : Built flat (n + 1) (addBlock flat t n) := by
  have hlt : ∀ {i}, i < n + 1 → i < n ∨ i = n := fun hi => Nat.lt_succ_iff_lt_or_eq.mp hi
  rw [IdnaTable.addBlock]
  dsimp only
  split
  · rename_i hb
    refine ⟨?_, h.bool_filled.insert rfl ?_, ?_, fun i hi hbi => ?_, h.mixed_filled,
      fun block => ?_, fun v hv => ?_⟩
    · dsimp only
      rw [h.stage1, List.range_succ, List.map_append, List.map_singleton]
      refine congrArg₂ (· ++ ·) (List.map_congr_left fun i hi => ?_) ?_
      · refine Eq.symm (refOf_congr (fun hbi => ?_) fun _ => rfl)
        obtain ⟨v, hv⟩ := h.bool_mem i (List.mem_range.mp hi) hbi
        rw [hv]
        exact Pool.lookup_insert_of_eq_some hv
      · rw [refOf, if_pos hb]
    · exact h.bool_filled.length_data.trans (Nat.one_mul _)
    · exact Pool.length_places_insert_le.trans (Nat.succ_le_succ h.bool_le)
    · rcases hlt hi with hi | rfl
      · obtain ⟨v, hv⟩ := h.bool_mem i hi hbi
        exact ⟨v, Pool.lookup_insert_of_eq_some hv⟩
      · exact Pool.exists_lookup_insert_self _ _ _ _
    · rw [h.mixed_mem]
      refine ⟨fun ⟨i, hi, hmi⟩ => ⟨i, Nat.lt_succ_of_lt hi, hmi⟩, fun ⟨i, hi, hmi, heq⟩ => ?_⟩
      rcases hlt hi with hi | rfl
      · exact ⟨i, hi, hmi, heq⟩
      · rw [hb] at hmi
        cases hmi
    · obtain ⟨i, hi, hvi⟩ := h.mem_mixed v hv
      exact ⟨i, Nat.lt_succ_of_lt hi, hvi⟩
  · rename_i hb
    have hb' : isBool (blockAt flat n) = false := Bool.eq_false_iff.mpr hb
    refine ⟨?_, h.bool_filled, h.bool_le.trans (Nat.le_succ n), fun i hi hbi => ?_,
      h.mixed_filled.insert (length_blockAt flat n) ?_, fun block => ?_, fun v hv => ?_⟩
    · dsimp only
      rw [h.stage1, List.range_succ, List.map_append, List.map_singleton]
      refine congrArg₂ (· ++ ·) (List.map_congr_left fun i hi => ?_) ?_
      · refine Eq.symm (refOf_congr (fun _ => rfl) fun hmi => ?_)
        obtain ⟨v, hv⟩ := h.exists_mixed (List.mem_range.mp hi) hmi
        rw [hv]
        exact Pool.lookup_insert_of_eq_some hv
      · rw [refOf, if_neg hb]
    · rcases hlt hi with hi | rfl
      · exact h.bool_mem i hi hbi
      · exact absurd hbi hb
    · exact h.mixed_filled.length_data.trans (Nat.one_mul _)
    · dsimp only
      rw [Pool.mem_keys_insert, h.mixed_mem]
      constructor
      · rintro (⟨i, hi, hmi⟩ | rfl)
        · exact ⟨i, Nat.lt_succ_of_lt hi, hmi⟩
        · exact ⟨n, Nat.lt_succ_self n, hb', rfl⟩
      · rintro ⟨i, hi, hmi, rfl⟩
        rcases hlt hi with hi | rfl
        · exact .inl ⟨i, hi, hmi, rfl⟩
        · exact .inr rfl
    · rcases Pool.mem_data_insert hv with hv | hv
      · obtain ⟨i, hi, hvi⟩ := h.mem_mixed v hv
        exact ⟨i, Nat.lt_succ_of_lt hi, hvi⟩
      · exact ⟨n, Nat.lt_succ_self n, hv⟩

/-- **The table is built** from all blocks. -/
theorem built_buildTwoLevel (flat : List ℕ) :
    Built flat ((flat.length + blockSize - 1) / blockSize) (buildTwoLevel flat) := by
  rw [buildTwoLevel]
  induction (flat.length + blockSize - 1) / blockSize with
  | zero => exact built_zero flat
  | succ n ih =>
    rw [List.range_succ, List.foldl_append, List.foldl_cons, List.foldl_nil]
    exact ih.addBlock

/-- The places fit into 16 bits as long as there are at most 1024 blocks. -/
theorem Built.lt_of_mem_stage1 (h : Built flat n t) (hn : n ≤ 0x8000)
    (hplace : t.mixed.places.length ≤ 1024) : ∀ v ∈ t.stage1, v < 0x10000 := by
  intro v hv
  rw [h.stage1, List.mem_map] at hv
  obtain ⟨i, hi, rfl⟩ := hv
  have hi := List.mem_range.mp hi
  rw [refOf]
  split
  · rename_i hb
    obtain ⟨w, hw⟩ := h.bool_mem i hi hb
    obtain ⟨j, hj, rfl⟩ := h.bool_filled.spaced.eq_mul hw
    have hj' : 1 * j < 2 ^ 16 := by
      have := h.bool_le
      omega
    rw [hw]
    exact Nat.or_lt_two_pow (by decide) hj'
  · rename_i hb
    obtain ⟨w, hw⟩ := h.exists_mixed hi (Bool.eq_false_iff.mpr hb)
    obtain ⟨j, hj, rfl⟩ := h.mixed_filled.spaced.eq_mul hw
    rw [hw, Option.getD_some]
    omega

/-! ### Reading -/

/-- The arrays and constants of the table store are the generated ones. -/
structure Holds (T : TableData) (g : Generated) : Prop where
  ensureTables : T.ensureTables = true
  lowRangeEnd : T.idnaLowRangeEnd = g.lowRangeEnd
  highIgnoredStart : T.idnaHighIgnoredStart = g.highIgnoredStart
  highIgnoredEnd : T.idnaHighIgnoredEnd = g.highIgnoredEnd
  stage1 : ∀ i v, g.stage1[i]? = some v → T.idnaStage1 i = v
  mixedData : ∀ i v, g.mixedData[i]? = some v → T.idnaStage2 i = v
  boolWords : ∀ i v, g.boolWords[i]? = some v → T.idnaBoolBlocks i = v
  utf8Table : T.idnaUtf8Mappings = g.utf8Table

/-- A reference with bit 15 clear is a place in the second level. -/
theorem idnaLookup_of_lt (hlow : cp < T.idnaLowRangeEnd)
    (href : T.idnaStage1 (cp / 64) < 0x8000) :
    idnaLookup T cp = T.idnaStage2 (T.idnaStage1 (cp / 64) + cp % 64) := by
  have hshift : cp >>> idnaBlockBits = cp / 64 := Nat.shiftRight_eq_div_pow cp 6
  have hmask : cp &&& idnaBlockMask = cp % 64 := Nat.and_two_pow_sub_one_eq_mod cp 6
  have hflag : T.idnaStage1 (cp / 64) &&& idnaBoolFlag = 0 :=
    (and_mask_eq_zero_iff (k := 15) (j := 1) (href.trans (by decide))).mpr href
  rw [idnaLookup, if_pos hlow, hshift, hmask]
  dsimp only
  rw [if_neg (not_not.mpr hflag)]

/-- One with bit 15 set is the number of a bit word. -/
theorem idnaLookup_of_ge (hlow : cp < T.idnaLowRangeEnd)
    (href : 0x8000 ≤ T.idnaStage1 (cp / 64)) (href' : T.idnaStage1 (cp / 64) < 0x10000) :
    idnaLookup T cp
      = if (T.idnaBoolBlocks (T.idnaStage1 (cp / 64) - 0x8000)).testBit (cp % 64) then idnaValid
        else idnaDisallowed := by
  have hshift : cp >>> idnaBlockBits = cp / 64 := Nat.shiftRight_eq_div_pow cp 6
  have hmask : cp &&& idnaBlockMask = cp % 64 := Nat.and_two_pow_sub_one_eq_mod cp 6
  have hflag : T.idnaStage1 (cp / 64) &&& idnaBoolFlag ≠ 0 := fun h =>
    absurd ((and_mask_eq_zero_iff (k := 15) (j := 1) href').mp h) (not_lt.mpr href)
  have hword : T.idnaStage1 (cp / 64) &&& (0xFFFF - idnaBoolFlag)
      = T.idnaStage1 (cp / 64) - 0x8000 := by
    have hmod := Nat.and_two_pow_sub_one_eq_mod (T.idnaStage1 (cp / 64)) 15
    apply hmod.trans
    omega
  have hlt : cp % 64 < 64 := Nat.mod_lt cp (by decide)
  have hindex : ((T.idnaStage1 (cp / 64) - 0x8000) * idnaBlockSize + cp % 64) >>> 6
      = T.idnaStage1 (cp / 64) - 0x8000 := by
    rw [Nat.shiftRight_eq_div_pow]
    show (_ * 64 + _) / 64 = _
    omega
  have hbit : ((T.idnaStage1 (cp / 64) - 0x8000) * idnaBlockSize + cp % 64) &&& 63 = cp % 64 := by
    apply (Nat.and_two_pow_sub_one_eq_mod _ 6).trans
    show (_ * 64 + _) % 64 = _
    omega
  rw [idnaLookup, if_pos hlow, hshift, hmask]
  dsimp only
  rw [if_pos hflag, hword, hindex, hbit]
  refine if_congr ?_ rfl rfl
  rw [Nat.testBit, bne_iff_ne, Nat.and_comm]

variable {g : Generated}

/-- **The reader finds the number** in a block of sentinels, and in any other
block whose place has bit 15 clear. -/
theorem idnaLookup_eq (h : Built flat n t) (hn : n ≤ 0x8000)
    (hstage1 : ∀ i v, t.stage1[i]? = some v → T.idnaStage1 i = v)
    (hmixed : ∀ i v, t.mixed.data[i]? = some v → T.idnaStage2 i = v)
    (hbool : ∀ i v, t.bool.data[i]? = some v → T.idnaBoolBlocks i = v)
    (hlow : cp < T.idnaLowRangeEnd) (hi : cp / 64 < n)
    (hv : (blockAt flat (cp / 64))[cp % 64]? = some v)
    (hplace : t.mixed.places.length ≤ 512) : idnaLookup T cp = v := by
  have href : T.idnaStage1 (cp / 64) = refOf t (blockAt flat (cp / 64)) := by
    apply hstage1 _ _
    rw [h.stage1, List.getElem?_map, List.getElem?_range hi]
    rfl
  cases hb : isBool (blockAt flat (cp / 64)) with
  | true =>
    obtain ⟨w, hw⟩ := h.bool_mem _ hi hb
    obtain ⟨j, hj, rfl⟩ := h.bool_filled.spaced.eq_mul hw
    rw [Nat.one_mul] at hw
    have hj' : j < 2 ^ 15 := hj.trans_le (h.bool_le.trans hn)
    have hor : boolFlag ||| j = 0x8000 + j := (Nat.two_pow_add_eq_or_of_lt hj' 1).symm
    rw [refOf, if_pos hb, hw, Option.getD_some, hor] at href
    have hword : T.idnaBoolBlocks j = validBits (blockAt flat (cp / 64)) := by
      apply hbool j _
      have := h.bool_filled.stores.getElem? (j := 0) hw (by simp)
      simpa using this
    rw [idnaLookup_of_ge hlow (by omega) (by omega), href, Nat.add_sub_cancel_left, hword,
      testBit_validBits, hv]
    rcases (isBool_iff.mp hb) v (List.mem_of_getElem? hv) with rfl | rfl
    · rfl
    · rfl
  | false =>
    obtain ⟨w, hw⟩ := h.exists_mixed hi hb
    obtain ⟨j, hj, rfl⟩ := h.mixed_filled.spaced.eq_mul hw
    rw [refOf, if_neg (by rw [hb]; decide), hw, Option.getD_some] at href
    rw [idnaLookup_of_lt hlow (by omega), href]
    apply hmixed _ _
    have hlt : cp % 64 < (blockAt flat (cp / 64)).length := by
      rw [length_blockAt]
      exact Nat.mod_lt cp (by decide)
    have hget := h.mixed_filled.stores.getElem? hw hlt
    rw [Nat.one_mul] at hget
    exact hget.trans hv

/-- **A block too many**: in some block that is not one of sentinels, the
reader finds nothing but sentinels. -/
theorem exists_misread (h : Built flat n t)
    (hstage1 : ∀ i v, t.stage1[i]? = some v → T.idnaStage1 i = v)
    (hplace : 512 < t.mixed.places.length) :
    ∃ i < n, isBool (blockAt flat i) = false ∧ ∀ k < 64, 64 * i + k < T.idnaLowRangeEnd →
      idnaLookup T (64 * i + k) = idnaValid ∨ idnaLookup T (64 * i + k) = idnaDisallowed := by
  obtain ⟨block, hkey, hlookup⟩ := h.mixed_filled.spaced.exists_key h.mixed_filled.nodup hplace
  obtain ⟨i, hi, hb, rfl⟩ := (h.mixed_mem block).mp hkey
  have href : T.idnaStage1 i = 0x8000 := by
    apply hstage1 _ _
    rw [h.stage1, List.getElem?_map, List.getElem?_range hi, Option.map_some, refOf,
      if_neg (by rw [hb]; decide), hlookup]
    rfl
  refine ⟨i, hi, hb, fun k hk hlow => ?_⟩
  have hdiv : (64 * i + k) / 64 = i := by omega
  rw [idnaLookup_of_ge hlow (by rw [hdiv, href]) (by rw [hdiv, href]; decide)]
  split
  · exact .inl rfl
  · exact .inr rfl

end IdnaTable

end AdaIdna
