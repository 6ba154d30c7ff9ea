/-
AdaIdna/IdnaMeaning.lean

The generated mapping tables mean what the source table says.

Below the end of the two-level table the reader finds the number of the status
of a code point, and from there on the high ignored range is all there is
(`statusOf_of_ge`).  The generator does not check that the places of the
blocks stored in full leave bit 15 of the first level free, so its tables are
right for at most 512 such blocks (`map_singleton_eq_image`), and a table with
one more is misread (`overfull_misread`).
-/
import AdaIdna.IdnaLevels
import AdaIdna.TableShape

namespace AdaIdna

namespace IdnaTable

variable {entries : List Entry} {e : Entry} {cp c i k : ℕ} {s : U32String} {g : Generated}
  {T : Tables}

/-! ### Layout -/

/-- The high ignored range reaches from an entry to an entry, if there is any. -/
theorem highIgnored_cases (entries : List Entry) :
    (highIgnored entries = (0x110000, 0x110000) ∧
      ∀ e ∈ entries, ¬ (e.code = .ignored ∧ 0xE0000 ≤ e.cpStart)) ∨
    ∃ first ∈ entries, ∃ last ∈ entries, 0xE0000 ≤ first.cpStart ∧
      highIgnored entries = (first.cpStart, last.cpEnd + 1) ∧
      ∀ e ∈ entries, e.code = .ignored ∧ 0xE0000 ≤ e.cpStart → e.cpEnd ≤ last.cpEnd := by
  have hmem : ∀ {e}, e ∈ entries.filter (fun e => e.code = .ignored ∧ 0xE0000 ≤ e.cpStart) ↔
      e ∈ entries ∧ e.code = .ignored ∧ 0xE0000 ≤ e.cpStart := by
    intro e
    rw [List.mem_filter, decide_eq_true_iff]
  rw [highIgnored, findHighIgnoredRange]
  generalize entries.filter (fun e => e.code = .ignored ∧ 0xE0000 ≤ e.cpStart) = l at hmem
  cases l with
  | nil =>
    refine .inl ⟨rfl, fun e he hhigh => ?_⟩
    exact absurd (hmem.mpr ⟨he, hhigh⟩) List.not_mem_nil
  | cons f l =>
    obtain ⟨start, hmin⟩ := Option.ne_none_iff_exists'.mp
      (show ((f :: l).map Entry.cpStart).min? ≠ none by simp)
    obtain ⟨stop, hmax⟩ := Option.ne_none_iff_exists'.mp
      (show ((f :: l).map Entry.cpEnd).max? ≠ none by simp)
    rw [hmin, hmax]
    obtain ⟨first, hfirst, rfl⟩ := List.mem_map.mp (List.min?_mem hmin)
    obtain ⟨hstop, hle⟩ := List.max?_eq_some_iff.mp hmax
    obtain ⟨last, hlast, rfl⟩ := List.mem_map.mp hstop
    refine .inr ⟨first, (hmem.mp hfirst).1, last, (hmem.mp hlast).1, (hmem.mp hfirst).2.2, rfl, ?_⟩
    exact fun e he hhigh => hle _ (List.mem_map_of_mem (hmem.mpr ⟨he, hhigh⟩))

/-- The high ignored range begins at U+E0000 or behind it. -/
theorem le_highIgnored (entries : List Entry) : 0xE0000 ≤ (highIgnored entries).1 := by
  rcases highIgnored_cases entries with ⟨heq, -⟩ | ⟨first, -, last, -, hge, heq, -⟩
  · rw [heq]
    decide
  · rw [heq]
    exact hge

/-- Every ignored entry from U+E0000 on ends before the end of the range. -/
theorem cpEnd_lt_highIgnored (he : e ∈ entries) (hcode : e.code = .ignored)
    (hstart : 0xE0000 ≤ e.cpStart) : e.cpEnd < (highIgnored entries).2 := by
  rcases highIgnored_cases entries with ⟨-, hnone⟩ | ⟨first, -, last, -, -, heq, hle⟩
  · exact absurd ⟨hcode, hstart⟩ (hnone e he)
  · rw [heq]
    exact Nat.lt_succ_of_le (hle e he ⟨hcode, hstart⟩)

theorem highIgnored_le (hw : WellFormed entries) : (highIgnored entries).2 ≤ codeSpace := by
  rcases highIgnored_cases entries with ⟨heq, -⟩ | ⟨first, -, last, hlast, -, heq, -⟩
  · rw [heq]
    decide
  · rw [heq]
    exact hw.lt last hlast

/-- The entries that count for the end of the two-level table. -/
theorem computeLowRangeEnd_spec (entries : List Entry) (start : ℕ) :
    64 ∣ computeLowRangeEnd entries start ∧
      (∀ e ∈ entries, e.cpStart < start → e.code ≠ .disallowed →
        e.cpEnd < computeLowRangeEnd entries start) ∧
      ((∀ e ∈ entries, e.cpEnd < codeSpace) → computeLowRangeEnd entries start ≤ codeSpace) := by
  rw [computeLowRangeEnd]
  have hround : ∀ m : ℕ, ((m >>> blockBits) + 1) <<< blockBits = 64 * (m / 64 + 1) := fun m => by
    rw [Nat.shiftRight_eq_div_pow, Nat.shiftLeft_eq, Nat.mul_comm]
    rfl
  rw [hround]
  refine ⟨Dvd.intro _ rfl, ?_⟩
  suffices h : (∀ e ∈ entries, e.cpStart < start → e.code ≠ .disallowed →
      e.cpEnd ≤ entries.foldl (activeStep start) 0) ∧
      ((∀ e ∈ entries, e.cpEnd < codeSpace) →
        entries.foldl (activeStep start) 0 < codeSpace) by
    refine ⟨fun e he hs hc => ?_, fun hlt => ?_⟩
    · have := h.1 e he hs hc
      omega
    · have := h.2 hlt
      rw [codeSpace] at *
      omega
  induction entries using List.reverseRecOn with
  | nil => exact ⟨nofun, fun _ => Nat.succ_pos _⟩
  | append_singleton entries f ih =>
    rw [List.foldl_append, List.foldl_cons, List.foldl_nil, activeStep]
    refine ⟨fun e he hs hc => ?_, fun hlt => ?_⟩
    · rcases List.mem_append.mp he with he | he
      · have := ih.1 e he hs hc
        split_ifs
        · exact this
        · exact this.trans (le_max_left _ _)
        · exact this
      · rw [← List.mem_singleton.mp he, if_neg (not_le.mpr hs), if_pos hc]
        exact le_max_right _ _
    · have hpre := ih.2 fun e he => hlt e (List.mem_append_left _ he)
      have hlast := hlt f (by simp)
      split_ifs
      · exact hpre
      · exact max_lt hpre hlast
      · exact hpre

/-- **Behind the two-level table** there is nothing but the high ignored range. -/
theorem statusOf_of_ge (hw : WellFormed entries)
    (h : computeLowRangeEnd entries (highIgnored entries).1 ≤ cp) :
    statusOf entries cp
      = if (highIgnored entries).1 ≤ cp ∧ cp < (highIgnored entries).2 then .text []
        else .disallowed := by
  split
  · rename_i hin
    obtain ⟨e, he, hcode, hc⟩ := hw.high_contiguous cp hin.1 hin.2
    rw [statusOf_of_covers hw.disjoint he hc, Entry.status, hcode]
  · rename_i hout
    by_contra hne
    obtain ⟨e, he, ⟨hlo, hhi⟩, hstatus⟩ := exists_covers hne
    have hcode : e.code ≠ .disallowed := by
      intro hcode
      rw [← hstatus, Entry.status, hcode] at hne
      exact hne rfl
    rcases Nat.lt_or_ge e.cpStart (highIgnored entries).1 with hlt | hge
    · have := (computeLowRangeEnd_spec entries (highIgnored entries).1).2.1 e he hlt hcode
      omega
    · have hign := (hw.high_ignored e he hge).resolve_right hcode
      have := cpEnd_lt_highIgnored he hign ((le_highIgnored entries).trans hge)
      exact hout ⟨hge.trans hlo, by omega⟩

/-! ### Blocks of statuses -/

def isText : Status → Bool
  | .text _ => true
  | _ => false

/-- The statuses of 64 code points. -/
def statusBlock (entries : List Entry) (i : ℕ) : List Status :=
  (List.range 64).map fun k => statusOf entries (64 * i + k)

/-- The blocks of the two-level table that are stored in full, that is, have a
code point which is neither valid nor disallowed. -/
def mixedBlocks (entries : List Entry) : Finset (List Status) :=
  ((Finset.range (computeLowRangeEnd entries (highIgnored entries).1 / 64)).image
    (statusBlock entries)).filter fun block => block.any isText

variable {utf8 : Pool U32String UInt8} {low : ℕ}

/-- A block of the flat array is a block of statuses. -/
theorem blockAt_buildFlat (hw : WellFormed entries) (hi : 64 * i + 64 ≤ low) :
    blockAt (buildFlat entries low) i
      = (statusBlock entries i).map (valueOf (buildMappings entries)) := by
  have hlen : (statusBlock entries i).length = 64 := by
    rw [statusBlock, List.length_map, List.length_range]
  apply List.ext_getElem?
  intro k
  rcases Nat.lt_or_ge k 64 with hk | hk
  · rw [getElem?_blockAt hk (by rw [length_buildFlat hw]; omega),
      getElem?_buildFlat hw (by omega), statusBlock, List.map_map, Buffer.getElem?_map_range hk]
    rfl
  · have hk' : (blockAt (buildFlat entries low) i).length ≤ k := by
      rw [length_blockAt]
      exact hk
    rw [List.getElem?_eq_none hk', List.getElem?_eq_none (by rw [List.length_map, hlen]; exact hk)]

/-- Blocks with a string are those that are not of sentinels. -/
theorem isBool_blockAt (hw : WellFormed entries)
    (hsize : (buildMappings entries).data.length < 0xFFFD) (hi : 64 * i + 64 ≤ low) :
    isBool (blockAt (buildFlat entries low) i) = !(statusBlock entries i).any isText := by
  have hval : ∀ cp, (valueOf (buildMappings entries) (statusOf entries cp) = sentinelValid ∨
      valueOf (buildMappings entries) (statusOf entries cp) = sentinelDisallowed) ↔
      isText (statusOf entries cp) = false := by
    intro cp
    cases h : statusOf entries cp with
    | disallowed => exact ⟨fun _ => rfl, fun _ => .inr rfl⟩
    | valid => exact ⟨fun _ => rfl, fun _ => .inl rfl⟩
    | text s =>
      have hlt := (valueOf_text hw hsize h).2
      refine ⟨fun hor => ?_, nofun⟩
      rcases hor with heq | heq
      · exact absurd (heq.symm.trans_lt hlt) (by decide)
      · exact absurd (heq.symm.trans_lt hlt) (by decide)
  rw [Bool.eq_iff_iff, isBool_iff, Bool.not_eq_true', List.any_eq_false,
    blockAt_buildFlat hw hi, statusBlock]
  simp only [List.forall_mem_map, List.mem_range, hval, Bool.not_eq_true]

/-- **The blocks stored in full**, counted. -/
theorem length_places_mixed (hw : WellFormed entries)
    (hsize : (buildMappings entries).data.length < 0xFFFD) {t : TwoLevel}
    (h : Built (buildFlat entries (computeLowRangeEnd entries (highIgnored entries).1))
      (computeLowRangeEnd entries (highIgnored entries).1 / 64) t) :
    t.mixed.places.length = (mixedBlocks entries).card := by
  have hin : ∀ {i}, i < computeLowRangeEnd entries (highIgnored entries).1 / 64 →
      64 * i + 64 ≤ computeLowRangeEnd entries (highIgnored entries).1 := by
    intro i hi
    omega
  have hkeys : t.mixed.keys.toFinset
      = (mixedBlocks entries).image (List.map (valueOf (buildMappings entries))) := by
    ext block
    rw [List.mem_toFinset, h.mixed_mem, Finset.mem_image]
    constructor
    · rintro ⟨i, hi, hb, rfl⟩
      rw [isBool_blockAt hw hsize (hin hi), Bool.not_eq_false'] at hb
      exact ⟨statusBlock entries i, Finset.mem_filter.mpr
        ⟨Finset.mem_image_of_mem _ (Finset.mem_range.mpr hi), hb⟩,
        (blockAt_buildFlat hw (hin hi)).symm⟩
    · rintro ⟨b, hb, rfl⟩
      obtain ⟨hb, htext⟩ := Finset.mem_filter.mp hb
      obtain ⟨i, hi, rfl⟩ := Finset.mem_image.mp hb
      have hi' := hin (Finset.mem_range.mp hi)
      exact ⟨i, Finset.mem_range.mp hi, by rw [isBool_blockAt hw hsize hi', htext]; rfl,
        blockAt_buildFlat hw hi'⟩
  rw [← Pool.length_keys, ← List.toFinset_card_of_nodup h.mixed_filled.nodup, hkeys,
    Finset.card_image_of_injOn]
  -- the numbers tell the statuses
  intro b hb b' hb' heq
  obtain ⟨i, -, rfl⟩ := Finset.mem_image.mp (Finset.mem_filter.mp hb).1
  obtain ⟨j, -, rfl⟩ := Finset.mem_image.mp (Finset.mem_filter.mp hb').1
  rw [statusBlock, statusBlock, List.map_map, List.map_map, List.map_inj_left] at heq
  exact List.map_congr_left fun k hk => valueOf_inj hw hsize (heq k hk)

/-- What is stored in full fits into 16 bits. -/
theorem lt_of_mem_mixed (hw : WellFormed entries)
    (hsize : (buildMappings entries).data.length < 0xFFFD) {t : TwoLevel}
    (h : Built (buildFlat entries low) (low / 64) t) : ∀ v ∈ t.mixed.data, v < 0x10000 := by
  intro v hv
  obtain ⟨i, hi, hv⟩ := h.mem_mixed v hv
  rw [blockAt_buildFlat hw (by omega)] at hv
  obtain ⟨st, hst, rfl⟩ := List.mem_map.mp hv
  obtain ⟨k, -, rfl⟩ := List.mem_map.mp hst
  cases h : statusOf entries (64 * i + k) with
  | disallowed => exact (by decide : sentinelDisallowed < 0x10000)
  | valid => exact (by decide : sentinelValid < 0x10000)
  | text s => exact (valueOf_text hw hsize h).2.trans (by decide)

/-! ### The mapping of a code point -/

theorem map_singleton (htables : T.ensureTables = true) (cp : ℕ) :
    map T [cp] = AdaIdna.image T cp := by
  rcases himage : AdaIdna.image T cp with - | m
  · rw [Option.eq_none_iff_forall_ne_some]
    intro m hm
    have hsome := (map_eq_some.mp hm).2.1 cp (List.mem_singleton_self cp)
    rw [himage] at hsome
    cases hsome
  · refine map_eq_some.mpr ⟨htables, fun c hc => ?_, ?_⟩
    · rw [List.mem_singleton.mp hc, himage]
      rfl
    · rw [List.flatMap_singleton, imageOf_of_eq himage]

/-- The number of the status gives the image of the status. -/
theorem image_eq (hw : WellFormed entries) (hsize : (buildMappings entries).data.length < 0xFFFD)
    (hutf8 : T.idnaUtf8Mappings = (buildMappings entries).data)
    (h : idnaLookup T cp = valueOf (buildMappings entries) (statusOf entries cp)) :
    AdaIdna.image T cp = (statusOf entries cp).image cp := by
  cases hst : statusOf entries cp with
  | disallowed =>
    rw [AdaIdna.image, h, hst]
    rfl
  | valid =>
    rw [AdaIdna.image, h, hst]
    rfl
  | text s =>
    obtain ⟨hs, hlt⟩ := valueOf_text hw hsize hst
    obtain ⟨hv, hstring⟩ := mappingString_offset hw hs
    rw [hst] at h
    have hdis : ¬ idnaLookup T cp = idnaDisallowed := fun heq =>
      absurd (heq.symm.trans_lt (h.trans_lt hlt)) (by decide)
    have hval : ¬ idnaLookup T cp = idnaValid := fun heq =>
      absurd (heq.symm.trans_lt (h.trans_lt hlt)) (by decide)
    rw [AdaIdna.image, if_neg hdis, if_neg hval, h, hutf8, if_neg (not_le.mpr hv), mappingAt,
      hutf8, hstring]
    rfl

/-- What the assertions of `generate_idna` check, and what it returns. -/
theorem of_generateIdna (h : generateIdna entries = some g) :
    (buildMappings entries).data.length < 0xFFFD ∧
      (buildTwoLevel (buildFlat entries g.lowRangeEnd)).stage1.length ≤ 0x8000 ∧
      g.lowRangeEnd = computeLowRangeEnd entries (highIgnored entries).1 ∧
      g.highIgnoredStart = (highIgnored entries).1 ∧ g.highIgnoredEnd = (highIgnored entries).2 ∧
      g.stage1 = (buildTwoLevel (buildFlat entries g.lowRangeEnd)).stage1 ∧
      g.mixedData = (buildTwoLevel (buildFlat entries g.lowRangeEnd)).mixed.data ∧
      g.boolWords = (buildTwoLevel (buildFlat entries g.lowRangeEnd)).bool.data ∧
      g.utf8Table = (buildMappings entries).data := by
  rw [generateIdna] at h
  split at h
  · rename_i hassert
    cases h
    exact ⟨hassert.2.1, hassert.2.2, rfl, rfl, rfl, rfl, rfl, rfl, rfl⟩
  · cases h

theorem exists_generateIdna (hw : WellFormed entries)
    (hsize : (buildMappings entries).data.length < 0xFFFD)
    (hlen : (buildTwoLevel (buildFlat entries
      (computeLowRangeEnd entries (highIgnored entries).1))).stage1.length ≤ 0x8000) :
    ∃ g, generateIdna entries = some g := ⟨_, if_pos ⟨hw.encodes, hsize, hlen⟩⟩

/-- The table is built from whole blocks. -/
theorem built_of_dvd (hw : WellFormed entries) (hlow : 64 ∣ low) :
    Built (buildFlat entries low) (low / 64) (buildTwoLevel (buildFlat entries low)) := by
  have hbuilt := built_buildTwoLevel (buildFlat entries low)
  have hn : ((buildFlat entries low).length + blockSize - 1) / blockSize = low / 64 := by
    rw [length_buildFlat hw]
    show (low + 64 - 1) / 64 = low / 64
    omega
  rwa [hn] at hbuilt

/-- **At most 512 blocks stored in full**: every code point is mapped to what
the source table says. -/
theorem map_eq_of_card_le (hw : WellFormed entries) (hg : generateIdna entries = some g)
    (h : Holds T.toTableData g) (hcard : (mixedBlocks entries).card ≤ 512) :
    map T [cp] = (statusOf entries cp).image cp := by
  obtain ⟨hsize, hlen, hlow, hstart, hend, hstage1, hmixed, hbool, hutf8⟩ := of_generateIdna hg
  have hdvd := (computeLowRangeEnd_spec entries (highIgnored entries).1).1
  rw [← hlow] at hdvd
  have hbuilt := built_of_dvd hw hdvd
  rw [map_singleton h.ensureTables]
  apply image_eq hw hsize (h.utf8Table.trans hutf8)
  rcases Nat.lt_or_ge cp g.lowRangeEnd with hcp | hcp
  · have hi : cp / 64 < g.lowRangeEnd / 64 := by omega
    refine idnaLookup_eq hbuilt ?_ (hstage1 ▸ h.stage1) (hmixed ▸ h.mixedData)
      (hbool ▸ h.boolWords) (hcp.trans_eq h.lowRangeEnd.symm) hi ?_ ?_
    · rw [hbuilt.stage1, List.length_map, List.length_range] at hlen
      exact hlen
    · have hsplit := Nat.div_add_mod cp 64
      rw [getElem?_blockAt (Nat.mod_lt cp (by decide)) (by rw [length_buildFlat hw]; omega),
        hsplit, getElem?_buildFlat hw hcp]
    · rw [hlow] at hbuilt ⊢
      rw [length_places_mixed hw hsize hbuilt]
      exact hcard
  · rw [idnaLookup, if_neg (by rw [h.lowRangeEnd]; exact not_lt.mpr hcp), h.highIgnoredStart,
      h.highIgnoredEnd, hstart, hend, statusOf_of_ge hw (hlow ▸ hcp)]
    have hnil := (mappings_buildMappings entries).lookup_nil
    split
    · rw [valueOf, hnil]
      rfl
    · rfl

/-- **One block too many**: some code point that has a string in the source
table is failed or mapped to itself. -/
theorem exists_map_ne_of_card_lt (hw : WellFormed entries) (hg : generateIdna entries = some g)
    (h : Holds T.toTableData g) (hcard : 512 < (mixedBlocks entries).card) :
    ∃ cp < codeSpace, ∃ s, statusOf entries cp = .text s ∧
      (map T [cp] = none ∨ map T [cp] = some [cp]) := by
  obtain ⟨hsize, -, hlow, -, -, hstage1, -⟩ := of_generateIdna hg
  have hspec := computeLowRangeEnd_spec entries (highIgnored entries).1
  rw [← hlow] at hspec
  have hbuilt := built_of_dvd hw hspec.1
  have hplace : 512 < (buildTwoLevel (buildFlat entries g.lowRangeEnd)).mixed.places.length := by
    rw [hlow] at hbuilt ⊢
    rwa [length_places_mixed hw hsize hbuilt]
  obtain ⟨i, hi, hmixed, hread⟩ := exists_misread hbuilt (hstage1 ▸ h.stage1) hplace
  rw [isBool_blockAt hw hsize (by omega), Bool.not_eq_false', List.any_eq_true] at hmixed
  obtain ⟨st, hst, htext⟩ := hmixed
  obtain ⟨k, hk, rfl⟩ := List.mem_map.mp hst
  have hk := List.mem_range.mp hk
  have hcp : 64 * i + k < g.lowRangeEnd := by omega
  refine ⟨64 * i + k, hcp.trans_le (hspec.2.2 hw.lt), ?_⟩
  rw [map_singleton h.ensureTables]
  cases hs : statusOf entries (64 * i + k) with
  | disallowed =>
    rw [hs] at htext
    cases htext
  | valid =>
    rw [hs] at htext
    cases htext
  | text s =>
    refine ⟨s, rfl, ?_⟩
    rcases hread k hk (hcp.trans_eq h.lowRangeEnd.symm) with hval | hdis
    · exact .inr (image_of_valid hval)
    · rw [AdaIdna.image, hdis]
      exact .inl rfl

/-- **The generated mapping tables mean what the source table says** whenever
at most 512 distinct blocks are stored in full, and if no code point is mapped
to itself, only then. -/
theorem map_singleton_eq_image (hw : WellFormed entries) (hg : generateIdna entries = some g)
    (h : Holds T.toTableData g) :
    ((mixedBlocks entries).card ≤ 512 →
      ∀ cp < codeSpace, map T [cp] = (statusOf entries cp).image cp) ∧
    ((∀ cp, statusOf entries cp ≠ .text [cp]) →
      (∀ cp < codeSpace, map T [cp] = (statusOf entries cp).image cp) →
      (mixedBlocks entries).card ≤ 512) := by
  refine ⟨fun hcard cp _ => map_eq_of_card_le hw hg h hcard, fun hself hmap => ?_⟩
  by_contra hcard
  obtain ⟨cp, hcp, s, hs, hread⟩ := exists_map_ne_of_card_lt hw hg h (not_le.mp hcard)
  have himage := hmap cp hcp
  rw [hs, Status.image] at himage
  rcases hread with hnone | hsome
  · rw [hnone] at himage
    cases himage
  · rw [hsome, Option.some.injEq] at himage
    exact hself cp (by rw [hs, himage])

/-! ### Tables that hold what is generated -/

/-- Other tables with generated mapping tables. -/
def withGenerated (T : Tables) (g : Generated) (hlow : g.lowRangeEnd ≤ codeSpace)
    (hend : g.highIgnoredEnd ≤ codeSpace) : Tables :=
  { T with
    ensureTables := true
    idnaStage1 := (g.stage1.getD · 0)
    idnaStage2 := (g.mixedData.getD · 0)
    idnaBoolBlocks := (g.boolWords.getD · 0)
    idnaUtf8Mappings := g.utf8Table
    idnaLowRangeEnd := g.lowRangeEnd
    idnaHighIgnoredStart := g.highIgnoredStart
    idnaHighIgnoredEnd := g.highIgnoredEnd
    idnaLowRangeEnd_le := hlow
    idnaHighIgnoredEnd_le := hend }

theorem holds_withGenerated (T : Tables) (hlow : g.lowRangeEnd ≤ codeSpace)
    (hend : g.highIgnoredEnd ≤ codeSpace) :
    Holds (withGenerated T g hlow hend).toTableData g := by
  have hget : ∀ (l : List ℕ) i v, l[i]? = some v → l.getD i 0 = v :=
    fun _ _ _ h => Buffer.getD_of_getElem? h 0
  exact ⟨rfl, rfl, rfl, rfl, hget g.stage1, hget g.mixedData, hget g.boolWords, rfl⟩

/-- What is generated for a mapping table fits into the code space. -/
theorem exists_holds (hw : WellFormed entries) (hg : generateIdna entries = some g) :
    ∃ T : Tables, Holds T.toTableData g := by
  obtain ⟨-, -, hlow, -, hend, -⟩ := of_generateIdna hg
  refine ⟨_, holds_withGenerated smallTables ?_ ?_⟩
  · rw [hlow]
    exact (computeLowRangeEnd_spec entries _).2.2 hw.lt
  · rw [hend]
    exact highIgnored_le hw

/-- `A` is mapped, the small letters are valid, and the soft hyphen and the
variation selectors are ignored. -/
def fewEntries : List Entry :=
  [⟨0x41, 0x41, .mapped, [0x61]⟩, ⟨0x61, 0x7A, .valid, []⟩, ⟨0xAD, 0xAD, .ignored, []⟩,
    ⟨0xE0100, 0xE01EF, .ignored, []⟩]

theorem wellFormed_fewEntries : WellFormed fewEntries where
  le := by decide
  lt := by decide
  disjoint := by decide
  scalar := by decide
  high_ignored := by decide +kernel
  high_contiguous cp hlo hhi := by
    have heq : highIgnored fewEntries = (0xE0100, 0xE01F0) := by decide +kernel
    rw [heq] at hlo hhi
    exact ⟨⟨0xE0100, 0xE01EF, .ignored, []⟩, by decide, rfl, hlo, Nat.le_of_lt_succ hhi⟩

theorem card_mixedBlocks_le (entries : List Entry) :
    (mixedBlocks entries).card ≤ computeLowRangeEnd entries (highIgnored entries).1 / 64 :=
  (Finset.card_filter_le _ _).trans (Finset.card_image_le.trans_eq (Finset.card_range _))

theorem map_singleton_eq_image_few :
    ∃ g, generateIdna fewEntries = some g ∧ ∃ T : Tables, Holds T.toTableData g ∧
      map T [0x41] = some [0x61] ∧ map T [0x61] = some [0x61] ∧ map T [0xAD] = some [] ∧
      map T [0xE0100] = some [] ∧ map T [0x40] = none := by
  obtain ⟨g, hg⟩ := Option.isSome_iff_exists.mp
    (show (generateIdna fewEntries).isSome = true by decide +kernel)
  obtain ⟨T, hT⟩ := exists_holds wellFormed_fewEntries hg
  have hmap := (map_singleton_eq_image wellFormed_fewEntries hg hT).1
    ((card_mixedBlocks_le _).trans (by decide +kernel))
  refine ⟨g, hg, T, hT, ?_, ?_, ?_, ?_, ?_⟩
  · rw [hmap _ (by decide)]
    decide
  · rw [hmap _ (by decide)]
    decide
  · rw [hmap _ (by decide)]
    decide
  · rw [hmap _ (by decide)]
    decide
  · rw [hmap _ (by decide)]
    decide

/-! ### One block too many -/

/-- 513 blocks with a range of ignored code points each, no two alike. -/
def overfull : List Entry :=
  (List.range 513).map fun i => ⟨64 * i + i / 32, 64 * i + 32 + i % 32, .ignored, []⟩

theorem mem_overfull :
    e ∈ overfull ↔ ∃ i < 513, e = ⟨64 * i + i / 32, 64 * i + 32 + i % 32, .ignored, []⟩ := by
  rw [overfull, List.mem_map]
  constructor
  · rintro ⟨i, hi, rfl⟩
    exact ⟨i, List.mem_range.mp hi, rfl⟩
  · rintro ⟨i, hi, rfl⟩
    exact ⟨i, List.mem_range.mpr hi, rfl⟩

theorem highIgnored_overfull : highIgnored overfull = (0x110000, 0x110000) := by
  rcases highIgnored_cases overfull with ⟨heq, -⟩ | ⟨first, hfirst, -, -, hge, -⟩
  · exact heq
  · obtain ⟨i, hi, rfl⟩ := mem_overfull.mp hfirst
    dsimp only at hge
    omega

theorem wellFormed_overfull : WellFormed overfull where
  le e he := by
    obtain ⟨i, hi, rfl⟩ := mem_overfull.mp he
    dsimp only
    omega
  lt e he := by
    obtain ⟨i, hi, rfl⟩ := mem_overfull.mp he
    rw [codeSpace]
    dsimp only
    omega
  disjoint := by
    refine List.pairwise_map.mpr (List.Pairwise.imp_of_mem ?_ List.pairwise_lt_range)
    intro i j hi hj hij
    have hi := List.mem_range.mp hi
    have hj := List.mem_range.mp hj
    dsimp only
    omega
  scalar e he hcode := by
    obtain ⟨i, hi, rfl⟩ := mem_overfull.mp he
    cases hcode
  high_ignored e he _ := by
    obtain ⟨i, hi, rfl⟩ := mem_overfull.mp he
    exact .inl rfl
  high_contiguous cp hlo hhi := by
    rw [highIgnored_overfull] at hlo hhi
    exact absurd hhi (not_lt.mpr hlo)

theorem statusOf_overfull (hi : i < 513) (hk : k < 64) :
    statusOf overfull (64 * i + k)
      = if i / 32 ≤ k ∧ k ≤ 32 + i % 32 then .text [] else .disallowed := by
  split
  · rename_i hin
    exact statusOf_of_covers wellFormed_overfull.disjoint (mem_overfull.mpr ⟨i, hi, rfl⟩)
      ⟨by dsimp only; omega, by dsimp only; omega⟩
  · rename_i hout
    apply statusOf_of_not_covers
    rintro e he ⟨hlo, hhi⟩
    obtain ⟨j, hj, rfl⟩ := mem_overfull.mp he
    dsimp only at hlo hhi
    have hij : i = j := by omega
    rw [hij] at hout
    omega

theorem blocks_overfull : computeLowRangeEnd overfull (highIgnored overfull).1 / 64 = 513 := by
  rw [highIgnored_overfull]
  decide +kernel

/-- The blocks are told apart by where their ranges begin and end. -/
theorem card_mixedBlocks_overfull : 512 < (mixedBlocks overfull).card := by
  have hget : ∀ {i k}, i < 513 → k < 64 → (statusBlock overfull i)[k]?
      = some (if i / 32 ≤ k ∧ k ≤ 32 + i % 32 then .text [] else .disallowed) := by
    intro i k hi hk
    rw [statusBlock, Buffer.getElem?_map_range hk, statusOf_overfull hi hk]
  have hrange : ∀ {i j k}, i < 513 → j < 513 → k < 64 →
      statusBlock overfull i = statusBlock overfull j → i / 32 ≤ k ∧ k ≤ 32 + i % 32 →
      j / 32 ≤ k ∧ k ≤ 32 + j % 32 := by
    intro i j k hi hj hk heq hin
    have hblock := hget hi hk
    rw [heq, hget hj hk, if_pos hin, Option.some.injEq] at hblock
    by_contra hout
    rw [if_neg hout] at hblock
    cases hblock
  have hinj : Set.InjOn (statusBlock overfull) (Finset.range 513 : Set ℕ) := by
    intro i hi j hj heq
    have hi := Finset.mem_range.mp hi
    have hj := Finset.mem_range.mp hj
    have hfirst := hrange (k := i / 32) hi hj (by omega) heq (by omega)
    have hfirst' := hrange (k := j / 32) hj hi (by omega) heq.symm (by omega)
    have hlast := hrange (k := 32 + i % 32) hi hj (by omega) heq (by omega)
    have hlast' := hrange (k := 32 + j % 32) hj hi (by omega) heq.symm (by omega)
    omega
  have hall : mixedBlocks overfull = (Finset.range 513).image (statusBlock overfull) := by
    rw [mixedBlocks, blocks_overfull, Finset.filter_true_of_mem]
    intro block hblock
    obtain ⟨i, hi, rfl⟩ := Finset.mem_image.mp hblock
    have hi := Finset.mem_range.mp hi
    have hmid := hget (k := 32) hi (by decide)
    rw [if_pos (by omega)] at hmid
    exact List.any_eq_true.mpr ⟨_, List.mem_of_getElem? hmid, rfl⟩
  rw [hall, Finset.card_image_of_injOn hinj, Finset.card_range]
  decide

theorem buildMappings_of_forall_ne (h : ∀ e ∈ entries, e.code ≠ .mapped) :
    buildMappings entries = ⟨[([], ignoredIdx)], [0]⟩ := by
  induction entries using List.reverseRecOn with
  | nil => rfl
  | append_singleton entries e ih =>
    rw [buildMappings, List.foldl_append, List.foldl_cons, List.foldl_nil,
      if_neg (h e (by simp)), ← buildMappings]
    exact ih fun f hf => h f (List.mem_append_left _ hf)

/-- **Nothing stops the generator**: its assertions hold, and all it stores
fits into 16 bits. -/
theorem exists_generateIdna_overfull :
    ∃ g, generateIdna overfull = some g ∧ ∀ v ∈ g.stage1 ++ g.mixedData, v < 0x10000 := by
  have hdata : (buildMappings overfull).data = [0] := by
    rw [buildMappings_of_forall_ne]
    intro e he hcode
    obtain ⟨i, hi, rfl⟩ := mem_overfull.mp he
    cases hcode
  have hsize : (buildMappings overfull).data.length < 0xFFFD := by
    rw [hdata]
    decide
  have hbuilt := built_of_dvd wellFormed_overfull
    (computeLowRangeEnd_spec overfull (highIgnored overfull).1).1
  have hplace := length_places_mixed wellFormed_overfull hsize hbuilt
  have hcard := card_mixedBlocks_le overfull
  have hn := blocks_overfull
  obtain ⟨g, hg⟩ := exists_generateIdna wellFormed_overfull hsize <| by
    rw [hbuilt.stage1, List.length_map, List.length_range]
    omega
  refine ⟨g, hg, fun v hv => ?_⟩
  obtain ⟨-, -, hlow, -, -, hstage1, hmixed, -⟩ := of_generateIdna hg
  rw [hstage1, hmixed, hlow] at hv
  rcases List.mem_append.mp hv with hv | hv
  · exact hbuilt.lt_of_mem_stage1 (by omega) (by omega) v hv
  · exact lt_of_mem_mixed wellFormed_overfull hsize hbuilt v hv

/-- The block too many is misread, although the tables hold what is
generated for it. -/
theorem overfull_misread :
    WellFormed overfull ∧ ∃ g, generateIdna overfull = some g ∧
      (∀ v ∈ g.stage1 ++ g.mixedData, v < 0x10000) ∧
      ∃ T : Tables, Holds T.toTableData g ∧
        ∃ cp < codeSpace, map T [cp] ≠ (statusOf overfull cp).image cp := by
  obtain ⟨g, hg, hvalues⟩ := exists_generateIdna_overfull
  obtain ⟨T, hT⟩ := exists_holds wellFormed_overfull hg
  refine ⟨wellFormed_overfull, g, hg, hvalues, T, hT, ?_⟩
  obtain ⟨cp, hcp, s, hs, hread⟩ :=
    exists_map_ne_of_card_lt wellFormed_overfull hg hT card_mixedBlocks_overfull
  refine ⟨cp, hcp, fun heq => ?_⟩
  obtain ⟨e, he, -, hstatus⟩ := exists_covers (by rw [hs]; nofun : statusOf overfull cp ≠ _)
  obtain ⟨i, hi, rfl⟩ := mem_overfull.mp he
  rw [hs, Entry.status, Status.text.injEq] at hstatus
  rw [hs, ← hstatus, Status.image] at heq
  rcases hread with hnone | hsome
  · rw [hnone] at heq
    cases heq
  · rw [hsome] at heq
    cases heq

end IdnaTable

end AdaIdna
