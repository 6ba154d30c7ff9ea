/-
AdaIdna/UnicodeDataFit.lean

What unicode_data_table.py generates can be packed.

`struct.pack` raises an error for a value that does not fit, after everything
has been generated.  The generator checks two sizes, that of the decompositions
and that of the compositions; this is enough for all sections, if the data
consists of code points and of combining classes and joining types of a byte
(`UnicodeFields.Encodable`, `admissible_unicodeSections`).
-/
import AdaIdna.Generators

namespace AdaIdna

namespace UnicodeDataTable

open Multistage TableBlob Generators

/-- The data consists of code points and bytes. -/
structure UnicodeFields.Encodable (ucd : UnicodeFields) (joiningTypes : List (ℕ × ℕ)) : Prop where
  canonical : ∀ e ∈ ucd.canonical, e.1 < codeSpace ∧ ∀ c ∈ e.2, c < codeSpace
  compatibility : ∀ e ∈ ucd.compatibility, e.1 < codeSpace ∧ ∀ c ∈ e.2, c < codeSpace
  ccc : ∀ e ∈ ucd.ccc, e.2 < 256
  category : ∀ e ∈ ucd.category, e.1 < codeSpace
  bidi : ∀ e ∈ ucd.bidi, e.1 < codeSpace
  joining : ∀ e ∈ joiningTypes, e.1 < codeSpace ∧ e.2 < 256

variable {ucd : UnicodeFields} {exclusions : Finset ℕ} {types : List (ℕ × ℕ)} {limit : ℕ}
  {entries index block : List ℕ} {cols bound : ℕ} {blockIsEmpty : List Bool}
  {d p : Sections} {k : List ℕ × List ℕ} {v : ValiditySections}

/-! ### Multistage tables -/

/-- **The stages of a table**: bytes, whole rows, and values of the entries. -/
theorem fits_buildMultistage (h : buildMultistage entries cols blockIsEmpty = some (index, block))
    (hlen : 256 * blockCount + cols ≤ entries.length + 256) (hbound : 0 < bound)
    (hentries : ∀ x ∈ entries, x < bound) :
    (∀ x ∈ index, x < 256) ∧ (∀ x ∈ block, x < bound) ∧ cols ∣ block.length := by
  obtain ⟨t, ht, hplaces, rfl, rfl⟩ := of_buildMultistage h hlen
  refine ⟨fun x hx => (ht.lt_of_mem_index hx).trans_le hplaces, fun x hx => ?_, ?_⟩
  · obtain ⟨row, hrow, hxrow⟩ := ht.exists_mem_of_mem_data
      (List.forall_mem_map.mpr fun b hb => length_rowOf hlen (List.mem_range.mp hb)) hx
    obtain ⟨b, -, rfl⟩ := List.mem_map.mp hrow
    rw [rowOf] at hxrow
    split at hxrow
    · rw [List.eq_of_mem_replicate hxrow]
      exact hbound
    · exact hentries x (List.mem_of_mem_drop (List.mem_of_mem_take hxrow))
  · rw [ht.length_data]
    exact dvd_mul_right cols _

/-- The entries of a layout, with one behind the last code point. -/
theorem Laid.forall_mem_entries {content : ℕ → List ℕ} {entry : ℕ → ℕ → ℕ} {r : Layout}
    (h : Laid content entry codeSpace r) {last : ℕ} (hlast : last < bound)
    (hentry : ∀ cp n, n ≤ r.data.length → entry cp n < bound) :
    ∀ x ∈ r.entries ++ [last], x < bound := by
  intro x hx
  rcases List.mem_append.mp hx with hx | hx
  · rw [h.entries] at hx
    obtain ⟨cp, hcp, rfl⟩ := List.mem_map.mp hx
    apply hentry
    rw [h.length_data]
    exact offset_mono (List.mem_range.mp hcp).le
  · rwa [List.mem_singleton.mp hx]

theorem Laid.length_entries {content : ℕ → List ℕ} {entry : ℕ → ℕ → ℕ} {r : Layout}
    (h : Laid content entry codeSpace r) (last : ℕ) :
    256 * blockCount + 257 ≤ (r.entries ++ [last]).length + 256 := by
  rw [List.length_append, h.entries, List.length_map, List.length_range]
  exact le_rfl

theorem Laid.forall_mem_data {content : ℕ → List ℕ} {entry : ℕ → ℕ → ℕ} {r : Layout}
    (h : Laid content entry codeSpace r) (hbound : 0 < bound)
    (hcontent : ∀ cp, ∀ x ∈ content cp, x < bound) : ∀ x ∈ r.data, x < bound := by
  intro x hx
  rw [h.data] at hx
  rcases List.mem_append.mp hx with hx | hx
  · rwa [List.mem_singleton.mp hx]
  · obtain ⟨cp, -, hx⟩ := List.mem_flatMap.mp hx
    exact hcontent cp x hx

theorem not_of_sections {tooLarge : Prop} [Decidable tooLarge] {data : List ℕ}
    {multistage : Option (List ℕ × List ℕ)}
    (h : (if tooLarge then none
      else multistage.bind fun (index, block) => some (Sections.mk index block data)) = some d) :
    ¬ tooLarge := by
  split at h
  · cases h
  · assumption

/-- The first of the checks. -/
theorem length_data_buildDecomposition {ucd : UnicodeData}
    (h : buildDecomposition ucd limit = some d) : d.data.length < 2 ^ 14 := by
  have hn : maxCodePoint + 1 = codeSpace := rfl
  rw [buildDecomposition, hn] at h
  obtain ⟨r, -, h⟩ := Option.bind_eq_some_iff.mp h
  rw [(of_sections h).2]
  exact not_le.mp (not_of_sections h)

/-- The second one. -/
theorem length_data_buildComposition {ucd : UnicodeData}
    (h : buildComposition ucd exclusions = some p) : p.data.length ≤ 0xFFFF := by
  have hn : maxCodePoint + 1 = codeSpace := rfl
  rw [buildComposition, hn] at h
  generalize (List.range codeSpace).foldl (compositionStep ucd exclusions) .empty = r at h
  rw [(of_sections h).2]
  exact not_lt.mp (not_of_sections h)

/-! ### Sections -/

section Encodable

variable (hu : ucd.Encodable types)
include hu

theorem forall_mem_fullDecomposition {compatibility : Bool} {cp : ℕ} {s : U32String}
    (hcp : cp < codeSpace)
    (h : fullDecomposition ucd.toUnicodeData compatibility limit cp = some s) :
    ∀ c ∈ s, c < codeSpace := by
  rw [fullDecomposition_eq] at h
  refine forall_mem_expand (fun a w hw => ?_) (fun _ => hcp) h
  rw [mappingOf] at hw
  rcases Option.or_eq_some_iff.mp hw with hw | ⟨-, hw⟩
  · exact (hu.canonical _ (mem_of_lookup hw)).2
  · split at hw
    · exact (hu.compatibility _ (mem_of_lookup hw)).2
    · cases hw

theorem forall_mem_storedOf (cp : ℕ) :
    ∀ c ∈ (storedOf ucd.toUnicodeData limit cp).1, c < codeSpace := by
  have hkey : ∀ {l : List (ℕ × U32String)}, (∀ e ∈ l, e.1 < codeSpace ∧ ∀ c ∈ e.2, c < codeSpace) →
      (l.lookup cp).isSome = true → cp < codeSpace := by
    intro l hl hsome
    obtain ⟨m, hm⟩ := Option.isSome_iff_exists.mp hsome
    exact (hl _ (mem_of_lookup hm)).1
  rw [storedOf]
  rcases hd : decompositionOf ucd.toUnicodeData limit cp with - | ⟨s, flags⟩
  · exact List.forall_mem_nil _
  · rw [Option.getD_some]
    rw [decompositionOf] at hd
    split at hd
    · cases hd
      exact List.forall_mem_nil _
    · split at hd
      · rename_i hsome
        obtain ⟨s', hs', hd⟩ := Option.bind_eq_some_iff.mp hd
        obtain ⟨compatible, -, hd⟩ := Option.bind_eq_some_iff.mp hd
        cases hd
        exact forall_mem_fullDecomposition hu (hkey hu.canonical hsome) hs'
      · split at hd
        · rename_i hsome
          obtain ⟨s', hs', hd⟩ := Option.bind_eq_some_iff.mp hd
          cases hd
          exact forall_mem_fullDecomposition hu (hkey hu.compatibility hsome) hs'
        · cases hd
          exact List.forall_mem_nil _

theorem fits_buildDecomposition (hd : buildDecomposition ucd.toUnicodeData limit = some d) :
    (∀ x ∈ d.index, x < 256) ∧ (∀ x ∈ d.block, x < 2 ^ 16) ∧ 257 ∣ d.block.length ∧
      ∀ x ∈ d.data, x < 2 ^ 32 := by
  have hsize := length_data_buildDecomposition hd
  obtain ⟨r, -, hlaid, hm, hdata⟩ := of_buildDecomposition hd
  rw [hdata] at hsize ⊢
  have hentries : ∀ x ∈ r.entries ++ [r.data.length <<< 2], x < 2 ^ 16 := by
    refine hlaid.forall_mem_entries ?_ fun cp n hn => ?_
    · rw [Nat.shiftLeft_eq]
      omega
    · have hflags := storedOf_flags_lt ucd.toUnicodeData limit cp
      rw [decompositionEntry_eq]
      omega
  obtain ⟨hindex, hblock, hrows⟩ :=
    fits_buildMultistage hm (hlaid.length_entries _) (by decide) hentries
  refine ⟨hindex, hblock, hrows, hlaid.forall_mem_data (by decide) fun cp x hx => ?_⟩
  exact (forall_mem_storedOf hu cp x hx).trans (by decide)

theorem fits_buildCcc (hk : buildCcc ucd.toUnicodeData = some k) :
    (∀ x ∈ k.1, x < 256) ∧ (∀ x ∈ k.2, x < 256) ∧ 256 ∣ k.2.length := by
  refine fits_buildMultistage hk ?_ (by decide) fun x hx => ?_
  · rw [cccEntries, List.length_map, List.length_range]
    exact le_rfl
  · obtain ⟨cp, -, rfl⟩ := List.mem_map.mp hx
    rw [cccOf]
    rcases hccc : ucd.ccc.lookup cp with - | value
    · exact (by decide : 0 < 256)
    · exact hu.ccc _ (mem_of_lookup hccc)

theorem fits_buildComposition (hp : buildComposition ucd.toUnicodeData exclusions = some p) :
    (∀ x ∈ p.index, x < 256) ∧ (∀ x ∈ p.block, x < 2 ^ 16) ∧ 257 ∣ p.block.length ∧
      ∀ x ∈ p.data, x < 2 ^ 32 := by
  have hsize := length_data_buildComposition hp
  obtain ⟨r, hlaid, hm, hdata⟩ := of_buildComposition hp
  rw [hdata] at hsize ⊢
  have hentries : ∀ x ∈ r.entries ++ [r.data.length], x < 2 ^ 16 :=
    hlaid.forall_mem_entries (Nat.lt_succ_of_le hsize) fun cp n hn =>
      Nat.lt_succ_of_le (hn.trans hsize)
  obtain ⟨hindex, hblock, hrows⟩ :=
    fits_buildMultistage hm (hlaid.length_entries _) (by decide) hentries
  refine ⟨hindex, hblock, hrows, hlaid.forall_mem_data (by decide) fun cp x hx => ?_⟩
  rw [compositionOf_eq, List.mem_flatMap] at hx
  obtain ⟨⟨second, composite⟩, hpair, hx⟩ := hx
  have hmem := hu.canonical _ (mem_sortedPairs.mp hpair).1
  have hlt : x < codeSpace := by
    rcases List.mem_pair.mp hx with rfl | rfl
    · exact hmem.2 _ (List.mem_cons_of_mem _ List.mem_cons_self)
    · exact hmem.1
  exact hlt.trans (by decide)

omit hu in
/-- **The ranges of a dictionary** begin and end with keys that have the value. -/
theorem of_mem_buildRanges {items : List (ℕ × ℕ)} {r : ℕ × ℕ × ℕ}
    (hr : r ∈ buildRanges (dictOf items)) :
    (r.1, r.2.2) ∈ items ∧ (r.2.1, r.2.2) ∈ items := by
  have hranges : RangesOf (UnicodeDataTable.valueOf (dictOf items)) _ _ :=
    rangesOf_foldl (pairwise_mergeSort_keys (dictOf items))
  have hle : r.1 ≤ r.2.1 := hranges.le r (List.mem_reverse.mp hr)
  have hmem : ∀ c, r.1 ≤ c → c ≤ r.2.1 → (c, r.2.2) ∈ items := by
    intro c hfirst hlast
    have hlookup := (mem_buildRanges_iff (dictOf items) c r.2.2).mp ⟨r, hr, hfirst, hlast, rfl⟩
    rw [lookup_dictOf] at hlookup
    exact mem_of_lookup hlookup
  exact ⟨hmem _ le_rfl hle, hmem _ hle le_rfl⟩

omit hu in
/-- The bounds of the keys and values are those of the ranges. -/
theorem lt_of_mem_buildRanges {items : List (ℕ × ℕ)} {n : ℕ}
    (h : ∀ e ∈ items, e.1 < codeSpace ∧ e.2 < n) :
    ∀ r ∈ buildRanges (dictOf items), r.1 < codeSpace ∧ r.2.1 < codeSpace ∧ r.2.2 < n := by
  intro r hr
  obtain ⟨hfirst, hlast⟩ := of_mem_buildRanges hr
  exact ⟨(h _ hfirst).1, (h _ hlast).1, (h _ hfirst).2⟩

theorem fits_buildValidity (hv : buildValidity ucd types = some v) :
    (∀ l ∈ [v.combiningFlat, v.dirStart, v.dirFinal, v.joiningStart, v.joiningFinal],
      ∀ x ∈ l, x < codeSpace) ∧ ∀ l ∈ [v.dirValue, v.joiningValue], ∀ x ∈ l, x < 256 := by
  obtain ⟨hknown, hmarks, hs, hf, hval, js, jf, jval⟩ := of_buildValidity hv
  have hmarked : ∀ e ∈ markItems ucd, e.1 < codeSpace ∧ e.2 < 2 := by
    intro e he
    obtain ⟨e', he', heq⟩ := List.mem_filterMap.mp he
    split_ifs at heq
    cases heq
    exact ⟨hu.category e' he', Nat.one_lt_two⟩
  have hnumbered : ∀ e ∈ bidiItems ucd, e.1 < codeSpace ∧ e.2 < 256 := by
    intro e he
    obtain ⟨e', he', rfl⟩ := List.mem_map.mp he
    have hidx := List.idxOf_lt_length_of_mem (List.mem_of_mem_tail (hknown e' he'))
    exact ⟨hu.bidi e' he', hidx.trans (by decide)⟩
  have hcombining := lt_of_mem_buildRanges hmarked
  have hdirections := lt_of_mem_buildRanges hnumbered
  have hjoining := lt_of_mem_buildRanges hu.joining
  have hmap : ∀ {ranges : List (ℕ × ℕ × ℕ)} {f : ℕ × ℕ × ℕ → ℕ} {n : ℕ},
      (∀ r ∈ ranges, f r < n) → ∀ x ∈ ranges.map f, x < n := fun h => List.forall_mem_map.mpr h
  simp only [List.forall_mem_cons, hs, hf, hval, js, jf, jval, hmarks]
  refine ⟨⟨fun x hx => ?_, hmap fun r hr => ?_, hmap fun r hr => ?_, hmap fun r hr => ?_,
    hmap fun r hr => ?_, nofun⟩, hmap fun r hr => ?_, hmap fun r hr => ?_, nofun⟩
  · obtain ⟨r, hr, hx⟩ := List.mem_flatMap.mp hx
    rcases List.mem_pair.mp hx with rfl | rfl
    · exact (hcombining r hr).1
    · exact (hcombining r hr).2.1
  · exact (hdirections r hr).1
  · exact (hdirections r hr).2.1
  · exact (hjoining r hr).1
  · exact (hjoining r hr).2.1
  · exact (hdirections r hr).2.2
  · exact (hjoining r hr).2.2

/-- **Everything that is generated** can be packed. -/
theorem admissible_unicodeSections (hd : buildDecomposition ucd.toUnicodeData limit = some d)
    (hk : buildCcc ucd.toUnicodeData = some k)
    (hp : buildComposition ucd.toUnicodeData exclusions = some p)
    (hv : buildValidity ucd types = some v) :
    ∀ item ∈ unicodeSections d k p v, Admissible item.1 item.2 := by
  obtain ⟨hdi, hdb, hdr, hdd⟩ := fits_buildDecomposition hu hd
  obtain ⟨hki, hkb, hkr⟩ := fits_buildCcc hu hk
  obtain ⟨hpi, hpb, hpr, hpd⟩ := fits_buildComposition hu hp
  obtain ⟨hwide, hbyte⟩ := fits_buildValidity hu hv
  simp only [List.forall_mem_cons] at hwide hbyte
  obtain ⟨hmarks, hs, hf, js, jf, -⟩ := hwide
  obtain ⟨hval, jval, -⟩ := hbyte
  have h32 : ∀ {l : List ℕ}, (∀ x ∈ l, x < codeSpace) → ∀ x ∈ l, x < 2 ^ 32 :=
    fun h x hx => (h x hx).trans (by decide)
  simp only [unicodeSections, List.forall_mem_cons]
  exact ⟨⟨hdi, one_dvd _⟩, ⟨hdb, hdr⟩, ⟨hdd, one_dvd _⟩, ⟨hki, one_dvd _⟩, ⟨hkb, hkr⟩,
    ⟨hpi, one_dvd _⟩, ⟨hpb, hpr⟩, ⟨hpd, one_dvd _⟩, ⟨h32 hmarks, one_dvd _⟩, ⟨h32 hs, one_dvd _⟩,
    ⟨h32 hf, one_dvd _⟩, ⟨hval, one_dvd _⟩, ⟨h32 js, one_dvd _⟩, ⟨h32 jf, one_dvd _⟩,
    ⟨jval, one_dvd _⟩, nofun⟩

end Encodable

end UnicodeDataTable

namespace Generators

open PackTables TableBlob Overwrite UnicodeDataTable
open IdnaTable hiding blockBits blockSize Holds

/-- The data of a script is what the files of the Unicode database hold. -/
def Command.WellFormed : Command → Prop
  | .packTables => True
  | .idnaTable entries => IdnaTable.WellFormed entries
  | .derivedTable _ _ => True
  | .unicodeDataTable ucd _ joiningTypes _ => ucd.Encodable joiningTypes

/-- Nothing keeps the script from packing its sections. -/
def Command.Succeeds : Command → Prop
  | .packTables => True
  | .idnaTable entries =>
    (∃ g, generateIdna entries = some g) ∧ (mixedBlocks entries).card ≤ 1024
  | .derivedTable idContinue idStart =>
    (∀ r ∈ idContinue, r.1 < 2 ^ 32 ∧ r.2 < 2 ^ 32) ∧ ∀ r ∈ idStart, r.1 < 2 ^ 32 ∧ r.2 < 2 ^ 32
  | .unicodeDataTable ucd exclusions joiningTypes limit =>
    ∃ items, buildSections ucd exclusions joiningTypes limit = some items

variable {z : Zlib} {C : Contents} {files : Files} {c : Command}

theorem isSome_change_iff {items : List (BlobSection × List ℕ)} (hgen : c.generated = some items) :
    c.change.isSome = true ↔ ∀ item ∈ items, Admissible item.1 item.2 := by
  rw [Command.change, hgen, Option.bind_some]
  split_ifs with h
  · exact iff_of_true rfl h
  · exact iff_of_false Bool.false_ne_true h

theorem admissible_flatOf_iff {s : BlobSection} (hs : pointerWidth s = 4) (hr : rowLength s = 1)
    (ranges : List (ℕ × ℕ)) :
    Admissible s (flatOf ranges) ↔ ∀ r ∈ ranges, r.1 < 2 ^ 32 ∧ r.2 < 2 ^ 32 := by
  rw [Admissible, hs, hr, and_iff_left (one_dvd _)]
  constructor
  · intro h r hmem
    have hmem' : ∀ x ∈ [r.1, r.2], x ∈ flatOf ranges :=
      fun x hx => List.mem_flatMap.mpr ⟨r, hmem, hx⟩
    exact ⟨h _ (hmem' _ List.mem_cons_self),
      h _ (hmem' _ (List.mem_cons_of_mem _ List.mem_cons_self))⟩
  · intro h x hx
    obtain ⟨r, hmem, hx⟩ := List.mem_flatMap.mp hx
    rcases List.mem_pair.mp hx with rfl | rfl
    · exact (h r hmem).1
    · exact (h r hmem).2

theorem isSome_change (hc : c.WellFormed) : c.change.isSome = true ↔ c.Succeeds := by
  have hnone : c.generated = none → c.change.isSome = false := by
    intro hgen
    rw [Command.change, hgen]
    rfl
  cases c with
  | packTables => exact iff_of_true rfl trivial
  | idnaTable entries =>
    rcases hg : generateIdna entries with - | g
    · rw [hnone (by rw [Command.generated, hg]; rfl)]
      refine iff_of_false Bool.false_ne_true ?_
      rintro ⟨⟨g, hg'⟩, -⟩
      rw [hg] at hg'
      cases hg'
    · rw [isSome_change_iff (by rw [Command.generated, hg]; rfl),
        admissible_mappingSections_iff hc hg]
      exact (and_iff_right ⟨g, hg⟩).symm
  | derivedTable idContinue idStart =>
    rw [isSome_change_iff rfl, List.forall_mem_cons, List.forall_mem_singleton,
      admissible_flatOf_iff rfl rfl, admissible_flatOf_iff rfl rfl]
    rfl
  | unicodeDataTable ucd exclusions joiningTypes limit =>
    rcases hgen : buildSections ucd exclusions joiningTypes limit with - | items
    · rw [hnone hgen]
      refine iff_of_false Bool.false_ne_true ?_
      rintro ⟨items, hitems⟩
      rw [hgen] at hitems
      cases hitems
    · obtain ⟨d, k, p, v, hd, hk, hp, hv, rfl⟩ := of_buildSections hgen
      have hgenerated : (Command.unicodeDataTable ucd exclusions joiningTypes limit).generated
          = some (unicodeSections d k p v) := by
        rw [Command.generated, hgen]
      rw [isSome_change_iff hgenerated]
      exact iff_of_true (admissible_unicodeSections hc hd hk hp hv) ⟨_, hgen⟩

end Generators

end AdaIdna
