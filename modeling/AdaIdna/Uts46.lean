/-
AdaIdna/Uts46.lean

`to_ascii` and `to_unicode` as the processing of UTS #46.

The specification says what the ASCII form of a domain name is by the source
alone: the code points of its UTF-8 form are mapped, the result is normalized,
and each label has its own ASCII form (`Source.LabelToAscii`).  It says nothing
of tables, buffers, skipped normalizations or fixed-width arithmetic.

Over tables that hold the source, `to_ascii` returns the ASCII form of a name
that is not in ASCII, and fails, with nothing in its output, exactly if there is
none (`toAscii_eq_iff_toAscii`).  `to_unicode` replaces the labels that encode
something, and no others (`toUnicode_eq_iff_toUnicode`).
-/
import AdaIdna.DomainLabels
import AdaIdna.Source
import AdaIdna.UnicodeLabels

namespace AdaIdna

open Labels UnicodeDataTable
open IdnaTable hiding Holds blockBits blockSize

namespace Source

variable (S : Source)

/-- `m` is made of the images of the code points of `s`. -/
def Maps (s m : U32String) : Prop :=
  ∃ ws, List.Forall₂ (fun c w => (statusOf S.entries c).image c = some w) s ws ∧ m = ws.flatten

/-- What an ACE label may encode: a label that needs to be encoded, and that
mapping and normalization leave as it is. -/
structure Encoded (w : U32String) : Prop where
  not_ascii : ∃ c ∈ w, 0x80 ≤ c
  maps : S.Maps w w
  nfc : IsNfc S.ucd.toUnicodeData S.exclusions w w
  rule : (propertiesOf S.ucd S.joiningTypes).LabelRule w

/-- The ASCII form of a label that has been mapped and normalized. -/
inductive LabelToAscii : U32String → Bytes → Prop
  | ascii {l} (hl : ∀ c ∈ l, c < 0x80) (hace : ¬ acePrefix <+: l) :
    LabelToAscii l (l.map toChar)
  | ace {q w} (hq : ∀ b ∈ q, b.toNat < 0x80) (hw : punycodeToUtf32 q [] = some w)
    (henc : S.Encoded w) :
    LabelToAscii ((acePrefixBytes ++ q).map UInt8.toNat) (acePrefixBytes ++ q)
  | unicode {l q} (hl : ∃ c ∈ l, 0x80 ≤ c) (hace : ¬ acePrefix <+: l)
    (hrule : (propertiesOf S.ucd S.joiningTypes).LabelRule l)
    (hq : utf32ToPunycode l [] = some q) :
    LabelToAscii l (acePrefixBytes ++ q)

/-- The ASCII form of a domain name. -/
def ToAscii (x y : Bytes) : Prop :=
  x.length ≤ maxDomainInputBytes ∧
    ∃ s m n, (∀ c ∈ s, IsScalar c) ∧ x = encodeUtf8 s ∧ S.Maps s m ∧
      IsNfc S.ucd.toUnicodeData S.exclusions m n ∧
      ∃ ys, List.Forall₂ S.LabelToAscii (n.splitOn dot) ys ∧ y = join dotByte ys

/-- The Unicode form of a label: what it encodes, or else the label itself. -/
inductive LabelToUnicode : Bytes → Bytes → Prop
  | decoded {q w} (hq : ∀ b ∈ q, b.toNat < 0x80) (hw : punycodeToUtf32 q [] = some w)
    (hsc : ∀ c ∈ w, IsScalar c) (henc : S.Encoded w) :
    LabelToUnicode (acePrefixBytes ++ q) (encodeUtf8 w)
  | kept {l} (h : ∀ q w, l = acePrefixBytes ++ q → (∀ b ∈ q, b.toNat < 0x80) →
      punycodeToUtf32 q [] = some w → (∀ c ∈ w, IsScalar c) → ¬ S.Encoded w) :
    LabelToUnicode l l

/-- The Unicode form of a domain name. -/
def ToUnicode (x y : Bytes) : Prop :=
  if x.length ≤ maxDomainInputBytes then
    ∃ ys, List.Forall₂ S.LabelToUnicode (x.splitOn dotByte) ys ∧ y = join dotByte ys
  else y = x

variable {S} {T : Tables} {ids : IdTables} {l s m n w : U32String} {x y q : Bytes}

/-! ### What the program decides -/

theorem isAscii_eq_false_iff : isAscii l = false ↔ ∃ c ∈ l, 0x80 ≤ c := by
  simp [isAscii]

theorem isAsciiBytes_ace (hq : ∀ b ∈ q, b.toNat < 0x80) :
    isAsciiBytes (acePrefixBytes ++ q) = true := by
  rw [isAsciiBytes, List.all_append, Bool.and_eq_true]
  exact ⟨rfl, isAsciiBytes_iff.mpr hq⟩

theorem isAcePrefix_eq_false_iff : isAcePrefix l = false ↔ ¬ acePrefix <+: l := by
  rw [← Bool.not_eq_true, isAcePrefix, List.isPrefixOf_iff_prefix]

/-- Lists of results, where each of them is defined. -/
theorem forall₂_eq_some_iff {α β : Type} [Inhabited β] {f : α → Option β} {as : List α}
    {bs : List β} : List.Forall₂ (fun a b => f a = some b) as bs ↔
      (∀ a ∈ as, (f a).isSome) ∧ bs = as.map fun a => (f a).getD default := by
  constructor
  · intro h
    induction h with
    | nil => exact ⟨nofun, rfl⟩
    | cons ha has ih =>
      rw [List.forall_mem_cons, List.map_cons, ha, ih.2]
      exact ⟨⟨rfl, ih.1⟩, rfl⟩
  · rintro ⟨hall, rfl⟩
    rw [List.forall₂_map_right_iff]
    refine List.forall₂_same.mpr fun a ha => ?_
    obtain ⟨b, hb⟩ := Option.isSome_iff_exists.mp (hall a ha)
    rw [hb, Option.getD_some]

/-- It is enough that the relations agree on the members of the list. -/
theorem forall₂_congr_of_mem {α β : Type} {r r' : α → β → Prop} {as : List α}
    (h : ∀ a ∈ as, ∀ b, r a b ↔ r' a b) (bs : List β) :
    List.Forall₂ r as bs ↔ List.Forall₂ r' as bs := by
  rw [← and_iff_right (a := ∀ a ∈ as, ∀ b, r a b ↔ r' a b) (b := List.Forall₂ r as bs) h,
    ← and_iff_right (a := ∀ a ∈ as, ∀ b, r a b ↔ r' a b) (b := List.Forall₂ r' as bs) h,
    ← List.forall₂_and_left, ← List.forall₂_and_left]
  exact iff_of_eq (congrArg (List.Forall₂ · as bs)
    (funext fun a => funext fun b => propext (and_congr_right fun hab => hab b)))

theorem map_iff_maps (hA : S.Answers T ids) (htables : T.ensureTables = true) :
    map T s = some m ↔ S.Maps s m := by
  rw [map_eq_some, and_iff_right htables, Maps]
  simp only [← hA.image, forall₂_eq_some_iff]
  constructor
  · rintro ⟨hall, rfl⟩
    exact ⟨_, ⟨hall, rfl⟩, List.flatMap_def⟩
  · rintro ⟨_, ⟨hall, rfl⟩, rfl⟩
    exact ⟨hall, List.flatMap_def.symm⟩

theorem acceptDecoded_iff_encoded (hA : S.Answers T ids) (htables : T.ensureTables = true)
    (hlen : w.length ≤ 2 ^ 31) : acceptDecoded T w = true ↔ S.Encoded w := by
  rw [acceptDecoded_iff, isAscii_eq_false_iff, map_iff_maps hA htables, hA.normalize,
    hA.isLabelValid w hlen]
  exact ⟨fun ⟨h1, h2, h3, h4⟩ => ⟨h1, h2, h3, h4⟩, fun ⟨h1, h2, h3, h4⟩ => ⟨h1, h2, h3, h4⟩⟩

/-- Nothing longer than the label is decoded from it. -/
theorem length_le_of_ace {k : ℕ} (hw : punycodeToUtf32 q [] = some w)
    (hlen : (acePrefixBytes ++ q).length ≤ k) : w.length ≤ k := by
  rw [List.length_append] at hlen
  exact (length_le_of_punycodeToUtf32 hw).trans (le_of_add_le_right hlen)

section Program

variable (hA : S.Answers T ids) (htables : T.ensureTables = true)
include hA htables

/-- **One label of `to_ascii`.** -/
theorem asciiLabel_iff (hlen : l.length ≤ 2 ^ 31) :
    asciiLabel T l = some y ↔ S.LabelToAscii l y := by
  constructor
  · intro h
    by_cases hace : isAcePrefix l = true
    · obtain ⟨hl, rfl, w, hw, haccept⟩ := (asciiLabel_of_ace hace).mp h
      obtain ⟨q, hq⟩ := isAcePrefixBytes_iff.mp ((isPrefixOf_map_toChar hl).trans hace)
      have hlq : l = (acePrefixBytes ++ q).map UInt8.toNat := by
        rw [← hq, map_toNat_map_toChar (isAscii_iff.mp hl)]
      have hascii : ∀ b ∈ q, b.toNat < 0x80 := by
        intro b hb
        rw [hlq] at hl
        exact isAscii_iff.mp hl _ (List.mem_map_of_mem (List.mem_append_right _ hb))
      rw [hq] at hw ⊢
      rw [hlq, List.length_map] at hlen
      rw [hlq]
      exact .ace hascii hw
        ((acceptDecoded_iff_encoded hA htables (length_le_of_ace hw hlen)).mp haccept)
    · rw [Bool.not_eq_true] at hace
      by_cases hl : isAscii l = true
      · obtain rfl := Option.some.inj ((asciiLabel_of_ascii hl hace).symm.trans h)
        exact .ascii (isAscii_iff.mp hl) (isAcePrefix_eq_false_iff.mp hace)
      · rw [Bool.not_eq_true] at hl
        obtain ⟨hvalid, q, hq, rfl⟩ := (asciiLabel_of_unicode hl hace).mp h
        exact .unicode (isAscii_eq_false_iff.mp hl) (isAcePrefix_eq_false_iff.mp hace)
          ((hA.isLabelValid l hlen).mp hvalid) hq
  · rintro (⟨hl, hace⟩ | ⟨hq, hw, henc⟩ | ⟨hl, hace, hrule, hq⟩)
    · exact asciiLabel_of_ascii (isAscii_iff.mpr hl) (isAcePrefix_eq_false_iff.mpr hace)
    · rename_i q w
      have hace : isAcePrefix ((acePrefixBytes ++ q).map UInt8.toNat) = true := by
        rw [isAcePrefix_map_toNat]
        exact isAcePrefixBytes_iff.mpr ⟨q, rfl⟩
      rw [List.length_map] at hlen
      rw [asciiLabel_of_ace hace, map_toChar_map_toNat]
      exact ⟨isAscii_iff.mpr (isAscii_of_isAsciiBytes (isAsciiBytes_ace hq)), rfl, w, hw,
        (acceptDecoded_iff_encoded hA htables (length_le_of_ace hw hlen)).mpr henc⟩
    · rw [asciiLabel_of_unicode (isAscii_eq_false_iff.mpr hl) (isAcePrefix_eq_false_iff.mpr hace)]
      exact ⟨(hA.isLabelValid l hlen).mpr hrule, _, hq, rfl⟩

/-- **One label of `to_unicode`.** -/
theorem labelToUnicode_unicodeLabel {l : Bytes} (hlen : l.length ≤ 2 ^ 31) :
    S.LabelToUnicode l (unicodeLabel T l) := by
  by_cases h : ∃ q w, l = acePrefixBytes ++ q ∧ (∀ b ∈ q, b.toNat < 0x80) ∧
      punycodeToUtf32 q [] = some w ∧ (∀ c ∈ w, IsScalar c) ∧ S.Encoded w
  · obtain ⟨q, w, rfl, hq, hw, hsc, henc⟩ := h
    rw [unicodeLabel_of_accepted (isAsciiBytes_ace hq) rfl hw
      ((acceptDecoded_iff_encoded hA htables (length_le_of_ace hw hlen)).mpr henc) hsc]
    exact .decoded hq hw hsc henc
  · have hkept : unicodeLabel T l = l := by
      rcases unicodeLabel_cases T l with hl | ⟨q, w, rfl, hw, -, hsc, -⟩
      · exact hl
      · by_cases hascii : isAsciiBytes (acePrefixBytes ++ q) = true
        · refine unicodeLabel_of_rejected rfl fun w' hw' => ?_
          obtain rfl := Option.some.inj (hw.symm.trans hw')
          refine Bool.eq_false_iff.mpr fun haccept => h ⟨q, w, rfl, fun b hb => ?_, hw, hsc,
            (acceptDecoded_iff_encoded hA htables (length_le_of_ace hw hlen)).mp haccept⟩
          exact isAsciiBytes_iff.mp hascii b (List.mem_append_right _ hb)
        · rw [Bool.not_eq_true] at hascii
          rw [unicodeLabel, hascii, Bool.and_false, if_neg Bool.false_ne_true]
    rw [hkept]
    exact .kept fun q w hl hq hw hsc henc => h ⟨q, w, hl, hq, hw, hsc, henc⟩

end Program

/-- There is one Unicode form. -/
theorem LabelToUnicode.unique {l : Bytes} (hx : S.LabelToUnicode l x) (hy : S.LabelToUnicode l y) :
    x = y := by
  cases hx with
  | decoded hq hw hsc henc =>
    generalize hl : acePrefixBytes ++ _ = l at hy
    cases hy with
    | decoded hq' hw' =>
      obtain rfl := List.append_cancel_left hl
      rw [Option.some.inj (hw.symm.trans hw')]
    | kept h => exact absurd henc (h _ _ hl.symm hq hw hsc)
  | kept h =>
    cases hy with
    | decoded hq hw hsc henc => exact absurd henc (h _ _ rfl hq hw hsc)
    | kept => rfl

theorem unicodeLabel_iff (hA : S.Answers T ids) (htables : T.ensureTables = true) {l : Bytes}
    (hlen : l.length ≤ 2 ^ 31) : S.LabelToUnicode l y ↔ unicodeLabel T l = y :=
  ⟨(labelToUnicode_unicodeLabel hA htables hlen).unique,
    fun h => h ▸ labelToUnicode_unicodeLabel hA htables hlen⟩

/-! ### Main results -/

/-- `é` is a label. -/
theorem encoded_fewSource : fewSource.Encoded [0xE9] where
  not_ascii := ⟨0xE9, List.mem_cons_self, by decide⟩
  maps := ⟨[[0xE9]], .cons rfl .nil, rfl⟩
  nfc := by
    refine ⟨[0x65, 0x301], ⟨[[0x65, 0x301]], .cons ?_ .nil, rfl⟩, rfl⟩
    apply Replacement.fullExpansion_of_expand
    show Replacement.expand (canonicalMapping fewData) 2 0xE9 = some [0x65, 0x301]
    rfl
  rule :=
    { front := by
        rintro c hc ⟨gc, hgc, hmark⟩
        obtain rfl : 0xE9 = c := Option.some.inj hc
        obtain rfl : "Ll" = gc := Option.some.inj hgc
        exact absurd hmark (by decide)
      joiners := by
        intro i c hc hj
        obtain rfl : c = 0xE9 := by simpa using List.mem_of_getElem? hc
        exact absurd hj (show ¬ (0xE9 = 0x200C ∨ 0xE9 = 0x200D) by decide)
      base := fun _ => ⟨0xE9, List.mem_cons_self, by decide⟩
      bidi := by
        rintro ⟨c, hc, hrtl⟩
        obtain rfl := List.mem_singleton.mp hc
        exact absurd hrtl (by decide) }

/-- The ASCII form of `É`. -/
theorem toAscii_fewSource :
    fewSource.ToAscii [0xC3, 0x89] [0x78, 0x6E, 0x2D, 0x2D, 0x39, 0x63, 0x61] := by
  have hmaps : fewSource.Maps [0xC9] [0xE9] := ⟨[[0xE9]], .cons rfl .nil, rfl⟩
  refine ⟨by decide, [0xC9], [0xE9], [0xE9], by decide, by decide, hmaps,
    encoded_fewSource.nfc, [acePrefixBytes ++ [0x39, 0x63, 0x61]], .cons ?_ .nil, rfl⟩
  exact .unicode (q := [0x39, 0x63, 0x61]) encoded_fewSource.not_ascii (by decide)
    encoded_fewSource.rule (by decide)

/-- The input, mapped and normalized. -/
theorem prepare_iff (hs : S.Standard) (h : S.HeldBy T.toTableData ids)
    (hx : isAsciiBytes x = false) :
    prepare T x = some n ↔ ∃ s m, (∀ c ∈ s, IsScalar c) ∧ x = encodeUtf8 s ∧ S.Maps s m ∧
      IsNfc S.ucd.toUnicodeData S.exclusions m n := by
  have hA := h.answers hs
  obtain ⟨hg, -, hin⟩ := h.shape hs
  rw [prepare, Option.bind_eq_some_iff]
  simp only [mapAndNormalize_eq hg hin, Option.map_eq_some_iff, map_iff_maps hA h.ensured,
    readInput_eq_some, ← hA.normalize, normalize_eq_nfc hg h.ensured, Option.some.injEq]
  constructor
  · rintro ⟨s, ⟨-, hsc, hxs⟩, m, hm, hn⟩
    exact ⟨s, m, hsc, hxs, hm, hn⟩
  · rintro ⟨s, m, hsc, rfl, hm, hn⟩
    refine ⟨s, ⟨?_, hsc, rfl⟩, m, hm, hn⟩
    rintro rfl
    cases hx

theorem toAscii_iff (hs : S.Standard) (h : S.HeldBy T.toTableData ids)
    (hx : isAsciiBytes x = false) : AdaIdna.toAscii T x = (true, y) ↔ S.ToAscii x y := by
  rw [toAscii_eq_true hx, ToAscii]
  refine and_congr_right fun hlen => ?_
  have hlabels : ∀ {n}, prepare T x = some n → ∀ ys, List.Forall₂ S.LabelToAscii (n.splitOn dot) ys
      ↔ List.Forall₂ (fun l y => asciiLabel T l = some y) (n.splitOn dot) ys := by
    intro n hn
    exact forall₂_congr_of_mem fun l hl y =>
      (asciiLabel_iff (h.answers hs) h.ensured (h.length_label_le hs hlen hn hl)).symm
  constructor
  · rintro ⟨n, hn, hall, rfl⟩
    obtain ⟨s, m, hsc, hxs, hm, hnfc⟩ := (prepare_iff hs h hx).mp hn
    exact ⟨s, m, n, hsc, hxs, hm, hnfc, _,
      (hlabels hn _).mpr (forall₂_eq_some_iff.mpr ⟨hall, rfl⟩), rfl⟩
  · rintro ⟨s, m, n, hsc, hxs, hm, hnfc, ys, hys, rfl⟩
    have hn := (prepare_iff hs h hx).mpr ⟨s, m, hsc, hxs, hm, hnfc⟩
    obtain ⟨hall, rfl⟩ := forall₂_eq_some_iff.mp ((hlabels hn ys).mp hys)
    exact ⟨n, hn, hall, rfl⟩

/-- **`to_ascii` is ToASCII**: over tables that hold the source it returns the
ASCII form of a domain name, and fails with nothing in its output exactly if
there is none. -/
theorem toAscii_eq_iff_toAscii (hs : S.Standard) (h : S.HeldBy T.toTableData ids)
    (hx : isAsciiBytes x = false) :
    (∀ y, AdaIdna.toAscii T x = (true, y) ↔ S.ToAscii x y) ∧
      ((∀ y, ¬ S.ToAscii x y) → AdaIdna.toAscii T x = (false, [])) := by
  refine ⟨fun y => toAscii_iff hs h hx, fun hnone => ?_⟩
  rcases hresult : AdaIdna.toAscii T x with ⟨b, y⟩
  cases b with
  | true => exact absurd ((toAscii_iff hs h hx).mp hresult) (hnone y)
  | false =>
    have hempty := toAscii_eq_false (congrArg Prod.fst hresult)
    rw [hresult] at hempty
    exact congrArg (Prod.mk false) hempty

/-- `É` becomes `xn--9ca`. -/
theorem toAscii_eq_iff_toAscii_few : ∃ T : Tables,
    AdaIdna.toAscii T [0xC3, 0x89] = (true, [0x78, 0x6E, 0x2D, 0x2D, 0x39, 0x63, 0x61]) := by
  obtain ⟨T, ids, h⟩ := exists_heldBy_fewSource
  exact ⟨T, ((toAscii_eq_iff_toAscii standard_fewSource h (by decide)).1 _).mpr toAscii_fewSource⟩

/-- **`to_unicode` is ToUnicode**: over such tables it returns the Unicode form
of every input. -/
theorem toUnicode_eq_iff_toUnicode (hs : S.Standard) (h : S.HeldBy T.toTableData ids)
    (x y : Bytes) : AdaIdna.toUnicode T x = y ↔ S.ToUnicode x y := by
  have hA := h.answers hs
  rw [ToUnicode]
  split_ifs with hlen
  · have hlabels : ∀ ys, List.Forall₂ S.LabelToUnicode (x.splitOn dotByte) ys
        ↔ List.Forall₂ (fun l y => unicodeLabel T l = y) (x.splitOn dotByte) ys :=
      forall₂_congr_of_mem fun l hl y => unicodeLabel_iff hA h.ensured
        ((length_le_of_mem_splitOn hl).trans (hlen.trans (by decide)))
    rw [toUnicode_eq hlen]
    simp only [hlabels, ← List.forall₂_map_left_iff (f := unicodeLabel T) (R := (· = ·)),
      List.forall₂_eq_eq_eq]
    constructor
    · rintro rfl
      exact ⟨_, rfl, rfl⟩
    · rintro ⟨_, rfl, rfl⟩
      rfl
  · rw [toUnicode_of_lt (not_le.mp hlen)]
    exact eq_comm

/-- And `xn--9ca` becomes `é`. -/
theorem toUnicode_eq_iff_toUnicode_few : ∃ T : Tables,
    AdaIdna.toUnicode T [0x78, 0x6E, 0x2D, 0x2D, 0x39, 0x63, 0x61] = [0xC3, 0xA9] := by
  obtain ⟨T, ids, h⟩ := exists_heldBy_fewSource
  refine ⟨T, (toUnicode_eq_iff_toUnicode standard_fewSource h _ _).mpr ?_⟩
  rw [ToUnicode, if_pos (by decide)]
  refine ⟨[[0xC3, 0xA9]], .cons ?_ .nil, rfl⟩
  exact .decoded (q := [0x39, 0x63, 0x61]) (w := [0xE9]) (isAsciiBytes_iff.mp rfl) (by decide)
    (by decide) encoded_fewSource

end Source

end AdaIdna
