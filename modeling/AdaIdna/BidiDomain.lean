/-
AdaIdna/BidiDomain.lean

The Bidi rule for a whole domain name.

RFC 5893 puts its six conditions on every label of a domain name that has a
label with a character of direction R, AL or AN somewhere.  The code looks at
one label at a time, and at an ASCII label not at all.  `bidiDomainRule_iff`
says what that leaves open: the labels without such a character have to be LTR
labels by themselves.
-/
import AdaIdna.LabelLength
import AdaIdna.BidiRule
import AdaIdna.PunycodeCodec

namespace AdaIdna

open Labels

variable {T : Tables} {l n d : U32String} {x y a : Bytes} {ls ds : List U32String}

/-! ### The labels of a result -/

/-- A label of the result, decoded if it is an ACE label. -/
def decodeLabel (a : Bytes) : Option U32String :=
  if acePrefixBytes.isPrefixOf a then punycodeToUtf32 (a.drop 4) [] else some (a.map UInt8.toNat)

/-- The labels of the result with ACE labels decoded. -/
def decodedLabels (y : Bytes) : Option (List U32String) := (y.splitOn dotByte).mapM decodeLabel

/-- Decoding undoes `to_ascii` on a label, up to the decoding of ACE labels. -/
theorem eq_decodedLabel (hlen : l.length < int32Max) (ha : asciiLabel T l = some a)
    (hd : decodeLabel a = some d) : d = decodedLabel l := by
  by_cases hace : isAcePrefix l = true
  · obtain ⟨hascii, rfl, -⟩ := (asciiLabel_of_ace hace).mp ha
    rw [decodeLabel, isPrefixOf_map_toChar hascii, if_pos hace] at hd
    exact (decodedLabel_of_ace hace hd).symm
  · rw [Bool.not_eq_true] at hace
    rw [decodedLabel_of_not_ace hace]
    by_cases hascii : isAscii l = true
    · rw [asciiLabel_of_ascii hascii hace] at ha
      obtain rfl := Option.some.inj ha
      rw [decodeLabel, isPrefixOf_map_toChar hascii, hace, if_neg (by decide),
        map_toNat_map_toChar (isAscii_iff.mp hascii)] at hd
      exact (Option.some.inj hd).symm
    · rw [Bool.not_eq_true] at hascii
      obtain ⟨-, p, hp, rfl⟩ := (asciiLabel_of_unicode hascii hace).mp ha
      have hbytes : acePrefixBytes.isPrefixOf (acePrefixBytes ++ p) = true :=
        isAcePrefixBytes_iff.mpr ⟨p, rfl⟩
      rw [decodeLabel, if_pos hbytes] at hd
      exact ((punycodeToUtf32_encoded hlen.le hp).mp hd).2.1

theorem eq_map_of_mapM {α β : Type} {f : α → Option β} {g : α → β} {s : List α} {r : List β}
    (hfg : ∀ a ∈ s, ∀ b, f a = some b → b = g a) (h : s.mapM f = some r) : r = s.map g := by
  induction s generalizing r with
  | nil =>
    obtain rfl := Option.some.inj h
    rfl
  | cons a s ih =>
    rw [List.forall_mem_cons] at hfg
    rw [List.mapM_cons] at h
    obtain ⟨b, hb, h⟩ := Option.bind_eq_some_iff.mp h
    obtain ⟨t, ht, h⟩ := Option.bind_eq_some_iff.mp h
    obtain rfl := Option.some.inj h
    rw [List.map_cons, hfg.1 b hb, ih hfg.2 ht]

/-- **The decoded labels of a result** are those of the mapped string. -/
theorem decodedLabels_toAscii (hsize : TableSizes T) (hx : isAsciiBytes x = false)
    (hy : toAscii T x = (true, y)) (hn : prepare T x = some n) (hds : decodedLabels y = some ds) :
    ds = (n.splitOn dot).map decodedLabel ∧ ∀ l ∈ n.splitOn dot, (asciiLabel T l).isSome := by
  obtain ⟨hlen, n', hn', hsome, rfl⟩ := (toAscii_eq_true hx).mp hy
  obtain rfl := Option.some.inj (hn.symm.trans hn')
  refine ⟨?_, hsome⟩
  rw [decodedLabels, splitOn_toAscii hsome, List.mapM_map] at hds
  refine eq_map_of_mapM (fun l hl d hd => ?_) hds
  obtain ⟨a, ha⟩ := Option.isSome_iff_exists.mp (hsome l hl)
  rw [Function.comp_apply, asciiLabelOf_of_eq ha] at hd
  exact eq_decodedLabel (hsize.length_lt_int32Max hlen hn hl) ha hd

/-- Decoding makes no label longer. -/
theorem length_decodedLabel_le (l : U32String) : (decodedLabel l).length ≤ l.length := by
  rw [decodedLabel]
  split
  · rcases hw : punycodeToUtf32 ((l.map toChar).drop 4) [] with - | w
    · exact Nat.zero_le _
    · calc w.length
          ≤ ((l.map toChar).drop 4).length := length_le_of_punycodeToUtf32 hw
        _ ≤ (l.map toChar).length := (List.drop_sublist 4 _).length_le
        _ = l.length := List.length_map _
  · exact le_rfl

/-- A label of the result is ASCII, or valid. -/
theorem isLabelValid_decodedLabel (h : (asciiLabel T l).isSome = true)
    (hascii : isAscii (decodedLabel l) = false) : isLabelValid T (decodedLabel l) = true := by
  obtain ⟨a, ha⟩ := Option.isSome_iff_exists.mp h
  by_cases hace : isAcePrefix l = true
  · obtain ⟨-, -, w, hw, haccept⟩ := (asciiLabel_of_ace hace).mp ha
    rw [decodedLabel_of_ace hace hw]
    exact (acceptDecoded_iff.mp haccept).2.2.2
  · rw [Bool.not_eq_true] at hace
    rw [decodedLabel_of_not_ace hace] at hascii ⊢
    exact ((asciiLabel_of_unicode hascii hace).mp ha).1

/-! ### The rule -/

/-- The Bidi rule for a domain name: if it is a Bidi domain name, all labels
that are not empty satisfy the six conditions. -/
def BidiDomainRule (T : Tables) (ls : List U32String) : Prop :=
  (∃ l ∈ ls, ∃ d ∈ directionsOf T l, d.IsRtl) → ∀ l ∈ ls, l ≠ [] → BidiRule (directionsOf T l)

/-- What is open about the labels that pass unchecked: those without a
character of direction R, AL or AN, and those of ASCII characters. -/
def UncheckedLabelsFollow (T : Tables) (ls : List U32String) : Prop :=
  (∃ l ∈ ls, isRtlLabel T l = true) → ∀ l ∈ ls, l ≠ [] →
    (isRtlLabel T l = false → LtrRule (directionsOf T l)) ∧
      (isRtlLabel T l = true → isAscii l = true → RtlRule (directionsOf T l))

/-- **What validity leaves open**, for labels that are valid or ASCII. -/
theorem bidiDomainRule_iff_unchecked (hlen : ∀ l ∈ ls, l.length ≤ 2 ^ 31)
    (h : ∀ l ∈ ls, isAscii l = false → isLabelValid T l = true) :
    BidiDomainRule T ls ↔ UncheckedLabelsFollow T ls := by
  rw [BidiDomainRule, UncheckedLabelsFollow]
  simp only [← isRtlLabel_iff]
  refine imp_congr_right fun _ => forall₂_congr fun l hl => imp_congr_right fun _ => ?_
  constructor
  · intro hrule
    refine ⟨fun hrtl => ?_, fun hrtl _ => ?_⟩
    · have hnone : ∀ d ∈ directionsOf T l, ¬ d.IsRtl := by
        intro d hd hr
        rw [isRtlLabel_iff.mpr ⟨d, hd, hr⟩] at hrtl
        cases hrtl
      exact (bidiRule_iff.mp hrule).resolve_right (not_rtlRule hnone)
    · obtain ⟨d, hd, hr⟩ := isRtlLabel_iff.mp hrtl
      exact (bidiRule_iff.mp hrule).resolve_left (not_ltrRule hd hr)
  · rintro ⟨hltr, hrtl⟩
    by_cases hr : isRtlLabel T l = true
    · by_cases hascii : isAscii l = true
      · exact bidiRule_iff.mpr (Or.inr (hrtl hr hascii))
      · -- the only labels that the code checks
        rw [Bool.not_eq_true] at hascii
        exact bidiRule_of_isLabelValid (hlen l hl) (h l hl hascii) hr
    · rw [Bool.not_eq_true] at hr
      exact bidiRule_iff.mpr (Or.inl (hltr hr))

/-- **When the Bidi rule holds of a result**: a result of `to_ascii` satisfies
the Bidi rule for domain names exactly if the labels that pass unchecked do
what the rule asks of them. -/
theorem bidiDomainRule_iff (hsize : TableSizes T) (hx : isAsciiBytes x = false)
    (hy : toAscii T x = (true, y)) (hn : prepare T x = some n) (hds : decodedLabels y = some ds) :
    BidiDomainRule T ds ↔ UncheckedLabelsFollow T ((n.splitOn dot).map decodedLabel) := by
  obtain ⟨rfl, hsome⟩ := decodedLabels_toAscii hsize hx hy hn hds
  have hlimit := ((toAscii_eq_true hx).mp hy).1
  apply bidiDomainRule_iff_unchecked
  · intro v hv
    obtain ⟨l, hl, rfl⟩ := List.mem_map.mp hv
    have hlt := hsize.length_lt_int32Max hlimit hn hl
    calc (decodedLabel l).length
        ≤ l.length := length_decodedLabel_le l
      _ ≤ int32Max := hlt.le
      _ ≤ 2 ^ 31 := by decide
  · intro v hv hascii
    obtain ⟨l, hl, rfl⟩ := List.mem_map.mp hv
    exact isLabelValid_decodedLabel (hsome l hl) hascii

/-- `a.א` in the small tables. -/
theorem bidiDomainRule_iff_small :
    BidiDomainRule smallTables [[0x61], [0x5D0]] ↔
      UncheckedLabelsFollow smallTables (([0x61, 0x2E, 0x5D0].splitOn dot).map decodedLabel) :=
  bidiDomainRule_iff (x := [0x61, 0x2E, 0xD7, 0x90])
    (y := [0x61, 0x2E, 0x78, 0x6E, 0x2D, 0x2D, 0x34, 0x64, 0x62]) small_tableSizes (by decide)
    (by decide +kernel) (by decide +kernel) (by decide +kernel)

/-- **A label of digits in front of a Hebrew one**: `0.א` is accepted, and its
first label begins with EN. -/
theorem bidiDomainRule_digit_label :
    isAsciiBytes [0x30, 0x2E, 0xD7, 0x90] = false ∧
      toAscii smallTables [0x30, 0x2E, 0xD7, 0x90]
        = (true, [0x30, 0x2E, 0x78, 0x6E, 0x2D, 0x2D, 0x34, 0x64, 0x62]) ∧
      decodedLabels [0x30, 0x2E, 0x78, 0x6E, 0x2D, 0x2D, 0x34, 0x64, 0x62]
        = some [[0x30], [0x5D0]] ∧
      ¬ BidiDomainRule smallTables [[0x30], [0x5D0]] := by
  refine ⟨by decide, by decide +kernel, by decide +kernel, fun h => ?_⟩
  have hdigit : directionsOf smallTables [0x30] = [.en] := by decide +kernel
  have hrtl : ∃ d ∈ directionsOf smallTables [0x5D0], d.IsRtl := by decide +kernel
  have hrule := h ⟨[0x5D0], by simp, hrtl⟩ [0x30] (by simp) (by simp)
  rw [hdigit] at hrule
  rcases hrule.first with hfirst | hfirst | hfirst
  · cases hfirst
  · cases hfirst
  · cases hfirst

end AdaIdna
