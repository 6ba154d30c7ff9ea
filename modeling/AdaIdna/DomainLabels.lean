/-
AdaIdna/DomainLabels.lean

The two pipelines label by label.

The walk of `to_ascii` over the mapped string appends the ASCII form of one
label after the other (`toAsciiLoop_eq_true`), the walk of `to_unicode` the
Unicode form (`toUnicode_eq`).  Both decide about an ACE label by the same
test: the sequence of checks that `to_ascii` makes and the one that
`to_unicode` makes come to the same (`isAcePayloadValid_eq`).
-/
import AdaIdna.ToUnicode
import AdaIdna.Utf8Codec
import AdaIdna.PunycodeAlphabet
import AdaIdna.NormalForm

namespace AdaIdna

open Labels

variable (T : Tables)

/-- The ASCII form of a label of the mapped string. -/
def asciiLabel (labelView : U32String) : Option Bytes := appendLabel T labelView []

/-- The ASCII form of a label that has one. -/
def asciiLabelOf (labelView : U32String) : Bytes := (asciiLabel T labelView).getD []

/-- A label of the mapped string as `to_unicode` shows it. -/
def decodedLabel (labelView : U32String) : U32String :=
  if isAcePrefix labelView then (punycodeToUtf32 ((labelView.map toChar).drop 4) []).getD []
  else labelView

variable {T} {l w n r s : U32String} {x y out q : Bytes} {c : ℕ}

/-! ### The walk of `to_ascii` -/

theorem appendLabel_eq (l : U32String) (out : Bytes) :
    appendLabel T l out = (asciiLabel T l).map (out ++ ·) := by
  rw [asciiLabel, appendLabel, appendLabel]
  split
  · simp
  · split
    · split
      · rfl
      · split
        · rfl
        · rfl
    · split
      · rfl
      · split
        · rfl
        · rw [utf32ToPunycode_append, utf32ToPunycode_append l ([] ++ acePrefixBytes),
            Option.map_map]
          refine congrFun (congrArg _ (funext fun p => ?_)) _
          simp

theorem asciiLabelOf_of_eq (h : asciiLabel T l = some y) : asciiLabelOf T l = y := by
  rw [asciiLabelOf, h, Option.getD_some]

@[simp] theorem asciiLabel_nil : asciiLabel T [] = some [] := rfl

theorem toAsciiLoop_nil (fuel : ℕ) (out : Bytes) : toAsciiLoop T fuel [] out = (true, out) := by
  cases fuel <;> rfl

theorem toAsciiLoop_eq {fuel : ℕ} (hf : n.length ≤ fuel) :
    toAsciiLoop T fuel n out
      = if ∀ l ∈ n.splitOn dot, (asciiLabel T l).isSome then
          (true, out ++ join dotByte ((n.splitOn dot).map (asciiLabelOf T)))
        else (false, []) := by
  induction fuel generalizing n out with
  | zero =>
    obtain rfl := List.eq_nil_of_length_eq_zero (Nat.le_zero.mp hf)
    simp [toAsciiLoop, asciiLabelOf]
  | succ fuel ih =>
    cases n with
    | nil => simp [toAsciiLoop, asciiLabelOf]
    | cons c n =>
      rw [toAsciiLoop, appendLabel_eq]
      rcases cut_cases dot (c :: n) with ⟨htake, hdrop, hsplit⟩ |
        ⟨l, rest, hn, htake, hdrop, hsplit⟩
      · -- the last label
        rw [hsplit, htake, hdrop, List.map_singleton, join_singleton]
        simp only [List.mem_singleton, forall_eq]
        rcases h : asciiLabel T (c :: n) with - | y
        · rfl
        · rw [asciiLabelOf_of_eq h]
          exact toAsciiLoop_nil fuel (out ++ y)
      · -- a label, and a separator behind it
        rw [hsplit, htake, hdrop, List.map_cons,
          join_cons (by simp)]
        simp only [List.forall_mem_cons]
        have hlen : rest.length ≤ fuel := by
          have := congrArg List.length hn
          rw [List.length_append, List.length_cons, List.length_cons] at this
          rw [List.length_cons] at hf
          omega
        rcases h : asciiLabel T l with - | y
        · rfl
        · rw [asciiLabelOf_of_eq h]
          show toAsciiLoop T fuel rest (out ++ y ++ [dotByte]) = _
          rw [ih hlen]
          simp

/-- **The walk of `to_ascii`** appends the ASCII forms of the labels. -/
theorem toAsciiLoop_eq_true :
    toAsciiLoop T n.length n [] = (true, y) ↔
      (∀ l ∈ n.splitOn dot, (asciiLabel T l).isSome) ∧
        y = join dotByte ((n.splitOn dot).map (asciiLabelOf T)) := by
  rw [toAsciiLoop_eq le_rfl, List.nil_append]
  split
  · rename_i h
    rw [Prod.mk.injEq]
    exact ⟨fun h' => ⟨h, h'.2.symm⟩, fun h' => ⟨rfl, h'.2.symm⟩⟩
  · rename_i h
    simp [h]

/-! ### The input of `to_ascii` -/

theorem readInput_eq_some :
    readInput T x = some s ↔ s ≠ [] ∧ (∀ c ∈ s, IsScalar c) ∧ x = encodeUtf8 s := by
  rw [readInput]
  dsimp only
  constructor
  · intro h
    split at h
    · cases h
    · -- a count other than 0 is that of a successful conversion
      rcases hread : utf8ToUtf32 T.byteOrder x with ⟨k, s'⟩
      rw [hread] at h
      dsimp only at h
      split at h
      · cases h
      · rename_i hk
        obtain rfl := Option.some.inj h
        obtain ⟨hs, hx, hlen⟩ := (utf8ToUtf32_eq fun h0 => hk (Or.inl h0)).mp hread
        refine ⟨?_, hs, hx⟩
        rintro rfl
        exact hk (Or.inl hlen)
  · rintro ⟨hne, hs, rfl⟩
    have hlen : s.length ≠ 0 := fun h => hne (List.eq_nil_of_length_eq_zero h)
    rw [utf32LengthFromUtf8_encodeUtf8 hs, if_neg fun h => hlen h.1,
      (utf8ToUtf32_eq hlen).mpr ⟨hs, rfl, rfl⟩]
    dsimp only
    rw [if_neg]
    rintro (h | h)
    · exact hlen h
    · exact h rfl

/-- The mapped and normalized form of an input. -/
def prepare (T : Tables) (x : Bytes) : Option U32String :=
  (readInput T x).bind (mapAndNormalize T)

/-- **`to_ascii` on an input that is not ASCII.** -/
theorem toAscii_eq_true (hx : isAsciiBytes x = false) :
    toAscii T x = (true, y) ↔
      x.length ≤ maxDomainInputBytes ∧ ∃ n, prepare T x = some n ∧
        (∀ l ∈ n.splitOn dot, (asciiLabel T l).isSome) ∧
        y = join dotByte ((n.splitOn dot).map (asciiLabelOf T)) := by
  rw [toAscii, if_neg (by simp [hx]), prepare]
  by_cases hlen : maxDomainInputBytes < x.length
  · rw [if_pos hlen]
    refine iff_of_false (by simp) fun h => ?_
    exact absurd h.1 (not_le.mpr hlen)
  · rw [if_neg hlen, and_iff_right (not_lt.mp hlen)]
    rcases readInput T x with - | working
    · simp
    · rw [Option.bind_some]
      dsimp only
      rcases mapAndNormalize T working with - | n
      · simp
      · dsimp only
        rw [toAsciiLoop_eq_true]
        constructor
        · exact fun h => ⟨n, rfl, h⟩
        · rintro ⟨n', hn, h⟩
          obtain rfl := Option.some.inj hn
          exact h

/-- A failure leaves nothing in `out`. -/
theorem toAscii_eq_false (h : (toAscii T x).1 = false) : (toAscii T x).2 = [] := by
  rw [toAscii] at h ⊢
  split at h
  · cases h
  · rename_i hascii
    rw [if_neg hascii]
    split at h
    · rename_i hlen
      rw [if_pos hlen]
    · rename_i hlen
      rw [if_neg hlen]
      rcases hread : readInput T x with - | working
      · rfl
      · rw [hread] at h
        dsimp only at h ⊢
        rcases hmap : mapAndNormalize T working with - | n
        · rfl
        · rw [hmap] at h
          dsimp only at h ⊢
          rw [toAsciiLoop_eq le_rfl] at h ⊢
          split at h
          · cases h
          · rename_i hl
            rw [if_neg hl]

theorem toAscii_of_ascii (hx : isAsciiBytes x = true) : toAscii T x = (true, x.map toLower) := by
  rw [toAscii, if_pos hx, fromAsciiToAscii, asciiMap_eq _ (isAsciiBytes_iff.mp hx)]

/-! ### ACE labels -/

/-- What `accept_decoded` says. -/
theorem acceptDecoded_iff :
    acceptDecoded T w = true ↔ isAscii w = false ∧ map T w = some w ∧ normalize T w = some w ∧
      isLabelValid T w = true := by
  have hempty : isAscii w = false → w.isEmpty = false := by
    intro h
    cases w with
    | nil => cases h
    | cons => rfl
  rw [acceptDecoded]
  by_cases hascii : isAscii w = true
  · rw [if_pos hascii]
    simp [hascii]
  · rw [if_neg hascii]
    rw [Bool.not_eq_true] at hascii
    rcases map T w with - | m
    · simp
    · by_cases hm : m = w
      · subst hm
        rcases hnormalize : normalize T m with - | r
        · simp [hnormalize]
        · by_cases hr : r = m
          · subst hr
            simp [hascii, hnormalize, hempty hascii]
          · simp [hnormalize, hr]
      · simp [hm]

/-- **`to_ascii` and `to_unicode` accept the same ACE labels.** -/
theorem isAcePayloadValid_eq (q : Bytes) :
    isAcePayloadValid T q = true ↔
      ∃ w, punycodeToUtf32 q [] = some w ∧ acceptDecoded T w = true := by
  have hempty : ∀ {w : U32String}, isAscii w = false → w.isEmpty = false := by
    intro w h
    cases w with
    | nil => cases h
    | cons => rfl
  rw [isAcePayloadValid]
  rcases punycodeToUtf32 q [] with - | w
  · simp
  · simp only [Option.some.injEq, exists_eq_left', acceptDecoded_iff]
    by_cases hascii : isAscii w = true
    · simp [hascii]
    · rw [if_neg hascii]
      rw [Bool.not_eq_true] at hascii
      rcases hmap : map T w with - | m
      · simp
      · by_cases hm : m = w
        · subst hm
          have htables := (map_eq_some.mp hmap).1
          by_cases hnfc : isAlreadyNfc T m = true
          · -- both skip the normalization
            have hnormalize : normalize T m = some m := by
              rw [normalize, htables, if_pos hnfc]
              rfl
            simp [hascii, hnfc, hnormalize, hempty hascii]
          · rw [Bool.not_eq_true] at hnfc
            by_cases hr : normalize T m = some m
            · simp [hascii, hnfc, hr, hempty hascii]
            · simp [hascii, hnfc, hr]
        · simp [hm, Ne.symm hm]

/-! ### The four branches -/

theorem isAcePrefixBytes_iff {l : Bytes} :
    acePrefixBytes.isPrefixOf l = true ↔ ∃ q, l = acePrefixBytes ++ q := by
  rw [List.isPrefixOf_iff_prefix]
  exact ⟨fun ⟨q, h⟩ => ⟨q, h.symm⟩, fun ⟨q, h⟩ => ⟨q, h.symm⟩⟩

/-- Both kinds of strings have the prefix alike. -/
theorem isAcePrefix_map_toNat (L : Bytes) :
    isAcePrefix (L.map UInt8.toNat) = acePrefixBytes.isPrefixOf L := by
  rw [Bool.eq_iff_iff, isAcePrefix_iff, isAcePrefixBytes_iff]
  constructor
  · rintro ⟨rest, h⟩
    refine ⟨L.drop 4, ?_⟩
    have htake : (L.take 4).map UInt8.toNat = acePrefixBytes.map UInt8.toNat := by
      rw [List.map_take, h]
      rfl
    rw [← List.map_injective_iff.mpr (fun _ _ => UInt8.toNat_inj.mp) htake, List.take_append_drop]
  · rintro ⟨q, rfl⟩
    exact ⟨q.map UInt8.toNat, List.map_append⟩

theorem isPrefixOf_map_toChar (h : isAscii l = true) :
    acePrefixBytes.isPrefixOf (l.map toChar) = isAcePrefix l := by
  rw [← isAcePrefix_map_toNat, map_toNat_map_toChar (isAscii_iff.mp h)]

theorem isAscii_of_isAsciiBytes {l : Bytes} (h : isAsciiBytes l = true) :
    ∀ c ∈ l.map UInt8.toNat, c < 0x80 := by
  intro c hc
  obtain ⟨b, hb, rfl⟩ := List.mem_map.mp hc
  exact isAsciiBytes_iff.mp h b hb

/-- An ASCII label without the ACE prefix is copied. -/
theorem asciiLabel_of_ascii (h : isAscii l = true) (hace : isAcePrefix l = false) :
    asciiLabel T l = some (l.map toChar) := by
  rw [asciiLabel, appendLabel]
  split
  · rename_i hl
    rw [List.isEmpty_iff.mp hl]
    rfl
  · rw [hace]
    rfl

/-- An ACE label is copied if its payload passes the tests. -/
theorem asciiLabel_of_ace (hace : isAcePrefix l = true) :
    asciiLabel T l = some y ↔ isAscii l = true ∧ y = l.map toChar ∧
      ∃ w, punycodeToUtf32 ((l.map toChar).drop 4) [] = some w ∧ acceptDecoded T w = true := by
  have hne : l.isEmpty = false := by
    obtain ⟨rest, rfl⟩ := isAcePrefix_iff.mp hace
    rfl
  have hany : l.any (0x80 ≤ ·) = !isAscii l := by
    rw [isAscii, List.not_all_eq_any_not]
    exact congrArg l.any (funext fun c => by simp [← decide_not])
  rw [← isAcePayloadValid_eq, asciiLabel, appendLabel, hne, hace, hany]
  rcases isAscii l with - | -
  · simp
  · rcases isAcePayloadValid T ((l.map toChar).drop 4) with - | -
    · simp
    · simp [eq_comm]

/-- Any other label is encoded if it is valid. -/
theorem asciiLabel_of_unicode (h : isAscii l = false) (hace : isAcePrefix l = false) :
    asciiLabel T l = some y ↔ isLabelValid T l = true ∧
      ∃ p, utf32ToPunycode l [] = some p ∧ y = acePrefixBytes ++ p := by
  have hne : l.isEmpty = false := by
    cases l with
    | nil => cases h
    | cons => rfl
  rw [asciiLabel, appendLabel, hne, hace, h, utf32ToPunycode_append]
  rcases isLabelValid T l with - | -
  · simp
  · rcases utf32ToPunycode l [] with - | p
    · simp
    · simp [eq_comm]

theorem decodedLabel_of_not_ace (h : isAcePrefix l = false) : decodedLabel l = l := by
  rw [decodedLabel, h]
  rfl

theorem decodedLabel_of_ace (h : isAcePrefix l = true)
    (hw : punycodeToUtf32 ((l.map toChar).drop 4) [] = some w) : decodedLabel l = w := by
  rw [decodedLabel, h, hw]
  rfl

/-- The prefix is made of characters that Punycode writes. -/
theorem mem_acePrefixBytes : ∀ b ∈ acePrefixBytes, b = delimiter ∨ IsDigit b := by
  simp only [acePrefixBytes, List.forall_mem_cons]
  exact ⟨Or.inr ⟨23, by decide, rfl⟩, Or.inr ⟨13, by decide, rfl⟩, Or.inl rfl, Or.inl rfl,
    fun b hb => absurd hb List.not_mem_nil⟩

/-- **The alphabet of the ASCII form**: the ASCII characters of the label, the
hyphen and the digits of Punycode. -/
theorem mem_asciiLabel (h : asciiLabel T l = some y) :
    ∀ b ∈ y, (∃ c ∈ l, c < 0x80 ∧ b = toChar c) ∨ b = delimiter ∨ IsDigit b := by
  have hcopy : isAscii l = true → ∀ b ∈ l.map toChar, ∃ c ∈ l, c < 0x80 ∧ b = toChar c := by
    intro hascii b hb
    obtain ⟨c, hc, rfl⟩ := List.mem_map.mp hb
    exact ⟨c, hc, isAscii_iff.mp hascii c hc, rfl⟩
  intro b hb
  by_cases hace : isAcePrefix l = true
  · obtain ⟨hascii, rfl, -⟩ := (asciiLabel_of_ace hace).mp h
    exact Or.inl (hcopy hascii b hb)
  · rw [Bool.not_eq_true] at hace
    by_cases hascii : isAscii l = true
    · rw [asciiLabel_of_ascii hascii hace] at h
      obtain rfl := Option.some.inj h
      exact Or.inl (hcopy hascii b hb)
    · rw [Bool.not_eq_true] at hascii
      obtain ⟨-, p, hp, rfl⟩ := (asciiLabel_of_unicode hascii hace).mp h
      rcases List.mem_append.mp hb with hb | hb
      · exact Or.inr (mem_acePrefixBytes b hb)
      · exact mem_utf32ToPunycode hp b hb

theorem lt_of_mem_asciiLabel (h : asciiLabel T l = some y) : ∀ b ∈ y, b.toNat < 0x80 := by
  intro b hb
  rcases mem_asciiLabel h b hb with ⟨c, -, hc, rfl⟩ | rfl | hd
  · rwa [toNat_toChar (hc.trans (by decide))]
  · decide
  · rcases hd.range with ⟨-, hd⟩ | ⟨-, hd⟩
    · exact hd.trans_lt (by decide)
    · exact hd.trans_lt (by decide)

theorem dotByte_not_mem_asciiLabel (hl : dot ∉ l) (h : asciiLabel T l = some y) :
    dotByte ∉ y := by
  intro hb
  rcases mem_asciiLabel h _ hb with ⟨c, hc, hlt, heq⟩ | heq | hd
  · have hdot : c = dot := toChar_inj (hlt.trans (by decide)) (by decide) heq.symm
    exact hl (hdot ▸ hc)
  · exact absurd heq (by decide)
  · exact absurd hd.range (by decide)

/-- The labels of the result are the ASCII forms of the labels. -/
theorem splitOn_toAscii (h : ∀ l ∈ n.splitOn dot, (asciiLabel T l).isSome) :
    (join dotByte ((n.splitOn dot).map (asciiLabelOf T))).splitOn dotByte
      = (n.splitOn dot).map (asciiLabelOf T) := by
  apply splitOn_join (by simp)
  rintro y hy
  obtain ⟨l, hl, rfl⟩ := List.mem_map.mp hy
  obtain ⟨y, hy⟩ := Option.isSome_iff_exists.mp (h l hl)
  rw [asciiLabelOf_of_eq hy]
  exact dotByte_not_mem_asciiLabel (not_mem_of_mem_splitOn hl) hy

/-! ### The walk of `to_unicode` -/

/-- The decoder puts no separator into a label. -/
theorem dot_not_mem_of_punycodeToUtf32 (hdot : dotByte ∉ q)
    (h : punycodeToUtf32 q [] = some w) : dot ∉ w := by
  intro hmem
  rcases mem_punycodeToUtf32 h dot hmem with ⟨b, hb, heq⟩ | hge
  · have hdotByte : b = dotByte := UInt8.toNat_inj.mp heq.symm
    exact hdot (hdotByte ▸ hb)
  · exact absurd hge (by decide)

theorem toUnicodeLoop_nil (fuel : ℕ) (out : Bytes) : toUnicodeLoop T fuel [] out = out := by
  cases fuel <;> rfl

theorem toUnicodeLoop_eq {fuel : ℕ} (hf : x.length ≤ fuel) :
    toUnicodeLoop T fuel x out
      = out ++ join dotByte ((x.splitOn dotByte).map (unicodeLabel T)) := by
  induction fuel generalizing x out with
  | zero =>
    obtain rfl := List.eq_nil_of_length_eq_zero (Nat.le_zero.mp hf)
    simp [toUnicodeLoop, unicodeLabel, acePrefixBytes]
  | succ fuel ih =>
    cases x with
    | nil => simp [toUnicodeLoop, unicodeLabel, acePrefixBytes]
    | cons b x =>
      rw [toUnicodeLoop]
      rcases cut_cases dotByte (b :: x) with ⟨htake, hdrop, hsplit⟩ |
        ⟨l, rest, hx, htake, hdrop, hsplit⟩
      · rw [hsplit, htake, hdrop, List.map_singleton, join_singleton]
        exact toUnicodeLoop_nil fuel _
      · have hlen : rest.length ≤ fuel := by
          have := congrArg List.length hx
          rw [List.length_append, List.length_cons, List.length_cons] at this
          rw [List.length_cons] at hf
          omega
        rw [hsplit, htake, hdrop, List.map_cons,
          join_cons (by simp)]
        show toUnicodeLoop T fuel rest (out ++ unicodeLabel T l ++ [dotByte]) = _
        rw [ih hlen]
        simp

/-- **`to_unicode`** joins the Unicode forms of the labels. -/
theorem toUnicode_eq (hlen : x.length ≤ maxDomainInputBytes) :
    toUnicode T x = join dotByte ((x.splitOn dotByte).map (unicodeLabel T)) := by
  rw [toUnicode, toUnicodeInto, if_neg (not_lt.mpr hlen)]
  dsimp only
  rw [toUnicodeLoop_eq le_rfl, List.nil_append]

/-- A label that does not begin with the ACE prefix is copied. -/
theorem unicodeLabel_of_not_ace {l : Bytes} (h : acePrefixBytes.isPrefixOf l = false) :
    unicodeLabel T l = l := by
  rw [unicodeLabel, h]
  rfl

/-- An ACE label is decoded if the decoded label is accepted. -/
theorem unicodeLabel_of_accepted {l : Bytes} (hl : isAsciiBytes (acePrefixBytes ++ q) = true)
    (h : l = acePrefixBytes ++ q) (hq : punycodeToUtf32 q [] = some w)
    (hw : acceptDecoded T w = true) (hsc : ∀ c ∈ w, IsScalar c) :
    unicodeLabel T l = encodeUtf8 w := by
  have hace : acePrefixBytes.isPrefixOf (acePrefixBytes ++ q) = true :=
    isAcePrefixBytes_iff.mpr ⟨q, rfl⟩
  have hdrop : (acePrefixBytes ++ q).drop 4 = q := rfl
  rw [h, unicodeLabel, hace, hl, hdrop, hq]
  simp [hw, utf32ToUtf8_eq hsc, utf8LengthFromUtf32_eq]

/-- Otherwise it is copied. -/
theorem unicodeLabel_of_rejected {l : Bytes} (h : l = acePrefixBytes ++ q)
    (hw : ∀ w, punycodeToUtf32 q [] = some w → acceptDecoded T w = false) :
    unicodeLabel T l = l := by
  have hdrop : (acePrefixBytes ++ q).drop 4 = q := rfl
  rw [h, unicodeLabel, hdrop]
  split
  · rcases hq : punycodeToUtf32 q [] with - | w
    · rfl
    · simp [hw w hq]
  · rfl

end AdaIdna
