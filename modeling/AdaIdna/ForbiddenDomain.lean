/-
AdaIdna/ForbiddenDomain.lean

Forbidden domain code points: what a caller of `to_ascii` that checks its
output has checked.

`contains_forbidden_domain_code_point` looks at the output, that is, at labels
some of which are in Punycode.  The check is nevertheless one on the mapped
name: no letter, digit, hyphen or separator is forbidden, so the encoder adds
nothing that is, and it copies every ASCII character of a label
(`toChar_mem_utf32ToPunycode`), so it hides nothing either:

    contains_forbidden(to_ascii(x)) = some ASCII character of the mapped form
                                      of x is forbidden.

`to_unicode` keeps what the check has established: an ASCII character of its
output is one of its input (`mem_toUnicode`), because the decoder inserts
code points from U+0080 on only.
-/
import AdaIdna.Idempotence
import AdaIdna.UnicodeLabels

namespace AdaIdna

open Labels

variable {T : Tables} {l n s : U32String} {x y p : Bytes} {c : ℕ}

/-! ### The check -/

/-- `is_forbidden_domain_code_point_table`. -/
def isForbiddenDomainCodePointTable : List ℕ :=
  [1, 1, 1, 1, 1, 1, 1, 1, 1, 1, 1, 1, 1, 1, 1, 1, 1, 1, 1, 1, 1, 1, 1, 1,
    1, 1, 1, 1, 1, 1, 1, 1, 1, 0, 0, 1, 0, 1, 0, 0, 0, 0, 0, 0, 0, 0, 0, 1,
    0, 0, 0, 0, 0, 0, 0, 0, 0, 0, 1, 0, 1, 0, 1, 1, 1, 0, 0, 0, 0, 0, 0, 0,
    0, 0, 0, 0, 0, 0, 0, 0, 0, 0, 0, 0, 0, 0, 0, 0, 0, 0, 0, 1, 1, 1, 1, 0,
    0, 0, 0, 0, 0, 0, 0, 0, 0, 0, 0, 0, 0, 0, 0, 0, 0, 0, 0, 0, 0, 0, 0, 0,
    0, 0, 0, 0, 1, 0, 0, 1, 1, 1, 1, 1, 1, 1, 1, 1, 1, 1, 1, 1, 1, 1, 1, 1,
    1, 1, 1, 1, 1, 1, 1, 1, 1, 1, 1, 1, 1, 1, 1, 1, 1, 1, 1, 1, 1, 1, 1, 1,
    1, 1, 1, 1, 1, 1, 1, 1, 1, 1, 1, 1, 1, 1, 1, 1, 1, 1, 1, 1, 1, 1, 1, 1,
    1, 1, 1, 1, 1, 1, 1, 1, 1, 1, 1, 1, 1, 1, 1, 1, 1, 1, 1, 1, 1, 1, 1, 1,
    1, 1, 1, 1, 1, 1, 1, 1, 1, 1, 1, 1, 1, 1, 1, 1, 1, 1, 1, 1, 1, 1, 1, 1,
    1, 1, 1, 1, 1, 1, 1, 1, 1, 1, 1, 1, 1, 1, 1, 1]

/-- `is_forbidden_domain_code_point`. -/
def isForbiddenDomainCodePoint (c : UInt8) : Bool :=
  isForbiddenDomainCodePointTable.getD c.toNat 0 != 0

/-- `contains_forbidden_domain_code_point`. -/
def containsForbiddenDomainCodePoint (view : Bytes) : Bool :=
  view.any isForbiddenDomainCodePoint

/-- `to_ascii`, the overload that returns the string. -/
def toAsciiString (T : Tables) (utf8String : Bytes) : Bytes :=
  if (toAscii T utf8String).1 then (toAscii T utf8String).2 else []

/-- `domain_to_ascii`, the function that callers build of the two. -/
def domainToAscii (T : Tables) (input : Bytes) : Bytes :=
  let out := toAsciiString T input
  if containsForbiddenDomainCodePoint out then [] else out

theorem containsForbidden_iff :
    containsForbiddenDomainCodePoint y = true ↔
      ∃ b ∈ y, isForbiddenDomainCodePoint b = true := List.any_eq_true

/-! ### What is not forbidden -/

/-- Case is not seen by the table. -/
theorem isForbidden_toLower (b : UInt8) :
    isForbiddenDomainCodePoint (toLower b) = isForbiddenDomainCodePoint b := by
  by_cases h : IsUpper b.toNat
  · have hupper : ∀ u < 26, isForbiddenDomainCodePointTable.getD (0x41 + u) 0 = 0 ∧
        isForbiddenDomainCodePointTable.getD (0x61 + u) 0 = 0 := by decide
    obtain ⟨hlo, hhi⟩ := h
    obtain ⟨hup, hlow⟩ := hupper (b.toNat - 0x41) (by omega)
    have hto : (toLower b).toNat = 0x61 + (b.toNat - 0x41) := by
      rw [toNat_toLower, lowerCode, if_pos ⟨hlo, hhi⟩]
      omega
    have hfrom : b.toNat = 0x41 + (b.toNat - 0x41) := by omega
    rw [isForbiddenDomainCodePoint, hto, hlow, isForbiddenDomainCodePoint, hfrom, hup]
  · rw [toLower_of_not_isUpper h]

/-- What the encoder writes by itself is not forbidden. -/
theorem isForbidden_of_isDigit {b : UInt8} (h : b = delimiter ∨ IsDigit b) :
    isForbiddenDomainCodePoint b = false := by
  have hdigits : ∀ e < base, isForbiddenDomainCodePoint (digitToChar e) = false := by decide
  rcases h with rfl | ⟨e, he, rfl⟩
  · decide
  · exact hdigits e he

theorem isForbidden_dotByte : isForbiddenDomainCodePoint dotByte = false := by decide

/-! ### What the encoder copies -/

/-- The basic code points stand before the digits. -/
theorem toChar_mem_utf32ToPunycode (h : utf32ToPunycode s [] = some p) (hc : c ∈ s)
    (hlt : c < 0x80) : toChar c ∈ p := by
  have hmem : toChar c ∈ (s.filter (· < 0x80)).map toChar :=
    List.mem_map_of_mem (List.mem_filter.mpr ⟨hc, decide_eq_true hlt⟩)
  rw [utf32ToPunycode] at h
  split at h
  · dsimp only at h
    generalize hout : (if 0 < (s.filter (· < 0x80)).length then
        [] ++ (s.filter (· < 0x80)).map toChar ++ [delimiter]
      else [] ++ (s.filter (· < 0x80)).map toChar) = out at h
    have hmem' : toChar c ∈ out := by
      rw [← hout]
      split
      · simp only [List.nil_append]
        exact List.mem_append_left _ hmem
      · exact hmem
    -- the digits are appended to what is there
    have hbehind := encodeLoop_behind s (s.filter (· < 0x80)).length s.length initialN
      { d := 0, bias := initialBias, h := (s.filter (· < 0x80)).length, out := [] } out
    rw [EncoderState.behind, List.append_nil] at hbehind
    rw [hbehind] at h
    obtain ⟨q, -, rfl⟩ := Option.map_eq_some_iff.mp h
    exact List.mem_append_left _ hmem'
  · cases h

/-- Every ASCII character of a label stands in its ASCII form. -/
theorem toChar_mem_asciiLabel (h : asciiLabel T l = some y) (hc : c ∈ l) (hlt : c < 0x80) :
    toChar c ∈ y := by
  by_cases hace : isAcePrefix l = true
  · obtain ⟨-, rfl, -⟩ := (asciiLabel_of_ace hace).mp h
    exact List.mem_map_of_mem hc
  rw [Bool.not_eq_true] at hace
  by_cases hascii : isAscii l = true
  · rw [asciiLabel_of_ascii hascii hace] at h
    obtain rfl := Option.some.inj h
    exact List.mem_map_of_mem hc
  · rw [Bool.not_eq_true] at hascii
    obtain ⟨-, p, hp, rfl⟩ := (asciiLabel_of_unicode hascii hace).mp h
    exact List.mem_append_right _ (toChar_mem_utf32ToPunycode hp hc hlt)

/-- The ASCII form of a label has a forbidden code point exactly if the label
has one. -/
theorem containsForbidden_asciiLabel (h : asciiLabel T l = some y) :
    (∃ b ∈ y, isForbiddenDomainCodePoint b = true) ↔
      ∃ c ∈ l, c < 0x80 ∧ isForbiddenDomainCodePoint (toChar c) = true := by
  constructor
  · rintro ⟨b, hb, hforb⟩
    rcases mem_asciiLabel h b hb with ⟨c, hc, hlt, rfl⟩ | hwritten
    · exact ⟨c, hc, hlt, hforb⟩
    · rw [isForbidden_of_isDigit hwritten] at hforb
      cases hforb
  · rintro ⟨c, hc, hlt, hforb⟩
    exact ⟨toChar c, toChar_mem_asciiLabel h hc hlt, hforb⟩

/-! ### The domain name -/

/-- The characters of the name: the input, if it is ASCII, or else what
mapping and normalization make of it. -/
def hostForm (T : Tables) (x : Bytes) : Option U32String :=
  if isAsciiBytes x then some (x.map UInt8.toNat) else prepare T x

/-- What the check should find. -/
def HasForbidden (n : U32String) : Prop :=
  ∃ c ∈ n, c < 0x80 ∧ isForbiddenDomainCodePoint (toChar c) = true

theorem containsForbidden_join {ls : List U32String} (h : ∀ l ∈ ls, (asciiLabel T l).isSome) :
    containsForbiddenDomainCodePoint (join dotByte (ls.map (asciiLabelOf T))) = true ↔
      HasForbidden (join dot ls) := by
  have hlabel : ∀ l ∈ ls, (∃ b ∈ asciiLabelOf T l, isForbiddenDomainCodePoint b = true) ↔
      HasForbidden l := by
    intro l hl
    obtain ⟨y, hy⟩ := Option.isSome_iff_exists.mp (h l hl)
    rw [asciiLabelOf_of_eq hy]
    exact containsForbidden_asciiLabel hy
  rw [containsForbidden_iff]
  constructor
  · rintro ⟨b, hb, hforb⟩
    rcases mem_join hb with rfl | ⟨y, hy, hmem⟩
    · rw [isForbidden_dotByte] at hforb
      cases hforb
    · obtain ⟨l, hl, rfl⟩ := List.mem_map.mp hy
      obtain ⟨c, hc, hbad⟩ := (hlabel l hl).mp ⟨b, hmem, hforb⟩
      exact ⟨c, mem_join_of_mem hl hc, hbad⟩
  · rintro ⟨c, hc, hlt, hforb⟩
    rcases mem_join hc with rfl | ⟨l, hl, hmem⟩
    · exact absurd hforb (Bool.eq_false_iff.mp isForbidden_dotByte)
    · obtain ⟨b, hb, hbad⟩ := (hlabel l hl).mpr ⟨c, hmem, hlt, hforb⟩
      exact ⟨b, mem_join_of_mem (List.mem_map_of_mem hl) hb, hbad⟩

/-- **The check on the output is a check on the name.** -/
theorem containsForbidden_toAscii (h : toAscii T x = (true, y)) :
    ∃ n, hostForm T x = some n ∧
      (containsForbiddenDomainCodePoint y = true ↔ HasForbidden n) := by
  by_cases hx : isAsciiBytes x = true
  · refine ⟨x.map UInt8.toNat, if_pos hx, ?_⟩
    rw [toAscii_of_ascii hx] at h
    obtain rfl := (Prod.mk.inj h).2
    rw [containsForbidden_iff]
    constructor
    · rintro ⟨b, hb, hforb⟩
      obtain ⟨a, ha, rfl⟩ := List.mem_map.mp hb
      rw [isForbidden_toLower, ← toChar_toNat a] at hforb
      exact ⟨a.toNat, List.mem_map_of_mem ha, isAsciiBytes_iff.mp hx a ha, hforb⟩
    · rintro ⟨c, hc, -, hforb⟩
      obtain ⟨a, ha, rfl⟩ := List.mem_map.mp hc
      rw [toChar_toNat, ← isForbidden_toLower] at hforb
      exact ⟨toLower a, List.mem_map_of_mem ha, hforb⟩
  · rw [Bool.not_eq_true] at hx
    obtain ⟨-, n, hn, hsome, rfl⟩ := (toAscii_eq_true hx).mp h
    refine ⟨n, (if_neg (by rw [hx]; exact Bool.false_ne_true)).trans hn, ?_⟩
    rw [containsForbidden_join hsome, join_splitOn]

/-- Nothing is left of a label only if nothing was there. -/
theorem eq_nil_of_asciiLabel (h : asciiLabel T l = some []) : l = [] := by
  by_cases hace : isAcePrefix l = true
  · obtain ⟨-, hnil, -⟩ := (asciiLabel_of_ace hace).mp h
    exact List.map_eq_nil_iff.mp hnil.symm
  rw [Bool.not_eq_true] at hace
  by_cases hascii : isAscii l = true
  · rw [asciiLabel_of_ascii hascii hace] at h
    exact List.map_eq_nil_iff.mp (Option.some.inj h)
  · rw [Bool.not_eq_true] at hascii
    obtain ⟨-, p, -, hnil⟩ := (asciiLabel_of_unicode hascii hace).mp h
    cases hnil

/-- The empty result of a success is that of an empty name. -/
theorem eq_nil_iff_of_toAscii (h : toAscii T x = (true, y)) (hn : hostForm T x = some n) :
    y = [] ↔ n = [] := by
  by_cases hx : isAsciiBytes x = true
  · rw [hostForm, if_pos hx] at hn
    rw [toAscii_of_ascii hx] at h
    obtain rfl := (Prod.mk.inj h).2
    obtain rfl := Option.some.inj hn
    rw [List.map_eq_nil_iff, List.map_eq_nil_iff]
  · rw [Bool.not_eq_true] at hx
    rw [hostForm, hx] at hn
    obtain ⟨-, n', hn', hsome, rfl⟩ := (toAscii_eq_true hx).mp h
    obtain rfl := Option.some.inj (hn'.symm.trans hn)
    constructor
    · intro hnil
      have hlabels := splitOn_toAscii hsome
      rw [hnil] at hlabels
      obtain ⟨l, hl, hempty⟩ := List.map_eq_singleton_iff.mp hlabels.symm
      obtain ⟨y, hy⟩ := Option.isSome_iff_exists.mp (hsome l (hl ▸ List.mem_singleton_self l))
      rw [asciiLabelOf_of_eq hy] at hempty
      subst hempty
      rw [← join_splitOn dot n', hl, join_singleton]
      exact eq_nil_of_asciiLabel hy
    · rintro rfl
      rfl

theorem domainToAscii_eq_and_ne_nil :
    domainToAscii T x = y ∧ y ≠ [] ↔
      toAscii T x = (true, y) ∧ y ≠ [] ∧ containsForbiddenDomainCodePoint y = false := by
  rw [domainToAscii, toAsciiString]
  rcases toAscii T x with ⟨- | -, out⟩
  · rw [if_neg Bool.false_ne_true]
    constructor
    · rintro ⟨rfl, hne⟩
      exact absurd rfl hne
    · rintro ⟨h, -⟩
      cases h
  · dsimp only
    rw [if_pos rfl]
    by_cases hforb : containsForbiddenDomainCodePoint out = true
    · rw [if_pos hforb]
      constructor
      · rintro ⟨rfl, hne⟩
        exact absurd rfl hne
      · rintro ⟨h, -, hnot⟩
        obtain rfl := (Prod.mk.inj h).2
        exact absurd hforb (Bool.eq_false_iff.mp hnot)
    · rw [if_neg hforb]
      constructor
      · rintro ⟨rfl, hne⟩
        exact ⟨rfl, hne, Bool.eq_false_iff.mpr hforb⟩
      · rintro ⟨h, hne, -⟩
        exact ⟨(Prod.mk.inj h).2, hne⟩

/-- **What `domain_to_ascii` accepts**: the names that `to_ascii` accepts, that
are not empty once mapped, and in whose mapped form nothing is forbidden. -/
theorem domainToAscii_iff :
    domainToAscii T x = y ∧ y ≠ [] ↔
      toAscii T x = (true, y) ∧ ∃ n, hostForm T x = some n ∧ n ≠ [] ∧ ¬ HasForbidden n := by
  rw [domainToAscii_eq_and_ne_nil]
  refine and_congr_right fun h => ?_
  obtain ⟨n, hn, hforb⟩ := containsForbidden_toAscii h
  rw [Ne, eq_nil_iff_of_toAscii h hn, ← Bool.not_eq_true, hforb]
  constructor
  · exact fun hnot => ⟨n, hn, hnot⟩
  · rintro ⟨n', hn', hnot⟩
    obtain rfl := Option.some.inj (hn.symm.trans hn')
    exact hnot

/-! ### The name as it is shown -/

/-- Only ASCII code points encode as ASCII characters. -/
theorem mem_encodeUtf8_ascii {w : U32String} {b : UInt8} (hw : ∀ c ∈ w, IsScalar c)
    (hb : b ∈ encodeUtf8 w) (hlt : b.toNat < 0x80) : b.toNat ∈ w := by
  obtain ⟨c, hc, hmem⟩ := List.mem_flatMap.mp hb
  by_cases hc' : c < 0x80
  · rw [encodeChar_of_lt hc', List.mem_singleton] at hmem
    rwa [hmem, toNat_toChar (hc'.trans (by decide))]
  · obtain ⟨b0, bs, heq, hlead, htail⟩ := exists_encodeChar_of_le (not_lt.mp hc') (hw c hc).1
    rw [heq, List.mem_cons] at hmem
    rcases hmem with rfl | hmem
    · omega
    · have hge := (htail _ hmem).1
      omega

/-- A label gets no ASCII character by being shown. -/
theorem mem_unicodeLabel {L : Bytes} {b : UInt8} (hb : b ∈ unicodeLabel T L)
    (hlt : b.toNat < 0x80) : b ∈ L := by
  rcases unicodeLabel_cases T L with h | ⟨q, w, rfl, hq, -, hsc, h⟩
  · rwa [h] at hb
  · rw [h] at hb
    rcases mem_punycodeToUtf32 hq _ (mem_encodeUtf8_ascii hsc hb hlt) with ⟨a, ha, heq⟩ | hge
    · rw [UInt8.toNat_inj.mp heq]
      exact List.mem_append_right _ ha
    · omega

/-- **`to_unicode` adds no ASCII character.** -/
theorem mem_toUnicode {b : UInt8} (hb : b ∈ toUnicode T x) (hlt : b.toNat < 0x80) : b ∈ x := by
  by_cases hlen : x.length ≤ maxDomainInputBytes
  · by_cases hdot : b = dotByte
    · -- separators are neither added nor removed
      rw [hdot] at hb ⊢
      rwa [← List.count_pos_iff, ← count_dot_toUnicode T, List.count_pos_iff]
    · rw [toUnicode_eq hlen] at hb
      rw [← join_splitOn dotByte x]
      obtain ⟨u, hu, hmem⟩ := (mem_join hb).resolve_left hdot
      obtain ⟨L, hL, rfl⟩ := List.mem_map.mp hu
      exact mem_join_of_mem hL (mem_unicodeLabel hmem hlt)
  · rwa [toUnicode_of_lt (not_le.mp hlen)] at hb

/-- A result of `domain_to_ascii` is made of bytes that it lets pass. -/
theorem mem_domainToAscii (hu : NoUpperCase T) {b : UInt8} (hb : b ∈ domainToAscii T x) :
    IsCanonicalByte b ∧ isForbiddenDomainCodePoint b = false := by
  obtain ⟨h, -, hforb⟩ := domainToAscii_eq_and_ne_nil.mp ⟨rfl, List.ne_nil_of_mem hb⟩
  refine ⟨isCanonicalByte_of_mem_toAscii hu h b hb, ?_⟩
  by_contra hbad
  rw [Bool.not_eq_false] at hbad
  rw [containsForbidden_iff.mpr ⟨b, hb, hbad⟩] at hforb
  cases hforb

theorem domainToAscii_domainToAscii (hu : NoUpperCase T) (x : Bytes) :
    domainToAscii T (domainToAscii T x) = domainToAscii T x := by
  by_cases hne : domainToAscii T x = []
  · rw [hne]
    rfl
  · obtain ⟨h, -, hforb⟩ := domainToAscii_eq_and_ne_nil.mp ⟨rfl, hne⟩
    exact (domainToAscii_eq_and_ne_nil.mpr
      ⟨toAscii_eq_self (isCanonicalByte_of_mem_toAscii hu h), hne, hforb⟩).1

/-- **A host that has been checked stays checked**: `domain_to_ascii` returns
it as it is, and what `to_unicode` shows of it has no forbidden ASCII
character, no upper case letter and no ASCII character that was not there. -/
theorem domainToAscii_settled (hu : NoUpperCase T) (x : Bytes) :
    domainToAscii T (domainToAscii T x) = domainToAscii T x ∧
      ∀ b ∈ toUnicode T (domainToAscii T x), b.toNat < 0x80 →
        b ∈ domainToAscii T x ∧ ¬ IsUpper b.toNat ∧ isForbiddenDomainCodePoint b = false := by
  refine ⟨domainToAscii_domainToAscii hu x, fun b hb hlt => ?_⟩
  have hmem := mem_toUnicode hb hlt
  obtain ⟨hcanonical, hforb⟩ := mem_domainToAscii hu hmem
  exact ⟨hmem, hcanonical.2, hforb⟩

/-- `É.א` in the small tables. -/
theorem domainToAscii_settled_small :
    domainToAscii smallTables (domainToAscii smallTables [0x45, 0xCC, 0x81, 0x2E, 0xD7, 0x90])
        = domainToAscii smallTables [0x45, 0xCC, 0x81, 0x2E, 0xD7, 0x90] ∧
      ∀ b ∈ toUnicode smallTables
          (domainToAscii smallTables [0x45, 0xCC, 0x81, 0x2E, 0xD7, 0x90]), b.toNat < 0x80 →
        b ∈ domainToAscii smallTables [0x45, 0xCC, 0x81, 0x2E, 0xD7, 0x90] ∧ ¬ IsUpper b.toNat ∧
          isForbiddenDomainCodePoint b = false :=
  domainToAscii_settled small_noUpperCase [0x45, 0xCC, 0x81, 0x2E, 0xD7, 0x90]

end AdaIdna
