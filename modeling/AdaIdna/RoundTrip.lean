/-
AdaIdna/RoundTrip.lean

`to_ascii` after `to_unicode` after `to_ascii`.

The mapped string of a domain name stays the same when it is mapped and
normalized again, hence so does each of its labels.  `RoundTrips` says what is
needed of the form in which `to_unicode` shows one label; the three kinds of
labels have it for three different reasons, and a domain name made of such
labels goes back to where it came from.
-/
import AdaIdna.NfcShortcut
import AdaIdna.PunycodeCodec

namespace AdaIdna

open Labels

variable {T : Tables} {l n v w : U32String} {a x y q : Bytes}

/-! ### One label -/

/-- `to_unicode` shows the ASCII form `a` as `v`, and `to_ascii` takes `v` back
to `a`. -/
structure RoundTrips (T : Tables) (v : U32String) (a : Bytes) : Prop where
  shown : unicodeLabel T a = encodeUtf8 v
  scalar : ∀ c ∈ v, IsScalar c
  no_dot : dot ∉ v
  not_ace : isAcePrefix v = false
  mapped : map T v = some v
  normal : nfc T v = v
  back : asciiLabel T v = some a

/-- An ASCII label is copied twice. -/
theorem roundTrips_of_ascii (hl : isAscii l = true) (hace : isAcePrefix l = false)
    (hdot : dot ∉ l) (hmap : map T l = some l) (hnfc : nfc T l = l) :
    RoundTrips T l (l.map toChar) where
  shown := by
    rw [unicodeLabel_of_not_ace ((isPrefixOf_map_toChar hl).trans hace),
      encodeUtf8_of_ascii (isAscii_iff.mp hl)]
  scalar c hc := by
    have := isAscii_iff.mp hl c hc
    exact ⟨by omega, by omega⟩
  no_dot := hdot
  not_ace := hace
  mapped := hmap
  normal := hnfc
  back := asciiLabel_of_ascii hl hace

/-- A label and its Punycode, if both sides accept it. -/
theorem roundTrips_of_accepted (hg : GeneratorShape T) (hsur : SurrogatesDisallowed T)
    (hlen : q.length < int32Max) (hascii : isAsciiBytes (acePrefixBytes ++ q) = true)
    (hdot : dotByte ∉ q) (hq : punycodeToUtf32 q [] = some w) (hw : acceptDecoded T w = true) :
    RoundTrips T w (acePrefixBytes ++ q) := by
  obtain ⟨hwascii, hmap, hnormalize, hvalid⟩ := acceptDecoded_iff.mp hw
  have hsc := hsur.isScalar_of_map hmap
  have hace := isAcePrefix_of_punycodeToUtf32 hq
  refine ⟨unicodeLabel_of_accepted hascii rfl hq hw hsc, hsc,
    dot_not_mem_of_punycodeToUtf32 hdot hq, hace, hmap, ?_, ?_⟩
  · rw [normalize_eq_nfc hg (map_eq_some.mp hmap).1] at hnormalize
    exact Option.some.inj hnormalize
  · have hwlen := (length_le_of_punycodeToUtf32 hq).trans hlen.le
    exact (asciiLabel_of_unicode hwascii hace).mpr
      ⟨hvalid, q, utf32ToPunycode_decoded hwlen hq hsc, rfl⟩

/-- **Every label makes the round trip**, if mapping and normalization leave
it as it is. -/
theorem roundTrips_decodedLabel (hg : GeneratorShape T) (hsur : SurrogatesDisallowed T)
    (hlen : l.length ≤ 1900) (hdot : dot ∉ l) (hmap : map T l = some l) (hnfc : nfc T l = l)
    (ha : asciiLabel T l = some a) : RoundTrips T (decodedLabel l) a := by
  have hlt := lt_of_mem_asciiLabel ha
  have hdotByte := dotByte_not_mem_asciiLabel hdot ha
  have h31 : (1900 : ℕ) < int32Max := by decide
  by_cases hace : isAcePrefix l = true
  · -- decoded by `to_unicode`, and encoded again
    obtain ⟨hascii, rfl, w, hq, hw⟩ := (asciiLabel_of_ace hace).mp ha
    obtain ⟨rest, rfl⟩ := isAcePrefix_iff.mp hace
    rw [decodedLabel_of_ace hace hq]
    rw [List.map_append] at hlt hdotByte ⊢
    apply roundTrips_of_accepted hg hsur _ (isAsciiBytes_iff.mpr hlt) _ hq hw
    · rw [List.length_append] at hlen
      rw [List.length_map]
      omega
    · exact fun h => hdotByte (List.mem_append_right _ h)
  · rw [Bool.not_eq_true] at hace
    rw [decodedLabel_of_not_ace hace]
    by_cases hascii : isAscii l = true
    · rw [asciiLabel_of_ascii hascii hace] at ha
      obtain rfl := Option.some.inj ha
      exact roundTrips_of_ascii hascii hace hdot hmap hnfc
    · -- encoded by `to_ascii`, and decoded again
      rw [Bool.not_eq_true] at hascii
      obtain ⟨hvalid, p, hp, rfl⟩ := (asciiLabel_of_unicode hascii hace).mp ha
      have hsc := hsur.isScalar_of_map hmap
      have hread : punycodeToUtf32 p [] = some l := by
        rw [punycodeToUtf32_encoded (hlen.trans h31.le) hp]
        exact ⟨indicesFit_of_length_le hlen hsc, rfl, hace⟩
      have haccept : acceptDecoded T l = true := by
        rw [acceptDecoded_iff, normalize_eq_nfc hg (map_eq_some.mp hmap).1, hnfc]
        exact ⟨hascii, hmap, rfl, hvalid⟩
      refine ⟨unicodeLabel_of_accepted (isAsciiBytes_iff.mpr hlt) rfl hread haccept hsc, hsc, hdot,
        hace, hmap, hnfc, ha⟩

/-! ### The labels of a stable string -/

/-- A character that maps to itself separates what is mapped. -/
theorem map_join (hvalid : idnaLookup T dot = idnaValid) (ls : List U32String) :
    (join dot ls).flatMap (imageOf T) = join dot (ls.map fun l => l.flatMap (imageOf T)) :=
  flatMap_join (imageOf_of_eq (image_of_valid hvalid)) ls

/-- Mapping leaves the labels of a string that it leaves as it is. -/
theorem map_label (hvalid : idnaLookup T dot = idnaValid) (hmap : map T n = some n) :
    ∀ l ∈ n.splitOn dot, map T l = some l := by
  obtain ⟨htables, hsome, hn⟩ := map_eq_some.mp hmap
  intro l hl
  refine map_eq_some.mpr ⟨htables, fun c hc => hsome c (mem_of_mem_splitOn hl hc), ?_⟩
  rw [← join_splitOn dot n, map_join hvalid] at hn
  exact (eq_of_join_map_eq (fun l => not_mem_of_mem_splitOn) hn.symm l hl).symm

/-- So does normalization. -/
theorem nfc_label (hg : GeneratorShape T) (hd : DotApart T) (hnfc : nfc T n = n) :
    ∀ l ∈ n.splitOn dot, nfc T l = l := by
  rw [← join_splitOn dot n, nfc_join hg hd] at hnfc
  exact eq_of_join_map_eq (fun l => not_mem_of_mem_splitOn) hnfc

/-! ### The domain name -/

section Domain

variable {ls : List U32String} {F : U32String → U32String} {A : U32String → Bytes}

/-- `to_unicode` on the ASCII forms. -/
theorem toUnicode_join (hls : ls ≠ []) (h : ∀ l ∈ ls, RoundTrips T (F l) (A l))
    (hdot : ∀ l ∈ ls, dotByte ∉ A l)
    (hlen : (join dotByte (ls.map A)).length ≤ maxDomainInputBytes) :
    toUnicode T (join dotByte (ls.map A)) = encodeUtf8 (join dot (ls.map F)) := by
  have hsplit : (join dotByte (ls.map A)).splitOn dotByte = ls.map A := by
    apply splitOn_join (by simpa using hls)
    rintro a ha
    obtain ⟨l, hl, rfl⟩ := List.mem_map.mp ha
    exact hdot l hl
  have hencode : encodeUtf8 (join dot (ls.map F)) = join dotByte ((ls.map F).map encodeUtf8) :=
    flatMap_join (f := encodeChar) rfl _
  rw [toUnicode_eq hlen, hsplit, hencode, List.map_map, List.map_map]
  exact congrArg (join dotByte) (List.map_congr_left fun l hl => (h l hl).shown)

/-- The Unicode forms, joined, are mapped to themselves. -/
theorem mapAndNormalize_join (hg : GeneratorShape T) (hin : AsciiInert T) (hd : DotApart T)
    (hvalid : idnaLookup T dot = idnaValid) (hls : ls ≠ [])
    (h : ∀ l ∈ ls, RoundTrips T (F l) (A l)) :
    map T (join dot (ls.map F)) = some (join dot (ls.map F)) ∧
      mapAndNormalize T (join dot (ls.map F)) = some (join dot (ls.map F)) := by
  have hmapped := fun l hl => map_eq_some.mp (h l hl).mapped
  have hmap : map T (join dot (ls.map F)) = some (join dot (ls.map F)) := by
    obtain ⟨l, hl⟩ := List.exists_mem_of_ne_nil ls hls
    refine map_eq_some.mpr ⟨(hmapped l hl).1, fun c hc => ?_, ?_⟩
    · rcases mem_join hc with rfl | ⟨v, hv, hc⟩
      · rw [image_of_valid hvalid]
        rfl
      · obtain ⟨l, hl, rfl⟩ := List.mem_map.mp hv
        exact (hmapped l hl).2.1 c hc
    · rw [map_join hvalid, List.map_map]
      exact congrArg (join dot) (List.map_congr_left fun l hl => (hmapped l hl).2.2)
  refine ⟨hmap, ?_⟩
  rw [mapAndNormalize_eq hg hin, hmap, Option.map_some, nfc_join hg hd, List.map_map]
  exact congrArg (some ∘ join dot) (List.map_congr_left fun l hl => (h l hl).normal)

/-- `to_ascii` on the Unicode forms, if they are all ASCII: every label has
been copied. -/
theorem toAscii_join_of_ascii (hupper : ∀ c, ∀ d ∈ imageOf T c, ¬ IsUpper d)
    (hmap : map T (join dot (ls.map F)) = some (join dot (ls.map F)))
    (h : ∀ l ∈ ls, RoundTrips T (F l) (A l)) (hlt : ∀ c ∈ join dot (ls.map F), c < 0x80) :
    toAscii T (encodeUtf8 (join dot (ls.map F))) = (true, join dotByte (ls.map A)) := by
  have hsc : ∀ c ∈ join dot (ls.map F), IsScalar c := by
    intro c hc
    have := hlt c hc
    exact ⟨by omega, by omega⟩
  have hcopied : ∀ l ∈ ls, (F l).map toChar = A l := by
    intro l hl
    have hlabel : isAscii (F l) = true := by
      apply isAscii_iff.mpr
      exact fun c hc => hlt c (mem_join_of_mem (List.mem_map_of_mem hl) hc)
    have hback := (h l hl).back
    rw [asciiLabel_of_ascii hlabel (h l hl).not_ace] at hback
    exact Option.some.inj hback
  have hlower : ∀ c ∈ join dot (ls.map F), toLower (toChar c) = toChar c := by
    intro c hc
    apply toLower_of_not_isUpper
    rw [toNat_toChar ((hlt c hc).trans (by decide))]
    -- the string is made of images
    rw [(map_eq_some.mp hmap).2.2] at hc
    obtain ⟨d, -, hc⟩ := List.mem_flatMap.mp hc
    exact hupper d c hc
  have hascii : isAsciiBytes (encodeUtf8 (join dot (ls.map F))) = true := by
    rw [isAsciiBytes_encodeUtf8 hsc]
    exact isAscii_iff.mpr hlt
  rw [toAscii_of_ascii hascii, encodeUtf8_of_ascii hlt, List.map_map]
  apply congrArg (Prod.mk true)
  calc (join dot (ls.map F)).map (toLower ∘ toChar)
      = (join dot (ls.map F)).map toChar := List.map_congr_left hlower
    _ = join dotByte ((ls.map F).map (List.map toChar)) := Labels.map_join toChar _
    _ = join dotByte (ls.map A) := by
        rw [List.map_map]
        exact congrArg (join dotByte) (List.map_congr_left hcopied)

/-- **`to_ascii` on the Unicode forms** of labels that make the round trip. -/
theorem toAscii_join (hg : GeneratorShape T) (hin : AsciiInert T) (hd : DotApart T)
    (hvalid : idnaLookup T dot = idnaValid) (hupper : ∀ c, ∀ d ∈ imageOf T c, ¬ IsUpper d)
    (hls : ls ≠ []) (h : ∀ l ∈ ls, RoundTrips T (F l) (A l))
    (hlen : (encodeUtf8 (join dot (ls.map F))).length ≤ maxDomainInputBytes) :
    toAscii T (encodeUtf8 (join dot (ls.map F))) = (true, join dotByte (ls.map A)) := by
  obtain ⟨hmap, hstable⟩ := mapAndNormalize_join hg hin hd hvalid hls h
  by_cases hascii : isAscii (join dot (ls.map F)) = true
  · -- what came through the pipeline goes through the ASCII path now
    exact toAscii_join_of_ascii hupper hmap h (isAscii_iff.mp hascii)
  · rw [Bool.not_eq_true] at hascii
    have hsc : ∀ c ∈ join dot (ls.map F), IsScalar c := by
      intro c hc
      rcases mem_join hc with rfl | ⟨v, hv, hc⟩
      · decide
      · obtain ⟨l, hl, rfl⟩ := List.mem_map.mp hv
        exact (h l hl).scalar c hc
    have hx : isAsciiBytes (encodeUtf8 (join dot (ls.map F))) = false := by
      rw [isAsciiBytes_encodeUtf8 hsc, hascii]
    have hne : join dot (ls.map F) ≠ [] := by
      intro hnil
      rw [hnil] at hascii
      cases hascii
    have hsplit : (join dot (ls.map F)).splitOn dot = ls.map F := by
      apply splitOn_join (by simpa using hls)
      intro v hv
      obtain ⟨l, hl, rfl⟩ := List.mem_map.mp hv
      exact (h l hl).no_dot
    have hprepare : prepare T (encodeUtf8 (join dot (ls.map F))) = some (join dot (ls.map F)) := by
      rw [prepare, readInput_eq_some.mpr ⟨hne, hsc, rfl⟩]
      exact hstable
    refine (toAscii_eq_true hx).mpr ⟨hlen, _, hprepare, ?_, ?_⟩
    · rw [hsplit, List.forall_mem_map]
      intro l hl
      rw [(h l hl).back]
      rfl
    · rw [hsplit, List.map_map]
      exact congrArg (join dotByte)
        (List.map_congr_left fun l hl => (asciiLabelOf_of_eq (h l hl).back).symm)

end Domain

/-! ### The round trip -/

/-- **Pipeline round trip**: what `to_unicode` shows of a result of `to_ascii`
is taken back to that result, as long as it is not too long to be read and the
labels are short enough for Punycode. -/
theorem toAscii_toUnicode (hg : GeneratorShape T) (hin : AsciiInert T)
    (hfirst : ∀ b c, ¬ IsPair T dot b c) (hvalid : idnaLookup T dot = idnaValid)
    (hupper : ∀ c, ∀ d ∈ imageOf T c, ¬ IsUpper d) (hsur : SurrogatesDisallowed T)
    (hstable : MapStable T) (hx : isAsciiBytes x = false) (hy : toAscii T x = (true, y))
    (hlimit : (toUnicode T y).length ≤ maxDomainInputBytes)
    (hshort : ∀ n, prepare T x = some n → ∀ l ∈ n.splitOn dot, l.length ≤ 1900) :
    toAscii T (toUnicode T y) = (true, y) := by
  have hd := hin.dotApart hfirst
  obtain ⟨-, n, hn, hsome, rfl⟩ := (toAscii_eq_true hx).mp hy
  obtain ⟨s, -, hprep⟩ := Option.bind_eq_some_iff.mp hn
  have hmap := hstable s n hprep
  have hnfc : nfc T n = n := by
    rw [mapAndNormalize_eq hg hin] at hprep
    obtain ⟨m, -, rfl⟩ := Option.map_eq_some_iff.mp hprep
    exact nfc_nfc hg m
  have hform : ∀ l ∈ n.splitOn dot, asciiLabel T l = some (asciiLabelOf T l) := by
    intro l hl
    obtain ⟨a, ha⟩ := Option.isSome_iff_exists.mp (hsome l hl)
    rw [asciiLabelOf_of_eq ha, ha]
  have hround : ∀ l ∈ n.splitOn dot, RoundTrips T (decodedLabel l) (asciiLabelOf T l) :=
    fun l hl => roundTrips_decodedLabel hg hsur (hshort n hn l hl) (not_mem_of_mem_splitOn hl)
      (map_label hvalid hmap l hl) (nfc_label hg hd hnfc l hl) (hform l hl)
  have hdot : ∀ l ∈ n.splitOn dot, dotByte ∉ asciiLabelOf T l :=
    fun l hl => dotByte_not_mem_asciiLabel (not_mem_of_mem_splitOn hl) (hform l hl)
  have hne : n.splitOn dot ≠ [] := by simp
  by_cases hlen : (join dotByte ((n.splitOn dot).map (asciiLabelOf T))).length ≤ maxDomainInputBytes
  · rw [toUnicode_join hne hround hdot hlen] at hlimit ⊢
    exact toAscii_join hg hin hd hvalid hupper hne hround hlimit
  · -- a result over the limit is shown as it is
    rw [toUnicode, toUnicodeInto, if_pos (not_le.mp hlen)] at hlimit
    exact absurd hlimit hlen

/-- `É..xn--9ca.a` in the small tables. -/
theorem toAscii_toUnicode_small :
    toAscii smallTables (toUnicode smallTables
        [0x78, 0x6E, 0x2D, 0x2D, 0x39, 0x63, 0x61, 0x2E, 0x2E, 0x78, 0x6E, 0x2D, 0x2D, 0x39, 0x63,
          0x61, 0x2E, 0x61])
      = (true, [0x78, 0x6E, 0x2D, 0x2D, 0x39, 0x63, 0x61, 0x2E, 0x2E, 0x78, 0x6E, 0x2D, 0x2D, 0x39,
          0x63, 0x61, 0x2E, 0x61]) := by
  have hprepare : prepare smallTables
      [0x45, 0xCC, 0x81, 0x2E, 0x2E, 0x78, 0x6E, 0x2D, 0x2D, 0x39, 0x63, 0x61, 0x2E, 0x61]
        = some [0xE9, 0x2E, 0x2E, 0x78, 0x6E, 0x2D, 0x2D, 0x39, 0x63, 0x61, 0x2E, 0x61] := by
    decide +kernel
  refine toAscii_toUnicode small_generatorShape small_asciiRows.toAsciiInert
    small_dotApart.not_first (by decide +kernel) small_not_isUpper_imageOf
    small_closed.surrogatesDisallowed small_closed.mapStable (by decide) (by decide +kernel)
    (by decide +kernel) ?_ (x :=
      [0x45, 0xCC, 0x81, 0x2E, 0x2E, 0x78, 0x6E, 0x2D, 0x2D, 0x39, 0x63, 0x61, 0x2E, 0x61])
  intro n hn l hl
  rw [hprepare] at hn
  obtain rfl := Option.some.inj hn
  exact (length_le_of_mem_splitOn hl).trans (by decide)

/-! ### What ASCII must not do -/

/-- The small tables, but upper case letters are valid. -/
def upperTables : Tables :=
  { smallTables with
    idnaStage2 := fun j => if 0x41 ≤ j ∧ j ≤ 0x5A then 0xFFFF else smallTables.idnaStage2 j }

theorem upper_image_of_lt : ∀ c < 0x600, image upperTables c =
    if SmallValid c ∨ IsUpper c then some [c] else none := by
  decide +kernel

theorem upper_closed : Closed upperTables fun c => SmallValid c ∨ IsUpper c where
  lt c h := h.elim SmallValid.lt fun h => h.2.trans_lt (by decide)
  image_self c h := by
    have hlt : c < 0x600 := h.elim SmallValid.lt fun h => h.2.trans_lt (by decide)
    rw [upper_image_of_lt c hlt, if_pos h]
  image_of_lt c hc i hi d hd := by
    rw [upper_image_of_lt c hc] at hi
    split at hi
    · obtain rfl := Option.some.inj hi
      rwa [List.mem_singleton.mp hd]
    · cases hi
  lookup_of_ge c := by
    refine idnaLookup_of_ge (T := upperTables) small_stage1 (fun j hj => ?_) rfl
    show (if _ then _ else _) = _
    rw [if_neg (by omega)]
    exact small_stage2 j hj
  ignored := rfl
  stored c d hd := Or.inl (small_closed.stored c d hd)
  pair a b c hp := Or.inl (small_closed.pair a b c hp)

/-- Normalization is that of the small tables. -/
theorem upper_eq_small (a b c : ℕ) : getCcc upperTables c = getCcc smallTables c ∧
    storedDecomp upperTables c = storedDecomp smallTables c ∧
    (IsPair upperTables a b c ↔ IsPair smallTables a b c) := ⟨rfl, rfl, Iff.rfl⟩

theorem upper_dotApart : DotApart upperTables where
  ccc := (upper_eq_small 0 0 dot).1.trans small_dotApart.ccc
  stored := (upper_eq_small 0 0 dot).2.1.trans small_dotApart.stored
  not_first b c h := small_dotApart.not_first b c ((upper_eq_small dot b c).2.2.mp h)
  not_second a c h := small_dotApart.not_second a c ((upper_eq_small a dot c).2.2.mp h)

theorem upper_generatorShape : GeneratorShape upperTables where
  hangul := ⟨small_hangulApart.ccc, small_hangulApart.stored, small_hangulApart.not_mem,
    small_hangulApart.not_pair⟩
  full := small_decompositionsFull
  ordered := small_decompositionsOrdered
  starters := small_pairsOfStarters
  decompose := small_pairsDecompose

theorem pair_closed : Closed pairTables SmallValid where
  lt := small_closed.lt
  image_self := small_closed.image_self
  image_of_lt := small_closed.image_of_lt
  lookup_of_ge := small_closed.lookup_of_ge
  ignored := rfl
  stored c d hd := by
    rw [pair_storedDecomp] at hd
    split at hd
    · rcases List.mem_pair.mp hd with rfl | rfl
      · decide
      · decide
    · cases hd
  pair a b c hp := by
    rw [(pair_isPair hp).2.2]
    decide

theorem pair_dotApart : DotApart pairTables where
  ccc := (pair_getCcc dot).trans small_dotApart.ccc
  stored := by
    rw [pair_storedDecomp]
    rfl
  not_first b c h := absurd (pair_isPair h).1 (by decide)
  not_second a c h := absurd (pair_isPair h).2.1 (by decide)

/-- **Neither assumption on ASCII can be left out.**  If upper case letters are
valid, `A` behind an ignored character is kept, and lowered the second time; if
`e` composes with `x`, `ex` behind one is kept, and composed the second time,
when another label is not in ASCII. -/
theorem toAscii_toUnicode_ne :
    ((GeneratorShape upperTables ∧ DotApart upperTables ∧ idnaLookup upperTables dot = idnaValid ∧
        SurrogatesDisallowed upperTables ∧ MapStable upperTables ∧ AsciiInert upperTables) ∧
      prepare upperTables [0xF3, 0xA0, 0x84, 0x80, 0x41] = some [0x41] ∧
      toAscii upperTables [0xF3, 0xA0, 0x84, 0x80, 0x41] = (true, [0x41]) ∧
      toUnicode upperTables [0x41] = [0x41] ∧
      toAscii upperTables [0x41] = (true, [0x61])) ∧
    (GeneratorShape pairTables ∧ DotApart pairTables ∧ idnaLookup pairTables dot = idnaValid ∧
        SurrogatesDisallowed pairTables ∧ MapStable pairTables ∧
        ∀ c, ∀ d ∈ imageOf pairTables c, ¬ IsUpper d) ∧
      prepare pairTables [0xF3, 0xA0, 0x84, 0x80, 0x78, 0x6E, 0x2D, 0x2D, 0x39, 0x63, 0x61, 0x2E,
          0x65, 0x78]
        = some [0x78, 0x6E, 0x2D, 0x2D, 0x39, 0x63, 0x61, 0x2E, 0x65, 0x78] ∧
      toAscii pairTables [0xF3, 0xA0, 0x84, 0x80, 0x78, 0x6E, 0x2D, 0x2D, 0x39, 0x63, 0x61, 0x2E,
          0x65, 0x78]
        = (true, [0x78, 0x6E, 0x2D, 0x2D, 0x39, 0x63, 0x61, 0x2E, 0x65, 0x78]) ∧
      toUnicode pairTables [0x78, 0x6E, 0x2D, 0x2D, 0x39, 0x63, 0x61, 0x2E, 0x65, 0x78]
        = [0xC3, 0xA9, 0x2E, 0x65, 0x78] ∧
      toAscii pairTables [0xC3, 0xA9, 0x2E, 0x65, 0x78]
        = (true, [0x78, 0x6E, 0x2D, 0x2D, 0x39, 0x63, 0x61, 0x2E, 0x78, 0x6E, 0x2D, 0x2D, 0x39,
            0x63, 0x61]) := by
  refine ⟨⟨⟨upper_generatorShape, upper_dotApart, by decide +kernel,
      upper_closed.surrogatesDisallowed, upper_closed.mapStable, ?_⟩, by decide +kernel,
      by decide +kernel, by decide +kernel, by decide +kernel⟩,
    ⟨pair_generatorShape, pair_dotApart, by decide +kernel, pair_closed.surrogatesDisallowed,
      pair_closed.mapStable, small_not_isUpper_imageOf⟩, by decide +kernel, by decide +kernel,
    by decide +kernel, by decide +kernel⟩
  exact ⟨small_asciiRows.ccc, small_asciiRows.stored, small_asciiRows.not_second⟩

end AdaIdna
