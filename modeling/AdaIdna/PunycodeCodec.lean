/-
AdaIdna/PunycodeCodec.lean

What the three Punycode functions are to each other.

* Encoding and then decoding is the identity on labels of up to 1900 code
  points, and on longer ones as far as the decoder's running index fits:
  the encoder bounds every delta, the decoder the index it leads to.
* Decoding and then encoding is the identity on everything the decoder
  accepts, so a label has one spelling.
* The checker accepts what the decoder accepts, and the strings that begin
  with a delimiter which no basic code point precedes.
-/
import AdaIdna.PunycodeWire

namespace AdaIdna

open InsertionCode

/-! ### Decoding what was encoded -/

/-- The running index stays an `int32_t` wherever a code point of `s` is
inserted. -/
def IndicesFit (s : U32String) : Prop :=
  ∀ A c B, s = A ++ c :: B → initialN ≤ c → insertionIndex initialN A c B ≤ int32Max

variable {s r : U32String} {p : Bytes}

theorem scalar_le {c : ℕ} (h : IsScalar c) : c ≤ int32Max :=
  h.1.trans (by decide)

theorem length_filter_add_deltas (h : ∀ c ∈ s, c ≤ 0x10FFFF) :
    (s.filter (· < initialN)).length + (deltas 0x10FFFF initialN s).length = s.length := by
  have := length_run (start initialN (s.filter (· < initialN))) (deltas 0x10FFFF initialN s)
  rw [run_deltas initialN h] at this
  exact this.symm

/-- The deltas of a string fit where all its indices do. -/
theorem IndicesFit.deltas_le (hsc : ∀ c ∈ s, IsScalar c) (h : IndicesFit s) :
    ∀ δ ∈ deltas 0x10FFFF initialN s, δ ≤ int32Max :=
  ((bounded_deltas_iff initialN fun c hc => (hsc c hc).1).mpr h).mem_le

/-- **The decoder on an encoded label.** -/
theorem punycodeToUtf32_encoded (hlen : s.length ≤ int32Max)
    (h : utf32ToPunycode s [] = some p) :
    punycodeToUtf32 p [] = some r ↔ IndicesFit s ∧ r = s ∧ isAcePrefix r = false := by
  obtain ⟨hsc, -, rfl⟩ := (utf32ToPunycode_eq_some hlen).mp h
  have htop : ∀ c ∈ s, c ≤ 0x10FFFF := fun c hc => (hsc c hc).1
  have hrun : (run (start initialN (s.filter (· < initialN))) (deltas 0x10FFFF initialN s)).out
      = s := run_deltas initialN htop
  have hfit : Fits (start initialN (s.filter (· < initialN))) (deltas 0x10FFFF initialN s)
      ↔ IndicesFit s := by
    rw [fits_iff_bounded (by rw [hrun]; exact fun c hc => scalar_le (hsc c hc))]
    exact bounded_deltas_iff initialN htop
  have hbasic : ∀ c ∈ s.filter (· < initialN), c < initialN :=
    fun c hc => by simpa using (List.mem_filter.mp hc).2
  rw [List.nil_append, punycodeToUtf32_wire hbasic
    (by rw [length_filter_add_deltas htop]; exact hlen), hrun, hfit]

/-- The index is at most one turn through the code space for every code point
there is, and the code points to the left. -/
theorem insertionIndex_le {A B : U32String} {c : ℕ} (hc : c ≤ 0x10FFFF) :
    insertionIndex initialN A c B
      ≤ (0x10FFFF - initialN) * (A.length + B.length + 1) + A.length := by
  have hplaced : (placed A B c).length ≤ A.length + B.length := by
    rw [placed, List.length_append]
    exact Nat.add_le_add (List.length_filter_le _ _) (List.length_filter_le _ _)
  have hmax : ∀ (l : U32String) (m : ℕ), m ≤ l.foldl max m := by
    intro l
    induction l with
    | nil => exact fun _ => le_rfl
    | cons x l ih => exact fun m => (le_max_left m x).trans (ih _)
  have hturns : c - (placed A B c).foldl max initialN ≤ 0x10FFFF - initialN :=
    tsub_le_tsub hc (hmax _ _)
  exact Nat.add_le_add (Nat.mul_le_mul hturns (by omega)) (List.length_filter_le _ _)

/-- Up to 1900 code points, no index overflows. -/
theorem indicesFit_of_length_le (hlen : s.length ≤ 1900) (hsc : ∀ c ∈ s, IsScalar c) :
    IndicesFit s := by
  rintro A c B rfl -
  have hle := insertionIndex_le (A := A) (B := B) (hsc c (by simp)).1
  rw [List.length_append, List.length_cons] at hlen
  have hturns : (0x10FFFF - initialN) * (A.length + B.length + 1)
      ≤ (0x10FFFF - initialN) * 1900 := Nat.mul_le_mul_left _ (by omega)
  have h31 : (0x10FFFF - initialN) * 1900 + 1899 ≤ int32Max := by decide
  omega

/-- Up to 1900 code points, encoding succeeds. -/
theorem exists_utf32ToPunycode (hlen : s.length ≤ 1900) (hsc : ∀ c ∈ s, IsScalar c) :
    ∃ p, utf32ToPunycode s [] = some p := by
  have h31 : (1900 : ℕ) < int32Max := by decide
  exact ⟨_, (utf32ToPunycode_eq_some (by omega)).mpr
    ⟨hsc, (indicesFit_of_length_le hlen hsc).deltas_le hsc, rfl⟩⟩

/-- **Decoding undoes encoding.** -/
theorem punycodeToUtf32_utf32ToPunycode (hlen : s.length ≤ 1900) (hsc : ∀ c ∈ s, IsScalar c)
    (hace : isAcePrefix s = false) :
    ∃ p, utf32ToPunycode s [] = some p ∧ punycodeToUtf32 p [] = some s := by
  have h31 : (1900 : ℕ) < int32Max := by decide
  obtain ⟨p, hp⟩ := exists_utf32ToPunycode hlen hsc
  refine ⟨p, hp, ?_⟩
  rw [punycodeToUtf32_encoded (by omega) hp]
  exact ⟨indicesFit_of_length_le hlen hsc, rfl, hace⟩

/-- `bücher`. -/
theorem punycodeToUtf32_utf32ToPunycode_buecher :
    ∃ p, utf32ToPunycode [0x62, 0xFC, 0x63, 0x68, 0x65, 0x72] [] = some p ∧
      punycodeToUtf32 p [] = some [0x62, 0xFC, 0x63, 0x68, 0x65, 0x72] :=
  punycodeToUtf32_utf32ToPunycode (by decide) (by decide) (by decide)

/-- **How far the decoder follows the encoder**: it accepts an encoded label
exactly when every insertion index of the label fits in 31 bits.  The encoder
tests the deltas only, each of which starts at the cursor, so its guard lets
more through. -/
theorem punycodeToUtf32_isSome_iff_indicesFit (hlen : s.length < int32Max)
    (hace : isAcePrefix s = false)
    (h : utf32ToPunycode s [] = some p) :
    (punycodeToUtf32 p []).isSome = true ↔ IndicesFit s := by
  rw [Option.isSome_iff_exists]
  simp only [punycodeToUtf32_encoded hlen.le h]
  constructor
  · rintro ⟨-, hfit, -⟩
    exact hfit
  · intro hfit
    exact ⟨s, hfit, rfl, hace⟩

/-- `übermäßig`. -/
theorem punycodeToUtf32_isSome_iff_indicesFit_uebermaessig :
    (punycodeToUtf32 [0x62, 0x65, 0x72, 0x6D, 0x69, 0x67, 0x2D, 0x65, 0x74, 0x61, 0x33, 0x62, 0x35,
        0x70] []).isSome = true ↔
      IndicesFit [0xFC, 0x62, 0x65, 0x72, 0x6D, 0xE4, 0xDF, 0x69, 0x67] :=
  punycodeToUtf32_isSome_iff_indicesFit (by decide) (by decide) (by decide +kernel)

/-- `k` letters, the first code point that is not ASCII, and a large one. -/
def lettersLabel (k c : ℕ) : U32String := List.replicate k 0x61 ++ [0x80, c]

theorem lettersLabel_lt (k : ℕ) : ∀ x ∈ List.replicate k 0x61, x < initialN := by
  intro x hx
  rw [List.eq_of_mem_replicate hx]
  decide

/-- The encoder counts for the large code point from behind the one before it. -/
theorem deltas_lettersLabel {k c : ℕ} (hc : 0x81 ≤ c) (hc' : c < 0x10FFFF) :
    deltas 0x10FFFF initialN (lettersLabel k c) = [k, (c - 0x81) * (k + 2) + k + 2] := by
  have hlt := lettersLabel_lt k
  have hlt' : ∀ m, initialN ≤ m → ∀ x ∈ List.replicate k 0x61, x < m :=
    fun m hm x hx => (hlt x hx).trans_le hm
  have hfilter : ((lettersLabel k c).filter (· < initialN)).length = k := by
    rw [lettersLabel, List.filter_append,
      List.filter_eq_self.mpr fun x hx => decide_eq_true (hlt x hx)]
    simp [initialN, show ¬ c < 128 by omega]
  have hlen : (lettersLabel k c).length = k + 2 := by simp [lettersLabel]
  have hfirst : least 0x10FFFF initialN (lettersLabel k c) = initialN := by
    rw [lettersLabel, least_append_of_lt hlt]
    simp [least, closer, initialN, show ¬ c < 128 by omega]
  have hsecond : least 0x10FFFF 0x81 (lettersLabel k c) = c := by
    rw [lettersLabel, least_append_of_lt (hlt' _ (by decide))]
    simp [least, closer, hc, hc']
  have hscan : scan initialN (lettersLabel k c) 0 = ([k], 0) := by
    rw [lettersLabel, scan_append_of_lt hlt, List.length_replicate, Nat.zero_add]
    simp [scan, initialN, show ¬ c < 128 by omega, show c ≠ 128 by omega]
  have hscan' : ∀ d, scan c (lettersLabel k c) d = ([d + k + 1], 0) := by
    intro d
    rw [lettersLabel, scan_append_of_lt (hlt' _ ((Nat.le_succ _).trans hc)), List.length_replicate]
    simp [scan, show 128 < c by omega]
  rw [deltas, hfilter, hlen, sweep, hlen, if_pos (by omega), hfirst]
  dsimp only
  rw [Nat.sub_self, Nat.zero_mul, hscan, sweep, hlen, if_pos (by simp),
    show initialN + 1 = 0x81 from rfl, hsecond]
  dsimp only
  rw [hscan']
  cases k <;> simp [sweep, hlen] <;> ring

/-- The decoder's index counts from the beginning of the label. -/
theorem insertionIndex_lettersLabel {k c : ℕ} (hc : 0x80 ≤ c) :
    insertionIndex initialN (List.replicate k 0x61 ++ [0x80]) c []
      = (c - 0x80) * (k + 2) + k + 1 := by
  have hle : ∀ x ∈ List.replicate k 0x61 ++ [0x80], x ≤ 0x80 := by
    intro x hx
    rcases List.mem_append.mp hx with hx | hx
    · exact (lettersLabel_lt k x hx).le
    · exact (List.mem_singleton.mp hx).le
  have hfilter : (List.replicate k 0x61 ++ [0x80]).filter (· ≤ c)
      = List.replicate k 0x61 ++ [0x80] :=
    List.filter_eq_self.mpr fun x hx => by simpa using (hle x hx).trans hc
  have hmax : (List.replicate k 0x61 ++ [0x80]).foldl max initialN = 0x80 :=
    foldl_max_eq hle le_rfl (Or.inl rfl)
  rw [insertionIndex, placed, hfilter, List.filter_nil, List.append_nil, hmax]
  simp
  ring

/-- **The encoder accepts a label that the decoder does not read back.** -/
theorem lettersLabel_not_read_back :
    (lettersLabel 1926 0x10FF70).length < int32Max ∧
      (∀ c ∈ lettersLabel 1926 0x10FF70, IsScalar c) ∧
      isAcePrefix (lettersLabel 1926 0x10FF70) = false ∧
      ∃ p, utf32ToPunycode (lettersLabel 1926 0x10FF70) [] = some p ∧
        punycodeToUtf32 p [] = none := by
  have hlen : (lettersLabel 1926 0x10FF70).length < int32Max := by
    rw [lettersLabel, List.length_append, List.length_replicate]
    decide
  have hsc : ∀ c ∈ lettersLabel 1926 0x10FF70, IsScalar c := by
    intro c hc
    rcases List.mem_append.mp hc with hc | hc
    · rw [List.eq_of_mem_replicate hc]
      decide
    · rcases List.mem_pair.mp hc with rfl | rfl <;> decide
  have hdeltas : ∀ δ ∈ deltas 0x10FFFF initialN (lettersLabel 1926 0x10FF70), δ ≤ int32Max := by
    rw [deltas_lettersLabel (by decide) (by decide)]
    decide
  have henc : utf32ToPunycode (lettersLabel 1926 0x10FF70) [] = some _ :=
    (utf32ToPunycode_eq_some hlen.le).mpr ⟨hsc, hdeltas, rfl⟩
  refine ⟨hlen, hsc, rfl, _, henc, Option.eq_none_iff_forall_ne_some.mpr fun r hr => ?_⟩
  -- the deltas fit, the index of the last insertion does not
  have hfit := ((punycodeToUtf32_encoded hlen.le henc).mp hr).1 (List.replicate 1926 0x61 ++ [0x80])
    0x10FF70 [] (by rw [lettersLabel, List.append_assoc]; rfl) (by decide)
  rw [insertionIndex_lettersLabel (by decide)] at hfit
  exact absurd hfit (by decide)

/-! ### Encoding what was decoded -/

/-- The spelling of what the decoder returns is the deltas of the result. -/
theorem eq_wire_of_punycodeToUtf32 (hlen : r.length ≤ int32Max)
    (h : punycodeToUtf32 p [] = some r) (htop : ∀ c ∈ r, c ≤ 0x10FFFF) :
    p = wire (r.filter (· < initialN)) (deltas 0x10FFFF initialN r) ∧
      ∀ δ ∈ deltas 0x10FFFF initialN r, δ ≤ int32Max := by
  obtain ⟨t, ds, ht, rfl, hr⟩ := exists_wire hlen h
  obtain ⟨hfit, hrun, -⟩ := (punycodeToUtf32_wire ht (by omega)).mp h
  obtain ⟨rfl, rfl⟩ := eq_deltas ht htop hrun.symm
  exact ⟨rfl, hfit.bounded.mem_le⟩

/-- A decoded label is encoded to what it was decoded from. -/
theorem utf32ToPunycode_decoded (hlen : r.length ≤ int32Max) (h : punycodeToUtf32 p [] = some r)
    (hsc : ∀ c ∈ r, IsScalar c) : utf32ToPunycode r [] = some p := by
  obtain ⟨hp, hds⟩ := eq_wire_of_punycodeToUtf32 hlen h fun c hc => (hsc c hc).1
  exact (utf32ToPunycode_eq_some hlen).mpr ⟨hsc, hds, hp⟩

/-- **Encoding undoes decoding**, so no two strings decode to one label. -/
theorem utf32ToPunycode_punycodeToUtf32 (hlen : p.length < int32Max)
    (h : punycodeToUtf32 p [] = some r) (hsc : ∀ c ∈ r, IsScalar c) :
    utf32ToPunycode r [] = some p ∧
      ∀ q : Bytes, q.length < int32Max → punycodeToUtf32 q [] = some r → q = p := by
  have hr := (length_le_of_punycodeToUtf32 h).trans hlen.le
  refine ⟨utf32ToPunycode_decoded hr h hsc, fun q _ hqr => ?_⟩
  have htop : ∀ c ∈ r, c ≤ 0x10FFFF := fun c hc => (hsc c hc).1
  exact (eq_wire_of_punycodeToUtf32 hr hqr htop).1.trans
    (eq_wire_of_punycodeToUtf32 hr h htop).1.symm

/-- `bcher-kva`. -/
theorem utf32ToPunycode_punycodeToUtf32_buecher :
    utf32ToPunycode [0x62, 0xFC, 0x63, 0x68, 0x65, 0x72] []
        = some [0x62, 0x63, 0x68, 0x65, 0x72, 0x2D, 0x6B, 0x76, 0x61] ∧
      ∀ q : Bytes, q.length < int32Max →
        punycodeToUtf32 q [] = some [0x62, 0xFC, 0x63, 0x68, 0x65, 0x72] →
          q = [0x62, 0x63, 0x68, 0x65, 0x72, 0x2D, 0x6B, 0x76, 0x61] :=
  utf32ToPunycode_punycodeToUtf32 (by decide) (by decide) (by decide)

/-! ### What the decoder can return -/

/-- **The decoder returns scalar values exactly on encoded labels.**  `written_out`
counts the decoded code points in an `int32_t`, so no result is longer than its
greatest value. -/
theorem isScalar_iff_exists_utf32ToPunycode (hlen : r.length ≤ int32Max)
    (h : punycodeToUtf32 p [] = some r) :
    (∀ c ∈ r, IsScalar c) ↔ ∃ s : U32String, s.length ≤ int32Max ∧
      utf32ToPunycode s [] = some p := by
  constructor
  · intro hsc
    exact ⟨r, hlen, utf32ToPunycode_decoded hlen h hsc⟩
  · rintro ⟨s, hs, henc⟩
    obtain ⟨-, rfl, -⟩ := (punycodeToUtf32_encoded hs henc).mp h
    exact ((utf32ToPunycode_eq_some hlen).mp henc).1

/-- `bcher-kva` once more. -/
theorem isScalar_iff_exists_utf32ToPunycode_buecher :
    (∀ c ∈ [0x62, 0xFC, 0x63, 0x68, 0x65, 0x72], IsScalar c) ↔
      ∃ s : U32String, s.length ≤ int32Max ∧
        utf32ToPunycode s [] = some [0x62, 0x63, 0x68, 0x65, 0x72, 0x2D, 0x6B, 0x76, 0x61] :=
  isScalar_iff_exists_utf32ToPunycode (by decide) (by decide)

/-- `ib9b` decodes to a surrogate: the encoder's range test has no counterpart
in the decoder. -/
theorem punycodeToUtf32_not_scalar :
    ¬ ∀ (p : Bytes) (r : U32String), punycodeToUtf32 p [] = some r → ∀ c ∈ r, IsScalar c := by
  intro h
  have hdec : punycodeToUtf32 [0x69, 0x62, 0x39, 0x62] [] = some [0xD800] := by decide
  have hsc := h _ _ hdec 0xD800 (List.mem_singleton.mpr rfl)
  exact absurd hsc (by decide)

/-! ### The checker -/

/-- Deltas alone decode to code points that are not basic. -/
theorem isAcePrefix_run_start (ds : List ℕ) :
    isAcePrefix (run (start initialN []) ds).out = false := by
  rw [Bool.eq_false_iff, Ne, isAcePrefix_iff]
  rintro ⟨rest, hrest⟩
  have hmem : (0x78 : ℕ) ∈ (run (start initialN []) ds).out := by
    rw [hrest]
    simp [acePrefix]
  rcases mem_or_le_of_mem_run hmem with h | h
  · cases h
  · exact absurd h (by decide)

/-- **Where the checker and the decoder agree**: everywhere but on a delimiter
followed by deltas that decode by themselves. -/
theorem verifyPunycode_iff_punycodeToUtf32 (hlen : p.length < int32Max) :
    (verifyPunycode p = true ↔ (punycodeToUtf32 p []).isSome = true) ↔
      ¬ ∃ ds, p = delimiter :: emit initialBias 0 true ds ∧ Fits (start initialN []) ds := by
  have hdeltas : ∀ {ds : List ℕ}, (emit initialBias 0 true ds).length ≤ int32Max →
      ((punycodeToUtf32 (emit initialBias 0 true ds) []).isSome = true ↔
        Fits (start initialN []) ds) := by
    intro ds hl
    have hds : ([] : U32String).length + ds.length ≤ int32Max := by
      simpa using (length_le_emit initialBias 0 true ds).trans hl
    rw [← wire_nil, Option.isSome_iff_exists]
    simp only [punycodeToUtf32_wire (by simp) hds]
    constructor
    · rintro ⟨-, hfit, -⟩
      exact hfit
    · intro hfit
      exact ⟨_, hfit, rfl, isAcePrefix_run_start ds⟩
  -- a delimiter that no basic code point precedes
  by_cases hfirst : findLastOf delimiter p = some 0
  · obtain ⟨hp, -, hq⟩ := findLastOf_eq_some hfirst
    rw [List.take_zero, List.nil_append] at hp
    generalize p.drop (0 + 1) = q at hp hq
    subst hp
    rw [List.length_cons] at hlen
    rw [verifyPunycode_delimiter hq, punycodeToUtf32_delimiter hq]
    simp only [Option.isSome_none, Bool.false_eq_true, iff_false, not_iff_not]
    constructor
    · -- what is behind the delimiter decodes, so it is a list of deltas
      intro h
      obtain ⟨r, hr⟩ := Option.isSome_iff_exists.mp h
      have hrlen := length_le_of_punycodeToUtf32 hr
      obtain ⟨t, ds, -, rfl, -⟩ := exists_wire (by omega) hr
      cases t with
      | nil => exact ⟨ds, rfl, (hdeltas (by rw [← wire_nil]; omega)).mp h⟩
      | cons a t => exact absurd (by rw [wire_cons]; simp) hq
    · rintro ⟨ds, hds, hfit⟩
      obtain rfl := (List.cons.inj hds).2
      exact (hdeltas (by omega)).mpr hfit
  · rw [verifyPunycode_eq hfirst]
    apply iff_of_true Iff.rfl
    rintro ⟨ds, rfl, -⟩
    exact hfirst (findLastOf_append (A := []) (delimiter_not_mem_emit _ _ _ _))

theorem verifyPunycode_iff_punycodeToUtf32_buecher :
    (verifyPunycode [0x62, 0x63, 0x68, 0x65, 0x72, 0x2D, 0x6B, 0x76, 0x61] = true ↔
        (punycodeToUtf32 [0x62, 0x63, 0x68, 0x65, 0x72, 0x2D, 0x6B, 0x76, 0x61] []).isSome
          = true) ↔
      ¬ ∃ ds, ([0x62, 0x63, 0x68, 0x65, 0x72, 0x2D, 0x6B, 0x76, 0x61] : Bytes)
          = delimiter :: emit initialBias 0 true ds ∧ Fits (start initialN []) ds :=
  verifyPunycode_iff_punycodeToUtf32 (by decide)

/-- `-dddddddd` passes the checker, and the decoder rejects it. -/
theorem verifyPunycode_leading_delimiter :
    ¬ (verifyPunycode [0x2D, 0x64, 0x64, 0x64, 0x64, 0x64, 0x64, 0x64, 0x64] = true ↔
      (punycodeToUtf32 [0x2D, 0x64, 0x64, 0x64, 0x64, 0x64, 0x64, 0x64, 0x64] []).isSome
        = true) := by
  decide +kernel

end AdaIdna
