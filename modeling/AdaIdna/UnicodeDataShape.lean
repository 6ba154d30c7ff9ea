/-
AdaIdna/UnicodeDataShape.lean

The generated normalization tables have the shape that normalization needs.

The results about `normalize` take what they need of the tables as assumptions
(`GeneratorShape`, `DotApart`).  Here these are derived from Unicode data: if
the data is what the Unicode Standard promises (`UnicodeData.Standard`) and
unicode_data_table.py builds tables from it, then the tables that the C++ code
reads have that shape.

`canonicalMapping` is the decomposition mapping of the standard, with the
algorithmic one of Hangul syllables; a syllable with a trailing consonant maps
to the syllable without it and the consonant.  What the code calls the full
decomposition of a character is what these mappings lead to
(`expands_fullDecomp`), and everything else follows from that.

Main result: `exists_tables_of_standard`.
-/
import AdaIdna.UnicodeDataMeaning
import AdaIdna.MappingShape
import AdaIdna.Lib.StringEquivalence

namespace AdaIdna

namespace UnicodeDataTable

open CanonicalOrder StringEquivalence Cluster

/-! ### Mappings -/

/-- The canonical mapping of a Hangul syllable. -/
def hangulMapping (c : ℕ) : U32String :=
  let tIndex := (c - AdaIdna.hangulSbase) % hangulTcount
  if tIndex ≠ 0 then [c - tIndex, hangulTbase + tIndex] else hangulDecomp c

/-- The canonical mapping of a character. -/
def canonicalMapping (ucd : UnicodeData) (c : ℕ) : Option U32String :=
  if isHangulS c then some (hangulMapping c) else ucd.canonical.lookup c

/-- What the Unicode Standard promises of its data: mappings and classes are
about code points, no canonical mapping has to do with Hangul, and full
decompositions are in canonical order. -/
structure UnicodeData.Standard (ucd : UnicodeData) : Prop extends ucd.WellFormed where
  ccc_lt : ∀ e ∈ ucd.ccc, e.1 < codeSpace
  ccc_hangul : ∀ c, isHangulS c ∨ isJamo c → cccOf ucd c = 0
  not_jamo : ∀ e ∈ ucd.canonical, ¬ isJamo e.1
  mapping_lt : ∀ e ∈ ucd.canonical, ∀ d ∈ e.2, d < codeSpace
  mapping_not_hangul : ∀ e ∈ ucd.canonical, ∀ d ∈ e.2, ¬ (isHangulS d ∨ isJamo d)
  ordered : ∀ cp s, ucd.canonical.lookup cp ≠ none → IsFullDecomposition ucd cp s →
    Ordered (cccOf ucd) s

/-- ASCII takes no part in normalization, except as the first character of a
pair, and the separator not even there. -/
structure UnicodeData.AsciiApart (ucd : UnicodeData) : Prop where
  ccc : ∀ c < 0x80, cccOf ucd c = 0
  lookup : ∀ c < 0x80, ucd.canonical.lookup c = none
  second : ∀ e ∈ ucd.canonical, ∀ a b, e.2 = [a, b] → 0x80 ≤ b
  dot : ∀ e ∈ ucd.canonical, dot ∉ e.2

variable {ucd : UnicodeData} {exclusions : Finset ℕ} {limit a b c l v t : ℕ} {m s : U32String}

theorem canonicalMapping_of_hangul (h : isHangulS c) :
    canonicalMapping ucd c = some (hangulMapping c) := if_pos h

theorem canonicalMapping_of_not_hangul (h : ¬ isHangulS c) :
    canonicalMapping ucd c = ucd.canonical.lookup c := if_neg h

theorem UnicodeData.WellFormed.mem (hw : ucd.WellFormed) (h : ucd.canonical.lookup c = some m) :
    (c, m) ∈ ucd.canonical := (lookup_eq_some_iff hw.nodup).mp h

/-- Jamo have no mapping. -/
theorem UnicodeData.Standard.canonicalMapping_jamo (hu : ucd.Standard) (h : isJamo c) :
    canonicalMapping ucd c = none := by
  rw [canonicalMapping_of_not_hangul (not_isHangulS_of_isJamo h)]
  rcases hm : ucd.canonical.lookup c with - | m
  · rfl
  · exact absurd h (hu.not_jamo _ (hu.mem hm))

/-! ### Hangul -/

theorem syllable_sub (hl : isHangulL l) (hv : isHangulV v) :
    isHangulS (syllable l v) ∧ (syllable l v - AdaIdna.hangulSbase) % hangulTcount = 0 := by
  obtain ⟨hl, hl'⟩ := hl
  obtain ⟨hv, hv'⟩ := hv
  obtain ⟨i, rfl⟩ := Nat.exists_eq_add_of_le hl
  obtain ⟨j, rfl⟩ := Nat.exists_eq_add_of_le hv
  have hi : i < 19 := Nat.lt_of_add_lt_add_left hl'
  have hj : j < 21 := Nat.lt_of_add_lt_add_left hv'
  have hscount : hangulScount = 11172 := rfl
  rw [syllable, Nat.add_sub_cancel_left, Nat.add_sub_cancel_left, Nat.add_sub_cancel_left]
  refine ⟨⟨Nat.le_add_right _ _, Nat.add_lt_add_left ?_ _⟩, Nat.mul_mod_left _ _⟩
  show (i * 21 + j) * 28 < 11172
  omega

theorem hangulMapping_syllable (hl : isHangulL l) (hv : isHangulV v) :
    hangulMapping (syllable l v) = [l, v] := by
  rw [hangulMapping, (syllable_sub hl hv).2]
  exact hangulDecomp_syllable hl hv

theorem hangulMapping_trailing (hl : isHangulL l) (hv : isHangulV v) (ht : isHangulT t) :
    hangulMapping (syllable l v + (t - hangulTbase)) = [syllable l v, t] := by
  obtain ⟨⟨hle, -⟩, hmod⟩ := syllable_sub hl hv
  obtain ⟨ht, ht'⟩ := ht
  obtain ⟨j, rfl⟩ := Nat.exists_eq_add_of_lt ht
  have hj : j + 1 < hangulTcount := by omega
  have hindex : (syllable l v + (hangulTbase + j + 1 - hangulTbase) - AdaIdna.hangulSbase)
      % hangulTcount = j + 1 := by
    rw [show hangulTbase + j + 1 - hangulTbase = j + 1 by omega, Nat.sub_add_comm hle,
      Nat.add_mod, hmod, Nat.zero_add, Nat.mod_mod, Nat.mod_eq_of_lt hj]
  rw [hangulMapping, hindex, if_pos (Nat.succ_ne_zero j),
    show hangulTbase + j + 1 - hangulTbase = j + 1 by omega, Nat.add_sub_cancel]
  rfl

/-- Symbols without a rule expand to themselves. -/
theorem expandAll_of_normal {rule : ℕ → Option U32String} (h : Replacement.Normal rule s) :
    Replacement.expandAll rule 1 s = some s := by
  induction s with
  | nil => rfl
  | cons a s ih =>
    obtain ⟨ha, hs⟩ := List.forall_mem_cons.mp h
    exact Replacement.expandAll_cons_eq_some.mpr
      ⟨[a], s, Replacement.expand_of_none ha, ih hs, rfl⟩

theorem expand_hangul (hu : ucd.Standard) (h : isHangulS c) :
    Replacement.expand (canonicalMapping ucd) 3 c = some (hangulDecomp c) := by
  have hlv : ∀ {l v}, isHangulL l → isHangulV v →
      Replacement.expand (canonicalMapping ucd) 2 (syllable l v) = some [l, v] := by
    intro l v hl hv
    rw [Replacement.expand_of_rule (canonicalMapping_of_hangul (syllable_sub hl hv).1),
      hangulMapping_syllable hl hv]
    refine expandAll_of_normal fun d hd => hu.canonicalMapping_jamo ?_
    rcases List.mem_pair.mp hd with rfl | rfl
    · exact .inl hl
    · exact .inr (.inl hv)
  obtain ⟨l, v, hl, hv, ⟨hdecomp, hc⟩ | ⟨t, ht, hdecomp, hc⟩⟩ := hangulDecomp_cases h
  · rw [hdecomp, hc]
    exact Replacement.expand_mono (hlv hl hv) (Nat.le_succ 2)
  · rw [hdecomp, Replacement.expand_of_rule (canonicalMapping_of_hangul h), hc,
      hangulMapping_trailing hl hv ht]
    have htnone : canonicalMapping ucd t = none := hu.canonicalMapping_jamo (.inr (.inr ht))
    have htrailing : Replacement.expand (canonicalMapping ucd) 2 t = some [t] :=
      Replacement.expand_of_none htnone
    refine Replacement.expandAll_cons_eq_some.mpr ⟨[l, v], [t], hlv hl hv, ?_, rfl⟩
    exact Replacement.expandAll_cons_eq_some.mpr
      ⟨[t], [], htrailing, Replacement.expandAll_nil 2, rfl⟩

/-! ### What mappings lead to -/

/-- Expanding leads from one symbol of a kind to symbols of that kind. -/
theorem forall_mem_expand {rule : ℕ → Option U32String} {P : ℕ → Prop} {depth : ℕ}
    (hrule : ∀ a w, rule a = some w → ∀ b ∈ w, P b) (ha : rule a = none → P a)
    (h : Replacement.expand rule depth a = some s) : ∀ d ∈ s, P d := by
  induction depth generalizing a s with
  | zero => cases h
  | succ depth ih =>
    rcases hra : rule a with - | w
    · rw [Replacement.expand_of_none hra] at h
      cases h
      exact List.forall_mem_singleton.mpr (ha hra)
    · rw [Replacement.expand_of_rule hra] at h
      have hw : (∀ b ∈ w, P b) → ∀ d ∈ s, P d := by
        refine Replacement.expandAll_imp (fun w s => (∀ b ∈ w, P b) → ∀ d ∈ s, P d)
          (fun _ => nofun) ?_ h
        intro b p w q hp hq hbw
        obtain ⟨hb, hw⟩ := List.forall_mem_cons.mp hbw
        exact List.forall_mem_append.mpr ⟨ih (fun _ => hb) hp, hq hw⟩
      exact hw (hrule a w hra)

/-- The mappings of the data say nothing about Hangul, so its syllables make no
difference where they do not occur. -/
theorem expand_canonicalMapping (hu : ucd.Standard) {depth : ℕ} (hc : ¬ isHangulS c)
    (h : Replacement.expand (ucd.canonical.lookup ·) depth c = some s) :
    Replacement.expand (canonicalMapping ucd) depth c = some s := by
  induction depth generalizing c s with
  | zero => cases h
  | succ depth ih =>
    have hlookup : canonicalMapping ucd c = ucd.canonical.lookup c :=
      canonicalMapping_of_not_hangul hc
    rcases hm : ucd.canonical.lookup c with - | w
    · rw [Replacement.expand_of_none hm] at h
      rw [Replacement.expand_of_none (hlookup.trans hm), h]
    · rw [Replacement.expand_of_rule hm] at h
      rw [Replacement.expand_of_rule (hlookup.trans hm)]
      have hw : (∀ b ∈ w, ¬ isHangulS b) →
          Replacement.expandAll (canonicalMapping ucd) depth w = some s := by
        refine Replacement.expandAll_imp (fun w s => (∀ b ∈ w, ¬ isHangulS b) →
          Replacement.expandAll (canonicalMapping ucd) depth w = some s) (fun _ => rfl) ?_ h
        intro b p w q hp hq hbw
        obtain ⟨hb, hw⟩ := List.forall_mem_cons.mp hbw
        exact Replacement.expandAll_cons_eq_some.mpr ⟨p, q, ih hb hp, hq hw, rfl⟩
      exact hw fun b hb hs => hu.mapping_not_hangul _ (hu.mem hm) b hb (.inl hs)

/-! ### The tables -/

variable {T : Tables} {d p : Sections} {k : List ℕ × List ℕ}

theorem cccOf_of_not_mem (hc : ∀ e ∈ ucd.ccc, e.1 ≠ c) : cccOf ucd c = 0 := by
  have hnone : ucd.ccc.lookup c = none :=
    List.lookup_eq_none_iff.mpr fun e he => by simpa using (hc e he).symm
  rw [cccOf, hnone]
  rfl

/-- The class of any value, in the code space or not. -/
theorem getCcc_eq_cccOf_of_lt (hlt : ∀ e ∈ ucd.ccc, e.1 < codeSpace)
    (hk : buildCcc ucd = some k) (h : Holds T.toTableData d k p) (c : ℕ) :
    getCcc T c = cccOf ucd c := by
  by_cases hc : c < codeSpace
  · exact getCcc_eq hk h hc
  · rw [cccOf_of_not_mem fun e he hec => hc (lt_of_eq_of_lt hec.symm (hlt e he)), getCcc,
      if_pos (not_lt.mp hc)]

section

variable (hu : ucd.Standard) (hd : buildDecomposition ucd limit = some d)
  (hk : buildCcc ucd = some k) (hp : buildComposition ucd exclusions = some p)
  (h : Holds T.toTableData d k p)

include hu

include hk h in
theorem getCcc_eq_cccOf (c : ℕ) : getCcc T c = cccOf ucd c :=
  getCcc_eq_cccOf_of_lt hu.ccc_lt hk h c

include hd h in
theorem storedDecomp_of_lookup (hm : ucd.canonical.lookup c = some m) :
    fullDecomposition ucd false limit c = some (storedDecomp T c) := by
  have hc : c < codeSpace := hu.lt _ (hu.mem hm)
  obtain ⟨r, hsome, -⟩ := of_buildDecomposition hd
  rw [storedDecomp_eq hu.toWellFormed hd h hc, if_neg (hm ▸ Option.some_ne_none m)]
  exact (storedOf_of_canonical hu.toWellFormed hm (hsome c hc)).1

include hd h in
theorem storedDecomp_of_lookup_none (hc : ¬ isHangulS c) (hm : ucd.canonical.lookup c = none) :
    storedDecomp T c = [] := by
  by_contra hne
  have hlt := lt_of_storedDecomp hc hne
  rw [storedDecomp_eq hu.toWellFormed hd h hlt, if_pos hm] at hne
  exact hne rfl

include hd h in
theorem storedDecomp_ne_nil (hm : ucd.canonical.lookup c = some m) : storedDecomp T c ≠ [] := by
  have hfull := storedDecomp_of_lookup hu hd h hm
  rw [fullDecomposition_eq, mappingOf_false] at hfull
  exact Replacement.ne_nil_of_expand (fun cp m hcp => hu.ne_nil _ (hu.mem hcp)) hfull

include hd h in
/-- **The full decomposition of a character is what its mappings lead to**, in
one table lookup or one formula. -/
theorem expands_fullDecomp : Expands (canonicalMapping ucd) (fullDecomp T) := by
  intro c
  by_cases hs : isHangulS c
  · rw [fullDecomp_of_hangul hs]
    exact ⟨3, expand_hangul hu hs⟩
  · rcases hm : ucd.canonical.lookup c with - | m
    · rw [fullDecomp_of_none hs (storedDecomp_of_lookup_none hu hd h hs hm)]
      exact ⟨1, Replacement.expand_of_none ((canonicalMapping_of_not_hangul hs).trans hm)⟩
    · rw [fullDecomp_of_stored hs (storedDecomp_ne_nil hu hd h hm)]
      have hfull := storedDecomp_of_lookup hu hd h hm
      rw [fullDecomposition_eq, mappingOf_false] at hfull
      exact ⟨limit, expand_canonicalMapping hu hs hfull⟩

/-! ### Their shape -/

include hd h in
/-- A stored decomposition holds code points that are not Hangul and have no
mapping. -/
theorem of_mem_storedDecomp {e : ℕ} (he : e ∈ storedDecomp T c) :
    e < codeSpace ∧ ¬ (isHangulS e ∨ isJamo e) ∧ ucd.canonical.lookup e = none := by
  by_cases hs : isHangulS c
  · rw [storedDecomp_eq_nil_iff.mpr (by rw [canonicalDecompLength, if_pos hs])] at he
    cases he
  rcases hm : ucd.canonical.lookup c with - | m
  · rw [storedDecomp_of_lookup_none hu hd h hs hm] at he
    cases he
  · have hfull := storedDecomp_of_lookup hu hd h hm
    rw [fullDecomposition_eq, mappingOf_false] at hfull
    have hkind := forall_mem_expand
      (P := fun e => e < codeSpace ∧ ¬ (isHangulS e ∨ isJamo e))
      (fun a w haw b hb =>
        ⟨hu.mapping_lt _ (hu.mem haw) b hb, hu.mapping_not_hangul _ (hu.mem haw) b hb⟩)
      (fun hnone => absurd hnone (hm ▸ Option.some_ne_none m)) hfull e he
    exact ⟨hkind.1, hkind.2, (Replacement.fullExpansion_of_expand hfull).2 e he⟩

include hd h in
theorem decompositionsFull : DecompositionsFull T := by
  intro c e he
  obtain ⟨-, hhangul, hnone⟩ := of_mem_storedDecomp hu hd h he
  exact storedDecomp_of_lookup_none hu hd h (fun hs => hhangul (.inl hs)) hnone

include hd hk h in
theorem decompositionsOrdered : DecompositionsOrdered T := by
  intro c
  have hkey : getCcc T = cccOf ucd := funext (getCcc_eq_cccOf hu hk h)
  by_cases hs : isHangulS c
  · rw [storedDecomp_eq_nil_iff.mpr (by rw [canonicalDecompLength, if_pos hs])]
    exact List.isChain_nil
  rcases hm : ucd.canonical.lookup c with - | m
  · rw [storedDecomp_of_lookup_none hu hd h hs hm]
    exact List.isChain_nil
  · have hfull := storedDecomp_of_lookup hu hd h hm
    rw [fullDecomposition_eq, mappingOf_false] at hfull
    rw [hkey]
    exact hu.ordered c _ (hm ▸ Option.some_ne_none m) (Replacement.fullExpansion_of_expand hfull)

include hp h in
/-- The pairs of the tables, as entries of the data. -/
theorem IsPair.lookup (hpair : IsPair T a b c) :
    ucd.canonical.lookup c = some [a, b] ∧ cccOf ucd a = 0 ∧ cccOf ucd c = 0 := by
  obtain ⟨hmem, -, hc, ha⟩ := (isPair_iff hp h hpair.1).mp hpair
  exact ⟨(lookup_eq_some_iff hu.nodup).mpr hmem, ha, hc⟩

include hk hp h in
theorem pairsOfStarters : PairsOfStarters T := by
  intro a b c hpair
  obtain ⟨-, ha, hc⟩ := IsPair.lookup hu hp h hpair
  rw [getCcc_eq_cccOf hu hk h, getCcc_eq_cccOf hu hk h]
  exact ⟨ha, hc⟩

include hd hp h in
theorem pairsDecompose : PairsDecompose T := by
  intro a b c hpair
  obtain ⟨hm, -, -⟩ := IsPair.lookup hu hp h hpair
  have hs : ¬ isHangulS c := hu.not_hangul _ (hu.mem hm)
  have hrule := full_of_rule (expands_fullDecomp hu hd h)
    ((canonicalMapping_of_not_hangul hs).trans hm)
  rw [fullDecomp_of_stored hs (storedDecomp_ne_nil hu hd h hm)] at hrule
  rw [hrule]
  simp

include hd hk hp h in
theorem hangulApart : HangulApart T where
  ccc c hc := by rw [getCcc_eq_cccOf hu hk h, hu.ccc_hangul c hc]
  stored c hc := by
    refine storedDecomp_of_lookup_none hu hd h (not_isHangulS_of_isJamo hc) ?_
    rw [← canonicalMapping_of_not_hangul (not_isHangulS_of_isJamo hc)]
    exact hu.canonicalMapping_jamo hc
  not_mem c e he := (of_mem_storedDecomp hu hd h he).2.1
  not_pair a b c hpair := by
    obtain ⟨hm, -, -⟩ := IsPair.lookup hu hp h hpair
    have hmem := hu.mem hm
    refine ⟨hu.mapping_not_hangul _ hmem a (by simp), hu.mapping_not_hangul _ hmem b (by simp),
      ?_⟩
    rintro (hs | hj)
    · exact hu.not_hangul _ hmem hs
    · exact hu.not_jamo _ hmem hj

include hd hk hp h in
theorem generatorShape : GeneratorShape T :=
  ⟨hangulApart hu hd hk hp h, decompositionsFull hu hd h, decompositionsOrdered hu hd hk h,
    pairsOfStarters hu hk hp h, pairsDecompose hu hd hp h⟩

include hd hk hp h in
theorem dotApart (ha : ucd.AsciiApart) : DotApart T where
  ccc := by rw [getCcc_eq_cccOf hu hk h, ha.ccc dot (by decide)]
  stored := storedDecomp_of_lookup_none hu hd h (by decide) (ha.lookup dot (by decide))
  not_first b c hpair :=
    ha.dot _ (hu.mem (IsPair.lookup hu hp h hpair).1) (by simp)
  not_second a c hpair :=
    ha.dot _ (hu.mem (IsPair.lookup hu hp h hpair).1) (by simp)

include hd hk hp h in
theorem asciiInert (ha : ucd.AsciiApart) : AsciiInert T where
  ccc c hc := by rw [getCcc_eq_cccOf hu hk h, ha.ccc c hc]
  stored c hc :=
    storedDecomp_of_lookup_none hu hd h (not_isHangul_of_lt (by omega)).1 (ha.lookup c hc)
  not_second a b c hpair :=
    ha.second _ (hu.mem (IsPair.lookup hu hp h hpair).1) a b rfl

end

/-- **Generated tables have the shape that normalization relies on**, if the
data is standard: what the C++ code reads are tables with full decompositions
in canonical order, with pairs of starters that decompose as their composites
do, and with Hangul and ASCII out of the way. -/
theorem exists_tables_of_standard (hu : ucd.Standard) (ha : ucd.AsciiApart)
    (hdistinct : DistinctPairs ucd exclusions) {D : TableData}
    (hd : buildDecomposition ucd limit = some d) (hk : buildCcc ucd = some k)
    (hp : buildComposition ucd exclusions = some p) (h : Holds D d k p)
    (hlow : D.idnaLowRangeEnd ≤ codeSpace) (hhigh : D.idnaHighIgnoredEnd ≤ codeSpace)
    (hdir : ∀ i < D.dirTableCount, D.dirValue i < 24) :
    ∃ T : Tables, T.toTableData = D ∧ GeneratorShape T ∧ DotApart T ∧ AsciiInert T := by
  obtain ⟨T, rfl⟩ := exists_tables hu.toWellFormed hdistinct hd hp h hlow hhigh hdir
  exact ⟨T, rfl, generatorShape hu hd hk hp h, dotApart hu hd hk hp h ha,
    asciiInert hu hd hk hp h ha⟩

/-! ### A small example -/

theorem fullExpansion_fewData (hc : fewData.canonical.lookup c ≠ none) :
    IsFullDecomposition fewData c s ↔
      (fullDecomposition fewData false 3 c).getD [] = s := by
  obtain ⟨m, hm⟩ := Option.ne_none_iff_exists'.mp hc
  have hmem := wellFormed_fewData.mem hm
  have hsome : ∀ e ∈ fewData.canonical, (fullDecomposition fewData false 3 e.1).isSome := by
    decide
  obtain ⟨u, hu⟩ := Option.isSome_iff_exists.mp (hsome _ hmem)
  rw [hu, Option.getD_some]
  rw [fullDecomposition_eq, mappingOf_false] at hu
  exact Replacement.expand_eq_some_iff hu

theorem standard_fewData : fewData.Standard where
  toWellFormed := wellFormed_fewData
  ccc_lt := by decide
  ccc_hangul c hc := by
    apply cccOf_of_not_mem
    intro e he
    have hlt : e.1 < 0x1100 := (by decide : ∀ e ∈ fewData.ccc, e.1 < 0x1100) e he
    rintro rfl
    obtain ⟨hs, hl, hv, ht⟩ := not_isHangul_of_lt hlt
    exact hc.elim hs fun hj => hj.elim hl fun hj => hj.elim hv ht
  not_jamo e he := by
    have hlt : ∀ e ∈ fewData.canonical, e.1 < 0x1100 ∨ e.1 = 0x1E17 := by decide
    rcases hlt e he with hlt | heq
    · obtain ⟨-, hl, hv, ht⟩ := not_isHangul_of_lt hlt
      exact fun hj => hj.elim hl fun hj => hj.elim hv ht
    · rw [heq]
      simp [isJamo, isHangulL, isHangulV, isHangulT, hangulLbase, hangulLcount, hangulVbase,
        hangulVcount, hangulTbase, hangulTcount]
  mapping_lt := by decide
  mapping_not_hangul e he d hd := by
    have hlt : ∀ e ∈ fewData.canonical, ∀ d ∈ e.2, d < 0x1100 := by decide
    obtain ⟨hs, hl, hv, ht⟩ := not_isHangul_of_lt (hlt e he d hd)
    exact fun hj => hj.elim hs fun hj => hj.elim hl fun hj => hj.elim hv ht
  ordered c s hc hs := by
    obtain ⟨m, hm⟩ := Option.ne_none_iff_exists'.mp hc
    have hmem := wellFormed_fewData.mem hm
    rw [fullExpansion_fewData hc] at hs
    have hordered : ∀ e ∈ fewData.canonical,
        Ordered (cccOf fewData) ((fullDecomposition fewData false 3 e.1).getD []) := by
      intro e he
      simp only [fewData, List.mem_cons, List.not_mem_nil, or_false] at he
      rcases he with rfl | rfl | rfl
      · exact List.isChain_pair.mpr (.inr (by decide))
      · exact List.isChain_pair.mpr (.inr (by decide))
      · exact List.isChain_cons_cons.mpr
          ⟨.inr (by decide), List.isChain_pair.mpr (.inr (by decide))⟩
    rw [← hs]
    exact hordered _ hmem

theorem length_fullExpansion_fewData (hc : fewData.canonical.lookup c ≠ none)
    (h : IsFullDecomposition fewData c s) : s.length ≤ 3 := by
  obtain ⟨m, hm⟩ := Option.ne_none_iff_exists'.mp hc
  have hlength : ∀ e ∈ fewData.canonical,
      ((fullDecomposition fewData false 3 e.1).getD []).length ≤ 3 := by decide
  rw [← (fullExpansion_fewData hc).mp h]
  exact hlength _ (wellFormed_fewData.mem hm)

theorem asciiApart_fewData : fewData.AsciiApart where
  ccc c hc := by
    apply cccOf_of_not_mem
    intro e he hec
    have hle : ∀ e ∈ fewData.ccc, 0x80 ≤ e.1 := by decide
    have := hle e he
    omega
  lookup c hc := by
    refine List.lookup_eq_none_iff.mpr fun e he => ?_
    have hle : ∀ e ∈ fewData.canonical, 0x80 ≤ e.1 := by decide
    have := hle e he
    have hne : c ≠ e.1 := by omega
    simpa using hne
  second e he a b hab := by
    simp only [fewData, List.mem_cons, List.not_mem_nil, or_false] at he
    rcases he with rfl | rfl | rfl <;> cases hab <;> decide
  dot := by decide

theorem exists_tables_of_standard_few :
    ∃ T : Tables, fullDecomp T 0x1E17 = [0x65, 0x304, 0x301] ∧ GeneratorShape T ∧
      DotApart T ∧ AsciiInert T := by
  obtain ⟨d, k, p, hd, hk, hp⟩ := exists_build_fewData
  have hholds := holds_withGenerated smallTables.toTableData d k p
  obtain ⟨T, hT, hshape⟩ := exists_tables_of_standard standard_fewData asciiApart_fewData
    distinctPairs_fewData hd hk hp hholds smallTables.idnaLowRangeEnd_le
    smallTables.idnaHighIgnoredEnd_le smallTables.dirValue_lt
  rw [← hT] at hholds
  refine ⟨T, ?_, hshape⟩
  have hm : fewData.canonical.lookup 0x1E17 = some [0x113, 0x301] := rfl
  rw [fullDecomp_of_stored (by decide) (storedDecomp_ne_nil standard_fewData hd hholds hm)]
  exact (Option.some.inj (storedDecomp_of_lookup standard_fewData hd hholds hm)).symm

end UnicodeDataTable

end AdaIdna
