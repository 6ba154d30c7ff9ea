/-
AdaIdna/UnicodeNfc.lean

`normalize` is NFC as the Unicode Standard defines it.

The standard defines canonical composition one character at a time
(`CanonicalComposition`); primary composites are those of the data and the
Hangul syllables.  `compose` of normalization.cpp keeps the group that it is
working on, in one of three ways, and looks no further back.  On a string in
canonical order this is the same (`compose_eq_compose`): what a group
cannot see is blocked, or composes with nothing that follows.

Over generated tables, then, `normalize` is the composition of the canonical
decomposition that the Unicode data defines (`normalize_eq_some_iff_isNfc`).
-/
import AdaIdna.Lib.CanonicalComposition
import AdaIdna.NfcRecognition
import AdaIdna.UnicodeEquivalence

namespace AdaIdna

open Cluster CanonicalOrder CanonicalComposition

/-- The Hangul syllables that two characters compose into. -/
def hangulComposite (a b : ℕ) : Option ℕ :=
  if isHangulL a ∧ isHangulV b then some (syllable a b)
  else if isHangulS a ∧ (a - hangulSbase) % hangulTcount = 0 ∧ isHangulT b then
    some (a + (b - hangulTbase))
  else none

/-- The primary composites of the tables, and those of Hangul. -/
def tableComposite (T : Tables) (a b : ℕ) : Option ℕ :=
  (hangulComposite a b).or (if a < codeSpace then findPair T a b else none)

variable {T : Tables} {a b c d m : ℕ} {g g' : Cluster} {s t rest done marks : U32String} {p : ℤ}

theorem hangulComposite_of_not_first (hl : ¬ isHangulL a) (hs : ¬ isHangulS a) (b : ℕ) :
    hangulComposite a b = none := by
  rw [hangulComposite, if_neg fun h => hl h.1, if_neg fun h => hs h.1]

theorem hangulComposite_of_ccc (hh : HangulApart T) (hb : getCcc T b ≠ 0) (a : ℕ) :
    hangulComposite a b = none := by
  have hjamo : ¬ isJamo b := fun hj => hb (hh.ccc b (.inr hj))
  rw [hangulComposite, if_neg fun h => hjamo (.inr (.inl h.2)),
    if_neg fun h => hjamo (.inr (.inr h.2.2))]

/-- Hangul is not in the table. -/
theorem tableComposite_of_hangul (hh : HangulApart T) (ha : isHangulL a ∨ isHangulS a) (b : ℕ) :
    tableComposite T a b = hangulComposite a b := by
  have htable : (if a < codeSpace then findPair T a b else none) = none := by
    split_ifs with hlt
    · refine Option.eq_none_iff_forall_ne_some.mpr fun d hd => ?_
      have hpair := (findPair_eq_some_iff hlt).mp hd
      exact (hh.not_pair a b d hpair).1 (ha.elim (fun hl => .inr (.inl hl)) .inl)
    · rfl
  rw [tableComposite, htable, Option.or_none]

theorem tableComposite_of_starter (hl : ¬ isHangulL a) (hs : ¬ isHangulS a) (ha : a < codeSpace)
    (b : ℕ) : tableComposite T a b = findPair T a b := by
  rw [tableComposite, hangulComposite_of_not_first hl hs, Option.none_or, if_pos ha]

theorem tableComposite_of_lone (hl : ¬ isHangulL a) (hs : ¬ isHangulS a) (ha : ¬ a < codeSpace)
    (b : ℕ) : tableComposite T a b = none := by
  rw [tableComposite, hangulComposite_of_not_first hl hs, Option.none_or, if_neg ha]

/-! ### Groups -/

variable (T) in
/-- The group is what the machine makes it. -/
def Formed : Cluster → Prop
  | hangul c => isHangulL c ∨ isHangulS c
  | starter c marks p => ¬ isHangulL c ∧ ¬ isHangulS c ∧ c < codeSpace ∧
      (∀ k ∈ marks, getCcc T k ≠ 0) ∧ ∀ n : ℕ, (∀ k ∈ marks, getCcc T k < n) ↔ p < n
  | lone c => ¬ isHangulL c ∧ ¬ isHangulS c ∧ ¬ c < codeSpace

variable (T) in
/-- Where a group begins with a mark, the starter before it composes with no
mark. -/
def Sealed (done : U32String) (g : Cluster) : Prop :=
  getCcc T g.head ≠ 0 → ∀ before l marks, lastStarter (getCcc T) done = some (before, l, marks) →
    ∀ m, getCcc T m ≠ 0 → tableComposite T l m = none

theorem formed_start (c : ℕ) : Formed T (start c) := by
  by_cases hh : isHangulL c ∨ isHangulS c
  · rw [start_of_hangul hh]
    exact hh
  · obtain ⟨hl, hs⟩ := not_or.mp hh
    by_cases hc : c < codeSpace
    · rw [start_of_starter hl hs hc]
      refine ⟨hl, hs, hc, List.forall_mem_nil _, fun n => iff_of_true (List.forall_mem_nil _) ?_⟩
      omega
    · rw [start_of_lone hl hs hc]
      exact ⟨hl, hs, hc⟩

theorem formed_absorbed (hh : HangulApart T) (hg : Formed T g) (h : g.next T m = .absorbed g') :
    Formed T g' := by
  rcases next_absorbed h with ⟨c, rfl, hl, hv, rfl⟩ | ⟨c, rfl, hs, h0, ht, rfl⟩ |
    ⟨c, marks, p, d, rfl, hlt, hr, rfl⟩
  · exact .inr (isHangulS_syllable hl hv).1
  · exact .inr (hangulDecomp_trailing hs h0 ht).1
  · obtain ⟨-, -, hc, hmarks, hp⟩ := hg
    obtain ⟨hpair, hd⟩ := reach_lt hc hr
    have hapart := (hh.not_pair c m d hpair).2.2
    exact ⟨fun hl => hapart (.inr (.inl hl)), fun hs => hapart (.inl hs), hd, hmarks, hp⟩

theorem formed_passed (hg : Formed T g) (hf : MayFollow T g (m :: rest))
    (h : g.next T m = .passed g') : Formed T g' := by
  obtain ⟨c, marks, p, rfl, -, h0, rfl⟩ := next_passed h
  obtain ⟨hl, hs, hc, hmarks, hp⟩ := hg
  have hle : p ≤ getCcc T m := (hf m rfl).resolve_left h0
  refine ⟨hl, hs, hc, fun k hk => ?_, fun n => ?_⟩
  · rcases List.mem_append.mp hk with hk | hk
    · exact hmarks k hk
    · rwa [List.mem_singleton.mp hk]
  · constructor
    · intro hall
      exact Int.ofNat_lt.mpr (hall m (by simp))
    · intro hlt k hk
      rcases List.mem_append.mp hk with hk | hk
      · exact (hp n).mpr (hle.trans_lt hlt) k hk
      · rw [List.mem_singleton.mp hk]
        exact Int.ofNat_lt.mp hlt

/-- What follows a group that is left behind. -/
theorem mayFollow_absorbed (h : g.next T m = .absorbed g')
    (ho : Ordered (getCcc T) (m :: rest)) : MayFollow T g' rest := by
  rcases next_absorbed h with ⟨c, rfl, -, -, rfl⟩ | ⟨c, rfl, -, -, -, rfl⟩ |
    ⟨c, marks, p, d, rfl, hlt, -, rfl⟩
  · trivial
  · trivial
  · exact mayFollow_of_ordered hlt.le ho

theorem mayFollow_passed (h : g.next T m = .passed g')
    (ho : Ordered (getCcc T) (m :: rest)) : MayFollow T g' rest := by
  obtain ⟨c, marks, p, rfl, -, -, rfl⟩ := next_passed h
  exact mayFollow_of_ordered le_rfl ho

/-- The last starter of a text that ends with a group. -/
theorem lastStarter_text (hg : Formed T g) (h0 : getCcc T g.head = 0) (done : U32String) :
    lastStarter (getCcc T) (done ++ g.text) = some (done, g.head, g.marks) := by
  rw [text_eq]
  refine lastStarter_append h0 ?_
  cases g with
  | hangul c => exact List.forall_mem_nil _
  | starter c marks p => exact hg.2.2.2.1
  | lone c => exact List.forall_mem_nil _

/-- The first character of a group of another kind than the second has
class 0. -/
theorem getCcc_head (hh : HangulApart T) (hg : Formed T g)
    (h : ∀ c marks p, g ≠ starter c marks p) : getCcc T g.head = 0 := by
  cases g with
  | hangul c =>
    exact hh.ccc c (hg.elim (fun hl => .inr (.inl hl)) .inl)
  | starter c marks p => exact absurd rfl (h c marks p)
  | lone c =>
    by_contra hne
    exact hg.2.2 (lt_codeSpace_of_getCcc hne)

/-! ### One character -/

section Step

variable (hh : HangulApart T) (hp : PairsOfStarters T) (hg : Formed T g)
include hh hp hg

/-- **An absorbed character** is composed with the last starter. -/
theorem add_of_absorbed (h : g.next T m = .absorbed g') (done : U32String) :
    add (getCcc T) (tableComposite T) (done ++ g.text) m = done ++ g'.text := by
  rcases next_absorbed h with ⟨c, rfl, hl, hv, rfl⟩ | ⟨c, rfl, hs, h0, ht, rfl⟩ |
    ⟨c, marks, p, d, rfl, hlt, hr, rfl⟩
  · refine add_of_composite (hh.ccc c (.inr (.inl hl))) (List.forall_mem_nil _) ?_
    rw [composite_of_forall_lt (List.forall_mem_nil _), tableComposite_of_hangul hh hg,
      hangulComposite, if_pos ⟨hl, hv⟩]
  · refine add_of_composite (hh.ccc c (.inl hs)) (List.forall_mem_nil _) ?_
    have hl : ¬ (isHangulL c ∧ isHangulV m) := fun hlv =>
      not_isHangulS_of_isJamo (.inl hlv.1) hs
    rw [composite_of_forall_lt (List.forall_mem_nil _), tableComposite_of_hangul hh hg,
      hangulComposite, if_neg hl, if_pos ⟨hs, h0, ht⟩]
  · obtain ⟨hl, hs, hc, hmarks, hp'⟩ := hg
    refine add_of_composite (hp c m d (reach_lt hc hr).1).1 hmarks ?_
    rw [composite_of_forall_lt ((hp' _).mpr hlt), tableComposite_of_starter hl hs hc]
    rwa [reach, if_pos hlt] at hr

omit hp in
/-- **Any other** is put behind the text: the last starter is that of the group,
or it is blocked. -/
theorem add_of_not_absorbed (hdone : Sealed T done g) (h : ∀ g', g.next T m ≠ .absorbed g') :
    add (getCcc T) (tableComposite T) (done ++ g.text) m = done ++ g.text ++ [m] := by
  refine add_of_no_composite fun before l ms hlast => ?_
  by_cases h0 : getCcc T g.head = 0
  · rw [lastStarter_text hg h0] at hlast
    obtain ⟨rfl, rfl, rfl⟩ : done = before ∧ g.head = l ∧ g.marks = ms := by simpa using hlast
    cases g with
    | hangul c =>
      refine composite_eq_none ?_
      rw [head_hangul, tableComposite_of_hangul hh hg, hangulComposite, if_neg, if_neg]
      · intro hlvt
        refine h (hangul (c + (m - hangulTbase))) ?_
        rw [Cluster.next, if_neg, if_pos hlvt]
        exact fun hlv => not_isHangulS_of_isJamo (.inl hlv.1) hlvt.1
      · intro hlv
        exact h (hangul (syllable c m)) (by rw [Cluster.next, if_pos hlv])
    | starter c marks p =>
      obtain ⟨hl, hs, hc, -, hp'⟩ := hg
      rw [composite, head_starter, marks_starter, tableComposite_of_starter hl hs hc]
      split_ifs with hall
      · rcases hfind : findPair T c m with - | d
        · rfl
        · refine absurd ?_ (h (starter d marks p))
          rw [Cluster.next, reach, if_pos ((hp' _).mp hall), hfind]
      · rfl
    | lone c => exact composite_eq_none (tableComposite_of_lone hg.1 hg.2.1 hg.2.2 m)
  · cases g with
    | starter c marks p =>
      have hmarks : ∀ k ∈ c :: marks, getCcc T k ≠ 0 :=
        List.forall_mem_cons.mpr ⟨h0, hg.2.2.2.1⟩
      rw [text, lastStarter_append_marks hmarks] at hlast
      obtain ⟨⟨before', l', ms'⟩, hlast', heq⟩ := Option.map_eq_some_iff.mp hlast
      obtain ⟨rfl, rfl, rfl⟩ : before' = before ∧ l' = l ∧ ms' ++ c :: marks = ms := by
        simpa using heq
      by_cases hm : getCcc T m = 0
      · exact composite_of_starter hm (by simp)
      · exact composite_eq_none (hdone h0 _ _ _ hlast' m hm)
    | hangul c => exact absurd (getCcc_head hh hg (by simp)) h0
    | lone c => exact absurd (getCcc_head hh hg (by simp)) h0

omit hg in
theorem sealed_absorbed (hg' : Formed T g') (hc : ∀ c marks p, g = starter c marks p →
    c < codeSpace) (h : g.next T m = .absorbed g') : Sealed T done g' := by
  intro hne
  refine absurd ?_ hne
  rcases next_absorbed h with ⟨c, rfl, -, -, rfl⟩ | ⟨c, rfl, -, -, -, rfl⟩ |
    ⟨c, marks, p, d, rfl, -, hr, rfl⟩
  · exact getCcc_head hh hg' (by simp)
  · exact getCcc_head hh hg' (by simp)
  · exact (hp c m d (reach_lt (hc c marks p rfl) hr).1).2

omit hp in
/-- Only a starter ends a group that began with a character of the table, and
what other groups end with composes with no mark. -/
theorem sealed_closed (h : g.next T m = .closed) : Sealed T (done ++ g.text) (start m) := by
  intro hm before l ms hlast k hk
  rw [head_start] at hm
  cases g with
  | hangul c =>
    rw [lastStarter_text hg (getCcc_head hh hg (by simp))] at hlast
    cases hlast
    rw [head_hangul, tableComposite_of_hangul hh hg, hangulComposite_of_ccc hh hk]
  | starter c marks p =>
    rw [Cluster.next] at h
    split at h
    · cases h
    · rw [if_neg hm] at h
      cases h
  | lone c =>
    rw [lastStarter_text hg (getCcc_head hh hg (by simp))] at hlast
    cases hlast
    exact tableComposite_of_lone hg.1 hg.2.1 hg.2.2 k

end Step

/-- **A run of the machine** adds the characters one after another. -/
theorem foldl_add_eq_composeFrom (hh : HangulApart T) (hp : PairsOfStarters T) (hg : Formed T g)
    (hdone : Sealed T done g) (hf : MayFollow T g rest) (ho : Ordered (getCcc T) rest) :
    rest.foldl (add (getCcc T) (tableComposite T)) (done ++ g.text)
      = done ++ composeFrom T g rest := by
  induction rest generalizing done g with
  | nil => rfl
  | cons m rest ih =>
    have ho' : Ordered (getCcc T) rest := List.IsChain.tail ho
    rw [List.foldl_cons]
    cases hnext : g.next T m with
    | absorbed g' =>
      have hg' := formed_absorbed hh hg hnext
      have hc : ∀ c marks p, g = starter c marks p → c < codeSpace := by
        rintro c marks p rfl
        exact hg.2.2.1
      rw [add_of_absorbed hh hp hg hnext, composeFrom_absorbed hnext]
      exact ih hg' (sealed_absorbed hh hp hg' hc hnext) (mayFollow_absorbed hnext ho) ho'
    | passed g' =>
      have hhead : g'.head = g.head := by
        obtain ⟨c, marks, p, rfl, -, -, rfl⟩ := next_passed hnext
        rfl
      rw [add_of_not_absorbed hh hg hdone (by simp [hnext]), composeFrom_passed hnext,
        List.append_assoc, ← text_passed hnext]
      refine ih (formed_passed hg hf hnext) ?_ (mayFollow_passed hnext ho) ho'
      rw [Sealed, hhead]
      exact hdone
    | closed =>
      rw [add_of_not_absorbed hh hg hdone (by simp [hnext]), composeFrom_closed hnext,
        ← text_start m, composeText, ← List.append_assoc]
      exact ih (formed_start m) (sealed_closed hh hg hnext) (mayFollow_start m rest) ho'

/-- **`compose` is canonical composition** for strings in canonical order. -/
theorem compose_eq_compose (hh : HangulApart T) (hp : PairsOfStarters T)
    (ho : Ordered (getCcc T) s) :
    AdaIdna.compose T s = CanonicalComposition.compose (getCcc T) (tableComposite T) s := by
  rw [compose_eq]
  cases s with
  | nil => rfl
  | cons c rest =>
    have hfirst : add (getCcc T) (tableComposite T) [] c = [] ++ (start c).text := by
      rw [text_start]
      rfl
    have hsealed : Sealed T [] (start c) := by
      intro _ before l marks hlast
      cases lastStarter_nil.symm.trans hlast
    rw [CanonicalComposition.compose, List.foldl_cons, hfirst, foldl_add_eq_composeFrom hh hp
      (formed_start c) hsealed (mayFollow_start c rest) (List.IsChain.tail ho)]
    rfl

namespace UnicodeDataTable

/-! ### The definition of the standard -/

/-- The primary composite of two characters. -/
def primaryComposite (ucd : UnicodeData) (exclusions : Finset ℕ) (a b : ℕ) : Option ℕ :=
  (hangulComposite a b).or
    ((ucd.canonical.map Prod.fst).find? fun c => IsPrimary ucd exclusions a b c)

/-- `d` is the canonical decomposition of `s`: full decompositions one after
another, in canonical order. -/
def CanonicalDecomposition (ucd : UnicodeData) (s d : U32String) : Prop :=
  ∃ ws, List.Forall₂ (Replacement.FullExpansion (canonicalMapping ucd)) s ws ∧
    d = order (cccOf ucd) ws.flatten

/-- `n` is the normalization form C of `s`. -/
def IsNfc (ucd : UnicodeData) (exclusions : Finset ℕ) (s n : U32String) : Prop :=
  ∃ d, CanonicalDecomposition ucd s d ∧
    n = CanonicalComposition.compose (cccOf ucd) (primaryComposite ucd exclusions) d

variable {ucd : UnicodeData} {exclusions : Finset ℕ} {limit : ℕ} {dec comp : Sections}
  {k : List ℕ × List ℕ} {n : U32String}

/-- The composites of the tables are those of the data. -/
theorem tableComposite_eq (hu : ucd.Standard)
    (hp : buildComposition ucd exclusions = some comp) (h : Holds T.toTableData dec k comp) :
    tableComposite T = primaryComposite ucd exclusions := by
  funext a b
  rw [tableComposite, primaryComposite]
  refine congrArg (Option.or _) ?_
  rcases hfind : (ucd.canonical.map Prod.fst).find? fun c => IsPrimary ucd exclusions a b c
    with - | c
  · rw [List.find?_eq_none] at hfind
    split_ifs with ha
    · refine Option.eq_none_iff_forall_ne_some.mpr fun c hc => ?_
      have hprimary := (isPair_iff hp h ha).mp ((findPair_eq_some_iff ha).mp hc)
      exact hfind c (List.mem_map_of_mem (f := Prod.fst) hprimary.1) (decide_eq_true hprimary)
    · rfl
  · have hprimary : IsPrimary ucd exclusions a b c :=
      of_decide_eq_true (List.find?_some (p := fun c => decide (IsPrimary ucd exclusions a b c))
        hfind)
    have ha : a < codeSpace := hu.mapping_lt _ hprimary.1 a List.mem_cons_self
    rw [if_pos ha, findPair_eq_some_iff ha, isPair_iff hp h ha]
    exact hprimary

/-- The canonical decomposition is what `decompose_nfc` makes. -/
theorem canonicalDecomposition_iff (hu : ucd.Standard)
    (hd : buildDecomposition ucd limit = some dec) (hk : buildCcc ucd = some k)
    (h : Holds T.toTableData dec k comp) :
    CanonicalDecomposition ucd s t ↔ t = decomposeNfc T s := by
  have hfull : ∀ c w,
      Replacement.FullExpansion (canonicalMapping ucd) c w ↔ fullDecomp T c = w := by
    intro c w
    obtain ⟨depth, hdepth⟩ := expands_fullDecomp hu hd h c
    exact Replacement.expand_eq_some_iff hdepth
  have hall : ∀ {s : U32String} {ws : List U32String},
      List.Forall₂ (Replacement.FullExpansion (canonicalMapping ucd)) s ws
        ↔ ws = s.map (fullDecomp T) := by
    intro s ws
    constructor
    · intro hforall
      induction hforall with
      | nil => rfl
      | cons hc hs ih => rw [List.map_cons, (hfull _ _).mp hc, ih]
    · rintro rfl
      rw [List.forall₂_map_right_iff]
      exact List.forall₂_same.mpr fun c _ => (hfull c _).mpr rfl
  rw [decomposeNfc_eq, funext (getCcc_eq_cccOf hu hk h)]
  constructor
  · rintro ⟨ws, hws, rfl⟩
    rw [hall.mp hws, List.flatMap_def]
  · rintro rfl
    exact ⟨_, hall.mpr rfl, by rw [List.flatMap_def]⟩

theorem nfc_eq_iff_isNfc (hu : ucd.Standard)
    (hd : buildDecomposition ucd limit = some dec) (hk : buildCcc ucd = some k)
    (hp : buildComposition ucd exclusions = some comp) (h : Holds T.toTableData dec k comp) :
    nfc T s = n ↔ IsNfc ucd exclusions s n := by
  have hg := generatorShape hu hd hk hp h
  have hcompose : nfc T s
      = CanonicalComposition.compose (cccOf ucd) (primaryComposite ucd exclusions)
          (decomposeNfc T s) := by
    have ho : Ordered (getCcc T) (decomposeNfc T s) := by
      rw [decomposeNfc_eq]
      exact ordered_order _
    rw [nfc, compose_eq_compose hg.hangul hg.starters ho, tableComposite_eq hu hp h,
      funext (getCcc_eq_cccOf hu hk h)]
  constructor
  · rintro rfl
    exact ⟨_, (canonicalDecomposition_iff hu hd hk h).mpr rfl, hcompose⟩
  · rintro ⟨d, hdec, rfl⟩
    rw [hcompose, (canonicalDecomposition_iff hu hd hk h).mp hdec]

/-- **`normalize` is NFC**: over generated tables it returns, for every string
of 32-bit values, the canonical composition of the canonical decomposition that
the Unicode data defines. -/
theorem normalize_eq_some_iff_isNfc (hu : ucd.Standard)
    (hd : buildDecomposition ucd limit = some dec) (hk : buildCcc ucd = some k)
    (hp : buildComposition ucd exclusions = some comp) (h : Holds T.toTableData dec k comp)
    (htables : T.ensureTables = true) :
    normalize T s = some n ↔ IsNfc ucd exclusions s n := by
  rw [normalize_eq_nfc (generatorShape hu hd hk hp h) htables, Option.some.injEq]
  exact nfc_eq_iff_isNfc hu hd hk hp h

/-- `é` is composed of its two characters. -/
theorem normalize_eq_some_iff_isNfc_few :
    ∃ T : Tables, normalize T [0x65, 0x301] = some [0xE9] := by
  obtain ⟨d, k, p, hd, hk, hp⟩ := exists_build_fewData
  have hholds := holds_withGenerated smallTables.toTableData d k p
  obtain ⟨T, hT⟩ := exists_tables wellFormed_fewData distinctPairs_fewData hd hp hholds
    smallTables.idnaLowRangeEnd_le smallTables.idnaHighIgnoredEnd_le smallTables.dirValue_lt
  have htables : T.ensureTables = true := by
    rw [hT]
    rfl
  rw [← hT] at hholds
  refine ⟨T, (normalize_eq_some_iff_isNfc standard_fewData hd hk hp hholds htables).mpr ?_⟩
  have hfull : ∀ c, Replacement.expand (canonicalMapping fewData) 1 c = some [c] →
      Replacement.FullExpansion (canonicalMapping fewData) c [c] := fun c hc =>
    Replacement.fullExpansion_of_expand hc
  refine ⟨[0x65, 0x301], ⟨[[0x65], [0x301]], ?_, rfl⟩, rfl⟩
  exact .cons (hfull _ rfl) (.cons (hfull _ rfl) .nil)

end UnicodeDataTable

end AdaIdna
