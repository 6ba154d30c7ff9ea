/-
AdaIdna/NormalForm.lean

The normal form of a domain name.

`nfc` is the normal form, which `normalize` returns whether or not it has
found out that nothing needs to be done (`normalize_eq_nfc`).  The separator of
labels is a barrier for every stage of it: no mark moves across it, it
composes with nothing, and the marks behind it compose with nothing that they
would not compose with at the beginning of a string.  So the normal form of a
domain name is made of the normal forms of its labels (`nfc_join`).
-/
import AdaIdna.NfcCheck
import AdaIdna.Lib.Labels

namespace AdaIdna

open CanonicalOrder Cluster Labels

/-- The composition of the decomposition. -/
def nfc (T : Tables) (s : U32String) : U32String := compose T (decomposeNfc T s)

variable {T : Tables} {c m z : ℕ} {g g' : Cluster} {s t : U32String}

/-- **`normalize` computes the normal form.** -/
theorem normalize_eq_nfc (hg : GeneratorShape T) (htables : T.ensureTables = true)
    (s : U32String) : normalize T s = some (nfc T s) := by
  rw [normalize, htables]
  by_cases h : isAlreadyNfc T s = true
  · rw [if_pos h, nfc, compose_decomposeNfc_of_isAlreadyNfc hg.hangul hg.ordered hg.starters h]
    rfl
  · rw [if_neg h]
    rfl

theorem nfc_of_isAlreadyNfc (hg : GeneratorShape T) (h : isAlreadyNfc T s = true) :
    nfc T s = s :=
  compose_decomposeNfc_of_isAlreadyNfc hg.hangul hg.ordered hg.starters h

theorem nfc_nfc (hg : GeneratorShape T) (s : U32String) : nfc T (nfc T s) = nfc T s := by
  rw [nfc, nfc, decomposeNfc_compose_decomposeNfc hg.hangul hg.full hg.decompose]

/-! ### Characters that compose with nothing -/

/-- The starter of a cluster is a code point. -/
def InSpace : Cluster → Prop
  | starter c _ _ => c < codeSpace
  | _ => True

theorem inSpace_start (c : ℕ) : InSpace (start c) := by
  rw [Cluster.start]
  split
  · trivial
  · split
    · assumption
    · trivial

theorem inSpace_absorbed (hg : InSpace g) (h : g.next T m = .absorbed g') : InSpace g' := by
  rcases next_absorbed h with ⟨c, rfl, -, -, rfl⟩ | ⟨c, rfl, -, -, -, rfl⟩ |
    ⟨c, marks, previousCcc, d, rfl, -, hr, rfl⟩
  · trivial
  · trivial
  · exact (reach_lt hg hr).2

theorem inSpace_passed (hg : InSpace g) (h : g.next T m = .passed g') : InSpace g' := by
  obtain ⟨c, marks, previousCcc, rfl, -, -, rfl⟩ := next_passed h
  exact hg

/-- A character of class 0 that is the second of no pair, nor a part of a
syllable, closes every cluster. -/
theorem next_closed_of_not_second (hg : InSpace g) (h0 : getCcc T z = 0) (hv : ¬ isHangulV z)
    (ht : ¬ isHangulT z) (hpair : ∀ a c, ¬ IsPair T a z c) : g.next T z = .closed := by
  apply next_closed_of_reach h0 hv ht
  rintro c marks previousCcc rfl
  rw [Option.eq_none_iff_forall_ne_some]
  intro d hd
  exact hpair c d (reach_lt hg hd).1

/-- Such a character splits the work. -/
theorem composeFrom_append (hz : ∀ g, InSpace g → g.next T z = .closed) (hg : InSpace g)
    (s t : U32String) :
    composeFrom T g (s ++ z :: t) = composeFrom T g s ++ composeText T (z :: t) := by
  induction s generalizing g with
  | nil => exact composeFrom_closed (hz g hg)
  | cons m s ih =>
    rw [List.cons_append, composeFrom, composeFrom]
    rcases h : g.next T m with g' | g' | -
    · exact ih (inSpace_absorbed hg h)
    · exact ih (inSpace_passed hg h)
    · dsimp only
      rw [ih (inSpace_start m), List.append_assoc]

theorem composeText_append (hz : ∀ g, InSpace g → g.next T z = .closed) (s t : U32String) :
    composeText T (s ++ z :: t) = composeText T s ++ composeText T (z :: t) := by
  cases s with
  | nil => rfl
  | cons m s => exact composeFrom_append hz (inSpace_start m) s t

/-- The starter lets all marks pass, if it is the first of no pair. -/
theorem composeFrom_starter (hc : ∀ b, findPair T c b = none) (marks : U32String)
    (previousCcc : ℤ) (t : U32String) :
    composeFrom T (starter c marks previousCcc) t
      = c :: marks ++ t.takeWhile (getCcc T · ≠ 0)
        ++ composeText T (t.dropWhile (getCcc T · ≠ 0)) := by
  have hreach : ∀ p m, reach T c p m = none := by
    intro p m
    rw [reach, hc]
    exact ite_self _
  induction t generalizing marks previousCcc with
  | nil => rw [composeFrom, List.takeWhile_nil, List.dropWhile_nil, composeText]; simp [text]
  | cons m t ih =>
    by_cases h0 : getCcc T m = 0
    · rw [composeFrom_closed (next_starter (hreach _ _) h0),
        List.takeWhile_cons_of_neg (by simpa using h0),
        List.dropWhile_cons_of_neg (by simpa using h0), List.append_nil]
      rfl
    · rw [composeFrom_passed (next_mark (hreach _ _) h0), ih,
        List.takeWhile_cons_of_pos (by simpa using h0),
        List.dropWhile_cons_of_pos (by simpa using h0)]
      simp

theorem lt_codeSpace_of_getCcc (h : getCcc T c ≠ 0) : c < codeSpace := by
  by_contra hc
  exact h (if_pos (not_lt.mp hc))

theorem findPair_of_not_first (hc : c < codeSpace) (h : ∀ b d, ¬ IsPair T c b d) (b : ℕ) :
    findPair T c b = none := by
  rw [Option.eq_none_iff_forall_ne_some]
  exact fun d hd => h b d ((findPair_eq_some_iff hc).mp hd)

/-- Marks at the beginning of a string compose with nothing. -/
theorem composeText_marks (hg : GeneratorShape T) (t : U32String) :
    composeText T t = t.takeWhile (getCcc T · ≠ 0)
      ++ composeText T (t.dropWhile (getCcc T · ≠ 0)) := by
  cases t with
  | nil => rfl
  | cons m t =>
    by_cases h0 : getCcc T m = 0
    · rw [List.takeWhile_cons_of_neg (by simpa using h0),
        List.dropWhile_cons_of_neg (by simpa using h0), List.nil_append]
    · have hc := lt_codeSpace_of_getCcc h0
      -- syllables and jamo have class 0
      have hstart : start m = starter m [] (-1) :=
        start_of_not_hangul hc fun h => h0 (hg.hangul.ccc m h)
      have hfirst : ∀ b, findPair T m b = none :=
        findPair_of_not_first hc fun b d h => h0 (hg.starters m b d h).1
      rw [composeText, hstart, composeFrom_starter hfirst,
        List.takeWhile_cons_of_pos (by simpa using h0),
        List.dropWhile_cons_of_pos (by simpa using h0)]
      rfl

/-! ### The separator -/

theorem not_isHangul_of_lt (h : c < 0x1100) :
    ¬ isHangulS c ∧ ¬ isHangulL c ∧ ¬ isHangulV c ∧ ¬ isHangulT c := by
  unfold isHangulS isHangulL isHangulV isHangulT hangulSbase hangulLbase hangulVbase hangulTbase
  omega

theorem start_of_lt (h : c < 0x1100) : start c = starter c [] (-1) := by
  obtain ⟨hs, hl, -, -⟩ := not_isHangul_of_lt h
  exact start_of_starter hl hs (h.trans (by decide))

theorem DotApart.closes (hd : DotApart T) : ∀ g, InSpace g → g.next T dot = .closed := by
  obtain ⟨-, -, hv, ht⟩ := not_isHangul_of_lt (c := dot) (by decide)
  exact fun g hg => next_closed_of_not_second hg hd.ccc hv ht hd.not_second

/-- What follows a separator is composed as at the beginning of a string. -/
theorem DotApart.composeText_cons (hd : DotApart T) (hg : GeneratorShape T) (t : U32String) :
    composeText T (dot :: t) = dot :: composeText T t := by
  have hfirst : ∀ b, findPair T dot b = none :=
    findPair_of_not_first (by decide) hd.not_first
  rw [composeText, start_of_lt (by decide), composeFrom_starter hfirst, composeText_marks hg t]
  rfl

theorem DotApart.fullDecomp (hd : DotApart T) : fullDecomp T dot = [dot] :=
  fullDecomp_of_none (not_isHangul_of_lt (by decide)).1 hd.stored

/-- **Normalization stops at the separator.** -/
theorem nfc_append_dot (hg : GeneratorShape T) (hd : DotApart T) (s t : U32String) :
    nfc T (s ++ dot :: t) = nfc T s ++ dot :: nfc T t := by
  -- decomposition and ordering first, then composition
  have horder : decomposeNfc T (s ++ dot :: t) = decomposeNfc T s ++ dot :: decomposeNfc T t := by
    rw [decomposeNfc_eq, decomposeNfc_eq, decomposeNfc_eq, List.flatMap_append, List.flatMap_cons,
      hd.fullDecomp, List.singleton_append, order_append_barrier hd.ccc, order_cons_barrier hd.ccc]
  rw [nfc, nfc, nfc, horder, compose_eq, compose_eq, compose_eq, composeText_append hd.closes,
    hd.composeText_cons hg]

/-- **The normal form of a domain name** is made of those of its labels. -/
theorem nfc_join (hg : GeneratorShape T) (hd : DotApart T) (ls : List U32String) :
    nfc T (join dot ls) = join dot (ls.map (nfc T)) := by
  induction ls with
  | nil => rfl
  | cons l ls ih =>
    cases ls with
    | nil => simp
    | cons l' ls =>
      rw [join_cons_cons, nfc_append_dot hg hd, ih]
      exact (join_cons_cons _ _ _).symm

/-- **Normalization respects the labels**: a domain name is normalized label
by label, whether or not one of them is normalized already. -/
theorem normalize_labelwise (hg : GeneratorShape T) (hd : DotApart T) :
    (∀ s t, normalize T (s ++ dot :: t)
        = (normalize T s).bind fun n => (normalize T t).map fun m => n ++ dot :: m) ∧
      ∀ ls : List U32String, ls ≠ [] →
        normalize T (join dot ls) = (ls.mapM (normalize T)).map (join dot) := by
  by_cases htables : T.ensureTables = true
  · have hnormalize : normalize T = fun s => pure (nfc T s) :=
      funext fun s => normalize_eq_nfc hg htables s
    refine ⟨fun s t => ?_, fun ls _ => ?_⟩
    · simp only [hnormalize, nfc_append_dot hg hd]
      rfl
    · rw [hnormalize, List.mapM_pure]
      exact congrArg some (nfc_join hg hd ls)
  · -- without tables, nothing is normalized
    have hnone : normalize T = fun _ => none := funext fun s => by simp [normalize, htables]
    refine ⟨fun s t => ?_, fun ls hls => ?_⟩
    · rw [hnone]
      rfl
    · obtain ⟨l, ls, rfl⟩ := List.exists_cons_of_ne_nil hls
      rw [hnone, List.mapM_cons]
      rfl

/-- `é` in two characters, behind it a label that begins with the accent. -/
theorem normalize_labelwise_small :
    normalize smallTables ([0x65, 0x301] ++ dot :: [0x301, 0x65]) = some [0xE9, dot, 0x301, 0x65] :=
  ((normalize_labelwise small_generatorShape small_dotApart).1 _ _).trans (by decide)

/-! ### Strings that normalization leaves alone -/

/-- A string of characters of class 0 without decompositions, none of which is
the second of a pair, is its own normal form. -/
theorem nfc_eq_self (h : ∀ c ∈ s, c < 0x1100 ∧ getCcc T c = 0 ∧ storedDecomp T c = [] ∧
    ∀ a d, ¬ IsPair T a c d) : nfc T s = s := by
  have hdecomp : s.flatMap (fullDecomp T) = s := by
    apply flatMap_eq_self
    intro c hc
    obtain ⟨hlt, -, hstored, -⟩ := h c hc
    exact fullDecomp_of_none (not_isHangul_of_lt hlt).1 hstored
  have hordered : Ordered (getCcc T) s :=
    (List.pairwise_of_forall_mem_list fun x _ y hy => Or.inl (h y hy).2.1).isChain
  have hrun : ∀ g, InSpace g → ∀ r : U32String, (∀ c ∈ r, c ∈ s) →
      composeFrom T g r = g.text ++ r := by
    intro g hg r
    induction r generalizing g with
    | nil => exact fun _ => (List.append_nil _).symm
    | cons m r ih =>
      intro hr
      rw [List.forall_mem_cons] at hr
      obtain ⟨hlt, h0, -, hpair⟩ := h m hr.1
      obtain ⟨-, -, hv, ht⟩ := not_isHangul_of_lt hlt
      rw [composeFrom_closed (next_closed_of_not_second hg h0 hv ht hpair), composeText,
        ih _ (inSpace_start m) hr.2, text_start]
      rfl
  rw [nfc, decomposeNfc_eq, hdecomp, order_of_ordered hordered, compose_eq]
  cases s with
  | nil => rfl
  | cons c s =>
    rw [composeText, hrun _ (inSpace_start c) s fun x hx => List.mem_cons_of_mem _ hx, text_start]
    rfl

/-! ### What normalization can produce -/

/-- **A property that composition keeps** holds of all characters of a
composed string. -/
theorem forall_mem_composeFrom {P : ℕ → Prop}
    (hpair : ∀ a b c, P a → P b → IsPair T a b c → P c)
    (hlv : ∀ l v, P l → P v → isHangulL l → isHangulV v → P (syllable l v))
    (hlvt : ∀ c t, P c → P t → isHangulS c → isHangulT t → P (c + (t - hangulTbase)))
    (hg : InSpace g) (htext : ∀ c ∈ g.text, P c) (hs : ∀ c ∈ s, P c) :
    ∀ c ∈ composeFrom T g s, P c := by
  induction s generalizing g with
  | nil => exact htext
  | cons m s ih =>
    rw [List.forall_mem_cons] at hs
    rw [composeFrom]
    rcases h : g.next T m with g' | g' | -
    · refine ih (inSpace_absorbed hg h) ?_ hs.2
      rcases next_absorbed h with ⟨c, rfl, hl, hv, rfl⟩ | ⟨c, rfl, hc, -, ht, rfl⟩ |
        ⟨c, marks, previousCcc, d, rfl, -, hr, rfl⟩
      · simpa [text] using hlv c m (htext c (by simp [text])) hs.1 hl hv
      · simpa [text] using hlvt c m (htext c (by simp [text])) hs.1 hc ht
      · rw [text, List.forall_mem_cons] at htext ⊢
        exact ⟨hpair c m d htext.1 hs.1 (reach_lt hg hr).1, htext.2⟩
    · refine ih (inSpace_passed hg h) ?_ hs.2
      rw [text_passed h]
      exact List.forall_mem_append.mpr ⟨htext, by simpa using hs.1⟩
    · refine List.forall_mem_append.mpr ⟨htext, ih (inSpace_start m) ?_ hs.2⟩
      rw [text_start]
      simpa using hs.1

/-- The same for the whole normalization. -/
theorem forall_mem_nfc {P : ℕ → Prop}
    (hdecomp : ∀ c ∈ s, ∀ d ∈ fullDecomp T c, P d)
    (hpair : ∀ a b c, P a → P b → IsPair T a b c → P c)
    (hlv : ∀ l v, P l → P v → isHangulL l → isHangulV v → P (syllable l v))
    (hlvt : ∀ c t, P c → P t → isHangulS c → isHangulT t → P (c + (t - hangulTbase))) :
    ∀ c ∈ nfc T s, P c := by
  have hmem : ∀ d ∈ decomposeNfc T s, P d := by
    intro d hd
    rw [decomposeNfc_eq, (order_perm _).mem_iff, List.mem_flatMap] at hd
    obtain ⟨c, hc, hd⟩ := hd
    exact hdecomp c hc d hd
  rw [nfc, compose_eq]
  rcases h : decomposeNfc T s with - | ⟨c, r⟩
  · intro c hc
    cases hc
  · rw [h, List.forall_mem_cons] at hmem
    refine forall_mem_composeFrom hpair hlv hlvt (inSpace_start c) ?_ hmem.2
    rw [text_start]
    simpa using hmem.1

end AdaIdna
