/-
AdaIdna/CanonicalEquivalence.lean

Composition keeps the canonical decomposition.

A cluster of the composing machine always has the decomposition of the
characters it was made from, up to an exchange of marks with different nonzero
classes (`same_absorbed`, `same_composeFrom`): a character is absorbed only
where it could be moved next to the starter.  So decomposing and ordering the composed
string gives back the string that was composed (`decomposeNfc_compose`).
-/
import AdaIdna.TableShape

namespace AdaIdna

open CanonicalOrder Cluster

variable {T : Tables} {c m : ℕ} {g g' : Cluster}

/-! ### Hangul -/

theorem not_isHangulS_of_isJamo (h : isJamo c) : ¬ isHangulS c := by
  unfold isJamo isHangulL isHangulV isHangulT isHangulS hangulLbase hangulLcount hangulVbase
    hangulVcount hangulTbase hangulTcount hangulSbase hangulScount hangulLcount hangulVcount
    hangulTcount at *
  omega

/-- A syllable decomposes into a leading consonant, a vowel and at most a
trailing consonant, and is composed of them. -/
theorem hangulDecomp_cases (hc : isHangulS c) :
    ∃ l v, isHangulL l ∧ isHangulV v ∧
      (hangulDecomp c = [l, v] ∧ c = syllable l v ∨
        ∃ t, isHangulT t ∧ hangulDecomp c = [l, v, t] ∧
          c = syllable l v + (t - hangulTbase)) := by
  obtain ⟨hc, hc'⟩ := hc
  obtain ⟨k, rfl⟩ := Nat.exists_eq_add_of_le hc
  have hk : k < hangulScount := by omega
  have hscount : hangulScount = 11172 := rfl
  have hncount : hangulNcount = 588 := rfl
  have htcount : hangulTcount = 28 := rfl
  have hvcount : hangulVcount = 21 := rfl
  have hlcount : hangulLcount = 19 := rfl
  have hl : isHangulL (hangulLbase + k / hangulNcount) := by
    refine ⟨Nat.le_add_right _ _, Nat.add_lt_add_left ?_ _⟩
    rw [hncount, hlcount]
    omega
  have hv : isHangulV (hangulVbase + k % hangulNcount / hangulTcount) := by
    refine ⟨Nat.le_add_right _ _, Nat.add_lt_add_left ?_ _⟩
    rw [hncount, hvcount, htcount]
    omega
  -- the three parts give the syllable back
  have hback : syllable (hangulLbase + k / hangulNcount)
      (hangulVbase + k % hangulNcount / hangulTcount) + k % hangulTcount = hangulSbase + k := by
    rw [syllable, Nat.add_sub_cancel_left, Nat.add_sub_cancel_left, hncount, hvcount, htcount]
    omega
  refine ⟨_, _, hl, hv, ?_⟩
  rw [hangulDecomp, Nat.add_sub_cancel_left]
  by_cases h0 : k % hangulTcount = 0
  · rw [h0, Nat.add_zero] at hback
    exact Or.inl ⟨by rw [if_neg (not_not_intro h0)]; rfl, hback.symm⟩
  · refine Or.inr ⟨hangulTbase + k % hangulTcount, ⟨by omega, ?_⟩, by rw [if_pos h0]; rfl, ?_⟩
    · exact Nat.add_lt_add_left (Nat.mod_lt _ (by decide)) _
    · rw [Nat.add_sub_cancel_left, hback]

theorem isJamo_of_mem_hangulDecomp (hc : isHangulS c) {d : ℕ} (hd : d ∈ hangulDecomp c) :
    isJamo d := by
  obtain ⟨l, v, hl, hv, ⟨h, -⟩ | ⟨t, ht, h, -⟩⟩ := hangulDecomp_cases hc
  · rw [h] at hd
    rcases List.mem_pair.mp hd with hd | hd
    · exact Or.inl (hd ▸ hl)
    · exact Or.inr (Or.inl (hd ▸ hv))
  · rw [h, List.mem_cons, List.mem_pair] at hd
    rcases hd with hd | hd | hd
    · exact Or.inl (hd ▸ hl)
    · exact Or.inr (Or.inl (hd ▸ hv))
    · exact Or.inr (Or.inr (hd ▸ ht))

theorem hangulDecomp_syllable {l v : ℕ} (hl : isHangulL l) (hv : isHangulV v) :
    hangulDecomp (syllable l v) = [l, v] := by
  have h0 := (isHangulS_syllable hl hv).2
  unfold isHangulL isHangulV hangulLbase hangulLcount hangulVbase hangulVcount at *
  have h1 : hangulLbase + (syllable l v - hangulSbase) / hangulNcount = l := by
    unfold syllable hangulSbase hangulLbase hangulVbase hangulVcount hangulTcount hangulNcount
      hangulVcount hangulTcount
    omega
  have h2 : hangulVbase + (syllable l v - hangulSbase) % hangulNcount / hangulTcount = v := by
    unfold syllable hangulSbase hangulLbase hangulVbase hangulVcount hangulTcount hangulNcount
      hangulVcount hangulTcount
    omega
  rw [hangulDecomp, h1, h2, if_neg (not_not_intro h0)]
  rfl

theorem hangulDecomp_trailing {t : ℕ} (hc : isHangulS c)
    (h0 : (c - hangulSbase) % hangulTcount = 0) (ht : isHangulT t) :
    isHangulS (c + (t - hangulTbase)) ∧
      hangulDecomp (c + (t - hangulTbase)) = hangulDecomp c ++ [t] := by
  obtain ⟨k, hk⟩ := Nat.dvd_of_mod_eq_zero h0
  obtain ⟨u, rfl⟩ := Nat.exists_eq_add_of_le ht.1.le
  obtain ⟨hc, hc'⟩ := hc
  have hu : 0 < u ∧ u < hangulTcount := by
    unfold isHangulT at ht
    omega
  have hsub : c + (hangulTbase + u - hangulTbase) - hangulSbase = hangulTcount * k + u := by
    omega
  have hscount : hangulScount = hangulTcount * 399 := rfl
  have hncount : hangulNcount = hangulTcount * 21 := rfl
  have htcount : hangulTcount = 28 := rfl
  have hdiv : (hangulTcount * k + u) / hangulNcount = hangulTcount * k / hangulNcount := by
    rw [hncount, htcount]
    omega
  have hmod : (hangulTcount * k + u) % hangulNcount / hangulTcount
      = hangulTcount * k % hangulNcount / hangulTcount := by
    rw [hncount, htcount]
    omega
  have hrem : (hangulTcount * k + u) % hangulTcount = u := by
    rw [Nat.mul_add_mod, Nat.mod_eq_of_lt hu.2]
  have hs : isHangulS (c + (hangulTbase + u - hangulTbase)) := by
    rw [htcount] at hk
    rw [hscount, htcount] at hc'
    refine ⟨by omega, ?_⟩
    rw [hscount, htcount]
    omega
  refine ⟨hs, ?_⟩
  rw [hangulDecomp, hangulDecomp, hsub, hk, hdiv, hmod, hrem, if_pos hu.1.ne',
    if_neg (not_not_intro (Nat.mul_mod_right _ _)), List.append_nil]

/-! ### Full decompositions -/

theorem HangulApart.fullDecomp_jamo (hh : HangulApart T) (h : isJamo c) : fullDecomp T c = [c] :=
  fullDecomp_of_none (not_isHangulS_of_isJamo h) (hh.stored c h)

/-- What a decomposition consists of has no decomposition of its own. -/
theorem fullDecomp_of_mem (hh : HangulApart T) (hfull : DecompositionsFull T) {d : ℕ}
    (hd : d ∈ fullDecomp T c) : fullDecomp T d = [d] := by
  by_cases hs : isHangulS c
  · rw [fullDecomp_of_hangul hs] at hd
    exact hh.fullDecomp_jamo (isJamo_of_mem_hangulDecomp hs hd)
  · by_cases h : storedDecomp T c = []
    · rw [fullDecomp_of_none hs h, List.mem_singleton] at hd
      rw [hd, fullDecomp_of_none hs h]
    · rw [fullDecomp_of_stored hs h] at hd
      exact fullDecomp_of_none (fun h' => hh.not_mem c d hd (Or.inl h')) (hfull c d hd)

theorem fullDecomp_of_mem_decomposeNfc (hh : HangulApart T) (hfull : DecompositionsFull T)
    {s : U32String} {d : ℕ} (hd : d ∈ decomposeNfc T s) : fullDecomp T d = [d] := by
  rw [decomposeNfc_eq, (order_perm _).mem_iff, List.mem_flatMap] at hd
  obtain ⟨c, -, hd⟩ := hd
  exact fullDecomp_of_mem hh hfull hd

/-- A composite decomposes into its first element and what was absorbed. -/
theorem fullDecomp_composite (hh : HangulApart T) (hp : PairsDecompose T) {d : ℕ}
    (h : IsPair T c m d) (hm : fullDecomp T m = [m]) : fullDecomp T d = fullDecomp T c ++ [m] := by
  have hstored := hp c m d h
  rw [hm] at hstored
  rw [fullDecomp_of_stored (fun hs => (hh.not_pair c m d h).2.2 (Or.inl hs))
    (by rw [hstored]; simp), hstored]

/-! ### Clusters and their decompositions -/

variable (T) in
/-- The decomposition of a cluster. -/
def expand (g : Cluster) : U32String := g.text.flatMap (fullDecomp T)

variable (T) in
/-- The marks of a cluster are below the class that the next one is compared
with, and have no decomposition. -/
def Settled : Cluster → Prop
  | starter c marks previousCcc => c < codeSpace ∧ ∀ k ∈ marks,
      fullDecomp T k = [k] ∧ getCcc T k ≠ 0 ∧ (getCcc T k : ℤ) ≤ previousCcc
  | _ => True

variable (T) in
/-- What may follow a cluster in an ordered string. -/
def MayFollow : Cluster → U32String → Prop
  | starter _ _ previousCcc, rest =>
    ∀ m ∈ rest.head?, getCcc T m = 0 ∨ previousCcc ≤ getCcc T m
  | _, _ => True

theorem flatMap_eq_self {s : U32String} (h : ∀ k ∈ s, fullDecomp T k = [k]) :
    s.flatMap (fullDecomp T) = s := by
  rw [List.flatMap_congr h]
  simp

theorem text_start (c : ℕ) : (start c).text = [c] := by
  rw [Cluster.start]
  split
  · rfl
  · split <;> rfl

theorem expand_start (hm : fullDecomp T m = [m]) : expand T (start m) = [m] := by
  rw [expand, text_start, List.flatMap_singleton, hm]

theorem settled_start (c : ℕ) : Settled T (start c) := by
  rw [Cluster.start]
  split
  · trivial
  · split
    · rename_i h
      exact ⟨h, by simp⟩
    · trivial

theorem mayFollow_start (c : ℕ) (rest : U32String) : MayFollow T (start c) rest := by
  rw [Cluster.start]
  split
  · trivial
  · split
    · intro m _
      exact Or.inr (by omega)
    · trivial

/-- **Absorbing keeps the decomposition**: the character could have stood
next to the starter. -/
theorem same_absorbed (hh : HangulApart T) (hp : PairsDecompose T) (hg : Settled T g)
    (hm : fullDecomp T m = [m]) (h : g.next T m = .absorbed g') :
    Same (getCcc T) (expand T g') (expand T g ++ [m]) := by
  rcases next_absorbed h with ⟨c, rfl, hl, hv, rfl⟩ | ⟨c, rfl, hs, h0, ht, rfl⟩ |
    ⟨c, marks, previousCcc, d, rfl, hlt, hr, rfl⟩
  · have hc : fullDecomp T c = [c] := hh.fullDecomp_jamo (Or.inl hl)
    have hsyl : fullDecomp T (syllable c m) = [c, m] := by
      rw [fullDecomp_of_hangul (isHangulS_syllable hl hv).1, hangulDecomp_syllable hl hv]
    simp only [expand, text, List.flatMap_singleton, hc, hsyl]
    exact Same.refl _
  · obtain ⟨hs', hd⟩ := hangulDecomp_trailing hs h0 ht
    simp only [expand, text, List.flatMap_singleton, fullDecomp_of_hangul hs,
      fullDecomp_of_hangul hs', hd]
    exact Same.refl _
  · obtain ⟨hc, hmarks⟩ := hg
    have hd := fullDecomp_composite hh hp (reach_lt hc hr).1 hm
    have hself : marks.flatMap (fullDecomp T) = marks := flatMap_eq_self fun k hk => (hmarks k hk).1
    -- the absorbed character passes the marks
    have hmove : Same (getCcc T) (m :: marks) (marks ++ [m]) := by
      refine same_move fun k hk => ⟨(hmarks k hk).2.1, ?_⟩
      have := (hmarks k hk).2.2
      omega
    simp only [expand, text, List.flatMap_cons, hd, hself, List.append_assoc]
    exact (Same.refl (fullDecomp T c)).append hmove

/-- Where a mark passes, nothing changes. -/
theorem expand_passed (hm : fullDecomp T m = [m]) (h : g.next T m = .passed g') :
    expand T g' = expand T g ++ [m] := by
  rw [expand, text_passed h, List.flatMap_append, List.flatMap_singleton, hm]
  rfl

/-- What follows in an ordered string may follow a cluster that is compared
with a class below that of the character before. -/
theorem mayFollow_of_ordered {c : ℕ} {marks rest : U32String} {previousCcc : ℤ}
    (hle : previousCcc ≤ getCcc T m) (ho : Ordered (getCcc T) (m :: rest)) :
    MayFollow T (starter c marks previousCcc) rest := by
  intro k hk
  cases rest with
  | nil => cases hk
  | cons k' rest =>
    obtain rfl := Option.some.inj hk
    rcases List.IsChain.rel ho with h0 | hle'
    · exact Or.inl h0
    · exact Or.inr (by omega)

/-- An absorbed character leaves the cluster settled, and ready for what
follows in an ordered string. -/
theorem settled_absorbed {rest : U32String} (hg : Settled T g)
    (h : g.next T m = .absorbed g') (ho : Ordered (getCcc T) (m :: rest)) :
    Settled T g' ∧ MayFollow T g' rest := by
  rcases next_absorbed h with ⟨c, rfl, -, -, rfl⟩ | ⟨c, rfl, -, -, -, rfl⟩ |
    ⟨c, marks, previousCcc, d, rfl, hlt, hr, rfl⟩
  · exact ⟨trivial, trivial⟩
  · exact ⟨trivial, trivial⟩
  · exact ⟨⟨(reach_lt hg.1 hr).2, hg.2⟩, mayFollow_of_ordered hlt.le ho⟩

/-- So does a mark that passes. -/
theorem settled_passed {rest : U32String} (hg : Settled T g) (hf : MayFollow T g (m :: rest))
    (hm : fullDecomp T m = [m]) (h : g.next T m = .passed g')
    (ho : Ordered (getCcc T) (m :: rest)) : Settled T g' ∧ MayFollow T g' rest := by
  obtain ⟨c, marks, previousCcc, rfl, -, h0, rfl⟩ := next_passed h
  have hle : previousCcc ≤ getCcc T m := (hf m rfl).resolve_left h0
  refine ⟨⟨hg.1, fun k hk => ?_⟩, mayFollow_of_ordered le_rfl ho⟩
  rcases List.mem_append.mp hk with hk | hk
  · obtain ⟨hk, hk0, hkle⟩ := hg.2 k hk
    exact ⟨hk, hk0, hkle.trans hle⟩
  · obtain rfl := List.mem_singleton.mp hk
    exact ⟨hm, h0, le_rfl⟩

/-- **A run of the machine keeps the decomposition.** -/
theorem same_composeFrom (hh : HangulApart T) (hp : PairsDecompose T) {rest : U32String}
    (hg : Settled T g) (hf : MayFollow T g rest) (ho : Ordered (getCcc T) rest)
    (hrest : ∀ k ∈ rest, fullDecomp T k = [k]) :
    Same (getCcc T) ((composeFrom T g rest).flatMap (fullDecomp T)) (expand T g ++ rest) := by
  induction rest generalizing g with
  | nil =>
    rw [composeFrom, List.append_nil]
    exact Same.refl _
  | cons m rest ih =>
    rw [List.forall_mem_cons] at hrest
    obtain ⟨hm, hrest⟩ := hrest
    rw [composeFrom, List.append_cons]
    rcases h : g.next T m with g' | g' | -
    · obtain ⟨hg', hf'⟩ := settled_absorbed hg h ho
      exact (ih hg' hf' ho.tail hrest).trans
        ((same_absorbed hh hp hg hm h).append (Same.refl rest))
    · obtain ⟨hg', hf'⟩ := settled_passed hg hf hm h ho
      rw [← expand_passed hm h]
      exact ih hg' hf' ho.tail hrest
    · -- the next cluster starts with `m`
      have hstart := ih (settled_start m) (mayFollow_start m rest) ho.tail hrest
      rw [expand_start hm] at hstart
      dsimp only
      rw [List.flatMap_append, List.append_assoc]
      exact (Same.refl _).append hstart

/-- **Composition is undone by decomposition**, for ordered strings of
characters that have no decomposition. -/
theorem decomposeNfc_compose (hh : HangulApart T) (hp : PairsDecompose T) {s : U32String}
    (ho : Ordered (getCcc T) s) (hs : ∀ k ∈ s, fullDecomp T k = [k]) :
    decomposeNfc T (compose T s) = s := by
  rw [decomposeNfc_eq, compose_eq]
  cases s with
  | nil => rfl
  | cons m s =>
    rw [List.forall_mem_cons] at hs
    have h := same_composeFrom hh hp (settled_start m) (mayFollow_start m s) ho.tail hs.2
    rw [expand_start hs.1] at h
    exact h.order_eq.trans (order_of_ordered ho)

theorem decomposeNfc_compose_decomposeNfc (hh : HangulApart T) (hfull : DecompositionsFull T)
    (hp : PairsDecompose T) (s : U32String) :
    decomposeNfc T (compose T (decomposeNfc T s)) = decomposeNfc T s := by
  apply decomposeNfc_compose hh hp
  · rw [decomposeNfc_eq]
    exact ordered_order _
  · exact fun k hk => fullDecomp_of_mem_decomposeNfc hh hfull hk

/-- **Normalization preserves canonical equivalence and is idempotent.** -/
theorem normalize_canonical (hh : HangulApart T) (hfull : DecompositionsFull T)
    (hp : PairsDecompose T) (s : U32String) :
    decomposeNfc T (compose T (decomposeNfc T s)) = decomposeNfc T s ∧
      ∀ r, normalize T s = some r →
        decomposeNfc T r = decomposeNfc T s ∧ normalize T r = some r := by
  have hkeep := decomposeNfc_compose_decomposeNfc hh hfull hp s
  refine ⟨hkeep, fun r h => ?_⟩
  rw [normalize] at h
  split at h
  · cases h
  · rename_i htables
    split at h
    · -- nothing was done
      rename_i hnfc
      obtain rfl := Option.some.inj h
      refine ⟨rfl, ?_⟩
      rw [normalize, if_neg htables, if_pos hnfc]
    · obtain rfl := Option.some.inj h
      refine ⟨hkeep, ?_⟩
      rw [normalize, if_neg htables, hkeep]
      split <;> rfl

/-- A letter and its acute accent. -/
theorem normalize_canonical_small :
    decomposeNfc smallTables [0xE9] = decomposeNfc smallTables [0x65, 0x301] ∧
      normalize smallTables [0xE9] = some [0xE9] :=
  (normalize_canonical small_hangulApart small_decompositionsFull small_pairsDecompose
    [0x65, 0x301]).2 [0xE9] (by decide)

end AdaIdna
