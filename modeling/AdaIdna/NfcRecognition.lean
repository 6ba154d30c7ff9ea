/-
AdaIdna/NfcRecognition.lean

Which normalized strings the check recognises.

`is_already_nfc` is run on what `normalize` returns.  The composing machine
tells what this string looks like: each of its clusters retraces the way it was
made (`Reached`), its first character composes from its own decomposition, and
its marks pass that character.  So the test on single characters always
succeeds (`anyNotNfc_composeFrom`).  The other two fail where composition has
left what they do not expect.  The order of the marks fails exactly where a
starter has absorbed a mark past another one that stays: the class that the
starter now ends in is greater than that of the mark behind it
(`marksInOrder_composeFrom`).  The search for compositions fails exactly where
a starter is left in front of a composite that it composes with
(`absorbs_composeFrom`).

Main result: `isAlreadyNfc_normalize_iff`.
-/
import AdaIdna.NormalForm

namespace AdaIdna

open CanonicalOrder Cluster

variable (T : Tables)

/-! ### What the check does not expect -/

namespace Cluster

/-- The character that a cluster begins with. -/
def head : Cluster → ℕ
  | hangul c => c
  | starter c _ _ => c
  | lone c => c

/-- The marks that have passed it. -/
def marks : Cluster → U32String
  | starter _ marks _ => marks
  | _ => []

/-- The last character of a cluster. -/
def last (g : Cluster) : ℕ := g.marks.getLastD g.head

end Cluster

def Outcome.isAbsorbed : Outcome → Bool
  | .absorbed _ => true
  | _ => false

/-- Does a run of the machine absorb a character past a mark that stays? -/
def absorbsPastFrom : Cluster → U32String → Bool
  | _, [] => false
  | g, m :: rest =>
    match g.next T m with
    | .absorbed g' => !g.marks.isEmpty || absorbsPastFrom g' rest
    | .passed g' => absorbsPastFrom g' rest
    | .closed => absorbsPastFrom (start m) rest

/-- In `s`, a starter composes with a mark past another mark that it does not
compose with. -/
def absorbsPast : U32String → Bool
  | [] => false
  | c :: rest => absorbsPastFrom T (start c) rest

/-- The character that a run makes of the beginning of the cluster. -/
def grown : Cluster → U32String → ℕ
  | g, [] => g.head
  | g, m :: rest =>
    match g.next T m with
    | .absorbed g' => grown g' rest
    | .passed g' => grown g' rest
    | .closed => g.head

/-- Does a run leave a cluster in front of a character that it composes with? -/
def leavesPairFrom : Cluster → U32String → Bool
  | _, [] => false
  | g, m :: rest =>
    match g.next T m with
    | .absorbed g' => leavesPairFrom g' rest
    | .passed g' => leavesPairFrom g' rest
    | .closed => (g.next T (grown T (start m) rest)).isAbsorbed || leavesPairFrom (start m) rest

/-- In `s`, a starter is followed by characters that compose to something that
it composes with. -/
def leavesPair : U32String → Bool
  | [] => false
  | c :: rest => leavesPairFrom T (start c) rest

/-! ### The run behind a cluster -/

/-- The marks pass one cluster, which is then the other. -/
inductive Passes : Cluster → U32String → Cluster → Prop
  | nil (g : Cluster) : Passes g [] g
  | cons {g g' g'' : Cluster} {m : ℕ} {ms : U32String} (h : g.next T m = .passed g')
      (hs : Passes g' ms g'') : Passes g (m :: ms) g''

/-- `c` is what composition makes of its decomposition, which begins with `b`. -/
def Built (b c : ℕ) : Prop :=
  ∃ ms, fullDecomp T c = b :: ms ∧
    ∀ r, composeFrom T (start b) (ms ++ r) = composeFrom T (start c) r

/-- The clusters that the machine reaches in a decomposed string. -/
structure Reached (b : ℕ) (g : Cluster) : Prop where
  settled : Settled T g
  built : Built T b g.head
  passes : Passes T (start g.head) g.marks g
  ordered : Ordered (getCcc T) g.marks

/-- A cluster together with what follows. -/
structure Run (b : ℕ) (g : Cluster) (rest : U32String) : Prop extends Reached T b g where
  mayFollow : MayFollow T g rest
  trailing : g.marks = [] → ∀ m ∈ rest.head?, getCcc T m = 0 ∨ trailingCcc T g.head ≤ getCcc T m
  restOrdered : Ordered (getCcc T) rest
  bare : ∀ k ∈ rest, fullDecomp T k = [k]

variable {T} {b c d m p : ℕ} {g g' : Cluster} {rest : U32String}

theorem head_hangul (c : ℕ) : (hangul c).head = c := rfl

theorem marks_hangul (c : ℕ) : (hangul c).marks = [] := rfl

theorem head_starter (c : ℕ) (ms : U32String) (p : ℤ) : (starter c ms p).head = c := rfl

theorem marks_starter (c : ℕ) (ms : U32String) (p : ℤ) : (starter c ms p).marks = ms := rfl

theorem text_eq (g : Cluster) : g.text = g.head :: g.marks := by
  cases g <;> rfl

theorem head_start (c : ℕ) : (start c).head = c := by
  rw [Cluster.start]
  split
  · rfl
  · split <;> rfl

theorem marks_start (c : ℕ) : (start c).marks = [] := by
  rw [Cluster.start]
  split
  · rfl
  · split <;> rfl

theorem Passes.eq_of_nil (h : Passes T g [] g') : g' = g := by
  cases h
  rfl

theorem Passes.snoc {g g' g'' : Cluster} {ms : U32String} (h : Passes T g ms g')
    (hm : g'.next T m = .passed g'') : Passes T g (ms ++ [m]) g'' := by
  induction h with
  | nil g => exact .cons hm (.nil g'')
  | cons h _ ih => exact .cons h (ih hm)

theorem Passes.absorbsFrom_append {ms : U32String} (h : Passes T g ms g') (r : U32String) :
    absorbsFrom T g (ms ++ r) = absorbsFrom T g' r := by
  induction h with
  | nil g => rfl
  | cons h _ ih =>
    rw [List.cons_append, absorbsFrom, h]
    exact ih

/-- Marks pass a starter too that has no pair with any of them. -/
theorem Passes.of_findPair {ms ms₁ ms₂ : U32String} {p₁ p₂ : ℤ}
    (h : Passes T (starter c ms₁ p₁) ms (starter c ms₂ p₂))
    (hd : ∀ k ∈ ms, findPair T d k = none) :
    Passes T (starter d ms₁ p₁) ms (starter d ms₂ p₂) := by
  induction ms generalizing ms₁ p₁ with
  | nil =>
    cases h
    exact .nil _
  | cons m ms ih =>
    rw [List.forall_mem_cons] at hd
    cases h with
    | cons h hs =>
      obtain ⟨c', ms', p', hg, -, h0, rfl⟩ := next_passed h
      obtain ⟨rfl, rfl, rfl⟩ := Cluster.starter.inj hg
      have hreach : reach T d p₁ m = none := by
        rw [reach, hd.1]
        exact ite_self _
      exact .cons (next_mark hreach h0) (ih hs hd.2)

/-- Only a starter is passed. -/
theorem start_of_passes {ms ms' : U32String} {p : ℤ} (h : Passes T (start c) ms (starter d ms' p)) :
    start c = starter c [] (-1) := by
  rw [Cluster.start] at h ⊢
  split
  · rename_i hc
    rw [if_pos hc] at h
    cases h with
    | cons h _ =>
      obtain ⟨_, _, _, hg, -⟩ := next_passed h
      cases hg
  · rename_i hc
    rw [if_neg hc] at h
    split
    · rfl
    · rename_i hcs
      rw [if_neg hcs] at h
      cases h with
      | cons h _ => cases h

/-! ### A step of the run -/

theorem storedDecomp_of_bare (hfull : DecompositionsFull T) (hm : fullDecomp T m = [m]) :
    storedDecomp T m = [] := by
  by_contra hd
  have hs : ¬ isHangulS m := by
    intro hs
    obtain ⟨l, v, -, -, ⟨h, -⟩ | ⟨t, -, h, -⟩⟩ := hangulDecomp_cases hs <;>
      · rw [fullDecomp_of_hangul hs, h] at hm
        cases hm
  rw [fullDecomp_of_stored hs hd] at hm
  exact hd (hfull m m (by rw [hm]; exact List.mem_singleton_self m))

/-- The class that a bare character ends in is its own. -/
theorem trailingCcc_of_bare (hfull : DecompositionsFull T) (hm : fullDecomp T m = [m]) :
    trailingCcc T m = getCcc T m :=
  if_pos (storedDecomp_eq_nil_iff.mp (storedDecomp_of_bare hfull hm))

/-- What absorbing does to the first character of a cluster: its decomposition
grows by `m`, and it is absorbed by the first character alone. -/
theorem Reached.absorbed_head (hT : GeneratorShape T) (hg : Reached T b g)
    (hm : fullDecomp T m = [m]) (h : g.next T m = .absorbed g') :
    fullDecomp T g'.head = fullDecomp T g.head ++ [m] ∧
      (start g.head).next T m = .absorbed (start g'.head) ∧ getCcc T g'.head = 0 ∧
      g'.marks = g.marks := by
  rcases next_absorbed h with ⟨c, rfl, hl, hv, rfl⟩ | ⟨c, rfl, hs, h0, ht, rfl⟩ |
    ⟨c, marks, previousCcc, d, rfl, hlt, hr, rfl⟩
  · have hs := (isHangulS_syllable hl hv).1
    rw [head_hangul, head_hangul, marks_hangul, marks_hangul]
    refine ⟨?_, ?_, hT.hangul.ccc _ (Or.inl hs), rfl⟩
    · rw [fullDecomp_of_hangul hs, hangulDecomp_syllable hl hv,
        hT.hangul.fullDecomp_jamo (Or.inl hl)]
      rfl
    · rw [start_of_hangul (Or.inl hl), start_of_hangul (Or.inr hs), next_vowel hl hv]
  · obtain ⟨hs', hd⟩ := hangulDecomp_trailing hs h0 ht
    rw [head_hangul, head_hangul, marks_hangul, marks_hangul]
    refine ⟨?_, ?_, hT.hangul.ccc _ (Or.inl hs'), rfl⟩
    · rw [fullDecomp_of_hangul hs', fullDecomp_of_hangul hs, hd]
    · rw [start_of_hangul (Or.inr hs), start_of_hangul (Or.inr hs'), next_trailing hs h0 ht]
  · obtain ⟨hpair, hd⟩ := reach_lt hg.settled.1 hr
    have hfind : findPair T c m = some d := (findPair_eq_some_iff hg.settled.1).mpr hpair
    have hreach : reach T c (-1) m = some d := by
      rw [reach, if_pos (by omega), hfind]
    have hpasses := hg.passes
    rw [head_starter, marks_starter] at hpasses
    rw [head_starter, head_starter]
    refine ⟨fullDecomp_composite hT.hangul hT.decompose hpair hm, ?_, (hT.starters c m d hpair).2,
      rfl⟩
    rw [start_of_passes hpasses, start_of_not_hangul hd (hT.hangul.not_pair c m d hpair).2.2,
      next_reached hreach]

/-- What is absorbed past the marks has a greater class than each of them. -/
theorem Reached.marks_lt (hg : Reached T b g) (h : g.next T m = .absorbed g') :
    ∀ k ∈ g.marks, getCcc T k < getCcc T m := by
  intro k hk
  rcases next_absorbed h with ⟨c, rfl, -⟩ | ⟨c, rfl, -⟩ |
    ⟨c, marks, previousCcc, d, rfl, hlt, -, -⟩
  · cases hk
  · cases hk
  · have := (hg.settled.2 k hk).2.2
    omega

/-- The marks pass the composite as well: it has no pair with one of them, as
the decomposition of the pair would not be in order. -/
theorem Reached.passes_absorbed (hT : GeneratorShape T) (hg : Reached T b g)
    (hm : fullDecomp T m = [m]) (h : g.next T m = .absorbed g') :
    Passes T (start g'.head) g'.marks g' := by
  have hclass := hg.marks_lt h
  obtain ⟨hdecomp, hstart, -, -⟩ := hg.absorbed_head hT hm h
  rcases next_absorbed h with ⟨c, rfl, hl, hv, rfl⟩ | ⟨c, rfl, hs, h0, ht, rfl⟩ |
    ⟨c, marks, previousCcc, d, rfl, hlt, hr, rfl⟩
  · rw [head_hangul, marks_hangul, start_of_hangul (Or.inr (isHangulS_syllable hl hv).1)]
    exact .nil _
  · rw [head_hangul, marks_hangul, start_of_hangul (Or.inr (hangulDecomp_trailing hs h0 ht).1)]
    exact .nil _
  · obtain ⟨hpair, hd⟩ := reach_lt hg.settled.1 hr
    have hpasses := hg.passes
    rw [head_starter, marks_starter] at hpasses
    rw [start_of_passes hpasses] at hpasses
    rw [head_starter, head_starter] at hdecomp
    rw [head_starter, marks_starter,
      start_of_not_hangul hd (hT.hangul.not_pair c m d hpair).2.2]
    refine hpasses.of_findPair fun k hk => ?_
    rw [Option.eq_none_iff_forall_ne_some]
    intro z hz
    obtain ⟨hkdecomp, hk0, -⟩ := hg.settled.2 k hk
    have hzpair := (findPair_eq_some_iff hd).mp hz
    -- the decomposition of `z` ends in `m` and `k`
    have hstored : storedDecomp T z = fullDecomp T c ++ [m, k] := by
      rw [hT.decompose d k z hzpair, hkdecomp, hdecomp, List.append_assoc]
      rfl
    have hordered := hT.ordered z
    rw [hstored] at hordered
    rcases (List.isChain_pair.mp (List.isChain_append.mp hordered).2.1) with h0 | hle
    · exact hk0 h0
    · exact absurd hle (not_le.mpr (hclass k hk))

/-- A cluster that has absorbed a character ends in its class. -/
theorem Reached.trailingCcc_absorbed (hT : GeneratorShape T) (hg : Reached T b g)
    (hm : fullDecomp T m = [m]) (h : g.next T m = .absorbed g') :
    trailingCcc T g'.head = getCcc T m := by
  have hdecomp := (hg.absorbed_head hT hm h).1
  refine (getLast_fullDecomp hT.hangul g'.head m ?_).symm
  rw [hdecomp, List.getLast?_append, List.getLast?_singleton]
  rfl

theorem Reached.built_absorbed (hT : GeneratorShape T) (hg : Reached T b g)
    (hm : fullDecomp T m = [m]) (h : g.next T m = .absorbed g') : Built T b g'.head := by
  obtain ⟨ms, hms, hback⟩ := hg.built
  obtain ⟨hdecomp, hstart, -, -⟩ := hg.absorbed_head hT hm h
  refine ⟨ms ++ [m], by rw [hdecomp, hms]; rfl, fun r => ?_⟩
  rw [List.append_assoc, List.singleton_append, hback, composeFrom_absorbed hstart]

/-- What follows a character in an ordered string. -/
theorem follows_of_ordered (ho : Ordered (getCcc T) (m :: rest)) :
    ∀ k ∈ rest.head?, getCcc T k = 0 ∨ getCcc T m ≤ getCcc T k :=
  (List.isChain_cons.mp ho).1

/-- **The run begins**, -/
theorem run_start (hT : GeneratorShape T) (hm : fullDecomp T m = [m])
    (ho : Ordered (getCcc T) (m :: rest)) (hrest : ∀ k ∈ rest, fullDecomp T k = [k]) :
    Run T m (start m) rest where
  settled := settled_start m
  built := by
    rw [head_start]
    exact ⟨[], hm, fun r => rfl⟩
  passes := by
    rw [head_start, marks_start]
    exact .nil _
  ordered := by
    rw [marks_start]
    exact List.isChain_nil
  mayFollow := mayFollow_start m rest
  trailing _ := by
    rw [head_start, trailingCcc_of_bare hT.full hm]
    exact follows_of_ordered ho
  restOrdered := ho.tail
  bare := hrest

/-- a character is absorbed, -/
theorem Run.absorbed (hT : GeneratorShape T) (hg : Run T b g (m :: rest))
    (h : g.next T m = .absorbed g') : Run T b g' rest where
  settled := (settled_absorbed hg.settled h hg.restOrdered).1
  built := hg.built_absorbed hT (hg.bare m List.mem_cons_self) h
  passes := hg.passes_absorbed hT (hg.bare m List.mem_cons_self) h
  ordered := by
    rw [(hg.absorbed_head hT (hg.bare m List.mem_cons_self) h).2.2.2]
    exact hg.ordered
  mayFollow := (settled_absorbed hg.settled h hg.restOrdered).2
  trailing _ := by
    rw [hg.trailingCcc_absorbed hT (hg.bare m List.mem_cons_self) h]
    exact follows_of_ordered hg.restOrdered
  restOrdered := hg.restOrdered.tail
  bare k hk := hg.bare k (List.mem_cons_of_mem m hk)

/-- a mark passes, -/
theorem Run.passed (hg : Run T b g (m :: rest)) (h : g.next T m = .passed g') :
    Run T b g' rest := by
  obtain ⟨hsettled, hfollow⟩ := settled_passed hg.settled hg.mayFollow
    (hg.bare m List.mem_cons_self) h hg.restOrdered
  have hmay := hg.mayFollow
  have hpasses := hg.passes.snoc h
  obtain ⟨c, marks, previousCcc, rfl, hr, h0, rfl⟩ := next_passed h
  have hle : previousCcc ≤ getCcc T m := (hmay m rfl).resolve_left h0
  have hordered : Ordered (getCcc T) (marks ++ [m]) := by
    refine List.isChain_append.mpr ⟨hg.ordered, List.isChain_singleton m, fun x hx y hy => ?_⟩
    obtain rfl := Option.some.inj hy
    have := (hg.settled.2 x (List.mem_of_getLast? hx)).2.2
    exact Or.inr (by omega)
  refine ⟨⟨hsettled, hg.built, hpasses, hordered⟩, hfollow, fun hnil => ?_, hg.restOrdered.tail,
    fun k hk => hg.bare k (List.mem_cons_of_mem m hk)⟩
  exact absurd hnil (List.append_ne_nil_of_right_ne_nil marks (List.cons_ne_nil m []))

/-- or the next cluster begins. -/
theorem Run.closed (hT : GeneratorShape T) (hg : Run T b g (m :: rest)) :
    Run T m (start m) rest :=
  run_start hT (hg.bare m List.mem_cons_self) hg.restOrdered
    fun k hk => hg.bare k (List.mem_cons_of_mem m hk)

/-- The decomposed string is one that the machine runs on. -/
theorem run_decomposeNfc (hT : GeneratorShape T) {s : U32String}
    (h : decomposeNfc T s = c :: rest) : Run T c (start c) rest := by
  have hordered : Ordered (getCcc T) (decomposeNfc T s) := by
    rw [decomposeNfc_eq]
    exact ordered_order _
  have hbare : ∀ k ∈ decomposeNfc T s, fullDecomp T k = [k] :=
    fun k hk => fullDecomp_of_mem_decomposeNfc hT.hangul hT.full hk
  rw [h] at hordered hbare
  rw [List.forall_mem_cons] at hbare
  exact run_start hT hbare.1 hordered hbare.2

/-! ### The test on single characters -/

theorem decompositionIsNotNfc_of_bare (hs : ¬ isHangulS c) (hd : storedDecomp T c = []) :
    decompositionIsNotNfc T p c = false := by
  rw [decompositionIsNotNfc, if_neg hs]
  by_cases hc : codeSpace ≤ c
  · rw [if_pos hc]
  · have hlen := storedDecomp_eq_nil_iff.mp hd
    rw [canonicalDecompLength, if_neg hs, if_neg hc, tableDecompLength] at hlen
    rw [if_neg hc]
    exact if_pos (by split at hlen <;> omega)

/-- A character that composition has made of its decomposition passes the test,
if nothing composes with the beginning of the decomposition. -/
theorem decompositionIsNotNfc_of_built (hT : GeneratorShape T) (hb : Built T b c)
    (hp : p < codeSpace → findPair T p b = none) : decompositionIsNotNfc T p c = false := by
  by_cases hs : isHangulS c
  · rw [decompositionIsNotNfc, if_pos hs]
  · by_cases hd : storedDecomp T c = []
    · exact decompositionIsNotNfc_of_bare hs hd
    · have hc : c < codeSpace := lt_of_storedDecomp hs hd
      obtain ⟨ms, hms, hback⟩ := hb
      rw [fullDecomp_of_stored hs hd] at hms
      have hcompose : compose T (storedDecomp T c) = [c] := by
        rw [hms, compose_eq, composeText, ← List.append_nil ms, hback, composeFrom, text_start]
      have hone : (storedDecomp T c).length ≠ 1 := by
        intro h1
        obtain ⟨x, hx⟩ := List.length_eq_one_iff.mp h1
        rw [hx, compose_eq, composeText, composeFrom, text_start] at hcompose
        obtain rfl := List.singleton_inj.mp hcompose
        exact hd (hT.full x x (by rw [hx]; exact List.mem_singleton_self x))
      have hhead : T.decompositionData (T.decomposition c 0 / 4) = b := by
        have := head?_storedDecomp hd
        rw [hms] at this
        exact (Option.some.inj this).symm
      rw [decompositionIsNotNfc_stored hs hc hd, if_neg hone, hcompose, hhead, hasComposition_eq]
      by_cases hlt : p < codeSpace
      · rw [hp hlt]
        simp
      · simp [hlt]

/-- The marks of a cluster pass the test. -/
theorem anyNotNfc_marks {ms : U32String} (h : ∀ k ∈ ms, ¬ isHangulS k ∧ storedDecomp T k = [])
    (r : U32String) : anyNotNfc T p (ms ++ r) = anyNotNfc T (ms.getLastD p) r := by
  induction ms generalizing p with
  | nil => rfl
  | cons k ms ih =>
    rw [List.forall_mem_cons] at h
    rw [List.cons_append, anyNotNfc, decompositionIsNotNfc_of_bare h.1.1 h.1.2, Bool.false_or,
      ih h.2, List.getLastD_cons]

/-- The marks of a cluster have no decomposition. -/
theorem Reached.bare_marks (hg : Reached T b g) :
    ∀ k ∈ g.marks, fullDecomp T k = [k] ∧ getCcc T k ≠ 0 := by
  intro k hk
  cases g with
  | starter c ms previousCcc =>
    obtain ⟨hbare, h0, -⟩ := hg.settled.2 k hk
    exact ⟨hbare, h0⟩
  | hangul c => cases hk
  | lone c => cases hk

/-- What closes a cluster has no pair with its last character. -/
theorem Reached.findPair_last (hT : GeneratorShape T) (hg : Reached T b g)
    (h : g.next T m = .closed) (hlt : g.last < codeSpace) : findPair T g.last m = none := by
  rcases hms : g.marks with - | ⟨k, ms⟩
  · -- the cluster is as it began
    have hlast : g.last = g.head := by rw [last, hms, List.getLastD_nil]
    have hstart : g = start g.head := (hms ▸ hg.passes).eq_of_nil
    rw [hlast] at hlt ⊢
    rw [hstart] at h
    by_cases hh : isHangulL g.head ∨ isHangulS g.head
    · rw [Option.eq_none_iff_forall_ne_some]
      intro z hz
      apply (hT.hangul.not_pair _ _ _ ((findPair_eq_some_iff hlt).mp hz)).1
      exact hh.elim (fun hl => Or.inr (Or.inl hl)) Or.inl
    · rw [not_or] at hh
      rw [start_of_starter hh.1 hh.2 hlt] at h
      rcases hr : reach T g.head (-1) m with - | z
      · rw [reach, if_pos (by omega)] at hr
        exact hr
      · rw [next_reached hr] at h
        cases h
  · -- a mark is the first of no pair
    have hmem : g.last ∈ g.marks := by
      rw [last, hms, List.getLastD_cons]
      exact List.getLastD_mem_cons
    rw [Option.eq_none_iff_forall_ne_some]
    intro z hz
    exact (hg.bare_marks _ hmem).2 (hT.starters _ _ _ ((findPair_eq_some_iff hlt).mp hz)).1

/-- **The test on single characters succeeds.** -/
theorem anyNotNfc_composeFrom (hT : GeneratorShape T) (hg : Run T b g rest)
    (hp : p < codeSpace → findPair T p b = none) :
    anyNotNfc T p (composeFrom T g rest) = false := by
  have htext : ∀ (b p : ℕ) (g : Cluster) (r : U32String), Reached T b g →
      (p < codeSpace → findPair T p b = none) →
      anyNotNfc T p (g.text ++ r) = anyNotNfc T g.last r := by
    intro b p g r hg hp
    rw [text_eq, List.cons_append, anyNotNfc, decompositionIsNotNfc_of_built hT hg.built hp,
      Bool.false_or, anyNotNfc_marks, last]
    intro k hk
    obtain ⟨hbare, h0⟩ := hg.bare_marks k hk
    exact ⟨fun hs => h0 (hT.hangul.ccc k (Or.inl hs)), storedDecomp_of_bare hT.full hbare⟩
  induction rest generalizing b g p with
  | nil =>
    have := htext b p g [] hg.toReached hp
    rwa [List.append_nil] at this
  | cons m rest ih =>
    rw [composeFrom]
    rcases h : g.next T m with g' | g' | -
    · exact ih (hg.absorbed hT h) hp
    · exact ih (hg.passed h) hp
    · exact (htext b p g _ hg.toReached hp).trans
        (ih (hg.closed hT) (hg.findPair_last hT h))

/-! ### The order of the marks -/

variable (T) in
/-- The first character of a cluster does not end in a greater class than its
first mark has. -/
def HeadInOrder (g : Cluster) : Prop := ∀ k ∈ g.marks.head?, trailingCcc T g.head ≤ getCcc T k

/-- The marks of a cluster pass the test if the first one does. -/
theorem marksInOrder_marks (hT : GeneratorShape T) {ms : U32String}
    (h : ∀ k ∈ ms, fullDecomp T k = [k] ∧ getCcc T k ≠ 0) (ho : Ordered (getCcc T) ms)
    (r : U32String) :
    marksInOrder T (trailingCcc T p) (ms ++ r) = true ↔
      (∀ k ∈ ms.head?, trailingCcc T p ≤ getCcc T k) ∧
        marksInOrder T (trailingCcc T (ms.getLastD p)) r = true := by
  induction ms generalizing p with
  | nil => simp
  | cons k ms ih =>
    rw [List.forall_mem_cons] at h
    have hnext : ∀ k' ∈ ms.head?, trailingCcc T k ≤ getCcc T k' := by
      intro k' hk'
      rw [trailingCcc_of_bare hT.full h.1.1]
      exact (follows_of_ordered ho k' hk').resolve_left (h.2 k' (List.mem_of_mem_head? hk')).2
    rw [List.cons_append, marksInOrder, List.getLastD_cons]
    by_cases hle : trailingCcc T p ≤ getCcc T k
    · rw [if_neg (fun hlt => absurd hle (not_le.mpr hlt.2)), ih h.2 ho.tail, and_iff_right hnext]
      simp [hle]
    · rw [if_pos ⟨h.1.2, not_le.mp hle⟩]
      simp [hle]

/-- A mark closes a cluster that ends in class 0. -/
theorem Reached.trailing_last (hT : GeneratorShape T) (hg : Reached T b g)
    (h : g.next T m = .closed) : getCcc T m = 0 ∨ trailingCcc T g.last ≤ getCcc T m := by
  refine or_iff_not_imp_left.mpr fun h0 => ?_
  suffices hzero : trailingCcc T g.last = 0 by
    rw [hzero]
    exact Nat.zero_le _
  cases g with
  | starter c ms previousCcc =>
    exfalso
    rcases hr : reach T c previousCcc m with - | d
    · rw [next_mark hr h0] at h
      cases h
    · rw [next_reached hr] at h
      cases h
  | hangul c =>
    show trailingCcc T c = 0
    have hstart : hangul c = start c := hg.passes.eq_of_nil
    rw [Cluster.start] at hstart
    split at hstart
    · rename_i hc
      have hlen : canonicalDecompLength T c = 0 := by
        rcases hc with hl | hs
        · exact storedDecomp_eq_nil_iff.mp (hT.hangul.stored c (Or.inl hl))
        · exact if_pos hs
      rw [trailingCcc, if_pos hlen]
      exact hT.hangul.ccc c (hc.elim (fun hl => Or.inr (Or.inl hl)) Or.inl)
    · split at hstart <;> cases hstart
  | lone c =>
    show trailingCcc T c = 0
    have hstart : lone c = start c := hg.passes.eq_of_nil
    rw [Cluster.start] at hstart
    split at hstart
    · cases hstart
    · rename_i hc
      split at hstart
      · cases hstart
      · rename_i hcs
        have hlen : canonicalDecompLength T c = 0 := by
          rw [canonicalDecompLength, if_neg (fun hs => hc (Or.inr hs)), if_pos (not_lt.mp hcs)]
        rw [trailingCcc, if_pos hlen]
        exact if_pos (not_lt.mp hcs)

/-- **The test of the marks** fails where one is absorbed past another. -/
theorem marksInOrder_composeFrom (hT : GeneratorShape T) {previousCcc : ℕ}
    (hg : Run T b g rest) (hp : getCcc T g.head = 0 ∨ previousCcc ≤ getCcc T g.head) :
    marksInOrder T previousCcc (composeFrom T g rest) = true ↔
      HeadInOrder T g ∧ absorbsPastFrom T g rest = false := by
  have htext : ∀ (b : ℕ) (g : Cluster) (q : ℕ) (r : U32String), Reached T b g →
      (getCcc T g.head = 0 ∨ q ≤ getCcc T g.head) →
      (marksInOrder T q (g.text ++ r) = true ↔
        HeadInOrder T g ∧ marksInOrder T (trailingCcc T g.last) r = true) := by
    intro b g q r hg hq
    rw [text_eq, List.cons_append, marksInOrder, if_neg (fun h => by omega),
      marksInOrder_marks hT hg.bare_marks hg.ordered]
    exact Iff.rfl
  induction rest generalizing b g previousCcc with
  | nil =>
    have := htext b g previousCcc [] hg.toReached hp
    rw [List.append_nil] at this
    rw [composeFrom, this]
    simp [marksInOrder, absorbsPastFrom]
  | cons m rest ih =>
    rw [composeFrom, absorbsPastFrom]
    rcases h : g.next T m with g' | g' | -
    · obtain ⟨-, -, h0, hmarks⟩ := hg.absorbed_head hT (hg.bare m List.mem_cons_self) h
      have htrailing := hg.trailingCcc_absorbed hT (hg.bare m List.mem_cons_self) h
      have hlt := hg.marks_lt h
      have hnext := @ih b g' previousCcc (hg.absorbed hT h) (Or.inl h0)
      dsimp only
      apply Iff.trans hnext
      rw [HeadInOrder, HeadInOrder, hmarks, htrailing]
      rcases hms : g.marks with - | ⟨k, ms⟩
      · simp
      · -- the class of `m` is hidden in front of a mark of a lower class
        rw [hms] at hlt
        have := hlt k List.mem_cons_self
        simp [this]
    · obtain ⟨c, ms, q, rfl, -, h0, rfl⟩ := next_passed h
      have hnext := @ih b _ previousCcc (hg.passed h) hp
      dsimp only
      refine hnext.trans (and_congr_left fun _ => ?_)
      rcases ms with - | ⟨k, ms⟩
      · have := (hg.trailing rfl m rfl).resolve_left h0
        simpa [HeadInOrder, marks, Cluster.head] using this
      · exact Iff.rfl
    · have hstart : HeadInOrder T (start m) := by
        rw [HeadInOrder, marks_start]
        exact fun k hk => by cases hk
      have hnext := @ih m (start m) (trailingCcc T g.last) (hg.closed hT)
        (by rw [head_start]; exact hg.trailing_last hT h)
      dsimp only
      refine (htext b g previousCcc _ hg.toReached hp).trans (and_congr_right fun _ => ?_)
      exact hnext.trans (and_iff_right hstart)

/-! ### The search for compositions -/

/-- What a run makes of the first character, and what follows it. -/
theorem composeFrom_eq_cons (g : Cluster) (rest : U32String) :
    ∃ r, composeFrom T g rest = grown T g rest :: r := by
  induction rest generalizing g with
  | nil => exact ⟨g.marks, text_eq g⟩
  | cons m rest ih =>
    rw [composeFrom, grown]
    rcases g.next T m with g' | g' | -
    · exact ih g'
    · exact ih g'
    · exact ⟨g.marks ++ composeFrom T (start m) rest, by rw [text_eq]; rfl⟩

/-- The first character stays, or becomes a character of class 0. -/
theorem grown_spec (hT : GeneratorShape T) (hg : Run T b g rest) :
    Built T b (grown T g rest) ∧ (grown T g rest = g.head ∨ getCcc T (grown T g rest) = 0) := by
  induction rest generalizing g with
  | nil => exact ⟨hg.built, Or.inl rfl⟩
  | cons m rest ih =>
    rw [grown]
    rcases h : g.next T m with g' | g' | -
    · obtain ⟨-, -, h0, -⟩ := hg.absorbed_head hT (hg.bare m List.mem_cons_self) h
      obtain ⟨hbuilt, hhead⟩ := ih (hg.absorbed hT h)
      refine ⟨hbuilt, Or.inr ?_⟩
      rcases hhead with hhead | hzero
      · dsimp only
        rw [hhead, h0]
      · exact hzero
    · have hnext := ih (hg.passed h)
      obtain ⟨c, ms, q, rfl, -, -, rfl⟩ := next_passed h
      exact hnext
    · exact ⟨hg.built, Or.inl rfl⟩

/-- **The search for compositions** finds one where a starter is left in front
of a composite that it composes with. -/
theorem absorbs_composeFrom (hT : GeneratorShape T) (hg : Run T b g rest) :
    absorbs T (composeFrom T g rest) = leavesPairFrom T g rest := by
  have htext : ∀ (b : ℕ) (g : Cluster) (r : U32String), Reached T b g →
      absorbs T (g.text ++ r) = absorbsFrom T g r := by
    intro b g r hg
    rw [text_eq, List.cons_append, absorbs, hg.passes.absorbsFrom_append]
  induction rest generalizing b g with
  | nil =>
    have := htext b g [] hg.toReached
    rwa [List.append_nil] at this
  | cons m rest ih =>
    rw [composeFrom, leavesPairFrom]
    rcases h : g.next T m with g' | g' | -
    · exact ih (hg.absorbed hT h)
    · exact ih (hg.passed h)
    · have hclosed := hg.closed hT
      obtain ⟨-, hgrown⟩ := grown_spec hT hclosed
      have hnext := ih hclosed
      obtain ⟨r, hr⟩ := composeFrom_eq_cons (T := T) (start m) rest
      dsimp only
      rw [htext b g _ hg.toReached, ← hnext, hr, absorbsFrom]
      rcases hd : g.next T (grown T (start m) rest) with g'' | g'' | -
      · rfl
      · -- only a mark passes, and `m` has not passed
        exfalso
        obtain ⟨-, -, -, -, -, h0, -⟩ := next_passed hd
        rw [hgrown.resolve_right h0, head_start, h] at hd
        cases hd
      · rfl

/-- With pairs whose second character has no decomposition, as Unicode has
them, no such starter is left. -/
theorem leavesPairFrom_eq_false (hT : GeneratorShape T)
    (hsecond : ∀ a b c, IsPair T a b c → fullDecomp T b = [b]) (hg : Run T b g rest) :
    leavesPairFrom T g rest = false := by
  induction rest generalizing b g with
  | nil => rfl
  | cons m rest ih =>
    rw [leavesPairFrom]
    rcases h : g.next T m with g' | g' | -
    · exact ih (hg.absorbed hT h)
    · exact ih (hg.passed h)
    · have hclosed := hg.closed hT
      obtain ⟨⟨ms, hms, -⟩, -⟩ := grown_spec hT hclosed
      dsimp only
      rw [ih hclosed, Bool.or_false]
      generalize grown T (start m) rest = d at hms ⊢
      rcases hd : g.next T d with g'' | g'' | -
      · -- what is absorbed is bare, so it is `m`
        exfalso
        have hbare : fullDecomp T d = [d] := by
          rcases next_absorbed hd with ⟨c, -, -, hv, -⟩ | ⟨c, -, -, -, ht, -⟩ |
            ⟨c, marks, previousCcc, z, rfl, -, hr, -⟩
          · exact hT.hangul.fullDecomp_jamo (Or.inr (Or.inl hv))
          · exact hT.hangul.fullDecomp_jamo (Or.inr (Or.inr ht))
          · exact hsecond c d z (reach_lt hg.settled.1 hr).1
        rw [hbare] at hms
        rw [(List.cons.inj hms).1, h] at hd
        cases hd
      · rfl
      · rfl

theorem leavesPair_eq_false (hT : GeneratorShape T)
    (hsecond : ∀ a b c, IsPair T a b c → fullDecomp T b = [b]) (s : U32String) :
    leavesPair T (decomposeNfc T s) = false := by
  rcases h : decomposeNfc T s with - | ⟨c, t⟩
  · rfl
  · exact leavesPairFrom_eq_false hT hsecond (run_decomposeNfc hT h)

/-! ### Which strings are recognised -/

theorem isAlreadyNfc_nfc_iff (hT : GeneratorShape T) (htables : T.ensureTables = true)
    (s : U32String) :
    isAlreadyNfc T (nfc T s) = true ↔
      absorbsPast T (decomposeNfc T s) = false ∧ leavesPair T (decomposeNfc T s) = false := by
  rw [nfc, compose_eq]
  rcases ht : decomposeNfc T s with - | ⟨c, t⟩
  · exact ⟨fun _ => ⟨rfl, rfl⟩, fun _ => rfl⟩
  · have hrun := run_decomposeNfc hT ht
    have hchars : anyNotNfc T codeSpace (composeFrom T (start c) t) = false :=
      anyNotNfc_composeFrom hT hrun fun hlt => absurd hlt (lt_irrefl _)
    have hmarks : marksInOrder T 0 (composeFrom T (start c) t) = true ↔ _ :=
      marksInOrder_composeFrom hT hrun (Or.inr (Nat.zero_le _))
    have hstart : HeadInOrder T (start c) := by
      rw [HeadInOrder, marks_start]
      exact fun k hk => by cases hk
    obtain ⟨x, hx⟩ := composeFrom_eq_cons (T := T) (start c) t
    rw [and_iff_right hstart] at hmarks
    rw [composeText, absorbsPast, leavesPair, ← hmarks, ← absorbs_composeFrom hT hrun,
      isAlreadyNfc, if_neg (by rw [hx]; simp), htables, hchars, wouldCompose_eq]
    rcases marksInOrder T 0 (composeFrom T (start c) t) with - | - <;>
      simp

theorem eq_nfc_of_normalize (hT : GeneratorShape T) {s r : U32String}
    (h : normalize T s = some r) : T.ensureTables = true ∧ r = nfc T s := by
  have htables : T.ensureTables = true := by
    rw [normalize] at h
    by_contra hnot
    rw [if_pos (by simpa using hnot)] at h
    cases h
  rw [normalize_eq_nfc hT htables] at h
  exact ⟨htables, (Option.some.inj h).symm⟩

/-- **The check recognises a normalized string** exactly if nothing is absorbed
past a mark that stays, and no starter is left in front of a composite that it
composes with. -/
theorem isAlreadyNfc_normalize_iff (hT : GeneratorShape T) {s r : U32String}
    (h : normalize T s = some r) :
    isAlreadyNfc T r = true ↔
      absorbsPast T (decomposeNfc T s) = false ∧ leavesPair T (decomposeNfc T s) = false := by
  obtain ⟨htables, rfl⟩ := eq_nfc_of_normalize hT h
  exact isAlreadyNfc_nfc_iff hT htables s

/-- With Unicode's pairs only the marks matter. -/
theorem isAlreadyNfc_normalize_iff_absorbsPast (hT : GeneratorShape T)
    (hsecond : ∀ a b c, IsPair T a b c → fullDecomp T b = [b]) {s r : U32String}
    (h : normalize T s = some r) :
    isAlreadyNfc T r = true ↔ absorbsPast T (decomposeNfc T s) = false := by
  obtain ⟨htables, rfl⟩ := eq_nfc_of_normalize hT h
  exact (isAlreadyNfc_nfc_iff hT htables s).trans
    (and_iff_left (leavesPair_eq_false hT hsecond s))

/-- `e` and an acute accent. -/
theorem isAlreadyNfc_normalize_iff_small :
    isAlreadyNfc smallTables [0xE9] = true ↔
      absorbsPast smallTables (decomposeNfc smallTables [0x65, 0x301]) = false ∧
        leavesPair smallTables (decomposeNfc smallTables [0x65, 0x301]) = false :=
  isAlreadyNfc_normalize_iff small_generatorShape (by decide)

theorem below_generatorShape : GeneratorShape belowTables where
  hangul :=
    { ccc := fun c hc => by
        rw [below_getCcc]
        unfold isHangulS isJamo isHangulL isHangulV isHangulT hangulSbase hangulLbase hangulVbase
          hangulTbase at hc
        rw [if_neg (by omega), if_neg (by omega)]
      stored := small_hangulApart.stored
      not_mem := small_hangulApart.not_mem
      not_pair := small_hangulApart.not_pair }
  full := small_decompositionsFull
  ordered c := by
    show Ordered (getCcc belowTables) (storedDecomp smallTables c)
    rw [small_storedDecomp]
    split
    · refine List.isChain_pair.mpr (Or.inr ?_)
      rw [below_getCcc, below_getCcc]
      decide
    · exact List.isChain_nil
  starters a b c h := by
    obtain ⟨rfl, rfl, rfl⟩ := small_isPair h
    rw [below_getCcc, below_getCcc]
    decide
  decompose := small_pairsDecompose

/-- In `e` with a grave accent below and an acute accent, the acute accent is
absorbed past the other one; what is left, `é` with the grave accent below, is
not recognised. -/
theorem normalize_not_recognised :
    GeneratorShape belowTables ∧
      normalize belowTables [0x65, 0x316, 0x301] = some [0xE9, 0x316] ∧
      isAlreadyNfc belowTables [0xE9, 0x316] = false :=
  ⟨below_generatorShape, by decide, by decide⟩

end AdaIdna
