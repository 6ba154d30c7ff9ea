/-
AdaIdna/Composition.lean

What `compose` and `would_compose` compute.

The loops of `compose` are replaced by a machine that reads one character at a
time.  Its state is a `Cluster`: the characters at the end of the output that a
later character can still change.  The next character is absorbed by the
group, passes it as one of its marks, or closes it and starts the next one
(`Cluster.next`).  `composeText` runs the machine, and `compose_eq` says that
the in-place loops with their two indices do the same; `wouldCompose_eq` says
that `would_compose` asks whether anything is absorbed on the way.

A group looks pairs up with `findPair`, the binary search in one composition
row; `findPair_eq_some_iff` says that it finds exactly the pairs of the row.
-/
import AdaIdna.Normalization
import AdaIdna.Lib.Buffer

namespace AdaIdna

variable (T : Tables)

/-! ### The pairs of the composition table -/

/-- The row of `a` holds the pair of `b` and the composite `c`. -/
def IsPair (a b c : ℕ) : Prop :=
  a < codeSpace ∧ ∃ k, T.composition a 0 + 2 * k + 1 < T.composition a 1 ∧
    T.compositionData (T.composition a 0 + 2 * k) = b ∧
    T.compositionData (T.composition a 0 + 2 * k + 1) = c

/-- The search that `has_composition` and `compose` make in a row. -/
def findPair (a b : ℕ) : Option ℕ :=
  let left := T.composition a 0
  let right := T.composition a 1
  if right ≤ left ∨ T.compositionDataSize < right then none
  else
    let left := searchPair T b (right - left) left right
    if left + 1 < T.compositionDataSize ∧ T.compositionData left = b then
      some (T.compositionData (left + 1))
    else none

variable {T} {a b c : ℕ}

theorem hasComposition_eq (a b : ℕ) : hasComposition T a b = (findPair T a b).isSome := by
  rw [hasComposition, findPair]
  dsimp only
  split
  · rfl
  · split
    · rename_i h
      simp [h.1, h.2]
    · rename_i h
      simpa using h

/-- The row of a code point is strictly sorted. -/
theorem composition_lt (ha : a < codeSpace) {k l : ℕ} (hkl : k < l)
    (hl : T.composition a 0 + 2 * l < T.composition a 1) :
    T.compositionData (T.composition a 0 + 2 * k)
      < T.compositionData (T.composition a 0 + 2 * l) := by
  induction l, hkl using Nat.le_induction with
  | base => exact T.composition_sorted a ha k (by omega)
  | succ l hle ih =>
    exact (ih (by omega)).trans (T.composition_sorted a ha l (by omega))

/-- The middle the search takes is the middle pair of the borders. -/
theorem searchPair_middle (c i j : ℕ) :
    c + 2 * i + (c + 2 * j - (c + 2 * i)) / 2 / 2 * 2 = c + 2 * (i + (j - i) / 2) := by
  omega

/-- Where the search ends: at the pair it looks for, if that lies between the
two borders. -/
theorem searchPair_spec (ha : a < codeSpace) {i j m fuel : ℕ}
    (hj : T.composition a 0 + 2 * j ≤ T.composition a 1) (hf : j - i ≤ fuel)
    (hi : i ≤ m) (hm : m < j) (hb : T.compositionData (T.composition a 0 + 2 * m) = b) :
    searchPair T b fuel (T.composition a 0 + 2 * i) (T.composition a 0 + 2 * j)
      = T.composition a 0 + 2 * m := by
  induction fuel generalizing i j with
  | zero => omega
  | succ fuel ih =>
    rw [searchPair]
    by_cases hij : i + 1 < j
    · rw [if_pos (by omega)]
      dsimp only
      rw [searchPair_middle]
      generalize hk : i + (j - i) / 2 = k
      rcases lt_trichotomy k m with hkm | rfl | hkm
      · have hlt := composition_lt (T := T) ha hkm (by omega)
        rw [if_pos (by omega), if_neg (by omega)]
        exact ih hj (by omega) hkm.le hm
      · -- the search has hit the pair and stops
        rw [if_pos hb.le, if_pos hb.ge]
        cases fuel with
        | zero => rfl
        | succ fuel => rw [searchPair, if_neg (by omega)]
      · have hlt := composition_lt (T := T) ha hkm (by omega)
        rw [if_neg (by omega), if_pos (by omega)]
        exact ih (by omega) (by omega) hi hkm
    · obtain rfl : m = i := by omega
      rw [if_neg (by omega)]

/-- The search ends at a pair of the row. -/
theorem searchPair_mem (a : ℕ) {i j fuel : ℕ} (hij : i < j) :
    ∃ m, i ≤ m ∧ m < j ∧
      searchPair T b fuel (T.composition a 0 + 2 * i) (T.composition a 0 + 2 * j)
        = T.composition a 0 + 2 * m := by
  induction fuel generalizing i j with
  | zero => exact ⟨i, le_rfl, hij, rfl⟩
  | succ fuel ih =>
    rw [searchPair]
    by_cases hij' : i + 1 < j
    · rw [if_pos (by omega)]
      dsimp only
      rw [searchPair_middle]
      obtain ⟨k, hk⟩ : ∃ k, i + (j - i) / 2 = k := ⟨_, rfl⟩
      rw [hk]
      rcases lt_trichotomy (T.compositionData (T.composition a 0 + 2 * k)) b with h | h | h
      · rw [if_pos h.le, if_neg h.not_ge]
        obtain ⟨m, hkm, hm, e⟩ := ih (i := k) (j := j) (by omega)
        exact ⟨m, by omega, hm, e⟩
      · rw [if_pos h.le, if_pos h.ge]
        refine ⟨k, by omega, by omega, ?_⟩
        cases fuel with
        | zero => rfl
        | succ fuel => rw [searchPair, if_neg (by omega)]
      · rw [if_neg h.not_ge, if_pos h.le]
        obtain ⟨m, him, hm, e⟩ := ih (i := i) (j := k) (by omega)
        exact ⟨m, him, by omega, e⟩
    · rw [if_neg (by omega)]
      exact ⟨i, le_rfl, hij, rfl⟩

/-- **The search finds the pairs of the row.** -/
theorem findPair_eq_some_iff (ha : a < codeSpace) : findPair T a b = some c ↔ IsPair T a b c := by
  obtain ⟨n, hn⟩ := T.composition_even a ha
  have hsize := T.composition_le_size a ha
  rw [findPair]
  dsimp only
  rcases Nat.eq_zero_or_pos n with rfl | hpos
  · -- an empty row
    rw [if_pos (Or.inl (by omega))]
    constructor
    · intro h
      cases h
    · rintro ⟨-, k, hk, -, -⟩
      omega
  · rw [if_neg (by omega), hn, Nat.add_sub_cancel_left]
    constructor
    · intro h
      obtain ⟨m, -, hm, e⟩ : ∃ m, 0 ≤ m ∧ m < n ∧
          searchPair T b (2 * n) (T.composition a 0 + 2 * 0) (T.composition a 0 + 2 * n)
            = T.composition a 0 + 2 * m := searchPair_mem a hpos
      rw [Nat.mul_zero, Nat.add_zero] at e
      rw [e] at h
      split at h
      · rename_i hb
        exact ⟨ha, m, by omega, hb.2, Option.some.inj h⟩
      · cases h
    · rintro ⟨-, m, hm, hb, hc⟩
      have e : searchPair T b (2 * n) (T.composition a 0 + 2 * 0) (T.composition a 0 + 2 * n)
          = T.composition a 0 + 2 * m :=
        searchPair_spec ha hn.ge (by omega) (Nat.zero_le m) (by omega) hb
      rw [Nat.mul_zero, Nat.add_zero] at e
      rw [e, if_pos ⟨by omega, hb⟩, hc]

theorem IsPair.composite_lt (h : IsPair T a b c) : c < codeSpace := by
  obtain ⟨ha, k, hk, -, rfl⟩ := h
  exact T.composite_lt a ha k hk

/-! ### The machine -/

/-- The end of the output that the next character can still change. -/
inductive Cluster where
  /-- A leading consonant or a syllable. -/
  | hangul (c : ℕ)
  /-- Any other character, with the marks that follow it and the class of the
  last one. -/
  | starter (c : ℕ) (marks : U32String) (previousCcc : ℤ)
  /-- A number that is no code point. -/
  | lone (c : ℕ)

/-- What the next character does to a group. -/
inductive Outcome where
  | absorbed (g : Cluster)
  | passed (g : Cluster)
  | closed

namespace Cluster

/-- The cluster that a character begins. -/
def start (c : ℕ) : Cluster :=
  if isHangulL c ∨ isHangulS c then hangul c
  else if c < codeSpace then starter c [] (-1)
  else lone c

/-- What is written for a cluster. -/
def text : Cluster → U32String
  | hangul c => [c]
  | starter c marks _ => c :: marks
  | lone c => [c]

/-- The syllable of a leading consonant and a vowel. -/
def syllable (l v : ℕ) : ℕ :=
  hangulSbase + ((l - hangulLbase) * hangulVcount + (v - hangulVbase)) * hangulTcount

variable (T) in
/-- The composite of a starter and a character that is not blocked from it. -/
def reach (c : ℕ) (previousCcc : ℤ) (m : ℕ) : Option ℕ :=
  if previousCcc < getCcc T m then findPair T c m else none

variable (T) in
def next : Cluster → ℕ → Outcome
  | hangul c, m =>
    if isHangulL c ∧ isHangulV m then .absorbed (hangul (syllable c m))
    else if isHangulS c ∧ (c - hangulSbase) % hangulTcount = 0 ∧ isHangulT m then
      .absorbed (hangul (c + (m - hangulTbase)))
    else .closed
  | starter c marks previousCcc, m =>
    match reach T c previousCcc m with
    | some d => .absorbed (starter d marks previousCcc)
    | none =>
      if getCcc T m = 0 then .closed else .passed (starter c (marks ++ [m]) (getCcc T m))
  | lone _, _ => .closed

end Cluster

open Cluster

variable (T) in
/-- Run the machine from a group. -/
def composeFrom : Cluster → U32String → U32String
  | g, [] => g.text
  | g, m :: rest =>
    match g.next T m with
    | .absorbed g' => composeFrom g' rest
    | .passed g' => composeFrom g' rest
    | .closed => g.text ++ composeFrom (start m) rest

variable (T) in
/-- The composed string. -/
def composeText : U32String → U32String
  | [] => []
  | c :: rest => composeFrom T (start c) rest

variable (T) in
/-- Does the machine absorb anything? -/
def absorbsFrom : Cluster → U32String → Bool
  | _, [] => false
  | g, m :: rest =>
    match g.next T m with
    | .absorbed _ => true
    | .passed g' => absorbsFrom g' rest
    | .closed => absorbsFrom (start m) rest

variable (T) in
def absorbs : U32String → Bool
  | [] => false
  | c :: rest => absorbsFrom T (start c) rest

/-! ### The machine step by step -/

variable {g g' : Cluster} {m : ℕ} {rest : U32String}

theorem composeFrom_absorbed (h : g.next T m = .absorbed g') :
    composeFrom T g (m :: rest) = composeFrom T g' rest := by
  rw [composeFrom, h]

theorem composeFrom_passed (h : g.next T m = .passed g') :
    composeFrom T g (m :: rest) = composeFrom T g' rest := by
  rw [composeFrom, h]

theorem composeFrom_closed (h : g.next T m = .closed) :
    composeFrom T g (m :: rest) = g.text ++ composeText T (m :: rest) := by
  rw [composeFrom, h]
  rfl

/-- A cluster that nothing changes is written as it is. -/
theorem composeFrom_of_closed (h : ∀ m, g.next T m = .closed) (rest : U32String) :
    composeFrom T g rest = g.text ++ composeText T rest := by
  cases rest with
  | nil => exact (List.append_nil _).symm
  | cons m rest => exact composeFrom_closed (h m)

theorem start_of_hangul (h : isHangulL c ∨ isHangulS c) : start c = hangul c := if_pos h

theorem start_of_starter (hl : ¬ isHangulL c) (hs : ¬ isHangulS c) (hc : c < codeSpace) :
    start c = starter c [] (-1) := by
  rw [Cluster.start, if_neg (not_or.mpr ⟨hl, hs⟩), if_pos hc]

theorem start_of_lone (hl : ¬ isHangulL c) (hs : ¬ isHangulS c) (hc : ¬ c < codeSpace) :
    start c = lone c := by
  rw [Cluster.start, if_neg (not_or.mpr ⟨hl, hs⟩), if_neg hc]

theorem not_isHangulL_of_isHangulS (h : isHangulS c) : ¬ isHangulL c := by
  unfold isHangulS isHangulL hangulSbase hangulScount hangulLbase hangulLcount hangulVcount
    hangulTcount at *
  omega

/-- A leading consonant absorbs a vowel, -/
theorem next_vowel (hl : isHangulL c) (hv : isHangulV m) :
    (hangul c).next T m = .absorbed (hangul (syllable c m)) :=
  if_pos ⟨hl, hv⟩

/-- and nothing else. -/
theorem next_not_vowel (hl : isHangulL c) (hv : ¬ isHangulV m) :
    (hangul c).next T m = .closed := by
  rw [Cluster.next, if_neg fun h => hv h.2,
    if_neg fun h => not_isHangulL_of_isHangulS h.1 hl]

/-- A syllable without trailing consonant absorbs one, -/
theorem next_trailing (hs : isHangulS c) (h0 : (c - hangulSbase) % hangulTcount = 0)
    (ht : isHangulT m) : (hangul c).next T m = .absorbed (hangul (c + (m - hangulTbase))) := by
  rw [Cluster.next, if_neg fun h => not_isHangulL_of_isHangulS hs h.1, if_pos ⟨hs, h0, ht⟩]

/-- and nothing else. -/
theorem next_not_trailing (hs : isHangulS c)
    (ht : ¬ ((c - hangulSbase) % hangulTcount = 0 ∧ isHangulT m)) :
    (hangul c).next T m = .closed := by
  rw [Cluster.next, if_neg fun h => not_isHangulL_of_isHangulS hs h.1, if_neg fun h => ht h.2]

section Starter

variable {marks : U32String} {previousCcc : ℤ} {d : ℕ}

/-- A starter absorbs what it reaches, -/
theorem next_reached (hr : reach T c previousCcc m = some d) :
    (starter c marks previousCcc).next T m = .absorbed (starter d marks previousCcc) := by
  simp only [Cluster.next, hr]

/-- another starter closes it, -/
theorem next_starter (hr : reach T c previousCcc m = none) (hm : getCcc T m = 0) :
    (starter c marks previousCcc).next T m = .closed := by
  simp only [Cluster.next, hr, if_pos hm]

/-- and any other mark passes. -/
theorem next_mark (hr : reach T c previousCcc m = none) (hm : getCcc T m ≠ 0) :
    (starter c marks previousCcc).next T m = .passed (starter c (marks ++ [m]) (getCcc T m)) := by
  simp only [Cluster.next, hr, if_neg hm]

end Starter

/-- A character of class 0 that is no part of a syllable closes a cluster, if
its starter does not reach it. -/
theorem next_closed_of_reach (h0 : getCcc T m = 0) (hv : ¬ isHangulV m) (ht : ¬ isHangulT m)
    (hreach : ∀ c marks previousCcc, g = starter c marks previousCcc →
      reach T c previousCcc m = none) : g.next T m = .closed := by
  cases g with
  | hangul c => rw [Cluster.next, if_neg (fun h => hv h.2), if_neg (fun h => ht h.2.2)]
  | starter c marks previousCcc => exact next_starter (hreach c marks previousCcc rfl) h0
  | lone c => rfl

theorem reach_lt {previousCcc : ℤ} {d : ℕ} (hc : c < codeSpace)
    (h : reach T c previousCcc m = some d) : IsPair T c m d ∧ d < codeSpace := by
  rw [reach] at h
  split at h
  · have hp := (findPair_eq_some_iff hc).mp h
    exact ⟨hp, hp.composite_lt⟩
  · cases h

/-- What it means to be absorbed. -/
theorem next_absorbed (h : g.next T m = .absorbed g') :
    (∃ c, g = hangul c ∧ isHangulL c ∧ isHangulV m ∧ g' = hangul (syllable c m)) ∨
      (∃ c, g = hangul c ∧ isHangulS c ∧ (c - hangulSbase) % hangulTcount = 0 ∧ isHangulT m ∧
        g' = hangul (c + (m - hangulTbase))) ∨
      ∃ c marks previousCcc d, g = starter c marks previousCcc ∧ previousCcc < getCcc T m ∧
        reach T c previousCcc m = some d ∧ g' = starter d marks previousCcc := by
  cases g with
  | hangul c =>
    rw [Cluster.next] at h
    split at h
    · rename_i hlv
      exact Or.inl ⟨c, rfl, hlv.1, hlv.2, (Outcome.absorbed.inj h).symm⟩
    · split at h
      · rename_i hst
        exact Or.inr (Or.inl ⟨c, rfl, hst.1, hst.2.1, hst.2.2, (Outcome.absorbed.inj h).symm⟩)
      · cases h
  | starter c marks previousCcc =>
    rw [Cluster.next] at h
    rcases hr : reach T c previousCcc m with - | d
    · rw [hr] at h
      dsimp only at h
      split at h <;> cases h
    · rw [hr] at h
      refine Or.inr (Or.inr ⟨c, marks, previousCcc, d, rfl, ?_, hr,
        (Outcome.absorbed.inj h).symm⟩)
      by_contra hlt
      rw [reach, if_neg hlt] at hr
      cases hr
  | lone c => cases h

/-- What it means to pass. -/
theorem next_passed (h : g.next T m = .passed g') :
    ∃ c marks previousCcc, g = starter c marks previousCcc ∧ reach T c previousCcc m = none ∧
      getCcc T m ≠ 0 ∧ g' = starter c (marks ++ [m]) (getCcc T m) := by
  cases g with
  | hangul c =>
    rw [Cluster.next] at h
    split at h
    · cases h
    · split at h <;> cases h
  | starter c marks previousCcc =>
    rw [Cluster.next] at h
    rcases hr : reach T c previousCcc m with - | d
    · rw [hr] at h
      dsimp only at h
      split at h
      · cases h
      · rename_i h0
        exact ⟨c, marks, previousCcc, rfl, hr, h0, (Outcome.passed.inj h).symm⟩
    · rw [hr] at h
      cases h
  | lone c => cases h

/-- A mark that passes is put behind the cluster. -/
theorem text_passed (h : g.next T m = .passed g') : g'.text = g.text ++ [m] := by
  obtain ⟨c, marks, previousCcc, rfl, -, -, rfl⟩ := next_passed h
  rfl

theorem length_text_absorbed (h : g.next T m = .absorbed g') : g'.text.length = g.text.length := by
  rcases next_absorbed h with ⟨c, rfl, -, -, rfl⟩ | ⟨c, rfl, -, -, -, rfl⟩ |
    ⟨c, marks, previousCcc, d, rfl, -, -, rfl⟩ <;>
  simp only [text, List.length_cons]

theorem isHangulS_syllable {l v : ℕ} (hl : isHangulL l) (hv : isHangulV v) :
    isHangulS (syllable l v) ∧ (syllable l v - hangulSbase) % hangulTcount = 0 := by
  unfold isHangulL isHangulV hangulLbase hangulLcount hangulVbase hangulVcount at *
  unfold isHangulS syllable hangulSbase hangulScount hangulLbase hangulVbase hangulVcount
    hangulTcount hangulLcount
  omega

theorem not_isHangulT_syllable {t : ℕ} (hs : isHangulS c)
    (h0 : (c - hangulSbase) % hangulTcount = 0) (ht : isHangulT t) :
    isHangulS (c + (t - hangulTbase)) ∧
      ¬ (c + (t - hangulTbase) - hangulSbase) % hangulTcount = 0 := by
  unfold isHangulS isHangulT hangulSbase hangulScount hangulTbase hangulTcount hangulLcount
    hangulVcount at *
  omega

/-! ### The in-place loops -/

variable (T) in
/-- The state `r` of the buffer, the input position and the output position
after the cluster `g` has been composed behind `out`. -/
def Composed (out : U32String) (g : Cluster) (rest : U32String) (r : U32String × ℕ × ℕ) : Prop :=
  ∃ d marks J rest', r = (out ++ d :: marks ++ J ++ rest', out.length + marks.length + J.length,
      out.length + marks.length) ∧
    composeFrom T g rest = d :: marks ++ composeText T rest' ∧ rest'.length ≤ rest.length

/-- Nothing has been absorbed. -/
theorem composed_stay {out : U32String} (J : U32String)
    (h : composeFrom T g rest = c :: composeText T rest) :
    Composed T out g rest (out ++ c :: J ++ rest, out.length + J.length, out.length) :=
  ⟨c, [], J, rest, by simp, h, le_rfl⟩

/-- A step of the machine has been made before. -/
theorem Composed.step {out rest' : U32String} {r : U32String × ℕ × ℕ}
    (h : Composed T out g' rest' r) (hg : composeFrom T g rest = composeFrom T g' rest')
    (hle : rest'.length ≤ rest.length) : Composed T out g rest r := by
  obtain ⟨d, marks, J, rest'', hr, htext, hle'⟩ := h
  exact ⟨d, marks, J, rest'', hr, hg.trans htext, hle'.trans hle⟩

/-- What a round of `composeMarks` does with the next character. -/
theorem composeMarks_succ {initial fuel i o : ℕ} {input : U32String} {previousCcc : ℤ}
    (hc : c < codeSpace) (hi : i + 1 < input.length) (hm : input.getD (i + 1) 0 = m) :
    composeMarks T initial (fuel + 1) input i o c previousCcc
      = match reach T c previousCcc m with
        | some d => composeMarks T initial fuel (input.set initial d) (i + 1) o d previousCcc
        | none =>
          if getCcc T m = 0 then (input, i, o)
          else
            composeMarks T initial fuel (input.set (o + 1) m) (i + 1) (o + 1) c (getCcc T m) := by
  obtain ⟨n, hn⟩ := T.composition_even c hc
  have hsize := T.composition_le_size c hc
  rw [composeMarks, if_pos hi, hm, reach]
  dsimp only
  by_cases hprev : previousCcc < getCcc T m
  · by_cases hrow : T.composition c 1 = T.composition c 0
    · have hnone : findPair T c m = none := by
        rw [findPair]
        exact if_pos (Or.inl hrow.le)
      rw [if_neg (fun h => h.1 hrow), if_pos hprev, hnone]
    · have hin : ¬ (T.composition c 1 < T.composition c 0
          ∨ T.compositionDataSize < T.composition c 1) := by omega
      have hin' : ¬ (T.composition c 1 ≤ T.composition c 0
          ∨ T.compositionDataSize < T.composition c 1) := by omega
      rw [if_pos ⟨hrow, hprev⟩, if_neg hin, if_pos hprev, findPair]
      dsimp only
      rw [if_neg hin']
      split
      · rfl
      · rfl
  · rw [if_neg (fun h => hprev h.2), if_neg hprev]

/-- The inner loop runs the machine until the group is closed. -/
theorem composeMarks_eq {fuel : ℕ} {out J : U32String} (marks : U32String) (previousCcc : ℤ)
    (hc : c < codeSpace) (hf : rest.length ≤ fuel) :
    Composed T out (starter c marks previousCcc) rest
      (composeMarks T out.length fuel (out ++ c :: marks ++ J ++ rest)
        (out.length + marks.length + J.length) (out.length + marks.length) c previousCcc) := by
  induction fuel generalizing rest c marks J previousCcc with
  | zero =>
    obtain rfl := List.eq_nil_of_length_eq_zero (Nat.le_zero.mp hf)
    exact ⟨c, marks, J, [], rfl, by simp [composeFrom, composeText, text], le_rfl⟩
  | succ fuel ih =>
    have hlen : (out ++ c :: marks ++ J).length = out.length + marks.length + J.length + 1 := by
      simp only [List.length_append, List.length_cons]
      omega
    cases rest with
    | nil =>
      refine ⟨c, marks, J, [], ?_, by simp [composeFrom, composeText, text], le_rfl⟩
      rw [composeMarks, if_neg (by rw [List.append_nil, hlen]; omega)]
    | cons m rest =>
      have hi : out.length + marks.length + J.length + 1
          < (out ++ c :: marks ++ J ++ m :: rest).length := by
        rw [List.length_append, hlen, List.length_cons]
        omega
      rw [composeMarks_succ hc hi (Buffer.getD_append hlen.symm)]
      rcases hr : reach T c previousCcc m with - | d
      · dsimp only
        by_cases hm : getCcc T m = 0
        · -- the group is closed
          rw [if_pos hm]
          exact ⟨c, marks, J, m :: rest, rfl, composeFrom_closed (next_starter hr hm), le_rfl⟩
        · -- the mark passes: it moves down to the end of the output
          have ho : out.length + marks.length + 1 = (out ++ c :: marks).length := by
            simp only [List.length_append, List.length_cons]
            omega
          obtain ⟨J', hset, hJ'⟩ := Buffer.set_gap (J := J) (R := rest) (x := m) ho m
          have hrun := ih (J := J') (marks ++ [m]) (getCcc T m) hc (Nat.le_of_succ_le_succ hf)
          rw [List.length_append, List.length_singleton, ← Nat.add_assoc, hJ',
            show out ++ c :: (marks ++ [m]) ++ J' ++ rest = out ++ c :: marks ++ m :: J' ++ rest by
              simp, Nat.add_right_comm _ 1 J.length] at hrun
          rw [if_neg hm, hset]
          exact hrun.step (composeFrom_passed (next_mark hr hm)) (Nat.le_succ _)
      · -- the mark is absorbed, and its place is free
        obtain ⟨-, hd⟩ := reach_lt hc hr
        have hrun := ih (J := J ++ [m]) marks previousCcc hd (Nat.le_of_succ_le_succ hf)
        rw [List.length_append, List.length_singleton, ← Nat.add_assoc,
          show out ++ d :: marks ++ (J ++ [m]) ++ rest = out ++ d :: marks ++ J ++ m :: rest by
            simp] at hrun
        have hset : (out ++ c :: marks ++ J ++ m :: rest).set out.length d
            = out ++ d :: marks ++ J ++ m :: rest := by
          rw [List.append_assoc, List.append_assoc, List.cons_append, Buffer.set_append rfl]
          simp
        dsimp only
        rw [hset]
        exact hrun.step (composeFrom_absorbed (next_reached hr)) (Nat.le_succ _)

/-- A trailing consonant after the syllable at the end of the output. -/
theorem composeT_eq (out J rest : U32String) (hs : isHangulS c)
    (hc : (c - hangulSbase) % hangulTcount = 0) :
    Composed T out (hangul c) rest
      (composeT (out ++ c :: J ++ rest) (out.length + J.length) out.length) := by
  have hlen : (out ++ c :: J).length = out.length + J.length + 1 := by
    rw [List.length_append, List.length_cons, Nat.add_assoc]
  cases rest with
  | nil =>
    rw [composeT, if_neg]
    · exact composed_stay J rfl
    · rintro ⟨h, -⟩
      rw [List.append_nil, hlen] at h
      exact lt_irrefl _ h
  | cons t rest =>
    have hget : (out ++ c :: J ++ t :: rest).getD (out.length + J.length + 1) 0 = t :=
      Buffer.getD_append hlen.symm
    have hi : out.length + J.length + 1 < (out ++ c :: J ++ t :: rest).length := by
      rw [List.length_append, hlen, List.length_cons]
      omega
    by_cases ht : isHangulT t
    · -- a syllable with a trailing consonant absorbs nothing more
      obtain ⟨hs', h0'⟩ := not_isHangulT_syllable hs hc ht
      have hclosed := composeFrom_of_closed (T := T)
        (fun m => next_not_trailing hs' fun h : _ ∧ isHangulT m => h0' h.1) rest
      have hset : (out ++ c :: J ++ t :: rest).set out.length (c + (t - hangulTbase))
          = out ++ (c + (t - hangulTbase)) :: (J ++ [t]) ++ rest := by
        rw [List.append_assoc, List.cons_append, Buffer.set_append rfl]
        simp
      have hhead : (out ++ c :: J ++ t :: rest).getD out.length 0 = c := by
        rw [List.append_assoc, List.cons_append]
        exact Buffer.getD_append rfl
      have hcomposed : Composed T out (hangul (c + (t - hangulTbase))) rest
          (out ++ (c + (t - hangulTbase)) :: (J ++ [t]) ++ rest,
            out.length + (J ++ [t]).length, out.length) := composed_stay (J ++ [t]) hclosed
      rw [composeT, if_pos (show nextIs isHangulT _ _ from ⟨hi, hget.symm ▸ ht⟩), hget, hhead, hset]
      rw [List.length_append, List.length_singleton, ← Nat.add_assoc] at hcomposed
      exact hcomposed.step (composeFrom_absorbed (next_trailing hs hc ht)) (Nat.le_succ _)
    · rw [composeT, if_neg (fun h => ht (hget ▸ h.2))]
      exact composed_stay J (composeFrom_closed (next_not_trailing hs fun h => ht h.2))

/-- A vowel after the leading consonant at the end of the output, and what may
follow. -/
theorem composeV_eq (out J rest : U32String) (hl : isHangulL c) :
    Composed T out (hangul c) rest
      (if nextIs isHangulV (out ++ c :: J ++ rest) (out.length + J.length) then
        composeT ((out ++ c :: J ++ rest).set out.length
            (syllable c ((out ++ c :: J ++ rest).getD (out.length + J.length + 1) 0)))
          (out.length + J.length + 1) out.length
      else (out ++ c :: J ++ rest, out.length + J.length, out.length)) := by
  have hlen : (out ++ c :: J).length = out.length + J.length + 1 := by
    rw [List.length_append, List.length_cons, Nat.add_assoc]
  cases rest with
  | nil =>
    rw [if_neg]
    · exact composed_stay J rfl
    · rintro ⟨h, -⟩
      rw [List.append_nil, hlen] at h
      exact lt_irrefl _ h
  | cons v rest =>
    have hget : (out ++ c :: J ++ v :: rest).getD (out.length + J.length + 1) 0 = v :=
      Buffer.getD_append hlen.symm
    have hi : out.length + J.length + 1 < (out ++ c :: J ++ v :: rest).length := by
      rw [List.length_append, hlen, List.length_cons]
      omega
    by_cases hv : isHangulV v
    · obtain ⟨hs, h0⟩ := isHangulS_syllable hl hv
      have hset : (out ++ c :: J ++ v :: rest).set out.length (syllable c v)
          = out ++ syllable c v :: (J ++ [v]) ++ rest := by
        rw [List.append_assoc, List.cons_append, Buffer.set_append rfl]
        simp
      have hcomposed := composeT_eq (T := T) out (J ++ [v]) rest hs h0
      rw [List.length_append, List.length_singleton, ← Nat.add_assoc] at hcomposed
      rw [if_pos (show nextIs isHangulV _ _ from ⟨hi, hget.symm ▸ hv⟩), hget, hset]
      exact hcomposed.step (composeFrom_absorbed (next_vowel hl hv)) (Nat.le_succ _)
    · rw [if_neg (fun h => hv (hget ▸ h.2))]
      exact composed_stay J (composeFrom_closed (next_not_vowel hl hv))

/-- **A round of `compose`** runs the machine from the start of a cluster to
its end. -/
theorem composeStep_eq (out J : U32String) (c : ℕ) (rest : U32String) :
    Composed T out (start c) rest
      (composeStep T (out ++ J ++ c :: rest) (out.length + J.length) out.length) := by
  have hget : (out ++ J ++ c :: rest).getD (out.length + J.length) 0 = c :=
    Buffer.getD_append (by rw [List.length_append])
  -- `J` is what earlier rounds have left between output and input
  obtain ⟨J', hset, hJ'⟩ := Buffer.set_gap (J := J) (R := rest) (x := c) (A := out) rfl c
  have hc : (out ++ c :: J' ++ rest).getD (out.length + J.length) 0 = c := by
    have h := Buffer.getD_set_getD (out ++ J ++ c :: rest) out.length (out.length + J.length) 0
    rwa [hget, hset] at h
  -- the character has moved down to the end of the output
  rw [composeStep, hget, hset, hc, ← hJ']
  by_cases hl : isHangulL c
  · rw [if_pos hl, start_of_hangul (Or.inl hl)]
    exact composeV_eq out J' rest hl
  · rw [if_neg hl]
    by_cases hs : isHangulS c
    · rw [if_pos hs, start_of_hangul (Or.inr hs)]
      by_cases h0 : (c - hangulSbase) % hangulTcount = 0
      · rw [if_pos h0]
        exact composeT_eq out J' rest hs h0
      · rw [if_neg h0]
        exact composed_stay J'
          (composeFrom_of_closed (fun m => next_not_trailing hs fun h => h0 h.1) rest)
    · rw [if_neg hs]
      by_cases hcs : c < codeSpace
      · have hf : rest.length ≤ (out ++ c :: J' ++ rest).length := by
          rw [List.length_append]
          exact Nat.le_add_left _ _
        rw [if_pos hcs, start_of_starter hl hs hcs]
        simpa using composeMarks_eq (J := J') [] (-1) hcs hf
      · rw [if_neg hcs, start_of_lone hl hs hcs]
        exact composed_stay J' (composeFrom_of_closed (fun _ => rfl) rest)

/-- The outer loop runs the machine to the end of the string. -/
theorem composeLoop_eq {fuel : ℕ} (out J rest : U32String) (hf : rest.length ≤ fuel) :
    ∃ J', composeLoop T fuel (out ++ J ++ rest) (out.length + J.length) out.length
        = (out ++ composeText T rest ++ J', (out ++ composeText T rest ++ J').length,
          (out ++ composeText T rest).length) := by
  induction fuel generalizing out J rest with
  | zero =>
    obtain rfl := List.eq_nil_of_length_eq_zero (Nat.le_zero.mp hf)
    exact ⟨J, by simp [composeLoop, composeText]⟩
  | succ fuel ih =>
    cases rest with
    | nil => exact ⟨J, by simp [composeLoop, composeText]⟩
    | cons c rest =>
      obtain ⟨d, marks, J', rest', h, htext, hle⟩ := composeStep_eq (T := T) out J c rest
      have hi : out.length + J.length < (out ++ J ++ c :: rest).length := by
        simp
      rw [composeLoop, if_pos hi, h]
      obtain ⟨J'', hloop⟩ := ih (out ++ d :: marks) J' rest'
        (hle.trans (Nat.le_of_succ_le_succ hf))
      have hlen : (out ++ d :: marks).length = out.length + marks.length + 1 := by
        rw [List.length_append, List.length_cons, Nat.add_assoc]
      rw [hlen] at hloop
      refine ⟨J'', ?_⟩
      dsimp only
      rw [Nat.add_right_comm, hloop, show composeText T (c :: rest) = _ from htext]
      simp

/-- **In-place composition** is the machine. -/
theorem compose_eq (s : U32String) : compose T s = composeText T s := by
  obtain ⟨J, h⟩ := composeLoop_eq (T := T) [] [] s le_rfl
  simp only [List.nil_append, List.length_nil, Nat.add_zero] at h
  rw [compose, h]
  dsimp only
  split
  · exact List.take_left
  · rename_i hlt
    rw [List.length_append] at hlt
    obtain rfl : J = [] := List.eq_nil_of_length_eq_zero (by omega)
    exact List.append_nil _

/-! ### The predicate -/

/-- The test that `would_compose` makes for a mark. -/
theorem reach_isSome_iff (c : ℕ) (previousCcc : ℤ) (m : ℕ) :
    (reach T c previousCcc m).isSome = true ↔
      T.composition c 1 ≠ T.composition c 0 ∧ previousCcc < getCcc T m ∧
        hasComposition T c m = true := by
  rw [reach, hasComposition_eq]
  constructor
  · intro h
    split at h
    · rename_i hprev
      refine ⟨fun hrow => ?_, hprev, h⟩
      rw [findPair, if_pos (Or.inl hrow.le)] at h
      cases h
    · cases h
  · rintro ⟨-, hprev, h⟩
    rwa [if_pos hprev]

/-- The inner loop of `would_compose` runs the machine until the cluster is
closed. -/
theorem wouldComposeMarks_eq (c : ℕ) (marks : U32String) (previousCcc : ℤ) (rest : U32String) :
    wouldComposeMarks T c previousCcc rest = none ∧
        absorbsFrom T (starter c marks previousCcc) rest = true ∨
      ∃ rest', wouldComposeMarks T c previousCcc rest = some rest' ∧
        absorbsFrom T (starter c marks previousCcc) rest = absorbs T rest' ∧
        rest'.length ≤ rest.length := by
  induction rest generalizing marks previousCcc with
  | nil => exact Or.inr ⟨[], rfl, rfl, le_rfl⟩
  | cons m rest ih =>
    have htest := reach_isSome_iff (T := T) c previousCcc m
    rw [wouldComposeMarks]
    rcases hr : reach T c previousCcc m with - | d
    · rw [hr] at htest
      rw [if_neg (fun h => by cases htest.mpr h)]
      by_cases hm : getCcc T m = 0
      · rw [if_pos hm]
        refine Or.inr ⟨m :: rest, rfl, ?_, le_rfl⟩
        rw [absorbsFrom, next_starter hr hm]
        rfl
      · rw [if_neg hm, absorbsFrom, next_mark hr hm]
        rcases ih (marks ++ [m]) (getCcc T m) with h | ⟨rest', h, h', hle⟩
        · exact Or.inl h
        · exact Or.inr ⟨rest', h, h', hle.trans (Nat.le_succ _)⟩
    · rw [hr] at htest
      refine Or.inl ⟨if_pos (htest.mp rfl), ?_⟩
      rw [absorbsFrom, next_reached hr]

theorem absorbsFrom_closed (h : g.next T m = .closed) :
    absorbsFrom T g (m :: rest) = absorbs T (m :: rest) := by
  rw [absorbsFrom, h]
  rfl

theorem wouldComposeLoop_eq {fuel : ℕ} {s : U32String} (hf : s.length ≤ fuel) :
    wouldComposeLoop T fuel s = absorbs T s := by
  induction fuel generalizing s with
  | zero =>
    obtain rfl := List.eq_nil_of_length_eq_zero (Nat.le_zero.mp hf)
    rfl
  | succ fuel ih =>
    cases s with
    | nil => rfl
    | cons c rest =>
      have hrest := ih (Nat.le_of_succ_le_succ hf)
      rw [wouldComposeLoop, absorbs]
      by_cases hl : isHangulL c
      · rw [if_pos hl, start_of_hangul (Or.inl hl)]
        cases rest with
        | nil => exact hrest
        | cons v rest =>
          by_cases hv : isHangulV v
          · rw [absorbsFrom, next_vowel hl hv]
            exact if_pos (decide_eq_true hv)
          · rw [absorbsFrom_closed (next_not_vowel hl hv), ← hrest]
            exact if_neg (fun h => hv (of_decide_eq_true h))
      · rw [if_neg hl]
        by_cases hs : isHangulS c
        · rw [if_pos hs, start_of_hangul (Or.inr hs)]
          cases rest with
          | nil => exact (if_neg (fun h => by cases h.2)).trans hrest
          | cons t rest =>
            by_cases ht : (c - hangulSbase) % hangulTcount = 0 ∧ isHangulT t
            · rw [absorbsFrom, next_trailing hs ht.1 ht.2]
              exact if_pos ⟨ht.1, decide_eq_true ht.2⟩
            · rw [absorbsFrom_closed (next_not_trailing hs ht), ← hrest]
              exact if_neg (fun h => ht ⟨h.1, of_decide_eq_true h.2⟩)
        · rw [if_neg hs]
          by_cases hcs : c < codeSpace
          · rw [if_pos hcs, start_of_starter hl hs hcs]
            rcases wouldComposeMarks_eq (T := T) c [] (-1) rest with ⟨h, h'⟩ | ⟨rest', h, h', hle⟩
            · rw [h, h']
            · rw [h, h']
              exact ih (hle.trans (Nat.le_of_succ_le_succ hf))
          · rw [if_neg hcs, start_of_lone hl hs hcs, hrest]
            cases rest with
            | nil => rfl
            | cons m rest => exact (absorbsFrom_closed rfl).symm

/-- **`would_compose`** asks whether the machine absorbs anything. -/
theorem wouldCompose_eq (s : U32String) : wouldCompose T s = absorbs T s :=
  wouldComposeLoop_eq le_rfl

end AdaIdna
