/-
AdaIdna/BidiRule.lean

The Bidi rule of RFC 5893, and the part of it that the code checks.

`BidiRule` states the six numbered conditions about the directions of a label.
Of a label with a character of direction R, AL or AN, `is_label_valid` checks
all six (`checkBidi_eq`): everything behind the last character that is no NSM
is an NSM, so looking at the characters up to it is enough.  A label without
such a character passes as soon as it has a character that is no NSM.

The search for that character counts down with an `int`.  Beyond 2^31
characters the index wraps around, and the check is the rule for the
characters that are left (`isLabelValid_iff_bidiRule`, `forall_bidiExact_iff`).
-/
import AdaIdna.Validity
import AdaIdna.TableShape
import Mathlib.Data.List.GetD

namespace AdaIdna

/-! ### The rule -/

/-- A character that makes its label an RTL label. -/
def Direction.IsRtl (d : Direction) : Prop := d = .r ∨ d = .al ∨ d = .an

instance (d : Direction) : Decidable d.IsRtl := inferInstanceAs (Decidable (_ ∨ _))

/-- The label begins with R or AL. -/
def StartsRtl (ds : List Direction) : Prop := ds.head? = some .r ∨ ds.head? = some .al

/-- The label begins with L. -/
def StartsLtr (ds : List Direction) : Prop := ds.head? = some .l

/-- The label ends with one of `last`, followed by NSM characters. -/
def EndsIn (last : Direction → Prop) (ds : List Direction) : Prop :=
  ∃ A d B, ds = A ++ d :: B ∧ last d ∧ ∀ x ∈ B, x = .nsm

/-- The six conditions of RFC 5893, section 2, on the directions of a label. -/
structure BidiRule (ds : List Direction) : Prop where
  /-- 1. The first character has direction L, R or AL. -/
  first : StartsLtr ds ∨ StartsRtl ds
  /-- 2. In an RTL label, only these directions are allowed. -/
  rtlOnly : StartsRtl ds → ∀ d ∈ ds, d = .r ∨ d = .al ∨ d = .an ∨ d = .en ∨ d = .es ∨ d = .cs ∨
    d = .et ∨ d = .on ∨ d = .bn ∨ d = .nsm
  /-- 3. The end of an RTL label is R, AL, EN or AN. -/
  rtlEnd : StartsRtl ds → EndsIn (fun d => d = .r ∨ d = .al ∨ d = .en ∨ d = .an) ds
  /-- 4. In an RTL label, EN and AN exclude each other. -/
  rtlNumbers : StartsRtl ds → ¬ (.en ∈ ds ∧ .an ∈ ds)
  /-- 5. In an LTR label, only these directions are allowed. -/
  ltrOnly : StartsLtr ds → ∀ d ∈ ds, d = .l ∨ d = .en ∨ d = .es ∨ d = .cs ∨ d = .et ∨ d = .on ∨
    d = .bn ∨ d = .nsm
  /-- 6. The end of an LTR label is L or EN. -/
  ltrEnd : StartsLtr ds → EndsIn (fun d => d = .l ∨ d = .en) ds

/-- The conditions on an LTR label. -/
def LtrRule (ds : List Direction) : Prop :=
  StartsLtr ds ∧
    (∀ d ∈ ds, d = .l ∨ d = .en ∨ d = .es ∨ d = .cs ∨ d = .et ∨ d = .on ∨ d = .bn ∨ d = .nsm) ∧
    EndsIn (fun d => d = .l ∨ d = .en) ds

/-- The conditions on an RTL label. -/
def RtlRule (ds : List Direction) : Prop :=
  StartsRtl ds ∧
    (∀ d ∈ ds, d = .r ∨ d = .al ∨ d = .an ∨ d = .en ∨ d = .es ∨ d = .cs ∨ d = .et ∨ d = .on ∨
      d = .bn ∨ d = .nsm) ∧
    EndsIn (fun d => d = .r ∨ d = .al ∨ d = .en ∨ d = .an) ds ∧ ¬ (.en ∈ ds ∧ .an ∈ ds)

variable {ds A B : List Direction} {d d' : Direction}

theorem not_startsRtl (h : StartsLtr ds) : ¬ StartsRtl ds := by
  rw [StartsLtr] at h
  rw [StartsRtl, h]
  decide

theorem bidiRule_iff : BidiRule ds ↔ LtrRule ds ∨ RtlRule ds := by
  constructor
  · intro h
    rcases h.first with hl | hr
    · exact Or.inl ⟨hl, h.ltrOnly hl, h.ltrEnd hl⟩
    · exact Or.inr ⟨hr, h.rtlOnly hr, h.rtlEnd hr, h.rtlNumbers hr⟩
  · rintro (⟨hl, honly, hend⟩ | ⟨hr, honly, hend, hnum⟩)
    · have hnot := not_startsRtl hl
      exact ⟨Or.inl hl, fun hr => absurd hr hnot, fun hr => absurd hr hnot,
        fun hr => absurd hr hnot, fun _ => honly, fun _ => hend⟩
    · have hnot : ¬ StartsLtr ds := fun hl => not_startsRtl hl hr
      exact ⟨Or.inr hr, fun _ => honly, fun _ => hend, fun _ => hnum, fun hl => absurd hl hnot,
        fun hl => absurd hl hnot⟩

/-- A label with a character of direction R, AL or AN is no LTR label. -/
theorem not_ltrRule (hd : d ∈ ds) (hrtl : d.IsRtl) : ¬ LtrRule ds := by
  rintro ⟨-, honly, -⟩
  have h := honly d hd
  rcases hrtl with rfl | rfl | rfl <;> simp at h

/-- A label without one is no RTL label. -/
theorem not_rtlRule (h : ∀ d ∈ ds, ¬ d.IsRtl) : ¬ RtlRule ds := by
  rintro ⟨hfirst, -, -, -⟩
  rcases hfirst with hr | hr
  · exact h _ (List.mem_of_mem_head? hr) (Or.inl rfl)
  · exact h _ (List.mem_of_mem_head? hr) (Or.inr (Or.inl rfl))

/-- The last character that is no NSM decides how a label ends. -/
theorem endsIn_append {last : Direction → Prop} (hlast : ∀ d, last d → d ≠ .nsm) (hd : d ≠ .nsm)
    (hB : ∀ x ∈ B, x = .nsm) : EndsIn last (A ++ d :: B) ↔ last d := by
  -- without the NSM characters, the last one is `d` in every such split
  have hfilter : ∀ {A B : List Direction} {d : Direction}, d ≠ .nsm → (∀ x ∈ B, x = .nsm) →
      ((A ++ d :: B).filter (· ≠ .nsm)).getLast? = some d := by
    intro A B d hd hB
    have hnil : B.filter (· ≠ .nsm) = [] :=
      List.filter_eq_nil_iff.mpr fun x hx => by simp [hB x hx]
    rw [List.filter_append, List.filter_cons_of_pos (by simpa using hd), hnil]
    exact List.getLast?_concat
  constructor
  · rintro ⟨A', d', B', h, hd', hB'⟩
    have h1 := hfilter (A := A) hd hB
    rw [h, hfilter (hlast d' hd') hB'] at h1
    exact Option.some.inj h1 ▸ hd'
  · exact fun h => ⟨A, d, B, rfl, h, hB⟩

/-! ### The parts of the check -/

variable {T : Tables} {label : U32String} {c : ℕ}

/-- The directions of a label. -/
def directionsOf (T : Tables) (label : U32String) : List Direction := label.map (findDirection T)

@[simp] theorem directionsOf_nil : directionsOf T [] = [] := rfl

@[simp] theorem directionsOf_cons (c : ℕ) (label : U32String) :
    directionsOf T (c :: label) = findDirection T c :: directionsOf T label := rfl

@[simp] theorem directionsOf_append (s t : U32String) :
    directionsOf T (s ++ t) = directionsOf T s ++ directionsOf T t := List.map_append

/-- **The mask of an RTL label** has the bits of R, AL and AN. -/
theorem isRtlLabel_iff : isRtlLabel T label = true ↔ ∃ d ∈ directionsOf T label, d.IsRtl := by
  have hbit : ∀ d : Direction, 1 <<< d.value &&& (1 <<< Direction.r.value
      ||| 1 <<< Direction.al.value ||| 1 <<< Direction.an.value) ≠ 0 ↔ d.IsRtl := by
    intro d
    cases d <;> decide
  rw [isRtlLabel, bne_iff_ne]
  generalize (1 <<< Direction.r.value ||| 1 <<< Direction.al.value
    ||| 1 <<< Direction.an.value) = mask at hbit
  suffices h : ∀ acc, label.foldl (fun directions c =>
      directions ||| 1 <<< (findDirection T c).value) acc &&& mask ≠ 0 ↔
        acc &&& mask ≠ 0 ∨ ∃ d ∈ directionsOf T label, d.IsRtl by
    rw [h, Nat.zero_and]
    simp
  induction label with
  | nil => simp
  | cons c label ih =>
    intro acc
    rw [List.foldl_cons, ih, Nat.and_or_distrib_right, Ne, Nat.or_eq_zero_iff, not_and_or,
      directionsOf_cons, List.exists_mem_cons_iff, or_assoc]
    exact or_congr_right (or_congr_left (hbit _))

/-! ### The index of the search -/

/-- An `int` holds every index into a label of at most 2^31 characters. -/
theorem lastIndex_of_le {n : ℕ} (h : n ≤ 2 ^ 31) : lastIndex n = n - 1 := by
  apply Int.bmod_eq_of_le
  · omega
  · omega

theorem toNat_lastIndex_le (n : ℕ) : (lastIndex n + 1).toNat ≤ n := by
  rw [lastIndex, Int.bmod]
  split
  · omega
  · omega

/-- The characters that the search comes past: all of them, if the index does
not wrap around. -/
def scanned (label : U32String) : U32String := label.take (lastIndex label.length + 1).toNat

theorem scanned_eq_self (h : label.length ≤ 2 ^ 31) : scanned label = label := by
  rw [scanned, lastIndex_of_le h, Int.sub_add_cancel, Int.toNat_natCast, List.take_length]

theorem findLastNotOfNsmBelow_append (rest : U32String) {n : ℕ} (hn : n ≤ label.length) :
    findLastNotOfNsmBelow T (label ++ rest) n = findLastNotOfNsmBelow T label n := by
  induction n with
  | zero => rfl
  | succ n ih =>
    rw [findLastNotOfNsmBelow, findLastNotOfNsmBelow, ih (Nat.le_of_succ_le hn),
      List.getD_append _ _ _ _ hn]

/-- Where the loop ends that counts down from the end of a string. -/
theorem findLastNotOfNsmBelow_cases (s : U32String) :
    (findLastNotOfNsmBelow T s s.length = none ∧ ∀ c ∈ s, findDirection T c = .nsm) ∨
      ∃ A c B, s = A ++ c :: B ∧ findLastNotOfNsmBelow T s s.length = some A.length ∧
        findDirection T c ≠ .nsm ∧ ∀ b ∈ B, findDirection T b = .nsm := by
  induction s using List.reverseRecOn with
  | nil => exact Or.inl ⟨rfl, by simp⟩
  | append_singleton s c ih =>
    have hstep : findLastNotOfNsmBelow T (s ++ [c]) (s ++ [c]).length
        = if findDirection T c ≠ .nsm then some s.length
          else findLastNotOfNsmBelow T s s.length := by
      rw [List.length_append, List.length_singleton, findLastNotOfNsmBelow,
        findLastNotOfNsmBelow_append [c] le_rfl, List.getD_append_right _ _ _ _ le_rfl,
        Nat.sub_self]
      rfl
    rw [hstep]
    split
    · rename_i hc
      exact Or.inr ⟨s, c, [], rfl, rfl, hc, by simp⟩
    · rename_i hc
      rw [not_not] at hc
      rcases ih with ⟨h, hall⟩ | ⟨A, d, B, rfl, h, hd, hB⟩
      · exact Or.inl ⟨h, List.forall_mem_append.mpr ⟨hall, by simpa using hc⟩⟩
      · refine Or.inr ⟨A, d, B ++ [c], by simp, h, hd, ?_⟩
        exact List.forall_mem_append.mpr ⟨hB, by simpa using hc⟩

/-- Where the search for the last character that is no NSM ends. -/
theorem findLastNotOfNsm_cases (label : U32String) :
    (findLastNotOfNsm T label = none ∧ ∀ c ∈ scanned label, findDirection T c = .nsm) ∨
      ∃ A c B, scanned label = A ++ c :: B ∧ findLastNotOfNsm T label = some A.length ∧
        findDirection T c ≠ .nsm ∧ ∀ b ∈ B, findDirection T b = .nsm := by
  have hlen : (scanned label).length = (lastIndex label.length + 1).toNat :=
    List.length_take_of_le (toNat_lastIndex_le _)
  have hfind : findLastNotOfNsm T label
      = findLastNotOfNsmBelow T (scanned label) (scanned label).length := by
    rw [findLastNotOfNsm, ← hlen]
    nth_rewrite 1 [← List.take_append_drop (lastIndex label.length + 1).toNat label]
    exact findLastNotOfNsmBelow_append _ le_rfl
  rw [hfind]
  exact findLastNotOfNsmBelow_cases (scanned label)

/-! ### The two branches -/

theorem ltrAllowed_iff : ltrAllowed d = true ↔ d = .l ∨ d = .en ∨ d = .es ∨ d = .cs ∨ d = .et ∨
    d = .on ∨ d = .bn ∨ d = .nsm := by
  cases d <;> decide

theorem rtlAllowed_iff : rtlAllowed d = true ↔ d = .r ∨ d = .al ∨ d = .an ∨ d = .en ∨ d = .es ∨
    d = .cs ∨ d = .et ∨ d = .on ∨ d = .bn ∨ d = .nsm := by
  cases d <;> decide

/-- **The loop over an RTL label**, with the numbers seen so far. -/
theorem rtlLoop_iff {hasAn hasEn : Bool} (hflags : ¬ (hasEn = true ∧ hasAn = true))
    {A : U32String} :
    rtlLoop T hasAn hasEn (A ++ [c]) = true ↔
      (∀ d ∈ directionsOf T (A ++ [c]), rtlAllowed d = true) ∧
        (findDirection T c = .r ∨ findDirection T c = .al ∨ findDirection T c = .en ∨
          findDirection T c = .an) ∧
        ¬ ((hasEn = true ∨ .en ∈ directionsOf T (A ++ [c])) ∧
          (hasAn = true ∨ .an ∈ directionsOf T (A ++ [c]))) := by
  induction A generalizing hasAn hasEn with
  | nil =>
    rw [List.nil_append, rtlLoop, rtlLoop, directionsOf_cons, directionsOf_nil]
    generalize findDirection T c = d
    revert hflags
    cases hasAn <;> cases hasEn <;> cases d <;> decide
  | cons a A ih =>
    rw [List.cons_append, rtlLoop, directionsOf_cons, List.forall_mem_cons]
    have hne : (A ++ [c]).isEmpty = false := by simp
    generalize findDirection T a = d
    simp only [List.mem_cons]
    split_ifs with h1 h2 h3
    · -- a number of the other kind was seen before
      apply iff_of_false id
      rintro ⟨-, -, h⟩
      apply h
      simp only [Bool.or_eq_true, Bool.and_eq_true, beq_iff_eq] at h1
      rcases h1 with ⟨rfl, h1⟩ | ⟨rfl, h1⟩
      · exact ⟨Or.inr (Or.inl rfl), Or.inl h1⟩
      · exact ⟨Or.inl h1, Or.inr (Or.inl rfl)⟩
    · apply iff_of_false id
      rintro ⟨⟨h, -⟩, -⟩
      rw [h] at h2
      cases h2
    · rw [hne] at h3
      cases h3
    · rw [Bool.not_eq_true', Bool.not_eq_false] at h2
      simp only [Bool.or_eq_true, Bool.and_eq_true, beq_iff_eq, not_or, not_and] at h1
      -- one more direction leaves at most one flag up
      have hflags' : ¬ ((hasEn || d == .en) = true ∧ (hasAn || d == .an) = true) := by
        simp only [Bool.or_eq_true, beq_iff_eq]
        rintro ⟨he | rfl, ha | ha⟩
        · exact hflags ⟨he, ha⟩
        · exact h1.2 ha he
        · exact h1.1 rfl ha
        · cases ha
      rw [ih hflags', and_iff_right h2]
      simp only [Bool.or_eq_true, beq_iff_eq, or_assoc, eq_comm (a := d)]

/-! ### The check of a label -/

/-- What comes behind the last character that is no NSM adds NSM only. -/
theorem mem_directionsOf_split {A B : U32String} (hB : ∀ b ∈ B, findDirection T b = .nsm)
    {d : Direction} (hd : d ≠ .nsm) :
    d ∈ directionsOf T (A ++ c :: B) ↔ d ∈ directionsOf T (A ++ [c]) := by
  rw [List.append_cons, directionsOf_append, List.mem_append, or_iff_left]
  intro h
  obtain ⟨b, hb, rfl⟩ := List.mem_map.mp h
  exact hd (hB b hb)

/-- The LTR branch checks the conditions on an LTR label. -/
theorem ltrBranch_eq_ltrRule {A B : U32String} (hc : findDirection T c ≠ .nsm)
    (hB : ∀ b ∈ B, findDirection T b = .nsm) (hstarts : StartsLtr (directionsOf T (A ++ c :: B))) :
    ((∀ a ∈ A ++ [c], ltrAllowed (findDirection T a) = true) ∧
      (findDirection T c = .l ∨ findDirection T c = .en)) ↔
        LtrRule (directionsOf T (A ++ c :: B)) := by
  have hnsm : ∀ d ∈ directionsOf T B, d = .nsm := List.forall_mem_map.mpr hB
  rw [LtrRule, and_iff_right hstarts]
  refine and_congr ?_ ?_
  · constructor
    · intro hall d hd
      by_cases hd' : d = .nsm
      · simp [hd']
      · obtain ⟨a, ha, rfl⟩ := List.mem_map.mp ((mem_directionsOf_split hB hd').mp hd)
        exact ltrAllowed_iff.mp (hall a ha)
    · intro hall a ha
      have hmem : findDirection T a ∈ directionsOf T (A ++ c :: B) := by
        rw [List.append_cons, directionsOf_append]
        exact List.mem_append_left _ (List.mem_map_of_mem ha)
      exact ltrAllowed_iff.mpr (hall _ hmem)
  · rw [directionsOf_append, directionsOf_cons,
      endsIn_append (by rintro d (rfl | rfl) <;> decide) hc hnsm]

/-- The RTL branch checks the conditions on an RTL label. -/
theorem rtlLoop_eq_rtlRule {A B : U32String} (hc : findDirection T c ≠ .nsm)
    (hB : ∀ b ∈ B, findDirection T b = .nsm) (hstarts : StartsRtl (directionsOf T (A ++ c :: B))) :
    rtlLoop T false false (A ++ [c]) = true ↔ RtlRule (directionsOf T (A ++ c :: B)) := by
  have hnsm : ∀ d ∈ directionsOf T B, d = .nsm := by
    intro d hd
    obtain ⟨b, hb, rfl⟩ := List.mem_map.mp hd
    exact hB b hb
  rw [rtlLoop_iff (by simp), RtlRule, and_iff_right hstarts,
    mem_directionsOf_split hB (show Direction.en ≠ .nsm by decide),
    mem_directionsOf_split hB (show Direction.an ≠ .nsm by decide)]
  refine and_congr ?_ (and_congr ?_ ?_)
  · constructor
    · intro hall d hd
      by_cases hd' : d = .nsm
      · simp [hd']
      · exact rtlAllowed_iff.mp (hall d ((mem_directionsOf_split hB hd').mp hd))
    · intro hall d hd
      by_cases hd' : d = .nsm
      · simp [hd', rtlAllowed_iff]
      · exact rtlAllowed_iff.mpr (hall d ((mem_directionsOf_split hB hd').mpr hd))
  · rw [directionsOf_append, directionsOf_cons,
      endsIn_append (by rintro d (rfl | rfl | rfl | rfl) <;> decide) hc hnsm]
  · simp

/-- **The check of a label is the Bidi rule** for the characters that the search
comes past, if the label has a character of direction R, AL or AN. -/
theorem checkBidi_eq (h : isRtlLabel T label = true) :
    checkBidi T label = true ↔ BidiRule (directionsOf T (scanned label)) := by
  rw [checkBidi]
  rcases findLastNotOfNsm_cases (T := T) label with ⟨hnone, hall⟩ | ⟨A, c, B, hsplit, hfind, hc, hB⟩
  · -- NSM characters satisfy no rule
    rw [hnone]
    refine iff_of_false Bool.false_ne_true fun hrule => ?_
    have hnsm : ∀ d ∈ (directionsOf T (scanned label)).head?, d = .nsm := by
      intro d hd
      obtain ⟨c, hc, rfl⟩ := List.mem_map.mp (List.mem_of_mem_head? hd)
      exact hall c hc
    rcases hrule.first with hl | hr | hr
    · cases hnsm _ hl
    · cases hnsm _ hr
    · cases hnsm _ hr
  · obtain ⟨rest, hlabel⟩ : ∃ rest, label = A ++ c :: B ++ rest :=
      ⟨_, by rw [← hsplit, scanned, List.take_append_drop]⟩
    have htake : label.take (A.length + 1) = A ++ [c] := by
      rw [hlabel, List.append_cons, List.append_assoc, ← List.length_singleton (a := c),
        ← List.length_append, List.take_left]
    have hlast : label.getD A.length 0 = c := by
      rw [hlabel, List.append_assoc, List.getD_append_right _ _ _ _ le_rfl, Nat.sub_self]
      rfl
    have hhead : (directionsOf T (A ++ c :: B)).head?
        = some (findDirection T (label.getD 0 0)) := by
      rw [hlabel]
      cases A <;> rfl
    rw [hfind, hsplit]
    dsimp only
    rw [if_pos h, htake, hlast, bidiRule_iff]
    split_ifs with hl hall hfirst
    · -- the label begins with L, and has a character that is not allowed
      have hstarts : StartsLtr (directionsOf T (A ++ c :: B)) := by rw [StartsLtr, hhead, hl]
      rw [or_iff_left fun hr => not_startsRtl hstarts hr.1, ← ltrBranch_eq_ltrRule hc hB hstarts]
      refine iff_of_false id fun hboth => ?_
      rw [List.all_eq_true.mpr hboth.1] at hall
      cases hall
    · -- it begins with L, and the character behind which only NSM stand decides
      have hstarts : StartsLtr (directionsOf T (A ++ c :: B)) := by rw [StartsLtr, hhead, hl]
      rw [Bool.not_eq_true', Bool.not_eq_false, List.all_eq_true] at hall
      rw [or_iff_left fun hr => not_startsRtl hstarts hr.1, ← ltrBranch_eq_ltrRule hc hB hstarts,
        and_iff_right hall]
      simp
    · -- it begins with none of L, R and AL
      refine iff_of_false id ?_
      rintro (hrule | hrule)
      · exact hl (Option.some.inj (hhead.symm.trans hrule.1))
      · rcases hrule.1 with hr | hr
        · exact hfirst.1 (Option.some.inj (hhead.symm.trans hr))
        · exact hfirst.2 (Option.some.inj (hhead.symm.trans hr))
    · -- it begins with R or AL: the loop
      rw [or_iff_right fun hrule => hl (Option.some.inj (hhead.symm.trans hrule.1))]
      apply rtlLoop_eq_rtlRule hc hB
      rw [StartsRtl, hhead, Option.some.injEq, Option.some.injEq]
      tauto

/-- A label without such a character passes if the search comes past a
character that is no NSM. -/
theorem checkBidi_of_not_isRtlLabel (h : isRtlLabel T label = false) :
    checkBidi T label = true ↔ ∃ c ∈ scanned label, findDirection T c ≠ .nsm := by
  rw [checkBidi]
  rcases findLastNotOfNsm_cases (T := T) label with ⟨hnone, hall⟩ | ⟨A, c, B, hsplit, hfind, hc, -⟩
  · rw [hnone]
    exact iff_of_false Bool.false_ne_true fun ⟨c, hmem, hne⟩ => hne (hall c hmem)
  · rw [hfind]
    dsimp only
    rw [h]
    exact iff_of_true rfl ⟨c, by rw [hsplit]; simp, hc⟩

/-- What is left of `is_label_valid` behind the checks of the leading mark and
of ContextJ. -/
theorem isLabelValid_eq_checkBidi (hne : label ≠ []) (htables : T.ensureTables = true)
    (hmark : startsWithMark T label = false) (hjoin : isContextjValid T label = true) :
    isLabelValid T label = checkBidi T label := by
  have hempty : label.isEmpty = false := by
    rw [Bool.eq_false_iff, Ne, List.isEmpty_iff]
    exact hne
  rw [isLabelValid, hempty, htables, hmark, hjoin]
  rfl

/-- A valid label with a character of direction R, AL or AN satisfies the rule. -/
theorem bidiRule_of_isLabelValid (hlen : label.length ≤ 2 ^ 31) (h : isLabelValid T label = true)
    (hrtl : isRtlLabel T label = true) : BidiRule (directionsOf T label) := by
  rw [isLabelValid] at h
  split at h
  · rename_i hempty
    rw [List.isEmpty_iff] at hempty
    rw [hempty, isRtlLabel_iff] at hrtl
    simp at hrtl
  · split at h
    · cases h
    · split at h
      · cases h
      · split at h
        · cases h
        · rw [checkBidi_eq hrtl, scanned_eq_self hlen] at h
          exact h

/-! ### When the check is the rule -/

/-- A label is valid exactly if its directions satisfy the rule, if one of them
is R, AL or AN, and valid otherwise, if one of them is not NSM. -/
def BidiExact (T : Tables) (label : U32String) : Prop :=
  ((∃ d ∈ directionsOf T label, d.IsRtl) →
    (isLabelValid T label = true ↔ BidiRule (directionsOf T label))) ∧
  ((∀ d ∈ directionsOf T label, ¬ d.IsRtl) → (∃ d ∈ directionsOf T label, d ≠ .nsm) →
    isLabelValid T label = true)

/-- The characters that the search comes past have the directions that decide. -/
def ScanDecides (T : Tables) (label : U32String) : Prop :=
  ((∃ d ∈ directionsOf T label, d.IsRtl) →
    (BidiRule (directionsOf T (scanned label)) ↔ BidiRule (directionsOf T label))) ∧
  ((∀ d ∈ directionsOf T label, ¬ d.IsRtl) → (∃ d ∈ directionsOf T label, d ≠ .nsm) →
    ∃ d ∈ directionsOf T (scanned label), d ≠ .nsm)

theorem scanDecides_of_le (h : label.length ≤ 2 ^ 31) : ScanDecides T label := by
  rw [ScanDecides, scanned_eq_self h]
  exact ⟨fun _ => Iff.rfl, fun _ hnsm => hnsm⟩

theorem bidiExact_iff_scanDecides (htables : T.ensureTables = true)
    (hmark : startsWithMark T label = false) (hjoin : isContextjValid T label = true) :
    BidiExact T label ↔ ScanDecides T label := by
  have hvalid : ∀ d ∈ directionsOf T label, isLabelValid T label = checkBidi T label := by
    intro d hd
    apply isLabelValid_eq_checkBidi _ htables hmark hjoin
    rintro rfl
    cases hd
  refine and_congr (imp_congr_right fun hrtl => ?_)
    (imp_congr_right fun hnot => imp_congr_right fun hnsm => ?_)
  · have hcheck := checkBidi_eq (isRtlLabel_iff.mpr hrtl)
    obtain ⟨d, hd, -⟩ := hrtl
    rw [hvalid d hd, hcheck]
  · obtain ⟨d, hd, -⟩ := hnsm
    have hrtl : isRtlLabel T label = false := by
      rw [Bool.eq_false_iff, Ne, isRtlLabel_iff]
      rintro ⟨d, hd, hrtl⟩
      exact hnot d hd hrtl
    rw [hvalid d hd, checkBidi_of_not_isRtlLabel hrtl]
    simp [directionsOf]

/-- **Of a label that passes the other checks, `is_label_valid` checks the Bidi
rule**, as long as the label has at most 2^31 characters; of a longer one, it
checks the rule for the characters that an `int` index comes past. -/
theorem isLabelValid_iff_bidiRule (htables : T.ensureTables = true)
    (hmark : startsWithMark T label = false) (hjoin : isContextjValid T label = true) :
    BidiExact T label ↔ label.length ≤ 2 ^ 31 ∨ ScanDecides T label := by
  rw [bidiExact_iff_scanDecides htables hmark hjoin]
  exact ⟨Or.inr, fun h => h.elim scanDecides_of_le id⟩

/-- `א5` has the directions R and EN, `a` with U+0300 has L and NSM. -/
theorem isLabelValid_iff_bidiRule_small :
    BidiExact smallTables [0x5D0, 0x35] ∧ BidiExact smallTables [0x61, 0x300] :=
  ⟨(isLabelValid_iff_bidiRule rfl (by decide +kernel) (by decide +kernel)).mpr
      (Or.inl (by decide)),
    (isLabelValid_iff_bidiRule rfl (by decide +kernel) (by decide +kernel)).mpr
      (Or.inl (by decide))⟩

/-! ### Labels that are too long -/

theorem isContextjValidFrom_of_forall {front : U32String}
    (h : ∀ c ∈ label, c ≠ 0x200C ∧ c ≠ 0x200D) : isContextjValidFrom T front label = true := by
  induction label generalizing front with
  | nil => rfl
  | cons c label ih =>
    rw [List.forall_mem_cons] at h
    rw [isContextjValidFrom, if_pos h.1]
    exact ih h.2

theorem directionsOf_replicate {r : ℕ} (hr : findDirection T r = .r) (n : ℕ) :
    directionsOf T (List.replicate n r) = List.replicate n .r := by
  rw [directionsOf, List.map_replicate, hr]

theorem bidiRule_replicate (n : ℕ) : BidiRule (List.replicate (n + 1) .r) := by
  refine bidiRule_iff.mpr (Or.inr ⟨Or.inl rfl, fun d hd => Or.inl (List.eq_of_mem_replicate hd),
    ⟨List.replicate n .r, .r, [], List.replicate_succ', Or.inl rfl, by simp⟩, ?_⟩)
  rintro ⟨hen, -⟩
  cases List.eq_of_mem_replicate hen

theorem not_bidiRule_replicate_append (n : ℕ) :
    ¬ BidiRule (List.replicate (n + 1) .r ++ [.l]) := by
  intro h
  have hl := h.rtlOnly (Or.inl rfl) .l (by simp)
  simp at hl

section Long

variable {r l n : ℕ} (htables : T.ensureTables = true) (hr : findDirection T r = .r)
  (hmark : startsWithMark T [r] = false) (hjoin : r ≠ 0x200C ∧ r ≠ 0x200D)
include htables hr hmark hjoin

/-- If the index wraps around to a negative number, no label passes. -/
theorem not_bidiExact_replicate (hn : lastIndex (n + 1) < 0) :
    startsWithMark T (List.replicate (n + 1) r) = false ∧
      isContextjValid T (List.replicate (n + 1) r) = true ∧
      ¬ BidiExact T (List.replicate (n + 1) r) := by
  have hjoins : isContextjValid T (List.replicate (n + 1) r) = true :=
    isContextjValidFrom_of_forall fun c hc => List.eq_of_mem_replicate hc ▸ hjoin
  have hscan : scanned (List.replicate (n + 1) r) = [] := by
    rw [scanned, List.length_replicate, Int.toNat_of_nonpos (by omega), List.take_zero]
  refine ⟨hmark, hjoins, fun h => ?_⟩
  have hmarks : startsWithMark T (List.replicate (n + 1) r) = false := hmark
  have hdecides := ((bidiExact_iff_scanDecides htables hmarks hjoins).mp h).1
  rw [hscan, directionsOf_replicate hr] at hdecides
  -- without characters there is no first one, so the rule fails for what is scanned
  have hrule := (hdecides ⟨.r, by simp, Or.inl rfl⟩).mpr (bidiRule_replicate n)
  rcases hrule.first with h | h | h
  · cases h
  · cases h
  · cases h

/-- Otherwise it does not come past the last character. -/
theorem not_bidiExact_replicate_append (hl : findDirection T l = .l)
    (hjoin' : l ≠ 0x200C ∧ l ≠ 0x200D) (hn : 0 ≤ lastIndex (n + 2))
    (hlt : lastIndex (n + 2) < n + 1) :
    startsWithMark T (List.replicate (n + 1) r ++ [l]) = false ∧
      isContextjValid T (List.replicate (n + 1) r ++ [l]) = true ∧
      ¬ BidiExact T (List.replicate (n + 1) r ++ [l]) := by
  have hjoins : isContextjValid T (List.replicate (n + 1) r ++ [l]) = true := by
    apply isContextjValidFrom_of_forall
    intro c hc
    rcases List.mem_append.mp hc with hc | hc
    · exact List.eq_of_mem_replicate hc ▸ hjoin
    · exact List.mem_singleton.mp hc ▸ hjoin'
  obtain ⟨k, hk⟩ := Int.eq_ofNat_of_zero_le hn
  have hscan : scanned (List.replicate (n + 1) r ++ [l]) = List.replicate (k + 1) r := by
    rw [scanned, List.length_append, List.length_replicate, List.length_singleton, hk,
      show ((k : ℤ) + 1).toNat = k + 1 by omega,
      List.take_append_of_le_length (by rw [List.length_replicate]; omega), List.take_replicate,
      Nat.min_eq_left (by omega)]
  have hdirections : directionsOf T (List.replicate (n + 1) r ++ [l])
      = List.replicate (n + 1) .r ++ [.l] := by
    rw [directionsOf_append, directionsOf_replicate hr, directionsOf_cons, hl, directionsOf_nil]
  refine ⟨hmark, hjoins, fun h => ?_⟩
  have hmarks : startsWithMark T (List.replicate (n + 1) r ++ [l]) = false := hmark
  have hdecides := ((bidiExact_iff_scanDecides htables hmarks hjoins).mp h).1
  rw [hscan, directionsOf_replicate hr, hdirections] at hdecides
  -- the letters before it satisfy the rule, and with it they do not
  exact not_bidiRule_replicate_append n
    ((hdecides ⟨.r, by simp, Or.inl rfl⟩).mp (bidiRule_replicate k))

/-- **The bound is exact**: over tables with letters of both directions, all
labels of a length are checked right exactly if the length is at most 2^31. -/
theorem forall_bidiExact_iff (hl : findDirection T l = .l) (hjoin' : l ≠ 0x200C ∧ l ≠ 0x200D) :
    (∀ label, label.length = n → startsWithMark T label = false →
      isContextjValid T label = true → BidiExact T label) ↔ n ≤ 2 ^ 31 := by
  constructor
  · intro h
    by_contra hlt
    have hbound : lastIndex n < 2 ^ 31 := by
      rw [lastIndex, Int.bmod]
      split
      · omega
      · omega
    obtain ⟨n, rfl⟩ : ∃ m, n = m + 2 := ⟨n - 2, by omega⟩
    -- a negative index comes past nothing, any other one not past the end
    rcases lt_or_ge (lastIndex (n + 2)) 0 with hneg | hpos
    · obtain ⟨h1, h2, hnot⟩ := not_bidiExact_replicate htables hr hmark hjoin (n := n + 1) hneg
      exact hnot (h _ (List.length_replicate) h1 h2)
    · obtain ⟨h1, h2, hnot⟩ := not_bidiExact_replicate_append htables hr hmark hjoin hl hjoin'
        hpos (by omega)
      exact hnot (h _ (by simp) h1 h2)
  · rintro hle label rfl hmark hjoin
    exact (bidiExact_iff_scanDecides htables hmark hjoin).mpr (scanDecides_of_le hle)

end Long

/-- **A label of 2^31 + 1 letters**: `א` over and over satisfies the rule, but
the index is negative from the start. -/
theorem not_bidiExact_alef :
    startsWithMark smallTables (List.replicate (2 ^ 31 + 1) 0x5D0) = false ∧
      isContextjValid smallTables (List.replicate (2 ^ 31 + 1) 0x5D0) = true ∧
      ¬ BidiExact smallTables (List.replicate (2 ^ 31 + 1) 0x5D0) :=
  not_bidiExact_replicate rfl (by decide +kernel) (by decide +kernel) (by decide) (by decide)

end AdaIdna
