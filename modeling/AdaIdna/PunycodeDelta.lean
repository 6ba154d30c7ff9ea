/-
AdaIdna/PunycodeDelta.lean

The Punycode loops, one delta at a time.

A delta is written as a threshold numeral (`numerals`), and the two `int32_t`
guards of the reading loop together come down to one: `decodeDelta_digits`
says that a numeral is accepted exactly when the index it leads to fits in 31
bits.  The guard on the weight `w` never decides: up to the sixth digit the
weight fits because every factor is at most 35, and from there on the
threshold has reached `tmax`, which outweighs the factor 10 that is left
(`weight_fits`).  This needs the bias to stay small, and `adapt` keeps it so
(`adapt_le`).

`decodeDelta_canonical` is the converse of writing: whatever the reading loop
accepts is spelled as the writing loop would spell it.
-/
import AdaIdna.Punycode
import AdaIdna.Lib.ThresholdNumeral

namespace AdaIdna

open ThresholdNumeral

/-! ### Digits -/

theorem charToDigitValue_digitToChar {d : ℕ} (h : d < base) :
    charToDigitValue (digitToChar d) = some d := by
  have all : ∀ e : Fin 36, charToDigitValue (digitToChar e) = some e.val := by decide
  exact all ⟨d, h⟩

theorem digitToChar_of_charToDigitValue {c : UInt8} {d : ℕ} (h : charToDigitValue c = some d) :
    d < base ∧ c = digitToChar d := by
  unfold charToDigitValue at h
  split at h
  · rename_i hc
    obtain rfl := Option.some.inj h
    refine ⟨by unfold base; omega, ?_⟩
    rw [digitToChar, if_pos (by omega), show c.toNat - 0x61 + 97 = c.toNat by omega, toChar_toNat]
  · split at h
    · rename_i hc
      obtain rfl := Option.some.inj h
      refine ⟨by unfold base; omega, ?_⟩
      rw [digitToChar, if_neg (by omega),
        show c.toNat - 0x30 + 26 + 22 = c.toNat by omega, toChar_toNat]
    · cases h

theorem charToDigitValue_delimiter : charToDigitValue delimiter = none := by decide

theorem digitToChar_ne_delimiter {d : ℕ} (h : d < base) : digitToChar d ≠ delimiter := by
  intro e
  have := charToDigitValue_digitToChar h
  rw [e, charToDigitValue_delimiter] at this
  cases this

/-- A digit is a lower-case letter or a decimal digit. -/
theorem digitToChar_range {d : ℕ} (h : d < base) :
    0x61 ≤ (digitToChar d).toNat ∧ (digitToChar d).toNat ≤ 0x7A ∨
      0x30 ≤ (digitToChar d).toNat ∧ (digitToChar d).toNat ≤ 0x39 := by
  have all : ∀ e : Fin 36, 0x61 ≤ (digitToChar e).toNat ∧ (digitToChar e).toNat ≤ 0x7A ∨
      0x30 ≤ (digitToChar e).toNat ∧ (digitToChar e).toNat ≤ 0x39 := by decide
  exact all ⟨d, h⟩

/-! ### Numerals -/

theorem thresholdAt_bounds (bias k : ℕ) : 1 ≤ thresholdAt bias k ∧ thresholdAt bias k ≤ 26 := by
  unfold thresholdAt tmin tmax
  split
  · omega
  · split <;> omega

/-- The numerals that the loops read and write under one bias. -/
def numerals (bias : ℕ) : System where
  base := base
  thr j := thresholdAt bias (base * (j + 1))
  thr_pos j := (thresholdAt_bounds bias _).1
  thr_lt j := lt_of_le_of_lt (thresholdAt_bounds bias _).2 (by decide)

theorem encodeDelta_eq (bias : ℕ) {fuel j q : ℕ} (h : q < fuel) :
    encodeDelta bias fuel q (base * (j + 1)) = ((numerals bias).digits j q).map digitToChar := by
  induction fuel generalizing j q with
  | zero => omega
  | succ fuel ih =>
    rw [encodeDelta]
    by_cases hq : q < thresholdAt bias (base * (j + 1))
    · rw [if_pos hq, System.digits_of_lt _ hq]
      rfl
    · have hle : (numerals bias).thr j ≤ q := not_lt.mp hq
      have hlt := (numerals bias).carry_lt hle
      rw [if_neg hq, System.digits_of_le _ hle, List.map_cons, ← ih (by omega)]
      rfl

/-- The bytes of one delta. -/
def deltaBytes (bias d : ℕ) : Bytes := ((numerals bias).digits 0 d).map digitToChar

theorem encodeDelta_base (bias d : ℕ) : encodeDelta bias (d + 1) d base = deltaBytes bias d :=
  encodeDelta_eq bias (j := 0) (Nat.lt_succ_self d)

theorem digits_ne_nil (S : System) (j q : ℕ) : S.digits j q ≠ [] := by
  rcases lt_or_ge q (S.thr j) with h | h
  · rw [S.digits_of_lt h]
    simp
  · rw [S.digits_of_le h]
    simp

theorem deltaBytes_ne_nil (bias d : ℕ) : deltaBytes bias d ≠ [] := by
  simpa [deltaBytes] using digits_ne_nil _ _ _

theorem mem_deltaBytes {bias d : ℕ} {c : UInt8} (h : c ∈ deltaBytes bias d) :
    ∃ e < base, c = digitToChar e := by
  obtain ⟨e, he, rfl⟩ := List.mem_map.mp h
  exact ⟨e, System.digits_lt_base _ he, rfl⟩

/-! ### The bias stays small -/

/-- Where the loop of `adapt` ends, the quotient behind it is small. -/
theorem skewed_le {d : ℕ} (h : d < 456) : 36 * d / (d + 38) ≤ 33 := by
  apply Nat.le_of_lt_succ
  rw [Nat.div_lt_iff_lt_mul (by omega)]
  omega

theorem adaptLoop_le {m fuel d k : ℕ} (hf : d ≤ fuel) (hd : d < 456 * 35 ^ m) :
    (adaptLoop fuel d k).2 + 36 * (adaptLoop fuel d k).1 / ((adaptLoop fuel d k).1 + 38)
      ≤ k + 36 * m + 33 := by
  induction fuel generalizing m d k with
  | zero =>
    have := skewed_le (d := d) (by omega)
    simp only [adaptLoop]
    omega
  | succ fuel ih =>
    rw [adaptLoop]
    split
    · rename_i hgt
      have hgt' : 455 < d := hgt
      -- a division by 35 goes with one more `base` in `k`
      cases m with
      | zero => omega
      | succ m =>
        have hdiv : d / (base - tmin) < 456 * 35 ^ m := by
          rw [Nat.div_lt_iff_lt_mul (by decide), mul_assoc]
          exact hd
        have hlt : d / (base - tmin) < d := Nat.div_lt_self (by omega) (by decide)
        have := ih (k := k + base) (by omega) hdiv
        have hb : base = 36 := rfl
        omega
    · rename_i hle
      have hle' : ¬ 455 < d := hle
      have := skewed_le (d := d) (by omega)
      show k + 36 * d / (d + 38) ≤ _
      omega

/-- The largest bias that `adapt` returns for a delta of 31 bits is below this. -/
def biasLimit : ℕ := 213

theorem adapt_le {d : ℕ} (hd : d ≤ int32Max) (n : ℕ) (first : Bool) :
    adapt d n first ≤ biasLimit := by
  have h31 : int32Max = 2147483647 := rfl
  -- what enters the loop is at most `d`
  have enter : ∀ e : ℕ, 2 * e ≤ d → e + e / n < 456 * 35 ^ 5 := by
    intro e he
    have := Nat.div_le_self e n
    norm_num
    omega
  have key : ∀ e : ℕ, 2 * e ≤ d →
      (adaptLoop (e + e / n) (e + e / n) 0).2 + (base - tmin + 1) *
        (adaptLoop (e + e / n) (e + e / n) 0).1 /
          ((adaptLoop (e + e / n) (e + e / n) 0).1 + skew) ≤ biasLimit := by
    intro e he
    exact adaptLoop_le le_rfl (enter e he)
  cases first
  · exact key (d / 2) (by omega)
  · exact key (d / damp) (by unfold damp; omega)

theorem initialBias_le : initialBias ≤ biasLimit := by decide

/-! ### The guard on the weight -/

theorem weight_fits {bias j : ℕ} (hb : bias ≤ biasLimit)
    (h : (numerals bias).thr j * (numerals bias).weight j ≤ int32Max) :
    (numerals bias).weight j * (numerals bias).span j ≤ int32Max := by
  have h31 : int32Max = 2147483647 := rfl
  have hspan : ∀ l, (numerals bias).span l ≤ 35 := by
    intro l
    have := (numerals bias).thr_pos l
    have hb : (numerals bias).base = 36 := rfl
    unfold System.span
    omega
  rcases Nat.lt_or_ge j 6 with hj | hj
  · -- the first six weights
    have hw : (numerals bias).weight j ≤ 35 ^ 5 :=
      (System.weight_le_pow _ hspan j).trans (Nat.pow_le_pow_right (by decide) (by omega))
    calc (numerals bias).weight j * (numerals bias).span j
        ≤ 35 ^ 5 * 35 := Nat.mul_le_mul hw (hspan j)
      _ ≤ int32Max := by decide
  · -- from there on the threshold is `tmax`
    have ht : (numerals bias).thr j = 26 := by
      show thresholdAt bias (base * (j + 1)) = 26
      have hl : biasLimit = 213 := rfl
      unfold thresholdAt base tmax
      rw [if_neg (by omega), if_pos (by omega)]
    have hs : (numerals bias).span j = 10 := by
      show 36 - (numerals bias).thr j = 10
      omega
    rw [ht] at h
    rw [hs]
    omega

/-! ### Reading one delta -/

variable {bias i w : ℕ} {rest : Bytes}

/-- The guard on a digit: the index may grow by `digit * w`. -/
theorem digit_guard {digit : ℕ} (hi : i ≤ int32Max) (hw : 0 < w) :
    (int32Max - i) / w < digit ↔ int32Max < i + digit * w := by
  rw [Nat.div_lt_iff_lt_mul hw]
  omega

theorem weight_guard {t : ℕ} (ht : t < base) : int32Max / (base - t) < w ↔
    int32Max < w * (base - t) :=
  Nat.div_lt_iff_lt_mul (by omega)

/-- What the loop does with one digit, its guards written as bounds. -/
theorem decodeDelta_digitToChar {digit : ℕ} (hd : digit < base) (hi : i ≤ int32Max) (j : ℕ)
    (rest : Bytes) :
    decodeDelta bias (digitToChar digit :: rest) i ((numerals bias).weight j) (base * (j + 1))
      = if int32Max < i + digit * (numerals bias).weight j then none
        else if digit < (numerals bias).thr j then
          some (i + digit * (numerals bias).weight j, rest)
        else if int32Max < (numerals bias).weight (j + 1) then none
        else
          decodeDelta bias rest (i + digit * (numerals bias).weight j)
            ((numerals bias).weight (j + 1)) (base * (j + 1 + 1)) := by
  have ht : thresholdAt bias (base * (j + 1)) < base := (numerals bias).thr_lt j
  rw [decodeDelta, charToDigitValue_digitToChar hd]
  simp only [digit_guard hi ((numerals bias).weight_pos j), weight_guard ht]
  rfl

/-- A continued digit and its carry lead to the same index. -/
theorem index_carry {j q : ℕ} (hle : (numerals bias).thr j ≤ q) :
    i + ((numerals bias).thr j + (q - (numerals bias).thr j) % (numerals bias).span j)
          * (numerals bias).weight j
        + (numerals bias).carry j q * (numerals bias).weight (j + 1)
      = i + q * (numerals bias).weight j := by
  have hsum := (numerals bias).digit_add_carry hle
  show _ + _ * ((numerals bias).weight j * (numerals bias).span j) = _
  conv_rhs => rw [← hsum]
  ring

/-- **A numeral is accepted exactly when the index it leads to fits.** -/
theorem decodeDelta_digits (hb : bias ≤ biasLimit) {j q : ℕ} (hi : i ≤ int32Max)
    {p : ℕ × Bytes} :
    decodeDelta bias (((numerals bias).digits j q).map digitToChar ++ rest) i
        ((numerals bias).weight j) (base * (j + 1)) = some p
      ↔ i + q * (numerals bias).weight j ≤ int32Max ∧
          p = (i + q * (numerals bias).weight j, rest) := by
  induction j, q using System.digits.induct (numerals bias) generalizing i with
  | case1 j q hq =>
    -- the last digit: below its threshold
    have hlt : q < base := hq.trans ((numerals bias).thr_lt j)
    rw [System.digits_of_lt _ hq, List.map_singleton, List.singleton_append,
      decodeDelta_digitToChar hlt hi, if_pos hq]
    split
    · rename_i hover
      simp [not_le.mpr hover]
    · rename_i hfit
      simp [not_lt.mp hfit, eq_comm]
  | case2 j q hq ih =>
    -- a digit, and what it carries to the next position
    have hle : (numerals bias).thr j ≤ q := not_lt.mp hq
    have htotal := index_carry (i := i) hle
    rw [System.digits_of_le _ hle, List.map_cons, List.cons_append,
      decodeDelta_digitToChar ((numerals bias).continued_lt_base j q) hi,
      if_neg (not_lt.mpr (Nat.le_add_right _ _))]
    split
    · -- the digit alone is too much
      rename_i hover
      have hnot : ¬ i + q * (numerals bias).weight j ≤ int32Max := by
        rw [← htotal]
        exact not_le.mpr (hover.trans_le (Nat.le_add_right _ _))
      simp [hnot]
    · rename_i hfit
      split
      · -- the weight guard fires only where the index does not fit either
        rename_i hweight
        have hnot : ¬ i + q * (numerals bias).weight j ≤ int32Max := by
          intro hindex
          have hthr : (numerals bias).thr j * (numerals bias).weight j ≤ int32Max :=
            (Nat.mul_le_mul_right _ hle).trans ((Nat.le_add_left _ i).trans hindex)
          exact absurd (weight_fits hb hthr) (not_le.mpr hweight)
        simp [hnot]
      · rw [ih (not_lt.mp hfit), htotal]

/-- **The reading loop accepts canonical numerals only.** -/
theorem decodeDelta_canonical {j i' : ℕ} {bytes : Bytes} (hi : i ≤ int32Max)
    (h : decodeDelta bias bytes i ((numerals bias).weight j) (base * (j + 1)) = some (i', rest)) :
    ∃ q, bytes = ((numerals bias).digits j q).map digitToChar ++ rest := by
  induction bytes generalizing i j with
  | nil => cases h
  | cons c bytes ih =>
    rcases hdigit : charToDigitValue c with - | digit
    · rw [decodeDelta, hdigit] at h
      cases h
    · obtain ⟨hlt, rfl⟩ := digitToChar_of_charToDigitValue hdigit
      rw [decodeDelta_digitToChar hlt hi] at h
      split at h
      · cases h
      · rename_i hfit
        split at h
        · -- the last digit
          rename_i hlast
          obtain ⟨rfl, rfl⟩ := Prod.mk.inj (Option.some.inj h)
          refine ⟨digit, ?_⟩
          rw [System.digits_of_lt _ hlast]
          rfl
        · rename_i hlast
          split at h
          · cases h
          · obtain ⟨q, rfl⟩ := ih (not_lt.mp hfit) h
            refine ⟨digit + (numerals bias).span j * q, ?_⟩
            rw [← System.cons_digits _ (not_lt.mp hlast) hlt]
            rfl

/-- Reading a delta from its first position, as the outer loops do. -/
theorem decodeDelta_deltaBytes (hb : bias ≤ biasLimit) {d : ℕ} (hi : i ≤ int32Max)
    {p : ℕ × Bytes} :
    decodeDelta bias (deltaBytes bias d ++ rest) i 1 base = some p
      ↔ i + d ≤ int32Max ∧ p = (i + d, rest) := by
  have h : decodeDelta bias (deltaBytes bias d ++ rest) i ((numerals bias).weight 0)
      (base * (0 + 1)) = some p ↔ i + d * (numerals bias).weight 0 ≤ int32Max ∧
        p = (i + d * (numerals bias).weight 0, rest) := decodeDelta_digits hb hi
  simpa [System.weight] using h

theorem exists_deltaBytes_of_decodeDelta {i' : ℕ} {bytes : Bytes} (hi : i ≤ int32Max)
    (h : decodeDelta bias bytes i 1 base = some (i', rest)) :
    ∃ d, bytes = deltaBytes bias d ++ rest :=
  decodeDelta_canonical (j := 0) hi h

end AdaIdna
