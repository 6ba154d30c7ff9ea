/-
AdaIdna/PunycodeSafety.lean

The arithmetic of punycode.cpp stays in its types.

Function by function, the checked version computes what the version with
natural numbers computes, so it meets no fault and no loop runs out of fuel.
The bounds come from three invariants.  In a delta, the weight grows at least
tenfold with every digit and bounds the position `k`.  Between deltas, `i` is at
most `written_out`, and both are below the length of the input.  In the encoder,
`h` counts the code points below `n`, and `d` the ones passed since the last
delta.

Main result: `punycode_safe`.
-/
import AdaIdna.PunycodeChecked
import AdaIdna.PunycodeCodec
import AdaIdna.Lib.Buffer

namespace AdaIdna

namespace CheckedPunycode

open Checked InsertionCode

/-! ### Bias and threshold -/

/-- The loop of `adapt`: a division takes off at least what `k` gains. -/
theorem adaptLoop_eq {fuel d k : ℕ} (hf : d ≤ fuel) (hk : k + d ≤ int32Max) :
    adaptLoop (fuel + 1) d k
      = ok (((AdaIdna.adaptLoop fuel d k).1 : ℤ), ((AdaIdna.adaptLoop fuel d k).2 : ℤ)) := by
  induction fuel generalizing d k with
  | zero =>
    obtain rfl := Nat.le_zero.mp hf
    rfl
  | succ fuel ih =>
    rw [adaptLoop, AdaIdna.adaptLoop]
    by_cases hgt : (base - tmin) * tmax / 2 < d
    · have hgt' : 455 < d := hgt
      have hdiv : d / (base - tmin) + 36 ≤ d := by
        show d / 35 + 36 ≤ d
        omega
      rw [if_pos (by exact_mod_cast hgt), if_pos hgt, int32_eq (Nat.cast_add k base).symm,
        ok_bind, quotient_natCast (by decide), ok_bind, ih]
      · omega
      · show k + 36 + d / (base - tmin) ≤ int32Max
        omega
      · show k + 36 ≤ 0x7FFFFFFF
        unfold int32Max at hk
        omega
    · rw [if_neg (by exact_mod_cast hgt), if_neg hgt]

theorem adaptLoop_fst_le {fuel d k : ℕ} (hf : d ≤ fuel) :
    (AdaIdna.adaptLoop fuel d k).1 ≤ 455 := by
  induction fuel generalizing d k with
  | zero => exact hf.trans (Nat.zero_le _)
  | succ fuel ih =>
    rw [AdaIdna.adaptLoop]
    by_cases hgt : (base - tmin) * tmax / 2 < d
    · rw [if_pos hgt]
      have hlt : d / (base - tmin) < d := Nat.div_lt_self (by omega) (by decide)
      exact ih (by omega)
    · rw [if_neg hgt]
      exact not_lt.mp hgt

theorem adapt_eq {d n : ℕ} (hd : d ≤ int32Max) (hn : 0 < n) (first : Bool) :
    adapt d n first = ok ((AdaIdna.adapt d n first : ℕ) : ℤ) := by
  have hmax : int32Max = 0x7FFFFFFF := rfl
  have hlimit : biasLimit = 213 := rfl
  have hbias := adapt_le hd n first
  -- either way, `d` is at most halved before its share is added
  suffices hrest : ∀ e : ℕ, 2 * e ≤ d →
      AdaIdna.adapt d n first = (let r := AdaIdna.adaptLoop (e + e / n) (e + e / n) 0
        r.2 + (base - tmin + 1) * r.1 / (r.1 + skew)) →
      quotient d (if first then damp else 2) = ok ((e : ℕ) : ℤ) →
      adapt d n first = ok ((AdaIdna.adapt d n first : ℕ) : ℤ) by
    cases first with
    | true =>
      refine hrest (d / damp) ?_ rfl (quotient_natCast (by decide))
      show 2 * (d / 700) ≤ d
      omega
    | false => exact hrest (d / 2) (by omega) rfl (quotient_natCast (by decide))
  intro e he hval hquot
  have hshare := Nat.div_le_self e n
  have hloop : adaptLoop (e + e / n + 1) (e + e / n : ℕ) (0 : ℕ) = ok _ :=
    adaptLoop_eq le_rfl (by omega)
  have hfst : (AdaIdna.adaptLoop (e + e / n) (e + e / n) 0).1 ≤ 455 := adaptLoop_fst_le le_rfl
  rw [hval] at hbias ⊢
  dsimp only at hbias ⊢
  generalize AdaIdna.adaptLoop (e + e / n) (e + e / n) 0 = r at hloop hfst hbias ⊢
  rw [adapt, hquot, ok_bind, quotient_natCast hn, ok_bind,
    int32_eq (Nat.cast_add e (e / n)).symm (by omega), ok_bind, Int.toNat_natCast]
  rw [show ((0 : ℤ)) = ((0 : ℕ) : ℤ) from rfl, hloop, ok_bind]
  dsimp only
  rw [int32_eq (Nat.cast_mul _ r.1).symm, ok_bind, int32_eq (Nat.cast_add r.1 skew).symm, ok_bind,
    quotient_natCast (by show 0 < r.1 + 38; omega), ok_bind, int32_eq (Nat.cast_add r.2 _).symm]
  · omega
  · show r.1 + 38 ≤ 0x7FFFFFFF
    omega
  · show 36 * r.1 ≤ 0x7FFFFFFF
    omega

theorem thresholdAt_eq {bias k : ℕ} (hb : bias ≤ biasLimit) (hk : k ≤ int32Max) :
    thresholdAt bias k = ok ((AdaIdna.thresholdAt bias k : ℕ) : ℤ) := by
  have hmax : int32Max = 0x7FFFFFFF := rfl
  have hlimit : biasLimit = 213 := rfl
  rw [thresholdAt, AdaIdna.thresholdAt]
  by_cases hle : k ≤ bias
  · rw [if_pos (by exact_mod_cast hle), if_pos hle]
  · rw [if_neg (by exact_mod_cast hle), if_neg hle, int32_eq (Nat.cast_add bias tmax).symm, ok_bind]
    · by_cases htop : bias + tmax ≤ k
      · rw [if_pos (by exact_mod_cast htop), if_pos htop]
      · rw [if_neg (by exact_mod_cast htop), if_neg htop]
        exact int32_eq (Int.ofNat_sub (by omega)).symm (by omega)
    · show bias + 26 ≤ 0x7FFFFFFF
      omega

/-! ### One delta -/

/-- The guard on a digit keeps the index in `int32_t`. -/
theorem index_of_decodeDelta {bias i i' w k : ℕ} {input rest : Bytes} (hi : i ≤ int32Max)
    (hw : 0 < w) (h : AdaIdna.decodeDelta bias input i w k = some (i', rest)) :
    i ≤ i' ∧ i' ≤ int32Max := by
  induction input generalizing i w k with
  | nil => cases h
  | cons c input ih =>
    rw [AdaIdna.decodeDelta] at h
    split at h
    · cases h
    · split at h
      · cases h
      · rename_i hguard
        rw [digit_guard hi hw, not_lt] at hguard
        dsimp only at h
        split at h
        · obtain ⟨rfl, -⟩ := Prod.mk.inj (Option.some.inj h)
          exact ⟨Nat.le_add_right _ _, hguard⟩
        · split at h
          · cases h
          · have hspan := (thresholdAt_bounds bias k).2
            have hpos : 0 < w * (base - AdaIdna.thresholdAt bias k) :=
              Nat.mul_pos hw (by show 0 < 36 - _; omega)
            obtain ⟨hle, hmax⟩ := ih hguard hpos h
            exact ⟨(Nat.le_add_right _ _).trans hle, hmax⟩

/-- **The loop over the digits of a delta.**  The weight bounds the position:
it grows at least tenfold with every digit, `k` by 36. -/
theorem decodeDelta_eq {bias i w k : ℕ} (hb : bias ≤ biasLimit) (hi : i ≤ int32Max) (hw : 0 < w)
    (hw' : w ≤ int32Max) (hk : k ≤ 4 * w + 32) (hk' : k ≤ int32Max) (input : Bytes) :
    decodeDelta bias input i w k
      = ofOption ((AdaIdna.decodeDelta bias input i w k).map fun r => ((r.1 : ℤ), r.2)) := by
  have hmax : int32Max = 0x7FFFFFFF := rfl
  induction input generalizing i w k with
  | nil => rfl
  | cons c input ih =>
    rw [decodeDelta, AdaIdna.decodeDelta]
    rcases hc : charToDigitValue c with - | digit
    · rfl
    · have hroom : (0x7fffffff - (i : ℤ)) = ((int32Max - i : ℕ) : ℤ) := by omega
      dsimp only
      rw [int32_eq hroom (by omega), ok_bind, quotient_natCast hw, ok_bind]
      by_cases hguard : (int32Max - i) / w < digit
      · rw [if_pos (by exact_mod_cast hguard), if_pos hguard]
        rfl
      · rw [if_neg (by exact_mod_cast hguard), if_neg hguard]
        rw [digit_guard hi hw, not_lt] at hguard
        have ht := thresholdAt_bounds bias k
        rw [int32_eq (Nat.cast_mul digit w).symm (by omega), ok_bind,
          int32_eq (Nat.cast_add i (digit * w)).symm (by omega), ok_bind, thresholdAt_eq hb hk',
          ok_bind]
        generalize AdaIdna.thresholdAt bias k = t at ht ⊢
        by_cases hlast : digit < t
        · rw [if_pos (by exact_mod_cast hlast), if_pos hlast]
          rfl
        · have hspan : ((base : ℤ) - t) = ((base - t : ℕ) : ℤ) := by
            show (36 : ℤ) - t = ((36 - t : ℕ) : ℤ)
            omega
          have hten : 10 ≤ base - t := by
            show 10 ≤ 36 - t
            omega
          have hle : base - t ≤ 36 := Nat.sub_le _ _
          rw [if_neg (by exact_mod_cast hlast), if_neg hlast, int32_eq hspan (by omega), ok_bind,
            show (0x7fffffff : ℤ) = ((int32Max : ℕ) : ℤ) from rfl, quotient_natCast (by omega),
            ok_bind]
          by_cases hover : int32Max / (base - t) < w
          · rw [if_pos (by exact_mod_cast hover), if_pos hover]
            rfl
          · rw [if_neg (by exact_mod_cast hover), if_neg hover]
            rw [Nat.div_lt_iff_lt_mul (by omega), not_lt] at hover
            have hgrow : w * 10 ≤ w * (base - t) := Nat.mul_le_mul_left w hten
            have hk36 : k + base ≤ 0x7FFFFFFF := by
              show k + 36 ≤ _
              omega
            rw [int32_eq (Nat.cast_mul w (base - t)).symm (by omega), ok_bind,
              int32_eq (Nat.cast_add k base).symm hk36, ok_bind]
            apply ih hguard
            · omega
            · exact hover
            · show k + 36 ≤ _
              omega
            · exact hk36

/-- The loop as the outer loops start it. -/
theorem decodeDelta_start {bias i : ℕ} (hb : bias ≤ biasLimit) (hi : i ≤ int32Max)
    (input : Bytes) : decodeDelta bias input i 1 base
      = ofOption ((AdaIdna.decodeDelta bias input i 1 base).map fun r => ((r.1 : ℤ), r.2)) :=
  decodeDelta_eq hb hi Nat.one_pos (by decide) (by decide) (by decide) input

/-! ### The decoder -/

theorem insertAt_eq {out : U32String} {i : ℕ} (hi : i ≤ out.length) (n : ℕ) :
    insertAt out i n = ok (out.insertIdx i n) :=
  if_pos ⟨Int.natCast_nonneg i, by exact_mod_cast hi⟩

theorem natCast_beq_zero (i : ℕ) : ((i : ℤ) == 0) = (i == 0) := by
  rw [Bool.eq_iff_iff, beq_iff_eq, beq_iff_eq]
  exact Int.natCast_eq_zero

/-- **The outer loop of the decoder**: `i` stays inside the output, and every
delta takes a byte, so `written_out` stays below the length of the input. -/
theorem decodeLoop_eq {fuel n i bias : ℕ} {bytes : Bytes} {out : U32String}
    (hb : bias ≤ biasLimit) (hi : i ≤ out.length) (hn : n ≤ int32Max)
    (hlen : out.length + bytes.length < int32Max) (hf : bytes.length ≤ fuel) :
    decodeLoop fuel bytes out out.length n i bias
      = ofOption (AdaIdna.decodeLoop fuel bytes out out.length n i bias) := by
  have hmax : int32Max = 0x7FFFFFFF := rfl
  induction fuel generalizing bytes out n i bias with
  | zero =>
    obtain rfl := List.eq_nil_of_length_eq_zero (Nat.le_zero.mp hf)
    rfl
  | succ fuel ih =>
    cases bytes with
    | nil => rfl
    | cons c bytes =>
      rw [List.length_cons] at hlen hf
      rw [decodeLoop, AdaIdna.decodeLoop, decodeDelta_start hb (by omega)]
      rcases hread : AdaIdna.decodeDelta bias (c :: bytes) i 1 base with - | ⟨i', rest⟩
      · rfl
      · obtain ⟨hle, hi'⟩ := index_of_decodeDelta (by omega) Nat.one_pos hread
        have hrest := length_decodeDelta_lt hread
        rw [List.length_cons] at hrest
        have hroom : (0x7fffffff - (n : ℤ)) = ((int32Max - n : ℕ) : ℤ) := by omega
        have hbias := adapt_le ((Nat.sub_le i' i).trans hi') (out.length + 1) (i == 0)
        dsimp only [Option.map_some, ofOption_some]
        rw [ok_bind]
        dsimp only
        rw [int32_eq (Int.ofNat_sub hle).symm (by omega), ok_bind,
          int32_eq (Nat.cast_succ out.length).symm (by omega), ok_bind, natCast_beq_zero,
          adapt_eq (by omega) (Nat.succ_pos _), ok_bind, quotient_natCast (Nat.succ_pos _), ok_bind,
          uint32_eq hroom (by omega), ok_bind, int32_eq rfl (by omega), ok_bind]
        by_cases hover : int32Max - n < i' / (out.length + 1)
        · rw [if_pos (by exact_mod_cast hover), if_pos hover]
          rfl
        · have hplace : i' % (out.length + 1) ≤ out.length :=
            Nat.le_of_lt_succ (Nat.mod_lt _ (Nat.succ_pos _))
          rw [if_neg (by exact_mod_cast hover), if_neg hover,
            uint32_eq (Nat.cast_add n (i' / (out.length + 1))).symm (by omega), ok_bind,
            remainder_natCast (Nat.succ_pos _), ok_bind]
          by_cases hlow : n + i' / (out.length + 1) < 0x80
          · rw [if_pos (by exact_mod_cast hlow), if_pos hlow]
            rfl
          · rw [if_neg (by exact_mod_cast hlow), if_neg hlow, insertAt_eq hplace, ok_bind, ok_bind,
              int32_eq (Nat.cast_succ (i' % (out.length + 1))).symm (by omega), ok_bind]
            have hinsert := List.length_insertIdx_of_le_length hplace (n + i' / (out.length + 1))
            have hnext := ih hbias (i := i' % (out.length + 1) + 1)
              (show _ ≤ (out.insertIdx _ _).length by rw [hinsert]; exact Nat.succ_le_succ hplace)
              (show n + i' / (out.length + 1) ≤ int32Max by omega)
              (show _ + rest.length < int32Max by rw [hinsert]; omega) (by omega)
            rw [hinsert] at hnext
            exact hnext

theorem copyBasic_eq (input : Bytes) (out : U32String)
    (hlen : out.length + input.length ≤ int32Max) :
    copyBasic input out out.length
      = if isAsciiBytes input = true then
          ok (out ++ input.map UInt8.toNat, ((out.length + input.length : ℕ) : ℤ))
        else reject := by
  have hmax : int32Max = 0x7FFFFFFF := rfl
  induction input generalizing out with
  | nil =>
    have hnil : isAsciiBytes [] = true := rfl
    rw [if_pos hnil, List.map_nil, List.append_nil]
    rfl
  | cons c input ih =>
    rw [List.length_cons] at hlen
    rw [copyBasic, isAsciiBytes, List.all_cons]
    by_cases hc : c.toNat < 0x80
    · have hlen' : (out ++ [c.toNat]).length = out.length + 1 := List.length_append
      have hnext := ih (out ++ [c.toNat]) (by omega)
      rw [hlen'] at hnext
      rw [if_neg (not_le.mpr hc), int32_eq (Nat.cast_succ out.length).symm (by omega), ok_bind,
        decide_eq_true hc, Bool.true_and]
      apply hnext.trans
      rw [isAsciiBytes, List.append_assoc, List.singleton_append, List.map_cons, List.length_cons,
        Nat.add_right_comm, Nat.add_assoc]
    · rw [if_pos (not_lt.mp hc), decide_eq_false hc, Bool.false_and, if_neg Bool.false_ne_true]

/-- **The decoder** overflows nowhere. -/
theorem punycodeToUtf32_eq {p : Bytes} (hlen : p.length < int32Max) :
    punycodeToUtf32 p [] = ofOption (AdaIdna.punycodeToUtf32 p []) := by
  have hloop : ∀ (q : Bytes) (out : U32String), out.length + q.length < int32Max →
      decodeLoop q.length q out out.length initialN 0 initialBias
        = ofOption (AdaIdna.decodeLoop q.length q out out.length initialN 0 initialBias) :=
    fun _ _ hq => decodeLoop_eq initialBias_le (Nat.zero_le _) (by decide) hq le_rfl
  have hend : ∀ o : Option U32String,
      (ofOption o >>= fun out => ofOption (rejectAce out)) = ofOption (o.bind rejectAce) := by
    intro o
    cases o <;> rfl
  rw [punycodeToUtf32, AdaIdna.punycodeToUtf32]
  rcases he : findLastOf delimiter p with - | - | e
  · exact (congrArg (· >>= _) (hloop p [] (by simpa using hlen))).trans (hend _)
  · exact (congrArg (· >>= _) (hloop p [] (by simpa using hlen))).trans (hend _)
  · have hlt := (findLastOf_eq_some he).2.1
    have htake : (p.take (e + 1)).length = e + 1 := List.length_take_of_le hlt.le
    have hcopy := copyBasic_eq (p.take (e + 1)) []
      (by rw [List.length_nil, Nat.zero_add, htake]; omega)
    rw [List.length_nil, Nat.zero_add, htake, List.nil_append] at hcopy
    dsimp only
    rw [show copyBasic (p.take (e + 1)) [] 0 = _ from hcopy]
    by_cases hascii : isAsciiBytes (p.take (e + 1)) = true
    · have hout : ((p.take (e + 1)).map UInt8.toNat).length = e + 1 := by
        rw [List.length_map, htake]
      have hdec := hloop (p.drop (e + 2)) ((p.take (e + 1)).map UInt8.toNat)
        (by rw [hout, List.length_drop]; omega)
      rw [hout] at hdec
      rw [if_pos hascii, if_pos hascii, ok_bind, List.nil_append]
      exact (congrArg (· >>= _) hdec).trans (hend _)
    · rw [if_neg hascii, if_neg hascii]
      rfl

/-! ### The checker -/

/-- A computation that answers as `b` does; where it rejects, the answer is no. -/
def Answers (x : Checked Bool) (b : Bool) : Prop := x = ok b ∨ x = reject ∧ b = false

theorem Answers.safe {x : Checked Bool} {b : Bool} (h : Answers x b) : Safe x := by
  rcases h with rfl | ⟨rfl, -⟩
  · exact safe_ok b
  · exact safe_reject

theorem shiftFirst4_eq (insertPos : ℕ) {j : ℕ} {first4 : List ℕ} (hj : j < first4.length) :
    shiftFirst4 insertPos j first4 = ok (AdaIdna.shiftFirst4 insertPos j first4) ∧
      (AdaIdna.shiftFirst4 insertPos j first4).length = first4.length := by
  induction j generalizing first4 with
  | zero => exact ⟨rfl, rfl⟩
  | succ j ih =>
    rw [shiftFirst4, AdaIdna.shiftFirst4]
    by_cases hlt : insertPos < j + 1
    · have hj' : j < first4.length := (Nat.lt_succ_self j).trans hj
      have hread : read first4 j = ok (first4.getD j 0) := by
        rw [read_of_lt hj', Buffer.getD_of_getElem? (List.getElem?_eq_getElem hj')]
      have hnext := ih
        (show j < (first4.set (j + 1) (first4.getD j 0)).length by rwa [List.length_set])
      rw [if_pos (by exact_mod_cast hlt), if_pos hlt, hread, ok_bind, write_of_lt hj, ok_bind]
      rwa [List.length_set] at hnext
    · rw [if_neg (by exact_mod_cast hlt), if_neg hlt]
      exact ⟨rfl, rfl⟩

theorem insertFirst4_eq {insertPos writtenOut : ℕ} (n : ℕ) {first4 : List ℕ}
    (hpos : insertPos ≤ writtenOut) (hlen : first4.length = 4) :
    insertFirst4 insertPos n writtenOut first4
        = ok (AdaIdna.insertFirst4 insertPos n first4) ∧
      (AdaIdna.insertFirst4 insertPos n first4).length = 4 := by
  rw [insertFirst4, AdaIdna.insertFirst4, if_neg (by exact_mod_cast not_lt.mpr hpos)]
  by_cases h4 : insertPos < 4
  · obtain ⟨hshift, hshiftLen⟩ := shiftFirst4_eq insertPos (j := 3) (by rw [hlen]; decide)
    rw [if_pos (by exact_mod_cast h4), if_pos h4, hshift, ok_bind, Int.toNat_natCast,
      Int.toNat_natCast, write_of_lt (by omega), List.length_set]
    exact ⟨rfl, hshiftLen.trans hlen⟩
  · rw [if_neg (by exact_mod_cast h4), if_neg h4]
    exact ⟨rfl, hlen⟩

theorem asciiFirst4_eq (input : Bytes) {first4 : List ℕ} {writtenOut : ℕ}
    (hlen : writtenOut + input.length ≤ int32Max) (h4 : first4.length = 4) :
    ∃ first4', first4'.length = 4 ∧
      AdaIdna.asciiFirst4 input first4 writtenOut = (first4', writtenOut + input.length) ∧
      asciiFirst4 input first4 writtenOut
        = if isAsciiBytes input = true then ok (first4', ((writtenOut + input.length : ℕ) : ℤ))
          else reject := by
  have hmax : int32Max = 0x7FFFFFFF := rfl
  induction input generalizing first4 writtenOut with
  | nil =>
    have hnil : isAsciiBytes [] = true := rfl
    refine ⟨first4, h4, rfl, ?_⟩
    rw [if_pos hnil]
    rfl
  | cons c input ih =>
    rw [List.length_cons] at hlen
    have hset : (if writtenOut < 4 then first4.set writtenOut c.toNat else first4).length = 4 := by
      split
      · rw [List.length_set, h4]
      · exact h4
    obtain ⟨first4', hlen', hpure, hnext⟩ :=
      ih (show writtenOut + 1 + input.length ≤ int32Max by omega) hset
    refine ⟨first4', hlen', ?_, ?_⟩
    · rw [AdaIdna.asciiFirst4, hpure, List.length_cons, Nat.add_assoc, Nat.add_comm 1]
    · rw [asciiFirst4, isAsciiBytes, List.all_cons]
      by_cases hc : c.toNat < 0x80
      · have hkeep : keepFirst4 writtenOut c first4
            = ok (if writtenOut < 4 then first4.set writtenOut c.toNat else first4) := by
          rw [keepFirst4]
          by_cases hw : writtenOut < 4
          · rw [if_pos (by exact_mod_cast hw), if_pos hw, Int.toNat_natCast,
              write_of_lt (by omega)]
          · rw [if_neg (by exact_mod_cast hw), if_neg hw]
        rw [if_neg (not_le.mpr hc), hkeep, ok_bind,
          sizeT_eq (Nat.cast_succ writtenOut).symm (by omega), ok_bind, decide_eq_true hc,
          Bool.true_and]
        apply hnext.trans
        rw [isAsciiBytes, List.length_cons, Nat.add_assoc, Nat.add_comm 1]
      · rw [if_pos (not_lt.mp hc), decide_eq_false hc, Bool.false_and, if_neg Bool.false_ne_true]

theorem verifyLoop_nil (fuel writtenOut n i bias : ℕ) (first4 : List ℕ) :
    Answers (verifyLoop fuel [] first4 writtenOut n i bias)
      (AdaIdna.verifyLoop fuel [] first4 writtenOut n i bias) := by
  left
  have hfour : decide ((4 : ℤ) ≤ writtenOut) = decide (4 ≤ writtenOut) := by
    rw [Bool.eq_iff_iff, decide_eq_true_iff, decide_eq_true_iff]
    exact_mod_cast Iff.rfl
  rw [verifyLoop, AdaIdna.verifyLoop, hfour]

/-- **The outer loop of the checker** has the bounds of the decoder's. -/
theorem verifyLoop_answers {fuel writtenOut n i bias : ℕ} {bytes : Bytes} {first4 : List ℕ}
    (hb : bias ≤ biasLimit) (hi : i ≤ writtenOut) (hn : n ≤ int32Max)
    (hlen : writtenOut + bytes.length < int32Max) (h4 : first4.length = 4)
    (hf : bytes.length ≤ fuel) :
    Answers (verifyLoop fuel bytes first4 writtenOut n i bias)
      (AdaIdna.verifyLoop fuel bytes first4 writtenOut n i bias) := by
  have hmax : int32Max = 0x7FFFFFFF := rfl
  induction fuel generalizing bytes first4 writtenOut n i bias with
  | zero =>
    obtain rfl := List.eq_nil_of_length_eq_zero (Nat.le_zero.mp hf)
    exact verifyLoop_nil 0 _ _ _ _ _
  | succ fuel ih =>
    cases bytes with
    | nil => exact verifyLoop_nil (fuel + 1) _ _ _ _ _
    | cons c bytes =>
      rw [List.length_cons] at hlen hf
      rw [verifyLoop, AdaIdna.verifyLoop, decodeDelta_start hb (by omega)]
      rcases hread : AdaIdna.decodeDelta bias (c :: bytes) i 1 base with - | ⟨i', rest⟩
      · exact Or.inr ⟨rfl, rfl⟩
      · obtain ⟨hle, hi'⟩ := index_of_decodeDelta (by omega) Nat.one_pos hread
        have hrest := length_decodeDelta_lt hread
        rw [List.length_cons] at hrest
        have hroom : (0x7fffffff - (n : ℤ)) = ((int32Max - n : ℕ) : ℤ) := by omega
        have hbias := adapt_le ((Nat.sub_le i' i).trans hi') (writtenOut + 1) (i == 0)
        have hpos : 0 < writtenOut + 1 := Nat.succ_pos _
        have hcount : (writtenOut : ℤ) + 1 = ((writtenOut + 1 : ℕ) : ℤ) := rfl
        dsimp only [Option.map_some, ofOption_some]
        rw [ok_bind]
        dsimp only
        rw [int32_eq (Int.ofNat_sub hle).symm (by omega), ok_bind, sizeT_eq hcount (by omega),
          ok_bind, int32_eq rfl (by omega), ok_bind, natCast_beq_zero,
          adapt_eq (by omega) hpos, ok_bind, sizeT_eq rfl (by omega), ok_bind,
          quotient_natCast hpos, ok_bind, uint32_eq hroom (by omega), ok_bind]
        by_cases hover : int32Max - n < i' / (writtenOut + 1)
        · rw [if_pos (by exact_mod_cast hover), if_pos hover]
          exact Or.inr ⟨rfl, rfl⟩
        · have hplace : i' % (writtenOut + 1) ≤ writtenOut :=
            Nat.le_of_lt_succ (Nat.mod_lt _ (Nat.succ_pos _))
          rw [if_neg (by exact_mod_cast hover), if_neg hover, ok_bind,
            uint32_eq (Nat.cast_add n (i' / (writtenOut + 1))).symm (by omega), ok_bind,
            remainder_natCast hpos, ok_bind]
          by_cases hlow : n + i' / (writtenOut + 1) < 0x80
          · rw [if_pos (by exact_mod_cast hlow), if_pos hlow]
            exact Or.inr ⟨rfl, rfl⟩
          · obtain ⟨hinsert, hwindow⟩ := insertFirst4_eq (n + i' / (writtenOut + 1)) hplace h4
            rw [if_neg (by exact_mod_cast hlow), if_neg hlow, sizeT_eq rfl (by omega), ok_bind,
              hinsert, ok_bind, ok_bind,
              int32_eq (Nat.cast_succ (i' % (writtenOut + 1))).symm (by omega), ok_bind]
            refine ih hbias (Nat.succ_le_succ hplace) ?_ ?_ hwindow ?_
            · omega
            · omega
            · omega

/-- **The checker** overflows nowhere. -/
theorem verifyPunycode_answers {p : Bytes} (hlen : p.length < int32Max) :
    Answers (verifyPunycode p) (AdaIdna.verifyPunycode p) := by
  rw [verifyPunycode, AdaIdna.verifyPunycode]
  rcases he : findLastOf delimiter p with - | e
  · exact verifyLoop_answers initialBias_le (Nat.zero_le _) (by decide)
      (by rwa [Nat.zero_add]) rfl le_rfl
  · have hlt := (findLastOf_eq_some he).2.1
    have htake : (p.take e).length = e := List.length_take_of_le hlt.le
    obtain ⟨first4, h4, hpure, hascii⟩ := asciiFirst4_eq (p.take e)
      (show 0 + (p.take e).length ≤ int32Max by omega) (show [0, 0, 0, 0].length = 4 from rfl)
    dsimp only
    rw [hpure, show asciiFirst4 (p.take e) [0, 0, 0, 0] 0 = _ from hascii]
    by_cases h : isAsciiBytes (p.take e) = true
    · rw [if_pos h, if_pos h, ok_bind]
      refine verifyLoop_answers initialBias_le (Nat.zero_le _) (by decide) ?_ h4 le_rfl
      rw [htake, List.length_drop]
      omega
    · rw [if_neg h, if_neg h]
      exact Or.inr ⟨rfl, rfl⟩

/-! ### The encoder -/

theorem digitToChar_eq {digit : ℕ} (h : digit < base) :
    digitToChar digit = ok (AdaIdna.digitToChar digit) := by
  have hchar : ∀ x < 0x80, charOf (x : ℕ) = ok (toChar x) := fun x hx =>
    if_pos ⟨Int.natCast_nonneg x, by exact_mod_cast hx⟩
  have hlt : digit < 36 := h
  rw [digitToChar, AdaIdna.digitToChar]
  by_cases h26 : digit < 26
  · have hsum : (digit : ℤ) + 97 = ((digit + 97 : ℕ) : ℤ) := rfl
    rw [if_pos (by exact_mod_cast h26), if_pos h26, int32_eq hsum (by omega), ok_bind,
      hchar _ (by omega)]
  · have hsum : (digit : ℤ) + 22 = ((digit + 22 : ℕ) : ℤ) := rfl
    rw [if_neg (by exact_mod_cast h26), if_neg h26, int32_eq hsum (by omega), ok_bind,
      hchar _ (by omega)]

/-- **The loop over the digits that are written.**  With every digit, `q` loses
a decimal place, so there are few. -/
theorem encodeDelta_eq {bias fuel q k m : ℕ} (hb : bias ≤ biasLimit) (hq : q < fuel)
    (hm : q < 10 ^ m) (hk : k + 36 * m ≤ 1000) (hq' : q ≤ int32Max) (out : Bytes) :
    encodeDelta bias fuel q k out = ok (out ++ AdaIdna.encodeDelta bias fuel q k) := by
  have hmax : int32Max = 0x7FFFFFFF := rfl
  induction fuel generalizing q k m out with
  | zero => exact absurd hq (Nat.not_lt_zero _)
  | succ fuel ih =>
    have ht := thresholdAt_bounds bias k
    have hbase : base = 36 := rfl
    rw [encodeDelta, AdaIdna.encodeDelta, thresholdAt_eq hb (by omega), ok_bind]
    generalize AdaIdna.thresholdAt bias k = t at ht ⊢
    by_cases hlast : q < t
    · rw [if_pos (by exact_mod_cast hlast), if_pos hlast, digitToChar_eq (by omega), ok_bind]
    · have hspan : ((base : ℤ) - t) = ((base - t : ℕ) : ℤ) := by
        show (36 : ℤ) - t = ((36 - t : ℕ) : ℤ)
        omega
      have hpos : 0 < base - t := by omega
      have hlow := Nat.mod_lt (q - t) hpos
      -- the quotient is smaller by a factor of at least ten
      have hcarry : (q - t) / (base - t) ≤ (q - t) / 10 :=
        Nat.div_le_div_left (by omega) (by decide)
      cases m with
      | zero =>
        rw [Nat.pow_zero] at hm
        omega
      | succ m =>
        rw [Nat.pow_succ] at hm
        rw [if_neg (by exact_mod_cast hlast), if_neg hlast,
          int32_eq (Int.ofNat_sub (not_lt.mp hlast)).symm (by omega), ok_bind,
          int32_eq hspan (by omega), ok_bind, remainder_natCast hpos, ok_bind,
          int32_eq (Nat.cast_add t _).symm (by omega), ok_bind, digitToChar_eq (by omega), ok_bind,
          quotient_natCast hpos, ok_bind, int32_eq (Nat.cast_add k base).symm (by omega), ok_bind,
          ih (m := m) (by omega) (by omega) (by omega) (by omega), List.append_assoc]
        rfl

/-- The variables as values of their types. -/
def ofState (s : AdaIdna.EncoderState) : EncoderState := ⟨s.d, s.bias, s.h, s.out⟩

theorem natCast_beq (h b : ℕ) : ((h : ℤ) == b) = (h == b) := by
  rw [Bool.eq_iff_iff, beq_iff_eq, beq_iff_eq]
  exact Int.natCast_inj

section Pass

variable {n b d bias h c : ℕ} {out : Bytes}

theorem countBelow_of_lt (hc : c < n) :
    countBelow n c (ofState ⟨d, bias, h, out⟩)
      = if (d : ℤ) = 0x7fffffff then reject
        else int32 (d + 1) >>= fun d' => ok ⟨d', bias, h, out⟩ :=
  if_pos (by exact_mod_cast hc)

theorem countBelow_of_le (hc : n ≤ c) (s : EncoderState) : countBelow n c s = ok s :=
  if_neg (by exact_mod_cast not_lt.mpr hc)

theorem emitAt_of_ne (hc : c ≠ n) (s : EncoderState) : emitAt n b c s = ok s :=
  if_neg (by exact_mod_cast hc)

/-- The delta of an occurrence is written. -/
theorem emitAt_self (hb : bias ≤ biasLimit) (hd : d ≤ int32Max) (hh : h + 1 ≤ int32Max) :
    emitAt c b c (ofState ⟨d, bias, h, out⟩) = ok (ofState
      { d := 0
        bias := AdaIdna.adapt d (h + 1) (h == b)
        h := h + 1
        out := out ++ AdaIdna.encodeDelta bias (d + 1) d base }) := by
  have hmax : int32Max = 0x7FFFFFFF := rfl
  have hdelta : encodeDelta bias (d + 1) d base out = _ :=
    encodeDelta_eq (k := base) (m := 10) hb (Nat.lt_succ_self d) (by omega) (by decide) hd out
  have hcount : (h : ℤ) + 1 = ((h + 1 : ℕ) : ℤ) := rfl
  rw [emitAt, if_pos rfl]
  show (encodeDelta bias ((d : ℤ).toNat + 1) d base out >>= fun out => sizeT (h + 1) >>=
    fun count => int32 count >>= fun count => adapt d count ((h : ℤ) == b) >>=
      fun bias => sizeT (h + 1) >>= fun h => ok (EncoderState.mk 0 bias h out)) = _
  rw [Int.toNat_natCast, hdelta, ok_bind, sizeT_eq hcount (by omega), ok_bind,
    int32_eq rfl (by omega), ok_bind, natCast_beq, adapt_eq hd (Nat.succ_pos h), ok_bind, ok_bind]
  rfl

/-- **The pass over the input.** -/
theorem encodePass_eq {cs : U32String} (hb : bias ≤ biasLimit) (hd : d ≤ int32Max)
    (hh : h + (scan n cs d).1.length ≤ int32Max) :
    encodePass n b cs (ofState ⟨d, bias, h, out⟩)
      = ofOption ((AdaIdna.encodePass n b cs ⟨d, bias, h, out⟩).map ofState) := by
  have hmax : int32Max = 0x7FFFFFFF := rfl
  induction cs generalizing d bias h out with
  | nil => rfl
  | cons c cs ih =>
    rw [encodePass, AdaIdna.encodePass]
    rw [scan] at hh
    rcases lt_trichotomy c n with hc | rfl | hc
    · rw [if_pos hc] at hh
      rw [countBelow_of_lt hc, if_pos hc]
      by_cases hfull : d = int32Max
      · rw [if_pos (by omega), if_pos hfull]
        rfl
      · rw [if_neg (by omega), if_neg hfull, int32_eq (Nat.cast_succ d).symm (by omega), ok_bind,
          ok_bind, emitAt_of_ne hc.ne, ok_bind]
        exact ih hb (by omega) hh
    · rw [if_neg (lt_irrefl c), if_pos rfl, List.length_cons] at hh
      rw [countBelow_of_le le_rfl, ok_bind, emitAt_self hb hd (by omega), ok_bind,
        if_neg (lt_irrefl c), if_pos rfl]
      exact ih (adapt_le hd _ _) (Nat.zero_le _) (by omega)
    · rw [if_neg hc.not_gt, if_neg hc.ne'] at hh
      rw [countBelow_of_le hc.le, ok_bind, emitAt_of_ne hc.ne', ok_bind, if_neg hc.not_gt,
        if_neg hc.ne']
      exact ih hb hd hh

end Pass

theorem nextCodePoint_eq (n : ℕ) (s : U32String) :
    nextCodePoint n s = ((AdaIdna.nextCodePoint n s : ℕ) : ℤ) := by
  have hfold : ∀ m : ℕ, s.foldl
      (fun (m : ℤ) (codePoint : ℕ) => if (n : ℤ) ≤ codePoint ∧ codePoint < m then codePoint else m)
        m = ((s.foldl
          (fun m codePoint => if n ≤ codePoint ∧ codePoint < m then codePoint else m)
            m : ℕ) : ℤ) := by
    induction s with
    | nil => exact fun m => rfl
    | cons c s ih =>
      intro m
      rw [List.foldl_cons, List.foldl_cons, ← ih]
      congr 1
      by_cases h : n ≤ c ∧ c < m
      · rw [if_pos h, if_pos (by exact_mod_cast h)]
      · rw [if_neg h, if_neg (by exact_mod_cast h)]
  exact hfold 0x10FFFF

theorem biasAfter_le {ds : List ℕ} (h : ∀ δ ∈ ds, δ ≤ int32Max) {bias : ℕ}
    (hb : bias ≤ biasLimit) (n : ℕ) (first : Bool) : biasAfter bias n first ds ≤ biasLimit := by
  induction ds generalizing bias n first with
  | nil => exact hb
  | cons d ds ih =>
    rw [List.forall_mem_cons] at h
    exact ih h.2 (adapt_le h.1 _ _) _ _

/-- **A round of the encoder**: after the guard, the sum is in range. -/
theorem encodeRound_eq {s : U32String} {b n m d bias h : ℕ} {p : Bytes}
    (hb : bias ≤ biasLimit) (hd : d ≤ int32Max) (hnm : n ≤ m) (hm : m ≤ 0x10FFFF)
    (hh : h + (scan m s (d + (m - n) * (h + 1))).1.length < int32Max) :
    encodeRound s b n m (ofState ⟨d, bias, h, p⟩)
      = ofOption ((AdaIdna.encodeRound s b n m ⟨d, bias, h, p⟩).map ofState) := by
  have hmax : int32Max = 0x7FFFFFFF := rfl
  have hroom : (0x7fffffff - (d : ℤ)) = ((int32Max - d : ℕ) : ℤ) := by omega
  have hcount : (h : ℤ) + 1 = ((h + 1 : ℕ) : ℤ) := rfl
  have hd' : (ofState ⟨d, bias, h, p⟩).d = d := rfl
  have hh' : (ofState ⟨d, bias, h, p⟩).h = h := rfl
  rw [encodeRound, hd', hh', uint32_eq (Int.ofNat_sub hnm).symm (by omega), ok_bind,
    int32_eq hroom (by omega), ok_bind, sizeT_eq rfl (by omega), ok_bind,
    sizeT_eq hcount (by omega), ok_bind, quotient_natCast (Nat.succ_pos h), ok_bind]
  show _ = ofOption ((if (int32Max - d) / (h + 1) < m - n then none else _).map ofState)
  by_cases hover : (int32Max - d) / (h + 1) < m - n
  · rw [if_pos (by exact_mod_cast hover), if_pos hover]
    rfl
  · rw [if_neg (by exact_mod_cast hover), if_neg hover]
    rw [Nat.div_lt_iff_lt_mul (show 0 < h + 1 from Nat.succ_pos h), not_lt] at hover
    have hproduct : ((m - n : ℕ) : ℤ) * ((h + 1 : ℕ) : ℤ) = (((m - n) * (h + 1) : ℕ) : ℤ) :=
      (Nat.cast_mul _ _).symm
    rw [sizeT_eq hproduct (by omega), ok_bind, int32_eq rfl (by omega), ok_bind,
      int32_eq (Nat.cast_add d _).symm (by omega), ok_bind]
    exact encodePass_eq hb (by omega) hh.le

/-- **The outer loop of the encoder**: `h` counts the code points below `n`, so
`m` is one of the others, and after the pass `d` is less than the length of the
input. -/
theorem encodeLoop_eq {σ : State} {s : U32String} {b fuel n d bias : ℕ} {p : Bytes}
    (htop : ∀ y ∈ s, y ≤ 0x10FFFF) (hs : s.length < int32Max) (hsync : Sync σ [] s n d)
    (hb : bias ≤ biasLimit) (hd : d ≤ int32Max) (hbasic : b ≤ (s.filter (· < n)).length)
    (hf : s.length ≤ fuel + (s.filter (· < n)).length) :
    encodeLoop s b fuel n (ofState ⟨d, bias, (s.filter (· < n)).length, p⟩)
      = ofOption (AdaIdna.encodeLoop s b fuel n ⟨d, bias, (s.filter (· < n)).length, p⟩) := by
  have hmax : int32Max = 0x7FFFFFFF := rfl
  have hle : ∀ m, (s.filter (· < m)).length ≤ s.length := fun m => List.length_filter_le _ _
  induction fuel generalizing σ n d bias p with
  | zero =>
    have hdone : ¬ (s.filter (· < n)).length < s.length := by omega
    have hdone' : ¬ ((s.filter (· < n)).length : ℤ) < s.length := by exact_mod_cast hdone
    rw [encodeLoop, AdaIdna.encodeLoop, if_neg (show ¬ _ < _ from hdone)]
    exact if_neg hdone'
  | succ fuel ih =>
    rw [encodeLoop, encodeLoop_succ, nextCodePoint_eq]
    by_cases hlt : (s.filter (· < n)).length < s.length
    · have hlt' : ((s.filter (· < n)).length : ℤ) < s.length := by exact_mod_cast hlt
      obtain ⟨hmem, hnm, -, -⟩ := hsync.walk htop hlt
      obtain ⟨hnext, hlen, hgrow⟩ := hsync.round htop hlt
      have hm := htop _ hmem
      have hsnd := (scan_snd_le (n := least 0x10FFFF n s)
        (d := d + (least 0x10FFFF n s - n) * ((s.filter (· < n)).length + 1)) s).2 hmem
      have hcount := hle (least 0x10FFFF n s + 1)
      have hround := encodeRound_eq (s := s) (b := b) (h := (s.filter (· < n)).length)
        (p := p) hb hd hnm hm (by omega)
      rw [if_pos (show _ < _ from hlt), AdaIdna.nextCodePoint_eq]
      generalize least 0x10FFFF n s = m at *
      rcases hres : AdaIdna.encodeRound s b n m ⟨d, bias, (s.filter (· < n)).length, p⟩ with - | e
      · rw [hres] at hround
        apply (if_pos hlt').trans
        dsimp only
        rw [show encodeRound s b n m _ = _ from hround]
        rfl
      · rw [hres] at hround
        rw [encodeRound_eq_some hs.le hmem hd hbasic] at hres
        obtain ⟨hfit, rfl⟩ := hres
        apply (if_pos hlt').trans
        dsimp only
        generalize scan m s (d + (m - n) * ((s.filter (· < n)).length + 1)) = r at *
        have hsucc := ih (p := p ++ emit bias (s.filter (· < n)).length
          ((s.filter (· < n)).length == b) r.1) hnext
          (biasAfter_le hfit hb (s.filter (· < n)).length ((s.filter (· < n)).length == b))
          (by omega) (by omega) (by omega)
        rw [← hlen] at hsucc
        rw [show encodeRound s b n m _ = _ from hround, Option.map_some, ofOption_some, ok_bind]
        dsimp only [ofState]
        rw [int32_eq (Nat.cast_succ r.2).symm (by omega), ok_bind,
          uint32_eq (Nat.cast_succ m).symm (by omega), ok_bind]
        exact hsucc
    · have hlt' : ¬ ((s.filter (· < n)).length : ℤ) < s.length := by exact_mod_cast hlt
      rw [if_neg (show ¬ _ < _ from hlt)]
      exact if_neg hlt'

/-- The copy of the basic code points tests the range of all. -/
theorem pushBasic_eq {h : ℕ} {s : U32String} (hlen : h + s.length ≤ int32Max) (out : Bytes) :
    pushBasic s h out
      = if s.all (fun c => decide (IsScalar c)) = true then
          ok (((h + (s.filter (· < 0x80)).length : ℕ) : ℤ),
            out ++ (s.filter (· < 0x80)).map toChar)
        else reject := by
  have hmax : int32Max = 0x7FFFFFFF := rfl
  induction s generalizing h out with
  | nil =>
    have hnil : List.all ([] : U32String) (fun c => decide (IsScalar c)) = true := rfl
    rw [if_pos hnil, List.filter_nil, List.map_nil, List.append_nil]
    rfl
  | cons c s ih =>
    rw [List.length_cons] at hlen
    have hrange : (0x10ffff < c ∨ 0xd800 ≤ c ∧ c < 0xe000) ↔ ¬ IsScalar c := by
      unfold IsScalar
      omega
    rw [pushBasic, List.all_cons]
    by_cases hc : c < 0x80
    · have hscalar : IsScalar c := by
        unfold IsScalar
        omega
      have hpush : pushOne c h out = ok (((h + 1 : ℕ) : ℤ), out ++ [toChar c]) := by
        rw [pushOne, if_pos hc, sizeT_eq (Nat.cast_succ h).symm (by omega), ok_bind]
      rw [hpush, ok_bind]
      dsimp only
      rw [if_neg (hrange.not.mpr (not_not_intro hscalar)), ih (by omega), decide_eq_true hscalar,
        Bool.true_and, List.filter_cons_of_pos (by simpa using hc), List.map_cons,
        List.append_assoc, List.singleton_append, List.length_cons, Nat.add_right_comm,
        Nat.add_assoc]
    · have hpush : pushOne c h out = ok ((h : ℤ), out) := if_neg hc
      rw [hpush, ok_bind]
      dsimp only
      by_cases hscalar : IsScalar c
      · rw [if_neg (hrange.not.mpr (not_not_intro hscalar)), ih (by omega),
          decide_eq_true hscalar, Bool.true_and, List.filter_cons_of_neg (by simpa using hc)]
      · rw [if_pos (hrange.mpr hscalar), decide_eq_false hscalar, Bool.false_and,
          if_neg Bool.false_ne_true]

/-- **The encoder** overflows nowhere. -/
theorem utf32ToPunycode_eq {s : U32String} (hlen : s.length < int32Max) (out : Bytes) :
    utf32ToPunycode s out = ofOption (AdaIdna.utf32ToPunycode s out) := by
  have hpush := pushBasic_eq (h := 0) (s := s) (by omega) out
  rw [Nat.zero_add] at hpush
  rw [utf32ToPunycode, AdaIdna.utf32ToPunycode, show pushBasic s 0 out = _ from hpush]
  by_cases hall : s.all (fun c => decide (IsScalar c)) = true
  · have htop : ∀ y ∈ s, y ≤ 0x10FFFF := fun y hy =>
      (of_decide_eq_true (List.all_eq_true.mp hall y hy)).1
    have hloop : ∀ q : Bytes, encodeLoop s _ s.length _ (ofState ⟨0, initialBias, _, q⟩) = _ :=
      fun q => encodeLoop_eq (p := q) htop hlen (sync_start initialN s) initialBias_le
        (Nat.zero_le _) le_rfl (Nat.le_add_right _ _)
    rw [if_pos hall, if_pos hall, ok_bind]
    dsimp only
    by_cases hbasic : 0 < (s.filter (· < 0x80)).length
    · rw [if_pos (by exact_mod_cast hbasic), if_pos hbasic]
      exact hloop _
    · rw [if_neg (by exact_mod_cast hbasic), if_neg hbasic]
      exact hloop _
  · rw [if_neg hall, if_neg hall]
    rfl

/-! ### Main result -/

/-- **Punycode arithmetic never overflows**: on inputs shorter than 2^31 - 1, no
value leaves its type, no divisor is zero, every insertion is inside the output,
and every loop ends. -/
theorem punycode_safe :
    (∀ p : Bytes, p.length < int32Max → Safe (punycodeToUtf32 p []) ∧ Safe (verifyPunycode p)) ∧
      ∀ (s : U32String) (out : Bytes), s.length < int32Max → Safe (utf32ToPunycode s out) := by
  refine ⟨fun p hlen => ⟨?_, ?_⟩, fun s out hlen => ?_⟩
  · rw [punycodeToUtf32_eq hlen]
    exact safe_ofOption _
  · exact (verifyPunycode_answers hlen).safe
  · rw [utf32ToPunycode_eq hlen]
    exact safe_ofOption _

/-- `bcher-kva` and `bücher` -/
theorem punycode_safe_buecher :
    (Safe (punycodeToUtf32 [0x62, 0x63, 0x68, 0x65, 0x72, 0x2D, 0x6B, 0x76, 0x61] []) ∧
        Safe (verifyPunycode [0x62, 0x63, 0x68, 0x65, 0x72, 0x2D, 0x6B, 0x76, 0x61])) ∧
      Safe (utf32ToPunycode [0x62, 0xFC, 0x63, 0x68, 0x65, 0x72] []) :=
  ⟨punycode_safe.1 _ (by decide), punycode_safe.2 _ _ (by decide)⟩

end CheckedPunycode

end AdaIdna
