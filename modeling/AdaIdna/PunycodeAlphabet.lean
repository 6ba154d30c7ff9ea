/-
AdaIdna/PunycodeAlphabet.lean

What the Punycode functions can write, without any bound on the length.

The encoder only appends to its output (`utf32ToPunycode_append`), and appends
basic code points of its input, the delimiter and lower case digits
(`mem_utf32ToPunycode`).  The decoder's output has the basic code points of its
input and code points that are not basic (`mem_punycodeToUtf32`).
-/
import AdaIdna.PunycodeWire

namespace AdaIdna

variable {s r : U32String} {p out : Bytes}

/-! ### The encoder appends -/

/-- A state with more in front of its output. -/
def EncoderState.behind (σ : EncoderState) (pre : Bytes) : EncoderState :=
  { σ with out := pre ++ σ.out }

theorem encodePass_behind (n b : ℕ) (s : U32String) (σ : EncoderState) (pre : Bytes) :
    encodePass n b s (σ.behind pre) = (encodePass n b s σ).map (·.behind pre) := by
  induction s generalizing σ with
  | nil => rfl
  | cons c s ih =>
    rw [encodePass, encodePass]
    split
    · show (if σ.d = int32Max then none else _) = _
      split
      · rfl
      · exact ih { σ with d := σ.d + 1 }
    · split
      · rw [← ih]
        show encodePass n b s _ = _
        congr 1
        rw [EncoderState.behind, EncoderState.behind, List.append_assoc]
      · exact ih σ

theorem encodeLoop_behind (s : U32String) (b fuel n : ℕ) (σ : EncoderState) (pre : Bytes) :
    encodeLoop s b fuel n (σ.behind pre) = (encodeLoop s b fuel n σ).map (pre ++ ·) := by
  induction fuel generalizing n σ with
  | zero =>
    rw [encodeLoop, encodeLoop]
    show (if σ.h < s.length then none else some (pre ++ σ.out)) = _
    split <;> rfl
  | succ fuel ih =>
    rw [encodeLoop, encodeLoop]
    show (if σ.h < s.length then _ else some (pre ++ σ.out)) = _
    split
    · show (if (int32Max - σ.d) / (σ.h + 1) < _ then none else _) = _
      dsimp only
      split
      · rfl
      · have hpass := encodePass_behind (nextCodePoint n s) b s
          { σ with d := σ.d + (nextCodePoint n s - n) * (σ.h + 1) } pre
        have harg : ({ σ.behind pre with
              d := (σ.behind pre).d + (nextCodePoint n s - n) * ((σ.behind pre).h + 1) }
              : EncoderState)
            = EncoderState.behind
              { σ with d := σ.d + (nextCodePoint n s - n) * (σ.h + 1) } pre := rfl
        rw [harg, hpass]
        rcases encodePass (nextCodePoint n s) b s _ with - | σ'
        · rfl
        · exact ih _ { σ' with d := σ'.d + 1 }
    · rfl

/-- **The encoder appends to its output.** -/
theorem utf32ToPunycode_append (s : U32String) (out : Bytes) :
    utf32ToPunycode s out = (utf32ToPunycode s []).map (out ++ ·) := by
  rw [utf32ToPunycode, utf32ToPunycode]
  split
  · have h := encodeLoop_behind s (s.filter (· < 0x80)).length s.length initialN
      { d := 0
        bias := initialBias
        h := (s.filter (· < 0x80)).length
        out := if 0 < (s.filter (· < 0x80)).length then
            [] ++ (s.filter (· < 0x80)).map toChar ++ [delimiter]
          else [] ++ (s.filter (· < 0x80)).map toChar } out
    refine Eq.trans ?_ h
    rw [EncoderState.behind]
    dsimp only
    split <;> simp
  · rfl

/-! ### What the encoder writes -/

/-- A lower case digit of Punycode. -/
def IsDigit (b : UInt8) : Prop := ∃ e < base, b = digitToChar e

theorem IsDigit.range {b : UInt8} (h : IsDigit b) :
    0x61 ≤ b.toNat ∧ b.toNat ≤ 0x7A ∨ 0x30 ≤ b.toNat ∧ b.toNat ≤ 0x39 := by
  obtain ⟨e, he, rfl⟩ := h
  exact digitToChar_range he

/-- A pass writes digits. -/
theorem mem_encodePass {n b : ℕ} {σ σ' : EncoderState} (h : encodePass n b s σ = some σ') :
    ∀ x ∈ σ'.out, x ∈ σ.out ∨ IsDigit x := by
  induction s generalizing σ with
  | nil =>
    obtain rfl := Option.some.inj h
    exact fun x hx => Or.inl hx
  | cons c s ih =>
    rw [encodePass] at h
    split at h
    · split at h
      · cases h
      · exact fun x hx => ih h x hx
    · split at h
      · intro x hx
        rcases ih h x hx with hx | hx
        · rcases List.mem_append.mp hx with hx | hx
          · exact Or.inl hx
          · rw [encodeDelta_base] at hx
            exact Or.inr (mem_deltaBytes hx)
        · exact Or.inr hx
      · exact ih h

theorem mem_encodeLoop {b fuel n : ℕ} {σ : EncoderState} (h : encodeLoop s b fuel n σ = some p) :
    ∀ x ∈ p, x ∈ σ.out ∨ IsDigit x := by
  induction fuel generalizing n σ with
  | zero =>
    rw [encodeLoop] at h
    split at h
    · cases h
    · obtain rfl := Option.some.inj h
      exact fun x hx => Or.inl hx
  | succ fuel ih =>
    rw [encodeLoop] at h
    split at h
    · dsimp only at h
      split at h
      · cases h
      · split at h
        · cases h
        · rename_i σ' hpass
          intro x hx
          rcases ih h x hx with hx | hx
          · exact mem_encodePass hpass x hx
          · exact Or.inr hx
    · obtain rfl := Option.some.inj h
      exact fun x hx => Or.inl hx

/-- **The alphabet of the encoder.** -/
theorem mem_utf32ToPunycode (h : utf32ToPunycode s [] = some p) :
    ∀ x ∈ p, (∃ c ∈ s, c < 0x80 ∧ x = toChar c) ∨ x = delimiter ∨ IsDigit x := by
  rw [utf32ToPunycode] at h
  split at h
  · intro x hx
    rcases mem_encodeLoop h x hx with hx | hx
    · have hbasic : ∀ x ∈ ([] : Bytes) ++ (s.filter (· < 0x80)).map toChar,
          ∃ c ∈ s, c < 0x80 ∧ x = toChar c := by
        intro x hx
        obtain ⟨c, hc, rfl⟩ := List.mem_map.mp hx
        rw [List.mem_filter, decide_eq_true_iff] at hc
        exact ⟨c, hc.1, hc.2, rfl⟩
      dsimp only at hx
      split at hx
      · rcases List.mem_append.mp hx with hx | hx
        · exact Or.inl (hbasic x hx)
        · exact Or.inr (Or.inl (List.mem_singleton.mp hx))
      · exact Or.inl (hbasic x hx)
    · exact Or.inr (Or.inr hx)
  · cases h

/-! ### What the decoder writes -/

theorem mem_decodeLoop {fuel w n i bias : ℕ} {o : U32String}
    (h : decodeLoop fuel p o w n i bias = some r) : ∀ c ∈ r, c ∈ o ∨ 0x80 ≤ c := by
  induction fuel generalizing p o w n i bias with
  | zero =>
    cases p with
    | nil =>
      obtain rfl := Option.some.inj h
      exact fun c hc => Or.inl hc
    | cons x p => cases h
  | succ fuel ih =>
    cases p with
    | nil =>
      obtain rfl := Option.some.inj h
      exact fun c hc => Or.inl hc
    | cons x p =>
      rw [decodeLoop] at h
      dsimp only at h
      split at h
      · cases h
      · split at h
        · cases h
        · split at h
          · cases h
          · rename_i hn
            intro c hc
            rcases ih h c hc with hc | hc
            · rcases List.eq_or_mem_of_mem_insertIdx hc with rfl | hc
              · exact Or.inr (not_lt.mp hn)
              · exact Or.inl hc
            · exact Or.inr hc

/-- The last check of the decoder. -/
theorem bind_rejectAce {o : Option U32String} (h : o.bind rejectAce = some r) :
    o = some r ∧ isAcePrefix r = false := by
  obtain ⟨a, ha, hr⟩ := Option.bind_eq_some_iff.mp h
  obtain ⟨hace, rfl⟩ := rejectAce_eq_some.mp hr
  exact ⟨ha, hace⟩

theorem isAcePrefix_of_punycodeToUtf32 (h : punycodeToUtf32 p [] = some r) :
    isAcePrefix r = false := by
  rw [punycodeToUtf32] at h
  split at h
  · dsimp only at h
    split at h
    · exact (bind_rejectAce h).2
    · cases h
  · exact (bind_rejectAce h).2

/-- **What the decoder writes**: basic code points of its input, and code
points that are not basic. -/
theorem mem_punycodeToUtf32 (h : punycodeToUtf32 p [] = some r) :
    ∀ c ∈ r, (∃ x ∈ p, c = x.toNat) ∨ 0x80 ≤ c := by
  intro c hc
  rw [punycodeToUtf32] at h
  split at h
  · rename_i e he
    dsimp only at h
    split at h
    · rcases mem_decodeLoop (bind_rejectAce h).1 c hc with hc | hc
      · obtain ⟨x, hx, rfl⟩ := List.mem_map.mp hc
        exact Or.inl ⟨x, List.mem_of_mem_take hx, rfl⟩
      · exact Or.inr hc
    · cases h
  · rcases mem_decodeLoop (bind_rejectAce h).1 c hc with hc | hc
    · cases hc
    · exact Or.inr hc

end AdaIdna
