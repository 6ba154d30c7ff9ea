/-
AdaIdna/PunycodeRun.lean

The Punycode loops as runs of the insertion code.

`emit` spells a list of deltas, each under the bias that the ones before it
have led to.  The decoder accepts exactly the spelled lists whose running
index and symbol stay below 2^31 (`Fits`), and returns what
`InsertionCode.run` returns (`decodeLoop_emit`, `exists_emit_of_decodeLoop`).
The encoder emits `InsertionCode.deltas`, and fails exactly when one of them
does not fit (`encodeLoop_eq_some`).
-/
import AdaIdna.PunycodeDelta
import AdaIdna.Lib.InsertionCode

namespace AdaIdna

open InsertionCode

/-! ### Spelling a list of deltas -/

/-- The bytes of a list of deltas, written when `h` code points are placed. -/
def emit (bias h : ℕ) (first : Bool) : List ℕ → Bytes
  | [] => []
  | d :: ds => deltaBytes bias d ++ emit (adapt d (h + 1) first) (h + 1) false ds

/-- The bias that a list of deltas leads to. -/
def biasAfter (bias h : ℕ) (first : Bool) : List ℕ → ℕ
  | [] => bias
  | d :: ds => biasAfter (adapt d (h + 1) first) (h + 1) false ds

theorem emit_append (bias h : ℕ) (first : Bool) (ds es : List ℕ) :
    emit bias h first (ds ++ es) = emit bias h first ds
      ++ emit (biasAfter bias h first ds) (h + ds.length) (first && ds.isEmpty) es := by
  induction ds generalizing bias h first with
  | nil => simp [emit, biasAfter]
  | cons d ds ih =>
    have hlen : h + 1 + ds.length = h + (d :: ds).length := by rw [List.length_cons]; omega
    simp only [List.cons_append, emit, biasAfter, ih, hlen, List.append_assoc, List.isEmpty_cons,
      Bool.and_false, Bool.false_and]

theorem length_le_emit (bias h : ℕ) (first : Bool) (ds : List ℕ) :
    ds.length ≤ (emit bias h first ds).length := by
  induction ds generalizing bias h first with
  | nil => exact le_rfl
  | cons d ds ih =>
    have := List.length_pos_iff.mpr (deltaBytes_ne_nil bias d)
    have := ih (adapt d (h + 1) first) (h + 1) false
    rw [emit, List.length_append, List.length_cons]
    omega

theorem mem_emit {bias h : ℕ} {first : Bool} {ds : List ℕ} {c : UInt8}
    (hc : c ∈ emit bias h first ds) : ∃ e < base, c = digitToChar e := by
  induction ds generalizing bias h first with
  | nil => cases hc
  | cons d ds ih =>
    rcases List.mem_append.mp hc with hc | hc
    · exact mem_deltaBytes hc
    · exact ih hc

theorem delimiter_not_mem_emit (bias h : ℕ) (first : Bool) (ds : List ℕ) :
    delimiter ∉ emit bias h first ds := by
  intro hc
  obtain ⟨e, he, hd⟩ := mem_emit hc
  exact digitToChar_ne_delimiter he hd.symm

/-! ### The decoding loop -/

/-- Every running index and every symbol of the run is an `int32_t`. -/
def Fits : State → List ℕ → Prop
  | _, [] => True
  | σ, d :: ds => σ.index d ≤ int32Max ∧ σ.symbol d ≤ int32Max ∧ Fits (σ.step d) ds

theorem fits_iff_bounded {σ : State} {ds : List ℕ}
    (h : ∀ x ∈ (run σ ds).out, x ≤ int32Max) : Fits σ ds ↔ Bounded int32Max σ ds := by
  induction ds generalizing σ with
  | nil => exact Iff.rfl
  | cons d ds ih =>
    have hsym : σ.symbol d ≤ int32Max := h _ (mem_run (σ := σ.step d) (σ.symbol_mem_step d))
    simp only [Fits, Bounded, hsym, true_and, ih h]

theorem Fits.bounded {σ : State} {ds : List ℕ} (h : Fits σ ds) : Bounded int32Max σ ds := by
  induction ds generalizing σ with
  | nil => trivial
  | cons d ds ih => exact ⟨h.1, ih h.2.2⟩

variable {σ : State} {bias fuel : ℕ} {ds : List ℕ} {r : U32String}

/-- One round of the decoder on a spelled delta. -/
theorem decodeLoop_deltaBytes {rest : Bytes} {d : ℕ} (hb : bias ≤ biasLimit)
    (hi : σ.i ≤ int32Max) (hn : σ.n ≤ int32Max) (hn' : initialN ≤ σ.n) :
    decodeLoop (fuel + 1) (deltaBytes bias d ++ rest) σ.out σ.out.length σ.n σ.i bias = some r
      ↔ σ.index d ≤ int32Max ∧ σ.symbol d ≤ int32Max ∧
        decodeLoop fuel rest (σ.step d).out (σ.step d).out.length (σ.step d).n (σ.step d).i
          (adapt d (σ.out.length + 1) (σ.i == 0)) = some r := by
  have hread : ∀ p, decodeDelta bias (deltaBytes bias d ++ rest) σ.i 1 base = some p
      ↔ σ.i + d ≤ int32Max ∧ p = (σ.i + d, rest) := fun _ => decodeDelta_deltaBytes hb hi
  obtain ⟨c, input, hinput⟩ := List.exists_cons_of_ne_nil
    (show deltaBytes bias d ++ rest ≠ [] by simp [deltaBytes_ne_nil])
  rw [hinput] at hread ⊢
  rw [decodeLoop, State.length_step]
  by_cases hfit : σ.i + d ≤ int32Max
  · -- the delta is read, and the guard on the symbol decides
    rw [(hread (σ.i + d, rest)).mpr ⟨hfit, rfl⟩]
    have hguard : int32Max - σ.n < (σ.i + d) / (σ.out.length + 1) ↔ ¬ σ.symbol d ≤ int32Max := by
      show _ ↔ ¬ σ.n + (σ.i + d) / (σ.out.length + 1) ≤ int32Max
      omega
    have hlow : ¬ σ.n + (σ.i + d) / (σ.out.length + 1) < 0x80 :=
      not_lt.mpr (hn'.trans (Nat.le_add_right _ _))
    simp only [hguard, hlow, if_false, Nat.add_sub_cancel_left]
    by_cases hsym : σ.symbol d ≤ int32Max
    · rw [if_neg (not_not_intro hsym)]
      exact ⟨fun h => ⟨hfit, hsym, h⟩, fun h => h.2.2⟩
    · simp [hsym]
  · -- the delta is not read
    have hnone : decodeDelta bias (c :: input) σ.i 1 base = none := by
      rw [Option.eq_none_iff_forall_ne_some]
      exact fun p hp => hfit ((hread p).mp hp).1
    rw [hnone]
    simp [State.index, hfit]

/-- **The decoder on spelled deltas**: it accepts the runs that fit. -/
theorem decodeLoop_emit (hb : bias ≤ biasLimit) (hi : σ.Inside)
    (hn : σ.n ≤ int32Max) (hn' : initialN ≤ σ.n)
    (hl : σ.out.length + ds.length ≤ int32Max) (hf : ds.length ≤ fuel) :
    decodeLoop fuel (emit bias σ.out.length (σ.i == 0) ds) σ.out σ.out.length σ.n σ.i bias
        = some r
      ↔ Fits σ ds ∧ r = (run σ ds).out := by
  induction ds generalizing σ bias fuel with
  | nil =>
    cases fuel <;> simp [emit, decodeLoop, Fits, eq_comm]
  | cons d ds ih =>
    obtain ⟨fuel, rfl⟩ : ∃ f, fuel = f + 1 := ⟨fuel - 1, by rw [List.length_cons] at hf; omega⟩
    rw [List.length_cons] at hl hf
    have hi' : σ.i ≤ int32Max := hi.trans (by omega)
    rw [emit, decodeLoop_deltaBytes hb hi' hn hn', Fits, run_cons]
    by_cases hfit : σ.index d ≤ int32Max ∧ σ.symbol d ≤ int32Max
    · have hd : d ≤ int32Max := (Nat.le_add_left d σ.i).trans hfit.1
      -- the new bias is small again, because the delta is an `int32_t`
      have hnext := ih (σ := σ.step d) (adapt_le hd (σ.out.length + 1) (σ.i == 0))
        (σ.inside_step d) hfit.2 (hn'.trans (Nat.le_add_right _ _))
        (by rw [State.length_step]; omega) (Nat.le_of_succ_le_succ hf)
      rw [State.length_step] at hnext ⊢
      simp only [hfit, true_and]
      exact hnext
    · constructor
      · rintro ⟨h₁, h₂, -⟩
        exact absurd ⟨h₁, h₂⟩ hfit
      · rintro ⟨⟨h₁, h₂, -⟩, -⟩
        exact absurd ⟨h₁, h₂⟩ hfit

/-- Reading a delta takes a byte. -/
theorem length_decodeDelta_lt {bytes rest : Bytes} {i i' w k : ℕ}
    (h : decodeDelta bias bytes i w k = some (i', rest)) : rest.length < bytes.length := by
  induction bytes generalizing i w k with
  | nil => cases h
  | cons c bytes ih =>
    rw [decodeDelta] at h
    split at h
    · cases h
    · split at h
      · cases h
      · dsimp only at h
        split at h
        · obtain ⟨-, rfl⟩ := Prod.mk.inj (Option.some.inj h)
          exact Nat.lt_succ_self _
        · split at h
          · cases h
          · exact (ih h).trans (Nat.lt_succ_self _)

/-- The decoder only inserts, at most one code point for a byte. -/
theorem length_of_decodeLoop {bytes : Bytes} {out : U32String} {w n i : ℕ}
    (h : decodeLoop fuel bytes out w n i bias = some r) :
    out.length ≤ r.length ∧ r.length ≤ out.length + bytes.length := by
  induction fuel generalizing bytes out w n i bias with
  | zero =>
    cases bytes with
    | nil =>
      obtain rfl := Option.some.inj h
      exact ⟨le_rfl, Nat.le_add_right _ _⟩
    | cons c bytes => cases h
  | succ fuel ih =>
    cases bytes with
    | nil =>
      obtain rfl := Option.some.inj h
      exact ⟨le_rfl, Nat.le_add_right _ _⟩
    | cons c bytes =>
      rw [decodeLoop] at h
      dsimp only at h
      split at h
      · cases h
      · rename_i hread
        split at h
        · cases h
        · split at h
          · cases h
          · obtain ⟨hge, hle⟩ := ih h
            have hbytes := length_decodeDelta_lt hread
            refine ⟨List.length_le_length_insertIdx.trans hge, hle.trans ?_⟩
            apply (Nat.add_le_add_right List.length_insertIdx_le_succ _).trans
            omega

/-- **The decoder accepts spelled deltas only**, each of which inserts one code
point. -/
theorem exists_emit_of_decodeLoop {bytes : Bytes} (hb : bias ≤ biasLimit) (hi : σ.Inside)
    (hn : σ.n ≤ int32Max) (hn' : initialN ≤ σ.n) (hl : r.length ≤ int32Max)
    (h : decodeLoop fuel bytes σ.out σ.out.length σ.n σ.i bias = some r) :
    ∃ ds, bytes = emit bias σ.out.length (σ.i == 0) ds ∧
      r.length = σ.out.length + ds.length := by
  induction fuel generalizing σ bias bytes with
  | zero =>
    cases bytes with
    | nil => exact ⟨[], rfl, (congrArg List.length (Option.some.inj h)).symm⟩
    | cons c bytes => cases h
  | succ fuel ih =>
    cases bytes with
    | nil => exact ⟨[], rfl, (congrArg List.length (Option.some.inj h)).symm⟩
    | cons c bytes =>
      have hi' : σ.i ≤ int32Max := hi.trans ((length_of_decodeLoop h).1.trans hl)
      rcases e : decodeDelta bias (c :: bytes) σ.i 1 base with - | ⟨i', rest⟩
      · rw [decodeLoop, e] at h
        cases h
      · obtain ⟨d, hd⟩ := exists_deltaBytes_of_decodeDelta hi' e
        rw [hd, decodeLoop_deltaBytes hb hi' hn hn'] at h
        obtain ⟨hidx, hsym, hrest⟩ := h
        have hfit : d ≤ int32Max := (Nat.le_add_left d σ.i).trans hidx
        obtain ⟨ds, hds, hlen⟩ := ih (adapt_le hfit _ _) (σ.inside_step d) hsym
          (hn'.trans (Nat.le_add_right _ _)) hrest
        rw [State.length_step] at hds hlen
        refine ⟨d :: ds, by rw [hd, hds]; rfl, ?_⟩
        rw [hlen, List.length_cons, Nat.add_assoc, Nat.add_comm 1]

/-! ### The encoding loop -/

theorem nextCodePoint_eq (n : ℕ) (s : U32String) : nextCodePoint n s = least 0x10FFFF n s := rfl

/-- **A pass of the encoder is a walk**; it fails where a count does not fit. -/
theorem encodePass_eq_some {n b d h : ℕ} {cs : U32String} {out : Bytes} {e : EncoderState}
    (hd : d ≤ int32Max) (hb : b ≤ h) :
    encodePass n b cs ⟨d, bias, h, out⟩ = some e ↔
      (∀ δ ∈ (scan n cs d).1, δ ≤ int32Max) ∧ (scan n cs d).2 ≤ int32Max ∧
        e = ⟨(scan n cs d).2, biasAfter bias h (h == b) (scan n cs d).1,
          h + (scan n cs d).1.length, out ++ emit bias h (h == b) (scan n cs d).1⟩ := by
  induction cs generalizing d bias h out with
  | nil => simp [encodePass, scan, biasAfter, emit, hd, eq_comm]
  | cons c cs ih =>
    rw [encodePass, scan]
    rcases lt_trichotomy c n with hc | rfl | hc
    · rw [if_pos hc, if_pos hc]
      dsimp only
      by_cases hmax : d = int32Max
      · -- the counter is full: the walk would count on
        rw [if_pos hmax]
        constructor
        · intro h
          cases h
        · rintro ⟨h₁, h₂, -⟩
          have : d + 1 ≤ int32Max := scan_le h₁ h₂
          omega
      · rw [if_neg hmax]
        exact ih (by omega) hb
    · -- the delta is written, and counting starts again
      have hfirst : (h + 1 == b) = false := by
        rw [beq_eq_false_iff_ne]
        omega
      rw [if_neg (lt_irrefl c), if_pos rfl, if_neg (lt_irrefl c), if_pos rfl,
        ih (Nat.zero_le _) (hb.trans (Nat.le_succ h))]
      simp only [List.forall_mem_cons, hd, true_and, hfirst, encodeDelta_base, biasAfter, emit,
        List.length_cons, List.append_assoc, show h + 1 + (scan c cs 0).1.length
          = h + ((scan c cs 0).1.length + 1) by omega]
    · rw [if_neg hc.not_gt, if_neg hc.ne', if_neg hc.not_gt, if_neg hc.ne']
      exact ih hd hb

/-- What the loop of the encoder does for one code point `m`. -/
def encodeRound (s : U32String) (b n m : ℕ) (e : EncoderState) : Option EncoderState :=
  if (int32Max - e.d) / (e.h + 1) < m - n then none
  else encodePass m b s { e with d := e.d + (m - n) * (e.h + 1) }

theorem encodeLoop_succ (s : U32String) (b n : ℕ) (e : EncoderState) :
    encodeLoop s b (fuel + 1) n e
      = if e.h < s.length then
          (encodeRound s b n (nextCodePoint n s) e).bind fun e =>
            encodeLoop s b fuel (nextCodePoint n s + 1) { e with d := e.d + 1 }
        else some e.out := by
  rw [encodeLoop, encodeRound]
  split
  · dsimp only
    split
    · rfl
    · split <;> rename_i h <;> rw [h] <;> rfl
  · rfl

/-- The guard before the pass and the guards in it come down to the deltas. -/
theorem encodeRound_eq_some {s : U32String} {n m b d h : ℕ} {out : Bytes} {e : EncoderState}
    (hs : s.length ≤ int32Max) (hm : m ∈ s) (hd : d ≤ int32Max) (hb : b ≤ h) :
    encodeRound s b n m ⟨d, bias, h, out⟩ = some e ↔
      (∀ δ ∈ (scan m s (d + (m - n) * (h + 1))).1, δ ≤ int32Max) ∧
        e = ⟨(scan m s (d + (m - n) * (h + 1))).2,
          biasAfter bias h (h == b) (scan m s (d + (m - n) * (h + 1))).1,
          h + (scan m s (d + (m - n) * (h + 1))).1.length,
          out ++ emit bias h (h == b) (scan m s (d + (m - n) * (h + 1))).1⟩ := by
  have hguard : (int32Max - d) / (h + 1) < m - n ↔ int32Max < d + (m - n) * (h + 1) := by
    rw [Nat.div_lt_iff_lt_mul (by omega : 0 < h + 1)]
    omega
  have hsnd : (scan m s (d + (m - n) * (h + 1))).2 ≤ int32Max :=
    ((scan_snd_le s).2 hm).le.trans hs
  show (if (int32Max - d) / (h + 1) < m - n then none else _) = _ ↔ _
  by_cases hover : int32Max < d + (m - n) * (h + 1)
  · -- the guard fires: the walk would emit a delta that is too large
    rw [if_pos (hguard.mpr hover)]
    constructor
    · intro h
      cases h
    · rintro ⟨hall, -⟩
      exact absurd (scan_le hall hsnd) (not_le.mpr hover)
  · rw [if_neg (hguard.not.mpr hover)]
    show encodePass m b s ⟨_, bias, h, out⟩ = _ ↔ _
    rw [encodePass_eq_some (not_lt.mp hover) hb]
    simp only [hsnd, true_and]

/-- **The encoder writes the deltas of its input**, and fails exactly when one
of them does not fit. -/
theorem encodeLoop_eq_some {s : U32String} {n b d : ℕ} {out p : Bytes}
    (htop : ∀ y ∈ s, y ≤ 0x10FFFF) (hs : s.length ≤ int32Max) (hsync : Sync σ [] s n d)
    (hd : d ≤ int32Max) (hb : b ≤ (s.filter (· < n)).length)
    (hf : s.length ≤ fuel + (s.filter (· < n)).length) :
    encodeLoop s b fuel n ⟨d, bias, (s.filter (· < n)).length, out⟩ = some p ↔
      (∀ δ ∈ sweep 0x10FFFF s fuel n d (s.filter (· < n)).length, δ ≤ int32Max) ∧
        p = out ++ emit bias (s.filter (· < n)).length ((s.filter (· < n)).length == b)
          (sweep 0x10FFFF s fuel n d (s.filter (· < n)).length) := by
  induction fuel generalizing σ n d bias out with
  | zero =>
    rw [encodeLoop, if_neg (by show ¬ (s.filter (· < n)).length < _; omega)]
    simp [sweep, emit, eq_comm]
  | succ fuel ih =>
    rw [encodeLoop_succ, sweep]
    show (if (s.filter (· < n)).length < s.length then _ else some out) = _ ↔ _
    by_cases hlt : (s.filter (· < n)).length < s.length
    · obtain ⟨hmem, -, -, -⟩ := hsync.walk htop hlt
      obtain ⟨hnext, hlen, hgrow⟩ := hsync.round htop hlt
      have hsnd := (scan_snd_le (n := least 0x10FFFF n s)
        (d := d + (least 0x10FFFF n s - n) * ((s.filter (· < n)).length + 1)) s).2 hmem
      have hne := List.length_pos_iff.mpr (scan_ne_nil hmem
        (d := d + (least 0x10FFFF n s - n) * ((s.filter (· < n)).length + 1)))
      -- a walk emits something, so the next one is not the first
      have hfirst : ((s.filter (· < n)).length == b && (scan (least 0x10FFFF n s) s
            (d + (least 0x10FFFF n s - n) * ((s.filter (· < n)).length + 1))).1.isEmpty)
          = ((s.filter (· < least 0x10FFFF n s + 1)).length == b) := by
        rw [List.isEmpty_eq_false_iff.mpr (List.length_pos_iff.mp hne), Bool.and_false, eq_comm,
          beq_eq_false_iff_ne]
        omega
      rw [if_pos hlt, if_pos hlt, nextCodePoint_eq, Option.bind_eq_some_iff]
      simp only [encodeRound_eq_some hs hmem hd hb, List.forall_mem_append, emit_append, hfirst,
        hlen, and_assoc, exists_and_left, exists_eq_left, ← List.append_assoc]
      rw [ih hnext (by omega) (by omega) (by omega)]
    · rw [if_neg hlt, if_neg hlt]
      simp [emit, eq_comm]

end AdaIdna
