/-
AdaIdna/HuffCode.lean

`Huff` holds a canonical code.

`build` makes no access outside its arrays and computes the counts, first
codes and symbols of the canonical code of its lengths (`build_eq`).  `decode`
never gets below the first code of a length, so the index it computes is one of
the symbols (`meets_decode`); of the bits of a code it finds the symbol
(`decode_of_toBits`).
-/
import AdaIdna.BitReader
import AdaIdna.Lib.Buffer

namespace AdaIdna

open Checked Lanes CanonicalCode

namespace Huff

variable {h : Huff} {lens pre : List ℕ} {n l s rounds len code b : ℕ} {br br' : BitReader}
  {rest : List ℕ}

/-- The arrays hold the canonical code with the given lengths. -/
structure Represents (h : Huff) (lens : List ℕ) : Prop where
  counts : ∀ l ≤ 15, h.counts[l]? = some (count lens l)
  firstCode : ∀ l, 0 < l → l ≤ 15 → h.firstCode[l]? = some (first lens l)
  baseIdx : ∀ l, 0 < l → l ≤ h.maxBits → h.baseIdx[l]? = some (base lens l)
  symbols : ∀ l k s, 0 < l → l ≤ h.maxBits → (symbolsOf lens l)[k]? = some s →
    h.symbols[base lens l + k]? = some s
  le_maxBits : ∀ x ∈ lens, x ≤ h.maxBits
  maxBits_le : h.maxBits ≤ 15

/-! ### Building -/

/-- An array of 288 entries, filled up to some place. -/
def filled (q : List ℕ) : List ℕ := q ++ List.replicate (288 - q.length) 0

theorem write_filled {q : List ℕ} (h : q.length < 288) (x : ℕ) :
    write (filled q) q.length x = ok (filled (q ++ [x])) := by
  rw [write_of_lt (by simp [filled]; omega), filled, filled, List.length_append,
    List.length_singleton, show 288 - q.length = 288 - (q.length + 1) + 1 by omega,
    List.replicate_succ, Buffer.set_append rfl, List.append_assoc]
  rfl

theorem read_filled {q : List ℕ} {i : ℕ} (h : i < q.length) : read (filled q) i = ok q[i] := by
  rw [read_eq_ok, filled, List.getElem?_append_left h, List.getElem?_eq_getElem h]

/-- The lengths, their counts and the greatest one. -/
theorem countLengths_eq (hn : n ≤ lens.length) (hn' : n ≤ 288) (hle : ∀ x ∈ lens.take n, x ≤ 15) :
    ∃ maxBits, countLengths lens n
        = ok (filled (lens.take n), (List.range 16).map (count (lens.take n)), maxBits) ∧
      (∀ x ∈ lens.take n, x ≤ maxBits) ∧ maxBits ≤ 15 := by
  suffices h : ∃ st, countLengths lens n = ok st ∧
      st.1 = filled (lens.take n) ∧ st.2.1 = (List.range 16).map (count (lens.take n)) ∧
      (∀ x ∈ lens.take n, x ≤ st.2.2) ∧ st.2.2 ≤ 15 by
    obtain ⟨⟨lengths, counts, maxBits⟩, hst, rfl, rfl, hmax⟩ := h
    exact ⟨maxBits, hst, hmax⟩
  refine foldlM_range_of_invariant (fun i (st : List ℕ × List ℕ × ℕ) =>
      st.1 = filled (lens.take i) ∧ st.2.1 = (List.range 16).map (count (lens.take i)) ∧
      (∀ x ∈ lens.take i, x ≤ st.2.2) ∧ st.2.2 ≤ 15) ⟨rfl, rfl, nofun, Nat.zero_le _⟩ ?_
  rintro i ⟨lengths, counts, maxBits⟩ hi ⟨rfl, rfl, hmax, hmax'⟩
  have hlt : i < lens.length := hi.trans_le hn
  have hsucc : lens.take (i + 1) = lens.take i ++ [lens[i]] := List.take_succ_eq_append_getElem hlt
  have hlen : (lens.take i).length = i := List.length_take_of_le hlt.le
  have hx : lens[i] ≤ 15 := by
    apply hle
    rw [List.mem_take_iff_getElem]
    exact ⟨i, by omega, rfl⟩
  have hwrite : write (filled (lens.take i)) i lens[i] = ok (filled (lens.take (i + 1))) := by
    have hfill := write_filled (q := lens.take i) (by omega) lens[i]
    rwa [hlen, ← hsucc] at hfill
  have hmem : ∀ {m}, maxBits ≤ m → lens[i] ≤ m → ∀ x ∈ lens.take (i + 1), x ≤ m := by
    intro m hm hm' x hx
    rw [hsucc, List.mem_append, List.mem_singleton] at hx
    rcases hx with hx | rfl
    · exact (hmax x hx).trans hm
    · exact hm'
  simp only [countStep]
  rw [read_of_lt hlt, ok_bind, hwrite, ok_bind]
  split
  · rename_i h0
    refine ⟨_, rfl, rfl, ?_, hmem le_rfl (by omega), hmax'⟩
    dsimp only
    rw [hsucc, h0, count_append_zero]
  · rename_i h0
    have hread : read ((List.range 16).map (count (lens.take i))) lens[i]
        = ok (count (lens.take i) lens[i]) :=
      read_eq_ok.mpr (Buffer.getElem?_map_range (Nat.lt_succ_of_le hx))
    rw [hread, ok_bind, write_of_lt (by simp; omega), ok_bind]
    refine ⟨_, rfl, rfl, ?_, ?_, ?_⟩
    · dsimp only
      rw [Buffer.set_map_range, hsucc, count_append_singleton (by omega)]
    · dsimp only
      split
      · exact hmem (by omega) le_rfl
      · exact hmem le_rfl (by omega)
    · dsimp only
      split
      · exact hx
      · exact hmax'

/-- The first codes. -/
theorem firstCodes_eq (lens : List ℕ) :
    ∃ code, firstCodes ((List.range 16).map (count lens))
      = ok ((List.range 16).map (first lens), code) := by
  suffices h : ∃ st, firstCodes ((List.range 16).map (count lens)) = ok st ∧
      st.1 = (List.range 16).map (fun l => if l ≤ 15 then first lens l else 0) ∧
      st.2 = first lens 15 by
    obtain ⟨⟨firstCode, code⟩, hst, rfl, -⟩ := h
    refine ⟨code, hst.trans ?_⟩
    refine congrArg (fun l => ok (l, code)) (List.map_congr_left fun l hl => ?_)
    rw [List.mem_range] at hl
    exact if_pos (by omega)
  refine foldlM_range_of_invariant (fun i (st : List ℕ × ℕ) =>
    st.1 = (List.range 16).map (fun l => if l ≤ i then first lens l else 0) ∧
      st.2 = first lens i) ⟨by rfl, rfl⟩ ?_
  rintro i ⟨firstCode, code⟩ hi ⟨rfl, rfl⟩
  have hi' : i < 15 := hi
  have hread : read ((List.range 16).map (count lens)) i = ok (count lens i) :=
    read_eq_ok.mpr (Buffer.getElem?_map_range (Nat.lt_succ_of_lt hi'))
  simp only [firstCodeStep]
  rw [hread, ok_bind, write_of_lt (by simp; omega), ok_bind]
  refine ⟨_, rfl, ?_, ?_⟩
  · dsimp only
    rw [Buffer.set_map_range]
    refine List.map_congr_left fun l _ => ?_
    rw [Function.update_apply, Nat.shiftLeft_eq, pow_one, Nat.mul_comm]
    split
    · rename_i hl
      rw [hl, if_pos le_rfl, first]
    · split_ifs <;> first | rfl | omega
  · dsimp only
    rw [Nat.shiftLeft_eq, pow_one, Nat.mul_comm, first]

/-- The symbols of one length go behind those of the shorter lengths. -/
theorem foldlM_symbolStep {bits : ℕ} (hbits : 0 < bits) (hn : lens.length ≤ 288)
    (hpre : pre.length = base lens bits) :
    (List.range lens.length).foldlM (symbolStep (filled lens) bits) (filled pre, pre.length)
      = ok (filled (pre ++ symbolsOf lens bits), (pre ++ symbolsOf lens bits).length) := by
  suffices h : ∃ st, (List.range lens.length).foldlM (symbolStep (filled lens) bits)
      (filled pre, pre.length) = ok st ∧
      st = (filled (pre ++ symbolsOf (lens.take lens.length) bits),
        (pre ++ symbolsOf (lens.take lens.length) bits).length) by
    obtain ⟨st, hst, rfl⟩ := h
    rwa [List.take_length] at hst
  refine foldlM_range_of_invariant (fun i (st : List ℕ × ℕ) =>
    st = (filled (pre ++ symbolsOf (lens.take i) bits),
      (pre ++ symbolsOf (lens.take i) bits).length)) ?_ ?_
  · simp [symbolsOf]
  rintro i - hi rfl
  have hlen : (lens.take i).length = i := List.length_take_of_le hi.le
  have hsucc : symbolsOf (lens.take (i + 1)) bits
      = symbolsOf (lens.take i) bits ++ if lens[i] = bits then [i] else [] := by
    rw [List.take_succ_eq_append_getElem hi, symbolsOf_append_singleton, hlen]
  simp only [symbolStep]
  rw [read_filled hi, ok_bind]
  split
  · rename_i heq
    rw [if_pos heq] at hsucc
    -- there is room, because not all symbols are placed yet
    have hroom : (pre ++ symbolsOf (lens.take i) bits).length < 288 := by
      have hle : (lens.take (i + 1)).count bits ≤ lens.count bits :=
        (List.take_sublist _ _).count_le _
      have hbase : base lens bits + lens.count bits ≤ lens.length := by
        have := base_le_length lens (bits + 1)
        rwa [base, count_of_pos hbits] at this
      have hone := congrArg List.length hsucc
      rw [List.length_append, length_symbolsOf, List.length_singleton] at hone
      rw [List.length_append, hpre]
      omega
    rw [write_filled hroom, ok_bind]
    refine ⟨_, rfl, ?_⟩
    simp [hsucc, Nat.add_assoc]
  · rename_i hne
    rw [if_neg hne, List.append_nil] at hsucc
    exact ⟨_, rfl, by rw [hsucc]⟩

/-- The bases of the lengths and the symbols in the order of their codes. -/
theorem assignSymbols_eq {maxBits : ℕ} (hn : lens.length ≤ 288) (hmax : maxBits ≤ 15) :
    ∃ idx, assignSymbols (filled lens) lens.length maxBits
      = ok ((List.range 16).map (fun l => if l ≤ maxBits then base lens l else 0),
        filled (symbolsBelow lens (maxBits + 1)), idx) := by
  suffices h : ∃ st, assignSymbols (filled lens) lens.length maxBits = ok st ∧
      st = ((List.range 16).map (fun l => if l ≤ maxBits then base lens l else 0),
        filled (symbolsBelow lens (maxBits + 1)), (symbolsBelow lens (maxBits + 1)).length) by
    obtain ⟨st, hst, rfl⟩ := h
    exact ⟨_, hst⟩
  refine foldlM_range_of_invariant (fun i (st : List ℕ × List ℕ × ℕ) =>
    st = ((List.range 16).map (fun l => if l ≤ i then base lens l else 0),
      filled (symbolsBelow lens (i + 1)), (symbolsBelow lens (i + 1)).length)) rfl ?_
  rintro i - hi rfl
  have hlen := length_symbolsBelow lens (i + 1)
  have hsucc : symbolsBelow lens (i + 2)
      = symbolsBelow lens (i + 1) ++ symbolsOf lens (i + 1) := by
    rw [symbolsBelow, if_neg (Nat.succ_ne_zero i)]
  simp only [lengthStep]
  rw [write_of_lt (by simp; omega), ok_bind, foldlM_symbolStep (Nat.succ_pos i) hn hlen, ok_bind]
  refine ⟨_, rfl, ?_⟩
  rw [← hsucc, Buffer.set_map_range]
  refine congrArg (·, _) (List.map_congr_left fun l _ => ?_)
  rw [Function.update_apply]
  split
  · rename_i hl
    rw [hl, if_pos le_rfl, hlen]
  · split_ifs <;> first | rfl | omega

/-- **`build` computes the canonical code**, with all accesses in range. -/
theorem build_eq (hn : n ≤ lens.length) (hn' : n ≤ 288) (hle : ∀ x ∈ lens.take n, x ≤ 15) :
    ∃ h, build lens n = ok h ∧ h.Represents (lens.take n) := by
  obtain ⟨maxBits, hcount, hmax, hmax'⟩ := countLengths_eq hn hn' hle
  obtain ⟨code, hfirst⟩ := firstCodes_eq (lens.take n)
  have hlen : (lens.take n).length = n := List.length_take_of_le hn
  obtain ⟨idx, hsymbols⟩ := assignSymbols_eq (show (lens.take n).length ≤ 288 by omega) hmax'
  rw [hlen] at hsymbols
  refine ⟨⟨filled (lens.take n), (List.range 16).map (count (lens.take n)),
    (List.range 16).map (first (lens.take n)), filled (symbolsBelow (lens.take n) (maxBits + 1)),
    maxBits, (List.range 16).map fun l => if l ≤ maxBits then base (lens.take n) l else 0⟩, ?_, ?_⟩
  · rw [build, hcount, ok_bind]
    dsimp only
    rw [hfirst, ok_bind]
    dsimp only
    rw [hsymbols, ok_bind]
  · refine ⟨fun l hl => ?_, fun l _ hl => ?_, fun l _ hl => ?_, fun l k s hpos hl hs => ?_, hmax,
      hmax'⟩
    · exact Buffer.getElem?_map_range (by omega)
    · exact Buffer.getElem?_map_range (by omega)
    · dsimp only at hl ⊢
      rw [Buffer.getElem?_map_range (by omega), if_pos hl]
    · dsimp only at hl ⊢
      have hlt := Nat.lt_succ_of_le hl
      obtain ⟨tail, htail⟩ := @exists_symbolsBelow_eq (lens.take n) _ _ hpos hlt
      rw [filled, htail, List.append_assoc, ← length_symbolsBelow,
        List.getElem?_append_right (Nat.le_add_right _ _), Nat.add_sub_cancel_left,
        List.append_assoc, List.getElem?_append_left (List.getElem?_eq_some_iff.mp hs).1, hs]

/-! ### Decoding -/

/-- One round of `decode`, as long as the code has not got below the first code
of its length. -/
theorem decodeLoop_succ (hr : h.Represents lens) (hlen : 0 < len) (hle : len ≤ h.maxBits)
    (hget : br.get 1 = ok (b, br')) (hb : b < 2) (hfirst : first lens len ≤ 2 * code + b) :
    h.decodeLoop (rounds + 1) len code br
      = match (symbolsOf lens len)[2 * code + b - first lens len]? with
        | some s => ok (s, br')
        | none => h.decodeLoop rounds (len + 1) (2 * code + b) br' := by
  have hmax := hr.maxBits_le
  have hcode : code <<< 1 ||| b = 2 * code + b := by
    rw [← Nat.shiftLeft_add_eq_or_of_lt (by simpa using hb), Nat.shiftLeft_eq, pow_one,
      Nat.mul_comm]
  rw [decodeLoop, hget, ok_bind]
  dsimp only
  rw [read_eq_ok.mpr (hr.firstCode len hlen (hle.trans hmax)), ok_bind,
    read_eq_ok.mpr (hr.counts len (hle.trans hmax)), ok_bind, hcode, ← Nat.cast_sub hfirst]
  split
  · rename_i hcnt
    have hlt : 2 * code + b - first lens len < (symbolsOf lens len).length := by
      rw [length_symbolsOf, ← count_of_pos hlen]
      exact Nat.cast_lt.mp hcnt.2
    rw [read_eq_ok.mpr (hr.baseIdx len hlen hle), ok_bind, ← Nat.cast_add, readInt_natCast,
      List.getElem?_eq_getElem hlt,
      read_eq_ok.mpr (hr.symbols len _ _ hlen hle (List.getElem?_eq_getElem hlt)), ok_bind]
  · rename_i hcnt
    rw [List.getElem?_eq_none]
    rw [length_symbolsOf, ← count_of_pos hlen]
    by_contra hlt
    exact hcnt ⟨by omega, Nat.cast_lt.mpr (not_le.mp hlt)⟩

/-- Behind a length without a match the code is past the codes of that length. -/
theorem first_succ_le (hlen : 0 < len) (hfirst : first lens len ≤ code)
    (hnone : (symbolsOf lens len)[code - first lens len]? = none) :
    first lens (len + 1) ≤ 2 * code := by
  rw [List.getElem?_eq_none_iff, length_symbolsOf] at hnone
  rw [first, count_of_pos hlen]
  omega

theorem meets_decodeLoop (hr : h.Represents lens) (hlen : 0 < len)
    (hrounds : len + rounds = h.maxBits + 1) (hfirst : first lens len ≤ 2 * code) :
    Meets (h.decodeLoop rounds len code br)
      fun r => r.1 < lens.length ∧ r.2.size < br.size := by
  induction rounds generalizing len code br with
  | zero => exact meets_reject
  | succ rounds ih =>
    have hget := BitReader.meets_get br 1
    rcases hval : br.get 1 with ⟨b, br'⟩ | - | - | -
    · obtain ⟨hb, hsize⟩ := hget.2 _ hval
      dsimp only at hb hsize
      rw [decodeLoop_succ hr hlen (by omega) hval hb (by omega)]
      split
      · rename_i s hs
        refine meets_ok.mpr ⟨lt_of_mem_symbolsOf (List.mem_of_getElem? hs), ?_⟩
        dsimp only
        omega
      · rename_i hnone
        have hnext := first_succ_le hlen (by omega) hnone
        apply Meets.mono (ih (Nat.succ_pos len) (by omega) hnext)
        exact fun r hr => ⟨hr.1, by omega⟩
    · rw [decodeLoop, hval]
      exact meets_reject
    · exact absurd hval hget.1.1
    · exact absurd hval hget.1.2

/-- **`decode` meets its specification**: a symbol of the code, and at least
one bit consumed. -/
theorem meets_decode (hr : h.Represents lens) (br : BitReader) :
    Meets (h.decode br) fun r => r.1 < lens.length ∧ r.2.size < br.size := by
  rw [decode]
  split
  · exact meets_reject
  · exact meets_decodeLoop hr Nat.one_pos (Nat.add_comm _ _) (Nat.zero_le _)

theorem reverse_unpack_succ (r c : ℕ) :
    (unpack 1 (r + 1) c).reverse = c / 2 ^ r % 2 :: (unpack 1 r c).reverse := by
  rw [unpack_add, one_mul, List.reverse_append]
  rfl

/-- The loop on the last `rounds'` bits of the code of `s`. -/
theorem decodeLoop_of_toBits {r : ℕ} (hr : h.Represents lens) (hs : s < lens.length)
    (hlen : 0 < len) (hl : len + r = lens.getD s 0) (hrounds : r < rounds)
    (hcode : code = codeOf lens s / 2 ^ (r + 1)) (hw : br.Wf)
    (hbits : br.toBits = (unpack 1 (r + 1) (codeOf lens s)).reverse ++ rest) :
    ∃ br', h.decodeLoop rounds len code br = ok (s, br') ∧ br'.toBits = rest ∧ br'.Wf := by
  have hfirst := first_le_codeOf lens s
  have hle : lens.getD s 0 ≤ h.maxBits := by
    rw [List.getD_eq_getElem _ _ hs]
    exact hr.le_maxBits _ (List.getElem_mem hs)
  induction r generalizing len code rounds br with
  | zero =>
    obtain ⟨rounds, rfl⟩ : ∃ k, rounds = k + 1 := ⟨rounds - 1, by omega⟩
    rw [reverse_unpack_succ, List.cons_append] at hbits
    obtain ⟨br', hget, hrest, hw'⟩ := BitReader.get_of_toBits (u := [_]) hw hbits
    refine ⟨br', ?_, hrest, hw'⟩
    have hb : codeOf lens s / 2 ^ 0 % 2 < 2 := Nat.mod_lt _ (by decide)
    have hfull : 2 * code + codeOf lens s / 2 ^ 0 % 2 = codeOf lens s := by
      rw [hcode]
      omega
    have hlen' : len = lens.getD s 0 := hl
    subst hlen'
    rw [decodeLoop_succ hr hlen hle (by simpa using hget) hb (by rw [hfull]; exact hfirst), hfull,
      codeOf, Nat.add_sub_cancel_left, getElem?_symbolsOf hs]
  | succ r ih =>
    obtain ⟨rounds, rfl⟩ : ∃ k, rounds = k + 1 := ⟨rounds - 1, by omega⟩
    rw [reverse_unpack_succ, List.cons_append] at hbits
    obtain ⟨br', hget, hrest, hw'⟩ := BitReader.get_of_toBits (u := [_]) hw hbits
    have hb : codeOf lens s / 2 ^ (r + 1) % 2 < 2 := Nat.mod_lt _ (by decide)
    have hnext : 2 * code + codeOf lens s / 2 ^ (r + 1) % 2 = codeOf lens s / 2 ^ (r + 1) := by
      rw [hcode, pow_succ 2 (r + 1), ← Nat.div_div_eq_div_mul]
      omega
    -- a longer code is past the codes of this length
    have hpast := le_div_of_first_le (show len < lens.getD s 0 by omega) hfirst
    rw [show lens.getD s 0 - len = r + 1 by omega] at hpast
    have hnone : (symbolsOf lens len)[codeOf lens s / 2 ^ (r + 1) - first lens len]? = none := by
      rw [count_of_pos hlen] at hpast
      rw [List.getElem?_eq_none_iff, length_symbolsOf]
      omega
    rw [decodeLoop_succ hr hlen (by omega) (by simpa using hget) hb (by omega), hnext, hnone]
    exact ih (by omega) (by omega) (by omega) rfl hw' hrest

/-- **`decode` finds the symbol of a code**, if the code fits into its length. -/
theorem decode_of_toBits (hr : h.Represents lens) (hk : kraft 15 lens ≤ 2 ^ 15)
    (hl : 0 < lens.getD s 0) (hw : br.Wf) (hbits : br.toBits = codeBits lens s ++ rest) :
    ∃ br', h.decode br = ok (s, br') ∧ br'.toBits = rest ∧ br'.Wf := by
  have hs : s < lens.length := by
    by_contra hge
    rw [List.getD_eq_default _ _ (not_lt.mp hge)] at hl
    exact lt_irrefl 0 hl
  have hle : lens.getD s 0 ≤ h.maxBits := by
    rw [List.getD_eq_getElem _ _ hs]
    exact hr.le_maxBits _ (List.getElem_mem hs)
  have hfits : codeOf lens s < 2 ^ lens.getD s 0 :=
    (codeOf_lt hs hl).trans_le (first_add_count_le hk (hle.trans hr.maxBits_le))
  rw [decode, if_neg (by omega)]
  refine decodeLoop_of_toBits (r := lens.getD s 0 - 1) hr hs Nat.one_pos (by omega) (by omega) ?_
    hw ?_
  · rw [Nat.sub_add_cancel hl, Nat.div_eq_of_lt hfits]
  · rwa [Nat.sub_add_cancel hl]

end Huff

end AdaIdna
