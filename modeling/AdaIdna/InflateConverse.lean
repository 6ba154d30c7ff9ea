/-
AdaIdna/InflateConverse.lean

What `inflate_raw` accepts is DEFLATE.

Each function that reads a part of a block is taken to have returned: then the
bits that it took from its reader are the encoding of what it returned
(`Took`).  The code does not check everything that the format demands.  It
takes over-subscribed codes, and runs of code lengths that end behind the two
codes.  `CodesAllowed` says that no block that decoding gets to has such codes;
together with acceptance this is the format exactly
(`accepts_and_codesAllowed_iff`).
-/
import AdaIdna.InflateExact

namespace AdaIdna

open Checked Lanes CanonicalCode SlidingWindow Deflate

variable {br br' br'' : BitReader} {src out out' : Bytes} {lens u u' rest A R L D clen : List ℕ}
  {pos dstCap fuel n v s sym len code rounds length distance : ℕ} {lit dist cl : Huff}
  {h : DynamicHeader} {op : LengthOp} {r : LengthRun} {runs : List LengthRun}
  {blocks : List Block} {last : Bool}

/-! ### Bits taken -/

/-- From `br` to `br'` the bits `u` were read. -/
structure Took (br : BitReader) (u : List ℕ) (br' : BitReader) : Prop where
  toBits : br.toBits = u ++ br'.toBits
  wf : br'.Wf

theorem Took.refl (hw : br.Wf) : Took br [] br := ⟨rfl, hw⟩

theorem Took.trans (h : Took br u br') (h' : Took br' u' br'') : Took br (u ++ u') br'' :=
  ⟨by rw [h.toBits, h'.toBits, List.append_assoc], h'.wf⟩

theorem BitReader.lt_two_of_mem_toBits (br : BitReader) : ∀ b ∈ br.toBits, b < 2 ^ 1 := by
  intro b hb
  rw [toBits, bytesToBits, List.mem_append, List.mem_flatMap] at hb
  rcases hb with hb | ⟨_, -, hb⟩
  · exact lt_of_mem_unpack hb
  · exact lt_of_mem_unpack hb

theorem BitReader.took_get (hw : br.Wf) (hget : br.get n = ok (v, br')) :
    v < 2 ^ n ∧ Took br (unpack 1 n v) br' := by
  obtain ⟨hv, hsize⟩ := (meets_get br n).2 _ hget
  dsimp only at hv hsize
  have hlen : (br.toBits.take n).length = n := by
    rw [List.length_take, length_toBits]
    omega
  obtain ⟨br'', hget', hrest, hw'⟩ := get_of_toBits hw (List.take_append_drop n br.toBits).symm
  rw [hlen, hget] at hget'
  cases hget'
  refine ⟨hv, ?_, hw'⟩
  have hbits := unpack_pack (w := 1) (s := br.toBits.take n) fun b hb =>
    br.lt_two_of_mem_toBits b (List.mem_of_mem_take hb)
  rw [hlen] at hbits
  rw [hbits, hrest, List.take_append_drop]

/-! ### Codes -/

namespace Huff

theorem took_decodeLoop {h : Huff} (hr : h.Represents lens) (hlen : 0 < len)
    (hrounds : len + rounds = h.maxBits + 1) (hfirst : first lens len ≤ 2 * code) (hw : br.Wf)
    (hd : h.decodeLoop rounds len code br = ok (s, br')) :
    ∃ k, lens.getD s 0 = len + k ∧ code = codeOf lens s / 2 ^ (k + 1) ∧
      Took br (unpack 1 (k + 1) (codeOf lens s)).reverse br' := by
  induction rounds generalizing len code br with
  | zero => cases hd
  | succ rounds ih =>
    rcases hget : br.get 1 with ⟨b, br1⟩ | - | - | -
    · obtain ⟨hb, htook⟩ := BitReader.took_get hw hget
      rw [decodeLoop_succ hr hlen (by omega) hget hb (by omega)] at hd
      split at hd
      · rename_i s' hs
        cases hd
        have hmem := List.mem_of_getElem? hs
        have hl := getD_of_mem_symbolsOf hmem
        have hcode : codeOf lens s = 2 * code + b := by
          rw [codeOf, hl, ← eq_count_of_getElem?_symbolsOf hs]
          omega
        refine ⟨0, hl, by rw [hcode]; omega, ?_⟩
        rw [reverse_unpack_succ, hcode, pow_zero, Nat.div_one,
          show (2 * code + b) % 2 = b % 2 ^ 1 by omega]
        exact htook
      · rename_i hnone
        obtain ⟨k, hl, hcode, htook'⟩ :=
          ih (Nat.succ_pos len) (by omega) (first_succ_le hlen (by omega) hnone) htook.wf hd
        refine ⟨k + 1, by omega, ?_, ?_⟩
        · rw [pow_succ, ← Nat.div_div_eq_div_mul, ← hcode]
          omega
        · rw [reverse_unpack_succ, ← hcode, show (2 * code + b) % 2 = b % 2 ^ 1 by omega]
          exact htook.trans htook'
    all_goals
      rw [decodeLoop, hget] at hd
      cases hd

/-- **A symbol that was decoded** has a code, which was read. -/
theorem took_decode {h : Huff} (hr : h.Represents lens) (hw : br.Wf)
    (hd : h.decode br = ok (s, br')) : 0 < lens.getD s 0 ∧ Took br (codeBits lens s) br' := by
  rw [decode] at hd
  split at hd
  · cases hd
  · obtain ⟨k, hl, -, htook⟩ :=
      took_decodeLoop hr Nat.one_pos (Nat.add_comm _ _) (Nat.zero_le _) hw hd
    rw [codeBits, hl, Nat.add_comm 1 k]
    exact ⟨Nat.succ_pos k, htook⟩

/-- The Kraft sum of the lengths that were counted. -/
def kraftSum (h : Huff) : ℕ := ∑ l ∈ Finset.range 16, h.counts.getD l 0 * 2 ^ (15 - l)

theorem Represents.kraftSum_eq {h : Huff} (hr : h.Represents lens) :
    h.kraftSum = kraft 15 lens := by
  refine Finset.sum_congr rfl fun l hl => ?_
  have hcount := hr.counts l (by rw [Finset.mem_range] at hl; omega)
  rw [List.getD_eq_getElem?_getD, hcount]
  rfl

end Huff

/-! ### Symbols -/

theorem distStart_pos (c : ℕ) : 0 < distStart c := by
  induction c with
  | zero => exact Nat.one_pos
  | succ c ih => exact Nat.add_pos_left ih _

/-- **A length and a distance that were read.** -/
theorem took_readPair (hr : dist.Represents D) (hw : br.Wf) (hsym : 257 ≤ sym)
    (hpair : readPair dist sym br = ok (length, distance, br')) :
    ∃ lengthCode lengthExtra distCode distExtra, sym = 257 + lengthCode ∧ lengthCode ≤ 28 ∧
      lengthExtra < 2 ^ lengthExtraBits lengthCode ∧ distCode ≤ 29 ∧ 0 < D.getD distCode 0 ∧
      distExtra < 2 ^ distExtraBits distCode ∧ length = lengthStart lengthCode + lengthExtra ∧
      distance = distStart distCode + distExtra ∧
      Took br (unpack 1 (lengthExtraBits lengthCode) lengthExtra ++ codeBits D distCode ++
        unpack 1 (distExtraBits distCode) distExtra) br' := by
  obtain ⟨lengthCode, rfl⟩ := Nat.exists_eq_add_of_le hsym
  rw [readPair, Nat.add_sub_cancel_left] at hpair
  dsimp only at hpair
  split at hpair
  · cases hpair
  rename_i hlc
  rw [read_lenExtra _ (not_lt.mp hlc), ok_bind] at hpair
  obtain ⟨⟨lengthExtra, br1⟩, hget1, hpair⟩ := bind_eq_ok.mp hpair
  obtain ⟨hle, htook1⟩ := BitReader.took_get hw hget1
  rw [read_lenBase _ (not_lt.mp hlc), ok_bind] at hpair
  obtain ⟨⟨distCode, br2⟩, hdecode, hpair⟩ := bind_eq_ok.mp hpair
  obtain ⟨hdcode, htook2⟩ := Huff.took_decode hr htook1.wf hdecode
  dsimp only at hpair
  split at hpair
  · cases hpair
  rename_i hdc
  rw [read_distExtra _ (not_lt.mp hdc), ok_bind] at hpair
  obtain ⟨⟨distExtra, br3⟩, hget3, hpair⟩ := bind_eq_ok.mp hpair
  obtain ⟨hde, htook3⟩ := BitReader.took_get htook2.wf hget3
  rw [read_distBase _ (not_lt.mp hdc), ok_bind, ite_extra hle, ite_extra hde] at hpair
  cases hpair
  exact ⟨lengthCode, lengthExtra, distCode, distExtra, rfl, not_lt.mp hlc, hle, not_lt.mp hdc,
    hdcode, hde, rfl, rfl, (htook1.trans htook2).trans htook3⟩

/-- **The symbols of a block that was decoded.** -/
theorem took_symbolsLoop (hlit : lit.Represents L) (hdist : dist.Represents D) (hw : br.Wf)
    (hloop : symbolsLoop dstCap lit dist fuel br out = ok (br', out')) :
    ∃ symbols, Block.EncodableSymbols L D symbols ∧
      SlidingWindow.expand out (symbols.map Symbol.token) = some out' ∧
      Took br (symbolBits L D symbols) br' := by
  induction fuel generalizing br out with
  | zero => cases hloop
  | succ fuel ih =>
    rw [symbolsLoop] at hloop
    obtain ⟨⟨sym, br1⟩, hdecode, hloop⟩ := bind_eq_ok.mp hloop
    obtain ⟨hcode, htook1⟩ := Huff.took_decode hlit hw hdecode
    dsimp only at hloop
    split_ifs at hloop with hsym hcap hend
    · rw [putByte, if_pos (not_le.mp hcap), ok_bind] at hloop
      obtain ⟨symbols, ⟨hsymbols, hstop⟩, hexp, htook⟩ := ih htook1.wf hloop
      have hnat : (toChar sym).toNat = sym := toNat_toChar hsym
      refine ⟨.literal (toChar sym) :: symbols, ⟨List.forall_mem_cons.mpr ⟨?_, hsymbols⟩, hstop⟩,
        hexp, ?_⟩
      · rw [Symbol.Encodable, hnat]
        exact hcode
      · rw [symbolBits, List.flatMap_cons, Symbol.bits, hnat, List.append_assoc]
        exact htook1.trans htook
    · cases hloop
      subst hend
      exact ⟨[], ⟨List.forall_mem_nil _, hcode⟩, rfl, htook1⟩
    · obtain ⟨⟨length, distance, br2⟩, hpair, hloop⟩ := bind_eq_ok.mp hloop
      obtain ⟨lengthCode, lengthExtra, distCode, distExtra, rfl, hlc, hle, hdc, hdcode, hde, rfl,
        rfl, htook2⟩ := took_readPair hdist htook1.wf (by omega) hpair
      dsimp only at hloop
      split at hloop
      · cases hloop
      rename_i hfits
      have hpos : 0 < distStart distCode + distExtra := Nat.add_pos_left (distStart_pos _) _
      rw [copyBack_eq hpos (by omega) (by omega), ok_bind] at hloop
      obtain ⟨symbols, ⟨hsymbols, hstop⟩, hexp, htook⟩ := ih htook2.wf hloop
      refine ⟨.pair lengthCode lengthExtra distCode distExtra :: symbols,
        ⟨List.forall_mem_cons.mpr ⟨⟨hlc, hcode, hle, hdc, hdcode, hde⟩, hsymbols⟩, hstop⟩, ?_, ?_⟩
      · rw [List.map_cons, expand_cons, Symbol.token, Token.expand, if_pos ⟨hpos, by omega⟩]
        exact hexp
      · rw [symbolBits, List.flatMap_cons, Symbol.bits, List.append_assoc, List.append_assoc,
          List.append_assoc, List.append_assoc]
        refine htook1.trans ?_
        rw [← List.append_assoc, ← List.append_assoc]
        exact htook2.trans htook

/-! ### Stored blocks -/

theorem bytesToBits_append (p q : Bytes) : bytesToBits (p ++ q) = bytesToBits p ++ bytesToBits q :=
  List.flatMap_append

/-- **A stored block that was copied.** -/
theorem took_inflateStored (hw : br.Wf) (hstored : inflateStored dstCap br out = ok (br', out')) :
    ∃ pad data, pad.length = br.bits ∧ data.length < 2 ^ 16 ∧ out' = out ++ data ∧
      Took br (Block.stored pad data).body br' := by
  rw [inflateStored, BitReader.alignByte_eq hw, ← bind_assoc, BitReader.ensure_bind_get]
    at hstored
  obtain ⟨⟨len, br1⟩, hget1, hstored⟩ := bind_eq_ok.mp hstored
  obtain ⟨hlen, htook1⟩ := BitReader.took_get (BitReader.wf_start br.p) hget1
  obtain ⟨⟨nlen, br2⟩, hget2, hstored⟩ := bind_eq_ok.mp hstored
  obtain ⟨-, htook2⟩ := BitReader.took_get htook1.wf hget2
  dsimp only at hstored
  split_ifs at hstored with hnlen hshort hcap
  rw [copyStored, if_pos ⟨not_lt.mp hshort, not_lt.mp hcap⟩, ok_bind] at hstored
  cases hstored
  rw [not_not, xor_eq_sub hlen] at hnlen
  -- the two numbers are whole bytes, so nothing is left in the accumulator
  have hbytes := (htook1.trans htook2).toBits
  have hbits : br2.toBits = bytesToBits br2.p := by
    apply BitReader.toBits_eq_bytesToBits htook2.wf
    have h := congrArg List.length hbytes
    rw [BitReader.toBits_start, length_bytesToBits, List.length_append, List.length_append,
      length_unpack, length_unpack] at h
    omega
  have hzero : br2.bits = 0 := by
    have h := congrArg List.length hbits
    rw [BitReader.length_toBits, BitReader.size, length_bytesToBits] at h
    omega
  have htake : (br2.p.take len).length = len := List.length_take_of_le (not_lt.mp hshort)
  refine ⟨unpack 1 br.bits br.acc, br2.p.take len, length_unpack _ _ _, htake.trans_lt hlen, rfl,
    ?_, ⟨htook2.wf.acc_lt, htook2.wf.bits_lt⟩⟩
  have hrest : BitReader.toBits { br2 with p := br2.p.drop len }
      = bytesToBits (br2.p.drop len) := by
    rw [BitReader.toBits, hzero]
    rfl
  rw [hrest, Block.body, htake, hnlen, List.append_assoc, ← bytesToBits_append,
    List.take_append_drop, ← hbits, List.append_assoc, List.append_assoc, ← List.append_assoc
      (unpack 1 16 len), ← hbytes]
  rfl

/-! ### Code lengths -/

/-- **A symbol of the code lengths that was read.** -/
theorem took_readLengthOp (hr : cl.Represents clen) (hw : br.Wf)
    (hop : readLengthOp cl br = ok (op, br')) :
    ∃ r : LengthRun, r.Valid ∧ 0 < clen.getD r.symbol 0 ∧ r.op = op ∧
      Took br (r.bits clen) br' := by
  rw [readLengthOp] at hop
  obtain ⟨⟨sym, br1⟩, hdecode, hop⟩ := bind_eq_ok.mp hop
  obtain ⟨hcode, htook1⟩ := Huff.took_decode hr hw hdecode
  dsimp only at hop
  split_ifs at hop with hvalue h16 h17 h18
  · cases hop
    refine ⟨.value sym, Nat.le_of_lt_succ hvalue, hcode, rfl, ?_⟩
    rw [LengthRun.bits, LengthRun.extra, List.append_nil]
    exact htook1
  · obtain ⟨⟨rep, br2⟩, hget, hop⟩ := bind_eq_ok.mp hop
    obtain ⟨hrep, htook2⟩ := BitReader.took_get htook1.wf hget
    cases hop
    subst h16
    exact ⟨.repeatLast (rep + 3), ⟨by omega, by omega⟩, hcode, rfl, htook1.trans htook2⟩
  · obtain ⟨⟨rep, br2⟩, hget, hop⟩ := bind_eq_ok.mp hop
    obtain ⟨hrep, htook2⟩ := BitReader.took_get htook1.wf hget
    cases hop
    subst h17
    have hten : rep + 3 ≤ 10 := by omega
    refine ⟨.zeros (rep + 3), ⟨by omega, by omega⟩, ?_, rfl, ?_⟩
    · rw [LengthRun.symbol, if_pos hten]
      exact hcode
    · rw [LengthRun.bits, LengthRun.symbol, LengthRun.extra, if_pos hten, if_pos hten]
      exact htook1.trans htook2
  · obtain ⟨⟨rep, br2⟩, hget, hop⟩ := bind_eq_ok.mp hop
    obtain ⟨hrep, htook2⟩ := BitReader.took_get htook1.wf hget
    cases hop
    subst h18
    have hten : ¬ rep + 11 ≤ 10 := by omega
    refine ⟨.zeros (rep + 11), ⟨by omega, by omega⟩, ?_, rfl, ?_⟩
    · rw [LengthRun.symbol, if_neg hten]
      exact hcode
    · rw [LengthRun.bits, LengthRun.symbol, LengthRun.extra, if_neg hten, if_neg hten]
      exact htook1.trans htook2

theorem Deflate.LengthRun.expand_eq_some (happ : r.op.Applies A.length) :
    r.expand A = some (A ++ List.replicate r.op.count (r.op.filler A)) := by
  cases r with
  | value v => rfl
  | repeatLast n =>
    have hne : A ≠ [] := fun h => happ (by rw [h]; rfl)
    rw [expand, op, LengthOp.filler, List.getLastD_eq_getLast?,
      List.getLast?_eq_getLast_of_ne_nil hne]
    rfl
  | zeros n => rfl

/-- No run of code lengths ends behind the two codes. -/
def RunsEndInside (h : DynamicHeader) : Prop := ∀ i br, AtLength h i br → i ≤ h.hlit + h.hdist

theorem RunsEndInside.lengthsFit (hin : RunsEndInside h) (hlit : h.hlit ≤ 288)
    (hdist : h.hdist ≤ 32) : LengthsFit h := by
  intro i br op br' hat hi hop happ
  have := hin _ _ (hat.next hi hop happ)
  omega

/-- **The code lengths that were read** are those of runs. -/
theorem took_codeLengthsLoop (hr : h.cl.Represents clen) (hin : RunsEndInside h)
    (hn : h.hlit + h.hdist ≤ (A ++ R).length) (hat : AtLength h A.length br) (hw : br.Wf)
    (hloop : codeLengthsLoop h.cl (h.hlit + h.hdist) fuel (A ++ R) A.length br
      = ok (lens, br')) :
    ∃ runs B, (∀ r ∈ runs, r.Valid ∧ 0 < clen.getD r.symbol 0) ∧
      expandRuns A runs = some B ∧ B.length = h.hlit + h.hdist ∧ B <+: lens ∧
      Took br (runs.flatMap (LengthRun.bits clen)) br' := by
  induction fuel generalizing A R br with
  | zero =>
    have hle := hin _ _ hat
    rw [codeLengthsLoop] at hloop
    split at hloop
    · cases hloop
    · cases hloop
      exact ⟨[], A, List.forall_mem_nil _, rfl, by omega, List.prefix_append A R, .refl hw⟩
  | succ fuel ih =>
    by_cases hi : A.length < h.hlit + h.hdist
    · rw [codeLengthsLoop_succ hi] at hloop
      obtain ⟨⟨op, br1⟩, hop, hloop⟩ := bind_eq_ok.mp hloop
      obtain ⟨r, hvalid, hcode, rfl, htook⟩ := took_readLengthOp hr hw hop
      dsimp only at hloop
      by_cases happ : r.op.Applies A.length
      · have hnext := hat.next hi hop happ
        have hle := hin _ _ hnext
        rw [List.length_append] at hn
        rw [applyLengthOp_eq happ (by omega), ok_bind] at hloop
        dsimp only at hloop
        have hlen : (A ++ List.replicate r.op.count (r.op.filler A)).length
            = A.length + r.op.count := by
          rw [List.length_append, List.length_replicate]
        rw [← hlen] at hloop hnext
        obtain ⟨runs, B, hruns, hexp, hB, hprefix, htook'⟩ := ih (by
          rw [List.length_append, List.length_drop, hlen]
          omega) hnext htook.wf hloop
        refine ⟨r :: runs, B, List.forall_mem_cons.mpr ⟨⟨hvalid, hcode⟩, hruns⟩, ?_, hB, hprefix,
          htook.trans htook'⟩
        rw [expandRuns_cons, Deflate.LengthRun.expand_eq_some happ]
        exact hexp
      · rw [applyLengthOp_reject happ] at hloop
        cases hloop
    · have hle := hin _ _ hat
      rw [codeLengthsLoop_of_le (not_lt.mp hi)] at hloop
      cases hloop
      exact ⟨[], A, List.forall_mem_nil _, rfl, by omega, List.prefix_append A R, .refl hw⟩

/-! ### Dynamic blocks -/

theorem nodup_lengthOrder : lengthOrder.Nodup := by
  decide

/-- The lengths of the code for the code lengths after `k` of them are read. -/
structure ClensTook (br : BitReader) (k : ℕ) (st : List ℕ × BitReader) : Prop where
  length : st.1.length = 19
  le : ∀ x ∈ st.1, x ≤ 7
  zero : ∀ s ∈ lengthOrder.drop k, st.1.getD s 0 = 0
  took : Took br ((lengthOrder.take k).flatMap fun s => unpack 1 3 (st.1.getD s 0)) st.2

/-- One length. -/
theorem ClensTook.clenStep {st st' : List ℕ × BitReader} {k : ℕ} (hk : k < lengthOrder.length)
    (hc : ClensTook br k st) (hstep : clenStep st k = ok st') : ClensTook br (k + 1) st' := by
  obtain ⟨clen, br1⟩ := st
  rw [AdaIdna.clenStep] at hstep
  obtain ⟨⟨v, br2⟩, hget, hstep⟩ := bind_eq_ok.mp hstep
  obtain ⟨hv, htook⟩ := BitReader.took_get hc.took.wf hget
  have hread : read codeLengthOrder k = ok lengthOrder[k] := read_of_lt hk
  have hlt : lengthOrder[k] < clen.length := by
    rw [show clen.length = 19 from hc.length]
    exact lengthOrder_lt _ (List.getElem_mem hk)
  dsimp only at hstep
  rw [hread, ok_bind, write_of_lt hlt, ok_bind] at hstep
  cases hstep
  have hother : ∀ s, s ≠ lengthOrder[k] → (clen.set lengthOrder[k] v).getD s 0 = clen.getD s 0 := by
    intro s hs
    rw [List.getD_eq_getElem?_getD, List.getD_eq_getElem?_getD, List.getElem?_set_ne hs.symm]
  have hself : (clen.set lengthOrder[k] v).getD lengthOrder[k] 0 = v := by
    rw [List.getD_eq_getElem?_getD, List.getElem?_set_self hlt]
    rfl
  have hsplit : lengthOrder.take (k + 1) = lengthOrder.take k ++ [lengthOrder[k]] :=
    List.take_succ_eq_append_getElem hk
  have hnodup : (lengthOrder.take k ++ lengthOrder[k] :: lengthOrder.drop (k + 1)).Nodup := by
    rw [← List.drop_eq_getElem_cons hk, List.take_append_drop]
    exact nodup_lengthOrder
  obtain ⟨-, hnodup', hdisjoint⟩ := List.nodup_append'.mp hnodup
  refine ⟨?_, ?_, ?_, ?_⟩
  · dsimp only
    rw [List.length_set]
    exact hc.length
  · intro x hx
    rcases List.mem_or_eq_of_mem_set hx with hx | rfl
    · exact hc.le x hx
    · omega
  · intro s hs
    have hne : s ≠ lengthOrder[k] := by
      rintro rfl
      exact (List.nodup_cons.mp hnodup').1 hs
    rw [hother s hne]
    apply hc.zero
    rw [List.drop_eq_getElem_cons hk]
    exact List.mem_cons_of_mem _ hs
  · have hsame : (lengthOrder.take k).flatMap (fun s => unpack 1 3 ((clen.set lengthOrder[k] v).getD
        s 0)) = (lengthOrder.take k).flatMap fun s => unpack 1 3 (clen.getD s 0) := by
      refine List.flatMap_congr fun s hs => ?_
      rw [hother]
      rintro rfl
      exact hdisjoint hs List.mem_cons_self
    dsimp only
    rw [hsplit, List.flatMap_append, hsame, List.flatMap_singleton, hself]
    exact hc.took.trans htook

/-- **The header of a dynamic block that was read.** -/
theorem took_readDynamicHeader (hw : br.Wf) (hheader : readDynamicHeader br = ok h) :
    ∃ clen sent, 257 ≤ h.hlit ∧ 1 ≤ h.hdist ∧ 4 ≤ sent ∧ sent ≤ 19 ∧ clen.length = 19 ∧
      (∀ x ∈ clen, x ≤ 7) ∧ (∀ s ∈ lengthOrder.drop sent, clen.getD s 0 = 0) ∧
      h.cl.Represents clen ∧
      Took br (unpack 1 5 (h.hlit - 257) ++ unpack 1 5 (h.hdist - 1) ++ unpack 1 4 (sent - 4) ++
        (lengthOrder.take sent).flatMap fun s => unpack 1 3 (clen.getD s 0)) h.br := by
  rw [readDynamicHeader] at hheader
  obtain ⟨⟨hlit, br1⟩, hget1, hheader⟩ := bind_eq_ok.mp hheader
  obtain ⟨-, htook1⟩ := BitReader.took_get hw hget1
  obtain ⟨⟨hdist, br2⟩, hget2, hheader⟩ := bind_eq_ok.mp hheader
  obtain ⟨-, htook2⟩ := BitReader.took_get htook1.wf hget2
  obtain ⟨⟨hclen, br3⟩, hget3, hheader⟩ := bind_eq_ok.mp hheader
  obtain ⟨hsent, htook3⟩ := BitReader.took_get htook2.wf hget3
  obtain ⟨⟨clen, br4⟩, hloop, hheader⟩ := bind_eq_ok.mp hheader
  have hsent' : hclen + 4 ≤ 19 := by omega
  have hclens := (Meets.foldlM_range (f := clenStep) (s := (List.replicate 19 0, br3))
    (n := hclen + 4) (ClensTook br3) ⟨rfl, fun x hx =>
      (List.eq_of_mem_replicate hx).trans_le (Nat.zero_le _), fun s _ => by
        rw [List.getD_eq_getElem?_getD, List.getElem?_replicate]
        split <;> rfl, .refl htook3.wf⟩
    fun k st hk hc => ⟨(meets_clenStep (show k < 19 by omega) hc.length fun x hx =>
      (hc.le x hx).trans (by decide)).1, fun st' hst =>
        hc.clenStep (show k < 19 by omega) hst⟩).2 _ hloop
  obtain ⟨cl, hbuild, hheader⟩ := bind_eq_ok.mp hheader
  have hcl := (Huff.meets_build hclens.length.ge (by decide) fun x hx =>
    (hclens.le x hx).trans (by decide)).2 cl hbuild
  rw [← show clen.length = 19 from hclens.length, List.take_length] at hcl
  cases hheader
  refine ⟨clen, hclen + 4, by dsimp only; omega, by dsimp only; omega, by omega, hsent',
    hclens.length, hclens.le, hclens.zero, hcl, ?_⟩
  dsimp only
  rw [Nat.add_sub_cancel, Nat.add_sub_cancel, Nat.add_sub_cancel]
  exact ((htook1.trans htook2).trans htook3).trans hclens.took

/-- The format allows the codes of a dynamic block that begins here: the runs
of code lengths end with the two codes, and none of the three codes is
over-subscribed. -/
structure DynamicAllowed (br : BitReader) : Prop where
  runs : ∀ h, readDynamicHeader br = ok h → RunsEndInside h
  cl : ∀ h, readDynamicHeader br = ok h → h.cl.kraftSum ≤ 2 ^ 15
  codes : ∀ lit dist br', readDynamicCodes br = ok (lit, dist, br') →
    lit.kraftSum ≤ 2 ^ 15 ∧ dist.kraftSum ≤ 2 ^ 15

/-- **The codes of a dynamic block that were read.** -/
theorem took_readDynamicCodes (hallowed : DynamicAllowed br) (hw : br.Wf)
    (hcodes : readDynamicCodes br = ok (lit, dist, br')) :
    ∃ c : DynamicCodes, lit.Represents c.litLens ∧ dist.Represents c.distLens ∧
      Took br c.bits br' := by
  obtain ⟨hkraft, hkraft'⟩ := hallowed.codes lit dist br' hcodes
  rw [readDynamicCodes] at hcodes
  obtain ⟨h, hheader, hcodes⟩ := bind_eq_ok.mp hcodes
  obtain ⟨clen, sent, hlit, hdist, hsent, hsent', hclen, hle, hzero, hcl, htook1⟩ :=
    took_readDynamicHeader hw hheader
  obtain ⟨hlit', hdist', -, -⟩ := (meets_readDynamicHeader br).2 h hheader
  have hin := hallowed.runs h hheader
  obtain ⟨⟨lens, br2⟩, hloop, hcodes⟩ := bind_eq_ok.mp hcodes
  obtain ⟨hlens, hsmall, -⟩ := (meets_codeLengthsLoop hcl (hin.lengthsFit hlit' hdist') .first
    (lengthState_start h)).2 _ hloop
  obtain ⟨runs, B, hruns, hexp, hB, ⟨tail, rfl⟩, htook2⟩ := took_codeLengthsLoop (A := [])
    (R := List.replicate (288 + 32) 0) hcl hin
    (by rw [List.nil_append, List.length_replicate]; omega) .first htook1.wf hloop
  obtain ⟨lit', hbuild, hcodes⟩ := bind_eq_ok.mp hcodes
  obtain ⟨dist', hbuild', hcodes⟩ := bind_eq_ok.mp hcodes
  cases hcodes
  dsimp only at hlens hsmall hbuild hbuild'
  -- the two codes divide the lengths
  have htakeLit : (B ++ tail).take h.hlit = B.take h.hlit :=
    List.take_append_of_le_length (by omega)
  have htakeDist : ((B ++ tail).drop h.hlit).take h.hdist = B.drop h.hlit := by
    rw [List.drop_append_of_le_length (by omega), List.take_append_of_le_length
      (by rw [List.length_drop]; omega), List.take_of_length_le (by rw [List.length_drop]; omega)]
  have hrlit := (Huff.meets_build (by omega) hlit' hsmall).2 _ hbuild
  have hrdist := (Huff.meets_build (by rw [List.length_drop]; omega) (by omega) fun x hx =>
    hsmall x (List.mem_of_mem_drop hx)).2 _ hbuild'
  rw [htakeLit] at hrlit
  rw [htakeDist] at hrdist
  have hlitLen : (B.take h.hlit).length = h.hlit := List.length_take_of_le (by omega)
  have hdistLen : (B.drop h.hlit).length = h.hdist := by
    rw [List.length_drop]
    omega
  refine ⟨⟨B.take h.hlit, B.drop h.hlit, clen, sent, runs, by omega, by omega, ?_,
    hrlit.kraftSum_eq ▸ hkraft, hrdist.kraftSum_eq ▸ hkraft', hclen, hle,
    hcl.kraftSum_eq ▸ hallowed.cl h hheader, hsent, hsent', hzero, hruns, ?_⟩, hrlit, hrdist, ?_⟩
  · intro x hx
    rw [List.take_append_drop] at hx
    exact hsmall x (List.mem_append_left _ hx)
  · rw [List.take_append_drop]
    exact hexp
  · rw [DynamicCodes.bits]
    dsimp only
    rw [hlitLen, hdistLen]
    exact htook1.trans htook2

/-! ### Blocks -/

/-- The codes of a fixed block. -/
theorem represents_of_readCodes_one (hcodes : readCodes 1 br = ok (lit, dist, br')) :
    lit.Represents fixedLitLens ∧ dist.Represents fixedDistLens ∧ br' = br := by
  rw [readCodes, if_pos rfl] at hcodes
  obtain ⟨lit', hbuild, hcodes⟩ := bind_eq_ok.mp hcodes
  obtain ⟨dist', hbuild', hcodes⟩ := bind_eq_ok.mp hcodes
  cases hcodes
  have hlit := (Huff.meets_build length_fixedLitLenLengths.ge le_rfl
    le_of_mem_fixedLitLenLengths).2 _ hbuild
  have hdist := (@Huff.meets_build fixedDistLengths 32 (by decide) (by decide) (by decide)).2 _
    hbuild'
  rw [← length_fixedLitLenLengths, List.take_length, ← fixedLitLens_eq] at hlit
  rw [show fixedDistLengths.take 32 = fixedDistLens by decide] at hdist
  exact ⟨hlit, hdist, rfl⟩

/-- **What stood behind the header of a block.** -/
theorem took_inflateBody {btype : ℕ} (hallowed : btype = 2 → DynamicAllowed br) (hw : br.Wf)
    (hpos : (pos + 3 + br.toBits.length) % 8 = 0)
    (hbody : inflateBody dstCap btype br out = ok (br', out')) :
    ∃ b : Block, b.ValidAt pos ∧ b.btype = btype ∧ b.expand out = some out' ∧
      Took br b.body br' := by
  rw [inflateBody] at hbody
  split_ifs at hbody with h0 h12
  · obtain ⟨pad, data, hpad, hdata, rfl, htook⟩ := took_inflateStored hw hbody
    have hbits := hw.bits_lt
    rw [BitReader.length_toBits, BitReader.size] at hpos
    exact ⟨.stored pad data, ⟨by omega, by omega, hdata⟩, h0.symm, rfl, htook⟩
  · rw [inflateCompressed] at hbody
    obtain ⟨⟨lit, dist, br1⟩, hcodes, hloop⟩ := bind_eq_ok.mp hbody
    rcases h12 with rfl | rfl
    · obtain ⟨hlit, hdist, rfl⟩ := represents_of_readCodes_one hcodes
      obtain ⟨symbols, hsymbols, hexp, htook⟩ := took_symbolsLoop hlit hdist hw hloop
      exact ⟨.fixed symbols, hsymbols, rfl, hexp, htook⟩
    · rw [readCodes, if_neg (by decide)] at hcodes
      obtain ⟨c, hlit, hdist, htook1⟩ := took_readDynamicCodes (hallowed rfl) hw hcodes
      obtain ⟨symbols, hsymbols, hexp, htook2⟩ := took_symbolsLoop hlit hdist htook1.wf hloop
      exact ⟨.dynamic c symbols, hsymbols, rfl, hexp, htook1.trans htook2⟩

/-- The same, if a dynamic block begins here. -/
def BlockAllowed (br : BitReader) : Prop :=
  ∀ bfinal br', readBlockHeader br = ok (bfinal, 2, br') → DynamicAllowed br'

theorem took_readBlockHeader {bfinal btype : ℕ} (hw : br.Wf)
    (hheader : readBlockHeader br = ok (bfinal, btype, br')) :
    bfinal < 2 ∧ Took br (unpack 1 1 bfinal ++ unpack 1 2 btype) br' := by
  rw [readBlockHeader] at hheader
  obtain ⟨⟨bfinal, br1⟩, hget1, hheader⟩ := bind_eq_ok.mp hheader
  obtain ⟨hbfinal, htook1⟩ := BitReader.took_get hw hget1
  obtain ⟨⟨btype, br2⟩, hget2, hheader⟩ := bind_eq_ok.mp hheader
  obtain ⟨-, htook2⟩ := BitReader.took_get htook1.wf hget2
  cases hheader
  exact ⟨hbfinal, htook1.trans htook2⟩

/-- **A block that was decoded.** -/
theorem took_inflateBlock (hallowed : BlockAllowed br) (hw : br.Wf)
    (hpos : (pos + br.toBits.length) % 8 = 0)
    (hblock : inflateBlock dstCap br out = ok (last, br', out')) :
    ∃ b : Block, ∃ bfinal < 2, b.ValidAt pos ∧ last = (bfinal != 0) ∧ b.expand out = some out' ∧
      Took br (b.bits bfinal) br' := by
  rw [inflateBlock] at hblock
  obtain ⟨⟨bfinal, btype, br1⟩, hheader, hblock⟩ := bind_eq_ok.mp hblock
  obtain ⟨hbfinal, htook1⟩ := took_readBlockHeader hw hheader
  obtain ⟨⟨br2, out2⟩, hbody, hblock⟩ := bind_eq_ok.mp hblock
  cases hblock
  have hlen := congrArg List.length htook1.toBits
  rw [List.length_append, List.length_append, length_unpack, length_unpack] at hlen
  have hpos1 : (pos + 3 + br1.toBits.length) % 8 = 0 := by omega
  obtain ⟨b, hvalid, rfl, hexp, htook2⟩ := took_inflateBody
    (fun h2 => hallowed bfinal br1 (h2 ▸ hheader)) htook1.wf hpos1 hbody
  exact ⟨b, bfinal, hbfinal, hvalid, rfl, hexp, htook1.trans htook2⟩

/-! ### The whole stream -/

/-- The format allows the codes of every block that decoding gets to. -/
def CodesAllowed (src : Bytes) (dstCap : ℕ) : Prop :=
  ∀ br out, AtBlock src dstCap br out → BlockAllowed br

/-- **The blocks that were decoded.** -/
theorem encodes_of_inflateLoop (hallowed : CodesAllowed src dstCap)
    (hat : AtBlock src dstCap br out) (hw : br.Wf) (hpos : (pos + br.toBits.length) % 8 = 0)
    (hloop : inflateLoop dstCap fuel br out = ok out') :
    ∃ blocks u rest, Encodes pos blocks u ∧ br.toBits = u ++ rest ∧
      expandBlocks out blocks = some out' := by
  induction fuel generalizing br out pos with
  | zero => cases hloop
  | succ fuel ih =>
    rw [inflateLoop] at hloop
    obtain ⟨⟨last, br1, out1⟩, hblock, hloop⟩ := bind_eq_ok.mp hloop
    obtain ⟨b, bfinal, hbfinal, hvalid, rfl, hexp, htook⟩ :=
      took_inflateBlock (hallowed br out hat) hw hpos hblock
    dsimp only at hloop
    obtain rfl | rfl : bfinal = 0 ∨ bfinal = 1 := by omega
    · have hlen := congrArg List.length htook.toBits
      rw [List.length_append] at hlen
      obtain ⟨blocks, u, rest, hencodes, hbits, hexp'⟩ := ih (hat.next hblock) htook.wf
        (show (pos + (b.bits 0).length + br1.toBits.length) % 8 = 0 by rwa [Nat.add_assoc, ← hlen])
        hloop
      refine ⟨b :: blocks, b.bits 0 ++ u, rest, .cons hvalid hencodes, ?_, ?_⟩
      · rw [htook.toBits, hbits, List.append_assoc]
      · rw [expandBlocks_cons, hexp]
        exact hexp'
    · cases hloop
      refine ⟨[b], b.bits 1, br1.toBits, .last hvalid, htook.toBits, ?_⟩
      rw [expandBlocks_cons, hexp]
      rfl

/-! ### What the format allows -/

/-- The places that the loop over the code lengths gets to are between runs. -/
theorem runs_of_atLength (hr : h.cl.Represents clen) (hk : kraft 15 clen ≤ 2 ^ 15)
    (hruns : ∀ r ∈ runs, r.Valid ∧ 0 < clen.getD r.symbol 0) (hexp : expandRuns [] runs = some L)
    (hL : L.length = h.hlit + h.hdist) (hw : h.br.Wf)
    (hbits : h.br.toBits = runs.flatMap (LengthRun.bits clen) ++ rest) {i : ℕ}
    (hat : AtLength h i br) :
    ∃ A, ∃ runs' ⊆ runs, A.length = i ∧ expandRuns A runs' = some L ∧
      br.toBits = runs'.flatMap (LengthRun.bits clen) ++ rest ∧ br.Wf := by
  induction hat with
  | first => exact ⟨[], runs, List.Subset.refl _, rfl, hexp, hbits, hw⟩
  | next hat hi hop happ ih =>
    obtain ⟨A, runs', hsub, rfl, hexp', hbits', hw'⟩ := ih
    cases runs' with
    | nil =>
      cases hexp'
      exact absurd hi hL.ge.not_gt
    | cons r runs' =>
      obtain ⟨hr1, hsub'⟩ := List.cons_subset.mp hsub
      obtain ⟨hvalid, hcode⟩ := hruns r hr1
      rw [List.flatMap_cons, List.append_assoc] at hbits'
      obtain ⟨br1, hop1, hrest⟩ := readLengthOp_of_toBits hr hk hvalid hcode hw' hbits'
      rw [hop] at hop1
      cases hop1
      rw [expandRuns_cons, Deflate.LengthRun.expand_eq_some happ] at hexp'
      refine ⟨_, runs', hsub', ?_, hexp', hrest⟩
      rw [List.length_append, List.length_replicate]

theorem dynamicAllowed_of_toBits (c : DynamicCodes) (hw : br.Wf)
    (hbits : br.toBits = c.bits ++ rest) : DynamicAllowed br := by
  obtain ⟨h, hheader, hlit, hdist, hcl, hbits1, hw1⟩ := readDynamicHeader_of_toBits c hw hbits
  have hlen : (c.litLens ++ c.distLens).length = h.hlit + h.hdist := by
    rw [List.length_append, hlit, hdist]
  refine ⟨fun h' hh' => ?_, fun h' hh' => ?_, fun lit dist br' hcodes => ?_⟩
  · cases hheader.symm.trans hh'
    intro i br' hat
    obtain ⟨A, runs', -, rfl, hexp, -⟩ := runs_of_atLength hcl c.kraft_clen c.runs_valid
      c.expandRuns_runs hlen hw1 hbits1 hat
    exact (Deflate.length_expandRuns hexp).trans_eq hlen
  · cases hheader.symm.trans hh'
    rw [hcl.kraftSum_eq]
    exact c.kraft_clen
  · obtain ⟨lit', dist', br1, hcodes', hlit', hdist', -⟩ := readDynamicCodes_of_toBits c hw hbits
    cases hcodes.symm.trans hcodes'
    rw [hlit'.kraftSum_eq, hdist'.kraftSum_eq]
    exact ⟨c.kraft_litLens, c.kraft_distLens⟩

theorem btype_lt (b : Block) : b.btype < 2 ^ 2 := by
  cases b with
  | stored _ _ => exact Nat.two_pow_pos 2
  | fixed _ => exact (by decide : 1 < 2 ^ 2)
  | dynamic _ _ => exact (by decide : 2 < 2 ^ 2)

theorem blockAllowed_of_toBits {b : Block} {bfinal : ℕ} (hbfinal : bfinal < 2) (hw : br.Wf)
    (hbits : br.toBits = b.bits bfinal ++ rest) : BlockAllowed br := by
  intro bfinal' br' hheader
  rw [readBlockHeader] at hheader
  rw [Block.bits, List.append_assoc, List.append_assoc] at hbits
  obtain ⟨br1, hget1, hbits1, hw1⟩ := BitReader.get_of_toBits_unpack hw hbfinal hbits
  obtain ⟨br2, hget2, hbits2, hw2⟩ := BitReader.get_of_toBits_unpack hw1 (btype_lt b) hbits1
  rw [hget1, ok_bind] at hheader
  dsimp only at hheader
  rw [hget2, ok_bind] at hheader
  cases b with
  | stored pad data => cases hheader
  | fixed symbols => cases hheader
  | dynamic codes symbols =>
    cases hheader
    rw [Block.body, List.append_assoc] at hbits2
    exact dynamicAllowed_of_toBits codes hw2 hbits2

/-- Decoding gets to the blocks of the stream and to no other place. -/
theorem encodes_of_atBlock (hencodes : Encodes 0 blocks u) (hsrc : bytesToBits src = u ++ rest)
    (hexp : expandBlocks [] blocks = some out') (hcap : out'.length ≤ dstCap)
    (hat : AtBlock src dstCap br out) :
    ∃ pos blocks' u', Encodes pos blocks' u' ∧ br.toBits = u' ++ rest ∧ br.Wf ∧
      (pos + br.toBits.length) % 8 = 0 ∧ expandBlocks out blocks' = some out' := by
  induction hat with
  | first =>
    refine ⟨0, blocks, u, hencodes, hsrc, BitReader.wf_start src, ?_, hexp⟩
    rw [BitReader.toBits_start, length_bytesToBits, Nat.zero_add, Nat.mul_mod_right]
  | next hat hblock ih =>
    obtain ⟨pos, blocks', u', hencodes', hbits, hw, hpos, hexp'⟩ := ih
    cases hencodes' with
    | last hb =>
      rw [expandBlocks_cons, Option.bind_eq_some_iff] at hexp'
      obtain ⟨out1, hexp1, hexp'⟩ := hexp'
      cases hexp'
      obtain ⟨br1, hblock', -⟩ := inflateBlock_of_toBits (by decide) hb hpos hexp1 hcap hw hbits
      rw [hblock] at hblock'
      cases hblock'
    | @cons pos b blocks' u' hb hblocks =>
      rw [expandBlocks_cons, Option.bind_eq_some_iff] at hexp'
      obtain ⟨out1, hexp1, hexp'⟩ := hexp'
      have hlen := congrArg List.length hbits
      rw [List.append_assoc] at hbits
      obtain ⟨br1, hblock', hbits1, hw1⟩ := inflateBlock_of_toBits (by decide) hb hpos hexp1
        ((length_expandBlocks hexp').trans hcap) hw hbits
      rw [hblock] at hblock'
      cases hblock'
      refine ⟨_, blocks', u', hblocks, hbits1, hw1, ?_, hexp'⟩
      rw [List.length_append, List.length_append] at hlen
      rw [hbits1, List.length_append]
      omega

theorem codesAllowed_of_encodes (hencodes : Encodes 0 blocks u) (hsrc : bytesToBits src = u ++ rest)
    (hexp : expandBlocks [] blocks = some out) (hcap : out.length ≤ dstCap) :
    CodesAllowed src dstCap := by
  intro br out' hat
  obtain ⟨pos, blocks', u', hencodes', hbits, hw, -⟩ :=
    encodes_of_atBlock hencodes hsrc hexp hcap hat
  cases hencodes' with
  | last _ => exact blockAllowed_of_toBits (by decide) hw hbits
  | cons _ _ =>
    rw [List.append_assoc] at hbits
    exact blockAllowed_of_toBits (by decide) hw hbits

/-- **What `inflate_raw` accepts is DEFLATE**, and nothing else is, up to codes
that the format does not allow: it writes `out` and meets only codes that are
allowed exactly if the bytes begin with a stream of blocks whose text is `out`,
and there is room for it. -/
theorem accepts_and_codesAllowed_iff (src : Bytes) (dstCap : ℕ) (out : Bytes) :
    inflateRaw src dstCap = ok out ∧ CodesAllowed src dstCap ↔
      ∃ blocks u rest, Encodes 0 blocks u ∧ bytesToBits src = u ++ rest ∧
        expandBlocks [] blocks = some out ∧ out.length ≤ dstCap := by
  have hpos : (0 + (BitReader.toBits ⟨src, 0, 0⟩).length) % 8 = 0 := by
    rw [BitReader.toBits_start, length_bytesToBits, Nat.zero_add, Nat.mul_mod_right]
  constructor
  · rintro ⟨hok, hallowed⟩
    obtain ⟨blocks, u, rest, hencodes, hbits, hexp⟩ :=
      encodes_of_inflateLoop hallowed .first (BitReader.wf_start src) hpos hok
    have hfit : RunsFit src dstCap := by
      intro br out' hat bfinal br' h hheader hdynamic
      obtain ⟨hlit, hdist, -⟩ := (meets_readDynamicHeader br').2 h hdynamic
      exact ((hallowed br out' hat bfinal br' hheader).runs h hdynamic).lengthsFit hlit hdist
    exact ⟨blocks, u, rest, hencodes, hbits, hexp,
      (meets_inflateLoop hfit .first (Nat.zero_le _) (Nat.lt_succ_self _)).2 out hok⟩
  · rintro ⟨blocks, u, rest, hencodes, hsrc, hexp, hcap⟩
    exact ⟨inflateLoop_of_encodes hencodes hpos hexp hcap (BitReader.wf_start src) hsrc
      (Nat.lt_succ_self _), codesAllowed_of_encodes hencodes hsrc hexp hcap⟩

end AdaIdna
