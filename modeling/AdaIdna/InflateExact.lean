/-
AdaIdna/InflateExact.lean

`inflate_raw` decodes DEFLATE.

Each function that reads a part of a block is given a reader whose bits begin
with the encoding of that part: it returns what is encoded, and its reader is
left with the bits behind.  Stored blocks need the position in the stream as
well: the bits that `align_byte` drops are the padding, because at any time the
position and the bits still to be read add up to whole bytes.
-/
import AdaIdna.InflateSafety

namespace AdaIdna

open Checked Lanes CanonicalCode SlidingWindow Deflate

variable {br : BitReader} {p data src out out' : Bytes} {rest u L D A B R clen : List ℕ}
  {pos dstCap fuel c s : ℕ} {lit dist cl : Huff} {symbols : List Symbol} {r : LengthRun}
  {runs : List LengthRun} {b : Block} {blocks : List Block}

/-! ### Stored blocks -/

theorem unpack_toNat_inj {b b' : UInt8} (h : unpack 1 8 b.toNat = unpack 1 8 b'.toNat) :
    b = b' := by
  have h' := congrArg (pack 1) h
  rw [pack_unpack_of_lt b.toNat_lt, pack_unpack_of_lt b'.toNat_lt] at h'
  exact UInt8.toNat_inj.mp h'

/-- Bytes whose bits begin with those of `data`. -/
theorem exists_append_of_bytesToBits (h : bytesToBits p = bytesToBits data ++ rest) :
    ∃ q, p = data ++ q ∧ bytesToBits q = rest := by
  induction data generalizing p with
  | nil => exact ⟨p, rfl, h⟩
  | cons b data ih =>
    cases p with
    | nil =>
      have hlen := congrArg List.length h
      rw [bytesToBits_cons, List.length_append, List.length_append, length_unpack,
        bytesToBits_nil, List.length_nil] at hlen
      omega
    | cons b' p =>
      rw [bytesToBits_cons, bytesToBits_cons, List.append_assoc] at h
      obtain ⟨hb, h⟩ := List.append_inj h (by rw [length_unpack, length_unpack])
      obtain ⟨q, rfl, hq⟩ := ih h
      exact ⟨q, by rw [unpack_toNat_inj hb]; rfl, hq⟩

/-- A reader at the beginning of a byte. -/
theorem BitReader.toBits_eq_bytesToBits (hw : br.Wf) (h : br.toBits.length % 8 = 0) :
    br.toBits = bytesToBits br.p := by
  have hbits : br.bits = 0 := by
    have := hw.bits_lt
    rw [length_toBits, size] at h
    omega
  rw [toBits, hbits]
  rfl

/-- `ensure` before a `get` of the same size does nothing. -/
theorem BitReader.ensure_bind_get (br : BitReader) (n : ℕ) :
    (br.ensure n >>= fun br => br.get n) = br.get n := by
  rcases h : br.ensure n with br' | - | - | -
  · have hle := ((meets_ensure br n).2 br' h).2
    have hself : br'.ensure n = ok br' := by
      rw [ensure, ensureLoop.eq_def]
      split
      · rw [if_neg (not_lt.mpr hle)]
        rename_i hp
        rw [← hp]
      · rw [if_neg (not_lt.mpr hle)]
        rename_i hp
        rw [← hp]
    rw [ok_bind, get, get, hself, h]
  all_goals
    rw [get, h]
    rfl

/-- The complement that the code computes and that of the format. -/
theorem xor_eq_sub {len : ℕ} (h : len < 2 ^ 16) : len ^^^ 0xFFFF = 2 ^ 16 - 1 - len := by
  have hnot := congrArg BitVec.toNat (BitVec.xor_allOnes (x := BitVec.ofNat 16 len))
  rwa [BitVec.toNat_xor, BitVec.toNat_not, BitVec.toNat_ofNat, Nat.mod_eq_of_lt h,
    BitVec.toNat_allOnes] at hnot

/-- **Stored blocks.** -/
theorem inflateStored_of_toBits {pad : List ℕ} (hw : br.Wf) (hpad : pad.length < 8)
    (hlen : br.toBits.length % 8 = pad.length) (hdata : data.length < 2 ^ 16)
    (hcap : (out ++ data).length ≤ dstCap)
    (hbits : br.toBits = (Block.stored pad data).body ++ rest) :
    ∃ br', inflateStored dstCap br out = ok (br', out ++ data) ∧ br'.toBits = rest ∧ br'.Wf := by
  have hpadBits : br.bits = pad.length := by
    have := hw.bits_lt
    rw [BitReader.length_toBits, BitReader.size] at hlen
    omega
  -- the padding is what the accumulator holds
  have halign : bytesToBits br.p = unpack 1 16 data.length
      ++ (unpack 1 16 (2 ^ 16 - 1 - data.length) ++ (bytesToBits data ++ rest)) := by
    have h := hbits
    rw [BitReader.toBits, Block.body, List.append_assoc, List.append_assoc, List.append_assoc] at h
    exact (List.append_inj h (by rw [length_unpack, hpadBits])).2
  obtain ⟨br1, hget1, hbits1, hw1⟩ :=
    BitReader.get_of_toBits_unpack (BitReader.wf_start br.p) hdata halign
  obtain ⟨br2, hget2, hbits2, hw2⟩ :=
    BitReader.get_of_toBits_unpack hw1 (show 2 ^ 16 - 1 - data.length < 2 ^ 16 by omega) hbits1
  have hbytes : br2.toBits = bytesToBits br2.p := by
    apply BitReader.toBits_eq_bytesToBits hw2
    have h := congrArg List.length halign
    rw [length_bytesToBits, List.length_append, List.length_append, length_unpack,
      length_unpack, ← hbits2] at h
    omega
  obtain ⟨q, hq, hrest⟩ := exists_append_of_bytesToBits (hbytes.symm.trans hbits2)
  refine ⟨{ br2 with p := q }, ?_, ?_, ⟨hw2.acc_lt, hw2.bits_lt⟩⟩
  · rw [inflateStored, BitReader.alignByte_eq hw, ← bind_assoc, BitReader.ensure_bind_get, hget1,
      ok_bind]
    dsimp only
    rw [hget2, ok_bind]
    dsimp only
    rw [List.length_append] at hcap
    rw [if_neg (not_not.mpr (xor_eq_sub hdata)), hq, if_neg (by rw [List.length_append]; omega),
      if_neg (by omega), copyStored, if_pos (by rw [List.length_append]; omega), List.take_left,
      List.drop_left]
    rfl
  · rw [BitReader.toBits, hrest]
    have hz : br2.bits = 0 := by
      have h := congrArg List.length hbytes
      rw [BitReader.length_toBits, BitReader.size, length_bytesToBits] at h
      omega
    rw [hz]
    rfl

/-! ### Symbols -/

theorem read_lenExtra : ∀ c ≤ 28, read lenExtra c = ok (lengthExtraBits c) := by
  decide

theorem read_lenBase : ∀ c ≤ 28, read lenBase c = ok (lengthStart c) := by
  decide

theorem read_distExtra : ∀ c ≤ 29, read distExtra c = ok (distExtraBits c) := by
  decide

theorem read_distBase : ∀ c ≤ 29, read distBase c = ok (distStart c) := by
  decide

/-- The extra value as the code takes it. -/
theorem ite_extra {n v : ℕ} (h : v < 2 ^ n) : (if n ≠ 0 then v else 0) = v := by
  split
  · rfl
  · rename_i hn
    rw [not_not.mp hn] at h
    omega

/-- **A length and a distance.** -/
theorem readPair_of_toBits {lengthCode lengthExtra distCode distExtra : ℕ}
    (hr : dist.Represents D) (hk : kraft 15 D ≤ 2 ^ 15)
    (hs : (Symbol.pair lengthCode lengthExtra distCode distExtra).Encodable L D) (hw : br.Wf)
    (hbits : br.toBits = unpack 1 (lengthExtraBits lengthCode) lengthExtra ++
      (codeBits D distCode ++ (unpack 1 (distExtraBits distCode) distExtra ++ rest))) :
    ∃ br', readPair dist (257 + lengthCode) br
        = ok (lengthStart lengthCode + lengthExtra, distStart distCode + distExtra, br') ∧
      br'.toBits = rest ∧ br'.Wf := by
  obtain ⟨hlc, -, hle, hdc, hdcode, hde⟩ := hs
  obtain ⟨br1, hget1, hbits1, hw1⟩ := BitReader.get_of_toBits_unpack hw hle hbits
  obtain ⟨br2, hdecode, hbits2, hw2⟩ := Huff.decode_of_toBits hr hk hdcode hw1 hbits1
  obtain ⟨br3, hget3, hbits3, hw3⟩ := BitReader.get_of_toBits_unpack hw2 hde hbits2
  refine ⟨br3, ?_, hbits3, hw3⟩
  rw [readPair, Nat.add_sub_cancel_left]
  dsimp only
  rw [if_neg (not_lt.mpr hlc), read_lenExtra _ hlc, ok_bind, hget1, ok_bind]
  dsimp only
  rw [read_lenBase _ hlc, ok_bind, hdecode, ok_bind]
  dsimp only
  rw [if_neg (not_lt.mpr hdc), read_distExtra _ hdc, ok_bind, hget3, ok_bind]
  dsimp only
  rw [read_distBase _ hdc, ok_bind, ite_extra hle, ite_extra hde]

theorem length_codeBits (lens : List ℕ) (s : ℕ) : (codeBits lens s).length = lens.getD s 0 := by
  rw [codeBits, List.length_reverse, length_unpack]

/-- A symbol takes at least one bit. -/
theorem Deflate.Symbol.length_bits_pos {sym : Symbol} (h : sym.Encodable L D) :
    0 < (sym.bits L D).length := by
  cases sym with
  | literal b =>
    rw [Symbol.bits, length_codeBits]
    exact h
  | pair lengthCode lengthExtra distCode distExtra =>
    rw [Symbol.bits, List.length_append, List.length_append, List.length_append, length_codeBits]
    have := h.2.1
    omega

/-- One round of the loop over the symbols. -/
theorem symbolsLoop_succ_of_toBits (fuel : ℕ) {sym : Symbol} (hlit : lit.Represents L)
    (hdist : dist.Represents D) (hkL : kraft 15 L ≤ 2 ^ 15) (hkD : kraft 15 D ≤ 2 ^ 15)
    (hs : sym.Encodable L D) (hexp : sym.token.expand out = some out')
    (hcap : out'.length ≤ dstCap) (hw : br.Wf) (hbits : br.toBits = sym.bits L D ++ rest) :
    ∃ br', symbolsLoop dstCap lit dist (fuel + 1) br out
        = symbolsLoop dstCap lit dist fuel br' out' ∧ br'.toBits = rest ∧ br'.Wf := by
  cases sym with
  | literal b =>
    obtain ⟨br1, hdecode, hbits1, hw1⟩ := Huff.decode_of_toBits hlit hkL hs hw hbits
    refine ⟨br1, ?_, hbits1, hw1⟩
    cases hexp
    rw [List.length_append, List.length_singleton] at hcap
    rw [symbolsLoop, hdecode, ok_bind]
    dsimp only
    rw [if_pos b.toNat_lt, if_neg (by omega), putByte, if_pos (by omega), ok_bind, toChar_toNat]
  | pair lengthCode lengthExtra distCode distExtra =>
    rw [Symbol.bits, List.append_assoc, List.append_assoc, List.append_assoc] at hbits
    obtain ⟨br1, hdecode, hbits1, hw1⟩ := Huff.decode_of_toBits hlit hkL hs.2.1 hw hbits
    obtain ⟨br2, hpair, hbits2, hw2⟩ := readPair_of_toBits hdist hkD hs hw1 hbits1
    refine ⟨br2, ?_, hbits2, hw2⟩
    rw [Symbol.token, Token.expand, Option.ite_none_right_eq_some] at hexp
    obtain ⟨⟨hpos, hle⟩, hout⟩ := hexp
    cases hout
    rw [List.length_append, length_repeated hpos hle] at hcap
    rw [symbolsLoop, hdecode, ok_bind]
    dsimp only
    rw [if_neg (by omega), if_neg (by omega), hpair, ok_bind]
    dsimp only
    rw [if_neg (by omega), copyBack_eq hpos hle hcap, ok_bind]

/-- **The symbols of a block.** -/
theorem symbolsLoop_of_toBits (hlit : lit.Represents L) (hdist : dist.Represents D)
    (hkL : kraft 15 L ≤ 2 ^ 15) (hkD : kraft 15 D ≤ 2 ^ 15)
    (hs : Block.EncodableSymbols L D symbols)
    (hexp : SlidingWindow.expand out (symbols.map Symbol.token) = some out')
    (hcap : out'.length ≤ dstCap) (hw : br.Wf)
    (hbits : br.toBits = symbolBits L D symbols ++ rest) (hfuel : br.size < fuel) :
    ∃ br', symbolsLoop dstCap lit dist fuel br out = ok (br', out') ∧ br'.toBits = rest ∧
      br'.Wf := by
  induction symbols generalizing fuel br out with
  | nil =>
    obtain ⟨fuel, rfl⟩ : ∃ k, fuel = k + 1 := ⟨fuel - 1, by omega⟩
    obtain ⟨br1, hdecode, hrest⟩ := Huff.decode_of_toBits hlit hkL hs.2 hw hbits
    refine ⟨br1, ?_, hrest⟩
    cases hexp
    rw [symbolsLoop, hdecode, ok_bind]
    dsimp only
    rw [if_neg (by decide), if_pos rfl]
  | cons sym symbols ih =>
    obtain ⟨fuel, rfl⟩ : ∃ k, fuel = k + 1 := ⟨fuel - 1, by omega⟩
    rw [List.map_cons, expand_cons, Option.bind_eq_some_iff] at hexp
    obtain ⟨out1, hexp1, hexp⟩ := hexp
    rw [symbolBits, List.flatMap_cons, List.append_assoc, List.append_assoc] at hbits
    obtain ⟨hs1, hss⟩ := List.forall_mem_cons.mp hs.1
    obtain ⟨br1, hstep, hbits1, hw1⟩ := symbolsLoop_succ_of_toBits fuel hlit hdist hkL hkD hs1
      hexp1 ((length_expand hexp).trans hcap) hw hbits
    rw [hstep]
    refine ih ⟨hss, hs.2⟩ hexp hw1 (by rw [hbits1, symbolBits, List.append_assoc]) ?_
    have hlen := congrArg List.length hbits
    rw [BitReader.length_toBits, List.length_append, ← hbits1, BitReader.length_toBits] at hlen
    have := Deflate.Symbol.length_bits_pos hs1
    omega

/-! ### Code lengths -/

/-- A run as the code sees it. -/
def Deflate.LengthRun.op : LengthRun → LengthOp
  | value v => .value v
  | repeatLast n => .copy n
  | zeros n => .zeros n

theorem Deflate.LengthRun.count_op_pos (h : r.Valid) : 0 < r.op.count := by
  cases r with
  | value v => exact Nat.one_pos
  | repeatLast n => exact (Nat.succ_pos 2).trans_le h.1
  | zeros n => exact (Nat.succ_pos 2).trans_le h.1

theorem Deflate.LengthRun.eq_of_expand_eq_some (h : r.expand A = some B) :
    r.op.Applies A.length ∧ B = A ++ List.replicate r.op.count (r.op.filler A) := by
  cases r with
  | value v =>
    cases h
    exact ⟨trivial, rfl⟩
  | repeatLast n =>
    obtain ⟨v, hv, rfl⟩ := Option.map_eq_some_iff.mp h
    refine ⟨fun hA => ?_, ?_⟩
    · rw [List.length_eq_zero_iff.mp hA] at hv
      cases hv
    · rw [op, LengthOp.filler, List.getLastD_eq_getLast?, hv]
      rfl
  | zeros n =>
    cases h
    exact ⟨trivial, rfl⟩

theorem Deflate.length_expandRuns (h : expandRuns A runs = some B) : A.length ≤ B.length := by
  induction runs generalizing A with
  | nil =>
    cases h
    exact le_rfl
  | cons r runs ih =>
    rw [expandRuns_cons, Option.bind_eq_some_iff] at h
    obtain ⟨A1, h1, h⟩ := h
    rw [(Deflate.LengthRun.eq_of_expand_eq_some h1).2] at h
    exact (List.prefix_append A _).length_le.trans (ih h)

theorem readLengthOp_of_toBits (hr : cl.Represents clen) (hk : kraft 15 clen ≤ 2 ^ 15)
    (hv : r.Valid) (hcode : 0 < clen.getD r.symbol 0) (hw : br.Wf)
    (hbits : br.toBits = r.bits clen ++ rest) :
    ∃ br', readLengthOp cl br = ok (r.op, br') ∧ br'.toBits = rest ∧ br'.Wf := by
  rw [LengthRun.bits, List.append_assoc] at hbits
  obtain ⟨br1, hdecode, hbits1, hw1⟩ := Huff.decode_of_toBits hr hk hcode hw hbits
  rw [readLengthOp, hdecode, ok_bind]
  dsimp only
  cases r with
  | value v =>
    rw [LengthRun.symbol, if_pos (show v < 16 from Nat.lt_succ_of_le hv)]
    exact ⟨br1, rfl, hbits1, hw1⟩
  | repeatLast n =>
    obtain ⟨hge, hle⟩ := hv
    obtain ⟨br2, hget, hbits2, hw2⟩ :=
      BitReader.get_of_toBits_unpack hw1 (show n - 3 < 2 ^ 2 by omega) hbits1
    rw [LengthRun.symbol, if_neg (by decide), if_pos rfl, hget, ok_bind]
    dsimp only
    rw [Nat.sub_add_cancel hge]
    exact ⟨br2, rfl, hbits2, hw2⟩
  | zeros n =>
    obtain ⟨hge, hle⟩ := hv
    rcases Nat.lt_or_ge 10 n with h10 | h10
    · rw [LengthRun.extra, if_neg (not_le.mpr h10)] at hbits1
      obtain ⟨br2, hget, hbits2, hw2⟩ :=
        BitReader.get_of_toBits_unpack hw1 (show n - 11 < 2 ^ 7 by omega) hbits1
      rw [LengthRun.symbol, if_neg (not_le.mpr h10), if_neg (by decide), if_neg (by decide),
        if_neg (by decide), if_pos rfl, hget, ok_bind]
      dsimp only
      rw [Nat.sub_add_cancel h10]
      exact ⟨br2, rfl, hbits2, hw2⟩
    · rw [LengthRun.extra, if_pos h10] at hbits1
      obtain ⟨br2, hget, hbits2, hw2⟩ :=
        BitReader.get_of_toBits_unpack hw1 (show n - 3 < 2 ^ 3 by omega) hbits1
      rw [LengthRun.symbol, if_pos h10, if_neg (by decide), if_neg (by decide), if_pos rfl, hget,
        ok_bind]
      dsimp only
      rw [Nat.sub_add_cancel hge]
      exact ⟨br2, rfl, hbits2, hw2⟩

/-- **The code lengths**: the array is filled up to where the runs end. -/
theorem codeLengthsLoop_of_toBits (hr : cl.Represents clen) (hk : kraft 15 clen ≤ 2 ^ 15)
    (hruns : ∀ r ∈ runs, r.Valid ∧ 0 < clen.getD r.symbol 0)
    (hexp : expandRuns A runs = some B) (hfuel : B.length ≤ A.length + fuel)
    (hlen : B.length ≤ (A ++ R).length) (hw : br.Wf)
    (hbits : br.toBits = runs.flatMap (LengthRun.bits clen) ++ rest) :
    ∃ br', codeLengthsLoop cl B.length fuel (A ++ R) A.length br
        = ok (B ++ R.drop (B.length - A.length), br') ∧ br'.toBits = rest ∧ br'.Wf := by
  induction runs generalizing A R fuel br with
  | nil =>
    cases hexp
    refine ⟨br, ?_, hbits, hw⟩
    rw [codeLengthsLoop_of_le le_rfl, Nat.sub_self, List.drop_zero]
  | cons r runs ih =>
    obtain ⟨⟨hv, hcode⟩, hruns⟩ := List.forall_mem_cons.mp hruns
    rw [expandRuns_cons, Option.bind_eq_some_iff] at hexp
    obtain ⟨A1, hA1, hexp⟩ := hexp
    obtain ⟨happ, rfl⟩ := Deflate.LengthRun.eq_of_expand_eq_some hA1
    have hpos := Deflate.LengthRun.count_op_pos hv
    have hgrow := Deflate.length_expandRuns hexp
    rw [List.flatMap_cons, List.append_assoc] at hbits
    obtain ⟨br1, hop, hbits1, hw1⟩ := readLengthOp_of_toBits hr hk hv hcode hw hbits
    have hlenA1 : (A ++ List.replicate r.op.count (r.op.filler A)).length
        = A.length + r.op.count := by
      rw [List.length_append, List.length_replicate]
    rw [List.length_append] at hlen
    obtain ⟨fuel, rfl⟩ : ∃ k, fuel = k + 1 := ⟨fuel - 1, by omega⟩
    rw [codeLengthsLoop_succ (by omega), hop, ok_bind]
    dsimp only
    rw [applyLengthOp_eq happ (by omega), ok_bind]
    dsimp only
    obtain ⟨br2, hloop, hrest⟩ := @ih br1 _ (R.drop r.op.count) fuel hruns hexp (by omega)
      (by rw [List.length_append, List.length_drop]; omega) hw1 hbits1
    refine ⟨br2, ?_, hrest⟩
    rw [← hlenA1, hloop, List.drop_drop, hlenA1]
    congr 4
    omega

/-! ### Dynamic blocks -/

/-- The lengths of the code for the code lengths, as far as they are read. -/
def clenUpTo (clen : List ℕ) (k : ℕ) : List ℕ :=
  (List.range 19).map fun s => if s ∈ lengthOrder.take k then clen.getD s 0 else 0

theorem mem_lengthOrder : ∀ s < 19, s ∈ lengthOrder := by
  decide

theorem lengthOrder_lt : ∀ s ∈ lengthOrder, s < 19 := by
  decide

theorem clenUpTo_sent (c : DynamicCodes) : clenUpTo c.clen c.sent = c.clen := by
  apply List.ext_getElem (by rw [clenUpTo, List.length_map, List.length_range, c.length_clen])
  intro s hs hs'
  rw [← List.getD_eq_getElem _ 0 hs']
  simp only [clenUpTo, List.getElem_map, List.getElem_range]
  split
  · rfl
  · rename_i hnot
    have hmem := mem_lengthOrder s (c.length_clen ▸ hs')
    rw [← List.take_append_drop c.sent lengthOrder, List.mem_append] at hmem
    exact (c.clen_eq_zero s (hmem.resolve_left hnot)).symm

/-- One length is read. -/
theorem clenStep_of_toBits {k : ℕ} (hk : k < lengthOrder.length) (hle : ∀ x ∈ clen, x ≤ 7)
    (hw : br.Wf) (hbits : br.toBits = unpack 1 3 (clen.getD lengthOrder[k] 0) ++ rest) :
    ∃ br', clenStep (clenUpTo clen k, br) k = ok (clenUpTo clen (k + 1), br') ∧
      br'.toBits = rest ∧ br'.Wf := by
  have hlt : clen.getD lengthOrder[k] 0 < 2 ^ 3 := by
    rw [List.getD_eq_getElem?_getD]
    rcases hx : clen[lengthOrder[k]]? with - | x
    · exact Nat.two_pow_pos 3
    · exact Nat.lt_succ_of_le (hle x (List.mem_of_getElem? hx))
  obtain ⟨br1, hget, hbits1, hw1⟩ := BitReader.get_of_toBits_unpack hw hlt hbits
  refine ⟨br1, ?_, hbits1, hw1⟩
  have hmem : lengthOrder[k] < (clenUpTo clen k).length := by
    rw [clenUpTo, List.length_map, List.length_range]
    exact lengthOrder_lt _ (List.getElem_mem hk)
  have hread : read codeLengthOrder k = ok lengthOrder[k] := read_of_lt hk
  rw [clenStep, hget, ok_bind]
  dsimp only
  rw [hread, ok_bind, write_of_lt hmem, ok_bind, clenUpTo, Buffer.set_map_range, clenUpTo]
  refine congrArg (fun l => ok (l, br1)) (List.map_congr_left fun s _ => ?_)
  rw [Function.update_apply, List.take_succ_eq_append_getElem hk]
  by_cases hs : s = lengthOrder[k]
  · rw [if_pos hs, if_pos (List.mem_append_right _ (List.mem_singleton.mpr hs)), hs]
  · rw [if_neg hs]
    refine if_congr ?_ rfl rfl
    rw [List.mem_append, List.mem_singleton, or_iff_left hs]

/-- **The header of a dynamic block.** -/
theorem readDynamicHeader_of_toBits (c : DynamicCodes) (hw : br.Wf)
    (hbits : br.toBits = c.bits ++ rest) :
    ∃ h, readDynamicHeader br = ok h ∧ h.hlit = c.litLens.length ∧ h.hdist = c.distLens.length ∧
      h.cl.Represents c.clen ∧ h.br.toBits = c.runs.flatMap (LengthRun.bits c.clen) ++ rest ∧
      h.br.Wf := by
  obtain ⟨hlit1, hlit2⟩ := c.length_litLens
  obtain ⟨hdist1, hdist2⟩ := c.length_distLens
  have hsent1 := c.sent_ge
  have hsent2 := c.sent_le
  rw [DynamicCodes.bits, List.append_assoc, List.append_assoc, List.append_assoc,
    List.append_assoc] at hbits
  obtain ⟨br1, hget1, hbits1, hw1⟩ := BitReader.get_of_toBits_unpack hw
    (show c.litLens.length - 257 < 2 ^ 5 by omega) hbits
  obtain ⟨br2, hget2, hbits2, hw2⟩ := BitReader.get_of_toBits_unpack hw1
    (show c.distLens.length - 1 < 2 ^ 5 by omega) hbits1
  obtain ⟨br3, hget3, hbits3, hw3⟩ := BitReader.get_of_toBits_unpack hw2
    (show c.sent - 4 < 2 ^ 4 by omega) hbits2
  have htake : (lengthOrder.take c.sent).length = c.sent := List.length_take_of_le hsent2
  obtain ⟨⟨clen, br4⟩, hloop, rfl, hbits4, hw4⟩ := foldlM_range_of_invariant (f := clenStep)
    (s := (clenUpTo c.clen 0, br3)) (n := c.sent)
    (fun k st => st.1 = clenUpTo c.clen k ∧
      st.2.toBits = ((lengthOrder.take c.sent).drop k).flatMap
          (fun s => unpack 1 3 (c.clen.getD s 0))
        ++ (c.runs.flatMap (LengthRun.bits c.clen) ++ rest) ∧
      st.2.Wf) ⟨rfl, hbits3, hw3⟩ (by
        rintro k ⟨-, br'⟩ hk ⟨rfl, hbits', hw'⟩
        have hk' : k < lengthOrder.length := hk.trans_le hsent2
        rw [List.drop_eq_getElem_cons (htake.symm ▸ hk), List.getElem_take, List.flatMap_cons,
          List.append_assoc] at hbits'
        obtain ⟨br'', hstep, hrest⟩ := clenStep_of_toBits hk' c.clen_le hw' hbits'
        exact ⟨_, hstep, rfl, hrest⟩)
  dsimp only at hbits4 hw4
  rw [List.drop_of_length_le htake.le, List.flatMap_nil, List.nil_append] at hbits4
  rw [clenUpTo_sent] at hloop
  obtain ⟨cl, hbuild, hcl⟩ := Huff.build_eq c.length_clen.ge (by decide) fun x hx =>
    (c.clen_le x (List.mem_of_mem_take hx)).trans (by decide)
  rw [← c.length_clen, List.take_length] at hcl
  refine ⟨⟨c.litLens.length, c.distLens.length, cl, br4⟩, ?_, rfl, rfl, hcl, hbits4, hw4⟩
  have hzero : List.replicate 19 0 = clenUpTo c.clen 0 := rfl
  rw [readDynamicHeader, hget1, ok_bind]
  dsimp only
  rw [hget2, ok_bind]
  dsimp only
  rw [hget3, ok_bind]
  dsimp only
  rw [Nat.sub_add_cancel hsent1, hzero, hloop, ok_bind]
  dsimp only
  rw [hbuild, ok_bind, Nat.sub_add_cancel hlit1, Nat.sub_add_cancel hdist1]

theorem readDynamicCodes_of_toBits (c : DynamicCodes) (hw : br.Wf)
    (hbits : br.toBits = c.bits ++ rest) :
    ∃ lit dist br', readDynamicCodes br = ok (lit, dist, br') ∧ lit.Represents c.litLens ∧
      dist.Represents c.distLens ∧ br'.toBits = rest ∧ br'.Wf := by
  have hlit := c.length_litLens.2
  have hdist := c.length_distLens.2
  obtain ⟨h, hheader, hhlit, hhdist, hcl, hbits1, hw1⟩ := readDynamicHeader_of_toBits c hw hbits
  obtain ⟨br2, hloop, hrest⟩ := codeLengthsLoop_of_toBits (A := [])
    (R := List.replicate (288 + 32) 0) hcl c.kraft_clen c.runs_valid c.expandRuns_runs
    (Nat.le_add_left _ _) (by
      rw [List.nil_append, List.length_append, List.length_replicate]
      omega) hw1 hbits1
  rw [List.nil_append, List.append_assoc, List.length_append, List.length_nil, ← hhlit, ← hhdist]
    at hloop
  generalize List.drop _ _ = tail at hloop
  have htakeLit : (c.litLens ++ (c.distLens ++ tail)).take h.hlit = c.litLens := by
    rw [hhlit, List.take_left]
  have htakeDist : (c.distLens ++ tail).take h.hdist = c.distLens := by
    rw [hhdist, List.take_left]
  obtain ⟨lit, hbuild, hlitr⟩ := @Huff.build_eq (c.litLens ++ (c.distLens ++ tail)) h.hlit
    (by rw [hhlit, List.length_append]; omega) (by omega)
    (htakeLit.symm ▸ fun x hx => c.lens_le x (List.mem_append_left _ hx))
  obtain ⟨dist, hbuild', hdistr⟩ := @Huff.build_eq (c.distLens ++ tail) h.hdist
    (by rw [hhdist, List.length_append]; omega) (by omega)
    (htakeDist.symm ▸ fun x hx => c.lens_le x (List.mem_append_right _ hx))
  rw [htakeLit] at hlitr
  rw [htakeDist] at hdistr
  refine ⟨lit, dist, br2, ?_, hlitr, hdistr, hrest⟩
  have hdrop : (c.litLens ++ (c.distLens ++ tail)).drop h.hlit = c.distLens ++ tail := by
    rw [hhlit, List.drop_left]
  rw [readDynamicCodes, hheader, ok_bind]
  dsimp only
  rw [hloop, ok_bind]
  dsimp only
  rw [hbuild, ok_bind, hdrop, hbuild', ok_bind]

/-! ### Blocks -/

theorem fixedLitLens_eq : fixedLitLens = fixedLitLenLengths := by
  decide +kernel

theorem kraft_fixedLitLens : kraft 15 fixedLitLens ≤ 2 ^ 15 := by
  decide +kernel

theorem kraft_fixedDistLens : kraft 15 fixedDistLens ≤ 2 ^ 15 := by
  decide +kernel

/-- **What stands behind the header of a block.** -/
theorem inflateBody_of_toBits (hb : b.ValidAt pos) (hpos : (pos + 3 + br.toBits.length) % 8 = 0)
    (hexp : b.expand out = some out') (hcap : out'.length ≤ dstCap) (hw : br.Wf)
    (hbits : br.toBits = b.body ++ rest) :
    ∃ br', inflateBody dstCap b.btype br out = ok (br', out') ∧ br'.toBits = rest ∧ br'.Wf := by
  cases b with
  | stored pad data =>
    obtain ⟨hpad, hpad8, hdata⟩ := hb
    cases hexp
    rw [Block.btype, inflateBody, if_pos rfl]
    exact inflateStored_of_toBits hw hpad (by omega) hdata hcap hbits
  | fixed symbols =>
    obtain ⟨lit, hbuild, hlit⟩ := Huff.build_eq length_fixedLitLenLengths.ge le_rfl
      fun x hx => le_of_mem_fixedLitLenLengths x (List.mem_of_mem_take hx)
    obtain ⟨dist, hbuild', hdist⟩ := @Huff.build_eq fixedDistLengths 32 (by decide) (by decide)
      (by decide)
    rw [← length_fixedLitLenLengths, List.take_length, ← fixedLitLens_eq] at hlit
    rw [show fixedDistLengths.take 32 = fixedDistLens by decide] at hdist
    obtain ⟨br', hloop, hrest⟩ := symbolsLoop_of_toBits hlit hdist kraft_fixedLitLens
      kraft_fixedDistLens hb hexp hcap hw hbits (Nat.lt_succ_self _)
    refine ⟨br', ?_, hrest⟩
    rw [Block.btype, inflateBody, if_neg (by decide), if_pos (by decide), inflateCompressed,
      readCodes, if_pos rfl, hbuild, ok_bind, hbuild', ok_bind, ok_bind]
    exact hloop
  | dynamic codes symbols =>
    rw [Block.body, List.append_assoc] at hbits
    obtain ⟨lit, dist, br1, hcodes, hlit, hdist, hbits1, hw1⟩ :=
      readDynamicCodes_of_toBits codes hw hbits
    obtain ⟨br', hloop, hrest⟩ := symbolsLoop_of_toBits hlit hdist codes.kraft_litLens
      codes.kraft_distLens hb hexp hcap hw1 hbits1 (Nat.lt_succ_self _)
    refine ⟨br', ?_, hrest⟩
    rw [Block.btype, inflateBody, if_neg (by decide), if_pos (by decide), inflateCompressed,
      readCodes, if_neg (by decide), hcodes, ok_bind]
    exact hloop

/-- **A block.** -/
theorem inflateBlock_of_toBits {bfinal : ℕ} (hbfinal : bfinal < 2) (hb : b.ValidAt pos)
    (hpos : (pos + br.toBits.length) % 8 = 0) (hexp : b.expand out = some out')
    (hcap : out'.length ≤ dstCap) (hw : br.Wf) (hbits : br.toBits = b.bits bfinal ++ rest) :
    ∃ br', inflateBlock dstCap br out = ok (bfinal != 0, br', out') ∧ br'.toBits = rest ∧
      br'.Wf := by
  have hlen := congrArg List.length hbits
  rw [Block.bits, List.append_assoc, List.append_assoc] at hbits
  obtain ⟨br1, hget1, hbits1, hw1⟩ := BitReader.get_of_toBits_unpack hw hbfinal hbits
  have hbtype : b.btype < 2 ^ 2 := by
    cases b with
    | stored _ _ => exact Nat.two_pow_pos 2
    | fixed _ => exact (by decide : 1 < 2 ^ 2)
    | dynamic _ _ => exact (by decide : 2 < 2 ^ 2)
  obtain ⟨br2, hget2, hbits2, hw2⟩ := BitReader.get_of_toBits_unpack hw1 hbtype hbits1
  have hpos2 : (pos + 3 + br2.toBits.length) % 8 = 0 := by
    rw [Block.bits, List.append_assoc, List.append_assoc, List.length_append, List.length_append,
      length_unpack, length_unpack, ← hbits2] at hlen
    omega
  obtain ⟨br3, hbody, hrest⟩ := inflateBody_of_toBits hb hpos2 hexp hcap hw2 hbits2
  refine ⟨br3, ?_, hrest⟩
  rw [inflateBlock, readBlockHeader, hget1, ok_bind]
  dsimp only
  rw [hget2, ok_bind, ok_bind]
  dsimp only
  rw [hbody, ok_bind]

/-! ### The whole stream -/

/-- **The blocks of a stream**, from any of them on. -/
theorem inflateLoop_of_encodes (h : Encodes pos blocks u)
    (hpos : (pos + br.toBits.length) % 8 = 0) (hexp : expandBlocks out blocks = some out')
    (hcap : out'.length ≤ dstCap) (hw : br.Wf) (hbits : br.toBits = u ++ rest)
    (hfuel : br.size < fuel) : inflateLoop dstCap fuel br out = ok out' := by
  induction h generalizing br out fuel with
  | last hb =>
    obtain ⟨fuel, rfl⟩ : ∃ k, fuel = k + 1 := ⟨fuel - 1, by omega⟩
    rw [expandBlocks_cons, Option.bind_eq_some_iff] at hexp
    obtain ⟨out1, hexp1, hexp⟩ := hexp
    cases hexp
    obtain ⟨br1, hblock, -⟩ :=
      inflateBlock_of_toBits (by decide) hb hpos hexp1 hcap hw hbits
    rw [inflateLoop, hblock, ok_bind]
    rfl
  | @cons pos b blocks u hb hblocks ih =>
    obtain ⟨fuel, rfl⟩ : ∃ k, fuel = k + 1 := ⟨fuel - 1, by omega⟩
    rw [expandBlocks_cons, Option.bind_eq_some_iff] at hexp
    obtain ⟨out1, hexp1, hexp⟩ := hexp
    rw [List.append_assoc] at hbits
    obtain ⟨br1, hblock, hbits1, hw1⟩ := inflateBlock_of_toBits (by decide) hb hpos hexp1
      ((length_expandBlocks hexp).trans hcap) hw hbits
    have hlen := congrArg List.length hbits
    rw [List.length_append, ← hbits1] at hlen
    have hthree : 3 ≤ (b.bits 0).length := by
      rw [Block.bits, List.append_assoc, List.length_append, List.length_append, length_unpack,
        length_unpack]
      omega
    rw [inflateLoop, hblock, ok_bind]
    apply ih (by omega) hexp hw1 hbits1
    rw [BitReader.length_toBits, BitReader.length_toBits] at hlen
    omega

/-- **`inflate_raw` decodes DEFLATE**: of any stream of blocks, whatever stands
behind it, exactly the text is written if there is room for it. -/
theorem inflateRaw_of_encodes (h : Encodes 0 blocks u) (hsrc : bytesToBits src = u ++ rest)
    (hexp : expandBlocks [] blocks = some out) (hcap : out.length ≤ dstCap) :
    inflateRaw src dstCap = ok out := by
  refine inflateLoop_of_encodes h ?_ hexp hcap (BitReader.wf_start src) hsrc (Nat.lt_succ_self _)
  rw [BitReader.toBits_start, length_bytesToBits, Nat.zero_add, Nat.mul_mod_right]

/-- Four symbols of two bits each and two distances of one: the last run begins
in the literal and length code and ends in the distance code. -/
def crossingCodes : DynamicCodes where
  litLens := List.replicate 97 0 ++ 2 :: List.replicate 158 0 ++ [2, 2, 2]
  distLens := [2, 2]
  clen := [0, 0, 2, 0, 0, 0, 0, 0, 0, 0, 0, 0, 0, 0, 0, 0, 2, 0, 1]
  sent := 16
  runs := [.zeros 97, .value 2, .zeros 138, .zeros 20, .value 2, .repeatLast 4]
  length_litLens := by decide +kernel
  length_distLens := by decide
  lens_le := by decide +kernel
  kraft_litLens := by decide +kernel
  kraft_distLens := by decide
  length_clen := by decide
  clen_le := by decide
  kraft_clen := by decide +kernel
  sent_ge := by decide
  sent_le := by decide
  clen_eq_zero := by decide
  runs_valid := by decide +kernel
  expandRuns_runs := by decide +kernel

/-- A block of each kind, each but the first with copies that reach back into the
block before, and a byte behind them. -/
theorem inflateRaw_of_encodes_three_blocks :
    inflateRaw [0, 2, 0, 253, 255, 97, 98, 20, 129, 133, 0, 0, 0, 0, 128, 88, 243, 151, 232, 22, 7,
      130, 0, 255] 11 = ok [97, 98, 97, 98, 97, 98, 97, 98, 97, 98, 97] := by
  have hstored : (Block.stored [0, 0, 0, 0, 0] [97, 98]).ValidAt 0 :=
    ⟨by decide, by decide, by decide⟩
  have hdynamic (pos : ℕ) :
      (Block.dynamic crossingCodes [.pair 1 0 1 0, .literal 97]).ValidAt pos := by
    show Block.EncodableSymbols _ _ _
    decide +kernel
  have hfixed (pos : ℕ) : (Block.fixed [.pair 1 0 1 0]).ValidAt pos := by
    show Block.EncodableSymbols _ _ _
    decide +kernel
  have hsrc : bytesToBits [0, 2, 0, 253, 255, 97, 98, 20, 129, 133, 0, 0, 0, 0, 128, 88, 243, 151,
      232, 22, 7, 130, 0, 255]
      = Block.bits 0 (.stored [0, 0, 0, 0, 0] [97, 98]) ++
        (Block.bits 0 (.dynamic crossingCodes [.pair 1 0 1 0, .literal 97]) ++
          Block.bits 1 (.fixed [.pair 1 0 1 0])) ++
        [0, 1, 1, 1, 1, 1, 1, 1, 1] := by
    decide +kernel
  exact inflateRaw_of_encodes (.cons hstored (.cons (hdynamic _) (.last (hfixed _)))) hsrc
    (by decide +kernel) (by decide)

end AdaIdna
