/-
AdaIdna/InflateSafety.lean

The array accesses of `inflate_raw`, and that it ends.

Every loop consumes bits or counts up to a bound, and every access is in range
but for one kind: a repeat code among the code lengths of a dynamic block is
carried out in full, whatever is left of `lens`.  `RunsFit` says that no such
run reaches past the array in any block that decoding gets to.  Exactly then
the call is safe (`safe_inflateRaw_iff`).
-/
import AdaIdna.HuffCode
import AdaIdna.Lib.SlidingWindow

namespace AdaIdna

open Checked CanonicalCode SlidingWindow

variable {br br' : BitReader} {h : DynamicHeader} {cl lit dist : Huff} {src out : Bytes}
  {lens litLens distLens A R : List ℕ} {dstCap i n v rep fuel sym length distance : ℕ}
  {op : LengthOp}

/-! ### Runs of code lengths -/

/-- A repeat of the previous length needs one. -/
def LengthOp.Applies : LengthOp → ℕ → Prop
  | copy _, i => i ≠ 0
  | _, _ => True

/-- The indices and readers that the loop over the code lengths gets to. -/
inductive AtLength (h : DynamicHeader) : ℕ → BitReader → Prop
  | first : AtLength h 0 h.br
  | next {i : ℕ} {br br' : BitReader} {op : LengthOp} (hat : AtLength h i br)
      (hi : i < h.hlit + h.hdist) (hop : readLengthOp h.cl br = ok (op, br'))
      (happ : op.Applies i) : AtLength h (i + op.count) br'

/-- No run of code lengths ends behind the 320 entries of `lens`. -/
def LengthsFit (h : DynamicHeader) : Prop :=
  ∀ i br op br', AtLength h i br → i < h.hlit + h.hdist → readLengthOp h.cl br = ok (op, br') →
    op.Applies i → i + op.count ≤ 320

/-- The same, if a dynamic block begins here. -/
def BlockFits (br : BitReader) : Prop :=
  ∀ bfinal br' h, readBlockHeader br = ok (bfinal, 2, br') → readDynamicHeader br' = ok h →
    LengthsFit h

/-- The readers and outputs with which the outer loop begins a round. -/
inductive AtBlock (src : Bytes) (dstCap : ℕ) : BitReader → Bytes → Prop
  | first : AtBlock src dstCap ⟨src, 0, 0⟩ []
  | next {br br' : BitReader} {out out' : Bytes} (hat : AtBlock src dstCap br out)
      (hblock : inflateBlock dstCap br out = ok (false, br', out')) : AtBlock src dstCap br' out'

/-- In no block that decoding gets to a run of code lengths ends behind `lens`. -/
def RunsFit (src : Bytes) (dstCap : ℕ) : Prop :=
  ∀ br out, AtBlock src dstCap br out → BlockFits br

/-! ### Writing code lengths -/

/-- A run that fits. -/
theorem fillLens_eq (v : ℕ) (hrep : rep ≤ R.length) :
    fillLens v rep (A ++ R) A.length
      = ok (A ++ List.replicate rep v ++ R.drop rep, A.length + rep) := by
  induction rep generalizing A R with
  | zero => simp [fillLens]
  | succ rep ih =>
    cases R with
    | nil => cases hrep
    | cons x R =>
      have hlen : (A ++ [v]).length = A.length + 1 := by simp
      rw [fillLens, write_of_lt (by simp), ok_bind, Buffer.set_append rfl, List.append_cons,
        ← hlen, ih (Nat.le_of_succ_le_succ hrep), hlen]
      simp [List.replicate_succ, Nat.add_assoc, Nat.add_comm 1]

/-- A run that does not fit. -/
theorem fillLens_fault (hi : i ≤ lens.length) (hrep : lens.length < i + rep) :
    fillLens v rep lens i = fault := by
  induction rep generalizing lens i with
  | zero => exact absurd hrep (not_lt.mpr hi)
  | succ rep ih =>
    rw [fillLens, write]
    split
    · rename_i hlt
      rw [ok_bind]
      exact ih (by rwa [List.length_set]) (by rw [List.length_set]; omega)
    · rfl

/-- The value that a run repeats. -/
def LengthOp.filler (A : List ℕ) : LengthOp → ℕ
  | value v => v
  | copy _ => A.getLastD 0
  | zeros _ => 0

theorem applyLengthOp_eq (happ : op.Applies A.length) (hle : op.count ≤ R.length) :
    applyLengthOp (A ++ R) A.length op
      = ok (A ++ List.replicate op.count (op.filler A) ++ R.drop op.count,
        A.length + op.count) := by
  cases op with
  | value v => exact @fillLens_eq A R 1 v hle
  | copy rep =>
    rw [applyLengthOp, if_neg happ]
    have hne : A ≠ [] := fun h => happ (by rw [h]; rfl)
    have hpos := List.length_pos_of_ne_nil hne
    have hread : read (A ++ R) (A.length - 1) = ok (A.getLastD 0) := by
      rw [read_eq_ok, List.getElem?_append_left (by omega), ← List.getLast?_eq_getElem?,
        List.getLast?_eq_getLast_of_ne_nil hne, List.getLastD_eq_getLast?,
        List.getLast?_eq_getLast_of_ne_nil hne]
      rfl
    rw [hread, ok_bind]
    exact fillLens_eq _ hle
  | zeros rep => exact fillLens_eq 0 hle

theorem applyLengthOp_reject (happ : ¬ op.Applies i) : applyLengthOp lens i op = reject := by
  cases op with
  | copy rep =>
    rw [applyLengthOp, if_pos (not_not.mp happ)]
  | _ => exact absurd trivial happ

theorem applyLengthOp_fault (happ : op.Applies i) (hi : i ≤ lens.length)
    (hlt : lens.length < i + op.count) : applyLengthOp lens i op = fault := by
  cases op with
  | value v => exact @fillLens_fault lens i v 1 hi hlt
  | copy rep =>
    have hi' : i - 1 < lens.length := by
      have : i ≠ 0 := happ
      omega
    rw [applyLengthOp, if_neg happ, read_of_lt hi', ok_bind]
    exact fillLens_fault hi hlt
  | zeros rep => exact fillLens_fault hi hlt

/-! ### The header of a dynamic block -/

theorem Huff.meets_build (hn : n ≤ lens.length) (hn' : n ≤ 288) (hle : ∀ x ∈ lens, x ≤ 15) :
    Meets (Huff.build lens n) fun h => h.Represents (lens.take n) := by
  obtain ⟨h, hbuild, hr⟩ := Huff.build_eq hn hn' fun x hx => hle x (List.mem_of_mem_take hx)
  exact meets_of_eq hbuild hr

/-- What is known of a header that was read from `br`. -/
structure DynamicHeader.Good (h : DynamicHeader) (br : BitReader) : Prop where
  hlit_le : h.hlit ≤ 288
  hdist_le : h.hdist ≤ 32
  represents : ∃ clen, clen.length = 19 ∧ h.cl.Represents clen
  size_le : h.br.size ≤ br.size

theorem getElem_codeLengthOrder_lt :
    ∀ i, (hi : i < codeLengthOrder.length) → codeLengthOrder[i] < 19 := by
  decide

theorem meets_clenStep {st : List ℕ × BitReader} (hi : i < codeLengthOrder.length)
    (hlen : st.1.length = 19) (hle : ∀ x ∈ st.1, x ≤ 15) :
    Meets (clenStep st i) fun r =>
      r.1.length = 19 ∧ (∀ x ∈ r.1, x ≤ 15) ∧ r.2.size ≤ st.2.size := by
  refine (BitReader.meets_get st.2 3).bind fun ⟨v, br'⟩ ⟨hv, hsize⟩ => ?_
  dsimp only at hv hsize ⊢
  rw [read_of_lt hi, ok_bind, write_of_lt (hlen ▸ getElem_codeLengthOrder_lt i hi), ok_bind]
  refine meets_ok.mpr ⟨by rw [List.length_set, hlen], fun x hx => ?_, by dsimp only; omega⟩
  rcases List.mem_or_eq_of_mem_set hx with hx | rfl
  · exact hle x hx
  · omega

/-- **The header is read safely**, and its numbers are in their ranges. -/
theorem meets_readDynamicHeader (br : BitReader) :
    Meets (readDynamicHeader br) fun h => h.Good br := by
  refine (BitReader.meets_get br 5).bind fun ⟨hlit, br1⟩ ⟨hhlit, hsize1⟩ => ?_
  refine (BitReader.meets_get br1 5).bind fun ⟨hdist, br2⟩ ⟨hhdist, hsize2⟩ => ?_
  refine (BitReader.meets_get br2 4).bind fun ⟨hclen, br3⟩ ⟨hhclen, hsize3⟩ => ?_
  dsimp only at hhlit hsize1 hhdist hsize2 hhclen hsize3 ⊢
  have hclens := Meets.foldlM_range (f := clenStep) (s := (List.replicate 19 0, br3))
    (n := hclen + 4) (fun _ r => r.1.length = 19 ∧ (∀ x ∈ r.1, x ≤ 15) ∧ r.2.size ≤ br3.size)
    ⟨rfl, fun x hx => (List.eq_of_mem_replicate hx).trans_le (Nat.zero_le _), le_rfl⟩
    fun i st hi ⟨hlen, hle, hsize⟩ =>
      (meets_clenStep (show i < 19 by omega) hlen hle).mono fun r hr =>
        ⟨hr.1, hr.2.1, hr.2.2.trans hsize⟩
  refine hclens.bind fun ⟨clen, br4⟩ ⟨hlen, hle, hsize4⟩ => ?_
  dsimp only at hlen hle hsize4 ⊢
  refine (Huff.meets_build hlen.ge (by decide) hle).bind fun cl hcl => meets_ok.mpr ?_
  rw [← hlen, List.take_length] at hcl
  exact ⟨by dsimp only; omega, by dsimp only; omega, ⟨clen, hlen, hcl⟩, by dsimp only; omega⟩

/-! ### Reading code lengths -/

/-- **A symbol of the code lengths is read safely.**  It stands for at least
one length, and brings no length above 15. -/
theorem meets_readLengthOp {clen : List ℕ} (hr : cl.Represents clen) (br : BitReader) :
    Meets (readLengthOp cl br) fun r =>
      0 < r.1.count ∧ (∀ A : List ℕ, (∀ x ∈ A, x ≤ 15) → r.1.filler A ≤ 15) ∧
        r.2.size < br.size := by
  refine (Huff.meets_decode hr br).bind fun ⟨sym, br1⟩ ⟨_, hsize⟩ => ?_
  dsimp only at hsize ⊢
  split_ifs with hvalue h16 h17 h18
  · exact meets_ok.mpr ⟨Nat.one_pos, fun _ _ => Nat.le_of_lt_succ hvalue, hsize⟩
  · refine (BitReader.meets_get br1 2).bind fun ⟨rep, br2⟩ ⟨_, hsize2⟩ => meets_ok.mpr ?_
    dsimp only at hsize2 ⊢
    refine ⟨Nat.succ_pos _, fun A hA => ?_, by omega⟩
    rw [LengthOp.filler, List.getLastD_eq_getLast?]
    rcases hlast : A.getLast? with - | x
    · exact Nat.zero_le _
    · exact hA x (List.mem_of_getLast? hlast)
  · refine (BitReader.meets_get br1 3).bind fun ⟨rep, br2⟩ ⟨_, hsize2⟩ => meets_ok.mpr ?_
    dsimp only at hsize2 ⊢
    exact ⟨Nat.succ_pos _, fun _ _ => Nat.zero_le _, by omega⟩
  · refine (BitReader.meets_get br1 7).bind fun ⟨rep, br2⟩ ⟨_, hsize2⟩ => meets_ok.mpr ?_
    dsimp only at hsize2 ⊢
    exact ⟨Nat.succ_pos _, fun _ _ => Nat.zero_le _, by omega⟩
  · exact meets_reject

/-- The state of the loop over the code lengths: `i` of the 320 entries are
written, and the rounds suffice for the others. -/
structure LengthState (h : DynamicHeader) (fuel i : ℕ) (lens : List ℕ) : Prop where
  length : lens.length = 320
  le : i ≤ 320
  small : ∀ x ∈ lens, x ≤ 15
  rounds : h.hlit + h.hdist ≤ i + fuel

/-- A round with a run that fits. -/
theorem LengthState.applyLengthOp (hs : LengthState h (fuel + 1) i lens) (happ : op.Applies i)
    (hpos : 0 < op.count) (hfill : ∀ A : List ℕ, (∀ x ∈ A, x ≤ 15) → op.filler A ≤ 15)
    (hfit : i + op.count ≤ 320) :
    ∃ lens', applyLengthOp lens i op = ok (lens', i + op.count) ∧
      LengthState h fuel (i + op.count) lens' := by
  have hlen : (lens.take i).length = i := List.length_take_of_le (hs.length ▸ hs.le)
  have hdrop : (lens.drop i).length = 320 - i := by rw [List.length_drop, hs.length]
  have happ' : op.Applies (lens.take i).length := by rwa [hlen]
  have heq := applyLengthOp_eq happ' (show op.count ≤ (lens.drop i).length by omega)
  rw [List.take_append_drop, hlen] at heq
  refine ⟨_, heq, ?_, hfit, fun x hx => ?_, ?_⟩
  · rw [List.length_append, List.length_append, List.length_replicate, List.length_drop, hlen,
      hdrop]
    omega
  · rw [List.mem_append, List.mem_append] at hx
    rcases hx with (hx | hx) | hx
    · exact hs.small x (List.mem_of_mem_take hx)
    · rw [List.eq_of_mem_replicate hx]
      exact hfill _ fun y hy => hs.small y (List.mem_of_mem_take hy)
    · exact hs.small x (List.mem_of_mem_drop (List.mem_of_mem_drop hx))
  · have := hs.rounds
    omega

/-- A round of the loop. -/
theorem codeLengthsLoop_succ (hi : i < n) :
    codeLengthsLoop cl n (fuel + 1) lens i br = (do
      let (op, br) ← readLengthOp cl br
      let (lens, i) ← applyLengthOp lens i op
      codeLengthsLoop cl n fuel lens i br) := by
  rw [codeLengthsLoop, if_pos hi]

/-- Behind the last round. -/
theorem codeLengthsLoop_of_le (hi : n ≤ i) :
    codeLengthsLoop cl n fuel lens i br = ok (lens, br) := by
  cases fuel with
  | zero => rw [codeLengthsLoop, if_neg (not_lt.mpr hi)]
  | succ fuel => rw [codeLengthsLoop, if_neg (not_lt.mpr hi)]

/-- **Code lengths whose runs all fit are read safely.** -/
theorem meets_codeLengthsLoop {clen : List ℕ} (hr : h.cl.Represents clen) (hfit : LengthsFit h)
    (hat : AtLength h i br) (hs : LengthState h fuel i lens) :
    Meets (codeLengthsLoop h.cl (h.hlit + h.hdist) fuel lens i br) fun r =>
      r.1.length = 320 ∧ (∀ x ∈ r.1, x ≤ 15) ∧ r.2.size ≤ br.size := by
  induction fuel generalizing lens i br with
  | zero =>
    rw [codeLengthsLoop_of_le (show h.hlit + h.hdist ≤ i from hs.rounds)]
    exact meets_ok.mpr ⟨hs.length, hs.small, le_rfl⟩
  | succ fuel ih =>
    by_cases hi : i < h.hlit + h.hdist
    · rw [codeLengthsLoop_succ hi]
      refine (meets_readLengthOp hr br).and_eq.bind fun ⟨op, br'⟩ ⟨hop, hpos, hfill, hsize⟩ => ?_
      dsimp only at hpos hfill hsize ⊢
      by_cases happ : op.Applies i
      · obtain ⟨lens', heq, hs'⟩ :=
          hs.applyLengthOp happ hpos hfill (hfit i br op br' hat hi hop happ)
        rw [heq, ok_bind]
        exact (ih (hat.next hi hop happ) hs').mono fun r hr =>
          ⟨hr.1, hr.2.1, hr.2.2.trans hsize.le⟩
      · rw [applyLengthOp_reject happ]
        exact meets_reject
    · rw [codeLengthsLoop_of_le (not_lt.mp hi)]
      exact meets_ok.mpr ⟨hs.length, hs.small, le_rfl⟩

/-- The loop gets to every place it can be at, unless a run does not fit before. -/
theorem codeLengthsLoop_of_atLength {clen : List ℕ} (hr : h.cl.Represents clen)
    (hs : LengthState h fuel 0 lens) (hat : AtLength h i br) :
    codeLengthsLoop h.cl (h.hlit + h.hdist) fuel lens 0 h.br = fault ∨
      ∃ fuel' lens', LengthState h fuel' i lens' ∧
        codeLengthsLoop h.cl (h.hlit + h.hdist) fuel lens 0 h.br
          = codeLengthsLoop h.cl (h.hlit + h.hdist) fuel' lens' i br := by
  induction hat with
  | first => exact .inr ⟨fuel, lens, hs, rfl⟩
  | next hat hi hop happ ih =>
    rename_i i br br' op
    rcases ih with hfault | ⟨fuel', lens', hs', heq⟩
    · exact .inl hfault
    · have hrounds := hs'.rounds
      obtain ⟨fuel', rfl⟩ : ∃ k, fuel' = k + 1 := ⟨fuel' - 1, by omega⟩
      rw [heq, codeLengthsLoop_succ hi, hop, ok_bind]
      dsimp only
      obtain ⟨hpos, hfill, -⟩ := (meets_readLengthOp hr br).2 _ hop
      rcases Nat.lt_or_ge 320 (i + op.count) with hlt | hfit
      · rw [applyLengthOp_fault happ (hs'.length ▸ hs'.le) (hs'.length ▸ hlt)]
        exact .inl rfl
      · obtain ⟨lens'', happly, hs''⟩ := hs'.applyLengthOp happ hpos hfill hfit
        rw [happly, ok_bind]
        exact .inr ⟨fuel', lens'', hs'', rfl⟩

/-- **A run that does not fit** leaves the array. -/
theorem codeLengthsLoop_fault {clen : List ℕ} (hr : h.cl.Represents clen)
    (hs : LengthState h fuel 0 lens) (hfit : ¬ LengthsFit h) :
    codeLengthsLoop h.cl (h.hlit + h.hdist) fuel lens 0 h.br = fault := by
  unfold LengthsFit at hfit
  push Not at hfit
  obtain ⟨i, br, op, br', hat, hi, hop, happ, hlt⟩ := hfit
  rcases codeLengthsLoop_of_atLength hr hs hat with hfault | ⟨fuel', lens', hs', heq⟩
  · exact hfault
  · have hrounds := hs'.rounds
    obtain ⟨fuel', rfl⟩ : ∃ k, fuel' = k + 1 := ⟨fuel' - 1, by omega⟩
    rw [heq, codeLengthsLoop_succ hi, hop, ok_bind]
    dsimp only
    rw [applyLengthOp_fault happ (hs'.length ▸ hs'.le) (hs'.length ▸ hlt)]
    rfl

/-! ### The codes of a dynamic block -/

theorem lengthState_start (h : DynamicHeader) :
    LengthState h (h.hlit + h.hdist) 0 (List.replicate (288 + 32) 0) :=
  ⟨List.length_replicate, Nat.zero_le _,
    fun _ hx => (List.eq_of_mem_replicate hx).trans_le (Nat.zero_le _), (Nat.zero_add _).ge⟩

theorem meets_readDynamicCodes (hfit : ∀ h, readDynamicHeader br = ok h → LengthsFit h) :
    Meets (readDynamicCodes br) fun r =>
      (∃ litLens, r.1.Represents litLens) ∧ (∃ distLens, r.2.1.Represents distLens) ∧
        r.2.2.size ≤ br.size := by
  refine (meets_readDynamicHeader br).and_eq.bind fun h ⟨heq, hgood⟩ => ?_
  obtain ⟨clen, -, hr⟩ := hgood.represents
  refine (meets_codeLengthsLoop hr (hfit h heq) .first (lengthState_start h)).bind
    fun ⟨lens, br'⟩ ⟨hlen, hle, hsize⟩ => ?_
  dsimp only at hlen hle hsize ⊢
  have hhlit := hgood.hlit_le
  have hhdist := hgood.hdist_le
  refine (Huff.meets_build (by omega) hhlit hle).bind fun lit hlit => ?_
  refine (Huff.meets_build (by rw [List.length_drop]; omega) (by omega)
    fun x hx => hle x (List.mem_of_mem_drop hx)).bind fun dist hdist => meets_ok.mpr ?_
  exact ⟨⟨_, hlit⟩, ⟨_, hdist⟩, hsize.trans hgood.size_le⟩

theorem readDynamicCodes_fault (heq : readDynamicHeader br = ok h) (hfit : ¬ LengthsFit h) :
    readDynamicCodes br = fault := by
  have hgood := (meets_readDynamicHeader br).2 h heq
  obtain ⟨clen, -, hr⟩ := hgood.represents
  rw [readDynamicCodes, heq, ok_bind]
  dsimp only
  rw [codeLengthsLoop_fault hr (lengthState_start h) hfit]
  rfl

/-! ### Lengths, distances and copies -/

theorem getElem_distBase_pos : ∀ i, (hi : i < distBase.length) → 0 < distBase[i] := by
  decide

/-- **A length and a distance are read safely.** -/
theorem meets_readPair (hr : dist.Represents distLens) (sym : ℕ) (br : BitReader) :
    Meets (readPair dist sym br) fun r => 0 < r.2.1 ∧ r.2.2.size ≤ br.size := by
  rw [readPair]
  dsimp only
  split
  · exact meets_reject
  rename_i hcode
  have hlen : sym - 257 < 29 := by omega
  rw [read_of_lt (show sym - 257 < lenExtra.length from hlen), ok_bind]
  refine (BitReader.meets_get br _).bind fun ⟨extra, br1⟩ ⟨_, hsize1⟩ => ?_
  rw [read_of_lt (show sym - 257 < lenBase.length from hlen), ok_bind]
  refine (Huff.meets_decode hr br1).bind fun ⟨dsym, br2⟩ ⟨_, hsize2⟩ => ?_
  dsimp only at hsize1 hsize2 ⊢
  split
  · exact meets_reject
  rename_i hdsym
  have hdist : dsym < 30 := by omega
  rw [read_of_lt (show dsym < distExtra.length from hdist), ok_bind]
  refine (BitReader.meets_get br2 _).bind fun ⟨extra, br3⟩ ⟨_, hsize3⟩ => ?_
  rw [read_of_lt (show dsym < distBase.length from hdist), ok_bind]
  refine meets_ok.mpr ⟨?_, ?_⟩
  · exact Nat.add_pos_left (getElem_distBase_pos dsym hdist) _
  · dsimp only at hsize3 ⊢
    omega

/-- **The copy** makes all its accesses in range. -/
theorem copyBack_eq (hpos : 0 < distance) (hle : distance ≤ out.length)
    (hcap : out.length + length ≤ dstCap) :
    copyBack dstCap distance length out = ok (out ++ repeated out distance length) := by
  induction length generalizing out with
  | zero => rw [copyBack, repeated_zero, List.append_nil]
  | succ length ih =>
    rw [copyBack, ← Nat.cast_sub hle, readInt_natCast, read_of_lt (by omega), ok_bind, putByte,
      if_pos (by omega), ok_bind, ih (by rw [List.length_append]; omega)
        (by rw [List.length_append, List.length_singleton]; omega), repeated_succ hpos hle,
      List.append_assoc]
    rfl

/-! ### Blocks -/

/-- **The symbols of a block are decoded safely.** -/
theorem meets_symbolsLoop (hlit : lit.Represents litLens) (hdist : dist.Represents distLens)
    (hout : out.length ≤ dstCap) (hfuel : br.size < fuel) :
    Meets (symbolsLoop dstCap lit dist fuel br out) fun r =>
      r.1.size ≤ br.size ∧ r.2.length ≤ dstCap := by
  induction fuel generalizing br out with
  | zero => exact absurd hfuel (Nat.not_lt_zero _)
  | succ fuel ih =>
    refine (Huff.meets_decode hlit br).bind fun ⟨sym, br1⟩ ⟨_, hsize1⟩ => ?_
    dsimp only at hsize1 ⊢
    split_ifs with hsym hcap hend
    · exact meets_reject
    · rw [putByte, if_pos (not_le.mp hcap), ok_bind]
      refine (ih ?_ (show br1.size < fuel by omega)).mono fun r hr => ⟨by omega, hr.2⟩
      rw [List.length_append]
      exact not_le.mp hcap
    · exact meets_ok.mpr ⟨hsize1.le, hout⟩
    · refine (meets_readPair hdist sym br1).bind fun ⟨length, distance, br2⟩ ⟨hpos, hsize2⟩ => ?_
      dsimp only at hpos hsize2 ⊢
      split
      · exact meets_reject
      rename_i hnot
      have hle : distance ≤ out.length := by omega
      rw [copyBack_eq hpos hle (by omega), ok_bind]
      refine (ih ?_ (show br2.size < fuel by omega)).mono fun r hr => ⟨by omega, hr.2⟩
      rw [List.length_append, length_repeated hpos hle]
      omega

theorem meets_inflateStored (br : BitReader) (out : Bytes) :
    Meets (inflateStored dstCap br out) fun r =>
      r.1.size ≤ br.size ∧ r.2.length ≤ dstCap := by
  have halign := br.size_alignByte_le
  refine (BitReader.meets_ensure br.alignByte 16).bind fun br1 ⟨hsize1, _⟩ => ?_
  refine (BitReader.meets_get br1 16).bind fun ⟨len, br2⟩ ⟨_, hsize2⟩ => ?_
  refine (BitReader.meets_get br2 16).bind fun ⟨nlen, br3⟩ ⟨_, hsize3⟩ => ?_
  dsimp only at hsize2 hsize3 ⊢
  split_ifs with hnlen hlen hcap
  · exact meets_reject
  · exact meets_reject
  · exact meets_reject
  · rw [copyStored, if_pos (by omega), ok_bind]
    refine meets_ok.mpr ⟨?_, ?_⟩
    · have hdrop : BitReader.size { br3 with p := br3.p.drop len } ≤ br3.size := by
        rw [BitReader.size, BitReader.size, List.length_drop]
        dsimp only
        omega
      dsimp only
      omega
    · rw [List.length_append, List.length_take]
      omega

theorem length_fixedLitLenLengths : fixedLitLenLengths.length = 288 := by
  simp only [fixedLitLenLengths, List.length_append, List.length_replicate]

theorem le_of_mem_fixedLitLenLengths : ∀ x ∈ fixedLitLenLengths, x ≤ 15 := by
  simp only [fixedLitLenLengths, List.mem_append, List.mem_replicate]
  omega

theorem meets_readCodes {btype : ℕ}
    (hfit : btype ≠ 1 → ∀ h, readDynamicHeader br = ok h → LengthsFit h) :
    Meets (readCodes btype br) fun r =>
      (∃ litLens, r.1.Represents litLens) ∧ (∃ distLens, r.2.1.Represents distLens) ∧
        r.2.2.size ≤ br.size := by
  rw [readCodes]
  split
  · refine (Huff.meets_build length_fixedLitLenLengths.ge le_rfl
      le_of_mem_fixedLitLenLengths).bind fun lit hlit => ?_
    refine (Huff.meets_build (by rfl) (by decide) (by decide)).bind fun dist hdist => ?_
    exact meets_ok.mpr ⟨⟨_, hlit⟩, ⟨_, hdist⟩, le_rfl⟩
  · rename_i hbtype
    exact meets_readDynamicCodes (hfit hbtype)

theorem meets_inflateCompressed {btype : ℕ} (hout : out.length ≤ dstCap)
    (hfit : btype ≠ 1 → ∀ h, readDynamicHeader br = ok h → LengthsFit h) :
    Meets (inflateCompressed dstCap btype br out) fun r =>
      r.1.size ≤ br.size ∧ r.2.length ≤ dstCap := by
  refine (meets_readCodes hfit).bind fun ⟨lit, dist, br1⟩ ⟨⟨_, hlit⟩, ⟨_, hdist⟩, hsize⟩ => ?_
  exact (meets_symbolsLoop hlit hdist hout (Nat.lt_succ_self _)).mono fun r hr =>
    ⟨hr.1.trans hsize, hr.2⟩

/-- **What stands behind the header is decoded safely.** -/
theorem meets_inflateBody {btype : ℕ} (hout : out.length ≤ dstCap)
    (hfit : btype = 2 → ∀ h, readDynamicHeader br = ok h → LengthsFit h) :
    Meets (inflateBody dstCap btype br out) fun r =>
      r.1.size ≤ br.size ∧ r.2.length ≤ dstCap := by
  rw [inflateBody]
  split_ifs with h0 h12
  · exact meets_inflateStored br out
  · exact meets_inflateCompressed hout fun h1 => hfit (h12.resolve_left h1)
  · exact meets_reject

theorem meets_readBlockHeader (br : BitReader) :
    Meets (readBlockHeader br) fun r => r.2.2.size < br.size := by
  refine (BitReader.meets_get br 1).bind fun ⟨bfinal, br1⟩ ⟨_, hsize1⟩ => ?_
  refine (BitReader.meets_get br1 2).bind fun ⟨btype, br2⟩ ⟨_, hsize2⟩ => meets_ok.mpr ?_
  dsimp only at hsize1 hsize2 ⊢
  omega

/-- **A block is decoded safely** if its runs fit. -/
theorem meets_inflateBlock (hfit : BlockFits br) (hout : out.length ≤ dstCap) :
    Meets (inflateBlock dstCap br out) fun r =>
      r.2.1.size < br.size ∧ r.2.2.length ≤ dstCap := by
  refine (meets_readBlockHeader br).and_eq.bind fun ⟨bfinal, btype, br1⟩ ⟨heq, hsize⟩ => ?_
  dsimp only at hsize ⊢
  have hbody := meets_inflateBody hout fun h2 h (hh : readDynamicHeader br1 = ok h) =>
    hfit bfinal br1 h (h2 ▸ heq) hh
  refine hbody.bind fun ⟨br2, out2⟩ ⟨hsize2, hout2⟩ => meets_ok.mpr ⟨?_, hout2⟩
  dsimp only at hsize2 ⊢
  omega

/-- **A block whose runs do not fit.** -/
theorem inflateBlock_fault (hfit : ¬ BlockFits br) : inflateBlock dstCap br out = fault := by
  unfold BlockFits at hfit
  push Not at hfit
  obtain ⟨bfinal, br', h, hheader, hdynamic, hnot⟩ := hfit
  rw [inflateBlock, hheader, ok_bind]
  dsimp only
  rw [inflateBody, if_neg (by decide), if_pos (by decide), inflateCompressed, readCodes,
    if_neg (by decide), readDynamicCodes_fault hdynamic hnot]
  rfl

/-! ### The whole stream -/

theorem meets_inflateLoop (hfit : RunsFit src dstCap) (hat : AtBlock src dstCap br out)
    (hout : out.length ≤ dstCap) (hfuel : br.size < fuel) :
    Meets (inflateLoop dstCap fuel br out) fun r => r.length ≤ dstCap := by
  induction fuel generalizing br out with
  | zero => exact absurd hfuel (Nat.not_lt_zero _)
  | succ fuel ih =>
    refine (meets_inflateBlock (hfit br out hat) hout).and_eq.bind
      fun ⟨last, br1, out1⟩ ⟨heq, hsize1, hout1⟩ => ?_
    dsimp only at hsize1 hout1 ⊢
    cases last with
    | true => exact meets_ok.mpr hout1
    | false => exact ih (hat.next heq) hout1 (by omega)

/-- The outer loop gets to every block it can be at. -/
theorem inflateRaw_of_atBlock (hat : AtBlock src dstCap br out) :
    ∃ fuel, br.size < fuel ∧ out.length ≤ dstCap ∧
      inflateRaw src dstCap = inflateLoop dstCap fuel br out := by
  induction hat with
  | first => exact ⟨8 * src.length + 1, Nat.lt_succ_self _, Nat.zero_le _, rfl⟩
  | next hat hblock ih =>
    rename_i br br' out out'
    obtain ⟨fuel, hfuel, hout, heq⟩ := ih
    obtain ⟨fuel, rfl⟩ : ∃ k, fuel = k + 1 := ⟨fuel - 1, by omega⟩
    have hfit : BlockFits br := by
      by_contra hfit
      rw [inflateBlock_fault hfit] at hblock
      cases hblock
    obtain ⟨hsize, hout'⟩ := (meets_inflateBlock hfit hout).2 _ hblock
    dsimp only at hsize hout'
    refine ⟨fuel, by omega, hout', ?_⟩
    rw [heq, inflateLoop, hblock, ok_bind]
    rfl

/-- **`inflate_raw` is safe exactly if the runs of code lengths fit**, and then
it ends. -/
theorem safe_inflateRaw_iff (src : Bytes) (dstCap : ℕ) :
    Safe (inflateRaw src dstCap) ↔ RunsFit src dstCap := by
  constructor
  · intro hsafe br out hat
    by_contra hfit
    obtain ⟨fuel, hfuel, -, heq⟩ := inflateRaw_of_atBlock hat
    obtain ⟨fuel, rfl⟩ : ∃ k, fuel = k + 1 := ⟨fuel - 1, by omega⟩
    apply not_safe_fault (α := Bytes)
    rwa [heq, inflateLoop, inflateBlock_fault hfit] at hsafe
  · intro hfit
    exact (meets_inflateLoop hfit .first (Nat.zero_le _) (Nat.lt_succ_self _)).1

/-- A dynamic block with 288 and 1 code lengths and three runs of 138 zeros. -/
theorem inflateRaw_fault : inflateRaw [253, 0, 128, 192, 223, 223, 31] 16 = fault := by
  decide +kernel

end AdaIdna
