/-
AdaIdna/BitReader.lean

The bit reader as a list of bits.

The bits still to be read are those in the accumulator, lowest one first, and
behind them those of the bytes.  `get` takes bits from the front of the list
and leaves fewer than eight in the accumulator (`get_of_toBits`), so aligning
to a byte drops the accumulator.
-/
import AdaIdna.DeflateFormat
import AdaIdna.Inflate

namespace AdaIdna

open Checked Lanes

variable {br br' : BitReader} {p : Bytes} {n v acc bits : ℕ} {u rest : List ℕ}

@[simp] theorem bytesToBits_nil : bytesToBits [] = [] := rfl

@[simp] theorem bytesToBits_cons (b : UInt8) (p : Bytes) :
    bytesToBits (b :: p) = unpack 1 8 b.toNat ++ bytesToBits p := rfl

theorem length_bytesToBits (p : Bytes) : (bytesToBits p).length = 8 * p.length := by
  induction p with
  | nil => rfl
  | cons b p ih =>
    rw [bytesToBits_cons, List.length_append, ih, length_unpack, List.length_cons]
    ring

namespace BitReader

/-- The bits still to be read. -/
def toBits (br : BitReader) : List ℕ := unpack 1 br.bits br.acc ++ bytesToBits br.p

theorem length_toBits (br : BitReader) : br.toBits.length = br.size := by
  rw [toBits, List.length_append, length_unpack, length_bytesToBits, size, Nat.add_comm]

/-- Between two operations the accumulator holds a part of one byte. -/
structure Wf (br : BitReader) : Prop where
  acc_lt : br.acc < 2 ^ br.bits
  bits_lt : br.bits < 8

theorem wf_start (src : Bytes) : Wf ⟨src, 0, 0⟩ := ⟨Nat.one_pos, Nat.succ_pos 7⟩

@[simp] theorem toBits_start (src : Bytes) : toBits ⟨src, 0, 0⟩ = bytesToBits src := rfl

/-! ### Sizes -/

theorem safe_ensureLoop (n : ℕ) (p : Bytes) (acc bits : ℕ) : Safe (ensureLoop n p acc bits) := by
  induction p generalizing acc bits with
  | nil =>
    rw [ensureLoop]
    split
    · exact safe_reject
    · exact safe_ok _
  | cons b p ih =>
    rw [ensureLoop]
    split
    · exact ih _ _
    · exact safe_ok _

theorem size_ensureLoop (h : ensureLoop n p acc bits = ok br) :
    br.size = 8 * p.length + bits ∧ n ≤ br.bits := by
  induction p generalizing acc bits with
  | nil =>
    rw [ensureLoop] at h
    split at h
    · cases h
    · cases h
      exact ⟨rfl, by dsimp only; omega⟩
  | cons b p ih =>
    rw [ensureLoop] at h
    split at h
    · obtain ⟨hsize, hbits⟩ := ih h
      refine ⟨hsize.trans ?_, hbits⟩
      rw [List.length_cons]
      omega
    · cases h
      exact ⟨rfl, by dsimp only; omega⟩

theorem meets_ensure (br : BitReader) (n : ℕ) :
    Meets (br.ensure n) fun br' => br'.size = br.size ∧ n ≤ br'.bits :=
  ⟨safe_ensureLoop n br.p br.acc br.bits, fun _ h => size_ensureLoop h⟩

theorem size_alignByte_le (br : BitReader) : br.alignByte.size ≤ br.size :=
  Nat.add_le_add_left (Nat.sub_le _ _) _

/-- **`get` meets its specification**: a value of `n` bits, and `n` bits fewer. -/
theorem meets_get (br : BitReader) (n : ℕ) :
    Meets (br.get n) fun r => r.1 < 2 ^ n ∧ r.2.size + n = br.size := by
  refine (meets_ensure br n).bind fun br' ⟨hsize, hbits⟩ => meets_ok.mpr ⟨?_, ?_⟩
  · show br'.acc &&& (1 <<< n - 1) < 2 ^ n
    rw [Nat.one_shiftLeft, Nat.and_two_pow_sub_one_eq_mod]
    exact Nat.mod_lt _ (Nat.two_pow_pos n)
  · rw [← hsize, size, size]
    dsimp only
    omega

/-! ### Reading bits -/

/-- A byte goes on top of the accumulator. -/
theorem unpack_or_shiftLeft (h : acc < 2 ^ bits) (b : UInt8) :
    unpack 1 (bits + 8) (acc ||| b.toNat <<< bits) = unpack 1 bits acc ++ unpack 1 8 b.toNat ∧
      acc ||| b.toNat <<< bits < 2 ^ (bits + 8) := by
  have hor : acc ||| b.toNat <<< bits = 2 ^ bits * b.toNat + acc := by
    rw [Nat.or_comm, Nat.shiftLeft_eq, Nat.mul_comm, ← Nat.two_pow_add_eq_or_of_lt h]
  have hb := b.toNat_lt
  constructor
  · rw [hor, unpack_add, one_mul, Nat.mul_add_div (Nat.two_pow_pos _), Nat.div_eq_of_lt h,
      Nat.add_zero, ← unpack_mod 1 bits (_ + _), one_mul, Nat.mul_add_mod, Nat.mod_eq_of_lt h]
  · calc acc ||| b.toNat <<< bits = 2 ^ bits * b.toNat + acc := hor
      _ < 2 ^ bits * b.toNat + 2 ^ bits := Nat.add_lt_add_left h _
      _ = 2 ^ bits * (b.toNat + 1) := by ring
      _ ≤ 2 ^ bits * 2 ^ 8 := Nat.mul_le_mul_left _ hb
      _ = 2 ^ (bits + 8) := (pow_add _ _ _).symm

/-- `ensure` moves bits from the bytes to the accumulator, no more than needed. -/
theorem ensureLoop_eq (h : acc < 2 ^ bits) (hn : n ≤ 8 * p.length + bits) :
    ∃ br, ensureLoop n p acc bits = ok br ∧
      br.toBits = unpack 1 bits acc ++ bytesToBits p ∧ br.acc < 2 ^ br.bits ∧ n ≤ br.bits ∧
      br.bits ≤ max bits (n + 7) := by
  induction p generalizing acc bits with
  | nil =>
    rw [List.length_nil, Nat.mul_zero, Nat.zero_add] at hn
    exact ⟨⟨[], acc, bits⟩, if_neg (not_lt.mpr hn), rfl, h, hn, le_max_left _ _⟩
  | cons b p ih =>
    rw [ensureLoop]
    split
    · rename_i hlt
      obtain ⟨hbits, hacc⟩ := unpack_or_shiftLeft h b
      rw [List.length_cons] at hn
      obtain ⟨br, hbr, htoBits, hlt', hle, hmax⟩ := ih hacc (by omega)
      refine ⟨br, hbr, ?_, hlt', hle, by omega⟩
      rw [htoBits, hbits, bytesToBits_cons, List.append_assoc]
    · rename_i hle
      exact ⟨⟨b :: p, acc, bits⟩, rfl, rfl, h, not_lt.mp hle, le_max_left _ _⟩

/-- **`get` takes bits from the front.** -/
theorem get_of_toBits (hw : br.Wf) (h : br.toBits = u ++ rest) :
    ∃ br', br.get u.length = ok (pack 1 u, br') ∧ br'.toBits = rest ∧ br'.Wf := by
  have hlen := congrArg List.length h
  rw [length_toBits, List.length_append, size] at hlen
  obtain ⟨br', hbr', htoBits, hacc, hle, hmax⟩ :=
    ensureLoop_eq (n := u.length) (p := br.p) hw.acc_lt (by omega)
  -- the accumulator now begins with `u`
  have hsplit : br'.toBits = unpack 1 u.length br'.acc ++
      (unpack 1 (br'.bits - u.length) (br'.acc / 2 ^ u.length) ++ bytesToBits br'.p) := by
    rw [toBits, ← List.append_assoc]
    congr 1
    conv_lhs => rw [← Nat.add_sub_cancel' hle, unpack_add, one_mul]
  have happ : unpack 1 u.length br'.acc ++
      (unpack 1 (br'.bits - u.length) (br'.acc / 2 ^ u.length) ++ bytesToBits br'.p) = u ++ rest :=
    hsplit.symm.trans (htoBits.trans h)
  obtain ⟨hu, hrest⟩ := List.append_inj happ (length_unpack _ _ _)
  refine ⟨⟨br'.p, br'.acc / 2 ^ u.length, br'.bits - u.length⟩, ?_, hrest, ?_, ?_⟩
  · rw [get, ensure, hbr', ok_bind, Nat.one_shiftLeft, Nat.and_two_pow_sub_one_eq_mod,
      Nat.shiftRight_eq_div_pow]
    have hv : br'.acc % 2 ^ u.length = pack 1 u := by
      conv_rhs => rw [← hu, pack_unpack, one_mul]
    rw [hv]
  · show br'.acc / 2 ^ u.length < 2 ^ (br'.bits - u.length)
    rw [Nat.div_lt_iff_lt_mul (Nat.two_pow_pos _), ← pow_add, Nat.sub_add_cancel hle]
    exact hacc
  · show br'.bits - u.length < 8
    have := hw.bits_lt
    omega

/-- Bits in the form in which the format stores a number. -/
theorem get_of_toBits_unpack (hw : br.Wf) (hv : v < 2 ^ n)
    (h : br.toBits = unpack 1 n v ++ rest) :
    ∃ br', br.get n = ok (v, br') ∧ br'.toBits = rest ∧ br'.Wf := by
  obtain ⟨br', hget, hrest⟩ := get_of_toBits hw h
  rw [length_unpack, pack_unpack_of_lt (by rwa [one_mul])] at hget
  exact ⟨br', hget, hrest⟩

/-- Aligning drops the bits up to the next byte. -/
theorem alignByte_eq (hw : br.Wf) : br.alignByte = ⟨br.p, 0, 0⟩ := by
  have hbits : br.bits &&& 7 = br.bits := by
    rw [show 7 = 2 ^ 3 - 1 from rfl, Nat.and_two_pow_sub_one_eq_mod, Nat.mod_eq_of_lt hw.bits_lt]
  rw [alignByte, hbits, Nat.sub_self, Nat.shiftRight_eq_div_pow, Nat.div_eq_of_lt hw.acc_lt]

end BitReader

end AdaIdna
