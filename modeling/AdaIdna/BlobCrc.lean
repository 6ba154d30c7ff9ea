/-
AdaIdna/BlobCrc.lean

What the checksum of the blob detects.

`crc32_ieee` works bit by bit in a register of 32 bits, the low bit first.
Read as a polynomial over the field with two elements, the register is
multiplied by `X` in each round, modulo the generator of CRC-32
(`residue_crc32Bit`).  So two payloads of one length have the same checksum
exactly if the generator divides their difference (`crc32Ieee_eq_iff`).

`ensure_tables` therefore never publishes a payload that was damaged in a burst
of at most 32 bits (`isSome_ensureTablesBuffer`).
-/
import AdaIdna.Lib.CyclicRedundancy
import AdaIdna.TableBlob
import Mathlib.Algebra.CharP.Two
import Mathlib.Algebra.Polynomial.Degree.Lemmas
import Mathlib.Data.Nat.Bitwise
import Mathlib.RingTheory.AdjoinRoot

namespace AdaIdna

namespace TableBlob

open Polynomial CyclicRedundancy PackTables

/-- The generator of CRC-32. -/
noncomputable def generator : (ZMod 2)[X] :=
  X ^ 32 + X ^ 26 + X ^ 23 + X ^ 22 + X ^ 16 + X ^ 12 + X ^ 11 + X ^ 10 + X ^ 8 + X ^ 7 + X ^ 5
    + X ^ 4 + X ^ 2 + X + 1

/-- The bits of a number, the lowest one first. -/
def bits : ℕ → ℕ → List (ZMod 2)
  | 0, _ => []
  | n + 1, a => a :: bits n (a / 2)

/-- The bits of a payload in the order in which they are checked. -/
def messageBits (data : Bytes) : List (ZMod 2) := data.flatMap fun b => bits 8 b.toNat

variable {n a b : ℕ} {data data' : Bytes} {c : UInt32}

@[simp] theorem length_bits (n a : ℕ) : (bits n a).length = n := by
  induction n generalizing a with
  | zero => rfl
  | succ n ih => rw [bits, List.length_cons, ih]

@[simp] theorem bits_zero (n : ℕ) : bits n 0 = List.replicate n 0 := by
  induction n with
  | zero => rfl
  | succ n ih => rw [bits, Nat.zero_div, ih, List.replicate_succ, Nat.cast_zero]

theorem bits_add (n k a : ℕ) : bits (n + k) a = bits n a ++ bits k (a / 2 ^ n) := by
  induction n generalizing a with
  | zero => simp [bits]
  | succ n ih =>
    rw [Nat.succ_add, bits, ih, bits, List.cons_append, Nat.div_div_eq_div_mul, pow_succ']

theorem natCast_xor (a b : ℕ) : ((a ^^^ b : ℕ) : ZMod 2) = a + b := by
  rw [← Nat.cast_add, ZMod.natCast_eq_natCast_iff]
  exact Nat.xor_mod_two_eq

theorem value_bits_xor (n a b : ℕ) :
    value (bits n (a ^^^ b)) = value (bits n a) + value (bits n b) := by
  induction n generalizing a b with
  | zero => simp [bits]
  | succ n ih =>
    rw [bits, bits, bits, value_cons, value_cons, value_cons, Nat.xor_div_two, ih, natCast_xor,
      length_bits, length_bits, length_bits, map_add]
    ring

theorem value_replicate_zero (n : ℕ) : value (List.replicate n (0 : ZMod 2)) = 0 := by
  induction n with
  | zero => rfl
  | succ n ih => rw [List.replicate_succ, value_cons, ih, map_zero, mul_zero, add_zero]

/-- Shifting multiplies by `X`, but for the bit that is lost. -/
theorem value_bits_div_two (h : a < 2 ^ (n + 1)) :
    value (bits (n + 1) (a / 2)) = X * value (bits (n + 1) a) + X ^ (n + 1) * C (a : ZMod 2) := by
  have hlow : value (bits (n + 1) a) = X ^ n * C (a : ZMod 2) + value (bits n (a / 2)) := by
    rw [bits, value_cons, length_bits]
  have hhigh : value (bits (n + 1) (a / 2)) = X * value (bits n (a / 2)) := by
    have hzero : a / 2 / 2 ^ n = 0 := by
      rw [Nat.div_div_eq_div_mul, ← pow_succ']
      exact Nat.div_eq_of_lt h
    rw [bits_add, hzero, bits_zero, List.replicate_one, value_concat, map_zero, add_zero]
  have htwo : (X ^ (n + 1) * C (a : ZMod 2)) + X ^ (n + 1) * C (a : ZMod 2) = 0 :=
    CharTwo.add_self_eq_zero _
  rw [hhigh, hlow]
  linear_combination -htwo

theorem generator_eq : generator = X ^ 32 + value (bits 32 0xEDB88320) := by
  have hbits : bits 32 0xEDB88320 = [0, 0, 0, 0, 0, 1, 0, 0, 1, 1, 0, 0, 0, 0, 0, 1, 0, 0, 0, 1,
      1, 1, 0, 1, 1, 0, 1, 1, 0, 1, 1, 1] := by
    decide +kernel
  rw [hbits, generator]
  simp [value]
  ring

theorem toNat_crc32Bit (c : UInt32) : (crc32Bit c).toNat
    = if c.toNat % 2 = 0 then c.toNat / 2 else c.toNat / 2 ^^^ 0xEDB88320 := by
  have hlow : (c &&& 1).toNat = c.toNat % 2 := by
    rw [UInt32.toNat_and]
    exact Nat.and_one_is_mod c.toNat
  have hshift : (c >>> 1).toNat = c.toNat / 2 := by
    rw [UInt32.toNat_shiftRight]
    exact Nat.shiftRight_eq_div_pow c.toNat 1
  rw [crc32Bit, UInt32.toNat_xor, hshift]
  split_ifs with heven
  · have hmask : c &&& 1 = 0 := UInt32.toNat_inj.mp (hlow.trans heven)
    rw [hmask]
    exact Nat.xor_zero _
  · have hmask : c &&& 1 = 1 := UInt32.toNat_inj.mp (hlow.trans (Nat.mod_two_ne_zero.mp heven))
    rw [hmask]
    rfl

/-- The residue that a register stands for. -/
noncomputable def residue (c : UInt32) : AdjoinRoot generator :=
  AdjoinRoot.mk generator (value (bits 32 c.toNat))

/-- **One round** multiplies by `X`, modulo the generator. -/
theorem residue_crc32Bit (c : UInt32) :
    residue (crc32Bit c) = AdjoinRoot.root generator * residue c := by
  have hvalue : value (bits 32 (crc32Bit c).toNat)
      = X * value (bits 32 c.toNat) + C (c.toNat : ZMod 2) * generator := by
    have hshift := value_bits_div_two (n := 31) c.toNat_lt
    rw [toNat_crc32Bit]
    split_ifs with heven
    · have hzero : (c.toNat : ZMod 2) = 0 := by
        rw [ZMod.natCast_eq_zero_iff]
        exact Nat.dvd_of_mod_eq_zero heven
      rw [hshift, hzero, map_zero, mul_zero, zero_mul]
    · have hone : (c.toNat : ZMod 2) = 1 := by
        rw [← Nat.cast_one, ZMod.natCast_eq_natCast_iff]
        exact Nat.mod_two_ne_zero.mp heven
      rw [value_bits_xor, hshift, hone, generator_eq, map_one]
      ring
  rw [residue, hvalue, map_add, map_mul, map_mul, AdjoinRoot.mk_X, AdjoinRoot.mk_self, mul_zero,
    add_zero, residue]

/-- A byte comes in at the low end of the register. -/
theorem residue_xor_byte (c : UInt32) (b : UInt8) : residue (c ^^^ b.toUInt32)
    = residue c
      + AdjoinRoot.root generator ^ 24 * AdjoinRoot.mk generator (value (bits 8 b.toNat)) := by
  have hbyte : value (bits 32 b.toNat) = X ^ 24 * value (bits 8 b.toNat) := by
    have hzero : b.toNat / 2 ^ 8 = 0 := Nat.div_eq_of_lt b.toNat_lt
    rw [show 32 = 8 + 24 from rfl, bits_add, hzero, bits_zero, value_append, value_replicate_zero,
      List.length_replicate, add_zero]
  rw [residue, UInt32.toNat_xor, value_bits_xor, map_add]
  show residue c + AdjoinRoot.mk generator (value (bits 32 b.toNat)) = _
  rw [hbyte, map_mul, map_pow, AdjoinRoot.mk_X]

theorem residue_iterate (k : ℕ) (c : UInt32) :
    residue (crc32Bit^[k] c) = AdjoinRoot.root generator ^ k * residue c := by
  induction k with
  | zero => simp
  | succ k ih => rw [Function.iterate_succ_apply', residue_crc32Bit, ih, pow_succ', mul_assoc]

/-- **The whole payload**: the register holds the residue of the message,
multiplied by `X ^ 32`, behind that of the initial value. -/
theorem residue_foldl (data : Bytes) (c : UInt32) :
    residue (data.foldl (fun c b => crc32Bit^[8] (c ^^^ b.toUInt32)) c)
      = AdjoinRoot.root generator ^ (messageBits data).length * residue c
        + AdjoinRoot.root generator ^ 32 * AdjoinRoot.mk generator (value (messageBits data)) := by
  induction data using List.reverseRecOn with
  | nil => simp [messageBits]
  | append_singleton data b ih =>
    have hbits : messageBits (data ++ [b]) = messageBits data ++ bits 8 b.toNat := by
      rw [messageBits, List.flatMap_append, List.flatMap_singleton, messageBits]
    rw [List.foldl_append, List.foldl_cons, List.foldl_nil, residue_iterate, residue_xor_byte, ih,
      hbits, value_append, List.length_append, length_bits, map_add, map_mul, map_pow,
      AdjoinRoot.mk_X]
    ring

/-! ### The generator -/

theorem degree_bits_lt (n a : ℕ) : (value (bits n a)).degree < n :=
  (degree_value_lt _).trans_eq (congrArg Nat.cast (length_bits n a))

theorem monic_generator : generator.Monic := by
  rw [generator_eq]
  exact monic_X_pow_add (degree_bits_lt 32 _)

theorem natDegree_generator : generator.natDegree = 32 := by
  have hlow : (value (bits 32 0xEDB88320)).degree < (X ^ 32 : (ZMod 2)[X]).degree := by
    rw [degree_X_pow]
    exact degree_bits_lt 32 _
  rw [generator_eq, natDegree_add_eq_left_of_degree_lt hlow, natDegree_X_pow]

theorem isCoprime_generator_X : IsCoprime generator X := by
  refine ⟨1, X ^ 31 + X ^ 25 + X ^ 22 + X ^ 21 + X ^ 15 + X ^ 11 + X ^ 10 + X ^ 9 + X ^ 7 + X ^ 6
    + X ^ 4 + X ^ 3 + X + 1, ?_⟩
  have htwo : (2 : (ZMod 2)[X]) = 0 := CharTwo.two_eq_zero
  rw [generator]
  linear_combination (X ^ 32 + X ^ 26 + X ^ 23 + X ^ 22 + X ^ 16 + X ^ 12 + X ^ 11 + X ^ 10 + X ^ 8
    + X ^ 7 + X ^ 5 + X ^ 4 + X ^ 2 + X) * htwo

theorem eq_of_bits_eq (ha : a < 2 ^ n) (hb : b < 2 ^ n) (h : bits n a = bits n b) : a = b := by
  induction n generalizing a b with
  | zero => omega
  | succ n ih =>
    rw [bits, bits, List.cons.injEq, ZMod.natCast_eq_natCast_iff] at h
    have hmod : a % 2 = b % 2 := h.1
    have hdiv : a / 2 = b / 2 := ih (by omega) (by omega) h.2
    omega

/-- No two registers have the same residue. -/
theorem residue_injective : Function.Injective residue := by
  intro c c' h
  apply UInt32.toNat_inj.mp
  refine eq_of_bits_eq c.toNat_lt c'.toNat_lt (eq_of_dvd_sub monic_generator ?_ ?_ ?_)
  · rw [length_bits, length_bits]
  · rw [length_bits, natDegree_generator]
  · exact AdjoinRoot.mk_eq_mk.mp h

theorem length_messageBits (data : Bytes) : (messageBits data).length = 8 * data.length := by
  induction data with
  | nil => rfl
  | cons b data ih =>
    rw [messageBits, List.flatMap_cons, List.length_append, ← messageBits, ih, length_bits,
      List.length_cons]
    exact (Nat.mul_succ 8 _ ▸ Nat.add_comm 8 _)

/-! ### Main results -/

theorem crc32Ieee_eq_iff (hlen : data.length = data'.length) :
    crc32Ieee data = crc32Ieee data' ↔
      generator ∣ value (messageBits data) - value (messageBits data') := by
  have hcoprime : IsCoprime generator (X ^ 32) := isCoprime_generator_X.pow_right
  have hnot : ∀ c c' : UInt32, ~~~ c = ~~~ c' ↔ c = c' := fun c c' =>
    ⟨fun h => by rw [← UInt32.not_not (a := c), h, UInt32.not_not], fun h => by rw [h]⟩
  rw [crc32Ieee, crc32Ieee, hnot, ← residue_injective.eq_iff, residue_foldl, residue_foldl,
    length_messageBits, length_messageBits, hlen, add_right_inj, ← AdjoinRoot.mk_X, ← map_pow,
    ← map_mul, ← map_mul, AdjoinRoot.mk_eq_mk, ← mul_sub]
  exact ⟨hcoprime.dvd_of_dvd_mul_left, fun h => h.mul_left _⟩

/-- A payload of the right length is published if the generator does not see its
difference from the one that was packed. -/
theorem isSome_ensureTablesBuffer_iff {b : Blob} (o : Lanes.ByteOrder)
    (hsize : b.uncompressedSize = data.length) (hcrc : b.uncompressedCrc32 = crc32Ieee data) :
    (ensureTablesBuffer o b).isSome = true ↔ (inflated b).length = data.length ∧
      generator ∣ value (messageBits (inflated b)) - value (messageBits data) := by
  rw [ensureTablesBuffer, hsize, hcrc]
  by_cases hlen : (inflated b).length = data.length
  · rw [and_iff_right hlen, ← crc32Ieee_eq_iff hlen]
    split_ifs with hbad
    · refine iff_of_false Bool.false_ne_true fun heq => ?_
      exact hbad.elim (· hlen) (· heq)
    · rw [not_or, not_not, not_not] at hbad
      exact iff_of_true rfl hbad.2
  · rw [if_pos (Or.inl hlen)]
    exact iff_of_false Bool.false_ne_true fun h => hlen h.1

/-- **What `ensure_tables` publishes**: a payload of the right length whose
difference from the one that was packed is a multiple of the generator, and no
other.  So damage in at most 32 consecutive bits is always detected. -/
theorem isSome_ensureTablesBuffer {b : Blob} (o : Lanes.ByteOrder)
    (hsize : b.uncompressedSize = data.length) (hcrc : b.uncompressedCrc32 = crc32Ieee data) :
    ((ensureTablesBuffer o b).isSome = true ↔ (inflated b).length = data.length ∧
      generator ∣ value (messageBits (inflated b)) - value (messageBits data)) ∧
    ∀ before m m' after : List (ZMod 2), messageBits data = before ++ m ++ after →
      messageBits (inflated b) = before ++ m' ++ after → m.length = m'.length → m.length ≤ 32 →
        ((ensureTablesBuffer o b).isSome = true ↔ m' = m) := by
  refine ⟨isSome_ensureTablesBuffer_iff o hsize hcrc, ?_⟩
  intro before m m' after hdata hread hlen hburst
  rw [isSome_ensureTablesBuffer_iff o hsize hcrc, hdata, hread]
  constructor
  · rintro ⟨-, hdvd⟩
    exact eq_of_dvd_burst monic_generator isCoprime_generator_X hlen.symm
      (by rwa [natDegree_generator, ← hlen]) hdvd
  · rintro rfl
    rw [sub_self]
    refine ⟨?_, dvd_zero _⟩
    have hbits := congrArg List.length (hread.trans hdata.symm)
    rw [length_messageBits, length_messageBits] at hbits
    exact Nat.eq_of_mul_eq_mul_left (by decide) hbits

/-- A byte that was packed, and another one that is read. -/
theorem isSome_ensureTablesBuffer_damaged :
    (ensureTablesBuffer .little ⟨1, 6, crc32Ieee [0x61], [], [],
      [0x01, 0x01, 0x00, 0xFE, 0xFF, 0x62]⟩).isSome = false := by
  have hpublished := (isSome_ensureTablesBuffer (b := ⟨1, 6, crc32Ieee [0x61], [], [],
    [0x01, 0x01, 0x00, 0xFE, 0xFF, 0x62]⟩) .little rfl (show _ = crc32Ieee [0x61] from rfl)).2 []
    (bits 8 0x61) (bits 8 0x62) [] rfl rfl rfl (by decide)
  rw [← Bool.not_eq_true, hpublished]
  decide

end TableBlob

end AdaIdna
