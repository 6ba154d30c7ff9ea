/-
AdaIdna/Words.lean

The 64-bit words that the byte loops load and store with `memcpy`.

Which byte of a word is its lowest lane depends on the host; every function
that goes through a word takes the order as an argument.
-/
import AdaIdna.Basic
import AdaIdna.Lib.Lanes

namespace AdaIdna

open Lanes

/-- `std::memcpy(&word, input, 8)`. -/
def loadWord (o : ByteOrder) (input : Bytes) : UInt64 :=
  UInt64.ofNat (pack 8 ((o.arrange input).map UInt8.toNat))

/-- The memory of a word. -/
def storeWord (o : ByteOrder) (word : UInt64) : Bytes :=
  o.arrange ((unpack 8 8 word.toNat).map toChar)

/-- The lambda `broadcast` of `ascii_map`. -/
def broadcast (v : UInt8) : UInt64 := 0x101010101010101 * v.toUInt64

variable {o : ByteOrder} {input : Bytes}

/-- Memory order does not matter to a test that treats all lanes alike, nor to
a function that does. -/
theorem toNat_loadWord (h : input.length ≤ 8) :
    (loadWord o input).toNat = pack 8 ((o.arrange input).map UInt8.toNat) := by
  rw [loadWord, UInt64.toNat_ofNat']
  apply Nat.mod_eq_of_lt
  have hlt : pack 8 ((o.arrange input).map UInt8.toNat)
      < 2 ^ (8 * ((o.arrange input).map UInt8.toNat).length) := by
    apply pack_lt
    intro x hx
    obtain ⟨b, -, rfl⟩ := List.mem_map.mp hx
    exact b.toNat_lt
  refine hlt.trans_le (Nat.pow_le_pow_right (by decide) ?_)
  rw [List.length_map, ByteOrder.length_arrange]
  omega

/-- A word whose lanes are the images of the loaded bytes is stored as the
images of the bytes. -/
theorem storeWord_of_lanes {f : ℕ → ℕ} {word : UInt64} (hlen : input.length = 8)
    (hf : ∀ b ∈ input, f b.toNat < 2 ^ 8)
    (h : word.toNat = pack 8 (((o.arrange input).map UInt8.toNat).map f)) :
    storeWord o word = input.map fun b => toChar (f b.toNat) := by
  have hlen' : (((o.arrange input).map UInt8.toNat).map f).length = 8 := by
    rw [List.length_map, List.length_map, ByteOrder.length_arrange, hlen]
  have hlt : ∀ x ∈ ((o.arrange input).map UInt8.toNat).map f, x < 2 ^ 8 := by
    intro x hx
    rw [List.map_map] at hx
    obtain ⟨b, hb, rfl⟩ := List.mem_map.mp hx
    exact hf b (ByteOrder.mem_arrange.mp hb)
  have hunpack := unpack_pack hlt
  rw [hlen', ← h] at hunpack
  rw [storeWord, hunpack, List.map_map, List.map_map, ByteOrder.map_arrange,
    ByteOrder.arrange_arrange]
  rfl

/-- The lanes of a broadcast byte. -/
theorem toNat_broadcast (v : UInt8) {s : List ℕ} (hlen : s.length = 8) :
    (broadcast v).toNat = pack 8 (s.map fun _ => v.toNat) := by
  have hs : s.map (fun _ => v.toNat) = List.replicate 8 v.toNat := by
    rw [← hlen]
    exact List.map_const'
  have hlt := v.toNat_lt
  rw [hs, broadcast, UInt64.toNat_mul, UInt8.toNat_toUInt64]
  show 0x101010101010101 * v.toNat % 2 ^ 64 = _
  simp only [List.replicate, pack_cons, pack_nil]
  omega

end AdaIdna
