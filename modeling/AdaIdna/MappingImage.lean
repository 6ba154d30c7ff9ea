/-
AdaIdna/MappingImage.lean

What `map` and `ascii_map` compute.

`image T c` is what the mapping table says about one character: nothing, for a
disallowed one, else a string.  The counter of the first pass and the decoder
of the second walk over a mapping string with the same steps
(`length_mappingString`), so the buffer is filled exactly and `map`
concatenates the images (`map_eq_some`).  `ascii_map` is the bytewise lower
case of an ASCII string, whatever the byte order (`asciiMap_eq`).
-/
import AdaIdna.Mapping
import AdaIdna.Lib.Buffer

namespace AdaIdna

open Lanes

/-! ### The image of a character -/

/-- The code points of the mapping string at `ptr`. -/
def mappingString : ℕ → Bytes → U32String
  | 0, _ => []
  | fuel + 1, ptr =>
    if byteAt ptr = 0 then [] else (utf8Next ptr).1 :: mappingString fuel (utf8Next ptr).2

variable (T : Tables)

/-- The image of a character; `none` if it is disallowed. -/
def image (c : ℕ) : Option U32String :=
  let status := idnaLookup T c
  if status = idnaDisallowed then none
  else if status = idnaValid then some [c]
  else if T.idnaUtf8Mappings.length ≤ status then none
  else some (mappingString (mappingAt T status).length (mappingAt T status))

/-- The image of a character that is not disallowed. -/
def imageOf (c : ℕ) : U32String := (image T c).getD []

variable {T} {c : ℕ} {s t m : U32String}

theorem image_of_valid (h : idnaLookup T c = idnaValid) : image T c = some [c] := by
  rw [image, h]
  rfl

/-- A character that is neither disallowed nor valid maps to its string in
the table. -/
theorem image_of_mapped (hval : idnaLookup T c ≠ idnaValid) (h : (image T c).isSome = true) :
    image T c
      = some (mappingString (mappingAt T (idnaLookup T c)).length
          (mappingAt T (idnaLookup T c))) := by
  by_cases hdis : idnaLookup T c = idnaDisallowed
  · rw [image, hdis] at h
    cases h
  · by_cases hsize : T.idnaUtf8Mappings.length ≤ idnaLookup T c
    · rw [image] at h
      simp only [hdis, hval, hsize, if_false, if_true] at h
      cases h
    · rw [image]
      simp only [hdis, hval, hsize, if_false]

theorem imageOf_of_eq {i : U32String} (h : image T c = some i) : imageOf T c = i := by
  rw [imageOf, h, Option.getD_some]

/-- The counter steps over a mapping string as the decoder does. -/
theorem length_mappingString (fuel : ℕ) (ptr : Bytes) :
    (mappingString fuel ptr).length = utf8CountCodepoints fuel ptr := by
  induction fuel generalizing ptr with
  | zero => rfl
  | succ fuel ih =>
    rw [mappingString, utf8CountCodepoints]
    by_cases h0 : byteAt ptr = 0
    · rw [if_pos h0, if_pos h0]
      rfl
    · rw [if_neg h0, if_neg h0, List.length_cons, ih, utf8Next]
      split
      · rfl
      · split
        · rfl
        · split <;> rfl

/-! ### The two passes -/

theorem writeMapping_eq {fuel : ℕ} {ptr : Bytes} {A J : U32String}
    (hJ : (mappingString fuel ptr).length ≤ J.length) :
    writeMapping fuel ptr (A ++ J, A.length)
      = (A ++ mappingString fuel ptr ++ J.drop (mappingString fuel ptr).length,
        A.length + (mappingString fuel ptr).length) := by
  induction fuel generalizing ptr A J with
  | zero => simp [writeMapping, mappingString]
  | succ fuel ih =>
    rw [writeMapping, mappingString] at *
    split
    · simp
    · rename_i h0
      rw [if_neg h0, List.length_cons] at hJ
      cases J with
      | nil => exact absurd hJ (Nat.not_succ_le_zero _)
      | cons j J =>
        have h := ih (A := A ++ [(utf8Next ptr).1]) (J := J) (Nat.le_of_succ_le_succ hJ)
        rw [List.length_append, List.length_singleton, List.append_assoc] at h
        show writeMapping fuel (utf8Next ptr).2
          ((A ++ j :: J).set A.length (utf8Next ptr).1, A.length + 1) = _
        rw [Buffer.set_append rfl]
        apply h.trans
        rw [List.length_cons, List.drop_succ_cons]
        simp only [List.append_assoc, List.nil_append, List.cons_append, Nat.add_assoc,
          Nat.add_comm 1]

/-- **The first pass** fails on a disallowed character and counts the images. -/
theorem mapSize_eq_some {n k : ℕ} :
    mapSize T s n = some k ↔
      (∀ c ∈ s, (image T c).isSome) ∧ k = n + (s.flatMap (imageOf T)).length := by
  induction s generalizing n with
  | nil =>
    rw [mapSize, Option.some.injEq]
    exact ⟨fun h => ⟨fun _ hc => absurd hc List.not_mem_nil, h.symm⟩, fun h => h.2.symm⟩
  | cons c s ih =>
    rw [List.forall_mem_cons, List.flatMap_cons, List.length_append, mapSize]
    dsimp only
    by_cases hdis : idnaLookup T c = idnaDisallowed
    · rw [if_pos hdis]
      simp [image, hdis]
    · rw [if_neg hdis]
      by_cases hval : idnaLookup T c = idnaValid
      · rw [if_pos hval, ih, imageOf, image_of_valid hval]
        simp [Nat.add_assoc]
      · rw [if_neg hval]
        by_cases hsize : T.idnaUtf8Mappings.length ≤ idnaLookup T c
        · rw [if_pos hsize]
          simp [image, hdis, hval, hsize]
        · rw [if_neg hsize, ih, ← length_mappingString, imageOf, image]
          simp [hdis, hval, hsize, Nat.add_assoc]

/-- **The second pass** writes the images, and nothing behind them. -/
theorem mapWrite_eq {A J : U32String} (hs : ∀ c ∈ s, (image T c).isSome)
    (hJ : (s.flatMap (imageOf T)).length ≤ J.length) :
    mapWrite T s (A ++ J, A.length)
      = A ++ s.flatMap (imageOf T) ++ J.drop (s.flatMap (imageOf T)).length := by
  induction s generalizing A J with
  | nil => simp [mapWrite]
  | cons c s ih =>
    rw [List.forall_mem_cons] at hs
    rw [List.flatMap_cons, List.length_append] at hJ
    rw [mapWrite, List.flatMap_cons, List.length_append, ← List.append_assoc, ← List.drop_drop]
    split
    · -- a valid character is its own image
      rename_i hval
      rw [imageOf_of_eq (image_of_valid hval)] at hJ ⊢
      cases J with
      | nil =>
        rw [List.length_singleton, Nat.add_comm] at hJ
        exact absurd hJ (Nat.not_succ_le_zero _)
      | cons j J =>
        have hJ' : (s.flatMap (imageOf T)).length ≤ J.length := by
          rw [List.length_singleton, List.length_cons, Nat.add_comm] at hJ
          exact Nat.le_of_add_le_add_right hJ
        have h := ih (A := A ++ [c]) hs.2 hJ'
        rw [List.length_append, List.length_singleton, List.append_assoc A] at h
        rw [Buffer.set_append rfl]
        exact h
    · -- a mapping string is copied out of the table
      rename_i hval
      have himage : imageOf T c
          = mappingString (mappingAt T (idnaLookup T c)).length (mappingAt T (idnaLookup T c)) :=
        imageOf_of_eq (image_of_mapped hval hs.1)
      have hle : (mappingString (mappingAt T (idnaLookup T c)).length
          (mappingAt T (idnaLookup T c))).length ≤ J.length := by
        rw [← himage]
        exact (Nat.le_add_right _ _).trans hJ
      show mapWrite T s (writeMapping _ (mappingAt T (idnaLookup T c)) (A ++ J, A.length)) = _
      rw [writeMapping_eq hle, ← List.length_append, ← himage]
      apply ih hs.2
      rw [List.length_drop]
      omega

/-- Both passes, behind the check of the tables. -/
theorem map_eq (htables : T.ensureTables = true) (s : U32String) :
    map T s = (mapSize T s 0).map fun k => mapWrite T s (List.replicate k 0, 0) := by
  rw [map, htables]
  cases mapSize T s 0 with
  | none => rfl
  | some k => rfl

/-- **`map` concatenates the images**, and fails where there is none. -/
theorem map_eq_some :
    map T s = some m ↔ T.ensureTables = true ∧ (∀ c ∈ s, (image T c).isSome) ∧
      m = s.flatMap (imageOf T) := by
  by_cases htables : T.ensureTables = true
  · rw [map_eq htables, and_iff_right htables]
    rcases h : mapSize T s 0 with - | k
    · rw [Option.eq_none_iff_forall_ne_some] at h
      apply iff_of_false (by simp)
      rintro ⟨hs, -⟩
      exact h _ (mapSize_eq_some.mpr ⟨hs, rfl⟩)
    · obtain ⟨hs, hk⟩ := mapSize_eq_some.mp h
      rw [Nat.zero_add] at hk
      have hw := mapWrite_eq (A := []) (J := List.replicate k 0) hs (by simp [hk])
      rw [List.nil_append, List.nil_append, List.length_nil, ← hk, List.drop_replicate,
        Nat.sub_self, List.replicate_zero, List.append_nil] at hw
      rw [Option.map_some, hw, Option.some.injEq]
      exact ⟨fun h => ⟨hs, h.symm⟩, fun h => h.2.symm⟩
  · rw [Bool.not_eq_true] at htables
    rw [map, htables]
    simp

/-- A string of characters that map to themselves. -/
theorem map_eq_self (htables : T.ensureTables = true) (h : ∀ c ∈ s, image T c = some [c]) :
    map T s = some s := by
  refine map_eq_some.mpr ⟨htables, fun c hc => by rw [h c hc]; rfl, ?_⟩
  rw [List.flatMap_congr fun c hc => imageOf_of_eq (h c hc)]
  exact (List.flatMap_singleton' s).symm

/-! ### Lower case -/

/-- The lower case of an ASCII letter. -/
def toLower (c : UInt8) : UInt8 :=
  if 0x41 ≤ c.toNat ∧ c.toNat ≤ 0x5A then toChar (c.toNat + 0x20) else c

/-- `asciiMapWord` in one lane. -/
def lowerLane (x : ℕ) : ℕ := x ^^^ ((((x + 63) ^^^ (x + 37)) &&& 128) >>> 2)

theorem toChar_lowerLane {b : UInt8} (hb : b.toNat < 0x80) :
    toChar (lowerLane b.toNat) = toLower b := by
  have h : ∀ x < 0x80, lowerLane x = if 0x41 ≤ x ∧ x ≤ 0x5A then x + 0x20 else x := by decide
  rw [h _ hb, toLower]
  split
  · rfl
  · exact toChar_toNat b

theorem lowerLane_lt {x : ℕ} (hx : x < 0x80) : lowerLane x < 2 ^ 8 := by
  revert x
  decide

/-- **The word does what its lanes do**, if no lane has its high bit set:
then neither sum carries into the next lane, and the shift moves bit 7 to
bit 5 of its own lane. -/
theorem toNat_asciiMapWord {word : UInt64} {s : List ℕ} (hlen : s.length = 8)
    (hs : ∀ x ∈ s, x < 0x80) (hw : word.toNat = pack 8 s) :
    (asciiMapWord word).toNat = pack 8 (s.map lowerLane) := by
  have hA := toNat_broadcast (128 - 0x41) hlen
  have hZ := toNat_broadcast (128 - 0x5A - 1) hlen
  have h80 := toNat_broadcast 0x80 hlen
  have hword : word.toNat = pack 8 (s.map fun x => x) := by rw [hw, List.map_id']
  have hsum : ∀ v < 0x80, ∀ b : UInt64, b.toNat = pack 8 (s.map fun _ => v) →
      (word + b).toNat = pack 8 (s.map fun x => x + v) := by
    intro v hv b hb
    rw [UInt64.toNat_add, hword, hb, pack_map_add]
    apply Nat.mod_eq_of_lt
    have hlt := pack_lt (w := 8) (s := s.map fun x => x + v) (by
      intro y hy
      obtain ⟨x, hx, rfl⟩ := List.mem_map.mp hy
      have := hs x hx
      omega)
    rwa [List.length_map, hlen] at hlt
  have hflag : ∀ x ∈ s, ((x + 63) ^^^ (x + 37)) < 2 ^ 8 := by
    intro x hx
    have := hs x hx
    exact Nat.xor_lt_two_pow (by omega) (by omega)
  have hand : ∀ x, (((x + 63) ^^^ (x + 37)) &&& 128) < 2 ^ 8 := fun x =>
    Nat.and_lt_two_pow _ (by decide)
  -- from the inside out: the two sums, the bit in which they differ, the shift
  rw [asciiMapWord, UInt64.toNat_xor, UInt64.toNat_shiftRight, UInt64.toNat_and, UInt64.toNat_xor,
    hsum 63 (by decide) _ hA, hsum 37 (by decide) _ hZ, h80, hword]
  rw [lanewise_xor.pack_map (w := 8) (s := s) (f := (· + 63)) (g := (· + 37))
    (fun x hx => by have := hs x hx; omega) (fun x hx => by have := hs x hx; omega)]
  rw [lanewise_and.pack_map (w := 8) (s := s) hflag (fun _ _ => by decide)]
  show _ ^^^ (_ >>> 2) = _
  rw [pack_map_shiftRight (k := 2) fun x _ => ?_]
  · apply lanewise_xor.pack_map
    · intro x hx
      have := hs x hx
      omega
    · intro x _
      exact (Nat.shiftRight_le _ _).trans_lt (hand x)
  · -- a multiple of 128 is a multiple of 4
    apply Nat.dvd_of_mod_eq_zero
    rw [Nat.and_mod_two_pow]
    simp

theorem asciiMapBlock_eq (o : ByteOrder) {input : Bytes} (hlen : input.length ≤ 8)
    (h : ∀ b ∈ input, b.toNat < 0x80) : asciiMapBlock o input = input.map toLower := by
  set padded := input ++ List.replicate (8 - input.length) 0 with hpadded
  have hplen : padded.length = 8 := by
    rw [hpadded, List.length_append, List.length_replicate]
    omega
  -- the zeros behind a partial block are ASCII too
  have hp : ∀ b ∈ padded, b.toNat < 0x80 := by
    intro b hb
    rcases List.mem_append.mp hb with hb | hb
    · exact h b hb
    · rw [List.eq_of_mem_replicate hb]
      decide
  have hlanes : ∀ x ∈ (o.arrange padded).map UInt8.toNat, x < 0x80 := by
    intro x hx
    obtain ⟨b, hb, rfl⟩ := List.mem_map.mp hx
    exact hp b (ByteOrder.mem_arrange.mp hb)
  have hword := toNat_asciiMapWord (by rw [List.length_map, ByteOrder.length_arrange, hplen])
    hlanes (toNat_loadWord hplen.le)
  rw [asciiMapBlock, storeWord_of_lanes hplen (fun b hb => lowerLane_lt (hp b hb)) hword,
    hpadded, List.map_append, List.take_left' (by rw [List.length_map])]
  exact List.map_congr_left fun b hb => toChar_lowerLane (h b hb)

/-- **`ascii_map` is the bytewise lower case**, on either byte order. -/
theorem asciiMap_eq (o : ByteOrder) {input : Bytes} (h : ∀ b ∈ input, b.toNat < 0x80) :
    asciiMap o input = input.map toLower := by
  suffices hloop : ∀ (blocks : ℕ) (input : Bytes), blocks = input.length / 8 →
      (∀ b ∈ input, b.toNat < 0x80) → asciiMapLoop o blocks input = input.map toLower from
    hloop _ input rfl h
  intro blocks
  induction blocks with
  | zero =>
    intro input hlen h
    rw [asciiMapLoop, asciiMapBlock_eq o (by omega) h]
  | succ blocks ih =>
    intro input hlen h
    have hle : 8 ≤ input.length := by omega
    rw [asciiMapLoop, if_pos hle, asciiMapBlock_eq o (List.length_take_le _ _)
      fun b hb => h b (List.mem_of_mem_take hb),
      ih (input.drop 8) (by rw [List.length_drop]; omega)
        fun b hb => h b (List.mem_of_mem_drop hb),
      ← List.map_append, List.take_append_drop]

/-- **`ascii_map` byte by byte**: in a full block or in the tail, each letter
from `A` to `Z` becomes the small letter and any other byte stays. -/
theorem asciiMap_lowercases (o : ByteOrder) {input : Bytes} (h : ∀ b ∈ input, b.toNat < 0x80) :
    (asciiMap o input).length = input.length ∧
      ∀ (i : ℕ) (b : UInt8), input[i]? = some b →
        (0x41 ≤ b.toNat ∧ b.toNat ≤ 0x5A →
          ∃ b', (asciiMap o input)[i]? = some b' ∧ b'.toNat = b.toNat + 0x20) ∧
        (¬ (0x41 ≤ b.toNat ∧ b.toNat ≤ 0x5A) → (asciiMap o input)[i]? = some b) := by
  rw [asciiMap_eq o h]
  refine ⟨List.length_map _, fun i b hi => ⟨?_, ?_⟩⟩
  · intro hb
    refine ⟨toLower b, ?_, ?_⟩
    · rw [List.getElem?_map, hi]
      rfl
    · rw [toLower, if_pos hb, toNat_toChar (by omega)]
  · intro hb
    rw [List.getElem?_map, hi, Option.map_some, toLower, if_neg hb]

/-- `AZaz@[09` and `Bc`, a full block and one that is not, on a big-endian host. -/
theorem asciiMap_lowercases_big :
    (asciiMap .big [0x41, 0x5A, 0x61, 0x7A, 0x40, 0x5B, 0x30, 0x39, 0x42, 0x63]).length = 10 ∧
      (∃ b, (asciiMap .big
          [0x41, 0x5A, 0x61, 0x7A, 0x40, 0x5B, 0x30, 0x39, 0x42, 0x63])[1]? = some b ∧
        b.toNat = 0x7A) ∧
      (asciiMap .big [0x41, 0x5A, 0x61, 0x7A, 0x40, 0x5B, 0x30, 0x39, 0x42, 0x63])[5]?
        = some 0x5B ∧
      ∃ b, (asciiMap .big
          [0x41, 0x5A, 0x61, 0x7A, 0x40, 0x5B, 0x30, 0x39, 0x42, 0x63])[8]? = some b ∧
        b.toNat = 0x62 := by
  have hascii : ∀ b ∈ ([0x41, 0x5A, 0x61, 0x7A, 0x40, 0x5B, 0x30, 0x39, 0x42, 0x63] : Bytes),
      b.toNat < 0x80 :=
    isAsciiBytes_iff.mp (by decide)
  obtain ⟨hlen, hbytes⟩ := asciiMap_lowercases .big hascii
  exact ⟨hlen, (hbytes 1 0x5A rfl).1 (by decide), (hbytes 5 0x5B rfl).2 (by decide),
    (hbytes 8 0x42 rfl).1 (by decide)⟩

end AdaIdna
