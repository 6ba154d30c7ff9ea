/-
AdaIdna/PunycodeWire.lean

The whole Punycode string: basic code points, delimiter, deltas.

`wire t ds` is the string with the basic code points `t` and the deltas `ds`.
The encoder produces such strings only (`utf32ToPunycode_eq_some`), the
decoder accepts such strings only (`exists_wire`) and reads them as a run of
the insertion code (`punycodeToUtf32_wire`).  The checker is the decoder seen
through a window on the first four code points (`verifyLoop_eq`), but for a
delimiter in front (`verifyPunycode_eq`).
-/
import AdaIdna.PunycodeRun

namespace AdaIdna

open InsertionCode

/-! ### The last delimiter -/

variable {c : UInt8} {p : Bytes}

theorem findLastOf_eq_none (h : c ∉ p) : findLastOf c p = none := by
  induction p with
  | nil => rfl
  | cons x p ih =>
    rw [List.mem_cons, not_or] at h
    rw [findLastOf, ih h.2]
    exact if_neg (Ne.symm h.1)

theorem findLastOf_append {A B : Bytes} (h : c ∉ B) :
    findLastOf c (A ++ c :: B) = some A.length := by
  induction A with
  | nil =>
    rw [List.nil_append, findLastOf, findLastOf_eq_none h]
    exact if_pos rfl
  | cons a A ih =>
    rw [List.cons_append, findLastOf, ih]
    rfl

theorem findLastOf_eq_some {e : ℕ} (h : findLastOf c p = some e) :
    p = p.take e ++ c :: p.drop (e + 1) ∧ e < p.length ∧ c ∉ p.drop (e + 1) := by
  by_cases hm : c ∈ p
  · -- the tail behind the last occurrence
    obtain ⟨A, B, rfl, hB⟩ : ∃ A B, p = A ++ c :: B ∧ c ∉ B := by
      obtain ⟨A, B, hrev, hA⟩ := List.eq_append_cons_of_mem (List.mem_reverse.mpr hm)
      refine ⟨B.reverse, A.reverse, ?_, fun h => hA (List.mem_reverse.mp h)⟩
      rw [← List.reverse_reverse p, hrev]
      simp
    rw [findLastOf_append hB] at h
    obtain rfl := Option.some.inj h
    have hdrop : (A ++ c :: B).drop (A.length + 1) = B := by simp
    refine ⟨?_, by simp, ?_⟩
    · rw [hdrop, List.take_left]
    · rwa [hdrop]
  · rw [findLastOf_eq_none hm] at h
    cases h

/-! ### The whole string -/

/-- The Punycode string with the basic code points `t` and the deltas `ds`. -/
def wire (t : U32String) (ds : List ℕ) : Bytes :=
  t.map toChar ++ (if 0 < t.length then [delimiter] else [])
    ++ emit initialBias t.length true ds

theorem wire_nil (ds : List ℕ) : wire [] ds = emit initialBias 0 true ds := rfl

theorem wire_cons (a : ℕ) (t : U32String) (ds : List ℕ) :
    wire (a :: t) ds
      = (a :: t).map toChar ++ delimiter :: emit initialBias (t.length + 1) true ds := by
  rw [wire, if_pos (by simp), List.append_assoc]
  rfl

/-- **The encoder**: basic code points, then the deltas of the input. -/
theorem utf32ToPunycode_eq_some {s : U32String} {out : Bytes} (hs : s.length ≤ int32Max) :
    utf32ToPunycode s out = some p ↔
      (∀ c ∈ s, IsScalar c) ∧ (∀ δ ∈ deltas 0x10FFFF initialN s, δ ≤ int32Max) ∧
        p = out ++ wire (s.filter (· < initialN)) (deltas 0x10FFFF initialN s) := by
  rw [utf32ToPunycode]
  by_cases hall : ∀ c ∈ s, IsScalar c
  · rw [if_pos (by simpa using hall)]
    have hout : ∀ q : Bytes, (if 0 < (s.filter (· < initialN)).length then q ++ [delimiter] else q)
        = q ++ (if 0 < (s.filter (· < initialN)).length then [delimiter] else []) := by
      intro q
      split
      · rfl
      · exact (List.append_nil q).symm
    show encodeLoop s _ s.length initialN ⟨0, initialBias, _, ite _ _ _⟩ = some p ↔ _
    rw [show (0x80 : ℕ) = initialN from rfl, hout, and_iff_right hall, wire,
      encodeLoop_eq_some (fun y hy => (hall y hy).1) hs (sync_start initialN s) (Nat.zero_le _)
        le_rfl (Nat.le_add_right s.length _), beq_self_eq_true]
    simp only [List.append_assoc]
    exact Iff.rfl
  · rw [if_neg (by simpa using hall)]
    simp [hall]

theorem rejectAce_eq_some {out r : U32String} :
    rejectAce out = some r ↔ isAcePrefix out = false ∧ r = out := by
  rw [rejectAce]
  split
  · rename_i h
    simp [h]
  · rename_i h
    simp [h, eq_comm]

theorem isAsciiBytes_map_toChar {t : U32String} (ht : ∀ x ∈ t, x < initialN) :
    isAsciiBytes (t.map toChar) = true := by
  rw [isAsciiBytes_iff]
  intro c hc
  obtain ⟨x, hx, rfl⟩ := List.mem_map.mp hc
  have : x < 128 := ht x hx
  rw [toNat_toChar (by omega)]
  exact this

/-- **The decoder on a well-formed string.** -/
theorem punycodeToUtf32_wire {t r : U32String} {ds : List ℕ} (ht : ∀ x ∈ t, x < initialN)
    (hl : t.length + ds.length ≤ int32Max) :
    punycodeToUtf32 (wire t ds) [] = some r ↔
      Fits (start initialN t) ds ∧ r = (run (start initialN t) ds).out ∧
        isAcePrefix r = false := by
  have hloop : ∀ {fuel : ℕ} {r : U32String}, ds.length ≤ fuel →
      (decodeLoop fuel (emit initialBias t.length true ds) t t.length initialN 0 initialBias
        = some r ↔ Fits (start initialN t) ds ∧ r = (run (start initialN t) ds).out) :=
    fun hf => decodeLoop_emit (σ := start initialN t) initialBias_le (Nat.zero_le _)
      (show initialN ≤ int32Max by decide) le_rfl hl hf
  have hend : ∀ {o : Option U32String},
      (∀ r, o = some r ↔ Fits (start initialN t) ds ∧ r = (run (start initialN t) ds).out) →
      (o.bind rejectAce = some r ↔ Fits (start initialN t) ds
        ∧ r = (run (start initialN t) ds).out ∧ isAcePrefix r = false) := by
    intro o ho
    simp only [Option.bind_eq_some_iff, ho, rejectAce_eq_some]
    constructor
    · rintro ⟨a, ⟨hfit, rfl⟩, hace, rfl⟩
      exact ⟨hfit, rfl, hace⟩
    · rintro ⟨hfit, rfl, hace⟩
      exact ⟨_, ⟨hfit, rfl⟩, hace, rfl⟩
  cases t with
  | nil =>
    -- no delimiter anywhere
    rw [wire_nil, punycodeToUtf32, findLastOf_eq_none (delimiter_not_mem_emit _ _ _ _)]
    exact hend fun r => hloop (length_le_emit _ _ _ _)
  | cons a t =>
    -- the delimiter behind the basic code points is the last one
    have hlen : ((a :: t).map toChar).length = t.length + 1 := by simp
    have htake : ∀ q : Bytes, ((a :: t).map toChar ++ q).take (t.length + 1)
        = (a :: t).map toChar := fun q => hlen ▸ List.take_left
    have hdrop : ∀ q : Bytes, ((a :: t).map toChar ++ q).drop (t.length + 1 + 1)
        = q.drop 1 := fun q => hlen ▸ List.drop_length_add_append 1
    rw [wire_cons, punycodeToUtf32, findLastOf_append (delimiter_not_mem_emit _ _ _ _), hlen]
    dsimp only
    rw [htake, hdrop, if_pos (isAsciiBytes_map_toChar ht), List.nil_append,
      map_toNat_map_toChar ht]
    exact hend fun r => hloop (length_le_emit _ _ _ _)

/-- **The decoder accepts well-formed strings only.** -/
theorem exists_wire {r : U32String} (hl : r.length ≤ int32Max)
    (h : punycodeToUtf32 p [] = some r) :
    ∃ t ds, (∀ x ∈ t, x < initialN) ∧ p = wire t ds ∧ r.length = t.length + ds.length := by
  have hloop : ∀ {t q : Bytes} {fuel : ℕ},
      decodeLoop fuel q (t.map UInt8.toNat) t.length initialN 0 initialBias = some r →
        ∃ ds, q = emit initialBias t.length true ds ∧ r.length = t.length + ds.length := by
    intro t q fuel hr
    have := exists_emit_of_decodeLoop (σ := start initialN (t.map UInt8.toNat)) initialBias_le
      (Nat.zero_le _) (show initialN ≤ int32Max by decide) le_rfl hl
      (show decodeLoop fuel q (t.map UInt8.toNat) (t.map UInt8.toNat).length initialN 0 initialBias
        = some r by rwa [List.length_map])
    rwa [show (start initialN (t.map UInt8.toNat)).out.length = t.length from
      List.length_map _] at this
  have hend : ∀ {o : Option U32String}, o.bind rejectAce = some r → o = some r := by
    intro o ho
    obtain ⟨a, ha, hr⟩ := Option.bind_eq_some_iff.mp ho
    rw [ha, (rejectAce_eq_some.mp hr).2]
  -- without a delimiter behind a basic code point, the deltas begin at once
  have hplain : (decodeLoop p.length p [] 0 initialN 0 initialBias).bind rejectAce = some r →
      ∃ t ds, (∀ x ∈ t, x < initialN) ∧ p = wire t ds ∧ r.length = t.length + ds.length := by
    intro h
    obtain ⟨ds, hds, hlen⟩ := hloop (t := []) (hend h)
    exact ⟨[], ds, by simp, hds, hlen⟩
  rw [punycodeToUtf32] at h
  split at h
  · rename_i e he
    obtain ⟨hp, hlt, -⟩ := findLastOf_eq_some he
    have htake : (p.take (e + 1)).length = e + 1 := List.length_take_of_le hlt.le
    dsimp only at h
    split at h
    · rename_i hascii
      obtain ⟨ds, hds, hlen⟩ := hloop (t := p.take (e + 1)) (by rw [htake]; exact hend h)
      have hmap := map_toChar_map_toNat (p.take (e + 1))
      refine ⟨(p.take (e + 1)).map UInt8.toNat, ds, ?_, ?_, ?_⟩
      · rintro x hx
        obtain ⟨c, hc, rfl⟩ := List.mem_map.mp hx
        exact isAsciiBytes_iff.mp hascii c hc
      · rw [wire, if_pos (by rw [List.length_map, htake]; omega), hmap, List.length_map, ← hds,
          List.append_assoc]
        exact hp
      · rw [hlen, List.length_map]
    · cases h
  · exact hplain h

/-- A byte stands for at most one code point. -/
theorem length_le_of_punycodeToUtf32 {r : U32String} (h : punycodeToUtf32 p [] = some r) :
    r.length ≤ p.length := by
  rw [punycodeToUtf32] at h
  split at h
  · rename_i e he
    have hlt := (findLastOf_eq_some he).2.1
    dsimp only at h
    split at h
    · obtain ⟨a, ha, hr⟩ := Option.bind_eq_some_iff.mp h
      have hle := (length_of_decodeLoop ha).2
      obtain rfl := (rejectAce_eq_some.mp hr).2
      rw [List.nil_append, List.length_map, List.length_take, List.length_drop] at hle
      omega
    · cases h
  · obtain ⟨a, ha, hr⟩ := Option.bind_eq_some_iff.mp h
    have hle := (length_of_decodeLoop ha).2
    obtain rfl := (rejectAce_eq_some.mp hr).2
    rwa [List.length_nil, Nat.zero_add] at hle

/-! ### The checker's window -/

/-- The first four code points, as the checker keeps them. -/
def window (out : U32String) : List ℕ := (out ++ [0, 0, 0, 0]).take 4

theorem insertFirst4_window {i : ℕ} (n : ℕ) {out : U32String} (hi : i ≤ out.length) :
    insertFirst4 i n (window out) = window (out.insertIdx i n) := by
  rcases Nat.lt_or_ge i 4 with h4 | h4
  · -- the window shifts behind the place of insertion
    rcases out with - | ⟨a, - | ⟨b, - | ⟨c, - | ⟨d, out⟩⟩⟩⟩ <;>
      rcases i with - | - | - | - | i <;>
      first
        | rfl
        | (simp only [List.length_nil, List.length_cons] at hi; omega)
  · -- behind the window nothing shows
    obtain ⟨i, rfl⟩ := Nat.exists_eq_add_of_le' h4
    rcases out with - | ⟨a, - | ⟨b, - | ⟨c, - | ⟨d, out⟩⟩⟩⟩
    case cons.cons.cons.cons =>
      rw [insertFirst4, if_neg (by omega)]
      rfl
    all_goals
      simp only [List.length_nil, List.length_cons] at hi
      omega

theorem window_push (out : U32String) (c : ℕ) :
    (if out.length < 4 then (window out).set out.length c else window out)
      = window (out ++ [c]) := by
  rcases out with - | ⟨a, - | ⟨b, - | ⟨d, - | ⟨e, out⟩⟩⟩⟩
  case cons.cons.cons.cons => exact if_neg (by simp)
  all_goals rfl

theorem asciiFirst4_window (input : Bytes) (out : U32String) :
    asciiFirst4 input (window out) out.length
      = (window (out ++ input.map UInt8.toNat), (out ++ input.map UInt8.toNat).length) := by
  induction input generalizing out with
  | nil => simp [asciiFirst4]
  | cons c input ih =>
    have := ih (out ++ [c.toNat])
    rw [List.length_append] at this
    rw [asciiFirst4, window_push, List.map_cons,
      List.append_cons out c.toNat (input.map UInt8.toNat)]
    exact this

/-- The checker's last test is the decoder's. -/
theorem window_ace (out : U32String) :
    (!(decide (4 ≤ out.length) && window out == acePrefix)) = (rejectAce out).isSome := by
  have key : (decide (4 ≤ out.length) && window out == acePrefix) = isAcePrefix out := by
    rcases out with - | ⟨a, - | ⟨b, - | ⟨c, - | ⟨d, out⟩⟩⟩⟩
    case cons.cons.cons.cons =>
      have hlen : decide (4 ≤ (a :: b :: c :: d :: out).length) = true := by simp
      rw [hlen, Bool.true_and, Bool.eq_iff_iff, isAcePrefix_iff]
      simp [window, acePrefix]
    all_goals
      rw [Bool.eq_iff_iff, isAcePrefix_iff]
      simp [acePrefix]
  rw [key, rejectAce]
  split <;> simp_all

/-- **The checker's loop is the decoder's**, seen through the window. -/
theorem verifyLoop_eq (fuel : ℕ) (bytes : Bytes) (out : U32String) (n i bias : ℕ) :
    verifyLoop fuel bytes (window out) out.length n i bias
      = ((decodeLoop fuel bytes out out.length n i bias).bind rejectAce).isSome := by
  induction fuel generalizing bytes out n i bias with
  | zero =>
    cases bytes with
    | nil => exact window_ace out
    | cons c bytes => rfl
  | succ fuel ih =>
    cases bytes with
    | nil => exact window_ace out
    | cons c bytes =>
      rw [verifyLoop, decodeLoop]
      rcases decodeDelta bias (c :: bytes) i 1 base with - | ⟨i', rest⟩
      · rfl
      · have hle : i' % (out.length + 1) ≤ out.length :=
          Nat.le_of_lt_succ (Nat.mod_lt _ (Nat.succ_pos _))
        dsimp only
        split
        · rfl
        · split
          · rfl
          · have := ih rest (out.insertIdx (i' % (out.length + 1))
              (n + i' / (out.length + 1))) (n + i' / (out.length + 1))
              (i' % (out.length + 1) + 1)
              (adapt (i' - i) (out.length + 1) (i == 0))
            rw [List.length_insertIdx_of_le_length hle] at this
            rw [insertFirst4_window _ hle, this]

/-! ### The checker and the decoder -/

/-- **The checker is the decoder**, unless the string begins with its last
delimiter. -/
theorem verifyPunycode_eq (h : findLastOf delimiter p ≠ some 0) :
    verifyPunycode p = (punycodeToUtf32 p []).isSome := by
  rcases e : findLastOf delimiter p with - | - | k
  · rw [verifyPunycode, punycodeToUtf32, e]
    exact verifyLoop_eq p.length p [] initialN 0 initialBias
  · exact absurd e h
  · have hlt := (findLastOf_eq_some e).2.1
    have hlen : ((p.take (k + 1)).map UInt8.toNat).length = k + 1 := by
      rw [List.length_map, List.length_take_of_le hlt.le]
    rw [verifyPunycode, punycodeToUtf32, e]
    dsimp only
    split
    · have := asciiFirst4_window (p.take (k + 1)) []
      rw [List.nil_append] at this
      rw [show asciiFirst4 (p.take (k + 1)) [0, 0, 0, 0] 0 = _ from this, List.nil_append]
      dsimp only
      rw [verifyLoop_eq, hlen]
    · rfl

/-- With the delimiter in front, the checker reads on behind it. -/
theorem verifyPunycode_delimiter (h : delimiter ∉ p) :
    verifyPunycode (delimiter :: p) = (punycodeToUtf32 p []).isSome := by
  rw [verifyPunycode, punycodeToUtf32, findLastOf_eq_none h,
    show findLastOf delimiter (delimiter :: p) = some 0 from findLastOf_append (A := []) h]
  exact verifyLoop_eq p.length p [] initialN 0 initialBias

/-- With the delimiter in front, the decoder stops. -/
theorem punycodeToUtf32_delimiter (h : delimiter ∉ p) :
    punycodeToUtf32 (delimiter :: p) [] = none := by
  rw [punycodeToUtf32,
    show findLastOf delimiter (delimiter :: p) = some 0 from findLastOf_append (A := []) h]
  rfl

end AdaIdna
