/-
AdaIdna/IdnaFlat.lean

What the generated mapping table says about each code point.

The source table gives every code point a `Status`.  The flat array of the
generator holds it as a number (`getElem?_buildFlat`): one of two sentinels, or
the offset of a mapping string, from which the reader gets the string back
(`mappingString_offset`).  So the number tells the status
(`valueOf_inj`).
-/
import AdaIdna.IdnaTable
import AdaIdna.MappingImage
import AdaIdna.Utf8Codec

namespace AdaIdna

/-! ### Statuses -/

/-- What the source table says about a code point; an ignored one is mapped to
the empty string. -/
inductive Status where
  | disallowed
  | valid
  | text (s : U32String)
  deriving DecidableEq

/-- What the code point is mapped to. -/
def Status.image (cp : ℕ) : Status → Option U32String
  | disallowed => none
  | valid => some [cp]
  | text s => some s

namespace IdnaTable

def Entry.Covers (e : Entry) (cp : ℕ) : Prop := e.cpStart ≤ cp ∧ cp ≤ e.cpEnd

instance (e : Entry) (cp : ℕ) : Decidable (e.Covers cp) := inferInstanceAs (Decidable (_ ∧ _))

def Entry.status (e : Entry) : Status :=
  match e.code with
  | .ignored => .text []
  | .valid => .valid
  | .disallowed => .disallowed
  | .mapped => .text e.seq

/-- Code points without an entry are disallowed. -/
def statusOf (entries : List Entry) (cp : ℕ) : Status :=
  match entries.find? fun e => e.Covers cp with
  | some e => e.status
  | none => .disallowed

/-- A mapping table: disjoint ranges of code points, mapped to scalar values
other than zero; from the start of the high ignored range on, nothing but
that range. -/
structure WellFormed (entries : List Entry) : Prop where
  le : ∀ e ∈ entries, e.cpStart ≤ e.cpEnd
  lt : ∀ e ∈ entries, e.cpEnd < codeSpace
  disjoint : entries.Pairwise fun e f => e.cpEnd < f.cpStart ∨ f.cpEnd < e.cpStart
  scalar : ∀ e ∈ entries, e.code = .mapped → ∀ c ∈ e.seq, IsScalar c ∧ c ≠ 0
  high_ignored : ∀ e ∈ entries, (highIgnored entries).1 ≤ e.cpStart →
    e.code = .ignored ∨ e.code = .disallowed
  high_contiguous : ∀ cp, (highIgnored entries).1 ≤ cp → cp < (highIgnored entries).2 →
    ∃ e ∈ entries, e.code = .ignored ∧ e.Covers cp

variable {entries : List Entry} {e : Entry} {cp c low : ℕ} {s s' : U32String} {rest : Bytes}

/-- An entry that covers a code point decides. -/
theorem statusOf_of_covers
    (hd : entries.Pairwise fun e f => e.cpEnd < f.cpStart ∨ f.cpEnd < e.cpStart)
    (he : e ∈ entries) (hc : e.Covers cp) : statusOf entries cp = e.status := by
  induction entries with
  | nil => cases he
  | cons f entries ih =>
    rw [List.pairwise_cons] at hd
    rw [statusOf, List.find?_cons]
    rcases List.mem_cons.mp he with rfl | he
    · rw [decide_eq_true hc]
    · have hf : ¬ f.Covers cp := by
        rintro ⟨hlo, hhi⟩
        obtain ⟨hlo', hhi'⟩ := hc
        have := hd.1 e he
        omega
      rw [decide_eq_false hf]
      exact ih hd.2 he

theorem statusOf_of_not_covers (h : ∀ e ∈ entries, ¬ e.Covers cp) :
    statusOf entries cp = .disallowed := by
  rw [statusOf, List.find?_eq_none.mpr]
  intro e he
  simpa using h e he

/-- A code point that is not disallowed has an entry. -/
theorem exists_covers (h : statusOf entries cp ≠ .disallowed) :
    ∃ e ∈ entries, e.Covers cp ∧ e.status = statusOf entries cp := by
  rcases hfind : entries.find? fun e => e.Covers cp with - | e
  · rw [statusOf, hfind] at h
    exact absurd rfl h
  · refine ⟨e, List.mem_of_find?_eq_some hfind, ?_, by rw [statusOf, hfind]⟩
    simpa using List.find?_some hfind

/-! ### Mapping strings -/

theorem encodeUtf8_eq (h : IsScalar c) : encodeUtf8 c = some (encodeChar c) := by
  have hC0 : ∀ x < 32, 0xC0 ||| x = 0xC0 + x := by decide
  have hE0 : ∀ x < 16, 0xE0 ||| x = 0xE0 + x := by decide
  have hF0 : ∀ x < 8, 0xF0 ||| x = 0xF0 + x := by decide
  have h80 : ∀ x < 64, 0x80 ||| x = 0x80 + x := by decide
  have hmask : ∀ x, x &&& 0x3F = x % 64 := fun x => Nat.and_two_pow_sub_one_eq_mod x 6
  have hlt : ∀ x, x % 64 < 64 := fun x => Nat.mod_lt x (by decide)
  have hbytes : ∀ {l : List ℕ}, (∀ v ∈ l, v < 0x100) → bytesOf l = some (l.map toChar) :=
    fun h => if_pos h
  have htop := h.1
  simp only [encodeUtf8, encodeChar, Nat.shiftRight_eq_div_pow, hmask, h80 _ (hlt _),
    ← Nat.lt_succ_iff]
  split
  · exact hbytes (by simp; omega)
  · split
    · rw [hC0 _ (by omega)]
      exact hbytes (by simp; omega)
    · split
      · rw [hE0 _ (by omega)]
        exact hbytes (by simp; omega)
      · rw [hF0 _ (by omega)]
        exact hbytes (by simp; omega)

theorem encodeSeq_eq (h : ∀ c ∈ s, IsScalar c) : encodeSeq s = some (AdaIdna.encodeUtf8 s) := by
  suffices hmap : s.mapM encodeUtf8 = some (s.map encodeChar) by
    rw [encodeSeq, hmap, Option.map_some, ← List.flatMap_def]
    rfl
  induction s with
  | nil => rfl
  | cons c s ih =>
    obtain ⟨hc, hs⟩ := List.forall_mem_cons.mp h
    rw [List.mapM_cons, encodeUtf8_eq hc, ih hs]
    rfl

/-- A mapping table has nothing that cannot be encoded. -/
theorem WellFormed.encodes (hw : WellFormed entries) : encodes entries = true := by
  refine List.all_eq_true.mpr fun e he => ?_
  by_cases hcode : e.code = .mapped
  · rw [encodeSeq_eq fun c hc => (hw.scalar e he hcode c hc).1]
    exact Bool.or_true _
  · rw [decide_eq_true hcode, Bool.true_or]

/-- `utf8_next` reads what the generator writes. -/
theorem utf8Next_encodeChar (h : IsScalar c) (rest : Bytes) :
    utf8Next (encodeChar c ++ rest) = (c, rest) := by
  obtain ⟨htop, -⟩ := h
  have htail : ∀ k, (toChar (0x80 + k % 64)).toNat % 64 = k % 64 := fun k => by
    rw [toNat_toChar (by omega)]
    omega
  rw [encodeChar]
  split
  · have hlead : (toChar c).toNat = c := toNat_toChar (by omega)
    simp only [utf8Next, byteAt, List.cons_append, List.headD_cons, hlead]
    rw [if_pos (by omega)]
    rfl
  · split
    · have hlead : (toChar (0xC0 + c / 64)).toNat = 0xC0 + c / 64 := toNat_toChar (by omega)
      simp only [utf8Next, byteAt, List.cons_append, List.headD_cons, hlead, fields_two,
        List.drop_succ_cons, List.drop_zero, htail]
      rw [if_neg (by omega), if_pos (by omega)]
      exact congrArg (·, rest) (by omega)
    · split
      · have hlead : (toChar (0xE0 + c / 4096)).toNat = 0xE0 + c / 4096 := toNat_toChar (by omega)
        simp only [utf8Next, byteAt, List.cons_append, List.headD_cons, hlead, fields_three,
          List.drop_succ_cons, List.drop_zero, htail]
        rw [if_neg (by omega), if_neg (by omega), if_pos (by omega)]
        exact congrArg (·, rest) (by omega)
      · have hlead : (toChar (0xF0 + c / 262144)).toNat = 0xF0 + c / 262144 :=
          toNat_toChar (by omega)
        simp only [utf8Next, byteAt, List.cons_append, List.headD_cons, hlead, fields_four,
          List.drop_succ_cons, List.drop_zero, htail]
        rw [if_neg (by omega), if_neg (by omega), if_neg (by omega)]
        exact congrArg (·, rest) (by omega)

/-- Only the character zero begins with a zero byte. -/
theorem byteAt_encodeChar_ne_zero (h : IsScalar c) (h0 : c ≠ 0) (rest : Bytes) :
    byteAt (encodeChar c ++ rest) ≠ 0 := by
  rcases Nat.lt_or_ge c 0x80 with hlt | hge
  · rw [encodeChar_of_lt hlt, List.cons_append, byteAt, List.headD_cons,
      toNat_toChar (by omega)]
    exact h0
  · obtain ⟨b, bs, heq, hb, -⟩ := exists_encodeChar_of_le hge h.1
    rw [heq, List.cons_append, byteAt, List.headD_cons]
    omega

/-- The string in front of a zero. -/
theorem mappingString_append (hs : ∀ c ∈ s, IsScalar c ∧ c ≠ 0) (rest : Bytes) (fuel : ℕ)
    (hfuel : s.length < fuel) :
    mappingString fuel (AdaIdna.encodeUtf8 s ++ 0 :: rest) = s := by
  induction s generalizing fuel with
  | nil =>
    obtain ⟨fuel, rfl⟩ : ∃ k, fuel = k + 1 := ⟨fuel - 1, by omega⟩
    exact if_pos rfl
  | cons c s ih =>
    obtain ⟨hc, hs⟩ := List.forall_mem_cons.mp hs
    rw [List.length_cons] at hfuel
    obtain ⟨fuel, rfl⟩ : ∃ k, fuel = k + 1 := ⟨fuel - 1, by omega⟩
    rw [mappingString, encodeUtf8_cons, List.append_assoc,
      if_neg (byteAt_encodeChar_ne_zero hc.1 hc.2 _), utf8Next_encodeChar hc.1,
      ih hs fuel (by omega)]

/-- What `utf8_table` holds for a string. -/
def utf8Entry (s : U32String) : Bytes := (encodeSeq s).getD [] ++ [0]

/-- The pool of mapping strings after some entries. -/
structure Mappings (entries : List Entry) (utf8 : Pool U32String UInt8) : Prop where
  stores : utf8.Stores 1 utf8Entry
  lookup_nil : utf8.lookup [] = some 0
  exists_lookup : ∀ e ∈ entries, e.code = .mapped → ∃ v, utf8.lookup e.seq = some v
  of_mem : ∀ s ∈ utf8.keys, s = [] ∨ ∃ e ∈ entries, e.code = .mapped ∧ e.seq = s

theorem mappings_buildMappings (entries : List Entry) :
    Mappings entries (buildMappings entries) := by
  induction entries using List.reverseRecOn with
  | nil =>
    refine ⟨fun k v hv => ?_, rfl, nofun, fun s hs => .inl (List.mem_singleton.mp hs)⟩
    have hv' := (Pool.lookup_append_singleton .empty [] k ignoredIdx [0]).symm.trans hv
    rw [Pool.lookup_empty, Option.none_or, Option.ite_none_right_eq_some] at hv'
    obtain ⟨rfl, hv'⟩ := hv'
    cases hv'
    exact ⟨[], [], rfl, rfl⟩
  | append_singleton entries e ih =>
    rw [buildMappings, List.foldl_append, List.foldl_cons, List.foldl_nil, ← buildMappings]
    split
    · rename_i hmapped
      refine ⟨ih.stores.insert (Nat.one_mul _).symm, Pool.lookup_insert_of_eq_some ih.lookup_nil,
        fun f hf hfm => ?_, fun s hs => ?_⟩
      · rcases List.mem_append.mp hf with hf | hf
        · obtain ⟨v, hv⟩ := ih.exists_lookup f hf hfm
          exact ⟨v, Pool.lookup_insert_of_eq_some hv⟩
        · rw [List.mem_singleton.mp hf]
          exact Pool.exists_lookup_insert_self _ _ _ _
      · rcases Pool.mem_keys_insert.mp hs with hs | rfl
        · refine (ih.of_mem s hs).imp_right fun ⟨f, hf, hfm⟩ => ?_
          exact ⟨f, List.mem_append_left _ hf, hfm⟩
        · exact .inr ⟨e, List.mem_append_right _ (List.mem_singleton_self e), hmapped, rfl⟩
    · rename_i hmapped
      refine ⟨ih.stores, ih.lookup_nil, fun f hf hfm => ?_, fun s hs => ?_⟩
      · rcases List.mem_append.mp hf with hf | hf
        · exact ih.exists_lookup f hf hfm
        · rw [List.mem_singleton.mp hf] at hfm
          exact absurd hfm hmapped
      · refine (ih.of_mem s hs).imp_right fun ⟨f, hf, hfm⟩ => ?_
        exact ⟨f, List.mem_append_left _ hf, hfm⟩

/-- **The reader finds the string of an offset.** -/
theorem mappingString_offset (hw : WellFormed entries) {v : ℕ}
    (hv : (buildMappings entries).lookup s = some v) :
    v < (buildMappings entries).data.length ∧
      mappingString ((buildMappings entries).data.drop v).length
        ((buildMappings entries).data.drop v) = s := by
  have hm := mappings_buildMappings entries
  have hs : ∀ c ∈ s, IsScalar c ∧ c ≠ 0 := by
    have hkey : s ∈ (buildMappings entries).keys := by
      by_contra hnot
      rw [Pool.lookup_eq_none_iff.mpr hnot] at hv
      cases hv
    rcases hm.of_mem s hkey with rfl | ⟨e, he, hmapped, rfl⟩
    · exact nofun
    · exact hw.scalar e he hmapped
  obtain ⟨pre, post, hdata, hlen⟩ := hm.stores s v hv
  rw [Nat.one_mul] at hlen
  have hdrop : (buildMappings entries).data.drop v = AdaIdna.encodeUtf8 s ++ 0 :: post := by
    rw [hdata, ← hlen, List.drop_left, utf8Entry, encodeSeq_eq fun c hc => (hs c hc).1,
      List.append_assoc]
    rfl
  constructor
  · rw [hdata, ← hlen, List.length_append, utf8Entry, List.length_append, List.length_append,
      List.length_singleton]
    omega
  · rw [hdrop]
    apply mappingString_append hs post _
    have := length_le_encodeUtf8 s
    rw [List.length_append, List.length_cons]
    omega

/-! ### The flat array -/

/-- The number that stands for a status. -/
def valueOf (utf8 : Pool U32String UInt8) : Status → ℕ
  | .disallowed => sentinelDisallowed
  | .valid => sentinelValid
  | .text s => (utf8.lookup s).getD 0

theorem entryValue_eq {utf8 : Pool U32String UInt8} (h : utf8.lookup [] = some 0) (e : Entry) :
    entryValue utf8 e = valueOf utf8 e.status := by
  rw [entryValue, Entry.status]
  cases e.code with
  | ignored => rw [valueOf, h]; rfl
  | valid => rfl
  | disallowed => rfl
  | mapped => rfl

theorem getElem?_fillEntry (utf8 : Pool U32String UInt8) {flat : List ℕ} (hlen : flat.length = low)
    (e : Entry) (hcp : cp < low) :
    (fillEntry utf8 low flat e)[cp]?
      = if e.Covers cp then some (entryValue utf8 e) else flat[cp]? := by
  rw [fillEntry, Nat.max_zero, Buffer.getElem?_foldl_set]
  refine if_congr ?_ rfl rfl
  rw [Entry.Covers]
  omega

theorem length_fillEntry (utf8 : Pool U32String UInt8) (flat : List ℕ) (e : Entry) :
    (fillEntry utf8 low flat e).length = flat.length := Buffer.length_foldl_set _ _ _

theorem statusOf_append_singleton_of_not_covers (h : ¬ e.Covers cp) :
    statusOf (entries ++ [e]) cp = statusOf entries cp := by
  have hnone : ([e].find? fun e => decide (e.Covers cp)) = none := by
    rw [List.find?_cons, decide_eq_false h]
    rfl
  rw [statusOf, List.find?_append, hnone, Option.or_none]
  rfl

/-- Entries fill the array with the numbers of their statuses. -/
theorem foldl_fillEntry {utf8 : Pool U32String UInt8} (h0 : utf8.lookup [] = some 0)
    (hd : entries.Pairwise fun e f => e.cpEnd < f.cpStart ∨ f.cpEnd < e.cpStart) :
    (entries.foldl (fillEntry utf8 low) (List.replicate low sentinelDisallowed)).length = low ∧
      ∀ cp < low, (entries.foldl (fillEntry utf8 low) (List.replicate low sentinelDisallowed))[cp]?
        = some (valueOf utf8 (statusOf entries cp)) := by
  induction entries using List.reverseRecOn with
  | nil =>
    refine ⟨List.length_replicate, fun cp hcp => ?_⟩
    rw [List.foldl_nil, List.getElem?_replicate_of_lt hcp]
    rfl
  | append_singleton entries e ih =>
    obtain ⟨hlen, hget⟩ := ih (List.pairwise_append.mp hd).1
    rw [List.foldl_append, List.foldl_cons, List.foldl_nil]
    refine ⟨by rw [length_fillEntry, hlen], fun cp hcp => ?_⟩
    rw [getElem?_fillEntry utf8 hlen e hcp]
    split
    · rename_i hc
      rw [entryValue_eq h0, statusOf_of_covers hd (by simp) hc]
    · rename_i hc
      rw [hget cp hcp, statusOf_append_singleton_of_not_covers hc]

theorem length_buildFlat (hw : WellFormed entries) (low : ℕ) :
    (buildFlat entries low).length = low :=
  (foldl_fillEntry (mappings_buildMappings entries).lookup_nil hw.disjoint).1

/-- **The flat array** holds the numbers of the statuses. -/
theorem getElem?_buildFlat (hw : WellFormed entries) (hcp : cp < low) :
    (buildFlat entries low)[cp]? = some (valueOf (buildMappings entries) (statusOf entries cp)) :=
  (foldl_fillEntry (mappings_buildMappings entries).lookup_nil hw.disjoint).2 cp hcp

/-- A string to which a code point is mapped has a place. -/
theorem exists_lookup_of_statusOf (h : statusOf entries cp = .text s) :
    ∃ v, (buildMappings entries).lookup s = some v := by
  have hm := mappings_buildMappings entries
  have hne : statusOf entries cp ≠ .disallowed := by
    rw [h]
    nofun
  obtain ⟨e, he, -, hstatus⟩ := exists_covers hne
  rw [h, Entry.status] at hstatus
  rcases hcode : e.code with - | - | - | -
  · rw [hcode] at hstatus
    cases hstatus
    exact ⟨0, hm.lookup_nil⟩
  · rw [hcode] at hstatus
    cases hstatus
  · rw [hcode] at hstatus
    cases hstatus
  · rw [hcode] at hstatus
    cases hstatus
    exact hm.exists_lookup e he hcode

/-- The number of a string is its offset, and none of the sentinels. -/
theorem valueOf_text (hw : WellFormed entries)
    (hsize : (buildMappings entries).data.length < 0xFFFD)
    (h : statusOf entries cp = .text s) :
    (buildMappings entries).lookup s = some (valueOf (buildMappings entries) (.text s)) ∧
      valueOf (buildMappings entries) (.text s) < 0xFFFD := by
  obtain ⟨v, hv⟩ := exists_lookup_of_statusOf h
  have hlt := (mappingString_offset hw hv).1
  rw [valueOf, hv]
  exact ⟨rfl, hlt.trans hsize⟩

/-- **The number tells the status.** -/
theorem valueOf_inj (hw : WellFormed entries) (hsize : (buildMappings entries).data.length < 0xFFFD)
    {cp' : ℕ} (h : valueOf (buildMappings entries) (statusOf entries cp)
      = valueOf (buildMappings entries) (statusOf entries cp')) :
    statusOf entries cp = statusOf entries cp' := by
  have hdis : ∀ {c t}, statusOf entries c = .text t →
      valueOf (buildMappings entries) (.text t) ≠ sentinelDisallowed := fun h heq =>
    absurd (heq.symm.trans_lt (valueOf_text hw hsize h).2) (by decide)
  have hval : ∀ {c t}, statusOf entries c = .text t →
      valueOf (buildMappings entries) (.text t) ≠ sentinelValid := fun h heq =>
    absurd (heq.symm.trans_lt (valueOf_text hw hsize h).2) (by decide)
  cases hst : statusOf entries cp with
  | disallowed =>
    cases hst' : statusOf entries cp' with
    | disallowed => rfl
    | valid =>
      rw [hst, hst'] at h
      cases h
    | text s' =>
      rw [hst, hst'] at h
      exact absurd h.symm (hdis hst')
  | valid =>
    cases hst' : statusOf entries cp' with
    | disallowed =>
      rw [hst, hst'] at h
      cases h
    | valid => rfl
    | text s' =>
      rw [hst, hst'] at h
      exact absurd h.symm (hval hst')
  | text s =>
    cases hst' : statusOf entries cp' with
    | disallowed =>
      rw [hst, hst'] at h
      exact absurd h (hdis hst)
    | valid =>
      rw [hst, hst'] at h
      exact absurd h (hval hst)
    | text s' =>
      rw [hst, hst'] at h
      -- strings at one offset
      have hs := (valueOf_text hw hsize hst).1
      have hs' := (valueOf_text hw hsize hst').1
      rw [← h] at hs'
      rw [← (mappingString_offset hw hs).2, (mappingString_offset hw hs').2]

end IdnaTable

end AdaIdna
