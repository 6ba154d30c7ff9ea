/-
AdaIdna/Lib/Pool.lean

Storing every distinct thing once.

A pool is a dictionary of places and the data that the places point into.
Inserting a key whose content is not stored yet appends the content and
records its place; a key that is there already changes nothing.  So places
never change, and every key finds its content where it was put, however many
others follow (`Stores.insert`, `lookup_insert_of_eq_some`).
-/
import Mathlib.Tactic

/-- A dictionary, in the order of insertion, and what it points into. -/
structure Pool (κ β : Type) where
  places : List (κ × ℕ)
  data : List β

namespace Pool

variable {κ β : Type} [DecidableEq κ] {p : Pool κ β} {k k' : κ} {place v v' unit step j : ℕ}
  {xs : List β} {content : κ → List β}

/-- A pool without keys. -/
def empty : Pool κ β := ⟨[], []⟩

def lookup (p : Pool κ β) (k : κ) : Option ℕ := p.places.lookup k

/-- A new key, its place and its content. -/
def insert (p : Pool κ β) (k : κ) (place : ℕ) (xs : List β) : Pool κ β :=
  if (p.lookup k).isSome then p else ⟨p.places ++ [(k, place)], p.data ++ xs⟩

def keys (p : Pool κ β) : List κ := p.places.map Prod.fst

omit [DecidableEq κ] in
theorem length_keys (p : Pool κ β) : p.keys.length = p.places.length := List.length_map _

theorem insert_of_mem (h : p.lookup k = some v) : p.insert k place xs = p := by
  rw [insert, h]
  exact if_pos rfl

theorem insert_of_not_mem (h : p.lookup k = none) :
    p.insert k place xs = ⟨p.places ++ [(k, place)], p.data ++ xs⟩ := by
  rw [insert, h]
  rfl

theorem lookup_empty (k : κ) : (empty : Pool κ β).lookup k = none := rfl

theorem lookup_append_singleton (p : Pool κ β) (k k' : κ) (place : ℕ) (data : List β) :
    lookup ⟨p.places ++ [(k, place)], data⟩ k'
      = (p.lookup k').or (if k' = k then some place else none) := by
  rw [lookup, List.lookup_append, ← lookup, List.lookup_cons, List.lookup_nil]
  by_cases hk : k' = k
  · rw [if_pos hk, hk, beq_self_eq_true]
  · rw [if_neg hk, beq_false_of_ne hk]

/-- What is in the pool keeps its place. -/
theorem lookup_insert_of_eq_some (h : p.lookup k' = some v) :
    (p.insert k place xs).lookup k' = some v := by
  rcases hk : p.lookup k with - | w
  · rw [insert_of_not_mem hk, lookup_append_singleton, h]
    rfl
  · rw [insert_of_mem hk, h]

theorem exists_lookup_insert_self (p : Pool κ β) (k : κ) (place : ℕ) (xs : List β) :
    ∃ v, (p.insert k place xs).lookup k = some v := by
  rcases hk : p.lookup k with - | w
  · rw [insert_of_not_mem hk, lookup_append_singleton, hk, if_pos rfl]
    exact ⟨place, rfl⟩
  · rw [insert_of_mem hk]
    exact ⟨w, hk⟩

theorem lookup_eq_none_iff : p.lookup k = none ↔ k ∉ p.keys := by
  rw [lookup, List.lookup_eq_none_iff, keys, List.mem_map]
  constructor
  · rintro h ⟨q, hq, rfl⟩
    simpa using h q hq
  · intro h q hq
    rw [bne_iff_ne]
    rintro rfl
    exact h ⟨q, hq, rfl⟩

theorem keys_insert :
    (p.insert k place xs).keys = if k ∈ p.keys then p.keys else p.keys ++ [k] := by
  split
  · rename_i hk
    rcases h : p.lookup k with - | w
    · exact absurd hk (lookup_eq_none_iff.mp h)
    · rw [insert_of_mem h]
  · rename_i hk
    rw [insert_of_not_mem (lookup_eq_none_iff.mpr hk), keys, List.map_append]
    rfl

theorem mem_keys_insert : k' ∈ (p.insert k place xs).keys ↔ k' ∈ p.keys ∨ k' = k := by
  rw [keys_insert]
  split
  · rename_i hk
    exact ⟨Or.inl, fun h => h.elim id fun h => h ▸ hk⟩
  · rw [List.mem_append, List.mem_singleton]

theorem nodup_keys_insert (h : p.keys.Nodup) : (p.insert k place xs).keys.Nodup := by
  rw [keys_insert]
  split
  · exact h
  · rename_i hk
    rw [List.nodup_append]
    refine ⟨h, List.nodup_singleton k, fun a ha b hb => ?_⟩
    rw [List.mem_singleton.mp hb]
    exact fun hab => hk (hab ▸ ha)

theorem mem_data_insert {x : β} (h : x ∈ (p.insert k place xs).data) : x ∈ p.data ∨ x ∈ xs := by
  rcases hk : p.lookup k with - | w
  · rw [insert_of_not_mem hk] at h
    exact List.mem_append.mp h
  · rw [insert_of_mem hk] at h
    exact .inl h

/-! ### Contents -/

/-- Every key finds its content at its place, places being counted in units. -/
def Stores (unit : ℕ) (content : κ → List β) (p : Pool κ β) : Prop :=
  ∀ k v, p.lookup k = some v →
    ∃ pre post, p.data = pre ++ (content k ++ post) ∧ pre.length = unit * v

theorem stores_empty : (empty : Pool κ β).Stores unit content := nofun

theorem Stores.insert (h : p.Stores unit content) (hplace : p.data.length = unit * place) :
    (p.insert k place (content k)).Stores unit content := by
  rcases hk : p.lookup k with - | w
  · rw [insert_of_not_mem hk]
    intro k' v hv
    rw [lookup_append_singleton] at hv
    dsimp only
    rcases hk' : p.lookup k' with - | w
    · rw [hk', Option.none_or, Option.ite_none_right_eq_some] at hv
      obtain ⟨rfl, hv⟩ := hv
      cases hv
      exact ⟨p.data, [], by rw [List.append_nil], hplace⟩
    · rw [hk'] at hv
      cases hv
      obtain ⟨pre, post, hdata, hlen⟩ := h k' v hk'
      exact ⟨pre, post ++ content k, by rw [hdata]; simp, hlen⟩
  · rw [insert_of_mem hk]
    exact h

theorem Stores.getElem? (h : p.Stores unit content) (hv : p.lookup k = some v)
    (hj : j < (content k).length) : p.data[unit * v + j]? = (content k)[j]? := by
  obtain ⟨pre, post, hdata, hlen⟩ := h k v hv
  rw [hdata, List.getElem?_append_right (by omega), ← hlen, Nat.add_sub_cancel_left,
    List.getElem?_append_left hj]

/-! ### Places -/

/-- The places are the multiples of `step`, in the order of insertion. -/
def Spaced (step : ℕ) (p : Pool κ β) : Prop :=
  p.places.map Prod.snd = (List.range p.places.length).map (step * ·)

omit [DecidableEq κ] in
theorem spaced_empty : (empty : Pool κ β).Spaced step := rfl

theorem Spaced.insert (h : p.Spaced step) (hplace : place = step * p.places.length) :
    (p.insert k place xs).Spaced step := by
  rcases hk : p.lookup k with - | w
  · rw [insert_of_not_mem hk, Spaced, List.map_append, h, List.length_append,
      List.length_singleton, List.range_succ, List.map_append, hplace]
    rfl
  · rw [insert_of_mem hk]
    exact h

theorem Spaced.eq_mul (h : p.Spaced step) (hv : p.lookup k = some v) :
    ∃ j < p.places.length, v = step * j := by
  obtain ⟨l1, l2, hsplit, -⟩ := List.lookup_eq_some_iff.mp hv
  have hmem : v ∈ p.places.map Prod.snd := by
    rw [hsplit]
    simp
  rw [h, List.mem_map] at hmem
  obtain ⟨j, hj, rfl⟩ := hmem
  exact ⟨j, List.mem_range.mp hj, rfl⟩

/-- Every place is the place of a key. -/
theorem Spaced.exists_key (h : p.Spaced step) (hkeys : p.keys.Nodup) (hj : j < p.places.length) :
    ∃ k ∈ p.keys, p.lookup k = some (step * j) := by
  have hget : (p.places.map Prod.snd)[j]? = some (step * j) := by
    rw [h, List.getElem?_map, List.getElem?_range hj]
    rfl
  rw [List.getElem?_map, List.getElem?_eq_getElem hj, Option.map_some, Option.some.injEq] at hget
  refine ⟨p.places[j].1, List.mem_map_of_mem (List.getElem_mem hj), ?_⟩
  rw [lookup, List.lookup_eq_some_iff]
  refine ⟨p.places.take j, p.places.drop (j + 1), ?_, fun q hq => ?_⟩
  · rw [← hget]
    exact (List.take_append_drop j p.places).symm.trans
      (congrArg _ (List.drop_eq_getElem_cons hj))
  · -- a key does not occur twice
    rw [bne_iff_ne]
    intro heq
    obtain ⟨i, hi, rfl⟩ := List.mem_take_iff_getElem.mp hq
    have hij : i = j := by
      have hi' : i < p.keys.length := by rw [length_keys]; omega
      have hj' : j < p.keys.length := by rw [length_keys]; omega
      have hkey : p.keys[i] = p.keys[j] := by
        simpa only [keys, List.getElem_map] using heq.symm
      exact (hkeys.getElem_inj_iff).mp hkey
    omega

/-! ### Contents of one size -/

/-- A pool whose contents all have `unit * step` elements, each stored where
the one before ends. -/
structure Filled (unit step : ℕ) (content : κ → List β) (p : Pool κ β) : Prop where
  stores : p.Stores unit content
  spaced : p.Spaced step
  length_data : p.data.length = unit * (step * p.places.length)
  nodup : p.keys.Nodup

theorem filled_empty : (empty : Pool κ β).Filled unit step content :=
  ⟨stores_empty, spaced_empty, rfl, List.nodup_nil⟩

theorem Filled.insert (h : p.Filled unit step content) (hk : (content k).length = unit * step)
    (hplace : place = step * p.places.length) :
    (p.insert k place (content k)).Filled unit step content := by
  refine ⟨h.stores.insert (h.length_data.trans (by rw [hplace])), h.spaced.insert hplace, ?_,
    nodup_keys_insert h.nodup⟩
  rcases hlookup : p.lookup k with - | w
  · rw [insert_of_not_mem hlookup, List.length_append, List.length_append, h.length_data, hk,
      List.length_singleton]
    ring
  · rw [insert_of_mem hlookup]
    exact h.length_data

theorem length_places_insert_le : (p.insert k place xs).places.length ≤ p.places.length + 1 := by
  rcases h : p.lookup k with - | w
  · rw [insert_of_not_mem h, List.length_append, List.length_singleton]
  · rw [insert_of_mem h]
    exact Nat.le_succ _

end Pool
