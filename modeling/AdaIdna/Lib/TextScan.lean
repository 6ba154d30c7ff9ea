/-
AdaIdna/Lib/TextScan.lean

Searching a text for a pattern.

A pattern matches at the beginning of a text, and leaves what is behind the
match.  `search` tries it from every place on until it matches, and `findAll`
goes on behind each match.  What they find in a text that was put together
from pieces is read off piece by piece: a piece in which no match can begin,
whatever follows it, is passed over (`Skips`), and a match gives one more
result (`Finds.match`).  For patterns that begin with a fixed text, `skipsLit`
tests that a piece is of that kind.
-/
import Mathlib.Tactic

namespace TextScan

variable {β γ : Type}

/-- What is found, and the rest of the text. -/
abbrev Pattern (β : Type) := List Char → Option (β × List Char)

/-- A fixed text. -/
def lit (p : List Char) (s : List Char) : Option (List Char) :=
  if p.isPrefixOf s then some (s.drop p.length) else none

/-- As many characters of a class as there are, but at least one. -/
def run (cls : Char → Bool) : Pattern (List Char) := fun s =>
  if s.takeWhile cls = [] then none else some (s.takeWhile cls, s.dropWhile cls)

/-- As few characters as possible in front of a fixed text. -/
def upTo (stop : List Char) : Pattern (List Char)
  | [] => (lit stop []).map fun r => ([], r)
  | c :: s =>
    match lit stop (c :: s) with
    | some r => some ([], r)
    | none => (upTo stop s).map fun g => (c :: g.1, g.2)

/-- As many characters of a class as possible in front of a fixed text. -/
def asFarAs (cls : Char → Bool) (stop : List Char) : Pattern (List Char)
  | [] => (lit stop []).map fun r => ([], r)
  | c :: s =>
    match if cls c then asFarAs cls stop s else none with
    | some g => some (c :: g.1, g.2)
    | none => (lit stop (c :: s)).map fun r => ([], r)

/-- The same, with at least one character. -/
def oneAsFarAs (cls : Char → Bool) (stop : List Char) : Pattern (List Char)
  | [] => none
  | c :: s => if cls c then (asFarAs cls stop s).map fun g => (c :: g.1, g.2) else none

/-- A pattern behind a fixed text. -/
def behind (p : List Char) (m : Pattern β) : Pattern β := fun s => (lit p s).bind m

/-- The first match. -/
def search (m : Pattern β) : List Char → Option β
  | [] => (m []).map Prod.fst
  | c :: s =>
    match m (c :: s) with
    | some r => some r.1
    | none => search m s

/-- The matches that do not overlap, from left to right. -/
def findAllFrom (m : Pattern β) : ℕ → List Char → List β
  | 0, _ => []
  | fuel + 1, s =>
    match m s with
    | some r => r.1 :: findAllFrom m fuel r.2
    | none => if s = [] then [] else findAllFrom m fuel s.tail

def findAll (m : Pattern β) (s : List Char) : List β := findAllFrom m (s.length + 1) s

variable {m : Pattern β} {p s t pre rest g : List Char} {c : Char} {b : β} {l : List β}
  {cls : Char → Bool}

/-! ### Matching -/

theorem lit_append (p rest : List Char) : lit p (p ++ rest) = some rest := by
  rw [lit, if_pos (List.isPrefixOf_iff_prefix.mpr (List.prefix_append p rest)), List.drop_left]

theorem prefix_of_lit (h : lit p s ≠ none) : p <+: s := by
  rw [lit] at h
  split at h
  · rename_i hp
    exact List.isPrefixOf_iff_prefix.mp hp
  · exact absurd rfl h

theorem run_append (hg : ∀ c ∈ g, cls c = true) (hne : g ≠ [])
    (hrest : ∀ c ∈ rest.head?, cls c = false) : run cls (g ++ rest) = some (g, rest) := by
  have hrest' : rest.takeWhile cls = [] ∧ rest.dropWhile cls = rest := by
    cases rest with
    | nil => exact ⟨rfl, rfl⟩
    | cons c rest =>
      have hc := hrest c rfl
      constructor
      · rw [List.takeWhile_cons, hc]
        rfl
      · rw [List.dropWhile_cons, hc]
        rfl
  rw [run, List.takeWhile_append_of_pos hg, List.dropWhile_append_of_pos hg, hrest'.1, hrest'.2,
    List.append_nil, if_neg hne]

theorem lit_cons_eq_none {d : Char} (h : d ≠ c) (t s : List Char) :
    lit (c :: t) (d :: s) = none := by
  by_contra hne
  exact h (List.cons_prefix_cons.mp (prefix_of_lit hne)).1.symm

/-- A text without the first character of the fixed one does not stop. -/
theorem upTo_append {stop : List Char} (hg : c ∉ g) (rest : List Char) :
    upTo (c :: stop) (g ++ (c :: stop ++ rest)) = some (g, rest) := by
  induction g with
  | nil =>
    have hstop := lit_append (c :: stop) rest
    rw [List.cons_append] at hstop
    rw [List.nil_append, List.cons_append, upTo, hstop]
  | cons d g ih =>
    have hne : d ≠ c := fun heq => hg (heq ▸ List.mem_cons_self)
    rw [List.cons_append, upTo, lit_cons_eq_none hne,
      ih fun hmem => hg (List.mem_cons_of_mem d hmem)]
    rfl

/-- Neither the text nor what stands behind the characters of the class stops. -/
theorem asFarAs_eq_none (hs : c ∉ s) (hrest : ∀ d ∈ rest.head?, cls d = false ∧ d ≠ c) :
    asFarAs cls (c :: t) (s ++ rest) = none := by
  induction s with
  | nil =>
    cases rest with
    | nil => rfl
    | cons d rest =>
      obtain ⟨hcls, hne⟩ := hrest d rfl
      rw [List.nil_append, asFarAs, hcls, if_neg Bool.false_ne_true, lit_cons_eq_none hne]
      rfl
  | cons d s ih =>
    have hne : d ≠ c := fun heq => hs (heq ▸ List.mem_cons_self)
    rw [List.cons_append, asFarAs, ih fun hmem => hs (List.mem_cons_of_mem d hmem), ite_self,
      lit_cons_eq_none hne]
    rfl

/-- **The characters of a class**, if the fixed text does not come again. -/
theorem asFarAs_append (hg : ∀ d ∈ g, cls d = true) (ht : c ∉ t)
    (hrest : ∀ d ∈ rest.head?, cls d = false ∧ d ≠ c) :
    asFarAs cls (c :: t) (g ++ (c :: t ++ rest)) = some (g, rest) := by
  induction g with
  | nil =>
    -- the fixed text may itself be of the class, but it does not come again
    have hlit := lit_append (c :: t) rest
    rw [List.cons_append] at hlit
    rw [List.nil_append, List.cons_append, asFarAs, asFarAs_eq_none ht hrest, ite_self, hlit]
    rfl
  | cons d g ih =>
    rw [List.cons_append, asFarAs, if_pos (hg d List.mem_cons_self),
      ih fun e he => hg e (List.mem_cons_of_mem d he)]

theorem oneAsFarAs_append (hne : g ≠ []) (hg : ∀ d ∈ g, cls d = true) (ht : c ∉ t)
    (hrest : ∀ d ∈ rest.head?, cls d = false ∧ d ≠ c) :
    oneAsFarAs cls (c :: t) (g ++ (c :: t ++ rest)) = some (g, rest) := by
  obtain ⟨d, g, rfl⟩ := List.exists_cons_of_ne_nil hne
  rw [List.cons_append, oneAsFarAs, if_pos (hg d List.mem_cons_self),
    asFarAs_append (fun e he => hg e (List.mem_cons_of_mem d he)) ht hrest]
  rfl

/-! ### Passing over -/

/-- No match begins in a piece of text, whatever follows it. -/
def Skips (m : Pattern β) : List Char → Prop
  | [] => True
  | c :: s => (∀ rest, m (c :: s ++ rest) = none) ∧ Skips m s

theorem Skips.append (hs : Skips m s) (ht : Skips m t) : Skips m (s ++ t) := by
  induction s with
  | nil => exact ht
  | cons c s ih =>
    refine ⟨fun rest => ?_, ih hs.2⟩
    show m (c :: (s ++ t ++ rest)) = none
    rw [List.append_assoc]
    exact hs.1 (t ++ rest)

theorem Skips.flatMap {ι : Type} {f : ι → List Char} {is : List ι} (h : ∀ i ∈ is, Skips m (f i)) :
    Skips m (is.flatMap f) := by
  induction is with
  | nil => trivial
  | cons i is ih =>
    rw [List.flatMap_cons]
    exact (h i List.mem_cons_self).append (ih fun j hj => h j (List.mem_cons_of_mem i hj))

/-- Two texts differ in some place that both have. -/
def clashes (p s : List Char) : Bool := (p.zip s).any fun x => x.1 != x.2

/-- No suffix of `s` begins like `p`. -/
def skipsLit (p : List Char) : List Char → Bool
  | [] => true
  | c :: s => clashes p (c :: s) && skipsLit p s

theorem not_prefix_of_clashes (h : clashes p s = true) (rest : List Char) : ¬ p <+: s ++ rest := by
  induction p generalizing s with
  | nil => cases h
  | cons a p ih =>
    cases s with
    | nil => cases h
    | cons c s =>
      rw [clashes, List.zip_cons_cons, List.any_cons, Bool.or_eq_true, bne_iff_ne] at h
      rw [List.cons_append, List.cons_prefix_cons]
      rintro ⟨rfl, hbegins⟩
      exact h.elim (fun hne => hne rfl) fun hclash => ih hclash hbegins

/-- **The test** for a pattern that begins with a fixed text. -/
theorem skips_of_skipsLit (hm : ∀ s, m s ≠ none → p <+: s) (h : skipsLit p s = true) :
    Skips m s := by
  induction s with
  | nil => trivial
  | cons c s ih =>
    rw [skipsLit, Bool.and_eq_true] at h
    refine ⟨fun rest => ?_, ih h.2⟩
    by_contra hne
    exact not_prefix_of_clashes h.1 rest (hm _ hne)

theorem skipsLit_of_not_mem (h : c ∉ s) : skipsLit (c :: p) s = true := by
  induction s with
  | nil => rfl
  | cons d s ih =>
    have hne : c ≠ d := fun heq => h (heq ▸ List.mem_cons_self)
    rw [skipsLit, ih fun hmem => h (List.mem_cons_of_mem d hmem), clashes, List.zip_cons_cons,
      List.any_cons, bne_iff_ne.mpr hne]
    rfl

/-! ### Searching -/

theorem search_of_skips (h : Skips m pre) (rest : List Char) :
    search m (pre ++ rest) = search m rest := by
  induction pre with
  | nil => rfl
  | cons c pre ih =>
    have hnone := h.1 rest
    rw [List.cons_append] at hnone ⊢
    rw [search, hnone]
    exact ih h.2

theorem search_of_match {r : β × List Char} (h : m s = some r) : search m s = some r.1 := by
  cases s with
  | nil =>
    rw [search, h]
    rfl
  | cons c s => rw [search, h]

/-- The matches in a text are those of a list. -/
def Finds (m : Pattern β) (s : List Char) (l : List β) : Prop :=
  ∀ fuel, s.length < fuel → findAllFrom m fuel s = l

theorem Finds.findAll_eq (h : Finds m s l) : findAll m s = l := h _ (Nat.lt_succ_self _)

theorem Finds.nil (h : m [] = none) : Finds m [] [] := by
  intro fuel hfuel
  obtain ⟨fuel, rfl⟩ : ∃ k, fuel = k + 1 := ⟨fuel - 1, by omega⟩
  rw [findAllFrom, h, if_pos rfl]

theorem Finds.skip (h : Skips m pre) (hrest : Finds m rest l) : Finds m (pre ++ rest) l := by
  induction pre with
  | nil => exact hrest
  | cons c pre ih =>
    intro fuel hfuel
    obtain ⟨fuel, rfl⟩ : ∃ k, fuel = k + 1 := ⟨fuel - 1, by omega⟩
    have hnone := h.1 rest
    rw [List.cons_append] at hnone ⊢
    rw [findAllFrom, hnone, if_neg (List.cons_ne_nil c _)]
    exact ih h.2 fuel (by simpa using hfuel)

/-- Piece by piece. -/
theorem Finds.flatMap {ι : Type} {f : ι → List Char} {found : ι → List β} {is : List ι}
    (h : ∀ i ∈ is, ∀ rest l, Finds m rest l → Finds m (f i ++ rest) (found i ++ l))
    (hrest : Finds m rest l) : Finds m (is.flatMap f ++ rest) (is.flatMap found ++ l) := by
  induction is with
  | nil => exact hrest
  | cons i is ih =>
    rw [List.flatMap_cons, List.flatMap_cons, List.append_assoc, List.append_assoc]
    exact h i List.mem_cons_self _ _ (ih fun j hj => h j (List.mem_cons_of_mem i hj))

/-- **One more match.** -/
theorem Finds.match (h : m s = some (b, rest)) (hlt : rest.length < s.length)
    (hrest : Finds m rest l) : Finds m s (b :: l) := by
  intro fuel hfuel
  obtain ⟨fuel, rfl⟩ : ∃ k, fuel = k + 1 := ⟨fuel - 1, by omega⟩
  rw [findAllFrom, h]
  exact congrArg (b :: ·) (hrest fuel (by omega))

end TextScan
