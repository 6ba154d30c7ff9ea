/-
AdaIdna/Lib/Overwrite.lean

A store of named values that is only ever overwritten.

A store gives every key a value, and a change lists new values for some of the
keys; a later item of the list replaces an earlier one, as in an update of a
dictionary.  Both carry the proof that each value is one its key may have, so
that a sequence of changes never leaves the stores that are allowed.

Where every key has one owner, and a change of an owner lists exactly the keys
of this owner, a key ends with what the last change of its owner says
(`applyAll_val_of_owner`): the order of changes of different owners does not
matter, nor do earlier changes of the same owner (`applyAll_eq_of_last`).
-/
import Mathlib.Tactic

namespace Overwrite

variable {κ ν ω : Type*} [DecidableEq κ]

/-! ### Updates -/

/-- The values after an update by `items`. -/
def overwrite (f : κ → ν) (items : List (κ × ν)) (k : κ) : ν :=
  (items.reverse.lookup k).getD (f k)

@[simp] theorem overwrite_nil (f : κ → ν) : overwrite f [] = f := rfl

theorem lookup_reverse_eq_none {items : List (κ × ν)} {k : κ} :
    items.reverse.lookup k = none ↔ k ∉ items.map Prod.fst := by
  rw [List.lookup_eq_none_iff]
  constructor
  · intro h hk
    obtain ⟨item, hitem, rfl⟩ := List.mem_map.mp hk
    exact absurd (h item (List.mem_reverse.mpr hitem)) (by simp)
  · intro h item hitem
    rw [bne_iff_ne]
    rintro rfl
    exact h (List.mem_map_of_mem (List.mem_reverse.mp hitem))

/-- **Frame:** a key that is not listed keeps its value. -/
theorem overwrite_of_not_mem (f : κ → ν) {items : List (κ × ν)} {k : κ}
    (h : k ∉ items.map Prod.fst) : overwrite f items k = f k := by
  rw [overwrite, lookup_reverse_eq_none.mpr h, Option.getD_none]

/-- A key that is listed gets one of the values it is listed with. -/
theorem overwrite_mem (f : κ → ν) {items : List (κ × ν)} {k : κ} (h : k ∈ items.map Prod.fst) :
    (k, overwrite f items k) ∈ items := by
  rcases hv : items.reverse.lookup k with - | v
  · exact absurd h (lookup_reverse_eq_none.mp hv)
  · obtain ⟨l, l', heq, -⟩ := List.lookup_eq_some_iff.mp hv
    rw [overwrite, hv, Option.getD_some, ← List.mem_reverse, heq]
    exact List.mem_append_right _ List.mem_cons_self

/-- What a listed key gets does not depend on what it had. -/
theorem overwrite_congr (f g : κ → ν) {items : List (κ × ν)} {k : κ}
    (h : k ∈ items.map Prod.fst) : overwrite f items k = overwrite g items k := by
  rcases hv : items.reverse.lookup k with - | v
  · exact absurd h (lookup_reverse_eq_none.mp hv)
  · rw [overwrite, overwrite, hv, Option.getD_some, Option.getD_some]

/-- Where no key is listed twice, a listed key gets its value. -/
theorem overwrite_eq_of_mem (f : κ → ν) {items : List (κ × ν)} {item : κ × ν}
    (hnodup : (items.map Prod.fst).Nodup) (h : item ∈ items) :
    overwrite f items item.1 = item.2 := by
  have hmem := overwrite_mem f (List.mem_map_of_mem (f := Prod.fst) h)
  have heq := List.inj_on_of_nodup_map hnodup hmem h rfl
  exact congrArg Prod.snd heq

/-! ### Stores -/

/-- A store whose values are allowed. -/
@[ext] structure Store (ok : κ → ν → Prop) where
  val : κ → ν
  allowed : ∀ k, ok k (val k)

/-- A change to allowed values. -/
structure Change (ok : κ → ν → Prop) where
  items : List (κ × ν)
  allowed : ∀ item ∈ items, ok item.1 item.2

variable {ok : κ → ν → Prop}

theorem allowed_overwrite (s : Store ok) (c : Change ok) (k : κ) :
    ok k (overwrite s.val c.items k) := by
  by_cases hk : k ∈ c.items.map Prod.fst
  · exact c.allowed _ (overwrite_mem s.val hk)
  · rw [overwrite_of_not_mem s.val hk]
    exact s.allowed k

def Store.apply (s : Store ok) (c : Change ok) : Store ok :=
  ⟨overwrite s.val c.items, allowed_overwrite s c⟩

def Store.applyAll (s : Store ok) (cs : List (Change ok)) : Store ok := cs.foldl Store.apply s

@[simp] theorem applyAll_nil (s : Store ok) : s.applyAll [] = s := rfl

@[simp] theorem applyAll_cons (s : Store ok) (c : Change ok) (cs : List (Change ok)) :
    s.applyAll (c :: cs) = (s.apply c).applyAll cs := rfl

theorem applyAll_concat (s : Store ok) (cs : List (Change ok)) (c : Change ok) :
    s.applyAll (cs ++ [c]) = (s.applyAll cs).apply c := by
  rw [Store.applyAll, List.foldl_append]
  rfl

/-- **A property of the store** that every change keeps holds after all of them. -/
theorem applyAll_induction {P : Store ok → Prop} {s : Store ok} {cs : List (Change ok)} (h : P s)
    (hstep : ∀ s, P s → ∀ c ∈ cs, P (s.apply c)) : P (s.applyAll cs) := by
  induction cs generalizing s with
  | nil => exact h
  | cons c cs ih =>
    rw [applyAll_cons]
    refine ih (hstep s h c List.mem_cons_self) fun s hs c hc => ?_
    exact hstep s hs c (List.mem_cons_of_mem _ hc)

/-! ### Owners -/

/-- The change of `w` lists the keys that `w` owns. -/
def Writes (owner : κ → ω) (w : ω) (c : Change ok) : Prop :=
  ∀ k, k ∈ c.items.map Prod.fst ↔ owner k = w

/-- The last one that is labelled `w`. -/
def lastOf {α : Type*} [DecidableEq ω] (w : ω) (l : List (ω × α)) : Option α :=
  ((l.filter fun c => c.1 = w).getLast?).map Prod.snd

theorem lastOf_concat {α : Type*} [DecidableEq ω] (w : ω) (l : List (ω × α)) (c : ω × α) :
    lastOf w (l ++ [c]) = if c.1 = w then some c.2 else lastOf w l := by
  rw [lastOf, List.filter_append]
  split_ifs with h
  · rw [List.filter_cons_of_pos (by simpa using h), List.filter_nil, List.getLast?_concat]
    rfl
  · rw [List.filter_cons_of_neg (by simpa using h), List.filter_nil, List.append_nil, lastOf]

variable [DecidableEq ω] {owner : κ → ω} {l l' : List (ω × Change ok)}

/-- **The last change of the owner** of a key says what the key has in the end. -/
theorem applyAll_val_of_owner (hl : ∀ c ∈ l, Writes owner c.1 c.2) (s : Store ok) (k : κ) :
    (s.applyAll (l.map Prod.snd)).val k
      = (lastOf (owner k) l).elim (s.val k) fun c => overwrite s.val c.items k := by
  induction l using List.reverseRecOn with
  | nil => rfl
  | append_singleton l c ih =>
    have hc := hl c (List.mem_append_right _ (List.mem_singleton_self c)) k
    have ih := ih fun c hc => hl c (List.mem_append_left _ hc)
    rw [List.map_append, List.map_singleton, applyAll_concat, lastOf_concat]
    show overwrite _ _ k = _
    by_cases h : c.1 = owner k
    · rw [if_pos h]
      exact overwrite_congr _ _ (hc.mpr h.symm)
    · rw [if_neg h, overwrite_of_not_mem _ fun hk => h (hc.mp hk).symm, ih]

/-- **Only the last change of each owner** matters. -/
theorem applyAll_eq_of_last (hl : ∀ c ∈ l, Writes owner c.1 c.2)
    (hl' : ∀ c ∈ l', Writes owner c.1 c.2)
    (hlast : ∀ k, lastOf (owner k) l = lastOf (owner k) l') (s : Store ok) :
    s.applyAll (l.map Prod.snd) = s.applyAll (l'.map Prod.snd) := by
  ext k
  rw [applyAll_val_of_owner hl, applyAll_val_of_owner hl', hlast]

end Overwrite
