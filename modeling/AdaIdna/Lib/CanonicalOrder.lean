/-
AdaIdna/Lib/CanonicalOrder.lean

Ordering a string by a key, with barriers.

Every symbol has a key.  A symbol of key 0 stays where it is and nothing
passes it; between two such symbols, the others are sorted by key, and equal
keys keep their order.  `order` is the insertion sort that does this: the part
of the string that is done is kept last symbol first, and every new symbol
sinks into it past the symbols of greater key.

What a user of the ordering needs:

* `order_of_ordered`, `ordered_order`: ordered strings are the fixed points.
* `Same`: strings that every later insertion treats alike.  Exchanging two
  neighbours with different nonzero keys gives such a string (`same_swap`).
* `order_append_barrier`, `order_cons_barrier`: a barrier splits the work.
* `stableSort_order`: what stands between two barriers is sorted.
-/
import Mathlib.Tactic

namespace CanonicalOrder

variable {α : Type*} (key : α → ℕ)

/-- Insert `c` into the string so far, given last symbol first. -/
def sink (c : α) : List α → List α
  | [] => [c]
  | p :: front => if key c < key p then p :: sink c front else c :: p :: front

/-- Insert the next symbol; a barrier stays. -/
def push (front : List α) (c : α) : List α := if key c = 0 then c :: front else sink key c front

/-- Insert a string. -/
def pushAll (front s : List α) : List α := s.foldl (push key) front

/-- The ordered string. -/
def order (s : List α) : List α := (pushAll key [] s).reverse

variable {key} {c p m k : α} {s t front : List α}

theorem push_of_eq_zero (h : key c = 0) : push key front c = c :: front := if_pos h

theorem push_of_ne_zero (h : key c ≠ 0) : push key front c = sink key c front := if_neg h

@[simp] theorem pushAll_nil (front : List α) : pushAll key front [] = front := rfl

@[simp] theorem pushAll_cons (front : List α) (c : α) (s : List α) :
    pushAll key front (c :: s) = pushAll key (push key front c) s := rfl

theorem pushAll_append (front s t : List α) :
    pushAll key front (s ++ t) = pushAll key (pushAll key front s) t :=
  List.foldl_append

/-! ### The symbols stay the same -/

theorem sink_perm (c : α) (front : List α) : (sink key c front).Perm (c :: front) := by
  induction front with
  | nil => exact List.Perm.refl _
  | cons p front ih =>
    rw [sink]
    split
    · exact (ih.cons p).trans (List.Perm.swap c p front)
    · exact List.Perm.refl _

theorem push_perm (c : α) (front : List α) : (push key front c).Perm (c :: front) := by
  rw [push]
  split
  · exact List.Perm.refl _
  · exact sink_perm c front

theorem pushAll_perm (front s : List α) : (pushAll key front s).Perm (s.reverse ++ front) := by
  induction s generalizing front with
  | nil => exact List.Perm.refl _
  | cons c s ih =>
    rw [pushAll_cons, List.reverse_cons, List.append_assoc]
    exact (ih _).trans ((push_perm c front).append_left _)

theorem order_perm (s : List α) : (order key s).Perm s := by
  have h : (pushAll key [] s).Perm (s.reverse ++ []) := pushAll_perm [] s
  rw [List.append_nil] at h
  exact (List.reverse_perm _).trans (h.trans (List.reverse_perm s))

/-! ### Ordered strings -/

/-- `c` may stand behind `p`. -/
def Follows (key : α → ℕ) (p c : α) : Prop := key c = 0 ∨ key p ≤ key c

/-- Between barriers, the keys do not descend. -/
def Ordered (key : α → ℕ) (s : List α) : Prop := s.IsChain (Follows key)

theorem push_of_follows (h : ∀ p ∈ front.head?, Follows key p c) :
    push key front c = c :: front := by
  rw [push]
  split
  · rfl
  · rename_i hc
    cases front with
    | nil => rfl
    | cons p front =>
      rcases h p rfl with h | h
      · exact absurd h hc
      · exact if_neg (not_lt.mpr h)

theorem pushAll_of_ordered (h : Ordered key (front.reverse ++ s)) :
    pushAll key front s = s.reverse ++ front := by
  induction s generalizing front with
  | nil => rfl
  | cons c s ih =>
    have hc : push key front c = c :: front := by
      apply push_of_follows
      intro p hp
      obtain ⟨front, rfl⟩ : ∃ l, front = p :: l := by
        cases front with
        | nil => cases hp
        | cons q l =>
          obtain rfl := Option.some.inj hp
          exact ⟨l, rfl⟩
      rw [Ordered, List.reverse_cons, List.append_assoc] at h
      exact List.IsChain.rel (List.IsChain.right_of_append h)
    rw [pushAll_cons, hc, ih (by simpa using h)]
    simp

/-- **An ordered string stays as it is.** -/
theorem order_of_ordered (h : Ordered key s) : order key s = s := by
  rw [order, pushAll_of_ordered (by simpa using h)]
  simp

/-- The string so far, last symbol first, is ordered. -/
theorem sink_ordered (h : front.IsChain fun c p => Follows key p c) :
    (sink key c front).IsChain fun c p => Follows key p c := by
  induction front with
  | nil => exact List.isChain_singleton c
  | cons p front ih =>
    rw [sink]
    split
    · rename_i hlt
      have htail := ih h.tail
      -- the new neighbour of `p` is `c` or the old one
      cases front with
      | nil => exact List.isChain_pair.mpr (Or.inr hlt.le)
      | cons q front =>
        rw [sink] at htail ⊢
        split
        · rename_i hq
          rw [if_pos hq] at htail
          exact List.IsChain.cons_cons h.rel htail
        · rename_i hq
          rw [if_neg hq] at htail
          exact List.IsChain.cons_cons (Or.inr hlt.le) htail
    · rename_i hge
      exact List.IsChain.cons_cons (Or.inr (not_lt.mp hge)) h

theorem pushAll_ordered (h : front.IsChain fun c p => Follows key p c) :
    (pushAll key front s).IsChain fun c p => Follows key p c := by
  induction s generalizing front with
  | nil => exact h
  | cons c s ih =>
    apply ih
    rw [push]
    split
    · rename_i hc
      cases front with
      | nil => exact List.isChain_singleton c
      | cons p front => exact List.IsChain.cons_cons (Or.inl hc) h
    · exact sink_ordered h

/-- **The result is ordered.** -/
theorem ordered_order (s : List α) : Ordered key (order key s) :=
  List.isChain_reverse.mpr (pushAll_ordered List.isChain_nil)

/-! ### Strings that have the same effect -/

/-- Inserting `s` or `t` makes no difference. -/
def Same (key : α → ℕ) (s t : List α) : Prop := ∀ front, pushAll key front s = pushAll key front t

theorem Same.refl (s : List α) : Same key s s := fun _ => rfl

theorem Same.trans {u : List α} (h : Same key s t) (h' : Same key t u) : Same key s u :=
  fun front => (h front).trans (h' front)

theorem Same.append {s' t' : List α} (h : Same key s t) (h' : Same key s' t') :
    Same key (s ++ s') (t ++ t') := by
  intro front
  rw [pushAll_append, pushAll_append, h, h']

theorem Same.order_eq (h : Same key s t) : order key s = order key t :=
  congrArg List.reverse (h [])

theorem sink_sink (h : key m < key k) (front : List α) :
    sink key m (sink key k front) = sink key k (sink key m front) := by
  induction front with
  | nil => simp [sink, h, h.not_gt]
  | cons p front ih =>
    by_cases hk : key k < key p
    · simp only [sink, hk, h.trans hk, if_true, ih]
    · by_cases hm : key m < key p
      · simp only [sink, hk, hm, h, if_true, if_false]
      · simp only [sink, hk, hm, h, h.not_gt, if_true, if_false]

/-- **Neighbours with different nonzero keys may change places.** -/
theorem same_swap (hm : key m ≠ 0) (hk : key k ≠ 0) (h : key m ≠ key k) :
    Same key [m, k] [k, m] := by
  intro front
  simp only [pushAll_cons, pushAll_nil, push_of_ne_zero hm, push_of_ne_zero hk]
  rcases lt_or_gt_of_ne h with h | h
  · exact (sink_sink h front).symm
  · exact sink_sink h front

/-- A symbol may pass any string of smaller nonzero keys. -/
theorem same_move (h : ∀ x ∈ s, key x ≠ 0 ∧ key x < key m) :
    Same key (m :: s) (s ++ [m]) := by
  induction s with
  | nil => exact Same.refl _
  | cons x s ih =>
    rw [List.forall_mem_cons] at h
    obtain ⟨⟨hx, hlt⟩, hs⟩ := h
    have hswap : Same key [m, x] [x, m] := same_swap (by omega) hx (by omega)
    exact (hswap.append (Same.refl s)).trans ((Same.refl [x]).append (ih hs))

/-! ### Barriers -/

theorem sink_append_barrier (hp : key p = 0) (c : α) (front rest : List α) :
    sink key c (front ++ p :: rest) = sink key c (front ++ [p]) ++ rest := by
  induction front with
  | nil => simp [sink, hp]
  | cons q front ih =>
    rw [List.cons_append, List.cons_append, sink, sink]
    split
    · rw [ih, List.cons_append]
    · simp

theorem exists_push_append_barrier (hp : key p = 0) (c : α) (front rest : List α) :
    ∃ front', push key (front ++ p :: rest) c = front' ++ p :: rest ∧
      push key (front ++ [p]) c = front' ++ [p] := by
  by_cases hc : key c = 0
  · exact ⟨c :: front, push_of_eq_zero hc, push_of_eq_zero hc⟩
  · rw [push_of_ne_zero hc, push_of_ne_zero hc, sink_append_barrier hp]
    suffices h : ∃ front', sink key c (front ++ [p]) = front' ++ [p] by
      obtain ⟨front', h⟩ := h
      exact ⟨front', by rw [h, List.append_assoc]; rfl, h⟩
    induction front with
    | nil => exact ⟨[c], by simp [sink, hp]⟩
    | cons q front ih =>
      obtain ⟨front', h⟩ := ih
      rw [List.cons_append, sink]
      split
      · exact ⟨q :: front', by rw [h, List.cons_append]⟩
      · exact ⟨c :: q :: front, rfl⟩

theorem pushAll_append_barrier (hp : key p = 0) (front rest s : List α) :
    pushAll key (front ++ p :: rest) s = pushAll key (front ++ [p]) s ++ rest := by
  induction s generalizing front with
  | nil => simp
  | cons c s ih =>
    obtain ⟨front', h, h'⟩ := exists_push_append_barrier hp c front rest
    rw [pushAll_cons, pushAll_cons, h, h', ih]

/-- **A barrier splits the string.** -/
theorem order_append_barrier (hp : key p = 0) (s t : List α) :
    order key (s ++ p :: t) = order key s ++ order key (p :: t) := by
  have h := pushAll_append_barrier hp [] (pushAll key [] s) t
  rw [List.nil_append] at h
  rw [order, pushAll_append, pushAll_cons, push_of_eq_zero hp, h, List.reverse_append]
  rw [order, order, pushAll_cons, push_of_eq_zero hp]
  rfl

theorem sink_concat_barrier (hp : key p = 0) (c : α) (front : List α) :
    sink key c (front ++ [p]) = sink key c front ++ [p] := by
  induction front with
  | nil => simp [sink, hp]
  | cons q front ih =>
    rw [List.cons_append, sink, sink, ih]
    split <;> rfl

theorem pushAll_concat_barrier (hp : key p = 0) (front s : List α) :
    pushAll key (front ++ [p]) s = pushAll key front s ++ [p] := by
  induction s generalizing front with
  | nil => rfl
  | cons c s ih =>
    rw [pushAll_cons, pushAll_cons, ← ih]
    by_cases hc : key c = 0
    · rw [push_of_eq_zero hc, push_of_eq_zero hc, List.cons_append]
    · rw [push_of_ne_zero hc, push_of_ne_zero hc, sink_concat_barrier hp]

/-- A barrier in front stays there. -/
theorem order_cons_barrier (hp : key p = 0) (s : List α) :
    order key (p :: s) = p :: order key s := by
  have h := pushAll_concat_barrier hp [] s
  rw [List.nil_append] at h
  rw [order, pushAll_cons, push_of_eq_zero hp, h, List.reverse_append]
  rfl

/-- **A barrier keeps its position.** -/
theorem getElem?_order {i : ℕ} (hi : s[i]? = some p) (hp : key p = 0) :
    (order key s)[i]? = some p := by
  obtain ⟨A, B, rfl, rfl⟩ : ∃ A B, s = A ++ p :: B ∧ A.length = i := by
    obtain ⟨hlt, hget⟩ := List.getElem?_eq_some_iff.mp hi
    refine ⟨s.take i, s.drop (i + 1), ?_, ?_⟩
    · rw [← hget, List.cons_getElem_drop_succ, List.take_append_drop]
    · rw [List.length_take, min_eq_left hlt.le]
  have hlen : (order key A).length = A.length := (order_perm A).length_eq
  rw [order_append_barrier hp, order_cons_barrier hp, List.getElem?_append_right hlen.le, hlen,
    Nat.sub_self]
  rfl

/-! ### Runs between barriers -/

/-- `t` is `s` sorted by key, equal keys in their old order. -/
structure StableSort (key : α → ℕ) (s t : List α) : Prop where
  perm : t.Perm s
  sorted : t.Pairwise fun p c => key p ≤ key c
  stable : ∀ n, (t.filter fun c => key c = n) = s.filter fun c => key c = n

/-- A symbol only sinks past symbols of another key. -/
theorem filter_sink (n : ℕ) (c : α) (front : List α) :
    ((sink key c front).filter fun x => key x = n) = (c :: front).filter fun x => key x = n := by
  induction front with
  | nil => rfl
  | cons p front ih =>
    rw [sink]
    split
    · rename_i hlt
      rw [List.filter_cons, ih]
      by_cases hp : key p = n
      · have hc : ¬ key c = n := by omega
        simp [hp, hc]
      · simp [List.filter_cons, hp]
    · rfl

theorem filter_pushAll (n : ℕ) (front s : List α) :
    ((pushAll key front s).filter fun x => key x = n)
      = (s.reverse ++ front).filter fun x => key x = n := by
  induction s generalizing front with
  | nil => rfl
  | cons c s ih =>
    have hpush : ((push key front c).filter fun x => key x = n)
        = (c :: front).filter fun x => key x = n := by
      rw [push]
      split
      · rfl
      · exact filter_sink n c front
    rw [pushAll_cons, ih, List.filter_append, hpush, ← List.filter_append, List.reverse_cons,
      List.append_assoc]
    rfl

/-- Equal keys keep their order. -/
theorem filter_order (n : ℕ) (s : List α) :
    ((order key s).filter fun x => key x = n) = s.filter fun x => key x = n := by
  rw [order, List.filter_reverse, filter_pushAll, List.append_nil, List.filter_reverse,
    List.reverse_reverse]

/-- **A string without barriers is sorted.** -/
theorem stableSort_order (h : ∀ c ∈ s, key c ≠ 0) : StableSort key s (order key s) where
  perm := order_perm s
  sorted := by
    have hne : ∀ c ∈ order key s, key c ≠ 0 := fun c hc => h c ((order_perm s).mem_iff.mp hc)
    have hchain : (order key s).IsChain fun p c => key p ≤ key c := by
      apply (ordered_order s).imp_of_mem_imp
      intro p c _ hc hpc
      exact hpc.resolve_left (hne c hc)
    exact hchain.pairwise
  stable n := filter_order n s

/-- A string that ends in a barrier is ordered by itself. -/
theorem order_append_of_getLast? (h : ∀ p ∈ s.getLast?, key p = 0) (t : List α) :
    order key (s ++ t) = order key s ++ order key t := by
  rcases List.eq_nil_or_concat s with rfl | ⟨s, p, rfl⟩
  · rfl
  · have hp : key p = 0 := h p (by simp)
    rw [List.concat_eq_append, List.append_assoc, List.singleton_append, order_append_barrier hp,
      order_append_barrier hp, order_cons_barrier hp, order_cons_barrier hp, List.append_assoc]
    rfl

/-- So is what stands in front of one. -/
theorem order_append_of_head? (h : ∀ p ∈ t.head?, key p = 0) (s : List α) :
    order key (s ++ t) = order key s ++ order key t := by
  cases t with
  | nil =>
    rw [List.append_nil]
    exact (List.append_nil _).symm
  | cons p t => exact order_append_barrier (h p rfl) s t

end CanonicalOrder
