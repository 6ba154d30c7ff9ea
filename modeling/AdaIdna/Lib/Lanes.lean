/-
AdaIdna/Lib/Lanes.lean

Words as rows of lanes.

`pack w s` is the number whose lanes of `w` bits are `s`, lowest lane first.
A bitwise operation, a sum without carries and a shift that moves no bit out
of its lane act on a packed word lane by lane, so a word-at-a-time loop can be
read as a loop over the lanes.  The statements take the lanes of every operand
as images of one list, which is the form that rewrites a whole expression from
the inside out.
-/
import Mathlib.Tactic

namespace Lanes

/-- The word with the lanes `s`, each of `w` bits, lowest lane first. -/
def pack (w : ℕ) : List ℕ → ℕ
  | [] => 0
  | x :: s => x + 2 ^ w * pack w s

/-- The lowest `n` lanes of a word. -/
def unpack (w : ℕ) : ℕ → ℕ → List ℕ
  | 0, _ => []
  | n + 1, a => a % 2 ^ w :: unpack w n (a / 2 ^ w)

variable {w k x : ℕ} {s : List ℕ} {f g : ℕ → ℕ} {op : ℕ → ℕ → ℕ}

@[simp] theorem pack_nil : pack w [] = 0 := rfl

@[simp] theorem pack_cons : pack w (x :: s) = x + 2 ^ w * pack w s := rfl

theorem pack_lt (h : ∀ x ∈ s, x < 2 ^ w) : pack w s < 2 ^ (w * s.length) := by
  induction s with
  | nil => simp
  | cons x s ih =>
    rw [List.forall_mem_cons] at h
    have hlt : pack w s + 1 ≤ 2 ^ (w * s.length) := ih h.2
    calc x + 2 ^ w * pack w s < 2 ^ w * (pack w s + 1) := by
          rw [Nat.mul_add, Nat.mul_one]
          exact Nat.add_comm _ _ ▸ Nat.add_lt_add_left h.1 _
      _ ≤ 2 ^ w * 2 ^ (w * s.length) := Nat.mul_le_mul_left _ hlt
      _ = 2 ^ (w * (s.length + 1)) := by rw [Nat.mul_add, Nat.mul_one, Nat.add_comm, pow_add]

theorem unpack_pack (h : ∀ x ∈ s, x < 2 ^ w) : unpack w s.length (pack w s) = s := by
  induction s with
  | nil => rfl
  | cons x s ih =>
    rw [List.forall_mem_cons] at h
    have hpos : 0 < 2 ^ w := Nat.two_pow_pos w
    rw [List.length_cons, unpack, pack_cons, Nat.add_mul_mod_self_left, Nat.mod_eq_of_lt h.1,
      Nat.add_mul_div_left _ _ hpos, Nat.div_eq_of_lt h.1, Nat.zero_add, ih h.2]

@[simp] theorem length_unpack (w n a : ℕ) : (unpack w n a).length = n := by
  induction n generalizing a with
  | zero => rfl
  | succ n ih => rw [unpack, List.length_cons, ih]

theorem lt_of_mem_unpack {n a x : ℕ} (h : x ∈ unpack w n a) : x < 2 ^ w := by
  induction n generalizing a with
  | zero => cases h
  | succ n ih =>
    rcases List.mem_cons.mp h with rfl | h
    · exact Nat.mod_lt _ (Nat.two_pow_pos w)
    · exact ih h

theorem pack_unpack (w n a : ℕ) : pack w (unpack w n a) = a % 2 ^ (w * n) := by
  induction n generalizing a with
  | zero => rw [Nat.mul_zero, pow_zero, Nat.mod_one]; rfl
  | succ n ih =>
    rw [unpack, pack_cons, ih, Nat.mul_succ, Nat.add_comm (w * n), pow_add, Nat.mod_mul]

/-- The lanes of a word that fits into them make up the word. -/
theorem pack_unpack_of_lt {n a : ℕ} (h : a < 2 ^ (w * n)) : pack w (unpack w n a) = a := by
  rw [pack_unpack, Nat.mod_eq_of_lt h]

/-- Lower and upper lanes. -/
theorem unpack_add (w m n a : ℕ) :
    unpack w (m + n) a = unpack w m a ++ unpack w n (a / 2 ^ (w * m)) := by
  induction m generalizing a with
  | zero => simp [unpack]
  | succ m ih =>
    rw [Nat.succ_add, unpack, ih, unpack, Nat.div_div_eq_div_mul, ← pow_add, Nat.mul_succ,
      Nat.add_comm w]
    rfl

theorem unpack_mod (w n a : ℕ) : unpack w n (a % 2 ^ (w * n)) = unpack w n a := by
  have hlt : ∀ x ∈ unpack w n a, x < 2 ^ w := fun x => lt_of_mem_unpack
  have h := unpack_pack hlt
  rwa [length_unpack, pack_unpack] at h

theorem pack_eq_zero_iff : pack w s = 0 ↔ ∀ x ∈ s, x = 0 := by
  induction s with
  | nil => simp
  | cons x s ih =>
    rw [List.forall_mem_cons, ← ih, pack_cons, Nat.add_eq_zero_iff, Nat.mul_eq_zero]
    simp

/-! ### Operations on words -/

/-- An operation that works on the bits below a lane boundary and on those
above it separately. -/
structure Lanewise (w : ℕ) (op : ℕ → ℕ → ℕ) : Prop where
  zero : op 0 0 = 0
  mod : ∀ a b, op a b % 2 ^ w = op (a % 2 ^ w) (b % 2 ^ w)
  div : ∀ a b, op a b / 2 ^ w = op (a / 2 ^ w) (b / 2 ^ w)

theorem lanewise_and : Lanewise w (· &&& ·) :=
  ⟨Nat.and_self 0, fun _ _ => Nat.and_mod_two_pow, fun _ _ => Nat.and_div_two_pow⟩

theorem lanewise_xor : Lanewise w (· ^^^ ·) :=
  ⟨Nat.xor_self 0, fun _ _ => Nat.xor_mod_two_pow, fun _ _ => Nat.xor_div_two_pow⟩

theorem Lanewise.pack_map (h : Lanewise w op) (hf : ∀ x ∈ s, f x < 2 ^ w)
    (hg : ∀ x ∈ s, g x < 2 ^ w) :
    op (pack w (s.map f)) (pack w (s.map g)) = pack w (s.map fun x => op (f x) (g x)) := by
  induction s with
  | nil => exact h.zero
  | cons x s ih =>
    rw [List.forall_mem_cons] at hf hg
    have hpos : 0 < 2 ^ w := Nat.two_pow_pos w
    -- the lowest lane, and the lanes above it
    have hmod : ∀ {y a : ℕ}, y < 2 ^ w → (y + 2 ^ w * a) % 2 ^ w = y := fun hy => by
      rw [Nat.add_mul_mod_self_left, Nat.mod_eq_of_lt hy]
    have hdiv : ∀ {y a : ℕ}, y < 2 ^ w → (y + 2 ^ w * a) / 2 ^ w = a := fun hy => by
      rw [Nat.add_mul_div_left _ _ hpos, Nat.div_eq_of_lt hy, Nat.zero_add]
    rw [List.map_cons, List.map_cons, List.map_cons, pack_cons, pack_cons, pack_cons,
      ← ih hf.2 hg.2]
    rw [← Nat.mod_add_div (op _ _) (2 ^ w), h.mod, h.div, hmod hf.1, hmod hg.1, hdiv hf.1,
      hdiv hg.1]

theorem pack_map_add :
    pack w (s.map f) + pack w (s.map g) = pack w (s.map fun x => f x + g x) := by
  induction s with
  | nil => rfl
  | cons x s ih =>
    rw [List.map_cons, List.map_cons, List.map_cons, pack_cons, pack_cons, pack_cons, ← ih]
    ring

/-- A shift by `k`, where the low `k` bits of every lane are clear. -/
theorem pack_map_shiftRight (h : ∀ x ∈ s, 2 ^ k ∣ f x) :
    pack w (s.map f) >>> k = pack w (s.map fun x => f x >>> k) := by
  have hpack : pack w (s.map f) = 2 ^ k * pack w (s.map fun x => f x >>> k) := by
    induction s with
    | nil => rfl
    | cons x s ih =>
      rw [List.forall_mem_cons] at h
      rw [List.map_cons, List.map_cons, pack_cons, pack_cons, ih h.2, Nat.mul_add,
        Nat.shiftRight_eq_div_pow, Nat.mul_div_cancel' h.1]
      ring
  rw [hpack, Nat.shiftRight_eq_div_pow, Nat.mul_div_cancel_left _ (Nat.two_pow_pos k)]

/-! ### Memory order -/

/-- Which end of a word stands first in memory. -/
inductive ByteOrder where
  | little
  | big

namespace ByteOrder

variable {α : Type*}

/-- From memory order to lane order, and back. -/
def arrange : ByteOrder → List α → List α
  | little, s => s
  | big, s => s.reverse

@[simp] theorem arrange_arrange (o : ByteOrder) (s : List α) : o.arrange (o.arrange s) = s := by
  cases o with
  | little => rfl
  | big => exact List.reverse_reverse s

@[simp] theorem length_arrange (o : ByteOrder) (s : List α) : (o.arrange s).length = s.length := by
  cases o with
  | little => rfl
  | big => exact List.length_reverse

@[simp] theorem mem_arrange {o : ByteOrder} {s : List α} {a : α} : a ∈ o.arrange s ↔ a ∈ s := by
  cases o with
  | little => exact Iff.rfl
  | big => exact List.mem_reverse

theorem map_arrange {β : Type*} (o : ByteOrder) (f : α → β) (s : List α) :
    (o.arrange s).map f = o.arrange (s.map f) := by
  cases o with
  | little => rfl
  | big => exact List.map_reverse

end ByteOrder

end Lanes
