/-
AdaIdna/Lib/Checked.lean

Computations whose array accesses are checked.

A computation ends with a value, rejects its input, makes an access outside
an array, or does not end within the rounds it was given.  `Safe` excludes the
last two, and is shown piece by piece: of a sequence by `safe_bind`, of a loop
over a range by the invariant rule `foldlM_range_of_invariant`.
-/
import Mathlib.Tactic

/-- How a computation ends. -/
inductive Checked (α : Type) where
  | ok (a : α)
  | reject
  /-- an access outside an array -/
  | fault
  /-- the rounds of a loop are used up -/
  | timeout
  deriving DecidableEq

namespace Checked

variable {α β ι σ : Type}

protected def bind (x : Checked α) (f : α → Checked β) : Checked β :=
  match x with
  | ok a => f a
  | reject => reject
  | fault => fault
  | timeout => timeout

instance : Monad Checked where
  pure := ok
  bind := Checked.bind

instance : LawfulMonad Checked :=
  LawfulMonad.mk' Checked (fun x => by cases x <;> rfl) (fun _ _ => rfl)
    fun x _ _ => by cases x <;> rfl

@[simp] theorem pure_eq (a : α) : (pure a : Checked α) = ok a := rfl

@[simp] theorem ok_bind (a : α) (f : α → Checked β) : ok a >>= f = f a := rfl

@[simp] theorem reject_bind (f : α → Checked β) : reject >>= f = reject := rfl

@[simp] theorem fault_bind (f : α → Checked β) : fault >>= f = fault := rfl

@[simp] theorem timeout_bind (f : α → Checked β) : timeout >>= f = timeout := rfl

theorem bind_eq_ok {x : Checked α} {f : α → Checked β} {b : β} :
    x >>= f = ok b ↔ ∃ a, x = ok a ∧ f a = ok b := by
  cases x <;> simp

/-! ### Safety -/

/-- The computation ends, with all accesses in range. -/
def Safe (x : Checked α) : Prop := x ≠ fault ∧ x ≠ timeout

@[simp] theorem safe_ok (a : α) : Safe (ok a) := ⟨nofun, nofun⟩

@[simp] theorem safe_reject : Safe (reject : Checked α) := ⟨nofun, nofun⟩

@[simp] theorem not_safe_fault : ¬ Safe (fault : Checked α) := fun h => h.1 rfl

@[simp] theorem not_safe_timeout : ¬ Safe (timeout : Checked α) := fun h => h.2 rfl

theorem safe_bind {x : Checked α} {f : α → Checked β} :
    Safe (x >>= f) ↔ Safe x ∧ ∀ a, x = ok a → Safe (f a) := by
  cases x <;> simp

/-- The computation is safe, and if it ends with a value, the value is good. -/
def Meets (x : Checked α) (Q : α → Prop) : Prop := Safe x ∧ ∀ a, x = ok a → Q a

theorem meets_ok {a : α} {Q : α → Prop} : Meets (ok a) Q ↔ Q a := by
  simp [Meets]

theorem meets_reject {Q : α → Prop} : Meets reject Q := by
  simp [Meets]

theorem Meets.bind {x : Checked α} {f : α → Checked β} {Q : α → Prop} {R : β → Prop}
    (hx : Meets x Q) (hf : ∀ a, Q a → Meets (f a) R) : Meets (x >>= f) R := by
  refine ⟨safe_bind.mpr ⟨hx.1, fun a ha => (hf a (hx.2 a ha)).1⟩, fun b hb => ?_⟩
  obtain ⟨a, ha, hb⟩ := bind_eq_ok.mp hb
  exact (hf a (hx.2 a ha)).2 b hb

theorem Meets.mono {x : Checked α} {Q R : α → Prop} (hx : Meets x Q) (h : ∀ a, Q a → R a) :
    Meets x R := ⟨hx.1, fun a ha => h a (hx.2 a ha)⟩

/-- The value may be referred to by what computes it. -/
theorem Meets.and_eq {x : Checked α} {Q : α → Prop} (hx : Meets x Q) :
    Meets x fun a => x = ok a ∧ Q a := ⟨hx.1, fun a ha => ⟨ha, hx.2 a ha⟩⟩

theorem meets_of_eq {x : Checked α} {a : α} {Q : α → Prop} (h : x = ok a) (hQ : Q a) :
    Meets x Q := by
  rw [h, meets_ok]
  exact hQ

/-! ### Arrays -/

/-- `xs[i]` -/
def read (xs : List α) (i : ℕ) : Checked α :=
  match xs[i]? with
  | some a => ok a
  | none => fault

/-- `xs[i]` with a signed index. -/
def readInt (xs : List α) (i : ℤ) : Checked α := if i < 0 then fault else read xs i.toNat

/-- `xs[i] = v` -/
def write (xs : List α) (i : ℕ) (v : α) : Checked (List α) :=
  if i < xs.length then ok (xs.set i v) else fault

theorem read_eq_ok {xs : List α} {i : ℕ} {a : α} : read xs i = ok a ↔ xs[i]? = some a := by
  rw [read]
  cases xs[i]? <;> simp

theorem read_of_lt {xs : List α} {i : ℕ} (h : i < xs.length) : read xs i = ok xs[i] :=
  read_eq_ok.mpr (List.getElem?_eq_getElem h)

theorem readInt_natCast (xs : List α) (i : ℕ) : readInt xs i = read xs i := by
  rw [readInt, if_neg (by omega), Int.toNat_natCast]

theorem write_of_lt {xs : List α} {i : ℕ} (h : i < xs.length) (v : α) :
    write xs i v = ok (xs.set i v) := if_pos h

/-! ### Loops -/

/-- **A loop that counts**, with an invariant. -/
theorem foldlM_range_of_invariant {f : σ → ℕ → Checked σ} (P : ℕ → σ → Prop) {s : σ} {n : ℕ}
    (h0 : P 0 s) (hstep : ∀ i s, i < n → P i s → ∃ s', f s i = ok s' ∧ P (i + 1) s') :
    ∃ s', (List.range n).foldlM f s = ok s' ∧ P n s' := by
  induction n with
  | zero => exact ⟨s, rfl, h0⟩
  | succ n ih =>
    obtain ⟨s', hs', hP⟩ := ih fun i s hi => hstep i s (Nat.lt_succ_of_lt hi)
    obtain ⟨s'', hs'', hP'⟩ := hstep n s' (Nat.lt_succ_self n) hP
    refine ⟨s'', ?_, hP'⟩
    rw [List.range_succ, List.foldlM_append, hs', ok_bind, List.foldlM_cons, hs'']
    rfl

/-- A loop that may reject. -/
theorem Meets.foldlM_range {f : σ → ℕ → Checked σ} (P : ℕ → σ → Prop) {s : σ} {n : ℕ}
    (h0 : P 0 s) (hstep : ∀ i s, i < n → P i s → Meets (f s i) (P (i + 1))) :
    Meets ((List.range n).foldlM f s) (P n) := by
  induction n with
  | zero => exact meets_ok.mpr h0
  | succ n ih =>
    rw [List.range_succ, List.foldlM_append]
    refine (ih fun i s hi => hstep i s (Nat.lt_succ_of_lt hi)).bind fun s' hP => ?_
    rw [List.foldlM_cons]
    exact (hstep n s' (Nat.lt_succ_self n) hP).bind fun s'' hP' => meets_ok.mpr hP'

end Checked
