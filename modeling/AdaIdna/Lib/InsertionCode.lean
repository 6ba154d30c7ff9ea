/-
AdaIdna/Lib/InsertionCode.lean

Coding a string of numbers by the order in which its large symbols are
inserted.

The reader's state is a string `out`, a symbol `n` and a cursor `i`.  A delta
`d` moves the cursor `d` places forward, wrapping round at the end of the
string and raising `n` by one with every turn, and inserts `n` where the
cursor stops.  The writer walks the string once for every symbol it still has
to place, counts the symbols the reader would step over, and emits the count
at each occurrence.

Two facts make this a code:

* `run_deltas`: reading what the writer emits gives the string back.  The
  simulation relation is `Sync`: at every moment of the writer's walk the
  reader holds exactly the symbols that precede the walk in the order
  (symbol, position).
* `run_injective`: a string can be reached by one list of deltas only.  The
  reader's cursor is always just behind the last of the greatest symbols
  (`Marked`), so the finished string shows which insertion came last, and the
  whole run can be undone.

`Bounded` and `bounded_deltas_iff` say how large the reader's running index
gets, in terms of the string alone.
-/
import Mathlib.Tactic

namespace InsertionCode

/-- The reader: the string so far, the current symbol and the cursor. -/
structure State where
  out : List ℕ
  n : ℕ
  i : ℕ

namespace State

/-- The running index of a delta. -/
def index (σ : State) (d : ℕ) : ℕ := σ.i + d

/-- Where the delta inserts. -/
def place (σ : State) (d : ℕ) : ℕ := σ.index d % (σ.out.length + 1)

/-- What the delta inserts. -/
def symbol (σ : State) (d : ℕ) : ℕ := σ.n + σ.index d / (σ.out.length + 1)

/-- Read one delta. -/
def step (σ : State) (d : ℕ) : State where
  out := σ.out.insertIdx (σ.place d) (σ.symbol d)
  n := σ.symbol d
  i := σ.place d + 1

theorem place_le (σ : State) (d : ℕ) : σ.place d ≤ σ.out.length :=
  Nat.le_of_lt_succ (Nat.mod_lt _ (Nat.succ_pos _))

@[simp] theorem step_n (σ : State) (d : ℕ) : (σ.step d).n = σ.symbol d := rfl

@[simp] theorem step_i (σ : State) (d : ℕ) : (σ.step d).i = σ.place d + 1 := rfl

@[simp] theorem length_step (σ : State) (d : ℕ) :
    (σ.step d).out.length = σ.out.length + 1 :=
  List.length_insertIdx_of_le_length (σ.place_le d) _

/-- The cursor stays within the string. -/
def Inside (σ : State) : Prop := σ.i ≤ σ.out.length

theorem inside_step (σ : State) (d : ℕ) : (σ.step d).Inside := by
  have := σ.place_le d
  show σ.place d + 1 ≤ (σ.step d).out.length
  rw [length_step]
  omega

end State

/-- Read a list of deltas. -/
def run (σ : State) (ds : List ℕ) : State := ds.foldl State.step σ

@[simp] theorem run_nil (σ : State) : run σ [] = σ := rfl

@[simp] theorem run_cons (σ : State) (d : ℕ) (ds : List ℕ) :
    run σ (d :: ds) = run (σ.step d) ds := rfl

theorem run_append (σ : State) (ds es : List ℕ) : run σ (ds ++ es) = run (run σ ds) es :=
  List.foldl_append

/-- The state before anything is inserted. -/
def start (n₀ : ℕ) (s : List ℕ) : State := ⟨s, n₀, 0⟩

theorem insertIdx_length_append (A B : List ℕ) (x : ℕ) :
    (A ++ B).insertIdx A.length x = A ++ x :: B := by
  induction A with
  | nil => rfl
  | cons a A ih => simpa using ih

/-! ### The cursor marks the last insertion -/

/-- `s` splits at the last occurrence of its greatest symbol `n`. -/
structure TopSplit (s A : List ℕ) (n : ℕ) (B : List ℕ) : Prop where
  eq : s = A ++ n :: B
  left : ∀ x ∈ A, x ≤ n
  right : ∀ x ∈ B, x < n

theorem TopSplit.unique {s A A' B B' : List ℕ} {n n' : ℕ} (h : TopSplit s A n B)
    (h' : TopSplit s A' n' B') : A = A' ∧ n = n' ∧ B = B' := by
  -- the symbol of a split is the greatest of `s`, so both have the same one
  have bound : ∀ {A B : List ℕ} {n : ℕ}, TopSplit s A n B → ∀ x ∈ s, x ≤ n := by
    intro A B n h x hx
    rw [h.eq, List.mem_append, List.mem_cons] at hx
    rcases hx with hx | rfl | hx
    · exact h.left x hx
    · exact le_rfl
    · exact (h.right x hx).le
  have hn : n = n' := by
    refine le_antisymm (bound h' n ?_) (bound h n' ?_)
    · rw [h.eq]; simp
    · rw [h'.eq]; simp
  subst hn
  have hB : n ∉ B := fun hm => (h.right n hm).false
  have hB' : n ∉ B' := fun hm => (h'.right n hm).false
  have e : A ++ n :: B = A' ++ n :: B' := h.eq.symm.trans h'.eq
  -- the tails behind the last `n` have the same length
  rcases List.append_eq_append_iff.mp e with ⟨C, hA, hC⟩ | ⟨C, hA, hC⟩
  · cases C with
    | nil => simp_all
    | cons c C =>
      obtain ⟨rfl, rfl⟩ := List.cons.inj hC
      exact absurd (by simp) hB
  · cases C with
    | nil => simp_all
    | cons c C =>
      obtain ⟨rfl, rfl⟩ := List.cons.inj hC
      exact absurd (by simp) hB'

/-- Either nothing has been inserted yet, or the cursor stands just behind the
last of the greatest symbols, which is the current one. -/
def State.Marked (n₀ : ℕ) (σ : State) : Prop :=
  (σ.n = n₀ ∧ σ.i = 0 ∧ ∀ x ∈ σ.out, x < n₀) ∨
    ∃ A B, TopSplit σ.out A σ.n B ∧ σ.i = A.length + 1 ∧ n₀ ≤ σ.n

theorem State.Marked.le {n₀ : ℕ} {σ : State} (h : σ.Marked n₀) : n₀ ≤ σ.n := by
  rcases h with ⟨h, -, -⟩ | ⟨-, -, -, -, h⟩
  · exact h.ge
  · exact h

theorem State.Marked.le_symbol {n₀ : ℕ} {σ : State} (h : σ.Marked n₀) {x : ℕ}
    (hx : x ∈ σ.out) : x ≤ σ.n := by
  rcases h with ⟨hn, -, hlt⟩ | ⟨A, B, hs, -, -⟩
  · exact hn ▸ (hlt x hx).le
  · rw [hs.eq, List.mem_append, List.mem_cons] at hx
    rcases hx with hx | rfl | hx
    · exact hs.left x hx
    · exact le_rfl
    · exact (hs.right x hx).le

theorem State.Marked.lt_symbol {n₀ : ℕ} {σ : State} (h : σ.Marked n₀) {k x : ℕ}
    (hk : σ.i ≤ k) (hx : x ∈ σ.out.drop k) : x < σ.n := by
  rcases h with ⟨hn, -, hlt⟩ | ⟨A, B, hs, hi, -⟩
  · exact hn ▸ hlt x (List.mem_of_mem_drop hx)
  · obtain ⟨j, rfl⟩ : ∃ j, k = (A ++ [σ.n]).length + j :=
      Nat.exists_eq_add_of_le (by simpa [hi] using hk)
    rw [hs.eq, show A ++ σ.n :: B = (A ++ [σ.n]) ++ B by simp,
      List.drop_length_add_append] at hx
    exact hs.right x (List.mem_of_mem_drop hx)

/-- One step splits the old string at the place of insertion, and the new
symbol dominates both sides. -/
theorem State.Marked.step_split {n₀ : ℕ} {σ : State} (h : σ.Marked n₀) (d : ℕ) :
    ∃ A B, σ.out = A ++ B ∧ A.length = σ.place d ∧
      TopSplit (σ.step d).out A (σ.symbol d) B := by
  have hl : (σ.out.take (σ.place d)).length = σ.place d :=
    List.length_take_of_le (σ.place_le d)
  have hle : σ.n ≤ σ.symbol d := Nat.le_add_right _ _
  refine ⟨σ.out.take (σ.place d), σ.out.drop (σ.place d), (List.take_append_drop _ _).symm,
    hl, ?_, fun x hx => (h.le_symbol (List.mem_of_mem_take hx)).trans hle, fun x hx => ?_⟩
  · have := insertIdx_length_append (σ.out.take (σ.place d)) (σ.out.drop (σ.place d))
      (σ.symbol d)
    rwa [List.take_append_drop, hl] at this
  · rcases Nat.eq_zero_or_pos (σ.index d / (σ.out.length + 1)) with hq | hq
    · -- no turn: the cursor moved right, and what is behind it is below `n`
      have hplace : σ.place d = σ.i + d := by
        have := Nat.mod_add_div (σ.index d) (σ.out.length + 1)
        rwa [hq, Nat.mul_zero, Nat.add_zero] at this
      exact (h.lt_symbol (by omega) hx).trans_le hle
    · -- a turn: the symbol has grown
      have := h.le_symbol (List.mem_of_mem_drop hx)
      have : σ.n < σ.symbol d := Nat.lt_add_of_pos_right hq
      omega

theorem State.Marked.step {n₀ : ℕ} {σ : State} (h : σ.Marked n₀) (d : ℕ) :
    (σ.step d).Marked n₀ := by
  obtain ⟨A, B, -, hlen, hs⟩ := h.step_split d
  exact Or.inr ⟨A, B, hs, by simp [hlen], h.le.trans (Nat.le_add_right _ _)⟩

theorem State.Marked.run {n₀ : ℕ} {σ : State} (h : σ.Marked n₀) (ds : List ℕ) :
    (InsertionCode.run σ ds).Marked n₀ := by
  induction ds generalizing σ with
  | nil => exact h
  | cons d ds ih => exact ih (h.step d)

theorem marked_start {n₀ : ℕ} {s : List ℕ} (h : ∀ x ∈ s, x < n₀) : (start n₀ s).Marked n₀ :=
  Or.inl ⟨rfl, rfl, h⟩

/-! ### A string has one list of deltas -/

/-- A delta is determined by where and what it inserts. -/
theorem State.index_eq (σ : State) (d : ℕ) :
    σ.index d = (σ.symbol d - σ.n) * (σ.out.length + 1) + σ.place d := by
  have := Nat.mod_add_div (σ.index d) (σ.out.length + 1)
  rw [symbol, Nat.add_sub_cancel_left, place, Nat.mul_comm]
  omega

/-- A step can be undone: equal strings after it come from equal strings
before it, by an insertion of the same symbol at the same place. -/
theorem step_injective {n₀ : ℕ} {σ τ : State} (hσ : σ.Marked n₀) (hτ : τ.Marked n₀) {d e : ℕ}
    (h : (σ.step d).out = (τ.step e).out) :
    σ.out = τ.out ∧ σ.symbol d = τ.symbol e ∧ σ.place d = τ.place e := by
  obtain ⟨A, B, hout, hlen, hs⟩ := hσ.step_split d
  obtain ⟨A', B', hout', hlen', hs'⟩ := hτ.step_split e
  obtain ⟨rfl, hn, rfl⟩ := hs.unique (h ▸ hs')
  exact ⟨hout.trans hout'.symm, hn, hlen.symm.trans hlen'⟩

/-- After an insertion the string holds a symbol that no starting string has. -/
theorem start_out_ne_step {n₀ : ℕ} {s : List ℕ} (hs : ∀ x ∈ s, x < n₀) {σ : State}
    (hσ : σ.Marked n₀) (d : ℕ) : s ≠ (σ.step d).out := by
  intro e
  obtain ⟨A, B, -, -, ht⟩ := hσ.step_split d
  have hmem : σ.symbol d ∈ s := by rw [e, ht.eq]; simp
  have := hs _ hmem
  have := hσ.le
  have : σ.n ≤ σ.symbol d := Nat.le_add_right _ _
  omega

/-- **A string is reached by one list of deltas only**, from one starting
string only. -/
theorem run_injective {n₀ : ℕ} {s t : List ℕ} (hs : ∀ x ∈ s, x < n₀) (ht : ∀ x ∈ t, x < n₀)
    {ds es : List ℕ} (h : (run (start n₀ s) ds).out = (run (start n₀ t) es).out) :
    s = t ∧ ds = es := by
  -- from the back: the last insertion shows in the result, and can be undone
  induction ds using List.reverseRecOn generalizing es with
  | nil =>
    rcases List.eq_nil_or_concat es with rfl | ⟨es, e, rfl⟩
    · exact ⟨h, rfl⟩
    · rw [List.concat_eq_append, run_append] at h
      exact absurd h (start_out_ne_step hs ((marked_start ht).run es) e)
  | append_singleton ds d ih =>
    rcases List.eq_nil_or_concat es with rfl | ⟨es, e, rfl⟩
    · rw [run_append] at h
      exact absurd h.symm (start_out_ne_step ht ((marked_start hs).run ds) d)
    · rw [List.concat_eq_append, run_append, run_append] at h
      obtain ⟨hout, hsym, hplace⟩ :=
        step_injective ((marked_start hs).run ds) ((marked_start ht).run es) h
      obtain ⟨rfl, rfl⟩ := ih hout
      refine ⟨rfl, ?_⟩
      have hd := (run (start n₀ s) ds).index_eq d
      rw [hsym, hplace, ← State.index_eq] at hd
      rw [List.concat_eq_append, Nat.add_left_cancel hd]

/-! ### The writer -/

/-- Walk the string for the symbol `n`, with `d` counted so far: a smaller
symbol is one more place to step over, an occurrence of `n` emits the count. -/
def scan (n : ℕ) : List ℕ → ℕ → List ℕ × ℕ
  | [], d => ([], d)
  | c :: cs, d =>
    if c < n then scan n cs (d + 1)
    else if c = n then (d :: (scan n cs 0).1, (scan n cs 0).2)
    else scan n cs d

/-- The better candidate for the least symbol from `n` on. -/
def closer (n m c : ℕ) : ℕ := if n ≤ c ∧ c < m then c else m

/-- The least symbol of `s` that is at least `n`, or `top` if there is none
below it. -/
def least (top n : ℕ) (s : List ℕ) : ℕ := s.foldl (closer n) top

/-- Walk the string for one symbol after the other until all `h` symbols are
placed.  `fuel` bounds the number of walks. -/
def sweep (top : ℕ) (s : List ℕ) : ℕ → ℕ → ℕ → ℕ → List ℕ
  | 0, _, _, _ => []
  | fuel + 1, n, d, h =>
    if h < s.length then
      let m := least top n s
      let r := scan m s (d + (m - n) * (h + 1))
      r.1 ++ sweep top s fuel (m + 1) (r.2 + 1) (h + r.1.length)
    else []

/-- The deltas of a string whose symbols from `n₀` on are inserted. -/
def deltas (top n₀ : ℕ) (s : List ℕ) : List ℕ :=
  sweep top s s.length n₀ 0 (s.filter (· < n₀)).length

/-- The part of `ps ++ cs` that precedes the walk for `n` standing between
`ps` and `cs`, in the order (symbol, position). -/
def placed (ps cs : List ℕ) (n : ℕ) : List ℕ :=
  ps.filter (· ≤ n) ++ cs.filter (· < n)

/-- The reader and the writer's walk agree: the reader holds the symbols that
precede the walk, and its cursor is `d` places before the one that the walk
has come to. -/
structure Sync (σ : State) (ps cs : List ℕ) (n d : ℕ) : Prop where
  out : σ.out = placed ps cs n
  n_le : σ.n ≤ n
  cursor : σ.i + d
    = (n - σ.n) * ((placed ps cs n).length + 1) + (ps.filter (· ≤ n)).length

variable {σ : State} {ps cs s : List ℕ} {c n d : ℕ}

theorem placed_lt (h : c < n) : placed (ps ++ [c]) cs n = placed ps (c :: cs) n := by
  simp [placed, h, h.le]

theorem placed_gt (h : n < c) : placed (ps ++ [c]) cs n = placed ps (c :: cs) n := by
  simp [placed, h.not_ge, h.not_gt]

theorem Sync.pass_lt (h : Sync σ ps (c :: cs) n d) (hc : c < n) :
    Sync σ (ps ++ [c]) cs n (d + 1) where
  out := (placed_lt hc).symm ▸ h.out
  n_le := h.n_le
  cursor := by
    have := h.cursor
    rw [placed_lt hc, List.filter_append, List.length_append]
    simp [hc.le]
    omega

theorem Sync.pass_gt (h : Sync σ ps (c :: cs) n d) (hc : n < c) : Sync σ (ps ++ [c]) cs n d where
  out := (placed_gt hc).symm ▸ h.out
  n_le := h.n_le
  cursor := by
    have := h.cursor
    rw [placed_gt hc, List.filter_append, List.length_append]
    simpa [hc.not_ge] using this

/-- The running index of a delta that is emitted at the symbol `n`. -/
theorem Sync.index (h : Sync σ ps (n :: cs) n d) :
    σ.index d = (n - σ.n) * ((placed ps cs n).length + 1) + (ps.filter (· ≤ n)).length := by
  have := h.cursor
  simpa [placed, State.index] using this

theorem Sync.place_symbol (h : Sync σ ps (n :: cs) n d) :
    σ.place d = (ps.filter (· ≤ n)).length ∧ σ.symbol d = n := by
  have hout : σ.out = placed ps cs n := by simpa [placed] using h.out
  have hlt : (ps.filter (· ≤ n)).length < σ.out.length + 1 := by
    rw [hout, placed, List.length_append]
    omega
  have hidx := h.index
  rw [← hout] at hidx
  -- the part below `σ.out.length + 1` is the place, the rest are the turns
  refine ⟨?_, ?_⟩
  · rw [State.place, hidx, Nat.add_comm, Nat.add_mul_mod_self_right, Nat.mod_eq_of_lt hlt]
  · rw [State.symbol, hidx, Nat.add_comm ((n - σ.n) * _), Nat.add_mul_div_right _ _ (by omega),
      Nat.div_eq_of_lt hlt]
    have := h.n_le
    omega

/-- Emitting: the reader inserts the symbol the walk stands at. -/
theorem Sync.emit (h : Sync σ ps (n :: cs) n d) : Sync (σ.step d) (ps ++ [n]) cs n 0 := by
  obtain ⟨hplace, hsym⟩ := h.place_symbol
  have hps : (ps ++ [n]).filter (· ≤ n) = ps.filter (· ≤ n) ++ [n] := by simp
  refine ⟨?_, ?_, ?_⟩
  · have hout : σ.out = ps.filter (· ≤ n) ++ cs.filter (· < n) := by
      simpa [placed] using h.out
    show σ.out.insertIdx (σ.place d) (σ.symbol d) = _
    rw [hplace, hsym, hout, insertIdx_length_append, placed, hps, List.append_assoc]
    rfl
  · rw [State.step_n, hsym]
  · rw [State.step_i, State.step_n, hplace, hsym, hps]
    simp

/-- The walk of one symbol. -/
theorem Sync.scan (h : Sync σ ps cs n d) :
    Sync (run σ (scan n cs d).1) (ps ++ cs) [] n (scan n cs d).2 := by
  -- on what the walk has still to visit; `Sync` is carried along
  induction cs generalizing σ ps d with
  | nil => simpa [InsertionCode.scan] using h
  | cons c cs ih =>
    rw [List.append_cons]
    rcases lt_trichotomy c n with hc | rfl | hc
    · simpa only [InsertionCode.scan, if_pos hc] using ih (h.pass_lt hc)
    · simpa only [InsertionCode.scan, if_neg (lt_irrefl c), if_pos trivial, run_cons]
        using ih h.emit
    · simpa only [InsertionCode.scan, if_neg hc.not_gt, if_neg hc.ne'] using ih (h.pass_gt hc)

/-- From the end of one walk to the beginning of the next. -/
theorem Sync.next (h : Sync σ s [] n d) : Sync σ [] s (n + 1) (d + 1) := by
  have hfil : s.filter (· ≤ n) = s.filter (· < n + 1) := by
    congr 1
    funext x
    simp
  have hlen : (placed s [] n).length = (s.filter (· ≤ n)).length := by simp [placed]
  have hpl : placed [] s (n + 1) = placed s [] n := by simp [placed, hfil]
  refine ⟨hpl ▸ h.out, h.n_le.trans (Nat.le_succ n), ?_⟩
  have hc := h.cursor
  have hn := h.n_le
  rw [hpl, Nat.succ_sub hn, Nat.succ_mul]
  simp only [List.filter_nil, List.length_nil]
  omega

/-- Skipping symbols that do not occur. -/
theorem Sync.skip {m : ℕ} (h : Sync σ [] s n d) (hm : n ≤ m) (hs : ∀ x ∈ s, x < m → x < n) :
    Sync σ [] s m (d + (m - n) * ((s.filter (· < n)).length + 1)) := by
  -- no symbol lies between, so what is placed is the same
  have hfil : s.filter (· < m) = s.filter (· < n) := by
    refine List.filter_congr fun x hx => ?_
    have := hs x hx
    simp only [decide_eq_decide]
    omega
  have hpl : placed [] s m = placed [] s n := by simp [placed, hfil]
  refine ⟨hpl ▸ h.out, h.n_le.trans hm, ?_⟩
  have hc := h.cursor
  have hn := h.n_le
  have hsub : m - σ.n = (n - σ.n) + (m - n) := by omega
  rw [hpl, hsub, Nat.add_mul]
  simp only [placed, List.filter_nil, List.nil_append, List.length_nil] at hc ⊢
  omega

/-! ### The next symbol -/

theorem closer_le (n m c : ℕ) : closer n m c ≤ m ∧ (n ≤ c → closer n m c ≤ c) := by
  unfold closer
  split <;> omega

theorem foldl_closer (n m : ℕ) (s : List ℕ) :
    s.foldl (closer n) m ≤ m ∧ (∀ y ∈ s, n ≤ y → s.foldl (closer n) m ≤ y) ∧
      (s.foldl (closer n) m = m ∨ s.foldl (closer n) m ∈ s ∧ n ≤ s.foldl (closer n) m) := by
  induction s generalizing m with
  | nil => simp
  | cons c s ih =>
    obtain ⟨h1, h2, h3⟩ := ih (closer n m c)
    obtain ⟨hm, hc⟩ := closer_le n m c
    rw [List.foldl_cons]
    refine ⟨h1.trans hm, fun y hy hn => ?_, ?_⟩
    · rcases List.mem_cons.mp hy with rfl | hy
      · exact h1.trans (hc hn)
      · exact h2 y hy hn
    · rcases h3 with h3 | h3
      · rw [h3, closer]
        split
        · rename_i hcm
          exact Or.inr ⟨List.mem_cons_self, hcm.1⟩
        · exact Or.inl rfl
      · exact Or.inr ⟨List.mem_cons_of_mem _ h3.1, h3.2⟩

/-- If a symbol is left, `least` finds the least one. -/
theorem least_spec {top x : ℕ} (hx : x ∈ s) (hn : n ≤ x) (htop : ∀ y ∈ s, y ≤ top) :
    least top n s ∈ s ∧ n ≤ least top n s ∧ ∀ y ∈ s, n ≤ y → least top n s ≤ y := by
  obtain ⟨h1, h2, h3⟩ := foldl_closer n top s
  rcases h3 with h3 | ⟨h3, h4⟩
  -- nothing is below `top`: then `x` is `top`
  · have hxt : least top n s = x := by
      have h5 : least top n s ≤ x := h2 x hx hn
      have h6 : least top n s = top := h3
      have := htop x hx
      omega
    exact ⟨hxt ▸ hx, hxt ▸ hn, h2⟩
  · exact ⟨h3, h4, h2⟩

theorem scan_ne_nil (h : n ∈ cs) : (scan n cs d).1 ≠ [] := by
  induction cs generalizing d with
  | nil => simp at h
  | cons c cs ih =>
    rw [scan]
    split
    · rename_i hc
      exact ih (by simpa [hc.ne'] using h)
    · split
      · simp
      · rename_i hc
        exact ih (by simpa [Ne.symm hc] using h)

/-- The count that enters a walk comes out somewhere. -/
theorem scan_le {M : ℕ} (h : ∀ δ ∈ (scan n cs d).1, δ ≤ M) (h' : (scan n cs d).2 ≤ M) :
    d ≤ M := by
  induction cs generalizing d with
  | nil => exact h'
  | cons c cs ih =>
    rw [scan] at h h'
    split at h
    · rename_i hc
      rw [if_pos hc] at h'
      exact (Nat.le_succ d).trans (ih h h')
    · rename_i hc
      rw [if_neg hc] at h'
      split at h
      · exact h d List.mem_cons_self
      · rename_i hne
        rw [if_neg hne] at h'
        exact ih h h'

/-- A walk that finds its symbol ends with a small count. -/
theorem scan_snd_le (cs : List ℕ) : (scan n cs d).2 ≤ d + cs.length ∧
    (n ∈ cs → (scan n cs d).2 < cs.length) := by
  induction cs generalizing d with
  | nil => exact ⟨le_rfl, fun h => by cases h⟩
  | cons c cs ih =>
    rw [scan, List.length_cons]
    rcases lt_trichotomy c n with hc | rfl | hc
    · rw [if_pos hc]
      obtain ⟨h₁, h₂⟩ := ih (d := d + 1)
      refine ⟨by omega, fun hm => ?_⟩
      have := h₂ (by simpa [hc.ne'] using hm)
      omega
    · rw [if_neg (lt_irrefl c), if_pos rfl]
      have : (scan c cs 0).2 ≤ 0 + cs.length := (ih (d := 0)).1
      exact ⟨by omega, fun _ => by omega⟩
    · rw [if_neg hc.not_gt, if_neg hc.ne']
      obtain ⟨h₁, h₂⟩ := ih (d := d)
      refine ⟨by omega, fun hm => ?_⟩
      have := h₂ (by simpa [hc.ne] using hm)
      omega

/-- Symbols already placed are only counted. -/
theorem scan_append_of_lt {l : List ℕ} (h : ∀ x ∈ l, x < n) :
    scan n (l ++ cs) d = scan n cs (d + l.length) := by
  induction l generalizing d with
  | nil => rfl
  | cons x l ih =>
    rw [List.forall_mem_cons] at h
    rw [List.cons_append, scan, if_pos h.1, ih h.2, List.length_cons, Nat.add_right_comm,
      Nat.add_assoc]

/-- Symbols already placed are no candidates. -/
theorem least_append_of_lt {l : List ℕ} {top : ℕ} (h : ∀ x ∈ l, x < n) :
    least top n (l ++ cs) = least top n cs := by
  have hskip : l.foldl (closer n) top = top := by
    induction l with
    | nil => rfl
    | cons x l ih =>
      rw [List.forall_mem_cons] at h
      rw [List.foldl_cons, closer, if_neg (by omega), ih h.2]
  rw [least, List.foldl_append, hskip]
  rfl

theorem State.mem_step {x : ℕ} (d : ℕ) (hx : x ∈ σ.out) : x ∈ (σ.step d).out :=
  (List.mem_insertIdx (σ.place_le d)).mpr (Or.inr hx)

theorem State.symbol_mem_step (σ : State) (d : ℕ) : σ.symbol d ∈ (σ.step d).out :=
  (List.mem_insertIdx (σ.place_le d)).mpr (Or.inl rfl)

/-- Nothing is lost by reading on. -/
theorem mem_run {x : ℕ} {ds : List ℕ} (hx : x ∈ σ.out) : x ∈ (run σ ds).out := by
  induction ds generalizing σ with
  | nil => exact hx
  | cons d ds ih => exact ih (σ.mem_step d hx)

/-- What a run inserts is at least the current symbol. -/
theorem mem_or_le_of_mem_run {x : ℕ} {ds : List ℕ} (hx : x ∈ (run σ ds).out) :
    x ∈ σ.out ∨ σ.n ≤ x := by
  induction ds generalizing σ with
  | nil => exact Or.inl hx
  | cons d ds ih =>
    have hle : σ.n ≤ σ.symbol d := Nat.le_add_right _ _
    rcases ih hx with h | h
    · rcases (List.mem_insertIdx (σ.place_le d)).mp h with rfl | h
      · exact Or.inr hle
      · exact Or.inl h
    · exact Or.inr (hle.trans h)

theorem length_run (σ : State) (ds : List ℕ) :
    (run σ ds).out.length = σ.out.length + ds.length := by
  induction ds generalizing σ with
  | nil => rfl
  | cons d ds ih => rw [run_cons, ih, State.length_step, List.length_cons]; omega

/-! ### Reading what is written -/

theorem Sync.length_out (h : Sync σ [] s n d) : σ.out.length = (s.filter (· < n)).length := by
  rw [h.out]
  simp [placed]

/-- The walk for the next symbol, up to the beginning of the walk after it. -/
theorem Sync.walk {top : ℕ} (htop : ∀ y ∈ s, y ≤ top) (h : Sync σ [] s n d)
    (hlt : (s.filter (· < n)).length < s.length) :
    least top n s ∈ s ∧ n ≤ least top n s ∧ (∀ y ∈ s, n ≤ y → least top n s ≤ y) ∧
      Sync σ [] s (least top n s)
        (d + (least top n s - n) * ((s.filter (· < n)).length + 1)) := by
  obtain ⟨x, hx, hxn⟩ := List.length_filter_lt_length_iff_exists.mp hlt
  obtain ⟨hmem, hn, hmin⟩ := least_spec hx (by simpa using hxn) htop
  refine ⟨hmem, hn, hmin, h.skip hn fun y hy hym => ?_⟩
  by_contra hyn
  have := hmin y hy (by omega)
  omega

/-- What one round of `sweep` leaves for the next. -/
theorem Sync.round {top : ℕ} (htop : ∀ y ∈ s, y ≤ top) (h : Sync σ [] s n d)
    (hlt : (s.filter (· < n)).length < s.length) :
    let m := least top n s
    let r := InsertionCode.scan m s (d + (m - n) * ((s.filter (· < n)).length + 1))
    Sync (run σ r.1) [] s (m + 1) (r.2 + 1) ∧
      (s.filter (· < n)).length + r.1.length = (s.filter (· < m + 1)).length ∧
      (s.filter (· < n)).length < (s.filter (· < m + 1)).length := by
  intro m r
  obtain ⟨hmem, -, -, hskip⟩ := h.walk htop hlt
  have hnext : Sync (run σ r.1) [] s (m + 1) (r.2 + 1) := hskip.scan.next
  have hlen : (s.filter (· < n)).length + r.1.length = (s.filter (· < m + 1)).length := by
    rw [← hnext.length_out, length_run, h.length_out]
  have hne : 0 < r.1.length := List.length_pos_iff.mpr (scan_ne_nil hmem)
  exact ⟨hnext, hlen, by omega⟩

theorem Sync.done (h : Sync σ [] s n d) (hl : s.length ≤ (s.filter (· < n)).length) :
    σ.out = s := by
  rw [h.out]
  exact List.filter_sublist.eq_of_length_le hl

/-- All the walks. -/
theorem Sync.sweep {top : ℕ} (htop : ∀ y ∈ s, y ≤ top) {fuel : ℕ} (h : Sync σ [] s n d)
    (hf : s.length ≤ fuel + (s.filter (· < n)).length) :
    (run σ (sweep top s fuel n d (s.filter (· < n)).length)).out = s := by
  induction fuel generalizing σ n d with
  | zero => exact h.done (by omega)
  | succ fuel ih =>
    rw [InsertionCode.sweep]
    split
    · rename_i hlt
      obtain ⟨hnext, hlen, hgrow⟩ := h.round htop hlt
      rw [run_append, hlen]
      exact ih hnext (by omega)
    · exact h.done (by omega)

theorem sync_start (n₀ : ℕ) (s : List ℕ) :
    Sync (start n₀ (s.filter (· < n₀))) [] s n₀ 0 :=
  ⟨by simp [start, placed], le_rfl, by simp [start]⟩

/-- **Reading the deltas of a string gives the string.** -/
theorem run_deltas {top : ℕ} (n₀ : ℕ) (htop : ∀ y ∈ s, y ≤ top) :
    (run (start n₀ (s.filter (· < n₀))) (deltas top n₀ s)).out = s :=
  (sync_start n₀ s).sweep htop (by omega)

/-- The deltas that reach a string are its deltas. -/
theorem eq_deltas {top n₀ : ℕ} {t ds : List ℕ} (ht : ∀ x ∈ t, x < n₀)
    (htop : ∀ y ∈ s, y ≤ top) (h : (run (start n₀ t) ds).out = s) :
    t = s.filter (· < n₀) ∧ ds = deltas top n₀ s :=
  run_injective ht (fun x hx => by simpa using (List.mem_filter.mp hx).2)
    (h.trans (run_deltas n₀ htop).symm)

/-! ### How large the running index gets -/

/-- Every running index of the run is at most `M`. -/
def Bounded (M : ℕ) : State → List ℕ → Prop
  | _, [] => True
  | σ, d :: ds => σ.index d ≤ M ∧ Bounded M (σ.step d) ds

theorem bounded_append {M : ℕ} {ds es : List ℕ} :
    Bounded M σ (ds ++ es) ↔ Bounded M σ ds ∧ Bounded M (run σ ds) es := by
  induction ds generalizing σ with
  | nil => simp [Bounded]
  | cons e ds ih => simp only [List.cons_append, Bounded, ih, run_cons, and_assoc]

theorem Bounded.mem_le {M : ℕ} {ds : List ℕ} (h : Bounded M σ ds) : ∀ δ ∈ ds, δ ≤ M := by
  induction ds generalizing σ with
  | nil => simp
  | cons d ds ih =>
    rintro δ hδ
    rcases List.mem_cons.mp hδ with rfl | hδ
    · exact (Nat.le_add_left δ σ.i).trans h.1
    · exact ih h.2 δ hδ

/-- The running index at which the symbol `c` between `A` and `B` is inserted:
the turns from the greatest symbol before it, each over the whole string so
far, and the symbols to its left. -/
def insertionIndex (n₀ : ℕ) (A : List ℕ) (c : ℕ) (B : List ℕ) : ℕ :=
  (c - (placed A B c).foldl max n₀) * ((placed A B c).length + 1) + (A.filter (· ≤ c)).length

theorem foldl_max_eq {m m₀ : ℕ} (hle : ∀ x ∈ s, x ≤ m) (h₀ : m₀ ≤ m) (hm : m = m₀ ∨ m ∈ s) :
    s.foldl max m₀ = m := by
  induction s generalizing m₀ with
  | nil => simpa [eq_comm] using hm
  | cons x s ih =>
    rw [List.foldl_cons]
    rw [List.forall_mem_cons] at hle
    apply ih hle.2 (max_le h₀ hle.1)
    rw [List.mem_cons] at hm
    rcases hm with rfl | rfl | hm
    · exact Or.inl (max_eq_left hle.1).symm
    · exact Or.inl (max_eq_right h₀).symm
    · exact Or.inr hm

theorem State.Marked.n_eq {n₀ : ℕ} (h : σ.Marked n₀) : σ.out.foldl max n₀ = σ.n := by
  refine foldl_max_eq (fun x hx => h.le_symbol hx) h.le ?_
  rcases h with ⟨hn, -, -⟩ | ⟨A, B, hs, -, -⟩
  · exact Or.inl hn
  · exact Or.inr (by rw [hs.eq]; simp)

theorem Sync.index_eq_insertionIndex {n₀ : ℕ} (hm : σ.Marked n₀) (h : Sync σ ps (n :: cs) n d) :
    σ.index d = insertionIndex n₀ ps n cs := by
  have hout : σ.out = placed ps cs n := by simpa [placed] using h.out
  rw [insertionIndex, ← hout, hm.n_eq, hout]
  exact h.index

/-- The walk for `n` visits the occurrences of `n` that it has not passed. -/
theorem Sync.bounded_scan {n₀ M : ℕ} (hm : σ.Marked n₀) (h : Sync σ ps cs n d) :
    Bounded M σ (InsertionCode.scan n cs d).1 ↔
      ∀ A B, ps ++ cs = A ++ n :: B → ps.length ≤ A.length → insertionIndex n₀ A n B ≤ M := by
  induction cs generalizing σ ps d with
  | nil =>
    simp only [InsertionCode.scan, Bounded, true_iff]
    intro A B e hl
    have := congrArg List.length e
    simp only [List.length_append, List.length_nil, List.length_cons] at this
    omega
  | cons c cs ih =>
    -- a split of the rest is the one at `c`, or a split behind it
    have hsplit : (∀ A B, ps ++ c :: cs = A ++ n :: B → ps.length ≤ A.length →
          insertionIndex n₀ A n B ≤ M) ↔
        (c = n → insertionIndex n₀ ps n cs ≤ M) ∧
          ∀ A B, (ps ++ [c]) ++ cs = A ++ n :: B → (ps ++ [c]).length ≤ A.length →
            insertionIndex n₀ A n B ≤ M := by
      rw [← List.append_cons]
      simp only [List.length_append, List.length_singleton]
      constructor
      · intro H
        exact ⟨fun hc => H ps cs (by rw [hc]) le_rfl, fun A B e hl => H A B e (by omega)⟩
      · rintro ⟨H₁, H₂⟩ A B e hl
        rcases hl.eq_or_lt with hl | hl
        · obtain ⟨rfl, he⟩ := List.append_inj e hl
          obtain ⟨rfl, rfl⟩ := List.cons.inj he
          exact H₁ rfl
        · exact H₂ A B e hl
    rw [hsplit]
    rcases lt_trichotomy c n with hc | rfl | hc
    · simp only [InsertionCode.scan, if_pos hc, hc.ne, false_implies, true_and]
      exact ih hm (h.pass_lt hc)
    · simp only [InsertionCode.scan, if_neg (lt_irrefl c), if_true, Bounded, forall_const]
      rw [ih (hm.step d) h.emit, h.index_eq_insertionIndex hm]
    · simp only [InsertionCode.scan, if_neg hc.not_gt, hc.ne', if_false, false_implies, true_and]
      exact ih hm (h.pass_gt hc)

/-- With every symbol below `n`, nothing from `n` on is left to bound. -/
theorem insertionIndex_le_of_done {n₀ M : ℕ} (hl : s.length ≤ (s.filter (· < n)).length)
    (A : List ℕ) (c : ℕ) (B : List ℕ) (e : s = A ++ c :: B) (hc : n ≤ c) :
    insertionIndex n₀ A c B ≤ M := by
  have hcs : c ∈ s := by rw [e]; simp
  rw [← List.filter_sublist.eq_of_length_le hl] at hcs
  have : c < n := by simpa using (List.mem_filter.mp hcs).2
  omega

/-- All the walks visit all the symbols from `n` on. -/
theorem Sync.bounded_sweep {top n₀ M fuel : ℕ} (htop : ∀ y ∈ s, y ≤ top) (hm : σ.Marked n₀)
    (h : Sync σ [] s n d) (hf : s.length ≤ fuel + (s.filter (· < n)).length) :
    Bounded M σ (InsertionCode.sweep top s fuel n d (s.filter (· < n)).length) ↔
      ∀ A c B, s = A ++ c :: B → n ≤ c → insertionIndex n₀ A c B ≤ M := by
  induction fuel generalizing σ n d with
  | zero => simpa [InsertionCode.sweep, Bounded] using insertionIndex_le_of_done (by omega)
  | succ fuel ih =>
    rw [InsertionCode.sweep]
    split
    · rename_i hlt
      obtain ⟨-, hnm, hmin, hskip⟩ := h.walk htop hlt
      obtain ⟨hnext, hlen, hgrow⟩ := h.round htop hlt
      rw [bounded_append, hlen, hskip.bounded_scan hm, ih (hm.run _) hnext (by omega)]
      -- the occurrences of the least symbol are in this walk, all others behind it
      constructor
      · rintro ⟨H₁, H₂⟩ A c B e hc
        rcases (hmin c (by rw [e]; simp) hc).eq_or_lt with rfl | hlt
        · exact H₁ A B e (Nat.zero_le _)
        · exact H₂ A c B e hlt
      · intro H
        exact ⟨fun A B e _ => H A _ B e hnm, fun A c B e hc => H A c B e (by omega)⟩
    · simpa [Bounded] using insertionIndex_le_of_done (by omega)

/-- **The running indices of a string**, in terms of the string. -/
theorem bounded_deltas_iff {top M : ℕ} (n₀ : ℕ) (htop : ∀ y ∈ s, y ≤ top) :
    Bounded M (start n₀ (s.filter (· < n₀))) (deltas top n₀ s) ↔
      ∀ A c B, s = A ++ c :: B → n₀ ≤ c → insertionIndex n₀ A c B ≤ M :=
  (sync_start n₀ s).bounded_sweep htop
    (marked_start fun x hx => by simpa using (List.mem_filter.mp hx).2) (by omega)

end InsertionCode
