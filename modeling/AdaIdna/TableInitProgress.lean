/-
AdaIdna/TableInitProgress.lean

That calls of `ensure_tables` come back, and with what.

A call takes a bounded number of steps of its own, whatever the other threads
do and however long they are stopped (`returns_within`): every step but the
last lowers the rank of its position.

The blob is fixed when the library is built, so its checks always go the same
way.  The states that are `System.ReachableWith` a blob are those of the runs in
which they go as the blob decides, and `new` returns memory that is not in use.
In these there is never more than one buffer, none but the published one is
left behind, and a call that returns false has one of few reasons
(`ensureTables_outcomes`).
-/
import AdaIdna.TableBlob
import AdaIdna.TableInit

namespace AdaIdna

open PackTables TableBlob

variable {offset : BlobSection → ℕ} {ι : Type*} [DecidableEq ι] {σ σ' : System ι} {t u : ι}
  {e : StepOutcome} {m : Shared} {q : Pc} {b : Blob} {x y : Buffer} {o : Lanes.ByteOrder}
  {sched : List (ι × StepOutcome)} {short : Bool}

/-! ### Calls come back -/

/-- How many steps a thread takes at most until it returns. -/
def Pc.rank : Pc → ℕ
  | .idle => 0
  | .start => kTablesSpinLimit + 3
  | .compareExchange => kTablesSpinLimit + 2
  | .allocate => publicationOrder.length + 3
  | .giveUp => 1
  | .inflate _ => publicationOrder.length + 2
  | .reject => 1
  | .publish _ rest => rest.length + 1
  | .spin spins => kTablesSpinLimit - spins + 1
  | .returning _ => 0

/-- The thread is in a call and not about to return. -/
def Pc.running : Pc → Bool
  | .idle | .returning _ => false
  | _ => true

theorem Pc.rank_pos (hq : q.running = true) : 0 < q.rank := by
  cases q with
  | idle => cases hq
  | returning result => cases hq
  | _ => exact Nat.succ_pos _

theorem Pc.exists_eq_returning (hidle : q ≠ .idle) (hq : ¬ q.running = true) :
    ∃ result, q = .returning result := by
  cases q with
  | idle => exact absurd rfl hidle
  | returning result => exact ⟨result, rfl⟩
  | _ => exact absurd rfl hq

/-- **Every step of a call lowers the rank.** -/
theorem rank_ensureTablesStep (e : StepOutcome) (m : Shared) (hq : q.running = true) :
    (ensureTablesStep offset e q m).1.rank < q.rank ∧
      (ensureTablesStep offset e q m).1 ≠ .idle := by
  have hlength : publicationOrder.length = 22 := rfl
  have hlimit : kTablesSpinLimit = 1000000000 := rfl
  cases q with
  | idle => cases hq
  | returning result => cases hq
  | start =>
    rw [ensureTablesStep]
    split <;> exact ⟨by simp only [Pc.rank]; omega, by simp⟩
  | compareExchange =>
    rw [ensureTablesStep]
    split <;> exact ⟨by simp only [Pc.rank]; omega, by simp⟩
  | allocate =>
    rw [ensureTablesStep]
    split <;> exact ⟨by simp only [Pc.rank]; omega, by simp⟩
  | giveUp => exact ⟨Nat.one_pos, by simp [ensureTablesStep]⟩
  | inflate x =>
    rw [ensureTablesStep]
    split <;> exact ⟨by simp only [Pc.rank]; omega, by simp⟩
  | reject => exact ⟨Nat.one_pos, by simp [ensureTablesStep]⟩
  | publish x rest =>
    cases rest with
    | nil => exact ⟨Nat.one_pos, by simp [ensureTablesStep]⟩
    | cons p rest => exact ⟨Nat.lt_succ_self _, by simp [ensureTablesStep]⟩
  | spin spins =>
    rw [ensureTablesStep]
    split
    · split <;> exact ⟨by simp only [Pc.rank]; omega, by simp⟩
    · exact ⟨by simp only [Pc.rank]; omega, by simp⟩

namespace System

theorem pc_step_self : (σ.step offset t e).pc t = (ensureTablesStep offset e (σ.pc t) σ.shared).1 :=
  Function.update_self _ _ _

theorem pc_step_of_ne (h : u ≠ t) : (σ.step offset t e).pc u = σ.pc u :=
  Function.update_of_ne h _ _

/-- Thread `u` is about to return at some time of the schedule. -/
def Returns (offset : BlobSection → ℕ) (σ : System ι) (u : ι) (sched : List (ι × StepOutcome)) :
    Prop :=
  ∃ first rest result, sched = first ++ rest ∧
    (execute offset σ first).pc u = .returning result

/-- A call from any position of it on. -/
theorem returns_of_rank_le (hu : σ.pc u ≠ .idle)
    (hsteps : (σ.pc u).rank ≤ (sched.map Prod.fst).count u) : Returns offset σ u sched := by
  induction sched generalizing σ with
  | nil =>
    have hrunning : ¬ (σ.pc u).running = true := fun h => (Pc.rank_pos h).not_ge hsteps
    obtain ⟨result, hresult⟩ := Pc.exists_eq_returning hu hrunning
    exact ⟨[], [], result, rfl, hresult⟩
  | cons s sched ih =>
    obtain ⟨t, e⟩ := s
    by_cases hrunning : (σ.pc u).running = true
    · have hnext : (σ.step offset t e).pc u ≠ .idle ∧
          ((σ.step offset t e).pc u).rank ≤ (sched.map Prod.fst).count u := by
        rw [List.map_cons, List.count_cons] at hsteps
        by_cases h : t = u
        · subst h
          obtain ⟨hrank, hidle⟩ := @rank_ensureTablesStep offset _ e σ.shared hrunning
          rw [beq_self_eq_true, if_pos rfl] at hsteps
          rw [pc_step_self]
          exact ⟨hidle, by omega⟩
        · rw [pc_step_of_ne (Ne.symm h)]
          rw [if_neg (by simpa using h)] at hsteps
          exact ⟨hu, hsteps⟩
      obtain ⟨first, rest, result, rfl, hreturn⟩ := ih hnext.1 hnext.2
      exact ⟨(t, e) :: first, rest, result, rfl, hreturn⟩
    · obtain ⟨result, hresult⟩ := Pc.exists_eq_returning hu hrunning
      exact ⟨[], _, result, rfl, hresult⟩

/-- **A call comes back** after a bounded number of its own steps, in any state
and whatever the other threads do.  For a thread that initializes the tables
the bound does not depend on the limit for waiting. -/
theorem returns_within (offset : BlobSection → ℕ) (σ : System ι) (u : ι)
    (sched : List (ι × StepOutcome)) :
    (σ.pc u = .start → kTablesSpinLimit + 3 ≤ (sched.map Prod.fst).count u →
      Returns offset σ u sched) ∧
    (σ.pc u = .allocate → publicationOrder.length + 3 ≤ (sched.map Prod.fst).count u →
      Returns offset σ u sched) := by
  constructor
  · intro hu hsteps
    exact returns_of_rank_le (by simp [hu]) (by rw [hu]; exact hsteps)
  · intro hu hsteps
    exact returns_of_rank_le (by simp [hu]) (by rw [hu]; exact hsteps)

/-- A thread that runs alone, from the beginning of a call and from where it has won. -/
theorem returns_within_alone :
    Returns (fun _ => 0) (execute (fun _ => 0) (initial : System ℕ) [(7, ⟨none, true, true⟩)]) 7
      (List.replicate (kTablesSpinLimit + 3) (7, ⟨none, true, true⟩)) ∧
    Returns (fun _ => 0) (execute (fun _ => 0) (initial : System ℕ)
      (List.replicate 3 (7, ⟨none, true, true⟩))) 7 (List.replicate 25 (7, ⟨none, true, true⟩)) :=
  ⟨(returns_within _ _ 7 _).1 rfl (by rw [List.map_replicate, List.count_replicate_self]),
    (returns_within _ _ 7 _).2 rfl (by rw [List.map_replicate, List.count_replicate_self]; rfl)⟩

end System

/-! ### Runs over a fixed blob -/

/-- The buffer that a thread works on. -/
def Pc.buffer : Pc → Option Buffer
  | .inflate x => some x
  | .publish x _ => some x
  | _ => none

/-- What the blob decides about the checks, and the allocator about the memory;
`short` says whether that can run out. -/
structure StepOutcome.Follows (b : Blob) (short : Bool) (m : Shared) (e : StepOutcome) : Prop where
  fresh : ∀ x, e.allocation = some x → m.heap x = .free
  enough : short = false → e.allocation ≠ none
  lengthOk : e.lengthOk = decide ((inflated b).length = b.uncompressedSize)
  crcOk : e.crcOk = decide (crc32Ieee (inflated b) = b.uncompressedCrc32)

theorem StepOutcome.Follows.checks (he : e.Follows b short m) (o : Lanes.ByteOrder) :
    (e.lengthOk && e.crcOk) = (ensureTablesBuffer o b).isSome := by
  rw [he.lengthOk, he.crcOk, ensureTablesBuffer, ← Bool.decide_and]
  split_ifs with h
  · exact decide_eq_false (not_and_or.mpr h)
  · rw [not_or, not_not, not_not] at h
    exact decide_eq_true h

theorem Pc.owns_of_buffer (h : q.buffer = some x) : q.owns = true := by
  cases q with
  | inflate y => rfl
  | publish y rest => rfl
  | _ => cases h

/-- What a step does to a buffer that is in use after it. -/
theorem heap_ensureTablesStep (e : StepOutcome) (q : Pc) (m : Shared)
    (hx : (ensureTablesStep offset e q m).2.heap x ≠ .free) :
    (ensureTablesStep offset e q m).1.buffer = some x ∨
      m.heap x ≠ .free ∧ (q.buffer = some x → q = .publish x []) := by
  cases q with
  | allocate =>
    rw [ensureTablesStep] at hx ⊢
    split at hx
    · exact .inr ⟨hx, by simp [Pc.buffer]⟩
    · rename_i y hy
      by_cases h : x = y
      · exact .inl (congrArg some h.symm)
      · dsimp only at hx
        rw [Function.update_of_ne h] at hx
        exact .inr ⟨hx, by simp [Pc.buffer]⟩
  | inflate y =>
    by_cases h : x = y
    · subst h
      rw [ensureTablesStep] at hx ⊢
      split at hx
      · rename_i hok
        rw [if_pos hok]
        exact .inl rfl
      · exact absurd (Function.update_self _ _ _) hx
    · refine .inr ⟨?_, fun hy => absurd (Option.some.inj hy).symm h⟩
      rw [ensureTablesStep] at hx
      split at hx
      all_goals
        dsimp only at hx
        rwa [Function.update_of_ne h] at hx
  | publish y rest =>
    cases rest with
    | nil => exact .inr ⟨hx, fun hy => by rw [Option.some.inj hy]⟩
    | cons p rest =>
      by_cases h : x = y
      · exact .inl (congrArg some h.symm)
      · exact .inr ⟨hx, fun hy => absurd (Option.some.inj hy).symm h⟩
  | compareExchange =>
    rw [ensureTablesStep] at hx
    split at hx
    · exact .inr ⟨hx, by simp [Pc.buffer]⟩
    · exact .inr ⟨hx, by simp [Pc.buffer]⟩
  | start =>
    rw [ensureTablesStep] at hx
    split at hx <;> exact .inr ⟨hx, by simp [Pc.buffer]⟩
  | spin spins =>
    rw [ensureTablesStep] at hx
    split at hx
    · split at hx <;> exact .inr ⟨hx, by simp [Pc.buffer]⟩
    · exact .inr ⟨hx, by simp [Pc.buffer]⟩
  | _ => exact .inr ⟨hx, by simp [Pc.buffer]⟩

namespace System

/-- A step over the blob. -/
inductive StepWith (offset : BlobSection → ℕ) (b : Blob) (short : Bool) (σ : System ι) :
    System ι → Prop
  | mk (t : ι) (e : StepOutcome) (he : e.Follows b short σ.shared) :
      StepWith offset b short σ (σ.step offset t e)

def ReachableWith (offset : BlobSection → ℕ) (b : Blob) (short : Bool) (σ : System ι) : Prop :=
  Relation.ReflTransGen (StepWith offset b short) initial σ

/-! ### Memory -/

/-- A thread works on the buffer, or it is the one that is published. -/
def Holds (σ : System ι) (x : Buffer) : Prop :=
  (∃ t, (σ.pc t).buffer = some x) ∨
    σ.shared.tablesInitState = .ready ∧ σ.shared.pointer .tablesBuffer = some ⟨x, 0⟩

/-- Only the thread that takes the step can let go of a buffer. -/
theorem Holds.step (hc : Consistent offset σ) (hx : σ.Holds x)
    (ht : (σ.pc t).buffer = some x → (σ.step offset t e).Holds x) :
    (σ.step offset t e).Holds x := by
  rcases hx with ⟨u, hu⟩ | ⟨hready, hpointer⟩
  · by_cases h : u = t
    · subst h
      exact ht hu
    · exact .inl ⟨u, by rwa [pc_step_of_ne h]⟩
  · exact .inr (by rw [hc.shared_step (.inl hready)]; exact ⟨hready, hpointer⟩)

/-- No buffer is left behind. -/
def NoLeak (σ : System ι) : Prop := ∀ x, σ.shared.heap x ≠ .free → σ.Holds x

theorem NoLeak.step (hc : Consistent offset σ) (hn : NoLeak σ) (t : ι) (e : StepOutcome) :
    NoLeak (σ.step offset t e) := by
  intro x hx
  rcases heap_ensureTablesStep e (σ.pc t) σ.shared hx with hbuffer | ⟨hx', hlast⟩
  · exact .inl ⟨t, by rwa [pc_step_self]⟩
  · refine (hn x hx').step hc fun ht => ?_
    have hpc := hlast ht
    obtain ⟨-, hpointer⟩ := hc.publishing t x [] hpc
    refine .inr ?_
    show (ensureTablesStep offset e (σ.pc t) σ.shared).2.tablesInitState = .ready ∧
      (ensureTablesStep offset e (σ.pc t) σ.shared).2.pointer .tablesBuffer = some ⟨x, 0⟩
    rw [hpc]
    exact ⟨rfl, hpointer .tablesBuffer List.not_mem_nil⟩

omit [DecidableEq ι] in
/-- Two buffers that are held are one. -/
theorem Holds.eq (hc : Consistent offset σ) (hx : σ.Holds x) (hy : σ.Holds y) : x = y := by
  have hnot : ∀ {t z}, (σ.pc t).buffer = some z → σ.shared.tablesInitState ≠ .ready := by
    intro t z h hready
    rw [hc.inProgress (Pc.owns_of_buffer h)] at hready
    cases hready
  rcases hx with ⟨t, ht⟩ | ⟨hready, hpointer⟩
  · rcases hy with ⟨u, hu⟩ | ⟨hready', -⟩
    · obtain rfl := hc.unique t u (Pc.owns_of_buffer ht) (Pc.owns_of_buffer hu)
      exact Option.some.inj (ht.symm.trans hu)
    · exact absurd hready' (hnot ht)
  · rcases hy with ⟨u, hu⟩ | ⟨-, hpointer'⟩
    · exact absurd hready (hnot hu)
    · exact congrArg Address.buffer (Option.some.inj (hpointer.symm.trans hpointer'))

end System

/-! ### Checks -/

/-- A step that has nothing to do with the checks. -/
structure Quiet (m : Shared) (r : Pc × Shared) : Prop where
  publish : ∀ x rest, r.1 ≠ .publish x rest
  reject : r.1 ≠ .reject
  pointer : r.2.pointer = m.pointer
  ready : r.2.tablesInitState = .ready → m.tablesInitState = .ready
  failed : r.2.tablesInitState = .failed → m.tablesInitState = .failed

/-- Where the checks matter. -/
theorem checks_cases (offset : BlobSection → ℕ) (e : StepOutcome) (q : Pc) (m : Shared) :
    (∃ x, q = .inflate x) ∨ q = .reject ∨ (∃ x rest, q = .publish x rest) ∨
      Quiet m (ensureTablesStep offset e q m) := by
  cases q with
  | inflate x => exact .inl ⟨x, rfl⟩
  | reject => exact .inr (.inl rfl)
  | publish x rest => exact .inr (.inr (.inl ⟨x, rest, rfl⟩))
  | start =>
    rw [ensureTablesStep]
    split <;> exact .inr (.inr (.inr ⟨by simp, by simp, rfl, id, id⟩))
  | compareExchange =>
    rw [ensureTablesStep]
    split
    · exact .inr (.inr (.inr ⟨by simp, by simp, rfl, by simp, by simp⟩))
    · exact .inr (.inr (.inr ⟨by simp, by simp, rfl, id, id⟩))
  | allocate =>
    rw [ensureTablesStep]
    split <;> exact .inr (.inr (.inr ⟨by simp, by simp, rfl, id, id⟩))
  | giveUp =>
    rw [ensureTablesStep]
    exact .inr (.inr (.inr ⟨by simp, by simp, rfl, by simp, by simp⟩))
  | spin spins =>
    rw [ensureTablesStep]
    split
    · split <;> exact .inr (.inr (.inr ⟨by simp, by simp, rfl, id, id⟩))
    · exact .inr (.inr (.inr ⟨by simp, by simp, rfl, id, id⟩))
  | _ =>
    rw [ensureTablesStep]
    exact .inr (.inr (.inr ⟨by simp, by simp, rfl, id, id⟩))

namespace System

/-- No thread has come to write a pointer. -/
structure NeverPublished (σ : System ι) : Prop where
  publish : ∀ t x rest, σ.pc t ≠ .publish x rest
  pointer : ∀ p, σ.shared.pointer p = none
  ready : σ.shared.tablesInitState ≠ .ready

theorem NeverPublished.step (hn : NeverPublished σ) (hok : (e.lengthOk && e.crcOk) = false) :
    NeverPublished (σ.step offset t e) := by
  suffices h : (∀ x rest, (ensureTablesStep offset e (σ.pc t) σ.shared).1 ≠ .publish x rest) ∧
      (ensureTablesStep offset e (σ.pc t) σ.shared).2.pointer = σ.shared.pointer ∧
      (ensureTablesStep offset e (σ.pc t) σ.shared).2.tablesInitState ≠ .ready by
    obtain ⟨hpublish, hpointer, hready⟩ := h
    refine ⟨fun u x rest => ?_, fun p => (congrFun hpointer p).trans (hn.pointer p), hready⟩
    rcases update_cases σ.pc t u _ with ⟨-, hu⟩ | ⟨-, hu⟩
    · exact fun h => hpublish x rest (hu.symm.trans h)
    · exact fun h => hn.publish u x rest (hu.symm.trans h)
  rcases checks_cases offset e (σ.pc t) σ.shared with ⟨x, hq⟩ | hq | ⟨x, rest, hq⟩ | hquiet
  · rw [hq, ensureTablesStep, hok]
    exact ⟨by simp, rfl, hn.ready⟩
  · rw [hq, ensureTablesStep]
    exact ⟨by simp, rfl, by simp⟩
  · exact absurd hq (hn.publish t x rest)
  · exact ⟨hquiet.publish, hquiet.pointer, fun h => hn.ready (hquiet.ready h)⟩

/-- No thread has come to give up for good. -/
structure NeverFailed (σ : System ι) : Prop where
  reject : ∀ t, σ.pc t ≠ .reject
  failed : σ.shared.tablesInitState ≠ .failed

theorem NeverFailed.step (hn : NeverFailed σ) (hok : (e.lengthOk && e.crcOk) = true) :
    NeverFailed (σ.step offset t e) := by
  suffices h : (ensureTablesStep offset e (σ.pc t) σ.shared).1 ≠ .reject ∧
      (ensureTablesStep offset e (σ.pc t) σ.shared).2.tablesInitState ≠ .failed by
    refine ⟨fun u => ?_, h.2⟩
    rcases update_cases σ.pc t u _ with ⟨-, hu⟩ | ⟨-, hu⟩
    · exact fun h' => h.1 (hu.symm.trans h')
    · exact fun h' => hn.reject u (hu.symm.trans h')
  rcases checks_cases offset e (σ.pc t) σ.shared with ⟨x, hq⟩ | hq | ⟨x, rest, hq⟩ | hquiet
  · rw [hq, ensureTablesStep, hok]
    exact ⟨by simp, hn.failed⟩
  · exact absurd hq (hn.reject t)
  · rw [hq]
    cases rest with
    | nil =>
      rw [ensureTablesStep]
      exact ⟨by simp, by simp⟩
    | cons p rest =>
      rw [ensureTablesStep]
      exact ⟨by simp, hn.failed⟩
  · exact ⟨hquiet.reject, fun h => hn.failed (hquiet.failed h)⟩

/-- No allocation has failed. -/
structure NeverShort (σ : System ι) : Prop where
  giveUp : ∀ t, σ.pc t ≠ .giveUp
  spin : ∀ t spins, σ.pc t = .spin spins → σ.shared.tablesInitState ≠ .uninit

theorem NeverShort.step (hn : NeverShort σ) (henough : e.allocation ≠ none) :
    NeverShort (σ.step offset t e) := by
  suffices h : (ensureTablesStep offset e (σ.pc t) σ.shared).1 ≠ .giveUp ∧
      ((ensureTablesStep offset e (σ.pc t) σ.shared).2.tablesInitState = .uninit →
        σ.shared.tablesInitState = .uninit) ∧
      ∀ spins, (ensureTablesStep offset e (σ.pc t) σ.shared).1 = .spin spins →
        σ.shared.tablesInitState ≠ .uninit by
    refine ⟨fun u => ?_, fun u spins hspin hstate => ?_⟩
    · rcases update_cases σ.pc t u _ with ⟨-, hu⟩ | ⟨-, hu⟩
      · exact fun h' => h.1 (hu.symm.trans h')
      · exact fun h' => hn.giveUp u (hu.symm.trans h')
    · rcases update_cases σ.pc t u _ with ⟨-, hu⟩ | ⟨-, hu⟩
      · exact h.2.2 spins (hu.symm.trans hspin) (h.2.1 hstate)
      · exact hn.spin u spins (hu.symm.trans hspin) (h.2.1 hstate)
  have hgive := hn.giveUp t
  have hspin := hn.spin t
  generalize σ.pc t = q at hgive hspin
  cases q with
  | giveUp => exact absurd rfl hgive
  | start =>
    rw [ensureTablesStep]
    split <;> exact ⟨by simp, id, by simp⟩
  | compareExchange =>
    rw [ensureTablesStep]
    split
    · exact ⟨by simp, by simp, by simp⟩
    · rename_i hstate
      exact ⟨by simp, id, fun _ _ => hstate⟩
  | allocate =>
    rw [ensureTablesStep]
    split
    · rename_i hnone
      exact absurd hnone henough
    · exact ⟨by simp, id, by simp⟩
  | inflate x =>
    rw [ensureTablesStep]
    split <;> exact ⟨by simp, id, by simp⟩
  | publish x rest =>
    cases rest with
    | nil =>
      rw [ensureTablesStep]
      exact ⟨by simp, by simp, by simp⟩
    | cons p rest =>
      rw [ensureTablesStep]
      exact ⟨by simp, id, by simp⟩
  | spin spins =>
    have hstate := hspin spins rfl
    rw [ensureTablesStep]
    split
    · split <;> exact ⟨by simp, id, fun _ _ => hstate⟩
    · exact ⟨by simp, id, by simp⟩
  | reject =>
    rw [ensureTablesStep]
    exact ⟨by simp, by simp, by simp⟩
  | _ =>
    rw [ensureTablesStep]
    exact ⟨by simp, id, by simp⟩

/-- Why a call returns false. -/
theorem returning_false_cases (h : (ensureTablesStep offset e q m).1 = .returning false) :
    q = .start ∧ m.tablesInitState = .failed ∨ q = .giveUp ∨ q = .reject ∨
      ∃ spins, q = .spin spins ∧ (m.tablesInitState = .uninit ∨ m.tablesInitState = .failed ∨
        kTablesSpinLimit ≤ spins) := by
  cases q with
  | start =>
    rw [ensureTablesStep] at h
    split at h
    · cases h
    · rename_i hfailed
      exact .inl ⟨rfl, hfailed⟩
    · cases h
  | giveUp => exact .inr (.inl rfl)
  | reject => exact .inr (.inr (.inl rfl))
  | spin spins =>
    refine .inr (.inr (.inr ⟨spins, rfl, ?_⟩))
    rw [ensureTablesStep] at h
    split at h
    · rcases hstate : m.tablesInitState with - | - | - | -
      · exact .inl rfl
      · rw [hstate] at h
        cases h
      · rw [hstate] at h
        cases h
      · exact .inr (.inl rfl)
    · rename_i hlimit
      exact .inr (.inr (not_lt.mp hlimit))
  | publish x rest => cases rest <;> cases h
  | compareExchange =>
    rw [ensureTablesStep] at h
    split at h <;> cases h
  | allocate =>
    rw [ensureTablesStep] at h
    split at h <;> cases h
  | inflate x =>
    rw [ensureTablesStep] at h
    split at h <;> cases h
  | _ => cases h

/-! ### The outcomes -/

/-- What every state of a run over the blob satisfies. -/
structure Settled (offset : BlobSection → ℕ) (ok short : Bool) (σ : System ι) : Prop where
  consistent : Consistent offset σ
  noLeak : NoLeak σ
  published : ok = false → NeverPublished σ
  failed : ok = true → NeverFailed σ
  enough : short = false → NeverShort σ

theorem ReachableWith.settled (o : Lanes.ByteOrder) (h : ReachableWith offset b short σ) :
    Settled offset (ensureTablesBuffer o b).isSome short σ := by
  induction h with
  | refl =>
    exact ⟨.initial, fun _ hx => absurd rfl hx, fun _ => ⟨by simp [initial], fun _ => rfl, by
      simp [initial]⟩, fun _ => ⟨by simp [initial], by simp [initial]⟩, fun _ =>
        ⟨by simp [initial], by simp [initial]⟩⟩
  | tail _ hstep ih =>
    cases hstep with
    | mk t e he =>
      have hchecks := he.checks o
      exact ⟨ih.consistent.step t e, ih.noLeak.step ih.consistent t e,
        fun hok => (ih.published hok).step (hchecks.trans hok),
        fun hok => (ih.failed hok).step (hchecks.trans hok),
        fun hshort => (ih.enough hshort).step (he.enough hshort)⟩

/-- **What comes of calling `ensure_tables`**, in every state that any number of
threads reach in any interleaving over the blob. -/
theorem ensureTables_outcomes (o : Lanes.ByteOrder) (h : ReachableWith offset b short σ) :
    -- there is never more than one buffer, and outside an initialization only the published one
    (∀ x y, σ.shared.heap x ≠ .free → σ.shared.heap y ≠ .free → x = y) ∧
    ((∀ t, (σ.pc t).owns = false) → ∀ x, σ.shared.heap x ≠ .free →
      σ.tablesAreReady = true ∧ Published offset σ.shared x) ∧
    -- with a blob that does not pass no call returns true, and no pointer is ever set
    (ensureTablesBuffer o b = none →
      (∀ t, σ.pc t ≠ .returning true) ∧ ∀ p, σ.shared.pointer p = none) ∧
    -- with one that passes, a call returns false if memory was short or the wait too long
    ((ensureTablesBuffer o b).isSome → ∀ t e, (σ.step offset t e).pc t = .returning false →
      short = true ∧ (σ.pc t = .giveUp ∨
        σ.shared.tablesInitState = .uninit ∧ ∃ spins, σ.pc t = .spin spins) ∨
      ∃ spins, σ.pc t = .spin spins ∧ kTablesSpinLimit ≤ spins) := by
  obtain ⟨hc, hleak, hpublished, hfailed, henough⟩ := h.settled o
  refine ⟨fun x y hx hy => (hleak x hx).eq hc (hleak y hy), fun hidle x hx => ?_, fun hnone => ?_,
    fun hsome t e hfalse => ?_⟩
  · rcases hleak x hx with ⟨t, ht⟩ | ⟨hready, hpointer⟩
    · have howns := Pc.owns_of_buffer ht
      rw [hidle t] at howns
      cases howns
    · obtain ⟨y, hy⟩ := hc.published hready
      have hxy : x = y :=
        congrArg Address.buffer (Option.some.inj (hpointer.symm.trans (hy.2 .tablesBuffer)))
      exact ⟨by rw [tablesAreReady, hready]; rfl, hxy ▸ hy⟩
  · have hn := hpublished (by rw [hnone]; rfl)
    exact ⟨fun t ht => hn.ready (hc.returned t ht), hn.pointer⟩
  · have hn := hfailed hsome
    rw [pc_step_self] at hfalse
    rcases returning_false_cases hfalse with ⟨-, hstate⟩ | hgive | hreject | ⟨spins, hspin, hstate⟩
    · exact absurd hstate hn.failed
    · refine .inl ⟨?_, .inl hgive⟩
      by_contra hshort
      exact (henough (Bool.not_eq_true _ ▸ hshort)).giveUp t hgive
    · exact absurd hreject (hn.reject t)
    · rcases hstate with hstate | hstate | hlimit
      · refine .inl ⟨?_, .inr ⟨hstate, spins, hspin⟩⟩
        by_contra hshort
        exact (henough (Bool.not_eq_true _ ▸ hshort)).spin t spins hspin hstate
      · exact absurd hstate hn.failed
      · exact .inr ⟨spins, hspin, hlimit⟩

/-- A call over a blob that is not even a stream. -/
theorem ensureTables_outcomes_damaged :
    (execute (fun _ => 0) (initial : System ℕ) (List.replicate 3 (7, ⟨none, false, true⟩) ++
      [(7, ⟨some 0, false, true⟩), (7, ⟨none, false, true⟩)])).shared.pointer .tablesBuffer
        = none := by
  have he : ∀ m, StepOutcome.Follows ⟨1, 0, 0, [], [], []⟩ true m ⟨none, false, true⟩ :=
    fun m => ⟨by simp, by simp, rfl, rfl⟩
  have hrun : ReachableWith (fun _ => 0) ⟨1, 0, 0, [], [], []⟩ true (execute (fun _ => 0)
      (initial : System ℕ) (List.replicate 3 (7, ⟨none, false, true⟩) ++
        [(7, ⟨some 0, false, true⟩), (7, ⟨none, false, true⟩)])) :=
    ((((Relation.ReflTransGen.refl.tail (.mk 7 _ (he _))).tail (.mk 7 _ (he _))).tail
      (.mk 7 _ (he _))).tail (.mk 7 _ ⟨fun _ _ => rfl, by simp, rfl, rfl⟩)).tail (.mk 7 _ (he _))
  exact ((ensureTables_outcomes .little hrun).2.2.1 rfl).2 .tablesBuffer

end System

end AdaIdna
