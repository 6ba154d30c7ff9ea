/-
AdaIdna/TableInit.lean

The initialization of the tables by `ensure_tables`, for any number of threads.

A step of the system is one step of one thread: an atomic operation on
`tables_init_state`, the allocation, the check of the blob, or the write of one
pointer.  What the environment decides about a step, whether memory is there
and whether the checks pass, is a `StepOutcome`, and it may be any.  The
operations are taken to be sequentially consistent.

Between the compare-exchange that wins and the store that closes the
initialization a thread owns the tables.  `Consistent` ties the position of
every thread to the shared state, and every step keeps it (`Consistent.step`).
-/
import AdaIdna.BlobSection

namespace AdaIdna

/-! ### Shared state -/

/-- The values of `tables_init_state`. -/
inductive InitState where
  | uninit | inProgress | ready | failed
  deriving DecidableEq

/-- Identifies an allocation. -/
abbrev Buffer := ℕ

/-- What a table pointer points to. -/
structure Address where
  buffer : Buffer
  offset : ℕ
  deriving DecidableEq

/-- The pointers that are published. -/
inductive TablePointer where
  | table (s : BlobSection)
  | tablesBuffer
  deriving DecidableEq

/-- A buffer passes the checks, or is freed. -/
inductive BufferState where
  | free | allocated | verified
  deriving DecidableEq

structure Shared where
  tablesInitState : InitState
  /-- `none` is a null pointer. -/
  pointer : TablePointer → Option Address
  heap : Buffer → BufferState

/-! ### Threads -/

/-- `kTablesSpinLimit`. -/
def kTablesSpinLimit : ℕ := 1000000000

/-- The pointers in the order in which `ensure_tables` writes them. -/
def publicationOrder : List TablePointer :=
  [.table .idnaStage1, .table .idnaStage2, .table .idnaBoolBlocks, .table .idnaUtf8Mappings,
    .table .decompositionIndex, .table .decompositionBlock, .table .decompositionData,
    .table .cccIndex, .table .cccBlock, .table .compositionIndex, .table .compositionBlock,
    .table .compositionData, .table .idContinueFlat, .table .idStartFlat, .table .dirStart,
    .table .dirFinal, .table .dirValue, .table .combiningFlat, .table .joiningStart,
    .table .joiningFinal, .table .joiningValue, .tablesBuffer]

/-- Where a thread stands in `ensure_tables`. -/
inductive Pc where
  /-- outside -/
  | idle
  /-- before the first load -/
  | start
  /-- before the compare-exchange -/
  | compareExchange
  /-- before the allocation -/
  | allocate
  /-- the allocation has failed -/
  | giveUp
  /-- before the decompression and the two checks -/
  | inflate (buffer : Buffer)
  /-- the buffer did not pass -/
  | reject
  /-- the pointers still to be written, then READY -/
  | publish (buffer : Buffer) (rest : List TablePointer)
  /-- waiting for another thread -/
  | spin (spins : ℕ)
  /-- about to return -/
  | returning (result : Bool)
  deriving DecidableEq

/-- The thread is between a winning compare-exchange and its closing store. -/
def Pc.owns : Pc → Bool
  | .allocate | .giveUp | .inflate _ | .reject | .publish _ _ => true
  | _ => false

/-- What the environment decides. -/
structure StepOutcome where
  /-- the result of `new (std::nothrow)` -/
  allocation : Option Buffer
  /-- `n == uncompressed_size` -/
  lengthOk : Bool
  /-- `crc32_ieee(buffer, n) == uncompressed_crc32` -/
  crcOk : Bool

section Step

variable (offset : BlobSection → ℕ)

/-- The value written to a pointer. -/
def TablePointer.address (b : Buffer) : TablePointer → Address
  | .table s => ⟨b, offset s⟩
  | .tablesBuffer => ⟨b, 0⟩

/-- One step of a thread. -/
def ensureTablesStep (e : StepOutcome) : Pc → Shared → Pc × Shared
  | .idle, m => (.start, m)
  | .start, m =>
    match m.tablesInitState with
    | .ready => (.returning true, m)
    | .failed => (.returning false, m)
    | _ => (.compareExchange, m)
  | .compareExchange, m =>
    if m.tablesInitState = .uninit then (.allocate, { m with tablesInitState := .inProgress })
    else (.spin 0, m)
  | .allocate, m =>
    match e.allocation with
    | none => (.giveUp, m)
    | some b => (.inflate b, { m with heap := Function.update m.heap b .allocated })
  | .giveUp, m => (.returning false, { m with tablesInitState := .uninit })
  | .inflate b, m =>
    if e.lengthOk && e.crcOk then
      (.publish b publicationOrder, { m with heap := Function.update m.heap b .verified })
    else (.reject, { m with heap := Function.update m.heap b .free })
  | .reject, m => (.returning false, { m with tablesInitState := .failed })
  | .publish b (p :: rest), m =>
    (.publish b rest, { m with pointer := Function.update m.pointer p (some (p.address offset b)) })
  | .publish _ [], m => (.returning true, { m with tablesInitState := .ready })
  | .spin spins, m =>
    if spins < kTablesSpinLimit then
      match m.tablesInitState with
      | .ready => (.returning true, m)
      | .inProgress => (.spin (spins + 1), m)
      | _ => (.returning false, m)
    else (.returning false, m)
  | .returning _, m => (.idle, m)

end Step

/-! ### The system -/

variable {ι : Type*} [DecidableEq ι]

/-- The shared state and the positions of the threads. -/
structure System (ι : Type*) where
  shared : Shared
  pc : ι → Pc

namespace System

variable (offset : BlobSection → ℕ)

/-- Thread `t` takes a step. -/
def step (t : ι) (e : StepOutcome) (σ : System ι) : System ι where
  shared := (ensureTablesStep offset e (σ.pc t) σ.shared).2
  pc := Function.update σ.pc t (ensureTablesStep offset e (σ.pc t) σ.shared).1

/-- Nothing is initialized, and no thread has called `ensure_tables` yet. -/
def initial : System ι where
  shared := { tablesInitState := .uninit, pointer := fun _ => none, heap := fun _ => .free }
  pc _ := .idle

/-- A step of some thread, with some outcome. -/
inductive Step (σ : System ι) : System ι → Prop
  | mk (t : ι) (e : StepOutcome) : Step σ (σ.step offset t e)

/-- Any number of steps. -/
def Run : System ι → System ι → Prop := Relation.ReflTransGen (Step offset)

def Reachable (σ : System ι) : Prop := Run offset initial σ

/-- The steps of a schedule, one after the other. -/
def execute (offset : BlobSection → ℕ) (σ : System ι) : List (ι × StepOutcome) → System ι
  | [] => σ
  | (t, e) :: sched => execute offset (σ.step offset t e) sched

/-- `tables_are_ready`. -/
def tablesAreReady (σ : System ι) : Bool := σ.shared.tablesInitState == .ready

end System

/-- All pointers point into a buffer that passed both checks. -/
def Published (offset : BlobSection → ℕ) (m : Shared) (b : Buffer) : Prop :=
  m.heap b = .verified ∧ ∀ p, m.pointer p = some (p.address offset b)

/-! ### What a step can do -/

variable {offset : BlobSection → ℕ} {σ σ' : System ι} {e : StepOutcome} {m m' : Shared} {q q' : Pc}
  {b : Buffer} {t u : ι}

/-- The effects of a step, by what they do to the ownership. -/
inductive Effect (offset : BlobSection → ℕ) : Pc → Shared → Pc → Shared → Prop
  /-- a step of a thread that is no owner and does not become one -/
  | outside {q q' : Pc} {m : Shared} (hq : q.owns = false) (hq' : q'.owns = false)
      (h : q' = .returning true → m.tablesInitState = .ready) : Effect offset q m q' m
  /-- the winning compare-exchange -/
  | win {m : Shared} (h : m.tablesInitState = .uninit) :
      Effect offset .compareExchange m .allocate { m with tablesInitState := .inProgress }
  /-- allocation, decompression and checks -/
  | prepare {q q' : Pc} {m : Shared} (heap : Buffer → BufferState) (hq : q.owns = true)
      (hq' : q'.owns = true)
      (h : ∀ b rest, q' = .publish b rest → heap b = .verified ∧ rest = publicationOrder) :
      Effect offset q m q' { m with heap := heap }
  /-- the write of one pointer -/
  | write {b : Buffer} {p : TablePointer} {rest : List TablePointer} {m : Shared} :
      Effect offset (.publish b (p :: rest)) m (.publish b rest)
        { m with pointer := Function.update m.pointer p (some (p.address offset b)) }
  /-- the closing store of a failed initialization -/
  | close {q : Pc} {m : Shared} (s : InitState) (hq : q.owns = true) (hs : s ≠ .inProgress)
      (hs' : s ≠ .ready) : Effect offset q m (.returning false) { m with tablesInitState := s }
  /-- the closing store of a successful one -/
  | commit {b : Buffer} {m : Shared} :
      Effect offset (.publish b []) m (.returning true) { m with tablesInitState := .ready }

/-- **Every step has one of these effects.** -/
theorem ensureTablesStep_effect (e : StepOutcome) (q : Pc) (m : Shared) :
    Effect offset q m (ensureTablesStep offset e q m).1 (ensureTablesStep offset e q m).2 := by
  cases q with
  | idle => exact .outside rfl rfl nofun
  | start =>
    rw [ensureTablesStep]
    rcases h : m.tablesInitState with - | - | - | -
    · exact .outside rfl rfl nofun
    · exact .outside rfl rfl nofun
    · exact .outside rfl rfl fun _ => h
    · exact .outside rfl rfl nofun
  | compareExchange =>
    rw [ensureTablesStep]
    split
    · rename_i h
      exact .win h
    · exact .outside rfl rfl nofun
  | allocate =>
    rw [ensureTablesStep]
    rcases e.allocation with - | b
    · exact .prepare m.heap rfl rfl nofun
    · exact .prepare _ rfl rfl nofun
  | giveUp => exact .close .uninit rfl (by decide) (by decide)
  | inflate b =>
    rw [ensureTablesStep]
    split
    · refine .prepare _ rfl rfl fun b' rest h => ?_
      obtain ⟨rfl, rfl⟩ := Pc.publish.inj h
      exact ⟨Function.update_self _ _ _, rfl⟩
    · exact .prepare _ rfl rfl nofun
  | reject => exact .close .failed rfl (by decide) (by decide)
  | publish b rest =>
    cases rest with
    | nil => exact .commit
    | cons p rest => exact .write
  | spin spins =>
    rw [ensureTablesStep]
    split
    · rcases h : m.tablesInitState with - | - | - | -
      · exact .outside rfl rfl nofun
      · exact .outside rfl rfl nofun
      · exact .outside rfl rfl fun _ => h
      · exact .outside rfl rfl nofun
    · exact .outside rfl rfl nofun
  | returning result => exact .outside rfl rfl nofun

/-! ### The invariant -/

/-- The positions of the threads and the shared state fit together. -/
structure Consistent (offset : BlobSection → ℕ) (σ : System ι) : Prop where
  unique : ∀ t u, (σ.pc t).owns = true → (σ.pc u).owns = true → t = u
  inProgress_iff : σ.shared.tablesInitState = .inProgress ↔ ∃ t, (σ.pc t).owns = true
  /-- what has been written so far -/
  publishing : ∀ t b rest, σ.pc t = .publish b rest →
    σ.shared.heap b = .verified ∧ ∀ p ∉ rest, σ.shared.pointer p = some (p.address offset b)
  published : σ.shared.tablesInitState = .ready → ∃ b, Published offset σ.shared b
  returned : ∀ t, σ.pc t = .returning true → σ.shared.tablesInitState = .ready

omit [DecidableEq ι] in
theorem Consistent.initial : Consistent offset (System.initial : System ι) where
  unique _ _ h := by cases h
  inProgress_iff := iff_of_false nofun (by rintro ⟨t, ht⟩; cases ht)
  publishing _ _ _ h := by cases h
  published h := by cases h
  returned _ h := by cases h

theorem update_cases (f : ι → Pc) (t u : ι) (q : Pc) :
    u = t ∧ Function.update f t q u = q ∨ u ≠ t ∧ Function.update f t q u = f u := by
  by_cases h : u = t
  · subst h
    exact Or.inl ⟨rfl, Function.update_self _ _ _⟩
  · exact Or.inr ⟨h, Function.update_of_ne h _ _⟩

/-- A step that keeps the ownership of its thread keeps that of all. -/
theorem owns_update_of_eq (h : q'.owns = (σ.pc t).owns) (u : ι) :
    (Function.update σ.pc t q' u).owns = (σ.pc u).owns := by
  rcases update_cases σ.pc t u q' with ⟨rfl, hu⟩ | ⟨-, hu⟩
  · rw [hu, h]
  · rw [hu]

namespace Consistent

variable (hc : Consistent offset σ)

include hc

/-- Behind the closing store there is no owner. -/
theorem owns_update_of_close (hq : (σ.pc t).owns = true) (hq' : q'.owns = false) (u : ι) :
    (Function.update σ.pc t q' u).owns = false := by
  rcases update_cases σ.pc t u q' with ⟨-, hu⟩ | ⟨hne, hu⟩
  · rw [hu, hq']
  · rw [hu, Bool.eq_false_iff]
    exact fun h => hne (hc.unique u t h hq)

/-- The winner of the compare-exchange is the only owner. -/
theorem eq_of_owns_win (h : σ.shared.tablesInitState = .uninit)
    (hu : (Function.update σ.pc t q' u).owns = true) : u = t := by
  rcases update_cases σ.pc t u q' with ⟨rfl, -⟩ | ⟨-, hu'⟩
  · rfl
  · rw [hu'] at hu
    have hin := hc.inProgress_iff.mpr ⟨u, hu⟩
    rw [h] at hin
    cases hin

omit [DecidableEq ι] in
theorem inProgress (hq : (σ.pc t).owns = true) : σ.shared.tablesInitState = .inProgress :=
  hc.inProgress_iff.mpr ⟨t, hq⟩

omit [DecidableEq ι] in
/-- While a thread owns the tables no call returns true. -/
theorem not_returning (hq : (σ.pc t).owns = true) (u : ι) : σ.pc u ≠ .returning true := by
  intro hu
  have hready := hc.returned u hu
  rw [hc.inProgress hq] at hready
  cases hready

omit [DecidableEq ι] in
/-- A thread that publishes is the owner. -/
theorem eq_of_publish {rest : List TablePointer} (hq : (σ.pc t).owns = true)
    (hu : σ.pc u = .publish b rest) : u = t :=
  hc.unique u t (by rw [hu]; rfl) hq

/-- What is left to show of a step of the owner that keeps the ownership. -/
theorem of_owner (hq : (σ.pc t).owns = true) (hq' : q'.owns = true)
    (hm : m.tablesInitState = σ.shared.tablesInitState)
    (h : ∀ b rest, q' = .publish b rest →
      m.heap b = .verified ∧ ∀ p ∉ rest, m.pointer p = some (p.address offset b)) :
    Consistent offset (⟨m, Function.update σ.pc t q'⟩ : System ι) := by
  have howns := owns_update_of_eq (hq'.trans hq.symm)
  have hin := hm.trans (hc.inProgress hq)
  refine ⟨fun u v hu hv => ?_, iff_of_true hin ⟨t, ?_⟩, fun u b rest hu => ?_, fun hready => ?_,
    fun u hu => ?_⟩
  · exact hc.unique u v ((howns u).symm.trans hu) ((howns v).symm.trans hv)
  · exact (howns t).trans hq
  · rcases update_cases σ.pc t u q' with ⟨-, hu'⟩ | ⟨hne, hu'⟩
    · exact h b rest (hu'.symm.trans hu)
    · exact absurd (hc.eq_of_publish hq (hu'.symm.trans hu)) hne
  · rw [hin] at hready
    cases hready
  · rcases update_cases σ.pc t u q' with ⟨-, hu'⟩ | ⟨-, hu'⟩
    · rw [hu'.symm.trans hu] at hq'
      cases hq'
    · exact absurd (hu'.symm.trans hu) (hc.not_returning hq u)

/-- What is left to show of a closing store. -/
theorem of_close (hq : (σ.pc t).owns = true) (hq' : q'.owns = false)
    (hm : m.tablesInitState ≠ .inProgress)
    (hready : m.tablesInitState = .ready → ∃ b, Published offset m b)
    (hret : q' = .returning true → m.tablesInitState = .ready) :
    Consistent offset (⟨m, Function.update σ.pc t q'⟩ : System ι) := by
  have howns := hc.owns_update_of_close hq hq'
  refine ⟨fun u v hu => ?_, iff_of_false hm ?_, fun u b rest hu => ?_, hready, fun u hu => ?_⟩
  · exact absurd hu (by rw [howns u]; decide)
  · rintro ⟨u, hu⟩
    exact absurd hu (by rw [howns u]; decide)
  · have hnot := howns u
    rw [show Function.update σ.pc t q' u = .publish b rest from hu] at hnot
    cases hnot
  · rcases update_cases σ.pc t u q' with ⟨-, hu'⟩ | ⟨-, hu'⟩
    · exact hret (hu'.symm.trans hu)
    · exact absurd (hu'.symm.trans hu) (hc.not_returning hq u)

/-- Each of the effects keeps the invariant. -/
theorem of_effect (h : Effect offset q m q' m') (hpc : σ.pc t = q) (hm : σ.shared = m) :
    Consistent offset (⟨m', Function.update σ.pc t q'⟩ : System ι) := by
  subst hm
  cases h with
  | outside hq hq' hret =>
    have howns := owns_update_of_eq (hq'.trans (hq.symm.trans (congrArg Pc.owns hpc.symm)))
    refine ⟨fun u v hu hv => ?_, ?_, fun u b rest hu => ?_, hc.published, fun u hu => ?_⟩
    · exact hc.unique u v ((howns u).symm.trans hu) ((howns v).symm.trans hv)
    · exact hc.inProgress_iff.trans (exists_congr fun u => by rw [howns u])
    · rcases update_cases σ.pc t u q' with ⟨-, hu'⟩ | ⟨-, hu'⟩
      · rw [hu'.symm.trans hu] at hq'
        cases hq'
      · exact hc.publishing u b rest (hu'.symm.trans hu)
    · rcases update_cases σ.pc t u q' with ⟨-, hu'⟩ | ⟨-, hu'⟩
      · exact hret (hu'.symm.trans hu)
      · exact hc.returned u (hu'.symm.trans hu)
  | win hstate =>
    have howner : ∀ u, (Function.update σ.pc t Pc.allocate u).owns = true → u = t :=
      fun u => hc.eq_of_owns_win hstate
    refine ⟨fun u v hu hv => ?_, iff_of_true rfl ⟨t, ?_⟩, fun u b rest hu => ?_, nofun,
      fun u hu => ?_⟩
    · exact (howner u hu).trans (howner v hv).symm
    · show (Function.update σ.pc t Pc.allocate t).owns = true
      rw [Function.update_self]
      rfl
    · have hu' : Function.update σ.pc t Pc.allocate u = .publish b rest := hu
      obtain rfl := howner u (by rw [hu']; rfl)
      rw [Function.update_self] at hu'
      cases hu'
    · rcases update_cases σ.pc t u Pc.allocate with ⟨-, hu'⟩ | ⟨-, hu'⟩
      · cases hu'.symm.trans hu
      · have hready := hc.returned u (hu'.symm.trans hu)
        rw [hstate] at hready
        cases hready
  | prepare heap hq hq' hpub =>
    refine hc.of_owner (by rw [hpc, hq]) hq' rfl fun b rest hb => ?_
    obtain ⟨hheap, rfl⟩ := hpub b rest hb
    refine ⟨hheap, fun p hp => absurd ?_ hp⟩
    rcases p with s | -
    · cases s <;> decide
    · decide
  | @write b p rest =>
    obtain ⟨hheap, hpointer⟩ := hc.publishing t b (p :: rest) hpc
    refine hc.of_owner (by rw [hpc]; rfl) rfl rfl fun b' rest' hb => ?_
    obtain ⟨rfl, rfl⟩ := Pc.publish.inj hb
    refine ⟨hheap, fun p' hp' => ?_⟩
    -- the pointer that has just been written, or one written before
    by_cases h : p' = p
    · subst h
      exact Function.update_self _ _ _
    · exact (Function.update_of_ne h _ _).trans (hpointer p' (by simp [h, hp']))
  | close s hq hs hs' =>
    exact hc.of_close (by rw [hpc, hq]) rfl hs (fun h => absurd h hs') nofun
  | @commit b =>
    obtain ⟨hheap, hpointer⟩ := hc.publishing t b [] hpc
    exact hc.of_close (by rw [hpc]; rfl) rfl nofun
      (fun _ => ⟨b, hheap, fun p => hpointer p List.not_mem_nil⟩) fun _ => rfl

/-- **A step keeps the invariant.** -/
theorem step (t : ι) (e : StepOutcome) : Consistent offset (σ.step offset t e) :=
  hc.of_effect (ensureTablesStep_effect e (σ.pc t) σ.shared) rfl rfl

end Consistent

theorem Consistent.run (hc : Consistent offset σ) (h : System.Run offset σ σ') :
    Consistent offset σ' := by
  induction h with
  | refl => exact hc
  | tail _ hstep ih =>
    cases hstep with
    | mk t e => exact ih.step t e

theorem System.Reachable.consistent (h : System.Reachable offset σ) : Consistent offset σ :=
  Consistent.initial.run h

/-! ### The protocol -/

/-- Only the owner writes pointers. -/
theorem Effect.owns_of_pointer_ne (h : Effect offset q m q' m') (hne : m'.pointer ≠ m.pointer) :
    q.owns = true := by
  cases h with
  | write => rfl
  | _ => exact absurd rfl hne

omit [DecidableEq ι] in
/-- READY is stored by the owner, behind the last pointer. -/
theorem Consistent.published_of_ready (hc : Consistent offset σ)
    (h : Effect offset (σ.pc t) σ.shared q' m') (hready : m'.tablesInitState = .ready)
    (hnot : σ.shared.tablesInitState ≠ .ready) : ∃ b, Published offset σ.shared b := by
  generalize hpc : σ.pc t = q at h
  generalize hm : σ.shared = m at h hnot ⊢
  cases h with
  | @commit b =>
    rw [← hm]
    obtain ⟨hheap, hpointer⟩ := hc.publishing t b [] hpc
    exact ⟨b, hheap, fun p => hpointer p List.not_mem_nil⟩
  | close s _ _ hs => exact absurd hready hs
  | win => cases hready
  | _ => exact absurd hready hnot

/-- **READY and FAILED are final**: no thread changes the shared state. -/
theorem Consistent.shared_step (hc : Consistent offset σ)
    (hfinal : σ.shared.tablesInitState = .ready ∨ σ.shared.tablesInitState = .failed) :
    (σ.step offset t e).shared = σ.shared := by
  have heff : Effect offset _ _ _ _ := ensureTablesStep_effect e (σ.pc t) σ.shared
  show (ensureTablesStep offset e (σ.pc t) σ.shared).2 = σ.shared
  have hnot : (σ.pc t).owns = false := by
    rw [Bool.eq_false_iff]
    intro hq
    rw [hc.inProgress hq] at hfinal
    simp at hfinal
  generalize hpc : σ.pc t = q at heff hnot ⊢
  generalize hm : σ.shared = m at heff hfinal ⊢
  generalize ensureTablesStep offset e q m = r at heff ⊢
  obtain ⟨q', m'⟩ := r
  cases heff with
  | outside => rfl
  | win h =>
    rw [h] at hfinal
    simp at hfinal
  | prepare _ hq => exact absurd hq (by rw [hnot]; decide)
  | write => cases hnot
  | close _ hq => exact absurd hq (by rw [hnot]; decide)
  | commit => cases hnot

theorem Consistent.shared_run (hc : Consistent offset σ) (h : System.Run offset σ σ')
    (hfinal : σ.shared.tablesInitState = .ready ∨ σ.shared.tablesInitState = .failed) :
    σ'.shared = σ.shared := by
  induction h with
  | refl => rfl
  | tail hrun hstep ih =>
    cases hstep with
    | mk t e => rw [(hc.run hrun).shared_step (ih ▸ hfinal), ih]

/-- In UNINIT a call that starts now can win: it loads, and its
compare-exchange succeeds. -/
theorem System.exists_win (hstate : σ.shared.tablesInitState = .uninit) (hu : σ.pc u = .idle) :
    ∃ σ', System.Run offset σ σ' ∧ σ'.pc u = .allocate ∧
      σ'.shared.tablesInitState = .inProgress := by
  have e : StepOutcome := ⟨none, false, false⟩
  refine ⟨((σ.step offset u e).step offset u e).step offset u e, ?_, ?_⟩
  · exact ((Relation.ReflTransGen.single (.mk u e)).tail (.mk u e)).tail (.mk u e)
  · simp [System.step, ensureTablesStep, hu, hstate]

/-- **The protocol of `ensure_tables`**, in every state that any number of
threads reach in any interleaving. -/
theorem ensureTables_protocol (h : System.Reachable offset σ) :
    -- one thread at most is between a winning compare-exchange and its closing store
    (∀ t u, (σ.pc t).owns = true → (σ.pc u).owns = true → t = u) ∧
    -- pointers are written by that thread
    (∀ t e, (σ.step offset t e).shared.pointer ≠ σ.shared.pointer → (σ.pc t).owns = true) ∧
    -- READY is stored when all pointers point into one buffer that passed both checks
    (∀ t e, σ.shared.tablesInitState ≠ .ready →
      (σ.step offset t e).shared.tablesInitState = .ready → ∃ b, Published offset σ.shared b) ∧
    -- READY and FAILED are never left, and nothing is written behind them
    (∀ σ', System.Run offset σ σ' →
      σ.shared.tablesInitState = .ready ∨ σ.shared.tablesInitState = .failed →
        σ'.shared = σ.shared) ∧
    -- a call returns true in READY, with all pointers set
    (∀ t, σ.pc t = .returning true →
      σ.tablesAreReady = true ∧ ∃ b, Published offset σ.shared b) ∧
    -- a failed allocation leads back to UNINIT, where any call can win
    (∀ t e, σ.pc t = .allocate → e.allocation = none → (σ.step offset t e).pc t = .giveUp) ∧
    (∀ t e, σ.pc t = .giveUp → (σ.step offset t e).shared.tablesInitState = .uninit ∧
      (σ.step offset t e).pc t = .returning false) ∧
    ∀ u, σ.shared.tablesInitState = .uninit → σ.pc u = .idle →
      ∃ σ', System.Run offset σ σ' ∧ σ'.pc u = .allocate ∧
        σ'.shared.tablesInitState = .inProgress := by
  have hc := h.consistent
  refine ⟨hc.unique, fun t e hne => ?_, fun t e hnot hready => ?_,
    fun σ' hrun => hc.shared_run hrun, fun t ht => ?_, fun t e ht he => ?_, fun t e ht => ?_,
    fun u => System.exists_win⟩
  · exact (ensureTablesStep_effect e (σ.pc t) σ.shared).owns_of_pointer_ne hne
  · exact hc.published_of_ready (ensureTablesStep_effect e (σ.pc t) σ.shared) hready hnot
  · have hready := hc.returned t ht
    exact ⟨by rw [System.tablesAreReady, hready]; rfl, hc.published hready⟩
  · simp [System.step, ensureTablesStep, ht, he]
  · simp [System.step, ensureTablesStep, ht]

theorem System.run_execute (σ : System ι) (sched : List (ι × StepOutcome)) :
    System.Run offset σ (System.execute offset σ sched) := by
  induction sched generalizing σ with
  | nil => exact .refl
  | cons s sched ih => exact .head (.mk s.1 s.2) (ih _)

/-- Thread 7 initializes the tables; thread 3 calls when that has begun, waits
and sees it end. -/
def readySystem : System ℕ :=
  System.execute (fun _ => 16) System.initial
    (([7, 7, 7, 7, 3, 3, 3, 3] ++ List.replicate 24 7 ++ [3]).map (·, ⟨some 5, true, true⟩))

/-- Both calls are about to return true in READY, and nothing is written any more. -/
theorem ensureTables_protocol_ready :
    (readySystem.pc 7 = .returning true ∧ readySystem.pc 3 = .returning true) ∧
      readySystem.tablesAreReady = true ∧
      (∃ b, Published (fun _ => 16) readySystem.shared b) ∧
      ∀ σ', System.Run (fun _ => 16) readySystem σ' → σ'.shared = readySystem.shared := by
  have hpc : readySystem.pc 7 = .returning true ∧ readySystem.pc 3 = .returning true := by decide
  obtain ⟨-, -, -, hfinal, hreturned, -⟩ :=
    ensureTables_protocol (System.run_execute System.initial _ : System.Reachable _ readySystem)
  obtain ⟨hready, hpublished⟩ := hreturned 3 hpc.2
  exact ⟨hpc, hready, hpublished, fun σ' hrun => hfinal σ' hrun (Or.inl (by decide))⟩

end AdaIdna
