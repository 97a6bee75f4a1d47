import Mathlib.Logic.Function.Basic
import Mathlib.Data.List.Infix

/-!
# The barrier

`Barrier` of `utils.h` and its calls of `wait`, one step for each piece that holds the lock.
`passes_iff` says which runs let every call pass: those in which no more calls arrive than the total.
One more call wraps the counter, and then no call that waits can leave (`locked_out`).
-/

namespace Cppmhd

/-- Where a call of `wait` stands. -/
inductive WaitStage where
  | idle
  /-- It holds the lock next and looks at the counter. -/
  | checking
  /-- It sleeps on the condition variable. -/
  | sleeping
  | returned
  deriving DecidableEq, Repr

/-- `notify_all`, for one call. -/
def WaitStage.notify : WaitStage → WaitStage
  | .sleeping => .checking
  | stage => stage

/-- Source `Barrier` with its calls of `wait`. -/
structure Barrier (ι : Type) where
  number : UInt32
  total : UInt32
  stage : ι → WaitStage

/-- The pieces of the calls of `wait`. -/
inductive WaitStep (ι : Type) where
  /-- The check of the counter and the decrement. -/
  | arrive (i : ι)
  /-- A spurious wakeup. -/
  | wake (i : ι)
  /-- The predicate of `cv_.wait`, and `notify_all` if it holds. -/
  | leave (i : ι)
  deriving DecidableEq, Repr

/-- A call of `wait` begins. -/
def WaitStep.isArrival {ι : Type} : WaitStep ι → Bool
  | .arrive _ => true
  | _ => false

namespace Barrier

variable {ι : Type} [DecidableEq ι]

/-- The constructor of source `Barrier`. -/
def new (n : UInt32) : Barrier ι := ⟨n, n, fun _ => .idle⟩

/-- A call of `wait` moves on. -/
def setStage (b : Barrier ι) (i : ι) (stage : WaitStage) : Barrier ι :=
  { b with stage := Function.update b.stage i stage }

/-- The source holds the lock from here to the first look at the predicate; that other calls may come
between them only adds runs. -/
def arrive (b : Barrier ι) (i : ι) : Barrier ι :=
  if b.number ≤ b.total then { b with number := b.number - 1 }.setStage i .checking
  else b.setStage i .returned

/-- The look at the predicate: the call returns and wakes the others, or it goes to sleep. -/
def leave (b : Barrier ι) (i : ι) : Barrier ι :=
  if b.number = 0 then { b with stage := fun j => (b.stage j).notify }.setStage i .returned
  else b.setStage i .sleeping

/-- The barrier behind a piece of a call, if the call has come that far. -/
def step (b : Barrier ι) : WaitStep ι → Option (Barrier ι)
  | .arrive i => if b.stage i = .idle then some (b.arrive i) else none
  | .wake i => if b.stage i = .sleeping then some (b.setStage i .checking) else none
  | .leave i => if b.stage i = .checking then some (b.leave i) else none

/-- The barrier behind some steps, if all of them are possible. -/
def run (b : Barrier ι) (steps : List (WaitStep ι)) : Option (Barrier ι) := steps.foldlM step b

end Barrier

section Runs

variable {ι : Type} [DecidableEq ι]

/-- How many calls arrived. -/
def arrivals (steps : List (WaitStep ι)) : ℕ := steps.countP WaitStep.isArrival

/-- Calls can leave one behind the other until this one returns. -/
def Barrier.CanLeave (b : Barrier ι) (i : ι) : Prop :=
  ∃ (js : List ι) (b' : Barrier ι), b.run (js.map .leave) = some b' ∧ b'.stage i = .returned

/-- What a barrier for `n` calls promises behind some steps. -/
structure Passes (n : UInt32) (steps : List (WaitStep ι)) (b : Barrier ι) : Prop where
  bounded : b.number ≤ b.total
  stays : n.toNat ≤ arrivals steps → b.number = 0
  leaves : n.toNat ≤ arrivals steps → ∀ i, b.stage i ≠ .idle → b.CanLeave i

/-! ## One step -/

namespace Barrier

@[simp] theorem setStage_number (b : Barrier ι) (i : ι) (stage : WaitStage) :
    (b.setStage i stage).number = b.number := rfl

@[simp] theorem setStage_total (b : Barrier ι) (i : ι) (stage : WaitStage) :
    (b.setStage i stage).total = b.total := rfl

@[simp] theorem setStage_same (b : Barrier ι) (i : ι) (stage : WaitStage) :
    (b.setStage i stage).stage i = stage := by
  simp [setStage]

theorem setStage_other (b : Barrier ι) {i j : ι} (other : j ≠ i) (stage : WaitStage) :
    (b.setStage i stage).stage j = b.stage j := by
  simp [setStage, other]

/-- What a step can do. -/
inductive Steps (b : Barrier ι) : WaitStep ι → Barrier ι → Prop
  | arrive {i : ι} (idle : b.stage i = .idle) (below : b.number ≤ b.total) :
      Steps b (.arrive i) ({ b with number := b.number - 1 }.setStage i .checking)
  | exceeded {i : ι} (idle : b.stage i = .idle) (above : ¬ b.number ≤ b.total) :
      Steps b (.arrive i) (b.setStage i .returned)
  | wake {i : ι} (sleeping : b.stage i = .sleeping) : Steps b (.wake i) (b.setStage i .checking)
  | leave {i : ι} (checking : b.stage i = .checking) (isOpen : b.number = 0) :
      Steps b (.leave i) ({ b with stage := fun j => (b.stage j).notify }.setStage i .returned)
  | sleep {i : ι} (checking : b.stage i = .checking) (isClosed : b.number ≠ 0) :
      Steps b (.leave i) (b.setStage i .sleeping)

theorem step_iff {b b' : Barrier ι} {a : WaitStep ι} : b.step a = some b' ↔ Steps b a b' := by
  constructor
  · intro step
    cases a with
    | arrive i =>
      simp only [Barrier.step, Barrier.arrive] at step
      split at step
      · rename_i idle
        obtain rfl := Option.some.inj step
        split
        · rename_i below
          exact .arrive idle below
        · rename_i above
          exact .exceeded idle above
      · exact absurd step nofun
    | wake i =>
      simp only [Barrier.step] at step
      split at step
      · rename_i sleeping
        obtain rfl := Option.some.inj step
        exact .wake sleeping
      · exact absurd step nofun
    | leave i =>
      simp only [Barrier.step, Barrier.leave] at step
      split at step
      · rename_i checking
        obtain rfl := Option.some.inj step
        split
        · rename_i isOpen
          exact .leave checking isOpen
        · rename_i isClosed
          exact .sleep checking isClosed
      · exact absurd step nofun
  · intro steps
    cases steps with
    | arrive idle below => simp [Barrier.step, Barrier.arrive, idle, below]
    | exceeded idle above => simp [Barrier.step, Barrier.arrive, idle, above]
    | wake sleeping => simp [Barrier.step, sleeping]
    | leave checking isOpen => simp [Barrier.step, Barrier.leave, checking, isOpen]
    | sleep checking isClosed => simp [Barrier.step, Barrier.leave, checking, isClosed]

theorem run_concat (b : Barrier ι) (steps : List (WaitStep ι)) (a : WaitStep ι) :
    b.run (steps ++ [a]) = (b.run steps).bind fun b₁ => b₁.step a := by
  simp [run, List.foldlM_append]

theorem run_prefix {b b' : Barrier ι} {before steps : List (WaitStep ι)} (inside : before <+: steps)
    (whole : b.run steps = some b') : ∃ b₁, b.run before = some b₁ := by
  obtain ⟨later, rfl⟩ := inside
  rw [run, List.foldlM_append] at whole
  obtain ⟨b₁, first, -⟩ := Option.bind_eq_some_iff.mp whole
  exact ⟨b₁, first⟩

end Barrier

omit [DecidableEq ι] in
@[simp] theorem arrivals_concat (steps : List (WaitStep ι)) (a : WaitStep ι) :
    arrivals (steps ++ [a]) = arrivals steps + if a.isArrival then 1 else 0 := by
  simp [arrivals, List.countP_append, List.countP_singleton]

/-! ## Punctual runs -/

/-- The counter and the arrivals make up the total.  If the barrier is open, then some call is on its
way to the others or none sleeps. -/
structure Balanced (n : UInt32) (steps : List (WaitStep ι)) (b : Barrier ι) : Prop where
  total : b.total = n
  count : b.number.toNat + arrivals steps = n.toNat
  awake : b.number = 0 → (∃ j, b.stage j = .checking) ∨ ∀ i, b.stage i ≠ .sleeping

section Balanced

variable {n : UInt32} {steps : List (WaitStep ι)} {b b' : Barrier ι} {a : WaitStep ι}

omit [DecidableEq ι] in
theorem Balanced.below (balanced : Balanced n steps b) : b.number ≤ b.total := by
  have count := balanced.count
  rw [UInt32.le_iff_toNat_le, balanced.total]
  omega

omit [DecidableEq ι] in
theorem Balanced.isOpen_iff (balanced : Balanced n steps b) :
    n.toNat ≤ arrivals steps ↔ b.number = 0 := by
  have count := balanced.count
  rw [← UInt32.toNat_inj, UInt32.toNat_zero]
  omega

theorem pred_toNat {number : UInt32} (positive : number ≠ 0) :
    (number - 1).toNat + 1 = number.toNat := by
  have nonzero : number.toNat ≠ 0 := fun zero => positive (UInt32.toNat_inj.mp zero)
  have least : (1 : UInt32) ≤ number := by
    rw [UInt32.le_iff_toNat_le, UInt32.toNat_one]
    omega
  rw [UInt32.toNat_sub_of_le _ _ least, UInt32.toNat_one]
  omega

theorem Balanced.step (balanced : Balanced n steps b) (step : b.Steps a b')
    (few : arrivals (steps ++ [a]) ≤ n.toNat) : Balanced n (steps ++ [a]) b' := by
  have count := balanced.count
  cases step with
  | @arrive i idle below =>
    have isClosed : b.number ≠ 0 := by
      rw [Ne, ← balanced.isOpen_iff]
      simp only [arrivals_concat, WaitStep.isArrival, if_true] at few
      omega
    have less := pred_toNat isClosed
    refine ⟨balanced.total, ?_, fun _ => Or.inl ⟨i, Barrier.setStage_same _ _ _⟩⟩
    rw [arrivals_concat, Barrier.setStage_number]
    simp only [WaitStep.isArrival, if_true]
    omega
  | exceeded idle above => exact absurd balanced.below above
  | @wake i sleeping =>
    refine ⟨balanced.total, ?_, fun _ => Or.inl ⟨i, Barrier.setStage_same _ _ _⟩⟩
    simpa [WaitStep.isArrival] using count
  | @leave i checking isOpen =>
    refine ⟨balanced.total, by simpa [WaitStep.isArrival] using count, fun _ => Or.inr fun j => ?_⟩
    by_cases same : j = i
    · rw [same, Barrier.setStage_same]
      decide
    · rw [Barrier.setStage_other _ same]
      dsimp only
      cases b.stage j <;> decide
  | @sleep i checking isClosed =>
    refine ⟨balanced.total, by simpa [WaitStep.isArrival] using count, fun isOpen => ?_⟩
    exact absurd isOpen isClosed

/-- A run keeps the balance while no more calls arrive than the total. -/
theorem balanced_of_run (few : arrivals steps ≤ n.toNat) (run : (Barrier.new n).run steps = some b) :
    Balanced n steps b := by
  induction steps using List.reverseRecOn generalizing b with
  | nil =>
    obtain rfl := Option.some.inj run
    exact ⟨rfl, rfl, fun _ => Or.inr fun _ => by simp [Barrier.new]⟩
  | append_singleton steps a ih =>
    rw [Barrier.run_concat] at run
    obtain ⟨b₁, first, step⟩ := Option.bind_eq_some_iff.mp run
    have fewer : arrivals steps ≤ n.toNat := by
      rw [arrivals_concat] at few
      omega
    exact (ih fewer first).step (Barrier.step_iff.mp step) few

/-- In an open barrier every call that arrived can leave. -/
theorem Balanced.canLeave (balanced : Balanced n steps b) (isOpen : b.number = 0) {i : ι}
    (arrived : b.stage i ≠ .idle) : b.CanLeave i := by
  cases stage : b.stage i with
  | idle => exact absurd stage arrived
  | returned => exact ⟨[], b, rfl, stage⟩
  | checking =>
    have leaves := Barrier.step_iff.mpr (.leave stage isOpen)
    exact ⟨[i], _, by simpa [Barrier.run] using leaves, Barrier.setStage_same _ _ _⟩
  | sleeping =>
    rcases balanced.awake isOpen with ⟨j, checking⟩ | awake
    · -- the call that looks at the counter wakes this one
      have other : i ≠ j := by
        rintro rfl
        exact absurd (stage.symm.trans checking) (by decide)
      have first := Barrier.step_iff.mpr (.leave checking isOpen)
      have woken : ({ b with stage := fun j => (b.stage j).notify }.setStage j .returned).stage i =
          .checking := by
        rw [Barrier.setStage_other _ other]
        dsimp only
        rw [stage]
        rfl
      have last := Barrier.step_iff.mpr (.leave woken isOpen)
      have both : b.run [.leave j, .leave i] =
          (b.step (.leave j)).bind fun b₁ => b₁.step (.leave i) := by
        simp [Barrier.run]
      rw [first] at both
      exact ⟨[j, i], _, both.trans last, Barrier.setStage_same _ _ _⟩
    · exact absurd stage (awake i)

theorem Balanced.passes (balanced : Balanced n steps b) : Passes n steps b where
  bounded := balanced.below
  stays := balanced.isOpen_iff.mp
  leaves full _ arrived := balanced.canLeave (balanced.isOpen_iff.mp full) arrived

/-- A run keeps the promise of the barrier all the time exactly if no more calls arrive than the
total. -/
theorem passes_iff (run : (Barrier.new n).run steps = some b) :
    (∀ before, before <+: steps → ∀ b₁, (Barrier.new n).run before = some b₁ → Passes n before b₁) ↔
      arrivals steps ≤ n.toNat := by
  constructor
  · intro passes
    have all : ∀ before, before <+: steps → arrivals before ≤ n.toNat := by
      intro before
      induction before using List.reverseRecOn with
      | nil => exact fun _ => Nat.zero_le _
      | append_singleton before a ih =>
        intro inside
        have few := ih ((List.prefix_append _ _).trans inside)
        obtain ⟨b₂, later⟩ := Barrier.run_prefix inside run
        have promise := passes _ inside b₂ later
        rw [Barrier.run_concat] at later
        obtain ⟨b₁, first, step⟩ := Option.bind_eq_some_iff.mp later
        have balanced := balanced_of_run few first
        by_contra! many
        -- the call arrives at an open barrier and wraps the counter
        have isOpen : b₁.number = 0 := by
          rw [← balanced.isOpen_iff]
          rw [arrivals_concat] at many
          split at many <;> omega
        have stays := promise.stays many.le
        cases Barrier.step_iff.mp step with
        | arrive idle below =>
          have wrapped : (0 : UInt32) - 1 = 0 := isOpen ▸ stays
          exact absurd wrapped (by decide)
        | exceeded idle above => exact above (by rw [isOpen]; exact UInt32.zero_le)
        | wake | leave | sleep =>
          simp only [arrivals_concat, WaitStep.isArrival] at many
          exact absurd few (by simpa using many)
    exact all steps List.prefix_rfl
  · intro few before inside b₁ first
    obtain ⟨later, rfl⟩ := inside
    refine (balanced_of_run ?_ first).passes
    rw [arrivals, List.countP_append] at few
    exact (Nat.le_add_right _ _).trans few

/-- Two calls at a barrier for two. -/
def pair : List (WaitStep ℕ) := [.arrive 0, .leave 0, .arrive 1, .leave 1, .leave 0]

theorem passes_pair : ∃ b, (Barrier.new 2).run pair = some b ∧ Passes 2 pair b := by
  have returns : ((Barrier.new 2).run pair).isSome := by decide
  obtain ⟨b, run⟩ := Option.isSome_iff_exists.mp returns
  exact ⟨b, run, (passes_iff run).mpr (by decide) pair List.prefix_rfl b run⟩

end Balanced

/-! ## Behind a wrapped counter -/

/-- The call waits for the barrier. -/
def WaitStage.Waits (stage : WaitStage) : Prop := stage = .checking ∨ stage = .sleeping

section Locked

variable {steps : List (WaitStep ι)} {b b' : Barrier ι} {a : WaitStep ι}

theorem Barrier.Steps.locked (step : b.Steps a b') (above : ¬ b.number ≤ b.total) :
    b'.number = b.number ∧ b'.total = b.total ∧ ∀ i, (b.stage i).Waits → (b'.stage i).Waits := by
  cases step with
  | arrive idle below => exact absurd below above
  | leave checking isOpen => exact absurd (isOpen ▸ UInt32.zero_le) above
  | @exceeded j idle =>
    refine ⟨rfl, rfl, fun i waits => ?_⟩
    have other : i ≠ j := by
      rintro rfl
      rw [idle] at waits
      exact absurd waits (by simp [WaitStage.Waits])
    rwa [Barrier.setStage_other _ other]
  | @wake j sleeping =>
    refine ⟨rfl, rfl, fun i waits => ?_⟩
    by_cases same : i = j
    · rw [same, Barrier.setStage_same]
      exact Or.inl rfl
    · rwa [Barrier.setStage_other _ same]
  | @sleep j checking isClosed =>
    refine ⟨rfl, rfl, fun i waits => ?_⟩
    by_cases same : i = j
    · rw [same, Barrier.setStage_same]
      exact Or.inr rfl
    · rwa [Barrier.setStage_other _ same]

/-- With a counter above the total no call that waits ever leaves. -/
theorem locked_out (above : ¬ b.number ≤ b.total) (run : b.run steps = some b') :
    b'.number = b.number ∧ b'.total = b.total ∧ ∀ i, (b.stage i).Waits → (b'.stage i).Waits := by
  induction steps using List.reverseRecOn generalizing b' with
  | nil =>
    obtain rfl := Option.some.inj run
    exact ⟨rfl, rfl, fun _ => id⟩
  | append_singleton steps a ih =>
    rw [Barrier.run_concat] at run
    obtain ⟨b₁, first, step⟩ := Option.bind_eq_some_iff.mp run
    obtain ⟨number, total, waits⟩ := ih first
    obtain ⟨number', total', waits'⟩ := (Barrier.step_iff.mp step).locked (by rwa [number, total])
    exact ⟨number'.trans number, total'.trans total, fun i => waits' i ∘ waits i⟩

end Locked

end Runs

/-! ## Stopping the server -/

/-- The parts of source `HttpImplement` that matter between the start of `thr_`, which is call `0` of
`wait`, and the end of `startMHDDaemon`.  A call of `stop` is past its test if it is `entered`. -/
structure Shutdown where
  runningBarrier : Barrier ℕ := Barrier.new 2
  running : Bool := true
  entered : ℕ → Bool := fun i => i == 0

/-- The pieces of the calls that stop the server. -/
inductive ShutdownStep where
  /-- `isRunning()` in a call of `stop`. -/
  | isRunning (i : ℕ)
  /-- A piece of `runningBarrier_.wait()`, of `startWait` or `stop`. -/
  | wait (a : WaitStep ℕ)
  /-- `thr_.join()` and `running_ = false`. -/
  | join

namespace Shutdown

/-- Calls of `stop` arrive behind their test. -/
def admits (s : Shutdown) : WaitStep ℕ → Bool
  | .arrive i => s.entered i
  | _ => true

/-- The server behind a piece of a call, if the call has come that far. -/
def step (s : Shutdown) : ShutdownStep → Option Shutdown
  | .isRunning i => some (if s.running then { s with entered := Function.update s.entered i true } else s)
  | .wait a =>
    if s.admits a then
      (s.runningBarrier.step a).map fun b => { s with runningBarrier := b }
    else none
  | .join => if s.runningBarrier.stage 0 = .returned then some { s with running := false } else none

/-- The server behind some steps, if all of them are possible. -/
def run (s : Shutdown) (steps : List ShutdownStep) : Option Shutdown := steps.foldlM step s

end Shutdown

/-- The step of the barrier in a step of the server. -/
def ShutdownStep.barrier : ShutdownStep → Option (WaitStep ℕ)
  | .wait a => some a
  | _ => none

/-- A run of the server is a run of its barrier. -/
theorem shutdown_run {s s' : Shutdown} {steps : List ShutdownStep} (run : s.run steps = some s') :
    s.runningBarrier.run (steps.filterMap ShutdownStep.barrier) = some s'.runningBarrier := by
  induction steps generalizing s with
  | nil =>
    obtain rfl := Option.some.inj run
    rfl
  | cons a steps ih =>
    rw [Shutdown.run, List.foldlM_cons] at run
    obtain ⟨s₁, step, rest⟩ := Option.bind_eq_some_iff.mp run
    have later := ih rest
    cases a with
    | isRunning i =>
      obtain rfl := Option.some.inj step
      rw [List.filterMap_cons_none rfl]
      split at later <;> exact later
    | join =>
      simp only [Shutdown.step] at step
      split at step
      · obtain rfl := Option.some.inj step
        exact later
      · exact absurd step nofun
    | wait a =>
      simp only [Shutdown.step] at step
      split at step
      · obtain ⟨b, here, rfl⟩ := Option.map_eq_some_iff.mp step
        have whole : s.runningBarrier.run ((.wait a :: steps).filterMap ShutdownStep.barrier) =
            (s.runningBarrier.step a).bind fun b => b.run (steps.filterMap ShutdownStep.barrier) := rfl
        rw [whole, here]
        exact later
      · exact absurd step nofun

/-- The server thread and one call of `stop` pass. -/
theorem shutdown_passes {s : Shutdown} {steps : List ShutdownStep}
    (run : ({} : Shutdown).run steps = some s)
    (few : arrivals (steps.filterMap ShutdownStep.barrier) ≤ 2) :
    Passes 2 (steps.filterMap ShutdownStep.barrier) s.runningBarrier :=
  (balanced_of_run few (shutdown_run run)).passes

/-- The server thread sleeps, a call of `stop` passes, and another one arrives before the server thread
looks at the counter again: both wait forever. -/
theorem second_stop_locks :
    ∃ steps s, ({} : Shutdown).run steps = some s ∧ s.running = true ∧
      s.runningBarrier.number = 0xFFFFFFFF ∧ ∀ later s', s.run later = some s' →
        (s'.runningBarrier.stage 0).Waits ∧ (s'.runningBarrier.stage 2).Waits := by
  have run : (({} : Shutdown).run [.wait (.arrive 0), .wait (.leave 0), .isRunning 1, .isRunning 2,
      .wait (.arrive 1), .wait (.leave 1), .wait (.arrive 2)]).map (fun s => (s.running,
        s.runningBarrier.number, s.runningBarrier.total, s.runningBarrier.stage 0,
        s.runningBarrier.stage 2)) = some (true, 0xFFFFFFFF, 2, .checking, .checking) := by
    decide
  obtain ⟨s, steps, seen⟩ := Option.map_eq_some_iff.mp run
  simp only [Prod.mk.injEq] at seen
  obtain ⟨running, number, total, server, second⟩ := seen
  refine ⟨_, s, steps, running, number, fun later s' more => ?_⟩
  have locked := locked_out (by rw [number, total]; decide) (shutdown_run more)
  exact ⟨locked.2.2 0 (Or.inl server), locked.2.2 2 (Or.inl second)⟩

end Cppmhd
