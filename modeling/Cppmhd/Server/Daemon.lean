import Cppmhd.Sync.Barrier
import Mathlib.Data.List.Count

/-!
# The life of the daemons

`HttpImplement::startMHDDaemon` of `http.cc`: it starts one daemon of MHD for each thread, waits at the
barrier, and stops them.  `life_cycle_iff` says for which thread counts no daemon is left behind and no
server runs without one.
-/

namespace Cppmhd

/-- Source `CPPMHD_Error`. -/
inductive CPPMHD_Error where
  | CPPMHD_OK
  | CPPMHD_LISTEN_ADDRESS_ERROR
  | CPPMHD_LISTEN_FAILED
  | CPPMHD_ROUTER_TREE_BUILD_FAILED
  deriving DecidableEq, Repr

/-- The calls of `startMHDDaemon`: of MHD, with what they return, and of the callback. -/
inductive DaemonCall (D : Type) where
  /-- `MHD_start_daemon` returned this daemon. -/
  | started (d : D)
  /-- `MHD_start_daemon` returned null. -/
  | failed
  | callback
  /-- `MHD_stop_daemon`. -/
  | stopped (d : D)
  deriving DecidableEq

/-- The list `daemons` of source `HttpImplement`, and the calls so far. -/
structure Daemons (D : Type) where
  daemons : List D := []
  calls : List (DaemonCall D) := []
  deriving DecidableEq

variable {D : Type}

namespace Daemons

/-- A daemon is started and kept. -/
def start (h : Daemons D) (d : D) : Daemons D :=
  { daemons := h.daemons ++ [d], calls := h.calls ++ [.started d] }

/-- Another call. -/
def call (h : Daemons D) (c : DaemonCall D) : Daemons D := { h with calls := h.calls ++ [c] }

/-- The loops that stop the daemons leave the pointers in the list. -/
def stopAll (h : Daemons D) : Daemons D := { h with calls := h.calls ++ h.daemons.map .stopped }

end Daemons

/-- The test of the thread count at the head of `startMHDDaemon`.  The shifts are those of `uint32_t`. -/
def clampThreads (getNProc tc : UInt32) : UInt32 :=
  if tc > getNProc <<< 3 then getNProc <<< 2 else tc

/-- The loop over the threads: the rounds that are left, and the index of this one. -/
def startLoop (MHD_start_daemon : ℕ → Option D) : ℕ → ℕ → Daemons D → Daemons D × Bool
  | 0, _, h => (h, true)
  | rounds + 1, i, h =>
    match MHD_start_daemon i with
    | some d => startLoop MHD_start_daemon rounds (i + 1) (h.start d)
    | none => ((h.call .failed).stopAll, false)

/-- Source `HttpImplement::startMHDDaemon`.  The last argument is the run of the server from the start of
`thr_` on; `none` if it does not reach the end of `thr_.join()`. -/
def startMHDDaemon (getNProc : UInt32) (MHD_start_daemon : ℕ → Option D) (tc : UInt32)
    (h : Daemons D) (waiting : List ShutdownStep) : Option (CPPMHD_Error × Daemons D) :=
  let tc := clampThreads getNProc tc
  let r := startLoop MHD_start_daemon tc.toNat 0 h
  if r.2 then
    match ({} : Shutdown).run waiting with
    | some s => if s.running then none else some (.CPPMHD_OK, (r.1.call .callback).stopAll)
    | none => none
  else some (.CPPMHD_LISTEN_FAILED, r.1)

/-! ## What the calls should be -/

section Calls

variable [DecidableEq D]

/-- Every daemon is stopped as often as it was started, and never before. -/
def StoppedOnce (calls : List (DaemonCall D)) : Prop :=
  ∀ d, calls.count (.stopped d) = calls.count (.started d) ∧
    ∀ before, before <+: calls → before.count (.stopped d) ≤ before.count (.started d)

/-- A server that returned had a daemon, has stopped its daemons, and failed at the first failure. -/
structure LifeCycle (MHD_start_daemon : ℕ → Option D) (r : CPPMHD_Error × Daemons D) : Prop where
  serves : r.1 = .CPPMHD_OK → ∃ d, .started d ∈ r.2.calls
  stopped : StoppedOnce r.2.calls
  failure : .failed ∈ r.2.calls → r.1 = .CPPMHD_LISTEN_FAILED ∧
    ∃ ds : List D, ds.map some = (List.range ds.length).map MHD_start_daemon ∧
      MHD_start_daemon ds.length = none ∧
        r.2.calls = ds.map .started ++ .failed :: ds.map .stopped

omit [DecidableEq D] in
theorem mem_started {ds : List D} {d : D} : DaemonCall.started d ∈ ds.map DaemonCall.started ↔ d ∈ ds := by
  simp

/-- Starts, then something else, then the stops. -/
theorem stoppedOnce_of_started (ds : List D) {c : DaemonCall D} (notStart : ∀ d, c ≠ .started d)
    (notStop : ∀ d, c ≠ .stopped d) :
    StoppedOnce (ds.map .started ++ c :: ds.map .stopped) := by
  intro d
  have starts : (ds.map DaemonCall.started).count (.started d) = ds.count d :=
    List.count_map_of_injective ds _ (fun _ _ same => DaemonCall.started.inj same) d
  have stops : (ds.map DaemonCall.stopped).count (.stopped d) = ds.count d :=
    List.count_map_of_injective ds _ (fun _ _ same => DaemonCall.stopped.inj same) d
  have noStop : (ds.map DaemonCall.started).count (.stopped d) = 0 :=
    List.count_eq_zero.mpr (by simp)
  have noStart : (ds.map DaemonCall.stopped).count (.started d) = 0 :=
    List.count_eq_zero.mpr (by simp)
  refine ⟨?_, ?_⟩
  · simp [starts, stops, noStop, noStart, notStart, notStop]
  · rintro before ⟨after, whole⟩
    rcases List.append_eq_append_iff.mp whole with ⟨rest, same, -⟩ | ⟨rest, rfl, same⟩
    · -- nothing is stopped while the daemons start
      have none : before.count (.stopped d) = 0 := by
        have parts := noStop
        rw [same, List.count_append] at parts
        omega
      rw [none]
      exact Nat.zero_le _
    · have fewer : rest.count (.stopped d) ≤ ds.count d := by
        have parts := congrArg (List.count (.stopped d)) same
        simp only [List.count_cons_of_ne (notStop d), stops, List.count_append] at parts
        omega
      rw [List.count_append, List.count_append, noStop, starts]
      omega

end Calls

/-! ## The loop -/

/-- The loop starts all daemons, or it stops at the first failure and has stopped the earlier ones. -/
theorem startLoop_spec (starts : ℕ → Option D) (rounds i : ℕ) (h : Daemons D) :
    ∃ ds : List D, ds.map some = (List.range' i ds.length).map starts ∧
      (ds.length = rounds ∧
          startLoop starts rounds i h =
            (⟨h.daemons ++ ds, h.calls ++ ds.map .started⟩, true) ∨
        ds.length < rounds ∧ starts (i + ds.length) = none ∧
          startLoop starts rounds i h = (⟨h.daemons ++ ds, h.calls ++ ds.map .started ++
            .failed :: (h.daemons ++ ds).map .stopped⟩, false)) := by
  induction rounds generalizing i h with
  | zero => exact ⟨[], rfl, Or.inl ⟨rfl, by simp [startLoop]⟩⟩
  | succ rounds ih =>
    rw [startLoop]
    cases outcome : starts i with
    | none =>
      exact ⟨[], rfl, Or.inr ⟨Nat.succ_pos _, outcome, by simp [Daemons.call, Daemons.stopAll]⟩⟩
    | some d =>
      obtain ⟨ds, outcomes, ends⟩ := ih (i + 1) (h.start d)
      refine ⟨d :: ds, ?_, ?_⟩
      · rw [List.length_cons, List.range'_succ, List.map_cons, List.map_cons, outcome, outcomes]
      · rcases ends with ⟨length, result⟩ | ⟨few, failed, result⟩
        · refine Or.inl ⟨by rw [List.length_cons, length], ?_⟩
          dsimp only
          rw [result]
          simp [Daemons.start]
        · refine Or.inr ⟨Nat.succ_lt_succ few, ?_, ?_⟩
          · rw [List.length_cons, Nat.add_comm ds.length, ← Nat.add_assoc]
            exact failed
          · dsimp only
            rw [result]
            simp [Daemons.start]

/-- What a call on a new server that returns has done. -/
inductive Returned (starts : ℕ → Option D) (tc : UInt32) : CPPMHD_Error × Daemons D → Prop
  | stopped {ds : List D} (outcomes : ds.map some = (List.range ds.length).map starts)
      (all : ds.length = tc.toNat) :
      Returned starts tc (.CPPMHD_OK, ⟨ds, ds.map .started ++ .callback :: ds.map .stopped⟩)
  | failed {ds : List D} (outcomes : ds.map some = (List.range ds.length).map starts)
      (few : ds.length < tc.toNat) (failure : starts ds.length = none) :
      Returned starts tc (.CPPMHD_LISTEN_FAILED,
        ⟨ds, ds.map .started ++ .failed :: ds.map .stopped⟩)

theorem returned_of_start {getNProc tc : UInt32} {starts : ℕ → Option D}
    {waiting : List ShutdownStep} {r : CPPMHD_Error × Daemons D}
    (returned : startMHDDaemon getNProc starts tc {} waiting = some r) :
    Returned starts (clampThreads getNProc tc) r := by
  obtain ⟨ds, outcomes, ends⟩ := startLoop_spec starts (clampThreads getNProc tc).toNat 0 {}
  rw [← List.range_eq_range'] at outcomes
  simp only [startMHDDaemon] at returned
  rcases ends with ⟨length, result⟩ | ⟨few, failure, result⟩
  · simp only [result, if_true] at returned
    split at returned
    · split at returned
      · exact absurd returned nofun
      · obtain rfl := Option.some.inj returned
        have here : Returned starts (clampThreads getNProc tc) _ := .stopped outcomes length
        simpa [Daemons.call, Daemons.stopAll] using here
    · exact absurd returned nofun
  · simp only [result, Bool.false_eq_true, if_false, Option.some.injEq] at returned
    subst returned
    rw [Nat.zero_add] at failure
    exact .failed outcomes few failure

/-! ## The life cycle -/

section LifeCycle

variable [DecidableEq D]

/-- The clamped count is zero only if the count is, or if it is too large for an unknown number of
processors. -/
theorem clampThreads_eq_zero_iff {getNProc tc : UInt32} :
    clampThreads getNProc tc = 0 ↔ tc = 0 ∨ getNProc <<< 3 < tc ∧ getNProc <<< 2 = 0 := by
  unfold clampThreads
  split
  · rename_i large
    constructor
    · exact fun zero => Or.inr ⟨large, zero⟩
    · rintro (rfl | ⟨-, zero⟩)
      · exact absurd large (by simp)
      · exact zero
  · rename_i small
    constructor
    · exact Or.inl
    · rintro (zero | ⟨large, -⟩)
      · exact zero
      · exact absurd large small

theorem Returned.lifeCycle_iff {starts : ℕ → Option D} {tc : UInt32} {r : CPPMHD_Error × Daemons D}
    (returned : Returned starts tc r) : LifeCycle starts r ↔ tc ≠ 0 := by
  cases returned with
  | @stopped ds outcomes all =>
    constructor
    · rintro life rfl
      obtain ⟨d, started⟩ := life.serves rfl
      obtain rfl := List.eq_nil_of_length_eq_zero all
      simp at started
    · intro positive
      refine ⟨fun _ => ?_, stoppedOnce_of_started ds nofun nofun, fun failed => ?_⟩
      · have some : ds ≠ [] := by
          rintro rfl
          exact positive (UInt32.toNat_inj.mp all.symm)
        obtain ⟨d, member⟩ := List.exists_mem_of_ne_nil ds some
        exact ⟨d, List.mem_append_left _ (mem_started.mpr member)⟩
      · simp at failed
  | @failed ds outcomes few failure =>
    refine iff_of_true ?_ ?_
    · exact ⟨nofun, stoppedOnce_of_started ds nofun nofun, fun _ => ⟨rfl, ds, outcomes, failure, rfl⟩⟩
    · rintro rfl
      exact absurd few (Nat.not_lt_zero _)

/-- A call that returns has kept the life cycle if and only if a thread is asked for, and it is not that
the number of processors is unknown and makes the clamped count zero. -/
theorem life_cycle_iff {getNProc tc : UInt32} {starts : ℕ → Option D} {waiting : List ShutdownStep}
    {r : CPPMHD_Error × Daemons D} (returned : startMHDDaemon getNProc starts tc {} waiting = some r) :
    LifeCycle starts r ↔ tc ≠ 0 ∧ (getNProc <<< 3 < tc → getNProc <<< 2 ≠ 0) := by
  rw [(returned_of_start returned).lifeCycle_iff, ne_eq, clampThreads_eq_zero_iff, not_or, not_and]

/-- The thread arrives, a call of `stop` arrives, and both pass. -/
def oneStop : List ShutdownStep :=
  [.wait (.arrive 0), .wait (.leave 0), .isRunning 1, .wait (.arrive 1), .wait (.leave 1),
    .wait (.leave 0), .join]

theorem life_cycle_two :
    LifeCycle (fun i => some i) (.CPPMHD_OK,
      ⟨[0, 1], [.started 0, .started 1, .callback, .stopped 0, .stopped 1]⟩) := by
  have returned : startMHDDaemon 4 (fun i => some i) 2 {} oneStop = some (.CPPMHD_OK,
      ⟨[0, 1], [.started 0, .started 1, .callback, .stopped 0, .stopped 1]⟩) := by
    decide
  exact (life_cycle_iff returned).mpr (by decide)

/-- With an unknown number of processors four threads become none: the server waits without a daemon and
returns as if all went well. -/
theorem unknown_processors :
    startMHDDaemon 0 (fun i => some i) 4 {} oneStop = some (.CPPMHD_OK, ⟨[], [.callback]⟩) ∧
      ¬ LifeCycle (fun i => some i) (.CPPMHD_OK, ⟨([] : List ℕ), [.callback]⟩) := by
  have returned : startMHDDaemon 0 (fun i => some i) 4 {} oneStop =
      some (.CPPMHD_OK, ⟨([] : List ℕ), [.callback]⟩) := by
    decide
  refine ⟨returned, fun life => ?_⟩
  obtain ⟨d, started⟩ := life.serves rfl
  simp at started

end LifeCycle

end Cppmhd
