import Cppmhd.Http.Upload

/-!
# The invariant of a connection

With an error handler that always has a response, and processors that leave a processor set, every
call of MHD returns, and an error that stops an upload stays as it is until its response is queued
(`connection_invariant`).
-/

open Runs

namespace Cppmhd

variable {σ Ctrl P Resp : Type}

/-- The error handler never gives a null response. -/
def UserCode.AlwaysAnswers (code : UserCode σ Ctrl P Resp) : Prop :=
  ∀ req sc error msg user, (code.errorHandler req sc error msg user).value.isSome

/-- Body data does not unset the processor. -/
def UserCode.KeepsProcessor (code : UserCode σ Ctrl P Resp) : Prop :=
  ∀ pp req bytes user, req.processor = some pp →
    (code.onData pp req (some bytes) user).processor.isSome

/-- What the state of a request says about its other fields. -/
structure ConnectionObject.Sound (co : ConnectionObject Ctrl P Resp) : Prop where
  receiving : co.request.state = .DATA_RECEIVING → co.request.processor.isSome
  error : co.request.state = .RS_ERROR → co.response.isSome

/-! ## Calls keep it -/

section Later

variable {code : UserCode σ Ctrl P Resp} {s s' : Session σ Ctrl P Resp} {data : Option Str} {left : ℕ}

theorem receive_processor (s : Session σ Ctrl P Resp) :
    s.receive.co.request.processor = s.co.request.processor := by
  unfold Session.receive
  split <;> rfl

theorem RequestState.Complete.sound {co : ConnectionObject Ctrl P Resp}
    (complete : co.request.state.Complete) : co.Sound := by
  rcases complete with state | state
  · exact ⟨fun h => absurd (state.symm.trans h) (by decide),
      fun h => absurd (state.symm.trans h) (by decide)⟩
  · exact ⟨fun h => absurd (state.symm.trans h) (by decide),
      fun h => absurd (state.symm.trans h) (by decide)⟩

theorem Later.sound (answers : code.AlwaysAnswers) (keeps : code.KeepsProcessor)
    (call : Later code s data left s') (sound : s.co.Sound) : s'.co.Sound := by
  have stopped : ∀ (s : Session σ Ctrl P Resp) sc error msg,
      ((s.error code sc error msg).setState .RS_ERROR).co.Sound := by
    intro s sc error msg
    refine ⟨fun h => absurd h (by simp), fun _ => ?_⟩
    exact answers (some s.co.request.toHttpRequest) sc error msg s.user
  cases call with
  | resend | discard => exact sound
  | signal => exact RequestState.Complete.sound (Or.inr rfl)
  | handle complete => exact RequestState.Complete.sound complete
  | answer complete => exact RequestState.Complete.sound complete
  | dataInGet | noProcessor | fail => exact stopped _ _ _ _
  | @consume pp bytes isOpen processor done =>
    refine ⟨fun _ => ?_, fun error => ?_⟩
    · exact keeps pp _ bytes _ ((receive_processor s).trans processor)
    · rw [onData_state, Session.receive] at error
      split at error
      · exact absurd error (by simp)
      · exact absurd error isOpen.2

/-- In the error state a call can only send the response. -/
theorem Later.stopped (call : Later code s data left s') (error : s.co.request.state = .RS_ERROR) :
    s'.co = s.co ∧ (s'.events = s.events ∨
      ∃ resp, s.co.response = some resp ∧ s'.events = s.events ++ [.queued resp]) := by
  cases call with
  | @resend _ resp _ response => exact ⟨rfl, Or.inr ⟨resp, response, rfl⟩⟩
  | discard => exact ⟨rfl, Or.inl rfl⟩
  | signal receiving => exact absurd (error.symm.trans receiving) (by decide)
  | handle complete | answer complete =>
    rw [error] at complete
    exact absurd complete (by simp [RequestState.Complete])
  | dataInGet isOpen | noProcessor isOpen | fail isOpen | consume isOpen =>
    exact absurd error isOpen.2

end Later

/-! ## Calls return -/

section Returns

variable {pcre : Pcre} {http : HttpImplement σ Ctrl P Resp} {s : Session σ Ctrl P Resp}

theorem send_isSome (response : s.co.response.isSome) : s.send.isSome := by
  rw [Session.send, Option.isSome_map]
  exact response

theorem send_or_wait (s : Session σ Ctrl P Resp) :
    (if s.co.response.isSome then s.send else some s).isSome := by
  split
  · rename_i response
    exact send_isSome response
  · rfl

variable (answers : http.code.AlwaysAnswers)

include answers

theorem error_isSome (sc : HttpStatusCode) (error : HttpError) (msg : Str) :
    (s.error http.code sc error msg).co.response.isSome :=
  answers (some s.co.request.toHttpRequest) sc error msg s.user

theorem sendTSR_isSome (s : Session σ Ctrl P Resp) : (sendTSR http.code s).isSome := by
  unfold sendTSR
  dsimp only
  split
  · rename_i silent
    exact absurd silent (Option.isSome_iff_ne_none.mp (error_isSome answers _ _ _))
  · rename_i resp response
    exact send_isSome (Option.isSome_of_eq_some response)

theorem firstRound_isSome (conn : MHD_Connection) (url : Str) (mtd : HttpMethod)
    (method version : Str) (user : σ) :
    (firstRound pcre http conn url mtd method version user).isSome := by
  unfold firstRound
  dsimp only
  split
  · rename_i response
    exact send_isSome response
  · split
    · split
      · rename_i response
        exact send_isSome response
      · rfl
    · split
      · exact sendTSR_isSome answers _
      · exact send_isSome (error_isSome answers _ _ _)

omit answers in
theorem noData_isSome (sound : s.co.Sound) : (noData http s).isSome := by
  unfold noData
  split
  · rename_i receiving
    obtain ⟨pp, processor⟩ := Option.isSome_iff_exists.mp (sound.receiving receiving)
    rw [processor]
    rfl
  · cases s.co.ctrl with
    | none => exact send_or_wait s
    | some ctrl => exact send_or_wait (s.onRequest http.code ctrl)

omit answers in
/-- A later call returns behind the initial state. -/
theorem laterRound_isSome (sound : s.co.Sound) (started : s.co.request.state ≠ .INITIAL)
    (url method : Str) (data : Option Str) : (laterRound http url method data s).isSome := by
  unfold laterRound
  split
  · rename_i error
    split
    · rfl
    · rw [Option.isSome_map]
      exact send_isSome (sound.error error)
  · cases data with
    | none =>
      dsimp only
      rw [Option.isSome_map]
      exact noData_isSome sound
    | some bytes => rfl

end Returns

/-! ## Exchanges -/

section Exchanges

variable {pcre : Pcre} {http : HttpImplement σ Ctrl P Resp} {i : Incoming}
  {e e' : Exchange σ Ctrl P Resp}

theorem call_none_isSome (answers : http.code.AlwaysAnswers) (user : σ) :
    (i.call pcre http none { user := user }).isSome := by
  unfold Incoming.call MHDconnectionCB
  dsimp only
  split
  · rw [Option.isSome_map]
    exact answers _ _ _ _ _
  · rw [Option.isSome_map]
    exact firstRound_isSome answers _ _ _ _ _ _

theorem call_isSome {s : Session σ Ctrl P Resp} (sound : s.co.Sound)
    (started : s.co.request.state ≠ .INITIAL) (data : Option Str) :
    (i.call pcre http data s.toConnection).isSome := by
  unfold Incoming.call MHDconnectionCB
  dsimp only [Session.toConnection]
  rw [Option.isSome_map]
  exact laterRound_isSome sound started _ _ _

/-- Behind the first call the state is still initial or just complete. -/
theorem first_state {user : σ} {left : ℕ} {c : Connection σ Ctrl P Resp}
    (returned : i.call pcre http none { user := user } = some (left, c))
    {co : ConnectionObject Ctrl P Resp} (object : c.con_cls = some co) :
    co.request.state = .INITIAL ∨ co.request.state = .INITIAL_COMPLETE := by
  cases firstCall_of_returned returned with
  | badMethod => exact absurd object nofun
  | round known round =>
    rw [← Option.some.inj object]
    exact (firstRound_cases round).imp Refuses.initial Connects.complete

/-- The connection object of an exchange is sound. -/
def Exchange.Sound (e : Exchange σ Ctrl P Resp) : Prop := ∀ co, e.con_cls = some co → co.Sound

theorem sound_stable (answers : http.code.AlwaysAnswers) (keeps : http.code.KeepsProcessor) :
    (exchanges pcre http i).Stable Exchange.Sound := by
  intro e e' reachable sound step
  cases (phase_of_reachable reachable).progress step with
  | first returned =>
    intro co object
    rcases first_state returned object with state | state
    · exact ⟨fun h => absurd (state.symm.trans h) (by decide),
        fun h => absurd (state.symm.trans h) (by decide)⟩
    · exact RequestState.Complete.sound (Or.inl state)
  | later course waits offers call =>
    intro co object
    rw [← Option.some.inj object]
    exact call.sound answers keeps (sound _ rfl)

theorem Exchange.Sound.of_reachable (answers : http.code.AlwaysAnswers)
    (keeps : http.code.KeepsProcessor) (reachable : (exchanges pcre http i).Reachable e) : e.Sound := by
  apply (sound_stable answers keeps).reachable _ reachable
  rintro _ ⟨user, rfl⟩ co object
  exact absurd object nofun

theorem Course.started {body : Str} {s : Session σ Ctrl P Resp} {remaining : Str}
    (course : Course body s remaining) : s.co.request.state ≠ .INITIAL := by
  intro initial
  cases course with
  | uploading routed pending state =>
    exact (state ▸ uploadState_open _ : s.co.request.state.Open).1 initial
  | handling routed pending ready | replied ready =>
    have complete := ready.complete
    rw [initial] at complete
    exact absurd complete (by simp [RequestState.Complete])
  | broken routed state | closed state => exact absurd (state.symm.trans initial) (by decide)

/-! ### Stopped uploads -/

/-- From an error on, the only event is the response for it. -/
theorem stopped_run {co : ConnectionObject Ctrl P Resp}
    (reachable : (exchanges pcre http i).Reachable e) (object : e.con_cls = some co)
    (error : co.request.state = .RS_ERROR) (run : (exchanges pcre http i).Run e e') :
    e'.con_cls = some co ∧ (e'.events = e.events ∨
      ∃ resp, co.response = some resp ∧ e'.events = e.events ++ [.queued resp]) := by
  have stable : (exchanges pcre http i).Stable fun e' => e'.con_cls = some co ∧
      (e'.events = e.events ∨
        ∃ resp, co.response = some resp ∧ e'.events = e.events ++ [.queued resp]) := by
    intro e₁ e₂ reachable kept step
    obtain ⟨object, events⟩ := kept
    cases (phase_of_reachable reachable).progress step with
    | first => exact absurd object nofun
    | later course waits offers call =>
      obtain rfl := Option.some.inj object
      obtain ⟨same, new⟩ := call.stopped error
      refine ⟨congrArg some same, ?_⟩
      rcases events with events | ⟨resp, -, events⟩
      · rwa [← events]
      · have waits := (congrArg (List.any · Event.isQueued) events).symm.trans waits
        exact absurd waits (by simp [Event.isQueued])
  exact stable.run reachable ⟨object, Or.inl rfl⟩ run

/-- The error state discards body data. -/
theorem stopped_discards {co : ConnectionObject Ctrl P Resp} (object : e.con_cls = some co)
    (error : co.request.state = .RS_ERROR) {chunk : Str} (nonempty : chunk ≠ []) :
    i.call pcre http (some chunk) e.toConnection = some (0, e.toConnection) := by
  obtain ⟨x, bytes, rfl⟩ := List.exists_cons_of_ne_nil nonempty
  unfold Incoming.call MHDconnectionCB
  rw [object]
  dsimp only
  rw [laterRound, if_pos error]
  dsimp only [Option.map_some, Session.toConnection]
  rw [← object]

/-- Without data the error state queues the stored response. -/
theorem stopped_sends {co : ConnectionObject Ctrl P Resp} (object : e.con_cls = some co)
    (error : co.request.state = .RS_ERROR) {resp : Resp} (response : co.response = some resp) :
    i.call pcre http none e.toConnection =
      some (0, { e.toConnection with events := e.events ++ [.queued resp] }) := by
  unfold Incoming.call MHDconnectionCB
  rw [object]
  dsimp only
  rw [laterRound, if_pos error, Session.send, response]
  dsimp only [Option.map_some, Session.toConnection]
  rw [← object]

/-- The only response queued behind an error is the one stored for it. -/
theorem stopped_queued {co : ConnectionObject Ctrl P Resp}
    (reachable : (exchanges pcre http i).Reachable e) (object : e.con_cls = some co)
    (error : co.request.state = .RS_ERROR) {r : Resp} (queued : .queued r ∈ e.events) :
    co.response = some r := by
  cases phase_of_reachable reachable with
  | fresh => exact absurd object nofun
  | refused initial => exact absurd ((initial co object).symm.trans error) (by decide)
  | @later s remaining course =>
    obtain rfl := Option.some.inj object
    have queued : .queued r ∈ s.events := queued
    cases course with
    | uploading routed pending state =>
      exact absurd error (state ▸ uploadState_open _ : s.co.request.state.Open).2
    | handling routed pending ready | replied ready =>
      have complete := ready.complete
      rw [error] at complete
      exact absurd complete (by simp [RequestState.Complete])
    | broken routed state broken => exact absurd queued (broken.not_queued r)
    | closed state response broken events =>
      rw [events] at queued
      simp only [List.mem_append, broken.not_queued, List.mem_singleton, Event.queued.injEq,
        false_or] at queued
      rw [queued]
      exact response

/-- The invariant of a connection, for every run of the protocol of MHD. -/
theorem connection_invariant (answers : http.code.AlwaysAnswers) (keeps : http.code.KeepsProcessor)
    (reachable : (exchanges pcre http i).Reachable e) :
    -- every call that MHD may make returns, and a later one finds its connection object
    (∀ data, e.admits data = true → (i.call pcre http data e.toConnection).isSome) ∧
    (e.started = true → e.answered = false →
      ∃ co, e.con_cls = some co ∧ co.request.state ≠ .INITIAL) ∧
    ∀ co, e.con_cls = some co →
      (co.request.state = .DATA_RECEIVING → co.request.processor.isSome) ∧
      (co.request.state = .RS_ERROR → ∃ resp, co.response = some resp ∧
        ∀ e', (exchanges pcre http i).Run e e' → e'.con_cls = some co ∧
          (e'.events = e.events ∨ e'.events = e.events ++ [.queued resp]) ∧
          (∀ r, .queued r ∈ e'.events → r = resp) ∧
          (∀ chunk, chunk ≠ [] →
            i.call pcre http (some chunk) e'.toConnection = some (0, e'.toConnection)) ∧
          i.call pcre http none e'.toConnection =
            some (0, { e'.toConnection with events := e'.events ++ [.queued resp] })) := by
  have sound := Exchange.Sound.of_reachable answers keeps reachable
  refine ⟨?_, ?_, ?_⟩
  · intro data admits
    cases phase_of_reachable reachable with
    | fresh =>
      cases data with
      | none => exact call_none_isSome answers _
      | some chunk => simp [Exchange.admits] at admits
    | refused initial queued =>
      cases data with
      | none | some => simp [Exchange.admits, Exchange.answered, queued] at admits
    | later course => exact call_isSome (sound _ rfl) course.started data
  · intro started waits
    cases phase_of_reachable reachable with
    | fresh => exact absurd started (by simp)
    | refused initial queued => exact absurd (queued.symm.trans waits) (by simp)
    | later course => exact ⟨_, rfl, course.started⟩
  · intro co object
    refine ⟨(sound co object).receiving, fun error => ?_⟩
    obtain ⟨resp, response⟩ := Option.isSome_iff_exists.mp ((sound co object).error error)
    refine ⟨resp, response, fun e' run => ?_⟩
    obtain ⟨object', events⟩ := stopped_run reachable object error run
    refine ⟨object', ?_, ?_, fun chunk nonempty => stopped_discards object' error nonempty,
      stopped_sends object' error response⟩
    · rcases events with same | ⟨resp', response', sent⟩
      · exact Or.inl same
      · rw [Option.some.inj (response.symm.trans response')]
        exact Or.inr sent
    · intro r queued
      have stored := stopped_queued (reachable.run run) object' error queued
      exact (Option.some.inj (response.symm.trans stored)).symm

end Exchanges

theorem connection_invariant_failed :
    ∃ e : Exchange Unit ℕ ℕ ℕ, e.events = failedUpload ∧
      ∀ co, e.con_cls = some co → co.request.state = .RS_ERROR → co.response.isSome := by
  obtain ⟨e, reachable, events⟩ : ∃ e,
      (exchanges anyPcre (uploadServer fun _ => DataProcessorParseFailed) (uploadOf ['x'])).Reachable
        e ∧ e.events = failedUpload :=
    upload_run [none, some ['x'], none] (by decide +kernel)
  have answers : (uploadServer fun _ => DataProcessorParseFailed).code.AlwaysAnswers :=
    fun _ _ _ _ _ => rfl
  have keeps : (uploadServer fun _ => DataProcessorParseFailed).code.KeepsProcessor :=
    fun _ _ _ _ processor => Option.isSome_of_eq_some processor
  refine ⟨e, events, fun co object error => ?_⟩
  obtain ⟨resp, response, -⟩ :=
    ((connection_invariant answers keeps reachable).2.2 co object).2 error
  exact Option.isSome_of_eq_some response

end Cppmhd
