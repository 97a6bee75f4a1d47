import Cppmhd.Http.Phase

/-!
# Uploads

What a handler can rely on when it is asked: the processor was told the end of a body that is not
empty (`end_signalled_once`), and no call with body data failed (`failed_never_handled`).
-/

open Runs

namespace Cppmhd

variable {σ Ctrl P Resp : Type}

/-! ## Events before the handler -/

/-- A word is cut at its first `x` in one way. -/
theorem append_cons_unique {α : Type} {x : α} {a b c d : List α} (same : a ++ x :: b = c ++ x :: d)
    (left : x ∉ a) (right : x ∉ c) : a = c ∧ b = d := by
  induction a generalizing c with
  | nil =>
    cases c with
    | nil => exact ⟨rfl, (List.cons.inj same).2⟩
    | cons y c => exact absurd ((List.cons.inj same).1 ▸ List.mem_cons_self) right
  | cons z a ih =>
    rw [List.mem_cons, not_or] at left
    cases c with
    | nil => exact absurd (List.cons.inj same).1.symm left.1
    | cons y c =>
      rw [List.mem_cons, not_or] at right
      obtain ⟨rfl, tails⟩ := List.cons.inj same
      obtain ⟨rfl, rfl⟩ := ih tails left.2 right.2
      exact ⟨rfl, rfl⟩

section Events

variable {opening calls before : List (Event P Resp)} {body : Str} {state : RequestState}
  {resp : Option Resp}

theorem Opening.silent (opened : Opening opening) : ∀ event ∈ opening, event.Silent := by
  intro event member
  cases opened with
  | plain =>
    rw [List.mem_singleton.mp member]
    exact trivial
  | passed =>
    simp only [List.mem_cons, List.not_mem_nil, or_false] at member
    rcases member with rfl | rfl
    · exact trivial
    · exact trivial

theorem not_onRequest_of_accepted (accepted : ∀ event ∈ calls, event.Accepted) :
    .onRequest ∉ calls := fun member => accepted _ member

theorem Opening.not_onRequest (opened : Opening opening) : .onRequest ∉ opening :=
  fun member => opened.silent _ member

theorem Ready.not_onRequest (ready : Ready body state before) : .onRequest ∉ before := by
  cases ready with
  | empty opened => exact opened.not_onRequest
  | upload opened accepted =>
    simp [opened.not_onRequest, not_onRequest_of_accepted accepted]

theorem Broken.not_onRequest (broken : Broken resp before) : .onRequest ∉ before := by
  cases broken with
  | dataInGet opened accepted | noProcessor opened accepted | failed opened accepted =>
    simp [opened.not_onRequest, not_onRequest_of_accepted accepted]

theorem Opening.not_onData (opened : Opening opening) (pp : P) (data : Option Str) (result : SizeT) :
    .onData pp data result ∉ opening := fun member => opened.silent _ member

theorem Opening.not_queued (opened : Opening opening) (r : Resp) : .queued r ∉ opening := by
  cases opened with
  | plain | passed => simp

theorem not_queued_of_accepted (accepted : ∀ event ∈ calls, event.Accepted) (r : Resp) :
    .queued r ∉ calls := fun member => accepted _ member

theorem Broken.not_queued (broken : Broken resp before) (r : Resp) : .queued r ∉ before := by
  cases broken with
  | dataInGet opened accepted | noProcessor opened accepted | failed opened accepted =>
    simp [opened.not_queued, not_queued_of_accepted accepted]

theorem not_failed_of_accepted (accepted : ∀ event ∈ calls, event.Accepted) (pp : P)
    (data : Option Str) : .onData pp data DataProcessorParseFailed ∉ calls := by
  intro member
  have here := accepted _ member
  cases data with
  | none => exact here
  | some bytes => exact here rfl

/-- Before a handler is asked, only the end of the body can have failed. -/
theorem Ready.not_failed (ready : Ready body state before) (pp : P) (bytes : Str) :
    .onData pp (some bytes) DataProcessorParseFailed ∉ before := by
  cases ready with
  | empty opened => exact opened.not_onData pp _ _
  | upload opened accepted => simp [opened.not_onData, not_failed_of_accepted accepted]

/-- The failed call of a processor in a stopped upload. -/
theorem Broken.of_failed (broken : Broken resp before) {pp : P} {data : Option Str}
    (failed : .onData pp data DataProcessorParseFailed ∈ before) :
    ∃ first msg, (∀ r, .queued r ∉ first) ∧
      before = first ++ [.errorHandler .k400BadRequest .DATA_PROCESSOR_RETURN_ERROR msg resp] := by
  cases broken with
  | dataInGet opened accepted | noProcessor opened accepted =>
    simp [opened.not_onData, not_failed_of_accepted accepted] at failed
  | @failed opening calls pp bytes msg opened accepted =>
    refine ⟨opening ++ calls ++ [.onData pp (some bytes) DataProcessorParseFailed], msg, ?_, ?_⟩
    · intro r
      simp [opened.not_queued, not_queued_of_accepted accepted]
    · rw [List.append_assoc (opening ++ calls)]
      rfl

/-- A processor that a later call asks is the one of the request. -/
theorem Later.processor {code : UserCode σ Ctrl P Resp} {s s' : Session σ Ctrl P Resp}
    {data : Option Str} {left : ℕ} (call : Later code s data left s') {pp : P} {data' : Option Str}
    {result : SizeT} {rest : List (Event P Resp)}
    (called : s'.events = s.events ++ .onData pp data' result :: rest) :
    s.co.request.processor = some pp := by
  cases call with
  | signal _ processor | consume _ processor =>
    simp only [setState_events, onData_events, receive_events, List.append_cancel_left_eq,
      List.cons.injEq, Event.onData.injEq] at called
    rw [processor, called.1.1]
  | fail _ processor =>
    simp only [setState_events, Session.error, respond_events, onData_events, receive_events,
      List.append_assoc, List.append_cancel_left_eq, List.cons_append, List.cons.injEq,
      Event.onData.injEq] at called
    rw [processor, called.1.1]
  | discard => simp at called
  | resend | dataInGet | noProcessor =>
    simp [Session.error] at called
  | handle | answer => simp [Session.onRequest] at called

/-- A handler is asked when the exchange is ready, and then only handlers are asked. -/
theorem Course.ready_of_onRequest {s : Session σ Ctrl P Resp} {remaining : Str}
    (course : Course body s remaining) {after : List (Event P Resp)}
    (asked : s.events = before ++ .onRequest :: after) (first : .onRequest ∉ before) :
    (∃ state, Ready body state before) ∧ ∀ pp data result, .onData pp data result ∉ after := by
  have member : .onRequest ∈ s.events := by
    rw [asked]
    exact List.mem_append_right _ List.mem_cons_self
  cases course with
  | uploading routed pending state opened accepted bodied events parts =>
    rw [events] at member
    simp [opened.not_onRequest, not_onRequest_of_accepted accepted] at member
  | broken routed state broken => exact absurd member broken.not_onRequest
  | closed state response broken events =>
    rw [events] at member
    simp [broken.not_onRequest] at member
  | @handling before' n routed pending ready events whole =>
    cases n with
    | zero =>
      rw [events] at member
      simp [ready.not_onRequest] at member
    | succ n =>
      obtain ⟨rfl, rfl⟩ := append_cons_unique (asked.symm.trans events) first ready.not_onRequest
      exact ⟨⟨_, ready⟩, by simp⟩
  | @replied before' n resp ready events =>
    rw [List.replicate_succ, List.append_assoc, List.cons_append] at events
    obtain ⟨rfl, rfl⟩ := append_cons_unique (asked.symm.trans events) first ready.not_onRequest
    exact ⟨⟨_, ready⟩, by simp⟩

/-- A failed call with body data stops the upload. -/
theorem Course.broken_of_failed {s : Session σ Ctrl P Resp} {remaining : Str}
    (course : Course body s remaining) {pp : P} {bytes : Str}
    (failed : .onData pp (some bytes) DataProcessorParseFailed ∈ s.events) :
    Broken s.co.response s.events ∨
      ∃ before resp, Broken (some resp) before ∧ s.events = before ++ [.queued resp] := by
  cases course with
  | uploading routed pending state opened accepted bodied events parts =>
    rw [events] at failed
    simp [opened.not_onData, not_failed_of_accepted accepted] at failed
  | broken routed state broken => exact Or.inl broken
  | closed state response broken events => exact Or.inr ⟨_, _, broken, events⟩
  | handling routed pending ready events whole =>
    rw [events] at failed
    simp [ready.not_failed] at failed
  | replied ready events =>
    rw [events] at failed
    simp [ready.not_failed] at failed

end Events

/-! ## An application -/

/-- An application whose one controller for `PUT /up` sets a processor with this result. -/
def uploadServer (result : Option Str → SizeT) : HttpImplement Unit ℕ ℕ ℕ where
  router := (Router.buildTree anyPcre [] ⟨[(.PUT, "/up".toList, 1)]⟩).1
  code :=
    { errorHandler := fun req _ _ _ _ => ⟨some 400, req.bind (·.processor), ()⟩
      onConnection := fun _ _ _ _ => ⟨none, some 7, ()⟩
      onRequest := fun _ req _ _ => ⟨some 200, req.processor, ()⟩
      onData := fun _ req data _ => ⟨result data, req.processor, ()⟩ }

/-- A `PUT` request to it. -/
def uploadOf (body : Str) : Incoming where
  conn := ⟨fun _ => none⟩
  url := "/up".toList
  method := "PUT".toList
  version := "HTTP/1.1".toList
  body := body

theorem upload_run {α : Type} {result : Option Str → SizeT} {body : Str} (data : List (Option Str))
    {view : Exchange Unit ℕ ℕ ℕ → α} {seen : α}
    (run : (Exchange.calls anyPcre (uploadServer result) (uploadOf body) data
      { user := (), remaining := body }).map view = some seen) :
    ∃ e, (exchanges anyPcre (uploadServer result) (uploadOf body)).Reachable e ∧ view e = seen := by
  obtain ⟨e, calls, same⟩ := Option.map_eq_some_iff.mp run
  exact ⟨e, reachable_of_calls (.of_init ⟨(), rfl⟩) calls, same⟩

/-! ## The end of an upload -/

section Exchanges

variable {pcre : Pcre} {http : HttpImplement σ Ctrl P Resp} {i : Incoming}
  {e : Exchange σ Ctrl P Resp}

/-- The first call asks neither a processor nor the handler. -/
theorem first_silent {user : σ} {left : ℕ} {c : Connection σ Ctrl P Resp}
    (returned : i.call pcre http none { user := user } = some (left, c)) :
    ∀ event ∈ c.events, event.Silent := by
  cases firstCall_of_returned returned with
  | badMethod unknown => simp [Event.Silent]
  | round known round =>
    rcases firstRound_cases round with refuses | connects
    · exact refuses.silent
    · exact connects.opened.silent

/-- A processor that is called is the one of the request. -/
theorem processor_called {e' : Exchange σ Ctrl P Resp} (reachable : (exchanges pcre http i).Reachable e)
    (step : MHDStep pcre http i e e') {pp : P} {data : Option Str} {result : SizeT}
    {rest : List (Event P Resp)} (called : e'.events = e.events ++ .onData pp data result :: rest) :
    e.con_cls.bind (·.request.processor) = some pp := by
  cases (phase_of_reachable reachable).progress step with
  | first returned =>
    have member : .onData pp data result ∈ [] ++ .onData pp data result :: rest :=
      List.mem_cons_self
    exact absurd (first_silent returned _ (called ▸ member)) id
  | later course waits offers call => exact call.processor called

/-- Before a handler is asked for the first time, a body that is not empty was delivered in whole and
then its end was signalled once; without a body no processor was called.  Later none is called.  A
processor that is called is always the one of the request. -/
theorem end_signalled_once (reachable : (exchanges pcre http i).Reachable e)
    {before after : List (Event P Resp)} (asked : e.events = before ++ .onRequest :: after)
    (first : .onRequest ∉ before) :
    (i.body ≠ [] → ∃ opening calls pp result,
      before = opening ++ calls ++ [.onData pp none result] ∧ Opening opening ∧
        (∀ event ∈ calls, event.Accepted) ∧ delivered calls = i.body) ∧
      (i.body = [] → Opening before) ∧ (∀ pp data result, .onData pp data result ∉ after) ∧
      ∀ e₁ e₂, (exchanges pcre http i).Reachable e₁ → MHDStep pcre http i e₁ e₂ →
        ∀ pp data result rest, e₂.events = e₁.events ++ .onData pp data result :: rest →
          e₁.con_cls.bind (·.request.processor) = some pp := by
  have called : ∀ e₁ e₂, (exchanges pcre http i).Reachable e₁ → MHDStep pcre http i e₁ e₂ →
      ∀ pp data result rest, e₂.events = e₁.events ++ .onData pp data result :: rest →
        e₁.con_cls.bind (·.request.processor) = some pp :=
    fun _ _ reachable step _ _ _ _ called => processor_called reachable step called
  obtain ⟨⟨state, ready⟩, after⟩ : (∃ state, Ready i.body state before) ∧
      ∀ pp data result, .onData pp data result ∉ after := by
    have member : .onRequest ∈ e.events := by
      rw [asked]
      exact List.mem_append_right _ List.mem_cons_self
    cases phase_of_reachable reachable with
    | fresh => exact absurd member List.not_mem_nil
    | refused initial queued silent => exact absurd (silent _ member) id
    | later course => exact course.ready_of_onRequest asked first
  cases ready with
  | empty opened empty =>
    exact ⟨fun nonempty => absurd empty nonempty, fun _ => opened, after, called⟩
  | upload opened accepted nonempty whole =>
    exact ⟨fun _ => ⟨_, _, _, _, rfl, opened, accepted, whole⟩, fun empty => absurd empty nonempty,
      after, called⟩

theorem end_signalled_once_x :
    ∃ opening calls pp result,
      [.onConnection, .onData 7 (some ['x']) 1, .onData 7 none 1] =
          opening ++ calls ++ [.onData pp none result] ∧ Opening opening ∧
        (∀ event ∈ calls, event.Accepted) ∧ delivered (calls : List (Event ℕ ℕ)) = ['x'] := by
  obtain ⟨e, reachable, events⟩ : ∃ e,
      (exchanges anyPcre (uploadServer fun _ => 1) (uploadOf ['x'])).Reachable e ∧ e.events =
        [.onConnection, .onData 7 (some ['x']) 1, .onData 7 none 1] ++ .onRequest :: [.queued 200] :=
    upload_run [none, some ['x'], none, none] (by decide +kernel)
  exact (end_signalled_once reachable events (by decide)).1 (by decide)

/-- Without a body the processor of `onConnection` is not called before the handler. -/
theorem empty_never_signalled :
    ∃ e, (exchanges anyPcre (uploadServer fun _ => 1) (uploadOf [])).Reachable e ∧
      (e.events, e.con_cls.bind (·.request.processor)) =
        ([.onConnection, .onRequest, .queued 200], some 7) :=
  upload_run [none, none] (by decide +kernel)

/-- If no processor fails at the end of a body, then a failed processor stops the upload: no handler
is asked, and only the response of the error handler is queued. -/
theorem failed_never_handled (reachable : (exchanges pcre http i).Reachable e)
    (ends : ∀ pp result, .onData pp none result ∈ e.events → result ≠ DataProcessorParseFailed)
    {pp : P} {data : Option Str} (failed : .onData pp data DataProcessorParseFailed ∈ e.events) :
    .onRequest ∉ e.events ∧ ∃ before msg resp, (∀ r, .queued r ∉ before) ∧
      (e.events = before ++
          [.errorHandler .k400BadRequest .DATA_PROCESSOR_RETURN_ERROR msg resp] ∨
        ∃ r, resp = some r ∧ e.events = before ++
          [.errorHandler .k400BadRequest .DATA_PROCESSOR_RETURN_ERROR msg resp, .queued r]) := by
  cases data with
  | none => exact absurd rfl (ends pp _ failed)
  | some bytes =>
    cases phase_of_reachable reachable with
    | fresh => exact absurd failed List.not_mem_nil
    | refused initial queued silent => exact absurd (silent _ failed) id
    | @later s remaining course =>
      show .onRequest ∉ s.events ∧ _
      rcases course.broken_of_failed failed with broken | ⟨events, resp, broken, whole⟩
      · obtain ⟨before, msg, notQueued, same⟩ := broken.of_failed failed
        exact ⟨broken.not_onRequest, before, msg, _, notQueued, Or.inl same⟩
      · have failed : .onData pp (some bytes) DataProcessorParseFailed ∈ s.events := failed
        rw [whole] at failed ⊢
        have inside : .onData pp (some bytes) DataProcessorParseFailed ∈ events := by
          simpa using failed
        obtain ⟨before, msg, notQueued, same⟩ := broken.of_failed inside
        refine ⟨by simp [broken.not_onRequest], before, msg, _, notQueued, Or.inr ⟨resp, rfl, ?_⟩⟩
        show s.events = _
        rw [whole, same, List.append_assoc]
        rfl

/-- The events of the upload of `x` to a processor that fails. -/
def failedUpload : List (Event ℕ ℕ) :=
  [.onConnection, .onData 7 (some ['x']) DataProcessorParseFailed,
    .errorHandler .k400BadRequest .DATA_PROCESSOR_RETURN_ERROR
      "Data Processor return an error in PUT Request to /up".toList (some 400), .queued 400]

theorem failed_never_handled_x : .onRequest ∉ failedUpload := by
  obtain ⟨e, reachable, events⟩ : ∃ e,
      (exchanges anyPcre (uploadServer fun _ => DataProcessorParseFailed) (uploadOf ['x'])).Reachable
        e ∧ e.events = failedUpload :=
    upload_run [none, some ['x'], none] (by decide +kernel)
  have failed : .onData 7 (some ['x']) DataProcessorParseFailed ∈ e.events := by
    rw [events]
    simp [failedUpload]
  rw [← events]
  refine (failed_never_handled reachable ?_ failed).1
  intro pp result ended
  rw [events] at ended
  simp [failedUpload] at ended

/-- A processor that takes `x` and fails at the end of the body does not stop the request. -/
theorem failed_end_handled :
    ∃ e, (exchanges anyPcre (uploadServer fun data =>
        if data.isSome then 1 else DataProcessorParseFailed) (uploadOf ['x'])).Reachable e ∧
      e.events = [.onConnection, .onData 7 (some ['x']) 1, .onData 7 none DataProcessorParseFailed,
        .onRequest, .queued 200] :=
  upload_run [none, some ['x'], none, none] (by decide +kernel)

end Exchanges

end Cppmhd
