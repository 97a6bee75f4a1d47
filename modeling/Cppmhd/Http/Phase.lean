import Cppmhd.Http.Protocol

/-!
# The course of an exchange

`Phase` lists what an exchange can look like between two calls of MHD: the state that the callback
keeps beside the events up to there.  Every call leads from a phase to a phase (`phase_step`).
-/

open Runs

namespace Cppmhd

variable {σ Ctrl P Resp : Type}

/-! ## Events -/

/-- The event asks neither a processor nor the handler of the controller. -/
def Event.Silent : Event P Resp → Prop
  | .onData _ _ _ | .onRequest => False
  | _ => True

/-- A processor took body data without failing. -/
def Event.Accepted : Event P Resp → Prop
  | .onData _ (some _) result => result ≠ DataProcessorParseFailed
  | _ => False

/-- The bytes that a processor consumed. -/
def Event.slice : Event P Resp → Str
  | .onData _ (some bytes) result =>
    if result = DataProcessorParseFailed then [] else bytes.take result.toNat
  | _ => []

/-- The bytes that processors consumed, in order. -/
def delivered (events : List (Event P Resp)) : Str := events.flatMap Event.slice

/-- The events of a first call that found a controller. -/
inductive Opening : List (Event P Resp) → Prop
  | plain : Opening [.onConnection]
  /-- An error handler without a response lets the request pass. -/
  | passed {sc : HttpStatusCode} {error : HttpError} {msg : Str} :
      Opening [.errorHandler sc error msg none, .onConnection]

/-- The events before a handler is asked for the first time, and the state at that time. -/
inductive Ready (body : Str) : RequestState → List (Event P Resp) → Prop
  | empty {opening : List (Event P Resp)} (opened : Opening opening) (empty : body = []) :
      Ready body .INITIAL_COMPLETE opening
  | upload {opening calls : List (Event P Resp)} {pp : P} {result : SizeT} (opened : Opening opening)
      (accepted : ∀ event ∈ calls, event.Accepted) (nonempty : body ≠ [])
      (whole : delivered calls = body) :
      Ready body .DATA_RECEIVED (opening ++ calls ++ [.onData pp none result])

/-- The events up to an error in the upload, with the response for it. -/
inductive Broken (resp : Option Resp) : List (Event P Resp) → Prop
  | dataInGet {opening calls : List (Event P Resp)} {msg : Str} (opened : Opening opening)
      (accepted : ∀ event ∈ calls, event.Accepted) :
      Broken resp (opening ++ calls ++
        [.errorHandler .k400BadRequest .DATA_IN_GET_REQUEST msg resp])
  | noProcessor {opening calls : List (Event P Resp)} {msg : Str} (opened : Opening opening)
      (accepted : ∀ event ∈ calls, event.Accepted) :
      Broken resp (opening ++ calls ++
        [.errorHandler .k405MethodNotAllowed .DATA_PROCESSOR_NOT_SET msg resp])
  | failed {opening calls : List (Event P Resp)} {pp : P} {bytes msg : Str}
      (opened : Opening opening) (accepted : ∀ event ∈ calls, event.Accepted) :
      Broken resp (opening ++ calls ++
        [.onData pp (some bytes) DataProcessorParseFailed,
          .errorHandler .k400BadRequest .DATA_PROCESSOR_RETURN_ERROR msg resp])

/-! ## Phases -/

/-- The state of a request while these calls bring its body. -/
def uploadState (calls : List (Event P Resp)) : RequestState :=
  if calls.isEmpty then .INITIAL_COMPLETE else .DATA_RECEIVING

/-- What a session behind the first call looks like, beside the part of the body that remains. -/
inductive Course (body : Str) (s : Session σ Ctrl P Resp) (remaining : Str) : Prop
  /-- The processor took some calls with body data. -/
  | uploading {opening calls : List (Event P Resp)} (routed : s.co.ctrl.isSome)
      (pending : s.co.response = none) (state : s.co.request.state = uploadState calls)
      (opened : Opening opening) (accepted : ∀ event ∈ calls, event.Accepted)
      (nonempty : calls ≠ [] → body ≠ []) (events : s.events = opening ++ calls)
      (parts : delivered calls ++ remaining = body)
  /-- The handler was asked some times without giving a response. -/
  | handling {before : List (Event P Resp)} {n : ℕ} (routed : s.co.ctrl.isSome)
      (pending : s.co.response = none) (ready : Ready body s.co.request.state before)
      (events : s.events = before ++ List.replicate n .onRequest) (whole : remaining = [])
  /-- The handler gave a response. -/
  | replied {before : List (Event P Resp)} {n : ℕ} {resp : Resp}
      (ready : Ready body s.co.request.state before)
      (events : s.events = before ++ List.replicate (n + 1) .onRequest ++ [.queued resp])
      (response : s.co.response = some resp)
  /-- The upload was stopped by an error. -/
  | broken (routed : s.co.ctrl.isSome) (state : s.co.request.state = .RS_ERROR)
      (events : Broken s.co.response s.events)
  /-- The response for the error is queued. -/
  | closed {before : List (Event P Resp)} {resp : Resp} (state : s.co.request.state = .RS_ERROR)
      (response : s.co.response = some resp) (broken : Broken (some resp) before)
      (events : s.events = before ++ [.queued resp])

/-- What an exchange looks like between two calls of MHD. -/
inductive Phase (body : Str) : Exchange σ Ctrl P Resp → Prop
  | fresh {user : σ} : Phase body { user := user, remaining := body }
  /-- The first call queued a response. -/
  | refused {c : Connection σ Ctrl P Resp}
      (initial : ∀ co, c.con_cls = some co → co.request.state = .INITIAL)
      (queued : c.events.any Event.isQueued = true) (silent : ∀ event ∈ c.events, event.Silent) :
      Phase body ⟨c, true, body⟩
  | later {s : Session σ Ctrl P Resp} {remaining : Str} (course : Course body s remaining) :
      Phase body ⟨s.toConnection, true, remaining⟩

/-! ## The first call -/

section First

variable {pcre : Pcre} {http : HttpImplement σ Ctrl P Resp}

theorem checkRequest_cases (http : HttpImplement σ Ctrl P Resp) (s : Session σ Ctrl P Resp)
    (version : Str) :
    http.checkRequest s version = s ∨
      ∃ sc error msg, http.checkRequest s version = s.error http.code sc error msg := by
  unfold HttpImplement.checkRequest
  dsimp only
  split
  · exact Or.inr ⟨_, _, _, rfl⟩
  · split
    · exact Or.inr ⟨_, _, _, rfl⟩
    · exact Or.inl rfl

theorem silent_concat {events : List (Event P Resp)} {event : Event P Resp}
    (silent : ∀ event ∈ events, event.Silent) (last : event.Silent) :
    ∀ event' ∈ events ++ [event], event'.Silent := by
  intro event' member
  rcases List.mem_append.mp member with member | member
  · exact silent event' member
  · rw [List.mem_singleton.mp member]
    exact last

/-- The first call queues a response. -/
structure Refuses (s : Session σ Ctrl P Resp) : Prop where
  initial : s.co.request.state = .INITIAL
  queued : s.events.any Event.isQueued = true
  silent : ∀ event ∈ s.events, event.Silent

theorem Refuses.of_send {s s' : Session σ Ctrl P Resp} (initial : s.co.request.state = .INITIAL)
    (silent : ∀ event ∈ s.events, event.Silent) (sent : s.send = some s') : Refuses s' := by
  obtain ⟨resp, -, rfl⟩ := send_eq_some sent
  exact ⟨initial, by simp [Event.isQueued], silent_concat silent (by trivial)⟩

theorem Refuses.of_sendTSR {code : UserCode σ Ctrl P Resp} {s s' : Session σ Ctrl P Resp}
    (initial : s.co.request.state = .INITIAL) (silent : ∀ event ∈ s.events, event.Silent)
    (sent : sendTSR code s = some s') : Refuses s' := by
  unfold sendTSR at sent
  dsimp only at sent
  split at sent
  · exact absurd sent nofun
  · refine Refuses.of_send ?_ ?_ sent
    · exact initial
    · exact silent_concat (silent_concat silent (by trivial)) (by trivial)

/-- The first call finds a controller. -/
structure Connects (s : Session σ Ctrl P Resp) : Prop where
  complete : s.co.request.state = .INITIAL_COMPLETE
  routed : s.co.ctrl.isSome
  pending : s.co.response = none
  opened : Opening s.events

/-- The session in front of the checks of the first call. -/
def Incoming.session (conn : MHD_Connection) (url : Str) (m : HttpMethod) (user : σ) :
    Session σ Ctrl P Resp :=
  { co := { request := { conn := conn, uri := url, method := m } }, user := user, events := [] }

/-- The session behind the routing. -/
def Session.route (s : Session σ Ctrl P Resp) (r : Forwarded Ctrl) : Session σ Ctrl P Resp :=
  { s with co := { s.co with request := { s.co.request with param := r.params }, ctrl := r.ctrl } }

/-- What the first round makes of a checked session and the result of the routing. -/
inductive FirstRound (code : UserCode σ Ctrl P Resp) (first : Session σ Ctrl P Resp)
    (r : Forwarded Ctrl) : Session σ Ctrl P Resp → Prop
  | refused {resp : Resp} (response : first.co.response = some resp) :
      FirstRound code first r { first with events := first.events ++ [.queued resp] }
  | answered {ctrl : Ctrl} {resp : Resp} (pending : first.co.response = none)
      (found : r.ctrl = some ctrl)
      (response : ((first.route r).onConnection code ctrl).co.response = some resp) :
      FirstRound code first r { (first.route r).onConnection code ctrl with
        events := ((first.route r).onConnection code ctrl).events ++ [.queued resp] }
  | connected {ctrl : Ctrl} (pending : first.co.response = none) (found : r.ctrl = some ctrl)
      (silent : ((first.route r).onConnection code ctrl).co.response = none) :
      FirstRound code first r (((first.route r).onConnection code ctrl).setState .INITIAL_COMPLETE)
  | redirected {s : Session σ Ctrl P Resp} (pending : first.co.response = none)
      (absent : r.ctrl = none) (tsr : r.tsr = true) (sent : sendTSR code (first.route r) = some s) :
      FirstRound code first r s
  | notFound {msg : Str} {resp : Resp} (pending : first.co.response = none) (absent : r.ctrl = none)
      (stays : r.tsr = false)
      (response :
        ((first.route r).error code .k404NotFound .ROUTER_NOT_FOUND msg).co.response = some resp) :
      FirstRound code first r { (first.route r).error code .k404NotFound .ROUTER_NOT_FOUND msg with
        events := ((first.route r).error code .k404NotFound .ROUTER_NOT_FOUND msg).events ++
          [.queued resp] }

theorem firstRound_outcome {conn : MHD_Connection} {url : Str} {m : HttpMethod}
    {method version : Str} {user : σ} {s : Session σ Ctrl P Resp}
    (returned : firstRound pcre http conn url m method version user = some s) :
    let first := http.checkRequest (Incoming.session conn url m user) version
    FirstRound http.code first
      (http.router.forward pcre first.co.request.method first.co.request.uri first.co.request.param)
      s := by
  intro first
  unfold firstRound at returned
  dsimp only at returned
  have same : http.checkRequest (Incoming.session conn url m user) version = first := rfl
  unfold Incoming.session at same
  rw [same] at returned
  generalize http.router.forward pcre first.co.request.method first.co.request.uri
    first.co.request.param = r at returned ⊢
  split at returned
  · obtain ⟨resp, response, rfl⟩ := send_eq_some returned
    exact .refused response
  · rename_i unanswered
    have pending := Option.not_isSome_iff_eq_none.mp unanswered
    split at returned
    · rename_i ctrl found
      split at returned
      · obtain ⟨resp, response, rfl⟩ := send_eq_some returned
        exact .answered pending found response
      · rename_i silent
        obtain rfl := Option.some.inj returned
        exact .connected pending found (Option.not_isSome_iff_eq_none.mp silent)
    · rename_i absent
      split at returned
      · rename_i tsr
        exact .redirected pending absent tsr returned
      · rename_i stays
        obtain ⟨resp, response, rfl⟩ := send_eq_some returned
        exact .notFound pending absent (Bool.not_eq_true _ ▸ stays) response

theorem firstRound_cases {conn : MHD_Connection} {url : Str} {mtd : HttpMethod}
    {method version : Str} {user : σ} {s : Session σ Ctrl P Resp}
    (returned : firstRound pcre http conn url mtd method version user = some s) :
    Refuses s ∨ Connects s := by
  have outcome := firstRound_outcome returned
  dsimp only at outcome
  generalize checked : http.checkRequest _ version = first at outcome
  obtain ⟨initial, silent, opened⟩ : first.co.request.state = .INITIAL ∧
      (∀ event ∈ first.events, event.Silent) ∧
        (first.co.response = none → Opening (first.events ++ [.onConnection])) := by
    rw [← checked]
    rcases checkRequest_cases http _ version with same | ⟨sc, error, msg, same⟩
    · rw [same]
      exact ⟨rfl, nofun, fun _ => .plain⟩
    · rw [same]
      refine ⟨rfl, ?_, ?_⟩
      · exact silent_concat (by simp [Incoming.session]) (by trivial)
      · intro noResponse
        simp only [Session.error, respond_response, Incoming.session] at noResponse
        simp only [Session.error, respond_events, Incoming.session, noResponse, List.nil_append,
          List.singleton_append]
        exact .passed
  cases outcome with
  | refused response =>
    exact Or.inl ⟨initial, by simp [Event.isQueued], silent_concat silent (by trivial)⟩
  | answered pending found response =>
    refine Or.inl ⟨initial, by simp [Event.isQueued], silent_concat ?_ (by trivial)⟩
    exact silent_concat silent (by trivial)
  | connected pending found quiet =>
    exact Or.inr ⟨rfl, by simp [Session.onConnection, Session.route, found], quiet, opened pending⟩
  | redirected pending absent tsr sent =>
    exact Or.inl (.of_sendTSR (s := first.route _) initial silent sent)
  | notFound pending absent stays response =>
    refine Or.inl ⟨initial, by simp [Event.isQueued], silent_concat ?_ (by trivial)⟩
    exact silent_concat silent (by trivial)

/-- What the first call of a request leaves behind. -/
inductive FirstCall (pcre : Pcre) (http : HttpImplement σ Ctrl P Resp) (conn : MHD_Connection)
    (url method version : Str) (user : σ) : Connection σ Ctrl P Resp → Prop
  | badMethod {user' : σ} {msg : Str} {result : Option Resp} {resp : Resp}
      (unknown : parseHttpMethod method = none) :
      FirstCall pcre http conn url method version user ⟨none, user',
        [.errorHandler .k405MethodNotAllowed .BAD_HTTP_METHOD msg result, .queued resp]⟩
  | round {m : HttpMethod} {s : Session σ Ctrl P Resp} (known : parseHttpMethod method = some m)
      (returned : firstRound pcre http conn url m method version user = some s) :
      FirstCall pcre http conn url method version user s.toConnection

theorem firstCall_of_returned {conn : MHD_Connection} {url method version : Str}
    {data : Option Str} {user : σ} {left : ℕ} {c : Connection σ Ctrl P Resp}
    (returned : MHDconnectionCB pcre http conn url method version data { user := user } =
      some (left, c)) : FirstCall pcre http conn url method version user c := by
  unfold MHDconnectionCB at returned
  dsimp only at returned
  split at returned
  · rename_i unknown
    obtain ⟨resp, -, same⟩ := Option.map_eq_some_iff.mp returned
    obtain ⟨-, rfl⟩ := Prod.mk.inj same
    exact .badMethod unknown
  · rename_i known
    obtain ⟨s, round, same⟩ := Option.map_eq_some_iff.mp returned
    obtain ⟨-, rfl⟩ := Prod.mk.inj same
    exact .round known round

/-- The first call of an exchange. -/
theorem phase_first {i : Incoming} {user : σ} {left : ℕ} {c : Connection σ Ctrl P Resp}
    (returned : i.call pcre http none { user := user } = some (left, c)) :
    Phase i.body ⟨c, true, i.body⟩ := by
  cases firstCall_of_returned returned with
  | badMethod unknown =>
    refine .refused (fun co => nofun) (by simp [Event.isQueued]) ?_
    intro event member
    simp only [List.mem_cons, List.not_mem_nil, or_false] at member
    rcases member with rfl | rfl
    · exact trivial
    · exact trivial
  | @round m s known round =>
    rcases firstRound_cases round with ⟨initial, queued, silent⟩ | ⟨complete, routed, pending, opened⟩
    · refine .refused ?_ queued silent
      intro co object
      rw [← Option.some.inj object]
      exact initial
    · have start : s.co.request.state = uploadState ([] : List (Event P Resp)) := complete
      exact .later (s := s)
        (.uploading routed pending start opened (by simp) (by simp)
          (List.append_nil _).symm rfl)

end First

/-! ## The later calls -/

section Later

variable {body : Str} {code : UserCode σ Ctrl P Resp} {s s' : Session σ Ctrl P Resp} {left : ℕ}

@[simp] theorem delivered_append (first last : List (Event P Resp)) :
    delivered (first ++ last) = delivered first ++ delivered last := List.flatMap_append

theorem receive_state {calls : List (Event P Resp)}
    (state : s.co.request.state = uploadState calls) :
    s.receive.co.request.state = .DATA_RECEIVING := by
  unfold uploadState at state
  unfold Session.receive
  split at state
  · rw [if_pos state]
    rfl
  · rw [if_neg (by simp [state])]
    exact state

theorem uploadState_open (calls : List (Event P Resp)) : (uploadState calls).Open := by
  unfold uploadState
  split <;> simp [RequestState.Open]

/-- What is left of the body when all but the `left` last offered bytes are consumed. -/
theorem drop_consumed (chunk later : Str) (n : ℕ) :
    (chunk ++ later).drop (chunk.length - (chunk.length - n)) = chunk.drop n ++ later := by
  by_cases within : n ≤ chunk.length
  · rw [Nat.sub_sub_self within, List.drop_append_of_le_length within]
  · have beyond : chunk.length ≤ n := by omega
    rw [Nat.sub_eq_zero_of_le beyond, Nat.sub_zero, List.drop_left, List.drop_of_length_le beyond,
      List.nil_append]

/-- Body data during an upload. -/
theorem course_body {opening calls : List (Event P Resp)} (routed : s.co.ctrl.isSome)
    (pending : s.co.response = none) (state : s.co.request.state = uploadState calls)
    (opened : Opening opening) (accepted : ∀ event ∈ calls, event.Accepted)
    (events : s.events = opening ++ calls) {chunk later : Str} (nonempty : chunk ≠ [])
    (fits : chunk.length < UInt64.size) (parts : delivered calls ++ (chunk ++ later) = body)
    (call : Later code s (some chunk) left s') :
    Course body s' ((chunk ++ later).drop (chunk.length - left)) := by
  have isOpen := uploadState_open calls
  rw [← state] at isOpen
  cases call with
  | resend error | discard error => exact absurd error isOpen.2
  | dataInGet _ get =>
    refine .broken routed rfl ?_
    simp only [setState_events, Session.error, respond_events, events]
    exact .dataInGet opened accepted
  | noProcessor _ processor =>
    refine .broken routed rfl ?_
    simp only [setState_events, Session.error, respond_events, events]
    exact .noProcessor opened accepted
  | fail _ processor failed =>
    refine .broken (by simpa [Session.error] using routed) rfl ?_
    simp only [setState_events, Session.error, respond_events, onData_events, receive_events, events,
      failed, List.append_assoc (opening ++ calls)]
    exact .failed opened accepted
  | @consume pp _ _ processor done =>
    let call : Event P Resp := .onData pp (some chunk) (s.receive.onData code pp (some chunk)).1
    have slice : delivered [call] = chunk.take (s.receive.onData code pp (some chunk)).1.toNat := by
      simp only [delivered, List.flatMap_singleton, call, Event.slice, if_neg done]
    have events' : (s.receive.onData code pp (some chunk)).2.events = opening ++ (calls ++ [call]) := by
      rw [onData_events, receive_events, events, List.append_assoc]
    have state' : (s.receive.onData code pp (some chunk)).2.co.request.state =
        uploadState (calls ++ [call]) := by
      rw [onData_state, receive_state state, uploadState, if_neg (by simp)]
    refine .uploading (by simpa using routed) (by simpa using pending) state' opened ?_ (fun _ => ?_) events' ?_
    · intro event member
      rcases List.mem_append.mp member with member | member
      · exact accepted event member
      · rw [List.mem_singleton.mp member]
        exact done
    · rw [← parts]
      simp [nonempty]
    · rw [dataSizeLeft_ofNat fits done, drop_consumed, delivered_append, slice, List.append_assoc, ← List.append_assoc (chunk.take _),
        List.take_append_drop]
      exact parts

theorem Ready.complete {state : RequestState} {before : List (Event P Resp)}
    (ready : Ready body state before) : state.Complete := by
  cases ready with
  | empty => exact Or.inl rfl
  | upload => exact Or.inr rfl

/-- A call without data when the body is complete. -/
theorem course_handle {before : List (Event P Resp)} {n : ℕ} (routed : s.co.ctrl.isSome)
    (ready : Ready body s.co.request.state before)
    (events : s.events = before ++ List.replicate n .onRequest) (call : Later code s none left s') :
    Course body s' [] := by
  have asked : before ++ List.replicate n .onRequest ++ [.onRequest] =
      before ++ List.replicate (n + 1) (.onRequest : Event P Resp) := by
    rw [List.append_assoc, List.replicate_succ']
  have complete := ready.complete
  cases call with
  | resend error =>
    rw [error] at complete
    exact absurd complete (by simp [RequestState.Complete])
  | signal receiving =>
    rw [receiving] at complete
    exact absurd complete (by simp [RequestState.Complete])
  | handle _ _ silent =>
    refine .handling (n := n + 1) (by simpa [Session.onRequest] using routed) silent ready ?_ rfl
    rw [Session.onRequest, respond_events, events, asked]
  | @answer ctrl resp _ _ response =>
    have events' : (s.onRequest code ctrl).events ++ [.queued resp] =
        before ++ List.replicate (n + 1) .onRequest ++ [.queued resp] := by
      rw [Session.onRequest, respond_events, events, asked]
    exact .replied ready events' response

/-- A call without data during an upload. -/
theorem course_signal {opening calls : List (Event P Resp)} (routed : s.co.ctrl.isSome)
    (pending : s.co.response = none) (state : s.co.request.state = uploadState calls)
    (opened : Opening opening) (accepted : ∀ event ∈ calls, event.Accepted)
    (nonempty : calls ≠ [] → body ≠ []) (events : s.events = opening ++ calls)
    (whole : delivered calls = body)
    (call : Later code s none left s') : Course body s' [] := by
  by_cases none : calls = []
  · subst none
    have ready : Ready body s.co.request.state opening := by
      rw [state]
      exact .empty opened whole.symm
    exact course_handle (n := 0) routed ready (by simpa using events) call
  · have receiving : s.co.request.state = .DATA_RECEIVING := by
      rw [state, uploadState, if_neg (by simpa using none)]
    cases call with
    | resend error => exact absurd (receiving.symm.trans error) (by decide)
    | handle complete | answer complete =>
      rw [receiving] at complete
      exact absurd complete (by simp [RequestState.Complete])
    | @signal pp _ processor =>
      have events' : (s.onData code pp .none).2.events = opening ++ calls ++
          [.onData pp .none (s.onData code pp .none).1] ++ List.replicate 0 .onRequest := by
        rw [onData_events, events, List.replicate_zero, List.append_nil]
      exact .handling routed pending (.upload opened accepted (nonempty none) whole) events' rfl

/-- Every call behind the first one keeps the course. -/
theorem course_later {remaining : Str} {data : Option Str} (course : Course body s remaining)
    (waits : s.events.any Event.isQueued = false) (offers : Offers remaining data)
    (call : Later code s data left s') :
    Course body s' (remaining.drop ((data.getD []).length - left)) := by
  cases course with
  | uploading routed pending state opened accepted bodied events parts =>
    cases offers with
    | body nonempty fits =>
      exact course_body routed pending state opened accepted events nonempty fits parts call
    | last =>
      rw [List.append_nil] at parts
      rw [List.drop_nil]
      exact course_signal routed pending state opened accepted bodied events parts call
  | handling routed pending ready events whole =>
    cases offers with
    | body nonempty => exact absurd (List.append_eq_nil_iff.mp whole).1 nonempty
    | last =>
      rw [List.drop_nil]
      exact course_handle routed ready events call
  | replied ready events response =>
    rw [events] at waits
    exact absurd waits (by simp [Event.isQueued])
  | closed state response broken events =>
    rw [events] at waits
    exact absurd waits (by simp [Event.isQueued])
  | broken routed state events =>
    cases call with
    | discard => exact .broken routed state events
    | @resend _ resp _ response =>
      rw [response] at events
      exact .closed state response events rfl
    | signal receiving => exact absurd (state.symm.trans receiving) (by decide)
    | handle complete | answer complete =>
      rw [state] at complete
      exact absurd complete (by simp [RequestState.Complete])
    | dataInGet isOpen | noProcessor isOpen | fail isOpen | consume isOpen =>
      exact absurd state isOpen.2

end Later

/-! ## Exchanges -/

section Exchanges

variable {pcre : Pcre} {http : HttpImplement σ Ctrl P Resp} {i : Incoming}
  {e e' : Exchange σ Ctrl P Resp}

/-- A later call works on the session of its connection object. -/
theorem call_later {s : Session σ Ctrl P Resp} {data : Option Str} {left : ℕ}
    {c : Connection σ Ctrl P Resp} (routed : s.co.ctrl.isSome)
    (returned : i.call pcre http data s.toConnection = some (left, c)) :
    ∃ s', Later http.code s data left s' ∧ c = s'.toConnection := by
  obtain ⟨⟨left', s'⟩, round, same⟩ := Option.map_eq_some_iff.mp returned
  obtain ⟨rfl, rfl⟩ := Prod.mk.inj same
  exact ⟨s', laterRound_cases (fun _ => routed) round, rfl⟩

theorem Course.routed {body : Str} {s : Session σ Ctrl P Resp} {remaining : Str}
    (course : Course body s remaining) (waits : s.events.any Event.isQueued = false) :
    s.co.ctrl.isSome := by
  cases course with
  | uploading routed | handling routed | broken routed => exact routed
  | replied ready events response =>
    rw [events] at waits
    exact absurd waits (by simp [Event.isQueued])
  | closed state response broken events =>
    rw [events] at waits
    exact absurd waits (by simp [Event.isQueued])

/-- What a call of MHD does to an exchange in one of the phases. -/
inductive Progress (pcre : Pcre) (http : HttpImplement σ Ctrl P Resp) (i : Incoming) :
    Exchange σ Ctrl P Resp → Exchange σ Ctrl P Resp → Prop
  | first {user : σ} {left : ℕ} {c : Connection σ Ctrl P Resp}
      (returned : i.call pcre http none { user := user } = some (left, c)) :
      Progress pcre http i { user := user, remaining := i.body } ⟨c, true, i.body⟩
  | later {s s' : Session σ Ctrl P Resp} {remaining : Str} {data : Option Str} {left : ℕ}
      (course : Course i.body s remaining) (waits : s.events.any Event.isQueued = false)
      (offers : Offers remaining data) (call : Later http.code s data left s') :
      Progress pcre http i ⟨s.toConnection, true, remaining⟩
        ⟨s'.toConnection, true, remaining.drop ((data.getD []).length - left)⟩

theorem Phase.progress (phase : Phase i.body e) (step : MHDStep pcre http i e e') :
    Progress pcre http i e e' := by
  cases phase with
  | fresh =>
    cases step with
    | first _ returned => exact .first returned
    | later started => exact absurd started (by simp)
  | refused initial queued silent =>
    cases step with
    | first fresh => exact absurd fresh (by simp)
    | later _ waits => exact absurd (queued.symm.trans waits) (by simp)
  | @later s remaining course =>
    cases step with
    | first fresh => exact absurd fresh (by simp)
    | later _ waits offers returned =>
      obtain ⟨s', call, rfl⟩ := call_later (course.routed waits) returned
      exact .later course waits offers call

/-- Every call of MHD leads from a phase to a phase. -/
theorem phase_step (phase : Phase i.body e) (step : MHDStep pcre http i e e') : Phase i.body e' := by
  cases phase.progress step with
  | first returned => exact phase_first returned
  | later course waits offers call => exact .later (course_later course waits offers call)

theorem phase_of_reachable (reachable : (exchanges pcre http i).Reachable e) : Phase i.body e := by
  have stable : (exchanges pcre http i).Stable (Phase i.body) :=
    fun _ _ _ phase step => phase_step phase step
  apply stable.reachable _ reachable
  rintro _ ⟨user, rfl⟩
  exact .fresh

end Exchanges

end Cppmhd
