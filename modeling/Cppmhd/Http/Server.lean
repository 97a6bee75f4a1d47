import Cppmhd.Http.Accounting
import Cppmhd.Http.Handler
import Cppmhd.Http.Invariant
import Cppmhd.Runs.Interleaved

/-!
# The server

Any number of connections bring their requests to the callback, one call at a time and in any order,
and share the state of user code.  MHD may end a request at any time behind its first call.  What a
request can rely on does not depend on the other ones (`server_requests`), nor does the number of calls
until it is answered (`server_answers`).
-/

open Runs

namespace Cppmhd

variable {σ Ctrl P Resp : Type}

/-! ## Connections -/

/-- Source `MHD_URI_LOGGER`: what the first call of a request finds in `*con_cls`. -/
def MHD_URI_LOGGER {C : Type} : Option C := none

/-- What the callback and MHD keep of the request on a connection. -/
structure Slot (C P Resp : Type) where
  request : Incoming
  con_cls : Option C := MHD_URI_LOGGER
  events : List (Event P Resp) := []
  started : Bool := false
  remaining : Str := request.body
  calls : ℕ := 0

/-- A server with what the end of a processor does to the state of user code. -/
structure Application (σ Ctrl P Resp : Type) extends HttpImplement σ Ctrl P Resp where
  /-- Source `~DataProcessor`. -/
  destroy : P → σ → σ

/-- Source `connectionFinishCB`: with the connection object goes the processor of its request. -/
def connectionFinishCB (app : Application σ Ctrl P Resp)
    (con_cls : Option (ConnectionObject Ctrl P Resp)) (user : σ) : σ :=
  match con_cls with
  | none => user
  | some co =>
    match co.request.processor with
    | none => user
    | some pp => app.destroy pp user

/-- The request as an exchange, in this state of user code. -/
def Slot.exchange (slot : Slot (ConnectionObject Ctrl P Resp) P Resp) (user : σ) :
    Exchange σ Ctrl P Resp :=
  ⟨⟨slot.con_cls, user, slot.events⟩, slot.started, slot.remaining⟩

/-- The request behind a call. -/
def Slot.after (slot : Slot (ConnectionObject Ctrl P Resp) P Resp) (e : Exchange σ Ctrl P Resp) :
    Slot (ConnectionObject Ctrl P Resp) P Resp :=
  { slot with con_cls := e.con_cls, events := e.events, started := e.started,
              remaining := e.remaining, calls := slot.calls + 1 }

section Steps

variable (pcre : Pcre) (app : Application σ Ctrl P Resp)

/-- What can happen on a connection. -/
inductive ConnectionStep : σ → Option (Slot (ConnectionObject Ctrl P Resp) P Resp) → σ →
    Option (Slot (ConnectionObject Ctrl P Resp) P Resp) → Prop
  | receive {user : σ} (i : Incoming) : ConnectionStep user none user (some { request := i })
  | call {user : σ} {slot : Slot (ConnectionObject Ctrl P Resp) P Resp} {e : Exchange σ Ctrl P Resp}
      (step : MHDStep pcre app.toHttpImplement slot.request (slot.exchange user) e) :
      ConnectionStep user (some slot) e.user (some (slot.after e))
  | finish {user : σ} {slot : Slot (ConnectionObject Ctrl P Resp) P Resp}
      (started : slot.started = true) :
      ConnectionStep user (some slot) (connectionFinishCB app slot.con_cls user) none
  /-- MHD does not tell of a request that it never called for. -/
  | lost {user : σ} {slot : Slot (ConnectionObject Ctrl P Resp) P Resp}
      (fresh : slot.started = false) : ConnectionStep user (some slot) user none

/-- A connection, which is idle or has a request. -/
def connection : Component σ (Option (Slot (ConnectionObject Ctrl P Resp) P Resp)) where
  init own := own = none
  step := ConnectionStep pcre app

/-- The server with these connections. -/
def server (ι : Type) [DecidableEq ι] (init : σ → Prop) :
    System (Joint ι σ (Option (Slot (ConnectionObject Ctrl P Resp) P Resp))) :=
  interleaved ι init (connection pcre app)

/-! ### The same steps as a function -/

/-- What happens next, and on which connection. -/
inductive Move (ι : Type) where
  | receive (c : ι) (i : Incoming)
  | call (c : ι) (data : Option Str)
  | finish (c : ι)

/-- The server behind some moves, if these are possible and the calls return. -/
def serve {ι : Type} [DecidableEq ι] :
    List (Move ι) → Joint ι σ (Option (Slot (ConnectionObject Ctrl P Resp) P Resp)) →
      Option (Joint ι σ (Option (Slot (ConnectionObject Ctrl P Resp) P Resp)))
  | [], s => some s
  | .receive c i :: later, s =>
    match s.own c with
    | none => serve later ⟨s.shared, Function.update s.own c (some { request := i })⟩
    | some _ => none
  | .call c data :: later, s =>
    match s.own c with
    | none => none
    | some slot =>
      let e := slot.exchange s.shared
      if e.admits data then
        (slot.request.call pcre app.toHttpImplement data e.toConnection).bind fun r =>
          serve later ⟨r.2.user, Function.update s.own c
            (some (slot.after ⟨r.2, true, e.remaining.drop ((data.getD []).length - r.1)⟩))⟩
      else none
  | .finish c :: later, s =>
    match s.own c with
    | none => none
    | some slot =>
      if slot.started then
        serve later ⟨connectionFinishCB app slot.con_cls s.shared, Function.update s.own c none⟩
      else none

variable {pcre app}

theorem reachable_of_serve {ι : Type} [DecidableEq ι] {init : σ → Prop} {moves : List (Move ι)}
    {s s' : Joint ι σ (Option (Slot (ConnectionObject Ctrl P Resp) P Resp))}
    (reachable : (server pcre app ι init).Reachable s) (run : serve pcre app moves s = some s') :
    (server pcre app ι init).Reachable s' := by
  induction moves generalizing s with
  | nil =>
    obtain rfl := Option.some.inj run
    exact reachable
  | cons move later ih =>
    cases move with
    | receive c i =>
      unfold serve at run
      split at run
      · rename_i idle
        exact ih (reachable.step ⟨c, _, idle ▸ .receive i, rfl⟩) run
      · cases run
    | call c data =>
      unfold serve at run
      split at run
      · cases run
      · rename_i slot busy
        dsimp only at run
        split at run
        · rename_i admits
          obtain ⟨⟨left, c'⟩, returned, run⟩ := Option.bind_eq_some_iff.mp run
          exact ih (reachable.step ⟨c, _, busy ▸ .call (.of_admits admits returned), rfl⟩) run
        · cases run
    | finish c =>
      unfold serve at run
      split at run
      · cases run
      · rename_i slot busy
        split at run
        · rename_i started
          exact ih (reachable.step ⟨c, _, busy ▸ .finish started, rfl⟩) run
        · cases run

theorem serve_run {ι α : Type} [DecidableEq ι] {init : σ → Prop} (moves : List (Move ι))
    (user : σ) {c : ι} {view : Slot (ConnectionObject Ctrl P Resp) P Resp → α} {seen : α} (start : init user)
    (run : (serve pcre app moves ⟨user, fun _ => none⟩).bind (fun s => (s.own c).map view) =
      some seen) :
    ∃ s, (server pcre app ι init).Reachable s ∧ ∃ slot, s.own c = some slot ∧ view slot = seen := by
  obtain ⟨s, run, here⟩ := Option.bind_eq_some_iff.mp run
  obtain ⟨slot, busy, same⟩ := Option.map_eq_some_iff.mp here
  have first : (server pcre app ι init).Reachable ⟨user, fun _ => none⟩ :=
    .of_init ⟨start, fun _ => rfl⟩
  exact ⟨s, reachable_of_serve first run, slot, busy, same⟩

end Steps

/-! ## Phases do not depend on the state of user code -/

theorem Course.of_user {body remaining : Str} {s : Session σ Ctrl P Resp}
    (course : Course body s remaining) (user : σ) : Course body { s with user := user } remaining := by
  cases course with
  | uploading routed pending state opened accepted nonempty events parts =>
    exact .uploading routed pending state opened accepted nonempty events parts
  | handling routed pending ready events whole => exact .handling routed pending ready events whole
  | replied ready events response => exact .replied ready events response
  | broken routed state events => exact .broken routed state events
  | closed state response broken events => exact .closed state response broken events

theorem Phase.of_user {body : Str} {e : Exchange σ Ctrl P Resp} (phase : Phase body e) (user : σ) :
    Phase body ⟨⟨e.con_cls, user, e.events⟩, e.started, e.remaining⟩ := by
  cases phase with
  | fresh => exact .fresh
  | refused initial queued silent => exact .refused initial queued silent
  | later course => exact .later (course.of_user user)

/-! ## One call more -/

theorem MHDStep.started {pcre : Pcre} {http : HttpImplement σ Ctrl P Resp} {i : Incoming}
    {e e' : Exchange σ Ctrl P Resp} (step : MHDStep pcre http i e e') : e'.started = true := by
  cases step with
  | first | later => rfl

/-- How many responses are queued. -/
def answers (events : List (Event P Resp)) : ℕ := events.countP Event.isQueued

theorem answers_append (first last : List (Event P Resp)) :
    answers (first ++ last) = answers first + answers last := List.countP_append

theorem answers_eq_zero {events : List (Event P Resp)}
    (waits : events.any Event.isQueued = false) : answers events = 0 := by
  rw [answers, List.countP_eq_zero]
  intro event member queued
  rw [List.any_eq_false] at waits
  exact waits event member queued

/-- A call of the later rounds queues at most one response. -/
theorem Later.answers_le {code : UserCode σ Ctrl P Resp} {s s' : Session σ Ctrl P Resp}
    {data : Option Str} {left : ℕ} (call : Later code s data left s') :
    answers s'.events ≤ answers s.events + 1 := by
  cases call with
  | resend | discard | signal | handle | answer | dataInGet | noProcessor | fail | consume =>
    simp [answers, Session.error, Session.onRequest, Event.isQueued]

theorem sendTSR_answers {code : UserCode σ Ctrl P Resp} {s s' : Session σ Ctrl P Resp}
    (sent : sendTSR code s = some s') : answers s'.events = answers s.events + 1 := by
  unfold sendTSR at sent
  dsimp only at sent
  split at sent
  · cases sent
  · obtain ⟨resp, -, rfl⟩ := send_eq_some sent
    simp [answers, Session.error, Event.isQueued]

/-- The first call queues at most one response. -/
theorem first_answers {pcre : Pcre} {http : HttpImplement σ Ctrl P Resp} {i : Incoming} {user : σ}
    {left : ℕ} {c : Connection σ Ctrl P Resp}
    (returned : i.call pcre http none { user := user } = some (left, c)) : answers c.events ≤ 1 := by
  cases firstCall_of_returned returned with
  | badMethod => exact Nat.le_refl 1
  | round known round =>
    have outcome := firstRound_outcome round
    dsimp only at outcome
    generalize checked : http.checkRequest _ i.version = first at outcome
    have none : answers first.events = 0 := by
      rw [← checked]
      rcases checkRequest_cases http _ i.version with same | ⟨sc, error, msg, same⟩
      · rw [same]
        rfl
      · rw [same]
        rfl
    cases outcome with
    | refused | answered | connected | notFound =>
      simp only [Session.toConnection, setState_events, Session.onConnection, Session.error,
        respond_events, answers_append, Session.route, none]
      simp [answers, Event.isQueued]
    | redirected pending absent tsr sent =>
      rw [Session.toConnection, sendTSR_answers sent]
      simp [Session.route, none]

/-! ## What a request can rely on -/

section Requests

variable {pcre : Pcre} {app : Application σ Ctrl P Resp}
  {slot : Slot (ConnectionObject Ctrl P Resp) P Resp}

/-- What the calls for a request keep, whatever happens to the state of user code between them. -/
structure InPhase (σ : Type) (slot : Slot (ConnectionObject Ctrl P Resp) P Resp) : Prop where
  phase : ∀ user : σ, Phase slot.request.body (slot.exchange user)
  account : ∀ user : σ, Accounted slot.request.body (slot.exchange user)
  single : answers slot.events ≤ 1

theorem InPhase.received (i : Incoming) :
    InPhase σ ({ request := i } : Slot (ConnectionObject Ctrl P Resp) P Resp) := by
  refine ⟨fun user => .fresh, fun user => ⟨fun before _ _ _ _ split => ?_, fun _ _ _ member => ?_,
    List.nil_prefix, fun _ => rfl⟩, Nat.zero_le 1⟩
  · exact absurd (congrArg List.length split) (by simp [Slot.exchange])
  · exact absurd member List.not_mem_nil

theorem InPhase.call (inPhase : InPhase σ slot) {user : σ} {e : Exchange σ Ctrl P Resp}
    (step : MHDStep pcre app.toHttpImplement slot.request (slot.exchange user) e) :
    InPhase σ (slot.after e) := by
  have phase := phase_step (inPhase.phase user) step
  have progress := (inPhase.phase user).progress step
  have account := inPhase.account user
  generalize slot.exchange user = e₀ at progress account
  refine ⟨fun user' => phase.of_user user', fun user' => ?_, ?_⟩
  · have here : Accounted slot.request.body e := by
      cases progress with
      | first returned => exact accounted_first returned
      | later course waits offers call => exact accounted_turn offers call.turn account
    exact ⟨here.offered, here.sized, here.taken, here.rest⟩
  · show answers e.events ≤ 1
    cases progress with
    | first returned => exact first_answers returned
    | later course waits offers call =>
      have more := call.answers_le
      rw [answers_eq_zero waits] at more
      exact more

theorem inPhase_of_reachable {ι : Type} [DecidableEq ι] {init : σ → Prop}
    {s : Joint ι σ (Option (Slot (ConnectionObject Ctrl P Resp) P Resp))}
    (reachable : (server pcre app ι init).Reachable s) {c : ι} (open_ : s.own c = some slot) :
    InPhase σ slot := by
  have kept : ∀ c, ∀ slot, s.own c = some slot → InPhase σ slot := by
    refine own_invariant (I := fun own => ∀ slot, own = some slot → InPhase σ slot) ?_ ?_ reachable
    · intro own fresh slot here
      exact absurd (fresh.symm.trans here) (by simp)
    · intro user own user' own' inPhase step slot' here
      cases step with
      | receive i => exact Option.some.inj here ▸ .received i
      | call step => exact Option.some.inj here ▸ (inPhase _ rfl).call step
      | finish | lost => cases here
  exact kept c slot open_

/-- What a request can rely on. -/
structure Proceeds (slot : Slot (ConnectionObject Ctrl P Resp) P Resp) : Prop where
  /-- At most one response is queued for it. -/
  answered : answers slot.events ≤ 1
  /-- The processors consumed a beginning of its own body, and what a processor is offered follows
  what was consumed before. -/
  taken : delivered slot.events <+: slot.request.body
  offered : ∀ before pp bytes result after,
    slot.events = before ++ .onData pp (some bytes) result :: after →
      delivered before ++ bytes <+: slot.request.body
  /-- No processor is called before `onConnection`. -/
  chosen : ∀ before pp data result after,
    slot.events = before ++ .onData pp data result :: after → .onConnection ∈ before
  /-- When the handler is asked first, the body was consumed in whole, the last call of a processor
  told its end, and no processor is called later. -/
  handled : ∀ before after, slot.events = before ++ .onRequest :: after → .onRequest ∉ before →
    delivered before = slot.request.body ∧
      (slot.request.body ≠ [] → ∃ first pp result, before = first ++ [.onData pp none result] ∧
        ∀ pp result, .onData pp none result ∉ first) ∧
      ∀ pp data result, .onData pp data result ∉ after
  /-- The handler is not asked for a body that a processor rejected. -/
  failed : ∀ pp bytes, .onData pp (some bytes) DataProcessorParseFailed ∈ slot.events →
    .onRequest ∉ slot.events

theorem Ready.whole {body : Str} {state : RequestState} {before : List (Event P Resp)}
    (ready : Ready body state before) : delivered before = body ∧
      (body ≠ [] → ∃ first pp result, before = first ++ [.onData pp none result] ∧
        ∀ pp result, .onData pp none result ∉ first) := by
  cases ready with
  | empty opened empty =>
    refine ⟨?_, fun nonempty => absurd empty nonempty⟩
    rw [empty, delivered_of_no_offer (no_offer_of_silent opened.silent)]
  | @upload opening calls pp result opened accepted nonempty whole =>
    constructor
    · rw [delivered_append, delivered_append,
        delivered_of_no_offer (no_offer_of_silent opened.silent), whole]
      exact List.append_nil body
    · intro _
      refine ⟨_, pp, result, rfl, fun pp result member => ?_⟩
      rcases List.mem_append.mp member with member | member
      · exact opened.not_onData pp none result member
      · exact accepted _ member

theorem Opening.mem_of_onData {opening rest before after : List (Event P Resp)} {pp : P}
    {data : Option Str} {result : SizeT} (opened : Opening opening)
    (split : opening ++ rest = before ++ .onData pp data result :: after) : .onConnection ∈ before := by
  have member : .onConnection ∈ opening := by
    cases opened with
    | plain | passed => simp
  rcases List.append_eq_append_iff.mp split with ⟨more, rfl, -⟩ | ⟨more, rfl, same⟩
  · exact List.mem_append_left more member
  · cases more with
    | nil => simpa using member
    | cons event more =>
      obtain ⟨rfl, -⟩ := List.cons.inj same
      exact absurd (List.mem_append_right _ List.mem_cons_self) (opened.not_onData pp data result)

theorem Ready.opens {body : Str} {state : RequestState} {before : List (Event P Resp)}
    (ready : Ready body state before) : ∃ opening rest, Opening opening ∧ before = opening ++ rest := by
  cases ready with
  | empty opened => exact ⟨_, [], opened, (List.append_nil _).symm⟩
  | upload opened => exact ⟨_, _, opened, List.append_assoc _ _ _⟩

theorem Broken.opens {resp : Option Resp} {before : List (Event P Resp)} (broken : Broken resp before) :
    ∃ opening rest, Opening opening ∧ before = opening ++ rest := by
  cases broken with
  | dataInGet opened | noProcessor opened | failed opened =>
    exact ⟨_, _, opened, List.append_assoc _ _ _⟩

/-- The events behind a first call that found a controller begin with those of that call. -/
theorem Course.opens {body remaining : Str} {s : Session σ Ctrl P Resp}
    (course : Course body s remaining) :
    ∃ opening rest, Opening opening ∧ s.events = opening ++ rest := by
  cases course with
  | uploading _ _ _ opened _ _ events => exact ⟨_, _, opened, events⟩
  | handling _ _ ready events =>
    obtain ⟨opening, rest, opened, rfl⟩ := ready.opens
    exact ⟨opening, _, opened, events.trans (List.append_assoc _ _ _)⟩
  | replied ready events =>
    obtain ⟨opening, rest, opened, rfl⟩ := ready.opens
    rw [List.append_assoc, List.append_assoc] at events
    exact ⟨opening, _, opened, events⟩
  | broken _ _ broken => exact broken.opens
  | closed _ _ broken events =>
    obtain ⟨opening, rest, opened, rfl⟩ := broken.opens
    exact ⟨opening, _, opened, events.trans (List.append_assoc _ _ _)⟩

theorem InPhase.proceeds (inPhase : InPhase σ slot) (user : σ) : Proceeds slot := by
  have account := inPhase.account user
  have phase := inPhase.phase user
  refine ⟨inPhase.single, account.taken, account.offered, ?_, ?_, ?_⟩
  · intro before pp data result after split
    have split : (slot.exchange user).events = before ++ .onData pp data result :: after := split
    generalize slot.exchange user = e at phase split
    have member : .onData pp data result ∈ e.events := by
      rw [split]
      exact List.mem_append_right _ List.mem_cons_self
    cases phase with
    | fresh => exact absurd member List.not_mem_nil
    | refused initial queued silent => exact absurd (silent _ member) id
    | later course =>
      obtain ⟨opening, rest, opened, events⟩ := course.opens
      exact opened.mem_of_onData (events.symm.trans split)
  · intro before after split first
    have split : (slot.exchange user).events = before ++ .onRequest :: after := split
    generalize slot.exchange user = e at phase split
    have member : .onRequest ∈ e.events := by
      rw [split]
      exact List.mem_append_right _ List.mem_cons_self
    cases phase with
    | fresh => exact absurd member List.not_mem_nil
    | refused initial queued silent => exact absurd (silent _ member) id
    | later course =>
      obtain ⟨⟨state, ready⟩, after⟩ := course.ready_of_onRequest split first
      exact ⟨ready.whole.1, ready.whole.2, after⟩
  · intro pp bytes failed
    have failed : .onData pp (some bytes) DataProcessorParseFailed ∈ (slot.exchange user).events :=
      failed
    show .onRequest ∉ (slot.exchange user).events
    generalize slot.exchange user = e at phase failed
    cases phase with
    | fresh => exact List.not_mem_nil
    | refused initial queued silent => exact absurd (silent _ failed) id
    | @later s _ course =>
      show .onRequest ∉ s.events
      rcases course.broken_of_failed failed with broken | ⟨before, resp, broken, whole⟩
      · exact broken.not_onRequest
      · rw [whole]
        simp [broken.not_onRequest]

/-- Every request of a server proceeds like this, in whatever order the connections take turns and
MHD ends their requests. -/
theorem server_requests {ι : Type} [DecidableEq ι] {init : σ → Prop}
    {s : Joint ι σ (Option (Slot (ConnectionObject Ctrl P Resp) P Resp))}
    (reachable : (server pcre app ι init).Reachable s) {c : ι} (open_ : s.own c = some slot) :
    Proceeds slot :=
  (inPhase_of_reachable reachable open_).proceeds s.shared

/-- The application of `uploadServer` on a server. -/
def uploadApplication : Application Unit ℕ ℕ ℕ :=
  { uploadServer fun _ => 1 with destroy := fun _ _ => () }

/-- Two connections that take turns, and one of them a third time. -/
def turns : List (Move Bool) :=
  [.receive true (uploadOf ['x', 'y']), .receive false (uploadOf ['z']), .call true none,
    .call false none, .call true (some ['x', 'y']), .call false (some ['z']), .finish false,
    .call true (some ['y']), .receive false (uploadOf []), .call true none, .call false none,
    .call true none, .call false none]

theorem server_requests_turns :
    ∃ slot : Slot (ConnectionObject ℕ ℕ ℕ) ℕ ℕ, Proceeds slot ∧ slot.events =
      [.onConnection, .onData 7 (some ['x', 'y']) 1, .onData 7 (some ['y']) 1, .onData 7 none 1,
        .onRequest, .queued 200] := by
  obtain ⟨s, reachable, slot, busy, events⟩ :
      ∃ s, (server anyPcre uploadApplication Bool fun _ => True).Reachable s ∧
        ∃ slot, s.own true = some slot ∧ slot.events =
          [.onConnection, .onData 7 (some ['x', 'y']) 1, .onData 7 (some ['y']) 1,
            .onData 7 none 1, .onRequest, .queued 200] :=
    serve_run turns () trivial (by decide +kernel)
  exact ⟨slot, server_requests reachable busy, events⟩

end Requests

/-! ## When a request is answered -/

/-- A processor takes a part of what it is offered, or fails. -/
def UserCode.Consumes (code : UserCode σ Ctrl P Resp) : Prop :=
  ∀ pp req bytes user, bytes ≠ [] → (code.onData pp req (some bytes) user).value ≠ 0

/-- How many calls without data can be left. -/
def RequestState.togo : RequestState → ℕ
  | .INITIAL => 0
  | .INITIAL_COMPLETE | .DATA_RECEIVING => 2
  | .DATA_RECEIVED | .RS_ERROR => 1

/-- How many calls can be left. -/
def Exchange.togo (e : Exchange σ Ctrl P Resp) : ℕ :=
  if e.answered then 0
  else match e.con_cls with
    | none => e.remaining.length + 3
    | some co => e.remaining.length + co.request.state.togo

section Togo

variable {code : UserCode σ Ctrl P Resp} {s s' : Session σ Ctrl P Resp} {body remaining : Str}
  {data : Option Str} {left : ℕ}

theorem togo_le (s : Session σ Ctrl P Resp) (remaining : Str) :
    (⟨s.toConnection, true, remaining⟩ : Exchange σ Ctrl P Resp).togo ≤
      remaining.length + s.co.request.state.togo := by
  unfold Exchange.togo
  split
  · exact Nat.zero_le _
  · exact Nat.le_refl _

theorem togo_of_waits (waits : s.events.any Event.isQueued = false) :
    (⟨s.toConnection, true, remaining⟩ : Exchange σ Ctrl P Resp).togo =
      remaining.length + s.co.request.state.togo := by
  unfold Exchange.togo Exchange.answered Session.toConnection
  rw [if_neg (by simp [waits])]

theorem togo_of_answered {e : Exchange σ Ctrl P Resp} (answered : e.answered = true) : e.togo = 0 :=
  if_pos answered

theorem started_togo {state : RequestState} (started : state ≠ .INITIAL) : 0 < state.togo := by
  cases state with
  | INITIAL => exact absurd rfl started
  | INITIAL_COMPLETE | DATA_RECEIVING | DATA_RECEIVED | RS_ERROR => decide

/-- While body data is offered, the end of the body is still to be told. -/
theorem Course.togo_of_body (course : Course body s remaining) (nonempty : remaining ≠ [])
    (waits : s.events.any Event.isQueued = false) (isOpen : s.co.request.state.Open) :
    s.co.request.state.togo = 2 := by
  cases course with
  | uploading routed pending state =>
    rw [state, uploadState]
    split <;> rfl
  | handling _ _ _ _ whole => exact absurd whole nonempty
  | replied _ events | closed _ _ _ events =>
    rw [events] at waits
    exact absurd waits (by simp [Event.isQueued])
  | broken _ error => exact absurd error isOpen.2

/-- A later call leaves fewer calls to be made. -/
theorem Later.togo_lt (responds : code.Responds) (consumes : code.Consumes)
    (course : Course body s remaining) (waits : s.events.any Event.isQueued = false)
    (offers : Offers remaining data) (call : Later code s data left s') :
    (⟨s'.toConnection, true, remaining.drop ((data.getD []).length - left)⟩ :
      Exchange σ Ctrl P Resp).togo < (⟨s.toConnection, true, remaining⟩ : Exchange σ Ctrl P Resp).togo := by
  rw [togo_of_waits waits]
  have positive := started_togo course.started
  -- a body that is given up: nothing of the offer is left
  have given_up : ∀ {bytes : Str} {s' : Session σ Ctrl P Resp}, data = some bytes →
      s'.co.request.state = .RS_ERROR →
        (⟨s'.toConnection, true, remaining.drop ((data.getD []).length - 0)⟩ :
          Exchange σ Ctrl P Resp).togo < remaining.length + s.co.request.state.togo := by
    intro bytes s' here error
    refine (togo_le s' _).trans_lt ?_
    subst here
    cases offers with
    | body nonempty =>
      have size := List.length_pos_of_ne_nil nonempty
      have one : s'.co.request.state.togo = 1 := by rw [error]; rfl
      rw [one, Option.getD_some, Nat.sub_zero, List.drop_left, List.length_append]
      omega
  have queued : ∀ {s' : Session σ Ctrl P Resp} {rest : Str}, s'.events.any Event.isQueued = true →
      (⟨s'.toConnection, true, rest⟩ : Exchange σ Ctrl P Resp).togo <
        remaining.length + s.co.request.state.togo := by
    intro s' rest queued
    have zero : (⟨s'.toConnection, true, rest⟩ : Exchange σ Ctrl P Resp).togo = 0 :=
      togo_of_answered queued
    omega
  cases call with
  | resend error => exact queued (by simp [Event.isQueued])
  | discard error => exact given_up rfl error
  | signal receiving =>
    refine (togo_le _ _).trans_lt ?_
    rw [setState_state, receiving, List.length_drop]
    simp only [RequestState.togo]
    omega
  | handle complete routed silent =>
    rw [Session.onRequest, respond_response, course.pending waits complete] at silent
    exact absurd silent (Option.isSome_iff_ne_none.mp (responds _ _ _))
  | answer complete => exact queued (by simp [Event.isQueued])
  | dataInGet isOpen | noProcessor isOpen | fail isOpen =>
    exact given_up rfl rfl
  | @consume pp bytes isOpen processor done =>
    cases offers with
    | @body _ later nonempty fits =>
      refine (togo_le _ _).trans_lt ?_
      have two := course.togo_of_body (by simp [nonempty]) waits isOpen
      have size := List.length_pos_of_ne_nil nonempty
      have taken : (s.receive.onData code pp (some bytes)).1.toNat ≠ 0 := by
        intro zero
        refine consumes pp s.receive.co.request.toHttpRequest bytes s.receive.user nonempty ?_
        exact UInt64.toNat_inj.mp zero
      have state : (s.receive.onData code pp (some bytes)).2.co.request.state.togo ≤ 2 := by
        cases (s.receive.onData code pp (some bytes)).2.co.request.state <;> decide
      rw [Option.getD_some, dataSizeLeft_ofNat fits done, drop_consumed, List.length_append,
        List.length_append, List.length_drop, two]
      omega

end Togo

section Answers

variable {pcre : Pcre} {app : Application σ Ctrl P Resp}
  {slot : Slot (ConnectionObject Ctrl P Resp) P Resp}

/-- The first call leaves fewer calls to be made. -/
theorem first_togo {http : HttpImplement σ Ctrl P Resp} {i : Incoming} {user : σ} {left : ℕ}
    {c : Connection σ Ctrl P Resp}
    (returned : i.call pcre http none { user := user } = some (left, c)) :
    (⟨c, true, i.body⟩ : Exchange σ Ctrl P Resp).togo ≤ i.body.length + 2 := by
  cases firstCall_of_returned returned with
  | badMethod =>
    rw [togo_of_answered (by simp [Exchange.answered, Event.isQueued])]
    exact Nat.zero_le _
  | @round m s known round =>
    refine (togo_le s i.body).trans ?_
    have two : s.co.request.state.togo ≤ 2 := by cases s.co.request.state <;> decide
    omega

/-- What the calls for a request keep, if user code does its part. -/
structure Served (σ : Type) (slot : Slot (ConnectionObject Ctrl P Resp) P Resp) : Prop where
  inPhase : InPhase σ slot
  sound : ∀ user : σ, (slot.exchange user).Sound
  bounded : ∀ user : σ, slot.calls + (slot.exchange user).togo ≤ slot.request.body.length + 3

theorem Served.received (i : Incoming) :
    Served σ ({ request := i } : Slot (ConnectionObject Ctrl P Resp) P Resp) := by
  refine ⟨.received i, fun user co object => ?_, fun user => ?_⟩
  · cases object
  · show 0 + (i.body.length + 3) ≤ i.body.length + 3
    omega

theorem Served.call (alwaysAnswers : app.code.AlwaysAnswers) (keeps : app.code.KeepsProcessor)
    (responds : app.code.Responds) (consumes : app.code.Consumes) (served : Served σ slot) {user : σ}
    {e : Exchange σ Ctrl P Resp}
    (step : MHDStep pcre app.toHttpImplement slot.request (slot.exchange user) e) :
    Served σ (slot.after e) := by
  have progress := (served.inPhase.phase user).progress step
  have sound := served.sound user
  have bounded := served.bounded user
  refine ⟨served.inPhase.call step, fun _ co object => ?_, fun _ => ?_⟩
  · have object : e.con_cls = some co := object
    generalize slot.exchange user = e₀ at progress sound
    cases progress with
    | first returned =>
      rcases first_state returned object with state | state
      · exact ⟨fun h => absurd (state.symm.trans h) (by decide),
          fun h => absurd (state.symm.trans h) (by decide)⟩
      · exact RequestState.Complete.sound (Or.inl state)
    | later course waits offers call =>
      rw [← Option.some.inj object]
      exact call.sound alwaysAnswers keeps (sound _ rfl)
  · show slot.calls + 1 + e.togo ≤ slot.request.body.length + 3
    generalize slot.exchange user = e₀ at progress bounded
    cases progress with
    | first returned =>
      have less := first_togo returned
      have before : slot.calls + (slot.request.body.length + 3) ≤ slot.request.body.length + 3 :=
        bounded
      omega
    | later course waits offers call =>
      have less := call.togo_lt responds consumes course waits offers
      omega

/-- Until a request is answered MHD has a call to make. -/
theorem admits_of_waits {e : Exchange σ Ctrl P Resp} (waits : e.answered = false) :
    ∃ data, e.admits data = true := by
  by_cases started : e.started = true
  · cases rest : e.remaining with
    | nil => exact ⟨none, by simp [Exchange.admits, started, waits, rest]⟩
    | cons x later =>
      have fits : 1 < UInt64.size := by decide
      exact ⟨some [x], by simp [Exchange.admits, started, waits, rest, fits]⟩
  · exact ⟨none, by simp [Exchange.admits, started]⟩

/-- Every call that MHD may make returns. -/
theorem Served.returns (alwaysAnswers : app.code.AlwaysAnswers) (served : Served σ slot) {user : σ}
    {data : Option Str} (admits : (slot.exchange user).admits data = true) :
    (slot.request.call pcre app.toHttpImplement data (slot.exchange user).toConnection).isSome := by
  have phase := served.inPhase.phase user
  have sound := served.sound user
  generalize slot.exchange user = e at phase sound admits
  cases phase with
  | fresh =>
    cases data with
    | none => exact call_none_isSome alwaysAnswers _
    | some chunk => simp [Exchange.admits] at admits
  | refused initial queued =>
    cases data with
    | none | some => simp [Exchange.admits, Exchange.answered, queued] at admits
  | later course => exact call_isSome (sound _ rfl) course.started data

theorem Served.togo_pos (served : Served σ slot) (user : σ) (waits : answers slot.events = 0) :
    0 < (slot.exchange user).togo := by
  have phase := served.inPhase.phase user
  have waits : answers (slot.exchange user).events = 0 := waits
  have silent : (slot.exchange user).events.any Event.isQueued = false := by
    rw [answers, List.countP_eq_zero] at waits
    rw [List.any_eq_false]
    exact waits
  generalize slot.exchange user = e at phase silent
  cases phase with
  | fresh => exact Nat.succ_pos _
  | refused initial queued => exact absurd (queued.symm.trans silent) (by simp)
  | later course =>
    rw [togo_of_waits silent]
    have positive := started_togo course.started
    omega

/-- A request is answered within three calls more than its body has bytes, in whatever order the
connections take turns: until then MHD has a call to make, and every such call returns. -/
theorem server_answers (alwaysAnswers : app.code.AlwaysAnswers) (keeps : app.code.KeepsProcessor)
    (responds : app.code.Responds) (consumes : app.code.Consumes) {ι : Type} [DecidableEq ι]
    {init : σ → Prop} {s : Joint ι σ (Option (Slot (ConnectionObject Ctrl P Resp) P Resp))}
    (reachable : (server pcre app ι init).Reachable s) {c : ι} (open_ : s.own c = some slot) :
    slot.calls ≤ slot.request.body.length + 3 ∧
      (answers slot.events = 0 → slot.calls < slot.request.body.length + 3 ∧
        (∃ data, (slot.exchange s.shared).admits data = true) ∧
        ∀ data, (slot.exchange s.shared).admits data = true →
          (slot.request.call pcre app.toHttpImplement data
            (slot.exchange s.shared).toConnection).isSome) := by
  have kept : ∀ c, ∀ slot, s.own c = some slot → Served σ slot := by
    refine own_invariant (I := fun own => ∀ slot, own = some slot → Served σ slot) ?_ ?_ reachable
    · intro own fresh slot here
      exact absurd (fresh.symm.trans here) (by simp)
    · intro user own user' own' served step slot' here
      cases step with
      | receive i => exact Option.some.inj here ▸ .received i
      | call step =>
        exact Option.some.inj here ▸ (served _ rfl).call alwaysAnswers keeps responds consumes step
      | finish | lost => cases here
  have served := kept c slot open_
  have bounded := served.bounded s.shared
  refine ⟨by omega, fun waits => ⟨?_, admits_of_waits ?_, fun data => served.returns alwaysAnswers⟩⟩
  · have positive := served.togo_pos s.shared waits
    omega
  · rw [answers, List.countP_eq_zero] at waits
    exact List.any_eq_false.mpr waits

theorem server_answers_turns :
    ∃ slot : Slot (ConnectionObject ℕ ℕ ℕ) ℕ ℕ, slot.calls = 5 ∧
      slot.calls ≤ slot.request.body.length + 3 := by
  obtain ⟨s, reachable, slot, busy, calls⟩ :
      ∃ s, (server anyPcre uploadApplication Bool fun _ => True).Reachable s ∧
        ∃ slot, s.own true = some slot ∧ slot.calls = 5 :=
    serve_run turns () trivial (by decide +kernel)
  refine ⟨slot, calls, (server_answers ?_ ?_ ?_ ?_ reachable busy).1⟩
  · exact fun _ _ _ _ _ => rfl
  · exact fun _ _ _ _ processor => Option.isSome_of_eq_some processor
  · exact fun _ _ _ => rfl
  · intro pp req bytes user nonempty
    show (1 : SizeT) ≠ 0
    decide

end Answers

end Cppmhd
