import Cppmhd.Http.Upload

/-!
# The calls of the handler

The callback asks the handler at every call without data behind the end of the body, until the
handler leaves a response (`handler_asked`).  Nothing in the request remembers that it was asked.
-/

open Runs

namespace Cppmhd

variable {σ Ctrl P Resp : Type}

/-- The handler is asked. -/
def Event.isRequest : Event P Resp → Bool
  | .onRequest => true
  | _ => false

/-- How often the handler was asked. -/
def asked (events : List (Event P Resp)) : ℕ := events.countP Event.isRequest

/-- A handler that finds no response leaves one. -/
def UserCode.Responds (code : UserCode σ Ctrl P Resp) : Prop :=
  ∀ ctrl req user, (code.onRequest ctrl req none user).value.isSome

/-! ## Counting -/

section Asked

variable {events : List (Event P Resp)}

@[simp] theorem asked_append (first last : List (Event P Resp)) :
    asked (first ++ last) = asked first + asked last := List.countP_append

@[simp] theorem asked_queued (resp : Resp) : asked [(.queued resp : Event P Resp)] = 0 := rfl

theorem asked_eq_zero (silent : .onRequest ∉ events) : asked events = 0 := by
  rw [asked, List.countP_eq_zero]
  intro event member request
  cases event with
  | onRequest => exact silent member
  | errorHandler | onConnection | onData | header | queued => exact Bool.false_ne_true request

end Asked

/-! ## One call -/

section Calls

variable {code : UserCode σ Ctrl P Resp} {s s' : Session σ Ctrl P Resp} {data : Option Str}
  {left : ℕ} {body remaining : Str}

/-- A handler that was asked left no response, or it is queued. -/
theorem Course.of_asked (course : Course body s remaining) (before : asked s.events ≠ 0) :
    s.events.any Event.isQueued = true ∨ s.co.response = none ∧ s.co.request.state.Complete ∧
      remaining = [] := by
  cases course with
  | uploading routed pending state opened accepted bodied events parts =>
    refine absurd (asked_eq_zero ?_) before
    simp [events, opened.not_onRequest, not_onRequest_of_accepted accepted]
  | handling routed pending ready events whole => exact Or.inr ⟨pending, ready.complete, whole⟩
  | replied ready events =>
    rw [events]
    exact Or.inl (by simp [Event.isQueued])
  | broken routed state broken => exact absurd (asked_eq_zero broken.not_onRequest) before
  | closed state response broken events =>
    rw [events]
    exact Or.inl (by simp [Event.isQueued])

/-- A handler that was asked left no response, or the response that it left is queued. -/
theorem Course.reply_of_asked (course : Course body s remaining) (before : asked s.events ≠ 0) :
    s.co.response = none ∨ ∃ resp first, s.co.response = some resp ∧
      s.events = first ++ [.onRequest, .queued resp] := by
  cases course with
  | uploading _ pending => exact Or.inl pending
  | handling _ pending => exact Or.inl pending
  | @replied first n resp ready events response =>
    refine Or.inr ⟨resp, first ++ List.replicate n .onRequest, response, ?_⟩
    rw [events, List.replicate_succ', List.append_assoc, List.append_assoc, List.append_assoc]
    rfl
  | broken routed state broken => exact absurd (asked_eq_zero broken.not_onRequest) before
  | closed state response broken events =>
    refine absurd (asked_eq_zero ?_) before
    simp [events, broken.not_onRequest]

/-- A handler that is asked finds no response. -/
theorem Course.pending (course : Course body s remaining)
    (waits : s.events.any Event.isQueued = false) (complete : s.co.request.state.Complete) :
    s.co.response = none := by
  cases course with
  | uploading _ pending | handling _ pending => exact pending
  | broken _ error =>
    rw [error] at complete
    exact absurd complete (by simp [RequestState.Complete])
  | replied ready events =>
    rw [events] at waits
    exact absurd waits (by simp [Event.isQueued])
  | closed error response broken events =>
    rw [events] at waits
    exact absurd waits (by simp [Event.isQueued])

/-- A call without data behind the end of the body asks the handler once. -/
theorem Later.asked_complete (call : Later code s none left s')
    (complete : s.co.request.state.Complete) : asked s'.events = asked s.events + 1 := by
  cases call with
  | resend error =>
    rw [error] at complete
    exact absurd complete (by simp [RequestState.Complete])
  | signal receiving =>
    rw [receiving] at complete
    exact absurd complete (by simp [RequestState.Complete])
  | handle => exact asked_append _ _
  | answer =>
    dsimp only
    rw [asked_append, asked_queued, Session.onRequest, respond_events, asked_append]
    rfl

/-- A call asks the handler at most once. -/
theorem Later.asked_le (call : Later code s data left s') :
    asked s'.events ≤ asked s.events + 1 := by
  cases call with
  | handle complete routed silent => exact (Later.handle complete routed silent).asked_complete complete |>.le
  | answer complete routed response =>
    exact (Later.answer complete routed response).asked_complete complete |>.le
  | resend | discard | signal | dataInGet | noProcessor | fail | consume =>
    simp [asked, Session.error, Event.isRequest]

/-- Where the handler leaves a response, the call that asks it queues the response. -/
theorem Later.answered_of_asked (responds : code.Responds)
    (pending : s.co.request.state.Complete → s.co.response = none)
    (call : Later code s data left s') (more : asked s'.events ≠ asked s.events) :
    s'.events.any Event.isQueued = true := by
  cases call with
  | handle complete routed silent =>
    rw [Session.onRequest, respond_response, pending complete] at silent
    exact absurd silent (Option.isSome_iff_ne_none.mp (responds _ _ _))
  | answer => simp [Event.isQueued]
  | resend | discard | signal | dataInGet | noProcessor | fail | consume =>
    exact absurd (by simp [asked, Session.error, Event.isRequest]) more

end Calls

/-! ## Exchanges -/

section Exchanges

variable {pcre : Pcre} {http : HttpImplement σ Ctrl P Resp} {i : Incoming}
  {e e' : Exchange σ Ctrl P Resp}

/-- Behind the end of the body MHD offers nothing. -/
theorem Offers.of_nil {data : Option Str} (offers : Offers [] data) : data = none := by
  generalize whole : ([] : Str) = rest at offers
  cases offers with
  | body nonempty => exact absurd (List.append_eq_nil_iff.mp whole.symm).1 nonempty
  | last => rfl

/-- The first call does not ask the handler. -/
theorem first_asked {user : σ} {left : ℕ} {c : Connection σ Ctrl P Resp}
    (returned : i.call pcre http none { user := user } = some (left, c)) : asked c.events = 0 :=
  asked_eq_zero fun member => first_silent returned _ member

/-- A call of MHD asks the handler at most once, and once again if it was asked before. -/
theorem asked_step (reachable : (exchanges pcre http i).Reachable e)
    (step : MHDStep pcre http i e e') :
    asked e'.events ≤ asked e.events + 1 ∧
      (asked e.events ≠ 0 → asked e'.events = asked e.events + 1) := by
  cases (phase_of_reachable reachable).progress step with
  | first returned =>
    dsimp only
    rw [first_asked returned]
    exact ⟨Nat.zero_le _, fun before => absurd rfl before⟩
  | @later s s' remaining data left course waits offers call =>
    refine ⟨call.asked_le, fun before => ?_⟩
    rcases course.of_asked before with queued | ⟨-, complete, rfl⟩
    · exact absurd (queued.symm.trans waits) (by simp)
    · obtain rfl := offers.of_nil
      exact call.asked_complete complete

/-- A handler that was asked left no response, or the response that it left is queued. -/
theorem reply_of_asked (reachable : (exchanges pcre http i).Reachable e)
    (before : asked e.events ≠ 0) : ∃ co, e.con_cls = some co ∧
      (co.response = none ∨ ∃ resp first, co.response = some resp ∧
        e.events = first ++ [.onRequest, .queued resp]) := by
  cases phase_of_reachable reachable with
  | fresh => exact absurd rfl before
  | refused initial queued silent =>
    exact absurd (asked_eq_zero fun member => silent _ member) before
  | later course => exact ⟨_, rfl, course.reply_of_asked before⟩

/-- A handler that always leaves a response is asked once at most, and then the request is answered. -/
theorem asked_stable (responds : http.code.Responds) :
    (exchanges pcre http i).Stable fun e =>
      asked e.events ≤ 1 ∧ (asked e.events ≠ 0 → e.answered = true) := by
  rintro e e' reachable ⟨-, answered⟩ step
  have one := (asked_step reachable step).1
  cases (phase_of_reachable reachable).progress step with
  | first returned =>
    dsimp only
    rw [first_asked returned]
    exact ⟨Nat.zero_le _, fun before => absurd rfl before⟩
  | @later s s' remaining data left course waits offers call =>
    -- no call comes behind the answer, so the handler was not asked before
    have none : asked s.events = 0 := by
      by_contra before
      exact absurd ((answered before).symm.trans waits) (by decide)
    have one : asked s'.events ≤ asked s.events + 1 := one
    refine ⟨by rwa [none] at one, fun more => ?_⟩
    exact call.answered_of_asked responds (course.pending waits) (none ▸ more)

/-- A call asks the handler at most once.  A handler that was asked left no response, which the next
call asks for again, or the response that it left is queued; if it leaves one every time it is asked
once at most. -/
theorem handler_asked (reachable : (exchanges pcre http i).Reachable e) :
    (asked e.events ≠ 0 → ∃ co, e.con_cls = some co ∧
      (co.response = none ∨ ∃ resp first, co.response = some resp ∧
        e.events = first ++ [.onRequest, .queued resp])) ∧
      (∀ e', MHDStep pcre http i e e' → asked e'.events ≤ asked e.events + 1 ∧
        (asked e.events ≠ 0 → asked e'.events = asked e.events + 1)) ∧
      (http.code.Responds → asked e.events ≤ 1) := by
  refine ⟨reply_of_asked reachable, fun e' step => asked_step reachable step, fun responds => ?_⟩
  refine ((asked_stable responds).reachable ?_ reachable).1
  rintro _ ⟨user, rfl⟩
  exact ⟨Nat.zero_le _, fun before => absurd rfl before⟩

theorem handler_asked_up :
    asked ([.onConnection, .onRequest, .queued 200] : List (Event ℕ ℕ)) ≤ 1 := by
  obtain ⟨e, reachable, events⟩ : ∃ e,
      (exchanges anyPcre (uploadServer fun _ => 1) (uploadOf [])).Reachable e ∧ e.events =
        [.onConnection, .onRequest, .queued 200] :=
    upload_run [none, none] (by decide +kernel)
  rw [← events]
  exact (handler_asked reachable).2.2 fun _ _ _ => rfl

/-- An application whose handler leaves a response when it is asked for the second time. -/
def lateServer : HttpImplement ℕ ℕ ℕ ℕ where
  router := (Router.buildTree anyPcre [] ⟨[(.PUT, "/up".toList, 1)]⟩).1
  code :=
    { errorHandler := fun req _ _ _ n => ⟨some 400, req.bind (·.processor), n⟩
      onConnection := fun _ req _ n => ⟨none, req.processor, n⟩
      onRequest := fun _ req _ n => ⟨if n = 0 then none else some 200, req.processor, n + 1⟩
      onData := fun _ req _ n => ⟨1, req.processor, n⟩ }

/-- Its handler is asked twice. -/
theorem asked_twice :
    ∃ e, (exchanges anyPcre lateServer (uploadOf [])).Reachable e ∧
      e.events = [.onConnection, .onRequest, .onRequest, .queued 200] ∧ asked e.events = 2 := by
  have run : (Exchange.calls anyPcre lateServer (uploadOf []) [none, none, none]
      { user := 0, remaining := [] }).map (·.events) =
        some [.onConnection, .onRequest, .onRequest, .queued 200] := by
    decide +kernel
  obtain ⟨e, calls, events⟩ := Option.map_eq_some_iff.mp run
  refine ⟨e, reachable_of_calls (.of_init ⟨0, rfl⟩) calls, events, ?_⟩
  rw [events]
  rfl

end Exchanges

end Cppmhd
