import Cppmhd.Http.Callback
import Cppmhd.Runs.System

/-!
# The protocol of MHD

MHD calls the callback once with the headers of a request, then with parts of the body until all of
it is consumed, then without data until a response is queued.  `Later` says what a later call can do.
-/

open Runs

namespace Cppmhd

variable {σ Ctrl P Resp : Type}

/-! ## The calls of MHD -/

/-- A request as MHD receives it. -/
structure Incoming where
  conn : MHD_Connection
  url : Str
  method : Str
  version : Str
  body : Str

/-- What the callback and MHD keep of a request: the connection, whether the first call was made, and
the bytes of the body that are not consumed yet. -/
structure Exchange (σ Ctrl P Resp : Type) extends Connection σ Ctrl P Resp where
  started : Bool := false
  remaining : Str

/-- A response goes to MHD. -/
def Event.isQueued : Event P Resp → Bool
  | .queued _ => true
  | _ => false

/-- A response is queued. -/
def Exchange.answered (e : Exchange σ Ctrl P Resp) : Bool := e.events.any Event.isQueued

section Protocol

variable (pcre : Pcre) (http : HttpImplement σ Ctrl P Resp) (i : Incoming)

/-- The callback with the arguments that stay the same for all calls of a request. -/
def Incoming.call (data : Option Str) (c : Connection σ Ctrl P Resp) :
    Option (ℕ × Connection σ Ctrl P Resp) :=
  MHDconnectionCB pcre http i.conn i.url i.method i.version data c

/-- The data that MHD hands over next: some received bytes that are not consumed yet, whose number is a
`size_t`, or nothing behind the end of the body. -/
inductive Offers : Str → Option Str → Prop
  | body {chunk later : Str} (nonempty : chunk ≠ []) (fits : chunk.length < UInt64.size) :
      Offers (chunk ++ later) (some chunk)
  | last : Offers [] none

/-- One call of MHD.  Of the offered bytes all but the `left` last ones are consumed. -/
inductive MHDStep : Exchange σ Ctrl P Resp → Exchange σ Ctrl P Resp → Prop
  | first {e : Exchange σ Ctrl P Resp} {left : ℕ} {c : Connection σ Ctrl P Resp}
      (fresh : e.started = false) (returned : i.call pcre http none e.toConnection = some (left, c)) :
      MHDStep e ⟨c, true, e.remaining⟩
  | later {e : Exchange σ Ctrl P Resp} {data : Option Str} {left : ℕ}
      {c : Connection σ Ctrl P Resp} (started : e.started = true) (waits : e.answered = false)
      (offers : Offers e.remaining data) (returned : i.call pcre http data e.toConnection = some (left, c)) :
      MHDStep e ⟨c, true, e.remaining.drop ((data.getD []).length - left)⟩

/-- The exchanges of a request. -/
def exchanges : System (Exchange σ Ctrl P Resp) where
  init e := ∃ user, e = { user := user, remaining := i.body }
  step := MHDStep pcre http i

/-! ### The same calls as a function -/

/-- MHD may make this call. -/
def Exchange.admits (e : Exchange σ Ctrl P Resp) : Option Str → Bool
  | none => !e.started || (!e.answered && e.remaining.isEmpty)
  | some chunk => e.started && !e.answered && !chunk.isEmpty &&
      decide (chunk.length < UInt64.size) && chunk.isPrefixOf e.remaining

/-- The exchange behind some calls, if MHD may make them and they return. -/
def Exchange.calls : List (Option Str) → Exchange σ Ctrl P Resp → Option (Exchange σ Ctrl P Resp)
  | [], e => some e
  | data :: later, e =>
    if e.admits data then
      (i.call pcre http data e.toConnection).bind fun r =>
        Exchange.calls later ⟨r.2, true, e.remaining.drop ((data.getD []).length - r.1)⟩
    else none

variable {pcre http i}

/-- A call that MHD may make, and that returns, is a step. -/
theorem MHDStep.of_admits {e : Exchange σ Ctrl P Resp} {data : Option Str} {left : ℕ}
    {c : Connection σ Ctrl P Resp} (admits : e.admits data = true)
    (returned : i.call pcre http data e.toConnection = some (left, c)) :
    MHDStep pcre http i e ⟨c, true, e.remaining.drop ((data.getD []).length - left)⟩ := by
  cases started : e.started with
  | false =>
    cases data with
    | none =>
      have step : MHDStep pcre http i e ⟨c, true, e.remaining⟩ := .first started returned
      rwa [← List.drop_zero (l := e.remaining), ← Nat.zero_sub left] at step
    | some chunk => simp [Exchange.admits, started] at admits
  | true =>
    cases data with
    | none =>
      simp only [Exchange.admits, started, Bool.not_true, Bool.false_or, Bool.and_eq_true,
        Bool.not_eq_true', List.isEmpty_iff] at admits
      exact .later started admits.1 (admits.2 ▸ .last) returned
    | some chunk =>
      simp only [Exchange.admits, started, Bool.true_and, Bool.and_eq_true, Bool.not_eq_true',
        List.isEmpty_eq_false_iff, decide_eq_true_eq, List.isPrefixOf_iff_prefix] at admits
      obtain ⟨⟨⟨waits, nonempty⟩, fits⟩, later, whole⟩ := admits
      exact .later started waits (whole ▸ .body nonempty fits) returned

theorem reachable_of_calls {data : List (Option Str)} {e e' : Exchange σ Ctrl P Resp}
    (reachable : (exchanges pcre http i).Reachable e)
    (run : Exchange.calls pcre http i data e = some e') : (exchanges pcre http i).Reachable e' := by
  induction data generalizing e with
  | nil =>
    obtain rfl := Option.some.inj run
    exact reachable
  | cons data later ih =>
    unfold Exchange.calls at run
    split at run
    · rename_i admits
      obtain ⟨⟨left, c⟩, returned, run⟩ := Option.bind_eq_some_iff.mp run
      exact ih (reachable.step (.of_admits admits returned)) run
    · exact absurd run nofun

end Protocol

/-! ## The fields of a session -/

section Fields

variable (code : UserCode σ Ctrl P Resp) (s : Session σ Ctrl P Resp)

@[simp] theorem setState_state (state : RequestState) :
    (s.setState state).co.request.state = state := rfl

@[simp] theorem setState_response (state : RequestState) :
    (s.setState state).co.response = s.co.response := rfl

@[simp] theorem setState_ctrl (state : RequestState) : (s.setState state).co.ctrl = s.co.ctrl := rfl

@[simp] theorem setState_events (state : RequestState) : (s.setState state).events = s.events := rfl

@[simp] theorem respond_state (o : Outcome σ P (Option Resp)) (event : Event P Resp) :
    (s.respond o event).co.request.state = s.co.request.state := rfl

@[simp] theorem respond_response (o : Outcome σ P (Option Resp)) (event : Event P Resp) :
    (s.respond o event).co.response = o.value := rfl

@[simp] theorem respond_ctrl (o : Outcome σ P (Option Resp)) (event : Event P Resp) :
    (s.respond o event).co.ctrl = s.co.ctrl := rfl

@[simp] theorem respond_events (o : Outcome σ P (Option Resp)) (event : Event P Resp) :
    (s.respond o event).events = s.events ++ [event] := rfl

variable (pp : P) (data : Option Str)

@[simp] theorem onData_state :
    (s.onData code pp data).2.co.request.state = s.co.request.state := rfl

@[simp] theorem onData_response : (s.onData code pp data).2.co.response = s.co.response := rfl

@[simp] theorem onData_ctrl : (s.onData code pp data).2.co.ctrl = s.co.ctrl := rfl

@[simp] theorem onData_events : (s.onData code pp data).2.events =
    s.events ++ [.onData pp data (s.onData code pp data).1] := rfl

end Fields

/-! ## The size of the data -/

theorem dataSizeLeft_failed (dataSize : SizeT) :
    dataSizeLeft dataSize DataProcessorParseFailed = 0 := by
  rw [dataSizeLeft, if_pos rfl, UInt64.sub_self]

theorem dataSizeLeft_toNat (dataSize size : SizeT) :
    (dataSizeLeft dataSize size).toNat =
      if size = DataProcessorParseFailed then 0 else dataSize.toNat - min size.toNat dataSize.toNat := by
  unfold dataSizeLeft
  split_ifs with failed larger
  · rw [UInt64.sub_self]
    rfl
  · rw [UInt64.sub_self, min_eq_right (UInt64.lt_iff_toNat_lt.mp larger).le, Nat.sub_self]
    rfl
  · have within : size ≤ dataSize := UInt64.not_lt.mp larger
    rw [UInt64.toNat_sub_of_le _ _ within, min_eq_left (UInt64.le_iff_toNat_le.mp within)]

theorem dataSizeLeft_le (n : ℕ) (size : SizeT) : (dataSizeLeft (.ofNat n) size).toNat ≤ n := by
  have within : (UInt64.ofNat n).toNat ≤ n := Nat.mod_le n _
  rw [dataSizeLeft_toNat]
  split_ifs <;> omega

/-- For a size that fits, the subtraction is the one of numbers. -/
theorem dataSizeLeft_ofNat {n : ℕ} {size : SizeT} (fits : n < UInt64.size)
    (done : size ≠ DataProcessorParseFailed) :
    (dataSizeLeft (.ofNat n) size).toNat = n - size.toNat := by
  rw [dataSizeLeft_toNat, if_neg done, UInt64.toNat_ofNat_of_lt' fits]
  omega

/-! ## What a later call can do -/

@[simp] theorem receive_response (s : Session σ Ctrl P Resp) :
    s.receive.co.response = s.co.response := by
  unfold Session.receive
  split <;> rfl

@[simp] theorem receive_ctrl (s : Session σ Ctrl P Resp) : s.receive.co.ctrl = s.co.ctrl := by
  unfold Session.receive
  split <;> rfl

@[simp] theorem receive_events (s : Session σ Ctrl P Resp) : s.receive.events = s.events := by
  unfold Session.receive
  split <;> rfl

/-- The states in which the callback still asks user code. -/
def RequestState.Open (state : RequestState) : Prop := state ≠ .INITIAL ∧ state ≠ .RS_ERROR

/-- The states in which a call without data goes to the controller. -/
def RequestState.Complete (state : RequestState) : Prop :=
  state = .INITIAL_COMPLETE ∨ state = .DATA_RECEIVED

/-- What a later call does to the session of a request that has a controller. -/
inductive Later (code : UserCode σ Ctrl P Resp) (s : Session σ Ctrl P Resp) :
    Option Str → ℕ → Session σ Ctrl P Resp → Prop
  | resend {data : Option Str} {resp : Resp} (state : s.co.request.state = .RS_ERROR)
      (response : s.co.response = some resp) :
      Later code s data 0 { s with events := s.events ++ [.queued resp] }
  | discard {bytes : Str} (state : s.co.request.state = .RS_ERROR) : Later code s (some bytes) 0 s
  | signal {pp : P} (state : s.co.request.state = .DATA_RECEIVING)
      (processor : s.co.request.processor = some pp) :
      Later code s none 0 ((s.onData code pp none).2.setState .DATA_RECEIVED)
  | handle {ctrl : Ctrl} (state : s.co.request.state.Complete) (routed : s.co.ctrl = some ctrl)
      (silent : (s.onRequest code ctrl).co.response = none) :
      Later code s none 0 (s.onRequest code ctrl)
  | answer {ctrl : Ctrl} {resp : Resp} (state : s.co.request.state.Complete)
      (routed : s.co.ctrl = some ctrl) (response : (s.onRequest code ctrl).co.response = some resp) :
      Later code s none 0
        { s.onRequest code ctrl with events := (s.onRequest code ctrl).events ++ [.queued resp] }
  | dataInGet {bytes msg : Str} (state : s.co.request.state.Open)
      (get : s.co.request.method = .GET) :
      Later code s (some bytes) 0
        ((s.error code .k400BadRequest .DATA_IN_GET_REQUEST msg).setState .RS_ERROR)
  | noProcessor {bytes msg : Str} (state : s.co.request.state.Open)
      (processor : s.co.request.processor = none) :
      Later code s (some bytes) 0
        ((s.error code .k405MethodNotAllowed .DATA_PROCESSOR_NOT_SET msg).setState .RS_ERROR)
  | fail {pp : P} {bytes msg : Str} (state : s.co.request.state.Open)
      (processor : s.co.request.processor = some pp)
      (failed : (s.receive.onData code pp (some bytes)).1 = DataProcessorParseFailed) :
      Later code s (some bytes) 0
        (((s.receive.onData code pp (some bytes)).2.error code .k400BadRequest
          .DATA_PROCESSOR_RETURN_ERROR msg).setState .RS_ERROR)
  | consume {pp : P} {bytes : Str} (state : s.co.request.state.Open)
      (processor : s.co.request.processor = some pp)
      (done : (s.receive.onData code pp (some bytes)).1 ≠ DataProcessorParseFailed) :
      Later code s (some bytes)
        (dataSizeLeft (.ofNat bytes.length) (s.receive.onData code pp (some bytes)).1).toNat
        (s.receive.onData code pp (some bytes)).2

section Cases

variable {http : HttpImplement σ Ctrl P Resp} {url method : Str} {s s' : Session σ Ctrl P Resp}
  {left : ℕ}

theorem send_eq_some (sent : s.send = some s') :
    ∃ resp, s.co.response = some resp ∧ s' = { s with events := s.events ++ [.queued resp] } := by
  unfold Session.send at sent
  obtain ⟨resp, response, rfl⟩ := Option.map_eq_some_iff.mp sent
  exact ⟨resp, response, rfl⟩

theorem noData_cases (state : s.co.request.state.Open) (routed : s.co.ctrl.isSome)
    (returned : noData http s = some s') : Later http.code s none 0 s' := by
  obtain ⟨ctrl, routed⟩ := Option.isSome_iff_exists.mp routed
  unfold noData at returned
  split at returned
  · rename_i receiving
    cases processor : s.co.request.processor with
    | none =>
      rw [processor] at returned
      exact absurd returned nofun
    | some pp =>
      rw [processor] at returned
      obtain rfl := Option.some.inj returned
      exact .signal receiving processor
  · rename_i receiving
    have complete : s.co.request.state.Complete := by
      unfold RequestState.Complete
      cases here : s.co.request.state with
      | INITIAL => exact absurd here state.1
      | RS_ERROR => exact absurd here state.2
      | DATA_RECEIVING => exact absurd here receiving
      | INITIAL_COMPLETE => exact Or.inl rfl
      | DATA_RECEIVED => exact Or.inr rfl
    rw [routed] at returned
    dsimp only at returned
    split at returned
    · obtain ⟨resp, response, rfl⟩ := send_eq_some returned
      exact .answer complete routed response
    · rename_i silent
      obtain rfl := Option.some.inj returned
      exact .handle complete routed (Option.not_isSome_iff_eq_none.mp silent)

theorem bodyData_cases (state : s.co.request.state.Open) (bytes : Str) :
    Later http.code s (some bytes) (bodyData http url method bytes s).1
      (bodyData http url method bytes s).2 := by
  unfold bodyData
  split
  · rename_i get
    exact .dataInGet state get
  · cases processor : s.co.request.processor with
    | none => exact .noProcessor state processor
    | some pp =>
      dsimp only
      split
      · rename_i failed
        rw [failed, dataSizeLeft_failed]
        exact .fail state processor failed
      · rename_i done
        exact .consume state processor done

theorem laterRound_cases {data : Option Str} (routed : data = none → s.co.ctrl.isSome)
    (returned : laterRound http url method data s = some (left, s')) :
    Later http.code s data left s' := by
  have resend : s.co.request.state = .RS_ERROR → s.send.map (0, ·) = some (left, s') →
      Later http.code s data left s' := by
    intro error returned
    obtain ⟨_, sent, same⟩ := Option.map_eq_some_iff.mp returned
    obtain ⟨resp, response, rfl⟩ := send_eq_some sent
    obtain ⟨rfl, rfl⟩ := Prod.mk.inj same
    exact .resend error response
  unfold laterRound at returned
  split at returned
  · rename_i error
    cases data with
    | none => exact resend error returned
    | some bytes =>
      cases bytes with
      | nil => exact resend error returned
      | cons x bytes =>
        obtain ⟨rfl, rfl⟩ := Prod.mk.inj (Option.some.inj returned)
        exact .discard error
  · rename_i noError
    split at returned
    · exact absurd returned nofun
    · rename_i notInitial
      cases data with
      | none =>
        obtain ⟨_, here, same⟩ := Option.map_eq_some_iff.mp returned
        obtain ⟨rfl, rfl⟩ := Prod.mk.inj same
        exact noData_cases ⟨notInitial, noError⟩ (routed rfl) here
      | some bytes =>
        have cases : Later http.code s (some bytes) (bodyData http url method bytes s).1
            (bodyData http url method bytes s).2 := bodyData_cases ⟨notInitial, noError⟩ bytes
        rwa [Option.some.inj returned] at cases

end Cases

end Cppmhd
