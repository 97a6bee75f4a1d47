import Cppmhd.Http.DataController
import Cppmhd.Http.FormObjects

/-!
# Requests with forms

Any number of requests with forms take turns.  No processor is used behind its end, none but the last one of
a controller outlives its request, and no request finds the processor of another one (`form_processors`).
-/

open Runs Heap

namespace Cppmhd

variable {τ Ctrl S Resp : Type}

/-! ## One request -/

/-- What the calls for a request have made of its form: the post processor, the names that are kept, and
what the controller was told. -/
inductive Uploaded (post : MHD_PostProcessor S) (conn : MHD_Connection) :
    List (Event ℕ Resp) → S → FormProcessor → List FormCall → Prop
  | create {pp_ : S} (created : post.create conn = some pp_) : Uploaded post conn [] pp_ {} []
  | quiet {events new : List (Event ℕ Resp)} {pp_ : S} {names : FormProcessor} {calls : List FormCall}
      (uploaded : Uploaded post conn events pp_ names calls) (silent : ∀ event ∈ new, event.isData = false) :
      Uploaded post conn (events ++ new) pp_ names calls
  | body {events : List (Event ℕ Resp)} {pp_ pp_' : S} {names : FormProcessor} {calls : List FormCall} {p : ℕ}
      {bytes : Str} {made : List (FormPiece × MHD_Return)} {result : MHD_Return}
      (uploaded : Uploaded post conn events pp_ names calls) (nonempty : bytes ≠ [])
      (makes : (post.process pp_ bytes).Makes made (result, pp_')) :
      Uploaded post conn
        (events ++ [.onData p (some bytes)
          (if result = .MHD_OK then .ofNat bytes.length else DataProcessorParseFailed)])
        pp_' (names.after (made.map Prod.fst)) (calls ++ names.told (made.map Prod.fst))
  | finish {events : List (Event ℕ Resp)} {pp_ : S} {names : FormProcessor} {calls : List FormCall} {p : ℕ}
      (uploaded : Uploaded post conn events pp_ names calls) :
      Uploaded post conn (events ++ [.onData p none 0]) pp_ names (calls ++ [names.finishing])

/-- The request has the processor `o` at `p`, which has told its controller what the calls make of it. -/
structure Uploading (post : MHD_PostProcessor S) (u : FormState τ Ctrl S) (co : ConnectionObject Ctrl ℕ Resp)
    (events : List (Event ℕ Resp)) (p : ℕ) (o : FormObject Ctrl S) : Prop where
  routed : co.ctrl = some o.ctrl_
  processor : co.request.processor = some p
  object : u.memory.value p = some o
  alive : o.expired = false
  request : co.request.toHttpRequest = { o.req with processor := some p }
  uploaded : ∃ calls, Uploaded post o.req.conn events o.pp_ o.names calls ∧
    u.calls.filter (·.processor = p) = calls.map (ControllerCall.mk p (some co.request.toHttpRequest))

/-- A call keeps the processor of its request. -/
structure KeepsUploading (post : MHD_PostProcessor S) (u : FormState τ Ctrl S)
    (s' : Session (FormState τ Ctrl S) Ctrl ℕ Resp) (p : ℕ) (o o' : FormObject Ctrl S) : Prop where
  uploading : Uploading post s'.user s'.co s'.events p o'
  ctrl : o'.ctrl_ = o.ctrl_
  expired : o'.expired = o.expired
  memory : s'.user.memory = u.memory ∧ o' = o ∨ s'.user.memory = u.memory.modify p o'
  calls : ∃ new : List FormCall,
    s'.user.calls = u.calls ++ new.map (ControllerCall.mk p (some s'.co.request.toHttpRequest))
  pp : s'.user.pp = u.pp
  fault : s'.user.fault = u.fault

section Calls

variable [DecidableEq Ctrl]
  {errorHandler : Option (HttpRequest ℕ) → HttpStatusCode → HttpError → Str → τ → Option Resp × τ}
  {post : MHD_PostProcessor S} {types : Ctrl → FormController τ Resp} {u : FormState τ Ctrl S} {p : ℕ}
  {o o' : FormObject Ctrl S} {s s' : Session (FormState τ Ctrl S) Ctrl ℕ Resp} {data : Option Str} {left : ℕ}

omit [DecidableEq Ctrl] in
theorem Uploading.lock {co : ConnectionObject Ctrl ℕ Resp} {events : List (Event ℕ Resp)}
    (uploading : Uploading post u co events p o) : o.lock p = some co.request.toHttpRequest := by
  rw [FormObject.lock, uploading.alive, uploading.request]
  rfl

omit [DecidableEq Ctrl] in
/-- The calls that a processor adds are its last ones. -/
theorem filter_calls (calls : List ControllerCall) (req : Option (HttpRequest ℕ)) (new : List FormCall) :
    (calls ++ new.map (ControllerCall.mk p req)).filter (·.processor = p) =
      calls.filter (·.processor = p) ++ new.map (ControllerCall.mk p req) := by
  rw [List.filter_append]
  refine congrArg _ (List.filter_eq_self.mpr fun e member => ?_)
  obtain ⟨call, -, rfl⟩ := List.mem_map.mp member
  exact decide_eq_true rfl

omit [DecidableEq Ctrl] in
/-- What changes neither the processors nor the processor of the request. -/
theorem KeepsUploading.quiet (keeps : KeepsUploading post u s p o o') (new : List (Event ℕ Resp))
    (silent : ∀ event ∈ new, event.isData = false) (routed : s'.co.ctrl = s.co.ctrl)
    (request : s'.co.request.toHttpRequest = s.co.request.toHttpRequest)
    (events : s'.events = s.events ++ new) (memory : s'.user.memory = s.user.memory)
    (calls : s'.user.calls = s.user.calls) (pp : s'.user.pp = s.user.pp)
    (fault : s'.user.fault = s.user.fault) : KeepsUploading post u s' p o o' := by
  have processor : s'.co.request.processor = s.co.request.processor := congrArg (·.processor) request
  refine ⟨⟨routed.trans keeps.uploading.routed, processor.trans keeps.uploading.processor, ?_,
    keeps.uploading.alive, request.trans keeps.uploading.request, ?_⟩, keeps.ctrl, keeps.expired, ?_, ?_,
    pp.trans keeps.pp, fault.trans keeps.fault⟩
  · rw [memory]
    exact keeps.uploading.object
  · obtain ⟨made, uploaded, told⟩ := keeps.uploading.uploaded
    refine ⟨made, ?_, ?_⟩
    · rw [events]
      exact uploaded.quiet silent
    · rw [calls, request]
      exact told
  · rw [memory]
    exact keeps.memory
  · rw [calls, request]
    exact keeps.calls

/-- A call of the processor. -/
theorem onData_uploading (uploading : Uploading post s.user s.co s.events p o) {bytes : Option Str}
    (nonempty : bytes ≠ some []) :
    ∃ o', KeepsUploading post s.user (s.onData (formCode errorHandler post types) p bytes).2 p o o' := by
  obtain ⟨calls, uploaded, told⟩ := uploading.uploaded
  cases bytes with
  | none =>
    let r := Form.finish ⟨(types o.ctrl_).onData (some s.co.request.toHttpRequest)⟩
      { processor := o.names, user := s.user.app }
    have result : s.onData (formCode errorHandler post types) p none = (0,
        { co := s.co
          user := { s.user with
            app := r.user
            calls := s.user.calls ++
              [o.names.finishing].map (ControllerCall.mk p (some s.co.request.toHttpRequest)) }
          events := s.events ++ [.onData p none 0] }) := by
      unfold Session.onData formCode FormState.onData
      dsimp only
      rw [uploading.object]
      rfl
    rw [result]
    refine ⟨o, ⟨uploading.routed, uploading.processor, uploading.object, uploading.alive, uploading.request,
      calls ++ [o.names.finishing], uploaded.finish, ?_⟩, rfl, rfl, Or.inl ⟨rfl, rfl⟩, ⟨_, rfl⟩, rfl, rfl⟩
    rw [filter_calls, told, List.map_append]
  | some data =>
    have size : data.length ≠ 0 := fun empty => nonempty (congrArg _ (List.length_eq_zero_iff.mp empty))
    let r := postProcess (post.process o.pp_ data) ⟨(types o.ctrl_).onData (some s.co.request.toHttpRequest)⟩
      { processor := o.names, user := s.user.app }
    let o' : FormObject Ctrl S := { o with pp_ := r.1.2, names := r.2.processor }
    let taken : SizeT := if r.1.1 = .MHD_OK then .ofNat data.length else DataProcessorParseFailed
    have result : s.onData (formCode errorHandler post types) p (some data) = (taken,
        { co := s.co
          user := { s.user with
            app := r.2.user
            memory := s.user.memory.modify p o'
            calls := s.user.calls ++
              r.2.calls.map (ControllerCall.mk p (some s.co.request.toHttpRequest)) }
          events := s.events ++ [.onData p (some data) taken] }) := by
      unfold Session.onData formCode FormState.onData
      dsimp only
      rw [uploading.object]
      dsimp only
      rw [Option.getD_some, if_neg size, uploading.lock]
      rfl
    rw [result]
    obtain ⟨made, makes, names, calls'⟩ : ∃ made, (post.process o.pp_ data).Makes made r.1 ∧
        r.2.processor = o.names.after (made.map Prod.fst) ∧
          r.2.calls = [] ++ o.names.told (made.map Prod.fst) := postProcess_spec _ _ _
    refine ⟨o', ⟨uploading.routed, uploading.processor, ?_, uploading.alive, uploading.request,
      calls ++ r.2.calls, ?_, ?_⟩, rfl, rfl, Or.inr rfl, ⟨_, rfl⟩, rfl, rfl⟩
    · exact Memory.value_modify (Option.isSome_of_eq_some uploading.object)
    · rw [calls', List.nil_append]
      show Uploaded post o.req.conn _ r.1.2 r.2.processor _
      rw [names]
      exact uploaded.body (fun nothing => size (congrArg List.length nothing)) makes
    · rw [filter_calls, told, List.map_append]

omit [DecidableEq Ctrl] in
theorem receive_uploading (uploading : Uploading post s.user s.co s.events p o) :
    Uploading post s.receive.user s.receive.co s.receive.events p o ∧ s.receive.user = s.user := by
  unfold Session.receive
  split
  · exact ⟨⟨uploading.routed, uploading.processor, uploading.object, uploading.alive, uploading.request,
      uploading.uploaded⟩, rfl⟩
  · exact ⟨uploading, rfl⟩

/-- A later call for a request with a processor. -/
theorem Later.uploading (uploading : Uploading post s.user s.co s.events p o) (nonempty : data ≠ some [])
    (call : Later (formCode errorHandler post types) s data left s') :
    ∃ o', KeepsUploading post s.user s' p o o' := by
  have start : KeepsUploading post s.user s p o o :=
    ⟨uploading, rfl, rfl, Or.inl ⟨rfl, rfl⟩, ⟨[], (List.append_nil _).symm⟩, rfl, rfl⟩
  have same : ∀ {pp}, s.co.request.processor = some pp → pp = p := fun processor =>
    Option.some.inj (processor.symm.trans uploading.processor)
  have offered : ∀ bytes, data = some bytes → ∃ o', KeepsUploading post s.user
      (s.receive.onData (formCode errorHandler post types) p (some bytes)).2 p o o' := by
    intro bytes here
    obtain ⟨received, user⟩ := receive_uploading uploading
    rw [← user]
    exact onData_uploading received (here ▸ nonempty)
  have handled : ∀ ctrl, KeepsUploading post s.user (s.onRequest (formCode errorHandler post types) ctrl)
      p o o := fun ctrl => start.quiet [.onRequest] (by simp [Event.isData]) rfl rfl rfl rfl rfl rfl rfl
  cases call with
  | @resend _ resp =>
    exact ⟨o, start.quiet [.queued resp] (by simp [Event.isData]) rfl rfl rfl rfl rfl rfl rfl⟩
  | discard => exact ⟨o, start⟩
  | @signal pp _ processor =>
    obtain rfl := same processor
    obtain ⟨o', keeps⟩ : ∃ o', KeepsUploading post s.user
        (s.onData (formCode errorHandler post types) pp none).2 pp o o' := onData_uploading uploading nonempty
    exact ⟨o', keeps.quiet [] (by simp) rfl rfl (List.append_nil _).symm rfl rfl rfl rfl⟩
  | @handle ctrl => exact ⟨o, handled ctrl⟩
  | @answer ctrl resp =>
    refine ⟨o, (handled ctrl).quiet [.queued resp] ?_ rfl rfl rfl rfl rfl rfl rfl⟩
    simp [Event.isData]
  | dataInGet | noProcessor =>
    refine ⟨o, start.quiet _ ?_ rfl rfl rfl rfl rfl rfl rfl⟩
    simp [Event.isData]
  | @fail pp bytes _ _ processor =>
    obtain rfl := same processor
    obtain ⟨o', keeps⟩ := offered bytes rfl
    refine ⟨o', keeps.quiet _ ?_ rfl rfl rfl rfl rfl rfl rfl⟩
    simp [Event.isData]
  | @consume pp bytes _ processor =>
    obtain rfl := same processor
    exact offered bytes rfl

/-- A later call for a request without a processor. -/
theorem Later.without (absent : s.co.request.processor = none)
    (call : Later (formCode errorHandler post types) s data left s') :
    s'.co.request.processor = none ∧ ∃ app, s'.user = { s.user with app := app } := by
  cases call with
  | resend | discard | handle | answer | dataInGet | noProcessor => exact ⟨absent, _, rfl⟩
  | signal _ processor | fail _ processor | consume _ processor =>
    exact absurd (absent.symm.trans processor) (by simp)

/-- What a first call does to the processors: nothing, or it attaches one for the controller that it
found. -/
inductive FirstForms (post : MHD_PostProcessor S) (types : Ctrl → FormController τ Resp)
    (u : FormState τ Ctrl S) (c : Connection (FormState τ Ctrl S) Ctrl ℕ Resp) : Prop
  | none {app : τ} (user : c.user = { u with app := app })
      (absent : ∀ co, c.con_cls = some co → co.request.processor = .none)
  | attached {ctrl : Ctrl} {co : ConnectionObject Ctrl ℕ Resp} {fp : FormObject Ctrl S} {before app : τ}
      {r : Option ℕ × FormState τ Ctrl S} (attach : r = FormState.attach post types { u with app := before } ctrl fp)
      (object : c.con_cls = some co) (routed : co.ctrl = some ctrl) (belongs : fp.ctrl_ = ctrl)
      (alive : fp.expired = false) (absent : fp.req.processor = .none)
      (request : co.request.toHttpRequest = { fp.req with processor := r.1 })
      (uploaded : Uploaded post fp.req.conn c.events fp.pp_ fp.names [])
      (user : c.user = { r.2 with app := app })

theorem sendTSR_forms (sent : sendTSR (formCode errorHandler post types) s = some s') :
    s'.co.request.processor = s.co.request.processor ∧ ∃ app, s'.user = { s.user with app := app } := by
  unfold sendTSR at sent
  dsimp only at sent
  split at sent
  · cases sent
  · obtain ⟨resp, -, rfl⟩ := send_eq_some sent
    exact ⟨rfl, _, rfl⟩

variable (errorHandler post types u) in
/-- A controller that is connected attaches a new processor to the request, or none. -/
theorem onConnection_forms (ctrl : Ctrl) (req : HttpRequest ℕ) (resp : Option Resp)
    (absent : req.processor = none) :
    let r := (formCode errorHandler post types).onConnection ctrl req resp u
    r.value = resp ∧ (r.processor = none ∧ r.user = u ∨
      ∃ pp_ app, post.create req.conn = some pp_ ∧
        let a := u.attach post types ctrl { ctrl_ := ctrl, req := req, pp_ := pp_ }
        r.processor = a.1 ∧ r.user = { a.2 with app := app }) := by
  unfold formCode
  dsimp only
  split
  · split
    · rename_i pp_ created
      exact ⟨rfl, Or.inr ⟨pp_, _, created, rfl, rfl⟩⟩
    · exact ⟨rfl, Or.inl ⟨absent, rfl⟩⟩
  · exact ⟨rfl, Or.inl ⟨absent, rfl⟩⟩

variable {host : Str} {router : Router Ctrl} {pcre : Pcre} {i : Incoming}

theorem first_forms {c : Connection (FormState τ Ctrl S) Ctrl ℕ Resp}
    (returned : i.call pcre (formApplication errorHandler post types host router).toHttpImplement none
      { user := u } = some (left, c)) : FirstForms post types u c := by
  unfold Incoming.call MHDconnectionCB at returned
  dsimp only at returned
  split at returned
  · obtain ⟨resp, -, same⟩ := Option.map_eq_some_iff.mp returned
    obtain ⟨-, rfl⟩ := Prod.mk.inj same
    exact .none rfl fun co object => by cases object
  · obtain ⟨s, round, same⟩ := Option.map_eq_some_iff.mp returned
    obtain ⟨-, rfl⟩ := Prod.mk.inj same
    have outcome := firstRound_outcome round
    dsimp only at outcome
    generalize checked : HttpImplement.checkRequest _ _ i.version = first at outcome
    obtain ⟨before, user, absent, silent⟩ : ∃ app, first.user = { u with app := app } ∧
        first.co.request.processor = none ∧ ∀ event ∈ first.events, event.isData = false := by
      rw [← checked]
      rcases checkRequest_cases _ _ i.version with same | ⟨sc, error, msg, same⟩
      · rw [same]
        exact ⟨u.app, rfl, rfl, by simp [Incoming.session]⟩
      · rw [same]
        exact ⟨_, rfl, rfl, by simp [Incoming.session, Session.error, Event.isData]⟩
    generalize Router.forward _ _ _ _ _ = r at outcome
    cases outcome with
    | refused => exact .none user fun co object => Option.some.inj object ▸ absent
    | @answered ctrl resp pending found response =>
      have kept := (onConnection_forms errorHandler post types first.user ctrl
        (first.route r).co.request.toHttpRequest (first.route r).co.response absent).1
      exact absurd (pending.symm.trans (kept.symm.trans response)) (by simp)
    | @connected ctrl pending found _ =>
      obtain ⟨-, spec⟩ := onConnection_forms errorHandler post types first.user ctrl
        (first.route r).co.request.toHttpRequest (first.route r).co.response absent
      rcases spec with ⟨processor, user'⟩ | ⟨pp_, app, created, processor, user'⟩
      · exact .none (user'.trans user) fun co object => Option.some.inj object ▸ processor
      · let fp : FormObject Ctrl S :=
          { ctrl_ := ctrl, req := (first.route r).co.request.toHttpRequest, pp_ := pp_ }
        have attach := congrArg (fun v => FormState.attach post types v ctrl fp) user
        refine .attached attach rfl found rfl rfl absent ?_ ?_ user'
        · exact congrArg (fun processor => { fp.req with processor := processor }) processor
        · have quiet : ∀ event ∈ first.events ++ [.onConnection], event.isData = false := by
            intro event member
            rcases List.mem_append.mp member with member | member
            · exact silent event member
            · rw [List.mem_singleton.mp member]
              rfl
          exact (Uploaded.create created).quiet quiet
    | redirected pending absent' tsr sent =>
      obtain ⟨processor, app, user'⟩ := sendTSR_forms sent
      have user' : s.user = { first.user with app := app } := user'
      refine .none (user'.trans (by rw [user])) fun co object => ?_
      rw [← Option.some.inj object]
      exact processor.trans absent
    | @notFound msg =>
      obtain ⟨app, user'⟩ : ∃ app, ((first.route r).error (formCode errorHandler post types) .k404NotFound
        .ROUTER_NOT_FOUND msg).user = { first.user with app := app } := ⟨_, rfl⟩
      exact .none (user'.trans (by rw [user])) fun co object => Option.some.inj object ▸ absent

end Calls

/-! ## All requests -/

/-- What holds of a request and its processor. -/
structure Formed (post : MHD_PostProcessor S) (u : FormState τ Ctrl S)
    (slot : Slot (ConnectionObject Ctrl ℕ Resp) ℕ Resp) : Prop where
  inPhase : InPhase (FormState τ Ctrl S) slot
  fresh : slot.started = false → slot.con_cls = none
  object : ∀ co p, slot.con_cls = some co → co.request.processor = some p →
    ∃ o, Uploading post u co slot.events p o

section Steps

variable {post : MHD_PostProcessor S} {u u' : FormState τ Ctrl S} {ι : Type} {requests : ι → Option ℕ} {c : ι}
  {slot : Slot (ConnectionObject Ctrl ℕ Resp) ℕ Resp} {touched : Set ℕ}

theorem Uploading.frame {co : ConnectionObject Ctrl ℕ Resp} {events : List (Event ℕ Resp)} {p : ℕ}
    {o : FormObject Ctrl S} (uploading : Uploading post u co events p o)
    (continues : Continues touched u u') (foreign : p ∉ touched) : Uploading post u' co events p o := by
  obtain ⟨calls, uploaded, told⟩ := uploading.uploaded
  refine ⟨uploading.routed, uploading.processor, ?_, uploading.alive, uploading.request, calls, uploaded, ?_⟩
  · rw [continues.values p foreign]
    exact uploading.object
  · rw [continues.calls_of foreign]
    exact told

/-- A request does not depend on what happens to the processors of the others. -/
theorem Formed.frame (formed : Formed post u slot) (continues : Continues touched u u')
    (foreign : ∀ p, slot.processor = some p → p ∉ touched) : Formed post u' slot := by
  refine ⟨formed.inPhase, formed.fresh, fun co p object processor => ?_⟩
  obtain ⟨o, uploading⟩ := formed.object co p object processor
  refine ⟨o, uploading.frame continues (foreign p ?_)⟩
  rw [Slot.processor, object]
  exact processor

variable [DecidableEq Ctrl] [DecidableEq ι]
  {errorHandler : Option (HttpRequest ℕ) → HttpStatusCode → HttpError → Str → τ → Option Resp × τ}
  {types : Ctrl → FormController τ Resp} {host : Str} {router : Router Ctrl} {pcre : Pcre}

/-- A step of a connection changes its own processor, and those that nobody else has. -/
structure Advances (post : MHD_PostProcessor S) (requests : ι → Option ℕ) (c : ι) (u u' : FormState τ Ctrl S)
    (own' : Option (Slot (ConnectionObject Ctrl ℕ Resp) ℕ Resp)) : Prop where
  forms : Forms u' (Function.update requests c (own'.bind Slot.processor))
  formed : ∀ slot, own' = some slot → Formed post u' slot
  others : ∃ touched, Continues touched u u' ∧ ∀ d q, d ≠ c → requests d = some q → q ∉ touched

theorem Formed.call {e : Exchange (FormState τ Ctrl S) Ctrl ℕ Resp} (formed : Formed post u slot)
    (forms : Forms u requests) (own : requests c = slot.processor)
    (step : MHDStep pcre (formApplication errorHandler post types host router).toHttpImplement slot.request
      (slot.exchange u) e) : Advances post requests c u e.user (some (slot.after e)) := by
  have inPhase := formed.inPhase.call step
  have started : (slot.after e).started = false → (slot.after e).con_cls = none :=
    fun old => absurd (step.started.symm.trans old) (by simp)
  have progress := (formed.inPhase.phase u).progress step
  -- a request that has no processor before and behind a call
  have without : ∀ app, e.user = { u with app := app } → slot.processor = none →
      (slot.after e).processor = none → Advances post requests c u e.user (some (slot.after e)) := by
    intro app user before after
    rw [user]
    have same : Function.update requests c ((some (slot.after e)).bind Slot.processor) = requests := by
      rw [Option.bind_some, after, ← before, ← own, Function.update_eq_self]
    refine ⟨?_, fun slot' here => ?_, ∅, .quiet rfl rfl rfl, fun _ _ _ _ => id⟩
    · rw [same]
      exact forms.quiet rfl rfl rfl rfl
    · rw [← Option.some.inj here]
      refine ⟨inPhase, started, fun co p object processor => ?_⟩
      rw [Slot.processor, object, Option.bind_some, processor] at after
      cases after
  generalize exchange : slot.exchange u = before at progress
  cases progress with
  | @first user left connection returned =>
    have absent : slot.con_cls = none := congrArg (·.con_cls) exchange
    obtain rfl : u = user := congrArg (·.user) exchange
    have idle : slot.processor = none := by rw [Slot.processor, absent, Option.bind_none]
    cases first_forms returned with
    | @none app user nothing =>
      refine without app user idle ?_
      show connection.con_cls.bind _ = .none
      cases object : connection.con_cls with
      | none => rfl
      | some co => exact nothing co object
    | @attached ctrl co fp before app r attach object routed belongs alive first request uploaded user =>
      have forms₁ : Forms ({ u with app := before } : FormState τ Ctrl S) requests :=
        forms.quiet rfl rfl rfl rfl
      obtain ⟨new, forms₂, value, silent, touched, continues, spared⟩ :=
        forms₁.attach post types (own.trans idle) belongs alive first
      rw [← attach] at new forms₂ value silent continues
      have processor : (slot.after ⟨connection, true, slot.request.body⟩).processor = some u.memory.next := by
        show connection.con_cls.bind _ = _
        rw [object, ← new]
        exact congrArg (·.processor) request
      have continues : Continues touched u connection.user := by
        have start : Continues touched u { u with app := before } := .quiet rfl rfl rfl
        have last : Continues touched r.2 { r.2 with app := app } := .quiet rfl rfl rfl
        rw [user]
        exact (start.trans continues).trans last
      refine ⟨?_, fun slot' here => ?_, touched, continues, fun d q _ => spared d q⟩
      · show Forms connection.user _
        rw [Option.bind_some, processor, user]
        exact forms₂.quiet rfl rfl rfl rfl
      · rw [← Option.some.inj here]
        refine ⟨inPhase, started, fun co' p object' processor' => ⟨fp, ?_⟩⟩
        obtain rfl := Option.some.inj (object.symm.trans object')
        have same : co.request.processor = some u.memory.next := new ▸ congrArg (·.processor) request
        obtain rfl := Option.some.inj (same.symm.trans processor')
        rw [new] at request
        show Uploading post connection.user co connection.events u.memory.next fp
        rw [user]
        exact ⟨routed.trans (congrArg some belongs.symm), same, value, alive, request, [], uploaded, silent⟩
  | @later s s' remaining data left course waits offers call =>
    have object : slot.con_cls = some s.co := congrArg (·.con_cls) exchange
    obtain rfl : u = s.user := congrArg (·.user) exchange
    have events : slot.events = s.events := congrArg (·.events) exchange
    have before : slot.processor = s.co.request.processor := by rw [Slot.processor, object, Option.bind_some]
    cases processor : s.co.request.processor with
    | none =>
      obtain ⟨after, app, user⟩ := Later.without processor call
      exact without app user (before.trans processor) after
    | some p =>
      obtain ⟨o, uploading⟩ := formed.object s.co p object processor
      rw [events] at uploading
      have nonempty : data ≠ some [] := by
        cases offers with
        | body nonempty => exact fun same => nonempty (Option.some.inj same)
        | last => simp
      obtain ⟨o', keeps⟩ := Later.uploading uploading nonempty call
      obtain ⟨new, calls⟩ := keeps.calls
      have own : requests c = some p := own.trans (before.trans processor)
      obtain ⟨forms', continues, -⟩ := forms.work own uploading.object keeps.ctrl keeps.expired keeps.memory
        keeps.uploading.processor calls keeps.pp keeps.fault
      have after : (slot.after ⟨s'.toConnection, true,
          remaining.drop ((data.getD []).length - left)⟩).processor = some p := keeps.uploading.processor
      refine ⟨?_, fun slot' here => ?_, {p}, continues, fun d q other holding inside => ?_⟩
      · rw [Option.bind_some, after, ← own, Function.update_eq_self]
        exact forms'
      · rw [← Option.some.inj here]
        refine ⟨inPhase, started, fun co q object' processor' => ⟨o', ?_⟩⟩
        obtain rfl := Option.some.inj object'
        obtain rfl := Option.some.inj (keeps.uploading.processor.symm.trans processor')
        exact keeps.uploading
      · exact other (forms.apart d c p (Set.mem_singleton_iff.mp inside ▸ holding) own)

theorem connectionFinishCB_forms (forms : Forms u requests)
    (own : requests c = slot.processor) :
    let app : Application (FormState τ Ctrl S) Ctrl ℕ Resp :=
      formApplication errorHandler post types host router
    Advances post requests c u (connectionFinishCB app slot.con_cls u)
      (none : Option (Slot (ConnectionObject Ctrl ℕ Resp) ℕ Resp)) := by
  intro app
  have nothing : slot.processor = none → Advances post requests c u u
      (none : Option (Slot (ConnectionObject Ctrl ℕ Resp) ℕ Resp)) := by
    intro absent
    refine ⟨?_, fun slot here => (by cases here), ∅, .quiet rfl rfl rfl, fun _ _ _ _ => id⟩
    rw [Option.bind_none, ← absent, ← own, Function.update_eq_self]
    exact forms
  cases object : slot.con_cls with
  | none => exact nothing (by rw [Slot.processor, object, Option.bind_none])
  | some co =>
    have processor : slot.processor = co.request.processor := by rw [Slot.processor, object, Option.bind_some]
    rw [connectionFinishCB]
    cases here : co.request.processor with
    | none => exact nothing (processor.trans here)
    | some p =>
      have own := own.trans (processor.trans here)
      obtain ⟨forms', continues⟩ := forms.destroy post types own
      refine ⟨forms', fun slot here => (by cases here), {p}, continues, fun d q other holding inside => ?_⟩
      exact other (forms.apart d c p (Set.mem_singleton_iff.mp inside ▸ holding) own)

/-- A step of a connection. -/
theorem ConnectionStep.advances {before after : Option (Slot (ConnectionObject Ctrl ℕ Resp) ℕ Resp)}
    (forms : Forms u requests) (own : requests c = before.bind Slot.processor)
    (formed : ∀ slot, before = some slot → Formed post u slot)
    (step : ConnectionStep pcre (formApplication errorHandler post types host router) u before u' after) :
    Advances post requests c u u' after := by
  have quiet : ∀ after : Option (Slot (ConnectionObject Ctrl ℕ Resp) ℕ Resp), requests c = none →
      after.bind Slot.processor = none → (∀ slot, after = some slot → Formed post u slot) →
        Advances post requests c u u after := by
    intro after idle absent formed
    refine ⟨?_, formed, ∅, .quiet rfl rfl rfl, fun _ _ _ _ => id⟩
    rw [absent, ← idle, Function.update_eq_self]
    exact forms
  cases step with
  | receive i =>
    refine quiet _ own rfl fun slot here => ?_
    rw [← Option.some.inj here]
    exact ⟨.received i, fun _ => rfl, fun co p object => by cases object⟩
  | call step => exact (formed _ rfl).call forms own step
  | finish started => exact connectionFinishCB_forms forms own
  | @lost slot unstarted =>
    refine quiet none (own.trans ?_) rfl fun slot here => by cases here
    rw [Option.bind_some, Slot.processor, (formed _ rfl).fresh unstarted, Option.bind_none]

end Steps

section Server

variable [DecidableEq Ctrl]
  {errorHandler : Option (HttpRequest ℕ) → HttpStatusCode → HttpError → Str → τ → Option Resp × τ}
  {post : MHD_PostProcessor S} {types : Ctrl → FormController τ Resp} {host : Str} {router : Router Ctrl}
  {pcre : Pcre} {ι : Type} [DecidableEq ι]
  {s : Joint ι (FormState τ Ctrl S) (Option (Slot (ConnectionObject Ctrl ℕ Resp) ℕ Resp))}

/-- No processor at first. -/
structure FormState.Empty (u : FormState τ Ctrl S) : Prop where
  pp : ∀ ctrl, u.pp ctrl = none
  memory : ∀ b, u.memory.block b = none
  calls : u.calls = []
  fault : u.fault = false

theorem forms_of_reachable (reachable : (server pcre
    (formApplication errorHandler post types host router) ι FormState.Empty).Reachable s) :
    Forms s.shared (fun c => (s.own c).bind Slot.processor) ∧
      ∀ c slot, s.own c = some slot → Formed post s.shared slot := by
  have stable : (server pcre (formApplication errorHandler post types host router) ι
      FormState.Empty).Stable fun s => Forms s.shared (fun c => (s.own c).bind Slot.processor) ∧
        ∀ c slot, s.own c = some slot → Formed post s.shared slot := by
    rintro s ⟨u', own'⟩ - ⟨forms, formed⟩ ⟨c, own, step, next⟩
    obtain rfl : own' = _ := next
    obtain ⟨forms', formed', touched, continues, spared⟩ := step.advances forms rfl (formed c)
    refine ⟨?_, fun d slot busy => ?_⟩
    · have same : (fun d => (Function.update s.own c own d).bind Slot.processor) =
          Function.update (fun d => (s.own d).bind Slot.processor) c (own.bind Slot.processor) := by
        funext d
        by_cases this : d = c
        · rw [this, Function.update_self, Function.update_self]
        · rw [Function.update_of_ne this, Function.update_of_ne this]
      exact same ▸ forms'
    · have busy : Function.update s.own c own d = some slot := busy
      by_cases this : d = c
      · rw [this, Function.update_self] at busy
        exact formed' slot busy
      · rw [Function.update_of_ne this] at busy
        refine (formed d slot busy).frame continues fun p processor => spared d p this ?_
        rw [busy]
        exact processor
  refine stable.reachable (fun s first => ?_) reachable
  obtain ⟨empty, idle⟩ := first
  have idle : ∀ c, s.own c = none := idle
  have nobody : ∀ h, Sum.elim s.shared.pp (fun c => (s.own c).bind Slot.processor) h = none := by
    intro h
    cases h with
    | inl ctrl => exact empty.pp ctrl
    | inr c => rw [Sum.elim_inr, idle, Option.bind_none]
  have nothing : ∀ p o, s.shared.memory.value p ≠ some o := by
    intro p o found
    rw [Memory.value, empty.memory] at found
    cases found
  refine ⟨⟨.empty empty.memory nobody, fun c d p own => ?_, fun ctrl p o held => ?_,
    fun p o found => absurd found (nothing p o), fun e member => ?_, empty.fault⟩, fun c slot busy => ?_⟩
  · exact absurd ((nobody (.inr c)).symm.trans own) (by simp)
  · exact absurd ((empty.pp ctrl).symm.trans held) (by simp)
  · rw [empty.calls] at member
    exact absurd member List.not_mem_nil
  · exact absurd ((idle c).symm.trans busy) (by simp)

/-- No access to a processor goes wrong; the processors in memory are those of the requests and the last
ones of the controllers, the count of each is the number of those who have it, and no two requests share
one.  Only a processor that is gone tells its controller anything without a request, and any other one
tells it of its own request. -/
theorem form_processors (reachable : (server pcre
    (formApplication errorHandler post types host router) ι FormState.Empty).Reachable s) :
    s.shared.fault = false ∧
      (∀ p data, s.shared.memory.block p = some data → ∃ o, data = [⟨(holders
        (Sum.elim s.shared.pp fun c => (s.own c).bind Slot.processor) p).ncard, o⟩]) ∧
      (∀ p, (s.shared.memory.block p).isSome ↔ (∃ ctrl, s.shared.pp ctrl = some p) ∨
        ∃ c slot, s.own c = some slot ∧ slot.processor = some p) ∧
      (∀ ctrl p, s.shared.pp ctrl = some p → ∃ o, s.shared.memory.value p = some o ∧ o.ctrl_ = ctrl) ∧
      (∀ c c' slot slot' p, s.own c = some slot → s.own c' = some slot' → slot.processor = some p →
        slot'.processor = some p → c = c') ∧
      ∀ e ∈ s.shared.calls, (e.req = none → s.shared.memory.value e.processor = none) ∧
        ∀ req, e.req = some req → req.processor = some e.processor := by
  obtain ⟨forms, -⟩ := forms_of_reachable reachable
  have counts := forms.counts
  refine ⟨forms.fault, fun p data block => ?_, fun p => ?_, fun ctrl p held => ?_, ?_, fun e member => ?_⟩
  · rw [counts.block] at block
    obtain ⟨o, -, rfl⟩ := Option.map_eq_some_iff.mp block
    exact ⟨o, rfl⟩
  · rw [counts.block, Option.isSome_map, counts.held]
    constructor
    · rintro ⟨h, held⟩
      cases h with
      | inl ctrl => exact Or.inl ⟨ctrl, held⟩
      | inr c =>
        obtain ⟨slot, busy, processor⟩ := Option.bind_eq_some_iff.mp held
        exact Or.inr ⟨c, slot, busy, processor⟩
    · rintro (⟨ctrl, held⟩ | ⟨c, slot, busy, processor⟩)
      · exact ⟨.inl ctrl, held⟩
      · exact ⟨.inr c, Option.bind_eq_some_iff.mpr ⟨slot, busy, processor⟩⟩
  · have held' : Sum.elim s.shared.pp (fun c => (s.own c).bind Slot.processor) (.inl ctrl) = some p := held
    obtain ⟨o, value⟩ := counts.value_of_held held'
    exact ⟨o, value, forms.controllers ctrl p o held value⟩
  · intro c c' slot slot' p busy busy' processor processor'
    refine forms.apart c c' p ?_ ?_
    · exact Option.bind_eq_some_iff.mpr ⟨slot, busy, processor⟩
    · exact Option.bind_eq_some_iff.mpr ⟨slot', busy', processor'⟩
  · exact ⟨(forms.calls e member).gone, (forms.calls e member).own⟩

end Server

/-! ### Two forms -/

/-- The post processor hands over these pairs, until the controller stops it. -/
def passPairs : List (Str × Str) → Calling FormPiece MHD_Return (MHD_Return × Unit)
  | [] => .done (.MHD_OK, ())
  | (key, data) :: later => .call ⟨some key, none, none, none, data, 0⟩ fun
    | .MHD_OK => passPairs later
    | .MHD_FAILED => .done (.MHD_FAILED, ())

/-- A post processor for data that comes in pairs with an ampersand behind each. -/
def pairsPost : MHD_PostProcessor Unit where
  create conn := if conn.header CPPMHD_HTTP_HEADER_CONTENT_TYPE = some
    CPPMHD_HTTP_MIME_APPLICATION_FORM_URLENCODED then some () else none
  process _ bytes := passPairs (((bytes.splitOn '&').filter (· ≠ [])).map fun part =>
    (part.takeWhile (· ≠ '='), (part.dropWhile (· ≠ '=')).tail))
  destroy _ := .done ()

/-- A server with a controller for forms for `PUT /up`. -/
def pairsApplication : Application (FormState Unit ℕ Unit) ℕ ℕ ℕ :=
  formApplication (fun _ _ _ _ _ => (none, ())) pairsPost
    (fun _ => ⟨fun _ _ => (), fun _ _ _ => (true, ()), fun _ _ _ => (some 200, ())⟩) []
    (Router.buildTree anyPcre [] ⟨[(.PUT, "/up".toList, 1)]⟩).1

def formOf (body : Str) : Incoming :=
  { uploadOf body with conn := ⟨fun name => if name = CPPMHD_HTTP_HEADER_CONTENT_TYPE then
    some CPPMHD_HTTP_MIME_APPLICATION_FORM_URLENCODED else none⟩ }

/-- Two requests to it, whose bodies arrive in turns. -/
def twoForms : List (Move Bool) :=
  [.receive true (formOf "a=x&b=y&".toList), .receive false (formOf "c=z&".toList), .call true none,
    .call false none, .call true (some "a=x&".toList), .call false (some "c=z&".toList),
    .call true (some "b=y&".toList), .call true none]

theorem form_processors_turns :
    ∃ s : Joint Bool (FormState Unit ℕ Unit) (Option (Slot (ConnectionObject ℕ ℕ ℕ) ℕ ℕ)),
      s.shared.fault = false ∧ (s.shared.memory.block 0).isSome ∧ (s.shared.memory.block 1).isSome := by
  let start : Joint Bool (FormState Unit ℕ Unit) (Option (Slot (ConnectionObject ℕ ℕ ℕ) ℕ ℕ)) :=
    ⟨⟨(), fun _ => none, ⟨fun _ => none, 0⟩, [], false⟩, fun _ => none⟩
  have initial : (server anyPcre pairsApplication Bool FormState.Empty).Reachable start :=
    .of_init ⟨⟨fun _ => rfl, fun _ => rfl, rfl, rfl⟩, fun _ => rfl⟩
  have run : (serve anyPcre pairsApplication twoForms start).map (fun s =>
      ((s.own true).bind Slot.processor, (s.own false).bind Slot.processor)) = some (some 0, some 1) := by
    decide +kernel
  obtain ⟨s, run, seen⟩ := Option.map_eq_some_iff.mp run
  obtain ⟨first, second⟩ := Prod.mk.inj seen
  have reachable := reachable_of_serve initial run
  obtain ⟨sound, -, held, -⟩ := form_processors reachable
  obtain ⟨slot, busy, processor⟩ := Option.bind_eq_some_iff.mp first
  obtain ⟨slot', busy', processor'⟩ := Option.bind_eq_some_iff.mp second
  exact ⟨s, sound, (held 0).mpr (Or.inr ⟨true, slot, busy, processor⟩),
    (held 1).mpr (Or.inr ⟨false, slot', busy', processor'⟩)⟩

end Cppmhd
