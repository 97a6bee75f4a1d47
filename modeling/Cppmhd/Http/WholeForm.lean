import Cppmhd.Http.FormServer

/-!
# Whole forms

A controller is told what MHD's post processor makes of the whole body of a request, and then of its end,
before the handler is asked (`form_handled`).
-/

open Runs Heap

namespace Cppmhd

variable {τ Ctrl S Resp : Type}

/-! ## The whole form -/

/-- The post processor of a connection makes these pieces of these chunks, and accepts all of them. -/
inductive Extracts (post : MHD_PostProcessor S) (conn : MHD_Connection) :
    List Str → List FormPiece → S → Prop
  | create {pp_ : S} (created : post.create conn = some pp_) : Extracts post conn [] [] pp_
  | process {chunks : List Str} {pieces : List FormPiece} {pp_ pp_' : S} {bytes : Str}
      {made : List (FormPiece × MHD_Return)} (extracts : Extracts post conn chunks pieces pp_)
      (makes : (post.process pp_ bytes).Makes made (.MHD_OK, pp_')) :
      Extracts post conn (chunks ++ [bytes]) (pieces ++ made.map Prod.fst) pp_'

/-- The bytes that a processor is offered. -/
def Event.chunk : Event ℕ Resp → Option Str
  | .onData _ bytes _ => bytes
  | _ => none

/-- A processor is told of the end of the body. -/
def Event.isEnd : Event ℕ Resp → Bool
  | .onData _ none _ => true
  | _ => false

section Whole

variable {post : MHD_PostProcessor S} {conn : MHD_Connection} {events new : List (Event ℕ Resp)} {pp_ : S}
  {names : FormProcessor} {calls : List FormCall}

theorem Event.not_end {event : Event ℕ Resp} (silent : event.isData = false) : event.isEnd = false := by
  cases event with
  | onData => cases silent
  | errorHandler | onConnection | onRequest | header | queued => rfl

theorem delivered_of_no_data (silent : ∀ event ∈ new, event.isData = false) : delivered new = [] := by
  refine delivered_of_no_offer fun event member => ?_
  have here := silent event member
  cases event with
  | onData => cases here
  | errorHandler | onConnection | onRequest | header | queued => rfl

theorem chunks_silent (silent : ∀ event ∈ new, event.isData = false) : new.filterMap Event.chunk = [] := by
  rw [List.filterMap_eq_nil_iff]
  intro event member
  have here := silent event member
  cases event with
  | onData => cases here
  | errorHandler | onConnection | onRequest | header | queued => rfl

theorem any_end_silent (silent : ∀ event ∈ new, event.isEnd = false) : new.any Event.isEnd = false := by
  rw [List.any_eq_false]
  exact fun event member ends => absurd ((silent event member).symm.trans ends) (by simp)

/-- Behind the end of the body no processor is called. -/
def EndsLast (events : List (Event ℕ Resp)) : Prop :=
  ∀ before event after, events = before ++ event :: after → event.isEnd = true →
    ∀ event ∈ after, event.isData = false

theorem EndsLast.of_append (last : EndsLast (events ++ new)) : EndsLast events := by
  intro before event after split ends later member
  refine last before event (after ++ new) ?_ ends later (List.mem_append_left _ member)
  rw [split, List.append_assoc, List.cons_append]

/-- Where a processor is called, the end of the body was not told. -/
theorem EndsLast.not_ended {event : Event ℕ Resp} (last : EndsLast (events ++ [event]))
    (data : event.isData = true) : events.any Event.isEnd = false := by
  rw [List.any_eq_false]
  intro early member ends
  obtain ⟨before, after, rfl⟩ := List.append_of_mem member
  have silent := last before early (after ++ [event]) (by simp) ends event (by simp)
  rw [data] at silent
  cases silent

/-- What an upload that goes well has told the controller. -/
theorem Uploaded.pieces (uploaded : Uploaded post conn events pp_ names calls)
    (good : ∀ pp bytes, .onData pp (some bytes) DataProcessorParseFailed ∉ events)
    (small : ∀ pp bytes result, .onData pp (some bytes) result ∈ events → bytes.length < UInt64.size)
    (last : EndsLast events) :
    ∃ pieces, Extracts post conn (events.filterMap Event.chunk) pieces pp_ ∧
      (events.filterMap Event.chunk).flatten = delivered events ∧
        names = ({} : FormProcessor).after pieces ∧
          calls = ({} : FormProcessor).told pieces ++
            if events.any Event.isEnd then [names.finishing] else [] := by
  induction uploaded with
  | create created => exact ⟨[], .create created, rfl, rfl, rfl⟩
  | quiet uploaded silent ih =>
    obtain ⟨pieces, extracts, whole, names, calls⟩ :=
      ih (fun pp bytes member => good pp bytes (List.mem_append_left _ member))
        (fun pp bytes result member => small pp bytes result (List.mem_append_left _ member)) last.of_append
    have chunks := chunks_silent silent
    have ends := any_end_silent fun event member => Event.not_end (silent event member)
    refine ⟨pieces, ?_, ?_, names, ?_⟩
    · rw [List.filterMap_append, chunks, List.append_nil]
      exact extracts
    · rw [List.filterMap_append, chunks, List.append_nil, whole, delivered_append,
        delivered_of_no_data silent, List.append_nil]
    · rw [List.any_append, ends, Bool.or_false]
      exact calls
  | @body events pp_ pp_' names calls p bytes made result uploaded nonempty makes ih =>
    obtain ⟨pieces, extracts, whole, rfl, rfl⟩ :=
      ih (fun pp bytes member => good pp bytes (List.mem_append_left _ member))
        (fun pp bytes result member => small pp bytes result (List.mem_append_left _ member)) last.of_append
    have open_ := last.not_ended rfl
    obtain rfl : result = .MHD_OK := by
      cases result with
      | MHD_OK => rfl
      | MHD_FAILED => exact absurd (List.mem_append_right _ (List.mem_singleton_self _)) (good p bytes)
    refine ⟨pieces ++ made.map Prod.fst, ?_, ?_, ?_, ?_⟩
    · rw [List.filterMap_append]
      exact extracts.process makes
    · have taken : (UInt64.ofNat bytes.length).toNat = bytes.length :=
        UInt64.toNat_ofNat_of_lt' (small p bytes _ (List.mem_append_right _ (List.mem_singleton_self _)))
      have accepted : UInt64.ofNat bytes.length ≠ DataProcessorParseFailed := fun failed =>
        good p bytes (List.mem_append_right _ (List.mem_singleton.mpr (by rw [if_pos rfl, failed])))
      have slice : delivered [(.onData p (some bytes) (.ofNat bytes.length) : Event ℕ Resp)] = bytes := by
        rw [delivered, List.flatMap_singleton, Event.slice, if_neg accepted, taken, List.take_length]
      rw [if_pos rfl, List.filterMap_append, List.flatten_append, whole, delivered_append, slice]
      exact congrArg _ (List.append_nil bytes)
    · rw [FormProcessor.after_append]
    · rw [open_, List.any_append, open_, FormProcessor.told_append]
      simp [Event.isEnd]
  | @finish events pp_ names calls p uploaded ih =>
    obtain ⟨pieces, extracts, whole, rfl, rfl⟩ :=
      ih (fun pp bytes member => good pp bytes (List.mem_append_left _ member))
        (fun pp bytes result member => small pp bytes result (List.mem_append_left _ member)) last.of_append
    have open_ := last.not_ended rfl
    have nothing : [(.onData p none 0 : Event ℕ Resp)].filterMap Event.chunk = [] := rfl
    refine ⟨pieces, ?_, ?_, rfl, ?_⟩
    · rw [List.filterMap_append, nothing, List.append_nil]
      exact extracts
    · rw [List.filterMap_append, nothing, List.append_nil, whole, delivered_append]
      exact (List.append_nil _).symm
    · rw [open_, List.any_append]
      simp [Event.isEnd]

/-- One event between calls that do not tell the end and what calls no processor. -/
theorem endsLast_of_silent {early after : List (Event ℕ Resp)} {event : Event ℕ Resp}
    (goes : ∀ event ∈ early, event.isEnd = false) (silent : ∀ event ∈ after, event.isData = false) :
    EndsLast (early ++ event :: after) := by
  intro before end_ later split ends
  have quiet : end_ ∉ after := fun member =>
    absurd ((Event.not_end (silent end_ member)).symm.trans ends) (by simp)
  rcases List.append_eq_append_iff.mp split with ⟨rest, rfl, same⟩ | ⟨rest, rfl, same⟩
  · cases rest with
    | nil =>
      obtain ⟨-, rfl⟩ := List.cons.inj same
      exact silent
    | cons first rest =>
      obtain ⟨-, rfl⟩ := List.cons.inj same
      exact absurd (List.mem_append_right _ List.mem_cons_self) quiet
  · cases rest with
    | nil =>
      obtain ⟨-, rfl⟩ := List.cons.inj same
      exact silent
    | cons first rest =>
      obtain ⟨rfl, -⟩ := List.cons.inj same
      have none := goes end_ (List.mem_append_right _ List.mem_cons_self)
      exact absurd (none.symm.trans ends) (by simp)

/-- The calls up to where the handler is asked. -/
theorem Ready.form {body : Str} {state : RequestState} {before after : List (Event ℕ Resp)}
    (ready : Ready body state before) (silent : ∀ event ∈ after, event.isData = false) :
    EndsLast (before ++ after) ∧ delivered (before ++ after) = body ∧
      (before ++ after).any Event.isEnd = !body.isEmpty := by
  have still : ∀ event ∈ after, event.isEnd = false := fun event member => Event.not_end (silent event member)
  rw [delivered_append, delivered_of_no_data silent, List.append_nil, List.any_append, any_end_silent still,
    Bool.or_false]
  refine ⟨?_, ready.whole.1, ?_⟩
  · cases ready with
    | empty opened empty =>
      intro first end_ later split ends
      have member : end_ ∈ before ++ after := split ▸ List.mem_append_right _ List.mem_cons_self
      rcases List.mem_append.mp member with member | member
      · exact absurd ((Event.not_end (opened.no_data end_ member)).symm.trans ends) (by simp)
      · exact absurd ((still end_ member).symm.trans ends) (by simp)
    | @upload opening calls pp result opened accepted nonempty whole =>
      rw [List.append_assoc]
      refine endsLast_of_silent (fun event member => ?_) silent
      rcases List.mem_append.mp member with member | member
      · exact Event.not_end (opened.no_data event member)
      · have here := accepted event member
        cases event with
        | onData pp bytes result =>
          cases bytes with
          | none => exact absurd here id
          | some bytes => rfl
        | errorHandler | onConnection | onRequest | header | queued => rfl
  · cases ready with
    | empty opened empty =>
      rw [any_end_silent fun event member => Event.not_end (opened.no_data event member), empty]
      rfl
    | upload opened accepted nonempty whole =>
      rw [List.any_append]
      simp [Event.isEnd, nonempty]

end Whole

section Handled

variable [DecidableEq Ctrl]
  {errorHandler : Option (HttpRequest ℕ) → HttpStatusCode → HttpError → Str → τ → Option Resp × τ}
  {post : MHD_PostProcessor S} {types : Ctrl → FormController τ Resp} {host : Str} {router : Router Ctrl}
  {pcre : Pcre} {ι : Type} [DecidableEq ι]
  {s : Joint ι (FormState τ Ctrl S) (Option (Slot (ConnectionObject Ctrl ℕ Resp) ℕ Resp))}

/-- When the handler of a request with a form processor is to be asked, its controller was told of the
pieces that MHD's post processor makes of the whole body, in their order and each under the last names
that were passed for this request, then of its end, and of nothing else; all of it came with this request,
whatever the other requests did in between. -/
theorem form_handled (reachable : (server pcre
    (formApplication errorHandler post types host router) ι FormState.Empty).Reachable s) {c : ι}
    {slot : Slot (ConnectionObject Ctrl ℕ Resp) ℕ Resp} {co : ConnectionObject Ctrl ℕ Resp} {p : ℕ}
    (busy : s.own c = some slot) (object : slot.con_cls = some co) (processor : co.request.processor = some p)
    (complete : co.request.state.Complete) (whole : slot.remaining = []) :
    ∃ o chunks pieces, s.shared.memory.value p = some o ∧ co.ctrl = some o.ctrl_ ∧
      Extracts post co.request.conn chunks pieces o.pp_ ∧ chunks.flatten = slot.request.body ∧
        s.shared.calls.filter (·.processor = p) = (({} : FormProcessor).told pieces ++
          if slot.request.body = [] then [] else [(({} : FormProcessor).after pieces).finishing]).map
            (ControllerCall.mk p (some co.request.toHttpRequest)) := by
  have formed := (forms_of_reachable reachable).2 c slot busy
  obtain ⟨o, uploading⟩ := formed.object co p object processor
  obtain ⟨calls, uploaded, told⟩ := uploading.uploaded
  have phase := formed.inPhase.phase s.shared
  generalize exchange : slot.exchange s.shared = e at phase
  cases phase with
  | fresh =>
    have absent : slot.con_cls = none := congrArg (·.con_cls) exchange
    exact absurd (absent.symm.trans object) (by simp)
  | refused initial =>
    have state := initial co (by rw [← object]; exact (congrArg (·.con_cls) exchange).symm)
    rw [state] at complete
    exact absurd complete (by simp [RequestState.Complete])
  | @later t remaining course =>
    obtain rfl : t.co = co := Option.some.inj ((congrArg (·.con_cls) exchange).symm.trans object)
    have rest : remaining = [] := (congrArg (·.remaining) exchange).symm.trans whole
    obtain ⟨state, before, after, ready, events, silent⟩ := course.ready complete rest
    have events : slot.events = before ++ after := (congrArg (·.events) exchange).trans events
    obtain ⟨last, body, ends⟩ := ready.form silent
    rw [← events] at last body ends
    have good : ∀ pp bytes, .onData pp (some bytes) DataProcessorParseFailed ∉ slot.events := by
      intro pp bytes member
      rw [events] at member
      rcases List.mem_append.mp member with member | member
      · exact ready.not_failed pp bytes member
      · exact absurd (silent _ member) (by simp [Event.isData])
    have fits : ∀ pp bytes result, .onData pp (some bytes) result ∈ slot.events → bytes.length < UInt64.size :=
      (formed.inPhase.account s.shared).sized
    obtain ⟨pieces, extracts, flat, names, rfl⟩ := uploaded.pieces good fits last
    refine ⟨o, _, pieces, uploading.object, uploading.routed, ?_, flat.trans body, ?_⟩
    · have conn : t.co.request.conn = o.req.conn := congrArg (·.conn) uploading.request
      rw [conn]
      exact extracts
    · rw [told, ends, names]
      by_cases empty : slot.request.body = []
      · rw [if_pos empty, empty]
        rfl
      · rw [if_neg empty, if_pos (by simp [empty])]

theorem form_handled_turns : ∃ (u : FormState Unit ℕ Unit) (req : HttpRequest ℕ) (chunks : List Str)
    (pieces : List FormPiece), Extracts pairsPost req.conn chunks pieces () ∧
      chunks.flatten = "a=x&b=y&".toList ∧ u.calls.filter (·.processor = 0) =
        (({} : FormProcessor).told pieces ++ [(({} : FormProcessor).after pieces).finishing]).map
          (ControllerCall.mk 0 (some req)) := by
  obtain ⟨s, reachable, slot, busy, seen⟩ :
      ∃ s, (server anyPcre pairsApplication Bool FormState.Empty).Reachable s ∧
        ∃ slot, s.own true = some slot ∧
          (slot.con_cls.map fun co => (co.request.state, co.request.processor), slot.remaining,
            slot.request.body) = (some (.DATA_RECEIVED, some 0), [], "a=x&b=y&".toList) :=
    serve_run twoForms ⟨(), fun _ => none, ⟨fun _ => none, 0⟩, [], false⟩
      ⟨fun _ => rfl, fun _ => rfl, rfl, rfl⟩ (by decide +kernel)
  obtain ⟨object, rest⟩ := Prod.mk.inj seen
  obtain ⟨whole, body⟩ := Prod.mk.inj rest
  obtain ⟨co, object, state⟩ := Option.map_eq_some_iff.mp object
  obtain ⟨state, processor⟩ := Prod.mk.inj state
  obtain ⟨o, chunks, pieces, -, -, extracts, flat, told⟩ :=
    form_handled reachable busy object processor (Or.inr state) whole
  rw [if_neg (by rw [body]; decide)] at told
  exact ⟨s.shared, co.request.toHttpRequest, chunks, pieces, extracts, flat.trans body, told⟩

end Handled

end Cppmhd
