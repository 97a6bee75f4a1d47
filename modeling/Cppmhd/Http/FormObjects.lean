import Cppmhd.Heap.Shared
import Cppmhd.Http.ContentType
import Cppmhd.Http.Server
import Cppmhd.Runs.Callbacks

/-!
# Controllers for forms

`FormDataProcessorController` of `controller.cc` attaches a `FormProcessor` to the requests whose body is
a form, and keeps a second shared pointer to the last one.  With the last pointer goes the processor, and
MHD's post processor may call the controller once more.  What is attached, used and let go keeps the
processors in memory to those that somebody holds (`Forms`).
-/

open Runs Heap

namespace Cppmhd

variable {τ Ctrl S Resp ρ : Type}

/-! ## The classes -/

/-- The arguments of `formIter` that MHD's post processor passes, `none` for a null pointer. -/
structure FormPiece where
  key : Option Str
  fileName : Option Str
  contentType : Option Str
  transferEncoding : Option Str
  data : Str
  off : ℕ

/-- MHD's post processors, which call `formIter` when they process data, and may do so when they are
destroyed. -/
structure MHD_PostProcessor (S : Type) where
  create : MHD_Connection → Option S
  process : S → Str → Calling FormPiece MHD_Return (MHD_Return × S)
  destroy : S → Calling FormPiece MHD_Return Unit

/-- A class that derives from `FormDataProcessorController`.  `onData` is without a request where
`data_.req.lock()` is null.  `τ` is what the classes share with the rest of the application. -/
structure FormController (τ Resp : Type) where
  postConnection : HttpRequest ℕ → τ → τ
  onData : Option (HttpRequest ℕ) → FormCall → τ → Bool × τ
  onRequest : HttpRequest ℕ → Option Resp → τ → Option Resp × τ

/-- Source `FormProcessor`.  `req` is what `data_.req` points to, until the request is gone. -/
structure FormObject (Ctrl S : Type) where
  ctrl_ : Ctrl
  req : HttpRequest ℕ
  expired : Bool := false
  pp_ : S
  names : FormProcessor := {}

/-- A call of `FormDataProcessorController::onData`, and which processor made it. -/
structure ControllerCall where
  processor : ℕ
  req : Option (HttpRequest ℕ)
  call : FormCall

/-- The state of user code: the rest of the application, the member `pp` of every controller, the
processors in memory, and the calls so far.  `fault` tells of an access to what is no processor. -/
structure FormState (τ Ctrl S : Type) where
  app : τ
  pp : Ctrl → Option ℕ
  memory : Memory (Counted (FormObject Ctrl S))
  calls : List ControllerCall := []
  fault : Bool := false

/-- `data_.req.lock()` of the processor at `p`. -/
def FormObject.lock (o : FormObject Ctrl S) (p : ℕ) : Option (HttpRequest ℕ) :=
  if o.expired then none else some { o.req with processor := some p }

/-- A computation of MHD's post processor, with `formIter`. -/
def postProcess (t : Calling FormPiece MHD_Return ρ) (ctrl : FormDataProcessorController τ) (f : Form τ) :
    ρ × Form τ :=
  t.run (fun piece f => formIter ctrl piece.key piece.fileName piece.contentType piece.transferEncoding
    piece.data piece.off f) f

section Code

variable [DecidableEq Ctrl]
  (errorHandler : Option (HttpRequest ℕ) → HttpStatusCode → HttpError → Str → τ → Option Resp × τ)
  (post : MHD_PostProcessor S) (types : Ctrl → FormController τ Resp)

namespace FormState

/-- What the processor `o` at `p` does, where its calls come with the request `req`. -/
def work (u : FormState τ Ctrl S) (p : ℕ) (o : FormObject Ctrl S) (req : Option (HttpRequest ℕ))
    (act : FormDataProcessorController τ → Form τ → ρ × Form τ) :
    ρ × FormProcessor × FormState τ Ctrl S :=
  let r := act ⟨(types o.ctrl_).onData req⟩ { processor := o.names, user := u.app }
  (r.1, r.2.processor,
    { u with app := r.2.user, calls := u.calls ++ r.2.calls.map (ControllerCall.mk p req) })

/-- Releases a shared pointer, if it is not null.  With the last one goes the processor: source
`~FormProcessor`. -/
def drop (u : FormState τ Ctrl S) : Option ℕ → FormState τ Ctrl S
  | none => u
  | some p =>
    match u.memory.release p with
    | some (none, memory) => { u with memory := memory }
    | some (some o, memory) =>
      { (u.work types p o (o.lock p) (postProcess (post.destroy o.pp_))).2.2 with memory := memory }
    | none => { u with fault := true }

/-- The processor `fp` is new: `pp = std::shared_ptr<DataProcessor>(fp); req->setProcessor(pp);`, where no
other call writes the member in between. -/
def attach (u : FormState τ Ctrl S) (ctrl : Ctrl) (fp : FormObject Ctrl S) :
    Option ℕ × FormState τ Ctrl S :=
  let before := u.pp ctrl
  let u := { u with pp := Function.update u.pp ctrl (some u.memory.next), memory := u.memory.share fp }
  let u := u.drop post types before
  -- the request gets what the member is by now
  match u.pp ctrl with
  | none => (none, u.drop post types fp.req.processor)
  | some p =>
    match u.memory.retain p with
    | some memory => (some p, drop post types { u with memory := memory } fp.req.processor)
    | none => (some p, { u with fault := true })

/-- Source `FormProcessor::onData`, the override. -/
def onData (u : FormState τ Ctrl S) (p : ℕ) (req : HttpRequest ℕ) (data : Str) :
    SizeT × FormState τ Ctrl S :=
  match u.memory.value p with
  | none => (0, { u with fault := true })
  | some o =>
    if data.length = 0 then (0, (u.work types p o (some req) fun ctrl f => ((), Form.finish ctrl f)).2.2)
    else
      let ((result, pp_), names, u) := u.work types p o (o.lock p) (postProcess (post.process o.pp_ data))
      (if result = .MHD_OK then .ofNat data.length else DataProcessorParseFailed,
        { u with memory := u.memory.modify p { o with pp_ := pp_, names := names } })

/-- The end of a request with the processor `p`, to which weak pointers are null from then on. -/
def destroy (u : FormState τ Ctrl S) (p : ℕ) : FormState τ Ctrl S :=
  match u.memory.value p with
  | some o => drop post types { u with memory := u.memory.modify p { o with expired := true } } (some p)
  | none => { u with fault := true }

end FormState

/-- User code with these controllers.  A processor is a pointer.  The error handler and the classes neither
set nor use the processor of a request themselves, nor do they keep a request. -/
def formCode : UserCode (FormState τ Ctrl S) Ctrl ℕ Resp where
  errorHandler req sc error msg u :=
    let r := errorHandler req sc error msg u.app
    ⟨r.1, req.bind (·.processor), { u with app := r.2 }⟩
  onConnection ctrl req resp u :=
    let ct := req.conn.header CPPMHD_HTTP_HEADER_CONTENT_TYPE
    if isPrefixOfArray ct CPPMHD_HTTP_MIME_APPLICATION_FORM_URLENCODED ||
        isPrefixOfArray ct CPPMHD_HTTP_MIME_MULTIPART_FORM_DATA then
      match post.create req.conn with
      | some pp_ =>
        let (p, u) := u.attach post types ctrl { ctrl_ := ctrl, req := req, pp_ := pp_ }
        ⟨resp, p, { u with app := (types ctrl).postConnection { req with processor := p } u.app }⟩
      | none => ⟨resp, req.processor, u⟩
    else ⟨resp, req.processor, u⟩
  onRequest ctrl req resp u :=
    let r := (types ctrl).onRequest req resp u.app
    ⟨r.1, req.processor, { u with app := r.2 }⟩
  onData pp req bytes u :=
    let r := u.onData post types pp req (bytes.getD [])
    ⟨r.1, req.processor, r.2⟩

/-- The server of an application with these controllers. -/
def formApplication (host : Str) (router : Router Ctrl) :
    Application (FormState τ Ctrl S) Ctrl ℕ Resp where
  host := host
  router := router
  code := formCode errorHandler post types
  destroy p u := u.destroy post types p

end Code

/-! ## What a controller is told -/

namespace FormProcessor

/-- The names behind a call of `formIter`. -/
def take (names : FormProcessor) (piece : FormPiece) : FormProcessor :=
  ⟨assign names.kN piece.key, assign names.fN piece.fileName, assign names.cT piece.contentType,
    assign names.tE piece.transferEncoding⟩

/-- The names behind some calls. -/
def after (names : FormProcessor) (pieces : List FormPiece) : FormProcessor := pieces.foldl take names

/-- What the controller is told of some pieces, of each under the last names that were passed. -/
def told (names : FormProcessor) : List FormPiece → List FormCall
  | [] => []
  | piece :: later =>
    let names := names.take piece
    ⟨names.kN, names.fN, names.cT, names.tE, some piece.data, piece.off, piece.data.length, false⟩ ::
      names.told later

/-- What the controller is told at the end. -/
def finishing (names : FormProcessor) : FormCall :=
  ⟨names.kN, names.fN, names.cT, names.tE, none, 0, 0, true⟩

theorem after_append (names : FormProcessor) (first last : List FormPiece) :
    names.after (first ++ last) = (names.after first).after last := List.foldl_append

theorem told_append (names : FormProcessor) (first last : List FormPiece) :
    names.told (first ++ last) = names.told first ++ (names.after first).told last := by
  induction first generalizing names with
  | nil => rfl
  | cons piece later ih =>
    rw [List.cons_append, told, told, ih]
    rfl

end FormProcessor

/-- A computation of the post processor passes some pieces, and the controller is told of them. -/
theorem postProcess_spec (t : Calling FormPiece MHD_Return ρ) (ctrl : FormDataProcessorController τ)
    (f : Form τ) : ∃ calls, t.Makes calls (postProcess t ctrl f).1 ∧
      (postProcess t ctrl f).2.processor = f.processor.after (calls.map Prod.fst) ∧
        (postProcess t ctrl f).2.calls = f.calls ++ f.processor.told (calls.map Prod.fst) := by
  have fold : ∀ (pieces : List FormPiece) (names : FormProcessor) (before : List FormCall),
      pieces.foldl (fun view piece => (view.1.take piece, view.2 ++ view.1.told [piece])) (names, before) =
        (names.after pieces, before ++ names.told pieces) := by
    intro pieces
    induction pieces with
    | nil => exact fun names before => Prod.ext rfl (List.append_nil _).symm
    | cons piece later ih =>
      intro names before
      rw [List.foldl_cons, ih, List.append_assoc]
      rfl
  obtain ⟨calls, makes, seen⟩ := Calling.run_view (fun piece f => formIter ctrl piece.key piece.fileName
    piece.contentType piece.transferEncoding piece.data piece.off f) (fun f => (f.processor, f.calls))
    (fun view piece => (view.1.take piece, view.2 ++ view.1.told [piece])) (fun piece f => rfl) t f
  rw [fold] at seen
  obtain ⟨names, calls'⟩ := Prod.mk.inj seen
  exact ⟨calls, makes, names, calls'⟩

/-! ## The processors in memory -/

/-- Only a processor that is gone called without a request, and any other one with its own request. -/
structure ControllerCall.Sound (m : Memory (Counted (FormObject Ctrl S))) (e : ControllerCall) : Prop where
  gone : e.req = none → m.value e.processor = none
  own : ∀ req, e.req = some req → req.processor = some e.processor
  old : e.processor < m.next

/-- An operation on some processors, which alone call their controllers. -/
structure Continues (touched : Set ℕ) (u u' : FormState τ Ctrl S) : Prop where
  next : u.memory.next ≤ u'.memory.next
  values : ∀ q, q ∉ touched → u'.memory.value q = u.memory.value q
  dead : ∀ q, q < u.memory.next → u.memory.value q = none → u'.memory.value q = none
  calls : ∃ new, u'.calls = u.calls ++ new ∧ ∀ e ∈ new, e.processor ∈ touched ∧ e.Sound u'.memory

section Continues

variable {touched touched' : Set ℕ} {u u' u'' : FormState τ Ctrl S} {e : ControllerCall}

theorem ControllerCall.Sound.later (sound : e.Sound u.memory) (continues : Continues touched u u') :
    e.Sound u'.memory :=
  ⟨fun lost => continues.dead _ sound.old (sound.gone lost), sound.own, sound.old.trans_le continues.next⟩

/-- What changes neither the processors nor the calls. -/
theorem Continues.quiet (next : u'.memory.next = u.memory.next) (value : u'.memory.value = u.memory.value)
    (calls : u'.calls = u.calls) : Continues touched u u' :=
  ⟨next.ge, fun q _ => by rw [value], fun q _ dead => by rwa [value], [], by rw [calls, List.append_nil],
    fun e member => absurd member List.not_mem_nil⟩

theorem Continues.trans (first : Continues touched u u') (second : Continues touched u' u'') :
    Continues touched u u'' := by
  obtain ⟨new, calls, sound⟩ := first.calls
  obtain ⟨new', calls', sound'⟩ := second.calls
  refine ⟨first.next.trans second.next, fun q foreign => ?_, fun q old dead => ?_, new ++ new', ?_,
    fun e member => ?_⟩
  · rw [second.values q foreign, first.values q foreign]
  · exact second.dead q (old.trans_le first.next) (first.dead q old dead)
  · rw [calls', calls, List.append_assoc]
  · rcases List.mem_append.mp member with member | member
    · exact ⟨(sound e member).1, (sound e member).2.later second⟩
    · exact sound' e member

theorem Continues.mono (continues : Continues touched u u') (more : touched ⊆ touched') :
    Continues touched' u u' := by
  obtain ⟨new, calls, sound⟩ := continues.calls
  exact ⟨continues.next, fun q foreign => continues.values q fun inside => foreign (more inside),
    continues.dead, new, calls, fun e member => ⟨more (sound e member).1, (sound e member).2⟩⟩

/-- The calls of a processor that is not touched stay as they are. -/
theorem Continues.calls_of (continues : Continues touched u u') {p : ℕ} (foreign : p ∉ touched) :
    u'.calls.filter (·.processor = p) = u.calls.filter (·.processor = p) := by
  obtain ⟨new, calls, sound⟩ := continues.calls
  have none : new.filter (·.processor = p) = [] := by
    rw [List.filter_eq_nil_iff]
    intro e member same
    exact foreign (of_decide_eq_true same ▸ (sound e member).1)
  rw [calls, List.filter_append, none, List.append_nil]

end Continues

section Drop

variable {post : MHD_PostProcessor S} {types : Ctrl → FormController τ Resp} {η : Type} [DecidableEq η]
  {holds : η → Option ℕ} {h : η} {u : FormState τ Ctrl S} {x : Option ℕ}

/-- What happens where a holder lets its pointer go. -/
structure Dropped (holds : η → Option ℕ) (h : η) (u u' : FormState τ Ctrl S) : Prop where
  counts : Counts u'.memory (Function.update holds h none)
  pp : u'.pp = u.pp
  fault : u'.fault = u.fault
  values : ∀ q o, u'.memory.value q = some o → u.memory.value q = some o
  continues : ∃ touched, Continues touched u u' ∧ touched ⊆ {q | holds h = some q} ∧
    ∀ g q, g ≠ h → holds g = some q → q ∉ touched

/-- A processor that nobody else holds has no request any more. -/
theorem drop_spec (counts : Counts u.memory holds) (here : holds h = x)
    (last : ∀ p o, x = some p → u.memory.value p = some o → (∀ g, g ≠ h → holds g ≠ some p) →
      o.expired = true) : Dropped holds h u (u.drop post types x) := by
  cases x with
  | none =>
    have same : Function.update holds h none = holds := by rw [← here, Function.update_eq_self]
    exact ⟨same.symm ▸ counts, rfl, rfl, fun _ _ same => same, ∅, .quiet rfl rfl rfl,
      Set.empty_subset _, fun _ _ _ _ => id⟩
  | some p =>
    obtain ⟨r, m', released, counts', ⟨rfl, same, other⟩ | ⟨rfl, gone, nobody⟩⟩ := counts.release here
    · have result : u.drop post types (some p) = { u with memory := m' } := by
        rw [FormState.drop, released]
      rw [result]
      exact ⟨counts', rfl, rfl, fun q o value => same ▸ value, ∅,
        .quiet (Memory.release_next released) same rfl, Set.empty_subset _, fun _ _ _ _ => id⟩
    · obtain ⟨o, value⟩ := counts.value_of_held here
      have expired := last p o rfl value nobody
      have lock : o.lock p = none := if_pos expired
      rw [value] at released
      have result : u.drop post types (some p) =
          { (u.work types p o none (postProcess (post.destroy o.pp_))).2.2 with memory := m' } := by
        rw [FormState.drop, released]
        dsimp only
        rw [lock]
      rw [result]
      have next := Memory.release_next released
      refine ⟨counts', rfl, rfl, fun q o' value => ?_, {p}, ⟨next.ge, fun q other => ?_, fun q _ dead => ?_,
        _, rfl, fun e member => ?_⟩, fun q same => ?_, fun g q other holding same => ?_⟩
      · rw [gone] at value
        by_cases same : q = p
        · rw [same, Function.update_self] at value
          cases value
        · rwa [Function.update_of_ne same] at value
      · rw [gone, Function.update_of_ne other]
      · rw [gone]
        by_cases same : q = p
        · rw [same, Function.update_self]
        · rwa [Function.update_of_ne same]
      · obtain ⟨call, -, rfl⟩ := List.mem_map.mp member
        refine ⟨rfl, fun _ => ?_, nofun, ?_⟩
        · rw [gone, Function.update_self]
        · exact (counts.lt_next_of_value value).trans_le next.ge
      · rw [Set.mem_singleton_iff.mp same]
        exact here
      · exact nobody g other (Set.mem_singleton_iff.mp same ▸ holding)

end Drop

/-- The processors of an application and of its requests. -/
structure Forms {ι : Type} (u : FormState τ Ctrl S) (requests : ι → Option ℕ) : Prop where
  /-- The members `pp` and the requests hold the processors. -/
  counts : Counts u.memory (Sum.elim u.pp requests)
  apart : ∀ c d p, requests c = some p → requests d = some p → c = d
  controllers : ∀ ctrl p o, u.pp ctrl = some p → u.memory.value p = some o → o.ctrl_ = ctrl
  expired : ∀ p o, u.memory.value p = some o → (o.expired = false ↔ (holders requests p).Nonempty)
  calls : ∀ e ∈ u.calls, e.Sound u.memory
  fault : u.fault = false

section Forms

variable [DecidableEq Ctrl] {post : MHD_PostProcessor S} {types : Ctrl → FormController τ Resp}
  {ι : Type} [DecidableEq ι] {requests : ι → Option ℕ} {u u' : FormState τ Ctrl S} {c : ι} {p : ℕ}
  {o o' : FormObject Ctrl S}

omit [DecidableEq Ctrl] [DecidableEq ι] in
theorem sound_later {touched : Set ℕ} (sound : ∀ e ∈ u.calls, e.Sound u.memory)
    (continues : Continues touched u u') : ∀ e ∈ u'.calls, e.Sound u'.memory := by
  obtain ⟨new, calls, sound'⟩ := continues.calls
  intro e member
  rw [calls] at member
  rcases List.mem_append.mp member with member | member
  · exact (sound e member).later continues
  · exact (sound' e member).2

omit [DecidableEq Ctrl] [DecidableEq ι] in
theorem Forms.quiet (forms : Forms u requests) (memory : u'.memory = u.memory) (pp : u'.pp = u.pp)
    (calls : u'.calls = u.calls) (fault : u'.fault = u.fault) : Forms u' requests := by
  refine ⟨?_, forms.apart, ?_, ?_, ?_, fault.trans forms.fault⟩
  · rw [memory, pp]
    exact forms.counts
  · rw [memory, pp]
    exact forms.controllers
  · rw [memory]
    exact forms.expired
  · rw [memory, calls]
    exact forms.calls

omit [DecidableEq Ctrl] [DecidableEq ι] in
/-- The processor of a request works. -/
theorem Forms.work (forms : Forms u requests) (own : requests c = some p)
    (here : u.memory.value p = some o) (ctrl : o'.ctrl_ = o.ctrl_) (expired : o'.expired = o.expired)
    (memory : u'.memory = u.memory ∧ o' = o ∨ u'.memory = u.memory.modify p o')
    {req : HttpRequest ℕ} {new : List FormCall} (processor : req.processor = some p)
    (calls : u'.calls = u.calls ++ new.map (ControllerCall.mk p (some req))) (pp : u'.pp = u.pp)
    (fault : u'.fault = u.fault) :
    Forms u' requests ∧ Continues {p} u u' ∧ u'.memory.value p = some o' := by
  obtain ⟨counts, value, next⟩ : Counts u'.memory (Sum.elim u.pp requests) ∧
      u'.memory.value = Function.update u.memory.value p (some o') ∧ u'.memory.next = u.memory.next := by
    rcases memory with ⟨same, rfl⟩ | modified
    · rw [same, ← here, Function.update_eq_self]
      exact ⟨forms.counts, rfl, rfl⟩
    · obtain ⟨value, counts⟩ := forms.counts.modify (Option.isSome_of_eq_some here) o'
      rw [modified]
      exact ⟨counts, value, Memory.modify_next⟩
  have continues : Continues {p} u u' := by
    refine ⟨next.ge, fun q other => ?_, fun q old dead => ?_, _, calls, fun e member => ?_⟩
    · rw [value, Function.update_of_ne other]
    · rw [value, Function.update_of_ne]
      · exact dead
      · rintro rfl
        rw [here] at dead
        cases dead
    · obtain ⟨call, -, rfl⟩ := List.mem_map.mp member
      exact ⟨rfl, nofun, fun req' same => Option.some.inj same ▸ processor,
        (forms.counts.lt_next_of_value here).trans_le next.ge⟩
  refine ⟨⟨?_, forms.apart, fun ctrl' q o'' held found => ?_, fun q o'' found => ?_,
    sound_later forms.calls continues, fault.trans forms.fault⟩, continues, ?_⟩
  · rw [pp]
    exact counts
  · rw [pp] at held
    rw [value] at found
    by_cases same : q = p
    · subst same
      rw [Function.update_self] at found
      rw [← Option.some.inj found, ctrl]
      exact forms.controllers ctrl' q o held here
    · rw [Function.update_of_ne same] at found
      exact forms.controllers ctrl' q o'' held found
  · rw [value] at found
    by_cases same : q = p
    · subst same
      rw [Function.update_self] at found
      rw [← Option.some.inj found, expired]
      exact forms.expired q o here
    · rw [Function.update_of_ne same] at found
      exact forms.expired q o'' found
  · rw [value, Function.update_self]

variable (post types)

/-- A request without a processor gets a new one. -/
theorem Forms.attach (forms : Forms u requests) (idle : requests c = none) {ctrl : Ctrl}
    {fp : FormObject Ctrl S} (belongs : fp.ctrl_ = ctrl) (alive : fp.expired = false)
    (first : fp.req.processor = none) :
    let r := u.attach post types ctrl fp
    r.1 = some u.memory.next ∧ Forms r.2 (Function.update requests c (some u.memory.next)) ∧
      r.2.memory.value u.memory.next = some fp ∧
        r.2.calls.filter (·.processor = u.memory.next) = [] ∧
          ∃ touched, Continues touched u r.2 ∧ ∀ d q, requests d = some q → q ∉ touched := by
  let u₁ : FormState τ Ctrl S :=
    { u with pp := Function.update u.pp ctrl (some u.memory.next), memory := u.memory.share fp }
  have free : Sum.elim u.pp requests (.inr c) = none := idle
  obtain ⟨value, counts⟩ := forms.counts.share free fp
  rw [Sum.update_elim_inr] at counts
  have old : ∀ q, (∃ h, Sum.elim u.pp requests h = some q) → q ≠ u.memory.next := by
    rintro q ⟨h, held⟩ rfl
    exact absurd (forms.counts.lt_next_of_held held) (lt_irrefl _)
  have others : ∀ q, q ≠ u.memory.next → u₁.memory.value q = u.memory.value q := by
    intro q other
    show (u.memory.share fp).value q = _
    rw [value, Function.update_of_ne other]
  have here : u₁.memory.value u.memory.next = some fp := by
    show (u.memory.share fp).value u.memory.next = _
    rw [value, Function.update_self]
  have shared : Continues {u.memory.next} u u₁ := by
    refine ⟨Nat.le_succ _, others, fun q older dead => ?_, [], (List.append_nil _).symm,
      fun e member => absurd member List.not_mem_nil⟩
    rw [others q older.ne]
    exact dead
  -- the last processor of the controller goes unless its request still holds it
  have dropped : Dropped (Sum.elim u.pp (Function.update requests c (some u.memory.next))) (.inl ctrl) u₁
      (u₁.drop post types (u.pp ctrl)) := by
    refine drop_spec counts rfl fun q o held found nobody => ?_
    rw [others q (old q ⟨.inl ctrl, held⟩)] at found
    by_contra young
    obtain ⟨d, holding⟩ := (forms.expired q o found).mp (by simpa using young)
    refine nobody (.inr d) (by simp) ?_
    have other : d ≠ c := by
      rintro rfl
      exact absurd (idle.symm.trans holding) (by simp)
    rw [Sum.elim_inr, Function.update_of_ne other]
    exact holding
  generalize second : u₁.drop post types (u.pp ctrl) = u₂ at dropped
  obtain ⟨touched, let_go, few, spared⟩ := dropped.continues
  have ends : Function.update (Sum.elim u.pp (Function.update requests c (some u.memory.next))) (.inl ctrl)
      none (.inr c) = some u.memory.next := by
    rw [Function.update_of_ne (by simp), Sum.elim_inr, Function.update_self]
  obtain ⟨m, retained, same, counted⟩ := dropped.counts.retain (Function.update_self _ _ _) ends
  rw [Function.update_idem, Sum.update_elim_inl] at counted
  have pp : u₂.pp = Function.update u.pp ctrl (some u.memory.next) := dropped.pp
  have result : u.attach post types ctrl fp = (some u.memory.next, { u₂ with memory := m }) := by
    show (match (u₁.drop post types (u.pp ctrl)).pp ctrl with
      | none => (none, (u₁.drop post types (u.pp ctrl)).drop post types fp.req.processor)
      | some p =>
        match (u₁.drop post types (u.pp ctrl)).memory.retain p with
        | some memory => (some p, FormState.drop post types
            { u₁.drop post types (u.pp ctrl) with memory := memory } fp.req.processor)
        | none => (some p, { u₁.drop post types (u.pp ctrl) with fault := true })) = _
    have member : u₂.pp ctrl = some u.memory.next := by rw [pp, Function.update_self]
    rw [second, member]
    dsimp only
    rw [retained, first]
    rfl
  rw [result]
  have continues : Continues ({u.memory.next} ∪ touched) u { u₂ with memory := m } :=
    ((shared.mono Set.subset_union_left).trans (let_go.mono Set.subset_union_right)).trans
      (.quiet (Memory.retain_next retained) same rfl)
  have found : ∀ q o, m.value q = some o → u₁.memory.value q = some o :=
    fun q o found => dropped.values q o (same ▸ found)
  have new : m.value u.memory.next = some fp := by
    obtain ⟨o, value⟩ := counted.value_of_held (h := .inr c) (by rw [Sum.elim_inr, Function.update_self])
    rw [value, ← found _ o value, here]
  refine ⟨rfl, ⟨?_, fun d e q => ?_, fun ctrl' q o held value => ?_, fun q o value => ?_,
    sound_later forms.calls continues, dropped.fault.trans forms.fault⟩, new, ?_,
    _, continues, fun d q holding inside => ?_⟩
  · show Counts m (Sum.elim u₂.pp _)
    rw [pp]
    exact counted
  · by_cases left : d = c
    · by_cases right : e = c
      · exact fun _ _ => left.trans right.symm
      · rw [left, Function.update_self, Function.update_of_ne right]
        exact fun here there => absurd (Option.some.inj here).symm (old q ⟨.inr e, there⟩)
    · rw [Function.update_of_ne left]
      by_cases right : e = c
      · rw [right, Function.update_self]
        exact fun there here => absurd (Option.some.inj here).symm (old q ⟨.inr d, there⟩)
      · rw [Function.update_of_ne right]
        exact forms.apart d e q
  · have held : u₂.pp ctrl' = some q := held
    rw [pp] at held
    by_cases same : ctrl' = ctrl
    · rw [same, Function.update_self] at held
      obtain rfl := Option.some.inj held
      rw [← Option.some.inj (new.symm.trans value), same]
      exact belongs
    · rw [Function.update_of_ne same] at held
      refine forms.controllers ctrl' q o held ?_
      rw [← others q (old q ⟨.inl ctrl', held⟩)]
      exact found q o value
  · by_cases same : q = u.memory.next
    · subst same
      rw [← Option.some.inj (new.symm.trans value)]
      exact iff_of_true alive ⟨c, Function.update_self _ _ _⟩
    · have value := found q o value
      rw [others q same] at value
      rw [holders_other (by simp [idle]) fun this => same (Option.some.inj this).symm]
      exact forms.expired q o value
  · have quiet : u₂.calls.filter (·.processor = u.memory.next) =
        u.calls.filter (·.processor = u.memory.next) :=
      let_go.calls_of fun inside => old _ ⟨.inl ctrl, few inside⟩ rfl
    show u₂.calls.filter _ = []
    rw [quiet, List.filter_eq_nil_iff]
    intro e member same
    exact (forms.calls e member).old.ne (of_decide_eq_true same)
  · rcases inside with inside | inside
    · exact old q ⟨.inr d, holding⟩ inside
    · refine spared (.inr d) q (by simp) ?_ inside
      have other : d ≠ c := by
        rintro rfl
        exact absurd (idle.symm.trans holding) (by simp)
      rw [Sum.elim_inr, Function.update_of_ne other]
      exact holding

/-- The end of a request with a processor. -/
theorem Forms.destroy (forms : Forms u requests) (own : requests c = some p) :
    Forms (u.destroy post types p) (Function.update requests c none) ∧
      Continues {p} u (u.destroy post types p) := by
  have held : Sum.elim u.pp requests (.inr c) = some p := own
  obtain ⟨o, here⟩ := forms.counts.value_of_held held
  obtain ⟨value, counts⟩ := forms.counts.modify (Option.isSome_of_eq_some here) { o with expired := true }
  let u₁ : FormState τ Ctrl S := { u with memory := u.memory.modify p { o with expired := true } }
  have found : ∀ q o', u₁.memory.value q = some o' → ∃ o, u.memory.value q = some o ∧ o'.ctrl_ = o.ctrl_ ∧
      (q ≠ p → o'.expired = o.expired) ∧ (q = p → o'.expired = true) := by
    intro q o' there
    have there : (u.memory.modify p _).value q = some o' := there
    rw [value] at there
    by_cases same : q = p
    · subst same
      rw [Function.update_self] at there
      obtain rfl := Option.some.inj there
      exact ⟨o, here, rfl, fun other => absurd rfl other, fun _ => rfl⟩
    · rw [Function.update_of_ne same] at there
      exact ⟨o', there, rfl, fun _ => rfl, fun only => absurd only same⟩
  have marked : Continues {p} u u₁ := by
    refine ⟨Memory.modify_next.ge, fun q other => ?_, fun q old dead => ?_, [], (List.append_nil _).symm,
      fun e member => absurd member List.not_mem_nil⟩
    · show (u.memory.modify p _).value q = _
      rw [value, Function.update_of_ne other]
    · show (u.memory.modify p _).value q = none
      rw [value, Function.update_of_ne]
      · exact dead
      · rintro rfl
        rw [here] at dead
        cases dead
  have dropped : Dropped (Sum.elim u.pp requests) (.inr c) u₁ (u₁.drop post types (some p)) := by
    refine drop_spec counts held fun q o' only there _ => ?_
    obtain ⟨o, -, -, -, expired⟩ := found q o' there
    exact expired (Option.some.inj only).symm
  have result : u.destroy post types p = u₁.drop post types (some p) := by
    rw [FormState.destroy, here]
  rw [result]
  generalize u₁.drop post types (some p) = u₂ at dropped
  obtain ⟨touched, let_go, few, -⟩ := dropped.continues
  have continues : Continues {p} u u₂ :=
    marked.trans (let_go.mono fun q inside => Option.some.inj ((few inside).symm.trans held))
  have pp : u₂.pp = u.pp := dropped.pp
  have counted := dropped.counts
  rw [Sum.update_elim_inr] at counted
  refine ⟨⟨?_, fun d e q => ?_, fun ctrl q o' holding there => ?_, fun q o' there => ?_,
    sound_later forms.calls continues, dropped.fault.trans forms.fault⟩, continues⟩
  · rw [pp]
    exact counted
  · by_cases left : d = c
    · rw [left, Function.update_self]
      exact fun here => absurd here (by simp)
    · by_cases right : e = c
      · rw [right, Function.update_self]
        exact fun _ here => absurd here (by simp)
      · rw [Function.update_of_ne left, Function.update_of_ne right]
        exact forms.apart d e q
  · rw [pp] at holding
    obtain ⟨o, value, same, -⟩ := found q o' (dropped.values q o' there)
    rw [same]
    exact forms.controllers ctrl q o holding value
  · obtain ⟨o, value, -, other, only⟩ := found q o' (dropped.values q o' there)
    by_cases same : q = p
    · rw [only same]
      refine iff_of_false (by simp) ?_
      rintro ⟨d, holding⟩
      have holding : Function.update requests c none d = some q := holding
      by_cases this : d = c
      · rw [this, Function.update_self] at holding
        cases holding
      · rw [Function.update_of_ne this] at holding
        exact this (forms.apart d c p (same ▸ holding) own)
    · rw [other same, holders_other (fun this => same (Option.some.inj (this.symm.trans own))) (by simp)]
      exact forms.expired q o value

end Forms

end Cppmhd
