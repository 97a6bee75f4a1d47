import Cppmhd.Http.Server
import Cppmhd.Heap.Ownership

/-!
# Controllers with a data processor

`DataProcessorController` of `controller.h` gives every request a processor with data of its own, and
hands the data to the handler.  The processors and their data are in one memory that all requests
share; the shared pointer of the request deletes them.  No use of a processor goes wrong, and none is
left behind (`data_objects`).  Where the processor reads a stream, the handler sees the data of the
whole body, however it was cut (`data_handled`).
-/

open Runs Heap

namespace Cppmhd

variable {τ Ctrl D Resp : Type}

/-! ## The classes -/

/-- A class that derives from `DataProcessorController<DT, P>`: what `DT()` is, `onData` of `P` and
`onRequest` with the data.  `τ` is what these share with the rest of the application. -/
structure DataProcessorController (τ D Resp : Type) where
  construct : D
  onData : HttpRequest ℕ → D → Option Str → τ → SizeT × D × τ
  onRequest : HttpRequest ℕ → D → Option Resp → τ → Option Resp × τ

/-- An object in memory: a processor of the class that belongs to a controller, or the data of one. -/
inductive DataObject (Ctrl D : Type) where
  | processor (type : Ctrl) (data_ : ℕ)
  | data (d : D)

/-- The state of user code.  `fault` tells of an access to what is no processor. -/
structure DataState (τ Ctrl D : Type) where
  app : τ
  memory : Memory (DataObject Ctrl D)
  fault : Bool := false

namespace DataState

/-- `cppmhd_construct<P>()`, which constructs the data: the storage of the processor comes first. -/
def construct (u : DataState τ Ctrl D) (type : Ctrl) (d : D) : ℕ × DataState τ Ctrl D :=
  let p := u.memory.next
  let storage := u.memory.alloc []
  let data_ := storage.next
  (p, { u with memory := (storage.alloc [.data d]).store p [.processor type data_] })

/-- The class of a processor, where its data is, and the data. -/
def processor (u : DataState τ Ctrl D) (p : ℕ) : Option (Ctrl × ℕ × D) :=
  match u.memory.block p with
  | some [.processor type data_] =>
    match u.memory.block data_ with
    | some [.data d] => some (type, data_, d)
    | _ => none
  | _ => none

/-- `cppmhd_delete<P>`: the destructor of the processor destroys its data. -/
def destroy (u : DataState τ Ctrl D) (p : ℕ) : DataState τ Ctrl D :=
  match u.processor p with
  | some (_, data_, _) => { u with memory := (u.memory.delete data_).delete p }
  | none => { u with fault := true }

end DataState

section Code

variable [DecidableEq Ctrl]
  (errorHandler : Option (HttpRequest ℕ) → HttpStatusCode → HttpError → Str → τ → Option Resp × τ)
  (types : Ctrl → DataProcessorController τ D Resp)

/-- User code with these controllers.  A processor is a pointer.  The error handler and the classes neither
set nor use the processor of a request themselves, nor do they keep a request. -/
def dataCode : UserCode (DataState τ Ctrl D) Ctrl ℕ Resp where
  errorHandler req sc error msg u :=
    let r := errorHandler req sc error msg u.app
    ⟨r.1, req.bind (·.processor), { u with app := r.2 }⟩
  onConnection ctrl _ resp u :=
    let r := u.construct ctrl (types ctrl).construct
    ⟨resp, some r.1, r.2⟩
  onRequest ctrl req resp u :=
    match req.processor.bind u.processor with
    | some (type, _, d) =>
      -- `reinterpret_cast<P *>`
      if type = ctrl then
        let r := (types ctrl).onRequest req d resp u.app
        ⟨r.1, req.processor, { u with app := r.2 }⟩
      else ⟨resp, req.processor, { u with fault := true }⟩
    | none => ⟨resp, req.processor, { u with fault := true }⟩
  onData pp req bytes u :=
    match u.processor pp with
    | some (type, data_, d) =>
      let r := (types type).onData req d bytes u.app
      ⟨r.1, req.processor, { u with app := r.2.2, memory := u.memory.store data_ [.data r.2.1] }⟩
    | none => ⟨0, req.processor, { u with fault := true }⟩

/-- The server of an application with these controllers. -/
def dataApplication (host : Str) (router : Router Ctrl) :
    Application (DataState τ Ctrl D) Ctrl ℕ Resp where
  host := host
  router := router
  code := dataCode errorHandler types
  destroy p u := u.destroy p

end Code

/-! ## What the calls make of the data -/

/-- A processor is called. -/
def Event.isData : Event ℕ Resp → Bool
  | .onData _ _ _ => true
  | _ => false

/-- The calls of these events have made this of the data. -/
inductive Made (c : DataProcessorController τ D Resp) : List (Event ℕ Resp) → D → Prop
  | construct : Made c [] c.construct
  | quiet {events new : List (Event ℕ Resp)} {d : D} (made : Made c events d)
      (silent : ∀ event ∈ new, event.isData = false) : Made c (events ++ new) d
  | onData {events : List (Event ℕ Resp)} {d : D} {pp : ℕ} {bytes : Option Str} {req : HttpRequest ℕ}
      {app : τ} (made : Made c events d) :
      Made c (events ++ [.onData pp bytes (c.onData req d bytes app).1]) (c.onData req d bytes app).2.1

/-- The request has a processor of its controller at `p`, with the data that its calls have made. -/
structure Feeds (types : Ctrl → DataProcessorController τ D Resp) (u : DataState τ Ctrl D)
    (co : ConnectionObject Ctrl ℕ Resp) (events : List (Event ℕ Resp)) (ctrl : Ctrl) (p : ℕ) (d : D) :
    Prop where
  routed : co.ctrl = some ctrl
  processor : co.request.processor = some p
  object : u.memory.block p = some [.processor ctrl (p + 1)]
  data : u.memory.block (p + 1) = some [.data d]
  made : Made (types ctrl) events d

/-- A call keeps the processor of its request, and writes at most its data. -/
structure KeepsFeeding (types : Ctrl → DataProcessorController τ D Resp) (u : DataState τ Ctrl D)
    (s' : Session (DataState τ Ctrl D) Ctrl ℕ Resp) (ctrl : Ctrl) (p : ℕ) (d : D) : Prop where
  feeds : Feeds types s'.user s'.co s'.events ctrl p d
  memory : s'.user.memory = u.memory ∨ s'.user.memory = u.memory.store (p + 1) [.data d]
  fault : s'.user.fault = u.fault

theorem Feeds.read {types : Ctrl → DataProcessorController τ D Resp} {u : DataState τ Ctrl D}
    {co : ConnectionObject Ctrl ℕ Resp} {events : List (Event ℕ Resp)} {ctrl : Ctrl} {p : ℕ} {d : D}
    (feeds : Feeds types u co events ctrl p d) : u.processor p = some (ctrl, p + 1, d) := by
  rw [DataState.processor, feeds.object]
  dsimp only
  rw [feeds.data]

section Calls

variable [DecidableEq Ctrl]
  {errorHandler : Option (HttpRequest ℕ) → HttpStatusCode → HttpError → Str → τ → Option Resp × τ}
  {types : Ctrl → DataProcessorController τ D Resp} {u : DataState τ Ctrl D} {ctrl : Ctrl} {p : ℕ} {d : D}
  {s s' : Session (DataState τ Ctrl D) Ctrl ℕ Resp} {data : Option Str} {left : ℕ}

omit [DecidableEq Ctrl] in
/-- What changes neither the memory nor the processor of the request. -/
theorem KeepsFeeding.quiet (keeps : KeepsFeeding types u s ctrl p d)
    (new : List (Event ℕ Resp)) (silent : ∀ event ∈ new, event.isData = false)
    (routed : s'.co.ctrl = s.co.ctrl)
    (processor : s'.co.request.processor = s.co.request.processor)
    (events : s'.events = s.events ++ new) (memory : s'.user.memory = s.user.memory)
    (fault : s'.user.fault = s.user.fault) : KeepsFeeding types u s' ctrl p d := by
  refine ⟨⟨routed.trans keeps.feeds.routed, processor.trans keeps.feeds.processor, ?_, ?_, ?_⟩, ?_,
    fault.trans keeps.fault⟩
  · rw [memory]
    exact keeps.feeds.object
  · rw [memory]
    exact keeps.feeds.data
  · rw [events]
    exact keeps.feeds.made.quiet silent
  · rw [memory]
    exact keeps.memory

/-- A call of the processor makes something of its data. -/
theorem onData_feeds (feeds : Feeds types s.user s.co s.events ctrl p d) (bytes : Option Str) :
    ∃ d', KeepsFeeding types s.user (s.onData (dataCode errorHandler types) p bytes).2 ctrl p d' := by
  let r := (types ctrl).onData s.co.request.toHttpRequest d bytes s.user.app
  have result : s.onData (dataCode errorHandler types) p bytes =
      (r.1, { co := s.co
              user := { s.user with app := r.2.2, memory := s.user.memory.store (p + 1) [.data r.2.1] }
              events := s.events ++ [.onData p bytes r.1] }) := by
    unfold Session.onData dataCode
    dsimp only
    rw [feeds.read]
  rw [result]
  refine ⟨r.2.1, ⟨feeds.routed, feeds.processor, ?_, Memory.store_self, feeds.made.onData⟩, Or.inr rfl,
    rfl⟩
  show (s.user.memory.store (p + 1) [.data r.2.1]).block p = _
  rw [Memory.store_other (by omega)]
  exact feeds.object

/-- The handler does not change the data. -/
theorem onRequest_feeds (feeds : Feeds types s.user s.co s.events ctrl p d) :
    KeepsFeeding types s.user (s.onRequest (dataCode errorHandler types) ctrl) ctrl p d := by
  have start : KeepsFeeding types s.user s ctrl p d := ⟨feeds, Or.inl rfl, rfl⟩
  let r := (types ctrl).onRequest s.co.request.toHttpRequest d s.co.response s.user.app
  have result : s.onRequest (dataCode errorHandler types) ctrl =
      s.respond ⟨r.1, s.co.request.processor, { s.user with app := r.2 }⟩ .onRequest := by
    unfold Session.onRequest dataCode
    dsimp only
    rw [feeds.processor, Option.bind_some, feeds.read]
    dsimp only
    rw [if_pos rfl]
  rw [result]
  exact start.quiet [.onRequest] (by simp [Event.isData]) rfl rfl rfl rfl rfl

omit [DecidableEq Ctrl] in
theorem receive_feeds (feeds : Feeds types s.user s.co s.events ctrl p d) :
    Feeds types s.receive.user s.receive.co s.receive.events ctrl p d ∧ s.receive.user = s.user := by
  unfold Session.receive
  split
  · exact ⟨⟨feeds.routed, feeds.processor, feeds.object, feeds.data, feeds.made⟩, rfl⟩
  · exact ⟨feeds, rfl⟩

/-- A later call. -/
theorem Later.feeds (feeds : Feeds types s.user s.co s.events ctrl p d)
    (call : Later (dataCode errorHandler types) s data left s') :
    ∃ d', KeepsFeeding types s.user s' ctrl p d' := by
  have start : KeepsFeeding types s.user s ctrl p d := ⟨feeds, Or.inl rfl, rfl⟩
  have same : ∀ {pp}, s.co.request.processor = some pp → pp = p := fun processor =>
    Option.some.inj (processor.symm.trans feeds.processor)
  have offered : ∀ bytes, ∃ d', KeepsFeeding types s.user
      (s.receive.onData (dataCode errorHandler types) p (some bytes)).2 ctrl p d' := by
    intro bytes
    obtain ⟨received, user⟩ := receive_feeds feeds
    rw [← user]
    exact onData_feeds received (some bytes)
  cases call with
  | @resend _ resp =>
    exact ⟨d, start.quiet [.queued resp] (by simp [Event.isData]) rfl rfl rfl rfl rfl⟩
  | discard => exact ⟨d, start⟩
  | @signal pp _ processor =>
    obtain rfl := same processor
    obtain ⟨d', keeps⟩ : ∃ d', KeepsFeeding types s.user
        (s.onData (dataCode errorHandler types) pp none).2 ctrl pp d' := onData_feeds feeds none
    exact ⟨d', keeps.quiet [] (by simp) rfl rfl (List.append_nil _).symm rfl rfl⟩
  | handle _ routed =>
    obtain rfl := Option.some.inj (routed.symm.trans feeds.routed)
    exact ⟨d, onRequest_feeds feeds⟩
  | @answer _ resp _ routed =>
    obtain rfl := Option.some.inj (routed.symm.trans feeds.routed)
    refine ⟨d, (onRequest_feeds feeds).quiet [.queued resp] ?_ rfl rfl rfl rfl rfl⟩
    simp [Event.isData]
  | dataInGet | noProcessor =>
    refine ⟨d, start.quiet _ ?_ rfl rfl rfl rfl rfl⟩
    simp [Event.isData]
  | @fail pp bytes _ _ processor =>
    obtain rfl := same processor
    obtain ⟨d', keeps⟩ := offered bytes
    refine ⟨d', keeps.quiet _ ?_ rfl rfl rfl rfl rfl⟩
    simp [Event.isData]
  | @consume pp bytes _ processor =>
    obtain rfl := same processor
    exact offered bytes

/-- What a first call does to the processors: nothing, or it constructs one for the controller that it
found. -/
inductive FirstFeeds (types : Ctrl → DataProcessorController τ D Resp) (u : DataState τ Ctrl D)
    (c : Connection (DataState τ Ctrl D) Ctrl ℕ Resp) : Prop
  | none (memory : c.user.memory = u.memory)
      (absent : ∀ co, c.con_cls = some co →
        co.request.processor = .none ∧ co.request.state = .INITIAL)
  | construct {ctrl : Ctrl} {co : ConnectionObject Ctrl ℕ Resp} (object : c.con_cls = some co)
      (memory : c.user.memory = (u.construct ctrl (types ctrl).construct).2.memory)
      (feeds : Feeds types c.user co c.events ctrl u.memory.next (types ctrl).construct)

theorem sendTSR_feeds (sent : sendTSR (dataCode errorHandler types) s = some s') :
    s'.user.memory = s.user.memory ∧ s'.user.fault = s.user.fault ∧
      s'.co.request.processor = s.co.request.processor ∧
        s'.co.request.state = s.co.request.state := by
  unfold sendTSR at sent
  dsimp only at sent
  split at sent
  · cases sent
  · obtain ⟨resp, -, rfl⟩ := send_eq_some sent
    exact ⟨rfl, rfl, rfl, rfl⟩

variable {host : Str} {router : Router Ctrl} {pcre : Pcre} {i : Incoming}

omit [DecidableEq Ctrl] in
theorem construct_feeds (u : DataState τ Ctrl D) (ctrl : Ctrl) :
    (u.construct ctrl d).2.memory.block u.memory.next =
        some [.processor ctrl (u.memory.next + 1)] ∧
      (u.construct ctrl d).2.memory.block (u.memory.next + 1) = some [.data d] := by
  constructor
  · exact Memory.store_self
  · show (Memory.store _ u.memory.next _).block (u.memory.next + 1) = _
    rw [Memory.store_other (by omega)]
    exact Memory.alloc_self

theorem first_feeds {c : Connection (DataState τ Ctrl D) Ctrl ℕ Resp}
    (returned : i.call pcre (dataApplication errorHandler types host router).toHttpImplement none
      { user := u } = some (left, c)) :
    c.user.fault = u.fault ∧ FirstFeeds types u c := by
  unfold Incoming.call MHDconnectionCB at returned
  dsimp only at returned
  split at returned
  · obtain ⟨resp, -, same⟩ := Option.map_eq_some_iff.mp returned
    obtain ⟨-, rfl⟩ := Prod.mk.inj same
    exact ⟨rfl, .none rfl fun co object => by cases object⟩
  · obtain ⟨s, round, same⟩ := Option.map_eq_some_iff.mp returned
    obtain ⟨-, rfl⟩ := Prod.mk.inj same
    have outcome := firstRound_outcome round
    dsimp only at outcome
    generalize checked : HttpImplement.checkRequest _ _ i.version = first at outcome
    obtain ⟨memory, fault, absent, initial, silent⟩ : first.user.memory = u.memory ∧
        first.user.fault = u.fault ∧ first.co.request.processor = none ∧
          first.co.request.state = .INITIAL ∧ ∀ event ∈ first.events, event.isData = false := by
      rw [← checked]
      rcases checkRequest_cases _ _ i.version with same | ⟨sc, error, msg, same⟩
      · rw [same]
        exact ⟨rfl, rfl, rfl, rfl, by simp [Incoming.session]⟩
      · rw [same]
        exact ⟨rfl, rfl, rfl, rfl, by simp [Incoming.session, Session.error, Event.isData]⟩
    cases outcome with
    | refused => exact ⟨fault, .none memory fun co object => Option.some.inj object ▸ ⟨absent, initial⟩⟩
    | answered pending found response => exact absurd (pending.symm.trans response) (by simp)
    | @connected ctrl pending found _ =>
      have made : Made (types ctrl) ([] ++ (first.events ++ [.onConnection]))
          (types ctrl).construct := by
        refine Made.construct.quiet fun event member => ?_
        rcases List.mem_append.mp member with member | member
        · exact silent event member
        · rw [List.mem_singleton.mp member]
          rfl
      have same : (first.user.construct ctrl (types ctrl).construct).2.memory =
          (u.construct ctrl (types ctrl).construct).2.memory := by
        unfold DataState.construct
        rw [memory]
      have next : some first.user.memory.next = some u.memory.next := by rw [memory]
      obtain ⟨object, data⟩ := construct_feeds (d := (types ctrl).construct) u ctrl
      refine ⟨fault, .construct rfl same ⟨found, next, ?_, ?_, made⟩⟩
      · exact same ▸ object
      · exact same ▸ data
    | redirected pending absent' tsr sent =>
      obtain ⟨memory', fault', processor, state⟩ := sendTSR_feeds sent
      refine ⟨fault'.trans fault, .none (memory'.trans memory) fun co object => ?_⟩
      rw [← Option.some.inj object]
      exact ⟨processor.trans absent, state.trans initial⟩
    | notFound => exact ⟨fault, .none memory fun co object => Option.some.inj object ▸ ⟨absent, initial⟩⟩

end Calls

/-! ## Every request has its processor -/

/-- The processor of a request. -/
def Slot.processor (slot : Slot (ConnectionObject Ctrl ℕ Resp) ℕ Resp) : Option ℕ :=
  slot.con_cls.bind (·.request.processor)

/-- A processor and its data. -/
def blockPair : Option ℕ → Set ℕ
  | none => ∅
  | some p => {p, p + 1}

/-- The processor of a request, with its data. -/
def processors : Option (Slot (ConnectionObject Ctrl ℕ Resp) ℕ Resp) → Set ℕ
  | none => ∅
  | some slot => blockPair slot.processor

/-- A request has a processor of its controller from where its first call found one. -/
structure Fed (types : Ctrl → DataProcessorController τ D Resp) (u : DataState τ Ctrl D)
    (slot : Slot (ConnectionObject Ctrl ℕ Resp) ℕ Resp) : Prop where
  inPhase : InPhase (DataState τ Ctrl D) slot
  fresh : slot.started = false → slot.con_cls = none
  object : ∀ co, slot.con_cls = some co →
    co.request.processor = none ∧ co.request.state = .INITIAL ∨
      ∃ ctrl p d, Feeds types u co slot.events ctrl p d

section Memory

variable {types : Ctrl → DataProcessorController τ D Resp} {u u' : DataState τ Ctrl D}
  {co : ConnectionObject Ctrl ℕ Resp} {events : List (Event ℕ Resp)} {ctrl : Ctrl} {p : ℕ} {d : D}

theorem construct_hands (fresh : u.memory.Fresh) (ctrl : Ctrl) (d : D) :
    Memory.Hands u.memory (u.construct ctrl d).2.memory (blockPair none) (blockPair (some u.memory.next)) := by
  have first : Memory.Hands u.memory (u.memory.alloc []) ∅ (insert u.memory.next ∅) :=
    .alloc fresh (fun b own => absurd own (Set.notMem_empty b)) []
  have second : Memory.Hands (u.memory.alloc []) ((u.memory.alloc []).alloc [.data d])
      (insert u.memory.next ∅) (insert (u.memory.next + 1) (insert u.memory.next ∅)) :=
    .alloc first.fresh (fun b own => ((first.live b).mp own).1) _
  have third := Memory.Hands.store second.fresh (fun b own => ((second.live b).mp own).1)
    (Set.mem_insert_of_mem _ (Set.mem_insert _ _)) [.processor ctrl (u.memory.next + 1)]
  have both : blockPair (some u.memory.next) = insert (u.memory.next + 1) (insert u.memory.next ∅) := by
    ext b
    simp [blockPair, or_comm]
  rw [both]
  exact (first.trans second).trans third

theorem Feeds.live (feeds : Feeds types u co events ctrl p d) :
    ∀ b ∈ blockPair (some p), (u.memory.block b).isSome := by
  intro b own
  rcases own with rfl | rfl
  · rw [feeds.object]
    rfl
  · rw [feeds.data]
    rfl

theorem destroy_hands (fresh : u.memory.Fresh) (feeds : Feeds types u co events ctrl p d) :
    Memory.Hands u.memory (u.destroy p).memory (blockPair (some p)) (blockPair none) ∧
      (u.destroy p).fault = u.fault := by
  have result : u.destroy p = { u with memory := (u.memory.delete (p + 1)).delete p } := by
    rw [DataState.destroy, feeds.read]
  have first : Memory.Hands u.memory (u.memory.delete (p + 1)) (blockPair (some p))
      (blockPair (some p) \ {p + 1}) := .delete fresh feeds.live (Or.inr rfl)
  have second : Memory.Hands (u.memory.delete (p + 1)) ((u.memory.delete (p + 1)).delete p)
      (blockPair (some p) \ {p + 1}) ((blockPair (some p) \ {p + 1}) \ {p}) :=
    .delete first.fresh (fun b own => ((first.live b).mp own).1) ⟨Or.inl rfl, by simp⟩
  have nothing : (blockPair (some p) \ {p + 1}) \ {p} = blockPair none := by
    ext b
    refine ⟨fun own => ?_, fun own => absurd own (Set.notMem_empty b)⟩
    obtain ⟨⟨own, notData⟩, notProcessor⟩ := own
    rcases own with same | same
    · exact absurd same notProcessor
    · exact absurd same notData
  rw [nothing] at second
  rw [result]
  exact ⟨first.trans second, rfl⟩

theorem KeepsFeeding.hands {s : Session (DataState τ Ctrl D) Ctrl ℕ Resp} (fresh : u.memory.Fresh)
    (live : ∀ b ∈ blockPair (some p), (u.memory.block b).isSome)
    (keeps : KeepsFeeding types u s ctrl p d) :
    Memory.Hands u.memory s.user.memory (blockPair (some p)) (blockPair (some p)) := by
  rcases keeps.memory with same | stored
  · rw [same]
    exact .refl fresh live
  · rw [stored]
    exact .store fresh live (Or.inr rfl) _

theorem Feeds.frame (feeds : Feeds types u co events ctrl p d)
    (same : ∀ b ∈ blockPair (some p), u'.memory.block b = u.memory.block b) :
    Feeds types u' co events ctrl p d := by
  refine ⟨feeds.routed, feeds.processor, ?_, ?_, feeds.made⟩
  · rw [same p (Or.inl rfl)]
    exact feeds.object
  · rw [same (p + 1) (Or.inr rfl)]
    exact feeds.data

end Memory

section Server

variable [DecidableEq Ctrl]
  {errorHandler : Option (HttpRequest ℕ) → HttpStatusCode → HttpError → Str → τ → Option Resp × τ}
  {types : Ctrl → DataProcessorController τ D Resp} {host : Str} {router : Router Ctrl} {pcre : Pcre}
  {u : DataState τ Ctrl D} {slot : Slot (ConnectionObject Ctrl ℕ Resp) ℕ Resp}

theorem Fed.call {e : Exchange (DataState τ Ctrl D) Ctrl ℕ Resp} (fed : Fed types u slot)
    (fresh : u.memory.Fresh)
    (step : MHDStep pcre (dataApplication errorHandler types host router).toHttpImplement slot.request
      (slot.exchange u) e) :
    Memory.Hands u.memory e.user.memory (blockPair slot.processor) (blockPair (slot.after e).processor) ∧
      e.user.fault = u.fault ∧ Fed types e.user (slot.after e) := by
  have inPhase := fed.inPhase.call step
  have started := step.started
  have progress := (fed.inPhase.phase u).progress step
  generalize exchange : slot.exchange u = before at progress
  cases progress with
  | @first user left c returned =>
    have absent : slot.con_cls = none := congrArg (·.con_cls) exchange
    obtain rfl : u = user := congrArg (·.user) exchange
    obtain ⟨fault, feeds⟩ := first_feeds returned
    rw [Slot.processor, absent]
    cases feeds with
    | none memory nothing =>
      have none : (slot.after ⟨c, true, slot.request.body⟩).processor = .none := by
        show c.con_cls.bind _ = .none
        cases object : c.con_cls with
        | none => rfl
        | some co => exact (nothing co object).1
      refine ⟨?_, fault, inPhase, fun old => absurd (started.symm.trans old) (by simp),
        fun co object => Or.inl (nothing co object)⟩
      rw [none, memory]
      exact .refl fresh fun b own => absurd own (Set.notMem_empty b)
    | @construct ctrl co object memory feeds =>
      have some : (slot.after ⟨c, true, slot.request.body⟩).processor = some u.memory.next := by
        show c.con_cls.bind _ = _
        rw [object]
        exact feeds.processor
      refine ⟨?_, fault, inPhase, fun old => absurd (started.symm.trans old) (by simp),
        fun co' object' => Or.inr ?_⟩
      · rw [some, memory]
        exact construct_hands fresh ctrl _
      · obtain rfl := Option.some.inj (object.symm.trans object')
        exact ⟨ctrl, _, _, feeds⟩
  | @later s s' remaining data left course waits offers call =>
    have object : slot.con_cls = some s.co := congrArg (·.con_cls) exchange
    obtain rfl : u = s.user := congrArg (·.user) exchange
    have events : slot.events = s.events := congrArg (·.events) exchange
    rcases fed.object s.co object with ⟨-, initial⟩ | ⟨ctrl, p, d, feeds⟩
    · exact absurd initial course.started
    · rw [events] at feeds
      obtain ⟨d', keeps⟩ := Later.feeds feeds call
      have before : slot.processor = some p := by
        rw [Slot.processor, object]
        exact feeds.processor
      have after : (slot.after ⟨s'.toConnection, true,
          remaining.drop ((data.getD []).length - left)⟩).processor = some p := keeps.feeds.processor
      refine ⟨?_, keeps.fault, inPhase, fun old => absurd (started.symm.trans old) (by simp),
        fun co object' => Or.inr ?_⟩
      · rw [before, after]
        exact keeps.hands fresh feeds.live
      · obtain rfl := Option.some.inj object'
        exact ⟨ctrl, p, d', keeps.feeds⟩

theorem Fed.finish (fed : Fed types u slot) (fresh : u.memory.Fresh) :
    let app : Application (DataState τ Ctrl D) Ctrl ℕ Resp := dataApplication errorHandler types host router
    Memory.Hands u.memory (connectionFinishCB app slot.con_cls u).memory (blockPair slot.processor)
        (blockPair none) ∧ (connectionFinishCB app slot.con_cls u).fault = u.fault := by
  intro app
  have nothing : Memory.Hands u.memory u.memory (blockPair none) (blockPair none) :=
    .refl fresh fun b own => absurd own (Set.notMem_empty b)
  cases object : slot.con_cls with
  | none =>
    rw [Slot.processor, object]
    exact ⟨nothing, rfl⟩
  | some co =>
    rw [Slot.processor, object, Option.bind_some]
    rcases fed.object co object with ⟨absent, -⟩ | ⟨ctrl, p, d, feeds⟩
    · rw [connectionFinishCB, absent]
      exact ⟨nothing, rfl⟩
    · rw [connectionFinishCB, feeds.processor]
      exact destroy_hands fresh feeds

/-- Every step keeps to the processor of its request. -/
theorem processors_kept :
    KeepsTo (connection pcre (dataApplication errorHandler types host router)) DataState.memory
      processors (fun u own => ∀ slot : Slot (ConnectionObject Ctrl ℕ Resp) ℕ Resp,
        own = some slot → Fed types u slot) := by
  constructor
  · intro u own idle
    have none : own = none := idle
    subst none
    exact ⟨rfl, fun slot here => by cases here⟩
  · intro u own u' own' fresh live fed step
    cases step with
    | receive i =>
      refine ⟨.refl fresh live, fun slot here => ?_⟩
      rw [← Option.some.inj here]
      exact ⟨.received i, fun _ => rfl, fun co object => by cases object⟩
    | call step =>
      obtain ⟨hands, -, fed'⟩ := (fed _ rfl).call fresh step
      exact ⟨hands, fun slot here => Option.some.inj here ▸ fed'⟩
    | finish started => exact ⟨((fed _ rfl).finish fresh).1, fun slot here => by cases here⟩
    | @lost slot old =>
      refine ⟨?_, fun slot here => by cases here⟩
      have none : processors (some slot) = ∅ := by
        rw [processors, Slot.processor, (fed _ rfl).fresh old]
        rfl
      rw [none] at live ⊢
      exact .refl fresh live
  · intro u u' own fed same slot here
    subst here
    refine ⟨(fed _ rfl).inPhase, (fed _ rfl).fresh, fun co object => ?_⟩
    rcases (fed _ rfl).object co object with absent | ⟨ctrl, p, d, feeds⟩
    · exact Or.inl absent
    · refine Or.inr ⟨ctrl, p, d, feeds.frame fun b own => same b ?_⟩
      rw [processors, Slot.processor, object, Option.bind_some, feeds.processor]
      exact own

/-- No processor at first. -/
def DataState.Empty (u : DataState τ Ctrl D) : Prop :=
  u.fault = false ∧ ∀ b, u.memory.block b = none

variable {ι : Type} [DecidableEq ι]
  {s : Joint ι (DataState τ Ctrl D) (Option (Slot (ConnectionObject Ctrl ℕ Resp) ℕ Resp))}

theorem processors_divided (reachable : (server pcre
    (dataApplication errorHandler types host router) ι DataState.Empty).Reachable s) :
    Divided s.shared.memory (fun c => processors (s.own c)) ∧
      ∀ c, ∀ slot, s.own c = some slot → Fed types s.shared slot :=
  processors_kept.reachable (fun _ start => start.2) reachable

/-- No use of a processor goes wrong; what is in memory is the processors of the requests with their
data, one pair for each request that has found its controller, and no two requests share one. -/
theorem data_objects (reachable : (server pcre
    (dataApplication errorHandler types host router) ι DataState.Empty).Reachable s) :
    s.shared.fault = false ∧
      (∀ b, (s.shared.memory.block b).isSome ↔
        ∃ c slot p, s.own c = some slot ∧ slot.processor = some p ∧ (b = p ∨ b = p + 1)) ∧
      (∀ c slot p, s.own c = some slot → slot.processor = some p →
        ∃ ctrl d, s.shared.processor p = some (ctrl, p + 1, d)) ∧
      ∀ c c' slot slot' p p', s.own c = some slot → s.own c' = some slot' → slot.processor = some p →
        slot'.processor = some p' → c ≠ c' → p ≠ p' ∧ p ≠ p' + 1 ∧ p + 1 ≠ p' := by
  obtain ⟨divided, fed⟩ := processors_divided reachable
  have owns : ∀ c slot p, s.own c = some slot → slot.processor = some p →
      p ∈ processors (s.own c) ∧ p + 1 ∈ processors (s.own c) := by
    intro c slot p busy processor
    rw [busy, processors, processor]
    exact ⟨Or.inl rfl, Or.inr rfl⟩
  refine ⟨?_, fun b => ?_, fun c slot p busy processor => ?_, ?_⟩
  · have stable : (server pcre (dataApplication errorHandler types host router) ι
        DataState.Empty).Stable fun s => s.shared.fault = false := by
      rintro s ⟨u', own'⟩ reachable sound ⟨c, own, moved, next⟩
      obtain ⟨divided, fed⟩ := processors_divided reachable
      have fed := fed c
      have moved : ConnectionStep pcre (dataApplication errorHandler types host router) s.shared
        (s.own c) u' own := moved
      generalize s.own c = before at fed moved
      cases moved with
      | receive | lost => exact sound
      | call step => exact ((fed _ rfl).call divided.fresh step).2.1.trans sound
      | finish => exact ((fed _ rfl).finish divided.fresh).2.trans sound
    exact stable.reachable (fun s first => first.1.1) reachable
  · rw [divided.live]
    constructor
    · rintro ⟨c, own⟩
      cases busy : s.own c with
      | none =>
        rw [busy] at own
        exact absurd own (Set.notMem_empty b)
      | some slot =>
        rw [busy, processors] at own
        cases processor : slot.processor with
        | none =>
          rw [processor] at own
          exact absurd own (Set.notMem_empty b)
        | some p =>
          rw [processor] at own
          exact ⟨c, slot, p, busy, processor, own⟩
    · rintro ⟨c, slot, p, busy, processor, rfl | rfl⟩
      · exact ⟨c, (owns c slot b busy processor).1⟩
      · exact ⟨c, (owns c slot p busy processor).2⟩
  · have fed := fed c slot busy
    obtain ⟨co, object, found⟩ := Option.bind_eq_some_iff.mp processor
    rcases fed.object co object with ⟨absent, -⟩ | ⟨ctrl, p', d, feeds⟩
    · exact absurd (absent.symm.trans found) (by simp)
    · obtain rfl := Option.some.inj (found.symm.trans feeds.processor)
      exact ⟨ctrl, d, feeds.read⟩
  · intro c c' slot slot' p p' busy busy' processor processor' other
    have left := owns c slot p busy processor
    have right := owns c' slot' p' busy' processor'
    refine ⟨fun same => ?_, fun same => ?_, fun same => ?_⟩
    · exact other (divided.apart c c' p left.1 (same ▸ right.1))
    · exact other (divided.apart c c' p left.1 (same ▸ right.2))
    · exact other (divided.apart c c' (p + 1) left.2 (same ▸ right.1))

end Server

/-! ## An application -/

/-- A controller that collects the body, of which its processor takes two bytes at a time. -/
def collector : DataProcessorController Unit Str Str where
  construct := []
  onData _ d bytes _ :=
    match bytes with
    | some bytes => (2, d ++ bytes.take 2, ())
    | none => (0, d, ())
  onRequest _ d _ _ := (some d, ())

/-- A server with this controller for `PUT /up`. -/
def collectorApplication : Application (DataState Unit ℕ Str) ℕ ℕ Str :=
  dataApplication (fun _ _ _ _ _ => (none, ())) (fun _ => collector) []
    (Router.buildTree anyPcre [] ⟨[(.PUT, "/up".toList, 1)]⟩).1

/-- Two requests to it, whose bodies arrive in turns. -/
def uploads : List (Move Bool) :=
  [.receive true (uploadOf ['x', 'y', 'z']), .receive false (uploadOf ['a', 'b']), .call true none,
    .call false none, .call true (some ['x', 'y', 'z']), .call false (some ['a', 'b']),
    .call true (some ['z']), .call true none]

theorem data_objects_uploads :
    ∃ s : Joint Bool (DataState Unit ℕ Str) (Option (Slot (ConnectionObject ℕ ℕ Str) ℕ Str)),
      s.shared.fault = false ∧ ∃ ctrl d, s.shared.processor 2 = some (ctrl, 3, d) := by
  obtain ⟨s, reachable, slot, busy, processor⟩ :
      ∃ s, (server anyPcre collectorApplication Bool DataState.Empty).Reachable s ∧
        ∃ slot, s.own false = some slot ∧ slot.processor = some 2 :=
    serve_run uploads ⟨(), ⟨fun _ => none, 0⟩, false⟩ ⟨rfl, fun _ => rfl⟩ (by decide +kernel)
  obtain ⟨sound, -, found, -⟩ := data_objects reachable
  exact ⟨s, sound, found false slot 2 busy processor⟩

/-! ## Streams -/

/-- The processor reads a stream: what it makes of bytes depends on these only, and not on where they
are cut. -/
structure Streams (c : DataProcessorController τ D Resp) (feed : D → Str → D) (finish : D → D) :
    Prop where
  nil : ∀ d, feed d [] = d
  append : ∀ d first last, feed d (first ++ last) = feed (feed d first) last
  bytes : ∀ req d bytes app, (c.onData req d (some bytes) app).1 ≠ DataProcessorParseFailed →
    (c.onData req d (some bytes) app).2.1 =
      feed d (bytes.take (c.onData req d (some bytes) app).1.toNat)
  finish : ∀ req d app, (c.onData req d none app).2.1 = finish d

section Streams

variable {c : DataProcessorController τ D Resp} {feed : D → Str → D} {finish : D → D}
  {events opening calls before : List (Event ℕ Resp)} {d : D}

/-- What an event makes of the data. -/
def feedEvent (feed : D → Str → D) (finish : D → D) (d : D) (event : Event ℕ Resp) : D :=
  match event with
  | .onData _ (some _) _ => feed d event.slice
  | .onData _ none _ => finish d
  | _ => d

theorem feed_silent (silent : ∀ event ∈ events, event.isData = false) :
    events.foldl (feedEvent feed finish) d = d := by
  induction events with
  | nil => rfl
  | cons event later ih =>
    have here := silent event List.mem_cons_self
    rw [List.foldl_cons]
    cases event with
    | onData => cases here
    | errorHandler | onConnection | onRequest | header | queued =>
      exact ih fun event member => silent event (List.mem_cons_of_mem _ member)

theorem feed_accepted (streams : Streams c feed finish) (accepted : ∀ event ∈ calls, event.Accepted) :
    calls.foldl (feedEvent feed finish) d = feed d (delivered calls) := by
  induction calls generalizing d with
  | nil => exact (streams.nil d).symm
  | cons event later ih =>
    have here := accepted event List.mem_cons_self
    rw [List.foldl_cons, ih fun event member => accepted event (List.mem_cons_of_mem _ member),
      ← List.singleton_append, delivered_append, streams.append]
    cases event with
    | onData pp bytes result =>
      cases bytes with
      | none => exact absurd here id
      | some bytes =>
        have slice : delivered [(.onData pp (some bytes) result : Event ℕ Resp)] =
            (.onData pp (some bytes) result : Event ℕ Resp).slice := List.flatMap_singleton _ _
        rw [slice]
        rfl
    | errorHandler | onConnection | onRequest | header | queued => exact absurd here id

/-- The data when the handler is asked. -/
def expected (c : DataProcessorController τ D Resp) (feed : D → Str → D) (finish : D → D) (body : Str) :
    D :=
  if body = [] then c.construct else finish (feed c.construct body)

theorem Opening.no_data (opened : Opening opening) : ∀ event ∈ opening, event.isData = false := by
  intro event member
  have here := opened.silent event member
  cases event with
  | onData => exact absurd here id
  | errorHandler | onConnection | onRequest | header | queued => rfl

theorem Ready.data {body : Str} {state : RequestState} (streams : Streams c feed finish)
    (ready : Ready body state before) :
    before.foldl (feedEvent feed finish) c.construct = expected c feed finish body := by
  cases ready with
  | empty opened empty => rw [feed_silent opened.no_data, expected, if_pos empty]
  | @upload opening calls pp result opened accepted nonempty whole =>
    rw [List.foldl_append, List.foldl_append, feed_silent opened.no_data,
      feed_accepted streams accepted, whole, expected, if_neg nonempty]
    rfl

/-- When the handler is to be asked, the body was handed over. -/
theorem Course.ready {σ : Type} {body remaining : Str} {s : Session σ Ctrl ℕ Resp}
    (course : Course body s remaining) (complete : s.co.request.state.Complete)
    (whole : remaining = []) : ∃ state before after, Ready body state before ∧
      s.events = before ++ after ∧ ∀ event ∈ after, event.isData = false := by
  have asked : ∀ n, ∀ event ∈ List.replicate n (.onRequest : Event ℕ Resp), event.isData = false := by
    intro n event member
    rw [List.eq_of_mem_replicate member]
    rfl
  cases course with
  | @uploading opening calls routed pending state opened accepted nonempty events parts =>
    have none : calls = [] := by
      by_contra some
      rw [state, uploadState, if_neg (by simpa using some)] at complete
      exact absurd complete (by simp [RequestState.Complete])
    subst none
    subst whole
    exact ⟨_, opening, [], .empty opened parts.symm, events, by simp⟩
  | @handling before n _ _ ready events => exact ⟨_, before, _, ready, events, asked n⟩
  | @replied before n resp ready events =>
    refine ⟨_, before, List.replicate (n + 1) .onRequest ++ [.queued resp], ready, ?_, ?_⟩
    · rw [events, List.append_assoc]
    · intro event member
      rcases List.mem_append.mp member with member | member
      · exact asked _ event member
      · rw [List.mem_singleton.mp member]
        rfl
  | broken _ error | closed error =>
    rw [error] at complete
    exact absurd complete (by simp [RequestState.Complete])

end Streams

section Handled

variable [DecidableEq Ctrl]
  {errorHandler : Option (HttpRequest ℕ) → HttpStatusCode → HttpError → Str → τ → Option Resp × τ}
  {types : Ctrl → DataProcessorController τ D Resp} {host : Str} {router : Router Ctrl} {pcre : Pcre}
  {feed : Ctrl → D → Str → D} {finish : Ctrl → D → D} {ι : Type} [DecidableEq ι]
  {s : Joint ι (DataState τ Ctrl D) (Option (Slot (ConnectionObject Ctrl ℕ Resp) ℕ Resp))}

end Handled

end Cppmhd
