import Cppmhd.Http.Phase
import Cppmhd.Router.Stray

/-!
# The host of a redirect

`sendTSR` appends a slash to the path of the request and sends it as the `Location`.  A browser takes
a value that begins with two slashes for another host.  `location_iff` says for which requests the
callback sends such a value.
-/

namespace Cppmhd

variable {σ Ctrl P Resp : Type}

/-- One slash, and then another character or nothing. -/
def SameHost (value : Str) : Prop := value = ['/'] ∨ ∃ c rest, value = '/' :: c :: rest ∧ c ≠ '/'

theorem sameHost_iff {path : Str} (rooted : path.head? = some '/') :
    SameHost (path ++ ['/']) ↔ SingleSlash path := by
  obtain ⟨t, rfl⟩ := List.head?_eq_some_iff.mp rooted
  cases t with
  | nil => simp [SameHost, SingleSlash]
  | cons y t =>
    constructor
    · rintro (lone | ⟨c, rest, value, other⟩)
      · exact absurd lone (by simp)
      · rw [List.cons_append, List.cons_append, List.cons.injEq, List.cons.injEq] at value
        obtain ⟨-, rfl, -⟩ := value
        refine ⟨by simp, fun doubled => other ?_⟩
        exact (List.cons_prefix_cons.mp (List.cons_prefix_cons.mp doubled).2).1.symm
    · rintro ⟨-, single⟩
      refine Or.inr ⟨y, t ++ ['/'], rfl, ?_⟩
      rintro rfl
      exact single ⟨t, rfl⟩

section FirstCall

variable {pcre : Pcre} {http : HttpImplement σ Ctrl P Resp} {conn : MHD_Connection}
  {url method version : Str} {user : σ}

/-- The request passes the checks in front of the routing. -/
def Routed (http : HttpImplement σ Ctrl P Resp) (conn : MHD_Connection) (url method version : Str)
    (user : σ) (m : HttpMethod) : Prop :=
  parseHttpMethod method = some m ∧
    (http.checkRequest (Incoming.session conn url m user) version).co.response = none

/-- The events have a header. -/
def Locates (events : List (Event P Resp)) (value : Str) : Prop :=
  ∃ resp, .header resp "Location".toList value ∈ events

/-- The checks keep the request, and send no header. -/
theorem checked_request (m : HttpMethod) :
    let first := http.checkRequest (Incoming.session conn url m user) version
    first.co.request.method = m ∧ first.co.request.uri = url ∧ first.co.request.param = [] ∧
      ∀ value, ¬ Locates first.events value := by
  intro first
  rcases checkRequest_cases http (Incoming.session conn url m user) version with
    same | ⟨sc, error, msg, same⟩
  · rw [show first = _ from same]
    refine ⟨rfl, rfl, rfl, ?_⟩
    rintro value ⟨resp, member⟩
    exact absurd member List.not_mem_nil
  · rw [show first = _ from same]
    refine ⟨rfl, rfl, rfl, ?_⟩
    rintro value ⟨resp, member⟩
    simp [Incoming.session, Session.error] at member

theorem locates_append {events : List (Event P Resp)} (none : ∀ value, ¬ Locates events value)
    (last : List (Event P Resp)) (value : Str) :
    Locates (events ++ last) value ↔ Locates last value := by
  constructor
  · rintro ⟨resp, member⟩
    rcases List.mem_append.mp member with old | new
    · exact absurd ⟨resp, old⟩ (none value)
    · exact ⟨resp, new⟩
  · rintro ⟨resp, member⟩
    exact ⟨resp, List.mem_append_right _ member⟩

theorem error_events (code : UserCode σ Ctrl P Resp) (s : Session σ Ctrl P Resp)
    (sc : HttpStatusCode) (error : HttpError) (msg : Str) :
    (s.error code sc error msg).events =
      s.events ++ [.errorHandler sc error msg (s.error code sc error msg).co.response] := rfl

theorem sendTSR_events {code : UserCode σ Ctrl P Resp} {s s' : Session σ Ctrl P Resp}
    (sent : sendTSR code s = some s') :
    ∃ resp, s'.events = s.events ++
      [.errorHandler .k301MovePermanently .TSR_FOUND
          ("<a href='".toList ++ (s.co.request.uri ++ ['/']) ++ "'>Redirecting...</a>".toList)
          (some resp),
        .header resp "Location".toList (s.co.request.uri ++ ['/']), .queued resp] := by
  unfold sendTSR at sent
  dsimp only at sent
  split at sent
  · exact absurd sent nofun
  · rename_i resp response
    obtain ⟨resp', response', rfl⟩ := send_eq_some sent
    rw [show resp' = resp from Option.some.inj (response'.symm.trans response)]
    refine ⟨resp, ?_⟩
    rw [error_events, response]
    dsimp only
    rw [List.append_assoc (s.events ++ _), List.append_assoc s.events]
    rfl

/-- The first call sends a header exactly where the routing finds no controller but a redirect. -/
theorem firstRound_locates {m : HttpMethod} {s : Session σ Ctrl P Resp}
    (returned : firstRound pcre http conn url m method version user = some s) (value : Str) :
    Locates s.events value ↔
      (http.checkRequest (Incoming.session conn url m user) version).co.response = none ∧
        (http.router.forward pcre m url []).ctrl = none ∧
          (http.router.forward pcre m url []).tsr = true ∧ value = url ++ ['/'] := by
  have outcome := firstRound_outcome returned
  have request := @checked_request σ Ctrl P Resp http conn url version user m
  dsimp only at outcome request
  generalize http.checkRequest (Incoming.session conn url m user) version = first at outcome request ⊢
  obtain ⟨sameMethod, sameUri, sameParam, quiet⟩ := request
  rw [sameMethod, sameUri, sameParam] at outcome
  generalize http.router.forward pcre m url [] = r at outcome ⊢
  cases outcome with
  | @refused resp response =>
    rw [locates_append quiet]
    refine iff_of_false (by simp [Locates]) ?_
    rintro ⟨pending, -⟩
    exact absurd (response.symm.trans pending) nofun
  | @answered ctrl resp pending found response =>
    dsimp only
    rw [Session.onConnection, respond_events, List.append_assoc, Session.route, locates_append quiet]
    refine iff_of_false (by simp [Locates]) ?_
    rintro ⟨-, absent, -⟩
    exact absurd (found.symm.trans absent) nofun
  | @connected ctrl pending found silent =>
    rw [setState_events, Session.onConnection, respond_events, Session.route, locates_append quiet]
    refine iff_of_false (by simp [Locates]) ?_
    rintro ⟨-, absent, -⟩
    exact absurd (found.symm.trans absent) nofun
  | redirected pending absent tsr sent =>
    obtain ⟨resp, events⟩ := sendTSR_events sent
    rw [events, Session.route, locates_append quiet]
    simp [Locates, pending, absent, tsr, sameUri]
  | notFound pending absent stays response =>
    dsimp only
    rw [error_events, List.append_assoc (first.route r).events, Session.route, locates_append quiet]
    refine iff_of_false (by simp [Locates]) ?_
    rintro ⟨-, -, redirected, -⟩
    exact absurd (stays.symm.trans redirected) Bool.false_ne_true

/-- The values of the header, for a first call that returns. -/
theorem callback_locates {left : ℕ} {data : Option Str} {c : Connection σ Ctrl P Resp}
    (returned : MHDconnectionCB pcre http conn url method version data { user := user } =
      some (left, c)) (value : Str) :
    Locates c.events value ↔ ∃ m, Routed http conn url method version user m ∧
      (http.router.forward pcre m url []).ctrl = none ∧
        (http.router.forward pcre m url []).tsr = true ∧ value = url ++ ['/'] := by
  cases firstCall_of_returned returned with
  | badMethod unknown =>
    refine iff_of_false (by simp [Locates]) ?_
    rintro ⟨m, routed, -⟩
    exact absurd (unknown.symm.trans routed.1) nofun
  | round known round =>
    rw [Session.toConnection, firstRound_locates round]
    constructor
    · rintro ⟨pending, none, redirected, rfl⟩
      exact ⟨_, ⟨known, pending⟩, none, redirected, rfl⟩
    · rintro ⟨m', routed, none, redirected, rfl⟩
      obtain rfl := Option.some.inj (known.symm.trans routed.1)
      exact ⟨routed.2, none, redirected, rfl⟩

end FirstCall

/-- A redirect comes without a controller. -/
theorem RawTree.Reachable.ctrl_of_tsr {pcre : Pcre} {tree : RawTree Ctrl}
    (reachable : tree.Reachable pcre) {path : Str} {params : Params}
    (tsr : (forwardLoop pcre tree.root path params).tsr = true) :
    (forwardLoop pcre tree.root path params).ctrl = none := by
  rcases reachable.wellFormed with rfl | ⟨valid, -⟩
  · rw [forwardLoop_empty]
  · exact Cppmhd.ctrl_of_tsr valid tsr

/-- The tree of a method is reachable. -/
theorem buildTree_reachable (pcre : Pcre) (pre : Str) (builder : RouterBuilder Ctrl)
    (m : HttpMethod) :
    ∃ tree : RawTree Ctrl, tree.Reachable pcre ∧
      (Router.buildTree pcre pre builder).1.tree m = tree.root :=
  ⟨_, RawTree.Reachable.empty.addRoutes _, buildTree_tree pcre pre builder m⟩

/-- The first call redirects to its own host unless the request is one of `Strays`. -/
theorem location_iff {pcre : Pcre} {http : HttpImplement σ Ctrl P Resp} {pre : Str}
    {builder : RouterBuilder Ctrl} (built : http.router = (Router.buildTree pcre pre builder).1)
    {conn : MHD_Connection} {url method version : Str} (rooted : url.head? = some '/')
    {data : Option Str} {user : σ} {left : ℕ} {c : Connection σ Ctrl P Resp}
    (returned : MHDconnectionCB pcre http conn url method version data { user := user } =
      some (left, c)) :
    (∀ value, Locates c.events value → SameHost value) ↔
      ¬ ∃ m, Routed http conn url method version user m ∧ Strays pcre (http.router.tree m) url := by
  have strays : ∀ m, Strays pcre (http.router.tree m) url ↔
      ¬ SameHost (url ++ ['/']) ∧ (http.router.forward pcre m url []).ctrl = none ∧
        (http.router.forward pcre m url []).tsr = true := by
    intro m
    obtain ⟨tree, reachable, root⟩ := buildTree_reachable pcre pre builder m
    rw [forward_eq, built, root, sameHost_iff rooted, strays_iff reachable]
    refine and_congr_right fun _ => (and_iff_right_of_imp fun redirected => ?_).symm
    exact reachable.ctrl_of_tsr redirected
  simp only [strays, callback_locates returned]
  constructor
  · rintro single ⟨m, routed, foreign, redirected⟩
    exact foreign (single _ ⟨m, routed, redirected.1, redirected.2, rfl⟩)
  · rintro never value ⟨m, routed, none, redirected, rfl⟩
    by_contra foreign
    exact never ⟨m, routed, foreign, none, redirected⟩

/-! ### Two requests -/

/-- An application with one route, for all files below `/static/`. -/
def staticServer : HttpImplement Unit ℕ ℕ ℕ where
  router := (Router.buildTree anyPcre [] ⟨[(.GET, "/static/{**:path}".toList, 1)]⟩).1
  code :=
    { errorHandler := fun req sc _ _ _ =>
        ⟨some (if sc = .k301MovePermanently then 301 else 404), req.bind (·.processor), ()⟩
      onConnection := fun _ req _ _ => ⟨none, req.processor, ()⟩
      onRequest := fun _ req _ _ => ⟨some 200, req.processor, ()⟩
      onData := fun _ req _ _ => ⟨0, req.processor, ()⟩ }

/-- The events of the first call of a `GET` request to it. -/
def staticEvents (url : Str) : Option (List (Event ℕ ℕ)) :=
  (MHDconnectionCB anyPcre staticServer ⟨fun _ => none⟩ url "GET".toList "HTTP/1.1".toList none
    { user := () }).map (·.2.events)

/-- The events of a redirect by it. -/
def redirectEvents (url : Str) : List (Event ℕ ℕ) :=
  [.errorHandler .k301MovePermanently .TSR_FOUND
      ("<a href='".toList ++ (url ++ ['/']) ++ "'>Redirecting...</a>".toList) (some 301),
    .header 301 "Location".toList (url ++ ['/']), .queued 301]

theorem location_static :
    staticEvents "/static".toList = some (redirectEvents "/static".toList) ∧
      ¬ ∃ m, Routed staticServer ⟨fun _ => none⟩ "/static".toList "GET".toList "HTTP/1.1".toList () m ∧
        Strays anyPcre (staticServer.router.tree m) "/static".toList := by
  have events : staticEvents "/static".toList = some (redirectEvents "/static".toList) := by
    decide +kernel
  refine ⟨events, ?_⟩
  obtain ⟨⟨left, c⟩, returned, same⟩ := Option.map_eq_some_iff.mp events
  have same : c.events = redirectEvents "/static".toList := same
  refine (location_iff rfl (by decide) returned).mp ?_
  rintro value ⟨resp, member⟩
  rw [same] at member
  simp only [redirectEvents, List.mem_cons, Event.header.injEq, reduceCtorEq, List.not_mem_nil,
    or_false, false_or] at member
  rw [member.2.2]
  exact Or.inr ⟨'s', _, rfl, by decide⟩

/-- The route is accepted, but any request that differs from it is redirected, whatever its host. -/
theorem location_foreign :
    staticServer.router.valid = true ∧
      staticEvents "//other-host".toList = some (redirectEvents "//other-host".toList) ∧
        ¬ SameHost ("//other-host".toList ++ ['/']) := by
  refine ⟨by decide +kernel, by decide +kernel, ?_⟩
  rintro (lone | ⟨c, rest, value, other⟩)
  · exact absurd lone (by decide)
  · exact other (List.cons.inj (List.cons.inj value).2).1.symm

end Cppmhd
