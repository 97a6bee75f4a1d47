import Cppmhd.Http.Location
import Cppmhd.Http.Response

/-!
# Error pages

`defaultErrorHandler` of `utils.cc` puts the message of an error into a page of HTML as it is, and the
messages have texts of the request in them.  `error_pages_iff` says when two requests get pages with the
same markup.
-/

namespace Cppmhd

/-! ## The source -/

def CPPMHD_HTTP_MIME_TEXT_HTML : Str := "text/html".toList

/-- The numbers of the codes. -/
def HttpStatusCode.number : HttpStatusCode → ℕ
  | .k301MovePermanently => 301
  | .k400BadRequest => 400
  | .k404NotFound => 404
  | .k405MethodNotAllowed => 405
  | .k505HttpVersionNotSupported => 505

/-- Source `dispatchErrorCode`, for the codes that the callback sends. -/
def dispatchErrorCode : HttpStatusCode → Str
  | .k301MovePermanently => "Moved Permanently".toList
  | .k400BadRequest => "Bad Request".toList
  | .k404NotFound => "Not Found".toList
  | .k405MethodNotAllowed => "Method Not Allowed".toList
  | .k505HttpVersionNotSupported => "HTTP Version Not Supported".toList

section Page

variable (PROJECT_SERVER_HEADER : Str) (sc : HttpStatusCode)

/-- The format string of source `defaultErrorHandler`, up to the message. -/
def pageHead : Str :=
  let err := Nat.toDigits 10 sc.number ++ " ".toList ++ dispatchErrorCode sc
  "<html>\n<head><title>".toList ++ err ++ "</title></head>\n<body>\n<center><h1>".toList ++ err ++
    "</h1>\n<h2>".toList

/-- The format string behind the message. -/
def pageTail : Str :=
  "</h2>\n</center>\n<hr><center>".toList ++ PROJECT_SERVER_HEADER ++
    "</center>\n</body>\n</html>\n".toList ++
      (List.replicate 6
        "<!-- a padding to disable MSIE and Chrome friendly error page -->\n".toList).flatten

/-- Source `defaultErrorHandler`. -/
def defaultErrorHandler (_error : HttpError) (msg : Str) : HttpResponse :=
  let estr := pageHead sc ++ msg ++ pageTail PROJECT_SERVER_HEADER
  ((HttpResponse.call {} (.status sc.number)).bodyString estr).call
    (.assign CPPMHD_HTTP_HEADER_CONTENT_TYPE CPPMHD_HTTP_MIME_TEXT_HTML)

end Page

/-- The error handler of an application that sets none. -/
def UserCode.DefaultErrors {σ Ctrl P : Type} (code : UserCode σ Ctrl P HttpResponse)
    (PROJECT_SERVER_HEADER : Str) : Prop :=
  ∀ req sc error msg user, (code.errorHandler req sc error msg user).value =
    some (defaultErrorHandler PROJECT_SERVER_HEADER sc error msg)

/-! ## Markup -/

/-- A character that is significant in HTML. -/
def isMarkup (c : Char) : Bool := c == '<' || c == '>' || c == '\'' || c == '"'

/-- The characters of a text that are significant in HTML. -/
def markup (s : Str) : Str := s.filter isMarkup

@[simp] theorem markup_append (s t : Str) : markup (s ++ t) = markup s ++ markup t :=
  List.filter_append s t

/-! ## Messages -/

section Messages

variable (method url version : Str)

/-- The errors that the callback reports, with their messages. -/
inductive ErrorSite : HttpStatusCode → HttpError → Str → Prop
  | badMethod : ErrorSite .k405MethodNotAllowed .BAD_HTTP_METHOD
      ("un-acceptable Http Method: ".toList ++ method)
  | badHost : ErrorSite .k400BadRequest .HOST_FIELD_INCORRECT "Host Field Not Set Correctly".toList
  | badVersion : ErrorSite .k505HttpVersionNotSupported .BAD_HTTP_VERSION
      ("Bad HTTP Version ".toList ++ version ++
        ". HTTP1/1 is the only acceptable version".toList)
  | redirect : ErrorSite .k301MovePermanently .TSR_FOUND
      ("<a href='".toList ++ (url ++ ['/']) ++ "'>Redirecting...</a>".toList)
  | notFound : ErrorSite .k404NotFound .ROUTER_NOT_FOUND
      (method ++ " to ".toList ++ url ++ " not found".toList)
  | dataInGet : ErrorSite .k400BadRequest .DATA_IN_GET_REQUEST
      ("Data in GET Request to ".toList ++ url)
  | noProcessor : ErrorSite .k405MethodNotAllowed .DATA_PROCESSOR_NOT_SET
      ("Data Processor not set in ".toList ++ method ++ " Request to ".toList ++ url)
  | processorFailed : ErrorSite .k400BadRequest .DATA_PROCESSOR_RETURN_ERROR
      ("Data Processor return an error in ".toList ++ method ++ " Request to ".toList ++ url)

/-- The texts of the request in the message of an error. -/
def reflected : HttpError → Str
  | .BAD_HTTP_METHOD => method
  | .BAD_HTTP_VERSION => version
  | .TSR_FOUND | .DATA_IN_GET_REQUEST => url
  | .ROUTER_NOT_FOUND | .DATA_PROCESSOR_NOT_SET | .DATA_PROCESSOR_RETURN_ERROR => method ++ url
  | .HOST_FIELD_INCORRECT | .OK => []

/-- The markup of the link of a redirect, in front of the text of the request and behind it. -/
def linkMarkup : HttpStatusCode → Str × Str
  | .k301MovePermanently => ("<'".toList, "'><>".toList)
  | _ => ([], [])

variable {method url version}

theorem ErrorSite.markup {sc : HttpStatusCode} {error : HttpError} {msg : Str}
    (site : ErrorSite method url version sc error msg) :
    Cppmhd.markup msg = (linkMarkup sc).1 ++ Cppmhd.markup (reflected method url version error) ++
      (linkMarkup sc).2 := by
  cases site with
  | redirect =>
    have opening : Cppmhd.markup "<a href='".toList = "<'".toList := by decide
    have slash : Cppmhd.markup ['/'] = [] := by decide
    have closing : Cppmhd.markup "'>Redirecting...</a>".toList = "'><>".toList := by decide
    rw [markup_append, markup_append, markup_append, opening, slash, closing, List.append_nil]
    rfl
  | badMethod | badHost | badVersion | notFound | dataInGet | noProcessor | processorFailed =>
    simp [reflected, linkMarkup, Cppmhd.markup, isMarkup]

end Messages

/-! ## What the callback reports -/

section Reports

variable {σ Ctrl P : Type} {PROJECT_SERVER_HEADER method url version : Str} {pcre : Pcre}
  {http : HttpImplement σ Ctrl P HttpResponse} {s s' : Session σ Ctrl P HttpResponse}

/-- An error has the message of its site, and is answered by the default error handler. -/
def Event.Reports (PROJECT_SERVER_HEADER method url version : Str) : Event P HttpResponse → Prop
  | .errorHandler sc error msg result => ErrorSite method url version sc error msg ∧
      result = some (defaultErrorHandler PROJECT_SERVER_HEADER sc error msg)
  | .onConnection | .onData _ _ _ | .onRequest | .header _ _ _ | .queued _ => True

/-- What is added to the events reports errors of these sites only. -/
def Adds (PROJECT_SERVER_HEADER method url version : Str)
    (events events' : List (Event P HttpResponse)) : Prop :=
  ∃ new, events' = events ++ new ∧
    ∀ event ∈ new, event.Reports PROJECT_SERVER_HEADER method url version

variable {events events' : List (Event P HttpResponse)}

theorem Adds.none : Adds PROJECT_SERVER_HEADER method url version events events :=
  ⟨[], (List.append_nil _).symm, nofun⟩

theorem Adds.then {event : Event P HttpResponse}
    (adds : Adds PROJECT_SERVER_HEADER method url version events events')
    (here : event.Reports PROJECT_SERVER_HEADER method url version) :
    Adds PROJECT_SERVER_HEADER method url version events (events' ++ [event]) := by
  obtain ⟨new, rfl, all⟩ := adds
  refine ⟨new ++ [event], List.append_assoc _ _ _, fun e member => ?_⟩
  rcases List.mem_append.mp member with old | last
  · exact all e old
  · rw [List.mem_singleton.mp last]
    exact here

theorem Adds.send (adds : Adds PROJECT_SERVER_HEADER method url version events s.events)
    (sent : s.send = some s') :
    Adds PROJECT_SERVER_HEADER method url version events s'.events := by
  obtain ⟨resp, -, rfl⟩ := send_eq_some sent
  exact adds.then trivial

theorem noData_adds (returned : noData http s = some s') :
    Adds PROJECT_SERVER_HEADER method url version s.events s'.events := by
  have finish : ∀ t : Session σ Ctrl P HttpResponse,
      Adds PROJECT_SERVER_HEADER method url version s.events t.events →
        (if t.co.response.isSome then t.send else some t) = some s' →
          Adds PROJECT_SERVER_HEADER method url version s.events s'.events := by
    intro t adds finished
    split at finished
    · exact adds.send finished
    · obtain rfl := Option.some.inj finished
      exact adds
  unfold noData at returned
  split at returned
  · split at returned
    · exact absurd returned nofun
    · obtain rfl := Option.some.inj returned
      exact Adds.none.then (by trivial)
  · dsimp only at returned
    split at returned
    · exact finish _ (Adds.none.then (by trivial)) returned
    · exact finish _ Adds.none returned

variable (defaults : http.code.DefaultErrors PROJECT_SERVER_HEADER)
include defaults

theorem Adds.error (adds : Adds PROJECT_SERVER_HEADER method url version events s.events)
    {sc : HttpStatusCode} {error : HttpError} {msg : Str}
    (site : ErrorSite method url version sc error msg) :
    Adds PROJECT_SERVER_HEADER method url version events
      (s.error http.code sc error msg).events :=
  adds.then ⟨site, defaults _ _ _ _ _⟩

theorem checkRequest_adds (s : Session σ Ctrl P HttpResponse) :
    Adds PROJECT_SERVER_HEADER method url version s.events
        (http.checkRequest s version).events ∧
      (http.checkRequest s version).co.request.uri = s.co.request.uri := by
  unfold HttpImplement.checkRequest
  dsimp only
  split_ifs
  · exact ⟨Adds.none.error defaults .badHost, rfl⟩
  · exact ⟨Adds.none.error defaults .badVersion, rfl⟩
  · exact ⟨Adds.none, rfl⟩

theorem sendTSR_adds (adds : Adds PROJECT_SERVER_HEADER method url version events s.events)
    (uri : s.co.request.uri = url) (sent : sendTSR http.code s = some s') :
    Adds PROJECT_SERVER_HEADER method url version events s'.events := by
  unfold sendTSR at sent
  dsimp only at sent
  split at sent
  · exact absurd sent nofun
  · refine Adds.send ?_ sent
    rw [uri]
    exact (adds.error defaults .redirect).then trivial

theorem firstRound_adds {conn : MHD_Connection} {m : HttpMethod} {user : σ}
    (returned : firstRound pcre http conn url m method version user = some s) :
    Adds PROJECT_SERVER_HEADER method url version [] s.events := by
  unfold firstRound at returned
  dsimp only at returned
  obtain ⟨checked, uri⟩ := @checkRequest_adds _ _ _ _ method url version http defaults
    (Incoming.session conn url m user)
  unfold Incoming.session at checked uri
  generalize http.checkRequest _ version = first at returned checked uri
  split at returned
  · exact checked.send returned
  · generalize http.router.forward pcre _ _ _ = r at returned
    split at returned
    · split at returned
      · exact Adds.send (checked.then (by trivial)) returned
      · obtain rfl := Option.some.inj returned
        exact checked.then trivial
    · split at returned
      · exact sendTSR_adds (s := first.route r) defaults checked uri returned
      · exact Adds.send (Adds.error (s := first.route r) defaults checked .notFound) returned

theorem bodyData_adds (s : Session σ Ctrl P HttpResponse) (bytes : Str) :
    Adds PROJECT_SERVER_HEADER method url version s.events
      (bodyData http url method bytes s).2.events := by
  unfold bodyData
  split
  · exact Adds.none.error defaults .dataInGet
  · split
    · exact Adds.none.error defaults .noProcessor
    · rename_i pp processor
      have received : Adds PROJECT_SERVER_HEADER method url version s.events
          (s.receive.onData http.code pp (some bytes)).2.events := by
        rw [onData_events, receive_events]
        exact Adds.none.then trivial
      dsimp only
      split
      · exact received.error defaults .processorFailed
      · exact received

theorem laterRound_adds {data : Option Str} {left : ℕ}
    (returned : laterRound http url method data s = some (left, s')) :
    Adds PROJECT_SERVER_HEADER method url version s.events s'.events := by
  have resend : s.send.map (0, ·) = some (left, s') →
      Adds PROJECT_SERVER_HEADER method url version s.events s'.events := by
    intro returned
    obtain ⟨_, sent, same⟩ := Option.map_eq_some_iff.mp returned
    obtain ⟨-, rfl⟩ := Prod.mk.inj same
    exact Adds.none.send sent
  unfold laterRound at returned
  split_ifs at returned with error initial
  · split at returned
    · obtain ⟨-, rfl⟩ := Prod.mk.inj (Option.some.inj returned)
      exact Adds.none
    · exact resend returned
  · split at returned
    · obtain ⟨_, silent, same⟩ := Option.map_eq_some_iff.mp returned
      obtain ⟨-, rfl⟩ := Prod.mk.inj same
      exact noData_adds silent
    · rename_i bytes
      have same := congrArg Prod.snd (Option.some.inj returned)
      dsimp only at same
      rw [← same]
      exact bodyData_adds defaults s bytes

/-- Every error that a call reports has the message of its site. -/
theorem callback_adds {conn : MHD_Connection} {data : Option Str} {left : ℕ}
    {c c' : Connection σ Ctrl P HttpResponse}
    (returned : MHDconnectionCB pcre http conn url method version data c = some (left, c')) :
    Adds PROJECT_SERVER_HEADER method url version c.events c'.events := by
  unfold MHDconnectionCB at returned
  split at returned
  · dsimp only at returned
    split at returned
    · obtain ⟨resp, answered, same⟩ := Option.map_eq_some_iff.mp returned
      obtain ⟨-, rfl⟩ := Prod.mk.inj same
      refine ⟨_, rfl, fun event member => ?_⟩
      simp only [List.mem_cons, List.not_mem_nil, or_false] at member
      rcases member with rfl | rfl
      · exact ⟨.badMethod, defaults _ _ _ _ _⟩
      · exact trivial
    · obtain ⟨s, round, same⟩ := Option.map_eq_some_iff.mp returned
      obtain ⟨-, rfl⟩ := Prod.mk.inj same
      obtain ⟨new, events, all⟩ := firstRound_adds defaults round
      rw [List.nil_append] at events
      exact ⟨new, by rw [← events], all⟩
  · obtain ⟨⟨_, s⟩, round, same⟩ := Option.map_eq_some_iff.mp returned
    obtain ⟨-, rfl⟩ := Prod.mk.inj same
    exact laterRound_adds defaults round

end Reports

/-! ## Two requests -/

theorem pageTail_ne_nil (PROJECT_SERVER_HEADER : Str) : pageTail PROJECT_SERVER_HEADER ≠ [] := by
  intro empty
  unfold pageTail at empty
  rw [List.append_eq_nil_iff, List.append_eq_nil_iff, List.append_eq_nil_iff] at empty
  exact absurd empty.1.1.1 (by decide)

theorem page_eq (PROJECT_SERVER_HEADER : Str) (sc : HttpStatusCode) (error : HttpError) (msg : Str) :
    (defaultErrorHandler PROJECT_SERVER_HEADER sc error msg).body.2.1 =
      some (pageHead sc ++ msg ++ pageTail PROJECT_SERVER_HEADER) := by
  have filled : (pageHead sc ++ msg ++ pageTail PROJECT_SERVER_HEADER).length ≠ 0 := by
    rw [List.length_append]
    have positive := List.length_pos_iff.mpr (pageTail_ne_nil PROJECT_SERVER_HEADER)
    omega
  unfold defaultErrorHandler
  dsimp only
  generalize pageHead sc ++ msg ++ pageTail PROJECT_SERVER_HEADER = estr at filled ⊢
  simp only [HttpResponse.call, HttpResponse.header, HttpResponse.bodyString, HttpResponse.bodyData,
    if_neg filled, Bool.false_eq_true, if_false, List.take_length]

/-- A call of the callback of an application with the default error handler generates this page. -/
inductive Generates (PROJECT_SERVER_HEADER method url version : Str) (sc : HttpStatusCode)
    (error : HttpError) (page : Str) : Prop
  | call {σ Ctrl P : Type} {pcre : Pcre} {http : HttpImplement σ Ctrl P HttpResponse}
      {conn : MHD_Connection} {data : Option Str} {left : ℕ} {c c' : Connection σ Ctrl P HttpResponse}
      {new : List (Event P HttpResponse)} {msg : Str} {resp : HttpResponse}
      (defaults : http.code.DefaultErrors PROJECT_SERVER_HEADER)
      (returned : MHDconnectionCB pcre http conn url method version data c = some (left, c'))
      (added : c'.events = c.events ++ new) (reported : .errorHandler sc error msg (some resp) ∈ new)
      (body : resp.body.2.1 = some page)

theorem Generates.markup {PROJECT_SERVER_HEADER method url version : Str} {sc : HttpStatusCode}
    {error : HttpError} {page : Str}
    (generates : Generates PROJECT_SERVER_HEADER method url version sc error page) :
    Cppmhd.markup page = Cppmhd.markup (pageHead sc) ++ ((linkMarkup sc).1 ++
      Cppmhd.markup (reflected method url version error) ++ (linkMarkup sc).2) ++
        Cppmhd.markup (pageTail PROJECT_SERVER_HEADER) := by
  obtain ⟨defaults, returned, added, reported, body⟩ := generates
  obtain ⟨new, events, all⟩ := callback_adds defaults returned
  obtain rfl := List.append_cancel_left (added.symm.trans events)
  obtain ⟨site, same⟩ := all _ reported
  rw [Option.some.inj same, page_eq, Option.some.injEq] at body
  rw [← body, markup_append, markup_append, site.markup]

/-- Two pages for the same code have the same markup if and only if the texts of the two requests in
them have. -/
theorem error_pages_iff {PROJECT_SERVER_HEADER : Str} {sc : HttpStatusCode}
    {method url version method' url' version' : Str} {error error' : HttpError} {page page' : Str}
    (first : Generates PROJECT_SERVER_HEADER method url version sc error page)
    (second : Generates PROJECT_SERVER_HEADER method' url' version' sc error' page') :
    markup page = markup page' ↔
      markup (reflected method url version error) = markup (reflected method' url' version' error') := by
  rw [first.markup, second.markup, List.append_cancel_right_eq, List.append_cancel_left_eq,
    List.append_cancel_right_eq, List.append_cancel_left_eq]

/-- An application without routes. -/
def emptyServer : HttpImplement Unit ℕ ℕ HttpResponse where
  router := (Router.buildTree anyPcre [] ⟨[]⟩).1
  code :=
    { errorHandler := fun req sc error msg _ =>
        ⟨some (defaultErrorHandler "cppmhd/0".toList sc error msg), req.bind (·.processor), ()⟩
      onConnection := fun _ req _ _ => ⟨none, req.processor, ()⟩
      onRequest := fun _ req _ _ => ⟨none, req.processor, ()⟩
      onData := fun _ req _ _ => ⟨0, req.processor, ()⟩ }

def missingMessage (url : Str) : Str := "GET to ".toList ++ url ++ " not found".toList

/-- The page of a `GET` request to it. -/
def missingPage (url : Str) : Str :=
  pageHead .k404NotFound ++ missingMessage url ++ pageTail "cppmhd/0".toList

theorem missingPage_generated (url : Str) : Generates "cppmhd/0".toList "GET".toList url
    "HTTP/1.1".toList .k404NotFound .ROUTER_NOT_FOUND (missingPage url) := by
  let resp := defaultErrorHandler "cppmhd/0".toList .k404NotFound .ROUTER_NOT_FOUND (missingMessage url)
  have returned : ∃ c', MHDconnectionCB anyPcre emptyServer ⟨fun _ => none⟩ url "GET".toList
      "HTTP/1.1".toList none { user := () } = some (0, c') ∧ c'.events =
        [.errorHandler .k404NotFound .ROUTER_NOT_FOUND (missingMessage url) (some resp), .queued resp] :=
    ⟨_, rfl, rfl⟩
  obtain ⟨c', returned, events⟩ := returned
  exact ⟨fun _ _ _ _ _ => rfl, returned, events, List.mem_cons_self, page_eq _ _ _ _⟩

theorem error_pages_plain : markup (missingPage "/x".toList) = markup (missingPage "/y".toList) :=
  (error_pages_iff (missingPage_generated _) (missingPage_generated _)).mpr (by decide)

/-- The path of a request puts an element into the page. -/
theorem element_inserted :
    Generates "cppmhd/0".toList "GET".toList "/<b>".toList "HTTP/1.1".toList .k404NotFound
        .ROUTER_NOT_FOUND (missingPage "/<b>".toList) ∧
      Generates "cppmhd/0".toList "GET".toList "/x".toList "HTTP/1.1".toList .k404NotFound
        .ROUTER_NOT_FOUND (missingPage "/x".toList) ∧
      markup (missingPage "/<b>".toList) ≠ markup (missingPage "/x".toList) :=
  ⟨missingPage_generated _, missingPage_generated _, by decide +kernel⟩

end Cppmhd
