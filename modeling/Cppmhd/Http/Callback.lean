import Cppmhd.Router.Forward

/-!
# The connection callback

`MHDconnectionCB` of `http.cc` with the objects that it keeps between the calls of one request
(`entity.h`).  The error handler, the controllers and the processors are user code: functions that
may change their own state and the processor of the request.  What the callback does to the outside
is the list of its events.  A violated `assert` and the use of a null pointer are `none`.
-/

namespace Cppmhd

/-- A `size_t`. -/
abbrev SizeT := UInt64

/-- Source `DataProcessor::DataProcessorParseFailed`. -/
def DataProcessorParseFailed : SizeT := 0xFFFFFFFFFFFFFFFF

/-- The codes of source `HttpStatusCode` that the callback sends. -/
inductive HttpStatusCode where
  | k301MovePermanently | k400BadRequest | k404NotFound | k405MethodNotAllowed
  | k505HttpVersionNotSupported
  deriving DecidableEq, Repr

/-- Source `HttpError`, as far as the callback uses it. -/
inductive HttpError where
  | OK
  | DATA_IN_GET_REQUEST | DATA_PROCESSOR_NOT_SET | DATA_PROCESSOR_RETURN_ERROR
  | BAD_HTTP_METHOD | BAD_HTTP_VERSION
  | ROUTER_NOT_FOUND | TSR_FOUND | HOST_FIELD_INCORRECT
  deriving DecidableEq, Repr

/-- Source `RequestState`. -/
inductive RequestState where
  | INITIAL | INITIAL_COMPLETE | DATA_RECEIVING | DATA_RECEIVED | RS_ERROR
  deriving DecidableEq, Repr

/-! ## C strings

A `const char *` is the list of the characters before its terminator.
-/

/-- `std::string::c_str`, as a C function reads it. -/
def c_str (s : Str) : Str := s.takeWhile (· ≠ '\x00')

/-- Source `parseHttpMethod`: `strncmp` with the length of each name, in the source's order. -/
def parseHttpMethod (mth : Str) : Option HttpMethod :=
  if isPrefix mth "GET".toList then some .GET
  else if isPrefix mth "POST".toList then some .POST
  else if isPrefix mth "PUT".toList then some .PUT
  else if isPrefix mth "DELETE".toList then some .DELETE
  else if isPrefix mth "OPTIONS".toList then some .OPTIONS
  else if isPrefix mth "HEAD".toList then some .HEAD
  else if isPrefix mth "TRACE".toList then some .TRACE
  else if isPrefix mth "PATCH".toList then some .PATCH
  else if isPrefix mth "CONNECT".toList then some .CONNECT
  else none

/-! ## The objects of a request -/

/-- A connection of MHD: `MHD_lookup_connection_value` of its request headers. -/
structure MHD_Connection where
  header : Str → Option Str

/-- Source `HttpRequest`, which user code sees. -/
structure HttpRequest (P : Type) where
  conn : MHD_Connection
  uri : Str
  method : HttpMethod
  param : Params := []
  processor : Option P := none

/-- Source `MHDHttpRequest`. -/
structure MHDHttpRequest (P : Type) extends HttpRequest P where
  state : RequestState := .INITIAL

/-- Source `ConnectionObject`, without the counter of debug builds. -/
structure ConnectionObject (Ctrl P Resp : Type) where
  request : MHDHttpRequest P
  response : Option Resp := none
  ctrl : Option Ctrl := none

/-! ## User code -/

/-- What a call of user code leaves behind: the value that it returns or writes to its response
argument, the processor of the request, and its own state. -/
structure Outcome (σ P α : Type) where
  value : α
  processor : Option P
  user : σ

/-- The error handler, the controllers and the processors of an application. -/
structure UserCode (σ Ctrl P Resp : Type) where
  errorHandler : Option (HttpRequest P) → HttpStatusCode → HttpError → Str → σ →
    Outcome σ P (Option Resp)
  onConnection : Ctrl → HttpRequest P → Option Resp → σ → Outcome σ P (Option Resp)
  onRequest : Ctrl → HttpRequest P → Option Resp → σ → Outcome σ P (Option Resp)
  /-- The bytes are `none` for the arguments `nullptr, 0`. -/
  onData : P → HttpRequest P → Option Str → σ → Outcome σ P SizeT

/-- The parts of source `HttpImplement` that the callback uses. -/
structure HttpImplement (σ Ctrl P Resp : Type) where
  host : Str := []
  router : Router Ctrl
  code : UserCode σ Ctrl P Resp

/-- What the callback does to user code and to MHD. -/
inductive Event (P Resp : Type) where
  | errorHandler (sc : HttpStatusCode) (error : HttpError) (msg : Str) (result : Option Resp)
  | onConnection
  | onData (pp : P) (data : Option Str) (result : SizeT)
  | onRequest
  /-- `resp->header(name, value)`. -/
  | header (resp : Resp) (name value : Str)
  /-- `MHD_queue_response`. -/
  | queued (resp : Resp)
  deriving DecidableEq

/-- The connection object and everything outside it that a call changes. -/
structure Session (σ Ctrl P Resp : Type) where
  co : ConnectionObject Ctrl P Resp
  user : σ
  events : List (Event P Resp)

/-- The same before the first call, when `*con_cls` is null. -/
structure Connection (σ Ctrl P Resp : Type) where
  con_cls : Option (ConnectionObject Ctrl P Resp) := none
  user : σ
  events : List (Event P Resp) := []

variable {σ Ctrl P Resp : Type}

/-- The session as the next call finds it. -/
def Session.toConnection (s : Session σ Ctrl P Resp) : Connection σ Ctrl P Resp :=
  ⟨some s.co, s.user, s.events⟩

/-- `co->raw->state() = state`. -/
def Session.setState (s : Session σ Ctrl P Resp) (state : RequestState) : Session σ Ctrl P Resp :=
  { s with co := { s.co with request := { s.co.request with state := state } } }

/-- A call of user code that writes the response. -/
def Session.respond (s : Session σ Ctrl P Resp) (o : Outcome σ P (Option Resp))
    (event : Event P Resp) : Session σ Ctrl P Resp :=
  { co := { s.co with response := o.value
                      request := { s.co.request with processor := o.processor } }
    user := o.user
    events := s.events ++ [event] }

/-- Source `sendHttpResponsePtr`, with the `assert` of `createResponse`.  MHD takes a response at
every call where the callback has one. -/
def Session.send (s : Session σ Ctrl P Resp) : Option (Session σ Ctrl P Resp) :=
  s.co.response.map fun resp => { s with events := s.events ++ [.queued resp] }

section Callback

variable (code : UserCode σ Ctrl P Resp)

/-- `co->response = http->getErrorHandler()(co->request, …)`. -/
def Session.error (s : Session σ Ctrl P Resp) (sc : HttpStatusCode) (error : HttpError) (msg : Str) :
    Session σ Ctrl P Resp :=
  let o := code.errorHandler (some s.co.request.toHttpRequest) sc error msg s.user
  s.respond o (.errorHandler sc error msg o.value)

/-- `co->ctrl->onConnection(co->request, co->response)`. -/
def Session.onConnection (s : Session σ Ctrl P Resp) (ctrl : Ctrl) : Session σ Ctrl P Resp :=
  s.respond (code.onConnection ctrl s.co.request.toHttpRequest s.co.response s.user) .onConnection

/-- `co->ctrl->onRequest(co->request, co->response)`. -/
def Session.onRequest (s : Session σ Ctrl P Resp) (ctrl : Ctrl) : Session σ Ctrl P Resp :=
  s.respond (code.onRequest ctrl s.co.request.toHttpRequest s.co.response s.user) .onRequest

/-- `pp->onData(co->request, data, *dataSize)`: its result and what it leaves behind. -/
def Session.onData (s : Session σ Ctrl P Resp) (pp : P) (data : Option Str) :
    SizeT × Session σ Ctrl P Resp :=
  let o := code.onData pp s.co.request.toHttpRequest data s.user
  (o.value,
    { co := { s.co with request := { s.co.request with processor := o.processor } }
      user := o.user
      events := s.events ++ [.onData pp data o.value] })

/-- Source `sendTSR`. -/
def sendTSR (s : Session σ Ctrl P Resp) : Option (Session σ Ctrl P Resp) :=
  let next := s.co.request.uri ++ ['/']
  let s := s.error code .k301MovePermanently .TSR_FOUND
    ("<a href='".toList ++ next ++ "'>Redirecting...</a>".toList)
  match s.co.response with
  | none => none
  | some resp => Session.send { s with events := s.events ++ [.header resp "Location".toList next] }

variable (pcre : Pcre) (http : HttpImplement σ Ctrl P Resp)

/-- Source `HttpImplement::checkRequest`; the null result leaves the response null. -/
def HttpImplement.checkRequest (s : Session σ Ctrl P Resp) (version : Str) :
    Session σ Ctrl P Resp :=
  let h := s.co.request.conn.header "Host".toList
  if http.host.length ≠ 0 ∧ h ≠ some (c_str http.host) then
    s.error http.code .k400BadRequest .HOST_FIELD_INCORRECT "Host Field Not Set Correctly".toList
  else if version ≠ "HTTP/1.1".toList then
    s.error http.code .k505HttpVersionNotSupported .BAD_HTTP_VERSION
      ("Bad HTTP Version ".toList ++ version ++
        ". HTTP1/1 is the only acceptable version".toList)
  else s

/-- The first round, behind the test of the method. -/
def firstRound (conn : MHD_Connection) (url : Str) (mtd : HttpMethod) (method version : Str)
    (user : σ) : Option (Session σ Ctrl P Resp) :=
  let s := http.checkRequest
    { co := { request := { conn := conn, uri := url, method := mtd } }, user := user, events := [] }
    version
  if s.co.response.isSome then s.send
  else
    let r := http.router.forward pcre s.co.request.method s.co.request.uri s.co.request.param
    let s := { s with co := { s.co with
      request := { s.co.request with param := r.params }, ctrl := r.ctrl } }
    match r.ctrl with
    | some ctrl =>
      let s := s.onConnection http.code ctrl
      if s.co.response.isSome then s.send else some (s.setState .INITIAL_COMPLETE)
    | none =>
      if r.tsr then sendTSR http.code s
      else (s.error http.code .k404NotFound .ROUTER_NOT_FOUND
        (method ++ " to ".toList ++ url ++ " not found".toList)).send

/-- A later round without data: the end of an upload, or the request itself. -/
def noData (s : Session σ Ctrl P Resp) : Option (Session σ Ctrl P Resp) :=
  if s.co.request.state = .DATA_RECEIVING then
    match s.co.request.processor with
    | none => none
    | some pp => some ((s.onData http.code pp none).2.setState .DATA_RECEIVED)
  else
    let s := match s.co.ctrl with
      | some ctrl => s.onRequest http.code ctrl
      | none => s
    if s.co.response.isSome then s.send else some s

/-- Body data reaches a processor. -/
def Session.receive (s : Session σ Ctrl P Resp) : Session σ Ctrl P Resp :=
  if s.co.request.state = .INITIAL_COMPLETE then s.setState .DATA_RECEIVING else s

/-- `*dataSize -= size` behind the corrections of `size`. -/
def dataSizeLeft (dataSize size : SizeT) : SizeT :=
  dataSize -
    if size = DataProcessorParseFailed then dataSize else if size > dataSize then dataSize else size

/-- A later round with body data: what is left in `*dataSize`, and the session. -/
def bodyData (url method bytes : Str) (s : Session σ Ctrl P Resp) : ℕ × Session σ Ctrl P Resp :=
  if s.co.request.method = .GET then
    (0, (s.error http.code .k400BadRequest .DATA_IN_GET_REQUEST
      ("Data in GET Request to ".toList ++ url)).setState .RS_ERROR)
  else match s.co.request.processor with
  | none =>
    (0, (s.error http.code .k405MethodNotAllowed .DATA_PROCESSOR_NOT_SET
      ("Data Processor not set in ".toList ++ method ++ " Request to ".toList ++ url)).setState
        .RS_ERROR)
  | some pp =>
    let r := s.receive.onData http.code pp (some bytes)
    ((dataSizeLeft (.ofNat bytes.length) r.1).toNat,
      if r.1 = DataProcessorParseFailed then
        (r.2.error http.code .k400BadRequest .DATA_PROCESSOR_RETURN_ERROR
          ("Data Processor return an error in ".toList ++ method ++ " Request to ".toList ++
            url)).setState .RS_ERROR
      else r.2)

/-- The later rounds: what is left in `*dataSize`, and the session. -/
def laterRound (url method : Str) (data : Option Str) (s : Session σ Ctrl P Resp) :
    Option (ℕ × Session σ Ctrl P Resp) :=
  if s.co.request.state = .RS_ERROR then
    match data with
    | some (_ :: _) => some (0, s)
    | _ => s.send.map (0, ·)
  else if s.co.request.state = .INITIAL then none
  else match data with
  | none => (noData http s).map (0, ·)
  | some bytes => some (bodyData http url method bytes s)

/-- Source `MHDconnectionCB`: what is left in `*dataSize`, and the connection.  `data` is `none` for
the arguments `nullptr, 0`. -/
def MHDconnectionCB (conn : MHD_Connection) (url method version : Str) (data : Option Str)
    (c : Connection σ Ctrl P Resp) : Option (ℕ × Connection σ Ctrl P Resp) :=
  match c.con_cls with
  | none =>
    let dataSize := (data.getD []).length
    match parseHttpMethod method with
    | none =>
      let msg := "un-acceptable Http Method: ".toList ++ method
      let o := http.code.errorHandler none .k405MethodNotAllowed .BAD_HTTP_METHOD msg c.user
      let event := .errorHandler .k405MethodNotAllowed .BAD_HTTP_METHOD msg o.value
      o.value.map fun resp => (dataSize, ⟨none, o.user, c.events ++ [event, .queued resp]⟩)
    | some mtd =>
      (firstRound pcre http conn url mtd method version c.user).map fun s =>
        (dataSize, ⟨some s.co, s.user, c.events ++ s.events⟩)
  | some co =>
    (laterRound http url method data ⟨co, c.user, c.events⟩).map fun r => (r.1, r.2.toConnection)

end Callback

end Cppmhd
