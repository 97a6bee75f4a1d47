import Cppmhd.Server.Daemon
import Cppmhd.Http.Callback

/-!
# Starting an application

`App::start` of `app.cc`.  It moves the registered routes into the router before it knows that the
server starts.  `retryable_iff` says after which failures the application can be started again.
-/

namespace Cppmhd

/-- The address families that the code asks for. -/
inductive AddressFamily where
  | AF_INET | AF_INET6
  deriving DecidableEq, Repr

/-- Source `InetAddress`, with the bytes that `inet_pton` wrote. -/
structure InetAddress where
  ipv6 : Bool
  port : UInt16
  address : List UInt8
  deriving DecidableEq

/-- What an `App` meets when it starts: the system, MHD, and the run of the server until it stops. -/
structure Environment (D : Type) where
  /-- The bytes of an address, if `inet_pton` returns `1`. -/
  inet_pton : AddressFamily → Str → Option (List UInt8)
  getNProc : UInt32
  MHD_start_daemon : ℕ → Option D
  waiting : List ShutdownStep

/-- Source `InetAddress::parse`. -/
def InetAddress.parse (inet_pton : AddressFamily → Str → Option (List UInt8)) (input : Str)
    (port : UInt16) : Option InetAddress :=
  match inet_pton .AF_INET (c_str input) with
  | some address => some ⟨false, port, address⟩
  | none => (inet_pton .AF_INET6 (c_str input)).map fun address => ⟨true, port, address⟩

/-- Source `HttpImplement` as a whole. -/
structure Server (σ Ctrl P Resp D : Type) extends HttpImplement σ Ctrl P Resp where
  addr : InetAddress
  daemons : Daemons D := {}

/-- Source `App`; the error handler `eh` is part of the user code. -/
structure App (σ Ctrl P Resp D : Type) where
  address : Str
  port : UInt16
  builder : RouterBuilder Ctrl := {}
  http : Option (Server σ Ctrl P Resp D) := none
  threadCount : UInt32
  host : Str := []
  code : UserCode σ Ctrl P Resp

variable {σ Ctrl P Resp D : Type} (pcre : Pcre)

/-- Source `App::start`; `none` if the server that it started does not stop. -/
def App.start (app : App σ Ctrl P Resp D) (env : Environment D) :
    Option (CPPMHD_Error × App σ Ctrl P Resp D) :=
  match InetAddress.parse env.inet_pton app.address app.port with
  | some addr =>
    let r := Router.buildTree pcre [] app.builder
    let app := { app with builder := r.2 }
    if r.1.valid then
      let server : Server σ Ctrl P Resp D :=
        { host := app.host, router := r.1, code := app.code, addr := addr }
      (startMHDDaemon env.getNProc env.MHD_start_daemon app.threadCount server.daemons
        env.waiting).map fun d => (d.1, { app with http := some { server with daemons := d.2 } })
    else some (.CPPMHD_ROUTER_TREE_BUILD_FAILED, app)
  | none => some (.CPPMHD_LISTEN_ADDRESS_ERROR, app)

/-- A start that failed with an error left the routes: the next start fails alike under the same
conditions, and serves them when it succeeds. -/
structure Retryable (env : Environment D) (app : App σ Ctrl P Resp D) (error : CPPMHD_Error)
    (after : App σ Ctrl P Resp D) : Prop where
  table : after.builder = app.builder
  again : ∃ later, after.start pcre env = some (error, later)
  serves : ∀ env' later, after.start pcre env' = some (.CPPMHD_OK, later) →
    ∃ server, later.http = some server ∧
      server.router = (Router.buildTree pcre [] app.builder).1

section Start

variable {pcre} {env : Environment D} {app after : App σ Ctrl P Resp D} {error : CPPMHD_Error}

/-- What a start can do. -/
inductive Started (pcre : Pcre) (env : Environment D) (app : App σ Ctrl P Resp D) :
    CPPMHD_Error → App σ Ctrl P Resp D → Prop
  | address (unparsed : InetAddress.parse env.inet_pton app.address app.port = none) :
      Started pcre env app .CPPMHD_LISTEN_ADDRESS_ERROR app
  | routes {addr : InetAddress}
      (parsed : InetAddress.parse env.inet_pton app.address app.port = some addr)
      (invalid : (Router.buildTree pcre [] app.builder).1.valid = false) :
      Started pcre env app .CPPMHD_ROUTER_TREE_BUILD_FAILED { app with builder := {} }
  | daemons {addr : InetAddress} {server : Server σ Ctrl P Resp D}
      {r : CPPMHD_Error × Daemons D}
      (parsed : InetAddress.parse env.inet_pton app.address app.port = some addr)
      (valid : (Router.buildTree pcre [] app.builder).1.valid = true)
      (router : server.router = (Router.buildTree pcre [] app.builder).1)
      (returned : startMHDDaemon env.getNProc env.MHD_start_daemon app.threadCount {} env.waiting =
        some r) :
      Started pcre env app r.1 { app with builder := {}, http := some server }

theorem started_of_start (start : app.start pcre env = some (error, after)) :
    Started pcre env app error after := by
  unfold App.start at start
  split at start
  · rename_i addr parsed
    dsimp only at start
    split at start
    · rename_i valid
      obtain ⟨r, returned, same⟩ := Option.map_eq_some_iff.mp start
      obtain ⟨rfl, rfl⟩ := Prod.mk.inj same
      exact .daemons parsed valid rfl returned
    · rename_i invalid
      obtain ⟨rfl, rfl⟩ := Prod.mk.inj (Option.some.inj start)
      exact .routes parsed (Bool.eq_false_iff.mpr invalid)
  · rename_i unparsed
    obtain ⟨rfl, rfl⟩ := Prod.mk.inj (Option.some.inj start)
    exact .address unparsed

/-- A start looks at the parameters of the application and its routes, not at an earlier server. -/
theorem start_http (app : App σ Ctrl P Resp D) (http : Option (Server σ Ctrl P Resp D)) :
    (({ app with http := http } : App σ Ctrl P Resp D).start pcre env).map Prod.fst =
      (app.start pcre env).map Prod.fst := by
  unfold App.start
  dsimp only
  split
  · split
    · simp [Option.map_map, Function.comp_def]
    · rfl
  · rfl

theorem serves_of_start (start : app.start pcre env = some (.CPPMHD_OK, after)) :
    ∃ server, after.http = some server ∧
      server.router = (Router.buildTree pcre [] app.builder).1 := by
  generalize ok : CPPMHD_Error.CPPMHD_OK = error at start
  cases started_of_start start with
  | address | routes => exact absurd ok nofun
  | @daemons _ server _ _ _ router _ => exact ⟨server, rfl, router⟩

/-- With the routes the whole promise is kept. -/
theorem retryable_of_table (start : app.start pcre env = some (error, after))
    (table : after.builder = app.builder) : Retryable pcre env app error after := by
  have same : ∃ http, after = { app with http := http } := by
    cases started_of_start start with
    | address unparsed => exact ⟨app.http, rfl⟩
    | routes parsed invalid => exact ⟨app.http, congrArg (fun b => { app with builder := b }) table⟩
    | @daemons _ server _ _ _ _ _ =>
      exact ⟨some server, congrArg (fun b => { app with builder := b, http := some server }) table⟩
  refine ⟨table, ?_, fun env' later next => ?_⟩
  · obtain ⟨http, rfl⟩ := same
    have alike : (({ app with http := http } : App σ Ctrl P Resp D).start pcre env).map Prod.fst =
        (app.start pcre env).map Prod.fst := start_http app http
    rw [start] at alike
    obtain ⟨r, next, rfl⟩ := Option.map_eq_some_iff.mp alike
    exact ⟨r.2, next⟩
  · obtain ⟨server, there, router⟩ := serves_of_start next
    exact ⟨server, there, by rw [router, table]⟩

theorem RouterBuilder.empty_eq_iff {builder : RouterBuilder Ctrl} :
    {} = builder ↔ builder.routes = [] := by
  cases builder
  simp [eq_comm]

/-- A failed start can be retried if and only if the address was not parsed or there is no route. -/
theorem retryable_iff (start : app.start pcre env = some (error, after))
    (failed : error ≠ .CPPMHD_OK) :
    Retryable pcre env app error after ↔
      InetAddress.parse env.inet_pton app.address app.port = none ∨ app.builder.routes = [] := by
  have table : Retryable pcre env app error after ↔ after.builder = app.builder :=
    ⟨Retryable.table, retryable_of_table start⟩
  rw [table]
  cases started_of_start start with
  | address unparsed => exact iff_of_true rfl (Or.inl unparsed)
  | routes parsed invalid => simp [parsed, RouterBuilder.empty_eq_iff]
  | daemons parsed valid router returned => simp [parsed, RouterBuilder.empty_eq_iff]

end Start

/-! ## Examples of failed starts -/

/-- The system knows one address, and MHD starts what it is asked for. -/
def localhost : Environment ℕ where
  inet_pton family input :=
    if family = .AF_INET ∧ input = "127.0.0.1".toList then some [127, 0, 0, 1] else none
  getNProc := 4
  MHD_start_daemon i := some i
  waiting := oneStop

/-- An application with one route for GET, on any address. -/
def appWith (address path : Str) : App Unit ℕ ℕ ℕ ℕ where
  address := address
  port := 65432
  builder := ⟨[(.GET, path, 7)]⟩
  threadCount := 1
  code :=
    { errorHandler := fun _ _ _ _ _ => ⟨some 0, none, ()⟩
      onConnection := fun _ _ _ _ => ⟨none, none, ()⟩
      onRequest := fun _ _ _ _ => ⟨some 1, none, ()⟩
      onData := fun _ _ _ _ => ⟨0, none, ()⟩ }

theorem retryable_unparsed :
    ∃ after, Retryable anyPcre localhost (appWith "a.b.c.d".toList "/root".toList)
      .CPPMHD_LISTEN_ADDRESS_ERROR after := by
  have failed : ((appWith "a.b.c.d".toList "/root".toList).start anyPcre localhost).map Prod.fst =
      some .CPPMHD_LISTEN_ADDRESS_ERROR := by
    decide +kernel
  obtain ⟨⟨error, after⟩, start, rfl⟩ := Option.map_eq_some_iff.mp failed
  exact ⟨after, (retryable_iff start nofun).mpr (Or.inl (by decide +kernel))⟩

/-- Behind a bad route the second start succeeds, with no route at all; and behind a failure to listen
the route is lost. -/
theorem second_start_empty :
    (∃ after, (appWith "127.0.0.1".toList "////".toList).start anyPcre localhost =
        some (.CPPMHD_ROUTER_TREE_BUILD_FAILED, after) ∧
      ¬ Retryable anyPcre localhost (appWith "127.0.0.1".toList "////".toList)
        .CPPMHD_ROUTER_TREE_BUILD_FAILED after ∧
      (after.start anyPcre localhost).map (fun r => (r.1, r.2.http.map (·.router.trees.length))) =
        some (.CPPMHD_OK, some 0)) ∧
    (((appWith "127.0.0.1".toList "/root".toList).start anyPcre
        { localhost with MHD_start_daemon := fun _ => none }).map fun r =>
        (r.1, (r.2.start anyPcre localhost).map fun r => (r.1, r.2.http.map (·.router.trees.length)))) =
      some (.CPPMHD_LISTEN_FAILED, some (.CPPMHD_OK, some 0)) := by
  refine ⟨?_, by decide +kernel⟩
  have starts : (((appWith "127.0.0.1".toList "////".toList).start anyPcre localhost).map fun r =>
      (r.1, (r.2.start anyPcre localhost).map fun r => (r.1, r.2.http.map (·.router.trees.length)))) =
      some (.CPPMHD_ROUTER_TREE_BUILD_FAILED, some (.CPPMHD_OK, some 0)) := by
    decide +kernel
  obtain ⟨⟨error, after⟩, start, same⟩ := Option.map_eq_some_iff.mp starts
  obtain ⟨rfl, second⟩ := Prod.mk.inj same
  refine ⟨after, start, fun retryable => ?_, second⟩
  obtain ⟨later, again⟩ := retryable.again
  rw [again] at second
  exact absurd second (by simp)

end Cppmhd
