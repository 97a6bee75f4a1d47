import Cppmhd.Http.Callback

/-!
# The method of a request

`parseHttpMethod` compares only as many characters as a name has, so it takes a method for the name
that it begins with (`parseHttpMethod_iff`).  No name begins with another one, so the order of the
comparisons does not matter.
-/

namespace Cppmhd

/-- The value of `MHD_HTTP_METHOD_<name>`. -/
def HttpMethod.name : HttpMethod → Str
  | .GET => "GET".toList
  | .HEAD => "HEAD".toList
  | .POST => "POST".toList
  | .PUT => "PUT".toList
  | .DELETE => "DELETE".toList
  | .OPTIONS => "OPTIONS".toList
  | .CONNECT => "CONNECT".toList
  | .TRACE => "TRACE".toList
  | .PATCH => "PATCH".toList

/-- The parser accepts the names and nothing else. -/
def ParsedExactly (s : Str) : Prop := ∀ m, parseHttpMethod s = some m ↔ s = m.name

/-- The first call with this method is answered with 405 before there is a request to route. -/
def NotRouted (method : Str) : Prop :=
  ∀ (σ Ctrl P Resp : Type) (pcre : Pcre) (http : HttpImplement σ Ctrl P Resp) (conn : MHD_Connection)
    (url version : Str) (data : Option Str) (user : σ) (n : ℕ) (c : Connection σ Ctrl P Resp),
    MHDconnectionCB pcre http conn url method version data ⟨none, user, []⟩ = some (n, c) →
      c.con_cls = none ∧ ∃ resp, c.events =
        [.errorHandler .k405MethodNotAllowed .BAD_HTTP_METHOD
          ("un-acceptable Http Method: ".toList ++ method) (some resp), .queued resp]

theorem name_prefix_free {m m' : HttpMethod} (begins : m.name <+: m'.name) : m = m' := by
  cases m <;> cases m' <;> first | rfl | exact absurd begins (by decide)

/-- The methods in the order in which the source compares them. -/
def comparedMethods : List HttpMethod :=
  [.GET, .POST, .PUT, .DELETE, .OPTIONS, .HEAD, .TRACE, .PATCH, .CONNECT]

theorem parseHttpMethod_eq (s : Str) :
    parseHttpMethod s = comparedMethods.find? fun m => isPrefix s m.name := by
  have compare : ∀ (m : HttpMethod) (ms : List HttpMethod),
      (m :: ms).find? (fun m => isPrefix s m.name) =
        if isPrefix s m.name then some m else ms.find? fun m => isPrefix s m.name := by
    intro m ms
    rw [List.find?_cons]
    cases isPrefix s m.name <;> rfl
  unfold comparedMethods
  iterate 9 rw [compare]
  rfl

/-- A method is taken for the name that it begins with. -/
theorem parseHttpMethod_iff {s : Str} {m : HttpMethod} :
    parseHttpMethod s = some m ↔ m.name <+: s := by
  have begins_of_parsed : ∀ {m : HttpMethod}, parseHttpMethod s = some m → m.name <+: s := by
    intro m parsed
    rw [parseHttpMethod_eq] at parsed
    have matched : isPrefix s m.name = true := by simpa using List.find?_some parsed
    exact (isPrefix_iff s m.name).mp matched
  refine ⟨begins_of_parsed, fun begins => ?_⟩
  have compared : m ∈ comparedMethods := by cases m <;> decide
  have found : parseHttpMethod s ≠ none := by
    rw [parseHttpMethod_eq, ne_eq, List.find?_eq_none]
    exact fun none => none m compared ((isPrefix_iff _ _).mpr begins)
  obtain ⟨m', parsed⟩ := Option.ne_none_iff_exists'.mp found
  rcases List.prefix_or_prefix_of_prefix begins (begins_of_parsed parsed) with shorter | shorter
  · rw [parsed, name_prefix_free shorter]
  · rw [parsed, name_prefix_free shorter]

theorem notRouted_of_rejected {method : Str} (rejected : parseHttpMethod method = none) :
    NotRouted method := by
  intro σ Ctrl P Resp pcre http conn url version data user n c returned
  simp only [MHDconnectionCB, rejected] at returned
  obtain ⟨resp, answered, same⟩ := Option.map_eq_some_iff.mp returned
  obtain ⟨-, rfl⟩ := Prod.mk.inj same
  rw [answered]
  exact ⟨rfl, resp, rfl⟩

/-- A method is parsed exactly, and refused if it is no name, if and only if it is a name or begins with
none. -/
theorem method_exact_iff (s : Str) :
    (ParsedExactly s ∧ ((∀ m : HttpMethod, s ≠ m.name) → NotRouted s)) ↔
      (∃ m : HttpMethod, s = m.name) ∨ ∀ m : HttpMethod, ¬ m.name <+: s := by
  constructor
  · rintro ⟨exact, -⟩
    by_cases named : ∃ m : HttpMethod, s = m.name
    · exact Or.inl named
    · right
      intro m begins
      exact named ⟨m, (exact m).mp (parseHttpMethod_iff.mpr begins)⟩
  · intro names
    refine ⟨fun m => ?_, fun other => ?_⟩
    · rw [parseHttpMethod_iff]
      constructor
      · intro begins
        rcases names with ⟨m', rfl⟩ | none
        · rw [name_prefix_free begins]
        · exact absurd begins (none m)
      · rintro rfl
        exact List.prefix_rfl
    · rcases names with ⟨m, named⟩ | none
      · exact absurd named (other m)
      · apply notRouted_of_rejected
        rw [Option.eq_none_iff_forall_ne_some]
        exact fun m parsed => none m (parseHttpMethod_iff.mp parsed)

/-- One route for GET. -/
def rootServer : HttpImplement Unit ℕ ℕ ℕ where
  router := (Router.buildTree anyPcre [] ⟨[(.GET, "/".toList, 7)]⟩).1
  code :=
    { errorHandler := fun _ _ _ _ _ => ⟨some 0, none, ()⟩
      onConnection := fun _ _ _ _ => ⟨none, none, ()⟩
      onRequest := fun _ _ _ _ => ⟨some 1, none, ()⟩
      onData := fun _ _ _ _ => ⟨0, none, ()⟩ }

/-- The method `GETX` is routed as GET. -/
theorem longer_method_routed :
    parseHttpMethod "GETX".toList = some .GET ∧ "GETX".toList ≠ HttpMethod.GET.name ∧
      (MHDconnectionCB anyPcre rootServer ⟨fun _ => none⟩ "/".toList "GETX".toList "HTTP/1.1".toList none
        ⟨none, (), []⟩).map (fun r => (r.2.con_cls.bind ConnectionObject.ctrl, r.2.events)) =
      some (some 7, [.onConnection]) :=
  ⟨by decide, by decide, by decide +kernel⟩

end Cppmhd
