import Cppmhd.Router.Utils

/-!
# The route parser

`PathParser::parsePathSegment` of `router.cc` and the patterns of `router.h` it classifies the
segments with.  PCRE2 compiles the fixed patterns without options: `^` is the start of the subject,
`$` is its end or the position before a final newline, `\w` is an ASCII letter, digit or
underscore.
-/

namespace Cppmhd

/-! ## The fixed patterns -/

/-- `\w`. -/
def isWordChar (c : Char) : Bool := c.isAlphanum || c == '_'

/-- `NORMAL_URL_CHAR`. -/
def isNormalUrlChar (c : Char) : Bool := isWordChar c || c == '.' || c == '-' || c == '_'

/-- A whole match up to the assertion `$`. -/
def upToDollar (whole : Str → Bool) (subject : Str) : Bool :=
  whole subject || (subject.getLast? == some '\n' && whole subject.dropLast)

/-- Two neighbours of a string without `//`. -/
def NotSlashes (a b : Char) : Prop := ¬ (a = '/' ∧ b = '/')

instance (a b : Char) : Decidable (NotSlashes a b) := inferInstanceAs (Decidable (¬ _))

/-- `(/[^/]+)+/?` or `/`: rooted, and no segment is empty. -/
def isRoute (path : Str) : Bool := path.head? == some '/' && decide (path.IsChain NotSlashes)

/-- `URL_ROUTE_PATTERN`. -/
def routePattern : Str → Bool := upToDollar isRoute

/-- `URL_STATIC_PART_PATTERN`. -/
def normalStatic : Str → Bool := upToDollar fun part => part != [] && part.all isNormalUrlChar

/-- The closing `}$` of the wildcard patterns. -/
def closes : Str → Bool := upToDollar (· == ['}'])

/-- `(:(?<name>\w+))?}$`: the name, empty when the group takes no part. -/
def matchName (rest : Str) : Option Str :=
  match rest with
  | ':' :: rest =>
    let name := rest.takeWhile isWordChar
    if name ≠ [] ∧ closes (rest.dropWhile isWordChar) then some name else none
  | _ => if closes rest then some [] else none

/-- `URL_MATCHALL_PATTERN` with its groups `prefix` and `name`. -/
def matchCatchAll (part : Str) : Option (Str × Str) :=
  match part.dropWhile isNormalUrlChar with
  | '{' :: '*' :: '*' :: rest => (matchName rest).map fun name => (part.takeWhile isNormalUrlChar, name)
  | _ => none

/-- `(?<pattern>[^:]*)(:(?<name>\w+))?}$`: without a colon the greedy `pattern` runs up to the
closing brace. -/
def matchPattern (body : Str) : Option (Str × Str) :=
  match body.dropWhile (· ≠ ':') with
  | [] =>
    if body.getLast? = some '}' then some (body.dropLast, [])
    else if closes (body.drop (body.length - 2)) then some (body.take (body.length - 2), [])
    else none
  | rest => (matchName rest).map fun name => (body.takeWhile (· ≠ ':'), name)

/-- `URL_REGEX_PATTERN` with its groups `prefix`, `pattern` and `name`. -/
def matchParam (part : Str) : Option (Str × Str × Str) :=
  match part.dropWhile isNormalUrlChar with
  | '{' :: body => (matchPattern body).map fun g => (part.takeWhile isNormalUrlChar, g)
  | _ => none

/-- `URL_REGEX_DEFAULT_PATTERN`. -/
def URL_REGEX_DEFAULT_PATTERN : Str := "[\\w\\.\\-_]*".toList

/-! ## Parsing -/

/-- Source `RouterNodeType`. -/
inductive RouterNodeType where
  | UNKNOWN
  | ROOT
  | STATIC
  | PARAM
  | CATCH_ALL
  deriving DecidableEq, Repr

/-- A wildcard of a route, queued in path order. -/
structure Param where
  type : RouterNodeType
  pfx : Str
  name : Str
  pattern : Str := []
  re : Regex := .null
  deriving DecidableEq

/-- The formatter of `Param`. -/
def Param.format (p : Param) : Str :=
  match p.type with
  | .CATCH_ALL => p.pfx ++ "\x7b**:".toList ++ p.name ++ "\x7d".toList
  | .PARAM => p.pfx ++ "\x7b".toList ++ p.pattern ++ ":".toList ++ p.name ++ "\x7d".toList
  | _ => "error Param type".toList

/-- What the router logs when it refuses a route. -/
inductive RouteError where
  | badPattern (path : Str)
  | regexFailed (pattern path : Str)
  | unknownSegment (part path : Str)
  | wildcardConflict (fullPath : Str)
  | handleExists (fullPath : Str)
  | segmentConflict (pattern fullPath : Str)
  deriving DecidableEq

/-- The logged texts. -/
def RouteError.text : RouteError → Str
  | badPattern path => "Bad Route Pattern ".toList ++ path ++ ", skip".toList
  | regexFailed pattern path =>
    "Compile regex pattern '".toList ++ pattern ++ "' in path '".toList ++ path ++
      "' failed. skip...".toList
  | unknownSegment part path =>
    "Unknown URI segment '".toList ++ part ++ " of path '".toList ++ path ++ "', skip...".toList
  | wildcardConflict fullPath => "wildcard conflict ".toList ++ fullPath
  | handleExists fullPath => "Handle to ".toList ++ fullPath ++ " already exists.".toList
  | segmentConflict pattern fullPath =>
    "Wildcard segment ".toList ++ pattern ++ " conflicts with existing child in path ".toList ++
      fullPath

/-- Source `PathParser`. -/
structure PathParser where
  params : List Param := []
  calced : Str := []
  actualFullPath : Str := []
  deriving DecidableEq

/-- The locals of `parsePathSegment` at the head of its loop; `failed` is a non-empty log. -/
structure PartState where
  i : ℕ := 1
  calced : Str := []
  full : Str := []
  params : List Param := []
  log : List RouteError := []

/-- The given name, or the running number of the unnamed wildcards. -/
def PartState.nameOr (st : PartState) (name : Str) : Str × ℕ :=
  if name.length = 0 then (Nat.toDigits 10 st.i, st.i + 1) else (name, st.i)

/-- Queue a wildcard and leave its placeholder. -/
def PartState.emplace (st : PartState) (m : Param) (i : ℕ) : PartState :=
  { st with
    i := i
    calced := st.calced ++ '/' :: m.pfx ++ [PARAM_CHAR]
    full := st.full ++ '/' :: m.format
    params := st.params ++ [m] }

/-- One round of the loop over the segments. -/
def parsePart (pcre : Pcre) (path : Str) (st : PartState) (part : Str) : PartState :=
  if normalStatic part then
    { st with calced := st.calced ++ '/' :: part, full := st.full ++ '/' :: part }
  else match matchCatchAll part with
  | some (pfx, given) =>
    let (name, i) := st.nameOr given
    st.emplace { type := .CATCH_ALL, pfx, name } i
  | none => match matchParam part with
    | some (pfx, given, givenName) =>
      let (name, i) := st.nameOr givenName
      let pattern := if given.length = 0 then URL_REGEX_DEFAULT_PATTERN else given
      match Regex.compileRegex pcre pattern with
      | some re => st.emplace { type := .PARAM, pfx, name, pattern, re } i
      | none => { st with i := i, log := st.log ++ [.regexFailed pattern path] }
    | none => { st with log := st.log ++ [.unknownSegment part path] }

/-- Source `PathParser::parsePathSegment`; a refused path yields the logged errors. -/
def parsePathSegment (pcre : Pcre) (path : Str) : Except (List RouteError) PathParser :=
  if routePattern path then
    let parts := (split path [] ['/']).getD []
    let st := parts.foldl (parsePart pcre path) {}
    if st.log = [] then
      let calced := if path.getLast? = some '/' then st.calced ++ ['/'] else st.calced
      .ok { params := st.params, calced, actualFullPath := st.full }
    else .error st.log
  else .error [.badPattern path]

end Cppmhd
