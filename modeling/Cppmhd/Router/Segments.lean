import Cppmhd.Router.Calculated

/-!
# The segments of a route

What the parser makes of one segment (`Read`), and an accepted parse as the list of these pieces
(`parsePathSegment_ok_iff`).  A wildcard is read from a text of the form of `Param.format`, and that
text is read as the same wildcard again (`Read.again`).
-/

namespace Cppmhd

/-! ## Pieces -/

/-- What the parser makes of a segment: its texts in the calculated path and in `actualFullPath`, and
the parameter that it queues. -/
structure Piece where
  text : Str
  full : Str
  param : Option Param

/-- The piece of a static segment. -/
def Piece.static (part : Str) : Piece := ⟨part, part, none⟩

/-- The piece of a segment with a wildcard. -/
def Piece.wild (m : Param) : Piece := ⟨m.pfx ++ [PARAM_CHAR], m.format, some m⟩

/-- The given name, or the running number of the unnamed wildcards. -/
def nameFrom (i : ℕ) (given : Str) : Str × ℕ :=
  if given.length = 0 then (Nat.toDigits 10 i, i + 1) else (given, i)

/-- The given pattern, or the default one. -/
def patternFrom (given : Str) : Str :=
  if given.length = 0 then URL_REGEX_DEFAULT_PATTERN else given

/-- The parser reads a segment while the running number is the first one, and goes on with the
second one. -/
inductive Read (pcre : Pcre) : ℕ → Str → Piece → ℕ → Prop
  | static {i : ℕ} {part : Str} (static : normalStatic part = true) :
      Read pcre i part (.static part) i
  | catchAll {i : ℕ} {part pfx given : Str} (other : normalStatic part = false)
      (found : matchCatchAll part = some (pfx, given)) :
      Read pcre i part (.wild { type := .CATCH_ALL, pfx, name := (nameFrom i given).1 })
        (nameFrom i given).2
  | param {i : ℕ} {part pfx given givenName : Str} {re : Regex} (other : normalStatic part = false)
      (noCatchAll : matchCatchAll part = none) (found : matchParam part = some (pfx, given, givenName))
      (compiled : Regex.compileRegex pcre (patternFrom given) = some re) :
      Read pcre i part
        (.wild { type := .PARAM, pfx, name := (nameFrom i givenName).1, pattern := patternFrom given, re })
        (nameFrom i givenName).2

/-- The parser reads the segments one by one. -/
inductive Reads (pcre : Pcre) : ℕ → List Str → List Piece → Prop
  | nil {i : ℕ} : Reads pcre i [] []
  | cons {i i' : ℕ} {part : Str} {parts : List Str} {piece : Piece} {ps : List Piece}
      (read : Read pcre i part piece i') (rest : Reads pcre i' parts ps) :
      Reads pcre i (part :: parts) (piece :: ps)

/-- The calculated path of these pieces. -/
def calcedOf (ps : List Piece) : Str := ps.flatMap fun piece => '/' :: piece.text

/-- The normalised route of these pieces. -/
def fullOf (ps : List Piece) : Str := ps.flatMap fun piece => '/' :: piece.full

/-- The queue of these pieces. -/
def paramsOf (ps : List Piece) : List Param := ps.filterMap Piece.param

theorem paramsOf_cons (piece : Piece) (ps : List Piece) :
    paramsOf (piece :: ps) = piece.param.toList ++ paramsOf ps := by
  cases here : piece.param with
  | none => simp [paramsOf, here]
  | some m => simp [paramsOf, here]

section Rounds

variable {pcre : Pcre} {path : Str}

/-- A round that reads a piece. -/
def PartState.add (st : PartState) (piece : Piece) (i : ℕ) : PartState :=
  { st with
    i := i
    calced := st.calced ++ '/' :: piece.text
    full := st.full ++ '/' :: piece.full
    params := st.params ++ piece.param.toList }

theorem parsePart_of_read {st : PartState} {part : Str} {piece : Piece} {i : ℕ}
    (read : Read pcre st.i part piece i) : parsePart pcre path st part = st.add piece i := by
  cases read with
  | static static =>
    rw [parsePart, if_pos static, PartState.add]
    simp [Piece.static]
  | catchAll other found =>
    simp only [parsePart, other, Bool.false_eq_true, if_false, found]
    simp [PartState.add, PartState.emplace, PartState.nameOr, nameFrom, Piece.wild]
  | param other noCatchAll found compiled =>
    simp only [parsePart, other, Bool.false_eq_true, if_false, noCatchAll, found]
    unfold patternFrom at compiled
    simp only [compiled]
    simp [PartState.add, PartState.emplace, PartState.nameOr, nameFrom, patternFrom, Piece.wild]

theorem read_of_log {st : PartState} {part : Str} (log : (parsePart pcre path st part).log = []) :
    ∃ piece i, Read pcre st.i part piece i := by
  cases static : normalStatic part with
  | true => exact ⟨_, _, .static static⟩
  | false =>
    cases found : matchCatchAll part with
    | some g => exact ⟨_, _, .catchAll static found⟩
    | none =>
      cases found' : matchParam part with
      | none => simp [parsePart, static, found, found'] at log
      | some g =>
        obtain ⟨pfx, given, givenName⟩ := g
        cases compiled : Regex.compileRegex pcre (patternFrom given) with
        | some re => exact ⟨_, _, .param static found found' compiled⟩
        | none =>
          unfold patternFrom at compiled
          simp only [parsePart, static, Bool.false_eq_true, if_false, found, found', compiled] at log
          simp at log

theorem foldl_of_reads (path : Str) (st : PartState) {parts : List Str} {ps : List Piece}
    (reads : Reads pcre st.i parts ps) :
    let st' := parts.foldl (parsePart pcre path) st
    st'.calced = st.calced ++ calcedOf ps ∧ st'.full = st.full ++ fullOf ps ∧
      st'.params = st.params ++ paramsOf ps ∧ st'.log = st.log := by
  generalize running : st.i = i at reads
  induction reads generalizing st with
  | nil => simp [calcedOf, fullOf, paramsOf]
  | @cons i i' part parts piece ps read rest ih =>
    subst running
    rw [List.foldl_cons, parsePart_of_read read]
    obtain ⟨calced, full, params, log⟩ := ih (st.add piece i') rfl
    refine ⟨?_, ?_, ?_, log⟩
    · rw [calced, PartState.add, calcedOf, calcedOf, List.flatMap_cons, List.append_assoc]
    · rw [full, PartState.add, fullOf, fullOf, List.flatMap_cons, List.append_assoc]
    · rw [params, PartState.add, paramsOf_cons, List.append_assoc]

theorem reads_of_log {st : PartState} {parts : List Str}
    (log : (parts.foldl (parsePart pcre path) st).log = []) : ∃ ps, Reads pcre st.i parts ps := by
  induction parts generalizing st with
  | nil => exact ⟨[], .nil⟩
  | cons part parts ih =>
    rw [List.foldl_cons] at log
    have here : (parsePart pcre path st part).log = [] :=
      List.prefix_nil.mp (log ▸ (foldl_parsePart_grows pcre path parts _).2.2)
    obtain ⟨piece, i, read⟩ := read_of_log here
    obtain ⟨ps, rest⟩ := ih log
    rw [parsePart_of_read read] at rest
    exact ⟨piece :: ps, .cons read rest⟩

/-- An accepted parse reads every segment. -/
theorem parsePathSegment_ok_iff {p : PathParser} :
    parsePathSegment pcre path = .ok p ↔
      routePattern path = true ∧ ∃ ps, Reads pcre 1 (pieces '/' path) ps ∧
        p = { params := paramsOf ps
              calced := calcedOf ps ++ if path.getLast? = some '/' then ['/'] else []
              actualFullPath := fullOf ps } := by
  unfold parsePathSegment
  by_cases route : routePattern path = true
  · rw [if_pos route, split_char, Option.getD_some, List.nil_append]
    dsimp only
    constructor
    · intro parsed
      by_cases log : ((pieces '/' path).foldl (parsePart pcre path) {}).log = []
      · rw [if_pos log] at parsed
        obtain ⟨ps, reads⟩ := reads_of_log log
        obtain ⟨calced, full, params, -⟩ := foldl_of_reads path {} reads
        refine ⟨route, ps, reads, ?_⟩
        rw [← Except.ok.inj parsed, calced, full, params]
        by_cases last : path.getLast? = some '/' <;> simp [last]
      · rw [if_neg log] at parsed
        exact absurd parsed nofun
    · rintro ⟨-, ps, reads, rfl⟩
      obtain ⟨calced, full, params, log⟩ := foldl_of_reads path {} reads
      rw [if_pos log, calced, full, params]
      by_cases last : path.getLast? = some '/' <;> simp [last]
  · rw [if_neg route]
    exact ⟨nofun, fun h => absurd h.1 route⟩

end Rounds

/-! ## The texts of wildcards -/

/-- Where a run of characters ends. -/
theorem span_append {p : Char → Bool} {run : Str} (rest : Str) (all : run.all p = true)
    (stop : ∀ c, rest.head? = some c → p c = false) :
    (run ++ rest).takeWhile p = run ∧ (run ++ rest).dropWhile p = rest := by
  rw [List.all_eq_true] at all
  rw [List.takeWhile_append_of_pos all, List.dropWhile_append_of_pos all]
  cases rest with
  | nil => simp
  | cons c rest => simp [stop c rfl]

theorem all_ne_of_not_mem {d : Char} {s : Str} (free : d ∉ s) : s.all (· ≠ d) = true := by
  rw [List.all_eq_true]
  intro c member
  simpa using fun same : c = d => free (same ▸ member)

theorem all_takeWhile (p : Char → Bool) (s : Str) : (s.takeWhile p).all p = true :=
  List.all_eq_true.mpr fun _ member => List.mem_takeWhile_imp member

theorem closes_iff (t : Str) : closes t = true ↔ t = ['\x7d'] ∨ t = ['\x7d', '\n'] := by
  simp only [closes, upToDollar, Bool.or_eq_true, Bool.and_eq_true, beq_iff_eq]
  constructor
  · rintro (whole | ⟨newline, whole⟩)
    · exact Or.inl whole
    · right
      obtain ⟨init, rfl⟩ := List.getLast?_eq_some_iff.mp newline
      rw [List.dropLast_concat] at whole
      rw [whole]
      rfl
  · rintro (rfl | rfl)
    · exact Or.inl rfl
    · exact Or.inr ⟨rfl, rfl⟩

theorem head_of_closes {t : Str} (closed : closes t = true) : t.head? = some '\x7d' := by
  rcases (closes_iff t).mp closed with rfl | rfl <;> rfl

/-- The end of a wildcard: a name if there is one, and the closing brace. -/
theorem matchName_iff {rest name : Str} :
    matchName rest = some name ↔
      (name = [] ∧ closes rest = true) ∨
        (name ≠ [] ∧ name.all isWordChar = true ∧
          ∃ tail, rest = ':' :: (name ++ tail) ∧ closes tail = true) := by
  constructor
  · intro found
    unfold matchName at found
    split at found
    · rename_i rest
      dsimp only at found
      split_ifs at found with named
      · obtain rfl := Option.some.inj found
        refine Or.inr ⟨named.1, all_takeWhile _ _, rest.dropWhile isWordChar, ?_, named.2⟩
        rw [List.takeWhile_append_dropWhile]
    · split_ifs at found with closed
      exact Or.inl ⟨(Option.some.inj found).symm, closed⟩
  · rintro (⟨rfl, closed⟩ | ⟨nonempty, word, tail, rfl, closed⟩)
    · rcases (closes_iff rest).mp closed with rfl | rfl <;> rfl
    · obtain ⟨taken, dropped⟩ := span_append tail word fun c head => by
        rw [head_of_closes closed, Option.some.injEq] at head
        subst head
        decide
      simp only [matchName, taken, dropped, nonempty, closed, ne_eq, not_false_eq_true, and_self,
        if_true]

theorem span_brace {pfx : Str} (body : Str) (normal : pfx.all isNormalUrlChar = true) :
    (pfx ++ '\x7b' :: body).takeWhile isNormalUrlChar = pfx ∧
      (pfx ++ '\x7b' :: body).dropWhile isNormalUrlChar = '\x7b' :: body := by
  apply span_append _ normal
  intro c head
  rw [List.head?_cons, Option.some.injEq] at head
  subst head
  decide

theorem matchCatchAll_iff {part pfx name : Str} :
    matchCatchAll part = some (pfx, name) ↔
      pfx.all isNormalUrlChar = true ∧
        ∃ rest, part = pfx ++ '\x7b' :: '*' :: '*' :: rest ∧ matchName rest = some name := by
  constructor
  · intro found
    unfold matchCatchAll at found
    split at found
    · rename_i rest stars
      obtain ⟨name, named, same⟩ := Option.map_eq_some_iff.mp found
      obtain ⟨rfl, rfl⟩ := Prod.mk.inj same
      refine ⟨all_takeWhile _ _, rest, ?_, named⟩
      rw [← stars, List.takeWhile_append_dropWhile]
    · exact absurd found nofun
  · rintro ⟨normal, rest, rfl, named⟩
    obtain ⟨taken, dropped⟩ := span_brace ('*' :: '*' :: rest) normal
    simp only [matchCatchAll, taken, dropped, named, Option.map_some]

theorem matchParam_iff {part pfx : Str} {g : Str × Str} :
    matchParam part = some (pfx, g) ↔
      pfx.all isNormalUrlChar = true ∧
        ∃ body, part = pfx ++ '\x7b' :: body ∧ matchPattern body = some g := by
  constructor
  · intro found
    unfold matchParam at found
    split at found
    · rename_i body brace
      obtain ⟨g, matched, same⟩ := Option.map_eq_some_iff.mp found
      obtain ⟨rfl, rfl⟩ := Prod.mk.inj same
      refine ⟨all_takeWhile _ _, body, ?_, matched⟩
      rw [← brace, List.takeWhile_append_dropWhile]
    · exact absurd found nofun
  · rintro ⟨normal, body, rfl, matched⟩
    obtain ⟨taken, dropped⟩ := span_brace body normal
    simp only [matchParam, taken, dropped, matched, Option.map_some]

/-- A pattern without colon, and what follows it. -/
theorem matchPattern_eq {body given name : Str} (found : matchPattern body = some (given, name)) :
    ':' ∉ given ∧ ∃ rest, body = given ++ rest ∧ matchName rest = some name := by
  unfold matchPattern at found
  split at found
  · rename_i noColon
    have free : ':' ∉ body := by
      intro member
      have all := List.dropWhile_eq_nil_iff.mp noColon ':' member
      simp at all
    split_ifs at found with last tail
    · obtain ⟨rfl, rfl⟩ := Prod.mk.inj (Option.some.inj found)
      obtain ⟨init, rfl⟩ := List.getLast?_eq_some_iff.mp last
      rw [List.dropLast_concat]
      exact ⟨fun member => free (List.mem_append_left _ member), ['\x7d'], rfl, rfl⟩
    · obtain ⟨rfl, rfl⟩ := Prod.mk.inj (Option.some.inj found)
      exact ⟨fun member => free (List.mem_of_mem_take member), _,
        (List.take_append_drop _ _).symm, matchName_iff.mpr (Or.inl ⟨rfl, tail⟩)⟩
  · rename_i colon
    obtain ⟨name, named, same⟩ := Option.map_eq_some_iff.mp found
    obtain ⟨rfl, rfl⟩ := Prod.mk.inj same
    refine ⟨?_, body.dropWhile (· ≠ ':'), List.takeWhile_append_dropWhile.symm, named⟩
    intro member
    have other := List.mem_takeWhile_imp member
    simp at other

/-- A named parameter is read as it is written. -/
theorem matchPattern_named {given name tail : Str} (free : ':' ∉ given) (nonempty : name ≠ [])
    (word : name.all isWordChar = true) (closed : closes tail = true) :
    matchPattern (given ++ ':' :: (name ++ tail)) = some (given, name) := by
  obtain ⟨taken, dropped⟩ := span_append (':' :: (name ++ tail)) (all_ne_of_not_mem free) (by simp)
  have named : matchName (':' :: (name ++ tail)) = some name :=
    matchName_iff.mpr (Or.inr ⟨nonempty, word, tail, rfl, closed⟩)
  unfold matchPattern
  rw [taken, dropped]
  show (matchName (':' :: (name ++ tail))).map (fun name => (given, name)) = _
  rw [named]
  rfl

/-- A pattern in front of a colon is no catch-all, unless it is the two stars. -/
theorem noCatchAll_of_colon {pfx given : Str} (normal : pfx.all isNormalUrlChar = true)
    (free : ':' ∉ given) (stars : given ≠ ['*', '*']) (nonempty : given ≠ []) (rest : Str) :
    matchCatchAll (pfx ++ '\x7b' :: (given ++ ':' :: rest)) = none := by
  obtain ⟨-, dropped⟩ := span_brace (given ++ ':' :: rest) normal
  unfold matchCatchAll
  rw [dropped]
  split
  · rename_i more whole
    obtain ⟨-, whole⟩ := List.cons.inj whole
    cases given with
    | nil => exact absurd rfl nonempty
    | cons a given =>
      obtain ⟨rfl, behind⟩ := List.cons.inj whole
      cases given with
      | nil => exact absurd (List.cons.inj behind).1 (by decide)
      | cons b given =>
        obtain ⟨rfl, rfl⟩ := List.cons.inj behind
        cases found : matchName (given ++ ':' :: rest) with
        | none => rfl
        | some name =>
          exfalso
          rcases matchName_iff.mp found with ⟨-, closed⟩ | ⟨-, -, tail, whole, -⟩
          · have colon : ':' ∈ given ++ ':' :: rest := by simp
            rcases (closes_iff _).mp closed with same | same
            · rw [same] at colon
              exact absurd colon (by decide)
            · rw [same] at colon
              exact absurd colon (by decide)
          · cases given with
            | nil => exact stars rfl
            | cons c given =>
              obtain ⟨rfl, -⟩ := List.cons.inj whole
              exact free (by simp)
  · rfl

/-! ## Reading a wildcard again -/

/-- What the parser guarantees of the texts of a queued parameter. -/
structure Param.Written (pcre : Pcre) (m : Param) : Prop where
  normal : m.pfx.all isNormalUrlChar = true
  named : m.name ≠ []
  word : m.name.all isWordChar = true
  kind : (m.type = .CATCH_ALL ∧ m.pattern = [] ∧ m.re = .null) ∨
    (m.type = .PARAM ∧ m.pattern ≠ [] ∧ ':' ∉ m.pattern ∧ '/' ∉ m.pattern ∧ m.pattern ≠ ['*', '*'] ∧
      Regex.compileRegex pcre m.pattern = some m.re)

theorem nameFrom_ne_nil (i : ℕ) (given : Str) : (nameFrom i given).1 ≠ [] := by
  unfold nameFrom
  split_ifs with empty
  · exact Nat.toDigits_ne_nil
  · exact fun same => empty (List.length_eq_zero_iff.mpr same)

theorem nameFrom_of_ne_nil (i : ℕ) {given : Str} (named : given ≠ []) :
    nameFrom i given = (given, i) :=
  if_neg (mt List.length_eq_zero_iff.mp named)

theorem word_nameFrom (i : ℕ) {given : Str} (word : given.all isWordChar = true) :
    (nameFrom i given).1.all isWordChar = true := by
  unfold nameFrom
  split_ifs
  · rw [List.all_eq_true]
    intro c member
    have digit : c.isDigit = true := Nat.isDigit_of_mem_toDigits (by decide) (by decide) member
    simp [isWordChar, Char.isAlphanum, digit]
  · exact word

theorem word_of_matchName {rest name : Str} (found : matchName rest = some name) :
    name.all isWordChar = true := by
  rcases matchName_iff.mp found with ⟨rfl, -⟩ | ⟨-, word, -⟩
  · rfl
  · exact word

section Read

variable {pcre : Pcre} {i i' : ℕ} {part : Str} {piece : Piece}

theorem patternFrom_default : '/' ∉ URL_REGEX_DEFAULT_PATTERN ∧ ':' ∉ URL_REGEX_DEFAULT_PATTERN ∧
    URL_REGEX_DEFAULT_PATTERN ≠ [] ∧ URL_REGEX_DEFAULT_PATTERN ≠ ['*', '*'] := by
  decide

theorem Read.written (read : Read pcre i part piece i') (free : '/' ∉ part) :
    piece = .static part ∧ normalStatic part = true ∨ ∃ m, piece = .wild m ∧ m.Written pcre := by
  cases read with
  | static static => exact Or.inl ⟨rfl, static⟩
  | catchAll other found =>
    obtain ⟨normal, rest, -, named⟩ := matchCatchAll_iff.mp found
    exact Or.inr ⟨_, rfl, normal, nameFrom_ne_nil _ _, word_nameFrom _ (word_of_matchName named),
      Or.inl ⟨rfl, rfl, rfl⟩⟩
  | @param pfx given givenName re other noCatchAll found compiled =>
    obtain ⟨normal, body, whole, matched⟩ := matchParam_iff.mp found
    obtain ⟨noColon, rest, split, named⟩ := matchPattern_eq matched
    refine Or.inr ⟨_, rfl, normal, nameFrom_ne_nil _ _, word_nameFrom _ (word_of_matchName named),
      Or.inr ⟨rfl, ?_⟩⟩
    show patternFrom given ≠ [] ∧ ':' ∉ patternFrom given ∧ '/' ∉ patternFrom given ∧
      patternFrom given ≠ ['*', '*'] ∧ Regex.compileRegex pcre (patternFrom given) = some re
    by_cases empty : given.length = 0
    · have default : patternFrom given = URL_REGEX_DEFAULT_PATTERN := if_pos empty
      obtain ⟨slash, colon, nonempty, stars⟩ := patternFrom_default
      rw [default] at compiled ⊢
      exact ⟨nonempty, colon, slash, stars, compiled⟩
    · have same : patternFrom given = given := if_neg empty
      rw [same] at compiled ⊢
      refine ⟨fun none => empty (List.length_eq_zero_iff.mpr none), noColon, ?_, ?_, compiled⟩
      · intro slash
        apply free
        rw [whole, split]
        simp [slash]
      · -- with two stars the segment would have been a catch-all
        rintro rfl
        have catchAll : matchCatchAll part = some (pfx, givenName) :=
          matchCatchAll_iff.mpr ⟨normal, rest, by rw [whole, split]; rfl, named⟩
        exact absurd (noCatchAll.symm.trans catchAll) nofun

/-- A text that ends with the closing brace and has an opening one is no static segment. -/
theorem normalStatic_brace (pfx body : Str) :
    normalStatic (pfx ++ '\x7b' :: (body ++ ['\x7d'])) = false := by
  have last : (pfx ++ '\x7b' :: (body ++ ['\x7d'])).getLast? = some '\x7d' := by
    rw [← List.cons_append, ← List.append_assoc, List.getLast?_concat]
  have brace : (pfx ++ '\x7b' :: (body ++ ['\x7d'])).all isNormalUrlChar = false := by
    rw [List.all_eq_false]
    exact ⟨'\x7b', by simp, by decide⟩
  simp [normalStatic, upToDollar, last, brace]

theorem Param.Written.read {m : Param} (written : m.Written pcre) (i : ℕ) :
    Read pcre i m.format (.wild m) i := by
  have name := nameFrom_of_ne_nil i written.named
  have closed : closes ['\x7d'] = true := rfl
  obtain ⟨type, pfx, given, pattern, re⟩ := m
  rcases written.kind with ⟨isCatchAll, empty, null⟩ | ⟨isParam, nonempty, colon, -, stars, compiled⟩
  · dsimp only at isCatchAll empty null name
    subst isCatchAll empty null
    have format : Param.format ⟨.CATCH_ALL, pfx, given, [], .null⟩ =
        pfx ++ '\x7b' :: '*' :: '*' :: ':' :: (given ++ ['\x7d']) := by
      simp [Param.format]
    have found : matchCatchAll (pfx ++ '\x7b' :: '*' :: '*' :: ':' :: (given ++ ['\x7d'])) =
        some (pfx, given) :=
      matchCatchAll_iff.mpr ⟨written.normal, _, rfl,
        matchName_iff.mpr (Or.inr ⟨written.named, written.word, _, rfl, closed⟩)⟩
    have other : normalStatic (pfx ++ '\x7b' :: '*' :: '*' :: ':' :: (given ++ ['\x7d'])) = false :=
      normalStatic_brace pfx ('*' :: '*' :: ':' :: given)
    have read : Read pcre i _ _ _ := .catchAll other found
    rw [name] at read
    rw [format]
    exact read
  · dsimp only at isParam nonempty colon stars compiled name
    subst isParam
    have format : Param.format ⟨.PARAM, pfx, given, pattern, re⟩ =
        pfx ++ '\x7b' :: (pattern ++ ':' :: (given ++ ['\x7d'])) := by
      simp [Param.format]
    have found : matchParam (pfx ++ '\x7b' :: (pattern ++ ':' :: (given ++ ['\x7d']))) =
        some (pfx, pattern, given) :=
      matchParam_iff.mpr ⟨written.normal, _, rfl,
        matchPattern_named colon written.named written.word closed⟩
    have other : normalStatic (pfx ++ '\x7b' :: (pattern ++ ':' :: (given ++ ['\x7d']))) = false := by
      have brace := normalStatic_brace pfx (pattern ++ ':' :: given)
      rwa [List.append_assoc, List.cons_append] at brace
    have noCatchAll : matchCatchAll (pfx ++ '\x7b' :: (pattern ++ ':' :: (given ++ ['\x7d']))) =
        none := noCatchAll_of_colon written.normal colon stars nonempty _
    have same : patternFrom pattern = pattern := if_neg (mt List.length_eq_zero_iff.mp nonempty)
    rw [← same] at compiled
    have read : Read pcre i _ _ _ := .param other noCatchAll found compiled
    rw [name, same] at read
    rw [format]
    exact read

/-- What is read is read again from its text in `actualFullPath`, whatever the running number is. -/
theorem Read.again (read : Read pcre i part piece i') (free : '/' ∉ part) (j : ℕ) :
    Read pcre j piece.full piece j := by
  rcases read.written free with ⟨rfl, static⟩ | ⟨m, rfl, written⟩
  · exact .static static
  · exact written.read j

theorem slash_of_word {s : Str} (word : s.all isWordChar = true) : '/' ∉ s := by
  intro member
  exact absurd (List.all_eq_true.mp word '/' member) (by decide)

theorem slash_of_normal {s : Str} (normal : s.all isNormalUrlChar = true) : '/' ∉ s := by
  intro member
  exact absurd (List.all_eq_true.mp normal '/' member) (by decide)

theorem Param.Written.format_free {m : Param} (written : m.Written pcre) :
    '/' ∉ m.format ∧ m.format ≠ [] := by
  have pfx := slash_of_normal written.normal
  have name := slash_of_word written.word
  rcases written.kind with ⟨isCatchAll, -⟩ | ⟨isParam, -, -, pattern, -⟩
  · simp [Param.format, isCatchAll, pfx, name]
  · simp [Param.format, isParam, pfx, name, pattern]

theorem Read.full_free (read : Read pcre i part piece i') (free : '/' ∉ part) (nonempty : part ≠ []) :
    '/' ∉ piece.full ∧ piece.full ≠ [] := by
  rcases read.written free with ⟨rfl, -⟩ | ⟨m, rfl, written⟩
  · exact ⟨free, nonempty⟩
  · exact written.format_free

end Read

/-! ## Segments between slashes -/

theorem mem_pieces {c : Char} {s part : Str} (member : part ∈ pieces c s) : c ∉ part ∧ part ≠ [] := by
  induction hn : s.length using Nat.strong_induction_on generalizing s with
  | _ n ih =>
    subst hn
    by_cases present : c ∈ s
    · obtain ⟨pre, rest, rfl, free⟩ := List.eq_append_cons_of_mem present
      rw [pieces_append_cons free, List.mem_append] at member
      rcases member with here | later
      · split_ifs at here with empty
        · exact absurd here List.not_mem_nil
        · rw [List.mem_singleton.mp here]
          exact ⟨free, empty⟩
      · exact ih rest.length (by simp; omega) later rfl
    · rw [pieces_of_not_mem present] at member
      split_ifs at member with empty
      · exact absurd member List.not_mem_nil
      · rw [List.mem_singleton.mp member]
        exact ⟨present, empty⟩

/-- Segments that are joined are split again. -/
theorem pieces_join {parts : List Str} (free : ∀ part ∈ parts, '/' ∉ part ∧ part ≠ []) :
    pieces '/' (parts.flatMap fun part => '/' :: part) = parts := by
  induction parts with
  | nil => rfl
  | cons part parts ih =>
    obtain ⟨here, nonempty⟩ := free part List.mem_cons_self
    have later := ih fun q member => free q (List.mem_cons_of_mem part member)
    have cut : ∀ rest : Str, pieces '/' ('/' :: rest) = pieces '/' rest :=
      fun rest => pieces_append_cons List.not_mem_nil rest
    rw [List.flatMap_cons, List.cons_append, cut]
    cases parts with
    | nil => rw [List.flatMap_nil, List.append_nil, pieces_of_not_mem here, if_neg nonempty]
    | cons q parts =>
      rw [List.flatMap_cons, List.cons_append] at later ⊢
      rw [pieces_append_cons here, if_neg nonempty, ← cut, later]
      rfl

theorem chain_of_free {s : Str} (free : '/' ∉ s) : s.IsChain NotSlashes := by
  induction s with
  | nil => exact List.isChain_nil
  | cons c s ih =>
    rw [List.mem_cons, not_or] at free
    rw [List.isChain_cons]
    exact ⟨fun d _ same => free.1 same.1.symm, ih free.2⟩

/-- Segments that are joined are a route. -/
theorem isRoute_join {parts : List Str} (free : ∀ part ∈ parts, '/' ∉ part ∧ part ≠ [])
    (some : parts ≠ []) : isRoute (parts.flatMap fun part => '/' :: part) = true := by
  have chain : ∀ parts : List Str, (∀ part ∈ parts, '/' ∉ part ∧ part ≠ []) →
      (parts.flatMap fun part => '/' :: part).IsChain NotSlashes := by
    intro parts free
    induction parts with
    | nil => exact List.isChain_nil
    | cons part parts ih =>
      obtain ⟨here, nonempty⟩ := free part List.mem_cons_self
      have later := ih fun q member => free q (List.mem_cons_of_mem part member)
      rw [List.flatMap_cons, List.cons_append, List.isChain_cons, List.isChain_append]
      refine ⟨?_, chain_of_free here, later, ?_⟩
      · rintro d head ⟨-, rfl⟩
        obtain ⟨c, part, rfl⟩ := List.exists_cons_of_ne_nil nonempty
        rw [List.cons_append, List.head?_cons, Option.mem_some_iff] at head
        exact here (head ▸ List.mem_cons_self)
      · rintro c last d - ⟨rfl, -⟩
        exact here (List.mem_of_mem_getLast? last)
  rw [isRoute, Bool.and_eq_true, beq_iff_eq, decide_eq_true_eq]
  refine ⟨?_, chain parts free⟩
  obtain ⟨part, parts, rfl⟩ := List.exists_cons_of_ne_nil some
  rfl

end Cppmhd
