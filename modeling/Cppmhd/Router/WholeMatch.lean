import Cppmhd.Router.Bindings
import Cppmhd.Router.Normalised
import Cppmhd.Router.Queue

/-!
# Parameters and their patterns

`Regex::match` passes no anchoring option, so a parameter takes a segment in which its pattern is found
somewhere.  The values that requests bind to a parameter are whole matches of its pattern if and only
if the pattern is found only in its whole matches (`binds_whole_iff`), which the default pattern
is not.
-/

namespace Cppmhd

/-! ## Matches -/

/-- `spans r pre mid post`: the pattern `r` matches `mid` in the subject `pre ++ mid ++ post`. -/
abbrev Spans := Str → Str → Str → Str → Prop

/-- `pcre2_match` without anchoring: a match is found if some part of the subject matches. -/
def Pcre.Searches (pcre : Pcre) (spans : Spans) : Prop :=
  ∀ r s, pcre.search r s = true ↔ ∃ pre mid post, s = pre ++ mid ++ post ∧ spans r pre mid post

/-- The strings that a regular expression matches as a whole. -/
def Regex.language (spans : Spans) : Regex → Set Str
  | .null => ∅
  | .compiled r => {s | spans r [] s []}

/-- Every string without slash of which some part matches is matched as a whole. -/
def Regex.FindsWhole (spans : Spans) : Regex → Prop
  | .null => True
  | .compiled r => ∀ pre mid post, '/' ∉ pre ++ mid ++ post → spans r pre mid post →
      spans r [] (pre ++ mid ++ post) []

/-- In every tree, every parameter with this regular expression through which a request is served
takes a whole match. -/
def BindsWhole (Ctrl : Type) (pcre : Pcre) (spans : Spans) (re : Regex) : Prop :=
  ∀ (tree : RawTree Ctrl) (path : Str) (w : RouterNode Ctrl) (seg : Str), tree.Reachable pcre →
    (forwardLoop pcre tree.root path []).ctrl.isSome → w.re = re →
      Cursor.Binds pcre ⟨tree.root, path, []⟩ w seg → seg ∈ re.language spans

variable {Ctrl : Type} {pcre : Pcre} {spans : Spans}

theorem findsWhole_iff (searches : pcre.Searches spans) (re : Regex) :
    re.FindsWhole spans ↔
      ∀ seg, '/' ∉ seg → re.matches pcre seg = true → seg ∈ re.language spans := by
  cases re with
  | null => exact ⟨fun _ seg _ accepts => absurd accepts nofun, fun _ => trivial⟩
  | compiled r =>
    constructor
    · intro whole seg free accepts
      obtain ⟨pre, mid, post, rfl, here⟩ := (searches r seg).mp accepts
      exact whole pre mid post free here
    · intro whole pre mid post free here
      exact whole _ free ((searches r _).mpr ⟨pre, mid, post, rfl, here⟩)

/-! ## A route with one parameter -/

theorem parse_single {m : Param} (written : m.Written pcre) :
    parsePathSegment pcre ('/' :: m.format) =
      .ok ⟨[m], '/' :: m.pfx ++ [PARAM_CHAR], '/' :: m.format⟩ := by
  have reads : Reads pcre 1 [m.format] [.wild m] := .cons (written.read 1) .nil
  have parsed := parse_fullOf reads (by simpa using written.format_free) (List.cons_ne_nil _ _)
  simpa [fullOf, calcedOf, paramsOf, Piece.wild] using parsed

/-- The tree of the route of a single parameter. -/
def singleTree (pcre : Pcre) (m : Param) (c : Ctrl) : RawTree Ctrl :=
  (RawTree.addRoute pcre {} ('/' :: m.format) c).1

/-- Its parameter node. -/
def singleNode (m : Param) (c : Ctrl) : RouterNode Ctrl := { paramNode m with handle := some c }

theorem singleTree_root {m : Param} (written : m.Written pcre) (isParam : m.type = .PARAM) (c : Ctrl) :
    let root := (singleTree pcre m c).root
    root.path = '/' :: m.pfx ∧ root.handle = none ∧ root.wildchild = true ∧
      root.children = [singleNode m c] := by
  have free : PARAM_CHAR ∉ '/' :: m.pfx := by
    intro colon
    rcases List.mem_cons.mp colon with same | colon
    · exact absurd same (by decide)
    · exact absurd (List.all_eq_true.mp written.normal _ colon) (by decide)
  have inserted := @insertChild_paramEnd Ctrl {} ('/' :: m.pfx) m ('/' :: m.format) c [] rfl free isParam
  have root : (singleTree pcre m c).root =
      RawNode.setWild {} ('/' :: m.pfx ++ [PARAM_CHAR]) ('/' :: m.pfx).length m (singleNode m c) := by
    simp only [singleTree, RawTree.addRoute, parse_single written, RawTree.insert, and_self, if_true]
    exact congrArg Insertion.node inserted
  intro root'
  have same : root' = _ := root
  rw [same, setWild_path, setWild_handle, setWild_wildchild, setWild_children]
  refine ⟨?_, rfl, rfl, rfl⟩
  rw [if_pos (by simp), List.take_left]

/-- Every segment that its regular expression accepts is served through it. -/
theorem single_serves {m : Param} (written : m.Written pcre) (isParam : m.type = .PARAM) (c : Ctrl)
    {seg : Str} (free : '/' ∉ seg) (accepts : m.re.matches pcre seg = true) :
    let tree := singleTree pcre m c
    (forwardLoop pcre tree.root ('/' :: m.pfx ++ seg) []).ctrl = some c ∧
      Cursor.Binds pcre ⟨tree.root, '/' :: m.pfx ++ seg, []⟩ (singleNode m c) seg := by
  obtain ⟨path, vacant, wild, only⟩ := singleTree_root written isParam c
  intro tree
  rw [← path]
  by_cases empty : seg = []
  · subst empty
    rw [List.append_nil]
    constructor
    · rw [forwardLoop_exact, exactMatch_answered pcre vacant wild only (Or.inr ⟨isParam, accepts⟩)]
      rfl
    · exact ⟨_, .refl, .atEnd vacant wild only isParam accepts⟩
  · constructor
    · have whole : tree.root.path ++ seg = tree.root.path ++ (seg ++ []) := by rw [List.append_nil]
      rw [whole, forwardLoop_param pcre _ _ wild only isParam free (Or.inl rfl) (by simpa),
        bindParam_of_accepts accepts]
      simp [empty, singleNode]
    · refine ⟨_, .refl, ?_⟩
      have takes : Takes pcre ⟨tree.root, tree.root.path ++ (seg ++ []), []⟩ (singleNode m c) seg :=
        .segment wild only isParam free (Or.inl rfl) (by simpa) accepts
      rwa [List.append_nil] at takes

theorem reachable_single (m : Param) (c : Ctrl) : (singleTree pcre m c).Reachable pcre :=
  .addRoute _ c .empty

/-- A part of a segment is enough: a parameter is served through a string that it does not match as a
whole. -/
theorem not_bindsWhole {m : Param} (written : m.Written pcre) (isParam : m.type = .PARAM) (c : Ctrl)
    {seg : Str} (free : '/' ∉ seg) (accepts : m.re.matches pcre seg = true)
    (part : seg ∉ m.re.language spans) : ¬ BindsWhole Ctrl pcre spans m.re := by
  intro whole
  obtain ⟨served, binds⟩ := single_serves written isParam c free accepts
  exact part (whole _ _ _ _ (reachable_single m c) (by rw [served]; rfl) rfl binds)

theorem written_of_queued {path : Str} {p : PathParser} {q : Param}
    (parsed : parsePathSegment pcre path = .ok p) (queued : q ∈ p.params) : q.Written pcre := by
  obtain ⟨-, ps, reads, rfl⟩ := parsePathSegment_ok_iff.mp parsed
  obtain ⟨k, at_⟩ := List.mem_iff_getElem?.mp queued
  obtain ⟨firsts, piece, lasts, rfl, param, -⟩ := exists_piece at_
  obtain ⟨parts₁, part, parts₂, i, i', whole, -, read⟩ := reads.split
  have member : part ∈ pieces '/' path := by simp [whole]
  rcases read.written (mem_pieces member).1 with ⟨rfl, -⟩ | ⟨m, rfl, written⟩
  · exact absurd param nofun
  · obtain rfl := Option.some.inj param
    exact written

/-- The values bound to the parameters with this pattern are whole matches if and only if the pattern
matches nothing less than whole segments.  Those without a pattern never are. -/
theorem binds_whole_iff (searches : pcre.Searches spans) (c : Ctrl) {path : Str} {p : PathParser}
    {q : Param} (parsed : parsePathSegment pcre path = .ok p) (queued : q ∈ p.params)
    (isParam : q.type = .PARAM) :
    (BindsWhole Ctrl pcre spans q.re ↔ q.re.FindsWhole spans) ∧
      (q.pattern = URL_REGEX_DEFAULT_PATTERN →
        (∀ pre mid post, spans URL_REGEX_DEFAULT_PATTERN pre mid post ↔
          mid.all isNormalUrlChar = true) → ¬ BindsWhole Ctrl pcre spans q.re) := by
  have written := written_of_queued parsed queued
  have iff : BindsWhole Ctrl pcre spans q.re ↔ q.re.FindsWhole spans := by
    rw [findsWhole_iff searches]
    constructor
    · intro whole seg free accepts
      by_contra part
      exact not_bindsWhole written isParam c free accepts part whole
    · rintro whole tree path w seg - - same ⟨s, -, takes⟩
      exact whole seg takes.free (same ▸ takes.accepts)
  refine ⟨iff, fun default chars whole => ?_⟩
  rcases written.kind with ⟨isCatchAll, -⟩ | ⟨-, -, -, -, -, compiled⟩
  · exact absurd (isParam.symm.trans isCatchAll) (by decide)
  · have finds := iff.mp whole
    rw [default] at compiled
    unfold Regex.compileRegex at compiled
    dsimp only at compiled
    split_ifs at compiled
    rw [← Option.some.inj compiled] at finds
    -- the empty match in a space
    have space := finds [' '] [] [] (by decide) ((chars _ _ _).mpr rfl)
    exact absurd ((chars _ _ _).mp space) (by decide)

/-! ## Digits -/

/-- The pattern `\d+`. -/
def digits : Str := "\\d+".toList

/-- What PCRE2 matches with `\d+` and with the default pattern; other patterns match everything. -/
def digitSpans : Spans := fun r _ mid _ =>
  (r = digits → mid ≠ [] ∧ mid.all Char.isDigit = true) ∧
    (r = URL_REGEX_DEFAULT_PATTERN → mid.all isNormalUrlChar = true)

def digitPcre : Pcre := ⟨fun _ => true, fun r s => if r = digits then s.any Char.isDigit else true⟩

theorem digitPcre_searches : digitPcre.Searches digitSpans := by
  intro r s
  by_cases same : r = digits
  · subst same
    have other : digits ≠ URL_REGEX_DEFAULT_PATTERN := by decide
    simp only [digitPcre, if_true, digitSpans, other, true_implies, false_implies, and_true]
    constructor
    · intro any
      obtain ⟨c, member, digit⟩ := List.any_eq_true.mp any
      obtain ⟨pre, post, rfl⟩ := List.append_of_mem member
      exact ⟨pre, [c], post, by simp, by simp, by simp [digit]⟩
    · rintro ⟨pre, mid, post, rfl, nonempty, all⟩
      obtain ⟨c, mid, rfl⟩ := List.exists_cons_of_ne_nil nonempty
      have digit := List.all_eq_true.mp all c List.mem_cons_self
      exact List.any_eq_true.mpr ⟨c, by simp, digit⟩
  · simp only [digitPcre, same, if_false, true_iff]
    exact ⟨s, [], [], by simp, fun h => absurd h same, fun _ => rfl⟩

/-- The parameter of `/{\d+:n}`. -/
def numberParam : Param := ⟨.PARAM, [], "n".toList, digits, .compiled digits⟩

theorem numberParam_written : numberParam.Written digitPcre where
  normal := rfl
  named := by decide
  word := by decide
  kind := Or.inr ⟨rfl, by decide, by decide, by decide, by decide, by decide⟩

/-- The parameter of `/{\d+:n}` takes a letter on either side of a digit. -/
theorem part_of_segment :
    digitPcre.Searches digitSpans ∧
    let tree := (RawTree.addRoute digitPcre ({} : RawTree ℕ) "/\x7b\\d+:n\x7d".toList 1).1
    let r := forwardLoop digitPcre tree.root "/a1b".toList []
    tree.Reachable digitPcre ∧ r.ctrl = some 1 ∧ r.params = [("n".toList, "a1b".toList)] ∧
      ∃ w, w.re = .compiled digits ∧
        Cursor.Binds digitPcre ⟨tree.root, "/a1b".toList, []⟩ w "a1b".toList ∧
          "a1b".toList ∉ w.re.language digitSpans := by
  have tree : (RawTree.addRoute digitPcre ({} : RawTree ℕ) "/\x7b\\d+:n\x7d".toList 1).1 =
      singleTree digitPcre numberParam 1 := rfl
  refine ⟨digitPcre_searches, .addRoute _ _ .empty, by decide +kernel, by decide +kernel,
    singleNode numberParam 1, rfl, ?_, ?_⟩
  · rw [tree]
    exact (single_serves numberParam_written rfl 1 (by decide) (by decide)).2
  · rintro ⟨digit, -⟩
    exact absurd (digit rfl).2 (by decide)

theorem binds_whole_iff_number :
    (BindsWhole ℕ digitPcre digitSpans (.compiled digits) ↔
        (Regex.compiled digits).FindsWhole digitSpans) ∧
      ¬ BindsWhole ℕ digitPcre digitSpans (.compiled URL_REGEX_DEFAULT_PATTERN) := by
  have number : parsePathSegment digitPcre ('/' :: numberParam.format) = .ok
      ⟨[numberParam], "/:".toList, '/' :: numberParam.format⟩ := by decide +kernel
  have plain : parsePathSegment digitPcre "/\x7b:n\x7d".toList = .ok (plainRoute "n".toList) := by
    decide +kernel
  constructor
  · exact (binds_whole_iff digitPcre_searches (0 : ℕ) number List.mem_cons_self rfl).1
  · refine (binds_whole_iff digitPcre_searches (0 : ℕ) plain List.mem_cons_self rfl).2 rfl ?_
    intro pre mid post
    have other : URL_REGEX_DEFAULT_PATTERN ≠ digits := by decide
    simp [digitSpans, other]

end Cppmhd
