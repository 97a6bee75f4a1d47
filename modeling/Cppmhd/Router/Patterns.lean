import Cppmhd.Router.Mount
import Cppmhd.Router.Segments
import Cppmhd.Words.Backtracking

/-!
# The patterns of URLs

The patterns of `router.h` as they are written, and the search for them as PCRE2 makes it: alternatives in
their order, repetitions as long ones first.  The matchers of the parser find what the search finds
(`patterns_searched`).
-/

open Words

namespace Cppmhd

/-! ## The patterns -/

/-- A pattern over characters, with names of groups. -/
abbrev UrlPattern := Re Char Str

def literal (c : Char) : UrlPattern := .one (· == c)

/-- `$`. -/
def dollar : UrlPattern := .look fun _ rest => rest == [] || rest == ['\n']

/-- `URL_STATIC_PART_PATTERN`: `^[\w\.\-_]+$`. -/
def URL_STATIC_PART_PATTERN : UrlPattern := .seq .start (.seq (.plus (.one isNormalUrlChar)) dollar)

/-- `(:(?<name>\w+))?}$`. -/
def nameEnd : UrlPattern :=
  .seq (.opt (.seq (literal ':') (.group "name".toList (.plus (.one isWordChar))))) (.seq (literal '\x7d') dollar)

/-- `(?<prefix>[\w\.\-_]*){`. -/
def behindPrefixGroup (e : UrlPattern) : UrlPattern :=
  .seq .start (.seq (.group "prefix".toList (.star (.one isNormalUrlChar))) (.seq (literal '\x7b') e))

/-- `URL_MATCHALL_PATTERN`: `^(?<prefix>[\w\.\-_]*){\*{2}(:(?<name>\w+))?}$`. -/
def URL_MATCHALL_PATTERN : UrlPattern :=
  behindPrefixGroup (.seq (literal '*') (.seq (literal '*') nameEnd))

/-- `URL_REGEX_PATTERN`: `^(?<prefix>[\w\.\-_]*){(?<pattern>[^:]*)(:(?<name>\w+))?}$`. -/
def URL_REGEX_PATTERN : UrlPattern :=
  behindPrefixGroup (.seq (.group "pattern".toList (.star (.one (· != ':')))) nameEnd)

/-- `/[^/]+`. -/
def segment : UrlPattern := .seq (literal '/') (.plus (.one (· != '/')))

/-- `URL_ROUTE_PATTERN`: `(^(/[^/]+)+/?$)|(^/$)`. -/
def URL_ROUTE_PATTERN : UrlPattern :=
  .alt (.seq .start (.seq (.plus segment) (.seq (.opt (literal '/')) dollar)))
    (.seq .start (.seq (literal '/') dollar))

/-- `URL_SUBROUTE_PREFIX_PATTERN`: `^(/[^/]+)+$`. -/
def URL_SUBROUTE_PREFIX_PATTERN : UrlPattern := .seq .start (.seq (.plus segment) dollar)

/-! ## The end of a subject -/

theorem upToDollar_iff {whole : Str → Bool} {subject : Str} : upToDollar whole subject = true ↔
    ∃ s rest, subject = s ++ rest ∧ (rest = [] ∨ rest = ['\n']) ∧ whole s = true := by
  simp only [upToDollar, Bool.or_eq_true, Bool.and_eq_true, beq_iff_eq]
  constructor
  · rintro (here | ⟨newline, here⟩)
    · exact ⟨subject, [], (List.append_nil _).symm, Or.inl rfl, here⟩
    · obtain ⟨init, rfl⟩ := List.getLast?_eq_some_iff.mp newline
      rw [List.dropLast_concat] at here
      exact ⟨init, _, rfl, Or.inr rfl, here⟩
  · rintro ⟨s, rest, rfl, rfl | rfl, here⟩
    · rw [List.append_nil]
      exact Or.inl here
    · rw [List.dropLast_concat]
      exact Or.inr ⟨by simp, here⟩

@[simp] theorem matches_dollar {s s' : Scan Char Str} :
    Matches dollar s s' ↔ (s.rest = [] ∨ s.rest = ['\n']) ∧ s' = s := by
  simp [dollar]

@[simp] theorem matches_start {s s' : Scan Char Str} :
    Matches (Re.start : UrlPattern) s s' ↔ s.before = [] ∧ s' = s := by
  simp [Re.start]

/-- A whole line is matched by the words of a language. -/
theorem matches_line {e : UrlPattern} {l : Language Char} (recognised : Recognises e l) (subject : Str) :
    (∃ s', Matches (.seq .start (.seq e dollar)) ⟨[], subject, []⟩ s') ↔
      ∃ s rest, subject = s ++ rest ∧ (rest = [] ∨ rest = ['\n']) ∧ s ∈ l := by
  constructor
  · rintro ⟨s', way⟩
    obtain ⟨_, begins, way⟩ := matches_seq.mp way
    obtain ⟨-, rfl⟩ := matches_start.mp begins
    obtain ⟨t, way, ends⟩ := matches_seq.mp way
    obtain ⟨w, member, rest, next, rfl⟩ := (recognised _ _).mp way
    exact ⟨w, rest, next, (matches_dollar.mp ends).1, member⟩
  · rintro ⟨w, rest, rfl, ends, member⟩
    have way := (recognised ⟨[], w ++ rest, []⟩ ⟨w, rest, []⟩).mpr ⟨w, member, rest, rfl, rfl⟩
    exact ⟨⟨w, rest, []⟩, .seq (matches_start.mpr ⟨rfl, rfl⟩) (.seq way (matches_dollar.mpr ⟨ends, rfl⟩))⟩

theorem search_line {e : UrlPattern} {l : Language Char} (recognised : Recognises e l) (subject : Str) :
    ((Re.seq .start (.seq e dollar)).search subject).isSome = true ↔
      ∃ s rest, subject = s ++ rest ∧ (rest = [] ∨ rest = ['\n']) ∧ s ∈ l := by
  rw [search_eq (anchored_start _), exec_isSome_iff, ← matches_line recognised]
  simp

theorem static_searched (part : Str) :
    (URL_STATIC_PART_PATTERN.search part).isSome = normalStatic part := by
  rw [Bool.eq_iff_iff, URL_STATIC_PART_PATTERN, search_line (recognises_plus_one _), normalStatic, upToDollar_iff]
  refine exists_congr fun s => exists_congr fun rest => and_congr_right' (and_congr_right' ?_)
  rw [Bool.and_eq_true, bne_iff_ne, List.all_eq_true]
  rfl

/-! ## Routes -/

theorem recognises_literal (c : Char) : Recognises (literal c) {[c]} := by
  refine (recognises_one _).congr fun w => ?_
  constructor
  · rintro ⟨x, same, rfl⟩
    rw [beq_iff_eq] at same
    rw [same]
    rfl
  · intro same
    exact ⟨c, beq_self_eq_true c, same⟩

theorem recognises_segment : Recognises segment {w | ∃ part : Str, '/' ∉ part ∧ part ≠ [] ∧ w = '/' :: part} := by
  refine ((recognises_literal '/').seq (recognises_plus_one _)).congr fun w => ?_
  constructor
  · intro member
    obtain ⟨_, rfl, part, ⟨nonempty, free⟩, rfl⟩ := Language.mem_mul.mp member
    exact ⟨part, fun inside => absurd (free '/' inside) (by simp), nonempty, rfl⟩
  · rintro ⟨part, free, nonempty, rfl⟩
    refine Language.append_mem_mul (a := ['/']) rfl ⟨nonempty, fun x inside => ?_⟩
    exact bne_iff_ne.mpr (ne_of_mem_of_not_mem inside free)

/-- The words of `(/[^/]+)+`. -/
def segments : Language Char :=
  {w | ∃ parts : List Str, parts ≠ [] ∧ (∀ part ∈ parts, '/' ∉ part ∧ part ≠ []) ∧
    w = parts.flatMap fun part => '/' :: part}

theorem recognises_segments : Recognises (.plus segment) segments := by
  refine recognises_segment.plus.congr fun w => ?_
  constructor
  · rintro ⟨words, nonempty, all, rfl⟩
    have parts : words = (words.map List.tail).map ('/' :: ·) := by
      rw [List.map_map]
      nth_rewrite 1 [← List.map_id words]
      refine List.map_congr_left fun v member => ?_
      obtain ⟨part, -, -, rfl⟩ := all v member
      rfl
    refine ⟨words.map List.tail, by simpa using nonempty, fun part member => ?_, ?_⟩
    · obtain ⟨v, inside, rfl⟩ := List.mem_map.mp member
      obtain ⟨part, free, nonempty, rfl⟩ := all v inside
      exact ⟨free, nonempty⟩
    · rw [List.flatMap_def, ← parts]
  · rintro ⟨parts, nonempty, free, rfl⟩
    refine ⟨parts.map ('/' :: ·), by simpa using nonempty, ?_, by rw [List.flatMap_def]⟩
    intro v member
    obtain ⟨part, inside, rfl⟩ := List.mem_map.mp member
    exact ⟨part, (free part inside).1, (free part inside).2, rfl⟩

theorem last_of_segments {s : Str} (member : s ∈ segments) : s.getLast? ≠ some '/' := by
  obtain ⟨parts, nonempty, free, rfl⟩ := member
  rcases List.eq_nil_or_concat parts with rfl | ⟨init, part, rfl⟩
  · exact absurd rfl nonempty
  · obtain ⟨here, inhabited⟩ := free part (by simp)
    have last : ((init.concat part).flatMap fun part => '/' :: part) =
        (init.flatMap fun part => '/' :: part) ++ ['/'] ++ part := by simp
    rw [last, List.getLast?_append_of_ne_nil _ inhabited]
    exact fun slash => here (List.mem_of_mem_getLast? slash)

theorem isRoute_of_segments {s : Str} (member : s ∈ segments) : isRoute s = true := by
  obtain ⟨parts, nonempty, free, rfl⟩ := member
  exact isRoute_join free nonempty

/-- A route consists of segments, and may end with a slash. -/
theorem isRoute_iff (s : Str) :
    isRoute s = true ↔ s ∈ segments ∨ (∃ t ∈ segments, s = t ++ ['/']) ∨ s = ['/'] := by
  constructor
  · intro route
    rw [isRoute, Bool.and_eq_true, beq_iff_eq, decide_eq_true_eq] at route
    have whole := join_pieces route.1 route.2
    by_cases none : pieces '/' s = []
    · rw [none, List.flatMap_nil, List.nil_append] at whole
      by_cases slash : s.getLast? = some '/'
      · rw [if_pos slash] at whole
        exact Or.inr (Or.inr whole.symm)
      · rw [if_neg slash] at whole
        rw [← whole] at route
        exact absurd route.1 (by simp)
    · have member : ((pieces '/' s).flatMap fun part => '/' :: part) ∈ segments :=
        ⟨_, none, fun part inside => mem_pieces inside, rfl⟩
      by_cases slash : s.getLast? = some '/'
      · rw [if_pos slash] at whole
        exact Or.inr (Or.inl ⟨_, member, whole.symm⟩)
      · rw [if_neg slash, List.append_nil] at whole
        rw [whole] at member
        exact Or.inl member
  · rintro (member | ⟨t, member, rfl⟩ | rfl)
    · exact isRoute_of_segments member
    · have route := isRoute_of_segments member
      rw [isRoute, Bool.and_eq_true, beq_iff_eq, decide_eq_true_eq] at route ⊢
      refine ⟨?_, List.isChain_append.mpr ⟨route.2, List.isChain_singleton _, ?_⟩⟩
      · rw [List.head?_append, route.1]
        rfl
      · rintro x last y - ⟨rfl, -⟩
        exact last_of_segments member last
    · rfl

theorem isSubRoute_iff (s : Str) : isSubRoute s = true ↔ s ∈ segments := by
  rw [isSubRoute, Bool.and_eq_true, bne_iff_ne, isRoute_iff]
  constructor
  · rintro ⟨member | ⟨t, -, rfl⟩ | rfl, last⟩
    · exact member
    · exact absurd (by simp) last
    · exact absurd rfl last
  · exact fun member => ⟨Or.inl member, last_of_segments member⟩

theorem route_searched (path : Str) :
    (URL_ROUTE_PATTERN.search path).isSome = routePattern path := by
  have anchored : ∀ s : Scan Char Str, s.before ≠ [] → URL_ROUTE_PATTERN.exec s some = none := by
    intro s inside
    rw [URL_ROUTE_PATTERN, exec_alt, anchored_start _ s inside, anchored_start _ s inside]
    rfl
  have behind : ∀ t : Str, t ∈ segments * ({['/']} + 1 : Language Char) ↔
      t ∈ segments ∨ ∃ u ∈ segments, t = u ++ ['/'] := by
    intro t
    rw [Language.mem_mul]
    constructor
    · rintro ⟨u, member, v, rfl | rfl, rfl⟩
      · exact Or.inr ⟨u, member, rfl⟩
      · rw [List.append_nil]
        exact Or.inl member
    · rintro (member | ⟨u, member, rfl⟩)
      · exact ⟨t, member, [], Or.inr rfl, List.append_nil t⟩
      · exact ⟨u, member, ['/'], Or.inl rfl, rfl⟩
  have first := matches_line (recognises_segments.seq (recognises_literal '/').opt) path
  have second := matches_line (recognises_literal '/') path
  -- the optional slash belongs to the line
  have left : (∃ s', Matches (.seq .start (.seq (.plus segment) (.seq (.opt (literal '/')) dollar)))
      ⟨[], path, []⟩ s') ↔
        ∃ s rest, path = s ++ rest ∧ (rest = [] ∨ rest = ['\n']) ∧ (s ∈ segments ∨ ∃ u ∈ segments, s = u ++ ['/']) := by
    simp only [← behind, ← first, matches_seq (e := Re.start), matches_seq_assoc]
  rw [Bool.eq_iff_iff, search_eq anchored, exec_isSome_iff, routePattern, upToDollar_iff]
  simp only [Option.isSome_some, and_true, URL_ROUTE_PATTERN, matches_alt, exists_or, left, second, isRoute_iff]
  constructor
  · rintro (⟨s, rest, whole, ends, member⟩ | ⟨s, rest, whole, ends, same⟩)
    · exact ⟨s, rest, whole, ends, or_assoc.mp (Or.inl member)⟩
    · exact ⟨s, rest, whole, ends, Or.inr (Or.inr same)⟩
  · rintro ⟨s, rest, whole, ends, member⟩
    rcases or_assoc.mpr member with member | same
    · exact Or.inl ⟨s, rest, whole, ends, member⟩
    · exact Or.inr ⟨s, rest, whole, ends, same⟩

theorem subRoute_searched (pfx : Str) :
    (URL_SUBROUTE_PREFIX_PATTERN.search pfx).isSome = subRoutePattern pfx := by
  rw [Bool.eq_iff_iff, URL_SUBROUTE_PREFIX_PATTERN, search_line recognises_segments, subRoutePattern, upToDollar_iff]
  simp only [isSubRoute_iff]

/-! ## Wildcards -/

section Wildcards

variable {β : Type*} {k : Scan Char Str → Option β}

theorem exec_literal_cons (c : Char) (s : Scan Char Str) {x : Char} {t : Str} (next : s.rest = x :: t) :
    (literal c).exec s k = if x = c then k (s.move [x] t) else none := by
  rw [literal, exec_one_cons s next]
  simp only [beq_iff_eq]

theorem exec_literal_nil (c : Char) (s : Scan Char Str) (empty : s.rest = []) :
    (literal c).exec s k = none := exec_one_nil s empty

/-- The closing brace at the end of a line. -/
theorem exec_closing (s : Scan Char Str) : (Re.seq (literal '\x7d') dollar).exec s k =
    if closes s.rest then k (s.move ['\x7d'] s.rest.tail) else none := by
  rw [exec_seq]
  cases next : s.rest with
  | nil => rw [exec_literal_nil _ s next, if_neg (by simp [closes_iff])]
  | cons x t =>
    rw [exec_literal_cons _ s next]
    by_cases brace : x = '\x7d'
    · subst brace
      have ends : closes ('\x7d' :: t) = true ↔ t = [] ∨ t = ['\n'] := by simp [closes_iff]
      rw [if_pos rfl, dollar, exec_look]
      simp [ends, Scan.move]
    · rw [if_neg brace, if_neg]
      intro closed
      exact brace (Option.some.inj (head_of_closes closed))

/-- The group of a name, if there is one. -/
def nameGroup (name : Str) : List (Str × Str) := if name = [] then [] else [("name".toList, name)]

theorem closes_word {x : Char} {t : Str} (word : isWordChar x = true) : closes (x :: t) = false := by
  rw [Bool.eq_false_iff]
  intro closed
  obtain rfl : x = '\x7d' := Option.some.inj (head_of_closes closed)
  exact absurd word (by decide)

/-- `(?<name>\w+)}$`. -/
theorem exec_name (s : Scan Char Str) :
    ((Re.group "name".toList (.plus (.one isWordChar))).exec s fun s' =>
      (Re.seq (literal '\x7d') dollar).exec s' some).map Scan.groups =
        if s.rest.takeWhile isWordChar ≠ [] ∧ closes (s.rest.dropWhile isWordChar) = true then
          some (s.groups ++ [("name".toList, s.rest.takeWhile isWordChar)])
        else none := by
  rw [exec_group, Re.plus, exec_seq]
  cases next : s.rest with
  | nil =>
    rw [exec_one_nil s next]
    rfl
  | cons x t =>
    rw [exec_one_cons s next]
    by_cases word : isWordChar x = true
    · rw [if_pos word, exec_star_stop, exec_closing, List.takeWhile_cons_of_pos word,
        List.dropWhile_cons_of_pos word]
      · by_cases closed : closes (t.dropWhile isWordChar) = true
        · simp [Scan.move, Scan.close, closed]
        · simp [Scan.move, Scan.close, closed]
      · rintro s' ⟨y, u, next, word⟩
        have rest : (s.close "name".toList s').rest = s'.rest := rfl
        rw [exec_closing, rest, next, closes_word word]
        rfl
    · rw [if_neg word, List.takeWhile_cons_of_neg word, if_neg (by simp)]
      rfl

/-- The end of a wildcard is matched as `matchName` matches it. -/
theorem exec_nameEnd (s : Scan Char Str) : (nameEnd.exec s some).map Scan.groups =
    (matchName s.rest).map fun name => s.groups ++ nameGroup name := by
  have plain : ((Re.seq (literal '\x7d') dollar).exec s some).map Scan.groups =
      if closes s.rest = true then some s.groups else none := by
    rw [exec_closing]
    by_cases closed : closes s.rest = true
    · rw [if_pos closed, if_pos closed]
      rfl
    · rw [if_neg closed, if_neg closed]
      rfl
  rw [nameEnd, exec_seq, exec_opt, Option.map_or, plain, exec_seq]
  cases next : s.rest with
  | nil =>
    rw [exec_literal_nil _ s next]
    rfl
  | cons x t =>
    rw [exec_literal_cons _ s next]
    by_cases colon : x = ':'
    · subst colon
      have open_ : closes (':' :: t) = false := by
        rw [Bool.eq_false_iff]
        exact fun closed => absurd (head_of_closes closed) (by simp)
      rw [if_pos rfl, exec_name, open_, if_neg Bool.false_ne_true, Option.or_none]
      have rest : (s.move [':'] t).rest = t := rfl
      have groups : (s.move [':'] t).groups = s.groups := rfl
      rw [matchName, rest, groups]
      split_ifs with named
      · rw [Option.map_some, nameGroup, if_neg named.1]
      · rfl
    · have unnamed : matchName (x :: t) = if closes (x :: t) then some [] else none := by
        unfold matchName
        split
        · rename_i same
          exact absurd (List.cons.inj same).1 colon
        · rfl
      rw [if_neg colon, unnamed]
      split_ifs
      · exact congrArg some (List.append_nil _).symm
      · rfl

/-! ### Catch-alls -/

/-- The part behind the prefix and the opening brace. -/
theorem exec_behindPrefix (e : UrlPattern) (part : Str) :
    ((behindPrefixGroup e).search part).map Scan.groups =
      match part.dropWhile isNormalUrlChar with
      | '\x7b' :: body => (e.exec ⟨part.takeWhile isNormalUrlChar ++ ['\x7b'], body,
          [("prefix".toList, part.takeWhile isNormalUrlChar)]⟩ some).map Scan.groups
      | _ => none := by
  rw [behindPrefixGroup, search_eq (anchored_start _), exec_seq, exec_start, if_pos rfl, exec_seq, exec_group,
    exec_star_stop]
  · have rest : (⟨[], part, []⟩ : Scan Char Str).rest = part := rfl
    rw [rest, exec_seq]
    generalize left : part.dropWhile isNormalUrlChar = behind
    cases behind with
    | nil => rw [exec_literal_nil _ _ rfl]; rfl
    | cons x body =>
      rw [exec_literal_cons _ _ rfl]
      by_cases brace : x = '\x7b'
      · subst brace
        rw [if_pos rfl]
        simp [Scan.move, Scan.close]
      · rw [if_neg brace]
        split
        · rename_i same
          exact absurd (List.cons.inj same).1 brace
        · rfl
  · rintro s ⟨x, t, next, normal⟩
    have rest : (Scan.close ⟨[], part, []⟩ "prefix".toList s).rest = s.rest := rfl
    rw [exec_seq, exec_literal_cons _ _ (rest.trans next), if_neg]
    rintro rfl
    exact absurd normal (by decide)

theorem exec_stars (s : Scan Char Str) :
    ((Re.seq (literal '*') (.seq (literal '*') nameEnd)).exec s some).map Scan.groups =
      match s.rest with
      | '*' :: '*' :: rest => (matchName rest).map fun name => s.groups ++ nameGroup name
      | _ => none := by
  rw [exec_seq]
  cases next : s.rest with
  | nil =>
    rw [exec_literal_nil _ s next]
    rfl
  | cons x t =>
    rw [exec_literal_cons _ s next]
    by_cases star : x = '*'
    · subst star
      rw [if_pos rfl, exec_seq]
      cases t with
      | nil =>
        rw [exec_literal_nil _ _ rfl]
        rfl
      | cons y rest =>
        rw [exec_literal_cons _ _ rfl]
        by_cases star : y = '*'
        · subst star
          rw [if_pos rfl, exec_nameEnd]
          rfl
        · rw [if_neg star]
          split
          · rename_i same
            exact absurd (List.cons.inj (List.cons.inj same).2).1 star
          · rfl
    · rw [if_neg star]
      split
      · rename_i same
        exact absurd (List.cons.inj same).1 star
      · rfl

/-- What the groups of a wildcard have matched. -/
theorem lastMatch_catchAll (pfx name : Str) :
    lastMatch "prefix".toList ([("prefix".toList, pfx)] ++ nameGroup name) = pfx ∧
      lastMatch "name".toList ([("prefix".toList, pfx)] ++ nameGroup name) = name := by
  unfold nameGroup
  split_ifs with none
  · subst none
    exact ⟨rfl, rfl⟩
  · exact ⟨rfl, rfl⟩

theorem catchAll_searched (part : Str) : (URL_MATCHALL_PATTERN.search part).map (fun m =>
    (m.named "prefix".toList, m.named "name".toList)) = matchCatchAll part := by
  have groups : (fun m : Scan Char Str => (m.named "prefix".toList, m.named "name".toList)) =
      (fun g => (lastMatch "prefix".toList g, lastMatch "name".toList g)) ∘ Scan.groups := rfl
  have found : ∀ pfx rest : Str, ((matchName rest).map fun name => [("prefix".toList, pfx)] ++ nameGroup name).map
      (fun g => (lastMatch "prefix".toList g, lastMatch "name".toList g)) =
        (matchName rest).map fun name => (pfx, name) := by
    intro pfx rest
    rw [Option.map_map]
    refine Option.map_congr fun name _ => ?_
    exact Prod.ext (lastMatch_catchAll pfx name).1 (lastMatch_catchAll pfx name).2
  rw [groups, ← Option.map_map, URL_MATCHALL_PATTERN, exec_behindPrefix, matchCatchAll]
  generalize part.takeWhile isNormalUrlChar = pfx
  generalize part.dropWhile isNormalUrlChar = behind
  split
  · rename_i body
    rw [exec_stars]
    dsimp only
    split
    · rename_i rest
      exact found pfx rest
    · rename_i others
      split
      · rename_i rest same
        exact absurd (List.cons.inj same).2 (others rest)
      · rfl
  · rename_i others
    split
    · rename_i rest
      exact absurd rfl (others _)
    · rfl

/-! ### Parameters -/

/-- How the greedy group of a pattern gives back what it has taken. -/
theorem matchPattern_cons {x : Char} (other : x ≠ ':') (t : Str) : matchPattern (x :: t) =
    ((matchPattern t).map fun g => (x :: g.1, g.2)).or (if closes (x :: t) then some ([], []) else none) := by
  have taken : (x :: t).takeWhile (· ≠ ':') = x :: t.takeWhile (· ≠ ':') :=
    List.takeWhile_cons_of_pos (by simpa using other)
  have dropped : (x :: t).dropWhile (· ≠ ':') = t.dropWhile (· ≠ ':') :=
    List.dropWhile_cons_of_pos (by simpa using other)
  rw [matchPattern, matchPattern, taken, dropped]
  cases left : t.dropWhile (· ≠ ':') with
  | nil =>
    dsimp only
    rcases List.eq_nil_or_concat' t with rfl | ⟨init, y, rfl⟩
    · by_cases brace : x = '\x7d'
      · subst brace
        rfl
      · have open_ : closes [x] = false := by simp [closes, upToDollar, brace]
        simp [brace, open_, show closes [] = false from rfl]
    rw [← List.cons_append, List.getLast?_concat, List.getLast?_concat, List.dropLast_concat, List.dropLast_concat]
    by_cases brace : y = '\x7d'
    · rw [if_pos (congrArg some brace), if_pos (congrArg some brace)]
      rfl
    · rw [if_neg fun same => brace (Option.some.inj same), if_neg fun same => brace (Option.some.inj same)]
      rcases List.eq_nil_or_concat' init with rfl | ⟨init, z, rfl⟩
      · have open_ : closes [y] = false := by simp [closes, upToDollar, brace]
        simp [open_]
      · have open_ : closes (x :: (init ++ [z] ++ [y])) = false := by
          rw [Bool.eq_false_iff, Ne, closes_iff]
          rintro (same | same)
          · exact absurd (congrArg List.length same) (by simp)
          · exact absurd (congrArg List.length same) (by simp)
        rw [List.cons_append, open_]
        simp
  | cons y u =>
    have open_ : closes (x :: t) = false := by
      rw [Bool.eq_false_iff, Ne, closes_iff]
      rintro (same | same)
      · obtain ⟨-, rfl⟩ := List.cons.inj same
        exact absurd left (by simp)
      · obtain ⟨-, rfl⟩ := List.cons.inj same
        exact absurd left (by simp)
    rw [open_, if_neg Bool.false_ne_true, Option.or_none, Option.map_map]
    rfl

theorem matchPattern_colon (t : Str) :
    matchPattern (':' :: t) = (matchName (':' :: t)).map fun name => ([], name) := by
  rw [matchPattern]
  rfl

/-- The group of a pattern, and the end of the wildcard behind it. -/
theorem exec_patternFrom (s : Scan Char Str) (w rest : Str) :
    ((Re.star (.one (· != ':'))).exec (s.move w rest) fun s' =>
      nameEnd.exec (s.close "pattern".toList s') some).map Scan.groups =
      (matchPattern rest).map fun g => s.groups ++ [("pattern".toList, w ++ g.1)] ++ nameGroup g.2 := by
  have here : ∀ w rest : Str, (nameEnd.exec (s.close "pattern".toList (s.move w rest)) some).map Scan.groups =
      (matchName rest).map fun name => s.groups ++ [("pattern".toList, w)] ++ nameGroup name := by
    intro w rest
    rw [exec_nameEnd]
    simp [Scan.close, Scan.move]
  induction rest generalizing w with
  | nil =>
    rw [exec_star_nil _ rfl, here]
    rfl
  | cons x t ih =>
    rw [exec_star_cons _ rfl, Scan.move_move]
    by_cases colon : x = ':'
    · subst colon
      rw [if_neg (by simp), here, matchPattern_colon, Option.map_map]
      simp [Function.comp_def]
    · have unnamed : matchName (x :: t) = if closes (x :: t) then some [] else none := by
        unfold matchName
        split
        · rename_i same
          exact absurd (List.cons.inj same).1 colon
        · rfl
      rw [if_pos (by simpa using colon), Option.map_or, ih, here, matchPattern_cons colon, Option.map_or,
        Option.map_map, unnamed]
      refine congrArg₂ Option.or ?_ ?_
      · simp [Function.comp_def]
      · split_ifs
        · simp
        · rfl

theorem lastMatch_param (pfx given name : Str) :
    let groups := [("prefix".toList, pfx)] ++ [("pattern".toList, given)] ++ nameGroup name
    lastMatch "prefix".toList groups = pfx ∧ lastMatch "pattern".toList groups = given ∧
      lastMatch "name".toList groups = name := by
  dsimp only
  unfold nameGroup
  split_ifs with none
  · subst none
    exact ⟨rfl, rfl, rfl⟩
  · exact ⟨rfl, rfl, rfl⟩

theorem param_searched (part : Str) : (URL_REGEX_PATTERN.search part).map (fun m =>
    (m.named "prefix".toList, m.named "pattern".toList, m.named "name".toList)) = matchParam part := by
  have groups : (fun m : Scan Char Str =>
      (m.named "prefix".toList, m.named "pattern".toList, m.named "name".toList)) =
        (fun g => (lastMatch "prefix".toList g, lastMatch "pattern".toList g, lastMatch "name".toList g)) ∘
          Scan.groups := rfl
  rw [groups, ← Option.map_map, URL_REGEX_PATTERN, exec_behindPrefix, matchParam]
  generalize part.takeWhile isNormalUrlChar = pfx
  generalize part.dropWhile isNormalUrlChar = behind
  split
  · rename_i body
    have found := exec_patternFrom ⟨pfx ++ ['\x7b'], body, [("prefix".toList, pfx)]⟩ [] body
    rw [Scan.move_nil] at found
    rw [exec_seq, exec_group, found, Option.map_map]
    refine Option.map_congr fun g _ => ?_
    obtain ⟨first, second, third⟩ := lastMatch_param pfx g.1 g.2
    exact Prod.ext first (Prod.ext second third)
  · simp

end Wildcards

/-- `URL_REGEX_DEFAULT_PATTERN` has no anchors. -/
theorem default_searched (part : Str) : ((Re.star (.one isNormalUrlChar) : UrlPattern).search part).isSome := by
  have here : ∀ s : Scan Char Str, ((Re.star (.one isNormalUrlChar)).exec s some).isSome := fun s =>
    exec_isSome_iff.mpr ⟨s, .done, rfl⟩
  rw [Re.search]
  cases part with
  | nil => exact here _
  | cons x part =>
    rw [Re.searchFrom, Option.isSome_or, here]
    rfl

/-- The search for the patterns of `router.h`, alternatives in their order and repetitions as long ones first,
finds in every text what the matchers of the parser find, and its groups match the same; and the default
pattern of a parameter is found in every text. -/
theorem patterns_searched (text : Str) :
    (URL_STATIC_PART_PATTERN.search text).isSome = normalStatic text ∧
    (URL_ROUTE_PATTERN.search text).isSome = routePattern text ∧
    (URL_SUBROUTE_PREFIX_PATTERN.search text).isSome = subRoutePattern text ∧
    (URL_MATCHALL_PATTERN.search text).map (fun m =>
      (m.named "prefix".toList, m.named "name".toList)) = matchCatchAll text ∧
    (URL_REGEX_PATTERN.search text).map (fun m =>
      (m.named "prefix".toList, m.named "pattern".toList, m.named "name".toList)) = matchParam text ∧
    ((Re.star (.one isNormalUrlChar) : UrlPattern).search text).isSome :=
  ⟨static_searched text, route_searched text, subRoute_searched text, catchAll_searched text,
    param_searched text, default_searched text⟩

end Cppmhd
