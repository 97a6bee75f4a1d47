import Cppmhd.Router.Segments

/-!
# The normalised route

`actualFullPath` is the route that the router logs in place of the registered one, with all names and
patterns filled in.  Parsing it yields the same parse, unless the registered path ends with a slash,
which `actualFullPath` lacks (`reparse_iff`).
-/

namespace Cppmhd

variable {pcre : Pcre} {path : Str} {ps : List Piece}

theorem Reads.full_free {i : ℕ} {parts : List Str} (reads : Reads pcre i parts ps)
    (free : ∀ part ∈ parts, '/' ∉ part ∧ part ≠ []) :
    ∀ full ∈ ps.map Piece.full, '/' ∉ full ∧ full ≠ [] := by
  induction reads with
  | nil => simp
  | cons read rest ih =>
    obtain ⟨here, nonempty⟩ := free _ List.mem_cons_self
    intro full member
    rcases List.mem_cons.mp member with rfl | later
    · exact read.full_free here nonempty
    · exact ih (fun q member => free q (List.mem_cons_of_mem _ member)) full later

theorem Reads.again {i : ℕ} {parts : List Str} (reads : Reads pcre i parts ps)
    (free : ∀ part ∈ parts, '/' ∉ part ∧ part ≠ []) (j : ℕ) :
    Reads pcre j (ps.map Piece.full) ps := by
  induction reads with
  | nil => exact .nil
  | cons read rest ih =>
    exact .cons (read.again (free _ List.mem_cons_self).1 j)
      (ih fun q member => free q (List.mem_cons_of_mem _ member))

theorem fullOf_eq (ps : List Piece) : fullOf ps = (ps.map Piece.full).flatMap fun full => '/' :: full := by
  rw [fullOf, List.flatMap_map]

/-- The last segment ends without a slash. -/
theorem getLast_join {parts : List Str} (free : ∀ part ∈ parts, '/' ∉ part ∧ part ≠ []) :
    (parts.flatMap fun part => '/' :: part).getLast? ≠ some '/' := by
  intro last
  induction parts using List.reverseRecOn with
  | nil => exact absurd last nofun
  | append_singleton parts part =>
    obtain ⟨here, nonempty⟩ := free part (by simp)
    rw [List.flatMap_append, List.flatMap_singleton, List.getLast?_append_cons,
      List.getLast?_cons_of_ne_nil nonempty] at last
    exact here (List.mem_of_mem_getLast? last)

/-- The parse of a normalised route with at least one segment. -/
theorem parse_fullOf {parts : List Str} (reads : Reads pcre 1 parts ps)
    (free : ∀ part ∈ parts, '/' ∉ part ∧ part ≠ []) (some : ps ≠ []) :
    parsePathSegment pcre (fullOf ps) = .ok ⟨paramsOf ps, calcedOf ps, fullOf ps⟩ := by
  have fulls := reads.full_free free
  have route : isRoute (fullOf ps) = true := by
    rw [fullOf_eq]
    exact isRoute_join fulls (by simpa using some)
  rw [parsePathSegment_ok_iff]
  refine ⟨by rw [routePattern, upToDollar, route, Bool.true_or], ps, ?_, ?_⟩
  · rw [fullOf_eq, pieces_join fulls]
    exact reads.again free 1
  · have last : (fullOf ps).getLast? ≠ Option.some '/' := by
      rw [fullOf_eq]
      exact getLast_join fulls
    rw [if_neg last, List.append_nil]

/-- The normalised route has the same parse if and only if the path does not end with a slash. -/
theorem reparse_iff {p : PathParser} (parsed : parsePathSegment pcre path = .ok p) :
    parsePathSegment pcre p.actualFullPath = .ok p ↔ path.getLast? ≠ some '/' := by
  obtain ⟨route, ps, reads, rfl⟩ := parsePathSegment_ok_iff.mp parsed
  have free : ∀ part ∈ pieces '/' path, '/' ∉ part ∧ part ≠ [] := fun _ member => mem_pieces member
  constructor
  · intro same slash
    rw [if_pos slash] at same
    by_cases none : ps = []
    · subst none
      exact absurd same (by simp [fullOf, parsePathSegment, routePattern, upToDollar, isRoute])
    · rw [parse_fullOf reads free none, Except.ok.injEq, PathParser.mk.injEq] at same
      exact absurd same.2.1 (by simp)
  · intro open_
    have some : ps ≠ [] := by
      rintro rfl
      have none : pieces '/' path = [] := by
        generalize pieces '/' path = parts at reads
        cases reads
        rfl
      have rooted := isRoute_of_routePattern route
      rw [isRoute, Bool.and_eq_true, beq_iff_eq, decide_eq_true_eq] at rooted
      have joined := join_pieces rooted.1 rooted.2
      rw [none, if_neg open_] at joined
      rw [← joined] at rooted
      cases rooted.1
    rw [if_neg open_, List.append_nil]
    exact parse_fullOf reads free some

/-- The wildcards without names of `/v1/img-{\d+}/{**}` get running numbers, and keep them. -/
theorem reparse_image :
    ∃ p, parsePathSegment anyPcre "/v1/img-\x7b\\d+\x7d/\x7b**\x7d".toList = .ok p ∧
      parsePathSegment anyPcre "/v1/img-\x7b\\d+:1\x7d/\x7b**:2\x7d".toList = .ok p := by
  have full : (parsePathSegment anyPcre "/v1/img-\x7b\\d+\x7d/\x7b**\x7d".toList).toOption.map
      (·.actualFullPath) = some "/v1/img-\x7b\\d+:1\x7d/\x7b**:2\x7d".toList := by decide +kernel
  cases parsed : parsePathSegment anyPcre "/v1/img-\x7b\\d+\x7d/\x7b**\x7d".toList with
  | error log =>
    rw [parsed] at full
    cases full
  | ok p =>
    rw [parsed] at full
    have normalised : p.actualFullPath = "/v1/img-\x7b\\d+:1\x7d/\x7b**:2\x7d".toList :=
      Option.some.inj full
    have again := (reparse_iff parsed).mpr (by decide)
    rw [normalised] at again
    exact ⟨p, rfl, again⟩

/-- The normalised route of `/a/` is `/a`, which is another route. -/
theorem slash_dropped :
    ∃ p, parsePathSegment anyPcre "/a/".toList = .ok p ∧
      parsePathSegment anyPcre p.actualFullPath ≠ .ok p :=
  ⟨⟨[], "/a/".toList, "/a".toList⟩, by decide +kernel, by decide +kernel⟩

end Cppmhd
