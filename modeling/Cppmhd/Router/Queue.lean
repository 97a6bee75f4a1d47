import Cppmhd.Router.AddRoute
import Cppmhd.Router.Segments

/-!
# The queue of parameters

Each placeholder of a calculated path stands for one queued parameter, in order and behind the prefix
of its parameter (`Placeholder`).  `insertChild` pops the queue at every placeholder that it meets;
`QueueSafe` says that it never finds the queue empty on the way.
-/

namespace Cppmhd

variable {Ctrl : Type} {pcre : Pcre}

/-! ## Placeholders and parameters -/

/-- The `k`-th placeholder is that of the `k`-th parameter: the same segment of the path yields the
parameter and, behind the parameter's prefix, the placeholder. -/
def Placeholder (pcre : Pcre) (path : Str) (p : PathParser) (k : ℕ) (m : Param) : Prop :=
  ∃ firsts part lasts i i' before after,
    pieces '/' path = firsts ++ part :: lasts ∧ Read pcre i part (.wild m) i' ∧
      p.calced = before ++ '/' :: (m.pfx ++ PARAM_CHAR :: after) ∧
      (pieces '/' before).length = firsts.length ∧ before.count PARAM_CHAR = k ∧
      PARAM_CHAR ∉ m.pfx ∧ '/' ∉ m.pfx

/-- The piece that queues the `k`-th parameter. -/
theorem exists_piece {ps : List Piece} {k : ℕ} {m : Param} (queued : (paramsOf ps)[k]? = some m) :
    ∃ firsts piece lasts, ps = firsts ++ piece :: lasts ∧ piece.param = some m ∧
      (paramsOf firsts).length = k := by
  induction ps generalizing k with
  | nil => exact absurd queued (by simp [paramsOf])
  | cons piece ps ih =>
    rw [paramsOf_cons] at queued
    cases here : piece.param with
    | none =>
      rw [here] at queued
      obtain ⟨firsts, piece', lasts, rfl, param, length⟩ := ih queued
      exact ⟨piece :: firsts, piece', lasts, rfl, param, by simpa [paramsOf_cons, here] using length⟩
    | some m' =>
      rw [here] at queued
      cases k with
      | zero =>
        obtain rfl := Option.some.inj queued
        exact ⟨[], piece, ps, rfl, here, rfl⟩
      | succ k =>
        obtain ⟨firsts, piece', lasts, rfl, param, length⟩ := ih queued
        refine ⟨piece :: firsts, piece', lasts, rfl, param, ?_⟩
        simp [paramsOf_cons, here, length]

theorem Reads.split {i : ℕ} {parts : List Str} {firsts lasts : List Piece} {piece : Piece}
    (reads : Reads pcre i parts (firsts ++ piece :: lasts)) :
    ∃ parts₁ part parts₂ i₁ i₂, parts = parts₁ ++ part :: parts₂ ∧ Reads pcre i parts₁ firsts ∧
      Read pcre i₁ part piece i₂ := by
  induction firsts generalizing i parts with
  | nil =>
    cases reads with
    | cons read rest => exact ⟨[], _, _, _, _, rfl, .nil, read⟩
  | cons first firsts ih =>
    cases reads with
    | @cons _ _ part parts _ _ read rest =>
      obtain ⟨parts₁, part', parts₂, i₁, i₂, rfl, before, here⟩ := ih rest
      exact ⟨part :: parts₁, part', parts₂, i₁, i₂, rfl, .cons read before, here⟩

theorem Reads.length_eq {i : ℕ} {parts : List Str} {ps : List Piece} (reads : Reads pcre i parts ps) :
    ps.length = parts.length := by
  induction reads with
  | nil => rfl
  | cons read rest ih => rw [List.length_cons, List.length_cons, ih]

theorem Read.text_free {i i' : ℕ} {part : Str} {piece : Piece} (read : Read pcre i part piece i')
    (free : '/' ∉ part) (nonempty : part ≠ []) : '/' ∉ piece.text ∧ piece.text ≠ [] := by
  rcases read.written free with ⟨rfl, -⟩ | ⟨m, rfl, written⟩
  · exact ⟨free, nonempty⟩
  · refine ⟨?_, by simp [Piece.wild]⟩
    simp only [Piece.wild, List.mem_append, List.mem_singleton, not_or]
    exact ⟨slash_of_normal written.normal, by decide⟩

theorem Reads.text_free {i : ℕ} {parts : List Str} {ps : List Piece} (reads : Reads pcre i parts ps)
    (free : ∀ part ∈ parts, '/' ∉ part ∧ part ≠ []) :
    ∀ text ∈ ps.map Piece.text, '/' ∉ text ∧ text ≠ [] := by
  induction reads with
  | nil => simp
  | cons read rest ih =>
    obtain ⟨here, nonempty⟩ := free _ List.mem_cons_self
    intro text member
    rcases List.mem_cons.mp member with rfl | later
    · exact read.text_free here nonempty
    · exact ih (fun q member => free q (List.mem_cons_of_mem _ member)) text later

/-- As many placeholders as parameters. -/
theorem Reads.count_eq {i : ℕ} {parts : List Str} {ps : List Piece} (reads : Reads pcre i parts ps) :
    (calcedOf ps).count PARAM_CHAR = (paramsOf ps).length := by
  obtain ⟨calced, -, params, -⟩ := foldl_of_reads [] { i := i } reads
  have initial : PartState.Good { i := i } := ⟨Or.inl rfl, by simp, List.isChain_nil, rfl, by simp⟩
  have counted := (foldl_parsePart_good pcre [] parts initial).counted
  rwa [calced, params] at counted

theorem placeholder_of_parsed {path : Str} {p : PathParser} {k : ℕ} {m : Param}
    (parsed : parsePathSegment pcre path = .ok p) (queued : p.params[k]? = some m) :
    Placeholder pcre path p k m := by
  obtain ⟨-, ps, reads, rfl⟩ := parsePathSegment_ok_iff.mp parsed
  obtain ⟨firsts, piece, lasts, rfl, param, length⟩ := exists_piece queued
  obtain ⟨parts₁, part, parts₂, i, i', whole, before, read⟩ := reads.split
  have free : ∀ q ∈ pieces '/' path, '/' ∉ q ∧ q ≠ [] := fun _ member => mem_pieces member
  rw [whole] at free
  obtain ⟨here, -⟩ := free part (by simp)
  have free₁ : ∀ q ∈ parts₁, '/' ∉ q ∧ q ≠ [] := fun q member => free q (by simp [member])
  rcases read.written here with ⟨rfl, -⟩ | ⟨m', rfl, written⟩
  · exact absurd param nofun
  · obtain rfl : m' = m := Option.some.inj param
    refine ⟨parts₁, part, parts₂, i, i', calcedOf firsts,
      calcedOf lasts ++ if path.getLast? = some '/' then ['/'] else [], whole, read, ?_, ?_, ?_, ?_, ?_⟩
    · simp only [calcedOf, List.flatMap_append, List.flatMap_cons, Piece.wild, List.append_assoc,
        List.cons_append, List.nil_append]
    · have joined := pieces_join (before.text_free free₁)
      rw [List.flatMap_map] at joined
      rw [calcedOf, joined, List.length_map, before.length_eq]
    · rw [before.count_eq, length]
    · intro colon
      exact absurd (List.all_eq_true.mp written.normal _ colon) (by decide)
    · exact slash_of_normal written.normal

/-! ## Working off the queue -/

/-- The rounds of `insertChild` on this path: at every placeholder the queue has a front to pop, and
what follows the placeholder is a slash or nothing. -/
inductive QueueSafe : Str → List Param → Prop
  | done {t : Str} {params : List Param} (none : findWildcard t = none) : QueueSafe t params
  | pop {t : Str} {wild : Param} {params : List Param} {pos : ℕ} (found : findWildcard t = some pos)
      (follows : ∀ c, t[pos + 1]? = some c → c = '/')
      (later : wild.type = .PARAM → QueueSafe (t.drop (pos + 1)) params) : QueueSafe t (wild :: params)

theorem queueSafe_of_insertable {t : Str} {params : List Param} (ok : Insertable t params) :
    QueueSafe t params := by
  induction params generalizing t with
  | nil =>
    apply QueueSafe.done
    rw [findWildcard_eq_none_iff]
    exact List.count_eq_zero.mp (Nat.le_zero.mp ok.enough)
  | cons wild params ih =>
    by_cases colon : PARAM_CHAR ∈ t
    · obtain ⟨pre, rest, rfl, free⟩ := List.eq_append_cons_of_mem colon
      have here := ok.of_append
      have cut : (pre ++ PARAM_CHAR :: rest).drop (pre.length + 1) = rest := by
        rw [← List.drop_drop, List.drop_left]
        rfl
      refine .pop (findWildcard_append free rest) ?_ fun _ => ?_
      · intro c next
        rw [← List.head?_drop, cut] at next
        obtain ⟨rest, rfl⟩ := List.head?_eq_some_iff.mp next
        exact here.slash_of_placeholder
      · rw [cut]
        exact ih here.pop
    · exact .done ((findWildcard_eq_none_iff t).mpr colon)

/-- With a safe queue no assertion of `insertChild` fails. -/
theorem insertChild_defined {t : Str} {params : List Param} (safe : QueueSafe t params)
    (queued : ∀ p ∈ params, p.Queued) (node : RawNode Ctrl) (fullPath : Str) (ctrl : Ctrl) :
    (insertChild node t fullPath ctrl params).verdict ≠ .undefined := by
  induction safe generalizing node with
  | @done t params none =>
    cases params with
    | nil => simp [insertChild, none]
    | cons wild params => simp [insertChild, none]
  | @pop t wild params pos found follows later ih =>
    rcases queued wild List.mem_cons_self with isParam | ⟨isCatchAll, -⟩
    · simp only [insertChild, found, isParam]
      split_ifs
      · rintro ⟨⟩
      · rw [List.drop_drop]
        exact ih isParam (fun p member => queued p (List.mem_cons_of_mem wild member)) _
      · rintro ⟨⟩
    · simp only [insertChild, found, isCatchAll]
      split_ifs
      · rintro ⟨⟩
      · rintro ⟨⟩

/-- What `insert` takes from the queue: nothing, or what one call of `insertChild` takes for a rest of
the path. -/
def Handed (ctrl : Ctrl) (parser : PathParser) (path : Str) (params : List Param) : Prop :=
  params = parser.params ∨ ∃ (node : RawNode Ctrl) (t : Str), t <:+ path ∧
    params = (insertChild node t parser.actualFullPath ctrl parser.params).params

section Handed

variable {ctrl : Ctrl} {parser : PathParser} {path : Str}

theorem Handed.of_drop {params : List Param} {i : ℕ} (handed : Handed ctrl parser (path.drop i) params) :
    Handed ctrl parser path params := by
  rcases handed with kept | ⟨node, t, rest, same⟩
  · exact Or.inl kept
  · exact Or.inr ⟨node, t, rest.trans (List.drop_suffix i path), same⟩

theorem attach_handed (node : RawNode Ctrl) (path : Str) :
    Handed ctrl parser path (node.attach path parser ctrl).params := by
  unfold RawNode.attach
  split_ifs
  · exact Or.inr ⟨_, path, List.suffix_rfl, rfl⟩
  · exact Or.inr ⟨_, path, List.suffix_rfl, rfl⟩

theorem setHandle_handed (node : RawNode Ctrl) (path : Str) :
    Handed ctrl parser path (node.setHandle parser ctrl).params := by
  unfold RawNode.setHandle
  split_ifs
  · exact Or.inl rfl
  · exact Or.inl rfl

mutual

theorem insertLoop_handed : ∀ (node : RawNode Ctrl) (path : Str) (parser : PathParser) (ctrl : Ctrl),
    Handed ctrl parser path (insertLoop node path parser ctrl).params
  | ⟨p, indices, children, handle, type, re, name, wildchild⟩, path, parser, ctrl => by
    rw [insertLoop]
    dsimp only
    split_ifs with inside more more wild goes
    · exact (attach_handed _ _).of_drop
    · exact setHandle_handed _ _
    · cases children with
      | nil => exact Or.inl rfl
      | cons child rest =>
        dsimp only
        split_ifs with admitted
        · exact (insertLoop_handed child _ parser ctrl).of_drop
        · exact Or.inl rfl
    · cases children with
      | nil => exact Or.inl rfl
      | cons child rest => exact (insertLoop_handed child _ parser ctrl).of_drop
    · cases found : insertIndice children indices (path.drop (findLongestCommonPrefix path p)) parser
        ctrl with
      | some r => exact (insertIndice_handed children indices _ parser ctrl found).of_drop
      | none => exact (attach_handed _ _).of_drop
    · exact setHandle_handed _ _

theorem insertIndice_handed : ∀ (children : List (RawNode Ctrl)) (indices path : Str)
    (parser : PathParser) (ctrl : Ctrl) {r : List (RawNode Ctrl) × List Param × Verdict},
    insertIndice children indices path parser ctrl = some r → Handed ctrl parser path r.2.1
  | child :: children, i :: indices, path, parser, ctrl, r, found => by
    rw [insertIndice] at found
    split_ifs at found with here
    · obtain rfl := Option.some.inj found
      exact insertLoop_handed child path parser ctrl
    · obtain ⟨r', found', rfl⟩ := Option.map_eq_some_iff.mp found
      have later := insertIndice_handed children indices path parser ctrl found'
      exact later
  | [], _, _, _, _, _, found => absurd found (by simp [insertIndice])
  | _ :: _, [], _, _, _, _, found => absurd found (by simp [insertIndice])

end

theorem insert_handed (tree : RawTree Ctrl) (path : Str) (parser : PathParser) (ctrl : Ctrl) :
    Handed ctrl parser path (tree.insert path parser ctrl).params := by
  unfold RawTree.insert
  split_ifs
  · exact Or.inr ⟨_, path, List.suffix_rfl, rfl⟩
  · exact insertLoop_handed _ _ _ _

end Handed

/-- The output of an accepted parse: rooted, one placeholder for each queued parameter, behind its
prefix and at the end of its segment.  So insertion into any tree only works off rests of the calculated
path for which the queue suffices, and no assertion of it fails. -/
theorem parser_shape {path : Str} {p : PathParser} (parsed : parsePathSegment pcre path = .ok p) :
    p.calced.head? = some '/' ∧ p.calced.count PARAM_CHAR = p.params.length ∧
      (∀ before after, p.calced = before ++ PARAM_CHAR :: after →
        after = [] ∨ after.head? = some '/') ∧
      (∀ k m, p.params[k]? = some m → Placeholder pcre path p k m) ∧
      ∀ (tree : RawTree Ctrl) (ctrl : Ctrl), tree.Reachable pcre →
        (tree.addRoute pcre path ctrl).2 ≠ .undefined ∧
          Handed ctrl p p.calced (tree.insert p.calced p ctrl).params ∧
          ∀ t, t <:+ p.calced → QueueSafe t p.params ∧ ∀ (node : RawNode Ctrl) fullPath,
            (insertChild node t fullPath ctrl p.params).verdict ≠ .undefined := by
  have calculated := parsePathSegment_calculated parsed
  refine ⟨calculated.rooted, calculated.counted, ?_, fun k m => placeholder_of_parsed parsed, ?_⟩
  · intro before after whole
    have shaped := calculated.shaped
    rw [whole] at shaped
    cases after with
    | nil => exact Or.inl rfl
    | cons c after =>
      have next := (List.isChain_cons_cons.mp (List.isChain_append.mp shaped).2.1).1.1 rfl
      exact Or.inr (congrArg some next)
  · intro tree ctrl reachable
    refine ⟨addRoute_defined reachable path ctrl, insert_handed _ _ _ _, ?_⟩
    rintro t ⟨first, whole⟩
    have ok : Insertable (first ++ t) p.params := whole ▸ calculated.insertable
    have safe := queueSafe_of_insertable ok.of_append
    exact ⟨safe, fun node fullPath => insertChild_defined safe calculated.queued node fullPath ctrl⟩

/-- The parse of `/u-{:id}/x`. -/
def userParse : PathParser where
  params := [⟨.PARAM, "u-".toList, "id".toList, URL_REGEX_DEFAULT_PATTERN,
    .compiled URL_REGEX_DEFAULT_PATTERN⟩]
  calced := "/u-:/x".toList
  actualFullPath := "/u-\x7b[\\w\\.\\-_]*:id\x7d/x".toList

theorem parser_shape_user :
    userParse.calced.count PARAM_CHAR = 1 ∧
      ∀ k m, userParse.params[k]? = some m →
        Placeholder anyPcre "/u-\x7b:id\x7d/x".toList userParse k m := by
  have parsed : parsePathSegment anyPcre "/u-\x7b:id\x7d/x".toList = .ok userParse := by
    decide +kernel
  have shape := @parser_shape ℕ anyPcre _ _ parsed
  exact ⟨shape.2.1, shape.2.2.2.1⟩

end Cppmhd
