import Cppmhd.Router.Parser
import Mathlib.Data.List.Chain
import Mathlib.Data.List.TakeWhile
import Mathlib.Tactic.Common

/-!
# Calculated paths

The output of an accepted parse (`Calculated`): the calculated path is rooted, no segment of it is
empty, a placeholder ends its segment, and there is one queued parameter for each placeholder.
Without wildcards the calculated path is the registered path (`calced_of_static`).
-/

namespace Cppmhd

/-- Neighbours in a calculated path: a placeholder ends its segment, and no segment is empty. -/
def Follows (a b : Char) : Prop := (a = PARAM_CHAR → b = '/') ∧ (a = '/' → b ≠ '/')

instance (a b : Char) : Decidable (Follows a b) := inferInstanceAs (Decidable (_ ∧ _))

/-- A calculated path, or any rest of one. -/
abbrev Shaped (t : Str) : Prop := t.IsChain Follows

/-- A parameter as the parser queues it. -/
def Param.Queued (p : Param) : Prop :=
  p.type = .PARAM ∨ (p.type = .CATCH_ALL ∧ p.re = .null)

/-- What insertion relies on. -/
structure Calculated (calced : Str) (params : List Param) : Prop where
  rooted : calced.head? = some '/'
  shaped : Shaped calced
  counted : calced.count PARAM_CHAR = params.length
  queued : ∀ p ∈ params, p.Queued

/-! ## Segments -/

/-- The characters that a segment may contribute to the calculated path besides a placeholder. -/
def Plain (s : Str) : Prop := ∀ c ∈ s, c ≠ '/' ∧ c ≠ PARAM_CHAR

theorem ne_of_isNormalUrlChar {c : Char} (normal : isNormalUrlChar c = true) :
    c ≠ '/' ∧ c ≠ PARAM_CHAR := by
  constructor
  · rintro rfl
    exact absurd normal (by decide)
  · rintro rfl
    exact absurd normal (by decide)

theorem plain_takeWhile (part : Str) : Plain (part.takeWhile isNormalUrlChar) :=
  fun _ hc => ne_of_isNormalUrlChar (List.mem_takeWhile_imp hc)

theorem plain_of_normalStatic {part : Str} (static : normalStatic part = true) :
    Plain part ∧ part ≠ [] := by
  simp only [normalStatic, upToDollar, Bool.or_eq_true, Bool.and_eq_true, bne_iff_ne, beq_iff_eq,
    List.all_eq_true] at static
  rcases static with ⟨nonempty, all⟩ | ⟨newline, nonempty, all⟩
  · exact ⟨fun c hc => ne_of_isNormalUrlChar (all c hc), nonempty⟩
  · have present : part ≠ [] := by
      rintro rfl
      exact nonempty rfl
    refine ⟨fun c hc => ?_, present⟩
    rw [← List.dropLast_append_getLast present, List.mem_append, List.mem_singleton] at hc
    rcases hc with hc | rfl
    · exact ne_of_isNormalUrlChar (all c hc)
    · have last : part.getLast present = '\n' := by
        rwa [List.getLast?_eq_getLast_of_ne_nil present, Option.some.injEq] at newline
      rw [last]
      decide

theorem shaped_plain {s : Str} (plain : Plain s) : Shaped s := by
  induction s with
  | nil => exact List.isChain_nil
  | cons c s ih =>
    have here := plain c List.mem_cons_self
    rw [Shaped, List.isChain_cons]
    exact ⟨fun d _ => ⟨fun same => absurd same here.2, fun same => absurd same here.1⟩,
      ih fun d hd => plain d (List.mem_cons_of_mem c hd)⟩

theorem shaped_placeholder {s : Str} (plain : Plain s) : Shaped (s ++ [PARAM_CHAR]) := by
  rw [Shaped, List.isChain_append]
  refine ⟨shaped_plain plain, List.isChain_singleton _, fun c hc d _ => ?_⟩
  have here := plain c (List.mem_of_mem_getLast? hc)
  exact ⟨fun same => absurd same here.2, fun same => absurd same here.1⟩

theorem count_plain {s : Str} (plain : Plain s) : s.count PARAM_CHAR = 0 :=
  List.count_eq_zero.mpr fun h => (plain _ h).2 rfl

/-! ## The loop -/

/-- The loop invariant of `parsePathSegment`. -/
structure PartState.Good (st : PartState) : Prop where
  rooted : st.calced = [] ∨ st.calced.head? = some '/'
  open_ : st.calced.getLast? ≠ some '/'
  shaped : Shaped st.calced
  counted : st.calced.count PARAM_CHAR = st.params.length
  queued : ∀ p ∈ st.params, p.Queued

theorem good_initial : PartState.Good {} :=
  ⟨Or.inl rfl, by simp, List.isChain_nil, rfl, by simp⟩

/-- A segment that does not begin with a slash may follow. -/
theorem shaped_append {calced seg : Str} (last : calced.getLast? ≠ some '/')
    (shaped : Shaped calced) (segShaped : Shaped seg) (first : seg.head? ≠ some '/') :
    Shaped (calced ++ '/' :: seg) := by
  rw [Shaped, List.isChain_append, List.isChain_cons]
  refine ⟨shaped, ⟨fun d hd => ⟨fun same => absurd same (by decide), ?_⟩, segShaped⟩,
    fun c hc d hd => ?_⟩
  · rintro - rfl
    exact first hd
  · rw [List.head?_cons, Option.mem_some_iff] at hd
    subst hd
    refine ⟨fun _ => rfl, ?_⟩
    rintro rfl
    exact absurd hc last

theorem PartState.Good.append {st st' : PartState} (good : st.Good) (seg : Str)
    (queue : List Param) (calced : st'.calced = st.calced ++ '/' :: seg)
    (params : st'.params = st.params ++ queue) (nonempty : seg ≠ []) (segShaped : Shaped seg)
    (free : '/' ∉ seg) (counted : seg.count PARAM_CHAR = queue.length)
    (queued : ∀ p ∈ queue, p.Queued) : st'.Good where
  rooted := by
    rcases good.rooted with h | h
    · simp [calced, h]
    · simp [calced, List.head?_append, h]
  open_ := by
    intro last
    rw [calced, List.getLast?_append_cons, List.getLast?_cons_of_ne_nil nonempty] at last
    exact free (List.mem_of_mem_getLast? last)
  shaped := by
    rw [calced]
    exact shaped_append good.open_ good.shaped segShaped fun h => free (List.mem_of_mem_head? h)
  counted := by
    rw [calced, params, List.count_append, List.count_cons_of_ne (by decide), good.counted,
      counted, List.length_append]
  queued := by
    intro p hp
    rw [params, List.mem_append] at hp
    exact hp.elim (good.queued p) (queued p)

theorem PartState.Good.emplace {st : PartState} (good : st.Good) {m : Param}
    (plain : Plain m.pfx) (queued : m.Queued) (i : ℕ) : (st.emplace m i).Good := by
  refine good.append (m.pfx ++ [PARAM_CHAR]) [m] ?_ rfl (by simp)
    (shaped_placeholder plain) ?_ ?_ (by simpa using queued)
  · simp [PartState.emplace]
  · simp only [List.mem_append, List.mem_singleton, not_or]
    exact ⟨fun h => (plain _ h).1 rfl, by decide⟩
  · rw [List.count_append, count_plain plain]
    rfl

theorem PartState.Good.of_log {st st' : PartState} (good : st.Good)
    (calced : st'.calced = st.calced) (params : st'.params = st.params) : st'.Good :=
  ⟨calced ▸ good.rooted, calced ▸ good.open_, calced ▸ good.shaped,
    by rw [calced, params, good.counted], params ▸ good.queued⟩

theorem plain_matchCatchAll {part pfx name : Str} (found : matchCatchAll part = some (pfx, name)) :
    Plain pfx := by
  unfold matchCatchAll at found
  split at found
  · simp only [Option.map_eq_some_iff, Prod.mk.injEq] at found
    obtain ⟨-, -, rfl, -⟩ := found
    exact plain_takeWhile part
  · cases found

theorem plain_matchParam {part pfx : Str} {g : Str × Str}
    (found : matchParam part = some (pfx, g)) : Plain pfx := by
  unfold matchParam at found
  split at found
  · simp only [Option.map_eq_some_iff, Prod.mk.injEq] at found
    obtain ⟨-, -, rfl, -⟩ := found
    exact plain_takeWhile part
  · cases found

/-- One round keeps the invariant. -/
theorem parsePart_good (pcre : Pcre) (path : Str) {st : PartState} (good : st.Good) (part : Str) :
    (parsePart pcre path st part).Good := by
  unfold parsePart
  split_ifs with static
  · obtain ⟨plain, nonempty⟩ := plain_of_normalStatic static
    exact good.append part [] rfl (List.append_nil _).symm nonempty
      (shaped_plain plain) (fun h => (plain _ h).1 rfl) (count_plain plain) (by simp)
  · split
    · next pfx given found =>
      exact good.emplace (plain_matchCatchAll found) (Or.inr ⟨rfl, rfl⟩) _
    · split
      · next pfx given givenName found =>
        dsimp only
        split
        · exact good.emplace (plain_matchParam found) (Or.inl rfl) _
        · exact good.of_log rfl rfl
      · exact good.of_log rfl rfl

theorem foldl_parsePart_good (pcre : Pcre) (path : Str) (parts : List Str) {st : PartState}
    (good : st.Good) : (parts.foldl (parsePart pcre path) st).Good := by
  induction parts generalizing st with
  | nil => exact good
  | cons part parts ih => exact ih (parsePart_good pcre path good part)

/-! ## Accepted paths -/

theorem isRoute_of_routePattern {path : Str} (route : routePattern path = true) :
    isRoute path = true := by
  simp only [routePattern, upToDollar, Bool.or_eq_true, Bool.and_eq_true, beq_iff_eq] at route
  rcases route with route | ⟨newline, route⟩
  · exact route
  · have present : path ≠ [] := by
      rintro rfl
      cases newline
    have last : path.getLast present = '\n' := by
      rwa [List.getLast?_eq_getLast_of_ne_nil present, Option.some.injEq] at newline
    rw [← List.dropLast_append_getLast present, last]
    simp only [isRoute, Bool.and_eq_true, beq_iff_eq, decide_eq_true_eq] at route ⊢
    refine ⟨by rw [List.head?_append, route.1]; rfl, List.isChain_append.mpr
      ⟨route.2, List.isChain_singleton _, fun c _ d hd => ?_⟩⟩
    rw [List.head?_cons, Option.mem_some_iff] at hd
    rintro ⟨-, rfl⟩
    exact absurd hd (by decide)

/-- What an accepted parse says about the path and the state after the loop. -/
theorem parsePathSegment_ok {pcre : Pcre} {path : Str} {p : PathParser}
    (parsed : parsePathSegment pcre path = .ok p) :
    isRoute path = true ∧
      ((pieces '/' path).foldl (parsePart pcre path) {}).log = [] ∧
      p.params = ((pieces '/' path).foldl (parsePart pcre path) {}).params ∧
      p.calced = ((pieces '/' path).foldl (parsePart pcre path) {}).calced ++
        if path.getLast? = some '/' then ['/'] else [] := by
  unfold parsePathSegment at parsed
  by_cases route : routePattern path = true
  · rw [if_pos route, split_char, Option.getD_some, List.nil_append] at parsed
    dsimp only at parsed
    by_cases log : ((pieces '/' path).foldl (parsePart pcre path) {}).log = []
    · rw [if_pos log] at parsed
      cases parsed
      refine ⟨isRoute_of_routePattern route, log, rfl, ?_⟩
      by_cases last : path.getLast? = some '/' <;> simp [last]
    · rw [if_neg log] at parsed
      cases parsed
  · rw [if_neg route] at parsed
    cases parsed

/-- A round leaves a trace, in the calculated path or in the log. -/
theorem parsePart_trace (pcre : Pcre) (path : Str) (st : PartState) (part : Str) :
    (parsePart pcre path st part).calced ≠ [] ∨ (parsePart pcre path st part).log ≠ [] := by
  unfold parsePart
  split_ifs with static
  · exact Or.inl (by simp)
  · split
    · exact Or.inl (by simp [PartState.emplace])
    · split
      · dsimp only
        split
        · exact Or.inl (by simp [PartState.emplace])
        · exact Or.inr (by simp)
      · exact Or.inr (by simp)

/-- A round only appends. -/
theorem parsePart_grows (pcre : Pcre) (path : Str) (st : PartState) (part : Str) :
    st.calced <+: (parsePart pcre path st part).calced ∧
      st.params <+: (parsePart pcre path st part).params ∧
      st.log <+: (parsePart pcre path st part).log := by
  unfold parsePart
  split_ifs with static
  · exact ⟨List.prefix_append _ _, List.prefix_rfl, List.prefix_rfl⟩
  · split
    · exact ⟨by simp [PartState.emplace], List.prefix_append _ _, List.prefix_rfl⟩
    · split
      · dsimp only
        split
        · exact ⟨by simp [PartState.emplace], List.prefix_append _ _, List.prefix_rfl⟩
        · exact ⟨List.prefix_rfl, List.prefix_rfl, List.prefix_append _ _⟩
      · exact ⟨List.prefix_rfl, List.prefix_rfl, List.prefix_append _ _⟩

theorem foldl_parsePart_grows (pcre : Pcre) (path : Str) (parts : List Str) (st : PartState) :
    st.calced <+: (parts.foldl (parsePart pcre path) st).calced ∧
      st.params <+: (parts.foldl (parsePart pcre path) st).params ∧
      st.log <+: (parts.foldl (parsePart pcre path) st).log := by
  induction parts generalizing st with
  | nil => exact ⟨List.prefix_rfl, List.prefix_rfl, List.prefix_rfl⟩
  | cons part parts ih =>
    have here := parsePart_grows pcre path st part
    have later := ih (parsePart pcre path st part)
    exact ⟨here.1.trans later.1, here.2.1.trans later.2.1, here.2.2.trans later.2.2⟩

theorem eq_of_pieces_nil {c : Char} {s : Str} (none : pieces c s = []) : ∀ d ∈ s, d = c := by
  induction hn : s.length using Nat.strong_induction_on generalizing s with
  | _ n ih =>
    subst hn
    by_cases present : c ∈ s
    · obtain ⟨pre, rest, rfl, free⟩ := List.eq_append_cons_of_mem present
      rw [pieces_append_cons free, List.append_eq_nil_iff] at none
      have empty : pre = [] := by
        by_contra nonempty
        simp [nonempty] at none
      subst empty
      have later := ih rest.length (by simp) none.2 rfl
      simpa using later
    · rw [pieces_of_not_mem present] at none
      have empty : s = [] := by
        by_contra nonempty
        simp [nonempty] at none
      simp [empty]

/-- The shape of an accepted path. -/
theorem parsePathSegment_calculated {pcre : Pcre} {path : Str} {p : PathParser}
    (parsed : parsePathSegment pcre path = .ok p) : Calculated p.calced p.params := by
  obtain ⟨route, log, params, calced⟩ := parsePathSegment_ok parsed
  have good := foldl_parsePart_good pcre path (pieces '/' path) good_initial
  simp only [isRoute, Bool.and_eq_true, beq_iff_eq, decide_eq_true_eq] at route
  refine ⟨?_, ?_, ?_, params ▸ good.queued⟩
  · rcases good.rooted with empty | rooted
    · have none : pieces '/' path = [] := by
        cases hp : pieces '/' path with
        | nil => rfl
        | cons part parts =>
          rw [hp, List.foldl_cons] at empty log
          have grows := foldl_parsePart_grows pcre path parts (parsePart pcre path {} part)
          rw [empty, log] at grows
          rcases parsePart_trace pcre path {} part with trace | trace
          · exact absurd (List.prefix_nil.mp grows.1) trace
          · exact absurd (List.prefix_nil.mp grows.2.2) trace
      have present : path ≠ [] := by
        rintro rfl
        cases route.1
      have last : path.getLast? = some '/' := by
        rw [List.getLast?_eq_getLast_of_ne_nil present,
          eq_of_pieces_nil none _ (List.getLast_mem present)]
      rw [calced, empty, if_pos last]
      rfl
    · rw [calced, List.head?_append, rooted]
      rfl
  · rw [calced, Shaped, List.isChain_append]
    refine ⟨good.shaped, ?_, fun c hc d hd => ?_⟩
    · split_ifs
      · exact List.isChain_singleton _
      · exact List.isChain_nil
    · split_ifs at hd
      · rw [List.head?_cons, Option.mem_some_iff] at hd
        subst hd
        refine ⟨fun _ => rfl, ?_⟩
        rintro rfl
        exact absurd hc good.open_
      · cases hd
  · rw [calced, params, List.count_append, good.counted]
    split_ifs <;> rfl

/-! ## Paths without wildcards -/

theorem parsePart_static {pcre : Pcre} {path part : Str} {st : PartState}
    (params : (parsePart pcre path st part).params = [])
    (log : (parsePart pcre path st part).log = []) :
    (parsePart pcre path st part).calced = st.calced ++ '/' :: part := by
  unfold parsePart at params log ⊢
  split_ifs at params log ⊢ with static
  · rfl
  · split at params
    · simp [PartState.emplace] at params
    · next none =>
      rw [none] at log
      split at params
      · next found =>
        rw [found] at log
        dsimp only at params log
        split at params
        · simp [PartState.emplace] at params
        · next failed =>
          rw [failed] at log
          simp at log
      · next none' =>
        rw [none'] at log
        simp at log

theorem foldl_parsePart_static {pcre : Pcre} {path : Str} (parts : List Str) (st : PartState)
    (params : (parts.foldl (parsePart pcre path) st).params = [])
    (log : (parts.foldl (parsePart pcre path) st).log = []) :
    (parts.foldl (parsePart pcre path) st).calced =
      st.calced ++ parts.flatMap fun part => '/' :: part := by
  induction parts generalizing st with
  | nil => exact (List.append_nil _).symm
  | cons part parts ih =>
    rw [List.foldl_cons] at params log ⊢
    have grows := foldl_parsePart_grows pcre path parts (parsePart pcre path st part)
    have here := parsePart_static (List.prefix_nil.mp (params ▸ grows.2.1))
      (List.prefix_nil.mp (log ▸ grows.2.2))
    rw [ih _ params log, here, List.flatMap_cons, List.append_assoc, List.cons_append]

/-- The segments and a final slash make up the path. -/
theorem join_pieces {path : Str} (rooted : path.head? = some '/')
    (chain : path.IsChain NotSlashes) :
    ((pieces '/' path).flatMap fun part => '/' :: part) ++
      (if path.getLast? = some '/' then ['/'] else []) = path := by
  induction hn : path.length using Nat.strong_induction_on generalizing path with
  | _ n ih =>
    subst hn
    obtain ⟨rest, rfl⟩ := List.head?_eq_some_iff.mp rooted
    have cut : ∀ rest : Str, pieces '/' ('/' :: rest) = pieces '/' rest :=
      fun rest => pieces_append_cons List.not_mem_nil rest
    rw [cut]
    by_cases slash : '/' ∈ rest
    · obtain ⟨seg, rest', rfl, free⟩ := List.eq_append_cons_of_mem slash
      have nonempty : seg ≠ [] := by
        rintro rfl
        exact (List.isChain_cons_cons.mp chain).1 ⟨rfl, rfl⟩
      have tail : ('/' :: rest').IsChain NotSlashes :=
        (List.isChain_append.mp (show ('/' :: seg ++ '/' :: rest').IsChain NotSlashes from chain)).2.1
      have later := ih ('/' :: rest').length
        (by simp only [List.length_cons, List.length_append]; omega) rfl tail rfl
      rw [cut] at later
      rw [pieces_append_cons free, if_neg nonempty, List.singleton_append, List.flatMap_cons,
        List.append_assoc, ← List.cons_append, List.getLast?_append_cons, later]
    · rw [pieces_of_not_mem slash]
      by_cases empty : rest = []
      · subst empty
        rfl
      · have last : ('/' :: rest).getLast? ≠ some '/' := by
          rw [List.getLast?_cons_of_ne_nil empty]
          exact fun h => slash (List.mem_of_mem_getLast? h)
        rw [if_neg last]
        simp [empty]

/-- A path without wildcards is registered as it is written. -/
theorem calced_of_static {pcre : Pcre} {path : Str} {p : PathParser}
    (parsed : parsePathSegment pcre path = .ok p) (static : p.params = []) : p.calced = path := by
  obtain ⟨route, log, params, calced⟩ := parsePathSegment_ok parsed
  simp only [isRoute, Bool.and_eq_true, beq_iff_eq, decide_eq_true_eq] at route
  rw [calced, foldl_parsePart_static _ _ (params.symm.trans static) log]
  exact join_pieces route.1 route.2

end Cppmhd
