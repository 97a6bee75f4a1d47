import Cppmhd.Router.Build
import Mathlib.Logic.Relation

/-!
# The walk of `forward`

A round of the loop of `forward` moves to a child (`Descends`) or returns (`Stops`).  On a valid tree
every walk reaches a node where the loop returns (`exists_walk`), and the result of `forward` is the
one of that return.
-/

namespace Cppmhd

variable {Ctrl : Type}

/-! ## The rounds of the loop -/

section Rounds

variable (pcre : Pcre) (n : RouterNode Ctrl) (params : Params)

/-- `forward` returns below a node whose path does not begin the rest of the request. -/
theorem forwardLoop_mismatch {path : Str} (differs : ¬ n.path <+: path) :
    forwardLoop pcre n path params = ⟨none, params, mismatchTsr n path⟩ := by
  have other : n.path ≠ path := by
    rintro rfl
    exact differs (List.prefix_refl _)
  have notPrefix : isPrefix path n.path ≠ true := fun h => differs ((isPrefix_iff _ _).mp h)
  cases n
  rw [forwardLoop, if_neg notPrefix, if_neg other]
  exact ite_self _

theorem forwardLoop_exact :
    forwardLoop pcre n n.path params = exactMatch pcre n n.path params := by
  cases n
  rw [forwardLoop, if_neg (lt_irrefl _), if_pos rfl]

theorem forwardLoop_plain (x : Char) (t : Str) (plain : n.wildchild = false) :
    forwardLoop pcre n (n.path ++ x :: t) params =
      match forwardIndice pcre n.children n.indices (x :: t) params with
      | some r => r
      | none => ⟨none, params, (x :: t) == ['/'] && n.handle.isSome⟩ := by
  have longer : n.path.length < (n.path ++ x :: t).length := by simp
  have begins : isPrefix (n.path ++ x :: t) n.path = true :=
    (isPrefix_iff _ _).mpr (List.prefix_append _ _)
  cases n
  dsimp only at plain
  subst plain
  rw [forwardLoop, if_pos longer, if_pos begins, List.drop_left]
  exact if_pos rfl

variable {w : RouterNode Ctrl} (wild : n.wildchild = true) (only : n.children = [w])

include wild only

theorem forwardLoop_catchAll (x : Char) (t : Str) (isCatchAll : w.type = .CATCH_ALL) :
    forwardLoop pcre n (n.path ++ x :: t) params =
      ⟨w.handle, params.emplace w.name (x :: t), false⟩ := by
  have longer : n.path.length < (n.path ++ x :: t).length := by simp
  have begins : isPrefix (n.path ++ x :: t) n.path = true :=
    (isPrefix_iff _ _).mpr (List.prefix_append _ _)
  cases n
  cases w
  dsimp only at only wild isCatchAll
  subst only wild isCatchAll
  rw [forwardLoop, if_pos longer, if_pos begins, if_neg (by simp), List.drop_left]

/-- The round at a parameter: the segment up to the next slash, and what follows. -/
theorem forwardLoop_param {seg rest : Str} (isParam : w.type = .PARAM) (free : '/' ∉ seg)
    (ends : rest = [] ∨ ∃ rest', rest = '/' :: rest') (nonempty : seg ++ rest ≠ []) :
    forwardLoop pcre n (n.path ++ (seg ++ rest)) params =
      match bindParam pcre w seg params with
      | none => ⟨none, params, false⟩
      | some params =>
        if seg = [] ∧ w.handle.isSome then ⟨w.handle, params, false⟩
        else if rest ≠ [] then
          match w.children with
          | next :: _ => forwardLoop pcre next rest params
          | [] => ⟨none, params, rest == ['/']⟩
        else if w.handle.isSome then ⟨w.handle, params, false⟩
        else ⟨none, params, paramEndTsr w.children⟩ := by
  have longer : n.path.length < (n.path ++ (seg ++ rest)).length := by
    have positive := List.length_pos_iff.mpr nonempty
    rw [List.length_append]
    omega
  have begins : isPrefix (n.path ++ (seg ++ rest)) n.path = true :=
    (isPrefix_iff _ _).mpr (List.prefix_append _ _)
  have slash : findUntilSlash (seg ++ rest) = seg.length := findUntilSlash_append free ends
  have zero : seg.length = 0 ↔ seg = [] := List.length_eq_zero_iff
  have shorter : seg.length < (seg ++ rest).length ↔ rest ≠ [] := by
    rw [List.length_append, ← List.length_pos_iff]
    omega
  have single : ((seg ++ rest).length == seg.length + 1) = (rest == ['/']) := by
    rw [List.length_append]
    obtain rfl | ⟨rest', rfl⟩ := ends
    · simp
    · cases rest' with
      | nil => simp
      | cons y rest' => simp
  cases n
  obtain ⟨_, _, below, _, _, _, _, _⟩ := w
  dsimp only at only wild isParam
  subst only wild isParam
  rw [forwardLoop, if_pos longer, if_pos begins, if_neg (by simp), List.drop_left, slash]
  dsimp only
  rw [List.take_left]
  generalize bindParam pcre _ seg params = bound
  cases bound with
  | none => rfl
  | some params =>
    cases below with
    | nil => simp only [zero, shorter, single]
    | cons next below => simp only [List.drop_left, zero, shorter]

end Rounds

/-! ## The exact match -/

section Exact

variable {n w : RouterNode Ctrl}

/-- The wildcard child answers the empty rest of a request. -/
def RawNode.AnswersEmpty (pcre : Pcre) (w : RouterNode Ctrl) : Prop :=
  w.type = .CATCH_ALL ∨ (w.type = .PARAM ∧ w.re.matches pcre [] = true)

theorem exactMatch_handle (pcre : Pcre) (handle : n.handle.isSome) (path : Str) (params : Params) :
    exactMatch pcre n path params = ⟨n.handle, params, false⟩ := by
  rw [exactMatch, if_pos handle]

theorem exactMatch_answered (pcre : Pcre) (handle : n.handle = none) (wild : n.wildchild = true)
    (only : n.children = [w]) (answers : w.AnswersEmpty pcre) (path : Str) (params : Params) :
    exactMatch pcre n path params = ⟨w.handle, params.emplace w.name [], false⟩ := by
  simp only [exactMatch, handle, Option.isSome_none, Bool.false_eq_true, if_false, wild, only]
  rcases answers with isCatchAll | isParam
  · rw [if_pos isCatchAll]
  · rw [if_pos isParam]
    exact ite_self _

/-- Nothing answers: only the redirect flag is left to set. -/
theorem exactMatch_unanswered (pcre : Pcre) (handle : n.handle = none)
    (silent : ∀ w, n.wildchild = true → n.children = [w] → ¬ w.AnswersEmpty pcre)
    (single : n.wildchild = true → ∃ w, n.children = [w]) (path : Str) (params : Params) :
    exactMatch pcre n path params =
      if path = ['/'] ∧ n.wildchild ∧ n.type ≠ .ROOT then ⟨none, params, true⟩
      else ⟨none, params, slashTsr pcre n⟩ := by
  cases wild : n.wildchild with
  | false => simp [exactMatch, handle, wild]
  | true =>
    obtain ⟨w, only⟩ := single wild
    have quiet := silent w wild only
    rw [RawNode.AnswersEmpty, not_or] at quiet
    simp [exactMatch, handle, wild, only, quiet.1, quiet.2]

end Exact

/-- `forwardIndice` goes to the child with the first character of the path, if there is one. -/
theorem forwardIndice_cases (pcre : Pcre) {indices : Str} {children : List (RouterNode Ctrl)}
    (indexed : Indexed indices children) (path : Str) (params : Params) :
    (forwardIndice pcre children indices path params = none ∧
        ∀ c ∈ children, c.path.head? ≠ path.head?) ∨
      ∃ c ∈ children, c.path.head? = path.head? ∧
        forwardIndice pcre children indices path params =
          some (forwardLoop pcre c path params) := by
  induction indexed with
  | nil => exact Or.inl ⟨by simp only [forwardIndice], by simp⟩
  | @cons i child indices children head indexed ih =>
    by_cases here : path.head? = some i
    · right
      refine ⟨child, List.mem_cons_self, head.trans here.symm, ?_⟩
      simp only [forwardIndice, here, if_true]
    · rcases ih with ⟨none, absent⟩ | ⟨c, member, same, found⟩
      · left
        refine ⟨by simp only [forwardIndice, here, if_false, none], ?_⟩
        intro c member
        rcases List.mem_cons.mp member with rfl | member
        · rw [head]
          exact Ne.symm here
        · exact absent c member
      · right
        refine ⟨c, List.mem_cons_of_mem child member, same, ?_⟩
        simp only [forwardIndice, here, if_false, found]

/-- The children of a plain node differ in their first characters. -/
theorem Valid.child_unique {n : RawNode Ctrl} (valid : n.Valid) (plain : n.wildchild = false)
    {c d : RawNode Ctrl} (hc : c ∈ n.children) (hd : d ∈ n.children)
    (same : c.path.head? = d.path.head?) : c = d := by
  obtain ⟨-, indexed, nodup, -⟩ := Valid.of_plain valid plain
  exact List.inj_on_of_nodup_map (indexed.heads_nodup nodup) hc hd same

/-! ## Walks -/

/-- The locals of the loop of `forward`. -/
structure Cursor (Ctrl : Type) where
  node : RouterNode Ctrl
  path : Str
  params : Params

/-- What the loop returns from here on. -/
def Cursor.result (pcre : Pcre) (s : Cursor Ctrl) : Forwarded Ctrl :=
  forwardLoop pcre s.node s.path s.params

/-- The rounds that move to another node. -/
inductive Descends (pcre : Pcre) : Cursor Ctrl → Cursor Ctrl → Prop
  | child {n c : RouterNode Ctrl} {x : Char} {t : Str} {params : Params}
      (plain : n.wildchild = false) (member : c ∈ n.children) (head : c.path.head? = some x) :
      Descends pcre ⟨n, n.path ++ x :: t, params⟩ ⟨c, x :: t, params⟩
  | param {n w c : RouterNode Ctrl} {seg rest : Str} {params params' : Params}
      (wild : n.wildchild = true) (only : n.children = [w]) (isParam : w.type = .PARAM)
      (free : '/' ∉ seg) (bound : bindParam pcre w seg params = some params')
      (goes : ¬ (seg = [] ∧ w.handle.isSome)) (next : w.children = [c]) :
      Descends pcre ⟨n, n.path ++ (seg ++ '/' :: rest), params⟩ ⟨c, '/' :: rest, params'⟩

/-- The rounds that return. -/
inductive Stops (pcre : Pcre) : Cursor Ctrl → Forwarded Ctrl → Prop
  | mismatch {n : RouterNode Ctrl} {path : Str} {params : Params} (differs : ¬ n.path <+: path) :
      Stops pcre ⟨n, path, params⟩ ⟨none, params, mismatchTsr n path⟩
  | exact {n : RouterNode Ctrl} {params : Params} :
      Stops pcre ⟨n, n.path, params⟩ (exactMatch pcre n n.path params)
  | noChild {n : RouterNode Ctrl} {x : Char} {t : Str} {params : Params}
      (plain : n.wildchild = false) (absent : ∀ c ∈ n.children, c.path.head? ≠ some x) :
      Stops pcre ⟨n, n.path ++ x :: t, params⟩
        ⟨none, params, (x :: t) == ['/'] && n.handle.isSome⟩
  | catchAll {n w : RouterNode Ctrl} {x : Char} {t : Str} {params : Params}
      (wild : n.wildchild = true) (only : n.children = [w]) (isCatchAll : w.type = .CATCH_ALL) :
      Stops pcre ⟨n, n.path ++ x :: t, params⟩ ⟨w.handle, params.emplace w.name (x :: t), false⟩
  | rejected {n w : RouterNode Ctrl} {seg rest : Str} {params : Params}
      (wild : n.wildchild = true) (only : n.children = [w]) (isParam : w.type = .PARAM)
      (free : '/' ∉ seg) (ends : rest = [] ∨ ∃ rest', rest = '/' :: rest')
      (bound : bindParam pcre w seg params = none) :
      Stops pcre ⟨n, n.path ++ (seg ++ rest), params⟩ ⟨none, params, false⟩
  | emptySegment {n w : RouterNode Ctrl} {rest : Str} {params params' : Params}
      (wild : n.wildchild = true) (only : n.children = [w]) (isParam : w.type = .PARAM)
      (bound : bindParam pcre w [] params = some params') (handle : w.handle.isSome) :
      Stops pcre ⟨n, n.path ++ '/' :: rest, params⟩ ⟨w.handle, params', false⟩
  | paramEnd {n w : RouterNode Ctrl} {seg : Str} {params params' : Params}
      (wild : n.wildchild = true) (only : n.children = [w]) (isParam : w.type = .PARAM)
      (free : '/' ∉ seg) (nonempty : seg ≠ []) (bound : bindParam pcre w seg params = some params') :
      Stops pcre ⟨n, n.path ++ seg, params⟩
        (if w.handle.isSome then ⟨w.handle, params', false⟩
          else ⟨none, params', paramEndTsr w.children⟩)
  | paramLeaf {n w : RouterNode Ctrl} {seg rest : Str} {params params' : Params}
      (wild : n.wildchild = true) (only : n.children = [w]) (isParam : w.type = .PARAM)
      (free : '/' ∉ seg) (bound : bindParam pcre w seg params = some params')
      (goes : ¬ (seg = [] ∧ w.handle.isSome)) (leaf : w.children = []) :
      Stops pcre ⟨n, n.path ++ (seg ++ '/' :: rest), params⟩
        ⟨none, params', ('/' :: rest) == ['/']⟩

section Walks

variable {pcre : Pcre} {s s' : Cursor Ctrl} {r : Forwarded Ctrl}

theorem Descends.valid (step : Descends pcre s s') (valid : s.node.Valid) : s'.node.Valid := by
  cases step with
  | child plain member head => exact (Valid.of_plain valid plain).2.2.2 _ member
  | param wild only isParam free bound goes next =>
    cases valid with
    | branch path plain => exact absurd (wild.symm.trans plain) (by decide)
    | param path wild' type indices only' isParam' wildPath plain leaf single slash below =>
      rw [only, List.cons.injEq] at only'
      obtain ⟨rfl, -⟩ := only'
      exact below _ (next ▸ List.mem_singleton_self _)
    | catchAll path wild' type indices only' isCatchAll =>
      rw [only, List.cons.injEq] at only'
      obtain ⟨rfl, -⟩ := only'
      exact absurd (isParam.symm.trans isCatchAll) (by decide)

/-- A round that moves on leaves the result to the next rounds. -/
theorem Descends.result_eq (step : Descends pcre s s') (valid : s.node.Valid) :
    s.result pcre = s'.result pcre := by
  cases step with
  | @child n c x t params plain member head =>
    obtain ⟨-, indexed, -, -⟩ := Valid.of_plain valid plain
    show forwardLoop pcre n (n.path ++ x :: t) params = forwardLoop pcre c (x :: t) params
    rw [forwardLoop_plain pcre n params x t plain]
    rcases forwardIndice_cases pcre indexed (x :: t) params with ⟨-, absent⟩ | ⟨d, hd, same, found⟩
    · exact absurd head (absent c member)
    · obtain rfl := Valid.child_unique valid plain member hd (head.trans same.symm)
      rw [found]
  | @param n w c seg rest params params' wild only isParam free bound goes next =>
    have nonempty : seg ++ '/' :: rest ≠ [] := by simp
    show forwardLoop pcre n (n.path ++ (seg ++ '/' :: rest)) params =
      forwardLoop pcre c ('/' :: rest) params'
    rw [forwardLoop_param pcre n params wild only isParam free (Or.inr ⟨rest, rfl⟩) nonempty, bound]
    simp only [if_neg goes, next]
    exact if_pos (List.cons_ne_nil _ _)

theorem Stops.result_eq (stop : Stops pcre s r) (valid : s.node.Valid) : s.result pcre = r := by
  cases stop with
  | mismatch differs => exact forwardLoop_mismatch pcre _ _ differs
  | exact => exact forwardLoop_exact pcre _ _
  | @noChild n x t params plain absent =>
    obtain ⟨-, indexed, -, -⟩ := Valid.of_plain valid plain
    show forwardLoop pcre n (n.path ++ x :: t) params = _
    rw [forwardLoop_plain pcre n params x t plain]
    rcases forwardIndice_cases pcre indexed (x :: t) params with ⟨none, -⟩ | ⟨d, hd, same, -⟩
    · rw [none]
    · exact absurd same (absent d hd)
  | catchAll wild only isCatchAll => exact forwardLoop_catchAll pcre _ _ wild only _ _ isCatchAll
  | @rejected n w seg rest params wild only isParam free ends bound =>
    have nonempty : seg ++ rest ≠ [] := by
      intro empty
      rw [(List.append_eq_nil_iff.mp empty).1, bindParam, if_pos rfl] at bound
      exact absurd bound (by simp)
    show forwardLoop pcre n (n.path ++ (seg ++ rest)) params = _
    rw [forwardLoop_param pcre n params wild only isParam free ends nonempty, bound]
  | @emptySegment n w rest params params' wild only isParam bound handle =>
    show forwardLoop pcre n (n.path ++ ([] ++ '/' :: rest)) params = _
    rw [forwardLoop_param pcre n params wild only isParam List.not_mem_nil (Or.inr ⟨rest, rfl⟩)
      (by simp), bound]
    exact if_pos ⟨rfl, handle⟩
  | @paramEnd n w seg params params' wild only isParam free nonempty bound =>
    have whole : n.path ++ seg = n.path ++ (seg ++ []) := by rw [List.append_nil]
    show forwardLoop pcre n (n.path ++ seg) params = _
    rw [whole, forwardLoop_param pcre n params wild only isParam free (Or.inl rfl) (by simpa), bound]
    simp only [nonempty, false_and, if_false, ne_eq, not_true]
  | @paramLeaf n w seg rest params params' wild only isParam free bound goes leaf =>
    show forwardLoop pcre n (n.path ++ (seg ++ '/' :: rest)) params = _
    rw [forwardLoop_param pcre n params wild only isParam free (Or.inr ⟨rest, rfl⟩) (by simp), bound]
    simp only [if_neg goes, leaf]
    exact if_pos (List.cons_ne_nil _ _)

/-- Walks of the loop. -/
abbrev Walks (pcre : Pcre) : Cursor Ctrl → Cursor Ctrl → Prop :=
  Relation.ReflTransGen (Descends pcre)

theorem Walks.valid (walk : Walks pcre s s') (valid : s.node.Valid) : s'.node.Valid := by
  induction walk with
  | refl => exact valid
  | tail walk step ih => exact step.valid ih

/-- The walk of an empty tree does not move. -/
theorem walks_empty {path : Str} {params : Params} {s : Cursor Ctrl}
    (walk : Walks pcre ⟨{}, path, params⟩ s) : s = ⟨{}, path, params⟩ := by
  induction walk with
  | refl => rfl
  | tail walk step ih =>
    subst ih
    cases step with
    | child plain member => exact absurd member List.not_mem_nil
    | param wild => exact absurd wild (by simp)

theorem Walks.result_eq (walk : Walks pcre s s') (valid : s.node.Valid) :
    s.result pcre = s'.result pcre := by
  induction walk with
  | refl => rfl
  | tail walk step ih => exact ih.trans (step.result_eq (Walks.valid walk valid))

end Walks

/-- Every walk from the node comes to a round that returns. -/
def Ends (pcre : Pcre) (n : RouterNode Ctrl) : Prop :=
  ∀ (path : Str) (params : Params), ∃ s' r, Walks pcre ⟨n, path, params⟩ s' ∧ Stops pcre s' r

/-- It is enough to look at what is left behind the path of the node. -/
theorem ends_of_below {pcre : Pcre} {n : RouterNode Ctrl}
    (behind : ∀ (x : Char) (t : Str) (params : Params),
      ∃ s' r, Walks pcre ⟨n, n.path ++ x :: t, params⟩ s' ∧ Stops pcre s' r) : Ends pcre n := by
  intro path params
  by_cases begins : n.path <+: path
  · obtain ⟨t, rfl⟩ := begins
    cases t with
    | nil =>
      rw [List.append_nil]
      exact ⟨_, _, .refl, .exact⟩
    | cons x t => exact behind x t params
  · exact ⟨_, _, .refl, .mismatch begins⟩

theorem exists_walk (pcre : Pcre) {n : RouterNode Ctrl} (valid : n.Valid) : Ends pcre n := by
  induction valid with
  | @branch n path plain type indexed nodup live below ends =>
    apply ends_of_below
    intro x t params
    by_cases child : ∃ c ∈ n.children, c.path.head? = some x
    · obtain ⟨c, member, head⟩ := child
      obtain ⟨s', r, walk, stop⟩ := ends c member (x :: t) params
      exact ⟨s', r, .head (.child plain member head) walk, stop⟩
    · refine ⟨_, _, .refl, .noChild plain ?_⟩
      intro c member head
      exact child ⟨c, member, head⟩
  | @param n w path wild type indices only isParam wildPath plain leaf single slash below ends =>
    apply ends_of_below
    intro x t params
    obtain ⟨seg, rest, whole, -, free, cut⟩ := findUntilSlash_cases (x :: t)
    rw [whole]
    cases bound : bindParam pcre w seg params with
    | none => exact ⟨_, _, .refl, .rejected wild only isParam free cut bound⟩
    | some params' =>
      obtain rfl | ⟨rest', rfl⟩ := cut
      · have nonempty : seg ≠ [] := by
          rintro rfl
          exact List.cons_ne_nil x t whole
        rw [List.append_nil]
        exact ⟨_, _, .refl, .paramEnd wild only isParam free nonempty bound⟩
      · by_cases early : seg = [] ∧ w.handle.isSome
        · obtain ⟨rfl, handle⟩ := early
          exact ⟨_, _, .refl, .emptySegment wild only isParam bound handle⟩
        · cases next : w.children with
          | nil => exact ⟨_, _, .refl, .paramLeaf wild only isParam free bound early next⟩
          | cons c others =>
            have one : w.children = [c] := only_of_single single next
            have member : c ∈ w.children := one ▸ List.mem_singleton_self c
            obtain ⟨s', r, walk, stop⟩ := ends c member ('/' :: rest') params'
            exact ⟨s', r, .head (.param wild only isParam free bound early one) walk, stop⟩
  | catchAll path wild type indices only isCatchAll =>
    apply ends_of_below
    intro x t params
    exact ⟨_, _, .refl, .catchAll wild only isCatchAll⟩

/-- The result of the loop is the one of the round that returns. -/
theorem forwardLoop_of_walk {pcre : Pcre} {n : RouterNode Ctrl} (valid : n.Valid) {path : Str}
    {params : Params} {s' : Cursor Ctrl} {r : Forwarded Ctrl}
    (walk : Walks pcre ⟨n, path, params⟩ s') (stop : Stops pcre s' r) :
    forwardLoop pcre n path params = r :=
  (Walks.result_eq walk valid).trans (stop.result_eq (Walks.valid walk valid))

end Cppmhd
