import Cppmhd.Router.Lookup

/-!
# Requests with a slash appended

The walk of a request with a slash appended follows the walk of the request to the node where that
one returns (`Walks.append`).  What is answered from there depends on that node alone: the lemmas of
this file say for every kind of return whether the longer request has a controller.
-/

open Words Table

namespace Cppmhd

variable {Ctrl : Type} {pcre : Pcre}

/-! ## The common walk -/

theorem Descends.append {n c : RouterNode Ctrl} {p t : Str} {params params' : Params}
    (step : Descends pcre ⟨n, p, params⟩ ⟨c, t, params'⟩) (s : Str) :
    Descends pcre ⟨n, p ++ s, params⟩ ⟨c, t ++ s, params'⟩ := by
  cases step with
  | @child n c x t params plain member head =>
    rw [List.append_assoc, List.cons_append]
    exact .child plain member head
  | @param n w c seg rest params params' wild only isParam free bound goes next =>
    rw [List.append_assoc, List.append_assoc, List.cons_append]
    exact .param wild only isParam free bound goes next

theorem Walks.append {first last : Cursor Ctrl} (walk : Walks pcre first last) (s : Str) :
    Walks pcre ⟨first.node, first.path ++ s, first.params⟩ ⟨last.node, last.path ++ s, last.params⟩ := by
  induction walk with
  | refl => exact .refl
  | tail walk step ih => exact .tail ih (step.append s)

/-! ## Nodes that answer the end of a request -/

/-- A request that ends at this node has a controller. -/
def RawNode.ServesEmpty (pcre : Pcre) (n : RouterNode Ctrl) : Prop :=
  n.handle.isSome ∨ ∃ w, n.wildchild = true ∧ n.children = [w] ∧ w.AnswersEmpty pcre ∧ w.handle.isSome

/-- A request that ends with a slash at this child has a controller. -/
def RawNode.ServesSlash (pcre : Pcre) (c : RouterNode Ctrl) : Prop :=
  c.path = ['/'] ∧ c.ServesEmpty pcre

theorem Valid.single_of_param {n w : RouterNode Ctrl} (valid : n.Valid) (wild : n.wildchild = true)
    (only : n.children = [w]) (isParam : w.type = .PARAM) {c : RouterNode Ctrl}
    {cs : List (RouterNode Ctrl)} (next : w.children = c :: cs) : w.children = [c] := by
  cases Valid.wildValid valid wild only with
  | param _ _ _ _ single =>
    rw [next, List.length_cons] at single
    rw [next, List.length_eq_zero_iff.mp (by omega : cs.length = 0)]
  | catchAll isCatchAll => exact absurd (isParam.symm.trans isCatchAll) (by decide)

theorem Valid.leaf_handle {n w : RouterNode Ctrl} (valid : n.Valid) (wild : n.wildchild = true)
    (only : n.children = [w]) (leaf : w.children = []) : w.handle.isSome := by
  cases Valid.wildValid valid wild only with
  | param _ _ _ live => exact (live leaf).2
  | catchAll _ _ _ _ handle => exact handle

theorem Valid.catchAll_handle {n w : RouterNode Ctrl} (valid : n.Valid) (wild : n.wildchild = true)
    (only : n.children = [w]) (isCatchAll : w.type = .CATCH_ALL) : w.handle.isSome := by
  cases Valid.wildValid valid wild only with
  | param isParam => exact absurd (isParam.symm.trans isCatchAll) (by decide)
  | catchAll _ _ _ _ handle => exact handle

section Node

variable {n w : RouterNode Ctrl} (valid : n.Valid) (params : Params)

include valid

theorem exactMatch_ctrl (path : Str) :
    (exactMatch pcre n path params).ctrl.isSome ↔ n.ServesEmpty pcre := by
  cases handle : n.handle with
  | some c =>
    rw [exactMatch_handle pcre (by simp [handle])]
    simp [RawNode.ServesEmpty, handle]
  | none =>
    have single := Valid.only_child valid
    by_cases answered : ∃ w, n.wildchild = true ∧ n.children = [w] ∧ w.AnswersEmpty pcre
    · obtain ⟨w, wild, only, answers⟩ := answered
      rw [exactMatch_answered pcre handle wild only answers]
      simp only [RawNode.ServesEmpty, handle, Option.isSome_none, Bool.false_eq_true, false_or]
      constructor
      · intro served
        exact ⟨w, wild, only, answers, served⟩
      · rintro ⟨w', -, only', -, served⟩
        rw [only, List.cons.injEq] at only'
        rw [only'.1]
        exact served
    · have silent : ∀ w, n.wildchild = true → n.children = [w] → ¬ w.AnswersEmpty pcre :=
        fun w wild only answers => answered ⟨w, wild, only, answers⟩
      rw [exactMatch_unanswered pcre handle silent single]
      have quiet : (if path = ['/'] ∧ n.wildchild = true ∧ n.type ≠ .ROOT then
          (⟨none, params, true⟩ : Forwarded Ctrl) else ⟨none, params, slashTsr pcre n⟩).ctrl = none := by
        split <;> rfl
      rw [quiet]
      simp only [Option.isSome_none, Bool.false_eq_true, false_iff, RawNode.ServesEmpty, handle,
        false_or]
      rintro ⟨w, wild, only, answers, -⟩
      exact silent w wild only answers

/-- After a mismatch the slash can only complete the path of the node. -/
theorem mismatch_slash {path : Str} (differs : ¬ n.path <+: path) :
    (forwardLoop pcre n (path ++ ['/']) params).ctrl.isSome ↔
      n.path = path ++ ['/'] ∧ n.ServesEmpty pcre := by
  by_cases same : n.path = path ++ ['/']
  · rw [← same, forwardLoop_exact, exactMatch_ctrl valid]
    simp
  · have still : ¬ n.path <+: path ++ ['/'] := by
      intro begins
      rcases List.prefix_concat_iff.mp begins with whole | short
      · exact same whole
      · exact differs short
    rw [forwardLoop_mismatch pcre n params still]
    simp [same]

theorem child_slash (slash : n.path.head? = some '/') :
    (forwardLoop pcre n ['/'] params).ctrl.isSome ↔ n.ServesSlash pcre := by
  by_cases same : n.path = ['/']
  · rw [← same, forwardLoop_exact, exactMatch_ctrl valid, RawNode.ServesSlash, same]
    simp
  · have differs : ¬ n.path <+: ['/'] := by
      intro begins
      have cut : n.path = ['/'] ∨ n.path <+: [] := by
        rw [← List.nil_append ['/'], List.prefix_concat_iff] at begins
        exact begins
      rcases cut with whole | short
      · exact same whole
      · rw [List.prefix_nil.mp short] at slash
        exact absurd slash (by simp)
    rw [forwardLoop_mismatch pcre n params differs]
    simp [RawNode.ServesSlash, same]

/-- After an exact match of a plain node the slash goes to the child for `/`. -/
theorem exact_slash_plain (plain : n.wildchild = false) :
    (forwardLoop pcre n (n.path ++ ['/']) params).ctrl.isSome ↔
      ∃ c ∈ n.children, c.path.head? = some '/' ∧ c.ServesSlash pcre := by
  obtain ⟨-, indexed, -, below⟩ := Valid.of_plain valid plain
  rw [forwardLoop_plain pcre n params '/' [] plain]
  rcases forwardIndice_cases pcre indexed ['/'] params with
    ⟨none, absent⟩ | ⟨c, member, head, found⟩
  · rw [none]
    simp only [Option.isSome_none, Bool.false_eq_true, false_iff]
    rintro ⟨c, member, head, -⟩
    exact absent c member head
  · rw [found]
    have head' : c.path.head? = some '/' := head
    rw [child_slash (below c member) params head']
    constructor
    · intro served
      exact ⟨c, member, head', served⟩
    · rintro ⟨d, hd, headD, served⟩
      rwa [Valid.child_unique valid plain member hd (head'.trans headD.symm)]

/-- Without a child for the next character nothing answers. -/
theorem noChild_slash (plain : n.wildchild = false) {x : Char} {t : Str}
    (absent : ∀ c ∈ n.children, c.path.head? ≠ some x) :
    (forwardLoop pcre n (n.path ++ x :: t ++ ['/']) params).ctrl = none := by
  have stop : Stops pcre ⟨n, n.path ++ x :: (t ++ ['/']), params⟩ _ := .noChild plain absent
  have result := stop.result_eq valid
  rw [List.append_assoc, List.cons_append]
  exact congrArg Forwarded.ctrl result

variable (wild : n.wildchild = true) (only : n.children = [w]) (isParam : w.type = .PARAM)

include wild only isParam

/-- The slash behind a segment of a parameter that goes on. -/
theorem param_slash {seg : Str} {params' : Params} (free : '/' ∉ seg)
    (bound : bindParam pcre w seg params = some params') :
    (forwardLoop pcre n (n.path ++ (seg ++ ['/'])) params).ctrl.isSome ↔
      (seg = [] ∧ w.handle.isSome) ∨ ∃ c, w.children = [c] ∧ c.ServesSlash pcre := by
  have child := Valid.wildValid valid wild only
  rw [forwardLoop_param pcre n params wild only isParam free (Or.inr ⟨[], rfl⟩) (by simp), bound]
  by_cases early : seg = [] ∧ w.handle.isSome
  · simp only [early, and_self, true_or, if_true]
  · have slash : ∀ c ∈ w.children, c.path.head? = some '/' := by
      cases child with
      | param _ _ _ _ _ slash => exact slash
      | catchAll isCatchAll => exact absurd (isParam.symm.trans isCatchAll) (by decide)
    have single : w.children = [] ∨ ∃ c, w.children = [c] := by
      cases child with
      | param _ _ _ _ single =>
        rcases Nat.le_one_iff_eq_zero_or_eq_one.mp single with none | one
        · exact Or.inl (List.length_eq_zero_iff.mp none)
        · exact Or.inr (List.length_eq_one_iff.mp one)
      | catchAll isCatchAll => exact absurd (isParam.symm.trans isCatchAll) (by decide)
    simp only [early, if_false, false_or, ne_eq, List.cons_ne_nil, not_false_eq_true, if_true]
    rcases single with none | ⟨c, one⟩
    · simp [none]
    · have member : c ∈ w.children := one ▸ List.mem_singleton_self c
      rw [one]
      dsimp only
      rw [child_slash (WildValid.below child c member) params' (slash c member)]
      simp

/-- A rejected segment is rejected with the slash behind it. -/
theorem rejected_slash {seg rest : Str} (free : '/' ∉ seg)
    (ends : rest = [] ∨ ∃ rest', rest = '/' :: rest') (bound : bindParam pcre w seg params = none) :
    (forwardLoop pcre n (n.path ++ (seg ++ rest) ++ ['/']) params).ctrl = none := by
  have ends' : rest ++ ['/'] = [] ∨ ∃ rest', rest ++ ['/'] = '/' :: rest' := by
    rcases ends with rfl | ⟨rest', rfl⟩
    · exact Or.inr ⟨[], rfl⟩
    · exact Or.inr ⟨rest' ++ ['/'], rfl⟩
  have stop : Stops pcre ⟨n, n.path ++ (seg ++ (rest ++ ['/'])), params⟩ _ :=
    .rejected wild only isParam free ends' bound
  have result := stop.result_eq valid
  rw [List.append_assoc, List.append_assoc]
  exact congrArg Forwarded.ctrl result

/-- Behind a parameter without children nothing answers. -/
theorem paramLeaf_slash {seg rest : Str} {params' : Params} (free : '/' ∉ seg)
    (bound : bindParam pcre w seg params = some params') (goes : ¬ (seg = [] ∧ w.handle.isSome))
    (leaf : w.children = []) :
    (forwardLoop pcre n (n.path ++ (seg ++ '/' :: rest) ++ ['/']) params).ctrl = none := by
  have stop : Stops pcre ⟨n, n.path ++ (seg ++ '/' :: (rest ++ ['/'])), params⟩ _ :=
    .paramLeaf wild only isParam free bound goes leaf
  have result := stop.result_eq valid
  rw [List.append_assoc, List.append_assoc, List.cons_append]
  exact congrArg Forwarded.ctrl result

end Node

theorem not_prefix_of_append {s t u : Str} (longer : s = t ++ u) (nonempty : u ≠ []) :
    ¬ s <+: t := by
  intro begins
  have length := begins.length_le
  have positive := List.length_pos_iff.mpr nonempty
  rw [longer, List.length_append] at length
  omega

/-- No node of a valid tree has two slashes in a row. -/
theorem Valid.path_ne_slashes {n : RouterNode Ctrl} (valid : n.Valid) : n.path ≠ ['/', '/'] := by
  intro twice
  have shaped := valid.staticPath.shaped
  rw [twice] at shaped
  exact absurd shaped (by decide)

/-! ## The redirect flags -/

theorem bindParam_empty_accepts {w : RouterNode Ctrl} (accepts : w.re.matches pcre [] = true)
    (params : Params) : bindParam pcre w [] params = some (params.emplace w.name []) := by
  rw [bindParam, if_pos rfl, if_pos accepts]

theorem bindParam_empty_rejects {w : RouterNode Ctrl} (rejects : w.re.matches pcre [] = false)
    (params : Params) : bindParam pcre w [] params = some params := by
  rw [bindParam, if_pos rfl, if_neg (by simp [rejects])]

theorem bindParam_accepts {w : RouterNode Ctrl} {seg : Str} (nonempty : seg ≠ [])
    (accepts : w.re.matches pcre seg = true) (params : Params) :
    bindParam pcre w seg params = some (params.emplace w.name seg) := by
  rw [bindParam, if_neg nonempty, if_pos accepts]

theorem accepts_of_bound {w : RouterNode Ctrl} {seg : Str} {params params' : Params}
    (nonempty : seg ≠ []) (bound : bindParam pcre w seg params = some params') :
    w.re.matches pcre seg = true := by
  rw [bindParam, if_neg nonempty] at bound
  by_contra rejects
  rw [if_neg rejects] at bound
  exact absurd bound (by simp)

theorem mismatchTsr_iff (n : RouterNode Ctrl) (path : Str) :
    mismatchTsr n path = true ↔ path = ['/'] ∨
      (n.path.length = path.length + 1 ∧ n.path[path.length]? = some '/' ∧ n.handle.isSome) ∨
      ∃ w ws, n.children = w :: ws ∧ w.type = .CATCH_ALL := by
  cases children : n.children with
  | nil => simp [mismatchTsr, children, and_assoc]
  | cons w ws => simp [mismatchTsr, children, and_assoc, or_assoc]

section Indice

variable {n : RouterNode Ctrl}

theorem indiceOf_cases {indices : Str} {children : List (RouterNode Ctrl)}
    (indexed : Indexed indices children) (x : Char) :
    (indiceOf children indices x = none ∧ ∀ c ∈ children, c.path.head? ≠ some x) ∨
      ∃ c ∈ children, c.path.head? = some x ∧ indiceOf children indices x = some c := by
  induction indexed with
  | nil => exact Or.inl ⟨rfl, by simp⟩
  | @cons i child indices children head indexed ih =>
    by_cases here : i = x
    · right
      refine ⟨child, List.mem_cons_self, head.trans (congrArg some here), ?_⟩
      simp only [indiceOf, here, if_true]
    · rcases ih with ⟨none, absent⟩ | ⟨c, member, same, found⟩
      · left
        refine ⟨by simp only [indiceOf, here, if_false, none], ?_⟩
        intro c member
        rcases List.mem_cons.mp member with rfl | member
        · rw [head]
          exact fun same => here (Option.some.inj same)
        · exact absent c member
      · right
        refine ⟨c, List.mem_cons_of_mem child member, same, ?_⟩
        simp only [indiceOf, here, if_false, found]

theorem slashTsr_absent (valid : n.Valid) (plain : n.wildchild = false)
    (absent : ∀ c ∈ n.children, c.path.head? ≠ some '/') : slashTsr pcre n = false := by
  obtain ⟨-, indexed, -, -⟩ := Valid.of_plain valid plain
  rcases indiceOf_cases indexed '/' with ⟨none, -⟩ | ⟨c, member, head, -⟩
  · rw [slashTsr, RawNode.indice, none]
  · exact absurd head (absent c member)

/-- The flag looks at the child for `/`, at its handle or at its wildcard child. -/
theorem slashTsr_child (valid : n.Valid) (plain : n.wildchild = false) {c : RouterNode Ctrl}
    (member : c ∈ n.children) (head : c.path.head? = some '/') :
    slashTsr pcre n = true ↔ (c.path.length = 1 ∧ c.handle.isSome) ∨
      ∃ v, c.wildchild = true ∧ c.children = [v] ∧ v.AnswersEmpty pcre ∧ v.handle.isSome := by
  obtain ⟨-, indexed, -, below⟩ := Valid.of_plain valid plain
  have child := below c member
  rcases indiceOf_cases indexed '/' with ⟨-, absent⟩ | ⟨d, hd, headD, found⟩
  · exact absurd head (absent c member)
  · rw [Valid.child_unique valid plain hd member (headD.trans head.symm)] at found
    rw [slashTsr, RawNode.indice, found]
    cases wild : c.wildchild with
    | false => simp [wild]
    | true =>
      obtain ⟨v, only⟩ := Valid.only_child child wild
      have catchAll : v.type = .CATCH_ALL → v.handle.isSome := by
        intro isCatchAll
        cases Valid.wildValid child wild only with
        | param isParam => exact absurd (isParam.symm.trans isCatchAll) (by decide)
        | catchAll _ _ _ _ handle => exact handle
      simp only [wild, only, Bool.or_eq_true, Bool.and_eq_true, beq_iff_eq, List.cons.injEq, and_true,
        true_and, exists_eq_left', or_assoc, RawNode.AnswersEmpty]
      apply or_congr_right
      constructor
      · rintro (isCatchAll | ⟨⟨isParam, handle⟩, accepts⟩)
        · exact ⟨Or.inl isCatchAll, catchAll isCatchAll⟩
        · exact ⟨Or.inr ⟨isParam, accepts⟩, handle⟩
      · rintro ⟨isCatchAll | ⟨isParam, accepts⟩, handle⟩
        · exact Or.inl isCatchAll
        · exact Or.inr ⟨⟨isParam, handle⟩, accepts⟩

/-- At a node with a parameter below, the index left by `insertChild` finds the parameter. -/
theorem slashTsr_wild (valid : n.Valid) (wild : n.wildchild = true) {w : RouterNode Ctrl}
    (only : n.children = [w]) (isParam : w.type = .PARAM) :
    slashTsr pcre n = true ↔ n.indices = ['/'] ∧ w.handle.isSome := by
  have child := Valid.wildValid valid wild only
  have indices : n.indices = [] ∨ n.indices = ['/'] := by
    cases valid with
    | branch path plain => exact absurd (wild.symm.trans plain) (by decide)
    | param path wild type indices | catchAll path wild type indices => exact indices
  cases child with
  | catchAll isCatchAll => exact absurd (isParam.symm.trans isCatchAll) (by decide)
  | param _ wildPath plain =>
    rcases indices with none | slash
    · simp [slashTsr, RawNode.indice, none, indiceOf]
    · simp [slashTsr, RawNode.indice, slash, only, indiceOf, wildPath, plain]

/-- An exact match without a wildcard child to ask. -/
theorem exactMatch_plain (handle : n.handle = none) (plain : n.wildchild = false) (path : Str)
    (params : Params) : exactMatch pcre n path params = ⟨none, params, slashTsr pcre n⟩ := by
  rw [exactMatch_unanswered pcre handle (by simp [plain]) (by simp [plain]), if_neg (by simp [plain])]

/-- An exact match above a parameter that rejects the empty segment. -/
theorem exactMatch_rejects (valid : n.Valid) (handle : n.handle = none) (wild : n.wildchild = true)
    {w : RouterNode Ctrl} (only : n.children = [w]) (isParam : w.type = .PARAM)
    (rejects : w.re.matches pcre [] = false) (path : Str) (params : Params) :
    exactMatch pcre n path params =
      if path = ['/'] then ⟨none, params, true⟩ else ⟨none, params, slashTsr pcre n⟩ := by
  have quiet : ∀ v, n.wildchild = true → n.children = [v] → ¬ v.AnswersEmpty pcre := by
    intro v _ only' answers
    rw [only, List.cons.injEq] at only'
    obtain ⟨rfl, -⟩ := only'
    rcases answers with isCatchAll | ⟨-, accepts⟩
    · exact absurd (isParam.symm.trans isCatchAll) (by decide)
    · exact absurd (accepts.symm.trans rejects) (by decide)
  have notRoot : n.type ≠ .ROOT := by
    cases valid with
    | branch _ plain => exact absurd (wild.symm.trans plain) (by decide)
    | param _ _ type | catchAll _ _ type => exact type
  rw [exactMatch_unanswered pcre handle quiet fun _ => ⟨w, only⟩]
  simp only [wild, notRoot, ne_eq, not_false_eq_true, and_self, and_true]

end Indice

/-! ## From the last round to the whole request -/

/-- A relation between the results of a request and of the request with a slash holds exactly where
the walk of the request comes to a return that shows it. -/
theorem exists_end_iff {n : RouterNode Ctrl} (valid : n.Valid) (path : Str) (params : Params)
    {Q : Forwarded Ctrl → Forwarded Ctrl → Prop} {R : RouterNode Ctrl → Str → Prop}
    (sound : ∀ (n : RouterNode Ctrl) (path : Str) (params : Params), n.Valid → R n path →
      Q (forwardLoop pcre n path params) (forwardLoop pcre n (path ++ ['/']) params))
    (complete : ∀ (n : RouterNode Ctrl) (path : Str) (params : Params) (r : Forwarded Ctrl), n.Valid →
      Stops pcre ⟨n, path, params⟩ r → Q r (forwardLoop pcre n (path ++ ['/']) params) → R n path) :
    Q (forwardLoop pcre n path params) (forwardLoop pcre n (path ++ ['/']) params) ↔
      ∃ s, Walks pcre ⟨n, path, params⟩ s ∧ R s.node s.path := by
  have longer : ∀ s, Walks pcre ⟨n, path, params⟩ s →
      forwardLoop pcre n (path ++ ['/']) params =
        forwardLoop pcre s.node (s.path ++ ['/']) s.params :=
    fun s walk => (walk.append ['/']).result_eq valid
  have shorter : ∀ s, Walks pcre ⟨n, path, params⟩ s →
      forwardLoop pcre n path params = forwardLoop pcre s.node s.path s.params :=
    fun s walk => walk.result_eq valid
  constructor
  · intro related
    obtain ⟨s, r, walk, stop⟩ := exists_walk pcre valid path params
    refine ⟨s, walk, complete s.node s.path s.params r (walk.valid valid) stop ?_⟩
    rwa [← longer s walk, ← forwardLoop_of_walk valid walk stop]
  · rintro ⟨s, walk, shown⟩
    rw [longer s walk, shorter s walk]
    exact sound s.node s.path s.params (walk.valid valid) shown

end Cppmhd
