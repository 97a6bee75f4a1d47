import Cppmhd.Router.Serving

/-!
# What a lookup binds

`forward` writes into the map of its caller while it still descends.  `Takes` lists the rounds that
emplace a segment for a parameter, and `Cursor.Binds` says that the lookup comes to such a round.
What such a lookup leaves in the map when it returns no controller is `miss_binds_iff`.
-/

namespace Cppmhd

variable {Ctrl : Type} {pcre : Pcre}

/-- The round at this cursor emplaces the segment under the name of the parameter `w`. -/
inductive Takes (pcre : Pcre) : Cursor Ctrl → RouterNode Ctrl → Str → Prop
  | segment {n w : RouterNode Ctrl} {seg rest : Str} {params : Params} (wild : n.wildchild = true)
      (only : n.children = [w]) (isParam : w.type = .PARAM) (free : '/' ∉ seg)
      (ends : rest = [] ∨ ∃ rest', rest = '/' :: rest') (nonempty : seg ++ rest ≠ [])
      (accepts : w.re.matches pcre seg = true) :
      Takes pcre ⟨n, n.path ++ (seg ++ rest), params⟩ w seg
  | atEnd {n w : RouterNode Ctrl} {params : Params} (vacant : n.handle = none)
      (wild : n.wildchild = true) (only : n.children = [w]) (isParam : w.type = .PARAM)
      (accepts : w.re.matches pcre [] = true) : Takes pcre ⟨n, n.path, params⟩ w []

/-- The lookup from this cursor on emplaces the segment under the name of the parameter `w`. -/
def Cursor.Binds (pcre : Pcre) (s : Cursor Ctrl) (w : RouterNode Ctrl) (seg : Str) : Prop :=
  ∃ s', Walks pcre s s' ∧ Takes pcre s' w seg

theorem Takes.accepts {s : Cursor Ctrl} {w : RouterNode Ctrl} {seg : Str}
    (takes : Takes pcre s w seg) : w.re.matches pcre seg = true := by
  cases takes with
  | segment wild only isParam free ends nonempty accepts => exact accepts
  | atEnd vacant wild only isParam accepts => exact accepts

theorem Takes.free {s : Cursor Ctrl} {w : RouterNode Ctrl} {seg : Str} (takes : Takes pcre s w seg) :
    '/' ∉ seg := by
  cases takes with
  | segment wild only isParam free => exact free
  | atEnd => exact List.not_mem_nil

/-! ## The map along a walk -/

theorem prefix_emplace (params : Params) (name value : Str) : params <+: params.emplace name value := by
  unfold Params.emplace
  split
  · exact List.prefix_rfl
  · exact List.prefix_append _ _

theorem emplace_eq_self_iff (params : Params) (name value : Str) :
    params.emplace name value = params ↔ name ∈ params.map (·.1) := by
  constructor
  · intro same
    by_contra fresh
    rw [emplace_fresh fresh] at same
    simp at same
  · intro member
    obtain ⟨b, stored, rfl⟩ := List.mem_map.mp member
    have present : params.any (·.1 == b.1) = true := List.any_eq_true.mpr ⟨b, stored, by simp⟩
    rw [Params.emplace, if_pos present]

theorem bindParam_of_accepts {w : RouterNode Ctrl} {seg : Str}
    (accepts : w.re.matches pcre seg = true) (params : Params) :
    bindParam pcre w seg params = some (params.emplace w.name seg) := by
  by_cases empty : seg = []
  · subst empty
    rw [bindParam, if_pos rfl, if_pos accepts]
  · rw [bindParam, if_neg empty, if_pos accepts]

/-- A parameter either emplaces its segment, or leaves the map alone. -/
theorem bindParam_cases {w : RouterNode Ctrl} {seg : Str} {params params' : Params}
    (bound : bindParam pcre w seg params = some params') :
    (w.re.matches pcre seg = true ∧ params' = params.emplace w.name seg) ∨ params' = params := by
  by_cases accepts : w.re.matches pcre seg = true
  · rw [bindParam_of_accepts accepts, Option.some.injEq] at bound
    exact Or.inl ⟨accepts, bound.symm⟩
  · by_cases empty : seg = []
    · subst empty
      rw [bindParam, if_pos rfl, if_neg accepts, Option.some.injEq] at bound
      exact Or.inr bound.symm
    · rw [bindParam, if_neg empty, if_neg accepts] at bound
      cases bound

/-- A round that moves on changes the map only where it takes a segment. -/
theorem Descends.params {s s' : Cursor Ctrl} (step : Descends pcre s s') :
    (∃ w seg, Takes pcre s w seg ∧ s'.params = s.params.emplace w.name seg) ∨
      s'.params = s.params := by
  cases step with
  | child => exact Or.inr rfl
  | param wild only isParam free bound goes next =>
    rcases bindParam_cases bound with ⟨accepts, rfl⟩ | rfl
    · exact Or.inl ⟨_, _, .segment wild only isParam free (Or.inr ⟨_, rfl⟩) (by simp) accepts, rfl⟩
    · exact Or.inr rfl

theorem exactMatch_params (pcre : Pcre) {n : RouterNode Ctrl} (valid : n.Valid) (params : Params) :
    let r := exactMatch pcre n n.path params
    (∃ w seg, Takes pcre ⟨n, n.path, params⟩ w seg ∧ r.params = params.emplace w.name seg) ∨
      r.params = params ∨ (r.ctrl.isSome ∧ ∃ name value, r.params = params.emplace name value) := by
  cases handle : n.handle with
  | some c =>
    rw [exactMatch_handle pcre (by simp [handle]), handle]
    exact Or.inr (Or.inl rfl)
  | none =>
    by_cases answered : ∃ w, n.wildchild = true ∧ n.children = [w] ∧ w.AnswersEmpty pcre
    · obtain ⟨w, wild, only, answers⟩ := answered
      rw [exactMatch_answered pcre handle wild only answers]
      rcases answers with isCatchAll | ⟨isParam, accepts⟩
      · cases Valid.wildValid valid wild only with
        | param isParam => exact absurd (isParam.symm.trans isCatchAll) (by decide)
        | catchAll _ _ _ _ served => exact Or.inr (Or.inr ⟨served, _, _, rfl⟩)
      · exact Or.inl ⟨w, [], .atEnd handle wild only isParam accepts, rfl⟩
    · rw [exactMatch_unanswered pcre handle
        (fun w wild only answers => answered ⟨w, wild, only, answers⟩) (Valid.only_child valid)]
      right
      left
      split <;> rfl

/-- A round that returns changes the map only where it takes a segment, or with a controller. -/
theorem Stops.params {s : Cursor Ctrl} {r : Forwarded Ctrl} (stop : Stops pcre s r)
    (valid : s.node.Valid) :
    (∃ w seg, Takes pcre s w seg ∧ r.params = s.params.emplace w.name seg) ∨
      r.params = s.params ∨ (r.ctrl.isSome ∧ ∃ name value, r.params = s.params.emplace name value) := by
  cases stop with
  | mismatch | noChild | rejected => exact Or.inr (Or.inl rfl)
  | exact => exact exactMatch_params pcre valid _
  | catchAll wild only isCatchAll =>
    cases Valid.wildValid valid wild only with
    | param isParam => exact absurd (isParam.symm.trans isCatchAll) (by decide)
    | catchAll _ _ _ _ served => exact Or.inr (Or.inr ⟨served, _, _, rfl⟩)
  | @emptySegment n w rest params params' wild only isParam bound handle =>
    rcases bindParam_cases bound with ⟨accepts, rfl⟩ | rfl
    · left
      refine ⟨w, [], ?_, rfl⟩
      show Takes pcre ⟨n, n.path ++ ([] ++ '/' :: rest), params⟩ w []
      exact .segment wild only isParam List.not_mem_nil (Or.inr ⟨rest, rfl⟩) (by simp) accepts
    · exact Or.inr (Or.inl rfl)
  | @paramEnd n w seg params params' wild only isParam free nonempty bound =>
    have whole : n.path ++ seg = n.path ++ (seg ++ []) := by rw [List.append_nil]
    rcases bindParam_cases bound with ⟨accepts, rfl⟩ | rfl
    · left
      refine ⟨w, seg, ?_, by split <;> rfl⟩
      rw [whole]
      exact .segment wild only isParam free (Or.inl rfl) (by simpa using nonempty) accepts
    · right
      left
      split <;> rfl
  | paramLeaf wild only isParam free bound goes leaf =>
    rcases bindParam_cases bound with ⟨accepts, rfl⟩ | rfl
    · exact Or.inl ⟨_, _, .segment wild only isParam free (Or.inr ⟨_, rfl⟩) (by simp) accepts, rfl⟩
    · exact Or.inr (Or.inl rfl)

theorem Descends.prefix_params {s s' : Cursor Ctrl} (step : Descends pcre s s') :
    s.params <+: s'.params := by
  rcases step.params with ⟨w, seg, -, same⟩ | same
  · exact same ▸ prefix_emplace _ _ _
  · exact same ▸ List.prefix_rfl

theorem Walks.prefix_params {s s' : Cursor Ctrl} (walk : Walks pcre s s') :
    s.params <+: s'.params := by
  induction walk with
  | refl => exact List.prefix_rfl
  | tail walk step ih => exact ih.trans step.prefix_params

/-- A lookup only adds bindings. -/
theorem forwardLoop_prefix_params (pcre : Pcre) {n : RouterNode Ctrl} (valid : n.Valid) (path : Str)
    (params : Params) : params <+: (forwardLoop pcre n path params).params := by
  obtain ⟨s', r, walk, stop⟩ := exists_walk pcre valid path params
  rw [forwardLoop_of_walk valid walk stop]
  apply (Walks.prefix_params walk).trans
  rcases stop.params (Walks.valid walk valid) with ⟨w, seg, -, same⟩ | same | ⟨-, name, value, same⟩
  · exact same ▸ prefix_emplace _ _ _
  · exact same ▸ List.prefix_rfl
  · exact same ▸ prefix_emplace _ _ _

/-- What a round takes stays in the map. -/
theorem Takes.prefix_result {s : Cursor Ctrl} {w : RouterNode Ctrl} {seg : Str}
    (takes : Takes pcre s w seg) (valid : s.node.Valid) :
    s.params.emplace w.name seg <+: (s.result pcre).params := by
  cases takes with
  | @segment n _ _ rest params wild only isParam free ends nonempty accepts =>
    show params.emplace w.name seg <+: (forwardLoop pcre n (n.path ++ (seg ++ rest)) params).params
    rw [forwardLoop_param pcre n params wild only isParam free ends nonempty,
      bindParam_of_accepts accepts]
    dsimp only
    split_ifs with early further handle
    · exact List.prefix_rfl
    · split
      · rename_i next others below
        have child := Valid.wildValid valid wild only
        exact forwardLoop_prefix_params pcre
          (WildValid.below child next (below ▸ List.mem_cons_self)) rest _
      · exact List.prefix_rfl
    · exact List.prefix_rfl
    · exact List.prefix_rfl
  | @atEnd n _ params vacant wild only isParam accepts =>
    have answered := exactMatch_answered pcre vacant wild only (Or.inr ⟨isParam, accepts⟩) n.path params
    have bound : (forwardLoop pcre n n.path params).params = params.emplace w.name [] := by
      rw [forwardLoop_exact, answered]
    exact bound ▸ List.prefix_rfl

/-- A lookup without result leaves the map alone if and only if every name that it binds is there
already. -/
theorem miss_params_iff {n : RouterNode Ctrl} (valid : n.Valid) {path : Str} {params : Params}
    (miss : (forwardLoop pcre n path params).ctrl = none) :
    (forwardLoop pcre n path params).params = params ↔
      ∀ w seg, Cursor.Binds pcre ⟨n, path, params⟩ w seg → w.name ∈ params.map (·.1) := by
  constructor
  · rintro same w seg ⟨s, walk, takes⟩
    have here := takes.prefix_result (Walks.valid walk valid)
    have whole : Cursor.result pcre ⟨n, path, params⟩ = s.result pcre := Walks.result_eq walk valid
    rw [← whole] at here
    have later : s.params.emplace w.name seg <+: params := same ▸ here
    have unchanged : s.params = params :=
      ((prefix_emplace _ _ _).trans later).eq_of_length_le (Walks.prefix_params walk).length_le
    rw [unchanged] at later
    exact (emplace_eq_self_iff params w.name seg).mp
      (later.eq_of_length_le (prefix_emplace _ _ _).length_le)
  · intro named
    obtain ⟨s', r, walk, stop⟩ := exists_walk pcre valid path params
    rw [forwardLoop_of_walk valid walk stop] at miss ⊢
    have kept : s'.params = params := by
      clear stop miss
      induction walk with
      | refl => rfl
      | tail walk step ih =>
        rcases step.params with ⟨w, seg, takes, same⟩ | same
        · rw [same, ih, emplace_eq_self_iff]
          exact named w seg ⟨_, walk, takes⟩
        · exact same.trans ih
    rcases stop.params (Walks.valid walk valid) with ⟨w, seg, takes, same⟩ | same | ⟨served, -⟩
    · rw [same, kept, emplace_eq_self_iff]
      exact named w seg ⟨s', walk, takes⟩
    · exact same.trans kept
    · exact absurd served (by simp [miss])

theorem mem_emplace {params : Params} {name value : Str} {b : Str × Str}
    (member : b ∈ params.emplace name value) : b ∈ params ∨ b = (name, value) := by
  unfold Params.emplace at member
  split at member
  · exact Or.inl member
  · rcases List.mem_append.mp member with old | new
    · exact Or.inl old
    · exact Or.inr (List.mem_singleton.mp new)

/-- What a lookup without result adds are segments that it took. -/
theorem mem_of_miss {n : RouterNode Ctrl} (valid : n.Valid) {path : Str} {params : Params}
    (miss : (forwardLoop pcre n path params).ctrl = none) {b : Str × Str}
    (member : b ∈ (forwardLoop pcre n path params).params) :
    b ∈ params ∨ ∃ w : RouterNode Ctrl, Cursor.Binds pcre ⟨n, path, params⟩ w b.2 ∧ b.1 = w.name := by
  obtain ⟨s', r, walk, stop⟩ := exists_walk pcre valid path params
  rw [forwardLoop_of_walk valid walk stop] at miss member
  have walked : ∀ b ∈ s'.params, b ∈ params ∨
      ∃ w : RouterNode Ctrl, Cursor.Binds pcre ⟨n, path, params⟩ w b.2 ∧ b.1 = w.name := by
    clear stop miss member b
    induction walk with
    | refl => exact fun b member => Or.inl member
    | tail walk step ih =>
      intro b member
      rcases step.params with ⟨w, seg, takes, same⟩ | same
      · rw [same] at member
        rcases mem_emplace member with old | rfl
        · exact ih b old
        · exact Or.inr ⟨w, ⟨_, walk, takes⟩, rfl⟩
      · exact ih b (same ▸ member)
  rcases stop.params (Walks.valid walk valid) with ⟨w, seg, takes, same⟩ | same | ⟨served, -⟩
  · rw [same] at member
    rcases mem_emplace member with old | rfl
    · exact walked b old
    · exact Or.inr ⟨w, ⟨_, walk, takes⟩, rfl⟩
  · exact walked b (same ▸ member)
  · exact absurd served (by simp [miss])

/-- A lookup that returns no controller keeps the map of its caller and adds the segments that it took
on its way; nothing is taken back. -/
theorem miss_binds_iff (pcre : Pcre) (pre : Str) (builder : RouterBuilder Ctrl) (m : HttpMethod)
    (path : Str) (params : Params) :
    let router := (Router.buildTree pcre pre builder).1
    let r := router.forward pcre m path params
    let start : Cursor Ctrl := ⟨router.tree m, path, params⟩
    r.ctrl = none →
      params <+: r.params ∧
        (∀ b ∈ r.params, b ∈ params ∨ ∃ w : RouterNode Ctrl, start.Binds pcre w b.2 ∧ b.1 = w.name) ∧
        (r.params = params ↔ ∀ w seg, start.Binds pcre w seg → w.name ∈ params.map (·.1)) := by
  intro router r start miss
  have result : r = forwardLoop pcre (router.tree m) path params := forward_eq pcre router m path params
  rw [result] at miss ⊢
  rcases buildTree_wellFormed pcre pre builder m with untouched | ⟨valid, -⟩
  · have root : router.tree m = {} := congrArg RawTree.root untouched
    have quiet : ∀ w seg, ¬ start.Binds pcre w seg := by
      rintro w seg ⟨s, walk, takes⟩
      rw [show start = ⟨{}, path, params⟩ by rw [← root]] at walk
      rw [walks_empty walk] at takes
      cases takes with
      | segment wild => exact absurd wild (by simp)
      | atEnd _ wild => exact absurd wild (by simp)
    rw [root, forwardLoop_empty]
    refine ⟨List.prefix_rfl, fun b member => Or.inl member, fun _ w seg binds => ?_, fun _ => rfl⟩
    exact absurd binds (quiet w seg)
  · exact ⟨forwardLoop_prefix_params pcre valid path params, fun b member => mem_of_miss valid miss member,
      miss_params_iff valid miss⟩

/-- A parameter in the middle of the only route. -/
def itemRoutes : RouterBuilder ℕ := ⟨[(.GET, "/a/\x7b:id\x7d/x".toList, 1)]⟩

theorem miss_binds_item :
    let router := (Router.buildTree anyPcre [] itemRoutes).1
    ∃ w seg, Cursor.Binds anyPcre ⟨router.tree .GET, "/a/1".toList, []⟩ w seg := by
  have miss : ((Router.buildTree anyPcre [] itemRoutes).1.forward anyPcre .GET "/a/1".toList []).ctrl =
      none := by decide +kernel
  have changed : ((Router.buildTree anyPcre [] itemRoutes).1.forward anyPcre .GET
      "/a/1".toList []).params ≠ [] := by decide +kernel
  by_contra quiet
  apply changed
  refine (miss_binds_iff anyPcre [] itemRoutes .GET "/a/1".toList [] miss).2.2.mpr ?_
  exact fun w seg binds => absurd ⟨w, seg, binds⟩ quiet

/-- A request that ends too early is answered by no route, but its segment is bound. -/
theorem miss_keeps_segment :
    let router := (Router.buildTree anyPcre [] itemRoutes).1
    router.valid = true ∧ router.forward anyPcre .GET "/a/1".toList [] =
      ⟨none, [("id".toList, "1".toList)], false⟩ :=
  ⟨by decide +kernel, by decide +kernel⟩

end Cppmhd
