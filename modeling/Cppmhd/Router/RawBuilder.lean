import Cppmhd.Router.RawInsert
import Cppmhd.Router.BuildChild

/-!
# `RawBuilder` in memory

The trees of `RawBuilder` of `router.cc` in memory, with the loop of `Router::buildTree` over the routes and
the copies that it takes of the trees.  It leaves the trees of `BuildState.add` (`addAll_spec`), and
the copies of them (`placeTrees_spec`).
-/

open Heap Runs

namespace Cppmhd

variable {Ctrl : Type}

/-- The state of the loop of `buildTree` over the routes: the trees are pointers to their roots. -/
structure BuildObject (Ctrl : Type) where
  raw : List (HttpMethod × ℕ) := []
  controllers : List Ctrl := []
  success : Bool := true

/-- Source `RawBuilder::getMethodTree`: the trees then, and the root of the one asked for. -/
def getMethodTree (m : Memory (Cell Ctrl)) (raw : List (HttpMethod × ℕ)) (mth : HttpMethod) :
    Memory (Cell Ctrl) × List (HttpMethod × ℕ) × ℕ :=
  match raw.find? (·.1 = mth) with
  | none => (m.alloc [.raw {}], raw ++ [(mth, m.next)], m.next)
  | some t => (m, raw, t.2)

/-- The round of the loop for a route. -/
def BuildObject.add (pcre : Pcre) (pre : Str) (m : Memory (Cell Ctrl)) (b : BuildObject Ctrl)
    (item : Route Ctrl) (fuel : ℕ) : Option (Memory (Cell Ctrl) × BuildObject Ctrl) := do
  let t := getMethodTree m b.raw item.1
  let r ← addRouteAt pcre t.1 t.2.2 (pre ++ item.2.1) item.2.2 fuel
  some (r.1, if r.2 = .accepted then { b with raw := t.2.1, controllers := b.controllers ++ [item.2.2] }
    else { b with raw := t.2.1, success := false })

/-- The loop of `buildTree` over the routes. -/
def BuildObject.addAll (pcre : Pcre) (pre : Str) (m : Memory (Cell Ctrl)) (b : BuildObject Ctrl) :
    List (Route Ctrl) → ℕ → Option (Memory (Cell Ctrl) × BuildObject Ctrl)
  | [], _ => some (m, b)
  | item :: routes, fuel => do
    let r ← b.add pcre pre m item fuel
    r.2.addAll pcre pre r.1 routes fuel

/-- Source `RawBuilder::sort`. -/
def sortRaw (raw : List (HttpMethod × ℕ)) : List (HttpMethod × ℕ) :=
  raw.insertionSort fun s t => dispatchMethod s.1 ≤ dispatchMethod t.1

/-- The loop of `buildTree` over the sorted trees. -/
def placeTrees (m : Memory (Cell Ctrl)) :
    List (HttpMethod × ℕ) → ℕ → Option (Memory (Cell Ctrl) × List (HttpMethod × ℕ))
  | [], _ => some (m, [])
  | rt :: raw, fuel => do
    let build ← placeAt m rt.2 fuel
    let m ← assignAt build.1 rt.2 fun o => { o with type := .ROOT }
    let trees_ ← placeTrees m raw fuel
    some (trees_.1, (rt.1, build.2) :: trees_.2)

/-! ## The trees -/

/-- The trees of a builder are in memory. -/
structure TreesHeld (pcre : Pcre) (m : Memory (Cell Ctrl)) (trees : MethodTrees Ctrl)
    (raw : List (HttpMethod × ℕ)) (own : Set ℕ) : Prop where
  methods : raw.map Prod.fst = trees.map Prod.fst
  held : HeldAll m (trees.map fun t => t.2.root) (raw.map Prod.snd) own
  reachable : ∀ t ∈ trees, t.2.Reachable pcre

section Insert

variable {pcre : Pcre} {m : Memory (Cell Ctrl)} {trees : MethodTrees Ctrl} {raw : List (HttpMethod × ℕ)}
  {own : Set ℕ}

/-- The tree of a method is where the pointer to it is, or a new one is put behind the others. -/
theorem find_root (pcre : Pcre) (methods : raw.map Prod.fst = trees.map Prod.fst) (mth : HttpMethod) (path : Str)
    (ctrl : Ctrl) :
    (∃ before tree after q, trees = before ++ (mth, tree) :: after ∧
      (raw.map Prod.snd)[before.length]? = some q ∧ raw.find? (·.1 = mth) = some (mth, q) ∧
      MethodTrees.insert pcre path mth ctrl trees =
        (before ++ (mth, (tree.addRoute pcre path ctrl).1) :: after, (tree.addRoute pcre path ctrl).2)) ∨
    raw.find? (·.1 = mth) = none ∧ MethodTrees.insert pcre path mth ctrl trees =
      (trees ++ [(mth, (RawTree.addRoute pcre {} path ctrl).1)], (RawTree.addRoute pcre {} path ctrl).2) := by
  induction trees generalizing raw with
  | nil =>
    obtain rfl := List.map_eq_nil_iff.mp methods
    exact Or.inr ⟨rfl, rfl⟩
  | cons t trees ih =>
    cases raw with
    | nil => exact absurd methods (by simp)
    | cons q raw =>
      obtain ⟨mth', tree⟩ := t
      obtain ⟨mth'', q⟩ := q
      obtain ⟨first, rest⟩ := List.cons.inj methods
      obtain rfl : mth'' = mth' := first
      rw [MethodTrees.insert, List.find?_cons]
      by_cases here : mth'' = mth
      · subst here
        exact Or.inl ⟨[], tree, trees, q, rfl, rfl, by simp, if_pos rfl⟩
      · simp only [here, decide_false, if_false]
        rcases ih rest with ⟨before, tree', after, q', rfl, entry, found, inserted⟩ | ⟨absent, inserted⟩
        · refine Or.inl ⟨(mth'', tree) :: before, tree', after, q', rfl, entry, found, ?_⟩
          rw [inserted]
          rfl
        · refine Or.inr ⟨absent, ?_⟩
          rw [inserted]
          rfl

/-- The tree of a method may be replaced by the one that `addRoute` leaves. -/
theorem getMethodTree_spec (trees_held : TreesHeld pcre m trees raw own) (fresh : m.Fresh)
    (mth : HttpMethod) (path : Str) (ctrl : Ctrl) :
    ∃ m₁ raw' root tree here others, getMethodTree m raw mth = (m₁, raw', root) ∧
      Memory.Hands m m₁ own (here ∪ others) ∧ Disjoint here others ∧
      Held m₁ (RawTree.root tree) root here ∧ tree.Reachable pcre ∧
      (MethodTrees.insert pcre path mth ctrl trees).2 = (tree.addRoute pcre path ctrl).2 ∧
      ∀ m₂ here', Held m₂ (tree.addRoute pcre path ctrl).1.root root here' → Disjoint here' others →
        (∀ b ∈ others, m₂.block b = m₁.block b) →
          TreesHeld pcre m₂ (MethodTrees.insert pcre path mth ctrl trees).1 raw' (here' ∪ others) := by
  obtain ⟨methods, held, reachable⟩ := trees_held
  rcases find_root pcre methods mth path ctrl with
    ⟨before, tree, after, q, rfl, entry, found, inserted⟩ | ⟨absent, inserted⟩
  · rw [List.map_append, List.map_cons] at held
    obtain ⟨q', here, others, entry', child, apart, rfl, replace⟩ := held.focus
    rw [List.length_map] at entry'
    obtain rfl : q = q' := Option.some.inj (entry.symm.trans entry')
    have hands := Memory.Hands.refl fresh held.live
    have known : tree.Reachable pcre := reachable (mth, tree) (by simp)
    refine ⟨m, raw, q, tree, here, others, ?_, hands, apart, child, known, by rw [inserted], ?_⟩
    · rw [getMethodTree, found]
    · intro m₂ here' child apart same
      rw [inserted]
      refine ⟨by simpa using methods, ?_, ?_⟩
      · rw [List.map_append, List.map_cons]
        exact replace m₂ _ here' child apart same
      · intro t member
        rcases List.mem_append.mp member with member | member
        · exact reachable t (List.mem_append_left _ member)
        · rcases List.mem_cons.mp member with rfl | member
          · exact known.addRoute path ctrl
          · exact reachable t (by simp [member])
  · have alloc := Memory.Hands.alloc fresh held.live [Cell.raw {}]
    have old : ∀ b ∈ own, b ≠ m.next := fun b own => (fresh.lt_next (held.live b own)).ne
    have start : RawTree.Reachable pcre ({} : RawTree Ctrl) := .empty
    rw [Set.insert_eq] at alloc
    refine ⟨m.alloc [.raw {}], raw ++ [(mth, m.next)], m.next, {}, {m.next}, own, ?_, alloc, ?_,
      held_leaf Memory.alloc_self rfl, start, by rw [inserted], ?_⟩
    · rw [getMethodTree, absent]
    · exact Set.disjoint_singleton_left.mpr fun inside => old _ inside rfl
    · intro m₂ here' child apart same
      rw [inserted]
      refine ⟨by rw [List.map_append, List.map_append, methods]; rfl, ?_, ?_⟩
      · rw [List.map_append, List.map_append, Set.union_comm]
        refine HeldAll.append (held.frame fun b own => ?_) child apart.symm
        rw [same b own, Memory.alloc_other _ _ (old b own)]
      · intro t member
        rcases List.mem_append.mp member with member | member
        · exact reachable t member
        · obtain rfl := List.mem_singleton.mp member
          exact start.addRoute path ctrl

end Insert

/-! ## The loop over the routes -/

/-- The loop in memory is where the loop on the trees is. -/
structure Builds (pcre : Pcre) (m : Memory (Cell Ctrl)) (st : BuildState Ctrl) (b : BuildObject Ctrl)
    (own : Set ℕ) : Prop where
  trees : TreesHeld pcre m st.raw b.raw own
  controllers : b.controllers = st.controllers
  success : b.success = st.success

section Loop

variable {pcre : Pcre} {m : Memory (Cell Ctrl)} {st : BuildState Ctrl} {b : BuildObject Ctrl} {own : Set ℕ}

theorem Builds.add (builds : Builds pcre m st b own) (fresh : m.Fresh) (pre : Str) (item : Route Ctrl) :
    ∃ m' b' own', Returns (b.add pcre pre m item) (m', b') ∧ Memory.Hands m m' own own' ∧
      Builds pcre m' (st.add pcre pre item) b' own' := by
  obtain ⟨m₁, raw, root, tree, here, others, found, hands, apart, held, reachable, verdict, replace⟩ :=
    getMethodTree_spec builds.trees fresh item.1 (pre ++ item.2.1) item.2.2
  obtain ⟨m₂, added, here', hands', held'⟩ :=
    addRouteAt_spec held hands.fresh reachable (pre ++ item.2.1) item.2.2
  have live : ∀ b ∈ others, (m₁.block b).isSome := fun b own => ((hands.live b).mp (Or.inr own)).1
  have same := hands'.same hands.fresh live apart
  have separate := hands'.disjoint hands.fresh live apart
  have whole := hands.trans (hands'.widen hands.fresh live apart)
  have trees := replace m₂ here' held' separate same
  rw [← verdict] at added
  have round := added.map fun r => (r.1, if r.2 = .accepted then
    { b with raw, controllers := b.controllers ++ [item.2.2] } else { b with raw, success := false })
  refine ⟨m₂, _, here' ∪ others, round.congr fun fuel => ?_, whole, ?_⟩
  · rw [BuildObject.add, found]
    rfl
  · rw [BuildState.add]
    split_ifs
    · exact ⟨trees, by rw [builds.controllers], builds.success⟩
    · exact ⟨trees, builds.controllers, rfl⟩

/-- The loop of `buildTree` does in memory what it does on the trees. -/
theorem addAll_spec (builds : Builds pcre m st b own) (fresh : m.Fresh) (pre : Str)
    (routes : List (Route Ctrl)) :
    ∃ m' b' own', Returns (b.addAll pcre pre m routes) (m', b') ∧ Memory.Hands m m' own own' ∧
      Builds pcre m' (routes.foldl (BuildState.add pcre pre) st) b' own' := by
  induction routes generalizing m st b own with
  | nil => exact ⟨m, b, own, .of_all fun _ => rfl, .refl fresh builds.trees.held.live, builds⟩
  | cons item routes ih =>
    obtain ⟨m₁, b₁, own₁, added, hands, builds₁⟩ := builds.add fresh pre item
    obtain ⟨m₂, b₂, own₂, rest, hands', builds₂⟩ := ih builds₁ hands.fresh
    have both : Returns (fun fuel => (b.add pcre pre m item fuel).bind fun r =>
      r.2.addAll pcre pre r.1 routes fuel) (m₂, b₂) := added.bind rest
    exact ⟨m₂, b₂, own₂, both, hands.trans hands', builds₂⟩

end Loop

/-! ## Sorting -/

section Sorting

variable {m : Memory (Cell Ctrl)} {own : Set ℕ}

/-- Trees and pointers change places together. -/
theorem HeldAll.perm {l l' : List (RawNode Ctrl × ℕ)} (perm : l.Perm l')
    (held : HeldAll m (l.map Prod.fst) (l.map Prod.snd) own) :
    HeldAll m (l'.map Prod.fst) (l'.map Prod.snd) own := by
  induction perm generalizing own with
  | nil => exact held
  | cons t _ ih =>
    rw [List.map_cons, List.map_cons, HeldAll] at held ⊢
    obtain ⟨p, rest, here, others, pointers, first, all, apart, rfl⟩ := held
    obtain ⟨rfl, rfl⟩ := List.cons.inj pointers
    exact ⟨t.2, _, here, others, rfl, first, ih all, apart, rfl⟩
  | swap s t l =>
    rw [List.map_cons, List.map_cons, HeldAll] at held
    obtain ⟨p, rest, here, others, pointers, first, all, apart, rfl⟩ := held
    obtain ⟨rfl, rfl⟩ := List.cons.inj pointers
    rw [HeldAll] at all
    obtain ⟨p, rest, here', others, pointers, second, all, apart', rfl⟩ := all
    obtain ⟨rfl, rfl⟩ := List.cons.inj pointers
    rw [Set.disjoint_union_right] at apart
    rw [List.map_cons, List.map_cons, HeldAll]
    refine ⟨s.2, _, here', here ∪ others, rfl, second, ?_, ?_, Set.union_left_comm _ _ _⟩
    · rw [HeldAll]
      exact ⟨t.2, _, here, others, rfl, first, all, apart.2, rfl⟩
    · exact Set.disjoint_union_right.mpr ⟨apart.1.symm, apart'⟩
  | trans _ _ ih ih' => exact ih' (ih held)

theorem TreesHeld.sort {pcre : Pcre} {trees : MethodTrees Ctrl} {raw : List (HttpMethod × ℕ)}
    (held : TreesHeld pcre m trees raw own) : TreesHeld pcre m trees.sort (sortRaw raw) own := by
  obtain ⟨methods, held, reachable⟩ := held
  have length : raw.length = trees.length := by simpa using congrArg List.length methods
  -- the trees, each with the pointer to its root
  let pairs := trees.zip raw
  have first : pairs.map Prod.fst = trees := List.map_fst_zip length.ge
  have second : pairs.map Prod.snd = raw := List.map_snd_zip length.le
  have keys : ∀ t ∈ pairs, t.2.1 = t.1.1 := by
    intro t member
    obtain ⟨i, bound, rfl⟩ := List.mem_iff_getElem.mp member
    have same := congrArg (·[i]?) methods
    rw [List.length_zip] at bound
    simpa [pairs, show i < raw.length by omega, show i < trees.length by omega] using same
  let sorted := pairs.insertionSort fun s t => dispatchMethod s.1.1 ≤ dispatchMethod t.1.1
  have perm : pairs.Perm sorted := (List.perm_insertionSort _ _).symm
  have treesSorted : sorted.map Prod.fst = trees.sort := by
    rw [MethodTrees.sort, ← first]
    exact List.map_insertionSort _ _ _ _ fun _ _ _ _ => Iff.rfl
  have rawSorted : sorted.map Prod.snd = sortRaw raw := by
    rw [sortRaw, ← second]
    refine List.map_insertionSort _ _ _ _ fun s left t right => ?_
    rw [keys s left, keys t right]
  refine ⟨?_, ?_, fun t member => reachable t ((List.perm_insertionSort _ _).mem_iff.mp member)⟩
  · rw [← treesSorted, ← rawSorted, List.map_map, List.map_map]
    exact List.map_congr_left fun t member => keys t (perm.mem_iff.mpr member)
  · rw [← first, ← second, List.map_map, List.map_map] at held
    rw [← treesSorted, ← rawSorted, List.map_map, List.map_map]
    have moved := HeldAll.perm (perm.map fun t => (t.1.2.root, t.2.2))
      (by rw [List.map_map, List.map_map]; exact held)
    rw [List.map_map, List.map_map] at moved
    exact moved

end Sorting

/-! ## The copies -/

section Copy

variable {m : Memory (Cell Ctrl)} {own : Set ℕ}

/-- What is left of a copied tree is marked as a root. -/
theorem Copies.root {m₁ : Memory (Cell Ctrl)} {n : RawNode Ctrl} {p q : ℕ} {fresh : Set ℕ}
    (copies : Copies m m₁ n p q own fresh) :
    ∃ m₂, assignAt m₁ p (fun o => { o with type := .ROOT }) = some m₂ ∧ Copies m m₂ n p q own fresh := by
  obtain ⟨n', left⟩ := copies.left
  obtain ⟨m₂, assigned, hands, held⟩ := assignAt_spec left copies.hands.fresh
    (f := fun o => { o with type := .ROOT }) { n' with type := .ROOT } rfl fun _ => rfl
  have same := hands.same copies.hands.fresh copies.holds.live copies.apart
  have wide := hands.widen copies.hands.fresh copies.holds.live copies.apart
  exact ⟨m₂, assigned, copies.hands.trans wide, copies.apart, copies.holds.frame same, _, held⟩

/-- The loop over the trees copies each, and leaves every raw tree to be deleted. -/
theorem placeTrees_spec {trees : MethodTrees Ctrl} {raw : List (HttpMethod × ℕ)}
    (methods : raw.map Prod.fst = trees.map Prod.fst)
    (held : HeldAll m (trees.map fun t => t.2.root) (raw.map Prod.snd) own) (fresh : m.Fresh) :
    ∃ m' roots new, Returns (placeTrees m raw) (m', roots) ∧ roots.map Prod.fst = trees.map Prod.fst ∧
      Memory.Hands m m' own (own ∪ new) ∧ Disjoint own new ∧
      HoldsAll m' (trees.map fun t => t.2.root) (roots.map Prod.snd) new ∧
      ∃ nodes, HeldAll m' nodes (raw.map Prod.snd) own := by
  induction trees generalizing raw m own with
  | nil =>
    obtain rfl := List.map_eq_nil_iff.mp methods
    obtain ⟨-, rfl⟩ := (held : _ ∧ _)
    refine ⟨m, [], ∅, .of_all fun _ => rfl, rfl, ?_, Set.disjoint_empty _, ⟨rfl, rfl⟩, [], heldAll_nil⟩
    rw [Set.union_empty]
    exact .refl fresh (by simp)
  | cons t trees ih =>
    cases raw with
    | nil => exact absurd methods (by simp)
    | cons rt raw =>
      obtain ⟨key, methods⟩ := List.cons.inj methods
      rw [List.map_cons, List.map_cons, HeldAll] at held
      obtain ⟨p, rest, own₁, own₂, pointers, first, all, apart, rfl⟩ := held
      obtain ⟨rfl, rfl⟩ := List.cons.inj pointers
      obtain ⟨m₁, q, fresh₁, placed, copied⟩ := placeAt_spec first fresh
      obtain ⟨m₂, marked, copies⟩ := copied.root
      have same := copies.hands.same fresh all.live apart
      obtain ⟨m₃, roots, fresh₂, others, keys, hands, apart₂, holds, nodes, lefts⟩ :=
        ih methods (all.frame same) copies.hands.fresh
      obtain ⟨whole, separate, distinct, kept⟩ :=
        copies.hands.both fresh all.live apart copies.apart hands apart₂
      obtain ⟨n', left⟩ := copies.left
      refine ⟨m₃, (rt.1, q) :: roots, fresh₁ ∪ fresh₂, ?_, ?_, whole, separate, ?_, n' :: nodes, ?_⟩
      · have tail : Returns (fun fuel => (assignAt m₁ rt.2 fun o => { o with type := .ROOT }).bind fun m =>
            (placeTrees m raw fuel).bind fun trees_ => some (trees_.1, (rt.1, q) :: trees_.2))
              (m₃, (rt.1, q) :: roots) := by
          rw [marked]
          exact others.map fun r => (r.1, (rt.1, q) :: r.2)
        have both : Returns (fun fuel => (placeAt m rt.2 fuel).bind fun build =>
            (assignAt build.1 rt.2 fun o => { o with type := .ROOT }).bind fun m =>
              (placeTrees m raw fuel).bind fun trees_ =>
                some (trees_.1, (rt.1, build.2) :: trees_.2)) (m₃, (rt.1, q) :: roots) := placed.bind tail
        exact both
      · rw [List.map_cons, List.map_cons, keys]
        exact congrArg (· :: _) key
      · rw [List.map_cons, List.map_cons, HoldsAll]
        exact ⟨q, _, fresh₁, fresh₂, rfl, copies.holds.frame fun b own => kept b (Or.inr own), holds, distinct,
          rfl⟩
      · rw [List.map_cons, HeldAll]
        exact ⟨rt.2, _, own₁, own₂, rfl, left.frame fun b own => kept b (Or.inl own), lefts, apart, rfl⟩

end Copy

end Cppmhd
