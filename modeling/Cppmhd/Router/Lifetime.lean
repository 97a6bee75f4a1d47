import Cppmhd.Router.Pointers
import Cppmhd.Router.RawBuilder
import Cppmhd.Router.Serving

/-!
# Routers in memory

Routers are built, asked and destroyed in any order, in one memory.  `routers_in_memory` says that none
of this faults, that a router answers as the one that `Router.buildTree` builds, whatever becomes of the
others, and that nothing is left when all are gone.
-/

open Heap Runs

namespace Cppmhd

variable {Ctrl : Type}

/-- Source `Router`; its trees are pointers to their roots. -/
structure RouterObject (Ctrl : Type) where
  controllers : List Ctrl
  trees_ : List (HttpMethod × ℕ)
  valid : Bool

/-- Source `Router::buildTree`, up to the end of the raw trees. -/
def RouterObject.buildTree (pcre : Pcre) (m : Memory (Cell Ctrl)) (pre : Str)
    (builder : RouterBuilder Ctrl) (fuel : ℕ) : Option (Memory (Cell Ctrl) × RouterObject Ctrl) := do
  let b ← BuildObject.addAll pcre pre m {} builder.routes fuel
  let raw := sortRaw b.2.raw
  let trees_ ← placeTrees b.1 raw fuel
  let m ← deleteRaws trees_.1 (raw.map Prod.snd) fuel
  some (m, ⟨b.2.controllers, trees_.2, b.2.success⟩)

/-- Source `~RouterTrees` for every tree of a router. -/
def deleteTrees (m : Memory (Cell Ctrl)) : List (HttpMethod × ℕ) → ℕ → Option (Memory (Cell Ctrl))
  | [], _ => some m
  | t :: trees, fuel => do
    let m ← deleteNode m t.2 fuel
    deleteTrees m trees fuel

/-- Source `Router::forward`. -/
def RouterObject.forward (pcre : Pcre) (m : Memory (Cell Ctrl)) (router : RouterObject Ctrl)
    (mtd : HttpMethod) (path : Str) (params : Params) (fuel : ℕ) : Option (Forwarded Ctrl) :=
  match router.trees_.find? (·.1 = mtd) with
  | some t => follow pcre m t.2 path params fuel
  | none => some ⟨none, params, false⟩

/-! ## The trees of a router -/

section Trees

variable {m : Memory (Cell Ctrl)}

theorem deleteTrees_spec {trees : List (HttpMethod × ℕ)} {nodes : List (RouterNode Ctrl)} {own : Set ℕ}
    (holds : HoldsAll m nodes (trees.map Prod.snd) own) (fresh : m.Fresh) :
    ∃ m', Returns (deleteTrees m trees) m' ∧ Memory.Hands m m' own ∅ := by
  induction trees generalizing m nodes own with
  | nil =>
    cases nodes with
    | nil =>
      rw [HoldsAll] at holds
      obtain ⟨-, rfl⟩ := holds
      exact ⟨m, .of_all fun _ => rfl, .refl fresh (by simp)⟩
    | cons n nodes =>
      rw [HoldsAll] at holds
      obtain ⟨p, rest, here, others, none, -⟩ := holds
      exact absurd none (by simp)
  | cons t trees ih =>
    cases nodes with
    | nil =>
      rw [HoldsAll] at holds
      exact absurd holds.1 (by simp)
    | cons n nodes =>
      rw [HoldsAll] at holds
      obtain ⟨p, rest, here, others, pointers, first, all, apart, rfl⟩ := holds
      obtain ⟨rfl, rfl⟩ := List.cons.inj pointers
      obtain ⟨m₁, deleted, hands⟩ := deleteNode_spec first fresh
      obtain ⟨moved, wide⟩ := all.after fresh hands apart
      obtain ⟨m₂, deleted', hands'⟩ := ih moved hands.fresh
      have both : Returns (fun fuel => (deleteNode m t.2 fuel).bind fun m => deleteTrees m trees fuel)
          m₂ := deleted.bind deleted'
      exact ⟨m₂, both, wide.trans hands'⟩

end Trees

/-! ## Runs -/

/-- A router with the arguments of its constructor. -/
structure Constructed (Ctrl : Type) where
  pre : Str
  builder : RouterBuilder Ctrl
  object : RouterObject Ctrl

/-- What can happen to a router: it is constructed, and destroyed. -/
inductive RouterStep (pcre : Pcre) : Memory (Cell Ctrl) → Option (Constructed Ctrl) →
    Memory (Cell Ctrl) → Option (Constructed Ctrl) → Prop
  | construct {m m' : Memory (Cell Ctrl)} (pre : Str) (builder : RouterBuilder Ctrl)
      {object : RouterObject Ctrl}
      (built : Returns (RouterObject.buildTree pcre m pre builder) (m', object)) :
      RouterStep pcre m none m' (some ⟨pre, builder, object⟩)
  | destroy {m m' : Memory (Cell Ctrl)} {r : Constructed Ctrl}
      (gone : Returns (deleteTrees m r.object.trees_) m') : RouterStep pcre m (some r) m' none

/-- Any number of routers in one memory, which is empty at first. -/
def routers (ι : Type) [DecidableEq ι] (Ctrl : Type) (pcre : Pcre) :
    System (Joint ι (Memory (Cell Ctrl)) (Option (Constructed Ctrl))) :=
  interleaved ι (fun m => ∀ b, m.block b = none) ⟨fun own => own = none, RouterStep pcre⟩

section Runs

variable {pcre : Pcre} {m m' : Memory (Cell Ctrl)}

/-- The router that the same arguments make without pointers. -/
def Constructed.router (pcre : Pcre) (r : Constructed Ctrl) : Router Ctrl :=
  (Router.buildTree pcre r.pre r.builder).1

/-- A router in memory, in these blocks. -/
structure Located (pcre : Pcre) (m : Memory (Cell Ctrl)) (r : Constructed Ctrl) (blocks : Set ℕ) :
    Prop where
  controllers : r.object.controllers = (r.router pcre).controllers
  valid : r.object.valid = (r.router pcre).valid
  methods : r.object.trees_.map Prod.fst = (r.router pcre).trees.map Prod.fst
  holds : HoldsAll m ((r.router pcre).trees.map Prod.snd) (r.object.trees_.map Prod.snd) blocks

/-- The blocks of what a component has. -/
def Owns (pcre : Pcre) (m : Memory (Cell Ctrl)) (own : Option (Constructed Ctrl)) (blocks : Set ℕ) :
    Prop :=
  match own with
  | none => blocks = ∅
  | some r => Located pcre m r blocks

theorem buildTree_spec (pcre : Pcre) (pre : Str) (builder : RouterBuilder Ctrl) (fresh : m.Fresh) :
    ∃ m' object blocks, Returns (RouterObject.buildTree pcre m pre builder) (m', object) ∧
      Memory.Hands m m' ∅ blocks ∧ Located pcre m' ⟨pre, builder, object⟩ blocks := by
  have start : Builds pcre m ({} : BuildState Ctrl) {} ∅ := by
    refine ⟨⟨rfl, heldAll_nil, ?_⟩, rfl, rfl⟩
    simp
  obtain ⟨m₁, b, own, added, hands, builds⟩ := addAll_spec start fresh pre builder.routes
  have sorted := builds.trees.sort
  obtain ⟨m₂, roots, new, placed, methods, hands', apart, holds, nodes, left⟩ :=
    placeTrees_spec sorted.methods sorted.held hands.fresh
  -- what the builder owns is deleted at its end
  obtain ⟨m₃, deleted, last⟩ := deleteRaws_spec left hands'.fresh
  have same := last.same hands'.fresh holds.live apart
  have wide := last.widen hands'.fresh holds.live apart
  rw [Set.empty_union] at wide
  have copied : (Router.buildTree pcre pre builder).1.trees =
      (builder.routes.foldl (BuildState.add pcre pre) {}).raw.sort.map fun t => (t.1, t.2.root) := by
    simp only [Router.buildTree, buildChild_eq]
  refine ⟨m₃, ⟨b.controllers, roots, b.success⟩, new, ?_, (hands.trans hands').trans wide,
    builds.controllers, builds.success, ?_, ?_⟩
  · have tail : Returns (fun fuel => (deleteRaws m₂ ((sortRaw b.raw).map Prod.snd) fuel).bind fun m =>
        some (m, (⟨b.controllers, roots, b.success⟩ : RouterObject Ctrl))) (m₃, _) := deleted.map fun m => (m, _)
    have rest : Returns (fun fuel => (placeTrees m₁ (sortRaw b.raw) fuel).bind fun trees_ =>
        (deleteRaws trees_.1 ((sortRaw b.raw).map Prod.snd) fuel).bind fun m =>
          some (m, (⟨b.controllers, trees_.2, b.success⟩ : RouterObject Ctrl))) (m₃, _) := placed.bind tail
    have whole : Returns (fun fuel => (BuildObject.addAll pcre pre m {} builder.routes fuel).bind fun b =>
        (placeTrees b.1 (sortRaw b.2.raw) fuel).bind fun trees_ =>
          (deleteRaws trees_.1 ((sortRaw b.2.raw).map Prod.snd) fuel).bind fun m =>
            some (m, (⟨b.2.controllers, trees_.2, b.2.success⟩ : RouterObject Ctrl))) (m₃, _) :=
      added.bind rest
    exact whole
  · rw [Constructed.router, copied, List.map_map]
    exact methods
  · rw [Constructed.router, copied, List.map_map]
    exact holds.frame same

theorem routers_keep : Maintains (α := Cell Ctrl) ⟨fun own => own = none, RouterStep pcre⟩ id
    (Owns pcre) where
  init m own first := by
    obtain rfl : own = none := first
    rfl
  step := by
    intro m own m' own' blocks fresh live owns step
    cases step with
    | construct pre builder built =>
      obtain rfl : blocks = ∅ := owns
      obtain ⟨m₁, object, after, built', hands, located⟩ := buildTree_spec pcre pre builder fresh
      obtain ⟨rfl, rfl⟩ := Prod.mk.inj (built.unique built')
      exact ⟨after, hands, located⟩
    | destroy gone =>
      obtain ⟨m₁, deleted, hands⟩ := deleteTrees_spec owns.holds fresh
      obtain rfl := gone.unique deleted
      exact ⟨∅, hands, rfl⟩
  frame := by
    intro m m' own blocks owns same
    cases own with
    | none => exact owns
    | some r => exact { owns with holds := owns.holds.frame same }

/-- The trees of a router can be followed. -/
theorem router_sound (r : Constructed Ctrl) {t : HttpMethod × RouterNode Ctrl}
    (member : t ∈ (r.router pcre).trees) : t.2.Sound := by
  simp only [Constructed.router, Router.buildTree, buildChild_eq, List.mem_map] at member
  obtain ⟨⟨mtd, tree⟩, member, rfl⟩ := member
  have nodup := foldl_add_nodup pcre r.pre r.builder.routes {} List.nodup_nil
  have stored := (List.perm_insertionSort _ _).mem_iff.mp member
  have same := MethodTrees.tree_of_mem nodup stored
  rw [foldl_add_tree] at same
  have reachable : RawTree.Reachable pcre ({} : RawTree Ctrl) := .empty
  have tree : tree.Reachable pcre := same ▸ reachable.addRoutes _
  exact tree.sound

/-- The pointer to the tree of a method is found where the tree is found. -/
theorem find_tree {trees : List (HttpMethod × RouterNode Ctrl)} {roots : List (HttpMethod × ℕ)}
    (methods : roots.map Prod.fst = trees.map Prod.fst)
    (all : List.Forall₂ (InMemory m) (trees.map Prod.snd) (roots.map Prod.snd)) (mtd : HttpMethod) :
    (∃ t ∈ trees, ∃ q, trees.find? (·.1 = mtd) = some t ∧ roots.find? (·.1 = mtd) = some q ∧
      InMemory m t.2 q.2) ∨
    trees.find? (·.1 = mtd) = none ∧ roots.find? (·.1 = mtd) = none := by
  induction trees generalizing roots with
  | nil =>
    obtain rfl := List.map_eq_nil_iff.mp methods
    exact Or.inr ⟨rfl, rfl⟩
  | cons t trees ih =>
    cases roots with
    | nil => exact absurd methods (by simp)
    | cons q roots =>
      obtain ⟨first, methods⟩ := List.cons.inj methods
      cases all with
      | cons stored all =>
        rw [List.find?_cons, List.find?_cons, first]
        by_cases here : t.1 = mtd
        · exact Or.inl ⟨t, List.mem_cons_self, q, by simp [here], by simp [here], stored⟩
        · simp only [here, decide_false]
          rcases ih methods all with ⟨d, member, found⟩ | absent
          · exact Or.inl ⟨d, List.mem_cons_of_mem t member, found⟩
          · exact Or.inr absent

theorem Located.forward {r : Constructed Ctrl} {blocks : Set ℕ} (located : Located pcre m r blocks)
    (mtd : HttpMethod) (path : Str) (params : Params) :
    Returns (r.object.forward pcre m mtd path params) ((r.router pcre).forward pcre mtd path params) := by
  unfold RouterObject.forward Router.forward
  rcases find_tree located.methods located.holds.inMemory mtd with
    ⟨t, member, q, found, pointer, stored⟩ | ⟨absent, pointer⟩
  · rw [found, pointer]
    exact follow_spec pcre stored (router_sound r member) path params
  · rw [absent, pointer]
    exact .of_all fun _ => rfl

end Runs

/-- Routers can always be constructed.  Each holds what `Router.buildTree` makes of its arguments,
answers every request as that router, whatever becomes of the others, and can be destroyed; and
nothing is allocated when all are destroyed. -/
theorem routers_in_memory {ι : Type} [DecidableEq ι] {pcre : Pcre}
    {s : Joint ι (Memory (Cell Ctrl)) (Option (Constructed Ctrl))}
    (reachable : (routers ι Ctrl pcre).Reachable s) :
    (∀ pre builder, ∃ m object,
      Returns (RouterObject.buildTree pcre s.shared pre builder) (m, object)) ∧
    (∀ i r, s.own i = some r →
      r.object.controllers = (r.router pcre).controllers ∧ r.object.valid = (r.router pcre).valid ∧
      (∀ mtd path params, Returns (r.object.forward pcre s.shared mtd path params)
        ((r.router pcre).forward pcre mtd path params)) ∧
      ∃ m, Returns (deleteTrees s.shared r.object.trees_) m) ∧
    ((∀ i, s.own i = none) → ∀ b, s.shared.block b = none) := by
  obtain ⟨owns, divided, holds⟩ := routers_keep.reachable (fun _ empty => empty) reachable
  refine ⟨fun pre builder => ?_, fun i r here => ?_, fun none => divided.empty fun i => ?_⟩
  · obtain ⟨m, object, blocks, built, -, -⟩ := buildTree_spec pcre pre builder divided.fresh
    exact ⟨m, object, built⟩
  · have located : Located pcre s.shared r (owns i) := by
      have own := holds i
      rwa [here] at own
    obtain ⟨m, deleted, -⟩ := deleteTrees_spec located.holds divided.fresh
    exact ⟨located.controllers, located.valid, located.forward, m, deleted⟩
  · have own := holds i
    rwa [none i] at own

/-- A router is destroyed beside another one, which still answers. -/
theorem routers_in_memory_names : ∃ s r, (routers ℕ ℕ anyPcre).Reachable s ∧ s.own 0 = none ∧
    s.own 1 = some r ∧ Returns (r.object.forward anyPcre s.shared .GET bobRequest [])
      ⟨some 1, [("name".toList, "bob".toList)], false⟩ := by
  have start : (routers ℕ ℕ anyPcre).Reachable ⟨⟨fun _ => none, 0⟩, fun _ => none⟩ :=
    .of_init ⟨fun _ => rfl, fun _ => rfl⟩
  obtain ⟨m₁, object₁, built₁⟩ := (routers_in_memory start).1 [] nameRoutes
  let own₁ : ℕ → Option (Constructed ℕ) :=
    Function.update (fun _ => none) 0 (some ⟨[], nameRoutes, object₁⟩)
  have first : (routers ℕ ℕ anyPcre).Reachable ⟨m₁, own₁⟩ :=
    start.step ⟨0, _, .construct [] nameRoutes built₁, rfl⟩
  obtain ⟨m₂, object₂, built₂⟩ := (routers_in_memory first).1 [] nameRoutes
  let own₂ := Function.update own₁ 1 (some ⟨[], nameRoutes, object₂⟩)
  have second : (routers ℕ ℕ anyPcre).Reachable ⟨m₂, own₂⟩ :=
    first.step ⟨1, _, .construct [] nameRoutes built₂, rfl⟩
  obtain ⟨-, -, -, m₃, deleted⟩ := (routers_in_memory second).2.1 0 ⟨[], nameRoutes, object₁⟩ rfl
  have third : (routers ℕ ℕ anyPcre).Reachable ⟨m₃, Function.update own₂ 0 none⟩ :=
    second.step ⟨0, _, .destroy deleted, rfl⟩
  refine ⟨_, ⟨[], nameRoutes, object₂⟩, third, rfl, rfl, ?_⟩
  have answers := ((routers_in_memory third).2.1 1 ⟨[], nameRoutes, object₂⟩ rfl).2.2.1 .GET bobRequest []
  have answer : (Router.buildTree anyPcre [] nameRoutes).1.forward anyPcre .GET bobRequest [] =
      ⟨some 1, [("name".toList, "bob".toList)], false⟩ := by
    decide +kernel
  rwa [Constructed.router, answer] at answers

end Cppmhd
