import Cppmhd.Heap.Shared
import Cppmhd.Router.Mount
import Cppmhd.Router.Tables
import Cppmhd.Runs.System

/-!
# The owners of controllers

A builder has a shared pointer to the controller of each of its routes, and a router one for each route that
it serves; the trees of the router only point to the controllers.  However builders and routers are made,
filled, mounted, moved and destroyed, a controller lives as long as one of them owns it
(`controllers_shared`).
-/

open Runs Heap

namespace Cppmhd

variable {β ρ α : Type}

/-! ## Builders and routers -/

/-- The shared pointers of a builder. -/
def RouterBuilder.controllers {Ctrl : Type} (builder : RouterBuilder Ctrl) : List Ctrl :=
  builder.routes.map (·.2.2)

/-- Builders and routers whose controllers are in memory.  `fault` tells of a pointer to a controller that
is gone. -/
structure Sharing (β ρ α : Type) where
  memory : Memory (Counted α)
  builders : β → Option (RouterBuilder ℕ)
  routers : ρ → Option (Router ℕ)
  fault : Bool := false

/-- What user code does with them.  A moved router leaves a router behind, whose `valid` may be anything. -/
inductive SharingCall (β ρ α : Type) where
  | builder (b : β)
  | add (b : β) (mtd : HttpMethod) (path : Str) (ctrl : α)
  | addSubRoutes (b : β) (pfx : Str) (sub : β)
  | endBuilder (b : β)
  | router (r : ρ) (b : β) (pre : Str)
  | move (r r' : ρ) (valid : Bool)
  | endRouter (r : ρ)

namespace Sharing

/-- What is left of the memory behind some copies and releases. -/
def after (s : Sharing β ρ α) : Option (Memory (Counted α)) → Sharing β ρ α
  | some memory => { s with memory := memory }
  | none => { s with fault := true }

variable [DecidableEq β] [DecidableEq ρ]

/-- A call, where the objects are there that it is about, and those are not that it makes. -/
def act (pcre : Pcre) (s : Sharing β ρ α) : SharingCall β ρ α → Option (Sharing β ρ α)
  | .builder b =>
    match s.builders b with
    | some _ => none
    | none => some { s with builders := Function.update s.builders b (some {}) }
  | .add b mtd path ctrl =>
    (s.builders b).map fun builder =>
      { s with
        memory := s.memory.share ctrl
        builders := Function.update s.builders b (some (builder.add mtd path s.memory.next)) }
  | .addSubRoutes b pfx sub =>
    if b = sub then
      -- the loop runs over the vector that it appends to
      (s.builders b).map fun builder =>
        if subRoutePattern pfx ∧ builder.routes ≠ [] then { s with fault := true } else s
    else (s.builders b).bind fun builder => (s.builders sub).map fun subRoutes =>
      let copied := if subRoutePattern pfx then subRoutes.controllers else []
      { s.after (s.memory.retainAll copied) with
        builders := Function.update s.builders b (some (builder.addSubRoutes pfx subRoutes).1) }
  | .endBuilder b =>
    (s.builders b).map fun builder =>
      { s.after (s.memory.releaseAll builder.controllers) with
        builders := Function.update s.builders b none }
  | .router r b pre =>
    match s.routers r with
    | some _ => none
    | none => (s.builders b).map fun builder =>
      let built := Router.buildTree pcre pre builder
      { s.after ((s.memory.retainAll built.1.controllers).bind (·.releaseAll builder.controllers)) with
        builders := Function.update s.builders b (some built.2)
        routers := Function.update s.routers r (some built.1) }
  | .move r r' valid =>
    match s.routers r' with
    | some _ => none
    | none => (s.routers r).map fun router =>
      { s with
        routers :=
          Function.update (Function.update s.routers r (some { valid := valid })) r' (some router) }
  | .endRouter r =>
    (s.routers r).map fun router =>
      { s.after (s.memory.releaseAll router.controllers) with
        routers := Function.update s.routers r none }

/-- Nothing is there at first. -/
structure Empty (s : Sharing β ρ α) : Prop where
  memory : ∀ p, s.memory.block p = none
  builders : ∀ b, s.builders b = none
  routers : ∀ r, s.routers r = none
  fault : s.fault = false

/-- A builder with routes is mounted into itself. -/
def MountsItself (s : Sharing β ρ α) : SharingCall β ρ α → Prop
  | .addSubRoutes b pfx sub =>
    b = sub ∧ subRoutePattern pfx ∧ ∃ builder, s.builders b = some builder ∧ builder.routes ≠ []
  | _ => False

/-- Builders and routers in the hands of user code, which mounts no builder with routes into itself. -/
def system (pcre : Pcre) (β ρ α : Type) [DecidableEq β] [DecidableEq ρ] : System (Sharing β ρ α) where
  init := Empty
  step s s' := ∃ call, ¬ s.MountsItself call ∧ s.act pcre call = some s'

/-! ## Who owns what -/

omit [DecidableEq β] [DecidableEq ρ]

/-- The shared pointers of builders and routers. -/
def vectors (s : Sharing β ρ α) : β ⊕ ρ → List ℕ :=
  Sum.elim (fun b => ((s.builders b).map RouterBuilder.controllers).getD [])
    fun r => ((s.routers r).map Router.controllers).getD []

variable {s s' : Sharing β ρ α} {b : β} {r : ρ}

theorem mem_controllers {κ : Type} {controllers : κ → List ℕ} {x : Option κ} {p : ℕ} :
    p ∈ (x.map controllers).getD [] ↔ ∃ owner, x = some owner ∧ p ∈ controllers owner := by
  cases x with
  | none => simp
  | some owner => simp

theorem vectors_of_builder {x : Option (RouterBuilder ℕ)} (here : s.builders b = x) :
    s.vectors (.inl b) = (x.map RouterBuilder.controllers).getD [] := by
  rw [vectors, Sum.elim_inl, here]

theorem vectors_of_router {x : Option (Router ℕ)} (here : s.routers r = x) :
    s.vectors (.inr r) = (x.map Router.controllers).getD [] := by
  rw [vectors, Sum.elim_inr, here]

variable [DecidableEq β] [DecidableEq ρ]

theorem vectors_builder (x : Option (RouterBuilder ℕ)) :
    ({ s with builders := Function.update s.builders b x } : Sharing β ρ α).vectors =
      Function.update s.vectors (.inl b) ((x.map RouterBuilder.controllers).getD []) := by
  rw [vectors, vectors, Sum.update_elim_inl]
  exact congrArg (Sum.elim · _) (funext fun b' =>
    Function.apply_update (fun _ x => (x.map RouterBuilder.controllers).getD []) s.builders b x b')

theorem vectors_router (x : Option (Router ℕ)) :
    ({ s with routers := Function.update s.routers r x } : Sharing β ρ α).vectors =
      Function.update s.vectors (.inr r) ((x.map Router.controllers).getD []) := by
  rw [vectors, vectors, Sum.update_elim_inr]
  exact congrArg (Sum.elim _) (funext fun r' =>
    Function.apply_update (fun _ x => (x.map Router.controllers).getD []) s.routers r x r')

end Sharing

/-- A router keeps some of the controllers of its builder. -/
theorem buildTree_keeps {Ctrl : Type} (pcre : Pcre) (pre : Str) (builder : RouterBuilder Ctrl) {c : Ctrl}
    (kept : c ∈ (Router.buildTree pcre pre builder).1.controllers) : c ∈ builder.controllers := by
  rw [(buildTree_acceptances pcre pre builder).2] at kept
  obtain ⟨⟨bit, route⟩, member, rfl⟩ := List.mem_map.mp kept
  exact List.mem_map_of_mem (List.of_mem_zip (List.mem_filter.mp member).1).2

theorem addSubRoutes_controllers {Ctrl : Type} (builder : RouterBuilder Ctrl) (pfx : Str)
    (sub : RouterBuilder Ctrl) : (builder.addSubRoutes pfx sub).1.controllers =
      builder.controllers ++ if subRoutePattern pfx then sub.controllers else [] := by
  unfold RouterBuilder.addSubRoutes
  split
  · rw [RouterBuilder.controllers, foldl_add_routes, List.map_append, List.map_map]
    rfl
  · exact (List.append_nil _).symm

/-! ## Every call -/

namespace Sharing

variable {pcre : Pcre} {s s' : Sharing β ρ α} {b : β} {r : ρ}

/-- A router is built from some routes, or was moved away. -/
def Built (pcre : Pcre) (router : Router ℕ) : Prop :=
  (∃ pre builder, router = (Router.buildTree pcre pre builder).1) ∨ ∃ valid, router = { valid := valid }

/-- Every count is the number of the owners. -/
structure Owned (pcre : Pcre) (s : Sharing β ρ α) : Prop where
  counts : Counts s.memory (slots s.vectors)
  built : ∀ r router, s.routers r = some router → Built pcre router
  fault : s.fault = false

/-- No controller changes or comes back. -/
structure Continues (s s' : Sharing β ρ α) : Prop where
  next : s.memory.next ≤ s'.memory.next
  value : ∀ p v, p < s.memory.next → s'.memory.value p = some v → s.memory.value p = some v

theorem Continues.refl (s : Sharing β ρ α) : Continues s s := ⟨le_rfl, fun _ _ _ => id⟩

theorem Continues.trans {s'' : Sharing β ρ α} (first : Continues s s') (second : Continues s' s'') :
    Continues s s'' :=
  ⟨first.next.trans second.next, fun p v old there =>
    first.value p v old (second.value p v (old.trans_le first.next) there)⟩

/-- What a call keeps. -/
structure Kept (pcre : Pcre) (s s' : Sharing β ρ α) : Prop where
  owned : s'.Owned pcre
  continues : Continues s s'

variable [DecidableEq β] [DecidableEq ρ]

theorem built_update {routers : ρ → Option (Router ℕ)} {x : Option (Router ℕ)}
    (built : ∀ r router, routers r = some router → Built pcre router)
    (new : ∀ router, x = some router → Built pcre router) :
    ∀ r' router, Function.update routers r x r' = some router → Built pcre router :=
  (Function.forall_update_iff routers fun _ x => ∀ router, x = some router → Built pcre router).mpr
    ⟨new, fun r' _ => built r'⟩

section Objects

variable {memory : Memory (Counted α)} (owned : s.Owned pcre)

include owned

/-- A builder and its controllers change. -/
theorem Owned.setBuilder (x : Option (RouterBuilder ℕ)) (next : s.memory.next ≤ memory.next)
    (value : ∀ p v, p < s.memory.next → memory.value p = some v → s.memory.value p = some v)
    (counts : Counts memory
      (slots (Function.update s.vectors (.inl b) ((x.map RouterBuilder.controllers).getD [])))) :
    Kept pcre s { s with memory := memory, builders := Function.update s.builders b x } := by
  rw [← vectors_builder (s := s) (b := b) x] at counts
  exact ⟨⟨counts, owned.built, owned.fault⟩, next, value⟩

/-- A router and its controllers change. -/
theorem Owned.setRouter (x : Option (Router ℕ)) (next : s.memory.next ≤ memory.next)
    (value : ∀ p v, p < s.memory.next → memory.value p = some v → s.memory.value p = some v)
    (counts : Counts memory
      (slots (Function.update s.vectors (.inr r) ((x.map Router.controllers).getD []))))
    (new : ∀ router, x = some router → Built pcre router) :
    Kept pcre s { s with memory := memory, routers := Function.update s.routers r x } := by
  rw [← vectors_router (s := s) (r := r) x] at counts
  exact ⟨⟨counts, built_update owned.built new, owned.fault⟩, next, value⟩

/-- The new router first copies what it serves, and then the builder lets all its routes go. -/
theorem Owned.build {builder : RouterBuilder ℕ} (here : s.builders b = some builder)
    (free : s.routers r = none) (pre : Str) :
    ∃ m, (s.memory.retainAll (Router.buildTree pcre pre builder).1.controllers).bind
        (·.releaseAll builder.controllers) = some m ∧
      Kept pcre s { s with
        memory := m
        builders := Function.update s.builders b (some (Router.buildTree pcre pre builder).2)
        routers := Function.update s.routers r (some (Router.buildTree pcre pre builder).1) } := by
  let built := Router.buildTree pcre pre builder
  have new : ∀ router, some built.1 = some router → Built pcre router :=
    fun router is => Or.inl ⟨pre, builder, (Option.some.inj is).symm⟩
  obtain ⟨m₁, retained, same, counts₁⟩ := owned.counts.append (.inr r) built.1.controllers fun p kept => by
    refine ⟨.inl b, ?_⟩
    rw [vectors_of_builder here]
    exact buildTree_keeps pcre pre builder kept
  rw [vectors_of_router free] at counts₁
  have first := owned.setRouter (some built.1) (Memory.retainAll_next retained).ge
    (fun p v _ found => same ▸ found) counts₁ new
  let s₁ : Sharing β ρ α :=
    { s with memory := m₁, routers := Function.update s.routers r (some built.1) }
  have here₁ : s₁.builders b = some builder := here
  obtain ⟨m₂, released, counts₂, value⟩ := first.owned.counts.clear (.inl b)
  have second := first.owned.setBuilder (some built.2) (Memory.releaseAll_next released).ge
    (fun p v _ => value p v) counts₂
  have held : s₁.vectors (.inl b) = builder.controllers := vectors_of_builder here₁
  refine ⟨m₂, ?_, second.owned, first.continues.trans second.continues⟩
  rw [retained, Option.bind_some, ← held]
  exact released

/-- A moved router takes its pointers along. -/
theorem Owned.move {r' : ρ} {router : Router ℕ} (here : s.routers r = some router)
    (free : s.routers r' = none) (valid : Bool) :
    Kept pcre s { s with
      routers :=
        Function.update (Function.update s.routers r (some { valid := valid })) r' (some router) } := by
  have swapped := owned.counts.swap (.inr r') (.inr r)
  rw [Equiv.comp_swap_eq_update, vectors_of_router free, vectors_of_router here] at swapped
  let s₁ : Sharing β ρ α := { s with routers := Function.update s.routers r (some { valid := valid }) }
  have left : s₁.vectors = Function.update s.vectors (.inr r) [] := vectors_router _
  have moved := vectors_router (s := s₁) (r := r') (some router)
  rw [left] at moved
  refine ⟨⟨moved.symm ▸ swapped, ?_, owned.fault⟩, le_rfl, fun _ _ _ => id⟩
  refine built_update (built_update owned.built fun empty is => ?_) fun _ is => ?_
  · exact Or.inr ⟨valid, (Option.some.inj is).symm⟩
  · exact Option.some.inj is ▸ owned.built r router here

end Objects

/-- A call keeps every controller that somebody owns. -/
theorem Owned.act (owned : s.Owned pcre) {call : SharingCall β ρ α} (other : ¬ s.MountsItself call)
    (acted : s.act pcre call = some s') : Kept pcre s s' := by
  have counts := owned.counts
  cases call with
  | builder b =>
    rw [Sharing.act] at acted
    split at acted
    · cases acted
    · rename_i free
      obtain rfl := Option.some.inj acted
      refine owned.setBuilder _ le_rfl (fun _ _ _ => id) ?_
      have idle : s.vectors (.inl b) = [] := vectors_of_builder free
      have same : Function.update s.vectors (.inl b) [] = s.vectors := by
        rw [← idle, Function.update_eq_self]
      exact same.symm ▸ counts
  | add b mtd path ctrl =>
    obtain ⟨builder, here, rfl⟩ := Option.map_eq_some_iff.mp acted
    obtain ⟨value, counts'⟩ := counts.pushNew (.inl b) ctrl
    refine owned.setBuilder _ (Nat.le_succ _) (fun p v old there => ?_) ?_
    · rwa [value, Function.update_of_ne old.ne] at there
    · rw [vectors_of_builder here] at counts'
      have more : (builder.add mtd path s.memory.next).controllers =
          builder.controllers ++ [s.memory.next] := List.map_append
      rw [Option.map_some, Option.getD_some, more]
      exact counts'
  | addSubRoutes b pfx sub =>
    rw [Sharing.act] at acted
    split at acted
    · rename_i itself
      obtain ⟨builder, here, same⟩ := Option.map_eq_some_iff.mp acted
      rw [if_neg fun grows => other ⟨itself, grows.1, builder, here, grows.2⟩] at same
      exact same ▸ ⟨owned, .refl s⟩
    · obtain ⟨builder, here, acted⟩ := Option.bind_eq_some_iff.mp acted
      obtain ⟨subRoutes, there, rfl⟩ := Option.map_eq_some_iff.mp acted
      obtain ⟨m', retained, value, counts'⟩ := counts.append (.inl b)
        (if subRoutePattern pfx then subRoutes.controllers else []) fun p member => by
          refine ⟨.inl sub, ?_⟩
          rw [vectors_of_builder there]
          split_ifs at member
          · exact member
          · exact absurd member List.not_mem_nil
      rw [vectors_of_builder here] at counts'
      dsimp only
      rw [retained]
      refine owned.setBuilder _ (Memory.retainAll_next retained).ge (fun p v _ found => value ▸ found) ?_
      rw [Option.map_some, Option.getD_some, addSubRoutes_controllers]
      exact counts'
  | endBuilder b =>
    obtain ⟨builder, here, rfl⟩ := Option.map_eq_some_iff.mp acted
    obtain ⟨m', released, counts', value⟩ := counts.clear (.inl b)
    rw [vectors_of_builder here] at released
    change s.memory.releaseAll builder.controllers = some m' at released
    rw [released]
    exact owned.setBuilder none (Memory.releaseAll_next released).ge (fun p v _ => value p v) counts'
  | router r b pre =>
    rw [Sharing.act] at acted
    split at acted
    · cases acted
    · rename_i free
      obtain ⟨builder, here, rfl⟩ := Option.map_eq_some_iff.mp acted
      obtain ⟨m, shared, kept⟩ := owned.build here free pre
      dsimp only
      rw [shared]
      exact kept
  | move r r' valid =>
    rw [Sharing.act] at acted
    split at acted
    · cases acted
    · rename_i free
      obtain ⟨router, here, rfl⟩ := Option.map_eq_some_iff.mp acted
      exact owned.move here free valid
  | endRouter r =>
    obtain ⟨router, here, rfl⟩ := Option.map_eq_some_iff.mp acted
    obtain ⟨m', released, counts', value⟩ := counts.clear (.inr r)
    rw [vectors_of_router here] at released
    change s.memory.releaseAll router.controllers = some m' at released
    rw [released]
    exact owned.setRouter none (Memory.releaseAll_next released).ge (fun p v _ => value p v) counts'
      (fun _ none => by cases none)

/-- A call goes wrong exactly where a builder with routes is mounted into itself. -/
theorem Owned.fault_iff (owned : s.Owned pcre) {call : SharingCall β ρ α}
    (acted : s.act pcre call = some s') : s'.fault = true ↔ s.MountsItself call := by
  constructor
  · intro fault
    by_contra other
    exact absurd (fault.symm.trans (owned.act other acted).owned.fault) (by decide)
  · intro itself
    cases call with
    | addSubRoutes b pfx sub =>
      obtain ⟨rfl, accepted, builder, here, routes⟩ := itself
      rw [Sharing.act, if_pos rfl, here, Option.map_some, if_pos ⟨accepted, routes⟩] at acted
      exact Option.some.inj acted ▸ rfl
    | builder | add | endBuilder | router | move | endRouter => exact absurd itself id

theorem owned_of_reachable (reachable : (system pcre β ρ α).Reachable s) : s.Owned pcre := by
  have stable : (system pcre β ρ α).Stable (Owned pcre) := by
    rintro s s' - owned ⟨call, other, acted⟩
    exact (owned.act other acted).owned
  refine stable.reachable (fun s empty => ?_) reachable
  have idle : ∀ k, s.vectors k = [] := by
    rintro (b | r)
    · exact vectors_of_builder (empty.builders b)
    · exact vectors_of_router (empty.routers r)
  refine ⟨.empty empty.memory fun h => ?_, fun r router here => ?_, empty.fault⟩
  · rw [slots, idle]
    rfl
  · exact absurd ((empty.routers r).symm.trans here) (by simp)

theorem continues_of_run (reachable : (system pcre β ρ α).Reachable s)
    (run : (system pcre β ρ α).Run s s') : Continues s s' := by
  induction run with
  | refl => exact .refl s
  | tail run step ih =>
    obtain ⟨call, other, acted⟩ := step
    exact ih.trans ((owned_of_reachable (reachable.run run)).act other acted).continues

end Sharing

/-- No pointer to a controller is copied or released when the controller is gone.  The controllers in memory
are those that a builder or a router owns, the count of each is the number of its owners, and it stays as it
was made; what `forward` answers and what the trees of a router point to is one of them.  The only call that
goes wrong is to mount a builder with routes into itself. -/
theorem controllers_shared [DecidableEq β] [DecidableEq ρ] {pcre : Pcre} {s : Sharing β ρ α}
    (reachable : (Sharing.system pcre β ρ α).Reachable s) :
    s.fault = false ∧
      (∀ p data, s.memory.block p = some data →
        ∃ ctrl, data = [⟨(holders (slots s.vectors) p).ncard, ctrl⟩]) ∧
      (∀ p, (s.memory.block p).isSome ↔
        (∃ b builder, s.builders b = some builder ∧ p ∈ builder.controllers) ∨
          ∃ r router, s.routers r = some router ∧ p ∈ router.controllers) ∧
      (∀ r router m, s.routers r = some router →
        (∀ path params p, (router.forward pcre m path params).ctrl = some p → (s.memory.block p).isSome) ∧
          ∀ π p, (π, p) ∈ router.entries m → (s.memory.block p).isSome) ∧
      (∀ s' p ctrl, (Sharing.system pcre β ρ α).Run s s' → p < s.memory.next →
        s'.memory.value p = some ctrl → s.memory.value p = some ctrl) ∧
      ∀ call s', s.act pcre call = some s' → (s'.fault = true ↔ s.MountsItself call) := by
  have owned := Sharing.owned_of_reachable reachable
  have counts := owned.counts
  have alive : ∀ p, (s.memory.block p).isSome ↔
      (∃ b builder, s.builders b = some builder ∧ p ∈ builder.controllers) ∨
        ∃ r router, s.routers r = some router ∧ p ∈ router.controllers := by
    intro p
    rw [counts.block, Option.isSome_map, counts.held]
    refine exists_slot.trans (Sum.exists.trans (or_congr ?_ ?_))
    · exact exists_congr fun b => Sharing.mem_controllers
    · exact exists_congr fun r => Sharing.mem_controllers
  refine ⟨owned.fault, fun p data block => ?_, alive, fun r router m here => ?_,
    fun s' p ctrl run old there => ?_, fun call s' acted => owned.fault_iff acted⟩
  · rw [counts.block] at block
    obtain ⟨ctrl, -, rfl⟩ := Option.map_eq_some_iff.mp block
    exact ⟨ctrl, rfl⟩
  · have kept : ∀ p, p ∈ router.controllers → (s.memory.block p).isSome :=
      fun p member => (alive p).mpr (Or.inr ⟨r, router, here, member⟩)
    rcases owned.built r router here with ⟨pre, builder, rfl⟩ | ⟨valid, rfl⟩
    · exact ⟨fun path params p answer => kept p (forward_owned pcre pre builder answer),
        fun π p stored => kept p ((buildTree_owns pcre pre builder p).mpr ⟨m, π, stored⟩)⟩
    · refine ⟨fun path params p answer => ?_, fun π p stored => ?_⟩
      · cases answer
      have none : ((({ valid := valid } : Router ℕ).entries m)) = ∅ := entries_empty
      exact absurd (none ▸ stored) (Set.notMem_empty _)
  · exact (Sharing.continues_of_run reachable run).value p ctrl old there

/-! ### A refused route -/

/-- Some calls, one after the other. -/
def Sharing.acts [DecidableEq β] [DecidableEq ρ] (pcre : Pcre) :
    List (SharingCall β ρ α) → Sharing β ρ α → Option (Sharing β ρ α)
  | [], s => some s
  | call :: calls, s => (s.act pcre call).bind (Sharing.acts pcre calls)

theorem Sharing.run_of_acts [DecidableEq β] [DecidableEq ρ] {pcre : Pcre} {calls : List (SharingCall β ρ α)}
    {s s' : Sharing β ρ α} (apart : ∀ b pfx, .addSubRoutes b pfx b ∉ calls)
    (acted : s.acts pcre calls = some s') : (system pcre β ρ α).Run s s' := by
  induction calls generalizing s with
  | nil =>
    obtain rfl := Option.some.inj acted
    exact .refl
  | cons call calls ih =>
    obtain ⟨s₁, first, acted⟩ := Option.bind_eq_some_iff.mp acted
    have other : ¬ s.MountsItself call := by
      intro itself
      cases call with
      | addSubRoutes b pfx sub => exact apart b pfx (itself.1 ▸ List.mem_cons_self)
      | builder | add | endBuilder | router | move | endRouter => exact itself
    have later := ih (fun b pfx member => apart b pfx (List.mem_cons_of_mem _ member)) acted
    exact .head ⟨call, other, first⟩ later

/-- Two routes for one path are mounted, built and destroyed with their builders. -/
def refusedSecond : List (SharingCall Bool Unit ℕ) :=
  [.builder false, .add false .GET "/a".toList 10, .add false .GET "/a".toList 20, .builder true,
    .addSubRoutes true "/v1".toList false, .router () true [], .endBuilder true, .endBuilder false]

/-- The controller of the refused route goes with the builders, and the other one is served. -/
theorem controllers_shared_refused : ∃ s : Sharing Bool Unit ℕ, s.fault = false ∧
    (s.memory.block 0).isSome ∧ ¬ (s.memory.block 1).isSome := by
  let start : Sharing Bool Unit ℕ := ⟨⟨fun _ => none, 0⟩, fun _ => none, fun _ => none, false⟩
  have run : (start.acts anyPcre refusedSecond).map (fun s =>
      ((s.builders true).isSome, (s.builders false).isSome, (s.routers ()).map Router.controllers)) =
        some (false, false, some [0]) := by decide +kernel
  obtain ⟨s, acted, seen⟩ := Option.map_eq_some_iff.mp run
  obtain ⟨noBuilder, seen⟩ := Prod.mk.inj seen
  obtain ⟨noSub, served⟩ := Prod.mk.inj seen
  have reachable : (Sharing.system anyPcre Bool Unit ℕ).Reachable s :=
    ⟨start, ⟨fun _ => rfl, fun _ => rfl, fun _ => rfl, rfl⟩,
      Sharing.run_of_acts (by simp [refusedSecond]) acted⟩
  obtain ⟨sound, -, owned, -⟩ := controllers_shared reachable
  obtain ⟨router, here, controllers⟩ := Option.map_eq_some_iff.mp served
  refine ⟨s, sound, (owned 0).mpr (Or.inr ⟨(), router, here, by simp [controllers]⟩), fun alive => ?_⟩
  rcases (owned 1).mp alive with ⟨b, builder, there, -⟩ | ⟨r, router', there, member⟩
  · cases b with
    | false => simp [there] at noSub
    | true => simp [there] at noBuilder
  · obtain rfl := Option.some.inj (here.symm.trans there)
    simp [controllers] at member

end Cppmhd
