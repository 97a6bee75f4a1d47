import Cppmhd.Http.Server
import Cppmhd.Heap.Ownership
import Cppmhd.Runs.Refinement

/-!
# Connection objects in memory

`*con_cls` points to a connection object that `MHDconnectionCB` allocates in the first call of a
request and `connectionFinishCB` deletes.  All connections share one memory.  `server_objects` says
that no call reads a deleted object, that none is deleted twice or left behind, and that the server
does what it does with an object of its own in every request.
-/

open Runs Heap

namespace Cppmhd

variable {σ Ctrl P Resp : Type}

/-- The state of user code, and the memory with the connection objects. -/
structure Process (σ Ctrl P Resp : Type) where
  user : σ
  memory : Memory (ConnectionObject Ctrl P Resp)

/-- The connection object behind `*con_cls`, if any.  What is not allocated cannot be read. -/
def deref (memory : Memory (ConnectionObject Ctrl P Resp)) :
    Option ℕ → Option (Option (ConnectionObject Ctrl P Resp))
  | none => some none
  | some b =>
    match memory.block b with
    | some [co] => some (some co)
    | _ => none

/-- The memory and `*con_cls` behind a call: `new ConnectionObject`, or what the call makes of the
object that it found. -/
def write (memory : Memory (ConnectionObject Ctrl P Resp)) :
    Option ℕ → Option (ConnectionObject Ctrl P Resp) →
      Memory (ConnectionObject Ctrl P Resp) × Option ℕ
  | con_cls, none => (memory, con_cls)
  | none, some co => (memory.alloc [co], some memory.next)
  | some b, some co => (memory.store b [co], some b)

/-- `delete req` of `connectionFinishCB`. -/
def release (memory : Memory (ConnectionObject Ctrl P Resp)) :
    Option ℕ → Memory (ConnectionObject Ctrl P Resp)
  | none => memory
  | some b => memory.delete b

/-- A request with this connection object. -/
def Slot.with {C : Type} (slot : Slot ℕ P Resp) (con_cls : Option C) : Slot C P Resp :=
  ⟨slot.request, con_cls, slot.events, slot.started, slot.remaining, slot.calls⟩

/-- The request behind a call that leaves this pointer. -/
def Slot.point (slot : Slot ℕ P Resp) (e : Exchange σ Ctrl P Resp) (con_cls : Option ℕ) :
    Slot ℕ P Resp :=
  ⟨slot.request, con_cls, e.events, e.started, e.remaining, slot.calls + 1⟩

section Steps

variable (pcre : Pcre) (app : Application σ Ctrl P Resp)

/-- What can happen on a connection, with the connection objects in memory. -/
inductive ObjectStep : Process σ Ctrl P Resp → Option (Slot ℕ P Resp) → Process σ Ctrl P Resp →
    Option (Slot ℕ P Resp) → Prop
  | receive {p : Process σ Ctrl P Resp} (i : Incoming) : ObjectStep p none p (some { request := i })
  | call {p : Process σ Ctrl P Resp} {slot : Slot ℕ P Resp}
      {con_cls : Option (ConnectionObject Ctrl P Resp)} {e : Exchange σ Ctrl P Resp}
      (found : deref p.memory slot.con_cls = some con_cls)
      (step : MHDStep pcre app.toHttpImplement slot.request ((slot.with con_cls).exchange p.user) e) :
      ObjectStep p (some slot) ⟨e.user, (write p.memory slot.con_cls e.con_cls).1⟩
        (some (slot.point e (write p.memory slot.con_cls e.con_cls).2))
  | finish {p : Process σ Ctrl P Resp} {slot : Slot ℕ P Resp}
      {con_cls : Option (ConnectionObject Ctrl P Resp)} (started : slot.started = true)
      (found : deref p.memory slot.con_cls = some con_cls) :
      ObjectStep p (some slot)
        ⟨connectionFinishCB app con_cls p.user, release p.memory slot.con_cls⟩ none
  | lost {p : Process σ Ctrl P Resp} {slot : Slot ℕ P Resp} (fresh : slot.started = false) :
      ObjectStep p (some slot) p none

/-- The server with these connections, whose memory is empty at first. -/
def objectServer (ι : Type) [DecidableEq ι] (init : σ → Prop) :
    System (Joint ι (Process σ Ctrl P Resp) (Option (Slot ℕ P Resp))) :=
  interleaved ι (fun p => init p.user ∧ ∀ b, p.memory.block b = none)
    ⟨fun own => own = none, ObjectStep pcre app⟩

end Steps

/-! ## Every request has its object -/

/-- The block behind a pointer. -/
def pointee (con_cls : Option ℕ) : Set ℕ := {b | con_cls = some b}

theorem pointee_none : pointee none = ∅ := by
  ext b
  simp [pointee]

/-- The connection object of a request. -/
def objects : Option (Slot ℕ P Resp) → Set ℕ
  | none => ∅
  | some slot => pointee slot.con_cls

/-- A request points to a connection object, and to none before its first call. -/
structure Pointed (p : Process σ Ctrl P Resp) (own : Option (Slot ℕ P Resp)) : Prop where
  object : ∀ b ∈ objects own, ∃ co, p.memory.block b = some [co]
  fresh : ∀ slot, own = some slot → slot.started = false → slot.con_cls = none

section Owners

variable {pcre : Pcre} {app : Application σ Ctrl P Resp}
  {memory memory' : Memory (ConnectionObject Ctrl P Resp)} {con_cls : Option ℕ}

theorem deref_isSome (pointed : ∀ b ∈ pointee con_cls, ∃ co, memory.block b = some [co]) :
    (deref memory con_cls).isSome := by
  cases con_cls with
  | none => rfl
  | some b =>
    obtain ⟨co, here⟩ := pointed b rfl
    rw [deref, here]
    rfl

theorem deref_congr (same : ∀ b ∈ pointee con_cls, memory'.block b = memory.block b) :
    deref memory' con_cls = deref memory con_cls := by
  cases con_cls with
  | none => rfl
  | some b => rw [deref, deref, same b rfl]

/-- Only the null pointer has no object. -/
theorem deref_none (found : deref memory con_cls = some none) : con_cls = none := by
  cases con_cls with
  | none => rfl
  | some b =>
    unfold deref at found
    dsimp only at found
    split at found
    · exact absurd (Option.some.inj found) (by simp)
    · exact absurd found (by simp)

/-- What is read is what was written. -/
theorem deref_write {co : Option (ConnectionObject Ctrl P Resp)}
    (kept : co = none → con_cls = none) :
    deref (write memory con_cls co).1 (write memory con_cls co).2 = some co := by
  cases co with
  | none =>
    rw [kept rfl]
    rfl
  | some co =>
    cases con_cls with
    | none => simp [write, deref]
    | some b => simp [write, deref]

/-- What a call leaves in `*con_cls` points to an object. -/
theorem write_pointed (pointed : ∀ b ∈ pointee con_cls, ∃ co, memory.block b = some [co])
    (next : Option (ConnectionObject Ctrl P Resp)) : ∀ b ∈ pointee (write memory con_cls next).2,
      ∃ co, (write memory con_cls next).1.block b = some [co] := by
  intro b here
  cases next with
  | none => cases con_cls <;> exact pointed b here
  | some co =>
    cases con_cls with
    | none =>
      obtain rfl := Option.some.inj here
      exact ⟨co, Memory.alloc_self⟩
    | some c =>
      obtain rfl := Option.some.inj here
      exact ⟨co, Memory.store_self⟩

theorem write_hands (fresh : memory.Fresh) (live : ∀ b ∈ pointee con_cls, (memory.block b).isSome)
    (co : Option (ConnectionObject Ctrl P Resp)) :
    Memory.Hands memory (write memory con_cls co).1 (pointee con_cls)
      (pointee (write memory con_cls co).2) := by
  cases co with
  | none => cases con_cls <;> exact .refl fresh live
  | some co =>
    cases con_cls with
    | none =>
      have hands : Memory.Hands memory (memory.alloc [co]) (pointee none)
          (insert memory.next (pointee none)) := .alloc fresh live [co]
      have own : pointee (some memory.next) = insert memory.next (pointee none) := by
        ext b
        simp [pointee, eq_comm]
      rwa [← own] at hands
    | some b => exact .store fresh live rfl [co]

theorem release_hands (fresh : memory.Fresh)
    (live : ∀ b ∈ pointee con_cls, (memory.block b).isSome) :
    Memory.Hands memory (release memory con_cls) (pointee con_cls) ∅ := by
  cases con_cls with
  | none => exact pointee_none ▸ .refl fresh live
  | some b =>
    have hands : Memory.Hands memory (memory.delete b) (pointee (some b)) (pointee (some b) \ {b}) :=
      .delete fresh live rfl
    have none : pointee (some b) \ {b} = ∅ := by
      ext c
      simp [pointee]
    rwa [none] at hands

/-- A call does not lose the connection object. -/
theorem MHDStep.object {http : HttpImplement σ Ctrl P Resp} {i : Incoming}
    {e e' : Exchange σ Ctrl P Resp} (step : MHDStep pcre http i e e') (lost : e'.con_cls = none) :
    e.con_cls = none := by
  have kept : ∀ data left c, i.call pcre http data e.toConnection = some (left, c) →
      c.con_cls = none → e.con_cls = none := by
    intro data left c returned lost
    cases object : e.con_cls with
    | none => rfl
    | some co =>
      unfold Incoming.call MHDconnectionCB at returned
      rw [object] at returned
      obtain ⟨r, -, same⟩ := Option.map_eq_some_iff.mp returned
      obtain ⟨-, rfl⟩ := Prod.mk.inj same
      cases lost
  cases step with
  | first _ returned => exact kept _ _ _ returned lost
  | later _ _ _ returned => exact kept _ _ _ returned lost

/-- Every step keeps to the object of its request. -/
theorem objects_kept : KeepsTo ⟨fun own => own = none, ObjectStep pcre app⟩
    (Process.memory : Process σ Ctrl P Resp → _) objects Pointed := by
  constructor
  · rintro p _ rfl
    exact ⟨rfl, fun b own => absurd own (Set.notMem_empty b), fun slot here => by cases here⟩
  · intro p own p' own' fresh live pointed step
    cases step with
    | receive i =>
      have nothing : objects (some ({ request := i } : Slot ℕ P Resp)) = ∅ := pointee_none
      refine ⟨?_, fun b here => ?_, fun slot here _ => ?_⟩
      · rw [nothing]
        exact .refl fresh live
      · rw [nothing] at here
        exact absurd here (Set.notMem_empty b)
      · rw [← Option.some.inj here]
        rfl
    | @call slot con_cls e found step =>
      refine ⟨write_hands fresh live e.con_cls, write_pointed pointed.object e.con_cls,
        fun slot' here old => ?_⟩
      rw [← Option.some.inj here] at old
      exact absurd (step.started.symm.trans old) (by simp)
    | finish started found =>
      refine ⟨release_hands fresh live, fun b own => absurd own (Set.notMem_empty b), fun slot here => ?_⟩
      cases here
    | @lost slot unstarted =>
      have nothing : objects (some slot) = ∅ := by
        rw [objects, pointed.fresh slot rfl unstarted, pointee_none]
      refine ⟨?_, fun b own => absurd own (Set.notMem_empty b), fun slot here => by cases here⟩
      rw [nothing] at live ⊢
      exact .refl fresh live
  · intro p p' own pointed same
    refine ⟨fun b here => ?_, pointed.fresh⟩
    rw [same b here]
    exact pointed.object b here

/-! ## The same server without a memory -/

/-- The request with the object that it points to. -/
def Process.view (p : Process σ Ctrl P Resp) (own : Option (Slot ℕ P Resp)) :
    Option (Slot (ConnectionObject Ctrl P Resp) P Resp) :=
  own.map fun slot => slot.with ((deref p.memory slot.con_cls).getD none)

/-- All requests with the objects that they point to. -/
def viewAll {ι : Type} (s : Joint ι (Process σ Ctrl P Resp) (Option (Slot ℕ P Resp))) :
    Joint ι σ (Option (Slot (ConnectionObject Ctrl P Resp) P Resp)) :=
  ⟨s.shared.user, fun c => s.shared.view (s.own c)⟩

theorem view_some {p : Process σ Ctrl P Resp} {slot : Slot ℕ P Resp}
    {con_cls : Option (ConnectionObject Ctrl P Resp)}
    (found : deref p.memory slot.con_cls = some con_cls) :
    p.view (some slot) = some (slot.with con_cls) := by
  rw [Process.view, Option.map_some, found]
  rfl

/-- The view of a request behind a call. -/
theorem view_point {p : Process σ Ctrl P Resp} {slot : Slot ℕ P Resp}
    {con_cls : Option (ConnectionObject Ctrl P Resp)} {e : Exchange σ Ctrl P Resp}
    (found : deref p.memory slot.con_cls = some con_cls)
    (step : MHDStep pcre app.toHttpImplement slot.request ((slot.with con_cls).exchange p.user) e) :
    (⟨e.user, (write p.memory slot.con_cls e.con_cls).1⟩ : Process σ Ctrl P Resp).view
      (some (slot.point e (write p.memory slot.con_cls e.con_cls).2)) =
        some ((slot.with con_cls).after e) := by
  have kept : e.con_cls = none → slot.con_cls = none := by
    intro lost
    obtain rfl : con_cls = none := step.object lost
    exact deref_none found
  exact view_some (deref_write kept)

/-- Seen without the memory, a connection does what it does with an object of its own. -/
theorem ObjectStep.view {p p' : Process σ Ctrl P Resp} {own own' : Option (Slot ℕ P Resp)}
    (step : ObjectStep pcre app p own p' own') :
    ConnectionStep pcre app p.user (p.view own) p'.user (p'.view own') := by
  cases step with
  | receive i => exact .receive i
  | call found step =>
    rw [view_some found, view_point found step]
    exact .call step
  | finish started found =>
    rw [view_some found]
    exact .finish started
  | lost fresh => exact .lost fresh

/-- What a connection can do with an object of its own, it can do in memory. -/
theorem ConnectionStep.lift {p : Process σ Ctrl P Resp} {own : Option (Slot ℕ P Resp)} {user : σ}
    {own' : Option (Slot (ConnectionObject Ctrl P Resp) P Resp)} (pointed : Pointed p own)
    (step : ConnectionStep pcre app p.user (p.view own) user own') :
    ∃ p' own'', ObjectStep pcre app p own p' own'' ∧ p'.user = user ∧ p'.view own'' = own' := by
  cases own with
  | none =>
    cases step with
    | receive i => exact ⟨p, _, .receive i, rfl, rfl⟩
  | some slot =>
    obtain ⟨con_cls, found⟩ := Option.isSome_iff_exists.mp (deref_isSome pointed.object)
    rw [view_some found] at step
    cases step with
    | call step => exact ⟨_, _, .call found step, rfl, view_point found step⟩
    | finish started => exact ⟨_, _, .finish started found, rfl, rfl⟩
    | lost fresh => exact ⟨p, none, .lost fresh, rfl, rfl⟩

end Owners

section Servers

variable {pcre : Pcre} {app : Application σ Ctrl P Resp} {ι : Type} [DecidableEq ι] {init : σ → Prop}
  {s : Joint ι (Process σ Ctrl P Resp) (Option (Slot ℕ P Resp))}

theorem objects_divided (reachable : (objectServer pcre app ι init).Reachable s) :
    Divided s.shared.memory (fun c => objects (s.own c)) ∧ ∀ c, Pointed s.shared (s.own c) :=
  objects_kept.reachable (fun _ start => start.2) reachable

/-- A step on one connection leaves the view of the others as it is. -/
theorem view_update {p' : Process σ Ctrl P Resp} {own' : Option (Slot ℕ P Resp)} {c : ι}
    (reachable : (objectServer pcre app ι init).Reachable s)
    (step : ObjectStep pcre app s.shared (s.own c) p' own') :
    viewAll ⟨p', Function.update s.own c own'⟩ =
      ⟨p'.user, Function.update (viewAll s).own c (p'.view own')⟩ := by
  obtain ⟨divided, pointed⟩ := objects_divided reachable
  have hands := (objects_kept.step divided.fresh (fun b own => divided.own_live own) (pointed c)
    step).1
  have others : (fun d => p'.view (Function.update s.own c own' d)) =
      Function.update (fun d => s.shared.view (s.own d)) c (p'.view own') := by
    funext d
    by_cases same : d = c
    · subst same
      rw [Function.update_self, Function.update_self]
    · rw [Function.update_of_ne same, Function.update_of_ne same]
      cases here : s.own d with
      | none => rfl
      | some slot =>
        have kept : deref p'.memory slot.con_cls = deref s.shared.memory slot.con_cls := by
          refine deref_congr fun b own => divided.frame hands same ?_
          rw [here]
          exact own
        rw [Process.view, Process.view, Option.map_some, Option.map_some, kept]
  exact congrArg (Joint.mk p'.user) others

theorem objectServer_implements :
    Implements (objectServer pcre app ι init) (server pcre app ι init) viewAll := by
  constructor
  · intro s first
    refine ⟨first.1.1, fun c => ?_⟩
    have none : s.own c = none := first.2 c
    show s.shared.view (s.own c) = .none
    rw [none]
    rfl
  · intro t first
    refine ⟨⟨⟨t.shared, ⟨fun _ => none, 0⟩⟩, fun _ => none⟩, ⟨⟨first.1, fun _ => rfl⟩, fun _ => rfl⟩, ?_⟩
    obtain ⟨user, own⟩ := t
    have none : own = fun _ => .none := funext first.2
    rw [none]
    rfl
  · rintro s ⟨p', own'⟩ reachable ⟨c, own, step, next⟩
    obtain rfl : own' = _ := next
    refine ⟨c, p'.view own, ?_, ?_⟩
    · exact step.view
    · rw [view_update reachable step]
  · rintro s ⟨user, own'⟩ reachable ⟨c, own, step, next⟩
    obtain rfl : own' = _ := next
    have step : ConnectionStep pcre app s.shared.user (s.shared.view (s.own c)) user own := step
    obtain ⟨p', own'', lifted, rfl, rfl⟩ := step.lift ((objects_divided reachable).2 c)
    exact ⟨⟨p', Function.update s.own c own''⟩, ⟨c, own'', lifted, rfl⟩, view_update reachable lifted⟩

/-- The connection objects in memory are those of the requests, one for each; every call finds the
object of its request, and so does the end of the request, which deletes it; and the server does what
it does with an object of its own in every request. -/
theorem server_objects (reachable : (objectServer pcre app ι init).Reachable s) :
    (∀ b, (s.shared.memory.block b).isSome ↔ ∃ c slot, s.own c = some slot ∧ slot.con_cls = some b) ∧
      (∀ c c' slot slot' b, s.own c = some slot → s.own c' = some slot' → slot.con_cls = some b →
        slot'.con_cls = some b → c = c') ∧
      (∀ c slot, s.own c = some slot → (deref s.shared.memory slot.con_cls).isSome) ∧
      (server pcre app ι init).Reachable (viewAll s) ∧
      ∀ t, (server pcre app ι init).step (viewAll s) t →
        ∃ s', (objectServer pcre app ι init).step s s' ∧ viewAll s' = t := by
  obtain ⟨divided, pointed⟩ := objects_divided reachable
  refine ⟨fun b => ?_, ?_, fun c slot busy => ?_, objectServer_implements.reachable reachable,
    fun t step => objectServer_implements.lift _ _ reachable step⟩
  · rw [divided.live]
    constructor
    · rintro ⟨c, own⟩
      cases busy : s.own c with
      | none =>
        rw [busy] at own
        exact absurd own (Set.notMem_empty b)
      | some slot =>
        rw [busy] at own
        exact ⟨c, slot, busy, own⟩
    · rintro ⟨c, slot, busy, own⟩
      refine ⟨c, ?_⟩
      rw [busy]
      exact own
  · intro c c' slot slot' b busy busy' own own'
    refine divided.apart c c' b ?_ ?_
    · rw [busy]
      exact own
    · rw [busy']
      exact own'
  · have here := pointed c
    rw [busy] at here
    exact deref_isSome here.object

theorem server_objects_turns :
    ∃ (s : Joint Bool (Process Unit ℕ ℕ ℕ) (Option (Slot ℕ ℕ ℕ))) (slot : Slot ℕ ℕ ℕ),
      s.own true = some slot ∧ slot.calls = 5 ∧ (deref s.shared.memory slot.con_cls).isSome := by
  obtain ⟨t, below, slot, busy, calls⟩ :
      ∃ s, (server anyPcre uploadApplication Bool fun _ => True).Reachable s ∧
        ∃ slot, s.own true = some slot ∧ slot.calls = 5 :=
    serve_run turns () trivial (by decide +kernel)
  obtain ⟨s, reachable, rfl⟩ := objectServer_implements.lift_reachable below
  obtain ⟨slot', busy', rfl⟩ := Option.map_eq_some_iff.mp busy
  exact ⟨s, slot', busy', calls, (server_objects reachable).2.2.1 true slot' busy'⟩

end Servers

end Cppmhd
