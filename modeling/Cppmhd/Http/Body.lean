import Cppmhd.Heap.Memory
import Cppmhd.Http.Response
import Cppmhd.Runs.System

/-!
# The body of a response

The body of an `HttpResponse` is a pointer with a size and a flag: the response owns what
`dumpMemory` copied, and uses a persistent buffer of its handler in place.  Here the calls of `body` act
on a memory that the handler uses too.  `last_body_wins` says what `createResponse` hands to MHD after any
history, and that every copy is deleted once.
-/

open Heap Runs

namespace Cppmhd

/-! ## The last body -/

/-- The size and the bytes of a body that is not empty, and whether it is to be copied. -/
def ResponseCall.given : ResponseCall → Option (ℕ × Str × Bool)
  | .bodyData size (some bytes) persistent =>
    if size = 0 then none else some (size, bytes.take size, !persistent)
  | .bodyString data => if data.length = 0 then none else some (data.length, data, true)
  | .bodyData _ none _ | .assign _ _ | .header _ _ | .status _ => none

/-- The last body that is not empty. -/
def lastBody (calls : List ResponseCall) : ℕ × Str × Bool :=
  ((calls.filterMap ResponseCall.given).getLast?).getD (0, [], false)

theorem lastBody_append (calls : List ResponseCall) (c : ResponseCall) :
    lastBody (calls ++ [c]) = c.given.getD (lastBody calls) := by
  unfold lastBody
  rw [List.filterMap_append]
  cases given : c.given with
  | none => simp [given]
  | some body => simp [given]

/-- What MHD reads of a body. -/
def HttpResponse.visible (r : HttpResponse) : ℕ × Str × Bool :=
  (r.body.1, (r.body.2.1.getD []).take r.body.1, r.body.2.2)

theorem bodyData_visible (r : HttpResponse) (size : ℕ) (data : Option Str) (persistent : Bool) :
    (r.bodyData size data persistent).visible =
      (ResponseCall.bodyData size data persistent).given.getD r.visible := by
  cases data with
  | none => rfl
  | some bytes =>
    by_cases empty : size = 0
    · simp [HttpResponse.bodyData, ResponseCall.given, empty]
    · cases persistent <;> simp [HttpResponse.bodyData, HttpResponse.visible, ResponseCall.given, empty]

theorem call_visible (r : HttpResponse) (c : ResponseCall) :
    (r.call c).visible = c.given.getD r.visible := by
  cases c with
  | assign | header | status => rfl
  | bodyData size data persistent => exact bodyData_visible r size data persistent
  | bodyString data =>
    have same : (ResponseCall.bodyString data).given =
        (ResponseCall.bodyData data.length (some data) false).given := by
      simp [ResponseCall.given]
    rw [same]
    exact bodyData_visible r data.length (some data) false

/-- A response whose body is a value has the last body that is not empty. -/
theorem calls_visible (calls : List ResponseCall) :
    (HttpResponse.calls calls).visible = lastBody calls := by
  induction calls using List.reverseRecOn with
  | nil => rfl
  | append_singleton calls c ih =>
    rw [lastBody_append, ← ih, ← call_visible, HttpResponse.calls, HttpResponse.calls, List.foldl_append]
    rfl

/-! ## The source -/

/-- The body of source `HttpResponse` in memory, with the blocks that `dumpMemory` returned, those that
`clearBody` deleted, and the calls so far. -/
structure Stored where
  memory : Memory Char
  body : ℕ × Option Pointer × Bool := (0, none, false)
  copies : List ℕ := []
  deleted : List ℕ := []
  calls : List ResponseCall := []

namespace Stored

/-- A copy of these bytes. -/
def copied (s : Stored) (bytes : Str) : Stored :=
  { s with memory := s.memory.alloc bytes, copies := s.copies ++ [s.memory.next] }

/-- Source `dumpMemory`; what is not allocated cannot be read. -/
def dumpMemory (s : Stored) (data : Pointer) (size : ℕ) : Option (Pointer × Stored) :=
  (s.memory.read data size).map fun bytes => (⟨s.memory.next, 0⟩, s.copied bytes)

/-- Source `HttpResponse::clearBody`; only a live block can be deleted, by the pointer to its begin. -/
def clearBody (s : Stored) : Option Stored :=
  if s.body.2.2 then
    match s.body.2.1 with
    | some p =>
      if p.offset = 0 ∧ (s.memory.block p.block).isSome then
        some { s with memory := s.memory.delete p.block, deleted := s.deleted ++ [p.block] }
      else none
    | none => some s
  else some s

/-- Source `HttpResponse::body(size, data, persistent)`. -/
def bodyData (s : Stored) (size : ℕ) (data : Option Pointer) (persistent : Bool) : Option Stored :=
  match data with
  | none => some s
  | some p =>
    if size = 0 then some s
    else do
      let (save, s) ← if persistent then some (p, s) else s.dumpMemory p size
      let s ← s.clearBody
      some { s with body := (size, some save, !persistent) }

/-- Source `HttpResponse::body(data)`, for a string whose characters are at `p`. -/
def bodyString (s : Stored) (p : Pointer) (length : ℕ) : Option Stored := s.bodyData length (some p) false

/-- What `createResponse` hands to `MHD_create_response_from_buffer`: the size, the bytes that MHD reads,
and whether MHD copies them. -/
def handed (s : Stored) : Option (ℕ × Str × Bool) :=
  match s.body with
  | (size, none, persis) => if size = 0 then some (0, [], persis) else none
  | (size, some p, persis) => (s.memory.read p size).map fun bytes => (size, bytes, persis)

/-- A call that the response has got. -/
def log (s : Stored) (c : ResponseCall) : Stored := { s with calls := s.calls ++ [c] }

/-! ## Runs -/

/-- The handler changes its memory.  It has no access to the copies, and leaves a buffer alone that it
passed as persistent. -/
structure Keeps (s : Stored) (m : Memory Char) : Prop where
  grows : s.memory.next ≤ m.next
  fresh : m.Fresh
  copies : ∀ b ∈ s.copies, m.block b = s.memory.block b
  buffer : ∀ p, s.body.2.1 = some p → m.block p.block = s.memory.block p.block

/-- What a handler passes with a size: allocated bytes, in a block of its own if they are persistent. -/
def Passes (s : Stored) (size : ℕ) (p : Pointer) (bytes : Str) (persistent : Bool) : Prop :=
  size = 0 ∨ (s.memory.read p size = some bytes ∧ (persistent = true → p.block ∉ s.copies))

theorem Passes.given {s : Stored} {size : ℕ} {p : Pointer} {bytes : Str} {persistent : Bool}
    (passes : s.Passes size p bytes persistent) :
    (ResponseCall.bodyData size (some bytes) persistent).given =
      if size = 0 then none else some (size, bytes, !persistent) := by
  rcases passes with empty | ⟨holds, -⟩
  · simp [ResponseCall.given, empty]
  · have whole : bytes.take size = bytes := List.take_of_length_le (Memory.of_read holds).2.le
    simp [ResponseCall.given, whole]

/-- The calls on one response, and what the handler does with its memory between them. -/
inductive Step : Stored → Stored → Prop
  | data {s s' : Stored} {size : ℕ} {p : Pointer} {bytes : Str} {persistent : Bool}
      (passes : s.Passes size p bytes persistent)
      (returned : s.bodyData size (some p) persistent = some s') :
      Step s (s'.log (.bodyData size (some bytes) persistent))
  | null {s s' : Stored} {size : ℕ} {persistent : Bool}
      (returned : s.bodyData size none persistent = some s') :
      Step s (s'.log (.bodyData size none persistent))
  | string {s s' : Stored} {p : Pointer} {bytes : Str}
      (passes : s.Passes bytes.length p bytes false)
      (returned : s.bodyString p bytes.length = some s') : Step s (s'.log (.bodyString bytes))
  | assign {s : Stored} (name value : Str) : Step s (s.log (.assign name value))
  | header {s : Stored} (name value : Str) : Step s (s.log (.header name value))
  | status {s : Stored} (sc : ℕ) : Step s (s.log (.status sc))
  | caller {s : Stored} {m : Memory Char} (keeps : s.Keeps m) : Step s { s with memory := m }

/-- A new response, and any memory. -/
def system : System Stored where
  init s := s.memory.Fresh ∧ s = { memory := s.memory }
  step := Step

/-! ## The invariant -/

/-- The copy that is not deleted yet. -/
def pending (s : Stored) : List ℕ :=
  if s.body.2.2 then (s.body.2.1.map Pointer.block).toList else []

/-- The body is the last one that is not empty, and owned if and only if it is a copy.  All other copies
are deleted. -/
structure Sound (s : Stored) : Prop where
  fresh : s.memory.Fresh
  allocated : ∀ b ∈ s.copies, b < s.memory.next
  distinct : s.copies.Nodup
  freed : s.copies = s.deleted ++ s.pending
  owned : s.body.2.2 = true → ∃ b, s.body.2.1 = some ⟨b, 0⟩ ∧ b ∈ s.copies
  foreign : s.body.2.2 = false → ∀ p, s.body.2.1 = some p → p.block ∉ s.copies
  held : (s.body = (0, none, false) ∧ lastBody s.calls = (0, [], false)) ∨
    ∃ p bytes, s.body.2.1 = some p ∧ s.memory.read p s.body.1 = some bytes ∧
      lastBody s.calls = (s.body.1, bytes, s.body.2.2)

/-- What `clearBody` does. -/
structure Cleared (s s' : Stored) : Prop where
  body : s'.body = s.body
  copies : s'.copies = s.copies
  calls : s'.calls = s.calls
  deleted : s'.deleted = s.deleted ++ s.pending
  next : s'.memory.next = s.memory.next
  others : ∀ b, b ∉ s.pending → s'.memory.block b = s.memory.block b
  fresh : s.memory.Fresh → s'.memory.Fresh

theorem clearBody_cleared {s : Stored} (deletable : s.body.2.2 = true →
    ∃ b, s.body.2.1 = some ⟨b, 0⟩ ∧ (s.memory.block b).isSome) :
    ∃ s', s.clearBody = some s' ∧ s.Cleared s' := by
  cases flag : s.body.2.2 with
  | false =>
    refine ⟨s, by simp [clearBody, flag], rfl, rfl, rfl, ?_, rfl, fun _ _ => rfl, id⟩
    simp [pending, flag]
  | true =>
    obtain ⟨b, here, live⟩ := deletable flag
    have only : s.pending = [b] := by simp [pending, flag, here]
    refine ⟨{ s with memory := s.memory.delete b, deleted := s.deleted ++ [b] },
      by simp [clearBody, flag, here, live], rfl, rfl, rfl, by rw [only], rfl, ?_, fun fresh => fresh.delete b⟩
    intro c other
    rw [only, List.mem_singleton] at other
    exact s.memory.delete_other other

/-- A new body, behind `clearBody`. -/
theorem Cleared.sound {s s' : Stored} (cleared : s.Cleared s') {size : ℕ} {save : Pointer}
    {owned : Bool} {bytes : Str} {c : ResponseCall} (given : c.given = some (size, bytes, owned))
    (fresh : s.memory.Fresh) (allocated : ∀ b ∈ s.copies, b < s.memory.next) (distinct : s.copies.Nodup)
    (freed : s.copies = s.deleted ++ s.pending ++ if owned then [save.block] else [])
    (own : if owned then save.offset = 0 else save.block ∉ s.copies) (kept : save.block ∉ s.pending)
    (holds : s.memory.read save size = some bytes) :
    Sound (log { s' with body := (size, some save, owned) } c) where
  fresh := cleared.fresh fresh
  allocated b member := by
    have member : b ∈ s'.copies := member
    show b < s'.memory.next
    rw [cleared.next]
    exact allocated b (cleared.copies ▸ member)
  distinct := by
    show s'.copies.Nodup
    rwa [cleared.copies]
  freed := by
    show s'.copies = s'.deleted ++ if owned then [save.block] else []
    rw [cleared.copies, cleared.deleted]
    exact freed
  owned flag := by
    have flag : owned = true := flag
    subst flag
    refine ⟨save.block, ?_, ?_⟩
    · show some save = _
      rw [← (own : save.offset = 0)]
    · show save.block ∈ s'.copies
      rw [cleared.copies, freed]
      exact List.mem_append_right _ (List.mem_singleton_self _)
  foreign flag p same := by
    have flag : owned = false := flag
    subst flag
    obtain rfl := Option.some.inj same
    show save.block ∉ s'.copies
    rw [cleared.copies]
    exact own
  held := by
    have last : lastBody (s'.calls ++ [c]) = (size, bytes, owned) := by
      rw [lastBody_append, given, Option.getD_some]
    refine Or.inr ⟨save, bytes, rfl, ?_, last⟩
    show s'.memory.read save size = some bytes
    rwa [Memory.read_congr (cleared.others _ kept)]

namespace Sound

variable {s : Stored} {size : ℕ} {p : Pointer} {bytes : Str} {c : ResponseCall}

theorem deletable (sound : s.Sound) (flag : s.body.2.2 = true) :
    ∃ b, s.body.2.1 = some ⟨b, 0⟩ ∧ (s.memory.block b).isSome := by
  obtain ⟨b, here, -⟩ := sound.owned flag
  rcases sound.held with ⟨empty, -⟩ | ⟨p, bytes, here', holds, -⟩
  · rw [empty] at flag
    exact absurd flag (by decide)
  · obtain rfl := Option.some.inj (here.symm.trans here')
    exact ⟨b, here, (Memory.of_read holds).1⟩

theorem pending_subset (sound : s.Sound) : ∀ b ∈ s.pending, b ∈ s.copies := by
  intro b member
  rw [sound.freed]
  exact List.mem_append_right _ member

/-- A persistent buffer takes the place of the body. -/
theorem persistent (sound : s.Sound) (given : c.given = some (size, bytes, false)) (positive : size ≠ 0)
    (holds : s.memory.read p size = some bytes) (own : p.block ∉ s.copies) :
    ∃ s', s.bodyData size (some p) true = some s' ∧ (s'.log c).Sound := by
  obtain ⟨s₁, done, cleared⟩ := clearBody_cleared sound.deletable
  refine ⟨{ s₁ with body := (size, some p, false) }, by simp [bodyData, positive, done], ?_⟩
  apply cleared.sound given sound.fresh sound.allocated sound.distinct _ _ _ holds
  · rw [if_neg Bool.false_ne_true, List.append_nil]
    exact sound.freed
  · rwa [if_neg Bool.false_ne_true]
  · exact fun member => own (sound.pending_subset _ member)

/-- A copy takes the place of the body.  The data is copied before the old body is deleted. -/
theorem copy (sound : s.Sound) (given : c.given = some (size, bytes, true)) (positive : size ≠ 0)
    (holds : s.memory.read p size = some bytes) :
    ∃ s', s.bodyData size (some p) false = some s' ∧ (s'.log c).Sound := by
  have older : ∀ b ∈ s.copies, b ≠ s.memory.next := fun b member => (sound.allocated b member).ne
  obtain ⟨s₁, done, cleared⟩ := @clearBody_cleared (s.copied bytes) fun flag => by
    obtain ⟨b, here, live⟩ := sound.deletable flag
    refine ⟨b, here, ?_⟩
    show ((s.memory.alloc bytes).block b).isSome
    rwa [s.memory.alloc_other bytes (sound.fresh.lt_next live).ne]
  refine ⟨{ s₁ with body := (size, some ⟨s.memory.next, 0⟩, true) },
    by simp [bodyData, positive, dumpMemory, holds, done], ?_⟩
  apply cleared.sound given (sound.fresh.alloc bytes)
  · intro b member
    show b < s.memory.next + 1
    rcases List.mem_append.mp member with old | new
    · exact Nat.lt_succ_of_lt (sound.allocated b old)
    · rw [List.mem_singleton.mp new]
      exact Nat.lt_succ_self _
  · refine List.nodup_append.mpr ⟨sound.distinct, List.nodup_singleton _, ?_⟩
    rintro b old _ new rfl
    exact older b old (List.mem_singleton.mp new)
  · exact congrArg (· ++ [s.memory.next]) sound.freed
  · rfl
  · exact fun member => older _ (sound.pending_subset _ member) rfl
  · show (s.memory.alloc bytes).read ⟨s.memory.next, 0⟩ size = some bytes
    rw [← (Memory.of_read holds).2]
    exact Memory.read_alloc _ _

/-- An empty body leaves everything as it is. -/
theorem unchanged (sound : s.Sound) (none : c.given = none) : (s.log c).Sound := by
  have last : lastBody (s.calls ++ [c]) = lastBody s.calls := by rw [lastBody_append, none, Option.getD_none]
  have held := sound.held
  rw [← last] at held
  exact { sound with held }

/-- What a handler passes replaces the body, if it is not empty. -/
theorem data (sound : s.Sound) {persistent : Bool} (passes : s.Passes size p bytes persistent)
    (given : c.given = if size = 0 then none else some (size, bytes, !persistent)) :
    ∃ s', s.bodyData size (some p) persistent = some s' ∧ (s'.log c).Sound := by
  by_cases empty : size = 0
  · rw [if_pos empty] at given
    exact ⟨s, by simp [bodyData, empty], sound.unchanged given⟩
  · rw [if_neg empty] at given
    obtain ⟨holds, own⟩ := passes.resolve_left empty
    cases persistent with
    | true => exact sound.persistent given empty holds (own rfl)
    | false => exact sound.copy given empty holds

/-- The handler's own steps leave the body alone. -/
theorem caller (sound : s.Sound) {m : Memory Char} (keeps : s.Keeps m) :
    Sound { s with memory := m } where
  fresh := keeps.fresh
  allocated b member := (sound.allocated b member).trans_le keeps.grows
  distinct := sound.distinct
  freed := sound.freed
  owned := sound.owned
  foreign := sound.foreign
  held := by
    rcases sound.held with empty | ⟨p, bytes, here, holds, last⟩
    · exact Or.inl empty
    · refine Or.inr ⟨p, bytes, here, ?_, last⟩
      show m.read p s.body.1 = _
      rwa [Memory.read_congr (keeps.buffer p here)]

/-- Every step of a handler is possible and keeps the invariant. -/
theorem step {s' : Stored} (sound : s.Sound) (step : Step s s') : s'.Sound := by
  cases step with
  | @data s₁ size p bytes persistent passes returned =>
    obtain ⟨s₂, same, later⟩ := sound.data passes passes.given
    obtain rfl := Option.some.inj (returned.symm.trans same)
    exact later
  | @null s₁ size persistent returned =>
    obtain rfl := Option.some.inj returned
    exact sound.unchanged rfl
  | @string s₁ p bytes passes returned =>
    obtain ⟨s₂, same, later⟩ := sound.data passes (c := .bodyString bytes) rfl
    obtain rfl := Option.some.inj (returned.symm.trans same)
    exact later
  | assign | header | status => exact sound.unchanged rfl
  | caller keeps => exact sound.caller keeps

theorem handed_eq (sound : s.Sound) : s.handed = some (lastBody s.calls) := by
  rcases sound.held with ⟨empty, none⟩ | ⟨p, bytes, here, holds, last⟩
  · simp [handed, empty, none]
  · obtain ⟨memory, ⟨size, data, owned⟩, copies, deleted, calls⟩ := s
    dsimp only at here holds last
    subst here
    simp [handed, holds, last]

end Sound

theorem sound_of_reachable {s : Stored} (reachable : system.Reachable s) : s.Sound := by
  have stable : system.Stable Sound := fun _ _ _ sound step => sound.step step
  refine stable.reachable ?_ reachable
  rintro s ⟨fresh, new⟩
  rw [new]
  exact ⟨fresh, nofun, List.nodup_nil, rfl, fun flag => absurd flag (by simp), nofun, Or.inl ⟨rfl, rfl⟩⟩

end Stored

/-- What MHD reads through the pointer is what it gets from a response whose body is a value. -/
theorem handed_response {s : Stored} (reachable : Stored.system.Reachable s) (PROJECT_SERVER_HEADER : Str) :
    let res := (createResponse PROJECT_SERVER_HEADER (HttpResponse.calls s.calls)).2
    s.handed = some (res.size, (res.data.getD []).take res.size, res.copies) := by
  intro res
  have visible : (res.size, (res.data.getD []).take res.size, res.copies) = lastBody s.calls :=
    calls_visible s.calls
  rw [visible]
  exact (Stored.sound_of_reachable reachable).handed_eq

/-- After any history of calls, `createResponse` hands the last body that is not empty to MHD, which copies
it if and only if it is a copy of the response.  The next call does not touch unallocated memory, and the
destructor leaves every copy deleted once. -/
theorem last_body_wins {s : Stored} (reachable : Stored.system.Reachable s) :
    s.handed = some (lastBody s.calls) ∧
      (s.body.2.2 = true ↔ ∃ p, s.body.2.1 = some p ∧ p.block ∈ s.copies) ∧
      (∀ size p bytes persistent, s.Passes size p bytes persistent →
        (s.bodyData size (some p) persistent).isSome) ∧
      ∃ s', s.clearBody = some s' ∧ s'.deleted = s.copies ∧ s.copies.Nodup := by
  have sound := Stored.sound_of_reachable reachable
  refine ⟨sound.handed_eq, ?_, ?_, ?_⟩
  · constructor
    · intro flag
      obtain ⟨b, here, copy⟩ := sound.owned flag
      exact ⟨_, here, copy⟩
    · rintro ⟨p, here, copy⟩
      by_contra flag
      exact sound.foreign (Bool.eq_false_iff.mpr flag) p here copy
  · intro size p bytes persistent passes
    obtain ⟨s', returned, -⟩ := sound.data passes passes.given
    rw [returned]
    rfl
  · obtain ⟨s', done, cleared⟩ := Stored.clearBody_cleared sound.deletable
    exact ⟨s', done, cleared.deleted.trans sound.freed.symm, sound.distinct⟩

/-- A handler with one string. -/
def helloMemory : Memory Char := ⟨fun b => if b = 0 then some "hello!".toList else none, 1⟩

/-- Its response with a copy of the string. -/
def copiedHello : Stored where
  memory := helloMemory.alloc "hello!".toList
  body := (6, some ⟨1, 0⟩, true)
  copies := [1]
  calls := [.bodyString "hello!".toList]

/-- Its response with a part of the string, which stays where it is, behind the copy. -/
def helloResponse : Stored where
  memory := (helloMemory.alloc "hello!".toList).delete 1
  body := (4, some ⟨0, 1⟩, false)
  copies := [1]
  deleted := [1]
  calls := [.bodyString "hello!".toList, .bodyData 4 (some "ello".toList) true]

theorem last_body_hello :
    helloResponse.handed = some (4, "ello".toList, false) ∧
      ∃ s, helloResponse.clearBody = some s ∧ s.deleted = [1] := by
  have fresh : helloMemory.Fresh := by
    intro b later
    have positive : b ≠ 0 := Nat.one_le_iff_ne_zero.mp later
    exact if_neg positive
  have passes : Stored.Passes { memory := helloMemory } "hello!".toList.length ⟨0, 0⟩ "hello!".toList
      false := Or.inr ⟨by decide, nofun⟩
  have copied : Stored.system.Reachable copiedHello :=
    .step (.of_init ⟨fresh, rfl⟩) (@Stored.Step.string _ { copiedHello with calls := [] } _ _ passes rfl)
  have persists : copiedHello.Passes 4 ⟨0, 1⟩ "ello".toList true := Or.inr ⟨by decide, by decide⟩
  have reachable : Stored.system.Reachable helloResponse :=
    copied.step (@Stored.Step.data _ { helloResponse with calls := copiedHello.calls } _ _ _ _ persists rfl)
  obtain ⟨handed, -, -, s, done, deleted, -⟩ := last_body_wins reachable
  exact ⟨handed, s, done, deleted⟩

/-- The empty body does not replace the other one. -/
theorem empty_body_ignored :
    let calls : List ResponseCall := [.bodyString "abc".toList, .bodyString []]
    let res := (createResponse "cppmhd/0".toList (HttpResponse.calls calls)).2
    res.size = 3 ∧ res.data = some "abc".toList ∧ res.copies = true :=
  ⟨by decide +kernel, by decide +kernel, by decide +kernel⟩

end Cppmhd
