import Cppmhd.Router.Consumed
import Cppmhd.Router.Shape

/-!
# The types of the nodes

`insertChild` writes the type of a wildcard into the node above it when it hangs the wildcard below a
node that ends there.  `truthful_run_iff` says in which runs of `addRoute` the types nevertheless tell
the wildcards from the other nodes in every tree of the run.
-/

open Words Table

namespace Cppmhd

variable {Ctrl : Type}

/-- The type of a node fits its place; `isWild` for the wildcard child of its parent. -/
structure RawNode.TypeFits (root n : RawNode Ctrl) (isWild : Bool) : Prop where
  wild : n.type = .PARAM ∨ n.type = .CATCH_ALL ↔ isWild = true
  other : isWild = false → n.type = .STATIC ∨ n = root ∧ n.type = .ROOT
  single : n.wildchild = true → ∃ w, n.children = [w]
  literal : n.path ≠ [] → PARAM_CHAR ∉ n.path → isWild = false

/-- The types of all nodes fit. -/
def RawTree.Truthful (tree : RawTree Ctrl) : Prop :=
  ∀ n isWild, tree.root.Has n isWild → tree.root.TypeFits n isWild

/-- A stored route ends in front of a placeholder of the path, and no stored route goes on there. -/
def Grafts (E : Table Sym Ctrl) (t : Str) : Prop :=
  ∃ π b, (π, b) ∈ E ∧ spelling π ++ [PARAM_CHAR] <+: t ∧ ∀ e ∈ E, π <+: e.1 → e.1 = π

/-! ## Grafts and tables -/

section Grafts

variable {E : Table Sym Ctrl} {t : Str} {x : Char}

@[simp] theorem spelling_nil : spelling [] = [] := rfl

@[simp] theorem spelling_lit (c : Char) (π : Pattern) : spelling (.lit c :: π) = c :: spelling π := rfl

@[simp] theorem spelling_wild (w : Wild) (π : Pattern) :
    spelling (.wild w :: π) = PARAM_CHAR :: spelling π := rfl

theorem grafts_nil : ¬ Grafts E [] := by
  rintro ⟨π, b, -, begins, -⟩
  exact absurd (List.prefix_nil.mp begins) (by simp)

theorem grafts_empty (t : Str) : ¬ Grafts (∅ : Table Sym Ctrl) t := by
  rintro ⟨π, b, stored, -⟩
  exact stored

theorem grafts_lit (literal : x ≠ PARAM_CHAR) : Grafts E (x :: t) ↔ Grafts (after (.lit x) E) t := by
  constructor
  · rintro ⟨π, b, stored, begins, last⟩
    cases π with
    | nil => exact absurd (List.cons_prefix_cons.mp begins).1 (Ne.symm literal)
    | cons s π =>
      cases s with
      | wild w => exact absurd (List.cons_prefix_cons.mp begins).1 (Ne.symm literal)
      | lit c =>
        rw [spelling_lit, List.cons_append, List.cons_prefix_cons] at begins
        obtain ⟨rfl, begins⟩ := begins
        refine ⟨π, b, stored, begins, fun e member longer => ?_⟩
        have same := last (.lit c :: e.1, e.2) member (List.cons_prefix_cons.mpr ⟨rfl, longer⟩)
        exact (List.cons.inj same).2
  · rintro ⟨π, b, stored, begins, last⟩
    refine ⟨.lit x :: π, b, stored, List.cons_prefix_cons.mpr ⟨rfl, begins⟩, ?_⟩
    rintro ⟨π', b'⟩ member ⟨rest, rfl⟩
    have same := last (π ++ rest, b') member (List.prefix_append π rest)
    exact congrArg (.lit x :: ·) same

theorem grafts_prepend_lits {s : Str} (free : PARAM_CHAR ∉ s) :
    Grafts (prepend (lits s) E) (s ++ t) ↔ Grafts E t := by
  induction s with
  | nil => rw [lits_nil, Words.Table.prepend_nil, List.nil_append]
  | cons c s ih =>
    rw [List.mem_cons, not_or] at free
    rw [List.cons_append, grafts_lit (Ne.symm free.1), lits_cons, after_prepend_cons, ih free.2]

theorem grafts_own {h : Option Ctrl} (head : t.head? ≠ some PARAM_CHAR) : ¬ Grafts (own h) t := by
  rintro ⟨π, b, ⟨rfl, -⟩, ⟨rest, rfl⟩, -⟩
  exact head rfl

/-- Behind a wildcard of the table. -/
theorem grafts_wild {h : Option Ctrl} {w : Wild} (live : ∃ π b, (π, b) ∈ E) :
    Grafts (own h ∪ prepend [.wild w] E) (PARAM_CHAR :: t) ↔ Grafts E t := by
  constructor
  · rintro ⟨π, b, stored, begins, last⟩
    rcases stored with ⟨rfl, -⟩ | ⟨ρ, rfl, stored⟩
    · obtain ⟨ρ, c, below⟩ := live
      have same := last (.wild w :: ρ, c) (Or.inr ⟨ρ, rfl, below⟩) List.nil_prefix
      exact absurd same (List.cons_ne_nil _ _)
    · refine ⟨ρ, b, stored, (List.cons_prefix_cons.mp begins).2, fun e member longer => ?_⟩
      have same := last (.wild w :: e.1, e.2) (Or.inr ⟨e.1, rfl, member⟩)
        (List.cons_prefix_cons.mpr ⟨rfl, longer⟩)
      exact (List.cons.inj same).2
  · rintro ⟨π, b, stored, begins, last⟩
    refine ⟨.wild w :: π, b, Or.inr ⟨π, rfl, stored⟩, List.cons_prefix_cons.mpr ⟨rfl, begins⟩, ?_⟩
    rintro ⟨π', b'⟩ (⟨empty, -⟩ | ⟨ρ, whole, member⟩) longer
    · rw [empty] at longer
      exact absurd (List.prefix_nil.mp longer) (List.cons_ne_nil _ _)
    · have same : ρ = π := by
        rw [whole, List.singleton_append, List.cons_prefix_cons] at longer
        exact last (ρ, b') member longer.2
      rw [whole, same]
      rfl

/-- A path that leaves the wildcard of the table. -/
theorem grafts_off_wild {h : Option Ctrl} {w : Wild} (literal : x ≠ PARAM_CHAR) :
    ¬ Grafts (own h ∪ prepend [.wild w] E) (x :: t) := by
  rintro ⟨π, b, ⟨rfl, -⟩ | ⟨ρ, rfl, -⟩, begins, -⟩
  · exact literal (List.cons_prefix_cons.mp begins).1.symm
  · exact literal (List.cons_prefix_cons.mp begins).1.symm

/-- A placeholder where the stored routes go on with other characters. -/
theorem not_grafts_children {h : Option Ctrl} {children : List (RawNode Ctrl)} (some : children ≠ [])
    (below : ∀ c ∈ children, c.Valid) : ¬ Grafts (own h ∪ childEntries children) (PARAM_CHAR :: t) := by
  rintro ⟨π, b, ⟨rfl, -⟩ | stored, begins, last⟩
  · obtain ⟨c, cs, rfl⟩ := List.exists_cons_of_ne_nil some
    obtain ⟨ρ, b', stored⟩ := (below c List.mem_cons_self).exists_entry
    have member : (ρ, b') ∈ childEntries (c :: cs) :=
      mem_childEntries.mpr ⟨c, List.mem_cons_self, stored⟩
    exact childEntries_ne_nil below _ member (last (ρ, b') (Or.inr member) List.nil_prefix)
  · obtain ⟨c, member, stored⟩ := mem_childEntries.mp stored
    obtain ⟨y, ρ, -, literal, rfl⟩ := (below c member).entry_head stored
    exact literal (List.cons_prefix_cons.mp begins).1

end Grafts

/-! ## Nodes that are no wildcards -/

/-- The nodes below this one that are no wildcards, up to the next ones. -/
def RawNode.staticBelow (n : RawNode Ctrl) : List (RawNode Ctrl) :=
  if n.wildchild then n.children.flatMap RawNode.children else n.children

/-- The node and the nodes below it that are no wildcards are static. -/
inductive RawNode.Typed : RawNode Ctrl → Prop
  | mk {n : RawNode Ctrl} (type : n.type = .STATIC) (below : ∀ c ∈ n.staticBelow, c.Typed) : n.Typed

theorem typed_iff {n : RawNode Ctrl} : n.Typed ↔ n.type = .STATIC ∧ ∀ c ∈ n.staticBelow, c.Typed :=
  ⟨fun typed => by cases typed; exact ⟨‹_›, ‹_›⟩, fun h => .mk h.1 h.2⟩

theorem typed_of_plain {n : RawNode Ctrl} (plain : n.wildchild = false) :
    n.Typed ↔ n.type = .STATIC ∧ ∀ c ∈ n.children, c.Typed := by
  rw [typed_iff, RawNode.staticBelow, plain, if_neg Bool.false_ne_true]

theorem typed_of_wild {n w : RawNode Ctrl} (wild : n.wildchild = true) (only : n.children = [w]) :
    n.Typed ↔ n.type = .STATIC ∧ ∀ c ∈ w.children, c.Typed := by
  rw [typed_iff, RawNode.staticBelow, wild, if_pos rfl, only, List.flatMap_singleton]

theorem typed_of_leaf {n : RawNode Ctrl} (leaf : n.children = []) : n.Typed ↔ n.type = .STATIC := by
  have none : n.staticBelow = [] := by simp [RawNode.staticBelow, leaf]
  rw [typed_iff, none, and_iff_left (List.forall_mem_nil _)]

theorem typed_congr {m n : RawNode Ctrl} (type : m.type = n.type)
    (below : m.staticBelow = n.staticBelow) : m.Typed ↔ n.Typed := by
  rw [typed_iff, typed_iff, type, below]

section Insertion

variable {n w : RawNode Ctrl} {parser : PathParser} {ctrl : Ctrl}

theorem setHandle_typed : (n.setHandle parser ctrl).node.Typed ↔ n.Typed := by
  unfold RawNode.setHandle
  split
  · rfl
  · exact typed_congr rfl rfl

theorem split_typed {pre s : Str} {y : Char} (path : n.path = pre ++ y :: s) (t : Str)
    (typed : n.Typed) : (n.split pre.length (pre ++ t)).Typed := by
  have lower : ({ n with path := y :: s } : RawNode Ctrl).Typed ↔ n.Typed := typed_congr rfl rfl
  rw [typed_of_plain rfl, split_children path, List.forall_mem_singleton]
  exact ⟨rfl, lower.mpr typed⟩

theorem setLeaf_typed (leaf : n.children = []) (t : Str) : (n.setLeaf t ctrl).Typed :=
  have none : (n.setLeaf t ctrl).children = [] := leaf
  (typed_of_leaf none).mpr rfl

/-- The nodes of a fresh path are static, whatever type the first one had. -/
theorem insertChild_typed (params : List Param) {node : RawNode Ctrl} {t : Str} (fullPath : Str)
    (children : node.children = []) (plain : node.wildchild = false) (nonempty : t ≠ [])
    (head : t.head? ≠ some PARAM_CHAR) (ok : Insertable t params) :
    (insertChild node t fullPath ctrl params).node.Typed := by
  induction params generalizing node t with
  | nil =>
    have static : PARAM_CHAR ∉ t := List.count_eq_zero.mp (Nat.le_zero.mp ok.enough)
    rw [insertChild_static static]
    exact setLeaf_typed children t
  | cons p params ih =>
    by_cases wild : PARAM_CHAR ∈ t
    · obtain ⟨pre, rest, rfl, free⟩ := List.eq_append_cons_of_mem wild
      have present : 0 < pre.length := by
        refine List.length_pos_iff.mpr ?_
        rintro rfl
        exact head rfl
      have hung : ∀ w : RawNode Ctrl, (∀ c ∈ w.children, c.Typed) →
          (node.setWild (pre ++ PARAM_CHAR :: rest) pre.length p w).Typed := by
        intro w below
        have only : (node.setWild (pre ++ PARAM_CHAR :: rest) pre.length p w).children = [w] := by
          rw [setWild_children, children, List.nil_append]
        rw [typed_of_wild (setWild_wildchild ..) only, RawNode.setWild, if_pos present]
        exact ⟨rfl, below⟩
      rcases ok.queued p List.mem_cons_self with isParam | ⟨isCatchAll, -⟩
      · cases rest with
        | nil =>
          rw [insertChild_paramEnd fullPath ctrl params children free isParam]
          exact hung _ (List.forall_mem_nil _)
        | cons x rest =>
          have pop := ok.of_append
          obtain rfl := pop.slash_of_placeholder
          rw [insertChild_paramNext fullPath ctrl params children free isParam]
          refine hung _ fun c member => ?_
          rw [List.mem_singleton.mp member]
          exact ih rfl rfl (List.cons_ne_nil _ _) (by simp [PARAM_CHAR]) pop.pop
      · rw [insertChild_catchAll fullPath ctrl params children free isCatchAll]
        exact hung _ (List.forall_mem_nil _)
    · rw [insertChild_static wild]
      exact setLeaf_typed children t

/-- A wildcard that is hung below a leaf leaves its type there. -/
theorem graft_not_typed {rest : Str} {params : List Param} (leaf : n.children = [])
    (ok : Insertable (PARAM_CHAR :: rest) params) (fullPath : Str) :
    ¬ (insertChild n (PARAM_CHAR :: rest) fullPath ctrl params).node.Typed := by
  cases params with
  | nil =>
    have enough := ok.enough
    rw [List.count_cons_self, List.length_nil] at enough
    omega
  | cons p params =>
    obtain ⟨w, left, step, -⟩ := insertChild_wild (insertChild_fresh ctrl params) leaf
      List.not_mem_nil fullPath ok
    rw [List.nil_append, List.length_nil] at step
    rw [step, typed_iff, RawNode.setWild, if_neg (lt_irrefl 0)]
    rintro ⟨static, -⟩
    rcases ok.queued p List.mem_cons_self with isParam | ⟨isCatchAll, -⟩
    · exact absurd (isParam.symm.trans static) (by decide)
    · exact absurd (isCatchAll.symm.trans static) (by decide)

/-- The end of an insertion at a plain node: the types stay unless a wildcard is hung below a leaf. -/
theorem attach_typed (valid : n.Valid) (plain : n.wildchild = false) (typed : n.Typed) {x : Char}
    {t : Str} (absent : ∀ c ∈ n.children, c.path.head? ≠ some x)
    (ok : Insertable (x :: t) parser.params) :
    (n.attach (x :: t) parser ctrl).node.Typed ↔ ¬ Grafts n.body (x :: t) := by
  obtain ⟨type, indexed, nodup, below⟩ := Valid.of_plain valid plain
  by_cases placeholder : x = PARAM_CHAR
  · subst placeholder
    rw [RawNode.attach, List.head?_cons, if_neg (by simp), body_of_not_wild plain]
    by_cases leaf : n.children = []
    · refine iff_of_false (graft_not_typed leaf ok _) (not_not.mpr ?_)
      obtain ⟨b, handle⟩ : ∃ b, n.handle = some b := by
        cases valid with
        | branch _ _ _ _ _ live _ => exact Option.isSome_iff_exists.mp (live.resolve_right (by simp [leaf]))
        | param _ wild _ _ _ _ _ _ _ _ _ _ => exact absurd (wild.symm.trans plain) (by decide)
        | catchAll _ wild _ _ _ _ _ _ _ _ => exact absurd (wild.symm.trans plain) (by decide)
      rw [leaf, childEntries_nil, Set.union_empty]
      refine ⟨[], b, ⟨rfl, handle⟩, List.cons_prefix_cons.mpr ⟨rfl, List.nil_prefix⟩, ?_⟩
      exact fun e stored _ => stored.1
    · have enough : 0 < parser.params.length := by
        have enough := ok.enough
        rw [List.count_cons_self] at enough
        omega
      obtain ⟨left, log, refused⟩ :=
        insertChild_occupied ctrl leaf (t := t) enough parser.actualFullPath
      rw [refused]
      exact iff_of_true typed (not_grafts_children leaf below)
  · rw [RawNode.attach, List.head?_cons, if_pos (by simpa using placeholder), grafts_lit placeholder,
      Valid.after_noChild valid plain absent]
    refine iff_of_true ?_ (grafts_empty t)
    have still : ∀ indices children, ({ n with indices := indices, children := children } :
        RawNode Ctrl).Typed ↔ n.type = .STATIC ∧ ∀ c ∈ children, c.Typed :=
      fun _ _ => typed_of_plain plain
    rw [still]
    refine ⟨type, fun c member => ?_⟩
    rcases List.mem_append.mp member with old | new
    · exact ((typed_of_plain plain).mp typed).2 c old
    · rw [List.mem_singleton.mp new]
      exact insertChild_typed _ _ rfl rfl (List.cons_ne_nil _ _) (by simpa using placeholder) ok

/-! ## The walk -/

/-- The insertion below `n` keeps the types unless it hangs a wildcard below a leaf. -/
def TypeSpec (ctrl : Ctrl) (n : RawNode Ctrl) : Prop :=
  ∀ (parser : PathParser) (t : Str), Insertable t parser.params → t.head? = n.path.head? → n.Typed →
    ((insertLoop n t parser ctrl).node.Typed ↔ ¬ Grafts n.entries t)

/-- The walk at a node: it ends inside the path, at its end, or goes on behind it. -/
theorem typeSpec_of_behind (valid : n.Valid)
    (behind : ∀ (parser : PathParser) (x : Char) (t : Str), Insertable (x :: t) parser.params →
      n.Typed → ((insertLoop n (n.path ++ x :: t) parser ctrl).node.Typed ↔
        ¬ Grafts n.body (x :: t))) : TypeSpec ctrl n := by
  intro parser t ok head typed
  cases leaves head with
  | behind rest =>
    rw [n.entries_eq, grafts_prepend_lits valid.staticPath.noParam]
    cases rest with
    | nil =>
      rw [List.append_nil, insertLoop_here, setHandle_typed]
      exact iff_of_true typed grafts_nil
    | cons x t => exact behind parser x t ok.of_append typed
  | @inside pre s rest y path nonempty differs length =>
    have split := split_valid valid path nonempty rest
    have kept := split_typed path rest typed
    have grafts : Grafts n.entries (pre ++ rest) ↔
        Grafts (n.split pre.length (pre ++ rest)).body rest := by
      have free := split.staticPath.noParam
      rw [split_path] at free
      rw [← split_entries path rest, RawNode.entries_eq, split_path, grafts_prepend_lits free]
    rw [insertLoop_split n parser ctrl path length, grafts]
    cases rest with
    | nil =>
      rw [if_pos rfl, setHandle_typed]
      exact iff_of_true kept grafts_nil
    | cons x t =>
      rw [if_neg (List.cons_ne_nil x t)]
      exact attach_typed split rfl kept (split_absent path _ (Ne.symm differs)) ok.of_append

/-- The walk over the children of a plain node. -/
theorem branch_typed (valid : n.Valid) (plain : n.wildchild = false) (typed : n.Typed)
    (walk : ∀ c ∈ n.children, TypeSpec ctrl c) {x : Char} {t : Str}
    (ok : Insertable (x :: t) parser.params) :
    (insertLoop n (n.path ++ x :: t) parser ctrl).node.Typed ↔ ¬ Grafts n.body (x :: t) := by
  obtain ⟨type, indexed, nodup, below⟩ := Valid.of_plain valid plain
  rw [insertLoop_below n parser ctrl plain (by rw [type]; decide)]
  rcases insertIndice_cases indexed (x :: t) parser ctrl with
    ⟨none, absent⟩ | ⟨before, c, after, children, head, found⟩
  · rw [none]
    exact attach_typed valid plain typed absent ok
  · rw [found]
    have all : ∀ d ∈ n.children, d.Typed := ((typed_of_plain plain).mp typed).2
    have still : ∀ children, ({ n with children := children } : RawNode Ctrl).Typed ↔
        n.type = .STATIC ∧ ∀ c ∈ children, c.Typed :=
      fun _ => typed_of_plain plain
    have member : c ∈ n.children := by
      rw [children]
      exact List.mem_append_right _ List.mem_cons_self
    have literal : x ≠ PARAM_CHAR := (below c member).head_literal head
    rw [grafts_lit literal, Valid.after_child valid plain member head, ← grafts_lit literal,
      ← walk c member parser (x :: t) ok head.symm (all c member), still]
    constructor
    · exact fun here => here.2 _ (List.mem_append_right _ List.mem_cons_self)
    · refine fun here => ⟨type, fun d hd => ?_⟩
      rcases List.mem_append.mp hd with old | new
      · exact all d (children ▸ List.mem_append_left _ old)
      · rcases List.mem_cons.mp new with rfl | old
        · exact here
        · exact all d (children ▸ List.mem_append_right _ (List.mem_cons_of_mem c old))

/-- The walk through a parameter node. -/
theorem param_typed (valid : w.WildValid) (isParam : w.type = .PARAM)
    (typed : ∀ c ∈ w.children, c.Typed) (walk : ∀ c ∈ w.children, TypeSpec ctrl c) {t : Str}
    (ok : Insertable (PARAM_CHAR :: t) parser.params) :
    (∀ c ∈ (insertLoop w (PARAM_CHAR :: t) parser ctrl).node.children, c.Typed) ↔
      ¬ Grafts w.wildBody t := by
  cases valid with
  | catchAll isCatchAll => exact absurd (isParam.symm.trans isCatchAll) (by decide)
  | param isParam wildPath plain leaf single slash below =>
    have rest : Insertable t parser.params := ok.of_append (s := [PARAM_CHAR])
    have behind : ∀ t, w.path ++ t = PARAM_CHAR :: t := by
      intro t
      rw [wildPath]
      rfl
    cases t with
    | nil =>
      have step := insertLoop_here w parser ctrl
      rw [wildPath] at step
      rw [step]
      refine iff_of_true ?_ grafts_nil
      unfold RawNode.setHandle
      split <;> exact typed
    | cons x t =>
      obtain rfl := ok.slash_of_placeholder
      rw [grafts_lit (by decide), RawNode.wildBody]
      cases children : w.children with
      | nil =>
        have step := insertLoop_paramLeaf w parser ctrl (x := '/') (t := t) plain children
        rw [behind] at step
        rw [step, RawNode.attach, List.head?_cons, if_pos (by decide), childEntries_nil,
          Set.union_empty, after_own]
        refine iff_of_true (fun c member => ?_) (grafts_empty t)
        dsimp only at member
        rw [children, List.nil_append, List.mem_singleton] at member
        rw [member]
        exact insertChild_typed _ _ rfl rfl (List.cons_ne_nil _ _) (by simp [PARAM_CHAR]) rest
      | cons c others =>
        have only : w.children = [c] := only_of_single single children
        have member : c ∈ w.children := only ▸ List.mem_singleton_self c
        have step := insertLoop_param w parser ctrl (t := t) plain isParam only
        rw [behind] at step
        rw [step, ← children, only, childEntries_cons, childEntries_nil, Set.union_empty, after_union,
          after_own, Set.empty_union, ← grafts_lit (x := '/') (by decide),
          ← walk c member parser ('/' :: t) rest (slash c member).symm (typed c member)]
        exact List.forall_mem_singleton

/-- The walk into the wildcard child of a node. -/
theorem wild_typed (valid : n.Valid) (wild : n.wildchild = true) (only : n.children = [w])
    (typed : n.Typed) (walk : ∀ c ∈ w.children, TypeSpec ctrl c) {x : Char} {t : Str}
    (ok : Insertable (x :: t) parser.params) :
    (insertLoop n (n.path ++ x :: t) parser ctrl).node.Typed ↔ ¬ Grafts n.body (x :: t) := by
  have child : w.WildValid := Valid.wildValid valid wild only
  obtain ⟨type, all⟩ := (typed_of_wild wild only).mp typed
  rw [insertLoop_wild n parser ctrl wild only, body_of_wild wild only]
  by_cases admitted : w.admits (x :: t) = true
  · rw [if_pos admitted]
    obtain ⟨rfl, isParam⟩ := (admits_iff child ok.shaped).mp admitted
    rw [grafts_wild child.exists_entry, ← param_typed child isParam all walk ok]
    have still : ∀ w', ({ n with children := [w'] } : RawNode Ctrl).Typed ↔
        n.type = .STATIC ∧ ∀ c ∈ w'.children, c.Typed :=
      fun _ => typed_of_wild wild rfl
    rw [still]
    exact and_iff_right type
  · rw [if_neg admitted]
    refine iff_of_true typed ?_
    by_cases placeholder : x = PARAM_CHAR
    · subst placeholder
      rw [grafts_wild child.exists_entry]
      cases child with
      | param isParam wildPath plain leaf single slash below =>
        have child : w.WildValid := .param isParam wildPath plain leaf single slash below
        exact absurd ((admits_iff child ok.shaped).mpr ⟨rfl, isParam⟩) admitted
      | catchAll isCatchAll wildPath plain leaf handle =>
        rw [RawNode.wildBody, leaf, childEntries_nil, Set.union_empty]
        -- a placeholder ends its segment
        apply grafts_own
        cases t with
        | nil => rintro ⟨⟩
        | cons y t =>
          obtain rfl := ok.slash_of_placeholder
          simp [PARAM_CHAR]
    · exact grafts_off_wild placeholder

theorem insertLoop_typed (ctrl : Ctrl) (valid : n.Valid) : TypeSpec ctrl n := by
  apply RawNode.Valid.walk valid
  · intro n valid plain walk
    apply typeSpec_of_behind valid
    intro parser x t ok typed
    exact branch_typed valid plain typed walk ok
  · intro n w valid wild only child walk
    apply typeSpec_of_behind valid
    intro parser x t ok typed
    exact wild_typed valid wild only typed walk ok

end Insertion

/-! ## The types of all nodes -/

theorem RawNode.Has.trans {root n m : RawNode Ctrl} {isWild : Bool} (upper : root.Has n false)
    (lower : n.Has m isWild) : root.Has m isWild := by
  induction lower with
  | root => exact upper
  | child has member ih => exact ih.child member

theorem RawNode.Has.typed {root n : RawNode Ctrl} {isWild : Bool} (has : root.Has n isWild)
    (valid : root.Valid) (typed : root.Typed) :
    if isWild then ∀ c ∈ n.children, c.Typed else n.Typed := by
  induction has with
  | root => exact typed
  | @child n c isWild has member ih =>
    have kind := has.valid valid
    cases isWild with
    | true =>
      rw [(WildValid.kind kind).1]
      exact ih c member
    | false =>
      cases wild : n.wildchild with
      | true =>
        obtain ⟨w, only⟩ := Valid.only_child kind wild
        rw [only, List.mem_singleton] at member
        rw [member]
        exact ((typed_of_wild wild only).mp ih).2
      | false => exact ((typed_of_plain wild).mp ih).2 c member

theorem typed_of_static {n : RawNode Ctrl} (valid : n.Valid)
    (static : ∀ m, n.Has m false → m.type = .STATIC) : n.Typed := by
  revert static
  apply RawNode.Valid.walk valid
  · intro n valid plain ih static
    refine (typed_of_plain plain).mpr ⟨static n .root, fun c member => ih c member fun m has => ?_⟩
    have here : n.Has c false := plain ▸ RawNode.Has.root.child member
    exact static m (here.trans has)
  · intro n w valid wild only child ih static
    refine (typed_of_wild wild only).mpr ⟨static n .root, fun c member => ih c member fun m has => ?_⟩
    have upper : n.Has w n.wildchild := RawNode.Has.root.child (only ▸ List.mem_singleton_self w)
    have here : n.Has c false := (WildValid.kind child).1 ▸ upper.child member
    exact static m (here.trans has)

theorem truthful_empty : ({} : RawTree Ctrl).Truthful := by
  intro n isWild has
  have only : n = {} ∧ isWild = false := by
    induction has with
    | root => exact ⟨rfl, rfl⟩
    | child has member ih =>
      rw [ih.1] at member
      exact absurd member List.not_mem_nil
  obtain ⟨rfl, rfl⟩ := only
  exact ⟨by simp, fun _ => Or.inr ⟨rfl, rfl⟩, fun wild => absurd wild Bool.false_ne_true, fun _ _ => rfl⟩

theorem truthful_iff {tree : RawTree Ctrl} (valid : tree.root.Valid) :
    tree.Truthful ↔ tree.root.Typed := by
  constructor
  · intro truthful
    refine typed_of_static valid fun m has => ?_
    rcases (truthful m false has).other rfl with static | ⟨rfl, root⟩
    · exact static
    · cases valid with
      | branch path plain type indexed nodup live below => exact type
      | param path wild type | catchAll path wild type => exact absurd root type
  · intro typed n isWild has
    have kind := has.valid valid
    have types := has.typed valid typed
    cases isWild with
    | true =>
      obtain ⟨plain, type⟩ := WildValid.kind kind
      refine ⟨iff_of_true type rfl, nofun, fun wild => absurd (wild.symm.trans plain) (by decide), ?_⟩
      intro nonempty literal
      cases kind with
      | param isParam wildPath =>
        rw [wildPath] at literal
        exact absurd (List.mem_singleton_self _) literal
      | catchAll isCatchAll wildPath => exact absurd wildPath nonempty
    | false =>
      have static : n.type = .STATIC := (typed_iff.mp types).1
      refine ⟨?_, fun _ => Or.inl static, fun wild => Valid.only_child kind wild, fun _ _ => rfl⟩
      rw [static]
      decide

/-! ## Runs -/

/-- An insertion into a tree whose types fit keeps them, unless it hangs a wildcard below a leaf. -/
theorem insert_typed {tree : RawTree Ctrl} (wellFormed : tree.WellFormed) (truthful : tree.Truthful)
    {p : PathParser} (calculated : Calculated p.calced p.params) (ctrl : Ctrl) :
    (tree.insert p.calced p ctrl).node.Typed ↔ ¬ Grafts tree.entries p.calced := by
  have rooted := calculated.rooted
  rcases wellFormed with rfl | ⟨valid, slash⟩
  · rw [entries_empty]
    refine iff_of_true ?_ (grafts_empty _)
    simp only [RawTree.insert, and_self, if_true]
    apply insertChild_typed _ _ rfl rfl _ _ calculated.insertable
    · rintro empty
      rw [empty] at rooted
      cases rooted
    · rw [rooted]
      decide
  · have used : ¬ (tree.root.path = [] ∧ tree.root.indices = []) :=
      fun fresh => valid.staticPath.nonempty fresh.1
    rw [RawTree.insert, if_neg used]
    exact insertLoop_typed ctrl valid p p.calced calculated.insertable (rooted.trans slash.symm)
      ((truthful_iff valid).mp truthful)

theorem truthful_addRoute {pcre : Pcre} {tree : RawTree Ctrl} (wellFormed : tree.WellFormed)
    (truthful : tree.Truthful) {path : Str} {p : PathParser}
    (parsed : parsePathSegment pcre path = .ok p) (ctrl : Ctrl) :
    (tree.addRoute pcre path ctrl).1.Truthful ↔ ¬ Grafts tree.entries p.calced := by
  have calculated := parsePathSegment_calculated parsed
  have typed := insert_typed wellFormed truthful calculated ctrl
  have result : (tree.addRoute pcre path ctrl).1.root = (tree.insert p.calced p ctrl).node := by
    simp only [RawTree.addRoute, parsed]
  have next : (tree.addRoute pcre path ctrl).1.WellFormed := wellFormed.addRoute path ctrl
  rcases next with empty | ⟨valid, -⟩
  · -- an insertion never leaves an empty tree
    rw [← result, empty] at typed
    refine iff_of_true (empty ▸ truthful_empty) ?_
    rintro ⟨π, b, stored, -⟩
    have kept : (π, b) ∈ (tree.addRoute pcre path ctrl).1.entries :=
      entries_subset_addRoute wellFormed path ctrl stored
    rw [empty, entries_empty] at kept
    exact kept
  · rw [truthful_iff valid, result]
    exact typed

theorem addRoutes_concat (pcre : Pcre) (tree : RawTree Ctrl) (routes : List (Str × Ctrl))
    (r : Str × Ctrl) :
    tree.addRoutes pcre (routes ++ [r]) = ((tree.addRoutes pcre routes).addRoute pcre r.1 r.2).1 :=
  List.foldl_concat _ _ _ _

/-- In a run of `addRoute` the types fit in every tree if and only if no route hangs a wildcard below a
leaf of the tree that it finds. -/
theorem truthful_run_iff (pcre : Pcre) (routes : List (Str × Ctrl)) :
    (∀ before, before <+: routes → (RawTree.addRoutes pcre {} before).Truthful) ↔
      ∀ before r, before ++ [r] <+: routes → ∀ p, parsePathSegment pcre r.1 = .ok p →
        ¬ Grafts (RawTree.addRoutes pcre {} before).entries p.calced := by
  have reached : ∀ before, (RawTree.addRoutes pcre ({} : RawTree Ctrl) before).WellFormed :=
    fun before => (RawTree.Reachable.empty.addRoutes before).wellFormed
  constructor
  · intro truthful before r inside p parsed
    have next := truthful _ inside
    rw [addRoutes_concat] at next
    have here := truthful before ((List.prefix_append _ _).trans inside)
    exact (truthful_addRoute (reached before) here parsed r.2).mp next
  · intro spared before
    induction before using List.reverseRecOn with
    | nil => exact fun _ => truthful_empty
    | append_singleton before r ih =>
      intro inside
      have here := ih ((List.prefix_append _ _).trans inside)
      rw [addRoutes_concat]
      cases parsed : parsePathSegment pcre r.1 with
      | error log =>
        rw [addRoute_unparsed parsed]
        exact here
      | ok p =>
        exact (truthful_addRoute (reached before) here parsed r.2).mpr (spared before r inside p parsed)

/-- Both routes are accepted, and the node of `/a/` takes the type of the parameter below it. -/
theorem literal_param :
    let routes : List (Str × ℕ) := [("/a/".toList, 1), ("/a/\x7b:id\x7d".toList, 2)]
    let tree := RawTree.addRoutes anyPcre ({} : RawTree ℕ) routes
    RawTree.Accepts anyPcre {} routes ∧ tree.root.path = "/a/".toList ∧ tree.root.type = .PARAM ∧
      ¬ tree.Truthful := by
  intro routes tree
  have type : tree.root.type = .PARAM := by decide +kernel
  refine ⟨⟨by decide +kernel, by decide +kernel, trivial⟩, by decide +kernel, type, fun truthful => ?_⟩
  rcases (truthful _ false .root).other rfl with static | ⟨-, root⟩
  · exact absurd (type.symm.trans static) (by decide)
  · exact absurd (type.symm.trans root) (by decide)

end Cppmhd
