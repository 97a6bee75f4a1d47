import Cppmhd.Router.Slash
import Cppmhd.Router.Build

/-!
# Redirected requests

`Redirects` lists the returns of `forward` that set the redirect flag (`tsr_iff`).  The request `/`
and the requests that begin with two slashes are the ones whose path with a slash appended begins
with two slashes; `strays_iff` says from the root of the tree when they are redirected.
-/

open Words Table

namespace Cppmhd

variable {Ctrl : Type} {pcre : Pcre}

/-- The returns of the loop with a redirect. -/
inductive Redirects (pcre : Pcre) : RouterNode Ctrl → Str → Prop
  /-- A lone slash that is not the node. -/
  | rest {n : RouterNode Ctrl} (differs : ¬ n.path <+: ['/']) : Redirects pcre n ['/']
  /-- The node is longer by one slash; what is before it is not compared. -/
  | longer {n : RouterNode Ctrl} {path : Str} (differs : ¬ n.path <+: path)
      (length : n.path.length = path.length + 1) (last : n.path[path.length]? = some '/')
      (handle : n.handle.isSome) : Redirects pcre n path
  /-- Any mismatch above a catch-all. -/
  | catchAll {n w : RouterNode Ctrl} {ws : List (RouterNode Ctrl)} {path : Str}
      (differs : ¬ n.path <+: path) (children : n.children = w :: ws)
      (isCatchAll : w.type = .CATCH_ALL) : Redirects pcre n path
  /-- The slash in front of a parameter that rejects the empty segment. -/
  | slash {n w : RouterNode Ctrl} (slash : n.path = ['/']) (handle : n.handle = none)
      (wild : n.wildchild = true) (only : n.children = [w]) (isParam : w.type = .PARAM)
      (rejects : w.re.matches pcre [] = false) : Redirects pcre n ['/']
  /-- The node ends in front of a child for the slash. -/
  | child {n c : RouterNode Ctrl} (handle : n.handle = none) (plain : n.wildchild = false)
      (member : c ∈ n.children) (head : c.path.head? = some '/')
      (served : (c.path.length = 1 ∧ c.handle.isSome) ∨
        ∃ v, c.wildchild = true ∧ c.children = [v] ∧ v.AnswersEmpty pcre ∧ v.handle.isSome) :
      Redirects pcre n n.path
  /-- The node ends in front of a parameter that its left-over index selects. -/
  | index {n w : RouterNode Ctrl} (other : n.path ≠ ['/']) (handle : n.handle = none)
      (wild : n.wildchild = true) (only : n.children = [w]) (isParam : w.type = .PARAM)
      (rejects : w.re.matches pcre [] = false) (indices : n.indices = ['/'])
      (served : w.handle.isSome) : Redirects pcre n n.path
  /-- One slash more than a node with a controller. -/
  | twice {n : RouterNode Ctrl} (plain : n.wildchild = false) (handle : n.handle.isSome)
      (absent : ∀ c ∈ n.children, c.path.head? ≠ some '/') : Redirects pcre n (n.path ++ ['/'])
  /-- A segment whose parameter goes on with a slash. -/
  | segment {n w c : RouterNode Ctrl} {seg : Str} (wild : n.wildchild = true)
      (only : n.children = [w]) (isParam : w.type = .PARAM) (free : '/' ∉ seg) (nonempty : seg ≠ [])
      (accepts : w.re.matches pcre seg = true) (noHandle : w.handle = none)
      (next : w.children = [c])
      (served : (c.path = ['/'] ∧ c.handle.isSome) ∨ c.indices = ['/']) :
      Redirects pcre n (n.path ++ seg)
  /-- A slash behind a parameter that ends a route. -/
  | leaf {n w : RouterNode Ctrl} {seg : Str} (wild : n.wildchild = true) (only : n.children = [w])
      (isParam : w.type = .PARAM) (free : '/' ∉ seg) (nonempty : seg ≠ [])
      (accepts : w.re.matches pcre seg = true) (leaf : w.children = []) :
      Redirects pcre n (n.path ++ (seg ++ ['/']))

section Redirects

variable {n : RouterNode Ctrl} (valid : n.Valid) (params : Params)

include valid

theorem redirects_spec {path : Str} (redirects : Redirects pcre n path) :
    (forwardLoop pcre n path params).ctrl = none ∧ (forwardLoop pcre n path params).tsr = true := by
  cases redirects with
  | rest differs =>
    rw [forwardLoop_mismatch pcre n params differs]
    exact ⟨rfl, (mismatchTsr_iff n ['/']).mpr (Or.inl rfl)⟩
  | longer differs length last handle =>
    rw [forwardLoop_mismatch pcre n params differs]
    exact ⟨rfl, (mismatchTsr_iff n path).mpr (Or.inr (Or.inl ⟨length, last, handle⟩))⟩
  | catchAll differs children isCatchAll =>
    rw [forwardLoop_mismatch pcre n params differs]
    exact ⟨rfl, (mismatchTsr_iff n path).mpr (Or.inr (Or.inr ⟨_, _, children, isCatchAll⟩))⟩
  | slash slash handle wild only isParam rejects =>
    have here := forwardLoop_exact pcre n params
    rw [exactMatch_rejects valid handle wild only isParam rejects, if_pos slash, slash] at here
    exact ⟨congrArg Forwarded.ctrl here, congrArg Forwarded.tsr here⟩
  | child handle plain member head served =>
    have here := forwardLoop_exact pcre n params
    rw [exactMatch_plain handle plain, (slashTsr_child valid plain member head).mpr served] at here
    exact ⟨congrArg Forwarded.ctrl here, congrArg Forwarded.tsr here⟩
  | index other handle wild only isParam rejects indices served =>
    have here := forwardLoop_exact pcre n params
    rw [exactMatch_rejects valid handle wild only isParam rejects, if_neg other,
      (slashTsr_wild valid wild only isParam).mpr ⟨indices, served⟩] at here
    exact ⟨congrArg Forwarded.ctrl here, congrArg Forwarded.tsr here⟩
  | twice plain handle absent =>
    have stop : Stops pcre ⟨n, n.path ++ ['/'], params⟩ _ := .noChild plain absent
    have here := stop.result_eq valid
    refine ⟨congrArg Forwarded.ctrl here, (congrArg Forwarded.tsr here).trans ?_⟩
    simpa using handle
  | @segment w c seg wild only isParam free nonempty accepts noHandle next served =>
    have bound := bindParam_accepts nonempty accepts params
    have here := (Stops.paramEnd wild only isParam free nonempty bound).result_eq valid
    rw [if_neg (by simp [noHandle])] at here
    refine ⟨congrArg Forwarded.ctrl here, (congrArg Forwarded.tsr here).trans ?_⟩
    simpa [paramEndTsr, next] using served
  | @leaf w seg wild only isParam free nonempty accepts leaf =>
    have bound := bindParam_accepts nonempty accepts params
    have goes : ¬ (seg = [] ∧ w.handle.isSome) := fun h => nonempty h.1
    have stop : Stops pcre ⟨n, n.path ++ (seg ++ ['/']), params⟩ _ :=
      .paramLeaf wild only isParam free bound goes leaf
    have here := stop.result_eq valid
    exact ⟨congrArg Forwarded.ctrl here, congrArg Forwarded.tsr here⟩

theorem redirects_of_exact (tsr : (exactMatch pcre n n.path params).tsr = true) :
    Redirects pcre n n.path := by
  have handle : n.handle = none := by
    rw [← Option.not_isSome_iff_eq_none]
    intro handle
    rw [exactMatch_handle pcre handle] at tsr
    exact absurd tsr Bool.false_ne_true
  cases wild : n.wildchild with
  | false =>
    rw [exactMatch_plain handle wild] at tsr
    by_cases present : ∃ c ∈ n.children, c.path.head? = some '/'
    · obtain ⟨c, member, head⟩ := present
      exact .child handle wild member head ((slashTsr_child valid wild member head).mp tsr)
    · rw [slashTsr_absent valid wild fun c member head => present ⟨c, member, head⟩] at tsr
      exact absurd tsr Bool.false_ne_true
  | true =>
    obtain ⟨w, only⟩ := Valid.only_child valid wild
    by_cases answers : w.AnswersEmpty pcre
    · rw [exactMatch_answered pcre handle wild only answers] at tsr
      exact absurd tsr Bool.false_ne_true
    · have isParam : w.type = .PARAM := by
        cases Valid.wildValid valid wild only with
        | param isParam => exact isParam
        | catchAll isCatchAll => exact absurd (Or.inl isCatchAll) answers
      have rejects : w.re.matches pcre [] = false := by
        rw [← Bool.not_eq_true]
        exact fun accepts => answers (Or.inr ⟨isParam, accepts⟩)
      rw [exactMatch_rejects valid handle wild only isParam rejects] at tsr
      by_cases slash : n.path = ['/']
      · rw [slash]
        exact .slash slash handle wild only isParam rejects
      · rw [if_neg slash] at tsr
        obtain ⟨indices, served⟩ := (slashTsr_wild valid wild only isParam).mp tsr
        exact .index slash handle wild only isParam rejects indices served

theorem stops_redirects {path : Str} {r : Forwarded Ctrl} (stop : Stops pcre ⟨n, path, params⟩ r)
    (tsr : r.tsr = true) : Redirects pcre n path := by
  cases stop with
  | mismatch differs =>
    rcases (mismatchTsr_iff n path).mp tsr with rfl | ⟨length, last, handle⟩ | ⟨w, ws, children, type⟩
    · exact .rest differs
    · exact .longer differs length last handle
    · exact .catchAll differs children type
  | exact => exact redirects_of_exact valid params tsr
  | @noChild _ x t _ plain absent =>
    simp only [Bool.and_eq_true, beq_iff_eq, List.cons.injEq] at tsr
    obtain ⟨⟨rfl, rfl⟩, handle⟩ := tsr
    exact .twice plain handle absent
  | catchAll | rejected | emptySegment => exact absurd tsr Bool.false_ne_true
  | @paramEnd _ w seg _ params' wild only isParam free nonempty bound =>
    have accepts := accepts_of_bound nonempty bound
    have noHandle : w.handle = none := by
      rw [← Option.not_isSome_iff_eq_none]
      intro handle
      rw [if_pos handle] at tsr
      exact absurd tsr Bool.false_ne_true
    rw [if_neg (by simp [noHandle])] at tsr
    cases next : w.children with
    | nil => exact absurd tsr (by simp [next, paramEndTsr])
    | cons c cs =>
      have one := Valid.single_of_param valid wild only isParam next
      simp only [next, paramEndTsr, Bool.or_eq_true, Bool.and_eq_true, beq_iff_eq] at tsr
      exact .segment wild only isParam free nonempty accepts noHandle one tsr
  | @paramLeaf _ w seg rest _ params' wild only isParam free bound goes leaf =>
    have nonempty : seg ≠ [] := fun empty => goes ⟨empty, Valid.leaf_handle valid wild only leaf⟩
    have accepts := accepts_of_bound nonempty bound
    simp only [beq_iff_eq, List.cons.injEq, true_and] at tsr
    subst tsr
    exact .leaf wild only isParam free nonempty accepts leaf

end Redirects

/-- A request is redirected exactly when its walk ends in a return of `Redirects`. -/
theorem tsr_iff {n : RouterNode Ctrl} (valid : n.Valid) (path : Str) (params : Params) :
    (forwardLoop pcre n path params).tsr = true ↔
      ∃ s, Walks pcre ⟨n, path, params⟩ s ∧ Redirects pcre s.node s.path :=
  exists_end_iff valid path params (Q := fun r _ => r.tsr = true)
    (fun _ _ params valid redirects => (redirects_spec valid params redirects).2)
    (fun _ _ params _ valid stop tsr => stops_redirects valid params stop tsr)

/-- A redirected request has no controller. -/
theorem ctrl_of_tsr {n : RouterNode Ctrl} (valid : n.Valid) {path : Str} {params : Params}
    (tsr : (forwardLoop pcre n path params).tsr = true) :
    (forwardLoop pcre n path params).ctrl = none := by
  obtain ⟨s, walk, redirects⟩ := (tsr_iff valid path params).mp tsr
  rw [show forwardLoop pcre n path params = _ from Walks.result_eq walk valid]
  exact (redirects_spec (walk.valid valid) s.params redirects).1

/-! ## Requests that begin with two slashes -/

/-- A stored route begins with a literal only where its calculated path does. -/
theorem head_of_resolve {E : Table Sym Ctrl} {t : Str} {params : List Param} {y : Char} {ρ : Pattern}
    (begins : resolve E t params = .lit y :: ρ) : t.head? = some y := by
  cases t with
  | nil => exact absurd begins (List.cons_ne_nil _ _).symm
  | cons x t =>
    by_cases placeholder : x = PARAM_CHAR
    · subst placeholder
      cases wild : wildOf E with
      | some w =>
        rw [resolve_wild wild] at begins
        exact absurd begins (by simp)
      | none =>
        rw [resolve_fresh wild] at begins
        cases params with
        | nil => exact absurd begins (by simp [patternOf])
        | cons p params => exact absurd begins (by simp [patternOf])
    · rw [resolve_lit placeholder, List.cons.injEq, Sym.lit.injEq] at begins
      rw [begins.1, List.head?_cons]

/-- No stored route begins with two slashes. -/
theorem single_slash {tree : RawTree Ctrl} (reachable : tree.Reachable pcre) {ρ : Pattern} {b : Ctrl} :
    (.lit '/' :: .lit '/' :: ρ, b) ∉ tree.entries := by
  induction reachable with
  | empty =>
    rw [entries_empty]
    exact Set.notMem_empty _
  | @addRoute tree path ctrl before ih =>
    cases parsed : parsePathSegment pcre path with
    | error log =>
      rw [addRoute_unparsed parsed]
      exact ih
    | ok p =>
      rcases (addRoute_spec before.wellFormed parsed ctrl).2 with ⟨-, -, table⟩ | ⟨log, -, -, table⟩
      · rw [table]
        rintro (new | old)
        · have calculated := parsePathSegment_calculated parsed
          obtain ⟨t, whole⟩ := List.head?_eq_some_iff.mp calculated.rooted
          have shaped := calculated.shaped
          rw [Prod.mk.injEq, whole, resolve, if_neg (by decide), List.cons.injEq] at new
          obtain ⟨t', rfl⟩ := List.head?_eq_some_iff.mp (head_of_resolve new.1.2.symm)
          rw [whole] at shaped
          exact (List.isChain_cons_cons.mp shaped).1.2 rfl rfl
        · exact ih old
      · rw [table]
        exact ih

/-- The requests that would be redirected to two slashes. -/
inductive Strays (pcre : Pcre) (root : RouterNode Ctrl) : Str → Prop
  /-- The request `/`, and the routes have more than the slash in common. -/
  | short (rooted : root.path.head? = some '/') (other : root.path ≠ ['/']) : Strays pcre root ['/']
  /-- The request `/` in front of a parameter that rejects the empty segment. -/
  | rejects {w : RouterNode Ctrl} (slash : root.path = ['/']) (handle : root.handle = none)
      (wild : root.wildchild = true) (only : root.children = [w]) (isParam : w.type = .PARAM)
      (rejects : w.re.matches pcre [] = false) : Strays pcre root ['/']
  /-- The common part of the routes has a controller, and a slash where the request ends. -/
  | longer {u : Str} (other : root.path ≠ ['/']) (length : root.path.length = u.length + 3)
      (last : root.path[u.length + 2]? = some '/') (handle : root.handle.isSome) :
      Strays pcre root ('/' :: '/' :: u)
  /-- Any request, where a catch-all follows the common part of the routes. -/
  | catchAll {u : Str} {w : RouterNode Ctrl} {ws : List (RouterNode Ctrl)}
      (other : root.path ≠ ['/']) (children : root.children = w :: ws)
      (isCatchAll : w.type = .CATCH_ALL) : Strays pcre root ('/' :: '/' :: u)
  /-- Two slashes, and `/` has a controller. -/
  | twice (slash : root.path = ['/']) (plain : root.wildchild = false)
      (handle : root.handle.isSome) : Strays pcre root ['/', '/']
  /-- The first parameter is empty, and the rest of the request is redirected behind it. -/
  | through {w c : RouterNode Ctrl} {u : Str} {params : Params} {s : Cursor Ctrl}
      (slash : root.path = ['/']) (wild : root.wildchild = true) (only : root.children = [w])
      (isParam : w.type = .PARAM) (noHandle : w.handle = none) (next : w.children = [c])
      (bound : bindParam pcre w [] [] = some params) (walk : Walks pcre ⟨c, '/' :: u, params⟩ s)
      (redirects : Redirects pcre s.node s.path) : Strays pcre root ('/' :: '/' :: u)

theorem not_strays_empty (path : Str) : ¬ Strays pcre ({} : RouterNode Ctrl) path := by
  intro strays
  cases strays with
  | short rooted => exact absurd rooted (by simp)
  | rejects slash | twice slash | through slash => exact absurd slash (by simp)
  | longer other length last handle => exact absurd handle (by simp)
  | catchAll other children => exact absurd children (by simp)

section Root

variable {tree : RawTree Ctrl} (reachable : tree.Reachable pcre) (valid : tree.root.Valid)

include reachable valid in
/-- No child of the node `/` begins with another slash. -/
theorem root_absent (slash : tree.root.path = ['/']) (plain : tree.root.wildchild = false) :
    ∀ c ∈ tree.root.children, c.path.head? ≠ some '/' := by
  intro c member head
  have child := (Valid.of_plain valid plain).2.2.2 c member
  obtain ⟨π, b, stored⟩ := child.exists_entry
  obtain ⟨y, ρ, head', -, rfl⟩ := child.entry_head stored
  rw [head, Option.some.injEq] at head'
  subst head'
  refine single_slash reachable (ρ := ρ) (b := b) ?_
  rw [RawTree.entries, RawNode.entries_eq, body_of_not_wild plain, slash]
  exact ⟨.lit '/' :: ρ, rfl, Or.inr (mem_childEntries.mpr ⟨c, member, stored⟩)⟩

include valid in
/-- A longer common part is no prefix of these requests. -/
theorem root_differs (rooted : tree.root.path.head? = some '/') (other : tree.root.path ≠ ['/'])
    (u : Str) : ¬ tree.root.path <+: ['/'] ∧ ¬ tree.root.path <+: '/' :: '/' :: u := by
  obtain ⟨t, whole⟩ := List.head?_eq_some_iff.mp rooted
  have shaped := valid.staticPath.shaped
  rw [whole] at other shaped ⊢
  cases t with
  | nil => exact absurd rfl other
  | cons y t =>
    have noSlash : y ≠ '/' := (List.isChain_cons_cons.mp shaped).1.2 rfl
    constructor
    · intro begins
      have length := begins.length_le
      simp at length
    · intro begins
      rw [List.cons_prefix_cons, List.cons_prefix_cons] at begins
      exact noSlash begins.2.1

include reachable valid in
/-- The request `/`. -/
theorem slash_tsr_iff (rooted : tree.root.path.head? = some '/') :
    (forwardLoop pcre tree.root ['/'] []).tsr = true ↔ Strays pcre tree.root ['/'] := by
  by_cases slash : tree.root.path = ['/']
  · constructor
    · intro tsr
      have here := forwardLoop_exact pcre tree.root []
      rw [slash] at here
      rw [here, ← slash] at tsr
      have redirects := redirects_of_exact valid [] tsr
      generalize whole : tree.root.path = path at redirects
      have begins : tree.root.path <+: path := whole ▸ List.prefix_rfl
      have length := congrArg List.length whole
      cases redirects with
      | rest differs | longer differs | catchAll differs => exact absurd begins differs
      | slash _ handle wild only isParam rejects => exact .rejects slash handle wild only isParam rejects
      | child handle plain member head =>
        exact absurd head (root_absent reachable valid slash plain _ member)
      | index other => exact absurd slash other
      | twice | leaf =>
        simp only [List.length_append, List.length_cons, List.length_nil] at length
        omega
      | segment wild only isParam free nonempty =>
        have positive := List.length_pos_iff.mpr nonempty
        rw [List.length_append] at length
        omega
    · intro strays
      cases strays with
      | short rooted other => exact absurd slash other
      | rejects slash handle wild only isParam rejects =>
        exact (redirects_spec valid [] (.slash slash handle wild only isParam rejects)).2
  · have differs := (root_differs valid rooted slash []).1
    exact iff_of_true (redirects_spec valid [] (.rest differs)).2 (.short rooted slash)

include valid in
/-- The requests with two slashes, behind a first parameter. -/
theorem through_tsr_iff (slash : tree.root.path = ['/']) (wild : tree.root.wildchild = true) (u : Str) :
    (forwardLoop pcre tree.root ('/' :: '/' :: u) []).tsr = true ↔
      Strays pcre tree.root ('/' :: '/' :: u) := by
  obtain ⟨w, only⟩ := Valid.only_child valid wild
  have whole : '/' :: '/' :: u = tree.root.path ++ '/' :: u := by
    rw [slash]
    rfl
  -- the only way to stray here is through the parameter
  have strays_iff : Strays pcre tree.root ('/' :: '/' :: u) ↔
      w.type = .PARAM ∧ w.handle = none ∧ ∃ c params s, w.children = [c] ∧
        bindParam pcre w [] [] = some params ∧ Walks pcre ⟨c, '/' :: u, params⟩ s ∧
        Redirects pcre s.node s.path := by
    constructor
    · intro strays
      cases strays with
      | longer other | catchAll other => exact absurd slash other
      | twice slash plain => exact absurd (wild.symm.trans plain) (by decide)
      | through _ _ only' isParam noHandle next bound walk redirects =>
        rw [only, List.cons.injEq] at only'
        obtain ⟨rfl, -⟩ := only'
        exact ⟨isParam, noHandle, _, _, _, next, bound, walk, redirects⟩
    · rintro ⟨isParam, noHandle, c, params, s, next, bound, walk, redirects⟩
      exact .through slash wild only isParam noHandle next bound walk redirects
  rw [strays_iff]
  cases type : w.type with
  | CATCH_ALL =>
    have stop : Stops pcre ⟨tree.root, tree.root.path ++ '/' :: u, []⟩ _ := .catchAll wild only type
    rw [whole, show forwardLoop pcre tree.root _ [] = _ from stop.result_eq valid]
    simp
  | PARAM =>
    obtain ⟨params, bound⟩ : ∃ params, bindParam pcre w [] [] = some params := ⟨_, if_pos rfl⟩
    cases handle : w.handle with
    | some b =>
      have stop : Stops pcre ⟨tree.root, tree.root.path ++ '/' :: u, []⟩ _ :=
        .emptySegment wild only type bound (by simp [handle])
      rw [whole, show forwardLoop pcre tree.root _ [] = _ from stop.result_eq valid]
      simp
    | none =>
      cases next : w.children with
      | nil => exact absurd (Valid.leaf_handle valid wild only next) (by simp [handle])
      | cons c cs =>
        have one := Valid.single_of_param valid wild only type next
        have step : Descends pcre ⟨tree.root, tree.root.path ++ ([] ++ '/' :: u), []⟩
            ⟨c, '/' :: u, params⟩ :=
          .param wild only type List.not_mem_nil bound (by simp [handle]) one
        have same : forwardLoop pcre tree.root (tree.root.path ++ '/' :: u) [] =
            forwardLoop pcre c ('/' :: u) params := step.result_eq valid
        rw [whole, same, tsr_iff (step.valid valid)]
        constructor
        · rintro ⟨s, walk, redirects⟩
          exact ⟨rfl, rfl, c, params, s, next.symm.trans one, bound, walk, redirects⟩
        · rintro ⟨-, -, c', params', s, same, bound', walk, redirects⟩
          rw [bound, Option.some.injEq] at bound'
          rw [List.cons.injEq] at same
          obtain ⟨rfl, -⟩ := same
          exact ⟨s, bound' ▸ walk, redirects⟩
  | UNKNOWN | ROOT | STATIC =>
    have kind := Valid.wildValid valid wild only
    cases kind with
    | param isParam => exact absurd (type.symm.trans isParam) (by decide)
    | catchAll isCatchAll => exact absurd (type.symm.trans isCatchAll) (by decide)

include reachable valid in
/-- The requests with two slashes. -/
theorem slashes_tsr_iff (rooted : tree.root.path.head? = some '/') (u : Str) :
    (forwardLoop pcre tree.root ('/' :: '/' :: u) []).tsr = true ↔
      Strays pcre tree.root ('/' :: '/' :: u) := by
  by_cases slash : tree.root.path = ['/']
  · cases wild : tree.root.wildchild with
    | true => exact through_tsr_iff valid slash wild u
    | false =>
      have stop : Stops pcre ⟨tree.root, tree.root.path ++ '/' :: u, []⟩ _ :=
        .noChild wild (root_absent reachable valid slash wild)
      have here := congrArg Forwarded.tsr (stop.result_eq valid)
      rw [slash] at here
      rw [show (forwardLoop pcre tree.root ('/' :: '/' :: u) []).tsr = _ from here]
      simp only [Bool.and_eq_true, beq_iff_eq, List.cons.injEq, true_and]
      constructor
      · rintro ⟨rfl, handle⟩
        exact .twice slash wild handle
      · intro strays
        cases strays with
        | longer other | catchAll other => exact absurd slash other
        | twice _ _ handle => exact ⟨rfl, handle⟩
        | through _ wild' => exact absurd (wild'.symm.trans wild) (by decide)
  · have differs := (root_differs valid rooted slash u).2
    rw [forwardLoop_mismatch pcre tree.root [] differs, mismatchTsr_iff]
    constructor
    · rintro (lone | ⟨length, last, handle⟩ | ⟨w, ws, children, isCatchAll⟩)
      · exact absurd lone (by simp)
      · exact .longer slash length last handle
      · exact .catchAll slash children isCatchAll
    · intro strays
      cases strays with
      | longer other length last handle => exact Or.inr (Or.inl ⟨length, last, handle⟩)
      | catchAll other children isCatchAll => exact Or.inr (Or.inr ⟨_, _, children, isCatchAll⟩)
      | twice slash' | through slash' => exact absurd slash' slash

end Root

/-- With a slash appended the request still has one slash at its beginning. -/
def SingleSlash (path : Str) : Prop := path ≠ ['/'] ∧ ¬ ['/', '/'] <+: path

theorem Strays.doubled {root : RouterNode Ctrl} {path : Str} (strays : Strays pcre root path) :
    ¬ SingleSlash path := by
  intro single
  cases strays with
  | short | rejects => exact single.1 rfl
  | longer | catchAll | twice | through => exact single.2 ⟨_, rfl⟩

/-- The other requests are redirected exactly by `Strays`. -/
theorem strays_iff {tree : RawTree Ctrl} (reachable : tree.Reachable pcre) {path : Str} :
    Strays pcre tree.root path ↔ ¬ SingleSlash path ∧ (forwardLoop pcre tree.root path []).tsr = true := by
  rcases reachable.wellFormed with rfl | ⟨valid, slash⟩
  · rw [forwardLoop_empty]
    exact iff_of_false (not_strays_empty path) fun redirected => Bool.false_ne_true redirected.2
  · by_cases single : SingleSlash path
    · exact iff_of_false (fun strays => strays.doubled single) fun redirected => redirected.1 single
    · have doubled := single
      rw [SingleSlash, not_and_or, not_not, not_not] at doubled
      rw [and_iff_right single]
      rcases doubled with rfl | ⟨u, rfl⟩
      · exact (slash_tsr_iff reachable valid slash).symm
      · exact (slashes_tsr_iff reachable valid slash u).symm

end Cppmhd
