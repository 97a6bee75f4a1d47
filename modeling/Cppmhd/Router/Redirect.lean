import Cppmhd.Router.Slash
import Cppmhd.Router.Serving

/-!
# Redirects that lead nowhere

`forward` offers a redirect (`tsr`) where it expects the request with a slash appended to have a
controller.  `Misleads` lists the returns that offer one to a request without a controller, and
`redirect_sound_iff` says that an offered redirect leads to a controller unless the walk of the request
ends in one of them.
-/

open Words Table

namespace Cppmhd

variable {Ctrl : Type} {pcre : Pcre}

/-! ## Redirects that lead nowhere -/

/-- The returns of the loop that offer a redirect to a request without a controller. -/
inductive Misleads (pcre : Pcre) : RouterNode Ctrl → Str → Prop
  /-- The rest is `/`, and the path of the node is another. -/
  | rest {n : RouterNode Ctrl} (differs : ¬ n.path <+: ['/']) : Misleads pcre n ['/']
  /-- The path of the node is one longer than the rest and ends with a slash, but is another. -/
  | longer {n : RouterNode Ctrl} {path : Str} (differs : ¬ n.path <+: path)
      (length : n.path.length = path.length + 1) (last : n.path[path.length]? = some '/')
      (handle : n.handle.isSome) (other : n.path ≠ path ++ ['/']) : Misleads pcre n path
  /-- The first child has the type of a catch-all, but the path of the node is not the rest with a
  slash. -/
  | catchAll {n w : RouterNode Ctrl} {ws : List (RouterNode Ctrl)} {path : Str}
      (differs : ¬ n.path <+: path) (children : n.children = w :: ws) (isCatchAll : w.type = .CATCH_ALL)
      (other : n.path ≠ path ++ ['/']) : Misleads pcre n path
  /-- The first child of a node without a wildcard is typed like the catch-all that it has below. -/
  | typed {n w : RouterNode Ctrl} {ws : List (RouterNode Ctrl)} {path : Str}
      (slash : n.path = path ++ ['/']) (plain : n.wildchild = false) (handle : n.handle = none)
      (children : n.children = w :: ws) (isCatchAll : w.type = .CATCH_ALL) : Misleads pcre n path
  /-- A node `/` above a parameter that does not answer. -/
  | slash {n w : RouterNode Ctrl} (slash : n.path = ['/']) (handle : n.handle = none)
      (wild : n.wildchild = true) (only : n.children = [w]) (isParam : w.type = .PARAM)
      (rejects : w.re.matches pcre [] = false) (noHandle : w.handle = none)
      (silent : ∀ c, w.children = [c] → ¬ c.ServesSlash pcre) : Misleads pcre n ['/']
  /-- The child for `/` goes on before its wildcard. -/
  | child {n c v : RouterNode Ctrl} (handle : n.handle = none) (plain : n.wildchild = false)
      (member : c ∈ n.children) (head : c.path.head? = some '/') (further : c.path ≠ ['/'])
      (wild : c.wildchild = true) (only : c.children = [v]) (answers : v.AnswersEmpty pcre)
      (served : v.handle.isSome) : Misleads pcre n n.path
  /-- A second slash at the end of a request. -/
  | twice {n : RouterNode Ctrl} (plain : n.wildchild = false) (handle : n.handle.isSome)
      (absent : ∀ c ∈ n.children, c.path.head? ≠ some '/') : Misleads pcre n (n.path ++ ['/'])
  /-- A parameter whose child has the single index `/` but does not answer a slash. -/
  | indices {n w c : RouterNode Ctrl} {seg : Str} (wild : n.wildchild = true)
      (only : n.children = [w]) (isParam : w.type = .PARAM) (free : '/' ∉ seg) (nonempty : seg ≠ [])
      (accepts : w.re.matches pcre seg = true) (noHandle : w.handle = none)
      (next : w.children = [c]) (indices : c.indices = ['/']) (silent : ¬ c.ServesSlash pcre) :
      Misleads pcre n (n.path ++ seg)
  /-- A slash behind a parameter that ends a route. -/
  | leaf {n w : RouterNode Ctrl} {seg : Str} (wild : n.wildchild = true) (only : n.children = [w])
      (isParam : w.type = .PARAM) (free : '/' ∉ seg) (nonempty : seg ≠ [])
      (accepts : w.re.matches pcre seg = true) (leaf : w.children = []) :
      Misleads pcre n (n.path ++ (seg ++ ['/']))

/-- A mismatch that offers a redirect to a request that the node does not answer. -/
theorem lost_of_mismatch {n : RouterNode Ctrl} (valid : n.Valid) {path : Str}
    (differs : ¬ n.path <+: path) (tsr : mismatchTsr n path = true)
    (unserved : ¬ (n.path = path ++ ['/'] ∧ n.ServesEmpty pcre)) (params : Params) :
    (forwardLoop pcre n path params).ctrl = none ∧ (forwardLoop pcre n path params).tsr = true ∧
      (forwardLoop pcre n (path ++ ['/']) params).ctrl = none := by
  rw [forwardLoop_mismatch pcre n params differs]
  refine ⟨rfl, tsr, ?_⟩
  rw [← Option.not_isSome_iff_eq_none, mismatch_slash valid params differs]
  exact unserved

/-- A return of `Misleads` offers a redirect, and the redirected request has no controller. -/
theorem misleads_spec {n : RouterNode Ctrl} {path : Str} (misleads : Misleads pcre n path)
    (valid : n.Valid) (params : Params) :
    (forwardLoop pcre n path params).ctrl = none ∧ (forwardLoop pcre n path params).tsr = true ∧
      (forwardLoop pcre n (path ++ ['/']) params).ctrl = none := by
  cases misleads with
  | rest differs =>
    have tsr := (mismatchTsr_iff n ['/']).mpr (Or.inl rfl)
    exact lost_of_mismatch valid differs tsr (fun h => Valid.path_ne_slashes valid h.1) params
  | longer differs length last handle other =>
    have tsr := (mismatchTsr_iff n path).mpr (Or.inr (Or.inl ⟨length, last, handle⟩))
    exact lost_of_mismatch valid differs tsr (fun h => other h.1) params
  | catchAll differs children isCatchAll other =>
    have tsr := (mismatchTsr_iff n path).mpr (Or.inr (Or.inr ⟨_, _, children, isCatchAll⟩))
    exact lost_of_mismatch valid differs tsr (fun h => other h.1) params
  | typed slash plain handle children isCatchAll =>
    have differs : ¬ n.path <+: path := not_prefix_of_append slash (List.cons_ne_nil _ _)
    have tsr := (mismatchTsr_iff n path).mpr (Or.inr (Or.inr ⟨_, _, children, isCatchAll⟩))
    refine lost_of_mismatch valid differs tsr ?_ params
    rintro ⟨-, served | ⟨w, wild, -⟩⟩
    · exact absurd served (by simp [handle])
    · exact absurd (wild.symm.trans plain) (by decide)
  | @slash w slash handle wild only isParam rejects noHandle silent =>
    have here := forwardLoop_exact pcre n params
    rw [exactMatch_rejects valid handle wild only isParam rejects, if_pos slash, slash] at here
    refine ⟨congrArg Forwarded.ctrl here, congrArg Forwarded.tsr here, ?_⟩
    have bound := bindParam_empty_rejects rejects params
    have served := param_slash valid params wild only isParam List.not_mem_nil bound
    rw [slash] at served
    rw [← Option.not_isSome_iff_eq_none]
    intro some
    rcases served.mp some with ⟨-, answered⟩ | ⟨c, next, answered⟩
    · exact absurd answered (by simp [noHandle])
    · exact silent c next answered
  | @child c v handle plain member head further wild only answers served =>
    have here := forwardLoop_exact pcre n params
    rw [exactMatch_plain handle plain,
      (slashTsr_child valid plain member head).mpr (Or.inr ⟨v, wild, only, answers, served⟩)] at here
    refine ⟨congrArg Forwarded.ctrl here, congrArg Forwarded.tsr here, ?_⟩
    rw [← Option.not_isSome_iff_eq_none, exact_slash_plain valid params plain]
    rintro ⟨d, hd, headD, served⟩
    obtain rfl := Valid.child_unique valid plain member hd (head.trans headD.symm)
    exact further served.1
  | twice plain handle absent =>
    have stop : Stops pcre ⟨n, n.path ++ ['/'], params⟩ _ := .noChild plain absent
    have here := stop.result_eq valid
    have ctrl := congrArg Forwarded.ctrl here
    have tsr := congrArg Forwarded.tsr here
    refine ⟨ctrl, tsr.trans ?_, noChild_slash valid params plain absent⟩
    simpa using handle
  | @indices w c seg wild only isParam free nonempty accepts noHandle next indices silent =>
    have bound := bindParam_accepts nonempty accepts params
    have here := (Stops.paramEnd wild only isParam free nonempty bound).result_eq valid
    rw [if_neg (by simp [noHandle])] at here
    refine ⟨congrArg Forwarded.ctrl here, (congrArg Forwarded.tsr here).trans ?_, ?_⟩
    · simp [paramEndTsr, next, indices]
    · have served := param_slash valid params wild only isParam free bound
      rw [List.append_assoc, ← Option.not_isSome_iff_eq_none]
      intro some
      rcases served.mp some with ⟨empty, -⟩ | ⟨d, next', answered⟩
      · exact nonempty empty
      · rw [next, List.cons.injEq] at next'
        exact silent (next'.1 ▸ answered)
  | @leaf w seg wild only isParam free nonempty accepts leaf =>
    have bound := bindParam_accepts nonempty accepts params
    have goes : ¬ (seg = [] ∧ w.handle.isSome) := fun h => nonempty h.1
    have stop : Stops pcre ⟨n, n.path ++ (seg ++ ['/']), params⟩ _ :=
      .paramLeaf wild only isParam free bound goes leaf
    have here := stop.result_eq valid
    exact ⟨congrArg Forwarded.ctrl here, congrArg Forwarded.tsr here,
      paramLeaf_slash valid params wild only isParam free bound goes leaf⟩

section Converse

variable {n : RouterNode Ctrl} (valid : n.Valid) (params : Params)

include valid

/-- The flags of a mismatch. -/
theorem misleads_of_mismatch {path : Str} (differs : ¬ n.path <+: path)
    (tsr : mismatchTsr n path = true)
    (lost : (forwardLoop pcre n (path ++ ['/']) params).ctrl = none) : Misleads pcre n path := by
  rw [← Option.not_isSome_iff_eq_none, mismatch_slash valid params differs] at lost
  rcases (mismatchTsr_iff n path).mp tsr with rfl | ⟨length, last, handle⟩ | ⟨w, ws, children, isCatchAll⟩
  · exact .rest differs
  · exact .longer differs length last handle fun same => lost ⟨same, Or.inl handle⟩
  · by_cases same : n.path = path ++ ['/']
    · have handle : n.handle = none := by
        rw [← Option.not_isSome_iff_eq_none]
        exact fun handle => lost ⟨same, Or.inl handle⟩
      cases wild : n.wildchild with
      | false => exact .typed same wild handle children isCatchAll
      | true =>
        obtain ⟨w', only⟩ := Valid.only_child valid wild
        rw [only, List.cons.injEq] at children
        obtain ⟨rfl, -⟩ := children
        exact absurd ⟨same, Or.inr ⟨w', wild, only, Or.inl isCatchAll,
          Valid.catchAll_handle valid wild only isCatchAll⟩⟩ lost
    · exact .catchAll differs children isCatchAll same

/-- The flags of an exact match. -/
theorem misleads_of_exact (ctrl : (exactMatch pcre n n.path params).ctrl = none)
    (tsr : (exactMatch pcre n n.path params).tsr = true)
    (lost : (forwardLoop pcre n (n.path ++ ['/']) params).ctrl = none) : Misleads pcre n n.path := by
  have handle : n.handle = none := by
    rw [← Option.not_isSome_iff_eq_none]
    intro handle
    rw [exactMatch_handle pcre handle] at ctrl
    dsimp only at ctrl
    rw [ctrl] at handle
    exact absurd handle (by simp)
  rw [← Option.not_isSome_iff_eq_none] at lost
  cases wild : n.wildchild with
  | false =>
    rw [exactMatch_plain handle wild] at tsr
    rw [exact_slash_plain valid params wild] at lost
    by_cases present : ∃ c ∈ n.children, c.path.head? = some '/'
    · obtain ⟨c, member, head⟩ := present
      have unserved : ¬ c.ServesSlash pcre := fun served => lost ⟨c, member, head, served⟩
      rcases (slashTsr_child valid wild member head).mp tsr with
        ⟨length, served⟩ | ⟨v, wildC, only, answers, served⟩
      · obtain ⟨x, one⟩ := List.length_eq_one_iff.mp length
        rw [one] at head
        obtain rfl : x = '/' := Option.some.inj head
        exact absurd ⟨one, Or.inl served⟩ unserved
      · refine .child handle wild member head ?_ wildC only answers served
        intro slash
        exact unserved ⟨slash, Or.inr ⟨v, wildC, only, answers, served⟩⟩
    · rw [slashTsr_absent valid wild fun c member head => present ⟨c, member, head⟩] at tsr
      exact absurd tsr Bool.false_ne_true
  | true =>
    obtain ⟨w, only⟩ := Valid.only_child valid wild
    by_cases answers : w.AnswersEmpty pcre
    · rw [exactMatch_answered pcre handle wild only answers] at tsr
      exact absurd tsr (by simp)
    · have isParam : w.type = .PARAM := by
        cases Valid.wildValid valid wild only with
        | param isParam => exact isParam
        | catchAll isCatchAll => exact absurd (Or.inl isCatchAll) answers
      have rejects : w.re.matches pcre [] = false := by
        rw [← Bool.not_eq_true]
        exact fun accepts => answers (Or.inr ⟨isParam, accepts⟩)
      have bound := bindParam_empty_rejects rejects params
      have served := param_slash valid params wild only isParam List.not_mem_nil bound
      rw [List.nil_append] at served
      rw [served] at lost
      rw [exactMatch_rejects valid handle wild only isParam rejects] at tsr
      by_cases slash : n.path = ['/']
      · have noHandle : w.handle = none := by
          rw [← Option.not_isSome_iff_eq_none]
          exact fun handle => lost (Or.inl ⟨rfl, handle⟩)
        rw [slash]
        exact .slash slash handle wild only isParam rejects noHandle fun c next answered =>
          lost (Or.inr ⟨c, next, answered⟩)
      · rw [if_neg slash] at tsr
        obtain ⟨-, handle⟩ := (slashTsr_wild valid wild only isParam).mp tsr
        exact absurd (Or.inl ⟨rfl, handle⟩) lost

/-- Every redirect that leads nowhere is offered by a return of `Misleads`. -/
theorem stops_misleads {path : Str} {r : Forwarded Ctrl} (stop : Stops pcre ⟨n, path, params⟩ r)
    (ctrl : r.ctrl = none) (tsr : r.tsr = true)
    (lost : (forwardLoop pcre n (path ++ ['/']) params).ctrl = none) : Misleads pcre n path := by
  cases stop with
  | mismatch differs => exact misleads_of_mismatch valid params differs tsr lost
  | exact => exact misleads_of_exact valid params ctrl tsr lost
  | @noChild _ x t _ plain absent =>
    simp only [Bool.and_eq_true, beq_iff_eq, List.cons.injEq] at tsr
    obtain ⟨⟨rfl, rfl⟩, handle⟩ := tsr
    exact .twice plain handle absent
  | catchAll | rejected | emptySegment => exact absurd tsr (by simp)
  | @paramEnd _ w seg _ params' wild only isParam free nonempty bound =>
    have accepts := accepts_of_bound nonempty bound
    have noHandle : w.handle = none := by
      rw [← Option.not_isSome_iff_eq_none]
      intro handle
      rw [if_pos handle] at tsr
      exact absurd tsr (by simp)
    rw [if_neg (by simp [noHandle])] at tsr
    rw [List.append_assoc, ← Option.not_isSome_iff_eq_none,
      param_slash valid params wild only isParam free bound] at lost
    cases next : w.children with
    | nil => exact absurd tsr (by simp [next, paramEndTsr])
    | cons c cs =>
      have one := Valid.single_of_param valid wild only isParam next
      have silent : ¬ c.ServesSlash pcre := fun answered => lost (Or.inr ⟨c, one, answered⟩)
      have unserved : ¬ (c.path = ['/'] ∧ c.handle.isSome) :=
        fun h => silent ⟨h.1, Or.inl h.2⟩
      simp only [next, paramEndTsr, Bool.or_eq_true, Bool.and_eq_true, beq_iff_eq, unserved,
        false_or] at tsr
      exact .indices wild only isParam free nonempty accepts noHandle one tsr silent
  | @paramLeaf _ w seg rest _ params' wild only isParam free bound goes leaf =>
    have nonempty : seg ≠ [] := fun empty => goes ⟨empty, Valid.leaf_handle valid wild only leaf⟩
    have accepts := accepts_of_bound nonempty bound
    simp only [beq_iff_eq, List.cons.injEq, true_and] at tsr
    subst tsr
    exact .leaf wild only isParam free nonempty accepts leaf

end Converse

/-! ## Routers -/

theorem not_misleads_empty (path : Str) : ¬ Misleads pcre ({} : RouterNode Ctrl) path := by
  intro misleads
  cases misleads with
  | rest differs | longer differs | catchAll differs => exact differs List.nil_prefix
  | typed slash => exact absurd slash (by simp)
  | slash slash => exact absurd slash (by simp)
  | child handle plain member => exact absurd member List.not_mem_nil
  | twice plain handle => exact absurd handle (by simp)
  | indices wild | leaf wild => exact absurd wild (by simp)

/-- An offered redirect leads to a controller unless the walk of the request ends in a return of
`Misleads`. -/
theorem redirect_sound_iff (pcre : Pcre) (pre : Str) (builder : RouterBuilder Ctrl) (m : HttpMethod)
    (path : Str) (params : Params) :
    let router := (Router.buildTree pcre pre builder).1
    ((router.forward pcre m path params).ctrl = none →
        (router.forward pcre m path params).tsr = true →
          (router.forward pcre m (path ++ ['/']) params).ctrl.isSome) ↔
      ¬ ∃ s, Walks pcre ⟨router.tree m, path, params⟩ s ∧ Misleads pcre s.node s.path := by
  intro router
  rw [forward_eq, forward_eq]
  rcases buildTree_wellFormed pcre pre builder m with empty | ⟨valid, -⟩
  · have root : router.tree m = {} := congrArg RawTree.root empty
    rw [root, forwardLoop_empty]
    refine iff_of_true (fun _ tsr => absurd tsr (by simp)) ?_
    rintro ⟨s, walk, misleads⟩
    rw [walks_empty walk] at misleads
    exact not_misleads_empty path misleads
  · rw [← exists_end_iff valid path params (Q := fun r r' => r.ctrl = none ∧ r.tsr = true ∧ r'.ctrl = none)
      (fun n path params valid misleads => misleads_spec misleads valid params)
      (fun n path params r valid stop lost =>
        stops_misleads valid params stop lost.1 lost.2.1 lost.2.2)]
    simp only [not_and, ← Option.isSome_iff_ne_none]
    exact Iff.rfl

/-- The only route does not begin with `/` alone, but the request `/` is redirected to `//`. -/
theorem redirect_lost :
    let router := (Router.buildTree anyPcre [] ⟨[(.GET, "/foo".toList, 1)]⟩).1
    router.valid = true ∧ router.forward anyPcre .GET "/".toList [] = ⟨none, [], true⟩ ∧
      router.forward anyPcre .GET "//".toList [] = ⟨none, [], false⟩ := by
  decide +kernel

end Cppmhd
