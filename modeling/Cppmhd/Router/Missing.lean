import Cppmhd.Router.Slash
import Cppmhd.Router.Serving

/-!
# Missing redirects

`Misses` lists the returns of `forward` that offer no redirect to a request whose longer form, with a
slash appended, has a controller.  `redirect_complete_iff` says that no other redirect is missing.
-/

open Words Table

namespace Cppmhd

variable {Ctrl : Type} {pcre : Pcre}

/-! ## Redirects that are missing -/

/-- The returns of the loop without a redirect, for requests that have a controller with a slash. -/
inductive Misses (pcre : Pcre) : RouterNode Ctrl → Str → Prop
  /-- The node ends with the slash, and only its parameter has a controller. -/
  | shorter {n w : RouterNode Ctrl} {path : Str} (slash : n.path = path ++ ['/'])
      (handle : n.handle = none) (wild : n.wildchild = true) (only : n.children = [w])
      (isParam : w.type = .PARAM) (accepts : w.re.matches pcre [] = true)
      (served : w.handle.isSome) : Misses pcre n path
  /-- A parameter without a controller takes the empty segment. -/
  | accepted {n w c : RouterNode Ctrl} (handle : n.handle = none) (wild : n.wildchild = true)
      (only : n.children = [w]) (isParam : w.type = .PARAM) (accepts : w.re.matches pcre [] = true)
      (noHandle : w.handle = none) (next : w.children = [c]) (served : c.ServesSlash pcre) :
      Misses pcre n n.path
  /-- A parameter rejects the empty segment, but has a controller for it. -/
  | rejected {n w : RouterNode Ctrl} (other : n.path ≠ ['/']) (handle : n.handle = none)
      (wild : n.wildchild = true) (only : n.children = [w]) (isParam : w.type = .PARAM)
      (rejects : w.re.matches pcre [] = false) (served : w.handle.isSome)
      (indices : n.indices ≠ ['/']) : Misses pcre n n.path
  /-- A parameter rejects the empty segment, but its child answers the slash behind it. -/
  | passed {n w c : RouterNode Ctrl} (other : n.path ≠ ['/']) (handle : n.handle = none)
      (wild : n.wildchild = true) (only : n.children = [w]) (isParam : w.type = .PARAM)
      (rejects : w.re.matches pcre [] = false) (noHandle : w.handle = none)
      (next : w.children = [c]) (served : c.ServesSlash pcre) : Misses pcre n n.path
  /-- A segment that only the wildcard behind its slash completes. -/
  | segment {n w c : RouterNode Ctrl} {seg : Str} (wild : n.wildchild = true)
      (only : n.children = [w]) (isParam : w.type = .PARAM) (free : '/' ∉ seg) (nonempty : seg ≠ [])
      (accepts : w.re.matches pcre seg = true) (noHandle : w.handle = none)
      (next : w.children = [c]) (served : c.ServesSlash pcre) (handle : c.handle = none)
      (indices : c.indices ≠ ['/']) : Misses pcre n (n.path ++ seg)

section Misses

variable {n : RouterNode Ctrl} (valid : n.Valid) (params : Params)

include valid

/-- A return of `Misses` offers no redirect, though the request with a slash has a controller. -/
theorem misses_spec {path : Str} (misses : Misses pcre n path) :
    (forwardLoop pcre n path params).ctrl = none ∧
      (forwardLoop pcre n (path ++ ['/']) params).ctrl.isSome ∧
      (forwardLoop pcre n path params).tsr = false := by
  cases misses with
  | @shorter w _ slash handle wild only isParam accepts served =>
    have differs : ¬ n.path <+: path := not_prefix_of_append slash (List.cons_ne_nil _ _)
    rw [forwardLoop_mismatch pcre n params differs]
    refine ⟨rfl, (mismatch_slash valid params differs).mpr
      ⟨slash, Or.inr ⟨w, wild, only, Or.inr ⟨isParam, accepts⟩, served⟩⟩, ?_⟩
    rw [← Bool.not_eq_true, mismatchTsr_iff]
    rintro (rfl | ⟨-, -, here⟩ | ⟨v, vs, children, isCatchAll⟩)
    · exact Valid.path_ne_slashes valid slash
    · exact absurd here (by simp [handle])
    · rw [only, List.cons.injEq] at children
      obtain ⟨rfl, -⟩ := children
      exact absurd (isParam.symm.trans isCatchAll) (by decide)
  | @accepted w c handle wild only isParam accepts noHandle next served =>
    have here := forwardLoop_exact pcre n params
    rw [exactMatch_answered pcre handle wild only (Or.inr ⟨isParam, accepts⟩)] at here
    have bound := bindParam_empty_accepts accepts params
    exact ⟨(congrArg Forwarded.ctrl here).trans noHandle,
      (param_slash valid params wild only isParam List.not_mem_nil bound).mpr
        (Or.inr ⟨c, next, served⟩), congrArg Forwarded.tsr here⟩
  | @rejected w other handle wild only isParam rejects served indices =>
    have here := forwardLoop_exact pcre n params
    have quiet : slashTsr pcre n = false := by
      rw [← Bool.not_eq_true, slashTsr_wild valid wild only isParam]
      exact fun h => indices h.1
    rw [exactMatch_rejects valid handle wild only isParam rejects, if_neg other, quiet] at here
    have bound := bindParam_empty_rejects rejects params
    exact ⟨congrArg Forwarded.ctrl here,
      (param_slash valid params wild only isParam List.not_mem_nil bound).mpr (Or.inl ⟨rfl, served⟩),
      congrArg Forwarded.tsr here⟩
  | @passed w c other handle wild only isParam rejects noHandle next served =>
    have here := forwardLoop_exact pcre n params
    have quiet : slashTsr pcre n = false := by
      rw [← Bool.not_eq_true, slashTsr_wild valid wild only isParam]
      exact fun h => absurd h.2 (by simp [noHandle])
    rw [exactMatch_rejects valid handle wild only isParam rejects, if_neg other, quiet] at here
    have bound := bindParam_empty_rejects rejects params
    exact ⟨congrArg Forwarded.ctrl here,
      (param_slash valid params wild only isParam List.not_mem_nil bound).mpr
        (Or.inr ⟨c, next, served⟩), congrArg Forwarded.tsr here⟩
  | @segment w c seg wild only isParam free nonempty accepts noHandle next served handle indices =>
    have bound := bindParam_accepts nonempty accepts params
    have here := (Stops.paramEnd wild only isParam free nonempty bound).result_eq valid
    rw [if_neg (by simp [noHandle])] at here
    refine ⟨congrArg Forwarded.ctrl here, ?_, (congrArg Forwarded.tsr here).trans ?_⟩
    · rw [List.append_assoc]
      exact (param_slash valid params wild only isParam free bound).mpr (Or.inr ⟨c, next, served⟩)
    · simp [paramEndTsr, next, handle, indices]

/-- The missing redirects of a mismatch. -/
theorem misses_of_mismatch {path : Str} (differs : ¬ n.path <+: path)
    (tsr : mismatchTsr n path = false)
    (found : (forwardLoop pcre n (path ++ ['/']) params).ctrl.isSome) : Misses pcre n path := by
  rw [← Bool.not_eq_true, mismatchTsr_iff, not_or, not_or] at tsr
  obtain ⟨-, notLonger, notCatchAll⟩ := tsr
  obtain ⟨slash, served⟩ := (mismatch_slash valid params differs).mp found
  have handle : n.handle = none := by
    rw [← Option.not_isSome_iff_eq_none]
    intro handle
    exact notLonger ⟨by simp [slash], by simp [slash], handle⟩
  rcases served with served | ⟨w, wild, only, isCatchAll | ⟨isParam, accepts⟩, served⟩
  · exact absurd served (by simp [handle])
  · exact absurd ⟨w, [], only, isCatchAll⟩ notCatchAll
  · exact .shorter slash handle wild only isParam accepts served

/-- The missing redirects of an exact match. -/
theorem misses_of_exact (ctrl : (exactMatch pcre n n.path params).ctrl = none)
    (tsr : (exactMatch pcre n n.path params).tsr = false)
    (found : (forwardLoop pcre n (n.path ++ ['/']) params).ctrl.isSome) :
    Misses pcre n n.path := by
  have unserved : ¬ n.ServesEmpty pcre := by
    rw [← exactMatch_ctrl valid params n.path, ctrl]
    exact Bool.false_ne_true
  have handle : n.handle = none := by
    rw [← Option.not_isSome_iff_eq_none]
    exact fun handle => unserved (Or.inl handle)
  cases wild : n.wildchild with
  | false =>
    -- a plain node tests its child for the slash just as the longer request meets it
    rw [exactMatch_plain handle wild, ← Bool.not_eq_true] at tsr
    obtain ⟨c, member, head, path, served⟩ := (exact_slash_plain valid params wild).mp found
    refine absurd ((slashTsr_child valid wild member head).mpr ?_) tsr
    exact served.imp_left fun handle => ⟨by rw [path]; rfl, handle⟩
  | true =>
    obtain ⟨w, only⟩ := Valid.only_child valid wild
    have isParam : w.type = .PARAM := by
      cases Valid.wildValid valid wild only with
      | param isParam => exact isParam
      | catchAll isCatchAll _ _ _ served =>
        exact absurd (Or.inr ⟨w, wild, only, Or.inl isCatchAll, served⟩) unserved
    cases accepts : w.re.matches pcre [] with
    | true =>
      have noHandle : w.handle = none := by
        rw [← Option.not_isSome_iff_eq_none]
        exact fun served => unserved (Or.inr ⟨w, wild, only, Or.inr ⟨isParam, accepts⟩, served⟩)
      have bound := bindParam_empty_accepts accepts params
      rcases (param_slash valid params wild only isParam List.not_mem_nil bound).mp found with
        ⟨-, served⟩ | ⟨c, next, served⟩
      · exact absurd served (by simp [noHandle])
      · exact .accepted handle wild only isParam accepts noHandle next served
    | false =>
      rw [exactMatch_rejects valid handle wild only isParam accepts] at tsr
      have other : n.path ≠ ['/'] := by
        intro slash
        rw [if_pos slash] at tsr
        exact absurd tsr (by simp)
      rw [if_neg other, ← Bool.not_eq_true, slashTsr_wild valid wild only isParam] at tsr
      have bound := bindParam_empty_rejects accepts params
      by_cases served : w.handle.isSome
      · exact .rejected other handle wild only isParam accepts served fun indices =>
          tsr ⟨indices, served⟩
      · rcases (param_slash valid params wild only isParam List.not_mem_nil bound).mp found with
          ⟨-, served'⟩ | ⟨c, next, answered⟩
        · exact absurd served' served
        · exact .passed other handle wild only isParam accepts
            (Option.not_isSome_iff_eq_none.mp served) next answered

/-- Every missing redirect is missing at a return of `Misses`. -/
theorem stops_misses {path : Str} {r : Forwarded Ctrl} (stop : Stops pcre ⟨n, path, params⟩ r)
    (ctrl : r.ctrl = none) (tsr : r.tsr = false)
    (found : (forwardLoop pcre n (path ++ ['/']) params).ctrl.isSome) : Misses pcre n path := by
  cases stop with
  | mismatch differs => exact misses_of_mismatch valid params differs tsr found
  | exact => exact misses_of_exact valid params ctrl tsr found
  | noChild plain absent =>
    rw [noChild_slash valid params plain absent] at found
    exact absurd found (by simp)
  | catchAll wild only isCatchAll =>
    have served := Valid.catchAll_handle valid wild only isCatchAll
    dsimp only at ctrl
    rw [ctrl] at served
    exact absurd served (by simp)
  | rejected wild only isParam free ends bound =>
    rw [rejected_slash valid params wild only isParam free ends bound] at found
    exact absurd found (by simp)
  | emptySegment wild only isParam bound served =>
    dsimp only at ctrl
    rw [ctrl] at served
    exact absurd served (by simp)
  | @paramEnd _ w seg _ params' wild only isParam free nonempty bound =>
    have noHandle : w.handle = none := by
      rw [← Option.not_isSome_iff_eq_none]
      intro handle
      rw [if_pos handle] at ctrl
      dsimp only at ctrl
      rw [ctrl] at handle
      exact absurd handle (by simp)
    rw [if_neg (by simp [noHandle])] at tsr
    rw [List.append_assoc] at found
    rcases (param_slash valid params wild only isParam free bound).mp found with
      ⟨empty, -⟩ | ⟨c, next, served⟩
    · exact absurd empty nonempty
    · simp only [next, paramEndTsr, served.1, beq_self_eq_true, Bool.true_and, Bool.or_eq_false_iff,
        Option.isSome_eq_false_iff, Option.isNone_iff_eq_none, beq_eq_false_iff_ne] at tsr
      exact .segment wild only isParam free nonempty (accepts_of_bound nonempty bound) noHandle next
        served tsr.1 tsr.2
  | paramLeaf wild only isParam free bound goes leaf =>
    rw [paramLeaf_slash valid params wild only isParam free bound goes leaf] at found
    exact absurd found (by simp)

end Misses

/-! ## Routers -/

theorem not_misses_empty (path : Str) : ¬ Misses pcre ({} : RouterNode Ctrl) path := by
  intro misses
  cases misses with
  | shorter slash => exact absurd slash (by simp)
  | accepted handle wild | rejected other handle wild | passed other handle wild | segment wild =>
    exact absurd wild (by simp)

/-- A request that has a controller only with a slash is offered the redirect, unless its walk ends
in a return of `Misses`. -/
theorem redirect_complete_iff (pcre : Pcre) (pre : Str) (builder : RouterBuilder Ctrl)
    (m : HttpMethod) (path : Str) (params : Params) :
    let router := (Router.buildTree pcre pre builder).1
    ((router.forward pcre m path params).ctrl = none →
        (router.forward pcre m (path ++ ['/']) params).ctrl.isSome →
          (router.forward pcre m path params).tsr = true) ↔
      ¬ ∃ s, Walks pcre ⟨router.tree m, path, params⟩ s ∧ Misses pcre s.node s.path := by
  intro router
  rw [forward_eq, forward_eq]
  rcases buildTree_wellFormed pcre pre builder m with empty | ⟨valid, -⟩
  · have root : router.tree m = {} := congrArg RawTree.root empty
    rw [root, forwardLoop_empty, forwardLoop_empty]
    refine iff_of_true (fun _ found => absurd found (by simp)) ?_
    rintro ⟨s, walk, misses⟩
    rw [walks_empty walk] at misses
    exact not_misses_empty path misses
  · rw [← exists_end_iff valid path params
      (Q := fun r r' => r.ctrl = none ∧ r'.ctrl.isSome ∧ r.tsr = false)
      (fun n path params valid misses => misses_spec valid params misses)
      (fun n path params r valid stop missing =>
        stops_misses valid params stop missing.1 missing.2.2 missing.2.1)]
    simp only [not_and, Bool.not_eq_false]
    exact Iff.rfl

/-- `/foo/` is answered by the empty parameter, but `/foo` is not redirected to it. -/
theorem redirect_missing :
    let router := (Router.buildTree anyPcre [] ⟨[(.GET, "/foo/\x7b:id\x7d".toList, 1)]⟩).1
    router.valid = true ∧
      router.forward anyPcre .GET "/foo".toList [] = ⟨none, [], false⟩ ∧
      (router.forward anyPcre .GET "/foo/".toList []).ctrl = some 1 := by
  decide +kernel

end Cppmhd
