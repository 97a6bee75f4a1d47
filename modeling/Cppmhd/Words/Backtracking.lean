import Mathlib.Computability.Language
import Mathlib.Data.List.TakeWhile

/-!
# Patterns and backtracking

Patterns with named groups, and the search that tries alternatives in their order and repetitions as long
ones first.  A pattern is found exactly if there is a way to match it (`exec_isSome_iff`), and what a
pattern without groups and assertions matches is a language (`Recognises`).  Where a repetition of single
symbols may stop in one place only, it stops there (`exec_star_stop`).
-/

namespace Words

variable {α γ β : Type*}

/-- A pattern with named groups. -/
inductive Re (α γ : Type*) where
  /-- A symbol. -/
  | one (p : α → Bool)
  /-- An assertion on what is before and behind. -/
  | look (p : List α → List α → Bool)
  | seq (e f : Re α γ)
  /-- The first alternative is preferred. -/
  | alt (e f : Re α γ)
  /-- As often as possible. -/
  | star (e : Re α γ)
  | group (name : γ) (e : Re α γ)

namespace Re

/-- It matches nothing but the empty word. -/
def eps : Re α γ := look fun _ _ => true

/-- Once rather than not at all. -/
def opt (e : Re α γ) : Re α γ := alt e eps

/-- At least once, as often as possible. -/
def plus (e : Re α γ) : Re α γ := seq e (star e)

/-- The beginning of the subject. -/
def start : Re α γ := look fun before _ => before.isEmpty

end Re

/-- How far a subject is matched, and what the groups have matched. -/
structure Scan (α γ : Type*) where
  before : List α
  rest : List α
  groups : List (γ × List α) := []

/-- The symbols `w` are matched, and `rest` is left. -/
def Scan.move (s : Scan α γ) (w rest : List α) : Scan α γ := ⟨s.before ++ w, rest, s.groups⟩

/-- What a group has matched since this place. -/
def Scan.close (s : Scan α γ) (name : γ) (s' : Scan α γ) : Scan α γ :=
  { s' with groups := s'.groups ++ [(name, s'.before.drop s.before.length)] }

/-- The last match of a group, empty if it has none. -/
def lastMatch [DecidableEq γ] (name : γ) (groups : List (γ × List α)) : List α :=
  ((groups.filter (·.1 = name)).getLast?.map (·.2)).getD []

/-- What a group has matched last. -/
def Scan.named [DecidableEq γ] (s : Scan α γ) (name : γ) : List α := lastMatch name s.groups

/-- A repetition.  After a match of nothing it is not tried again. -/
def iterate (run : Scan α γ → (Scan α γ → Option β) → Option β) (k : Scan α γ → Option β) :
    ℕ → Scan α γ → Option β
  | 0, s => k s
  | n + 1, s =>
    (run s fun s' => if s'.rest.length < s.rest.length then iterate run k n s' else k s').or (k s)

/-- The search with what is to be matched behind the pattern. -/
def Re.exec : Re α γ → Scan α γ → (Scan α γ → Option β) → Option β
  | one p, s, k =>
    match s.rest with
    | x :: t => if p x then k (s.move [x] t) else none
    | [] => none
  | look p, s, k => if p s.before s.rest then k s else none
  | seq e f, s, k => e.exec s fun s => f.exec s k
  | alt e f, s, k => (e.exec s k).or (f.exec s k)
  | star e, s, k => iterate e.exec k (s.rest.length + 1) s
  | group name e, s, k => e.exec s fun s' => k (s.close name s')

section Exec

variable (e f : Re α γ) (s : Scan α γ) {k : Scan α γ → Option β}

theorem iterate_succ (run : Scan α γ → (Scan α γ → Option β) → Option β) (n : ℕ) :
    iterate run k (n + 1) s =
      (run s fun s' => if s'.rest.length < s.rest.length then iterate run k n s' else k s').or (k s) := rfl

theorem exec_one_cons {p : α → Bool} {x : α} {t : List α} (next : s.rest = x :: t) :
    (Re.one p).exec s k = if p x then k (s.move [x] t) else none := by
  rw [Re.exec, next]

theorem exec_one_nil {p : α → Bool} (empty : s.rest = []) : (Re.one p).exec s k = none := by
  rw [Re.exec, empty]

theorem exec_look (p : List α → List α → Bool) :
    (Re.look p).exec s k = if p s.before s.rest then k s else none := rfl

theorem exec_seq : (Re.seq e f).exec s k = e.exec s fun s => f.exec s k := rfl

theorem exec_alt : (Re.alt e f).exec s k = (e.exec s k).or (f.exec s k) := rfl

theorem exec_opt : e.opt.exec s k = (e.exec s k).or (k s) := rfl

theorem exec_star : (Re.star e).exec s k = iterate e.exec k (s.rest.length + 1) s := rfl

theorem exec_group (name : γ) : (Re.group name e).exec s k = e.exec s fun s' => k (s.close name s') := rfl

end Exec

/-- The search from one place of the subject on. -/
def Re.searchFrom (e : Re α γ) (before : List α) : List α → Option (Scan α γ)
  | [] => e.exec ⟨before, [], []⟩ some
  | x :: rest => (e.exec ⟨before, x :: rest, []⟩ some).or (e.searchFrom (before ++ [x]) rest)

/-- The search for the leftmost match. -/
def Re.search (e : Re α γ) (subject : List α) : Option (Scan α γ) := e.searchFrom [] subject

/-! ## Ways to match -/

/-- A way to match a pattern. -/
inductive Matches : Re α γ → Scan α γ → Scan α γ → Prop
  | one {p : α → Bool} {s : Scan α γ} {x : α} {t : List α} (next : s.rest = x :: t) (fits : p x = true) :
      Matches (.one p) s (s.move [x] t)
  | look {p : List α → List α → Bool} {s : Scan α γ} (holds : p s.before s.rest = true) :
      Matches (.look p) s s
  | seq {e f : Re α γ} {s s' s'' : Scan α γ} (first : Matches e s s') (second : Matches f s' s'') :
      Matches (.seq e f) s s''
  | left {e f : Re α γ} {s s' : Scan α γ} (way : Matches e s s') : Matches (.alt e f) s s'
  | right {e f : Re α γ} {s s' : Scan α γ} (way : Matches f s s') : Matches (.alt e f) s s'
  | done {e : Re α γ} {s : Scan α γ} : Matches (.star e) s s
  | last {e : Re α γ} {s s' : Scan α γ} (way : Matches e s s') (nothing : s.rest.length ≤ s'.rest.length) :
      Matches (.star e) s s'
  | more {e : Re α γ} {s s' s'' : Scan α γ} (way : Matches e s s') (shorter : s'.rest.length < s.rest.length)
      (rest : Matches (.star e) s' s'') : Matches (.star e) s s''
  | group {name : γ} {e : Re α γ} {s s' : Scan α γ} (way : Matches e s s') :
      Matches (.group name e) s (s.close name s')

section Ways

variable {e f : Re α γ} {s s' : Scan α γ} {k : Scan α γ → Option β}

@[simp] theorem matches_one {p : α → Bool} :
    Matches (.one p) s s' ↔ ∃ x t, s.rest = x :: t ∧ p x = true ∧ s' = s.move [x] t := by
  constructor
  · intro way
    cases way with
    | one next fits => exact ⟨_, _, next, fits, rfl⟩
  · rintro ⟨x, t, next, fits, rfl⟩
    exact .one next fits

@[simp] theorem matches_look {p : List α → List α → Bool} :
    Matches (.look p) s s' ↔ p s.before s.rest = true ∧ s' = s := by
  constructor
  · intro way
    cases way with
    | look holds => exact ⟨holds, rfl⟩
  · rintro ⟨holds, rfl⟩
    exact .look holds

@[simp] theorem matches_seq : Matches (.seq e f) s s' ↔ ∃ t, Matches e s t ∧ Matches f t s' := by
  constructor
  · intro way
    cases way with
    | seq first second => exact ⟨_, first, second⟩
  · rintro ⟨t, first, second⟩
    exact .seq first second

theorem matches_seq_assoc {g : Re α γ} :
    Matches (.seq (.seq e f) g) s s' ↔ Matches (.seq e (.seq f g)) s s' := by
  simp only [matches_seq]
  constructor
  · rintro ⟨u, ⟨t, first, second⟩, third⟩
    exact ⟨t, first, u, second, third⟩
  · rintro ⟨t, first, u, second, third⟩
    exact ⟨u, ⟨t, first, second⟩, third⟩

@[simp] theorem matches_alt : Matches (.alt e f) s s' ↔ Matches e s s' ∨ Matches f s s' := by
  constructor
  · intro way
    cases way with
    | left way => exact Or.inl way
    | right way => exact Or.inr way
  · rintro (way | way)
    · exact .left way
    · exact .right way

@[simp] theorem matches_group {name : γ} :
    Matches (.group name e) s s' ↔ ∃ t, Matches e s t ∧ s' = s.close name t := by
  constructor
  · intro way
    cases way with
    | group way => exact ⟨_, way, rfl⟩
  · rintro ⟨t, way, rfl⟩
    exact .group way

theorem matches_star : Matches (.star e) s s' ↔ s' = s ∨ (∃ t, Matches e s t ∧
    if t.rest.length < s.rest.length then Matches (.star e) t s' else s' = t) := by
  constructor
  · intro way
    cases way with
    | done => exact Or.inl rfl
    | last way nothing => exact Or.inr ⟨s', way, by rw [if_neg (Nat.not_lt.mpr nothing)]⟩
    | more way shorter rest => exact Or.inr ⟨_, way, by rwa [if_pos shorter]⟩
  · rintro (rfl | ⟨t, way, rest⟩)
    · exact .done
    · by_cases shorter : t.rest.length < s.rest.length
      · rw [if_pos shorter] at rest
        exact .more way shorter rest
      · rw [if_neg shorter] at rest
        subst rest
        exact .last way (Nat.not_lt.mp shorter)

/-- The search finds a pattern if there is a way to match it and what is behind it. -/
theorem exec_isSome_iff : (e.exec s k).isSome ↔ ∃ s', Matches e s s' ∧ (k s').isSome := by
  induction e generalizing s k with
  | one p =>
    simp only [matches_one]
    cases next : s.rest with
    | nil => simp [exec_one_nil s next]
    | cons x t => by_cases fits : p x <;> simp [exec_one_cons s next, fits]
  | look p => by_cases holds : p s.before s.rest <;> simp [exec_look, holds]
  | seq e f ihe ihf =>
    rw [exec_seq, ihe]
    simp only [ihf, matches_seq]
    constructor
    · rintro ⟨t, first, s', second, found⟩
      exact ⟨s', ⟨t, first, second⟩, found⟩
    · rintro ⟨s', ⟨t, first, second⟩, found⟩
      exact ⟨t, first, s', second, found⟩
  | alt e f ihe ihf =>
    rw [exec_alt, Option.isSome_or, Bool.or_eq_true, ihe, ihf]
    simp only [matches_alt, or_and_right, exists_or]
  | group name e ih =>
    rw [exec_group, ih]
    simp only [matches_group]
    constructor
    · rintro ⟨t, way, found⟩
      exact ⟨_, ⟨t, way, rfl⟩, found⟩
    · rintro ⟨s', ⟨t, way, rfl⟩, found⟩
      exact ⟨t, way, found⟩
  | star e ih =>
    -- a repetition is as long as what is left of the subject
    have loop : ∀ n (s : Scan α γ), s.rest.length < n →
        ((iterate e.exec k n s).isSome ↔ ∃ s', Matches (.star e) s s' ∧ (k s').isSome) := by
      intro n
      induction n with
      | zero => intro s short; exact absurd short (Nat.not_lt_zero _)
      | succ n loop =>
        intro s short
        rw [iterate_succ, Option.isSome_or, Bool.or_eq_true, ih]
        constructor
        · rintro (⟨t, way, found⟩ | found)
          · by_cases shorter : t.rest.length < s.rest.length
            · rw [if_pos shorter, loop t (by omega)] at found
              obtain ⟨s', rest, found⟩ := found
              exact ⟨s', .more way shorter rest, found⟩
            · rw [if_neg shorter] at found
              exact ⟨t, .last way (Nat.not_lt.mp shorter), found⟩
          · exact ⟨s, .done, found⟩
        · rintro ⟨s', way, found⟩
          rcases matches_star.mp way with rfl | ⟨t, way, rest⟩
          · exact Or.inr found
          · refine Or.inl ⟨t, way, ?_⟩
            by_cases shorter : t.rest.length < s.rest.length
            · rw [if_pos shorter] at rest ⊢
              exact (loop t (by omega)).mpr ⟨s', rest, found⟩
            · rw [if_neg shorter] at rest ⊢
              rwa [← rest]
    exact loop _ s (Nat.lt_succ_self _)

end Ways

/-! ## Languages -/

open scoped Computability

/-- The ways to match a pattern are the words of a language. -/
def Recognises (e : Re α γ) (l : Language α) : Prop :=
  ∀ s s' : Scan α γ, Matches e s s' ↔ ∃ w ∈ l, ∃ rest, s.rest = w ++ rest ∧ s' = s.move w rest

section Languages

variable {e f : Re α γ} {l m : Language α}

@[simp] theorem Scan.move_nil (s : Scan α γ) : s.move [] s.rest = s := by
  rw [Scan.move, List.append_nil]

@[simp] theorem Scan.move_move (s : Scan α γ) (u v rest rest' : List α) :
    (s.move u rest).move v rest' = s.move (u ++ v) rest' := by
  rw [Scan.move, Scan.move, Scan.move, List.append_assoc]

theorem recognises_one (p : α → Bool) : Recognises (.one p : Re α γ) {w | ∃ x, p x = true ∧ w = [x]} := by
  intro s s'
  rw [matches_one]
  constructor
  · rintro ⟨x, t, next, fits, rfl⟩
    exact ⟨[x], ⟨x, fits, rfl⟩, t, next, rfl⟩
  · rintro ⟨w, ⟨x, fits, rfl⟩, rest, next, rfl⟩
    exact ⟨x, rest, next, fits, rfl⟩

theorem recognises_eps : Recognises (.eps : Re α γ) 1 := by
  intro s s'
  rw [Re.eps, matches_look]
  constructor
  · rintro ⟨-, rfl⟩
    exact ⟨[], rfl, s'.rest, rfl, s'.move_nil.symm⟩
  · rintro ⟨w, rfl, rest, next, rfl⟩
    obtain rfl : s.rest = rest := next
    exact ⟨rfl, s.move_nil⟩

theorem Recognises.seq (first : Recognises e l) (second : Recognises f m) : Recognises (.seq e f) (l * m) := by
  intro s s'
  rw [matches_seq]
  constructor
  · rintro ⟨t, here, there⟩
    obtain ⟨u, member, rest, next, rfl⟩ := (first s t).mp here
    obtain ⟨v, member', rest', next', rfl⟩ := (second _ s').mp there
    refine ⟨u ++ v, Language.append_mem_mul member member', rest', ?_, Scan.move_move _ _ _ _ _⟩
    rw [next, List.append_assoc]
    exact congrArg (u ++ ·) next'
  · rintro ⟨w, member, rest, next, rfl⟩
    obtain ⟨u, here, v, there, rfl⟩ := Language.mem_mul.mp member
    rw [List.append_assoc] at next
    refine ⟨s.move u (v ++ rest), (first s _).mpr ⟨u, here, _, next, rfl⟩, (second _ _).mpr ?_⟩
    exact ⟨v, there, rest, rfl, (Scan.move_move _ _ _ _ _).symm⟩

theorem Recognises.alt (first : Recognises e l) (second : Recognises f m) : Recognises (.alt e f) (l + m) := by
  intro s s'
  rw [matches_alt, first s s', second s s']
  simp only [Language.mem_add, or_and_right, exists_or]

theorem Recognises.opt (recognised : Recognises e l) : Recognises (.opt e) (l + 1) := recognised.alt recognises_eps

theorem Recognises.star (recognised : Recognises e l) : Recognises (.star e) l∗ := by
  intro s s'
  constructor
  · intro way
    generalize star : Re.star e = f at way
    induction way with
    | @done e' s => exact ⟨[], Language.nil_mem_kstar l, s.rest, rfl, s.move_nil.symm⟩
    | @last e' s s' way nothing =>
      obtain rfl := Re.star.inj star
      obtain ⟨w, member, rest, next, rfl⟩ := (recognised s s').mp way
      exact ⟨w, Language.mem_kstar.mpr ⟨[w], by simp, by simpa using member⟩, rest, next, rfl⟩
    | @more e' s t s' way shorter more _ ih =>
      obtain rfl := Re.star.inj star
      obtain ⟨w, member, rest, next, rfl⟩ := (recognised s t).mp way
      obtain ⟨v, others, rest', next', rfl⟩ := ih rfl
      obtain ⟨words, rfl, all⟩ := Language.mem_kstar.mp others
      obtain rfl : rest = words.flatten ++ rest' := next'
      refine ⟨w ++ words.flatten, Language.mem_kstar.mpr ⟨w :: words, rfl, ?_⟩, rest', ?_, ?_⟩
      · exact List.forall_mem_cons.mpr ⟨member, all⟩
      · rw [next, List.append_assoc]
      · exact Scan.move_move _ _ _ _ _
    | _ => exact absurd star nofun
  · rintro ⟨w, member, rest, next, rfl⟩
    obtain ⟨words, rfl, all⟩ := Language.mem_kstar_iff_exists_nonempty.mp member
    clear member
    induction words generalizing s with
    | nil =>
      obtain rfl : s.rest = rest := next
      rw [List.flatten_nil, Scan.move_nil]
      exact .done
    | cons w words ih =>
      obtain ⟨⟨member, nonempty⟩, others⟩ := List.forall_mem_cons.mp all
      rw [List.flatten_cons, List.append_assoc] at next
      have way := (recognised s (s.move w (words.flatten ++ rest))).mpr ⟨w, member, _, next, rfl⟩
      have shorter : (s.move w (words.flatten ++ rest)).rest.length < s.rest.length := by
        rw [next, List.length_append]
        exact Nat.lt_add_of_pos_left (List.length_pos_iff.mpr nonempty)
      have later := ih (s.move w (words.flatten ++ rest)) others rfl
      rw [Scan.move_move] at later
      exact .more way shorter later

theorem Recognises.congr (recognised : Recognises e l) (same : ∀ w, w ∈ l ↔ w ∈ m) : Recognises e m := by
  obtain rfl : l = m := Language.ext same
  exact recognised

/-- One match or more, each a word of the language. -/
theorem Recognises.plus (recognised : Recognises e l) :
    Recognises (.plus e) {w | ∃ words, words ≠ [] ∧ (∀ v ∈ words, v ∈ l) ∧ w = words.flatten} := by
  refine (recognised.seq recognised.star).congr fun w => ?_
  constructor
  · intro member
    obtain ⟨v, first, rest, others, rfl⟩ := Language.mem_mul.mp member
    obtain ⟨words, rfl, all⟩ := Language.mem_kstar.mp others
    exact ⟨v :: words, List.cons_ne_nil _ _, List.forall_mem_cons.mpr ⟨first, all⟩, rfl⟩
  · rintro ⟨words, nonempty, all, rfl⟩
    obtain ⟨v, words, rfl⟩ := List.exists_cons_of_ne_nil nonempty
    obtain ⟨first, all⟩ := List.forall_mem_cons.mp all
    exact Language.append_mem_mul first (Language.mem_kstar.mpr ⟨words, rfl, all⟩)

theorem recognises_plus_one (p : α → Bool) :
    Recognises (.plus (.one p) : Re α γ) {w | w ≠ [] ∧ ∀ x ∈ w, p x = true} := by
  refine (recognises_one p).plus.congr fun w => ?_
  constructor
  · rintro ⟨words, nonempty, all, rfl⟩
    refine ⟨fun none => ?_, fun x member => ?_⟩
    · obtain ⟨v, words, rfl⟩ := List.exists_cons_of_ne_nil nonempty
      obtain ⟨x, -, rfl⟩ := all v List.mem_cons_self
      exact absurd none (by simp)
    · obtain ⟨v, inside, here⟩ := List.mem_flatten.mp member
      obtain ⟨y, fits, rfl⟩ := all v inside
      rwa [List.mem_singleton.mp here]
  · rintro ⟨nonempty, all⟩
    refine ⟨w.map ([·]), by simpa using nonempty, ?_, ?_⟩
    · intro v member
      obtain ⟨x, inside, rfl⟩ := List.mem_map.mp member
      exact ⟨x, all x inside, rfl⟩
    · rw [← List.flatMap_def, List.flatMap_singleton']

end Languages

/-! ## Repetitions of single symbols -/

section Runs

variable {p : α → Bool} {k : Scan α γ → Option β}

theorem exec_star_nil (s : Scan α γ) (empty : s.rest = []) : (Re.star (.one p)).exec s k = k s := by
  rw [exec_star, iterate_succ, exec_one_nil s empty, Option.none_or]

/-- One symbol more is tried first. -/
theorem exec_star_cons (s : Scan α γ) {x : α} {t : List α} (next : s.rest = x :: t) :
    (Re.star (.one p)).exec s k =
      if p x then ((Re.star (.one p)).exec (s.move [x] t) k).or (k s) else k s := by
  rw [exec_star, iterate_succ, exec_one_cons s next, next]
  by_cases fits : p x = true
  · have shorter : (s.move [x] t).rest.length < (x :: t).length := by simp [Scan.move]
    simp only [fits, if_true, if_pos shorter]
    rfl
  · simp [fits]

/-- The repetition stops at its end when nothing else lets the rest match. -/
theorem exec_star_stop (stops : ∀ s : Scan α γ, (∃ x t, s.rest = x :: t ∧ p x = true) → k s = none)
    (s : Scan α γ) : (Re.star (.one p)).exec s k = k (s.move (s.rest.takeWhile p) (s.rest.dropWhile p)) := by
  induction rest : s.rest generalizing s with
  | nil =>
    rw [exec_star_nil s rest, Scan.move, List.takeWhile_nil, List.dropWhile_nil, List.append_nil, ← rest]
  | cons x t ih =>
    rw [exec_star_cons s rest]
    by_cases fits : p x = true
    · rw [if_pos fits, stops s ⟨x, t, rest, fits⟩, Option.or_none, ih (s.move [x] t) rfl]
      simp [Scan.move, fits]
    · rw [if_neg fits, List.takeWhile_cons_of_neg fits, List.dropWhile_cons_of_neg fits, Scan.move,
        List.append_nil, ← rest]

end Runs

/-! ## Patterns that begin at the beginning -/

theorem exec_start (s : Scan α γ) (k : Scan α γ → Option β) :
    Re.start.exec s k = if s.before = [] then k s else none := by
  rw [Re.start, exec_look]
  simp only [List.isEmpty_iff]

/-- Only the beginning of the subject is tried. -/
theorem search_eq {e : Re α γ} (anchored : ∀ s : Scan α γ, s.before ≠ [] → e.exec s some = none)
    (subject : List α) : e.search subject = e.exec ⟨[], subject, []⟩ some := by
  have later : ∀ rest before : List α, before ≠ [] → e.searchFrom before rest = none := by
    intro rest
    induction rest with
    | nil => exact fun before nonempty => anchored _ nonempty
    | cons x rest ih =>
      intro before nonempty
      rw [Re.searchFrom, anchored _ nonempty, ih _ (by simp)]
      rfl
  cases subject with
  | nil => rfl
  | cons x rest => rw [Re.search, Re.searchFrom, later _ _ (by simp), Option.or_none]

/-- A pattern that begins with the beginning. -/
theorem anchored_start (e : Re α γ) (s : Scan α γ) (inside : s.before ≠ []) :
    (Re.seq Re.start e).exec s some = none := by
  rw [exec_seq, exec_start, if_neg inside]

end Words
