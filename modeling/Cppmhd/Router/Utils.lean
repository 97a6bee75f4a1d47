import Mathlib.Data.List.TakeDrop

/-!
# Strings, `split` and `Regex`

The string helpers of `utils.cc` and `router.cc`.  A `std::string` is the list of its bytes.
PCRE2 is not part of the repository: `Pcre` holds the two facts the code asks it for, whether a
pattern compiles and whether a compiled pattern is found in a subject.
-/

namespace Cppmhd

/-- A `std::string`. -/
abbrev Str := List Char

/-- `std::string::substr(pos)`, which throws `std::out_of_range` past the end. -/
def substr (s : Str) (pos : ℕ) : Option Str :=
  if pos ≤ s.length then some (s.drop pos) else none

/-! ## Scanning helpers -/

/-- `char_traits::compare` of the first `pos` characters. -/
def stringNCmp (first second : Str) (pos : ℕ) : Bool := first.take pos == second.take pos

/-- Source `isPrefix`: note the order, the whole string comes first. -/
def isPrefix (whole pre : Str) : Bool := stringNCmp whole pre pre.length

/-- Source `findUntilSlash`: the length of the segment at the begin. -/
def findUntilSlash : Str → ℕ
  | [] => 0
  | c :: rest => if c ≠ '/' then findUntilSlash rest + 1 else 0

/-- Source `findLongestCommonPrefix`. -/
def findLongestCommonPrefix : Str → Str → ℕ
  | a :: first, b :: second => if a = b then findLongestCommonPrefix first second + 1 else 0
  | _, _ => 0

/-- The placeholder of a wildcard in a calculated path. -/
def PARAM_CHAR : Char := ':'

/-- The position of the first placeholder; the source's `-1` is `none`. -/
def findWildcard : Str → Option ℕ
  | [] => none
  | c :: path => if c = PARAM_CHAR then some 0 else (findWildcard path).map (· + 1)

/-! ### What the helpers compute -/

theorem isPrefix_iff (whole pre : Str) : isPrefix whole pre = true ↔ pre <+: whole := by
  rw [isPrefix, stringNCmp, beq_iff_eq, List.take_length, List.prefix_iff_eq_take]
  exact eq_comm

/-- The slash scan cuts the string into a segment and a rest that is empty or begins with `/`. -/
theorem findUntilSlash_cases (s : Str) :
    ∃ seg rest, s = seg ++ rest ∧ findUntilSlash s = seg.length ∧ '/' ∉ seg ∧
      (rest = [] ∨ ∃ rest', rest = '/' :: rest') := by
  induction s with
  | nil => exact ⟨[], [], rfl, rfl, List.not_mem_nil, Or.inl rfl⟩
  | cons c s ih =>
    by_cases slash : c = '/'
    · subst slash
      exact ⟨[], '/' :: s, rfl, rfl, List.not_mem_nil, Or.inr ⟨s, rfl⟩⟩
    · obtain ⟨seg, rest, rfl, length, free, rest_cases⟩ := ih
      refine ⟨c :: seg, rest, rfl, ?_, ?_, rest_cases⟩
      · simp only [findUntilSlash, ne_eq, slash, not_false_eq_true, if_true, length,
          List.length_cons]
      · simp only [List.mem_cons, free, or_false]
        exact fun same => slash same.symm

theorem findUntilSlash_append {seg rest : Str} (free : '/' ∉ seg)
    (ends : rest = [] ∨ ∃ rest', rest = '/' :: rest') :
    findUntilSlash (seg ++ rest) = seg.length := by
  induction seg with
  | nil => obtain rfl | ⟨rest', rfl⟩ := ends <;> rfl
  | cons c seg ih =>
    rw [List.mem_cons, not_or] at free
    simp only [List.cons_append, findUntilSlash, ne_eq, Ne.symm free.1, not_false_eq_true, if_true,
      ih free.2, List.length_cons]

/-- The common prefix, and rests that do not begin with the same character. -/
theorem findLongestCommonPrefix_cases (s t : Str) :
    ∃ pre s' t', s = pre ++ s' ∧ t = pre ++ t' ∧ findLongestCommonPrefix s t = pre.length ∧
      ∀ a b, s'.head? = some a → t'.head? = some b → a ≠ b := by
  induction s generalizing t with
  | nil => exact ⟨[], [], t, rfl, rfl, rfl, by simp⟩
  | cons c s ih =>
    cases t with
    | nil => exact ⟨[], c :: s, [], rfl, rfl, rfl, by simp⟩
    | cons d t =>
      by_cases same : c = d
      · subst same
        obtain ⟨pre, s', t', rfl, rfl, length, differ⟩ := ih t
        exact ⟨c :: pre, s', t', rfl, rfl, by simp [findLongestCommonPrefix, length], differ⟩
      · refine ⟨[], c :: s, d :: t, rfl, rfl, by simp [findLongestCommonPrefix, same], ?_⟩
        rintro a b ha hb rfl
        simp only [List.head?_cons, Option.some.injEq] at ha hb
        exact same (ha.trans hb.symm)

theorem findWildcard_eq_none_iff (path : Str) : findWildcard path = none ↔ PARAM_CHAR ∉ path := by
  induction path with
  | nil => simp [findWildcard]
  | cons c path ih =>
    by_cases same : c = PARAM_CHAR
    · simp [findWildcard, same]
    · simp [findWildcard, same, Ne.symm same, ih]

theorem findWildcard_append {pre : Str} (free : PARAM_CHAR ∉ pre) (rest : Str) :
    findWildcard (pre ++ PARAM_CHAR :: rest) = some pre.length := by
  induction pre with
  | nil => simp [findWildcard]
  | cons c pre ih =>
    rw [List.mem_cons, not_or] at free
    simp [findWildcard, Ne.symm free.1, ih free.2]

/-! ## `split` -/

/-- `std::string::find_first_of`. -/
def findFirstOf (sep : Str) : Str → Option ℕ
  | [] => none
  | c :: tmp => if c ∈ sep then some 0 else (findFirstOf sep tmp).map (· + 1)

/-- The `do … while (true)` loop of `split`, with a bound on its rounds. -/
def splitLoop : ℕ → Str → List Str → Str → Option (List Str)
  | 0, _, _, _ => none
  | rounds + 1, tmp, out, sep =>
    match findFirstOf sep tmp with
    | none => some (if 0 < tmp.length then out ++ [tmp] else out)
    | some 0 => (substr tmp sep.length).bind fun tmp => splitLoop rounds tmp out sep
    | some pos => (substr tmp (pos + sep.length)).bind fun rest =>
        splitLoop rounds rest (out ++ [tmp.take pos]) sep

/-- Source `split`.  Every round but the last shortens the string, so the bound is never met. -/
def split (input : Str) (out : List Str) (sep : Str) : Option (List Str) :=
  splitLoop (input.length + 1) input out sep

/-- The non-empty pieces between the separators `c`. -/
def pieces (c : Char) (s : Str) : List Str := (s.splitOn c).filter (· ≠ [])

theorem pieces_of_not_mem {c : Char} {s : Str} (free : c ∉ s) :
    pieces c s = if s = [] then [] else [s] := by
  rw [pieces, List.splitOn_eq_singleton free]
  by_cases empty : s = [] <;> simp [empty]

theorem pieces_append_cons {c : Char} {pre : Str} (free : c ∉ pre) (rest : Str) :
    pieces c (pre ++ c :: rest) = (if pre = [] then [] else [pre]) ++ pieces c rest := by
  rw [pieces, pieces, List.splitOn_append_cons_self_of_not_mem free, List.filter_cons]
  by_cases empty : pre = [] <;> simp [empty]

theorem findFirstOf_of_not_mem {c : Char} {s : Str} (free : c ∉ s) : findFirstOf [c] s = none := by
  induction s with
  | nil => rfl
  | cons d s ih =>
    rw [List.mem_cons, not_or] at free
    simp [findFirstOf, Ne.symm free.1, ih free.2]

theorem findFirstOf_append {c : Char} {pre : Str} (free : c ∉ pre) (rest : Str) :
    findFirstOf [c] (pre ++ c :: rest) = some pre.length := by
  induction pre with
  | nil => simp [findFirstOf]
  | cons d pre ih =>
    rw [List.mem_cons, not_or] at free
    simp [findFirstOf, Ne.symm free.1, ih free.2]

theorem splitLoop_char (c : Char) {rounds : ℕ} {s : Str} (enough : s.length < rounds)
    (out : List Str) : splitLoop rounds s out [c] = some (out ++ pieces c s) := by
  induction rounds generalizing s out with
  | zero => omega
  | succ rounds ih =>
    by_cases present : c ∈ s
    · obtain ⟨pre, rest, rfl, free⟩ := List.eq_append_cons_of_mem present
      have shorter : rest.length < rounds := by
        simp only [List.length_append, List.length_cons] at enough
        omega
      rw [splitLoop, findFirstOf_append free, pieces_append_cons free]
      cases pre with
      | nil => simpa [substr] using ih shorter out
      | cons d pre =>
        have cut : (d :: pre ++ c :: rest).drop ((d :: pre).length + 1) = rest := by
          rw [← List.drop_drop, List.drop_left]
          rfl
        simpa [substr, cut] using ih shorter (out ++ [d :: pre])
    · rw [splitLoop, findFirstOf_of_not_mem present, pieces_of_not_mem present]
      by_cases empty : s = []
      · simp [empty]
      · simp [empty, List.length_pos_iff]

/-- For a single separator character `split` appends the non-empty pieces. -/
theorem split_char (c : Char) (s : Str) (out : List Str) :
    split s out [c] = some (out ++ pieces c s) :=
  splitLoop_char c (Nat.lt_succ_self _) out

/-! ## Regular expressions -/

/-- What the code relies on PCRE2 for. -/
structure Pcre where
  /-- `pcre2_compile` accepts this pattern. -/
  compile : Str → Bool
  /-- `pcre2_match` of the compiled pattern finds a match in this subject. -/
  search : Str → Str → Bool

/-- A library that compiles every pattern and matches every subject. -/
def anyPcre : Pcre := ⟨fun _ => true, fun _ _ => true⟩

/-- Source `Regex`: without compiled code (`re_ == nullptr`), or compiled from `pattern_`. -/
inductive Regex where
  | null
  | compiled (pattern : Str)
  deriving DecidableEq

/-- `Regex::compileRegex`; PCRE2 reads the pattern up to the terminating NUL. -/
def Regex.compileRegex (pcre : Pcre) (pattern : Str) : Option Regex :=
  let cstr := pattern.takeWhile (· ≠ '\x00')
  if pcre.compile cstr then some (.compiled cstr) else none

/-- `Regex::match`, false without compiled code. -/
def Regex.matches (pcre : Pcre) : Regex → Str → Bool
  | .null, _ => false
  | .compiled pattern, subject => pcre.search pattern subject

end Cppmhd
