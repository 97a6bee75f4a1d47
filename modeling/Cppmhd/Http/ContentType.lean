import Cppmhd.Http.Form
import Cppmhd.Http.Response
import Mathlib.Data.List.TakeWhile

/-!
# Form requests

`isPrefixOfArray` of `utils.h`, which compares no more characters than the shorter text has, and
`FormDataProcessorController::onConnection` of `controller.cc`, which decides with it whether the body
of a request is a form.  `content_type_iff` says for which headers the decision is right.
-/

namespace Cppmhd

/-! ## The source -/

def CPPMHD_HTTP_MIME_APPLICATION_FORM_URLENCODED : Str := "application/x-www-form-urlencoded".toList

def CPPMHD_HTTP_MIME_MULTIPART_FORM_DATA : Str := "multipart/form-data".toList

/-- The sign of `strncmp`.  The terminator is less than any other character. -/
def strncmp : Str → Str → ℕ → Ordering
  | _, _, 0 => .eq
  | [], [], _ + 1 => .eq
  | [], _ :: _, _ + 1 => .lt
  | _ :: _, [], _ + 1 => .gt
  | x :: first, y :: second, n + 1 =>
    if x = y then strncmp first second n else if x < y then .lt else .gt

/-- Source `checkPrefix`. -/
def checkPrefix (first second : Str) (len : ℕ) : Bool :=
  strncmp (c_str first) (c_str second) len == .eq

/-- Source `isPrefixOfArray`: the header is `none` for a null pointer, and the array has one character
more than the literal, its terminator. -/
def isPrefixOfArray (ct : Option Str) (cp : Str) : Bool :=
  match ct with
  | none => false
  | some ct => checkPrefix ct cp (min (c_str ct).length cp.length)

/-- What `onConnection` does with a new form processor. -/
inductive FormSetup where
  /-- `buildPostProcessor`, with its result. -/
  | built (created : Bool)
  /-- `req->setProcessor`. -/
  | attached
  | postConnection
  | deleted
  deriving DecidableEq

/-- Source `FormDataProcessorController::onConnection`, for a request with or without a connection;
`created` tells whether `MHD_create_post_processor` returns a processor. -/
def FormDataProcessorController.onConnection (created : Bool) (conn : Option MHD_Connection) :
    List FormSetup :=
  match conn with
  | none => []
  | some conn =>
    let ct := conn.header CPPMHD_HTTP_HEADER_CONTENT_TYPE
    if isPrefixOfArray ct CPPMHD_HTTP_MIME_APPLICATION_FORM_URLENCODED ||
        isPrefixOfArray ct CPPMHD_HTTP_MIME_MULTIPART_FORM_DATA then
      if created then [.built true, .attached, .postConnection] else [.built false, .deleted]
    else []

/-! ## What the header should be -/

/-- The header has the whole text of the literal in front. -/
def StartsWith (ct : Option Str) (cp : Str) : Prop := ∃ s, ct = some s ∧ cp <+: c_str s

/-- The header ends before the literal does. -/
def CutShort (ct : Option Str) (cp : Str) : Prop := ∃ s, ct = some s ∧ c_str s <+: cp ∧ c_str s ≠ cp

/-- A controller tries to attach a form processor for forms only. -/
def FormsOnly (created : Bool) (conn : Option MHD_Connection) : Prop :=
  (∃ b, .built b ∈ FormDataProcessorController.onConnection created conn) →
    ∃ c, conn = some c ∧
      (StartsWith (c.header CPPMHD_HTTP_HEADER_CONTENT_TYPE)
          CPPMHD_HTTP_MIME_APPLICATION_FORM_URLENCODED ∨
        StartsWith (c.header CPPMHD_HTTP_HEADER_CONTENT_TYPE) CPPMHD_HTTP_MIME_MULTIPART_FORM_DATA)

section Header

variable {s cp : Str} {created : Bool} {conn : MHD_Connection}

@[simp] theorem startsWith_some : StartsWith (some s) cp ↔ cp <+: c_str s := by
  simp [StartsWith]

@[simp] theorem cutShort_some : CutShort (some s) cp ↔ c_str s <+: cp ∧ c_str s ≠ cp := by
  simp [CutShort]

theorem formsOnly_some :
    FormsOnly created (some conn) ↔
      ((∃ b, .built b ∈ FormDataProcessorController.onConnection created (some conn)) →
        StartsWith (conn.header CPPMHD_HTTP_HEADER_CONTENT_TYPE)
            CPPMHD_HTTP_MIME_APPLICATION_FORM_URLENCODED ∨
          StartsWith (conn.header CPPMHD_HTTP_HEADER_CONTENT_TYPE)
            CPPMHD_HTTP_MIME_MULTIPART_FORM_DATA) := by
  simp [FormsOnly]

end Header

/-! ## The comparison -/

/-- Up to the shorter length the texts agree if and only if one begins with the other. -/
theorem strncmp_eq_iff {s t : Str} (free : '\x00' ∉ s) :
    strncmp s (c_str t) (min s.length t.length) = .eq ↔ s <+: t ∨ t <+: s := by
  induction s generalizing t with
  | nil => simp [strncmp]
  | cons x s ih =>
    rw [List.mem_cons, not_or] at free
    cases t with
    | nil => simp [strncmp]
    | cons y t =>
      rw [List.length_cons, List.length_cons, Nat.add_min_add_right, List.cons_prefix_cons,
        List.cons_prefix_cons, c_str_cons]
      by_cases nul : y = '\x00'
      · subst nul
        simp [strncmp, free.1, Ne.symm free.1]
      · rw [if_neg nul, strncmp]
        by_cases same : x = y
        · rw [if_pos same, ih free.2]
          simp [same]
        · rw [if_neg same]
          refine iff_of_false (by split <;> decide) ?_
          simp [same, Ne.symm same]

theorem isPrefixOfArray_iff {ct : Option Str} {cp : Str} :
    isPrefixOfArray ct cp = true ↔ StartsWith ct cp ∨ CutShort ct cp := by
  cases ct with
  | none => simp [isPrefixOfArray, StartsWith, CutShort]
  | some s =>
    have whole : c_str (c_str s) = c_str s := List.takeWhile_idem
    have compared := strncmp_eq_iff (t := cp) (nul_not_mem_c_str s)
    have answer : isPrefixOfArray (some s) cp = true ↔ c_str s <+: cp ∨ cp <+: c_str s := by
      rw [← compared, isPrefixOfArray, checkPrefix, beq_iff_eq]
    rw [answer, startsWith_some, cutShort_some]
    by_cases same : c_str s = cp
    · -- a header that is the literal starts with it
      simp [same]
    · rw [and_iff_left same]
      exact or_comm

/-- Where a header that one literal cuts short starts with a second one, that one begins the first. -/
theorem CutShort.begins {ct : Option Str} {a b : Str} (cut : CutShort ct a)
    (starts : StartsWith ct b) : b <+: a := by
  obtain ⟨s, rfl, short, -⟩ := cut
  exact (startsWith_some.mp starts).trans short

theorem CutShort.not_startsWith {ct : Option Str} {cp : Str} (cut : CutShort ct cp) :
    ¬ StartsWith ct cp := by
  obtain ⟨s, rfl, short, differ⟩ := cut
  intro starts
  exact differ (short.eq_of_length_le (startsWith_some.mp starts).length_le)

/-- `isPrefixOfArray` tells whether the header starts with the literal exactly for headers that are
not cut short. -/
theorem isPrefixOfArray_starts {ct : Option Str} {cp : Str} :
    (isPrefixOfArray ct cp = true ↔ StartsWith ct cp) ↔ ¬ CutShort ct cp := by
  rw [isPrefixOfArray_iff]
  constructor
  · intro decides cut
    exact cut.not_startsWith (decides.1 (.inr cut))
  · intro whole
    exact or_iff_left whole

/-! ## The controller -/

/-- The controller tries to build a processor if and only if one of the tests is true. -/
theorem onConnection_builds {created : Bool} {conn : MHD_Connection} :
    (∃ b, .built b ∈ FormDataProcessorController.onConnection created (some conn)) ↔
      isPrefixOfArray (conn.header CPPMHD_HTTP_HEADER_CONTENT_TYPE)
          CPPMHD_HTTP_MIME_APPLICATION_FORM_URLENCODED = true ∨
        isPrefixOfArray (conn.header CPPMHD_HTTP_HEADER_CONTENT_TYPE)
          CPPMHD_HTTP_MIME_MULTIPART_FORM_DATA = true := by
  rw [FormDataProcessorController.onConnection, ← Bool.or_eq_true]
  split
  · rename_i form
    refine iff_of_true ?_ form
    cases created
    · exact ⟨false, by simp⟩
    · exact ⟨true, by simp⟩
  · rename_i other
    simpa using other

theorem formsOnly_iff {created : Bool} {conn : Option MHD_Connection} :
    FormsOnly created conn ↔ ∀ c, conn = some c →
      ¬ CutShort (c.header CPPMHD_HTTP_HEADER_CONTENT_TYPE)
          CPPMHD_HTTP_MIME_APPLICATION_FORM_URLENCODED ∧
        ¬ CutShort (c.header CPPMHD_HTTP_HEADER_CONTENT_TYPE) CPPMHD_HTTP_MIME_MULTIPART_FORM_DATA := by
  cases conn with
  | none => simp [FormsOnly, FormDataProcessorController.onConnection]
  | some c =>
    rw [formsOnly_some, onConnection_builds, isPrefixOfArray_iff, isPrefixOfArray_iff]
    constructor
    · intro only c' same
      obtain rfl := Option.some.inj same
      constructor
      · intro cut
        rcases only (.inl (.inr cut)) with starts | starts
        · exact cut.not_startsWith starts
        · exact absurd (cut.begins starts) (by decide)
      · intro cut
        rcases only (.inr (.inr cut)) with starts | starts
        · exact absurd (cut.begins starts) (by decide)
        · exact cut.not_startsWith starts
    · intro whole form
      obtain ⟨urlencoded, multipart⟩ := whole c rfl
      exact form.imp (·.resolve_right urlencoded) (·.resolve_right multipart)

/-- The test finds the media type, and a form processor is built for forms only, exactly where the
header does not end inside the media type. -/
theorem content_type_iff (ct : Option Str) (cp : Str) (created : Bool) (conn : Option MHD_Connection) :
    ((isPrefixOfArray ct cp = true ↔ StartsWith ct cp) ↔ ¬ CutShort ct cp) ∧
      (FormsOnly created conn ↔ ∀ c, conn = some c →
        ¬ CutShort (c.header CPPMHD_HTTP_HEADER_CONTENT_TYPE)
            CPPMHD_HTTP_MIME_APPLICATION_FORM_URLENCODED ∧
          ¬ CutShort (c.header CPPMHD_HTTP_HEADER_CONTENT_TYPE)
            CPPMHD_HTTP_MIME_MULTIPART_FORM_DATA) :=
  ⟨isPrefixOfArray_starts, formsOnly_iff⟩

/-- An empty header passes for a form, and the controller tries to build a processor. -/
theorem empty_content_type :
    let conn : MHD_Connection := ⟨fun _ => some []⟩
    isPrefixOfArray (some []) CPPMHD_HTTP_MIME_MULTIPART_FORM_DATA = true ∧
      ¬ StartsWith (some []) CPPMHD_HTTP_MIME_MULTIPART_FORM_DATA ∧
      FormDataProcessorController.onConnection false (some conn) = [.built false, .deleted] ∧
      ¬ FormsOnly false (some conn) := by
  intro conn
  have cut : ∀ cp, cp ≠ [] → CutShort (some []) cp := fun cp some_text =>
    ⟨[], rfl, List.nil_prefix, some_text.symm⟩
  refine ⟨by decide, (cut _ (by decide)).not_startsWith, by decide, fun only => ?_⟩
  rcases formsOnly_some.mp only ⟨false, by decide⟩ with starts | starts
  · exact (cut _ (by decide)).not_startsWith starts
  · exact (cut _ (by decide)).not_startsWith starts

end Cppmhd
