import Cppmhd.Http.Callback
import Mathlib.Data.List.Chain

/-!
# Form data

`FormProcessor` of `controller.cc` keeps the four names of a part between the calls of MHD's post
processor and replaces a name only by a pointer that is not null.  `own_attributes_iff` says for which
uploads every call of the controller gets the names of its own part.
-/

namespace Cppmhd

/-- Source `MHD_Return`. -/
inductive MHD_Return where
  | MHD_OK | MHD_FAILED
  deriving DecidableEq, Repr

/-- The members of source `FormProcessor` that its callback keeps: `kN_`, `fN_`, `cT_`, `tE_`. -/
structure FormProcessor where
  kN : Str := []
  fN : Str := []
  cT : Str := []
  tE : Str := []
  deriving DecidableEq

/-- The arguments of a call of `FormDataProcessorController::onData`, behind the request. -/
structure FormCall where
  keyName : Str
  fileName : Str
  contentType : Str
  transferEncoding : Str
  data : Option Str
  offset : ℕ
  size : ℕ
  finish : Bool
  deriving DecidableEq

/-- Source `FormDataProcessorController`: user code with a state of its own. -/
structure FormDataProcessorController (σ : Type) where
  onData : FormCall → σ → Bool × σ

/-- The processor, the state of the controller, and the calls of it. -/
structure Form (σ : Type) where
  processor : FormProcessor := {}
  user : σ
  calls : List FormCall := []

variable {σ : Type}

/-- `if (p && cached != p) cached = p;`, where a null pointer is `none`. -/
def assign (cached : Str) (p : Option Str) : Str :=
  match p with
  | some s => if cached ≠ s then s else cached
  | none => cached

section Source

variable (ctrl : FormDataProcessorController σ)

/-- `ctrl_->onData(…)`: the controller is told. -/
def Form.call (f : Form σ) (arguments : FormCall) : Bool × Form σ :=
  let r := ctrl.onData arguments f.user
  (r.1, { f with user := r.2, calls := f.calls ++ [arguments] })

/-- Source `FormProcessor::onData`, the member that `formIter` calls. -/
def FormProcessor.onData (key fN cT tE : Option Str) (data : Str) (off : ℕ) (f : Form σ) :
    Bool × Form σ :=
  let processor : FormProcessor :=
    { kN := assign f.processor.kN key
      fN := assign f.processor.fN fN
      cT := assign f.processor.cT cT
      tE := assign f.processor.tE tE }
  Form.call ctrl { f with processor := processor }
    ⟨processor.kN, processor.fN, processor.cT, processor.tE, some data, off, data.length, false⟩

/-- Source `formIter`. -/
def formIter (key fN cT tE : Option Str) (data : Str) (off : ℕ) (f : Form σ) :
    MHD_Return × Form σ :=
  let r := FormProcessor.onData ctrl key fN cT tE data off f
  (if r.1 then .MHD_OK else .MHD_FAILED, r.2)

/-- Source `FormProcessor::onData` at the end of the upload. -/
def Form.finish (f : Form σ) : Form σ :=
  (Form.call ctrl f ⟨f.processor.kN, f.processor.fN, f.processor.cT, f.processor.tE, none, 0, 0,
    true⟩).2

end Source

/-! ## Uploads -/

/-- A part of a form: the names that it has, and its value in the pieces that MHD hands over. -/
structure Part where
  key : Option Str := none
  fileName : Option Str := none
  contentType : Option Str := none
  transferEncoding : Option Str := none
  pieces : List Str

section Uploads

variable (ctrl : FormDataProcessorController σ)

/-- The calls of MHD for the pieces of a part, from an offset. -/
def Form.pieces (p : Part) : ℕ → List Str → Form σ → Form σ
  | _, [], f => f
  | off, data :: later, f =>
    Form.pieces p (off + data.length) later
      (formIter ctrl p.key p.fileName p.contentType p.transferEncoding data off f).2

/-- The calls of MHD for some parts.  An upload that the controller stops is one with fewer pieces. -/
def Form.parts (ps : List Part) (f : Form σ) : Form σ :=
  ps.foldl (fun f p => Form.pieces ctrl p 0 p.pieces f) f

/-- A whole upload. -/
def upload (ps : List Part) (user : σ) : Form σ := Form.finish ctrl (Form.parts ctrl ps { user := user })

end Uploads

/-- The names of a part, the empty string for an absent one. -/
def Part.own (p : Part) : FormProcessor :=
  ⟨p.key.getD [], p.fileName.getD [], p.contentType.getD [], p.transferEncoding.getD []⟩

/-- The calls for some pieces under these names. -/
def FormProcessor.callsFor (names : FormProcessor) : ℕ → List Str → List FormCall
  | _, [] => []
  | off, data :: later =>
    ⟨names.kN, names.fN, names.cT, names.tE, some data, off, data.length, false⟩ ::
      names.callsFor (off + data.length) later

/-- The calls for a part under its own names. -/
def Part.calls (p : Part) : List FormCall := p.own.callsFor 0 p.pieces

/-- A name that is absent does not show the one of the part before it. -/
def Fresh (before name : Option Str) : Prop := name = none → before.getD [] = []

/-- The part lacks no name that the part before it has, other than an empty one. -/
structure Part.Follows (q p : Part) : Prop where
  key : Fresh q.key p.key
  fileName : Fresh q.fileName p.fileName
  contentType : Fresh q.contentType p.contentType
  transferEncoding : Fresh q.transferEncoding p.transferEncoding

/-! ## One part -/

theorem assign_eq (cached : Str) (p : Option Str) : assign cached p = p.getD cached := by
  unfold assign
  cases p with
  | none => rfl
  | some s =>
    dsimp only [Option.getD_some]
    split
    · rfl
    · rename_i same
      exact not_not.mp same

theorem assign_own_iff (before name : Option Str) :
    assign (before.getD []) name = name.getD [] ↔ Fresh before name := by
  rw [assign_eq]
  cases name with
  | none => simp [Fresh]
  | some s => simp [Fresh]

/-- The names behind a call for a part. -/
def FormProcessor.update (names : FormProcessor) (p : Part) : FormProcessor :=
  ⟨assign names.kN p.key, assign names.fN p.fileName,
    assign names.cT p.contentType, assign names.tE p.transferEncoding⟩

theorem update_update (names : FormProcessor) (p : Part) :
    (names.update p).update p = names.update p := by
  have twice : ∀ (cached : Str) (name : Option Str),
      name.getD (name.getD cached) = name.getD cached := by
    intro cached name
    cases name <;> rfl
  simp only [FormProcessor.update, assign_eq, twice]

theorem update_own (q p : Part) : q.own.update p = p.own ↔ q.Follows p := by
  simp only [FormProcessor.update, Part.own, FormProcessor.mk.injEq, assign_own_iff]
  constructor
  · rintro ⟨key, fileName, contentType, transferEncoding⟩
    exact ⟨key, fileName, contentType, transferEncoding⟩
  · rintro ⟨key, fileName, contentType, transferEncoding⟩
    exact ⟨key, fileName, contentType, transferEncoding⟩

section Pieces

variable (ctrl : FormDataProcessorController σ)

theorem pieces_processor (p : Part) {pieces : List Str} (nonempty : pieces ≠ []) (off : ℕ)
    (f : Form σ) : (Form.pieces ctrl p off pieces f).processor = f.processor.update p := by
  induction pieces generalizing off f with
  | nil => exact absurd rfl nonempty
  | cons data later ih =>
    rw [Form.pieces]
    by_cases last : later = []
    · rw [last]
      rfl
    · rw [ih last]
      exact update_update f.processor p

theorem pieces_calls (p : Part) (pieces : List Str) (off : ℕ) (f : Form σ) :
    (Form.pieces ctrl p off pieces f).calls =
      f.calls ++ (f.processor.update p).callsFor off pieces := by
  induction pieces generalizing off f with
  | nil => exact (List.append_nil _).symm
  | cons data later ih =>
    rw [Form.pieces, ih]
    have kept : (formIter ctrl p.key p.fileName p.contentType p.transferEncoding data off
        f).2.processor.update p = f.processor.update p := update_update f.processor p
    rw [kept, FormProcessor.callsFor, List.append_cons]
    rfl

@[simp] theorem callsFor_length (names : FormProcessor) (off : ℕ) (pieces : List Str) :
    (names.callsFor off pieces).length = pieces.length := by
  induction pieces generalizing off with
  | nil => rfl
  | cons data later ih => simp [FormProcessor.callsFor, ih]

theorem callsFor_finish (names : FormProcessor) (off : ℕ) (pieces : List Str) :
    ∀ c ∈ names.callsFor off pieces, c.finish = false := by
  induction pieces generalizing off with
  | nil => simp [FormProcessor.callsFor]
  | cons data later ih =>
    intro c member
    rcases List.mem_cons.mp member with rfl | member
    · rfl
    · exact ih _ c member

theorem callsFor_injective {names names' : FormProcessor} {off : ℕ} {pieces : List Str}
    (nonempty : pieces ≠ []) (same : names.callsFor off pieces = names'.callsFor off pieces) :
    names = names' := by
  cases pieces with
  | nil => exact absurd rfl nonempty
  | cons data later =>
    obtain ⟨kN, fN, cT, tE⟩ := names
    simp only [FormProcessor.callsFor, List.cons.injEq, FormCall.mk.injEq] at same
    obtain ⟨⟨rfl, rfl, rfl, rfl, -⟩, -⟩ := same
    rfl

end Pieces

/-! ## All parts -/

section Parts

variable (ctrl : FormDataProcessorController σ)

theorem parts_cons (p : Part) (ps : List Part) (f : Form σ) :
    Form.parts ctrl (p :: ps) f = Form.parts ctrl ps (Form.pieces ctrl p 0 p.pieces f) := rfl

/-- The calls for some parts stand behind the calls before them. -/
theorem parts_calls (ps : List Part) (f : Form σ) :
    ∃ later, (Form.parts ctrl ps f).calls = f.calls ++ later ∧ ∀ c ∈ later, c.finish = false := by
  induction ps generalizing f with
  | nil => exact ⟨[], (List.append_nil _).symm, nofun⟩
  | cons p ps ih =>
    obtain ⟨later, whole, unfinished⟩ := ih (Form.pieces ctrl p 0 p.pieces f)
    rw [parts_cons, whole, pieces_calls, List.append_assoc]
    refine ⟨_, rfl, fun c member => ?_⟩
    rcases List.mem_append.mp member with here | member
    · exact callsFor_finish _ _ _ c here
    · exact unfinished c member

/-- Behind a part whose names are its own, all parts are shown under their own names exactly where
each delivered one follows the delivered one before it. -/
theorem parts_own_iff (ps : List Part) (f : Form σ) {q : Part} (own : f.processor = q.own) :
    (Form.parts ctrl ps f).calls = f.calls ++ ps.flatMap Part.calls ↔
      (q :: ps.filter (·.pieces ≠ [])).IsChain Part.Follows := by
  induction ps generalizing f q with
  | nil => exact iff_of_true (List.append_nil _).symm (List.isChain_singleton q)
  | cons p ps ih =>
    rw [parts_cons, List.flatMap_cons]
    by_cases empty : p.pieces = []
    · rw [List.filter_cons_of_neg (by simpa using empty), Part.calls, empty]
      exact ih f own
    · rw [List.filter_cons_of_pos (by simpa using empty), List.isChain_cons_cons, ← update_own, ← own]
      have behind := pieces_calls ctrl p p.pieces 0 f
      constructor
      · intro shown
        -- the calls for `p` are the first ones behind those of `f`
        obtain ⟨later, whole, -⟩ := parts_calls ctrl ps (Form.pieces ctrl p 0 p.pieces f)
        have calls := whole.symm.trans shown
        rw [behind, List.append_assoc] at calls
        have first := (List.append_inj (List.append_cancel_left calls) (by simp [Part.calls])).1
        have names := callsFor_injective empty first
        have processor := (pieces_processor ctrl p empty 0 f).trans names
        refine ⟨names, (ih _ processor).mp ?_⟩
        rw [shown, behind, first, List.append_assoc]
      · rintro ⟨names, rest⟩
        have processor := (pieces_processor ctrl p empty 0 f).trans names
        rw [(ih _ processor).mpr rest, behind, names, List.append_assoc]
        rfl

/-- Every call for a piece gets the names of its own part, and nothing else, exactly if no part lacks
a name that the delivered part before it has, other than an empty one. -/
theorem own_attributes_iff (ps : List Part) (user : σ) :
    (upload ctrl ps user).calls.filter (!·.finish) = ps.flatMap Part.calls ↔
      (ps.filter (·.pieces ≠ [])).IsChain Part.Follows := by
  have last : (upload ctrl ps user).calls.filter (!·.finish) =
      (Form.parts ctrl ps { user := user }).calls := by
    obtain ⟨later, whole, unfinished⟩ := parts_calls ctrl ps { user := user }
    rw [upload, Form.finish, Form.call, List.filter_append, whole]
    simpa using unfinished
  have noNames : ∀ p : Part, Part.Follows { pieces := [] } p :=
    fun p => ⟨fun _ => rfl, fun _ => rfl, fun _ => rfl, fun _ => rfl⟩
  have start : (Form.parts ctrl ps { user := user }).calls = [] ++ ps.flatMap Part.calls ↔ _ :=
    parts_own_iff ctrl ps { user := user } (q := { pieces := [] }) rfl
  rw [last, ← List.nil_append (ps.flatMap _), start, List.isChain_cons]
  exact and_iff_right fun p _ => noNames p

/-- The field behind a file is shown under the name and the type of the file. -/
theorem stale_fileName :
    let file : Part := { key := some "file".toList, fileName := some "a.txt".toList,
                         contentType := some "text/plain".toList, pieces := ["x".toList] }
    let note : Part := { key := some "note".toList, pieces := ["y".toList] }
    (upload ⟨fun _ _ => (true, ())⟩ [file, note] ()).calls.filter (!·.finish) =
        [⟨"file".toList, "a.txt".toList, "text/plain".toList, [], some "x".toList, 0, 1, false⟩,
          ⟨"note".toList, "a.txt".toList, "text/plain".toList, [], some "y".toList, 0, 1, false⟩] ∧
      note.calls = [⟨"note".toList, [], [], [], some "y".toList, 0, 1, false⟩] := by
  decide

end Parts

end Cppmhd
