import Cppmhd.Http.Callback
import Cppmhd.Maps.Ordered
import Cppmhd.Words.Precedes
import Mathlib.Data.Char
import Mathlib.Data.List.TakeWhile

/-!
# Responses

`HttpResponse` of `entity.h` with what `createResponse` of `http.cc` adds to it.  Its headers are a
`std::map` whose comparator looks at the common length of two names only, and MHD reads names and values as
C strings.  `headers_sent_iff` says for which names and values the headers are those that the handler set,
`weak_order_iff` for which names the comparator is a weak order.
-/

open Words Maps

namespace Cppmhd

/-! ## Names of headers -/

/-- The sign of `strncasecmp` in the C locale.  The terminator is less than any other character. -/
def strncasecmp : Str → Str → ℕ → Ordering
  | _, _, 0 => .eq
  | [], [], _ + 1 => .eq
  | [], _ :: _, _ + 1 => .lt
  | _ :: _, [], _ + 1 => .gt
  | x :: first, y :: second, n + 1 =>
    if x.toLower = y.toLower then strncasecmp first second n
    else if x.toLower < y.toLower then .lt else .gt

/-- Source `HttpResponse::HttpHeaderCompare`, the branch without `_WIN32`. -/
def HttpHeaderCompare (first second : Str) : Bool :=
  strncasecmp (c_str first) (c_str second) (min first.length second.length) == .lt

/-- A name without its case. -/
def foldCase (name : Str) : Str := name.map Char.toLower

/-- What the comparator reads of a name: a terminator inside it is the last character. -/
def comparedName : Str → Str
  | [] => []
  | x :: name => if x = '\x00' then [x] else x.toLower :: comparedName name

theorem toLower_eq_nul {x : Char} : x.toLower = '\x00' ↔ x = '\x00' := by
  unfold Char.toLower
  split
  · rename_i upper
    have least : 65 ≤ x.toNat := upper.1
    have greatest : x.toNat ≤ 90 := upper.2
    constructor
    · intro lower
      have code := congrArg (fun c => c.val.toNat) lower
      simp [UInt32.toNat_add] at code
      omega
    · rintro rfl
      exact absurd least (by decide)
  · rfl

theorem nul_lt {x : Char} (other : x ≠ '\x00') : '\x00' < x := by
  rw [Char.lt_def, UInt32.lt_iff_toNat_lt]
  have positive : x.val.toNat ≠ 0 := fun zero => other (Char.ext (UInt32.toNat_inj.mp zero))
  have nul : '\x00'.val.toNat = 0 := rfl
  omega

theorem c_str_cons (x : Char) (s : Str) :
    c_str (x :: s) = if x = '\x00' then [] else x :: c_str s := by
  by_cases nul : x = '\x00'
  · simp [c_str, nul]
  · simp [c_str, nul]

theorem nul_not_mem_c_str (s : Str) : '\x00' ∉ c_str s := by
  intro member
  simpa using List.mem_takeWhile_imp member

theorem c_str_of_free {s : Str} (free : '\x00' ∉ s) : c_str s = s := by
  refine List.takeWhile_eq_self_iff.mpr fun x member => ?_
  simpa using fun nul : x = '\x00' => free (nul ▸ member)

theorem nul_mem_foldCase {s : Str} : '\x00' ∈ foldCase s ↔ '\x00' ∈ s := by
  simp [foldCase, toLower_eq_nul]

/-- The comparator looks at the first difference. -/
theorem headerCompare_iff {first second : Str} :
    HttpHeaderCompare first second = true ↔ Precedes (comparedName first) (comparedName second) := by
  rw [HttpHeaderCompare, beq_iff_eq]
  induction first generalizing second with
  | nil => simp [comparedName, strncasecmp]
  | cons x first ih =>
    cases second with
    | nil => simp [comparedName, strncasecmp]
    | cons y second =>
      rw [c_str_cons, c_str_cons, List.length_cons, List.length_cons, Nat.add_min_add_right]
      unfold comparedName
      by_cases left : x = '\x00'
      · subst left
        by_cases right : y = '\x00'
        · subst right
          simp [strncasecmp]
        · have less := nul_lt (toLower_eq_nul.not.mpr right)
          simp [strncasecmp, right, less]
      · have greater := nul_lt (toLower_eq_nul.not.mpr left)
        by_cases right : y = '\x00'
        · subst right
          simp [strncasecmp, left, greater.not_gt, greater.ne']
        · simp only [left, right, if_false, strncasecmp, precedes_cons]
          rw [← ih]
          by_cases same : x.toLower = y.toLower
          · simp [same]
          · by_cases less : x.toLower < y.toLower
            · simp [same, less]
            · simp [same, less]

theorem comparedName_congr {first second : Str} (same : foldCase first = foldCase second) :
    comparedName first = comparedName second := by
  induction first generalizing second with
  | nil =>
    obtain rfl := List.map_eq_nil_iff.mp same.symm
    rfl
  | cons x first ih =>
    cases second with
    | nil => exact absurd same (by simp [foldCase])
    | cons y second =>
      obtain ⟨head, tail⟩ := List.cons.inj same
      have nul : x = '\x00' ↔ y = '\x00' := by
        rw [← toLower_eq_nul, head, toLower_eq_nul]
      unfold comparedName
      by_cases left : x = '\x00'
      · rw [if_pos left, if_pos (nul.mp left), left, nul.mp left]
      · rw [if_neg left, if_neg (nul.not.mp left), head, ih tail]

/-- The comparator of the headers; names that differ in case only are one name. -/
def headerNames : Comparator Str Str where
  lt := HttpHeaderCompare
  name := foldCase
  irrefl k := by
    rw [← Bool.not_eq_true, headerCompare_iff]
    exact precedes_irrefl _
  trans := by
    intro k₁ k₂ k₃ first last
    rw [headerCompare_iff] at first last ⊢
    exact first.trans last
  congr := by
    intro k₁ k₂ l₁ l₂ left right
    rw [Bool.eq_iff_iff, headerCompare_iff, headerCompare_iff, comparedName_congr left,
      comparedName_congr right]

@[simp] theorem headerNames_name (name : Str) : headerNames.name name = foldCase name := rfl

/-- Two names that differ in more than the case are one key of the map. -/
def Clash (first second : Str) : Prop := ¬ headerNames.Separates first second

theorem comparedName_of_not_mem {name : Str} (free : '\x00' ∉ name) :
    comparedName name = foldCase name := by
  induction name with
  | nil => rfl
  | cons x name ih =>
    rw [List.mem_cons, not_or] at free
    rw [comparedName, if_neg (Ne.symm free.1), ih free.2]
    rfl

/-- Of two names that clash one begins with the other. -/
theorem clash_iff {first second : Str} (left : '\x00' ∉ first) (right : '\x00' ∉ second) :
    Clash first second ↔ foldCase first ≠ foldCase second ∧
      (foldCase first <+: foldCase second ∨ foldCase second <+: foldCase first) := by
  have before : ∀ {a b : Str},
      headerNames.lt a b = true ↔ Precedes (comparedName a) (comparedName b) := headerCompare_iff
  rw [Clash, Comparator.Separates, not_or, not_or, before, before, comparedName_of_not_mem left,
    comparedName_of_not_mem right, not_precedes_iff]
  rfl

/-! ### The laws of the order -/

/-- The comparator puts neither name before the other. -/
def Incomparable (first second : Str) : Prop :=
  HttpHeaderCompare first second = false ∧ HttpHeaderCompare second first = false

/-- The laws of a strict weak order whose equivalence is equality of names without their case. -/
structure WeakOrder (a b c : Str) : Prop where
  irrefl : HttpHeaderCompare a a = false
  trans : HttpHeaderCompare a b = true → HttpHeaderCompare b c = true → HttpHeaderCompare a c = true
  incomparable : Incomparable a b → Incomparable b c → Incomparable a c
  names : Incomparable a b ↔ a.length = b.length ∧ foldCase a = foldCase b

theorem incomparable_iff {first second : Str} : Incomparable first second ↔
    comparedName first <+: comparedName second ∨ comparedName second <+: comparedName first := by
  rw [← not_precedes_iff, ← headerCompare_iff, ← headerCompare_iff, Incomparable,
    Bool.not_eq_true, Bool.not_eq_true]

/-- The laws hold of three names if and only if the first two are one name, or neither of them begins
with the other as far as the comparator reads it. -/
theorem weak_order_iff (a b c : Str) :
    WeakOrder a b c ↔ foldCase a = foldCase b ∨
      ¬ comparedName a <+: comparedName b ∧ ¬ comparedName b <+: comparedName a := by
  rw [← not_or, ← incomparable_iff]
  constructor
  · intro order
    by_cases here : Incomparable a b
    · exact Or.inl (order.names.mp here).2
    · exact Or.inr here
  · intro separate
    have names : Incomparable a b ↔ foldCase a = foldCase b := by
      refine ⟨separate.resolve_right ∘ not_not.mpr, fun same => ?_⟩
      rw [incomparable_iff, comparedName_congr same]
      exact Or.inl List.prefix_rfl
    refine ⟨headerNames.irrefl a, headerNames.trans, fun first last => ?_, ?_⟩
    · rw [incomparable_iff] at last ⊢
      rwa [comparedName_congr (names.mp first)]
    · rw [names]
      refine ⟨fun same => ⟨?_, same⟩, And.right⟩
      simpa [foldCase] using congrArg List.length same

/-- The name `X` is comparable with neither of the two names that it begins. -/
theorem incomparable_begins :
    ¬ WeakOrder "X-A".toList "X".toList "X-B".toList ∧ Incomparable "X-A".toList "X".toList ∧
      Incomparable "X".toList "X-B".toList ∧ HttpHeaderCompare "X-A".toList "X-B".toList = true := by
  refine ⟨fun order => ?_, ⟨by decide, by decide⟩, ⟨by decide, by decide⟩, by decide⟩
  have same := order.names.mp ⟨by decide, by decide⟩
  exact absurd same.1 (by decide)

/-! ## The source -/

def CPPMHD_HTTP_HEADER_CONTENT_TYPE : Str := "Content-Type".toList

def CPPMHD_HTTP_HEADER_SERVER : Str := "Server".toList

def CPPMHD_HTTP_MIME_APPLICATION_OCTET : Str := "application/octet-stream".toList

def CPPMHD_HTTP_MIME_TEXT_PLAIN : Str := "text/plain".toList

/-- Source `HttpResponse`.  The number of the status is `none` before a call of `status`; the body is
its size, the data, and whether the response owns them. -/
structure HttpResponse where
  sc : Option ℕ := none
  headers : OrderedMap headerNames Str := OrderedMap.empty
  body : ℕ × Option Str × Bool := (0, none, false)

namespace HttpResponse

/-- `f(header(key))`: what a caller does with the reference to the value. -/
def header (r : HttpResponse) (key : Str) (f : Str → Str) : HttpResponse :=
  { r with headers := r.headers.modify key [] f }

/-- `body(size, data, persistent)`; a null pointer is `none`. -/
def bodyData (r : HttpResponse) (size : ℕ) (data : Option Str) (persistent : Bool) : HttpResponse :=
  match data with
  | none => r
  | some bytes =>
    if size = 0 then r
    else { r with body := (size, some (if persistent then bytes else bytes.take size), !persistent) }

/-- `body(data)`, for a string. -/
def bodyString (r : HttpResponse) (data : Str) : HttpResponse :=
  (r.bodyData data.length (some data) false).header CPPMHD_HTTP_HEADER_CONTENT_TYPE
    fun _ => CPPMHD_HTTP_MIME_TEXT_PLAIN

end HttpResponse

/-- What a handler can do with a response. -/
inductive ResponseCall where
  /-- `header(name) = value`. -/
  | assign (name value : Str)
  /-- `header(name, value)`. -/
  | header (name value : Str)
  | bodyData (size : ℕ) (data : Option Str) (persistent : Bool)
  | bodyString (data : Str)
  | status (sc : ℕ)

/-- The response behind a call. -/
def HttpResponse.call (r : HttpResponse) : ResponseCall → HttpResponse
  | .assign name value | .header name value => r.header name fun _ => value
  | .bodyData size data persistent => r.bodyData size data persistent
  | .bodyString data => r.bodyString data
  | .status sc => { r with sc := some sc }

/-- A new response behind some calls. -/
def HttpResponse.calls (calls : List ResponseCall) : HttpResponse :=
  calls.foldl HttpResponse.call {}

/-- `if (value.length() == 0) value = d;` -/
def fillEmpty (d value : Str) : Str := if value.length = 0 then d else value

/-- A response of MHD: its buffer, whether MHD copies the buffer, and its headers. -/
structure MHD_Response where
  size : ℕ
  data : Option Str
  copies : Bool
  headers : List (Str × Str)

/-- The calls of `MHD_add_response_header` in source `setResponseHeader`. -/
def setResponseHeader (res : MHD_Response) (headers : OrderedMap headerNames Str) : MHD_Response :=
  { res with headers := res.headers ++ headers.entries.map fun h => (c_str h.1, c_str h.2) }

section Create

variable (PROJECT_SERVER_HEADER : Str)

/-- Source `addSharedHeaders`. -/
def addSharedHeaders (r : HttpResponse) : HttpResponse :=
  r.header CPPMHD_HTTP_HEADER_SERVER (fillEmpty PROJECT_SERVER_HEADER)

/-- What source `createResponse` does with the headers. -/
def HttpResponse.complete (r : HttpResponse) : HttpResponse :=
  addSharedHeaders PROJECT_SERVER_HEADER
    (if r.body.1 > 0 then
      r.header CPPMHD_HTTP_HEADER_CONTENT_TYPE (fillEmpty CPPMHD_HTTP_MIME_APPLICATION_OCTET)
    else r)

/-- Source `createResponse`: the response as it is left behind, and the one of MHD. -/
def createResponse (r : HttpResponse) : HttpResponse × MHD_Response :=
  let res : MHD_Response := ⟨r.body.1, r.body.2.1, r.body.2.2, []⟩
  let r := r.complete PROJECT_SERVER_HEADER
  (r, setResponseHeader res r.headers)

end Create

/-! ## What the handler set -/

/-- The names and values that a call assigns. -/
def ResponseCall.assigned : ResponseCall → List (Str × Str)
  | .assign name value | .header name value => [(name, value)]
  | .bodyString _ => [(CPPMHD_HTTP_HEADER_CONTENT_TYPE, CPPMHD_HTTP_MIME_TEXT_PLAIN)]
  | .bodyData _ _ _ | .status _ => []

/-- All assignments, in order. -/
def assignments (calls : List ResponseCall) : List (Str × Str) := calls.flatMap ResponseCall.assigned

/-- The last value assigned to a name. -/
def lastAssigned (calls : List ResponseCall) (name : Str) : Option Str :=
  (((assignments calls).filter (foldCase ·.1 = foldCase name)).getLast?).map (·.2)

section Wanted

variable (PROJECT_SERVER_HEADER : Str) (calls : List ResponseCall)

/-- The header of a name that is to be sent. -/
def wantedHeader (name : Str) : Option Str :=
  let last := lastAssigned calls name
  if foldCase name = foldCase CPPMHD_HTTP_HEADER_SERVER then
    some (fillEmpty PROJECT_SERVER_HEADER (last.getD []))
  else if foldCase name = foldCase CPPMHD_HTTP_HEADER_CONTENT_TYPE ∧
      (HttpResponse.calls calls).body.1 > 0 then
    some (fillEmpty CPPMHD_HTTP_MIME_APPLICATION_OCTET (last.getD []))
  else last

/-- The names that are written. -/
def usedNames : List Str :=
  (assignments calls).map (·.1) ++
    ((if (HttpResponse.calls calls).body.1 > 0 then [CPPMHD_HTTP_HEADER_CONTENT_TYPE] else []) ++
      [CPPMHD_HTTP_HEADER_SERVER])

end Wanted

/-- The value that MHD got under a name. -/
def MHD_Response.header (res : MHD_Response) (name : Str) : Option Str :=
  (res.headers.find? (foldCase ·.1 = foldCase name)).map (·.2)

/-- MHD gets the wanted headers and no others, each name once. -/
structure Sends (res : MHD_Response) (wanted : Str → Option Str) : Prop where
  once : (res.headers.map (foldCase ·.1)).Nodup
  own : ∀ name, res.header name = wanted name

/-! ## Headers as writes -/

/-- The writes of a list of assignments. -/
def constWrites (as : List (Str × Str)) : List (Str × (Str → Str)) :=
  as.map fun a => (a.1, fun _ => a.2)

/-- The writes of `createResponse`. -/
def completion (PROJECT_SERVER_HEADER : Str) (size : ℕ) : List (Str × (Str → Str)) :=
  (if size > 0 then
    [(CPPMHD_HTTP_HEADER_CONTENT_TYPE, fillEmpty CPPMHD_HTTP_MIME_APPLICATION_OCTET)] else []) ++
    [(CPPMHD_HTTP_HEADER_SERVER, fillEmpty PROJECT_SERVER_HEADER)]

@[simp] theorem bodyData_headers (r : HttpResponse) (size : ℕ) (data : Option Str)
    (persistent : Bool) : (r.bodyData size data persistent).headers = r.headers := by
  unfold HttpResponse.bodyData
  cases data with
  | none => rfl
  | some bytes =>
    dsimp only
    split <;> rfl

theorem call_headers (r : HttpResponse) (c : ResponseCall) :
    (r.call c).headers = r.headers.modifyAll [] (constWrites c.assigned) := by
  cases c with
  | assign | header | status => rfl
  | bodyData size data persistent => exact bodyData_headers r size data persistent
  | bodyString data =>
    show (r.bodyData data.length (some data) false).headers.modify _ _ _ = _
    rw [bodyData_headers]
    rfl

theorem calls_headers (calls : List ResponseCall) :
    (HttpResponse.calls calls).headers =
      (OrderedMap.empty : OrderedMap headerNames Str).modifyAll [] (constWrites (assignments calls)) := by
  have general : ∀ r : HttpResponse, (calls.foldl HttpResponse.call r).headers =
      r.headers.modifyAll [] (constWrites (assignments calls)) := by
    induction calls with
    | nil => exact fun _ => rfl
    | cons c calls ih =>
      intro r
      have writes : constWrites (assignments (c :: calls)) =
          constWrites c.assigned ++ constWrites (assignments calls) := by
        simp [constWrites, assignments]
      rw [List.foldl_cons, ih, call_headers, writes, OrderedMap.modifyAll_append]
  exact general {}

section Sent

variable (PROJECT_SERVER_HEADER : Str)

theorem complete_headers (r : HttpResponse) :
    (r.complete PROJECT_SERVER_HEADER).headers =
      r.headers.modifyAll [] (completion PROJECT_SERVER_HEADER r.body.1) := by
  unfold HttpResponse.complete completion
  split <;> rfl

variable (calls : List ResponseCall)

/-- All writes to the headers of a response. -/
def allWrites : List (Str × (Str → Str)) :=
  constWrites (assignments calls) ++
    completion PROJECT_SERVER_HEADER (HttpResponse.calls calls).body.1

theorem sent_headers :
    (createResponse PROJECT_SERVER_HEADER (HttpResponse.calls calls)).1.headers =
      OrderedMap.empty.modifyAll [] (allWrites PROJECT_SERVER_HEADER calls) := by
  show ((HttpResponse.calls calls).complete PROJECT_SERVER_HEADER).headers = _
  rw [complete_headers, calls_headers, allWrites, OrderedMap.modifyAll_append]

theorem usedNames_eq :
    usedNames calls = (allWrites PROJECT_SERVER_HEADER calls).map (·.1) := by
  unfold usedNames allWrites completion constWrites
  rw [List.map_append, List.map_append, List.map_map]
  split <;> rfl

/-- What the writes leave under a name is the wanted header. -/
theorem written_eq_wanted (name : Str) :
    OrderedMap.written headerNames [] (allWrites PROJECT_SERVER_HEADER calls) (foldCase name) none =
      wantedHeader PROJECT_SERVER_HEADER calls name := by
  have assigned : OrderedMap.written headerNames [] (constWrites (assignments calls))
      (foldCase name) none = lastAssigned calls name := by
    rw [constWrites, OrderedMap.written_const, Option.or_none]
    rfl
  have different : foldCase CPPMHD_HTTP_HEADER_CONTENT_TYPE ≠ foldCase CPPMHD_HTTP_HEADER_SERVER := by
    decide
  rw [allWrites, OrderedMap.written_append, assigned, completion, OrderedMap.written_append,
    OrderedMap.written_singleton, headerNames_name, wantedHeader]
  have type : OrderedMap.written headerNames []
      (if (HttpResponse.calls calls).body.1 > 0 then
        [(CPPMHD_HTTP_HEADER_CONTENT_TYPE, fillEmpty CPPMHD_HTTP_MIME_APPLICATION_OCTET)] else [])
      (foldCase name) (lastAssigned calls name) =
        if foldCase name = foldCase CPPMHD_HTTP_HEADER_CONTENT_TYPE ∧
            (HttpResponse.calls calls).body.1 > 0 then
          some (fillEmpty CPPMHD_HTTP_MIME_APPLICATION_OCTET ((lastAssigned calls name).getD []))
        else lastAssigned calls name := by
    by_cases positive : (HttpResponse.calls calls).body.1 > 0
    · rw [if_pos positive, OrderedMap.written_singleton, headerNames_name]
      by_cases same : foldCase CPPMHD_HTTP_HEADER_CONTENT_TYPE = foldCase name
      · rw [if_pos same, if_pos ⟨same.symm, positive⟩]
      · rw [if_neg same, if_neg fun both => same both.1.symm]
    · rw [if_neg positive, if_neg fun both => positive both.2]
      rfl
  rw [type]
  by_cases server : foldCase name = foldCase CPPMHD_HTTP_HEADER_SERVER
  · rw [if_pos server.symm, if_pos server, if_neg]
    exact fun both => different (both.1.symm.trans server)
  · rw [if_neg fun same => server same.symm, if_neg server]

theorem wanted_isSome {name : Str} :
    (wantedHeader PROJECT_SERVER_HEADER calls name).isSome ↔
      ∃ a ∈ usedNames calls, foldCase a = foldCase name := by
  rw [← written_eq_wanted, OrderedMap.written_isSome, usedNames_eq PROJECT_SERVER_HEADER]
  simp

theorem passed_eq : (createResponse PROJECT_SERVER_HEADER (HttpResponse.calls calls)).2.headers =
    (createResponse PROJECT_SERVER_HEADER (HttpResponse.calls calls)).1.headers.entries.map
      fun h => (c_str h.1, c_str h.2) := rfl

/-- Every key of the headers is a name that is written. -/
theorem key_used {e : Str × Str}
    (member : e ∈ (createResponse PROJECT_SERVER_HEADER (HttpResponse.calls calls)).1.headers.entries) :
    e.1 ∈ usedNames calls := by
  rw [sent_headers] at member
  rw [usedNames_eq PROJECT_SERVER_HEADER]
  rcases OrderedMap.mem_modifyAll member with ⟨w, written, same⟩ | ⟨e', empty, -⟩
  · exact same ▸ List.mem_map_of_mem written
  · exact absurd empty List.not_mem_nil

/-- Without a terminator in a name MHD finds what the response has under it, up to a terminator. -/
theorem header_eq (free : ∀ a ∈ usedNames calls, '\x00' ∉ a) (name : Str) :
    (createResponse PROJECT_SERVER_HEADER (HttpResponse.calls calls)).2.header name =
      ((createResponse PROJECT_SERVER_HEADER (HttpResponse.calls calls)).1.headers.value
        (foldCase name)).map c_str := by
  have keys : ∀ e ∈ (createResponse PROJECT_SERVER_HEADER (HttpResponse.calls calls)).1.headers.entries,
      c_str e.1 = e.1 := fun e member => c_str_of_free (free _ (key_used _ _ member))
  rw [MHD_Response.header, passed_eq, OrderedMap.value]
  generalize (createResponse PROJECT_SERVER_HEADER (HttpResponse.calls calls)).1.headers.entries =
    entries at keys
  induction entries with
  | nil => rfl
  | cons e entries ih =>
    have here := keys e List.mem_cons_self
    have later := ih fun e' member => keys e' (List.mem_cons_of_mem _ member)
    by_cases same : foldCase e.1 = foldCase name
    · simp [here, same]
    · simpa [here, same] using later

/-- What MHD has under a name is cut at a terminator. -/
theorem header_cut {name value : Str}
    (found : (createResponse PROJECT_SERVER_HEADER (HttpResponse.calls calls)).2.header name = some value) :
    '\x00' ∉ name ∧ '\x00' ∉ value := by
  obtain ⟨e, here, rfl⟩ := Option.map_eq_some_iff.mp found
  have same : foldCase e.1 = foldCase name := by simpa using List.find?_some here
  obtain ⟨e', -, rfl⟩ := List.mem_map.mp (List.mem_of_find?_eq_some here)
  refine ⟨?_, nul_not_mem_c_str _⟩
  rw [← nul_mem_foldCase, ← same, nul_mem_foldCase]
  exact nul_not_mem_c_str _

/-- Two names that MHD finds do not clash. -/
theorem not_clash_of_header (free : ∀ a ∈ usedNames calls, '\x00' ∉ a) {a b : Str}
    (left : ((createResponse PROJECT_SERVER_HEADER (HttpResponse.calls calls)).2.header a).isSome)
    (right : ((createResponse PROJECT_SERVER_HEADER (HttpResponse.calls calls)).2.header b).isSome) :
    ¬ Clash a b := by
  rw [header_eq _ _ free, Option.isSome_map] at left right
  exact not_not.mpr (OrderedMap.separates_of_value left right)

/-- The response keeps the wanted headers exactly if no two used names clash. -/
theorem stored_iff :
    (∀ name, (createResponse PROJECT_SERVER_HEADER (HttpResponse.calls calls)).1.headers.value
        (foldCase name) = wantedHeader PROJECT_SERVER_HEADER calls name) ↔
      ∀ a ∈ usedNames calls, ∀ b ∈ usedNames calls, ¬ Clash a b := by
  have kept := OrderedMap.modifyAll_value_iff (c := headerNames) []
    (allWrites PROJECT_SERVER_HEADER calls)
  rw [← sent_headers] at kept
  simp only [← written_eq_wanted, usedNames_eq PROJECT_SERVER_HEADER, List.forall_mem_map, Clash,
    not_not]
  exact kept

/-- MHD gets the wanted headers exactly if no two used names clash and no terminator cuts a name or a
value.  If only the headers of the names that got a value other than the empty one are wanted, and no
terminator is in a name, then no two of these clash and no value of theirs is cut. -/
theorem headers_sent_iff :
    (Sends (createResponse PROJECT_SERVER_HEADER (HttpResponse.calls calls)).2
        (wantedHeader PROJECT_SERVER_HEADER calls) ↔
      (∀ a ∈ usedNames calls, ∀ b ∈ usedNames calls, ¬ Clash a b) ∧
        (∀ a ∈ usedNames calls, '\x00' ∉ a) ∧
        ∀ name value, wantedHeader PROJECT_SERVER_HEADER calls name = some value → '\x00' ∉ value) ∧
    ((∀ a ∈ assignments calls, '\x00' ∉ a.1) →
      (∀ a ∈ assignments calls, a.2 ≠ [] →
        (createResponse PROJECT_SERVER_HEADER (HttpResponse.calls calls)).2.header a.1 =
          wantedHeader PROJECT_SERVER_HEADER calls a.1) →
      ∀ a ∈ assignments calls, a.2 ≠ [] →
        (∀ b ∈ assignments calls, b.2 ≠ [] → ¬ Clash a.1 b.1) ∧
          ∀ value, wantedHeader PROJECT_SERVER_HEADER calls a.1 = some value → '\x00' ∉ value) := by
  have wanted : ∀ a ∈ usedNames calls, (wantedHeader PROJECT_SERVER_HEADER calls a).isSome :=
    fun a member => (wanted_isSome _ _).mpr ⟨a, member, rfl⟩
  have assigned : ∀ a ∈ assignments calls, a.1 ∈ usedNames calls :=
    fun a member => List.mem_append_left _ (List.mem_map_of_mem member)
  constructor
  · constructor
    · intro sends
      have found : ∀ a ∈ usedNames calls,
          ((createResponse PROJECT_SERVER_HEADER (HttpResponse.calls calls)).2.header a).isSome :=
        fun a member => (sends.own a).symm ▸ wanted a member
      have free : ∀ a ∈ usedNames calls, '\x00' ∉ a := by
        intro a member
        obtain ⟨value, here⟩ := Option.isSome_iff_exists.mp (found a member)
        exact (header_cut _ _ here).1
      exact ⟨fun a left b right => not_clash_of_header _ _ free (found a left) (found b right), free,
        fun name value here => (header_cut _ _ ((sends.own name).trans here)).2⟩
    · rintro ⟨separate, free, values⟩
      have stored := (stored_iff PROJECT_SERVER_HEADER calls).mpr separate
      refine ⟨?_, fun name => ?_⟩
      · have names := OrderedMap.nodup (c := headerNames)
          (createResponse PROJECT_SERVER_HEADER (HttpResponse.calls calls)).1.headers
        have same : (createResponse PROJECT_SERVER_HEADER (HttpResponse.calls calls)).2.headers.map
            (foldCase ·.1) = (createResponse PROJECT_SERVER_HEADER
              (HttpResponse.calls calls)).1.headers.entries.map (foldCase ·.1) := by
          rw [passed_eq, List.map_map]
          refine List.map_congr_left fun e member => ?_
          exact congrArg foldCase (c_str_of_free (free _ (key_used _ _ member)))
        rw [same]
        exact names
      · rw [header_eq _ _ free, stored]
        cases here : wantedHeader PROJECT_SERVER_HEADER calls name with
        | none => rfl
        | some value => exact congrArg some (c_str_of_free (values name value here))
  · intro named sent a member nonempty
    have free : ∀ a ∈ usedNames calls, '\x00' ∉ a := by
      intro a member
      simp only [usedNames, List.mem_append, List.mem_map, List.mem_singleton] at member
      rcases member with ⟨w, written, rfl⟩ | type | rfl
      · exact named w written
      · split at type
        · rw [List.mem_singleton.mp type]
          decide
        · exact absurd type List.not_mem_nil
      · decide
    have found : ∀ a ∈ assignments calls, a.2 ≠ [] →
        ((createResponse PROJECT_SERVER_HEADER (HttpResponse.calls calls)).2.header a.1).isSome :=
      fun a member nonempty => (sent a member nonempty).symm ▸ wanted a.1 (assigned a member)
    refine ⟨fun b member' nonempty' => ?_, fun value here => ?_⟩
    · exact not_clash_of_header _ _ free (found a member nonempty) (found b member' nonempty')
    · exact (header_cut _ _ ((sent a member nonempty).trans here)).2

/-- The value of the second name is sent under the first one, which begins the second. -/
theorem accept_merged :
    let calls : List ResponseCall := [.assign "Accept".toList "gzip".toList,
      .assign "Accept-Ranges".toList "bytes".toList]
    let r := createResponse "cppmhd/0".toList (HttpResponse.calls calls)
    r.2.headers = [("Accept".toList, "bytes".toList), ("Server".toList, "cppmhd/0".toList)] ∧
      ¬ Sends r.2 (wantedHeader "cppmhd/0".toList calls) := by
  refine ⟨by decide +kernel, fun sends => ?_⟩
  exact absurd (sends.own "Accept-Ranges".toList) (by decide +kernel)

end Sent

end Cppmhd
