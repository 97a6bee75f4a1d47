import Cppmhd.Http.Upload

/-!
# The account of an upload

`*dataSize` behind a call with body data, and what the processors consumed of the body up to any
moment (`upload_accounting`).
-/

open Runs

namespace Cppmhd

variable {σ Ctrl P Resp : Type}

/-! ## One call -/

/-- What a call with body data, whose number is `dataSize`, leaves in `*dataSize`. -/
inductive DataCall (c : Connection σ Ctrl P Resp) (bytes : Str) (dataSize : SizeT) :
    ℕ → Connection σ Ctrl P Resp → Prop
  | processed {pp : P} {result : SizeT} {c' : Connection σ Ctrl P Resp}
      (events : c'.events = c.events ++ [.onData pp (some bytes) result])
      (done : result ≠ DataProcessorParseFailed)
      (exact : (dataSizeLeft dataSize result).toNat =
        dataSize.toNat - min result.toNat dataSize.toNat) :
      DataCall c bytes dataSize (dataSizeLeft dataSize result).toNat c'
  | error {c' : Connection σ Ctrl P Resp} {co : ConnectionObject Ctrl P Resp}
      (object : c'.con_cls = some co) (state : co.request.state = .RS_ERROR) :
      DataCall c bytes dataSize 0 c'

section Call

variable {code : UserCode σ Ctrl P Resp} {s s' : Session σ Ctrl P Resp} {left : ℕ}

theorem Later.dataCall {bytes : Str} {dataSize : SizeT} (size : dataSize.toNat = bytes.length)
    (call : Later code s (some bytes) left s') :
    DataCall s.toConnection bytes dataSize left s'.toConnection := by
  cases call with
  | resend state | discard state => exact .error rfl state
  | dataInGet | noProcessor | fail => exact .error rfl rfl
  | @consume pp _ _ processor done =>
    generalize same : (s.receive.onData code pp (some bytes)).1 = result at done ⊢
    have amount := dataSizeLeft_toNat dataSize result
    rw [if_neg done] at amount
    rw [← size, UInt64.ofNat_toNat]
    have events : (s.receive.onData code pp (some bytes)).2.toConnection.events =
        s.toConnection.events ++ [.onData pp (some bytes) result] := by
      show (s.receive.onData code pp (some bytes)).2.events = _
      rw [onData_events, receive_events, same]
      rfl
    exact .processed events done amount

variable {pcre : Pcre} {http : HttpImplement σ Ctrl P Resp} {i : Incoming}
  {c c' : Connection σ Ctrl P Resp}

theorem call_later_bytes {co : ConnectionObject Ctrl P Resp} {bytes : Str}
    (object : c.con_cls = some co) (returned : i.call pcre http (some bytes) c = some (left, c')) :
    ∃ s', Later http.code ⟨co, c.user, c.events⟩ (some bytes) left s' ∧ c' = s'.toConnection := by
  unfold Incoming.call MHDconnectionCB at returned
  rw [object] at returned
  obtain ⟨⟨left', s'⟩, round, same⟩ := Option.map_eq_some_iff.mp returned
  obtain ⟨rfl, rfl⟩ := Prod.mk.inj same
  exact ⟨s', laterRound_cases nofun round, rfl⟩

theorem dataCall_of_returned {co : ConnectionObject Ctrl P Resp} {bytes : Str} {dataSize : SizeT}
    (object : c.con_cls = some co) (size : dataSize.toNat = bytes.length)
    (returned : i.call pcre http (some bytes) c = some (left, c')) :
    DataCall c bytes dataSize left c' := by
  obtain ⟨s', call, rfl⟩ := call_later_bytes object returned
  obtain ⟨con_cls, user, events⟩ := c
  obtain rfl : con_cls = some co := object
  exact call.dataCall size

theorem Later.left_le {data : Option Str} (call : Later code s data left s') :
    left ≤ (data.getD []).length := by
  cases call with
  | consume => exact dataSizeLeft_le _ _
  | resend | discard | signal | handle | answer | dataInGet | noProcessor | fail =>
    exact Nat.zero_le _

/-- A call with body data returns, except in front of the routing. -/
theorem call_bytes_isSome {co : ConnectionObject Ctrl P Resp} {bytes : Str}
    (object : c.con_cls = some co) (routed : co.request.state ≠ .INITIAL) (nonempty : bytes ≠ []) :
    (i.call pcre http (some bytes) c).isSome := by
  obtain ⟨x, bytes, rfl⟩ := List.exists_cons_of_ne_nil nonempty
  unfold Incoming.call MHDconnectionCB
  rw [object]
  dsimp only
  rw [Option.isSome_map, laterRound, if_neg routed]
  split
  · rfl
  · rfl

theorem left_le_of_returned {data : Option Str}
    (returned : i.call pcre http data c = some (left, c')) : left ≤ (data.getD []).length := by
  cases object : c.con_cls with
  | none =>
    unfold Incoming.call MHDconnectionCB at returned
    rw [object] at returned
    dsimp only at returned
    split at returned
    · obtain ⟨resp, -, same⟩ := Option.map_eq_some_iff.mp returned
      exact (Prod.mk.inj same).1.ge
    · obtain ⟨s, -, same⟩ := Option.map_eq_some_iff.mp returned
      exact (Prod.mk.inj same).1.ge
  | some co =>
    cases data with
    | some bytes =>
      obtain ⟨s', call, -⟩ := call_later_bytes object returned
      exact call.left_le
    | none =>
      -- without data every branch of the later rounds leaves zero
      unfold Incoming.call MHDconnectionCB at returned
      rw [object] at returned
      obtain ⟨⟨left', s'⟩, round, same⟩ := Option.map_eq_some_iff.mp returned
      obtain ⟨rfl, -⟩ := Prod.mk.inj same
      unfold laterRound at round
      dsimp only at round
      split_ifs at round
      · obtain ⟨_, -, same⟩ := Option.map_eq_some_iff.mp round
        exact (Prod.mk.inj same).1.ge
      · obtain ⟨_, -, same⟩ := Option.map_eq_some_iff.mp round
        exact (Prod.mk.inj same).1.ge

end Call

/-! ## Whole uploads -/

/-- A processor is handed body data. -/
def Event.isOffer : Event P Resp → Bool
  | .onData _ (some _) _ => true
  | _ => false

theorem delivered_of_no_offer {events : List (Event P Resp)}
    (none : ∀ event ∈ events, event.isOffer = false) : delivered events = [] := by
  unfold delivered
  rw [List.flatMap_eq_nil_iff]
  intro event member
  have here := none event member
  cases event with
  | onData pp data result =>
    cases data with
    | none => rfl
    | some bytes => exact absurd here nofun
  | errorHandler | onConnection | onRequest | header | queued => rfl

theorem no_offer_of_silent {events : List (Event P Resp)}
    (silent : ∀ event ∈ events, event.Silent) : ∀ event ∈ events, event.isOffer = false := by
  intro event member
  have here := silent event member
  cases event with
  | onData => exact absurd here id
  | errorHandler | onConnection | onRequest | header | queued => rfl

/-- What a later call does, as far as the account is concerned. -/
inductive Turn (s s' : Session σ Ctrl P Resp) : Option Str → ℕ → Prop
  | quiet {data : Option Str} {left : ℕ} {new : List (Event P Resp)}
      (events : s'.events = s.events ++ new) (none : ∀ event ∈ new, event.isOffer = false)
      (goesOn : s'.co.request.state ≠ .RS_ERROR → data = .none ∧ s.co.request.state ≠ .RS_ERROR) :
      Turn s s' data left
  | offer {pp : P} {bytes : Str} {left : ℕ} {result : SizeT} {new : List (Event P Resp)}
      (state : s.co.request.state ≠ .RS_ERROR)
      (events : s'.events = s.events ++ .onData pp (some bytes) result :: new)
      (none : ∀ event ∈ new, event.isOffer = false)
      (goesOn : s'.co.request.state ≠ .RS_ERROR →
        result ≠ DataProcessorParseFailed ∧
          left = (dataSizeLeft (.ofNat bytes.length) result).toNat) :
      Turn s s' (some bytes) left

theorem Later.turn {code : UserCode σ Ctrl P Resp} {s s' : Session σ Ctrl P Resp}
    {data : Option Str} {left : ℕ} (call : Later code s data left s') : Turn s s' data left := by
  cases call with
  | resend state => exact .quiet rfl (by simp [Event.isOffer]) (fun other => absurd state other)
  | discard state =>
    exact .quiet (List.append_nil _).symm (by simp) (fun other => absurd state other)
  | signal state => exact .quiet rfl (by simp [Event.isOffer]) (by simp [state])
  | handle complete | answer complete =>
    have state : s.co.request.state ≠ .RS_ERROR := by
      rcases complete with state | state <;> simp [state]
    refine .quiet (by simp [Session.onRequest]; rfl) (by simp [Event.isOffer]) fun _ => ⟨rfl, state⟩
  | dataInGet isOpen | noProcessor isOpen =>
    exact .quiet rfl (by simp [Event.isOffer]) (fun other => absurd rfl other)
  | @fail pp bytes msg isOpen _ failed =>
    let failure := (s.receive.onData code pp (some bytes)).2.error code .k400BadRequest
      .DATA_PROCESSOR_RETURN_ERROR msg
    have events : (failure.setState .RS_ERROR).events = s.events ++
        .onData pp (some bytes) DataProcessorParseFailed ::
          [.errorHandler .k400BadRequest .DATA_PROCESSOR_RETURN_ERROR msg failure.co.response] := by
      simp only [setState_events, Session.error, respond_events, onData_events, receive_events,
        failed, List.append_assoc, List.singleton_append, failure, respond_response]
    exact .offer isOpen.2 events (by simp [Event.isOffer]) (fun other => absurd rfl other)
  | consume isOpen _ done =>
    exact .offer isOpen.2 (by rw [onData_events, receive_events]) (by simp) (fun _ => ⟨done, rfl⟩)

/-- The account of a body: every offer starts where the consumed bytes end, its size is a `size_t`, and
until an error the rest of the body is still to come. -/
structure Accounted (body : Str) (e : Exchange σ Ctrl P Resp) : Prop where
  offered : ∀ before pp bytes result after,
    e.events = before ++ .onData pp (some bytes) result :: after → delivered before ++ bytes <+: body
  sized : ∀ pp bytes result, .onData pp (some bytes) result ∈ e.events → bytes.length < UInt64.size
  taken : delivered e.events <+: body
  rest : (∀ co, e.con_cls = some co → co.request.state ≠ .RS_ERROR) →
    delivered e.events ++ e.remaining = body

section Exchanges

variable {pcre : Pcre} {http : HttpImplement σ Ctrl P Resp} {i : Incoming}
  {e e' : Exchange σ Ctrl P Resp}

/-- The offers of two lists of events, of which the second one starts with an offer at most. -/
theorem offered_append {body : Str} {first new : List (Event P Resp)}
    (old : ∀ before pp bytes result after,
      first = before ++ .onData pp (some bytes) result :: after → delivered before ++ bytes <+: body)
    (fresh : ∀ before pp bytes result after,
      new = before ++ .onData pp (some bytes) result :: after →
        delivered first ++ delivered before ++ bytes <+: body)
    {before : List (Event P Resp)} {pp : P} {bytes : Str} {result : SizeT}
    {after : List (Event P Resp)}
    (whole : first ++ new = before ++ .onData pp (some bytes) result :: after) :
    delivered before ++ bytes <+: body := by
  rcases List.append_eq_append_iff.mp whole with ⟨more, rfl, same⟩ | ⟨more, rfl, same⟩
  · rw [delivered_append]
    exact fresh more pp bytes result after same
  · cases more with
    | nil =>
      have here := fresh [] pp bytes result after same.symm
      simpa [delivered] using here
    | cons event more =>
      obtain ⟨rfl, -⟩ := List.cons.inj same
      exact old before pp bytes result more rfl

theorem slice_begins (pp : P) (bytes : Str) (result : SizeT) :
    (.onData pp (some bytes) result : Event P Resp).slice <+: bytes := by
  unfold Event.slice
  dsimp only
  split
  · exact List.nil_prefix
  · exact List.take_prefix _ _

theorem not_offer_mem {new : List (Event P Resp)} (none : ∀ event ∈ new, event.isOffer = false)
    {pp : P} {bytes : Str} {result : SizeT} (member : .onData pp (some bytes) result ∈ new) : False :=
  absurd (none _ member) nofun

theorem not_offer_split {new : List (Event P Resp)} (none : ∀ event ∈ new, event.isOffer = false)
    {before after : List (Event P Resp)} {pp : P} {bytes : Str} {result : SizeT}
    (split : new = before ++ .onData pp (some bytes) result :: after) : False :=
  not_offer_mem none (split ▸ List.mem_append_right _ List.mem_cons_self)

theorem accounted_first {user : σ} {left : ℕ} {c : Connection σ Ctrl P Resp}
    (returned : i.call pcre http none { user := user } = some (left, c)) :
    Accounted i.body ⟨c, true, i.body⟩ := by
  have none := no_offer_of_silent (first_silent returned)
  have nothing := delivered_of_no_offer none
  refine ⟨fun before pp bytes result after split => (not_offer_split none split).elim,
    fun pp bytes result member => (not_offer_mem none member).elim, ?_, ?_⟩
  · rw [nothing]
    exact List.nil_prefix
  · intro _
    rw [nothing]
    rfl

theorem accounted_turn {body remaining : Str} {s s' : Session σ Ctrl P Resp} {data : Option Str}
    {left : ℕ} (offers : Offers remaining data) (turn : Turn s s' data left)
    (account : Accounted body ⟨s.toConnection, true, remaining⟩) :
    Accounted body ⟨s'.toConnection, true, remaining.drop ((data.getD []).length - left)⟩ := by
  have kept : s.co.request.state ≠ .RS_ERROR → delivered s.events ++ remaining = body := by
    intro state
    refine account.rest fun co object => ?_
    obtain rfl := Option.some.inj object
    exact state
  cases turn with
  | @quiet _ _ new events none goesOn =>
    have same : delivered s'.events = delivered s.events := by
      rw [events, delivered_append, delivered_of_no_offer none, List.append_nil]
    refine ⟨fun before pp bytes result after split => ?_, fun pp bytes result member => ?_, ?_, ?_⟩
    · refine offered_append account.offered ?_ (events.symm.trans split)
      exact fun _ _ _ _ _ split => (not_offer_split none split).elim
    · have member : .onData pp (some bytes) result ∈ s'.events := member
      rw [events] at member
      rcases List.mem_append.mp member with old | fresh
      · exact account.sized pp bytes result old
      · exact (not_offer_mem none fresh).elim
    · exact same ▸ account.taken
    · intro state
      obtain ⟨rfl, before⟩ := goesOn (state _ rfl)
      show delivered s'.events ++ remaining.drop (0 - left) = body
      rw [same, Nat.zero_sub, List.drop_zero]
      exact kept before
  | @offer pp bytes _ result new state events none goesOn =>
    cases offers with
    | @body _ later nonempty fits =>
      have whole := kept state
      have slice : delivered s'.events =
          delivered s.events ++ (.onData pp (some bytes) result : Event P Resp).slice := by
        rw [events, delivered_append, ← List.singleton_append, delivered_append,
          delivered_of_no_offer none, List.append_nil]
        simp [delivered]
      refine ⟨fun before pp' bytes' result' after split => ?_, fun pp' bytes' result' member => ?_, ?_,
        ?_⟩
      · refine offered_append account.offered ?_ (events.symm.trans split)
        intro before pp' bytes' result' after split
        cases before with
        | nil =>
          obtain ⟨event, -⟩ := List.cons.inj split
          obtain ⟨-, bytes, -⟩ := Event.onData.inj event
          obtain rfl := Option.some.inj bytes
          show delivered s.events ++ [] ++ _ <+: body
          rw [List.append_nil, ← whole, ← List.append_assoc]
          exact List.prefix_append _ _
        | cons event before => exact (not_offer_split none (List.cons.inj split).2).elim
      · have member : .onData pp' (some bytes') result' ∈ s'.events := member
        rw [events] at member
        rcases List.mem_append.mp member with old | fresh
        · exact account.sized pp' bytes' result' old
        · rcases List.mem_cons.mp fresh with same | fresh
          · obtain ⟨-, bytes, -⟩ := Event.onData.inj same
            exact Option.some.inj bytes ▸ fits
          · exact (not_offer_mem none fresh).elim
      · show delivered s'.events <+: body
        rw [slice, ← whole, List.prefix_append_right_inj]
        exact (slice_begins pp bytes result).trans (List.prefix_append _ _)
      · intro state
        obtain ⟨done, rfl⟩ := goesOn (state _ rfl)
        show delivered s'.events ++ (bytes ++ later).drop (bytes.length - _) = body
        rw [slice, dataSizeLeft_ofNat fits done, drop_consumed, Event.slice, if_neg done, List.append_assoc,
          ← List.append_assoc (bytes.take _), List.take_append_drop]
        exact whole

theorem accounted_of_reachable (reachable : (exchanges pcre http i).Reachable e) :
    Accounted i.body e := by
  have stable : (exchanges pcre http i).Stable (Accounted i.body) := by
    intro e e' reachable account step
    cases (phase_of_reachable reachable).progress step with
    | first returned => exact accounted_first returned
    | later course waits offers call => exact accounted_turn offers call.turn account
  apply stable.reachable _ reachable
  rintro _ ⟨user, rfl⟩
  exact ⟨fun before _ _ _ _ split => by simp at split, fun _ _ _ member => by simp at member,
    List.nil_prefix, fun _ => rfl⟩

/-- No call makes `*dataSize` larger; a call with body data returns, if it comes behind the routing, and
one that is no error makes `*dataSize` smaller by what the processor returned, at most by all of it; and
at every moment of an exchange the consumed bytes are the beginning of the body, and every offer is what
follows them. -/
theorem upload_accounting :
    (∀ (c c' : Connection σ Ctrl P Resp) data left, i.call pcre http data c = some (left, c') →
      left ≤ (data.getD []).length) ∧
    (∀ (c c' : Connection σ Ctrl P Resp) co bytes (dataSize : SizeT) left,
      c.con_cls = some co → dataSize.toNat = bytes.length →
        i.call pcre http (some bytes) c = some (left, c') → DataCall c bytes dataSize left c') ∧
    (∀ (c : Connection σ Ctrl P Resp) co bytes, c.con_cls = some co → co.request.state ≠ .INITIAL →
      bytes ≠ [] → (i.call pcre http (some bytes) c).isSome) ∧
    ∀ e : Exchange σ Ctrl P Resp, (exchanges pcre http i).Reachable e → Accounted i.body e :=
  ⟨fun _ _ _ _ returned => left_le_of_returned returned,
    fun _ _ _ _ _ _ object size returned => dataCall_of_returned object size returned,
    fun _ _ _ object routed nonempty => call_bytes_isSome object routed nonempty,
    fun _ reachable => accounted_of_reachable reachable⟩

/-- A processor that takes one byte of `xy`, and then claims five bytes of `yz`. -/
def greedyServer : HttpImplement Unit ℕ ℕ ℕ :=
  uploadServer fun data => if data = some ['x', 'y'] then 1 else 5

/-- A connection in the upload, with these events. -/
def greedyUpload (events : List (Event ℕ ℕ)) : Connection Unit ℕ ℕ ℕ where
  con_cls := some { request :=
    { conn := ⟨fun _ => none⟩
      uri := "/up".toList
      method := .PUT
      processor := some 7
      state := .DATA_RECEIVING } }
  user := ()
  events := events

theorem upload_accounting_xyz :
    DataCall (greedyUpload []) ['y', 'z'] 2 0 (greedyUpload [.onData 7 (some ['y', 'z']) 5]) ∧
      ∃ e : Exchange Unit ℕ ℕ ℕ, Accounted ['x', 'y', 'z'] e ∧ e.events =
        [.onConnection, .onData 7 (some ['x', 'y']) 1, .onData 7 (some ['y', 'z']) 5] := by
  obtain ⟨-, calls, -, runs⟩ :=
    @upload_accounting Unit ℕ ℕ ℕ anyPcre greedyServer (uploadOf ['x', 'y', 'z'])
  refine ⟨calls _ _ _ _ 2 0 rfl rfl rfl, ?_⟩
  obtain ⟨e, reachable, events⟩ : ∃ e,
      (exchanges anyPcre greedyServer (uploadOf ['x', 'y', 'z'])).Reachable e ∧ e.events =
        [.onConnection, .onData 7 (some ['x', 'y']) 1, .onData 7 (some ['y', 'z']) 5] :=
    upload_run [none, some ['x', 'y'], some ['y', 'z']] (by decide +kernel)
  exact ⟨e, runs e reachable, events⟩

end Exchanges

end Cppmhd
