import Mathlib.Data.List.TakeWhile
import PortWire.Bridge
import PortWire.Proofs.Exchange.Structures
import PortWire.Proofs.Exchange.Values
import PortWire.Proofs.Utf8

/-!
# Requests and replies

A request counts by what the codec reads it as; every text of an object with the fields of a request
is one. Every request has a reply: bytes without a zero byte whose text spells a document that says
whether the request was granted. Nothing is assumed of the request, nor of what the parser says of
it.
-/

namespace PortWire

open Codec Form

namespace Codec

variable {C : Codec} {α : Type} {members : List (String × Document)}

theorem given_nil {given : List (Option C.Part)} : C.Given members [] given ↔ given = [] := by
  cases given <;> simp [Given]

theorem given_cons {f : Field} {fields : List Field} {given : List (Option C.Part)} :
    C.Given members (f :: fields) given ↔
      ∃ d others, given = d :: others ∧ C.GivenFor members f d ∧
        C.Given members fields others := by
  constructor
  · intro h
    cases given with
    | nil => cases h
    | cons d others => exact ⟨d, others, rfl, h⟩
  · rintro ⟨d, others, rfl, h⟩
    exact h

/-- The members give this value for a field that may be absent. -/
def Offers (C : Codec) [Form C α] (members : List (String × Document)) (name : String)
    (fallback a : α) : Prop :=
  (name, C.write a) ∈ members ∨ name ∉ members.map Prod.fst ∧ a = fallback

variable [Form C α] {f : Field} {d : Option C.Part}

theorem orElse?_given (distinct : (members.map Prod.fst).Nodup)
    (given : C.GivenFor members f d) {fallback a : α} (offers : C.Offers members f.name fallback a)
    (read : ∀ x, C.Shows x (C.write a) → C.read? x = some a) :
    C.orElse? fallback d = some a := by
  cases d with
  | none =>
    rcases offers with member | ⟨_, rfl⟩
    · exact absurd (List.mem_map.mpr ⟨_, member, rfl⟩) given
    · rfl
  | some x =>
    obtain ⟨t, ht, shown⟩ := given
    rcases offers with member | ⟨absent, _⟩
    · obtain rfl := eq_of_mem_of_nodup distinct ht member
      exact read x shown
    · exact absurd (List.mem_map.mpr ⟨_, ht, rfl⟩) absent

theorem required?_given {n : Nat} [Lawful C α n] (distinct : (members.map Prod.fst).Nodup)
    (given : C.GivenFor members f d) {a : α} (member : (f.name, C.write a) ∈ members) :
    C.required? d = some a := by
  cases d with
  | none => exact absurd (List.mem_map.mpr ⟨_, member, rfl⟩) given
  | some x =>
    obtain ⟨t, ht, shown⟩ := given
    obtain rfl := eq_of_mem_of_nodup distinct ht member
    exact required?_shown shown

end Codec

namespace Bridge

variable {C : Codec}

/-! ## Requests -/

/-- The bytes are a request that is read as `r`. -/
def Asks (C : Codec) {α : Type} (read? : C.Part → Option α) (request : List UInt8) (r : α) :
    Prop :=
  ∃ text, requestText (some request) = .ok text ∧ (C.parse? text).bind read? = some r

theorem zero_notMem_encode {t : Document} {text : String} (spells : t.Spells text.toList) :
    0 ∉ Utf8.encode text :=
  mt Utf8.zero_mem_encode.mp spells.nul_notMem

/-- The text of a document is handed over whole. -/
theorem requestText_encode {t : Document} {text : String} (spells : t.Spells text.toList) :
    requestText (some (Utf8.encode text)) = .ok text := by
  have noZero := zero_notMem_encode spells
  have whole : ((Utf8.encode text).takeWhile fun b => b != 0) = Utf8.encode text := by
    rw [List.takeWhile_eq_self_iff]
    intro b hb
    rw [bne_iff_ne]
    rintro rfl
    exact noZero hb
  simp only [requestText, whole, Utf8.decode?_encode]

theorem asks_of_spells [C.Standard] {α : Type} {read? : C.Part → Option α} {t : Document}
    {text : String} (spells : t.Spells text.toList) (shallow : t.depth < recursionLimit) {r : α}
    (read : ∀ d, C.Shows d t → read? d = some r) : Asks C read? (Utf8.encode text) r := by
  obtain ⟨d, parsed, shown⟩ := Standard.exists_parse (C := C) spells shallow
  refine ⟨text, requestText_encode spells, ?_⟩
  rw [parsed, Option.bind_some, read d shown]

theorem exists_asks [C.Standard] {α : Type} {read? : C.Part → Option α} {t : Document}
    (shallow : t.depth < recursionLimit) {r : α}
    (read : ∀ d, C.Shows d t → read? d = some r) : ∃ request, Asks C read? request r := by
  obtain ⟨text, _, spells⟩ := Standard.exists_render (C := C) t
  exact ⟨_, asks_of_spells spells shallow read⟩

theorem respond_of_asks {α : Type} {read? : C.Part → Option α} (service : Service)
    {request : List UInt8} {r : α} {answer : α → Except BridgeError (List (String × Document))}
    (served : ∀ text, Bridge.answer C service text = answerText C read? answer text)
    (asks : Asks C read? request r) : respond C service (some request) = answer r := by
  obtain ⟨text, htext, hr⟩ := asks
  rw [respond, htext]
  simp only [served, answerText, hr]

/-! ## Refusals and grants -/

/-- The reply is a text of the document. -/
def Delivers (reply : Option (List UInt8)) (t : Document) : Prop :=
  ∃ text, reply = some (Utf8.encode text) ∧ t.Spells text.toList

/-- The reply says no, and of what kind the error is and how it reads. -/
def Refuses (reply : Option (List UInt8)) (kind message : String) : Prop :=
  ∃ t error, Delivers reply t ∧ t.Gives [("ok", .bool false), ("error", error)] ∧
    error.Gives [("kind", .text kind), ("message", .text message)]

/-- The reply says yes, and gives these fields. -/
def Grants (reply : Option (List UInt8)) (fields : List (String × Document)) : Prop :=
  ∃ t, Delivers reply t ∧ t.Gives (("ok", .bool true) :: fields)

theorem delivers_handOut [C.Standard] (t : Document) : Delivers (handOut C t) t := by
  obtain ⟨text, printed, spells⟩ := Standard.exists_render (C := C) t
  refine ⟨text, ?_, spells⟩
  simp only [handOut, printed, if_neg (zero_notMem_encode spells)]

theorem documentName_eq [C.Standard] [C.Derived] (kind : ErrorKind) :
    kind.documentName C = Named.name kind := by
  have written : C.write kind = .text (Named.name kind) := Derived.ofChoice_eq (Named.name kind)
  have same : C.collect (.text (Named.name kind)) = .text (Named.name kind) :=
    Standard.collect_leaf rfl
  rw [ErrorKind.documentName, written, same]

theorem refuses_refusal [C.Standard] [C.Derived] (kind message : String) :
    Refuses (handOut C (refusal C kind message)) kind message := by
  let error : Document := .object [("kind", .text kind), ("message", .text message)]
  have outer : (C.collect (.object [("ok", .bool false), ("error", error)])).Gives
      [("ok", C.collect (.bool false)), ("error", C.collect error)] :=
    Standard.collect_object (by simp)
  have inner : (C.collect error).Gives
      [("kind", C.collect (.text kind)), ("message", C.collect (.text message))] :=
    Standard.collect_object (by simp)
  rw [Standard.collect_leaf (t := .bool false) rfl] at outer
  rw [Standard.collect_leaf (t := .text kind) rfl,
    Standard.collect_leaf (t := .text message) rfl] at inner
  have written : refusal C kind message =
      C.collect (.object [("ok", .bool false), ("error", error)]) := by
    rw [refusal, Derived.ofFields_eq]
    rfl
  exact ⟨_, _, delivers_handOut _, written ▸ outer, inner⟩

theorem grants_grant [C.Standard] {members : List (String × Document)}
    (distinct : ("ok" :: members.map Prod.fst).Nodup) :
    Grants (handOut C (grant C members)) (members.map fun m => (m.1, C.collect m.2)) := by
  have gives : (grant C members).Gives
      (("ok", C.collect (.bool true)) :: members.map fun m => (m.1, C.collect m.2)) :=
    Standard.collect_object distinct
  rw [Standard.collect_leaf (t := .bool true) rfl] at gives
  exact ⟨_, delivers_handOut _, gives⟩

/-! ## Every request is answered -/

/-- No member of a granted reply is called like another or like the mark of the grant. -/
def Presentable (members : List (String × Document)) : Prop :=
  ("ok" :: members.map Prod.fst).Nodup

theorem presentable_compile {r : CompileRequest} {members : List (String × Document)}
    (h : r.answer C = .ok members) : Presentable members := by
  rw [CompileRequest.answer] at h
  split at h
  · cases h
  · split at h
    · cases h
    · cases h
      simp [Presentable]

theorem presentable_unpack {r : UnpackRequest} {members : List (String × Document)}
    (h : r.answer C = .ok members) : Presentable members := by
  rw [UnpackRequest.answer] at h
  split at h
  · cases h
  · cases h
    simp [Presentable]

theorem presentable_plan {r : PlanRequest} {members : List (String × Document)}
    (h : r.answer C = .ok members) : Presentable members := by
  rw [PlanRequest.answer] at h
  split at h
  · cases h
  · split at h
    · cases h
    · cases h
      simp [Presentable]

theorem presentable_answerText {α : Type} {read? : C.Part → Option α}
    {answer : α → Except BridgeError (List (String × Document))}
    (presentable : ∀ {r members}, answer r = .ok members → Presentable members) {text : String}
    {members : List (String × Document)} (h : answerText C read? answer text = .ok members) :
    Presentable members := by
  rw [answerText] at h
  split at h
  · cases h
  · exact presentable h

theorem presentable_respond {service : Service} {request : Option (List UInt8)}
    {members : List (String × Document)} (h : respond C service request = .ok members) :
    Presentable members := by
  rw [respond] at h
  split at h
  · cases h
  · cases service with
    | compile => exact presentable_answerText presentable_compile h
    | unpack => exact presentable_answerText presentable_unpack h
    | plan => exact presentable_answerText presentable_plan h

variable [C.Standard] (parserText : String) {service : Service} {request : Option (List UInt8)}

theorem refuses_call [C.Derived] {e : BridgeError} (h : respond C service request = .error e) :
    Refuses (call C parserText service request) (e.kindName C) (e.fullMessage parserText) := by
  rw [call, h]
  exact refuses_refusal _ _

theorem refuses_of_report [C.Derived] {ε : Type} [Reportable ε] {e : ε}
    (h : respond C service request = .error (.ofReport e)) :
    Refuses (call C parserText service request) (Named.name (Reportable.kind e))
      (Reportable.message e) := by
  have refuses := refuses_call parserText h
  rw [BridgeError.ofReport, BridgeError.kindName, documentName_eq] at refuses
  exact refuses

theorem grants_call {members : List (String × Document)}
    (h : respond C service request = .ok members) :
    Grants (call C parserText service request) (members.map fun m => (m.1, C.collect m.2)) := by
  rw [call, h]
  exact grants_grant (presentable_respond h)

/-- There is a reply without a zero byte, and its text is a document that says yes or no. -/
def Answered (reply : Option (List UInt8)) : Prop :=
  (∃ bytes, reply = some bytes ∧ 0 ∉ bytes) ∧
    ∃ t b fields, Delivers reply t ∧ t.Gives (("ok", .bool b) :: fields) ∧
      "ok" ∉ fields.map Prod.fst

theorem answered_call [C.Derived] (service : Service) (request : Option (List UInt8)) :
    Answered (call C parserText service request) := by
  constructor
  · obtain ⟨text, reply, spells⟩ := delivers_handOut (C := C)
      (reply C parserText (respond C service request))
    exact ⟨_, reply, zero_notMem_encode spells⟩
  · cases h : respond C service request with
    | error e =>
      obtain ⟨t, error, delivers, gives, _⟩ := refuses_call parserText h
      exact ⟨t, false, _, delivers, gives, by simp⟩
    | ok members =>
      obtain ⟨t, delivers, gives⟩ := grants_call parserText h
      refine ⟨t, true, _, delivers, gives, ?_⟩
      rw [List.map_map]
      exact (List.nodup_cons.mp (presentable_respond h)).1

end Bridge

end PortWire
