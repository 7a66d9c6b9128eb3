import PortWire.Compiler
import PortWire.Exchange.Files
import PortWire.Exchange.Program
import PortWire.Exchange.Signature
import PortWire.Exchange.Value
import PortWire.Reader

/-!
# Bridge to foreign callers

Requests and replies are texts of documents. A request is a run of bytes up to its first zero byte;
a reply says whether the request was granted, and carries either what was asked for or what went
wrong. It is collected in memory, printed, and handed out as bytes that end at the first zero byte.
-/

namespace PortWire

inductive BridgeError
  /-- The caller gave no request at all. -/
  | absent
  | notText
  | malformed
  | refused (kind : ErrorKind) (message : String)
  deriving DecidableEq, Repr

/-- The name that a failure class has in documents, or its label if it were written as anything but
a text. -/
def ErrorKind.documentName (C : Codec) (kind : ErrorKind) : String :=
  match C.collect (C.write kind) with
  | .text name => name
  | _ => kind.label

namespace BridgeError

def kindName (C : Codec) : BridgeError → String
  | absent => "null_pointer"
  | notText => "invalid_utf8"
  | malformed => "parse_error"
  | refused kind _ => kind.documentName C

def message : BridgeError → String
  | absent => "received null pointer from caller"
  | notText => "ffi payload is not valid UTF-8"
  | malformed => "failed to parse request JSON"
  | refused _ message => message

/-- The message of a reply. The bridge passes on what the parser said of a request that it could
not read. -/
def fullMessage (parserText : String) : BridgeError → String
  | malformed => message malformed ++ ": " ++ parserText
  | e => message e

def ofReport {ε : Type} [Reportable ε] (e : ε) : BridgeError :=
  refused (Reportable.kind e) (Reportable.message e)

end BridgeError

inductive Direction
  | provide | require
  deriving DecidableEq, Repr

instance : Named Direction where
  all := [.provide, .require]
  name
    | .provide => "provide"
    | .require => "require"

/-- The programs of provide ports pack, those of require ports unpack. -/
def Direction.programType : Direction → ProgramType
  | .provide => .pack
  | .require => .unpack

structure CompileRequest where
  element : DataElement
  direction : Direction

structure UnpackRequest where
  program : List UInt8
  data : List UInt8
  limits : Option Limits

structure PlanRequest where
  files : List File
  layout : Option Layout

namespace CompileRequest

def documentFields : List Field :=
  [⟨"element", .refused⟩, ⟨"direction", .defaulted⟩]

def read? (C : Codec) (d : C.Part) : Option CompileRequest :=
  match C.fields? documentFields d with
  | some [element, direction] => do
    return ⟨← C.required? element, ← C.orElse? .provide direction⟩
  | _ => none

def answer (C : Codec) (r : CompileRequest) : Except BridgeError (List (String × Document)) :=
  match r.element.program r.direction.programType with
  | .error e => .error (.ofReport e)
  | .ok p =>
    match p.header with
    | .error e => .error (.ofReport e)
    | .ok header => .ok [
        ("program", C.write p.code),
        ("min_data_size", C.write header.dataSize)]

end CompileRequest

namespace UnpackRequest

def documentFields : List Field :=
  [⟨"program", .refused⟩, ⟨"data", .refused⟩, ⟨"limits", .defaulted⟩]

def read? (C : Codec) (d : C.Part) : Option UnpackRequest :=
  match C.fields? documentFields d with
  | some [program, data, limits] => do
    return ⟨← C.required? program, ← C.required? data, ← C.orElse? none limits⟩
  | _ => none

def answer (C : Codec) (r : UnpackRequest) : Except BridgeError (List (String × Document)) :=
  let reader : Reader := { limits := r.limits.getD {} }
  match ((reader.start r.data).run r.program).1 with
  | .error e => .error (.ofReport e)
  | .ok v => .ok [("value", C.write v)]

end UnpackRequest

namespace PlanRequest

def documentFields : List Field :=
  [⟨"files", .refused⟩, ⟨"layout", .defaulted⟩]

def read? (C : Codec) (d : C.Part) : Option PlanRequest :=
  match C.fields? documentFields d with
  | some [files, layout] => do
    return ⟨← C.required? files, ← C.orElse? none layout⟩
  | _ => none

def answer (C : Codec) (r : PlanRequest) : Except BridgeError (List (String × Document)) :=
  match FileMap.ofLayout (r.layout.getD {}) with
  | .error e => .error (.ofReport e)
  | .ok m =>
    match m.insertAll r.files with
    | .error e => .error (.ofReport e)
    | .ok m => .ok [("files", C.write m.infos)]

end PlanRequest

/-- What the bridge can be asked for. -/
inductive Service
  | compile | unpack | plan
  deriving DecidableEq, Repr

namespace Bridge

/-- The text of a request. -/
def requestText (request : Option (List UInt8)) : Except BridgeError String :=
  match request with
  | none => .error .absent
  | some bytes =>
    match Utf8.decode? (bytes.takeWhile fun b => b != 0) with
    | none => .error .notText
    | some text => .ok text

variable (C : Codec)

/-- Parses a text as a request, and answers it. -/
def answerText {α : Type} (read? : C.Part → Option α)
    (answer : α → Except BridgeError (List (String × Document))) (text : String) :
    Except BridgeError (List (String × Document)) :=
  match (C.parse? text).bind read? with
  | none => .error .malformed
  | some r => answer r

def answer : Service → String → Except BridgeError (List (String × Document))
  | .compile => answerText C (CompileRequest.read? C) (CompileRequest.answer C)
  | .unpack => answerText C (UnpackRequest.read? C) (UnpackRequest.answer C)
  | .plan => answerText C (PlanRequest.read? C) (PlanRequest.answer C)

/-- The members of the answer to a request. -/
def respond (service : Service) (request : Option (List UInt8)) :
    Except BridgeError (List (String × Document)) :=
  match requestText request with
  | .error e => .error e
  | .ok text => answer C service text

def refusal (kind message : String) : Document :=
  C.collect (.object [
    ("ok", .bool false),
    ("error", C.ofFields [("kind", C.write kind), ("message", C.write message)])])

def grant (members : List (String × Document)) : Document :=
  C.collect (.object (("ok", .bool true) :: members))

/-- The reply, with what the parser says of a request that it cannot read. -/
def reply (parserText : String) : Except BridgeError (List (String × Document)) → Document
  | .error e => refusal C (e.kindName C) (e.fullMessage parserText)
  | .ok members => grant C members

/-- A document as the reader of its text gets it. A text with a zero byte inside cannot be handed
out. -/
def handOut (t : Document) : Option (List UInt8) :=
  match C.render? t with
  | none => none
  | some text =>
    let bytes := Utf8.encode text
    if 0 ∈ bytes then none else some bytes

def call (parserText : String) (service : Service) (request : Option (List UInt8)) :
    Option (List UInt8) :=
  handOut C (reply C parserText (respond C service request))

end Bridge

end PortWire
