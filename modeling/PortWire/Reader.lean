import PortWire.Program
import PortWire.Reader.Field
import PortWire.Reader.Frame

/-!
# Readers

A reader takes values off a source and puts them into its frames. Every operation answers with the
reader that it leaves behind, also when it fails.
-/

namespace PortWire

structure Reader where
  limits : Limits := {}
  source : Source := {}
  /-- Innermost first. -/
  frames : List Frame := []
  deriving Repr

/-- An operation of a reader. -/
abbrev ReaderOp (α : Type) := Reader → Except ReadError α × Reader

namespace Reader

/-- Begins to read `data`, with a single empty frame. -/
def start (data : List UInt8) (r : Reader) : Reader :=
  { r with source := ⟨some data, 0⟩, frames := [{}] }

/-- Runs a reading step. If it fails the source stays where it was. -/
def take {α : Type} (step : Take α) : ReaderOp α := fun r =>
  match step r.source with
  | .error e => (.error e, r)
  | .ok (a, source) => (.ok a, { r with source := source })

def onFrames (f : List Frame → Except ReadError (List Frame)) : ReaderOp Unit := fun r =>
  match f r.frames with
  | .error e => (.error e, r)
  | .ok frames => (.ok (), { r with frames := frames })

def store (v : Value) : ReaderOp Unit :=
  onFrames (Frame.store v)

def readPrimitive (p : Primitive) : ReaderOp Scalar :=
  take p.read

def readText (size : UInt32) : ReaderOp FixedText :=
  take do return FixedText.ofField (← Take.bytes size.toNat)

def readBytes (size : UInt32) : ReaderOp (List UInt8) :=
  take (Take.bytes size.toNat)

/-- Reads a field and puts its value into the innermost frame. -/
def readField (type : FieldType) (count : UInt32) (carried : Option LengthWidth) :
    ReaderOp Unit := fun r =>
  match r.take (type.read r.limits count carried) with
  | (.error e, r) => (.error e, r)
  | (.ok v, r) => r.store v

/-- Opens a record, or an array of records if a count is given or comes with the data. -/
def enterRecord (count : UInt32) (carried : Option LengthWidth) : ReaderOp Unit := fun r =>
  match r.source.buffer with
  | none => (.error .missingBuffer, r)
  | some _ =>
    if count = 0 ∧ carried = none then
      r.onFrames Frame.openRecord
    else
      match r.limits.checkDepth (r.frames.length + 1) with
      | .error fault => (.error (.limit fault), r)
      | .ok () =>
        match r.take (Take.arrayLength r.limits count carried) with
        | (.error e, r) => (.error e, r)
        | (.ok length, r) =>
          if length = 0 then r.store (.array []) else r.onFrames (Frame.openRecords length)

/-- Names the record field that the next value belongs to. -/
def select (key : String) (last : Bool) : ReaderOp Unit := fun r =>
  match r.source.buffer with
  | none => (.error .missingBuffer, r)
  | some _ =>
    match r.limits.checkDepth (r.frames.length + 1) with
    | .error fault => (.error (.limit fault), r)
    | .ok () => r.onFrames (Frame.select key last)

/-- Takes the value of the innermost frame, or of the outermost after dropping the rest. -/
def takeValue (unwind : Bool) (r : Reader) : Option Value × Reader :=
  let frames := if unwind then Frame.unwind r.frames else r.frames
  let (v, frames) := Frame.takeValue frames
  (v, { r with frames := frames })

/-- Item count of a program element and the width of a length in the data. -/
def extent (e : Element) : UInt32 × Option LengthWidth :=
  match e.array with
  | none => (0, none)
  | some a =>
    match a.length with
    | some length => (length, none)
    | none => (a.width.maxLen, some a.width)

/-- Reads the field that a program element describes. A scalar text or byte field is one byte. -/
def execute (e : Element) : ReaderOp Unit := fun r =>
  let (count, carried) := extent e
  match e.variant.fieldType? with
  | none => (.error (.notExecutable e.variant), r)
  | some (.primitive p) => r.readField (.primitive p) count carried
  | some type => r.readField type (max count 1) carried

/-- Reads the value of one program element into a fresh frame. -/
def readElement (e : Element) : ReaderOp Value := fun r =>
  match execute e { r with frames := [{}] } with
  | (.error err, r) => (.error err, r)
  | (.ok (), r) =>
    match r.takeValue true with
    | (none, r) => (.error (.state .noValue), r)
    | (some v, r) => (.ok v, r)

/-- Reads one value per element, behind the values already found. -/
def readElements (found : List Value) : List LocatedElement → ReaderOp (List Value)
  | [], r => (.ok found.reverse, r)
  | e :: rest, r =>
    match r.readElement e.toElement with
    | (.error err, r) => (.error err, r)
    | (.ok v, r) => readElements (v :: found) rest r

/-- A single value stands for itself, any other number of them for their array. -/
def collect : List Value → Value
  | [v] => v
  | values => .array values

/-- Reads what the program `image` describes. On failure the source goes back to where the program
began to read; the frames do not. -/
def run (image : List UInt8) : ReaderOp Value := fun r =>
  match r.source.buffer with
  | none => (.error .missingBuffer, r)
  | some _ =>
    match DecodedProgram.decode image with
    | .error fault => (.error (.program fault), r)
    | .ok program =>
      let needed := program.header.dataSize.toNat
      if r.source.remaining < needed then
        (.error (.pastEnd needed r.source.remaining), r)
      else
        match readElements [] program.elements r with
        | (.error err, failed) => (.error err, { failed with source := r.source })
        | (.ok values, r) => (.ok (collect values), r)

end Reader

end PortWire
