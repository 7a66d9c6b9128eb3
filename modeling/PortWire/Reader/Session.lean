import PortWire.Reader

/-!
# Reader sessions

What can be asked of a reader, as data. A session performs one command after the other; a command
that fails does not end it.
-/

namespace PortWire.Reader

inductive Command
  | start (data : List UInt8)
  | primitive (p : Primitive)
  | text (size : UInt32)
  | bytes (size : UInt32)
  | field (type : FieldType) (count : UInt32) (carried : Option LengthWidth)
  | enterRecord (count : UInt32) (carried : Option LengthWidth)
  | select (key : String) (last : Bool)
  | takeValue (unwind : Bool)
  | run (image : List UInt8)
  deriving DecidableEq, Repr

inductive Answer
  | done
  | scalar (s : Scalar)
  | text (t : FixedText)
  | bytes (bs : List UInt8)
  | taken (v : Option Value)
  | value (v : Value)
  deriving Repr

/-- An operation whose result is part of the answer. -/
def answering {α : Type} (answer : α → Answer) (op : ReaderOp α) : ReaderOp Answer := fun r =>
  let (result, r) := op r
  (result.map answer, r)

def perform (r : Reader) : Command → Except ReadError Answer × Reader
  | .start data => (.ok .done, r.start data)
  | .primitive p => answering .scalar (readPrimitive p) r
  | .text size => answering .text (readText size) r
  | .bytes size => answering .bytes (readBytes size) r
  | .field type count carried => answering (fun _ => .done) (readField type count carried) r
  | .enterRecord count carried => answering (fun _ => .done) (enterRecord count carried) r
  | .select key last => answering (fun _ => .done) (select key last) r
  | .takeValue unwind =>
    let (v, r) := r.takeValue unwind
    (.ok (.taken v), r)
  | .run image => answering .value (run image) r

/-- The reader at the end of a session. -/
def session (r : Reader) : List Command → Reader
  | [] => r
  | command :: rest => session (r.perform command).2 rest

end PortWire.Reader
