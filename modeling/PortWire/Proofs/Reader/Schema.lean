import PortWire.Proofs.Fields
import PortWire.Proofs.Reader.Rest

/-!
# Schemas

What port data holds, as a tree of fields, records and arrays of records. A schema can be decoded by
recursion, left to right, and it can be read by driving a reader through its operations. The two
find the same value. Nothing is assumed of the names of a record or of how deep a schema nests.
-/

namespace PortWire

/-- Number of records in an array. Without a length in the data it is given outright, and then it
is not zero. -/
structure Extent where
  count : UInt32
  carried : Option LengthWidth
  array : ¬ (count = 0 ∧ carried = none)

mutual

inductive Schema
  | field (type : FieldType) (count : UInt32) (carried : Option LengthWidth)
  | record (columns : Columns)
  | records (extent : Extent) (columns : Columns)

/-- The fields of a record, of which there is at least one. -/
inductive Columns
  | last (key : String) (s : Schema)
  | more (key : String) (s : Schema) (rest : Columns)

end

/-- The record in which these names and values came. -/
def recordOf (pairs : List (String × Value)) : Value :=
  .record (Fields.ofPairs pairs)

/-- What `n` steps in a row find. -/
def Take.times {α : Type} (step : Take α) : Nat → Take (List α)
  | 0 => return []
  | n + 1 => do
    let a ← step
    return a :: (← times step n)

mutual

/-- The value of a schema, read from left to right. -/
def Schema.decode (limits : Limits) : Schema → Take Value
  | .field type count carried => type.read limits count carried
  | .record columns => do return recordOf (← columns.decode limits)
  | .records extent columns => do
    let n ← Take.arrayLength limits extent.count extent.carried
    let records ← (columns.decode limits).times n.toNat
    return .array (records.map recordOf)

def Columns.decode (limits : Limits) : Columns → Take (List (String × Value))
  | .last key s => do return [(key, ← s.decode limits)]
  | .more key s rest => do
    let v ← s.decode limits
    return (key, v) :: (← rest.decode limits)

end

/-- The number of records that are about to come. -/
def Extent.announced (extent : Extent) (source : Source) : Nat :=
  match Take.length extent.count extent.carried source with
  | .error _ => 0
  | .ok (n, _) => n.toNat

namespace Reader

/-- One operation after the other, unless the first fails. -/
def andThen (first second : ReaderOp Unit) : ReaderOp Unit := fun r =>
  match first r with
  | (.error e, r) => (.error e, r)
  | (.ok (), r) => second r

def times (op : ReaderOp Unit) : Nat → ReaderOp Unit
  | 0 => fun r => (.ok (), r)
  | n + 1 => andThen op (times op n)

end Reader

mutual

/-- Takes a reader through a schema, in order of declaration. -/
def Schema.drive : Schema → ReaderOp Unit
  | .field type count carried => Reader.readField type count carried
  | .record columns => Reader.andThen (Reader.enterRecord 0 none) columns.drive
  | .records extent columns => fun r =>
    Reader.andThen (Reader.enterRecord extent.count extent.carried)
      (Reader.times columns.drive (extent.announced r.source)) r

def Columns.drive : Columns → ReaderOp Unit
  | .last key s => Reader.andThen (Reader.select key true) s.drive
  | .more key s rest =>
    Reader.andThen (Reader.select key false) (Reader.andThen s.drive rest.drive)

end

mutual

/-- Most frames that a schema needs at a time. -/
def Schema.depth : Schema → Nat
  | .field .. => 1
  | .record columns => columns.depth
  | .records _ columns => 1 + columns.depth

/-- The frame of the record is among them. -/
def Columns.depth : Columns → Nat
  | .last _ s => 1 + s.depth
  | .more _ s rest => max (1 + s.depth) rest.depth

end

end PortWire
