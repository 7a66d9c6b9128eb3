import PortWire.Reader.Source
import PortWire.Value

/-!
# Frames

Values under construction. A frame holds one value; a record waits for the field that was selected
in it, an array of records for its next item, and either way the part is built in a frame of its own
above. When a value is finished it is handed down, and what that finishes in turn is handed down
too. Stacks are lists with the innermost frame first.
-/

namespace PortWire

structure Frame where
  value : Option Value := none
  /-- Name of the record field that is being filled. -/
  key : Option String := none
  /-- That field is the last one of its record. -/
  last : Bool := false
  /-- Number of records that an array waits for; zero in every other frame. -/
  arrayLen : UInt32 := 0
  deriving Repr

namespace Frame

def emptyRecord : Frame := { value := some .emptyRecord }

/-- The frame takes parts: fields of a record, or records of an array. -/
def gathers (f : Frame) : Bool :=
  f.arrayLen != 0 || f.key.isSome

/-- Hands the value of a finished frame down the stack below it. -/
def settle (child : Frame) : List Frame → List Frame
  | [] => [child]
  | parent :: below =>
    if !parent.gathers then
      child :: parent :: below
    else
      match child.value with
      | none => parent :: below
      | some v =>
        let freed := { parent with key := none }
        match parent.value, parent.key with
        | some (.record fields), some key =>
          let filled := { freed with value := some (.record (Fields.insert key v fields)) }
          if parent.last then
            settle { filled with last := false } below
          else
            filled :: below
        | some (.array items), _ =>
          let items := items ++ [v]
          let filled := { freed with value := some (.array items) }
          if items.length < parent.arrayLen.toNat then
            emptyRecord :: filled :: below
          else
            settle { filled with arrayLen := 0 } below
        | _, _ => freed :: below

/-- Puts a finished value into the innermost frame. -/
def store (v : Value) : List Frame → Except ReadError (List Frame)
  | [] => .error (.state .emptyStack)
  | f :: below => .ok (settle { f with value := some v } below)

/-- Turns the innermost frame into an empty record. -/
def openRecord : List Frame → Except ReadError (List Frame)
  | [] => .error (.state .emptyStack)
  | f :: below => .ok ({ f with value := some .emptyRecord, key := none, last := false } :: below)

/-- Turns the innermost frame into an array of `length` records and opens the first of them. -/
def openRecords (length : UInt32) : List Frame → Except ReadError (List Frame)
  | [] => .error (.state .emptyStack)
  | f :: below =>
    .ok (emptyRecord :: { f with value := some (.array []), arrayLen := length } :: below)

/-- Opens a frame for the field `key` of the innermost record. -/
def select (key : String) (last : Bool) : List Frame → Except ReadError (List Frame)
  | [] => .error (.state .emptyStack)
  | f :: below =>
    match f.value, f.key with
    | some (.record _), none => .ok ({} :: { f with key := some key, last := last } :: below)
    | some (.record _), some _ => .error (.state .unfilledField)
    | _, _ => .error (.state .outsideRecord)

/-- Takes the value out of the innermost frame. -/
def takeValue : List Frame → Option Value × List Frame
  | [] => (none, [])
  | f :: below => (f.value, { f with value := none } :: below)

/-- Drops every frame but the outermost. -/
def unwind (frames : List Frame) : List Frame :=
  frames.getLast?.toList

end Frame

end PortWire
