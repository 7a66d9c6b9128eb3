import PortWire.Document

/-!
# Codecs

The library neither parses nor prints texts of documents itself, nor does it match documents with
structures, choices and tagged values: a codec does. What has been parsed is known by what can be
observed of it only.
-/

namespace PortWire

/-- What becomes of a structure in which a field is not given. -/
inductive Absence
  | refused
  /-- The field may be missing from an object, though not from a list. -/
  | nullable
  /-- The field may be missing from an object or from the end of a list. -/
  | defaulted
  deriving DecidableEq, Repr

structure Field where
  name : String
  absence : Absence := .refused
  deriving DecidableEq, Repr

structure Codec where
  /-- A value inside of a text that has been parsed. -/
  Part : Type
  /-- How many lists and objects can still be opened inside one another. -/
  room : Part → Nat
  parse? : String → Option Part
  isNull : Part → Bool
  bool? : Part → Option Bool
  int? : Part → Option Int
  text? : Part → Option String
  items? : (d : Part) → Option (List {x : Part // room x < room d})
  members? : (d : Part) → Option (List (String × {x : Part // room x < room d}))
  /-- The one of the names that is given. -/
  choice? : List String → Part → Option String
  /-- What is given for each of the fields; nothing where a field is absent and may be so. -/
  fields? : List Field → Part → Option (List (Option Part))
  /-- The tag, which is one of the names, and the content, under their keys. -/
  tagged? : (tagKey contentKey : String) → List String → (d : Part) →
    Option (String × {x : Part // room x < room d})
  render? : Document → Option String
  /-- The document as it is held in memory. -/
  collect : Document → Document
  ofChoice : String → Document
  ofFields : List (String × Document) → Document
  ofTagged : (tagKey contentKey tag : String) → Document → Document

/-- Texts that nest as deep as this are not parsed. -/
def Codec.recursionLimit : Nat := 128

end PortWire
