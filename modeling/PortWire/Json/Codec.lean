import PortWire.Codec
import PortWire.Json.Parse
import PortWire.Json.Print

/-!
# A codec

The codec that the library is run with; results about the library are about any codec that has the
laws. What has been parsed is a tree, and with it goes how many more lists and objects may be opened
in it. A structure is an object of its fields or a list of them in order; a choice is its name, or
an object that maps its name to null; a tagged value is an object with both keys, or a list of tag
and content. Contents that stand before their tag are held until the tag is known, and there a
choice has more forms.
-/

namespace PortWire.Json

structure View where
  json : Json
  /-- How many lists and objects may be opened inside one another. -/
  room : Nat
  /-- The tree is a part of contents that were held. -/
  held : Bool

namespace View

/-- A part of a list or of an object. -/
def inner (v : View) (j : Json) : View :=
  ⟨j, v.room - 1, v.held⟩

/-- Contents that may have stood before their tag. -/
def content (v : View) (opened : 0 < v.room) (held : Bool) (j : Json) :
    {w : View // w.room < v.room} :=
  ⟨⟨j, v.room - 1, held⟩, Nat.sub_lt opened Nat.one_pos⟩

/-- Members by the text of their names, if all names have one. -/
def named? (members : List (Text × Json)) : Option (List (String × Json)) :=
  members.mapM fun (k, j) => k.string?.map fun s => (s, j)

def isNull (v : View) : Bool :=
  match v.json with
  | .null => true
  | _ => false

def items? (v : View) : Option (List {w : View // w.room < v.room}) :=
  if opened : 0 < v.room then
    match v.json with
    | .list items => some (items.map (v.content opened v.held))
    | _ => none
  else
    none

def members? (v : View) : Option (List (String × {w : View // w.room < v.room})) :=
  if opened : 0 < v.room then
    match v.json with
    | .object members =>
      (named? members).map fun named => named.map fun m => (m.1, v.content opened v.held m.2)
    | _ => none
  else
    none

/-- What an object gives for a field. A field given twice is an error. -/
def given? (v : View) (members : List (String × Json)) (f : Field) : Option (Option View) :=
  match members.filter fun m => m.1 = f.name with
  | [] => if f.absence = .refused then none else some none
  | [(_, j)] => some (some (v.inner j))
  | _ => none

/-- Members of other names are passed over; a list has no room for more items than there are
fields. -/
def fields? (fields : List Field) (v : View) : Option (List (Option View)) :=
  if v.room = 0 then
    none
  else
    match v.json with
    | .list items =>
      let absent := fields.drop items.length
      if items.length ≤ fields.length ∧ ∀ f ∈ absent, f.absence = .defaulted then
        some (items.map (fun j => some (v.inner j)) ++ absent.map fun _ => none)
      else
        none
    | .object members => (named? members).bind fun named => fields.mapM (v.given? named)
    | _ => none

/-- A choice by its name, which may stand over an empty object in contents that were held. -/
def choice? (names : List String) (v : View) : Option String :=
  let name? :=
    match v.json with
    | .text t => t.string?
    | .object [(k, .null)] => if 0 < v.room then k.string? else none
    | .object [(k, .object [])] => if 1 < v.room ∧ v.held then k.string? else none
    | _ => none
  name?.bind fun name => if name ∈ names then some name else none

/-- A choice at the head of a list: its name, or its number in contents that were held. -/
def headChoice? (names : List String) (v : View) : Option String :=
  match v.json with
  | .text t => t.string?.bind fun name => if name ∈ names then some name else none
  | .number n =>
    if v.held then n.int?.bind fun i => if 0 ≤ i then names[i.toNat]? else none else none
  | _ => none

def tagged? (tagKey contentKey : String) (names : List String) (v : View) :
    Option (String × {w : View // w.room < v.room}) :=
  if opened : 0 < v.room then
    match v.json with
    | .list [tag, content] =>
      (headChoice? names (v.inner tag)).map fun name => (name, v.content opened v.held content)
    | .object members =>
      (named? members).bind fun named =>
        match named.filter fun m => m.1 = tagKey ∨ m.1 = contentKey with
        | [(k, first), (l, second)] =>
          if k = l then
            none
          else if k = tagKey then
            (choice? names (v.inner first)).map fun name => (name, v.content opened v.held second)
          else if first.isHoldable ∧ first.depth < v.room then
            (choice? names (v.inner second)).map fun name => (name, v.content opened true first)
          else
            none
        | _ => none
    | _ => none
  else
    none

end View

def codec : Codec where
  Part := View
  room := View.room
  parse? s := (parse? s).map fun j => ⟨j, Codec.recursionLimit - 1, false⟩
  isNull := View.isNull
  bool? v := v.json.bool?
  int? v := v.json.int?
  text? v := v.json.string?
  items? := View.items?
  members? := View.members?
  choice? := View.choice?
  fields? := View.fields?
  tagged? := View.tagged?
  render? t := some (print t)
  collect := sorted
  ofChoice := .text
  ofFields := .object
  ofTagged tagKey contentKey tag content := .object [(tagKey, .text tag), (contentKey, content)]

end PortWire.Json
