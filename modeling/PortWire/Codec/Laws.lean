import PortWire.Codec
import PortWire.Document.Grammar

/-!
# Laws of codecs

What the library relies on of a codec. By the standard laws it prints every document, parses every
text that spells one and does not nest too deep, and can collect a document in memory, where an
object keeps no order. By the derived laws structures are written as objects of their fields,
choices as their names and tagged values as objects of a tag and a content, and all of them are
found again in what has been parsed.
-/

namespace PortWire.Codec

variable (C : Codec)

mutual

/-- The part holds the document. -/
def Shows : C.Part → Document → Prop
  | d, .null => C.isNull d = true
  | d, .bool b => C.isNull d = false ∧ C.bool? d = some b
  | d, .number n => C.isNull d = false ∧ C.int? d = some n.value
  | d, .text s => C.isNull d = false ∧ C.text? d = some s
  | d, .list ts => C.isNull d = false ∧
    ∃ items, C.items? d = some items ∧ ShowsItems (items.map Subtype.val) ts
  | d, .object ts => C.isNull d = false ∧
    ∃ members, C.members? d = some members ∧
      ShowsMembers (members.map fun m => (m.1, m.2.val)) ts

def ShowsItems : List C.Part → List Document → Prop
  | [], [] => True
  | d :: ds, t :: ts => Shows d t ∧ ShowsItems ds ts
  | _, _ => False

def ShowsMembers : List (String × C.Part) → List (String × Document) → Prop
  | [], [] => True
  | (k, d) :: ds, (name, t) :: ts => k = name ∧ Shows d t ∧ ShowsMembers ds ts
  | _, _ => False

end

/-- What is given for a field of an object: its member, or nothing where it has none. -/
def GivenFor (members : List (String × Document)) (f : Field) : Option C.Part → Prop
  | some d => ∃ t, (f.name, t) ∈ members ∧ C.Shows d t
  | none => f.name ∉ members.map Prod.fst

def Given (members : List (String × Document)) : List Field → List (Option C.Part) → Prop
  | [], [] => True
  | f :: fields, d :: given => C.GivenFor members f d ∧ Given members fields given
  | _, _ => False

/-- The laws of a parser and a printer of documents. -/
class Standard : Prop where
  exists_render (t : Document) : ∃ s, C.render? t = some s ∧ t.Spells s.toList
  exists_parse {t : Document} {s : String} : t.Spells s.toList → t.depth < recursionLimit →
    ∃ d, C.parse? s = some d ∧ C.Shows d t
  /-- Nothing that is nested as deep as the limit is ever opened: each list and each object takes up
  room, and there is less than the limit of it. -/
  room_parse {s : String} {d : C.Part} : C.parse? s = some d → C.room d < recursionLimit
  room_items {d : C.Part} : (C.items? d).isSome → 0 < C.room d
  room_members {d : C.Part} : (C.members? d).isSome → 0 < C.room d
  /-- In memory only the order of members is lost. -/
  collect_leaf {t : Document} : t.depth = 0 → C.collect t = t
  collect_list (items : List Document) : C.collect (.list items) = .list (items.map C.collect)
  collect_object {members : List (String × Document)} : (members.map Prod.fst).Nodup →
    (C.collect (.object members)).Gives (members.map fun m => (m.1, C.collect m.2))

/-- The laws of the readers and writers that are derived for structures, choices and tagged
values. -/
class Derived : Prop where
  ofChoice_eq (name : String) : C.ofChoice name = .text name
  ofFields_eq (fields : List (String × Document)) : C.ofFields fields = .object fields
  ofTagged_eq (tagKey contentKey tag : String) (content : Document) :
    C.ofTagged tagKey contentKey tag content = .object [(tagKey, .text tag), (contentKey, content)]
  choice_shown {names : List String} {name : String} {d : C.Part} : C.Shows d (.text name) →
    name ∈ names → C.choice? names d = some name
  /-- Fields are found in any order, and among other members. -/
  exists_fields {fields : List Field} {members : List (String × Document)} {d : C.Part} :
    C.Shows d (.object members) → (members.map Prod.fst).Nodup →
    (∀ f ∈ fields, f.absence = .refused → f.name ∈ members.map Prod.fst) →
    ∃ given, C.fields? fields d = some given ∧ C.Given members fields given
  /-- The tag need not come first. -/
  exists_tagged {tagKey contentKey tag : String} {names : List String}
    {members : List (String × Document)} {content : Document} {d : C.Part} :
    C.Shows d (.object members) → tagKey ≠ contentKey → tag ∈ names →
    members.Perm [(tagKey, .text tag), (contentKey, content)] →
    ∃ x, C.tagged? tagKey contentKey names d = some (tag, x) ∧ C.Shows x.val content

end PortWire.Codec
