import PortWire.Document

/-!
# Texts of documents

Which texts spell a document. There may be blanks between the parts of a text, and a character of a
string may be escaped although it could stand for itself; beyond that a text leaves no choice.
Numbers are spelled as integers, without a fraction or an exponent.
-/

namespace PortWire.Document

def Blank (cs : List Char) : Prop :=
  ∀ c ∈ cs, c ∈ [' ', '\t', '\n', '\r']

/-- The digits of base 16, in lower or upper case. -/
def HexDigit (n : Nat) (c : Char) : Prop :=
  n < 16 ∧ (c = n.digitChar ∨ c = n.digitChar.toUpper)

/-- A number of 16 bits by its four digits. -/
inductive SpellsUnit : Nat → List Char → Prop
  | digits {i j k l : Nat} {c d e f : Char} : HexDigit i c → HexDigit j d → HexDigit k e →
      HexDigit l f → SpellsUnit (16 * (16 * (16 * i + j) + k) + l) [c, d, e, f]

/-- What may stand behind a backslash, and what it is then. -/
def escapes : List (Char × Char) :=
  [('"', '"'), ('\\', '\\'), ('/', '/'), ('b', '\x08'), ('f', '\x0c'), ('n', '\n'), ('r', '\r'),
    ('t', '\t')]

/-- A character of a string. Those above 16 bits are escaped as a pair of numbers. -/
inductive SpellsChar : Char → List Char → Prop
  | plain {c : Char} : 0x20 ≤ c.toNat → c ≠ '"' → c ≠ '\\' → SpellsChar c [c]
  | short {c mark : Char} : (mark, c) ∈ escapes → SpellsChar c ['\\', mark]
  | unit {c : Char} {cs : List Char} : SpellsUnit c.toNat cs → SpellsChar c ('\\' :: 'u' :: cs)
  | pair {c : Char} {high low : Nat} {first second : List Char} : high < 0x400 → low < 0x400 →
      c.toNat = 0x10000 + high * 0x400 + low → SpellsUnit (0xD800 + high) first →
      SpellsUnit (0xDC00 + low) second →
      SpellsChar c ('\\' :: 'u' :: first ++ '\\' :: 'u' :: second)

inductive SpellsChars : List Char → List Char → Prop
  | nil : SpellsChars [] []
  | cons {c : Char} {cs chars rest : List Char} : SpellsChar c cs → SpellsChars chars rest →
      SpellsChars (c :: chars) (cs ++ rest)

def Number.chars (n : Number) : List Char :=
  (if n.value < 0 then ['-'] else []) ++ Nat.toDigits 10 n.value.natAbs

mutual

/-- The characters spell the document. -/
inductive Spells : Document → List Char → Prop
  | null : Spells .null ['n', 'u', 'l', 'l']
  | yes : Spells (.bool true) ['t', 'r', 'u', 'e']
  | no : Spells (.bool false) ['f', 'a', 'l', 's', 'e']
  | number (n : Number) : Spells (.number n) n.chars
  | text {s : String} {cs : List Char} : SpellsChars s.toList cs →
      Spells (.text s) ('"' :: cs ++ ['"'])
  | emptyList {cs : List Char} : Blank cs → Spells (.list []) ('[' :: cs ++ [']'])
  | list {items : List Document} {cs : List Char} : SpellsItems items cs →
      Spells (.list items) ('[' :: cs ++ [']'])
  | emptyObject {cs : List Char} : Blank cs → Spells (.object []) ('{' :: cs ++ ['}'])
  | object {members : List (String × Document)} {cs : List Char} : SpellsMembers members cs →
      Spells (.object members) ('{' :: cs ++ ['}'])
  | padded {t : Document} {before cs behind : List Char} : Blank before → Spells t cs →
      Blank behind → Spells t (before ++ cs ++ behind)

/-- The items of a list that is not empty. -/
inductive SpellsItems : List Document → List Char → Prop
  | last {t : Document} {cs : List Char} : Spells t cs → SpellsItems [t] cs
  | more {t : Document} {items : List Document} {cs rest : List Char} : Spells t cs →
      SpellsItems items rest → SpellsItems (t :: items) (cs ++ ',' :: rest)

/-- The members of an object that is not empty. -/
inductive SpellsMembers : List (String × Document) → List Char → Prop
  | last {name : String} {t : Document} {ks cs : List Char} : Spells (.text name) ks →
      Spells t cs → SpellsMembers [(name, t)] (ks ++ ':' :: cs)
  | more {name : String} {t : Document} {members : List (String × Document)}
      {ks cs rest : List Char} : Spells (.text name) ks → Spells t cs →
      SpellsMembers members rest →
      SpellsMembers ((name, t) :: members) (ks ++ ':' :: cs ++ ',' :: rest)

end

end PortWire.Document
