import PortWire.Document.Grammar

/-!
# Printing documents

Documents are printed without blanks. One that is held in memory has the members of its objects in
the order of their names.
-/

namespace PortWire.Json

def hexDigit (n : Nat) : Char :=
  Nat.digitChar (n % 16)

def unitChars (n : Nat) : List Char :=
  ['\\', 'u', hexDigit (n / 4096), hexDigit (n / 256), hexDigit (n / 16), hexDigit n]

/-- Quotes, backslashes and control characters are escaped, by their short name where they have
one; everything else stands for itself. -/
def charChars (c : Char) : List Char :=
  match c with
  | '"' => ['\\', '"']
  | '\\' => ['\\', '\\']
  | '\x08' => ['\\', 'b']
  | '\x0c' => ['\\', 'f']
  | '\n' => ['\\', 'n']
  | '\r' => ['\\', 'r']
  | '\t' => ['\\', 't']
  | c => if c.toNat < 0x20 then unitChars c.toNat else [c]

def textChars (s : String) : List Char :=
  '"' :: s.toList.flatMap charChars ++ ['"']

mutual

def chars : Document → List Char
  | .null => ['n', 'u', 'l', 'l']
  | .bool true => ['t', 'r', 'u', 'e']
  | .bool false => ['f', 'a', 'l', 's', 'e']
  | .number n => n.chars
  | .text s => textChars s
  | .list items => '[' :: itemsChars items ++ [']']
  | .object members => '{' :: membersChars members ++ ['}']

def itemsChars : List Document → List Char
  | [] => []
  | [t] => chars t
  | t :: rest => chars t ++ ',' :: itemsChars rest

def membersChars : List (String × Document) → List Char
  | [] => []
  | [(name, t)] => textChars name ++ ':' :: chars t
  | (name, t) :: rest => textChars name ++ ':' :: chars t ++ ',' :: membersChars rest

end

def print (t : Document) : String :=
  String.ofList (chars t)

def insertMember (m : String × Document) : List (String × Document) → List (String × Document)
  | [] => [m]
  | n :: rest => if n.1 < m.1 then n :: insertMember m rest else m :: n :: rest

mutual

/-- Puts the members of every object in the order of their names. -/
def sorted : Document → Document
  | .list items => .list (sortedItems items)
  | .object members => .object (sortedMembers members)
  | t => t

def sortedItems : List Document → List Document
  | [] => []
  | t :: rest => sorted t :: sortedItems rest

def sortedMembers : List (String × Document) → List (String × Document)
  | [] => []
  | (name, t) :: rest => insertMember (name, sorted t) (sortedMembers rest)

end

end PortWire.Json
