import PortWire.Json.Numeral
import PortWire.Json.Text

/-!
# Tokens of documents

Brackets, separators, words, numbers and strings. Reading goes through the characters one at a time:
words and numbers run on as far as their characters do, and a string up to the next quote that is
not escaped.
-/

namespace PortWire.Json

inductive Token
  | listOpen | listClose | objectOpen | objectClose | colon | comma
  | null
  | bool (b : Bool)
  | number (n : Numeral)
  | text (t : Text)
  deriving DecidableEq, Repr

/-- Where reading stands; what has been read of the token at hand is held last one first. -/
inductive Scan
  | blank
  | word (seen : List Char)
  | number (seen : List Char)
  | text (seen : Text)
  | escape (seen : Text)
  /-- Inside a unit: its value so far and the digits that are still missing. -/
  | unit (seen : Text) (value missing : Nat)
  deriving DecidableEq, Repr

namespace Scan

def isBlank (c : Char) : Bool :=
  c = ' ' || c = '\t' || c = '\n' || c = '\r'

def isNumberStart (c : Char) : Bool :=
  c.isDigit || c = '-'

def isNumberPart (c : Char) : Bool :=
  c.isDigit || c = '-' || c = '+' || c = '.' || c = 'e' || c = 'E'

def punctuation? : Char → Option Token
  | '[' => some .listOpen
  | ']' => some .listClose
  | '{' => some .objectOpen
  | '}' => some .objectClose
  | ':' => some .colon
  | ',' => some .comma
  | _ => none

def word? : List Char → Option Token
  | ['n', 'u', 'l', 'l'] => some .null
  | ['t', 'r', 'u', 'e'] => some (.bool true)
  | ['f', 'a', 'l', 's', 'e'] => some (.bool false)
  | _ => none

/-- The character that stands behind a backslash, less the units. -/
def escaped? : Char → Option Char
  | '"' => some '"'
  | '\\' => some '\\'
  | '/' => some '/'
  | 'b' => some '\x08'
  | 'f' => some '\x0c'
  | 'n' => some '\n'
  | 'r' => some '\r'
  | 't' => some '\t'
  | _ => none

def hexDigit? (c : Char) : Option Nat :=
  if '0' ≤ c ∧ c ≤ '9' then some (c.toNat - '0'.toNat)
  else if 'a' ≤ c ∧ c ≤ 'f' then some (c.toNat - 'a'.toNat + 10)
  else if 'A' ≤ c ∧ c ≤ 'F' then some (c.toNat - 'A'.toNat + 10)
  else none

/-- A character between tokens. -/
def start (found : List Token) (c : Char) : Option (Scan × List Token) :=
  if isBlank c then some (.blank, found)
  else if c = '"' then some (.text [], found)
  else if c.isLower then some (.word [c], found)
  else if isNumberStart c then some (.number [c], found)
  else (punctuation? c).map fun t => (.blank, t :: found)

/-- One character further. -/
def step (found : List Token) : Scan → Char → Option (Scan × List Token)
  | .blank, c => start found c
  | .word seen, c =>
    if c.isLower then
      some (.word (c :: seen), found)
    else
      (word? seen.reverse).bind fun t => start (t :: found) c
  | .number seen, c =>
    if isNumberPart c then
      some (.number (c :: seen), found)
    else
      (Numeral.ofChars? seen.reverse).bind fun n => start (.number n :: found) c
  | .text seen, c =>
    if c = '"' then some (.blank, .text seen.reverse :: found)
    else if c = '\\' then some (.escape seen, found)
    else if c.toNat < 0x20 then none
    else some (.text (.char c :: seen), found)
  | .escape seen, c =>
    if c = 'u' then
      some (.unit seen 0 4, found)
    else
      (escaped? c).map fun d => (.text (.char d :: seen), found)
  | .unit seen value missing, c =>
    (hexDigit? c).map fun d =>
      let value := 16 * value + d
      if missing ≤ 1 then
        (.text (.unit value :: seen), found)
      else
        (.unit seen value (missing - 1), found)

/-- The tokens at the end of the characters, if none is left open. -/
def finish (found : List Token) : Scan → Option (List Token)
  | .blank => some found.reverse
  | .word seen => (word? seen.reverse).map fun t => (t :: found).reverse
  | .number seen => (Numeral.ofChars? seen.reverse).map fun n => (.number n :: found).reverse
  | _ => none

def run (found : List Token) : Scan → List Char → Option (List Token)
  | s, [] => s.finish found
  | s, c :: cs =>
    match s.step found c with
    | none => none
    | some (s, found) => run found s cs

end Scan

namespace Token

def ofChars? (cs : List Char) : Option (List Token) :=
  Scan.run [] .blank cs

end Token

end PortWire.Json
