import PortWire.Utf8

/-!
# Text fields

A field of fixed size holds a text up to its first zero byte; what follows is padding.
-/

namespace PortWire

inductive TextEncoding
  | ascii
  | utf8
  deriving DecidableEq, Repr

structure FixedText where
  text : String
  encoding : TextEncoding
  deriving DecidableEq, Repr

namespace FixedText

def ofField (field : List UInt8) : FixedText :=
  let content := field.takeWhile fun b => b != 0
  ⟨Utf8.decodeLossy content, if content.all fun b => b < 0x80 then .ascii else .utf8⟩

end FixedText

end PortWire
