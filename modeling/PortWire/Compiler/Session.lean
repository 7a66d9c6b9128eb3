import PortWire.Compiler

/-!
# Compiler sessions

What can be asked of a compiler, as data. A session performs one command after the other; a command
that is refused does not end it.
-/

namespace PortWire.Compiler

inductive Command
  | attach (i : Nat)
  | element (opcode : Opcode) (e : DataElement)
  | providePort (node : Node) (index i : Nat)
  | requirePort (node : Node) (index i : Nat)
  | reset
  | restart
  deriving DecidableEq, Repr

def perform (c : Compiler) : Command → Except CompileError Unit × Compiler
  | .attach i => (.ok (), c.attach i)
  | .element opcode e => c.compileElement opcode e
  | .providePort node index i => c.compileProvidePort node index i
  | .requirePort node index i => c.compileRequirePort node index i
  | .reset => (.ok (), c.reset)
  | .restart => (.ok (), c.restart)

/-- The compiler at the end of a session. -/
def session (c : Compiler) : List Command → Compiler
  | [] => c
  | command :: rest => session (c.perform command).2 rest

end PortWire.Compiler
