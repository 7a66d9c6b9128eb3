import PortWire.FileMap

/-!
# File map sessions

What can be asked of a file map, as data. A session performs one command after the other; a file
that is refused does not end it.
-/

namespace PortWire.FileMap

inductive Command
  | insert (f : File)
  | remove (id : FileId)
  | get (id : FileId)
  | contains (id : FileId)
  | findAddress (address : UInt32)
  | findName (name : String)
  | takeAll
  deriving DecidableEq, Repr

inductive Answer
  | placed (id : FileId)
  | file (f : Option File)
  | resident (b : Bool)
  | entries (es : List Entry)
  deriving DecidableEq, Repr

def perform (m : FileMap) : Command → Except PlacementError Answer × FileMap
  | .insert f =>
    match m.insert f with
    | .error e => (.error e, m)
    | .ok (id, m) => (.ok (.placed id), m)
  | .remove id =>
    let (f, m) := m.remove id
    (.ok (.file f), m)
  | .get id => (.ok (.file (m.get? id)), m)
  | .contains id => (.ok (.resident (m.contains id)), m)
  | .findAddress address =>
    let (f, m) := m.findAddress address
    (.ok (.file f), m)
  | .findName name => (.ok (.file (m.findName name)), m)
  | .takeAll =>
    let (es, m) := m.takeAll
    (.ok (.entries es), m)

/-- The map at the end of a session. -/
def session (m : FileMap) : List Command → FileMap
  | [] => m
  | command :: rest => session (m.perform command).2 rest

end PortWire.FileMap
