import PortWire.FileMap.Layout

/-!
# File maps

The resident files of an address space in the order of their addresses. A file that brings no
address goes behind the last resident file of its region; one that does is admitted only if it
overlaps neither neighbour. Looking up an address remembers the entry that was found and tries it
first the next time.
-/

namespace PortWire

/-- Names a file for as long as it is resident; numbers are never used again. -/
structure FileId where
  number : Nat
  deriving DecidableEq, Repr

structure Entry where
  id : FileId
  file : File
  deriving DecidableEq, Repr

structure FileMap where
  layout : Layout := {}
  entries : List Entry := []
  nextId : Nat := 0
  /-- Position of the entry that the last successful look-up of an address found. -/
  lastFound : Option Nat := none
  deriving DecidableEq, Repr

namespace FileMap

def ofLayout (layout : Layout) : Except PlacementError FileMap :=
  match layout.validate with
  | .error e => .error e
  | .ok () => .ok { layout := layout }

def files (m : FileMap) : List File :=
  m.entries.map fun e => e.file

def infos (m : FileMap) : List FileInfo :=
  m.files.map fun f => f.info

def size (m : FileMap) : Nat :=
  m.entries.length

def isEmpty (m : FileMap) : Bool :=
  m.entries.isEmpty

/-- The start of the region if no file starts there yet, else the first boundary behind the last
file that does. -/
def freeAddress (m : FileMap) (r : Region) : Except PlacementError UInt32 :=
  let below := m.files.takeWhile fun f => f.start < r.stop.toNat
  match (below.filter fun f => r.start.toNat ≤ f.start).getLast? with
  | none => .ok r.start
  | some last =>
    let address := r.alignUp last.stop
    if address < r.stop.toNat then
      .ok (UInt32.ofNat address)
    else
      .error (.regionFull r.start r.stop)

/-- The file with an address: its own, or a free one of its region. -/
def locate (m : FileMap) (f : File) : Except PlacementError File :=
  if f.info.isUnassigned then
    match m.layout.regionFor f.type with
    | none => .error (.unknownType f.info.name)
    | some r =>
      match m.freeAddress r with
      | .error e => .error e
      | .ok address => .ok { f with info := { f.info with address := address } }
  else
    .ok f

/-- The entries that a file goes between, if it overlaps neither neighbour. -/
def gap (m : FileMap) (info : FileInfo) : Except PlacementError (List Entry × List Entry) :=
  let before := m.entries.takeWhile fun e => e.file.start ≤ info.start
  let behind := m.entries.dropWhile fun e => e.file.start ≤ info.start
  if before.getLast?.any fun e => info.start < e.file.stop then
    .error (.addressInUse info.address)
  else if behind.head?.any fun e => e.file.start < info.stop then
    .error (.fileTooLarge info.address info.length)
  else
    .ok (before, behind)

def insert (f : File) (m : FileMap) : Except PlacementError (FileId × FileMap) :=
  match m.locate f with
  | .error e => .error e
  | .ok f =>
    match m.gap f.info with
    | .error e => .error e
    | .ok (before, behind) =>
      let id : FileId := ⟨m.nextId⟩
      .ok (id, { m with
        entries := before ++ ⟨id, f⟩ :: behind
        nextId := m.nextId + 1
        lastFound := none })

def remove (id : FileId) (m : FileMap) : Option File × FileMap :=
  ((m.entries.find? fun e => e.id = id).map fun e => e.file,
    { m with entries := m.entries.eraseP fun e => e.id = id, lastFound := none })

def get? (id : FileId) (m : FileMap) : Option File :=
  (m.entries.find? fun e => e.id = id).map fun e => e.file

def contains (id : FileId) (m : FileMap) : Bool :=
  m.entries.any fun e => e.id = id

/-- The remembered entry, if it contains the address. -/
def remembered? (address : Nat) (m : FileMap) : Option File :=
  (m.lastFound.bind fun i => m.entries[i]?).bind fun e =>
    if e.file.info.Contains address then some e.file else none

/-- The file that contains an address, whose flag bits do not count. -/
def findAddress (address : UInt32) (m : FileMap) : Option File × FileMap :=
  let address := (Address.internal address).toNat
  match m.remembered? address with
  | some f => (some f, m)
  | none =>
    match m.entries.findIdx? fun e => e.file.info.Contains address with
    | none => (none, m)
    | some i => (m.files[i]?, { m with lastFound := some i })

def findName (name : String) (m : FileMap) : Option File :=
  m.files.find? fun f => f.info.name = name

/-- Hands out every file and leaves the map empty. -/
def takeAll (m : FileMap) : List Entry × FileMap :=
  (m.entries, { m with entries := [], lastFound := none })

/-- Places files one after the other, up to the first that is refused. -/
def insertAll : List File → FileMap → Except PlacementError FileMap
  | [], m => .ok m
  | f :: rest, m =>
    match m.insert f with
    | .error e => .error e
    | .ok (_, m) => insertAll rest m

end FileMap

end PortWire
