import Mathlib.Order.Bounds.Basic
import PortWire.Proofs.FileMap.Placement

/-!
# Allocation

The address of a file that brings none, as a law on the files of its region and as a computation in
machine words. The law says which address it is and not how it is found. The words show that no step
of finding it can wrap around: a start has 30 bits and a length 32, so there is room for the end of
a file and for raising it to a boundary.
-/

namespace PortWire

/-! ## The law -/

namespace Region

/-- The start of the region if there are no files, and otherwise the least multiple of the boundary
behind all of them. -/
structure IsNext (r : Region) (files : List File) (address : Nat) : Prop where
  first : files = [] → address = r.start.toNat
  least : files ≠ [] →
    IsLeast {a | r.boundary.toNat ∣ a ∧ ∀ g ∈ files, g.stop ≤ a} address

variable {r : Region} {files : List File}

theorem IsNext.stop_le {address : Nat} (next : r.IsNext files address) :
    ∀ g ∈ files, g.stop ≤ address :=
  fun g hg => (next.least (List.ne_nil_of_mem hg)).1.2 g hg

theorem isNext_alignUp (power : IsPowerOfTwo r.boundary.toNat) {last : File} (listed : last ∈ files)
    (furthest : ∀ g ∈ files, g.stop ≤ last.stop) : r.IsNext files (r.alignUp last.stop) := by
  refine ⟨fun empty => absurd empty (List.ne_nil_of_mem listed), fun _ => ⟨⟨?_, ?_⟩, ?_⟩⟩
  · exact dvd_alignUp power _
  · intro g hg
    exact Nat.le_trans (furthest g hg) (le_alignUp power _)
  · rintro a ⟨multiple, behind⟩
    exact alignUp_le power _ multiple (behind last listed)

end Region

theorem FileMap.isNext_candidate {m : FileMap} (spaced : Spaced m.entries) {r : Region}
    (sound : r.Sound) : r.IsNext (m.residents r) (m.candidate r) := by
  rcases candidate_spec spaced sound with ⟨empty, first⟩ | ⟨occupied, multiple, behind, least⟩
  · exact ⟨fun _ => first, fun occupied => absurd empty occupied⟩
  · refine ⟨fun empty => absurd empty occupied, fun _ => ⟨⟨multiple, behind⟩, ?_⟩⟩
    rintro a ⟨multiple, behind⟩
    exact least a multiple behind

/-! ## The computation in words -/

namespace Word

/-- The sum of two words, if it is one. -/
def add? (a b : UInt64) : Option UInt64 :=
  if a.toNat + b.toNat < UInt64.size then some (a + b) else none

def sub? (a b : UInt64) : Option UInt64 :=
  if b ≤ a then some (a - b) else none

/-- The same number in half as many bits, if it fits. -/
def narrow? (a : UInt64) : Option UInt32 :=
  if a.toNat < UInt32.size then some a.toUInt32 else none

variable {a b : UInt64}

theorem add?_eq_some (fits : a.toNat + b.toNat < UInt64.size) :
    ∃ c, add? a b = some c ∧ c.toNat = a.toNat + b.toNat := by
  refine ⟨a + b, if_pos fits, ?_⟩
  rw [UInt64.toNat_add]
  exact Nat.mod_eq_of_lt fits

theorem sub?_eq_some (le : b.toNat ≤ a.toNat) :
    ∃ c, sub? a b = some c ∧ c.toNat = a.toNat - b.toNat :=
  ⟨a - b, if_pos le, UInt64.toNat_sub_of_le a b le⟩

theorem narrow?_eq_some (fits : a.toNat < UInt32.size) :
    narrow? a = some (UInt32.ofNat a.toNat) :=
  if_pos fits

/-- The bits of a mask and the others make up the word. -/
theorem clear_add_keep (a mask : UInt64) : (a &&& ~~~mask) + (a &&& mask) = a := by
  apply UInt64.toBitVec_inj.mp
  have disjoint : (a.toBitVec &&& ~~~mask.toBitVec) &&& (a.toBitVec &&& mask.toBitVec) = 0#64 := by
    ext i hi
    cases h : mask.toBitVec[i] <;> simp [h]
  have whole : (a.toBitVec &&& ~~~mask.toBitVec) ||| (a.toBitVec &&& mask.toBitVec) =
      a.toBitVec := by
    ext i hi
    cases h : mask.toBitVec[i] <;> simp [h]
  exact (BitVec.add_eq_or_of_and_eq_zero _ _ disjoint).trans whole

theorem toNat_clear (a mask : UInt64) :
    (a &&& ~~~mask).toNat = a.toNat - (a.toNat &&& mask.toNat) := by
  rw [UInt64.eq_sub_iff_add_eq.mpr (clear_add_keep a mask),
    UInt64.toNat_sub_of_le _ _ UInt64.and_le_left, UInt64.toNat_and]

end Word

/-- The end of a file in 64 bits, unless the sum wraps around. -/
def FileInfo.stop64? (f : FileInfo) : Option UInt64 :=
  Word.add? (Address.internal f.address).toUInt64 f.length.toUInt64

/-- Raising to the boundary in 64 bits, unless a step of it wraps around. -/
def Region.alignUp64? (r : Region) (address : UInt64) : Option UInt64 := do
  let low ← Word.sub? r.boundary.toUInt64 1
  let raised ← Word.add? address low
  return raised &&& ~~~low

/-- The free address of a region as it is found with words. There is none if a sum wraps around or
an address that was accepted does not fit 32 bits. -/
def FileMap.freeAddress64? (m : FileMap) (r : Region) : Option (Except PlacementError UInt32) :=
  let below := m.files.takeWhile fun f => Address.internal f.info.address < r.stop
  match (below.filter fun f => r.start ≤ Address.internal f.info.address).getLast? with
  | none => some (.ok r.start)
  | some last => do
    let stop ← last.info.stop64?
    let address ← r.alignUp64? stop
    if r.stop.toUInt64 ≤ address then
      return .error (.regionFull r.start r.stop)
    else
      let short ← Word.narrow? address
      return .ok short

theorem FileInfo.start_le_mask (f : FileInfo) : f.start ≤ Address.internalMask.toNat := by
  rw [start, Address.internal, UInt32.toNat_and]
  exact Nat.and_le_right

theorem FileInfo.stop64?_eq_some (f : FileInfo) :
    ∃ stop, f.stop64? = some stop ∧ stop.toNat = f.stop := by
  have start := f.start_le_mask
  have length := f.length.toNat_lt
  have mask : Address.internalMask.toNat = 0x3FFF_FFFF := rfl
  apply Word.add?_eq_some
  simp only [UInt32.toNat_toUInt64, FileInfo.start] at *
  simp only [UInt64.size]
  omega

theorem FileInfo.stop_lt (f : FileInfo) : f.stop < Address.internalMask.toNat + UInt32.size := by
  have start := f.start_le_mask
  have length := f.length.toNat_lt
  simp only [stop, UInt32.size]
  omega

theorem Region.alignUp64?_eq_some {r : Region} (power : IsPowerOfTwo r.boundary.toNat)
    {stop : UInt64} (room : stop.toNat < Address.internalMask.toNat + UInt32.size) :
    ∃ address, r.alignUp64? stop = some address ∧ address.toNat = r.alignUp stop.toNat := by
  have positive := boundary_pos power
  have boundary := r.boundary.toNat_lt
  have mask : Address.internalMask.toNat = 0x3FFF_FFFF := rfl
  have wide : r.boundary.toUInt64.toNat = r.boundary.toNat := UInt32.toNat_toUInt64 _
  have one : (1 : UInt64).toNat = 1 := rfl
  obtain ⟨low, hlow, lowNat⟩ := Word.sub?_eq_some (a := r.boundary.toUInt64) (b := 1) (by omega)
  obtain ⟨raised, hraised, raisedNat⟩ := Word.add?_eq_some (a := stop) (b := low) (by
    simp only [UInt64.size, UInt32.size] at *
    omega)
  refine ⟨raised &&& ~~~low, ?_, ?_⟩
  · simp only [alignUp64?, hlow, hraised, Option.bind_eq_bind, Option.bind_some, Option.pure_def]
  · rw [Word.toNat_clear, raisedNat, lowNat, wide, one]
    rfl

/-- Nothing wraps around, and what is found is the free address. -/
theorem FileMap.freeAddress64?_eq_some (m : FileMap) {r : Region}
    (power : Region.IsPowerOfTwo r.boundary.toNat) :
    m.freeAddress64? r = some (m.freeAddress r) := by
  have below : ∀ f : File, decide (Address.internal f.info.address < r.stop) =
      decide (f.start < r.stop.toNat) := fun f => rfl
  have behind : ∀ f : File, decide (r.start ≤ Address.internal f.info.address) =
      decide (r.start.toNat ≤ f.start) := fun f => rfl
  simp only [freeAddress64?, freeAddress, below, behind]
  cases ((m.files.takeWhile fun f => f.start < r.stop.toNat).filter fun f =>
      r.start.toNat ≤ f.start).getLast? with
  | none => rfl
  | some last =>
    obtain ⟨stop, hstop, stopNat⟩ := last.info.stop64?_eq_some
    have bound := last.info.stop_lt
    rw [← stopNat] at bound
    obtain ⟨address, haddress, addressNat⟩ := Region.alignUp64?_eq_some power bound
    rw [stopNat] at addressNat
    have le_iff : r.stop.toUInt64 ≤ address ↔ ¬ r.alignUp last.info.stop < r.stop.toNat := by
      rw [UInt64.le_iff_toNat_le, addressNat, UInt32.toNat_toUInt64, Nat.not_lt]
    simp only [hstop, haddress, Option.bind_eq_bind, Option.bind_some, File.stop, le_iff]
    by_cases room : r.alignUp last.info.stop < r.stop.toNat
    · have fits : address.toNat < UInt32.size := by
        rw [addressNat]
        exact Nat.lt_trans room r.stop.toNat_lt
      simp only [room, not_true_eq_false, if_true, if_false, Word.narrow?_eq_some fits, addressNat,
        Option.bind_some, Option.pure_def]
    · simp only [room, not_false_eq_true, if_true, if_false, Option.pure_def]

/-! ## Insertion -/

namespace FileMap

/-- The address that a file is given has no flag bits, and it is not the one set aside for files
without an address. -/
theorem settled_plain {m : FileMap} {r : Region} (sound : r.Sound)
    (room : m.candidate r < r.stop.toNat) (f : File) :
    Address.internal (m.settled r f).info.address = (m.settled r f).info.address ∧
      (m.settled r f).info.address ≠ Address.unassigned := by
  have given := settled_address_toNat room f
  constructor
  · apply UInt32.toNat_inj.mp
    exact (start_settled sound room f).trans given.symm
  · intro unassigned
    have top : Address.commandStart.toNat < Address.unassigned.toNat := by decide
    have below := sound.stop_le_command
    rw [← unassigned, given] at top
    omega

theorem perform_insert_error {m : FileMap} {f : File} {e : PlacementError}
    (refused : m.insert f = .error e) : m.perform (.insert f) = (.error e, m) := by
  simp only [perform, refused]

/-- On any map that was reached, the address of a file that brings none is settled by the files that
start in its region: it is the start of the region if there are none, and otherwise the least
multiple of the boundary behind them. If that is not below the end of the region the file is
refused, and otherwise it is placed there or refused by a neighbour. Finding the address takes no
step that wraps around, and the address has no flag bits. A file that is refused changes nothing. -/
theorem unassigned_files_allocated {layout : Layout} {m : FileMap}
    (made : ofLayout layout = .ok m) (commands : List Command) {f : File}
    (unassigned : f.info.isUnassigned) :
    let reached := m.session commands
    (∀ r, layout.regionFor f.type = some r →
      ∃ c, r.IsNext (reached.residents r) c ∧
        reached.freeAddress64? r =
          some (if c < r.stop.toNat then .ok (UInt32.ofNat c)
            else .error (.regionFull r.start r.stop)) ∧
        (reached.insert f = .error (.regionFull r.start r.stop) ↔ r.stop.toNat ≤ c) ∧
        ∀ id next, reached.insert f = .ok (id, next) →
          ∃ placed, f.PlacedAs placed ∧ next.entries.Perm (⟨id, placed⟩ :: reached.entries) ∧
            placed.info.address.toNat = c ∧ r.Contains c ∧
            Address.internal placed.info.address = placed.info.address ∧
            placed.info.address ≠ Address.unassigned) ∧
      (f.type = .unknown → reached.insert f = .error (.unknownType f.info.name)) ∧
      ∀ e, reached.insert f = .error e → reached.perform (.insert f) = (.error e, reached) := by
  intro reached
  have spaced : Spaced reached.entries := spaced_reached made commands
  have sameLayout : reached.layout = layout := by rw [layout_session, ofLayout_eq_ok made]
  refine ⟨?_, ?_, fun e refused => perform_insert_error refused⟩
  · intro r owned
    have sound : r.Sound := Layout.sound_of_validate (validate_of_made made) owned
    rw [← sameLayout] at owned
    refine ⟨reached.candidate r, isNext_candidate spaced sound, ?_, ?_, ?_⟩
    · rw [freeAddress64?_eq_some reached sound.boundary, freeAddress_eq spaced sound]
    · exact insert_eq_regionFull_iff spaced sound unassigned owned
    · intro id next inserted
      obtain ⟨placed, located, _, _, entries⟩ := mem_insert inserted
      rw [locate_unassigned spaced sound unassigned owned] at located
      by_cases room : reached.candidate r < r.stop.toNat
      · rw [if_pos room] at located
        obtain rfl := Except.ok.inj located
        obtain ⟨noFlags, assigned⟩ := settled_plain sound room f
        exact ⟨_, placedAs_settled unassigned, entries, settled_address_toNat room f,
          ⟨start_le_candidate spaced sound, room⟩, noFlags, assigned⟩
      · rw [if_neg room] at located
        cases located
  · intro unknown
    have nowhere : reached.layout.regionFor f.type = none := by
      rw [unknown]
      rfl
    simp only [insert, locate, unassigned, if_true, nowhere]

/-- The remote file ends one byte behind a boundary. -/
theorem file_allocated_behind_remote_file :
    let m : FileMap := { layout := {} }
    let remote : File := ⟨{ address := 0x8000_0401, length := 0x400, name := "remote" }, .unknown⟩
    let reached := m.session [.insert remote]
    let f : File := ⟨{ length := 1, name := "local" }, .outData⟩
    let r : Region := ⟨0, 0x400_0000, 0x400⟩
    ofLayout {} = .ok m ∧ f.info.isUnassigned ∧ Layout.regionFor {} f.type = some r ∧
      reached.freeAddress64? r = some (.ok 0xC00) ∧
      ∃ c id next placed, r.IsNext (reached.residents r) c ∧
        reached.insert f = .ok (id, next) ∧ f.PlacedAs placed ∧
        next.entries.Perm (⟨id, placed⟩ :: reached.entries) ∧
        placed.info.address.toNat = c ∧ r.Contains c := by
  intro m remote reached f r
  have made : ofLayout {} = .ok m := rfl
  have law := unassigned_files_allocated made [.insert remote] (f := f) rfl
  obtain ⟨c, isNext, _, _, placing⟩ := law.1 r rfl
  have accepted : (reached.insert f).isOk := by decide
  obtain ⟨⟨id, next⟩, inserted⟩ := exists_of_isOk accepted
  obtain ⟨placed, as, entries, address, inside, _⟩ := placing id next inserted
  exact ⟨made, rfl, rfl, by decide, c, id, next, placed, isNext, inserted, as, entries,
    address, inside⟩

end FileMap

end PortWire
