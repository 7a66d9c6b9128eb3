import PortWire.Proofs.FileMap.Allocation
import PortWire.Proofs.FileMap.Lookup

/-!
# The top of the address space

The start of a file lies in the address space, but its end is held against the next file only. A
look-up clears the bits above the address space, so the addresses behind its top are those at its
bottom once more, and what is found there is what lies at the bottom. At most the last file in order
has bytes that are out of reach.
-/

namespace PortWire

theorem File.start_lt_space (f : File) : f.start < Address.space :=
  Nat.lt_succ_of_le f.info.start_le_mask

namespace FileMap

/-- A look-up at the address of a byte, as far as 32 bits hold it, comes to the file. -/
def Reaches (m : FileMap) (f : File) (offset : Nat) : Prop :=
  (m.findAddress (UInt32.ofNat (f.start + offset))).1 = some f

instance (m : FileMap) (f : File) (offset : Nat) : Decidable (m.Reaches f offset) :=
  inferInstanceAs (Decidable (_ = _))

variable {m : FileMap} {f : File}

theorem contains_of_scan {address : UInt32} (found : m.scan address = some f) :
    f.info.Contains (Address.internal address).toNat := by
  have satisfied := List.find?_some found
  exact of_decide_eq_true satisfied

section Resident

variable (spaced : Spaced m.entries) (resident : f ∈ m.files)

include spaced resident

theorem reaches_iff {offset : Nat} (inside : offset < f.info.length.toNat) :
    m.Reaches f offset ↔ f.start ≤ (f.start + offset) % Address.space := by
  have wrapped := toNat_internal_ofNat (f.start + offset)
  rw [Reaches, findAddress_eq_scan spaced]
  constructor
  · intro found
    have contained := (contains_of_scan found).1
    rw [wrapped] at contained
    exact contained
  · intro high
    apply scan_eq_some spaced resident
    rw [wrapped]
    -- Taking the remainder only lowers the address, so it stays in front of the end.
    have low := Nat.mod_le (f.start + offset) Address.space
    have ends : f.start + offset < f.info.stop := Nat.add_lt_add_left inside f.start
    exact ⟨high, Nat.lt_of_le_of_lt low ends⟩

theorem reaches_all_iff :
    (∀ offset < f.info.length.toNat, m.Reaches f offset) ↔
      f.stop ≤ Address.space ∨ f.start = 0 := by
  have stop : f.stop = f.start + f.info.length.toNat := rfl
  constructor
  · intro reaches
    by_contra beyond
    obtain ⟨long, high⟩ := not_or.mp beyond
    -- The first byte behind the top has the address zero.
    have start := f.start_lt_space
    have inside : Address.space - f.start < f.info.length.toNat := by omega
    have first := (reaches_iff spaced resident inside).mp (reaches _ inside)
    have top : f.start + (Address.space - f.start) = Address.space := by omega
    rw [top, Nat.mod_self] at first
    omega
  · rintro (fits | bottom) offset inside
    · apply (reaches_iff spaced resident inside).mpr
      have below : f.start + offset < Address.space := by omega
      rw [Nat.mod_eq_of_lt below]
      omega
    · apply (reaches_iff spaced resident inside).mpr
      omega

theorem stop_le_space_or_last : f.stop ≤ Address.space ∨ m.files.getLast? = some f := by
  obtain ⟨front, back, parts⟩ := List.append_of_mem resident
  cases back with
  | nil =>
    right
    rw [parts, List.getLast?_concat]
  | cons next rest =>
    left
    have files := spaced_files spaced
    rw [parts] at files
    have following := (List.pairwise_append.mp files).2.1
    have apart := (List.pairwise_cons.mp following).1 next List.mem_cons_self
    exact Nat.le_trans apart (Nat.le_of_lt next.start_lt_space)

end Resident

/-- On any map that was reached, a byte of a resident file is found at its address unless the
address space comes to an end before it and the remainder lies in front of the file. So all bytes of
a file that ends within the space are found, and the last file is the only one that may not. -/
theorem resident_bytes_found {layout : Layout} {m : FileMap} (made : ofLayout layout = .ok m)
    (commands : List Command) {f : File} (resident : f ∈ (m.session commands).files) :
    let reached := m.session commands
    (∀ offset < f.info.length.toNat,
      reached.Reaches f offset ↔ f.start ≤ (f.start + offset) % Address.space) ∧
      ((∀ offset < f.info.length.toNat, reached.Reaches f offset) ↔
        f.stop ≤ Address.space ∨ f.start = 0) ∧
      (f.stop ≤ Address.space ∨ reached.files.getLast? = some f) := by
  intro reached
  have spaced : Spaced reached.entries := spaced_reached made commands
  refine ⟨?_, reaches_all_iff spaced resident, stop_le_space_or_last spaced resident⟩
  intro offset inside
  exact reaches_iff spaced resident inside

/-- The last file reaches sixteen bytes beyond the top, where a look-up comes to the first file. -/
theorem bytes_behind_top_belong_to_first :
    let m : FileMap := { layout := {} }
    let first : File := ⟨{ address := 0, length := 0x10, name := "first" }, .inData⟩
    let top : File := ⟨{ address := 0xBFFF_FFF0, length := 0x20, name := "top" }, .unknown⟩
    let reached := m.session [.insert top, .insert first]
    ofLayout {} = .ok m ∧ top ∈ reached.files ∧ reached.Reaches top 0xF ∧
      ¬ reached.Reaches top 0x10 ∧ (reached.findAddress 0x4000_0000).1 = some first ∧
      ¬ (top.stop ≤ Address.space ∨ top.start = 0) ∧ reached.files.getLast? = some top := by
  intro m first top reached
  have made : ofLayout {} = .ok m := rfl
  have resident : top ∈ reached.files := by decide
  obtain ⟨bytes, all, last⟩ :=
    resident_bytes_found made [.insert top, .insert first] resident
  have lost : ¬ reached.Reaches top 0x10 := by
    intro found
    have high := (bytes 0x10 (by decide)).mp found
    exact absurd high (by decide)
  refine ⟨made, resident, (bytes 0xF (by decide)).mpr (by decide), lost, by decide, ?_, ?_⟩
  · exact fun whole => lost (all.mpr whole 0x10 (by decide))
  · exact last.resolve_left (by decide)

/-- A file of two bytes is admitted at the last address, and its second byte is not found. -/
theorem byte_behind_top_not_found :
    let m : FileMap := { layout := {} }
    let top : File := ⟨{ address := 0x3FFF_FFFF, length := 2, name := "top" }, .custom⟩
    let reached := m.session [.insert top]
    ofLayout {} = .ok m ∧ reached.files = [top] ∧
      0x4000_0000 < top.start + top.info.length.toNat ∧ 1 < top.info.length.toNat ∧
      (reached.findAddress 0x4000_0000).1 = none ∧ ¬ reached.Reaches top 1 := by
  intro m top reached
  exact ⟨rfl, by decide, by decide, by decide, by decide, by decide⟩

end FileMap

end PortWire
