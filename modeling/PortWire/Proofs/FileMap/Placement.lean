import PortWire.Proofs.FileMap.Regions

/-!
# Files that bring no address

Of a file that is placed in its region only the start is held against the end of the region. So it
starts in the region and overlaps no other file, but a long one may reach beyond the region, and how
long it is has no part in whether the region counts as full.
-/

namespace PortWire.FileMap

/-- Files start in the region, and every multiple of the boundary behind all of them lies behind the
region. -/
def Full (m : FileMap) (r : Region) : Prop :=
  m.residents r ≠ [] ∧
    ∀ a, r.boundary.toNat ∣ a → (∀ g ∈ m.residents r, g.stop ≤ a) → r.stop.toNat ≤ a

theorem full_iff {m : FileMap} (spaced : Spaced m.entries) {r : Region} (sound : r.Sound) :
    m.Full r ↔ r.stop.toNat ≤ m.candidate r := by
  rcases candidate_spec spaced sound with ⟨empty, first⟩ | ⟨occupied, multiple, behind, least⟩
  · have room := sound.start_lt_stop
    refine ⟨fun full => absurd empty full.1, fun beyond => ?_⟩
    omega
  · constructor
    · exact fun full => full.2 _ multiple behind
    · exact fun beyond => ⟨occupied, fun a ha hg => Nat.le_trans beyond (least a ha hg)⟩

theorem gap_ne_regionFull {m : FileMap} {info : FileInfo} {start stop : UInt32} :
    m.gap info ≠ .error (.regionFull start stop) := by
  intro h
  unfold gap at h
  dsimp only at h
  split at h
  · cases h
  · split at h <;> cases h

/-- A file that was admitted overlaps none of the others. -/
theorem apart_of_gap {m : FileMap} {f : File} {before behind : List Entry}
    (spaced : Spaced m.entries) (h : m.gap f.info = .ok (before, behind)) :
    ∀ g ∈ m.files, f.stop ≤ g.start ∨ g.stop ≤ f.start := by
  obtain ⟨parts, _, _⟩ := gap_eq_ok h
  have together := spaced_of_gap ⟨m.nextId⟩ spaced h
  obtain ⟨_, following, across⟩ := List.pairwise_append.mp together
  intro g hg
  obtain ⟨e, he, rfl⟩ := List.mem_map.mp hg
  rw [parts] at he
  rcases List.mem_append.mp he with earlier | later
  · exact Or.inr (across e earlier _ List.mem_cons_self)
  · exact Or.inl ((List.pairwise_cons.mp following).1 e later)

variable {m : FileMap} {f : File} {r : Region}

theorem insert_unassigned_eq_ok (spaced : Spaced m.entries) (sound : r.Sound)
    (unassigned : f.info.isUnassigned) (owned : m.layout.regionFor f.type = some r)
    {id : FileId} {next : FileMap} (h : m.insert f = .ok (id, next)) :
    next.files.Perm (m.settled r f :: m.files) ∧ m.candidate r < r.stop.toNat ∧
      ∀ g ∈ m.files, (m.settled r f).stop ≤ g.start ∨ g.stop ≤ (m.settled r f).start := by
  obtain ⟨placed, before, behind, located, admitted, _, _⟩ := insert_eq_ok h
  obtain ⟨placed', located', _, _, entries⟩ := mem_insert h
  rw [locate_unassigned spaced sound unassigned owned] at located located'
  by_cases room : m.candidate r < r.stop.toNat
  · rw [if_pos room] at located located'
    obtain rfl := Except.ok.inj located
    obtain rfl := Except.ok.inj located'
    exact ⟨entries.map _, room, apart_of_gap spaced admitted⟩
  · rw [if_neg room] at located
    cases located

theorem insert_eq_regionFull_iff (spaced : Spaced m.entries) (sound : r.Sound)
    (unassigned : f.info.isUnassigned) (owned : m.layout.regionFor f.type = some r) :
    m.insert f = .error (.regionFull r.start r.stop) ↔ r.stop.toNat ≤ m.candidate r := by
  rw [insert, locate_unassigned spaced sound unassigned owned]
  by_cases room : m.candidate r < r.stop.toNat
  · simp only [if_pos room, Nat.not_le.mpr room, iff_false]
    cases h : m.gap (m.settled r f).info with
    | ok parts => simp
    | error e =>
      simp only [Except.error.injEq]
      rintro rfl
      exact gap_ne_regionFull h
  · simp only [if_neg room, Nat.not_lt.mp room]

theorem placedAs_settled (unassigned : f.info.isUnassigned) : f.PlacedAs (m.settled r f) := by
  refine ⟨UInt32.ofNat (m.candidate r), rfl, ?_⟩
  rw [unassigned]
  exact fun assigned => absurd assigned.symm Bool.false_ne_true

/-- A file that starts in a region lies in it altogether just if it ends there. -/
theorem within_iff {placed : File} (inside : r.Contains placed.start) :
    (∀ address, placed.info.Contains address → r.Contains address) ↔
      placed.stop ≤ r.stop.toNat := by
  obtain ⟨low, high⟩ := inside
  constructor
  · intro within
    by_contra beyond
    have reaches : placed.info.Contains r.stop.toNat := by
      refine ⟨Nat.le_of_lt high, ?_⟩
      simp only [File.stop] at beyond
      omega
    exact Nat.lt_irrefl _ (within _ reaches).2
  · rintro ends address ⟨first, last⟩
    simp only [File.start, File.stop] at low ends
    exact ⟨Nat.le_trans low first, Nat.lt_of_lt_of_le last ends⟩

theorem spaced_reached {layout : Layout} {m : FileMap} (made : ofLayout layout = .ok m)
    (commands : List Command) : Spaced (m.session commands).entries := by
  refine spaced_session commands ?_
  rw [entries_ofLayout made]
  exact List.Pairwise.nil

theorem validate_of_made {layout : Layout} {m : FileMap} (made : ofLayout layout = .ok m) :
    layout.validate = .ok () := by
  unfold ofLayout at made
  split at made
  · cases made
  · assumption

theorem exists_of_isOk {ε α : Type} {result : Except ε α} (h : result.isOk) :
    ∃ a, result = .ok a := by
  cases result with
  | error e => cases h
  | ok a => exact ⟨a, rfl⟩

/-- On any map that was reached, a file without an address is given one that starts it in its region
and keeps it clear of the other files. It lies in the region altogether just if it ends there. The
region counts as full for files of every length or of none. -/
theorem unassigned_files_start_in_region {layout : Layout} {m : FileMap}
    (made : ofLayout layout = .ok m) (commands : List Command) {f : File} {r : Region}
    (unassigned : f.info.isUnassigned) (owned : layout.regionFor f.type = some r) :
    let reached := m.session commands
    (∀ id next, reached.insert f = .ok (id, next) →
      ∃ placed, f.PlacedAs placed ∧ next.files.Perm (placed :: reached.files) ∧
        r.Contains placed.start ∧
        (∀ g ∈ reached.files, placed.stop ≤ g.start ∨ g.stop ≤ placed.start) ∧
        ((∀ address, placed.info.Contains address → r.Contains address) ↔
          placed.stop ≤ r.stop.toNat)) ∧
    (reached.insert f = .error (.regionFull r.start r.stop) ↔ reached.Full r) := by
  intro reached
  have spaced : Spaced reached.entries := spaced_reached made commands
  have sound : r.Sound := Layout.sound_of_validate (validate_of_made made) owned
  have owned' : reached.layout.regionFor f.type = some r := by
    rw [layout_session, ofLayout_eq_ok made]
    exact owned
  constructor
  · intro id next inserted
    obtain ⟨files, room, apart⟩ := insert_unassigned_eq_ok spaced sound unassigned owned' inserted
    have inside := contains_settled spaced sound room f
    exact ⟨_, placedAs_settled unassigned, files, inside, apart, within_iff inside⟩
  · rw [insert_eq_regionFull_iff spaced sound unassigned owned', full_iff spaced sound]

/-- Behind a file that ends in the middle of a kilobyte, and with the remote flag on another. -/
theorem third_file_starts_in_region :
    let m : FileMap := { layout := {} }
    let reached := m.session
      [.insert ⟨{ length := 0x401, name := "first" }, .inData⟩,
        .insert ⟨{ address := 0x8000_0A00, length := 1, name := "remote" }, .unknown⟩]
    let f : File := ⟨{ length := 0x400, name := "third" }, .outData⟩
    ofLayout {} = .ok m ∧ f.info.isUnassigned ∧
      Layout.regionFor {} f.type = some ⟨0, 0x400_0000, 0x400⟩ ∧
      ¬ reached.Full ⟨0, 0x400_0000, 0x400⟩ ∧
      ∃ id next placed, reached.insert f = .ok (id, next) ∧ f.PlacedAs placed ∧
        next.files.Perm (placed :: reached.files) ∧
        Region.Contains ⟨0, 0x400_0000, 0x400⟩ placed.start := by
  intro m reached f
  have made : ofLayout {} = .ok m := rfl
  obtain ⟨placing, full⟩ := unassigned_files_start_in_region made
    [.insert ⟨{ length := 0x401, name := "first" }, .inData⟩,
      .insert ⟨{ address := 0x8000_0A00, length := 1, name := "remote" }, .unknown⟩]
    (f := f) rfl (r := ⟨0, 0x400_0000, 0x400⟩) rfl
  have accepted : (reached.insert f).isOk := by decide
  obtain ⟨⟨id, next⟩, inserted⟩ := exists_of_isOk accepted
  obtain ⟨placed, as, files, inside, _⟩ := placing id next inserted
  refine ⟨made, rfl, rfl, ?_, id, next, placed, inserted, as, files, inside⟩
  intro isFull
  have refused := full.mpr isFull
  rw [inserted] at refused
  cases refused

/-- One byte longer than its region, the first file is placed there all the same and ends in the
region of definitions. -/
theorem wide_file_leaves_region :
    let m : FileMap := { layout := {} }
    let wide : File := ⟨{ length := 0x400_0001, name := "wide" }, .inData⟩
    ofLayout {} = .ok m ∧ wide.info.isUnassigned ∧
      Layout.regionFor {} wide.type = some ⟨0, 0x400_0000, 0x400⟩ ∧
      ∃ id next placed, m.insert wide = .ok (id, next) ∧ next.files = [placed] ∧
        placed.info.Contains 0x400_0000 ∧
        ¬ Region.Contains ⟨0, 0x400_0000, 0x400⟩ 0x400_0000 ∧
        (Layout.definition {}).Contains 0x400_0000 := by
  refine ⟨rfl, rfl, rfl, _, _, _, rfl, rfl, ?_, ?_, ?_⟩ <;> decide

end PortWire.FileMap
