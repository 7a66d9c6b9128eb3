import PortWire.Proofs.FileMap.Room

/-!
# Files that start at one address

A file of no length takes up nothing, so ranges can be apart and yet start at one address. This is
the only way: of two resident files with one start, the one in front is empty. It holds for files
with an address and for those that are given one, as an empty file at a boundary leaves the boundary
itself for the next file of its region.
-/

namespace PortWire.FileMap

theorem empty_of_same_start {a b : File} (apart : a.stop ≤ b.start) (same : a.start = b.start) :
    a.info.length = 0 := by
  by_contra filled
  have := a.start_lt_stop filled
  omega

/-- A file that was placed starts in no other, and none starts in it. -/
theorem free_of_insert {m next : FileMap} {f : File} {id : FileId} (spaced : Spaced m.entries)
    (inserted : m.insert f = .ok (id, next)) :
    ∃ placed, m.locate f = .ok placed ∧ next.entries.Perm (⟨id, placed⟩ :: m.entries) ∧
      ¬ m.Occupied placed.start ∧ ¬ m.CutsShort placed.info := by
  obtain ⟨placed, located, _, _, entries⟩ := mem_insert inserted
  have admitted := admitted_of_locate spaced located
  exact ⟨placed, located, entries, admitted.placed_iff.mp ⟨id, next, inserted⟩⟩

/-- The next file of a region comes to stand where another starts if that is at a boundary and
behind all files of the region, the other one included. -/
theorem candidate_eq_start_iff {m : FileMap} {r : Region} (spaced : Spaced m.entries)
    (sound : r.Sound) {g : File} (own : g ∈ m.residents r) :
    m.candidate r = g.start ↔
      r.boundary.toNat ∣ g.start ∧ ∀ h ∈ m.residents r, h.stop ≤ g.start := by
  have occupied : m.residents r ≠ [] := List.ne_nil_of_mem own
  constructor
  · intro same
    have least := (isNext_candidate spaced sound).least occupied
    rw [same] at least
    exact least.1
  · rintro ⟨multiple, behind⟩
    apply candidate_eq spaced sound
    constructor
    case first => exact fun empty => absurd empty occupied
    case least =>
      intro _
      refine ⟨⟨multiple, behind⟩, ?_⟩
      rintro a ⟨_, clear⟩
      exact Nat.le_trans g.start_le_stop (clear g own)

/-- On any map that was reached, two files start at one address only if the one in front is empty.
A file is placed at the start of a resident one only if that one is empty. A file that brings no
address is placed at the start of another one of its region just if that lies at a boundary and no
file of the region ends behind it. -/
theorem resident_starts_distinct {layout : Layout} {m : FileMap} (made : ofLayout layout = .ok m)
    (commands : List Command) :
    let reached := m.session commands
    (reached.files.Pairwise fun a b => a.start = b.start → a.info.length = 0) ∧
      ∀ f id next, reached.insert f = .ok (id, next) →
        ∃ placed, f.PlacedAs placed ∧ next.entries.Perm (⟨id, placed⟩ :: reached.entries) ∧
          (∀ g ∈ reached.files, placed.start = g.start → g.info.length = 0) ∧
          ∀ r, f.info.isUnassigned → layout.regionFor f.type = some r →
            ∀ g ∈ reached.residents r, placed.start = g.start ↔
              r.boundary.toNat ∣ g.start ∧ ∀ h ∈ reached.residents r, h.stop ≤ g.start := by
  intro reached
  have spaced : Spaced reached.entries := spaced_reached made commands
  have sameLayout : reached.layout = layout := by rw [layout_session, ofLayout_eq_ok made]
  constructor
  · exact (spaced_files spaced).imp empty_of_same_start
  intro f id next inserted
  obtain ⟨placed, located, entries, free, _⟩ := free_of_insert spaced inserted
  refine ⟨placed, placedAs_of_locate located, entries, ?_, ?_⟩
  · intro g hg same
    by_contra filled
    have reaches := g.start_lt_stop filled
    rw [← same] at reaches
    exact free ⟨g, hg, Nat.le_of_eq same.symm, reaches⟩
  · intro r unassigned owned g own
    have sound : r.Sound := Layout.sound_of_validate (validate_of_made made) owned
    rw [← sameLayout] at owned
    rw [locate_unassigned spaced sound unassigned owned] at located
    split at located
    · next room =>
      obtain rfl := Except.ok.inj located
      rw [start_settled sound room]
      exact candidate_eq_start_iff spaced sound own
    · cases located

/-- An empty file at a boundary leaves it to the next one, and a remote file of some length stands
at the start of another empty one. -/
theorem empty_file_shares_start :
    let m : FileMap := { layout := {} }
    let blank : File := ⟨{ address := 0x200, length := 0, name := "blank" }, .unknown⟩
    let remote : File := ⟨{ address := 0x8000_0200, length := 0x100, name := "remote" }, .inData⟩
    let mark : File := ⟨{ address := 0x400, length := 0, name := "mark" }, .unknown⟩
    let reached := m.session [.insert blank, .insert mark, .insert remote]
    let f : File := ⟨{ length := 1, name := "local" }, .outData⟩
    ofLayout {} = .ok m ∧ reached.files = [blank, remote, mark] ∧
      (reached.files.Pairwise fun a b => a.start = b.start → a.info.length = 0) ∧
      ∃ id next placed, reached.insert f = .ok (id, next) ∧ f.PlacedAs placed ∧
        next.entries.Perm (⟨id, placed⟩ :: reached.entries) ∧ placed.start = mark.start := by
  intro m blank remote mark reached f
  have made : ofLayout {} = .ok m := rfl
  obtain ⟨starts, placing⟩ :=
    resident_starts_distinct made [.insert blank, .insert mark, .insert remote]
  have accepted : (reached.insert f).isOk := by decide
  obtain ⟨⟨id, next⟩, inserted⟩ := exists_of_isOk accepted
  obtain ⟨placed, as, entries, _, shares⟩ := placing f id next inserted
  have atBoundary := (shares ⟨0, 0x400_0000, 0x400⟩ rfl rfl mark (by decide)).mpr (by decide)
  exact ⟨made, by decide, starts, id, next, placed, inserted, as, entries, atBoundary⟩

/-- Two empty files, one placed after the other, are both given the start of their region. -/
theorem empty_files_share_address :
    let m : FileMap := { layout := {} }
    let first : File := ⟨{ length := 0, name := "first" }, .inData⟩
    let second : File := ⟨{ length := 0, name := "second" }, .inData⟩
    let reached := m.session [.insert first, .insert second]
    ofLayout {} = .ok m ∧ first.info.isUnassigned ∧ second.info.isUnassigned ∧
      (reached.infos.map fun i => i.address) = [0, 0] ∧
      ¬ reached.files.Pairwise fun a b => a.start ≠ b.start := by
  intro m first second reached
  exact ⟨rfl, rfl, rfl, by decide, by decide⟩

end PortWire.FileMap
