import PortWire.Proofs.FileMap.Admission
import PortWire.Proofs.FileMap.Allocation

/-!
# Insertion and removal undo each other

A file that was inserted has a handle of its own, so removing it takes out its entry and no other.
The other way round, a file that is not empty goes back between the entries that it came from. Those
in front of it start no later, an empty one at the same address included, and those behind start
where it ends or later. For a file of no length this would not do: what stands behind it may start
at the same address, and then it is refused.
-/

namespace PortWire.FileMap

/-! ## Resident files have addresses -/

/-- No resident file has the address that is set aside for files without one. -/
def Assigned (m : FileMap) : Prop :=
  ∀ f ∈ m.files, f.info.isUnassigned = false

theorem assigned_of_locate {m : FileMap} (spaced : Spaced m.entries)
    (valid : m.layout.validate = .ok ()) {f g : File} (located : m.locate f = .ok g) :
    g.info.isUnassigned = false := by
  rcases locate_eq_ok spaced valid located with ⟨assigned, rfl⟩ | ⟨_, r, _, sound, room, rfl⟩
  · exact assigned
  · exact decide_eq_false (settled_plain sound room f).2

theorem assigned_perform {m : FileMap} (spaced : Spaced m.entries)
    (valid : m.layout.validate = .ok ()) (assigned : Assigned m) (command : Command) :
    Assigned (m.perform command).2 := by
  rcases m.performed command with ⟨f, id, _, inserted, _⟩ | ⟨_, _, entries⟩
  · obtain ⟨g, located, _, _, entries⟩ := mem_insert inserted
    have files : (m.perform command).2.files.Perm (g :: m.files) := entries.map _
    intro h hh
    rcases List.mem_cons.mp (files.mem_iff.mp hh) with rfl | old
    · exact assigned_of_locate spaced valid located
    · exact assigned h old
  · have files : (m.perform command).2.files.Sublist m.files := by
      rw [FileMap.files, entries]
      exact (m.kept_sublist command).map _
    exact fun h hh => assigned h (files.subset hh)

theorem assigned_session {m : FileMap} (spaced : Spaced m.entries)
    (valid : m.layout.validate = .ok ()) (assigned : Assigned m) (commands : List Command) :
    Assigned (m.session commands) := by
  induction commands generalizing m with
  | nil => exact assigned
  | cons command rest ih =>
    apply ih (spaced_perform command spaced)
    · rw [layout_perform]
      exact valid
    · exact assigned_perform spaced valid assigned command

theorem assigned_reached {layout : Layout} {m : FileMap} (made : ofLayout layout = .ok m)
    (commands : List Command) : Assigned (m.session commands) := by
  have valid := validate_of_made made
  obtain rfl := ofLayout_eq_ok made
  have spaced : Spaced { layout := layout : FileMap }.entries := List.Pairwise.nil
  have fresh : Assigned { layout := layout } := fun f hf => absurd hf List.not_mem_nil
  exact assigned_session spaced valid fresh commands

/-! ## Back and forth -/

variable {m : FileMap} {before behind : List Entry} {e : Entry}

/-- No other entry has the same handle, so it is this one that is found and taken out. -/
theorem remove_between (numbered : Numbered m) (parts : m.entries = before ++ e :: behind) :
    (m.remove e.id).1 = some e.file ∧ (m.remove e.id).2.entries = before ++ behind := by
  have others : ∀ x ∈ before, x.id ≠ e.id := by
    have distinct := numbered.distinct
    rw [handles, parts, List.map_append, List.map_cons] at distinct
    intro x hx
    exact (List.nodup_append.mp distinct).2.2 _ (List.mem_map_of_mem hx) _ List.mem_cons_self
  have resident : e ∈ m.entries := by
    rw [parts]
    exact List.mem_append_right _ List.mem_cons_self
  constructor
  · exact (get?_eq_some_iff numbered).mpr resident
  · have rest : (before ++ e :: behind).eraseP (fun x => x.id = e.id) = before ++ behind := by
      rw [List.eraseP_append_right _ (by simpa using others),
        List.eraseP_cons_of_pos (by simp)]
    rw [← rest, ← parts]
    rfl

/-- A file is admitted between entries that end where it starts and others that start where it
ends, or further away. -/
theorem insert_around {f : File} (spaced : Spaced m.entries)
    (assigned : f.info.isUnassigned = false) (around : m.Around f.start before behind)
    (ends : ∀ x ∈ before, x.file.stop ≤ f.start) (starts : ∀ x ∈ behind, f.stop ≤ x.file.start) :
    ∃ id next, m.insert f = .ok (id, next) ∧ next.entries = before ++ ⟨id, f⟩ :: behind := by
  have free : ¬ m.Occupied f.start := by
    rw [occupied_iff spaced around]
    rintro ⟨x, hx, reaches⟩
    exact Nat.not_lt.mpr (ends x (List.mem_of_mem_getLast? hx)) reaches
  have whole : ¬ m.CutsShort f.info := by
    rw [cutsShort_iff spaced around]
    rintro ⟨x, hx, reaches⟩
    exact Nat.not_lt.mpr (starts x (List.mem_of_mem_head? hx)) reaches
  have admitted := admitted_of_locate spaced (locate_assigned assigned)
  obtain ⟨id, next, _, _, inserted, place, entries⟩ := admitted.exists_place free whole
  obtain ⟨rfl, rfl⟩ := around.unique place
  exact ⟨id, next, inserted, entries⟩

/-- A file that is not empty goes back where it was. -/
theorem insert_between (spaced : Spaced (before ++ e :: behind))
    (assigned : e.file.info.isUnassigned = false) (filled : e.file.info.length ≠ 0)
    (parts : m.entries = before ++ behind) :
    ∃ id next, m.insert e.file = .ok (id, next) ∧
      next.entries = before ++ ⟨id, e.file⟩ :: behind := by
  obtain ⟨inFront, following, across⟩ := List.pairwise_append.mp spaced
  obtain ⟨starts, inBack⟩ := List.pairwise_cons.mp following
  have ends : ∀ x ∈ before, x.file.stop ≤ e.file.start :=
    fun x hx => across x hx e List.mem_cons_self
  have remaining : Spaced m.entries := by
    rw [parts]
    apply List.pairwise_append.mpr
    exact ⟨inFront, inBack, fun a ha b hb => across a ha b (List.mem_cons_of_mem e hb)⟩
  have around : m.Around e.file.start before behind := by
    have extent := e.file.start_lt_stop filled
    constructor
    case parts => exact parts
    case low => exact fun x hx => Nat.le_trans x.file.start_le_stop (ends x hx)
    case high => exact fun x hx => Nat.lt_of_lt_of_le extent (starts x hx)
  exact insert_around remaining assigned around ends starts

/-- On any map that was reached, removing a file that was just inserted gives it back as it was
placed and leaves the entries that were there before. And a resident file that is not empty can be
removed and inserted again: it keeps its address and its place in the list, under a new handle. -/
theorem insertion_and_removal_undo {layout : Layout} {m : FileMap} (made : ofLayout layout = .ok m)
    (commands : List Command) :
    let reached := m.session commands
    (∀ f id next, reached.insert f = .ok (id, next) →
      ∃ placed, f.PlacedAs placed ∧ next.get? id = some placed ∧
        (next.remove id).1 = some placed ∧ (next.remove id).2.entries = reached.entries) ∧
      ∀ e ∈ reached.entries, e.file.info.length ≠ 0 →
        (reached.remove e.id).1 = some e.file ∧
          ∃ id next, (reached.remove e.id).2.insert e.file = .ok (id, next) ∧
            (∃ before behind, reached.entries = before ++ e :: behind ∧
              next.entries = before ++ ⟨id, e.file⟩ :: behind) ∧
            next.infos = reached.infos := by
  intro reached
  have spaced : Spaced reached.entries := spaced_reached made commands
  have numbered : Numbered reached := numbered_reached made commands
  have assigned : Assigned reached := assigned_reached made commands
  constructor
  · intro f id next inserted
    obtain ⟨placed, before, behind, located, admitted, _, result⟩ := insert_eq_ok inserted
    obtain ⟨parts, _, _⟩ := gap_eq_ok admitted
    have entries : next.entries = before ++ ⟨id, placed⟩ :: behind := by rw [result]
    obtain ⟨given, rest⟩ := remove_between (numbered.insert inserted) entries
    exact ⟨placed, placedAs_of_locate located, given, given, rest.trans parts.symm⟩
  · intro e resident filled
    obtain ⟨before, behind, parts⟩ := List.append_of_mem resident
    obtain ⟨given, rest⟩ := remove_between numbered parts
    have own := assigned e.file (List.mem_map_of_mem resident)
    obtain ⟨id, next, inserted, entries⟩ := insert_between (parts ▸ spaced) own filled rest
    refine ⟨given, id, next, inserted, ⟨before, behind, parts, entries⟩, ?_⟩
    simp only [infos, files, entries, parts, List.map_append, List.map_cons]

/-- An empty file that stood in front of another one does not get back to the start of that. -/
example :
    let blank : File := ⟨{ address := 0x400, length := 0, name := "blank" }, .unknown⟩
    let full : File := ⟨{ address := 0x400, length := 1, name := "full" }, .unknown⟩
    let reached := session { layout := {} } [.insert blank, .insert full]
    reached.files = [blank, full] ∧
      (reached.remove ⟨0⟩).2.insert blank = .error (.addressInUse 0x400) := by
  decide

/-- A file without an address is placed at that of an empty one, and a third one stands where it
ends. It is removed and inserted again, and a fourth is inserted and removed. -/
theorem file_returns_between_neighbours :
    let m : FileMap := { layout := {} }
    let blank : File := ⟨{ address := 0x400, length := 0, name := "blank" }, .unknown⟩
    let commands : List Command :=
      [.insert blank, .insert ⟨{ length := 0x400, name := "local" }, .outData⟩,
        .insert ⟨{ address := 0x4000_0800, length := 1, name := "behind" }, .unknown⟩]
    let reached := m.session commands
    let e : Entry := ⟨⟨1⟩, ⟨{ address := 0x400, length := 0x400, name := "local" }, .outData⟩⟩
    let f : File := ⟨{ length := 5, name := "fourth" }, .inData⟩
    ofLayout {} = .ok m ∧ e ∈ reached.entries ∧ e.file.info.length ≠ 0 ∧
      (reached.remove ⟨1⟩).1 = some e.file ∧
      (∃ id next, (reached.remove ⟨1⟩).2.insert e.file = .ok (id, next) ∧
        next.infos = reached.infos) ∧
      ∃ id next placed, reached.insert f = .ok (id, next) ∧ f.PlacedAs placed ∧
        (next.remove id).1 = some placed ∧ (next.remove id).2.entries = reached.entries := by
  intro m blank commands reached e f
  have made : ofLayout {} = .ok m := rfl
  have resident : e ∈ reached.entries := by decide
  have filled : e.file.info.length ≠ 0 := by decide
  obtain ⟨removing, inserting⟩ := insertion_and_removal_undo made commands
  obtain ⟨given, id, next, again, _, infos⟩ := inserting e resident filled
  have accepted : (reached.insert f).isOk := by decide
  obtain ⟨⟨newId, grown⟩, inserted⟩ := exists_of_isOk accepted
  obtain ⟨placed, as, _, handed, entries⟩ := removing f newId grown inserted
  exact ⟨made, resident, filled, given, ⟨id, next, again, infos⟩, newId, grown, placed, inserted,
    as, handed, entries⟩

end PortWire.FileMap
