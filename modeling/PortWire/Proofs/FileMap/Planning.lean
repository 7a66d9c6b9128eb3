import PortWire.Proofs.FileMap.Placement

/-!
# Placing many files

Files placed one after the other in a map lie there each once, next to those that were there before:
as they are, or at an address in their region if they brought none. Placing stops at the first file
that is refused. The order in which the files were given is that of their placing, not that of their
addresses.
-/

namespace PortWire.FileMap

/-- `g` is the file `f` after its placing: a file without an address has one in its region. -/
def PlannedAs (layout : Layout) (f g : File) : Prop :=
  f.PlacedAs g ∧
    (f.info.isUnassigned →
      ∃ r, layout.regionFor f.type = some r ∧ r.Contains g.info.address.toNat)

/-- The first error of a plan: the flaw of the layout, or that of the first file that is refused by
a map with all the files before it. -/
def FirstFailure (layout : Layout) (files : List File) (e : PlacementError) : Prop :=
  layout.validate = .error e ∨
    layout.validate = .ok () ∧ ∃ earlier f later reached, files = earlier ++ f :: later ∧
      insertAll earlier { layout := layout } = .ok reached ∧ reached.insert f = .error e

theorem insert_planned {m next : FileMap} {f : File} {id : FileId} (spaced : Spaced m.entries)
    (valid : m.layout.validate = .ok ()) (h : m.insert f = .ok (id, next)) :
    ∃ g, PlannedAs m.layout f g ∧ next.files.Perm (g :: m.files) := by
  obtain ⟨g, located, _, _, entries⟩ := mem_insert h
  refine ⟨g, ⟨placedAs_of_locate located, fun unassigned => ?_⟩, entries.map _⟩
  rcases locate_eq_ok spaced valid located with ⟨assigned, _⟩ | ⟨_, r, owned, sound, room, rfl⟩
  · exact absurd (assigned.symm.trans unassigned) Bool.false_ne_true
  · refine ⟨r, owned, ?_⟩
    rw [settled_address_toNat room]
    exact ⟨start_le_candidate spaced sound, room⟩

theorem insertAll_planned {files : List File} {m reached : FileMap} (spaced : Spaced m.entries)
    (valid : m.layout.validate = .ok ()) (h : insertAll files m = .ok reached) :
    ∃ placed, List.Forall₂ (PlannedAs m.layout) files placed ∧
      reached.files.Perm (placed ++ m.files) ∧ Spaced reached.entries := by
  induction files generalizing m with
  | nil =>
    cases h
    exact ⟨[], .nil, List.Perm.refl _, spaced⟩
  | cons f rest ih =>
    rw [insertAll] at h
    split at h
    · cases h
    · next id next inserted =>
      obtain ⟨g, planned, files⟩ := insert_planned spaced valid inserted
      obtain ⟨_, _, _, _, _, _, made⟩ := insert_eq_ok inserted
      have spaced' : Spaced next.entries := spaced_insert spaced inserted
      -- The layout stays, so the later files have the regions that they have in the first map.
      have layout : next.layout = m.layout := by rw [made]
      obtain ⟨others, allPlanned, all, spacedEnd⟩ := ih spaced' (layout ▸ valid) h
      rw [layout] at allPlanned
      exact ⟨g :: others, .cons planned allPlanned,
        (all.trans (files.append_left others)).trans List.perm_middle, spacedEnd⟩

theorem insertAll_append (earlier later : List File) (m : FileMap) :
    insertAll (earlier ++ later) m =
      match insertAll earlier m with
      | .error e => .error e
      | .ok reached => insertAll later reached := by
  induction earlier generalizing m with
  | nil => rfl
  | cons f rest ih =>
    rw [List.cons_append, insertAll, insertAll]
    split
    · rfl
    · exact ih _

theorem insertAll_eq_error_iff {files : List File} {m : FileMap} {e : PlacementError} :
    insertAll files m = .error e ↔
      ∃ earlier f later reached, files = earlier ++ f :: later ∧
        insertAll earlier m = .ok reached ∧ reached.insert f = .error e := by
  constructor
  · intro h
    induction files generalizing m with
    | nil => cases h
    | cons f rest ih =>
      rw [insertAll] at h
      split at h
      · next refused =>
        cases h
        exact ⟨[], f, rest, m, rfl, rfl, refused⟩
      · next inserted =>
        obtain ⟨earlier, g, later, reached, rfl, placed, refused⟩ := ih h
        refine ⟨f :: earlier, g, later, reached, rfl, ?_, refused⟩
        rw [insertAll, inserted]
        exact placed
  · rintro ⟨earlier, f, later, reached, rfl, placed, refused⟩
    rw [insertAll_append, placed]
    simp only [insertAll, refused]

/-- What a plan that succeeds lists. -/
structure Planned (layout : Layout) (files : List File) (infos : List FileInfo) : Prop where
  /-- Each file once, as it was or with an address of its region. -/
  rearranged : ∃ placed, List.Forall₂ (PlannedAs layout) files placed ∧
    infos.Perm (placed.map File.info)
  sorted : infos.Pairwise fun a b => a.start ≤ b.start
  disjoint : infos.Pairwise fun a b => ∀ address, ¬ (a.Contains address ∧ b.Contains address)

theorem planned_insertAll {layout : Layout} (valid : layout.validate = .ok ()) {files : List File}
    {reached : FileMap} (h : insertAll files { layout := layout } = .ok reached) :
    Planned layout files reached.infos := by
  have fresh : Spaced { layout := layout : FileMap }.entries := List.Pairwise.nil
  obtain ⟨placed, planned, all, spaced⟩ := insertAll_planned fresh valid h
  have apart : reached.infos.Pairwise fun a b => a.stop ≤ b.start := by
    rw [infos, List.pairwise_map, FileMap.files, List.pairwise_map]
    exact spaced
  constructor
  case rearranged =>
    refine ⟨placed, planned, ?_⟩
    have none_before : FileMap.files { layout := layout } = [] := rfl
    rw [none_before, List.append_nil] at all
    exact all.map _
  case sorted => exact apart.imp fun {a b} hab => Nat.le_trans a.start_le_stop hab
  case disjoint =>
    refine apart.imp ?_
    rintro a b hab address ⟨inA, inB⟩
    exact Nat.lt_irrefl _ (Nat.lt_of_lt_of_le inA.2 (Nat.le_trans hab inB.1))

end PortWire.FileMap
