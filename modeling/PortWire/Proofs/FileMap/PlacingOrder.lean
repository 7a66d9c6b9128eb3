import PortWire.Proofs.FileMap.Admission
import PortWire.Proofs.FileMap.Planning

/-!
# The order of placing

Files that bring their addresses and are not empty find room together just if no two of them share
an address, and that does not depend on the order in which they come. Which of two files is refused
does depend on it, and so does the reason. The list of resident files is the one order in which each
ends before the next one starts.
-/

namespace PortWire

/-- An address lies in both files. -/
def File.Meets (f g : File) : Prop :=
  ∃ address, f.info.Contains address ∧ g.info.Contains address

theorem File.Meets.symm {f g : File} (meet : f.Meets g) : g.Meets f := by
  obtain ⟨address, inF, inG⟩ := meet
  exact ⟨address, inG, inF⟩

namespace FileMap

theorem apart_of_spaced {m : FileMap} (spaced : Spaced m.entries) :
    m.files.Pairwise fun a b => ¬ a.Meets b := by
  refine (spaced_files spaced).imp ?_
  rintro a b apart ⟨address, ⟨_, last⟩, ⟨first, _⟩⟩
  exact Nat.lt_irrefl _ (Nat.lt_of_lt_of_le last (Nat.le_trans apart first))

theorem insert_of_apart {m : FileMap} {f : File} (spaced : Spaced m.entries)
    (assigned : f.info.isUnassigned = false) (filled : f.info.length ≠ 0)
    (others : ∀ g ∈ m.files, g.info.length ≠ 0) (apart : ∀ g ∈ m.files, ¬ f.Meets g) :
    ∃ id next, m.insert f = .ok (id, next) := by
  have admitted := admitted_of_locate spaced (locate_assigned assigned)
  apply admitted.placed_iff.mpr
  apply not_or.mp
  intro refused
  obtain ⟨g, hg, meet⟩ := (meets_iff filled others).mpr refused
  exact apart g hg meet

theorem files_insert_assigned {m next : FileMap} {f : File} {id : FileId}
    (assigned : f.info.isUnassigned = false) (inserted : m.insert f = .ok (id, next)) :
    next.files.Perm (f :: m.files) := by
  obtain ⟨placed, located, _, _, entries⟩ := mem_insert inserted
  obtain rfl := Except.ok.inj ((locate_assigned assigned).symm.trans located)
  exact entries.map _

/-- Once the first of the files is resident, the same files are to be apart as before. -/
theorem apart_next_iff {m next : FileMap} {f : File} (files : next.files.Perm (f :: m.files))
    (rest : List File) :
    (rest ++ next.files).Pairwise (fun a b => ¬ a.Meets b) ↔
      (f :: (rest ++ m.files)).Pairwise fun a b => ¬ a.Meets b := by
  have moved : (rest ++ next.files).Perm (f :: (rest ++ m.files)) :=
    (files.append_left rest).trans List.perm_middle
  exact moved.pairwise_iff fun apart meet => apart meet.symm

theorem insertAll_iff_apart {files : List File} {m : FileMap} (spaced : Spaced m.entries)
    (assigned : ∀ f ∈ files, f.info.isUnassigned = false)
    (filled : ∀ f ∈ files, f.info.length ≠ 0) (others : ∀ g ∈ m.files, g.info.length ≠ 0) :
    (∃ reached, insertAll files m = .ok reached) ↔
      (files ++ m.files).Pairwise fun a b => ¬ a.Meets b := by
  induction files generalizing m with
  | nil => exact ⟨fun _ => apart_of_spaced spaced, fun _ => ⟨m, rfl⟩⟩
  | cons f rest ih =>
    obtain ⟨firstAssigned, restAssigned⟩ := List.forall_mem_cons.mp assigned
    obtain ⟨firstFilled, restFilled⟩ := List.forall_mem_cons.mp filled
    have step : ∀ id next, m.insert f = .ok (id, next) →
        ((∃ reached, insertAll rest next = .ok reached) ↔
          (f :: (rest ++ m.files)).Pairwise fun a b => ¬ a.Meets b) := by
      intro id next inserted
      have files := files_insert_assigned firstAssigned inserted
      have filledNext : ∀ g ∈ next.files, g.info.length ≠ 0 := by
        intro g hg
        rcases List.mem_cons.mp (files.mem_iff.mp hg) with rfl | hg
        · exact firstFilled
        · exact others g hg
      rw [ih (spaced_insert spaced inserted) restAssigned restFilled filledNext]
      exact apart_next_iff files rest
    rw [List.cons_append]
    constructor
    · rintro ⟨reached, placed⟩
      rw [insertAll] at placed
      split at placed
      · cases placed
      · next id next inserted => exact (step id next inserted).mp ⟨reached, placed⟩
    · intro apart
      have first := (List.pairwise_cons.mp apart).1
      obtain ⟨id, next, inserted⟩ := insert_of_apart spaced firstAssigned firstFilled others
        fun g hg => first g (List.mem_append_right _ hg)
      obtain ⟨reached, placed⟩ := (step id next inserted).mpr apart
      refine ⟨reached, ?_⟩
      rw [insertAll, inserted]
      exact placed

theorem planned_assigned {layout : Layout} {files placed : List File}
    (planned : List.Forall₂ (PlannedAs layout) files placed)
    (assigned : ∀ f ∈ files, f.info.isUnassigned = false) : placed = files := by
  induction planned with
  | nil => rfl
  | cons head _ ih =>
    obtain ⟨firstAssigned, restAssigned⟩ := List.forall_mem_cons.mp assigned
    obtain ⟨address, rfl, own⟩ := head.1
    rw [ih restAssigned, own firstAssigned]

/-- Files that are not empty have one order in which each ends before the next starts. -/
theorem files_eq_of_perm {m m' : FileMap} (spaced : Spaced m.entries) (spaced' : Spaced m'.entries)
    (filled : ∀ f ∈ m.files, f.info.length ≠ 0) (same : m.files.Perm m'.files) :
    m.files = m'.files := by
  refine List.Perm.eq_of_pairwise ?_ (spaced_files spaced) (spaced_files spaced') same
  intro a b ha hb inFront behind
  have := a.start_lt_stop (filled a ha)
  have := b.start_le_stop
  omega

/-- Files that bring their addresses and are not empty are all placed in a new map just if no two of
them share an address. So they are in whatever order they come, and the list of what is resident
then is always the same. -/
theorem assigned_files_any_order {layout : Layout} {m : FileMap} (made : ofLayout layout = .ok m)
    {files files' : List File} (rearranged : files.Perm files')
    (assigned : ∀ f ∈ files, f.info.isUnassigned = false)
    (filled : ∀ f ∈ files, f.info.length ≠ 0) :
    ((∃ reached, insertAll files m = .ok reached) ↔ files.Pairwise fun a b => ¬ a.Meets b) ∧
      ((∃ reached, insertAll files m = .ok reached) ↔
        ∃ reached, insertAll files' m = .ok reached) ∧
      ∀ reached reached', insertAll files m = .ok reached → insertAll files' m = .ok reached' →
        reached.infos = reached'.infos ∧ reached.infos.Perm (files.map fun f => f.info) := by
  have assigned' : ∀ f ∈ files', f.info.isUnassigned = false :=
    fun f hf => assigned f (rearranged.mem_iff.mpr hf)
  have filled' : ∀ f ∈ files', f.info.length ≠ 0 :=
    fun f hf => filled f (rearranged.mem_iff.mpr hf)
  have valid := validate_of_made made
  obtain rfl := ofLayout_eq_ok made
  have fresh : Spaced { layout := layout : FileMap }.entries := List.Pairwise.nil
  have empty : FileMap.files { layout := layout } = [] := rfl
  have nobody : ∀ g ∈ FileMap.files { layout := layout }, g.info.length ≠ 0 := by
    rw [empty]
    exact fun g hg => absurd hg List.not_mem_nil
  have room := insertAll_iff_apart fresh assigned filled nobody
  have room' := insertAll_iff_apart fresh assigned' filled' nobody
  rw [empty, List.append_nil] at room room'
  refine ⟨room, ?_, ?_⟩
  · rw [room, room']
    exact rearranged.pairwise_iff fun apart meet => apart meet.symm
  · intro reached reached' placed placed'
    obtain ⟨_, planned, all, spaced⟩ := insertAll_planned fresh valid placed
    obtain ⟨_, planned', all', spaced'⟩ := insertAll_planned fresh valid placed'
    rw [planned_assigned planned assigned, empty, List.append_nil] at all
    rw [planned_assigned planned' assigned', empty, List.append_nil] at all'
    have same := files_eq_of_perm spaced spaced'
      (fun f hf => filled f (all.mem_iff.mp hf)) (all.trans (rearranged.trans all'.symm))
    exact ⟨congrArg (List.map File.info) same, all.map _⟩

/-- The same two files are in each other's way in both orders, for different reasons. -/
example :
    let low : File := ⟨{ address := 0x100, length := 0x101, name := "low" }, .custom⟩
    let high : File := ⟨{ address := 0x200, length := 0x100, name := "high" }, .custom⟩
    insertAll [low, high] { layout := {} } = .error (.addressInUse 0x200) ∧
      insertAll [high, low] { layout := {} } = .error (.fileTooLarge 0x100 0x101) := by
  decide

/-- Three files, two of which touch and one of which is remote, from the top and from the middle. -/
theorem touching_files_any_order :
    let m : FileMap := { layout := {} }
    let low : File := ⟨{ address := 0x100, length := 0x100, name := "low" }, .custom⟩
    let middle : File := ⟨{ address := 0x8000_0200, length := 0x200, name := "middle" }, .inData⟩
    let high : File := ⟨{ address := 0x3FFF_FFFF, length := 1, name := "high" }, .unknown⟩
    ofLayout {} = .ok m ∧ [high, middle, low].Perm [middle, high, low] ∧
      (∀ f ∈ [high, middle, low], f.info.isUnassigned = false) ∧
      (∀ f ∈ [high, middle, low], f.info.length ≠ 0) ∧
      ([high, middle, low].Pairwise fun a b => ¬ a.Meets b) ∧
      ∃ reached reached', insertAll [high, middle, low] m = .ok reached ∧
        insertAll [middle, high, low] m = .ok reached' ∧ reached.infos = reached'.infos := by
  intro m low middle high
  have made : ofLayout {} = .ok m := rfl
  have rearranged : [high, middle, low].Perm [middle, high, low] := List.Perm.swap _ _ _
  have assigned : ∀ f ∈ [high, middle, low], f.info.isUnassigned = false := by decide
  have filled : ∀ f ∈ [high, middle, low], f.info.length ≠ 0 := by decide
  obtain ⟨room, order, list⟩ := assigned_files_any_order made rearranged assigned filled
  have accepted : (insertAll [high, middle, low] m).isOk := by decide
  obtain ⟨reached, placed⟩ := exists_of_isOk accepted
  obtain ⟨reached', placed'⟩ := order.mp ⟨reached, placed⟩
  exact ⟨made, rearranged, assigned, filled, room.mp ⟨reached, placed⟩, reached, reached', placed,
    placed', (list reached reached' placed placed').1⟩

end FileMap

end PortWire
