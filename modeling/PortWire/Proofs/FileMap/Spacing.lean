import PortWire.FileMap.Session

/-!
# Spacing of resident files

Admission looks at two neighbours only. That every file still ends before all later ones start
follows from the same property of the files already there: the last file that starts no later than
the new one ends behind all of its predecessors, and the first file behind starts before all of its
successors. Nothing is assumed of layouts, flag bits or lengths.
-/

namespace PortWire

namespace FileInfo

theorem start_le_stop (f : FileInfo) : f.start ≤ f.stop :=
  Nat.le_add_right _ _

end FileInfo

namespace File

theorem start_le_stop (f : File) : f.start ≤ f.stop :=
  f.info.start_le_stop

theorem start_lt_stop (f : File) (filled : f.info.length ≠ 0) : f.start < f.stop := by
  have : f.info.length.toNat ≠ 0 := fun zero => filled (UInt32.toNat_inj.mp zero)
  simp only [start, stop, FileInfo.stop]
  omega

end File

namespace FileMap

/-- In the order of the list, every entry ends before the later ones start. -/
def Spaced (entries : List Entry) : Prop :=
  entries.Pairwise fun a b => a.file.stop ≤ b.file.start

theorem Spaced.stop_le {entries : List Entry} (spaced : Spaced entries) {bound : Nat}
    (last : ∀ e ∈ entries.getLast?, e.file.stop ≤ bound) :
    ∀ e ∈ entries, e.file.stop ≤ bound := by
  induction entries with
  | nil => intro e he; cases he
  | cons first rest ih =>
    obtain ⟨hfirst, hrest⟩ := List.pairwise_cons.mp spaced
    intro e he
    cases rest with
    | nil =>
      obtain rfl := List.mem_singleton.mp he
      exact last e rfl
    | cons second rest =>
      have htail := ih hrest (by simpa only [List.getLast?_cons_cons] using last)
      rcases List.mem_cons.mp he with rfl | he
      · have hstep := hfirst second List.mem_cons_self
        have hsecond := htail second List.mem_cons_self
        have := second.file.start_le_stop
        omega
      · exact htail e he

theorem Spaced.le_start {entries : List Entry} (spaced : Spaced entries) {bound : Nat}
    (first : ∀ e ∈ entries.head?, bound ≤ e.file.start) :
    ∀ e ∈ entries, bound ≤ e.file.start := by
  cases entries with
  | nil => intro e he; cases he
  | cons head rest =>
    have hhead := first head rfl
    intro e he
    rcases List.mem_cons.mp he with rfl | he
    · exact hhead
    · have hstep := (List.pairwise_cons.mp spaced).1 e he
      have := head.file.start_le_stop
      omega

theorem spaced_files {m : FileMap} (spaced : Spaced m.entries) :
    m.files.Pairwise fun a b => a.stop ≤ b.start :=
  List.pairwise_map.mpr spaced

/-- What admission checks of the two parts that a new file comes between. -/
theorem gap_eq_ok {m : FileMap} {info : FileInfo} {before behind : List Entry}
    (h : m.gap info = .ok (before, behind)) :
    m.entries = before ++ behind ∧
      (∀ e ∈ before.getLast?, e.file.stop ≤ info.start) ∧
      ∀ e ∈ behind.head?, info.stop ≤ e.file.start := by
  unfold gap at h
  simp only at h
  split at h
  · cases h
  · rename_i fitsBefore
    split at h
    · cases h
    · rename_i fitsBehind
      cases h
      refine ⟨List.takeWhile_append_dropWhile.symm, ?_, ?_⟩
      · intro e he
        rw [Option.mem_def.mp he] at fitsBefore
        simpa using fitsBefore
      · intro e he
        rw [Option.mem_def.mp he] at fitsBehind
        simpa using fitsBehind

theorem spaced_of_gap {m : FileMap} {f : File} {before behind : List Entry} (id : FileId)
    (spaced : Spaced m.entries) (h : m.gap f.info = .ok (before, behind)) :
    Spaced (before ++ ⟨id, f⟩ :: behind) := by
  obtain ⟨parts, hlast, hfirst⟩ := gap_eq_ok h
  rw [parts] at spaced
  obtain ⟨hbefore, hbehind, hacross⟩ := List.pairwise_append.mp spaced
  have stops := Spaced.stop_le hbefore hlast
  have starts := Spaced.le_start hbehind hfirst
  refine List.pairwise_append.mpr ⟨hbefore, List.pairwise_cons.mpr ⟨starts, hbehind⟩, ?_⟩
  intro a ha b hb
  rcases List.mem_cons.mp hb with rfl | hb
  · exact stops a ha
  · exact hacross a ha b hb

theorem insert_eq_ok {m m' : FileMap} {f : File} {id : FileId} (h : m.insert f = .ok (id, m')) :
    ∃ placed before behind, m.locate f = .ok placed ∧
      m.gap placed.info = .ok (before, behind) ∧ id = ⟨m.nextId⟩ ∧
      m' = { m with entries := before ++ ⟨id, placed⟩ :: behind, nextId := m.nextId + 1,
                    lastFound := none } := by
  unfold insert at h
  split at h
  · cases h
  · rename_i placed hplaced
    split at h
    · cases h
    · rename_i before behind hgap
      cases h
      exact ⟨placed, before, behind, hplaced, hgap, rfl, rfl⟩

theorem spaced_insert {m next : FileMap} {f : File} {id : FileId} (spaced : Spaced m.entries)
    (h : m.insert f = .ok (id, next)) : Spaced next.entries := by
  obtain ⟨placed, before, behind, _, admitted, _, made⟩ := insert_eq_ok h
  rw [made]
  exact spaced_of_gap id spaced admitted

@[simp]
theorem entries_findAddress (m : FileMap) (address : UInt32) :
    (m.findAddress address).2.entries = m.entries := by
  unfold findAddress
  simp only
  split
  · rfl
  · split <;> rfl

/-- The entries that a command leaves if it places no file. -/
def kept (m : FileMap) : Command → List Entry
  | .remove id => m.entries.eraseP fun e => e.id = id
  | .takeAll => []
  | _ => m.entries

theorem kept_sublist (m : FileMap) (command : Command) :
    (m.kept command).Sublist m.entries := by
  unfold kept
  split
  · exact List.eraseP_sublist
  · exact List.nil_sublist _
  · exact List.Sublist.refl _

/-- Everything that a command can do: an insertion gives out a handle, and no other command does. -/
theorem performed (m : FileMap) (command : Command) :
    (∃ f id, command = .insert f ∧ m.insert f = .ok (id, (m.perform command).2) ∧
        (m.perform command).1 = .ok (.placed id)) ∨
      ((∀ id, (m.perform command).1 ≠ .ok (.placed id)) ∧
        (m.perform command).2.nextId = m.nextId ∧
        (m.perform command).2.entries = m.kept command) := by
  cases command with
  | insert f =>
    cases h : m.insert f with
    | error err =>
      have hperform : m.perform (.insert f) = (.error err, m) := by simp only [perform, h]
      rw [hperform]
      exact Or.inr ⟨fun id => by simp, rfl, rfl⟩
    | ok result =>
      obtain ⟨id, next⟩ := result
      refine Or.inl ⟨f, id, rfl, ?_⟩
      simp only [perform, h, and_self]
  | findAddress address =>
    refine Or.inr ⟨fun id => by simp [perform], ?_, m.entries_findAddress address⟩
    simp only [perform, findAddress]
    split
    · rfl
    · split <;> rfl
  | remove id => exact Or.inr ⟨fun id => by simp [perform], rfl, rfl⟩
  | takeAll => exact Or.inr ⟨fun id => by simp [perform], rfl, rfl⟩
  | get id => exact Or.inr ⟨fun id => by simp [perform], rfl, rfl⟩
  | contains id => exact Or.inr ⟨fun id => by simp [perform], rfl, rfl⟩
  | findName name => exact Or.inr ⟨fun id => by simp [perform], rfl, rfl⟩

theorem spaced_perform {m : FileMap} (command : Command) (spaced : Spaced m.entries) :
    Spaced (m.perform command).2.entries := by
  rcases m.performed command with ⟨f, id, _, hinsert, _⟩ | ⟨_, _, hentries⟩
  · exact spaced_insert spaced hinsert
  · rw [hentries]
    exact spaced.sublist (m.kept_sublist command)

/-- What no command breaks holds at the end of a session if it holds at its start. -/
theorem session_keeps {P : FileMap → Prop}
    (step : ∀ (m : FileMap) command, P m → P (m.perform command).2) {m : FileMap}
    (commands : List Command) (start : P m) : P (m.session commands) := by
  induction commands generalizing m with
  | nil => exact start
  | cons command rest ih => exact ih (step m command start)

theorem spaced_session {m : FileMap} (commands : List Command) (spaced : Spaced m.entries) :
    Spaced (m.session commands).entries :=
  session_keeps (P := fun m => Spaced m.entries) (fun _ command h => spaced_perform command h)
    commands spaced

theorem ofLayout_eq_ok {layout : Layout} {m : FileMap} (made : ofLayout layout = .ok m) :
    m = { layout := layout } := by
  unfold ofLayout at made
  split at made
  · cases made
  · cases made
    rfl

theorem entries_ofLayout {layout : Layout} {m : FileMap} (made : ofLayout layout = .ok m) :
    m.entries = [] := by
  rw [ofLayout_eq_ok made]

/-- After any session on a new map every file ends before the later ones start. The files are thus
in the order of their addresses, and no address lies in two of them. -/
theorem session_files_spaced {layout : Layout} {m : FileMap} (made : ofLayout layout = .ok m)
    (commands : List Command) :
    (m.session commands).files.Pairwise (fun a b => a.stop ≤ b.start) ∧
      (m.session commands).files.Pairwise (fun a b => a.start ≤ b.start) ∧
      (m.session commands).files.Pairwise
        (fun a b => ∀ address, ¬ (a.info.Contains address ∧ b.info.Contains address)) := by
  have fresh : Spaced m.entries := by
    rw [entries_ofLayout made]
    exact List.Pairwise.nil
  have spaced : (m.session commands).files.Pairwise (fun a b => a.stop ≤ b.start) :=
    List.pairwise_map.mpr (spaced_session commands fresh)
  refine ⟨spaced, spaced.imp ?_, spaced.imp ?_⟩
  · intro a b hab
    exact Nat.le_trans a.info.start_le_stop hab
  · rintro a b hab address ⟨ha, hb⟩
    have hstop : address < a.stop := ha.2
    have hstart : b.start ≤ address := hb.1
    omega

/-- A remote file keeps its flag, and the files without an address go around it and around each
other, also after a removal. -/
theorem session_files_spaced_default :
    ofLayout {} = .ok { layout := {} } ∧
      (session { layout := {} }
        [.insert ⟨{ address := 0x8000_0400, length := 0x500, name := "remote" }, .inData⟩,
          .insert ⟨{ length := 0x401, name := "second" }, .outData⟩,
          .insert ⟨{ address := 0x400, length := 0, name := "refused" }, .inData⟩,
          .findAddress 0x8FF, .remove ⟨0⟩,
          .insert ⟨{ address := 0x4000_1001, length := 0, name := "empty" }, .unknown⟩,
          .insert ⟨{ length := 1, name := "last" }, .inData⟩]).files.Pairwise
        (fun a b => a.stop ≤ b.start) := by
  have made : ofLayout {} = .ok { layout := {} } := rfl
  exact ⟨made, (session_files_spaced made _).1⟩

end FileMap

end PortWire
