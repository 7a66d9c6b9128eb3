import Mathlib.Data.List.TakeWhile
import PortWire.Proofs.FileMap.Placement

/-!
# Admission

A file with an address is held against two neighbours only. That this finds every overlap there is
rests on the spacing of the resident files: of all that start no later, the neighbour in front
reaches furthest, and of all that start later, the neighbour behind starts first. A resident file of
no length overlaps nothing, but it still stands in the way of a file that would reach across it.
-/

namespace PortWire.FileMap

/-- The address lies in a resident file. -/
def Occupied (m : FileMap) (address : Nat) : Prop :=
  ∃ g ∈ m.files, g.info.Contains address

/-- A resident file starts behind the first address of the file and before its end. -/
def CutsShort (m : FileMap) (info : FileInfo) : Prop :=
  ∃ g ∈ m.files, info.start < g.start ∧ g.start < info.stop

instance (m : FileMap) (address : Nat) : Decidable (m.Occupied address) :=
  inferInstanceAs (Decidable (∃ g ∈ m.files, _))

instance (m : FileMap) (info : FileInfo) : Decidable (m.CutsShort info) :=
  inferInstanceAs (Decidable (∃ g ∈ m.files, _))

/-- The entries before and behind the place of a file that starts at an address. Those that start at
the address itself come before it. -/
structure Around (m : FileMap) (start : Nat) (before behind : List Entry) : Prop where
  parts : m.entries = before ++ behind
  low : ∀ e ∈ before, e.file.start ≤ start
  high : ∀ e ∈ behind, start < e.file.start

section Neighbours

variable {m : FileMap} {info : FileInfo} {before behind : List Entry}

theorem around_takeWhile (spaced : Spaced m.entries) (start : Nat) :
    m.Around start (m.entries.takeWhile fun e => e.file.start ≤ start)
      (m.entries.dropWhile fun e => e.file.start ≤ start) := by
  have later : Spaced (m.entries.dropWhile fun e => e.file.start ≤ start) :=
    spaced.sublist (List.dropWhile_sublist _)
  constructor
  case parts => exact List.takeWhile_append_dropWhile.symm
  case low =>
    intro e he
    have satisfied := List.mem_takeWhile_imp he
    simpa using satisfied
  case high =>
    apply later.le_start
    intro e he
    have first := List.head?_dropWhile_not (fun e : Entry => e.file.start ≤ start) m.entries
    rw [Option.mem_def.mp he] at first
    exact Nat.lt_of_not_le (of_decide_eq_false first)

theorem Around.before_eq {start : Nat} (around : m.Around start before behind) :
    before = m.entries.filter fun e => e.file.start ≤ start := by
  have kept : (before.filter fun e => e.file.start ≤ start) = before := by
    apply List.filter_eq_self.mpr
    exact fun e he => decide_eq_true (around.low e he)
  have dropped : (behind.filter fun e => e.file.start ≤ start) = [] := by
    apply List.filter_eq_nil_iff.mpr
    intro e he early
    exact Nat.not_le.mpr (around.high e he) (of_decide_eq_true early)
  rw [around.parts, List.filter_append, kept, dropped, List.append_nil]

/-- There is one place only for a file that starts at the address. -/
theorem Around.unique {start : Nat} {before' behind' : List Entry}
    (around : m.Around start before behind) (around' : m.Around start before' behind') :
    before = before' ∧ behind = behind' := by
  obtain rfl : before = before' := around.before_eq.trans around'.before_eq.symm
  exact ⟨rfl, List.append_cancel_left (around.parts.symm.trans around'.parts)⟩

/-- Only the last file in front can contain the address. -/
theorem occupied_iff (spaced : Spaced m.entries) {start : Nat}
    (around : m.Around start before behind) :
    m.Occupied start ↔ ∃ e ∈ before.getLast?, start < e.file.stop := by
  constructor
  · rintro ⟨g, hg, first, last⟩
    by_contra clear
    have ends : ∀ e ∈ before, e.file.stop ≤ start := by
      have front := around.parts ▸ spaced
      apply Spaced.stop_le (List.pairwise_append.mp front).1
      intro e he
      exact Nat.le_of_not_lt fun reaches => clear ⟨e, he, reaches⟩
    obtain ⟨e, he, rfl⟩ := List.mem_map.mp hg
    rw [around.parts] at he
    rcases List.mem_append.mp he with earlier | later
    · have := ends e earlier
      simp only [File.stop] at this
      omega
    · have := around.high e later
      simp only [File.start] at this
      omega
  · rintro ⟨e, he, reaches⟩
    have member := List.mem_of_mem_getLast? he
    refine ⟨e.file, ?_, around.low e member, reaches⟩
    apply List.mem_map_of_mem
    rw [around.parts]
    exact List.mem_append_left _ member

/-- Only the first file behind can cut a file short. -/
theorem cutsShort_iff (spaced : Spaced m.entries) (around : m.Around info.start before behind) :
    m.CutsShort info ↔ ∃ e ∈ behind.head?, e.file.start < info.stop := by
  constructor
  · rintro ⟨g, hg, first, last⟩
    by_contra clear
    have starts : ∀ e ∈ behind, info.stop ≤ e.file.start := by
      have back := around.parts ▸ spaced
      apply Spaced.le_start (List.pairwise_append.mp back).2.1
      intro e he
      exact Nat.le_of_not_lt fun reaches => clear ⟨e, he, reaches⟩
    obtain ⟨e, he, rfl⟩ := List.mem_map.mp hg
    rw [around.parts] at he
    rcases List.mem_append.mp he with earlier | later
    · have := around.low e earlier
      omega
    · have := starts e later
      omega
  · rintro ⟨e, he, reaches⟩
    have member := List.mem_of_mem_head? he
    refine ⟨e.file, ?_, around.high e member, reaches⟩
    apply List.mem_map_of_mem
    rw [around.parts]
    exact List.mem_append_right _ member

end Neighbours

variable {m : FileMap}

/-- Admission, with all resident files in place of the neighbours. -/
theorem gap_eq (spaced : Spaced m.entries) (info : FileInfo) :
    m.gap info =
      if m.Occupied info.start then .error (.addressInUse info.address)
      else if m.CutsShort info then .error (.fileTooLarge info.address info.length)
      else .ok (m.entries.takeWhile fun e => e.file.start ≤ info.start,
        m.entries.dropWhile fun e => e.file.start ≤ info.start) := by
  have around := around_takeWhile spaced info.start
  have inFront : ((m.entries.takeWhile fun e => e.file.start ≤ info.start).getLast?.any fun e =>
      info.start < e.file.stop) = true ↔ m.Occupied info.start := by
    rw [occupied_iff spaced around, Option.any_eq_true]
    simp only [decide_eq_true_eq, Option.mem_def]
  have inside : ((m.entries.dropWhile fun e => e.file.start ≤ info.start).head?.any fun e =>
      e.file.start < info.stop) = true ↔ m.CutsShort info := by
    rw [cutsShort_iff spaced around, Option.any_eq_true]
    simp only [decide_eq_true_eq, Option.mem_def]
  simp only [gap, inFront, inside]

/-- What comes of the insertion of a file that has an address. -/
inductive Admitted (m : FileMap) (f : File) : Except PlacementError (FileId × FileMap) → Prop
  | inUse : m.Occupied f.start → Admitted m f (.error (.addressInUse f.info.address))
  | tooLarge : ¬ m.Occupied f.start → m.CutsShort f.info →
    Admitted m f (.error (.fileTooLarge f.info.address f.info.length))
  | placed {before behind : List Entry} {id : FileId} {next : FileMap} :
    ¬ m.Occupied f.start → ¬ m.CutsShort f.info → m.Around f.start before behind →
      next.entries = before ++ ⟨id, f⟩ :: behind → Admitted m f (.ok (id, next))

/-- A file is admitted as it was located, with the address that it has by then. -/
theorem admitted_of_locate (spaced : Spaced m.entries) {f g : File} (located : m.locate f = .ok g) :
    m.Admitted g (m.insert f) := by
  simp only [insert, located, gap_eq spaced]
  by_cases occupied : m.Occupied g.info.start
  · rw [if_pos occupied]
    exact .inUse occupied
  · rw [if_neg occupied]
    by_cases short : m.CutsShort g.info
    · rw [if_pos short]
      exact .tooLarge occupied short
    · rw [if_neg short]
      exact .placed occupied short (around_takeWhile spaced g.start) rfl

namespace Admitted

variable {f : File} {result : Except PlacementError (FileId × FileMap)}

theorem inUse_iff (h : m.Admitted f result) :
    result = .error (.addressInUse f.info.address) ↔ m.Occupied f.start := by
  cases h with
  | inUse occupied => simp [occupied]
  | tooLarge free _ => simp [free]
  | placed free _ _ _ => simp [free]

theorem tooLarge_iff (h : m.Admitted f result) :
    result = .error (.fileTooLarge f.info.address f.info.length) ↔
      ¬ m.Occupied f.start ∧ m.CutsShort f.info := by
  cases h with
  | inUse occupied => simp [occupied]
  | tooLarge free short => simp [free, short]
  | placed _ whole _ _ => simp [whole]

theorem refused_iff (h : m.Admitted f result) :
    (∃ e, result = .error e) ↔ m.Occupied f.start ∨ m.CutsShort f.info := by
  cases h with
  | inUse occupied => simp [occupied]
  | tooLarge _ short => simp [short]
  | placed free whole _ _ => simp [free, whole]

theorem placed_iff (h : m.Admitted f result) :
    (∃ id next, result = .ok (id, next)) ↔ ¬ m.Occupied f.start ∧ ¬ m.CutsShort f.info := by
  cases h with
  | inUse occupied => simp [occupied]
  | tooLarge _ short => simp [short]
  | placed free whole _ _ => simp [free, whole]

theorem entries {id : FileId} {next : FileMap} (h : m.Admitted f (.ok (id, next))) :
    ∃ before behind, m.Around f.start before behind ∧
      next.entries = before ++ ⟨id, f⟩ :: behind := by
  cases h with
  | placed _ _ around placed => exact ⟨_, _, around, placed⟩

/-- What is not refused has a place. -/
theorem exists_place (h : m.Admitted f result) (free : ¬ m.Occupied f.start)
    (whole : ¬ m.CutsShort f.info) :
    ∃ id next before behind, result = .ok (id, next) ∧ m.Around f.start before behind ∧
      next.entries = before ++ ⟨id, f⟩ :: behind := by
  cases h with
  | inUse occupied => exact absurd occupied free
  | tooLarge _ short => exact absurd short whole
  | placed _ _ around entries => exact ⟨_, _, _, _, rfl, around, entries⟩

end Admitted

/-- Two ranges that are not empty meet just if one of them starts in the other. -/
theorem meets_iff {f : File} (nonempty : f.info.length ≠ 0)
    (others : ∀ g ∈ m.files, g.info.length ≠ 0) :
    (∃ g ∈ m.files, ∃ address, f.info.Contains address ∧ g.info.Contains address) ↔
      m.Occupied f.start ∨ m.CutsShort f.info := by
  constructor
  · rintro ⟨g, hg, address, ⟨low, high⟩, low', high'⟩
    by_cases first : g.start ≤ f.start
    · exact Or.inl ⟨g, hg, first, Nat.lt_of_le_of_lt low high'⟩
    · exact Or.inr ⟨g, hg, Nat.lt_of_not_le first, Nat.lt_of_le_of_lt low' high⟩
  · rintro (⟨g, hg, inside⟩ | ⟨g, hg, behind, before⟩)
    · exact ⟨g, hg, f.start, ⟨Nat.le_refl _, f.start_lt_stop nonempty⟩, inside⟩
    · have filled := g.start_lt_stop (others g hg)
      exact ⟨g, hg, g.start, ⟨Nat.le_of_lt behind, before⟩, Nat.le_refl _, filled⟩

/-- On any map that was reached, a file with an address is refused as in use just if its start lies
in a resident file, and otherwise as too large just if a resident file starts before its end. All
others are placed as they are, behind the files that start no later. Among files that are not empty
this means that a file is refused just if it meets another. -/
theorem assigned_files_admitted {layout : Layout} {m : FileMap} (made : ofLayout layout = .ok m)
    (commands : List Command) {f : File} (assigned : f.info.isUnassigned = false) :
    let reached := m.session commands
    (reached.insert f = .error (.addressInUse f.info.address) ↔ reached.Occupied f.start) ∧
      (reached.insert f = .error (.fileTooLarge f.info.address f.info.length) ↔
        ¬ reached.Occupied f.start ∧ reached.CutsShort f.info) ∧
      ((∃ id next, reached.insert f = .ok (id, next)) ↔
        ¬ reached.Occupied f.start ∧ ¬ reached.CutsShort f.info) ∧
      (∀ id next, reached.insert f = .ok (id, next) →
        ∃ before behind, reached.Around f.start before behind ∧
          next.entries = before ++ ⟨id, f⟩ :: behind) ∧
      (f.info.length ≠ 0 → (∀ g ∈ reached.files, g.info.length ≠ 0) →
        ((∃ e, reached.insert f = .error e) ↔
          ∃ g ∈ reached.files, ∃ address, f.info.Contains address ∧ g.info.Contains address)) := by
  intro reached
  have spaced : Spaced reached.entries := spaced_reached made commands
  have located : reached.locate f = .ok f := by
    rw [locate, assigned]
    rfl
  have admitted := admitted_of_locate spaced located
  refine ⟨admitted.inUse_iff, admitted.tooLarge_iff, admitted.placed_iff, ?_, ?_⟩
  · intro id next inserted
    rw [inserted] at admitted
    exact admitted.entries
  · intro nonempty others
    rw [admitted.refused_iff, meets_iff nonempty others]

/-- A file of no length stands in the way of one that reaches across it, but not of one that starts
where it does and ends where the next one starts. -/
theorem empty_file_bars_only_crossing :
    let m : FileMap := { layout := {} }
    let blank : File := ⟨{ address := 0x200, length := 0, name := "empty" }, .unknown⟩
    let remote : File := ⟨{ address := 0x8000_0400, length := 0x100, name := "remote" }, .inData⟩
    let reached := m.session [.insert remote, .insert blank]
    let crossing : File :=
      ⟨{ address := 0x4000_0100, length := 0x101, name := "crossing" }, .custom⟩
    let adjacent : File :=
      ⟨{ address := 0x4000_0200, length := 0x200, name := "adjacent" }, .custom⟩
    ofLayout {} = .ok m ∧ crossing.info.isUnassigned = false ∧
      adjacent.info.isUnassigned = false ∧ reached.files = [blank, remote] ∧
      reached.insert crossing = .error (.fileTooLarge 0x4000_0100 0x101) ∧
      ∃ id next, reached.insert adjacent = .ok (id, next) := by
  intro m blank remote reached crossing adjacent
  have made : ofLayout {} = .ok m := rfl
  have barred := assigned_files_admitted made [.insert remote, .insert blank] (f := crossing) rfl
  have admitted := assigned_files_admitted made [.insert remote, .insert blank] (f := adjacent) rfl
  refine ⟨made, rfl, rfl, by decide, ?_, ?_⟩
  · exact barred.2.1.mpr (by decide)
  · exact admitted.2.2.1.mpr (by decide)

end PortWire.FileMap
