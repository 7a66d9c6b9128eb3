import Mathlib.Data.List.Nodup
import PortWire.Proofs.FileMap.Spacing

/-!
# Handles

Seen through its handles a file map is a finite map. Entries move up and down as others come and go,
but a handle stands for one file from the insertion that gave it out until the file is removed or
all are taken, and for none before and after.
-/

namespace PortWire

/-- `g` is the file `f`, with an address if `f` has none. -/
def File.PlacedAs (f g : File) : Prop :=
  ∃ address, g = { f with info := { f.info with address := address } } ∧
    (f.info.isUnassigned = false → address = f.info.address)

namespace FileMap

/-- A command among these ends what the handle stands for. -/
def Released (id : FileId) (commands : List Command) : Prop :=
  .remove id ∈ commands ∨ .takeAll ∈ commands

instance (id : FileId) (commands : List Command) : Decidable (Released id commands) :=
  inferInstanceAs (Decidable (_ ∨ _))

/-- The handles that a session gives out, in order. -/
def given (m : FileMap) : List Command → List FileId
  | [] => []
  | command :: rest =>
    let (answer, next) := m.perform command
    match answer with
    | .ok (.placed id) => id :: given next rest
    | _ => given next rest

def handles (m : FileMap) : List FileId :=
  m.entries.map fun e => e.id

/-- No two files share a handle, and none has a handle that is yet to be given out. -/
structure Numbered (m : FileMap) : Prop where
  distinct : m.handles.Nodup
  below : ∀ e ∈ m.entries, e.id.number < m.nextId

theorem placedAs_of_locate {m : FileMap} {f g : File} (h : m.locate f = .ok g) : f.PlacedAs g := by
  unfold locate at h
  split at h
  · rename_i unassigned
    split at h
    · cases h
    · split at h
      · cases h
      · rename_i address _
        cases h
        refine ⟨address, rfl, ?_⟩
        rw [unassigned]
        exact fun h => absurd h.symm Bool.false_ne_true
  · cases h
    exact ⟨f.info.address, rfl, fun _ => rfl⟩

/-! ## Looking up handles -/

theorem contains_eq_isSome (m : FileMap) (id : FileId) : m.contains id = (m.get? id).isSome := by
  rw [contains, get?, Option.isSome_map, List.isSome_find?]

theorem get?_eq_some_iff {m : FileMap} (numbered : Numbered m) {id : FileId} {f : File} :
    m.get? id = some f ↔ ⟨id, f⟩ ∈ m.entries := by
  rw [get?, Option.map_eq_some_iff]
  constructor
  · rintro ⟨e, hfind, rfl⟩
    have hid : e.id = id := by simpa using List.find?_some hfind
    rw [← hid]
    exact List.mem_of_find?_eq_some hfind
  · intro member
    have found : (m.entries.find? fun e => e.id = id).isSome :=
      List.find?_isSome.mpr ⟨_, member, by simp⟩
    obtain ⟨e, hfind⟩ := Option.isSome_iff_exists.mp found
    have hid : e.id = id := by simpa using List.find?_some hfind
    have same := List.inj_on_of_nodup_map numbered.distinct
      (List.mem_of_find?_eq_some hfind) member hid
    exact ⟨e, hfind, by rw [same]⟩

theorem get?_eq_none_of_ge {m : FileMap} (numbered : Numbered m) {id : FileId}
    (h : m.nextId ≤ id.number) : m.get? id = none := by
  cases hget : m.get? id with
  | none => rfl
  | some f =>
    have hbelow := numbered.below _ ((get?_eq_some_iff numbered).mp hget)
    exact absurd h (Nat.not_le.mpr hbelow)

/-! ## What each operation does to the handles -/

theorem Numbered.sublist {m m' : FileMap} (numbered : Numbered m)
    (hentries : m'.entries.Sublist m.entries) (hnext : m'.nextId = m.nextId) : Numbered m' := by
  refine ⟨numbered.distinct.sublist (hentries.map _), ?_⟩
  intro e he
  rw [hnext]
  exact numbered.below e (hentries.subset he)

theorem mem_insert {m m' : FileMap} {f : File} {id : FileId} (h : m.insert f = .ok (id, m')) :
    ∃ g, m.locate f = .ok g ∧ id = ⟨m.nextId⟩ ∧ m'.nextId = m.nextId + 1 ∧
      m'.entries.Perm (⟨id, g⟩ :: m.entries) := by
  obtain ⟨g, before, behind, hlocate, hgap, hid, hm⟩ := insert_eq_ok h
  obtain ⟨parts, -, -⟩ := gap_eq_ok hgap
  refine ⟨g, hlocate, hid, by rw [hm], ?_⟩
  rw [hm, parts]
  exact List.perm_middle

theorem Numbered.insert {m m' : FileMap} {f : File} {id : FileId} (numbered : Numbered m)
    (h : m.insert f = .ok (id, m')) : Numbered m' := by
  obtain ⟨g, -, hid, hnext, hperm⟩ := mem_insert h
  have fresh : id ∉ m.handles := by
    intro member
    obtain ⟨e, he, hsame⟩ := List.mem_map.mp member
    have hbelow := numbered.below e he
    rw [hsame, hid] at hbelow
    exact absurd hbelow (Nat.lt_irrefl _)
  refine ⟨?_, ?_⟩
  · have hhandles : m'.handles.Perm (id :: m.handles) := hperm.map _
    exact hhandles.nodup_iff.mpr (List.nodup_cons.mpr ⟨fresh, numbered.distinct⟩)
  · intro e he
    rw [hnext]
    rcases List.mem_cons.mp (hperm.mem_iff.mp he) with rfl | he
    · rw [hid]
      exact Nat.lt_succ_self _
    · exact Nat.lt_succ_of_lt (numbered.below e he)

theorem get?_insert {m m' : FileMap} {f : File} {id : FileId} (numbered : Numbered m)
    (h : m.insert f = .ok (id, m')) :
    ∃ g, m.locate f = .ok g ∧
      ∀ other, m'.get? other = if other = id then some g else m.get? other := by
  obtain ⟨g, hlocate, hid, -, hperm⟩ := mem_insert h
  have numbered' := numbered.insert h
  refine ⟨g, hlocate, ?_⟩
  intro other
  by_cases same : other = id
  · rw [if_pos same, same, get?_eq_some_iff numbered', hperm.mem_iff]
    exact List.mem_cons_self
  · rw [if_neg same]
    refine Option.ext fun f' => ?_
    rw [get?_eq_some_iff numbered', get?_eq_some_iff numbered, hperm.mem_iff, List.mem_cons,
      Entry.mk.injEq]
    simp [same]

theorem Numbered.remove {m : FileMap} (numbered : Numbered m) (id : FileId) :
    Numbered (m.remove id).2 :=
  numbered.sublist List.eraseP_sublist rfl

/-- With distinct handles, erasing the first entry of a handle erases all of them. -/
theorem eraseP_eq_filter {entries : List Entry} (distinct : (entries.map fun e => e.id).Nodup)
    (id : FileId) :
    (entries.eraseP fun e => e.id = id) = entries.filter fun e => e.id ≠ id := by
  induction entries with
  | nil => rfl
  | cons first rest ih =>
    obtain ⟨fresh, hrest⟩ := List.nodup_cons.mp distinct
    by_cases same : first.id = id
    · have others : ∀ e ∈ rest, e.id ≠ id := by
        intro e he hsame
        exact fresh (List.mem_map.mpr ⟨e, he, hsame.trans same.symm⟩)
      rw [List.eraseP_cons_of_pos (by simpa using same),
        List.filter_cons_of_neg (by simpa using same)]
      exact (List.filter_eq_self.mpr (by simpa using others)).symm
    · rw [List.eraseP_cons_of_neg (by simpa using same),
        List.filter_cons_of_pos (by simpa using same), ih hrest]

theorem get?_remove {m : FileMap} (numbered : Numbered m) (id other : FileId) :
    (m.remove id).2.get? other = if other = id then none else m.get? other := by
  have hentries : (m.remove id).2.entries = m.entries.filter fun e => e.id ≠ id :=
    eraseP_eq_filter numbered.distinct id
  refine Option.ext fun f => ?_
  rw [get?_eq_some_iff (numbered.remove id), hentries, List.mem_filter]
  by_cases same : other = id
  · simp [same]
  · rw [if_neg same, get?_eq_some_iff numbered]
    simp [same]

/-! ## Sessions -/

theorem Numbered.perform {m : FileMap} (numbered : Numbered m) (command : Command) :
    Numbered (m.perform command).2 := by
  rcases m.performed command with ⟨f, id, _, hinsert, _⟩ | ⟨_, hnext, hentries⟩
  · exact numbered.insert hinsert
  · exact numbered.sublist (hentries ▸ m.kept_sublist command) hnext

theorem numbered_session {m : FileMap} (numbered : Numbered m) (commands : List Command) :
    Numbered (m.session commands) :=
  session_keeps (P := Numbered) (fun _ command h => h.perform command) commands numbered

theorem numbered_reached {layout : Layout} {m : FileMap} (made : ofLayout layout = .ok m)
    (commands : List Command) : Numbered (m.session commands) := by
  obtain rfl := ofLayout_eq_ok made
  have fresh : Numbered { layout := layout } := ⟨List.nodup_nil, by simp⟩
  exact numbered_session fresh commands

theorem get?_congr {m m' : FileMap} (h : m'.entries = m.entries) (id : FileId) :
    m'.get? id = m.get? id := by
  rw [get?, get?, h]

theorem nextId_le_perform (m : FileMap) (command : Command) :
    m.nextId ≤ (m.perform command).2.nextId := by
  rcases m.performed command with ⟨f, id, _, hinsert, _⟩ | ⟨_, hnext, _⟩
  · obtain ⟨_, _, _, hnext, _⟩ := mem_insert hinsert
    omega
  · omega

/-- A handle that has been given out stands for the same file after a command, or for none. -/
theorem get?_perform {m : FileMap} (numbered : Numbered m) {id : FileId}
    (old : id.number < m.nextId) (command : Command) :
    (m.perform command).2.get? id =
      if command = .remove id ∨ command = .takeAll then none else m.get? id := by
  rcases m.performed command with ⟨f, new, rfl, hinsert, _⟩ | ⟨_, _, hentries⟩
  · obtain ⟨g, _, hget⟩ := get?_insert numbered hinsert
    obtain ⟨_, _, hnew, _, _⟩ := mem_insert hinsert
    -- A handle that is given out now has a number that no earlier one has.
    have other : id ≠ new := by
      rintro rfl
      rw [hnew] at old
      exact Nat.lt_irrefl _ old
    rw [hget id, if_neg other, if_neg (by simp)]
  · cases command with
    | remove gone =>
      rw [show (m.perform (.remove gone)).2 = (m.remove gone).2 from rfl,
        get?_remove numbered gone id]
      by_cases same : id = gone
      · rw [if_pos same, if_pos (Or.inl (by rw [same]))]
      · rw [if_neg same, if_neg (by simpa using Ne.symm same)]
    | takeAll => rfl
    | insert f => rw [get?_congr hentries, if_neg (by simp)]
    | get other => rw [get?_congr hentries, if_neg (by simp)]
    | contains other => rw [get?_congr hentries, if_neg (by simp)]
    | findAddress address => rw [get?_congr hentries, if_neg (by simp)]
    | findName name => rw [get?_congr hentries, if_neg (by simp)]

theorem get?_session {m : FileMap} (numbered : Numbered m) {id : FileId}
    (old : id.number < m.nextId) (commands : List Command) :
    (m.session commands).get? id = if Released id commands then none else m.get? id := by
  induction commands generalizing m with
  | nil => rfl
  | cons command rest ih =>
    have still : id.number < (m.perform command).2.nextId :=
      Nat.lt_of_lt_of_le old (m.nextId_le_perform command)
    rw [session, ih (numbered.perform command) still, get?_perform numbered old]
    have head : Released id (command :: rest) ↔
        (command = .remove id ∨ command = .takeAll) ∨ Released id rest := by
      simp only [Released, List.mem_cons, eq_comm]
      tauto
    by_cases later : Released id rest
    · rw [if_pos later, if_pos (head.mpr (Or.inr later))]
    · simp only [head, later, if_false, or_false]

theorem given_of_not_placed {m : FileMap} {command : Command}
    (h : ∀ id, (m.perform command).1 ≠ .ok (.placed id)) (rest : List Command) :
    m.given (command :: rest) = (m.perform command).2.given rest := by
  rcases hperform : m.perform command with ⟨err | answer, next⟩
  · simp only [given, hperform]
  · rw [hperform] at h
    cases answer with
    | placed id => exact absurd rfl (h id)
    | file f => simp only [given, hperform]
    | resident b => simp only [given, hperform]
    | entries es => simp only [given, hperform]

/-- Handles are numbered as they are given out. -/
theorem given_eq_range' (m : FileMap) (commands : List Command) :
    ∃ n, (m.session commands).nextId = m.nextId + n ∧
      m.given commands = (List.range' m.nextId n).map FileId.mk := by
  induction commands generalizing m with
  | nil => exact ⟨0, rfl, rfl⟩
  | cons command rest ih =>
    obtain ⟨n, hnext, hgiven⟩ := ih (m.perform command).2
    rcases m.performed command with ⟨f, id, _, hinsert, hanswer⟩ | ⟨hanswer, hsame, _⟩
    · obtain ⟨_, _, hid, hsucc, _⟩ := mem_insert hinsert
      refine ⟨n + 1, by rw [session, hnext, hsucc]; omega, ?_⟩
      simp only [given, hanswer, hgiven, hsucc, hid, List.range'_succ, List.map_cons]
    · refine ⟨n, by rw [session, hnext, hsame], ?_⟩
      rw [given_of_not_placed hanswer, hgiven, hsame]

theorem mem_given {m : FileMap} {commands : List Command} {id : FileId} :
    id ∈ m.given commands ↔ m.nextId ≤ id.number ∧ id.number < (m.session commands).nextId := by
  obtain ⟨n, hnext, hgiven⟩ := m.given_eq_range' commands
  rw [hnext, hgiven, List.mem_map]
  constructor
  · rintro ⟨k, hk, rfl⟩
    exact List.mem_range'_1.mp hk
  · intro h
    exact ⟨id.number, List.mem_range'_1.mpr h, rfl⟩

theorem nodup_given (m : FileMap) (commands : List Command) : (m.given commands).Nodup := by
  obtain ⟨n, -, hgiven⟩ := m.given_eq_range' commands
  rw [hgiven]
  exact List.Nodup.map (fun a b h => FileId.mk.inj h) List.nodup_range'

/-- As many files are resident as handles that have been given out stand for one. -/
theorem size_eq_countP {m : FileMap} (numbered : Numbered m) {handed : List FileId}
    (distinct : handed.Nodup) (all : ∀ id ∈ m.handles, id ∈ handed) :
    m.size = handed.countP fun id => m.contains id := by
  have members : ∀ id, id ∈ m.handles ↔ id ∈ handed.filter fun id => m.contains id := by
    intro id
    have resident : m.contains id = true ↔ id ∈ m.handles := by
      simp [contains, handles]
    rw [List.mem_filter, resident]
    exact ⟨fun h => ⟨all id h, h⟩, fun h => h.2⟩
  have perm : m.handles.Perm (handed.filter fun id => m.contains id) :=
    (List.perm_ext_iff_of_nodup numbered.distinct (distinct.filter _)).mpr members
  rw [List.countP_eq_length_filter, ← perm.length_eq, handles, List.length_map, size]

/-- Seen through its handles, of which it has given out `handed` so far, the map is a finite map. -/
structure HandleTable (m : FileMap) (handed : List FileId) : Prop where
  /-- A new handle stands for the file that was inserted until it is released, whatever else comes
  and goes. -/
  insert : ∀ f id next, m.insert f = .ok (id, next) → id ∉ handed ∧
    ∃ g, m.locate f = .ok g ∧ f.PlacedAs g ∧
      ∀ later, (next.session later).get? id = if Released id later then none else some g
  refused : ∀ f err, (m.perform (.insert f)).1 = .error err → (m.perform (.insert f)).2 = m
  unknown : ∀ id, id ∉ handed → m.get? id = none
  contains : ∀ id, m.contains id = (m.get? id).isSome
  remove : ∀ id, (m.remove id).1 = m.get? id ∧
    ∀ other, (m.remove id).2.get? other = if other = id then none else m.get? other
  takeAll : (m.takeAll.1.map fun e => e.id).Nodup ∧
    (m.takeAll.1.Pairwise fun a b => a.file.start ≤ b.file.start) ∧
    (∀ e, e ∈ m.takeAll.1 ↔ m.get? e.id = some e.file) ∧ ∀ id, m.takeAll.2.get? id = none
  size : m.size = handed.countP fun id => m.contains id

theorem perform_refused {m : FileMap} {f : File} {err : PlacementError}
    (h : (m.perform (.insert f)).1 = .error err) : (m.perform (.insert f)).2 = m := by
  cases hinsert : m.insert f with
  | error err => simp only [perform, hinsert]
  | ok result => simp only [perform, hinsert, reduceCtorEq] at h

/-- At every point of a session on a new map, the handles make up a finite map: each is given out
once, and stands for its file from then on until the file is removed or all are taken. -/
theorem session_handles {layout : Layout} {m : FileMap} (made : ofLayout layout = .ok m)
    (commands : List Command) : (m.session commands).HandleTable (m.given commands) := by
  obtain rfl := ofLayout_eq_ok made
  have fresh : Numbered { layout := layout } := ⟨List.nodup_nil, by simp⟩
  have numbered := numbered_session fresh commands
  have spaced : Spaced (session { layout := layout } commands).entries :=
    spaced_session commands List.Pairwise.nil
  have mem : ∀ id, id ∈ given { layout := layout } commands ↔
      id.number < (session { layout := layout } commands).nextId := by
    intro id
    rw [mem_given]
    exact and_iff_right (Nat.zero_le _)
  constructor
  case insert =>
    intro f id next hinsert
    obtain ⟨g, hlocate, hid, hnext, _⟩ := mem_insert hinsert
    obtain ⟨g', hlocate', hget⟩ := get?_insert numbered hinsert
    obtain rfl : g = g' := Except.ok.inj (hlocate.symm.trans hlocate')
    refine ⟨by rw [mem, hid]; exact Nat.lt_irrefl _, g, hlocate, placedAs_of_locate hlocate, ?_⟩
    intro later
    have old : id.number < next.nextId := by rw [hid, hnext]; exact Nat.lt_succ_self _
    rw [get?_session (numbered.insert hinsert) old, hget id, if_pos rfl]
  case refused => exact fun f err h => perform_refused h
  case unknown =>
    intro id absent
    exact get?_eq_none_of_ge numbered (Nat.not_lt.mp fun h => absent ((mem id).mpr h))
  case contains => exact fun id => contains_eq_isSome _ id
  case remove => exact fun id => ⟨rfl, get?_remove numbered id⟩
  case takeAll =>
    refine ⟨numbered.distinct, ?_, fun e => (get?_eq_some_iff numbered).symm, fun id => rfl⟩
    exact spaced.imp fun {a b} hab => Nat.le_trans a.file.info.start_le_stop hab
  case size =>
    refine size_eq_countP numbered (nodup_given _ commands) ?_
    intro id hid
    obtain ⟨e, he, rfl⟩ := List.mem_map.mp hid
    exact (mem e.id).mpr (numbered.below e he)

/-- The second file goes in front of the first, which is then removed, and a third is refused. The
next handle is again a new one. -/
theorem session_handles_default :
    let m : FileMap := { layout := {} }
    let commands : List Command :=
      [.insert ⟨{ address := 0x8000_0400, length := 0x100, name := "remote" }, .inData⟩,
        .insert ⟨{ address := 0x100, length := 0x300, name := "front" }, .inData⟩, .remove ⟨0⟩,
        .insert ⟨{ address := 0x3FF, length := 2, name := "refused" }, .unknown⟩]
    let reached := m.session commands
    ofLayout {} = .ok m ∧ m.given commands = [⟨0⟩, ⟨1⟩] ∧ reached.HandleTable [⟨0⟩, ⟨1⟩] ∧
      reached.get? ⟨1⟩ = some ⟨{ address := 0x100, length := 0x300, name := "front" }, .inData⟩ ∧
      (reached.perform (.insert ⟨{ length := 1, name := "later" }, .outData⟩)).1 =
        .ok (.placed ⟨2⟩) := by
  intro m commands reached
  have made : ofLayout {} = .ok m := rfl
  have table := session_handles made commands
  have hgiven : m.given commands = [⟨0⟩, ⟨1⟩] := by decide
  rw [hgiven] at table
  exact ⟨made, hgiven, table, by decide, by decide⟩

end FileMap

end PortWire
