import PortWire.Proofs.FileMap.Admission
import PortWire.Proofs.FileMap.Allocation

/-!
# Room in a region

A region can be in use although no file starts in it: a file that was given its address may reach in
from below. The address for the next file is found from the files that start in the region, and one
such file makes up for all that reach in, as it lies behind them. So a region with a file of its own
takes every file that fits behind its files. Where only a file from below is in the way, the address
that is found lies in that file, and admission refuses it.
-/

namespace PortWire

/-- The file starts below the region and covers the first address of it. -/
def File.Overhangs (f : File) (r : Region) : Prop :=
  f.start < r.start.toNat ∧ r.start.toNat < f.stop

instance (f : File) (r : Region) : Decidable (f.Overhangs r) :=
  inferInstanceAs (Decidable (_ ∧ _))

namespace FileMap

/-- The resident files that use the region: those that start in it and those that overhang it. -/
def tenants (m : FileMap) (r : Region) : List File :=
  m.files.filter fun f => r.Contains f.start ∨ f.Overhangs r

variable {m : FileMap} {r : Region}

theorem mem_residents {g : File} : g ∈ m.residents r ↔ g ∈ m.files ∧ r.Contains g.start := by
  rw [residents, List.mem_filter, decide_eq_true_eq]

theorem mem_tenants {g : File} :
    g ∈ m.tenants r ↔ g ∈ m.files ∧ (r.Contains g.start ∨ g.Overhangs r) := by
  rw [tenants, List.mem_filter, decide_eq_true_eq]

/-- Of two resident files the one that starts first ends before the other starts. -/
theorem stop_le_start (spaced : Spaced m.entries) {g h : File} (hg : g ∈ m.files)
    (hh : h ∈ m.files) (first : g.start < h.start) : g.stop ≤ h.start := by
  have files := spaced_files spaced
  obtain ⟨front, back, parts⟩ := List.append_of_mem hg
  rw [parts] at files hh
  obtain ⟨_, following, across⟩ := List.pairwise_append.mp files
  rcases List.mem_append.mp hh with earlier | later
  · have := across h earlier g List.mem_cons_self
    have := h.start_le_stop
    omega
  · rcases List.mem_cons.mp later with rfl | later
    · exact absurd first (Nat.lt_irrefl _)
    · exact (List.pairwise_cons.mp following).1 h later

/-- Behind the files that use the region, up to its end, nothing is in the way. -/
theorem free_behind_tenants {info : FileInfo} (inside : r.Contains info.start)
    (fits : info.stop ≤ r.stop.toNat) (behind : ∀ g ∈ m.tenants r, g.stop ≤ info.start) :
    ¬ m.Occupied info.start ∧ ¬ m.CutsShort info := by
  obtain ⟨low, room⟩ := inside
  constructor
  · rintro ⟨g, hg, first, last⟩
    have inUse : r.Contains g.start ∨ g.Overhangs r := by
      by_cases own : r.start.toNat ≤ g.start
      · exact Or.inl ⟨own, Nat.lt_of_le_of_lt first room⟩
      · exact Or.inr ⟨Nat.lt_of_not_le own, Nat.lt_of_le_of_lt low last⟩
    have clear := behind g (mem_tenants.mpr ⟨hg, inUse⟩)
    exact Nat.not_lt.mpr clear last
  · rintro ⟨g, hg, first, last⟩
    have own : r.Contains g.start :=
      ⟨Nat.le_of_lt (Nat.lt_of_le_of_lt low first), Nat.lt_of_lt_of_le last fits⟩
    have clear := behind g (mem_tenants.mpr ⟨hg, Or.inl own⟩)
    have := g.start_le_stop
    omega

/-- A file that reaches in ends before any file of the region, so it takes no part in which address
is the next. -/
theorem isNext_residents (spaced : Spaced m.entries) {a : Nat}
    (next : r.IsNext (m.tenants r) a) (own : m.residents r = [] → m.tenants r = []) :
    r.IsNext (m.residents r) a := by
  refine ⟨fun empty => next.first (own empty), fun occupied => ?_⟩
  obtain ⟨s, hs⟩ := List.exists_mem_of_ne_nil _ occupied
  obtain ⟨hs, sInside⟩ := mem_residents.mp hs
  have used : s ∈ m.tenants r := mem_tenants.mpr ⟨hs, Or.inl sInside⟩
  obtain ⟨⟨multiple, behind⟩, least⟩ := next.least (List.ne_nil_of_mem used)
  refine ⟨⟨multiple, ?_⟩, ?_⟩
  · intro g hg
    obtain ⟨hg, gInside⟩ := mem_residents.mp hg
    exact behind g (mem_tenants.mpr ⟨hg, Or.inl gInside⟩)
  · rintro b ⟨multiple, clear⟩
    refine least ⟨multiple, ?_⟩
    intro g hg
    obtain ⟨hg, gInside | overhangs⟩ := mem_tenants.mp hg
    · exact clear g (mem_residents.mpr ⟨hg, gInside⟩)
    · -- What reaches in starts before `s` does, and what is clear of `s` is clear of it as well.
      have apart := stop_le_start spaced hg hs (Nat.lt_of_lt_of_le overhangs.1 sInside.1)
      have reaches := clear s (mem_residents.mpr ⟨hs, sInside⟩)
      have := s.start_le_stop
      omega

theorem candidate_eq (spaced : Spaced m.entries) (sound : r.Sound) {a : Nat}
    (next : r.IsNext (m.residents r) a) : m.candidate r = a := by
  have found := isNext_candidate spaced sound
  by_cases empty : m.residents r = []
  · rw [found.first empty, next.first empty]
  · exact (found.least empty).unique (next.least empty)

section Unassigned

variable {f : File} (spaced : Spaced m.entries) (sound : r.Sound)
  (unassigned : f.info.isUnassigned) (owned : m.layout.regionFor f.type = some r)

include spaced sound unassigned owned

theorem admitted_settled (room : m.candidate r < r.stop.toNat) :
    m.Admitted (m.settled r f) (m.insert f) := by
  apply admitted_of_locate spaced
  rw [locate_unassigned spaced sound unassigned owned, if_pos room]

theorem insert_behind_tenants {a : Nat} (next : r.IsNext (m.tenants r) a)
    (own : m.residents r = [] → m.tenants r = []) (fits : a + f.info.length.toNat ≤ r.stop.toNat)
    (room : a < r.stop.toNat) :
    ∃ id following, m.insert f = .ok (id, following) ∧ (m.settled r f).start = a ∧
      following.entries.Perm (⟨id, m.settled r f⟩ :: m.entries) := by
  obtain rfl := candidate_eq spaced sound (isNext_residents spaced next own)
  have start : (m.settled r f).start = m.candidate r := start_settled sound room f
  have inside : r.Contains (m.settled r f).start := contains_settled spaced sound room f
  have ends : (m.settled r f).start + f.info.length.toNat ≤ r.stop.toNat := by
    rw [start]
    exact fits
  have behind : ∀ g ∈ m.tenants r, g.stop ≤ (m.settled r f).start := by
    rw [start]
    exact next.stop_le
  obtain ⟨free, whole⟩ := free_behind_tenants inside ends behind
  have admitted := admitted_settled spaced sound unassigned owned room
  obtain ⟨id, following, _, _, inserted, around, entries⟩ := admitted.exists_place free whole
  refine ⟨id, following, inserted, start, ?_⟩
  rw [entries, around.parts]
  exact List.perm_middle

end Unassigned

/-- On any map that was reached, let an address be the next of a region behind all files that use
it, those included that reach in from below, and let a file of the region itself be among them if
there are any. A file without an address that fits between there and the end of the region is placed
there, except that one of no length cannot stand at the very end. -/
theorem unassigned_files_find_room {layout : Layout} {m : FileMap}
    (made : ofLayout layout = .ok m) (commands : List Command) {f : File} {r : Region}
    (unassigned : f.info.isUnassigned) (owned : layout.regionFor f.type = some r) {a : Nat}
    (next : r.IsNext ((m.session commands).tenants r) a)
    (fits : a + f.info.length.toNat ≤ r.stop.toNat)
    (own : (m.session commands).residents r = [] → (m.session commands).tenants r = []) :
    let reached := m.session commands
    (a < r.stop.toNat → ∃ id following placed, reached.insert f = .ok (id, following) ∧
      f.PlacedAs placed ∧ placed.start = a ∧
      following.entries.Perm (⟨id, placed⟩ :: reached.entries)) ∧
    (a = r.stop.toNat → reached.insert f = .error (.regionFull r.start r.stop)) := by
  intro reached
  have spaced : Spaced reached.entries := spaced_reached made commands
  have sound : r.Sound := Layout.sound_of_validate (validate_of_made made) owned
  have owned' : reached.layout.regionFor f.type = some r := by
    rw [layout_session, ofLayout_eq_ok made]
    exact owned
  constructor
  · intro room
    obtain ⟨id, following, inserted, start, entries⟩ :=
      insert_behind_tenants spaced sound unassigned owned' next own fits room
    exact ⟨id, following, _, inserted, placedAs_settled unassigned, start, entries⟩
  · intro full
    apply (insert_eq_regionFull_iff spaced sound unassigned owned').mpr
    rw [candidate_eq spaced sound (isNext_residents spaced next own), full]

/-- A file reaches into the region of definitions from below, and a definition lies in the middle of
its second megabyte. The next one takes up the rest of the region. -/
theorem definition_fills_region :
    let m : FileMap := { layout := {} }
    let across : File := ⟨{ address := 0x3FF_FF00, length := 0x200, name := "across" }, .inData⟩
    let first : File := ⟨{ address := 0x418_0000, length := 1, name := "first" }, .definition⟩
    let reached := m.session [.insert across, .insert first]
    let f : File := ⟨{ length := 0x1BE0_0000, name := "rest" }, .definition⟩
    let r : Region := ⟨0x400_0000, 0x2000_0000, 0x10_0000⟩
    ofLayout {} = .ok m ∧ f.info.isUnassigned ∧ Layout.regionFor {} f.type = some r ∧
      reached.tenants r = [across, first] ∧ r.IsNext (reached.tenants r) 0x420_0000 ∧
      0x420_0000 + f.info.length.toNat ≤ r.stop.toNat ∧ reached.residents r = [first] ∧
      ∃ id following placed, reached.insert f = .ok (id, following) ∧ f.PlacedAs placed ∧
        placed.start = 0x420_0000 ∧ following.entries.Perm (⟨id, placed⟩ :: reached.entries) := by
  intro m across first reached f r
  have made : ofLayout {} = .ok m := rfl
  have used : reached.tenants r = [across, first] := by decide
  have own : reached.residents r = [first] := by decide
  have next : r.IsNext (reached.tenants r) 0x420_0000 := by
    have furthest : ∀ g ∈ reached.tenants r, g.stop ≤ first.stop := by decide
    have raised : r.alignUp first.stop = 0x420_0000 := by decide
    rw [← raised]
    exact Region.isNext_alignUp (by decide) (by decide) furthest
  have fits : 0x420_0000 + f.info.length.toNat ≤ r.stop.toNat := by decide
  have law := unassigned_files_find_room made [.insert across, .insert first] (f := f) (r := r) rfl
    rfl next fits (fun none => absurd (own.symm.trans none) (List.cons_ne_nil _ _))
  exact ⟨made, rfl, rfl, used, next, fits, own, law.1 (by decide)⟩

/-- Where only a file from below is in the way, the first file of the region is refused although a
whole region lies free behind it. And at the very end of a region there is no place for a file of no
length. -/
theorem free_region_refuses :
    let m : FileMap := { layout := {} }
    let across : File := ⟨{ address := 0x3FF_FF00, length := 0x200, name := "across" }, .inData⟩
    let last : File :=
      ⟨{ address := 0x1FF0_0000, length := 0x10_0000, name := "last" }, .definition⟩
    let f : File := ⟨{ length := 1, name := "definition" }, .definition⟩
    let empty : File := ⟨{ length := 0, name := "empty" }, .definition⟩
    let r : Region := ⟨0x400_0000, 0x2000_0000, 0x10_0000⟩
    ofLayout {} = .ok m ∧ Layout.regionFor {} .definition = some r ∧ f.info.isUnassigned ∧
      empty.info.isUnassigned ∧
      (let reached := m.session [.insert across]
       r.IsNext (reached.tenants r) 0x410_0000 ∧ 0x410_0000 + f.info.length.toNat ≤ r.stop.toNat ∧
        reached.insert f = .error (.addressInUse 0x400_0000)) ∧
      (let reached := m.session [.insert last]
       r.IsNext (reached.tenants r) 0x2000_0000 ∧
        0x2000_0000 + empty.info.length.toNat ≤ r.stop.toNat ∧
        reached.insert empty = .error (.regionFull 0x400_0000 0x2000_0000)) := by
  intro m across last f empty r
  refine ⟨rfl, rfl, rfl, rfl, ⟨?_, by decide, by decide⟩, ?_, by decide, by decide⟩
  · have furthest : ∀ g ∈ (m.session [.insert across]).tenants r, g.stop ≤ across.stop := by decide
    have raised : r.alignUp across.stop = 0x410_0000 := by decide
    rw [← raised]
    exact Region.isNext_alignUp (by decide) (by decide) furthest
  · have furthest : ∀ g ∈ (m.session [.insert last]).tenants r, g.stop ≤ last.stop := by decide
    have raised : r.alignUp last.stop = 0x2000_0000 := by decide
    rw [← raised]
    exact Region.isNext_alignUp (by decide) (by decide) furthest

end FileMap

end PortWire
