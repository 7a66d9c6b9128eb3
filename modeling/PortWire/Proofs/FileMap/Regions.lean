import PortWire.Proofs.FileMap.Handles

/-!
# Regions

Where a file without an address comes to lie in a region. The search stops at the first file behind
the region and looks at the last one found; as resident files are spaced, that is the last of all
files that start in the region, and none of them ends behind it. Of the layout it is assumed that it
was accepted, of the resident files nothing but their spacing.
-/

namespace PortWire

/-- How many addresses there are without flag bits. -/
def Address.space : Nat :=
  internalMask.toNat + 1

namespace Region

/-- What holds of a region in which no flaw is found. -/
structure Sound (r : Region) : Prop where
  boundary : IsPowerOfTwo r.boundary.toNat
  start_lt_stop : r.start.toNat < r.stop.toNat
  stop_le_command : r.stop.toNat ≤ Address.commandStart.toNat

theorem sound_of_flaw? {r : Region} (h : r.flaw? = none) : r.Sound := by
  unfold flaw? at h
  split at h
  · cases h
  · next power =>
    split at h
    · cases h
    · next nonempty =>
      split at h
      · cases h
      · next below =>
        rw [UInt32.le_iff_toNat_le] at nonempty
        rw [UInt32.lt_iff_toNat_lt] at below
        exact ⟨not_not.mp power, by omega, by omega⟩

section AlignUp

variable {r : Region} (power : IsPowerOfTwo r.boundary.toNat) (address : Nat)

include power

theorem boundary_pos : 0 < r.boundary.toNat := by
  rw [IsPowerOfTwo] at power
  rw [power, Nat.one_shiftLeft]
  exact Nat.two_pow_pos _

/-- Clearing the bits below a power of two is rounding down. -/
theorem alignUp_eq :
    r.alignUp address =
      (address + (r.boundary.toNat - 1)) / r.boundary.toNat * r.boundary.toNat := by
  have low : ∀ n, n &&& (r.boundary.toNat - 1) = n % r.boundary.toNat := by
    intro n
    rw [IsPowerOfTwo] at power
    rw [power, Nat.one_shiftLeft, Nat.and_two_pow_sub_one_eq_mod]
  rw [alignUp]
  simp only [low]
  have parts := Nat.div_add_mod' (address + (r.boundary.toNat - 1)) r.boundary.toNat
  omega

theorem dvd_alignUp : r.boundary.toNat ∣ r.alignUp address := by
  rw [alignUp_eq power]
  exact Nat.dvd_mul_left _ _

theorem le_alignUp : address ≤ r.alignUp address := by
  have positive := boundary_pos power
  have parts := Nat.div_add_mod' (address + (r.boundary.toNat - 1)) r.boundary.toNat
  have rest := Nat.mod_lt (address + (r.boundary.toNat - 1)) positive
  rw [alignUp_eq power]
  omega

theorem alignUp_le {a : Nat} (multiple : r.boundary.toNat ∣ a) (behind : address ≤ a) :
    r.alignUp address ≤ a := by
  have positive := boundary_pos power
  obtain ⟨k, rfl⟩ := multiple
  rw [alignUp_eq power, Nat.mul_comm]
  refine Nat.mul_le_mul_left _ (Nat.le_of_lt_succ ?_)
  rw [Nat.div_lt_iff_lt_mul positive, Nat.succ_mul, Nat.mul_comm k]
  omega

end AlignUp

end Region

namespace Layout

theorem flaw?_of_validate {l : Layout} (h : l.validate = .ok ()) (name : RegionName) :
    (l.region name).flaw? = none := by
  unfold validate at h
  dsimp only at h
  split at h
  · next none_found =>
    rw [List.filterMap_eq_nil_iff] at none_found
    exact Option.map_eq_none_iff.mp (none_found name (by cases name <;> decide))
  · cases h

theorem sound_of_validate {l : Layout} (h : l.validate = .ok ()) {type : FileType} {r : Region}
    (owned : l.regionFor type = some r) : r.Sound := by
  have named : ∃ name, l.region name = r := by
    cases type with
    | unknown => cases owned
    | inData | outData => exact ⟨.portData, Option.some.inj owned⟩
    | definition => exact ⟨.definition, Option.some.inj owned⟩
    | custom => exact ⟨.userData, Option.some.inj owned⟩
  obtain ⟨name, rfl⟩ := named
  exact Region.sound_of_flaw? (flaw?_of_validate h name)

end Layout

namespace FileMap

/-- The resident files that start in the region. -/
def residents (m : FileMap) (r : Region) : List File :=
  m.files.filter fun f => r.Contains f.start

/-- Where the next file of the region is placed, if there is room. -/
def candidate (m : FileMap) (r : Region) : Nat :=
  match (m.residents r).getLast? with
  | none => r.start.toNat
  | some last => r.alignUp last.stop

theorem filter_takeWhile {files : List File} (spaced : files.Pairwise fun a b => a.stop ≤ b.start)
    (r : Region) :
    ((files.takeWhile fun f => f.start < r.stop.toNat).filter fun f => r.start.toNat ≤ f.start) =
      files.filter fun f => r.Contains f.start := by
  induction files with
  | nil => rfl
  | cons first rest ih =>
    obtain ⟨hfirst, hrest⟩ := List.pairwise_cons.mp spaced
    by_cases below : first.start < r.stop.toNat
    · rw [List.takeWhile_cons_of_pos (by simpa using below), List.filter_cons, List.filter_cons,
        ih hrest]
      simp only [Region.Contains, below, and_true]
    · -- All later files start behind this one, so the search loses nothing by stopping here.
      have none_behind : (first :: rest).filter (fun f => r.Contains f.start) = [] := by
        rw [List.filter_eq_nil_iff]
        intro f hf contained
        have inside := (of_decide_eq_true contained).2
        rcases List.mem_cons.mp hf with rfl | later
        · exact below inside
        · have := hfirst f later
          have := first.start_le_stop
          omega
      rw [List.takeWhile_cons_of_neg (by simpa using below), none_behind]
      rfl

theorem freeAddress_eq {m : FileMap} (spaced : Spaced m.entries) {r : Region} (sound : r.Sound) :
    m.freeAddress r =
      if m.candidate r < r.stop.toNat then .ok (UInt32.ofNat (m.candidate r))
      else .error (.regionFull r.start r.stop) := by
  have files := spaced_files spaced
  have same := filter_takeWhile files r
  rw [freeAddress, candidate, residents]
  simp only [same]
  cases (m.files.filter fun f => r.Contains f.start).getLast? with
  | none => simp only [sound.start_lt_stop, if_true, UInt32.ofNat_toNat]
  | some last => rfl

theorem stop_le_of_getLast? {m : FileMap} (spaced : Spaced m.entries) {r : Region} {last : File}
    (h : (m.residents r).getLast? = some last) : ∀ g ∈ m.residents r, g.stop ≤ last.stop := by
  have files := spaced_files spaced
  have listed : (m.residents r).Pairwise fun a b => a.stop ≤ b.start :=
    files.sublist List.filter_sublist
  obtain ⟨front, parts⟩ := List.getLast?_eq_some_iff.mp h
  rw [parts] at listed ⊢
  intro g hg
  rcases List.mem_append.mp hg with earlier | final
  · have := (List.pairwise_append.mp listed).2.2 g earlier last List.mem_cons_self
    have := last.start_le_stop
    omega
  · exact Nat.le_of_eq (congrArg File.stop (List.mem_singleton.mp final))

/-- The first address of an empty region, and otherwise the least multiple of the boundary behind
all files that start in the region. -/
theorem candidate_spec {m : FileMap} (spaced : Spaced m.entries) {r : Region} (sound : r.Sound) :
    (m.residents r = [] ∧ m.candidate r = r.start.toNat) ∨
      (m.residents r ≠ [] ∧ r.boundary.toNat ∣ m.candidate r ∧
        (∀ g ∈ m.residents r, g.stop ≤ m.candidate r) ∧
        ∀ a, r.boundary.toNat ∣ a → (∀ g ∈ m.residents r, g.stop ≤ a) → m.candidate r ≤ a) := by
  cases h : (m.residents r).getLast? with
  | none =>
    refine Or.inl ⟨List.getLast?_eq_none_iff.mp h, ?_⟩
    rw [candidate, h]
  | some last =>
    have chosen : m.candidate r = r.alignUp last.stop := by rw [candidate, h]
    have member : last ∈ m.residents r := List.mem_of_getLast? h
    rw [chosen]
    refine Or.inr ⟨List.ne_nil_of_mem member, Region.dvd_alignUp sound.boundary _, ?_, ?_⟩
    · intro g hg
      exact Nat.le_trans (stop_le_of_getLast? spaced h g hg) (Region.le_alignUp sound.boundary _)
    · exact fun a multiple behind => Region.alignUp_le sound.boundary _ multiple (behind last member)

theorem start_le_candidate {m : FileMap} (spaced : Spaced m.entries) {r : Region}
    (sound : r.Sound) : r.start.toNat ≤ m.candidate r := by
  rcases candidate_spec spaced sound with ⟨_, first⟩ | ⟨occupied, _, behind, _⟩
  · exact Nat.le_of_eq first.symm
  · obtain ⟨g, hg⟩ := List.exists_mem_of_ne_nil _ occupied
    have inside : r.Contains g.start := of_decide_eq_true (List.mem_filter.mp hg).2
    have := behind g hg
    have := g.start_le_stop
    have := inside.1
    omega

/-! ## Placing a file -/

theorem layout_perform (m : FileMap) (command : Command) :
    (m.perform command).2.layout = m.layout := by
  cases command with
  | insert f =>
    simp only [perform]
    split
    · rfl
    · next hinsert =>
      obtain ⟨_, _, _, _, _, _, hm⟩ := insert_eq_ok hinsert
      rw [hm]
  | findAddress address =>
    simp only [perform, findAddress]
    split
    · rfl
    · split <;> rfl
  | remove _ | get _ | contains _ | findName _ | takeAll => rfl

theorem layout_session (m : FileMap) (commands : List Command) :
    (m.session commands).layout = m.layout :=
  session_keeps (P := fun reached => reached.layout = m.layout)
    (fun reached command same => (layout_perform reached command).trans same) commands rfl

/-- Clearing the flag bits leaves what is above whole turns of the address space. -/
theorem toNat_internal_ofNat (n : Nat) :
    (Address.internal (UInt32.ofNat n)).toNat = n % Address.space := by
  have mask : Address.internalMask.toNat = (1 <<< 30) - 1 := rfl
  have size : Address.space = 0x4000_0000 := rfl
  rw [Address.internal, UInt32.toNat_and, UInt32.toNat_ofNat', mask, Nat.one_shiftLeft,
    Nat.and_two_pow_sub_one_eq_mod, size]
  omega

/-- Addresses below the command area have no flag bits. -/
theorem internal_ofNat {n : Nat} (h : n < Address.commandStart.toNat) :
    (Address.internal (UInt32.ofNat n)).toNat = n := by
  have below : Address.commandStart.toNat < Address.space := by decide
  rw [toNat_internal_ofNat]
  exact Nat.mod_eq_of_lt (Nat.lt_trans h below)

/-- The file with the address that is free in its region. -/
def settled (m : FileMap) (r : Region) (f : File) : File :=
  { f with info := { f.info with address := UInt32.ofNat (m.candidate r) } }

theorem locate_unassigned {m : FileMap} (spaced : Spaced m.entries) {f : File} {r : Region}
    (sound : r.Sound) (unassigned : f.info.isUnassigned)
    (owned : m.layout.regionFor f.type = some r) :
    m.locate f =
      if m.candidate r < r.stop.toNat then .ok (m.settled r f)
      else .error (.regionFull r.start r.stop) := by
  rw [locate, if_pos unassigned, owned]
  simp only [freeAddress_eq spaced sound]
  by_cases room : m.candidate r < r.stop.toNat
  · simp only [room, if_true, settled]
  · simp only [room, if_false]

theorem locate_assigned {m : FileMap} {f : File} (assigned : f.info.isUnassigned = false) :
    m.locate f = .ok f := by
  rw [locate, assigned]
  rfl

/-- A file that is located keeps its address or is given the one that is free in its region. -/
theorem locate_eq_ok {m : FileMap} (spaced : Spaced m.entries)
    (valid : m.layout.validate = .ok ()) {f g : File} (located : m.locate f = .ok g) :
    (f.info.isUnassigned = false ∧ g = f) ∨
      (f.info.isUnassigned ∧ ∃ r, m.layout.regionFor f.type = some r ∧ r.Sound ∧
        m.candidate r < r.stop.toNat ∧ g = m.settled r f) := by
  cases own : f.info.isUnassigned with
  | false =>
    rw [locate_assigned own] at located
    exact Or.inl ⟨rfl, (Except.ok.inj located).symm⟩
  | true =>
    cases owned : m.layout.regionFor f.type with
    | none =>
      rw [locate, if_pos own, owned] at located
      cases located
    | some r =>
      have sound := Layout.sound_of_validate valid owned
      rw [locate_unassigned spaced sound own owned] at located
      split at located
      · next room =>
        cases located
        exact Or.inr ⟨rfl, r, rfl, sound, room, rfl⟩
      · cases located

theorem start_settled {m : FileMap} {r : Region} (sound : r.Sound)
    (room : m.candidate r < r.stop.toNat) (f : File) :
    (m.settled r f).start = m.candidate r :=
  internal_ofNat (Nat.lt_of_lt_of_le room sound.stop_le_command)

theorem settled_address_toNat {m : FileMap} {r : Region} (room : m.candidate r < r.stop.toNat)
    (f : File) :
    (m.settled r f).info.address.toNat = m.candidate r := by
  have bound : r.stop.toNat < UInt32.size := r.stop.toNat_lt
  exact UInt32.toNat_ofNat_of_lt' (Nat.lt_trans room bound)

/-- A file that is given an address starts in its region. -/
theorem contains_settled {m : FileMap} (spaced : Spaced m.entries) {r : Region} (sound : r.Sound)
    (room : m.candidate r < r.stop.toNat) (f : File) : r.Contains (m.settled r f).start := by
  rw [start_settled sound room]
  exact ⟨start_le_candidate spaced sound, room⟩

end FileMap

end PortWire
