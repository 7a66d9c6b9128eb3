import PortWire.Proofs.FileMap.Spacing

/-!
# Looking up addresses

A look-up tries the entry that it remembers before it goes through the files. In a map whose files
are spaced an address lies in one file at most, so whatever is remembered, also a position that an
insertion or a removal has made stale, the answer is that of the plain scan.
-/

namespace PortWire.FileMap

/-- The resident files that contain an address, whose flag bits do not count. -/
def filesAt (address : UInt32) (m : FileMap) : List File :=
  m.files.filter fun f => f.info.Contains (Address.internal address).toNat

/-- The first file in order that contains an address. Nothing is remembered. -/
def scan (address : UInt32) (m : FileMap) : Option File :=
  m.files.find? fun f => f.info.Contains (Address.internal address).toNat

/-- No file behind one that contains the address contains it too. -/
theorem filter_contains {files : List File} (spaced : files.Pairwise fun a b => a.stop ≤ b.start)
    (address : Nat) :
    (files.filter fun f => f.info.Contains address) =
      (files.find? fun f => f.info.Contains address).toList := by
  induction files with
  | nil => rfl
  | cons first rest ih =>
    obtain ⟨hfirst, hrest⟩ := List.pairwise_cons.mp spaced
    by_cases inside : first.info.Contains address
    · have none_behind : (rest.filter fun f => f.info.Contains address) = [] := by
        rw [List.filter_eq_nil_iff]
        intro f hf contained
        have hstart : f.start ≤ address := (of_decide_eq_true contained).1
        have hstop : address < first.stop := inside.2
        have := hfirst f hf
        omega
      rw [List.filter_cons_of_pos (by simpa using inside), none_behind,
        List.find?_cons_of_pos (by simpa using inside)]
      rfl
    · rw [List.filter_cons_of_neg (by simpa using inside),
        List.find?_cons_of_neg (by simpa using inside)]
      exact ih hrest

theorem filesAt_eq_scan {m : FileMap} (spaced : Spaced m.entries) (address : UInt32) :
    m.filesAt address = (m.scan address).toList :=
  filter_contains (spaced_files spaced) _

/-- Any resident file that contains the address is the one that the scan finds. -/
theorem scan_eq_some {m : FileMap} (spaced : Spaced m.entries) {address : UInt32} {f : File}
    (resident : f ∈ m.files) (inside : f.info.Contains (Address.internal address).toNat) :
    m.scan address = some f := by
  have found : f ∈ m.filesAt address :=
    List.mem_filter.mpr ⟨resident, decide_eq_true inside⟩
  rw [filesAt_eq_scan spaced, Option.mem_toList] at found
  exact found

theorem remembered?_eq_some {m : FileMap} {address : Nat} {f : File}
    (h : m.remembered? address = some f) : f ∈ m.files ∧ f.info.Contains address := by
  obtain ⟨e, he, hf⟩ := Option.bind_eq_some_iff.mp h
  obtain ⟨i, _, hi⟩ := Option.bind_eq_some_iff.mp he
  split at hf
  · rename_i inside
    cases hf
    exact ⟨List.mem_map_of_mem (List.mem_of_getElem? hi), inside⟩
  · cases hf

/-- A scan by position and a scan for the file itself come to the same file. -/
theorem getElem?_findIdx? {m : FileMap} {address : UInt32} {i : Nat}
    (h : (m.entries.findIdx? fun e => e.file.info.Contains (Address.internal address).toNat) =
      some i) :
    ∃ f ∈ m.files, m.files[i]? = some f ∧
      f.info.Contains (Address.internal address).toNat := by
  obtain ⟨bound, inside, _⟩ := List.findIdx?_eq_some_iff_getElem.mp h
  have hi : m.files[i]? = some m.entries[i].file := by
    rw [files, List.getElem?_map, List.getElem?_eq_getElem bound]
    rfl
  exact ⟨m.entries[i].file, List.mem_of_getElem? hi, hi, of_decide_eq_true inside⟩

/-- What a look-up remembers has no influence on the file that it finds. -/
theorem findAddress_eq_scan {m : FileMap} (spaced : Spaced m.entries) (address : UInt32) :
    (m.findAddress address).1 = m.scan address := by
  unfold findAddress
  cases hcache : m.remembered? (Address.internal address).toNat with
  | some f =>
    obtain ⟨resident, inside⟩ := remembered?_eq_some hcache
    simp only [hcache]
    exact (scan_eq_some spaced resident inside).symm
  | none =>
    cases hscan : m.entries.findIdx? fun e =>
        e.file.info.Contains (Address.internal address).toNat with
    | none =>
      have outside := List.findIdx?_eq_none_iff.mp hscan
      simp only [hcache, hscan]
      refine (List.find?_eq_none.mpr ?_).symm
      intro f hf
      obtain ⟨e, he, rfl⟩ := List.mem_map.mp hf
      simpa using outside e he
    | some i =>
      obtain ⟨f, resident, hi, inside⟩ := getElem?_findIdx? hscan
      simp only [hcache, hscan, hi]
      exact (scan_eq_some spaced resident inside).symm

/-- After any session on a new map, a look-up finds the one resident file that contains the address,
and none if there is none. This is what a scan of the files finds, and it stays so whichever entry
is remembered. The look-up leaves the files as they are. -/
theorem session_findAddress {layout : Layout} {m : FileMap} (made : ofLayout layout = .ok m)
    (commands : List Command) (address : UInt32) :
    let reached := m.session commands
    (reached.findAddress address).1.toList = reached.filesAt address ∧
      (reached.findAddress address).1 = reached.scan address ∧
      (∀ cache, ({ reached with lastFound := cache }.findAddress address).1 =
        reached.scan address) ∧
      (reached.findAddress address).2.entries = reached.entries := by
  intro reached
  have fresh : Spaced m.entries := by
    rw [entries_ofLayout made]
    exact List.Pairwise.nil
  have spaced : Spaced reached.entries := spaced_session commands fresh
  have found := findAddress_eq_scan spaced address
  refine ⟨?_, found, ?_, entries_findAddress reached address⟩
  · rw [found, filesAt_eq_scan spaced]
  · intro cache
    have cached : Spaced { reached with lastFound := cache }.entries := spaced
    exact findAddress_eq_scan cached address

/-- The second look-up comes after an insertion in front of the file that the first one found, and
the last after a removal. -/
theorem session_findAddress_default :
    ofLayout {} = .ok { layout := {} } ∧
      let reached := session { layout := {} }
        [.insert ⟨{ address := 0x8000_0400, length := 0x100, name := "remote" }, .inData⟩,
          .findAddress 0x4FF,
          .insert ⟨{ address := 0x100, length := 0x300, name := "front" }, .inData⟩,
          .findAddress 0x400, .remove ⟨1⟩]
      reached.filesAt 0x4000_0450 =
        [⟨{ address := 0x8000_0400, length := 0x100, name := "remote" }, .inData⟩] ∧
      (reached.findAddress 0x4000_0450).1.toList = reached.filesAt 0x4000_0450 := by
  have made : ofLayout {} = .ok { layout := {} } := rfl
  exact ⟨made, by decide, (session_findAddress made _ _).1⟩

end PortWire.FileMap
