import PortWire.Document.Grammar

/-!
# Documents and their texts

Bounds on the depth of a document by its parts, and the one thing that no text of a document
contains: a zero character, which has to be escaped wherever it stands.
-/

namespace PortWire.Document

/-! ## Depth -/

theorem itemsDepth_le {items : List Document} {n : Nat} :
    itemsDepth items ≤ n ↔ ∀ t ∈ items, t.depth ≤ n := by
  induction items with
  | nil => simp [itemsDepth]
  | cons t rest ih => rw [itemsDepth, Nat.max_le, ih, List.forall_mem_cons]

theorem membersDepth_le {members : List (String × Document)} {n : Nat} :
    membersDepth members ≤ n ↔ ∀ m ∈ members, m.2.depth ≤ n := by
  induction members with
  | nil => simp [membersDepth]
  | cons m rest ih => rw [membersDepth, Nat.max_le, ih, List.forall_mem_cons]

theorem depth_list_le {items : List Document} {n : Nat} (all : ∀ t ∈ items, t.depth ≤ n) :
    (list items).depth ≤ n + 1 := by
  rw [depth]
  exact Nat.succ_le_succ (itemsDepth_le.mpr all)

theorem depth_object_le {members : List (String × Document)} {n : Nat}
    (all : ∀ m ∈ members, m.2.depth ≤ n) : (object members).depth ≤ n + 1 := by
  rw [depth]
  exact Nat.succ_le_succ (membersDepth_le.mpr all)

/-! ## Zero characters -/

theorem nul_ne_hexDigit {n : Nat} {c : Char} (h : HexDigit n c) : '\x00' ≠ c := by
  have digits : ∀ i < 16, '\x00' ≠ i.digitChar ∧ '\x00' ≠ i.digitChar.toUpper := by decide
  obtain ⟨small, rfl | rfl⟩ := h
  · exact (digits n small).1
  · exact (digits n small).2

theorem SpellsUnit.nul_notMem {n : Nat} {cs : List Char} (h : SpellsUnit n cs) : '\x00' ∉ cs := by
  obtain ⟨first, second, third, fourth⟩ := h
  simp [nul_ne_hexDigit first, nul_ne_hexDigit second, nul_ne_hexDigit third,
    nul_ne_hexDigit fourth]

theorem SpellsChar.nul_notMem {c : Char} {cs : List Char} (h : SpellsChar c cs) :
    '\x00' ∉ cs := by
  cases h with
  | plain printable _ _ =>
    rw [List.mem_singleton]
    rintro rfl
    exact absurd printable (by decide)
  | @short mark known =>
    have marks : ∀ e ∈ escapes, '\x00' ≠ e.1 := by decide
    simp [marks (mark, c) known]
  | unit digits => simp [digits.nul_notMem]
  | pair _ _ _ first second => simp [first.nul_notMem, second.nul_notMem]

theorem SpellsChars.nul_notMem {chars cs : List Char} (h : SpellsChars chars cs) :
    '\x00' ∉ cs := by
  induction h with
  | nil => exact List.not_mem_nil
  | cons first _ ih =>
    rw [List.mem_append, not_or]
    exact ⟨first.nul_notMem, ih⟩

theorem Blank.nul_notMem {cs : List Char} (h : Blank cs) : '\x00' ∉ cs := by
  intro member
  exact absurd (h _ member) (by decide)

theorem nul_notMem_number (n : Number) : '\x00' ∉ n.chars := by
  intro member
  rcases List.mem_append.mp member with sign | digit
  · split at sign
    · exact absurd sign (by decide)
    · exact List.not_mem_nil sign
  · have : Char.isDigit '\x00' := Nat.isDigit_of_mem_toDigits (by decide) (by decide) digit
    exact absurd this (by decide)

mutual

/-- No text of a document contains a zero character. -/
theorem Spells.nul_notMem : ∀ {t : Document} {cs : List Char}, Spells t cs → '\x00' ∉ cs
  | _, _, .null => by decide
  | _, _, .yes => by decide
  | _, _, .no => by decide
  | _, _, .number n => nul_notMem_number n
  | _, _, .text chars => by simp [chars.nul_notMem]
  | _, _, .emptyList blank => by simp [blank.nul_notMem]
  | _, _, .list items => by simp [items.nul_notMem]
  | _, _, .emptyObject blank => by simp [blank.nul_notMem]
  | _, _, .object members => by simp [members.nul_notMem]
  | _, _, .padded before inside behind => by
    simp [before.nul_notMem, inside.nul_notMem, behind.nul_notMem]

theorem SpellsItems.nul_notMem : ∀ {items : List Document} {cs : List Char},
    SpellsItems items cs → '\x00' ∉ cs
  | _, _, .last item => item.nul_notMem
  | _, _, .more item rest => by simp [item.nul_notMem, rest.nul_notMem]

theorem SpellsMembers.nul_notMem : ∀ {members : List (String × Document)} {cs : List Char},
    SpellsMembers members cs → '\x00' ∉ cs
  | _, _, .last name item => by simp [name.nul_notMem, item.nul_notMem]
  | _, _, .more name item rest => by
    simp [name.nul_notMem, item.nul_notMem, rest.nul_notMem]

end

end PortWire.Document
