import PortWire.Json.Print

/-!
# Printed documents

A document is printed as a text that spells it. Putting the members of its objects in order moves
them about and does nothing else.
-/

namespace PortWire.Json

open Document

/-! ## Strings -/

theorem hexDigit_mod (n : Nat) : HexDigit (n % 16) (hexDigit n) :=
  ⟨Nat.mod_lt n (by decide), Or.inl rfl⟩

theorem spellsChar_unitChars {c : Char} (small : c.toNat < 0x10000) :
    SpellsChar c (unitChars c.toNat) := by
  have digits := SpellsUnit.digits (hexDigit_mod (c.toNat / 4096)) (hexDigit_mod (c.toNat / 256))
    (hexDigit_mod (c.toNat / 16)) (hexDigit_mod c.toNat)
  have value : 16 * (16 * (16 * (c.toNat / 4096 % 16) + c.toNat / 256 % 16) +
      c.toNat / 16 % 16) + c.toNat % 16 = c.toNat := by omega
  rw [value] at digits
  exact .unit digits

/-- The characters that are escaped by a name. -/
def shortEscapes : List Char := ['"', '\\', '\x08', '\x0c', '\n', '\r', '\t']

theorem charChars_of_notMem {c : Char} (h : c ∉ shortEscapes) :
    charChars c = if c.toNat < 0x20 then unitChars c.toNat else [c] := by
  simp only [shortEscapes, List.mem_cons, List.not_mem_nil, or_false, not_or] at h
  obtain ⟨quote, backslash, b, f, n, r, t⟩ := h
  rw [charChars] <;> assumption

theorem spellsChar_charChars (c : Char) : SpellsChar c (charChars c) := by
  by_cases named : c ∈ shortEscapes
  · simp only [shortEscapes, List.mem_cons, List.not_mem_nil, or_false] at named
    rcases named with rfl | rfl | rfl | rfl | rfl | rfl | rfl <;> exact .short (by decide)
  · rw [charChars_of_notMem named]
    simp only [shortEscapes, List.mem_cons, List.not_mem_nil, or_false, not_or] at named
    split
    · next control => exact spellsChar_unitChars (by omega)
    · next printable => exact .plain (Nat.not_lt.mp printable) named.1 named.2.1

theorem spellsChars_flatMap (chars : List Char) : SpellsChars chars (chars.flatMap charChars) := by
  induction chars with
  | nil => exact .nil
  | cons c rest ih => exact .cons (spellsChar_charChars c) ih

theorem spells_textChars (s : String) : Spells (.text s) (textChars s) :=
  .text (spellsChars_flatMap s.toList)

/-! ## Documents -/

mutual

theorem spells_chars : (t : Document) → t.Spells (chars t)
  | .null => .null
  | .bool true => .yes
  | .bool false => .no
  | .number n => .number n
  | .text s => spells_textChars s
  | .list [] => .emptyList fun _ h => absurd h List.not_mem_nil
  | .list (t :: rest) => .list (spells_itemsChars (t :: rest) (List.cons_ne_nil t rest))
  | .object [] => .emptyObject fun _ h => absurd h List.not_mem_nil
  | .object (m :: rest) => .object (spells_membersChars (m :: rest) (List.cons_ne_nil m rest))

theorem spells_itemsChars : (items : List Document) → items ≠ [] →
    SpellsItems items (itemsChars items)
  | [], present => absurd rfl present
  | [t], _ => .last (spells_chars t)
  | t :: next :: rest, _ =>
    .more (spells_chars t) (spells_itemsChars (next :: rest) (List.cons_ne_nil next rest))

theorem spells_membersChars : (members : List (String × Document)) → members ≠ [] →
    SpellsMembers members (membersChars members)
  | [], present => absurd rfl present
  | [(name, t)], _ => .last (spells_textChars name) (spells_chars t)
  | (name, t) :: next :: rest, _ =>
    .more (spells_textChars name) (spells_chars t)
      (spells_membersChars (next :: rest) (List.cons_ne_nil next rest))

end

theorem spells_print (t : Document) : t.Spells (print t).toList := by
  rw [print, String.toList_ofList]
  exact spells_chars t

/-! ## Order of members -/

theorem sorted_leaf {t : Document} (leaf : t.depth = 0) : sorted t = t := by
  cases t with
  | list items => cases leaf
  | object members => cases leaf
  | _ => rfl

theorem sortedItems_eq_map (items : List Document) : sortedItems items = items.map sorted := by
  induction items with
  | nil => rfl
  | cons t rest ih => rw [sortedItems, ih, List.map_cons]

theorem insertMember_perm (m : String × Document) (members : List (String × Document)) :
    (insertMember m members).Perm (m :: members) := by
  induction members with
  | nil => exact List.Perm.refl _
  | cons n rest ih =>
    rw [insertMember]
    split
    · exact (ih.cons n).trans (List.Perm.swap m n rest)
    · exact List.Perm.refl _

theorem sortedMembers_perm (members : List (String × Document)) :
    (sortedMembers members).Perm (members.map fun m => (m.1, sorted m.2)) := by
  induction members with
  | nil => exact List.Perm.refl _
  | cons m rest ih => exact (insertMember_perm _ _).trans (ih.cons _)

end PortWire.Json
