import PortWire.Exchange.Value
import PortWire.Proofs.Exchange.Forms
import PortWire.Proofs.Fields

/-!
# Values that lose nothing

A value is read back from its document with the fields of every record in their order, as long as no
record has two fields of one name. Every value that is read has none: a name that comes again takes
the place of the field that was there. What is read also nests no deeper than there was room for, so
it can be written and read once more. Nothing is assumed of the names, or of what else stood in the
text.
-/

namespace PortWire

open Codec Form

variable {C : Codec}

/-! ## Tagged values -/

section Tagged

variable {α : Type} [Named α]

/-- A document for a case with its content: the tag and the content, in either order. -/
def Codec.IsCase (a : α) (content t : Document) : Prop :=
  t.Gives [(tagKey, .text (Named.name a)), (contentKey, content)]

theorem isCase_ofCase [C.Derived] (a : α) (content : Document) :
    IsCase a content (C.ofCase a content) :=
  ⟨_, Derived.ofTagged_eq .., List.Perm.refl _⟩

theorem case?_shown [C.Derived] {a : α} {content t : Document} (isCase : IsCase a content t)
    {d : C.Part} (shown : C.Shows d t) :
    ∃ x, C.case? α d = some (a, x) ∧ C.Shows x.val content := by
  obtain ⟨members, rfl, perm⟩ := isCase
  have apart : tagKey ≠ contentKey := by decide
  obtain ⟨x, found, inside⟩ := Derived.exists_tagged shown apart (Named.name_mem_names a) perm
  refine ⟨x, ?_, inside⟩
  simp only [case?, found, Option.bind_some, Named.ofName?_name, Option.map_some]

theorem depth_isCase {a : α} {content t : Document} (isCase : IsCase a content t) :
    t.depth = content.depth + 1 := by
  obtain ⟨members, rfl, perm⟩ := isCase
  have bound : ∀ n, Document.membersDepth members ≤ n ↔ content.depth ≤ n := by
    intro n
    rw [Document.membersDepth_le]
    constructor
    · intro all
      exact all (contentKey, content) (perm.mem_iff.mpr (by simp))
    · intro inside m hm
      have known := perm.mem_iff.mp hm
      simp only [List.mem_cons, List.not_mem_nil, or_false] at known
      rcases known with rfl | rfl
      · exact Nat.zero_le n
      · exact inside
  have same : Document.membersDepth members = content.depth :=
    Nat.le_antisymm ((bound _).mpr (Nat.le_refl _)) ((bound _).mp (Nat.le_refl _))
  rw [Document.depth, same]

end Tagged

/-! ## Scalars -/

namespace Scalar

theorem read_content (s : Scalar) {d : C.Part} (shown : C.Shows d (s.content C)) :
    ofContent? C d s.type = some s := by
  cases s with
  | u32 n => exact congrArg (Option.map Scalar.u32) (Lawful.read_shown (a := n) shown)
  | i32 n => exact congrArg (Option.map Scalar.i32) (Lawful.read_shown (a := n) shown)
  | u64 n => exact congrArg (Option.map Scalar.u64) (Lawful.read_shown (a := n) shown)
  | i64 n => exact congrArg (Option.map Scalar.i64) (Lawful.read_shown (a := n) shown)
  | bool b => exact congrArg (Option.map Scalar.bool) (Lawful.read_shown (a := b) shown)
  | str s => exact congrArg (Option.map Scalar.str) (Lawful.read_shown (a := s) shown)
  | bytes bs => exact congrArg (Option.map Scalar.bytes) (Lawful.read_shown (a := bs) shown)

theorem read_isCase [C.Derived] {s : Scalar} {t : Document}
    (written : IsCase s.type (s.content C) t) {d : C.Part} (shown : C.Shows d t) :
    C.read? d = some s := by
  obtain ⟨x, found, inside⟩ := case?_shown written shown
  have read : C.read? (α := Scalar) d =
    (C.case? ScalarType d).bind fun m => ofContent? C m.2.val m.1 := rfl
  rw [read, found]
  exact read_content s inside

/-- Levels of the content. -/
def contentLevels : Scalar → Nat
  | .bytes _ => 1
  | _ => 0

theorem depth_content (s : Scalar) : (s.content C).depth = s.contentLevels := by
  cases s with
  | bytes bs =>
    have flat : Document.itemsDepth (bs.map C.write) ≤ 0 := by
      rw [Document.itemsDepth_le]
      intro t ht
      obtain ⟨b, _, rfl⟩ := List.mem_map.mp ht
      exact Lawful.depth_le b
    exact congrArg Nat.succ (Nat.le_zero.mp flat)
  | u32 _ | i32 _ | u64 _ | i64 _ | bool _ | str _ => rfl

/-- There was room for what is read as the content. -/
theorem contentLevels_le [C.Standard] {s : Scalar} {type : ScalarType} {d : C.Part}
    (h : ofContent? C d type = some s) : s.contentLevels ≤ C.room d := by
  cases type with
  | bytes =>
    obtain ⟨bs, read, rfl⟩ := Option.map_eq_some_iff.mp h
    obtain ⟨items, opened, _⟩ := Option.bind_eq_some_iff.mp read
    exact Standard.room_items (Option.isSome_iff_exists.mpr ⟨items, opened⟩)
  | u32 | i32 | u64 | i64 | bool | str =>
    obtain ⟨_, _, rfl⟩ := Option.map_eq_some_iff.mp h
    exact Nat.zero_le _

theorem levels_le [C.Standard] {s : Scalar} {d : C.Part} (h : C.read? d = some s) :
    s.contentLevels < C.room d := by
  obtain ⟨⟨type, x⟩, _, content⟩ := Option.bind_eq_some_iff.mp h
  exact Nat.lt_of_le_of_lt (contentLevels_le content) x.property

end Scalar

namespace Fields

theorem insert_of_fresh {fields : Fields} {key : String} (fresh : ∀ f ∈ fields, f.1 ≠ key)
    (v : Value) : insert key v fields = fields ++ [(key, v)] := by
  induction fields with
  | nil => rfl
  | cons f rest ih =>
    rw [insert, if_neg (fresh f List.mem_cons_self),
      ih fun g hg => fresh g (List.mem_cons_of_mem f hg), List.cons_append]

theorem ofPairs_of_nodup {fields : Fields} (distinct : (fields.map Prod.fst).Nodup) :
    ofPairs fields = fields := by
  induction fields using List.reverseRecOn with
  | nil => rfl
  | append_singleton fields field ih =>
    obtain ⟨key, v⟩ := field
    rw [List.map_append, List.map_singleton, List.nodup_append] at distinct
    obtain ⟨distinct, -, apart⟩ := distinct
    have fresh : ∀ f ∈ fields, f.1 ≠ key := fun f hf =>
      apart f.1 (List.mem_map_of_mem hf) key (List.mem_singleton_self key)
    rw [← insert_ofPairs, ih distinct, insert_of_fresh fresh]

theorem ofList_eq_ofPairs (pairs : List (String × Value)) : ofList pairs = ofPairs pairs := by
  induction pairs using List.reverseRecOn with
  | nil => rfl
  | append_singleton pairs pair ih =>
    obtain ⟨key, v⟩ := pair
    rw [← insert_ofPairs, ← ih]
    exact List.foldl_concat ..

/-- Every field is one of those that came. -/
theorem mem_of_mem_ofPairs {pairs : List (String × Value)} {f : String × Value}
    (h : f ∈ ofPairs pairs) : f ∈ pairs := by
  obtain ⟨key, _, h⟩ := List.mem_filterMap.mp h
  obtain ⟨v, found, rfl⟩ := Option.map_eq_some_iff.mp h
  obtain ⟨before, behind, split, -⟩ := List.lookup_eq_some_iff.mp found
  rw [← List.mem_reverse, split]
  exact List.mem_append_right before List.mem_cons_self

theorem nodup_ofPairs (pairs : List (String × Value)) : ((ofPairs pairs).map Prod.fst).Nodup := by
  have keys : (ofPairs pairs).map Prod.fst = (pairs.map Prod.fst).eraseDups := by
    rw [ofPairs, List.map_filterMap]
    refine (List.filterMap_congr fun key hkey => ?_).trans List.filterMap_some
    obtain ⟨v, found⟩ := Option.isSome_iff_exists.mp
      (lookup_reverse_isSome (List.mem_eraseDups.mp hkey))
    rw [found]
    rfl
  rw [keys]
  exact nodup_eraseDups _

end Fields

namespace Value

mutual

/-- No record has two fields of one name. A record is a map from names, so this is so of every value
that comes up; the list of its fields alone does not say it. -/
def Keyed : Value → Prop
  | .scalar _ => True
  | .array items => AllKeyed items
  | .record fields => (fields.map Prod.fst).Nodup ∧ FieldsKeyed fields

def AllKeyed : List Value → Prop
  | [] => True
  | v :: rest => v.Keyed ∧ AllKeyed rest

def FieldsKeyed : List (String × Value) → Prop
  | [] => True
  | (_, v) :: rest => v.Keyed ∧ FieldsKeyed rest

end

theorem allKeyed_iff {items : List Value} : AllKeyed items ↔ ∀ v ∈ items, v.Keyed := by
  induction items with
  | nil => simp [AllKeyed]
  | cons v rest ih => simp [AllKeyed, ih]

theorem fieldsKeyed_iff {fields : List (String × Value)} :
    FieldsKeyed fields ↔ ∀ f ∈ fields, f.2.Keyed := by
  induction fields with
  | nil => simp [FieldsKeyed]
  | cons f rest ih => simp [FieldsKeyed, ih]

/-! ## Writing and reading back -/

section

variable (C)

mutual

/-- The document says this value; the members of its tagged values may stand in either order. -/
def WrittenAs : Value → Document → Prop
  | .scalar s, t => ∃ u, IsCase s.type (s.content C) u ∧ IsCase ValueType.scalar u t
  | .array items, t => ∃ us, ItemsWrittenAs items us ∧ IsCase ValueType.array (.list us) t
  | .record fields, t => ∃ us, FieldsWrittenAs fields us ∧ IsCase ValueType.record (.object us) t

def ItemsWrittenAs : List Value → List Document → Prop
  | [], [] => True
  | v :: items, t :: ts => v.WrittenAs t ∧ ItemsWrittenAs items ts
  | _, _ => False

def FieldsWrittenAs : List (String × Value) → List (String × Document) → Prop
  | [], [] => True
  | (key, v) :: fields, (name, t) :: ts => key = name ∧ v.WrittenAs t ∧ FieldsWrittenAs fields ts
  | _, _ => False

end

end

mutual

theorem writtenAs_write [C.Derived] : ∀ v : Value, v.WrittenAs C (v.write C)
  | .scalar _ => ⟨_, isCase_ofCase .., isCase_ofCase ..⟩
  | .array items => ⟨_, itemsWrittenAs_write items, isCase_ofCase ..⟩
  | .record fields => ⟨_, fieldsWrittenAs_write fields, isCase_ofCase ..⟩

theorem itemsWrittenAs_write [C.Derived] :
    ∀ items : List Value, ItemsWrittenAs C items (writeItems C items)
  | [] => trivial
  | v :: rest => ⟨writtenAs_write v, itemsWrittenAs_write rest⟩

theorem fieldsWrittenAs_write [C.Derived] :
    ∀ fields : List (String × Value), FieldsWrittenAs C fields (writeFields C fields)
  | [] => trivial
  | (_, v) :: rest => ⟨rfl, writtenAs_write v, fieldsWrittenAs_write rest⟩

end

section

variable {d : C.Part} {x : {x : C.Part // C.room x < C.room d}}

theorem read?_scalar (found : C.case? ValueType d = some (.scalar, x)) :
    read? C d = (C.read? x.val).map .scalar := by
  rw [read?, found]

theorem read?_array (found : C.case? ValueType d = some (.array, x)) :
    read? C d = (C.items? x.val).bind fun items =>
      (items.mapM fun item => read? C item.val).map .array := by
  rw [read?, found]

theorem read?_record (found : C.case? ValueType d = some (.record, x)) :
    read? C d = (C.members? x.val).bind fun members =>
      (members.mapM fun m => (read? C m.2.val).map fun v => (m.1, v)).map fun fields =>
        .record (Fields.ofList fields) := by
  rw [read?, found]

end

mutual

theorem read_writtenAs [C.Derived] : ∀ {v : Value} {t : Document} {d : C.Part}, v.Keyed →
    v.WrittenAs C t → C.Shows d t → read? C d = some v
  | .scalar s, _, _, _, ⟨_, inner, outer⟩, shown => by
    obtain ⟨x, found, inside⟩ := case?_shown outer shown
    rw [read?_scalar found, Scalar.read_isCase inner inside, Option.map_some]
  | .array items, _, _, keyed, ⟨_, inner, outer⟩, shown => by
    obtain ⟨x, found, _, parts, opened, inside⟩ := case?_shown outer shown
    rw [read?_array found, opened, Option.bind_some, read_itemsWrittenAs keyed inner inside,
      Option.map_some]
  | .record fields, _, _, keyed, ⟨_, inner, outer⟩, shown => by
    obtain ⟨x, found, _, parts, opened, inside⟩ := case?_shown outer shown
    rw [read?_record found, opened, Option.bind_some, read_fieldsWrittenAs keyed.2 inner inside,
      Option.map_some, Fields.ofList_eq_ofPairs, Fields.ofPairs_of_nodup keyed.1]

theorem read_itemsWrittenAs [C.Derived] {n : Nat} : ∀ {items : List Value} {ts : List Document}
    {parts : List {x : C.Part // C.room x < n}}, AllKeyed items → ItemsWrittenAs C items ts →
    C.ShowsItems (parts.map Subtype.val) ts →
    parts.mapM (fun item => read? C item.val) = some items
  | [], [], [], _, _, _ => rfl
  | v :: rest, t :: ts, part :: parts, keyed, written, shown => by
    rw [List.mapM_cons, read_writtenAs keyed.1 written.1 shown.1,
      read_itemsWrittenAs keyed.2 written.2 shown.2]
    rfl

theorem read_fieldsWrittenAs [C.Derived] {n : Nat} :
    ∀ {fields : List (String × Value)} {ts : List (String × Document)}
    {parts : List (String × {x : C.Part // C.room x < n})}, FieldsKeyed fields →
    FieldsWrittenAs C fields ts → C.ShowsMembers (parts.map fun m => (m.1, m.2.val)) ts →
    parts.mapM (fun m => (read? C m.2.val).map fun v => (m.1, v)) = some fields
  | [], [], [], _, _, _ => rfl
  | (key, v) :: rest, (name, t) :: ts, (k, part) :: parts, keyed, written, shown => by
    obtain ⟨rfl, written, others⟩ := written
    obtain ⟨rfl, shown, later⟩ := shown
    rw [List.mapM_cons, read_writtenAs keyed.1 written shown,
      read_fieldsWrittenAs keyed.2 others later]
    rfl

end

/-! ## Levels -/

mutual

/-- How many lists and objects stand inside one another in the document of a value. -/
def levels : Value → Nat
  | .scalar s => s.contentLevels + 2
  | .array items => itemsLevels items + 2
  | .record fields => fieldsLevels fields + 2

def itemsLevels : List Value → Nat
  | [] => 0
  | v :: rest => max v.levels (itemsLevels rest)

def fieldsLevels : List (String × Value) → Nat
  | [] => 0
  | (_, v) :: rest => max v.levels (fieldsLevels rest)

end

theorem itemsLevels_le {items : List Value} {n : Nat} :
    itemsLevels items ≤ n ↔ ∀ v ∈ items, v.levels ≤ n := by
  induction items with
  | nil => simp [itemsLevels]
  | cons v rest ih => rw [itemsLevels, Nat.max_le, ih, List.forall_mem_cons]

theorem fieldsLevels_le {fields : List (String × Value)} {n : Nat} :
    fieldsLevels fields ≤ n ↔ ∀ f ∈ fields, f.2.levels ≤ n := by
  induction fields with
  | nil => simp [fieldsLevels]
  | cons f rest ih => rw [fieldsLevels, Nat.max_le, ih, List.forall_mem_cons]

mutual

theorem depth_writtenAs : ∀ {v : Value} {t : Document}, v.WrittenAs C t → t.depth = v.levels
  | .scalar s, _, ⟨_, inner, outer⟩ => by
    rw [depth_isCase outer, depth_isCase inner, s.depth_content, levels]
  | .array _, _, ⟨_, inner, outer⟩ => by
    rw [depth_isCase outer, Document.depth, depth_itemsWrittenAs inner, levels]
  | .record _, _, ⟨_, inner, outer⟩ => by
    rw [depth_isCase outer, Document.depth, depth_fieldsWrittenAs inner, levels]

theorem depth_itemsWrittenAs : ∀ {items : List Value} {ts : List Document},
    ItemsWrittenAs C items ts → Document.itemsDepth ts = itemsLevels items
  | [], [], _ => rfl
  | _ :: _, _ :: _, ⟨first, others⟩ => by
    rw [Document.itemsDepth, depth_writtenAs first, depth_itemsWrittenAs others, itemsLevels]

theorem depth_fieldsWrittenAs : ∀ {fields : List (String × Value)} {ts : List (String × Document)},
    FieldsWrittenAs C fields ts → Document.membersDepth ts = fieldsLevels fields
  | [], [], _ => rfl
  | (_, _) :: _, (_, _) :: _, ⟨_, first, others⟩ => by
    rw [Document.membersDepth, depth_writtenAs first, depth_fieldsWrittenAs others, fieldsLevels]

end

/-! ## What is read -/

/-- No record in a value that is read has two fields of one name, and there was room for all of its
levels. The induction is on the room: contents and items have less of it than the value. -/
theorem sound_of_read [C.Standard] {d : C.Part} {v : Value} (h : read? C d = some v) :
    v.Keyed ∧ v.levels ≤ C.room d := by
  induction room : C.room d using Nat.strongRecOn generalizing d v with
  | ind n ih =>
    subst room
    cases found : C.case? ValueType d with
    | none =>
      rw [read?, found] at h
      cases h
    | some case =>
      obtain ⟨type, x⟩ := case
      have deeper := x.property
      cases type with
      | scalar =>
        rw [read?_scalar found] at h
        obtain ⟨s, read, rfl⟩ := Option.map_eq_some_iff.mp h
        have := Scalar.levels_le read
        refine ⟨trivial, ?_⟩
        rw [levels]
        omega
      | array =>
        rw [read?_array found] at h
        obtain ⟨parts, opened, h⟩ := Option.bind_eq_some_iff.mp h
        obtain ⟨items, read, rfl⟩ := Option.map_eq_some_iff.mp h
        have positive := Standard.room_items (Option.isSome_iff_exists.mpr ⟨parts, opened⟩)
        have all : ∀ v ∈ items, v.Keyed ∧ v.levels ≤ C.room x - 1 := by
          intro v hv
          obtain ⟨part, hpart⟩ := exists_of_mem_mapM read hv
          obtain ⟨keyed, bound⟩ := ih _ (Nat.lt_trans part.property deeper) hpart rfl
          exact ⟨keyed, Nat.le_trans bound (Nat.le_sub_one_of_lt part.property)⟩
        have levelsBound := itemsLevels_le.mpr fun v hv => (all v hv).2
        refine ⟨allKeyed_iff.mpr fun v hv => (all v hv).1, ?_⟩
        rw [levels]
        omega
      | record =>
        rw [read?_record found] at h
        obtain ⟨parts, opened, h⟩ := Option.bind_eq_some_iff.mp h
        obtain ⟨pairs, read, rfl⟩ := Option.map_eq_some_iff.mp h
        have positive := Standard.room_members (Option.isSome_iff_exists.mpr ⟨parts, opened⟩)
        have all : ∀ f ∈ Fields.ofPairs pairs, f.2.Keyed ∧ f.2.levels ≤ C.room x - 1 := by
          intro f hf
          obtain ⟨m, hm⟩ := exists_of_mem_mapM read (Fields.mem_of_mem_ofPairs hf)
          obtain ⟨v, hpart, rfl⟩ := Option.map_eq_some_iff.mp hm
          obtain ⟨keyed, bound⟩ := ih _ (Nat.lt_trans m.2.property deeper) hpart rfl
          exact ⟨keyed, Nat.le_trans bound (Nat.le_sub_one_of_lt m.2.property)⟩
        have levelsBound := fieldsLevels_le.mpr fun f hf => (all f hf).2
        rw [Fields.ofList_eq_ofPairs]
        refine ⟨⟨Fields.nodup_ofPairs pairs, fieldsKeyed_iff.mpr fun f hf => (all f hf).1⟩, ?_⟩
        rw [levels]
        omega

end Value

end PortWire
