import PortWire.Proofs.Exchange.Values
import PortWire.Proofs.Reader.Trace

/-!
# Values of runs in replies

A reply is collected in memory, where objects keep no order, so the fields of a record would come in
another order than they had. The value that a run yields holds no record, whatever program is run:
each element yields a scalar or an array of scalars. All the objects of its document are tagged
values, which are read in either order.
-/

namespace PortWire

open Codec Form

variable {C : Codec}

/-! ## Collected documents -/

theorem Codec.collect_list_eq [C.Standard] {items : List Document}
    (all : ∀ t ∈ items, C.collect t = t) : C.collect (.list items) = .list items := by
  rw [Standard.collect_list, List.map_congr_left all, List.map_id']

theorem Codec.collect_bytes [C.Standard] (bs : List UInt8) :
    C.collect (C.write bs) = C.write bs := by
  refine collect_list_eq fun t ht => ?_
  obtain ⟨b, _, rfl⟩ := List.mem_map.mp ht
  exact Standard.collect_leaf rfl

theorem Codec.isCase_collect [C.Standard] [C.Derived] {α : Type} [Named α] (a : α)
    (content : Document) :
    IsCase a (C.collect content) (C.collect (C.ofCase a content)) := by
  have distinct : ([(tagKey, Document.text (Named.name a)), (contentKey, content)].map
      Prod.fst).Nodup := by simp [tagKey, contentKey]
  have gives := Standard.collect_object (C := C) distinct
  have leaf : C.collect (.text (Named.name a)) = .text (Named.name a) := Standard.collect_leaf rfl
  rw [List.map_cons, List.map_singleton, leaf] at gives
  rw [ofCase, Derived.ofTagged_eq]
  exact gives

theorem Scalar.collect_content [C.Standard] (s : Scalar) :
    C.collect (s.content C) = s.content C := by
  cases s with
  | bytes bs => exact collect_bytes bs
  | u32 _ | i32 _ | u64 _ | i64 _ | bool _ | str _ => exact Standard.collect_leaf rfl

namespace Value

inductive RecordFree : Value → Prop
  | scalar (s : Scalar) : RecordFree (.scalar s)
  | array {items : List Value} : (∀ v ∈ items, RecordFree v) → RecordFree (.array items)

theorem RecordFree.keyed {v : Value} (h : v.RecordFree) : v.Keyed := by
  induction h with
  | scalar s => trivial
  | array _ ih => exact allKeyed_iff.mpr ih

theorem itemsWrittenAs_collect {items : List Value}
    (all : ∀ v ∈ items, v.WrittenAs C (C.collect (v.write C))) :
    ItemsWrittenAs C items ((writeItems C items).map C.collect) := by
  induction items with
  | nil => trivial
  | cons v rest ih =>
    obtain ⟨first, others⟩ := List.forall_mem_cons.mp all
    exact ⟨first, ih others⟩

/-- A value without records is still the same in memory. -/
theorem RecordFree.writtenAs_collect [C.Standard] [C.Derived] {v : Value} (h : v.RecordFree) :
    v.WrittenAs C (C.collect (v.write C)) := by
  induction h with
  | scalar s =>
    refine ⟨C.collect (C.write s), ?_, isCase_collect ValueType.scalar (C.write s)⟩
    have inner := isCase_collect (C := C) s.type (s.content C)
    rw [s.collect_content] at inner
    exact inner
  | @array items _ ih =>
    refine ⟨(writeItems C items).map C.collect, itemsWrittenAs_collect ih, ?_⟩
    have outer := isCase_collect (C := C) ValueType.array (.list (writeItems C items))
    rw [Standard.collect_list] at outer
    exact outer

end Value

namespace Reader

/-- Levels of the values that runs yield: an array of arrays of bytes at most. -/
def runLevels : Nat := 7

theorem levels_scalar_le (s : Scalar) : (Value.scalar s).levels ≤ 3 := by
  have content : s.contentLevels ≤ 1 := by
    cases s with
    | bytes _ => exact Nat.le_refl 1
    | u32 _ | i32 _ | u64 _ | i64 _ | bool _ | str _ => exact Nat.zero_le 1
  exact Nat.add_le_add_right content 2

theorem plain_of_flat {limits : Limits} {v : Value} (flat : v.Flat limits) :
    v.RecordFree ∧ v.levels ≤ 5 := by
  cases flat with
  | scalar s => exact ⟨.scalar s, Nat.le_trans (levels_scalar_le s) (by decide)⟩
  | array _ all =>
    constructor
    · refine .array fun v hv => ?_
      obtain ⟨s, rfl⟩ := all v hv
      exact .scalar s
    · refine Nat.add_le_add_right (Value.itemsLevels_le.mpr fun v hv => ?_) 2
      obtain ⟨s, rfl⟩ := all v hv
      exact levels_scalar_le s

theorem plain_readElement {e : Element} {r s : Reader} {v : Value}
    (h : r.readElement e = (.ok v, s)) : v.RecordFree ∧ v.levels ≤ 5 := by
  obtain ⟨_, _, _, _, hread⟩ := readElement_eq_ok h
  exact plain_of_flat (FieldType.flat_of_read hread)

theorem Reads.plain {elements : List LocatedElement} {values : List Value} {r s : Reader}
    (h : Reads r elements values s) : ∀ v ∈ values, v.RecordFree ∧ v.levels ≤ 5 := by
  induction h with
  | done => exact List.forall_mem_nil _
  | next read _ ih => exact List.forall_mem_cons.mpr ⟨plain_readElement read, ih⟩

theorem plain_collect {values : List Value} (all : ∀ v ∈ values, v.RecordFree ∧ v.levels ≤ 5) :
    (collect values).RecordFree ∧ (collect values).levels ≤ runLevels := by
  have gathered : (Value.array values).RecordFree ∧ (Value.array values).levels ≤ runLevels :=
    ⟨.array fun v hv => (all v hv).1,
      Nat.add_le_add_right (Value.itemsLevels_le.mpr fun v hv => (all v hv).2) 2⟩
  rcases values with _ | ⟨v, _ | ⟨w, rest⟩⟩
  · exact gathered
  · obtain ⟨free, levels⟩ := all v List.mem_cons_self
    exact ⟨free, Nat.le_trans levels (by decide)⟩
  · exact gathered

theorem plain_run {image : List UInt8} {r s : Reader} {v : Value}
    (h : r.run image = (.ok v, s)) : v.RecordFree ∧ v.levels ≤ runLevels := by
  obtain ⟨_, _, values, _, _, trace, rfl⟩ := run_eq_ok h
  exact plain_collect trace.plain

end Reader

end PortWire
