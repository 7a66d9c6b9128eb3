import PortWire.Proofs.Reader.CompiledElement
import PortWire.Proofs.Reader.Composition

/-!
# The limit on array lengths

The limit bears on the arrays of values in a program, wherever their length comes from, and on every
length that comes with the data. A text or byte field whose length is in the program is a single
scalar; it takes that many bytes, or one byte where the program says none. It is no array of values
and nothing in the data decides on its length, and so the limit does not bear on it.
-/

namespace PortWire

namespace Element

/-- The element is an array of values, or its length comes with the data. -/
def Capped (e : Element) : Prop :=
  ∃ type a, e.variant.fieldType? = some type ∧ e.array = some a ∧
    (type.itemwise ∨ a.length = none)

/-- The length of an array that is read off `rest`: the one in the program or the one in front. -/
def announced? (e : Element) (rest : List UInt8) : Option UInt32 :=
  e.array.bind fun a => a.length.or (a.width.read? rest)

theorem announced?_literal {e : Element} {a : ArrayPart} (arrayed : e.array = some a) {n : UInt32}
    (literal : a.length = some n) (rest : List UInt8) : e.announced? rest = some n := by
  rw [announced?, arrayed, Option.bind_some, literal, Option.some_or]

theorem announced?_carried {e : Element} {a : ArrayPart} (arrayed : e.array = some a)
    (carried : a.length = none) (rest : List UInt8) : e.announced? rest = a.width.read? rest := by
  rw [announced?, arrayed, Option.bind_some, carried, Option.none_or]

theorem capped_iff {e : Element} {type : FieldType} (htype : e.variant.fieldType? = some type)
    {a : ArrayPart} (arrayed : e.array = some a) :
    e.Capped ↔ type.itemwise ∨ a.length = none := by
  constructor
  · rintro ⟨type', a', htype', arrayed', capped⟩
    obtain rfl := Option.some.inj (htype.symm.trans htype')
    obtain rfl := Option.some.inj (arrayed.symm.trans arrayed')
    exact capped
  · exact fun capped => ⟨type, a, htype, arrayed, capped⟩

end Element

namespace FieldType

variable {limits : Limits} {type : FieldType} {data : List UInt8} {pos : Nat} {err : ReadError}

/-- Behind the limit only the end of the data is in the way. -/
theorem length_error_iff {α : Type} {beyond enough : Prop} [Decidable beyond] [Decidable enough]
    {n max : UInt32} {found : α} {needed remaining : Nat} :
    ((if beyond then .error (.limit (.arrayLen n max))
      else if enough then .ok found
      else .error (.pastEnd needed remaining)) = (.error err : Except ReadError α) ∧
        err.kind = .length) ↔
      beyond ∧ err = .limit (.arrayLen n max) := by
  by_cases above : beyond
  · rw [if_pos above]
    constructor
    · rintro ⟨refused, _⟩
      cases refused
      exact ⟨above, rfl⟩
    · rintro ⟨_, rfl⟩
      exact ⟨rfl, rfl⟩
  · rw [if_neg above]
    refine iff_of_false ?_ fun h => above h.1
    rintro ⟨refused, kind⟩
    split at refused
    · cases refused
    · cases refused
      cases kind

/-- With a given count, only an array of values is refused for its length. -/
theorem read_fixed_length_error_iff {n : UInt32} :
    (type.read limits n none ⟨some data, pos⟩ = .error err ∧ err.kind = .length) ↔
      (type.itemwise ∧ limits.maxArrayLen < n) ∧
        err = .limit (.arrayLen n limits.maxArrayLen) := by
  by_cases items : type.itemwise → n ≠ 0
  · rw [read_fixed limits items, length_error_iff]
  · obtain ⟨itemwise, zero⟩ := Classical.not_imp.mp items
    obtain rfl := Decidable.not_not.mp zero
    refine iff_of_false ?_ fun h => UInt32.not_lt_zero h.1.2
    rintro ⟨refused, kind⟩
    cases type with
    | primitive p =>
      rw [read_scalar] at refused
      split at refused
      · cases refused
      · cases refused
        cases kind
    | str => cases itemwise
    | bytes => cases itemwise

/-- A length from the data is refused by the limit only, whatever it is the length of. The width of
the length leaves no other bound. -/
theorem read_announced_length_error_iff {w : LengthWidth} {n : UInt32}
    (announced : w.read? (data.drop pos) = some n) :
    (type.read limits w.maxLen (some w) ⟨some data, pos⟩ = .error err ∧ err.kind = .length) ↔
      limits.maxArrayLen < n ∧ err = .limit (.arrayLen n limits.maxArrayLen) := by
  have admitted := UInt32.not_lt.mpr (LengthWidth.le_maxLen_of_read? announced)
  rw [read_announced w.maxLen announced, if_neg admitted, length_error_iff]

/-- A scalar and a field of given size are read alike under all limits. -/
theorem read_limits {n : UInt32} (single : type.itemwise → n = 0) (limits other : Limits) :
    type.read other n none = type.read limits n none := by
  cases type with
  | primitive p =>
    obtain rfl := single rfl
    simp only [read, and_self, if_true]
  | str => rfl
  | bytes => rfl

end FieldType

namespace Reader

variable {e : Element} {r before after failed : Reader} {v : Value} {image : List UInt8}
  {err : ReadError}

theorem executedCount_itemwise {type : FieldType} (itemwise : type.itemwise) (n : UInt32) :
    executedCount n type = n := by
  cases type with
  | primitive p => rfl
  | str => cases itemwise
  | bytes => cases itemwise

theorem readElement_eq_error_iff {type : FieldType} (htype : e.variant.fieldType? = some type) :
    r.readElement e = (.error err, failed) ↔
      type.read r.limits (executedCount (extent e).1 type) (extent e).2 r.source = .error err ∧
        failed = { r with frames := [{}] } := by
  rw [readElement_eq, htype]
  simp only
  cases type.read r.limits (executedCount (extent e).1 type) (extent e).2 r.source with
  | error other => simp only [Prod.mk.injEq, Except.error.injEq, eq_comm]
  | ok found => simp

/-- An element is refused for its length just if the limit bears on it and the length is above. -/
theorem readElement_length_error_iff {data : List UInt8} (begun : r.source.buffer = some data) :
    (r.readElement e = (.error err, failed) ∧ err.kind = .length) ↔
      ∃ n, e.Capped ∧ e.announced? r.source.rest = some n ∧ r.limits.maxArrayLen < n ∧
        err = .limit (.arrayLen n r.limits.maxArrayLen) ∧ failed = { r with frames := [{}] } := by
  obtain ⟨limits, ⟨_, pos⟩, frames⟩ := r
  obtain rfl := begun
  cases htype : e.variant.fieldType? with
  | none =>
    constructor
    · rintro ⟨refused, kind⟩
      rw [readElement_eq, htype] at refused
      cases refused
      cases kind
    · rintro ⟨n, ⟨type, a, known, _⟩, _⟩
      rw [htype] at known
      cases known
  | some type =>
    rw [readElement_eq_error_iff htype, and_right_comm]
    cases harray : e.array with
    | none =>
      simp only [extent, harray, FieldType.read_fixed_length_error_iff]
      constructor
      · rintro ⟨⟨⟨itemwise, beyond⟩, _⟩, _⟩
        rw [executedCount_itemwise itemwise] at beyond
        exact absurd beyond UInt32.not_lt_zero
      · rintro ⟨n, ⟨_, a, _, arrayed, _⟩, _⟩
        rw [harray] at arrayed
        cases arrayed
    | some a =>
      rw [Element.capped_iff htype harray]
      cases hlength : a.length with
      | some n =>
        simp only [extent, harray, hlength, FieldType.read_fixed_length_error_iff,
          Element.announced?_literal harray hlength]
        constructor
        · rintro ⟨⟨⟨itemwise, beyond⟩, rfl⟩, left⟩
          rw [executedCount_itemwise itemwise] at beyond ⊢
          exact ⟨n, Or.inl itemwise, rfl, beyond, rfl, left⟩
        · rintro ⟨m, itemwise | carried, same, beyond, rfl, left⟩
          · obtain rfl := Option.some.inj same
            rw [executedCount_itemwise itemwise]
            exact ⟨⟨⟨itemwise, beyond⟩, rfl⟩, left⟩
          · cases carried
      | none =>
        have count : executedCount a.width.maxLen type = a.width.maxLen :=
          FieldType.executedCount_of_ne_zero (by cases a.width <;> decide) type
        have announced : e.announced? (data.drop pos) = a.width.read? (data.drop pos) :=
          Element.announced?_carried harray hlength _
        simp only [extent, harray, hlength, count, Source.rest, announced]
        cases hread : a.width.read? (data.drop pos) with
        | none =>
          rw [FieldType.read_unannounced a.width.maxLen hread]
          constructor
          · rintro ⟨⟨refused, kind⟩, _⟩
            cases refused
            cases kind
          · rintro ⟨n, _, found, _⟩
            cases found
        | some n =>
          rw [FieldType.read_announced_length_error_iff hread]
          constructor
          · rintro ⟨⟨beyond, rfl⟩, left⟩
            exact ⟨n, Or.inr trivial, rfl, beyond, rfl, left⟩
          · rintro ⟨m, _, same, beyond, rfl, left⟩
            obtain rfl := Option.some.inj same
            exact ⟨⟨beyond, rfl⟩, left⟩

/-- An array that is read had a length, and one that the limit bears on had no greater length. -/
theorem announced_of_readElement (h : r.readElement e = (.ok v, after)) {a : ArrayPart}
    (arrayed : e.array = some a) :
    ∃ n, e.announced? r.source.rest = some n ∧ (e.Capped → n ≤ r.limits.maxArrayLen) := by
  obtain ⟨type, data, htype, begun, hread⟩ := readElement_eq_ok h
  have known : ∃ n, e.announced? r.source.rest = some n := by
    cases hlength : a.length with
    | some n => exact ⟨n, Element.announced?_literal arrayed hlength _⟩
    | none =>
      rw [Element.announced?_carried arrayed hlength]
      refine Option.ne_none_iff_exists'.mp fun missing => ?_
      obtain ⟨limits, ⟨_, pos⟩, frames⟩ := r
      obtain rfl := begun
      simp only [extent, arrayed, hlength] at hread
      rw [FieldType.read_unannounced _ missing] at hread
      cases hread
  obtain ⟨n, announced⟩ := known
  refine ⟨n, announced, fun capped => UInt32.not_lt.mp fun beyond => ?_⟩
  have refused := (readElement_length_error_iff begun).mpr ⟨n, capped, announced, beyond, rfl, rfl⟩
  rw [h] at refused
  cases refused.1

/-- An element that the limit does not bear on is read alike under all limits. -/
theorem readElement_limits (uncapped : ¬ e.Capped) (r : Reader) (limits : Limits) :
    readElement e { r with limits := limits } =
      ((r.readElement e).1, { (r.readElement e).2 with limits := limits }) := by
  rw [readElement_eq, readElement_eq]
  cases htype : e.variant.fieldType? with
  | none => rfl
  | some type =>
    have same : type.read limits (executedCount (extent e).1 type) (extent e).2 =
        type.read r.limits (executedCount (extent e).1 type) (extent e).2 := by
      cases harray : e.array with
      | none =>
        simp only [extent, harray]
        exact FieldType.read_limits (fun itemwise => executedCount_itemwise itemwise 0) _ _
      | some a =>
        rw [Element.capped_iff htype harray, not_or] at uncapped
        obtain ⟨n, hlength⟩ := Option.ne_none_iff_exists'.mp uncapped.2
        simp only [extent, harray, hlength]
        exact FieldType.read_limits (fun itemwise => absurd itemwise uncapped.1) _ _
    simp only [same]
    cases type.read r.limits (executedCount (extent e).1 type) (extent e).2 r.source with
    | error err => rfl
    | ok found => rfl

theorem toNat_executedCount {type : FieldType} (single : ¬ type.itemwise) (n : UInt32) :
    (executedCount n type).toNat = max n.toNat 1 := by
  by_cases zero : n = 0
  · subst zero
    cases type with
    | primitive p => exact absurd rfl single
    | str => rfl
    | bytes => rfl
  · have positive : 0 < n.toNat :=
      Nat.pos_of_ne_zero fun none => zero (UInt32.toNat_inj.mp none)
    rw [FieldType.executedCount_of_ne_zero zero, Nat.max_eq_left positive]

/-- Reading the element takes just `size` bytes and makes one scalar of them. It fails only where
fewer are left. -/
def TakesScalar (e : Element) (type : FieldType) (size : Nat) (r : Reader) : Prop :=
  (size ≤ r.source.remaining → ∃ s : Scalar,
      type.gather size (r.source.rest.take size) = .scalar s ∧
      r.readElement e = (.ok (.scalar s),
        { r with source := ⟨r.source.buffer, r.source.pos + size⟩, frames := [{}] })) ∧
    (r.source.remaining < size →
      r.readElement e =
        (.error (.pastEnd size r.source.remaining), { r with frames := [{}] }))

theorem takesScalar_of_literal {type : FieldType} (htype : e.variant.fieldType? = some type)
    (single : ¬ type.itemwise) {a : ArrayPart} (arrayed : e.array = some a) {n : UInt32}
    (literal : a.length = some n) (begun : r.source.buffer.isSome) :
    TakesScalar e type (max n.toNat 1) r := by
  obtain ⟨limits, ⟨buffer, pos⟩, frames⟩ := r
  obtain ⟨data, rfl⟩ := Option.isSome_iff_exists.mp begun
  have count := toNat_executedCount single n
  have unlimited : ¬ (type.itemwise ∧ limits.maxArrayLen < executedCount n type) :=
    fun h => single h.1
  have whole : (executedCount n type).toNat * type.itemSize = max n.toNat 1 := by
    rw [count]
    cases type with
    | primitive p => exact absurd rfl single
    | str => exact Nat.mul_one _
    | bytes => exact Nat.mul_one _
  have read := FieldType.read_fixed limits (n := executedCount n type)
    (fun itemwise => absurd itemwise single) data pos
  rw [if_neg unlimited, whole, count, List.length_drop] at read
  have result := readElement_eq e ⟨limits, ⟨some data, pos⟩, frames⟩
  simp only [htype, extent, arrayed, literal, read] at result
  constructor
  · intro enough
    have scalar : ∃ s, type.gather (max n.toNat 1) ((data.drop pos).take (max n.toNat 1)) =
        .scalar s := by
      cases type with
      | primitive p => exact absurd rfl single
      | str => exact ⟨_, rfl⟩
      | bytes => exact ⟨_, rfl⟩
    obtain ⟨s, value⟩ := scalar
    have room : max n.toNat 1 ≤ data.length - pos := enough
    refine ⟨s, value, ?_⟩
    rw [result, if_pos room, value]
  · intro short
    have beyond : ¬ max n.toNat 1 ≤ data.length - pos := Nat.not_le.mpr short
    rw [result, if_neg beyond]
    rfl

/-- A run of the program has read the earlier elements and comes to this one. -/
structure Reaches (r : Reader) (image : List UInt8) (earlier : List LocatedElement)
    (e : LocatedElement) (before : Reader) : Prop where
  begins : r.Begins image
  place : ∃ program later, DecodedProgram.decode image = .ok program ∧
    program.elements = earlier ++ e :: later
  reached : ∃ values, Reads r earlier values before

/-- A run that fails over a length has come to its elements. -/
theorem begins_of_length_error (h : r.run image = (.error err, after)) (kind : err.kind = .length) :
    r.source.buffer.isSome ∧ ∃ program, DecodedProgram.decode image = .ok program ∧
      program.header.dataSize.toNat ≤ r.source.remaining := by
  unfold run at h
  cases begun : r.source.buffer with
  | none =>
    rw [begun] at h
    cases h
    cases kind
  | some data =>
    cases decoded : DecodedProgram.decode image with
    | error fault =>
      rw [begun, decoded] at h
      cases h
      cases kind
    | ok program =>
      refine ⟨rfl, program, rfl, Nat.not_lt.mp fun short => ?_⟩
      simp only [begun, decoded, if_pos short] at h
      cases h
      cases kind

/-- A run fails over a length just if it comes to an element that the limit bears on and whose
length is above. -/
theorem run_length_error_iff :
    (r.run image = (.error err, failed) ∧ err.kind = .length) ↔
      ∃ earlier e before n, r.Reaches image earlier e before ∧ e.Capped ∧
        e.announced? before.source.rest = some n ∧ r.limits.maxArrayLen < n ∧
        err = .limit (.arrayLen n r.limits.maxArrayLen) ∧
        failed = { r with frames := [{}] } := by
  constructor
  · rintro ⟨ran, kind⟩
    obtain ⟨begun, program, decoded, enough⟩ := begins_of_length_error ran kind
    obtain ⟨stuck, stops, rfl⟩ := (run_eq_error_iff begun decoded enough).mp ran
    obtain ⟨earlier, e, later, values, before, listed, trace, fails⟩ := stops_iff.mp stops
    obtain ⟨data, buffer⟩ := Option.isSome_iff_exists.mp (trace.begun begun)
    obtain ⟨n, capped, announced, beyond, rfl, rfl⟩ :=
      (readElement_length_error_iff buffer).mp ⟨fails, kind⟩
    have begins : r.Begins image := by
      refine ⟨begun, program, decoded, ?_, enough⟩
      rw [listed]
      exact List.append_ne_nil_of_right_ne_nil _ (List.cons_ne_nil _ _)
    rw [trace.limits_eq] at beyond ⊢
    have reaches : r.Reaches image earlier e before :=
      ⟨begins, ⟨program, later, decoded, listed⟩, values, trace⟩
    exact ⟨earlier, e, before, n, reaches, capped, announced, beyond, rfl, rfl⟩
  · rintro ⟨earlier, e, before, n, reaches, capped, announced, beyond, rfl, rfl⟩
    obtain ⟨⟨begun, program, decoded, _, enough⟩, place, values, trace⟩ := reaches
    obtain ⟨program', later, decoded', listed⟩ := place
    obtain rfl := Except.ok.inj (decoded.symm.trans decoded')
    obtain ⟨data, buffer⟩ := Option.isSome_iff_exists.mp (trace.begun begun)
    rw [← trace.limits_eq] at beyond ⊢
    obtain ⟨fails, _⟩ :=
      (readElement_length_error_iff buffer).mpr ⟨n, capped, announced, beyond, rfl, rfl⟩
    have stops := stops_iff.mpr ⟨earlier, e, later, values, before, listed, trace, fails⟩
    exact ⟨(run_eq_error_iff begun decoded enough).mpr ⟨_, stops, rfl⟩, rfl⟩

/-- Every array that a run executes had a length, and the length of one that the limit bears on was
within the limit; a run that succeeds has executed all its elements. A run fails over a length just
if it comes to an element that the limit bears on with a greater length, and it names that length
and the limit. All other elements are read alike under all limits. Among them is a text or byte
field with a length in the program: it takes as many bytes, and one if the length is zero. -/
theorem limit_covers_capped (r : Reader) (image : List UInt8) :
    (∀ earlier e before v after a, r.Executes image earlier e before v after →
        e.array = some a →
          ∃ n, e.announced? before.source.rest = some n ∧ (e.Capped → n ≤ r.limits.maxArrayLen)) ∧
      (∀ value final program earlier e later, r.run image = (.ok value, final) →
        DecodedProgram.decode image = .ok program → program.elements = earlier ++ e :: later →
          ∃ before v after, r.Executes image earlier e before v after) ∧
      (∀ err failed, (r.run image = (.error err, failed) ∧ err.kind = .length) ↔
        ∃ earlier e before n, r.Reaches image earlier e before ∧ e.Capped ∧
          e.announced? before.source.rest = some n ∧ r.limits.maxArrayLen < n ∧
          err = .limit (.arrayLen n r.limits.maxArrayLen) ∧
          failed = { r with frames := [{}] }) ∧
      (∀ e : Element, ¬ e.Capped → ∀ (before : Reader) (limits : Limits),
        readElement e { before with limits := limits } =
          ((before.readElement e).1, { (before.readElement e).2 with limits := limits })) ∧
      ∀ (e : Element) (type : FieldType) (a : ArrayPart) (n : UInt32),
        e.variant.fieldType? = some type → ¬ type.itemwise → e.array = some a →
          a.length = some n → ¬ e.Capped ∧ ∀ before : Reader, before.source.buffer.isSome →
            TakesScalar e type (max n.toNat 1) before := by
  refine ⟨?_, ?_, fun err failed => run_length_error_iff, ?_, ?_⟩
  · intro earlier e before v after a executes arrayed
    obtain ⟨values, trace⟩ := executes.reached
    rw [← trace.limits_eq]
    exact announced_of_readElement executes.reads arrayed
  · intro value final program earlier e later ran decoded listed
    obtain ⟨before, v, after, _, _, executes, _⟩ := executes_of_run ran decoded listed
    exact ⟨before, v, after, executes⟩
  · exact fun e uncapped => readElement_limits uncapped
  · intro e type a n htype single arrayed literal
    refine ⟨?_, fun before begun => takesScalar_of_literal htype single arrayed literal begun⟩
    rw [Element.capped_iff htype arrayed, literal, not_or]
    exact ⟨single, Option.some_ne_none n⟩

/-- Two bytes and a text of three under a limit of two, where they are read, and of one, where the
text would be read too. A text of no bytes takes one under a limit of zero. -/
theorem limit_two_and_one :
    let image : List UInt8 := [1, 0, 0, 0, 0, 0, 0, 0x80, 0x02, 0x02, 0xE0, 0x02, 0x03]
    let pair : LocatedElement := ⟨⟨.unpack, .u8, some ⟨.u8, false, some 2⟩⟩, 7⟩
    let text : LocatedElement := ⟨⟨.unpack, .str, some ⟨.u8, false, some 3⟩⟩, 10⟩
    let two : Reader := start [7, 8, 0x68, 0x69, 0] { limits := { maxArrayLen := 2 } }
    let one : Reader := start [7, 8, 0x68, 0x69, 0] { limits := { maxArrayLen := 1 } }
    DecodedProgram.decode image = .ok ⟨Header.placeholder .unpack, [pair, text]⟩ ∧
      (∃ before v after, two.Executes image [] pair before v after ∧
        ∃ n, pair.announced? before.source.rest = some n ∧ n ≤ 2) ∧
      (∃ before v after, two.Executes image [pair] text before v after) ∧
      (∃ failed, one.run image = (.error (.limit (.arrayLen 2 1)), failed)) ∧
      (one.readElement text.toElement).1 = (two.readElement text.toElement).1 ∧
      readElement ⟨.unpack, .str, some ⟨.u8, false, some 0⟩⟩
          (start [0x41, 0x42] { limits := { maxArrayLen := 0 } }) =
        (.ok (.scalar (.str "A")), ⟨{ maxArrayLen := 0 }, ⟨some [0x41, 0x42], 1⟩, [{}]⟩) := by
  intro image pair text two one
  have proper : ∀ e ∈ [pair.toElement, text.toElement], e.Proper := by decide
  have spelled : (Header.placeholder .unpack).encode ++
      encodeStream [pair.toElement, text.toElement] = image := by decide
  have decoded : DecodedProgram.decode image = .ok ⟨Header.placeholder .unpack, [pair, text]⟩ := by
    rw [← spelled, DecodedProgram.decode_encodeStream rfl proper]
    rfl
  have capped : pair.Capped := ⟨.primitive .u8, _, rfl, rfl, Or.inl rfl⟩
  have uncapped : ¬ text.Capped := by
    rw [Element.capped_iff rfl rfl]
    decide
  have accepted : ∃ value, (run image two).1 = .ok value := by
    have begun : two.source.buffer = some [7, 8, 0x68, 0x69, 0] := rfl
    simp only [run, begun, decoded]
    exact ⟨_, rfl⟩
  obtain ⟨value, ran⟩ := accepted
  obtain ⟨lengths, executed, _, alike, fields⟩ := limit_covers_capped two image
  obtain ⟨_, _, refused, _⟩ := limit_covers_capped one image
  obtain ⟨before, v, after, executes⟩ :=
    executed value _ _ [] pair [text] (Prod.ext ran rfl) decoded rfl
  obtain ⟨n, announced, within⟩ := lengths [] pair before v after _ executes rfl
  refine ⟨decoded, ⟨before, v, after, executes, n, announced, within capped⟩,
    executed value _ _ [pair] text [] (Prod.ext ran rfl) decoded rfl, ?_, ?_, ?_⟩
  · have reaches : one.Reaches image [] pair one :=
      ⟨⟨rfl, _, decoded, List.cons_ne_nil _ _, by decide⟩, ⟨_, [text], decoded, rfl⟩, [], .done⟩
    have failure := (refused _ _).mpr
      ⟨[], pair, one, 2, reaches, capped, rfl, by decide, rfl, rfl⟩
    exact ⟨_, failure.1⟩
  · have same := alike text.toElement uncapped two { maxArrayLen := 1 }
    have results := congrArg Prod.fst same
    exact results
  · obtain ⟨_, takes⟩ := fields ⟨.unpack, .str, some ⟨.u8, false, some 0⟩⟩ .str _ 0 rfl
      Bool.false_ne_true rfl rfl
    obtain ⟨s, value, reads⟩ := (takes (start [0x41, 0x42] { limits := { maxArrayLen := 0 } })
      rfl).1 (by decide)
    obtain rfl := Value.scalar.inj value
    exact reads

/-- A text of two bytes is read under a limit of one. -/
theorem literal_text_beyond_limit :
    let image : List UInt8 := [1, 0, 0, 0, 0, 0, 0, 0xE0, 0x02, 0x02]
    let text : LocatedElement := ⟨⟨.unpack, .str, some ⟨.u8, false, some 2⟩⟩, 7⟩
    let r : Reader := start [0x68, 0x69] { limits := { maxArrayLen := 1 } }
    let after : Reader := ⟨{ maxArrayLen := 1 }, ⟨some [0x68, 0x69], 2⟩, [{}]⟩
    DecodedProgram.decode image = .ok ⟨Header.placeholder .unpack, [text]⟩ ∧
      run image r = (.ok (.scalar (.str "hi")), after) ∧
      r.Executes image [] text r (.scalar (.str "hi")) after ∧
      text.announced? r.source.rest = some 2 ∧ ¬ 2 ≤ r.limits.maxArrayLen := by
  intro image text r after
  have proper : text.toElement.Proper := by decide
  have spelled : (Header.placeholder .unpack).encode ++ text.toElement.encode = image := by decide
  have decoded : DecodedProgram.decode image = .ok ⟨Header.placeholder .unpack, [text]⟩ := by
    rw [← spelled, DecodedProgram.decode_single rfl proper]
    rfl
  have reads : r.readElement text.toElement = (.ok (.scalar (.str "hi")), after) := by
    rw [readElement_eq]
    rfl
  refine ⟨decoded, ?_, ⟨⟨rfl, _, decoded, List.cons_ne_nil _ _, by decide⟩, ⟨_, [], decoded, rfl⟩,
    ⟨[], .done⟩, reads⟩, rfl, by decide⟩
  rw [run_single rfl decoded, reads]
  rfl

end Reader

end PortWire
