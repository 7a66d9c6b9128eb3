import PortWire.Proofs.Program.Grammar
import PortWire.Proofs.Reader.Steps

/-!
# Traces of runs

A program run reads its elements one after the other. The trace of a run says which reader each
element met and which one it left, so that a law of a single element becomes a law of every program
that the element stands in. A trace records only elements that were read; it says nothing of the
element at which a run may have failed.
-/

namespace PortWire.Reader

/-- An element that is read has a field type, and its value is that of the field. -/
theorem readElement_eq_ok {e : Element} {before after : Reader} {v : Value}
    (h : before.readElement e = (.ok v, after)) :
    ∃ type data, e.variant.fieldType? = some type ∧ before.source.buffer = some data ∧
      type.read before.limits (executedCount (extent e).1 type) (extent e).2 before.source =
        .ok (v, after.source) := by
  rw [readElement_eq] at h
  cases htype : e.variant.fieldType? with
  | none =>
    rw [htype] at h
    cases h
  | some type =>
    rw [htype] at h
    simp only at h
    cases hread : type.read before.limits (executedCount (extent e).1 type) (extent e).2
        before.source with
    | error err =>
      rw [hread] at h
      cases h
    | ok found =>
      obtain ⟨data, buffer⟩ := Option.isSome_iff_exists.mp (FieldType.begun_of_read hread)
      rw [hread] at h
      cases h
      exact ⟨type, data, rfl, buffer, hread⟩

/-- The elements are read one after the other, each yielding one of the values. -/
inductive Reads : Reader → List LocatedElement → List Value → Reader → Prop
  | done {r : Reader} : Reads r [] [] r
  | next {r mid after : Reader} {e : LocatedElement} {rest : List LocatedElement} {v : Value}
    {values : List Value} :
    r.readElement e.toElement = (.ok v, mid) → Reads mid rest values after →
      Reads r (e :: rest) (v :: values) after

variable {r after : Reader} {image : List UInt8}

theorem Reads.length_eq {elements : List LocatedElement} {values : List Value}
    (h : Reads r elements values after) : values.length = elements.length := by
  induction h with
  | done => rfl
  | next _ _ ih => rw [List.length_cons, List.length_cons, ih]

theorem Reads.limits_eq {elements : List LocatedElement} {values : List Value}
    (trace : Reads r elements values after) : after.limits = r.limits := by
  induction trace with
  | done => rfl
  | @next r mid _ e _ _ _ read _ ih =>
    have step := r.ran_readElement e.toElement
    rw [read] at step
    rw [ih]
    cases step with
    | idle => rfl
    | finished _ => rfl

/-- The loop comes to what stands behind elements that were read. -/
theorem Reads.readElements_append {earlier : List LocatedElement} {values : List Value}
    (h : Reads r earlier values after) (found : List Value) (later : List LocatedElement) :
    readElements found (earlier ++ later) r =
      readElements (values.reverse ++ found) later after := by
  induction h generalizing found with
  | done => rfl
  | next read _ ih =>
    rw [List.cons_append, readElements, read]
    simp only
    rw [ih, List.reverse_cons, List.append_assoc]
    rfl

/-- The loop succeeds just along a trace of all its elements. -/
theorem readElements_eq_ok {found values : List Value} {elements : List LocatedElement} :
    readElements found elements r = (.ok values, after) ↔
      ∃ added, values = found.reverse ++ added ∧ Reads r elements added after := by
  constructor
  · intro h
    induction elements generalizing found r with
    | nil =>
      cases h
      exact ⟨[], (List.append_nil _).symm, .done⟩
    | cons e rest ih =>
      rw [readElements] at h
      rcases hread : r.readElement e.toElement with ⟨result, mid⟩
      rw [hread] at h
      cases result with
      | error err => cases h
      | ok v =>
        obtain ⟨added, rfl, trace⟩ := ih h
        refine ⟨v :: added, ?_, .next hread trace⟩
        rw [List.reverse_cons, List.append_assoc]
        rfl
  · rintro ⟨added, rfl, trace⟩
    have all := trace.readElements_append found []
    rw [List.append_nil] at all
    rw [all, readElements, List.reverse_append, List.reverse_reverse]

theorem Reads.split {earlier later : List LocatedElement} {values : List Value}
    (h : Reads r (earlier ++ later) values after) :
    ∃ first second mid, values = first ++ second ∧ Reads r earlier first mid ∧
      Reads mid later second after := by
  induction earlier generalizing r values with
  | nil => exact ⟨[], values, r, rfl, .done, h⟩
  | cons e rest ih =>
    cases h with
    | next read trace =>
      obtain ⟨first, second, mid, rfl, before, behind⟩ := ih trace
      exact ⟨_ :: first, second, mid, rfl, .next read before, behind⟩

/-- What a run that succeeds has checked and read. -/
theorem run_eq_ok {v : Value} (h : r.run image = (.ok v, after)) :
    r.source.buffer.isSome ∧ ∃ program values, DecodedProgram.decode image = .ok program ∧
      program.header.dataSize.toNat ≤ r.source.remaining ∧
      Reads r program.elements values after ∧ v = collect values := by
  unfold run at h
  cases begun : r.source.buffer with
  | none =>
    rw [begun] at h
    cases h
  | some data =>
    cases decoded : DecodedProgram.decode image with
    | error fault =>
      rw [begun, decoded] at h
      cases h
    | ok program =>
      simp only [begun, decoded] at h
      by_cases short : r.source.remaining < program.header.dataSize.toNat
      · rw [if_pos short] at h
        cases h
      · rw [if_neg short] at h
        refine ⟨rfl, program, ?_⟩
        rcases hread : readElements [] program.elements r with ⟨result, final⟩
        rw [hread] at h
        cases result with
        | error err => cases h
        | ok values =>
          cases h
          obtain ⟨added, same, trace⟩ := readElements_eq_ok.mp hread
          obtain rfl : values = added := same
          exact ⟨values, rfl, Nat.le_of_not_lt short, trace, rfl⟩

/-- A trace of all its elements makes a run, once the data is there that the header asks for. -/
theorem Reads.run_eq {program : DecodedProgram} {values : List Value}
    (trace : Reads r program.elements values after) (begun : r.source.buffer.isSome)
    (decoded : DecodedProgram.decode image = .ok program)
    (enough : program.header.dataSize.toNat ≤ r.source.remaining) :
    r.run image = (.ok (collect values), after) := by
  obtain ⟨data, buffer⟩ := Option.isSome_iff_exists.mp begun
  have loop : readElements [] program.elements r = (.ok values, after) :=
    readElements_eq_ok.mpr ⟨values, rfl, trace⟩
  simp only [run, buffer, decoded, if_neg (Nat.not_lt.mpr enough), loop]

/-- A run of the program comes to an element behind the earlier ones and reads its value. What
becomes of the later elements is left open. -/
structure Executes (r : Reader) (image : List UInt8) (earlier : List LocatedElement)
    (e : LocatedElement) (before : Reader) (v : Value) (after : Reader) : Prop where
  begins : r.Begins image
  place : ∃ program later, DecodedProgram.decode image = .ok program ∧
    program.elements = earlier ++ e :: later
  reached : ∃ values, Reads r earlier values before
  reads : before.readElement e.toElement = (.ok v, after)

/-- A run that succeeds executes every element, and the values are found in the order of the
elements. -/
theorem executes_of_run {value : Value} {final : Reader} (h : r.run image = (.ok value, final))
    {program : DecodedProgram} (decoded : DecodedProgram.decode image = .ok program)
    {earlier later : List LocatedElement} {e : LocatedElement}
    (listed : program.elements = earlier ++ e :: later) :
    ∃ before v after first second, r.Executes image earlier e before v after ∧
      first.length = earlier.length ∧ second.length = later.length ∧
      value = collect (first ++ v :: second) := by
  obtain ⟨begun, program', values, decoded', enough, trace, rfl⟩ := run_eq_ok h
  obtain rfl : program = program' := Except.ok.inj (decoded.symm.trans decoded')
  have begins : r.Begins image := by
    refine ⟨begun, program, decoded, ?_, enough⟩
    rw [listed]
    exact List.append_ne_nil_of_right_ne_nil _ (List.cons_ne_nil _ _)
  rw [listed] at trace
  obtain ⟨first, rest, before, rfl, front, back⟩ := trace.split
  cases back with
  | @next _ after _ _ _ v second reads behind =>
    exact ⟨before, v, after, first, second,
      ⟨begins, ⟨program, later, decoded, listed⟩, ⟨first, front⟩, reads⟩, front.length_eq,
      behind.length_eq, rfl⟩

end PortWire.Reader
