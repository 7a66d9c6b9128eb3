import PortWire.Proofs.Bridge.Replies
import PortWire.Proofs.Exchange.RoundTrip
import PortWire.Proofs.Exchange.RunValues
import PortWire.Proofs.Reader.CompiledElement

/-!
# Compiling and unpacking through the bridge

What the library answers comes through the bridge unchanged, whatever codec stands in between.
Nothing is assumed of the programs that are run, which need not come from the compiler.
-/

namespace PortWire

open Codec Form

/-! ## Requests as objects -/

namespace CompileRequest

/-- The members of an object that asks for the compilation. Others may stand among them. -/
structure WrittenIn (C : Codec) (members : List (String × Document)) (r : CompileRequest) :
    Prop where
  distinct : (members.map Prod.fst).Nodup
  element : ("element", C.write r.element) ∈ members
  direction : C.Offers members "direction" .provide r.direction

theorem read_writtenIn {C : Codec} [C.Derived] {members : List (String × Document)}
    {r : CompileRequest} (written : WrittenIn C members r) {d : C.Part}
    (shown : C.Shows d (.object members)) : read? C d = some r := by
  have complete : ∀ f ∈ documentFields, f.absence = .refused → f.name ∈ members.map Prod.fst := by
    intro f hf refused
    simp only [documentFields, List.mem_cons, List.not_mem_nil, or_false] at hf
    rcases hf with rfl | rfl
    · exact List.mem_map_of_mem written.element
    · cases refused
  obtain ⟨_, found, given⟩ := Derived.exists_fields shown written.distinct complete
  simp only [documentFields, given_cons, given_nil] at given
  obtain ⟨elementPart, _, rfl, element, directionPart, _, rfl, direction, rfl⟩ := given
  have read : ∀ x, C.Shows x (C.write r.direction) → C.read? x = some r.direction :=
    fun _ => Lawful.read_shown
  simp only [read?, found, required?_given written.distinct element written.element,
    orElse?_given written.distinct direction written.direction read]
  rfl

theorem exists_writtenIn (C : Codec) [C.Derived] (r : CompileRequest) :
    ∃ members, WrittenIn C members r ∧ (Document.object members).depth < recursionLimit := by
  refine ⟨[("element", C.write r.element), ("direction", C.write r.direction)],
    ⟨by simp, by simp, Or.inl (by simp)⟩, ?_⟩
  refine Nat.lt_of_le_of_lt (Document.depth_object_le (n := 1) ?_) (by decide)
  simp [depth_write_le]

end CompileRequest

namespace UnpackRequest

/-- The members of an object that asks for the run. Others may stand among them. -/
structure WrittenIn (C : Codec) (members : List (String × Document)) (r : UnpackRequest) :
    Prop where
  distinct : (members.map Prod.fst).Nodup
  program : ("program", C.write r.program) ∈ members
  data : ("data", C.write r.data) ∈ members
  limits : C.Offers members "limits" none r.limits

theorem read_writtenIn {C : Codec} [C.Derived] {members : List (String × Document)}
    {r : UnpackRequest} (written : WrittenIn C members r) {d : C.Part}
    (shown : C.Shows d (.object members)) : read? C d = some r := by
  have complete : ∀ f ∈ documentFields, f.absence = .refused → f.name ∈ members.map Prod.fst := by
    intro f hf refused
    simp only [documentFields, List.mem_cons, List.not_mem_nil, or_false] at hf
    rcases hf with rfl | rfl | rfl
    · exact List.mem_map_of_mem written.program
    · exact List.mem_map_of_mem written.data
    · cases refused
  obtain ⟨_, found, given⟩ := Derived.exists_fields shown written.distinct complete
  simp only [documentFields, given_cons, given_nil] at given
  obtain ⟨programPart, _, rfl, program, dataPart, _, rfl, data, limitsPart, _, rfl, limits,
    rfl⟩ := given
  have read : ∀ x, C.Shows x (C.write r.limits) → C.read? x = some r.limits :=
    fun _ => read_option fun _ => ofFields_ne_null
  simp only [read?, found, required?_given written.distinct program written.program,
    required?_given written.distinct data written.data,
    orElse?_given written.distinct limits written.limits read]
  rfl

theorem exists_writtenIn (C : Codec) [C.Derived] (r : UnpackRequest) :
    ∃ members, WrittenIn C members r ∧ (Document.object members).depth < recursionLimit := by
  refine ⟨[("program", C.write r.program), ("data", C.write r.data), ("limits", C.write r.limits)],
    ⟨by simp, by simp, by simp, Or.inl (by simp)⟩, ?_⟩
  refine Nat.lt_of_le_of_lt (Document.depth_object_le (n := 1) ?_) (by decide)
  simp [depth_write_le, depth_option_le]

end UnpackRequest

namespace Bridge

variable {C : Codec} [C.Standard] [C.Derived]

section

variable {parserText : String} {request : List UInt8}

theorem compile_refused {r : CompileRequest} (asks : Asks C (CompileRequest.read? C) request r)
    {e : CompileError} (h : r.element.program r.direction.programType = .error e) :
    Refuses (call C parserText .compile (some request)) (Named.name (Reportable.kind e))
      (Reportable.message e) := by
  have answered := respond_of_asks .compile (fun _ => rfl) asks
  rw [CompileRequest.answer, h] at answered
  exact refuses_of_report parserText answered

omit [C.Derived] in
theorem compile_granted {r : CompileRequest} (asks : Asks C (CompileRequest.read? C) request r)
    {p : Program} (h : r.element.program r.direction.programType = .ok p) :
    Grants (call C parserText .compile (some request)) [
      ("program", C.write p.code),
      ("min_data_size", C.write (UInt32.ofNat (LittleEndian.read ((p.code.drop 3).take 4))))] := by
  obtain ⟨header, hheader⟩ := DataElement.exists_header h
  have size := Header.dataSize_of_decode hheader
  have answered := respond_of_asks .compile (fun _ => rfl) asks
  rw [CompileRequest.answer, h] at answered
  simp only [hheader, size] at answered
  have grants := grants_call parserText answered
  have word : ∀ n : UInt32, C.collect (C.write n) = C.write n := fun _ => Standard.collect_leaf rfl
  simp only [List.map_cons, List.map_nil, collect_bytes, word] at grants
  exact grants

theorem unpack_refused {r : UnpackRequest} (asks : Asks C (UnpackRequest.read? C) request r)
    {e : ReadError}
    (h : ((({ limits := r.limits.getD {} } : Reader).start r.data).run r.program).1 = .error e) :
    Refuses (call C parserText .unpack (some request)) (Named.name (Reportable.kind e))
      (Reportable.message e) := by
  have answered := respond_of_asks .unpack (fun _ => rfl) asks
  rw [UnpackRequest.answer] at answered
  simp only [h] at answered
  exact refuses_of_report parserText answered

theorem unpack_granted {r : UnpackRequest} (asks : Asks C (UnpackRequest.read? C) request r)
    {v : Value}
    (h : ((({ limits := r.limits.getD {} } : Reader).start r.data).run r.program).1 = .ok v) :
    ∃ value, Grants (call C parserText .unpack (some request)) [("value", value)] ∧
      ∀ text : String, value.Spells text.toList → C.decode? text = some v := by
  have answered := respond_of_asks .unpack (fun _ => rfl) asks
  rw [UnpackRequest.answer] at answered
  simp only [h] at answered
  obtain ⟨free, levels⟩ := Reader.plain_run (Prod.ext h rfl)
  have written : v.WrittenAs C (C.collect (C.write v)) := free.writtenAs_collect
  have shallow : (C.collect (C.write v)).depth < recursionLimit := by
    rw [Value.depth_writtenAs written]
    exact Nat.lt_of_le_of_lt levels (by decide)
  exact ⟨_, grants_call parserText answered, fun text spells =>
    decode?_of_spells spells shallow fun _ => Value.read_writtenAs free.keyed written⟩

end

/-- Compiling through the bridge gives the bytes of the program and the data size in its header, and
running a program through it the value of the run; an error comes through by kind and message. There
is a request for everything that can be asked, and every text of an object with the fields of a
request is such a request, whatever else stands in the object. The array of bytes is the same in the
reply that gives it and in the request that takes it, and every text of the value in a reply is read
as the value. Whatever is asked, there is a reply. -/
theorem compile_and_unpack_transported (C : Codec) [C.Standard] [C.Derived]
    (parserText : String) :
    (∀ (element : DataElement) (direction : Direction),
      (∃ request, Asks C (CompileRequest.read? C) request ⟨element, direction⟩) ∧
      (∀ members (text : String), CompileRequest.WrittenIn C members ⟨element, direction⟩ →
        (Document.object members).Spells text.toList →
        (Document.object members).depth < recursionLimit →
        Asks C (CompileRequest.read? C) (Utf8.encode text) ⟨element, direction⟩) ∧
      ∀ request, Asks C (CompileRequest.read? C) request ⟨element, direction⟩ →
        let reply := call C parserText .compile (some request)
        match element.program direction.programType with
        | .error e => Refuses reply (Named.name (Reportable.kind e)) (Reportable.message e)
        | .ok p => Grants reply [
            ("program", C.write p.code),
            ("min_data_size",
              C.write (UInt32.ofNat (LittleEndian.read ((p.code.drop 3).take 4))))]) ∧
    (∀ (code data : List UInt8) (limits : Option Limits),
      (∃ request, Asks C (UnpackRequest.read? C) request ⟨code, data, limits⟩) ∧
      (∀ members (text : String), UnpackRequest.WrittenIn C members ⟨code, data, limits⟩ →
        (Document.object members).Spells text.toList →
        (Document.object members).depth < recursionLimit →
        Asks C (UnpackRequest.read? C) (Utf8.encode text) ⟨code, data, limits⟩) ∧
      ∀ request, Asks C (UnpackRequest.read? C) request ⟨code, data, limits⟩ →
        let reply := call C parserText .unpack (some request)
        match ((({ limits := limits.getD {} } : Reader).start data).run code).1 with
        | .error e => Refuses reply (Named.name (Reportable.kind e)) (Reportable.message e)
        | .ok v => ∃ value, Grants reply [("value", value)] ∧
            ∀ text : String, value.Spells text.toList → C.decode? text = some v) ∧
    ∀ (service : Service) (request : Option (List UInt8)),
      Answered (call C parserText service request) := by
  refine ⟨fun element direction => ⟨?_, ?_, ?_⟩, fun code data limits => ⟨?_, ?_, ?_⟩,
    answered_call parserText⟩
  · obtain ⟨members, written, shallow⟩ := CompileRequest.exists_writtenIn C ⟨element, direction⟩
    exact exists_asks shallow fun _ => CompileRequest.read_writtenIn written
  · intro members text written spells shallow
    exact asks_of_spells spells shallow fun _ => CompileRequest.read_writtenIn written
  · intro request asks
    cases h : element.program direction.programType with
    | error e => exact compile_refused asks h
    | ok p => exact compile_granted asks h
  · obtain ⟨members, written, shallow⟩ := UnpackRequest.exists_writtenIn C ⟨code, data, limits⟩
    exact exists_asks shallow fun _ => UnpackRequest.read_writtenIn written
  · intro members text written spells shallow
    exact asks_of_spells spells shallow fun _ => UnpackRequest.read_writtenIn written
  · intro request asks
    cases h : ((({ limits := limits.getD {} } : Reader).start data).run code).1 with
    | error e => exact unpack_refused asks h
    | ok v => exact unpack_granted asks h

/-- Two numbers of 16 bits are compiled and then unpacked, with the direction given and the limits
left out. -/
theorem words_transported :
    let element : DataElement := ⟨.u16, 2, false⟩
    let program : List UInt8 := [1, 0, 0, 4, 0, 0, 0, 0x88, 2, 2]
    let data : List UInt8 := [7, 0, 1, 2]
    let members := [
      ("direction", Json.codec.write Direction.require), ("element", Json.codec.write element)]
    let compiling := Utf8.encode (Json.print (.object members))
    let others := [("program", Json.codec.write program), ("data", Json.codec.write data)]
    let unpacking := Utf8.encode (Json.print (.object others))
    Asks Json.codec (CompileRequest.read? Json.codec) compiling ⟨element, .require⟩ ∧
      Grants (call Json.codec "" .compile (some compiling)) [
        ("program", Json.codec.write program),
        ("min_data_size", Json.codec.write (4 : UInt32))] ∧
      Asks Json.codec (UnpackRequest.read? Json.codec) unpacking ⟨program, data, none⟩ ∧
      ∃ value, Grants (call Json.codec "" .unpack (some unpacking)) [("value", value)] ∧
        ∀ text : String, value.Spells text.toList → Json.codec.decode? text =
          some (Value.array [.scalar (.u32 7), .scalar (.u32 0x201)]) := by
  intro element program data members compiling others unpacking
  obtain ⟨compiles, unpacks, -⟩ := compile_and_unpack_transported Json.codec ""
  obtain ⟨-, asksCompile, compiled⟩ := compiles ⟨.u16, 2, false⟩ .require
  obtain ⟨-, asksUnpack, unpacked⟩ := unpacks [1, 0, 0, 4, 0, 0, 0, 0x88, 2, 2] [7, 0, 1, 2] none
  have written : CompileRequest.WrittenIn Json.codec members ⟨element, .require⟩ :=
    ⟨by simp [members], by simp [members], Or.inl (by simp [members])⟩
  have written' : UnpackRequest.WrittenIn Json.codec others ⟨program, data, none⟩ :=
    ⟨by simp [others], by simp [others], by simp [others], Or.inr ⟨by simp [others], rfl⟩⟩
  have asks := asksCompile members _ written (Json.spells_print _) (by decide)
  have asks' := asksUnpack others _ written' (Json.spells_print _) (by decide)
  have image : DataElement.program .unpack ⟨.u16, 2, false⟩ =
      .ok ⟨[1, 0, 0, 4, 0, 0, 0, 0x88, 2, 2]⟩ := rfl
  have begun : (({} : Reader).start [7, 0, 1, 2]).source.buffer = some [7, 0, 1, 2] := rfl
  have ran : ((({} : Reader).start [7, 0, 1, 2]).run [1, 0, 0, 4, 0, 0, 0, 0x88, 2, 2]).1 =
      .ok (.array [.scalar (.u32 7), .scalar (.u32 0x201)]) :=
    congrArg Prod.fst (DataElement.run_compiled image begun)
  have granted := compiled _ asks
  have answer := unpacked _ asks'
  simp only [Option.getD_none, ran] at answer
  exact ⟨asks, granted, asks', answer⟩

end Bridge

end PortWire
