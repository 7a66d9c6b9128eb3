import PortWire.Proofs.Reader.Linkage

/-!
# Courses of commands

A command looks at the open frames last. How it goes until then is decided by the limits, the source
and the number of frames: it is refused, or it comes to one action on the frames. The action depends
on what the frames hold only where a field is selected or a value is taken. Two readers that differ
in nothing but the contents of their frames thus come to the same action.
-/

namespace PortWire

/-- What a command asks of the frames. -/
inductive Frame.Action
  | keep
  | reset
  | put (v : Value)
  | openRecord
  | openRecords (length : UInt32)
  | select (key : String) (last : Bool)
  | take (unwind : Bool)

namespace Frame.Action

/-- The frames behind the action, unless they are at fault. -/
def apply : Action → List Frame → Except ReadError (List Frame)
  | keep, frames => .ok frames
  | reset, _ => .ok [{}]
  | put v, frames => store v frames
  | openRecord, frames => Frame.openRecord frames
  | openRecords length, frames => Frame.openRecords length frames
  | select key last, frames => Frame.select key last frames
  | take unwind, frames => .ok (takeValue (if unwind then Frame.unwind frames else frames)).2

/-- The value that the action takes out of the frames. -/
def taken : Action → List Frame → Option Value
  | take unwind, frames => (takeValue (if unwind then Frame.unwind frames else frames)).1
  | _, _ => none

/-- The action puts something else in the place of what the innermost frame holds, be it finished or
the start of an array. -/
def Replaces : Action → Prop
  | put _ | openRecords _ => True
  | _ => False

/-- What is put in place is a scalar or an array of scalars; what is opened waits for a record. -/
def Sound (limits : Limits) : Action → Prop
  | put v => v.Flat limits
  | openRecords length => length ≠ 0
  | _ => True

end Frame.Action

theorem Frame.Linked.ne_nil {frames : List Frame} (linked : Linked frames) : frames ≠ [] := by
  rintro rfl
  exact linked

theorem Frame.unwind_eq {frames : List Frame} (framed : frames ≠ []) :
    unwind frames = [frames.getLast framed] := by
  rw [unwind, List.getLast?_eq_some_getLast framed]
  rfl

namespace Reader

/-- The command puts a value in the place of what the innermost frame holds. Opening a record is no
such command: it starts the record over. -/
def Command.Replaces : Command → Prop
  | .field .. => True
  | .enterRecord count carried => ¬ (count = 0 ∧ carried = none)
  | _ => False

/-- How a command goes until it comes to the frames, and what it asks of them then. -/
inductive Course
  | refused (e : ReadError)
  | abandoned (e : ReadError)
  | comes (source : Source) (action : Frame.Action) (answer : Option Value → Answer)

namespace Course

def outcome (r : Reader) : Course → Except ReadError Answer × Reader
  | refused e => (.error e, r)
  | abandoned e => (.error e, { r with frames := [{}] })
  | comes source action answer =>
    match action.apply r.frames with
    | .error e => (.error e, r)
    | .ok frames => (.ok (answer (action.taken r.frames)), ⟨r.limits, source, frames⟩)

/-- The frames are not to blame before they are looked at, and the action that they are asked for is
one that belongs to the command. -/
def Suits (limits : Limits) (command : Command) : Course → Prop
  | comes _ action _ => action.Sound limits ∧ (action.Replaces ↔ command.Replaces)
  | refused e | abandoned e => ¬ e.OfFrames

end Course

variable (limits : Limits) (source : Source) (depth : Nat)

/-- All readers with these limits, this source and this many frames take the course. -/
def Takes (command : Command) (course : Course) : Prop :=
  course.Suits limits command ∧ ∀ frames : List Frame, frames ≠ [] → frames.length = depth →
    perform ⟨limits, source, frames⟩ command = course.outcome ⟨limits, source, frames⟩

variable {limits source depth}

theorem takes_step {α : Type} {step : Take α} (orderly : step.Orderly) (answer : α → Answer)
    {command : Command} (keeps : ¬ command.Replaces)
    (performs : ∀ r, perform r command = answering answer (take step) r) :
    ∃ course, Takes limits source depth command course := by
  cases h : step source with
  | error e =>
    refine ⟨.refused e, orderly.fault h, fun frames _ _ => ?_⟩
    simp only [performs, answering, take, h]
    rfl
  | ok found =>
    refine ⟨.comes found.2 .keep fun _ => answer found.1, ⟨trivial, ?_⟩, fun frames _ _ => ?_⟩
    · exact iff_of_false not_false keeps
    · simp only [performs, answering, take, h]
      rfl

theorem takes_field (type : FieldType) (count : UInt32) (carried : Option LengthWidth) :
    ∃ course, Takes limits source depth (.field type count carried) course := by
  cases h : type.read limits count carried source with
  | error e =>
    refine ⟨.refused e, FieldType.orderly_read.fault h, fun frames _ _ => ?_⟩
    simp only [perform, answering, readField, take, h]
    rfl
  | ok found =>
    refine ⟨.comes found.2 (.put found.1) fun _ => .done,
      ⟨FieldType.flat_of_read h, Iff.rfl⟩, ?_⟩
    intro frames framed _
    obtain ⟨inner, below, rfl⟩ := List.exists_cons_of_ne_nil framed
    simp only [perform, answering, readField, take, h]
    rfl

/-- With a count or a length in the data the depth is looked at first, then the length. -/
theorem takes_records {count : UInt32} {carried : Option LengthWidth} {data : List UInt8}
    (begun : source.buffer = some data) (records : ¬ (count = 0 ∧ carried = none)) :
    ∃ course, Takes limits source depth (.enterRecord count carried) course := by
  cases deep : limits.checkDepth (depth + 1) with
  | error fault =>
    refine ⟨.refused (.limit fault), not_false, ?_⟩
    rintro frames _ rfl
    simp only [perform, answering, enterRecord, begun, records, if_false, deep]
    rfl
  | ok _ =>
    cases h : Take.arrayLength limits count carried source with
    | error e =>
      refine ⟨.refused e, (Take.orderly_arrayLength _ _ _).fault h, ?_⟩
      rintro frames _ rfl
      simp only [perform, answering, enterRecord, begun, records, if_false, deep, take, h]
      rfl
    | ok found =>
      obtain ⟨n, further⟩ := found
      have replaces : True ↔ (Command.enterRecord count carried).Replaces :=
        iff_of_true trivial records
      by_cases empty : n = 0
      · have flat : (Value.array []).Flat limits :=
          .array (Nat.zero_le _) (List.forall_mem_nil _)
        refine ⟨.comes further (.put (.array [])) fun _ => .done, ⟨flat, replaces⟩, ?_⟩
        rintro frames framed rfl
        obtain ⟨inner, below, rfl⟩ := List.exists_cons_of_ne_nil framed
        simp only [perform, answering, enterRecord, begun, records, if_false, deep, take, h,
          if_pos empty]
        rfl
      · refine ⟨.comes further (.openRecords n) fun _ => .done, ⟨empty, replaces⟩, ?_⟩
        rintro frames framed rfl
        obtain ⟨inner, below, rfl⟩ := List.exists_cons_of_ne_nil framed
        simp only [perform, answering, enterRecord, begun, records, if_false, deep, take, h,
          if_neg empty]
        rfl

theorem takes_enterRecord (count : UInt32) (carried : Option LengthWidth) :
    ∃ course, Takes limits source depth (.enterRecord count carried) course := by
  cases begun : source.buffer with
  | none =>
    refine ⟨.refused .missingBuffer, not_false, fun frames _ _ => ?_⟩
    simp only [perform, answering, enterRecord, begun]
    rfl
  | some data =>
    by_cases record : count = 0 ∧ carried = none
    · refine ⟨.comes source .openRecord fun _ => .done, ⟨trivial, ?_⟩, fun frames framed _ => ?_⟩
      · exact iff_of_false not_false fun records => records record
      · obtain ⟨inner, below, rfl⟩ := List.exists_cons_of_ne_nil framed
        simp only [perform, answering, enterRecord, begun, record, and_self, if_true]
        rfl
    · exact takes_records begun record

theorem takes_select (key : String) (last : Bool) :
    ∃ course, Takes limits source depth (.select key last) course := by
  cases begun : source.buffer with
  | none =>
    refine ⟨.refused .missingBuffer, not_false, fun frames _ _ => ?_⟩
    simp only [perform, answering, select, begun]
    rfl
  | some data =>
    cases deep : limits.checkDepth (depth + 1) with
    | error fault =>
      refine ⟨.refused (.limit fault), not_false, ?_⟩
      rintro frames _ rfl
      simp only [perform, answering, select, begun, deep]
      rfl
    | ok _ =>
      refine ⟨.comes source (.select key last) fun _ => .done, ⟨trivial, Iff.rfl⟩, ?_⟩
      rintro frames _ rfl
      simp only [perform, answering, select, begun, deep, onFrames, Course.outcome,
        Frame.Action.apply]
      cases Frame.select key last frames <;> rfl

/-- Elements are read into fresh frames, so that those of the reader make no difference to them. -/
theorem readElements_cons_frames (found : List Value) (e : LocatedElement)
    (rest : List LocatedElement) (frames : List Frame) :
    readElements found (e :: rest) ⟨limits, source, frames⟩ =
      readElements found (e :: rest) ⟨limits, source, [{}]⟩ := by
  rw [readElements, readElements, readElement_eq, readElement_eq]

/-- A program that begins leaves the frames alone if it has no elements. Otherwise it leaves a fresh
one, be it done or stopped. -/
theorem takes_elements {image : List UInt8} {data : List UInt8} {program : DecodedProgram}
    (begun : source.buffer = some data) (decoded : DecodedProgram.decode image = .ok program)
    (enough : ¬ source.remaining < program.header.dataSize.toNat) :
    ∃ course, Takes limits source depth (.run image) course := by
  cases helements : program.elements with
  | nil =>
    refine ⟨.comes source .keep fun _ => .value (collect []), ⟨trivial, Iff.rfl⟩, ?_⟩
    intro frames _ _
    simp only [perform, answering, run, begun, decoded, if_neg enough, helements, readElements]
    rfl
  | cons e rest =>
    have ran := ran_readElements [] (e :: rest) ⟨limits, source, [{}]⟩
    have same := @readElements_cons_frames limits source [] e rest
    generalize readElements [] (e :: rest) ⟨limits, source, [{}]⟩ = result at ran same
    cases ran with
    | @idle values =>
      refine ⟨.comes source .reset fun _ => .value (collect values), ⟨trivial, Iff.rfl⟩, ?_⟩
      intro frames _ _
      simp only [perform, answering, run, begun, decoded, if_neg enough, helements, same]
      rfl
    | @finished values further _ =>
      refine ⟨.comes further .reset fun _ => .value (collect values), ⟨trivial, Iff.rfl⟩, ?_⟩
      intro frames _ _
      simp only [perform, answering, run, begun, decoded, if_neg enough, helements, same]
      rfl
    | @stopped err _ noFrames =>
      refine ⟨.abandoned err, noFrames, fun frames _ _ => ?_⟩
      simp only [perform, answering, run, begun, decoded, if_neg enough, helements, same]
      rfl

theorem takes_run (image : List UInt8) :
    ∃ course, Takes limits source depth (.run image) course := by
  cases begun : source.buffer with
  | none =>
    refine ⟨.refused .missingBuffer, not_false, fun frames _ _ => ?_⟩
    simp only [perform, answering, run, begun]
    rfl
  | some data =>
    cases decoded : DecodedProgram.decode image with
    | error fault =>
      refine ⟨.refused (.program fault), not_false, fun frames _ _ => ?_⟩
      simp only [perform, answering, run, begun, decoded]
      rfl
    | ok program =>
      by_cases short : source.remaining < program.header.dataSize.toNat
      · refine ⟨.refused (.pastEnd program.header.dataSize.toNat source.remaining), not_false, ?_⟩
        intro frames _ _
        simp only [perform, answering, run, begun, decoded, if_pos short]
        rfl
      · exact takes_elements begun decoded short

/-- The limits, the source and the number of frames decide on the course of a command. -/
theorem exists_course (limits : Limits) (source : Source) (depth : Nat) (command : Command) :
    ∃ course, Takes limits source depth command course := by
  cases command with
  | start data =>
    exact ⟨.comes ⟨some data, 0⟩ .reset fun _ => .done, ⟨trivial, Iff.rfl⟩, fun _ _ _ => rfl⟩
  | primitive p => exact takes_step (Take.orderly_primitive p) .scalar not_false fun _ => rfl
  | text size =>
    have orderly := (Take.orderly_bytes size.toNat).bind fun field =>
      Take.orderly_pure (FixedText.ofField field)
    exact takes_step orderly .text not_false fun _ => rfl
  | bytes size =>
    exact takes_step (Take.orderly_bytes size.toNat) .bytes not_false fun _ => rfl
  | field type count carried => exact takes_field type count carried
  | enterRecord count carried => exact takes_enterRecord count carried
  | select key last => exact takes_select key last
  | takeValue unwind =>
    exact ⟨.comes source (.take unwind) .taken, ⟨trivial, Iff.rfl⟩, fun _ _ _ => rfl⟩
  | run image => exact takes_run image

theorem exists_course_of_linked {r : Reader} (linked : Frame.Linked r.frames) (command : Command) :
    ∃ course : Course, course.Suits r.limits command ∧ r.perform command = course.outcome r := by
  obtain ⟨course, suits, takes⟩ := exists_course r.limits r.source r.frames.length command
  exact ⟨course, suits, takes r.frames linked.ne_nil rfl⟩

end Reader

end PortWire
