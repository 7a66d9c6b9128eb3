import Mathlib.Data.List.Chain
import PortWire.Proofs.Reader.Courses

/-!
# Items of arrays of records

The frame above an array of records builds the next item. It is opened with a record, and as long as
nothing else is put in the place of that record, all items are records. Reading a field puts its
value there unless a field of the record was selected. It is never refused for it, whatever the
innermost frame holds: the record is gone, and the value that took its place is gathered in its
stead. So an array of records is only as good as the commands.
-/

namespace PortWire

def Value.IsRecord (v : Value) : Prop :=
  ∃ fields, v = .record fields

theorem Value.Flat.not_isRecord {limits : Limits} {v : Value} (flat : v.Flat limits) :
    ¬ v.IsRecord := by
  rintro ⟨fields, rfl⟩
  exact flat.ne_record fields rfl

namespace Frame

/-- The innermost frame builds an item of an array. -/
def AtItem (frames : List Frame) : Prop :=
  ∃ inner parent below items, frames = inner :: parent :: below ∧
    parent.value = some (.array items)

/-- While the value of `f` is handed down, `w` becomes an item of an array. -/
inductive Collects (w : Value) : Frame → List Frame → Prop
  | here {f parent : Frame} {below : List Frame} {items : List Value} :
    f.value = some w → parent.value = some (.array items) → Collects w f (parent :: below)
  | afterField {f parent : Frame} {below : List Frame} {v : Value} {fields : Fields}
    {key : String} :
    f.value = some v → parent.value = some (.record fields) → parent.key = some key →
    parent.last = true →
    Collects w { parent with value := some (.record (Fields.insert key v fields)), key := none,
                             last := false } below →
      Collects w f (parent :: below)
  | afterItem {f parent : Frame} {below : List Frame} {v : Value} {items : List Value} :
    f.value = some v → parent.value = some (.array items) →
    items.length + 1 = parent.arrayLen.toNat →
    Collects w { parent with value := some (.array (items ++ [v])), key := none, arrayLen := 0 }
      below →
      Collects w f (parent :: below)

/-- If the lower frame holds an array, its items are records and so is what the upper frame holds.
-/
def Supplies (upper lower : Frame) : Prop :=
  ∀ items, lower.value = some (.array items) →
    (∀ item ∈ items, item.IsRecord) ∧ ∀ v, upper.value = some v → v.IsRecord

/-- Every frame supplies the one below it. -/
abbrev Supplied : List Frame → Prop :=
  List.IsChain Supplies

variable {f g : Frame} {below frames after : List Frame}

theorem Supplied.lower (supplied : Supplied (f :: below)) : Supplied below :=
  supplied.tail

theorem Supplied.record (supplied : Supplied (f :: below))
    (record : ∀ v, g.value = some v → v.IsRecord) : Supplied (g :: below) :=
  supplied.imp_head fun supplies items holds => ⟨(supplies items holds).1, record⟩

/-- Below an array there is no other array, so anything may take its place. -/
theorem Supplied.array (supplied : Supplied (f :: below)) {items : List Value}
    (hvalue : f.value = some (.array items)) : Supplied (g :: below) := by
  refine supplied.imp_head fun supplies outer holds => ?_
  obtain ⟨fields, record⟩ := (supplies outer holds).2 _ hvalue
  cases record

theorem Supplied.noItem (supplied : Supplied (f :: below)) (elsewhere : ¬ AtItem (f :: below)) :
    Supplied (g :: below) := by
  cases below with
  | nil => exact .singleton g
  | cons parent below =>
    refine .cons_cons (fun items holds => ?_) supplied.lower
    exact absurd ⟨f, parent, below, items, rfl, holds⟩ elsewhere

/-- Items are looked at in frames that have a frame above them. -/
theorem Supplied.items (supplied : Supplied frames) (hf : f ∈ frames.tail) {items : List Value}
    (hvalue : f.value = some (.array items)) : ∀ item ∈ items, item.IsRecord := by
  induction frames with
  | nil => cases hf
  | cons upper below ih =>
    cases below with
    | nil => cases hf
    | cons lower below =>
      rcases List.mem_cons.mp hf with rfl | deeper
      · exact ((List.isChain_cons_cons.mp supplied).1 items hvalue).1
      · exact ih supplied.lower deeper

theorem isRecord_some (fields : Fields) :
    ∀ v, some (Value.record fields) = some v → v.IsRecord := by
  rintro v ⟨⟩
  exact ⟨fields, rfl⟩

/-- An array that gets what the frame above it holds still has records only. -/
theorem Supplied.item (supplied : Supplied (f :: g :: below)) {v : Value} {items : List Value}
    (holds : f.value = some v) (hvalue : g.value = some (.array items)) :
    ∀ item ∈ items ++ [v], item.IsRecord := by
  obtain ⟨records, record⟩ := (List.isChain_cons_cons.mp supplied).1 items hvalue
  intro item hitem
  rcases List.mem_append.mp hitem with known | new
  · exact records item known
  · exact List.mem_singleton.mp new ▸ record v holds

theorem HandedDown.supplied (h : HandedDown f below after) (supplied : Supplied (f :: below)) :
    Supplied after := by
  induction h with
  | stays => exact supplied
  | field _ _ _ _ => exact supplied.lower.record (isRecord_some _)
  | lastField _ _ _ _ _ ih => exact ih (supplied.lower.record (isRecord_some _))
  | item holds hvalue _ =>
    have records := supplied.item holds hvalue
    refine .cons_cons (fun items filled => ?_) (supplied.lower.array hvalue)
    cases filled
    exact ⟨records, isRecord_some _⟩
  | lastItem _ hvalue _ _ ih => exact ih (supplied.lower.array hvalue)

theorem Collects.isRecord {w : Value} (h : Collects w f below) (supplied : Supplied (f :: below)) :
    w.IsRecord := by
  induction h with
  | here holds hvalue => exact ((List.isChain_cons_cons.mp supplied).1 _ hvalue).2 _ holds
  | afterField _ _ _ _ _ ih => exact ih (supplied.lower.record (isRecord_some _))
  | afterItem _ hvalue _ _ ih => exact ih (supplied.lower.array hvalue)

theorem select_eq_ok {key : String} {last : Bool} (h : select key last frames = .ok after) :
    ∃ f below fields, frames = f :: below ∧ f.value = some (.record fields) ∧
      after = {} :: { f with key := some key, last := last } :: below := by
  cases frames with
  | nil => cases h
  | cons f below =>
    simp only [select] at h
    split at h
    · rename_i fields hvalue _
      cases h
      exact ⟨f, below, fields, rfl, hvalue, rfl⟩
    · cases h
    · cases h

/-- An action keeps the frames supplied unless it replaces an item. -/
theorem Action.supplied {action : Action} (linked : Linked frames) (supplied : Supplied frames)
    (harmless : ¬ (action.Replaces ∧ AtItem frames)) (h : action.apply frames = .ok after) :
    Supplied after := by
  cases frames with
  | nil => exact linked.elim
  | cons f below =>
    cases action with
    | keep =>
      cases h
      exact supplied
    | reset =>
      cases h
      exact .singleton _
    | put v =>
      cases h
      have elsewhere := fun item => harmless ⟨trivial, item⟩
      exact (handedDown_settle rfl linked.2).supplied (supplied.noItem elsewhere)
    | openRecord =>
      cases h
      exact supplied.record (isRecord_some _)
    | openRecords length =>
      cases h
      have elsewhere := fun item => harmless ⟨trivial, item⟩
      refine .cons_cons (fun items opened => ?_) (supplied.noItem elsewhere)
      cases opened
      exact ⟨List.forall_mem_nil _, isRecord_some _⟩
    | select key last =>
      have opened : Frame.select key last (f :: below) = .ok after := h
      obtain ⟨f, below, fields, hframes, hvalue, rfl⟩ := select_eq_ok opened
      cases hframes
      refine .cons_cons (fun items holds => ?_) (supplied.record ?_)
      · cases hvalue.symm.trans holds
      · exact hvalue ▸ isRecord_some fields
    | take unwinding =>
      cases h
      cases unwinding with
      | false =>
        refine supplied.record ?_
        rintro v ⟨⟩
      | true =>
        simp only [if_true, unwind_eq (List.cons_ne_nil f below), takeValue]
        exact .singleton _

/-- What becomes of the frames when something other than a record takes the place of what the
innermost one holds. It is a value that is handed down, and becomes an item at once if an item was
being built; or it is an array that waits for its first record. -/
inductive Replaced (inner : Frame) (below : List Frame) : List Frame → Prop
  | finished {v : Value} {after : List Frame} : ¬ v.IsRecord →
    HandedDown { inner with value := some v } below after →
    (AtItem (inner :: below) → Collects v { inner with value := some v } below) →
      Replaced inner below after
  | opened {length : UInt32} :
    Replaced inner below
      (emptyRecord :: { inner with value := some (.array []), arrayLen := length } :: below)

/-- The frames never stand in the way of an action that replaces what the innermost one holds. -/
theorem Action.replaced {limits : Limits} {action : Action} (sound : action.Sound limits)
    (replaces : action.Replaces) (linked : Linked (f :: below)) :
    ∃ after, action.apply (f :: below) = .ok after ∧ Replaced f below after := by
  cases action with
  | put v =>
    refine ⟨_, rfl, .finished sound.not_isRecord (handedDown_settle rfl linked.2) ?_⟩
    rintro ⟨_, _, _, _, hframes, holds⟩
    cases hframes
    exact .here rfl holds
  | openRecords length => exact ⟨_, rfl, .opened⟩
  | keep | reset | openRecord | select | take => exact replaces.elim

end Frame

namespace Reader

variable {r : Reader}

/-- The command puts something else in the place of an item that is being built. -/
def Disturbs (r : Reader) (command : Command) : Prop :=
  command.Replaces ∧ Frame.AtItem r.frames ∧ ∃ answer, (r.perform command).1 = .ok answer

/-- No command of the session disturbs an item. -/
def Undisturbed : Reader → List Command → Prop
  | _, [] => True
  | r, command :: rest => ¬ r.Disturbs command ∧ Undisturbed (r.perform command).2 rest

theorem supplied_perform (linked : Frame.Linked r.frames) (supplied : Frame.Supplied r.frames)
    {command : Command} (harmless : ¬ r.Disturbs command) :
    Frame.Supplied (r.perform command).2.frames := by
  obtain ⟨course, suits, performs⟩ := exists_course_of_linked linked command
  cases course with
  | refused e =>
    rw [performs]
    exact supplied
  | abandoned e =>
    rw [performs]
    exact .singleton _
  | comes source action answer =>
    cases happlied : action.apply r.frames with
    | error e =>
      simp only [performs, Course.outcome, happlied]
      exact supplied
    | ok after =>
      have done : r.perform command =
          (.ok (answer (action.taken r.frames)), ⟨r.limits, source, after⟩) := by
        simp only [performs, Course.outcome, happlied]
      rw [done]
      refine Frame.Action.supplied linked supplied ?_ happlied
      rintro ⟨replaces, item⟩
      exact harmless ⟨suits.2.mp replaces, item, _, congrArg Prod.fst done⟩

theorem supplied_session {commands : List Command} (linked : Frame.Linked r.frames)
    (supplied : Frame.Supplied r.frames) (undisturbed : r.Undisturbed commands) :
    Frame.Supplied (r.session commands).frames := by
  induction commands generalizing r with
  | nil => exact supplied
  | cons command rest ih =>
    obtain ⟨harmless, others⟩ := undisturbed
    exact ih (linked_perform linked command) (supplied_perform linked supplied harmless) others

theorem replaced_perform (linked : Frame.Linked r.frames) {command : Command}
    (replaces : command.Replaces) :
    (∀ e after, r.perform command = (.error e, after) → ¬ e.OfFrames) ∧
      ∀ answer after, r.perform command = (.ok answer, after) →
        ∃ inner below, r.frames = inner :: below ∧ Frame.Replaced inner below after.frames := by
  obtain ⟨course, suits, performs⟩ := exists_course_of_linked linked command
  cases course with
  | refused e | abandoned e =>
    rw [performs]
    refine ⟨fun _ _ h => ?_, fun _ _ h => ?_⟩
    · cases h
      exact suits
    · cases h
  | comes source action answer =>
    obtain ⟨inner, below, hframes⟩ := List.exists_cons_of_ne_nil linked.ne_nil
    rw [hframes] at linked
    obtain ⟨frames, happlied, replaced⟩ :=
      Frame.Action.replaced suits.1 (suits.2.mpr replaces) linked
    rw [← hframes] at happlied
    simp only [performs, Course.outcome, happlied]
    refine ⟨fun _ _ h => ?_, fun _ _ h => ?_⟩
    · cases h
    · cases h
      exact ⟨inner, below, hframes, replaced⟩

/-- After any session on a reader that was started: if nothing else was put in the place of an item
that was being built, the items of all arrays of records are records, and so are all that are
collected next. A command that puts something else there is not refused for it, though. When it
succeeds, whatever the innermost frame held is lost, and a value that took its place becomes an item
if an item was being built. -/
theorem session_items_records (r : Reader) (data : List UInt8) (commands : List Command) :
    let reached := (r.start data).session commands
    ((r.start data).Undisturbed commands →
      (∀ f ∈ reached.frames.tail, ∀ items, f.value = some (.array items) →
        ∀ item ∈ items, item.IsRecord) ∧
      ∀ inner below v w, reached.frames = inner :: below → ¬ Frame.AtItem reached.frames →
        Frame.Collects w { inner with value := some v } below → w.IsRecord) ∧
      ∀ command, command.Replaces →
        (∀ e after, reached.perform command = (.error e, after) → ¬ e.OfFrames) ∧
        ∀ answer after, reached.perform command = (.ok answer, after) →
          ∃ inner below, reached.frames = inner :: below ∧
            Frame.Replaced inner below after.frames := by
  intro reached
  have linked : Frame.Linked reached.frames := linked_session r data commands
  refine ⟨fun undisturbed => ?_, fun command => replaced_perform linked⟩
  have supplied : Frame.Supplied reached.frames :=
    supplied_session (Frame.linked_single rfl) (.singleton _) undisturbed
  refine ⟨fun f hf items => supplied.items hf, ?_⟩
  intro inner below v w hframes elsewhere collects
  rw [hframes] at supplied elsewhere
  exact collects.isRecord (supplied.noItem elsewhere)

/-- The last field of the second record is selected, and the first record is an item. -/
theorem session_items_records_second :
    let reached := (({} : Reader).start [7, 8]).session [.enterRecord 2 none, .select "x" true,
      .field (.primitive .u8) 0 none, .select "x" true]
    reached.frames = [{}, { value := some (.record []), key := some "x", last := true },
        { value := some (.array [.record [("x", .scalar (.u32 7))]]), arrayLen := 2 }] ∧
      (∀ f ∈ reached.frames.tail, ∀ items, f.value = some (.array items) →
        ∀ item ∈ items, item.IsRecord) ∧
      (Value.record [("x", .scalar (.u32 8))]).IsRecord ∧
      ∃ after, reached.perform (.field (.primitive .u8) 0 none) = (.ok .done, after) ∧
        ∃ inner below, reached.frames = inner :: below ∧
          Frame.Replaced inner below after.frames := by
  intro reached
  have undisturbed : (({} : Reader).start [7, 8]).Undisturbed [.enterRecord 2 none,
      .select "x" true, .field (.primitive .u8) 0 none, .select "x" true] := by
    refine ⟨?_, fun disturbs => disturbs.1, ?_, fun disturbs => disturbs.1, trivial⟩
    · rintro ⟨_, ⟨_, _, _, _, hframes, _⟩, _⟩
      cases hframes
    · rintro ⟨_, ⟨_, _, _, _, hframes, hvalue⟩, _⟩
      cases hframes
      cases hvalue
  have law := session_items_records {} [7, 8] [.enterRecord 2 none, .select "x" true,
    .field (.primitive .u8) 0 none, .select "x" true]
  obtain ⟨records, collected⟩ := law.1 undisturbed
  refine ⟨rfl, records, ?_, ?_⟩
  · refine collected {} _ (.scalar (.u32 8)) _ rfl ?_ ?_
    · rintro ⟨_, _, _, _, hframes, hvalue⟩
      cases hframes
      cases hvalue
    · exact .afterField rfl rfl rfl rfl (.here rfl rfl)
  · exact ⟨_, rfl, (law.2 (.field (.primitive .u8) 0 none) trivial).2 _ _ rfl⟩

/-- Not all items are records after every session, and a command is not refused for replacing a
record that is being built: a byte that is read behind the first field of a record becomes the item,
and the record is lost with its field. -/
theorem item_replaced_by_byte :
    (¬ ∀ (r : Reader) (data : List UInt8) (commands : List Command),
        ∀ f ∈ ((r.start data).session commands).frames.tail, ∀ items,
          f.value = some (.array items) → ∀ item ∈ items, item.IsRecord) ∧
      ¬ ∀ (r : Reader) (data : List UInt8) (commands : List Command) (command : Command)
          (inner : Frame) (below : List Frame) (fields : Fields),
        ((r.start data).session commands).frames = inner :: below →
          inner.value = some (.record fields) → inner.key = none → command.Replaces →
            ∃ e, (((r.start data).session commands).perform command).1 = .error e := by
  let begun : List Command := [.enterRecord 2 none, .select "x" false,
    .field (.primitive .u8) 0 none]
  let value : Command := .field (.primitive .u8) 0 none
  constructor
  · intro records
    have collected : ((({} : Reader).start [7, 8]).session (begun ++ [value])).frames.tail =
        [{ value := some (.array [.scalar (.u32 8)]), arrayLen := 2 }] := rfl
    have item := records {} [7, 8] (begun ++ [value])
    rw [collected] at item
    obtain ⟨fields, record⟩ := item _ List.mem_cons_self _ rfl _ List.mem_cons_self
    cases record
  · intro refused
    obtain ⟨e, h⟩ := refused {} [7, 8] begun value
      { value := some (.record [("x", .scalar (.u32 7))]) } _ _ rfl rfl rfl trivial
    cases h

end Reader

end PortWire
