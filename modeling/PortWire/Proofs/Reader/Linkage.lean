import PortWire.Proofs.Reader.Steps

/-!
# Linked frames

After a start every frame but the innermost waits for a part: a record for the field that was
selected in it, an array for its next record. A value that is finished therefore always finds its
place, and the frames that it finishes in turn find theirs. Builds may be given up at any moment and
the frames that are left may carry names and counts of old builds; this does no harm, because no
value is handed to them before they are opened again.
-/

namespace PortWire

namespace Frame

/-- The frame takes its next part from the frame above it. -/
inductive Waits (f : Frame) : Prop
  | field {fields : Fields} {key : String} :
    f.value = some (.record fields) → f.key = some key → Waits f
  | item {items : List Value} :
    f.value = some (.array items) → items.length < f.arrayLen.toNat → Waits f

/-- A record in this frame waits for no field. -/
def Settled (f : Frame) : Prop :=
  ∀ fields, f.value = some (.record fields) → f.key = none

/-- There is an innermost frame, and all frames below it wait. -/
def Linked : List Frame → Prop
  | [] => False
  | inner :: below => inner.Settled ∧ ∀ f ∈ below, f.Waits

/-- Where the value of a finished frame goes. In the outermost frame it stays. Otherwise it becomes
a field or an item of the frame below; if that finishes the frame below, its value goes on. -/
inductive HandedDown : Frame → List Frame → List Frame → Prop
  | stays {f : Frame} : HandedDown f [] [f]
  | field {f parent : Frame} {below : List Frame} {v : Value} {fields : Fields} {key : String} :
    f.value = some v → parent.value = some (.record fields) → parent.key = some key →
    parent.last = false →
      HandedDown f (parent :: below)
        ({ parent with value := some (.record (Fields.insert key v fields)), key := none } :: below)
  | lastField {f parent : Frame} {below after : List Frame} {v : Value} {fields : Fields}
    {key : String} :
    f.value = some v → parent.value = some (.record fields) → parent.key = some key →
    parent.last = true →
    HandedDown { parent with value := some (.record (Fields.insert key v fields)), key := none,
                             last := false } below after →
      HandedDown f (parent :: below) after
  | item {f parent : Frame} {below : List Frame} {v : Value} {items : List Value} :
    f.value = some v → parent.value = some (.array items) →
    items.length + 1 < parent.arrayLen.toNat →
      HandedDown f (parent :: below)
        (emptyRecord :: { parent with value := some (.array (items ++ [v])), key := none } :: below)
  | lastItem {f parent : Frame} {below after : List Frame} {v : Value} {items : List Value} :
    f.value = some v → parent.value = some (.array items) →
    items.length + 1 = parent.arrayLen.toNat →
    HandedDown { parent with value := some (.array (items ++ [v])), key := none, arrayLen := 0 }
      below after →
      HandedDown f (parent :: below) after

theorem settle_onto_record {f parent : Frame} {v : Value} {fields : Fields} {key : String}
    (holds : f.value = some v) (hvalue : parent.value = some (.record fields))
    (hkey : parent.key = some key) (below : List Frame) :
    settle f (parent :: below) =
      if parent.last then
        settle { parent with value := some (.record (Fields.insert key v fields)), key := none,
                             last := false } below
      else
        { parent with value := some (.record (Fields.insert key v fields)), key := none } ::
          below := by
  have gathering : parent.gathers = true := by
    rw [gathers, hkey]
    exact Bool.or_true _
  rw [settle]
  simp only [gathering, holds, hvalue, hkey, Bool.not_true, Bool.false_eq_true, if_false]

theorem settle_onto_array {f parent : Frame} {v : Value} {items : List Value}
    (holds : f.value = some v) (hvalue : parent.value = some (.array items))
    (room : items.length < parent.arrayLen.toNat) (below : List Frame) :
    settle f (parent :: below) =
      if items.length + 1 < parent.arrayLen.toNat then
        emptyRecord :: { parent with value := some (.array (items ++ [v])), key := none } :: below
      else
        settle { parent with value := some (.array (items ++ [v])), key := none, arrayLen := 0 }
          below := by
  have gathering : parent.gathers = true := by
    have positive : parent.arrayLen ≠ 0 := by
      intro zero
      rw [zero] at room
      exact absurd room (Nat.not_lt_zero _)
    simp only [gathers, Bool.or_eq_true, bne_iff_ne]
    exact Or.inl positive
  rw [settle]
  simp only [gathering, holds, hvalue, Bool.not_true, Bool.false_eq_true, if_false,
    List.length_append, List.length_singleton]

/-- If all frames below wait, no value that is handed down is lost on its way. -/
theorem handedDown_settle {f : Frame} {v : Value} (holds : f.value = some v) {below : List Frame}
    (waiting : ∀ g ∈ below, g.Waits) : HandedDown f below (settle f below) := by
  induction below generalizing f v with
  | nil => exact .stays
  | cons parent below ih =>
    have others : ∀ g ∈ below, g.Waits := fun g hg => waiting g (List.mem_cons_of_mem _ hg)
    cases waiting parent List.mem_cons_self with
    | field hvalue hkey =>
      rw [settle_onto_record holds hvalue hkey]
      by_cases hlast : parent.last = true
      · rw [if_pos hlast]
        exact .lastField holds hvalue hkey hlast (ih rfl others)
      · rw [if_neg hlast]
        exact .field holds hvalue hkey (Bool.eq_false_iff.mpr hlast)
    | @item items hvalue room =>
      rw [settle_onto_array holds hvalue room]
      by_cases more : items.length + 1 < parent.arrayLen.toNat
      · rw [if_pos more]
        exact .item holds hvalue more
      · rw [if_neg more]
        exact .lastItem holds hvalue (by omega) (ih rfl others)

/-- Handing a value down leaves linked frames. -/
theorem HandedDown.linked {f : Frame} {below after : List Frame} (h : HandedDown f below after)
    (settled : f.Settled) (waiting : ∀ g ∈ below, g.Waits) : Linked after := by
  induction h with
  | stays => exact ⟨settled, waiting⟩
  | field _ _ _ _ =>
    refine ⟨fun _ _ => rfl, ?_⟩
    exact fun g hg => waiting g (List.mem_cons_of_mem _ hg)
  | lastField _ _ _ _ _ ih =>
    exact ih (fun _ _ => rfl) fun g hg => waiting g (List.mem_cons_of_mem _ hg)
  | item _ _ more =>
    refine ⟨fun _ _ => rfl, ?_⟩
    intro g hg
    rcases List.mem_cons.mp hg with rfl | hg
    · exact .item rfl (by simpa using more)
    · exact waiting g (List.mem_cons_of_mem _ hg)
  | lastItem _ _ _ _ ih =>
    exact ih (fun _ _ => rfl) fun g hg => waiting g (List.mem_cons_of_mem _ hg)

theorem settled_of_flat {limits : Limits} {f : Frame} {v : Value} (flat : v.Flat limits) :
    Settled { f with value := some v } := by
  intro fields hvalue
  exact absurd (Option.some.inj hvalue) (flat.ne_record fields)

theorem settled_of_none {f : Frame} (empty : f.value = none) : f.Settled := by
  intro fields hvalue
  rw [empty] at hvalue
  cases hvalue

theorem linked_single {f : Frame} (empty : f.value = none) : Linked [f] :=
  ⟨settled_of_none empty, List.forall_mem_nil _⟩

/-- One step keeps the frames linked. -/
theorem Step.linked {limits : Limits} {frames after : List Frame}
    (step : Step limits frames after) (linked : Linked frames) : Linked after := by
  cases step with
  | kept => exact linked
  | fresh => exact linked_single rfl
  | stored flat => exact (handedDown_settle rfl linked.2).linked (settled_of_flat flat) linked.2
  | recordOpened => exact ⟨fun _ _ => rfl, linked.2⟩
  | recordsOpened positive _ _ =>
    refine ⟨fun _ _ => rfl, ?_⟩
    intro g hg
    rcases List.mem_cons.mp hg with rfl | hg
    · refine .item rfl ?_
      exact Nat.pos_of_ne_zero fun zero => positive (UInt32.toNat_inj.mp zero)
    · exact linked.2 g hg
  | fieldOpened hvalue _ _ =>
    refine ⟨settled_of_none rfl, ?_⟩
    intro g hg
    rcases List.mem_cons.mp hg with rfl | hg
    · exact .field hvalue rfl
    · exact linked.2 g hg
  | taken => exact ⟨settled_of_none rfl, linked.2⟩
  | unwound _ => exact linked_single rfl

end Frame

namespace Reader

theorem rooted_of_linked {r : Reader} (linked : Frame.Linked r.frames) : r.Rooted := by
  intro _ bare
  rw [bare] at linked
  exact linked

theorem linked_perform {r : Reader} (linked : Frame.Linked r.frames) (command : Command) :
    Frame.Linked (r.perform command).2.frames := by
  rcases moved_perform (rooted_of_linked linked) command with ⟨data, started⟩ | moved
  · rw [started]
    exact Frame.linked_single rfl
  · exact moved.frames.linked linked

theorem linked_session (r : Reader) (data : List UInt8) (commands : List Command) :
    Frame.Linked ((r.start data).session commands).frames :=
  session_induction (fun _ command linked => linked_perform linked command)
    (P := fun r => Frame.Linked r.frames) (Frame.linked_single rfl) commands

/-- With linked frames, only selecting outside of a record is a fault of the frames. -/
theorem fault_of_linked {r : Reader} (linked : Frame.Linked r.frames) {command : Command}
    {fault : StateFault} {after : Reader}
    (h : r.perform command = (.error (.state fault), after)) : fault = .outsideRecord := by
  have result := performed (rooted_of_linked linked) command
  rw [h] at result
  cases result with
  | abandoned noFrames => exact absurd trivial noFrames
  | refused reason =>
    cases reason with
    | noFrames noFrames => exact absurd trivial noFrames
    | outside => rfl
    | unfilled hframes hvalue hkey =>
      rw [hframes] at linked
      have settled := linked.1 _ hvalue
      rw [hkey] at settled
      cases settled

/-- After any session on a reader that was started there is an innermost frame, which waits for no
field, and all frames below it wait. A field that is read then goes to one place: it stays in the
outermost frame or becomes a part of the one below, and so do the values that it finishes. The
frames are never to blame for a failure, except that a field may be selected outside of a record. -/
theorem session_frames_linked (r : Reader) (data : List UInt8) (commands : List Command) :
    let reached := (r.start data).session commands
    (∃ inner below, reached.frames = inner :: below ∧ inner.Settled ∧ ∀ f ∈ below, f.Waits) ∧
      (∀ type count carried after, reached.readField type count carried = (.ok (), after) →
        ∃ inner below v, reached.frames = inner :: below ∧
          type.read reached.limits count carried reached.source = .ok (v, after.source) ∧
          Frame.HandedDown { inner with value := some v } below after.frames) ∧
      ∀ command fault after, reached.perform command = (.error (.state fault), after) →
        fault = .outsideRecord := by
  intro reached
  have linked : Frame.Linked reached.frames := linked_session r data commands
  refine ⟨?_, ?_, fun command fault after => fault_of_linked linked⟩
  · cases hframes : reached.frames with
    | nil =>
      rw [hframes] at linked
      exact linked.elim
    | cons inner below =>
      rw [hframes] at linked
      exact ⟨inner, below, rfl, linked⟩
  · intro type count carried after hread
    cases h : type.read reached.limits count carried reached.source with
    | error e =>
      simp only [readField, take, h] at hread
      cases hread
    | ok found =>
      obtain ⟨v, source⟩ := found
      obtain ⟨inner, below, hframes, hdone⟩ := readField_eq_ok (rooted_of_linked linked) h
      rw [hdone] at hread
      cases hread
      rw [hframes] at linked
      exact ⟨inner, below, v, hframes, rfl, Frame.handedDown_settle rfl linked.2⟩

/-- A record is given up while a field of it is selected, and its name stays on the outermost frame.
The array of records that is built there next is nevertheless complete. -/
theorem session_frames_linked_abandoned :
    let reached := (({} : Reader).start [2, 7, 8]).session
      [.enterRecord 0 none, .select "old" true, .takeValue true,
        .enterRecord 3 (some .u8), .select "x" true, .field (.primitive .u8) 0 none,
        .select "x" true]
    (∃ after, reached.readField (.primitive .u8) 0 none = (.ok (), after) ∧
      (after.takeValue false).1 =
        some (.array [.record [("x", .scalar (.u32 7))], .record [("x", .scalar (.u32 8))]]) ∧
      ∃ inner below v, reached.frames = inner :: below ∧
        (FieldType.primitive .u8).read reached.limits 0 none reached.source =
          .ok (v, after.source) ∧
        Frame.HandedDown { inner with value := some v } below after.frames) ∧
      ∃ fault after, reached.perform (.select "y" false) = (.error (.state fault), after) ∧
        fault = .outsideRecord := by
  intro reached
  have linked := session_frames_linked {} [2, 7, 8]
    [.enterRecord 0 none, .select "old" true, .takeValue true,
      .enterRecord 3 (some .u8), .select "x" true, .field (.primitive .u8) 0 none,
      .select "x" true]
  refine ⟨⟨_, rfl, rfl, linked.2.1 _ _ _ _ rfl⟩, _, _, rfl, linked.2.2 (.select "y" false) _ _ rfl⟩

end Reader

end PortWire
