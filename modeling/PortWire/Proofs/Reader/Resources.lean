import PortWire.Proofs.Fields
import PortWire.Proofs.Reader.Failure
import PortWire.Proofs.Reader.Linkage

/-!
# Resources of a reader

The depth of the frames and the length of arrays are looked at when a frame is opened and when a
length is read, and nowhere else. This is enough: finishing a frame never leaves more frames than
there were, and an array of records takes no item beyond the length that it was opened with. The
limits therefore hold in every reader that a session can reach, before anything was started and
after any failure. What a program run answers with is not kept in a frame; it may collect more
values than an array may have items.
-/

namespace PortWire

namespace Value

/-- `part` is the value itself or stands somewhere inside of it. -/
inductive Holds (part : Value) : Value → Prop
  | self : Holds part part
  | item {items : List Value} {v : Value} : v ∈ items → Holds part v → Holds part (.array items)
  | field {fields : Fields} {f : String × Value} :
    f ∈ fields → Holds part f.2 → Holds part (.record fields)

/-- No array in the value is longer than `most`. -/
def Bounded (most : Nat) (v : Value) : Prop :=
  ∀ items, Holds (.array items) v → items.length ≤ most

variable {most : Nat}

theorem bounded_scalar (s : Scalar) : (scalar s).Bounded most := by
  intro items inside
  cases inside

theorem bounded_array_iff {items : List Value} :
    (array items).Bounded most ↔ items.length ≤ most ∧ ∀ v ∈ items, v.Bounded most := by
  constructor
  · intro h
    exact ⟨h items .self, fun v hv inner inside => h inner (.item hv inside)⟩
  · rintro ⟨short, parts⟩ inner inside
    cases inside with
    | self => exact short
    | item hv inside => exact parts _ hv inner inside

theorem bounded_record_iff {fields : Fields} :
    (record fields).Bounded most ↔ ∀ f ∈ fields, f.2.Bounded most := by
  constructor
  · exact fun h f hf inner inside => h inner (.field hf inside)
  · intro parts inner inside
    cases inside with
    | field hf inside => exact parts _ hf inner inside

theorem bounded_emptyArray : (array []).Bounded most :=
  bounded_array_iff.mpr ⟨Nat.zero_le _, List.forall_mem_nil _⟩

theorem bounded_emptyRecord : emptyRecord.Bounded most :=
  bounded_record_iff.mpr (List.forall_mem_nil _)

theorem bounded_of_flat {limits : Limits} {v : Value} (flat : v.Flat limits) :
    v.Bounded limits.maxArrayLen.toNat := by
  cases flat with
  | scalar s => exact bounded_scalar s
  | array short scalars =>
    refine bounded_array_iff.mpr ⟨short, ?_⟩
    intro v hv
    obtain ⟨s, rfl⟩ := scalars v hv
    exact bounded_scalar s

theorem bounded_insert {key : String} {v : Value} {fields : Fields} (hv : v.Bounded most)
    (hfields : (record fields).Bounded most) :
    (record (Fields.insert key v fields)).Bounded most := by
  refine bounded_record_iff.mpr fun f hf => ?_
  rcases Fields.mem_insert hf with known | same
  · exact bounded_record_iff.mp hfields f known
  · exact same ▸ hv

theorem bounded_append {v : Value} {items : List Value} (hv : v.Bounded most)
    (hitems : (array items).Bounded most) (room : items.length < most) :
    (array (items ++ [v])).Bounded most := by
  refine bounded_array_iff.mpr ⟨by rwa [List.length_append], ?_⟩
  intro w hw
  rcases List.mem_append.mp hw with known | new
  · exact (bounded_array_iff.mp hitems).2 w known
  · exact List.mem_singleton.mp new ▸ hv

end Value

namespace Frame

variable {limits : Limits}

/-- The frame keeps the limit on array lengths, in its count and in all arrays of its value. -/
structure Capped (limits : Limits) (f : Frame) : Prop where
  arrayLen : f.arrayLen ≤ limits.maxArrayLen
  value : ∀ v, f.value = some v → v.Bounded limits.maxArrayLen.toNat

theorem capped_some {v : Value} {key : Option String} {last : Bool} {n : UInt32}
    (count : n ≤ limits.maxArrayLen) (bounded : v.Bounded limits.maxArrayLen.toNat) :
    Capped limits ⟨some v, key, last, n⟩ where
  arrayLen := count
  value _ hw := Option.some.inj hw ▸ bounded

theorem capped_none {key : Option String} {last : Bool} {n : UInt32}
    (count : n ≤ limits.maxArrayLen) : Capped limits ⟨none, key, last, n⟩ where
  arrayLen := count
  value w hw := by cases hw

theorem capped_empty (limits : Limits) : Capped limits {} :=
  capped_none UInt32.zero_le

theorem capped_emptyRecord (limits : Limits) : emptyRecord.Capped limits :=
  capped_some UInt32.zero_le Value.bounded_emptyRecord

/-- The stack is no deeper than the limit, or a single frame, and all frames keep the other limit.
-/
structure WithinLimits (limits : Limits) (frames : List Frame) : Prop where
  depth : frames.length ≤ max 1 limits.maxDepth.toNat
  capped : ∀ f ∈ frames, f.Capped limits

/-- What an array holds with one more item, while it waits for that item. -/
theorem Capped.bounded_append {f parent : Frame} {v : Value} {items : List Value}
    (hf : f.Capped limits) (hparent : parent.Capped limits) (holds : f.value = some v)
    (hvalue : parent.value = some (.array items))
    (room : items.length + 1 ≤ parent.arrayLen.toNat) :
    (Value.array (items ++ [v])).Bounded limits.maxArrayLen.toNat :=
  Value.bounded_append (hf.value v holds) (hparent.value _ hvalue)
    (Nat.le_trans room hparent.arrayLen)

theorem Capped.bounded_insert {f parent : Frame} {v : Value} {fields : Fields}
    (hf : f.Capped limits) (hparent : parent.Capped limits) (holds : f.value = some v)
    (hvalue : parent.value = some (.record fields)) (key : String) :
    (Value.record (Fields.insert key v fields)).Bounded limits.maxArrayLen.toNat :=
  Value.bounded_insert (hf.value v holds) (hparent.value _ hvalue)

/-- Handing a value down adds no frame, and leaves frames that keep the limit. -/
theorem HandedDown.capped {f : Frame} {below after : List Frame} (h : HandedDown f below after)
    (inner : f.Capped limits) (others : ∀ g ∈ below, g.Capped limits) :
    after.length ≤ below.length + 1 ∧ ∀ g ∈ after, g.Capped limits := by
  induction h with
  | stays => exact ⟨Nat.le_refl _, List.forall_mem_cons.mpr ⟨inner, others⟩⟩
  | field holds hvalue _ _ =>
    obtain ⟨hparent, others⟩ := List.forall_mem_cons.mp others
    have filled := inner.bounded_insert hparent holds hvalue
    refine ⟨Nat.le_succ _, List.forall_mem_cons.mpr ⟨?_, others⟩⟩
    exact capped_some hparent.arrayLen (filled _)
  | lastField holds hvalue _ _ _ ih =>
    obtain ⟨hparent, others⟩ := List.forall_mem_cons.mp others
    have filled := inner.bounded_insert hparent holds hvalue
    obtain ⟨shorter, kept⟩ := ih (capped_some hparent.arrayLen (filled _)) others
    exact ⟨Nat.le_succ_of_le shorter, kept⟩
  | item holds hvalue more =>
    obtain ⟨hparent, others⟩ := List.forall_mem_cons.mp others
    have filled := inner.bounded_append hparent holds hvalue (Nat.le_of_lt more)
    refine ⟨Nat.le_refl _, List.forall_mem_cons.mpr ⟨capped_emptyRecord limits, ?_⟩⟩
    exact List.forall_mem_cons.mpr ⟨capped_some hparent.arrayLen filled, others⟩
  | lastItem holds hvalue full _ ih =>
    obtain ⟨hparent, others⟩ := List.forall_mem_cons.mp others
    have filled := inner.bounded_append hparent holds hvalue (Nat.le_of_eq full)
    obtain ⟨shorter, kept⟩ := ih (capped_some UInt32.zero_le filled) others
    exact ⟨Nat.le_succ_of_le shorter, kept⟩

/-- One step keeps the limits. Handing down relies on the frames below, which have to wait. -/
theorem Step.withinLimits {frames after : List Frame} (step : Step limits frames after)
    (waiting : ∀ f ∈ frames.tail, f.Waits) (within : WithinLimits limits frames) :
    WithinLimits limits after := by
  obtain ⟨depth, capped⟩ := within
  have single : ∀ f : Frame, f.Capped limits → WithinLimits limits [f] := fun f hf =>
    ⟨Nat.le_max_left _ _, List.forall_mem_singleton.mpr hf⟩
  cases step with
  | kept => exact ⟨depth, capped⟩
  | fresh => exact single _ (capped_empty limits)
  | stored flat =>
    obtain ⟨hf, others⟩ := List.forall_mem_cons.mp capped
    have bounded := Value.bounded_of_flat flat
    obtain ⟨shorter, kept⟩ :=
      (handedDown_settle rfl waiting).capped (capped_some hf.arrayLen bounded) others
    exact ⟨Nat.le_trans shorter depth, kept⟩
  | recordOpened =>
    obtain ⟨hf, others⟩ := List.forall_mem_cons.mp capped
    refine ⟨depth, List.forall_mem_cons.mpr ⟨?_, others⟩⟩
    exact capped_some hf.arrayLen Value.bounded_emptyRecord
  | recordsOpened _ short fits =>
    obtain ⟨hf, others⟩ := List.forall_mem_cons.mp capped
    refine ⟨Nat.le_trans fits (Nat.le_max_right _ _), ?_⟩
    refine List.forall_mem_cons.mpr ⟨capped_emptyRecord limits, ?_⟩
    exact List.forall_mem_cons.mpr ⟨capped_some short Value.bounded_emptyArray, others⟩
  | fieldOpened _ _ fits =>
    obtain ⟨hf, others⟩ := List.forall_mem_cons.mp capped
    refine ⟨Nat.le_trans fits (Nat.le_max_right _ _), ?_⟩
    refine List.forall_mem_cons.mpr ⟨capped_empty limits, ?_⟩
    exact List.forall_mem_cons.mpr ⟨⟨hf.arrayLen, hf.value⟩, others⟩
  | taken =>
    obtain ⟨hf, others⟩ := List.forall_mem_cons.mp capped
    exact ⟨depth, List.forall_mem_cons.mpr ⟨capped_none hf.arrayLen, others⟩⟩
  | unwound outermost =>
    have hf := capped _ (List.mem_of_getLast? outermost)
    exact single _ (capped_none hf.arrayLen)

end Frame

namespace Reader

/-- What every session keeps up. Before anything was started there are no frames to be linked. -/
structure Confined (limits : Limits) (r : Reader) : Prop where
  same : r.limits = limits
  rooted : r.Rooted
  linked : r.frames ≠ [] → Frame.Linked r.frames
  within : Frame.WithinLimits limits r.frames

theorem confined_idle (limits : Limits) : Confined limits { limits := limits } where
  same := rfl
  rooted := rooted_idle limits
  linked bare := absurd rfl bare
  within := ⟨Nat.zero_le _, List.forall_mem_nil _⟩

variable {limits : Limits} {r after : Reader}

theorem Confined.waiting (h : r.Confined limits) : ∀ f ∈ r.frames.tail, f.Waits := by
  have linked := h.linked
  cases hframes : r.frames with
  | nil => exact List.forall_mem_nil _
  | cons inner below =>
    rw [hframes] at linked
    exact (linked (List.cons_ne_nil _ _)).2

theorem Confined.start (h : r.Confined limits) (data : List UInt8) :
    (r.start data).Confined limits where
  same := h.same
  rooted _ := List.cons_ne_nil _ _
  linked _ := Frame.linked_single rfl
  within := ⟨Nat.le_max_left _ _, List.forall_mem_singleton.mpr (Frame.capped_empty limits)⟩

theorem Confined.moved (h : r.Confined limits) (moved : r.Moved after) :
    after.Confined limits := by
  obtain rfl := h.same
  refine ⟨moved.limits, moved.rooted h.rooted, ?_, moved.frames.withinLimits h.waiting h.within⟩
  intro framed
  by_cases bare : r.frames = []
  · have step := moved.frames
    rw [bare] at step
    generalize after.frames = frames at step framed ⊢
    cases step with
    | kept => exact absurd rfl framed
    | fresh => exact Frame.linked_single rfl
    | unwound => exact Frame.linked_single rfl
  · exact moved.frames.linked (h.linked bare)

theorem Confined.perform (h : r.Confined limits) (command : Command) :
    (r.perform command).2.Confined limits := by
  rcases moved_perform h.rooted command with ⟨data, started⟩ | moved
  · exact started ▸ h.start data
  · exact h.moved moved

theorem confined_session (limits : Limits) (commands : List Command) :
    (session { limits := limits } commands).Confined limits :=
  session_induction (fun _ command h => h.perform command) (P := Confined limits)
    (confined_idle limits) commands

/-- What is taken was the value of a frame. -/
theorem mem_of_takeValue {unwind : Bool} {v : Value} (h : (r.takeValue unwind).1 = some v) :
    ∃ f ∈ r.frames, f.value = some v := by
  have innermost : ∀ frames, (Frame.takeValue frames).1 = some v →
      ∃ f ∈ frames, f.value = some v := by
    intro frames taken
    cases frames with
    | nil => cases taken
    | cons f below => exact ⟨f, List.mem_cons_self, taken⟩
  cases unwind with
  | false => exact innermost r.frames h
  | true =>
    obtain ⟨f, hf, holds⟩ := innermost (Frame.unwind r.frames) h
    exact ⟨f, List.mem_of_getLast? (Option.mem_toList.mp hf), holds⟩

/-- In every session, whatever fails in it, the frames are no more than the depth allows, or a
single one; none of them waits for more items than an array may have, and no array that stands
anywhere in their values is longer than that. The same goes for every value that is taken. -/
theorem session_within_limits (limits : Limits) (commands : List Command) :
    let reached := session { limits := limits } commands
    reached.frames.length ≤ max 1 limits.maxDepth.toNat ∧
      (∀ f ∈ reached.frames, f.arrayLen ≤ limits.maxArrayLen ∧
        ∀ v, f.value = some v → v.Bounded limits.maxArrayLen.toNat) ∧
      ∀ unwind v, (reached.takeValue unwind).1 = some v →
        v.Bounded limits.maxArrayLen.toNat := by
  intro reached
  obtain ⟨depth, capped⟩ := (confined_session limits commands).within
  refine ⟨depth, fun f hf => ⟨(capped f hf).arrayLen, (capped f hf).value⟩, ?_⟩
  intro unwind v taken
  obtain ⟨f, hf, holds⟩ := mem_of_takeValue taken
  exact (capped f hf).value v holds

end Reader

end PortWire
