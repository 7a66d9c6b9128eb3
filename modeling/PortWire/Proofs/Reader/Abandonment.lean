import Mathlib.Data.List.Forall2
import PortWire.Proofs.Reader.Courses

/-!
# Abandoned builds

Unwinding drops every frame but the outermost and takes its value, but leaves it the rest of what it
held: the name of a field that was selected in it, or the number of records that it waited for. Two
stacks are alike if they differ in such remains only. A frame that waits is told apart by what it
waits with, a frame on top by its value alone. Every command treats alike stacks alike, so the
remains are never seen again.
-/

namespace PortWire

namespace Frame

/-- Both frames wait for the same part. -/
inductive WaitsAlike (f g : Frame) : Prop
  | field {fields : Fields} {key : String} :
    f.value = some (.record fields) → g.value = some (.record fields) →
    f.key = some key → g.key = some key → f.last = g.last → WaitsAlike f g
  | item {items : List Value} :
    f.value = some (.array items) → g.value = some (.array items) →
    f.arrayLen = g.arrayLen → items.length < f.arrayLen.toNat → WaitsAlike f g

/-- Both frames hold the same value and wait for nothing. -/
structure RestsAlike (f g : Frame) : Prop where
  value : f.value = g.value
  left : f.Settled
  right : g.Settled

/-- The stacks are the same but for names, marks and counts that nothing waits with. -/
inductive Alike : List Frame → List Frame → Prop
  | intro {f g : Frame} {below below' : List Frame} : RestsAlike f g →
    List.Forall₂ WaitsAlike below below' → Alike (f :: below) (g :: below')

theorem WaitsAlike.value {f g : Frame} (h : WaitsAlike f g) : f.value = g.value := by
  cases h with
  | field hf hg _ _ _ => rw [hf, hg]
  | item hf hg _ _ => rw [hf, hg]

variable {f g : Frame} {frames frames' below below' : List Frame}

theorem Alike.length_eq (h : Alike frames frames') : frames.length = frames'.length := by
  obtain ⟨_, waiting⟩ := h
  rw [List.length_cons, List.length_cons, waiting.length_eq]

theorem Alike.ne_nil (h : Alike frames frames') : frames ≠ [] ∧ frames' ≠ [] := by
  obtain ⟨_, _⟩ := h
  exact ⟨List.cons_ne_nil _ _, List.cons_ne_nil _ _⟩

theorem restsAlike_none (hf : f.value = none) (hg : g.value = none) : RestsAlike f g :=
  ⟨hf.trans hg.symm, settled_of_none hf, settled_of_none hg⟩

theorem restsAlike_unnamed (value : f.value = g.value) (hf : f.key = none) (hg : g.key = none) :
    RestsAlike f g :=
  ⟨value, fun _ _ => hf, fun _ _ => hg⟩

/-- A value that is handed down goes the same way in both stacks. -/
theorem alike_settle (rests : RestsAlike f g) {v : Value} (holds : f.value = some v)
    (waiting : List.Forall₂ WaitsAlike below below') :
    Alike (settle f below) (settle g below') := by
  induction waiting generalizing f g v with
  | nil => exact .intro rests .nil
  | @cons parent parent' below below' waits others ih =>
    have holds' : g.value = some v := rests.value ▸ holds
    cases waits with
    | field hvalue hvalue' hkey hkey' hlast =>
      rw [settle_onto_record holds hvalue hkey, settle_onto_record holds' hvalue' hkey', ← hlast]
      by_cases closing : parent.last = true
      · rw [if_pos closing, if_pos closing]
        exact ih (restsAlike_unnamed rfl rfl rfl) rfl
      · rw [if_neg closing, if_neg closing]
        exact .intro (restsAlike_unnamed rfl rfl rfl) others
    | @item items hvalue hvalue' hcount room =>
      have room' : items.length < parent'.arrayLen.toNat := hcount ▸ room
      rw [settle_onto_array holds hvalue room, settle_onto_array holds' hvalue' room', ← hcount]
      by_cases more : items.length + 1 < parent.arrayLen.toNat
      · rw [if_pos more, if_pos more]
        refine .intro (restsAlike_unnamed rfl rfl rfl) (.cons ?_ others)
        exact .item rfl rfl rfl (by rwa [List.length_append])
      · rw [if_neg more, if_neg more]
        exact ih (restsAlike_unnamed rfl rfl rfl) rfl

/-- What an action makes of two stacks: the same fault, or stacks that are alike. -/
inductive AlikeResult : Except ReadError (List Frame) → Except ReadError (List Frame) → Prop
  | fault {e : ReadError} : AlikeResult (.error e) (.error e)
  | done {frames frames' : List Frame} : Alike frames frames' →
    AlikeResult (.ok frames) (.ok frames')

theorem alike_select (alike : Alike frames frames') (key : String) (last : Bool) :
    AlikeResult (select key last frames) (select key last frames') := by
  obtain @⟨f, g, below, below', ⟨value, left, right⟩, waiting⟩ := alike
  simp only [select]
  rw [← value]
  cases hvalue : f.value with
  | none => exact .fault
  | some v =>
    cases v with
    | scalar s => exact .fault
    | array items => exact .fault
    | record fields =>
      rw [left fields hvalue, right fields (value ▸ hvalue)]
      refine .done (.intro (restsAlike_none rfl rfl) (.cons ?_ waiting))
      exact .field rfl rfl rfl rfl rfl

/-- The outermost frames of stacks that are alike hold the same value. -/
theorem Alike.outermost (alike : Alike frames frames') :
    ∃ f g, unwind frames = [f] ∧ unwind frames' = [g] ∧ f.value = g.value := by
  obtain @⟨f, g, below, below', rests, waiting⟩ := alike
  have value := rests.value
  clear rests
  induction waiting generalizing f g with
  | nil => exact ⟨f, g, rfl, rfl, value⟩
  | cons waits _ ih =>
    rw [unwind, unwind, List.getLast?_cons_cons, List.getLast?_cons_cons]
    exact ih waits.value

theorem alike_takeValue (alike : Alike frames frames') (unwinding : Bool) :
    let taken := takeValue (if unwinding then unwind frames else frames)
    let taken' := takeValue (if unwinding then unwind frames' else frames')
    taken.1 = taken'.1 ∧ Alike taken.2 taken'.2 := by
  intro taken taken'
  cases unwinding with
  | false =>
    obtain ⟨rests, waiting⟩ := alike
    exact ⟨rests.value, .intro (restsAlike_none rfl rfl) waiting⟩
  | true =>
    obtain ⟨f, g, hf, hg, value⟩ := alike.outermost
    simp only [taken, taken', if_true, hf, hg]
    exact ⟨value, .intro (restsAlike_none rfl rfl) .nil⟩

namespace Action

variable {limits : Limits} {action : Action}

/-- An action does the same to stacks that are alike, and takes the same out of them. -/
theorem alike_apply (sound : action.Sound limits) (alike : Alike frames frames') :
    action.taken frames = action.taken frames' ∧
      AlikeResult (action.apply frames) (action.apply frames') := by
  cases action with
  | keep => exact ⟨rfl, .done alike⟩
  | reset => exact ⟨rfl, .done (.intro (restsAlike_none rfl rfl) .nil)⟩
  | select key last => exact ⟨rfl, alike_select alike key last⟩
  | take unwinding =>
    obtain ⟨same, after⟩ := alike_takeValue alike unwinding
    exact ⟨same, .done after⟩
  | put v =>
    obtain ⟨_, waiting⟩ := alike
    refine ⟨rfl, .done (alike_settle ⟨rfl, ?_, ?_⟩ rfl waiting)⟩
    · exact settled_of_flat sound
    · exact settled_of_flat sound
  | openRecord =>
    obtain ⟨_, waiting⟩ := alike
    exact ⟨rfl, .done (.intro (restsAlike_unnamed rfl rfl rfl) waiting)⟩
  | openRecords length =>
    obtain ⟨_, waiting⟩ := alike
    have positive : 0 < length.toNat :=
      Nat.pos_of_ne_zero fun zero => sound (UInt32.toNat_inj.mp zero)
    refine ⟨rfl, .done (.intro (restsAlike_unnamed rfl rfl rfl) (.cons ?_ waiting))⟩
    exact .item rfl rfl rfl positive

end Action

end Frame

namespace Reader

/-- What is seen of one command. -/
structure Observation where
  result : Except ReadError Answer
  source : Source
  depth : Nat

/-- What is seen of a session, command by command. -/
def transcript (r : Reader) : List Command → List Observation
  | [] => []
  | command :: rest =>
    let (result, after) := r.perform command
    ⟨result, after.source, after.frames.length⟩ :: transcript after rest

/-- The readers differ in nothing but remains of old builds. -/
structure Alike (r s : Reader) : Prop where
  limits : r.limits = s.limits
  source : r.source = s.source
  frames : Frame.Alike r.frames s.frames

/-- A command gives readers that are alike the same result and leaves them alike. -/
theorem Alike.perform {r s : Reader} (alike : r.Alike s) (command : Command) :
    (r.perform command).1 = (s.perform command).1 ∧
      (r.perform command).2.Alike (s.perform command).2 := by
  obtain ⟨limits, source, frames⟩ := r
  obtain ⟨_, _, frames'⟩ := s
  obtain ⟨rfl, rfl, halike⟩ := alike
  obtain ⟨course, suits, takes⟩ := exists_course limits source frames.length command
  rw [takes frames halike.ne_nil.1 rfl, takes frames' halike.ne_nil.2 halike.length_eq.symm]
  cases course with
  | refused e => exact ⟨rfl, rfl, rfl, halike⟩
  | abandoned e => exact ⟨rfl, rfl, rfl, .intro (Frame.restsAlike_none rfl rfl) .nil⟩
  | comes further action answer =>
    obtain ⟨same, after⟩ := Frame.Action.alike_apply suits.1 halike
    simp only [Course.outcome, same]
    generalize action.apply frames = result, action.apply frames' = result' at after
    cases after with
    | fault => exact ⟨rfl, rfl, rfl, halike⟩
    | done left => exact ⟨rfl, rfl, rfl, left⟩

theorem Alike.transcript_eq {r s : Reader} (alike : r.Alike s) (commands : List Command) :
    r.transcript commands = s.transcript commands := by
  induction commands generalizing r s with
  | nil => rfl
  | cons command rest ih =>
    obtain ⟨same, after⟩ := alike.perform command
    simp only [transcript, same, after.source, after.frames.length_eq, ih after]

/-- Unwinding a started reader leaves one frame without a value, alike to a fresh one. -/
theorem alike_unwound {r : Reader} (framed : r.frames ≠ []) :
    (r.takeValue true).2.Alike { r with frames := [{}] } := by
  refine ⟨rfl, rfl, ?_⟩
  simp only [takeValue, if_true, Frame.unwind_eq framed, Frame.takeValue]
  exact .intro (Frame.restsAlike_none rfl rfl) .nil

/-- An abandoned build leaves no trace. After any session on a reader that was started, whatever it
left open, unwinding makes the reader answer to all further commands as one with the same source and
limits and a single fresh frame: with the same results, and the same source and depth after each. -/
theorem session_forgets_abandoned (r : Reader) (data : List UInt8) (commands later : List Command) :
    let reached := (r.start data).session commands
    (reached.takeValue true).2.transcript later =
      { reached with frames := [{}] : Reader }.transcript later := by
  intro reached
  have linked : Frame.Linked reached.frames := linked_session r data commands
  exact (alike_unwound linked.ne_nil).transcript_eq later

/-- The remains are there: a frame without a value keeps a name, its mark and a count. -/
example : (((({} : Reader).start []).session [.enterRecord 2 none, .takeValue true,
    .enterRecord 0 none, .select "old" true]).takeValue true).2.frames =
      [{ key := some "old", last := true, arrayLen := 2 }] := rfl

end Reader

end PortWire
