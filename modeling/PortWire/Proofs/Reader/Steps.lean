import PortWire.Proofs.Reader.Progress
import PortWire.Reader.Session

/-!
# What a command does to a reader

Every command fails, or does one thing to the frames while the source moves on in its buffer. What
holds of a reader through a whole session is derived from this and does not look at the operations
again. The one assumption on a reader is that it has a frame once it has a buffer; sessions keep it
up by themselves.
-/

namespace PortWire

/-- What a command can do to the frames of a reader. -/
inductive Frame.Step (limits : Limits) : List Frame → List Frame → Prop
  | kept {frames : List Frame} : Step limits frames frames
  | fresh {frames : List Frame} : Step limits frames [{}]
  | stored {f : Frame} {below : List Frame} {v : Value} : v.Flat limits →
    Step limits (f :: below) (settle { f with value := some v } below)
  | recordOpened {f : Frame} {below : List Frame} :
    Step limits (f :: below)
      ({ f with value := some .emptyRecord, key := none, last := false } :: below)
  | recordsOpened {f : Frame} {below : List Frame} {n : UInt32} : n ≠ 0 →
    n ≤ limits.maxArrayLen → below.length + 2 ≤ limits.maxDepth.toNat →
      Step limits (f :: below)
        (emptyRecord :: { f with value := some (.array []), arrayLen := n } :: below)
  | fieldOpened {f : Frame} {below : List Frame} {fields : Fields} {key : String} {last : Bool} :
    f.value = some (.record fields) → f.key = none →
      below.length + 2 ≤ limits.maxDepth.toNat →
        Step limits (f :: below) ({} :: { f with key := some key, last := last } :: below)
  | taken {f : Frame} {below : List Frame} :
    Step limits (f :: below) ({ f with value := none } :: below)
  | unwound {frames : List Frame} {f : Frame} : frames.getLast? = some f →
    Step limits frames [{ f with value := none }]

theorem Frame.settle_ne_nil (child : Frame) (below : List Frame) : settle child below ≠ [] := by
  fun_induction settle child below <;> simp_all

theorem Frame.Step.ne_nil {limits : Limits} {frames after : List Frame}
    (step : Frame.Step limits frames after) (rooted : frames ≠ []) : after ≠ [] := by
  cases step with
  | kept => exact rooted
  | stored => exact settle_ne_nil _ _
  | fresh | recordOpened | recordsOpened | fieldOpened | taken | unwound =>
    exact List.cons_ne_nil _ _

namespace Reader

/-- A reader that has a buffer has a frame. -/
def Rooted (r : Reader) : Prop :=
  r.source.buffer.isSome → r.frames ≠ []

theorem Rooted.exists_frame {r : Reader} {data : List UInt8} (rooted : r.Rooted)
    (begun : r.source.buffer = some data) : ∃ inner below, r.frames = inner :: below := by
  apply List.exists_cons_of_ne_nil
  apply rooted
  rw [begun]
  rfl

/-- Why a command may be refused. With faults of the open frames the frames are to blame. -/
inductive Refusal (r : Reader) : ReadError → Prop
  | noFrames {e : ReadError} : ¬ e.OfFrames → Refusal r e
  | outside : Refusal r (.state .outsideRecord)
  | unfilled {inner : Frame} {below : List Frame} {fields : Fields} {key : String} :
    r.frames = inner :: below → inner.value = some (.record fields) → inner.key = some key →
      Refusal r (.state .unfilledField)

/-- A reader and what a command that succeeds makes of it. -/
structure Moved (r after : Reader) : Prop where
  limits : after.limits = r.limits
  source : r.source.Ahead after.source
  frames : Frame.Step r.limits r.frames after.frames

/-- An operation leaves the reader as it was or does its work. -/
inductive Effect {α : Type} (r : Reader) : Except ReadError α × Reader → Prop
  | refused {e : ReadError} : r.Refusal e → Effect r (.error e, r)
  | done {a : α} {after : Reader} : r.Moved after → Effect r (.ok a, after)

variable {α : Type} {r : Reader}

theorem effect_take {step : Take α} (orderly : step.Orderly) (r : Reader) :
    r.Effect (r.take step) := by
  rw [take]
  cases h : step r.source with
  | error e => exact .refused (.noFrames (orderly.fault h))
  | ok found => exact .done ⟨rfl, orderly.ahead h, .kept⟩

theorem readField_of_read {inner : Frame} {below : List Frame} (opened : r.frames = inner :: below)
    {type : FieldType} {count : UInt32} {carried : Option LengthWidth} {v : Value} {source : Source}
    (h : type.read r.limits count carried r.source = .ok (v, source)) :
    r.readField type count carried =
      (.ok (), ⟨r.limits, source, Frame.settle { inner with value := some v } below⟩) := by
  simp only [readField, take, h, store, onFrames, opened, Frame.store]

/-- A field that is read is put into the innermost frame, which is there. -/
theorem readField_eq_ok (rooted : r.Rooted) {type : FieldType} {count : UInt32}
    {carried : Option LengthWidth} {v : Value} {source : Source}
    (h : type.read r.limits count carried r.source = .ok (v, source)) :
    ∃ inner below, r.frames = inner :: below ∧
      r.readField type count carried =
        (.ok (), ⟨r.limits, source, Frame.settle { inner with value := some v } below⟩) := by
  obtain ⟨data, begun⟩ := Option.isSome_iff_exists.mp (FieldType.begun_of_read h)
  obtain ⟨inner, below, hframes⟩ := rooted.exists_frame begun
  exact ⟨inner, below, hframes, readField_of_read hframes h⟩

theorem effect_readField (rooted : r.Rooted) (type : FieldType) (count : UInt32)
    (carried : Option LengthWidth) : r.Effect (r.readField type count carried) := by
  cases h : type.read r.limits count carried r.source with
  | error e =>
    simp only [readField, take, h]
    exact .refused (.noFrames (FieldType.orderly_read.fault h))
  | ok found =>
    obtain ⟨v, source⟩ := found
    obtain ⟨inner, below, hframes, hread⟩ := readField_eq_ok rooted h
    rw [hread]
    refine .done ⟨rfl, FieldType.orderly_read.ahead h, ?_⟩
    rw [hframes]
    exact .stored (FieldType.flat_of_read h)

theorem effect_enterRecord (rooted : r.Rooted) (count : UInt32) (carried : Option LengthWidth) :
    r.Effect (r.enterRecord count carried) := by
  rw [enterRecord]
  cases begun : r.source.buffer with
  | none => exact .refused (.noFrames not_false)
  | some data =>
    obtain ⟨inner, below, hframes⟩ := rooted.exists_frame begun
    simp only
    split
    · simp only [onFrames, hframes, Frame.openRecord]
      refine .done ⟨rfl, .refl _, ?_⟩
      rw [hframes]
      exact .recordOpened
    · simp only [Limits.checkDepth, hframes, List.length_cons]
      by_cases fits : below.length + 1 + 1 ≤ r.limits.maxDepth.toNat
      · rw [if_pos fits]
        simp only [take]
        cases hlength : Take.arrayLength r.limits count carried r.source with
        | error e =>
          exact .refused (.noFrames ((Take.orderly_arrayLength _ _ _).fault hlength))
        | ok found =>
          obtain ⟨n, source⟩ := found
          have ahead := (Take.orderly_arrayLength _ _ _).ahead hlength
          -- An array of no records is a finished value, and no record is opened.
          by_cases empty : n = 0
          · simp only [if_pos empty, store, onFrames, hframes, Frame.store]
            refine .done ⟨rfl, ahead, ?_⟩
            rw [hframes]
            refine .stored (.array (Nat.zero_le _) ?_)
            intro v hv
            cases hv
          · simp only [if_neg empty, onFrames, hframes, Frame.openRecords]
            refine .done ⟨rfl, ahead, ?_⟩
            rw [hframes]
            exact .recordsOpened empty (Take.arrayLength_le hlength) fits
      · rw [if_neg fits]
        exact .refused (.noFrames not_false)

theorem effect_select (rooted : r.Rooted) (key : String) (last : Bool) :
    r.Effect (r.select key last) := by
  rw [select]
  cases begun : r.source.buffer with
  | none => exact .refused (.noFrames not_false)
  | some data =>
    obtain ⟨inner, below, hframes⟩ := rooted.exists_frame begun
    simp only [Limits.checkDepth, hframes, List.length_cons]
    by_cases fits : below.length + 1 + 1 ≤ r.limits.maxDepth.toNat
    · simp only [if_pos fits, onFrames, hframes, Frame.select]
      cases hvalue : inner.value with
      | none => exact .refused .outside
      | some v =>
        cases v with
        | scalar s => exact .refused .outside
        | array items => exact .refused .outside
        | record fields =>
          cases hkey : inner.key with
          | some pending => exact .refused (.unfilled hframes hvalue hkey)
          | none =>
            refine .done ⟨rfl, .refl _, ?_⟩
            rw [hframes, ← hvalue]
            exact .fieldOpened hvalue hkey fits
    · rw [if_neg fits]
      exact .refused (.noFrames not_false)

theorem moved_takeValue (r : Reader) (unwind : Bool) : r.Moved (r.takeValue unwind).2 := by
  refine ⟨rfl, .refl _, ?_⟩
  cases unwind with
  | false =>
    simp only [takeValue, Bool.false_eq_true, if_false]
    cases r.frames with
    | nil => exact .kept
    | cons inner below => exact .taken
  | true =>
    simp only [takeValue, if_true, Frame.unwind]
    cases hroot : r.frames.getLast? with
    | none =>
      rw [List.getLast?_eq_none_iff.mp hroot]
      exact .kept
    | some root => exact .unwound hroot

/-- The program is known and there is an element to read and data for it, by what its header says.
-/
def Begins (r : Reader) (image : List UInt8) : Prop :=
  r.source.buffer.isSome ∧ ∃ program, DecodedProgram.decode image = .ok program ∧
    program.elements ≠ [] ∧ program.header.dataSize.toNat ≤ r.source.remaining

/-- What comes of the elements of a program. Each of them is read into a fresh frame. -/
inductive Ran (r : Reader) : Except ReadError α × Reader → Prop
  | idle {a : α} : Ran r (.ok a, r)
  | finished {a : α} {source : Source} : r.source.Ahead source →
    Ran r (.ok a, { r with source := source, frames := [{}] })
  | stopped {e : ReadError} {source : Source} : ¬ e.OfFrames →
    Ran r (.error e, { r with source := source, frames := [{}] })

theorem ran_readElement (e : Element) (r : Reader) : r.Ran (r.readElement e) := by
  rw [readElement_eq]
  cases e.variant.fieldType? with
  | none => exact .stopped not_false
  | some type =>
    simp only
    cases h : type.read r.limits (executedCount (extent e).1 type) (extent e).2 r.source with
    | error err => exact .stopped (FieldType.orderly_read.fault h)
    | ok found => exact .finished (FieldType.orderly_read.ahead h)

theorem ran_readElements (found : List Value) (elements : List LocatedElement) (r : Reader) :
    r.Ran (readElements found elements r) := by
  induction elements generalizing found r with
  | nil => exact .idle
  | cons e rest ih =>
    rw [readElements]
    have first := r.ran_readElement e.toElement
    generalize r.readElement e.toElement = result at first ⊢
    cases first with
    | stopped noFrames => exact .stopped noFrames
    | @idle v => exact ih (v :: found) r
    | @finished v source ahead =>
      have others := ih (v :: found) { r with source := source, frames := [{}] }
      simp only
      generalize readElements (v :: found) rest _ = result at others ⊢
      cases others with
      | idle => exact .finished ahead
      | finished further => exact .finished (ahead.trans further)
      | stopped noFrames => exact .stopped noFrames

/-- A program is refused before its first element, or it fails at an element and takes the frames
with it, or it does its work. -/
inductive RunEffect (r : Reader) (image : List UInt8) : Except ReadError Value × Reader → Prop
  | refused {e : ReadError} : ¬ e.OfFrames → ¬ r.Begins image →
    RunEffect r image (.error e, r)
  | abandoned {e : ReadError} : ¬ e.OfFrames → r.Begins image →
    RunEffect r image (.error e, { r with frames := [{}] })
  | done {v : Value} {after : Reader} : r.Moved after → RunEffect r image (.ok v, after)

theorem runEffect_run (r : Reader) (image : List UInt8) : r.RunEffect image (r.run image) := by
  rw [run]
  cases begun : r.source.buffer with
  | none =>
    refine .refused not_false ?_
    rintro ⟨buffered, _⟩
    rw [begun] at buffered
    cases buffered
  | some data =>
    cases decoded : DecodedProgram.decode image with
    | error fault =>
      refine .refused not_false ?_
      rintro ⟨_, program, known, _⟩
      rw [decoded] at known
      cases known
    | ok program =>
      simp only
      by_cases short : r.source.remaining < program.header.dataSize.toNat
      · rw [if_pos short]
        refine .refused not_false ?_
        rintro ⟨_, other, known, _, enough⟩
        rw [decoded] at known
        cases known
        omega
      · rw [if_neg short]
        have ran := ran_readElements [] program.elements r
        cases helements : program.elements with
        | nil => exact .done ⟨rfl, .refl _, .kept⟩
        | cons e rest =>
          rw [helements] at ran
          have begins : r.Begins image := by
            refine ⟨by rw [begun]; rfl, program, decoded, ?_, by omega⟩
            rw [helements]
            exact List.cons_ne_nil _ _
          generalize readElements [] (e :: rest) r = result at ran ⊢
          cases ran with
          | idle => exact .done ⟨rfl, .refl _, .kept⟩
          | finished ahead => exact .done ⟨rfl, ahead, .fresh⟩
          | stopped noFrames => exact .abandoned noFrames begins

/-- What comes of a command on a rooted reader. -/
inductive Performed (r : Reader) : Command → Except ReadError Answer × Reader → Prop
  | started {data : List UInt8} : Performed r (.start data) (.ok .done, r.start data)
  | refused {command : Command} {e : ReadError} : r.Refusal e →
    Performed r command (.error e, r)
  | abandoned {image : List UInt8} {e : ReadError} : ¬ e.OfFrames →
    Performed r (.run image) (.error e, { r with frames := [{}] })
  | done {command : Command} {answer : Answer} {after : Reader} : r.Moved after →
    Performed r command (.ok answer, after)

theorem Effect.performed {op : ReaderOp α} (h : r.Effect (op r)) (answer : α → Answer)
    (command : Command) : r.Performed command (answering answer op r) := by
  rw [answering]
  generalize op r = result at h ⊢
  cases h with
  | refused reason => exact .refused reason
  | done moved => exact .done moved

theorem RunEffect.performed {image : List UInt8} (h : r.RunEffect image (r.run image)) :
    r.Performed (.run image) (answering .value (run image) r) := by
  rw [answering]
  generalize r.run image = result at h ⊢
  cases h with
  | refused noFrames => exact .refused (.noFrames noFrames)
  | abandoned noFrames => exact .abandoned noFrames
  | done moved => exact .done moved

theorem performed (rooted : r.Rooted) (command : Command) :
    r.Performed command (r.perform command) := by
  cases command with
  | start data => exact .started
  | primitive p => exact (effect_take (Take.orderly_primitive p) r).performed _ _
  | text size =>
    have orderly := (Take.orderly_bytes size.toNat).bind fun field =>
      Take.orderly_pure (FixedText.ofField field)
    exact (effect_take orderly r).performed _ _
  | bytes size => exact (effect_take (Take.orderly_bytes size.toNat) r).performed _ _
  | field type count carried => exact (effect_readField rooted type count carried).performed _ _
  | enterRecord count carried => exact (effect_enterRecord rooted count carried).performed _ _
  | select key last => exact (effect_select rooted key last).performed _ _
  | takeValue unwind => exact .done (moved_takeValue r unwind)
  | run image => exact (runEffect_run r image).performed

/-- A command starts anew or moves the reader. -/
theorem moved_perform (rooted : r.Rooted) (command : Command) :
    (∃ data, (r.perform command).2 = r.start data) ∨ r.Moved (r.perform command).2 := by
  have h := performed rooted command
  generalize r.perform command = result at h ⊢
  cases h with
  | @started data => exact Or.inl ⟨data, rfl⟩
  | refused => exact Or.inr ⟨rfl, .refl _, .kept⟩
  | abandoned => exact Or.inr ⟨rfl, .refl _, .fresh⟩
  | done moved => exact Or.inr moved

theorem Moved.rooted {after : Reader} (moved : r.Moved after) (rooted : r.Rooted) :
    after.Rooted := by
  intro begun
  rw [moved.source.buffer] at begun
  exact moved.frames.ne_nil (rooted begun)

theorem rooted_perform (rooted : r.Rooted) (command : Command) :
    (r.perform command).2.Rooted := by
  rcases moved_perform rooted command with ⟨data, started⟩ | moved
  · rw [started]
    intro _
    exact List.cons_ne_nil _ _
  · exact moved.rooted rooted

/-- What every command keeps holds at the end of a session. -/
theorem session_induction {P : Reader → Prop}
    (step : ∀ r command, P r → P (r.perform command).2) {r : Reader} (h : P r)
    (commands : List Command) : P (r.session commands) := by
  induction commands generalizing r with
  | nil => exact h
  | cons command rest ih => exact ih (step r command h)

end Reader

end PortWire
