import PortWire.Proofs.Program.Encoding
import PortWire.Proofs.Reader.Steps

/-!
# Failing commands

A command that fails leaves the reader as it was, with its position and all its frames. A program is
the exception: when it fails the position goes back, but if it had come to its first element the
frames are gone, and with them a value that was under construction. Both hold of every reader that a
session can reach, also before anything was started.
-/

namespace PortWire.Reader

/-- Before anything was started there is neither a buffer nor a frame. -/
theorem rooted_idle (limits : Limits) : Rooted { limits := limits } := by
  intro begun
  cases begun

theorem rooted_session (limits : Limits) (commands : List Command) :
    (session { limits := limits } commands).Rooted :=
  session_induction (fun _ command rooted => rooted_perform rooted command) (P := Rooted)
    (rooted_idle limits) commands

theorem within_perform {r : Reader} (h : r.Rooted ∧ r.source.Within) (command : Command) :
    (r.perform command).2.Rooted ∧ (r.perform command).2.source.Within := by
  refine ⟨rooted_perform h.1 command, ?_⟩
  rcases moved_perform h.1 command with ⟨data, started⟩ | moved
  · rw [started]
    exact Nat.zero_le _
  · exact moved.source.within h.2

theorem within_session (limits : Limits) (commands : List Command) :
    (session { limits := limits } commands).source.Within :=
  (session_induction (fun _ command h => within_perform h command)
    (P := fun r => r.Rooted ∧ r.source.Within) ⟨rooted_idle limits, Nat.le_refl _⟩ commands).2

/-- In every session the position stays in the buffer, and a command that fails leaves the source as
it was. If it is not a program it leaves the whole reader as it was. -/
theorem session_failure (limits : Limits) (commands : List Command) :
    let reached := session { limits := limits } commands
    reached.source.pos ≤ (reached.source.buffer.getD []).length ∧
      ∀ command e after, reached.perform command = (.error e, after) →
        after.source = reached.source ∧ ((∀ image, command ≠ .run image) → after = reached) := by
  intro reached
  refine ⟨within_session limits commands, ?_⟩
  intro command e after h
  have result := performed (rooted_session limits commands) command
  rw [h] at result
  cases result with
  | refused => exact ⟨rfl, fun _ => rfl⟩
  | abandoned => exact ⟨rfl, fun noRun => absurd rfl (noRun _)⟩

/-- The length that comes with the data is longer than the text may be. It was read, and it is still
to be read after the failure. -/
theorem session_failure_text :
    let reached := session {} [.start [7, 5, 0x61], .enterRecord 0 none, .select "id" false,
      .field (.primitive .u8) 0 none, .select "name" true]
    ∃ after, reached.perform (.field .str 4 (some .u8)) = (.error (.tooLong 5 4), after) ∧
      reached.source.pos = 1 ∧ after.source = reached.source ∧ after = reached := by
  have unchanged := (session_failure {} [.start [7, 5, 0x61], .enterRecord 0 none,
    .select "id" false, .field (.primitive .u8) 0 none, .select "name" true]).2
    (.field .str 4 (some .u8)) (.tooLong 5 4) _ rfl
  refine ⟨_, rfl, rfl, unchanged.1, unchanged.2 ?_⟩
  intro image h
  cases h

/-- A program that fails puts the position back. The frames are as they were if it was refused
before its first element; otherwise a single empty frame is left in their place. -/
theorem failed_run {r after : Reader} {image : List UInt8} {e : ReadError}
    (h : r.run image = (.error e, after)) :
    after.source = r.source ∧ after.limits = r.limits ∧
      (¬ r.Begins image ∧ after.frames = r.frames ∨
        r.Begins image ∧ after.frames = [{}]) := by
  have effect := runEffect_run r image
  rw [h] at effect
  cases effect with
  | refused _ refused => exact ⟨rfl, rfl, Or.inl ⟨refused, rfl⟩⟩
  | abandoned _ begins => exact ⟨rfl, rfl, Or.inr ⟨begins, rfl⟩⟩

/-- A record that has its first field, with one byte of data left. -/
def halfRecord : Reader :=
  session {} [.start [7, 1], .enterRecord 0 none, .select "speed" false,
    .field (.primitive .u8) 0 none]

/-- The only element of the program is a word of two bytes. -/
theorem run_halfRecord :
    halfRecord.run [1, 0, 0, 0, 0, 0, 0, 8] =
      (.error (.pastEnd 2 1), ⟨{}, ⟨some [7, 1], 1⟩, [{}]⟩) := by
  have proper : Element.Proper ⟨.unpack, .u16, none⟩ := by
    refine ⟨by decide, ?_⟩
    intro a ha
    cases ha
  have decoded : DecodedProgram.decode [1, 0, 0, 0, 0, 0, 0, 8] =
      .ok ⟨Header.placeholder .unpack, [⟨⟨.unpack, .u16, none⟩, 7⟩]⟩ :=
    DecodedProgram.decode_single (h := Header.placeholder .unpack) rfl proper
  rw [run_single rfl decoded]
  rfl

theorem failed_run_halfRecord :
    ∃ after, halfRecord.run [1, 0, 0, 0, 0, 0, 0, 8] = (.error (.pastEnd 2 1), after) ∧
      after.source = halfRecord.source ∧ after.limits = halfRecord.limits ∧
      (¬ halfRecord.Begins [1, 0, 0, 0, 0, 0, 0, 8] ∧ after.frames = halfRecord.frames ∨
        halfRecord.Begins [1, 0, 0, 0, 0, 0, 0, 8] ∧ after.frames = [{}]) :=
  ⟨_, run_halfRecord, failed_run run_halfRecord⟩

/-- The frames are not always as they were: the record is lost with its field. -/
theorem failed_run_loses_record :
    ¬ ∀ (limits : Limits) (commands : List Command) (image : List UInt8) (e : ReadError)
        (after : Reader),
      (session { limits := limits } commands).run image = (.error e, after) →
        after.source = (session { limits := limits } commands).source ∧
          after.frames = (session { limits := limits } commands).frames := by
  intro kept
  have lost : [{}] = halfRecord.frames := (kept {} _ _ _ _ run_halfRecord).2
  have held : halfRecord.frames =
      [{ value := some (.record [("speed", .scalar (.u32 7))]) }] := rfl
  rw [held] at lost
  cases lost

end PortWire.Reader
