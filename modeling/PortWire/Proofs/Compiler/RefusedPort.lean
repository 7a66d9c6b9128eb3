import PortWire.Proofs.Compiler.Appending

/-!
# Refused ports

A port that is refused leaves all buffers as they are, but not always the size counted so far. If
the port and its buffer are there, the count starts anew before the element is looked at, and a
refusal of the element does not bring the old count back: the elements that are compiled afterwards
are counted from zero. An index without a port is noticed before, and then the count is kept.
-/

namespace PortWire

theorem DataElement.refusal?_of_program {type : ProgramType} {e : DataElement} {err : CompileError}
    (refused : e.program type = .error err) : e.refusal? 0 = some err := by
  rw [program_eq] at refused
  cases hcompile : e.compile type.elementOpcode with
  | error err' =>
    rw [hcompile] at refused
    cases refused
    exact refusal?_of_compile_error hcompile 0
  | ok result =>
    obtain ⟨x, size⟩ := result
    obtain ⟨_, rfl⟩ := standsFor_of_compile hcompile
    rw [hcompile] at refused
    rw [refusal?_of_compile_ok hcompile, Nat.zero_add]
    by_cases fits : e.dataSize < UInt32.size
    · simp only [if_pos fits] at refused
      cases refused
    · simp only [if_neg fits] at refused
      cases refused
      rw [if_neg fits]

namespace Compiler

/-- The port and the buffer are there, and a program for the port is begun. -/
def Opens (c : Compiler) (node : Node) (index i : Nat) (type : ProgramType) : Prop :=
  index < (node.portsOf type).length ∧ i < c.programs.length

variable {c next : Compiler} {node : Node} {index i : Nat} {type : ProgramType}
  {err : CompileError}

/-- What a refused port command makes of the compiler. -/
theorem port_refused (refused : c.perform (.port node index i type) = (.error err, next)) :
    ¬ c.Opens node index i type ∧ next = c.attach i ∨
      c.Opens node index i type ∧ next = (c.attach i).reset ∧
        ∃ port, (node.portsOf type)[index]? = some port ∧
          port.element.refusal? 0 = some err := by
  rw [perform_port] at refused
  cases hport : (node.portsOf type)[index]? with
  | none =>
    rw [hport] at refused
    cases refused
    have absent : (node.portsOf type).length ≤ index := List.getElem?_eq_none_iff.mp hport
    exact Or.inl ⟨fun opens => by have := opens.1; omega, rfl⟩
  | some port =>
    obtain ⟨listed, _⟩ := List.getElem?_eq_some_iff.mp hport
    cases hp : c.programs[i]? with
    | none =>
      simp only [hport, hp] at refused
      cases refused
      have absent : c.programs.length ≤ i := List.getElem?_eq_none_iff.mp hp
      exact Or.inl ⟨fun opens => by have := opens.2; omega, rfl⟩
    | some p =>
      obtain ⟨present, _⟩ := List.getElem?_eq_some_iff.mp hp
      cases hprogram : port.element.program type with
      | ok image =>
        simp only [hport, hp, hprogram] at refused
        cases refused
      | error err' =>
        simp only [hport, hp, hprogram] at refused
        cases refused
        exact Or.inr ⟨⟨listed, present⟩, rfl, port, rfl,
          DataElement.refusal?_of_program hprogram⟩

/-- Elements that are compiled into an attached buffer are counted on top of what is counted. -/
theorem counted_session (attached : i < c.programs.length) (target : c.target = some i)
    (calls : List ElementCall) :
    (c.session (calls.map ElementCall.command)).minDataSize.toNat =
      c.minDataSize.toNat + ElementCall.totalSize (c.accepted calls) := by
  have hattached : c.attached? = some c.programs[i] := by
    simp only [attached?, target, Option.bind_some, List.getElem?_eq_getElem attached]
  obtain ⟨_, _, _, counted⟩ := session_accepted hattached calls
  exact counted

/-- A refused port leaves every buffer as it was. The size counted so far is lost whenever the port
program was begun: then it is zero, and the elements that are compiled next are counted from there.
The port is refused just as its element is on its own, by its type, its length or its size. -/
theorem refused_port (refused : c.perform (.port node index i type) = (.error err, next)) :
    next.programs = c.programs ∧ next.target = some i ∧
      (next.minDataSize = c.minDataSize ↔
        ¬ c.Opens node index i type ∨ c.minDataSize = 0) ∧
      (c.Opens node index i type → next.minDataSize = 0 ∧
        (∃ port, (node.portsOf type)[index]? = some port ∧ port.element.refusal? 0 = some err) ∧
        ∀ calls : List ElementCall,
          (next.session (calls.map ElementCall.command)).minDataSize.toNat =
            ElementCall.totalSize (next.accepted calls)) := by
  rcases port_refused refused with ⟨unopened, rfl⟩ | ⟨opens, rfl, element⟩
  · refine ⟨rfl, rfl, ?_, fun opens => absurd opens unopened⟩
    exact ⟨fun _ => Or.inl unopened, fun _ => rfl⟩
  · refine ⟨rfl, rfl, ?_, fun _ => ⟨rfl, element, ?_⟩⟩
    · constructor
      · intro kept
        exact Or.inr kept.symm
      · rintro (unopened | zero)
        · exact absurd opens unopened
        · exact zero.symm
    · intro calls
      rw [counted_session (c := (c.attach i).reset) opens.2 rfl calls]
      exact Nat.zero_add _

/-- A word is counted in the first buffer when the port of a record is refused for the second. -/
def counted : Compiler :=
  session { programs := [⟨[0xAA]⟩, .empty] } [.attach 0, .element .pack (.scalar .u64)]

/-- A node whose only port cannot be compiled. -/
def brokenNode : Node :=
  { name := "TestNode", providePorts := [⟨"Broken", .scalar .record⟩] }

/-- The word that is compiled next is all that is counted. -/
theorem refused_port_restarts_count :
    ∃ next, counted.perform (.port brokenNode 0 1 .pack) = (.error (.elementType .record), next) ∧
      next.programs = [⟨[0xAA, 0x19]⟩, .empty] ∧
      counted.minDataSize = 8 ∧ next.minDataSize = 0 ∧
      (next.session [.element .pack (.scalar .u16)]).minDataSize.toNat = 2 := by
  have refused : counted.perform (.port brokenNode 0 1 .pack) =
      (.error (.elementType .record), (counted.attach 1).reset) := rfl
  obtain ⟨buffers, _, _, begun⟩ := refused_port refused
  obtain ⟨zero, _, restarted⟩ := begun ⟨by decide, by decide⟩
  exact ⟨_, refused, buffers.trans (by decide), by decide, zero,
    restarted [⟨.pack, .scalar .u16⟩]⟩

/-- The count is not always as it was before the refused port. -/
theorem refused_port_loses_count :
    ¬ ∀ (programs : List Program) (commands : List Command) (node : Node) (index i : Nat)
        (type : ProgramType) (err : CompileError) (next : Compiler),
      (session { programs := programs } commands).perform (.port node index i type) =
          (.error err, next) →
        next.minDataSize = (session { programs := programs } commands).minDataSize := by
  intro kept
  have same : (0 : UInt32) = counted.minDataSize :=
    kept [⟨[0xAA]⟩, .empty] [.attach 0, .element .pack (.scalar .u64)] brokenNode 0 1 .pack
      (.elementType .record) (counted.perform (.providePort brokenNode 0 1)).2 rfl
  have held : counted.minDataSize = 8 := by decide
  rw [held] at same
  exact absurd same (by decide)

end Compiler

end PortWire
