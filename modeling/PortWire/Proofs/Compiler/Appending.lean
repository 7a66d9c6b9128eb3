import PortWire.Proofs.Compiler.ElementRun

/-!
# Compilers only append

Whatever a compiler is asked for, in any order and over any number of buffers, the bytes that a
buffer has stay where they are. A command that is refused touches no buffer; one that succeeds can
lengthen the attached one. A port compile appends what a compile of the port's element on its own
gives: neither the buffer nor the size counted before has a part in it.
-/

namespace PortWire

/-- The ports of a direction: those that are provided are packed, those that are required are
unpacked. -/
def Node.portsOf (node : Node) : ProgramType → List Port
  | .pack => node.providePorts
  | .unpack => node.requirePorts

namespace DataElement

variable {type : ProgramType} {e : DataElement} {image : Program}

/-- The image of an element reads as one element behind a header that has its least size. -/
theorem decode_program (compiled : e.program type = .ok image) :
    ∃ x, e.StandsFor type.elementOpcode x ∧
      DecodedProgram.decode image.code =
        .ok ⟨⟨1, type, UInt32.ofNat e.dataSize⟩, [⟨x, 7⟩]⟩ := by
  obtain ⟨variant, hvariant, hwidth, _, hcode⟩ := program_eq_ok compiled
  refine ⟨_, standsFor_compiled hvariant hwidth type.elementOpcode, ?_⟩
  rw [hcode]
  exact decode_image type e variant e.dataSize

end DataElement

namespace Compiler

/-- The command that compiles a port of the given direction. -/
def Command.port (node : Node) (index i : Nat) : ProgramType → Command
  | .pack => .providePort node index i
  | .unpack => .requirePort node index i

/-- The buffers once `bytes` are at the end of number `target`. -/
def appendTo (target : Option Nat) (bytes : List UInt8) (programs : List Program) : List Program :=
  match target with
  | none => programs
  | some i => programs.modify i fun p => p.append bytes

theorem appendTo_nil (target : Option Nat) (programs : List Program) :
    appendTo target [] programs = programs := by
  cases target with
  | none => rfl
  | some i =>
    have same : (fun p : Program => p.append []) = id := funext Program.append_nil
    rw [appendTo, same, List.modify_id]

theorem getElem?_appendTo {target : Option Nat} {bytes : List UInt8} {programs : List Program}
    {i : Nat} {p : Program} (h : programs[i]? = some p) :
    ∃ added, (appendTo target bytes programs)[i]? = some (p.append added) := by
  cases target with
  | none => exact ⟨[], by rw [Program.append_nil]; exact h⟩
  | some j =>
    by_cases same : j = i
    · exact ⟨bytes, by simp [appendTo, same, h]⟩
    · exact ⟨[], by simp [appendTo, same, h]⟩

theorem set_eq_appendTo {programs : List Program} {i : Nat} {p : Program}
    (h : programs[i]? = some p) (bytes : List UInt8) :
    programs.set i (p.append bytes) = appendTo (some i) bytes programs := by
  rw [appendTo, List.modify_eq_set_getElem?, h]
  rfl

theorem programs_put {c : Compiler} {p : Program} (attached : c.attached? = some p)
    (bytes : List UInt8) :
    (c.put (p.append bytes)).programs = appendTo c.target bytes c.programs := by
  obtain ⟨i, htarget, hp⟩ := Option.bind_eq_some_iff.mp attached
  simp only [put, htarget]
  exact set_eq_appendTo hp bytes

/-- The whole effect of a port command. -/
theorem perform_port (c : Compiler) (type : ProgramType) (node : Node) (index i : Nat) :
    c.perform (.port node index i type) =
      match (node.portsOf type)[index]? with
      | none => (.error (.portIndex index (node.portsOf type).length), c.attach i)
      | some port =>
        match c.programs[i]? with
        | none => (.error .missingBuffer, c.attach i)
        | some p =>
          match port.element.program type with
          | .error err => (.error err, (c.attach i).reset)
          | .ok image =>
            (.ok (), ⟨c.programs.set i (p.append image.code), some i,
              UInt32.ofNat port.element.dataSize⟩) := by
  have hperform : c.perform (.port node index i type) =
      c.compilePortAt type (node.portsOf type) index i := by
    cases type <;> rfl
  rw [hperform, compilePortAt]
  cases hport : (node.portsOf type)[index]? with
  | none => rfl
  | some port =>
    cases hp : c.programs[i]? with
    | none =>
      have detached : (c.attach i).attached? = none := hp
      simp only [compilePort, detached]
    | some p =>
      have attached : (c.attach i).attached? = some p := hp
      simp only [compilePort_attached attached, DataElement.program_eq]
      cases hcompile : port.element.compile type.elementOpcode with
      | error err => rfl
      | ok result =>
        obtain ⟨x, size⟩ := result
        obtain ⟨_, rfl⟩ := DataElement.standsFor_of_compile hcompile
        by_cases fits : port.element.dataSize < UInt32.size
        · simp only [if_pos fits]
          rfl
        · simp only [if_neg fits]

/-- A refused command leaves the buffers alone, and any other can only append to the one that is
attached afterwards. -/
def Appends (c : Compiler) : Except CompileError Unit × Compiler → Prop
  | (.error _, next) => next.programs = c.programs
  | (.ok (), next) => ∃ bytes, next.programs = appendTo next.target bytes c.programs

theorem appends_element (c : Compiler) (opcode : Opcode) (e : DataElement) :
    c.Appends (c.compileElement opcode e) := by
  cases attached : c.attached? with
  | none => simp only [compileElement, attached, Appends]
  | some p =>
    cases hrefusal : e.refusal? c.minDataSize.toNat with
    | some err =>
      rw [compileElement_refused attached hrefusal]
      rfl
    | none =>
      obtain ⟨x, _, _, hcompile⟩ := compileElement_accepted attached hrefusal opcode
      rw [hcompile]
      refine ⟨x.encode, ?_⟩
      have htarget : (c.put (p.append x.encode)).target = c.target := by
        cases h : c.target <;> simp [put, h]
      simp only [htarget]
      exact programs_put attached x.encode

theorem appends_port (c : Compiler) (type : ProgramType) (node : Node) (index i : Nat) :
    c.Appends (c.perform (.port node index i type)) := by
  rw [perform_port]
  cases (node.portsOf type)[index]? with
  | none => rfl
  | some port =>
    cases hp : c.programs[i]? with
    | none => rfl
    | some p =>
      cases hcompiled : port.element.program type with
      | error err =>
        simp only [hcompiled]
        rfl
      | ok image =>
        simp only [hcompiled]
        exact ⟨image.code, set_eq_appendTo hp image.code⟩

theorem appends_perform (c : Compiler) (command : Command) : c.Appends (c.perform command) := by
  cases command with
  | attach i => exact ⟨[], (appendTo_nil _ _).symm⟩
  | element opcode e => exact c.appends_element opcode e
  | providePort node index i => exact c.appends_port .pack node index i
  | requirePort node index i => exact c.appends_port .unpack node index i
  | reset => exact ⟨[], (appendTo_nil _ _).symm⟩
  | restart => exact ⟨[], (appendTo_nil _ _).symm⟩

theorem getElem?_perform {c : Compiler} {i : Nat} {p : Program} (h : c.programs[i]? = some p)
    (command : Command) : ∃ added, (c.perform command).2.programs[i]? = some (p.append added) := by
  have step := c.appends_perform command
  rcases hperform : c.perform command with ⟨_ | _, next⟩
  · rw [hperform] at step
    have unchanged : next.programs = c.programs := step
    exact ⟨[], by rw [unchanged, Program.append_nil]; exact h⟩
  · rw [hperform] at step
    obtain ⟨bytes, appended⟩ := step
    simp only [appended]
    exact getElem?_appendTo h

theorem getElem?_session {c : Compiler} {i : Nat} {p : Program} (h : c.programs[i]? = some p)
    (commands : List Command) :
    ∃ added, (c.session commands).programs[i]? = some (p.append added) := by
  induction commands generalizing c p with
  | nil => exact ⟨[], by rw [Program.append_nil]; exact h⟩
  | cons command rest ih =>
    obtain ⟨first, hfirst⟩ := getElem?_perform h command
    obtain ⟨later, hlater⟩ := ih hfirst
    exact ⟨first ++ later, by rw [session, hlater, Program.append_append]⟩

theorem port_ok_iff {c : Compiler} {type : ProgramType} {node : Node} {index i : Nat} :
    (c.perform (.port node index i type)).1 = .ok () ↔
      i < c.programs.length ∧ ∃ port, (node.portsOf type)[index]? = some port ∧
        ∃ image, port.element.program type = .ok image := by
  rw [perform_port]
  cases hport : (node.portsOf type)[index]? with
  | none => simp
  | some port =>
    cases hp : c.programs[i]? with
    | none =>
      have absent : ¬ i < c.programs.length := Nat.not_lt.mpr (List.getElem?_eq_none_iff.mp hp)
      simp [absent]
    | some p =>
      have present : i < c.programs.length := (List.getElem?_eq_some_iff.mp hp).1
      cases hcompiled : port.element.program type with
      | error err => simp [hcompiled]
      | ok image => simp [hcompiled, present]

theorem port_appended {c next : Compiler} {type : ProgramType} {node : Node} {index i : Nat}
    (h : c.perform (.port node index i type) = (.ok (), next)) :
    ∃ port p image x, (node.portsOf type)[index]? = some port ∧
      port.element.program type = .ok image ∧ c.programs[i]? = some p ∧
      next.programs = c.programs.set i (p.append image.code) ∧
      DecodedProgram.decode image.code = .ok ⟨⟨1, type, next.minDataSize⟩, [⟨x, 7⟩]⟩ ∧
      x.opcode = type.elementOpcode := by
  rw [perform_port] at h
  cases hport : (node.portsOf type)[index]? with
  | none => simp only [hport, Prod.mk.injEq, reduceCtorEq, false_and] at h
  | some port =>
    cases hp : c.programs[i]? with
    | none => simp only [hport, hp, Prod.mk.injEq, reduceCtorEq, false_and] at h
    | some p =>
      cases hcompiled : port.element.program type with
      | error err => simp only [hport, hp, hcompiled, Prod.mk.injEq, reduceCtorEq, false_and] at h
      | ok image =>
        simp only [hport, hp, hcompiled, Prod.mk.injEq, true_and] at h
        subst h
        obtain ⟨x, stands, hdecode⟩ := DataElement.decode_program hcompiled
        exact ⟨port, p, image, x, rfl, hcompiled, rfl, rfl, hdecode, stands.opcode⟩

/-- At every point of a session, a refused command leaves all buffers as they are and any other only
appends to the attached one, so that every buffer still starts with what it had at first. A port
command succeeds exactly if the port's element compiles on its own, and appends that program: an
image of one element, whose header has the size that the compiler has then counted. -/
theorem session_appends (c : Compiler) (commands : List Command) :
    let reached := c.session commands
    (∀ command, reached.Appends (reached.perform command)) ∧
      (∀ (i : Nat) (p : Program), c.programs[i]? = some p →
        ∃ added, reached.programs[i]? = some (p.append added)) ∧
      ∀ type node index i,
        ((reached.perform (.port node index i type)).1 = .ok () ↔
          i < reached.programs.length ∧ ∃ port, (node.portsOf type)[index]? = some port ∧
            ∃ image, port.element.program type = .ok image) ∧
        ∀ next, reached.perform (.port node index i type) = (.ok (), next) →
          ∃ port p image x, (node.portsOf type)[index]? = some port ∧
            port.element.program type = .ok image ∧ reached.programs[i]? = some p ∧
            next.programs = reached.programs.set i (p.append image.code) ∧
            DecodedProgram.decode image.code =
              .ok ⟨⟨1, type, next.minDataSize⟩, [⟨x, 7⟩]⟩ ∧
            x.opcode = type.elementOpcode := by
  intro reached
  refine ⟨reached.appends_perform, fun i p h => getElem?_session h commands, ?_⟩
  intro type node index i
  exact ⟨port_ok_iff, fun next h => port_appended h⟩

/-- A size is counted, and a port refused, before the port program comes behind the bytes of a
buffer that was written to already. -/
theorem session_appends_carried :
    let node : Node :=
      { name := "TestNode"
        providePorts := [⟨"Buffer", .array .u8 32⟩, ⟨"Broken", .scalar .record⟩] }
    let c : Compiler := { programs := [⟨[0xAA, 0xBB]⟩, ⟨[0xCC]⟩] }
    let reached := c.session
      [.attach 0, .element .pack (.scalar .u64), .providePort node 1 1, .attach 1,
        .element .unpack (.scalar .u16)]
    reached.programs = [⟨[0xAA, 0xBB, 0x19]⟩, ⟨[0xCC, 0x08]⟩] ∧ reached.minDataSize = 2 ∧
      ∃ next, reached.perform (.port node 0 0 .pack) = (.ok (), next) ∧
        next.programs =
          [⟨[0xAA, 0xBB, 0x19, 0x01, 0x00, 0x01, 0x20, 0x00, 0x00, 0x00, 0x81, 0x02, 0x20]⟩,
            ⟨[0xCC, 0x08]⟩] ∧
        ∃ port p image x, (node.portsOf .pack)[0]? = some port ∧
          port.element.program .pack = .ok image ∧ reached.programs[0]? = some p ∧
          next.programs = reached.programs.set 0 (p.append image.code) ∧
          DecodedProgram.decode image.code =
            .ok ⟨⟨1, .pack, next.minDataSize⟩, [⟨x, 7⟩]⟩ ∧
          x.opcode = .pack := by
  intro node c reached
  obtain ⟨_, _, ports⟩ := session_appends c
    [.attach 0, .element .pack (.scalar .u64), .providePort node 1 1, .attach 1,
      .element .unpack (.scalar .u16)]
  obtain ⟨_, appended⟩ := ports .pack node 0 0
  have accepted : (reached.perform (.port node 0 0 .pack)).1 = .ok () := by decide
  have hnext : reached.perform (.port node 0 0 .pack) =
      (.ok (), (reached.perform (.port node 0 0 .pack)).2) := by rw [← accepted]
  exact ⟨by decide, by decide, _, hnext, by decide, appended _ hnext⟩

end Compiler

end PortWire
