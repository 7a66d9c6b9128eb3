import Mathlib.Data.List.Forall2
import PortWire.Compiler.Session
import PortWire.Proofs.Compiler.PortProgram
import PortWire.Proofs.Program.Grammar

/-!
# Runs of element compiles

Over any run of calls that pack or unpack an element, the attached buffer grows by a stream of
exactly the accepted elements in the order of the calls, and the least data size by their exact
sizes. Which call is refused, and why, depends on its element and on the size counted so far.
-/

namespace PortWire

namespace DataElement

/-- Data bytes that an element takes at least: none of a dynamic array, whose items may all be
missing. -/
def dataSize (e : DataElement) : Nat :=
  e.leastSize e.baseType.width

/-- Why an element is refused when `total` data bytes are counted already. -/
def refusal? (total : Nat) (e : DataElement) : Option CompileError :=
  if e.baseType = .none ∨ e.baseType = .record then
    some (.elementType e.baseType)
  else if e.arrayLen = 0xFFFF_FFFF then
    some (.length e.arrayLen)
  else if total + e.dataSize < UInt32.size then
    none
  else
    some .dataSizeOverflow

/-- The program element `x` stands for the data element `e`. -/
structure StandsFor (opcode : Opcode) (e : DataElement) (x : Element) : Prop where
  opcode : x.opcode = opcode
  variant : Named.name x.variant = Named.name e.baseType
  scalar : x.array = none ↔ e.arrayLen = 0
  array : ∀ a ∈ x.array, LengthWidth.ofLen? e.arrayLen = some a.width ∧ a.dynamic = e.dynamic ∧
    a.length = if e.dynamic then none else some e.arrayLen

variable {opcode : Opcode} {e : DataElement} {x : Element}

theorem StandsFor.proper (stands : StandsFor opcode e x) (hopcode : opcode ≠ .array) :
    x.Proper := by
  refine ⟨stands.opcode ▸ hopcode, ?_⟩
  intro a ha
  obtain ⟨hwidth, hdynamic, hlength⟩ := stands.array a ha
  have hlt := LengthWidth.lt_maxLen_of_ofLen? hwidth
  unfold ArrayPart.Proper
  cases dynamic : e.dynamic with
  | true =>
    rw [dynamic, if_pos rfl] at hlength
    rw [hlength]
    exact hdynamic.trans dynamic
  | false =>
    rw [dynamic, if_neg Bool.false_ne_true] at hlength
    rw [hlength]
    exact ⟨hdynamic.trans dynamic, UInt32.le_of_lt hlt⟩

theorem standsFor_compiled {variant : Variant} (hvariant : e.baseType.variant? = some variant)
    (hwidth : e.isArray → ∃ width, LengthWidth.ofLen? e.arrayLen = some width) (opcode : Opcode) :
    StandsFor opcode e ⟨opcode, variant, e.arrayPart?⟩ := by
  refine ⟨rfl, BaseType.name_of_variant? hvariant, ?_, ?_⟩
  · by_cases scalar : e.arrayLen = 0
    · simp [arrayPart?, isArray, scalar]
    · obtain ⟨width, hwidth⟩ := hwidth (by simpa [isArray] using scalar)
      simp [arrayPart?, isArray, scalar, hwidth]
  · intro a ha
    simp only [arrayPart?] at ha
    split at ha
    · obtain ⟨width, hwidth, rfl⟩ := Option.map_eq_some_iff.mp ha
      exact ⟨hwidth, rfl, rfl⟩
    · cases ha

theorem standsFor_of_compile {size : Nat} (h : e.compile opcode = .ok (x, size)) :
    StandsFor opcode e x ∧ size = e.dataSize := by
  obtain ⟨variant, itemSize, hvariant, hitem, hwidth, rfl, rfl⟩ := compile_eq_ok h
  rw [BaseType.elementSize?_of_variant? hvariant, Option.some.injEq] at hitem
  exact ⟨standsFor_compiled hvariant hwidth opcode, by rw [dataSize, hitem]⟩

theorem refusal?_of_compile_ok {size : Nat} (h : e.compile opcode = .ok (x, size)) (total : Nat) :
    e.refusal? total =
      if total + e.dataSize < UInt32.size then none else some .dataSizeOverflow := by
  obtain ⟨variant, _, hvariant, _, hwidth, _, _⟩ := compile_eq_ok h
  have hbase : ¬ (e.baseType = .none ∨ e.baseType = .record) := by
    rw [← BaseType.variant?_eq_none_iff, hvariant]
    exact Option.some_ne_none _
  have hlen : e.arrayLen ≠ 0xFFFF_FFFF := by
    intro hlen
    obtain ⟨width, hwidth⟩ := hwidth (by simp [isArray, hlen])
    rw [LengthWidth.ofLen?_eq_none_iff.mpr hlen] at hwidth
    exact Option.some_ne_none _ hwidth.symm
  rw [refusal?, if_neg hbase, if_neg hlen]

theorem refusal?_of_compile_error {err : CompileError} (h : e.compile opcode = .error err)
    (total : Nat) : e.refusal? total = some err := by
  unfold compile at h
  split at h
  · rename_i hvariant
    cases h
    rw [refusal?, if_pos (BaseType.variant?_eq_none_iff.mp hvariant)]
  · rename_i variant hvariant
    have hbase : ¬ (e.baseType = .none ∨ e.baseType = .record) := by
      rw [← BaseType.variant?_eq_none_iff, hvariant]
      exact Option.some_ne_none _
    rw [BaseType.elementSize?_of_variant? hvariant] at h
    simp only at h
    split at h
    · cases h
    · split at h
      · rename_i hwidth
        cases h
        rw [refusal?, if_neg hbase, if_pos (LengthWidth.ofLen?_eq_none_iff.mp hwidth)]
      · split at h <;> cases h

end DataElement

/-- A call that appends one element, read or written. -/
structure ElementCall where
  type : ProgramType
  element : DataElement
  deriving DecidableEq, Repr

namespace ElementCall

def command (call : ElementCall) : Compiler.Command :=
  .element call.type.elementOpcode call.element

/-- The least sizes of the elements together. -/
def totalSize : List ElementCall → Nat
  | [] => 0
  | call :: rest => call.element.dataSize + totalSize rest

/-- The program element `x` is what the call asked for. -/
def Yields (call : ElementCall) (x : Element) : Prop :=
  call.element.StandsFor call.type.elementOpcode x

theorem Yields.proper {call : ElementCall} {x : Element} (yields : call.Yields x) : x.Proper := by
  refine DataElement.StandsFor.proper yields ?_
  cases call.type <;> decide

theorem proper_of_forall₂ {calls : List ElementCall} {es : List Element}
    (yields : List.Forall₂ Yields calls es) : ∀ x ∈ es, x.Proper := by
  induction yields with
  | nil => simp
  | cons hhead _ ih =>
    intro x hx
    rcases List.mem_cons.mp hx with rfl | hx
    · exact hhead.proper
    · exact ih x hx

end ElementCall

namespace Compiler

theorem compileElement_refused {c : Compiler} {p : Program} {e : DataElement} {err : CompileError}
    (attached : c.attached? = some p) (refused : e.refusal? c.minDataSize.toNat = some err)
    (opcode : Opcode) : c.compileElement opcode e = (.error err, c) := by
  cases hcompile : e.compile opcode with
  | error err' =>
    rw [DataElement.refusal?_of_compile_error hcompile] at refused
    cases refused
    simp only [compileElement, attached, hcompile]
  | ok result =>
    obtain ⟨x, size⟩ := result
    obtain ⟨_, rfl⟩ := DataElement.standsFor_of_compile hcompile
    rw [DataElement.refusal?_of_compile_ok hcompile] at refused
    split at refused
    · cases refused
    · rename_i large
      cases refused
      simp only [compileElement, attached, hcompile, if_neg large]

theorem compileElement_accepted {c : Compiler} {p : Program} {e : DataElement}
    (attached : c.attached? = some p) (accepted : e.refusal? c.minDataSize.toNat = none)
    (opcode : Opcode) :
    ∃ x, e.StandsFor opcode x ∧ c.minDataSize.toNat + e.dataSize < UInt32.size ∧
      c.compileElement opcode e =
        (.ok (), { c.put (p.append x.encode) with
                   minDataSize := UInt32.ofNat (c.minDataSize.toNat + e.dataSize) }) := by
  cases hcompile : e.compile opcode with
  | error err =>
    rw [DataElement.refusal?_of_compile_error hcompile] at accepted
    cases accepted
  | ok result =>
    obtain ⟨x, size⟩ := result
    obtain ⟨stands, rfl⟩ := DataElement.standsFor_of_compile hcompile
    rw [DataElement.refusal?_of_compile_ok hcompile] at accepted
    split at accepted
    · rename_i fits
      exact ⟨x, stands, fits, by simp only [compileElement, attached, hcompile, if_pos fits]⟩
    · cases accepted

/-- The calls that are answered with success when they are performed one after the other. -/
def accepted (c : Compiler) : List ElementCall → List ElementCall
  | [] => []
  | call :: rest =>
    let (result, next) := c.perform call.command
    match result with
    | .ok () => call :: accepted next rest
    | .error _ => accepted next rest

/-- What a run of calls has appended and counted. -/
theorem session_accepted {c : Compiler} {p : Program} (attached : c.attached? = some p)
    (calls : List ElementCall) :
    ∃ es, List.Forall₂ ElementCall.Yields (c.accepted calls) es ∧
      (c.session (calls.map ElementCall.command)).attached? = some (p.append (encodeStream es)) ∧
      (c.session (calls.map ElementCall.command)).minDataSize.toNat =
        c.minDataSize.toNat + ElementCall.totalSize (c.accepted calls) := by
  induction calls generalizing c p with
  | nil => exact ⟨[], .nil, by simpa [session, encodeStream] using attached, rfl⟩
  | cons call rest ih =>
    cases hrefusal : call.element.refusal? c.minDataSize.toNat with
    | some err =>
      -- The compiler is as before the call, so the run goes on as if there had been none.
      have hperform : c.perform call.command = (.error err, c) :=
        compileElement_refused attached hrefusal _
      have haccepted : c.accepted (call :: rest) = c.accepted rest := by
        simp only [accepted, hperform]
      rw [haccepted, List.map_cons, session, hperform]
      exact ih attached
    | none =>
      obtain ⟨x, stands, fits, hcompile⟩ :=
        compileElement_accepted attached hrefusal call.type.elementOpcode
      let next : Compiler := { c.put (p.append x.encode) with
        minDataSize := UInt32.ofNat (c.minDataSize.toNat + call.element.dataSize) }
      have hperform : c.perform call.command = (.ok (), next) := hcompile
      have haccepted : c.accepted (call :: rest) = call :: next.accepted rest := by
        simp only [accepted, hperform]
      have hattached : next.attached? = some (p.append x.encode) := attached?_put attached _
      have hcounted : next.minDataSize.toNat = c.minDataSize.toNat + call.element.dataSize :=
        UInt32.toNat_ofNat_of_lt' fits
      obtain ⟨es, yields, hstream, htotal⟩ := ih hattached
      rw [haccepted, List.map_cons, session, hperform]
      refine ⟨x :: es, .cons stands yields, ?_, ?_⟩
      · rw [hstream, Program.append_append]
        rfl
      · rw [htotal, hcounted, ElementCall.totalSize, Nat.add_assoc]

/-- Over any run of calls on an attached buffer, the buffer gets a stream that is decoded to the
accepted elements in the order of the calls, and the counted size grows by the exact sum of theirs,
which never leaves 32 bits. The next call is refused by its type, else by its length, else by its
size, and then changes nothing. -/
theorem session_elements {c : Compiler} {p : Program} (attached : c.attached? = some p)
    (calls : List ElementCall) :
    let done := c.session (calls.map ElementCall.command)
    let sum := ElementCall.totalSize (c.accepted calls)
    (∃ stream, done.attached? = some (p.append stream) ∧
        ∀ base, ∃ elements, LocatedElement.decodeStream base stream = .ok elements ∧
          List.Forall₂ ElementCall.Yields (c.accepted calls)
            (elements.map LocatedElement.toElement)) ∧
      done.minDataSize.toNat = c.minDataSize.toNat + sum ∧
      c.minDataSize.toNat + sum ≤ 0xFFFF_FFFF ∧
      ∀ call : ElementCall,
        match call.element.refusal? done.minDataSize.toNat with
        | none => (done.perform call.command).1 = .ok ()
        | some err => done.perform call.command = (.error err, done) := by
  intro done sum
  obtain ⟨es, yields, hstream, htotal⟩ := session_accepted attached calls
  refine ⟨⟨encodeStream es, hstream, ?_⟩, htotal, ?_, ?_⟩
  · intro base
    have hdecode := LocatedElement.decodeFrom_encodeStream (ElementCall.proper_of_forall₂ yields)
      base []
    refine ⟨LocatedElement.locate base es, hdecode, ?_⟩
    rw [LocatedElement.map_locate]
    exact yields
  · rw [← htotal]
    exact Nat.le_of_lt_succ (UInt32.toNat_lt _)
  · intro call
    cases hrefusal : call.element.refusal? done.minDataSize.toNat with
    | some err => exact compileElement_refused hstream hrefusal _
    | none =>
      obtain ⟨x, _, _, hcompile⟩ :=
        compileElement_accepted hstream hrefusal call.type.elementOpcode
      exact congrArg Prod.fst hcompile

/-- Every refusal comes once: a size that overflows on top of what is counted, a type without an
instruction (though the length is out of range too), and the length of a dynamic array. -/
theorem session_elements_mixed :
    let c : Compiler := { programs := [⟨[0xAA]⟩], target := some 0, minDataSize := 5 }
    let first : ElementCall := ⟨.pack, .array .u16 3⟩
    let last : ElementCall := ⟨.unpack, .dynamicArray .str 300⟩
    let calls : List ElementCall :=
      [first, ⟨.pack, .array .u8 0xFFFF_FFF5⟩, ⟨.unpack, .array .record 0xFFFF_FFFF⟩,
        ⟨.pack, .dynamicArray .u8 0xFFFF_FFFF⟩, last]
    let done := c.session (calls.map ElementCall.command)
    c.attached? = some ⟨[0xAA]⟩ ∧
      (∃ stream, done.attached? = some (Program.append ⟨[0xAA]⟩ stream) ∧
        ∀ base, ∃ elements, LocatedElement.decodeStream base stream = .ok elements ∧
          List.Forall₂ ElementCall.Yields [first, last]
            (elements.map LocatedElement.toElement)) ∧
      done.minDataSize.toNat = 11 := by
  intro c first last calls done
  have attached : c.attached? = some ⟨[0xAA]⟩ := rfl
  have haccepted : c.accepted calls = [first, last] := by decide
  obtain ⟨hstream, htotal, _⟩ := session_elements attached calls
  rw [haccepted] at hstream htotal
  exact ⟨attached, hstream, htotal⟩

end Compiler

end PortWire
