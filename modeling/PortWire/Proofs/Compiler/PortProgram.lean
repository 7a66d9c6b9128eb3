import PortWire.Compiler
import PortWire.Proofs.LengthWidth
import PortWire.Proofs.Program.Patching

/-!
# Port programs

A port compile comes down to one equation: either the whole image of the port's element is appended
to the attached buffer, header and all, or the buffer is as it was. Nothing of the compiler's
history goes into the image.
-/

namespace PortWire

namespace BaseType

/-- Data bytes of one item. -/
def width : BaseType → Nat
  | .u16 | .s16 => 2
  | .u32 | .s32 => 4
  | .u64 | .s64 => 8
  | _ => 1

theorem variant?_eq_none_iff {t : BaseType} : t.variant? = .none ↔ t = .none ∨ t = .record := by
  cases t <;> simp [variant?]

theorem name_of_variant? {t : BaseType} {v : Variant} (h : t.variant? = some v) :
    Named.name v = Named.name t := by
  cases t <;> cases h <;> rfl

theorem elementSize?_of_variant? {t : BaseType} {v : Variant} (h : t.variant? = some v) :
    v.elementSize? = some t.width := by
  cases t <;> cases h <;> rfl

end BaseType

namespace DataElement

/-- The array part that an accepted element compiles to. -/
def arrayPart? (e : DataElement) : Option ArrayPart :=
  if e.isArray then
    (LengthWidth.ofLen? e.arrayLen).map fun width =>
      ⟨width, e.dynamic, if e.dynamic then none else some e.arrayLen⟩
  else
    none

/-- Data bytes that an element takes at least, if one of its items takes `itemSize`. -/
def leastSize (itemSize : Nat) (e : DataElement) : Nat :=
  if !e.isArray then itemSize
  else if e.dynamic then 0
  else itemSize * e.arrayLen.toNat

theorem compile_eq_ok {opcode : Opcode} {e : DataElement} {element : Element} {size : Nat}
    (h : e.compile opcode = .ok (element, size)) :
    ∃ variant itemSize, e.baseType.variant? = some variant ∧
      variant.elementSize? = some itemSize ∧
      (e.isArray → ∃ width, LengthWidth.ofLen? e.arrayLen = some width) ∧
      element = ⟨opcode, variant, e.arrayPart?⟩ ∧ size = e.leastSize itemSize := by
  unfold compile at h
  split at h
  · cases h
  · rename_i variant hvariant
    split at h
    · cases h
    · rename_i itemSize hsize
      refine ⟨variant, itemSize, hvariant, hsize, ?_⟩
      split at h
      · rename_i scalar
        cases h
        simp only [Bool.not_eq_true'] at scalar
        simp [arrayPart?, leastSize, scalar]
      · rename_i arrayed
        simp only [Bool.not_eq_true', Bool.not_eq_false] at arrayed
        split at h
        · cases h
        · rename_i width hwidth
          cases hdynamic : e.dynamic <;> rw [hdynamic] at h <;> cases h <;>
            simp [arrayPart?, leastSize, arrayed, hwidth, hdynamic]

theorem arrayPart?_proper {e : DataElement} : ∀ a ∈ e.arrayPart?, a.Proper := by
  intro a ha
  unfold arrayPart? at ha
  split at ha
  · obtain ⟨width, hwidth, rfl⟩ := Option.map_eq_some_iff.mp ha
    have hlt := LengthWidth.lt_maxLen_of_ofLen? hwidth
    cases hdynamic : e.dynamic
    · exact ⟨rfl, UInt32.le_of_lt hlt⟩
    · exact rfl
  · cases ha

/-- The opcode takes no part in what is accepted, nor in anything else of the outcome. -/
theorem compile_opcode (first second : Opcode) (e : DataElement) :
    e.compile second =
      (e.compile first).map fun result =>
        (⟨second, result.1.variant, result.1.array⟩, result.2) := by
  unfold compile
  split
  · rfl
  · split
    · rfl
    · split
      · rfl
      · split
        · rfl
        · split <;> rfl

/-- The bytes of a port program of one element that takes at least `size` data bytes. -/
def image (type : ProgramType) (element : Element) (size : Nat) : List UInt8 :=
  Header.encode ⟨Header.currentVersion, type, UInt32.ofNat size⟩ ++ element.encode

end DataElement

namespace Program

@[simp]
theorem append_nil (p : Program) : p.append [] = p := by
  simp [append]

@[simp]
theorem append_append (p : Program) (first second : List UInt8) :
    (p.append first).append second = p.append (first ++ second) := by
  simp [append]

theorem patchDataSize_image (p : Program) (type : ProgramType) (element : Element) (size : Nat) :
    ((p.appendPlaceholder type).append element.encode).patchDataSize p.length (UInt32.ofNat size) =
      .ok (p.append (DataElement.image type element size)) := by
  have whole : p.append (DataElement.image type element size) =
      ⟨p.code ++ Header.encode { Header.placeholder type with dataSize := UInt32.ofNat size } ++
        element.encode⟩ := by
    rw [append, DataElement.image, ← List.append_assoc]
    rfl
  rw [whole]
  exact patchDataSize_encode p.code (Header.placeholder type) element.encode (UInt32.ofNat size)

end Program

namespace Compiler

theorem attached?_put {c : Compiler} {p : Program} (h : c.attached? = some p) (q : Program) :
    (c.put q).attached? = some q := by
  unfold attached? at h
  obtain ⟨i, hi, hp⟩ := Option.bind_eq_some_iff.mp h
  obtain ⟨hlt, _⟩ := List.getElem?_eq_some_iff.mp hp
  simp [attached?, put, hi, hlt]

@[simp]
theorem put_put (c : Compiler) (p q : Program) : (c.put p).put q = c.put q := by
  obtain ⟨programs, target, total⟩ := c
  cases target <;> simp [put]

theorem put_attached {c : Compiler} {p : Program} (h : c.attached? = some p) : c.put p = c := by
  obtain ⟨programs, target, total⟩ := c
  obtain ⟨i, hi, hp⟩ := Option.bind_eq_some_iff.mp h
  obtain ⟨hlt, heq⟩ := List.getElem?_eq_some_iff.mp hp
  simp only at hi heq
  simp only [put, hi]
  rw [← heq, List.set_getElem_self]

theorem put_reset (c : Compiler) (p : Program) : (c.put p).reset = c.reset.put p := by
  obtain ⟨programs, target, total⟩ := c
  cases target <;> rfl

/-- The whole effect of a port compile on an attached buffer. -/
theorem compilePort_attached {c : Compiler} {p : Program} (attached : c.attached? = some p)
    (type : ProgramType) (port : Port) :
    c.compilePort type port =
      match port.element.compile type.elementOpcode with
      | .error err => (.error err, c.reset)
      | .ok (element, size) =>
        if size < UInt32.size then
          (.ok (), { c.put (p.append (DataElement.image type element size)) with
                     minDataSize := UInt32.ofNat size })
        else
          (.error .dataSizeOverflow, c.reset) := by
  have hopened : (c.put (p.appendPlaceholder type)).reset.attached? =
      some (p.appendPlaceholder type) := attached?_put attached _
  have hcut : (p.appendPlaceholder type).truncate p.length = p := by
    simp [Program.truncate, Program.appendPlaceholder, Program.append, Program.length]
  -- A refused element leaves the placeholder, which is then cut off again.
  have hrestored : (c.put (p.appendPlaceholder type)).reset.put p = c.reset := by
    rw [← put_reset, put_put, put_attached attached]
  cases hcompile : port.element.compile type.elementOpcode with
  | error err =>
    simp only [compilePort, compileElement, attached, hopened, hcompile, hcut, hrestored]
  | ok result =>
    obtain ⟨element, size⟩ := result
    have htotal : (c.put (p.appendPlaceholder type)).reset.minDataSize.toNat + size = size :=
      Nat.zero_add size
    by_cases fits : size < UInt32.size
    · have hfilled : ({ (c.put (p.appendPlaceholder type)).reset.put
          ((p.appendPlaceholder type).append element.encode) with
          minDataSize := UInt32.ofNat size } : Compiler).attached? =
          some ((p.appendPlaceholder type).append element.encode) := attached?_put hopened _
      simp only [compilePort, compileElement, attached, hopened, hcompile, htotal, fits, if_true,
        hfilled, Program.patchDataSize_image]
      obtain ⟨programs, target, total⟩ := c
      cases target <;> simp [put, reset]
    · simp only [compilePort, compileElement, attached, hopened, hcompile, htotal, fits, if_false,
        hcut, hrestored]

end Compiler

/-- The program of a single element is its image, if the element is accepted and its least size has
32 bits. -/
theorem DataElement.program_eq (type : ProgramType) (e : DataElement) :
    e.program type =
      match e.compile type.elementOpcode with
      | .error err => .error err
      | .ok (element, size) =>
        if size < UInt32.size then .ok ⟨image type element size⟩ else .error .dataSizeOverflow := by
  have attached : ({ programs := [.empty], target := some 0 } : Compiler).attached? =
      some .empty := rfl
  unfold DataElement.program
  rw [Compiler.compilePort_attached attached]
  cases hcompile : e.compile type.elementOpcode with
  | error err => rfl
  | ok result =>
    obtain ⟨element, size⟩ := result
    by_cases fits : size < UInt32.size
    · simp only [fits, if_true]
      rfl
    · simp only [fits, if_false]

namespace DataElement

variable {e : DataElement} {p : Program}

/-- What an accepted element is compiled to. -/
theorem program_eq_ok {type : ProgramType} (compiled : e.program type = .ok p) :
    ∃ variant, e.baseType.variant? = some variant ∧
      (e.isArray → ∃ width, LengthWidth.ofLen? e.arrayLen = some width) ∧
      e.leastSize e.baseType.width < UInt32.size ∧
      p.code = image type ⟨type.elementOpcode, variant, e.arrayPart?⟩
        (e.leastSize e.baseType.width) := by
  rw [program_eq] at compiled
  split at compiled
  · cases compiled
  · rename_i element size hcompile
    obtain ⟨variant, itemSize, hv, hsize, hwidth, rfl, rfl⟩ := compile_eq_ok hcompile
    obtain rfl : e.baseType.width = itemSize :=
      Option.some.inj ((BaseType.elementSize?_of_variant? hv).symm.trans hsize)
    split at compiled
    · rename_i fits
      cases compiled
      exact ⟨variant, hv, hwidth, fits, rfl⟩
    · cases compiled

theorem decode_image (type : ProgramType) (e : DataElement) (variant : Variant) (size : Nat) :
    DecodedProgram.decode (image type ⟨type.elementOpcode, variant, e.arrayPart?⟩ size) =
      .ok ⟨⟨Header.currentVersion, type, UInt32.ofNat size⟩,
        [⟨⟨type.elementOpcode, variant, e.arrayPart?⟩, UInt64.ofNat Header.size⟩]⟩ := by
  have hopcode : type.elementOpcode ≠ .array := by cases type <;> decide
  exact DecodedProgram.decode_single rfl ⟨hopcode, arrayPart?_proper⟩

end DataElement

end PortWire
