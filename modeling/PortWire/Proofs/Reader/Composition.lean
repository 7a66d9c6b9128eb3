import PortWire.Proofs.Reader.Locality

/-!
# Programs one behind the other

A stream of instructions can be cut between any two elements: a program of both parts does what the
programs of the parts do one after the other. It finds the values of the first part followed by
those of the second, and if it fails it does so at the first element that cannot be read, and goes
back to where it began. The offsets of the elements, which differ between the programs, have no part
in it.
-/

namespace PortWire.Reader

variable {r mid after failed : Reader} {image : List UInt8} {err : ReadError}

/-- The elements are read one after the other until one of them fails. -/
inductive Stops : Reader → List LocatedElement → ReadError → Reader → Prop
  | here {r failed : Reader} {e : LocatedElement} {rest : List LocatedElement} {err : ReadError} :
    r.readElement e.toElement = (.error err, failed) → Stops r (e :: rest) err failed
  | later {r mid failed : Reader} {e : LocatedElement} {rest : List LocatedElement} {v : Value}
    {err : ReadError} :
    r.readElement e.toElement = (.ok v, mid) → Stops mid rest err failed →
      Stops r (e :: rest) err failed

/-- The loop fails just where its elements stop. -/
theorem readElements_eq_error {found : List Value} {elements : List LocatedElement} :
    readElements found elements r = (.error err, failed) ↔ Stops r elements err failed := by
  constructor
  · intro h
    induction elements generalizing found r with
    | nil => cases h
    | cons e rest ih =>
      rw [readElements] at h
      rcases hread : r.readElement e.toElement with ⟨_ | v, mid⟩
      · rw [hread] at h
        cases h
        exact .here hread
      · rw [hread] at h
        exact .later hread (ih h)
  · intro h
    induction h generalizing found with
    | here read => rw [readElements, read]
    | later read _ ih =>
      rw [readElements, read]
      exact ih

theorem Reads.append {first second : List LocatedElement} {vs ws : List Value}
    (front : Reads r first vs mid) (back : Reads mid second ws after) :
    Reads r (first ++ second) (vs ++ ws) after := by
  induction front with
  | done => exact back
  | next read _ ih => exact .next read (ih back)

/-- Reading elements stays in the buffer. -/
theorem Reads.begun {elements : List LocatedElement} {values : List Value}
    (trace : Reads r elements values after) (begun : r.source.buffer.isSome) :
    after.source.buffer.isSome := by
  obtain ⟨data, buffer⟩ := Option.isSome_iff_exists.mp begun
  obtain ⟨_, _, moved, _⟩ := trace.local buffer
  rw [moved]
  rfl

theorem stops_append_iff {first second : List LocatedElement} :
    Stops r (first ++ second) err failed ↔
      Stops r first err failed ∨
        ∃ vs mid, Reads r first vs mid ∧ Stops mid second err failed := by
  constructor
  · intro h
    induction first generalizing r with
    | nil => exact Or.inr ⟨[], r, .done, h⟩
    | cons e rest ih =>
      cases h with
      | here read => exact Or.inl (.here read)
      | later read behind =>
        rcases ih behind with stops | ⟨vs, mid, trace, stops⟩
        · exact Or.inl (.later read stops)
        · exact Or.inr ⟨_, mid, .next read trace, stops⟩
  · rintro (stops | ⟨vs, mid, trace, stops⟩)
    · induction stops with
      | here read => exact .here read
      | later read _ ih => exact .later read ih
    · induction trace with
      | done => exact stops
      | next read _ ih => exact .later read (ih stops)

/-- The elements stop at one that fails behind others that are read. -/
theorem stops_iff {elements : List LocatedElement} :
    Stops r elements err failed ↔
      ∃ earlier e later values before, elements = earlier ++ e :: later ∧
        Reads r earlier values before ∧
        before.readElement e.toElement = (.error err, failed) := by
  constructor
  · intro stops
    induction stops with
    | @here r _ e rest _ read => exact ⟨[], e, rest, [], r, rfl, .done, read⟩
    | @later _ _ _ e _ _ _ read _ ih =>
      obtain ⟨earlier, stuck, later, values, before, rfl, trace, fails⟩ := ih
      exact ⟨e :: earlier, stuck, later, _, before, rfl, .next read trace, fails⟩
  · rintro ⟨earlier, e, later, values, before, rfl, trace, fails⟩
    exact stops_append_iff.mpr (Or.inr ⟨values, before, trace, .here fails⟩)

theorem Reads.congr {elements others : List LocatedElement} {values : List Value}
    (trace : Reads r elements values after)
    (same : elements.map LocatedElement.toElement = others.map LocatedElement.toElement) :
    Reads r others values after := by
  induction trace generalizing others with
  | done =>
    obtain rfl : others = [] := List.map_eq_nil_iff.mp same.symm
    exact .done
  | next read _ ih =>
    obtain ⟨e, rest, rfl, head, tail⟩ := List.map_eq_cons_iff.mp same.symm
    rw [← head] at read
    exact .next read (ih tail.symm)

theorem Stops.congr {elements others : List LocatedElement} (stops : Stops r elements err failed)
    (same : elements.map LocatedElement.toElement = others.map LocatedElement.toElement) :
    Stops r others err failed := by
  induction stops generalizing others with
  | here read =>
    obtain ⟨e, rest, rfl, head, _⟩ := List.map_eq_cons_iff.mp same.symm
    rw [← head] at read
    exact .here read
  | later read _ ih =>
    obtain ⟨e, rest, rfl, head, tail⟩ := List.map_eq_cons_iff.mp same.symm
    rw [← head] at read
    exact .later read (ih tail.symm)

/-- A run that comes to its elements fails where they stop, and goes back. -/
theorem run_eq_error_iff {program : DecodedProgram} (begun : r.source.buffer.isSome)
    (decoded : DecodedProgram.decode image = .ok program)
    (enough : program.header.dataSize.toNat ≤ r.source.remaining) :
    r.run image = (.error err, after) ↔
      ∃ failed, Stops r program.elements err failed ∧
        after = { failed with source := r.source } := by
  obtain ⟨data, buffer⟩ := Option.isSome_iff_exists.mp begun
  have short := Nat.not_lt.mpr enough
  constructor
  · intro h
    rcases hloop : readElements [] program.elements r with ⟨_ | values, final⟩
    · simp only [run, buffer, decoded, if_neg short, hloop] at h
      cases h
      exact ⟨final, readElements_eq_error.mp hloop, rfl⟩
    · simp only [run, buffer, decoded, if_neg short, hloop] at h
      cases h
  · rintro ⟨failed, stops, rfl⟩
    simp only [run, buffer, decoded, if_neg short, readElements_eq_error.mpr stops]

/-- The program of a stream, with a header that asks for no data. -/
def plainImage (type : ProgramType) (code : List UInt8) : List UInt8 :=
  (Header.placeholder type).encode ++ code

section Plain

variable {base : UInt64} {code : List UInt8} {elements : List LocatedElement}

theorem decode_plainImage (decoded : LocatedElement.decodeStream base code = .ok elements)
    (type : ProgramType) :
    ∃ located, DecodedProgram.decode (plainImage type code) =
        .ok ⟨Header.placeholder type, located⟩ ∧
      located.map LocatedElement.toElement = elements.map LocatedElement.toElement := by
  obtain ⟨es, proper, rfl, rfl⟩ := LocatedElement.decodeStream_eq_ok.mp decoded
  refine ⟨_, DecodedProgram.decode_encodeStream rfl proper, ?_⟩
  rw [LocatedElement.map_locate, LocatedElement.map_locate]

theorem decodeStream_append {base₁ base₂ : UInt64} {code₁ code₂ : List UInt8}
    {first second : List LocatedElement}
    (decoded₁ : LocatedElement.decodeStream base₁ code₁ = .ok first)
    (decoded₂ : LocatedElement.decodeStream base₂ code₂ = .ok second) (base : UInt64) :
    ∃ both, LocatedElement.decodeStream base (code₁ ++ code₂) = .ok both ∧
      both.map LocatedElement.toElement = (first ++ second).map LocatedElement.toElement := by
  obtain ⟨es₁, proper₁, rfl, rfl⟩ := LocatedElement.decodeStream_eq_ok.mp decoded₁
  obtain ⟨es₂, proper₂, rfl, rfl⟩ := LocatedElement.decodeStream_eq_ok.mp decoded₂
  have proper : ∀ e ∈ es₁ ++ es₂, e.Proper := by
    intro e he
    rcases List.mem_append.mp he with he | he
    · exact proper₁ e he
    · exact proper₂ e he
  refine ⟨_, LocatedElement.decodeStream_eq_ok.mpr ⟨es₁ ++ es₂, proper, ?_, rfl⟩, ?_⟩
  · exact List.flatMap_append.symm
  · rw [LocatedElement.map_locate, List.map_append, LocatedElement.map_locate,
      LocatedElement.map_locate]

theorem run_plain_ok (decoded : LocatedElement.decodeStream base code = .ok elements)
    (begun : r.source.buffer.isSome) (type : ProgramType) {v : Value} :
    r.run (plainImage type code) = (.ok v, after) ↔
      ∃ values, Reads r elements values after ∧ v = collect values := by
  obtain ⟨located, hdecode, same⟩ := decode_plainImage decoded type
  constructor
  · intro h
    obtain ⟨_, program, values, hprogram, _, trace, rfl⟩ := run_eq_ok h
    obtain rfl := Except.ok.inj (hdecode.symm.trans hprogram)
    exact ⟨values, trace.congr same, rfl⟩
  · rintro ⟨values, trace, rfl⟩
    exact (trace.congr same.symm).run_eq begun hdecode (Nat.zero_le _)

theorem run_plain_error (decoded : LocatedElement.decodeStream base code = .ok elements)
    (begun : r.source.buffer.isSome) (type : ProgramType) :
    r.run (plainImage type code) = (.error err, after) ↔
      ∃ failed, Stops r elements err failed ∧ after = { failed with source := r.source } := by
  obtain ⟨located, hdecode, same⟩ := decode_plainImage decoded type
  rw [run_eq_error_iff begun hdecode (Nat.zero_le _)]
  constructor
  · rintro ⟨failed, stops, rfl⟩
    exact ⟨failed, stops.congr same, rfl⟩
  · rintro ⟨failed, stops, rfl⟩
    exact ⟨failed, stops.congr same.symm, rfl⟩

/-- The program of two streams succeeds where both parts are read one after the other. -/
theorem run_joined_ok {base₁ base₂ : UInt64} {code₁ code₂ : List UInt8}
    {first second : List LocatedElement}
    (decoded₁ : LocatedElement.decodeStream base₁ code₁ = .ok first)
    (decoded₂ : LocatedElement.decodeStream base₂ code₂ = .ok second)
    (begun : r.source.buffer.isSome) (type : ProgramType) {v : Value} :
    r.run (plainImage type (code₁ ++ code₂)) = (.ok v, after) ↔
      ∃ vs₁ vs₂ mid, Reads r first vs₁ mid ∧ Reads mid second vs₂ after ∧
        v = collect (vs₁ ++ vs₂) := by
  obtain ⟨both, decoded, same⟩ := decodeStream_append decoded₁ decoded₂ base₁
  rw [run_plain_ok decoded begun type]
  constructor
  · rintro ⟨values, trace, rfl⟩
    obtain ⟨vs₁, vs₂, mid, rfl, before, behind⟩ := (trace.congr same).split
    exact ⟨vs₁, vs₂, mid, before, behind, rfl⟩
  · rintro ⟨vs₁, vs₂, mid, before, behind, rfl⟩
    exact ⟨vs₁ ++ vs₂, (before.append behind).congr same.symm, rfl⟩

/-- The program of two streams fails where the elements of both in a row stop. -/
theorem run_joined_error {base₁ base₂ : UInt64} {code₁ code₂ : List UInt8}
    {first second : List LocatedElement}
    (decoded₁ : LocatedElement.decodeStream base₁ code₁ = .ok first)
    (decoded₂ : LocatedElement.decodeStream base₂ code₂ = .ok second)
    (begun : r.source.buffer.isSome) (type : ProgramType) :
    r.run (plainImage type (code₁ ++ code₂)) = (.error err, after) ↔
      ∃ stuck, Stops r (first ++ second) err stuck ∧
        after = { stuck with source := r.source } := by
  obtain ⟨both, decoded, same⟩ := decodeStream_append decoded₁ decoded₂ base₁
  rw [run_plain_error decoded begun type]
  constructor
  · rintro ⟨stuck, stops, rfl⟩
    exact ⟨stuck, stops.congr same, rfl⟩
  · rintro ⟨stuck, stops, rfl⟩
    exact ⟨stuck, stops.congr same.symm, rfl⟩

end Plain

/-- A program of two streams succeeds exactly if the programs of the streams do so one behind the
other; it leaves the same reader, and its values are those of the first followed by those of the
second. A single value stands for itself in each of the three programs. The whole fails with what
makes the first part fail, or else the second, which is the error of the first element that cannot
be read, and the source is then as it was before the first part. -/
theorem programs_compose {base₁ base₂ : UInt64} {code₁ code₂ : List UInt8}
    {first second : List LocatedElement}
    (decoded₁ : LocatedElement.decodeStream base₁ code₁ = .ok first)
    (decoded₂ : LocatedElement.decodeStream base₂ code₂ = .ok second)
    (begun : r.source.buffer.isSome) (type type₁ type₂ : ProgramType) :
    let whole := plainImage type (code₁ ++ code₂)
    let front := plainImage type₁ code₁
    let back := plainImage type₂ code₂
    (∀ v final, r.run whole = (.ok v, final) →
        ∃ v₁ mid v₂, r.run front = (.ok v₁, mid) ∧ mid.run back = (.ok v₂, final)) ∧
      (∀ v₁ mid v₂ final, r.run front = (.ok v₁, mid) → mid.run back = (.ok v₂, final) →
        ∃ vs₁ vs₂ : List Value, vs₁.length = first.length ∧ vs₂.length = second.length ∧
          v₁ = collect vs₁ ∧ v₂ = collect vs₂ ∧
          r.run whole = (.ok (collect (vs₁ ++ vs₂)), final)) ∧
      (∀ err failed, r.run whole = (.error err, failed) ↔
        failed.source = r.source ∧
          (r.run front = (.error err, failed) ∨
            ∃ v₁ mid, r.run front = (.ok v₁, mid) ∧
              mid.run back = (.error err, { failed with source := mid.source }))) ∧
      ∀ err failed, r.run whole = (.error err, failed) →
        ∃ stuck, Stops r (first ++ second) err stuck := by
  intro whole front back
  refine ⟨?_, ?_, ?_, ?_⟩
  · intro v final ran
    obtain ⟨vs₁, vs₂, mid, before, behind, rfl⟩ :=
      (run_joined_ok decoded₁ decoded₂ begun type).mp ran
    exact ⟨collect vs₁, mid, collect vs₂,
      (run_plain_ok decoded₁ begun type₁).mpr ⟨vs₁, before, rfl⟩,
      (run_plain_ok decoded₂ (before.begun begun) type₂).mpr ⟨vs₂, behind, rfl⟩⟩
  · intro v₁ mid v₂ final ran₁ ran₂
    obtain ⟨vs₁, before, rfl⟩ := (run_plain_ok decoded₁ begun type₁).mp ran₁
    obtain ⟨vs₂, behind, rfl⟩ := (run_plain_ok decoded₂ (before.begun begun) type₂).mp ran₂
    exact ⟨vs₁, vs₂, before.length_eq, behind.length_eq, rfl, rfl,
      (run_joined_ok decoded₁ decoded₂ begun type).mpr ⟨vs₁, vs₂, mid, before, behind, rfl⟩⟩
  · intro err failed
    rw [run_joined_error decoded₁ decoded₂ begun type]
    constructor
    · rintro ⟨stuck, stops, rfl⟩
      refine ⟨rfl, ?_⟩
      rcases stops_append_iff.mp stops with stops | ⟨vs₁, mid, before, stops⟩
      · exact Or.inl ((run_plain_error decoded₁ begun type₁).mpr ⟨stuck, stops, rfl⟩)
      · refine Or.inr ⟨collect vs₁, mid,
          (run_plain_ok decoded₁ begun type₁).mpr ⟨vs₁, before, rfl⟩, ?_⟩
        exact (run_plain_error decoded₂ (before.begun begun) type₂).mpr ⟨stuck, stops, rfl⟩
    · rintro ⟨returned, failure | ⟨v₁, mid, ran₁, failure⟩⟩
      · obtain ⟨stuck, stops, rfl⟩ := (run_plain_error decoded₁ begun type₁).mp failure
        exact ⟨stuck, stops_append_iff.mpr (Or.inl stops), rfl⟩
      · obtain ⟨vs₁, before, rfl⟩ := (run_plain_ok decoded₁ begun type₁).mp ran₁
        obtain ⟨stuck, stops, left⟩ :=
          (run_plain_error decoded₂ (before.begun begun) type₂).mp failure
        refine ⟨stuck, stops_append_iff.mpr (Or.inr ⟨vs₁, mid, before, stops⟩), ?_⟩
        obtain ⟨limits, source, frames⟩ := failed
        cases left
        cases returned
        rfl
  · intro err failed failure
    obtain ⟨stuck, stops, _⟩ := (run_joined_error decoded₁ decoded₂ begun type).mp failure
    exact ⟨stuck, stops⟩

/-- A number on its own, then a word behind an array of two. -/
theorem programs_compose_collected :
    let code₁ : List UInt8 := [0x00]
    let code₂ : List UInt8 := [0x80, 0x82, 0x09]
    let r : Reader := start [7, 2, 8, 9, 0x34, 0x12] {}
    ∃ first second mid final,
      LocatedElement.decodeStream 0 code₁ = .ok first ∧
        LocatedElement.decodeStream 0 code₂ = .ok second ∧
        r.run (plainImage .unpack code₁) = (.ok (.scalar (.u32 7)), mid) ∧
        mid.run (plainImage .pack code₂) =
          (.ok (.array [.array [.scalar (.u32 8), .scalar (.u32 9)], .scalar (.u32 0x1234)]),
            final) ∧
        r.run (plainImage .unpack (code₁ ++ code₂)) =
          (.ok (.array [.scalar (.u32 7), .array [.scalar (.u32 8), .scalar (.u32 9)],
            .scalar (.u32 0x1234)]), final) := by
  intro code₁ code₂ r
  let es₁ : List Element := [⟨.unpack, .u8, none⟩]
  let es₂ : List Element := [⟨.unpack, .u8, some ⟨.u8, true, none⟩⟩, ⟨.pack, .u16, none⟩]
  have proper₁ : ∀ e ∈ es₁, e.Proper := by decide
  have proper₂ : ∀ e ∈ es₂, e.Proper := by decide
  have decoded₁ : LocatedElement.decodeStream 0 code₁ = .ok (LocatedElement.locate 0 es₁) :=
    LocatedElement.decodeStream_eq_ok.mpr ⟨es₁, proper₁, rfl, rfl⟩
  have decoded₂ : LocatedElement.decodeStream 0 code₂ = .ok (LocatedElement.locate 0 es₂) :=
    LocatedElement.decodeStream_eq_ok.mpr ⟨es₂, proper₂, rfl, rfl⟩
  have ran₁ : r.run (plainImage .unpack code₁) =
      (.ok (.scalar (.u32 7)), ⟨{}, ⟨some [7, 2, 8, 9, 0x34, 0x12], 1⟩, [{}]⟩) :=
    (run_plain_ok decoded₁ rfl .unpack).mpr ⟨[.scalar (.u32 7)], .next rfl .done, rfl⟩
  have ran₂ := (run_plain_ok decoded₂ (r := ⟨{}, ⟨some [7, 2, 8, 9, 0x34, 0x12], 1⟩, [{}]⟩)
    rfl .pack).mpr ⟨[.array [.scalar (.u32 8), .scalar (.u32 9)], .scalar (.u32 0x1234)],
      .next rfl (.next rfl .done), rfl⟩
  obtain ⟨vs₁, vs₂, one, two, found₁, found₂, ran⟩ :=
    (programs_compose decoded₁ decoded₂ rfl .unpack .unpack .pack).2.1 _ _ _ _ ran₁ ran₂
  obtain ⟨v, rfl⟩ := List.length_eq_one_iff.mp one
  obtain ⟨a, rest, rfl⟩ := List.exists_cons_of_length_eq_add_one two
  obtain ⟨b, rfl⟩ := List.length_eq_one_iff.mp (Nat.succ.inj two)
  cases found₁
  cases found₂
  exact ⟨_, _, _, _, decoded₁, decoded₂, ran₁, ran₂, ran⟩

end PortWire.Reader
