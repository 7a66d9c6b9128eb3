import PortWire.Proofs.Reader.Trace

/-!
# What a run depends on

A reading step that succeeds depends on the bytes that it takes and on nothing else: wherever these
bytes stand, and whatever is in front of them or behind, the step finds the same in them. The same
goes for a run of a program, which besides needs the bytes that its header announces. Nothing is
said of runs that fail; more data can turn them into runs that succeed.
-/

namespace PortWire

theorem append_prefix_drop_iff {front back data : List UInt8} {pos : Nat} :
    front ++ back <+: data.drop pos ↔
      front <+: data.drop pos ∧ back <+: data.drop (pos + front.length) := by
  constructor
  · rintro ⟨rest, hrest⟩
    rw [List.append_assoc] at hrest
    refine ⟨⟨back ++ rest, hrest⟩, rest, ?_⟩
    rw [← List.drop_drop, ← hrest, List.drop_left]
  · rintro ⟨⟨rest, hrest⟩, behind⟩
    rw [← List.drop_drop, ← hrest, List.drop_left] at behind
    rw [← hrest]
    exact (List.prefix_append_right_inj front).mpr behind

namespace Take

variable {α β : Type}

/-- Wherever `taken` stands, the step finds `a` in it and goes on behind it. -/
def Finds (step : Take α) (taken : List UInt8) (a : α) : Prop :=
  ∀ (data : List UInt8) (pos : Nat), taken <+: data.drop pos →
    step ⟨some data, pos⟩ = .ok (a, ⟨some data, pos + taken.length⟩)

/-- What the step finds, it finds in the bytes that it takes. -/
def Local (step : Take α) : Prop :=
  ∀ (data : List UInt8) (pos : Nat) (a : α) (t : Source), step ⟨some data, pos⟩ = .ok (a, t) →
    ∃ taken, taken <+: data.drop pos ∧ t = ⟨some data, pos + taken.length⟩ ∧ step.Finds taken a

theorem finds_pure (a : α) : (pure a : Take α).Finds [] a :=
  fun _ _ _ => rfl

theorem finds_bytes (taken : List UInt8) : (bytes taken.length).Finds taken taken := by
  intro data pos found
  rw [bytes_begun, if_pos found.length_le, ← List.prefix_iff_eq_take.mp found]

theorem Finds.bind {first : Take α} {next : α → Take β} {front back : List UInt8} {a : α} {b : β}
    (hfirst : first.Finds front a) (hnext : (next a).Finds back b) :
    (first >>= next).Finds (front ++ back) b := by
  intro data pos found
  obtain ⟨inFront, behind⟩ := append_prefix_drop_iff.mp found
  rw [bind_apply, hfirst data pos inFront]
  simp only
  rw [hnext data (pos + front.length) behind, List.length_append, Nat.add_assoc]

theorem local_pure (a : α) : (pure a : Take α).Local := by
  intro data pos a' t h
  cases h
  exact ⟨[], List.nil_prefix, rfl, finds_pure a⟩

theorem local_fail (e : ReadError) : (fail e : Take α).Local := by
  intro data pos a t h
  cases h

theorem local_bytes (n : Nat) : (bytes n).Local := by
  intro data pos bs t h
  rw [bytes_begun] at h
  by_cases enough : n ≤ (data.drop pos).length
  · rw [if_pos enough] at h
    cases h
    have hlength : ((data.drop pos).take n).length = n := List.length_take_of_le enough
    refine ⟨(data.drop pos).take n, List.take_prefix _ _, by rw [hlength], ?_⟩
    have found := finds_bytes ((data.drop pos).take n)
    rwa [hlength] at found
  · rw [if_neg enough] at h
    cases h

theorem Local.bind {first : Take α} {next : α → Take β} (hfirst : first.Local)
    (hnext : ∀ a, (next a).Local) : (first >>= next).Local := by
  intro data pos b t h
  obtain ⟨a, mid, hmid, hlast⟩ := bind_eq_ok h
  obtain ⟨front, inFront, rfl, found⟩ := hfirst data pos a mid hmid
  obtain ⟨back, behind, rfl, foundNext⟩ := hnext a _ _ _ _ hlast
  refine ⟨front ++ back, append_prefix_drop_iff.mpr ⟨inFront, behind⟩, ?_, found.bind foundNext⟩
  rw [List.length_append, Nat.add_assoc]

theorem local_word (size : Nat) : (word size).Local :=
  (local_bytes size).bind fun _ => local_pure _

theorem local_length (count : UInt32) (carried : Option LengthWidth) :
    (length count carried).Local := by
  cases carried with
  | none => exact local_pure _
  | some width => exact (local_word width.bytes).bind fun _ => local_pure _

theorem local_arrayLength (limits : Limits) (count : UInt32) (carried : Option LengthWidth) :
    (arrayLength limits count carried).Local := by
  refine (local_length count carried).bind fun n => ?_
  split
  · exact local_fail _
  · split
    · exact local_fail _
    · exact local_pure _

end Take

namespace FieldType

variable {limits : Limits} {count : UInt32} {carried : Option LengthWidth} {type : FieldType}

theorem local_itemCount : (type.itemCount limits count carried).Local := by
  cases type with
  | primitive p => exact Take.local_arrayLength limits count carried
  | str | bytes =>
    cases carried with
    | none => exact Take.local_pure _
    | some width => exact Take.local_arrayLength limits count (some width)

theorem local_read : (type.read limits count carried).Local := by
  rcases scalar_or_items type count carried with ⟨p, rfl, rfl, rfl⟩ | items
  · rw [read_primitive]
    exact ((Take.local_word p.size).bind fun _ => Take.local_pure _).bind fun _ =>
      Take.local_pure _
  · rw [read_items limits items]
    exact local_itemCount.bind fun n => (Take.local_bytes _).bind fun _ => Take.local_pure _

end FieldType

namespace Reader

variable {r after : Reader} {data : List UInt8}

/-- Wherever `taken` stands, a reader with these limits reads the elements from it, finds the values
in it and goes on behind it. -/
def Finds (limits : Limits) (elements : List LocatedElement) (taken : List UInt8)
    (values : List Value) : Prop :=
  ∀ (s : Reader) (other : List UInt8), s.limits = limits → s.source.buffer = some other →
    taken <+: other.drop s.source.pos →
      ∃ last, Reads s elements values last ∧
        last.source = ⟨some other, s.source.pos + taken.length⟩

/-- The value of an element comes from the bytes that are taken for it. -/
theorem local_readElement {e : Element} {v : Value} (begun : r.source.buffer = some data)
    (h : r.readElement e = (.ok v, after)) :
    ∃ taken, taken <+: data.drop r.source.pos ∧
      after = ⟨r.limits, ⟨some data, r.source.pos + taken.length⟩, [{}]⟩ ∧
      ∀ (s : Reader) (other : List UInt8), s.limits = r.limits → s.source.buffer = some other →
        taken <+: other.drop s.source.pos →
          s.readElement e =
            (.ok v, ⟨s.limits, ⟨some other, s.source.pos + taken.length⟩, [{}]⟩) := by
  obtain ⟨limits, ⟨_, pos⟩, frames⟩ := r
  obtain rfl := begun
  rw [readElement_eq] at h
  cases htype : e.variant.fieldType? with
  | none =>
    rw [htype] at h
    cases h
  | some type =>
    simp only [htype] at h
    cases hread : type.read limits (executedCount (extent e).1 type) (extent e).2
        ⟨some data, pos⟩ with
    | error err =>
      rw [hread] at h
      cases h
    | ok found =>
      obtain ⟨v', source⟩ := found
      obtain ⟨taken, stands, rfl, finds⟩ := FieldType.local_read _ _ _ _ hread
      rw [hread] at h
      cases h
      refine ⟨taken, stands, rfl, ?_⟩
      rintro ⟨_, ⟨_, start⟩, frames'⟩ other rfl rfl stands'
      rw [readElement_eq]
      simp only [htype, finds other start stands']

/-- The values of a trace come from the bytes between its ends. -/
theorem Reads.local {elements : List LocatedElement} {values : List Value}
    (trace : Reads r elements values after) (begun : r.source.buffer = some data) :
    ∃ taken, taken <+: data.drop r.source.pos ∧
      after.source = ⟨some data, r.source.pos + taken.length⟩ ∧
      Finds r.limits elements taken values := by
  induction trace with
  | @done r =>
    refine ⟨[], List.nil_prefix, ?_, ?_⟩
    · rw [← begun]
      rfl
    · intro s other _ hother _
      refine ⟨s, .done, ?_⟩
      rw [← hother]
      rfl
  | @next r mid after e rest v values read trace ih =>
    obtain ⟨front, inFront, rfl, again⟩ := local_readElement begun read
    obtain ⟨back, behind, hafter, finds⟩ := ih rfl
    refine ⟨front ++ back, append_prefix_drop_iff.mpr ⟨inFront, behind⟩, ?_, ?_⟩
    · rw [hafter, List.length_append, Nat.add_assoc]
    · intro s other hlimits hother stands
      obtain ⟨inFront', behind'⟩ := append_prefix_drop_iff.mp stands
      obtain ⟨last, traceLast, hlast⟩ :=
        finds ⟨s.limits, ⟨some other, s.source.pos + front.length⟩, [{}]⟩ other hlimits rfl behind'
      refine ⟨last, .next (again s other hlimits hother inFront') traceLast, ?_⟩
      rw [hlast, List.length_append, Nat.add_assoc]

theorem prefix_drop_of_agree {taken other : List UInt8} {pos start : Nat}
    (stands : taken <+: data.drop pos) (room : taken.length ≤ (other.drop start).length)
    (agree : ∀ i < taken.length, other[start + i]? = data[pos + i]?) :
    taken <+: other.drop start := by
  rw [List.prefix_iff_eq_take]
  apply List.ext_getElem?
  intro i
  by_cases inside : i < taken.length
  · obtain ⟨rest, hrest⟩ := stands
    rw [List.getElem?_take_of_lt inside, List.getElem?_drop, agree i inside, ← List.getElem?_drop,
      ← hrest, List.getElem?_append_left inside]
  · rw [List.getElem?_eq_none (Nat.le_of_not_lt inside), List.getElem?_eq_none]
    rw [List.length_take]
    omega

/-- A run that succeeds depends on the bytes that it takes, and on how many follow only as far as
its header asks for more. Every reader with the same limits that finds these bytes at its position,
in whatever buffer, and has the data that the header announces, comes to the same value and goes on
as far behind its own position. More data at the end of the buffer make no difference at all. -/
theorem run_depends_on_consumed {image : List UInt8} {v : Value}
    (begun : r.source.buffer = some data) (ran : r.run image = (.ok v, after)) :
    ∃ program used, DecodedProgram.decode image = .ok program ∧
      after.source = ⟨some data, r.source.pos + used⟩ ∧
      (∀ (s : Reader) (other : List UInt8), s.limits = r.limits → s.source.buffer = some other →
        (∀ i < used, other[s.source.pos + i]? = data[r.source.pos + i]?) →
        max used program.header.dataSize.toNat ≤ other.length - s.source.pos →
          ∃ last, s.run image = (.ok v, last) ∧
            last.source = ⟨some other, s.source.pos + used⟩) ∧
      ∀ (s : Reader) (more : List UInt8), s.limits = r.limits →
        s.source = ⟨some (data ++ more), r.source.pos⟩ →
          ∃ last, s.run image = (.ok v, last) ∧ last.source.pos = after.source.pos := by
  obtain ⟨_, program, values, decoded, enough, trace, rfl⟩ := run_eq_ok ran
  obtain ⟨taken, stands, moved, finds⟩ := trace.local begun
  have again : ∀ (s : Reader) (other : List UInt8), s.limits = r.limits →
      s.source.buffer = some other → taken <+: other.drop s.source.pos →
      program.header.dataSize.toNat ≤ other.length - s.source.pos →
        ∃ last, s.run image = (.ok (collect values), last) ∧
          last.source = ⟨some other, s.source.pos + taken.length⟩ := by
    intro s other hlimits hother stands' announced
    obtain ⟨last, traceLast, hlast⟩ := finds s other hlimits hother stands'
    refine ⟨last, traceLast.run_eq (by rw [hother]; rfl) decoded ?_, hlast⟩
    simpa [Source.remaining, hother] using announced
  refine ⟨program, taken.length, decoded, moved, ?_, ?_⟩
  · intro s other hlimits hother agree room
    obtain ⟨consumed, announced⟩ := Nat.max_le.mp room
    rw [← List.length_drop] at consumed
    exact again s other hlimits hother (prefix_drop_of_agree stands consumed agree) announced
  · intro s more hlimits hsource
    have hother : s.source.buffer = some (data ++ more) := by rw [hsource]
    have hpos : s.source.pos = r.source.pos := by rw [hsource]
    have announced : program.header.dataSize.toNat ≤ (data ++ more).length - s.source.pos := by
      simp only [Source.remaining, begun] at enough
      rw [List.length_append, hpos]
      omega
    have stands' : taken <+: (data ++ more).drop s.source.pos := by
      rw [hpos, List.drop_append]
      exact stands.trans (List.prefix_append _ _)
    obtain ⟨last, hrun, hlast⟩ := again s _ hlimits hother stands' announced
    exact ⟨last, hrun, by rw [hlast, moved, hpos]⟩

/-- Two items and a flag are found again at the start of another buffer. The header asks for a byte
more than is taken, and what that byte holds makes no difference. -/
theorem run_depends_on_consumed_moved :
    let image : List UInt8 := [1, 0, 0, 7, 0, 0, 0, 0x88, 0x82, 0x50]
    let r : Reader := { source := ⟨some [7, 2, 0xFF, 0xFF, 0x34, 0x12, 1, 9], 1⟩ }
    let s : Reader := start [2, 0xFF, 0xFF, 0x34, 0x12, 1, 0xAA] {}
    ∃ v after last, r.run image = (.ok v, after) ∧ after.source.pos = 7 ∧
      s.run image = (.ok v, last) ∧ last.source.pos = 6 := by
  intro image r s
  let es : List Element := [⟨.unpack, .u16, some ⟨.u8, true, none⟩⟩, ⟨.unpack, .bool, none⟩]
  let header : Header := ⟨Header.currentVersion, .unpack, 7⟩
  have proper : ∀ e ∈ es, e.Proper := by decide
  have spelled : header.encode ++ encodeStream es = image := by decide
  have decoded : DecodedProgram.decode image = .ok ⟨header, LocatedElement.locate 7 es⟩ := by
    rw [← spelled]
    exact DecodedProgram.decode_encodeStream rfl proper
  have items : r.readElement ⟨.unpack, .u16, some ⟨.u8, true, none⟩⟩ =
      (.ok (.array [.scalar (.u32 0xFFFF), .scalar (.u32 0x1234)]),
        ⟨{}, ⟨r.source.buffer, 6⟩, [{}]⟩) := rfl
  have flag : (⟨{}, ⟨r.source.buffer, 6⟩, [{}]⟩ : Reader).readElement ⟨.unpack, .bool, none⟩ =
      (.ok (.scalar (.bool true)), ⟨{}, ⟨r.source.buffer, 7⟩, [{}]⟩) := rfl
  have trace : Reads r (LocatedElement.locate 7 es)
      [.array [.scalar (.u32 0xFFFF), .scalar (.u32 0x1234)], .scalar (.bool true)]
      ⟨{}, ⟨r.source.buffer, 7⟩, [{}]⟩ := .next items (.next flag .done)
  have ran := trace.run_eq rfl decoded (by decide)
  obtain ⟨program, used, decoded', moved, again, _⟩ := run_depends_on_consumed rfl ran
  obtain rfl := Except.ok.inj (decoded.symm.trans decoded')
  have six : 1 + used = 7 := (congrArg Source.pos moved).symm
  obtain rfl : used = 6 := by omega
  have agree : ∀ i < 6, ([2, 0xFF, 0xFF, 0x34, 0x12, 1, 0xAA] : List UInt8)[0 + i]? =
      ([7, 2, 0xFF, 0xFF, 0x34, 0x12, 1, 9] : List UInt8)[1 + i]? := by decide
  obtain ⟨last, found, goesOn⟩ :=
    again s [2, 0xFF, 0xFF, 0x34, 0x12, 1, 0xAA] rfl rfl agree (Nat.le_refl 7)
  exact ⟨_, _, last, ran, rfl, found, by rw [goesOn]; rfl⟩

end Reader

end PortWire
