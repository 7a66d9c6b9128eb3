import PortWire.Proofs.Reader.Rest

/-!
# Progress of reading steps

A reading step that succeeds has moved on in the same buffer and has not left it, and one that fails
does not blame the frames. A field is never read without a buffer, and it yields a scalar or an
array of scalars that keeps the limit. Nothing is assumed of the source, which may be one that has
not begun.
-/

namespace PortWire

/-- The position lies in the buffer, or at zero if there is none. -/
def Source.Within (s : Source) : Prop :=
  s.pos ≤ (s.buffer.getD []).length

/-- Reading has come from `s` to `t`. -/
structure Source.Ahead (s t : Source) : Prop where
  buffer : t.buffer = s.buffer
  pos : s.pos ≤ t.pos
  within : s.Within → t.Within

theorem Source.Ahead.refl (s : Source) : s.Ahead s :=
  ⟨rfl, Nat.le_refl _, id⟩

theorem Source.Ahead.trans {s t u : Source} (first : s.Ahead t) (second : t.Ahead u) :
    s.Ahead u where
  buffer := second.buffer.trans first.buffer
  pos := Nat.le_trans first.pos second.pos
  within := fun h => second.within (first.within h)

/-- The open frames are to blame, and not the data, the limits or a program. -/
def ReadError.OfFrames : ReadError → Prop
  | .state _ => True
  | _ => False

namespace Take

variable {α β : Type}

/-- How every reading step behaves. -/
structure Orderly (step : Take α) : Prop where
  ahead : ∀ {s a t}, step s = .ok (a, t) → s.Ahead t
  fault : ∀ {s e}, step s = .error e → ¬ e.OfFrames

theorem bind_eq_ok {first : Take α} {next : α → Take β} {s t : Source} {b : β}
    (h : (first >>= next) s = .ok (b, t)) :
    ∃ a mid, first s = .ok (a, mid) ∧ next a mid = .ok (b, t) := by
  rw [bind_apply] at h
  cases hfirst : first s with
  | error e =>
    rw [hfirst] at h
    cases h
  | ok found =>
    rw [hfirst] at h
    exact ⟨found.1, found.2, rfl, h⟩

theorem orderly_pure (a : α) : (pure a : Take α).Orderly where
  ahead h := by
    cases h
    exact .refl _
  fault h := by cases h

theorem orderly_fail {e : ReadError} (noFrames : ¬ e.OfFrames) :
    (fail e : Take α).Orderly where
  ahead h := by cases h
  fault h := by
    cases h
    exact noFrames

theorem Orderly.bind {first : Take α} {next : α → Take β} (hfirst : first.Orderly)
    (hnext : ∀ a, (next a).Orderly) : (first >>= next).Orderly where
  ahead h := by
    obtain ⟨a, mid, hmid, hlast⟩ := bind_eq_ok h
    exact (hfirst.ahead hmid).trans ((hnext a).ahead hlast)
  fault {s e} h := by
    rw [bind_apply] at h
    cases hmid : first s with
    | error e' =>
      rw [hmid] at h
      cases h
      exact hfirst.fault hmid
    | ok found =>
      rw [hmid] at h
      exact (hnext found.1).fault h

theorem bytes_eq_ok {n : Nat} {s t : Source} {bs : List UInt8} (h : bytes n s = .ok (bs, t)) :
    ∃ data, s.buffer = some data ∧ n ≤ data.length - s.pos ∧ t = { s with pos := s.pos + n } := by
  unfold bytes Source.remaining at h
  cases hbuffer : s.buffer with
  | none =>
    simp only [hbuffer] at h
    cases h
  | some data =>
    simp only [hbuffer] at h
    split at h
    · rename_i enough
      cases h
      exact ⟨data, rfl, enough, rfl⟩
    · cases h

theorem orderly_bytes (n : Nat) : (bytes n).Orderly where
  ahead {s bs t} h := by
    obtain ⟨data, hbuffer, enough, rfl⟩ := bytes_eq_ok h
    refine ⟨rfl, Nat.le_add_right _ _, ?_⟩
    intro within
    have hpos : s.pos ≤ data.length := by simpa [Source.Within, hbuffer] using within
    simp only [Source.Within, hbuffer, Option.getD_some]
    omega
  fault {s e} h := by
    unfold bytes at h
    split at h
    · cases h
      exact not_false
    · split at h
      · cases h
      · cases h
        exact not_false

theorem orderly_word (size : Nat) : (word size).Orderly :=
  (orderly_bytes size).bind fun _ => orderly_pure _

theorem orderly_length (count : UInt32) (carried : Option LengthWidth) :
    (length count carried).Orderly := by
  cases carried with
  | none => exact orderly_pure _
  | some width => exact (orderly_word width.bytes).bind fun _ => orderly_pure _

theorem orderly_arrayLength (limits : Limits) (count : UInt32) (carried : Option LengthWidth) :
    (arrayLength limits count carried).Orderly := by
  refine (orderly_length count carried).bind fun n => ?_
  split
  · exact orderly_fail not_false
  · split
    · exact orderly_fail not_false
    · exact orderly_pure _

theorem orderly_primitive (p : Primitive) : p.read.Orderly :=
  (orderly_word p.size).bind fun _ => orderly_pure _

/-- A length that was accepted keeps the limit. -/
theorem arrayLength_le {limits : Limits} {count n : UInt32} {carried : Option LengthWidth}
    {s t : Source} (h : arrayLength limits count carried s = .ok (n, t)) :
    n ≤ limits.maxArrayLen := by
  obtain ⟨found, mid, _, hchecked⟩ := bind_eq_ok h
  by_cases long : count < found
  · rw [if_pos long] at hchecked
    cases hchecked
  · rw [if_neg long, Limits.checkArrayLen] at hchecked
    by_cases within : found ≤ limits.maxArrayLen
    · rw [if_pos within] at hchecked
      cases hchecked
      exact within
    · rw [if_neg within] at hchecked
      cases hchecked

end Take

/-- A scalar, or an array of scalars that is not too long: what a field can yield. -/
inductive Value.Flat (limits : Limits) : Value → Prop
  | scalar (s : Scalar) : Flat limits (.scalar s)
  | array {items : List Value} :
    items.length ≤ limits.maxArrayLen.toNat → (∀ v ∈ items, ∃ s, v = .scalar s) →
      Flat limits (.array items)

theorem Value.Flat.ne_record {limits : Limits} {v : Value} (flat : v.Flat limits)
    (fields : Fields) : v ≠ .record fields := by
  rintro rfl
  cases flat

namespace FieldType

variable {limits : Limits} {count : UInt32} {carried : Option LengthWidth} {type : FieldType}

theorem orderly_itemCount : (type.itemCount limits count carried).Orderly := by
  cases type with
  | primitive p => exact Take.orderly_arrayLength limits count carried
  | str | bytes =>
    cases carried with
    | none => exact Take.orderly_pure _
    | some width => exact Take.orderly_arrayLength limits count (some width)

theorem flat_gather {s t : Source} {n : UInt32} (field : List UInt8)
    (h : type.itemCount limits count carried s = .ok (n, t)) :
    (type.gather n.toNat field).Flat limits := by
  cases type with
  | primitive p =>
    have within : n.toNat ≤ limits.maxArrayLen.toNat := Take.arrayLength_le h
    refine .array ?_ ?_
    · simpa [Primitive.ofWords_eq] using within
    · intro v hv
      rw [Primitive.ofWords_eq, List.reverse_nil, List.nil_append] at hv
      obtain ⟨i, _, rfl⟩ := List.mem_map.mp hv
      exact ⟨_, rfl⟩
  | str => exact .scalar _
  | bytes => exact .scalar _

/-- A field is one primitive, or a number of items. -/
theorem scalar_or_items (type : FieldType) (count : UInt32) (carried : Option LengthWidth) :
    (∃ p, type = .primitive p ∧ count = 0 ∧ carried = none) ∨
      ∀ p, type = .primitive p → ¬ (count = 0 ∧ carried = none) := by
  by_cases scalar : ∃ p, type = .primitive p ∧ count = 0 ∧ carried = none
  · exact Or.inl scalar
  · exact Or.inr fun p hp hscalar => scalar ⟨p, hp, hscalar⟩

theorem read_primitive (limits : Limits) (p : Primitive) :
    (primitive p).read limits 0 none = do return .scalar (← p.read) := by
  simp only [read, and_self, if_true]

theorem orderly_read : (type.read limits count carried).Orderly := by
  rcases scalar_or_items type count carried with ⟨p, rfl, rfl, rfl⟩ | items
  · rw [read_primitive]
    exact (Take.orderly_primitive p).bind fun _ => Take.orderly_pure _
  · rw [read_items limits items]
    exact orderly_itemCount.bind fun n => (Take.orderly_bytes _).bind fun _ =>
      Take.orderly_pure _

/-- No field is read without a buffer. -/
theorem begun_of_read {s t : Source} {v : Value}
    (h : type.read limits count carried s = .ok (v, t)) : s.buffer.isSome := by
  rcases scalar_or_items type count carried with ⟨p, rfl, rfl, rfl⟩ | items
  · rw [read_primitive] at h
    obtain ⟨_, _, hscalar, _⟩ := Take.bind_eq_ok h
    obtain ⟨_, _, hword, _⟩ := Take.bind_eq_ok hscalar
    obtain ⟨_, _, hbytes, _⟩ := Take.bind_eq_ok hword
    obtain ⟨data, hbuffer, _⟩ := Take.bytes_eq_ok hbytes
    rw [hbuffer]
    rfl
  · rw [read_items limits items] at h
    obtain ⟨n, mid, hcount, hrest⟩ := Take.bind_eq_ok h
    obtain ⟨_, _, hbytes, _⟩ := Take.bind_eq_ok hrest
    obtain ⟨data, hbuffer, _⟩ := Take.bytes_eq_ok hbytes
    rw [← (orderly_itemCount.ahead hcount).buffer, hbuffer]
    rfl

theorem flat_of_read {s t : Source} {v : Value}
    (h : type.read limits count carried s = .ok (v, t)) : v.Flat limits := by
  rcases scalar_or_items type count carried with ⟨p, rfl, rfl, rfl⟩ | items
  · rw [read_primitive] at h
    obtain ⟨found, _, _, hpure⟩ := Take.bind_eq_ok h
    cases hpure
    exact .scalar found
  · rw [read_items limits items] at h
    obtain ⟨n, mid, hcount, hrest⟩ := Take.bind_eq_ok h
    obtain ⟨field, _, _, hpure⟩ := Take.bind_eq_ok hrest
    cases hpure
    exact flat_gather field hcount

end FieldType

end PortWire
