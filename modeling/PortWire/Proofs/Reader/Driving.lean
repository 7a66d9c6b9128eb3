import PortWire.Proofs.Reader.Schema

/-!
# Driving a reader through a schema

The frames of a reader stand for the records and arrays that the recursion is in the middle of.
Driving a schema on top of any stack therefore hands down the value of the schema and leaves the
rest of the stack to what waits there. Nothing is assumed of that stack.
-/

namespace PortWire

namespace Frame

/-- A frame with nothing but its value. -/
def holding (v : Value) : Frame := { value := some v }

/-- An array of `n` records that has some of them. When it has all of them it is handed down. -/
def awaiting (n : UInt32) (items : List Value) (below : List Frame) : List Frame :=
  if items.length < n.toNat then
    emptyRecord :: { holding (.array items) with arrayLen := n } :: below
  else
    settle (holding (.array items)) below

theorem settle_field (key : String) (last : Bool) (v : Value) (fields : Fields)
    (below : List Frame) :
    settle (holding v)
        ({ holding (.record fields) with key := some key, last := last } :: below) =
      if last then settle (holding (.record (Fields.insert key v fields))) below
      else holding (.record (Fields.insert key v fields)) :: below := by
  rw [settle]
  cases last <;> rfl

theorem settle_item {n : UInt32} {items : List Value} (waiting : items.length < n.toNat) (v : Value)
    (below : List Frame) :
    settle (holding v) ({ holding (.array items) with arrayLen := n } :: below) =
      awaiting n (items ++ [v]) below := by
  have positive : n ≠ 0 := by
    rintro rfl
    exact absurd waiting (Nat.not_lt_zero _)
  rw [settle, awaiting]
  simp [gathers, positive, holding]

end Frame

namespace Reader

variable {α β : Type} {limits : Limits} {data : List UInt8} {depth : Nat}

/-- How driving a reader compares with decoding. If it succeeds it leaves what the decoder found,
and if it fails it fails as the decoder does or for want of frames. -/
inductive Agrees (limits : Limits) (data : List UInt8) (depth : Nat) (frames : α → List Frame) :
    Except ReadError (α × Source) → Except ReadError Unit × Reader → Prop
  | done (a : α) (pos : Nat) :
    Agrees limits data depth frames (.ok (a, ⟨some data, pos⟩))
      (.ok (), ⟨limits, ⟨some data, pos⟩, frames a⟩)
  | failed (e : ReadError) (r : Reader) :
    Agrees limits data depth frames (.error e) (.error e, r)
  | tooDeep (decoded : Except ReadError (α × Source)) (r : Reader) :
    limits.maxDepth.toNat < depth →
      Agrees limits data depth frames decoded (.error (.limit (.depth limits.maxDepth)), r)

theorem Agrees.mono {frames : α → List Frame} {decoded : Except ReadError (α × Source)}
    {driven : Except ReadError Unit × Reader} {depth' : Nat} (deeper : depth ≤ depth')
    (h : Agrees limits data depth frames decoded driven) :
    Agrees limits data depth' frames decoded driven := by
  cases h with
  | done a pos => exact .done a pos
  | failed e r => exact .failed e r
  | tooDeep decoded r beyond => exact .tooDeep decoded r (by omega)

theorem Agrees.andThen {first second : ReaderOp Unit} {r : Reader} {step : Take α}
    {source : Source} {next : α → Take β} {f : α → List Frame} {g : β → List Frame}
    (hfirst : Agrees limits data depth f (step source) (first r))
    (hsecond : ∀ a pos, step source = .ok (a, ⟨some data, pos⟩) →
      Agrees limits data depth g (next a ⟨some data, pos⟩)
        (second ⟨limits, ⟨some data, pos⟩, f a⟩)) :
    Agrees limits data depth g ((step >>= next) source) (andThen first second r) := by
  rw [Take.bind_apply, Reader.andThen]
  revert hfirst hsecond
  generalize step source = decoded
  generalize first r = driven
  intro hfirst hsecond
  cases hfirst with
  | done a pos => exact hsecond a pos rfl
  | failed e r => exact .failed e r
  | tooDeep decoded r beyond => exact .tooDeep _ r beyond

theorem Agrees.map {step : Take α} {source : Source} {driven : Except ReadError Unit × Reader}
    {f : β → List Frame} (g : α → β)
    (h : Agrees limits data depth (fun a => f (g a)) (step source) driven) :
    Agrees limits data depth f ((do return g (← step)) source) driven := by
  rw [Take.bind_apply]
  revert h
  generalize step source = decoded
  intro h
  cases h with
  | done a pos => exact .done (g a) pos
  | failed e r => exact .failed e r
  | tooDeep decoded r beyond => exact .tooDeep _ r beyond

theorem agrees_readField (type : FieldType) (count : UInt32) (carried : Option LengthWidth)
    (below : List Frame) (pos : Nat) :
    Agrees limits data depth (fun v => Frame.settle (.holding v) below)
      (type.read limits count carried ⟨some data, pos⟩)
      (readField type count carried ⟨limits, ⟨some data, pos⟩, {} :: below⟩) := by
  simp only [readField, take]
  cases hread : type.read limits count carried ⟨some data, pos⟩ with
  | error e => exact .failed e _
  | ok result =>
    obtain ⟨v, source⟩ := result
    obtain ⟨pos', rfl⟩ := FieldType.source_of_read hread
    exact .done v pos'

/-- A record frame that a field is selected in has room for the frame of the field. -/
theorem agrees_select {key : String} {last : Bool} {op : ReaderOp Unit}
    {decoded : Except ReadError (α × Source)} {frames : α → List Frame} {fields : Fields}
    {below : List Frame} {pos : Nat} (room : below.length + 2 ≤ depth)
    (h : Agrees limits data depth frames decoded (op ⟨limits, ⟨some data, pos⟩,
      {} :: { Frame.holding (.record fields) with key := some key, last := last } :: below⟩)) :
    Agrees limits data depth frames decoded
      (andThen (select key last) op
        ⟨limits, ⟨some data, pos⟩, Frame.holding (.record fields) :: below⟩) := by
  simp only [andThen, select, Limits.checkDepth, List.length_cons]
  by_cases fits : below.length + 1 + 1 ≤ limits.maxDepth.toNat
  · rw [if_pos fits]
    exact h
  · rw [if_neg fits]
    exact .tooDeep _ _ (by omega)

theorem agrees_enterRecords (extent : Extent) (below : List Frame) (pos : Nat)
    (room : below.length + 2 ≤ depth) :
    Agrees limits data depth (fun n => Frame.awaiting n [] below)
      (Take.arrayLength limits extent.count extent.carried ⟨some data, pos⟩)
      (enterRecord extent.count extent.carried ⟨limits, ⟨some data, pos⟩, {} :: below⟩) := by
  simp only [enterRecord, extent.array, if_false, Limits.checkDepth, List.length_cons, take]
  by_cases fits : below.length + 1 + 1 ≤ limits.maxDepth.toNat
  · rw [if_pos fits]
    cases hlength : Take.arrayLength limits extent.count extent.carried ⟨some data, pos⟩ with
    | error e => exact .failed e _
    | ok result =>
      obtain ⟨n, source⟩ := result
      obtain ⟨_, pos', rfl⟩ := Take.length_of_arrayLength hlength
      -- An empty array is finished at once and opens no record.
      by_cases empty : n = 0
      · subst empty
        exact .done 0 pos'
      · have opened : Frame.awaiting n [] below =
            Frame.emptyRecord :: { Frame.holding (.array []) with arrayLen := n } :: below := by
          rw [Frame.awaiting, if_pos]
          exact Nat.pos_of_ne_zero fun zero => empty (UInt32.toNat_inj.mp zero)
        simp only [if_neg empty]
        have done : Agrees limits data depth (fun n => Frame.awaiting n [] below)
            (.ok (n, ⟨some data, pos'⟩))
            (.ok (), ⟨limits, ⟨some data, pos'⟩, Frame.awaiting n [] below⟩) := .done n pos'
        rw [opened] at done
        exact done
  · rw [if_neg fits]
    exact .tooDeep _ _ (by omega)

end Reader

open Reader

variable {limits : Limits} {data : List UInt8}

theorem Schema.depth_pos (s : Schema) : 0 < s.depth := by
  cases s with
  | field => exact Nat.one_pos
  | record columns =>
    rw [Schema.depth]
    cases columns <;> simp only [Columns.depth] <;> omega
  | records extent columns =>
    rw [Schema.depth]
    omega

theorem Extent.announced_eq {extent : Extent} {n : UInt32} {source source' : Source}
    (h : Take.length extent.count extent.carried source = .ok (n, source')) :
    extent.announced source = n.toNat := by
  rw [announced, h]

/-- Driving the columns of a record on top of any stack. -/
def Columns.Simulated (limits : Limits) (data : List UInt8) (columns : Columns) : Prop :=
  ∀ (seen : List (String × Value)) (below : List Frame) (pos : Nat),
    Agrees limits data (below.length + columns.depth)
      (fun pairs => Frame.settle (.holding (recordOf (seen ++ pairs))) below)
      (columns.decode limits ⟨some data, pos⟩)
      (columns.drive ⟨limits, ⟨some data, pos⟩, .holding (recordOf seen) :: below⟩)

/-- Driving a schema on top of any stack. -/
def Schema.Simulated (limits : Limits) (data : List UInt8) (s : Schema) : Prop :=
  ∀ (below : List Frame) (pos : Nat),
    Agrees limits data (below.length + s.depth)
      (fun v => Frame.settle (.holding v) below)
      (s.decode limits ⟨some data, pos⟩)
      (s.drive ⟨limits, ⟨some data, pos⟩, {} :: below⟩)

theorem simulated_field (type : FieldType) (count : UInt32) (carried : Option LengthWidth) :
    (Schema.field type count carried).Simulated limits data := by
  intro below pos
  exact agrees_readField type count carried below pos

theorem simulated_record {columns : Columns} (h : columns.Simulated limits data) :
    (Schema.record columns).Simulated limits data := by
  intro below pos
  exact Agrees.map recordOf (h [] below pos)

theorem simulated_last (key : String) {s : Schema} (h : s.Simulated limits data) :
    (Columns.last key s).Simulated limits data := by
  intro seen below pos
  have depth_pos := s.depth_pos
  refine agrees_select (by rw [Columns.depth]; omega) ?_
  refine Agrees.map (fun v => [(key, v)]) ?_
  -- The last field hands its record down, to whatever waits below.
  have hfield :=
    h ({ Frame.holding (recordOf seen) with key := some key, last := true } :: below) pos
  simp only [recordOf, Frame.settle_field, if_true, Fields.insert_ofPairs] at hfield
  refine hfield.mono ?_
  rw [Columns.depth, List.length_cons]
  omega

theorem simulated_more (key : String) {s : Schema} {rest : Columns}
    (h : s.Simulated limits data) (hrest : rest.Simulated limits data) :
    (Columns.more key s rest).Simulated limits data := by
  intro seen below pos
  have depth_pos := s.depth_pos
  refine agrees_select (by rw [Columns.depth]; omega) ?_
  have hfield :=
    h ({ Frame.holding (recordOf seen) with key := some key, last := false } :: below) pos
  simp only [recordOf, Frame.settle_field, Bool.false_eq_true, if_false,
    Fields.insert_ofPairs] at hfield
  refine Agrees.andThen (hfield.mono ?_) ?_
  · rw [Columns.depth, List.length_cons]
    omega
  · intro v pos' _
    refine Agrees.map (fun pairs => (key, v) :: pairs) ?_
    have hcolumns := hrest (seen ++ [(key, v)]) below pos'
    simp only [List.append_assoc, List.singleton_append] at hcolumns
    refine hcolumns.mono ?_
    rw [Columns.depth]
    omega

/-- The records of an array, from any of them on. -/
theorem simulated_times {columns : Columns} (h : columns.Simulated limits data) (n : UInt32)
    (k : Nat) (items : List Value) (total : items.length + k = n.toNat) (below : List Frame)
    (pos : Nat) :
    Agrees limits data (below.length + (1 + columns.depth))
      (fun records => Frame.settle (.holding (.array (items ++ records.map recordOf))) below)
      ((columns.decode limits).times k ⟨some data, pos⟩)
      (Reader.times columns.drive k ⟨limits, ⟨some data, pos⟩, Frame.awaiting n items below⟩) := by
  -- On the records still to come. Each of them extends the array, so the items are general.
  induction k generalizing items pos with
  | zero =>
    have complete : Frame.awaiting n items below =
        Frame.settle (.holding (.array (items ++ [].map recordOf))) below := by
      rw [Frame.awaiting, if_neg (by omega), List.map_nil, List.append_nil]
    rw [complete]
    exact .done [] pos
  | succ k ih =>
    have waiting : items.length < n.toNat := by omega
    have hrecord := h [] ({ Frame.holding (.array items) with arrayLen := n } :: below) pos
    simp only [List.nil_append, Frame.settle_item waiting] at hrecord
    rw [Frame.awaiting, if_pos waiting]
    refine Agrees.andThen (hrecord.mono ?_) ?_
    · rw [List.length_cons]
      omega
    · intro pairs pos' _
      refine Agrees.map (fun records => pairs :: records) ?_
      have hrest := ih (items ++ [recordOf pairs]) (by simp; omega) pos'
      simp only [List.append_assoc, List.singleton_append] at hrest
      exact hrest

theorem simulated_records (extent : Extent) {columns : Columns}
    (h : columns.Simulated limits data) :
    (Schema.records extent columns).Simulated limits data := by
  intro below pos
  have depth_pos : 0 < columns.depth := (Schema.record columns).depth_pos
  refine Agrees.andThen (agrees_enterRecords extent below pos ?_) ?_
  · rw [Schema.depth]
    omega
  · intro n pos' hlength
    obtain ⟨announced, _⟩ := Take.length_of_arrayLength hlength
    rw [Extent.announced_eq announced]
    refine Agrees.map (fun records => Value.array (List.map recordOf records)) ?_
    exact simulated_times h n n.toNat [] (Nat.zero_add _) below pos'

mutual

theorem Schema.simulated : (s : Schema) → s.Simulated limits data
  | .field type count carried => simulated_field type count carried
  | .record columns => simulated_record columns.simulated
  | .records extent columns => simulated_records extent columns.simulated

theorem Columns.simulated : (columns : Columns) → columns.Simulated limits data
  | .last key s => simulated_last key s.simulated
  | .more key s rest => simulated_more key s.simulated rest.simulated

end

/-- A reader that has just begun and is driven through a schema ends with a single frame, which
holds what the recursion finds in the same bytes. Driving fails only as the recursion does, or
because the schema nests deeper than the limit. -/
theorem Schema.drive_eq_decode (s : Schema) (data : List UInt8) (r : Reader) :
    match s.drive (r.start data) with
    | (.ok (), driven) =>
      ∃ v pos, s.decode r.limits ⟨some data, 0⟩ = .ok (v, ⟨some data, pos⟩) ∧
        driven.source = ⟨some data, pos⟩ ∧ driven.frames.length = 1 ∧
        ∀ unwind, (driven.takeValue unwind).1 = some v
    | (.error e, _) =>
      s.decode r.limits ⟨some data, 0⟩ = .error e ∨
        e = .limit (.depth r.limits.maxDepth) ∧ r.limits.maxDepth.toNat < s.depth := by
  have h : Agrees r.limits data s.depth (fun v => [.holding v])
      (s.decode r.limits ⟨some data, 0⟩) (s.drive (r.start data)) := by
    have hdepth : ([] : List Frame).length + s.depth = s.depth := Nat.zero_add _
    exact (s.simulated [] 0).mono (Nat.le_of_eq hdepth)
  revert h
  generalize s.decode r.limits ⟨some data, 0⟩ = decoded
  generalize s.drive (r.start data) = driven
  intro h
  cases h with
  | done v pos =>
    refine ⟨v, pos, rfl, rfl, rfl, ?_⟩
    intro unwind
    cases unwind <;> rfl
  | failed e failed => exact Or.inl rfl
  | tooDeep decoded failed beyond => exact Or.inr ⟨rfl, beyond⟩

-- The name "id" comes twice, and the last bytes finish an array and two records at a time.
example :
    let rows : Schema := .records ⟨3, some .u8, by decide⟩ (.last "x" (.field .str 2 none))
    let s : Schema := .record (.more "id" (.field (.primitive .u8) 0 none)
      (.more "rows" rows (.last "id" (.record (.last "none" rows)))))
    ((s.drive (Reader.start [7, 2, 0x61, 0, 0x62, 0x63, 0] {})).2.takeValue false).1 =
      some (.record [("id", .record [("none", .array [])]),
        ("rows", .array [.record [("x", .scalar (.str "a"))],
          .record [("x", .scalar (.str "bc"))]])]) := by
  cbv

end PortWire
