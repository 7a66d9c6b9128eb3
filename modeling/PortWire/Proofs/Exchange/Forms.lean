import Mathlib.Data.List.Forall2
import PortWire.Codec.Laws
import PortWire.Exchange.Form
import PortWire.Proofs.Document

/-!
# Forms that lose nothing

A form is lawful if what it writes nests to a known depth only, and if the value is read back from
every part that holds what it writes. Numbers that fit their word, names of choices, lists and
structures of lawful forms are lawful; for structures all that has to be known is that their fields
have different names.
-/

namespace PortWire

theorem mapM_eq_some_iff {α β : Type} {f : α → Option β} {xs : List α} {ys : List β} :
    xs.mapM f = some ys ↔ List.Forall₂ (fun x y => f x = some y) xs ys := by
  induction xs generalizing ys with
  | nil =>
    rw [List.mapM_nil, List.forall₂_nil_left_iff]
    exact ⟨fun h => (Option.some.inj h).symm, fun h => congrArg some h.symm⟩
  | cons x rest ih =>
    rw [List.mapM_cons, List.forall₂_cons_left_iff]
    constructor
    · intro h
      obtain ⟨y, first, h⟩ := Option.bind_eq_some_iff.mp h
      obtain ⟨others, later, h⟩ := Option.bind_eq_some_iff.mp h
      exact ⟨y, others, first, ih.mp later, (Option.some.inj h).symm⟩
    · rintro ⟨y, others, first, later, rfl⟩
      rw [first, ih.mpr later]
      rfl

theorem exists_of_mem_mapM {α β : Type} {f : α → Option β} {xs : List α} {ys : List β}
    (h : xs.mapM f = some ys) {y : β} (hy : y ∈ ys) : ∃ x, f x = some y := by
  rw [mapM_eq_some_iff] at h
  induction h with
  | nil => cases hy
  | cons first _ ih =>
    rcases List.mem_cons.mp hy with rfl | later
    · exact ⟨_, first⟩
    · exact ih later

class Form.Lawful (C : Codec) (α : Type) [Form C α] (levels : outParam Nat) : Prop where
  depth_le (a : α) : (C.write a).depth ≤ levels
  read_shown {a : α} {d : C.Part} : C.Shows d (C.write a) → C.read? d = some a

namespace Codec

open Form

variable {C : Codec} {α : Type}

/-! ## Parts -/

theorem isNull_of_shows {d : C.Part} {t : Document} (shown : C.Shows d t) (present : t ≠ .null) :
    C.isNull d = false := by
  cases t with
  | null => exact absurd rfl present
  | bool b => exact shown.1
  | number n => exact shown.1
  | text s => exact shown.1
  | list items => exact shown.1
  | object members => exact shown.1

theorem showsItems_nil {ds : List C.Part} : C.ShowsItems ds [] ↔ ds = [] := by
  cases ds <;> simp [ShowsItems]

theorem showsItems_cons {ds : List C.Part} {t : Document} {rest : List Document} :
    C.ShowsItems ds (t :: rest) ↔
      ∃ d others, ds = d :: others ∧ C.Shows d t ∧ C.ShowsItems others rest := by
  constructor
  · intro h
    cases ds with
    | nil => cases h
    | cons d others => exact ⟨d, others, rfl, h⟩
  · rintro ⟨d, others, rfl, h⟩
    exact h

theorem showsItems_iff {ds : List C.Part} {ts : List Document} :
    C.ShowsItems ds ts ↔ List.Forall₂ C.Shows ds ts := by
  induction ts generalizing ds with
  | nil => rw [showsItems_nil, List.forall₂_nil_right_iff]
  | cons t rest ih =>
    rw [showsItems_cons, List.forall₂_cons_right_iff]
    constructor
    · rintro ⟨d, others, rfl, first, later⟩
      exact ⟨d, others, first, ih.mp later, rfl⟩
    · rintro ⟨d, others, first, later, rfl⟩
      exact ⟨d, others, rfl, first, ih.mpr later⟩

theorem depth_write_le {n m : Nat} [Form C α] [Lawful C α n] (a : α) (le : n ≤ m) :
    (C.write a).depth ≤ m :=
  Nat.le_trans (Lawful.depth_le a) le

theorem depth_write_leaf [Form C α] [Lawful C α 0] (a : α) : (C.write a).depth = 0 :=
  Nat.le_zero.mp (Lawful.depth_le a)

/-! ## Fields -/

theorem eq_of_mem_of_nodup {members : List (String × Document)}
    (distinct : (members.map Prod.fst).Nodup) {name : String} {t u : Document}
    (ht : (name, t) ∈ members) (hu : (name, u) ∈ members) : t = u := by
  induction members with
  | nil => cases ht
  | cons m rest ih =>
    obtain ⟨fresh, distinct⟩ := List.nodup_cons.mp distinct
    rcases List.mem_cons.mp ht with rfl | later
    · rcases List.mem_cons.mp hu with same | other
      · exact (Prod.mk.inj same).2.symm
      · exact absurd (List.mem_map.mpr ⟨(name, u), other, rfl⟩) fresh
    · rcases List.mem_cons.mp hu with rfl | other
      · exact absurd (List.mem_map.mpr ⟨(name, t), later, rfl⟩) fresh
      · exact ih distinct later other

theorem given_of_mem {members : List (String × Document)}
    (distinct : (members.map Prod.fst).Nodup) {fields : List Field}
    {written : List (String × Document)} (named : written.map Prod.fst = fields.map Field.name)
    (present : ∀ w ∈ written, w ∈ members) {given : List (Option C.Part)}
    (h : C.Given members fields given) :
    ∃ ds : List C.Part, given = ds.map some ∧ C.ShowsItems ds (written.map Prod.snd) := by
  induction fields generalizing written given with
  | nil =>
    obtain rfl := List.map_eq_nil_iff.mp named
    cases given with
    | nil => exact ⟨[], rfl, trivial⟩
    | cons d given => cases h
  | cons f fields ih =>
    obtain ⟨⟨name, t⟩, written, rfl, rfl, named'⟩ := List.map_eq_cons_iff.mp named
    obtain ⟨first, others⟩ := List.forall_mem_cons.mp present
    cases given with
    | nil => cases h
    | cons d given =>
      obtain ⟨here, later⟩ := h
      obtain ⟨ds, rfl, shown⟩ := ih named' others later
      cases d with
      | none => exact absurd (List.mem_map_of_mem first) here
      | some d =>
        obtain ⟨u, member, shows⟩ := here
        obtain rfl := eq_of_mem_of_nodup distinct first member
        exact ⟨d :: ds, rfl, shows, shown⟩

section Derived

variable [C.Derived]

/-- The fields of a structure are all found among the members of an object. -/
theorem fields_of_mem (fields : List Field) {members written : List (String × Document)}
    {d : C.Part} (shown : C.Shows d (.object members))
    (distinct : (members.map Prod.fst).Nodup)
    (named : written.map Prod.fst = fields.map Field.name)
    (present : ∀ w ∈ written, w ∈ members) :
    ∃ ds : List C.Part, C.fields? fields d = some (ds.map some) ∧
      C.ShowsItems ds (written.map Prod.snd) := by
  have complete : ∀ f ∈ fields, f.absence = .refused → f.name ∈ members.map Prod.fst := by
    intro f hf _
    have known : f.name ∈ written.map Prod.fst := named ▸ List.mem_map_of_mem hf
    obtain ⟨w, hw, name⟩ := List.mem_map.mp known
    exact name ▸ List.mem_map_of_mem (present w hw)
  obtain ⟨given, found, h⟩ := Derived.exists_fields shown distinct complete
  obtain ⟨ds, rfl, shows⟩ := given_of_mem distinct named present h
  exact ⟨ds, found, shows⟩

/-- A written structure gives back all of its fields. -/
theorem fields_written (fields : List Field) {written : List (String × Document)} {d : C.Part}
    (shown : C.Shows d (C.ofFields written)) (distinct : (fields.map Field.name).Nodup)
    (named : written.map Prod.fst = fields.map Field.name) :
    ∃ ds : List C.Part, C.fields? fields d = some (ds.map some) ∧
      C.ShowsItems ds (written.map Prod.snd) := by
  rw [Derived.ofFields_eq] at shown
  exact fields_of_mem fields shown (named ▸ distinct) named fun _ member => member

theorem depth_ofFields_le {fields : List (String × Document)} {n : Nat}
    (all : ∀ f ∈ fields, f.2.depth ≤ n) : (C.ofFields fields).depth ≤ n + 1 := by
  rw [Derived.ofFields_eq]
  exact Document.depth_object_le all

theorem ofFields_ne_null {fields : List (String × Document)} : C.ofFields fields ≠ .null := by
  rw [Derived.ofFields_eq]
  exact Document.noConfusion

end Derived

theorem required?_shown {n : Nat} [Form C α] [Lawful C α n] {a : α} {d : C.Part}
    (shown : C.Shows d (C.write a)) : C.required? (some d) = some a :=
  Lawful.read_shown shown

theorem orElse?_shown {n : Nat} [Form C α] [Lawful C α n] {a : α} {d : C.Part} (fallback : α)
    (shown : C.Shows d (C.write a)) : C.orElse? fallback (some d) = some a :=
  Lawful.read_shown shown

/-- An optional value can be told from an absent one as long as no value is written as null. -/
theorem read_option {n : Nat} [Form C α] [Lawful C α n] (present : ∀ a : α, C.write a ≠ .null)
    {o : Option α} {d : C.Part} (shown : C.Shows d (C.write o)) : C.read? d = some o := by
  have read : C.read? (α := Option α) d =
    if C.isNull d then some none else (C.read? d).map some := rfl
  cases o with
  | none =>
    have null : C.isNull d = true := shown
    rw [read, if_pos null]
  | some a =>
    have inside : C.Shows d (C.write a) := shown
    rw [read, isNull_of_shows inside (present a), if_neg Bool.false_ne_true,
      Lawful.read_shown inside, Option.map_some]

theorem orElse?_option {n : Nat} [Form C α] [Lawful C α n] (present : ∀ a : α, C.write a ≠ .null)
    {o : Option α} {d : C.Part} (fallback : Option α) (shown : C.Shows d (C.write o)) :
    C.orElse? fallback (some d) = some o :=
  read_option present shown

theorem depth_option_le {n m : Nat} [Form C α] [Lawful C α n] (o : Option α) (le : n ≤ m) :
    (C.write o).depth ≤ m := by
  cases o with
  | none => exact Nat.zero_le m
  | some a => exact depth_write_le a le

/-! ## Numbers -/

theorem intWithin?_shown {low high : Int} {n : Document.Number} {d : C.Part}
    (shown : C.Shows d (.number n)) (h : low ≤ n.value ∧ n.value ≤ high) :
    C.intWithin? low high d = some n.value := by
  rw [intWithin?, shown.2, Option.bind_some, if_pos h]

theorem word?_shown {bits k : Nat} {n : Document.Number} {d : C.Part}
    (shown : C.Shows d (.number n)) (value : n.value = k) (small : k < 1 <<< bits) :
    C.word? bits d = some k := by
  have within : (0 : Int) ≤ n.value ∧ n.value ≤ ((1 <<< bits : Nat) : Int) - 1 := by omega
  rw [word?, intWithin?_shown shown within, Option.map_some, value, Int.toNat_natCast]

end Codec

open Codec

variable {C : Codec} {α : Type}

namespace Form

theorem lawful_word {bits : Nat} {toUInt64 : α → UInt64} {ofNat : Nat → α} [Form C α]
    (written : ∀ a : α, C.write a = .number (.ofUInt64 (toUInt64 a)))
    (read : ∀ d : C.Part, C.read? d = (C.word? bits d).map ofNat)
    (small : ∀ a, (toUInt64 a).toNat < 1 <<< bits)
    (back : ∀ a, ofNat (toUInt64 a).toNat = a) : Lawful C α 0 where
  depth_le a := by
    rw [written]
    exact Nat.le_refl 0
  read_shown := by
    intro a d shown
    rw [written] at shown
    rw [read, word?_shown shown rfl (small a), Option.map_some, back]

instance : Lawful C UInt8 0 :=
  lawful_word (fun _ => rfl) (fun _ => rfl) UInt8.toNat_lt fun _ => UInt8.ofNat_toNat

instance : Lawful C UInt16 0 :=
  lawful_word (fun _ => rfl) (fun _ => rfl) UInt16.toNat_lt fun _ => UInt16.ofNat_toNat

instance : Lawful C UInt32 0 :=
  lawful_word (fun _ => rfl) (fun _ => rfl) UInt32.toNat_lt fun _ => UInt32.ofNat_toNat

instance : Lawful C UInt64 0 :=
  have written : ∀ n : UInt64, C.write n = .number (.ofUInt64 (id n)) := fun _ => rfl
  lawful_word written (fun _ => rfl) UInt64.toNat_lt fun _ => UInt64.ofNat_toNat

instance : Lawful C Int32 0 where
  depth_le _ := Nat.le_refl 0
  read_shown := by
    intro n d shown
    have read : C.read? (α := Int32) d = (C.intWithin?
      Int32.minValue.toInt Int32.maxValue.toInt d).map Int32.ofInt := rfl
    have value : n.toInt64.toInt = n.toInt := Int32.toInt_toInt64 n
    have within : Int32.minValue.toInt ≤ n.toInt64.toInt ∧
        n.toInt64.toInt ≤ Int32.maxValue.toInt := by
      rw [value]
      exact ⟨n.minValue_le_toInt, n.toInt_le⟩
    rw [read, intWithin?_shown shown within, Option.map_some]
    exact congrArg some ((congrArg Int32.ofInt value).trans n.ofInt_toInt)

instance : Lawful C Int64 0 where
  depth_le _ := Nat.le_refl 0
  read_shown := by
    intro n d shown
    have read : C.read? (α := Int64) d = (C.intWithin?
      Int64.minValue.toInt Int64.maxValue.toInt d).map Int64.ofInt := rfl
    rw [read, intWithin?_shown shown ⟨n.minValue_le_toInt, n.toInt_le⟩, Option.map_some]
    exact congrArg some n.ofInt_toInt

instance : Lawful C Bool 0 where
  depth_le _ := Nat.le_refl 0
  read_shown shown := shown.2

instance : Lawful C String 0 where
  depth_le _ := Nat.le_refl 0
  read_shown shown := shown.2

instance [C.Derived] [Named α] : Lawful C α 0 where
  depth_le a := by
    have written : C.write a = C.ofChoice (Named.name a) := rfl
    rw [written, Derived.ofChoice_eq]
    exact Nat.le_refl 0
  read_shown := by
    intro a d shown
    have written : C.write a = C.ofChoice (Named.name a) := rfl
    have read : C.read? (α := α) d = (C.choice? (Named.names α) d).bind Named.ofName? := rfl
    rw [written, Derived.ofChoice_eq] at shown
    rw [read, Derived.choice_shown shown (Named.name_mem_names a), Option.bind_some,
      Named.ofName?_name]

instance {n : Nat} [Form C α] [Lawful C α n] : Lawful C (List α) (n + 1) where
  depth_le items := by
    refine Document.depth_list_le fun t ht => ?_
    obtain ⟨a, _, rfl⟩ := List.mem_map.mp ht
    exact Lawful.depth_le a
  read_shown := by
    intro items d ⟨_, parts, found, shown⟩
    have read : C.read? (α := List α) d =
      (C.items? d).bind fun items => items.mapM fun x => C.read? x.val := rfl
    have shows := List.forall₂_map_left_iff.mp
      (List.forall₂_map_right_iff.mp (showsItems_iff.mp shown))
    rw [read, found, Option.bind_some, mapM_eq_some_iff]
    exact shows.imp fun _ _ h => Lawful.read_shown h

end Form

end PortWire
