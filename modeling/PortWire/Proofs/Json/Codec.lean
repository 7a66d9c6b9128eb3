import Mathlib.Data.List.Forall2
import Mathlib.Data.List.Permutation
import PortWire.Codec.Laws
import PortWire.Json.Codec
import PortWire.Proofs.Json.Holding
import PortWire.Proofs.Json.Printing

/-!
# The codec obeys the laws

A part shows a document just if its tree stands for it and the document does not nest deeper than
there is room for. That is so whether the part was held or not, so a tag is found behind its content
as well as before it.
-/

namespace PortWire.Json

open Document

namespace View

/-! ## Lists and objects -/

theorem items?_eq_some_iff {v : View} {items : List {w : View // w.room < v.room}} :
    v.items? = some items ↔
      ∃ (opened : 0 < v.room) (js : List Json), v.json = .list js ∧
        items = js.map (v.content opened v.held) := by
  rw [items?]
  constructor
  · intro h
    split at h
    · next opened =>
      split at h
      · next js tree => exact ⟨opened, js, tree, (Option.some.inj h).symm⟩
      · cases h
    · cases h
  · rintro ⟨opened, js, tree, rfl⟩
    rw [dif_pos opened, tree]

theorem members?_eq_some_iff {v : View} {members : List (String × {w : View // w.room < v.room})} :
    v.members? = some members ↔
      ∃ (opened : 0 < v.room) (js : List (Text × Json)) (named : List (String × Json)),
        v.json = .object js ∧ named? js = some named ∧
          members = named.map fun m => (m.1, v.content opened v.held m.2) := by
  rw [members?]
  constructor
  · intro h
    split at h
    · next opened =>
      split at h
      · next js tree =>
        obtain ⟨named, hnamed, rfl⟩ := Option.map_eq_some_iff.mp h
        exact ⟨opened, js, named, tree, hnamed, rfl⟩
      · cases h
    · cases h
  · rintro ⟨opened, js, named, tree, hnamed, rfl⟩
    rw [dif_pos opened, tree]
    simp only [hnamed, Option.map_some]

theorem named?_cons {k : Text} {j : Json} {js : List (Text × Json)} {named : List (String × Json)} :
    named? ((k, j) :: js) = some named ↔
      ∃ name others, k.string? = some name ∧ named? js = some others ∧
        named = (name, j) :: others := by
  rw [named?, List.mapM_cons]
  constructor
  · intro h
    obtain ⟨first, hfirst, h⟩ := Option.bind_eq_some_iff.mp h
    obtain ⟨others, hothers, h⟩ := Option.bind_eq_some_iff.mp h
    obtain ⟨name, hname, rfl⟩ := Option.map_eq_some_iff.mp hfirst
    exact ⟨name, others, hname, hothers, (Option.some.inj h).symm⟩
  · rintro ⟨name, others, hname, hothers, rfl⟩
    refine Option.bind_eq_some_iff.mpr ⟨(name, j), ?_, ?_⟩
    · exact Option.map_eq_some_iff.mpr ⟨name, hname, rfl⟩
    · exact Option.bind_eq_some_iff.mpr ⟨others, hothers, rfl⟩

end View

/-! ## Parts -/

theorem isNull_eq_false {v : View} (present : v.json ≠ .null) : codec.isNull v = false := by
  have unfolded : codec.isNull v = v.isNull := rfl
  rw [unfolded, View.isNull]
  split
  · next null => exact absurd null present
  · rfl

theorem shows_leaf {t : Document} (leaf : t.depth = 0) (v : View) :
    codec.Shows v t ↔ v.json.Stands t := by
  obtain ⟨j, room, held⟩ := v
  cases t with
  | null =>
    constructor
    · intro h
      cases j <;> first | exact .null | cases h
    · rintro ⟨⟩
      rfl
  | bool b =>
    constructor
    · rintro ⟨_, h⟩
      cases j <;> cases h
      exact .bool b
    · rintro ⟨⟩
      exact ⟨rfl, rfl⟩
  | number n =>
    constructor
    · rintro ⟨_, h⟩
      cases j <;> first | exact .number h | cases h
    · intro stands
      obtain ⟨m, rfl, value⟩ := stands_number.mp stands
      exact ⟨rfl, value⟩
  | text s =>
    constructor
    · rintro ⟨_, h⟩
      cases j <;> first | exact .text h | cases h
    · intro stands
      obtain ⟨k, rfl, value⟩ := stands_text.mp stands
      exact ⟨rfl, value⟩
  | list items => cases leaf
  | object members => cases leaf

theorem shows_list {ts : List Document} {v : View} :
    codec.Shows v (.list ts) ↔
      0 < v.room ∧ ∃ js, v.json = .list js ∧ codec.ShowsItems (js.map v.inner) ts := by
  have inside : ∀ (opened : 0 < v.room) (js : List Json),
      (js.map (v.content opened v.held)).map Subtype.val = js.map v.inner :=
    fun _ _ => List.map_map
  constructor
  · rintro ⟨_, items, found, shown⟩
    obtain ⟨opened, js, tree, rfl⟩ := View.items?_eq_some_iff.mp found
    exact ⟨opened, js, tree, (congrArg (codec.ShowsItems · ts) (inside opened js)).mp shown⟩
  · rintro ⟨opened, js, tree, shown⟩
    refine ⟨isNull_eq_false (by rw [tree]; exact Json.noConfusion), _,
      View.items?_eq_some_iff.mpr ⟨opened, js, tree, rfl⟩, ?_⟩
    exact (congrArg (codec.ShowsItems · ts) (inside opened js)).mpr shown

theorem shows_object {ts : List (String × Document)} {v : View} :
    codec.Shows v (.object ts) ↔
      0 < v.room ∧ ∃ js named, v.json = .object js ∧ View.named? js = some named ∧
        codec.ShowsMembers (named.map fun m => (m.1, v.inner m.2)) ts := by
  have inside : ∀ (opened : 0 < v.room) (named : List (String × Json)),
      ((named.map fun m => (m.1, v.content opened v.held m.2)).map fun m => (m.1, m.2.val)) =
        named.map fun m => (m.1, v.inner m.2) :=
    fun _ _ => List.map_map
  constructor
  · rintro ⟨_, members, found, shown⟩
    obtain ⟨opened, js, named, tree, hnamed, rfl⟩ := View.members?_eq_some_iff.mp found
    exact ⟨opened, js, named, tree, hnamed,
      (congrArg (codec.ShowsMembers · ts) (inside opened named)).mp shown⟩
  · rintro ⟨opened, js, named, tree, hnamed, shown⟩
    refine ⟨isNull_eq_false (by rw [tree]; exact Json.noConfusion), _,
      View.members?_eq_some_iff.mpr ⟨opened, js, named, tree, hnamed, rfl⟩, ?_⟩
    exact (congrArg (codec.ShowsMembers · ts) (inside opened named)).mpr shown

mutual

/-- A part shows a document if its tree stands for it, and there is room for it. -/
theorem shows_iff : (t : Document) → (v : View) →
    (codec.Shows v t ↔ v.json.Stands t ∧ t.depth ≤ v.room)
  | .null, v => (shows_leaf rfl v).trans (and_iff_left (Nat.zero_le _)).symm
  | .bool _, v => (shows_leaf rfl v).trans (and_iff_left (Nat.zero_le _)).symm
  | .number _, v => (shows_leaf rfl v).trans (and_iff_left (Nat.zero_le _)).symm
  | .text _, v => (shows_leaf rfl v).trans (and_iff_left (Nat.zero_le _)).symm
  | .list ts, v => by
    rw [shows_list, stands_list, Document.depth]
    constructor
    · rintro ⟨opened, js, tree, shown⟩
      obtain ⟨stand, deep⟩ := (showsItems_iff ts js v).mp shown
      exact ⟨⟨js, tree, stand⟩, by omega⟩
    · rintro ⟨⟨js, tree, stand⟩, deep⟩
      exact ⟨by omega, js, tree, (showsItems_iff ts js v).mpr ⟨stand, by omega⟩⟩
  | .object ts, v => by
    rw [shows_object, stands_object, Document.depth]
    constructor
    · rintro ⟨opened, js, named, tree, hnamed, shown⟩
      obtain ⟨stand, deep⟩ := (showsMembers_iff ts js v).mp ⟨named, hnamed, shown⟩
      exact ⟨⟨js, tree, stand⟩, by omega⟩
    · rintro ⟨⟨js, tree, stand⟩, deep⟩
      obtain ⟨named, hnamed, shown⟩ := (showsMembers_iff ts js v).mpr ⟨stand, by omega⟩
      exact ⟨by omega, js, named, tree, hnamed, shown⟩

theorem showsItems_iff : (ts : List Document) → (js : List Json) → (v : View) →
    (codec.ShowsItems (js.map v.inner) ts ↔
      StandItems js ts ∧ Document.itemsDepth ts ≤ v.room - 1)
  | [], [], _ => ⟨fun _ => ⟨.nil, Nat.zero_le _⟩, fun _ => trivial⟩
  | [], _ :: _, _ => ⟨fun h => h.elim, fun h => by cases h.1⟩
  | _ :: _, [], _ => ⟨fun h => h.elim, fun h => by cases h.1⟩
  | t :: ts, j :: js, v => by
    have first := shows_iff t (v.inner j)
    have others := showsItems_iff ts js v
    rw [Document.itemsDepth, Nat.max_le]
    constructor
    · rintro ⟨shown, later⟩
      obtain ⟨stands, deep⟩ := first.mp shown
      obtain ⟨stand, below⟩ := others.mp later
      exact ⟨.cons stands stand, deep, below⟩
    · rintro ⟨_ | ⟨stands, stand⟩, deep, below⟩
      exact ⟨first.mpr ⟨stands, deep⟩, others.mpr ⟨stand, below⟩⟩

theorem showsMembers_iff : (ts : List (String × Document)) → (js : List (Text × Json)) →
    (v : View) →
    ((∃ named, View.named? js = some named ∧
        codec.ShowsMembers (named.map fun m => (m.1, v.inner m.2)) ts) ↔
      StandMembers js ts ∧ Document.membersDepth ts ≤ v.room - 1)
  | [], [], _ => ⟨fun _ => ⟨.nil, Nat.zero_le _⟩, fun _ => ⟨[], rfl, trivial⟩⟩
  | [], (_, _) :: _, _ => by
    constructor
    · rintro ⟨named, hnamed, h⟩
      obtain ⟨_, _, _, _, rfl⟩ := View.named?_cons.mp hnamed
      exact h.elim
    · rintro ⟨⟨⟩, _⟩
  | (_, _) :: _, [], _ => by
    constructor
    · rintro ⟨named, hnamed, h⟩
      cases hnamed
      exact h.elim
    · rintro ⟨⟨⟩, _⟩
  | (name, t) :: ts, (k, j) :: js, v => by
    have first := shows_iff t (v.inner j)
    have others := showsMembers_iff ts js v
    rw [Document.membersDepth, Nat.max_le]
    constructor
    · rintro ⟨named, hnamed, h⟩
      obtain ⟨s, rest, hs, hrest, rfl⟩ := View.named?_cons.mp hnamed
      obtain ⟨rfl, shown, later⟩ := h
      obtain ⟨stands, deep⟩ := first.mp shown
      obtain ⟨stand, below⟩ := others.mp ⟨rest, hrest, later⟩
      exact ⟨.cons hs stands stand, deep, below⟩
    · rintro ⟨_ | ⟨hs, stands, stand⟩, deep, below⟩
      obtain ⟨rest, hrest, later⟩ := others.mpr ⟨stand, below⟩
      exact ⟨_, View.named?_cons.mpr ⟨name, rest, hs, hrest, rfl⟩, rfl,
        first.mpr ⟨stands, deep⟩, later⟩

end

/-! ## Structures, choices and tagged values -/

/-- Of the members of one name there is just the one that the document has, if it has one. -/
theorem filter_named {v : View} (name : String) {named : List (String × Json)}
    {members : List (String × Document)} (distinct : (members.map Prod.fst).Nodup)
    (shown : codec.ShowsMembers (named.map fun m => (m.1, v.inner m.2)) members) :
    (name ∉ members.map Prod.fst ∧ (named.filter fun m => m.1 = name) = []) ∨
      ∃ j t, (named.filter fun m => m.1 = name) = [(name, j)] ∧ (name, t) ∈ members ∧
        codec.Shows (v.inner j) t := by
  induction members generalizing named with
  | nil =>
    cases named with
    | nil => exact Or.inl ⟨List.not_mem_nil, rfl⟩
    | cons m rest => exact shown.elim
  | cons m members ih =>
    obtain ⟨fresh, apart⟩ := List.nodup_cons.mp distinct
    obtain ⟨key, t⟩ := m
    cases named with
    | nil => exact shown.elim
    | cons n named =>
      obtain ⟨key', j⟩ := n
      obtain ⟨rfl, first, later⟩ := shown
      by_cases same : key' = name
      · subst same
        have others : (named.filter fun m => m.1 = key') = [] := by
          rcases ih apart later with ⟨_, empty⟩ | ⟨_, u, _, member, _⟩
          · exact empty
          · exact absurd (List.mem_map_of_mem member) fresh
        refine Or.inr ⟨j, t, ?_, List.mem_cons_self, first⟩
        rw [List.filter_cons_of_pos (by simp), others]
      · rw [List.filter_cons_of_neg (by simpa using same)]
        rcases ih apart later with ⟨absent, empty⟩ | ⟨k, u, found, member, shows⟩
        · refine Or.inl ⟨?_, empty⟩
          rw [List.map_cons, List.mem_cons, not_or]
          exact ⟨Ne.symm same, absent⟩
        · exact Or.inr ⟨k, u, found, List.mem_cons_of_mem _ member, shows⟩

theorem exists_given {v : View} {named : List (String × Json)}
    {members : List (String × Document)} (distinct : (members.map Prod.fst).Nodup)
    (shown : codec.ShowsMembers (named.map fun m => (m.1, v.inner m.2)) members) {f : Field}
    (complete : f.absence = .refused → f.name ∈ members.map Prod.fst) :
    ∃ d, v.given? named f = some d ∧ codec.GivenFor members f d := by
  rcases filter_named f.name distinct shown with
    ⟨absent, empty⟩ | ⟨j, t, found, member, shows⟩
  · refine ⟨none, ?_, absent⟩
    rw [View.given?, empty]
    exact if_neg fun refused => absent (complete refused)
  · refine ⟨some (v.inner j), ?_, t, member, shows⟩
    rw [View.given?, found]

theorem exists_given_all {v : View} {named : List (String × Json)}
    {members : List (String × Document)} (distinct : (members.map Prod.fst).Nodup)
    (shown : codec.ShowsMembers (named.map fun m => (m.1, v.inner m.2)) members)
    {fields : List Field}
    (complete : ∀ f ∈ fields, f.absence = .refused → f.name ∈ members.map Prod.fst) :
    ∃ given, fields.mapM (v.given? named) = some given ∧ codec.Given members fields given := by
  induction fields with
  | nil => exact ⟨[], rfl, trivial⟩
  | cons f fields ih =>
    obtain ⟨first, others⟩ := List.forall_mem_cons.mp complete
    obtain ⟨d, found, here⟩ := exists_given distinct shown first
    obtain ⟨given, foundAll, later⟩ := ih others
    refine ⟨d :: given, ?_, here, later⟩
    rw [List.mapM_cons, found, foundAll]
    rfl

theorem exists_fields {fields : List Field} {members : List (String × Document)} {v : View}
    (shown : codec.Shows v (.object members)) (distinct : (members.map Prod.fst).Nodup)
    (complete : ∀ f ∈ fields, f.absence = .refused → f.name ∈ members.map Prod.fst) :
    ∃ given, v.fields? fields = some given ∧ codec.Given members fields given := by
  obtain ⟨opened, js, named, tree, hnamed, shown⟩ := shows_object.mp shown
  obtain ⟨given, found, all⟩ := exists_given_all distinct shown complete
  refine ⟨given, ?_, all⟩
  simp only [View.fields?, if_neg (Nat.ne_of_gt opened), tree, hnamed, Option.bind_some, found]

theorem choice?_shown {names : List String} {name : String} {v : View}
    (shown : codec.Shows v (.text name)) (known : name ∈ names) :
    View.choice? names v = some name := by
  obtain ⟨j, room, held⟩ := v
  obtain ⟨t, rfl, text⟩ := stands_text.mp ((shows_leaf rfl _).mp shown)
  simp only [View.choice?, text, Option.bind_some, if_pos known]

theorem showsMembers_pair {v : View} {named : List (String × Json)} {a b : String}
    {t u : Document}
    (shown : codec.ShowsMembers (named.map fun m => (m.1, v.inner m.2)) [(a, t), (b, u)]) :
    ∃ j k, named = [(a, j), (b, k)] ∧ codec.Shows (v.inner j) t ∧ codec.Shows (v.inner k) u := by
  match named, shown with
  | [(_, j), (_, k)], ⟨rfl, first, rfl, second, _⟩ => exact ⟨j, k, rfl, first, second⟩

theorem exists_tagged {tagKey contentKey tag : String} {names : List String}
    {members : List (String × Document)} {content : Document} {v : View}
    (shown : codec.Shows v (.object members)) (apart : tagKey ≠ contentKey) (known : tag ∈ names)
    (perm : members.Perm [(tagKey, .text tag), (contentKey, content)]) :
    ∃ x, v.tagged? tagKey contentKey names = some (tag, x) ∧ codec.Shows x.val content := by
  obtain ⟨opened, js, named, tree, hnamed, shown⟩ := shows_object.mp shown
  rcases List.perm_pair.mp perm with rfl | rfl
  · obtain ⟨first, second, rfl, tagShown, contentShown⟩ := showsMembers_pair shown
    refine ⟨v.content opened v.held second, ?_, contentShown⟩
    have chosen := choice?_shown tagShown known
    simp [View.tagged?, opened, tree, hnamed, apart, chosen]
  · obtain ⟨first, second, rfl, contentShown, tagShown⟩ := showsMembers_pair shown
    obtain ⟨stands, deep⟩ := (shows_iff _ _).mp contentShown
    have same : first.depth = content.depth := stands.depth_eq
    have room : first.depth < v.room := same ▸ Nat.lt_of_le_pred opened deep
    have holdable : first.isHoldable = true := stands.isHoldable
    refine ⟨v.content opened true first, ?_, (shows_iff _ _).mpr ⟨stands, deep⟩⟩
    have chosen := choice?_shown tagShown known
    simp [View.tagged?, opened, tree, hnamed, apart, apart.symm, chosen, holdable, room]

instance : codec.Standard where
  exists_render t := ⟨_, rfl, spells_print t⟩
  exists_parse := by
    intro t s spells shallow
    obtain ⟨j, parsed, stands⟩ := exists_parse? spells
    refine ⟨⟨j, Codec.recursionLimit - 1, false⟩, congrArg (Option.map _) parsed, ?_⟩
    exact (shows_iff _ _).mpr ⟨stands, Nat.le_pred_of_lt shallow⟩
  room_parse := by
    intro s d h
    obtain ⟨j, _, rfl⟩ := Option.map_eq_some_iff.mp h
    exact Nat.sub_lt (by decide) Nat.one_pos
  room_items := by
    intro v h
    obtain ⟨items, found⟩ := Option.isSome_iff_exists.mp h
    obtain ⟨opened, _⟩ := View.items?_eq_some_iff.mp found
    exact opened
  room_members := by
    intro v h
    obtain ⟨members, found⟩ := Option.isSome_iff_exists.mp h
    obtain ⟨opened, _⟩ := View.members?_eq_some_iff.mp found
    exact opened
  collect_leaf := sorted_leaf
  collect_list items := congrArg Document.list (sortedItems_eq_map items)
  collect_object _ := ⟨_, rfl, sortedMembers_perm _⟩

instance : codec.Derived where
  ofChoice_eq _ := rfl
  ofFields_eq _ := rfl
  ofTagged_eq _ _ _ _ := rfl
  choice_shown := choice?_shown
  exists_fields := exists_fields
  exists_tagged := exists_tagged

end PortWire.Json
