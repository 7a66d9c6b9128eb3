import PortWire.Json.Parse
import PortWire.Proofs.Json.Scanning

/-!
# Parsing texts of documents

A text that spells a document is parsed to a tree that stands for the document: it has the same
shape, its strings have the texts of the document, and its numbers the values. A tree stands for one
document only, so no text spells two.
-/

namespace PortWire.Json

open Document

/-! ## Trees -/

mutual

/-- The tree stands for the document. -/
inductive Stands : Json → Document → Prop
  | null : Stands .null .null
  | bool (b : Bool) : Stands (.bool b) (.bool b)
  | number {m : Numeral} {n : Number} : m.int? = some n.value → Stands (.number m) (.number n)
  | text {t : Text} {s : String} : t.string? = some s → Stands (.text t) (.text s)
  | list {js : List Json} {ts : List Document} : StandItems js ts → Stands (.list js) (.list ts)
  | object {js : List (Text × Json)} {ts : List (String × Document)} : StandMembers js ts →
      Stands (.object js) (.object ts)

inductive StandItems : List Json → List Document → Prop
  | nil : StandItems [] []
  | cons {j : Json} {t : Document} {js : List Json} {ts : List Document} : Stands j t →
      StandItems js ts → StandItems (j :: js) (t :: ts)

inductive StandMembers : List (Text × Json) → List (String × Document) → Prop
  | nil : StandMembers [] []
  | cons {k : Text} {name : String} {j : Json} {t : Document} {js : List (Text × Json)}
      {ts : List (String × Document)} : k.string? = some name → Stands j t → StandMembers js ts →
      StandMembers ((k, j) :: js) ((name, t) :: ts)

end

theorem stands_number {j : Json} {n : Number} :
    j.Stands (.number n) ↔ ∃ m : Numeral, j = .number m ∧ m.int? = some n.value := by
  constructor
  · intro h
    cases h with
    | number value => exact ⟨_, rfl, value⟩
  · rintro ⟨m, rfl, value⟩
    exact .number value

theorem stands_text {j : Json} {s : String} :
    j.Stands (.text s) ↔ ∃ t : Text, j = .text t ∧ t.string? = some s := by
  constructor
  · intro h
    cases h with
    | text value => exact ⟨_, rfl, value⟩
  · rintro ⟨t, rfl, value⟩
    exact .text value

theorem stands_list {j : Json} {ts : List Document} :
    j.Stands (.list ts) ↔ ∃ js, j = .list js ∧ StandItems js ts := by
  constructor
  · intro h
    cases h with
    | list stand => exact ⟨_, rfl, stand⟩
  · rintro ⟨js, rfl, stand⟩
    exact .list stand

theorem stands_object {j : Json} {ts : List (String × Document)} :
    j.Stands (.object ts) ↔ ∃ js, j = .object js ∧ StandMembers js ts := by
  constructor
  · intro h
    cases h with
    | object stand => exact ⟨_, rfl, stand⟩
  · rintro ⟨js, rfl, stand⟩
    exact .object stand

theorem Number.eq_of_value {m n : Number} (h : m.value = n.value) : m = n := by
  obtain ⟨value, _, _⟩ := m
  cases n
  cases h
  rfl

mutual

/-- The document is known by any tree that stands for it. -/
theorem Stands.unique : ∀ {j : Json} {t u : Document}, j.Stands t → j.Stands u → t = u
  | _, _, _, .null, .null => rfl
  | _, _, _, .bool _, .bool _ => rfl
  | _, _, _, .number ht, .number hu =>
    congrArg Document.number (Number.eq_of_value (Option.some.inj (ht.symm.trans hu)))
  | _, _, _, .text ht, .text hu => congrArg Document.text (Option.some.inj (ht.symm.trans hu))
  | _, _, _, .list ht, .list hu => congrArg Document.list (ht.unique hu)
  | _, _, _, .object ht, .object hu => congrArg Document.object (ht.unique hu)

theorem StandItems.unique : ∀ {js : List Json} {ts us : List Document}, StandItems js ts →
    StandItems js us → ts = us
  | _, _, _, .nil, .nil => rfl
  | _, _, _, .cons first others, .cons first' others' => by
    rw [first.unique first', others.unique others']

theorem StandMembers.unique : ∀ {js : List (Text × Json)} {ts us : List (String × Document)},
    StandMembers js ts → StandMembers js us → ts = us
  | _, _, _, .nil, .nil => rfl
  | _, _, _, .cons name first others, .cons name' first' others' => by
    rw [Option.some.inj (name.symm.trans name'), first.unique first', others.unique others']

end

/-! ## Tokens of trees -/

mutual

def tokens : Json → List Token
  | .null => [.null]
  | .bool b => [.bool b]
  | .number n => [.number n]
  | .text t => [.text t]
  | .list [] => [.listOpen, .listClose]
  | .list (j :: rest) => .listOpen :: (j.tokens ++ moreItems rest)
  | .object [] => [.objectOpen, .objectClose]
  | .object ((k, j) :: rest) => .objectOpen :: .text k :: .colon :: (j.tokens ++ moreMembers rest)

/-- The items behind the first one, and the end of the list. -/
def moreItems : List Json → List Token
  | [] => [.listClose]
  | j :: rest => .comma :: (j.tokens ++ moreItems rest)

/-- The members behind the first one, and the end of the object. -/
def moreMembers : List (Text × Json) → List Token
  | [] => [.objectClose]
  | (k, j) :: rest => .comma :: .text k :: .colon :: (j.tokens ++ moreMembers rest)

end

namespace Assembly

theorem run_cons {a b : Assembly} {t : Token} (h : a.step t = some b) (ts : List Token) :
    a.run (t :: ts) = b.run ts := by
  rw [run, h]

/-- The first item of a list is read like any other value, since none begins with the end of the
list. -/
theorem run_firstItem (j : Json) (stack : List Open) (ts : List Token) :
    run ⟨stack, .firstItem⟩ (j.tokens ++ ts) =
      run ⟨.list [] :: stack, .value⟩ (j.tokens ++ ts) := by
  cases j with
  | null => rfl
  | bool b => rfl
  | number n => rfl
  | text t => rfl
  | list items => cases items <;> rfl
  | object members => cases members <;> rfl

mutual

/-- The tokens of a value put it together wherever one is due. -/
theorem run_tokens : (j : Json) → (stack : List Open) → (ts : List Token) →
    run ⟨stack, .value⟩ (j.tokens ++ ts) = run ⟨stack, .behind j⟩ ts
  | .null, _, _ => rfl
  | .bool _, _, _ => rfl
  | .number _, _, _ => rfl
  | .text _, _, _ => rfl
  | .list [], _, _ => rfl
  | .object [], _, _ => rfl
  | .list (j :: rest), stack, ts => by
    have opened : run ⟨stack, .value⟩ ((Json.list (j :: rest)).tokens ++ ts) =
        run ⟨stack, .firstItem⟩ (j.tokens ++ (moreItems rest ++ ts)) := by
      rw [tokens, List.cons_append, List.append_assoc, run_cons rfl]
    rw [opened, run_firstItem, run_tokens j, run_moreItems rest]
    rfl
  | .object ((k, j) :: rest), stack, ts => by
    have opened : run ⟨stack, .value⟩ ((Json.object ((k, j) :: rest)).tokens ++ ts) =
        run ⟨.member [] k :: stack, .value⟩ (j.tokens ++ (moreMembers rest ++ ts)) := by
      simp only [tokens, List.cons_append, List.append_assoc]
      rfl
    rw [opened, run_tokens j, run_moreMembers rest]
    rfl

/-- A list goes on behind the item `j`, with `items` before it. -/
theorem run_moreItems : (rest : List Json) → (items : List Json) → (j : Json) →
    (stack : List Open) → (ts : List Token) →
    run ⟨.list items :: stack, .behind j⟩ (moreItems rest ++ ts) =
      run ⟨stack, .behind (.list (items.reverse ++ j :: rest))⟩ ts
  | [], items, j, stack, ts => by
    have closed : Json.list (items.reverse ++ [j]) = .list (j :: items).reverse := by
      rw [List.reverse_cons]
    rw [closed]
    rfl
  | next :: rest, items, j, stack, ts => by
    have comma : run ⟨.list items :: stack, .behind j⟩ (moreItems (next :: rest) ++ ts) =
        run ⟨.list (j :: items) :: stack, .value⟩ (next.tokens ++ (moreItems rest ++ ts)) := by
      simp only [moreItems, List.cons_append, List.append_assoc]
      rfl
    rw [comma, run_tokens next, run_moreItems rest, List.reverse_cons, List.append_assoc,
      List.singleton_append]

theorem run_moreMembers : (rest : List (Text × Json)) → (members : List (Text × Json)) →
    (key : Text) → (j : Json) → (stack : List Open) → (ts : List Token) →
    run ⟨.member members key :: stack, .behind j⟩ (moreMembers rest ++ ts) =
      run ⟨stack, .behind (.object (members.reverse ++ (key, j) :: rest))⟩ ts
  | [], members, key, j, stack, ts => by
    have closed : Json.object (members.reverse ++ [(key, j)]) =
        .object ((key, j) :: members).reverse := by
      rw [List.reverse_cons]
    rw [closed]
    rfl
  | (k, next) :: rest, members, key, j, stack, ts => by
    have comma : run ⟨.member members key :: stack, .behind j⟩
        (moreMembers ((k, next) :: rest) ++ ts) =
        run ⟨.member ((key, j) :: members) k :: stack, .value⟩
          (next.tokens ++ (moreMembers rest ++ ts)) := by
      simp only [moreMembers, List.cons_append, List.append_assoc]
      rfl
    rw [comma, run_tokens next, run_moreMembers rest, List.reverse_cons, List.append_assoc,
      List.singleton_append]

end

end Assembly

theorem ofTokens?_tokens (j : Json) : ofTokens? j.tokens = some j := by
  have built := Assembly.run_tokens j [] []
  rw [List.append_nil] at built
  rw [ofTokens?, Assembly.initial, built, Assembly.run, Option.bind_some, Assembly.finish?]

/-! ## Texts -/

/-- A word of letters ends where no letter follows. -/
theorem readAs_word (c : Char) (seen : List Char) {t : Token}
    (opens : ∀ found rest, Scan.run found .blank (c :: seen ++ rest) =
      Scan.run found (.word (c :: seen).reverse) rest)
    (known : Scan.word? (c :: seen) = some t) : ReadAs (c :: seen) [t] := by
  intro found rest delimited
  rw [opens, Scan.run_word_end _ (by rw [List.reverse_reverse]; exact known) delimited]
  rfl

theorem blank_nil : Blank [] := by
  intro c hc
  cases hc

theorem readAs_listClose : ReadAs [']'] [.listClose] :=
  .cons (fun _ => rfl) (.blank blank_nil)

theorem readAs_objectClose : ReadAs ['}'] [.objectClose] :=
  .cons (fun _ => rfl) (.blank blank_nil)

theorem readAs_member {ks cs : List Char} {k : Text} {ts : List Token}
    (key : ReadAs ks [.text k]) (behind : ReadAs cs ts) :
    ReadAs (ks ++ ':' :: cs) (.text k :: .colon :: ts) :=
  key.append (.cons (fun _ => rfl) behind) fun _ _ => delimited_cons (by decide) _

mutual

/-- Characters that spell a document are the tokens of a tree that stands for it. -/
theorem exists_tree : ∀ {t : Document} {cs : List Char}, Spells t cs →
    ∃ j : Json, j.Stands t ∧ ReadAs cs j.tokens
  | _, _, .null => ⟨.null, .null, readAs_word _ _ (fun _ _ => rfl) rfl⟩
  | _, _, .yes => ⟨.bool true, .bool true, readAs_word _ _ (fun _ _ => rfl) rfl⟩
  | _, _, .no => ⟨.bool false, .bool false, readAs_word _ _ (fun _ _ => rfl) rfl⟩
  | _, _, .number n =>
    ⟨.number (.ofInt n.value), .number (Numeral.int?_ofInt n.value),
      fun found _ delimited => Scan.run_number n found delimited⟩
  | _, _, .text chars => by
    obtain ⟨t, value, read⟩ := ReadAs.text chars
    exact ⟨.text t, .text value, read⟩
  | _, _, .emptyList blank =>
    ⟨.list [], .list .nil, .cons (fun _ => rfl) ((ReadAs.blank blank).append readAs_listClose
      fun _ _ => delimited_cons (by decide) _)⟩
  | _, _, .list items => by
    obtain ⟨j, rest, stand, read⟩ := exists_items items
    exact ⟨.list (j :: rest), .list stand, .cons (fun _ => rfl) read⟩
  | _, _, .emptyObject blank =>
    ⟨.object [], .object .nil, .cons (fun _ => rfl) ((ReadAs.blank blank).append
      readAs_objectClose fun _ _ => delimited_cons (by decide) _)⟩
  | _, _, .object members => by
    obtain ⟨k, j, rest, stand, read⟩ := exists_members members
    exact ⟨.object ((k, j) :: rest), .object stand, .cons (fun _ => rfl) read⟩
  | _, _, .padded before inside behind => by
    obtain ⟨j, stands, read⟩ := exists_tree inside
    exact ⟨j, stands, read.padded before behind⟩

theorem exists_items : ∀ {items : List Document} {cs : List Char}, SpellsItems items cs →
    ∃ (j : Json) (rest : List Json), StandItems (j :: rest) items ∧
      ReadAs (cs ++ [']']) (j.tokens ++ moreItems rest)
  | _, _, .last item => by
    obtain ⟨j, stands, read⟩ := exists_tree item
    exact ⟨j, [], .cons stands .nil,
      read.append readAs_listClose fun _ _ => delimited_cons (by decide) _⟩
  | _, _, .more item others => by
    obtain ⟨j, stands, read⟩ := exists_tree item
    obtain ⟨next, rest, stand, readRest⟩ := exists_items others
    refine ⟨j, next :: rest, .cons stands stand, ?_⟩
    rw [List.append_assoc, List.cons_append]
    exact read.append (.cons (fun _ => rfl) readRest) fun _ _ => delimited_cons (by decide) _

theorem exists_members : ∀ {members : List (String × Document)} {cs : List Char},
    SpellsMembers members cs →
    ∃ (k : Text) (j : Json) (rest : List (Text × Json)), StandMembers ((k, j) :: rest) members ∧
      ReadAs (cs ++ ['}']) (.text k :: .colon :: (j.tokens ++ moreMembers rest))
  | _, _, .last name item => by
    obtain ⟨key, standsKey, readKey⟩ := exists_tree name
    obtain ⟨k, rfl, text⟩ := stands_text.mp standsKey
    obtain ⟨j, stands, read⟩ := exists_tree item
    refine ⟨k, j, [], .cons text stands .nil, ?_⟩
    rw [List.append_assoc, List.cons_append]
    exact readAs_member readKey (read.append readAs_objectClose
      fun _ _ => delimited_cons (by decide) _)
  | _, _, .more name item others => by
    obtain ⟨key, standsKey, readKey⟩ := exists_tree name
    obtain ⟨k, rfl, text⟩ := stands_text.mp standsKey
    obtain ⟨j, stands, read⟩ := exists_tree item
    obtain ⟨nextKey, next, rest, stand, readRest⟩ := exists_members others
    refine ⟨k, j, (nextKey, next) :: rest, .cons text stands stand, ?_⟩
    rw [List.append_assoc, List.append_assoc, List.cons_append, List.cons_append]
    exact readAs_member readKey (read.append (.cons (fun _ => rfl) readRest)
      fun _ _ => delimited_cons (by decide) _)

end

/-- A text that spells a document is parsed to a tree that stands for it. -/
theorem exists_parse? {t : Document} {s : String} (spells : t.Spells s.toList) :
    ∃ j : Json, parse? s = some j ∧ j.Stands t := by
  obtain ⟨j, stands, read⟩ := exists_tree spells
  refine ⟨j, ?_, stands⟩
  rw [parse?, ofChars?_of_readAs read, Option.bind_some, ofTokens?_tokens]

end PortWire.Json

/-- No text spells two documents. -/
theorem PortWire.Document.Spells.unique {t u : Document} {s : String} (ht : t.Spells s.toList)
    (hu : u.Spells s.toList) : t = u := by
  obtain ⟨j, parsed, stands⟩ := Json.exists_parse? ht
  obtain ⟨k, parsed', stands'⟩ := Json.exists_parse? hu
  obtain rfl := Option.some.inj (parsed.symm.trans parsed')
  exact stands.unique stands'
