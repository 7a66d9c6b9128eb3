import PortWire.Proofs.Bridge.Replies
import PortWire.Proofs.FileMap.Planning
import PortWire.Proofs.Json.Codec

/-!
# Plans through the bridge

A plan is granted just if the layout is valid and no file is refused, and then lists every file of
the request once, placed. Otherwise the reply says what failed first and lists nothing. A request
counts by what it is read as, however it is written.
-/

namespace PortWire

open Codec Form

namespace PlanRequest

/-- The members of an object that asks for the plan. Others may stand among them. -/
structure WrittenIn (C : Codec) (members : List (String × Document)) (r : PlanRequest) :
    Prop where
  distinct : (members.map Prod.fst).Nodup
  files : ("files", C.write r.files) ∈ members
  layout : C.Offers members "layout" none r.layout

theorem read_writtenIn {C : Codec} [C.Derived] {members : List (String × Document)}
    {r : PlanRequest} (written : WrittenIn C members r) {d : C.Part}
    (shown : C.Shows d (.object members)) : read? C d = some r := by
  have complete : ∀ f ∈ documentFields, f.absence = .refused → f.name ∈ members.map Prod.fst := by
    intro f hf refused
    simp only [documentFields, List.mem_cons, List.not_mem_nil, or_false] at hf
    rcases hf with rfl | rfl
    · exact List.mem_map_of_mem written.files
    · cases refused
  obtain ⟨_, found, given⟩ := Derived.exists_fields shown written.distinct complete
  simp only [documentFields, given_cons, given_nil] at given
  obtain ⟨filesPart, _, rfl, files, layoutPart, _, rfl, layout, rfl⟩ := given
  have read : ∀ x, C.Shows x (C.write r.layout) → C.read? x = some r.layout :=
    fun _ => read_option fun _ => ofFields_ne_null
  simp only [read?, found, required?_given written.distinct files written.files,
    orElse?_given written.distinct layout written.layout read]
  rfl

end PlanRequest

namespace Bridge

open FileMap

variable {C : Codec}

/-! ## Listed files -/

/-- The document is an object of the fields of a file, as the reply to a plan lists it. -/
def ListsFile (C : Codec) (t : Document) (info : FileInfo) : Prop :=
  t.Gives [
    ("address", C.write info.address),
    ("length", C.write info.length),
    ("name", .text info.name),
    ("digest_type", .text (Named.name info.digest))]

/-- The document is a list of just these files in their order. -/
def ListsFiles (C : Codec) (t : Document) (infos : List FileInfo) : Prop :=
  ∃ items, t = .list items ∧ List.Forall₂ (ListsFile C) items infos

theorem listsFile_collect [C.Standard] [C.Derived] (info : FileInfo) :
    ListsFile C (C.collect (C.write info)) info := by
  have written : C.write info = .object [
      ("address", C.write info.address),
      ("length", C.write info.length),
      ("name", C.write info.name),
      ("digest_type", C.write info.digest)] := Derived.ofFields_eq _
  have digest : C.write info.digest = .text (Named.name info.digest) := Derived.ofChoice_eq _
  have gives : (C.collect (C.write info)).Gives [
      ("address", C.collect (C.write info.address)),
      ("length", C.collect (C.write info.length)),
      ("name", C.collect (C.write info.name)),
      ("digest_type", C.collect (C.write info.digest))] := by
    rw [written]
    exact Standard.collect_object (by simp)
  have leaf : ∀ t : Document, t.depth = 0 → C.collect t = t := fun _ => Standard.collect_leaf
  rw [leaf _ (depth_write_leaf info.address), leaf _ (depth_write_leaf info.length),
    leaf _ (depth_write_leaf info.name), leaf _ (depth_write_leaf info.digest), digest] at gives
  exact gives

theorem listsFiles_collect [C.Standard] [C.Derived] (infos : List FileInfo) :
    ListsFiles C (C.collect (C.write infos)) infos := by
  refine ⟨_, Standard.collect_list _, ?_⟩
  rw [List.map_map, List.forall₂_map_left_iff, List.forall₂_same]
  exact fun info _ => listsFile_collect info

/-! ## Plans -/

/-- The layout is valid, and placing the files one after the other in a new map refuses none. -/
def Placeable (layout : Layout) (files : List File) : Prop :=
  layout.validate = .ok () ∧ ∃ reached, insertAll files { layout := layout } = .ok reached

theorem answer_of_placed {r : PlanRequest} {reached : FileMap}
    (valid : (r.layout.getD {}).validate = .ok ())
    (placed : insertAll r.files { layout := r.layout.getD {} } = .ok reached) :
    r.answer C = .ok [("files", C.write reached.infos)] := by
  rw [PlanRequest.answer, ofLayout]
  simp only [valid, placed]

theorem answer_of_failure {r : PlanRequest} {e : PlacementError}
    (failure : FirstFailure (r.layout.getD {}) r.files e) :
    r.answer C = .error (.ofReport e) := by
  rw [PlanRequest.answer, ofLayout]
  rcases failure with flawed | ⟨valid, refused⟩
  · simp only [flawed]
  · simp only [valid, insertAll_eq_error_iff.mpr refused]

theorem placeable_or_failure (layout : Layout) (files : List File) :
    Placeable layout files ∨ ∃ e, FirstFailure layout files e := by
  cases valid : layout.validate with
  | error e => exact Or.inr ⟨e, Or.inl valid⟩
  | ok _ =>
    cases placed : insertAll files { layout := layout } with
    | error e => exact Or.inr ⟨e, Or.inr ⟨valid, insertAll_eq_error_iff.mp placed⟩⟩
    | ok reached => exact Or.inl ⟨valid, reached, placed⟩

/-- A reply delivers one document, since no text spells two. -/
theorem Delivers.unique {reply : Option (List UInt8)} {t u : Document} (ht : Delivers reply t)
    (hu : Delivers reply u) : t = u := by
  obtain ⟨text, given, spells⟩ := ht
  obtain ⟨text', given', spells'⟩ := hu
  have same : Utf8.decode? (Utf8.encode text) = Utf8.decode? (Utf8.encode text') :=
    congrArg Utf8.decode? (Option.some.inj (given.symm.trans given'))
  rw [Utf8.decode?_encode, Utf8.decode?_encode] at same
  obtain rfl := Option.some.inj same
  exact spells.unique spells'

theorem Refuses.not_grants {reply : Option (List UInt8)} {kind message : String}
    (refuses : Refuses reply kind message) (fields : List (String × Document)) :
    ¬ Grants reply fields := by
  rintro ⟨t, delivers, yes⟩
  obtain ⟨u, error, delivers', no, _⟩ := refuses
  obtain rfl := delivers.unique delivers'
  obtain ⟨members, rfl, perm⟩ := yes
  obtain ⟨_, same, perm'⟩ := no
  obtain rfl := Document.object.inj same
  have granted : ("ok", Document.bool true) ∈ members := perm.mem_iff.mpr List.mem_cons_self
  have mark := perm'.mem_iff.mp granted
  simp at mark

/-- The reply to a plan says yes just if all files can be placed, and then lists each of them once,
in the order of their addresses. Otherwise it gives the error that came first, and no files. -/
theorem plan_lists_placed_files (C : Codec) [C.Standard] [C.Derived] (parserText : String)
    {request : List UInt8} {files : List File} {layout? : Option Layout}
    (asks : Asks C (PlanRequest.read? C) request ⟨files, layout?⟩) :
    let layout := layout?.getD {}
    let reply := call C parserText .plan (some request)
    ((∃ fields, Grants reply fields) ↔ Placeable layout files) ∧
    (Placeable layout files ∨ ∃ e, FirstFailure layout files e) ∧
    (∀ e, FirstFailure layout files e →
      Refuses reply (Named.name (Reportable.kind e)) (Reportable.message e)) ∧
    (Placeable layout files → ∃ listed infos, Grants reply [("files", listed)] ∧
      ListsFiles C listed infos ∧ Planned layout files infos) := by
  intro layout reply
  have answered := respond_of_asks .plan (fun _ => rfl) asks
  have refused : ∀ e, FirstFailure layout files e →
      Refuses reply (Named.name (Reportable.kind e)) (Reportable.message e) := by
    intro e failure
    rw [answer_of_failure (r := ⟨files, layout?⟩) failure] at answered
    exact refuses_of_report parserText answered
  have granted : Placeable layout files → ∃ listed infos, Grants reply [("files", listed)] ∧
      ListsFiles C listed infos ∧ Planned layout files infos := by
    rintro ⟨valid, reached, placed⟩
    rw [answer_of_placed (r := ⟨files, layout?⟩) valid placed] at answered
    exact ⟨_, reached.infos, grants_call parserText answered, listsFiles_collect _,
      planned_insertAll valid placed⟩
  refine ⟨⟨?_, ?_⟩, placeable_or_failure layout files, refused, granted⟩
  · rintro ⟨fields, grants⟩
    rcases placeable_or_failure layout files with placeable | ⟨e, failure⟩
    · exact placeable
    · exact absurd grants ((refused e failure).not_grants fields)
  · intro placeable
    obtain ⟨listed, _, grants, _⟩ := granted placeable
    exact ⟨_, grants⟩

/-- A file with a flag on its address, between two that have none; the layout is left out. -/
theorem three_files_planned :
    let files : List File := [
      ⟨{ length := 0x401, name := "first" }, .inData⟩,
      ⟨{ address := 0x8000_0A00, length := 1, name := "remote" }, .unknown⟩,
      ⟨{ length := 1, name := "last" }, .outData⟩]
    let members := [("files", Json.codec.write files)]
    let request := Utf8.encode (Json.print (.object members))
    Asks Json.codec (PlanRequest.read? Json.codec) request ⟨files, none⟩ ∧ Placeable {} files ∧
      ∃ listed infos,
        Grants (call Json.codec "" .plan (some request)) [("files", listed)] ∧
        ListsFiles Json.codec listed infos ∧ Planned {} files infos := by
  intro files members request
  have written : PlanRequest.WrittenIn Json.codec members ⟨files, none⟩ :=
    ⟨by simp [members], by simp [members], Or.inr ⟨by simp [members], rfl⟩⟩
  have asks : Asks Json.codec (PlanRequest.read? Json.codec) request ⟨files, none⟩ :=
    asks_of_spells (Json.spells_print _) (by decide) fun _ => PlanRequest.read_writtenIn written
  have accepted : (insertAll files { layout := {} }).isOk := by decide
  obtain ⟨reached, placed⟩ := exists_of_isOk accepted
  have placeable : Placeable {} files := ⟨rfl, reached, placed⟩
  exact ⟨asks, placeable, (plan_lists_placed_files Json.codec "" asks).2.2.2 placeable⟩

end Bridge

end PortWire
