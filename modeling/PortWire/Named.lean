/-!
# Named choices

Finite types whose members are known by name on the outside, in program listings and in exchanged
documents alike. No two members share a name.
-/

namespace PortWire

class Named (α : Type) where
  all : List α
  name : α → String
  find_name (a : α) : all.find? (fun b => name b = name a) = some a := by
    intro a; cases a <;> rfl

namespace Named

variable {α : Type} [Named α]

def ofName? (s : String) : Option α :=
  (all : List α).find? fun a => name a = s

def names (α : Type) [Named α] : List String :=
  (all : List α).map name

theorem mem_all (a : α) : a ∈ (all : List α) :=
  List.mem_of_find?_eq_some (find_name a)

theorem name_mem_names (a : α) : name a ∈ names α :=
  List.mem_map_of_mem (mem_all a)

@[simp]
theorem ofName?_name (a : α) : ofName? (name a) = some a :=
  find_name a

end Named

end PortWire
