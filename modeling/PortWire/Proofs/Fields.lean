import Mathlib.Data.List.Basic
import Mathlib.Data.List.Induction
import PortWire.Value

/-!
# Fields in order of their first coming

Inserting fields one after the other lists every name once, where it first came, with the value that
it came with last. This is said here without the insertions. Nothing is assumed of the names.
-/

namespace PortWire.Fields

/-- The names in the order in which they first come, each with its last value. -/
def ofPairs (pairs : List (String × Value)) : Fields :=
  (pairs.map Prod.fst).eraseDups.filterMap fun key =>
    (pairs.reverse.lookup key).map fun v => (key, v)

theorem eraseDups_snoc (keys : List String) (key : String) :
    (keys ++ [key]).eraseDups =
      if key ∈ keys then keys.eraseDups else keys.eraseDups ++ [key] := by
  rw [List.eraseDups_append]
  by_cases known : key ∈ keys
  · simp [List.removeAll, known]
  · simp [List.removeAll, known, List.eraseDups_cons]

theorem nodup_eraseDups (keys : List String) : keys.eraseDups.Nodup := by
  induction keys using List.reverseRecOn with
  | nil => simp
  | append_singleton keys key ih =>
    rw [eraseDups_snoc]
    split
    · exact ih
    · next fresh =>
      rw [List.nodup_append]
      refine ⟨ih, by simp, ?_⟩
      intro k hk k' hk' same
      rw [List.mem_singleton] at hk'
      rw [same, hk', List.mem_eraseDups] at hk
      exact fresh hk

/-- An insertion touches the value of its own name and no other. -/
theorem insert_filterMap {keys : List String} (distinct : keys.Nodup)
    {f : String → Option Value} (defined : ∀ k ∈ keys, (f k).isSome) (key : String) (v : Value) :
    insert key v (keys.filterMap fun k => (f k).map fun w => (k, w)) =
      (if key ∈ keys then keys else keys ++ [key]).filterMap fun k =>
        (if k = key then some v else f k).map fun w => (k, w) := by
  induction keys with
  | nil => simp [insert]
  | cons k keys ih =>
    obtain ⟨fresh, distinct⟩ := List.nodup_cons.mp distinct
    have ih := ih distinct fun k' hk' => defined k' (List.mem_cons_of_mem k hk')
    obtain ⟨w, hw⟩ := Option.isSome_iff_exists.mp (defined k List.mem_cons_self)
    by_cases same : k = key
    · subst same
      have others : (keys.filterMap fun k' => (f k').map fun w => (k', w)) =
          keys.filterMap fun k' => (if k' = k then some v else f k').map fun w => (k', w) := by
        refine List.filterMap_congr fun k' hk' => ?_
        have other : k' ≠ k := fun same => fresh (same ▸ hk')
        rw [if_neg other]
      simp [hw, insert, others]
    · have member : key ∈ k :: keys ↔ key ∈ keys := by
        simp [Ne.symm same]
      have listed : (if key ∈ k :: keys then k :: keys else k :: keys ++ [key]) =
          k :: if key ∈ keys then keys else keys ++ [key] := by
        by_cases known : key ∈ keys <;> simp [known, Ne.symm same]
      rw [listed]
      simp [hw, insert, same, ih]

theorem lookup_reverse_snoc (pairs : List (String × Value)) (key : String) (v : Value)
    (k : String) :
    (pairs ++ [(key, v)]).reverse.lookup k =
      if k = key then some v else pairs.reverse.lookup k := by
  rw [List.reverse_append, List.reverse_singleton, List.singleton_append, List.lookup_cons]
  by_cases same : k = key
  · simp [same]
  · simp [same, beq_eq_false_iff_ne.mpr same]

theorem lookup_reverse_isSome {pairs : List (String × Value)} {k : String}
    (listed : k ∈ pairs.map Prod.fst) : (pairs.reverse.lookup k).isSome := by
  rw [Option.isSome_iff_ne_none, ne_eq, List.lookup_eq_none_iff]
  intro absent
  obtain ⟨pair, hpair, rfl⟩ := List.mem_map.mp listed
  have hne := absent pair (List.mem_reverse.mpr hpair)
  simp at hne

/-- Inserting a field is coming with one more pair. -/
theorem insert_ofPairs (pairs : List (String × Value)) (key : String) (v : Value) :
    insert key v (ofPairs pairs) = ofPairs (pairs ++ [(key, v)]) := by
  have defined : ∀ k ∈ (pairs.map Prod.fst).eraseDups, (pairs.reverse.lookup k).isSome := by
    intro k hk
    exact lookup_reverse_isSome (List.mem_eraseDups.mp hk)
  rw [ofPairs, insert_filterMap (nodup_eraseDups _) defined, ofPairs, List.map_append,
    List.map_singleton, eraseDups_snoc]
  simp only [List.mem_eraseDups, lookup_reverse_snoc]

/-- A field behind an insertion was there, or it holds the value that came. -/
theorem mem_insert {key : String} {v : Value} {fields : Fields} {f : String × Value}
    (h : f ∈ insert key v fields) : f ∈ fields ∨ f.2 = v := by
  induction fields with
  | nil =>
    rw [insert, List.mem_singleton] at h
    exact Or.inr (congrArg Prod.snd h)
  | cons first rest ih =>
    obtain ⟨k, w⟩ := first
    rw [insert] at h
    by_cases same : k = key
    · rw [if_pos same] at h
      rcases List.mem_cons.mp h with rfl | later
      · exact Or.inr rfl
      · exact Or.inl (List.mem_cons_of_mem _ later)
    · rw [if_neg same] at h
      rcases List.mem_cons.mp h with rfl | later
      · exact Or.inl List.mem_cons_self
      · exact (ih later).imp (List.mem_cons_of_mem _) id

end PortWire.Fields
