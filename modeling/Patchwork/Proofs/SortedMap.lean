import Patchwork.SortedMap

/-!
# The keys of a map

The keys of a map are those with a value, each listed once.
-/
namespace Patchwork.SortedMap

universe u v

variable {κ : Type u} {α : Type v} [Ord κ] [Std.TransOrd κ] [Std.LawfulEqOrd κ] [DecidableEq κ]

omit [Std.TransOrd κ] in
theorem mem_keys_iff {m : SortedMap κ α} {k : κ} : k ∈ m.keys ↔ ∃ a, m.get? k = some a := by
  simp [keys, get?_eq_some_iff]

omit [Std.TransOrd κ] in
theorem notMem_keys_iff {m : SortedMap κ α} {k : κ} : k ∉ m.keys ↔ m.get? k = none := by
  rw [mem_keys_iff, Option.eq_none_iff_forall_ne_some]
  exact not_exists

omit [Std.TransOrd κ] [Std.LawfulEqOrd κ] [DecidableEq κ] in
theorem pairwise_keys (m : SortedMap κ α) : m.keys.Pairwise fun j k => compare j k = .lt := by
  rw [keys, List.pairwise_map]
  exact m.sorted

omit [Std.TransOrd κ] [DecidableEq κ] in
theorem nodup_keys (m : SortedMap κ α) : m.keys.Nodup := by
  refine m.pairwise_keys.imp fun hlt heq => ?_
  simp [heq, Std.ReflCmp.compare_self] at hlt

theorem mem_of_get?_ofList {es : List (κ × α)} {k : κ} {a : α} (h : (ofList es).get? k = some a) :
    (k, a) ∈ es := by
  rw [get?_ofList, Option.map_eq_some_iff] at h
  obtain ⟨⟨j, b⟩, hfind, rfl⟩ := h
  have hj : j = k := by simpa using List.find?_some hfind
  rw [← hj]
  exact List.mem_reverse.1 (List.mem_of_find?_eq_some hfind)

theorem mem_keys_ofList_iff {es : List (κ × α)} {k : κ} :
    k ∈ (ofList es).keys ↔ ∃ a, (k, a) ∈ es := by
  rw [mem_keys_iff]
  constructor
  · exact fun ⟨a, hget⟩ => ⟨a, mem_of_get?_ofList hget⟩
  · rintro ⟨a, hmem⟩
    cases hget : (ofList es).get? k with
    | some b => exact ⟨b, rfl⟩
    | none =>
      rw [get?_ofList, Option.map_eq_none_iff, List.find?_eq_none] at hget
      simpa using hget _ (List.mem_reverse.2 hmem)

/-- A value is found if no pair has its key with another value. -/
theorem get?_ofList_of_forall {es : List (κ × α)} {k : κ} {a : α} (hmem : (k, a) ∈ es)
    (hall : ∀ b, (k, b) ∈ es → b = a) : (ofList es).get? k = some a := by
  obtain ⟨b, hget⟩ := mem_keys_iff.1 (mem_keys_ofList_iff.2 ⟨a, hmem⟩)
  rw [hget, hall b (mem_of_get?_ofList hget)]

end Patchwork.SortedMap
