import Patchwork.Proofs.Stack.Regenerate

/-!
# Which files a regenerated stack is meant for

A regenerated stack is meant for the files that differ between the two trees, each once
(`targets_of_regenerate`). Those in the order that was asked for come first, as it first names them,
and the others follow in the order of their paths (`targets_regenerate`).
-/
namespace Patchwork.Stack

variable {base derived : Tree}

/-- The targets are the files that differ, each once, first those in the order, as it first names
them, and then the others by their paths. -/
theorem targets_regenerate {options : Options} {s : Stack}
    (h : regenerate base derived options = .ok s) :
    s.targets.Nodup ∧ (∀ path, path ∈ s.targets ↔ base.get? path ≠ derived.get? path) ∧
    ∃ listed others, s.targets = listed ++ others ∧
      (∀ path ∈ listed, path ∈ options.order) ∧
      listed.Pairwise (fun p q => options.order.idxOf p < options.order.idxOf q) ∧
      (∀ path ∈ others, path ∉ options.order) ∧
      others.Pairwise (fun p q => compare p q = .lt) := by
  obtain ⟨hnodup, hmem⟩ := targets_of_regenerate h
  obtain ⟨r, hr, rfl⟩ := regenerate_eq_ok_iff.1 h
  refine ⟨hnodup, hmem, _, _, targets_arrange (nodup_targets_of_patchesBetween hr) options.order,
    ?_, ?_, ?_, ?_⟩
  · intro path hpath
    exact List.mem_eraseDups.1 (List.mem_filter.1 hpath).1
  · exact (pairwise_idxOf_eraseDups options.order).filter _
  · intro path hpath
    simpa using (List.mem_filter.1 hpath).2
  · rw [targets_of_patchesBetween hr]
    exact ((SortedMap.pairwise_keys _).filter _).filter _

/-- An order that names a file twice and one that is not there. -/
theorem targets_regenerate_repeatedOrder :
    let base : Tree := .ofList [
      (⟨"b"⟩, .ofText "1\n"), (⟨"c"⟩, .ofText "1\n"), (⟨"d"⟩, .ofText "1\n"), (⟨"e"⟩, ⟨#[0xff]⟩)]
    let derived : Tree := .ofList [
      (⟨"a"⟩, .ofText "1\n"), (⟨"b"⟩, .ofText "2\n"), (⟨"d"⟩, .ofText ""), (⟨"e"⟩, ⟨#[0xff]⟩)]
    let order : List TreePath := [⟨"z"⟩, ⟨"d"⟩, ⟨"b"⟩, ⟨"d"⟩]
    ∃ s, regenerate base derived ⟨1, order⟩ = .ok s ∧ s.targets = [⟨"d"⟩, ⟨"b"⟩, ⟨"a"⟩, ⟨"c"⟩] ∧
      s.targets.Nodup ∧ ∃ listed others, s.targets = listed ++ others ∧
        (∀ path ∈ others, path ∉ order) := by
  intro base derived order
  have htargets : (regenerate base derived ⟨1, order⟩).map targets = .ok
      [⟨"d"⟩, ⟨"b"⟩, ⟨"a"⟩, ⟨"c"⟩] := by
    decide +kernel
  obtain ⟨s, hs, hlist⟩ := Except.map_eq_ok_iff.1 htargets
  obtain ⟨hnodup, -, listed, others, heq, -, -, hothers, -⟩ := targets_regenerate hs
  exact ⟨s, hs, hlist, hnodup, listed, others, heq, hothers⟩

end Patchwork.Stack
