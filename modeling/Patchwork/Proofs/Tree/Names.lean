import Patchwork.Proofs.Tree.Stable

/-!
# Paths as lists of names

The text of a path is a list of names, and the operations on paths are those on lists of names
(`components_of_isMade`): a path below a directory has the names of both, one behind the other, it
lies within the directory if its names start with those of the directory, and what it is from there
has the names that are left. Names are compared whole, so `ab` does not lie within `a`.
-/
namespace Patchwork.TreePath

variable {d p r : TreePath}

namespace IsNormal

theorem components_eq (h : p.IsNormal) : p.components = p.location.map (·.text.toList) := by
  conv_lhs => rw [← h.ofLocation_location]
  exact components_ofLocation p.location

theorem isName_of_mem_components (h : p.IsNormal) {name : List Char} (hname : name ∈ p.components) :
    IsName name := by
  rw [h.components_eq] at hname
  obtain ⟨n, hn, rfl⟩ := List.mem_map.1 hname
  exact ⟨n.isFileName, (isNormal_iff.1 h).2 n hn⟩

theorem components_inj (hp : p.IsNormal) (hd : d.IsNormal) :
    p.components = d.components ↔ p = d := by
  refine ⟨fun h => ?_, congrArg components⟩
  rw [hp.components_eq, hd.components_eq] at h
  have hlocation := List.map_injective_iff.2 FileName.toList_text_injective h
  rw [← hp.ofLocation_location, ← hd.ofLocation_location, hlocation]

theorem components_join (hd : d.IsNormal) (hp : p.IsNormal) :
    (d.join p).components = d.components ++ p.components := by
  rw [hd.components_eq, hp.components_eq, ← List.map_append, ← components_ofLocation,
    ← join_ofLocation, hd.ofLocation_location, hp.ofLocation_location]

/-- A path lies within a directory exactly if its names start with those of the directory. -/
theorem isWithin_iff_prefix (hp : p.IsNormal) (hd : d.IsNormal) :
    p.isWithin d = true ↔ d.components <+: p.components := by
  rw [hp.components_eq, hd.components_eq,
    List.prefix_map_iff_of_injective FileName.toList_text_injective, ← isWithin_ofLocation_iff,
    hp.ofLocation_location, hd.ofLocation_location]

theorem relativeTo?_eq_some_iff_components (hp : p.IsNormal) (hd : d.IsNormal) (hr : r.IsNormal) :
    p.relativeTo? d = some r ↔ p.components = d.components ++ r.components := by
  rw [hp.relativeTo?_eq_some_iff hd, ← hd.components_join hr, hp.components_inj (hd.join hr),
    eq_comm]
  exact and_iff_right hr

end IsNormal

theorem isSome_relativeTo? (p d : TreePath) : (p.relativeTo? d).isSome = p.isWithin d := by
  unfold relativeTo?
  cases p.isWithin d <;> cases d.isRoot <;> rfl

/-- The operations on paths are those on their names. -/
theorem components_of_isMade (hp : p.IsMade) (hd : d.IsMade) :
    (∀ name ∈ p.components, name ≠ [] ∧ name ≠ ['.'] ∧ name ≠ ['.', '.'] ∧
      ∀ c ∈ name, isSeparator c = false) ∧
    (p = d ↔ p.components = d.components) ∧
    (d.join p).components = d.components ++ p.components ∧
    (p.isWithin d = true ↔ d.components <+: p.components) ∧
    (p.relativeTo? d).isSome = p.isWithin d ∧
    (∀ r : TreePath, r.IsMade →
      (p.relativeTo? d = some r ↔ p.components = d.components ++ r.components)) ∧
    (d.join p).relativeTo? d = some p ∧
    (∀ r, p.relativeTo? d = some r → d.join r = p) ∧
    (p.overlaps d = true ↔ p.components <+: d.components ∨ d.components <+: p.components) := by
  have hpn := hp.isNormal
  have hdn := hd.isNormal
  refine ⟨fun name hname => ?names, (hpn.components_inj hdn).symm, hdn.components_join hpn,
    hpn.isWithin_iff_prefix hdn, isSome_relativeTo? p d,
    fun r hr => hpn.relativeTo?_eq_some_iff_components hdn hr.isNormal, hpn.relativeTo?_join d,
    fun r hr => ((hpn.relativeTo?_eq_some_iff hdn).1 hr).2, ?overlaps⟩
  case names =>
    obtain ⟨⟨hempty, hdot, hup, hslash⟩, hback⟩ := hpn.isName_of_mem_components hname
    refine ⟨hempty, hdot, hup, fun c hc => isSeparator_eq_false_iff.2 ⟨?_, ?_⟩⟩
    · rintro rfl
      exact hslash hc
    · rintro rfl
      exact hback hc
  case overlaps =>
    rw [overlaps, Bool.or_eq_true, hpn.isWithin_iff_prefix hdn, hdn.isWithin_iff_prefix hpn,
      or_comm]

/-- A path whose first name starts like the directory's, taken out of another directory. -/
theorem components_of_isMade_sibling :
    let d : TreePath := ⟨"a"⟩
    let p : TreePath := ⟨"ab/c"⟩
    d.IsMade ∧ p.IsMade ∧ p.isWithin d = false ∧ p.relativeTo? d = none ∧ p.overlaps d = false ∧
      (d.join p).components = [['a'], ['a', 'b'], ['c']] ∧ (d.join p).relativeTo? d = some p := by
  intro d p
  have hd : d.IsMade := .ofString (show ofString "./a/" = .ok d by decide +kernel)
  have hx : (⟨"x"⟩ : TreePath).IsMade := .ofString (show ofString "x" = .ok _ by decide +kernel)
  have hxp : (⟨"x/ab/c"⟩ : TreePath).IsMade :=
    .ofString (show ofString "x\\ab//c" = .ok _ by decide +kernel)
  have hp : p.IsMade := .relativeTo? hxp hx (by decide +kernel)
  obtain ⟨-, -, hjoin, hwithin, hsome, -, hback, -, hoverlaps⟩ := components_of_isMade hp hd
  have hnotBelow : ¬ d.components <+: p.components := by decide +kernel
  have hnotAbove : ¬ p.components <+: d.components := by decide +kernel
  have hout : p.isWithin d = false := by simpa using mt hwithin.1 hnotBelow
  refine ⟨hd, hp, hout, ?_, ?_, hjoin.trans (by decide +kernel), hback⟩
  · rwa [hout, Option.isSome_eq_false_iff, Option.isNone_iff_eq_none] at hsome
  · simpa [hnotBelow, hnotAbove] using hoverlaps

end Patchwork.TreePath
