import Patchwork.Proofs.Disk.Path

/-!
# Paths below a directory

A path lies within a directory exactly if its names start with those of the directory
(`isWithin_ofLocation_iff`), and the path taken below a directory has the names of both, one behind
the other (`join_ofLocation`). So taking a path below a directory and finding what it is from there
undo each other (`relativeTo?_join`, `IsNormal.exists_join`), and two directories with a path in
common overlap (`overlaps_of_isWithin`).
-/
namespace Patchwork.TreePath

variable {p d e : TreePath} {l m : Location}

/-! ## Texts -/

/-- What follows the text of a directory in that of a path within it starts with a separator, if it
is there. -/
theorem isWithin_iff : p.isWithin d = true ↔ d.isRoot = true ∨
    ∃ rest, p.text.toList = d.text.toList ++ rest ∧ ∀ c ∈ rest.head?, c = '/' := by
  unfold isWithin
  rw [Bool.or_eq_true, Bool.and_eq_true, List.isPrefixOf_iff_prefix]
  refine or_congr_right ⟨?_, ?_⟩
  · rintro ⟨⟨rest, hrest⟩, hnext⟩
    rw [← hrest, List.drop_left] at hnext
    refine ⟨rest, hrest.symm, ?_⟩
    cases rest <;> simp_all
  · rintro ⟨rest, hrest, hnext⟩
    rw [hrest, List.drop_left]
    refine ⟨List.prefix_append _ _, ?_⟩
    cases rest <;> simp_all

theorem isWithin_refl (p : TreePath) : p.isWithin p = true := isWithin_iff.2 (.inr ⟨[], by simp⟩)

theorem overlaps_comm (p q : TreePath) : p.overlaps q = q.overlaps p := Bool.or_comm _ _

theorem overlaps_of_isWithin (hd : p.isWithin d = true) (he : p.isWithin e = true) :
    d.overlaps e = true := by
  have hlonger : ∀ {a b : TreePath} {between rest : List Char}, b.text.toList = a.text.toList ++
      between → (∀ c ∈ (between ++ rest).head?, c = '/') → b.isWithin a = true := by
    intro a b between rest hbetween hnext
    refine isWithin_iff.2 (.inr ⟨between, hbetween, fun c hc => hnext c ?_⟩)
    rw [List.head?_append, Option.mem_def.1 hc, Option.some_or]
    rfl
  rw [overlaps, Bool.or_eq_true]
  rcases isWithin_iff.1 hd with hroot | ⟨rest, hrest, hnext⟩
  · exact .inr (isWithin_iff.2 (.inl hroot))
  rcases isWithin_iff.1 he with hroot | ⟨rest', hrest', hnext'⟩
  · exact .inl (isWithin_iff.2 (.inl hroot))
  -- Both texts start that of the path, so one of them starts the other.
  rcases List.append_eq_append_iff.1 (hrest.symm.trans hrest') with
    ⟨between, he, rfl⟩ | ⟨between, hd, rfl⟩
  · exact .inr (hlonger he hnext)
  · exact .inl (hlonger hd hnext')

/-- A path that lies within a directory lies within no other that does not overlap it. -/
theorem isWithin_eq_false (h : d.overlaps e = false) (hd : p.isWithin d = true) :
    p.isWithin e = false := by
  by_contra he
  rw [overlaps_of_isWithin hd (by simpa using he)] at h
  cases h

theorem toList_text_injective : Function.Injective fun p : TreePath => p.text.toList := by
  rintro ⟨s⟩ ⟨t⟩ h
  exact congrArg TreePath.mk (String.toList_inj.1 h)

theorem isRoot_iff : p.isRoot = true ↔ p.text.toList = [] := by
  simp [isRoot]

/-- A path below a directory stands behind a separator; the directory itself has none. -/
theorem toList_join (hd : d.isRoot = false) (p : TreePath) :
    (d.join p).text.toList = d.text.toList ++ if p.isRoot then [] else '/' :: p.text.toList := by
  cases hp : p.isRoot <;> simp [join, hd, hp]

theorem join_of_isRoot (hd : d.isRoot = true) (p : TreePath) : d.join p = p := if_pos hd

theorem join_eq_self (hp : p.isRoot = true) (d : TreePath) : d.join p = d := by
  cases hd : d.isRoot with
  | true =>
    rw [join_of_isRoot hd]
    exact toList_text_injective ((isRoot_iff.1 hp).trans (isRoot_iff.1 hd).symm)
  | false => simp [join, hd, hp]

theorem isWithin_join (d p : TreePath) : (d.join p).isWithin d = true := by
  rw [isWithin_iff]
  cases hd : d.isRoot with
  | true => exact .inl rfl
  | false =>
    refine .inr ⟨_, toList_join hd p, ?_⟩
    cases p.isRoot <;> simp

theorem isWithin_join_of_isWithin (h : d.isWithin e = true) (p : TreePath) :
    (d.join p).isWithin e = true := by
  cases hd : d.isRoot with
  | true =>
    refine isWithin_iff.2 (.inl ?_)
    rcases isWithin_iff.1 h with hroot | ⟨rest, hrest, -⟩
    · exact hroot
    · rw [isRoot_iff.1 hd] at hrest
      exact isRoot_iff.2 (List.append_eq_nil_iff.1 hrest.symm).1
  | false =>
    rcases isWithin_iff.1 h with hroot | ⟨rest, hrest, hnext⟩
    · exact isWithin_iff.2 (.inl hroot)
    · refine isWithin_iff.2 (.inr ⟨rest ++ if p.isRoot then [] else '/' :: p.text.toList, ?_, ?_⟩)
      · rw [toList_join hd, hrest, List.append_assoc]
      · cases rest with
        | nil => cases p.isRoot <;> simp
        | cons c rest => exact hnext

theorem isExcluded_join {excludes : List TreePath} (h : d.isExcluded excludes = true)
    (p : TreePath) :
    (d.join p).isExcluded excludes = true := by
  obtain ⟨e, he, hwithin⟩ := List.any_eq_true.1 h
  exact List.any_eq_true.2 ⟨e, he, isWithin_join_of_isWithin hwithin p⟩

theorem join_injective (d : TreePath) : Function.Injective d.join := by
  intro p q h
  cases hd : d.isRoot with
  | true => rwa [join_of_isRoot hd, join_of_isRoot hd] at h
  | false =>
    have htext := congrArg (·.text.toList) h
    simp only [toList_join hd, List.append_cancel_left_eq] at htext
    apply toList_text_injective
    cases hp : p.isRoot <;> cases hq : q.isRoot <;> simp_all [isRoot_iff]

/-- From the directory, a path below it is what it was taken from. -/
theorem relativeTo?_join_of_head? (hp : p.text.toList.head? ≠ some '/') (d : TreePath) :
    (d.join p).relativeTo? d = some p := by
  unfold relativeTo?
  rw [isWithin_join]
  cases hd : d.isRoot with
  | true => simp [join_of_isRoot hd]
  | false =>
    have hrest : (if p.isRoot then [] else '/' :: p.text.toList).dropWhile
        (· = '/') = p.text.toList := by
      cases hroot : p.isRoot with
      | true => simp [isRoot_iff.1 hroot]
      | false => cases htext : p.text.toList <;> simp_all
    simp only [Bool.not_true, Bool.false_eq_true, if_false, toList_join hd, List.drop_left, hrest,
      String.ofList_toList]

/-! ## Names -/

theorem head?_ofLocation_ne (l : Location) : (ofLocation l).text.toList.head? ≠ some '/' := by
  rw [toList_ofLocation]
  cases l with
  | nil => simp
  | cons name l =>
    obtain ⟨c, cs, hname⟩ := List.exists_cons_of_ne_nil name.isFileName.1
    have hc : c ≠ '/' := by
      rintro rfl
      exact name.isFileName.2.2.2 (hname ▸ List.mem_cons_self)
    cases l <;> simp [hname, hc]

theorem toList_ofLocation_append {l m : Location} (hl : l ≠ []) (hm : m ≠ []) :
    (ofLocation (l ++ m)).text.toList =
      (ofLocation l).text.toList ++ '/' :: (ofLocation m).text.toList := by
  simp only [toList_ofLocation, List.map_append]
  induction l with
  | nil => exact absurd rfl hl
  | cons name l ih =>
    cases l with
    | nil =>
      obtain ⟨first, rest, rfl⟩ := List.exists_cons_of_ne_nil hm
      simp
    | cons next l =>
      have ih := ih (by simp)
      simp only [List.map_cons, List.cons_append, List.intercalate_cons_cons,
        List.append_assoc] at ih ⊢
      rw [ih]

theorem join_ofLocation (l m : Location) :
    (ofLocation l).join (ofLocation m) = ofLocation (l ++ m) := by
  by_cases hl : l = []
  · subst hl
    exact join_of_isRoot (isRoot_ofLocation.2 rfl) _
  · by_cases hm : m = []
    · subst hm
      rw [join_eq_self (isRoot_ofLocation.2 rfl), List.append_nil]
    · have hroot : ∀ {l : Location}, l ≠ [] → (ofLocation l).isRoot = false := by
        simp [← Bool.not_eq_true]
      apply toList_text_injective
      simp only [toList_join (hroot hl), hroot hm, toList_ofLocation_append hl hm,
        Bool.false_eq_true, if_false]

theorem isWithin_ofLocation_iff : (ofLocation l).isWithin (ofLocation m) = true ↔ m <+: l := by
  constructor
  · intro h
    rcases isWithin_iff.1 h with hroot | ⟨rest, hrest, hnext⟩
    · rw [isRoot_ofLocation.1 hroot]
      exact List.nil_prefix
    · have hnames : m.map (·.text.toList) <+: l.map (·.text.toList) := by
        rw [← components_ofLocation, ← components_ofLocation, components, components, hrest]
        cases rest with
        | nil => simp
        | cons c rest =>
          obtain rfl := hnext c rfl
          rw [List.splitOn_append_cons_self, List.filter_append]
          exact List.prefix_append _ _
      exact (List.prefix_map_iff_of_injective FileName.toList_text_injective).1 hnames
  · rintro ⟨rest, rfl⟩
    rw [← join_ofLocation]
    exact isWithin_join _ _

namespace IsNormal

theorem exists_join (hp : p.IsNormal) (hd : d.IsNormal) (h : p.isWithin d = true) :
    ∃ r : TreePath, r.IsNormal ∧ d.join r = p := by
  rw [← hp.ofLocation_location, ← hd.ofLocation_location, isWithin_ofLocation_iff] at h
  obtain ⟨rest, hrest⟩ := h
  refine ⟨ofLocation rest, isNormal_ofLocation_iff.2 fun name hname => ?_, ?_⟩
  · exact (isNormal_iff.1 hp).2 name (hrest ▸ List.mem_append_right _ hname)
  · rw [← hd.ofLocation_location, join_ofLocation, hrest, hp.ofLocation_location]

theorem join (hd : d.IsNormal) (hp : p.IsNormal) : (d.join p).IsNormal := by
  rw [← hp.ofLocation_location, ← hd.ofLocation_location, join_ofLocation, isNormal_ofLocation_iff]
  exact List.forall_mem_append.2 ⟨(isNormal_iff.1 hd).2, (isNormal_iff.1 hp).2⟩

theorem relativeTo?_join (hp : p.IsNormal) (d : TreePath) : (d.join p).relativeTo? d = some p := by
  refine relativeTo?_join_of_head? ?_ d
  rw [← hp.ofLocation_location]
  exact head?_ofLocation_ne _

/-- What a path is from a directory is what is taken below it to give the path. -/
theorem relativeTo?_eq_some_iff (hp : p.IsNormal) (hd : d.IsNormal) {r : TreePath} :
    p.relativeTo? d = some r ↔ r.IsNormal ∧ d.join r = p := by
  constructor
  · intro h
    have hwithin : p.isWithin d = true := by
      by_contra hout
      simp [TreePath.relativeTo?, hout] at h
    obtain ⟨q, hq, rfl⟩ := hp.exists_join hd hwithin
    rw [hq.relativeTo?_join] at h
    exact Option.some.inj h ▸ ⟨hq, rfl⟩
  · rintro ⟨hr, rfl⟩
    exact hr.relativeTo?_join d

end IsNormal

end Patchwork.TreePath
