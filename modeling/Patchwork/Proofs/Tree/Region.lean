import Patchwork.Proofs.SortedMap
import Patchwork.Proofs.Tree.Below
import Patchwork.Tree.Region

/-!
# Regions are a lens

Emptying a region and filling it with other files changes exactly what lies in the region
(`get?_graft_clearRegion_join`, `get?_graft_clearRegion_of_not_isWithin`). So what is taken out of a
region and put back leaves the tree as it was, what is put in is what is taken out afterwards, and
in both cases everything else stays (`region_isLens`).
-/
namespace Patchwork.Tree

variable {t u s : Tree} {dir path : TreePath} {excludes : List TreePath} {content : Content}

/-! ## Paths of a tree -/

def HasNormalPaths (t : Tree) : Prop := ∀ key ∈ t.keys, key.IsNormal

instance (t : Tree) : Decidable t.HasNormalPaths := inferInstanceAs (Decidable (∀ key ∈ t.keys, _))

theorem HasNormalPaths.isNormal (h : t.HasNormalPaths) (hpath : t.get? path = some content) :
    path.IsNormal :=
  h path (SortedMap.mem_keys_iff.2 ⟨content, hpath⟩)

theorem HasNormalPaths.ext (ht : t.HasNormalPaths) (hu : u.HasNormalPaths)
    (h : ∀ path : TreePath, path.IsNormal → t.get? path = u.get? path) : t = u := by
  refine SortedMap.ext_get? fun path => Option.ext fun content => ?_
  constructor
  · intro hget
    rwa [← h path (ht.isNormal hget)]
  · intro hget
    rwa [h path (hu.isNormal hget)]

/-! ## Taking out -/

theorem get?_subtree_eq_some_iff (ht : t.HasNormalPaths) (hdir : dir.IsNormal) :
    (t.subtree dir excludes).get? path = some content ↔
      (path.IsNormal ∧ path.isRoot = false ∧ path.isExcluded excludes = false) ∧
        t.get? (dir.join path) = some content := by
  obtain ⟨files, hfiles, hmem⟩ : ∃ files, t.subtree dir excludes = .ofList files ∧
      ∀ c, (path, c) ∈ files ↔ (path.IsNormal ∧ path.isRoot = false ∧
      path.isExcluded excludes = false) ∧ t.get? (dir.join path) = some c := by
    refine ⟨_, rfl, fun c => ?_⟩
    rw [List.mem_filterMap, SortedMap.get?_eq_some_iff]
    constructor
    · rintro ⟨⟨key, c'⟩, he, hkept⟩
      have hkey := ht.isNormal (SortedMap.get?_eq_some_iff.2 he)
      cases hrelative : key.relativeTo? dir with
      | none => simp [hrelative] at hkept
      | some p =>
        obtain ⟨hp, hjoin⟩ := (hkey.relativeTo?_eq_some_iff hdir).1 hrelative
        simp only [hrelative, Option.ite_none_left_eq_some, Bool.or_eq_true, not_or,
          Bool.not_eq_true, Option.some.injEq, Prod.mk.injEq] at hkept
        obtain ⟨hkept, rfl, rfl⟩ := hkept
        exact ⟨⟨hp, hkept⟩, hjoin ▸ he⟩
    · rintro ⟨⟨hpath, hroot, hexcluded⟩, he⟩
      exact ⟨_, he, by simp [hpath.relativeTo?_join, hroot, hexcluded]⟩
  rw [hfiles]
  constructor
  · intro h
    exact (hmem _).1 (SortedMap.mem_of_get?_ofList h)
  · intro h
    refine SortedMap.get?_ofList_of_forall ((hmem _).2 h) fun c hc => ?_
    exact Option.some.inj (((hmem c).1 hc).2.symm.trans h.2)

/-! ## Filling -/

theorem get?_clearRegion_join (hpath : path.IsNormal) :
    (t.clearRegion dir excludes).get? (dir.join path) =
      if path.isExcluded excludes then t.get? (dir.join path) else none := by
  rw [clearRegion, SortedMap.get?_filter, hpath.relativeTo?_join]
  cases t.get? (dir.join path) <;> cases hexcluded : path.isExcluded excludes <;> simp [hexcluded]

theorem get?_clearRegion_of_not_isWithin (h : path.isWithin dir = false) :
    (t.clearRegion dir excludes).get? path = t.get? path := by
  rw [clearRegion, SortedMap.get?_filter]
  cases t.get? path <;> simp [TreePath.relativeTo?, h]

theorem get?_graft (t s : Tree) (dir path : TreePath) : (t.graft dir s).get? path =
    ((s.toList.find? fun e => dir.join e.1 = path).map (·.2)).or (t.get? path) := by
  have hnodup : (s.toList.map (·.1)).Nodup := SortedMap.nodup_keys s
  unfold graft
  generalize s.toList = files at hnodup ⊢
  induction files generalizing t with
  | nil => rfl
  | cons e files ih =>
    obtain ⟨hnew, hnodup⟩ := List.nodup_cons.1 hnodup
    rw [List.foldl_cons, ih (t.insert (dir.join e.1) e.2) hnodup, SortedMap.get?_insert]
    by_cases hpath : dir.join e.1 = path
    · -- No later file takes the place of this one.
      have hnone : (files.find? fun e => dir.join e.1 = path) = none := by
        rw [List.find?_eq_none]
        rintro e' he' hpath'
        have hkey : e'.1 = e.1 := dir.join_injective ((of_decide_eq_true hpath').trans hpath.symm)
        exact hnew (List.mem_map.2 ⟨e', he', hkey⟩)
      simp [hpath, hnone]
    · simp [hpath, Ne.symm hpath]

theorem get?_graft_join (t s : Tree) (dir path : TreePath) :
    (t.graft dir s).get? (dir.join path) = (s.get? path).or (t.get? (dir.join path)) := by
  simp only [get?_graft, (dir.join_injective).eq_iff]
  rfl

theorem get?_graft_of_ne (h : ∀ key ∈ s.keys, dir.join key ≠ path) :
    (t.graft dir s).get? path = t.get? path := by
  have hnone : (s.toList.find? fun e => dir.join e.1 = path) = none := by
    rw [List.find?_eq_none]
    intro e he
    simpa using h e.1 (List.mem_map_of_mem he)
  rw [get?_graft, hnone]
  rfl

/-- A region that is emptied and filled holds the new files, and beside them those that are
excluded. -/
theorem get?_graft_clearRegion_join (hpath : path.IsNormal) :
    ((t.clearRegion dir excludes).graft dir s).get? (dir.join path) =
      (s.get? path).or (if path.isExcluded excludes then t.get? (dir.join path) else none) := by
  rw [get?_graft_join, get?_clearRegion_join hpath]

theorem get?_graft_clearRegion_of_not_isWithin (h : path.isWithin dir = false) :
    ((t.clearRegion dir excludes).graft dir s).get? path = t.get? path := by
  rw [get?_graft_of_ne, get?_clearRegion_of_not_isWithin h]
  rintro key - rfl
  rw [TreePath.isWithin_join] at h
  cases h

/-! ## Both together -/

theorem HasNormalPaths.graft_clearRegion (ht : t.HasNormalPaths) (hs : s.HasNormalPaths)
    (hdir : dir.IsNormal) (excludes : List TreePath) :
    ((t.clearRegion dir excludes).graft dir s).HasNormalPaths := by
  intro path hpath
  obtain ⟨content, hget⟩ := SortedMap.mem_keys_iff.1 hpath
  by_cases hnew : ∃ key ∈ s.keys, dir.join key = path
  · obtain ⟨key, hkey, rfl⟩ := hnew
    exact hdir.join (hs key hkey)
  · rw [get?_graft_of_ne (by simpa using hnew), clearRegion, SortedMap.get?_filter] at hget
    exact ht.isNormal (Option.filter_eq_some_iff.1 hget).1

/-- Files that can stand in a region: they lie below its directory, and none is excluded there. -/
structure FitsRegion (s : Tree) (excludes : List TreePath) : Prop where
  normal : s.HasNormalPaths
  below : ∀ key ∈ s.keys, key.isRoot = false
  included : ∀ key ∈ s.keys, key.isExcluded excludes = false

instance (s : Tree) (excludes : List TreePath) : Decidable (s.FitsRegion excludes) :=
  decidable_of_iff (s.HasNormalPaths ∧ (∀ key ∈ s.keys, key.isRoot = false) ∧
      ∀ key ∈ s.keys, key.isExcluded excludes = false)
    ⟨fun ⟨hn, hb, hi⟩ => ⟨hn, hb, hi⟩, fun ⟨hn, hb, hi⟩ => ⟨hn, hb, hi⟩⟩

/-- Trees agree outside of a region: on every path that is not at or below its directory, and on
every path below it that is excluded there. -/
structure AgreesOutside (t u : Tree) (dir : TreePath) (excludes : List TreePath) : Prop where
  outside : ∀ path : TreePath, path.IsNormal → (∀ p : TreePath, p.IsNormal → dir.join p ≠ path) →
    t.get? path = u.get? path
  excluded : ∀ p : TreePath, p.IsNormal → p.isExcluded excludes = true →
    t.get? (dir.join p) = u.get? (dir.join p)

theorem FitsRegion.get?_eq_none (h : s.FitsRegion excludes)
    (hpath : path.isRoot = true ∨ path.isExcluded excludes = true) : s.get? path = none := by
  rw [← SortedMap.notMem_keys_iff]
  intro hkey
  have hbelow := h.below path hkey
  have hincluded := h.included path hkey
  simp_all

theorem fitsRegion_subtree (ht : t.HasNormalPaths) (hdir : dir.IsNormal)
    (excludes : List TreePath) :
    (t.subtree dir excludes).FitsRegion excludes := by
  have hkept : ∀ key ∈ (t.subtree dir excludes).keys,
      key.IsNormal ∧ key.isRoot = false ∧ key.isExcluded excludes = false := by
    intro key hkey
    obtain ⟨content, hget⟩ := SortedMap.mem_keys_iff.1 hkey
    exact ((get?_subtree_eq_some_iff ht hdir).1 hget).1
  exact ⟨fun key hkey => (hkept key hkey).1, fun key hkey => (hkept key hkey).2.1, fun key hkey =>
    (hkept key hkey).2.2⟩

/-- Filling a region leaves everything outside of it as it is. -/
theorem FitsRegion.agreesOutside (hs : s.FitsRegion excludes) (t : Tree) (hdir : dir.IsNormal) :
    ((t.clearRegion dir excludes).graft dir s).AgreesOutside t dir excludes where
  outside path hpath hout := by
    refine get?_graft_clearRegion_of_not_isWithin ?_
    by_contra hwithin
    obtain ⟨p, hp, hjoin⟩ := hpath.exists_join hdir (by simpa using hwithin)
    exact hout p hp hjoin
  excluded p hp hexcluded := by
    rw [get?_graft_clearRegion_join hp, hs.get?_eq_none (.inr hexcluded), if_pos hexcluded,
      Option.none_or]

/-- Taking out a region, emptying it and filling it obey the laws of a lens. What was taken out is
put back where it was, if no file stands in the place of the directory itself; what is put in is
taken out again; and either way everything outside of the region keeps its content. -/
theorem region_isLens (ht : t.HasNormalPaths) (hdir : dir.IsNormal) (excludes : List TreePath) :
    (t.get? dir = none → (t.clearRegion dir excludes).graft dir (t.subtree dir excludes) = t) ∧
      ((t.clearRegion dir excludes).graft dir
        (t.subtree dir excludes)).AgreesOutside t dir excludes ∧
      ∀ s : Tree, s.FitsRegion excludes →
        ((t.clearRegion dir excludes).graft dir s).subtree dir excludes = s ∧
          ((t.clearRegion dir excludes).graft dir s).AgreesOutside t dir excludes := by
  have hsub := fitsRegion_subtree ht hdir excludes
  refine ⟨fun hdirectory => ?getPut, hsub.agreesOutside t hdir, fun s hs =>
    ⟨?putGet, hs.agreesOutside t hdir⟩⟩
  case getPut =>
    refine (ht.graft_clearRegion hsub.normal hdir excludes).ext ht fun path hpath => ?_
    cases hwithin : path.isWithin dir with
    | false => exact get?_graft_clearRegion_of_not_isWithin hwithin
    | true =>
      obtain ⟨p, hp, rfl⟩ := hpath.exists_join hdir hwithin
      rw [get?_graft_clearRegion_join hp]
      cases hexcluded : p.isExcluded excludes with
      | true => rw [hsub.get?_eq_none (.inr hexcluded), if_pos rfl, Option.none_or]
      | false =>
        refine Option.ext fun c => ?_
        rw [if_neg Bool.false_ne_true, Option.or_none, get?_subtree_eq_some_iff ht hdir]
        refine and_iff_right_of_imp fun hget => ⟨hp, ?_, hexcluded⟩
        by_contra hroot
        rw [TreePath.join_eq_self (by simpa using hroot), hdirectory] at hget
        cases hget
  case putGet =>
    have hfilled := ht.graft_clearRegion hs.normal hdir excludes
    refine (fitsRegion_subtree hfilled hdir excludes).normal.ext hs.normal fun path hpath =>
      Option.ext fun c => ?_
    rw [get?_subtree_eq_some_iff hfilled hdir, get?_graft_clearRegion_join hpath]
    by_cases hout : path.isRoot = true ∨ path.isExcluded excludes = true
    · rw [hs.get?_eq_none hout]
      simp_all
    · simp_all

/-- A sibling whose name starts alike, an excluded directory, and new files of which one has nearly
its name. -/
theorem region_isLens_siblings :
    let t : Tree :=
      .ofList [(⟨"lib/a"⟩, .ofText "a"), (⟨"lib/gen/x"⟩, .ofText "x"), (⟨"libs/a"⟩, .ofText "b")]
    let s : Tree := .ofList [(⟨"b/c"⟩, .ofText "c"), (⟨"generic"⟩, .ofText "d")]
    let dir : TreePath := ⟨"lib"⟩
    let excludes : List TreePath := [⟨"gen"⟩, ⟨"gen/x"⟩]
    t.HasNormalPaths ∧ dir.IsNormal ∧ t.get? dir = none ∧ s.FitsRegion excludes ∧
      (t.clearRegion dir excludes).graft dir (t.subtree dir excludes) = t ∧
      ((t.clearRegion dir excludes).graft dir s).subtree dir excludes = s ∧
      ((t.clearRegion dir excludes).graft dir s).AgreesOutside t dir excludes := by
  intro t s dir excludes
  have ht : t.HasNormalPaths := by decide +kernel
  have hdir : dir.IsNormal := by decide +kernel
  have hdirectory : t.get? dir = none := by decide +kernel
  have hs : s.FitsRegion excludes := by decide +kernel
  obtain ⟨hgetPut, -, hputGet⟩ := region_isLens ht hdir excludes
  exact ⟨ht, hdir, hdirectory, hs, hgetPut hdirectory, hputGet s hs⟩

end Patchwork.Tree
