import Patchwork.Proofs.Disk.Change
import Patchwork.Proofs.Outcome
import Patchwork.Proofs.Tree.Text
import Patchwork.Store.Tree

/-!
# Where a loaded tree comes from

What a loaded tree holds is what some file on the disk holds (`exists_file?_of_loadTree`), so it
fits into memory if the files of the disk do. A file is loaded under its path unless it is passed
over, or another one has a path that becomes the same (`get?_loadTree`). If the files below a
directory are those of a tree, what is loaded is that tree without what is passed over
(`loadTree_eq_of_holdsTree`).
-/
namespace Patchwork

open TreePath (ofLocation)

/-- Every file fits into memory, as the files of a disk do: none can be longer. -/
def Disk.Fits (d : Disk) : Prop :=
  ∀ l content, d.node? l = some (.file content) → content.size ≤ Content.maxSize

theorem Disk.fits_iff {d : Disk} :
    d.Fits ↔ ∀ e ∈ d.nodes.toList, match e.2 with
      | .file content => content.size ≤ Content.maxSize
      | .directory => True := by
  constructor
  · rintro h ⟨l, node⟩ he
    cases node with
    | file content => exact h l content (SortedMap.get?_eq_some_iff.2 he)
    | directory => trivial
  · intro h l content hl
    exact h (l, .file content) (SortedMap.get?_eq_some_iff.1 hl)

instance (d : Disk) : Decidable d.Fits :=
  have : ∀ e : Location × Node, Decidable (match e.2 with
      | .file content => content.size ≤ Content.maxSize
      | .directory => True) := fun ⟨_, node⟩ =>
    match node with
    | .file _ => inferInstanceAs (Decidable (_ ≤ _))
    | .directory => .isTrue trivial
  decidable_of_iff _ Disk.fits_iff.symm

structure Disk.HoldsTree (d : Disk) (l : Location) (t : Tree) : Prop where
  isDirectory : d.node? l = some .directory
  file?_eq : ∀ names, d.file? (l ++ names) = t.get? (ofLocation names)

theorem Disk.HoldsTree.of_node? {d e : Disk} {l m : Location} {t : Tree} (h : d.HoldsTree l t)
    (hnode : ∀ names, e.node? (m ++ names) = d.node? (l ++ names)) : e.HoldsTree m t where
  isDirectory := by simpa using (hnode []).trans (by simpa using h.isDirectory)
  file?_eq names := (Disk.file?_of_node? (hnode names)).trans (h.file?_eq names)

/-- No other file below a location has a path that becomes that of the names. -/
def Disk.IsAlone (d : Disk) (l names : Location) : Prop :=
  ∀ e ∈ d.walk l, e.2 ≠ .directory → TreePath.ofString (Location.text e.1) = .ok
    (ofLocation names) → e.1 = names

instance (d : Disk) (l names : Location) : Decidable (d.IsAlone l names) :=
  inferInstanceAs (Decidable (∀ e ∈ d.walk l, _))

theorem Disk.HoldsTree.isAlone {d : Disk} {l : Location} {t : Tree} (h : d.HoldsTree l t)
    (hkeys : ∀ key ∈ t.keys, key.IsNormal) (names : Location) : d.IsAlone l names := by
  rintro ⟨names', node⟩ hwalk hfile hpath
  cases node with
  | directory => exact absurd rfl hfile
  | file content =>
    have hget := h.file?_eq names'
    rw [Disk.file?_eq_some_iff.2 (Disk.mem_walk_iff.1 hwalk)] at hget
    have hkey := hkeys (ofLocation names') (SortedMap.mem_keys_iff.2 ⟨content, hget.symm⟩)
    exact TreePath.ofLocation_injective (hkey.eq_of_ofString hpath).symm

namespace Store

variable {d : Disk} {root : DiskPath} {dir names : Location} {excludes : List TreePath} {t : Tree}
  {path : TreePath} {content : Content}

theorem mem_treeFiles_iff : (names, content) ∈ treeFiles excludes d dir ↔
    d.file? (dir ++ names) = some content ∧ isPassedOver excludes names = false := by
  rw [treeFiles, List.mem_filterMap, Disk.file?_eq_some_iff]
  constructor
  · rintro ⟨⟨names', node⟩, hwalk, hkept⟩
    cases node with
    | directory => cases hkept
    | file content' =>
      simp only [Option.ite_none_left_eq_some, Option.some.injEq, Prod.mk.injEq] at hkept
      obtain ⟨hpassed, rfl, rfl⟩ := hkept
      exact ⟨Disk.mem_walk_iff.1 hwalk, by simpa using hpassed⟩
  · rintro ⟨hnode, hpassed⟩
    exact ⟨_, Disk.mem_walk_iff.2 hnode, by simp [hpassed]⟩

theorem versionControl_or_isExcluded_eq_false_iff :
    (names.getLast?.any (·.text == versionControl) ||
      match TreePath.ofString (Location.text names) with
      | .ok p => p.isExcluded excludes
      | .error _ => false) = false ↔ (∀ name ∈ names.getLast?, name.text ≠ versionControl) ∧
        ∀ p, TreePath.ofString (Location.text names) = .ok p → p.isExcluded excludes = false := by
  rw [Bool.or_eq_false_iff]
  refine and_congr ?_ ?_
  · cases names.getLast? <;> simp
  · cases TreePath.ofString (Location.text names) <;> simp

/-- A file is passed over if it, or a directory on the way to it, is one of version control or has
an excluded path. -/
theorem isPassedOver_eq_false_iff :
    isPassedOver excludes names = false ↔ ∀ front, front ≠ [] → front <+: names →
      (∀ name ∈ front.getLast?, name.text ≠ versionControl) ∧
        ∀ p, TreePath.ofString (Location.text front) = .ok p → p.isExcluded excludes = false := by
  unfold isPassedOver
  rw [List.any_eq_false]
  constructor
  · rintro h front hne ⟨rest, rfl⟩
    have hlength : 0 < front.length := List.length_pos_of_ne_nil hne
    have hfront := h (front.length - 1) (List.mem_range.2 (by rw [List.length_append]; omega))
    rw [Nat.sub_add_cancel hlength, List.take_left, Bool.not_eq_true] at hfront
    exact versionControl_or_isExcluded_eq_false_iff.1 hfront
  · intro h n hn
    have hn : n < names.length := List.mem_range.1 hn
    have hne : names.take (n + 1) ≠ [] := by
      intro hnil
      have hlength := congrArg List.length hnil
      rw [List.length_take, List.length_nil] at hlength
      omega
    rw [Bool.not_eq_true]
    exact versionControl_or_isExcluded_eq_false_iff.2 (h _ hne (List.take_prefix _ _))

theorem isPassedOver_nil (h : ∀ name ∈ names, name.text ≠ versionControl) :
    isPassedOver [] names = false := by
  refine isPassedOver_eq_false_iff.2 fun front _ hfront => ⟨fun name hname => ?_, fun _ _ => rfl⟩
  exact h name (hfront.subset (List.mem_of_getLast? hname))

theorem isPassedOver_of_isExcluded (hstable : path.IsStable) (hne : path.location ≠ [])
    (h : path.isExcluded excludes = true) : isPassedOver excludes path.location = true := by
  have hpath : TreePath.ofString (Location.text path.location) = .ok path := by
    have htext : Location.text path.location = path.text :=
      congrArg TreePath.text hstable.ofLocation_location
    rw [htext]
    exact hstable
  by_contra hkept
  rw [Bool.not_eq_true, isPassedOver_eq_false_iff] at hkept
  rw [(hkept _ hne (List.prefix_refl _)).2 path hpath] at h
  cases h

theorem exists_of_loadTree (h : loadTree root excludes d = .ok t) :
    ∃ (dir : Location) (files : List (TreePath × Content)), d.locate root = .ok dir ∧
      .ofList files = t ∧
      ∀ p c, (p, c) ∈ files ↔ ∃ names, d.file? (dir ++ names) = some c ∧
        isPassedOver excludes names = false ∧ TreePath.ofString (Location.text names) = .ok p := by
  obtain ⟨dir, hdir, h⟩ := Except.bind_eq_ok_iff.1 h
  split_ifs at h
  obtain ⟨files, hfiles, h⟩ := Except.bind_eq_ok_iff.1 h
  refine ⟨dir, files, Except.mapError_eq_ok_iff.1 hdir, Except.ok.inj h, fun p c => ?_⟩
  rw [Except.mem_iff_of_mapM_eq_ok hfiles]
  constructor
  · rintro ⟨⟨names, content⟩, hmem, hentry⟩
    obtain ⟨q, hq, heq⟩ := Except.bind_eq_ok_iff.1 hentry
    obtain ⟨rfl, rfl⟩ := Prod.mk.inj (Except.ok.inj heq)
    obtain ⟨hfile, hpassed⟩ := mem_treeFiles_iff.1 hmem
    exact ⟨names, hfile, hpassed, Except.mapError_eq_ok_iff.1 hq⟩
  · rintro ⟨names, hfile, hpassed, hpath⟩
    refine ⟨(names, c), mem_treeFiles_iff.2 ⟨hfile, hpassed⟩, ?_⟩
    exact Except.bind_eq_ok_iff.2 ⟨p, Except.mapError_eq_ok_iff.2 hpath, rfl⟩

/-- The tree at a directory can be loaded exactly if every file that is not passed over has a path
in it. -/
theorem exists_loadTree_iff (hdir : d.locate root = .ok dir) (hnode : d.node? dir ≠ none) :
    (∃ t, loadTree root excludes d = .ok t) ↔ ∀ names c, d.file? (dir ++ names) = some c →
      isPassedOver excludes names = false → ∃ p, TreePath.ofString
        (Location.text names) = .ok p := by
  have hloads : (∃ t, loadTree root excludes d = .ok t) ↔
      ∃ files, ((treeFiles excludes d dir).mapM fun e => do
        return (← (TreePath.ofString (Location.text e.1)).mapError StoreError.invalidPath, e.2)) =
          .ok files := by
    have hsome : (d.node? dir).isNone = false := by simpa [← Bool.not_eq_true] using hnode
    unfold loadTree
    rw [hdir]
    dsimp only [Except.mapError, bind, Except.bind]
    rw [hsome]
    constructor
    · rintro ⟨t, h⟩
      obtain ⟨files, hfiles, -⟩ := Except.bind_eq_ok_iff.1 h
      exact ⟨files, hfiles⟩
    · rintro ⟨files, hfiles⟩
      exact ⟨.ofList files, Except.bind_eq_ok_iff.2 ⟨files, hfiles, rfl⟩⟩
  rw [hloads, Except.exists_mapM_eq_ok_iff]
  constructor
  · intro h names c hfile hpassed
    obtain ⟨f, hf⟩ := h _ (mem_treeFiles_iff.2 ⟨hfile, hpassed⟩)
    obtain ⟨p, hp, -⟩ := Except.bind_eq_ok_iff.1 hf
    exact ⟨p, Except.mapError_eq_ok_iff.1 hp⟩
  · rintro h ⟨names, c⟩ hmem
    obtain ⟨hfile, hpassed⟩ := mem_treeFiles_iff.1 hmem
    obtain ⟨p, hp⟩ := h names c hfile hpassed
    exact ⟨(p, c), Except.bind_eq_ok_iff.2 ⟨p, Except.mapError_eq_ok_iff.2 hp, rfl⟩⟩

theorem exists_file?_of_loadTree (h : loadTree root excludes d = .ok t)
    (hpath : t.get? path = some content) : ∃ dir names, d.locate root = .ok dir ∧
      d.file? (dir ++ names) = some content ∧ isPassedOver excludes names = false ∧
        TreePath.ofString (Location.text names) = .ok path := by
  obtain ⟨dir, files, hdir, rfl, hmem⟩ := exists_of_loadTree h
  obtain ⟨names, hfile⟩ := (hmem _ _).1 (SortedMap.mem_of_get?_ofList hpath)
  exact ⟨dir, names, hdir, hfile⟩

theorem fits_of_loadTree (hd : d.Fits) (h : loadTree root excludes d = .ok t) : t.Fits := by
  intro path content hcontent
  obtain ⟨dir, names, -, hfile, -⟩ := exists_file?_of_loadTree h hcontent
  exact hd _ content (Disk.file?_eq_some_iff.1 hfile)

/-- A file is loaded under its path, unless it is passed over or another has a path that becomes the
same. -/
theorem get?_loadTree (h : loadTree root excludes d = .ok t) (hdir : d.locate root = .ok dir)
    (hfile : d.file? (dir ++ names) = some content) (hpassed : isPassedOver excludes names = false)
    (hplain : (ofLocation names).IsNormal) (halone : d.IsAlone dir names) :
    t.get? (ofLocation names) = some content := by
  obtain ⟨dir', files, hdir', ht, hmem⟩ := exists_of_loadTree h
  obtain rfl := Except.ok.inj (hdir.symm.trans hdir')
  subst ht
  have hnode : d.node? dir ≠ none := fun hnone => by
    rw [Disk.file?_of_none (Disk.node?_of_prefix_of_none hnone (List.prefix_append _ _))] at hfile
    cases hfile
  obtain ⟨p, hp⟩ := (exists_loadTree_iff hdir hnode).1 ⟨_, h⟩ names content hfile hpassed
  obtain rfl : p = ofLocation names := hplain.eq_of_ofString hp
  refine SortedMap.get?_ofList_of_forall ((hmem _ _).2 ⟨names, hfile, hpassed, hp⟩) fun c hc => ?_
  obtain ⟨names', hfile', -, hp'⟩ := (hmem _ _).1 hc
  have hwalk := Disk.mem_walk_iff.2 (Disk.file?_eq_some_iff.1 hfile')
  obtain rfl : names' = names := halone _ hwalk (by simp) hp'
  exact Option.some.inj (hfile'.symm.trans hfile)

section

variable (hdir : d.locate root = .ok dir) (hd : d.HoldsTree dir t)
    (hkeys : ∀ key ∈ t.keys, key.IsNormal)
include hdir hd hkeys

/-- Where the files below a directory are those of a tree, it can be loaded exactly if normalisation
leaves every path alone that is not passed over. -/
theorem exists_loadTree_of_holdsTree : (∃ loaded, loadTree root excludes d = .ok loaded) ↔
    ∀ key ∈ t.keys, isPassedOver excludes key.location = false → key.IsStable := by
  rw [exists_loadTree_iff hdir (by simp [hd.isDirectory])]
  constructor
  · intro h key hkey hpassed
    obtain ⟨c, hc⟩ := SortedMap.mem_keys_iff.1 hkey
    rw [← (hkeys key hkey).ofLocation_location] at hc
    obtain ⟨p, hp⟩ := h key.location c (by rw [hd.file?_eq, hc]) hpassed
    have htext : Location.text key.location = key.text :=
      congrArg TreePath.text (hkeys key hkey).ofLocation_location
    rw [htext] at hp
    rw [TreePath.IsStable, hp, (hkeys key hkey).eq_of_ofString hp]
  · intro h names c hfile hpassed
    rw [hd.file?_eq] at hfile
    have hstable :=
      h (ofLocation names) (SortedMap.mem_keys_iff.2 ⟨c, hfile⟩) (by simpa using hpassed)
    exact ⟨_, hstable⟩

theorem loadTree_eq_of_holdsTree {loaded : Tree} (h : loadTree root excludes d = .ok loaded) :
    loaded = t.filter fun key _ => !isPassedOver excludes key.location := by
  apply SortedMap.ext_get?
  intro key
  refine Option.ext fun c => ?_
  rw [SortedMap.get?_filter, Option.filter_eq_some_iff]
  constructor
  · intro hget
    obtain ⟨dir', names, hdir', hfile, hpassed, hpath⟩ := exists_file?_of_loadTree h hget
    obtain rfl := Except.ok.inj (hdir.symm.trans hdir')
    rw [hd.file?_eq] at hfile
    obtain rfl := (hkeys _ (SortedMap.mem_keys_iff.2 ⟨c, hfile⟩)).eq_of_ofString hpath
    exact ⟨hfile, by simpa using hpassed⟩
  · rintro ⟨hget, hpassed⟩
    have hnormal := hkeys key (SortedMap.mem_keys_iff.2 ⟨c, hget⟩)
    obtain ⟨names, rfl⟩ : ∃ names, key = ofLocation names := ⟨_, hnormal.ofLocation_location.symm⟩
    exact get?_loadTree h hdir ((hd.file?_eq _).trans hget) (by simpa using hpassed) hnormal
      (hd.isAlone hkeys _)

end

end Store

end Patchwork
