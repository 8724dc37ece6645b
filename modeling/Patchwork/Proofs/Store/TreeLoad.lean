import Patchwork.Proofs.Store.Series
import Patchwork.Proofs.Store.Tree
import Patchwork.Proofs.Tree.Region

/-!
# A directory and its tree

Where no name on the way to a file holds a backslash, the loaded tree has each file that is not
passed over once, under the names that lead to it (`get?_loadTree_iff`). So without exclusions every
file is there exactly if no name holds a backslash (`loadTree_fileByFile`), and it makes no
difference whether files are excluded while the directory is walked or from what was loaded
(`loadTree_eq_subtree`).
-/
namespace Patchwork.Store

open PatchDirectory (diskOfFiles)
open TreePath (ofLocation)

variable {d : Disk} {root : DiskPath} {dir names front : Location} {excludes : List TreePath}
    {t : Tree}
  {key : TreePath} {content : Content}

/-! ## Paths of files -/

theorem eq_ofLocation_of_ofString (hplain : ∀ name ∈ names, '\\' ∉ name.text.toList)
    (h : TreePath.ofString (Location.text names) = .ok key) : key = ofLocation names :=
  (TreePath.isNormal_ofLocation_iff.2 hplain).eq_of_ofString h

/-- No name on the way to a file holds a backslash. -/
def HasPlainNames (d : Disk) (dir : Location) : Prop :=
  ∀ names content, d.file? (dir ++ names) = some content → ∀ name ∈ names, '\\' ∉ name.text.toList

theorem hasPlainNames_iff : HasPlainNames d dir ↔
    ∀ e ∈ d.walk dir, e.2 ≠ .directory → ∀ name ∈ e.1, '\\' ∉ name.text.toList := by
  constructor
  · rintro h ⟨names, node⟩ hwalk hfile
    cases node with
    | directory => exact absurd rfl hfile
    | file content => exact h names content (Disk.file?_eq_some_iff.2 (Disk.mem_walk_iff.1 hwalk))
  · exact fun h names content hfile =>
      h (names, .file content) (Disk.mem_walk_iff.2 (Disk.file?_eq_some_iff.1 hfile)) (by simp)

instance (d : Disk) (dir : Location) : Decidable (HasPlainNames d dir) :=
  decidable_of_iff _ hasPlainNames_iff.symm

theorem HasPlainNames.isAlone (h : HasPlainNames d dir) (names : Location) :
    d.IsAlone dir names := by
  rintro ⟨other, node⟩ hwalk hfile hpath
  cases node with
  | directory => exact absurd rfl hfile
  | file content =>
    have hother := h other content (Disk.file?_eq_some_iff.2 (Disk.mem_walk_iff.1 hwalk))
    exact TreePath.ofLocation_injective (eq_ofLocation_of_ofString hother hpath).symm

theorem get?_loadTree_iff (hlocate : d.locate root = .ok dir) (hplain : HasPlainNames d dir)
    (h : loadTree root excludes d = .ok t) : t.get? key = some content ↔
      ∃ names, ofLocation names = key ∧ d.file? (dir ++ names) = some content ∧
        isPassedOver excludes names = false := by
  constructor
  · intro hget
    obtain ⟨dir', names, hlocate', hfile, hpassed, hpath⟩ := exists_file?_of_loadTree h hget
    obtain rfl := Except.ok.inj (hlocate.symm.trans hlocate')
    exact ⟨names, (eq_ofLocation_of_ofString (hplain names content hfile) hpath).symm, hfile,
      hpassed⟩
  · rintro ⟨names, rfl, hfile, hpassed⟩
    have hnames := hplain names content hfile
    exact get?_loadTree h hlocate hfile hpassed (TreePath.isNormal_ofLocation_iff.2 hnames)
      (hplain.isAlone names)

theorem hasNormalPaths_of_loadTree (h : loadTree root excludes d = .ok t) : t.HasNormalPaths := by
  intro key hkey
  obtain ⟨content, hget⟩ := SortedMap.mem_keys_iff.1 hkey
  obtain ⟨_, names, -, -, -, hpath⟩ := exists_file?_of_loadTree h hget
  exact ⟨_, hpath⟩

/-! ## Every file once -/

/-- Every entry of a loaded tree comes from a file whose path becomes its own, and the path of every
file becomes that of an entry. The entries are those of the files, each under its own names with its
own content, exactly if no name on the way to a file holds a backslash. -/
theorem loadTree_fileByFile (hlocate : d.locate root = .ok dir)
    (hversioned : ∀ names, d.node? (dir ++ names) ≠ none →
    ∀ name ∈ names, name.text ≠ versionControl) (h : loadTree root [] d = .ok t) :
    (∀ key content, t.get? key = some content → ∃ names, d.file? (dir ++ names) = some content ∧
      TreePath.ofString (Location.text names) = .ok key) ∧
    (∀ names content, d.file? (dir ++ names) = some content → ∃ key, key ∈ t.keys ∧
      TreePath.ofString (Location.text names) = .ok key) ∧
    ((∀ key content, t.get? key = some content ↔
        ∃ names, ofLocation names = key ∧ d.file? (dir ++ names) = some content) ↔
          HasPlainNames d dir) := by
  have hkept : ∀ names content, d.file? (dir ++ names) = some content →
      isPassedOver [] names = false := by
    intro names content hfile
    refine isPassedOver_nil (hversioned names ?_)
    rw [Disk.file?_eq_some_iff.1 hfile]
    nofun
  refine ⟨fun key content hget => ?entry, fun names content hfile => ?file,
    fun hall names content hfile => ?plain, fun hplain key content => ?all⟩
  case entry =>
    obtain ⟨dir', names, hlocate', hfile, -, hpath⟩ := exists_file?_of_loadTree h hget
    obtain rfl := Except.ok.inj (hlocate.symm.trans hlocate')
    exact ⟨names, hfile, hpath⟩
  case file =>
    have hdir : d.node? dir ≠ none := fun hnone => by
      rw [Disk.file?_of_none (Disk.node?_of_prefix_of_none hnone (List.prefix_append _ _))] at hfile
      cases hfile
    obtain ⟨key, hpath⟩ :=
      (exists_loadTree_iff hlocate hdir).1 ⟨t, h⟩ names content hfile (hkept names content hfile)
    obtain ⟨dir', files, hlocate', rfl, hmem⟩ := exists_of_loadTree h
    obtain rfl := Except.ok.inj (hlocate.symm.trans hlocate')
    exact ⟨key,
      SortedMap.mem_keys_ofList_iff.2
      ⟨content, (hmem _ _).2 ⟨names, hfile, hkept names content hfile, hpath⟩⟩, hpath⟩
  case plain =>
    have hget := (hall (ofLocation names) content).2 ⟨names, rfl, hfile⟩
    exact TreePath.isNormal_ofLocation_iff.1 ((hasNormalPaths_of_loadTree h).isNormal hget)
  case all =>
    rw [get?_loadTree_iff hlocate hplain h]
    refine exists_congr fun names => and_congr_right fun _ => ?_
    exact ⟨fun hfile => hfile.1, fun hfile => ⟨hfile, hkept names content hfile⟩⟩

/-- Two directories with entries of the same names. -/
theorem loadTree_fileByFile_nested :
    let d := diskOfFiles [("d/a", "1"), ("d/b/a", "2"), ("d/b/c/a", "3"), ("e", "4")]
    let dir := TreePath.location ⟨"d"⟩
    let t : Tree := .ofList [(⟨"a"⟩, .ofText "1"), (⟨"b/a"⟩, .ofText "2"), (⟨"b/c/a"⟩, .ofText "3")]
    d.locate ⟨"d"⟩ = .ok dir ∧ loadTree ⟨"d"⟩ [] d = .ok t ∧ HasPlainNames d dir ∧
      ∀ key content, t.get? key = some content ↔
        ∃ names, ofLocation names = key ∧ d.file? (dir ++ names) = some content := by
  intro d dir t
  have hlocate : d.locate ⟨"d"⟩ = .ok dir := by decide +kernel
  have hload : loadTree ⟨"d"⟩ [] d = .ok t := by decide +kernel
  have hplain : HasPlainNames d dir := by decide +kernel
  have hversioned : ∀ e ∈ d.walk dir, ∀ name ∈ e.1, name.text ≠ versionControl := by decide +kernel
  exact ⟨hlocate, hload, hplain,
    (loadTree_fileByFile hlocate (Disk.forall_mem_walk_iff.1 hversioned) hload).2.2.2 hplain⟩

/-- A backslash in a name is read as a separator, so the file of that name has the path of another
one, whose content is lost. -/
theorem not_forall_loadTree_fileByFile :
    ¬ ∀ (d : Disk) (root : DiskPath) (dir : Location) (t : Tree), d.locate root = .ok dir →
      (∀ names, d.node? (dir ++ names) ≠ none → ∀ name ∈ names, name.text ≠ versionControl) →
      loadTree root [] d = .ok t →
      ∀ names content, d.file? (dir ++ names) = some content → t.get?
        (ofLocation names) = some content := by
  intro h
  let d := diskOfFiles [("d/a\\b", "1"), ("d/a/b", "2")]
  let dir := TreePath.location ⟨"d"⟩
  have hversioned : ∀ e ∈ d.walk dir, ∀ name ∈ e.1, name.text ≠ versionControl := by decide +kernel
  have hlost := h d ⟨"d"⟩ dir (.ofList [(⟨"a/b"⟩, .ofText "1")]) (by decide +kernel)
    (Disk.forall_mem_walk_iff.1 hversioned) (by decide +kernel) (TreePath.location ⟨"a/b"⟩)
      (.ofText "2")
    (by decide +kernel)
  exact absurd hlost (by decide +kernel)

/-! ## Excluding -/

/-- Whether a file is excluded shows in its own path: a directory on the way to it is not excluded
unless the file is. -/
theorem isPassedOver_eq_false_iff_isExcluded (hne : names ≠ [])
    (hplain : ∀ name ∈ names, '\\' ∉ name.text.toList) (hpath : isPassedOver [] names = false →
    TreePath.ofString (Location.text names) = .ok (ofLocation names)) :
    isPassedOver excludes names = false ↔
      isPassedOver [] names = false ∧ (ofLocation names).isExcluded excludes = false := by
  constructor
  · intro h
    have hpassed : isPassedOver [] names = false := by
      rw [isPassedOver_eq_false_iff] at h ⊢
      exact fun front hfront hprefix => ⟨(h front hfront hprefix).1, fun _ _ => rfl⟩
    exact ⟨hpassed, (isPassedOver_eq_false_iff.1 h names hne (List.prefix_refl _)).2 _
      (hpath hpassed)⟩
  · rintro ⟨hpassed, hexcluded⟩
    rw [isPassedOver_eq_false_iff] at hpassed ⊢
    refine fun front hfront hprefix => ⟨(hpassed front hfront hprefix).1, fun p hp => ?_⟩
    obtain ⟨rest, rfl⟩ := hprefix
    obtain rfl :=
      eq_ofLocation_of_ofString (fun name hname => hplain name (List.mem_append_left _ hname)) hp
    by_contra hin
    have hjoin := TreePath.isExcluded_join (by simpa using hin) (ofLocation rest)
    rw [TreePath.join_ofLocation, hexcluded] at hjoin
    cases hjoin

/-- If a directory whose files have plain names is loaded, it is also loaded with exclusions, which
then take out what they take out of the loaded tree. -/
theorem loadTree_eq_subtree (hlocate : d.locate root = .ok dir)
    (hdir : d.node? dir = some .directory) (hplain : HasPlainNames d dir)
    (h : loadTree root [] d = .ok t) :
    loadTree root excludes d = .ok (t.subtree .root excludes) := by
  have hbelow : ∀ names content, d.file? (dir ++ names) = some content → names ≠ [] := by
    rintro names content hfile rfl
    rw [List.append_nil, Disk.file?_of_directory hdir] at hfile
    cases hfile
  have hnode : d.node? dir ≠ none := by simp [hdir]
  have hread := (exists_loadTree_iff hlocate hnode).1 ⟨t, h⟩
  have hkept : ∀ names content, d.file? (dir ++ names) = some content →
      (isPassedOver excludes names = false ↔ isPassedOver [] names = false ∧
      (ofLocation names).isExcluded excludes = false) := by
    intro names content hfile
    refine isPassedOver_eq_false_iff_isExcluded (hbelow names content hfile)
      (hplain names content hfile) fun hpassed => ?_
    obtain ⟨p, hp⟩ := hread names content hfile hpassed
    rw [hp, eq_ofLocation_of_ofString (hplain names content hfile) hp]
  obtain ⟨u, hu⟩ : ∃ u, loadTree root excludes d = .ok u := (exists_loadTree_iff hlocate hnode).2
    fun names content hfile hpassed => hread names content hfile
      ((hkept names content hfile).1 hpassed).1
  rw [hu]
  refine congrArg Except.ok (SortedMap.ext_get? fun key => Option.ext fun content => ?_)
  rw [get?_loadTree_iff hlocate hplain hu,
    Tree.get?_subtree_eq_some_iff (hasNormalPaths_of_loadTree h)
    (by decide), TreePath.join_of_isRoot rfl, get?_loadTree_iff hlocate hplain h]
  constructor
  · rintro ⟨names, rfl, hfile, hpassed⟩
    obtain ⟨hpassed, hexcluded⟩ := (hkept names content hfile).1 hpassed
    have hne : (ofLocation names).isRoot = false := by
      rw [← Bool.not_eq_true, TreePath.isRoot_ofLocation]
      exact hbelow names content hfile
    have hnormal := TreePath.isNormal_ofLocation_iff.2 (hplain names content hfile)
    exact ⟨⟨hnormal, hne, hexcluded⟩, names, rfl, hfile, hpassed⟩
  · rintro ⟨⟨-, -, hexcluded⟩, names, rfl, hfile, hpassed⟩
    exact ⟨names, rfl, hfile, (hkept names content hfile).2 ⟨hpassed, hexcluded⟩⟩

/-- An excluded directory below another, one whose name only starts like an excluded one, an
excluded file, and version control at two depths. -/
theorem loadTree_eq_subtree_nested :
    let d :=
      diskOfFiles [("d/.git/head", "0"), ("d/lib/gen/x", "1"), ("d/lib/generated", "2"),
        ("d/lib/.git/head", "3"),
      ("d/main", "4"), ("d/readme", "5")]
    let excludes : List TreePath := [⟨"lib/gen"⟩, ⟨"lib/gen/x"⟩, ⟨"readme"⟩, ⟨"missing"⟩]
    let t : Tree :=
      .ofList [(⟨"lib/gen/x"⟩, .ofText "1"), (⟨"lib/generated"⟩, .ofText "2"),
        (⟨"main"⟩, .ofText "4"),
      (⟨"readme"⟩, .ofText "5")]
    loadTree ⟨"d"⟩ [] d = .ok t ∧ loadTree ⟨"d"⟩ excludes d = .ok (t.subtree .root excludes) ∧
      t.subtree .root excludes = .ofList
        [(⟨"lib/generated"⟩, .ofText "2"), (⟨"main"⟩, .ofText "4")] := by
  intro d excludes t
  have hlocate : d.locate ⟨"d"⟩ = .ok (TreePath.location ⟨"d"⟩) := by decide +kernel
  have hload : loadTree ⟨"d"⟩ [] d = .ok t := by decide +kernel
  exact ⟨hload, loadTree_eq_subtree hlocate (by decide +kernel) (by decide +kernel) hload, by
    decide +kernel⟩

end Patchwork.Store
