import Mathlib.Data.List.Nodup
import Patchwork.Proofs.Disk.Change
import Patchwork.Store.PatchDirectory

/-!
# The files of a patch directory

A target has one patch file, from whose path it is found again (`targetOf_fileOf`). The patch files
of a directory are the files below it with such a name, wherever they lie (`mem_files_iff`).
-/
namespace Patchwork

open TreePath (ofLocation)

theorem TreePath.toList_ofLocation_concat (dir : Location) (name : FileName) :
    (ofLocation (dir ++ [name])).text.toList =
      dir.flatMap (fun name => name.text.toList ++ ['/']) ++ name.text.toList := by
  rw [toList_ofLocation, List.map_append, List.map_singleton, intercalate_concat, List.flatMap_map]

namespace PatchDirectory

/-! ## Targets and their files -/

def patchName (name : FileName) : FileName where
  text := name.text ++ suffix
  isFileName := by
    have hlong : 2 < (name.text ++ suffix).toList.length := by simp [suffix]
    refine ⟨?_, ?_, ?_, ?_⟩
    · exact fun h => by simp [h] at hlong
    · exact fun h => by simp [h] at hlong
    · exact fun h => by simp [h] at hlong
    · simp [suffix, name.isFileName.2.2.2]

theorem isPatchName_patchName (name : FileName) : isPatchName (patchName name).text = true := by
  have hne : name.text ≠ "" := fun h => name.isFileName.1 (by simp [h])
  have hends : (name.text ++ suffix).endsWith suffix = true := by
    rw [Text.endsWith_iff, String.toList_append]
    exact List.suffix_append _ _
  simp [isPatchName, patchName, hends, hne]

theorem toList_fileOf (target : TreePath) :
    (fileOf target).text.toList = target.text.toList ++ suffix.toList := by
  rw [fileOf, TreePath.addSuffix, String.toList_append]

theorem fileOf_ofLocation (dir : Location) (name : FileName) :
    fileOf (ofLocation (dir ++ [name])) = ofLocation (dir ++ [patchName name]) := by
  have hpatch : (ofLocation (dir ++ [name])).text.toList ++ suffix.toList =
      (ofLocation (dir ++ [patchName name])).text.toList := by
    simp [TreePath.toList_ofLocation_concat, patchName]
  exact congrArg TreePath.mk (String.toList_inj.1 ((toList_fileOf _).trans hpatch))

theorem exists_fileOf {target : TreePath} (h : target.IsFilePath) :
    ∃ (dir : Location) (name : FileName), target = ofLocation (dir ++ [name]) ∧
      fileOf target = ofLocation (dir ++ [patchName name]) ∧ (fileOf target).IsStable := by
  obtain ⟨l, rfl⟩ := h.stable.exists_ofLocation
  have hne : l ≠ [] := by
    rintro rfl
    exact absurd h.ne_root (by decide)
  obtain ⟨dir, name, rfl⟩ := (List.eq_nil_or_concat' l).resolve_left hne
  have hfile := fileOf_ofLocation dir name
  refine ⟨dir, name, rfl, hfile, ?_⟩
  obtain ⟨habsolute, hname⟩ := TreePath.isStable_ofLocation_iff.1 h.stable
  have hnil : (ofLocation (dir ++ [name])).text.toList ≠ [] := by
    rw [TreePath.toList_ofLocation_concat]
    simp [name.isFileName.1]
  rw [hfile, TreePath.isStable_ofLocation_iff, ← hfile, toList_fileOf,
    TreePath.isAbsoluteText_append hnil (by decide)]
  refine ⟨habsolute, ?_⟩
  simp only [List.mem_append, List.mem_singleton] at hname ⊢
  rintro other (hother | rfl)
  · exact hname other (.inl hother)
  · simpa [patchName, suffix] using hname name (.inr rfl)

theorem fileOf_injective : Function.Injective fileOf := by
  intro target target' h
  have htext : target.text ++ suffix = target'.text ++ suffix := congrArg TreePath.text h
  have heq : target.text.toList = target'.text.toList := by
    simpa [← String.toList_inj] using htext
  cases target
  cases target'
  simpa [← String.toList_inj] using heq

theorem targetOf_fileOf {target : TreePath} (h : target.IsFilePath) (path : DiskPath) :
    targetOf (fileOf target) path = .ok target := by
  have hstem : String.ofList ((target.text.toList ++ suffix.toList).take
      ((target.text.toList ++ suffix.toList).length - suffix.length)) = target.text := by
    rw [List.length_append, String.length_toList, String.length_toList, Nat.add_sub_cancel,
      ← String.length_toList, List.take_left, String.ofList_toList]
  have hends : suffix.toList.isSuffixOf (target.text.toList ++ suffix.toList) = true :=
    List.isSuffixOf_iff_suffix.2 (List.suffix_append _ _)
  unfold targetOf
  simp only [toList_fileOf, hends, hstem, if_true]
  rw [h.stable]
  simp [h.ne_root]

theorem isFilePath_of_targetOf {file target : TreePath} (hfile : file.IsNormal) {path : DiskPath}
    (h : targetOf file path = .ok target) : target.IsFilePath := by
  unfold targetOf at h
  dsimp only at h
  split_ifs at h
  split at h
  · rename_i found hfound
    split_ifs at h with hroot
    obtain rfl := Except.ok.inj h
    refine ⟨by simpa using hroot, TreePath.isStable_of_ofString hfile ?_ hfound⟩
    rw [String.toList_ofList]
    exact List.take_prefix _ _
  · cases h

/-- A file whose name is more than the suffix and a `.` at most. Of other files the target would
have no name of its own. -/
def HasStem (file : TreePath) : Prop :=
  ∀ name ∈ file.location.getLast?, name.text ≠ suffix ∧ name.text ≠ "." ++ suffix

instance (file : TreePath) : Decidable (HasStem file) :=
  inferInstanceAs (Decidable (∀ name ∈ file.location.getLast?, _))

/-- The target is read from the path of the file without the suffix, which its last name ends
with. -/
theorem exists_stem_of_targetOf {l : Location} {path : DiskPath} {target : TreePath}
    (h : targetOf (ofLocation l) path = .ok target) :
    ∃ (dir : Location) (name : FileName) (stem : List Char),
      l = dir ++ [name] ∧ name.text.toList = stem ++ suffix.toList ∧
      TreePath.ofString (String.ofList
        (List.intercalate ['/'] (dir.map (·.text.toList) ++ [stem]))) = .ok target := by
  unfold targetOf at h
  dsimp only at h
  split_ifs at h with hsuffix
  rw [List.isSuffixOf_iff_suffix] at hsuffix
  have hne : l ≠ [] := by
    rintro rfl
    exact absurd hsuffix (by decide)
  obtain ⟨dir, name, rfl⟩ := (List.eq_nil_or_concat' l).resolve_left hne
  have hslash : '/' ∉ suffix.toList := by decide
  -- The suffix holds no separator, so it does not reach into the names in front.
  have hname : suffix.toList <:+ name.text.toList := by
    rw [TreePath.toList_ofLocation_concat] at hsuffix
    rcases List.eq_nil_or_concat' dir with rfl | ⟨dir, last, rfl⟩
    · exact hsuffix
    · have hlast : '/' :: name.text.toList <:+
          (dir ++ [last]).flatMap (fun name => name.text.toList ++ ['/']) ++ name.text.toList :=
        ⟨dir.flatMap (fun name => name.text.toList ++ ['/']) ++ last.text.toList, by simp⟩
      rcases List.suffix_or_suffix_of_suffix hsuffix hlast with hin | hout
      · rcases List.suffix_cons_iff.1 hin with heq | hin
        · exact absurd (heq ▸ List.mem_cons_self) hslash
        · exact hin
      · exact absurd (hout.subset List.mem_cons_self) hslash
  obtain ⟨stem, hstem⟩ := hname
  refine ⟨dir, name, stem, rfl, hstem.symm, ?_⟩
  have htext : (ofLocation (dir ++ [name])).text.toList =
      List.intercalate ['/'] (dir.map (·.text.toList) ++ [stem]) ++ suffix.toList := by
    rw [TreePath.toList_ofLocation, List.map_append, List.map_singleton, ← hstem,
      intercalate_concat,
      intercalate_concat, List.append_assoc]
  rw [htext, List.length_append, ← String.length_toList, Nat.add_sub_cancel, List.take_left] at h
  split at h
  · rename_i found hfound
    split_ifs at h
    rw [hfound, Except.ok.inj h]
  · cases h

theorem hasStem_fileOf {target : TreePath} (h : target.IsFilePath) : HasStem (fileOf target) := by
  obtain ⟨dir, name, -, hfile, -⟩ := exists_fileOf h
  rw [HasStem, hfile, TreePath.location_ofLocation]
  intro name' hname'
  obtain rfl : patchName name = name' := by simpa using hname'
  have hname := name.isFileName
  simp only [patchName, ne_eq, ← String.toList_inj, String.toList_append, List.append_left_eq_self]
  exact ⟨hname.1, fun heq => hname.2.1 (List.append_cancel_right heq)⟩

theorem ne_up_of_ofString {dir : Location} {stem : List Char} {target : TreePath}
    (hdir : ∀ name ∈ dir, '\\' ∉ name.text.toList)
    (h : TreePath.ofString
    (String.ofList (List.intercalate ['/'] (dir.map (·.text.toList) ++ [stem]))) = .ok target) :
    stem ≠ ['.', '.'] := by
  rintro rfl
  refine (TreePath.ofString_eq_ok_iff.1 h).2.1 ?_
  rw [String.toList_ofList, TreePath.namesOfText, splitOnP_intercalate rfl (by simp)]
  · simp
  · intro segment hsegment c hc
    rw [TreePath.isSeparator_eq_false_iff]
    rw [List.mem_append, List.mem_map, List.mem_singleton] at hsegment
    rcases hsegment with ⟨name, hname, rfl⟩ | rfl
    · exact ⟨fun h => name.isFileName.2.2.2 (h ▸ hc), fun h => hdir name hname (h ▸ hc)⟩
    · obtain rfl : c = '.' := by simpa using hc
      decide

/-- A file with a stem lies where its target would, and is named after it. -/
theorem exists_eq_of_targetOf {file target : TreePath} {path : DiskPath} (hfile : file.IsNormal)
    (h : targetOf file path = .ok target) (hstem : HasStem file) :
    ∃ (dir : Location) (name : FileName),
      file = ofLocation (dir ++ [patchName name]) ∧ target = ofLocation (dir ++ [name]) := by
  obtain ⟨heq, hbackslash⟩ := TreePath.isNormal_iff.1 hfile
  generalize file.location = l at *
  subst heq
  obtain ⟨dir, name, stem, rfl, hname, htarget⟩ := exists_stem_of_targetOf h
  rw [HasStem, TreePath.location_ofLocation] at hstem
  have hsub : ∀ c ∈ stem, c ∈ name.text.toList := fun c hc => by simp [hname, hc]
  have hplain : '/' ∉ stem ∧ '\\' ∉ stem :=
    ⟨fun hc => name.isFileName.2.2.2 (hsub _ hc), fun hc => hbackslash name (by simp) (hsub _ hc)⟩
  obtain ⟨hnonempty, hdot⟩ : stem ≠ [] ∧ stem ≠ ['.'] := by
    have hshort := hstem name (by simp)
    simp only [ne_eq, ← String.toList_inj, hname, String.toList_append] at hshort
    exact ⟨fun hnil => hshort.1 (by simp [hnil]), fun hone => hshort.2 (by simp [hone])⟩
  have hup := ne_up_of_ofString (fun other hother => hbackslash other (by simp [hother])) htarget
  let base : FileName := ⟨String.ofList stem, by simpa using ⟨hnonempty, hdot, hup, hplain.1⟩⟩
  have hpatch : patchName base = name := by
    obtain ⟨text, _⟩ := name
    have htext : String.ofList stem ++ suffix = text := by
      rw [← String.toList_inj, String.toList_append, String.toList_ofList]
      exact hname.symm
    simp only [patchName, base, htext]
  have hlocation : String.ofList (List.intercalate ['/'] (dir.map (·.text.toList) ++ [stem])) =
      (ofLocation (dir ++ [base])).text := by
    rw [← String.toList_inj, TreePath.toList_ofLocation]
    simp [base]
  have hnormal : (ofLocation (dir ++ [base])).IsNormal := by
    rw [TreePath.isNormal_ofLocation_iff]
    intro other hother
    rw [List.mem_append, List.mem_singleton] at hother
    rcases hother with hother | rfl
    · exact hbackslash other (by simp [hother])
    · simpa [base] using hplain.2
  rw [hlocation] at htarget
  exact ⟨dir, base, by rw [hpatch], hnormal.eq_of_ofString htarget⟩

/-- A target is stored in the file that it was read from, if the name of that file has a stem. -/
theorem fileOf_eq_iff {file target : TreePath} {path : DiskPath} (hfile : file.IsNormal)
    (h : targetOf file path = .ok target) : fileOf target = file ↔ HasStem file := by
  have htarget := isFilePath_of_targetOf hfile h
  constructor
  · rintro rfl
    exact hasStem_fileOf htarget
  · intro hstem
    obtain ⟨dir, name, rfl, rfl⟩ := exists_eq_of_targetOf hfile h hstem
    obtain ⟨dir', name', heq, hfileOf, -⟩ := exists_fileOf htarget
    obtain ⟨rfl, hname⟩ := List.append_inj' (TreePath.ofLocation_injective heq) rfl
    rw [hfileOf, ← List.singleton_inj.1 hname]

def fileLocation (target : TreePath) : Location := (fileOf target).location

theorem ofLocation_fileLocation {target : TreePath} (h : target.IsFilePath) :
    ofLocation (fileLocation target) = fileOf target := by
  obtain ⟨-, -, -, -, hstable⟩ := exists_fileOf h
  exact hstable.ofLocation_location

def IsPatchLocation (l : Location) : Prop := ∃ name ∈ l.getLast?, isPatchName name.text = true

theorem isPatchLocation_fileLocation {target : TreePath} (h : target.IsFilePath) (dir : Location) :
    IsPatchLocation (dir ++ fileLocation target) := by
  obtain ⟨l, name, -, hfile, -⟩ := exists_fileOf h
  rw [fileLocation, hfile, TreePath.location_ofLocation]
  exact ⟨patchName name, by simp, isPatchName_patchName name⟩

theorem fileLocation_ne_nil {target : TreePath} (h : target.IsFilePath) :
    fileLocation target ≠ [] := by
  obtain ⟨name, hname, -⟩ := isPatchLocation_fileLocation h []
  rintro hnil
  simp [hnil] at hname

theorem fileLocation_inj {target target' : TreePath} (h : target.IsFilePath)
    (h' : target'.IsFilePath) (heq : fileLocation target = fileLocation target') :
    target = target' := by
  apply fileOf_injective
  rw [← ofLocation_fileLocation h, heq, ofLocation_fileLocation h']

theorem below_fileOf {target : TreePath} (h : target.IsFilePath) (p : DiskPath) :
    p.below (fileOf target) = p.belowNames (fileLocation target) := by
  rw [← ofLocation_fileLocation h, DiskPath.below_ofLocation]

/-! ## Files that are found -/

variable {p : PatchDirectory} {d : Disk} {dir names : Location}

theorem mem_patchNames_iff : names ∈ patchNames d dir ↔
    (∃ content, d.file? (dir ++ names) = some content) ∧ IsPatchLocation (dir ++ names) := by
  unfold patchNames
  rw [List.mem_filterMap]
  constructor
  · rintro ⟨⟨names', node⟩, hwalk, h⟩
    have hnode := Disk.mem_walk_iff.1 hwalk
    split at h
    · rename_i content name hfile hname
      split_ifs at h with hpatch
      cases h
      dsimp only at hfile
      subst hfile
      exact ⟨⟨content, Disk.file?_eq_some_iff.2 hnode⟩, name, hname, hpatch⟩
    · cases h
  · rintro ⟨⟨content, hfile⟩, name, hname, hpatch⟩
    refine ⟨(names, .file content), Disk.mem_walk_iff.2 (Disk.file?_eq_some_iff.1 hfile), ?_⟩
    dsimp only
    rw [Option.mem_def.1 hname]
    simp [hpatch]

/-- Below the root, normalisation leaves the paths of patch files alone. -/
def HasStableFiles (p : PatchDirectory) (d : Disk) : Prop :=
  ∀ dir ∈ p.root.location?, ∀ names ∈ patchNames d dir, (ofLocation names).IsStable

instance (p : PatchDirectory) (d : Disk) : Decidable (p.HasStableFiles d) :=
  inferInstanceAs (Decidable (∀ dir ∈ p.root.location?, _))

theorem exists_locate_of_files {found : List TreePath} (h : p.files d = .ok found) :
    ∃ dir, d.locate p.root = .ok dir := by
  obtain ⟨dir, hdir, -⟩ := Except.bind_eq_ok_iff.1 h
  exact ⟨dir, Except.mapError_eq_ok_iff.1 hdir⟩

theorem files_eq (hdir : d.locate p.root = .ok dir)
    (hstable : ∀ names ∈ patchNames d dir, (ofLocation names).IsStable) :
    p.files d = .ok
      (((patchNames d dir).map ofLocation).mergeSort fun a b => (compare a b).isLE) := by
  have hfound : (patchNames d dir).mapM (fun names =>
      (TreePath.ofString (Location.text names)).mapError StoreError.invalidPath) =
        .ok ((patchNames d dir).map ofLocation) := by
    rw [Except.mapM_eq_ok_iff, List.forall₂_map_right_iff, List.forall₂_same]
    intro names hnames
    have hpath : TreePath.ofString (Location.text names) = .ok (ofLocation names) :=
      hstable names hnames
    rw [hpath]
    rfl
  rw [PatchDirectory.files, hdir]
  exact Except.bind_eq_ok_iff.2 ⟨dir, rfl, Except.bind_eq_ok_iff.2 ⟨_, hfound, rfl⟩⟩

theorem mem_files_iff (hdir : d.locate p.root = .ok dir)
    (hstable : ∀ names ∈ patchNames d dir, (ofLocation names).IsStable) {found : List TreePath}
    (hfound : p.files d = .ok found) {file : TreePath} :
    file ∈ found ↔ ∃ names ∈ patchNames d dir, ofLocation names = file := by
  rw [files_eq hdir hstable] at hfound
  obtain rfl := Except.ok.inj hfound
  rw [List.mem_mergeSort, List.mem_map]

theorem nodup_patchNames (d : Disk) (dir : Location) : (patchNames d dir).Nodup := by
  have hsorted : (patchNames d dir).Pairwise fun a b => compare a b = .lt := by
    refine Disk.pairwise_filterMap_walk fun e names h => ?_
    split at h
    · split_ifs at h
      exact Option.some.inj h
    · cases h
  refine hsorted.imp fun hlt heq => ?_
  simp [heq, Std.ReflCmp.compare_self] at hlt

theorem pairwise_files (hdir : d.locate p.root = .ok dir)
    (hstable : ∀ names ∈ patchNames d dir, (ofLocation names).IsStable) {found : List TreePath}
    (hfound : p.files d = .ok found) : found.Pairwise fun a b => compare a b = .lt := by
  rw [files_eq hdir hstable] at hfound
  obtain rfl := Except.ok.inj hfound
  have hnodup := List.Nodup.map TreePath.ofLocation_injective (nodup_patchNames d dir)
  have htotal : ∀ a b : TreePath, ((compare a b).isLE || (compare b a).isLE) = true := by
    intro a b
    have hswap : compare b a = (compare a b).swap := Std.OrientedCmp.eq_swap
    rw [hswap]
    cases compare a b <;> rfl
  have hsorted := List.pairwise_mergeSort (fun _ _ _ => Std.TransCmp.isLE_trans) htotal
    ((patchNames d dir).map ofLocation)
  have hdistinct : (((patchNames d dir).map ofLocation).mergeSort fun a b =>
      (compare a b).isLE).Nodup :=
    (List.mergeSort_perm _ _).nodup_iff.2 hnodup
  refine (hsorted.and hdistinct).imp fun {a b} ⟨hle, hne⟩ => ?_
  cases hcompare : compare a b with
  | lt => rfl
  | eq => exact absurd (Std.LawfulEqCmp.eq_of_compare hcompare) hne
  | gt => simp [hcompare] at hle

end PatchDirectory

end Patchwork
