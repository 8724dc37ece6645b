import Patchwork.Proofs.Store.FileOrder
import Patchwork.Proofs.Store.PatchRead
import Patchwork.Proofs.Tree.Text

/-!
# Writing back what was read

A patch directory that was read holds exactly the files of the patches if no patch is read twice,
and each from the file of its target (`SuppliesEach`). The stack can then be written back: only a
series file is written anew, and the same stack is read again (`write_read`).
-/
namespace Patchwork

open TreePath (ofLocation)

variable {d d' e : Disk} {dir names : Location}

theorem Store.exists_putFile {root : DiskPath} {name : FileName} (hp : d.Reaches root dir)
    (hl : d.locate (root.join ⟨name.text⟩) = .ok (dir ++ [name]))
    (hnode : d.node? (dir ++ [name]) ≠ some .directory) (content : Content) :
    ∃ e, putFile (root.join ⟨name.text⟩) content d = (.ok (), e) ∧
      ∀ m, e.node? m = if m = dir ++ [name] then some (.file content) else d.node? m := by
  have hvalid := (Disk.locate_eq_ok_iff.1 hl).1
  have hmake :=
    (Disk.reaches_directory_join_iff.2 hp).makeDirectories_eq (Disk.fault?_directory_join hvalid)
  obtain ⟨e, hput⟩ := hp.exists_putFile hl hnode content
  have hnul : (root.join ⟨name.text⟩).holdsNul = false := by
    simpa [DiskPath.holdsNul] using (Disk.fault?_eq_none_iff.1 hvalid).1
  refine ⟨e, bind_eq_ok_iff.2 ⟨(), d, makeDirectories_eq_ok_iff.2 hmake, change_eq_ok_iff.2 ?_⟩, ?_⟩
  · rw [Disk.renameInto, hnul, if_neg Bool.false_ne_true, hput]
  · obtain ⟨l, hl', hat⟩ := Disk.exists_putAt_of_putFile hput
    obtain rfl := Except.ok.inj (hl.symm.trans hl')
    exact (Disk.node?_of_putAt hat).1

namespace PatchDirectory

variable {p : PatchDirectory} {s : Stack} {files : List TreePath}

/-- Every patch file at or below a location is that of exactly one patch, whose text it holds. -/
structure SuppliesEach (d : Disk) (dir : Location) (s : Stack) : Prop where
  files : (s.map fun patch => fileLocation patch.target).Perm (patchNames d dir)
  bodies : ∀ patch ∈ s, d.file? (dir ++ fileLocation patch.target) = some (.ofText patch.body)

namespace SuppliesEach

theorem nodup_targets (h : SuppliesEach d dir s) : (s.map (·.target)).Nodup := by
  have hlocations : ((s.map (·.target)).map fileLocation).Nodup := by
    rw [List.map_map]
    exact h.files.nodup_iff.2 (nodup_patchNames d dir)
  exact hlocations.of_map _

theorem isStable (h : SuppliesEach d dir s) (htargets : ∀ patch ∈ s, patch.target.IsFilePath) :
    ∀ names ∈ patchNames d dir, (ofLocation names).IsStable := by
  intro names hnames
  obtain ⟨patch, hpatch, rfl⟩ := List.mem_map.1 (h.files.mem_iff.2 hnames)
  obtain ⟨-, -, -, -, hstable⟩ := exists_fileOf (htargets patch hpatch)
  rwa [ofLocation_fileLocation (htargets patch hpatch)]

theorem of_mem_iff (htargets : ∀ patch ∈ s, patch.target.IsFilePath)
    (hnodup : (s.map (·.target)).Nodup) (hmem : ∀ names, names ∈ patchNames d dir ↔
    ∃ patch ∈ s, fileLocation patch.target = names)
    (hbodies : ∀ patch ∈ s, d.file? (dir ++ fileLocation patch.target) = some
    (.ofText patch.body)) :
    SuppliesEach d dir s := by
  have hlocations : (s.map fun patch => fileLocation patch.target).Nodup := by
    refine (List.nodup_map_iff_inj_on hnodup.of_map).2 fun patch hpatch other hother heq => ?_
    have htarget := fileLocation_inj (htargets patch hpatch) (htargets other hother) heq
    exact List.inj_on_of_nodup_map hnodup hpatch hother htarget
  refine ⟨(List.perm_ext_iff_of_nodup hlocations (nodup_patchNames d dir)).2 fun names => ?_,
    hbodies⟩
  rw [List.mem_map, hmem]

theorem of_keepsFiles (h : SuppliesEach d dir s) (hkeeps : d.KeepsFiles e) :
    SuppliesEach e dir s := by
  have hnames : (patchNames d dir).Perm (patchNames e dir) :=
    (List.perm_ext_iff_of_nodup (nodup_patchNames d dir) (nodup_patchNames e dir)).2 fun names => by
      rw [mem_patchNames_iff, mem_patchNames_iff, hkeeps]
  exact ⟨h.files.trans hnames, fun patch hpatch => by rw [hkeeps, h.bodies patch hpatch]⟩

theorem stale_eq_nil (h : SuppliesEach d dir s) (htargets : ∀ patch ∈ s, patch.target.IsFilePath)
    (hlocate : d.locate p.root = .ok dir) {found : List TreePath} (hfound : p.files d = .ok found) :
    found.filter (· ∉ s.map fun patch => fileOf patch.target) = [] := by
  rw [List.filter_eq_nil_iff]
  intro file hfile
  obtain ⟨names, hnames, rfl⟩ := (mem_files_iff hlocate (h.isStable htargets) hfound).1 hfile
  obtain ⟨patch, hpatch, rfl⟩ := List.mem_map.1 (h.files.mem_iff.2 hnames)
  rw [ofLocation_fileLocation (htargets patch hpatch)]
  simpa using ⟨patch, hpatch, rfl⟩

end SuppliesEach

theorem writePatch_eq (hreach : d.Reaches p.root dir) {patch : StoredPatch}
    (ht : patch.target.IsFilePath)
    (hfile : d.file? (dir ++ fileLocation patch.target) = some (.ofText patch.body)) :
    p.writePatch patch d =
      ((Store.file? (p.root.below (fileOf patch.target)) d).map fun _ => (), d) := by
  cases hlook : Store.file? (p.root.below (fileOf patch.target)) d with
  | error error => exact Store.bind_eq_error_iff.2 (.inl (Prod.ext hlook rfl))
  | ok found =>
    rw [below_fileOf ht] at hlook
    obtain rfl := Store.eq_some_of_file?_belowNames hreach (fileLocation_ne_nil ht) hfile hlook
    rw [← below_fileOf ht] at hlook
    refine Store.bind_eq_ok_iff.2 ⟨_, d, Store.inspect_eq_ok_iff.2 ⟨hlook, rfl⟩, ?_⟩
    rw [if_neg (not_not.2 rfl)]
    rfl

theorem exists_putSeries (hreach : d.Reaches p.root dir) (content : Content) : ∃ e,
    (if p.hasSeries d then Store.putFile p.seriesPath content else pure ()) d = (.ok (), e) ∧
      d.KeepsDirectories e ∧ e.KeepsDirectories d ∧ (∀ l, e.file? l = none → d.file? l = none) ∧
      ∀ l, l ≠ dir ++ [seriesName] → e.file? l = d.file? l := by
  cases hseries : p.hasSeries d with
  | false => exact ⟨d, rfl, .refl d, .refl d, fun _ => id, fun _ _ => rfl⟩
  | true =>
    obtain ⟨l, old, hl, hfile⟩ := hasSeries_iff.1 hseries
    obtain rfl := hreach.eq_of_locate (by simp) hl
    have hold := Disk.file?_eq_some_iff.1 hfile
    obtain ⟨e, hput, hnode⟩ := Store.exists_putFile hreach hl (by rw [hold]; nofun) content
    have hother : ∀ m, m ≠ dir ++ [seriesName] → e.node? m = d.node? m := fun m hm => by
      rw [hnode, if_neg hm]
    have hnew : e.node? (dir ++ [seriesName]) = some (.file content) := by rw [hnode, if_pos rfl]
    refine ⟨e, hput, fun m hm => ?_, fun m hm => ?_, fun m hm => ?_, fun m hm =>
      Disk.file?_of_node? (hother m hm)⟩
    · rwa [hother m (by rintro rfl; rw [hold] at hm; cases hm)]
    · rwa [← hother m (by rintro rfl; rw [hnew] at hm; cases hm)]
    · have hne : m ≠ dir ++ [seriesName] := by
        rintro rfl
        rw [Disk.file?_eq_some_iff.2 hnew] at hm
        cases hm
      rwa [← Disk.file?_of_node? (hother m hne)]

/-- What a directory holds can be written to it if its files can be read: only a series file is
written anew, and directories without a file go. -/
theorem exists_write_of_suppliesEach (hreach : d.Reaches p.root dir)
    (hlocate : d.locate p.root = .ok dir) (htargets : ∀ patch ∈ s, patch.target.IsFilePath)
    (h : SuppliesEach d dir s)
    (hcontent : ∀ patch ∈ s, d.content (p.root.below (fileOf patch.target)) = .ok
    (.ofText patch.body)) (hstays : p.RootStays d) :
    ∃ d', p.write s d = (.ok (), d') ∧ d'.Reaches p.root dir ∧ d'.KeepsDirectories d ∧
      ∀ l, l ≠ dir ++ [seriesName] → d'.file? l = d.file? l := by
  have hvalid := (Disk.locate_eq_ok_iff.1 hlocate).1
  have hfound := files_eq hlocate (h.isStable htargets)
  have hput : Store.each p.writePatch s d = (.ok (), d) := by
    have hstep : ∀ patch ∈ s, ∀ e, e = d → ∃ f, p.writePatch patch e = (.ok (), f) ∧ f = d := by
      rintro patch hpatch _ rfl
      rw [writePatch_eq hreach (htargets patch hpatch) (h.bodies patch hpatch), Store.file?,
        hcontent patch hpatch]
      exact ⟨_, rfl, rfl⟩
    obtain ⟨e, heach, rfl⟩ := Store.exists_each_of_invariant hstep rfl
    exact heach
  obtain ⟨e, hseries, hkeeps, hback, hnone, hfiles⟩ :=
    exists_putSeries hreach (.ofText (seriesText s))
  have hstays' : p.RootStays e := fun dir' hdir' names hnames hdir hempty =>
    hstays dir' hdir' names hnames (hback _ hdir) fun rest => hnone _ (hempty rest)
  obtain ⟨d', hprune, hpruned⟩ := exists_prune (hreach.mono hkeeps) hvalid hstays'
  refine ⟨d', write_eq_ok_iff.2 ⟨duplicate?_eq_none_iff.2 ⟨h.nodup_targets, by simp⟩, d, _, d, d, e,
    ?_, hfound, ?_, hput, hseries, hprune⟩, hpruned.reaches, hpruned.directories.trans hback,
    fun l hl => ?_⟩
  · exact Store.makeDirectories_eq_ok_iff.2 (hreach.makeDirectories_eq hvalid)
  · rw [h.stale_eq_nil htargets hlocate hfound]
    rfl
  · rw [hpruned.files, hfiles l hl]

/-! ## What was read -/

theorem of_readPatch (hreach : d.Reaches p.root dir) {file : TreePath} (hfile : file.IsNormal)
    {patch : StoredPatch} (h : p.readPatch d file = .ok patch) :
    targetOf file (p.root.below file) = .ok patch.target ∧
      d.content (p.root.below file) = .ok (.ofText patch.body) ∧
      d.file? (dir ++ file.location) = some (.ofText patch.body) := by
  obtain ⟨body, htext, h⟩ := Except.bind_eq_ok_iff.1 h
  obtain ⟨target, htarget, h⟩ := Except.bind_eq_ok_iff.1 h
  obtain rfl := Except.ok.inj h
  have hcontent : d.content (p.root.below file) = .ok (.ofText body) := by
    obtain ⟨content, hcontent, htext⟩ := Except.bind_eq_ok_iff.1 (Except.mapError_eq_ok_iff.1 htext)
    split at htext
    · rename_i text hread
      rw [hcontent, ← Content.ofText_of_text? hread, Except.ok.inj htext]
    · cases htext
  have hnames : file.location ≠ [] := by
    intro hnil
    rw [← hfile.ofLocation_location, hnil] at htarget
    cases htarget
  obtain ⟨l, hl, hfound⟩ := Disk.content_eq_ok_iff.1 hcontent
  rw [DiskPath.below_eq _ hfile] at hl
  rw [hreach.eq_of_locate hnames hl] at hfound
  exact ⟨htarget, hcontent, hfound⟩

theorem subset_of_order (h : p.order d = .ok files) :
    ∃ found, p.files d = .ok found ∧ found ⊆ files := by
  obtain ⟨found, hfound, h⟩ := Except.bind_eq_ok_iff.1 h
  obtain ⟨listed, -, h⟩ := Except.bind_eq_ok_iff.1 h
  refine ⟨found, hfound, ?_⟩
  cases listed with
  | none => exact (Except.ok.inj h) ▸ List.Subset.refl _
  | some entries =>
    dsimp only at h
    split at h
    · cases h
    · rename_i hall
      obtain rfl := Except.ok.inj h
      intro file hfile
      simpa using List.find?_eq_none.1 hall file hfile

/-- Where there is a series file, the order is that of its entries, which no character cuts
short. -/
theorem isListable_of_hasSeries (hseries : p.hasSeries d = true) (h : p.order d = .ok files) :
    ∀ file ∈ files, file.IsListable := by
  obtain ⟨l, content, hl, hfile⟩ := hasSeries_iff.1 hseries
  have hcontent : Store.file? p.seriesPath d = .ok (some content) := by
    rw [Store.file?, seriesPath_eq, Disk.content_eq_ok_iff.2 ⟨l, hl, hfile⟩]
  obtain ⟨found, -, h⟩ := Except.bind_eq_ok_iff.1 h
  obtain ⟨listed, hlisted, h⟩ := Except.bind_eq_ok_iff.1 h
  rw [readSeries, hcontent] at hlisted
  obtain ⟨entries, hentries, rfl⟩ := Except.map_eq_ok_iff.1 hlisted
  dsimp only at h
  split at h
  · cases h
  · obtain rfl := Except.ok.inj h
    exact isListable_of_mem_readEntries hentries

theorem files_of_order (hseries : p.hasSeries d = false) (h : p.order d = .ok files) :
    p.readSeries d = .ok none ∧ p.files d = .ok files := by
  obtain ⟨found, hfound, h⟩ := Except.bind_eq_ok_iff.1 h
  obtain ⟨listed, hlisted, h⟩ := Except.bind_eq_ok_iff.1 h
  have hnone : listed = none := by
    obtain ⟨read, hread, hlisted⟩ := Except.bind_eq_ok_iff.1 hlisted
    cases read with
    | none => exact (Except.ok.inj hlisted).symm
    | some content =>
      obtain ⟨l, hl, hfile⟩ := Store.exists_locate_of_file? hread
      rw [hasSeries_iff.2 ⟨l, content, hl, hfile⟩] at hseries
      cases hseries
  subst hnone
  exact ⟨hlisted, Except.ok.inj h ▸ hfound⟩

section Read

variable (hreach : d.Reaches p.root dir) (horder : p.order d = .ok files)
  (hread : files.mapM (p.readPatch d) = .ok s)
include hreach horder hread

theorem eq_map_fileOf (hstem : ∀ file ∈ files, HasStem file) :
    files = s.map fun patch => fileOf patch.target := by
  refine Except.eq_map_of_mapM_eq_ok hread fun file hfile patch hpatch => ?_
  have hnormal := isNormal_of_mem_order horder file hfile
  exact (fileOf_eq_iff hnormal (of_readPatch hreach hnormal hpatch).1).2 (hstem file hfile)

theorem readPatch_fileOf (hstem : ∀ file ∈ files, HasStem file) :
    ∀ patch ∈ s, p.readPatch d (fileOf patch.target) = .ok patch := by
  intro patch hpatch
  obtain ⟨file, hfile, hpatch⟩ := (Except.mem_iff_of_mapM_eq_ok hread).1 hpatch
  have hnormal := isNormal_of_mem_order horder file hfile
  rwa [(fileOf_eq_iff hnormal (of_readPatch hreach hnormal hpatch).1).2 (hstem file hfile)]

theorem isFilePath_of_mem : ∀ patch ∈ s, patch.target.IsFilePath := by
  intro patch hpatch
  obtain ⟨file, hfile, hpatch⟩ := (Except.mem_iff_of_mapM_eq_ok hread).1 hpatch
  have hnormal := isNormal_of_mem_order horder file hfile
  exact isFilePath_of_targetOf hnormal (of_readPatch hreach hnormal hpatch).1

/-- The file of each target is found too, so it is read and is the file that the target was read
from. -/
theorem SuppliesEach.hasStem (hlocate : d.locate p.root = .ok dir) (h : SuppliesEach d dir s) :
    ∀ file ∈ files, HasStem file := by
  intro file hfile
  have htargets := isFilePath_of_mem hreach horder hread
  obtain ⟨found, hfound, hsub⟩ := subset_of_order horder
  obtain ⟨patch, hpatch⟩ := Except.exists_mapM_eq_ok_iff.1 ⟨s, hread⟩ file hfile
  have hmem := (Except.mem_iff_of_mapM_eq_ok hread).2 ⟨file, hfile, hpatch⟩
  have hnormal := isNormal_of_mem_order horder file hfile
  have hfileOf : fileOf patch.target ∈ files := by
    refine hsub
      ((mem_files_iff hlocate (h.isStable htargets) hfound).2 ⟨fileLocation patch.target, ?_, ?_⟩)
    · exact h.files.mem_iff.1 (List.mem_map_of_mem hmem)
    · exact ofLocation_fileLocation (htargets patch hmem)
  obtain ⟨other, hother⟩ := Except.exists_mapM_eq_ok_iff.1 ⟨s, hread⟩ _ hfileOf
  have htarget := (of_readPatch hreach (isNormal_of_mem_order horder _ hfileOf) hother).1
  rw [targetOf_fileOf (htargets patch hmem)] at htarget
  have heq := Except.eq_of_mapM_eq_ok hread h.nodup_targets hfileOf hfile hother hpatch
    (Except.ok.inj htarget).symm
  exact (fileOf_eq_iff hnormal (of_readPatch hreach hnormal hpatch).1).1 heq

/-- Every patch file supplies exactly one patch if no target is read twice, every patch file is
found under its own path, and every file in the order has a name with a stem. -/
theorem suppliesEach_iff (hlocate : d.locate p.root = .ok dir) :
    SuppliesEach d dir s ↔ (s.map (·.target)).Nodup ∧
      (∀ names ∈ patchNames d dir, (ofLocation names).IsStable) ∧ ∀ file ∈ files, HasStem file := by
  have htargets := isFilePath_of_mem hreach horder hread
  constructor
  · intro h
    exact ⟨h.nodup_targets, h.isStable htargets, h.hasStem hreach horder hread hlocate⟩
  · rintro ⟨hnodup, hstable, hstem⟩
    have hbodies : ∀ patch ∈ s, d.file? (dir ++ fileLocation patch.target) = some
        (.ofText patch.body) := by
      intro patch hpatch
      obtain ⟨-, -, -, -, hfile⟩ := exists_fileOf (htargets patch hpatch)
      exact (of_readPatch hreach hfile.isNormal
        (readPatch_fileOf hreach horder hread hstem patch hpatch)).2.2
    refine .of_mem_iff htargets hnodup (fun names => ⟨fun hnames => ?_, ?_⟩) hbodies
    · obtain ⟨found, hfound, hsub⟩ := subset_of_order horder
      have hfile := hsub ((mem_files_iff hlocate hstable hfound).2 ⟨names, hnames, rfl⟩)
      rw [eq_map_fileOf hreach horder hread hstem] at hfile
      obtain ⟨patch, hpatch, heq⟩ := List.mem_map.1 hfile
      exact ⟨patch, hpatch, by rw [fileLocation, heq, TreePath.location_ofLocation]⟩
    · rintro ⟨patch, hpatch, rfl⟩
      exact mem_patchNames_iff.2 ⟨⟨_, hbodies patch hpatch⟩, isPatchLocation_fileLocation
        (htargets patch hpatch) dir⟩

theorem exists_write (hlocate : d.locate p.root = .ok dir) (h : SuppliesEach d dir s)
    (hstays : p.RootStays d) :
    ∃ d', p.write s d = (.ok (), d') ∧ d'.Reaches p.root dir ∧ d'.KeepsDirectories d ∧
      ∀ l, l ≠ dir ++ [seriesName] → d'.file? l = d.file? l := by
  have htargets := isFilePath_of_mem hreach horder hread
  obtain ⟨-, -, hstem⟩ := (suppliesEach_iff hreach horder hread hlocate).1 h
  refine exists_write_of_suppliesEach hreach hlocate htargets h (fun patch hpatch => ?_) hstays
  obtain ⟨-, -, -, -, hfile⟩ := exists_fileOf (htargets patch hpatch)
  exact (of_readPatch hreach hfile.isNormal
    (readPatch_fileOf hreach horder hread hstem patch hpatch)).2.1

/-- What was read and written back is read again. -/
theorem read_of_write (hlocate : d.locate p.root = .ok dir) (h : SuppliesEach d dir s)
    (hwrite : p.write s d = (.ok (), d')) (hreach' : d'.Reaches p.root dir)
    (hback : d'.KeepsDirectories d) :
    p.read d' = .ok s := by
  have htargets := isFilePath_of_mem hreach horder hread
  obtain ⟨hnodup, hstable, hstem⟩ := (suppliesEach_iff hreach horder hread hlocate).1 h
  have hroot := hreach'.locate (Disk.locate_eq_ok_iff.1 hlocate).1
  have hstableFiles : p.HasStableFiles d := by
    intro l hl
    obtain rfl : l = dir := Option.some.inj (hl.symm.trans hreach.location?_eq)
    exact hstable
  obtain ⟨l, hwritten⟩ := written_of_write hstableFiles htargets hwrite
  obtain rfl : l = dir := Option.some.inj (hwritten.location.symm.trans hreach.location?_eq)
  have hmap := eq_map_fileOf hreach horder hread hstem
  cases hseries : p.hasSeries d with
  | true =>
    have hlistable : ∀ patch ∈ s, patch.target.IsListable := by
      intro patch hpatch
      refine isListable_fileOf.1 (isListable_of_hasSeries hseries horder _ ?_)
      rw [hmap]
      exact List.mem_map_of_mem hpatch
    exact hwritten.read_of_order hreach' hroot htargets
      (hwritten.order_eq hreach' hroot htargets hseries hlistable)
  | false =>
    obtain ⟨hnone, hfound⟩ := files_of_order hseries horder
    obtain ⟨hvalid, hfree⟩ := (readSeries_eq_none_iff hreach).1 hnone
    have hnofile := hwritten.noSeries (Disk.file?_of_none hfree)
    have hfree' : d'.node? (l ++ [seriesName]) = none := by
      cases hnode : d'.node? (l ++ [seriesName]) with
      | none => rfl
      | some node =>
        cases node with
        | file content => rw [Disk.file?_eq_some_iff.2 hnode] at hnofile; cases hnofile
        | directory => rw [hback _ hnode] at hfree; cases hfree
    have hnone' := (readSeries_eq_none_iff hreach').2 ⟨hvalid, hfree'⟩
    obtain ⟨t, ht, hperm, hsorted⟩ :=
      (hwritten.exists_read_iff hreach' hroot htargets hnodup hnofile).2 hnone'
    have hsorted' : InFileOrder s := by
      have hfiles := pairwise_files hlocate hstable hfound
      rw [hmap, List.pairwise_map] at hfiles
      exact hfiles.imp octets_lt_of_compare
    rw [ht, hsorted.eq_of_perm hsorted' hperm]

end Read

/-- Every patch file of a directory that was read supplies exactly one patch, unless a target is
read twice, the path of a patch file is not normal, or a file is named by the suffix alone or with a
dot. What was read can then be written back, which changes no file but the series file, and is read
again. Pruning must not cut off the root. -/
theorem write_read (hdir : d.holdsDirectory p.root = true) (hread : p.read d = .ok s) :
    ∃ dir, d.locate p.root = .ok dir ∧
      (SuppliesEach d dir s ↔ (s.map (·.target)).Nodup ∧ p.HasStableFiles d ∧
        ∀ files, p.order d = .ok files → ∀ file ∈ files, HasStem file) ∧
      (SuppliesEach d dir s → p.RootStays d → ∃ d', p.write s d = (.ok (), d') ∧
        (∀ l, l ≠ dir ++ [seriesName] → d'.file? l = d.file? l) ∧ p.read d' = .ok s) := by
  obtain ⟨dir, hlocate, hnode⟩ := Disk.holdsDirectory_iff.1 hdir
  have hreach := Disk.reaches_of_locate hlocate hnode
  rw [read, if_pos (Disk.holds_iff.2 ⟨dir, _, hlocate, hnode⟩)] at hread
  obtain ⟨files, horder, hread⟩ := Except.bind_eq_ok_iff.1 hread
  refine ⟨dir, hlocate, ?_, fun h hstays => ?_⟩
  · rw [suppliesEach_iff hreach horder hread hlocate]
    simp [HasStableFiles, hreach.location?_eq, horder]
  · obtain ⟨d', hwrite, hreach', hback, hfiles⟩ := exists_write hreach horder hread hlocate h hstays
    exact ⟨d', hwrite, hfiles, read_of_write hreach horder hread hlocate h hwrite hreach' hback⟩

/-- A comment in the series file goes, and so does an empty directory. -/
theorem write_read_commented :
    let p : PatchDirectory := ⟨⟨"p"⟩⟩
    let d :=
      (diskOfFiles [("p/series", "b/c.patch # first\n"), ("p/b/c.patch", "y")]).makeDirectories
        ⟨"p/m"⟩
    let s : Stack := [⟨⟨"b/c"⟩, "y"⟩]
    d.1.holdsDirectory p.root = true ∧ p.read d.1 = .ok s ∧
      ∃ d', p.write s d.1 = (.ok (), d') ∧ p.read d' = .ok s := by
  intro p d s
  have hdir : d.1.holdsDirectory p.root = true := by decide +kernel
  have hread : p.read d.1 = .ok s := by decide +kernel
  obtain ⟨l, hl, hnode⟩ := Disk.holdsDirectory_iff.1 hdir
  have hstays : p.RootStays d.1 :=
    rootStays_of_reaches (Disk.reaches_of_locate hl hnode) (by decide +kernel)
  obtain ⟨dir, -, hsupplies, hwrite⟩ := write_read hdir hread
  obtain ⟨d', hwritten, -, hagain⟩ :=
    hwrite (hsupplies.2 ⟨by decide +kernel, by decide +kernel, by decide +kernel⟩) hstays
  exact ⟨hdir, hread, d', hwritten, hagain⟩

/-- A file that the series file lists twice is read twice, and its target is then refused. -/
theorem not_forall_write_read :
    ¬ ∀ (p : PatchDirectory) (s : Stack) (d : Disk), d.holdsDirectory p.root = true →
    p.read d = .ok s →
      ∃ d', p.write s d = (.ok (), d') := by
  intro h
  let p : PatchDirectory := ⟨⟨"p"⟩⟩
  let d := diskOfFiles [("p/series", "a.patch\na.patch\n"), ("p/a.patch", "x")]
  let s : Stack := [⟨⟨"a"⟩, "x"⟩, ⟨⟨"a"⟩, "x"⟩]
  obtain ⟨d', hwrite⟩ := h p s d (by decide +kernel) (by decide +kernel)
  have hrefused : (p.write s d).1 = .error (.duplicateTarget ⟨"a"⟩) := by decide +kernel
  rw [hwrite] at hrefused
  cases hrefused

end PatchDirectory

end Patchwork
