import Mathlib.Data.List.TakeWhile
import Patchwork.Proofs.Store.PatchWrite
import Patchwork.Proofs.Text.Octets

/-!
# Reading what was written beside a series file

A series file lists one file a line, and a line is read up to its first blank or `#`. A stack that
was written is therefore read back exactly if the paths of its targets hold neither (`read_write`).
-/
namespace Patchwork

open TreePath (ofLocation)

/-- A path that a series file can list: no blank cuts it short, and no `#`. -/
def TreePath.IsListable (p : TreePath) : Prop :=
  ∀ c ∈ p.text.toList, Text.isBlank c = false ∧ c ≠ '#'

-- The characters of the path are gone through, not all that there are.
instance (p : TreePath) : Decidable p.IsListable := List.decidableBAll _ p.text.toList

namespace PatchDirectory

variable {p : PatchDirectory} {d d' : Disk} {dir : Location} {s : Stack}

/-! ## Lines of a series file -/

theorem isListable_fileOf {target : TreePath} : (fileOf target).IsListable ↔ target.IsListable := by
  have hsuffix : TreePath.IsListable ⟨suffix⟩ := by decide
  simp only [TreePath.IsListable, fileOf, TreePath.addSuffix, String.toList_append, List.mem_append]
  exact ⟨fun h c hc => h c (.inl hc), fun h c hc => hc.elim (h c) (hsuffix c)⟩

theorem seriesEntry?_of_listable {cs : List Char} (hne : cs ≠ [])
    (h : ∀ c ∈ cs, Text.isBlank c = false ∧ c ≠ '#') :
    seriesEntry? cs = some (String.ofList cs) := by
  obtain ⟨c, rest, rfl⟩ := List.exists_cons_of_ne_nil hne
  have hcomment : (c :: rest).takeWhile (· ≠ '#') = c :: rest :=
    List.takeWhile_eq_self_iff.2 fun c hc => by simpa using (h c hc).2
  have hstart : (c :: rest).dropWhile Text.isBlank = c :: rest :=
    List.dropWhile_cons_of_neg (by simpa using (h c List.mem_cons_self).1)
  have hword : (c :: rest).takeWhile (fun c => !Text.isBlank c) = c :: rest :=
    List.takeWhile_eq_self_iff.2 fun c hc => by simpa using (h c hc).1
  unfold seriesEntry?
  rw [hcomment, hstart, hword]
  rfl

theorem of_seriesEntry? {cs : List Char} {entry : String} (h : seriesEntry? cs = some entry) :
    ∀ c ∈ entry.toList, Text.isBlank c = false ∧ c ≠ '#' := by
  unfold seriesEntry? at h
  dsimp only at h
  split_ifs at h
  cases h
  rw [String.toList_ofList]
  intro c hc
  refine ⟨by simpa using List.mem_takeWhile_imp hc, ?_⟩
  have hcomment := (List.dropWhile_sublist _).subset ((List.takeWhile_sublist _).subset hc)
  simpa using List.mem_takeWhile_imp hcomment

theorem isListable_of_mem_readEntries {line : Nat} {css : List (List Char)}
    {entries : List TreePath} (h : p.readEntries d line css = .ok entries) :
    ∀ file ∈ entries, file.IsListable := by
  induction css generalizing line entries with
  | nil =>
    obtain rfl := Except.ok.inj h
    nofun
  | cons cs css ih =>
    unfold readEntries at h
    split at h
    · exact ih h
    · rename_i entry hentry
      obtain ⟨file, hfile, h⟩ := Except.bind_eq_ok_iff.1 h
      split_ifs at h
      obtain ⟨rest, hrest, h⟩ := Except.bind_eq_ok_iff.1 h
      obtain rfl := Except.ok.inj h
      refine List.forall_mem_cons.2 ⟨fun c hc => ?_, ih hrest⟩
      rcases TreePath.mem_of_mem_ofString (Except.mapError_eq_ok_iff.1 hfile) hc with hc | rfl
      · exact of_seriesEntry? hentry c hc
      · decide

/-- Files that can be listed and are there are read from their lines. -/
theorem readEntries_files {line : Nat} {files : List TreePath}
    (h : ∀ file ∈ files, file.IsFilePath ∧ file.IsListable ∧
    d.holdsFile (p.root.below file) = true) :
    p.readEntries d line (files.map (·.text.toList) ++ [[]]) = .ok files := by
  induction files generalizing line with
  | nil => rfl
  | cons file files ih =>
    obtain ⟨⟨hpath, hlistable, hfile⟩, h⟩ := List.forall_mem_cons.1 h
    have hne : file.text.toList ≠ [] := by
      simpa [TreePath.isRoot] using hpath.ne_root
    have hstable : TreePath.ofString file.text = .ok file := hpath.stable
    rw [List.map_cons, List.cons_append, readEntries, seriesEntry?_of_listable hne hlistable,
      String.ofList_toList]
    dsimp only
    rw [hstable]
    refine Except.bind_eq_ok_iff.2 ⟨file, rfl, ?_⟩
    rw [if_pos hfile]
    exact Except.bind_eq_ok_iff.2 ⟨files, ih h, rfl⟩

theorem splitOn_flatMap_newline {css : List (List Char)} (h : ∀ cs ∈ css, '\n' ∉ cs) :
    (css.flatMap (· ++ ['\n'])).splitOn '\n' = css ++ [[]] := by
  induction css with
  | nil => rfl
  | cons cs css ih =>
    obtain ⟨hcs, h⟩ := List.forall_mem_cons.1 h
    rw [List.flatMap_cons, List.append_assoc, List.singleton_append,
      List.splitOn_append_cons_self_of_not_mem hcs, ih h]
    rfl

theorem toList_seriesText (s : Stack) : (seriesText s).toList =
    (s.map fun patch => (fileOf patch.target).text.toList).flatMap (· ++ ['\n']) := by
  simp [seriesText, List.flatMap_map, String.toList_join]

theorem splitOn_seriesText (h : ∀ patch ∈ s, patch.target.IsListable) :
    (seriesText s).toList.splitOn '\n' =
      ((s.map fun patch => fileOf patch.target).map (·.text.toList)) ++ [[]] := by
  rw [toList_seriesText, splitOn_flatMap_newline, List.map_map]
  · rfl
  · intro cs hcs hnewline
    obtain ⟨patch, hpatch, rfl⟩ := List.mem_map.1 hcs
    have hblank := (isListable_fileOf.2 (h patch hpatch) _ hnewline).1
    revert hblank
    decide

/-! ## Reading a directory that was written -/

namespace Written

variable (h : p.Written s d d' dir)
include h

theorem reaches (hroot : d'.holds p.root = true) : d'.Reaches p.root dir := by
  obtain ⟨l, node, hl, hnode⟩ := Disk.holds_iff.1 hroot
  obtain rfl : l = dir := Option.some.inj ((Disk.location?_of_locate hl).symm.trans h.location)
  cases node with
  | directory => exact Disk.reaches_of_locate hl hnode
  | file content =>
    have hfile := h.root
    rw [Disk.file?_eq_some_iff.2 hnode] at hfile
    cases hfile

theorem mem_patchNames_iff (htargets : ∀ patch ∈ s, patch.target.IsFilePath) {names : Location} :
    names ∈ patchNames d' dir ↔ ∃ patch ∈ s, fileLocation patch.target = names := by
  rw [PatchDirectory.mem_patchNames_iff]
  constructor
  · rintro ⟨⟨content, hfile⟩, hnames⟩
    by_contra hnew
    rw [h.stale names hnames fun patch hpatch heq => hnew ⟨patch, hpatch, heq.symm⟩] at hfile
    cases hfile
  · rintro ⟨patch, hpatch, rfl⟩
    exact ⟨⟨_, h.patch patch hpatch⟩, isPatchLocation_fileLocation (htargets patch hpatch) dir⟩

theorem isStable_of_mem (htargets : ∀ patch ∈ s, patch.target.IsFilePath) :
    ∀ names ∈ patchNames d' dir, (ofLocation names).IsStable := by
  intro names hnames
  obtain ⟨patch, hpatch, rfl⟩ := (h.mem_patchNames_iff htargets).1 hnames
  obtain ⟨-, -, -, -, hstable⟩ := exists_fileOf (htargets patch hpatch)
  rwa [ofLocation_fileLocation (htargets patch hpatch)]

theorem exists_files (hroot : d'.locate p.root = .ok dir)
    (htargets : ∀ patch ∈ s, patch.target.IsFilePath) :
    ∃ found, p.files d' = .ok found ∧
      ∀ file, file ∈ found ↔ ∃ patch ∈ s, fileOf patch.target = file := by
  have hstable := h.isStable_of_mem htargets
  refine ⟨_, files_eq hroot hstable, fun file => ?_⟩
  rw [mem_files_iff hroot hstable (files_eq hroot hstable)]
  constructor
  · rintro ⟨names, hnames, rfl⟩
    obtain ⟨patch, hpatch, rfl⟩ := (h.mem_patchNames_iff htargets).1 hnames
    exact ⟨patch, hpatch, (ofLocation_fileLocation (htargets patch hpatch)).symm⟩
  · rintro ⟨patch, hpatch, rfl⟩
    exact ⟨_, (h.mem_patchNames_iff htargets).2 ⟨patch, hpatch, rfl⟩,
      ofLocation_fileLocation (htargets patch hpatch)⟩

theorem content_eq (hreach : d'.Reaches p.root dir) {patch : StoredPatch} (hpatch : patch ∈ s)
    (ht : patch.target.IsFilePath) :
    d'.content (p.root.below (fileOf patch.target)) = .ok (.ofText patch.body) := by
  obtain ⟨e, l, hl⟩ := h.located patch hpatch
  have hfile := h.patch patch hpatch
  rw [below_fileOf ht, Disk.content_eq_ok_iff]
  exact ⟨_, hreach.locate_belowNames (fileLocation_ne_nil ht) hl (Disk.file?_eq_some_iff.1 hfile),
    hfile⟩

theorem readPatch_eq (hreach : d'.Reaches p.root dir) {patch : StoredPatch} (hpatch : patch ∈ s)
    (ht : patch.target.IsFilePath) : p.readPatch d' (fileOf patch.target) = .ok patch := by
  have htext : d'.text (p.root.below (fileOf patch.target)) = .ok patch.body := by
    rw [Disk.text, h.content_eq hreach hpatch ht]
    simp [bind, Except.bind]
  refine Except.bind_eq_ok_iff.2 ⟨patch.body, Except.mapError_eq_ok_iff.2 htext, ?_⟩
  exact Except.bind_eq_ok_iff.2 ⟨patch.target, targetOf_fileOf ht _, rfl⟩

theorem read_of_order (hreach : d'.Reaches p.root dir) (hroot : d'.locate p.root = .ok dir)
    (htargets : ∀ patch ∈ s, patch.target.IsFilePath)
    (horder : p.order d' = .ok (s.map fun patch => fileOf patch.target)) : p.read d' = .ok s := by
  rw [read, if_pos (Disk.holds_iff.2 ⟨dir, _, hroot, hreach.isDirectory⟩)]
  refine Except.bind_eq_ok_iff.2 ⟨_, horder, ?_⟩
  rw [Except.mapM_eq_ok_iff, List.forall₂_map_left_iff, List.forall₂_same]
  exact fun patch hpatch => h.readPatch_eq hreach hpatch (htargets patch hpatch)

theorem readSeries_eq (hreach : d'.Reaches p.root dir) (hseries : p.hasSeries d = true) :
    p.readSeries d' = some <$> p.readEntries d' 1 ((seriesText s).toList.splitOn '\n') := by
  have hfile := h.series hseries
  obtain ⟨l, -, hl, -⟩ := hasSeries_iff.1 hseries
  have hlocate := hreach.locate_belowNames (by simp) hl (Disk.file?_eq_some_iff.1 hfile)
  have hcontent : Store.file? p.seriesPath d' = .ok (some (.ofText (seriesText s))) := by
    rw [Store.file?, seriesPath_eq, Disk.content_eq_ok_iff.2 ⟨_, hlocate, hfile⟩]
  rw [readSeries, hcontent]
  dsimp only [bind, Except.bind]
  rw [Text.readLossy_ofText]

/-- A series file that was brought up to date lists the files of the patches in their order exactly
if every target can be listed. -/
theorem readSeries_eq_some_iff (hreach : d'.Reaches p.root dir)
    (htargets : ∀ patch ∈ s, patch.target.IsFilePath) (hseries : p.hasSeries d = true) :
    p.readSeries d' = .ok (some (s.map fun patch => fileOf patch.target)) ↔
      ∀ patch ∈ s, patch.target.IsListable := by
  have hread : p.readSeries d' = .ok (some (s.map fun patch => fileOf patch.target)) ↔
      p.readEntries d' 1 ((seriesText s).toList.splitOn '\n') = .ok
        (s.map fun patch => fileOf patch.target) := by
    rw [h.readSeries_eq hreach hseries]
    cases p.readEntries d' 1 ((seriesText s).toList.splitOn '\n') <;> simp [Functor.map, Except.map]
  rw [hread]
  constructor
  · intro hentries patch hpatch
    exact isListable_fileOf.1
      (isListable_of_mem_readEntries hentries _ (List.mem_map_of_mem hpatch))
  · intro hlistable
    rw [splitOn_seriesText hlistable]
    refine readEntries_files fun file hfile => ?_
    obtain ⟨patch, hpatch, rfl⟩ := List.mem_map.1 hfile
    have ht := htargets patch hpatch
    obtain ⟨-, -, -, -, hstable⟩ := exists_fileOf ht
    refine ⟨⟨?_, hstable⟩, isListable_fileOf.2 (hlistable patch hpatch), ?_⟩
    · simp [fileOf, TreePath.addSuffix, TreePath.isRoot, suffix]
    · obtain ⟨l, hl, hfile⟩ := Disk.content_eq_ok_iff.1 (h.content_eq hreach hpatch ht)
      exact Disk.holdsFile_iff.2 ⟨l, _, hl, hfile⟩

/-- The order of application is that of the stack if every target can be listed. -/
theorem order_eq (hreach : d'.Reaches p.root dir) (hroot : d'.locate p.root = .ok dir)
    (htargets : ∀ patch ∈ s, patch.target.IsFilePath) (hseries : p.hasSeries d = true)
    (hlistable : ∀ patch ∈ s, patch.target.IsListable) :
    p.order d' = .ok (s.map fun patch => fileOf patch.target) := by
  obtain ⟨found, hfound, hmem⟩ := h.exists_files hroot htargets
  have hlisted : found.find? (· ∉ s.map fun patch => fileOf patch.target) = none := by
    rw [List.find?_eq_none]
    intro file hfile
    simpa using (hmem file).1 hfile
  refine Except.bind_eq_ok_iff.2 ⟨found, hfound, Except.bind_eq_ok_iff.2
    ⟨some (s.map fun patch => fileOf patch.target), ?_, ?_⟩⟩
  · exact (h.readSeries_eq_some_iff hreach htargets hseries).2 hlistable
  · dsimp only
    rw [hlisted]
    rfl

theorem isListable_of_order (hreach : d'.Reaches p.root dir) (hroot : d'.locate p.root = .ok dir)
    (htargets : ∀ patch ∈ s, patch.target.IsFilePath) (hseries : p.hasSeries d = true)
    {files : List TreePath} (horder : p.order d' = .ok files) :
    ∀ patch ∈ s, patch.target.IsListable := by
  obtain ⟨found, hfound, hmem⟩ := h.exists_files hroot htargets
  obtain ⟨found', hfound', horder⟩ := Except.bind_eq_ok_iff.1 horder
  obtain rfl := Except.ok.inj (hfound.symm.trans hfound')
  obtain ⟨listed, hlisted, horder⟩ := Except.bind_eq_ok_iff.1 horder
  rw [h.readSeries_eq hreach hseries] at hlisted
  obtain ⟨entries, hentries, rfl⟩ := Except.map_eq_ok_iff.1 hlisted
  intro patch hpatch
  have hfile := (hmem _).2 ⟨patch, hpatch, rfl⟩
  dsimp only at horder
  split at horder
  · cases horder
  · rename_i hall
    have hentry : fileOf patch.target ∈ entries := by
      simpa using List.find?_eq_none.1 hall _ hfile
    exact isListable_fileOf.1 (isListable_of_mem_readEntries hentries _ hentry)

end Written

/-- A stack that was written beside a series file is read back exactly if it is empty, or if the
root is still reached and every target can be listed. The root is reached as before if its path
never goes up. -/
theorem read_write (hseries : p.hasSeries d = true) (hstable : p.HasStableFiles d)
    (htargets : ∀ patch ∈ s, patch.target.IsFilePath) (hwrite : p.write s d = (.ok (), d')) :
    (p.read d' = .ok s ↔
      s = [] ∨ d'.holds p.root = true ∧ ∀ patch ∈ s, patch.target.IsListable) ∧
    (.up ∉ p.root.steps → d'.holds p.root = true) := by
  obtain ⟨dir, h⟩ := written_of_write hstable htargets hwrite
  refine ⟨?_, h.reached⟩
  cases hroot : d'.holds p.root with
  | false => simp [read, hroot, eq_comm]
  | true =>
    have hreach := h.reaches hroot
    obtain ⟨l, -, hl, -⟩ := Disk.holds_iff.1 hroot
    obtain rfl : l = dir := Option.some.inj ((Disk.location?_of_locate hl).symm.trans h.location)
    constructor
    · intro hread
      rw [read, if_pos hroot] at hread
      obtain ⟨files, horder, -⟩ := Except.bind_eq_ok_iff.1 hread
      exact .inr ⟨rfl, h.isListable_of_order hreach hl htargets hseries horder⟩
    · intro hcan
      have hlistable : ∀ patch ∈ s, patch.target.IsListable := by
        rcases hcan with rfl | ⟨-, hlistable⟩
        · nofun
        · exact hlistable
      exact h.read_of_order hreach hl htargets (h.order_eq hreach hl htargets hseries hlistable)

def diskOfFiles (files : List (String × String)) : Disk :=
  (Store.each (fun file => Store.putFile ⟨file.1⟩ (.ofText file.2)) files Disk.empty).2

/-- A patch file is dropped, and two are put in an order that is not that of their paths. -/
theorem read_write_reordered :
    let p : PatchDirectory := ⟨⟨"p"⟩⟩
    let d := diskOfFiles [("p/series", "old.patch\n"), ("p/dir/old.patch", "x")]
    let s : Stack := [⟨⟨"b/c"⟩, "y"⟩, ⟨⟨"a"⟩, "x"⟩]
    p.write s d = (.ok (), (p.write s d).2) ∧ p.read (p.write s d).2 = .ok s := by
  intro p d s
  have hwrite : p.write s d = (.ok (), (p.write s d).2) :=
    Prod.ext (show (p.write s d).1 = .ok () by decide +kernel) rfl
  obtain ⟨hread, hroot⟩ := read_write (p := p) (s := s) (d := d) (by decide +kernel)
    (by decide +kernel) (by decide +kernel) hwrite
  exact ⟨hwrite, hread.2 (.inr ⟨hroot (by decide +kernel), by decide +kernel⟩)⟩

/-- A name with a blank is listed as it is and not found again. -/
theorem not_forall_read_write :
    ¬ ∀ (p : PatchDirectory) (s : Stack) (d d' : Disk), p.hasSeries d = true → p.HasStableFiles d →
      (s.map (·.target)).Nodup → (∀ patch ∈ s, patch.target.IsFilePath) →
      p.write s d = (.ok (), d') → p.read d' = .ok s := by
  intro h
  let p : PatchDirectory := ⟨⟨"p"⟩⟩
  let d := diskOfFiles [("p/series", "")]
  let s : Stack := [⟨⟨"my file"⟩, "x"⟩]
  have hread := h p s d (p.write s d).2 (by decide +kernel) (by decide +kernel) (by decide +kernel)
    (by decide +kernel) (Prod.ext (show (p.write s d).1 = .ok () by decide +kernel) rfl)
  exact absurd hread (by decide +kernel)

end PatchDirectory

end Patchwork
