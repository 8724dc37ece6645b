import Mathlib.Data.List.Nodup
import Patchwork.Proofs.Store.Basic
import Patchwork.Proofs.Store.PatchFiles

/-!
# What a patch directory holds after it was written

Writing a stack drops the patch files of no target, puts the others, and brings the series file up
to date (`written_of_write`). It changes no other file, and what it removes last are directories
without entries.
-/
namespace Patchwork.PatchDirectory

open TreePath (ofLocation)

variable {p : PatchDirectory} {d d' : Disk} {dir names : Location} {s : Stack}

def seriesName : FileName := ⟨"series", by decide⟩

theorem seriesPath_eq (p : PatchDirectory) : p.seriesPath = p.root.belowNames [seriesName] := rfl

theorem not_isPatchLocation_series (dir : Location) : ¬ IsPatchLocation (dir ++ [seriesName]) := by
  rintro ⟨name, hname, hpatch⟩
  obtain rfl : seriesName = name := by simpa using hname
  have hends : ¬ suffix.toList <:+ seriesName.text.toList := by decide
  rw [isPatchName, Bool.and_eq_true, Text.endsWith_iff] at hpatch
  exact hends hpatch.1

theorem hasSeries_iff : p.hasSeries d = true ↔ ∃ l content,
    d.locate (p.root.belowNames [seriesName]) = .ok l ∧ d.file? l = some content := by
  rw [hasSeries, seriesPath_eq, Disk.holdsFile_iff]

/-- What the files are after a stack was written to the patch directory at a location. -/
structure Written (p : PatchDirectory) (s : Stack) (d d' : Disk) (dir : Location) : Prop where
  location : p.root.location? = some dir
  root : d'.file? dir = none
  reached : .up ∉ p.root.steps → d'.holds p.root = true
  patch : ∀ patch ∈ s, d'.file? (dir ++ fileLocation patch.target) = some (.ofText patch.body)
  stale : ∀ names, IsPatchLocation (dir ++ names) →
    (∀ patch ∈ s, names ≠ fileLocation patch.target) → d'.file? (dir ++ names) = none
  series : p.hasSeries d = true → d'.file? (dir ++ [seriesName]) = some (.ofText (seriesText s))
  noSeries : d.file? (dir ++ [seriesName]) = none → d'.file? (dir ++ [seriesName]) = none
  other : ∀ l, (dir <+: l → ¬ IsPatchLocation l) → l ≠ dir ++ [seriesName] → d'.file? l = d.file? l
  located : ∀ patch ∈ s, ∃ e : Disk, ∃ l,
    e.locate (p.root.belowNames (fileLocation patch.target)) = .ok l

/-! ## The steps of writing -/

theorem setsFile_of_dropFile (h : d.Reaches p.root dir) (hnames : names ≠ [])
    (hdrop : Store.dropFile (p.root.belowNames names) d = (.ok (), d')) :
    d.SetsFile d' (dir ++ names) none := by
  rcases Store.of_dropFile hdrop with ⟨l, hl, hset⟩ | ⟨rfl, hnone⟩
  · rwa [h.eq_of_locate hnames hl] at hset
  · refine (Disk.Extends.refl d).setsFile ?_
    by_contra hfile
    obtain ⟨content, hfile⟩ := Option.ne_none_iff_exists'.1 hfile
    have hnode := Disk.file?_eq_some_iff.1 hfile
    rcases hnone with hlost | ⟨l, hl, hnone⟩
    · exact h.locate_ne_notFound hnames hnode hlost
    · rw [h.eq_of_locate hnames hl, hnode] at hnone
      cases hnone

theorem exists_locate_of_writePatch {patch : StoredPatch} (ht : patch.target.IsFilePath)
    (h : p.writePatch patch d = (.ok (), d')) :
    ∃ e : Disk, ∃ l, e.locate (p.root.belowNames (fileLocation patch.target)) = .ok l ∧
      d.SetsFile d' l (some (.ofText patch.body)) := by
  unfold writePatch at h
  obtain ⟨found, d₁, hlook, h⟩ := Store.bind_eq_ok_iff.1 h
  obtain ⟨hfound, rfl⟩ := Store.inspect_eq_ok_iff.1 hlook
  rw [← below_fileOf ht]
  split_ifs at h with hsame
  · obtain ⟨e, l, hl, hset⟩ := Store.setsFile_of_putFile h
    exact ⟨e, l, hl, hset⟩
  · obtain ⟨-, rfl⟩ := Store.pure_eq_ok_iff.1 h
    rw [not_not.1 hsame] at hfound
    obtain ⟨l, hl, hfile⟩ := Store.exists_locate_of_file? hfound
    exact ⟨d, l, hl, (Disk.Extends.refl d).setsFile hfile⟩

theorem duplicate?_eq_none_iff {seen : List TreePath} {s : Stack} :
    duplicate? seen s = none ↔ (s.map (·.target)).Nodup ∧ ∀ patch ∈ s, patch.target ∉ seen := by
  induction s generalizing seen with
  | nil => simp [duplicate?]
  | cons patch s ih =>
    have hnew : (∀ other ∈ s, other.target ∉ patch.target :: seen) ↔
        patch.target ∉ s.map (·.target) ∧ ∀ other ∈ s, other.target ∉ seen := by
      simp only [List.mem_cons, not_or, List.mem_map, not_exists, not_and, ← forall_and]
    rw [duplicate?, List.map_cons, List.nodup_cons, List.forall_mem_cons]
    split_ifs with hseen
    · simp [hseen]
    · rw [ih, hnew]
      tauto

theorem hasSeries_of_reaches (h : d.Reaches p.root dir) (hseries : p.hasSeries d' = true)
    (hfile : ∃ content, d.file? (dir ++ [seriesName]) = some content) : p.hasSeries d = true := by
  obtain ⟨content, hfile⟩ := hfile
  obtain ⟨l, -, hl, -⟩ := hasSeries_iff.1 hseries
  have hlocate := h.locate_belowNames (by simp) hl (Disk.file?_eq_some_iff.1 hfile)
  exact hasSeries_iff.2 ⟨dir ++ [seriesName], content, hlocate, hfile⟩

theorem of_putSeries (h : d.Reaches p.root dir)
    (hput : (if p.hasSeries d then Store.putFile p.seriesPath (.ofText (seriesText s))
    else pure ()) d = (.ok (), d')) :
    d.KeepsDirectories d' ∧
      ∀ l, d'.file? l =
        if p.hasSeries d = true ∧ l = dir ++ [seriesName] then some (.ofText (seriesText s))
        else d.file? l := by
  split_ifs at hput with hseries
  · rw [seriesPath_eq] at hput
    obtain ⟨e, l, hl, hset⟩ := Store.setsFile_of_putFile hput
    rw [h.eq_of_locate (by simp) hl] at hset
    refine ⟨hset.directories, fun l => ?_⟩
    rw [hset.file?_eq]
    simp [hseries]
  · obtain ⟨-, rfl⟩ := Store.pure_eq_ok_iff.1 hput
    exact ⟨.refl d, fun l => by simp [hseries]⟩

theorem mem_of_mem_visits {opened dirs : List Location} {visit : Visit}
    (h : visit ∈ visits opened dirs) :
    ∃ names ∈ opened ++ dirs, visit = .enter names ∨ visit = .leave names := by
  induction dirs generalizing opened with
  | nil =>
    obtain ⟨names, hnames, rfl⟩ := List.mem_map.1 h
    exact ⟨names, by simpa using hnames, .inr rfl⟩
  | cons first dirs ih =>
    rw [visits, List.mem_append, List.mem_cons] at h
    rcases h with h | rfl | h
    · obtain ⟨names, hnames, rfl⟩ := List.mem_map.1 h
      exact ⟨names, List.mem_append_left _ ((List.takeWhile_sublist _).subset hnames), .inr rfl⟩
    · exact ⟨first, by simp, .inl rfl⟩
    · obtain ⟨names, hnames, hvisit⟩ := ih h
      refine ⟨names, ?_, hvisit⟩
      rw [List.cons_append, List.mem_cons, List.mem_append] at hnames
      rcases hnames with rfl | hnames | hnames
      · simp
      · exact List.mem_append_left _ ((List.dropWhile_sublist _).subset hnames)
      · simp [hnames]

theorem mem_directoryNames_iff :
    names ∈ directoryNames d dir ↔ names ≠ [] ∧ d.node? (dir ++ names) = some .directory := by
  unfold directoryNames
  rw [List.mem_filterMap]
  constructor
  · rintro ⟨⟨names', node⟩, hwalk, h⟩
    split_ifs at h with hdir
    obtain ⟨hne, rfl⟩ := hdir
    obtain rfl := Option.some.inj h
    exact ⟨hne, Disk.mem_walk_iff.1 hwalk⟩
  · rintro ⟨hne, hnode⟩
    exact ⟨(names, .directory), Disk.mem_walk_iff.2 hnode, if_pos ⟨hne, rfl⟩⟩

theorem prune_eq_ok_iff : p.prune d = (.ok (), d') ↔ ∃ dir, d.locate p.root = .ok dir ∧
    Store.each p.pruneVisit (visits [] (directoryNames d dir)) d = (.ok (), d') := by
  unfold prune
  rw [Store.bind_eq_ok_iff]
  constructor
  · rintro ⟨dir, _, hlook, h⟩
    obtain ⟨hdir, rfl⟩ := Store.inspect_eq_ok_iff.1 hlook
    obtain ⟨_, _, hget, h⟩ := Store.bind_eq_ok_iff.1 h
    obtain ⟨rfl, rfl⟩ := Store.get_eq_ok_iff.1 hget
    exact ⟨dir, Except.mapError_eq_ok_iff.1 hdir, h⟩
  · rintro ⟨dir, hdir, h⟩
    refine ⟨dir, d, Store.inspect_eq_ok_iff.2 ⟨Except.mapError_eq_ok_iff.2 hdir, rfl⟩, ?_⟩
    exact Store.bind_eq_ok_iff.2 ⟨d, d, Store.get_eq_ok_iff.2 ⟨rfl, rfl⟩, h⟩

/-- A directory is entered where the root is found, and removed at most when it is left. -/
theorem of_pruneVisit {visit : Visit} (h : p.pruneVisit visit d = (.ok (), d')) :
    (∃ names l, visit = .enter names ∧ d.locate p.root = .ok l ∧ d = d') ∨
      ∃ names, visit = .leave names ∧
        (d = d' ∨ ∃ l, d.locate p.root = .ok l ∧ d.dropEmptyDirectory (l ++ names) = .ok d') := by
  cases visit with
  | enter names =>
    obtain ⟨l, _, hlook, hdone⟩ := Store.bind_eq_ok_iff.1 h
    obtain ⟨hl, rfl⟩ := Store.inspect_eq_ok_iff.1 hlook
    obtain ⟨-, rfl⟩ := Store.pure_eq_ok_iff.1 hdone
    exact .inl ⟨names, l, rfl, Except.mapError_eq_ok_iff.1 hl, rfl⟩
  | leave names =>
    unfold pruneVisit at h
    rcases Store.of_attempt h with hdropped | rfl
    · exact .inr ⟨names, rfl, .inr (Except.bind_eq_ok_iff.1 hdropped)⟩
    · exact .inr ⟨names, rfl, .inl rfl⟩

/-- What removing an empty directory that is left preserves, a walk through directories
preserves. -/
theorem visits_induction {motive : Disk → Disk → Prop} (refl : ∀ d, motive d d)
    (trans : ∀ d e f, motive d e → motive e f → motive d f) (hroot : p.root.location? = some dir)
    {vs : List Visit} (hdrop : ∀ names, .leave names ∈ vs → ∀ d e : Disk,
      d.dropEmptyDirectory (dir ++ names) = .ok e → motive d e)
    (h : Store.each p.pruneVisit vs d = (.ok (), d')) : motive d d' := by
  refine Store.each_induction refl trans (fun visit hvisit e f hstep => ?_) h
  obtain ⟨_, _, -, -, rfl⟩ | ⟨names, rfl, rfl | ⟨l, hl, hdropped⟩⟩ := of_pruneVisit hstep
  · exact refl _
  · exact refl _
  · obtain rfl := Option.some.inj ((Disk.location?_of_locate hl).symm.trans hroot)
    exact hdrop names hvisit e f hdropped

/-- What removing an empty directory below a location preserves, pruning preserves. -/
theorem prune_induction {motive : Disk → Disk → Prop} (refl : ∀ d, motive d d)
    (trans : ∀ d e f, motive d e → motive e f → motive d f) (hroot : p.root.location? = some dir)
    (hdrop : ∀ names, names ≠ [] → ∀ d e : Disk, d.dropEmptyDirectory (dir ++ names) = .ok e →
    motive d e) (h : p.prune d = (.ok (), d')) : motive d d' := by
  obtain ⟨l, -, h⟩ := prune_eq_ok_iff.1 h
  refine visits_induction refl trans hroot (fun names hnames => hdrop names ?_) h
  obtain ⟨names', hmem, hvisit | hvisit⟩ := mem_of_mem_visits hnames
  · cases hvisit
  · cases hvisit
    exact (mem_directoryNames_iff.1 hmem).1

theorem keepsFiles_of_prune (hroot : p.root.location? = some dir) (h : p.prune d = (.ok (), d')) :
    d.KeepsFiles d' :=
  prune_induction Disk.KeepsFiles.refl (fun _ _ _ => Disk.KeepsFiles.trans) hroot
    (fun _ _ _ _ => Disk.keepsFiles_of_dropEmptyDirectory) h

theorem node?_of_prune (hroot : p.root.location? = some dir) (h : p.prune d = (.ok (), d'))
    {l : Location} (hl : l <+: dir) : d'.node? l = d.node? l := by
  refine prune_induction (motive := fun d e => e.node? l = d.node? l) (fun _ => rfl)
    (fun _ _ _ h h' => h'.trans h) hroot (fun names hnames d e hdrop => ?_) h
  have hne : l ≠ dir ++ names := by
    rintro rfl
    have hlength := hl.length_le
    rw [List.length_append] at hlength
    exact hnames (List.length_eq_zero_iff.1 (by omega))
  rw [(Disk.node?_of_dropEmptyDirectory hdrop).2, if_neg hne]

/-! ## Writing as a whole -/

theorem write_eq_ok_iff : p.write s d = (.ok (), d') ↔
    duplicate? [] s = none ∧ ∃ d₁ found d₂ d₃ d₄,
      Store.makeDirectories p.root d = (.ok (), d₁) ∧ p.files d₁ = .ok found ∧
      Store.each (fun file => Store.dropFile (p.root.below file))
        (found.filter (· ∉ s.map fun patch => fileOf patch.target)) d₁ = (.ok (), d₂) ∧
      Store.each p.writePatch s d₂ = (.ok (), d₃) ∧
      (if p.hasSeries d₃ then Store.putFile p.seriesPath (.ofText (seriesText s)) else pure ()) d₃ =
        (.ok (), d₄) ∧
      p.prune d₄ = (.ok (), d') := by
  unfold write
  cases hdup : duplicate? [] s with
  | some target =>
    simp only [reduceCtorEq, false_and, iff_false]
    intro h
    obtain ⟨_, _, hthrow, -⟩ := Store.bind_eq_ok_iff.1 h
    cases hthrow
  | none =>
    simp only [true_and]
    constructor
    · intro h
      obtain ⟨_, d₁, hmake, h⟩ := Store.bind_eq_ok_iff.1 h
      obtain ⟨found, _, hlook, h⟩ := Store.bind_eq_ok_iff.1 h
      obtain ⟨hfound, rfl⟩ := Store.inspect_eq_ok_iff.1 hlook
      obtain ⟨_, d₂, hdrop, h⟩ := Store.bind_eq_ok_iff.1 h
      obtain ⟨_, d₃, hput, h⟩ := Store.bind_eq_ok_iff.1 h
      obtain ⟨_, _, hget, h⟩ := Store.bind_eq_ok_iff.1 h
      obtain ⟨rfl, rfl⟩ := Store.get_eq_ok_iff.1 hget
      refine ⟨d₁, found, d₂, d₃, ?_⟩
      split_ifs at h ⊢ with hseries
      · obtain ⟨_, d₄, hseriesPut, hprune⟩ := Store.bind_eq_ok_iff.1 h
        exact ⟨d₄, hmake, hfound, hdrop, hput, hseriesPut, hprune⟩
      · exact ⟨d₃, hmake, hfound, hdrop, hput, rfl, h⟩
    · rintro ⟨d₁, found, d₂, d₃, d₄, hmake, hfound, hdrop, hput, hseries, hprune⟩
      refine Store.bind_eq_ok_iff.2 ⟨(), d₁, hmake, Store.bind_eq_ok_iff.2 ⟨found, d₁, ?_, ?_⟩⟩
      · exact Store.inspect_eq_ok_iff.2 ⟨hfound, rfl⟩
      refine Store.bind_eq_ok_iff.2 ⟨(), d₂, hdrop, Store.bind_eq_ok_iff.2 ⟨(), d₃, hput, ?_⟩⟩
      refine Store.bind_eq_ok_iff.2 ⟨d₃, d₃, Store.get_eq_ok_iff.2 ⟨rfl, rfl⟩, ?_⟩
      split_ifs at hseries ⊢
      · exact Store.bind_eq_ok_iff.2 ⟨(), d₄, hseries, hprune⟩
      · obtain ⟨-, rfl⟩ := Store.pure_eq_ok_iff.1 hseries
        exact hprune

structure HoldsPatches (s : Stack) (d d' : Disk) (dir : Location) : Prop where
  patch : ∀ patch ∈ s, d'.file? (dir ++ fileLocation patch.target) = some (.ofText patch.body)
  stale : ∀ names, IsPatchLocation (dir ++ names) →
    (∀ patch ∈ s, names ≠ fileLocation patch.target) → d'.file? (dir ++ names) = none
  other : ∀ l, (dir <+: l → ¬ IsPatchLocation l) → d'.file? l = d.file? l

/-- Dropping the patch files of no target leaves no other patch file, and no file but these is
dropped. -/
theorem of_dropStale (hreach : d.Reaches p.root dir) (hroot : d.locate p.root = .ok dir)
    (hstable : ∀ names ∈ patchNames d dir, (ofLocation names).IsStable)
    {found : List TreePath} (hfound : p.files d = .ok found)
    (h : Store.each (fun file => Store.dropFile (p.root.below file))
      (found.filter (· ∉ s.map fun patch => fileOf patch.target)) d = (.ok (), d')) :
    (∀ names, IsPatchLocation (dir ++ names) → (∀ patch ∈ s, names ≠ fileLocation patch.target) →
      d'.file? (dir ++ names) = none) ∧
    (∀ l, (dir <+: l → ¬ IsPatchLocation l) → d'.file? l = d.file? l) ∧ d.KeepsDirectories d' := by
  have hmem : ∀ file ∈ found.filter (· ∉ s.map fun patch => fileOf patch.target),
      ∃ names ∈ patchNames d dir, ofLocation names = file := fun file hfile =>
    (mem_files_iff hroot hstable hfound).1 (List.mem_filter.1 hfile).1
  have hdropped : d.SetsFiles d' ((found.filter (· ∉ s.map fun patch => fileOf patch.target)).map
      fun file => (dir ++ file.location, none)) := by
    refine Store.setsFiles_of_each (fun file hfile e f hkeeps hstep => ?_) (fun _ _ _ _ _ => rfl) h
    obtain ⟨names, hnames, rfl⟩ := hmem file hfile
    have hne : names ≠ [] := by
      rintro rfl
      obtain ⟨⟨content, hroot⟩, -⟩ := mem_patchNames_iff.1 hnames
      rw [List.append_nil, Disk.file?_of_directory hreach.isDirectory] at hroot
      cases hroot
    rw [DiskPath.below_ofLocation] at hstep
    rw [TreePath.location_ofLocation]
    exact setsFile_of_dropFile (hreach.mono hkeeps) hne hstep
  have hkept : ∀ l, (∀ names ∈ patchNames d dir, l ≠ dir ++ names) → d'.file? l = d.file? l := by
    refine fun l hl => hdropped.of_notMem l fun c hc => ?_
    obtain ⟨file, hfile, rfl⟩ := List.mem_map.1 hc
    obtain ⟨names, hnames, rfl⟩ := hmem file hfile
    rw [TreePath.location_ofLocation]
    exact hl names hnames
  refine ⟨fun names hpatch hnew => ?_, fun l hl => hkept l ?_, hdropped.directories⟩
  · by_cases hfile : names ∈ patchNames d dir
    · have hstale : ofLocation names ∈ found.filter
          (· ∉ s.map fun patch => fileOf patch.target) := by
        refine List.mem_filter.2 ⟨(mem_files_iff hroot hstable hfound).2 ⟨names, hfile, rfl⟩, ?_⟩
        simp only [decide_eq_true_eq, List.mem_map, not_exists, not_and]
        intro patch hmem heq
        exact hnew patch hmem (by rw [fileLocation, heq, TreePath.location_ofLocation])
      have hnone := hdropped.of_mem _ (List.mem_map_of_mem hstale)
      rwa [TreePath.location_ofLocation] at hnone
    · rw [hkept]
      · by_contra hsome
        exact hfile (mem_patchNames_iff.2 ⟨Option.ne_none_iff_exists'.1 hsome, hpatch⟩)
      · intro names' hnames' heq
        exact hfile (List.append_cancel_left heq ▸ hnames')
  · rintro names hnames rfl
    exact hl (List.prefix_append _ _) (mem_patchNames_iff.1 hnames).2

theorem setsFiles_of_writePatches (hreach : d.Reaches p.root dir)
    (htargets : ∀ patch ∈ s, patch.target.IsFilePath) (hnodup : (s.map (·.target)).Nodup)
    (h : Store.each p.writePatch s d = (.ok (), d')) :
    d.SetsFiles d' (s.map fun patch =>
      (dir ++ fileLocation patch.target, some (.ofText patch.body))) := by
  refine Store.setsFiles_of_each (fun patch hpatch e f hkeeps hstep => ?_) ?_ h
  · obtain ⟨_, l, hl, hset⟩ := exists_locate_of_writePatch (htargets patch hpatch) hstep
    rwa [(hreach.mono hkeeps).eq_of_locate (fileLocation_ne_nil (htargets patch hpatch)) hl] at hset
  · intro patch hpatch other hother heq
    have htarget := fileLocation_inj (htargets patch hpatch) (htargets other hother)
      (List.append_cancel_left heq)
    rw [List.inj_on_of_nodup_map hnodup hpatch hother htarget]

/-- Stale patch files are dropped and the others put. -/
theorem holdsPatches_of_each (hreach : d.Reaches p.root dir) (hroot : d.locate p.root = .ok dir)
    (hstable : ∀ names ∈ patchNames d dir, (ofLocation names).IsStable)
    (htargets : ∀ patch ∈ s, patch.target.IsFilePath) (hnodup : (s.map (·.target)).Nodup)
    {found : List TreePath} (hfound : p.files d = .ok found) {e : Disk}
    (hdrop : Store.each (fun file => Store.dropFile (p.root.below file))
      (found.filter (· ∉ s.map fun patch => fileOf patch.target)) d = (.ok (), e))
    (hput : Store.each p.writePatch s e = (.ok (), d')) :
    HoldsPatches s d d' dir ∧ d.KeepsDirectories d' := by
  obtain ⟨hstale, hother, hkeeps⟩ := of_dropStale hreach hroot hstable hfound hdrop
  have hwritten := setsFiles_of_writePatches (hreach.mono hkeeps) htargets hnodup hput
  have hkept : ∀ l, (∀ patch ∈ s, l ≠ dir ++ fileLocation patch.target) →
      d'.file? l = e.file? l := by
    refine fun l hl => hwritten.of_notMem l fun c hc => ?_
    obtain ⟨patch, hpatch, rfl⟩ := List.mem_map.1 hc
    exact hl patch hpatch
  refine ⟨⟨fun patch hpatch => ?_, fun names hnames hnew => ?_, fun l hl => ?_⟩,
    hkeeps.trans hwritten.directories⟩
  · exact hwritten.of_mem _ (List.mem_map_of_mem hpatch)
  · rw [hkept _ fun patch hpatch heq => hnew patch hpatch (List.append_cancel_left heq)]
    exact hstale names hnames hnew
  · rw [hkept l, hother l hl]
    rintro patch hpatch rfl
    exact hl (List.prefix_append _ _) (isPatchLocation_fileLocation (htargets patch hpatch) dir)

theorem reaches_of_makeDirectories {found : List TreePath}
    (h : Store.makeDirectories p.root d = (.ok (), d')) (hfound : p.files d' = .ok found) :
    ∃ dir, d'.Reaches p.root dir ∧ d'.locate p.root = .ok dir := by
  obtain ⟨dir, hroot⟩ := exists_locate_of_files hfound
  obtain ⟨dir', hreach⟩ := Disk.reaches_of_makeDirectories (Disk.locate_eq_ok_iff.1 hroot).1
    (Store.makeDirectories_eq_ok_iff.1 h)
  have heq := (Disk.location?_of_locate hroot).symm.trans hreach.location?_eq
  exact ⟨dir, Option.some.inj heq ▸ hreach, hroot⟩

/-- Pruning keeps the root where its path never goes up. -/
theorem holds_of_prune (hreach : d.Reaches p.root dir) (hvalid : p.root.fault? = none)
    (hup : .up ∉ p.root.steps) (h : p.prune d = (.ok (), d')) : d'.holds p.root = true := by
  have hstay : ∀ l, l <+: dir → d'.node? l = d.node? l := fun l hl =>
    node?_of_prune hreach.location?_eq h hl
  have hdir : d'.node? dir = some .directory := by
    rw [hstay dir (List.prefix_refl _), hreach.isDirectory]
  have hreach' : d'.Reaches p.root dir := ⟨Disk.follow_of_prefix hup hstay hreach.leads, hdir⟩
  exact Disk.holds_iff.2 ⟨dir, _, hreach'.locate hvalid, hdir⟩

/-- What the files are after a stack was written, if normalisation leaves the paths of the patch
files alone that were there before. -/
theorem written_of_write (hstable : p.HasStableFiles d)
    (htargets : ∀ patch ∈ s, patch.target.IsFilePath) (h : p.write s d = (.ok (), d')) :
    ∃ dir, p.Written s d d' dir := by
  obtain ⟨hdup, d₁, found, d₂, d₃, d₄, hmake, hfound, hdrop, hput, hseries, hprune⟩ :=
    write_eq_ok_iff.1 h
  have hextends := Store.extends_of_makeDirectories hmake
  obtain ⟨dir, hreach, hroot⟩ := reaches_of_makeDirectories hmake hfound
  have hstable₁ : ∀ names ∈ patchNames d₁ dir, (ofLocation names).IsStable := by
    intro names hnames
    refine hstable dir hreach.location?_eq names ?_
    rwa [mem_patchNames_iff, hextends.files, ← mem_patchNames_iff] at hnames
  obtain ⟨hholds, hkeeps⟩ := holdsPatches_of_each hreach hroot hstable₁ htargets
    (duplicate?_eq_none_iff.1 hdup).1 hfound hdrop hput
  have hreach₃ := hreach.mono hkeeps
  obtain ⟨hkeeps₄, hfile₄⟩ := of_putSeries hreach₃ hseries
  have hreach₄ := hreach₃.mono hkeeps₄
  have hpruned := keepsFiles_of_prune hreach.location?_eq hprune
  have hfile₃ : d₃.file? (dir ++ [seriesName]) = d.file? (dir ++ [seriesName]) := by
    rw [hholds.other _ fun _ => not_isPatchLocation_series dir, hextends.files]
  have hother : ∀ l, l ≠ dir ++ [seriesName] → d'.file? l = d₃.file? l := by
    intro l hl
    rw [hpruned, hfile₄, if_neg fun hs => hl hs.2]
  have hpatch : ∀ names, IsPatchLocation (dir ++ names) → dir ++ names ≠ dir ++ [seriesName] :=
    fun names hnames heq => not_isPatchLocation_series dir (heq ▸ hnames)
  refine ⟨dir, hreach.location?_eq, ?root, ?reached, ?patch, ?stale, ?series, ?noSeries, ?other,
    ?located⟩
  case root => rw [hpruned, Disk.file?_of_directory hreach₄.isDirectory]
  case reached =>
    exact fun hup => holds_of_prune hreach₄ (Disk.locate_eq_ok_iff.1 hroot).1 hup hprune
  case patch =>
    intro patch hmem
    rw [hother _ (hpatch _ (isPatchLocation_fileLocation (htargets patch hmem) dir)),
      hholds.patch patch hmem]
  case stale =>
    intro names hnames hnew
    rw [hother _ (hpatch names hnames), hholds.stale names hnames hnew]
  case series =>
    intro hhas
    obtain ⟨l, content, hl, hfile⟩ := hasSeries_iff.1 hhas
    rw [hreach.eq_of_locate (by simp) hl, ← hfile₃] at hfile
    rw [hpruned, hfile₄, if_pos ⟨hasSeries_of_reaches hreach₃ hhas ⟨content, hfile⟩, rfl⟩]
  case noSeries =>
    intro hnone
    have hnot : p.hasSeries d₃ ≠ true := by
      intro hhas
      obtain ⟨l, content, hl, hfile⟩ := hasSeries_iff.1 hhas
      rw [hreach₃.eq_of_locate (by simp) hl, hfile₃, hnone] at hfile
      cases hfile
    rw [hpruned, hfile₄, if_neg fun hs => hnot hs.1, hfile₃, hnone]
  case other =>
    intro l hl hne
    rw [hother l hne, hholds.other l hl, hextends.files]
  case located =>
    intro patch hmem
    obtain ⟨e, f, hstep⟩ := Store.exists_of_mem_each hmem hput
    obtain ⟨e', l, hl, -⟩ := exists_locate_of_writePatch (htargets patch hmem) hstep
    exact ⟨e', l, hl⟩

end Patchwork.PatchDirectory
