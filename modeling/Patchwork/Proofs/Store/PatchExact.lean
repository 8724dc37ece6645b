import Patchwork.Proofs.Store.Frame
import Patchwork.Proofs.Store.WriteBack

/-!
# What writing a stack comes to

A stack that names a target twice is refused before anything is done (`write_of_not_nodup`). When
any other has been written, the directory holds exactly its patches and the series file lists them,
while every other file is as it was (`HoldsExactly`). So there is nothing left to do for a second
time: it changes no file (`keepsFiles_write_again`). No directory is left empty, unless the path of
the root led through it to one that went (`write_exact`).
-/
namespace Patchwork.PatchDirectory

open Store (of_bind of_each)

variable {p : PatchDirectory} {d d' e : Disk} {dir : Location} {s : Stack}

/-! ## Targets that are named twice -/

theorem exists_of_duplicate? {seen : List TreePath} {target : TreePath}
    (h : duplicate? seen s = some target) :
    ∃ front patch back, s = front ++ patch :: back ∧ patch.target = target ∧
      duplicate? seen front = none ∧
      (target ∈ seen ∨ target ∈ front.map (·.target)) := by
  induction s generalizing seen with
  | nil => cases h
  | cons first s ih =>
    rw [duplicate?] at h
    split_ifs at h with hseen
    · obtain rfl := Option.some.inj h
      exact ⟨[], first, s, rfl, rfl, rfl, .inl hseen⟩
    · obtain ⟨front, patch, back, rfl, rfl, hfront, htwice⟩ := ih h
      refine ⟨first :: front, patch, back, rfl, rfl, ?_, ?_⟩
      · rw [duplicate?, if_neg hseen, hfront]
      · rw [List.mem_cons] at htwice
        rw [List.map_cons, List.mem_cons]
        tauto

/-- The first patch whose target an earlier one has stops the writing before anything is done. -/
theorem write_of_not_nodup (p : PatchDirectory) (d : Disk) (h : ¬ (s.map (·.target)).Nodup) :
    ∃ front patch back, s = front ++ patch :: back ∧ (front.map (·.target)).Nodup ∧
      patch.target ∈ front.map (·.target) ∧
        p.write s d = (.error (.duplicateTarget patch.target), d) := by
  cases hdup : duplicate? [] s with
  | none => exact absurd (duplicate?_eq_none_iff.1 hdup).1 h
  | some target =>
    obtain ⟨front, patch, back, rfl, rfl, hfront, htwice⟩ := exists_of_duplicate? hdup
    refine ⟨front, patch, back, rfl, (duplicate?_eq_none_iff.1 hfront).1, by simpa using htwice, ?_⟩
    unfold write
    rw [hdup]
    rfl

/-! ## The series file -/

theorem hasSeries_iff_of_reaches (h : d.Reaches p.root dir) : p.hasSeries d = true ↔
    p.seriesPath.fault? = none ∧ ∃ content, d.file? (dir ++ [seriesName]) = some content := by
  rw [hasSeries_iff, seriesPath_eq]
  constructor
  · rintro ⟨l, content, hl, hfile⟩
    rw [h.eq_of_locate (by simp) hl] at hfile
    exact ⟨(Disk.locate_eq_ok_iff.1 hl).1, content, hfile⟩
  · rintro ⟨hvalid, content, hfile⟩
    refine ⟨dir ++ [seriesName], content, ?_, hfile⟩
    refine (Disk.locate_belowNames_eq_ok_iff (by simp)).2 ⟨hvalid, dir, h, ?_⟩
    rw [Disk.follow_into_of_node? (Disk.file?_eq_some_iff.1 hfile),
      if_neg (by simp [isTooLong_seriesName])]

theorem exists_reaches_of_write (h : p.write s d = (.ok (), d')) :
    ∃ e dir, d.Extends e ∧ e.Reaches p.root dir ∧ p.write s e = (.ok (), d') := by
  obtain ⟨hdup, e, found, d₂, d₃, d₄, hmake, hfound, hrest⟩ := write_eq_ok_iff.1 h
  obtain ⟨dir, hreach, hroot⟩ := reaches_of_makeDirectories hmake hfound
  have hagain := hreach.makeDirectories_eq (Disk.locate_eq_ok_iff.1 hroot).1
  exact ⟨e, dir, Store.extends_of_makeDirectories hmake, hreach,
    write_eq_ok_iff.2 ⟨hdup, e, found, d₂, d₃, d₄, Store.makeDirectories_eq_ok_iff.2 hagain,
      hfound, hrest⟩⟩

/-! ## Writing again -/

theorem keepsFiles_putSeries (hreach : d.Reaches p.root dir) {content : Content}
    (hfile : d.file? (dir ++ [seriesName]) = some content) :
    d.KeepsFiles (Store.putFile p.seriesPath content d).2 := by
  rcases hput : Store.putFile p.seriesPath content d with ⟨error | _, e⟩
  · exact Store.keepsFiles_of_putFile hput
  · rw [seriesPath_eq] at hput
    obtain ⟨_, l, hl, hset⟩ := Store.setsFile_of_putFile hput
    intro m
    rw [hset.file?_eq, hreach.eq_of_locate (by simp) hl]
    split_ifs with hm
    · rw [hm, hfile]
    · rfl

/-- Writing what a directory holds already changes no file, whatever comes of it. -/
theorem keepsFiles_write_again (hroot : p.root.location? = some dir)
    (htargets : ∀ patch ∈ s, patch.target.IsFilePath) (h : SuppliesEach d dir s)
    (hseries : ∀ content, d.file? (dir ++ [seriesName]) = some content →
    p.seriesPath.fault? = none → content = .ofText (seriesText s)) :
    d.KeepsFiles (p.write s d).2 := by
  unfold write
  rw [duplicate?_eq_none_iff.2 ⟨h.nodup_targets, by simp⟩]
  refine of_bind (motive := d.KeepsFiles) (Store.extends_of_makeDirectories rfl).files
    fun _ e hmake => ?_
  have hmade := (Store.extends_of_makeDirectories hmake).files
  refine of_bind (motive := d.KeepsFiles) hmade fun found _ hlook => ?_
  obtain ⟨hfound, rfl⟩ := Store.inspect_eq_ok_iff.1 hlook
  obtain ⟨l, hreach, hlocate⟩ := reaches_of_makeDirectories hmake hfound
  obtain rfl : l = dir := Option.some.inj (hreach.location?_eq.symm.trans hroot)
  have hsupplies : SuppliesEach e l s := h.of_keepsFiles hmade
  rw [hsupplies.stale_eq_nil htargets hlocate hfound]
  refine of_bind (motive := d.KeepsFiles) hmade fun _ _ hdropped => ?_
  obtain ⟨-, rfl⟩ := Store.pure_eq_ok_iff.1 hdropped
  have hput : (Store.each p.writePatch s e).2 = e := by
    refine of_each (motive := (· = e)) (fun patch hpatch f hf => ?_) rfl
    rw [hf, writePatch_eq hreach (htargets patch hpatch) (hsupplies.bodies patch hpatch)]
  refine of_bind (motive := d.KeepsFiles) (hput.symm ▸ hmade) fun _ f hwritten => ?_
  obtain rfl : f = e := by rw [← hput, hwritten]
  refine of_bind (motive := d.KeepsFiles) hmade fun _ _ hget => ?_
  obtain ⟨rfl, rfl⟩ := Store.get_eq_ok_iff.1 hget
  split_ifs with hhas
  · obtain ⟨hvalid, content, hfile⟩ := (hasSeries_iff_of_reaches hreach).1 hhas
    have hfile' := hfile
    rw [hmade] at hfile'
    rw [hseries content hfile' hvalid] at hfile
    have hkept := hmade.trans (keepsFiles_putSeries hreach hfile)
    refine of_bind (motive := d.KeepsFiles) hkept fun _ g hg => ?_
    rw [hg] at hkept
    exact hkept.trans (keepsFiles_prune p g)
  · exact hmade.trans (keepsFiles_prune p f)

/-! ## The whole -/

theorem HasStableFiles.of_keepsFiles (h : p.HasStableFiles d) (hkeeps : d.KeepsFiles e) :
    p.HasStableFiles e := by
  intro l hl names hnames
  refine h l hl names ?_
  rwa [mem_patchNames_iff, hkeeps, ← mem_patchNames_iff] at hnames

theorem Written.suppliesEach (h : p.Written s d d' dir)
    (htargets : ∀ patch ∈ s, patch.target.IsFilePath) (hnodup : (s.map (·.target)).Nodup) :
    SuppliesEach d' dir s :=
  .of_mem_iff htargets hnodup (fun _ => h.mem_patchNames_iff htargets) h.patch

/-- The disk after a stack was written to the patch directory at a location. -/
structure HoldsExactly (p : PatchDirectory) (s : Stack) (d d' : Disk) (dir : Location) : Prop where
  location : p.root.location? = some dir
  /-- The patch files are one for each target, and hold the patches. -/
  patches : SuppliesEach d' dir s
  /-- A series file that was there has a line for each of them, in the order of the stack. -/
  series : ∀ old, d.file? (dir ++ [seriesName]) = some old → p.seriesPath.fault? = none →
    d'.file? (dir ++ [seriesName]) = some (.ofText (seriesText s))
  /-- The lines are read as these files exactly if nothing in their names cuts a line short. -/
  listed : ∀ old, d.file? (dir ++ [seriesName]) = some old → p.seriesPath.fault? = none →
    d'.holds p.root = true →
    (p.readSeries d' = .ok (some (s.map fun patch => fileOf patch.target)) ↔
    ∀ patch ∈ s, patch.target.IsListable)
  /-- No series file is made. -/
  noSeries : d.file? (dir ++ [seriesName]) = none → d'.file? (dir ++ [seriesName]) = none
  /-- Every other file is as it was. -/
  other : ∀ l, (dir <+: l → ¬ IsPatchLocation l) → l ≠ dir ++ [seriesName] → d'.file? l = d.file? l
  /-- A directory below the root is not empty, unless the path of the root leads through it to
  something in it. -/
  entries : ∀ names, names ≠ [] → d'.node? (dir ++ names) = some .directory →
    (∃ name, d'.node? (dir ++ names ++ [name]) ≠ none) ∨ ∃ name, ¬ p.root.LeadsPast
      (dir ++ names ++ [name])
  /-- If the root is still reached, there is a file somewhere below it. -/
  files : d'.holds p.root = true → ∀ names, names ≠ [] → d'.node? (dir ++ names) = some .directory →
    ∃ rest content, d'.file? (dir ++ names ++ rest) = some content
  /-- Writing the stack again changes no file, whatever comes of it. -/
  again : d'.KeepsFiles (p.write s d').2
  /-- It can be written again. -/
  writable : d'.holds p.root = true → ∃ e, p.write s d' = (.ok (), e)

/-- What was written can be written again if the root is still reached: no directory is left to be
removed. -/
theorem Written.exists_write (h : p.Written s d d' dir)
    (htargets : ∀ patch ∈ s, patch.target.IsFilePath) (hwrite : p.write s d = (.ok (), d'))
    (hroot : d'.holds p.root = true) : ∃ e, p.write s d' = (.ok (), e) := by
  obtain ⟨hdup, -, -, -, -, d₄, -, -, -, -, -, hprune⟩ := write_eq_ok_iff.1 hwrite
  have hreach := h.reaches hroot
  obtain ⟨l, -, hl, -⟩ := Disk.holds_iff.1 hroot
  obtain rfl : l = dir := Option.some.inj ((Disk.location?_of_locate hl).symm.trans h.location)
  have hsupplies := h.suppliesEach htargets (duplicate?_eq_none_iff.1 hdup).1
  have hstays : p.RootStays d' := by
    intro dir' hdir' names hnames hdir hempty
    obtain rfl : dir' = l := Option.some.inj (hdir'.symm.trans h.location)
    obtain ⟨rest, content, hfile⟩ := exists_file?_of_prune hprune hreach hnames hdir
    rw [hempty rest] at hfile
    cases hfile
  obtain ⟨e, hagain, -⟩ := exists_write_of_suppliesEach hreach hl htargets hsupplies
    (fun patch hpatch => h.content_eq hreach hpatch (htargets patch hpatch)) hstays
  exact ⟨e, hagain⟩

theorem holdsExactly_of_write (hstable : p.HasStableFiles d)
    (htargets : ∀ patch ∈ s, patch.target.IsFilePath) (hwrite : p.write s d = (.ok (), d')) :
    ∃ dir, p.HoldsExactly s d d' dir := by
  obtain ⟨e, dir, hextends, hreach, hwrite⟩ := exists_reaches_of_write hwrite
  obtain ⟨l, h⟩ := written_of_write (hstable.of_keepsFiles hextends.files) htargets hwrite
  obtain rfl : l = dir := Option.some.inj (h.location.symm.trans hreach.location?_eq)
  obtain ⟨hdup, -, -, -, -, d₄, -, -, -, -, -, hprune⟩ := write_eq_ok_iff.1 hwrite
  have hsupplies := h.suppliesEach htargets (duplicate?_eq_none_iff.1 hdup).1
  -- Once the directory of the root is there, a series file in it is found.
  have hhas : ∀ old, d.file? (l ++ [seriesName]) = some old → p.seriesPath.fault? = none →
      p.hasSeries e = true :=
    fun old hold hvalid =>
      (hasSeries_iff_of_reaches hreach).2 ⟨hvalid, old, by rw [hextends.files, hold]⟩
  have hnone : d.file? (l ++ [seriesName]) = none →
      d'.file? (l ++ [seriesName]) = none := fun hold =>
    h.noSeries (by rw [hextends.files, hold])
  refine ⟨l, h.location, hsupplies, ?series, ?listed, hnone, ?other, ?entries, ?files, ?again,
    ?writable⟩
  case series => exact fun old hold hvalid => h.series (hhas old hold hvalid)
  case listed =>
    exact fun old hold hvalid hroot => h.readSeries_eq_some_iff (h.reaches hroot) htargets
      (hhas old hold hvalid)
  case other => exact fun m hm hne => by rw [h.other m hm hne, hextends.files]
  case entries => exact fun names => exists_entry_or_of_prune hprune h.location
  case files => exact fun hroot names => exists_file?_of_prune hprune (h.reaches hroot)
  case again =>
    refine keepsFiles_write_again h.location htargets hsupplies fun content hcontent hvalid => ?_
    cases hold : d.file? (l ++ [seriesName]) with
    | none =>
      rw [hnone hold] at hcontent
      cases hcontent
    | some old => exact Option.some.inj (hcontent.symm.trans (h.series (hhas old hold hvalid)))
  case writable => exact h.exists_write htargets hwrite

/-- A stack that names a target twice is refused, with the target, and the disk stays as it is.
After any other that was written, the directory holds exactly its patches, the series file lists
them, no other file has changed, and writing it again changes none. No directory is left empty that
the path of the root does not lead through. If the path never goes up, the root is still reached,
and every directory below it has a file somewhere below it. -/
theorem write_exact (hstable : p.HasStableFiles d)
    (htargets : ∀ patch ∈ s, patch.target.IsFilePath) :
    (¬ (s.map (·.target)).Nodup → ∃ front patch back, s = front ++ patch :: back ∧
      (front.map (·.target)).Nodup ∧ patch.target ∈ front.map (·.target) ∧
      p.write s d = (.error (.duplicateTarget patch.target), d)) ∧
    ∀ d', p.write s d = (.ok (), d') →
      (∃ dir, p.HoldsExactly s d d' dir) ∧ (.up ∉ p.root.steps → d'.holds p.root = true) := by
  refine ⟨write_of_not_nodup p d, fun d' hwrite =>
    ⟨holdsExactly_of_write hstable htargets hwrite, ?_⟩⟩
  obtain ⟨dir, h⟩ := written_of_write hstable htargets hwrite
  exact h.reached

/-- A patch file and its directory go, and a file beside them and one outside stay. -/
theorem write_exact_restacked :
    let p : PatchDirectory := ⟨⟨"p"⟩⟩
    let d :=
      diskOfFiles [("p/series", "dir/old.patch # first\n"), ("p/dir/old.patch", "x"),
        ("p/notes", "n"),
      ("a.patch", "z")]
    let s : Stack := [⟨⟨"b/c"⟩, "y"⟩, ⟨⟨"a"⟩, "x"⟩]
    let twice : Stack := [⟨⟨"a"⟩, "x"⟩, ⟨⟨"b"⟩, "y"⟩, ⟨⟨"a"⟩, "z"⟩]
    p.HasStableFiles d ∧ (∀ patch ∈ s, patch.target.IsFilePath) ∧
      p.write s d = (.ok (), (p.write s d).2) ∧
      (∃ dir, p.HoldsExactly s d (p.write s d).2 dir) ∧ (p.write s d).2.holds p.root = true ∧
      (∀ patch ∈ twice, patch.target.IsFilePath) ∧ ¬ (twice.map (·.target)).Nodup ∧
      ∃ target, p.write twice d = (.error (.duplicateTarget target), d) := by
  intro p d s twice
  have hstable : p.HasStableFiles d := by decide +kernel
  have htargets : ∀ patch ∈ s, patch.target.IsFilePath := by decide +kernel
  have htargets' : ∀ patch ∈ twice, patch.target.IsFilePath := by decide +kernel
  have htwice : ¬ (twice.map (·.target)).Nodup := by decide
  have hwrite : p.write s d = (.ok (), (p.write s d).2) :=
    Prod.ext (show (p.write s d).1 = .ok () by decide +kernel) rfl
  obtain ⟨hexact, hroot⟩ := (write_exact hstable htargets).2 _ hwrite
  obtain ⟨_, patch, _, -, -, -, hrefused⟩ := (write_exact hstable htargets').1 htwice
  exact ⟨hstable, htargets, hwrite, hexact, hroot (by decide +kernel), htargets', htwice,
    patch.target, hrefused⟩

/-- The path of the root goes up through a directory that goes, so the one around it is not found
any more. -/
theorem not_forall_write_exact :
    ¬ ∀ (p : PatchDirectory) (s : Stack) (d d' : Disk), p.HasStableFiles d →
      (∀ patch ∈ s, patch.target.IsFilePath) → p.write s d = (.ok (), d') →
      ∀ dir ∈ p.root.location?,
      ∀ names, names ≠ [] → d'.node? (dir ++ names) = some .directory → d'.hasEntries
        (dir ++ names) = true := by
  intro h
  let p : PatchDirectory := ⟨⟨"p/n/m/../.."⟩⟩
  let d := diskOfFiles [("p/n/m/x.patch", "x")]
  let dir : Location := [⟨"p", by decide⟩]
  let names : Location := [⟨"n", by decide⟩]
  have hentries := h p [] d (p.write [] d).2 (by decide +kernel) (by decide +kernel)
    (Prod.ext (show (p.write [] d).1 = .ok () by decide +kernel) rfl) dir (by decide +kernel) names
      (by decide +kernel)
    (by decide +kernel)
  exact absurd hentries (by decide +kernel)

end Patchwork.PatchDirectory
