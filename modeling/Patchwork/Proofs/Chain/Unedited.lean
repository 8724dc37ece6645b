import Patchwork.Proofs.Chain.FileUnits
import Patchwork.Proofs.Chain.Outputs
import Patchwork.Proofs.Store.PatchRead

/-!
# Regenerating what was not edited

What patches made of a text is text, so a unit whose output is read as it was made can be
regenerated, and its new patches make the same again (`SetUnit.exists_regenerate_of_apply`,
`FileUnit.exists_regenerate_of_apply`). A stage passes the same tree on then, so this carries over
to all stages. Writing the outputs of a valid configuration leaves the patches as they are, so a
project that was applied and written can be regenerated without loss
(`Config.replay_regenerate_of_writeOutputs`).
-/
namespace Patchwork

open List (Forall₂)

variable {d e : Disk} {root : DiskPath} {dir : Location} {input : Tree} {context : Nat}

/-! ## Units -/

namespace SetUnit

variable {u : SetUnit}

theorem hasFileTargets (u : SetUnit) (d : Disk) : u.HasFileTargets d := by
  intro s hs path hpath
  obtain ⟨patch, hpatch, rfl⟩ := List.mem_map.1 hpath
  exact PatchDirectory.isFilePath_of_mem_read (Except.mapError_eq_ok_iff.1 hs) patch hpatch

/-- A unit whose output directory is loaded as what the unit made can be regenerated, and its new
patches make the same. -/
theorem exists_regenerate_of_apply (context : Nat) (hinput : input.Fits) (he : e.Fits)
    {o : SetOutput} (h : u.apply d input = .ok o) (hstored : u.stored e = u.stored d)
    (hshows : Piece.Shows e root (.inl o)) :
    ∃ r, (u.regenerate e input root context = .ok r ∧
      u.derive input r.patches.patches = .ok r.output) ∧
      r.output = o := by
  obtain ⟨s, hs, h⟩ := apply_eq_ok_iff.1 h
  obtain ⟨t, hreplay, rfl⟩ := derive_eq_ok_iff.1 h
  obtain ⟨patches, hpatches, hreplay'⟩ := Stack.exists_regenerate_of_replay (hinput.subtree _ _)
    (Store.fits_of_loadTree he hshows) (u.hasFileTargets d s hs) hreplay ⟨context, s.targets⟩
  exact ⟨⟨u.outputOf t, u.patchesOf patches⟩,
    ⟨regenerate_eq_ok_iff.2 ⟨s, t, patches, hstored.trans hs, hshows, hpatches, rfl⟩,
      derive_eq_ok_iff.2 ⟨t, hreplay', rfl⟩⟩, rfl⟩

end SetUnit

theorem FileUnit.exists_regenerate_of_apply {u : FileUnit} (context : Nat)
    (hpath : u.path.IsFilePath) (hinput : input.Fits) (he : e.Fits) {o : FileOutput}
    (h : u.apply d input = .ok o) (hshows : Piece.Shows e root (.inr o)) :
    ∃ r, (u.regenerate e input root context = .ok r ∧ u.replay input r.patches = .ok r.output) ∧
      r.output = o := by
  obtain ⟨s, hs, h⟩ := Except.bind_eq_ok_iff.1 h
  obtain ⟨hthere, t, hreplay, rfl⟩ := derive_eq_ok_iff.1 h
  have htargets : ∀ path ∈ s.targets, path.IsFilePath := fun path hmem =>
    eq_path_of_mem_targets hs path hmem ▸ hpath
  have hsome : (input.get? u.path).isSome ∨ (t.get? u.path).isSome := by
    rcases of_stored hs with rfl | ⟨body, rfl⟩
    · exact .inl (hthere.resolve_left (by simp))
    · obtain ⟨c, hc, hdone⟩ := Stack.replay_cons_eq_ok_iff.1 hreplay
      obtain rfl := Except.ok.inj hdone
      simpa [base] using StoredPatch.isSome_of_onFile hc
  rw [eq_single_of_replay hs hreplay] at hreplay
  obtain ⟨patches, hpatches, -⟩ :=
    Stack.exists_regenerate_of_replay (Tree.fits_single (hinput u.path))
      (Tree.fits_single (Store.fits_of_file? he hshows)) htargets hreplay ⟨context, []⟩
  have hr := regenerate_eq_ok_iff.2 ⟨t.get? u.path, patches, hshows, hpatches, rfl⟩
  have houtput : u.outputOf (Tree.single u.path (t.get? u.path)) = u.outputOf t := by
    simp [outputOf]
  refine ⟨_, ⟨hr, (replay_of_regenerate hinput he hr).2 ⟨?_, fun _ => hpath⟩⟩, houtput⟩
  rw [houtput]
  exact hsome

/-! ## Stages -/

theorem StageOutput.fits_overlay_of_shows {o : StageOutput} (hinput : input.Fits) (he : e.Fits)
    (hshows : ∀ q ∈ o.pieces, q.Shows e root) : (o.overlay input).Fits := by
  refine fits_overlay hinput (fun q hq => ?_) fun q hq => ?_
  · exact Store.fits_of_loadTree he
      (hshows (.inl q) (List.mem_append_left _ (List.mem_map_of_mem hq)))
  · exact Store.fits_of_file? he
      (hshows (.inr q) (List.mem_append_right _ (List.mem_map_of_mem hq)))

namespace Stage

variable {s : Stage} {o : StageOutput}

theorem isOf_of_apply (h : s.apply d input = .ok o) : o.IsOf s := by
  obtain ⟨sets, files, hsets, hfiles, rfl⟩ := apply_eq_ok_iff.1 h
  refine ⟨(hsets.imp fun u q hq => ?_).flip, (hfiles.imp fun u q hq => ?_).flip⟩
  · obtain ⟨patches, -, hq⟩ := SetUnit.apply_eq_ok_iff.1 hq
    obtain ⟨t, -, rfl⟩ := SetUnit.derive_eq_ok_iff.1 hq
    exact ⟨t, rfl⟩
  · obtain ⟨patches, -, hq⟩ := Except.bind_eq_ok_iff.1 hq
    obtain ⟨-, t, -, rfl⟩ := FileUnit.derive_eq_ok_iff.1 hq
    rfl

/-- What the regeneration of a chain needs of a stage: its patches are as they were, and its files
can be named. -/
structure IsKept (s : Stage) (d e : Disk) : Prop where
  stored : ∀ u ∈ s.sets, u.stored e = u.stored d
  paths : ∀ u ∈ s.files, u.path.IsFilePath

theorem exists_regenerate_of_apply (hinput : input.Fits) (he : e.Fits) (hkept : s.IsKept d e)
    (h : s.apply d input = .ok o) (hshows : ∀ q ∈ o.pieces, q.Shows e root) :
    ∃ r, s.regenerate e input root context = .ok r ∧ s.replay r.patches input = .ok r.output ∧
      r.output = o := by
  obtain ⟨sets, files, hsets, hfiles, rfl⟩ := apply_eq_ok_iff.1 h
  have hsets := forall₂_and_right ((List.forall₂_and_left _ _).2 ⟨hkept.stored, hsets⟩) fun q hq =>
    hshows (.inl q) (List.mem_append_left _ (List.mem_map_of_mem hq))
  have hfiles := forall₂_and_right ((List.forall₂_and_left _ _).2 ⟨hkept.paths, hfiles⟩) fun q hq =>
    hshows (.inr q) (List.mem_append_right _ (List.mem_map_of_mem hq))
  obtain ⟨as, has, rfl⟩ := exists_map_of_forall₂ <| hsets.imp fun u q ⟨⟨hstored, hq⟩, hshows⟩ =>
    SetUnit.exists_regenerate_of_apply context hinput he hq hstored hshows
  obtain ⟨bs, hbs, rfl⟩ := exists_map_of_forall₂ <| hfiles.imp fun u q ⟨⟨hpath, hq⟩, hshows⟩ =>
    FileUnit.exists_regenerate_of_apply context hpath hinput he hq hshows
  refine ⟨_, regenerate_eq_ok_iff.2 ⟨as, bs, has.imp fun _ _ h => h.1, hbs.imp fun _ _ h => h.1,
    rfl⟩, ?_, rfl⟩
  exact replay_eq_ok_iff.2 ⟨_, _, forall₂_zip_map (has.imp fun _ _ h => h.2),
    forall₂_zip_map (hbs.imp fun _ _ h => h.2), rfl⟩

end Stage

namespace Chain

theorem isOf_of_applyStages {stages : List Stage} {outputs : List StageOutput}
    (h : applyStages d stages input = .ok outputs) : Forall₂ StageOutput.IsOf outputs stages := by
  induction stages generalizing input outputs with
  | nil =>
    obtain rfl := Except.ok.inj h
    exact .nil
  | cons s stages ih =>
    obtain ⟨o, rest, ho, hrest, rfl⟩ := applyStages_cons_eq_ok_iff.1 h
    exact .cons (Stage.isOf_of_apply ho) (ih hrest)

/-- Stages that are read as they were applied can be regenerated, and their new patches make the
same. -/
theorem exists_regenerateStages_of_applyStages {stages : List Stage} (hinput : input.Fits)
    (he : e.Fits) (hkept : ∀ s ∈ stages, s.IsKept d e) {outputs : List StageOutput}
    (h : applyStages d stages input = .ok outputs)
    (hshows : ∀ q ∈ outputs.flatMap (·.pieces), q.Shows e root) :
    ∃ ps, regenerateStages e root context stages input = .ok ps ∧
      replayStages (stages.zip ps) input = .ok outputs := by
  induction stages generalizing input outputs with
  | nil => exact ⟨[], rfl, h⟩
  | cons s stages ih =>
    obtain ⟨o, rest, ho, hrest, rfl⟩ := applyStages_cons_eq_ok_iff.1 h
    obtain ⟨hs, hkept⟩ := List.forall_mem_cons.1 hkept
    rw [List.flatMap_cons, List.forall_mem_append] at hshows
    obtain ⟨r, hr, hreplay, rfl⟩ := Stage.exists_regenerate_of_apply hinput he hs ho hshows.1
    obtain ⟨ps, hps, hreplays⟩ :=
      ih (StageOutput.fits_overlay_of_shows hinput he hshows.1) hkept hrest hshows.2
    exact ⟨r.patches :: ps, regenerateStages_cons_eq_ok_iff.2 ⟨r, ps, hr, hps, rfl⟩,
      replayStages_cons_eq_ok_iff.2 ⟨_, rest, hreplay, hreplays, rfl⟩⟩

theorem IsLaidOut.stored_eq {c : Chain} (hlaid : c.IsLaidOut) (hp : d.Reaches c.root dir)
    (hp' : e.Reaches c.root dir) {ls : Set Location} (hchange : d.ChangesWithin e ls)
    (hls : ∀ l ∈ ls, ∃ v ∈ c.units, l = dir ++ (outputPath v).location) {s : Stage}
    (hs : s ∈ c.stages) {u : SetUnit} (hu : u ∈ s.sets) : u.stored e = u.stored d := by
  obtain ⟨place, hplace, hpatches, hapart⟩ := hlaid.patches s hs u hu
  have hmem : .inl u ∈ c.units :=
    List.mem_flatMap.2 ⟨s, hs, List.mem_append_left _ (List.mem_map_of_mem hu)⟩
  have hnames : place.location ≠ [] := fun hnil => (hapart _ hmem).2 (hnil ▸ List.nil_prefix)
  unfold SetUnit.stored
  rw [hpatches, DiskPath.below_eq _ hplace, PatchDirectory.read_of_node?_eq hp hp' hnames
    (hchange.node?_append_eq fun l hl => ?_)]
  obtain ⟨v, hv, rfl⟩ := hls l hl
  exact (hapart v hv).append dir

/-- A chain that was applied and written can be regenerated from what was written, and its new
patches make the same outputs. -/
theorem exists_regenerate_of_writeOutputs {c : Chain} (hlaid : c.IsLaidOut)
    (hroot : d.Reaches c.root dir) {source : Snapshot} (hsource : source.tree.Fits) (he : e.Fits)
    (hpaths : ∀ s ∈ c.stages, ∀ u ∈ s.files, u.path.IsFilePath) {outputs : List StageOutput}
    (happly : c.apply d source = .ok outputs)
    (hreadable : ∀ q ∈ outputs.flatMap (·.pieces), q.IsReadable d c.root)
    (hwrite : c.writeOutputs outputs d = (.ok (), e)) :
    ∃ ps, c.regenerate e source c.root = .ok ps ∧ c.replay ps source = .ok outputs := by
  have hunits : Forall₂ Piece.IsOf (outputs.flatMap (·.pieces)) c.units :=
    List.rel_flatMap (isOf_of_applyStages happly) fun _ _ => StageOutput.IsOf.pieces
  have hplaces : ∀ q ∈ outputs.flatMap (·.pieces), ∃ u ∈ c.units,
      q.path = outputPath u := fun q hq =>
    (exists_of_mem_forall₂ hunits q hq).imp fun u hu => ⟨hu.1, hu.2.path_eq⟩
  have hapart : (outputs.flatMap (·.pieces)).Pairwise fun q r => q.path.Apart r.path := by
    have heq : (outputs.flatMap (·.pieces)).map Piece.path = c.units.map outputPath := by
      rw [← List.forall₂_eq_eq_eq, List.forall₂_map_left_iff, List.forall₂_map_right_iff]
      exact hunits.imp fun _ _ h => h.path_eq
    rw [← List.pairwise_map, heq, List.pairwise_map]
    exact hlaid.apart
  obtain ⟨hp', hchange, hshows⟩ := Piece.shows_of_each (fun q hq => by
    obtain ⟨u, hu, heq⟩ := hplaces q hq
    exact heq ▸ ⟨hlaid.normal u hu, hlaid.below u hu⟩) hapart hroot hreadable
      (writeOutputs_eq_ok_iff.1 hwrite)
  refine exists_regenerateStages_of_applyStages hsource he
    (fun s hs => ⟨fun u hu => ?_, hpaths s hs⟩) happly hshows
  refine hlaid.stored_eq hroot hp' hchange ?_ hs hu
  rintro l ⟨q, hq, rfl⟩
  obtain ⟨v, hv, heq⟩ := hplaces q hq
  exact ⟨v, hv, heq ▸ rfl⟩

end Chain

namespace Config

/-- A project with a valid configuration that was applied and written can be regenerated from what
was written, and replaying it with the new patches in place of the stored ones makes the same
outputs, if each of these is read as it was written. That the directory of the project is there,
that the paths of single files are well-formed and that files fit into memory is all that is asked
besides. -/
theorem replay_regenerate_of_writeOutputs (c : Config) (hvalid : c.IsValid)
    (hpaths : c.HasNormalPaths) (hfiles : ∀ s ∈ c.stages, ∀ f ∈ s.files, f.path.IsFilePath)
    {d e : Disk} {root : DiskPath} {dir : Location} (hroot : d.Reaches root dir) {source : Snapshot}
    (hsource : source.tree.Fits) (he : e.Fits) {outputs : List StageOutput}
    (happly : (c.chain root).apply d source = .ok outputs)
    (hreadable : ∀ q ∈ outputs.flatMap (·.pieces), q.IsReadable d root)
    (hwrite : (c.chain root).writeOutputs outputs d = (.ok (), e)) :
    ∃ ps, (c.chain root).regenerate e source root = .ok ps ∧
      (c.chain root).replay ps source = .ok outputs := by
  refine Chain.exists_regenerate_of_writeOutputs
    (isLaidOut hvalid hpaths root) hroot hsource he ?_ happly hreadable hwrite
  rintro stage hstage u hu
  obtain ⟨s, hs, rfl⟩ := List.mem_map.1 hstage
  obtain ⟨f, hf, rfl⟩ := List.mem_map.1 hu
  exact hfiles s hs f hf

open PatchDirectory (diskOfFiles)

def twoStages : Config where
  source := ⟨"base", none, "main", .default⟩
  stages := [
    ⟨"first", [⟨"middle", ⟨"src"⟩, ⟨"middle"⟩, ⟨"patches/first"⟩, [⟨"gen"⟩]⟩],
      [⟨⟨"notes"⟩, ⟨"notes"⟩, ⟨"patches/notes.patch"⟩⟩]⟩,
    ⟨"second", [⟨"last", ⟨"middle"⟩, ⟨"last"⟩, ⟨"patches/second"⟩, []⟩], []⟩]
  context := 3

def twoStagesDisk : Disk := diskOfFiles [
  ("middle/gen/x", "kept\n"),
  ("patches/first/a.patch", "--- a/a\n+++ b/a\n@@ -1 +1 @@\n-one\n+two\n"),
  ("patches/notes.patch", "--- a/notes\n+++ /dev/null\n@@ -1 +0,0 @@\n-gone\n")]

def twoStagesSource : Snapshot :=
  ⟨"main", .ofList [(⟨"notes"⟩, .ofText "gone\n"), (⟨"src/a"⟩, .ofText "one\n"),
    (⟨"src/gen/y"⟩, .ofText "y\n")]⟩

theorem replay_regenerate_of_writeOutputs_twoStages :
    let c := twoStages.chain ⟨"."⟩
    twoStages.IsValid ∧ twoStages.HasNormalPaths ∧ twoStagesDisk.Reaches ⟨"."⟩ [] ∧
      ∃ outputs e ps, c.apply twoStagesDisk twoStagesSource = .ok outputs ∧
        (∀ q ∈ outputs.flatMap (·.pieces), q.IsReadable twoStagesDisk ⟨"."⟩) ∧
        c.writeOutputs outputs twoStagesDisk = (.ok (), e) ∧ e.Fits ∧
        c.regenerate e twoStagesSource ⟨"."⟩ = .ok ps ∧
          c.replay ps twoStagesSource = .ok outputs := by
  intro c
  have hvalid : twoStages.IsValid := by decide +kernel
  have hpaths : twoStages.HasNormalPaths := by decide +kernel
  have hroot : twoStagesDisk.Reaches ⟨"."⟩ [] := ⟨by decide +kernel, by decide +kernel⟩
  obtain ⟨outputs, happly⟩ : ∃ outputs, c.apply twoStagesDisk twoStagesSource = .ok outputs := by
    decide +kernel
  have hrun : ∀ outputs, c.apply twoStagesDisk twoStagesSource = .ok outputs →
      (∀ q ∈ outputs.flatMap (·.pieces), q.IsReadable twoStagesDisk ⟨"."⟩) ∧
        (c.writeOutputs outputs twoStagesDisk).1 = .ok () ∧
          (c.writeOutputs outputs twoStagesDisk).2.Fits := by
    decide +kernel
  obtain ⟨hreadable, hok, he⟩ := hrun outputs happly
  have hwrite : c.writeOutputs outputs twoStagesDisk = (.ok (), _) := Prod.ext hok rfl
  have hsource : twoStagesSource.tree.Fits := by decide +kernel
  obtain ⟨ps, hps, hreplay⟩ :=
    replay_regenerate_of_writeOutputs twoStages hvalid hpaths
      (by decide +kernel) hroot hsource he happly hreadable hwrite
  exact ⟨hvalid, hpaths, hroot, outputs, _, ps, happly, hreadable, hwrite, he, hps, hreplay⟩

/-- A file that a patch puts below an excluded path is written, but not seen when the project is
regenerated, so its patch is lost. -/
theorem not_forall_replay_regenerate_of_writeOutputs :
    ¬ ∀ (c : Config) (root : DiskPath) (dir : Location) (d e : Disk) (source : Snapshot)
        (outputs : List StageOutput), c.IsValid → c.HasNormalPaths →
      (∀ s ∈ c.stages, ∀ f ∈ s.files, f.path.IsFilePath) → d.Reaches root dir → source.tree.Fits →
      e.Fits →
      (c.chain root).apply d source = .ok outputs →
      (c.chain root).writeOutputs outputs d = (.ok (), e) →
      ∃ ps, (c.chain root).regenerate e source root = .ok ps ∧
        (c.chain root).replay ps source = .ok outputs := by
  intro h
  let c := (excluding "gen").chain ⟨"."⟩
  let d :=
    diskOfFiles [("patches/gen/x.patch", "--- /dev/null\n+++ b/gen/x\n@@ -0,0 +1 @@\n+new\n")]
  let source : Snapshot := ⟨"main", .single ⟨"src/a"⟩ (some (.ofText "one\n"))⟩
  obtain ⟨outputs, happly⟩ : ∃ outputs, c.apply d source = .ok outputs := by decide +kernel
  have hrun : ∀ outputs, c.apply d source = .ok outputs →
      (c.writeOutputs outputs d).1 = .ok () ∧ (c.writeOutputs outputs d).2.Fits ∧
        ∀ ps, c.regenerate (c.writeOutputs outputs d).2 source ⟨"."⟩ = .ok ps →
          ∀ os, c.replay ps source = .ok os → os.map (·.fileCount) ≠ outputs.map (·.fileCount) := by
    decide +kernel
  obtain ⟨hok, he, hlost⟩ := hrun outputs happly
  obtain ⟨ps, hps, hreplay⟩ :=
    h (excluding "gen") ⟨"."⟩ [] d (c.writeOutputs outputs d).2 source outputs (by decide +kernel)
      (by decide +kernel) (by decide +kernel) ⟨by decide +kernel, by decide +kernel⟩
      (by decide +kernel) he happly (Prod.ext hok rfl)
  exact hlost ps hps outputs hreplay rfl

end Config

end Patchwork
