import Patchwork.Chain.Regenerate
import Patchwork.Proofs.Chain.Rebase
import Patchwork.Proofs.Store.Tree

/-!
# A chain that is regenerated makes its working directories

The patches that a unit is regenerated with lead from its input to what its working directory holds
(`SetUnit.derive_of_regenerate`). The next stage is regenerated on these outputs laid over the
input, and replaying lays the same outputs over the same input, so both runs go through the same
trees (`Chain.replay_of_regenerateStages`).
-/
namespace Patchwork

open List (Forall₂)

variable {d : Disk} {working : DiskPath} {context : Nat} {input : Tree}

namespace SetUnit

variable {u : SetUnit}

theorem regenerate_eq_ok_iff {r : Regenerated SetOutput SetPatches} :
    u.regenerate d input working context = .ok r ↔ ∃ previous derived patches,
      u.stored d = .ok previous ∧
      Store.loadTree (working.below u.output) u.excludes d = .ok derived ∧
      Stack.regenerate (u.base input) derived ⟨context, previous.targets⟩ = .ok patches ∧
      ⟨u.outputOf derived, u.patchesOf patches⟩ = r := by
  unfold regenerate
  simp only [Except.bind_eq_ok_iff, Except.mapError_eq_ok_iff]
  constructor
  · rintro ⟨previous, hprevious, derived, hderived, patches, hpatches, hr⟩
    exact ⟨previous, derived, patches, hprevious, hderived, hpatches, Except.ok.inj hr⟩
  · rintro ⟨previous, derived, patches, hprevious, hderived, hpatches, rfl⟩
    exact ⟨previous, hprevious, derived, hderived, patches, hpatches, rfl⟩

/-- The files that the unit compares have well-formed paths, in its part of the input and in its
working directory. -/
def HasFilePaths (u : SetUnit) (d : Disk) (working : DiskPath) (input : Tree) : Prop :=
  (∀ path ∈ (u.base input).keys, path.IsFilePath) ∧
    ∀ derived, Store.loadTree (working.below u.output) u.excludes d = .ok derived →
      ∀ path ∈ derived.keys, path.IsFilePath

instance (u : SetUnit) (d : Disk) (working : DiskPath) (input : Tree) :
    Decidable (u.HasFilePaths d working input) :=
  inferInstanceAs (Decidable (_ ∧ ∀ derived, _ = Except.ok derived → _))

/-- A unit that is regenerated gives what its working directory holds, and patches that make the
same of the input. -/
theorem derive_of_regenerate (hinput : input.Fits) (hd : d.Fits)
    (hpaths : u.HasFilePaths d working input) {r : Regenerated SetOutput SetPatches}
    (h : u.regenerate d input working context = .ok r) :
    (∃ t, Store.loadTree (working.below u.output) u.excludes d = .ok t ∧ r.output = u.outputOf t) ∧
      r.output.tree.Fits ∧ u.derive input r.patches.patches = .ok r.output := by
  obtain ⟨previous, derived, patches, -, hderived, hpatches, rfl⟩ := regenerate_eq_ok_iff.1 h
  have hfits : derived.Fits := Store.fits_of_loadTree hd hderived
  have hreplay : patches.replay (u.base input) = .ok derived :=
    (Stack.replay_regenerate hpaths.1 (hpaths.2 derived hderived) (hinput.subtree _ _) hfits _).2
      patches hpatches
  exact ⟨⟨derived, hderived, rfl⟩, hfits, derive_eq_ok_iff.2 ⟨derived, hreplay, rfl⟩⟩

end SetUnit

theorem FileUnit.regenerate_eq_ok_iff {u : FileUnit} {r : Regenerated FileOutput FilePatch} :
    u.regenerate d input working context = .ok r ↔ ∃ content patches,
      Store.file? (working.below u.output) d = .ok content ∧
      Stack.regenerate (u.base input) (Tree.single u.path content) ⟨context, []⟩ = .ok patches ∧
      ⟨u.outputOf (Tree.single u.path content), u.patchOf patches⟩ = r := by
  unfold FileUnit.regenerate
  simp only [Except.bind_eq_ok_iff, Except.mapError_eq_ok_iff]
  constructor
  · rintro ⟨content, hcontent, patches, hpatches, hr⟩
    exact ⟨content, patches, hcontent, hpatches, Except.ok.inj hr⟩
  · rintro ⟨content, patches, hcontent, hpatches, rfl⟩
    exact ⟨content, hcontent, patches, hpatches, rfl⟩

theorem StageOutput.fits_overlay {o : StageOutput} {t : Tree} (ht : t.Fits)
    (hsets : ∀ q ∈ o.sets, q.tree.Fits)
    (hfiles : ∀ q ∈ o.files, ∀ c ∈ q.content, c.size ≤ Content.maxSize) : (o.overlay t).Fits := by
  have hlaid : (o.sets.foldl (fun t q => q.overlay t) t).Fits := by
    refine List.foldlRecOn (motive := Tree.Fits) o.sets _ ht fun t ht q hq => ?_
    exact (ht.clearRegion _ _).graft (hsets q hq) _
  refine List.foldlRecOn (motive := Tree.Fits) o.files _ hlaid fun t ht q hq => ?_
  unfold FileOutput.overlay
  cases hc : q.content with
  | none => exact ht.erase _
  | some c => exact ht.insert (hfiles q hq c hc)

/-- The outputs of a stage are what its working directories hold. -/
structure StageOutput.IsWorking (o : StageOutput) (s : Stage) (d : Disk) (working : DiskPath) :
    Prop where
  stage : o.stage = s.name
  sets : Forall₂ (fun u q => ∃ t,
    Store.loadTree (working.below u.output) u.excludes d = .ok t ∧ q = u.outputOf t) s.sets o.sets

namespace Stage

variable {s : Stage} {r : Regenerated StageOutput StagePatches}

theorem regenerate_eq_ok_iff :
    s.regenerate d input working context = .ok r ↔ ∃ sets files,
      Forall₂ (fun u a => u.regenerate d input working context = .ok a) s.sets sets ∧
        Forall₂ (fun u b => u.regenerate d input working context = .ok b) s.files files ∧
        ⟨⟨s.name, sets.map (·.output), files.map (·.output)⟩,
          ⟨s.name, sets.map (·.patches), files.map (·.patches)⟩⟩ = r := by
  unfold regenerate
  simp only [Except.bind_eq_ok_iff, run_eq_ok_iff]
  constructor
  · rintro ⟨⟨sets, files⟩, ⟨hsets, hfiles⟩, hr⟩
    exact ⟨sets, files, hsets, hfiles, Except.ok.inj hr⟩
  · rintro ⟨sets, files, hsets, hfiles, rfl⟩
    exact ⟨(sets, files), ⟨hsets, hfiles⟩, rfl⟩

theorem belongTo_of_regenerate (h : s.regenerate d input working context = .ok r) :
    r.patches.BelongTo s := by
  obtain ⟨sets, files, hsets, hfiles, rfl⟩ := regenerate_eq_ok_iff.1 h
  refine ⟨rfl, List.forall₂_map_right_iff.2 (hsets.imp fun u a ha => ?_),
    List.forall₂_map_right_iff.2 (hfiles.imp fun u b hb => ?_)⟩
  · obtain ⟨previous, derived, patches, -, -, -, rfl⟩ := SetUnit.regenerate_eq_ok_iff.1 ha
    exact ⟨rfl, rfl⟩
  · obtain ⟨content, patches, -, -, rfl⟩ := FileUnit.regenerate_eq_ok_iff.1 hb
    rfl

theorem replay_of_regenerate (hfiles : s.files = []) (hinput : input.Fits) (hd : d.Fits)
    (hpaths : ∀ u ∈ s.sets, u.HasFilePaths d working input)
    (h : s.regenerate d input working context = .ok r) :
    r.output.IsWorking s d working ∧ (r.output.overlay input).Fits ∧
      s.replay r.patches input = .ok r.output := by
  obtain ⟨sets, files, hsets, hfiles', rfl⟩ := regenerate_eq_ok_iff.1 h
  rw [hfiles, List.forall₂_nil_left_iff] at hfiles'
  subst files
  have hgiven : Forall₂ (fun u a => u.HasFilePaths d working input ∧
      u.regenerate d input working context = .ok a) s.sets sets :=
    (List.forall₂_and_left _ _).2 ⟨hpaths, hsets⟩
  have hunits := hgiven.imp fun u a ha => SetUnit.derive_of_regenerate hinput hd ha.1 ha.2
  refine ⟨⟨rfl, List.forall₂_map_right_iff.2 (hunits.imp fun _ _ h => h.1)⟩, ?_,
    replay_eq_ok_iff.2 ⟨_, [], forall₂_zip_map (hunits.imp fun _ _ h => h.2.2), ?_, rfl⟩⟩
  · refine StageOutput.fits_overlay hinput (fun q hq => ?_) nofun
    obtain ⟨a, ha, rfl⟩ := List.mem_map.1 hq
    obtain ⟨u, -, hu⟩ := exists_of_mem_forall₂ (List.Forall₂.flip hunits) a ha
    exact hu.2.1
  · rw [hfiles]
    exact .nil

end Stage

namespace Chain

theorem regenerateStages_cons_eq_ok_iff {s : Stage} {stages : List Stage} {ps : List StagePatches} :
    regenerateStages d working context (s :: stages) input = .ok ps ↔ ∃ r rest,
      s.regenerate d input working context = .ok r ∧
      regenerateStages d working context stages (r.output.overlay input) = .ok rest ∧
      r.patches :: rest = ps := by
  rw [regenerateStages]
  simp only [Except.bind_eq_ok_iff]
  constructor
  · rintro ⟨r, hr, rest, hrest, h⟩
    exact ⟨r, rest, hr, hrest, Except.ok.inj h⟩
  · rintro ⟨r, rest, hr, hrest, rfl⟩
    exact ⟨r, hr, rest, hrest, rfl⟩

/-- Wherever a file is compared while stages are regenerated, its path is well-formed. -/
def FilePathsThrough (d : Disk) (working : DiskPath) (context : Nat) : List Stage → Tree → Prop
  | [], _ => True
  | s :: stages, input => (∀ u ∈ s.sets, u.HasFilePaths d working input) ∧
      ∀ r, s.regenerate d input working context = .ok r →
        FilePathsThrough d working context stages (r.output.overlay input)

instance decidableFilePathsThrough (d : Disk) (working : DiskPath) (context : Nat) :
    ∀ (stages : List Stage) (input : Tree),
      Decidable (FilePathsThrough d working context stages input)
  | [], _ => .isTrue trivial
  | _ :: stages, _ =>
    have := decidableFilePathsThrough d working context stages
    inferInstanceAs (Decidable (_ ∧ ∀ r, _ = Except.ok r → _))

theorem belongTo_of_regenerateStages {stages : List Stage} {ps : List StagePatches}
    (h : regenerateStages d working context stages input = .ok ps) :
    Forall₂ (fun s p => p.BelongTo s) stages ps := by
  induction stages generalizing input ps with
  | nil =>
    cases h
    exact .nil
  | cons s stages ih =>
    obtain ⟨r, rest, hr, hrest, rfl⟩ := regenerateStages_cons_eq_ok_iff.1 h
    exact .cons (Stage.belongTo_of_regenerate hr) (ih hrest)

/-- Stages that are replayed with regenerated patches make what the working directories hold. -/
theorem replay_of_regenerateStages {stages : List Stage} (hfiles : ∀ s ∈ stages, s.files = [])
    (hinput : input.Fits) (hd : d.Fits) (hpaths : FilePathsThrough d working context stages input)
    {ps : List StagePatches} (h : regenerateStages d working context stages input = .ok ps) :
    ∃ os, replayStages (stages.zip ps) input = .ok os ∧
      Forall₂ (fun s o => o.IsWorking s d working) stages os := by
  induction stages generalizing input ps with
  | nil => exact ⟨[], rfl, .nil⟩
  | cons s stages ih =>
    obtain ⟨hunits, hnext⟩ := hpaths
    obtain ⟨r, rest, hr, hrest, rfl⟩ := regenerateStages_cons_eq_ok_iff.1 h
    obtain ⟨hworking, hfits, hreplay⟩ :=
      Stage.replay_of_regenerate (hfiles s (by simp)) hinput hd hunits hr
    -- Both runs lay the same outputs over the same tree, so they stay together.
    obtain ⟨os, hos, hworkings⟩ := ih (fun t ht => hfiles t (by simp [ht])) hfits (hnext r hr) hrest
    rw [List.zip_cons_cons]
    exact ⟨_, replayStages_cons_eq_ok_iff.2 ⟨_, os, hreplay, hos, rfl⟩, .cons hworking hworkings⟩

/-- Where a chain of patch sets is regenerated from working directories, there are patches for each
unit, under its name and directory, and replaying the chain with them on the same source succeeds
and makes, stage by stage and unit by unit, the tree that is loaded from the unit's working
directory without what it excludes. The paths that are compared on the way are well-formed, and
files are held in memory. -/
theorem replay_regenerate_eq_loadTree (c : Chain) (d : Disk) (source : Snapshot)
    (working : DiskPath) (hfiles : ∀ s ∈ c.stages, s.files = []) (hsource : source.tree.Fits)
    (hd : d.Fits) (hpaths : FilePathsThrough d working c.context c.stages source.tree)
    {ps : List StagePatches} (h : c.regenerate d source working = .ok ps) :
    Forall₂ (fun s p => p.BelongTo s) c.stages ps ∧
      ∃ os, c.replay ps source = .ok os ∧
        Forall₂ (fun s o => o.IsWorking s d working) c.stages os :=
  ⟨belongTo_of_regenerateStages h, replay_of_regenerateStages hfiles hsource hd hpaths h⟩

/-- A disk with the working directories of two stages, and a file that the first of them leaves
out. -/
def editedOutputs : Disk :=
  let put := fun (d : Disk) (path : DiskPath) (text : String) =>
    ((d.makeDirectories path.directory).1.putFile path (.ofText text)).toOption.getD d
  put (put (put .empty ⟨"work/middle/a"⟩ "zero\none\n2") ⟨"work/middle/gen/x"⟩ "left out\n")
    ⟨"work/last/b"⟩ "new\n"

def editedStages : Chain where
  root := ⟨"."⟩
  stages := [
    ⟨"first", [⟨"middle", ⟨"src"⟩, ⟨"middle"⟩, [⟨"gen"⟩], ⟨"first"⟩⟩], []⟩,
    ⟨"second", [⟨"last", ⟨"middle"⟩, ⟨"last"⟩, [], ⟨"second"⟩⟩], []⟩]
  context := 3

theorem replay_regenerate_eq_loadTree_editedOutputs :
    (∀ s ∈ editedStages.stages, s.files = []) ∧ (sourceOf "one\ntwo\n").tree.Fits ∧
      editedOutputs.Fits ∧
      FilePathsThrough editedOutputs ⟨"work"⟩ 3 editedStages.stages (sourceOf "one\ntwo\n").tree ∧
      ∃ ps os, editedStages.regenerate editedOutputs (sourceOf "one\ntwo\n") ⟨"work"⟩ = .ok ps ∧
        editedStages.replay ps (sourceOf "one\ntwo\n") = .ok os ∧
        Forall₂ (fun s o => o.IsWorking s editedOutputs ⟨"work"⟩) editedStages.stages os := by
  have hfiles : ∀ s ∈ editedStages.stages, s.files = [] := by decide
  have hsource : (sourceOf "one\ntwo\n").tree.Fits := by decide
  have hd : editedOutputs.Fits := by decide +kernel
  have hpaths : FilePathsThrough editedOutputs ⟨"work"⟩ editedStages.context editedStages.stages
      (sourceOf "one\ntwo\n").tree := by
    decide +kernel
  obtain ⟨ps, hps⟩ : ∃ ps, editedStages.regenerate editedOutputs (sourceOf "one\ntwo\n") ⟨"work"⟩ =
      .ok ps := by
    decide +kernel
  obtain ⟨-, os, hos, hworking⟩ := replay_regenerate_eq_loadTree editedStages editedOutputs
    (sourceOf "one\ntwo\n") ⟨"work"⟩ hfiles hsource hd hpaths hps
  exact ⟨hfiles, hsource, hd, hpaths, ps, os, hps, hos, hworking⟩

end Chain

end Patchwork
