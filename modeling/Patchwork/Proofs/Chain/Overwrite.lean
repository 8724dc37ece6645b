import Patchwork.Chain.Write
import Patchwork.Proofs.Chain.FileUnits
import Patchwork.Proofs.Chain.Rebase
import Patchwork.Proofs.Store.Frame
import Patchwork.Proofs.Store.Place

/-!
# What carried patches overwrite

The patches that a chain is carried to are written where its units keep theirs. Every other file
stays, also where not all of them are written (`Chain.keepsFile_writePatches`). And what a unit
keeps its patch in holds a patch or nothing, as the unit could not be carried otherwise
(`FileUnit.exists_parse_of_rebase`).
-/
namespace Patchwork

open Store (KeepsFile)

variable {d e : Disk} {l : Location} {old new : Tree} {context : Nat}

theorem FileUnit.exists_parse_of_rebase {u : FileUnit} {c : Carried FileOutput FilePatch}
    {body : String} (hbody : body ≠ "") (hfile : ∀ found, Store.file? u.patch d = .ok found →
    found = some (.ofText body)) (h : u.rebase d old new context = .ok c) :
    ∃ p, Patch.parse body = .ok p := by
  obtain ⟨patches, r, hstored, hcarry, -⟩ := rebase_eq_ok_iff.1 h
  obtain ⟨found, hfound, hpatch⟩ := Except.bind_eq_ok_iff.1 hstored
  obtain rfl := hfile found (Except.mapError_eq_ok_iff.1 hfound)
  obtain rfl := Except.ok.inj ((patchIn_ofText hbody).symm.trans hpatch)
  obtain ⟨hold, -⟩ := Stack.carry_eq_ok_iff.1 hcarry
  obtain ⟨content, hcontent, -⟩ := Stack.replay_cons_eq_ok_iff.1 hold
  obtain ⟨p, hp, -⟩ := StoredPatch.onFile_eq_ok_iff.1 hcontent
  unfold StoredPatch.parse at hp
  cases hparse : Patch.parse body with
  | error error => rw [hparse] at hp; cases hp
  | ok p => exact ⟨p, rfl⟩

theorem SetUnit.of_mem_patches_of_rebase {u : SetUnit} {c : Carried SetOutput SetPatches}
    (h : u.rebase d old new context = .ok c) :
    c.patches.directory = u.patches ∧ ∀ patch ∈ c.patches.patches, patch.target.IsFilePath := by
  obtain ⟨patches, r, hstored, hcarry, rfl⟩ := rebase_eq_ok_iff.1 h
  obtain ⟨-, hrebase, -⟩ := Stack.carry_eq_ok_iff.1 hcarry
  refine ⟨rfl, fun patch hpatch => ?_⟩
  have htarget := Stack.mem_targets_of_rebase hrebase _ (List.mem_map_of_mem hpatch)
  obtain ⟨stored, hmem, htarget⟩ := List.mem_map.1 htarget
  exact htarget ▸ PatchDirectory.isFilePath_of_mem_read
    (Except.mapError_eq_ok_iff.1 hstored) stored hmem

theorem FilePatch.keepsFile_write {p : FilePatch} (h : p.file.location? ≠ some l) :
    p.write.KeepsFile l d := by
  unfold write
  split
  · exact .putFile h
  · exact .dropFile h

/-- A stage's patches are written where its units keep theirs, and nowhere else. -/
theorem Stage.keepsFile_writePatches {s : Stage} {c : Carried StageOutput StagePatches}
    (hsets : ∀ u ∈ s.sets, ∀ dir ∈ u.patches.location?, dir <+: l → dir = l)
    (hfiles : ∀ u ∈ s.files, ∀ c, u.rebase d old new context = .ok c → u.patch.location? ≠ some l)
    (h : s.rebase d old new context = .ok c) : c.patches.write.KeepsFile l e := by
  obtain ⟨sets, files, hcarriedSets, hcarriedFiles, rfl⟩ := rebase_eq_ok_iff.1 h
  refine .bind (.each fun q hq e => ?sets) fun _ _ _ => .each fun q hq e => ?files
  case sets =>
    obtain ⟨c, hc, rfl⟩ := List.mem_map.1 hq
    obtain ⟨u, hu, hcarried⟩ := exists_of_mem_forall₂ hcarriedSets.flip c hc
    obtain ⟨hdirectory, htargets⟩ := SetUnit.of_mem_patches_of_rebase hcarried
    exact PatchDirectory.keepsFile_write htargets (hdirectory ▸ hsets u hu)
  case files =>
    obtain ⟨c, hc, rfl⟩ := List.mem_map.1 hq
    obtain ⟨u, hu, hcarried⟩ := exists_of_mem_forall₂ hcarriedFiles.flip c hc
    have hnot := hfiles u hu c hcarried
    obtain ⟨patches, r, -, -, rfl⟩ := FileUnit.rebase_eq_ok_iff.1 hcarried
    exact FilePatch.keepsFile_write hnot

/-- Whether or not all patches of a chain that was carried are written, a file stays as it is that
lies below no patch directory, unless it is what a unit keeps its patch in and the unit can be
carried. -/
theorem Chain.keepsFile_writePatches {stages : List Stage} {r : List StagePatches}
    (hsets : ∀ s ∈ stages, ∀ u ∈ s.sets, ∀ dir ∈ u.patches.location?, dir <+: l → dir = l)
    (hfiles : ∀ s ∈ stages, ∀ u ∈ s.files, ∀ old new c, u.rebase d old new context = .ok c →
      u.patch.location? ≠ some l)
    (h : rebaseStages d context stages old new = .ok r) : (writePatches r).KeepsFile l e := by
  induction stages generalizing old new r e with
  | nil =>
    cases h
    exact .pure
  | cons s stages ih =>
    obtain ⟨c, rest, hc, hr, rfl⟩ := rebaseStages_cons_eq_ok_iff.1 h
    obtain ⟨hset, hsets⟩ := List.forall_mem_cons.1 hsets
    obtain ⟨hfile, hfiles⟩ := List.forall_mem_cons.1 hfiles
    exact .bind (Stage.keepsFile_writePatches hset (fun u hu => hfile u hu _ _) hc) fun _ _ _ =>
      ih hsets hfiles hr

end Patchwork
