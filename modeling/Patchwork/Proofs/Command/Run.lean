import Patchwork.Command.Run
import Patchwork.Proofs.Chain.Overwrite
import Patchwork.Proofs.Project.ConfigFile

/-!
# What a command leaves behind

A command that fails before it writes anything leaves the disk as it was, and so does a check. A
rebase writes the configuration file last: the patches before it are written elsewhere, as the file
lies below no patch directory and its own text is no patch (`Config.keepsFile_writePatches`). So a
rebase that fails leaves the file as it was (`Invocation.run_unwritten`).
-/
namespace Patchwork

open Store (KeepsFile)

/-! ## The configuration file among the patches -/

namespace Config

variable {c : Config} {d e : Disk} {l : Location} {path : DiskPath} {patches : List StagePatches}

theorem exists_place_of_mem_files (hpaths : c.HasNormalPaths) {root : DiskPath} {s : Stage}
    (hs : s ∈ (c.chain root).stages) {u : FileUnit} (hu : u ∈ s.files) :
    ∃ place : TreePath, place.IsNormal ∧ u.patch = root.below place := by
  obtain ⟨stage, hstage, rfl⟩ := List.mem_map.1 hs
  obtain ⟨file, hfile, rfl⟩ := List.mem_map.1 hu
  refine ⟨file.patch, hpaths.2 _ (List.mem_flatMap.2 ⟨stage, hstage, ?_⟩), rfl⟩
  exact List.mem_append_right _ (List.mem_map_of_mem hfile)

theorem ne_empty_of_ofText {s : String} (h : ofText s = .ok c) : s ≠ "" := by
  rintro rfl
  cases h

theorem exists_file?_of_load (hload : load path d = .ok c) (hl : d.locate path = .ok l) :
    ∃ text dir name, d.file? l = some (.ofText text) ∧ ofText text = .ok c ∧
      d.Reaches path.directory dir ∧
      l = dir ++ [name] := by
  obtain ⟨text, htext, hread, -⟩ := load_eq_ok_iff.1 hload
  obtain ⟨content, hcontent, htext⟩ := Except.bind_eq_ok_iff.1 htext
  obtain ⟨m, hm, hfile⟩ := Disk.content_eq_ok_iff.1 hcontent
  obtain rfl := Except.ok.inj (hm.symm.trans hl)
  obtain ⟨dir, name, hroot, hname⟩ := Disk.exists_reaches_directory hl hfile
  split at htext
  · rename_i text' htext'
    obtain rfl := Except.ok.inj htext
    rw [← Content.ofText_of_text? htext'] at hfile
    exact ⟨text', dir, name, hfile, hread, hroot, hname⟩
  · cases htext

theorem keepsFile_writePatches (hload : load path d = .ok c) (hl : d.locate path = .ok l)
    {old new : Snapshot} (h : (c.chain path.directory).rebase d old new = .ok patches) :
    (Chain.writePatches patches).KeepsFile l e := by
  obtain ⟨text, dir, name, hfile, hread, hroot, rfl⟩ := exists_file?_of_load hload hl
  obtain ⟨hpaths, htidy⟩ := of_ofText hread
  obtain ⟨-, -, -, hvalid⟩ := load_eq_ok_iff.1 hload
  refine Chain.keepsFile_writePatches (fun s hs u hu dir' hdir' hprefix => ?sets)
    (fun s hs u hu old new c' hc' hpatch => ?files) h
  case sets =>
    obtain ⟨place, hplace, hpatches, hapart⟩ :=
      (isLaidOut hvalid hpaths path.directory).patches s hs u hu
    have hbelow : place.location ≠ [] := by
      intro hnil
      have hmem : .inl u ∈ (c.chain path.directory).units :=
        List.mem_flatMap.2 ⟨s, hs, List.mem_append_left _ (List.mem_map_of_mem hu)⟩
      exact (hapart _ hmem).2 (hnil ▸ List.nil_prefix)
    rw [hpatches, DiskPath.below_eq _ hplace] at hdir'
    obtain ⟨dir'', hdir'', rfl⟩ := Disk.exists_of_location?_belowNames hdir'
    obtain rfl := Option.some.inj (hroot.location?_eq.symm.trans hdir'')
    have hlength := hprefix.length_le
    have hpositive := List.length_pos_of_ne_nil hbelow
    exact hprefix.eq_of_length_le
      (by simp only [List.length_append, List.length_singleton] at hlength ⊢; omega)
  case files =>
    obtain ⟨place, hplace, hplaced⟩ := exists_place_of_mem_files hpaths hs hu
    rw [hplaced, DiskPath.below_eq _ hplace] at hpatch
    obtain ⟨dir', hdir', heq⟩ := Disk.exists_of_location?_belowNames hpatch
    obtain rfl := Option.some.inj (hroot.location?_eq.symm.trans hdir')
    have hname : place.location = [name] := (List.append_cancel_left heq).symm
    rw [DiskPath.below_eq _ hplace, hname] at hplaced
    -- The unit would take the configuration for its patch.
    obtain ⟨p, hp⟩ := FileUnit.exists_parse_of_rebase (ne_empty_of_ofText hread)
        (fun found hfound =>
      Store.eq_some_of_file?_belowNames hroot (by simp) hfile (hplaced ▸ hfound)) hc'
    rw [Patch.parse_eq_error htidy] at hp
    cases hp

end Config

/-! ## Commands -/

/-- Whether a failure comes before anything is written: while the configuration is loaded, a source
is fetched or a stage is computed. -/
def RunError.precedesWriting : RunError → Bool
  | .load .. | .noRepository _ | .fetch .. | .stage _ => true
  | .writeOutputs _ | .writePatches _ | .writeRebased _ | .update .. => false

namespace Run

variable {α β ε : Type} {remote : String → Fetch.Source} {c : Config} {root : DiskPath}
    {directory : Option DiskPath}
  {revision : String} {d : Disk}

theorem inspect_bind (name : ε → RunError) (look : Disk → Except ε α) (f : α → Run β) :
    (inspect name look >>= f) d = match look d with
      | .ok a => f a d
      | .error e => (.error (name e), d) := by
  have hbind : (inspect name look >>= f) d = ExceptT.bindCont f ((look d).mapError name) d := rfl
  rw [hbind]
  cases look d <;> rfl

theorem store_bind (name : StoreError → RunError) (step : Store α) (f : α → Run β) :
    (store name step >>= f) d = match step d with
      | (.ok a, e) => f a e
      | (.error error, e) => (.error (name error), e) := by
  have hbind : (store name step >>= f) d = ExceptT.bindCont f ((step d).1.mapError name)
    (step d).2 := rfl
  rw [hbind]
  rcases step d with ⟨error | a, e⟩ <;> rfl

/-- What is computed fails only as it can before anything is written. -/
def FailsEarly (x : Except RunError α) : Prop :=
  ∀ error, x = .error error → error.precedesWriting = true

namespace FailsEarly

theorem bind {x : Except RunError α} {f : α → Except RunError β} (hx : FailsEarly x)
    (hf : ∀ a, FailsEarly (f a)) :
    FailsEarly (x >>= f) := by
  intro error h
  rcases Except.bind_eq_error_iff.1 h with herror | ⟨a, -, herror⟩
  · exact hx error herror
  · exact hf a error herror

theorem mapError {x : Except ε α} {name : ε → RunError}
    (hname : ∀ e, (name e).precedesWriting = true) :
    FailsEarly (x.mapError name) := by
  intro error h
  obtain ⟨e, -, rfl⟩ := Except.mapError_eq_error_iff.1 h
  exact hname e

theorem sourceOf : FailsEarly (Run.sourceOf remote c root directory d) := by
  intro error h
  unfold Run.sourceOf at h
  split at h
  · cases h
  · cases h
  · obtain rfl := Except.error.inj h
    rfl

theorem fetch : FailsEarly (Run.fetch remote c root directory revision d) :=
  .bind .sourceOf fun _ => .mapError fun _ => rfl

theorem outputs : FailsEarly (Run.outputs remote c root directory d) :=
  .bind .fetch fun _ => .mapError fun _ => rfl

theorem regenerated : FailsEarly (Run.regenerated remote c root directory d) :=
  .bind .fetch fun _ => .mapError fun _ => rfl

theorem rebased {directories : Option (DiskPath × DiskPath)} :
    FailsEarly (Run.rebased remote c root revision directories d) := by
  refine .bind .fetch fun old => .bind .fetch fun new =>
    .bind (.mapError fun _ => rfl) fun patches error h => ?_
  cases h

end FailsEarly

/-- A command that starts with a look at the disk fails as it is, or goes on from what was found. -/
theorem inspect_bind_cases (name : ε → RunError) {look : Disk → Except ε α}
    (hearly : ∀ e, look d = .error e → (name e).precedesWriting = true) (f : α → Run β) :
    (∃ error, error.precedesWriting = true ∧ (inspect name look >>= f) d = (.error error, d)) ∨
      ∃ a, look d = .ok a ∧ (inspect name look >>= f) d = f a d := by
  rw [inspect_bind]
  cases hlook : look d with
  | error e => exact .inl ⟨name e, hearly e hlook, rfl⟩
  | ok a => exact .inr ⟨a, rfl, rfl⟩

theorem exists_rebase_of_rebased {directories : Option (DiskPath × DiskPath)}
    {patches : List StagePatches} {found : String}
    (h : rebased remote c root revision directories d = .ok (patches, found)) :
    ∃ old new, (c.chain root).rebase d old new = .ok patches := by
  obtain ⟨old, -, h⟩ := Except.bind_eq_ok_iff.1 h
  obtain ⟨new, -, h⟩ := Except.bind_eq_ok_iff.1 h
  obtain ⟨patches', hpatches, h⟩ := Except.bind_eq_ok_iff.1 h
  obtain ⟨rfl, -⟩ := Prod.mk.inj (Except.ok.inj h)
  exact ⟨old, new, Except.mapError_eq_ok_iff.1 hpatches⟩

end Run

namespace Invocation

open Run (projectRoot)

variable {remote : String → Fetch.Source} {i : Invocation} {d : Disk}

/-- What a command does once its configuration is loaded and its results are computed. -/
def Writes (remote : String → Fetch.Source) (i : Invocation) (c : Config) (d : Disk)
    (result : Except RunError Unit × Disk) : Prop :=
  let root := projectRoot i.config
  match i.command with
  | .apply directory => ∃ outputs, Run.outputs remote c root directory d = .ok outputs ∧
      result = Run.store .writeOutputs ((c.chain root).writeOutputs outputs) d
  | .regenerate directory => ∃ patches, Run.regenerated remote c root directory d = .ok patches ∧
      result = Run.store .writePatches (Chain.writePatches patches) d
  | .rebase revision directories => ∃ patches found,
      Run.rebased remote c root revision directories d = .ok (patches, found) ∧
      result = (Run.store .writeRebased (Chain.writePatches patches) >>= fun _ =>
        Run.store (.update i.config)
          ({ c with source := { c.source with revision := found } }.save i.config)) d
  | .check _ => result = (.ok (), d)

/-- A command fails before it writes, or goes on to write what it has computed. -/
theorem run_cases (remote : String → Fetch.Source) (i : Invocation) (d : Disk) :
    (∃ error, error.precedesWriting = true ∧ i.run remote d = (.error error, d)) ∨
      ∃ c, Config.load i.config d = .ok c ∧ i.Writes remote c d (i.run remote d) := by
  unfold run
  rcases Run.inspect_bind_cases (.load i.config) (fun _ _ => rfl) _ with hearly | ⟨c, hload, hrun⟩
  · exact .inl hearly
  rw [hrun]
  unfold Writes
  dsimp only
  cases i.command with
  | apply directory =>
    rcases Run.inspect_bind_cases id Run.FailsEarly.outputs _ with
      hearly | ⟨outputs, houtputs, hrun⟩
    · exact .inl hearly
    · exact .inr ⟨c, hload, outputs, houtputs, hrun⟩
  | regenerate directory =>
    rcases Run.inspect_bind_cases id Run.FailsEarly.regenerated _ with
      hearly | ⟨patches, hpatches, hrun⟩
    · exact .inl hearly
    · exact .inr ⟨c, hload, patches, hpatches, hrun⟩
  | rebase revision directories =>
    rcases Run.inspect_bind_cases id Run.FailsEarly.rebased _ with
      hearly | ⟨⟨patches, found⟩, hrebased, hrun⟩
    · exact .inl hearly
    · exact .inr ⟨c, hload, patches, found, hrebased, hrun⟩
  | check directory =>
    rcases Run.inspect_bind_cases id Run.FailsEarly.outputs fun _ => pure () with
      hearly | ⟨-, -, hrun⟩
    · exact .inl hearly
    · exact .inr ⟨c, hload, hrun⟩

theorem not_precedesWriting_of_store {α : Type} {name : StoreError → RunError} {step : Store α}
    {error : RunError} (hname : ∀ e, (name e).precedesWriting = false)
    (h : (Run.store name step d).1 = .error error) :
    error.precedesWriting = false := by
  obtain ⟨e, -, rfl⟩ := Except.mapError_eq_error_iff.1 h
  exact hname e

theorem Writes.not_precedesWriting {c : Config} {result : Except RunError Unit × Disk}
    {error : RunError} (hwrites : i.Writes remote c d result) (h : result.1 = .error error) :
    error.precedesWriting = false := by
  unfold Writes at hwrites
  dsimp only at hwrites
  split at hwrites
  · obtain ⟨outputs, -, rfl⟩ := hwrites
    exact not_precedesWriting_of_store (fun _ => rfl) h
  · obtain ⟨patches, -, rfl⟩ := hwrites
    exact not_precedesWriting_of_store (fun _ => rfl) h
  · obtain ⟨patches, found, -, rfl⟩ := hwrites
    rw [Run.store_bind] at h
    split at h
    · exact not_precedesWriting_of_store (fun _ => rfl) h
    · obtain rfl := Except.error.inj h
      rfl
  · rw [hwrites] at h
    cases h

/-- A rebase changes the configuration file only where it succeeds, after all patches were
written. -/
theorem Writes.of_rebase {c : Config} {result : Except RunError Unit × Disk} {l : Location}
    {revision : String} {directories : Option (DiskPath × DiskPath)}
    (hwrites : i.Writes remote c d result) (hcommand : i.command = .rebase revision directories)
    (hload : Config.load i.config d = .ok c) (hl : d.locate i.config = .ok l) :
    result.2.file? l = d.file? l ∨ result.1 = .ok () ∧ ∃ patches found,
      Run.rebased remote c (projectRoot i.config) revision directories d = .ok (patches, found) ∧
        (Chain.writePatches patches d).1 = .ok () := by
  unfold Writes at hwrites
  rw [hcommand] at hwrites
  obtain ⟨patches, found, hrebased, rfl⟩ := hwrites
  obtain ⟨old, new, hchain⟩ := Run.exists_rebase_of_rebased hrebased
  obtain ⟨text, -, -, hfile, -⟩ := Config.exists_file?_of_load hload hl
  have hkept := Config.keepsFile_writePatches hload hl hchain _ hfile
  rw [Run.store_bind]
  rcases hwritten : Chain.writePatches patches d with ⟨error | _, e⟩
  · left
    rw [hwritten] at hkept
    exact hkept.trans hfile.symm
  · rw [hwritten] at hkept
    dsimp only
    unfold Run.store
    rcases hsaved : Config.save
      { c with source := { c.source with revision := found } } i.config e with ⟨error | _, f⟩
    · exact .inl ((Store.keepsFiles_of_putFile hsaved l).trans (hkept.trans hfile.symm))
    · exact .inr ⟨rfl, patches, found, hrebased, by rw [hwritten]⟩

/-- For every disk and every call of the program: if the call fails while the configuration is
loaded, a source is fetched or a stage is computed, the disk is as before; a check leaves the disk
as before in all cases; and a rebase that fails, at whatever point, leaves the configuration file as
it was, so the file changes only if the patches of all stages were written. -/
theorem run_unwritten (remote : String → Fetch.Source) (i : Invocation) (d : Disk) :
    (∀ error, (i.run remote d).1 = .error error → error.precedesWriting = true →
      (i.run remote d).2 = d) ∧
    (∀ directory, i.command = .check directory → (i.run remote d).2 = d) ∧
    ∀ revision directories, i.command = .rebase revision directories →
    ∀ l, d.locate i.config = .ok l →
      (∀ error, (i.run remote d).1 = .error error → (i.run remote d).2.file? l = d.file? l) ∧
      ((i.run remote d).2.file? l ≠ d.file? l → ∃ c patches found, Config.load i.config d = .ok c ∧
        Run.rebased remote c (projectRoot i.config) revision directories d = .ok (patches, found) ∧
        (Chain.writePatches patches d).1 = .ok ()) := by
  rcases run_cases remote i d with ⟨error, -, hrun⟩ | ⟨c, hload, hwrites⟩
  · rw [hrun]
    exact ⟨fun _ _ _ => rfl, fun _ _ => rfl, fun _ _ _ l _ =>
      ⟨fun _ _ => rfl, fun hne => absurd rfl hne⟩⟩
  refine ⟨fun error herror hearly => ?early, fun directory hcommand => ?check,
    fun revision directories hcommand l hl => ?rebase⟩
  case early =>
    rw [hwrites.not_precedesWriting herror] at hearly
    cases hearly
  case check =>
    unfold Writes at hwrites
    rw [hcommand] at hwrites
    rw [hwrites]
  case rebase =>
    rcases hwrites.of_rebase hcommand hload hl with
      hkept | ⟨hok, patches, found, hrebased, hwritten⟩
    · exact ⟨fun _ _ => hkept, fun hne => absurd hkept hne⟩
    · refine ⟨fun error herror => ?_, fun _ => ⟨c, patches, found, hload, hrebased, hwritten⟩⟩
      rw [hok] at herror
      cases herror

def isEarlyFailure : Except RunError Unit → Bool
  | .error error => error.precedesWriting
  | .ok _ => false

theorem exists_error_of_isEarlyFailure {result : Except RunError Unit}
    (h : isEarlyFailure result = true) :
    ∃ error, result = .error error ∧ error.precedesWriting = true := by
  cases result with
  | error error => exact ⟨error, rfl, h⟩
  | ok _ => cases h

def sampleProject : Disk :=
  PatchDirectory.diskOfFiles [
    ("c", "[[\"u\",null,\"old\",[1,0]],[[\"s\",[[\"p\",\"src\",\"out\",\"p\",[]]],[]]],1]"),
    ("p/a.patch", "--- a/a\n+++ b/a\n@@ -1 +1 @@\n-b\n+c\n"),
    ("old/src/a", "b\n"), ("new/src/a", "b\n"), ("other/src/a", "d\n")]

def sampleRebase (revision : String) : Invocation :=
  ⟨⟨"c"⟩, 0, .rebase revision (some (⟨"old"⟩, ⟨revision⟩))⟩

/-- A conflict leaves the project as it is. Without one the revision is updated, after the patches
were written. -/
theorem run_unwritten_sample :
    let conflicting := (sampleRebase "other").run Fetch.Source.unreachable sampleProject
    let carried := (sampleRebase "new").run Fetch.Source.unreachable sampleProject
    let file := TreePath.location ⟨"c"⟩
    (∃ error, conflicting.1 = .error error ∧ error.precedesWriting = true ∧
      conflicting.2 = sampleProject) ∧
      carried.2.file? file ≠ sampleProject.file? file ∧
      ∃ c patches found, Config.load ⟨"c"⟩ sampleProject = .ok c ∧
        Run.rebased Fetch.Source.unreachable c (projectRoot ⟨"c"⟩) "new"
          (some (⟨"old"⟩, ⟨"new"⟩)) sampleProject =
          .ok (patches, found) ∧
        (Chain.writePatches patches sampleProject).1 = .ok () := by
  intro conflicting carried file
  have hfails : isEarlyFailure conflicting.1 = true := by decide +kernel
  obtain ⟨error, herror, hearly⟩ := exists_error_of_isEarlyFailure hfails
  have hsame := (run_unwritten _ (sampleRebase "other") sampleProject).1 error herror hearly
  have hfile : sampleProject.locate ⟨"c"⟩ = .ok file := by decide +kernel
  have hchanged : carried.2.file? file ≠ sampleProject.file? file := by decide +kernel
  obtain ⟨-, -, hrebase⟩ :=
    run_unwritten Fetch.Source.unreachable (sampleRebase "new") sampleProject
  exact ⟨⟨error, herror, hearly, hsame⟩, hchanged, (hrebase _ _ rfl file hfile).2 hchanged⟩

end Invocation

end Patchwork
