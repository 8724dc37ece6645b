import Patchwork.Proofs.Json.Document
import Patchwork.Proofs.Patch.FileName
import Patchwork.Proofs.Project.ConfigFile
import Patchwork.Proofs.Store.WriteBack

/-!
# Configurations that are saved

What is written of a configuration is read back: a field that is not written says what the record
says without it (`Config.ofText_toText`). So a configuration that was loaded can be saved in its
file, and is loaded again from whatever file it is saved in, also with another revision
(`Config.load_save`).
-/
namespace Patchwork

open Json (Reader Record)
open Json.Record (Fills)

/-! ## The paths of a configuration -/

def SetConfig.paths (s : SetConfig) : List TreePath :=
  s.source :: s.output :: s.patches :: s.excludes

def FileConfig.paths (f : FileConfig) : List TreePath := [f.path, f.output, f.patch]

def StageConfig.paths (s : StageConfig) : List TreePath :=
  s.sets.flatMap (·.paths) ++ s.files.flatMap (·.paths)

namespace Config

def paths (c : Config) : List TreePath := c.stages.flatMap (·.paths)

def withRevision (c : Config) (revision : String) : Config :=
  { c with source := { c.source with revision := revision } }

/-! ## Reading back -/

theorem readsBack_path {p : TreePath} (h : p.IsStable) : readPath.ReadsBack (pathValue p) p :=
  Reader.readsBack_parsed (by rw [show TreePath.ofString p.text = .ok p from h]; rfl)

theorem readsBack_retry {p : Fetch.Policy} (h : p.IsBounded) :
    retryRecord.read.ReadsBack (retryValue p) p := by
  refine Record.readsBack_read
    ⟨_, .cons rfl (.map (Reader.readsBack_natural h.attempts (by decide))) <|
    .cons rfl (.map (Reader.readsBack_natural h.backoff (by decide))) .nil, ?_⟩
  rfl

theorem readsBack_source {s : SourceConfig} (h : s.retry.IsBounded) :
    sourceRecord.read.ReadsBack (sourceValue s) s := by
  obtain ⟨name, repository, revision, retry⟩ := s
  cases repository with
  | none =>
    -- The field of the repository is passed over, and is still there when the record ends.
    refine Record.readsBack_read ⟨_, .cons rfl (.map (Reader.readsBack_text name)) <|
      .cons rfl (.map (Reader.readsBack_text revision)) <|
        .cons rfl (.map (readsBack_retry h)) .nil, ?_⟩
    rfl
  | some repository =>
    refine Record.readsBack_read ⟨_, .cons rfl (.map (Reader.readsBack_text name)) <|
      .cons rfl (.map (Reader.readsBack_optional (Reader.readsBack_text repository))) <|
      .cons rfl (.map (Reader.readsBack_text revision)) <|
        .cons rfl (.map (readsBack_retry h)) .nil, ?_⟩
    rfl

theorem fills_unlessEmpty {α δ : Type} {f : Json.Field δ} {value : Reader α}
    {write : α → Json.Value} {start : δ} {set : List α → δ} {as : List α}
    (hread : f.read start = do return set (← .list value))
    (h : ∀ a ∈ as, value.ReadsBack (write a) a) :
    Fills [f] (unlessEmpty f.name (as.map write)) start (if as.isEmpty then start else set as) := by
  cases as with
  | nil => exact .nil
  | cons a as =>
    refine .cons (if_pos rfl) ?_ .nil
    rw [hread]
    exact .map (Reader.readsBack_list h)

theorem readsBack_set {s : SetConfig} (h : ∀ p ∈ s.paths, p.IsStable) :
    setRecord.read.ReadsBack (setValue s) s := by
  obtain ⟨name, source, output, patches, excludes⟩ := s
  simp only [SetConfig.paths, List.forall_mem_cons] at h
  obtain ⟨hsource, houtput, hpatches, hexcludes⟩ := h
  refine Record.readsBack_read ⟨_, .cons rfl (.map (Reader.readsBack_text name)) <|
    .cons rfl (.map (readsBack_path hsource)) <| .cons rfl (.map (readsBack_path houtput)) <|
    .cons rfl (.map (readsBack_path hpatches)) <|
    fills_unlessEmpty rfl fun p hp => readsBack_path (hexcludes p hp), ?_⟩
  cases excludes <;> rfl

theorem readsBack_file {f : FileConfig} (h : ∀ p ∈ f.paths, p.IsStable) :
    fileRecord.read.ReadsBack (fileValue f) f := by
  obtain ⟨path, output, patch⟩ := f
  simp only [FileConfig.paths, List.forall_mem_cons] at h
  obtain ⟨hpath, houtput, hpatch, -⟩ := h
  refine Record.readsBack_read ⟨_, .cons rfl (.map (readsBack_path hpath)) <|
    .cons rfl (.map (readsBack_path houtput)) <| .cons rfl (.map (readsBack_path hpatch)) .nil, ?_⟩
  rfl

theorem readsBack_stage {s : StageConfig} (h : ∀ p ∈ s.paths, p.IsStable) :
    stageRecord.read.ReadsBack (stageValue s) s := by
  obtain ⟨name, sets, files⟩ := s
  simp only [StageConfig.paths, List.forall_mem_append, List.forall_mem_flatMap] at h
  obtain ⟨hsets, hfiles⟩ := h
  refine Record.readsBack_read ⟨_, .cons rfl (.map (Reader.readsBack_text name)) <|
    .cons rfl (.map (Reader.readsBack_list fun s hs => readsBack_set (hsets s hs))) <|
    fills_unlessEmpty rfl fun f hf => readsBack_file (hfiles f hf), ?_⟩
  cases files <;> rfl

variable {c : Config}

theorem readsBack_config (hbounded : c.IsBounded) (hpaths : ∀ p ∈ c.paths, p.IsStable) :
    record.read.ReadsBack c.value c := by
  obtain ⟨source, stages, context⟩ := c
  simp only [paths, List.forall_mem_flatMap] at hpaths
  refine Record.readsBack_read ⟨_, .cons rfl (.map (readsBack_source hbounded.retry)) <|
    .cons rfl (.map (Reader.readsBack_list fun s hs => readsBack_stage (hpaths s hs))) <|
    .cons rfl (.map (Reader.readsBack_natural hbounded.context (by decide))) .nil, ?_⟩
  rfl

theorem ofText_toText (hbounded : c.IsBounded) (hpaths : ∀ p ∈ c.paths, p.IsStable) :
    ofText c.toText = .ok c :=
  Reader.run_document (readsBack_config hbounded hpaths)

/-- Validity asks of a revision only that it is one. -/
theorem IsValid.withRevision {revision : String} (h : c.IsValid)
    (hrevision : Fetch.isRevision revision = true) :
    (c.withRevision revision).IsValid := by
  obtain ⟨hsettings, hlayout⟩ := Option.or_eq_none_iff.1 h
  obtain ⟨hname, -, hlimits⟩ := settingsFault?_eq_none_iff.1 hsettings
  exact Option.or_eq_none_iff.2 ⟨settingsFault?_eq_none_iff.2 ⟨hname, hrevision, hlimits⟩, hlayout⟩

/-! ## Saving and loading -/

/-- Where a configuration is saved, it is loaded again. -/
theorem load_of_save {path : DiskPath} {d e : Disk} (hvalid : c.IsValid) (hbounded : c.IsBounded)
    (hpaths : ∀ p ∈ c.paths, p.IsStable) (h : c.save path d = (.ok (), e)) :
    load path e = .ok c := by
  refine load_eq_ok_iff.2 ⟨c.toText, ?_, ofText_toText hbounded hpaths, hvalid⟩
  rw [Disk.text, Store.content_of_putFile h]
  simp [bind, Except.bind]

theorem exists_save_of_load {path : DiskPath} {d : Disk} (hload : load path d = .ok c)
    (saved : Config) :
    ∃ e, saved.save path d = (.ok (), e) := by
  obtain ⟨text, htext, -, -⟩ := load_eq_ok_iff.1 hload
  obtain ⟨content, hcontent, -⟩ := Except.bind_eq_ok_iff.1 htext
  obtain ⟨l, hl, hfile⟩ := Disk.content_eq_ok_iff.1 hcontent
  obtain ⟨q, name, dir, rfl, hdir, rfl⟩ := Disk.exists_join_of_file? hl hfile
  have hnode := Disk.file?_eq_some_iff.1 hfile
  obtain ⟨e, hput, -⟩ := Store.exists_putFile hdir hl (by rw [hnode]; nofun) (.ofText saved.toText)
  exact ⟨e, hput⟩

/-- For every disk and every path: a configuration that is loaded from there, and whose paths
normalisation leaves alone, can be saved there and is then loaded again as it was; so can the one
that differs from it in its revision, for every revision that a configuration may name. Both are
loaded again from whatever place on whatever disk they are saved at. -/
theorem load_save {path : DiskPath} {d : Disk} {saved : Config} (hload : load path d = .ok c)
    (hpaths : ∀ p ∈ c.paths, p.IsStable)
    (hsaved : saved = c ∨ ∃ r, Fetch.isRevision r = true ∧ saved = c.withRevision r) :
    (∃ e, saved.save path d = (.ok (), e) ∧ load path e = .ok saved) ∧
      ∀ path' d' e, saved.save path' d' = (.ok (), e) → load path' e = .ok saved := by
  obtain ⟨text, -, hread, hvalid⟩ := load_eq_ok_iff.1 hload
  have hbounded := isBounded_of_ofText hread
  have hreload : ∀ path' d' e, saved.save path' d' = (.ok (), e) → load path' e = .ok saved := by
    intro path' d' e hsave
    rcases hsaved with rfl | ⟨r, hr, rfl⟩
    · exact load_of_save hvalid hbounded hpaths hsave
    · exact load_of_save (hvalid.withRevision hr) ⟨hbounded.retry, hbounded.context⟩ hpaths hsave
  obtain ⟨e, he⟩ := exists_save_of_load hload saved
  exact ⟨⟨e, he, hreload path d e he⟩, hreload⟩

/-- A project whose configuration leaves out what it can do without, gives some records by position
and others by name, and a path in a longer way. -/
def sparseProject : Disk :=
  PatchDirectory.diskOfFiles [("c",
    "\x7b\"upstream\":\x7b\"revision\":\"v1\",\"repository\":null,\"name\":\"caf\\u00e9\\n\"\x7d,\"stages\":[" ++
      "\x7b\"name\":\"s\",\"file_patches\":[[\"a\",\"b\",\"q/a.patch\"]]\x7d," ++
      "[\"t\",[[\"set\",\"./src//\",\"out\",\"p\",[\"src/tests\"]]],[]]]\x7d")]

def sparseConfig : Config where
  source := ⟨"café\n", none, "v1", .default⟩
  stages := [⟨"s", [], [⟨⟨"a"⟩, ⟨"b"⟩, ⟨"q/a.patch"⟩⟩]⟩,
    ⟨"t", [⟨"set", ⟨"src"⟩, ⟨"out"⟩, ⟨"p"⟩, [⟨"src/tests"⟩]⟩], []⟩]
  context := Patch.defaultContext

/-- What was left out is loaded, saved with another revision, and loaded again. -/
theorem load_save_sparseProject :
    load ⟨"c"⟩ sparseProject = .ok sparseConfig ∧ (∀ p ∈ sparseConfig.paths, p.IsStable) ∧
      Fetch.isRevision "v2" = true ∧
        ∃ e, (sparseConfig.withRevision "v2").save ⟨"c"⟩ sparseProject = (.ok (), e) ∧
        load ⟨"c"⟩ e = .ok (sparseConfig.withRevision "v2") := by
  have hload : load ⟨"c"⟩ sparseProject = .ok sparseConfig := by
    have hsome : (load ⟨"c"⟩ sparseProject).toOption = some sparseConfig := by decide +kernel
    cases hloaded : load ⟨"c"⟩ sparseProject with
    | error e => rw [hloaded] at hsome; cases hsome
    | ok c => rw [hloaded] at hsome; rw [Option.some.inj hsome]
  have hpaths : ∀ p ∈ sparseConfig.paths, p.IsStable := by decide +kernel
  have hrevision : Fetch.isRevision "v2" = true := by decide +kernel
  exact ⟨hload, hpaths, hrevision, (load_save hload hpaths (.inr ⟨"v2", hrevision, rfl⟩)).1⟩

end Config

end Patchwork
