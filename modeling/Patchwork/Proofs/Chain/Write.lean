import Mathlib.Data.List.Forall2
import Mathlib.Data.List.Pairwise
import Patchwork.Chain.Write
import Patchwork.Proofs.Chain.Units
import Patchwork.Proofs.Project.Config
import Patchwork.Proofs.Store.Series
import Patchwork.Proofs.Store.TreeWrite

/-!
# Writing the outputs of a chain

Writing one output changes nothing but what lies at its own place, and the root is reached as before
(`changesWithin_of_writePiece`). An output directory is replaced, less what is excluded there: an
excluded file that is loaded under its own path is written back (`SetOutput.file?_of_write`). No
output of a valid configuration is in the way of another, so the file is still there when all of
them have been written (`Config.writeOutputs_keeps_excluded`).
-/
namespace Patchwork

open TreePath (ofLocation)
open List (Forall₂)

variable {d e : Disk} {root : DiskPath} {dir names : Location}

/-! ## Writing piece by piece -/

theorem Store.each_map_eq_ok_iff {α β : Type} {step : β → Store Unit} {f : α → β} {as : List α} :
    each step (as.map f) d = (.ok (), e) ↔ each (fun a => step (f a)) as d = (.ok (), e) := by
  induction as generalizing d with
  | nil => exact Iff.rfl
  | cons a as ih => simp only [List.map_cons, each_cons_eq_ok_iff, ih]

/-- What a unit makes, whether a directory or a file. -/
abbrev Piece := SetOutput ⊕ FileOutput

namespace Piece

def path : Piece → TreePath := Sum.elim (·.output) (·.output)

def write (root : DiskPath) : Piece → Store Unit := Sum.elim (·.write root) (·.write root)

def IsOf : Piece → SetUnit ⊕ FileUnit → Prop
  | .inl o, .inl u => o.output = u.output ∧ o.excludes = u.excludes
  | .inr o, .inr u => o.output = u.output
  | _, _ => False

def HasNormalPaths : Piece → Prop
  | .inl o => ∀ key ∈ o.tree.keys, key.IsNormal
  | .inr _ => True

theorem IsOf.path_eq {q : Piece} {u : SetUnit ⊕ FileUnit} (h : q.IsOf u) :
    q.path = outputPath u := by
  cases q <;> cases u <;> first | exact h.1 | exact h | cases h

end Piece

def StageOutput.pieces (o : StageOutput) : List Piece := o.sets.map .inl ++ o.files.map .inr

theorem Chain.writeOutputs_eq_ok_iff {c : Chain} {outputs : List StageOutput} :
    c.writeOutputs outputs d = (.ok (), e) ↔
      Store.each (Piece.write c.root) (outputs.flatMap (·.pieces)) d = (.ok (), e) := by
  unfold writeOutputs
  induction outputs generalizing d with
  | nil => exact Iff.rfl
  | cons o outputs ih =>
    rw [Store.each_cons_eq_ok_iff, List.flatMap_cons, Store.each_append_eq_ok_iff]
    refine exists_congr fun d₁ => and_congr ?_ ih
    rw [StageOutput.write, Store.bind_eq_ok_iff, StageOutput.pieces, Store.each_append_eq_ok_iff]
    simp only [Store.each_map_eq_ok_iff]
    exact ⟨fun ⟨_, d₂, h⟩ => ⟨d₂, h⟩, fun ⟨d₂, h⟩ => ⟨(), d₂, h⟩⟩

/-! ## Writing a piece -/

namespace SetOutput

variable {o : SetOutput} {dest : DiskPath} {t : Tree}

theorem exists_of_withKept (h : o.withKept dest d = .ok t) : ∃ kept : Tree, t = o.tree.union kept ∧
    (∀ key c, kept.get? key = some c → key.isExcluded o.excludes = true ∧
      ∃ present, Store.loadTree dest [] d = .ok present ∧ present.get? key = some c) ∧
    (∀ key, key.isExcluded o.excludes = true → d.holdsDirectory dest = true →
      ∃ present, Store.loadTree dest [] d = .ok present ∧ kept.get? key = present.get? key) := by
  unfold withKept at h
  split_ifs at h with hkeeps
  · obtain ⟨present, hpresent, h⟩ := Except.bind_eq_ok_iff.1 h
    refine ⟨_, (Except.ok.inj h).symm, fun key c hc => ?_, fun key hkey _ =>
      ⟨present, hpresent, ?_⟩⟩
    · rw [SortedMap.get?_filter, Option.filter_eq_some_iff] at hc
      exact ⟨hc.2, present, hpresent, hc.1⟩
    · rw [SortedMap.get?_filter, hkey]
      cases present.get? key <;> rfl
  · refine ⟨.empty, ?_, nofun, fun key hkey hdirectory => ?_⟩
    · obtain rfl := Except.ok.inj h
      exact SortedMap.ext_get? fun key => by simp
    · have hexcludes : o.excludes = [] := by simpa [hdirectory] using hkeeps
      rw [hexcludes] at hkey
      cases hkey

theorem of_write (hp : d.Reaches root dir) (houtput : o.output.IsNormal)
    (hbelow : o.output.location ≠ []) (hkeys : ∀ key ∈ o.tree.keys, key.IsNormal)
    (h : o.write root d = (.ok (), e)) :
    ∃ t, o.withKept (root.below o.output) d = .ok t ∧ (∀ key ∈ t.keys, key.IsNormal) ∧
      d.ChangesWithin e {dir ++ o.output.location} ∧ e.HoldsTree (dir ++ o.output.location) t ∧
      e.Reaches root dir ∧ e.locate (root.below o.output) = .ok (dir ++ o.output.location) := by
  obtain ⟨t, _, hlook, h⟩ := Store.bind_eq_ok_iff.1 h
  obtain ⟨hkept, rfl⟩ := Store.inspect_eq_ok_iff.1 hlook
  have htkeys : ∀ key ∈ t.keys, key.IsNormal := by
    intro key hkey
    obtain ⟨kept, rfl, hpresent, -⟩ := exists_of_withKept hkept
    obtain ⟨c, hc⟩ := SortedMap.mem_keys_iff.1 hkey
    rw [SortedMap.get?_union, Option.or_eq_some_iff] at hc
    rcases hc with hc | ⟨-, hc⟩
    · obtain ⟨-, present, hload, hc⟩ := hpresent key c hc
      obtain ⟨-, names, -, -, -, hpath⟩ := Store.exists_file?_of_loadTree hload hc
      exact ⟨_, hpath⟩
    · exact hkeys key (SortedMap.mem_keys_iff.2 ⟨c, hc⟩)
  refine ⟨t, hkept, htkeys, ?_⟩
  rw [DiskPath.below_eq _ houtput] at h ⊢
  exact Store.of_writeTree hp hbelow htkeys h

end SetOutput

theorem FileOutput.of_write {o : FileOutput} (hp : d.Reaches root dir) (houtput : o.output.IsNormal)
    (hbelow : o.output.location ≠ []) (h : o.write root d = (.ok (), e)) :
    d.Replaces e (dir ++ o.output.location) o.content ∧
      Store.file? (root.below o.output) e = .ok o.content := by
  unfold write at h
  rw [DiskPath.below_eq _ houtput] at h ⊢
  cases hcontent : o.content with
  | some content =>
    rw [hcontent] at h
    exact Store.replaces_of_putFile hp hbelow h
  | none =>
    rw [hcontent] at h
    exact Store.replaces_of_dropFile hp hbelow h

/-- Writing a piece changes nothing but what lies at its place, and the root is reached as
before. -/
theorem changesWithin_of_writePiece {q : Piece} (hp : d.Reaches root dir) (hpath : q.path.IsNormal)
    (hbelow : q.path.location ≠ []) (hkeys : q.HasNormalPaths) (h : q.write root d = (.ok (), e)) :
    d.ChangesWithin e {dir ++ q.path.location} ∧ e.Reaches root dir := by
  cases q with
  | inl o =>
    obtain ⟨t, -, -, hwithin, -, hp', -⟩ := SetOutput.of_write hp hpath hbelow hkeys h
    exact ⟨hwithin, hp'⟩
  | inr o =>
    obtain ⟨hreplaces, -⟩ := FileOutput.of_write hp hpath hbelow h
    exact ⟨hreplaces.within, hp.mono hreplaces.directories⟩

/-! ## Excluded files -/

/-- A file below an output is written back under its own path: nothing on its way belongs to version
control, and no backslash turns its path, or that of another file, into something else. -/
structure Disk.IsReloaded (d : Disk) (l names : Location) : Prop where
  versioned : ∀ name ∈ names, name.text ≠ Store.versionControl
  normal : (ofLocation names).IsNormal
  alone : d.IsAlone l names

theorem SetOutput.file?_of_write {o : SetOutput} (hp : d.Reaches root dir)
    (houtput : o.output.IsNormal) (hbelow : o.output.location ≠ [])
    (hkeys : ∀ key ∈ o.tree.keys, key.IsNormal) (hnames : names ≠ [])
    (hexcluded : (ofLocation names).isExcluded o.excludes = true)
    (hreloaded : d.IsReloaded (dir ++ o.output.location) names) {content : Content}
    (hfile : d.file? (dir ++ o.output.location ++ names) = some content)
    (h : o.write root d = (.ok (), e)) :
    e.file? (dir ++ o.output.location ++ names) = some content ∧
      e.IsReloaded (dir ++ o.output.location) names := by
  obtain ⟨t, hkept, htkeys, -, htree, -, hl⟩ := of_write hp houtput hbelow hkeys h
  -- The directory is there before, so the file is among those that are loaded from it.
  have hdirectory : d.node? (dir ++ o.output.location) = some .directory := by
    obtain ⟨name, rest, rfl⟩ := List.exists_cons_of_ne_nil hnames
    exact Disk.node?_of_node?_append (Disk.file?_eq_some_iff.1 hfile)
  have hlocate : d.locate (root.below o.output) = .ok (dir ++ o.output.location) := by
    rw [DiskPath.below_eq _ houtput] at hl ⊢
    exact hp.locate_belowNames hbelow hl hdirectory
  obtain ⟨kept, rfl, -, hfound⟩ := exists_of_withKept hkept
  obtain ⟨present, hpresent, hget⟩ := hfound _ hexcluded
    (Disk.holdsDirectory_iff.2 ⟨_, hlocate, hdirectory⟩)
  rw [Store.get?_loadTree hpresent hlocate hfile (Store.isPassedOver_nil hreloaded.versioned)
    hreloaded.normal hreloaded.alone] at hget
  refine ⟨?_, hreloaded.versioned, hreloaded.normal, htree.isAlone htkeys names⟩
  rw [htree.file?_eq, SortedMap.get?_union, hget, Option.some_or]

/-! ## All outputs -/

structure StageOutput.IsOf (o : StageOutput) (s : Stage) : Prop where
  sets : Forall₂ (fun q u => ∃ t, q = u.outputOf t) o.sets s.sets
  files : Forall₂ (fun q u => q.output = u.output) o.files s.files

theorem StageOutput.IsOf.pieces {o : StageOutput} {s : Stage} (h : o.IsOf s) :
    Forall₂ Piece.IsOf o.pieces s.units := by
  refine List.rel_append ?_ ?_
  · refine List.forall₂_map_left_iff.2 (List.forall₂_map_right_iff.2 (h.sets.imp ?_))
    rintro q u ⟨t, rfl⟩
    exact ⟨rfl, rfl⟩
  · exact List.forall₂_map_left_iff.2 (List.forall₂_map_right_iff.2 h.files)

theorem Chain.exists_unit_of_mem_pieces {c : Chain} {outputs : List StageOutput}
    (h : ∀ o ∈ outputs, ∃ s ∈ c.stages, o.IsOf s) :
    ∀ q ∈ outputs.flatMap (·.pieces), ∃ u ∈ c.units, q.IsOf u := by
  intro q hq
  obtain ⟨o, ho, hq⟩ := List.mem_flatMap.1 hq
  obtain ⟨s, hs, hos⟩ := h o ho
  obtain ⟨u, hu, hqu⟩ := exists_of_mem_forall₂ hos.pieces q hq
  exact ⟨u, List.mem_flatMap.2 ⟨s, hs, hu⟩, hqu⟩

/-- The files of all set outputs have paths that normalisation gave. -/
def HaveNormalPaths (outputs : List StageOutput) : Prop :=
  ∀ o ∈ outputs, ∀ q ∈ o.sets, ∀ key ∈ q.tree.keys, key.IsNormal

theorem HaveNormalPaths.pieces {outputs : List StageOutput} (h : HaveNormalPaths outputs) :
    ∀ q ∈ outputs.flatMap (·.pieces), q.HasNormalPaths := by
  intro q hq
  obtain ⟨o, ho, hq⟩ := List.mem_flatMap.1 hq
  rcases List.mem_append.1 hq with hq | hq
  · obtain ⟨output, houtput, rfl⟩ := List.mem_map.1 hq
    exact h o ho output houtput
  · obtain ⟨output, -, rfl⟩ := List.mem_map.1 hq
    trivial

theorem Chain.IsLaidOut.apart_of_ne {c : Chain} (h : c.IsLaidOut) {u v : SetUnit ⊕ FileUnit}
    (hu : u ∈ c.units) (hv : v ∈ c.units) (hne : u ≠ v) : (outputPath u).Apart (outputPath v) := by
  have : Std.Symm fun u v => (outputPath u).Apart (outputPath v) := ⟨fun _ _ => TreePath.Apart.symm⟩
  exact h.apart.forall hu hv hne

/-- A file of an output directory that is excluded there, and is loaded under its own path, is still
there with the same content when all outputs have been written. -/
theorem Chain.file?_of_writeOutputs {c : Chain} (hlaid : c.IsLaidOut) (hroot : d.Reaches c.root dir)
    {outputs : List StageOutput} (houtputs : ∀ o ∈ outputs, ∃ s ∈ c.stages, o.IsOf s)
    (hkeys : HaveNormalPaths outputs) (h : c.writeOutputs outputs d = (.ok (), e)) {u : SetUnit}
    (hu : .inl u ∈ c.units) (hnames : names ≠ [])
    (hexcluded : (ofLocation names).isExcluded u.excludes = true)
    (hreloaded : d.IsReloaded (dir ++ u.output.location) names) {content : Content}
    (hfile : d.file? (dir ++ u.output.location ++ names) = some content) :
    e.file? (dir ++ u.output.location ++ names) = some content := by
  let Keeps (d : Disk) : Prop :=
    d.Reaches c.root dir ∧ d.IsReloaded (dir ++ u.output.location) names ∧
      d.file? (dir ++ u.output.location ++ names) = some content
  suffices hkeeps : Keeps d → Keeps e from (hkeeps ⟨hroot, hreloaded, hfile⟩).2.2
  refine Store.each_induction (motive := fun d e => Keeps d → Keeps e) (fun _ => id)
    (fun _ _ _ h h' => h' ∘ h) (fun q hq d e hstep => ?_) (writeOutputs_eq_ok_iff.1 h)
  rintro ⟨hp, hreloaded, hfile⟩
  obtain ⟨v, hv, hqv⟩ := exists_unit_of_mem_pieces houtputs q hq
  have hpath : q.path.IsNormal := hqv.path_eq ▸ hlaid.normal v hv
  have hbelow : q.path.location ≠ [] := hqv.path_eq ▸ hlaid.below v hv
  obtain ⟨hwithin, hp'⟩ := changesWithin_of_writePiece hp hpath hbelow (hkeys.pieces q hq) hstep
  refine ⟨hp', ?_⟩
  by_cases hvu : v = .inl u
  · subst hvu
    cases q with
    | inr o => cases hqv
    | inl o =>
      obtain ⟨houtput, hexcludes⟩ := hqv
      rw [← houtput] at hreloaded hfile ⊢
      rw [← hexcludes] at hexcluded
      exact (SetOutput.file?_of_write hp hpath hbelow
        (hkeys.pieces _ hq) hnames hexcluded hreloaded hfile hstep).symm
  · -- The piece is written elsewhere.
    have hapart : ∀ l ∈ ({dir ++ q.path.location} : Set Location),
        ¬ l <+: dir ++ u.output.location ∧ ¬ dir ++ u.output.location <+: l := by
      rintro l rfl
      rw [hqv.path_eq]
      exact (hlaid.apart_of_ne hv hu hvu).append dir
    have hnode := hwithin.node?_append_eq hapart
    refine ⟨⟨hreloaded.versioned, hreloaded.normal, ?_⟩, ?_⟩
    · rw [Disk.IsAlone, Disk.walk_congr hnode]
      exact hreloaded.alone
    · rw [Disk.file?_of_node? (hnode names), hfile]

namespace Config

/-- When the outputs of a project with a valid configuration have been written, a file that was in
the output directory of a set at or below a path that is excluded there is still there with the same
content, if it is loaded under its own path. That the directory of the project is there and that
paths are normalised is all that is asked of the outputs and of the disk. -/
theorem writeOutputs_keeps_excluded (c : Config) (hvalid : c.IsValid) (hpaths : c.HasNormalPaths)
    {d e : Disk} {root : DiskPath} {dir : Location} (hroot : d.Reaches root dir)
    {outputs : List StageOutput} (houtputs : ∀ o ∈ outputs, ∃ s ∈ (c.chain root).stages, o.IsOf s)
    (hkeys : HaveNormalPaths outputs) (h : (c.chain root).writeOutputs outputs d = (.ok (), e)) :
    ∀ u, .inl u ∈ (c.chain root).units → ∀ names content, names ≠ [] →
      (ofLocation names).isExcluded u.excludes = true →
      d.file? (dir ++ u.output.location ++ names) = some content →
      d.IsReloaded (dir ++ u.output.location) names →
      e.file? (dir ++ u.output.location ++ names) = some content :=
  fun _ hu _ _ hnames hexcluded hfile hreloaded =>
    Chain.file?_of_writeOutputs
      (isLaidOut hvalid hpaths root) hroot houtputs hkeys h hu hnames hexcluded hreloaded hfile

instance (c : Config) : Decidable c.IsValid := inferInstanceAs (Decidable (_ = _))

open PatchDirectory (diskOfFiles)

def excluding (path : String) : Config where
  source := ⟨"base", none, "main", .default⟩
  stages := [⟨"stage", [⟨"set", ⟨"src"⟩, ⟨"out"⟩, ⟨"patches"⟩, [⟨path⟩]⟩], []⟩]
  context := 3

def excludingOutputs (path : String) : List StageOutput :=
  [⟨"stage", [⟨"set", ⟨"out"⟩, [⟨path⟩], .single ⟨"a"⟩ (some (.ofText "one\n"))⟩], []⟩]

theorem isOf_excludingOutputs (path : String) (root : DiskPath) :
    ∀ o ∈ excludingOutputs path, ∃ s ∈ ((excluding path).chain root).stages, o.IsOf s := by
  simp only [excludingOutputs, List.mem_singleton, forall_eq]
  exact ⟨_, List.mem_map_of_mem (List.mem_singleton_self _), .cons ⟨_, rfl⟩ .nil, .nil⟩

theorem haveNormalPaths_excludingOutputs (path : String) :
    HaveNormalPaths (excludingOutputs path) := by
  simp only [HaveNormalPaths, excludingOutputs, List.mem_singleton, forall_eq]
  decide

/-- Below an excluded directory a file is kept, and others are not. -/
theorem writeOutputs_keeps_excluded_generated :
    let d := diskOfFiles [("out/gen/x", "kept\n"), ("out/old", "old\n")]
    let r := ((excluding "gen").chain ⟨"."⟩).writeOutputs (excludingOutputs "gen") d
    let names := TreePath.location ⟨"gen/x"⟩
    (excluding "gen").IsValid ∧ (excluding "gen").HasNormalPaths ∧ d.Reaches ⟨"."⟩ [] ∧
      r = (.ok (), r.2) ∧ d.IsReloaded (TreePath.location ⟨"out"⟩) names ∧
      d.file? (TreePath.location ⟨"out"⟩ ++ names) = some (.ofText "kept\n") ∧
      r.2.file? (TreePath.location ⟨"out"⟩ ++ names) = some (.ofText "kept\n") := by
  intro d r names
  have hvalid : (excluding "gen").IsValid := by decide +kernel
  have hpaths : (excluding "gen").HasNormalPaths := by decide +kernel
  have hroot : d.Reaches ⟨"."⟩ [] := ⟨by decide +kernel, by decide +kernel⟩
  have hwrite : r = (.ok (), r.2) := Prod.ext (show r.1 = .ok () by decide +kernel) rfl
  have hfile : d.file? (TreePath.location ⟨"out"⟩ ++ names) = some (.ofText "kept\n") := by
    decide +kernel
  have hreloaded : d.IsReloaded (TreePath.location ⟨"out"⟩) names :=
    ⟨by decide +kernel, by decide +kernel, by decide +kernel⟩
  refine ⟨hvalid, hpaths, hroot, hwrite, hreloaded, hfile, ?_⟩
  exact writeOutputs_keeps_excluded _ hvalid hpaths hroot (isOf_excludingOutputs _ _)
    (haveNormalPaths_excludingOutputs _) hwrite ⟨"set", ⟨"src"⟩, ⟨"out"⟩, [⟨"gen"⟩], _⟩
      (List.mem_singleton_self _)
    names _ (by decide +kernel) (by decide +kernel) hfile hreloaded

/-- The directory of version control is lost, although it is excluded. -/
theorem not_forall_writeOutputs_keeps_excluded :
    ¬ ∀ (c : Config) (root : DiskPath) (dir : Location) (d e : Disk) (outputs : List StageOutput),
      c.IsValid → c.HasNormalPaths → d.Reaches root dir →
      (∀ o ∈ outputs, ∃ s ∈ (c.chain root).stages, o.IsOf s) → HaveNormalPaths outputs →
      (c.chain root).writeOutputs outputs d = (.ok (), e) →
      ∀ u, .inl u ∈ (c.chain root).units → ∀ names content, names ≠ [] →
        (ofLocation names).isExcluded u.excludes = true →
        d.file? (dir ++ u.output.location ++ names) = some content →
        e.file? (dir ++ u.output.location ++ names) = some content := by
  intro h
  let d := diskOfFiles [("out/.git/config", "mine\n")]
  let r := ((excluding ".git").chain ⟨"."⟩).writeOutputs (excludingOutputs ".git") d
  have hkept := h (excluding ".git") ⟨"."⟩ [] d r.2 (excludingOutputs ".git") (by decide +kernel)
    (by decide +kernel) ⟨by decide +kernel, by decide +kernel⟩ (isOf_excludingOutputs _ _)
    (haveNormalPaths_excludingOutputs _) (Prod.ext (show r.1 = .ok () by decide +kernel) rfl)
    ⟨"set", ⟨"src"⟩, ⟨"out"⟩, [⟨".git"⟩], _⟩ (List.mem_singleton_self _)
    (TreePath.location ⟨".git/config"⟩) (.ofText "mine\n") (by decide +kernel) (by decide +kernel)
    (by decide +kernel)
  exact absurd hkept (by decide +kernel)

end Config

end Patchwork
