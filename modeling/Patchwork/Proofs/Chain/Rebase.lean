import Patchwork.Proofs.Chain.Units
import Patchwork.Proofs.Stack.Rebase

/-!
# A chain that is carried does the same on the new source

Of each unit, carrying gives the outputs of the stored patches on both inputs, and patches that make
the same of the new one (`SetUnit.of_rebase`). So a chain that is carried follows the two runs of
the stored patches stage by stage, and fails only where one of them does (`exists_rebaseStages`,
`of_rebaseStages`).
-/
namespace Patchwork

open List (Forall₂)

variable {d : Disk} {old new : Tree} {context : Nat}

namespace SetUnit

variable {u : SetUnit}

/-- The patches on disk are meant for paths that a file can have. -/
def HasFileTargets (u : SetUnit) (d : Disk) : Prop :=
  ∀ patches, u.stored d = .ok patches → ∀ target ∈ patches.targets, target.IsFilePath

instance (u : SetUnit) (d : Disk) : Decidable (u.HasFileTargets d) :=
  inferInstanceAs (Decidable (∀ patches, u.stored d = .ok patches →
    ∀ target ∈ patches.targets, target.IsFilePath))

def FitsOn (u : SetUnit) (d : Disk) (input : Tree) : Prop :=
  ∀ o, u.apply d input = .ok o → o.tree.Fits

instance (u : SetUnit) (d : Disk) (input : Tree) : Decidable (u.FitsOn d input) :=
  inferInstanceAs (Decidable (∀ o, u.apply d input = .ok o → o.tree.Fits))

theorem FitsOn.of_replay {input : Tree} (h : u.FitsOn d input) {patches : Stack}
    (hpatches : u.stored d = .ok patches) :
    ∀ t, patches.replay (u.base input) = .ok t → t.Fits := fun t ht =>
  h _ (apply_eq_ok_iff.2 ⟨patches, hpatches, derive_eq_ok_iff.2 ⟨t, ht, rfl⟩⟩)

/-- A unit that is carried makes what the stored patches make, and so do the carried ones. -/
theorem of_rebase (htargets : u.HasFileTargets d) (hnew : new.Fits) (hfits : u.FitsOn d new)
    {c : Carried SetOutput SetPatches} (h : u.rebase d old new context = .ok c) :
    u.apply d old = .ok c.old ∧ u.apply d new = .ok c.new ∧
      u.derive new c.patches.patches = .ok c.new := by
  obtain ⟨patches, r, hpatches, hr, rfl⟩ := rebase_eq_ok_iff.1 h
  obtain ⟨hold, hq, hv⟩ := Stack.carry_eq_ok_iff.1 hr
  have hbase : (u.base new).Fits := hnew.subtree _ _
  obtain ⟨hreplay, -⟩ := Stack.replay_of_rebase (htargets patches hpatches) hbase
    (hfits.of_replay hpatches) hq
  refine ⟨apply_eq_ok_iff.2 ⟨patches, hpatches, derive_eq_ok_iff.2 ⟨_, hold, rfl⟩⟩,
    apply_eq_ok_iff.2 ⟨patches, hpatches, derive_eq_ok_iff.2 ⟨_, ?_, rfl⟩⟩,
    derive_eq_ok_iff.2 ⟨_, hv, rfl⟩⟩
  rw [← hreplay]
  exact hv

theorem exists_rebase_iff (htargets : u.HasFileTargets d) (hnew : new.Fits)
    (hfits : u.FitsOn d new) :
    (∃ c, u.rebase d old new context = .ok c) ↔
      (∃ o, u.apply d old = .ok o) ∧ ∃ o, u.apply d new = .ok o := by
  constructor
  · rintro ⟨c, hc⟩
    obtain ⟨hold, hnew', -⟩ := of_rebase htargets hnew hfits hc
    exact ⟨⟨_, hold⟩, _, hnew'⟩
  · rintro ⟨⟨o, ho⟩, o', ho'⟩
    obtain ⟨patches, hpatches, hderive⟩ := apply_eq_ok_iff.1 ho
    obtain ⟨patches', hpatches', hderive'⟩ := apply_eq_ok_iff.1 ho'
    obtain ⟨t, ht, -⟩ := derive_eq_ok_iff.1 hderive
    obtain ⟨v, hv, rfl⟩ := derive_eq_ok_iff.1 hderive'
    obtain rfl : patches = patches' := Except.ok.inj (hpatches.symm.trans hpatches')
    have hbase : (u.base new).Fits := hnew.subtree _ _
    obtain ⟨q, hq⟩ : ∃ q, patches.rebase (u.base old) (u.base new) context = .ok q :=
      (Stack.exists_rebase_iff hbase).2 ⟨⟨t, ht⟩, v, hv⟩
    obtain ⟨hreplay, -⟩ := Stack.replay_of_rebase (htargets patches hpatches) hbase
      (hfits.of_replay hpatches) hq
    have hcarry : patches.carry (u.base old) (u.base new) context = .ok ⟨t, v, q⟩ :=
      Stack.carry_eq_ok_iff.2 ⟨ht, hq, hreplay.trans hv⟩
    exact ⟨_, rebase_eq_ok_iff.2 ⟨patches, _, hpatches, hcarry, rfl⟩⟩

end SetUnit

/-- Patches are those of a stage if they are kept where its units look for theirs. -/
structure StagePatches.BelongTo (p : StagePatches) (s : Stage) : Prop where
  stage : p.stage = s.name
  sets : Forall₂ (fun u q => q.name = u.name ∧ q.directory = u.patches) s.sets p.sets
  files : Forall₂ (fun u q => q.file = u.patch) s.files p.files

namespace Stage

theorem belongTo_of_rebase {s : Stage} {c : Carried StageOutput StagePatches}
    (h : s.rebase d old new context = .ok c) : c.patches.BelongTo s := by
  obtain ⟨sets, files, hsets, hfiles, rfl⟩ := rebase_eq_ok_iff.1 h
  refine ⟨rfl, List.forall₂_map_right_iff.2 (hsets.imp fun u c hc => ?_),
    List.forall₂_map_right_iff.2 (hfiles.imp fun u c hc => ?_)⟩
  · obtain ⟨patches, r, -, -, rfl⟩ := SetUnit.rebase_eq_ok_iff.1 hc
    exact ⟨rfl, rfl⟩
  · obtain ⟨patches, r, -, -, rfl⟩ := FileUnit.rebase_eq_ok_iff.1 hc
    rfl

section

variable {s : Stage} (hfiles : s.files = []) (htargets : ∀ u ∈ s.sets, u.HasFileTargets d)
  (hnew : new.Fits) (hfits : ∀ u ∈ s.sets, u.FitsOn d new)
include hfiles htargets hnew hfits

theorem of_rebase {c : Carried StageOutput StagePatches} (h : s.rebase d old new context = .ok c) :
    s.apply d old = .ok c.old ∧ s.apply d new = .ok c.new ∧ s.replay c.patches new = .ok c.new := by
  obtain ⟨sets, files, hsets, hfiles', rfl⟩ := rebase_eq_ok_iff.1 h
  rw [hfiles, List.forall₂_nil_left_iff] at hfiles'
  subst files
  have hgiven : Forall₂ (fun u c => (u.HasFileTargets d ∧ u.FitsOn d new) ∧
      u.rebase d old new context = .ok c) s.sets sets :=
    (List.forall₂_and_left _ _).2 ⟨fun u hu => ⟨htargets u hu, hfits u hu⟩, hsets⟩
  have hunits : Forall₂ (fun u c => u.apply d old = .ok c.old ∧ u.apply d new = .ok c.new ∧
      u.derive new c.patches.patches = .ok c.new) s.sets sets :=
    hgiven.imp fun u c hc => SetUnit.of_rebase hc.1.1 hnew hc.1.2 hc.2
  refine ⟨apply_eq_ok_iff.2 ⟨_, [], ?_, ?_, rfl⟩, apply_eq_ok_iff.2 ⟨_, [], ?_, ?_, rfl⟩,
    replay_eq_ok_iff.2 ⟨_, [], ?_, ?_, rfl⟩⟩
  · exact List.forall₂_map_right_iff.2 (hunits.imp fun _ _ h => h.1)
  · rw [hfiles]
    exact .nil
  · exact List.forall₂_map_right_iff.2 (hunits.imp fun _ _ h => h.2.1)
  · rw [hfiles]
    exact .nil
  · exact forall₂_zip_map (hunits.imp fun _ _ h => h.2.2)
  · rw [hfiles]
    exact .nil

theorem exists_rebase_iff :
    (∃ c, s.rebase d old new context = .ok c) ↔
      (∃ o, s.apply d old = .ok o) ∧ ∃ o, s.apply d new = .ok o := by
  constructor
  · rintro ⟨c, hc⟩
    obtain ⟨hold, hnew', -⟩ := of_rebase hfiles htargets hnew hfits hc
    exact ⟨⟨_, hold⟩, _, hnew'⟩
  · rintro ⟨⟨o, ho⟩, o', ho'⟩
    obtain ⟨outputs, -, houtputs, -⟩ := apply_eq_ok_iff.1 ho
    obtain ⟨outputs', -, houtputs', -⟩ := apply_eq_ok_iff.1 ho'
    have hunits : ∀ u ∈ s.sets, ∃ c, u.rebase d old new context = .ok c := fun u hu =>
      (SetUnit.exists_rebase_iff (htargets u hu) hnew (hfits u hu)).2
        ⟨exists_forall₂_iff.1 ⟨outputs, houtputs⟩ u hu,
          exists_forall₂_iff.1 ⟨outputs', houtputs'⟩ u hu⟩
    obtain ⟨sets, hsets⟩ := exists_forall₂_iff.2 hunits
    refine ⟨_, rebase_eq_ok_iff.2 ⟨sets, [], hsets, ?_, rfl⟩⟩
    rw [hfiles]
    exact .nil

end

end Stage

namespace Chain

theorem applyStages_cons_eq_ok_iff {s : Stage} {stages : List Stage} {input : Tree}
    {os : List StageOutput} :
    applyStages d (s :: stages) input = .ok os ↔ ∃ o rest, s.apply d input = .ok o ∧
      applyStages d stages (o.overlay input) = .ok rest ∧ o :: rest = os := by
  rw [applyStages]
  simp only [Except.bind_eq_ok_iff]
  constructor
  · rintro ⟨o, ho, rest, hrest, h⟩
    exact ⟨o, rest, ho, hrest, Except.ok.inj h⟩
  · rintro ⟨o, rest, ho, hrest, rfl⟩
    exact ⟨o, ho, rest, hrest, rfl⟩

theorem replayStages_cons_eq_ok_iff {s : Stage} {p : StagePatches}
    {stages : List (Stage × StagePatches)} {input : Tree} {os : List StageOutput} :
    replayStages ((s, p) :: stages) input = .ok os ↔ ∃ o rest, s.replay p input = .ok o ∧
      replayStages stages (o.overlay input) = .ok rest ∧ o :: rest = os := by
  rw [replayStages]
  simp only [Except.bind_eq_ok_iff]
  constructor
  · rintro ⟨o, ho, rest, hrest, h⟩
    exact ⟨o, rest, ho, hrest, Except.ok.inj h⟩
  · rintro ⟨o, rest, ho, hrest, rfl⟩
    exact ⟨o, ho, rest, hrest, rfl⟩

theorem rebaseStages_cons_eq_ok_iff {s : Stage} {stages : List Stage} {r : List StagePatches} :
    rebaseStages d context (s :: stages) old new = .ok r ↔ ∃ c rest,
      s.rebase d old new context = .ok c ∧
      rebaseStages d context stages (c.old.overlay old) (c.new.overlay new) = .ok rest ∧
      c.patches :: rest = r := by
  rw [rebaseStages]
  simp only [Except.bind_eq_ok_iff]
  constructor
  · rintro ⟨c, hc, rest, hrest, h⟩
    exact ⟨c, rest, hc, hrest, Except.ok.inj h⟩
  · rintro ⟨c, rest, hc, hrest, rfl⟩
    exact ⟨c, hc, rest, hrest, rfl⟩

/-- Every tree that arises while stages are applied fits into memory. -/
def FitsThrough (d : Disk) : List Stage → Tree → Prop
  | [], input => input.Fits
  | s :: stages, input => input.Fits ∧ (∀ u ∈ s.sets, u.FitsOn d input) ∧
      ∀ o, s.apply d input = .ok o → FitsThrough d stages (o.overlay input)

instance decidableFitsThrough (d : Disk) :
    ∀ (stages : List Stage) (input : Tree), Decidable (FitsThrough d stages input)
  | [], input => inferInstanceAs (Decidable input.Fits)
  | _ :: stages, _ =>
    have := decidableFitsThrough d stages
    inferInstanceAs (Decidable (_ ∧ _ ∧ _))

theorem belongTo_of_rebaseStages {stages : List Stage} {r : List StagePatches}
    (h : rebaseStages d context stages old new = .ok r) :
    Forall₂ (fun s p => p.BelongTo s) stages r := by
  induction stages generalizing old new r with
  | nil =>
    cases h
    exact .nil
  | cons s stages ih =>
    obtain ⟨c, rest, hc, hr, rfl⟩ := rebaseStages_cons_eq_ok_iff.1 h
    exact .cons (Stage.belongTo_of_rebase hc) (ih hr)

/-- Stages that are carried make what the stored patches make, and so do the carried ones. -/
theorem of_rebaseStages {stages : List Stage} (hfiles : ∀ s ∈ stages, s.files = [])
    (htargets : ∀ s ∈ stages, ∀ u ∈ s.sets, u.HasFileTargets d) (hfits : FitsThrough d stages new)
    {r : List StagePatches} (h : rebaseStages d context stages old new = .ok r) :
    (∃ os, applyStages d stages old = .ok os) ∧
      ∃ os, applyStages d stages new = .ok os ∧ replayStages (stages.zip r) new = .ok os := by
  induction stages generalizing old new r with
  | nil => exact ⟨⟨[], rfl⟩, [], rfl, rfl⟩
  | cons s stages ih =>
    obtain ⟨hnew, hunits, hrest⟩ := hfits
    obtain ⟨c, rest, hc, hr, rfl⟩ := rebaseStages_cons_eq_ok_iff.1 h
    obtain ⟨hold, hnew', hreplay⟩ :=
      Stage.of_rebase (hfiles s (by simp)) (htargets s (by simp)) hnew hunits hc
    -- The inputs of the next stage are the same in the carried run and in the runs on either
    -- source.
    obtain ⟨⟨os, hos⟩, os', hos', hreplay'⟩ := ih (fun t ht => hfiles t (by simp [ht]))
      (fun t ht => htargets t (by simp [ht])) (hrest _ hnew') hr
    refine ⟨⟨_, applyStages_cons_eq_ok_iff.2 ⟨_, os, hold, hos, rfl⟩⟩, _,
      applyStages_cons_eq_ok_iff.2 ⟨_, os', hnew', hos', rfl⟩, ?_⟩
    rw [List.zip_cons_cons]
    exact replayStages_cons_eq_ok_iff.2 ⟨_, os', hreplay, hreplay', rfl⟩

theorem exists_rebaseStages {stages : List Stage} (hfiles : ∀ s ∈ stages, s.files = [])
    (htargets : ∀ s ∈ stages, ∀ u ∈ s.sets, u.HasFileTargets d) (hfits : FitsThrough d stages new)
    {os os' : List StageOutput} (hold : applyStages d stages old = .ok os)
    (hnew : applyStages d stages new = .ok os') :
    ∃ r, rebaseStages d context stages old new = .ok r := by
  induction stages generalizing old new os os' with
  | nil => exact ⟨[], rfl⟩
  | cons s stages ih =>
    obtain ⟨hfitsNew, hunits, hfitsRest⟩ := hfits
    obtain ⟨o, rest, ho, hrest, -⟩ := applyStages_cons_eq_ok_iff.1 hold
    obtain ⟨o', rest', ho', hrest', -⟩ := applyStages_cons_eq_ok_iff.1 hnew
    have hfilesHead := hfiles s (by simp)
    have htargetsHead := htargets s (by simp)
    obtain ⟨c, hc⟩ : ∃ c, s.rebase d old new context = .ok c :=
      (Stage.exists_rebase_iff hfilesHead htargetsHead hfitsNew hunits).2 ⟨⟨o, ho⟩, o', ho'⟩
    -- What was carried was laid over the inputs as the stored patches make it.
    obtain ⟨hcold, hcnew, -⟩ := Stage.of_rebase hfilesHead htargetsHead hfitsNew hunits hc
    obtain rfl : c.old = o := Except.ok.inj (hcold.symm.trans ho)
    obtain rfl : c.new = o' := Except.ok.inj (hcnew.symm.trans ho')
    obtain ⟨r, hr⟩ := ih (fun t ht => hfiles t (by simp [ht]))
      (fun t ht => htargets t (by simp [ht])) (hfitsRest _ ho') hrest hrest'
    exact ⟨_, rebaseStages_cons_eq_ok_iff.2 ⟨c, r, hc, hr, rfl⟩⟩

/-- A chain of patch sets is carried to another source exactly if it applies to both sources. Then
there are patches for each unit, under its name and directory, and replaying the chain with them on
the new source gives, stage by stage, the outputs that the stored patches give there. The stored
patches have well-formed targets, and what they make of the new source is held in memory. -/
theorem replay_rebase_eq_apply (c : Chain) (d : Disk) (old new : Snapshot)
    (hfiles : ∀ s ∈ c.stages, s.files = [])
    (htargets : ∀ s ∈ c.stages, ∀ u ∈ s.sets, u.HasFileTargets d)
    (hfits : FitsThrough d c.stages new.tree) :
    ((∃ r, c.rebase d old new = .ok r) ↔
      (∃ os, c.apply d old = .ok os) ∧ ∃ os, c.apply d new = .ok os) ∧
    ∀ r, c.rebase d old new = .ok r → Forall₂ (fun s p => p.BelongTo s) c.stages r ∧
      ∃ os, c.apply d new = .ok os ∧ c.replay r new = .ok os := by
  refine ⟨⟨?_, ?_⟩, fun r hr => ⟨belongTo_of_rebaseStages hr, ?_⟩⟩
  · rintro ⟨r, hr⟩
    obtain ⟨hold, os, hos, -⟩ := of_rebaseStages hfiles htargets hfits hr
    exact ⟨hold, os, hos⟩
  · rintro ⟨⟨os, hos⟩, os', hos'⟩
    exact exists_rebaseStages hfiles htargets hfits hos hos'
  · exact (of_rebaseStages hfiles htargets hfits hr).2

def twoPatches : Disk :=
  let first : Patch := ⟨⟨"a"⟩, .modify, [⟨1, 2, 1, 2, none,
    [⟨.context, "one\n"⟩, ⟨.deletion, "two\n"⟩, ⟨.insertion, "2"⟩]⟩]⟩
  let second : Patch := ⟨⟨"a"⟩, .modify, [⟨1, 1, 1, 1, none,
    [⟨.deletion, "one\n"⟩, ⟨.insertion, "1\n"⟩]⟩]⟩
  let put := fun (d : Disk) (directory : String) (p : Patch) =>
    let d := (d.makeDirectories ⟨directory⟩).1
    (d.putFile ⟨directory ++ "/a.patch"⟩ (.ofText p.render)).toOption.getD d
  put (put .empty "first" first) "second" second

def twoStages : Chain where
  root := ⟨"."⟩
  stages := [
    ⟨"first", [⟨"middle", ⟨"src"⟩, ⟨"middle"⟩, [], ⟨"first"⟩⟩], []⟩,
    ⟨"second", [⟨"last", ⟨"middle"⟩, ⟨"last"⟩, [], ⟨"second"⟩⟩], []⟩]
  context := 3

def sourceOf (text : String) : Snapshot := ⟨"", .ofList [(⟨"src/a"⟩, .ofText text)]⟩

theorem replay_rebase_eq_apply_twoStages :
    (∀ s ∈ twoStages.stages, ∀ u ∈ s.sets, u.HasFileTargets twoPatches) ∧
      FitsThrough twoPatches twoStages.stages (sourceOf "zero\none\ntwo\n").tree ∧
      ∃ r os, twoStages.rebase twoPatches (sourceOf "one\ntwo\n") (sourceOf "zero\none\ntwo\n") =
          .ok r ∧ twoStages.apply twoPatches (sourceOf "zero\none\ntwo\n") = .ok os ∧
        twoStages.replay r (sourceOf "zero\none\ntwo\n") = .ok os := by
  have htargets : ∀ s ∈ twoStages.stages, ∀ u ∈ s.sets, u.HasFileTargets twoPatches := by
    decide +kernel
  have hfits : FitsThrough twoPatches twoStages.stages (sourceOf "zero\none\ntwo\n").tree := by
    decide +kernel
  have hfiles : ∀ s ∈ twoStages.stages, s.files = [] := by decide
  have hold : ∃ os, twoStages.apply twoPatches (sourceOf "one\ntwo\n") = .ok os := by
    decide +kernel
  have hnew : ∃ os, twoStages.apply twoPatches (sourceOf "zero\none\ntwo\n") = .ok os := by
    decide +kernel
  obtain ⟨hiff, hreplay⟩ := replay_rebase_eq_apply twoStages twoPatches (sourceOf "one\ntwo\n")
    (sourceOf "zero\none\ntwo\n") hfiles htargets hfits
  obtain ⟨r, hr⟩ := hiff.2 ⟨hold, hnew⟩
  obtain ⟨-, os, hos, hos'⟩ := hreplay r hr
  exact ⟨htargets, hfits, r, os, hr, hos, hos'⟩

end Chain

end Patchwork
