import Patchwork.Project.Config
import Patchwork.Proofs.Tree.Below

/-!
# How a valid configuration lays out its project

Paths that do not overlap lead to locations of which none lies in the other. In a valid
configuration that holds of any two outputs, and of an output and a place for patches, so what is
written for one unit of its chain is in the way of no other (`Config.isLaidOut`).
-/
namespace Patchwork

namespace TreePath

/-- Neither path leads to a location at or below that of the other. -/
def Apart (p q : TreePath) : Prop := ¬ p.location <+: q.location ∧ ¬ q.location <+: p.location

theorem Apart.append {p q : TreePath} (h : p.Apart q) (dir : Location) :
    ¬ dir ++ p.location <+: dir ++ q.location ∧ ¬ dir ++ q.location <+: dir ++ p.location := by
  rwa [List.prefix_append_right_inj, List.prefix_append_right_inj]

theorem Apart.symm {p q : TreePath} (h : p.Apart q) : q.Apart p := ⟨h.2, h.1⟩

theorem apart_of_overlaps {p q : TreePath} (hp : p.IsNormal) (hq : q.IsNormal)
    (h : p.overlaps q = false) : p.Apart q := by
  rw [overlaps, Bool.or_eq_false_iff] at h
  have hwithin : ∀ {p q : TreePath}, p.IsNormal → q.IsNormal → q.location <+: p.location →
      p.isWithin q = true := by
    intro p q hp hq hfront
    rwa [← isWithin_ofLocation_iff, hp.ofLocation_location, hq.ofLocation_location] at hfront
  constructor
  · intro hfront
    rw [hwithin hq hp hfront] at h
    cases h.2
  · intro hfront
    rw [hwithin hp hq hfront] at h
    cases h.1

end TreePath

/-! ## Layout -/

def outputPath : SetUnit ⊕ FileUnit → TreePath := Sum.elim (·.output) (·.output)

def Stage.units (s : Stage) : List (SetUnit ⊕ FileUnit) := s.sets.map .inl ++ s.files.map .inr

namespace Chain

def units (c : Chain) : List (SetUnit ⊕ FileUnit) := c.stages.flatMap (·.units)

/-- No output is in the way of another, or of the patches of a set, and none is the root itself. -/
structure IsLaidOut (c : Chain) : Prop where
  normal : ∀ u ∈ c.units, (outputPath u).IsNormal
  below : ∀ u ∈ c.units, (outputPath u).location ≠ []
  apart : c.units.Pairwise fun u v => (outputPath u).Apart (outputPath v)
  patches : ∀ s ∈ c.stages, ∀ u ∈ s.sets, ∃ place : TreePath, place.IsNormal ∧
    u.patches = c.root.below place ∧ ∀ v ∈ c.units, (outputPath v).Apart place

end Chain

namespace Config

theorem outputsFault?_eq_none_iff {patches outputs : List TreePath} :
    outputsFault? patches outputs = none ↔ outputs.Pairwise (fun p q => p.overlaps q = false) ∧
      ∀ p ∈ outputs, ∀ q ∈ patches, p.overlaps q = false := by
  induction outputs with
  | nil => simp [outputsFault?]
  | cons output outputs ih =>
    rw [outputsFault?]
    constructor
    · intro h
      split at h
      · cases h
      · cases h
      · rename_i hother hpatch
        obtain ⟨hpairs, hpatches⟩ := ih.1 h
        refine ⟨List.pairwise_cons.2 ⟨?_, hpairs⟩, List.forall_mem_cons.2 ⟨?_, hpatches⟩⟩
        · simpa using hother
        · simpa using hpatch
    · rintro ⟨hpairs, hpatches⟩
      obtain ⟨hother, hpairs⟩ := List.pairwise_cons.1 hpairs
      obtain ⟨hpatch, hpatches⟩ := List.forall_mem_cons.1 hpatches
      rw [List.find?_eq_none.2 (by simpa using hother),
        List.find?_eq_none.2 (by simpa using hpatch)]
      exact ih.2 ⟨hpairs, hpatches⟩

variable {c : Config}

theorem settingsFault?_eq_none_iff :
    c.settingsFault? = none ↔ c.source.name.toList.all Text.isBlank = false ∧
      Fetch.isRevision c.source.revision = true ∧ c.source.retry.attempts ≠ 0 ∧ c.context ≠ 0 ∧
        c.stages ≠ [] := by
  unfold settingsFault?
  split_ifs <;> simp_all

/-- The places that a configuration names are given by paths that normalisation gave. -/
def HasNormalPaths (c : Config) : Prop :=
  (∀ p ∈ c.outputs, p.IsNormal) ∧ ∀ p ∈ c.patches, p.IsNormal

instance (c : Config) : Decidable c.HasNormalPaths := inferInstanceAs (Decidable (_ ∧ _))

theorem IsValid.outputs (h : c.IsValid) : c.outputs.Pairwise (fun p q => p.overlaps q = false) ∧
    ∀ p ∈ c.outputs, ∀ q ∈ c.patches, p.overlaps q = false := by
  rw [IsValid, fault?, Option.or_eq_none_iff, Option.or_eq_none_iff, Option.or_eq_none_iff] at h
  exact outputsFault?_eq_none_iff.1 h.2.2.1

theorem map_outputPath_units (c : Config) (root : DiskPath) :
    (c.chain root).units.map outputPath = c.outputs := by
  simp [Chain.units, Stage.units, chain, outputs, List.flatMap_map, List.map_flatMap,
    StageConfig.outputs, StageConfig.stage, outputPath, Function.comp_def]

theorem exists_mem_patches {root : DiskPath} {u : SetUnit ⊕ FileUnit}
    (hu : u ∈ (c.chain root).units) :
    ∃ p, p ∈ c.patches := by
  obtain ⟨stage, hstage, hu⟩ := List.mem_flatMap.1 hu
  obtain ⟨s, hs, rfl⟩ := List.mem_map.1 hstage
  have hpatches : ∀ p ∈ s.patches, p ∈ c.patches := fun p hp => List.mem_flatMap.2 ⟨s, hs, hp⟩
  rcases List.mem_append.1 hu with hu | hu
  · obtain ⟨u, hu, -⟩ := List.mem_map.1 hu
    obtain ⟨v, hv, -⟩ := List.mem_map.1 hu
    exact ⟨v.patches, hpatches _ (List.mem_append_left _ (List.mem_map_of_mem hv))⟩
  · obtain ⟨u, hu, -⟩ := List.mem_map.1 hu
    obtain ⟨v, hv, -⟩ := List.mem_map.1 hu
    exact ⟨v.patch, hpatches _ (List.mem_append_right _ (List.mem_map_of_mem hv))⟩

/-- A valid configuration lays out its project. -/
theorem isLaidOut (h : c.IsValid) (hpaths : c.HasNormalPaths) (root : DiskPath) :
    (c.chain root).IsLaidOut := by
  obtain ⟨hpairs, hpatches⟩ := h.outputs
  have hmem : ∀ u ∈ (c.chain root).units, outputPath u ∈ c.outputs := fun u hu =>
    c.map_outputPath_units root ▸ List.mem_map_of_mem hu
  have hnormal := fun u hu => hpaths.1 _ (hmem u hu)
  have hplace : ∀ u ∈ (c.chain root).units, ∀ p ∈ c.patches,
      (outputPath u).Apart p := fun u hu p hp =>
    TreePath.apart_of_overlaps (hnormal u hu) (hpaths.2 p hp) (hpatches _ (hmem u hu) p hp)
  refine ⟨hnormal, fun u hu hroot => ?below, ?apart, ?patches⟩
  case below =>
    obtain ⟨p, hp⟩ := exists_mem_patches hu
    exact (hplace u hu p hp).1 (hroot ▸ List.nil_prefix)
  case apart =>
    rw [← c.map_outputPath_units root, List.pairwise_map] at hpairs
    exact hpairs.imp_of_mem fun hu hv => TreePath.apart_of_overlaps (hnormal _ hu) (hnormal _ hv)
  case patches =>
    intro stage hstage u hu
    obtain ⟨s, hs, rfl⟩ := List.mem_map.1 hstage
    obtain ⟨v, hv, rfl⟩ := List.mem_map.1 hu
    have hp : v.patches ∈ c.patches :=
      List.mem_flatMap.2 ⟨s, hs, List.mem_append_left _ (List.mem_map_of_mem hv)⟩
    exact ⟨v.patches, hpaths.2 _ hp, rfl, fun w hw => hplace w hw _ hp⟩

end Config

end Patchwork
