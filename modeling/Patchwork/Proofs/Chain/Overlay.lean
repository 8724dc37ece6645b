import Patchwork.Proofs.Chain.Write
import Patchwork.Proofs.Tree.Region

/-!
# What a stage leaves behind

An output that is laid over a tree changes nothing but paths within its own
(`Piece.get?_overlay_of_not_isWithin`), and what it leaves at a path depends on nothing but what
stood there (`Piece.get?_overlay_congr`). If no two outputs overlap, each path is therefore up to
one of them at most (`Piece.get?_overlayAll`), in whatever order they are laid over the tree
(`Piece.overlayAll_perm`). This is so for every stage of a valid configuration
(`Config.overlay_pathByPath`).
-/
namespace Patchwork

variable {t u : Tree} {path : TreePath}

/-! ## One output -/

theorem FileOutput.get?_overlay (o : FileOutput) (t : Tree) (path : TreePath) :
    (o.overlay t).get? path = if path = o.output then o.content else t.get? path := by
  unfold overlay
  cases o.content <;> simp

namespace Piece

variable {q : Piece} {qs rs : List Piece}

def overlay (t : Tree) : Piece → Tree := Sum.elim (·.overlay t) (·.overlay t)

theorem get?_overlay_of_not_isWithin (h : path.isWithin q.path = false) :
    (q.overlay t).get? path = t.get? path := by
  cases q with
  | inl o => exact Tree.get?_graft_clearRegion_of_not_isWithin h
  | inr o =>
    refine (o.get?_overlay t path).trans (if_neg ?_)
    rintro rfl
    exact absurd (TreePath.isWithin_refl _) (by simpa [Piece.path] using h)

theorem get?_overlay_congr (h : t.get? path = u.get? path) (q : Piece) :
    (q.overlay t).get? path = (q.overlay u).get? path := by
  cases q with
  | inl o =>
    simp only [overlay, Sum.elim_inl, SetOutput.overlay, Tree.get?_graft, Tree.clearRegion,
      SortedMap.get?_filter, h]
  | inr o => simp only [overlay, Sum.elim_inr, FileOutput.get?_overlay, h]

/-! ## All outputs -/

def overlayAll (t : Tree) (qs : List Piece) : Tree := qs.foldl overlay t

theorem overlayAll_cons : overlayAll t (q :: qs) = overlayAll (q.overlay t) qs := rfl

theorem get?_overlayAll_of_not_isWithin (h : ∀ q ∈ qs, path.isWithin q.path = false) :
    (overlayAll t qs).get? path = t.get? path := by
  induction qs generalizing t with
  | nil => rfl
  | cons q qs ih =>
    obtain ⟨hq, h⟩ := List.forall_mem_cons.1 h
    rw [overlayAll_cons, ih h, get?_overlay_of_not_isWithin hq]

/-- If no places overlap, a path in one of them holds what the piece leaves that lies there. -/
theorem get?_overlayAll (hpairs : qs.Pairwise fun q r => q.path.overlaps r.path = false)
    (hq : q ∈ qs) (hpath : path.isWithin q.path = true) :
    (overlayAll t qs).get? path = (q.overlay t).get? path := by
  induction qs generalizing t with
  | nil => cases hq
  | cons first qs ih =>
    obtain ⟨hfirst, hpairs⟩ := List.pairwise_cons.1 hpairs
    rw [overlayAll_cons]
    rcases List.mem_cons.1 hq with rfl | hq
    · exact get?_overlayAll_of_not_isWithin fun r hr => TreePath.isWithin_eq_false
        (hfirst r hr) hpath
    · have hout : path.isWithin first.path = false :=
        TreePath.isWithin_eq_false (TreePath.overlaps_comm _ _ ▸ hfirst q hq) hpath
      rw [ih hpairs hq, get?_overlay_congr (get?_overlay_of_not_isWithin hout)]

theorem overlayAll_perm (hpairs : qs.Pairwise fun q r => q.path.overlaps r.path = false)
    (hperm : rs.Perm qs) :
    overlayAll t rs = overlayAll t qs := by
  have hpairs' : rs.Pairwise fun q r => q.path.overlaps r.path = false :=
    hpairs.perm hperm.symm fun h => TreePath.overlaps_comm _ _ ▸ h
  refine SortedMap.ext_get? fun path => ?_
  by_cases hpath : ∃ q ∈ qs, path.isWithin q.path = true
  · obtain ⟨q, hq, hwithin⟩ := hpath
    rw [get?_overlayAll hpairs hq hwithin, get?_overlayAll hpairs' (hperm.mem_iff.2 hq) hwithin]
  · have hout : ∀ q ∈ qs, path.isWithin q.path = false := by simpa using hpath
    rw [get?_overlayAll_of_not_isWithin hout,
      get?_overlayAll_of_not_isWithin fun q hq => hout q (hperm.mem_iff.1 hq)]

end Piece

namespace StageOutput

theorem overlay_eq (o : StageOutput) (t : Tree) : o.overlay t = Piece.overlayAll t o.pieces := by
  simp [overlay, Piece.overlayAll, pieces, List.foldl_append, List.foldl_map, Piece.overlay]

theorem IsOf.map_path {o : StageOutput} {s : Stage} (h : o.IsOf s) :
    o.pieces.map (·.path) = s.units.map outputPath := by
  rw [← List.forall₂_eq_eq_eq, List.forall₂_map_left_iff, List.forall₂_map_right_iff]
  exact h.pieces.imp fun _ _ hq => hq.path_eq

end StageOutput

namespace Config

variable {c : Config} {root : DiskPath} {stage : Stage} {o : StageOutput}

theorem IsValid.pairwise_pieces (h : c.IsValid) (hstage : stage ∈ (c.chain root).stages)
    (ho : o.IsOf stage) :
    o.pieces.Pairwise fun q r => q.path.overlaps r.path = false := by
  have hpairs := h.outputs.1
  rw [← c.map_outputPath_units root, Chain.units, List.map_flatMap, List.pairwise_flatMap] at hpairs
  have hunits := hpairs.1 stage hstage
  rwa [← ho.map_path, List.pairwise_map] at hunits

theorem path_mem_outputs (hstage : stage ∈ (c.chain root).stages) (ho : o.IsOf stage) {q : Piece}
    (hq : q ∈ o.pieces) : q.path ∈ c.outputs := by
  have hpath := List.mem_map_of_mem (f := Piece.path) hq
  rw [ho.map_path] at hpath
  obtain ⟨u, hu, hpath⟩ := List.mem_map.1 hpath
  rw [← c.map_outputPath_units root, ← hpath]
  exact List.mem_map_of_mem (List.mem_flatMap.2 ⟨stage, hstage, hu⟩)

/-- What the next stage finds when the outputs of a stage of a valid configuration are laid over its
input. A path below the place of a set holds what the set has there, and otherwise what the input
has, if it is excluded, or nothing; the place of a file holds what the file does; every other path
holds what the input does. The order of the sets and of the files makes no difference. -/
theorem overlay_pathByPath (c : Config) (hvalid : c.IsValid) (hpaths : c.HasNormalPaths)
    {root : DiskPath} {stage : Stage} (hstage : stage ∈ (c.chain root).stages) {o : StageOutput}
    (ho : o.IsOf stage) (input : Tree) :
    (∀ set ∈ o.sets, ∀ p : TreePath, p.IsNormal → (o.overlay input).get? (set.output.join p) =
        (set.tree.get? p).or (if p.isExcluded set.excludes then input.get? (set.output.join p)
          else none)) ∧
      (∀ file ∈ o.files, (o.overlay input).get? file.output = file.content) ∧
      (∀ path : TreePath, path.IsNormal → (∀ set ∈ o.sets, ∀ p : TreePath, p.IsNormal →
        set.output.join p ≠ path) →
        (∀ file ∈ o.files, file.output ≠ path) → (o.overlay input).get? path = input.get? path) ∧
      ∀ o' : StageOutput, o'.sets.Perm o.sets → o'.files.Perm o.files →
      o'.overlay input = o.overlay input := by
  have hpairs := hvalid.pairwise_pieces hstage ho
  simp only [StageOutput.overlay_eq]
  refine ⟨fun set hset p hp => ?sets, fun file hfile => ?files, fun path hpath hsets hfiles =>
    ?others, fun o' hsets hfiles => ?order⟩
  case sets =>
    have hmem : .inl set ∈ o.pieces := List.mem_append_left _ (List.mem_map_of_mem hset)
    have hwithin : (set.output.join p).isWithin (Piece.path (.inl set)) = true :=
      TreePath.isWithin_join _ _
    rw [Piece.get?_overlayAll hpairs hmem hwithin]
    exact Tree.get?_graft_clearRegion_join hp
  case files =>
    have hmem : .inr file ∈ o.pieces := List.mem_append_right _ (List.mem_map_of_mem hfile)
    have hwithin : file.output.isWithin (Piece.path (.inr file)) = true := TreePath.isWithin_refl _
    rw [Piece.get?_overlayAll hpairs hmem hwithin]
    exact (file.get?_overlay input file.output).trans (if_pos rfl)
  case others =>
    by_cases hwithin : ∃ q ∈ o.pieces, path.isWithin q.path = true
    · obtain ⟨q, hq, hwithin⟩ := hwithin
      have hnormal := hpaths.1 q.path (path_mem_outputs hstage ho hq)
      rw [Piece.get?_overlayAll hpairs hq hwithin]
      rcases List.mem_append.1 hq with hq | hq
      · obtain ⟨set, hset, rfl⟩ := List.mem_map.1 hq
        obtain ⟨p, hp, hjoin⟩ := hpath.exists_join hnormal hwithin
        exact absurd hjoin (hsets set hset p hp)
      · -- A path below the place of a file is none of the output's.
        obtain ⟨file, hfile, rfl⟩ := List.mem_map.1 hq
        exact (file.get?_overlay input path).trans (if_neg (Ne.symm (hfiles file hfile)))
    · exact Piece.get?_overlayAll_of_not_isWithin (by simpa using hwithin)
  case order =>
    refine Piece.overlayAll_perm hpairs ?_
    exact (hsets.map _).append (hfiles.map _)

/-- A project of two sets whose output directories have names that start alike, and of one file. -/
def sideBySide : Config where
  source := ⟨"base", none, "main", .default⟩
  stages := [⟨"stage", [⟨"api", ⟨"src"⟩, ⟨"out/api"⟩, ⟨"patches/api"⟩, [⟨"gen"⟩]⟩,
      ⟨"apis", ⟨"src"⟩, ⟨"out/apis"⟩, ⟨"patches/apis"⟩, []⟩],
    [⟨⟨"notes"⟩, ⟨"out/notes"⟩, ⟨"patches/notes.patch"⟩⟩]⟩]
  context := 3

def sideBySideSets : List SetOutput :=
  [⟨"api", ⟨"out/api"⟩, [⟨"gen"⟩], .single ⟨"a"⟩ (some (.ofText "one\n"))⟩,
    ⟨"apis", ⟨"out/apis"⟩, [], .empty⟩]

/-- Beside a new file an excluded one is kept and an old one is dropped; the single file is
deleted. -/
theorem overlay_pathByPath_sideBySide :
    let o : StageOutput := ⟨"stage", sideBySideSets, [⟨⟨"out/notes"⟩, none⟩]⟩
    let input : Tree :=
      .ofList [(⟨"out/api/gen/x"⟩, .ofText "kept\n"), (⟨"out/api/old"⟩, .ofText "old\n"),
      (⟨"out/notes"⟩, .ofText "gone\n"), (⟨"out/notes.txt"⟩, .ofText "other\n")]
    sideBySide.IsValid ∧ sideBySide.HasNormalPaths ∧
      (∃ stage ∈ (sideBySide.chain ⟨"."⟩).stages, o.IsOf stage) ∧
      (o.overlay input).get? ⟨"out/api/a"⟩ = some (.ofText "one\n") ∧
      (o.overlay input).get? ⟨"out/api/gen/x"⟩ = some (.ofText "kept\n") ∧
      (o.overlay input).get? ⟨"out/api/old"⟩ = none ∧ (o.overlay input).get? ⟨"out/notes"⟩ = none ∧
      (o.overlay input).get? ⟨"out/notes.txt"⟩ = some (.ofText "other\n") ∧
      StageOutput.overlay { o with sets := sideBySideSets.reverse } input = o.overlay input := by
  intro o input
  have hvalid : sideBySide.IsValid := by decide +kernel
  have hpaths : sideBySide.HasNormalPaths := by decide +kernel
  obtain ⟨stage, hstage, ho⟩ : ∃ stage ∈ (sideBySide.chain ⟨"."⟩).stages, o.IsOf stage :=
    ⟨_, List.mem_map_of_mem (List.mem_singleton_self _),
      .cons ⟨_, rfl⟩ (.cons ⟨_, rfl⟩ .nil), .cons rfl .nil⟩
  obtain ⟨hsets, hfiles, hothers, horder⟩ :=
    overlay_pathByPath sideBySide hvalid hpaths hstage ho input
  have hapi :=
    hsets ⟨"api", ⟨"out/api"⟩, [⟨"gen"⟩], .single ⟨"a"⟩ (some (.ofText "one\n"))⟩ List.mem_cons_self
  have hnew := hapi ⟨"a"⟩ (by decide +kernel)
  have hkept := hapi ⟨"gen/x"⟩ (by decide +kernel)
  have hold := hapi ⟨"old"⟩ (by decide +kernel)
  have hout : ∀ set ∈ sideBySideSets, (⟨"out/notes.txt"⟩ : TreePath).isWithin set.output =
    false := by decide +kernel
  have hother := hothers ⟨"out/notes.txt"⟩ (by decide +kernel) (fun set hset p _ hjoin => by
    have hwithin := TreePath.isWithin_join set.output p
    rw [hjoin, hout set hset] at hwithin
    cases hwithin) (by decide +kernel)
  refine ⟨hvalid, hpaths, ⟨stage, hstage, ho⟩, hnew.trans (by decide +kernel),
    hkept.trans (by decide +kernel), hold.trans (by decide +kernel), hfiles _ List.mem_cons_self,
    hother.trans (by decide +kernel), ?_⟩
  exact horder _ (List.reverse_perm _) (.refl _)

end Config

end Patchwork
