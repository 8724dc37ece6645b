import Mathlib.Data.List.Perm.Basic
import Patchwork.Proofs.Store.Place
import Patchwork.Proofs.Store.Prune
import Patchwork.Proofs.Store.Series

/-!
# Reading what was written without a series file

Without a series file patches are applied in the order of their files (`InFileOrder`). A stack that
was written is read back in that order exactly if nothing was put into a directory that has the name
of a series file (`read_write_inFileOrder`).
-/
namespace Patchwork.PatchDirectory

open TreePath (ofLocation)

variable {p : PatchDirectory} {d d' : Disk} {dir names : Location} {s : Stack}

/-- The patches are in the order of their files' paths, octet by octet. -/
def InFileOrder (s : Stack) : Prop := s.Pairwise fun a b =>
  (Content.ofText (fileOf a.target).text).toList < (Content.ofText (fileOf b.target).text).toList

instance (s : Stack) : Decidable (InFileOrder s) := List.instDecidablePairwise s

theorem octets_lt_of_compare {file file' : TreePath} (h : compare file file' = .lt) :
    (Content.ofText file.text).toList < (Content.ofText file'.text).toList :=
  Text.octets_lt_of_lt (compareOfLessAndEq_eq_lt.1 h)

theorem InFileOrder.eq_of_perm {t : Stack} (h : InFileOrder s) (h' : InFileOrder t)
    (hperm : s.Perm t) : s = t :=
  hperm.eq_of_pairwise (fun _ _ _ _ hlt hgt => absurd hgt (List.lt_asymm hlt)) h h'

/-! ## Whether there is a series file -/

theorem isTooLong_seriesName : seriesName.isTooLong = false := by decide

theorem readSeries_eq_none_iff (hreach : d.Reaches p.root dir) :
    p.readSeries d = .ok none ↔ p.seriesPath.fault? = none ∧ d.node?
      (dir ++ [seriesName]) = none := by
  have hroot : d.file? dir = none := Disk.file?_of_directory hreach.isDirectory
  have hfree : ∀ k, k <+: [seriesName] → k ≠ [seriesName] → d.file? (dir ++ k) = none := by
    intro k hk hne
    rcases List.prefix_cons_iff.1 hk with rfl | ⟨rest, rfl, hrest⟩
    · rwa [List.append_nil]
    · exact absurd (congrArg _ (List.prefix_nil.1 hrest)) hne
  have hfile : Store.file? p.seriesPath d = .ok none ↔
      p.seriesPath.fault? = none ∧ d.node? (dir ++ [seriesName]) = none := by
    rw [seriesPath_eq,
      Store.file?_belowNames_eq_none_iff hreach (by simp) (by simp [isTooLong_seriesName])]
    exact ⟨fun h => ⟨h.1, h.2.1⟩, fun h => ⟨h.1, h.2, hfree⟩⟩
  rw [← hfile, readSeries, Except.bind_eq_ok_iff]
  constructor
  · rintro ⟨found, hfound, h⟩
    cases found with
    | none => exact hfound
    | some content =>
      obtain ⟨entries, -, h⟩ := Except.map_eq_ok_iff.1 h
      cases h
  · exact fun h => ⟨none, h, rfl⟩

theorem eq_none_of_readSeries (hreach : d.Reaches p.root dir)
    (hfile : d.file? (dir ++ [seriesName]) = none) {listed : Option (List TreePath)}
    (h : p.readSeries d = .ok listed) : listed = none := by
  obtain ⟨found, hfound, h⟩ := Except.bind_eq_ok_iff.1 h
  cases found with
  | none => exact (Except.ok.inj h).symm
  | some content =>
    obtain ⟨l, hl, hcontent⟩ := Store.exists_locate_of_file? hfound
    rw [seriesPath_eq] at hl
    rw [hreach.eq_of_locate (by simp) hl, hfile] at hcontent
    cases hcontent

/-! ## Reading in the order of the files -/

namespace Written

variable (h : p.Written s d d' dir)
include h

theorem exists_mapM_readPatch (hreach : d'.Reaches p.root dir) (hroot : d'.locate p.root = .ok dir)
    (htargets : ∀ patch ∈ s, patch.target.IsFilePath) (hnodup : (s.map (·.target)).Nodup) :
    ∃ found t, p.files d' = .ok found ∧ found.mapM (p.readPatch d') = .ok t ∧ t.Perm s ∧
      InFileOrder t := by
  obtain ⟨found, hfound, hmem⟩ := h.exists_files hroot htargets
  have hsorted := pairwise_files hroot (h.isStable_of_mem htargets) hfound
  have hdistinct : found.Nodup := hsorted.imp fun hlt heq => by
    simp [heq, Std.ReflCmp.compare_self] at hlt
  have hfiles : found.Perm (s.map fun patch => fileOf patch.target) := by
    have hinj := hnodup.map fileOf_injective
    rw [List.map_map] at hinj
    exact (List.perm_ext_iff_of_nodup hdistinct hinj).2 fun file => by simp [hmem]
  have hread : List.Forall₂ (fun file patch => p.readPatch d' file = .ok patch ∧
      file = fileOf patch.target) (s.map fun patch => fileOf patch.target) s := by
    rw [List.forall₂_map_left_iff, List.forall₂_same]
    exact fun patch hpatch => ⟨h.readPatch_eq hreach hpatch (htargets patch hpatch), rfl⟩
  obtain ⟨t, ht, hperm⟩ := List.perm_comp_forall₂ hfiles hread
  have hmap : found = t.map fun patch => fileOf patch.target := by
    rw [← List.forall₂_eq_eq_eq, List.forall₂_map_right_iff]
    exact ht.imp fun _ _ h => h.2
  refine ⟨found, t, hfound, Except.mapM_eq_ok_iff.2 (ht.imp fun _ _ h => h.1), hperm, ?_⟩
  rw [hmap, List.pairwise_map] at hsorted
  exact hsorted.imp octets_lt_of_compare

/-- The stack is read back in the order of its files if there is no series file. -/
theorem exists_read_iff (hreach : d'.Reaches p.root dir) (hroot : d'.locate p.root = .ok dir)
    (htargets : ∀ patch ∈ s, patch.target.IsFilePath) (hnodup : (s.map (·.target)).Nodup)
    (hfile : d'.file? (dir ++ [seriesName]) = none) :
    (∃ t, p.read d' = .ok t ∧ t.Perm s ∧ InFileOrder t) ↔ p.readSeries d' = .ok none := by
  have hholds : d'.holds p.root = true := Disk.holds_iff.2 ⟨dir, _, hroot, hreach.isDirectory⟩
  obtain ⟨found, t, hfound, hread, hperm, horder⟩ :=
    h.exists_mapM_readPatch hreach hroot htargets hnodup
  rw [read, if_pos hholds]
  constructor
  · rintro ⟨t', hread', -⟩
    obtain ⟨files, hfiles, -⟩ := Except.bind_eq_ok_iff.1 hread'
    obtain ⟨found', -, hfiles⟩ := Except.bind_eq_ok_iff.1 hfiles
    obtain ⟨listed, hlisted, -⟩ := Except.bind_eq_ok_iff.1 hfiles
    rw [hlisted, eq_none_of_readSeries hreach hfile hlisted]
  · intro hseries
    refine ⟨t, Except.bind_eq_ok_iff.2 ⟨found, ?_, hread⟩, hperm, horder⟩
    exact Except.bind_eq_ok_iff.2 ⟨found, hfound, Except.bind_eq_ok_iff.2 ⟨none, hseries, rfl⟩⟩

/-- Nothing has the name of a series file, unless a target is meant to lie below it. -/
theorem node?_series_eq_none_iff (hwrite : p.write s d = (.ok (), d'))
    (hreach : d'.Reaches p.root dir) (hfree : d.node? (dir ++ [seriesName]) = none) :
    d'.node? (dir ++ [seriesName]) = none ↔
      ∀ patch ∈ s, ¬ [seriesName] <+: fileLocation patch.target := by
  constructor
  · intro hnone patch hpatch hbelow
    have hfile := h.patch patch hpatch
    rw [Disk.file?_of_none
      (Disk.node?_of_prefix_of_none hnone ((List.prefix_append_right_inj dir).2 hbelow))] at hfile
    cases hfile
  · intro hbelow
    have hnofile := h.noSeries (Disk.file?_of_none hfree)
    cases hnode : d'.node? (dir ++ [seriesName]) with
    | none => rfl
    | some node =>
      cases node with
      | file content => rw [Disk.file?_eq_some_iff.2 hnode] at hnofile; cases hnofile
      | directory =>
        -- A directory is left with a file below it, which no patch has put there and which was not
        -- there before.
        obtain ⟨-, -, -, -, -, d₄, -, -, -, -, -, hprune⟩ := write_eq_ok_iff.1 hwrite
        obtain ⟨rest, content, hfile⟩ := exists_file?_of_prune hprune hreach (by simp) hnode
        by_cases hpatch : IsPatchLocation (dir ++ ([seriesName] ++ rest))
        · rw [List.append_assoc, h.stale _ hpatch] at hfile
          · cases hfile
          · rintro patch hmem heq
            exact hbelow patch hmem ⟨rest, heq⟩
        · rw [List.append_assoc] at hfile
          have hne : dir ++ ([seriesName] ++ rest) ≠ dir ++ [seriesName] := by
            intro heq
            rw [heq, hnofile] at hfile
            cases hfile
          rw [h.other _ (fun _ => hpatch) hne, ← List.append_assoc,
            Disk.file?_of_none
              (Disk.node?_of_prefix_of_none hfree (List.prefix_append _ _))] at hfile
          cases hfile

end Written

/-- A stack that was written where nothing has the name of a series file is read back, in the order
of its files, exactly if nothing was put below that name. It is empty if the root is no longer
reached, which its path goes up for. -/
theorem read_write_inFileOrder
    (hfree : ∀ dir ∈ p.root.location?, d.node? (dir ++ [seriesName]) = none)
    (hstable : p.HasStableFiles d) (htargets : ∀ patch ∈ s, patch.target.IsFilePath)
    (hwrite : p.write s d = (.ok (), d')) :
    ((∃ t, p.read d' = .ok t ∧ t.Perm s ∧ InFileOrder t) ↔
      if d'.holds p.root then
        p.seriesPath.fault? = none ∧ ∀ patch ∈ s, ¬ [seriesName] <+: fileLocation patch.target
      else s = []) ∧
    (.up ∉ p.root.steps → d'.holds p.root = true) := by
  obtain ⟨dir, h⟩ := written_of_write hstable htargets hwrite
  refine ⟨?_, h.reached⟩
  cases hholds : d'.holds p.root with
  | false =>
    rw [read, hholds, if_neg Bool.false_ne_true, if_neg Bool.false_ne_true]
    constructor
    · rintro ⟨t, ht, hperm, -⟩
      obtain rfl := Except.ok.inj ht
      exact hperm.symm.eq_nil
    · rintro rfl
      exact ⟨[], rfl, .refl _, .nil⟩
  | true =>
    have hreach := h.reaches hholds
    obtain ⟨l, -, hl, -⟩ := Disk.holds_iff.1 hholds
    obtain rfl : l = dir := Option.some.inj ((Disk.location?_of_locate hl).symm.trans h.location)
    have hfree := hfree l h.location
    have hnodup := (duplicate?_eq_none_iff.1 (write_eq_ok_iff.1 hwrite).1).1
    rw [if_pos rfl,
      h.exists_read_iff hreach hl htargets hnodup (h.noSeries (Disk.file?_of_none hfree)),
      readSeries_eq_none_iff hreach, h.node?_series_eq_none_iff hwrite hreach hfree]

/-- A `.` comes before a `/`, so a file may come before what lies in a directory whose name it
starts with. -/
theorem read_write_inFileOrder_dotted :
    let p : PatchDirectory := ⟨⟨"p"⟩⟩
    let d := diskOfFiles [("p/dir/old.patch", "x")]
    let s : Stack := [⟨⟨"series"⟩, "z"⟩, ⟨⟨"a/c"⟩, "y"⟩, ⟨⟨"a.b"⟩, "x"⟩]
    p.write s d = (.ok (), (p.write s d).2) ∧
      ∃ t, p.read (p.write s d).2 = .ok t ∧ t.Perm s ∧ InFileOrder t := by
  intro p d s
  have hwrite : p.write s d = (.ok (), (p.write s d).2) :=
    Prod.ext (show (p.write s d).1 = .ok () by decide +kernel) rfl
  obtain ⟨hread, hroot⟩ := read_write_inFileOrder (p := p) (s := s) (d := d) (by decide +kernel)
    (by decide +kernel) (by decide +kernel) hwrite
  rw [if_pos (hroot (by decide +kernel))] at hread
  exact ⟨hwrite, hread.2 (by decide +kernel)⟩

/-- A target below `series` makes a directory of that name, which is then read as a series file. -/
theorem not_forall_read_write_inFileOrder :
    ¬ ∀ (p : PatchDirectory) (s : Stack) (d d' : Disk),
      (∀ dir ∈ p.root.location?, d.node? (dir ++ [seriesName]) = none) → p.HasStableFiles d →
      (s.map (·.target)).Nodup → (∀ patch ∈ s, patch.target.IsFilePath) →
      p.write s d = (.ok (), d') →
      ∃ t, p.read d' = .ok t ∧ t.Perm s ∧ InFileOrder t := by
  intro h
  let p : PatchDirectory := ⟨⟨"p"⟩⟩
  let s : Stack := [⟨⟨"series/x"⟩, "b"⟩]
  obtain ⟨t, hread, -⟩ := h p s .empty (p.write s .empty).2 (by decide +kernel) (by decide +kernel)
    (by decide +kernel) (by decide +kernel)
      (Prod.ext (show (p.write s .empty).1 = .ok () by decide +kernel) rfl)
  have hunread : ¬ ∃ t, p.read (p.write s .empty).2 = .ok t := by decide +kernel
  exact hunread ⟨t, hread⟩

end Patchwork.PatchDirectory
