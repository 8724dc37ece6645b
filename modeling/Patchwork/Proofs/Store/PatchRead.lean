import Patchwork.Proofs.Disk.Region
import Patchwork.Proofs.Store.PatchWrite

/-!
# What the patches that are read depend on

Reading a patch directory looks at what lies at its root and below, and nowhere else (`read_congr`),
so the same is read as long as nothing changes there (`read_of_node?_eq`). Whatever lies there, the
patches that are read are meant for files with well-formed paths (`isFilePath_of_mem_read`).
-/
namespace Patchwork

theorem Store.file?_congr {d e : Disk} {p : DiskPath} (h : e.content p = d.content p) :
    file? p e = file? p d := by
  rw [file?, file?, h]

namespace PatchDirectory

variable {p : PatchDirectory} {d e : Disk} {l : Location}

/-! ## Reading what is the same -/

section

variable (h : d.AgreesAt e p.root l)
include h

theorem nodeAt_below_congr {file : TreePath} (hfile : file.IsNormal) :
    e.nodeAt (p.root.below file) = d.nodeAt (p.root.below file) := by
  rw [DiskPath.below_eq _ hfile]
  exact h.nodeAt_eq _

theorem files_congr : p.files e = p.files d := by
  have hnames : patchNames e l = patchNames d l := by
    unfold patchNames
    rw [Disk.walk_congr h.node?_eq]
  simp only [files, h.left, h.right, Except.mapError, bind, Except.bind, hnames]

theorem readEntries_congr (line : Nat) (css : List (List Char)) :
    p.readEntries e line css = p.readEntries d line css := by
  induction css generalizing line with
  | nil => rfl
  | cons cs css ih =>
    unfold readEntries
    split
    · exact ih _
    · rename_i entry hentry
      cases hfile : TreePath.ofString entry with
      | error fault => simp only [Except.mapError, bind, Except.bind]
      | ok file =>
        have hholds : e.holdsFile (p.root.below file) = d.holdsFile (p.root.below file) := by
          rw [Disk.holdsFile, Disk.holdsFile, nodeAt_below_congr h ⟨entry, hfile⟩]
        simp only [Except.mapError, bind, Except.bind, hholds, ih]

theorem readSeries_congr : p.readSeries e = p.readSeries d := by
  have hseries : e.content p.seriesPath = d.content p.seriesPath := h.content_eq [seriesName]
  rw [readSeries, readSeries, Store.file?_congr hseries]
  simp only [readEntries_congr h]

theorem order_congr : p.order e = p.order d := by
  rw [order, order, files_congr h, readSeries_congr h]

theorem readPatch_congr {file : TreePath} (hfile : file.IsNormal) :
    p.readPatch e file = p.readPatch d file := by
  rw [readPatch, readPatch, Disk.text, Disk.text, Disk.content, Disk.content,
    nodeAt_below_congr h hfile]

end

theorem isNormal_of_mem_readEntries {line : Nat} {css : List (List Char)} {entries : List TreePath}
    (h : p.readEntries d line css = .ok entries) : ∀ file ∈ entries, file.IsNormal := by
  induction css generalizing line entries with
  | nil =>
    obtain rfl := Except.ok.inj h
    nofun
  | cons cs css ih =>
    unfold readEntries at h
    split at h
    · exact ih h
    · obtain ⟨file, hfile, h⟩ := Except.bind_eq_ok_iff.1 h
      split_ifs at h
      obtain ⟨rest, hrest, h⟩ := Except.bind_eq_ok_iff.1 h
      obtain rfl := Except.ok.inj h
      exact List.forall_mem_cons.2 ⟨⟨_, Except.mapError_eq_ok_iff.1 hfile⟩, ih hrest⟩

theorem isNormal_of_mem_files {found : List TreePath} (h : p.files d = .ok found) :
    ∀ file ∈ found, file.IsNormal := by
  obtain ⟨dir, -, h⟩ := Except.bind_eq_ok_iff.1 h
  obtain ⟨unsorted, hunsorted, h⟩ := Except.bind_eq_ok_iff.1 h
  obtain rfl := Except.ok.inj h
  intro file hfile
  obtain ⟨names, -, hname⟩ :=
    (Except.mem_iff_of_mapM_eq_ok hunsorted).1 (List.mem_mergeSort.1 hfile)
  exact ⟨_, Except.mapError_eq_ok_iff.1 hname⟩

theorem isNormal_of_mem_order {files : List TreePath} (h : p.order d = .ok files) :
    ∀ file ∈ files, file.IsNormal := by
  obtain ⟨found, hfound, h⟩ := Except.bind_eq_ok_iff.1 h
  obtain ⟨listed, hlisted, h⟩ := Except.bind_eq_ok_iff.1 h
  cases listed with
  | none =>
    obtain rfl := Except.ok.inj h
    exact isNormal_of_mem_files hfound
  | some entries =>
    obtain ⟨content, -, hlisted⟩ := Except.bind_eq_ok_iff.1 hlisted
    dsimp only at h
    split at h
    · cases h
    · obtain rfl := Except.ok.inj h
      cases content with
      | none => cases hlisted
      | some content =>
        obtain ⟨entries, hentries, heq⟩ := Except.map_eq_ok_iff.1 hlisted
        obtain rfl := Option.some.inj heq
        exact isNormal_of_mem_readEntries hentries

theorem read_congr (h : d.AgreesAt e p.root l) : p.read e = p.read d := by
  have hholds : e.holds p.root = d.holds p.root := by
    rw [Disk.holds, Disk.holds, show e.nodeAt p.root = d.nodeAt p.root from h.nodeAt_eq []]
  unfold read
  rw [hholds, order_congr h]
  split
  · cases horder : p.order d with
    | error fault => simp only [bind, Except.bind]
    | ok files =>
      exact Except.mapM_congr fun file hfile =>
        readPatch_congr h (isNormal_of_mem_order horder file hfile)
  · rfl

/-- The patches that are read below a directory that is reached stay the same if what lies there
does. -/
theorem read_of_node?_eq {root : DiskPath} {dir names : Location} (hp : d.Reaches root dir)
    (hp' : e.Reaches root dir) (hnames : names ≠ [])
    (hnode : ∀ rest, e.node? (dir ++ names ++ rest) = d.node? (dir ++ names ++ rest)) :
    read ⟨root.belowNames names⟩ e = read ⟨root.belowNames names⟩ d := by
  cases hholds : d.holds (root.belowNames names) with
  | true =>
    obtain ⟨l, node, hl, hsome⟩ := Disk.holds_iff.1 hholds
    exact read_congr (hp.agreesAt hp' hnames hnode hl (by simp [hsome]))
  | false =>
    -- A directory that is not there is not made either.
    have hholds' : e.holds (root.belowNames names) = false := by
      rw [← Bool.not_eq_true, Disk.holds_iff] at hholds ⊢
      rintro ⟨l, node, hl, hsome⟩
      obtain rfl := hp'.eq_of_locate hnames hl
      have hplace : d.node? (dir ++ names) = some node := by simpa [hsome] using (hnode []).symm
      exact hholds ⟨_, node, hp.locate_belowNames hnames hl hplace, hplace⟩
    unfold read
    rw [hholds, hholds']
    rfl

/-- Whatever lies in a patch directory, a patch that is read from it is meant for a well-formed
path. -/
theorem isFilePath_of_mem_read {s : Stack} (h : p.read d = .ok s) :
    ∀ patch ∈ s, patch.target.IsFilePath := by
  unfold read at h
  split_ifs at h
  · obtain ⟨files, horder, h⟩ := Except.bind_eq_ok_iff.1 h
    intro patch hpatch
    obtain ⟨file, hfile, hread⟩ := (Except.mem_iff_of_mapM_eq_ok h).1 hpatch
    obtain ⟨body, -, hread⟩ := Except.bind_eq_ok_iff.1 hread
    obtain ⟨target, htarget, hread⟩ := Except.bind_eq_ok_iff.1 hread
    obtain rfl := Except.ok.inj hread
    exact isFilePath_of_targetOf (isNormal_of_mem_order horder file hfile) htarget
  · obtain rfl := Except.ok.inj h
    nofun

end PatchDirectory

end Patchwork
