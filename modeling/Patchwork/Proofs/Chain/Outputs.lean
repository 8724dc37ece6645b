import Patchwork.Proofs.Chain.Write

/-!
# What written outputs are read as

What is loaded from an output directory is not all that lies there: excluded paths and version
control are passed over, and only paths that normalisation leaves alone can be loaded. An output
that this takes nothing from (`Piece.IsReadable`) is read as what was written
(`Piece.shows_of_write`), also when the others have been written after it (`Piece.shows_of_each`).
-/
namespace Patchwork

open TreePath (ofLocation)

variable {d e : Disk} {root : DiskPath} {dir names : Location}

namespace Store

theorem loadTree_congr {l : Location} (h : d.AgreesAt e root l) (excludes : List TreePath) :
    loadTree root excludes e = loadTree root excludes d := by
  have hfiles : treeFiles excludes e l = treeFiles excludes d l := by
    unfold treeFiles
    rw [Disk.walk_congr h.node?_eq]
  have hnode : e.node? l = d.node? l := by simpa using h.node?_eq []
  simp only [loadTree, h.left, h.right, Except.mapError, bind, Except.bind, hfiles, hnode]

theorem loadTree_of_node?_eq (hp : d.Reaches root dir) (hp' : e.Reaches root dir)
    (hnames : names ≠ [])
    (hnode : ∀ rest, e.node? (dir ++ names ++ rest) = d.node? (dir ++ names ++ rest))
    {excludes : List TreePath} {t : Tree}
    (h : loadTree (root.belowNames names) excludes d = .ok t) :
    loadTree (root.belowNames names) excludes e = .ok t := by
  obtain ⟨l, hl, hload⟩ := Except.bind_eq_ok_iff.1 h
  split_ifs at hload with hnone
  rw [loadTree_congr
    (hp.agreesAt hp' hnames hnode (Except.mapError_eq_ok_iff.1 hl) (by simpa using hnone)), h]

end Store

/-! ## One output -/

/-- Nothing of an output is passed over when it is loaded, and neither its files nor the excluded
ones that are kept beside them have a path that cannot be loaded. -/
structure SetOutput.IsReadable (o : SetOutput) (d : Disk) (root : DiskPath) : Prop where
  paths : ∀ key ∈ o.tree.keys, key.IsFilePath
  shown : ∀ key ∈ o.tree.keys, Store.isPassedOver o.excludes key.location = false
  kept : ∀ present, Store.loadTree (root.below o.output) [] d = .ok present →
    ∀ key ∈ present.keys, key.isExcluded o.excludes = true → key.IsStable

/-- The place of a file that is deleted has names that a disk can have, so the file is found missing
there. -/
def FileOutput.IsReadable (o : FileOutput) : Prop :=
  o.content = none → ∀ name ∈ o.output.location, name.isTooLong = false

instance (o : SetOutput) (d : Disk) (root : DiskPath) : Decidable (o.IsReadable d root) :=
  decidable_of_iff ((∀ key ∈ o.tree.keys, key.IsFilePath) ∧
      (∀ key ∈ o.tree.keys, Store.isPassedOver o.excludes key.location = false) ∧
      ∀ present, Store.loadTree (root.below o.output) [] d = .ok present →
        ∀ key ∈ present.keys, key.isExcluded o.excludes = true → key.IsStable)
    ⟨fun h => ⟨h.1, h.2.1, h.2.2⟩, fun h => ⟨h.paths, h.shown, h.kept⟩⟩

instance (o : FileOutput) : Decidable o.IsReadable := inferInstanceAs (Decidable (_ → _))

namespace Piece

def IsReadable (d : Disk) (root : DiskPath) : Piece → Prop
  | .inl o => o.IsReadable d root
  | .inr o => o.IsReadable

instance (q : Piece) (d : Disk) (root : DiskPath) : Decidable (q.IsReadable d root) :=
  match q with
  | .inl o => inferInstanceAs (Decidable (o.IsReadable d root))
  | .inr o => inferInstanceAs (Decidable o.IsReadable)

def Shows (d : Disk) (root : DiskPath) : Piece → Prop
  | .inl o => Store.loadTree (root.below o.output) o.excludes d = .ok o.tree
  | .inr o => Store.file? (root.below o.output) d = .ok o.content

end Piece

/-- A directory that was written is loaded as the output, without the excluded files that were kept
in it. -/
theorem SetOutput.loadTree_of_write {o : SetOutput} (hp : d.Reaches root dir)
    (houtput : o.output.IsNormal) (hbelow : o.output.location ≠ []) (h : o.IsReadable d root)
    (hwrite : o.write root d = (.ok (), e)) :
    Store.loadTree (root.below o.output) o.excludes e = .ok o.tree := by
  have hkeys : ∀ key ∈ o.tree.keys, key.IsNormal :=
    fun key hkey => (h.paths key hkey).stable.isNormal
  obtain ⟨t, hkept, htkeys, -, htree, -, hl⟩ := of_write hp houtput hbelow hkeys hwrite
  obtain ⟨kept, rfl, hpresent, -⟩ := exists_of_withKept hkept
  have hpassed : ∀ key c, kept.get? key = some c →
      key.IsStable ∧ Store.isPassedOver o.excludes key.location = true := by
    intro key c hc
    obtain ⟨hexcluded, present, hload, hget⟩ := hpresent key c hc
    have hstable := h.kept present hload key (SortedMap.mem_keys_iff.2 ⟨c, hget⟩) hexcluded
    refine ⟨hstable, Store.isPassedOver_of_isExcluded hstable (fun hnil => ?_) hexcluded⟩
    -- The directory itself is no file.
    have hfile := htree.file?_eq []
    rw [List.append_nil, Disk.file?_of_directory htree.isDirectory, ← hnil,
      hstable.ofLocation_location,
      SortedMap.get?_union, hc] at hfile
    cases hfile
  obtain ⟨loaded, hloaded⟩ := (Store.exists_loadTree_of_holdsTree hl htree htkeys).2 (by
    intro key hkey _
    obtain ⟨c, hc⟩ := SortedMap.mem_keys_iff.1 hkey
    rw [SortedMap.get?_union, Option.or_eq_some_iff] at hc
    rcases hc with hc | ⟨-, hc⟩
    · exact (hpassed key c hc).1
    · exact (h.paths key (SortedMap.mem_keys_iff.2 ⟨c, hc⟩)).stable)
  rw [hloaded, Store.loadTree_eq_of_holdsTree hl htree htkeys hloaded]
  refine congrArg _ (SortedMap.ext_get? fun key => ?_)
  have hshown : ∀ c, o.tree.get? key = some c →
      Store.isPassedOver o.excludes key.location = false :=
    fun c hc => h.shown key (SortedMap.mem_keys_iff.2 ⟨c, hc⟩)
  rw [SortedMap.get?_filter, SortedMap.get?_union]
  cases hc : kept.get? key with
  | some c =>
    have hover := (hpassed key c hc).2
    have hnone : o.tree.get? key = none := by
      rw [Option.eq_none_iff_forall_ne_some]
      intro c' hc'
      rw [hshown c' hc'] at hover
      cases hover
    simp [hover, hnone]
  | none =>
    cases hc : o.tree.get? key with
    | none => rfl
    | some c => simp [hshown c hc]

namespace Piece

variable {q : Piece} {ls : Set Location}

theorem IsReadable.hasNormalPaths (h : q.IsReadable d root) : q.HasNormalPaths := by
  cases q with
  | inl o => exact fun key hkey => (h.paths key hkey).stable.isNormal
  | inr o => trivial

theorem shows_of_write (hp : d.Reaches root dir) (hpath : q.path.IsNormal)
    (hbelow : q.path.location ≠ []) (h : q.IsReadable d root)
    (hwrite : q.write root d = (.ok (), e)) : q.Shows e root := by
  cases q with
  | inl o => exact o.loadTree_of_write hp hpath hbelow h hwrite
  | inr o => exact (FileOutput.of_write hp hpath hbelow hwrite).2

section

variable (hp : d.Reaches root dir) (hp' : e.Reaches root dir) (hchange : d.ChangesWithin e ls)
  (hpath : q.path.IsNormal) (hbelow : q.path.location ≠ [])
  (hapart : ∀ l ∈ ls, ¬ l <+: dir ++ q.path.location ∧ ¬ dir ++ q.path.location <+: l)
include hp hp' hchange hpath hbelow hapart

theorem IsReadable.of_changesWithin (h : q.IsReadable d root) : q.IsReadable e root := by
  cases q with
  | inl o =>
    have hplace := root.below_eq (q := o.output) hpath
    refine ⟨h.paths, h.shown, fun present hload => h.kept present ?_⟩
    rw [hplace] at hload ⊢
    exact Store.loadTree_of_node?_eq hp' hp hbelow
      (fun rest => (hchange.node?_append_eq hapart rest).symm) hload
  | inr o => exact h

theorem Shows.of_changesWithin (hfile : ∀ o, q = .inr o → o.IsReadable) (h : q.Shows d root) :
    q.Shows e root := by
  cases q with
  | inl o =>
    simp only [Shows, root.below_eq (q := o.output) hpath] at h ⊢
    exact Store.loadTree_of_node?_eq hp hp' hbelow (hchange.node?_append_eq hapart) h
  | inr o =>
    simp only [Shows, root.below_eq (q := o.output) hpath] at h ⊢
    exact Store.file?_of_changesWithin hp hp' hchange hbelow hapart (hfile o rfl) h

end

/-! ## All outputs -/

/-- When pieces that are in each other's way nowhere have been written, every one is read as it was
written, and nothing else has changed. -/
theorem shows_of_each {qs : List Piece} (hpaths : ∀ q ∈ qs, q.path.IsNormal ∧ q.path.location ≠ [])
    (hapart : qs.Pairwise fun q r => q.path.Apart r.path) (hp : d.Reaches root dir)
    (hreadable : ∀ q ∈ qs, q.IsReadable d root) (h : Store.each (write root) qs d = (.ok (), e)) :
    e.Reaches root dir ∧ d.ChangesWithin e {l | ∃ q ∈ qs, l = dir ++ q.path.location} ∧
      ∀ q ∈ qs, q.Shows e root := by
  induction qs generalizing d with
  | nil =>
    obtain ⟨-, rfl⟩ := Store.pure_eq_ok_iff.1 h
    exact ⟨hp, .refl d _, nofun⟩
  | cons q qs ih =>
    obtain ⟨d₁, hwrite, h⟩ := Store.each_cons_eq_ok_iff.1 h
    obtain ⟨⟨hpath, hbelow⟩, hpaths⟩ := List.forall_mem_cons.1 hpaths
    obtain ⟨hfirst, hapart⟩ := List.pairwise_cons.1 hapart
    obtain ⟨hq, hreadable⟩ := List.forall_mem_cons.1 hreadable
    obtain ⟨hwithin, hp₁⟩ := changesWithin_of_writePiece hp hpath hbelow hq.hasNormalPaths hwrite
    have hreadable₁ : ∀ r ∈ qs, r.IsReadable d₁ root := fun r hr =>
      (hreadable r hr).of_changesWithin hp hp₁ hwithin (hpaths r hr).1 (hpaths r hr).2
        (fun l hl => hl ▸ (hfirst r hr).append dir)
    obtain ⟨hp', hwithin', hshows⟩ := ih hpaths hapart hp₁ hreadable₁ h
    refine ⟨hp', (hwithin.mono ?_).trans (hwithin'.mono ?_), List.forall_mem_cons.2 ⟨?_, hshows⟩⟩
    · rintro l rfl
      exact ⟨_, ⟨q, by simp, rfl⟩, List.prefix_refl _⟩
    · rintro l ⟨r, hr, rfl⟩
      exact ⟨_, ⟨r, by simp [hr], rfl⟩, List.prefix_refl _⟩
    · -- The pieces that come after this one are written elsewhere.
      refine (shows_of_write hp hpath hbelow hq hwrite).of_changesWithin hp₁ hp' hwithin' hpath
        hbelow ?_ ?_
      · rintro l ⟨r, hr, rfl⟩
        exact (hfirst r hr).symm.append dir
      · rintro o rfl
        exact hq

end Piece

end Patchwork
