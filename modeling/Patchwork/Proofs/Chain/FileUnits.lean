import Patchwork.Proofs.Chain.Regenerate
import Patchwork.Proofs.Patch.NormalForm
import Patchwork.Proofs.Stack.FileByFile
import Patchwork.Proofs.Store.Series

/-!
# Patches of single files are applied as they were made

The file of a unit holds one patch of the unit's own path or none, and is read as that
(`FileUnit.stored_eq_stackOf`). So a unit that was regenerated or rebased makes the same output when
it is applied (`FileUnit.apply_regenerate_rebase`), with one exception: where the file is missing
both in the input and in the output there is no patch, and a unit without a patch needs the file.
-/
namespace Patchwork

namespace Patch

theorem render_ne_empty (p : Patch) : p.render ≠ "" := by
  intro h
  have := congrArg String.toList h
  simp [render] at this

end Patch

theorem StoredPatch.isSome_of_onFile {p : StoredPatch} {old new : Option Content}
    (h : p.onFile old = .ok new) : old.isSome ∨ new.isSome := by
  obtain ⟨patch, -, hpatch⟩ := StoredPatch.onFile_eq_ok_iff.1 h
  obtain ⟨a, b, rfl, rfl, hturns, -⟩ := Patch.onFile_eq_ok_iff.1 hpatch
  rw [Option.isSome_map, Option.isSome_map]
  cases hk : patch.kind <;> rw [hk] at hturns
  · exact .inl hturns.1
  · exact .inr hturns.2
  · exact .inl hturns.1

theorem Store.fits_of_file? {d : Disk} (hd : d.Fits) {p : DiskPath} {content : Option Content}
    (h : file? p d = .ok content) : ∀ c ∈ content, c.size ≤ Content.maxSize := by
  rintro c rfl
  obtain ⟨l, -, hl⟩ := exists_locate_of_file? h
  exact hd l c (Disk.file?_eq_some_iff.1 hl)

theorem Tree.fits_single {path : TreePath} {content : Option Content}
    (h : ∀ c ∈ content, c.size ≤ Content.maxSize) : (Tree.single path content).Fits := by
  intro p c hc
  rw [Tree.get?_single] at hc
  split at hc
  · exact h c hc
  · cases hc

namespace Stack

variable {context : Nat}

theorem keys_union_single (path : TreePath) (old new : Option Content) :
    ((Tree.single path old).union (Tree.single path new)).keys =
      if old = none ∧ new = none then [] else [path] := by
  have hunion : (Tree.single path old).union (Tree.single path new) =
      Tree.single path (new.or old) := by
    apply SortedMap.ext_get?
    intro p
    by_cases hp : p = path <;> simp [hp]
  rw [hunion]
  cases new <;> cases old <;> rfl

theorem arrange_singleton (p : StoredPatch) (order : List TreePath) :
    arrange [p] order = [p] := List.perm_singleton.1 (arrange_perm _ order)

/-- Between versions of one file there is at most one patch, and there is one if they differ. -/
theorem exists_of_regenerate_single {path : TreePath} {old new : Option Content} {options : Options}
    {s : Stack}
    (h : regenerate (Tree.single path old) (Tree.single path new) options = .ok s) :
    (old = new ∧ s = []) ∨ (old ≠ new ∧ ∃ p : Patch, p.path = path ∧ s = [p.toStored]) := by
  obtain ⟨r, hr, rfl⟩ := regenerate_eq_ok_iff.1 h
  rw [keys_union_single] at hr
  by_cases hnone : old = none ∧ new = none
  · rw [if_pos hnone] at hr
    cases hr
    refine .inl ⟨hnone.1.trans hnone.2.symm, ?_⟩
    exact (arrange_perm _ _).eq_nil
  · rw [if_neg hnone] at hr
    obtain ⟨q, rest, hq, hrest, rfl⟩ := patchesBetween_cons_eq_ok_iff.1 hr
    cases hrest
    rw [Tree.get?_single, Tree.get?_single, if_pos rfl, if_pos rfl] at hq
    by_cases heq : old = new
    · rw [patchBetween, if_pos heq] at hq
      cases hq
      exact .inl ⟨heq, (arrange_perm _ _).eq_nil⟩
    · obtain ⟨p, hpath, rfl⟩ := exists_of_patchBetween heq hq
      exact .inr ⟨heq, p, hpath, arrange_singleton _ _⟩

end Stack

namespace FileUnit

variable {u : FileUnit} {d e : Disk} {input : Tree} {context : Nat}

/-! ## What the file of a unit holds -/

theorem patchIn_ofText {body : String} (h : body ≠ "") :
    u.patchIn (.ofText body) = .ok [⟨u.path, body⟩] := by
  have hne : ¬(Content.ofText body).isEmpty = true := fun he =>
    h (by simpa [Content.ofText, ByteArray.isEmpty] using he)
  rw [patchIn, if_neg hne, Content.text?_ofText]

theorem stored_eq_stackOf {p : FilePatch}
    (h : Store.file? u.patch e = .ok (p.body.map Content.ofText)) :
    u.stored e = u.stackOf p := by
  unfold stored stackOf
  rw [h]
  cases p.body <;> rfl

theorem apply_eq_replay {p : FilePatch}
    (h : Store.file? u.patch e = .ok (p.body.map Content.ofText)) :
    u.apply e input = u.replay input p := by
  unfold apply replay
  rw [stored_eq_stackOf h]

theorem stackOf_patchOf {s : Stack} (hs : s = [] ∨ ∃ p : Patch, p.path = u.path ∧
    s = [p.toStored]) :
    u.stackOf (u.patchOf s) = .ok s := by
  obtain rfl | ⟨p, hpath, rfl⟩ := hs
  · rfl
  · have hread := patchIn_ofText (u := u) p.render_ne_empty
    rw [← hpath] at hread
    exact hread

theorem of_stored {s : Stack} (h : u.stored d = .ok s) : s = [] ∨ ∃ body, s = [⟨u.path, body⟩] := by
  unfold stored at h
  obtain ⟨content, -, h⟩ := Except.bind_eq_ok_iff.1 h
  cases content with
  | none => exact .inl (Except.ok.inj h).symm
  | some content =>
    dsimp only at h
    unfold patchIn at h
    split at h
    · exact .inl (Except.ok.inj h).symm
    · split at h
      · rename_i body _
        exact .inr ⟨body, (Except.ok.inj h).symm⟩
      · cases h

theorem eq_path_of_mem_targets {s : Stack} (h : u.stored d = .ok s) :
    ∀ target ∈ s.targets, target = u.path := by
  obtain rfl | ⟨body, rfl⟩ := of_stored h <;> simp [Stack.targets]

theorem eq_single_of_replay {s : Stack} (hstored : u.stored d = .ok s) {t : Tree}
    (h : s.replay (u.base input) = .ok t) : t = Tree.single u.path (t.get? u.path) := by
  apply SortedMap.ext_get?
  intro path
  by_cases hpath : path = u.path
  · simp [hpath]
  · rw [Stack.get?_replay h fun hmem => hpath (eq_path_of_mem_targets hstored _ hmem)]
    simp [base, hpath]

/-! ## Applying a unit -/

theorem derive_eq_ok_iff {s : Stack} {o : FileOutput} :
    u.derive input s = .ok o ↔ (s ≠ [] ∨ (input.get? u.path).isSome) ∧
      ∃ t, s.replay (u.base input) = .ok t ∧ u.outputOf t = o := by
  have hempty : (u.base input).isEmpty = (input.get? u.path).isNone := by
    unfold base
    cases input.get? u.path <;> rfl
  have hmissing : (s.isEmpty && (u.base input).isEmpty) = true ↔
      ¬(s ≠ [] ∨ (input.get? u.path).isSome) := by
    rw [hempty]
    simp
  unfold derive
  by_cases h : s ≠ [] ∨ (input.get? u.path).isSome
  · rw [if_neg (by rw [hmissing]; exact not_not.2 h), Except.map_eq_ok_iff]
    simp [h]
  · rw [if_pos (hmissing.2 h)]
    simp [h]

/-- Replaying a unit with a stack that its file can keep is deriving it with that stack. -/
theorem replay_patchOf {s : Stack} (hs : s = [] ∨ ∃ p : Patch, p.path = u.path ∧ s = [p.toStored]) :
    u.replay input (u.patchOf s) = u.derive input s := by
  unfold replay
  rw [stackOf_patchOf hs]
  rfl

theorem derive_nil_eq_ok_iff {o : FileOutput} :
    u.derive input [] = .ok o ↔ (input.get? u.path).isSome ∧ ⟨u.output, input.get? u.path⟩ = o := by
  rw [derive_eq_ok_iff]
  simp [Stack.replay, outputOf, base]

/-- The patch that a unit is regenerated with makes the output of the input again, if the path of
the unit can be written to it, unless the file is missing on both sides. -/
theorem replay_of_regenerate {working : DiskPath} {r : Regenerated FileOutput FilePatch}
    (hinput : input.Fits) (hd : d.Fits) (h : u.regenerate d input working context = .ok r) :
    u.replay input r.patches = .ok r.output ↔
      ((input.get? u.path).isSome ∨ r.output.content.isSome) ∧
        (r.patches.body.isSome → u.path.IsFilePath) := by
  obtain ⟨content, s, hcontent, hs, rfl⟩ := regenerate_eq_ok_iff.1 h
  have houtput : u.outputOf (Tree.single u.path content) = ⟨u.output, content⟩ := by
    simp [outputOf]
  rw [houtput]
  obtain ⟨heq, rfl⟩ | ⟨hne, p, hpath, rfl⟩ := Stack.exists_of_regenerate_single hs
  · rw [replay_patchOf (.inl rfl), derive_nil_eq_ok_iff, heq]
    simp [patchOf]
  · have hsome : (input.get? u.path).isSome ∨ content.isSome := by
      by_contra hnone
      simp only [not_or, Bool.not_eq_true, Option.isSome_eq_false_iff,
        Option.isNone_iff_eq_none] at hnone
      exact hne (hnone.1.trans hnone.2.symm)
    rw [replay_patchOf (.inr ⟨p, hpath, rfl⟩), derive_eq_ok_iff]
    simp only [patchOf, List.head?_cons, Option.map_some, Option.isSome_some, true_imp_iff]
    constructor
    · rintro ⟨-, t, ht, -⟩
      refine ⟨hsome, ?_⟩
      obtain ⟨c, hc, -⟩ := Stack.replay_cons_eq_ok_iff.1 ht
      obtain ⟨q, hq, -⟩ := StoredPatch.onFile_eq_ok_iff.1 hc
      exact hpath ▸ Patch.isFilePath_of_parse_toStored hq
    · rintro ⟨-, hfile⟩
      have hcontentFits : (Tree.single u.path content).Fits :=
        Tree.fits_single (Store.fits_of_file? hd hcontent)
      have hpaths : ∀ q, (u.base input).get? q ≠ (Tree.single u.path content).get? q →
          q.IsFilePath := by
        intro q hq
        by_cases hqu : q = u.path
        · exact hqu ▸ hfile
        · simp [base, hqu] at hq
      exact ⟨.inl (by simp), _, (Stack.replay_of_regenerate (Tree.fits_single (hinput u.path))
        hcontentFits hpaths hs).1, houtput⟩

/-- What a unit is carried to the new input with makes the new output of it, unless the file is
missing in both. -/
theorem replay_of_rebase {old new : Tree} {c : Carried FileOutput FilePatch}
    (h : u.rebase d old new context = .ok c) :
    u.replay new c.patches = .ok c.new ↔ (new.get? u.path).isSome ∨ c.new.content.isSome := by
  obtain ⟨stored, r, hstored, hcarry, rfl⟩ := rebase_eq_ok_iff.1 h
  obtain ⟨-, hrebase, hreplay⟩ := Stack.carry_eq_ok_iff.1 hcarry
  obtain ⟨-, derived, hderived, hregenerate⟩ := Stack.rebase_eq_ok_iff.1 hrebase
  rw [eq_single_of_replay hstored hderived] at hregenerate
  obtain ⟨-, hs⟩ | ⟨-, p, hpath, hs⟩ := Stack.exists_of_regenerate_single hregenerate
  · rw [hs] at hreplay ⊢
    rw [replay_patchOf (.inl rfl), derive_nil_eq_ok_iff, ← Except.ok.inj hreplay]
    simp [outputOf, base]
  · rw [hs] at hreplay ⊢
    rw [replay_patchOf (.inr ⟨p, hpath, rfl⟩), derive_eq_ok_iff]
    refine iff_of_true ⟨.inl (by simp), _, hreplay, rfl⟩ ?_
    obtain ⟨content, hcontent, hlast⟩ := Stack.replay_cons_eq_ok_iff.1 hreplay
    rw [← Except.ok.inj hlast]
    have htarget : p.toStored.target = u.path := hpath
    rw [htarget] at hcontent ⊢
    simpa [base, outputOf] using StoredPatch.isSome_of_onFile hcontent

/-- A unit whose file keeps what it was regenerated with makes the output of the same input when it
is applied, and one whose file keeps what it was rebased with makes the new output of the new input.
The only exceptions are a file that is missing both in the input and in the output, and a unit for a
path that no patch can name. -/
theorem apply_regenerate_rebase (u : FileUnit) (d e : Disk) (context : Nat) :
    (∀ input working r, input.Fits → d.Fits → u.regenerate d input working context = .ok r →
      Store.file? u.patch e = .ok (r.patches.body.map Content.ofText) →
        (u.apply e input = .ok r.output ↔
          ((input.get? u.path).isSome ∨ r.output.content.isSome) ∧
            (r.patches.body.isSome → u.path.IsFilePath))) ∧
    ∀ old new c, u.rebase d old new context = .ok c →
      Store.file? u.patch e = .ok (c.patches.body.map Content.ofText) →
        (u.apply e new = .ok c.new ↔ (new.get? u.path).isSome ∨ c.new.content.isSome) := by
  constructor
  · intro input working r hinput hd hr he
    rw [apply_eq_replay he, replay_of_regenerate hinput hd hr]
  · intro old new c hc he
    rw [apply_eq_replay he, replay_of_rebase hc]

open PatchDirectory (diskOfFiles)

/-- A unit whose patch keeps no context, so that it is the same for the old input and for the new
one. -/
def oneLine : FileUnit := ⟨⟨"f"⟩, ⟨"out"⟩, ⟨"f.patch"⟩⟩

def oneLineDisk : Disk :=
  diskOfFiles [("out", "b\n"), ("f.patch", "--- a/f\n+++ b/f\n@@ -1 +1 @@\n-a\n+b\n")]

theorem apply_regenerate_rebase_oneLine :
    let old := Tree.single ⟨"f"⟩ (some (.ofText "a\n"))
    let new := Tree.single ⟨"f"⟩ (some (.ofText "a\nc\n"))
    (∃ r, oneLine.regenerate oneLineDisk old ⟨"."⟩ 0 = .ok r ∧
      Store.file? oneLine.patch oneLineDisk = .ok (r.patches.body.map Content.ofText) ∧
      oneLine.apply oneLineDisk old = .ok r.output) ∧
    ∃ c, oneLine.rebase oneLineDisk old new 0 = .ok c ∧
      Store.file? oneLine.patch oneLineDisk = .ok (c.patches.body.map Content.ofText) ∧
      oneLine.apply oneLineDisk new = .ok c.new := by
  intro old new
  have hold : old.Fits := by decide
  have hdisk : oneLineDisk.Fits := by decide +kernel
  obtain ⟨hregenerate, hrebase⟩ := apply_regenerate_rebase oneLine oneLineDisk oneLineDisk 0
  obtain ⟨r, hr⟩ : ∃ r, oneLine.regenerate oneLineDisk old ⟨"."⟩ 0 = .ok r := by decide +kernel
  obtain ⟨c, hc⟩ : ∃ c, oneLine.rebase oneLineDisk old new 0 = .ok c := by decide +kernel
  have hkept : ∀ r, oneLine.regenerate oneLineDisk old ⟨"."⟩ 0 = .ok r →
      Store.file? oneLine.patch oneLineDisk = .ok (r.patches.body.map Content.ofText) := by
    decide +kernel
  have hkept' : ∀ c, oneLine.rebase oneLineDisk old new 0 = .ok c →
      Store.file? oneLine.patch oneLineDisk = .ok (c.patches.body.map Content.ofText) := by
    decide +kernel
  refine ⟨⟨r, hr, hkept r hr, ?_⟩, c, hc, hkept' c hc, ?_⟩
  · exact (hregenerate old ⟨"."⟩ r hold hdisk hr (hkept r hr)).2
      ⟨.inl (by decide), fun _ => by decide⟩
  · exact (hrebase old new c hc (hkept' c hc)).2 (.inl (by decide))

/-- A file without a patch that is gone from the new input is carried there without complaint, and
then cannot be applied. -/
theorem not_forall_apply_regenerate_rebase :
    ¬ ∀ (u : FileUnit) (d e : Disk) (context : Nat),
      (∀ input working r, input.Fits → d.Fits → u.regenerate d input working context = .ok r →
        Store.file? u.patch e = .ok (r.patches.body.map Content.ofText) →
          u.apply e input = .ok r.output) ∧
      ∀ old new c, u.rebase d old new context = .ok c →
        Store.file? u.patch e = .ok (c.patches.body.map Content.ofText) →
          u.apply e new = .ok c.new := by
  intro h
  have hrebase := (h oneLine .empty .empty 3).2 (Tree.single ⟨"f"⟩ (some (.ofText "a\n"))) .empty
  obtain ⟨c, hc⟩ : ∃ c, oneLine.rebase .empty (Tree.single ⟨"f"⟩ (some (.ofText "a\n"))) .empty 3 =
      .ok c := by
    decide +kernel
  have hkept : ∀ c, oneLine.rebase .empty (Tree.single ⟨"f"⟩ (some (.ofText "a\n"))) .empty 3 =
      .ok c → Store.file? oneLine.patch .empty = .ok (c.patches.body.map Content.ofText) := by
    decide +kernel
  have hmissing : ¬ ∃ o, oneLine.apply .empty .empty = .ok o := by decide +kernel
  exact hmissing ⟨_, hrebase c hc (hkept c hc)⟩

end FileUnit

end Patchwork
