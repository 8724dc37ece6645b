import Patchwork.Proofs.Hunk.Nearest
import Patchwork.Proofs.Hunk.Positional
import Patchwork.Proofs.Patch.Shape
import Patchwork.Proofs.Stack.Replay

/-!
# Creating and deleting files

Reading makes sure that a file is created by insertions and deleted by deletions alone, in one hunk
at most. So creating asks for nothing but the absence of the file, and whatever is left when the
lines to delete are found and taken away is empty only if they were all there is
(`applyAll_eq_empty_iff`). Nothing depends on the numbers in the header (`apply_wholeFile`).
-/
namespace Patchwork

theorem Text.join_eq_empty_iff {ls : List String} : Text.join ls = "" ↔ ∀ l ∈ ls, l = "" := by
  rw [← String.toList_inj, Text.toList_join, String.toList_empty, List.flatMap_eq_nil_iff]
  simp

namespace Hunk

theorem replaces_singleton_iff {lines spliced : List String} {h : Hunk} :
    Replaces lines [h] spliced ↔
      ∃ front back, lines = front ++ (h.oldLines ++ back) ∧
        spliced = front ++ (h.newLines ++ back) := by
  constructor
  · rintro (_ | ⟨front, _, rest⟩)
    cases rest
    exact ⟨front, _, rfl, rfl⟩
  · rintro ⟨front, back, rfl, rfl⟩
    exact .hunk front h (.kept back)

theorem applyAll_nil {text : String} : applyAll text [] = .ok text := by
  simp [applyAll, applyLines, place, splice, Text.join_lines]

/-- Taking lines out of a text, wherever they are found, leaves nothing only if they are its
lines. -/
theorem applyAll_eq_empty_iff {h : Hunk} (hold : h.oldLines ≠ []) (hnew : h.newLines = [])
    {text : String} :
    applyAll text [h] = .ok "" ↔ Text.lines text = h.oldLines := by
  constructor
  · intro happly
    obtain ⟨spliced, hspliced, hjoin⟩ := applyAll_eq_ok_iff.1 happly
    obtain ⟨front, back, hlines, rfl⟩ := replaces_singleton_iff.1 (replaces_of_applyLines hspliced)
    rw [hnew, List.nil_append, Text.join_eq_empty_iff] at hjoin
    -- What is left are lines of the text, and none of these is empty.
    have hnone : front ++ back = [] := by
      rw [List.eq_nil_iff_forall_not_mem]
      intro l hl
      have hmem : l ∈ Text.lines text := by
        rw [hlines]
        simp only [List.mem_append] at hl ⊢
        tauto
      exact (Text.areLines_lines text).1 (hjoin l hl ▸ hmem)
    obtain ⟨rfl, rfl⟩ := List.append_eq_nil_iff.1 hnone
    rw [hlines, List.nil_append, List.append_nil]
  · intro hlines
    -- Whatever place the header declares, the old lines have room at the start only.
    have hplace : IsPlace h.oldLines h.oldLines 0 (max (shifted h.oldIndex 0) 0) 0 := by
      unfold IsPlace
      rw [if_neg hold]
      refine ⟨⟨Nat.le_refl 0, List.prefix_rfl⟩, fun other _ hother => ?_⟩
      have hend := le_of_prefix_drop hold hother
      obtain rfl : other = 0 := by omega
      exact .refl _ _
    have hlocate := (locate_eq_some_iff (Nat.zero_le _)).2 hplace
    rw [applyAll, hlines, ← applyFrom_zero, applyFrom_of_locate_eq_some hlocate, hnew]
    simp [applyFrom, place, splice, Except.map]

theorem positional_eq_flatMap_append {lines : List String} {hs : List Hunk}
    (hdeclared : ∀ h ∈ hs, h.oldIndex = 0 ∧ h.oldLength = 0) :
    positional lines hs = hs.flatMap (·.newLines) ++ lines := by
  induction hs with
  | nil => rfl
  | cons h hs ih =>
    obtain ⟨⟨hindex, hlength⟩, hdeclared⟩ := List.forall_mem_cons.1 hdeclared
    rw [positional_cons, replaceDeclared, hindex, hlength, ih hdeclared]
    simp

end Hunk

namespace Patch

variable {p : Patch} {body : String} {old new : Option Content}

def linesOfKind (p : Patch) (kind : LineKind) : List String :=
  ((p.hunks.flatMap (·.lines)).filter (·.kind = kind)).map (·.text)

theorem onFile_create_eq_ok_iff (hkind : p.kind = .create) :
    p.onFile old = .ok new ↔ old = none ∧ ∃ text, new = some (.ofText text) ∧
      Hunk.applyAll "" p.hunks = .ok text := by
  rw [onFile_eq_ok_iff, hkind]
  constructor
  · rintro ⟨a, b, rfl, rfl, ⟨rfl, hb⟩, htext⟩
    obtain ⟨text, rfl⟩ := Option.isSome_iff_exists.1 hb
    exact ⟨rfl, text, rfl, Except.mapError_eq_ok_iff.1 htext⟩
  · rintro ⟨rfl, text, rfl, htext⟩
    exact ⟨none, some text, rfl, rfl, ⟨rfl, rfl⟩, Except.mapError_eq_ok_iff.2 htext⟩

theorem onFile_delete_eq_ok_iff (hkind : p.kind = .delete) :
    p.onFile old = .ok new ↔ new = none ∧ ∃ text, old = some (.ofText text) ∧
      Hunk.applyAll text p.hunks = .ok "" := by
  rw [onFile_eq_ok_iff, hkind]
  constructor
  · rintro ⟨a, b, rfl, rfl, ⟨ha, rfl⟩, htext⟩
    obtain ⟨text, rfl⟩ := Option.isSome_iff_exists.1 ha
    exact ⟨rfl, text, rfl, Except.mapError_eq_ok_iff.1 htext⟩
  · rintro ⟨rfl, text, rfl, htext⟩
    exact ⟨some text, none, rfl, rfl, ⟨rfl, rfl⟩, Except.mapError_eq_ok_iff.2 htext⟩

theorem hunks_of_parse_create (hparse : parse body = .ok p) (hkind : p.kind = .create) :
    p.hunks.length ≤ 1 ∧ ∀ h ∈ p.hunks, h.oldStart = 0 ∧ h.oldLength = 0 := by
  have hfits := (shapeFault?_eq_none_iff.1 (shapeFault?_of_parse hparse)).2.1 hkind
  simpa [hasOnlyInsertions] using hfits

theorem hunks_of_parse_delete (hparse : parse body = .ok p) (hkind : p.kind = .delete) :
    p.hunks.length ≤ 1 ∧ ∀ h ∈ p.hunks, h.newStart = 0 ∧ h.newLength = 0 := by
  have hfits := (shapeFault?_eq_none_iff.1 (shapeFault?_of_parse hparse)).2.2.1 hkind
  simpa [hasOnlyDeletions] using hfits

theorem flatMap_newLines_of_parse_create (hparse : parse body = .ok p) (hkind : p.kind = .create) :
    p.hunks.flatMap (·.newLines) = p.linesOfKind .insertion := by
  have hinserts : ∀ h ∈ p.hunks, ∀ l ∈ h.lines, l.kind = .insertion := fun h hh =>
    (announced_of_parse hparse h hh).kind_eq_insertion
      ((hunks_of_parse_create hparse hkind).2 h hh).2
  rw [linesOfKind, List.filter_flatMap, List.map_flatMap]
  refine List.flatMap_congr fun h hh => ?_
  have hall : h.lines.filter (·.kind.isNew) = h.lines.filter (·.kind = .insertion) :=
    List.filter_congr fun l hl => by simp [hinserts h hh l hl, LineKind.isNew]
  rw [Hunk.newLines, hall]

/-- The hunk of a patch that creates a file always finds its place, which is that where it is
declared. -/
theorem applyAll_of_parse_create (hparse : parse body = .ok p) (hkind : p.kind = .create) :
    Hunk.applyAll "" p.hunks = .ok (Text.join (p.linesOfKind .insertion)) := by
  have hannounced := announced_of_parse hparse
  have hdeclared : ∀ h ∈ p.hunks, h.oldIndex = 0 ∧ h.oldLength = 0 := by
    intro h hh
    obtain ⟨hstart, hlength⟩ := (hunks_of_parse_create hparse hkind).2 h hh
    exact ⟨by simp [Hunk.oldIndex, hstart, hlength], hlength⟩
  have hstands : ∀ h ∈ p.hunks, h.StandsIn (Text.lines "") := by
    intro h hh
    obtain ⟨hindex, hlength⟩ := hdeclared h hh
    have hold : h.oldLines = [] :=
      List.length_eq_zero_iff.1 ((hannounced h hh).oldLength.trans hlength)
    refine ⟨(hannounced h hh).oldLength.symm, ?_, hold ▸ List.nil_prefix⟩
    rw [hindex, hlength]
    exact Nat.zero_le _
  have hordered : p.hunks.Pairwise fun h k => h.oldIndex + h.oldLength ≤ k.oldIndex := by
    refine List.pairwise_iff_forall_sublist.2 fun {h k} hsub => ?_
    obtain ⟨hindex, hlength⟩ := hdeclared h (hsub.subset (by simp))
    rw [hindex, hlength]
    exact Nat.zero_le _
  have happly := Hunk.applyLines_eq_positional (by simp [Text.lines_empty]) hstands hordered
  rw [Hunk.applyAll, happly, Hunk.positional_eq_flatMap_append hdeclared, Text.lines_empty,
    List.append_nil, flatMap_newLines_of_parse_create hparse hkind]

end Patch

namespace StoredPatch

theorem apply_eq_ok_iff {p : StoredPatch} {t u : Tree} : p.apply t = .ok u ↔
    ∃ content, p.onFile (t.get? p.target) = .ok content ∧
      ∀ path, u.get? path = if path = p.target then content else t.get? path := by
  have hput : ∀ content, t.put p.target content = u ↔
      ∀ path, u.get? path = if path = p.target then content else t.get? path := by
    intro content
    constructor
    · rintro rfl
      exact t.get?_put p.target content
    · intro hget
      exact SortedMap.ext_get? fun path => (t.get?_put p.target content path).trans (hget path).symm
  unfold apply
  cases p.onFile (t.get? p.target) <;> simp [hput]

theorem exists_apply_eq_ok_iff {p : StoredPatch} {t : Tree} :
    (∃ u, p.apply t = .ok u) ↔ ∃ content, p.onFile (t.get? p.target) = .ok content := by
  unfold apply
  cases p.onFile (t.get? p.target) <;> simp

/-- A text of a patch, stored under the path that the patch names. -/
theorem onFile_of_parse {body : String} {p : Patch} (hparse : Patch.parse body = .ok p)
    (old : Option Content) :
    StoredPatch.onFile ⟨p.path, body⟩ old = p.onFile old := by
  simp [onFile, parse, hparse]

end StoredPatch

namespace Patch

variable {t u : Tree}

theorem exists_apply_create_iff (hparse : parse body = .ok p) (hkind : p.kind = .create) :
    (∃ u, StoredPatch.apply ⟨p.path, body⟩ t = .ok u) ↔ t.get? p.path = none := by
  rw [StoredPatch.exists_apply_eq_ok_iff, StoredPatch.onFile_of_parse hparse]
  constructor
  · rintro ⟨content, hcontent⟩
    exact ((onFile_create_eq_ok_iff hkind).1 hcontent).1
  · intro habsent
    exact ⟨_,
      (onFile_create_eq_ok_iff hkind).2 ⟨habsent, _, rfl, applyAll_of_parse_create hparse hkind⟩⟩

theorem get?_apply_create (hparse : parse body = .ok p) (hkind : p.kind = .create)
    (happly : StoredPatch.apply ⟨p.path, body⟩ t = .ok u) (path : TreePath) : u.get? path =
      if path = p.path then some (.ofText (Text.join (p.linesOfKind .insertion)))
        else t.get? path := by
  obtain ⟨content, hcontent, hget⟩ := StoredPatch.apply_eq_ok_iff.1 happly
  rw [StoredPatch.onFile_of_parse hparse] at hcontent
  obtain ⟨-, text, rfl, htext⟩ := (onFile_create_eq_ok_iff hkind).1 hcontent
  rw [hget, Except.ok.inj (htext.symm.trans (applyAll_of_parse_create hparse hkind))]

theorem exists_apply_delete_iff (hparse : parse body = .ok p) (hkind : p.kind = .delete) :
    (∃ u, StoredPatch.apply ⟨p.path, body⟩ t = .ok u) ↔
      ∃ content ∈ t.get? p.path, ∃ text, content.text? = some text ∧
        Hunk.applyAll text p.hunks = .ok "" := by
  rw [StoredPatch.exists_apply_eq_ok_iff, StoredPatch.onFile_of_parse hparse]
  constructor
  · rintro ⟨_, hcontent⟩
    obtain ⟨-, text, hget, happly⟩ := (onFile_delete_eq_ok_iff hkind).1 hcontent
    exact ⟨_, hget, text, Content.text?_ofText text, happly⟩
  · rintro ⟨content, hget, text, htext, happly⟩
    rw [← Content.ofText_of_text? htext] at hget
    exact ⟨none, (onFile_delete_eq_ok_iff hkind).2 ⟨rfl, text, hget, happly⟩⟩

theorem get?_apply_delete (hparse : parse body = .ok p) (hkind : p.kind = .delete)
    (happly : StoredPatch.apply ⟨p.path, body⟩ t = .ok u) (path : TreePath) :
    u.get? path = if path = p.path then none else t.get? path := by
  obtain ⟨content, hcontent, hget⟩ := StoredPatch.apply_eq_ok_iff.1 happly
  rw [StoredPatch.onFile_of_parse hparse] at hcontent
  obtain ⟨rfl, -⟩ := (onFile_delete_eq_ok_iff hkind).1 hcontent
  exact hget path

theorem applyAll_of_parse_delete {h : Hunk} (hparse : parse body = .ok p) (hkind : p.kind = .delete)
    (hh : h ∈ p.hunks) (hold : h.oldLines ≠ []) (text : String) :
    Hunk.applyAll text p.hunks = .ok "" ↔ Text.lines text = h.oldLines := by
  obtain ⟨hlength, hlast⟩ := hunks_of_parse_delete hparse hkind
  have honly : p.hunks = [h] := by
    obtain ⟨k, hk⟩ := List.length_eq_one_iff.1 (Nat.le_antisymm hlength (List.length_pos_of_mem hh))
    rw [hk, List.mem_singleton] at hh
    rw [hk, hh]
  have hnew : h.newLines = [] :=
    List.length_eq_zero_iff.1 ((announced_of_parse hparse h hh).newLength.trans (hlast h hh).2)
  rw [honly, Hunk.applyAll_eq_empty_iff hold hnew]

/-- A file is created where there is none, out of the lines that are inserted. It is deleted if its
lines are the old ones of the hunk, wherever the header says that they stand, or if it is empty and
there is no hunk. -/
theorem apply_wholeFile (hparse : parse body = .ok p) (t : Tree) :
    (p.kind = .create →
      ((∃ u, StoredPatch.apply ⟨p.path, body⟩ t = .ok u) ↔ t.get? p.path = none) ∧
      ∀ u, StoredPatch.apply ⟨p.path, body⟩ t = .ok u → ∀ path, u.get? path =
        if path = p.path then some (.ofText (Text.join (p.linesOfKind .insertion)))
          else t.get? path) ∧
    (p.kind = .delete →
      (∀ h ∈ p.hunks, h.oldLines ≠ [] → ((∃ u, StoredPatch.apply ⟨p.path, body⟩ t = .ok u) ↔
        ∃ content ∈ t.get? p.path, ∃ text, content.text? = some text ∧
          Text.lines text = h.oldLines)) ∧
      (p.hunks = [] →
        ((∃ u, StoredPatch.apply ⟨p.path, body⟩ t = .ok u) ↔
          t.get? p.path = some ByteArray.empty)) ∧
      ∀ u, StoredPatch.apply ⟨p.path, body⟩ t = .ok u → ∀ path, u.get? path =
        if path = p.path then none else t.get? path) := by
  refine ⟨fun hkind =>
    ⟨exists_apply_create_iff hparse hkind, fun u => get?_apply_create hparse hkind⟩, fun hkind =>
    ⟨fun h hh hold => ?_, fun hnone => ?_, fun u => get?_apply_delete hparse hkind⟩⟩
  · rw [exists_apply_delete_iff hparse hkind]
    simp only [applyAll_of_parse_delete hparse hkind hh hold]
  · rw [exists_apply_delete_iff hparse hkind, hnone]
    constructor
    · rintro ⟨content, hget, text, htext, happly⟩
      rw [Hunk.applyAll_nil] at happly
      rw [hget, ← Content.ofText_of_text? htext, Except.ok.inj happly]
      rfl
    · intro hget
      exact ⟨_, hget, "", Content.text?_ofText "", Hunk.applyAll_nil⟩

/-- The header says that the lines stand far behind the end of the file. -/
theorem apply_wholeFile_misnumbered :
    let body := "--- a/gone.txt\n+++ /dev/null\n@@ -40,2 +0,0 @@\n-x\n-y\n"
    let p : Patch :=
      ⟨⟨"gone.txt"⟩, .delete, [⟨40, 2, 0, 0, none, [⟨.deletion, "x\n"⟩, ⟨.deletion, "y\n"⟩]⟩]⟩
    let t : Tree := .ofList [(⟨"gone.txt"⟩, .ofText "x\ny\n"), (⟨"kept.txt"⟩, .ofText "x\n")]
    parse body = .ok p ∧ ∃ u, StoredPatch.apply ⟨p.path, body⟩ t = .ok u ∧
      u.get? ⟨"gone.txt"⟩ = none ∧
      u.get? ⟨"kept.txt"⟩ = some (.ofText "x\n") := by
  intro body p t
  have hparse : parse body = .ok p := by decide +kernel
  obtain ⟨hdelete, -, hgone⟩ := (apply_wholeFile hparse t).2 rfl
  obtain ⟨u, hu⟩ := (hdelete _ (List.mem_singleton.2 rfl) (by decide)).2
    ⟨_, by decide +kernel, "x\ny\n", Content.text?_ofText _, by decide +kernel⟩
  exact ⟨hparse, u, hu, hgone u hu _, (hgone u hu _).trans (by decide +kernel)⟩

end Patch

end Patchwork
