import Patchwork.Proofs.Patch.Read
import Patchwork.Proofs.Patch.RoundTrip

/-!
# The text of a patch that was read

A patch that was read has legible hunks, so its own text is read as the patch again
(`parse_render_eq_self_iff`). Two things are lost. A name such as `./C:x` is read as the path `C:x`,
which is taken for one that starts at a drive when it is read again; and a header line is read
without the carriage return at its end, also where that belongs to the heading.
-/
namespace Patchwork.Patch

/-! ## The path of a patch that was read -/

theorem isRoot_of_readName {number : Nat} {side : Side} {value : String} {q : TreePath}
    (h : readName number side value = .ok (some q)) : q.isRoot = false := by
  have hname : ∀ name, (pathOfName number side name).map some = .ok (some q) →
      q.isRoot = false := by
    intro name h
    obtain ⟨r, hr, hrq⟩ := Except.map_eq_ok_iff.1 h
    cases hrq
    unfold pathOfName at hr
    split at hr
    · cases hr
    · split at hr <;> cases hr
      exact Bool.eq_false_iff.2 ‹_›
  unfold readName at h
  dsimp only at h
  split at h
  · split at h
    · cases h
    · exact hname _ h
  · split at h
    · cases h
    · exact hname _ h

theorem of_kindOfNames {number : Nat} {old new : Option TreePath} {path : TreePath}
    {kind : PatchKind} (h : kindOfNames number old new = .ok (path, kind)) :
    (∀ q ∈ old, q = path) ∧ (∀ q ∈ new, q = path) ∧ (old = some path ∨ new = some path) := by
  unfold kindOfNames at h
  split at h
  · split at h <;> cases h
    simp_all
  · cases h
    simp
  · cases h
    simp
  · cases h

theorem isRoot_of_parse {text : String} {p : Patch} (h : parse text = .ok p) :
    p.path.isRoot = false := by
  obtain ⟨_, _, _, _, _, old, new, -, -, hold, hnew, hkind, -, -⟩ := exists_of_ofLines h
  obtain ⟨-, -, rfl | rfl⟩ := of_kindOfNames hkind
  · exact isRoot_of_readName hold
  · exact isRoot_of_readName hnew

theorem isLegible_of_parse_of_isStable {text : String} {p : Patch} (h : parse text = .ok p)
    (hpath : p.path.IsStable) : p.IsLegible :=
  ⟨⟨isRoot_of_parse h, hpath⟩, shapeFault?_of_parse h, isLegible_of_parse h⟩

/-! ## Reading what was written -/

theorem lines_render_eq (p : Patch) : Text.lines p.render =
    ("--- " ++ (p.oldName ++ "\n")) :: ("+++ " ++ (p.newName ++ "\n")) ::
      Text.lines (Text.join (p.hunks.map Hunk.render)) := by
  have hline : ∀ mark name : String, '\n' ∉ mark.toList → '\n' ∉ name.toList →
      Text.IsLine (mark ++ (name ++ "\n")) ∧ Text.isTerminated (mark ++ (name ++ "\n")) = true := by
    intro mark name hmark hname
    rw [← String.append_assoc]
    exact ⟨Text.isLine_append_newline (by simp [hmark, hname]), Text.isTerminated_append_newline _⟩
  obtain ⟨hold, holdEnd⟩ := hline "--- " p.oldName (by decide) (newline_notMem_oldName p)
  obtain ⟨hnew, hnewEnd⟩ := hline "+++ " p.newName (by decide) (newline_notMem_newName p)
  have htext : p.render = ("--- " ++ (p.oldName ++ "\n")) ++ (("+++ " ++ (p.newName ++ "\n")) ++
      Text.join (p.hunks.map Hunk.render)) := by
    apply String.toList_inj.1
    simp [render]
  rw [htext, Text.lines_append_of_isTerminated hold holdEnd,
    Text.lines_append_of_isTerminated hnew hnewEnd]

/-- The text of any patch names what the text of its path is read as. -/
theorem of_parse_render {p q : Patch} (h : parse p.render = .ok q) :
    TreePath.ofString p.path.text = .ok q.path ∧ q.path.isRoot = false := by
  rw [parse, lines_render_eq] at h
  obtain ⟨number, oldValue, l, rest, newValue, old, new, hfound, hvalue, hold, hnew, hkind, -, -⟩ :=
    exists_of_ofLines h
  have holdMark : headerValue? oldHeaderMark ("--- " ++ (p.oldName ++ "\n")) = some
      (p.oldName ++ "\n") :=
    headerValue?_append rfl
  have hnewMark : headerValue? newHeaderMark ("+++ " ++ (p.newName ++ "\n")) = some
      (p.newName ++ "\n") :=
    headerValue?_append rfl
  rw [findOldHeader, holdMark] at hfound
  cases hfound
  rw [hnewMark] at hvalue
  cases hvalue
  obtain ⟨hpath, hpath', -⟩ := of_kindOfNames hkind
  by_cases hk : p.kind = .create
  · rw [newName, if_neg (by rw [hk]; decide)] at hnew
    obtain ⟨path, rfl, hread⟩ := of_readName_headerName hnew
    exact hpath' path rfl ▸ hread
  · rw [oldName, if_neg hk] at hold
    obtain ⟨path, rfl, hread⟩ := of_readName_headerName hold
    exact hpath path rfl ▸ hread

/-- A patch that is read from where it is stored has a path that a file can have. -/
theorem isFilePath_of_parse_toStored {p q : Patch} (h : p.toStored.parse = .ok q) :
    p.path.IsFilePath := by
  unfold StoredPatch.parse toStored at h
  cases hparse : parse p.render with
  | error e => simp [hparse] at h
  | ok r =>
    simp only [hparse] at h
    split at h
    · rename_i hpath
      obtain ⟨hread, hroot⟩ := of_parse_render hparse
      rw [hpath] at hread hroot
      exact ⟨hroot, hread⟩
    · cases h

/-- A patch that was read is read again from its own text exactly if its path is left alone by
normalisation and no heading ends in a carriage return. -/
theorem parse_render_eq_self_iff {text : String} {p : Patch} (h : parse text = .ok p) :
    parse p.render = .ok p ↔ p.path.IsStable ∧
      ∀ k ∈ p.hunks, ∀ t ∈ k.heading, t.toList.getLast? ≠ some '\r' := by
  have hread : p.path.IsStable → parse p.render = .ok p.withoutReturns := fun hpath =>
    (isLegible_of_parse_of_isStable h hpath).parse_text_eq
  rw [← withoutReturns_eq_self_iff (isLegible_of_parse h)]
  constructor
  · intro hself
    have hpath : p.path.IsStable := (of_parse_render hself).1
    exact ⟨hpath, Except.ok.inj ((hread hpath).symm.trans hself)⟩
  · rintro ⟨hpath, hself⟩
    rw [hread hpath, hself]

/-- A text with lines in front of its headers, of which one has a time behind its name and one is
quoted, a carriage return at the end of a header, and an empty line that lost its space. -/
def loose : String :=
  "diff\r\n--- \"a/x\\303\\251/./y\"\r\n+++ xé/y\t2024-01-01\n@@ -1,2 +1,2 @@odd\r\n\n-b\n+c\r\n\n"

def loosePatch : Patch where
  path := ⟨"xé/y"⟩
  kind := .modify
  hunks := [⟨1, 2, 1, 2, some "odd",
    [⟨.context, "\n"⟩, ⟨.deletion, "b\n"⟩, ⟨.insertion, "c\r\n"⟩]⟩]

theorem parse_render_loosePatch :
    parse loose = .ok loosePatch ∧ parse loosePatch.render = .ok loosePatch := by
  have hparse : parse loose = .ok loosePatch := by decide +kernel
  exact ⟨hparse, (parse_render_eq_self_iff hparse).2 ⟨by decide, by decide⟩⟩

/-- A heading that ends in a carriage return loses it. -/
example : ((parse "--- a/f\n+++ b/f\n@@ -1 +1 @@ g\r\r\n-a\n+b\n").bind fun p =>
    (parse p.render).map fun q => (p.hunks.map (·.heading), q.hunks.map (·.heading))) =
      .ok ([some "g\r"], [some "g"]) := by
  decide +kernel

/-- The path `C:x`, which is read from a name with `.` in front of it, is refused when it is read
again. -/
theorem not_forall_parse_render_eq_self :
    ¬ ∀ text p, parse text = .ok p → parse p.render = .ok p := by
  intro h
  have hparse : parse "--- a/./C:x\n+++ b/./C:x\n@@ -1 +1 @@\n-a\n+b\n" =
      .ok ⟨⟨"C:x"⟩, .modify, [⟨1, 1, 1, 1, none, [⟨.deletion, "a\n"⟩, ⟨.insertion, "b\n"⟩]⟩]⟩ := by
    decide +kernel
  exact absurd (h _ _ hparse) (by decide +kernel)

end Patchwork.Patch
