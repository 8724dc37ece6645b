import Patchwork.Proofs.Hunk.Splice
import Patchwork.Proofs.Patch.Read

/-!
# What a patch that is read makes of a text

The result of applying a patch joins the lines that its hunks leave. They are the lines of the
result exactly if each of them but the last is terminated and none is empty; the hunks alone
guarantee this when they take and leave the end of a text together (`lines_applyAll`). A marker that
stands elsewhere in a patch lets two lines become one.
-/
namespace Patchwork.Patch

/-- A patch that is read and applied replaces the block of each hunk, and what is joined then falls
into the same lines again exactly if they can be the lines of a text. -/
theorem lines_applyAll {body text out : String} {p : Patch} (hparse : parse body = .ok p)
    (happly : Hunk.applyAll text p.hunks = .ok out) :
    ∃ spliced, Hunk.applyLines (Text.lines text) p.hunks = .ok spliced ∧
      Hunk.Replaces (Text.lines text) p.hunks spliced ∧ Text.join spliced = out ∧
      (Text.lines out = spliced ↔ Text.AreLines spliced) ∧
      ((∀ k ∈ p.hunks, k.KeepsEnd) → Text.lines out = spliced) := by
  obtain ⟨spliced, hspliced, rfl⟩ := Hunk.applyAll_eq_ok_iff.1 happly
  have hreplaces := Hunk.replaces_of_applyLines hspliced
  have hread := announced_of_parse hparse
  have hlines : Text.lines (Text.join spliced) = spliced ↔ Text.AreLines spliced :=
    Text.lines_join_iff (hreplaces.isLine (fun l hl => Text.isLine_of_mem_lines hl)
      fun k hk l hl => (hread k hk).isLine_newLines hl)
  exact ⟨spliced, hspliced, hreplaces, rfl, hlines,
    fun hends => hlines.2 (hreplaces.areLines (Text.areLines_lines text) hends)⟩

def doubling : Hunk :=
  ⟨1, 1, 1, 2, none, [⟨.deletion, "a\n"⟩, ⟨.insertion, "b\n"⟩, ⟨.insertion, "c\n"⟩]⟩

theorem lines_applyAll_doubling :
    parse "--- a/f\n+++ b/f\n@@ -1 +1,2 @@\n-a\n+b\n+c\n" = .ok ⟨⟨"f"⟩, .modify, [doubling]⟩ ∧
      doubling.KeepsEnd ∧ Hunk.applyAll "x\na\nd" [doubling] = .ok "x\nb\nc\nd" ∧
      Hunk.applyLines (Text.lines "x\na\nd") [doubling] = .ok (Text.lines "x\nb\nc\nd") := by
  have hparse : parse "--- a/f\n+++ b/f\n@@ -1 +1,2 @@\n-a\n+b\n+c\n" =
      .ok ⟨⟨"f"⟩, .modify, [doubling]⟩ := by decide +kernel
  have happly : Hunk.applyAll "x\na\nd" [doubling] = .ok "x\nb\nc\nd" := by decide +kernel
  have hends : doubling.KeepsEnd := by decide
  obtain ⟨spliced, hspliced, -, -, -, hlines⟩ := lines_applyAll hparse happly
  exact ⟨hparse, hends, happly, hlines (by simpa using hends) ▸ hspliced⟩

/-- A last line without newline that is put in the middle of a text takes the line behind it as its
own. -/
theorem not_forall_lines_applyAll :
    ¬ ∀ body text out p spliced, parse body = .ok p → Hunk.applyAll text p.hunks = .ok out →
      Hunk.applyLines (Text.lines text) p.hunks = .ok spliced → Text.lines out = spliced := by
  intro h
  have hfused :=
    h "--- a/f\n+++ b/f\n@@ -1 +1 @@\n-a\n+b\n\\ No newline at end of file\n" "a\nc\n" "bc\n"
      ⟨⟨"f"⟩, .modify, [⟨1, 1, 1, 1, none, [⟨.deletion, "a\n"⟩, ⟨.insertion, "b"⟩]⟩]⟩ ["b", "c\n"]
      (by decide +kernel) (by decide +kernel) (by decide +kernel)
  exact absurd hfused (by decide +kernel)

end Patchwork.Patch
