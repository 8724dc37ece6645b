import Patchwork.Proofs.Patch.Read
import Patchwork.Stack.Replay

/-!
# What is reported of a conflict

A conflict is reported by the hunk that has no place. The report leaves out the markers of missing
newlines, so it is the text of the hunk in which every line has its newline (`Hunk.text_conflict`).
This is the text of the hunk itself exactly if no line lacks one, and then the hunk is read from its
report (`Patch.conflict_text_eq_render_iff`).
-/
namespace Patchwork

namespace Hunk

def Conflict.text (c : Conflict) : String := c.header ++ "\n" ++ c.body

def IsTerminated (h : Hunk) : Prop := ∀ l ∈ h.lines, Text.isTerminated l.text = true

instance (h : Hunk) : Decidable h.IsTerminated := inferInstanceAs (Decidable (∀ l ∈ h.lines, _))

/-- The hunk with the newlines that its lines lack. -/
def terminated (h : Hunk) : Hunk :=
  { h with lines := h.lines.map fun l => ⟨l.kind, withNewline l.text⟩ }

theorem withNewline_eq_self_iff {s : String} : withNewline s = s ↔ Text.isTerminated s = true := by
  unfold withNewline
  split
  · simp [*]
  · rename_i hs
    refine iff_of_false (fun heq => ?_) hs
    have hlength := congrArg String.length heq
    simp at hlength

theorem terminated_eq_self_iff {h : Hunk} : h.terminated = h ↔ h.IsTerminated := by
  have hlines : h.terminated = h ↔
      (h.lines.map fun l => (⟨l.kind, withNewline l.text⟩ : Line)) = h.lines.map id := by
    rw [List.map_id]
    exact ⟨fun heq => congrArg lines heq, fun heq =>
      congrArg (fun ls => { h with lines := ls }) heq⟩
  rw [hlines, List.map_inj_left]
  refine forall₂_congr fun l _ => ?_
  rw [← withNewline_eq_self_iff]
  exact ⟨fun heq => congrArg Line.text heq, fun heq => by rw [heq]; rfl⟩

theorem render_terminated (h : Hunk) : h.terminated.render = h.header ++ "\n" ++ h.plainBody := by
  have hline : ∀ l : Line, Line.render ⟨l.kind, withNewline l.text⟩ = l.renderPlain := by
    intro l
    unfold Line.render Line.renderPlain withNewline
    by_cases hl : Text.isTerminated l.text = true
    · simp only [if_pos hl]
    · simp only [if_neg hl, Text.isTerminated_append_newline, if_true, String.append_assoc]
  rw [render, plainBody, terminated, List.map_map]
  simp only [Function.comp_def, hline]
  rfl

/-- A report is the text of the hunk with all newlines in place. -/
theorem text_conflict (index : Nat) (h : Hunk) (expected : Nat) :
    (conflict index h expected).text = h.terminated.render :=
  h.render_terminated.symm

namespace IsLegible

variable {h : Hunk}

theorem terminated (hh : h.IsLegible) : h.terminated.IsLegible where
  oldLength := by
    rw [length_oldLines, Hunk.terminated, List.countP_map]
    exact h.length_oldLines ▸ hh.oldLength
  newLength := by
    rw [length_newLines, Hunk.terminated, List.countP_map]
    exact h.length_newLines ▸ hh.newLength
  isLine := List.forall_mem_map.2 fun l hl => isLine_withNewline (hh.isLine l hl)
  oldStart_le := hh.oldStart_le
  oldLength_le := hh.oldLength_le
  newStart_le := hh.newStart_le
  newLength_le := hh.newLength_le
  heading := hh.heading

theorem readHunks_render (hh : h.IsLegible) (number : Nat) :
    readHunks number (Text.lines h.render) = .ok [h.withoutReturn] := by
  have hlines : Text.lines h.render = [h].flatMap textLines := by
    rw [← h.join_textLines, List.flatMap_singleton]
    exact Text.lines_join (fun _ hk => hh.isLine_of_mem_textLines hk) fun _ hk =>
      isTerminated_of_mem_textLines hk
  rw [hlines, readHunks_textLines number (List.forall_mem_singleton.2 hh)]
  rfl

/-- Adding a newline changes the text, as the hunk that is read of it is another one. -/
theorem render_terminated_eq_iff (hh : h.IsLegible) :
    h.terminated.render = h.render ↔ h.IsTerminated := by
  rw [← terminated_eq_self_iff]
  constructor
  · intro htext
    have hread := (congrArg (fun text => readHunks 1 (Text.lines text)) htext).symm
    simp only [hh.readHunks_render, hh.terminated.readHunks_render] at hread
    have hlines := congrArg lines (List.singleton_inj.1 (Except.ok.inj hread)).symm
    exact congrArg (fun ls => { h with lines := ls }) hlines
  · exact congrArg render

/-- A hunk is read from its text with all newlines in place exactly if they were in place, and its
heading does not end in a carriage return. -/
theorem readHunks_render_terminated_iff (hh : h.IsLegible) (number : Nat) :
    readHunks number (Text.lines h.terminated.render) = .ok [h] ↔
      h.IsTerminated ∧ ∀ t ∈ h.heading, t.toList.getLast? ≠ some '\r' := by
  rw [hh.terminated.readHunks_render, ← terminated_eq_self_iff, ← hh.withoutReturn_eq_self_iff]
  constructor
  · intro heq
    have heq : h.terminated.withoutReturn = h := List.singleton_inj.1 (Except.ok.inj heq)
    have hlines : h.terminated.withoutReturn.lines = h.lines := congrArg lines heq
    have hheading : h.terminated.withoutReturn.heading = h.heading := congrArg Hunk.heading heq
    exact ⟨congrArg (fun ls => { h with lines := ls }) hlines,
      congrArg (fun t => { h with heading := t }) hheading⟩
  · rintro ⟨hterminated, hreturn⟩
    rw [hterminated, hreturn]

end IsLegible

/-! ## The hunk that is reported -/

theorem exists_of_place_eq_error {ls : List String} {cursor index : Nat} {shift : Int}
    {hs : List Hunk} {c : Conflict} (h : place ls cursor shift index hs = .error c) :
    ∃ i k expected, hs[i]? = some k ∧ c = conflict (index + i) k expected := by
  induction hs generalizing cursor shift index with
  | nil => cases h
  | cons k hs ih =>
    rw [place] at h
    split at h
    · exact ⟨0, k, _, rfl, (Except.error.inj h).symm⟩
    · split at h
      · rename_i hrest
        obtain rfl := Except.error.inj h
        obtain ⟨i, j, expected, hj, rfl⟩ := ih hrest
        exact ⟨i + 1, j, expected, hj, by rw [Nat.add_assoc, Nat.add_comm 1 i]⟩
      · cases h

theorem exists_of_applyAll_eq_error {text : String} {hs : List Hunk} {c : Conflict}
    (h : applyAll text hs = .error c) :
    ∃ k expected, hs[c.index]? = some k ∧ c = conflict c.index k expected := by
  unfold applyAll applyLines at h
  split at h
  · rename_i hlines
    obtain rfl := Except.error.inj h
    split at hlines
    · rename_i hplace
      obtain rfl := Except.error.inj hlines
      obtain ⟨i, k, expected, hk, rfl⟩ := exists_of_place_eq_error hplace
      rw [Nat.zero_add]
      exact ⟨k, expected, hk, rfl⟩
    · cases hlines
  · cases h

end Hunk

namespace Patch

variable {p : Patch} {text : String} {current : Option Content} {c : Hunk.Conflict}

theorem exists_of_wholeConflict (p : Patch) : p.hunks = [] ∨
    ∃ k expected, p.hunks[p.wholeConflict.index]? = some k ∧
      p.wholeConflict = Hunk.conflict p.wholeConflict.index k expected := by
  unfold wholeConflict
  cases p.hunks with
  | nil => exact .inl rfl
  | cons k hs => exact .inr ⟨k, 0, rfl, rfl⟩

/-- Whatever the conflict, it is reported by the hunk of its number, if the patch has hunks at
all. -/
theorem exists_of_onFile_eq_conflict (h : p.onFile current = .error (.conflict c)) : p.hunks = [] ∨
    ∃ k expected, p.hunks[c.index]? = some k ∧ c = Hunk.conflict c.index k expected := by
  have htext : ∀ text, p.onText text = .error (.conflict c) →
      ∃ k expected, p.hunks[c.index]? = some k ∧ c = Hunk.conflict c.index k expected := by
    intro text htext
    obtain ⟨c', hc', heq⟩ := Except.mapError_eq_error_iff.1 htext
    obtain rfl := ApplyFailure.conflict.inj heq
    exact Hunk.exists_of_applyAll_eq_error hc'
  unfold onFile at h
  split at h
  · split_ifs at h
    · obtain rfl := ApplyFailure.conflict.inj (Except.error.inj h)
      exact p.exists_of_wholeConflict
    · cases hresult : p.onText "" with
      | error failure =>
        rw [hresult] at h
        obtain rfl := Except.error.inj h
        exact .inr (htext _ hresult)
      | ok result =>
        rw [hresult] at h
        cases h
  · split at h
    · cases h
    · split at h
      · cases h
      · split at h
        · rename_i hresult
          obtain rfl := Except.error.inj h
          exact .inr (htext _ hresult)
        · split_ifs at h
          obtain rfl := ApplyFailure.conflict.inj (Except.error.inj h)
          exact p.exists_of_wholeConflict

/-- A conflict of a patch that was read is reported by the text of one of its hunks, in which every
line has its newline. That is the text of the hunk in the patch exactly if no line lacks one, and
the hunk is read from it exactly if besides its heading does not end in a carriage return. -/
theorem conflict_text_eq_render_iff (hparse : parse text = .ok p)
    (hconflict : p.onFile current = .error (.conflict c)) : p.hunks = [] ∨
    ∃ k, p.hunks[c.index]? = some k ∧ c.text = k.terminated.render ∧
      (c.text = k.render ↔ k.IsTerminated) ∧
      ∀ number, Hunk.readHunks number (Text.lines c.text) = .ok [k] ↔
        k.IsTerminated ∧ ∀ t ∈ k.heading, t.toList.getLast? ≠ some '\r' := by
  refine (exists_of_onFile_eq_conflict hconflict).imp_right fun ⟨k, expected, hk, hreport⟩ => ?_
  have hlegible := isLegible_of_parse hparse k (List.mem_of_getElem? hk)
  have htext : c.text = k.terminated.render := by rw [hreport, Hunk.text_conflict]
  refine ⟨k, hk, htext, ?_, fun number => ?_⟩
  · rw [htext, hlegible.render_terminated_eq_iff]
  · rw [htext, hlegible.readHunks_render_terminated_iff]

/-- Two hunks with a heading each, an empty line that lost its space, and a last line of two that
has no newline. -/
def closingBrace : String :=
  "--- a/f\n+++ b/f\n@@ -1,2 +1,2 @@ a()\n\n-b\n+c\n@@ -9,2 +9,2 @@ d()\n \n-\x7d\n+\x7d;\n\\ No newline at end of file\n"

def closingBracePatch : Patch where
  path := ⟨"f"⟩
  kind := .modify
  hunks := [⟨1, 2, 1, 2, some "a()", [⟨.context, "\n"⟩, ⟨.deletion, "b\n"⟩, ⟨.insertion, "c\n"⟩]⟩,
    ⟨9, 2, 9, 2, some "d()", [⟨.context, "\n"⟩, ⟨.deletion, "\x7d\n"⟩, ⟨.insertion, "\x7d;"⟩]⟩]

/-- The first hunk is reported as it stands in the patch, and the second one without its marker. -/
theorem conflict_text_eq_render_iff_closingBrace :
    let early : Hunk.Conflict := ⟨0, "@@ -1,2 +1,2 @@ a()", 1, " \n-b\n+c\n"⟩
    let late : Hunk.Conflict := ⟨1, "@@ -9,2 +9,2 @@ d()", 9, " \n-\x7d\n+\x7d;\n"⟩
    parse closingBrace = .ok closingBracePatch ∧
      closingBracePatch.onFile (some (.ofText "b\n\n\x7d\n")) = .error (.conflict early) ∧
      (∃ k, closingBracePatch.hunks[0]? = some k ∧ early.text = k.render ∧
        Hunk.readHunks 1 (Text.lines early.text) = .ok [k]) ∧
      closingBracePatch.onFile (some (.ofText "\nb\n\n\x7d")) = .error (.conflict late) ∧
      ∃ k, closingBracePatch.hunks[1]? = some k ∧ late.text ≠ k.render ∧
        Hunk.readHunks 1 (Text.lines late.text) ≠ .ok [k] := by
  intro early late
  have hparse : parse closingBrace = .ok closingBracePatch := by decide +kernel
  have hearly : closingBracePatch.onFile (some (.ofText "b\n\n\x7d\n")) = .error
    (.conflict early) := by decide +kernel
  have hlate : closingBracePatch.onFile (some (.ofText "\nb\n\n\x7d")) = .error
    (.conflict late) := by decide +kernel
  refine ⟨hparse, hearly, ?_, hlate, ?_⟩
  · obtain ⟨k, hk, -, htext, hread⟩ :=
      (conflict_text_eq_render_iff hparse hearly).resolve_left (by decide)
    obtain rfl := Option.some.inj hk
    exact ⟨_, hk, htext.2 (by decide), (hread 1).2 (by decide)⟩
  · obtain ⟨k, hk, -, htext, hread⟩ :=
      (conflict_text_eq_render_iff hparse hlate).resolve_left (by decide)
    obtain rfl := Option.some.inj hk
    exact ⟨_, hk, fun heq => absurd (htext.1 heq) (by decide),
      fun heq => absurd ((hread 1).1 heq).1 (by decide)⟩

/-- A file that ends without a newline makes a report that is not the text of its hunk. -/
theorem not_forall_conflict_text_eq_render : ¬ ∀ text p current c k, parse text = .ok p →
    p.onFile current = .error (.conflict c) → p.hunks[c.index]? = some k → c.text = k.render := by
  intro h
  have hparse : parse
      "--- a/f\n+++ b/f\n@@ -1 +1 @@\n-a\n\\ No newline at end of file\n+b\n\\ No newline at end of file\n" =
      .ok ⟨⟨"f"⟩, .modify, [⟨1, 1, 1, 1, none, [⟨.deletion, "a"⟩, ⟨.insertion, "b"⟩]⟩]⟩ := by
    decide +kernel
  have hconflict : onFile ⟨⟨"f"⟩, .modify,
      [⟨1, 1, 1, 1, none, [⟨.deletion, "a"⟩, ⟨.insertion, "b"⟩]⟩]⟩ (some (.ofText "c")) = .error
      (.conflict ⟨0, "@@ -1 +1 @@", 1, "-a\n+b\n"⟩) := by
    decide +kernel
  exact absurd (h _ _ _ _ _ hparse hconflict rfl) (by decide +kernel)

end Patch

end Patchwork
