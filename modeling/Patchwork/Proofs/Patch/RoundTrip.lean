import Mathlib.Data.List.Chain
import Patchwork.Patch.Parser
import Patchwork.Patch.Printer
import Patchwork.Proofs.Hunk.RoundTrip
import Patchwork.Proofs.Patch.FileName

/-!
# Patches are read back

A valid patch is read back from its text (`parse_render`). Its text is cut into the lines it was
made of, since no name and no heading holds a newline; both headers name the path again; and the
hunks have a shape that their kind of patch allows.
-/
namespace Patchwork.Patch

/-- A patch that can be written and read: a path of a file, hunks in order that can be written, and
of these as many and such as its kind allows. -/
structure IsValid (p : Patch) : Prop where
  path : p.path.IsFilePath
  modify : p.kind = .modify → p.hunks ≠ []
  create : p.kind = .create →
    p.hunks.length ≤ 1 ∧ ∀ h ∈ p.hunks, h.oldStart = 0 ∧ h.oldLength = 0
  delete : p.kind = .delete →
    p.hunks.length ≤ 1 ∧ ∀ h ∈ p.hunks, h.newStart = 0 ∧ h.newLength = 0
  hunks : ∀ h ∈ p.hunks, h.IsValid
  ordered : p.hunks.IsChain fun h k => h.oldIndex + h.oldLength ≤ k.oldIndex

instance (p : Patch) : Decidable p.IsValid :=
  decidable_of_iff (p.path.IsFilePath ∧ (p.kind = .modify → p.hunks ≠ []) ∧
      (p.kind = .create → p.hunks.length ≤ 1 ∧ ∀ h ∈ p.hunks, h.oldStart = 0 ∧ h.oldLength = 0) ∧
      (p.kind = .delete → p.hunks.length ≤ 1 ∧ ∀ h ∈ p.hunks, h.newStart = 0 ∧ h.newLength = 0) ∧
      (∀ h ∈ p.hunks, h.IsValid) ∧
      p.hunks.IsChain fun h k => h.oldIndex + h.oldLength ≤ k.oldIndex)
    ⟨fun ⟨hp, hm, hc, hd, hh, ho⟩ => ⟨hp, hm, hc, hd, hh, ho⟩,
      fun ⟨hp, hm, hc, hd, hh, ho⟩ => ⟨hp, hm, hc, hd, hh, ho⟩⟩

/-! ## The lines of a patch -/

def textLines (p : Patch) : List String :=
  ("--- " ++ (p.oldName ++ "\n")) :: ("+++ " ++ (p.newName ++ "\n")) ::
    p.hunks.flatMap Hunk.textLines

theorem join_textLines (p : Patch) : Text.join p.textLines = p.render := by
  rw [textLines, render, ← Hunk.join_flatMap_textLines]
  apply String.toList_inj.1
  simp

theorem newline_notMem_oldName (p : Patch) : '\n' ∉ p.oldName.toList := by
  unfold oldName
  split
  · decide
  · rw [String.toList_ofList]
    exact newline_notMem_headerName _ _

theorem newline_notMem_newName (p : Patch) : '\n' ∉ p.newName.toList := by
  unfold newName
  split
  · decide
  · rw [String.toList_ofList]
    exact newline_notMem_headerName _ _

theorem isTerminated_of_mem_textLines {p : Patch} {l : String} (h : l ∈ p.textLines) :
    Text.isTerminated l = true := by
  rcases List.mem_cons.1 h with rfl | h
  · rw [← String.append_assoc]
    exact Text.isTerminated_append_newline _
  · rcases List.mem_cons.1 h with rfl | h
    · rw [← String.append_assoc]
      exact Text.isTerminated_append_newline _
    · exact Hunk.isTerminated_of_mem_flatMap_textLines l h

theorem isLine_of_mem_textLines {p : Patch} (hp : ∀ h ∈ p.hunks, h.IsLegible) {l : String}
    (h : l ∈ p.textLines) : Text.IsLine l := by
  rcases List.mem_cons.1 h with rfl | h
  · rw [← String.append_assoc]
    exact Text.isLine_append_newline (by simp [newline_notMem_oldName p])
  · rcases List.mem_cons.1 h with rfl | h
    · rw [← String.append_assoc]
      exact Text.isLine_append_newline (by simp [newline_notMem_newName p])
    · exact Hunk.isLine_of_mem_flatMap_textLines hp l h

theorem lines_render {p : Patch} (hp : ∀ h ∈ p.hunks, h.IsLegible) :
    Text.lines p.render = p.textLines := by
  rw [← join_textLines]
  exact Text.lines_join (fun l hl => isLine_of_mem_textLines hp hl)
    fun l hl => isTerminated_of_mem_textLines hl

/-! ## Headers and shape -/

theorem readName_oldName {p : Patch} (hp : p.path.IsFilePath) (number : Nat) :
    readName number .old (p.oldName ++ "\n") =
      .ok (if p.kind = .create then none else some p.path) := by
  unfold oldName
  split
  · exact readName_absentName number .old
  · exact readName_headerName_of_isFilePath hp number .old

theorem readName_newName {p : Patch} (hp : p.path.IsFilePath) (number : Nat) :
    readName number .new (p.newName ++ "\n") =
      .ok (if p.kind = .delete then none else some p.path) := by
  unfold newName
  split
  · exact readName_absentName number .new
  · exact readName_headerName_of_isFilePath hp number .new

theorem kindOfNames_kind (number : Nat) (path : TreePath) (kind : PatchKind) :
    kindOfNames number (if kind = .create then none else some path)
      (if kind = .delete then none else some path) = .ok (path, kind) := by
  cases kind <;> simp [kindOfNames]

theorem firstOutOfOrder?_eq_none {floor : Nat} {hs : List Hunk}
    (hfloor : ∀ h ∈ hs.head?, floor ≤ h.oldIndex)
    (hs' : hs.IsChain fun h k => h.oldIndex + h.oldLength ≤ k.oldIndex) :
    firstOutOfOrder? floor hs = none := by
  induction hs generalizing floor with
  | nil => rfl
  | cons h hs ih =>
    have hle : floor ≤ h.oldIndex := hfloor h rfl
    obtain ⟨hnext, hs'⟩ := List.isChain_cons.1 hs'
    rw [firstOutOfOrder?, if_neg (Nat.not_lt.2 hle)]
    exact ih (fun k hk => Nat.le_trans (Nat.min_le_left _ _) (hnext k hk)) hs'

theorem shapeFault?_eq_none_iff {kind : PatchKind} {hs : List Hunk} :
    shapeFault? kind hs = none ↔ (kind = .modify → hs ≠ []) ∧
      (kind = .create → hasOnlyInsertions hs = true) ∧
      (kind = .delete → hasOnlyDeletions hs = true) ∧ firstOutOfOrder? 0 hs = none := by
  unfold shapeFault?
  cases kind with
  | modify => by_cases hnil : hs = [] <;> simp [hnil]
  | create => cases hasOnlyInsertions hs <;> simp
  | delete => cases hasOnlyDeletions hs <;> simp

theorem IsValid.shapeFault?_eq_none {p : Patch} (hp : p.IsValid) :
    shapeFault? p.kind p.hunks = none := by
  refine shapeFault?_eq_none_iff.2 ⟨hp.modify, fun hk => ?_, fun hk => ?_, ?_⟩
  · simpa [hasOnlyInsertions] using hp.create hk
  · simpa [hasOnlyDeletions] using hp.delete hk
  · exact firstOutOfOrder?_eq_none (fun h _ => Nat.zero_le _) hp.ordered

theorem headerValue?_append {mark : List Char} {s t : String} (h : s.toList = mark) :
    headerValue? mark (s ++ t) = some t := by
  simp [headerValue?, h]

/-- A patch whose text is read as it is, but for carriage returns at the end of headings. -/
structure IsLegible (p : Patch) : Prop where
  path : p.path.IsFilePath
  shape : shapeFault? p.kind p.hunks = none
  hunks : ∀ h ∈ p.hunks, h.IsLegible

theorem IsValid.isLegible {p : Patch} (hp : p.IsValid) : p.IsLegible where
  path := hp.path
  shape := hp.shapeFault?_eq_none
  hunks := fun h hh => (hp.hunks h hh).isLegible

def withoutReturns (p : Patch) : Patch := { p with hunks := p.hunks.map Hunk.withoutReturn }

theorem withoutReturns_eq_self_iff {p : Patch} (hp : ∀ h ∈ p.hunks, h.IsLegible) :
    p.withoutReturns = p ↔ ∀ h ∈ p.hunks, ∀ t ∈ h.heading, t.toList.getLast? ≠ some '\r' := by
  have hmap : p.withoutReturns = p ↔ p.hunks.map Hunk.withoutReturn = p.hunks.map id := by
    rw [List.map_id]
    exact ⟨fun he => congrArg hunks he, fun he => congrArg (fun hs => { p with hunks := hs }) he⟩
  rw [hmap, List.map_inj_left]
  exact forall₂_congr fun h hh => (hp h hh).withoutReturn_eq_self_iff

theorem IsValid.withoutReturns_eq_self {p : Patch} (hp : p.IsValid) : p.withoutReturns = p :=
  (withoutReturns_eq_self_iff hp.isLegible.hunks).2 fun h hh t ht =>
    ((hp.hunks h hh).heading t ht).2.2

theorem firstOutOfOrder?_map_withoutReturn (floor : Nat) (hs : List Hunk) :
    firstOutOfOrder? floor (hs.map Hunk.withoutReturn) =
      (firstOutOfOrder? floor hs).map Hunk.withoutReturn := by
  induction hs generalizing floor with
  | nil => rfl
  | cons h hs ih =>
    rw [List.map_cons, firstOutOfOrder?, firstOutOfOrder?]
    by_cases hlt : h.oldIndex < floor
    · rw [if_pos hlt, if_pos (show h.withoutReturn.oldIndex < floor from hlt)]
      rfl
    · rw [if_neg hlt, if_neg (show ¬h.withoutReturn.oldIndex < floor from hlt)]
      exact ih _

/-- The shape of hunks does not depend on their headings. -/
theorem shapeFault?_map_withoutReturn {kind : PatchKind} {hs : List Hunk}
    (h : shapeFault? kind hs = none) : shapeFault? kind (hs.map Hunk.withoutReturn) = none := by
  have hinsertions : hasOnlyInsertions (hs.map Hunk.withoutReturn) = hasOnlyInsertions hs := by
    simp only [hasOnlyInsertions, List.length_map, List.all_map]
    rfl
  have hdeletions : hasOnlyDeletions (hs.map Hunk.withoutReturn) = hasOnlyDeletions hs := by
    simp only [hasOnlyDeletions, List.length_map, List.all_map]
    rfl
  rw [shapeFault?_eq_none_iff] at h ⊢
  rw [hinsertions, hdeletions, firstOutOfOrder?_map_withoutReturn, Ne, List.map_eq_nil_iff,
    Option.map_eq_none_iff]
  exact h

/-- A legible patch is read from the lines it is written as, but for returns at the end of
headings. -/
theorem IsLegible.ofLines_textLines {p : Patch} (hp : p.IsLegible) :
    ofLines p.textLines = .ok p.withoutReturns := by
  have hold : headerValue? oldHeaderMark ("--- " ++ (p.oldName ++ "\n")) = some
      (p.oldName ++ "\n") :=
    headerValue?_append rfl
  have hnew : headerValue? newHeaderMark ("+++ " ++ (p.newName ++ "\n")) = some
      (p.newName ++ "\n") :=
    headerValue?_append rfl
  have hhunks := Hunk.readHunks_textLines 3 hp.hunks
  have hshape := shapeFault?_map_withoutReturn hp.shape
  simp only [ofLines, textLines, findOldHeader, hold, hnew, bind, Except.bind,
    readName_oldName hp.path, readName_newName hp.path, kindOfNames_kind, hhunks, hshape]
  rfl

theorem IsLegible.parse_text_eq {p : Patch} (hp : p.IsLegible) :
    parse p.render = .ok p.withoutReturns := by
  rw [parse, lines_render hp.hunks, hp.ofLines_textLines]

/-- The text of a valid patch is read as that patch. -/
theorem parse_render {p : Patch} (hp : p.IsValid) : parse p.render = .ok p := by
  rw [hp.isLegible.parse_text_eq, hp.withoutReturns_eq_self]

theorem IsValid.parse_toStored {p : Patch} (hp : p.IsValid) : p.toStored.parse = .ok p := by
  have hparse : parse p.render = .ok p := by
    rw [hp.isLegible.parse_text_eq, hp.withoutReturns_eq_self]
  simp only [StoredPatch.parse, toStored, hparse, if_true]

/-- A patch with a name to be quoted, a heading that could be the end of a header, lines that look
like headers, and a last line that is empty and has no newline. -/
def ambiguous : Patch where
  path := ⟨"dir/a \"b\"\té"⟩
  kind := .modify
  hunks := [
    ⟨1, 2, 1, 2, some " @@ -1 +1 @@",
      [⟨.context, "\n"⟩, ⟨.deletion, "-- a/x\n"⟩, ⟨.insertion, "++ b/x\n"⟩]⟩,
    ⟨3, 1, 3, 1, none, [⟨.deletion, "\\ No newline"⟩, ⟨.insertion, ""⟩]⟩]

theorem parse_render_ambiguous : ambiguous.IsValid ∧ parse ambiguous.render = .ok ambiguous := by
  have hvalid : ambiguous.IsValid := by decide
  exact ⟨hvalid, parse_render hvalid⟩

end Patchwork.Patch
