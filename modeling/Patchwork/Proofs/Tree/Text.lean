import Mathlib.Data.Option.Basic
import Patchwork.Hunk.Placement
import Patchwork.Proofs.SortedMap
import Patchwork.Proofs.Text.Lines
import Patchwork.Tree.Region

/-!
# Text in a tree

A file that holds text is known by its text. What fits into memory has no more lines than octets, so
its lines can be counted by the numbers of a hunk.
-/
namespace Patchwork

namespace Text

theorem length_cutLines_le (cs : List Char) : (cutLines cs).length ≤ cs.length := by
  induction cs with
  | nil => exact Nat.le_refl _
  | cons c cs ih =>
    rw [cutLines]
    split
    · rw [List.length_cons, List.length_cons]
      omega
    · cases hcs : cutLines cs with
      | nil => simp
      | cons l ls =>
        rw [hcs, List.length_cons] at ih
        simp only [List.length_cons]
        omega

theorem length_le_octets (cs : List Char) : cs.length ≤ cs.utf8Encode.size := by
  induction cs with
  | nil => exact Nat.zero_le _
  | cons c cs ih =>
    have hc := c.utf8Size_pos
    rw [List.utf8Encode_cons, ByteArray.size_append, List.utf8Encode_singleton,
      List.size_toByteArray, String.length_utf8EncodeChar, List.length_cons]
    omega

theorem length_lines_le (s : String) : (lines s).length ≤ s.toUTF8.size := by
  rw [lines, List.length_map, String.toUTF8_eq_toByteArray, ← String.utf8Encode_toList]
  exact Nat.le_trans (length_cutLines_le _) (length_le_octets _)

end Text

namespace Content

def IsText (c : Content) : Prop := ∃ s, c.text? = some s

instance (c : Content) : Decidable c.IsText :=
  decidable_of_iff _ Option.isSome_iff_exists

theorem ofText_of_text? {c : Content} {s : String} (h : c.text? = some s) : ofText s = c := by
  simp only [text?, String.fromUTF8?] at h
  split at h
  · rw [← Option.some.inj h]
    rfl
  · contradiction

def TextOrAbsent (version : Option Content) : Prop := ∀ c ∈ version, c.IsText

instance (version : Option Content) : Decidable (TextOrAbsent version) :=
  inferInstanceAs (Decidable (∀ c ∈ version, c.IsText))

theorem textOrAbsent_iff {version : Option Content} :
    TextOrAbsent version ↔ ∃ text : Option String, version = text.map ofText := by
  constructor
  · intro h
    cases version with
    | none => exact ⟨none, rfl⟩
    | some c =>
      obtain ⟨s, hs⟩ := h c rfl
      exact ⟨some s, by rw [Option.map_some, ofText_of_text? hs]⟩
  · rintro ⟨text, rfl⟩ c hc
    obtain ⟨s, -, rfl⟩ := Option.map_eq_some_iff.1 hc
    exact ⟨s, text?_ofText s⟩

/-- The largest number of octets in one block of memory. No file that is held in memory is
longer. -/
def maxSize : Nat := UInt64.size / 2 - 1

theorem length_lines_le {text : Option String} (h : ∀ c ∈ text.map ofText, c.size ≤ maxSize) :
    (Text.lines (text.getD "")).length ≤ Hunk.maxShift := by
  cases text with
  | none =>
    rw [Option.getD_none, Text.lines_empty]
    exact Nat.zero_le _
  | some s => exact Nat.le_trans (Text.length_lines_le s) (h (ofText s) rfl)

end Content

namespace Tree

/-- Every file fits into memory, as it must to be held in a tree. -/
def Fits (t : Tree) : Prop := ∀ path, ∀ c ∈ t.get? path, c.size ≤ Content.maxSize

theorem fits_iff {t : Tree} : t.Fits ↔ ∀ e ∈ t.toList, e.2.size ≤ Content.maxSize := by
  constructor
  · rintro h ⟨path, c⟩ he
    exact h path c (SortedMap.get?_eq_some_iff.2 he)
  · intro h path c hc
    exact h (path, c) (SortedMap.get?_eq_some_iff.1 hc)

instance (t : Tree) : Decidable t.Fits := decidable_of_iff _ fits_iff.symm

theorem Fits.subtree {t : Tree} (h : t.Fits) (dir : TreePath) (excludes : List TreePath) :
    (t.subtree dir excludes).Fits := by
  intro path c hc
  have hmem := SortedMap.mem_of_get?_ofList hc
  obtain ⟨e, he, heq⟩ := List.mem_filterMap.1 hmem
  split at heq
  · cases heq
  · split at heq
    · cases heq
    · cases heq
      exact fits_iff.1 h e he

theorem Fits.insert {t : Tree} (h : t.Fits) {path : TreePath} {c : Content}
    (hc : c.size ≤ Content.maxSize) : Fits (SortedMap.insert t path c) := by
  intro p c' hc'
  rw [SortedMap.get?_insert] at hc'
  split at hc'
  · cases hc'
    exact hc
  · exact h p c' hc'

theorem Fits.erase {t : Tree} (h : t.Fits) (path : TreePath) : Fits (SortedMap.erase t path) := by
  intro p c hc
  rw [SortedMap.get?_erase] at hc
  split at hc
  · cases hc
  · exact h p c hc

theorem Fits.clearRegion {t : Tree} (h : t.Fits) (dir : TreePath) (excludes : List TreePath) :
    (t.clearRegion dir excludes).Fits := by
  intro p c hc
  rw [Tree.clearRegion, SortedMap.get?_filter] at hc
  exact h p c (Option.filter_eq_some_iff.1 hc).1

theorem Fits.graft {t s : Tree} (ht : t.Fits) (hs : s.Fits) (dir : TreePath) :
    (t.graft dir s).Fits := by
  have hentries := fits_iff.1 hs
  unfold Tree.graft
  generalize s.toList = entries at hentries ⊢
  induction entries generalizing t with
  | nil => exact ht
  | cons e es ih =>
    rw [List.foldl_cons]
    exact ih (ht.insert (hentries e (by simp))) fun e' he' => hentries e' (by simp [he'])

end Tree

end Patchwork
