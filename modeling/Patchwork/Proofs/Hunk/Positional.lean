import Patchwork.Proofs.Hunk.Placement
import Patchwork.Proofs.Tree.Text

/-!
# Patching without a search

Hunks whose old lines stand where their headers say are not moved, however many other places hold
the same lines. To apply them is to replace each block where it is declared (`positional`), as
`applyAll_eq_positional` says.
-/
namespace Patchwork.Hunk

def replaceDeclared (h : Hunk) (lines : List String) : List String :=
  lines.take h.oldIndex ++ h.newLines ++ lines.drop (h.oldIndex + h.oldLength)

/-- The lines with the declared blocks of all hunks replaced. The last one comes first, so those in
front of it still stand where they are declared. -/
def positional (lines : List String) (hs : List Hunk) : List String :=
  hs.foldr replaceDeclared lines

/-- The hunk's old lines stand among the lines where its header says, and it counts them. -/
structure StandsIn (h : Hunk) (lines : List String) : Prop where
  oldLength : h.oldLength = h.oldLines.length
  inside : h.oldIndex + h.oldLength ≤ lines.length
  occurs : h.oldLines <+: lines.drop h.oldIndex

instance (h : Hunk) (lines : List String) : Decidable (h.StandsIn lines) :=
  decidable_of_iff (h.oldLength = h.oldLines.length ∧ h.oldIndex + h.oldLength ≤ lines.length ∧
      h.oldLines <+: lines.drop h.oldIndex)
    ⟨fun ⟨hl, hi, ho⟩ => ⟨hl, hi, ho⟩, fun ⟨hl, hi, ho⟩ => ⟨hl, hi, ho⟩⟩

variable {lines : List String} {hs : List Hunk}

theorem positional_cons (lines : List String) (h : Hunk) (hs : List Hunk) :
    positional lines (h :: hs) = h.replaceDeclared (positional lines hs) := rfl

theorem take_positional (hinside : ∀ h ∈ hs, h.oldIndex ≤ lines.length)
    (hordered : hs.Pairwise fun h k => h.oldIndex + h.oldLength ≤ k.oldIndex) {n : Nat}
    (hn : ∀ h ∈ hs, n ≤ h.oldIndex) : (positional lines hs).take n = lines.take n := by
  induction hs generalizing n with
  | nil => rfl
  | cons h hs ih =>
    obtain ⟨hle, hinside⟩ := List.forall_mem_cons.1 hinside
    obtain ⟨hnext, hordered⟩ := List.pairwise_cons.1 hordered
    have hfirst : n ≤ h.oldIndex := hn h List.mem_cons_self
    have hkept : (positional lines hs).take h.oldIndex = lines.take h.oldIndex :=
      ih hinside hordered fun k hk => Nat.le_trans (Nat.le_add_right _ _) (hnext k hk)
    have hlength : n ≤ (lines.take h.oldIndex).length := by
      rw [List.length_take]
      omega
    calc (positional lines (h :: hs)).take n
        = (lines.take h.oldIndex ++ h.newLines ++
            (positional lines hs).drop (h.oldIndex + h.oldLength)).take n := by
          rw [positional_cons, replaceDeclared, hkept]
      _ = (lines.take h.oldIndex).take n := by
          rw [List.append_assoc, List.take_append_of_le_length hlength]
      _ = lines.take n := by rw [List.take_take, Nat.min_eq_left hfirst]

/-- Splicing hunks in at their declared places gives the same lines, from any line on that no block
reaches back to. -/
theorem splice_eq_drop_positional (hstands : ∀ h ∈ hs, h.StandsIn lines)
    (hordered : hs.Pairwise fun h k => h.oldIndex + h.oldLength ≤ k.oldIndex) {cursor : Nat}
    (hcursor : ∀ h ∈ hs, cursor ≤ h.oldIndex) :
    splice lines cursor ((hs.map oldIndex).zip hs) = (positional lines hs).drop cursor := by
  induction hs generalizing cursor with
  | nil => rfl
  | cons h hs ih =>
    obtain ⟨hh, hstands⟩ := List.forall_mem_cons.1 hstands
    obtain ⟨hnext, hordered⟩ := List.pairwise_cons.1 hordered
    have hfirst : cursor ≤ h.oldIndex := hcursor h List.mem_cons_self
    have hle : ∀ k ∈ hs, k.oldIndex ≤ lines.length := fun k hk =>
      Nat.le_trans (Nat.le_add_right _ _) (hstands k hk).inside
    have hkept : (positional lines hs).take h.oldIndex = lines.take h.oldIndex :=
      take_positional hle hordered fun k hk => Nat.le_trans (Nat.le_add_right _ _) (hnext k hk)
    have hlength : cursor ≤ (lines.take h.oldIndex).length := by
      have hinside := hh.inside
      rw [List.length_take]
      omega
    rw [List.map_cons, List.zip_cons_cons, splice, ← hh.oldLength, ih hstands hordered hnext,
      positional_cons, replaceDeclared, hkept, List.append_assoc, List.append_assoc,
      List.drop_append_of_le_length hlength, List.drop_take]

theorem applyLines_eq_positional (hlines : lines.length ≤ maxShift)
    (hstands : ∀ h ∈ hs, h.StandsIn lines)
    (hordered : hs.Pairwise fun h k => h.oldIndex + h.oldLength ≤ k.oldIndex) :
    applyLines lines hs = .ok (positional lines hs) := by
  have hoccurs : ∀ h ∈ hs, h.oldIndex + h.oldLines.length ≤ lines.length ∧
      occursAt lines h.oldLines h.oldIndex = true := fun h hh =>
    ⟨(hstands h hh).oldLength ▸ (hstands h hh).inside, occursAt_iff.2 (hstands h hh).occurs⟩
  have hchain : hs.IsChain fun h k => h.oldIndex + h.oldLines.length ≤ k.oldIndex :=
    (hordered.imp_of_mem fun hh _ hle => (hstands _ hh).oldLength ▸ hle).isChain
  rw [applyLines, place_of_occursAt hlines 0 hoccurs (fun h _ => Nat.zero_le _) hchain]
  dsimp only
  rw [splice_eq_drop_positional hstands hordered fun h _ => Nat.zero_le _, List.drop_zero]

/-- Hunks whose old lines stand in a text where their headers say, one behind the other, apply to it
and replace each block there, wherever else the text holds the same lines. The text fits into
memory, as every text does. -/
theorem applyAll_eq_positional {text : String} (htext : text.toUTF8.size ≤ Content.maxSize)
    (hstands : ∀ h ∈ hs, h.StandsIn (Text.lines text))
    (hordered : hs.Pairwise fun h k => h.oldIndex + h.oldLength ≤ k.oldIndex) :
    applyAll text hs = .ok (Text.join (positional (Text.lines text) hs)) := by
  have hlines : (Text.lines text).length ≤ maxShift :=
    Nat.le_trans (Text.length_lines_le text) htext
  rw [applyAll, applyLines_eq_positional hlines hstands hordered]

/-- Insertions at both ends and two adjacent blocks, in a text whose lines are all the same. -/
theorem applyAll_eq_positional_alike :
    let text := "x\nx\nx\nx\n"
    let hs : List Hunk := [⟨0, 0, 1, 1, none, [⟨.insertion, "a\n"⟩]⟩,
      ⟨2, 1, 3, 1, none, [⟨.deletion, "x\n"⟩, ⟨.insertion, "y\n"⟩]⟩,
        ⟨3, 1, 3, 0, none, [⟨.deletion, "x\n"⟩]⟩,
      ⟨4, 0, 5, 1, none, [⟨.insertion, "z\n"⟩]⟩]
    text.toUTF8.size ≤ Content.maxSize ∧ (∀ h ∈ hs, h.StandsIn (Text.lines text)) ∧
      (hs.Pairwise fun h k => h.oldIndex + h.oldLength ≤ k.oldIndex) ∧
        applyAll text hs = .ok "a\nx\ny\nx\nz\n" := by
  intro text hs
  have htext : text.toUTF8.size ≤ Content.maxSize := by decide +kernel
  have hstands : ∀ h ∈ hs, h.StandsIn (Text.lines text) := by decide +kernel
  have hordered : hs.Pairwise fun h k => h.oldIndex + h.oldLength ≤ k.oldIndex := by decide +kernel
  exact ⟨htext, hstands, hordered, (applyAll_eq_positional htext hstands hordered).trans
    (by decide +kernel)⟩

end Patchwork.Hunk
