import Patchwork.Patch.Basic
import Patchwork.Proofs.Hunk.Header

/-!
# Hunks are read back

A hunk is written as a header line and, for each line of its body, one line or two: the line itself
and the marker of a missing newline. Reading exactly as many lines as the header announces gives the
body back, whatever its lines look like, and leaves the lines of the next hunk. So a list of hunks
is read back, but for carriage returns at the end of headings (`readHunks_textLines`).
-/
namespace Patchwork

namespace Line

def textLines (l : Line) : List String :=
  let shown := String.singleton l.kind.sigil ++ l.text
  if Text.isTerminated l.text then [shown] else [shown ++ "\n", unterminatedMarker ++ "\n"]

theorem join_textLines (l : Line) : Text.join l.textLines = l.render := by
  apply String.toList_inj.1
  unfold textLines render
  split <;> simp

theorem isTerminated_of_mem_textLines {l : Line} {k : String} (h : k ∈ l.textLines) :
    Text.isTerminated k = true := by
  unfold textLines at h
  split at h
  · rename_i ht
    rw [List.mem_singleton] at h
    rw [Text.isTerminated_iff] at ht ⊢
    simp [h, ht, List.getLast?_cons]
  · simp only [List.mem_cons, List.not_mem_nil, or_false] at h
    rcases h with rfl | rfl <;> exact Text.isTerminated_append_newline _

theorem isLine_of_mem_textLines {l : Line} (hl : Text.IsLine l.text) {k : String}
    (h : k ∈ l.textLines) : Text.IsLine k := by
  have hsigil : '\n' ≠ l.kind.sigil := by cases l.kind <;> decide
  unfold textLines at h
  split at h
  · rename_i ht
    rw [List.mem_singleton] at h
    obtain ⟨cs, hcs, hn⟩ := hl.exists_eq_append ht
    rw [h, Text.IsLine, String.toList_append, hcs, ← List.append_assoc, List.dropLast_concat]
    simp [hsigil, hn]
  · rename_i ht
    simp only [List.mem_cons, List.not_mem_nil, or_false] at h
    rcases h with rfl | rfl
    · have hn := hl.newline_notMem (Bool.eq_false_iff.2 ht)
      rw [Text.IsLine, String.toList_append, String.toList_append]
      simp [List.dropLast_cons_of_ne_nil, hsigil, hn]
    · decide

end Line

namespace Hunk

/-- A hunk that can be written: its header counts its lines, each of which is one, and holds
everything that a header is read for. -/
structure IsValid (h : Hunk) : Prop where
  oldLength : h.oldLength = h.oldLines.length
  newLength : h.newLength = h.newLines.length
  oldStart_le : h.oldStart ≤ maxNumber
  oldLength_le : h.oldLength ≤ maxNumber
  newStart_le : h.newStart ≤ maxNumber
  newLength_le : h.newLength ≤ maxNumber
  heading : ∀ t ∈ h.heading, IsHeading t
  lines : ∀ l ∈ h.lines, Text.IsLine l.text

instance (h : Hunk) : Decidable h.IsValid :=
  decidable_of_iff (h.oldLength = h.oldLines.length ∧ h.newLength = h.newLines.length ∧
      h.oldStart ≤ maxNumber ∧ h.oldLength ≤ maxNumber ∧ h.newStart ≤ maxNumber ∧
      h.newLength ≤ maxNumber ∧ (∀ t ∈ h.heading, IsHeading t) ∧ ∀ l ∈ h.lines, Text.IsLine l.text)
    ⟨fun ⟨ho, hn, hos, hol, hns, hnl, hh, hl⟩ => ⟨ho, hn, hos, hol, hns, hnl, hh, hl⟩,
      fun ⟨ho, hn, hos, hol, hns, hnl, hh, hl⟩ => ⟨ho, hn, hos, hol, hns, hnl, hh, hl⟩⟩

structure Announced (h : Hunk) : Prop where
  oldLength : h.oldLines.length = h.oldLength
  newLength : h.newLines.length = h.newLength
  isLine : ∀ l ∈ h.lines, Text.IsLine l.text

/-- A hunk whose text is read as it is, but for a carriage return at the end of its heading. -/
structure IsLegible (h : Hunk) : Prop extends Announced h where
  oldStart_le : h.oldStart ≤ maxNumber
  oldLength_le : h.oldLength ≤ maxNumber
  newStart_le : h.newStart ≤ maxNumber
  newLength_le : h.newLength ≤ maxNumber
  heading : ∀ t ∈ h.heading, t ≠ "" ∧ '\n' ∉ t.toList

theorem IsValid.isLegible {h : Hunk} (hh : h.IsValid) : h.IsLegible where
  oldLength := hh.oldLength.symm
  newLength := hh.newLength.symm
  isLine := hh.lines
  oldStart_le := hh.oldStart_le
  oldLength_le := hh.oldLength_le
  newStart_le := hh.newStart_le
  newLength_le := hh.newLength_le
  heading := fun t ht => ⟨(hh.heading t ht).1, (hh.heading t ht).2.1⟩

theorem IsLegible.withoutReturn_eq_self_iff {h : Hunk} (hh : h.IsLegible) :
    h.withoutReturn = h ↔ ∀ t ∈ h.heading, t.toList.getLast? ≠ some '\r' :=
  Hunk.withoutReturn_eq_self_iff fun t ht => (hh.heading t ht).1

theorem IsValid.withoutReturn_eq_self {h : Hunk} (hh : h.IsValid) : h.withoutReturn = h :=
  hh.isLegible.withoutReturn_eq_self_iff.2 fun t ht => (hh.heading t ht).2.2

def textLines (h : Hunk) : List String := (h.header ++ "\n") :: h.lines.flatMap Line.textLines

/-! ## Bodies -/

/-- Reading a body, without the proof that nothing is read twice. -/
theorem map_readBody_cons (header number old new : Nat) (l : String) (ls : List String) :
    (readBody header number old new (l :: ls)).map (·.1) =
      if old = 0 ∧ new = 0 then .ok ⟨[], number, l :: ls⟩
      else if isMarker l then .error ⟨number, .strayMarker⟩
      else match bodyLine? l with
        | none => .error ⟨number, .otherThanBodyLine (Text.stripTerminator l)⟩
        | some line =>
          if (line.kind.isOld ∧ old = 0) ∨ (line.kind.isNew ∧ new = 0) then
            .error ⟨number, .bodyTooLong⟩
          else
            let taken := takeMarker line (number + 1) ls
            ((readBody header taken.2.1 (old - line.kind.isOld.toNat)
              (new - line.kind.isNew.toNat) taken.2.2).map (·.1)).map fun b =>
                { b with lines := taken.1 :: b.lines } := by
  rw [readBody]
  by_cases hdone : old = 0 ∧ new = 0
  · rw [if_pos hdone, if_pos hdone]
    rfl
  rw [if_neg hdone, if_neg hdone]
  cases hm : isMarker l with
  | true => rfl
  | false =>
    cases hb : bodyLine? l with
    | none => rfl
    | some line =>
      by_cases hlong : (line.kind.isOld ∧ old = 0) ∨ (line.kind.isNew ∧ new = 0)
      · simp only [Bool.false_eq_true, if_false, if_pos hlong]
        rfl
      · simp only [Bool.false_eq_true, if_false, if_neg hlong]
        cases readBody header (takeMarker line (number + 1) ls).2.1 (old - line.kind.isOld.toNat)
          (new - line.kind.isNew.toNat) (takeMarker line (number + 1) ls).2.2 <;> rfl

theorem isMarker_sigil (k : LineKind) (s : String) :
    isMarker (String.singleton k.sigil ++ s) = false := by
  cases k <;> simp [isMarker, LineKind.sigil]

theorem bodyLine?_sigil (k : LineKind) (s : String) :
    bodyLine? (String.singleton k.sigil ++ s) = some ⟨k, withNewline s⟩ := by
  cases k <;> simp [bodyLine?, LineKind.sigil]

theorem exists_read_textLines (l : Line) (number : Nat) {rest : List String}
    (hrest : rest.head?.any isMarker = false) :
    ∃ first tail line next, l.textLines ++ rest = first :: tail ∧ isMarker first = false ∧
      bodyLine? first = some line ∧ line.kind = l.kind ∧
      takeMarker line number tail = (l, next, rest) := by
  unfold Line.textLines
  by_cases ht : Text.isTerminated l.text = true
  · refine ⟨_, rest, ⟨l.kind, l.text⟩, number, by
      rw [if_pos ht]; rfl, isMarker_sigil _ _, ?_, rfl, ?_⟩
    · rw [bodyLine?_sigil, withNewline, if_pos ht]
    · cases rest with
      | nil => rfl
      | cons m ms =>
        rw [List.head?_cons, Option.any_some] at hrest
        simp [takeMarker, hrest]
  · refine ⟨_, (Line.unterminatedMarker ++ "\n") :: rest, ⟨l.kind, l.text ++ "\n"⟩, number + 1,
      by rw [if_neg ht]; rfl, ?_, ?_, rfl, ?_⟩
    · rw [String.append_assoc]
      exact isMarker_sigil _ _
    · rw [String.append_assoc, bodyLine?_sigil, withNewline,
        if_pos (Text.isTerminated_append_newline _)]
    · have hmarker : isMarker (Line.unterminatedMarker ++ "\n") = true := by decide
      simp [takeMarker, hmarker, Text.dropNewline_append_newline]

theorem head?_textLines_any_isMarker (ls : List Line) {rest : List String}
    (hrest : rest.head?.any isMarker = false) :
    (ls.flatMap Line.textLines ++ rest).head?.any isMarker = false := by
  cases ls with
  | nil => exact hrest
  | cons l ls =>
    obtain ⟨first, tail, _, _, heq, hfirst, -⟩ := exists_read_textLines l 0
      (head?_textLines_any_isMarker ls hrest)
    rw [List.flatMap_cons, List.append_assoc, heq]
    simpa using hfirst

/-- A body is read up to its last line, when both sides are complete. -/
theorem readBody_textLines (header number : Nat) (ls : List Line) {rest : List String}
    (hrest : rest.head?.any isMarker = false) :
    ∃ next, (readBody header number (ls.countP (·.kind.isOld)) (ls.countP (·.kind.isNew))
      (ls.flatMap Line.textLines ++ rest)).map (·.1) = .ok ⟨ls, next, rest⟩ := by
  induction ls generalizing number with
  | nil =>
    refine ⟨number, ?_⟩
    rw [List.countP_nil, List.countP_nil, readBody.eq_def, if_pos ⟨rfl, rfl⟩]
    rfl
  | cons l ls ih =>
    have hrest' := head?_textLines_any_isMarker ls hrest
    obtain ⟨first, tail, line, n, heq, hfirst, hline, hkind, htaken⟩ :=
      exists_read_textLines l (number + 1) hrest'
    obtain ⟨next, ih⟩ := ih n
    refine ⟨next, ?_⟩
    have hcounts : ¬((l :: ls).countP (·.kind.isOld) = 0 ∧
        (l :: ls).countP (·.kind.isNew) = 0) := by
      simp only [List.countP_cons]
      cases l.kind <;> simp [LineKind.isOld, LineKind.isNew]
    have hlong : ¬((l.kind.isOld ∧ (l :: ls).countP (·.kind.isOld) = 0) ∨
        (l.kind.isNew ∧ (l :: ls).countP (·.kind.isNew) = 0)) := by
      simp only [List.countP_cons]
      cases l.kind <;> simp [LineKind.isOld, LineKind.isNew]
    have hold : (l :: ls).countP (·.kind.isOld) - l.kind.isOld.toNat = ls.countP
        (·.kind.isOld) := by
      rw [List.countP_cons]
      cases l.kind.isOld <;> simp
    have hnew : (l :: ls).countP (·.kind.isNew) - l.kind.isNew.toNat = ls.countP
        (·.kind.isNew) := by
      rw [List.countP_cons]
      cases l.kind.isNew <;> simp
    rw [List.flatMap_cons, List.append_assoc, heq, map_readBody_cons, if_neg hcounts, hfirst,
      if_neg Bool.false_ne_true, hline]
    dsimp only
    rw [hkind, if_neg hlong, htaken, hold, hnew, ih]
    rfl

/-! ## Lists of hunks -/

theorem length_oldLines (h : Hunk) : h.oldLines.length = h.lines.countP (·.kind.isOld) := by
  rw [oldLines, List.length_map, List.countP_eq_length_filter]

theorem length_newLines (h : Hunk) : h.newLines.length = h.lines.countP (·.kind.isNew) := by
  rw [newLines, List.length_map, List.countP_eq_length_filter]

theorem join_textLines (h : Hunk) : Text.join h.textLines = h.render := by
  have hbody : Text.join (h.lines.flatMap Line.textLines) = Text.join
      (h.lines.map Line.render) := by
    induction h.lines with
    | nil => rfl
    | cons l ls ih =>
      rw [List.flatMap_cons, Text.join_append, ih, Line.join_textLines]
      apply String.toList_inj.1
      simp
  rw [textLines, render, ← hbody]
  apply String.toList_inj.1
  simp

theorem join_flatMap_textLines (hs : List Hunk) :
    Text.join (hs.flatMap textLines) = Text.join (hs.map render) := by
  induction hs with
  | nil => rfl
  | cons h hs ih =>
    rw [List.flatMap_cons, Text.join_append, ih, join_textLines]
    apply String.toList_inj.1
    simp

theorem isTerminated_of_mem_textLines {h : Hunk} {k : String} (hk : k ∈ h.textLines) :
    Text.isTerminated k = true := by
  rcases List.mem_cons.1 hk with rfl | hk
  · exact Text.isTerminated_append_newline _
  · obtain ⟨l, -, hk⟩ := List.mem_flatMap.1 hk
    exact Line.isTerminated_of_mem_textLines hk

theorem IsLegible.isLine_of_mem_textLines {h : Hunk} (hh : h.IsLegible) {k : String}
    (hk : k ∈ h.textLines) : Text.IsLine k := by
  rcases List.mem_cons.1 hk with rfl | hk
  · exact Text.isLine_append_newline (newline_notMem_header fun t ht => (hh.heading t ht).2)
  · obtain ⟨l, hl, hk⟩ := List.mem_flatMap.1 hk
    exact Line.isLine_of_mem_textLines (hh.isLine l hl) hk

theorem isTerminated_of_mem_flatMap_textLines {hs : List Hunk} :
    ∀ l ∈ hs.flatMap textLines, Text.isTerminated l = true := by
  intro l hl
  obtain ⟨h, -, hl⟩ := List.mem_flatMap.1 hl
  exact isTerminated_of_mem_textLines hl

theorem isLine_of_mem_flatMap_textLines {hs : List Hunk} (hlegible : ∀ h ∈ hs, h.IsLegible) :
    ∀ l ∈ hs.flatMap textLines, Text.IsLine l := by
  intro l hl
  obtain ⟨h, hh, hl⟩ := List.mem_flatMap.1 hl
  exact (hlegible h hh).isLine_of_mem_textLines hl

theorem isMarker_header_append (h : Hunk) (s : String) : isMarker (h.header ++ s) = false := by
  simp [isMarker, toList_header, headerFront]

/-- Reading hunks, without the proof that nothing is read twice. -/
theorem readHunks_cons (number : Nat) (l : String) (ls : List String) :
    readHunks number (l :: ls) =
      if isBlankLine l then readHunks (number + 1) ls
      else match readHeader number l with
        | .error e => .error e
        | .ok h =>
          match (readWholeBody number h ls).map (·.1) with
          | .error e => .error e
          | .ok b =>
            match readHunks b.next b.rest with
            | .error e => .error e
            | .ok hs => .ok ({ h with lines := b.lines } :: hs) := by
  rw [readHunks]
  by_cases hb : isBlankLine l = true
  · rw [if_pos hb, if_pos hb]
  · rw [if_neg hb, if_neg hb]
    cases readHeader number l with
    | error e => rfl
    | ok h =>
      dsimp only
      cases readWholeBody number h ls <;> rfl

/-- What is written of legible hunks is read back, but for returns at the end of headings. -/
theorem readHunks_textLines (number : Nat) {hs : List Hunk} (h : ∀ k ∈ hs, k.IsLegible) :
    readHunks number (hs.flatMap textLines) = .ok (hs.map withoutReturn) := by
  induction hs generalizing number with
  | nil => simp [readHunks]
  | cons k hs ih =>
    have hk := h k (by simp)
    have hrest : (hs.flatMap textLines).head?.any isMarker = false := by
      cases hs with
      | nil => rfl
      | cons j js => simp [textLines, isMarker_header_append]
    have hbody := head?_textLines_any_isMarker k.lines hrest
    obtain ⟨next, hread⟩ := readBody_textLines number (number + 1) k.lines hrest
    rw [← length_oldLines, ← length_newLines, hk.oldLength, hk.newLength] at hread
    have hwhole : (readWholeBody number { k.withoutReturn with lines := [] }
        (k.lines.flatMap Line.textLines ++ hs.flatMap textLines)).map (·.1) =
          .ok ⟨k.lines, next, hs.flatMap textLines⟩ := by
      rw [readWholeBody, if_neg (by rw [hbody]; decide)]
      exact hread
    rw [List.flatMap_cons, textLines, List.cons_append, readHunks_cons,
      if_neg (by simp [isBlankLine_header_append]), readHeader_header hk.oldStart_le
        hk.oldLength_le hk.newStart_le hk.newLength_le]
    dsimp only
    rw [hwhole]
    dsimp only
    rw [ih next fun j hj => h j (by simp [hj])]
    rfl

theorem readHunks_textLines_of_isValid (number : Nat) {hs : List Hunk} (h : ∀ k ∈ hs, k.IsValid) :
    readHunks number (hs.flatMap textLines) = .ok hs := by
  have hsame : hs.map withoutReturn = hs.map id :=
    List.map_congr_left fun k hk => (h k hk).withoutReturn_eq_self
  rw [readHunks_textLines number fun k hk => (h k hk).isLegible, hsame, List.map_id]

end Hunk

end Patchwork
