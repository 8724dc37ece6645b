import Patchwork.Text.Lines

/-!
# Cutting joined lines

Terminated lines that are joined are cut apart again as they were (`lines_join`).
-/
namespace Patchwork.Text

/-- A text whose only newline, if it has one, closes it. -/
def IsLine (l : String) : Prop := '\n' ∉ l.toList.dropLast

instance (l : String) : Decidable (IsLine l) := inferInstanceAs (Decidable (_ ∉ _))

theorem lines_empty : lines "" = [] := by
  simp [lines, cutLines]

theorem join_cons (l : String) (ls : List String) : join (l :: ls) = l ++ join ls := by
  apply String.toList_inj.1
  simp

theorem isTerminated_iff {l : String} : isTerminated l = true ↔ l.toList.getLast? = some '\n' := by
  simp [isTerminated]

theorem IsLine.exists_eq_append {l : String} (h : IsLine l) (ht : isTerminated l = true) :
    ∃ cs, l.toList = cs ++ ['\n'] ∧ '\n' ∉ cs := by
  obtain ⟨cs, hcs⟩ := List.getLast?_eq_some_iff.1 (isTerminated_iff.1 ht)
  rw [IsLine, hcs, List.dropLast_concat] at h
  exact ⟨cs, hcs, h⟩

theorem IsLine.newline_notMem {l : String} (h : IsLine l) (ht : isTerminated l = false) :
    '\n' ∉ l.toList := by
  intro hmem
  have hne : l.toList ≠ [] := List.ne_nil_of_mem hmem
  rw [← List.dropLast_concat_getLast hne, List.mem_append, List.mem_singleton] at hmem
  rcases hmem with hmem | hmem
  · exact h hmem
  · rw [Bool.eq_false_iff] at ht
    exact ht (isTerminated_iff.2 (hmem ▸ List.getLast?_eq_some_getLast hne))

theorem cutLines_append_newline {cs rest : List Char} (h : '\n' ∉ cs) :
    cutLines (cs ++ '\n' :: rest) = (cs ++ ['\n']) :: cutLines rest := by
  induction cs with
  | nil => simp [cutLines]
  | cons c cs ih =>
    simp only [List.mem_cons, not_or] at h
    obtain ⟨hc, hcs⟩ := h
    rw [List.cons_append, cutLines, if_neg (Ne.symm hc), ih hcs]
    rfl

theorem cutLines_of_newline_notMem {cs : List Char} (h : '\n' ∉ cs) (hne : cs ≠ []) :
    cutLines cs = [cs] := by
  induction cs with
  | nil => exact absurd rfl hne
  | cons c cs ih =>
    simp only [List.mem_cons, not_or] at h
    obtain ⟨hc, hcs⟩ := h
    rw [cutLines, if_neg (Ne.symm hc)]
    cases cs with
    | nil => rfl
    | cons d ds => rw [ih hcs (by simp)]

/-- A terminated line in front of a text is its first line. -/
theorem lines_append_of_isTerminated {l s : String} (h : IsLine l) (ht : isTerminated l = true) :
    lines (l ++ s) = l :: lines s := by
  obtain ⟨cs, hl, hcs⟩ := h.exists_eq_append ht
  rw [lines, String.toList_append, hl, List.append_assoc, List.singleton_append,
    cutLines_append_newline hcs, List.map_cons, ← hl, String.ofList_toList]
  rfl

theorem IsLine.lines_eq {l : String} (h : IsLine l) (hne : l ≠ "") : lines l = [l] := by
  cases ht : isTerminated l with
  | true =>
    have := lines_append_of_isTerminated (s := "") h ht
    rwa [String.append_empty, lines_empty] at this
  | false =>
    rw [lines, cutLines_of_newline_notMem (h.newline_notMem ht) (by simpa using hne)]
    simp

/-- Terminated lines are found again in their joined text. -/
theorem lines_join {ls : List String} (h : ∀ l ∈ ls, IsLine l)
    (ht : ∀ l ∈ ls, isTerminated l = true) : lines (join ls) = ls := by
  induction ls with
  | nil => rfl
  | cons l ls ih =>
    have ih := ih (fun k hk => h k (by simp [hk])) fun k hk => ht k (by simp [hk])
    rw [join_cons, lines_append_of_isTerminated (h l (by simp)) (ht l (by simp)), ih]

theorem newline_notMem_dropLast_of_mem_cutLines {cs l : List Char} (h : l ∈ cutLines cs) :
    '\n' ∉ l.dropLast := by
  induction cs generalizing l with
  | nil => simp [cutLines] at h
  | cons c cs ih =>
    by_cases hc : c = '\n'
    · rw [cutLines, if_pos hc, List.mem_cons] at h
      rcases h with rfl | h
      · simp
      · exact ih h
    · rw [cutLines, if_neg hc] at h
      cases hcs : cutLines cs with
      | nil =>
        rw [hcs, List.mem_singleton] at h
        simp [h]
      | cons k ks =>
        rw [hcs, List.mem_cons] at h
        rcases h with rfl | h
        · have hk := ih (hcs ▸ List.mem_cons_self : k ∈ cutLines cs)
          have hne := ne_nil_of_mem_cutLines (hcs ▸ List.mem_cons_self : k ∈ cutLines cs)
          rw [List.dropLast_cons_of_ne_nil hne, List.mem_cons, not_or]
          exact ⟨Ne.symm hc, hk⟩
        · exact ih (hcs ▸ List.mem_cons_of_mem _ h)

theorem isLine_of_mem_lines {s l : String} (h : l ∈ lines s) : IsLine l := by
  obtain ⟨cs, hcs, rfl⟩ := List.mem_map.1 h
  simpa [IsLine] using newline_notMem_dropLast_of_mem_cutLines hcs

theorem isTerminated_of_mem_dropLast_cutLines {cs l : List Char} (h : l ∈ (cutLines cs).dropLast) :
    l.getLast? = some '\n' := by
  induction cs generalizing l with
  | nil => simp [cutLines] at h
  | cons c cs ih =>
    by_cases hc : c = '\n'
    · rw [cutLines, if_pos hc] at h
      cases hcs : cutLines cs with
      | nil => simp [hcs] at h
      | cons k ks =>
        rw [hcs, List.dropLast_cons_cons, List.mem_cons, ← hcs] at h
        rcases h with rfl | h
        · rfl
        · exact ih h
    · rw [cutLines, if_neg hc] at h
      cases hcs : cutLines cs with
      | nil => simp [hcs] at h
      | cons k ks =>
        rw [hcs] at h
        cases ks with
        | nil => simp at h
        | cons j js =>
          rw [List.dropLast_cons_cons, List.mem_cons] at h
          have hne := ne_nil_of_mem_cutLines (hcs ▸ List.mem_cons_self : k ∈ cutLines cs)
          rcases h with rfl | h
          · rw [List.getLast?_cons_of_ne_nil hne]
            exact ih (by rw [hcs]; simp)
          · exact ih (by rw [hcs, List.dropLast_cons_cons]; exact List.mem_cons_of_mem _ h)

/-- The members of a list are the lines of a text: none is empty, and all but the last are closed by
a newline. -/
def AreLines (ls : List String) : Prop := "" ∉ ls ∧ ∀ l ∈ ls.dropLast, isTerminated l = true

instance (ls : List String) : Decidable (AreLines ls) := inferInstanceAs (Decidable (_ ∧ _))

theorem areLines_lines (s : String) : AreLines (lines s) := by
  constructor
  · intro h
    obtain ⟨cs, hcs, he⟩ := List.mem_map.1 h
    exact ne_nil_of_mem_cutLines hcs (by simpa using he)
  · intro l hl
    rw [lines, ← List.map_dropLast] at hl
    obtain ⟨cs, hcs, rfl⟩ := List.mem_map.1 hl
    exact isTerminated_iff.2 (by simpa using isTerminated_of_mem_dropLast_cutLines hcs)

theorem areLines_append_iff {ks ls : List String} : AreLines (ks ++ ls) ↔
    AreLines ks ∧ AreLines ls ∧ (ls ≠ [] → ∀ k ∈ ks, isTerminated k = true) := by
  by_cases hls : ls = []
  · simp [hls, AreLines]
  · have hsub : ∀ k ∈ ks.dropLast, k ∈ ks := fun k hk => List.dropLast_subset ks hk
    simp only [AreLines, List.dropLast_append_of_ne_nil hls, List.mem_append, not_or]
    grind

/-- Lines that are joined are found again exactly if none of them is empty and only the last may be
unterminated. -/
theorem lines_join_iff {ls : List String} (h : ∀ l ∈ ls, IsLine l) :
    lines (join ls) = ls ↔ AreLines ls := by
  refine ⟨fun he => he ▸ areLines_lines _, fun hls => ?_⟩
  induction ls with
  | nil => rfl
  | cons l ls ih =>
    have hl := h l (by simp)
    obtain ⟨hfirst, hrest, hclosed⟩ := areLines_append_iff.1 (show AreLines ([l] ++ ls) from hls)
    by_cases hnil : ls = []
    · have hne : l ≠ "" := fun he => hls.1 (by simp [he])
      rw [hnil, join_cons, join_nil, String.append_empty, hl.lines_eq hne]
    · rw [join_cons, lines_append_of_isTerminated hl (hclosed hnil l (by simp)),
        ih (fun k hk => h k (by simp [hk])) hrest]

theorem isTerminated_append_newline (s : String) : isTerminated (s ++ "\n") = true := by
  simp [isTerminated]

theorem isLine_append_newline {s : String} (h : '\n' ∉ s.toList) : IsLine (s ++ "\n") := by
  simpa [IsLine] using h

theorem dropNewline_append_newline (s : String) : dropNewline (s ++ "\n") = s := by
  rw [dropNewline, if_pos (isTerminated_append_newline s)]
  apply String.toList_inj.1
  simp

theorem stripTerminator_append_newline {s : String} (h : s.toList.getLast? ≠ some '\r') :
    stripTerminator (s ++ "\n") = s := by
  simp [stripTerminator, dropNewline_append_newline, h]

/-- Whatever ends a line, the line in front of it is found. -/
theorem stripTerminator_append_ending {s ending : String} (hn : s.toList.getLast? ≠ some '\n')
    (hr : s.toList.getLast? ≠ some '\r') (h : ending ∈ ["", "\n", "\r\n"]) :
    stripTerminator (s ++ ending) = s := by
  simp only [List.mem_cons, List.not_mem_nil, or_false] at h
  rcases h with rfl | rfl | rfl
  · simp [stripTerminator, dropNewline, isTerminated, hn, hr]
  · exact stripTerminator_append_newline hr
  · rw [show s ++ "\r\n" = s ++ "\r" ++ "\n" from by rw [String.append_assoc]; rfl]
    apply String.toList_inj.1
    simp [stripTerminator, dropNewline_append_newline]

def dropReturn (cs : List Char) : List Char := if cs.getLast? = some '\r' then cs.dropLast else cs

theorem dropReturn_of_ne {cs : List Char} (h : cs.getLast? ≠ some '\r') : dropReturn cs = cs :=
  if_neg h

theorem dropReturn_append {cs : List Char} (h : cs.getLast? ≠ some '\r') (ds : List Char) :
    dropReturn (cs ++ ds) = cs ++ dropReturn ds := by
  unfold dropReturn
  by_cases hds : ds = []
  · simp [hds, h]
  · rw [List.getLast?_append, List.getLast?_eq_some_getLast hds, Option.some_or,
      List.dropLast_append_of_ne_nil hds]
    split <;> rfl

theorem toList_stripTerminator_append_newline (s : String) :
    (stripTerminator (s ++ "\n")).toList = dropReturn s.toList := by
  unfold stripTerminator dropReturn
  dsimp only
  rw [dropNewline_append_newline]
  by_cases h : s.toList.getLast? = some '\r' <;> simp [h]

theorem newline_notMem_stripTerminator {l : String} (h : IsLine l) :
    '\n' ∉ (stripTerminator l).toList := by
  have hdrop : '\n' ∉ (dropNewline l).toList := by
    unfold dropNewline
    split
    · rwa [String.toList_ofList]
    · exact h.newline_notMem (Bool.eq_false_iff.2 ‹_›)
  unfold stripTerminator
  dsimp only
  split
  · rw [String.toList_ofList]
    exact fun hmem => hdrop (List.dropLast_subset _ hmem)
  · exact hdrop

end Patchwork.Text
