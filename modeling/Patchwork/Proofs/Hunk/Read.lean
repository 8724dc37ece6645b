import Patchwork.Proofs.Hunk.RoundTrip

/-!
# What is read as a hunk

A hunk that is read has as many lines of each side as its header announces, and each of them is one
line: a newline stands at its end or nowhere in it (`Announced`). A marker can follow any line of a
body, so nothing is known about which of the lines are terminated. Its header is one that can be
written again (`isLegible_of_readHunks`).
-/
namespace Patchwork.Hunk

theorem Announced.isLine_newLines {h : Hunk} (hh : h.Announced) {l : String} (hl : l ∈ h.newLines) :
    Text.IsLine l := by
  obtain ⟨line, hline, rfl⟩ := List.mem_map.1 hl
  exact hh.isLine line (List.mem_filter.1 hline).1

/-! ## Bodies -/

theorem isLine_withNewline {s : String} (h : Text.IsLine s) : Text.IsLine (withNewline s) := by
  unfold withNewline
  split
  · exact h
  · rename_i ht
    exact Text.isLine_append_newline (h.newline_notMem (Bool.eq_false_iff.2 ht))

theorem isLine_dropNewline {s : String} (h : Text.IsLine s) : Text.IsLine (Text.dropNewline s) := by
  unfold Text.dropNewline
  split
  · rw [Text.IsLine, String.toList_ofList]
    exact fun hmem => h (List.dropLast_subset _ hmem)
  · exact h

theorem isLine_bodyLine? {l : String} (h : Text.IsLine l) {line : Line}
    (hline : bodyLine? l = some line) : Text.IsLine line.text := by
  have htail : ∀ c cs, l.toList = c :: cs → Text.IsLine (String.ofList cs) := by
    intro c cs hl
    rw [Text.IsLine, hl] at h
    rw [Text.IsLine, String.toList_ofList]
    exact fun hmem => h (by cases cs <;> simp_all)
  unfold bodyLine? at hline
  split at hline <;> cases hline
  · exact isLine_withNewline (htail _ _ ‹_›)
  · exact isLine_withNewline (htail _ _ ‹_›)
  · exact isLine_withNewline (htail _ _ ‹_›)
  · exact isLine_withNewline h
  · exact isLine_withNewline h

/-- A line keeps its kind and stays one line when it takes its marker, and the rest stays a rest. -/
theorem takeMarker_spec {line : Line} (hline : Text.IsLine line.text) (number : Nat)
    (rest : List String) :
    (takeMarker line number rest).1.kind = line.kind ∧
      Text.IsLine (takeMarker line number rest).1.text ∧
      (takeMarker line number rest).2.2 <:+ rest := by
  unfold takeMarker
  split
  · split
    · exact ⟨rfl, isLine_dropNewline hline, List.suffix_cons _ _⟩
    · exact ⟨rfl, hline, List.suffix_rfl⟩
  · exact ⟨rfl, hline, List.suffix_rfl⟩

theorem takeMarker_count (line : Line) (number : Nat) (ls : List String) :
    number ≤ (takeMarker line number ls).2.1 ∧
      (takeMarker line number ls).2.1 + (takeMarker line number ls).2.2.length =
        number + ls.length := by
  unfold takeMarker
  split
  · split
    · exact ⟨Nat.le_succ _, by simp only [List.length_cons]; omega⟩
    · exact ⟨Nat.le_refl _, rfl⟩
  · exact ⟨Nat.le_refl _, rfl⟩

/-- What is read as a body from lines, of which a rest is left. -/
structure Body.IsReadFrom (b : Body) (old new : Nat) (ls : List String) : Prop where
  old : b.lines.countP (·.kind.isOld) = old
  new : b.lines.countP (·.kind.isNew) = new
  isLine : ∀ l ∈ b.lines, Text.IsLine l.text
  rest : b.rest <:+ ls

theorem Body.IsReadFrom.cons {b : Body} {line : Line} {old new : Nat} {ls : List String}
    (hb : b.IsReadFrom (old - line.kind.isOld.toNat) (new - line.kind.isNew.toNat) ls)
    (hroom : ¬((line.kind.isOld ∧ old = 0) ∨ (line.kind.isNew ∧ new = 0)))
    (hline : Text.IsLine line.text) :
    { b with lines := line :: b.lines }.IsReadFrom old new ls where
  old := by
    rw [List.countP_cons, hb.old]
    cases hk : line.kind.isOld <;> simp_all
    omega
  new := by
    rw [List.countP_cons, hb.new]
    cases hk : line.kind.isNew <;> simp_all
    omega
  isLine := List.forall_mem_cons.2 ⟨hline, hb.isLine⟩
  rest := hb.rest

theorem isReadFrom_of_readBody {header number old new : Nat} {ls : List String}
    (hls : ∀ l ∈ ls, Text.IsLine l) {b} (h : readBody header number old new ls = .ok b) :
    b.1.IsReadFrom old new ls := by
  fun_induction readBody header number old new ls with
  | case1 number old new ls hdone =>
    cases h
    exact ⟨hdone.1.symm, hdone.2.symm, nofun, List.suffix_rfl⟩
  | case7 number old new hdone l ls hmarker line hline hroom taken hlength b hb hread ih =>
    cases h
    have hline := isLine_bodyLine? (hls l (by simp)) hline
    obtain ⟨hkind, htaken, hrest⟩ := takeMarker_spec hline (number + 1) ls
    have hb := ih (fun k hk => hls k (List.mem_cons_of_mem _ (hrest.subset hk))) hread
    rw [← hkind] at hroom hb
    have hb := hb.cons hroom htaken
    exact { hb with rest := hb.rest.trans (hrest.trans (List.suffix_cons _ _)) }
  | case2 | case3 | case4 | case5 | case6 => cases h

theorem count_of_readBody {header number old new : Nat} {ls : List String} {body}
    (h : readBody header number old new ls = .ok body) :
    number ≤ body.1.next ∧ body.1.next + body.1.rest.length = number + ls.length := by
  fun_induction readBody header number old new ls with
  | case1 number old new ls hdone =>
    cases h
    exact ⟨Nat.le_refl _, rfl⟩
  | case7 number old new hdone l ls hmarker line hline hroom taken hlength b hrest hread =>
    rename_i ih
    cases h
    obtain ⟨hnext, hcount⟩ : number + 1 ≤ taken.2.1 ∧
        taken.2.1 + taken.2.2.length = number + 1 + ls.length :=
      takeMarker_count line (number + 1) ls
    obtain ⟨hle, hcountRest⟩ := ih hread
    dsimp only [List.length_cons] at hle hcountRest ⊢
    exact ⟨by omega, by omega⟩
  | case2 | case3 | case4 | case5 | case6 => cases h

/-! ## Headers -/

theorem suffix_of_after? {expected cs rest : List Char} (h : after? expected cs = some rest) :
    rest <:+ cs := by
  unfold after? at h
  split at h <;> cases h
  exact List.drop_suffix _ _

theorem suffix_of_digitRun? {cs : List Char} {run} (h : digitRun? cs = some run) :
    run.2 <:+ cs := by
  unfold digitRun? at h
  split at h <;> cases h
  rw [List.span_eq_takeWhile_dropWhile]
  exact List.dropWhile_suffix _

theorem suffix_of_rangeDigits? {cs : List Char} {read} (h : rangeDigits? cs = some read) :
    read.2 <:+ cs := by
  unfold rangeDigits? at h
  obtain ⟨run, hrun, h⟩ := Option.bind_eq_some_iff.1 h
  have hstart := suffix_of_digitRun? hrun
  dsimp only at h
  split at h <;> cases h
  · rename_i hlength
    obtain ⟨cs', hafter, hdigits⟩ := Option.bind_eq_some_iff.1 hlength
    exact (suffix_of_digitRun? hdigits).trans ((suffix_of_after? hafter).trans hstart)
  · exact hstart

theorem suffix_of_headerParts? {cs : List Char} {parts : HeaderParts}
    (h : headerParts? cs = some parts) : parts.tail <:+ cs := by
  unfold headerParts? at h
  obtain ⟨afterMark, hmark, h⟩ := Option.bind_eq_some_iff.1 h
  obtain ⟨old, hold, h⟩ := Option.bind_eq_some_iff.1 h
  obtain ⟨afterPlus, hplus, h⟩ := Option.bind_eq_some_iff.1 h
  obtain ⟨new, hnew, h⟩ := Option.bind_eq_some_iff.1 h
  obtain ⟨tail, htail, h⟩ := Option.bind_eq_some_iff.1 h
  cases h
  have hnewRange : tail <:+ afterPlus :=
    (suffix_of_after? htail).trans (suffix_of_rangeDigits? hnew)
  have holdRange : tail <:+ afterMark :=
    (hnewRange.trans (suffix_of_after? hplus)).trans (suffix_of_rangeDigits? hold)
  exact holdRange.trans (suffix_of_after? hmark)

theorem le_of_number? {digits : List Char} {n : Nat} (h : number? digits = some n) :
    n ≤ maxNumber := by
  unfold number? at h
  split at h
  · dsimp only at h
    split at h <;> cases h
    assumption
  · cases h

theorem RangeDigits.le_of_numbers? {r : RangeDigits} {start length : Nat}
    (h : r.numbers? = some (start, length)) : start ≤ maxNumber ∧ length ≤ maxNumber := by
  unfold RangeDigits.numbers? at h
  obtain ⟨s, hs, h⟩ := Option.bind_eq_some_iff.1 h
  cases hr : r.length with
  | none =>
    rw [hr] at h
    cases h
    exact ⟨le_of_number? hs, by decide⟩
  | some digits =>
    rw [hr] at h
    obtain ⟨l, hl, h⟩ := Option.bind_eq_some_iff.1 h
    cases h
    exact ⟨le_of_number? hs, le_of_number? hl⟩

theorem of_heading? {tail : List Char} {t : String} (h : heading? tail = some t) :
    t ≠ "" ∧ t.toList ⊆ tail := by
  unfold heading? at h
  split at h <;> cases h
  · rename_i cs hne
    refine ⟨fun he => hne (by simp_all), ?_⟩
    simp
  · rename_i hne _ _
    exact ⟨fun he => hne (by simpa using he), by simp⟩

/-! ## Lists of hunks -/

/-- A header that is read with a body of as many lines as it announces makes a legible hunk. -/
theorem isLegible_of_readHeader {number : Nat} {l : String} (hl : Text.IsLine l) {h : Hunk}
    (hread : readHeader number l = .ok h) {lines : List Line}
    (hbody : { h with lines := lines }.Announced) : { h with lines := lines }.IsLegible := by
  unfold readHeader at hread
  dsimp only at hread
  split at hread
  · cases hread
  rename_i parts hparts
  split at hread <;> cases hread
  rename_i oldStart oldLength newStart newLength hold hnew
  obtain ⟨holdStart, holdLength⟩ := RangeDigits.le_of_numbers? hold
  obtain ⟨hnewStart, hnewLength⟩ := RangeDigits.le_of_numbers? hnew
  refine ⟨hbody, holdStart, holdLength, hnewStart, hnewLength, fun t ht => ?_⟩
  obtain ⟨hne, hsub⟩ := of_heading? ht
  exact ⟨hne, fun hn => Text.newline_notMem_stripTerminator hl
    ((suffix_of_headerParts? hparts).subset (hsub hn))⟩

theorem isLegible_of_readHunks {number : Nat} {ls : List String} (hls : ∀ l ∈ ls, Text.IsLine l)
    {hs : List Hunk} (h : readHunks number ls = .ok hs) : ∀ k ∈ hs, k.IsLegible := by
  fun_induction readHunks number ls generalizing hs with
  | case1 =>
    cases h
    nofun
  | case2 number l ls hblank ih => exact ih (fun k hk => hls k (by simp [hk])) h
  | case6 number l ls hblank h' hheader b hrest hwhole hs' hread ih =>
    cases h
    obtain ⟨hl, hls⟩ := List.forall_mem_cons.1 hls
    have hbody : b.IsReadFrom h'.oldLength h'.newLength ls := by
      unfold readWholeBody at hwhole
      split at hwhole
      · cases hwhole
      · exact isReadFrom_of_readBody hls hwhole
    have hannounced : { h' with lines := b.lines }.Announced :=
      ⟨by rw [length_oldLines, hbody.old], by rw [length_newLines, hbody.new], hbody.isLine⟩
    exact List.forall_mem_cons.2 ⟨isLegible_of_readHeader hl hheader hannounced,
      ih (fun k hk => hls k (hbody.rest.subset hk)) hread⟩
  | case3 | case4 | case5 => cases h

end Patchwork.Hunk
