import Mathlib.Data.List.TakeDrop
import Patchwork.Hunk.Parser
import Patchwork.Proofs.Text.Lines

/-!
# Header lines of hunks are read back

A header is read from left to right, each number up to the first character that is no digit. Numbers
that fit a header, and a heading that fits a line, come back as they were (`readHeader_header`),
except that a carriage return at the end of the heading is taken for a part of the line's end.
-/
namespace Patchwork.Hunk

/-- A heading that stands in one line and is not taken for its absence. -/
def IsHeading (heading : String) : Prop :=
  heading ≠ "" ∧ '\n' ∉ heading.toList ∧ heading.toList.getLast? ≠ some '\r'

instance (heading : String) : Decidable (IsHeading heading) := inferInstanceAs (Decidable (_ ∧ _))

@[simp] theorem after?_append (expected cs : List Char) :
    after? expected (expected ++ cs) = some cs := by
  simp [after?]

/-! ## Numbers -/

theorem isDecimalDigit_of_mem_toDigits {n : Nat} {c : Char} (h : c ∈ Nat.toDigits 10 n) :
    Text.isDecimalDigit c = true :=
  Text.isDecimalDigit_of_isDigit (Nat.isDigit_of_mem_toDigits (by decide) (by decide) h)

theorem digitRun?_toDigits_append (n : Nat) {rest : List Char}
    (hr : ∀ c ∈ rest.head?, Text.isDecimalDigit c = false) :
    digitRun? (Nat.toDigits 10 n ++ rest) = some (Nat.toDigits 10 n, rest) := by
  have hspan : (Nat.toDigits 10 n ++ rest).span Text.isDecimalDigit =
      (Nat.toDigits 10 n, rest) := by
    rw [List.span_eq_takeWhile_dropWhile,
      List.takeWhile_append_of_pos fun c hc => isDecimalDigit_of_mem_toDigits hc,
      List.dropWhile_append_of_pos fun c hc => isDecimalDigit_of_mem_toDigits hc]
    cases rest with
    | nil => simp
    | cons c cs => simp [hr c rfl]
  rw [digitRun?, hspan]
  split
  · rename_i h
    exact absurd (congrArg Prod.fst h) Nat.toDigits_ne_nil
  · rfl

theorem number?_toDigits {n : Nat} (h : n ≤ maxNumber) : number? (Nat.toDigits 10 n) = some n := by
  have hd : (Nat.toDigits 10 n).all Char.isDigit = true :=
    List.all_eq_true.2 fun c hc => Nat.isDigit_of_mem_toDigits (by decide) (by decide) hc
  simp [number?, hd, Nat.ofDigitChars_ten_toDigits, h]

/-! ## Ranges -/

def rangeDigits (start length : Nat) : RangeDigits :=
  ⟨Nat.toDigits 10 start, if length = 1 then none else some (Nat.toDigits 10 length)⟩

theorem toList_rangeText (start length : Nat) :
    (rangeText start length).toList = Nat.toDigits 10 start ++
      if length = 1 then [] else ',' :: Nat.toDigits 10 length := by
  unfold rangeText
  split <;> simp

theorem rangeDigits?_rangeText (start length : Nat) (rest : List Char) :
    rangeDigits? ((rangeText start length).toList ++ ' ' :: rest) =
      some (rangeDigits start length, ' ' :: rest) := by
  have hspace : ∀ c ∈ (' ' :: rest).head?, Text.isDecimalDigit c = false := by
    rintro c ⟨⟩
    decide
  rw [toList_rangeText, rangeDigits?, rangeDigits]
  by_cases hl : length = 1
  · rw [if_pos hl, List.append_nil, digitRun?_toDigits_append start hspace]
    simp [hl, after?]
  · have hcomma : ∀ c ∈ (',' :: (Nat.toDigits 10 length ++ ' ' :: rest)).head?,
        Text.isDecimalDigit c = false := by
      rintro c ⟨⟩
      decide
    rw [if_neg hl, List.append_assoc, List.cons_append, digitRun?_toDigits_append start hcomma]
    simp [hl, after?, digitRun?_toDigits_append length hspace]

theorem numbers?_rangeDigits {start length : Nat} (hs : start ≤ maxNumber)
    (hl : length ≤ maxNumber) : (rangeDigits start length).numbers? = some (start, length) := by
  unfold RangeDigits.numbers? rangeDigits
  by_cases h : length = 1
  · simp [h, number?_toDigits hs]
  · simp [h, number?_toDigits hs, number?_toDigits hl]

/-! ## Headings -/

def headingTail : Option String → List Char
  | none => []
  | some heading => ' ' :: heading.toList

theorem heading?_headingTail {heading : Option String} (h : ∀ t ∈ heading, t ≠ "") :
    heading? (headingTail heading) = heading := by
  cases heading with
  | none => rfl
  | some t =>
    have hne : t.toList ≠ [] := fun he => h t rfl (String.toList_inj.1 he)
    obtain ⟨c, cs, ht⟩ := List.exists_cons_of_ne_nil hne
    rw [headingTail, ht, heading?]
    · rw [← ht, String.ofList_toList]
    · simp

theorem getLast?_headingTail {heading : Option String} (h : ∀ t ∈ heading, t ≠ "") :
    (headingTail heading).getLast? = heading.bind (·.toList.getLast?) := by
  cases heading with
  | none => rfl
  | some t =>
    have hne : t.toList ≠ [] := fun he => h t rfl (String.toList_inj.1 he)
    rw [headingTail, List.getLast?_cons_of_ne_nil hne]
    rfl

/-- A header line is read without a carriage return at its end, so a heading that ends in one is not
read back, and every other one is. -/
theorem heading?_dropReturn_headingTail_eq_iff {heading : Option String}
    (h : ∀ t ∈ heading, t ≠ "") :
    heading? (Text.dropReturn (headingTail heading)) = heading ↔
      ∀ t ∈ heading, t.toList.getLast? ≠ some '\r' := by
  by_cases hr : (headingTail heading).getLast? = some '\r'
  · have hread : heading? (Text.dropReturn (headingTail heading)) ≠ heading := by
      rw [getLast?_headingTail h, Option.bind_eq_some_iff] at hr
      obtain ⟨t, rfl, hr⟩ := hr
      obtain ⟨cs, ht⟩ := List.getLast?_eq_some_iff.1 hr
      rw [headingTail, ht, ← List.cons_append, Text.dropReturn,
        if_pos (List.getLast?_concat), List.dropLast_concat]
      cases cs with
      | nil => exact nofun
      | cons c cs =>
        intro he
        have he : String.ofList (c :: cs) = t := Option.some.inj he
        rw [← he, String.toList_ofList] at ht
        simp at ht
    refine iff_of_false hread fun hall => ?_
    rw [getLast?_headingTail h, Option.bind_eq_some_iff] at hr
    obtain ⟨t, ht, hr⟩ := hr
    exact hall t ht hr
  · rw [Text.dropReturn_of_ne hr, heading?_headingTail h]
    refine iff_of_true rfl fun t ht hlast => hr ?_
    rw [getLast?_headingTail h, ht]
    exact hlast

/-- The hunk as its header is read: without a carriage return at the end of its heading. -/
def withoutReturn (h : Hunk) : Hunk :=
  { h with heading := heading? (Text.dropReturn (headingTail h.heading)) }

theorem withoutReturn_eq_self_iff {h : Hunk} (hh : ∀ t ∈ h.heading, t ≠ "") :
    h.withoutReturn = h ↔ ∀ t ∈ h.heading, t.toList.getLast? ≠ some '\r' := by
  rw [← heading?_dropReturn_headingTail_eq_iff hh]
  exact ⟨fun he => congrArg heading he, fun he => congrArg (fun t => { h with heading := t }) he⟩

/-! ## The whole line -/

def headerFront (h : Hunk) : List Char :=
  ['@', '@', ' ', '-'] ++ ((rangeText h.oldStart h.oldLength).toList ++
    ([' ', '+'] ++ ((rangeText h.newStart h.newLength).toList ++ [' ', '@', '@'])))

theorem toList_header (h : Hunk) : h.header.toList = h.headerFront ++ headingTail h.heading := by
  cases hh : h.heading <;> simp [header, headerFront, headingTail, hh]

theorem getLast?_headerFront (h : Hunk) : h.headerFront.getLast? = some '@' := by
  simp only [headerFront, List.getLast?_append]
  rfl

theorem headerParts?_headerFront_append (h : Hunk) (tail : List Char) :
    headerParts? (h.headerFront ++ tail) = some ⟨rangeDigits h.oldStart h.oldLength,
      rangeDigits h.newStart h.newLength, tail⟩ := by
  simp only [headerFront, List.append_assoc, headerParts?, after?_append]
  simp [rangeDigits?_rangeText, after?]

theorem newline_notMem_header {h : Hunk} (hh : ∀ t ∈ h.heading, '\n' ∉ t.toList) :
    '\n' ∉ h.header.toList := by
  have hdigits : ∀ n, '\n' ∉ Nat.toDigits 10 n := fun n hn =>
    absurd (isDecimalDigit_of_mem_toDigits hn) (by decide)
  have hrange : ∀ start length, '\n' ∉ (rangeText start length).toList := by
    intro start length
    rw [toList_rangeText]
    split <;> simp [hdigits]
  have htail : '\n' ∉ headingTail h.heading := by
    cases ht : h.heading with
    | none => simp [headingTail]
    | some t => simpa [headingTail] using hh t ht
  rw [toList_header]
  simp [headerFront, hrange, htail]

theorem isBlankLine_header_append (h : Hunk) (s : String) :
    isBlankLine (h.header ++ s) = false := by
  have hat : ∃ c ∈ (h.header ++ s).toList, ¬Text.isBlank c = true :=
    ⟨'@', by simp [toList_header, headerFront], by decide⟩
  exact List.all_eq_false.2 hat

/-- A header line gives its hunk back, except for the body and a carriage return at its end. -/
theorem readHeader_header {h : Hunk} (ho : h.oldStart ≤ maxNumber) (ho' : h.oldLength ≤ maxNumber)
    (hn : h.newStart ≤ maxNumber) (hn' : h.newLength ≤ maxNumber) (number : Nat) :
    readHeader number (h.header ++ "\n") = .ok { h.withoutReturn with lines := [] } := by
  have hold := numbers?_rangeDigits ho ho'
  have hnew := numbers?_rangeDigits hn hn'
  have hfront : h.headerFront.getLast? ≠ some '\r' := by
    rw [getLast?_headerFront]
    decide
  unfold readHeader
  dsimp only
  rw [Text.toList_stripTerminator_append_newline, toList_header, Text.dropReturn_append hfront,
    headerParts?_headerFront_append]
  dsimp only
  rw [hold, hnew]
  rfl

end Patchwork.Hunk
