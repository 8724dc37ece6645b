import Mathlib.Data.List.TakeWhile
import Patchwork.Json.Document
import Patchwork.Json.Token
import Patchwork.Proofs.Outcome

/-!
# Strings and numbers are read back

A string is read up to the quote that closes it, and each escape as the character that it was
written for (`readString_flatMap_escapeChar`). An integer is read up to the first character that
cannot go on with it (`readNumber_toDigits`).
-/
namespace Patchwork.Json

/-! ## Strings -/

private theorem hexValue?_digitChar : ∀ d < 16, hexValue? (Nat.digitChar d) = some d := by decide

private theorem utf8Size_digitChar : ∀ d < 16, (Nat.digitChar d).utf8Size = 1 := by decide

theorem readHex_digitChar {n : Nat} (hn : n < 0x100) (rest : List Char) :
    readHex ('0' :: '0' :: Nat.digitChar (n / 16) :: Nat.digitChar (n % 16) :: rest) = .ok n := by
  have hhigh : n / 16 < 16 := by omega
  have hlow : n % 16 < 16 := by omega
  have hsize : ['0', '0', Nat.digitChar (n / 16), Nat.digitChar (n % 16)].foldl
      (fun k c => k + c.utf8Size) 0 = 4 := by
    simp only [List.foldl_cons, List.foldl_nil, utf8Size_digitChar _ hhigh,
      utf8Size_digitChar _ hlow]
    decide
  have hdigits : ['0', '0', Nat.digitChar (n / 16), Nat.digitChar (n % 16)].mapM hexValue? =
      some [0, 0, n / 16, n % 16] := by
    simp [hexValue?_digitChar _ hhigh, hexValue?_digitChar _ hlow,
      show hexValue? '0' = some 0 from rfl]
  have hvalue : [0, 0, n / 16, n % 16].foldl (fun n digit => n * 16 + digit) 0 = n := by
    simp only [List.foldl_cons, List.foldl_nil]
    omega
  unfold readHex
  simp only [List.take_succ_cons, List.take_zero, hsize, hdigits, hvalue]
  rfl

theorem readString_backslash {c : Char} (escape : List Char) {rest : List Char}
    (h : readEscape (escape ++ rest) = .ok (c, escape.length)) :
    readString ('\\' :: (escape ++ rest)) = (readString rest).map fun (s, rest) =>
      (c :: s, rest) := by
  rw [readString, if_neg (by decide), if_pos rfl, h]
  simp only [List.drop_left]

theorem readString_escapeChar (c : Char) (rest : List Char) :
    readString (escapeChar c ++ rest) = (readString rest).map fun (s, rest) => (c :: s, rest) := by
  unfold escapeChar
  split_ifs with hquote hback hb hf hn hr ht hcontrol
  · exact hquote ▸ readString_backslash ['"'] rfl
  · exact hback ▸ readString_backslash ['\\'] rfl
  · exact hb ▸ readString_backslash ['b'] rfl
  · exact hf ▸ readString_backslash ['f'] rfl
  · exact hn ▸ readString_backslash ['n'] rfl
  · exact hr ▸ readString_backslash ['r'] rfl
  · exact ht ▸ readString_backslash ['t'] rfl
  · refine readString_backslash
      ['u', '0', '0', Nat.digitChar (c.toNat / 16), Nat.digitChar (c.toNat % 16)] ?_
    have hread := readHex_digitChar (show c.toNat < 0x100 by omega) rest
    have hnumbered : readNumbered ('0' :: '0' :: Nat.digitChar (c.toNat / 16) :: Nat.digitChar
        (c.toNat % 16) :: rest) = .ok (c, 4) := by
      rw [readNumbered, hread]
      simp only [bind, Except.bind]
      rw [if_pos (by simp; omega), Char.ofNat_toNat]
      rfl
    simp only [readEscape, List.cons_append, List.nil_append, hnumbered]
    rfl
  · rw [List.singleton_append, readString, if_neg hquote, if_neg hback, if_neg hcontrol]

/-- A string is read up to its closing quote. -/
theorem readString_flatMap_escapeChar (s rest : List Char) :
    readString (s.flatMap escapeChar ++ '"' :: rest) = .ok (s, rest) := by
  induction s with
  | nil => rw [List.flatMap_nil, List.nil_append, readString, if_pos rfl]
  | cons c s ih =>
    rw [List.flatMap_cons, List.append_assoc, readString_escapeChar, ih]
    rfl

/-! ## Numbers -/

theorem le_ofDigitChars (digits : List Char) (n : Nat) : n ≤ Nat.ofDigitChars 10 digits n := by
  induction digits generalizing n with
  | nil => exact Nat.le_refl n
  | cons c digits ih =>
    have hnext := ih (10 * n + (c.toNat - '0'.toNat))
    rw [Nat.ofDigitChars, List.foldl_cons]
    exact Nat.le_trans (by omega) hnext

theorem appendDigits_eq {digits : List Char} {n : Nat}
    (h : Nat.ofDigitChars 10 digits n ≤ maxInteger) :
    appendDigits n digits = (Nat.ofDigitChars 10 digits n, 0) := by
  induction digits generalizing n with
  | nil => rfl
  | cons c digits ih =>
    have hnext : Nat.ofDigitChars 10 (c :: digits) n = Nat.ofDigitChars 10 digits
        (n * 10 + (c.toNat - '0'.toNat)) := by
      rw [Nat.mul_comm]
      rfl
    rw [hnext] at h ⊢
    rw [appendDigits, if_neg (Nat.not_lt.2 (Nat.le_trans (le_ofDigitChars _ _) h)), ih h]

theorem exists_toDigits_eq_cons (n : Nat) :
    ∃ c cs, Nat.toDigits 10 n = c :: cs ∧ c.isDigit = true := by
  obtain ⟨c, cs, hcs⟩ := List.exists_cons_of_ne_nil (Nat.toDigits_ne_nil (b := 10) (n := n))
  exact ⟨c, cs, hcs, Nat.isDigit_of_mem_toDigits (by decide) (by decide) (hcs ▸ List.mem_cons_self)⟩

/-- The first digit of a number is zero only if it is the only one. -/
theorem head?_toDigits_ne {n : Nat} (h : 0 < n) : (Nat.toDigits 10 n).head? ≠ some '0' := by
  by_cases hn : n < 10
  · rw [Nat.toDigits_of_lt_base hn]
    have hdigit : ∀ d < 10, 0 < d → [Nat.digitChar d].head? ≠ some '0' := by decide
    exact hdigit n hn h
  · rw [Nat.toDigits_of_base_le (by decide) (by omega),
      List.head?_append_of_ne_nil _ Nat.toDigits_ne_nil]
    exact head?_toDigits_ne (by omega)
termination_by n
decreasing_by omega

def EndsNumber (rest : List Char) : Prop :=
  ∀ c ∈ rest.head?, c.isDigit = false ∧ c ≠ '.' ∧ c ≠ 'e' ∧ c ≠ 'E'

theorem endsNumber_cons {c : Char} (hc : c.isDigit = false ∧ c ≠ '.' ∧ c ≠ 'e' ∧ c ≠ 'E')
    (rest : List Char) :
    EndsNumber (c :: rest) := by
  rintro _ ⟨⟩
  exact hc

theorem readDigits_toDigits {rest : List Char} (n : Nat) (hrest : EndsNumber rest) :
    readDigits (Nat.toDigits 10 n ++ rest) = .ok (Nat.toDigits 10 n, rest) := by
  have hdigit : ∀ c ∈ Nat.toDigits 10 n, c.isDigit = true := fun c hc =>
    Nat.isDigit_of_mem_toDigits (by decide) (by decide) hc
  have hstop : rest.takeWhile Char.isDigit = [] ∧ rest.dropWhile Char.isDigit = rest := by
    cases rest with
    | nil => exact ⟨rfl, rfl⟩
    | cons c rest => simp [(hrest c rfl).1]
  rw [readDigits, List.takeWhile_append_of_pos hdigit, List.dropWhile_append_of_pos hdigit, hstop.1,
    hstop.2, List.append_nil]
  split
  · exact absurd ‹_› Nat.toDigits_ne_nil
  · rfl

theorem readFraction_eq_none {rest : List Char} (hrest : EndsNumber rest) :
    readFraction rest = .ok (none, rest) := by
  unfold readFraction
  split
  · exact absurd rfl (hrest '.' rfl).2.1
  · rfl

theorem readExponent_eq_none {rest : List Char} (hrest : EndsNumber rest) :
    readExponent rest = .ok (none, rest) := by
  cases rest with
  | nil => rfl
  | cons c rest =>
    obtain ⟨-, -, hlower, hupper⟩ := hrest c rfl
    exact if_neg (by simp [hlower, hupper])

/-- An integer in range is read up to the end of its digits. -/
theorem readNumber_toDigits {n : Nat} (hn : n ≤ maxInteger) {rest : List Char}
    (hrest : EndsNumber rest) :
    readNumber false (Nat.toDigits 10 n ++ rest) = .ok (.integer n, rest) := by
  have halone : ((Nat.toDigits 10 n).head? = some '0' && (Nat.toDigits 10 n).length ≠ 1) =
      false := by
    rcases Nat.eq_zero_or_pos n with rfl | hpos
    · decide
    · simp [head?_toDigits_ne hpos]
  have hvalue : appendDigits 0 (Nat.toDigits 10 n) = (n, 0) := by
    have hback : Nat.ofDigitChars 10 (Nat.toDigits 10 n) 0 = n := Nat.ofDigitChars_ten_toDigits
    rw [appendDigits_eq (by rwa [hback]), hback]
  rw [readNumber, readDigits_toDigits n hrest]
  simp only [bind, Except.bind, halone, readFraction_eq_none hrest,
    readExponent_eq_none hrest, hvalue]
  rfl

end Patchwork.Json
