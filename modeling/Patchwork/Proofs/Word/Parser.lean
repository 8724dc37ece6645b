import Patchwork.Proofs.Patch.Read
import Patchwork.Proofs.Word.Basic
import Patchwork.Patch.Parser

/-!
# Reading patches in words

A patch is read line by line: an old and a new header are looked for, and then the lines of each
body are counted down from the numbers in its header. Every line number, every count and every slice
of a line is taken in a word here. The run comes to what `Patch.parse` gives, if the lines of the
text can be counted in a word (`parse_eq`), whatever numbers the headers hold: those are checked
when they are read.

Lines are counted from 0 and stand with their number in the list, as they are met; a report numbers
them from 1.
-/
namespace Patchwork.Word

open Patch (ParseError ParseFault Side)
open Hunk (isMarker isBlankLine withNewline readHeader)

/-! ## Names -/

def appendOctal? (n digit : Nat) : Option Nat := do
  let shifted ← upTo? (UInt32.size - 1) (n * 8)
  upTo? (UInt32.size - 1) (shifted + digit)

def octet? (x y z : Nat) : Option (Option UInt8) := do
  let n ← appendOctal? (← appendOctal? x y) z
  return (upTo? (UInt8.size - 1) n).map UInt8.ofNat

def unquoteOctets : List Char → Option (Option (List UInt8))
  | [] => some none
  | '"' :: _ => some (some [])
  | '\\' :: c :: cs =>
    match Patch.escapedOctet? c with
    | some b => (unquoteOctets cs).map (·.map (b :: ·))
    | none =>
      match cs with
      | d :: e :: cs =>
        match Patch.octalValue? c, Patch.octalValue? d, Patch.octalValue? e with
        | some x, some y, some z =>
          if x ≤ 3 then
            match octet? x y z with
            | none => none
            | some none => some none
            | some (some b) => (unquoteOctets cs).map (·.map (b :: ·))
          else some none
        | _, _, _ => some none
      | _ => some none
  | c :: cs => (unquoteOctets cs).map (·.map (String.utf8EncodeChar c ++ ·))

def unquoteName? (cs : List Char) : Option (Option String) :=
  match cs with
  | '"' :: cs => (unquoteOctets cs).map fun octets => octets.bind fun bytes =>
    String.fromUTF8? ⟨bytes.toArray⟩
  | _ => some none

def readName (number : Nat) (side : Side) (value : String) : Run ParseError (Option TreePath) := do
  let cs := (Text.stripTerminator value).toList
  if cs.head? = some '"' then
    match ← unquoteName? cs with
    | none => throw ⟨number, .malformedName⟩
    | some name => return some (← Patch.pathOfName number side name.toList)
  else
    let name := cs.takeWhile (· ≠ '\t')
    if name = Patch.absentName.toList then return none
    else return some (← Patch.pathOfName number side name)

theorem octalValue?_le {c : Char} {n : Nat} (h : Patch.octalValue? c = some n) : n ≤ 7 := by
  unfold Patch.octalValue? at h
  split at h
  · rename_i hc
    obtain ⟨-, hc⟩ := hc
    rw [Char.le_def, UInt32.le_iff_toNat_le] at hc
    cases h
    have : c.toNat ≤ '7'.toNat := hc
    have h7 : '7'.toNat = 55 := rfl
    have h0 : '0'.toNat = 48 := rfl
    omega
  · cases h

theorem appendOctal?_of_le {n digit : Nat} (h : n ≤ 31) (hdigit : digit ≤ 7) :
    appendOctal? n digit = some (n * 8 + digit) := by
  have hlimit : 255 ≤ UInt32.size - 1 := by decide
  rw [appendOctal?, upTo?_of_le (by omega)]
  exact upTo?_of_le (by omega)

theorem octet?_of_le {x y z : Nat} (hx : x ≤ 3) (hy : y ≤ 7) (hz : z ≤ 7) :
    octet? x y z = some (some (UInt8.ofNat (x * 64 + y * 8 + z))) := by
  have hlimit : 255 ≤ UInt8.size - 1 := by decide
  have hsum : (x * 8 + y) * 8 + z = x * 64 + y * 8 + z := by omega
  rw [octet?, appendOctal?_of_le (by omega) hy]
  simp only [Option.bind_eq_bind, Option.bind_some]
  rw [appendOctal?_of_le (by omega) hz, hsum, Option.bind_some, upTo?_of_le (by omega)]
  rfl

theorem unquoteOctets_eq (cs : List Char) : unquoteOctets cs = some (Patch.unquoteOctets cs) := by
  fun_induction Patch.unquoteOctets cs with
  | case1 => rfl
  | case2 => rw [unquoteOctets]
  | case3 c cs b hb ih =>
    unfold unquoteOctets
    simp only [hb, ih, Option.map_some]
  | case4 c hescape d e cs x y z hz hy hx hle ih =>
    rw [unquoteOctets]
    simp only [hescape, hx, hy, hz, if_pos hle,
      octet?_of_le hle (octalValue?_le hy) (octalValue?_le hz), ih, Option.map_some]
  | case5 c hescape d e cs x y z hz hy hx hle =>
    rw [unquoteOctets]
    simp only [hescape, hx, hy, hz, if_neg hle]
  | case6 c hescape d e cs hno =>
    simp only [unquoteOctets, hescape]
  | case7 c cs hescape hshort =>
    unfold unquoteOctets
    simp only [hescape]
  | case8 c cs hquote hback ih =>
    rw [unquoteOctets, ih]
    · rfl
    · exact hquote
    · exact hback

theorem unquoteName?_eq (cs : List Char) : unquoteName? cs = some (Patch.unquoteName? cs) := by
  unfold Patch.unquoteName?
  split
  · rw [unquoteName?, unquoteOctets_eq]
    rfl
  · rename_i hquote
    rw [unquoteName?]
    exact hquote

theorem readName_eq (number : Nat) (side : Side) (value : String) :
    readName number side value = .exactly (Patch.readName number side value) := by
  unfold readName Patch.readName
  dsimp only
  split
  · rw [unquoteName?_eq]
    cases Patch.unquoteName? (Text.stripTerminator value).toList with
    | none => rfl
    | some name =>
      simp only [Run.liftM_some_bind]
      cases Patch.pathOfName number side name.toList <;> rfl
  · split
    · rfl
    · cases Patch.pathOfName number side _ <;> rfl

/-! ## Headers -/

def headerValue? (mark : List Char) (line : String) : Option (Option String) :=
  if mark.isPrefixOf line.toList then (textBehind? mark.length line).map some else some none

def findOldHeader : List (String × Nat) → Option (Option (Nat × String × List (String × Nat)))
  | [] => some none
  | (l, i) :: ls => do
    match ← headerValue? Patch.oldHeaderMark l with
    | some value => return some (← add? i 1, value, ls)
    | none => findOldHeader ls

theorem headerValue?_eq {mark : List Char} (hmark : mark.all (·.utf8Size = 1)) (line : String) :
    headerValue? mark line = some (Patch.headerValue? mark line) := by
  unfold headerValue? Patch.headerValue?
  split
  · rename_i h
    obtain ⟨rest, hrest⟩ := List.isPrefixOf_iff_prefix.1 h
    rw [textBehind?_of_toList hrest.symm (by simpa using hmark), ← hrest, List.drop_left]
    rfl
  · rfl

theorem findOldHeader_eq {ls : List String} {i : Nat} (hcount : i + ls.length ≤ maxNumber) :
    findOldHeader (ls.zipIdx i) = some ((Patch.findOldHeader (i + 1) ls).map
      fun (number, value, rest) => (number, value, rest.zipIdx number)) := by
  induction ls generalizing i with
  | nil => rfl
  | cons l ls ih =>
    rw [List.length_cons] at hcount
    rw [List.zipIdx_cons, findOldHeader, headerValue?_eq rfl, Patch.findOldHeader]
    cases Patch.headerValue? Patch.oldHeaderMark l with
    | none => exact ih (by omega)
    | some value =>
      rw [add?_of_le (by omega)]
      rfl

/-! ## Bodies -/

/-- The line of a body without its sigil. -/
def bodyLine? (l : String) : Option (Option Line) :=
  match l.toList with
  | ' ' :: _ => (textBehind? 1 l).map fun text => some ⟨.context, withNewline text⟩
  | '-' :: _ => (textBehind? 1 l).map fun text => some ⟨.deletion, withNewline text⟩
  | '+' :: _ => (textBehind? 1 l).map fun text => some ⟨.insertion, withNewline text⟩
  | '\n' :: _ => some (some ⟨.context, withNewline l⟩)
  | '\r' :: _ => some (some ⟨.context, withNewline l⟩)
  | _ => some none

/-- A marker on line `number` takes the newline from the line in front of it. -/
def markLast (number : Nat) (read : List Line) : Except ParseError (List Line) :=
  match read.getLast? with
  | some last =>
    if Text.isTerminated last.text then .ok
      (read.dropLast ++ [⟨last.kind, Text.dropNewline last.text⟩])
    else .error ⟨number, .strayMarker⟩
  | none => .error ⟨number, .strayMarker⟩

/-- What is left to read of one side after a line that may belong to it. -/
def countDown? (belongs : Bool) (left : Nat) : Option Nat :=
  if belongs then sub? left 1 else some left

/-- Reads lines behind those of a body that are read already, while `old` lines of the old side and
`new` lines of the new side are left. A marker may follow the last of them. -/
def readBody (header old new : Nat) (read : List Line) :
    List (String × Nat) → Run ParseError (List Line × List (String × Nat))
  | [] => if old = 0 ∧ new = 0 then pure (read, []) else throw ⟨header, .bodyCutShort⟩
  | (l, i) :: ls =>
    if old = 0 ∧ new = 0 then
      if isMarker l then do
        let read ← markLast (← add? i 1) read
        return (read, ls)
      else pure (read, (l, i) :: ls)
    else do
      let number ← add? i 1
      if isMarker l then
        let read ← markLast number read
        readBody header old new read ls
      else
        match ← bodyLine? l with
        | none => throw ⟨number, .otherThanBodyLine (Text.stripTerminator l)⟩
        | some line =>
          if (line.kind.isOld ∧ old = 0) ∨
            (line.kind.isNew ∧ new = 0) then throw ⟨number, .bodyTooLong⟩
          else
            let old ← countDown? line.kind.isOld old
            let new ← countDown? line.kind.isNew new
            readBody header old new (read ++ [line]) ls

/-- What is left is a rest of the lines, so the hunks of a text come to an end. -/
theorem suffix_of_readBody {header old new : Nat} {read : List Line} {lines : List (String × Nat)}
    {r : List Line × List (String × Nat)}
    (h : readBody header old new read lines = .exactly (.ok r)) :
    r.2 <:+ lines := by
  induction lines generalizing old new read with
  | nil =>
    rw [readBody] at h
    split at h <;> cases h
    exact List.suffix_rfl
  | cons line lines ih =>
    obtain ⟨l, i⟩ := line
    rw [readBody] at h
    split at h
    · split at h
      · obtain ⟨number, -, h⟩ := Run.bind_eq_ok h
        obtain ⟨read, -, h⟩ := Run.bind_eq_ok h
        cases h
        exact List.suffix_cons _ _
      · cases h
        exact List.suffix_rfl
    · refine List.IsSuffix.trans ?_ (List.suffix_cons _ _)
      obtain ⟨number, -, h⟩ := Run.bind_eq_ok h
      split at h
      · obtain ⟨read, -, h⟩ := Run.bind_eq_ok h
        exact ih h
      · obtain ⟨line?, -, h⟩ := Run.bind_eq_ok h
        split at h
        · cases h
        split at h
        · cases h
        obtain ⟨old, -, h⟩ := Run.bind_eq_ok h
        obtain ⟨new, -, h⟩ := Run.bind_eq_ok h
        exact ih h

def readHunks (lines : List (String × Nat)) : Run ParseError (List Hunk) :=
  match lines with
  | [] => pure []
  | (l, i) :: ls => do
    let number ← add? i 1
    if isBlankLine l then readHunks ls
    else
      let h ← readHeader number l
      Run.bindOk (readBody number h.oldLength h.newLength [] ls) fun r hread => do
        have _ := (suffix_of_readBody hread).length_le
        let hs ← readHunks r.2
        return { h with lines := r.1 } :: hs
termination_by lines.length
decreasing_by
  · exact Nat.lt_succ_self _
  · exact Nat.lt_succ_of_le ‹_›

theorem bodyLine?_eq (l : String) : bodyLine? l = some (Hunk.bodyLine? l) := by
  have hsigil : ∀ c cs, l.toList = c :: cs → c.utf8Size = 1 → textBehind? 1 l = some
      (String.ofList cs) :=
    fun c cs hl hc => textBehind?_of_toList (show l.toList = [c] ++ cs from hl) (by simpa using hc)
  unfold bodyLine?
  split
  · rename_i cs hl
    simp [Hunk.bodyLine?, hl, hsigil _ _ hl (by decide)]
  · rename_i cs hl
    simp [Hunk.bodyLine?, hl, hsigil _ _ hl (by decide)]
  · rename_i cs hl
    simp [Hunk.bodyLine?, hl, hsigil _ _ hl (by decide)]
  · rename_i cs hl
    simp [Hunk.bodyLine?, hl]
  · rename_i cs hl
    simp [Hunk.bodyLine?, hl]
  · unfold Hunk.bodyLine?
    split <;> simp_all

theorem markLast_concat (number : Nat) (read : List Line) {last : Line}
    (h : Text.isTerminated last.text = true) :
    markLast number (read ++ [last]) = .ok (read ++ [⟨last.kind, Text.dropNewline last.text⟩]) := by
  simp [markLast, h]

/-- There is no line in front of the body, and no line loses its newline twice. -/
theorem markLast_nil (number : Nat) : markLast number [] = .error ⟨number, .strayMarker⟩ := rfl

theorem markLast_marked (number : Nat) (read : List Line) {last : Line}
    (h : Text.IsLine last.text) :
    markLast number (read ++ [⟨last.kind, Text.dropNewline last.text⟩]) = .error
      ⟨number, .strayMarker⟩ := by
  have hterm : Text.isTerminated (Text.dropNewline last.text) = false := by
    cases hlast : Text.isTerminated last.text with
    | false => rwa [Text.dropNewline, hlast, if_neg Bool.false_ne_true]
    | true =>
      obtain ⟨cs, hcs, hnewline⟩ := h.exists_eq_append hlast
      rw [Text.dropNewline, hlast, if_pos rfl, hcs, List.dropLast_concat, Bool.eq_false_iff, ne_eq,
        Text.isTerminated_iff, String.toList_ofList]
      exact fun hmem => hnewline (List.mem_of_getLast? hmem)
  simp [markLast, hterm]

/-- What is read behind lines that are read already, and the rest with its numbers. -/
def behindRead (read : List Line) (b : Hunk.Body) : List Line × List (String × Nat) :=
  (read ++ b.lines, b.rest.zipIdx (b.next - 1))

/-- Reading goes on behind lines of which the last takes no marker. -/
def ReadsOn (header old new number : Nat) (ls : List String) : Prop :=
  ∀ read, (∀ number, markLast number read = .error ⟨number, .strayMarker⟩) ∨
    ls.head?.any isMarker = false → readBody header old new read (ls.zipIdx (number - 1)) = .exactly
    (((Hunk.readBody header number old new ls).map (·.1)).map (behindRead read))

theorem exists_cons_of_marker {ls : List String} (h : ls.head?.any isMarker = true) :
    ∃ m rest, ls = m :: rest ∧ isMarker m = true := by
  cases ls with
  | nil => cases h
  | cons m rest => exact ⟨m, rest, rfl, h⟩

theorem readBody_done (header : Nat) (read : List Line) {ls : List String} (i : Nat)
    (hhead : ls.head?.any isMarker = false) :
    readBody header 0 0 read (ls.zipIdx i) =
      .exactly (((Hunk.readBody header (i + 1) 0 0 ls).map (·.1)).map (behindRead read)) := by
  have hread : (read, ls.zipIdx i) = behindRead read ⟨[], i + 1, ls⟩ := by simp [behindRead]
  rw [Hunk.readBody.eq_def, if_pos ⟨rfl, rfl⟩]
  refine Eq.trans ?_ (congrArg (fun r => Run.exactly (.ok r)) hread)
  cases ls with
  | nil => rfl
  | cons l ls =>
    have hmarker : isMarker l = false := hhead
    rw [List.zipIdx_cons, readBody, if_pos ⟨rfl, rfl⟩, hmarker]
    rfl

/-- A marker behind a line that has its newline takes it, and other lines are read on. -/
theorem readBody_concat {header old new i : Nat} (read : List Line) {line : Line} {ls : List String}
    (hcount : i + ls.length ≤ maxNumber) (hline : Text.IsLine line.text)
    (hterm : Text.isTerminated line.text = true)
    (hon : ¬ (old = 0 ∧ new = 0) → ReadsOn header old new (Hunk.takeMarker line (i + 1) ls).2.1
      (Hunk.takeMarker line (i + 1) ls).2.2) :
    readBody header old new (read ++ [line]) (ls.zipIdx i) =
      .exactly (((Hunk.readBody header (Hunk.takeMarker line (i + 1) ls).2.1 old new
        (Hunk.takeMarker line (i + 1) ls).2.2).map (·.1)).map
          (behindRead (read ++ [(Hunk.takeMarker line (i + 1) ls).1]))) := by
  cases hhead : ls.head?.any isMarker with
  | false =>
    have htaken : Hunk.takeMarker line (i + 1) ls = (line, i + 1, ls) := by
      cases ls with
      | nil => rfl
      | cons m ls => exact if_neg (Bool.eq_false_iff.1 hhead)
    rw [htaken] at hon ⊢
    by_cases hdone : old = 0 ∧ new = 0
    · obtain ⟨rfl, rfl⟩ := hdone
      exact readBody_done header _ i hhead
    · exact hon hdone (read ++ [line]) (.inr hhead)
  | true =>
    obtain ⟨m, ls, rfl, hmarker⟩ := exists_cons_of_marker hhead
    have htaken : Hunk.takeMarker line (i + 1) (m :: ls) =
        (⟨line.kind, Text.dropNewline line.text⟩, i + 2, ls) :=
      if_pos hmarker
    rw [htaken] at hon ⊢
    rw [List.length_cons] at hcount
    rw [List.zipIdx_cons, readBody, hmarker, if_pos rfl, add?_of_le (by omega)]
    by_cases hdone : old = 0 ∧ new = 0
    · obtain ⟨rfl, rfl⟩ := hdone
      rw [if_pos ⟨rfl, rfl⟩, Run.liftM_some_bind, markLast_concat _ _ hterm, Hunk.readBody.eq_def,
        if_pos ⟨rfl, rfl⟩]
      exact congrArg (fun r => Run.exactly (.ok r)) (by simp [behindRead])
    · rw [if_neg hdone, Run.liftM_some_bind, markLast_concat _ _ hterm, if_pos rfl,
        Run.liftM_ok_bind]
      exact hon hdone _ (.inl fun number => markLast_marked number read hline)

theorem isTerminated_bodyLine? {l : String} {line : Line} (h : Hunk.bodyLine? l = some line) :
    Text.isTerminated line.text = true := by
  have hnewline : ∀ s, Text.isTerminated (withNewline s) = true := by
    intro s
    unfold withNewline
    split
    · assumption
    · exact Text.isTerminated_append_newline s
  unfold Hunk.bodyLine? at h
  split at h <;> cases h <;> exact hnewline _

theorem countDown?_eq {belongs : Bool} {left : Nat} (h : ¬ (belongs = true ∧ left = 0)) :
    countDown? belongs left = some (left - belongs.toNat) := by
  cases belongs with
  | false => rfl
  | true => exact sub?_of_le (Nat.pos_of_ne_zero fun hleft => h ⟨rfl, hleft⟩)

theorem readBody_cons {header old new i : Nat} (read : List Line) {l : String} (ls : List String)
    (hi : i < maxNumber) (hleft : ¬ (old = 0 ∧ new = 0)) (hmarker : isMarker l = false) :
    readBody header old new read ((l :: ls).zipIdx i) =
      match Hunk.bodyLine? l with
      | none => .exactly (.error ⟨i + 1, .otherThanBodyLine (Text.stripTerminator l)⟩)
      | some line =>
        if (line.kind.isOld ∧ old = 0) ∨ (line.kind.isNew ∧ new = 0) then .exactly
          (.error ⟨i + 1, .bodyTooLong⟩)
        else readBody header (old - line.kind.isOld.toNat) (new - line.kind.isNew.toNat)
          (read ++ [line]) (ls.zipIdx (i + 1)) := by
  rw [List.zipIdx_cons, readBody, if_neg hleft, add?_of_le hi, Run.liftM_some_bind, hmarker,
    if_neg Bool.false_ne_true, bodyLine?_eq, Run.liftM_some_bind]
  cases Hunk.bodyLine? l with
  | none => rfl
  | some line =>
    dsimp only
    split
    · rfl
    · rename_i hroom
      obtain ⟨hold, hnew⟩ := not_or.1 hroom
      rw [countDown?_eq hold, Run.liftM_some_bind, countDown?_eq hnew, Run.liftM_some_bind]

/-- The loop that reads body lines and markers one by one reads what is read with each line's marker
at once. -/
theorem readsOn {header number old new : Nat} {ls : List String} (hnumber : 0 < number)
    (hcount : number + ls.length ≤ maxNumber + 1) (hls : ∀ l ∈ ls, Text.IsLine l)
    (hleft : ¬ (old = 0 ∧ new = 0)) :
    ReadsOn header old new number ls := by
  induction hlength : ls.length using Nat.strongRecOn generalizing number old new ls with
  | ind n ih =>
  obtain ⟨i, rfl⟩ := Nat.exists_eq_add_one_of_ne_zero (Nat.ne_zero_of_lt hnumber)
  intro read hread
  rw [Nat.add_sub_cancel]
  cases ls with
  | nil =>
    rw [List.zipIdx_nil, readBody, if_neg hleft, Hunk.readBody.eq_def, if_neg hleft]
    rfl
  | cons l ls =>
    obtain ⟨hl, hls⟩ := List.forall_mem_cons.1 hls
    rw [List.length_cons] at hcount hlength
    rw [Hunk.map_readBody_cons, if_neg hleft]
    cases hmarker : isMarker l with
    | true =>
      have hread := hread.resolve_right (by simp [hmarker])
      rw [List.zipIdx_cons, readBody, if_neg hleft, add?_of_le (by omega), Run.liftM_some_bind,
        hmarker, if_pos rfl, hread, if_pos rfl]
      rfl
    | false =>
      rw [readBody_cons read ls (by omega) hleft hmarker, if_neg Bool.false_ne_true]
      cases hline : Hunk.bodyLine? l with
      | none => rfl
      | some line =>
        dsimp only
        split
        · rfl
        have hbody := Hunk.isLine_bodyLine? hl hline
        obtain ⟨hnext, hcounts⟩ := Hunk.takeMarker_count line (i + 1 + 1) ls
        obtain ⟨-, -, hrest⟩ := Hunk.takeMarker_spec hbody (i + 1 + 1) ls
        have hshorter := hrest.length_le
        rw [readBody_concat read (by omega) hbody (isTerminated_bodyLine? hline) fun hleft =>
          ih _ (by omega) (by omega) (by omega) (fun k hk => hls k (hrest.subset hk)) hleft rfl]
        cases (Hunk.readBody header _ _ _ _).map (·.1) with
        | error e => rfl
        | ok b => exact congrArg (fun r => Run.exactly (.ok r)) (by simp [behindRead])

/-- There is no line in front of a body that a marker could belong to. -/
theorem readBody_eq {i : Nat} (h : Hunk) {ls : List String} (hcount : i + 1 + ls.length ≤ maxNumber)
    (hls : ∀ l ∈ ls, Text.IsLine l) :
    readBody (i + 1) h.oldLength h.newLength [] (ls.zipIdx (i + 1)) =
      .exactly (((Hunk.readWholeBody (i + 1) h ls).map (·.1)).map (behindRead [])) := by
  unfold Hunk.readWholeBody
  split
  · rename_i hhead
    obtain ⟨m, ls, rfl, hmarker⟩ := exists_cons_of_marker hhead
    rw [List.length_cons] at hcount
    rw [List.zipIdx_cons, readBody, add?_of_le (by omega), Run.liftM_some_bind, Run.liftM_some_bind,
      if_pos hmarker, if_pos hmarker, markLast_nil]
    split <;> rfl
  · rename_i hhead
    by_cases hdone : h.oldLength = 0 ∧ h.newLength = 0
    · rw [hdone.1, hdone.2]
      exact readBody_done _ _ _ (Bool.eq_false_iff.2 hhead)
    · exact readsOn (Nat.succ_pos (i + 1)) (by omega) hls hdone [] (.inl (markLast_nil ·))

theorem count_of_readWholeBody {number : Nat} {h : Hunk} {ls : List String}
    (hls : ∀ l ∈ ls, Text.IsLine l) {b} (hread : Hunk.readWholeBody number h ls = .ok b) :
    number < b.1.next ∧ b.1.next + b.1.rest.length = number + 1 + ls.length ∧
      ∀ l ∈ b.1.rest, Text.IsLine l := by
  unfold Hunk.readWholeBody at hread
  split at hread
  · cases hread
  · obtain ⟨hnext, hcount⟩ := Hunk.count_of_readBody hread
    have hbody := Hunk.isReadFrom_of_readBody hls hread
    exact ⟨hnext, hcount, fun l hl => hls l (hbody.rest.subset hl)⟩

theorem readHunks_eq {i : Nat} {ls : List String} (hcount : i + ls.length ≤ maxNumber)
    (hls : ∀ l ∈ ls, Text.IsLine l) :
    readHunks (ls.zipIdx i) = .exactly (Hunk.readHunks (i + 1) ls) := by
  induction hlength : ls.length using Nat.strongRecOn generalizing i ls with
  | ind n ih =>
  cases ls with
  | nil => simp [readHunks, Hunk.readHunks, Run.pure_eq]
  | cons l ls =>
    obtain ⟨hl, hls⟩ := List.forall_mem_cons.1 hls
    rw [List.length_cons] at hcount hlength
    rw [List.zipIdx_cons, readHunks, add?_of_le (by omega), Run.liftM_some_bind,
      Hunk.readHunks_cons]
    split
    · exact ih _ (by omega) (by omega) hls rfl
    cases Hunk.readHeader (i + 1) l with
    | error e => rfl
    | ok h =>
      dsimp only
      rw [Run.liftM_ok_bind, Run.bindOk_eq_bind, readBody_eq h (by omega) hls]
      cases hwhole : Hunk.readWholeBody (i + 1) h ls with
      | error e => rfl
      | ok b =>
        obtain ⟨hnext, hcounts, hrest⟩ := count_of_readWholeBody hls hwhole
        have hread := ih b.1.rest.length (by omega) (i := b.1.next - 1) (by omega) hrest rfl
        rw [Nat.sub_add_cancel (Nat.one_le_of_lt hnext)] at hread
        simp only [Except.map, behindRead, List.nil_append, Run.exactly_ok_bind, hread]
        cases Hunk.readHunks b.1.next b.1.rest <;> rfl

/-! ## Patches -/

def ofLines (lines : List (String × Nat)) : Run ParseError Patch := do
  match ← findOldHeader lines with
  | none => throw ⟨0, .noOldHeader⟩
  | some (number, value, lines) =>
    let old ← readName number .old value
    match lines with
    | [] => throw ⟨number, .noNewHeader⟩
    | (l, i) :: ls =>
      let number ← add? i 1
      match ← headerValue? Patch.newHeaderMark l with
      | none => throw ⟨number, .otherThanNewHeader⟩
      | some value =>
        let new ← readName number .new value
        let (path, kind) ← Patch.kindOfNames number old new
        let hunks ← readHunks ls
        match Patch.shapeFault? kind hunks with
        | some fault => throw ⟨number, fault⟩
        | none => return ⟨path, kind, hunks⟩

def parse (text : String) : Run ParseError Patch := ofLines (Text.lines text).zipIdx

theorem count_of_findOldHeader {number : Nat} {ls : List String}
    {found : Nat × String × List String} (h : Patch.findOldHeader number ls = some found) :
    found.1 + 1 + found.2.2.length = number + ls.length := by
  induction ls generalizing number with
  | nil => cases h
  | cons l ls ih =>
    rw [List.length_cons]
    unfold Patch.findOldHeader at h
    split at h
    · cases h
      dsimp only
      omega
    · rw [ih h]
      omega

theorem ofLines_eq {ls : List String} (hcount : ls.length ≤ maxNumber)
    (hls : ∀ l ∈ ls, Text.IsLine l) :
    ofLines ls.zipIdx = .exactly (Patch.ofLines ls) := by
  rw [ofLines, findOldHeader_eq (by omega), Run.liftM_some_bind, Patch.ofLines]
  cases hfound : Patch.findOldHeader 1 ls with
  | none => rfl
  | some found =>
    obtain ⟨number, value, rest⟩ := found
    have hcounts := count_of_findOldHeader hfound
    have hrest := Patch.suffix_of_findOldHeader hfound
    simp only [Option.map_some, readName_eq, Run.exactly_bind, Run.exactly_ok_bind]
    refine bind_congr fun old => ?_
    cases rest with
    | nil => rfl
    | cons l ls =>
      dsimp only [List.length_cons] at hcounts hrest
      simp only [List.zipIdx_cons]
      rw [add?_of_le (by omega), Run.liftM_some_bind, headerValue?_eq rfl, Run.liftM_some_bind]
      cases Patch.headerValue? Patch.newHeaderMark l with
      | none => rfl
      | some value =>
        rw [Run.exactly_bind, Run.exactly_ok_bind, Run.exactly_bind]
        refine bind_congr fun new => ?_
        have hread : readHunks (ls.zipIdx (number + 1)) = .exactly
            (Hunk.readHunks (number + 2) ls) :=
          readHunks_eq (by omega) fun k hk => hls k (hrest.subset (List.mem_cons_of_mem l hk))
        rw [Run.exactly_bind, Run.liftM_eq]
        refine bind_congr fun pathAndKind => ?_
        rw [Run.exactly_bind, hread]
        refine bind_congr fun hunks => ?_
        cases Patch.shapeFault? pathAndKind.2 hunks <;> rfl

theorem parse_eq {text : String} (h : (Text.lines text).length ≤ maxNumber) :
    parse text = .exactly (Patch.parse text) :=
  ofLines_eq h fun _ hl => Text.isLine_of_mem_lines hl

end Patchwork.Word
