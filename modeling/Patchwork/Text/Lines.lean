/-!
# Lines of a text

A line keeps its newline, so only the last line of a text can lack one. Cutting a text into lines
and joining them again gives the text back (`join_lines`).
-/
namespace Patchwork.Text

def cutLines : List Char → List (List Char)
  | [] => []
  | c :: cs =>
    if c = '\n' then ['\n'] :: cutLines cs
    else match cutLines cs with
      | [] => [[c]]
      | l :: ls => (c :: l) :: ls

@[simp] theorem flatten_cutLines (cs : List Char) : (cutLines cs).flatten = cs := by
  induction cs with
  | nil => rfl
  | cons c cs ih =>
    unfold cutLines
    split
    · simp_all
    · split <;> simp_all

theorem ne_nil_of_mem_cutLines {cs l : List Char} (h : l ∈ cutLines cs) : l ≠ [] := by
  induction cs generalizing l with
  | nil => simp [cutLines] at h
  | cons c cs ih =>
    unfold cutLines at h
    split at h
    · rcases List.mem_cons.1 h with rfl | h
      · simp
      · exact ih h
    · split at h
      · simp_all
      · rename_i l' ls hl
        rcases List.mem_cons.1 h with rfl | h
        · simp
        · exact ih (hl ▸ List.mem_cons_of_mem _ h)

/-- The lines of a text, newlines included. -/
def lines (s : String) : List String := (cutLines s.toList).map String.ofList

def join (ls : List String) : String := String.ofList (ls.flatMap String.toList)

@[simp] theorem toList_join (ls : List String) : (join ls).toList = ls.flatMap String.toList := by
  simp [join]

@[simp] theorem join_nil : join [] = "" := rfl

theorem join_append (ks ls : List String) : join (ks ++ ls) = join ks ++ join ls := by
  apply String.toList_inj.1
  simp

theorem join_lines (s : String) : join (lines s) = s := by
  apply String.toList_inj.1
  simp [lines, List.flatMap_map]

def isTerminated (l : String) : Bool := l.toList.getLast? == some '\n'

def dropNewline (l : String) : String :=
  if isTerminated l then String.ofList l.toList.dropLast else l

/-- Without the newline that closes the line, and without a carriage return in front of that. -/
def stripTerminator (l : String) : String :=
  let l := dropNewline l
  if l.toList.getLast? == some '\r' then String.ofList l.toList.dropLast else l

end Patchwork.Text
