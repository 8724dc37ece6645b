/-!
# Locations on a disk

A directory holds its entries under names, and a location is the list of names from the root of the
disk down. Locations are ordered name by name. In this order a directory stands in front of
everything below it, and entries of one directory follow each other by name.
-/
namespace Patchwork

/-- What may name an entry: any text without `/` but the empty one, `.` and `..`. -/
def IsFileName (cs : List Char) : Prop := cs ≠ [] ∧ cs ≠ ['.'] ∧ cs ≠ ['.', '.'] ∧ '/' ∉ cs

instance (cs : List Char) : Decidable (IsFileName cs) := inferInstanceAs (Decidable (_ ∧ _))

structure FileName where
  text : String
  isFileName : IsFileName text.toList
  deriving DecidableEq, Repr

namespace FileName

def ofChars? (cs : List Char) : Option FileName :=
  if h : IsFileName cs then some ⟨String.ofList cs, by simpa using h⟩ else none

/-- A disk stores names of 255 octets at most. -/
def isTooLong (name : FileName) : Bool := 255 < name.text.utf8ByteSize

instance : Ord FileName := ⟨fun a b => compare a.text b.text⟩

instance : Std.TransOrd FileName where
  eq_swap {a b} := @Std.OrientedCmp.eq_swap String compare _ a.text b.text
  isLE_trans {a b c} h h' := @Std.TransCmp.isLE_trans String compare _ a.text b.text c.text h h'

instance : Std.LawfulEqOrd FileName where
  compare_self {a} := @Std.ReflCmp.compare_self String compare _ a.text
  eq_of_compare {a b} h := by
    have := @Std.LawfulEqCmp.eq_of_compare String compare _ a.text b.text h
    cases a; cases b; simp_all

end FileName

/-- The names from the root of the disk down. -/
abbrev Location := List FileName

namespace Location

def text (l : Location) : String := "/".intercalate (l.map (·.text))

def isWithin (l dir : Location) : Bool := dir.isPrefixOf l

@[simp] theorem isWithin_iff {l dir : Location} : l.isWithin dir = true ↔ dir <+: l := by
  simp [isWithin, List.isPrefixOf_iff_prefix]

def relativeTo? (l dir : Location) : Option Location :=
  if l.isWithin dir then some (l.drop dir.length) else none

theorem relativeTo?_eq_some_iff {l dir rest : Location} :
    l.relativeTo? dir = some rest ↔ l = dir ++ rest := by
  simp only [relativeTo?, isWithin_iff]
  constructor
  · intro h
    split at h <;> simp at h
    rename_i hp
    obtain ⟨t, rfl⟩ := hp
    simp [← h]
  · rintro rfl
    simp

/-- The location that takes the place of `l` when the directory `src` is renamed `dst`. -/
def renamed? (l src dst : Location) : Option Location := (l.relativeTo? src).map (dst ++ ·)

theorem renamed?_eq_some_iff {l src dst m : Location} :
    l.renamed? src dst = some m ↔ ∃ rest, l = src ++ rest ∧ m = dst ++ rest := by
  simp only [renamed?, Option.map_eq_some_iff, relativeTo?_eq_some_iff]
  exact exists_congr fun rest => and_congr_right fun _ => eq_comm

end Location

end Patchwork
