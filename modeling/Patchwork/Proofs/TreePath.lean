import Mathlib.Data.List.Basic
import Patchwork.Disk.Location
import Patchwork.Proofs.Patch.FileName

/-!
# Paths and locations

A location is a path of a tree when its names are joined, and every path that normalisation leaves
alone is one (`IsStable.exists_ofLocation`). A path has the names of its location, so no two
locations share one.
-/
namespace Patchwork

/-! ## Splitting at separators -/

theorem forall_mem_of_mem_splitOnP {α : Type*} {p : α → Bool} {xs l : List α}
    (h : l ∈ xs.splitOnP p) : ∀ x ∈ l, x ∈ xs ∧ p x = false := by
  induction xs generalizing l with
  | nil => simp_all
  | cons x xs ih =>
    rw [List.splitOnP_cons_eq_if_modifyHead] at h
    cases hx : p x with
    | true =>
      rw [hx, if_pos rfl, List.mem_cons] at h
      rcases h with rfl | h
      · simp
      · exact fun y hy => (ih h y hy).imp_left (List.mem_cons_of_mem _)
    | false =>
      rw [hx, if_neg Bool.false_ne_true] at h
      cases hs : xs.splitOnP p with
      | nil => simp [hs] at h
      | cons first rest =>
        have ih : ∀ l ∈ first :: rest, ∀ y ∈ l, y ∈ x :: xs ∧ p y = false := fun l hl y hy =>
          (ih (hs ▸ hl) y hy).imp_left (List.mem_cons_of_mem _)
        rw [hs, List.modifyHead_cons, List.mem_cons] at h
        rcases h with rfl | h
        · exact List.forall_mem_cons.2 ⟨⟨by simp, hx⟩, ih first (by simp)⟩
        · exact ih l (by simp [h])

theorem splitOnP_intercalate {α : Type*} {p : α → Bool} {sep : α} (hsep : p sep = true)
    {ls : List (List α)} (hne : ls ≠ []) (h : ∀ l ∈ ls, ∀ x ∈ l, p x = false) :
    ([sep].intercalate ls).splitOnP p = ls := by
  induction ls with
  | nil => exact absurd rfl hne
  | cons l ls ih =>
    obtain ⟨hl, h⟩ := List.forall_mem_cons.1 h
    cases ls with
    | nil => simpa using List.splitOnP_eq_singleton hl
    | cons k ls =>
      rw [List.intercalate_cons_cons, List.append_assoc, List.singleton_append,
        List.splitOnP_append_cons_of_forall_mem hl sep hsep, ih (by simp) h]

theorem mem_of_mem_intercalate {α : Type*} {sep : List α} {ls : List (List α)} {x : α}
    (h : x ∈ sep.intercalate ls) : (∃ l ∈ ls, x ∈ l) ∨ x ∈ sep := by
  induction ls with
  | nil => simp at h
  | cons l ls ih =>
    cases ls with
    | nil => exact .inl ⟨l, by simp, by simpa using h⟩
    | cons k ls =>
      rw [List.intercalate_cons_cons, List.mem_append, List.mem_append] at h
      rcases h with (h | h) | h
      · exact .inl ⟨l, by simp, h⟩
      · exact .inr h
      · rcases ih h with ⟨l, hl, hx⟩ | hx
        · exact .inl ⟨l, List.mem_cons_of_mem _ hl, hx⟩
        · exact .inr hx

theorem intercalate_concat {α : Type*} (sep : List α) (ls : List (List α)) (l : List α) :
    sep.intercalate (ls ++ [l]) = ls.flatMap (· ++ sep) ++ l := by
  induction ls with
  | nil => simp
  | cons first ls ih =>
    obtain ⟨next, rest, hrest⟩ : ∃ next rest, ls ++ [l] = next :: rest :=
      List.exists_cons_of_ne_nil (by simp)
    rw [List.cons_append, hrest, List.intercalate_cons_cons, ← hrest, ih]
    simp

theorem intercalate_prefix {α : Type*} (sep : List α) {ls ms : List (List α)} (h : ls <+: ms) :
    sep.intercalate ls <+: sep.intercalate ms := by
  induction ls generalizing ms with
  | nil => exact List.nil_prefix
  | cons l ls ih =>
    obtain ⟨rest, rfl⟩ := h
    cases ls with
    | nil =>
      rw [List.singleton_append, List.intercalate_singleton]
      cases rest with
      | nil => simp
      | cons next rest =>
        rw [List.intercalate_cons_cons, List.append_assoc]
        exact List.prefix_append _ _
    | cons next ls =>
      rw [List.cons_append, List.cons_append, List.intercalate_cons_cons,
        List.intercalate_cons_cons, List.prefix_append_right_inj]
      exact ih (List.prefix_append _ _)

theorem FileName.toList_text_injective :
    Function.Injective fun name : FileName => name.text.toList := by
  intro a b h
  have htext : a.text = b.text := String.toList_inj.1 h
  cases a
  cases b
  simpa using htext

namespace TreePath

def IsName (name : List Char) : Prop := IsFileName name ∧ '\\' ∉ name

theorem isSeparator_eq_false_iff {c : Char} : isSeparator c = false ↔ c ≠ '/' ∧ c ≠ '\\' := by
  simp [isSeparator]

theorem isName_of_mem_namesOfText {cs name : List Char} (h : name ∈ namesOfText cs)
    (hup : ['.', '.'] ∉ namesOfText cs) : IsName name := by
  obtain ⟨hsplit, hkept⟩ := List.mem_filter.1 h
  have hkept : name ≠ [] ∧ name ≠ ['.'] := by simpa using hkept
  have hsep := forall_mem_of_mem_splitOnP hsplit
  refine ⟨⟨hkept.1, hkept.2, fun he => hup (he ▸ h), fun hc => ?_⟩, fun hc => ?_⟩
  · exact absurd (hsep _ hc).2 (by decide)
  · exact absurd (hsep _ hc).2 (by decide)

theorem namesOfText_intercalate {names : List (List Char)} (h : ∀ name ∈ names, IsName name) :
    namesOfText (List.intercalate ['/'] names) = names := by
  unfold namesOfText
  by_cases hne : names = []
  · subst hne
    rfl
  · rw [splitOnP_intercalate rfl hne, List.filter_eq_self.2]
    · intro name hname
      simp [(h name hname).1.1, (h name hname).1.2.1]
    · intro name hname c hc
      refine isSeparator_eq_false_iff.2 ⟨?_, ?_⟩
      · rintro rfl
        exact (h name hname).1.2.2.2 hc
      · rintro rfl
        exact (h name hname).2 hc

/-! ## Locations -/

def ofLocation (l : Location) : TreePath := ⟨l.text⟩

theorem toList_ofLocation (l : Location) :
    (ofLocation l).text.toList = List.intercalate ['/'] (l.map (·.text.toList)) := by
  simp [ofLocation, Location.text, String.toList_intercalate, Function.comp_def]

theorem components_ofLocation (l : Location) :
    (ofLocation l).components = l.map (·.text.toList) := by
  rw [components, toList_ofLocation]
  by_cases hne : l = []
  · subst hne
    rfl
  · have hnames : ∀ name ∈ l.map (·.text.toList), IsFileName name := by
      intro name hname
      obtain ⟨n, -, rfl⟩ := List.mem_map.1 hname
      exact n.isFileName
    rw [List.splitOn_intercalate _ (fun name hname => (hnames name hname).2.2.2)
      (by simpa using hne), List.filter_eq_self.2]
    intro name hname
    simpa using (hnames name hname).1

theorem ofLocation_injective : Function.Injective ofLocation := by
  intro l m h
  have hmap : l.map (·.text.toList) = m.map (·.text.toList) := by
    rw [← components_ofLocation, ← components_ofLocation, h]
  exact List.map_injective_iff.2 FileName.toList_text_injective hmap

@[simp] theorem isRoot_ofLocation {l : Location} : (ofLocation l).isRoot = true ↔ l = [] := by
  rw [isRoot, String.isEmpty_iff]
  constructor
  · intro h
    exact ofLocation_injective (show ofLocation l = ofLocation [] from congrArg TreePath.mk h)
  · rintro rfl
    rfl

theorem exists_map_toList {names : List (List Char)} (h : ∀ name ∈ names, IsName name) :
    ∃ l : Location, l.map (·.text.toList) = names ∧ ∀ name ∈ l, '\\' ∉ name.text.toList := by
  induction names with
  | nil => exact ⟨[], rfl, nofun⟩
  | cons name names ih =>
    obtain ⟨hname, h⟩ := List.forall_mem_cons.1 h
    obtain ⟨l, rfl, hl⟩ := ih h
    refine ⟨⟨String.ofList name, by simpa using hname.1⟩ :: l, by simp, ?_⟩
    exact List.forall_mem_cons.2 ⟨by simpa using hname.2, hl⟩

theorem ofString_eq_ok_iff {s : String} {p : TreePath} : ofString s = .ok p ↔
    isAbsoluteText s.toList = false ∧ ['.', '.'] ∉ namesOfText s.toList ∧
      ofNames (namesOfText s.toList) = p := by
  unfold ofString
  cases isAbsoluteText s.toList
  · by_cases hup : ['.', '.'] ∈ namesOfText s.toList <;> simp [hup]
  · simp

theorem mem_of_mem_ofString {s : String} {p : TreePath} (h : ofString s = .ok p) {c : Char}
    (hc : c ∈ p.text.toList) : c ∈ s.toList ∨ c = '/' := by
  obtain ⟨-, -, rfl⟩ := ofString_eq_ok_iff.1 h
  rw [ofNames, String.toList_ofList] at hc
  rcases mem_of_mem_intercalate hc with ⟨name, hname, hc⟩ | hc
  · exact .inl (forall_mem_of_mem_splitOnP (List.mem_filter.1 hname).1 c hc).1
  · exact .inr (by simpa using hc)

/-- What normalisation gives is the path of a location without backslashes. -/
theorem exists_ofLocation_of_ofString {s : String} {p : TreePath} (h : ofString s = .ok p) :
    ∃ l : Location, p = ofLocation l ∧ ∀ name ∈ l, '\\' ∉ name.text.toList := by
  obtain ⟨-, hup, rfl⟩ := ofString_eq_ok_iff.1 h
  obtain ⟨l, hl, hname⟩ := exists_map_toList fun name hname => isName_of_mem_namesOfText hname hup
  refine ⟨l, ?_, hname⟩
  rw [ofNames, ← hl, ← toList_ofLocation, String.ofList_toList]

/-- The path of a location is left alone by normalisation if no name holds a backslash, and it does
not start like a drive. -/
theorem isStable_ofLocation_iff {l : Location} : (ofLocation l).IsStable ↔
    isAbsoluteText (ofLocation l).text.toList = false ∧ ∀ name ∈ l, '\\' ∉ name.text.toList := by
  constructor
  · intro h
    obtain ⟨m, hm, hname⟩ := exists_ofLocation_of_ofString h
    obtain rfl := ofLocation_injective hm
    exact ⟨(ofString_eq_ok_iff.1 h).1, hname⟩
  · rintro ⟨habsolute, hname⟩
    have hnames : namesOfText (ofLocation l).text.toList = l.map (·.text.toList) := by
      rw [toList_ofLocation, namesOfText_intercalate]
      intro name hmem
      obtain ⟨n, hn, rfl⟩ := List.mem_map.1 hmem
      exact ⟨n.isFileName, hname n hn⟩
    refine ofString_eq_ok_iff.2 ⟨habsolute, ?_, ?_⟩
    · rw [hnames]
      intro hup
      obtain ⟨n, -, hn⟩ := List.mem_map.1 hup
      exact n.isFileName.2.2.1 hn
    · rw [hnames, ofNames, ← toList_ofLocation, String.ofList_toList]

theorem IsStable.exists_ofLocation {p : TreePath} (h : p.IsStable) : ∃ l, p = ofLocation l :=
  (exists_ofLocation_of_ofString h).imp fun _ hl => hl.1

end TreePath

end Patchwork
