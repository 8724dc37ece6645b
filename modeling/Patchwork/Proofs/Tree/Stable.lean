import Patchwork.Proofs.Store.PatchFiles
import Patchwork.Proofs.Tree.Below

/-!
# Paths that are read again

Whatever paths are made of paths, normalisation gives them for some text (`IsMade.isNormal`). Their
own text is read again as the path, unless it starts like a drive, which only `.` or a directory in
front of it can have hidden (`ofString_text_of_isMade`). What is joined behind a directory does not
show at the start of the text, nor does a suffix; what is taken out of a directory does.
-/
namespace Patchwork.TreePath

open PatchDirectory (fileOf patchName suffix)

variable {d p q r : TreePath}

/-- The paths that are read from texts, and those that are made of them. -/
inductive IsMade : TreePath → Prop
  | ofString {s : String} {p : TreePath} (h : ofString s = .ok p) : IsMade p
  | join {d p : TreePath} (hd : IsMade d) (hp : IsMade p) : IsMade (d.join p)
  | addSuffix {p : TreePath} (hp : IsMade p) (hne : p.isRoot = false) : IsMade (p.addSuffix suffix)
  | relativeTo? {p d r : TreePath} (hp : IsMade p) (hd : IsMade d)
    (h : p.relativeTo? d = some r) : IsMade r

/-- The first name begins with a letter and a colon, as a path on a drive does. -/
def startsLikeDrive (p : TreePath) : Bool :=
  match p.text.toList with
  | c :: ':' :: _ => c.isAlpha
  | _ => false

/-! ## The start of a text -/

/-- The text of a normal path is absolute only if it starts like a drive. -/
theorem IsNormal.isAbsoluteText_eq (h : p.IsNormal) :
    isAbsoluteText p.text.toList = p.startsLikeDrive := by
  have hfirst : ∀ c ∈ p.text.toList.head?, isSeparator c = false := by
    obtain ⟨heq, hname⟩ := isNormal_iff.1 h
    intro c hc
    refine isSeparator_eq_false_iff.2 ⟨?_, ?_⟩
    · rintro rfl
      rw [← heq] at hc
      exact head?_ofLocation_ne _ hc
    · rintro rfl
      have hmem := List.mem_of_mem_head? hc
      rw [← heq, toList_ofLocation] at hmem
      rcases mem_of_mem_intercalate hmem with ⟨l, hl, hmem⟩ | hmem
      · obtain ⟨name, hn, rfl⟩ := List.mem_map.1 hl
        exact hname name hn hmem
      · simp at hmem
  unfold startsLikeDrive isAbsoluteText
  split <;> simp_all

/-- The text of a normal path is read as that path, or refused because it starts like a drive. -/
theorem IsNormal.ofString_text (h : p.IsNormal) :
    ofString p.text = if p.startsLikeDrive then .error ⟨p.text, .absolute⟩ else .ok p := by
  rw [← h.isAbsoluteText_eq]
  split_ifs with habsolute
  · rw [ofString, if_pos habsolute]
  · have heq := h.ofLocation_location
    have hstable : (ofLocation p.location).IsStable :=
      isStable_ofLocation_iff.2 ⟨by simpa [heq] using habsolute, (isNormal_iff.1 h).2⟩
    rwa [heq] at hstable

theorem IsNormal.isStable_iff (h : p.IsNormal) : p.IsStable ↔ p.startsLikeDrive = false := by
  rw [IsStable, h.ofString_text]
  cases p.startsLikeDrive <;> simp

theorem startsLikeDrive_of_append {rest : List Char} (hne : p.isRoot = false)
    (htext : q.text.toList = p.text.toList ++ rest) (hrest : rest.head? ≠ some ':') :
    q.startsLikeDrive = p.startsLikeDrive := by
  unfold startsLikeDrive
  rw [htext]
  match hp : p.text.toList, rest with
  | [], _ => simp [isRoot_iff.2 hp] at hne
  | [c], [] => rfl
  | [c], s :: rest =>
    have hcolon : s ≠ ':' := by simpa using hrest
    simp [hcolon]
  | c :: c' :: cs, rest =>
    by_cases hcolon : c' = ':'
    · subst hcolon
      rfl
    · simp [hcolon]

theorem startsLikeDrive_join (hd : d.isRoot = false) (p : TreePath) :
    (d.join p).startsLikeDrive = d.startsLikeDrive := by
  refine startsLikeDrive_of_append hd (toList_join hd p) ?_
  cases p.isRoot <;> simp

theorem startsLikeDrive_addSuffix (hp : p.isRoot = false) :
    (p.addSuffix suffix).startsLikeDrive = p.startsLikeDrive :=
  startsLikeDrive_of_append hp (PatchDirectory.toList_fileOf p) (by decide)

/-! ## Paths that are made of paths -/

theorem IsNormal.addSuffix (h : p.IsNormal) (hne : p.isRoot = false) :
    (p.addSuffix suffix).IsNormal := by
  obtain ⟨heq, hname⟩ := isNormal_iff.1 h
  have hlocation : p.location ≠ [] := by
    intro hnil
    rw [← heq, hnil] at hne
    cases hne
  obtain ⟨dir, name, hlast⟩ := (List.eq_nil_or_concat' p.location).resolve_left hlocation
  have hfile : p.addSuffix suffix = ofLocation (dir ++ [patchName name]) := by
    rw [← PatchDirectory.fileOf_ofLocation, ← hlast, heq]
    rfl
  rw [hfile, isNormal_ofLocation_iff]
  rw [hlast] at hname
  simp only [List.mem_append, List.mem_singleton] at hname ⊢
  rintro other (hother | rfl)
  · exact hname other (.inl hother)
  · simpa [patchName, suffix] using hname name (.inr rfl)

/-- Nothing is made that normalisation does not give. -/
theorem IsMade.isNormal (h : p.IsMade) : p.IsNormal := by
  induction h with
  | ofString h => exact ⟨_, h⟩
  | join _ _ hd hp => exact hd.join hp
  | addSuffix _ hne hp => exact hp.addSuffix hne
  | relativeTo? _ _ h hp hd => exact ((hp.relativeTo?_eq_some_iff hd).1 h).1

/-- The text of a path is read again as the path, unless it starts like a drive. So it is of what is
joined, which is read if the directory is, and of a path with the suffix of patches, which is read
if the path is. A path that is taken out of a directory is read unless the name that now comes first
is like a drive. -/
theorem ofString_text_of_isMade (hd : d.IsMade) (hp : p.IsMade) :
    ofString p.text = (if p.startsLikeDrive then .error ⟨p.text, .absolute⟩ else .ok p) ∧
    ((d.join p).IsStable ↔ if d.isRoot then p.IsStable else d.IsStable) ∧
    (p.isRoot = false → ((p.addSuffix suffix).IsStable ↔ p.IsStable)) ∧
    ∀ r, p.relativeTo? d = some r → (r.IsStable ↔ r.startsLikeDrive = false) := by
  refine ⟨hp.isNormal.ofString_text, ?join, fun hne => ?suffix,
    fun r h => (IsMade.relativeTo? hp hd h).isNormal.isStable_iff⟩
  case join =>
    cases hroot : d.isRoot with
    | true => rw [join_of_isRoot hroot, if_pos rfl]
    | false =>
      rw [if_neg Bool.false_ne_true, (hd.isNormal.join hp.isNormal).isStable_iff,
        startsLikeDrive_join hroot, hd.isNormal.isStable_iff]
  case suffix =>
    rw [(hp.isNormal.addSuffix hne).isStable_iff, startsLikeDrive_addSuffix hne,
      hp.isNormal.isStable_iff]

/-- A name like that of a drive is read again behind a directory, and refused once it is taken out
of it. -/
theorem ofString_text_of_isMade_drive :
    let d : TreePath := ⟨"a"⟩
    let p : TreePath := ⟨"C:x"⟩
    d.IsMade ∧ p.IsMade ∧ (d.join p).IsStable ∧ ((d.join p).addSuffix suffix).IsStable ∧
      (d.join p).relativeTo? d = some p ∧ ¬ p.IsStable ∧
        ofString p.text = .error ⟨"C:x", .absolute⟩ := by
  intro d p
  have hd : d.IsMade := .ofString (show ofString "a" = .ok d by decide +kernel)
  have hp : p.IsMade := .ofString (show ofString "./C:x" = .ok p by decide +kernel)
  obtain ⟨hread, hjoin, -⟩ := ofString_text_of_isMade hd hp
  obtain ⟨-, -, hsuffix, hout⟩ := ofString_text_of_isMade hd (hd.join hp)
  have hbelow : (d.join p).IsStable := hjoin.2 (by decide +kernel)
  have hdrive : p.startsLikeDrive = true := by decide +kernel
  have htaken : (d.join p).relativeTo? d = some p := by decide +kernel
  rw [hdrive, if_pos rfl] at hread
  refine ⟨hd, hp, hbelow, (hsuffix (by decide +kernel)).2 hbelow, htaken, ?_, hread⟩
  rw [hout p htaken, hdrive]
  decide

/-- A drive is looked for before `.` is dropped, and not at all where a path is taken out of a
directory. -/
theorem not_forall_ofString_text :
    (¬ ∀ (s : String) (p : TreePath), ofString s = .ok p → ofString p.text = .ok p) ∧
      ¬ ∀ p d r : TreePath, p.IsStable → d.IsStable → p.relativeTo? d = some r → r.IsStable := by
  refine ⟨fun h => ?_, fun h => ?_⟩
  · exact absurd (h "./C:x" ⟨"C:x"⟩ (by decide +kernel)) (by decide +kernel)
  · exact absurd (h ⟨"a/C:x"⟩ ⟨"a"⟩ ⟨"C:x"⟩ (by decide +kernel) (by decide +kernel)
      (by decide +kernel)) (by decide +kernel)

end Patchwork.TreePath
