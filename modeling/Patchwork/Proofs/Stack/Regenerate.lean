import Patchwork.Proofs.Patch.Between
import Patchwork.Proofs.SortedMap
import Patchwork.Proofs.Stack.Arrange

/-!
# What is regenerated is replayed

A stack can be regenerated exactly if every file that differs is text on both sides, and its replay
on the base gives the derived tree, whatever the order it is arranged in (`replay_regenerate`). Each
patch is read back from its text and leads from one version of its file to the other
(`onFile_of_patchBetween`).
-/
namespace Patchwork.Stack

open Content (TextOrAbsent textOrAbsent_iff ofText)

theorem versionText_eq_ok_iff {path : TreePath} {version : Option Content} {text : Option String} :
    versionText path version = .ok text ↔ text.map ofText = version := by
  cases version with
  | none =>
    cases text with
    | none => simp [versionText]
    | some s => simp [versionText]
  | some c =>
    cases hc : c.text? with
    | none =>
      simp only [versionText, hc, reduceCtorEq, false_iff]
      intro h
      obtain ⟨s, -, rfl⟩ := Option.map_eq_some_iff.1 h
      simp at hc
    | some s =>
      rw [← Content.ofText_of_text? hc]
      cases text with
      | none => simp [versionText]
      | some t =>
        simp only [versionText, Content.text?_ofText, Except.ok.injEq, Option.some.injEq,
          Option.map_some]
        constructor
        · rintro rfl
          rfl
        · intro h
          simpa using congrArg Content.text? h.symm

variable {base derived : Tree} {context : Nat}

theorem textOrAbsent_of_patchBetween {path : TreePath} {old new : Option Content}
    {r : Option StoredPatch} (hne : old ≠ new) (h : patchBetween path old new context = .ok r) :
    TextOrAbsent old ∧ TextOrAbsent new := by
  rw [patchBetween, if_neg hne] at h
  obtain ⟨a, ha, h⟩ := Except.bind_eq_ok_iff.1 h
  obtain ⟨b, hb, -⟩ := Except.bind_eq_ok_iff.1 h
  exact ⟨textOrAbsent_iff.2 ⟨a, (versionText_eq_ok_iff.1 ha).symm⟩,
    textOrAbsent_iff.2 ⟨b, (versionText_eq_ok_iff.1 hb).symm⟩⟩

theorem exists_of_patchBetween {path : TreePath} {old new : Option Content} (hne : old ≠ new)
    {r : Option StoredPatch} (h : patchBetween path old new context = .ok r) :
    ∃ p : Patch, p.path = path ∧ r = some p.toStored := by
  rw [patchBetween, if_neg hne] at h
  obtain ⟨a, ha, h⟩ := Except.bind_eq_ok_iff.1 h
  obtain ⟨b, hb, h⟩ := Except.bind_eq_ok_iff.1 h
  have hab : a ≠ b := by
    rintro rfl
    exact hne ((versionText_eq_ok_iff.1 ha).symm.trans (versionText_eq_ok_iff.1 hb))
  cases hp : Patch.between path a b context with
  | none => simp [Patch.between, hab] at hp
  | some p =>
    rw [hp] at h
    dsimp only at h
    split at h
    · split at h <;> cases h
      exact ⟨p, (Patch.between_eq_some hp).2.1, rfl⟩
    · cases h

theorem patchBetween_of_textOrAbsent (context : Nat) (path : TreePath) {a b : Option String}
    (hne : a.map ofText ≠ b.map ofText) (hfits : ∀ c ∈ a.map ofText, c.size ≤ Content.maxSize) :
    ∃ p, Patch.between path a b context = some p ∧
      patchBetween path (a.map ofText) (b.map ofText) context = .ok (some p.toStored) := by
  have hab : a ≠ b := fun h => hne (h ▸ rfl)
  obtain ⟨p, hp⟩ : ∃ p, Patch.between path a b context = some p :=
    ⟨_, if_neg hab⟩
  have happly := Patch.applyAll_of_between (Content.length_lines_le hfits) hp
  refine ⟨p, hp, ?_⟩
  rw [patchBetween, if_neg hne]
  refine Except.bind_eq_ok_iff.2 ⟨a, versionText_eq_ok_iff.2 rfl, ?_⟩
  refine Except.bind_eq_ok_iff.2 ⟨b, versionText_eq_ok_iff.2 rfl, ?_⟩
  simp only [hp, happly, if_true]

/-- The patch for a file that differs leads from its old version to the new one. -/
theorem onFile_of_patchBetween {path : TreePath} (hpath : path.IsFilePath)
    {old new : Option Content} (hne : old ≠ new) (hold : ∀ c ∈ old, c.size ≤ Content.maxSize)
    (hnew : ∀ c ∈ new, c.size ≤ Content.maxSize) {r : Option StoredPatch}
    (h : patchBetween path old new context = .ok r) :
    ∃ p, r = some p ∧ p.target = path ∧ p.onFile old = .ok new := by
  obtain ⟨hold', hnew'⟩ := textOrAbsent_of_patchBetween hne h
  obtain ⟨a, rfl⟩ := textOrAbsent_iff.1 hold'
  obtain ⟨b, rfl⟩ := textOrAbsent_iff.1 hnew'
  obtain ⟨p, hp, hr⟩ := patchBetween_of_textOrAbsent context path hne hold
  rw [hr, Except.ok.injEq] at h
  have hcount : Hunk.maxShift ≤ maxNumber := by decide
  have hlength := Content.length_lines_le hold
  have hvalid := Patch.isValid_of_between hpath (Nat.le_trans hlength hcount)
    (Nat.le_trans (Content.length_lines_le hnew) hcount) hp
  have hpath' := (Patch.between_eq_some hp).2.1
  refine ⟨p.toStored, h.symm, hpath', ?_⟩
  exact StoredPatch.onFile_eq_ok_iff.2 ⟨p, hvalid.parse_toStored,
    Patch.onFile_of_between hlength hp⟩

theorem patchesBetween_cons_eq_ok_iff {path : TreePath} {paths : List TreePath} {s : Stack} :
    patchesBetween base derived context (path :: paths) = .ok s ↔
      ∃ r rest, patchBetween path (base.get? path) (derived.get? path) context = .ok r ∧
        patchesBetween base derived context paths = .ok rest ∧ r.toList ++ rest = s := by
  rw [patchesBetween]
  constructor
  · intro h
    obtain ⟨r, hr, h⟩ := Except.bind_eq_ok_iff.1 h
    obtain ⟨rest, hrest, h⟩ := Except.bind_eq_ok_iff.1 h
    exact ⟨r, rest, hr, hrest, Except.ok.inj h⟩
  · rintro ⟨r, rest, hr, hrest, rfl⟩
    exact Except.bind_eq_ok_iff.2 ⟨r, hr, Except.bind_eq_ok_iff.2 ⟨rest, hrest, rfl⟩⟩

def TextAt (base derived : Tree) (path : TreePath) : Prop :=
  TextOrAbsent (base.get? path) ∧ TextOrAbsent (derived.get? path)

instance (base derived : Tree) (path : TreePath) : Decidable (TextAt base derived path) :=
  inferInstanceAs (Decidable (_ ∧ _))

theorem textAt_of_patchesBetween {paths : List TreePath} {s : Stack}
    (h : patchesBetween base derived context paths = .ok s) :
    ∀ path ∈ paths, base.get? path ≠ derived.get? path → TextAt base derived path := by
  induction paths generalizing s with
  | nil => simp
  | cons path paths ih =>
    obtain ⟨r, rest, hr, hrest, -⟩ := patchesBetween_cons_eq_ok_iff.1 h
    intro q hq hne
    rcases List.mem_cons.1 hq with rfl | hq
    · exact textOrAbsent_of_patchBetween hne hr
    · exact ih hrest q hq hne

theorem targets_of_patchesBetween {paths : List TreePath} {s : Stack}
    (h : patchesBetween base derived context paths = .ok s) :
    s.targets = paths.filter fun path => base.get? path ≠ derived.get? path := by
  induction paths generalizing s with
  | nil =>
    cases h
    rfl
  | cons path paths ih =>
    obtain ⟨r, rest, hr, hrest, rfl⟩ := patchesBetween_cons_eq_ok_iff.1 h
    have htargets : targets (r.toList ++ rest) = targets r.toList ++ targets rest := List.map_append
    rw [htargets, ih hrest]
    by_cases heq : base.get? path = derived.get? path
    · rw [patchBetween, if_pos heq] at hr
      cases hr
      rw [List.filter_cons_of_neg (by simpa using heq)]
      rfl
    · obtain ⟨p, rfl, rfl⟩ := exists_of_patchBetween heq hr
      rw [List.filter_cons_of_pos (by simpa using heq)]
      rfl

theorem ne_of_mem_targets {paths : List TreePath} {s : Stack}
    (h : patchesBetween base derived context paths = .ok s) :
    ∀ target ∈ s.targets, base.get? target ≠ derived.get? target := by
  intro target htarget
  rw [targets_of_patchesBetween h] at htarget
  simpa using (List.mem_filter.1 htarget).2

theorem mem_keys_union_of_ne {path : TreePath} (h : base.get? path ≠ derived.get? path) :
    path ∈ (base.union derived).keys := by
  by_contra hmem
  rw [SortedMap.notMem_keys_iff, SortedMap.get?_union, Option.or_eq_none_iff] at hmem
  exact h (hmem.2.trans hmem.1.symm)

theorem regenerate_eq_ok_iff {options : Options} {s : Stack} :
    regenerate base derived options = .ok s ↔
      ∃ r, patchesBetween base derived options.context (base.union derived).keys = .ok r ∧
        r.arrange options.order = s := by
  rw [regenerate]
  constructor
  · intro h
    obtain ⟨r, hr, h⟩ := Except.bind_eq_ok_iff.1 h
    exact ⟨r, hr, Except.ok.inj h⟩
  · rintro ⟨r, hr, rfl⟩
    exact Except.bind_eq_ok_iff.2 ⟨r, hr, rfl⟩

theorem nodup_targets_of_patchesBetween {s : Stack}
    (h : patchesBetween base derived context (base.union derived).keys = .ok s) :
    s.targets.Nodup := by
  rw [targets_of_patchesBetween h]
  exact (SortedMap.nodup_keys _).filter _

theorem targets_of_regenerate {options : Options} {s : Stack}
    (h : regenerate base derived options = .ok s) :
    s.targets.Nodup ∧ ∀ path, path ∈ s.targets ↔ base.get? path ≠ derived.get? path := by
  obtain ⟨r, hr, rfl⟩ := regenerate_eq_ok_iff.1 h
  have hperm := r.targets_arrange_perm options.order
  refine ⟨hperm.nodup_iff.2 (nodup_targets_of_patchesBetween hr), fun path => ?_⟩
  rw [hperm.mem_iff, targets_of_patchesBetween hr, List.mem_filter]
  exact ⟨fun h => by simpa using h.2, fun h => ⟨mem_keys_union_of_ne h, by simpa using h⟩⟩

/-- If the order names every file that differs, the patches stand as it first names them. -/
theorem targets_sublist_of_regenerate {options : Options} {s : Stack}
    (horder : ∀ path, base.get? path ≠ derived.get? path → path ∈ options.order)
    (h : regenerate base derived options = .ok s) : s.targets.Sublist options.order.eraseDups := by
  obtain ⟨r, hr, rfl⟩ := regenerate_eq_ok_iff.1 h
  have hothers : r.targets.filter (· ∉ options.order) = [] := by
    refine List.filter_eq_nil_iff.2 fun target htarget => ?_
    simpa using horder target (ne_of_mem_targets hr target htarget)
  rw [targets_arrange (nodup_targets_of_patchesBetween hr), hothers, List.append_nil]
  exact List.filter_sublist

section

variable (hbase : base.Fits)
include hbase

theorem exists_patchesBetween (context : Nat) {paths : List TreePath} (htext : ∀ path ∈ paths,
    base.get? path ≠ derived.get? path → TextAt base derived path) :
    ∃ s, patchesBetween base derived context paths = .ok s := by
  induction paths with
  | nil => exact ⟨[], rfl⟩
  | cons path paths ih =>
    obtain ⟨rest, hrest⟩ := ih fun q hq => htext q (by simp [hq])
    by_cases heq : base.get? path = derived.get? path
    · refine ⟨rest, patchesBetween_cons_eq_ok_iff.2 ⟨none, rest, ?_, hrest, rfl⟩⟩
      rw [patchBetween, if_pos heq]
    · obtain ⟨hold, hnew⟩ := htext path (by simp) heq
      have hfits := hbase path
      obtain ⟨a, ha⟩ := textOrAbsent_iff.1 hold
      obtain ⟨b, hb⟩ := textOrAbsent_iff.1 hnew
      rw [ha, hb] at heq
      rw [ha] at hfits
      obtain ⟨p, -, hp⟩ := patchBetween_of_textOrAbsent context path heq hfits
      rw [← ha, ← hb] at hp
      exact ⟨_, patchesBetween_cons_eq_ok_iff.2 ⟨_, rest, hp, hrest, rfl⟩⟩

variable (hderived : derived.Fits)
  (hpaths : ∀ path, base.get? path ≠ derived.get? path → path.IsFilePath)
include hderived hpaths

theorem onFile_of_patchesBetween {paths : List TreePath} {s : Stack}
    (h : patchesBetween base derived context paths = .ok s) :
    ∀ p ∈ s, p.onFile (base.get? p.target) = .ok (derived.get? p.target) := by
  induction paths generalizing s with
  | nil =>
    cases h
    exact List.forall_mem_nil _
  | cons path paths ih =>
    obtain ⟨r, rest, hr, hrest, rfl⟩ := patchesBetween_cons_eq_ok_iff.1 h
    rw [List.forall_mem_append]
    refine ⟨?_, ih hrest⟩
    by_cases heq : base.get? path = derived.get? path
    · rw [patchBetween, if_pos heq] at hr
      cases hr
      exact List.forall_mem_nil _
    · obtain ⟨p, rfl, rfl, hp⟩ := onFile_of_patchBetween (hpaths path heq) heq (hbase path)
        (hderived path) hr
      simpa using hp

/-- What is regenerated leads from the base to the derived tree, by one patch for each file that
differs. -/
theorem replay_of_regenerate {options : Options} {s : Stack}
    (h : regenerate base derived options = .ok s) :
    s.replay base = .ok derived ∧ s.targets.Nodup := by
  obtain ⟨hnodup, hmem⟩ := targets_of_regenerate h
  obtain ⟨r, hr, rfl⟩ := regenerate_eq_ok_iff.1 h
  have hon := onFile_of_patchesBetween hbase hderived hpaths hr
  refine ⟨replay_eq_ok_of_onFile hnodup (fun p hp => hon p ((r.arrange_perm _).mem_iff.1 hp)) ?_,
    hnodup⟩
  intro path hpath
  by_contra hne
  exact hpath ((hmem path).2 hne)

omit hderived hpaths in
/-- A stack can be regenerated exactly if every file that differs is text on both sides. -/
theorem exists_regenerate_iff {options : Options} :
    (∃ s, regenerate base derived options = .ok s) ↔
      ∀ path, base.get? path ≠ derived.get? path → TextAt base derived path := by
  constructor
  · rintro ⟨s, h⟩ path hne
    obtain ⟨r, hr, -⟩ := regenerate_eq_ok_iff.1 h
    exact textAt_of_patchesBetween hr path (mem_keys_union_of_ne hne) hne
  · intro htext
    obtain ⟨r, hr⟩ := exists_patchesBetween hbase options.context fun path _ => htext path
    exact ⟨_, regenerate_eq_ok_iff.2 ⟨r, hr, rfl⟩⟩

end

theorem isFilePath_of_ne (hbasePaths : ∀ path ∈ base.keys, path.IsFilePath)
    (hderivedPaths : ∀ path ∈ derived.keys, path.IsFilePath) {path : TreePath}
    (hne : base.get? path ≠ derived.get? path) : path.IsFilePath := by
  by_cases hmem : path ∈ base.keys
  · exact hbasePaths path hmem
  · refine hderivedPaths path ?_
    by_contra hmem'
    exact hne ((SortedMap.notMem_keys_iff.1 hmem).trans (SortedMap.notMem_keys_iff.1 hmem').symm)

/-- What a stack made of the base can be regenerated, and what is regenerated makes the same
again. -/
theorem exists_regenerate_of_replay {s : Stack} (hbase : base.Fits) (hderived : derived.Fits)
    (htargets : ∀ path ∈ s.targets, path.IsFilePath) (h : s.replay base = .ok derived)
    (options : Options) :
    ∃ r, regenerate base derived options = .ok r ∧ r.replay base = .ok derived := by
  have hmem : ∀ path, base.get? path ≠ derived.get? path → path ∈ s.targets := by
    intro path hne
    by_contra hpath
    exact hne (get?_replay h hpath).symm
  obtain ⟨r, hr⟩ : ∃ r, regenerate base derived options = .ok r :=
    (exists_regenerate_iff hbase).2 fun path hne => textOrAbsent_replay h (hmem path hne)
  exact ⟨r, hr,
    (replay_of_regenerate hbase hderived (fun path hne => htargets path (hmem path hne)) hr).1⟩

/-- Between trees of well-formed paths whose files fit into memory, a stack can be regenerated
exactly if every file that differs is text on each side where it is there, and its replay on the
base gives the derived tree, octet by octet. -/
theorem replay_regenerate (hbasePaths : ∀ path ∈ base.keys, path.IsFilePath)
    (hderivedPaths : ∀ path ∈ derived.keys, path.IsFilePath) (hbase : base.Fits)
    (hderived : derived.Fits) (options : Options) :
    ((∃ s, regenerate base derived options = .ok s) ↔
      ∀ path, base.get? path ≠ derived.get? path → TextAt base derived path) ∧
    ∀ s, regenerate base derived options = .ok s → s.replay base = .ok derived := by
  have hpaths : ∀ path, base.get? path ≠ derived.get? path → path.IsFilePath := fun path hne =>
    isFilePath_of_ne hbasePaths hderivedPaths hne
  refine ⟨exists_regenerate_iff hbase, fun s hs => ?_⟩
  exact (replay_of_regenerate hbase hderived hpaths hs).1

/-- A tree with text that ends in a newline, octets that are no text, and names to be quoted. -/
def sampleBase : Tree := .ofList [
  (⟨"a"⟩, .ofText "one\ntwo\n"),
  (⟨"dir/b \"c\""⟩, .ofText "--- x\n"),
  (⟨"gone"⟩, .ofText "all\n"),
  (⟨"raw"⟩, ⟨#[0xff, 0x00]⟩)]

def sampleDerived : Tree := .ofList [
  (⟨"a"⟩, .ofText "one\n2"),
  (⟨"dir/b \"c\""⟩, .ofText ""),
  (⟨"new\tfile"⟩, .ofText "@@ \n"),
  (⟨"raw"⟩, ⟨#[0xff, 0x00]⟩)]

theorem replay_regenerate_sample :
    (∀ path ∈ sampleBase.keys, path.IsFilePath) ∧ (∀ path ∈ sampleDerived.keys, path.IsFilePath) ∧
      sampleBase.Fits ∧ sampleDerived.Fits ∧
      ∃ s, regenerate sampleBase sampleDerived ⟨1, [⟨"gone"⟩]⟩ = .ok s ∧
        s.replay sampleBase = .ok sampleDerived := by
  have hbasePaths : ∀ path ∈ sampleBase.keys, path.IsFilePath := by decide
  have hderivedPaths : ∀ path ∈ sampleDerived.keys, path.IsFilePath := by decide
  have hbase : sampleBase.Fits := by decide
  have hderived : sampleDerived.Fits := by decide
  have htext : ∀ path ∈ (sampleBase.union sampleDerived).keys,
      sampleBase.get? path ≠ sampleDerived.get? path → TextAt sampleBase sampleDerived path := by
    decide
  obtain ⟨hiff, hreplay⟩ :=
    replay_regenerate hbasePaths hderivedPaths hbase hderived ⟨1, [⟨"gone"⟩]⟩
  obtain ⟨s, hs⟩ := hiff.2 fun path hne => htext path (mem_keys_union_of_ne hne) hne
  exact ⟨hbasePaths, hderivedPaths, hbase, hderived, s, hs, hreplay s hs⟩

end Patchwork.Stack
