import Mathlib.Data.List.Nodup
import Patchwork.Patch.Printer
import Patchwork.Proofs.Outcome
import Patchwork.Proofs.Tree.Text
import Patchwork.Stack.Replay

/-!
# What a replay can change

A stored patch reads and changes its own file only, which is text before and after. So a replay
leaves every other path alone (`get?_replay`), and the files that it is meant for are text on both
sides (`textOrAbsent_replay`). A stack with one patch a file is replayed file by file
(`replay_eq_ok_of_onFile`).
-/
namespace Patchwork

open Content (TextOrAbsent textOrAbsent_iff)

/-- Which versions of a file a patch of a kind leads from and to, where `none` is its absence. -/
def PatchKind.Turns (kind : PatchKind) (old new : Option String) : Prop :=
  match kind with
  | .modify => old.isSome ∧ new.isSome
  | .create => old = none ∧ new.isSome
  | .delete => old.isSome ∧ new = none

namespace Patch

theorem onFile_ofText_eq_ok_iff {p : Patch} {text : String} {new : Option Content} :
    p.onFile (some (.ofText text)) = .ok new ↔ ∃ result : Option String,
      result.map Content.ofText = new ∧ p.kind.Turns (some text) result ∧
        p.onText text = .ok (result.getD "") := by
  cases hresult : p.onText text with
  | error failure => cases hk : p.kind <;> simp [onFile, hk, hresult]
  | ok result =>
    cases hk : p.kind with
    | create => simp [onFile, hk, PatchKind.Turns]
    | modify =>
      simp only [onFile, hk, Content.text?_ofText, hresult, if_true, Except.ok.injEq,
        PatchKind.Turns]
      constructor
      · rintro rfl
        exact ⟨some result, rfl, ⟨rfl, rfl⟩, rfl⟩
      · rintro ⟨r, rfl, ⟨-, hr⟩, rfl⟩
        obtain ⟨text', rfl⟩ := Option.isSome_iff_exists.1 hr
        rfl
    | delete =>
      simp only [onFile, hk, Content.text?_ofText, hresult, reduceCtorEq, if_false, Except.ok.injEq,
        PatchKind.Turns]
      by_cases hempty : result.isEmpty = true
      · rw [if_pos hempty, Except.ok.injEq]
        rw [String.isEmpty_iff] at hempty
        constructor
        · rintro rfl
          exact ⟨none, rfl, ⟨rfl, rfl⟩, hempty⟩
        · rintro ⟨r, rfl, ⟨-, rfl⟩, -⟩
          rfl
      · rw [if_neg hempty]
        rw [String.isEmpty_iff] at hempty
        constructor
        · intro h
          cases h
        · rintro ⟨r, rfl, ⟨-, rfl⟩, h⟩
          exact absurd h hempty

/-- A patch applies exactly to versions of its kind whose text its hunks turn into the new one. -/
theorem onFile_eq_ok_iff {p : Patch} {old new : Option Content} :
    p.onFile old = .ok new ↔ ∃ a b : Option String, a.map Content.ofText = old ∧
      b.map Content.ofText = new ∧ p.kind.Turns a b ∧ p.onText (a.getD "") = .ok (b.getD "") := by
  constructor
  · intro h
    cases old with
    | none =>
      cases hk : p.kind with
      | create =>
        rw [onFile, hk] at h
        obtain ⟨text, htext, rfl⟩ := Except.map_eq_ok_iff.1 h
        exact ⟨none, some text, rfl, rfl, ⟨rfl, rfl⟩, htext⟩
      | modify => simp [onFile, hk] at h
      | delete => simp [onFile, hk] at h
    | some c =>
      cases htext : c.text? with
      | none => cases hk : p.kind <;> simp [onFile, hk, htext] at h
      | some text =>
        rw [← Content.ofText_of_text? htext] at h
        obtain ⟨result, hnew, hturns, hresult⟩ := onFile_ofText_eq_ok_iff.1 h
        exact ⟨some text, result, by rw [Option.map_some, Content.ofText_of_text? htext], hnew,
          hturns, hresult⟩
  · rintro ⟨a, b, rfl, rfl, hturns, hresult⟩
    cases a with
    | some text => exact onFile_ofText_eq_ok_iff.2 ⟨b, rfl, hturns, hresult⟩
    | none =>
      cases hk : p.kind with
      | create =>
        rw [hk] at hturns
        obtain ⟨text, rfl⟩ := Option.isSome_iff_exists.1 hturns.2
        rw [onFile, hk]
        exact Except.map_eq_ok_iff.2 ⟨text, hresult, rfl⟩
      | modify => simp [hk, PatchKind.Turns] at hturns
      | delete => simp [hk, PatchKind.Turns] at hturns

/-- A patch applies to a file only if that is text, and makes text of it. -/
theorem textOrAbsent_of_onFile {p : Patch} {old new : Option Content} (h : p.onFile old = .ok new) :
    TextOrAbsent old ∧ TextOrAbsent new := by
  obtain ⟨a, b, rfl, rfl, -, -⟩ := onFile_eq_ok_iff.1 h
  exact ⟨textOrAbsent_iff.2 ⟨a, rfl⟩, textOrAbsent_iff.2 ⟨b, rfl⟩⟩

end Patch

namespace StoredPatch

theorem onFile_eq_ok_iff {p : StoredPatch} {old new : Option Content} :
    p.onFile old = .ok new ↔ ∃ patch, p.parse = .ok patch ∧ patch.onFile old = .ok new := by
  unfold onFile
  cases p.parse <;> simp

end StoredPatch

namespace Stack

variable {s : Stack} {t u : Tree}

theorem replay_cons_eq_ok_iff {p : StoredPatch} :
    replay (p :: s) t = .ok u ↔
      ∃ c, p.onFile (t.get? p.target) = .ok c ∧ s.replay (t.put p.target c) = .ok u := by
  rw [replay]
  unfold StoredPatch.apply
  cases p.onFile (t.get? p.target) <;> simp

theorem replay_map_toStored {ps : List Patch} (h : ∀ p ∈ ps, p.toStored.parse = .ok p) :
    replay (ps.map Patch.toStored) t = ps.foldlM (fun t p =>
      match p.onFile (t.get? p.path) with
      | .error failure => .error ⟨p.path, failure⟩
      | .ok c => .ok (t.put p.path c)) t := by
  induction ps generalizing t with
  | nil => rfl
  | cons p ps ih =>
    have hon : p.toStored.onFile = p.onFile := by
      funext c
      rw [StoredPatch.onFile, h p (by simp)]
    have htarget : p.toStored.target = p.path := rfl
    rw [List.map_cons, replay, List.foldlM_cons, StoredPatch.apply, hon, htarget]
    cases p.onFile (t.get? p.path) with
    | error failure => rfl
    | ok c => exact ih fun q hq => h q (by simp [hq])

theorem get?_replay (h : s.replay t = .ok u) {path : TreePath} (hpath : path ∉ s.targets) :
    u.get? path = t.get? path := by
  induction s generalizing t with
  | nil => rw [Except.ok.inj h]
  | cons p s ih =>
    obtain ⟨c, -, hrest⟩ := replay_cons_eq_ok_iff.1 h
    simp only [targets, List.map_cons, List.mem_cons, not_or] at hpath
    rw [ih hrest hpath.2, Tree.get?_put, if_neg hpath.1]

theorem textOrAbsent_replay (h : s.replay t = .ok u) {path : TreePath} (hpath : path ∈ s.targets) :
    TextOrAbsent (t.get? path) ∧ TextOrAbsent (u.get? path) := by
  induction s generalizing t with
  | nil => contradiction
  | cons p s ih =>
    obtain ⟨c, hc, hrest⟩ := replay_cons_eq_ok_iff.1 h
    obtain ⟨patch, -, hpatch⟩ := StoredPatch.onFile_eq_ok_iff.1 hc
    obtain ⟨hbefore, hafter⟩ := Patch.textOrAbsent_of_onFile hpatch
    have hput := Tree.get?_put t p.target c path
    by_cases heq : path = p.target
    · subst path
      rw [if_pos rfl] at hput
      refine ⟨hbefore, ?_⟩
      -- A later patch of the file has the last word on what it holds.
      by_cases hmem : p.target ∈ targets s
      · exact (ih hrest hmem).2
      · rw [get?_replay hrest hmem, hput]
        exact hafter
    · have hmem : path ∈ targets s := by
        simpa [targets, heq] using hpath
      rw [if_neg heq] at hput
      rw [← hput]
      exact ih hrest hmem

/-- With one patch for each file that differs, a replay leads from one tree to the other. -/
theorem replay_eq_ok_of_onFile (hnodup : s.targets.Nodup)
    (hon : ∀ p ∈ s, p.onFile (t.get? p.target) = .ok (u.get? p.target))
    (hrest : ∀ path ∉ s.targets, t.get? path = u.get? path) : s.replay t = .ok u := by
  induction s generalizing t with
  | nil => exact congrArg _ (SortedMap.ext_get? fun path => hrest path (by simp [targets]))
  | cons p s ih =>
    obtain ⟨hp, hnodup⟩ := List.nodup_cons.1 hnodup
    refine replay_cons_eq_ok_iff.2 ⟨u.get? p.target, hon p (by simp), ih hnodup ?_ ?_⟩
    · intro q hq
      -- No other patch is meant for the file of this one, so it still finds its old version.
      have hne : q.target ≠ p.target := fun he => hp (List.mem_map.2 ⟨q, hq, he⟩)
      rw [Tree.get?_put, if_neg hne]
      exact hon q (by simp [hq])
    · intro path hpath
      rw [Tree.get?_put]
      by_cases heq : path = p.target
      · rw [if_pos heq, heq]
      · rw [if_neg heq]
        exact hrest path (by simpa [targets, heq] using hpath)

end Stack

end Patchwork
