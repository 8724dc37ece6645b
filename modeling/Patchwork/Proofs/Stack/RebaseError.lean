import Patchwork.Proofs.Stack.FileByFile
import Patchwork.Proofs.Stack.Rebase

/-!
# Why a stack is not carried to another base

Whether a stored patch can be read does not depend on the tree. So a stack that applies to the old
base fails on the new one by a conflict, a missing file or a file that is not text, and there it can
only be a file of the new base itself (`not_textOrAbsent_of_replay`). This last failure has no
report of its own: it is reported like a failure on the old base. Where the new base holds text for
every target, that report tells the truth (`invalidBase_of_rebase_iff`).
-/
namespace Patchwork

open Content (TextOrAbsent)

namespace RebaseError

theorem ofApplyError_eq_invalidBase_iff {e e' : ApplyError} :
    ofApplyError e = .invalidBase e' ↔ e = e' ∧
      (e.failure = .notText ∨ ∃ p, e.failure = .malformed p) := by
  unfold ofApplyError
  cases e.failure <;> simp

end RebaseError

namespace Patch

variable {p : Patch} {current : Option Content} {failure : ApplyFailure}

theorem exists_conflict_of_onText {text : String} (h : p.onText text = .error failure) :
    ∃ hunk, failure = .conflict hunk := by
  obtain ⟨hunk, -, rfl⟩ := Except.mapError_eq_error_iff.1 h
  exact ⟨hunk, rfl⟩

theorem failure_of_onFile (h : p.onFile current = .error failure) :
    (∃ hunk, failure = .conflict hunk) ∨ (failure = .missingTarget ∧ current = none) ∨
      (failure = .notText ∧ ¬ TextOrAbsent current) := by
  unfold onFile at h
  split at h
  · split_ifs at h with hthere
    · exact .inl ⟨_, (Except.error.inj h).symm⟩
    · cases hresult : p.onText "" with
      | error f =>
        rw [hresult] at h
        obtain rfl := Except.error.inj h
        exact .inl (exists_conflict_of_onText hresult)
      | ok text =>
        rw [hresult] at h
        cases h
  · cases current with
    | none => exact .inr (.inl ⟨(Except.error.inj h).symm, rfl⟩)
    | some c =>
      cases hc : c.text? with
      | none =>
        simp only [hc] at h
        refine .inr (.inr ⟨(Except.error.inj h).symm, fun htext => ?_⟩)
        obtain ⟨text, htext⟩ := htext c rfl
        rw [hc] at htext
        cases htext
      | some text =>
        simp only [hc] at h
        cases hresult : p.onText text with
        | error f =>
          simp only [hresult] at h
          obtain rfl := Except.error.inj h
          exact .inl (exists_conflict_of_onText hresult)
        | ok result =>
          simp only [hresult] at h
          split_ifs at h
          exact .inl ⟨_, (Except.error.inj h).symm⟩

end Patch

namespace StoredPatch

variable {p : StoredPatch} {t : Tree} {e : ApplyError}

theorem apply_eq_error_iff :
    p.apply t = .error e ↔ e.path = p.target ∧ p.onFile (t.get? p.target) = .error e.failure := by
  unfold apply
  cases p.onFile (t.get? p.target) with
  | error failure =>
    rw [Except.error.injEq, Except.error.injEq]
    exact ⟨fun h => h ▸ ⟨rfl, rfl⟩, fun ⟨hpath, hfailure⟩ => by rw [← hpath, hfailure]⟩
  | ok content => simp

theorem onFile_eq_error_iff {current : Option Content} {failure : ApplyFailure} :
    p.onFile current = .error failure ↔
      (∃ error, p.parse = .error error ∧ failure = .malformed error) ∨
      ∃ patch, p.parse = .ok patch ∧ patch.onFile current = .error failure := by
  unfold onFile
  cases p.parse <;> simp [eq_comm]

end StoredPatch

namespace Stack

variable {s : Stack} {old new t u : Tree} {context : Nat} {e : ApplyError}

theorem exists_parse_of_replay (h : s.replay t = .ok u) :
    ∀ p ∈ s, ∃ patch, p.parse = .ok patch := by
  induction s generalizing t with
  | nil => simp
  | cons p s ih =>
    obtain ⟨c, hc, hrest⟩ := replay_cons_eq_ok_iff.1 h
    obtain ⟨patch, hpatch, -⟩ := StoredPatch.onFile_eq_ok_iff.1 hc
    exact List.forall_mem_cons.2 ⟨⟨patch, hpatch⟩, ih hrest⟩

theorem exists_parse_error_of_replay {error : Patch.ParseError} (h : s.replay t = .error e)
    (hfailure : e.failure = .malformed error) : ∃ p ∈ s, p.parse = .error error := by
  obtain ⟨front, p, back, u, rfl, -, hp⟩ := replay_eq_error_iff.1 h
  obtain ⟨-, hp⟩ := StoredPatch.apply_eq_error_iff.1 hp
  rw [hfailure] at hp
  obtain ⟨error', hparse, herror⟩ | ⟨patch, -, hp⟩ := StoredPatch.onFile_eq_error_iff.1 hp
  · obtain rfl := ApplyFailure.malformed.inj herror
    exact ⟨p, by simp, hparse⟩
  · obtain ⟨_, h⟩ | ⟨h, -⟩ | ⟨h, -⟩ := Patch.failure_of_onFile hp <;> cases h

/-- A replay meets a file that is not text only where the tree holds it itself: patches make
text. -/
theorem not_textOrAbsent_of_replay (h : s.replay t = .error e) (hfailure : e.failure = .notText) :
    e.path ∈ s.targets ∧ ¬ TextOrAbsent (t.get? e.path) := by
  obtain ⟨front, p, back, u, rfl, hfront, hp⟩ := replay_eq_error_iff.1 h
  obtain ⟨hpath, hp⟩ := StoredPatch.apply_eq_error_iff.1 hp
  have hnot : ¬ TextOrAbsent (u.get? p.target) := by
    rw [hfailure] at hp
    obtain ⟨error, -, herror⟩ | ⟨patch, -, hp⟩ := StoredPatch.onFile_eq_error_iff.1 hp
    · cases herror
    · obtain ⟨_, h⟩ | ⟨h, -⟩ | ⟨-, h⟩ := Patch.failure_of_onFile hp
      · cases h
      · cases h
      · exact h
  rw [hpath]
  refine ⟨by simp [targets], ?_⟩
  have hfirst : p.target ∉ front.targets := fun hmem => hnot (textOrAbsent_replay hfront hmem).2
  rwa [get?_replay hfront hfirst] at hnot

theorem rebase_eq_error_iff {r : RebaseError} :
    s.rebase old new context = .error r ↔ (∃ e, s.replay old = .error e ∧ .invalidBase e = r) ∨
      (∃ t, s.replay old = .ok t) ∧ ((∃ e, s.replay new = .error e ∧ .ofApplyError e = r) ∨
        ∃ u, s.replay new = .ok u ∧ ∃ e, regenerate new u ⟨context, s.targets⟩ = .error e ∧
          .regenerate e = r) := by
  unfold rebase
  cases s.replay old with
  | error e => simp
  | ok t =>
    cases s.replay new with
    | error e => simp
    | ok u => simp [Except.mapError_eq_error_iff]

/-- Where the old base is reported, a stack that applies to it was stopped by a file of the new
base. -/
theorem rebase_eq_error_invalidBase_iff_replay :
    s.rebase old new context = .error (.invalidBase e) ↔ s.replay old = .error e ∨
      (∃ t, s.replay old = .ok t) ∧ s.replay new = .error e ∧ e.failure = .notText := by
  rw [rebase_eq_error_iff]
  refine or_congr (by simp) (and_congr_right fun ⟨t, ht⟩ => ?_)
  constructor
  · rintro (⟨e', he', h⟩ | ⟨u, -, e', -, h⟩)
    · obtain ⟨rfl, hfailure | ⟨error, hfailure⟩⟩ := RebaseError.ofApplyError_eq_invalidBase_iff.1 h
      · exact ⟨he', hfailure⟩
      · obtain ⟨p, hp, herror⟩ := exists_parse_error_of_replay he' hfailure
        obtain ⟨patch, hpatch⟩ := exists_parse_of_replay ht p hp
        cases herror.symm.trans hpatch
    · cases h
  · rintro ⟨he, hfailure⟩
    exact .inl ⟨e, he, RebaseError.ofApplyError_eq_invalidBase_iff.2 ⟨rfl, .inl hfailure⟩⟩

/-- A failure on the old base is reported as one, with the error of the replay. The same report is
given of a stack that applies to the old base if its replay on the new one meets a target whose file
there is not text, and in no other case. So it tells the truth about the old base if the new one
holds text, or nothing, for every target. -/
theorem invalidBase_of_rebase_iff (s : Stack) (old new : Tree) (context : Nat) :
    (∀ e, s.rebase old new context = .error (.invalidBase e) ↔ s.replay old = .error e ∨
      (∃ t, s.replay old = .ok t) ∧ s.replay new = .error e ∧ e.failure = .notText) ∧
    (∀ e, s.replay new = .error e → e.failure = .notText →
      e.path ∈ s.targets ∧ ¬ TextOrAbsent (new.get? e.path)) ∧
    ((∀ target ∈ s.targets, TextOrAbsent (new.get? target)) → ∀ e,
      s.rebase old new context = .error (.invalidBase e) ↔ s.replay old = .error e) := by
  refine ⟨fun e => rebase_eq_error_invalidBase_iff_replay, fun e => not_textOrAbsent_of_replay,
    fun htext e => ?_⟩
  rw [rebase_eq_error_invalidBase_iff_replay]
  refine or_iff_left ?_
  rintro ⟨-, hnew, hfailure⟩
  obtain ⟨htarget, hnot⟩ := not_textOrAbsent_of_replay hnew hfailure
  exact hnot (htext _ htarget)

/-- The file to be changed is missing on the empty tree. Then it is there on the old base, but no
text on the new. -/
theorem invalidBase_of_rebase_iff_recreating :
    let s : Stack := recreating.map Patch.toStored
    let raw : Tree := .ofList [(⟨"a"⟩, ⟨#[0xff]⟩)]
    (∀ target ∈ s.targets, TextOrAbsent (recreatingNew.get? target)) ∧
      s.replay .empty = .error ⟨⟨"a"⟩, .missingTarget⟩ ∧
      s.rebase .empty recreatingNew 3 = .error (.invalidBase ⟨⟨"a"⟩, .missingTarget⟩) ∧
      (∃ t, s.replay recreatingOld = .ok t) ∧ s.replay raw = .error ⟨⟨"a"⟩, .notText⟩ ∧
      ⟨"a"⟩ ∈ s.targets ∧ ¬ TextOrAbsent (raw.get? ⟨"a"⟩) ∧
      s.rebase recreatingOld raw 3 = .error (.invalidBase ⟨⟨"a"⟩, .notText⟩) := by
  intro s raw
  have hvalid : ∀ p ∈ recreating, p.IsValid := by decide
  have hparse := fun p hp => (hvalid p hp).parse_toStored
  have htext : ∀ target ∈ s.targets, TextOrAbsent (recreatingNew.get? target) := by decide
  have hmissing : s.replay .empty = .error ⟨⟨"a"⟩, .missingTarget⟩ := by
    rw [replay_map_toStored hparse]
    rfl
  have hraw : s.replay raw = .error ⟨⟨"a"⟩, .notText⟩ := by
    rw [replay_map_toStored hparse]
    rfl
  have hold : ∃ t, s.replay recreatingOld = .ok t := ⟨_, replay_map_toStored hparse⟩
  obtain ⟨hreport, hnot, -⟩ := invalidBase_of_rebase_iff s recreatingOld raw 3
  obtain ⟨htarget, hraw'⟩ := hnot _ hraw rfl
  exact ⟨htext, hmissing,
    ((invalidBase_of_rebase_iff s .empty recreatingNew 3).2.2 htext _).2 hmissing, hold, hraw,
    htarget, hraw', (hreport _).2 (.inr ⟨hold, hraw, rfl⟩)⟩

def replacing : List Patch := [
  ⟨⟨"f"⟩, .modify, [⟨1, 1, 1, 1, none, [⟨.deletion, "a\n"⟩, ⟨.insertion, "b\n"⟩]⟩]⟩]

/-- The stack applies to the old base, but the new one holds octets that are no text. -/
theorem not_forall_invalidBase_of_rebase_iff :
    ¬ ∀ (s : Stack) (old new : Tree) (context : Nat) (e : ApplyError),
      s.rebase old new context = .error (.invalidBase e) ↔ s.replay old = .error e := by
  intro h
  let s : Stack := replacing.map Patch.toStored
  have hvalid : ∀ p ∈ replacing, p.IsValid := by decide
  have hparse := fun p hp => (hvalid p hp).parse_toStored
  have hold : s.replay (.ofList [(⟨"f"⟩, .ofText "a\n")]) = .ok
      (.ofList [(⟨"f"⟩, .ofText "b\n")]) := by
    rw [replay_map_toStored hparse]
    rfl
  have hnew : s.replay (.ofList [(⟨"f"⟩, ⟨#[0xff]⟩)]) = .error ⟨⟨"f"⟩, .notText⟩ := by
    rw [replay_map_toStored hparse]
    rfl
  have hreport :=
    (h s (.ofList [(⟨"f"⟩, .ofText "a\n")]) (.ofList [(⟨"f"⟩, ⟨#[0xff]⟩)]) 3 ⟨⟨"f"⟩, .notText⟩).1
      (rebase_eq_error_invalidBase_iff_replay.2 (.inr ⟨⟨_, hold⟩, hnew, rfl⟩))
  rw [hold] at hreport
  cases hreport

end Stack

end Patchwork
