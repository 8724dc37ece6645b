import Patchwork.Proofs.Stack.Regenerate
import Patchwork.Stack.Rebase

/-!
# What is carried to another base does the same there

A replay changes only files that its stack is meant for, and these are text before and after. So
what a stack makes of a new base can always be regenerated: a stack is carried to the new base
exactly if it applies to both bases, and the carried stack makes the same of the new base
(`replay_rebase`). Carried to the base that it was regenerated from, a stack stays as it is
(`rebase_regenerate`).
-/
namespace Patchwork.Stack

variable {s : Stack} {old new : Tree} {context : Nat}

theorem rebase_eq_ok_iff {q : Stack} :
    s.rebase old new context = .ok q ↔ (∃ t, s.replay old = .ok t) ∧
      ∃ u, s.replay new = .ok u ∧ regenerate new u ⟨context, s.targets⟩ = .ok q := by
  unfold rebase
  cases s.replay old with
  | error e => simp
  | ok t =>
    cases s.replay new with
    | error e => simp
    | ok u => simp

theorem mem_targets_of_ne {t u : Tree} (h : s.replay t = .ok u) {path : TreePath}
    (hne : t.get? path ≠ u.get? path) : path ∈ s.targets := by
  by_contra hpath
  exact hne (get?_replay h hpath).symm

theorem mem_targets_of_rebase {q : Stack} (h : s.rebase old new context = .ok q) :
    ∀ target ∈ q.targets, target ∈ s.targets := by
  obtain ⟨-, u, hu, hregenerate⟩ := rebase_eq_ok_iff.1 h
  intro target htarget
  exact mem_targets_of_ne hu (((targets_of_regenerate hregenerate).2 target).1 htarget)

theorem exists_rebase_iff (hnew : new.Fits) :
    (∃ q, s.rebase old new context = .ok q) ↔
      (∃ t, s.replay old = .ok t) ∧ ∃ u, s.replay new = .ok u := by
  constructor
  · rintro ⟨q, hq⟩
    obtain ⟨hold, u, hu, -⟩ := rebase_eq_ok_iff.1 hq
    exact ⟨hold, u, hu⟩
  · rintro ⟨hold, u, hu⟩
    have htext : ∀ path, new.get? path ≠ u.get? path → TextAt new u path := fun path hne =>
      textOrAbsent_replay hu (mem_targets_of_ne hu hne)
    obtain ⟨q, hq⟩ : ∃ q, regenerate new u ⟨context, s.targets⟩ = .ok q :=
      (exists_regenerate_iff hnew).2 htext
    exact ⟨q, rebase_eq_ok_iff.2 ⟨hold, u, hu, hq⟩⟩

/-- The carried stack makes of the new base what the stack itself makes of it, with one patch a
file. -/
theorem replay_of_rebase (htargets : ∀ target ∈ s.targets, target.IsFilePath) (hnew : new.Fits)
    (hderived : ∀ u, s.replay new = .ok u → u.Fits) {q : Stack}
    (hq : s.rebase old new context = .ok q) :
    q.replay new = s.replay new ∧ q.targets.Nodup ∧ q.targets.Sublist s.targets.eraseDups := by
  obtain ⟨-, u, hu, hregenerate⟩ := rebase_eq_ok_iff.1 hq
  have hpaths : ∀ path, new.get? path ≠ u.get? path → path.IsFilePath := fun path hne =>
    htargets path (mem_targets_of_ne hu hne)
  obtain ⟨hreplay, hnodup⟩ := replay_of_regenerate hnew (hderived u hu) hpaths hregenerate
  refine ⟨hreplay.trans hu.symm, hnodup, ?_⟩
  exact targets_sublist_of_regenerate (fun _ hne => mem_targets_of_ne hu hne) hregenerate

/-- A stack is carried to another base exactly if it applies to both bases, whatever becomes of a
file on the way. Then the carried stack makes of the new base what the stack itself makes of it, and
it has one patch for each file, in the order in which the stack first names them. Files have
well-formed paths, and the new base and what the stack makes of it are held in memory. -/
theorem replay_rebase (s : Stack) (old new : Tree) (context : Nat)
    (htargets : ∀ target ∈ s.targets, target.IsFilePath) (hnew : new.Fits)
    (hderived : ∀ u, s.replay new = .ok u → u.Fits) :
    ((∃ q, s.rebase old new context = .ok q) ↔
      (∃ t, s.replay old = .ok t) ∧ ∃ u, s.replay new = .ok u) ∧
    ∀ q, s.rebase old new context = .ok q →
      q.replay new = s.replay new ∧ q.targets.Nodup ∧ q.targets.Sublist s.targets.eraseDups :=
  ⟨exists_rebase_iff hnew, fun _ hq => replay_of_rebase htargets hnew hderived hq⟩

def recreating : List Patch := [
  ⟨⟨"b"⟩, .create, [⟨0, 0, 1, 1, none, [⟨.insertion, "x\n"⟩]⟩]⟩,
  ⟨⟨"a"⟩, .modify, [⟨1, 2, 1, 2, none,
    [⟨.context, "one\n"⟩, ⟨.deletion, "two\n"⟩, ⟨.insertion, "2"⟩]⟩]⟩,
  ⟨⟨"b"⟩, .delete, [⟨1, 1, 0, 0, none, [⟨.deletion, "x\n"⟩]⟩]⟩,
  ⟨⟨"b"⟩, .create, [⟨0, 0, 1, 1, none, [⟨.insertion, "y"⟩]⟩]⟩]

def recreatingOld : Tree := .ofList [(⟨"a"⟩, .ofText "one\ntwo\n"), (⟨"raw"⟩, ⟨#[0xff]⟩)]

def recreatingNew : Tree := .ofList [(⟨"a"⟩, .ofText "zero\none\ntwo\n"), (⟨"raw"⟩, ⟨#[0xff]⟩)]

def recreatingCarried : Tree := .ofList [
  (⟨"a"⟩, .ofText "zero\none\n2"), (⟨"b"⟩, .ofText "y"), (⟨"raw"⟩, ⟨#[0xff]⟩)]

theorem replay_rebase_recreating :
    (∀ target ∈ targets (recreating.map Patch.toStored), target.IsFilePath) ∧ recreatingNew.Fits ∧
      replay (recreating.map Patch.toStored) recreatingNew = .ok recreatingCarried ∧
      recreatingCarried.Fits ∧
      ∃ q, rebase (recreating.map Patch.toStored) recreatingOld recreatingNew 3 = .ok q ∧
        q.replay recreatingNew = .ok recreatingCarried ∧ q.targets.Nodup ∧
        q.targets.Sublist [⟨"b"⟩, ⟨"a"⟩] := by
  have htargets : ∀ target ∈ targets (recreating.map Patch.toStored), target.IsFilePath := by decide
  have hnew : recreatingNew.Fits := by decide
  have hcarried : recreatingCarried.Fits := by decide
  have hvalid : ∀ p ∈ recreating, p.IsValid := by decide
  have hparse := fun p hp => (hvalid p hp).parse_toStored
  have hreplayOld : ∃ t, replay (recreating.map Patch.toStored) recreatingOld = .ok t :=
    ⟨_, replay_map_toStored hparse⟩
  have hreplayNew : replay (recreating.map Patch.toStored) recreatingNew =
      .ok recreatingCarried := by
    rw [replay_map_toStored hparse]
    rfl
  obtain ⟨hiff, hspec⟩ :=
    replay_rebase (recreating.map Patch.toStored) recreatingOld recreatingNew 3 htargets hnew
      fun u hu => Except.ok.inj (hreplayNew.symm.trans hu) ▸ hcarried
  obtain ⟨q, hq⟩ := hiff.2 ⟨hreplayOld, recreatingCarried, hreplayNew⟩
  obtain ⟨hreplay, hnodup, hsublist⟩ := hspec q hq
  exact ⟨htargets, hnew, hreplayNew, hcarried, q, hq, hreplay.trans hreplayNew, hnodup, hsublist⟩

/-- A stack that was regenerated between trees of well-formed paths is carried to the base that it
was made for as it is: the same texts stand in the same order, whatever order was asked for. -/
theorem rebase_regenerate {base derived : Tree} (hbasePaths : ∀ path ∈ base.keys, path.IsFilePath)
    (hderivedPaths : ∀ path ∈ derived.keys, path.IsFilePath) (hbase : base.Fits)
    (hderived : derived.Fits) (options : Options) (h : regenerate base derived options = .ok s) :
    s.rebase base base options.context = .ok s := by
  have hpaths : ∀ path, base.get? path ≠ derived.get? path → path.IsFilePath := fun path hne =>
    isFilePath_of_ne hbasePaths hderivedPaths hne
  obtain ⟨hreplay, hnodup⟩ := replay_of_regenerate hbase hderived hpaths h
  obtain ⟨r, hr, rfl⟩ := regenerate_eq_ok_iff.1 h
  have hagain : regenerate base derived ⟨options.context, (r.arrange options.order).targets⟩ =
      .ok (r.arrange options.order) :=
    regenerate_eq_ok_iff.2 ⟨r, hr, arrange_targets_eq (r.arrange_perm options.order) hnodup⟩
  exact rebase_eq_ok_iff.2 ⟨⟨derived, hreplay⟩, derived, hreplay, hagain⟩

/-- The order that is asked for names a file twice, and one that is not there. -/
theorem rebase_regenerate_repeatedOrder :
    let options : Options := ⟨1, [⟨"new\tfile"⟩, ⟨"absent"⟩, ⟨"gone"⟩, ⟨"new\tfile"⟩]⟩
    ∃ s, regenerate sampleBase sampleDerived options = .ok s ∧
      s.rebase sampleBase sampleBase 1 = .ok s := by
  intro options
  have htext : ∀ path ∈ (sampleBase.union sampleDerived).keys,
      sampleBase.get? path ≠ sampleDerived.get? path → TextAt sampleBase sampleDerived path := by
    decide
  obtain ⟨s, hs⟩ : ∃ s, regenerate sampleBase sampleDerived options = .ok s :=
    (exists_regenerate_iff (by decide)).2 fun path hne => htext path (mem_keys_union_of_ne hne) hne
  exact ⟨s, hs, rebase_regenerate (by decide) (by decide) (by decide) (by decide) options hs⟩

end Patchwork.Stack
