import Patchwork.Proofs.Patch.RoundTrip
import Patchwork.Proofs.Stack.Arrange
import Patchwork.Proofs.Stack.Replay
import Patchwork.Tree.Region

/-!
# A replay goes file by file

A patch applies to a tree exactly as it applies to its own file alone (`apply_only`). So a replay
comes apart into one run for each file, on the tree that holds nothing else: it succeeds exactly if
all of these do, every file becomes what its own run makes of it, and the first patch at which the
run of its own file fails is the one that the replay reports (`replay_fileByFile`). How the patches
of different files follow each other does not matter.
-/
namespace Patchwork

namespace Tree

@[simp] theorem get?_single (path : TreePath) (content : Option Content) (p : TreePath) :
    (single path content).get? p = if p = path then content else none := by
  cases content with
  | none => simp [single]
  | some content => simp [single, SortedMap.ofList]

/-- The tree that holds at most one file of another, and nothing else. -/
def only (t : Tree) (path : TreePath) : Tree := single path (t.get? path)

@[simp] theorem get?_only (t : Tree) (path p : TreePath) :
    (t.only path).get? p = if p = path then t.get? path else none := get?_single _ _ _

theorem ext_only {t u : Tree} (h : ∀ path, t.only path = u.only path) : t = u := by
  apply SortedMap.ext_get?
  intro path
  simpa using congrArg (·.get? path) (h path)

theorem only_put_self (t : Tree) (path : TreePath) (content : Option Content) :
    (t.put path content).only path = (t.only path).put path content := by
  apply SortedMap.ext_get?
  intro p
  by_cases hp : p = path <;> simp [hp]

theorem only_put_of_ne (t : Tree) {path p : TreePath} (hne : p ≠ path) (content : Option Content) :
    (t.put path content).only p = t.only p := by
  apply SortedMap.ext_get?
  intro q
  simp [hne]

end Tree

namespace StoredPatch

/-- A patch makes of its own file alone what it makes of it in the tree. -/
theorem apply_only (p : StoredPatch) (t : Tree) :
    p.apply (t.only p.target) = (p.apply t).map (·.only p.target) := by
  unfold apply
  rw [Tree.get?_only, if_pos rfl]
  cases p.onFile (t.get? p.target) with
  | error failure => rfl
  | ok content => simp [Except.map, Tree.only_put_self]

theorem only_of_apply {p : StoredPatch} {t u : Tree} (h : p.apply t = .ok u) {path : TreePath}
    (hne : path ≠ p.target) : u.only path = t.only path := by
  unfold apply at h
  cases hon : p.onFile (t.get? p.target) with
  | error failure => simp [hon] at h
  | ok content =>
    simp only [hon, Except.ok.injEq] at h
    rw [← h, Tree.only_put_of_ne t hne]

end StoredPatch

namespace Stack

def ofFile (s : Stack) (path : TreePath) : Stack := s.filter (·.target = path)

variable {s : Stack} {t u : Tree} {p : StoredPatch} {e : ApplyError} {path : TreePath}

theorem ofFile_append (s s' : Stack) (path : TreePath) :
    ofFile (s ++ s') path = s.ofFile path ++ s'.ofFile path :=
  List.filter_append ..

theorem ofFile_cons_self (p : StoredPatch) (s : Stack) :
    ofFile (p :: s) p.target = p :: s.ofFile p.target := by
  simp [ofFile]

theorem ofFile_cons_of_ne (s : Stack) (h : path ≠ p.target) :
    ofFile (p :: s) path = s.ofFile path := by
  simp [ofFile, h.symm]

theorem replay_append (s s' : Stack) (t : Tree) :
    (s ++ s').replay t = s.replay t >>= s'.replay := by
  induction s generalizing t with
  | nil => rfl
  | cons p s ih =>
    rw [List.cons_append, replay, replay]
    cases p.apply t with
    | error e => rfl
    | ok t' => exact ih t'

/-! ## Success -/

/-- Every file becomes what the run of its own patches makes of it alone. -/
theorem replay_ofFile (h : s.replay t = .ok u) (path : TreePath) :
    (s.ofFile path).replay (t.only path) = .ok (u.only path) := by
  induction s generalizing t with
  | nil => rw [Except.ok.inj h]; rfl
  | cons p s ih =>
    rw [replay] at h
    cases hp : p.apply t with
    | error e => simp [hp] at h
    | ok t' =>
      simp only [hp] at h
      by_cases hpath : path = p.target
      · rw [hpath, ofFile_cons_self, replay, StoredPatch.apply_only, hp]
        rw [← hpath]
        exact ih h
      · rw [ofFile_cons_of_ne s hpath, ← StoredPatch.only_of_apply hp hpath]
        exact ih h

theorem exists_replay_of_ofFile
    (h : ∀ target ∈ s.targets, ∃ v, (s.ofFile target).replay (t.only target) = .ok v) :
    ∃ u, s.replay t = .ok u := by
  induction s generalizing t with
  | nil => exact ⟨t, rfl⟩
  | cons p s ih =>
    obtain ⟨v, hv⟩ := h p.target (by simp [targets])
    rw [ofFile_cons_self, replay, StoredPatch.apply_only] at hv
    rw [replay]
    cases hp : p.apply t with
    | error e => simp [hp, Except.map] at hv
    | ok t' =>
      simp only [hp, Except.map] at hv
      refine ih fun target htarget => ?_
      by_cases heq : target = p.target
      · exact ⟨v, heq ▸ hv⟩
      · obtain ⟨v', hv'⟩ := h target (by simpa [targets] using .inr (List.mem_map.1 htarget))
        rw [ofFile_cons_of_ne s heq] at hv'
        exact ⟨v', StoredPatch.only_of_apply hp heq ▸ hv'⟩

/-- A replay leads to the tree whose files are those that the runs of the single files lead to. -/
theorem replay_eq_ok_iff :
    s.replay t = .ok u ↔ ∀ path, (s.ofFile path).replay (t.only path) = .ok (u.only path) := by
  refine ⟨replay_ofFile, fun h => ?_⟩
  obtain ⟨u', hu'⟩ := exists_replay_of_ofFile fun target _ => ⟨_, h target⟩
  have heq : u' = u := Tree.ext_only fun path =>
    Except.ok.inj ((replay_ofFile hu' path).symm.trans (h path))
  rw [hu', heq]

/-! ## Order -/

/-- A stack that holds the patches of another, those of one file in the same order. -/
structure Rearranges (s' s : Stack) : Prop where
  perm : s'.Perm s
  ofFile : ∀ path, s'.ofFile path = s.ofFile path

theorem Rearranges.replay_eq_ok_iff {s' : Stack} (h : s'.Rearranges s) :
    s'.replay t = .ok u ↔ s.replay t = .ok u := by
  rw [Stack.replay_eq_ok_iff, Stack.replay_eq_ok_iff]
  exact forall_congr' fun path => by rw [h.ofFile path]

theorem ofFile_ofFile (s : Stack) (target path : TreePath) :
    (s.ofFile target).ofFile path = if path = target then s.ofFile path else [] := by
  unfold ofFile
  rw [List.filter_filter]
  by_cases h : path = target
  · simp [h]
  · rw [if_neg h, List.filter_eq_nil_iff]
    intro q _ hq
    simp only [Bool.and_eq_true, decide_eq_true_eq] at hq
    exact h (hq.1.symm.trans hq.2)

theorem ofFile_filter_notMem (s : Stack) (order : List TreePath) (path : TreePath) :
    ofFile (s.filter (·.target ∉ order)) path = if path ∈ order then [] else s.ofFile path := by
  unfold ofFile
  rw [List.filter_filter]
  by_cases h : path ∈ order
  · rw [if_pos h, List.filter_eq_nil_iff]
    intro q _ hq
    simp only [Bool.and_eq_true, decide_eq_true_eq] at hq
    exact hq.2 (hq.1 ▸ h)
  · rw [if_neg h]
    refine List.filter_congr fun q _ => ?_
    by_cases hq : q.target = path <;> simp [hq, h]

theorem ofFile_flatMap_ofFile (s : Stack) (path : TreePath) {targets : List TreePath}
    (hnodup : targets.Nodup) :
    ofFile (targets.flatMap s.ofFile) path = if path ∈ targets then s.ofFile path else [] := by
  induction targets with
  | nil => rfl
  | cons target targets ih =>
    obtain ⟨htarget, hnodup⟩ := List.nodup_cons.1 hnodup
    rw [List.flatMap_cons, ofFile_append, ofFile_ofFile, ih hnodup]
    by_cases h : path = target
    · simp [h, htarget]
    · simp [h]

theorem arrange_rearranges (s : Stack) (order : List TreePath) :
    (s.arrange order).Rearranges s where
  perm := s.arrange_perm order
  ofFile path := by
    have hlisted : ofFile (order.eraseDups.flatMap s.ofFile) path =
        if path ∈ order.eraseDups then s.ofFile path else [] :=
      s.ofFile_flatMap_ofFile path (nodup_eraseDups order)
    have harrange : s.arrange order =
        order.eraseDups.flatMap s.ofFile ++ s.filter (·.target ∉ order) := rfl
    rw [harrange, ofFile_append, hlisted, ofFile_filter_notMem]
    by_cases h : path ∈ order <;> simp [h]

/-! ## Failure -/

/-- The run of a patch's own file, through the patches in front of it, comes to the patch and fails
there. -/
def FailsBehind (t : Tree) (front : Stack) (p : StoredPatch) (e : ApplyError) : Prop :=
  ∃ v, (front.ofFile p.target).replay (t.only p.target) = .ok v ∧ p.apply v = .error e

/-- Where a run of a file fails, so does the run of that file through the whole stack. -/
theorem FailsBehind.replay_ofFile {front back : Stack} (h : FailsBehind t front p e) :
    (ofFile (front ++ p :: back) p.target).replay (t.only p.target) = .error e := by
  obtain ⟨v, hv, hp⟩ := h
  rw [ofFile_append, ofFile_cons_self, replay_append, hv]
  change replay (p :: back.ofFile p.target) v = .error e
  rw [replay, hp]

/-- A replay fails at the first patch that does not apply to what those in front of it make. -/
theorem replay_eq_error_iff :
    s.replay t = .error e ↔ ∃ (front : Stack) (p : StoredPatch) (back : Stack) (u : Tree),
      s = front ++ p :: back ∧ front.replay t = .ok u ∧ p.apply u = .error e := by
  induction s generalizing t with
  | nil => simp [replay]
  | cons q s ih =>
    rw [replay]
    constructor
    · intro h
      cases hq : q.apply t with
      | error e' => exact ⟨[], q, s, t, rfl, rfl, by simpa [hq] using h⟩
      | ok t' =>
        simp only [hq] at h
        obtain ⟨front, p, back, u, rfl, hfront, hp⟩ := ih.1 h
        exact ⟨q :: front, p, back, u, rfl, by rw [replay, hq]; exact hfront, hp⟩
    · rintro ⟨front, p, back, u, hs, hfront, hp⟩
      cases front with
      | nil =>
        obtain ⟨rfl, rfl⟩ := List.cons.inj hs
        rw [Except.ok.inj hfront, hp]
      | cons r front =>
        obtain ⟨rfl, rfl⟩ := List.cons.inj hs
        rw [replay] at hfront
        cases hq : q.apply t with
        | error e' => simp [hq] at hfront
        | ok t' =>
          simp only [hq] at hfront
          exact ih.2 ⟨front, p, back, u, rfl, hfront, hp⟩

theorem failsBehind_iff {front : Stack} (h : front.replay t = .ok u) :
    FailsBehind t front p e ↔ p.apply u = .error e := by
  have hrun := replay_ofFile h p.target
  constructor
  · rintro ⟨v, hv, hp⟩
    obtain rfl : v = u.only p.target := Except.ok.inj (hv.symm.trans hrun)
    rw [StoredPatch.apply_only] at hp
    cases ha : p.apply u with
    | error e' => simpa [ha, Except.map] using hp
    | ok u' => simp [ha, Except.map] at hp
  · intro hp
    exact ⟨_, hrun, by rw [StoredPatch.apply_only, hp]; rfl⟩

theorem replay_eq_error_iff_failsBehind :
    s.replay t = .error e ↔ ∃ front p back, s = front ++ p :: back ∧ FailsBehind t front p e ∧
      ∀ front' q back' e', front = front' ++ q :: back' → ¬FailsBehind t front' q e' := by
  rw [replay_eq_error_iff]
  constructor
  · rintro ⟨front, p, back, u, rfl, hfront, hp⟩
    refine ⟨front, p, back, rfl, (failsBehind_iff hfront).2 hp, ?_⟩
    rintro front' q back' e' rfl hq
    -- The run of that file comes through the patches in front, as the replay does.
    have hrun := replay_ofFile hfront q.target
    rw [hq.replay_ofFile] at hrun
    cases hrun
  · rintro ⟨front, p, back, rfl, hp, hfirst⟩
    cases hfront : front.replay t with
    | ok u => exact ⟨front, p, back, u, rfl, hfront, (failsBehind_iff hfront).1 hp⟩
    | error e' =>
      obtain ⟨front', q, back', u, rfl, hfront', hq⟩ := replay_eq_error_iff.1 hfront
      exact absurd ((failsBehind_iff hfront').2 hq) (hfirst front' q back' e' rfl)

/-! ## The whole -/

/-- A replay goes file by file. It succeeds exactly if the run of each target's patches on that file
alone does; then every file becomes what its run leaves, and a file without patches stays as it is.
A stack that holds the same patches, those of one file in the same order, makes the same of the same
trees, as an arranged one does. A replay that fails does so with the error of the first patch at
which the run of its own file fails, and that run ends with the error too. -/
theorem replay_fileByFile (s : Stack) (t : Tree) :
    ((∃ u, s.replay t = .ok u) ↔
      ∀ target ∈ s.targets, ∃ v, (s.ofFile target).replay (t.only target) = .ok v) ∧
    (∀ u, s.replay t = .ok u →
      (∀ target ∈ s.targets, (s.ofFile target).replay (t.only target) = .ok (u.only target)) ∧
      ∀ path ∉ s.targets, u.get? path = t.get? path) ∧
    (∀ s' : Stack, s'.Rearranges s → ∀ u, s'.replay t = .ok u ↔ s.replay t = .ok u) ∧
    (∀ order u, (s.arrange order).replay t = .ok u ↔ s.replay t = .ok u) ∧
    ∀ e, s.replay t = .error e ↔ ∃ front p back, s = front ++ p :: back ∧
      FailsBehind t front p e ∧ (s.ofFile p.target).replay (t.only p.target) = .error e ∧
      ∀ front' q back' e', front = front' ++ q :: back' → ¬FailsBehind t front' q e' := by
  refine ⟨⟨?_, exists_replay_of_ofFile⟩, ?_, ?_, ?_, ?_⟩
  · rintro ⟨u, hu⟩ target -
    exact ⟨_, replay_ofFile hu target⟩
  · intro u hu
    exact ⟨fun target _ => replay_ofFile hu target, fun path hpath => get?_replay hu hpath⟩
  · intro s' hs' u
    exact hs'.replay_eq_ok_iff
  · intro order u
    exact (s.arrange_rearranges order).replay_eq_ok_iff
  · intro e
    rw [replay_eq_error_iff_failsBehind]
    constructor
    · rintro ⟨front, p, back, rfl, hp, hfirst⟩
      exact ⟨front, p, back, rfl, hp, hp.replay_ofFile, hfirst⟩
    · rintro ⟨front, p, back, hs, hp, -, hfirst⟩
      exact ⟨front, p, back, hs, hp, hfirst⟩

/-- Two patches of a file, and between them and behind them those of a file that comes and goes. -/
def interleaved : List Patch := [
  ⟨⟨"a"⟩, .modify, [⟨1, 1, 1, 1, none, [⟨.deletion, "one\n"⟩, ⟨.insertion, "two\n"⟩]⟩]⟩,
  ⟨⟨"b"⟩, .create, [⟨0, 0, 1, 1, none, [⟨.insertion, "x\n"⟩]⟩]⟩,
  ⟨⟨"a"⟩, .modify, [⟨1, 1, 1, 1, none, [⟨.deletion, "two\n"⟩, ⟨.insertion, "three"⟩]⟩]⟩,
  ⟨⟨"b"⟩, .delete, [⟨1, 1, 0, 0, none, [⟨.deletion, "x\n"⟩]⟩]⟩]

def interleavedBase : Tree := .ofList [(⟨"a"⟩, .ofText "one\n"), (⟨"raw"⟩, ⟨#[0xff]⟩)]

def interleavedDerived : Tree := .ofList [(⟨"a"⟩, .ofText "three"), (⟨"raw"⟩, ⟨#[0xff]⟩)]

def interleavedOther : Tree := .ofList [(⟨"b"⟩, .ofText "")]

theorem replay_fileByFile_interleaved :
    let s : Stack := interleaved.map Patch.toStored
    s.replay interleavedBase = .ok interleavedDerived ∧
      (s.ofFile ⟨"b"⟩).replay (interleavedBase.only ⟨"b"⟩) = .ok (interleavedDerived.only ⟨"b"⟩) ∧
      interleavedDerived.get? ⟨"raw"⟩ = interleavedBase.get? ⟨"raw"⟩ ∧
      (s.arrange [⟨"b"⟩]).targets = [⟨"b"⟩, ⟨"b"⟩, ⟨"a"⟩, ⟨"a"⟩] ∧
      (s.arrange [⟨"b"⟩]).replay interleavedBase = .ok interleavedDerived ∧
      s.replay interleavedOther = .error ⟨⟨"a"⟩, .missingTarget⟩ ∧
      ∃ front p back, s = front ++ p :: back ∧
        (s.ofFile p.target).replay (interleavedOther.only p.target) =
          .error ⟨⟨"a"⟩, .missingTarget⟩ := by
  intro s
  have hvalid : ∀ p ∈ interleaved, p.IsValid := by decide
  have hparse := fun p hp => (hvalid p hp).parse_toStored
  have hreplay : s.replay interleavedBase = .ok interleavedDerived := by
    rw [replay_map_toStored hparse]
    rfl
  have hfails : s.replay interleavedOther = .error ⟨⟨"a"⟩, .missingTarget⟩ := by
    rw [replay_map_toStored hparse]
    rfl
  obtain ⟨-, hfiles, hrearranged, -, -⟩ := replay_fileByFile s interleavedBase
  obtain ⟨-, -, -, -, hfailure⟩ := replay_fileByFile s interleavedOther
  obtain ⟨hruns, hothers⟩ := hfiles _ hreplay
  obtain ⟨front, p, back, hs, -, hrun, -⟩ := (hfailure _).1 hfails
  refine ⟨hreplay, hruns _ (by decide), hothers _ (by decide), by decide, ?_, hfails,
    front, p, back, hs, hrun⟩
  exact (hrearranged _ (s.arrange_rearranges _) _).2 hreplay

end Stack

end Patchwork
