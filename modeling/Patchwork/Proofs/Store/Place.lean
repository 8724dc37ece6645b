import Patchwork.Proofs.Disk.Region
import Patchwork.Proofs.Store.Basic

/-!
# Files at their places

A file that is put or dropped below a directory that a path reaches changes its own place only
(`replaces_of_putFile`, `replaces_of_dropFile`). It is read from there, or found missing, as long as
nothing changes at the place or on the way to it (`file?_of_changesWithin`).
-/
namespace Patchwork

variable {d d' e : Disk} {p : DiskPath} {dir l names : Location}

namespace Disk

/-- Names that are not too long lead to their place, unless a file is in the way or the way ends
before. -/
theorem follow_into_cases (hshort : ∀ name ∈ names, name.isTooLong = false) :
    (∃ k, k <+: names ∧ k ≠ names ∧ (d.file? (l ++ k)).isSome ∧
        d.follow l (names.map .into) = .error .notADirectory) ∨
      (∀ k, k <+: names → k ≠ names → d.file? (l ++ k) = none) ∧
        (d.follow l (names.map .into) = .ok (l ++ names) ∨
          d.follow l (names.map .into) = .error .notFound) := by
  induction names generalizing l with
  | nil =>
    refine .inr ⟨fun k hk hne => absurd (List.prefix_nil.1 hk) hne, .inl ?_⟩
    rw [List.append_nil]
    rfl
  | cons name names ih =>
    obtain ⟨hname, hshort⟩ := List.forall_mem_cons.1 hshort
    have hstep : l.step (.into name) = .ok (l ++ [name]) := step_into_eq_ok_iff.2 ⟨hname, rfl⟩
    rw [List.map_cons, follow, hstep]
    rcases hnode : d.node? l with _ | content | _
    · exact .inr ⟨fun k _ _ =>
        file?_of_none (node?_of_prefix_of_none hnode (List.prefix_append _ _)), .inr rfl⟩
    · refine .inl ⟨[], List.nil_prefix, by simp, ?_, rfl⟩
      rw [List.append_nil, file?_eq_some_iff.2 hnode]
      rfl
    · rcases ih (l := l ++ [name]) hshort with ⟨k, hk, hne, hfile, herror⟩ | ⟨hfree, hfollow⟩
      · refine .inl ⟨name :: k, List.cons_prefix_cons.2 ⟨rfl, hk⟩, by simpa using hne, ?_, herror⟩
        rwa [List.append_cons]
      · refine .inr ⟨fun k hk hne => ?_, by rwa [List.append_cons l name names]⟩
        cases k with
        | nil => rw [List.append_nil, file?_of_directory hnode]
        | cons name' k =>
          obtain ⟨rfl, hk'⟩ := List.cons_prefix_cons.1 hk
          rw [List.append_cons]
          exact hfree k hk' (by simpa using hne)

theorem content_eq_notFound_iff : d.content p = .error .notFound ↔
    d.locate p = .error .notFound ∨ ∃ l, d.locate p = .ok l ∧ d.node? l = none := by
  unfold Disk.content nodeAt
  rw [Except.bind_eq_error_iff, Except.bind_eq_error_iff]
  constructor
  · rintro ((hl | ⟨l, hl, h⟩) | ⟨node, -, h⟩)
    · exact .inl hl
    · refine .inr ⟨l, hl, ?_⟩
      split at h
      · cases h
      · assumption
    · split at h <;> cases h
  · rintro (hl | ⟨l, hl, hnone⟩)
    · exact .inl (.inl hl)
    · exact .inl (.inr ⟨l, hl, by rw [hnone]⟩)

end Disk

namespace Store

open Disk

theorem file?_eq_none_iff : file? p d = .ok none ↔ d.content p = .error .notFound := by
  unfold file?
  split
  · rename_i content hcontent
    simp [hcontent]
  · rename_i hcontent
    simp [hcontent]
  · rename_i fault hne hcontent
    rw [hcontent]
    exact ⟨nofun, fun h => absurd (Except.error.inj h) hne⟩

theorem file?_eq_some_of_locate {content : Content} (hl : d.locate p = .ok l)
    (hfile : d.file? l = some content) : file? p d = .ok (some content) := by
  rw [file?, content_eq_ok_iff.2 ⟨l, hl, hfile⟩]

theorem eq_some_of_file?_belowNames {content : Content} {found : Option Content}
    (hp : d.Reaches p dir) (hnames : names ≠ []) (hfile : d.file? (dir ++ names) = some content)
    (h : file? (p.belowNames names) d = .ok found) : found = some content := by
  have hnode := file?_eq_some_iff.1 hfile
  cases found with
  | none =>
    rcases content_eq_notFound_iff.1 (file?_eq_none_iff.1 h) with hlost | ⟨l, hl, hnone⟩
    · exact absurd hlost (hp.locate_ne_notFound hnames hnode)
    · rw [hp.eq_of_locate hnames hl, hnode] at hnone
      cases hnone
  | some content' =>
    obtain ⟨l, hl, hfile'⟩ := exists_locate_of_file? h
    rw [hp.eq_of_locate hnames hl, hfile] at hfile'
    exact hfile'.symm

/-- A file is missing below a directory that is reached if nothing is at its place and no file is in
the way. -/
theorem file?_belowNames_eq_none_iff (hp : d.Reaches p dir) (hnames : names ≠ [])
    (hshort : ∀ name ∈ names, name.isTooLong = false) :
    file? (p.belowNames names) d = .ok none ↔ (p.belowNames names).fault? = none ∧
      d.node? (dir ++ names) = none ∧ ∀ k, k <+: names → k ≠ names → d.file? (dir ++ k) = none := by
  rw [file?_eq_none_iff, content_eq_notFound_iff]
  cases hfault : (p.belowNames names).fault? with
  | some fault =>
    have hne : fault ≠ .notFound := by
      rintro rfl
      have htext := p.text_belowNames_ne hnames
      unfold DiskPath.fault? at hfault
      split_ifs at hfault <;> simp_all
    simp [locate_of_fault? hfault, hne]
  | none =>
    have hlocate : d.locate (p.belowNames names) = d.follow dir (names.map .into) := by
      rw [locate_eq_follow hfault (p.asksForDirectory_belowNames hnames), p.route_belowNames hnames,
        follow_append, hp.leads]
      rfl
    rw [hlocate]
    rcases follow_into_cases (d := d) (l := dir) hshort with
      ⟨k, hk, hne, hfile, herror⟩ | ⟨hfree, hok | herror⟩
    · rw [herror]
      constructor
      · simp
      · rintro ⟨-, -, hfree⟩
        rw [hfree k hk hne] at hfile
        cases hfile
    · rw [hok]
      simp only [reduceCtorEq, false_or, Except.ok.injEq, exists_eq_left', true_and]
      exact ⟨fun h => ⟨h, hfree⟩, fun h => h.1⟩
    · rw [herror]
      refine iff_of_true (.inl rfl) ⟨rfl, ?_, hfree⟩
      by_contra hnode
      obtain ⟨node, hnode⟩ := Option.ne_none_iff_exists'.1 hnode
      rw [follow_into_of_node? hnode, if_neg (by simpa using hshort)] at herror
      cases herror

/-- What is read at a place stays while nothing changes at the place or on the way to it. -/
theorem file?_of_changesWithin {ls : Set Location} (hp : d.Reaches p dir) (hp' : e.Reaches p dir)
    (hchange : d.ChangesWithin e ls) (hnames : names ≠ [])
    (hapart : ∀ l ∈ ls, ¬ l <+: dir ++ names ∧ ¬ dir ++ names <+: l) {content : Option Content}
    (hshort : content = none → ∀ name ∈ names, name.isTooLong = false)
    (h : file? (p.belowNames names) d = .ok content) :
    file? (p.belowNames names) e = .ok content := by
  have hnode := hchange.node?_eq hapart
  cases content with
  | none =>
    have hshort := hshort rfl
    obtain ⟨hfault, hnone, hfree⟩ := (file?_belowNames_eq_none_iff hp hnames hshort).1 h
    refine (file?_belowNames_eq_none_iff hp' hnames hshort).2 ⟨hfault, hnode.trans hnone, ?_⟩
    intro k hk hne
    rw [hchange.file?_eq, hfree k hk hne]
    intro l hl hlk
    exact (hapart l hl).1 (hlk.trans ((List.prefix_append_right_inj dir).2 hk))
  | some content =>
    obtain ⟨l, hl, hfile⟩ := exists_locate_of_file? h
    rw [hp.eq_of_locate hnames hl] at hfile
    have hnode' := hnode.trans (file?_eq_some_iff.1 hfile)
    exact file?_eq_some_of_locate (hp'.locate_belowNames hnames hl hnode')
      (file?_eq_some_iff.2 hnode')

theorem replaces_of_put {content : Content} (hp : d.Reaches p dir) (hnames : names ≠ [])
    (hmake : makeDirectories (p.belowNames names).directory d = (.ok (), e))
    (hput : e.putFile (p.belowNames names) content = .ok d') :
    d.Replaces d' (dir ++ names) (some content) ∧
      file? (p.belowNames names) d' = .ok (some content) := by
  obtain ⟨init, name, rfl⟩ := (List.eq_nil_or_concat' names).resolve_left hnames
  have hextends := extends_of_makeDirectories hmake
  have hmade := changesWithin_makeDirectories hp init name
  rw [makeDirectories_eq_ok_iff.1 hmake] at hmade
  have hplaced := (hp.mono hextends.directories).replaces_of_putFile hnames hput
  have hkeeps := hextends.directories.trans hplaced.directories
  refine ⟨⟨hmade.trans hplaced.within, hplaced.node?_eq, hkeeps⟩, ?_⟩
  obtain ⟨l, hl, -⟩ := exists_putAt_of_putFile hput
  exact file?_eq_some_of_locate ((hp.mono hkeeps).locate_belowNames hnames hl hplaced.node?_eq)
    (file?_eq_some_iff.2 hplaced.node?_eq)

theorem replaces_of_putFile {content : Content} (hp : d.Reaches p dir) (hnames : names ≠ [])
    (h : putFile (p.belowNames names) content d = (.ok (), d')) :
    d.Replaces d' (dir ++ names) (some content) ∧
      file? (p.belowNames names) d' = .ok (some content) := by
  obtain ⟨_, e, hmake, h⟩ := bind_eq_ok_iff.1 h
  have hput := change_eq_ok_iff.1 h
  unfold renameInto at hput
  split_ifs at hput
  exact replaces_of_put hp hnames hmake hput

theorem replaces_of_dropFile (hp : d.Reaches p dir) (hnames : names ≠ [])
    (h : dropFile (p.belowNames names) d = (.ok (), d')) :
    d.Replaces d' (dir ++ names) none ∧ file? (p.belowNames names) d' = .ok none := by
  rw [file?_eq_none_iff, content_eq_notFound_iff]
  unfold dropFile at h
  split at h
  · rename_i d₁ hdrop
    obtain ⟨-, rfl⟩ := Prod.mk.inj h
    obtain ⟨l, content, hl, hfile, hnode⟩ := node?_of_dropFile hdrop
    obtain rfl := hp.eq_of_locate hnames hl
    have hnone : d₁.node? (dir ++ names) = none := by rw [hnode, if_pos rfl]
    have hkeeps : d.KeepsDirectories d₁ := by
      intro m hm
      have hne : m ≠ dir ++ names := by
        rintro rfl
        rw [hfile] at hm
        cases hm
      rw [hnode, if_neg hne, hm]
    refine ⟨⟨fun m hm => .inl ?_, hnone, hkeeps⟩, .inr ⟨dir ++ names, ?_, hnone⟩⟩
    · rw [hnode, if_neg]
      rintro rfl
      exact hm _ rfl (List.prefix_refl _)
    · obtain ⟨hfault, hfollow, -⟩ := locate_eq_ok_iff.1 hl
      refine locate_eq_ok_iff.2 ⟨hfault, hkeeps.follow hfollow, ?_⟩
      rw [p.asksForDirectory_belowNames hnames]
      nofun
  · rename_i hlost
    obtain ⟨-, rfl⟩ := Prod.mk.inj h
    have hmissing := missing_of_dropFile hlost
    refine ⟨⟨.refl d _, ?_, .refl d⟩, hmissing⟩
    by_contra hnode
    obtain ⟨node, hnode⟩ := Option.ne_none_iff_exists'.1 hnode
    rcases hmissing with hlost | ⟨l, hl, hnone⟩
    · exact hp.locate_ne_notFound hnames hnode hlost
    · rw [hp.eq_of_locate hnames hl, hnode] at hnone
      cases hnone
  · cases h

end Store

end Patchwork
