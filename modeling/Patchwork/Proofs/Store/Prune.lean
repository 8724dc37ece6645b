import Mathlib.Data.List.Infix
import Patchwork.Proofs.SortedMap
import Patchwork.Proofs.Store.PatchWrite

/-!
# Pruning a patch directory

Directories are visited in the order of their names, so whatever lies in a directory is left before
it is (`pairwise_visits`). Where pruning succeeds, every directory that is left has an entry, but
for those that the path of the root led through to one that went (`exists_entry_or_of_prune`). If
the root is still reached, each has a file somewhere below it (`exists_file?_of_prune`). Pruning
succeeds if the path of the root leads past the directories that go (`exists_prune`).
-/
namespace Patchwork

/-! ## The order of locations -/

namespace Location

theorem prefix_of_between {a b c : Location} (hab : compare a b = .lt) (hbc : compare b c = .lt)
    (hac : a <+: c) : a <+: b := by
  induction a generalizing b c with
  | nil => exact List.nil_prefix
  | cons x a ih =>
    obtain ⟨rest, rfl⟩ := hac
    cases b with
    | nil => simp [List.compare_cons_nil] at hab
    | cons y b =>
      rw [List.compare_cons_cons] at hab
      rw [List.cons_append, List.compare_cons_cons] at hbc
      cases hxy : compare x y with
      | gt => simp [hxy] at hab
      | lt => simp [Std.OrientedCmp.gt_iff_lt.2 hxy] at hbc
      | eq =>
        obtain rfl := Std.LawfulEqCmp.eq_of_compare hxy
        rw [hxy, Ordering.eq_then] at hab hbc
        exact List.cons_prefix_cons.2 ⟨rfl, ih hab hbc (List.prefix_append _ _)⟩

end Location

namespace Disk

variable {d : Disk} {l : Location}

/-- A directory holds a file somewhere below it if none of the directories there is empty. -/
theorem exists_file?_of_entries (hdir : d.node? l = some .directory)
    (hentry : ∀ rest, d.node? (l ++ rest) = some .directory →
    ∃ name, d.node? (l ++ rest ++ [name]) ≠ none) :
    ∃ rest content, d.file? (l ++ rest) = some content := by
  by_contra! hnone
  -- Without a file the directories would go on for ever.
  have hdeep : ∀ n, ∃ rest : Location, rest.length = n ∧ d.node? (l ++ rest) = some .directory := by
    intro n
    induction n with
    | zero => exact ⟨[], rfl, by rwa [List.append_nil]⟩
    | succ n ih =>
      obtain ⟨rest, hlength, hrest⟩ := ih
      obtain ⟨name, hname⟩ := hentry rest hrest
      refine ⟨rest ++ [name], by simp [hlength], ?_⟩
      rw [← List.append_assoc]
      cases hnode : d.node? (l ++ rest ++ [name]) with
      | none => exact absurd hnode hname
      | some node =>
        cases node with
        | directory => rfl
        | file content =>
          rw [List.append_assoc] at hnode
          exact absurd (file?_eq_some_iff.2 hnode) (hnone _ content)
  obtain ⟨rest, hlength, hrest⟩ := hdeep (d.nodes.keys.flatten.length + 1)
  have hkey : l ++ rest ∈ d.nodes.keys := SortedMap.mem_keys_iff.2 ⟨_, hrest⟩
  have hle := (List.sublist_flatten_of_mem hkey).length_le
  rw [List.length_append] at hle
  omega

end Disk

namespace PatchDirectory

variable {p : PatchDirectory} {d d' : Disk} {dir names : Location}

/-! ## The order of visits -/

theorem pairwise_directoryNames (d : Disk) (dir : Location) :
    (directoryNames d dir).Pairwise fun a b => compare a b = .lt := by
  refine Disk.pairwise_filterMap_walk fun e names h => ?_
  split_ifs at h
  exact Option.some.inj h

theorem leave_mem_visits {opened dirs : List Location} (h : names ∈ opened ++ dirs) :
    .leave names ∈ visits opened dirs := by
  induction dirs generalizing opened with
  | nil => simpa [visits] using h
  | cons first dirs ih =>
    rw [visits, List.mem_append, List.mem_cons]
    rw [List.mem_append, List.mem_cons] at h
    by_cases htaken : names ∈ opened.takeWhile fun dir => !first.isWithin dir
    · exact .inl (List.mem_map_of_mem htaken)
    · refine .inr (.inr (ih ?_))
      rcases h with h | rfl | h
      · rw [← List.takeWhile_append_dropWhile (p := fun dir => !first.isWithin dir)
          (l := opened)] at h
        have hopened := (List.mem_append.1 h).resolve_left htaken
        simp [hopened]
      · simp
      · simp [h]

/-- What is left by the second visit does not lie in what is left by the first. -/
def Visit.LeavesBefore (v w : Visit) : Prop := ∀ a b, v = .leave a → w = .leave b → ¬ a <+: b

theorem Visit.leavesBefore_leave {a b : Location} (h : ¬ a <+: b) :
    (leave a).LeavesBefore (.leave b) := by
  rintro _ _ ⟨⟩ ⟨⟩
  exact h

/-- The open directories lie in one another, the innermost first. -/
def IsNested (opened : List Location) : Prop :=
  opened.Pairwise fun inner outer => outer <+: inner ∧ outer ≠ inner

namespace IsNested

variable {opened dirs : List Location} {first : Location}

theorem pairwise_leave (h : IsNested opened) : (opened.map .leave).Pairwise Visit.LeavesBefore := by
  rw [List.pairwise_map]
  refine h.imp fun hnested => Visit.leavesBefore_leave fun hprefix => ?_
  exact hnested.2 (hnested.1.eq_of_length_le hprefix.length_le)

theorem prefix_of_mem_dropWhile (h : IsNested opened) :
    ∀ outer ∈ opened.dropWhile (fun dir => !first.isWithin dir), outer <+: first := by
  intro outer houter
  have hkept : IsNested (opened.dropWhile fun dir => !first.isWithin dir) :=
    h.sublist (List.dropWhile_sublist _)
  have hhead := List.head?_dropWhile_not (fun dir => !first.isWithin dir) opened
  cases hdrop : opened.dropWhile (fun dir => !first.isWithin dir) with
  | nil =>
    rw [hdrop] at houter
    cases houter
  | cons head kept =>
    rw [hdrop] at houter hkept hhead
    have hhead : head <+: first := Location.isWithin_iff.1 (by simpa using hhead)
    rcases List.mem_cons.1 houter with rfl | houter
    · exact hhead
    · exact ((List.pairwise_cons.1 hkept).1 outer houter).1.trans hhead

theorem not_prefix_of_mem_takeWhile :
    ∀ inner ∈ opened.takeWhile (fun dir => !first.isWithin dir), ¬ inner <+: first := by
  intro inner hinner hprefix
  have hout := List.mem_takeWhile_imp hinner
  rw [Location.isWithin_iff.2 hprefix] at hout
  cases hout

theorem cons_dropWhile (h : IsNested opened)
    (hfirst : ∀ outer ∈ opened, compare outer first = .lt) :
    IsNested (first :: opened.dropWhile fun dir => !first.isWithin dir) := by
  refine List.pairwise_cons.2 ⟨fun outer houter => ⟨h.prefix_of_mem_dropWhile outer houter, ?_⟩,
    h.sublist (List.dropWhile_sublist _)⟩
  rintro rfl
  simpa [Std.ReflCmp.compare_self] using hfirst outer (List.dropWhile_subset _ houter)

end IsNested

/-- A directory is left after every directory that lies in it. -/
theorem pairwise_visits {opened dirs : List Location} (hnested : IsNested opened)
    (hbefore : ∀ outer ∈ opened, ∀ names ∈ dirs, compare outer names = .lt)
    (hsorted : dirs.Pairwise fun a b => compare a b = .lt) :
    (visits opened dirs).Pairwise Visit.LeavesBefore := by
  induction dirs generalizing opened with
  | nil =>
    rw [visits]
    exact hnested.pairwise_leave
  | cons first dirs ih =>
    obtain ⟨hfirst, hsorted⟩ := List.pairwise_cons.1 hsorted
    have hbeforeFirst : ∀ outer ∈ opened, compare outer first = .lt := fun outer houter =>
      hbefore outer houter first (by simp)
    rw [visits]
    refine List.pairwise_append.2 ⟨?left, List.pairwise_cons.2 ⟨?enter, ih ?nested ?before hsorted⟩,
      ?across⟩
    case left => exact IsNested.pairwise_leave (hnested.sublist (List.takeWhile_sublist _))
    case enter =>
      intro _ _ a _ henter
      cases henter
    case nested => exact hnested.cons_dropWhile hbeforeFirst
    case before =>
      refine List.forall_mem_cons.2 ⟨hfirst, fun outer houter names hnames => ?_⟩
      exact hbefore outer (List.dropWhile_subset _ houter) names (List.mem_cons_of_mem _ hnames)
    case across =>
      rintro _ hleft w hw a b rfl rfl hab
      obtain ⟨inner, hinner, heq⟩ := List.mem_map.1 hleft
      cases heq
      have hout := IsNested.not_prefix_of_mem_takeWhile a hinner
      -- What is left later is the next directory, holds it, or comes after it.
      obtain ⟨other, hother, hvisit | hvisit⟩ :=
        mem_of_mem_visits ((List.mem_cons.1 hw).resolve_left (by simp))
      · cases hvisit
      · cases hvisit
        rw [List.cons_append, List.mem_cons, List.mem_append] at hother
        rcases hother with rfl | hother | hother
        · exact hout hab
        · exact hout (hab.trans (hnested.prefix_of_mem_dropWhile b hother))
        · have hlt := hbeforeFirst a (List.takeWhile_subset _ hinner)
          exact hout (Location.prefix_of_between hlt (hfirst b hother) hab)

/-! ## What is left -/

theorem keepsDirectories_of_dropEmptyDirectory {l : Location}
    (h : d.dropEmptyDirectory l = .ok d') :
    d'.KeepsDirectories d := by
  intro m hm
  rw [(Disk.node?_of_dropEmptyDirectory h).2 m] at hm
  split_ifs at hm
  exact hm

theorem reaches_of_dropEmptyDirectory {l : Location} (hreach : d.Reaches p.root dir)
    (hpast : p.root.LeadsPast l) (h : d.dropEmptyDirectory l = .ok d') : d'.Reaches p.root dir := by
  have hpast' : ∀ m ∈ ({l} : Set Location), p.root.LeadsPast m := by
    rintro _ rfl
    exact hpast
  refine hreach.of_leadsPast hpast' fun m hm hm' => ?_
  have hne : m ≠ l := by
    rintro rfl
    exact hm _ rfl (List.prefix_refl _)
  rw [(Disk.node?_of_dropEmptyDirectory h).2, if_neg hne, hm']

theorem pruneVisit_leave_eq (hlocate : d.locate p.root = .ok dir) : p.pruneVisit (.leave names) d =
    match d.dropEmptyDirectory (dir ++ names) with
    | .ok e => (.ok (), e)
    | .error _ => (.ok (), d) := by
  cases hdrop : d.dropEmptyDirectory (dir ++ names) <;>
    simp only [pruneVisit, Store.attempt, hlocate, bind, Except.bind, hdrop]

theorem hasEntries_of_pruneVisit_leave (hlocate : d.locate p.root = .ok dir) (hnames : names ≠ [])
    (h : p.pruneVisit (.leave names) d = (.ok (), d'))
    (hdir : d'.node? (dir ++ names) = some .directory) :
    d = d' ∧ d.hasEntries (dir ++ names) = true := by
  rw [pruneVisit_leave_eq hlocate] at h
  cases hdrop : d.dropEmptyDirectory (dir ++ names) with
  | ok e =>
    rw [hdrop] at h
    obtain rfl := (Prod.mk.inj h).2
    rw [(Disk.node?_of_dropEmptyDirectory hdrop).2, if_pos rfl] at hdir
    cases hdir
  | error fault =>
    rw [hdrop] at h
    obtain rfl := (Prod.mk.inj h).2
    refine ⟨rfl, ?_⟩
    by_contra hentries
    rw [Disk.dropEmptyDirectory, hdir] at hdrop
    dsimp only at hdrop
    rw [if_neg hentries, Disk.dropAt, dif_pos (by simp [hnames])] at hdrop
    cases hdrop

theorem keepsDirectories_of_each (hroot : p.root.location? = some dir) {vs : List Visit}
    (h : Store.each p.pruneVisit vs d = (.ok (), d')) : d'.KeepsDirectories d :=
  visits_induction (motive := fun d e => e.KeepsDirectories d) Disk.KeepsDirectories.refl
    (fun _ _ _ h h' => h'.trans h) hroot (fun _ _ _ _ => keepsDirectories_of_dropEmptyDirectory) h

/-- Every directory that was left and is still there has an entry, if the root is still reached. -/
theorem exists_entry_of_each {vs : List Visit} (hlater : vs.Pairwise Visit.LeavesBefore)
    (hreach : d'.Reaches p.root dir) (hvalid : p.root.fault? = none)
    (h : Store.each p.pruneVisit vs d = (.ok (), d')) (hmem : .leave names ∈ vs)
    (hnames : names ≠ []) (hdir : d'.node? (dir ++ names) = some .directory) :
    ∃ name, d'.node? (dir ++ names ++ [name]) ≠ none := by
  obtain ⟨before, after, rfl⟩ := List.append_of_mem hmem
  rw [List.pairwise_append, List.pairwise_cons] at hlater
  obtain ⟨e, -, h⟩ := Store.each_append_eq_ok_iff.1 h
  obtain ⟨f, hleave, hafter⟩ := Store.each_cons_eq_ok_iff.1 h
  -- Nothing that lies in the directory is left after it.
  have hstay : ∀ rest, d'.node? (dir ++ names ++ rest) = f.node? (dir ++ names ++ rest) := by
    intro rest
    refine visits_induction
      (motive := fun d e => e.node? (dir ++ names ++ rest) = d.node? (dir ++ names ++ rest))
      (fun _ => rfl) (fun _ _ _ h h' => h'.trans h) hreach.location?_eq
      (fun other hother d e hdrop => ?_) hafter
    have hne : dir ++ names ++ rest ≠ dir ++ other := by
      intro heq
      rw [List.append_assoc] at heq
      exact hlater.2.1.1 _ hother names other rfl rfl ⟨rest, List.append_cancel_left heq⟩
    rw [(Disk.node?_of_dropEmptyDirectory hdrop).2, if_neg hne]
  have hreached : e.locate p.root = .ok dir :=
    (hreach.mono (keepsDirectories_of_each hreach.location?_eq h)).locate hvalid
  have hleft : f.node? (dir ++ names) = some .directory := by
    simpa using (hstay []).symm.trans (by simpa using hdir)
  obtain ⟨rfl, hentries⟩ := hasEntries_of_pruneVisit_leave hreached hnames hleave hleft
  obtain ⟨name, hname⟩ := Disk.exists_of_hasEntries hentries
  exact ⟨name, by rwa [hstay]⟩

theorem pairwise_visits_directoryNames (d : Disk) (dir : Location) :
    (visits [] (directoryNames d dir)).Pairwise Visit.LeavesBefore :=
  pairwise_visits List.Pairwise.nil (List.forall_mem_nil _) (pairwise_directoryNames d dir)

/-! ## When the root is lost -/

/-- What is left without anything being entered any more lies around what was left in front of
it. -/
theorem prefix_of_leave_mem {opened dirs : List Location} {before after : List Visit}
    {last : Location} (hnested : IsNested opened)
    (hbefore : ∀ outer ∈ opened, ∀ names ∈ dirs, compare outer names = .lt)
    (hsorted : dirs.Pairwise fun a b => compare a b = .lt)
    (hvisits : visits opened dirs = before ++ .leave last :: after)
    (henter : ∀ names, .enter names ∉ after) :
    ∀ names, .leave names ∈ after → names <+: last := by
  induction dirs generalizing opened before with
  | nil =>
    rw [visits, List.map_eq_append_iff] at hvisits
    obtain ⟨inner, outer, rfl, -, houter⟩ := hvisits
    obtain ⟨first, rest, rfl, hfirst, rfl⟩ := List.map_eq_cons_iff.1 houter
    obtain rfl := Visit.leave.inj hfirst
    intro names hnames
    obtain ⟨other, hother, heq⟩ := List.mem_map.1 hnames
    obtain rfl := Visit.leave.inj heq
    have hrest := (List.pairwise_append.1 hnested).2.1
    exact ((List.pairwise_cons.1 hrest).1 other hother).1
  | cons first dirs ih =>
    obtain ⟨hfirst, hsorted⟩ := List.pairwise_cons.1 hsorted
    rw [visits] at hvisits
    rcases List.append_eq_append_iff.1 hvisits with ⟨front, rfl, hfront⟩ | ⟨front, -, hfront⟩
    · cases front with
      | nil => cases hfront
      | cons visit front =>
        obtain ⟨-, hback⟩ := List.cons.inj hfront
        refine ih (hnested.cons_dropWhile fun outer houter =>
          hbefore outer houter first (by simp)) ?_ hsorted hback
        refine List.forall_mem_cons.2 ⟨hfirst, fun outer houter names hnames => ?_⟩
        exact hbefore outer (List.dropWhile_subset _ houter) names (List.mem_cons_of_mem _ hnames)
    · cases front with
      | nil => cases hfront
      | cons visit front =>
        obtain ⟨-, rfl⟩ := List.cons.inj hfront
        exact absurd (by simp) (henter first)

/-- Where the root is not found, no directory is entered, and none is removed when it is left. -/
theorem of_each_of_lost {vs : List Visit} (hlost : ∀ l, d.locate p.root ≠ .ok l)
    (h : Store.each p.pruneVisit vs d = (.ok (), d')) : d = d' ∧ ∀ names, .enter names ∉ vs := by
  induction vs with
  | nil =>
    obtain ⟨-, rfl⟩ := Store.pure_eq_ok_iff.1 h
    exact ⟨rfl, nofun⟩
  | cons visit vs ih =>
    obtain ⟨e, hvisit, h⟩ := Store.each_cons_eq_ok_iff.1 h
    obtain ⟨_, l, -, hl, -⟩ | ⟨names, rfl, rfl | ⟨l, hl, -⟩⟩ := of_pruneVisit hvisit
    · exact absurd hl (hlost l)
    · obtain ⟨rfl, hvs⟩ := ih h
      exact ⟨rfl, by simpa using hvs⟩
    · exact absurd hl (hlost l)

/-- The root is found as before, or it was lost with the last directory that was removed. -/
theorem locate_or_lost_of_each {vs : List Visit} (hlocate : d.locate p.root = .ok dir)
    (h : Store.each p.pruneVisit vs d = (.ok (), d')) : d'.locate p.root = .ok dir ∨
      ∃ before last after e, vs = before ++ .leave last :: after ∧ (∀ names, .enter names ∉ after) ∧
        Store.each p.pruneVisit before d = (.ok (), e) ∧ e.locate p.root = .ok dir ∧
        e.dropEmptyDirectory (dir ++ last) = .ok d' ∧ ∀ l, d'.locate p.root ≠ .ok l := by
  induction vs generalizing d with
  | nil =>
    obtain ⟨-, rfl⟩ := Store.pure_eq_ok_iff.1 h
    exact .inl hlocate
  | cons visit vs ih =>
    obtain ⟨e, hvisit, h⟩ := Store.each_cons_eq_ok_iff.1 h
    by_cases hfound : ∃ l, e.locate p.root = .ok l
    · obtain ⟨l, hl⟩ := hfound
      obtain rfl : l = dir :=
        Option.some.inj
          ((Disk.location?_of_locate hl).symm.trans (Disk.location?_of_locate hlocate))
      refine (ih hl h).imp id ?_
      rintro ⟨before, last, after, f, rfl, henter, hbefore, hrest⟩
      exact ⟨visit :: before, last, after, f, rfl, henter,
        Store.each_cons_eq_ok_iff.2 ⟨e, hvisit, hbefore⟩, hrest⟩
    · have hlost : ∀ l, e.locate p.root ≠ .ok l := fun l hl => hfound ⟨l, hl⟩
      obtain ⟨rfl, henter⟩ := of_each_of_lost hlost h
      obtain ⟨_, _, -, -, rfl⟩ | ⟨last, rfl, rfl | ⟨l, hl, hdropped⟩⟩ := of_pruneVisit hvisit
      · exact absurd hlocate (hlost dir)
      · exact absurd hlocate (hlost dir)
      · obtain rfl := Except.ok.inj (hlocate.symm.trans hl)
        exact .inr ⟨[], last, vs, d, rfl, henter, rfl, hlocate, hdropped, hlost⟩

/-- Every directory that pruning leaves below the root has an entry, unless the path of the root
leads through it to something in it. -/
theorem exists_entry_or_of_prune (h : p.prune d = (.ok (), d'))
    (hroot : p.root.location? = some dir) (hnames : names ≠ [])
    (hdir : d'.node? (dir ++ names) = some .directory) :
    (∃ name, d'.node? (dir ++ names ++ [name]) ≠ none) ∨ ∃ name, ¬ p.root.LeadsPast
      (dir ++ names ++ [name]) := by
  obtain ⟨root, hlocate, heach⟩ := prune_eq_ok_iff.1 h
  obtain rfl : root = dir := Option.some.inj ((Disk.location?_of_locate hlocate).symm.trans hroot)
  have hvalid := (Disk.locate_eq_ok_iff.1 hlocate).1
  have hback := keepsDirectories_of_each hroot heach
  have hmem : .leave names ∈ visits [] (directoryNames d root) :=
    leave_mem_visits (by simpa using mem_directoryNames_iff.2 ⟨hnames, hback _ hdir⟩)
  have hlater := pairwise_visits_directoryNames d root
  have hroot : d'.node? root = some .directory := by
    obtain ⟨first, rest, rfl⟩ := List.exists_cons_of_ne_nil hnames
    exact Disk.node?_of_node?_append hdir
  rcases locate_or_lost_of_each hlocate heach with hfound |
    ⟨before, last, after, e, hvisits, henter, hbefore, he, hdrop, hlost⟩
  · exact .inl
      (exists_entry_of_each hlater
      (Disk.reaches_of_locate hfound hroot) hvalid heach hmem hnames hdir)
  have hnode := (Disk.node?_of_dropEmptyDirectory hdrop).2
  have hkeeps := keepsDirectories_of_dropEmptyDirectory hdrop
  have hreached : e.Reaches p.root root := Disk.reaches_of_locate he (hkeeps _ hroot)
  rw [hvisits] at hmem hlater
  rw [List.mem_append, List.mem_cons] at hmem
  rcases hmem with hmem | hmem | hmem
  · -- It was left before the root was lost, so it had an entry, and that is not what was removed
    -- last.
    rw [List.pairwise_append] at hlater
    obtain ⟨name, hname⟩ :=
      exists_entry_of_each hlater.1 hreached hvalid hbefore hmem hnames (hkeeps _ hdir)
    have hne : root ++ names ++ [name] ≠ root ++ last := by
      intro heq
      rw [List.append_assoc] at heq
      exact hlater.2.2 _ hmem _ List.mem_cons_self names last rfl rfl
        ⟨[name], List.append_cancel_left heq⟩
    exact .inl ⟨name, by rwa [hnode, if_neg hne]⟩
  · obtain rfl := Visit.leave.inj hmem
    rw [hnode, if_pos rfl] at hdir
    cases hdir
  · -- It lies around what was removed last, and the root was lost with that.
    obtain ⟨rest, rfl⟩ := prefix_of_leave_mem List.Pairwise.nil (List.forall_mem_nil _)
      (pairwise_directoryNames d root) hvisits henter names hmem
    cases rest with
    | nil =>
      rw [List.append_nil] at hnode
      rw [hnode, if_pos rfl] at hdir
      cases hdir
    | cons name rest =>
      refine .inr ⟨name, fun hpast => ?_⟩
      have hpast' : p.root.LeadsPast (root ++ (names ++ name :: rest)) :=
        hpast.of_prefix ⟨rest, by simp⟩
      exact hlost root ((reaches_of_dropEmptyDirectory hreached hpast' hdrop).locate hvalid)

theorem exists_entry_of_prune (h : p.prune d = (.ok (), d')) (hreach : d'.Reaches p.root dir)
    (hnames : names ≠ []) (hdir : d'.node? (dir ++ names) = some .directory) :
    ∃ name, d'.node? (dir ++ names ++ [name]) ≠ none := by
  obtain hentry | ⟨name, hthrough⟩ := exists_entry_or_of_prune h hreach.location?_eq hnames hdir
  · exact hentry
  · exact ⟨name, fun hnone => hthrough (hreach.leadsPast hnone)⟩

theorem exists_file?_of_prune (h : p.prune d = (.ok (), d')) (hreach : d'.Reaches p.root dir)
    (hnames : names ≠ []) (hdir : d'.node? (dir ++ names) = some .directory) :
    ∃ rest content, d'.file? (dir ++ names ++ rest) = some content := by
  refine Disk.exists_file?_of_entries hdir fun rest hrest => ?_
  rw [List.append_assoc] at hrest ⊢
  exact exists_entry_of_prune h hreach (by simp [hnames]) hrest

/-! ## When pruning succeeds -/

/-- The path of the root leads past every directory below it that holds no file. Such a directory is
removed. -/
def RootStays (p : PatchDirectory) (d : Disk) : Prop :=
  ∀ dir ∈ p.root.location?, ∀ names, names ≠ [] → d.node? (dir ++ names) = some .directory →
    (∀ rest, d.file? (dir ++ names ++ rest) = none) → p.root.LeadsPast (dir ++ names)

theorem rootStays_of_reaches (hreach : d.Reaches p.root dir) (hup : .up ∉ p.root.steps) :
    p.RootStays d := by
  intro l hl names hnames _ _ steps hsteps m hm hbelow
  obtain rfl : l = dir := Option.some.inj (hl.symm.trans hreach.location?_eq)
  obtain ⟨rest, hrest⟩ := (List.mem_inits _ _).1 hsteps
  obtain ⟨k, hk, hfollow⟩ := Disk.follow_append_eq_ok_iff.1 (hrest ▸ hreach.leads)
  obtain rfl := Except.ok.inj ((Disk.walk_of_follow hk).symm.trans hm)
  have hdown := Disk.prefix_of_follow (fun h => hup (hrest ▸ List.mem_append_right _ h)) hfollow
  have hlength := (hbelow.trans hdown).length_le
  rw [List.length_append] at hlength
  exact hnames (List.length_eq_zero_iff.1 (by omega))

structure Prunes (p : PatchDirectory) (d e : Disk) (dir : Location) : Prop where
  reaches : e.Reaches p.root dir
  directories : e.KeepsDirectories d
  files : d.KeepsFiles e

/-- A directory without a file may go if the path of the root leads past it. -/
theorem Prunes.exists_pruneVisit {e : Disk} (h : p.Prunes d e dir) (hvalid : p.root.fault? = none)
    (hpast : d.node? (dir ++ names) = some .directory →
    (∀ rest, d.file? (dir ++ names ++ rest) = none) → p.root.LeadsPast (dir ++ names))
    {visit : Visit} (hvisit : visit = .enter names ∨ visit = .leave names) :
    ∃ f, p.pruneVisit visit e = (.ok (), f) ∧ p.Prunes d f dir := by
  have hlocate := h.reaches.locate hvalid
  rcases hvisit with rfl | rfl
  · refine ⟨e, Store.bind_eq_ok_iff.2 ⟨dir, e, ?_, rfl⟩, h⟩
    exact Store.inspect_eq_ok_iff.2 ⟨Except.mapError_eq_ok_iff.2 hlocate, rfl⟩
  · rw [pruneVisit_leave_eq hlocate]
    cases hdrop : e.dropEmptyDirectory (dir ++ names) with
    | error fault => exact ⟨e, rfl, h⟩
    | ok f =>
      obtain ⟨hdir, hnode⟩ := Disk.node?_of_dropEmptyDirectory hdrop
      have hfiles := h.files.trans (Disk.keepsFiles_of_dropEmptyDirectory hdrop)
      have hempty : ∀ rest, d.file? (dir ++ names ++ rest) = none := by
        intro rest
        have hgone : f.node? (dir ++ names) = none := by rw [hnode, if_pos rfl]
        rw [← hfiles]
        exact Disk.file?_of_none (Disk.node?_of_prefix_of_none hgone (List.prefix_append _ _))
      have hreach :=
        reaches_of_dropEmptyDirectory h.reaches (hpast (h.directories _ hdir) hempty) hdrop
      exact ⟨f, rfl, hreach, (keepsDirectories_of_dropEmptyDirectory hdrop).trans h.directories,
        hfiles⟩

/-- Pruning succeeds and the root is reached as before if its path leads past every directory
without a file. -/
theorem exists_prune (hreach : d.Reaches p.root dir) (hvalid : p.root.fault? = none)
    (hstays : p.RootStays d) :
    ∃ d', p.prune d = (.ok (), d') ∧ p.Prunes d d' dir := by
  have hvisit : ∀ visit ∈ visits [] (directoryNames d dir), ∀ e, p.Prunes d e dir →
      ∃ f, p.pruneVisit visit e = (.ok (), f) ∧ p.Prunes d f dir := by
    intro visit hvisit e h
    obtain ⟨names, hmem, hvisit⟩ := mem_of_mem_visits hvisit
    have hnames := (mem_directoryNames_iff.1 hmem).1
    exact h.exists_pruneVisit hvalid (hstays dir hreach.location?_eq names hnames) hvisit
  obtain ⟨d', heach, h⟩ := Store.exists_each_of_invariant hvisit ⟨hreach, .refl d, .refl d⟩
  exact ⟨d', prune_eq_ok_iff.2 ⟨dir, hreach.locate hvalid, heach⟩, h⟩

end PatchDirectory

end Patchwork
