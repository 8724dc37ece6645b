import Patchwork.Proofs.Disk.Change

/-!
# What changes in a region

An operation on one place of a disk leaves the rest as it is, but for missing directories on the way
to that place, which are made (`ChangesWithin`). So a path that does not lead there leads on where
it led, and what is found below it is the same as long as nothing changes there (`AgreesAt`).
-/
namespace Patchwork.Disk

variable {d e f : Disk} {l m : Location} {ls : Set Location}

/-- What lies at no location of a set and below none stays, except that missing directories above
one are made. -/
def ChangesWithin (d e : Disk) (ls : Set Location) : Prop :=
  ∀ m, (∀ l ∈ ls, ¬ l <+: m) → e.node? m = d.node? m ∨
    (∃ l ∈ ls, m <+: l) ∧ d.node? m = none ∧ e.node? m = some .directory

namespace ChangesWithin

theorem refl (d : Disk) (ls : Set Location) : d.ChangesWithin d ls := fun _ _ => .inl rfl

theorem trans (h : d.ChangesWithin e ls) (h' : e.ChangesWithin f ls) : d.ChangesWithin f ls := by
  intro m hm
  rcases h m hm with heq | ⟨habove, hnone, hmade⟩
  · rw [← heq]
    exact h' m hm
  · rcases h' m hm with heq' | ⟨-, hnone', -⟩
    · exact .inr ⟨habove, hnone, heq'.trans hmade⟩
    · rw [hmade] at hnone'
      cases hnone'

theorem mono {ks : Set Location} (h : d.ChangesWithin e ls) (hsub : ∀ l ∈ ls, ∃ k ∈ ks, k <+: l) :
    d.ChangesWithin e ks := by
  intro m hm
  have hout : ∀ l ∈ ls, ¬ l <+: m := by
    intro l hl hlm
    obtain ⟨k, hk, hkl⟩ := hsub l hl
    exact hm k hk (hkl.trans hlm)
  refine (h m hout).imp_right fun ⟨⟨l, hl, hml⟩, hmade⟩ => ?_
  obtain ⟨k, hk, hkl⟩ := hsub l hl
  have hmk := (List.prefix_or_prefix_of_prefix hml hkl).resolve_right (hm k hk)
  exact ⟨⟨k, hk, hmk⟩, hmade⟩

/-- Nothing changes apart from the regions and what leads to them. -/
theorem node?_eq (h : d.ChangesWithin e ls) (hapart : ∀ l ∈ ls, ¬ l <+: m ∧ ¬ m <+: l) :
    e.node? m = d.node? m := by
  rcases h m fun l hl => (hapart l hl).1 with heq | ⟨⟨l, hl, hml⟩, -⟩
  · exact heq
  · exact absurd hml (hapart l hl).2

theorem node?_append_eq (h : d.ChangesWithin e ls) (hapart : ∀ l ∈ ls, ¬ l <+: m ∧ ¬ m <+: l)
    (names : Location) : e.node? (m ++ names) = d.node? (m ++ names) := by
  refine h.node?_eq fun l hl => ⟨fun hlm => ?_, fun hml => ?_⟩
  · rcases List.prefix_or_prefix_of_prefix hlm (List.prefix_append m names) with hle | hle
    · exact (hapart l hl).1 hle
    · exact (hapart l hl).2 hle
  · exact (hapart l hl).2 ((List.prefix_append m names).trans hml)

theorem node?_eq_of_ne_none (h : d.ChangesWithin e {l}) (hl : d.node? l ≠ none) (hm : ¬ l <+: m) :
    e.node? m = d.node? m := by
  rcases h m fun k hk => hk ▸ hm with heq | ⟨⟨k, rfl, hmk⟩, hnone, -⟩
  · exact heq
  · exact absurd (node?_of_prefix_of_none hnone hmk) hl

theorem file?_eq (h : d.ChangesWithin e ls) (hm : ∀ l ∈ ls, ¬ l <+: m) : e.file? m = d.file? m := by
  rcases h m hm with heq | ⟨-, hnone, hmade⟩
  · exact file?_of_node? heq
  · rw [file?, file?, hnone, hmade]

theorem directory (h : d.ChangesWithin e ls) (hm : ∀ l ∈ ls, ¬ l <+: m)
    (hdir : d.node? m = some .directory) : e.node? m = some .directory := by
  rcases h m hm with heq | ⟨-, hnone, -⟩
  · rw [heq, hdir]
  · rw [hdir] at hnone
    cases hnone

end ChangesWithin

/-! ## Making directories -/

theorem makeDirectoriesFrom_append {steps rest : List DiskPath.Step} {made : Bool}
    (h : d.follow l steps = .ok m) (hm : d.node? m = some .directory) :
    d.makeDirectoriesFrom l made (steps ++ rest) = d.makeDirectoriesFrom m made rest := by
  induction steps generalizing l with
  | nil =>
    obtain rfl := Except.ok.inj h
    rfl
  | cons step steps ih =>
    obtain ⟨-, k, hk, h⟩ := follow_cons_eq_ok_iff.1 h
    have hdir : d.node? k = some .directory := by
      cases steps with
      | nil => exact Except.ok.inj h ▸ hm
      | cons next steps => exact (follow_cons_eq_ok_iff.1 h).1
    rw [List.cons_append, makeDirectoriesFrom, hk]
    dsimp only
    rw [hdir]
    exact ih h

theorem Reaches.makeDirectories_eq {p : DiskPath} (h : d.Reaches p l) (hvalid : p.fault? = none) :
    d.makeDirectories p = (d, none) := by
  have hmade : ∀ rest, rest = [] ∨ rest = [.here] →
      d.makeDirectoriesFrom [] false (p.steps ++ rest) = (d, none) := by
    intro rest hrest
    rw [makeDirectoriesFrom_append h.leads h.isDirectory]
    rcases hrest with rfl | rfl
    · rfl
    · simp [makeDirectoriesFrom, Location.step, h.isDirectory]
  have htext : p.text.isEmpty = false := by simpa using (fault?_eq_none_iff.1 hvalid).2.1
  rw [makeDirectories, htext, hvalid]
  rcases p.route_eq with hroute | hroute
  · simpa [hroute] using hmade [] (.inl rfl)
  · rw [hroute]
    exact hmade _ (.inr rfl)

/-- Directories are made along names, and nothing else. A `.` behind them makes no difference. -/
theorem node?_makeDirectoriesFrom {names : Location} {rest : List DiskPath.Step} (made : Bool)
    (hrest : rest = [] ∨ rest = [.here]) (hm : ¬(l <+: m ∧ m <+: l ++ names)) :
    (d.makeDirectoriesFrom l made (names.map .into ++ rest)).1.node? m = d.node? m := by
  induction names generalizing d l made with
  | nil =>
    rcases hrest with rfl | rfl
    · rfl
    · have hne : m ≠ l := by
        rintro rfl
        exact hm (by simp)
      rw [List.map_nil, List.nil_append, makeDirectoriesFrom]
      simp only [Location.step]
      split
      · rfl
      · rfl
      · split
        · rfl
        · split
          · rfl
          · rename_i e hput
            exact ((node?_of_putAt hput).1 m).trans (if_neg hne)
  | cons name names ih =>
    have hk : ¬(l ++ [name] <+: m ∧ m <+: l ++ [name] ++ names) := by
      rintro ⟨hkm, hmk⟩
      rw [← List.append_cons] at hmk
      exact hm ⟨(List.prefix_append l [name]).trans hkm, hmk⟩
    have hne : m ≠ l ++ [name] := by
      rintro rfl
      exact hk ⟨List.prefix_refl _, List.prefix_append _ _⟩
    rw [List.map_cons, List.cons_append, makeDirectoriesFrom]
    cases hstep : l.step (.into name) with
    | error fault => rfl
    | ok k =>
      obtain ⟨-, rfl⟩ := step_into_eq_ok_iff.1 hstep
      dsimp only
      split
      · exact ih made hk
      · rfl
      · split
        · rfl
        · split
          · rfl
          · rename_i e hput
            rw [ih true hk, (node?_of_putAt hput).1, if_neg hne]

/-- Apart from some regions, nothing changes but that missing directories are made that a path leads
through. -/
def MakesWay (d e : Disk) (p : DiskPath) (ls : Set Location) : Prop :=
  ∀ m, (∀ l ∈ ls, ¬ l <+: m) → e.node? m = d.node? m ∨
    p.LeadsThrough m ∧ d.node? m = none ∧ e.node? m = some .directory

namespace MakesWay

variable {p : DiskPath}

theorem file?_eq (h : d.MakesWay e p ls) (hm : ∀ l ∈ ls, ¬ l <+: m) : e.file? m = d.file? m := by
  rcases h m hm with heq | ⟨-, hnone, hmade⟩
  · exact file?_of_node? heq
  · rw [file?_of_none hnone, file?_of_directory hmade]

theorem keepsFiles (h : d.MakesWay e p ∅) : d.KeepsFiles e := fun _ => h.file?_eq nofun

theorem of_node?_eq (h : d.MakesWay e p ∅)
    (hother : ∀ m, (∀ l ∈ ls, ¬ l <+: m) → f.node? m = e.node? m) :
    d.MakesWay f p ls := by
  intro m hm
  rw [hother m hm]
  exact h m nofun

end MakesWay

theorem of_makeDirectoriesFrom (d : Disk) (l : Location) (made : Bool) (steps : List DiskPath.Step)
    (m : Location) :
    (d.makeDirectoriesFrom l made steps).1.node? m = d.node? m ∨
      (∃ front ∈ steps.inits, l.walk front = .ok m) ∧ d.node? m = none ∧
        (d.makeDirectoriesFrom l made steps).1.node? m = some .directory := by
  have hcons : ∀ {l k : Location} {step : DiskPath.Step} {steps : List DiskPath.Step},
      l.step step = .ok k → (∃ front ∈ steps.inits, k.walk front = .ok m) →
      ∃ front ∈ (step :: steps).inits, l.walk front = .ok m := by
    rintro l k step steps hk ⟨front, hfront, hm⟩
    exact ⟨step :: front, by simpa using hfront, Except.bind_eq_ok_iff.2 ⟨k, hk, hm⟩⟩
  fun_induction makeDirectoriesFrom d l made steps with
  | case1 | case2 | case4 | case5 | case6 => exact .inl rfl
  | case3 d l made step steps k hk hnode ih => exact ih.imp_right (And.imp_left (hcons hk))
  | case7 d l made step steps k hk hnode hsteps e hput ih =>
    have hmade := (node?_of_putAt hput).1 m
    split_ifs at hmade with hm
    · subst hm
      have hkept := (extends_makeDirectoriesFrom e m true steps).directories m hmade
      exact .inr ⟨hcons hk ⟨[], by simp, rfl⟩, hnode, hkept⟩
    · rw [← hmade]
      exact ih.imp_right (And.imp_left (hcons hk))

theorem makesWay_makeDirectories (d : Disk) (p : DiskPath) :
    d.MakesWay (d.makeDirectories p).1 p ∅ := by
  intro m _
  unfold makeDirectories
  split
  · exact .inl rfl
  · split
    · exact .inl rfl
    · refine (d.of_makeDirectoriesFrom [] false p.route m).imp_right fun ⟨⟨front, hfront, hm⟩, h⟩ =>
        ⟨?_, h⟩
      rcases p.route_eq with hroute | hroute
      · exact ⟨front, hroute ▸ hfront, hm⟩
      · rw [hroute, List.mem_inits, List.prefix_concat_iff] at hfront
        rcases hfront with rfl | hfront
        · rw [Location.walk_append] at hm
          obtain ⟨k, hk, hhere⟩ := Except.bind_eq_ok_iff.1 hm
          exact ⟨p.steps, by simp, hk.trans hhere⟩
        · exact ⟨front, (List.mem_inits _ _).2 hfront, hm⟩

variable {p : DiskPath} {dir names : Location} {name : FileName}

/-- The route of the directory of a place leads to where the names start, and then along them. -/
theorem exists_route_directory (hp : d.Reaches p dir) (names : Location) (name : FileName) :
    ∃ steps rest,
      ((p.belowNames names).join ⟨name.text⟩).directory.route = steps ++ (names.map .into ++ rest) ∧
        d.follow [] steps = .ok dir ∧ (rest = [] ∨ rest = [.here]) := by
  obtain ⟨rest, hroute, hrest⟩ : ∃ rest, ((p.belowNames names).join ⟨name.text⟩).directory.route =
      ((p.belowNames names).join ⟨name.text⟩).directory.steps ++ rest ∧
        (rest = [] ∨ rest = [.here]) := by
    rcases ((p.belowNames names).join ⟨name.text⟩).directory.route_eq with h | h
    · exact ⟨[], by rw [h, List.append_nil], .inl rfl⟩
    · exact ⟨_, h, .inr rfl⟩
  rw [hroute]
  rcases (p.belowNames names).steps_directory_join name with hsteps | ⟨hempty, hsteps⟩
  · rw [hsteps, p.steps_belowNames, List.append_assoc]
    exact ⟨_, rest, rfl, hp.leads, hrest⟩
  · rw [p.steps_belowNames, List.append_eq_nil_iff, List.map_eq_nil_iff] at hempty
    obtain ⟨hp', rfl⟩ := hempty
    have hdir : d.follow [] [.here] = .ok dir := by
      rw [← hp.leads, hp']
      simp [follow, Location.step]
    rw [hsteps]
    exact ⟨_, rest, rfl, hdir, hrest⟩

/-- Making the directory of a place below one that is reached makes directories along the names, no
others. -/
theorem node?_makeDirectories_directory (hp : d.Reaches p dir)
    (hm : ¬(dir <+: m ∧ m <+: dir ++ names)) :
    (d.makeDirectories (p.belowNames (names ++ [name])).directory).1.node? m = d.node? m := by
  rw [p.belowNames_concat]
  unfold makeDirectories
  split
  · rfl
  · split
    · rfl
    · obtain ⟨steps, rest, hroute, hsteps, hrest⟩ :=
        exists_route_directory hp names name
      rw [hroute, makeDirectoriesFrom_append hsteps hp.isDirectory]
      exact node?_makeDirectoriesFrom false hrest hm

theorem changesWithin_makeDirectories (hp : d.Reaches p dir) (names : Location) (name : FileName) :
    d.ChangesWithin (d.makeDirectories (p.belowNames (names ++ [name])).directory).1
      {dir ++ (names ++ [name])} := by
  intro m _
  by_cases hway : dir <+: m ∧ m <+: dir ++ names
  · have hextends := d.extends_makeDirectories (p.belowNames (names ++ [name])).directory
    cases hnode : d.node? m with
    | some node =>
      left
      cases node with
      | directory => rw [hextends.directories m hnode]
      | file content => rw [← file?_eq_some_iff, hextends.files, file?_eq_some_iff.2 hnode]
    | none =>
      have hfile := hextends.files m
      rw [file?, file?, hnode] at hfile
      split at hfile
      · cases hfile
      · rename_i hno
        have habove : m <+: dir ++ (names ++ [name]) := by
          rw [← List.append_assoc]
          exact hway.2.trans (List.prefix_append _ _)
        rcases hmade : (d.makeDirectories (p.belowNames (names ++ [name])).directory).1.node? m with
          _ | content | _
        · exact .inl rfl
        · exact absurd hmade (hno content)
        · exact .inr ⟨⟨_, rfl, habove⟩, rfl, rfl⟩
  · exact .inl (node?_makeDirectories_directory hp hway)

/-- The file at a location is put or dropped, and missing directories above it are made. -/
structure Replaces (d e : Disk) (l : Location) (content : Option Content) : Prop where
  within : d.ChangesWithin e {l}
  node?_eq : e.node? l = content.map .file
  directories : d.KeepsDirectories e

theorem Replaces.setsFile {content : Option Content} (h : d.Replaces e l content) :
    d.SetsFile e l content := by
  have hnot : e.node? l ≠ some .directory := by
    rw [h.node?_eq]
    cases content <;> simp
  refine ⟨fun m => ?_, h.directories⟩
  split_ifs with hm
  · subst hm
    rw [file?, h.node?_eq]
    cases content <;> rfl
  · by_cases hlm : l <+: m
    · obtain ⟨names, rfl⟩ := hlm
      obtain ⟨name, rest, rfl⟩ :=
        List.exists_cons_of_ne_nil (fun hnil : names = [] => hm (by simp [hnil]))
      -- A file below would lie in a directory, which is kept.
      have hnone : ∀ f : Disk, f.node? l ≠ some .directory →
          f.file? (l ++ name :: rest) = none := by
        intro f hf
        rw [Option.eq_none_iff_forall_ne_some]
        exact fun content hfile => hf (node?_of_node?_append (file?_eq_some_iff.1 hfile))
      rw [hnone e hnot, hnone d fun hdir => hnot (h.directories l hdir)]
    · exact h.within.file?_eq fun _ hl => hl ▸ hlm

/-- A file that is put below a directory that is reached changes its own place only. -/
theorem Reaches.replaces_of_putFile {content : Content} (hp : d.Reaches p dir) (hnames : names ≠ [])
    (h : d.putFile (p.belowNames names) content = .ok e) :
    d.Replaces e (dir ++ names) (some content) := by
  obtain ⟨l, hl, hput⟩ := exists_putAt_of_putFile h
  obtain rfl := hp.eq_of_locate hnames hl
  obtain ⟨hnode, -⟩ := node?_of_putAt hput
  refine ⟨fun m hm => .inl ?_, by rw [hnode, if_pos rfl]; rfl, (setsFile_of_putAt hput).directories⟩
  rw [hnode, if_neg]
  rintro rfl
  exact hm _ rfl (List.prefix_refl _)

theorem Reaches.exists_putFile (hp : d.Reaches p dir)
    (hl : d.locate (p.join ⟨name.text⟩) = .ok (dir ++ [name]))
    (hnode : d.node? (dir ++ [name]) ≠ some .directory) (content : Content) :
    ∃ e, d.putFile (p.join ⟨name.text⟩) content = .ok e := by
  have hdots : (p.join ⟨name.text⟩).endsInDots = false := by
    rw [DiskPath.endsInDots, DiskPath.lastSegment?_join]
    simpa using ⟨name.isFileName.2.1, name.isFileName.2.2.1⟩
  rw [Disk.putFile, hl]
  dsimp only [bind, Except.bind]
  rw [hdots, p.asksForDirectory_join]
  simp [putAt, hp.isDirectory, hnode]

/-! ## What is found below a path -/

theorem follow_into_congr (h : ∀ names, e.node? (l ++ names) = d.node? (l ++ names))
    (names : Location) :
    e.follow l (names.map .into) = d.follow l (names.map .into) := by
  induction names generalizing l with
  | nil => rfl
  | cons name names ih =>
    have hl : e.node? l = d.node? l := by simpa using h []
    rw [List.map_cons, follow, follow, hl]
    split
    · rfl
    · rfl
    · cases hstep : l.step (.into name) with
      | error fault => rfl
      | ok k =>
        obtain ⟨-, rfl⟩ := step_into_eq_ok_iff.1 hstep
        exact ih fun rest => by simpa using h (name :: rest)

structure AgreesAt (d e : Disk) (p : DiskPath) (l : Location) : Prop where
  left : d.locate p = .ok l
  right : e.locate p = .ok l
  node?_eq : ∀ names, e.node? (l ++ names) = d.node? (l ++ names)

namespace AgreesAt

variable {p : DiskPath}

theorem nodeAt_eq (h : d.AgreesAt e p l) (names : Location) :
    e.nodeAt (p.belowNames names) = d.nodeAt (p.belowNames names) := by
  have hlocate : e.locate (p.belowNames names) = d.locate (p.belowNames names) ∧
      ∀ m, d.locate (p.belowNames names) = .ok m → m = l ++ names := by
    by_cases hnames : names = []
    · subst hnames
      refine ⟨h.right.trans h.left.symm, fun m hm => ?_⟩
      rw [List.append_nil, Except.ok.inj (hm.symm.trans h.left)]
    · cases hfault : (p.belowNames names).fault? with
      | some fault =>
        rw [locate_of_fault? hfault, locate_of_fault? hfault]
        exact ⟨rfl, nofun⟩
      | none =>
        have hfollow : ∀ f : Disk, f.locate p = .ok l →
            f.locate (p.belowNames names) = f.follow l (names.map .into) := by
          intro f hf
          rw [locate_eq_follow hfault (p.asksForDirectory_belowNames hnames),
            p.route_belowNames hnames,
            follow_append, follow_steps (locate_eq_ok_iff.1 hf).2.1]
          rfl
        rw [hfollow d h.left, hfollow e h.right, follow_into_congr h.node?_eq]
        exact ⟨rfl, fun m hm => (of_follow_into hm).1⟩
  obtain ⟨heq, hplace⟩ := hlocate
  rw [nodeAt, nodeAt, heq]
  cases hm : d.locate (p.belowNames names) with
  | error fault => rfl
  | ok m =>
    obtain rfl := hplace m hm
    simp only [bind, Except.bind, h.node?_eq]

theorem content_eq (h : d.AgreesAt e p l) (names : Location) :
    e.content (p.belowNames names) = d.content (p.belowNames names) := by
  rw [Disk.content, Disk.content, h.nodeAt_eq]

end AgreesAt

/-- Disks agree at what is there below a directory that both reach, if they hold the same there. -/
theorem Reaches.agreesAt {p : DiskPath} {dir names : Location} (hp : d.Reaches p dir)
    (hp' : e.Reaches p dir) (hnames : names ≠ [])
    (hnode : ∀ rest, e.node? (dir ++ names ++ rest) = d.node? (dir ++ names ++ rest))
    (hl : d.locate (p.belowNames names) = .ok l) (hl' : d.node? l ≠ none) :
    d.AgreesAt e (p.belowNames names) (dir ++ names) := by
  obtain rfl := hp.eq_of_locate hnames hl
  obtain ⟨node, hsome⟩ := Option.ne_none_iff_exists'.1 hl'
  have hplace : e.node? (dir ++ names) = some node := by simpa [hsome] using hnode []
  exact ⟨hl, hp'.locate_belowNames hnames hl hplace, hnode⟩

/-! ## Walking a region -/

theorem walk_congr (h : ∀ names, e.node? (l ++ names) = d.node? (l ++ names)) :
    e.walk l = d.walk l := by
  have hwalk : ∀ d : Disk, d.walk l =
      (d.nodes.filter fun m _ => m.isWithin l).toList.map fun e => (e.1.drop l.length, e.2) := by
    intro d
    rw [walk, SortedMap.filter, ← List.filterMap_eq_map, List.filterMap_filter]
    refine List.filterMap_congr fun e _ => ?_
    rw [Location.relativeTo?]
    split <;> rfl
  have hnodes : (e.nodes.filter fun m _ => m.isWithin l) = d.nodes.filter
      fun m _ => m.isWithin l := by
    apply SortedMap.ext_get?
    intro m
    rw [SortedMap.get?_filter, SortedMap.get?_filter]
    by_cases hm : l <+: m
    · obtain ⟨names, rfl⟩ := hm
      exact congrArg _ (h names)
    · have hout : m.isWithin l = false := by simpa [← Bool.not_eq_true] using hm
      rw [hout]
      cases e.nodes.get? m <;> cases d.nodes.get? m <;> simp
  rw [hwalk, hwalk, hnodes]

/-! ## Moving a region -/

theorem node?_ne_none_of_moveTo {src dst : Location} (h : d.moveTo src dst = .ok e) :
    d.node? src ≠ none := by
  intro hnone
  rw [moveTo, hnone] at h
  cases h

/-- A region that is moved is found at its new place, and nowhere else. -/
theorem node?_of_moveTo {src dst : Location} (h : d.moveTo src dst = .ok e) (hne : src ≠ dst) :
    (∀ names, e.node? (dst ++ names) = d.node? (src ++ names)) ∧
      ∀ m, ¬ dst <+: m → e.node? m = if src <+: m then none else d.node? m := by
  unfold moveTo at h
  split at h
  · cases h
  · cases h
  · rename_i node name hnode hname
    obtain ⟨init, rfl⟩ := List.getLast?_eq_some_iff.1 hname
    rw [if_neg hne] at h
    split_ifs at h
    cases h
    simp only [node?_moveRegion, List.dropLast_concat]
    refine ⟨fun names => ?_, fun m hm => ?_⟩
    · rw [Location.relativeTo?_eq_some_iff.2 rfl]
    · have hout : Location.relativeTo? m (init ++ [name]) = none := by
        rw [Option.eq_none_iff_forall_ne_some]
        rintro rest hrest
        exact hm ⟨rest, (Location.relativeTo?_eq_some_iff.1 hrest).symm⟩
      rw [hout]

theorem exists_moveTo {src dir : Location} {name : FileName} {node : Node}
    (hsrc : d.node? src = some node) (hfree : d.node? (dir ++ [name]) = none)
    (hdir : d.node? dir = some .directory) (hout : ¬ src <+: dir) :
    ∃ e, d.moveTo src (dir ++ [name]) = .ok e := by
  have hempty : d.hasEntries (dir ++ [name]) = false := by
    rw [← Bool.not_eq_true]
    intro hentries
    obtain ⟨next, hnext⟩ := exists_of_hasEntries hentries
    exact hnext (node?_of_prefix_of_none hfree (List.prefix_append _ _))
  have hne : src ≠ dir ++ [name] := by
    rintro rfl
    rw [hfree] at hsrc
    cases hsrc
  have hroot : src ≠ [] := by
    rintro rfl
    exact hout List.nil_prefix
  unfold moveTo
  rw [hsrc, List.getLast?_concat]
  simp [hne, hfree, hroot, hout, hdir, hempty]

theorem not_prefix_of_moveTo {src dst : Location} (h : d.moveTo src dst = .ok e) (hne : src ≠ dst) :
    src ≠ [] ∧ ¬ src <+: dst := by
  unfold moveTo at h
  split at h
  · cases h
  · cases h
  · rename_i node name hnode hname
    obtain ⟨init, rfl⟩ := List.getLast?_eq_some_iff.1 hname
    rw [if_neg hne] at h
    split_ifs at h with _ _ hroot hout
    refine ⟨hroot, fun hprefix => hout ?_⟩
    rw [List.dropLast_concat]
    exact (List.prefix_concat_iff.1 hprefix).resolve_left hne

/-- A region that was moved to a place where nothing was can be moved back. -/
theorem moveTo_back {src dst : Location} (h : d.moveTo src dst = .ok e)
    (hfree : d.node? dst = none) :
    e.moveTo dst src = .ok d := by
  obtain ⟨node, hnode⟩ := Option.ne_none_iff_exists'.1 (node?_ne_none_of_moveTo h)
  have hapart : ¬ dst <+: src := fun hprefix => by
    rw [node?_of_prefix_of_none hfree hprefix] at hnode
    cases hnode
  have hne : src ≠ dst := fun heq => hapart (heq ▸ List.prefix_refl _)
  obtain ⟨hat, hother⟩ := node?_of_moveTo h hne
  obtain ⟨hroot, hapart'⟩ := not_prefix_of_moveTo h hne
  obtain ⟨dir, name, rfl⟩ := (List.eq_nil_or_concat' src).resolve_left hroot
  have hdir : e.node? dir = some .directory := by
    rw [hother dir fun hle => hapart (hle.trans (List.prefix_append _ _)), if_neg,
      node?_parent hnode]
    intro hprefix
    have hlength := hprefix.length_le
    rw [List.length_append, List.length_singleton] at hlength
    omega
  have hmoved : e.node? dst = some node := by simpa [hnode] using hat []
  have hleft : e.node? (dir ++ [name]) = none := by
    rw [hother _ hapart, if_pos (List.prefix_refl _)]
  obtain ⟨f, hback⟩ := exists_moveTo hmoved hleft hdir fun hle =>
    hapart (hle.trans (List.prefix_append _ _))
  obtain ⟨hat', hother'⟩ := node?_of_moveTo hback hne.symm
  rw [hback]
  refine congrArg Except.ok (ext_node? fun m => ?_)
  by_cases hm : dir ++ [name] <+: m
  · obtain ⟨names, rfl⟩ := hm
    rw [hat', hat]
  · rw [hother' m hm]
    split_ifs with hdst
    · exact (node?_of_prefix_of_none hfree hdst).symm
    · rw [hother m hdst, if_neg hm]

/-- What is moved is what the paths lead to, and both end in names. -/
theorem move_eq_ok_iff {p q : DiskPath} :
    d.move p q = .ok e ↔ (p.endsInDots = false ∧ q.endsInDots = false) ∧
      ∃ src dst, d.locate p = .ok src ∧ d.locate q = .ok dst ∧ d.moveTo src dst = .ok e := by
  unfold move
  rw [← Bool.or_eq_false_iff]
  simp only [Except.bind_eq_ok_iff]
  cases p.endsInDots || q.endsInDots <;> simp

end Patchwork.Disk
