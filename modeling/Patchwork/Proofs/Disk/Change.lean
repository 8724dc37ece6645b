import Patchwork.Proofs.Disk.Access
import Patchwork.Proofs.SortedMap

/-!
# What changes on a disk

An operation that succeeds changes one file (`SetsFile`) or none (`KeepsFiles`), whatever path it
was given. A directory goes only where it is removed for being empty.
-/
namespace Patchwork.Disk

variable {d e f : Disk} {l : Location}

def file? (d : Disk) (l : Location) : Option Content :=
  match d.node? l with
  | some (.file content) => some content
  | _ => none

theorem file?_eq_some_iff {content : Content} :
    d.file? l = some content ↔ d.node? l = some (.file content) := by
  unfold file?
  split <;> simp_all

theorem file?_of_directory (h : d.node? l = some .directory) : d.file? l = none := by
  rw [file?, h]

theorem file?_of_none (h : d.node? l = none) : d.file? l = none := by
  rw [file?, h]

theorem file?_of_node? {m : Location} (h : d.node? l = e.node? m) : d.file? l = e.file? m := by
  rw [file?, file?, h]

theorem nodeAt_eq_ok_iff {p : DiskPath} {node : Node} :
    d.nodeAt p = .ok node ↔ ∃ l, d.locate p = .ok l ∧ d.node? l = some node := by
  unfold nodeAt
  rw [Except.bind_eq_ok_iff]
  refine exists_congr fun l => and_congr_right fun _ => ?_
  cases d.node? l <;> simp

theorem holds_iff {p : DiskPath} :
    d.holds p = true ↔ ∃ l node, d.locate p = .ok l ∧ d.node? l = some node := by
  rw [holds]
  constructor
  · intro h
    split at h
    · rename_i node hnode
      obtain ⟨l, hl, hnode⟩ := nodeAt_eq_ok_iff.1 hnode
      exact ⟨l, node, hl, hnode⟩
    · cases h
  · rintro ⟨l, node, hl, hnode⟩
    rw [nodeAt_eq_ok_iff.2 ⟨l, hl, hnode⟩]

theorem holdsFile_iff {p : DiskPath} :
    d.holdsFile p = true ↔ ∃ l content, d.locate p = .ok l ∧ d.file? l = some content := by
  rw [holdsFile]
  constructor
  · intro h
    split at h
    · rename_i content hnode
      obtain ⟨l, hl, hnode⟩ := nodeAt_eq_ok_iff.1 hnode
      exact ⟨l, content, hl, file?_eq_some_iff.2 hnode⟩
    · cases h
  · rintro ⟨l, content, hl, hfile⟩
    rw [nodeAt_eq_ok_iff.2 ⟨l, hl, file?_eq_some_iff.1 hfile⟩]

theorem holdsDirectory_iff {p : DiskPath} :
    d.holdsDirectory p = true ↔ ∃ l, d.locate p = .ok l ∧ d.node? l = some .directory := by
  rw [holdsDirectory]
  constructor
  · intro h
    split at h
    · rename_i hnode
      exact nodeAt_eq_ok_iff.1 hnode
    · cases h
  · intro h
    rw [nodeAt_eq_ok_iff.2 h]

theorem content_eq_ok_iff {p : DiskPath} {content : Content} :
    d.content p = .ok content ↔ ∃ l, d.locate p = .ok l ∧ d.file? l = some content := by
  unfold Disk.content
  rw [Except.bind_eq_ok_iff]
  constructor
  · rintro ⟨node, hnode, h⟩
    obtain ⟨l, hl, hnode⟩ := nodeAt_eq_ok_iff.1 hnode
    split at h
    · cases h
      exact ⟨l, hl, file?_eq_some_iff.2 hnode⟩
    · cases h
  · rintro ⟨l, hl, hfile⟩
    exact ⟨.file content, nodeAt_eq_ok_iff.2 ⟨l, hl, file?_eq_some_iff.1 hfile⟩, rfl⟩

theorem exists_join_of_file? {p : DiskPath} {content : Content} (hl : d.locate p = .ok l)
    (hfile : d.file? l = some content) :
    ∃ (q : DiskPath) (name : FileName) (dir : Location),
      p = q.join ⟨name.text⟩ ∧ d.Reaches q dir ∧ l = dir ++ [name] := by
  obtain ⟨hvalid, hroute, hasks⟩ := locate_eq_ok_iff.1 hl
  have hasks : p.asksForDirectory = false := by
    rw [← Bool.not_eq_true]
    exact fun h => hasks h content (file?_eq_some_iff.1 hfile)
  rcases p.exists_join_or_steps_up hasks with ⟨q, name, rfl⟩ | ⟨front, hup⟩
  · have hl : d.locate (q.belowNames [name]) = .ok l := hl
    obtain ⟨-, dir, hdir, hfollow⟩ := (locate_belowNames_eq_ok_iff (by simp)).1 hl
    exact ⟨q, name, dir, rfl, hdir, (of_follow_into hfollow).1⟩
  · -- A step up leads to a directory.
    have hsteps := follow_steps hroute
    rw [hup, follow_append_eq_ok_iff] at hsteps
    obtain ⟨k, -, hfollow⟩ := hsteps
    obtain ⟨hk, m, hm, hdone⟩ := follow_cons_eq_ok_iff.1 hfollow
    obtain rfl := Except.ok.inj hdone
    rw [Location.step] at hm
    split_ifs at hm with hroot
    obtain rfl := Except.ok.inj hm
    obtain ⟨init, last, rfl⟩ := (List.eq_nil_or_concat' k).resolve_left hroot
    rw [List.dropLast_concat, file?_of_directory (node?_parent hk)] at hfile
    cases hfile

/-- A file lies in the directory of its path, under the name at the end. -/
theorem exists_reaches_directory {p : DiskPath} {content : Content} (hl : d.locate p = .ok l)
    (hfile : d.file? l = some content) :
    ∃ dir name, d.Reaches p.directory dir ∧ l = dir ++ [name] := by
  obtain ⟨q, name, dir, rfl, hdir, hname⟩ := exists_join_of_file? hl hfile
  exact ⟨dir, name, reaches_directory_join_iff.2 hdir, hname⟩

def KeepsFiles (d e : Disk) : Prop := ∀ l, e.file? l = d.file? l

theorem KeepsFiles.refl (d : Disk) : d.KeepsFiles d := fun _ => rfl

theorem KeepsFiles.trans (h : d.KeepsFiles e) (h' : e.KeepsFiles f) : d.KeepsFiles f :=
  fun l => (h' l).trans (h l)

structure Extends (d e : Disk) : Prop where
  files : d.KeepsFiles e
  directories : d.KeepsDirectories e

theorem Extends.refl (d : Disk) : d.Extends d := ⟨.refl d, .refl d⟩

theorem Extends.trans (h : d.Extends e) (h' : e.Extends f) : d.Extends f :=
  ⟨h.files.trans h'.files, h.directories.trans h'.directories⟩

/-- The file at a location is put or dropped. Other files stay, and so do the directories. -/
structure SetsFile (d e : Disk) (l : Location) (content : Option Content) : Prop where
  file?_eq : ∀ m, e.file? m = if m = l then content else d.file? m
  directories : d.KeepsDirectories e

theorem Extends.setsFile {content : Option Content} (h : d.Extends e) (hl : d.file? l = content) :
    d.SetsFile e l content := by
  refine ⟨fun m => ?_, h.directories⟩
  rw [h.files]
  split
  · rename_i hm
    rw [hm, hl]
  · rfl

theorem Extends.trans_setsFile {content : Option Content} (h : d.Extends e)
    (h' : e.SetsFile f l content) : d.SetsFile f l content :=
  ⟨fun m => by rw [h'.file?_eq, h.files], h.directories.trans h'.directories⟩

structure SetsFiles (d e : Disk) (changes : List (Location × Option Content)) : Prop where
  of_mem : ∀ c ∈ changes, e.file? c.1 = c.2
  of_notMem : ∀ l, (∀ c ∈ changes, l ≠ c.1) → e.file? l = d.file? l
  directories : d.KeepsDirectories e

theorem SetsFiles.nil (d : Disk) : d.SetsFiles d [] := ⟨nofun, fun _ _ => rfl, .refl d⟩

theorem SetsFile.cons {c : Location × Option Content} {changes : List (Location × Option Content)}
    (h : d.SetsFile e c.1 c.2) (h' : e.SetsFiles f changes)
    (hagree : ∀ c' ∈ changes, c'.1 = c.1 → c'.2 = c.2) : d.SetsFiles f (c :: changes) where
  of_mem := by
    refine List.forall_mem_cons.2 ⟨?_, h'.of_mem⟩
    by_cases hmem : ∃ c' ∈ changes, c'.1 = c.1
    · obtain ⟨c', hc', heq⟩ := hmem
      rw [← heq, h'.of_mem c' hc', hagree c' hc' heq]
    · rw [h'.of_notMem c.1 fun c' hc' heq => hmem ⟨c', hc', heq.symm⟩, h.file?_eq, if_pos rfl]
  of_notMem := by
    intro l hl
    obtain ⟨hne, hl⟩ := List.forall_mem_cons.1 hl
    rw [h'.of_notMem l hl, h.file?_eq, if_neg hne]
  directories := h.directories.trans h'.directories

/-! ## Entries that are put -/

theorem node?_of_putAt {node : Node} (h : d.putAt l node = .ok e) :
    (∀ m, e.node? m = if m = l then some node else d.node? m) ∧
      (node = .directory ∨ d.node? l ≠ some .directory) := by
  unfold putAt at h
  split at h
  · cases h
  · rename_i name hname
    have hl : l.dropLast ++ [name] = l := by
      obtain ⟨init, rfl⟩ := List.getLast?_eq_some_iff.1 hname
      simp
    split_ifs at h with hdir hkeep
    cases h
    rw [hl] at hkeep
    exact ⟨fun m => by rw [node?_put, hl], hkeep⟩

theorem setsFile_of_putAt {content : Content} (h : d.putAt l (.file content) = .ok e) :
    d.SetsFile e l (some content) := by
  obtain ⟨hnode, hkeep⟩ := node?_of_putAt h
  have hl : d.node? l ≠ some .directory := hkeep.resolve_left nofun
  constructor
  · intro m
    by_cases hm : m = l
    · rw [if_pos hm, file?_eq_some_iff, hnode, if_pos hm]
    · rw [if_neg hm]
      exact file?_of_node? (by rw [hnode, if_neg hm])
  · intro m hm
    have hne : m ≠ l := by
      rintro rfl
      exact hl hm
    rw [hnode, if_neg hne, hm]

theorem extends_of_putAt_directory (hl : d.node? l = none) (h : d.putAt l .directory = .ok e) :
    d.Extends e := by
  obtain ⟨hnode, -⟩ := node?_of_putAt h
  constructor
  · intro m
    by_cases hm : m = l
    · simp [file?, hnode, hm, hl]
    · exact file?_of_node? (by rw [hnode, if_neg hm])
  · intro m hm
    rw [hnode]
    split
    · rfl
    · exact hm

theorem extends_makeDirectoriesFrom (d : Disk) (l : Location) (made : Bool)
    (steps : List DiskPath.Step) : d.Extends (d.makeDirectoriesFrom l made steps).1 := by
  fun_induction makeDirectoriesFrom d l made steps with
  | case1 | case2 | case4 | case5 | case6 => exact .refl _
  | case3 d l made step steps m hm hnode ih => exact ih
  | case7 d l made step steps m hm hnode hsteps e hput ih =>
    exact (extends_of_putAt_directory hnode hput).trans ih

/-- Making directories leaves all files and directories as they are, even where it fails. -/
theorem extends_makeDirectories (d : Disk) (p : DiskPath) : d.Extends (d.makeDirectories p).1 := by
  unfold makeDirectories
  split
  · exact .refl d
  · split
    · exact .refl d
    · exact extends_makeDirectoriesFrom ..

theorem follow_of_makeDirectoriesFrom {made : Bool} {steps : List DiskPath.Step}
    (hl : d.node? l = some .directory) (h : d.makeDirectoriesFrom l made steps = (e, none)) :
    ∃ m, e.follow l steps = .ok m ∧ e.node? m = some .directory := by
  fun_induction makeDirectoriesFrom d l made steps with
  | case1 d l made =>
    obtain ⟨rfl, -⟩ := Prod.mk.inj h
    exact ⟨l, rfl, hl⟩
  | case2 | case4 | case5 | case6 => simp at h
  | case3 d l made step steps m hm hnode ih =>
    obtain ⟨k, hk, hdir⟩ := ih hnode h
    have hkeeps := (extends_makeDirectoriesFrom d m made steps).directories
    rw [h] at hkeeps
    exact ⟨k, follow_cons_eq_ok_iff.2 ⟨hkeeps l hl, m, hm, hk⟩, hdir⟩
  | case7 d l made step steps m hm hnode hsteps d₁ hput ih =>
    have hkeeps := (extends_makeDirectoriesFrom d₁ m true steps).directories
    rw [h] at hkeeps
    have hmade : d₁.node? m = some .directory := by rw [(node?_of_putAt hput).1, if_pos rfl]
    obtain ⟨k, hk, hdir⟩ := ih hmade h
    have hl₁ := (extends_of_putAt_directory hnode hput).directories l hl
    exact ⟨k, follow_cons_eq_ok_iff.2 ⟨hkeeps l hl₁, m, hm, hk⟩, hdir⟩

/-- The path of a directory that has been made leads to it. -/
theorem reaches_of_makeDirectories {p : DiskPath} (hp : p.fault? = none)
    (h : d.makeDirectories p = (e, none)) : ∃ dir, e.Reaches p dir := by
  have htext : p.text.isEmpty = false := by
    by_contra hempty
    unfold DiskPath.fault? at hp
    split_ifs at hp
    simp_all
  rw [makeDirectories, htext, hp] at h
  obtain ⟨dir, hdir, hnode⟩ := follow_of_makeDirectoriesFrom (node?_root d) h
  exact ⟨dir, follow_steps hdir, hnode⟩

theorem exists_putAt_of_putFile {p : DiskPath} {content : Content}
    (h : d.putFile p content = .ok e) :
    ∃ l, d.locate p = .ok l ∧ d.putAt l (.file content) = .ok e := by
  obtain ⟨l, hl, h⟩ := Except.bind_eq_ok_iff.1 h
  split_ifs at h
  exact ⟨l, hl, h⟩

theorem setsFile_of_putFile {p : DiskPath} {content : Content} (h : d.putFile p content = .ok e) :
    ∃ l, d.locate p = .ok l ∧ d.SetsFile e l (some content) := by
  obtain ⟨l, hl, hput⟩ := exists_putAt_of_putFile h
  exact ⟨l, hl, setsFile_of_putAt hput⟩

theorem setsFile_of_renameInto {p : DiskPath} {content : Content}
    (h : d.renameInto p content = .ok e) :
    ∃ l, d.locate p = .ok l ∧ d.SetsFile e l (some content) := by
  unfold renameInto at h
  split_ifs at h
  exact setsFile_of_putFile h

theorem content_of_putFile {p : DiskPath} {content : Content} (h : d.putFile p content = .ok e) :
    e.content p = .ok content := by
  obtain ⟨l, hl, hset⟩ := setsFile_of_putFile h
  obtain ⟨hvalid, hroute, -⟩ := locate_eq_ok_iff.1 hl
  have hasks : p.asksForDirectory = false := by
    obtain ⟨_, -, h⟩ := Except.bind_eq_ok_iff.1 h
    split_ifs at h with hdots hasks
    exact Bool.eq_false_iff.2 hasks
  refine content_eq_ok_iff.2 ⟨l, locate_eq_ok_iff.2 ⟨hvalid, hset.directories.follow hroute, ?_⟩,
    ?_⟩
  · rw [hasks]
    nofun
  · rw [hset.file?_eq, if_pos rfl]

theorem content_of_renameInto {p : DiskPath} {content : Content}
    (h : d.renameInto p content = .ok e) :
    e.content p = .ok content := by
  unfold renameInto at h
  split_ifs at h
  exact content_of_putFile h

/-! ## Entries that are dropped -/

/-- Where only the entry itself lies within a location, dropping it drops nothing else. -/
theorem node?_of_dropAt (hbelow : ∀ name rest, d.node? (l ++ name :: rest) = none)
    (h : d.dropAt l = .ok e) (m : Location) : e.node? m = if m = l then none else d.node? m := by
  unfold dropAt at h
  split_ifs at h
  cases h
  rw [node?_dropRegion]
  by_cases hm : l <+: m
  · obtain ⟨rest, rfl⟩ := hm
    cases rest with
    | nil => simp
    | cons name rest => simp [hbelow]
  · have hne : m ≠ l := by
      rintro rfl
      exact hm (List.prefix_refl _)
    rw [if_neg hm, if_neg hne]

theorem node?_of_dropFile {p : DiskPath} (h : d.dropFile p = .ok e) :
    ∃ l content, d.locate p = .ok l ∧ d.node? l = some (.file content) ∧
      ∀ m, e.node? m = if m = l then none else d.node? m := by
  obtain ⟨l, hl, h⟩ := Except.bind_eq_ok_iff.1 h
  split at h
  · cases h
  · cases h
  · rename_i content hfile
    refine ⟨l, content, hl, hfile, node?_of_dropAt (fun name rest => ?_) h⟩
    by_contra hbelow
    obtain ⟨node, hnode⟩ := Option.ne_none_iff_exists'.1 hbelow
    rw [node?_of_node?_append hnode] at hfile
    cases hfile

theorem setsFile_of_dropFile {p : DiskPath} (h : d.dropFile p = .ok e) :
    ∃ l, d.locate p = .ok l ∧ d.SetsFile e l none := by
  obtain ⟨l, content, hl, hfile, hnode⟩ := node?_of_dropFile h
  refine ⟨l, hl, fun m => ?_, fun m hm => ?_⟩
  · split
    · rename_i hm
      simp [file?, hnode, hm]
    · rename_i hm
      exact file?_of_node? (by rw [hnode, if_neg hm])
  · have hne : m ≠ l := by
      rintro rfl
      rw [hfile] at hm
      cases hm
    rw [hnode, if_neg hne, hm]

theorem missing_of_dropFile {p : DiskPath} (h : d.dropFile p = .error .notFound) :
    d.locate p = .error .notFound ∨ ∃ l, d.locate p = .ok l ∧ d.node? l = none := by
  rcases Except.bind_eq_error_iff.1 h with hl | ⟨l, hl, hnone⟩
  · exact .inl hl
  · refine .inr ⟨l, hl, ?_⟩
    split at hnone
    · assumption
    · cases hnone
    · unfold dropAt at hnone
      split_ifs at hnone
      cases hnone

theorem exists_of_hasEntries (h : d.hasEntries l = true) :
    ∃ name, d.node? (l ++ [name]) ≠ none := by
  obtain ⟨k, hk, hwithin⟩ := List.any_eq_true.1 h
  obtain ⟨node, hnode⟩ := SortedMap.mem_keys_iff.1 hk
  simp only [Bool.and_eq_true, decide_eq_true_eq, Location.isWithin_iff] at hwithin
  obtain ⟨hne, rest, rfl⟩ := hwithin
  cases rest with
  | nil => exact absurd (List.append_nil l) hne
  | cons name rest =>
    refine ⟨name, fun hnone => ?_⟩
    have hbelow := node?_of_prefix_of_none hnone ⟨rest, (List.append_cons ..).symm⟩
    rw [show d.node? (l ++ name :: rest) = some node from hnode] at hbelow
    cases hbelow

theorem node?_of_dropEmptyDirectory (h : d.dropEmptyDirectory l = .ok e) :
    d.node? l = some .directory ∧ ∀ m, e.node? m = if m = l then none else d.node? m := by
  unfold dropEmptyDirectory at h
  split at h
  · cases h
  · cases h
  · rename_i hdir
    split_ifs at h with hentries
    have hempty := hasEntries_eq_false (Bool.eq_false_iff.2 hentries)
    refine ⟨hdir, node?_of_dropAt (fun name rest => ?_) h⟩
    by_contra hbelow
    obtain ⟨node, hnode⟩ := Option.ne_none_iff_exists'.1 hbelow
    cases rest with
    | nil => rw [hempty] at hnode; cases hnode
    | cons name' rest =>
      rw [List.append_cons] at hnode
      have hchild := node?_of_node?_append hnode
      rw [hempty] at hchild
      cases hchild

theorem keepsFiles_of_dropEmptyDirectory (h : d.dropEmptyDirectory l = .ok e) : d.KeepsFiles e := by
  obtain ⟨hdir, hnode⟩ := node?_of_dropEmptyDirectory h
  intro m
  by_cases hm : m = l
  · simp [file?, hnode, hm, hdir]
  · exact file?_of_node? (by rw [hnode, if_neg hm])

end Patchwork.Disk
