import Mathlib.Data.List.Infix
import Patchwork.Disk.Access
import Patchwork.Proofs.Disk.Path
import Patchwork.Proofs.Outcome

/-!
# What a path leads to

A walk visits exactly the nodes below its start, in their order (`mem_walk_iff`, `pairwise_walk`).
Where steps lead does not depend on the disk, which only decides whether they can be taken; so a
path that reaches a directory leads there as long as directories stay (`Reaches`), and the names
below it lead to the entries below (`locate_belowNames`).
-/
namespace Patchwork

def Location.walk (l : Location) : List DiskPath.Step → Except DiskFault Location
  | [] => .ok l
  | step :: steps => do (← l.step step).walk steps

theorem Location.walk_append (l : Location) (steps steps' : List DiskPath.Step) :
    l.walk (steps ++ steps') = l.walk steps >>= fun k => k.walk steps' := by
  induction steps generalizing l with
  | nil => rfl
  | cons step steps ih =>
    rw [List.cons_append, walk, walk]
    cases l.step step with
    | error fault => rfl
    | ok k => exact ih k

theorem Location.compare_append (dir a b : Location) :
    compare (dir ++ a) (dir ++ b) = compare a b := by
  induction dir with
  | nil => rfl
  | cons name dir ih => simp [List.compare_cons_cons, Std.ReflCmp.compare_self, ih]

/-- The location that a path leads to if it can be followed. -/
def DiskPath.location? (p : DiskPath) : Option Location := (Location.walk [] p.steps).toOption

theorem DiskPath.location?_eq_some_iff {p : DiskPath} {l : Location} :
    p.location? = some l ↔ Location.walk [] p.steps = .ok l := by
  rw [location?]
  cases Location.walk [] p.steps <;> simp [Except.toOption]

def DiskPath.LeadsThrough (p : DiskPath) (l : Location) : Prop :=
  ∃ steps ∈ p.steps.inits, Location.walk [] steps = .ok l

/-- Wherever the path leads on its way, it is not to a location or below it. -/
def DiskPath.LeadsPast (p : DiskPath) (l : Location) : Prop :=
  ∀ steps ∈ p.steps.inits, ∀ m, Location.walk [] steps = .ok m → ¬ l <+: m

instance (p : DiskPath) (l : Location) : Decidable (p.LeadsPast l) :=
  inferInstanceAs (Decidable (∀ steps ∈ p.steps.inits, ∀ m,
    Location.walk [] steps = .ok m → ¬ l <+: m))

/-- The directory of a place is reached without going through the place itself, so it is still
reached once that is set aside. A path that ends in dots names nothing that could be set aside. -/
def DiskPath.LeadsPastItself (p : DiskPath) : Prop :=
  p.endsInDots = false → ∀ l ∈ p.location?, p.directory.LeadsPast l

instance (p : DiskPath) : Decidable p.LeadsPastItself :=
  inferInstanceAs (Decidable (p.endsInDots = false → ∀ l ∈ p.location?, p.directory.LeadsPast l))

theorem DiskPath.LeadsPast.of_prefix {p : DiskPath} {l m : Location} (h : p.LeadsPast l)
    (hlm : l <+: m) :
    p.LeadsPast m :=
  fun steps hsteps k hk hmk => h steps hsteps k hk (hlm.trans hmk)

namespace Disk

variable {d e : Disk}

theorem mem_walk_iff {dir names : Location} {node : Node} :
    (names, node) ∈ d.walk dir ↔ d.node? (dir ++ names) = some node := by
  unfold walk node?
  rw [List.mem_filterMap, SortedMap.get?_eq_some_iff]
  constructor
  · rintro ⟨⟨l, node'⟩, hmem, hwalk⟩
    obtain ⟨names', hrel, heq⟩ := Option.map_eq_some_iff.1 hwalk
    obtain ⟨rfl, rfl⟩ := Prod.mk.inj heq
    rwa [← Location.relativeTo?_eq_some_iff.1 hrel]
  · intro hmem
    exact ⟨_, hmem, by simp [Location.relativeTo?_eq_some_iff.2 rfl]⟩

theorem forall_mem_walk_iff {dir : Location} {motive : Location → Prop} :
    (∀ e ∈ d.walk dir, motive e.1) ↔ ∀ names, d.node? (dir ++ names) ≠ none → motive names := by
  constructor
  · intro h names hnode
    obtain ⟨node, hnode⟩ := Option.ne_none_iff_exists'.1 hnode
    exact h (names, node) (mem_walk_iff.2 hnode)
  · rintro h ⟨names, node⟩ hmem
    exact h names (by simp [mem_walk_iff.1 hmem])

theorem pairwise_walk {dir : Location} :
    (d.walk dir).Pairwise fun a b => compare a.1 b.1 = .lt := by
  unfold walk
  rw [List.pairwise_filterMap]
  refine d.nodes.sorted.imp fun {x y} hxy a ha b hb => ?_
  obtain ⟨names, hx, rfl⟩ := Option.map_eq_some_iff.1 ha
  obtain ⟨names', hy, rfl⟩ := Option.map_eq_some_iff.1 hb
  rwa [Location.relativeTo?_eq_some_iff.1 hx, Location.relativeTo?_eq_some_iff.1 hy,
    Location.compare_append] at hxy

theorem pairwise_filterMap_walk {dir : Location} {pick : Location × Node → Option Location}
    (hpick : ∀ e names, pick e = some names → e.1 = names) :
    ((d.walk dir).filterMap pick).Pairwise fun a b => compare a b = .lt := by
  rw [List.pairwise_filterMap]
  refine d.pairwise_walk.imp fun {x y} hxy a ha b hb => ?_
  rwa [hpick x a ha, hpick y b hb] at hxy

theorem node?_of_prefix_of_none {l m : Location} (h : d.node? l = none) (hlm : l <+: m) :
    d.node? m = none := by
  obtain ⟨rest, rfl⟩ := hlm
  by_contra hsome
  obtain ⟨node, hsome⟩ := Option.ne_none_iff_exists'.1 hsome
  cases rest with
  | nil => rw [List.append_nil, h] at hsome; cases hsome
  | cons name rest => rw [node?_of_node?_append hsome] at h; cases h

/-! ## Following steps -/

def KeepsDirectories (d e : Disk) : Prop :=
  ∀ l, d.node? l = some .directory → e.node? l = some .directory

theorem KeepsDirectories.refl (d : Disk) : d.KeepsDirectories d := fun _ h => h

theorem KeepsDirectories.trans {f : Disk} (h : d.KeepsDirectories e) (h' : e.KeepsDirectories f) :
    d.KeepsDirectories f := fun l hl => h' l (h l hl)

theorem follow_cons_eq_ok_iff {l m : Location} {step : DiskPath.Step} {steps : List DiskPath.Step} :
    d.follow l (step :: steps) = .ok m ↔
      d.node? l = some .directory ∧ ∃ k, l.step step = .ok k ∧ d.follow k steps = .ok m := by
  rw [follow]
  split
  · simp_all
  · simp_all
  · cases l.step step <;> simp_all

theorem follow_append (l : Location) (steps steps' : List DiskPath.Step) :
    d.follow l (steps ++ steps') = d.follow l steps >>= fun k => d.follow k steps' := by
  induction steps generalizing l with
  | nil => rfl
  | cons step steps ih =>
    rw [List.cons_append, follow, follow]
    split
    · rfl
    · rfl
    · cases l.step step with
      | error fault => rfl
      | ok k => exact ih k

theorem follow_append_eq_ok_iff {l m : Location} {steps steps' : List DiskPath.Step} :
    d.follow l (steps ++ steps') = .ok m ↔
      ∃ k, d.follow l steps = .ok k ∧ d.follow k steps' = .ok m := by
  rw [follow_append, Except.bind_eq_ok_iff]

theorem KeepsDirectories.follow (h : d.KeepsDirectories e) {l m : Location}
    {steps : List DiskPath.Step} (hfollow : d.follow l steps = .ok m) :
    e.follow l steps = .ok m := by
  induction steps generalizing l with
  | nil => exact hfollow
  | cons step steps ih =>
    obtain ⟨hl, k, hk, hfollow⟩ := follow_cons_eq_ok_iff.1 hfollow
    exact follow_cons_eq_ok_iff.2 ⟨h l hl, k, hk, ih hfollow⟩

theorem walk_of_follow {l m : Location} {steps : List DiskPath.Step}
    (h : d.follow l steps = .ok m) : l.walk steps = .ok m := by
  induction steps generalizing l with
  | nil => exact h
  | cons step steps ih =>
    obtain ⟨-, k, hk, h⟩ := follow_cons_eq_ok_iff.1 h
    exact Except.bind_eq_ok_iff.2 ⟨k, hk, ih h⟩

theorem prefix_of_step {l m : Location} {step : DiskPath.Step} (hup : step ≠ .up)
    (h : l.step step = .ok m) : l <+: m := by
  cases step with
  | root => cases h
  | here => exact Except.ok.inj h ▸ List.prefix_refl l
  | up => exact absurd rfl hup
  | into name =>
    unfold Location.step at h
    dsimp only at h
    split_ifs at h
    exact Except.ok.inj h ▸ List.prefix_append l _

theorem prefix_of_walk {l m : Location} {steps : List DiskPath.Step} (hup : .up ∉ steps)
    (h : l.walk steps = .ok m) : l <+: m := by
  induction steps generalizing l with
  | nil => exact Except.ok.inj h ▸ List.prefix_refl l
  | cons step steps ih =>
    obtain ⟨hstep, hup⟩ := not_or.1 (List.mem_cons.not.1 hup)
    obtain ⟨k, hk, h⟩ := Except.bind_eq_ok_iff.1 h
    exact (prefix_of_step (Ne.symm hstep) hk).trans (ih hup h)

theorem prefix_of_follow {l m : Location} {steps : List DiskPath.Step} (hup : .up ∉ steps)
    (h : d.follow l steps = .ok m) : l <+: m :=
  prefix_of_walk hup (walk_of_follow h)

/-- Steps that never go up can be followed as long as the directories on their way stay. -/
theorem follow_of_prefix {l m : Location} {steps : List DiskPath.Step} (hup : .up ∉ steps)
    (hstay : ∀ k, k <+: m → e.node? k = d.node? k) (h : d.follow l steps = .ok m) :
    e.follow l steps = .ok m := by
  induction steps generalizing l with
  | nil => exact h
  | cons step steps ih =>
    have hdown := prefix_of_follow hup h
    obtain ⟨-, hup⟩ := not_or.1 (List.mem_cons.not.1 hup)
    obtain ⟨hl, k, hk, h⟩ := follow_cons_eq_ok_iff.1 h
    exact follow_cons_eq_ok_iff.2 ⟨by rw [hstay l hdown, hl], k, hk, ih hup h⟩

theorem step_into_eq_ok_iff {l m : Location} {name : FileName} :
    l.step (.into name) = .ok m ↔ name.isTooLong = false ∧ l ++ [name] = m := by
  simp only [Location.step]
  cases name.isTooLong <;> simp

theorem of_follow_into {l m : Location} {names : Location}
    (h : d.follow l (names.map .into) = .ok m) :
    m = l ++ names ∧ ∀ name ∈ names, name.isTooLong = false := by
  induction names generalizing l with
  | nil => exact ⟨by simpa [follow] using h.symm, nofun⟩
  | cons name names ih =>
    obtain ⟨-, k, hk, h⟩ := follow_cons_eq_ok_iff.1 h
    obtain ⟨hname, rfl⟩ := step_into_eq_ok_iff.1 hk
    obtain ⟨rfl, hnames⟩ := ih h
    exact ⟨by simp, List.forall_mem_cons.2 ⟨hname, hnames⟩⟩

theorem follow_into_of_node? {l names : Location} {node : Node}
    (h : d.node? (l ++ names) = some node) :
    d.follow l (names.map .into) =
      if names.any FileName.isTooLong then .error .nameTooLong else .ok (l ++ names) := by
  induction names generalizing l with
  | nil => simp [follow]
  | cons name names ih =>
    have hl := node?_of_node?_append h
    rw [List.map_cons, follow, hl]
    dsimp only [Location.step]
    cases hname : name.isTooLong with
    | true => simp [hname]
    | false =>
      have h : d.node? (l ++ [name] ++ names) = some node := by simpa using h
      simp [hname, ih h]

/-- Steps can be followed as long as the directories that they lead through stay. -/
theorem follow_of_walk {l m : Location} {steps : List DiskPath.Step}
    (hstay : ∀ k ∈ steps.inits, ∀ n, l.walk k = .ok n → d.node? n = some .directory →
      e.node? n = some .directory)
    (h : d.follow l steps = .ok m) : e.follow l steps = .ok m := by
  induction steps generalizing l with
  | nil => exact h
  | cons step steps ih =>
    obtain ⟨hl, n, hn, h⟩ := follow_cons_eq_ok_iff.1 h
    refine follow_cons_eq_ok_iff.2 ⟨hstay [] (by simp) l rfl hl, n, hn, ih (fun k hk => ?_) h⟩
    intro o ho
    refine hstay (step :: k) (by simpa using hk) o ?_
    rw [Location.walk, hn]
    exact ho

/-! ## Locating -/

/-- A path leads to the directory at a location. -/
structure Reaches (d : Disk) (p : DiskPath) (dir : Location) : Prop where
  leads : d.follow [] p.steps = .ok dir
  isDirectory : d.node? dir = some .directory

theorem Reaches.mono {p : DiskPath} {dir : Location} (h : d.Reaches p dir)
    (hkeeps : d.KeepsDirectories e) : e.Reaches p dir :=
  ⟨hkeeps.follow h.leads, hkeeps dir h.isDirectory⟩

theorem Reaches.location?_eq {p : DiskPath} {dir : Location} (h : d.Reaches p dir) :
    p.location? = some dir := by
  rw [DiskPath.location?, walk_of_follow h.leads]
  rfl

theorem Reaches.unique {p : DiskPath} {dir dir' : Location} (h : d.Reaches p dir)
    (h' : e.Reaches p dir') :
    dir = dir' :=
  Option.some.inj (h.location?_eq.symm.trans h'.location?_eq)

theorem exists_of_location?_belowNames {p : DiskPath} {names l : Location}
    (h : (p.belowNames names).location? = some l) :
    ∃ dir, p.location? = some dir ∧ l = dir ++ names := by
  have hinto : ∀ names l m : Location, l.walk (names.map .into) = .ok m → m = l ++ names := by
    intro names
    induction names with
    | nil => exact fun l m hm => by simpa [Location.walk] using hm.symm
    | cons name names ih =>
      intro l m hm
      obtain ⟨k, hk, hm⟩ := Except.bind_eq_ok_iff.1 hm
      obtain ⟨-, rfl⟩ := step_into_eq_ok_iff.1 hk
      simpa using ih _ m hm
  rw [DiskPath.location?_eq_some_iff, p.steps_belowNames, Location.walk_append] at h
  obtain ⟨dir, hdir, hl⟩ := Except.bind_eq_ok_iff.1 h
  exact ⟨dir, DiskPath.location?_eq_some_iff.2 hdir, hinto names dir l hl⟩

/-- A path that leads past a location goes on leading where it leads if only what lies there
changes. -/
theorem Reaches.of_leadsPast {p : DiskPath} {dir : Location} {ls : Set Location}
    (h : d.Reaches p dir) (hpast : ∀ l ∈ ls, p.LeadsPast l) (hstay : ∀ m, (∀ l ∈ ls, ¬ l <+: m) →
    d.node? m = some .directory → e.node? m = some .directory) :
    e.Reaches p dir := by
  refine ⟨follow_of_walk (fun k hk n hn => hstay n fun l hl => hpast l hl k hk n hn) h.leads, ?_⟩
  exact hstay dir
    (fun l hl => hpast l hl p.steps (by simp) dir (walk_of_follow h.leads)) h.isDirectory

/-- A path that reaches a directory leads past whatever is not there. -/
theorem Reaches.leadsPast {p : DiskPath} {dir l : Location} (h : d.Reaches p dir)
    (hl : d.node? l = none) :
    p.LeadsPast l := by
  intro steps hsteps m hm hlm
  obtain ⟨rest, hrest⟩ := (List.mem_inits _ _).1 hsteps
  have hnode : d.node? m = some .directory := by
    obtain ⟨k, hk, hfollow⟩ := follow_append_eq_ok_iff.1 (hrest ▸ h.leads)
    obtain rfl := Except.ok.inj ((walk_of_follow hk).symm.trans hm)
    cases rest with
    | nil => exact Except.ok.inj hfollow ▸ h.isDirectory
    | cons step rest => exact (follow_cons_eq_ok_iff.1 hfollow).1
  rw [node?_of_prefix_of_none hl hlm] at hnode
  cases hnode

theorem reaches_directory_join_iff {p : DiskPath} {name : FileName} {dir : Location} :
    d.Reaches (p.join ⟨name.text⟩).directory dir ↔ d.Reaches p dir := by
  have hfollow : d.follow [] (p.join ⟨name.text⟩).directory.steps = d.follow [] p.steps := by
    rcases p.steps_directory_join name with hsteps | ⟨hp, hsteps⟩
    · rw [hsteps]
    · rw [hsteps, hp]
      simp [Disk.follow, Location.step]
  exact ⟨fun h => ⟨hfollow ▸ h.leads, h.isDirectory⟩, fun h =>
    ⟨hfollow.symm ▸ h.leads, h.isDirectory⟩⟩

theorem leadsPast_directory_join {p : DiskPath} {name : FileName} {l : Location}
    (h : p.LeadsPast l) :
    (p.join ⟨name.text⟩).directory.LeadsPast l := by
  intro steps hsteps m hm
  rcases p.steps_directory_join name with heq | ⟨hp, heq⟩
  · exact h steps (heq ▸ hsteps) m hm
  · -- Both steps that there can be lead to the root of the disk, where the path starts.
    rw [heq] at hsteps
    have hroot : m = [] := by
      simp only [List.inits, List.map_cons, List.map_nil, List.mem_cons, List.not_mem_nil,
        or_false] at hsteps
      rcases hsteps with rfl | rfl <;> exact (Except.ok.inj hm).symm
    exact h [] (by simp) m (hroot ▸ rfl)

theorem fault?_eq_none_iff {p : DiskPath} :
    p.fault? = none ↔ '\x00' ∉ p.text.toList ∧ p.text ≠ "" ∧ p.text.utf8ByteSize ≤ 4095 := by
  unfold DiskPath.fault? DiskPath.holdsNul DiskPath.isTooLong
  split_ifs <;> simp_all

theorem fault?_directory_join {p : DiskPath} {name : FileName}
    (h : (p.join ⟨name.text⟩).fault? = none) :
    (p.join ⟨name.text⟩).directory.fault? = none := by
  rcases p.directory_join_prefix name with hdot | hroot | hstart
  · rw [show (p.join ⟨name.text⟩).directory = ⟨"."⟩ from congrArg DiskPath.mk hdot]
    decide
  · rw [show (p.join ⟨name.text⟩).directory = ⟨"/"⟩ from congrArg DiskPath.mk hroot]
    decide
  · obtain ⟨hnul, -, hshort⟩ := fault?_eq_none_iff.1 h
    obtain ⟨rest, hrest⟩ := hstart
    have htext : (p.join ⟨name.text⟩).text = (p.join ⟨name.text⟩).directory.text ++
        String.ofList rest := by
      rw [← String.toList_inj, String.toList_append, String.toList_ofList, hrest]
    rw [htext, String.toList_append, List.mem_append] at hnul
    rw [htext, String.utf8ByteSize_append] at hshort
    exact fault?_eq_none_iff.2 ⟨fun hmem => hnul (.inl hmem), DiskPath.text_directory_ne _,
      by omega⟩

theorem locate_of_fault? {p : DiskPath} {fault : DiskFault} (h : p.fault? = some fault) :
    d.locate p = .error fault := by
  rw [locate, h]

theorem locate_eq_follow {p : DiskPath} (h : p.fault? = none) (hasks : p.asksForDirectory = false) :
    d.locate p = d.follow [] p.route := by
  rw [locate, h, hasks]
  cases d.follow [] p.route with
  | error fault => rfl
  | ok l =>
    simp only [bind, Except.bind]
    split <;> simp

theorem locate_eq_ok_iff {p : DiskPath} {l : Location} : d.locate p = .ok l ↔
    p.fault? = none ∧ d.follow [] p.route = .ok l ∧
      (p.asksForDirectory = true → ∀ content, d.node? l ≠ some (.file content)) := by
  unfold locate
  cases p.fault? with
  | some fault => simp
  | none =>
    rw [Except.bind_eq_ok_iff]
    constructor
    · rintro ⟨k, hk, h⟩
      split at h <;> grind
    · rintro ⟨-, hl, hasks⟩
      refine ⟨l, hl, ?_⟩
      split <;> grind

theorem Reaches.locate {p : DiskPath} {dir : Location} (h : d.Reaches p dir)
    (hp : p.fault? = none) :
    d.locate p = .ok dir := by
  refine locate_eq_ok_iff.2 ⟨hp, ?_, fun _ content => by simp [h.isDirectory]⟩
  rcases p.route_eq with hroute | hroute
  · rw [hroute, h.leads]
  · rw [hroute, follow_append_eq_ok_iff]
    exact ⟨dir, h.leads, by simp [Disk.follow, h.isDirectory, Location.step]⟩

theorem follow_steps {p : DiskPath} {l : Location} (h : d.follow [] p.route = .ok l) :
    d.follow [] p.steps = .ok l := by
  rcases p.route_eq with hroute | hroute
  · rwa [← hroute]
  · rw [hroute, follow_append_eq_ok_iff] at h
    obtain ⟨k, hk, hhere⟩ := h
    obtain ⟨-, k', hk', hdone⟩ := follow_cons_eq_ok_iff.1 hhere
    obtain rfl := Except.ok.inj hk'
    obtain rfl := Except.ok.inj hdone
    exact hk

theorem location?_of_locate {p : DiskPath} {l : Location} (h : d.locate p = .ok l) :
    p.location? = some l := by
  rw [DiskPath.location?, walk_of_follow (follow_steps (locate_eq_ok_iff.1 h).2.1)]
  rfl

theorem reaches_of_locate {p : DiskPath} {dir : Location} (h : d.locate p = .ok dir)
    (hdir : d.node? dir = some .directory) : d.Reaches p dir :=
  ⟨follow_steps (locate_eq_ok_iff.1 h).2.1, hdir⟩

variable {p : DiskPath} {dir names l : Location}

/-- What names below a path lead to lies below the directory that the path reaches. -/
theorem locate_belowNames_eq_ok_iff (hnames : names ≠ []) :
    d.locate (p.belowNames names) = .ok l ↔ (p.belowNames names).fault? = none ∧
      ∃ dir, d.Reaches p dir ∧ d.follow dir (names.map .into) = .ok l := by
  rw [locate_eq_ok_iff, p.route_belowNames hnames, p.asksForDirectory_belowNames hnames,
    follow_append_eq_ok_iff]
  obtain ⟨name, rest, rfl⟩ := List.exists_cons_of_ne_nil hnames
  constructor
  · rintro ⟨hp, ⟨dir, hdir, hfollow⟩, -⟩
    exact ⟨hp, dir, ⟨hdir, (follow_cons_eq_ok_iff.1 hfollow).1⟩, hfollow⟩
  · rintro ⟨hp, dir, hdir, hfollow⟩
    exact ⟨hp, ⟨dir, hdir.leads, hfollow⟩, nofun⟩

/-- Wherever a path can be followed, the names below it lead below the directory that it reaches. -/
theorem Reaches.eq_of_locate (h : d.Reaches p dir) (hnames : names ≠ [])
    (hl : e.locate (p.belowNames names) = .ok l) : l = dir ++ names := by
  obtain ⟨-, dir', hdir', hl⟩ := (locate_belowNames_eq_ok_iff hnames).1 hl
  obtain rfl := h.unique hdir'
  exact (of_follow_into hl).1

theorem Reaches.locate_belowNames (h : d.Reaches p dir) (hnames : names ≠ [])
    (hl : e.locate (p.belowNames names) = .ok l) {node : Node}
    (hnode : d.node? (dir ++ names) = some node) :
    d.locate (p.belowNames names) = .ok (dir ++ names) := by
  obtain ⟨hp, dir', -, hl⟩ := (locate_belowNames_eq_ok_iff hnames).1 hl
  refine (locate_belowNames_eq_ok_iff hnames).2 ⟨hp, dir, h, ?_⟩
  rw [follow_into_of_node? hnode, if_neg]
  simpa using (of_follow_into hl).2

/-- What lies below a directory that is reached is found, if the path to it can be followed at
all. -/
theorem Reaches.locate_ne_notFound (h : d.Reaches p dir) (hnames : names ≠ []) {node : Node}
    (hnode : d.node? (dir ++ names) = some node) :
    d.locate (p.belowNames names) ≠ .error .notFound := by
  intro hlost
  cases hfault : (p.belowNames names).fault? with
  | some fault =>
    rw [locate_of_fault? hfault] at hlost
    obtain rfl := Except.error.inj hlost
    have htext := p.text_belowNames_ne hnames
    unfold DiskPath.fault? at hfault
    split_ifs at hfault <;> simp_all
  | none =>
    have hfollow : d.follow [] (p.belowNames names).route =
        if names.any FileName.isTooLong then .error .nameTooLong else .ok (dir ++ names) := by
      rw [p.route_belowNames hnames, follow_append, h.leads, ← follow_into_of_node? hnode]
      rfl
    rw [locate_eq_follow hfault (p.asksForDirectory_belowNames hnames), hfollow] at hlost
    split_ifs at hlost
    cases hlost

/-- A path that ends in a name leads to the entry of that name in its directory. -/
theorem locate_eq_ok_iff_of_endsIn {name : FileName} (h : p.EndsIn name) : d.locate p = .ok l ↔
    p.fault? = none ∧ name.isTooLong = false ∧
      (∃ dir, d.Reaches p.directory dir ∧ l = dir ++ [name]) ∧
      (p.asksForDirectory = true → ∀ content, d.node? l ≠ some (.file content)) := by
  obtain ⟨q, hroute, hdirectory⟩ := h
  rw [locate_eq_ok_iff, hroute, hdirectory, follow_append_eq_ok_iff]
  refine and_congr_right fun _ => ?_
  rw [← and_assoc]
  refine and_congr_left fun _ => ?_
  constructor
  · rintro ⟨dir, hdir, hname⟩
    obtain ⟨hnode, l', hstep, hl⟩ := follow_cons_eq_ok_iff.1 hname
    obtain ⟨hshort, rfl⟩ := step_into_eq_ok_iff.1 hstep
    obtain rfl := Except.ok.inj hl
    exact ⟨hshort, dir, reaches_directory_join_iff.2 ⟨hdir, hnode⟩, rfl⟩
  · rintro ⟨hshort, dir, hreach, rfl⟩
    have hreach := reaches_directory_join_iff.1 hreach
    exact ⟨dir, hreach.leads,
      follow_cons_eq_ok_iff.2 ⟨hreach.isDirectory, _, step_into_eq_ok_iff.2 ⟨hshort, rfl⟩, rfl⟩⟩

/-- A path that never goes up has no way through itself. -/
theorem leadsPastItself_of_up_notMem (hup : .up ∉ p.steps) : p.LeadsPastItself := by
  intro hdots l hl
  obtain ⟨name, q, hroute, hdirectory⟩ := DiskPath.exists_endsIn hdots
  have hsteps : p.steps = q.steps ++ [.into name] := by
    rcases p.route_eq with heq | heq
    · exact heq.symm.trans hroute
    · have hlast := (List.append_inj' (heq.symm.trans hroute) rfl).2
      simp at hlast
  rw [Option.mem_def, DiskPath.location?_eq_some_iff, hsteps, Location.walk_append] at hl
  obtain ⟨k, hk, hl⟩ := Except.bind_eq_ok_iff.1 hl
  obtain ⟨_, hstep, hl⟩ := Except.bind_eq_ok_iff.1 hl
  obtain ⟨-, rfl⟩ := step_into_eq_ok_iff.1 hstep
  obtain rfl := Except.ok.inj hl
  rw [hdirectory]
  refine leadsPast_directory_join fun steps hinit m hm hkm => ?_
  obtain ⟨rest, hrest⟩ := (List.mem_inits _ _).1 hinit
  rw [← hrest, Location.walk_append, hm] at hk
  have hmk : m <+: k := prefix_of_walk (fun hmem => hup (by simp [hsteps, ← hrest, hmem])) hk
  have hlength := (hkm.trans hmk).length_le
  rw [List.length_append, List.length_singleton] at hlength
  omega

/-- Wherever a path that ends in a name can be followed, it leads to that name in the directory that
is reached. -/
theorem Reaches.of_locate {name : FileName} (h : d.Reaches p.directory dir) (hp : p.EndsIn name)
    (hl : e.locate p = .ok l) : l = dir ++ [name] ∧ e.Reaches p.directory dir := by
  obtain ⟨-, -, ⟨dir', hdir', rfl⟩, -⟩ := (locate_eq_ok_iff_of_endsIn hp).1 hl
  obtain rfl := h.unique hdir'
  exact ⟨rfl, hdir'⟩

/-- A path that was followed once leads to its name as long as its directory is reached and no file
is there. -/
theorem Reaches.locate_of_endsIn {name : FileName} (h : d.Reaches p.directory dir)
    (hp : p.EndsIn name) (hl : e.locate p = .ok l)
    (hnode : ∀ content, d.node? (dir ++ [name]) ≠ some (.file content)) :
    d.locate p = .ok (dir ++ [name]) := by
  obtain ⟨hvalid, hshort, -⟩ := (locate_eq_ok_iff_of_endsIn hp).1 hl
  exact (locate_eq_ok_iff_of_endsIn hp).2 ⟨hvalid, hshort, ⟨dir, h, rfl⟩, fun _ => hnode⟩

end Disk

end Patchwork
